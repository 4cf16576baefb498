import SlsteamMoon.PackagePatch.Package0
import SlsteamMoon.PackagePatch.RawVectors

/-! The application of a snapshot as a transaction on memory: both vectors are planned and given their
capacity before either is written. -/
namespace SlsteamMoon.PackagePatch
open OwnerQueue

/-- A seeded id that is still desired, or one that was appended. -/
theorem mem_buildNextSeeded (seeded : List UInt32) (plan : VectorPlan) (id : UInt32) :
    id ∈ buildNextSeeded seeded plan ↔ (id ∈ seeded ∧ id ∈ plan.desired) ∨ id ∈ plan.missing := by
  simp only [buildNextSeeded, List.mem_append, List.mem_filter, decide_eq_true_eq]

/-- The vector that a plan leaves. -/
def plannedVector (vec : CUtlVector) (seeded : List UInt32) (plan : VectorPlan) (alloc : Nat) : CUtlVector :=
  ⟨compactInjected vec.ids seeded plan.desired ++ plan.missing, alloc⟩

section Again

variable {vec : CUtlVector} {seeded desiredValues : List UInt32} {plan : VectorPlan} {alloc : Nat}

private theorem planned_desired (hfor : plan.For vec seeded desiredValues) {id : UInt32}
    (hseeded : id ∈ buildNextSeeded seeded plan) : id ∈ plan.desired := by
  obtain ⟨-, hid⟩ | hid := (mem_buildNextSeeded seeded plan id).mp hseeded
  · exact hid
  · rw [hfor.missing] at hid
    exact ((mem_missingFromVector ..).mp hid).1

/-- Every desired id is in the planned vector. -/
theorem desired_planned (hfor : plan.For vec seeded desiredValues) {id : UInt32} (hid : id ∈ plan.desired) :
    id ∈ (plannedVector vec seeded plan alloc).ids := by
  rw [plannedVector, List.mem_append, hfor.missing, mem_missingFromVector, mem_compactInjected]
  by_cases hlive : id ∈ vec.ids
  · exact .inl ⟨hlive, fun _ => hid⟩
  · exact .inr ⟨hid, hlive⟩

private theorem missing_again (hfor : plan.For vec seeded desiredValues) :
    missingFromVector (plannedVector vec seeded plan alloc).ids plan.desired = [] := by
  rw [List.eq_nil_iff_forall_not_mem]
  intro id hid
  obtain ⟨hdesired, hlive⟩ := (mem_missingFromVector ..).mp hid
  exact hlive (desired_planned hfor hdesired)

/-- Nothing of the planned vector is both seeded and undesired. -/
theorem compact_again (hfor : plan.For vec seeded desiredValues) (ids : List UInt32) :
    compactInjected ids (buildNextSeeded seeded plan) plan.desired = ids := by
  rw [compactInjected, List.filter_eq_self]
  intro id _
  simp only [decide_eq_true_eq, not_and, not_not]
  exact planned_desired hfor

/-- The plan for a vector that was just written has nothing to do. -/
def idlePlan (plan : VectorPlan) : VectorPlan := ⟨plan.desired, [], plan.targetSize, false⟩

private theorem buildVectorPlan_target (h : buildVectorPlan vec seeded desiredValues = some plan) :
    plan.targetSize ≤ kUint32Max := by
  simp only [buildVectorPlan] at h
  split_ifs at h with hvalid hlarge
  rw [← Option.some.inj h]
  exact Nat.le_of_not_lt hlarge

private theorem buildVectorPlan_again (h : buildVectorPlan vec seeded desiredValues = some plan)
    (hroom : plan.targetSize ≤ alloc) :
    buildVectorPlan (plannedVector vec seeded plan alloc) (buildNextSeeded seeded plan) desiredValues =
      some (idlePlan plan) := by
  have hfor := buildVectorPlan_for h
  have htarget := buildVectorPlan_target h
  have hlength : (plannedVector vec seeded plan alloc).ids.length = plan.targetSize := by
    rw [plannedVector, List.length_append, hfor.targetSize]
  have hvalid : (plannedVector vec seeded plan alloc).validLive = true := by
    rw [CUtlVector.validLive, CUtlVector.size, hlength]
    exact decide_eq_true hroom
  have hkept : (plannedVector vec seeded plan alloc).ids.countP
      (fun id => ¬(id ∈ buildNextSeeded seeded plan ∧ id ∉ plan.desired)) = plan.targetSize := by
    rw [List.countP_eq_length_filter]
    show (compactInjected _ (buildNextSeeded seeded plan) plan.desired).length = _
    rw [compact_again hfor, hlength]
  have hremoves : (plannedVector vec seeded plan alloc).ids.any
      (fun id => id ∈ buildNextSeeded seeded plan ∧ id ∉ plan.desired) = false := by
    rw [List.any_eq_false]
    intro id _
    simp only [decide_eq_true_eq, not_and, not_not]
    exact planned_desired hfor
  simp only [buildVectorPlan, hvalid, not_true_eq_false, if_false, ← hfor.desired, missing_again hfor, hkept, hremoves,
    List.length_nil, Nat.add_zero, idlePlan]
  rw [if_neg (by omega)]

private theorem prepareVectorLocked_fits {vec : CUtlVector} {plan : VectorPlan} (hvalid : vec.validLive = true)
    (hroom : plan.targetSize ≤ vec.alloc) (grown : Option Nat) : prepareVectorLocked vec plan grown = (vec, true) := by
  simp only [prepareVectorLocked]
  rw [if_neg (not_not.mpr hvalid), if_pos hroom]

private theorem applyVectorPlanLocked_again (hfor : plan.For vec seeded desiredValues) :
    applyVectorPlanLocked (plannedVector vec seeded plan alloc) (buildNextSeeded seeded plan) (idlePlan plan) =
      (plannedVector vec seeded plan alloc, false) := by
  simp only [applyVectorPlanLocked, idlePlan, compact_again hfor, List.append_nil, List.isEmpty_nil, CUtlVector.size,
    bne_self_eq_false, Bool.not_true, Bool.or_false]

end Again

namespace Globals

/-- What stands behind an application that goes through. -/
structure Commits (g : Globals) (snapshot : PackageSnapshot) (excluded : List UInt32) (grow : Option Grow)
    (apps depots : VectorPlan) (p prepared : PackageInfo) : Prop where
  package : g.package = some p
  ready : ¬(p.packageId ≠ 0 ∨ ¬p.available)
  appPlan : buildVectorPlan p.appIdVec g.seededAppIds (withoutIds snapshot.appIds excluded) = some apps
  depotPlan : buildVectorPlan p.depotIdVec g.seededDepotIds (withoutIds snapshot.depotIds excluded) = some depots
  prepares : prepareVectors p apps depots grow = (prepared, true)
  commits : g.applySnapshotLocked snapshot excluded grow = g.commitSnapshot prepared apps depots snapshot

private theorem commits_of {g : Globals} {snapshot : PackageSnapshot} {excluded : List UInt32} {grow : Option Grow}
    {apps depots : VectorPlan} {p prepared : PackageInfo} (hpackage : g.package = some p)
    (hready : ¬(p.packageId ≠ 0 ∨ ¬p.available))
    (happs : buildVectorPlan p.appIdVec g.seededAppIds (withoutIds snapshot.appIds excluded) = some apps)
    (hdepots : buildVectorPlan p.depotIdVec g.seededDepotIds (withoutIds snapshot.depotIds excluded) = some depots)
    (hprepares : prepareVectors p apps depots grow = (prepared, true)) :
    Commits g snapshot excluded grow apps depots p prepared := by
  refine ⟨hpackage, hready, happs, hdepots, hprepares, ?_⟩
  simp only [applySnapshotLocked, hpackage, if_neg hready, planSnapshot, happs, hdepots, hprepares, not_true_eq_false,
    if_false]

private theorem planSnapshot_eq_some {g : Globals} {p : PackageInfo} {snapshot : PackageSnapshot}
    {excluded : List UInt32} {apps depots : VectorPlan} (h : g.planSnapshot p snapshot excluded = some (apps, depots)) :
    buildVectorPlan p.appIdVec g.seededAppIds (withoutIds snapshot.appIds excluded) = some apps ∧
      buildVectorPlan p.depotIdVec g.seededDepotIds (withoutIds snapshot.depotIds excluded) = some depots := by
  simp only [planSnapshot] at h
  split at h
  · next happs hdepots =>
    obtain ⟨rfl, rfl⟩ := Prod.mk.inj (Option.some.inj h)
    exact ⟨happs, hdepots⟩
  · cases h

/-- An application is refused as it stands, or it commits its plans. -/
theorem applySnapshotLocked_cases (g : Globals) (snapshot : PackageSnapshot) (excluded : List UInt32)
    (grow : Option Grow) :
    ((g.applySnapshotLocked snapshot excluded grow).2 = {} ∧ g.admitted snapshot excluded grow = none) ∨
      ∃ apps depots p prepared, Commits g snapshot excluded grow apps depots p prepared := by
  cases hpackage : g.package with
  | none => exact .inl (by simp [applySnapshotLocked, admitted, hpackage])
  | some p =>
    by_cases hready : p.packageId ≠ 0 ∨ ¬p.available
    · exact .inl (by simp only [applySnapshotLocked, admitted, hpackage, if_pos hready, and_self])
    · cases hplans : g.planSnapshot p snapshot excluded with
      | none => exact .inl (by simp only [applySnapshotLocked, admitted, hpackage, if_neg hready, hplans, and_self])
      | some plans =>
        obtain ⟨apps, depots⟩ := plans
        obtain ⟨happs, hdepots⟩ := planSnapshot_eq_some hplans
        cases hprepared : prepareVectors p apps depots grow with
        | mk prepared ok =>
          cases ok with
          | false =>
            left
            simp only [applySnapshotLocked, admitted, hpackage, if_neg hready, hplans, hprepared, Bool.false_eq_true,
              not_false_eq_true, if_true, if_false, and_self]
          | true =>
            exact .inr ⟨apps, depots, p, prepared, commits_of hpackage hready happs hdepots hprepared⟩

/-- The globals that a commit leaves. -/
def committed (g : Globals) (snapshot : PackageSnapshot) (apps depots : VectorPlan) (package : PackageInfo) : Globals :=
  { g with
    package := some package
    seededAppIds := buildNextSeeded g.seededAppIds apps
    seededDepotIds := buildNextSeeded g.seededDepotIds depots
    pendingMetadataAppIds :=
      if snapshot.metadataComplete then []
      else g.pendingMetadataAppIds.filter (· ∈ apps.desired) ++ snapshot.addedAppIds
    appliedGeneration := snapshot.generation
    package0Injected := g.package0Injected || !snapshot.addedAppIds.isEmpty }

/-- The package with both planned vectors. -/
def plannedPackage (g : Globals) (apps depots : VectorPlan) (p prepared : PackageInfo) : PackageInfo :=
  { prepared with
    appIdVec := plannedVector p.appIdVec g.seededAppIds apps prepared.appIdVec.alloc
    depotIdVec := plannedVector p.depotIdVec g.seededDepotIds depots prepared.depotIdVec.alloc }

variable {g : Globals} {snapshot : PackageSnapshot} {excluded : List UInt32} {grow : Option Grow}
  {apps depots : VectorPlan} {p prepared : PackageInfo}

theorem Commits.ids (h : Commits g snapshot excluded grow apps depots p prepared) :
    prepared.appIdVec.ids = p.appIdVec.ids ∧ prepared.depotIdVec.ids = p.depotIdVec.ids := by
  have hids := prepareVectors_ids p apps depots grow
  rw [h.prepares] at hids
  exact ⟨hids .apps, hids .depots⟩

theorem Commits.room (h : Commits g snapshot excluded grow apps depots p prepared) :
    apps.targetSize ≤ prepared.appIdVec.alloc ∧ depots.targetSize ≤ prepared.depotIdVec.alloc := by
  have hroom := prepareVectors_room (congrArg Prod.snd h.prepares)
  rwa [h.prepares] at hroom

theorem Commits.result (h : Commits g snapshot excluded grow apps depots p prepared) :
    (g.applySnapshotLocked snapshot excluded grow).1 =
        committed g snapshot apps depots (plannedPackage g apps depots p prepared) ∧
      (g.applySnapshotLocked snapshot excluded grow).2.available = true ∧
      (g.applySnapshotLocked snapshot excluded grow).2.changed =
        ((applyVectorPlanLocked prepared.appIdVec g.seededAppIds apps).2 ||
          (applyVectorPlanLocked prepared.depotIdVec g.seededDepotIds depots).2) := by
  obtain ⟨happs, hdepots⟩ := h.ids
  obtain ⟨hroomApps, hroomDepots⟩ := h.room
  have hvalidApps := applyVectorPlanLocked_valid (buildVectorPlan_for h.appPlan) happs hroomApps
  have hvalidDepots := applyVectorPlanLocked_valid (buildVectorPlan_for h.depotPlan) hdepots hroomDepots
  have hplannedApps : (applyVectorPlanLocked prepared.appIdVec g.seededAppIds apps).1 =
      plannedVector p.appIdVec g.seededAppIds apps prepared.appIdVec.alloc := by
    simp only [applyVectorPlanLocked, plannedVector, happs]
  have hplannedDepots : (applyVectorPlanLocked prepared.depotIdVec g.seededDepotIds depots).1 =
      plannedVector p.depotIdVec g.seededDepotIds depots prepared.depotIdVec.alloc := by
    simp only [applyVectorPlanLocked, plannedVector, hdepots]
  have hvalid : ¬¬((applyVectorPlanLocked prepared.appIdVec g.seededAppIds apps).1.validLive = true ∧
      (applyVectorPlanLocked prepared.depotIdVec g.seededDepotIds depots).1.validLive = true) :=
    not_not.mpr ⟨hvalidApps, hvalidDepots⟩
  rw [h.commits, commitSnapshot, if_neg hvalid]
  refine ⟨?_, rfl, rfl⟩
  simp only [committed, plannedPackage, hplannedApps, hplannedDepots]

private theorem Commits.plannedReady (h : Commits g snapshot excluded grow apps depots p prepared) :
    ¬((plannedPackage g apps depots p prepared).packageId ≠ 0 ∨
      ¬(plannedPackage g apps depots p prepared).available = true) := by
  have hsame : prepared = (prepareVectors p apps depots grow).1 := by rw [h.prepares]
  have hfields : prepared.packageId = p.packageId ∧ prepared.available = p.available := by
    rw [hsame, prepareVectors]
    dsimp only
    split <;> exact ⟨rfl, rfl⟩
  show ¬(prepared.packageId ≠ 0 ∨ ¬prepared.available = true)
  rw [hfields.1, hfields.2]
  exact h.ready

private theorem plannedVector_valid {vec : CUtlVector} {seeded desiredValues : List UInt32} {plan : VectorPlan}
    {alloc : Nat} (hfor : plan.For vec seeded desiredValues) (hroom : plan.targetSize ≤ alloc) :
    (plannedVector vec seeded plan alloc).validLive = true := by
  simp only [plannedVector, CUtlVector.validLive, CUtlVector.size, List.length_append, ← hfor.targetSize]
  exact decide_eq_true hroom

private theorem Commits.idlePrepares (h : Commits g snapshot excluded grow apps depots p prepared)
    (grow' : Option Grow) :
    prepareVectors (plannedPackage g apps depots p prepared) (idlePlan apps) (idlePlan depots) grow' =
      (plannedPackage g apps depots p prepared, true) := by
  obtain ⟨hroomApps, hroomDepots⟩ := h.room
  have happs : prepareVectorLocked (plannedPackage g apps depots p prepared).appIdVec (idlePlan apps)
      (grow'.map Grow.apps) = ((plannedPackage g apps depots p prepared).appIdVec, true) :=
    prepareVectorLocked_fits (plannedVector_valid (buildVectorPlan_for h.appPlan) hroomApps) hroomApps _
  have hdepots : prepareVectorLocked (plannedPackage g apps depots p prepared).depotIdVec (idlePlan depots)
      (grow'.map Grow.depots) = ((plannedPackage g apps depots p prepared).depotIdVec, true) :=
    prepareVectorLocked_fits (plannedVector_valid (buildVectorPlan_for h.depotPlan) hroomDepots) hroomDepots _
  simp only [prepareVectors, happs, hdepots, if_true]

/-- On what it left, the same snapshot commits idle plans. -/
theorem Commits.idle (h : Commits g snapshot excluded grow apps depots p prepared) (grow' : Option Grow) :
    Commits (committed g snapshot apps depots (plannedPackage g apps depots p prepared)) snapshot excluded grow'
      (idlePlan apps) (idlePlan depots) (plannedPackage g apps depots p prepared)
      (plannedPackage g apps depots p prepared) := by
  apply commits_of rfl h.plannedReady
  · exact buildVectorPlan_again h.appPlan h.room.1
  · exact buildVectorPlan_again h.depotPlan h.room.2
  · exact h.idlePrepares grow'

/-- The same snapshot again has nothing to do. -/
theorem Commits.again (h : Commits g snapshot excluded grow apps depots p prepared) (grow' : Option Grow) :
    ((g.applySnapshotLocked snapshot excluded grow).1.applySnapshotLocked snapshot excluded grow').2.available = true ∧
      ((g.applySnapshotLocked snapshot excluded grow).1.applySnapshotLocked snapshot excluded grow').2.changed =
        false := by
  obtain ⟨-, havailable, hchanged⟩ := (h.idle grow').result
  rw [h.result.1]
  refine ⟨havailable, ?_⟩
  rw [hchanged, Bool.or_eq_false_iff]
  constructor
  · show (applyVectorPlanLocked (plannedVector p.appIdVec g.seededAppIds apps _) (buildNextSeeded _ apps) _).2 = false
    rw [applyVectorPlanLocked_again (buildVectorPlan_for h.appPlan)]
  · show (applyVectorPlanLocked (plannedVector p.depotIdVec g.seededDepotIds depots _) (buildNextSeeded _ depots) _).2 =
      false
    rw [applyVectorPlanLocked_again (buildVectorPlan_for h.depotPlan)]

end Globals

structure RawPackage where
  packageId : UInt32 := 0
  available : Bool
  appIdVec : RawVector
  depotIdVec : RawVector

def RawPackage.vec (p : RawPackage) : Which → RawVector
  | .apps => p.appIdVec
  | .depots => p.depotIdVec

def RawPackage.logical (p : RawPackage) : PackageInfo :=
  ⟨p.packageId, p.available, p.appIdVec.logical, p.depotIdVec.logical⟩

/-- The package in memory, with the other globals; theirs is not read. -/
structure RawGlobals where
  package : Option RawPackage
  rest : Globals

namespace RawGlobals

/-- The globals with the elements of the vectors. -/
def view (g : RawGlobals) : Globals := { g.rest with package := g.package.map RawPackage.logical }

def commitSnapshot (g : RawGlobals) (p : RawPackage) (apps depots : VectorPlan) (snapshot : PackageSnapshot) :
    Option (RawGlobals × SnapshotApplyResult) :=
  (p.appIdVec.applyVectorPlanLocked g.rest.seededAppIds apps).bind fun appliedApps =>
    (p.depotIdVec.applyVectorPlanLocked g.rest.seededDepotIds depots).map fun appliedDepots =>
      let package := some { p with appIdVec := appliedApps.1, depotIdVec := appliedDepots.1 }
      if ¬(appliedApps.1.validLiveVector ∧ appliedDepots.1.validLiveVector) then ({ g with package }, {})
      else
        let appAdded := !snapshot.addedAppIds.isEmpty
        (⟨package,
          { g.rest with
            seededAppIds := buildNextSeeded g.rest.seededAppIds apps
            seededDepotIds := buildNextSeeded g.rest.seededDepotIds depots
            pendingMetadataAppIds :=
              if snapshot.metadataComplete then []
              else g.rest.pendingMetadataAppIds.filter (· ∈ apps.desired) ++ snapshot.addedAppIds
            appliedGeneration := snapshot.generation
            package0Injected := g.rest.package0Injected || appAdded }⟩,
          { available := true
            changed := appliedApps.2 || appliedDepots.2
            appAdded
            appInfoRequestIds := snapshot.appInfoRequestIds })

/-- The capacities of both vectors, then the writes. -/
def prepareSnapshot (g : RawGlobals) (p : RawPackage) (apps depots : VectorPlan) (snapshot : PackageSnapshot)
    (grow : Option (Which → GrowCall)) : Option (RawGlobals × SnapshotApplyResult) :=
  let preparedApps := p.appIdVec.prepareVectorLocked apps (grow.map fun call => call .apps)
  let withApps := { p with appIdVec := preparedApps.1 }
  if ¬preparedApps.2 then some ({ g with package := some withApps }, {})
  else
    let preparedDepots := p.depotIdVec.prepareVectorLocked depots (grow.map fun call => call .depots)
    let withBoth := { withApps with depotIdVec := preparedDepots.1 }
    if ¬preparedDepots.2 then some ({ g with package := some withBoth }, {})
    else g.commitSnapshot withBoth apps depots snapshot

/-- No result is an access outside the slots of a vector. -/
def applySnapshotLocked (g : RawGlobals) (snapshot : PackageSnapshot) (excluded : List UInt32)
    (grow : Option (Which → GrowCall)) : Option (RawGlobals × SnapshotApplyResult) :=
  match g.package with
  | none => some (g, {})
  | some p =>
    if p.packageId ≠ 0 ∨ ¬p.available then some (g, {})
    else
      match p.appIdVec.buildVectorPlan g.rest.seededAppIds (withoutIds snapshot.appIds excluded),
        p.depotIdVec.buildVectorPlan g.rest.seededDepotIds (withoutIds snapshot.depotIds excluded) with
      | some apps, some depots => g.prepareSnapshot p apps depots snapshot grow
      | _, _ => some (g, {})

/-- Both vectors of a known package are within their slots. -/
def Live (g : RawGlobals) : Prop := ∀ p, g.package = some p → ∀ v, (p.vec v).Live

/-- Every grow call that is made keeps the slots there are. -/
def Keeping (grow : Option (Which → GrowCall)) : Prop := ∀ call, grow = some call → ∀ v, (call v).Keeps

/-- The call on memory ends, and as the call on the elements does. -/
def Simulates (g : RawGlobals) (snapshot : PackageSnapshot) (excluded : List UInt32)
    (answer : Option (RawGlobals × SnapshotApplyResult)) : Prop :=
  ∃ next result, answer = some (next, result) ∧ next.Live ∧
    ∃ grow, (next.view, result) = g.view.applySnapshotLocked snapshot excluded grow

private theorem commitSnapshot_spec {g : RawGlobals} {p : RawPackage} {apps depots : VectorPlan}
    {snapshot : PackageSnapshot} (hlive : ∀ v, (p.vec v).Live)
    (happs : (compactInjected p.appIdVec.logical.ids g.rest.seededAppIds apps.desired).length + apps.missing.length ≤
      p.appIdVec.alloc)
    (hdepots : (compactInjected p.depotIdVec.logical.ids g.rest.seededDepotIds depots.desired).length +
      depots.missing.length ≤ p.depotIdVec.alloc) :
    ∃ next result, g.commitSnapshot p apps depots snapshot = some (next, result) ∧ next.Live ∧
      (next.view, result) = g.view.commitSnapshot p.logical apps depots snapshot := by
  obtain ⟨appIdVec, appsChanged, happlied, happLive, happ⟩ := applyRaw_spec (hlive .apps) happs
  obtain ⟨depotIdVec, depotsChanged, hdepotApplied, hdepotLive, hdepot⟩ := applyRaw_spec (hlive .depots) hdepots
  have hvalid : ∀ vec : RawVector, vec.Live → vec.validLiveVector = true ∧ vec.logical.validLive = true := by
    intro vec hvec
    refine ⟨(validLiveVector_iff vec).mpr hvec, ?_⟩
    rw [CUtlVector.validLive, logical_size hvec]
    exact decide_eq_true hvec
  obtain ⟨happRaw, happLogical⟩ := hvalid appIdVec happLive
  obtain ⟨hdepotRaw, hdepotLogical⟩ := hvalid depotIdVec hdepotLive
  have happView : applyVectorPlanLocked p.logical.appIdVec g.view.seededAppIds apps = (appIdVec.logical, appsChanged) :=
    happ.symm
  have hdepotView : applyVectorPlanLocked p.logical.depotIdVec g.view.seededDepotIds depots =
      (depotIdVec.logical, depotsChanged) := hdepot.symm
  simp only [RawPackage.vec] at happlied hdepotApplied
  rw [commitSnapshot, happlied, Option.bind_some, hdepotApplied, Option.map_some, Globals.commitSnapshot, happView,
    hdepotView]
  dsimp only
  rw [if_neg (not_not.mpr ⟨happRaw, hdepotRaw⟩), if_neg (not_not.mpr ⟨happLogical, hdepotLogical⟩)]
  refine ⟨_, _, rfl, ?_, rfl⟩
  intro q hq v
  obtain rfl := Option.some.inj hq
  cases v with
  | apps => exact happLive
  | depots => exact hdepotLive

private theorem live_package {g : RawGlobals} {p : RawPackage} (hp : ∀ v, (p.vec v).Live) :
    Live { g with package := some p } := by
  intro q hq
  obtain rfl := Option.some.inj hq
  exact hp

/-- What both grow calls leave allocated. -/
def grownBoth (p : RawPackage) (apps depots : VectorPlan) (grow : Option (Which → GrowCall)) : Option Grow :=
  grow.map fun call => ⟨grownAlloc p.appIdVec apps (call .apps), grownAlloc p.depotIdVec depots (call .depots)⟩

private theorem prepareBoth_spec {p : RawPackage} {grow : Option (Which → GrowCall)} (hlive : ∀ v, (p.vec v).Live)
    (hkeeping : Keeping grow) (apps depots : VectorPlan) :
    let preparedApps := p.appIdVec.prepareVectorLocked apps (grow.map fun call => call .apps)
    let preparedDepots := p.depotIdVec.prepareVectorLocked depots (grow.map fun call => call .depots)
    preparedApps.1.Live ∧ preparedDepots.1.Live ∧
      Globals.prepareVectors p.logical apps depots (grownBoth p apps depots grow) =
        if preparedApps.2 = true then
          (RawPackage.logical ⟨p.packageId, p.available, preparedApps.1, preparedDepots.1⟩, preparedDepots.2)
        else (RawPackage.logical ⟨p.packageId, p.available, preparedApps.1, p.depotIdVec⟩, false) := by
  have hkeep : ∀ v call, (grow.map fun call => call v) = some call → call.Keeps := by
    intro v call hcall
    obtain ⟨both, hboth, rfl⟩ := Option.map_eq_some_iff.mp hcall
    exact hkeeping both hboth v
  obtain ⟨happLive, happs⟩ := prepareRaw_spec apps (hlive .apps) (hkeep .apps)
  obtain ⟨hdepotLive, hdepots⟩ := prepareRaw_spec depots (hlive .depots) (hkeep .depots)
  refine ⟨happLive, hdepotLive, ?_⟩
  have happGrow : (grownBoth p apps depots grow).map Grow.apps =
      (grow.map fun call => call .apps).map fun call => grownAlloc p.appIdVec apps call := by
    cases grow <;> rfl
  have hdepotGrow : (grownBoth p apps depots grow).map Grow.depots =
      (grow.map fun call => call .depots).map fun call => grownAlloc p.depotIdVec depots call := by
    cases grow <;> rfl
  simp only [RawPackage.vec] at happs hdepots
  simp only [Globals.prepareVectors, RawPackage.logical, happGrow, hdepotGrow, ← happs, ← hdepots]

private theorem buildVectorPlan_logical {vec : RawVector} (h : vec.Live) (seeded desiredValues : List UInt32) :
    vec.buildVectorPlan seeded desiredValues = PackagePatch.buildVectorPlan vec.logical seeded desiredValues := by
  rw [RawVector.buildVectorPlan, if_pos ((validLiveVector_iff vec).mpr h)]

/-- The end of a transaction whose plans were built and whose capacities suffice. -/
theorem commit_simulates {g : RawGlobals} {p prepared : RawPackage} {snapshot : PackageSnapshot}
    {excluded : List UInt32} {grow : Option Grow} {apps depots : VectorPlan} (hprepared : ∀ v, (prepared.vec v).Live)
    (hcommits : Globals.Commits g.view snapshot excluded grow apps depots p.logical prepared.logical) :
    Simulates g snapshot excluded (g.commitSnapshot prepared apps depots snapshot) := by
  obtain ⟨happs, hdepots⟩ := hcommits.ids
  obtain ⟨hroomApps, hroomDepots⟩ := hcommits.room
  rw [(buildVectorPlan_for hcommits.appPlan).targetSize, ← happs] at hroomApps
  rw [(buildVectorPlan_for hcommits.depotPlan).targetSize, ← hdepots] at hroomDepots
  obtain ⟨next, result, hcommit, hlive, hview⟩ := commitSnapshot_spec hprepared hroomApps hroomDepots
  exact ⟨next, result, hcommit, hlive, grow, hview.trans hcommits.commits.symm⟩

/-- The capacities are prepared as on the elements, and a failed grow call leaves the elements. -/
theorem prepareSnapshot_simulates {g : RawGlobals} {p : RawPackage} {grow : Option (Which → GrowCall)}
    {snapshot : PackageSnapshot} {excluded : List UInt32} {apps depots : VectorPlan} (hkeeping : Keeping grow)
    (hpackage : g.package = some p) (hp : ∀ v, (p.vec v).Live) (hready : ¬(p.packageId ≠ 0 ∨ ¬p.available))
    (happs : buildVectorPlan p.appIdVec.logical g.rest.seededAppIds (withoutIds snapshot.appIds excluded) = some apps)
    (hdepots : buildVectorPlan p.depotIdVec.logical g.rest.seededDepotIds (withoutIds snapshot.depotIds excluded) =
      some depots) : Simulates g snapshot excluded (g.prepareSnapshot p apps depots snapshot grow) := by
  have hview : g.view.package = some p.logical := by rw [view, hpackage, Option.map_some]
  have hready' : ¬(p.logical.packageId ≠ 0 ∨ ¬p.logical.available = true) := hready
  have hplan : g.view.planSnapshot p.logical snapshot excluded = some (apps, depots) := by
    rw [Globals.planSnapshot, show buildVectorPlan p.logical.appIdVec g.view.seededAppIds _ = some apps from happs,
      show buildVectorPlan p.logical.depotIdVec g.view.seededDepotIds _ = some depots from hdepots]
  obtain ⟨happLive, hdepotLive, hprepares⟩ := prepareBoth_spec hp hkeeping apps depots
  simp only [prepareSnapshot]
  by_cases happOk : (p.appIdVec.prepareVectorLocked apps (grow.map fun call => call .apps)).2 = true
  · rw [if_neg (not_not.mpr happOk)]
    rw [if_pos happOk] at hprepares
    have hboth : ∀ v, (RawPackage.vec ⟨p.packageId, p.available,
        (p.appIdVec.prepareVectorLocked apps (grow.map fun call => call .apps)).1,
        (p.depotIdVec.prepareVectorLocked depots (grow.map fun call => call .depots)).1⟩ v).Live := by
      rintro (_ | _)
      · exact happLive
      · exact hdepotLive
    by_cases hdepotOk : (p.depotIdVec.prepareVectorLocked depots (grow.map fun call => call .depots)).2 = true
    · rw [if_neg (not_not.mpr hdepotOk)]
      rw [hdepotOk] at hprepares
      exact commit_simulates hboth (Globals.commits_of hview hready' happs hdepots hprepares)
    · rw [if_pos hdepotOk]
      refine ⟨_, _, rfl, live_package hboth, grownBoth p apps depots grow, ?_⟩
      simp only [Globals.applySnapshotLocked, hview, if_neg hready', hplan, hprepares, if_pos hdepotOk]
      rfl
  · rw [if_pos happOk]
    rw [if_neg happOk] at hprepares
    refine ⟨_, _, rfl, live_package ?_, grownBoth p apps depots grow, ?_⟩
    · rintro (_ | _)
      · exact happLive
      · exact hp .depots
    · simp only [Globals.applySnapshotLocked, hview, if_neg hready', hplan, hprepares, Bool.false_eq_true,
        not_false_eq_true, if_true]
      rfl

/-- The transaction on memory stays within the slots and does what it does on the elements. -/
theorem applySnapshotLocked_simulates {g : RawGlobals} {grow : Option (Which → GrowCall)} (hlive : g.Live)
    (hkeeping : Keeping grow) (snapshot : PackageSnapshot) (excluded : List UInt32) :
    Simulates g snapshot excluded (g.applySnapshotLocked snapshot excluded grow) := by
  have hrefused : ∀ grow, g.view.applySnapshotLocked snapshot excluded grow = (g.view, {}) →
      Simulates g snapshot excluded (some (g, {})) := fun grow h => ⟨g, {}, rfl, hlive, grow, h.symm⟩
  simp only [applySnapshotLocked]
  cases hpackage : g.package with
  | none =>
    apply hrefused none
    simp only [Globals.applySnapshotLocked, view, hpackage, Option.map_none]
  | some p =>
    have hp := hlive p hpackage
    have happLive : p.appIdVec.Live := hp .apps
    have hdepotLive : p.depotIdVec.Live := hp .depots
    have hview : g.view.package = some p.logical := by rw [view, hpackage, Option.map_some]
    dsimp only
    by_cases hready : p.packageId ≠ 0 ∨ ¬p.available = true
    · rw [if_pos hready]
      apply hrefused none
      simp only [Globals.applySnapshotLocked, hview]
      exact if_pos hready
    · rw [if_neg hready, buildVectorPlan_logical happLive, buildVectorPlan_logical hdepotLive]
      have hunplanned : g.view.planSnapshot p.logical snapshot excluded = none →
          Simulates g snapshot excluded (some (g, {})) := by
        intro hplan
        apply hrefused none
        simp only [Globals.applySnapshotLocked, hview, hplan]
        exact ite_self _
      cases happs : buildVectorPlan p.appIdVec.logical g.rest.seededAppIds (withoutIds snapshot.appIds excluded) with
      | none =>
        apply hunplanned
        rw [Globals.planSnapshot, show buildVectorPlan p.logical.appIdVec g.view.seededAppIds _ = none from happs]
      | some apps =>
        cases hdepots : buildVectorPlan p.depotIdVec.logical g.rest.seededDepotIds
            (withoutIds snapshot.depotIds excluded) with
        | none =>
          apply hunplanned
          rw [Globals.planSnapshot, show buildVectorPlan p.logical.appIdVec g.view.seededAppIds _ = some apps from happs,
            show buildVectorPlan p.logical.depotIdVec g.view.seededDepotIds _ = none from hdepots]
        | some depots => exact prepareSnapshot_simulates hkeeping hpackage hp hready happs hdepots

end RawGlobals

/-- The non-zero ids that a snapshot wants in a vector, without the excluded ones. -/
def desiredIds (snapshot : PackageSnapshot) (excluded : List UInt32) : Which → List UInt32
  | .apps => (withoutIds snapshot.appIds excluded).filter (· ≠ 0)
  | .depots => (withoutIds snapshot.depotIds excluded).filter (· ≠ 0)

/-- A vector and its seeded set after a snapshot that wants these ids. -/
structure Reconciled (live seeded desired live' seeded' : List UInt32) : Prop where
  elements : live' = compactInjected live seeded desired ++ missingFromVector live desired
  owned : ∀ id, id ∈ seeded' ↔ (id ∈ seeded ∧ id ∈ desired) ∨ id ∈ missingFromVector live desired
  ascending : (missingFromVector live desired).Pairwise (· < ·)
  absent : ∀ id, id ∈ missingFromVector live desired ↔ (id ∈ desired ∧ id ≠ 0) ∧ id ∉ live

private theorem planned_reconciled {vec : CUtlVector} {seeded desiredValues : List UInt32} {plan : VectorPlan}
    (hfor : plan.For vec seeded desiredValues) (alloc : Nat) :
    Reconciled vec.ids seeded (desiredValues.filter (· ≠ 0)) (plannedVector vec seeded plan alloc).ids
      (buildNextSeeded seeded plan) := by
  rw [← hfor.desired]
  refine ⟨?_, fun id => ?_, missingFromVector_ascending _ _, fun id => ?_⟩
  · rw [plannedVector, hfor.missing]
  · rw [mem_buildNextSeeded, hfor.missing]
  · have hnonzero : id ∈ plan.desired → id ≠ 0 := by
      rw [hfor.desired]
      exact fun hid => of_decide_eq_true (List.mem_filter.mp hid).2
    rw [mem_missingFromVector, and_iff_left_of_imp hnonzero]

private theorem Globals.Commits.reconciled {g : Globals} {snapshot : PackageSnapshot} {excluded : List UInt32}
    {grow : Option Grow} {apps depots : VectorPlan} {p prepared : PackageInfo}
    (h : Commits g snapshot excluded grow apps depots p prepared) (v : Which) :
    Reconciled (g.live v) (g.seeded v) (desiredIds snapshot excluded v)
      ((g.applySnapshotLocked snapshot excluded grow).1.live v)
      ((g.applySnapshotLocked snapshot excluded grow).1.seeded v) := by
  have hlive : g.live v = p.ids v := by rw [Globals.live, h.package, Option.map_some, Option.getD_some]
  rw [hlive, h.result.1]
  cases v with
  | apps => exact planned_reconciled (buildVectorPlan_for h.appPlan) _
  | depots => exact planned_reconciled (buildVectorPlan_for h.depotPlan) _

namespace RawGlobals

/-- The same snapshot on what an application left has nothing to do. -/
theorem again_unchanged {g next : RawGlobals} {result : SnapshotApplyResult} {snapshot : PackageSnapshot}
    {excluded : List UInt32} {grow : Option Grow} {apps depots : VectorPlan} {p prepared : PackageInfo}
    (hcommits : Globals.Commits g.view snapshot excluded grow apps depots p prepared) (hlive : next.Live)
    (hview : (next.view, result) = g.view.applySnapshotLocked snapshot excluded grow)
    {grow' : Option (Which → GrowCall)} (hkeeping : Keeping grow') :
    ∃ last again, next.applySnapshotLocked snapshot excluded grow' = some (last, again) ∧ again.available = true ∧
      again.changed = false := by
  obtain ⟨last, again, hagain, -, used, hlast⟩ := applySnapshotLocked_simulates hlive hkeeping snapshot excluded
  refine ⟨last, again, hagain, ?_⟩
  have hidle := hcommits.again used
  rw [← hview] at hidle
  rw [show again = (next.view.applySnapshotLocked snapshot excluded used).2 from congrArg Prod.snd hlast]
  exact hidle

/-- A snapshot is refused with both vectors and both seeded sets as they were, or it is carried out on both, within
the slots; on what it left, the same snapshot changes nothing. -/
theorem snapshot_application_is_transaction (g : RawGlobals) (snapshot : PackageSnapshot) (excluded : List UInt32)
    (grow : Option (Which → GrowCall)) (hlive : g.Live) (hkeeping : Keeping grow) :
    ∃ next result, g.applySnapshotLocked snapshot excluded grow = some (next, result) ∧ next.Live ∧
      ((result.available = false ∧ ∀ v, next.view.live v = g.view.live v ∧ next.view.seeded v = g.view.seeded v) ∨
        (result.available = true ∧
          (∀ v, Reconciled (g.view.live v) (g.view.seeded v) (desiredIds snapshot excluded v) (next.view.live v)
            (next.view.seeded v)) ∧
          ∀ grow', Keeping grow' →
            ∃ last again, next.applySnapshotLocked snapshot excluded grow' = some (last, again) ∧
              again.available = true ∧ again.changed = false)) := by
  obtain ⟨next, result, happly, hnext, used, hview⟩ := applySnapshotLocked_simulates hlive hkeeping snapshot excluded
  refine ⟨next, result, happly, hnext, ?_⟩
  have hglobals : next.view = (g.view.applySnapshotLocked snapshot excluded used).1 := congrArg Prod.fst hview
  have hresult : result = (g.view.applySnapshotLocked snapshot excluded used).2 := congrArg Prod.snd hview
  obtain ⟨hrefused, hadmitted⟩ | ⟨apps, depots, p, prepared, hcommits⟩ :=
    g.view.applySnapshotLocked_cases snapshot excluded used
  · left
    rw [hresult, hrefused, hglobals]
    exact ⟨rfl, fun v => Globals.applySnapshotLocked_refused hadmitted v⟩
  · right
    obtain ⟨-, havailable, -⟩ := hcommits.result
    refine ⟨by rw [hresult, havailable], ?_, ?_⟩
    · intro v
      rw [hglobals]
      exact hcommits.reconciled v
    · intro grow' hkeeping'
      exact again_unchanged hcommits hnext hview hkeeping'

/-- Two app slots that are full, and an empty depot vector without memory. -/
def fullPackage : RawGlobals :=
  ⟨some ⟨0, true, ⟨some [10, 20], 2⟩, ⟨none, 0⟩⟩, { seededAppIds := [20] }⟩

/-- A reallocation to zeroed slots behind those there are. -/
def zeroGrow : GrowCall := fun base growBy => some (slots base ++ List.replicate growBy 0)

private theorem fullPackage_live : fullPackage.Live := by
  intro p hp
  obtain rfl := Option.some.inj hp
  rintro (_ | _)
  · exact Nat.le_refl 2
  · exact Nat.le_refl 0

private theorem zeroGrow_keeping : Keeping (some fun _ => zeroGrow) := by
  intro call hcall v
  obtain rfl := Option.some.inj hcall
  exact fun base growBy => List.prefix_append (slots base) (List.replicate growBy 0)

theorem snapshot_application_is_transaction_grown :
    ∃ next result, fullPackage.applySnapshotLocked { generation := 1, appIds := [30, 10, 25] } []
      (some fun _ => zeroGrow) = some (next, result) ∧ next.Live ∧
      ((result.available = false ∧
          ∀ v, next.view.live v = fullPackage.view.live v ∧ next.view.seeded v = fullPackage.view.seeded v) ∨
        (result.available = true ∧
          (∀ v, Reconciled (fullPackage.view.live v) (fullPackage.view.seeded v)
            (desiredIds { generation := 1, appIds := [30, 10, 25] } [] v) (next.view.live v) (next.view.seeded v)) ∧
          ∀ grow', Keeping grow' →
            ∃ last again, next.applySnapshotLocked { generation := 1, appIds := [30, 10, 25] } [] grow' =
              some (last, again) ∧ again.available = true ∧ again.changed = false)) :=
  snapshot_application_is_transaction fullPackage _ _ _ fullPackage_live zeroGrow_keeping

-- 20 was seeded and goes, and the two absent ids need one slot more.
example : ((fullPackage.applySnapshotLocked { generation := 1, appIds := [30, 10, 25] } []
    (some fun _ => zeroGrow)).map fun answer => (answer.1.view.live .apps, answer.1.view.seeded .apps)) =
      some ([10, 25, 30], [25, 30]) := by decide +kernel

end RawGlobals

end SlsteamMoon.PackagePatch
