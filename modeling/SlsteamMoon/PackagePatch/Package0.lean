import SlsteamMoon.PackagePatch.Vectors
import SlsteamMoon.Runs

/-! Package 0 over Steam's reloads and the runtime snapshots. Everything the seeded
mutex guards is one state and each section under it is one step. -/
namespace SlsteamMoon.PackagePatch
open OwnerQueue

/-- AppIdVec and DepotIdVec are treated alike. -/
inductive Which where
  | apps | depots
  deriving DecidableEq, Repr

structure PackageInfo where
  packageId : UInt32 := 0
  available : Bool
  appIdVec : CUtlVector
  depotIdVec : CUtlVector
  deriving DecidableEq, Repr

def PackageInfo.ids (p : PackageInfo) : Which → List UInt32
  | .apps => p.appIdVec.ids
  | .depots => p.depotIdVec.ids

/-- What the grow calls of one step leave allocated. -/
structure Grow where
  apps : Nat
  depots : Nat
  deriving DecidableEq, Repr

structure SnapshotApplyResult where
  available : Bool := false
  changed : Bool := false
  appAdded : Bool := false
  appInfoRequestIds : List AppId := []
  deriving DecidableEq, Repr

structure Globals where
  package : Option PackageInfo := none
  seededAppIds : List UInt32 := []
  seededDepotIds : List UInt32 := []
  extraAppIds : List UInt32 := []
  desired : Option PackageSnapshot := none
  appliedGeneration : UInt64 := 0
  processedGeneration : UInt64 := 0
  pendingGeneration : UInt64 := 0
  runtimeRefreshPending : Bool := false
  pendingMetadataAppIds : List AppId := []
  package0Injected : Bool := false
  deriving DecidableEq, Repr

namespace Globals

def seeded (g : Globals) : Which → List UInt32
  | .apps => g.seededAppIds
  | .depots => g.seededDepotIds

/-- The ids of the live vector, none while package 0 is unknown. -/
def live (g : Globals) (v : Which) : List UInt32 := (g.package.map fun p => p.ids v).getD []

def planSnapshot (g : Globals) (p : PackageInfo) (snapshot : PackageSnapshot) (excluded : List UInt32) :
    Option (VectorPlan × VectorPlan) :=
  match buildVectorPlan p.appIdVec g.seededAppIds (withoutIds snapshot.appIds excluded),
    buildVectorPlan p.depotIdVec g.seededDepotIds (withoutIds snapshot.depotIds excluded) with
  | some apps, some depots => some (apps, depots)
  | _, _ => none

/-- Both capacities before either vector changes; the second only after the first. -/
def prepareVectors (p : PackageInfo) (apps depots : VectorPlan) (grow : Option Grow) : PackageInfo × Bool :=
  let preparedApps := prepareVectorLocked p.appIdVec apps (grow.map Grow.apps)
  if preparedApps.2 then
    let preparedDepots := prepareVectorLocked p.depotIdVec depots (grow.map Grow.depots)
    ({ p with appIdVec := preparedApps.1, depotIdVec := preparedDepots.1 }, preparedDepots.2)
  else ({ p with appIdVec := preparedApps.1 }, false)

/-- The end of applySnapshotLocked, from the writes on. -/
def commitSnapshot (g : Globals) (p : PackageInfo) (apps depots : VectorPlan) (snapshot : PackageSnapshot) :
    Globals × SnapshotApplyResult :=
  let appliedApps := applyVectorPlanLocked p.appIdVec g.seededAppIds apps
  let appliedDepots := applyVectorPlanLocked p.depotIdVec g.seededDepotIds depots
  let package := some { p with appIdVec := appliedApps.1, depotIdVec := appliedDepots.1 }
  if ¬ (appliedApps.1.validLive ∧ appliedDepots.1.validLive) then ({ g with package }, {})
  else
    let appAdded := !snapshot.addedAppIds.isEmpty
    ({ g with
        package
        seededAppIds := buildNextSeeded g.seededAppIds apps
        seededDepotIds := buildNextSeeded g.seededDepotIds depots
        pendingMetadataAppIds :=
          if snapshot.metadataComplete then []
          else g.pendingMetadataAppIds.filter (· ∈ apps.desired) ++ snapshot.addedAppIds
        appliedGeneration := snapshot.generation
        package0Injected := g.package0Injected || appAdded },
      { available := true
        changed := appliedApps.2 || appliedDepots.2
        appAdded
        appInfoRequestIds := snapshot.appInfoRequestIds })

def applySnapshotLocked (g : Globals) (snapshot : PackageSnapshot) (excluded : List UInt32)
    (grow : Option Grow) : Globals × SnapshotApplyResult :=
  match g.package with
  | none => (g, {})
  | some p =>
    if p.packageId ≠ 0 ∨ ¬ p.available then (g, {})
    else match g.planSnapshot p snapshot excluded with
      | none => (g, {})
      | some (apps, depots) =>
        let prepared := prepareVectors p apps depots grow
        if ¬ prepared.2 then ({ g with package := some prepared.1 }, {})
        else g.commitSnapshot prepared.1 apps depots snapshot

/-- Append the ids and their cached depots; it answers how many app ids it added. -/
def injectFullSetLocked (g : Globals) (appIds cachedDepots excluded : List UInt32) (grow : Option Grow) :
    Globals × Nat :=
  match g.package with
  | none => (g, 0)
  | some p =>
    let injectable := withoutIds appIds excluded
    if grow = none ∨ appIds = [] ∨ injectable = [] then (g, 0)
    else
      let (appIdVec, seededAppIds, appsAdded) :=
        appendToVecLocked p.appIdVec injectable g.seededAppIds (grow.map Grow.apps)
      let (depotIdVec, seededDepotIds, _) :=
        appendToVecLocked p.depotIdVec (withoutIds cachedDepots excluded) g.seededDepotIds (grow.map Grow.depots)
      ({ g with
          package := some { p with appIdVec, depotIdVec }
          seededAppIds
          seededDepotIds
          package0Injected := g.package0Injected || appsAdded != 0 }, appsAdded)

/-- An applied change asks for a license refresh, and a pending refresh follows the
applied generation. -/
def noteApplied (g : Globals) (changed : Bool) (generation : UInt64) : Globals :=
  if changed then { g with runtimeRefreshPending := true, pendingGeneration := generation }
  else if g.runtimeRefreshPending then { g with pendingGeneration := generation }
  else g

/-- Steam has loaded the package; the managed ids and the cached depots serve the boot
path only. -/
def hkLoadPackage (g : Globals) (info : PackageInfo) (managed cachedDepots excluded : List UInt32)
    (grow : Option Grow) : Globals :=
  if info.packageId ≠ 0 then g
  else
    let loaded := { g with package := some info }
    if ¬ info.available then loaded
    else match loaded.desired with
      | some desired =>
        let (next, applied) := loaded.applySnapshotLocked desired excluded grow
        if applied.available then next.noteApplied applied.changed desired.generation
        else { next with pendingGeneration := desired.generation }
      | none =>
        let ids := managed ++ loaded.extraAppIds
        if ids = [] then loaded else (loaded.injectFullSetLocked ids cachedDepots excluded grow).1

/-- The snapshot that takes effect, none when it is stale or conflicts. -/
def adopt (g : Globals) (snapshot : PackageSnapshot) (appInfoRequested : Bool) : Option PackageSnapshot :=
  match g.desired with
  | none => some snapshot
  | some previous =>
    if snapshot.generation < previous.generation then none
    else if snapshot.generation = previous.generation ∧ snapshot ≠ previous then none
    else some (carryPendingSnapshotWork previous snapshot
      (previous.generation ≤ g.processedGeneration) appInfoRequested)

def synchronizePackage0 (g : Globals) (snapshot : PackageSnapshot) (appInfoRequested : Bool)
    (excluded : List UInt32) (grow : Option Grow) : Globals :=
  match g.adopt snapshot appInfoRequested with
  | none => g
  | some desired =>
    let (next, applied) := { g with desired := some desired }.applySnapshotLocked desired excluded grow
    if applied.available then next.noteApplied applied.changed snapshot.generation else next

/-- The section at the end of a license refresh. -/
def completeRefresh (g : Globals) (generation : UInt64) : Globals :=
  let processed := { g with processedGeneration := max g.processedGeneration generation }
  if g.runtimeRefreshPending ∧ g.pendingGeneration = generation then
    { processed with runtimeRefreshPending := false, pendingGeneration := 0 }
  else processed

/-- The plans of an application that goes through: package 0 is there and available,
both vectors are valid and both capacities suffice. -/
def admitted (g : Globals) (snapshot : PackageSnapshot) (excluded : List UInt32) (grow : Option Grow) :
    Option (Which → VectorPlan) :=
  match g.package with
  | none => none
  | some p =>
    if p.packageId ≠ 0 ∨ ¬ p.available then none
    else match g.planSnapshot p snapshot excluded with
      | none => none
      | some (apps, depots) =>
        if (prepareVectors p apps depots grow).2 then
          some fun v => match v with | .apps => apps | .depots => depots
        else none

@[simp] theorem noteApplied_live (g : Globals) (changed : Bool) (generation : UInt64) (v : Which) :
    (g.noteApplied changed generation).live v = g.live v := by
  unfold noteApplied
  split
  · rfl
  · split <;> rfl

@[simp] theorem noteApplied_seeded (g : Globals) (changed : Bool) (generation : UInt64) (v : Which) :
    (g.noteApplied changed generation).seeded v = g.seeded v := by
  unfold noteApplied
  split
  · cases v <;> rfl
  · split
    · cases v <;> rfl
    · rfl

@[simp] theorem completeRefresh_live (g : Globals) (generation : UInt64) (v : Which) :
    (g.completeRefresh generation).live v = g.live v := by
  unfold completeRefresh
  split <;> rfl

theorem prepareVectors_ids (p : PackageInfo) (apps depots : VectorPlan) (grow : Option Grow) (v : Which) :
    (prepareVectors p apps depots grow).1.ids v = p.ids v := by
  unfold prepareVectors
  dsimp only
  split
  · cases v with
    | apps => exact prepareVectorLocked_ids ..
    | depots => exact prepareVectorLocked_ids ..
  · cases v with
    | apps => exact prepareVectorLocked_ids ..
    | depots => rfl

/-- What a package that was prepared for its plans offers. -/
theorem prepareVectors_room {p : PackageInfo} {apps depots : VectorPlan} {grow : Option Grow}
    (h : (prepareVectors p apps depots grow).2 = true) :
    apps.targetSize ≤ (prepareVectors p apps depots grow).1.appIdVec.alloc ∧
      depots.targetSize ≤ (prepareVectors p apps depots grow).1.depotIdVec.alloc := by
  unfold prepareVectors at h ⊢
  dsimp only at h ⊢
  split
  · rename_i happs
    rw [if_pos happs] at h
    exact ⟨prepareVectorLocked_room happs, prepareVectorLocked_room h⟩
  · rename_i happs
    rw [if_neg happs] at h
    cases h

/-- An application that does not go through leaves the elements and the seeded sets. -/
theorem applySnapshotLocked_refused {g : Globals} {snapshot : PackageSnapshot} {excluded : List UInt32}
    {grow : Option Grow} (h : g.admitted snapshot excluded grow = none) (v : Which) :
    (g.applySnapshotLocked snapshot excluded grow).1.live v = g.live v ∧
      (g.applySnapshotLocked snapshot excluded grow).1.seeded v = g.seeded v := by
  unfold admitted at h
  unfold applySnapshotLocked
  cases hpackage : g.package with
  | none => exact ⟨rfl, rfl⟩
  | some p =>
    rw [hpackage] at h
    dsimp only at h ⊢
    split
    · exact ⟨rfl, rfl⟩
    · rename_i hready
      rw [if_neg hready] at h
      cases hplans : g.planSnapshot p snapshot excluded with
      | none => exact ⟨rfl, rfl⟩
      | some plans =>
        obtain ⟨apps, depots⟩ := plans
        rw [hplans] at h
        dsimp only at h ⊢
        split
        · refine ⟨?_, by cases v <;> rfl⟩
          simp only [live, hpackage, Option.map_some, Option.getD_some, prepareVectors_ids]
        · rename_i hprepared
          rw [if_pos (by simpa using hprepared)] at h
          cases h

/-- The plans were built for the vectors and the seeded sets that they are applied to. -/
theorem planSnapshot_for {g : Globals} {p : PackageInfo} {snapshot : PackageSnapshot} {excluded : List UInt32}
    {apps depots : VectorPlan} (h : g.planSnapshot p snapshot excluded = some (apps, depots)) :
    apps.For p.appIdVec g.seededAppIds (withoutIds snapshot.appIds excluded) ∧
      depots.For p.depotIdVec g.seededDepotIds (withoutIds snapshot.depotIds excluded) := by
  unfold planSnapshot at h
  split at h
  · rename_i happs hdepots
    cases h
    exact ⟨buildVectorPlan_for happs, buildVectorPlan_for hdepots⟩
  · cases h

/-- A written vector holds its target size. -/
theorem applyVectorPlanLocked_valid {vec prepared : CUtlVector} {seeded desiredValues : List UInt32}
    {plan : VectorPlan} (hfor : plan.For vec seeded desiredValues) (hids : prepared.ids = vec.ids)
    (hroom : plan.targetSize ≤ prepared.alloc) :
    (applyVectorPlanLocked prepared seeded plan).1.validLive = true := by
  rw [hfor.targetSize] at hroom
  simp only [applyVectorPlanLocked, CUtlVector.validLive, CUtlVector.size, List.length_append, hids,
    decide_eq_true_eq]
  exact hroom

/-- An application that goes through drops the seeded ids that are not desired, appends
the desired ones that were absent and owns what it appended. -/
theorem applySnapshotLocked_applied {g : Globals} {snapshot : PackageSnapshot} {excluded : List UInt32}
    {grow : Option Grow} {plans : Which → VectorPlan} (h : g.admitted snapshot excluded grow = some plans)
    (v : Which) :
    (plans v).missing = missingFromVector (g.live v) (plans v).desired ∧
      (g.applySnapshotLocked snapshot excluded grow).1.live v =
        compactInjected (g.live v) (g.seeded v) (plans v).desired ++ (plans v).missing ∧
      (g.applySnapshotLocked snapshot excluded grow).1.seeded v = buildNextSeeded (g.seeded v) (plans v) := by
  unfold admitted at h
  unfold applySnapshotLocked
  cases hpackage : g.package with
  | none =>
    rw [hpackage] at h
    cases h
  | some p =>
    rw [hpackage] at h
    dsimp only at h ⊢
    split at h
    · cases h
    · rename_i hready
      rw [if_neg hready]
      cases hplans : g.planSnapshot p snapshot excluded with
      | none =>
        rw [hplans] at h
        cases h
      | some pair =>
        obtain ⟨apps, depots⟩ := pair
        rw [hplans] at h
        dsimp only at h ⊢
        split at h
        · rename_i hprepared
          cases h
          obtain ⟨happs, hdepots⟩ := planSnapshot_for hplans
          obtain ⟨hroomApps, hroomDepots⟩ := prepareVectors_room hprepared
          have hidsApps := prepareVectors_ids p apps depots grow .apps
          have hidsDepots := prepareVectors_ids p apps depots grow .depots
          have hvalidApps := applyVectorPlanLocked_valid happs hidsApps hroomApps
          have hvalidDepots := applyVectorPlanLocked_valid hdepots hidsDepots hroomDepots
          rw [if_neg (by simp [hprepared]), commitSnapshot, if_neg (by simp [hvalidApps, hvalidDepots])]
          cases v with
          | apps =>
            refine ⟨?_, ?_, rfl⟩
            · simpa [live, hpackage, PackageInfo.ids] using happs.missing
            · show compactInjected (prepareVectors p apps depots grow).1.appIdVec.ids _ _ ++ _ = _
              rw [show (prepareVectors p apps depots grow).1.appIdVec.ids = p.appIdVec.ids from hidsApps]
              simp [live, hpackage, PackageInfo.ids, seeded]
          | depots =>
            refine ⟨?_, ?_, rfl⟩
            · simpa [live, hpackage, PackageInfo.ids] using hdepots.missing
            · show compactInjected (prepareVectors p apps depots grow).1.depotIdVec.ids _ _ ++ _ = _
              rw [show (prepareVectors p apps depots grow).1.depotIdVec.ids = p.depotIdVec.ids from hidsDepots]
              simp [live, hpackage, PackageInfo.ids, seeded]
        · cases h

/-- The append-only paths keep every element. -/
theorem injectFullSetLocked_live (g : Globals) (appIds cachedDepots excluded : List UInt32) (grow : Option Grow)
    (v : Which) : g.live v ⊆ (g.injectFullSetLocked appIds cachedDepots excluded grow).1.live v := by
  unfold injectFullSetLocked
  cases hpackage : g.package with
  | none => exact List.Subset.refl _
  | some p =>
    dsimp only
    split
    · exact List.Subset.refl _
    · intro id hid
      cases v with
      | apps =>
        obtain ⟨fresh, -, hids, -⟩ :=
          appendToVecLocked_ids p.appIdVec (withoutIds appIds excluded) g.seededAppIds (grow.map Grow.apps)
        simp only [live, hpackage, Option.map_some, Option.getD_some, PackageInfo.ids] at hid ⊢
        rw [hids]
        exact List.mem_append_left _ hid
      | depots =>
        obtain ⟨fresh, -, hids, -⟩ :=
          appendToVecLocked_ids p.depotIdVec (withoutIds cachedDepots excluded) g.seededDepotIds (grow.map Grow.depots)
        simp only [live, hpackage, Option.map_some, Option.getD_some, PackageInfo.ids] at hid ⊢
        rw [hids]
        exact List.mem_append_left _ hid

end Globals
end SlsteamMoon.PackagePatch
