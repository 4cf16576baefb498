import SlsteamMoon.PackagePatch.Package0

/-! Which ids leave package 0. Steam fills the vectors anew at each reload, while the
seeded sets stay. -/
namespace SlsteamMoon.PackagePatch
open OwnerQueue

inductive Event where
  | loadPackage (info : PackageInfo) (managed cachedDepots excluded : List UInt32) (grow : Option Grow)
  | synchronizePackage0 (snapshot : PackageSnapshot) (appInfoRequested : Bool) (excluded : List UInt32)
      (grow : Option Grow)
  | injectIntoPackage0 (appIds cachedDepots excluded : List UInt32) (grow : Option Grow)
  | setExtraAppIds (appIds : List UInt32)
  | completeRefresh (generation : UInt64)
  | settleStatus (available : Bool)
  deriving DecidableEq

def Globals.next (g : Globals) : Event → Globals
  | .loadPackage info managed cachedDepots excluded grow => g.hkLoadPackage info managed cachedDepots excluded grow
  | .synchronizePackage0 snapshot requested excluded grow => g.synchronizePackage0 snapshot requested excluded grow
  | .injectIntoPackage0 appIds cachedDepots excluded grow =>
    (g.injectFullSetLocked appIds cachedDepots excluded grow).1
  | .setExtraAppIds appIds => { g with extraAppIds := appIds }
  | .completeRefresh generation => g.completeRefresh generation
  | .settleStatus available => { g with package := g.package.map fun p => { p with available } }

/-- What Steam placed in each vector at the latest reload, and what has been appended
since, are history. -/
structure History where
  globals : Globals := {}
  placed : Which → List UInt32 := fun _ => []
  appended : Which → List UInt32 := fun _ => []

namespace History

/-- Steam's ids once the event's reload, if it is one, has filled the vectors. -/
def placedNow (h : History) (e : Event) (v : Which) : List UInt32 :=
  match e with
  | .loadPackage info _ _ _ _ => if info.packageId ≠ 0 then h.placed v else info.ids v
  | _ => h.placed v

def appendedNow (h : History) (e : Event) (v : Which) : List UInt32 :=
  match e with
  | .loadPackage info _ _ _ _ => if info.packageId ≠ 0 then h.appended v else []
  | _ => h.appended v

/-- The live vector that the plugin's part of the event finds. -/
def liveNow (h : History) (e : Event) (v : Which) : List UInt32 :=
  match e with
  | .loadPackage info _ _ _ _ => if info.packageId ≠ 0 then h.globals.live v else info.ids v
  | _ => h.globals.live v

def step (h : History) (e : Event) : Option History :=
  let globals := h.globals.next e
  some
    { globals
      placed := h.placedNow e
      appended := fun v => h.appendedNow e v ++ (globals.live v).filter (· ∉ h.liveNow e v) }

/-- The plans that the event carries out, where it applies a snapshot. -/
def application (h : History) : Event → Option (Which → VectorPlan)
  | .loadPackage info _ _ excluded grow =>
    if info.packageId ≠ 0 ∨ ¬ info.available then none
    else h.globals.desired.bind fun desired => { h.globals with package := some info }.admitted desired excluded grow
  | .synchronizePackage0 snapshot requested excluded grow =>
    (h.globals.adopt snapshot requested).bind fun desired =>
      { h.globals with desired := some desired }.admitted desired excluded grow
  | _ => none

@[simp] theorem live_loaded (g : Globals) (info : PackageInfo) (v : Which) :
    { g with package := some info }.live v = info.ids v := rfl

/-- The reload applies the desired snapshot to Steam's new vectors. -/
theorem hkLoadPackage_desired {g : Globals} {info : PackageInfo} {desired : PackageSnapshot}
    (managed cachedDepots excluded : List UInt32) (grow : Option Grow) (hid : ¬ info.packageId ≠ 0)
    (havailable : info.available = true) (hdesired : g.desired = some desired) (v : Which) :
    (g.hkLoadPackage info managed cachedDepots excluded grow).live v =
      ({ g with package := some info }.applySnapshotLocked desired excluded grow).1.live v := by
  unfold Globals.hkLoadPackage
  rw [if_neg hid]
  dsimp only
  rw [if_neg (by simp [havailable]), hdesired]
  dsimp only
  split
  · exact Globals.noteApplied_live ..
  · rfl

/-- Before any snapshot the reload only appends. -/
theorem hkLoadPackage_boot {g : Globals} {info : PackageInfo} (managed cachedDepots excluded : List UInt32)
    (grow : Option Grow) (hid : ¬ info.packageId ≠ 0) (havailable : info.available = true)
    (hdesired : g.desired = none) (v : Which) :
    info.ids v ⊆ (g.hkLoadPackage info managed cachedDepots excluded grow).live v := by
  unfold Globals.hkLoadPackage
  rw [if_neg hid]
  dsimp only
  rw [if_neg (by simp [havailable])]
  split
  · rename_i desired hsome
    rw [hdesired] at hsome
    cases hsome
  · split
    · exact List.Subset.refl _
    · exact Globals.injectFullSetLocked_live { g with package := some info } _ cachedDepots excluded grow v

private theorem synchronizePackage0_adopted {g : Globals} {snapshot desired : PackageSnapshot} {requested : Bool}
    (excluded : List UInt32) (grow : Option Grow) (hadopt : g.adopt snapshot requested = some desired)
    (v : Which) : (g.synchronizePackage0 snapshot requested excluded grow).live v =
      ({ g with desired := some desired }.applySnapshotLocked desired excluded grow).1.live v := by
  unfold Globals.synchronizePackage0
  rw [hadopt]
  dsimp only
  split
  · exact Globals.noteApplied_live ..
  · rfl

/-- Without an application an event only appends. -/
theorem next_live_of_none {h : History} {e : Event} (hnone : h.application e = none) (v : Which) :
    h.liveNow e v ⊆ (h.globals.next e).live v := by
  cases e with
  | loadPackage info managed cachedDepots excluded grow =>
    simp only [liveNow, Globals.next]
    by_cases hid : info.packageId ≠ 0
    · rw [if_pos hid, Globals.hkLoadPackage, if_pos hid]
      exact List.Subset.refl _
    · rw [if_neg hid]
      by_cases havailable : info.available = true
      · simp only [application, hid, havailable, not_true_eq_false, or_self, if_false] at hnone
        cases hdesired : h.globals.desired with
        | none => exact hkLoadPackage_boot managed cachedDepots excluded grow hid havailable hdesired v
        | some desired =>
          have hadmitted := Option.bind_eq_none_iff.mp hnone desired hdesired
          rw [hkLoadPackage_desired managed cachedDepots excluded grow hid havailable hdesired,
            (Globals.applySnapshotLocked_refused hadmitted v).1]
          exact List.Subset.refl _
      · unfold Globals.hkLoadPackage
        rw [if_neg hid]
        dsimp only
        rw [if_pos (by simpa using havailable)]
        exact List.Subset.refl _
  | synchronizePackage0 snapshot requested excluded grow =>
    simp only [liveNow, Globals.next]
    cases hadopt : h.globals.adopt snapshot requested with
    | none =>
      rw [Globals.synchronizePackage0, hadopt]
      exact List.Subset.refl _
    | some desired =>
      simp only [application, hadopt, Option.bind_some] at hnone
      rw [synchronizePackage0_adopted excluded grow hadopt, (Globals.applySnapshotLocked_refused hnone v).1]
      exact List.Subset.refl _
  | injectIntoPackage0 appIds cachedDepots excluded grow => exact Globals.injectFullSetLocked_live ..
  | setExtraAppIds appIds => exact List.Subset.refl _
  | completeRefresh generation =>
    simp only [liveNow, Globals.next, Globals.completeRefresh_live]
    exact List.Subset.refl _
  | settleStatus available =>
    simp only [liveNow, Globals.next, Globals.live, Option.map_map]
    exact List.Subset.refl _

/-- An application compacts and appends by its plans. -/
theorem next_live_of_some {h : History} {e : Event} {plans : Which → VectorPlan}
    (hsome : h.application e = some plans) (v : Which) :
    (h.globals.next e).live v = compactInjected (h.liveNow e v) (h.globals.seeded v) (plans v).desired ++
      missingFromVector (h.liveNow e v) (plans v).desired := by
  cases e with
  | loadPackage info managed cachedDepots excluded grow =>
    simp only [application] at hsome
    split at hsome
    · cases hsome
    · rename_i hready
      obtain ⟨hid, havailable⟩ := not_or.mp hready
      have havailable : info.available = true := by simpa using havailable
      obtain ⟨desired, hdesired, hadmitted⟩ := Option.bind_eq_some_iff.mp hsome
      obtain ⟨hmissing, hlive, -⟩ := Globals.applySnapshotLocked_applied hadmitted v
      simp only [liveNow, Globals.next]
      rw [if_neg hid, hkLoadPackage_desired managed cachedDepots excluded grow hid havailable hdesired, hlive, hmissing]
      cases v <;> rfl
  | synchronizePackage0 snapshot requested excluded grow =>
    simp only [application] at hsome
    obtain ⟨desired, hadopt, hadmitted⟩ := Option.bind_eq_some_iff.mp hsome
    obtain ⟨hmissing, hlive, -⟩ := Globals.applySnapshotLocked_applied hadmitted v
    simp only [liveNow, Globals.next]
    rw [synchronizePackage0_adopted excluded grow hadopt, hlive, hmissing]
    cases v <;> rfl
  | _ => cases hsome

/-- Steam's ids of the latest reload are in each vector after the event, and an id that
the event removes has been appended since. -/
def NativeKept (h : History) (e : Event) : Prop :=
  ∀ n, h.step e = some n → ∀ v, (∀ id ∈ n.placed v, id ∈ n.globals.live v) ∧
    ∀ id ∈ h.liveNow e v, id ∉ n.globals.live v → id ∈ h.appendedNow e v

/-- An applied snapshot still desires every id that is in the seeded set and was placed
by Steam at the latest reload. -/
def StillDesired (h : History) (e : Event) : Prop :=
  ∀ plans, h.application e = some plans →
    ∀ v, ∀ id ∈ h.placedNow e v, id ∈ h.globals.seeded v → id ∈ (plans v).desired

/-- Each vector holds Steam's ids, and nothing but these and the ids appended since. -/
structure Grounded (h : History) : Prop where
  placed : ∀ v, h.placed v ⊆ h.globals.live v
  live : ∀ v, h.globals.live v ⊆ h.placed v ++ h.appended v

private theorem grounded_start : ({} : History).Grounded where
  placed _ := List.nil_subset _
  live _ := List.nil_subset _

/-- The reload itself grounds the vectors. -/
theorem Grounded.now {h : History} (hg : h.Grounded) (e : Event) (v : Which) :
    h.placedNow e v ⊆ h.liveNow e v ∧ h.liveNow e v ⊆ h.placedNow e v ++ h.appendedNow e v := by
  cases e with
  | loadPackage info managed cachedDepots excluded grow =>
    simp only [placedNow, liveNow, appendedNow]
    split
    · exact ⟨hg.placed v, hg.live v⟩
    · exact ⟨List.Subset.refl _, List.subset_append_left _ _⟩
  | _ => exact ⟨hg.placed v, hg.live v⟩

/-- While every application still desires Steam's seeded ids, Steam's ids stay. -/
theorem nativeKept_of_stillDesired {h : History} {e : Event} (hg : h.Grounded) (hok : h.StillDesired e) :
    h.NativeKept e := by
  intro n hstep v
  cases hstep
  obtain ⟨hplaced, hlive⟩ := hg.now e v
  cases happ : h.application e with
  | none =>
    have hsub := next_live_of_none happ v
    exact ⟨fun id hid => hsub (hplaced hid), fun id hid hgone => absurd (hsub hid) hgone⟩
  | some plans =>
    have hnext := next_live_of_some happ v
    constructor
    · intro id hid
      have hkept : id ∈ compactInjected (h.liveNow e v) (h.globals.seeded v) (plans v).desired :=
        (mem_compactInjected ..).mpr ⟨hplaced hid, hok plans happ v id hid⟩
      show id ∈ (h.globals.next e).live v
      rw [hnext]
      exact List.mem_append_left _ hkept
    · intro id hid hgone
      refine (List.mem_append.mp (hlive hid)).resolve_left fun hid' => hgone ?_
      have hkept : id ∈ compactInjected (h.liveNow e v) (h.globals.seeded v) (plans v).desired :=
        (mem_compactInjected ..).mpr ⟨hid, hok plans happ v id hid'⟩
      show id ∈ (h.globals.next e).live v
      rw [hnext]
      exact List.mem_append_left _ hkept

/-- An application that no longer desires a seeded id of Steam's removes it. -/
theorem stillDesired_of_nativeKept {h : History} {e : Event} (hkept : h.NativeKept e) : h.StillDesired e := by
  intro plans happ v id hid hseeded
  have hlive : id ∈ (h.globals.next e).live v := (hkept _ rfl v).1 id hid
  rw [next_live_of_some happ v] at hlive
  rcases List.mem_append.mp hlive with hlive | hlive
  · exact ((mem_compactInjected ..).mp hlive).2 hseeded
  · exact ((mem_missingFromVector ..).mp hlive).1

private theorem step_grounded {h n : History} {e : Event} (hg : h.Grounded) (hkept : h.NativeKept e)
    (hstep : h.step e = some n) : n.Grounded := by
  refine ⟨fun v id hid => (hkept n hstep v).1 id hid, fun v id hid => ?_⟩
  cases hstep
  rcases Classical.em (id ∈ h.liveNow e v) with hold | hnew
  · rcases List.mem_append.mp ((hg.now e v).2 hold) with hplaced | happended
    · exact List.mem_append_left _ hplaced
    · exact List.mem_append_right _ (List.mem_append_left _ happended)
  · exact List.mem_append_right _ (List.mem_append_right _ (List.mem_filter.mpr ⟨hid, by simpa using hnew⟩))

/-- In every run Steam's ids stay in the vectors, and only ids appended since the latest
reload are removed, exactly when each applied snapshot still desires every id that is
seeded and was placed by Steam. -/
theorem native_ids_kept_iff (es : List Event) :
    Runs.Meets step NativeKept {} es ↔ Runs.Meets step StillDesired {} es := by
  constructor
  · exact Runs.Meets.mono fun h e hkept => stillDesired_of_nativeKept hkept
  · intro hok
    refine Runs.Meets.of_invariant (P := Grounded) (fun h e n hg he hstep => ?_)
      (fun h e hg he => nativeKept_of_stillDesired hg he) grounded_start hok
    exact step_grounded hg (nativeKept_of_stillDesired hg he) hstep

/-- Id 5 is desired and absent, so it is appended and seeded; Steam's next package lists
it; then it is desired no more. -/
def promotedSchedule : List Event :=
  [.loadPackage ⟨0, true, ⟨[1], 8⟩, ⟨[], 8⟩⟩ [] [] [] (some ⟨8, 8⟩),
    .synchronizePackage0 { generation := 1, appIds := [5] } true [] (some ⟨8, 8⟩),
    .loadPackage ⟨0, true, ⟨[1, 5], 8⟩, ⟨[], 8⟩⟩ [] [] [] (some ⟨8, 8⟩),
    .synchronizePackage0 { generation := 2, appIds := [] } true [] (some ⟨8, 8⟩)]

theorem seeded_id_removed_after_reload :
    (Runs.exec step {} promotedSchedule).map (fun h => (h.placed .apps, h.globals.live .apps)) =
        some ([1, 5], [1]) ∧
      ¬ Runs.Meets step NativeKept {} promotedSchedule := by
  have hrun : (Runs.exec step {} promotedSchedule).map (fun h => (h.placed .apps, h.globals.live .apps)) =
      some ([1, 5], [1]) := by decide +kernel
  refine ⟨hrun, fun hkept => ?_⟩
  obtain ⟨n, hn, hends⟩ := Option.map_eq_some_iff.mp hrun
  obtain ⟨hplaced, hlive⟩ := Prod.mk.inj hends
  have hgrounded : n.Grounded := Runs.exec_invariant (fun _ _ _ hg he hstep => step_grounded hg he hstep)
    grounded_start hkept hn
  have hfive : 5 ∈ n.globals.live .apps := hgrounded.placed .apps (by rw [hplaced]; decide)
  rw [hlive] at hfive
  exact absurd hfive (by decide)

end History
end SlsteamMoon.PackagePatch
