import Mathlib.Logic.Function.Basic
import SlsteamMoon.PackagePatch.MergeSites

/-! License refreshes beside the applications of package 0. Each section under the
seeded mutex, each claim of the executing flag and each foreign call is one step. -/
namespace SlsteamMoon.PackagePatch
open OwnerQueue Runs

namespace LicenseRefreshPolicy

inductive Action where
  | noChange | defer | process
  deriving DecidableEq, Repr

def unresolvedStateSafe (hasPendingUnresolvedAddition guardReady : Bool) : Bool :=
  !hasPendingUnresolvedAddition || guardReady

def decide (markReady processReady unresolvedStateSafe changed : Bool) : Action :=
  if !changed then .noChange
  else if !markReady || !processReady || !unresolvedStateSafe then .defer
  else .process

end LicenseRefreshPolicy

/-- Where a processRuntimeRefresh call without the executing flag is: its arguments are
read, or its action is NoChange. A reload whose application failed has a late section. -/
inductive CallStage where
  | chosen (unresolvedStateSafe changed : Bool)
  | noChange
  | late
  deriving DecidableEq, Repr

/-- The number of changes at the call's start is history. -/
structure RefreshCall where
  generation : UInt64
  stage : CallStage
  start : Nat
  deriving DecidableEq, Repr

inductive RunStage where
  | claimed | marking | processing | completing | leaving
  deriving DecidableEq, Repr

/-- The one call that has the executing flag, from before the mark call to its guard. -/
structure RunningRefresh where
  generation : UInt64
  stage : RunStage
  start : Nat := 0
  deriving DecidableEq, Repr

/-- The mark or process call has begun and the completion is still to come. -/
def RunningRefresh.inFlight (r : RunningRefresh) : Bool :=
  r.stage = .marking ∨ r.stage = .processing ∨ r.stage = .completing

/-- A foreign call may be running. -/
def RunningRefresh.calling (r : RunningRefresh) : Bool := r.stage = .marking ∨ r.stage = .processing

/-- A reload before its first section, or on the boot path: it has found no desired state
or holds the ids that it injects. -/
inductive ReloadStage where
  | loaded
  | found
  | holds (ids : List UInt32)
  deriving DecidableEq, Repr

/-- History: how many changes were applied, up to which one a completed refresh has
started after it, and which ones were applied while a refresh was in flight. -/
structure RefreshState where
  globals : Globals := {}
  running : Option RunningRefresh := none
  calls : Nat → Option RefreshCall := fun _ => none
  reloads : Nat → Option ReloadStage := fun _ => none
  changes : Nat := 0
  covered : Nat := 0
  during : List Nat := []

/-- Reloads and calls beside the executing flag have numbers. A reload is nested when Steam
reloads the package from inside the mark or process call of the same thread. -/
inductive RefreshEvent where
  | synchronizePackage0 (i : Nat) (snapshot : PackageSnapshot) (appInfoRequested : Bool) (excluded : List UInt32)
      (grow : Option Grow) (guardReady : Bool)
  | loadPackage (i : Nat) (info : PackageInfo)
  | reloadSection (i : Nat) (excluded : List UInt32) (grow : Option Grow) (guardReady nested : Bool)
  | lateSection (i : Nat)
  | bootIds (i : Nat) (managed : List UInt32)
  | inject (i : Nat) (cachedDepots excluded : List UInt32) (grow : Option Grow)
  | reprocessCurrentState (i : Nat) (guardReady : Bool)
  | decide (i : Nat) (markReady processReady : Bool)
  | completeNoChange (i : Nat)
  | mark (user : Bool)
  | process
  | processed (ok : Bool)
  | complete
  | leave

namespace RefreshState

def refreshing (s : RefreshState) : Bool := s.running.any RunningRefresh.inFlight

def calling (s : RefreshState) : Bool := s.running.any RunningRefresh.calling

def setCall (s : RefreshState) (i : Nat) (call : Option RefreshCall) : RefreshState :=
  { s with calls := Function.update s.calls i call }

def setReload (s : RefreshState) (i : Nat) (reload : Option ReloadStage) : RefreshState :=
  { s with reloads := Function.update s.reloads i reload }

/-- An application that changes package 0 gets the next number. -/
def record (s : RefreshState) (changed : Bool) : RefreshState :=
  if changed then
    { s with
      changes := s.changes + 1
      during := if s.refreshing then (s.changes + 1) :: s.during else s.during }
  else s

def stateSafe (g : Globals) (guardReady : Bool) : Bool :=
  LicenseRefreshPolicy.unresolvedStateSafe (!g.pendingMetadataAppIds.isEmpty) guardReady

/-- The section that applies the desired state and reads the arguments of the refresh,
which a nested reload does not attempt. -/
def applySection (s : RefreshState) (i : Nat) (g : Globals) (desired : PackageSnapshot) (reload nested : Bool)
    (excluded : List UInt32) (grow : Option Grow) (guardReady : Bool) : RefreshState :=
  let applied := g.applySnapshotLocked desired excluded grow
  if applied.2.available then
    let noted := applied.1.noteApplied applied.2.changed desired.generation
    let recorded := { s with globals := noted }.record applied.2.changed
    if nested then recorded
    else
      recorded.setCall i (some
        { generation := desired.generation
          stage := .chosen (stateSafe noted guardReady) noted.runtimeRefreshPending
          start := recorded.changes })
  else if reload then
    { s with globals := applied.1 }.setCall i (some ⟨desired.generation, .late, s.changes⟩)
  else { s with globals := applied.1 }

def synchronizePackage0 (s : RefreshState) (i : Nat) (snapshot : PackageSnapshot) (appInfoRequested : Bool)
    (excluded : List UInt32) (grow : Option Grow) (guardReady : Bool) : RefreshState :=
  match s.globals.adopt snapshot appInfoRequested with
  | none => s
  | some desired => s.applySection i { s.globals with desired := some desired } desired false false excluded grow guardReady

/-- Steam has loaded the package, and the pointer is stored before any section. -/
def loadPackage (s : RefreshState) (i : Nat) (info : PackageInfo) : RefreshState :=
  if info.packageId ≠ 0 then s
  else
    let stored := { s with globals := { s.globals with package := some info } }
    if info.available then stored.setReload i (some .loaded) else stored

def reloadSection (s : RefreshState) (i : Nat) (excluded : List UInt32) (grow : Option Grow)
    (guardReady nested : Bool) : RefreshState :=
  match s.globals.desired with
  | some desired => (s.applySection i s.globals desired true nested excluded grow guardReady).setReload i none
  | none => s.setReload i (some .found)

/-- The managed ids and the registered ones, read before the section that injects them. -/
def bootIds (s : RefreshState) (i : Nat) (managed : List UInt32) : RefreshState :=
  let ids := managed ++ s.globals.extraAppIds
  s.setReload i (if ids = [] then none else some (.holds ids))

def injects (g : Globals) (ids cachedDepots excluded : List UInt32) (grow : Option Grow) : Bool :=
  let next := (g.injectFullSetLocked ids cachedDepots excluded grow).1
  next.live .apps ≠ g.live .apps ∨ next.live .depots ≠ g.live .depots

/-- The boot path does not touch the pending flag. -/
def inject (s : RefreshState) (i : Nat) (ids cachedDepots excluded : List UInt32) (grow : Option Grow) :
    RefreshState :=
  ({ s with globals := (s.globals.injectFullSetLocked ids cachedDepots excluded grow).1 }.record
    (injects s.globals ids cachedDepots excluded grow)).setReload i none

/-- The latest applied desired state is tried again. -/
def reprocessCurrentState (s : RefreshState) (i : Nat) (guardReady : Bool) : RefreshState :=
  match s.globals.desired with
  | none => s
  | some desired =>
    if ¬ s.globals.runtimeRefreshPending ∨ s.globals.appliedGeneration ≠ desired.generation then s
    else
      { s with globals := { s.globals with pendingGeneration := s.globals.appliedGeneration } }.setCall i (some
        { generation := s.globals.appliedGeneration
          stage := .chosen (stateSafe s.globals guardReady) true
          start := s.changes })

/-- The action is decided; a second refresh is Busy. -/
def decideAction (s : RefreshState) (i : Nat) (call : RefreshCall) (safe changed markReady processReady : Bool) :
    RefreshState :=
  match LicenseRefreshPolicy.decide markReady processReady safe changed with
  | .noChange => s.setCall i (some { call with stage := .noChange })
  | .defer => s.setCall i none
  | .process =>
    if s.running.isSome then s.setCall i none
    else { s with running := some ⟨call.generation, .claimed, 0⟩ }.setCall i none

def step (s : RefreshState) : RefreshEvent → Option RefreshState
  | .synchronizePackage0 i snapshot requested excluded grow guardReady =>
    if (s.calls i).isSome then none
    else some (s.synchronizePackage0 i snapshot requested excluded grow guardReady)
  | .loadPackage i info => if (s.reloads i).isSome then none else some (s.loadPackage i info)
  | .reloadSection i excluded grow guardReady nested =>
    if s.reloads i ≠ some .loaded ∨ (s.calls i).isSome ∨ nested ∧ ¬ s.calling then none
    else some (s.reloadSection i excluded grow guardReady nested)
  | .bootIds i managed => if s.reloads i = some .found then some (s.bootIds i managed) else none
  | .inject i cachedDepots excluded grow =>
    match s.reloads i with
    | some (.holds ids) => some (s.inject i ids cachedDepots excluded grow)
    | _ => none
  | .lateSection i =>
    match s.calls i with
    | some ⟨generation, .late, _⟩ =>
      some ({ s with globals := { s.globals with pendingGeneration := generation } }.setCall i none)
    | _ => none
  | .reprocessCurrentState i guardReady =>
    if (s.calls i).isSome then none else some (s.reprocessCurrentState i guardReady)
  | .decide i markReady processReady =>
    match s.calls i with
    | some ⟨generation, .chosen safe changed, start⟩ =>
      some (s.decideAction i ⟨generation, .chosen safe changed, start⟩ safe changed markReady processReady)
    | _ => none
  | .completeNoChange i =>
    match s.calls i with
    | some ⟨generation, .noChange, _⟩ =>
      some ({ s with globals := s.globals.completeRefresh generation }.setCall i none)
    | _ => none
  | .mark user =>
    match s.running with
    | some ⟨generation, .claimed, _⟩ =>
      some { s with running := some (if user then ⟨generation, .marking, s.changes⟩ else ⟨generation, .leaving, 0⟩) }
    | _ => none
  | .process =>
    match s.running with
    | some ⟨generation, .marking, start⟩ => some { s with running := some ⟨generation, .processing, start⟩ }
    | _ => none
  | .processed ok =>
    match s.running with
    | some ⟨generation, .processing, start⟩ =>
      some { s with running := some ⟨generation, if ok then .completing else .leaving, start⟩ }
    | _ => none
  | .complete =>
    match s.running with
    | some ⟨generation, .completing, start⟩ =>
      some
        { s with
          globals := s.globals.completeRefresh generation
          running := some ⟨generation, .leaving, start⟩
          covered := max s.covered start }
    | _ => none
  | .leave =>
    match s.running with
    | some ⟨_, .leaving, _⟩ => some { s with running := none }
    | _ => none

/-- What the section's record of a change leaves alone. -/
theorem record_same (s : RefreshState) (changed : Bool) :
    (s.record changed).globals = s.globals ∧ (s.record changed).running = s.running ∧
      (s.record changed).calls = s.calls ∧ (s.record changed).covered = s.covered := by
  unfold record
  split <;> exact ⟨rfl, rfl, rfl, rfl⟩

/-- The sections of one reload. -/
def reloadOf (i : Nat) : RefreshEvent → Bool
  | .loadPackage j _ => j = i
  | .reloadSection j _ _ _ _ => j = i
  | .lateSection j => j = i
  | .bootIds j _ => j = i
  | .inject j _ _ _ => j = i
  | _ => false

section
variable {s : RefreshState} {i : Nat} {desired : PackageSnapshot}

/-- The sections of a reload that has a desired state, with nothing between them. -/
theorem reloadSection_alone (hreload : s.reloads i = some .loaded) (hcall : s.calls i = none)
    (hdesired : s.globals.desired = some desired) (excluded : List UInt32) (grow : Option Grow) :
    ∃ events t, (∀ e ∈ events, reloadOf i e = true) ∧ exec step s events = some t ∧ t.globals =
      let applied := s.globals.applySnapshotLocked desired excluded grow
      if applied.2.available then applied.1.noteApplied applied.2.changed desired.generation
      else { applied.1 with pendingGeneration := desired.generation } := by
  have hstep : s.step (.reloadSection i excluded grow true false) =
      some ((s.applySection i s.globals desired true false excluded grow true).setReload i none) := by
    simp [step, hreload, hcall, reloadSection, hdesired]
  dsimp only
  split
  · rename_i havailable
    refine ⟨[.reloadSection i excluded grow true false], _, by simp [reloadOf], by rw [exec_cons, hstep]; rfl, ?_⟩
    simp only [applySection, if_pos havailable, setReload, setCall, (record_same _ _).1, Bool.false_eq_true, if_false]
  · rename_i hrefused
    have happlied : s.applySection i s.globals desired true false excluded grow true =
        { s with globals := (s.globals.applySnapshotLocked desired excluded grow).1 }.setCall i
          (some ⟨desired.generation, .late, s.changes⟩) := by
      simp [applySection, hrefused]
    refine ⟨[.reloadSection i excluded grow true false, .lateSection i],
      { (s.applySection i s.globals desired true false excluded grow true).setReload i none with
        globals :=
          { (s.globals.applySnapshotLocked desired excluded grow).1 with
            pendingGeneration := desired.generation } }.setCall i none, by simp [reloadOf], ?_, rfl⟩
    rw [exec_cons, hstep, happlied]
    simp [step, setReload, setCall]

/-- The boot path, with nothing between its sections. -/
theorem boot_alone (hreload : s.reloads i = some .loaded) (hcall : s.calls i = none)
    (hdesired : s.globals.desired = none) (managed cachedDepots excluded : List UInt32) (grow : Option Grow) :
    ∃ events t, (∀ e ∈ events, reloadOf i e = true) ∧ exec step s events = some t ∧ t.globals =
      let ids := managed ++ s.globals.extraAppIds
      if ids = [] then s.globals else (s.globals.injectFullSetLocked ids cachedDepots excluded grow).1 := by
  have hfound : s.step (.reloadSection i excluded grow true false) = some (s.setReload i (some .found)) := by
    simp [step, hreload, hcall, reloadSection, hdesired]
  dsimp only
  split
  · rename_i hnone
    refine ⟨[.reloadSection i excluded grow true false, .bootIds i managed],
      (s.setReload i (some .found)).bootIds i managed, by simp [reloadOf], ?_, rfl⟩
    rw [exec_cons, hfound]
    simp [step, setReload]
  · rename_i hids
    refine ⟨[.reloadSection i excluded grow true false, .bootIds i managed, .inject i cachedDepots excluded grow],
      ((s.setReload i (some .found)).bootIds i managed).inject i (managed ++ s.globals.extraAppIds) cachedDepots
        excluded grow, by simp [reloadOf], ?_, ?_⟩
    · rw [List.append_eq_nil_iff] at hids
      rw [exec_cons, hfound]
      simp [step, setReload, bootIds, hids]
    · exact (record_same _ _).1

/-- A reload whose sections follow each other is hkLoadPackage as one step. -/
theorem reload_alone (hreload : s.reloads i = none) (hcall : s.calls i = none) (info : PackageInfo)
    (managed cachedDepots excluded : List UInt32) (grow : Option Grow) :
    ∃ events t, (∀ e ∈ events, reloadOf i e = true) ∧ exec step s events = some t ∧
      t.globals = s.globals.hkLoadPackage info managed cachedDepots excluded grow := by
  have hstep : s.step (.loadPackage i info) = some (s.loadPackage i info) := by simp [step, hreload]
  have hfirst : ∀ (sections : List RefreshEvent) (t : RefreshState), (∀ e ∈ sections, reloadOf i e = true) →
      exec step (s.loadPackage i info) sections = some t →
        ∃ events, (∀ e ∈ events, reloadOf i e = true) ∧ exec step s events = some t := by
    intro sections t hsections hrun
    refine ⟨.loadPackage i info :: sections, List.forall_mem_cons.mpr ⟨by simp [reloadOf], hsections⟩, ?_⟩
    rw [exec_cons, hstep]
    exact hrun
  unfold loadPackage at hfirst
  unfold Globals.hkLoadPackage
  by_cases hid : info.packageId ≠ 0
  · simp only [if_pos hid] at hfirst ⊢
    obtain ⟨events, hevents, hrun⟩ := hfirst [] s (by simp) rfl
    exact ⟨events, s, hevents, hrun, rfl⟩
  · simp only [if_neg hid] at hfirst ⊢
    by_cases havailable : info.available = true
    · simp only [havailable, not_true_eq_false, if_false, if_true] at hfirst ⊢
      generalize hstored : { s with globals := { s.globals with package := some info } } = stored at hfirst
      have hcall : (stored.setReload i (some .loaded)).calls i = none := hstored ▸ hcall
      have hglobals : (stored.setReload i (some .loaded)).globals = { s.globals with package := some info } :=
        hstored ▸ rfl
      have hloaded : (stored.setReload i (some .loaded)).reloads i = some .loaded := by simp [setReload]
      split
      · rename_i desired hdesired
        have hdesired := (congrArg Globals.desired hglobals).trans hdesired
        obtain ⟨sections, t, hsections, hrun, hlast⟩ := reloadSection_alone hloaded hcall hdesired excluded grow
        obtain ⟨events, hevents, hrun⟩ := hfirst sections t hsections hrun
        rw [hglobals] at hlast
        exact ⟨events, t, hevents, hrun, hlast⟩
      · rename_i hdesired
        have hdesired := (congrArg Globals.desired hglobals).trans hdesired
        obtain ⟨sections, t, hsections, hrun, hlast⟩ :=
          boot_alone hloaded hcall hdesired managed cachedDepots excluded grow
        obtain ⟨events, hevents, hrun⟩ := hfirst sections t hsections hrun
        rw [hglobals] at hlast
        exact ⟨events, t, hevents, hrun, hlast⟩
    · simp only [havailable] at hfirst ⊢
      obtain ⟨events, hevents, hrun⟩ := hfirst [] _ (by simp) rfl
      exact ⟨events, _, hevents, hrun, rfl⟩

end
end RefreshState
end SlsteamMoon.PackagePatch
