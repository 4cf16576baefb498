import SlsteamMoon.ManifestPlan.Planner
import Mathlib.Logic.Function.Basic

/-! The depotcache and the persistent manifest store as the redirect reads and
writes them, and the pure selection policy over what it finds. -/
namespace SlsteamMoon.ManifestPlan

structure PlanKey where
  depotId : DepotId
  gid : Gid
  deriving DecidableEq, Repr

/-- A manifest file in the depotcache. -/
structure Staged where
  gid : Gid
  nonEmpty : Bool
  valid : Bool
  deriving DecidableEq

/-- Files newest first; a zero preferred gid is no preference. -/
structure Files where
  depotcache : DepotId → List Staged
  archive : DepotId → List Gid
  preferred : DepotId → Gid

namespace Files

def isInDepotcache (files : Files) (key : PlanKey) : Bool :=
  decide (key.gid ≠ 0) && (files.depotcache key.depotId).any fun file => file.gid == key.gid && file.valid

def isArchived (files : Files) (key : PlanKey) : Bool :=
  decide (key.depotId ≠ 0 ∧ key.gid ≠ 0) && (files.archive key.depotId).contains key.gid

/-- A whole manifest published over whatever file had its name. -/
def stage (files : Files) (key : PlanKey) : Files :=
  let others := (files.depotcache key.depotId).filter fun file => file.gid != key.gid
  { files with depotcache := Function.update files.depotcache key.depotId (⟨key.gid, true, true⟩ :: others) }

def purge (files : Files) (key : PlanKey) : Files :=
  let others := (files.depotcache key.depotId).filter fun file => file.gid != key.gid
  { files with depotcache := Function.update files.depotcache key.depotId others }

def store (files : Files) (key : PlanKey) : Files :=
  let archived := key.gid :: files.archive key.depotId
  { files with archive := Function.update files.archive key.depotId archived }

/-- `copied` is the outcome of the atomic copy, if one is made. -/
def archiveManifest (files : Files) (key : PlanKey) (copied : Bool) : Bool × Files :=
  if key.depotId = 0 ∨ key.gid = 0 then (false, files)
  else if files.isInDepotcache key = false then (false, files)
  else if files.isArchived key = true then (true, files)
  else if copied = false then (false, files)
  else (true, files.store key)

def restoreToDepotcache (files : Files) (key : PlanKey) (copied : Bool) : Bool × Files :=
  if key.gid = 0 then (false, files)
  else if (files.archive key.depotId).contains key.gid = false then (false, files)
  else if files.isInDepotcache key = true then (true, files)
  else if copied = false then (false, files.purge key)
  else (true, files.stage key)

/-- `written` is the outcome of writing the preference file. -/
def markPreferredGid (files : Files) (key : PlanKey) (written : Bool) : Files :=
  if files.isArchived key = true ∧ written = true then
    { files with preferred := Function.update files.preferred key.depotId key.gid }
  else files

def preferredArchivedGid (files : Files) (depotId : DepotId) (excludeGid : Gid) : Gid :=
  let gid := if files.preferred depotId = excludeGid then 0 else files.preferred depotId
  if files.isArchived ⟨depotId, gid⟩ = true then gid else 0

def bestArchivedGid (files : Files) (depotId : DepotId) (excludeGid : Gid) : Gid :=
  ((files.archive depotId).find? fun gid => gid != 0 && gid != excludeGid).getD 0

/-- The newest other file of the depot, valid or not. -/
def findLocalAltGid (files : Files) (depotId : DepotId) (planned : Gid) : Gid :=
  (((files.depotcache depotId).find? fun file => file.gid != planned && file.nonEmpty).map Staged.gid).getD 0

end Files

inductive ExactState
  | ready | pending | unavailable
  deriving DecidableEq

inductive ChoiceSource
  | exact | preferredLocal | legacyLocal | exactUnavailable
  deriving DecidableEq

structure Decision where
  gid : Gid
  source : ChoiceSource
  final : Bool
  deriving DecidableEq

def choose (plannedGid : Gid) (exactState : ExactState) (preferredLocalGid legacyLocalGid : Gid) : Decision :=
  match exactState with
  | .ready => ⟨plannedGid, .exact, true⟩
  | .pending => ⟨plannedGid, .exact, false⟩
  | .unavailable =>
    if preferredLocalGid ≠ 0 ∧ preferredLocalGid ≠ plannedGid then ⟨preferredLocalGid, .preferredLocal, true⟩
    else if legacyLocalGid ≠ 0 ∧ legacyLocalGid ≠ plannedGid then ⟨legacyLocalGid, .legacyLocal, true⟩
    else ⟨plannedGid, .exactUnavailable, true⟩

end SlsteamMoon.ManifestPlan

/-! The plan-state map: deadlines, freshness and the frozen decision of each
depot and planned gid. The clock counts milliseconds. -/
namespace SlsteamMoon.ManifestPlan

def kPlanBudgetMs : Nat := 12000
def kPlanStateTtl : Nat := 2 * 60 * 1000

structure PlanState where
  deadline : Nat
  touched : Nat
  frozenGid : Option Gid
  deriving DecidableEq

abbrev PlanStates := PlanKey → Option PlanState

def Expired (now : Nat) (state : PlanState) : Prop := now - state.touched > kPlanStateTtl

instance (now : Nat) (state : PlanState) : Decidable (Expired now state) :=
  inferInstanceAs (Decidable (_ > _))

def prunePlanStates (now : Nat) (plans : PlanStates) : PlanStates :=
  fun key => (plans key).filter fun state => decide (¬ Expired now state)

/-- A zero deadline is the default time point. -/
def registerPlanTarget (now : Nat) (key : PlanKey) (deadline : Nat) (plans : PlanStates) : PlanStates :=
  if key.depotId = 0 ∨ key.gid = 0 then plans
  else
    let pruned := prunePlanStates now plans
    let state := (pruned key).getD ⟨0, 0, none⟩
    let shared :=
      if state.frozenGid.isNone = true then
        if state.deadline = 0 ∨ now ≥ state.deadline then deadline
        else if deadline < state.deadline then deadline
        else state.deadline
      else state.deadline
    Function.update pruned key (some ⟨shared, now, state.frozenGid⟩)

def remainingPlanBudgetMs (now : Nat) (key : PlanKey) (plans : PlanStates) : Nat × PlanStates :=
  let pruned := prunePlanStates now plans
  let state := (pruned key).getD ⟨now + kPlanBudgetMs, now, none⟩
  (state.deadline - now, Function.update pruned key (some { state with touched := now }))

/-- The decision frozen for a key. -/
def frozenOf (plans : PlanStates) (key : PlanKey) : Option Gid := (plans key).bind PlanState.frozenGid

def frozenPlanGid (key : PlanKey) (consume : Bool) (plans : PlanStates) : Option Gid × PlanStates :=
  match frozenOf plans key with
  | none => (none, plans)
  | some frozen => (some frozen, if consume = true then Function.update plans key none else plans)

def freezePlanGid (now : Nat) (key : PlanKey) (chosen : Gid) (consume : Bool) (plans : PlanStates) : PlanStates :=
  let state := (plans key).getD ⟨0, 0, none⟩
  let frozen := Function.update plans key (some ⟨state.deadline, now, some chosen⟩)
  if consume = true then Function.update frozen key none else frozen

/-- Pruning takes expired decisions only. -/
theorem frozenOf_prune {now : Nat} {plans : PlanStates} {key : PlanKey}
    (h : ∀ state, plans key = some state → ¬ Expired now state) :
    frozenOf (prunePlanStates now plans) key = frozenOf plans key := by
  simp only [frozenOf, prunePlanStates]
  cases hs : plans key with
  | none => rfl
  | some state => simp [Option.filter, h state hs]

private theorem frozenOf_update (plans : PlanStates) (key other : PlanKey) (state : Option PlanState) :
    frozenOf (Function.update plans key state) other =
      if other = key then state.bind PlanState.frozenGid else frozenOf plans other := by
  by_cases h : other = key
  · subst h
    simp [frozenOf]
  · simp [frozenOf, h]

private theorem frozenOf_touched (plans : PlanStates) (key other : PlanKey) (fresh : PlanState)
    (hfresh : fresh.frozenGid = none) (deadline touched : Nat) :
    frozenOf (Function.update plans key (some ⟨deadline, touched, ((plans key).getD fresh).frozenGid⟩)) other =
      frozenOf plans other := by
  rw [frozenOf_update]
  split
  · next h =>
    subst h
    cases hs : plans other <;> simp [frozenOf, hs, hfresh]
  · rfl

/-- Registering a target keeps every decision the prune keeps. -/
theorem frozenOf_registerPlanTarget (now : Nat) (key : PlanKey) (deadline : Nat) (plans : PlanStates)
    (h : key.depotId ≠ 0 ∧ key.gid ≠ 0) (other : PlanKey) :
    frozenOf (registerPlanTarget now key deadline plans) other =
      frozenOf (prunePlanStates now plans) other := by
  simp only [registerPlanTarget, not_or.mpr h, if_false]
  exact frozenOf_touched (prunePlanStates now plans) key other ⟨0, 0, none⟩ rfl _ now

theorem frozenOf_remainingPlanBudgetMs (now : Nat) (key : PlanKey) (plans : PlanStates) (other : PlanKey) :
    frozenOf (remainingPlanBudgetMs now key plans).2 other = frozenOf (prunePlanStates now plans) other :=
  frozenOf_touched (prunePlanStates now plans) key other ⟨now + kPlanBudgetMs, now, none⟩ rfl _ now

theorem frozenPlanGid_fst (key : PlanKey) (consume : Bool) (plans : PlanStates) :
    (frozenPlanGid key consume plans).1 = frozenOf plans key := by
  simp only [frozenPlanGid]
  split <;> simp_all

/-- A consuming lookup takes the key's decision with it, no other. -/
theorem frozenOf_frozenPlanGid (key : PlanKey) (consume : Bool) (plans : PlanStates) (other : PlanKey) :
    frozenOf (frozenPlanGid key consume plans).2 other =
      if other = key ∧ consume = true then none else frozenOf plans other := by
  simp only [frozenPlanGid]
  cases hf : frozenOf plans key with
  | none =>
    dsimp only
    split
    · next h => rw [h.1, hf]
    · rfl
  | some frozen =>
    dsimp only
    cases consume with
    | false => simp
    | true =>
      rw [if_pos rfl, frozenOf_update]
      simp

theorem frozenOf_freezePlanGid (now : Nat) (key : PlanKey) (chosen : Gid) (consume : Bool) (plans : PlanStates)
    (other : PlanKey) :
    frozenOf (freezePlanGid now key chosen consume plans) other =
      if other = key then (if consume = true then none else some chosen) else frozenOf plans other := by
  cases consume with
  | false => simp [freezePlanGid, frozenOf_update]
  | true =>
    simp only [freezePlanGid, if_true, frozenOf_update]
    split <;> simp

end SlsteamMoon.ManifestPlan
