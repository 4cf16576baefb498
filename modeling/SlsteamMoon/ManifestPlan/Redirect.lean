import SlsteamMoon.Runs
import SlsteamMoon.ManifestPlan.Store

/-! The leaf and planner detours as interleaved calls of redirectGid over the
plan states, the depotcache and the store. One event is one access to shared
state; files, fetches, other plans and the clock move between any two. -/
namespace SlsteamMoon.ManifestPlan

open Runs

/-- What the redirect reads of the configuration for one depot. -/
structure Scope where
  fallbackEnabled : Bool
  steamRoot : Bool
  manifestPin : AppId → DepotId → Gid
  manifestInManagedScope : AppId → DepotId → Bool

/-- The call goes past the entry tests of redirectGid: no pin, in scope. -/
def Scope.redirects (scope : Scope) (appId : AppId) (key : PlanKey) : Bool :=
  scope.manifestPin appId key.depotId == 0 && scope.fallbackEnabled && key.gid != 0 && key.depotId != 0 &&
    scope.manifestInManagedScope appId key.depotId && scope.steamRoot

structure World where
  now : Nat
  plans : PlanStates
  files : Files
  offline : AppId → Bool

/-- Where a call of redirectGid stands. -/
inductive Phase
  | lookup
  | exactGate
  | archiveExact
  | markExact
  | restoreExact
  | planBudget
  | awaiting (waitMs : Nat)
  | fetched
  | preferred
  | legacy
  | localScan
  | archiveLegacy (gid : Gid)
  | chosen (preferred legacy : Gid)
  | stageGate (gid : Gid)
  | stageRestore (gid : Gid)
  | setOffline (gid : Gid)
  | freeze (gid : Gid)
  | returned (gid : Gid)
  deriving DecidableEq

/-- One access of a call. `io` is the outcome of the copy, write or fetch it
makes; a returned call has no step. -/
def redirectStep (consumeFrozen : Bool) (appId : AppId) (key : PlanKey) (io : Bool) (w : World) :
    Phase → Option (World × Phase)
  | .lookup =>
    let found := frozenPlanGid key consumeFrozen w.plans
    some ({ w with plans := found.2 },
      match found.1 with
      | some frozen => .returned frozen
      | none => .exactGate)
  | .exactGate => some (w, if w.files.isInDepotcache key = true then .archiveExact else .restoreExact)
  | .archiveExact =>
    let archived := w.files.archiveManifest key io
    some ({ w with files := archived.2 }, if archived.1 = true then .markExact else .freeze key.gid)
  | .markExact => some ({ w with files := w.files.markPreferredGid key io }, .freeze key.gid)
  | .restoreExact =>
    let restored := w.files.restoreToDepotcache key io
    some ({ w with files := restored.2 }, if restored.1 = true then .markExact else .planBudget)
  | .planBudget =>
    -- submitManifestBlob is deduplicated and returns at once
    let budget := remainingPlanBudgetMs w.now key w.plans
    some ({ w with plans := budget.2 }, .awaiting budget.1)
  | .awaiting _ => some (w, if io = true then .fetched else .preferred)
  | .fetched => some (w, if w.files.isInDepotcache key = true then .markExact else .preferred)
  | .preferred =>
    let preferred := w.files.preferredArchivedGid key.depotId key.gid
    some (w, if preferred ≠ 0 then .chosen preferred 0 else .legacy)
  | .legacy =>
    let best := w.files.bestArchivedGid key.depotId key.gid
    some (w, if best ≠ 0 then .chosen 0 best else .localScan)
  | .localScan =>
    let alternate := w.files.findLocalAltGid key.depotId key.gid
    some (w, if alternate ≠ 0 then .archiveLegacy alternate else .chosen 0 0)
  | .archiveLegacy gid =>
    let archived := w.files.archiveManifest ⟨key.depotId, gid⟩ io
    some ({ w with files := archived.2 }, .chosen 0 (if archived.1 = true then gid else 0))
  | .chosen preferred legacy =>
    let decision := choose key.gid .unavailable preferred legacy
    some (w, if decision.gid = key.gid then .freeze key.gid else .stageGate decision.gid)
  | .stageGate gid =>
    some (w, if w.files.isInDepotcache ⟨key.depotId, gid⟩ = true then .setOffline gid else .stageRestore gid)
  | .stageRestore gid =>
    let restored := w.files.restoreToDepotcache ⟨key.depotId, gid⟩ io
    some ({ w with files := restored.2 }, if restored.1 = true then .setOffline gid else .freeze key.gid)
  | .setOffline gid => some ({ w with offline := Function.update w.offline appId true }, .freeze gid)
  | .freeze gid =>
    some ({ w with plans := freezePlanGid w.now key gid consumeFrozen w.plans }, .returned gid)
  | .returned _ => none

inductive Side
  | leaf | planner
  deriving DecidableEq

/-- The planner's lookup consumes the frozen decision. -/
def Side.consumeFrozen : Side → Bool
  | .leaf => false
  | .planner => true

/-- One depot of one plan: the leaf's call and, once Steam gets there, the
planner's. -/
structure Pair where
  appId : AppId
  key : PlanKey
  leaf : Phase
  planner : Option Phase
  deriving DecidableEq

structure State where
  world : World
  pairs : Nat → Option Pair

inductive Event
  | hkProcessDepot (pair : Nat) (appId : AppId) (key : PlanKey)
  | hkPrepareDepot (pair : Nat)
  | advance (pair : Nat) (side : Side) (io : Bool)
  | registered (key : PlanKey) (deadline : Nat)
  | published (key : PlanKey) (archived : Bool)
  | purged (key : PlanKey)
  | elapsed (ms : Nat)

def State.setPair (s : State) (n : Nat) (pair : Pair) : State :=
  { s with pairs := Function.update s.pairs n (some pair) }

def State.setWorld (s : State) (w : World) : State := { s with world := w }

@[simp] theorem State.world_setPair (s : State) (n : Nat) (pair : Pair) : (s.setPair n pair).world = s.world := rfl

@[simp] theorem State.pairs_setWorld (s : State) (w : World) : (s.setWorld w).pairs = s.pairs := rfl

@[simp] theorem State.world_setWorld (s : State) (w : World) : (s.setWorld w).world = w := rfl

theorem State.pairs_setPair (s : State) (n m : Nat) (pair : Pair) :
    (s.setPair n pair).pairs m = if m = n then some pair else s.pairs m := by
  simp only [State.setPair, Function.update_apply]

/-- The planner is called with the depot and gid of its leaf, which returned. -/
def step (scope : Scope) : Step State Event
  | s, .hkProcessDepot n appId key =>
    if (s.pairs n).isNone = true ∧ scope.redirects appId key = true then
      some (s.setPair n ⟨appId, key, .lookup, none⟩)
    else none
  | s, .hkPrepareDepot n =>
    match s.pairs n with
    | some ⟨appId, key, .returned gid, none⟩ => some (s.setPair n ⟨appId, key, .returned gid, some .lookup⟩)
    | _ => none
  | s, .advance n side io =>
    (s.pairs n).bind fun pair =>
      match side with
      | .leaf => (redirectStep side.consumeFrozen pair.appId pair.key io s.world pair.leaf).map fun next =>
          (s.setWorld next.1).setPair n { pair with leaf := next.2 }
      | .planner => pair.planner.bind fun phase =>
          (redirectStep side.consumeFrozen pair.appId pair.key io s.world phase).map fun next =>
            (s.setWorld next.1).setPair n { pair with planner := some next.2 }
  | s, .registered key deadline =>
    some (s.setWorld { s.world with plans := registerPlanTarget s.world.now key deadline s.world.plans })
  | s, .published key archived =>
    let files := if archived = true then s.world.files.store key else s.world.files
    some (s.setWorld { s.world with files := files.stage key })
  | s, .purged key => some (s.setWorld { s.world with files := s.world.files.purge key })
  | s, .elapsed ms => some (s.setWorld { s.world with now := s.world.now + ms })

/-- No plan is under way; whatever plan states and files are left over. -/
def initial (w : World) : State := ⟨w, fun _ => none⟩

/-- What one access of a call does to the frozen decisions. -/
inductive Moves (consumeFrozen : Bool) (key : PlanKey) (w w' : World) : Phase → Phase → Prop
  | reused (gid : Gid) (found : frozenOf w.plans key = some gid)
      (frozen : ∀ k, frozenOf w'.plans k = if k = key ∧ consumeFrozen = true then none else frozenOf w.plans k) :
      Moves consumeFrozen key w w' .lookup (.returned gid)
  | froze (gid : Gid)
      (frozen : ∀ k, frozenOf w'.plans k =
        if k = key then (if consumeFrozen = true then none else some gid) else frozenOf w.plans k) :
      Moves consumeFrozen key w w' (.freeze gid) (.returned gid)
  | budgeted (waitMs : Nat)
      (frozen : ∀ k, frozenOf w'.plans k = frozenOf (prunePlanStates w.now w.plans) k) :
      Moves consumeFrozen key w w' .planBudget (.awaiting waitMs)
  | inside (before after : Phase) (missed : before = .lookup → frozenOf w.plans key = none)
      (entered : ∀ gid, before ≠ .returned gid) (running : ∀ gid, after ≠ .returned gid)
      (frozen : ∀ k, frozenOf w'.plans k = frozenOf w.plans k) :
      Moves consumeFrozen key w w' before after

theorem redirectStep_moves {consumeFrozen : Bool} {appId : AppId} {key : PlanKey} {io : Bool} {w w' : World}
    {phase phase' : Phase} (h : redirectStep consumeFrozen appId key io w phase = some (w', phase')) :
    Moves consumeFrozen key w w' phase phase' := by
  cases phase with
  | lookup =>
    simp only [redirectStep, frozenPlanGid_fst, Option.some.injEq, Prod.mk.injEq] at h
    obtain ⟨rfl, rfl⟩ := h
    cases hf : frozenOf w.plans key with
    | some frozen => exact .reused frozen hf (frozenOf_frozenPlanGid key consumeFrozen w.plans)
    | none =>
      refine .inside _ _ (fun _ => hf) (fun _ => Phase.noConfusion) (fun _ => Phase.noConfusion) ?_
      intro k
      rw [frozenOf_frozenPlanGid]
      split
      · next hk => rw [hk.1, hf]
      · rfl
  | freeze gid =>
    simp only [redirectStep, Option.some.injEq, Prod.mk.injEq] at h
    obtain ⟨rfl, rfl⟩ := h
    exact .froze gid (frozenOf_freezePlanGid w.now key gid consumeFrozen w.plans)
  | planBudget =>
    simp only [redirectStep, Option.some.injEq, Prod.mk.injEq] at h
    obtain ⟨rfl, rfl⟩ := h
    exact .budgeted _ (frozenOf_remainingPlanBudgetMs w.now key w.plans)
  | returned gid => cases h
  | _ =>
    -- every other access leaves the plan states alone and stays inside the call
    simp only [redirectStep, Option.some.injEq, Prod.mk.injEq] at h
    obtain ⟨rfl, rfl⟩ := h
    refine .inside _ _ (fun hp => by cases hp) (fun _ => Phase.noConfusion) ?_ (fun _ => rfl)
    intro gid
    first
      | exact Phase.noConfusion
      | (split <;> exact Phase.noConfusion)

end SlsteamMoon.ManifestPlan
