import Mathlib.Data.Finset.Sort

/-! The bounded queue of ownership presentation changes: what is wanted, what the
live library shows, and the removals and restorations between the two. -/
namespace SlsteamMoon.LibraryRemoval

abbrev AppId := UInt32

inductive Action
  | remove | restore
  deriving DecidableEq, Repr

structure Work where
  appId : AppId
  action : Action
  deriving DecidableEq, Repr

/-- The pending works in order, and the apps of each action among them. -/
structure Queue where
  capacity : Nat
  closed : Bool := false
  reassertRequested : Bool := false
  pending : List Work := []
  pendingRemovals : Finset AppId := ∅
  pendingRestores : Finset AppId := ∅
  desired : Finset AppId := ∅
  effectiveRemoved : Finset AppId := ∅
  presentReady : Finset AppId := ∅
  inFlight : Option Work := none

namespace Queue

def pendingSet (q : Queue) : Action → Finset AppId
  | .remove => q.pendingRemovals
  | .restore => q.pendingRestores

def insertPending (q : Queue) (work : Work) : Queue :=
  match work.action with
  | .remove => { q with pendingRemovals := insert work.appId q.pendingRemovals }
  | .restore => { q with pendingRestores := insert work.appId q.pendingRestores }

def erasePendingSet (q : Queue) (work : Work) : Queue :=
  match work.action with
  | .remove => { q with pendingRemovals := q.pendingRemovals.erase work.appId }
  | .restore => { q with pendingRestores := q.pendingRestores.erase work.appId }

def erasePending (q : Queue) (work : Work) : Queue :=
  if work.appId ∉ q.pendingSet work.action then q
  else { q.erasePendingSet work with pending := q.pending.filter (· ≠ work) }

def enqueue (q : Queue) (work : Work) : Bool × Queue :=
  if work.appId ∈ q.pendingSet work.action ∨ q.inFlight = some work then (false, q)
  else (true, { q.insertPending work with pending := q.pending ++ [work] })

def reconcile (q : Queue) (appId : AppId) : Queue :=
  let removeInFlight := q.inFlight = some ⟨appId, .remove⟩
  let restoreInFlight := q.inFlight = some ⟨appId, .restore⟩
  if appId ∈ q.desired then
    let q := { q with presentReady := q.presentReady.erase appId }.erasePending ⟨appId, .restore⟩
    if appId ∉ q.effectiveRemoved ∨ restoreInFlight then (q.enqueue ⟨appId, .remove⟩).2 else q
  else
    let q := q.erasePending ⟨appId, .remove⟩
    if appId ∈ q.presentReady ∧ (appId ∈ q.effectiveRemoved ∨ removeInFlight) then
      (q.enqueue ⟨appId, .restore⟩).2
    else q

def push (q : Queue) (appId : AppId) : Bool × Queue :=
  if appId = 0 then (false, q)
  else if q.closed = true then (false, q)
  else
    let newlyDesired := decide (appId ∉ q.desired)
    let q := { q with desired := insert appId q.desired }
    if newlyDesired = true ∧ q.capacity < q.desired.card then (false, { q with desired := q.desired.erase appId })
    else (newlyDesired, q.reconcile appId)

def cancel (q : Queue) (appId : AppId) : Queue := { q with desired := q.desired.erase appId }.reconcile appId

def readyToRestore (q : Queue) (appId : AppId) : Queue :=
  if q.closed = true ∨ appId = 0 ∨ appId ∈ q.desired then q
  else { q with presentReady := insert appId q.presentReady }.reconcile appId

/-- A work that is still wanted. -/
def Current (q : Queue) (work : Work) : Prop :=
  match work.action with
  | .remove => work.appId ∈ q.desired
  | .restore => work.appId ∉ q.desired ∧ work.appId ∈ q.presentReady

instance (q : Queue) (work : Work) : Decidable (q.Current work) := by
  unfold Current
  split <;> infer_instance

def enqueueDesired (q : Queue) (appIds : List AppId) : Queue :=
  appIds.foldl (fun q appId => if appId ∈ q.desired then (q.enqueue ⟨appId, .remove⟩).2 else q) q

/-- The effectively removed apps in order, those still desired enqueued again. -/
def reassert (q : Queue) : Queue := { q.enqueueDesired q.effectiveRemoved.sort with reassertRequested := false }

/-- Works that are no longer wanted are dropped on the way to one that is. -/
def drainFrom (q : Queue) : List Work → Option Work × Queue
  | [] => (none, q)
  | work :: pending =>
    let q := { q with pending }.erasePendingSet work
    if q.Current work then (some work, { q with inFlight := some work }) else q.drainFrom pending

def drainOne (q : Queue) : Option Work × Queue :=
  if q.closed = true ∨ q.inFlight.isSome then (none, q)
  else
    let q := if q.reassertRequested then q.reassert else q
    q.drainFrom q.pending

/-- The effect is published before the library is told. -/
def begin (q : Queue) (work : Work) : Bool × Queue :=
  if q.closed = true ∨ q.inFlight ≠ some work then (false, q)
  else if ¬q.Current work then (false, { q with inFlight := none }.reconcile work.appId)
  else match work.action with
    | .remove => (true, { q with effectiveRemoved := insert work.appId q.effectiveRemoved })
    | .restore => (true, { q with effectiveRemoved := q.effectiveRemoved.erase work.appId })

def land (q : Queue) (work : Work) : Queue :=
  if q.inFlight = some work then { q with inFlight := none } else q

def finish (q : Queue) (work : Work) : Queue :=
  let q := q.land work
  let q := if work.action = .restore ∧ work.appId ∉ q.desired then
      { q with presentReady := q.presentReady.erase work.appId }
    else q
  q.reconcile work.appId

def retry (q : Queue) (work : Work) : Queue := (q.land work).reconcile work.appId

def appliedSnapshot (q : Queue) : List AppId :=
  (q.effectiveRemoved.filter fun appId => q.closed = false ∧ appId ∈ q.desired).sort

def requestFullReassert (q : Queue) : Queue :=
  if q.closed = false then { q with reassertRequested := true } else q

/-! What each operation on the pending works keeps. -/

/-- The pending works are those of the two sets, each once. -/
structure Matched (q : Queue) : Prop where
  nodup : q.pending.Nodup
  mem_iff : ∀ work, work ∈ q.pending ↔ work.appId ∈ q.pendingSet work.action

/-- Only the pending works differ. -/
structure Same (q q' : Queue) : Prop where
  capacity : q'.capacity = q.capacity
  closed : q'.closed = q.closed
  desired : q'.desired = q.desired
  effectiveRemoved : q'.effectiveRemoved = q.effectiveRemoved
  presentReady : q'.presentReady = q.presentReady
  inFlight : q'.inFlight = q.inFlight

theorem Same.refl (q : Queue) : Same q q := ⟨rfl, rfl, rfl, rfl, rfl, rfl⟩

private theorem work_ne_iff {work work' : Work} :
    work ≠ work' ↔ (work.action = work'.action → work.appId ≠ work'.appId) := by
  cases work
  cases work'
  simp only [ne_eq, Work.mk.injEq, not_and]
  exact ⟨fun h haction happ => h happ haction, fun h happ haction => h haction happ⟩

private theorem mem_pendingSet_erase (q : Queue) (work work' : Work) :
    work'.appId ∈ (q.erasePendingSet work).pendingSet work'.action ↔
      work'.appId ∈ q.pendingSet work'.action ∧ work' ≠ work := by
  rw [work_ne_iff]
  cases haction : work.action <;> cases haction' : work'.action <;>
    simp [erasePendingSet, pendingSet, haction, and_comm]

private theorem mem_pendingSet_insert (q : Queue) (work work' : Work) :
    work'.appId ∈ (q.insertPending work).pendingSet work'.action ↔
      work'.appId ∈ q.pendingSet work'.action ∨ work' = work := by
  have hne := (work_ne_iff : work' ≠ work ↔ _).not
  cases haction : work.action <;> cases haction' : work'.action <;>
    simp_all [insertPending, pendingSet, or_comm]

private theorem erasePendingSet_same (q : Queue) (work : Work) (pending : List Work) :
    Same q { q.erasePendingSet work with pending } := by
  unfold erasePendingSet
  split <;> exact ⟨rfl, rfl, rfl, rfl, rfl, rfl⟩

private theorem insertPending_same (q : Queue) (work : Work) (pending : List Work) :
    Same q { q.insertPending work with pending } := by
  unfold insertPending
  split <;> exact ⟨rfl, rfl, rfl, rfl, rfl, rfl⟩

private theorem pendingSet_pending (q : Queue) (pending : List Work) (action : Action) :
    { q with pending }.pendingSet action = q.pendingSet action := by
  cases action <;> rfl

private theorem erasePending_spec {q : Queue} (hq : Matched q) (work : Work) :
    Matched (q.erasePending work) ∧ Same q (q.erasePending work) ∧
      ∀ work', work' ∈ (q.erasePending work).pending ↔ work' ∈ q.pending ∧ work' ≠ work := by
  unfold erasePending
  split
  · next habsent =>
    have hnot : work ∉ q.pending := fun h => habsent ((hq.mem_iff work).mp h)
    refine ⟨hq, .refl q, fun work' => ⟨fun h => ⟨h, ?_⟩, And.left⟩⟩
    rintro rfl
    exact hnot h
  · refine ⟨⟨hq.nodup.filter _, fun work' => ?_⟩, erasePendingSet_same q work _, fun work' => ?_⟩
    · rw [pendingSet_pending, mem_pendingSet_erase, ← hq.mem_iff]
      simp
    · simp

theorem enqueue_spec {q : Queue} (hq : Matched q) (work : Work) :
    Matched (q.enqueue work).2 ∧ Same q (q.enqueue work).2 ∧
      (∀ work', work' ∈ (q.enqueue work).2.pending → work' ∈ q.pending ∨ work' = work) ∧
      (∀ work' ∈ q.pending, work' ∈ (q.enqueue work).2.pending) ∧
      (work ∈ (q.enqueue work).2.pending ∨ (q.enqueue work).2.inFlight = some work) := by
  unfold enqueue
  split
  · next hheld =>
    refine ⟨hq, .refl q, fun work' h => .inl h, fun work' h => h, ?_⟩
    exact hheld.imp (hq.mem_iff work).mpr id
  · next hnew =>
    have hnot : work ∉ q.pending := fun h => hnew (.inl ((hq.mem_iff work).mp h))
    refine ⟨⟨?_, fun work' => ?_⟩, insertPending_same q work _, fun work' => ?_, fun work' => ?_, .inl ?_⟩
    · exact List.nodup_append.mpr ⟨hq.nodup, List.nodup_singleton work, by
        rintro work' h _ hwork rfl
        exact hnot (List.mem_singleton.mp hwork ▸ h)⟩
    · rw [pendingSet_pending, mem_pendingSet_insert, ← hq.mem_iff]
      simp
    · simp
    · simp +contextual
    · simp

private theorem erasePendingSet_pending (q : Queue) (work : Work) (pending : List Work) :
    { q with pending }.erasePendingSet work = { q.erasePendingSet work with pending } := by
  unfold erasePendingSet
  cases work.action <;> rfl

/-- The front of the queue and its place in the set go together. -/
theorem pop_spec {q : Queue} (hq : Matched q) {work : Work} {pending : List Work}
    (hpending : q.pending = work :: pending) :
    Matched ({ q with pending }.erasePendingSet work) ∧ Same q ({ q with pending }.erasePendingSet work) ∧
      ({ q with pending }.erasePendingSet work).pending = pending := by
  rw [erasePendingSet_pending]
  have hnodup : (work :: pending).Nodup := hpending ▸ hq.nodup
  refine ⟨⟨hnodup.of_cons, fun work' => ?_⟩, erasePendingSet_same q work pending, rfl⟩
  rw [pendingSet_pending, mem_pendingSet_erase, ← hq.mem_iff, hpending]
  have hnot : work ∉ pending := (List.nodup_cons.mp hnodup).1
  constructor
  · intro h
    refine ⟨List.mem_cons_of_mem _ h, ?_⟩
    rintro rfl
    exact hnot h
  · rintro ⟨h, hne⟩
    exact (List.mem_cons.mp h).resolve_left hne

/-- A desired app is removed, pending removal or at the worker for it; an app that
is ready to be shown again is not removed, or pending or at the worker likewise. -/
def Settled (q : Queue) (appId : AppId) : Prop :=
  (appId ∈ q.desired → appId ∈ q.effectiveRemoved ∨ ⟨appId, .remove⟩ ∈ q.pending ∨
    q.inFlight = some ⟨appId, .remove⟩) ∧
  (appId ∉ q.desired → appId ∈ q.presentReady → appId ∈ q.effectiveRemoved →
    ⟨appId, .restore⟩ ∈ q.pending ∨ q.inFlight = some ⟨appId, .restore⟩)

/-- Nothing that concerns the app differs, but for more pending works. -/
theorem Settled.congr {q q' : Queue} {appId : AppId} (h : Settled q appId)
    (hdesired : appId ∈ q'.desired ↔ appId ∈ q.desired)
    (heffective : appId ∈ q'.effectiveRemoved ↔ appId ∈ q.effectiveRemoved)
    (hready : appId ∈ q'.presentReady → appId ∈ q.presentReady)
    (hpending : ∀ action, ⟨appId, action⟩ ∈ q.pending → ⟨appId, action⟩ ∈ q'.pending)
    (hflight : ∀ action, q.inFlight = some ⟨appId, action⟩ → q'.inFlight = some ⟨appId, action⟩) :
    Settled q' appId := by
  refine ⟨fun hd => ?_, fun hd hr he => ?_⟩
  · rcases h.1 (hdesired.mp hd) with he | hp | hf
    · exact .inl (heffective.mpr he)
    · exact .inr (.inl (hpending _ hp))
    · exact .inr (.inr (hflight _ hf))
  · have hd' : appId ∉ q.desired := fun hin => hd (hdesired.mpr hin)
    exact (h.2 hd' (hready hr) (heffective.mp he)).imp (hpending _) (hflight _)

/-- What a reconciliation keeps of everything but the works of its app. -/
structure Reconciled (q : Queue) (appId : AppId) (q' : Queue) : Prop where
  matched : Matched q'
  capacity : q'.capacity = q.capacity
  closed : q'.closed = q.closed
  desired : q'.desired = q.desired
  effectiveRemoved : q'.effectiveRemoved = q.effectiveRemoved
  inFlight : q'.inFlight = q.inFlight
  ready : ∀ other, other ∈ q'.presentReady → other ∈ q.presentReady
  others : ∀ work ∈ q.pending, work.appId ≠ appId → work ∈ q'.pending

theorem Reconciled.erase {q q' : Queue} {appId : AppId} (h : Reconciled q appId q') (action : Action) :
    Reconciled q appId (q'.erasePending ⟨appId, action⟩) := by
  obtain ⟨hmatched, hsame, hpending⟩ := erasePending_spec h.matched ⟨appId, action⟩
  exact {
    matched := hmatched
    capacity := hsame.capacity.trans h.capacity
    closed := hsame.closed.trans h.closed
    desired := hsame.desired.trans h.desired
    effectiveRemoved := hsame.effectiveRemoved.trans h.effectiveRemoved
    inFlight := hsame.inFlight.trans h.inFlight
    ready := fun other hr => h.ready other (hsame.presentReady ▸ hr)
    others := fun work hw hne => (hpending work).mpr ⟨h.others work hw hne, by
      rintro rfl
      exact hne rfl⟩ }

theorem Reconciled.enqueue {q q' : Queue} {appId : AppId} (h : Reconciled q appId q') (work : Work) :
    Reconciled q appId (q'.enqueue work).2 := by
  obtain ⟨hmatched, hsame, -, hkept, -⟩ := enqueue_spec h.matched work
  exact {
    matched := hmatched
    capacity := hsame.capacity.trans h.capacity
    closed := hsame.closed.trans h.closed
    desired := hsame.desired.trans h.desired
    effectiveRemoved := hsame.effectiveRemoved.trans h.effectiveRemoved
    inFlight := hsame.inFlight.trans h.inFlight
    ready := fun other hr => h.ready other (hsame.presentReady ▸ hr)
    others := fun work' hw hne => hkept work' (h.others work' hw hne) }

theorem Matched.reconcile {q : Queue} (hq : Matched q) (appId : AppId) :
    Reconciled q appId (q.reconcile appId) := by
  have hstart : Reconciled q appId q := ⟨hq, rfl, rfl, rfl, rfl, rfl, fun _ h => h, fun _ h _ => h⟩
  have herased : Reconciled q appId { q with presentReady := q.presentReady.erase appId } :=
    ⟨⟨hq.nodup, hq.mem_iff⟩, rfl, rfl, rfl, rfl, rfl, fun _ h => Finset.mem_of_mem_erase h, fun _ h _ => h⟩
  unfold Queue.reconcile
  dsimp only
  split
  · split
    · exact (herased.erase .restore).enqueue _
    · exact herased.erase .restore
  · split
    · exact (hstart.erase .remove).enqueue _
    · exact hstart.erase .remove

/-- Reconciling an app settles it. -/
theorem settled_reconcile {q : Queue} (hq : Matched q) (appId : AppId) : Settled (q.reconcile appId) appId := by
  have hafter := hq.reconcile appId
  refine ⟨fun hdesired => ?_, fun hdesired hready heffective => ?_⟩
  · rw [hafter.desired] at hdesired
    by_cases heffective : appId ∈ q.effectiveRemoved
    · exact .inl (hafter.effectiveRemoved ▸ heffective)
    · have herased : Matched { q with presentReady := q.presentReady.erase appId } := ⟨hq.nodup, hq.mem_iff⟩
      obtain ⟨hmatched, hsame, -⟩ := erasePending_spec herased ⟨appId, .restore⟩
      obtain ⟨-, -, -, -, hin⟩ := enqueue_spec hmatched ⟨appId, .remove⟩
      have hunfold : q.reconcile appId = (({ q with presentReady := q.presentReady.erase appId }.erasePending
          ⟨appId, .restore⟩).enqueue ⟨appId, .remove⟩).2 := by
        simp only [Queue.reconcile, if_pos hdesired]
        exact if_pos (.inl (by rwa [hsame.effectiveRemoved]))
      rw [hunfold]
      exact .inr hin
  · have hready' := hafter.ready appId hready
    rw [hafter.desired] at hdesired
    rw [hafter.effectiveRemoved] at heffective
    obtain ⟨hmatched, hsame, -⟩ := erasePending_spec hq ⟨appId, .remove⟩
    obtain ⟨-, -, -, -, hin⟩ := enqueue_spec hmatched ⟨appId, .restore⟩
    have hunfold : q.reconcile appId = ((q.erasePending ⟨appId, .remove⟩).enqueue ⟨appId, .restore⟩).2 := by
      simp only [Queue.reconcile, if_neg hdesired]
      exact if_pos ⟨by rwa [hsame.presentReady], .inl (by rwa [hsame.effectiveRemoved])⟩
    rw [hunfold]
    exact hin

theorem settled_reconcile_other {q : Queue} (hq : Matched q) {appId other : AppId} (hne : other ≠ appId)
    (h : Settled q other) : Settled (q.reconcile appId) other := by
  have hafter := hq.reconcile appId
  exact h.congr (by rw [hafter.desired]) (by rw [hafter.effectiveRemoved]) (hafter.ready other)
    (fun action hp => hafter.others _ hp hne) (fun action hf => hafter.inFlight.trans hf)

/-! The work in flight changes only where it is drained or given back. -/

@[simp] theorem erasePending_inFlight (q : Queue) (work : Work) : (q.erasePending work).inFlight = q.inFlight := by
  unfold erasePending
  split
  · rfl
  · exact (erasePendingSet_same q work _).inFlight

@[simp] theorem enqueue_inFlight (q : Queue) (work : Work) : (q.enqueue work).2.inFlight = q.inFlight := by
  unfold enqueue
  split
  · rfl
  · exact (insertPending_same q work _).inFlight

@[simp] theorem reconcile_inFlight (q : Queue) (appId : AppId) : (q.reconcile appId).inFlight = q.inFlight := by
  unfold reconcile
  dsimp only
  split_ifs <;> simp

@[simp] theorem push_inFlight (q : Queue) (appId : AppId) : (q.push appId).2.inFlight = q.inFlight := by
  unfold push
  dsimp only
  split_ifs <;> simp

@[simp] theorem cancel_inFlight (q : Queue) (appId : AppId) : (q.cancel appId).inFlight = q.inFlight := by
  simp [cancel]

@[simp] theorem readyToRestore_inFlight (q : Queue) (appId : AppId) :
    (q.readyToRestore appId).inFlight = q.inFlight := by
  unfold readyToRestore
  split_ifs <;> simp

@[simp] theorem requestFullReassert_inFlight (q : Queue) : q.requestFullReassert.inFlight = q.inFlight := by
  unfold requestFullReassert
  split <;> rfl

private theorem land_inFlight {q : Queue} {work : Work} (h : q.inFlight = some work) :
    (q.land work).inFlight = none := by
  unfold land
  rw [if_pos h]

theorem retry_inFlight {q : Queue} {work : Work} (h : q.inFlight = some work) : (q.retry work).inFlight = none := by
  simp [retry, land_inFlight h]

theorem finish_inFlight {q : Queue} {work : Work} (h : q.inFlight = some work) : (q.finish work).inFlight = none := by
  unfold finish
  dsimp only
  split <;> simp [land_inFlight h]

/-- A work that was not begun is given back. -/
theorem begin_inFlight {q : Queue} (hopened : q.closed = false) {work : Work} (h : q.inFlight = some work) :
    (q.begin work).2.inFlight = if (q.begin work).1 then some work else none := by
  unfold Queue.begin
  have hheld : ¬(q.closed = true ∨ q.inFlight ≠ some work) := by simp [hopened, h]
  rw [if_neg hheld]
  split
  · simp
  · split <;> simpa using h

end Queue

end SlsteamMoon.LibraryRemoval
