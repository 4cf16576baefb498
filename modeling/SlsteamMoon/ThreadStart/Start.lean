import SlsteamMoon.Runs

/-! Starting a detached worker behind a gate: the call of startDetached, its worker under runGuarded, and the state
that the callbacks share. The threads interleave; a callback is one step. -/
namespace SlsteamMoon.ThreadStart
open Runs

/-- Where a call of startDetached stands, and what it returned. -/
inductive Stage where
  | creating
  | detaching
  /-- In front of onDetachFailure. -/
  | handling
  | joining
  | redetaching
  /-- In front of onRecoveryFailure. -/
  | recovering
  /-- In front of onFailure. -/
  | failing
  | returned (started : Bool)
  deriving DecidableEq, Repr

def Stage.isReturned : Stage → Bool
  | returned _ => true
  | _ => false

/-- The std::thread object and whether it is joinable. -/
inductive Object where
  | absent
  | owned (joinable : Bool)
  | released (joinable : Bool)
  | destroyed (joinable : Bool)
  deriving DecidableEq, Repr

/-- The thread. Exiting is behind the body, in front of onExit. -/
inductive Worker where
  | unborn
  | running
  | exiting
  | gone
  deriving DecidableEq, Repr

/-- The last three count the callbacks that ran. -/
structure Start where
  stage : Stage := .creating
  object : Object := .absent
  worker : Worker := .unborn
  failures : Nat := 0
  recoveries : Nat := 0
  exits : Nat := 0
  deriving DecidableEq, Repr

/-- A detacher or joiner throws or not, and leaves the object joinable or not. -/
inductive Event (β : Type) where
  | create (threw : Bool)
  | detach (threw joinable : Bool)
  | detachFailure
  | join (threw joinable : Bool)
  | redetach (threw joinable : Bool)
  | recoveryFailure
  | failure
  /-- The body and, where it threw, the failure callback of runGuarded. -/
  | body (result : β)
  | exit
  deriving DecidableEq, Repr

/-- What the callbacks do to the state that they share. -/
structure Client (σ β : Type) where
  /-- The check and the claim in front of startDetached. -/
  claim : σ → Option σ
  onFailure : σ → σ
  onDetachFailure : σ → σ
  onRecoveryFailure : σ → σ
  body : β → σ → σ
  onExit : σ → σ

variable {σ β : Type}

namespace Object

/-- The end of the unique_ptr's scope. -/
def dropped : Object → Object
  | owned joinable => destroyed joinable
  | object => object

def isJoinable : Object → Bool
  | owned joinable | released joinable | destroyed joinable => joinable
  | absent => false

@[simp] theorem dropped_eq_absent (object : Object) : object.dropped = absent ↔ object = absent := by
  cases object <;> simp [dropped]

@[simp] theorem isJoinable_dropped (object : Object) : object.dropped.isJoinable = object.isJoinable := by
  cases object <;> rfl

private theorem isJoinable_of_destroyed {object : Object} (h : object.dropped = destroyed true) :
    object.isJoinable = true := by
  rw [← isJoinable_dropped, h]
  rfl

end Object

namespace Worker

def alive : Worker → Bool
  | running | exiting => true
  | _ => false

end Worker

namespace Start

/-- One step of a call or of its worker, and what it does to the shared state. -/
def step (c : Client σ β) (s : σ) (x : Start) : Event β → Option (σ × Start)
  | .create threw =>
    if x.stage ≠ .creating then none
    else if threw then some (s, { x with stage := .failing })
    else some (s, { x with stage := .detaching, object := .owned true, worker := .running })
  | .detach threw joinable =>
    if x.stage ≠ .detaching then none
    else if threw then some (s, { x with stage := .handling, object := .owned joinable })
    else some (s, { x with stage := .returned true, object := .released joinable })
  | .detachFailure =>
    if x.stage ≠ .handling then none
    else some (c.onDetachFailure s, { x with stage := if x.object.isJoinable then .joining else .recovering })
  | .join threw joinable =>
    if x.stage ≠ .joining then none
    else if threw = false ∧ joinable = false then
      -- the joiner has waited for the thread
      if x.worker = .gone then some (s, { x with stage := .failing, object := .owned false }) else none
    else some (s, { x with stage := if joinable then .redetaching else .recovering, object := .owned joinable })
  | .redetach _ joinable =>
    if x.stage ≠ .redetaching then none
    else some (s, { x with stage := .recovering, object := if joinable then .released true else .owned false })
  | .recoveryFailure =>
    if x.stage ≠ .recovering then none
    else
      some (c.onRecoveryFailure s,
        { x with stage := .returned false, object := x.object.dropped, recoveries := x.recoveries + 1 })
  | .failure =>
    if x.stage ≠ .failing then none
    else
      some (c.onFailure s, { x with stage := .returned false, object := x.object.dropped, failures := x.failures + 1 })
  | .body result => if x.worker ≠ .running then none else some (c.body result s, { x with worker := .exiting })
  | .exit => if x.worker ≠ .exiting then none else some (c.onExit s, { x with worker := .gone, exits := x.exits + 1 })

end Start

/-- The shared state and every call that was let through the gate, oldest first. -/
structure System (σ : Type) where
  shared : σ
  starts : List Start := []
  deriving DecidableEq, Repr

inductive Move (β : Type) where
  | claim
  | start (i : Nat) (event : Event β)
  deriving DecidableEq, Repr

namespace Start

/-- Everything that one step can be. -/
inductive Moves (c : Client σ β) (s : σ) (x : Start) : Event β → σ → Start → Prop where
  | createFails (h : x.stage = .creating) : Moves c s x (.create true) s { x with stage := .failing }
  | created (h : x.stage = .creating) :
      Moves c s x (.create false) s { x with stage := .detaching, object := .owned true, worker := .running }
  | detachFails (h : x.stage = .detaching) (joinable : Bool) :
      Moves c s x (.detach true joinable) s { x with stage := .handling, object := .owned joinable }
  | detached (h : x.stage = .detaching) (joinable : Bool) :
      Moves c s x (.detach false joinable) s { x with stage := .returned true, object := .released joinable }
  | handled (h : x.stage = .handling) :
      Moves c s x .detachFailure (c.onDetachFailure s)
        { x with stage := if x.object.isJoinable then .joining else .recovering }
  | joined (h : x.stage = .joining) (hgone : x.worker = .gone) :
      Moves c s x (.join false false) s { x with stage := .failing, object := .owned false }
  | joinFails (h : x.stage = .joining) (threw joinable : Bool) (hfails : ¬(threw = false ∧ joinable = false)) :
      Moves c s x (.join threw joinable) s
        { x with stage := if joinable then .redetaching else .recovering, object := .owned joinable }
  | redetached (h : x.stage = .redetaching) (threw joinable : Bool) :
      Moves c s x (.redetach threw joinable) s
        { x with stage := .recovering, object := if joinable then .released true else .owned false }
  | recovered (h : x.stage = .recovering) :
      Moves c s x .recoveryFailure (c.onRecoveryFailure s)
        { x with stage := .returned false, object := x.object.dropped, recoveries := x.recoveries + 1 }
  | failed (h : x.stage = .failing) :
      Moves c s x .failure (c.onFailure s)
        { x with stage := .returned false, object := x.object.dropped, failures := x.failures + 1 }
  | body (h : x.worker = .running) (result : β) : Moves c s x (.body result) (c.body result s) { x with worker := .exiting }
  | exit (h : x.worker = .exiting) :
      Moves c s x .exit (c.onExit s) { x with worker := .gone, exits := x.exits + 1 }

theorem moves {c : Client σ β} {s s' : σ} {x x' : Start} {event : Event β} (hs : x.step c s event = some (s', x')) :
    x.Moves c s event s' x' := by
  cases event <;> simp only [step, ne_eq, Option.ite_none_left_eq_some, not_not] at hs <;> obtain ⟨h, hs⟩ := hs
  case create threw =>
    cases threw <;> cases hs
    · exact .created h
    · exact .createFails h
  case detach threw joinable =>
    cases threw <;> cases hs
    · exact .detached h joinable
    · exact .detachFails h joinable
  case join threw joinable =>
    split at hs
    next hjoins =>
      obtain ⟨rfl, rfl⟩ := hjoins
      obtain ⟨hgone, hs⟩ := Option.ite_none_right_eq_some.mp hs
      cases hs
      exact .joined h hgone
    next hfails =>
      cases hs
      exact .joinFails h threw joinable hfails
  all_goals cases hs
  case detachFailure => exact .handled h
  case redetach threw joinable => exact .redetached h threw joinable
  case recoveryFailure => exact .recovered h
  case failure => exact .failed h
  case body result => exact .body h result
  case exit => exact .exit h

/-- What holds of a call and its worker at every moment. -/
structure Sound (x : Start) : Prop where
  unborn : x.worker = .unborn ↔ x.object = .absent
  creating : x.stage = .creating → x.object = .absent
  made : x.stage = .detaching ∨ x.stage = .joining ∨ x.stage = .redetaching → x.object = .owned true
  handling : x.stage = .handling → ∃ joinable, x.object = .owned joinable
  recovering : x.stage = .recovering → x.object = .owned false ∨ x.object = .released true
  started : x.stage = .returned true → ∃ joinable, x.object = .released joinable
  stopped : x.stage = .failing ∨ x.failures ≠ 0 → x.worker.alive = false ∧ x.object.isJoinable = false
  recovered : x.recoveries ≠ 0 → x.object ≠ .absent
  destroyed : x.object ≠ .destroyed true
  answers : x.failures + x.recoveries = if x.stage = .returned false then 1 else 0
  exits : x.exits = if x.worker = .gone then 1 else 0

theorem sound_new : ({} : Start).Sound := by
  constructor <;> simp [Object.isJoinable, Worker.alive]

theorem Sound.moves {c : Client σ β} {s s' : σ} {x x' : Start} {event : Event β} (h : x.Sound)
    (hs : x.Moves c s event s' x') : x'.Sound := by
  obtain ⟨hunborn, hcreating, hmade, hhandling, hrecovering, hstarted, hstopped, hrecovered, hdestroyed, hanswers, hexits⟩ := h
  cases hs with
  | createFails h => constructor <;> grind [Object.isJoinable, Worker.alive]
  | created h => constructor <;> grind [Object.isJoinable, Worker.alive]
  | detachFails h joinable => constructor <;> grind [Object.isJoinable, Worker.alive]
  | detached h joinable => constructor <;> grind [Object.isJoinable, Worker.alive]
  | handled h => constructor <;> grind [Object.isJoinable, Worker.alive]
  | joined h hgone => constructor <;> grind [Object.isJoinable, Worker.alive]
  | joinFails h threw joinable hfails => constructor <;> grind [Object.isJoinable, Worker.alive]
  | redetached h threw joinable => constructor <;> grind [Object.isJoinable, Worker.alive]
  | recovered h => constructor <;> grind [Object.isJoinable, Object.dropped, Worker.alive]
  | failed h =>
    obtain ⟨hworker, hjoinable⟩ := hstopped (.inl h)
    have hdropped := @Object.isJoinable_of_destroyed x.object
    constructor <;> grind [Object.dropped_eq_absent, Object.isJoinable_dropped]
  | body h result => constructor <;> grind [Object.isJoinable, Worker.alive]
  | exit h => constructor <;> grind [Object.isJoinable, Worker.alive]

end Start

namespace System

/-- A claim that is refused returns at once. -/
def claim (c : Client σ β) (m : System σ) : System σ :=
  match c.claim m.shared with
  | none => m
  | some s => ⟨s, m.starts ++ [{}]⟩

def step (c : Client σ β) : Step (System σ) (Move β)
  | m, .claim => some (m.claim c)
  | m, .start i event =>
    m.starts[i]?.bind fun x => (x.step c m.shared event).map fun r => ⟨r.1, m.starts.set i r.2⟩

theorem claim_cases (c : Client σ β) (m : System σ) :
    c.claim m.shared = none ∧ m.claim c = m ∨
      ∃ s, c.claim m.shared = some s ∧ m.claim c = ⟨s, m.starts ++ [({} : Start)]⟩ := by
  unfold claim
  split
  next h => exact .inl ⟨h, rfl⟩
  next s h => exact .inr ⟨s, h, rfl⟩

theorem start_cases {c : Client σ β} {m m' : System σ} {i : Nat} {event : Event β}
    (hs : step c m (.start i event) = some m') :
    ∃ x s x', m.starts[i]? = some x ∧ x.Moves c m.shared event s x' ∧ m' = ⟨s, m.starts.set i x'⟩ := by
  obtain ⟨x, hx, hs⟩ := Option.bind_eq_some_iff.mp hs
  obtain ⟨⟨s, x'⟩, hstep, rfl⟩ := Option.map_eq_some_iff.mp hs
  exact ⟨x, s, x', hx, Start.moves hstep, rfl⟩

/-- Every call is sound. -/
def Sound (m : System σ) : Prop := ∀ x ∈ m.starts, x.Sound

theorem Sound.claim {c : Client σ β} {m : System σ} (h : m.Sound) : (m.claim c).Sound := by
  rcases claim_cases c m with ⟨-, heq⟩ | ⟨s, -, heq⟩
  · rwa [heq]
  · rw [heq]
    intro y hy
    rcases List.mem_append.mp hy with hy | hy
    · exact h y hy
    · rw [List.mem_singleton.mp hy]
      exact Start.sound_new

theorem Sound.start {c : Client σ β} {m : System σ} (h : m.Sound) {i : Nat} {x x' : Start} {event : Event β} {s : σ}
    (hx : m.starts[i]? = some x) (hm : x.Moves c m.shared event s x') : Sound ⟨s, m.starts.set i x'⟩ := by
  intro y hy
  rcases List.mem_or_eq_of_mem_set hy with hy | rfl
  · exact h y hy
  · exact (h _ (List.mem_of_getElem? hx)).moves hm

theorem Sound.step {c : Client σ β} {m m' : System σ} {move : Move β} (h : m.Sound)
    (hs : System.step c m move = some m') : m'.Sound := by
  cases move with
  | claim =>
    cases hs
    exact h.claim
  | start i event =>
    obtain ⟨x, s, x', hx, hm, rfl⟩ := start_cases hs
    exact h.start hx hm

theorem sound_of_run {c : Client σ β} {s : σ} {moves : List (Move β)} {m : System σ}
    (hrun : exec (step c) ⟨s, []⟩ moves = some m) : m.Sound := by
  have hnew : (⟨s, []⟩ : System σ).Sound := fun x hx => absurd hx List.not_mem_nil
  exact exec_preserves (fun m _ m' h hs => h.step hs) hnew hrun

/-- Over every order of the threads and every way in which the calls on the thread object fail: the object is never
destroyed while joinable, the caller's state is restored by onFailure only with no worker of that call alive, then or
later, and a call that returns false has run exactly one of its two last callbacks. -/
theorem startDetached_sound (c : Client σ β) (s : σ) (moves : List (Move β)) (m : System σ)
    (hrun : exec (step c) ⟨s, []⟩ moves = some m) (x : Start) (hx : x ∈ m.starts) :
    x.object ≠ .destroyed true ∧ x.exits ≤ 1 ∧
      (x.stage = .failing ∨ x.failures ≠ 0 → x.worker = .unborn ∨ x.worker = .gone ∧ x.exits = 1) ∧
      (x.stage = .returned true → x.failures = 0 ∧ x.recoveries = 0 ∧ x.worker ≠ .unborn) ∧
      (x.stage = .returned false →
        x.failures = 1 ∧ x.recoveries = 0 ∨ x.failures = 0 ∧ x.recoveries = 1 ∧ x.worker ≠ .unborn) := by
  have h := sound_of_run hrun x hx
  have hexits := h.exits
  have hanswers := h.answers
  refine ⟨h.destroyed, ?_, ?_, ?_, ?_⟩
  · split at hexits <;> omega
  · intro hfailed
    obtain ⟨hworker, -⟩ := h.stopped hfailed
    cases hkind : x.worker with
    | unborn => exact .inl rfl
    | gone => exact .inr ⟨rfl, by simpa [hkind] using hexits⟩
    | running => simp [hkind, Worker.alive] at hworker
    | exiting => simp [hkind, Worker.alive] at hworker
  · intro hstage
    obtain ⟨joinable, hobject⟩ := h.started hstage
    rw [hstage] at hanswers
    simp only [Stage.returned.injEq, Bool.true_eq_false, if_false, Nat.add_eq_zero_iff] at hanswers
    exact ⟨hanswers.1, hanswers.2, fun hworker => by simp [h.unborn.mp hworker] at hobject⟩
  · intro hstage
    rw [hstage, if_pos rfl] at hanswers
    by_cases hrecoveries : x.recoveries = 0
    · exact .inl ⟨by omega, hrecoveries⟩
    · exact .inr ⟨by omega, by omega, fun hworker => h.recovered hrecoveries (h.unborn.mp hworker)⟩

/-- Neither the detach nor the join works, and the worker is left to itself. -/
theorem startDetached_sound_recovered :
    let x : Start := { stage := .returned false, object := .released true, worker := .exiting, recoveries := 1 }
    x.object ≠ .destroyed true ∧ x.exits ≤ 1 ∧ (x.failures = 1 ∧ x.recoveries = 0 ∨
      x.failures = 0 ∧ x.recoveries = 1 ∧ x.worker ≠ .unborn) := by
  intro x
  have hrun : exec (step (β := Unit) ⟨some, id, id, id, fun _ => id, id⟩) ⟨(), []⟩
      [.claim, .start 0 (.create false), .start 0 (.detach true true), .start 0 (.body ()), .start 0 .detachFailure,
        .start 0 (.join true true), .start 0 (.redetach true true), .start 0 .recoveryFailure] = some ⟨(), [x]⟩ := by
    decide
  have h := startDetached_sound _ () _ ⟨(), [x]⟩ hrun x (by simp)
  exact ⟨h.1, h.2.1, h.2.2.2.2 rfl⟩

end System
end SlsteamMoon.ThreadStart

/-! A gate in front of startDetached lets one worker through at a time, as long as no detach fails. -/
namespace SlsteamMoon.ThreadStart
open Runs

variable {σ β : Type}

/-- Only an open gate is claimed, a claim closes it, and a body leaves it closed. -/
structure Client.Guarded (c : Client σ β) (closed : σ → Prop) : Prop where
  claim : ∀ s t, c.claim s = some t → ¬closed s ∧ closed t
  body : ∀ s result, closed s → closed (c.body result s)

/-- The call is still to make its thread or to report that it has none, or the thread is alive. -/
def Start.Busy (x : Start) : Prop := x.stage = .creating ∨ x.stage = .failing ∨ x.worker.alive = true

/-- A call none of whose detaches failed so far. -/
def Start.Plain (x : Start) : Prop :=
  x.stage = .creating ∨ x.stage = .detaching ∨ x.stage = .failing ∨ ∃ started, x.stage = .returned started

def Event.detaches : Event β → Bool
  | .detach threw _ => !threw
  | _ => true

def Move.detaches : Move β → Bool
  | .start _ event => event.detaches
  | .claim => true

namespace Start

theorem busy_new : ({} : Start).Busy := .inl rfl

theorem Plain.moves {c : Client σ β} {s s' : σ} {x x' : Start} {event : Event β} (h : x.Plain)
    (hm : x.Moves c s event s' x') (hdetaches : event.detaches = true) : x'.Plain := by
  cases hm with
  | detachFails _ _ => cases hdetaches
  | _ => grind [Plain]

/-- A step keeps the shared state and whether the call is busy, or is the end of its body, or ends that it is busy. -/
theorem Plain.effect {c : Client σ β} {s s' : σ} {x x' : Start} {event : Event β} (h : x.Plain) (hsound : x.Sound)
    (hm : x.Moves c s event s' x') (hdetaches : event.detaches = true) :
    s' = s ∧ (x'.Busy ↔ x.Busy) ∨ x.Busy ∧ x'.Busy ∧ (∃ result, s' = c.body result s) ∨
      x.Busy ∧ ¬x'.Busy ∧ (s' = c.onFailure s ∨ s' = c.onExit s) := by
  cases hm with
  | createFails hstage => exact .inl ⟨rfl, iff_of_true (.inr (.inl rfl)) (.inl hstage)⟩
  | created hstage => exact .inl ⟨rfl, iff_of_true (.inr (.inr rfl)) (.inl hstage)⟩
  | detached hstage joinable => exact .inl ⟨rfl, by simp [Busy, hstage]⟩
  | failed hstage =>
    obtain ⟨hworker, -⟩ := hsound.stopped (.inl hstage)
    refine .inr (.inr ⟨.inr (.inl hstage), ?_, .inl rfl⟩)
    simp [Busy, hworker]
  | body hworker result =>
    refine .inr (.inl ⟨.inr (.inr ?_), .inr (.inr rfl), result, rfl⟩)
    rw [hworker]
    rfl
  | exit hworker =>
    have halive : x.worker.alive = true := by
      rw [hworker]
      rfl
    have hcreating : x.stage ≠ .creating := by
      intro hstage
      have := hsound.unborn.mpr (hsound.creating hstage)
      simp [hworker] at this
    have hfailing : x.stage ≠ .failing := by
      intro hstage
      simp [(hsound.stopped (.inl hstage)).1] at halive
    refine .inr (.inr ⟨.inr (.inr halive), ?_, .inr rfl⟩)
    simp [Busy, hcreating, hfailing, Worker.alive]
  | detachFails _ _ => cases hdetaches
  | _ => exact absurd h (by simp_all [Plain])

end Start

namespace System

/-- The one busy call is the last that was let through, and the gate is closed while it is busy. -/
structure Exclusive (closed : σ → Prop) (m : System σ) : Prop where
  sound : m.Sound
  plain : ∀ x ∈ m.starts, x.Plain
  last : ∀ i x, m.starts[i]? = some x → x.Busy → closed m.shared ∧ i + 1 = m.starts.length

variable {c : Client σ β} {closed : σ → Prop} {m m' : System σ} {move : Move β}

theorem exclusive_new (s : σ) : Exclusive closed ⟨s, []⟩ where
  sound := fun _ hx => absurd hx List.not_mem_nil
  plain := fun _ hx => absurd hx List.not_mem_nil
  last := fun i x hx => by simp at hx

/-- The claim finds no busy call, as the gate is open. -/
theorem Exclusive.claimed (hc : c.Guarded closed) (h : m.Exclusive closed) {s : σ} (hs : c.claim m.shared = some s) :
    Exclusive closed ⟨s, m.starts ++ [({} : Start)]⟩ where
  sound := by
    intro x hx
    rcases List.mem_append.mp hx with hx | hx
    · exact h.sound x hx
    · rw [List.mem_singleton.mp hx]
      exact Start.sound_new
  plain := by
    intro x hx
    rcases List.mem_append.mp hx with hx | hx
    · exact h.plain x hx
    · rw [List.mem_singleton.mp hx]
      exact .inl rfl
  last := by
    intro i x hx hbusy
    refine ⟨(hc.claim _ _ hs).2, ?_⟩
    rcases Nat.lt_or_ge i m.starts.length with hi | hi
    · rw [List.getElem?_append_left hi] at hx
      exact absurd (h.last i x hx hbusy).1 (hc.claim _ _ hs).1
    · have := (List.getElem?_eq_some_iff.mp hx).1
      simp only [List.length_append, List.length_singleton] at this ⊢
      omega

theorem Exclusive.start (hc : c.Guarded closed) (h : m.Exclusive closed) {i : Nat} {x x' : Start} {event : Event β}
    {s : σ} (hx : m.starts[i]? = some x) (hm : x.Moves c m.shared event s x') (hdetaches : event.detaches = true) :
    Exclusive closed ⟨s, m.starts.set i x'⟩ := by
  have hmem := List.mem_of_getElem? hx
  have hplain := h.plain x hmem
  have hsound := h.sound x hmem
  refine ⟨h.sound.start hx hm, ?_, ?_⟩
  · intro y hy
    rcases List.mem_or_eq_of_mem_set hy with hy | rfl
    · exact h.plain y hy
    · exact hplain.moves hm hdetaches
  · intro j y hy hbusy
    have hlength : (m.starts.set i x').length = m.starts.length := List.length_set
    rw [hlength]
    -- a busy call after the step was busy before it, or is another one
    by_cases hj : i = j
    · subst hj
      obtain rfl : x' = y := by
        rw [List.getElem?_set_self (List.getElem?_eq_some_iff.mp hx).1] at hy
        exact Option.some.inj hy
      rcases hplain.effect hsound hm hdetaches with ⟨rfl, hkeeps⟩ | ⟨hbefore, -, result, rfl⟩ | ⟨-, hends, -⟩
      · exact h.last i x hx (hkeeps.mp hbusy)
      · obtain ⟨hclosed, hlast⟩ := h.last i x hx hbefore
        exact ⟨hc.body _ result hclosed, hlast⟩
      · exact absurd hbusy hends
    · rw [List.getElem?_set_ne hj] at hy
      obtain ⟨hclosed, hlast⟩ := h.last j y hy hbusy
      have hidle : ¬x.Busy := fun hx' => hj (by have := (h.last i x hx hx').2; omega)
      rcases hplain.effect hsound hm hdetaches with ⟨rfl, -⟩ | ⟨hbefore, -⟩ | ⟨hbefore, -⟩
      · exact ⟨hclosed, hlast⟩
      · exact absurd hbefore hidle
      · exact absurd hbefore hidle

theorem Exclusive.claim (hc : c.Guarded closed) (h : m.Exclusive closed) : (m.claim c).Exclusive closed := by
  rcases claim_cases c m with ⟨-, heq⟩ | ⟨s, hs, heq⟩
  · rwa [heq]
  · rw [heq]
    exact h.claimed hc hs

theorem Exclusive.step (hc : c.Guarded closed) (h : m.Exclusive closed) (hs : step c m move = some m')
    (hdetaches : move.detaches = true) : m'.Exclusive closed := by
  cases move with
  | claim =>
    cases hs
    exact h.claim hc
  | start i event =>
    obtain ⟨x, s, x', hx, hm, rfl⟩ := start_cases hs
    exact h.start hc hx hm hdetaches

/-- While no detach fails, calls that are busy are one call. -/
theorem exclusive_of_run (hc : c.Guarded closed) {s : σ} {moves : List (Move β)} (hmoves : ∀ move ∈ moves, move.detaches = true)
    (hrun : exec (step c) ⟨s, []⟩ moves = some m) : m.Exclusive closed := by
  have hall : Meets (step c) (fun _ move => move.detaches = true) ⟨s, []⟩ moves :=
    meets_of_forall (fun move hmove _ => hmoves move hmove) _
  exact exec_invariant (fun m move m' h hok hs => h.step hc hs hok) (exclusive_new s) hall hrun

/-- Whether some call is busy, behind a step of one call. -/
theorem exists_busy_set {starts : List Start} {i : Nat} {x x' : Start} (hx : starts[i]? = some x) :
    (∃ y ∈ starts.set i x', y.Busy) ↔ x'.Busy ∨ ∃ j y, j ≠ i ∧ starts[j]? = some y ∧ y.Busy := by
  constructor
  · rintro ⟨y, hy, hbusy⟩
    obtain ⟨j, hj⟩ := List.mem_iff_getElem?.mp hy
    by_cases hij : i = j
    · subst hij
      rw [List.getElem?_set_self (List.getElem?_eq_some_iff.mp hx).1] at hj
      exact .inl (Option.some.inj hj ▸ hbusy)
    · rw [List.getElem?_set_ne hij] at hj
      exact .inr ⟨j, y, Ne.symm hij, hj, hbusy⟩
  · rintro (hbusy | ⟨j, y, hij, hj, hbusy⟩)
    · exact ⟨x', List.mem_set (List.getElem?_eq_some_iff.mp hx).1 x', hbusy⟩
    · refine ⟨y, List.mem_of_getElem? (i := j) ?_, hbusy⟩
      rwa [List.getElem?_set_ne (Ne.symm hij)]

theorem exists_busy {starts : List Start} {i : Nat} {x : Start} (hx : starts[i]? = some x) :
    (∃ y ∈ starts, y.Busy) ↔ x.Busy ∨ ∃ j y, j ≠ i ∧ starts[j]? = some y ∧ y.Busy := by
  have hset : starts.set i x = starts := by
    obtain ⟨hi, rfl⟩ := List.getElem?_eq_some_iff.mp hx
    exact List.set_getElem_self hi
  rw [← exists_busy_set hx, hset]

theorem Exclusive.sole (h : m.Exclusive closed) {i j : Nat} {x y : Start} (hx : m.starts[i]? = some x)
    (hy : m.starts[j]? = some y) (hbx : x.Busy) (hby : y.Busy) : i = j := by
  have hi := (h.last i x hx hbx).2
  have hj := (h.last j y hy hby).2
  omega

end System
end SlsteamMoon.ThreadStart
