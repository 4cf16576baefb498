import SlsteamMoon.ThreadStart.Start

/-! The background refresh of the update data: the gate that one refresh holds at a time, and that a success keeps. -/
namespace SlsteamMoon.Updater
open Runs ThreadStart

@[ext] structure RefreshGate where
  started : Bool := false
  succeeded : Bool := false
  deriving DecidableEq, Repr

namespace RefreshGate

def tryStart (g : RefreshGate) : Option RefreshGate :=
  if g.started then none else some { g with started := true, succeeded := false }

def markSucceeded (g : RefreshGate) : RefreshGate := { g with succeeded := true }

def finish (g : RefreshGate) : RefreshGate := if g.succeeded then g else { g with started := false }

end RefreshGate

/-- Seconds; a time that lies ahead is not trusted. -/
def isCacheFresh (cacheExists : Bool) (mtimeSecs nowSecs ttlSecs : Int) : Bool :=
  if cacheExists = false then false
  else if ttlSecs ≤ 0 then false
  else if nowSecs - mtimeSecs < 0 then false
  else nowSecs - mtimeSecs < ttlSecs

/-- Whether the body fetched, parsed and stored the document. It may throw, before it marks the success or behind. -/
structure BodyEnd where
  marked : Bool
  threw : Bool
  deriving DecidableEq, Repr

/-- The callbacks of refreshInBackgroundIfStale; those of runGuarded and of a failed detach only log. -/
def client : Client RefreshGate BodyEnd where
  claim := RefreshGate.tryStart
  onFailure := RefreshGate.finish
  onDetachFailure := id
  onRecoveryFailure := id
  body result g := if result.marked then g.markSucceeded else g
  onExit := RefreshGate.finish

/-- A call reads the mtime of the cache, -1 where there is none, the clock and the ttl. -/
inductive Event where
  | refreshInBackgroundIfStale (mtime now ttl : Int)
  | start (i : Nat) (event : ThreadStart.Event BodyEnd)
  deriving DecidableEq, Repr

namespace Event

def detaches : Event → Bool
  | start _ event => event.detaches
  | refreshInBackgroundIfStale .. => true

end Event

/-- With a fresh cache the claim is closed for good. The gate is held meanwhile and refuses every other call, so the
three sections are one step. -/
def step : Step (System RefreshGate) Event
  | m, .refreshInBackgroundIfStale mtime now ttl =>
    if isCacheFresh (0 ≤ mtime) mtime now ttl then
      match m.shared.tryStart with
      | none => some m
      | some g => some { m with shared := g.markSucceeded.finish }
    else some (m.claim client)
  | m, .start i event => System.step client m (.start i event)

/-- A gate is held by a busy call, or for good. -/
structure Held (m : System RefreshGate) : Prop where
  exclusive : m.Exclusive fun g => g.started = true
  started : m.shared.started = true ↔ (∃ x ∈ m.starts, x.Busy) ∨ m.shared.succeeded = true

theorem guarded : client.Guarded fun g => g.started = true where
  claim := by
    intro g t h
    obtain ⟨hopen, h⟩ := Option.ite_none_left_eq_some.mp h
    cases h
    exact ⟨hopen, rfl⟩
  body := by
    intro g result h
    simp only [client]
    split
    · exact h
    · exact h

private theorem held_new : Held ⟨{}, []⟩ where
  exclusive := System.exclusive_new _
  started := by simp

/-- A claim without a thread. -/
theorem Held.fresh {m : System RefreshGate} (h : Held m) {g : RefreshGate} (hg : m.shared.tryStart = some g) :
    Held { m with shared := g.markSucceeded.finish } where
  exclusive := by
    refine ⟨h.exclusive.sound, h.exclusive.plain, fun i x hx hbusy => ?_⟩
    exact absurd (h.exclusive.last i x hx hbusy).1 (guarded.claim _ _ hg).1
  started := by
    obtain ⟨hopen, hg⟩ := Option.ite_none_left_eq_some.mp hg
    cases hg
    simp [RefreshGate.markSucceeded, RefreshGate.finish]

/-- The last busy call releases the gate unless it succeeded. -/
theorem Held.start {m : System RefreshGate} (h : Held m) {i : Nat} {x x' : Start} {e : ThreadStart.Event BodyEnd}
    {g : RefreshGate} (hx : m.starts[i]? = some x) (hm : x.Moves client m.shared e g x') (hdetaches : e.detaches = true) :
    Held ⟨g, m.starts.set i x'⟩ := by
  have hexclusive := h.exclusive.start guarded hx hm hdetaches
  refine ⟨hexclusive, ?_⟩
  have hmem := List.mem_of_getElem? hx
  have hstarted := h.started
  rw [System.exists_busy hx] at hstarted
  rw [System.exists_busy_set hx]
  have hothers (hbusy : x.Busy) : ¬∃ j y, j ≠ i ∧ m.starts[j]? = some y ∧ y.Busy := by
    rintro ⟨j, y, hij, hj, hy⟩
    exact hij (h.exclusive.sole hj hx hy hbusy)
  rcases (h.exclusive.plain x hmem).effect (h.exclusive.sound x hmem) hm hdetaches with
    ⟨rfl, hkeeps⟩ | ⟨hbefore, hbusy, result, rfl⟩ | ⟨hbefore, hends, hg⟩
  · rw [hkeeps]
    exact hstarted
  · have hclosed : m.shared.started = true := hstarted.mpr (.inl (.inl hbefore))
    exact iff_of_true (guarded.body _ result hclosed) (.inl (.inl hbusy))
  · have hfinish : g = m.shared.finish := by
      rcases hg with rfl | rfl <;> rfl
    have hclosed : m.shared.started = true := hstarted.mpr (.inl (.inl hbefore))
    simp only [hends, hothers hbefore, false_or, hfinish, RefreshGate.finish]
    split
    next hsucceeded => exact iff_of_true hclosed hsucceeded
    next hsucceeded => simpa using hsucceeded

theorem Held.step {m m' : System RefreshGate} {e : Event} (h : Held m) (hs : step m e = some m')
    (hdetaches : e.detaches = true) : Held m' := by
  cases e with
  | refreshInBackgroundIfStale mtime now ttl =>
    simp only [Updater.step] at hs
    split at hs
    · split at hs
      next =>
        cases hs
        exact h
      next g hg =>
        cases hs
        exact h.fresh hg
    · cases hs
      refine ⟨h.exclusive.claim guarded, ?_⟩
      rcases System.claim_cases client m with ⟨-, heq⟩ | ⟨g, hg, heq⟩
      · rw [heq]
        exact h.started
      · rw [heq]
        exact iff_of_true (guarded.claim _ _ hg).2 (.inl ⟨{}, by simp, Start.busy_new⟩)
  | start i event =>
    obtain ⟨x, g, x', hx, hm, rfl⟩ := System.start_cases hs
    exact h.start hx hm hdetaches

private theorem held_of_run {events : List Event} {m : System RefreshGate} (hdetaches : ∀ e ∈ events, e.detaches = true)
    (hrun : exec step ⟨{}, []⟩ events = some m) : Held m := by
  have hall : Meets step (fun _ e => e.detaches = true) ⟨{}, []⟩ events :=
    meets_of_forall (fun e he _ => hdetaches e he) _
  exact exec_invariant (fun m e m' h hok hs => h.step hs hok) held_new hall hrun

/-- A gate that is closed for good. -/
def Settled (m : System RefreshGate) : Prop := m.shared = ⟨true, true⟩

/-- Not even a failed detach opens it again. -/
theorem Settled.step {m m' : System RefreshGate} {e : Event} (h : Settled m) (hs : step m e = some m') :
    Settled m' ∧ m'.starts.length = m.starts.length := by
  have hclaim : m.shared.tryStart = none := by rw [h]; rfl
  cases e with
  | refreshInBackgroundIfStale mtime now ttl =>
    simp only [Updater.step, hclaim] at hs
    rcases System.claim_cases client m with ⟨-, heq⟩ | ⟨g, hg, -⟩
    · rw [heq, ite_self] at hs
      cases hs
      exact ⟨h, rfl⟩
    · rw [show client.claim m.shared = none from hclaim] at hg
      cases hg
  | start i event =>
    obtain ⟨x, g, x', hx, hm, rfl⟩ := System.start_cases hs
    refine ⟨?_, List.length_set⟩
    simp only [Settled] at h ⊢
    cases hm <;> simp [h, client, RefreshGate.finish, RefreshGate.markSucceeded]

theorem Settled.run {m m' : System RefreshGate} {events : List Event} (h : Settled m)
    (hrun : exec Updater.step m events = some m') :
    Settled m' ∧ m'.starts.length = m.starts.length := by
  have hstep : ∀ m₁ e m₂, Settled m₁ ∧ m₁.starts.length = m.starts.length → Updater.step m₁ e = some m₂ →
      Settled m₂ ∧ m₂.starts.length = m.starts.length := by
    rintro m₁ e m₂ ⟨h₁, hlength⟩ hs
    obtain ⟨h₂, hsame⟩ := h₁.step hs
    exact ⟨h₂, hsame.trans hlength⟩
  exact exec_preserves hstep ⟨h, rfl⟩ hrun

/-- Over every order of the callers and the workers in which no detach fails: one worker at a time; the gate is closed
exactly while a call is on its way or its worker runs, or since a success; a success lets no further worker through;
and without one the next call with a stale cache starts one as soon as the last is gone. -/
theorem refresh_one_at_a_time (events : List Event) (m : System RefreshGate) (hdetaches : ∀ e ∈ events, e.detaches = true)
    (hrun : exec step ⟨{}, []⟩ events = some m) :
    (∀ (i j : Nat) (x y : Start), m.starts[i]? = some x → m.starts[j]? = some y → x.Busy → y.Busy → i = j) ∧
      (m.shared.started = true ↔ (∃ x ∈ m.starts, x.Busy) ∨ m.shared.succeeded = true) ∧
      (m.shared.succeeded = true → ∀ later m', exec step m later = some m' →
        m'.shared.started = true ∧ m'.starts.length = m.starts.length) ∧
      (m.shared.succeeded = false → (∀ x ∈ m.starts, ¬x.Busy) → ∀ mtime now ttl, isCacheFresh (0 ≤ mtime) mtime now ttl = false →
        step m (.refreshInBackgroundIfStale mtime now ttl) = some ⟨⟨true, false⟩, m.starts ++ [({} : Start)]⟩) := by
  have h := held_of_run hdetaches hrun
  refine ⟨fun _ _ _ _ hx hy => h.exclusive.sole hx hy, h.started, ?_, ?_⟩
  · intro hsucceeded later m' hlater
    have hsettled : Settled m := by
      have hstarted := h.started.mpr (.inr hsucceeded)
      simp only [Settled, RefreshGate.ext_iff]
      exact ⟨hstarted, hsucceeded⟩
    obtain ⟨hsettled', hlength⟩ := hsettled.run hlater
    exact ⟨by rw [hsettled'], hlength⟩
  · intro hsucceeded hidle mtime now ttl hstale
    have hopen : m.shared.started = false := by
      rw [← Bool.not_eq_true, h.started]
      simpa [hsucceeded] using hidle
    simp [Updater.step, hstale, System.claim, client, RefreshGate.tryStart, hopen]

/-- A stale cache, a worker that fails while its thread is detached, and a second that succeeds. -/
def retriedRefresh : List Event :=
  [.refreshInBackgroundIfStale (-1) 100 60, .start 0 (.create false), .start 0 (.body ⟨false, true⟩), .start 0 .exit,
    .refreshInBackgroundIfStale 10 100 60, .start 0 (.detach false false), .start 1 (.create false),
    .start 1 (.body ⟨true, false⟩), .start 1 (.detach false false), .start 1 .exit]

/-- Both workers left, and both calls returned true. -/
def refreshed : System RefreshGate :=
  let done : Start := { stage := .returned true, object := .released false, worker := .gone, exits := 1 }
  ⟨⟨true, true⟩, [done, done]⟩

theorem refresh_one_at_a_time_retried :
    (∃ later ≠ [], (exec step refreshed later).isSome) ∧
      ∀ later m', exec step refreshed later = some m' → m'.shared.started = true ∧ m'.starts.length = 2 := by
  have hrun : exec step ⟨{}, []⟩ retriedRefresh = some refreshed := by decide
  have h := refresh_one_at_a_time retriedRefresh refreshed (by decide) hrun
  exact ⟨⟨[.refreshInBackgroundIfStale (-1) 0 0], by decide, by decide⟩, h.2.2.1 rfl⟩

/-- Behind a failed detach the caller releases the gate a second time, by then of the next worker. -/
def overlappingRefreshes : List Event :=
  [.refreshInBackgroundIfStale (-1) 100 60, .start 0 (.create false), .start 0 (.body ⟨false, true⟩), .start 0 .exit,
    .start 0 (.detach true true), .start 0 .detachFailure, .start 0 (.join false false),
    .refreshInBackgroundIfStale (-1) 100 60, .start 1 (.create false), .start 0 .failure,
    .refreshInBackgroundIfStale (-1) 100 60, .start 2 (.create false)]

example : (exec step ⟨{}, []⟩ overlappingRefreshes).map (fun m => m.starts.map fun x => x.worker.alive) =
    some [false, true, true] := by
  decide

end SlsteamMoon.Updater
