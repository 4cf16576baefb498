import SlsteamMoon.FileWatcher.NoLostWrite

/-! What the watcher's thread comes to when it is not put off: it reads all that was written, and it returns when it is told
to stop. -/
namespace SlsteamMoon.FileWatcher
open Runs FairRuns

variable {w w' : Watcher}

/-- The steps of the thread that are no wait. -/
def Event.works : Event → Bool
  | .read _ | .drain _ | .proceed | .rearm | .onModify | .load | .done => true
  | _ => false

/-- The thread has something to do. -/
def Watcher.Busy (w : Watcher) : Prop :=
  match w.loop with
  | .polling => w.queue ≠ []
  | .draining | .rearming _ | .loading _ => True
  | .returned => False

/-- How many steps are left of the turn. -/
def Watcher.left (w : Watcher) : Nat :=
  match w.loop with
  | .draining => 2 * w.paths.length + 3
  | .rearming next => w.paths.length - next + w.paths.length + 2
  | .loading next => w.paths.length - next + 1
  | .polling | .returned => 0

private theorem addWatch_frame (w : Watcher) (p : Path) :
    (w.addWatch p).queue = w.queue ∧ (w.addWatch p).paths = w.paths := by
  unfold Watcher.addWatch
  split
  · exact ⟨rfl, rfl⟩
  · split <;> exact ⟨rfl, rfl⟩

/-- What the writers leave alone. -/
theorem change_frame {i : Nat} {p : Path} {e : Event} (hp : w.paths[i]? = some p) (h : w.change i p e = some w') :
    w'.loop = w.loop ∧ w'.stopping = w.stopping ∧ w'.paths.map Path.seen = w.paths.map Path.seen := by
  have hset (p' : Path) (hseen : p'.seen = p.seen) : (w.paths.set i p').map Path.seen = w.paths.map Path.seen := by
    have hget : (w.paths.map Path.seen)[i]? = some p.seen := by rw [List.getElem?_map, hp, Option.map_some]
    obtain ⟨hlength, hval⟩ := List.getElem?_eq_some_iff.mp hget
    rw [List.map_set, hseen, ← hval, List.set_getElem_self]
  cases e with
  | modify j =>
    obtain ⟨inode, -, rfl⟩ := Option.map_eq_some_iff.mp h
    by_cases hmem : inode ∈ (w.setPath i { p with version := p.version + 1 }).watches
    · simp only [if_pos hmem]
      exact ⟨rfl, rfl, hset _ rfl⟩
    · simp only [if_neg hmem]
      exact ⟨rfl, rfl, hset _ rfl⟩
  | replace j =>
    obtain ⟨inode, -, rfl⟩ := Option.map_eq_some_iff.mp h
    rw [release_eq]
    exact ⟨rfl, rfl, hset _ rfl⟩
  | unlink j =>
    obtain ⟨inode, -, rfl⟩ := Option.map_eq_some_iff.mp h
    rw [release_eq]
    exact ⟨rfl, rfl, hset _ rfl⟩
  | create j =>
    simp only [Watcher.change, Option.ite_none_right_eq_some, Option.some.injEq] at h
    obtain ⟨-, rfl⟩ := h
    exact ⟨rfl, rfl, hset _ rfl⟩
  | _ => simp only [Watcher.change, reduceCtorEq] at h

/-- The loop returns only where it was told to stop. -/
def Watcher.Told (w : Watcher) : Prop := w.loop = .returned → w.stopping = true

theorem told_step {e : Event} (h : w.Told) (hs : step w e = some w') : w'.Told := by
  cases e with
  | modify i | replace i | unlink i | create i =>
    obtain ⟨p, hp, hchange⟩ := Option.bind_eq_some_iff.mp hs
    obtain ⟨hloop, hstopping, -⟩ := change_frame hp hchange
    rwa [Watcher.Told, hloop, hstopping]
  | proceed =>
    obtain ⟨-, hleft⟩ := Option.ite_none_right_eq_some.mp hs
    cases hleft
    intro hreturned
    by_contra hgoing
    simp [hgoing] at hreturned
  | rearm | load =>
    simp only [step] at hs
    split at hs
    · obtain ⟨p, -, rfl⟩ := Option.map_eq_some_iff.mp hs
      intro hreturned
      cases hreturned
    · cases hs
  | leave =>
    obtain ⟨⟨-, hstopping⟩, hgone⟩ := Option.ite_none_right_eq_some.mp hs
    cases hgone
    exact fun _ => hstopping
  | join =>
    obtain ⟨⟨-, hstopping⟩, hjoined⟩ := Option.ite_none_right_eq_some.mp hs
    cases hjoined
    exact fun _ => hstopping
  | stop =>
    cases hs
    exact fun _ => rfl
  | tick =>
    obtain ⟨-, hsame⟩ := Option.ite_none_right_eq_some.mp hs
    cases hsame
    exact h
  | drain count =>
    obtain ⟨-, hread⟩ := Option.ite_none_right_eq_some.mp hs
    cases hread
    exact h
  | read count | onModify | done =>
    obtain ⟨-, hmoved⟩ := Option.ite_none_right_eq_some.mp hs
    cases hmoved
    intro hreturned
    cases hreturned

/-- Only an order to stop sets the flag. -/
theorem stopping_step {e : Event} (he : e ≠ .stop) (hs : step w e = some w') : w'.stopping = w.stopping := by
  cases e with
  | stop => exact absurd rfl he
  | modify i | replace i | unlink i | create i =>
    obtain ⟨p, hp, hchange⟩ := Option.bind_eq_some_iff.mp hs
    exact (change_frame hp hchange).2.1
  | rearm =>
    simp only [step] at hs
    split at hs
    · obtain ⟨p, -, rfl⟩ := Option.map_eq_some_iff.mp hs
      simp only [Watcher.addWatch]
      split
      · rfl
      · split <;> rfl
    · cases hs
  | load =>
    simp only [step] at hs
    split at hs
    · obtain ⟨p, -, rfl⟩ := Option.map_eq_some_iff.mp hs
      rfl
    · cases hs
  | _ =>
    obtain ⟨-, hmoved⟩ := Option.ite_none_right_eq_some.mp hs
    cases hmoved
    rfl

/-- The steps that a thread told to stop still takes on its way out; the drain has an end of its own. -/
def Event.onward : Event → Bool
  | .read _ | .proceed | .rearm | .onModify | .load | .done | .leave => true
  | _ => false

/-- How many of them. -/
def Watcher.passes (w : Watcher) : Nat :=
  match w.loop with
  | .rearming next => w.paths.length - next + w.paths.length + 5
  | .loading next => w.paths.length - next + 3
  | .polling => 2
  | .draining => 1
  | .returned => 0

private theorem passes_onward {e : Event} (hstop : w.stopping = true) (he : e.onward = true) (hs : step w e = some w') :
    w'.passes < w.passes := by
  cases e with
  | rearm =>
    simp only [step] at hs
    split at hs
    · next next hloop =>
      obtain ⟨p, hp, rfl⟩ := Option.map_eq_some_iff.mp hs
      have hlength := (List.getElem?_eq_some_iff.mp hp).1
      simp only [Watcher.passes, hloop, (addWatch_frame w p).2]
      omega
    · cases hs
  | load =>
    simp only [step] at hs
    split at hs
    · next next hloop =>
      obtain ⟨p, hp, rfl⟩ := Option.map_eq_some_iff.mp hs
      have hlength := (List.getElem?_eq_some_iff.mp hp).1
      simp only [Watcher.passes, Watcher.setPath, hloop, List.length_set]
      omega
    · cases hs
  | read count | leave =>
    obtain ⟨⟨hloop, -⟩, hmoved⟩ := Option.ite_none_right_eq_some.mp hs
    cases hmoved
    simp [Watcher.passes, hloop]
  | proceed | onModify | done =>
    obtain ⟨hloop, hmoved⟩ := Option.ite_none_right_eq_some.mp hs
    cases hmoved
    simp only [Watcher.passes, hloop, hstop, if_true]
    omega
  | _ => cases he

/-- Nothing else moves the loop. -/
theorem other_frame {e : Event} (he : e.onward = false) (hs : step w e = some w') :
    w'.loop = w.loop ∧ w'.paths.map Path.seen = w.paths.map Path.seen := by
  cases e with
  | modify i | replace i | unlink i | create i =>
    obtain ⟨p, hp, hchange⟩ := Option.bind_eq_some_iff.mp hs
    obtain ⟨hloop, -, hseen⟩ := change_frame hp hchange
    exact ⟨hloop, hseen⟩
  | tick | drain count | join =>
    obtain ⟨-, hmoved⟩ := Option.ite_none_right_eq_some.mp hs
    cases hmoved
    exact ⟨rfl, rfl⟩
  | stop =>
    cases hs
    exact ⟨rfl, rfl⟩
  | _ => cases he

private theorem passes_other {e : Event} (he : e.onward = false) (hs : step w e = some w') : w'.passes = w.passes := by
  obtain ⟨hloop, hseen⟩ := other_frame he hs
  have hlength : w'.paths.length = w.paths.length := by simpa using congrArg List.length hseen
  simp only [Watcher.passes, hloop, hlength]

/-- A thread that has returned reads nothing more. -/
theorem returned_step {e : Event} (h : w.loop = .returned) (hs : step w e = some w') :
    w'.loop = .returned ∧ w'.paths.map Path.seen = w.paths.map Path.seen := by
  by_cases he : e.onward = true
  · cases e <;> first | (simp [step, h] at hs; done) | cases he
  · obtain ⟨hloop, hseen⟩ := other_frame (eq_false_of_ne_true he) hs
    exact ⟨hloop.trans h, hseen⟩

private theorem stopping_kept {e : Event} (h : w.stopping = true) (hs : step w e = some w') : w'.stopping = true := by
  by_cases he : e = .stop
  · subst he
    cases hs
    rfl
  · rw [stopping_step he hs, h]

/-- Whatever the writers do, a thread that is told to stop and not put off returns, and the callback reads nothing from then
on. -/
theorem stopped_for_good (r : Endless step) (hfair : r.Fair (fun w => w.loop ≠ .returned) (·.onward = true)) {n : Nat}
    (hstop : (r.state n).stopping = true) :
    ∃ m, n ≤ m ∧ ∀ k, m ≤ k →
      (r.state k).loop = .returned ∧ (r.state k).paths.map Path.seen = (r.state m).paths.map Path.seen := by
  have hstopping (k : Nat) (hk : n ≤ k) : (r.state k).stopping = true :=
    r.holds_from (fun _ _ _ => stopping_kept) hstop hk
  have honward (k : Nat) (e : Event) (hk : n ≤ k) (hevent : r.event k = some e) (he : e.onward = true) :
      (r.state (k + 1)).passes < (r.state k).passes := passes_onward (hstopping k hk) he (r.steps k e hevent)
  have hother (k : Nat) (e : Event) (_ : n ≤ k) (hevent : r.event k = some e) (he : ¬e.onward = true) :
      (r.state (k + 1)).passes ≤ (r.state k).passes :=
    Nat.le_of_eq (passes_other (eq_false_of_ne_true he) (r.steps k e hevent))
  obtain ⟨m, hm, hreturned⟩ := r.settles Watcher.passes hfair honward hother
  refine ⟨m, hm, fun k hk => ?_⟩
  let silent (w : Watcher) : Prop := w.loop = .returned ∧ w.paths.map Path.seen = (r.state m).paths.map Path.seen
  refine r.holds_from (P := silent) (fun w e w' h hs => ?_) ⟨not_not.mp hreturned, rfl⟩ hk
  obtain ⟨hloop, hseen⟩ := returned_step h.1 hs
  exact ⟨hloop, hseen.trans h.2⟩

/-- A file is renamed over before and after the thread is told. -/
def lastRenames : List Event := [.replace 0, .read 0, .stop, .proceed, .replace 0]

theorem stopped_for_good_renamed : ∃ r : Endless step, r.state 0 = started 1 ∧
    ∃ m, 3 ≤ m ∧ ∀ k, m ≤ k →
      (r.state k).loop = .returned ∧ (r.state k).paths.map Path.seen = (r.state m).paths.map Path.seen := by
  have hrun : exec step (started 1) lastRenames =
    some { paths := [⟨some 2, 2, 0⟩], nextInode := 3, loop := .returned, stopping := true } := by decide
  refine ⟨.finite step _ _ lastRenames hrun, Endless.finite_zero _ _ _ hrun, ?_⟩
  exact stopped_for_good _ (Endless.finite_fair hrun (by simp)) rfl

end SlsteamMoon.FileWatcher
