import Mathlib.Data.Nat.Basic

/-! Loops that carry a cursor. A turn leaves with an answer or goes on from another state; a loop
whose cursor moves forward on every turn, below a bound, returns. -/
namespace SlsteamMoon.CursorLoop

variable {σ τ : Type*}

inductive Turn (σ τ : Type*)
  | again (state : σ)
  | leave (answer : τ)

/-- Where the loop goes on, if it does. -/
def Turn.next : Turn σ τ → Option σ
  | .again s => some s
  | .leave _ => none

theorem Turn.next_eq_some {t : Turn σ τ} {s : σ} : t.next = some s ↔ t = .again s := by
  cases t <;> simp [next]

/-- None when the fuel runs out before the loop is left. -/
def run (turn : σ → Turn σ τ) : Nat → σ → Option τ
  | 0, _ => none
  | fuel + 1, s =>
    match turn s with
    | .leave answer => some answer
    | .again t => run turn fuel t

/-- The states in which a turn of the loop begins. -/
inductive Reaches (turn : σ → Turn σ τ) (s : σ) : σ → Prop
  | start : Reaches turn s s
  | turn {t u : σ} : Reaches turn s t → turn t = .again u → Reaches turn s u

def Returns (turn : σ → Turn σ τ) (s : σ) : Prop := ∃ fuel, (run turn fuel s).isSome = true

/-- Every turn that does not leave moves the cursor strictly forward. -/
def Advances (turn : σ → Turn σ τ) (cursor : σ → Nat) (s : σ) : Prop :=
  ∀ t u, Reaches turn s t → turn t = .again u → cursor t < cursor u

theorem Reaches.head {turn : σ → Turn σ τ} {s t u : σ} (h : turn s = .again t) (hu : Reaches turn t u) :
    Reaches turn s u := by
  induction hu with
  | start => exact .turn .start h
  | turn _ hstep ih => exact .turn ih hstep

theorem Advances.again {turn : σ → Turn σ τ} {cursor : σ → Nat} {s t : σ} (h : Advances turn cursor s)
    (ht : turn s = .again t) : Advances turn cursor t :=
  fun u v hu hv => h u v (hu.head ht) hv

theorem run_again {turn : σ → Turn σ τ} {s t : σ} (h : turn s = .again t) (fuel : Nat) :
    run turn (fuel + 1) s = run turn fuel t := by
  rw [run, h]

theorem run_leave {turn : σ → Turn σ τ} {s : σ} {answer : τ} (h : turn s = .leave answer) (fuel : Nat) :
    run turn (fuel + 1) s = some answer := by
  rw [run, h]

/-- More fuel does not change an answer. -/
theorem run_mono {turn : σ → Turn σ τ} {s : σ} {answer : τ} {fuel : Nat} (h : run turn fuel s = some answer)
    (more : Nat) : run turn (fuel + more) s = some answer := by
  induction fuel generalizing s with
  | zero => cases h
  | succ fuel ih =>
    rw [Nat.succ_add]
    cases ht : turn s with
    | leave a =>
      rw [run_leave ht] at h ⊢
      exact h
    | again t =>
      rw [run_again ht] at h ⊢
      exact ih h

/-- An answer is the one of a turn that is reached. -/
theorem exists_leave_of_run {turn : σ → Turn σ τ} {s : σ} {answer : τ} {fuel : Nat}
    (h : run turn fuel s = some answer) : ∃ t, Reaches turn s t ∧ turn t = .leave answer := by
  induction fuel generalizing s with
  | zero => cases h
  | succ fuel ih =>
    cases ht : turn s with
    | leave a =>
      rw [run_leave ht] at h
      exact ⟨s, .start, by rw [ht, Option.some.inj h]⟩
    | again t =>
      rw [run_again ht] at h
      obtain ⟨u, hu, hleave⟩ := ih h
      exact ⟨u, hu.head ht, hleave⟩

/-- The room left below the bound is the fuel that is needed. -/
theorem Advances.returns {turn : σ → Turn σ τ} {cursor : σ → Nat} {bound : Nat}
    (hbound : ∀ t u, turn t = .again u → cursor t < bound) {s : σ} (h : Advances turn cursor s) :
    Returns turn s := by
  induction hroom : bound - cursor s using Nat.strongRecOn generalizing s with
  | ind room ih =>
    cases ht : turn s with
    | leave answer => exact ⟨1, by rw [run_leave ht]; rfl⟩
    | again t =>
      have hlt : cursor s < cursor t := h s t .start ht
      have hs : cursor s < bound := hbound s t ht
      obtain ⟨fuel, hfuel⟩ := ih (bound - cursor t) (by omega) (h.again ht) rfl
      exact ⟨fuel + 1, by rwa [run_again ht]⟩

/-- One more turn than the room below the bound. -/
theorem run_isSome_of_room {turn : σ → Turn σ τ} {cursor : σ → Nat} {bound : Nat}
    (hstep : ∀ t u, turn t = .again u → cursor t < cursor u ∧ cursor t < bound) {fuel : Nat} {s : σ}
    (hroom : bound < fuel + cursor s) (hfuel : 0 < fuel) : (run turn fuel s).isSome = true := by
  induction fuel generalizing s with
  | zero => cases hfuel
  | succ fuel ih =>
    cases ht : turn s with
    | leave answer => rw [run_leave ht, Option.isSome_some]
    | again t =>
      obtain ⟨hlt, hbound⟩ := hstep s t ht
      rw [run_again ht]
      exact ih (by omega) (by omega)

/-- A turn that leads back to where it began is taken for ever. -/
theorem run_of_fixed {turn : σ → Turn σ τ} {s : σ} (h : turn s = .again s) (fuel : Nat) :
    run turn fuel s = none := by
  induction fuel with
  | zero => rfl
  | succ fuel ih => rw [run_again h, ih]

/-- The states from which a turn goes on, in order. -/
def visited (turn : σ → Turn σ τ) : Nat → σ → List σ
  | 0, _ => []
  | fuel + 1, s =>
    match turn s with
    | .leave _ => []
    | .again t => s :: visited turn fuel t

theorem reaches_of_mem_visited {turn : σ → Turn σ τ} {fuel : Nat} {s t : σ} (h : t ∈ visited turn fuel s) :
    Reaches turn s t := by
  induction fuel generalizing s with
  | zero => cases h
  | succ fuel ih =>
    rw [visited] at h
    split at h
    · cases h
    · next u hu =>
      obtain rfl | h := List.mem_cons.mp h
      · exact .start
      · exact (ih h).head hu

theorem Reaches.cases_head {turn : σ → Turn σ τ} {s t : σ} (h : Reaches turn s t) :
    s = t ∨ ∃ u, turn s = .again u ∧ Reaches turn u t := by
  induction h with
  | start => exact .inl rfl
  | turn hreach hstep ih =>
    obtain rfl | ⟨u, hu, hreach⟩ := ih
    · exact .inr ⟨_, hstep, .start⟩
    · exact .inr ⟨u, hu, .turn hreach hstep⟩

/-- A loop that has been left has been in every state that it reaches. -/
theorem mem_visited_of_reaches {turn : σ → Turn σ τ} {fuel : Nat} {s t u : σ} {answer : τ}
    (hrun : run turn fuel s = some answer) (h : Reaches turn s t) (ht : turn t = .again u) :
    t ∈ visited turn fuel s := by
  induction fuel generalizing s with
  | zero => cases hrun
  | succ fuel ih =>
    rw [visited]
    obtain rfl | ⟨v, hv, hreach⟩ := h.cases_head
    · rw [ht]
      exact List.mem_cons_self
    · rw [run_again hv] at hrun
      rw [hv]
      exact List.mem_cons_of_mem s (ih hrun hreach)

/-- What the turns add to a list, one after the other, is what the answer has. -/
theorem run_collects {α : Type*} {turn : σ → Turn σ τ} {out : σ → List α} {found : τ → List α} {add : σ → List α}
    (hagain : ∀ s t, turn s = .again t → out t = out s ++ add s) (hleave : ∀ s a, turn s = .leave a → found a = out s)
    {fuel : Nat} {s : σ} {answer : τ} (h : run turn fuel s = some answer) :
    found answer = out s ++ (visited turn fuel s).flatMap add := by
  induction fuel generalizing s with
  | zero => cases h
  | succ fuel ih =>
    rw [visited]
    cases ht : turn s with
    | leave a =>
      rw [run_leave ht] at h
      rw [← Option.some.inj h, hleave s a ht]
      exact (List.append_nil _).symm
    | again t =>
      rw [run_again ht] at h
      rw [ih h, hagain s t ht, List.flatMap_cons, List.append_assoc]

/-- Where the turns that stand still or go back are known, the loop advances when none of them is reached. -/
theorem advances_iff {turn : σ → Turn σ τ} {cursor : σ → Nat} {bad : σ → Prop}
    (hgood : ∀ t u, turn t = .again u → (cursor t < cursor u ↔ ¬bad t))
    (hbad : ∀ t, bad t → ∃ u, turn t = .again u) (s : σ) :
    Advances turn cursor s ↔ ∀ t, Reaches turn s t → ¬bad t := by
  constructor
  · intro h t ht hb
    obtain ⟨u, hu⟩ := hbad t hb
    exact (hgood t u hu).mp (h t u ht hu) hb
  · intro h t u ht hu
    exact (hgood t u hu).mpr (h t ht)

theorem Reaches.trans {turn : σ → Turn σ τ} {s t u : σ} (h : Reaches turn s t) (h' : Reaches turn t u) :
    Reaches turn s u := by
  induction h' with
  | start => exact h
  | turn _ hstep ih => exact .turn ih hstep

/-- What an answer takes from a state that is reached. -/
theorem run_of_reaches {turn : σ → Turn σ τ} {fuel : Nat} {s t : σ} {answer : τ} (hrun : run turn fuel s = some answer)
    (h : Reaches turn s t) : ∃ fuel' ≤ fuel, run turn fuel' t = some answer := by
  induction h with
  | start => exact ⟨fuel, Nat.le_refl fuel, hrun⟩
  | turn _ hstep ih =>
    obtain ⟨left, hle, hleft⟩ := ih
    cases left with
    | zero => cases hleft
    | succ left =>
      rw [run_again hstep] at hleft
      exact ⟨left, Nat.le_of_succ_le hle, hleft⟩

theorem exists_run_of_reaches {turn : σ → Turn σ τ} {s t : σ} {answer : τ} {fuel : Nat} (h : Reaches turn s t)
    (hrun : run turn fuel t = some answer) : ∃ fuel', run turn fuel' s = some answer := by
  induction h generalizing fuel with
  | start => exact ⟨fuel, hrun⟩
  | turn _ hstep ih => exact ih ((run_again hstep fuel).trans hrun)

/-- A loop has one answer. -/
theorem run_unique {turn : σ → Turn σ τ} {s : σ} {answer answer' : τ} {fuel fuel' : Nat}
    (h : run turn fuel s = some answer) (h' : run turn fuel' s = some answer') : answer = answer' := by
  have hmore := run_mono h fuel'
  rw [Nat.add_comm, run_mono h' fuel] at hmore
  exact (Option.some.inj hmore).symm

/-- What one loop reaches another one does that takes its turns. -/
theorem Reaches.of_steps {τ' : Type*} {turn : σ → Turn σ τ} {turn' : σ → Turn σ τ'} {s t : σ} (h : Reaches turn s t)
    (hstep : ∀ u v, Reaches turn' s u → turn u = .again v → turn' u = .again v) : Reaches turn' s t := by
  induction h with
  | start => exact .start
  | turn _ hturn ih => exact .turn ih (hstep _ _ ih hturn)

/-- The loop goes on from the state and is in it again. -/
def ComesBack (turn : σ → Turn σ τ) (s : σ) : Prop := ∃ t, turn s = .again t ∧ Reaches turn t s

theorem run_of_comesBack {turn : σ → Turn σ τ} {s : σ} (h : ComesBack turn s) (fuel : Nat) : run turn fuel s = none := by
  obtain ⟨t, hstep, hback⟩ := h
  induction fuel using Nat.strongRecOn with
  | ind fuel ih =>
    cases fuel with
    | zero => rfl
    | succ fuel =>
      rw [run_again hstep]
      cases hrun : run turn fuel t with
      | none => rfl
      | some answer =>
        obtain ⟨fuel', hle, hrun'⟩ := run_of_reaches hrun hback
        rw [ih fuel' (Nat.lt_succ_of_le hle)] at hrun'
        cases hrun'

theorem nodup_visited {turn : σ → Turn σ τ} {fuel : Nat} {s : σ} (h : ∀ t, Reaches turn s t → ¬ComesBack turn t) :
    (visited turn fuel s).Nodup := by
  induction fuel generalizing s with
  | zero => exact List.nodup_nil
  | succ fuel ih =>
    rw [visited]
    cases ht : turn s with
    | leave answer => exact List.nodup_nil
    | again t =>
      refine List.nodup_cons.mpr ⟨fun hmem => ?_, ih fun u hu => h u (hu.head ht)⟩
      exact h s .start ⟨t, ht, reaches_of_mem_visited hmem⟩

theorem length_visited {turn : σ → Turn σ τ} {fuel : Nat} {s : σ} (h : run turn fuel s = none) :
    (visited turn fuel s).length = fuel := by
  induction fuel generalizing s with
  | zero => rfl
  | succ fuel ih =>
    rw [visited]
    cases ht : turn s with
    | leave answer =>
      rw [run_leave ht] at h
      cases h
    | again t =>
      rw [run_again ht] at h
      rw [List.length_cons, ih h]

/-- Among finitely many states a loop that never comes back to one returns. -/
theorem run_isSome_of_not_comesBack {turn : σ → Turn σ τ} {s : σ} {states : List σ}
    (hstates : ∀ t, Reaches turn s t → t ∈ states) (h : ∀ t, Reaches turn s t → ¬ComesBack turn t) :
    (run turn (states.length + 1) s).isSome = true := by
  cases hrun : run turn (states.length + 1) s with
  | some answer => rfl
  | none =>
    have hsub : visited turn (states.length + 1) s ⊆ states := fun t ht => hstates t (reaches_of_mem_visited ht)
    have hle := List.Nodup.length_le_of_subset (nodup_visited h) hsub
    rw [length_visited hrun] at hle
    exact absurd hle (Nat.not_succ_le_self _)

end SlsteamMoon.CursorLoop
