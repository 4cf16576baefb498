import Mathlib.Data.List.Basic
import Mathlib.Data.List.Induction

/-! What began in a run and was not ended since. A step that begins it counts even where it would end
what was before. -/
namespace SlsteamMoon.History

variable {σ ε : Type*}

/-- A run of total steps. -/
def run (step : σ → ε → σ) (s : σ) (events : List ε) : σ := events.foldl step s

/-- An event of the run begins it, and no event behind that one ends it. -/
def Since (step : σ → ε → σ) (begins ends : σ → ε → Prop) (s : σ) (events : List ε) : Prop :=
  ∃ before e after, events = before ++ e :: after ∧ begins (run step s before) e ∧
    ∀ first e' rest, after = first ++ e' :: rest → ¬ends (run step s (before ++ e :: first)) e'

variable {step : σ → ε → σ} {begins ends : σ → ε → Prop} {s : σ} {events : List ε}

@[simp] theorem run_nil (step : σ → ε → σ) (s : σ) : run step s [] = s := rfl

@[simp] theorem run_concat (step : σ → ε → σ) (s : σ) (events : List ε) (e : ε) :
    run step s (events ++ [e]) = step (run step s events) e := by
  simp [run]

theorem run_append (step : σ → ε → σ) (s : σ) (first second : List ε) :
    run step s (first ++ second) = run step (run step s first) second := by
  simp [run]

theorem not_since_nil : ¬Since step begins ends s [] := by
  rintro ⟨before, e, after, hnil, -⟩
  exact absurd hnil.symm (List.append_ne_nil_of_right_ne_nil before (List.cons_ne_nil e after))

/-- Either the last event begins it, or it was there and the last event does not end it. -/
theorem since_concat {e : ε} :
    Since step begins ends s (events ++ [e]) ↔
      begins (run step s events) e ∨ Since step begins ends s events ∧ ¬ends (run step s events) e := by
  constructor
  · rintro ⟨before, e', after, heq, hbegins, hends⟩
    rcases List.eq_nil_or_concat' after with rfl | ⟨after, last, rfl⟩
    · obtain ⟨rfl, hlast⟩ := List.append_inj' heq rfl
      cases hlast
      exact .inl hbegins
    · rw [← List.cons_append, ← List.append_assoc] at heq
      obtain ⟨rfl, hlast⟩ := List.append_inj' heq rfl
      cases hlast
      refine .inr ⟨⟨before, e', after, rfl, hbegins, ?_⟩, hends after e [] rfl⟩
      intro first e'' rest hafter
      exact hends first e'' (rest ++ [e]) (by simp [hafter])
  · rintro (hbegins | ⟨⟨before, e', after, rfl, hbegins, hends⟩, hlast⟩)
    · refine ⟨events, e, [], rfl, hbegins, ?_⟩
      intro first e' rest hnil
      exact absurd hnil.symm (List.append_ne_nil_of_right_ne_nil first (List.cons_ne_nil e' rest))
    · refine ⟨before, e', after ++ [e], by simp, hbegins, ?_⟩
      intro first e'' rest hafter
      rcases List.eq_nil_or_concat' rest with rfl | ⟨rest, last, rfl⟩
      · obtain ⟨rfl, heq⟩ := List.append_inj' hafter rfl
        cases heq
        exact hlast
      · rw [← List.cons_append, ← List.append_assoc] at hafter
        obtain ⟨rfl, -⟩ := List.append_inj' hafter rfl
        exact hends first e'' rest rfl

/-- Every event of the run meets the condition in the state it finds. -/
def Along (step : σ → ε → σ) (ok : σ → ε → Prop) (s : σ) (events : List ε) : Prop :=
  ∀ before e after, events = before ++ e :: after → ok (run step s before) e

variable {ok : σ → ε → Prop}

theorem along_nil : Along step ok s [] := by
  intro before e after hnil
  exact absurd hnil.symm (List.append_ne_nil_of_right_ne_nil before (List.cons_ne_nil e after))

theorem along_cons {e : ε} (he : ok s e) (h : Along step ok (step s e) events) : Along step ok s (e :: events) := by
  intro before e' after heq
  cases before with
  | nil =>
    obtain ⟨rfl, -⟩ := List.cons.inj heq
    exact he
  | cons first before =>
    obtain ⟨rfl, hevents⟩ := List.cons.inj heq
    exact h before e' after hevents

theorem Along.behind {first second : List ε} (h : Along step ok s (first ++ second)) :
    Along step ok (run step s first) second := by
  intro before e after heq
  rw [← run_append]
  exact h (first ++ before) e after (by rw [heq, List.append_assoc])

theorem along_of_forall (h : ∀ e ∈ events, ∀ s, ok s e) : Along step ok s events := by
  intro before e after heq
  exact h e (by simp [heq]) _

/-- What one step that meets the condition keeps, a run keeps. -/
theorem run_invariant {P : σ → Prop} (hstep : ∀ s e, P s → ok s e → P (step s e)) (hs : P s)
    (h : Along step ok s events) : P (run step s events) := by
  induction events using List.reverseRecOn with
  | nil => exact hs
  | append_singleton events e ih =>
    rw [run_concat]
    apply hstep
    · apply ih
      intro before e' after heq
      exact h before e' (after ++ [e]) (by simp [heq])
    · exact h events e [] rfl

/-- A state that follows the two kinds of step tells whether it began and was not ended since. -/
theorem since_iff {P : σ → Prop} (hfirst : ¬P s)
    (hstep : ∀ s e, P (step s e) ↔ begins s e ∨ P s ∧ ¬ends s e) (events : List ε) :
    Since step begins ends s events ↔ P (run step s events) := by
  induction events using List.reverseRecOn with
  | nil => exact iff_of_false not_since_nil hfirst
  | append_singleton events e ih => rw [since_concat, run_concat, hstep, ih]

end SlsteamMoon.History
