import Mathlib.Logic.Function.Basic

/-! A place where several writers publish what they know of one truth, each some time after it learnt it. -/
namespace SlsteamMoon.LastWriter

variable {ι α : Type*} {truth place : α} {pending : ι → Option α}

/-- The place shows the truth, or somebody who knows the truth has yet to write. -/
def Covered (truth place : α) (pending : ι → Option α) : Prop := place = truth ∨ ∃ i, pending i = some truth

/-- The place does not show the truth and nobody who has yet to write knows it. -/
def Stuck (truth place : α) (pending : ι → Option α) : Prop := place ≠ truth ∧ ∀ i, pending i ≠ some truth

/-- When everybody has written, the place shows the truth. -/
theorem Covered.settled (h : Covered truth place pending) (hdone : ∀ i, pending i = none) : place = truth := by
  obtain hplace | ⟨i, hi⟩ := h
  · exact hplace
  · rw [hdone i] at hi
    cases hi

theorem Covered.mono {pending' : ι → Option α} (h : Covered truth place pending)
    (hkeep : ∀ i, pending i = some truth → ∃ j, pending' j = some truth) : Covered truth place pending' :=
  h.imp_right fun ⟨i, hi⟩ => hkeep i hi

variable [DecidableEq ι]

/-- Somebody learns a new truth. -/
theorem covered_learn (place : α) (pending : ι → Option α) (i : ι) (truth : α) :
    Covered truth place (Function.update pending i (some truth)) :=
  .inr ⟨i, Function.update_self i (some truth) pending⟩

/-- A write that shows the truth, or that is followed by one of somebody who knows it. -/
theorem covered_write {i : ι} (h : place = truth ∨ ∃ j, j ≠ i ∧ pending j = some truth) :
    Covered truth place (Function.update pending i none) := by
  refine h.imp_right ?_
  rintro ⟨j, hj, htruth⟩
  exact ⟨j, by rw [Function.update_of_ne hj, htruth]⟩

/-- Writes of what is known do not free a place that is stuck. -/
theorem Stuck.write {i : ι} {written : α} (h : Stuck truth place pending)
    (hwritten : written = place ∨ pending i = some written) : Stuck truth written (Function.update pending i none) := by
  constructor
  · obtain rfl | hknown := hwritten
    · exact h.1
    · rintro rfl
      exact h.2 i hknown
  · intro j
    by_cases hj : j = i
    · rw [hj, Function.update_self]
      exact (Option.some_ne_none truth).symm
    · rw [Function.update_of_ne hj]
      exact h.2 j

end SlsteamMoon.LastWriter
