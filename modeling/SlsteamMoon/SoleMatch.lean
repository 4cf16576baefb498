import SlsteamMoon.CheckedReads
import Mathlib.Data.List.Nodup

/-! A search that takes what it finds only when there is nothing else to be found. -/
namespace SlsteamMoon.SoleMatch
open CheckedReads

variable {δ ι β : Type} {probe : ι → Check δ (Option β)} {value : ι → Option β} {fits : β → Bool} {places : List ι}

/-- Look at the places in turn. A second find ends the search with nothing, and so does one that does not fit. -/
def uniqueLoop (probe : ι → Check δ (Option β)) (fits : β → Bool) : List ι → Option β → Check δ (Option β)
  | [], found => pure found
  | place :: places, found => do
    match ← probe place with
    | none => uniqueLoop probe fits places found
    | some v =>
      if found.isSome then pure none
      else if fits v then uniqueLoop probe fits places (some v)
      else pure none

/-- What is to be found at exactly one of the places. -/
def sole (value : ι → Option β) (fits : β → Bool) : List ι → Option β
  | [] => none
  | place :: places =>
    match value place with
    | none => sole value fits places
    | some v => if fits v && places.all fun other => (value other).isNone then some v else none

theorem uniqueLoop_some (h : ∀ place ∈ places, probe place = .passed (value place)) (v : β) :
    uniqueLoop probe fits places (some v) =
      .passed (if places.all fun place => (value place).isNone then some v else none) := by
  induction places with
  | nil => rfl
  | cons place places ih =>
    obtain ⟨hplace, hplaces⟩ := List.forall_mem_cons.mp h
    rw [uniqueLoop, hplace, Check.passed_bind]
    cases hvalue : value place with
    | none =>
      dsimp only
      rw [ih hplaces, List.all_cons, hvalue, Option.isNone_none, Bool.true_and]
    | some w =>
      rw [List.all_cons, hvalue]
      rfl

/-- Where the probes read nothing outside, neither does the search, and it answers with the sole match. -/
theorem uniqueLoop_none (h : ∀ place ∈ places, probe place = .passed (value place)) :
    uniqueLoop probe fits places none = .passed (sole value fits places) := by
  induction places with
  | nil => rfl
  | cons place places ih =>
    obtain ⟨hplace, hplaces⟩ := List.forall_mem_cons.mp h
    rw [uniqueLoop, hplace, Check.passed_bind, sole]
    cases hvalue : value place with
    | none => exact ih hplaces
    | some v =>
      dsimp only
      rw [uniqueLoop_some hplaces]
      cases fits v with
      | true => rfl
      | false => rfl

/-- Over places that are all different the sole match stands at one of them and at no other. -/
theorem sole_eq_some_iff (hplaces : places.Nodup) {v : β} :
    sole value fits places = some v ↔
      fits v = true ∧ ∃ place ∈ places, value place = some v ∧
        ∀ other ∈ places, (value other).isSome = true → other = place := by
  induction places with
  | nil => simp [sole]
  | cons place places ih =>
    obtain ⟨hfresh, hrest⟩ := List.nodup_cons.mp hplaces
    rw [sole]
    cases hvalue : value place with
    | none =>
      dsimp only
      rw [ih hrest]
      simp only [List.exists_mem_cons_iff, List.forall_mem_cons, hvalue]
      simp
    | some w =>
      dsimp only
      constructor
      · intro h
        obtain ⟨hall, hw⟩ := Option.ite_none_right_eq_some.mp h
        obtain rfl := Option.some.inj hw
        obtain ⟨hfits, hnone⟩ := (Bool.and_eq_true_iff ..).mp hall
        refine ⟨hfits, place, List.mem_cons_self, hvalue, fun other hother hsome => ?_⟩
        obtain rfl | hlater := List.mem_cons.mp hother
        · rfl
        · rw [Option.isNone_iff_eq_none.mp (List.all_eq_true.mp hnone other hlater)] at hsome
          cases hsome
      · rintro ⟨hfits, found, hfound, hv, hunique⟩
        have hfirst : place = found := hunique place List.mem_cons_self (by rw [hvalue]; rfl)
        subst hfirst
        obtain rfl : w = v := Option.some.inj (hvalue.symm.trans hv)
        rw [hfits, Bool.true_and, if_pos]
        refine List.all_eq_true.mpr fun other hother => ?_
        cases hother' : value other with
        | none => rfl
        | some u =>
          have hsame := hunique other (List.mem_cons_of_mem _ hother) (by rw [hother']; rfl)
          rw [hsame] at hother
          exact absurd hother hfresh

end SlsteamMoon.SoleMatch
