import Mathlib.Data.List.Basic

/-! Cursors over ranges sorted by a key: what is left of a range from the first
key that is not below a bound, and the difference of two sorted ranges. -/
namespace SlsteamMoon.SortedRanges

open Std

variable {α β : Type*} [LT α] [DecidableLT α]

/-- Keys go strictly up. -/
def Ascending (key : β → α) (ys : List β) : Prop := ys.Pairwise fun y y' => key y < key y'

/-- Move the cursor past the keys below the bound. -/
def seek (key : β → α) (bound : α) (ys : List β) : List β := ys.dropWhile fun y => key y < bound

/-- The element under the bound itself, if the range has one. -/
def lookup [DecidableEq α] (key : β → α) (bound : α) (ys : List β) : Option β :=
  match seek key bound ys with
  | [] => none
  | y :: _ => if key y = bound then some y else none

def difference : List α → List α → List α
  | [], _ => []
  | x :: xs, ys =>
    match seek id x ys with
    | [] => x :: difference xs []
    | y :: ys => if x < y then x :: difference xs (y :: ys) else difference xs ys

theorem ascending_seek {key : β → α} {ys : List β} (bound : α) (h : Ascending key ys) :
    Ascending key (seek key bound ys) :=
  h.sublist (List.dropWhile_sublist _)

theorem difference_sublist (xs ys : List α) : (difference xs ys).Sublist xs := by
  induction xs generalizing ys with
  | nil => exact .slnil
  | cons x xs ih =>
    unfold difference
    split
    · exact (ih []).cons_cons x
    · split
      · exact (ih _).cons_cons x
      · exact (ih _).cons x

theorem ascending_difference {xs : List α} (hxs : Ascending id xs) (ys : List α) :
    Ascending id (difference xs ys) := hxs.sublist (difference_sublist xs ys)

section
variable [LE α] [IsLinearOrder α] [LawfulOrderLT α]

section
variable {key : β → α} {bound : α} {ys : List β}

/-- What the cursor passes is exactly what lies below the bound. -/
theorem mem_seek (h : Ascending key ys) {y : β} : y ∈ seek key bound ys ↔ y ∈ ys ∧ ¬key y < bound := by
  induction ys with
  | nil => simp [seek]
  | cons first ys ih =>
    have hrest := ih (List.pairwise_cons.mp h).2
    by_cases hfirst : key first < bound
    · have hpass : seek key bound (first :: ys) = seek key bound ys := by simp [seek, hfirst]
      rw [hpass, hrest, List.mem_cons]
      constructor
      · exact fun hy => ⟨.inr hy.1, hy.2⟩
      · rintro ⟨rfl | hy, hnot⟩
        · exact absurd hfirst hnot
        · exact ⟨hy, hnot⟩
    · have hstop : seek key bound (first :: ys) = first :: ys := by simp [seek, hfirst]
      rw [hstop]
      refine ⟨fun hy => ⟨hy, fun hlt => ?_⟩, And.left⟩
      rcases List.mem_cons.mp hy with rfl | hy
      · exact hfirst hlt
      · exact hfirst (lt_trans ((List.pairwise_cons.mp h).1 y hy) hlt)

theorem not_head_lt {y : β} {rest : List β} (h : Ascending key ys) (hseek : seek key bound ys = y :: rest) :
    ¬key y < bound := by
  have hin : y ∈ seek key bound ys := by simp [hseek]
  exact ((mem_seek h).mp hin).2

/-- A key of the range that is the bound is where the cursor stops. -/
theorem seek_of_key (h : Ascending key ys) {y : β} (hy : y ∈ ys) (hkey : key y = bound) :
    ∃ rest, seek key bound ys = y :: rest := by
  have hin : y ∈ seek key bound ys := (mem_seek h).mpr ⟨hy, by
    rw [hkey]
    exact lt_irrefl⟩
  cases hseek : seek key bound ys with
  | nil => simp [hseek] at hin
  | cons first rest =>
    have hasc := ascending_seek bound h
    rw [hseek] at hin hasc
    rcases List.mem_cons.mp hin with rfl | hin
    · exact ⟨rest, rfl⟩
    · have hlt := (List.pairwise_cons.mp hasc).1 y hin
      rw [hkey] at hlt
      exact absurd hlt (not_head_lt h hseek)

/-- A later bound is found from behind an earlier one as from the start. -/
theorem seek_seek {later : α} (hlt : bound < later) : seek key later (seek key bound ys) = seek key later ys := by
  induction ys with
  | nil => rfl
  | cons y ys ih =>
    by_cases hpass : key y < bound
    · have hpass' : key y < later := lt_trans hpass hlt
      simpa [seek, hpass, hpass'] using ih
    · simp [seek, hpass]

theorem lookup_eq_some [DecidableEq α] (h : Ascending key ys) {y : β} :
    lookup key bound ys = some y ↔ y ∈ ys ∧ key y = bound := by
  unfold lookup
  constructor
  · intro hfound
    split at hfound
    · cases hfound
    · next first rest hseek =>
      split at hfound
      · next hkey =>
        obtain rfl := Option.some.inj hfound
        have hin : first ∈ seek key bound ys := by simp [hseek]
        exact ⟨((mem_seek h).mp hin).1, hkey⟩
      · cases hfound
  · rintro ⟨hy, hkey⟩
    obtain ⟨rest, hseek⟩ := seek_of_key h hy hkey
    simp [hseek, hkey]

end

/-- Of ascending ranges, exactly the elements of the first that are not in the second. -/
theorem mem_difference {xs ys : List α} (hxs : Ascending id xs) (hys : Ascending id ys) {x : α} :
    x ∈ difference xs ys ↔ x ∈ xs ∧ x ∉ ys := by
  induction xs generalizing ys with
  | nil => simp [difference]
  | cons first xs ih =>
    obtain ⟨habove, hrestAsc⟩ := List.pairwise_cons.mp hxs
    have hne : ∀ x ∈ xs, x ≠ first := by
      rintro x hx rfl
      exact lt_irrefl (habove x hx)
    -- the rest of the first range lies behind the cursor
    have hbehind : ∀ x ∈ xs, x ∈ seek id first ys ↔ x ∈ ys := fun x hx =>
      (mem_seek hys).trans ⟨And.left, fun h => ⟨h, fun hlt => lt_irrefl (lt_trans hlt (habove x hx))⟩⟩
    have hseek := ascending_seek first hys
    unfold difference
    split
    · next hnil =>
      have hfirst : first ∉ ys := by
        intro h
        obtain ⟨rest, hrest⟩ := seek_of_key hys h rfl
        simp [hnil] at hrest
      have hrest := ih hrestAsc (List.Pairwise.nil : Ascending id ([] : List α))
      rw [hnil] at hbehind
      simp only [List.mem_cons, hrest]
      grind
    · next y rest hcons =>
      rw [hcons] at hbehind hseek
      split
      · next hlt =>
        have hfirst : first ∉ ys := by
          intro h
          obtain ⟨rest', hrest'⟩ := seek_of_key hys h rfl
          obtain rfl := (List.cons.inj (hcons.symm.trans hrest')).1
          exact lt_irrefl hlt
        have hrest := ih hrestAsc hseek
        simp only [List.mem_cons, hrest]
        grind
      · next hnot =>
        have heq : y = first := le_antisymm (not_lt.mp hnot) (not_lt.mp (not_head_lt hys hcons))
        subst heq
        have hin : y ∈ seek id y ys := by simp [hcons]
        have hfirst : y ∈ ys := ((mem_seek hys).mp hin).1
        have hrest := ih hrestAsc (List.pairwise_cons.mp hseek).2
        simp only [List.mem_cons, hrest]
        grind

end

end SlsteamMoon.SortedRanges
