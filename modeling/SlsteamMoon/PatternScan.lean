import Mathlib.Data.List.Basic

/-! Reading a text from left to right for the matches of a pattern. A match is looked
for at each place in turn, and the search goes on behind the match that was found. -/
namespace SlsteamMoon.PatternScan

variable {α β : Type*}

/-- What the pattern reads at the head of a text, and the text behind it. -/
abbrev Pattern (α β : Type*) := List α → Option (β × List α)

/-- The scan over the rest of a text whose first `skip` characters belong to a match. -/
def scanFrom (p : Pattern α β) : Nat → List α → List β
  | _, [] => []
  | skip + 1, _ :: text => scanFrom p skip text
  | 0, c :: text =>
    match p (c :: text) with
    | none => scanFrom p 0 text
    | some (found, rest) => found :: scanFrom p (text.length - rest.length) text

def scan (p : Pattern α β) (text : List α) : List β := scanFrom p 0 text

/-- Every result of the scan was read at some place of the text. -/
theorem mem_scanFrom {p : Pattern α β} {skip : Nat} {text : List α} {b : β} (h : b ∈ scanFrom p skip text) :
    ∃ here rest, here <:+ text ∧ p here = some (b, rest) := by
  induction text generalizing skip with
  | nil => cases skip <;> cases h
  | cons c text ih =>
    have hlater : ∀ {skip}, b ∈ scanFrom p skip text →
        ∃ here rest, here <:+ c :: text ∧ p here = some (b, rest) := by
      intro skip h
      obtain ⟨here, rest, hsuffix, hp⟩ := ih h
      exact ⟨here, rest, hsuffix.trans (List.suffix_cons c text), hp⟩
    cases skip with
    | succ skip => exact hlater h
    | zero =>
      rw [scanFrom] at h
      split at h
      · exact hlater h
      · rename_i found rest hfound
        obtain rfl | h := List.mem_cons.mp h
        · exact ⟨c :: text, rest, List.suffix_rfl, hfound⟩
        · exact hlater h

theorem mem_scan {p : Pattern α β} {text : List α} {b : β} (h : b ∈ scan p text) :
    ∃ here rest, here <:+ text ∧ p here = some (b, rest) := mem_scanFrom h

/-! The pieces patterns are made of. -/

/-- The word itself. -/
def literal [BEq α] (word : List α) : Pattern α Unit := fun text =>
  if word.isPrefixOf text then some ((), text.drop word.length) else none

/-- As many characters of the class as there are. -/
def many (inClass : α → Bool) : Pattern α (List α) := fun text =>
  some (text.takeWhile inClass, text.dropWhile inClass)

/-- The same, and at least one. -/
def some1 (inClass : α → Bool) : Pattern α (List α) := fun text =>
  if text.takeWhile inClass = [] then none else some (text.takeWhile inClass, text.dropWhile inClass)

/-- Exactly `n` characters of the class. -/
def exactly (n : Nat) (inClass : α → Bool) : Pattern α (List α) := fun text =>
  if (text.take n).length = n ∧ (text.take n).all inClass then some (text.take n, text.drop n) else none

theorem some1_spec {inClass : α → Bool} {text rest cs : List α} (h : some1 inClass text = some (cs, rest)) :
    cs ≠ [] ∧ cs.all inClass = true := by
  rw [some1] at h
  split_ifs at h with hnone
  cases h
  exact ⟨hnone, List.all_takeWhile⟩

theorem exactly_spec {n : Nat} {inClass : α → Bool} {text rest cs : List α}
    (h : exactly n inClass text = some (cs, rest)) : cs.length = n ∧ cs.all inClass = true := by
  rw [exactly] at h
  split_ifs at h with hn
  cases h
  exact hn

end SlsteamMoon.PatternScan
