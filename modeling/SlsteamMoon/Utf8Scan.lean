import Mathlib.Data.List.Basic

/-! Texts in UTF-8 as a scan over their bytes, which starts anew behind every byte of ASCII. -/
namespace SlsteamMoon.Utf8Scan

/-- The bytes that follow a first byte, the bits that it gives and the least value of the sequence. -/
def sequenceOf (first : UInt8) : Option (Nat × Nat × Nat) :=
  if 0xC2 ≤ first ∧ first ≤ 0xDF then some (1, (first &&& 0x1F).toNat, 0x80)
  else if 0xE0 ≤ first ∧ first ≤ 0xEF then some (2, (first &&& 0x0F).toNat, 0x800)
  else if 0xF0 ≤ first ∧ first ≤ 0xF4 then some (3, (first &&& 0x07).toNat, 0x10000)
  else none

/-- Too small for its sequence, too large, or a surrogate. -/
def misfit (value minimum : Nat) : Bool := value < minimum || 0x10FFFF < value || (0xD800 ≤ value && value ≤ 0xDFFF)

/-- The scan inside of a sequence, with the bytes of it that are still to come. -/
def scan : Nat → Nat → Nat → List UInt8 → Bool
  | 0, _, _, [] => true
  | _ + 1, _, _, [] => false
  | 0, _, _, first :: rest =>
    if first ≤ 0x7F then scan 0 0 0 rest
    else
      match sequenceOf first with
      | some (left, value, minimum) => scan left value minimum rest
      | none => false
  | left + 1, value, minimum, continuation :: rest =>
    if continuation &&& 0xC0 ≠ 0x80 then false
    else
      let value := value * 64 + (continuation &&& 0x3F).toNat
      if left = 0 then !misfit value minimum && scan 0 0 0 rest else scan left value minimum rest

def isValidUtf8 (text : List UInt8) : Bool := scan 0 0 0 text

variable {xs ys : List UInt8} {c : UInt8}

theorem ascii_not_continuation (h : c ≤ 0x7F) : c &&& 0xC0 ≠ 0x80 := by
  have hall : ∀ n : Fin 128, UInt8.ofNat n.val &&& 0xC0 ≠ 0x80 := by decide
  have hc := hall ⟨c.toNat, Nat.lt_succ_of_le (UInt8.le_iff_toNat_le.mp h)⟩
  rwa [UInt8.ofNat_toNat] at hc

/-- A byte of ASCII is in no sequence. -/
theorem scan_append_cons (h : c ≤ 0x7F) (left value minimum : Nat) (xs ys : List UInt8) :
    scan left value minimum (xs ++ c :: ys) = (scan left value minimum xs && scan 0 0 0 ys) := by
  induction xs generalizing left value minimum with
  | nil =>
    cases left with
    | zero => exact if_pos h
    | succ left => exact if_pos (ascii_not_continuation h)
  | cons x xs ih =>
    rw [List.cons_append]
    cases left with
    | zero =>
      rw [scan, scan]
      split_ifs with hascii
      · exact ih 0 0 0
      · cases sequenceOf x with
        | none => rfl
        | some start => exact ih start.1 start.2.1 start.2.2
    | succ left =>
      rw [scan, scan]
      split_ifs with hcontinuation hlast
      · rfl
      · rw [ih, Bool.and_assoc]
      · exact ih ..

theorem isValidUtf8_append_cons (h : c ≤ 0x7F) (xs ys : List UInt8) :
    isValidUtf8 (xs ++ c :: ys) = (isValidUtf8 xs && isValidUtf8 ys) := scan_append_cons h 0 0 0 xs ys

theorem isValidUtf8_ascii_append (h : ∀ c ∈ xs, c ≤ 0x7F) (ys : List UInt8) :
    isValidUtf8 (xs ++ ys) = isValidUtf8 ys := by
  induction xs with
  | nil => rfl
  | cons c xs ih =>
    obtain ⟨hc, hxs⟩ := List.forall_mem_cons.mp h
    have hstart := isValidUtf8_append_cons hc [] (xs ++ ys)
    rw [List.nil_append] at hstart
    rw [List.cons_append, hstart, ih hxs]
    rfl

theorem isValidUtf8_of_ascii (h : ∀ c ∈ xs, c ≤ 0x7F) : isValidUtf8 xs = true := by
  have hall := isValidUtf8_ascii_append h []
  rw [List.append_nil] at hall
  rw [hall]
  rfl

/-- Lines are in UTF-8 when each of them is. -/
theorem isValidUtf8_lines (h : c ≤ 0x7F) (lines : List (List UInt8)) :
    isValidUtf8 (lines.flatMap (· ++ [c])) = lines.all isValidUtf8 := by
  induction lines with
  | nil => rfl
  | cons line lines ih =>
    rw [List.flatMap_cons, List.append_assoc, List.singleton_append, isValidUtf8_append_cons h, ih, List.all_cons]

end SlsteamMoon.Utf8Scan
