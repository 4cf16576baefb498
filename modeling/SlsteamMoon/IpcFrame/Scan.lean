import SlsteamMoon.KeyValues.Text
import SlsteamMoon.TextSearch

/-! The dispatch tails in a buffer of code: a call, the move of its result, and the comparison with the root. -/
namespace SlsteamMoon.IpcFrame
open KeyValues TextSearch

structure Cand where
  offset : Nat
  root : UInt32
  available : Nat := 0
  deriving DecidableEq

def kRootByteOffset : Nat := 15

def kMatchSpan : Nat := kRootByteOffset + 4

/-- None is a wildcard. -/
def mask : List (Option UInt8) :=
  [some 0xe8, none, none, none, none, some 0x8b, some 0x85, none, none, none, none, some 0x83, some 0xc4, some 0x10,
    some 0x3d]

/-- The byte of the lowest weight first. -/
def littleEndian (b0 b1 b2 b3 : UInt8) : UInt32 :=
  b0.toUInt32 ||| b1.toUInt32 <<< 8 ||| b2.toUInt32 <<< 16 ||| b3.toUInt32 <<< 24

def byteAt (code : Bytes) (i : Nat) : UInt8 := code.getD i 0

/-- The bytes of the mask from `k` on. -/
def agrees (code : Bytes) (i k : Nat) : Bool :=
  (List.range' k (kRootByteOffset - k)).all fun j =>
    match mask.getD j none with
    | none => true
    | some b => byteAt code (i + j) == b

def candAt (code : Bytes) (i : Nat) : Cand where
  offset := i
  root := littleEndian (byteAt code (i + 15)) (byteAt code (i + 16)) (byteAt code (i + 17)) (byteAt code (i + 18))
  available := code.length - i

/-- The loop from `i` on; the call opcode is looked for first. -/
def scanFrom (code : Bytes) (last : Nat) : Nat → Nat → List Cand
  | 0, _ => []
  | fuel + 1, i =>
    if last < i then []
    else
      match memchr code 0xe8 i (last - i + 1) with
      | none => []
      | some hit =>
        if agrees code hit 1 then candAt code hit :: scanFrom code last fuel (hit + 1)
        else scanFrom code last fuel (hit + 1)

def scan (code : Bytes) : List Cand :=
  if code.length < kMatchSpan then []
  else scanFrom code (code.length - kMatchSpan) (code.length - kMatchSpan + 1) 0

/-- The whole mask is at the offset, and the root is in the buffer. -/
def tailAt (code : Bytes) (i : Nat) : Bool := decide (i + kMatchSpan ≤ code.length) && agrees code i 0

section
variable {code : Bytes} {i n : Nat}

private theorem agrees_zero : agrees code i 0 = (byteAt code i == 0xe8 && agrees code i 1) := rfl

/-- A tail begins with the call opcode. -/
theorem getElem?_of_tailAt (h : tailAt code i = true) : code[i]? = some 0xe8 := by
  rw [tailAt, agrees_zero, Bool.and_eq_true, Bool.and_eq_true, beq_iff_eq, decide_eq_true_eq] at h
  have hi : i < code.length := by have := h.1; rw [kMatchSpan] at this; omega
  rw [byteAt, List.getD_eq_getElem?_getD, List.getElem?_eq_getElem hi] at h
  rw [List.getElem?_eq_getElem hi]
  exact congrArg some h.2.1

/-- Behind the opcode the rest of the mask decides. -/
theorem tailAt_of_getElem? (hlength : i + kMatchSpan ≤ code.length) (hc : code[i]? = some 0xe8) :
    tailAt code i = agrees code i 1 := by
  have hbyte : byteAt code i = 0xe8 := by rw [byteAt, List.getD_eq_getElem?_getD, hc, Option.getD_some]
  rw [tailAt, agrees_zero, hbyte, decide_eq_true hlength]
  rfl

private theorem filter_tailAt_eq_nil (h : ∀ j, i ≤ j → j < i + n → code[j]? ≠ some 0xe8) :
    (List.range' i n).filter (tailAt code) = [] := by
  rw [List.filter_eq_nil_iff]
  intro j hj htail
  obtain ⟨hij, hlt⟩ := List.mem_range'_1.mp hj
  exact h j hij hlt (getElem?_of_tailAt htail)

/-- The loop finds the tails between its cursor and the last place that has room for one. -/
theorem scanFrom_eq {last fuel : Nat} (hlast : last + kMatchSpan ≤ code.length) (hfuel : last < i + fuel) :
    scanFrom code last fuel i = ((List.range' i (last + 1 - i)).filter (tailAt code)).map (candAt code) := by
  induction fuel generalizing i with
  | zero =>
    have hnone : last + 1 - i = 0 := by omega
    rw [hnone]
    rfl
  | succ fuel ih =>
    rw [scanFrom]
    split_ifs with hpast
    · have hnone : last + 1 - i = 0 := by omega
      rw [hnone]
      rfl
    · cases hmem : memchr code 0xe8 i (last - i + 1) with
      | none =>
        have hlength : last + 1 - i = last - i + 1 := by omega
        rw [hlength, filter_tailAt_eq_nil fun j => memchr_eq_none hmem]
        rfl
      | some hit =>
        obtain ⟨hle, hlt, hc, hfirst⟩ := memchr_eq_some hmem
        have hsplit : List.range' i (last + 1 - i) =
            List.range' i (hit - i) ++ hit :: List.range' (hit + 1) (last + 1 - (hit + 1)) := by
          have hcount : last + 1 - i = (hit - i) + (last + 1 - (hit + 1) + 1) := by omega
          have hstart : i + (hit - i) = hit := by omega
          rw [hcount, ← List.range'_append_1, hstart, List.range'_succ]
        have hbefore : (List.range' i (hit - i)).filter (tailAt code) = [] :=
          filter_tailAt_eq_nil fun j hij hj => hfirst j hij (by omega)
        have htail : tailAt code hit = agrees code hit 1 := tailAt_of_getElem? (by omega) hc
        dsimp only
        rw [hsplit, List.filter_append, hbefore, List.nil_append, List.filter_cons, htail, ih (by omega)]
        split_ifs
        · rfl
        · rfl

end

/-- Without room for a tail there is none. -/
theorem filter_tailAt_short {code : Bytes} {i : Nat} (h : code.length < i + kMatchSpan) (n : Nat) :
    (List.range' i n).filter (tailAt code) = [] := by
  rw [List.filter_eq_nil_iff]
  intro j hj htail
  have hij := (List.mem_range'_1.mp hj).1
  rw [tailAt, Bool.and_eq_true, decide_eq_true_eq] at htail
  omega

/-- The scan finds what a test of the mask at every offset finds. -/
theorem scan_eq (code : Bytes) : scan code = ((List.range code.length).filter (tailAt code)).map (candAt code) := by
  rw [scan, List.range_eq_range']
  split_ifs with hshort
  · rw [filter_tailAt_short (by omega)]
    rfl
  · have hspan : kMatchSpan = 19 := rfl
    have hcount : (code.length - kMatchSpan + 1) + (code.length - (code.length - kMatchSpan + 1)) = code.length := by omega
    have hsplit := @List.range'_append_1 0 (code.length - kMatchSpan + 1) (code.length - (code.length - kMatchSpan + 1))
    rw [Nat.zero_add, hcount] at hsplit
    have hend : code.length < code.length - kMatchSpan + 1 + kMatchSpan := by omega
    rw [scanFrom_eq (by omega) (by omega), ← hsplit, List.filter_append, filter_tailAt_short hend, List.append_nil,
      Nat.sub_zero]

end SlsteamMoon.IpcFrame
