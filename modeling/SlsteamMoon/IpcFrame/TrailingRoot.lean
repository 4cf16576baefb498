import Mathlib.Algebra.GroupWithZero.Nat
import Mathlib.Data.Nat.Digits.Defs
import SlsteamMoon.Words
import SlsteamMoon.IpcFrame.Scan
import SlsteamMoon.ProvisionCache.CmVdf

/-! The root at the end of a pattern: its last four tokens, read and written. -/
namespace SlsteamMoon.IpcFrame
open KeyValues Words
open ProvisionCache (isDigit isSpace numberOf)

def space : UInt8 := 0x20

/-- `find_last_of` and `find_last_not_of`: the last place up to `pos`. -/
def findLast (p : UInt8 → Bool) (text : Bytes) : Nat → Option Nat
  | 0 => if text[0]?.any p then some 0 else none
  | pos + 1 => if text[pos + 1]?.any p then some (pos + 1) else findLast p text pos

def isHex (c : UInt8) : Bool := isDigit c || (0x41 ≤ c && c ≤ 0x46) || (0x61 ≤ c && c ≤ 0x66)

def hexValue (c : UInt8) : Nat :=
  if isDigit c then c.toNat - 0x30 else if c ≤ 0x46 then c.toNat - 0x37 else c.toNat - 0x57

/-- `strtoul` in base 16 on the C string, with an `unsigned long` of 32 bits: white space, a sign, `0x`, digits. -/
def strtoul (text : Bytes) : UInt32 :=
  let body := (text.takeWhile (· != 0)).dropWhile isSpace
  let unsigned := if body.head? = some 0x2b ∨ body.head? = some 0x2d then body.tail else body
  let bare := if unsigned.take 2 = [0x30, 0x78] ∨ unsigned.take 2 = [0x30, 0x58] then unsigned.drop 2 else unsigned
  let number := numberOf 16 hexValue (bare.takeWhile isHex)
  if 0x100000000 ≤ number then 0xffffffff
  else if body.head? = some 0x2d then 0 - UInt32.ofNat number
  else UInt32.ofNat number

/-- Where the last token before `stop` begins, and its last character. -/
def tokenBefore (pattern : Bytes) (stop : Nat) : Option (Nat × Nat) :=
  (findLast (· != space) pattern (stop - 1)).map fun e =>
    ((findLast (· == space) pattern e).elim 0 (· + 1), e)

/-- The bytes of the last tokens, the last one first. -/
def trailingBytes (pattern : Bytes) : Nat → Nat → List UInt8
  | 0, _ => []
  | n + 1, stop =>
    if stop = 0 then []
    else
      match tokenBefore pattern stop with
      | none => []
      | some (tokStart, e) =>
        (strtoul ((pattern.drop tokStart).take (e - tokStart + 1))).toUInt8 ::
          if tokStart = 0 then [] else trailingBytes pattern n (tokStart - 1)

def parseTrailingRoot (pattern : Bytes) : UInt32 :=
  match trailingBytes pattern 4 pattern.length with
  | [b3, b2, b1, b0] => littleEndian b0 b1 b2 b3
  | _ => 0

/-- The start of the last token reached within `n` rounds. -/
def trailingCut (pattern : Bytes) : Nat → Nat → Option Nat → Option Nat
  | 0, _, cut => cut
  | n + 1, stop, cut =>
    if stop = 0 then cut
    else
      match tokenBefore pattern stop with
      | none => cut
      | some (tokStart, _) => if tokStart = 0 then some 0 else trailingCut pattern n (tokStart - 1) (some tokStart)

def upperHex (n : Nat) : UInt8 := if n < 10 then UInt8.ofNat (0x30 + n) else UInt8.ofNat (0x37 + n)

/-- `%02X` of a byte. -/
def twoDigits (b : UInt8) : Bytes := [upperHex (b.toNat / 16), upperHex (b.toNat % 16)]

def rootText (root : UInt32) : Bytes :=
  twoDigits root.toUInt8 ++ space :: (twoDigits (root >>> 8).toUInt8 ++ space :: (twoDigits (root >>> 16).toUInt8 ++
    space :: twoDigits (root >>> 24).toUInt8))

def setTrailingRoot (pattern : Bytes) (root : UInt32) : Bytes :=
  match trailingCut pattern 4 pattern.length none with
  | none => pattern
  | some cut => pattern.take cut ++ rootText root

def tokens (pattern : Bytes) : List Bytes := words space pattern

/-- The place is the last one with the property. -/
theorem findLast_eq_some {p : UInt8 → Bool} {text : Bytes} {pos i : Nat} (hi : i ≤ pos) (hp : text[i]?.any p = true)
    (hlast : ∀ j, i < j → j ≤ pos → text[j]?.any p = false) : findLast p text pos = some i := by
  induction pos with
  | zero =>
    obtain rfl : i = 0 := Nat.le_zero.mp hi
    rw [findLast, if_pos hp]
  | succ pos ih =>
    rw [findLast]
    obtain hlt | rfl := Nat.lt_or_eq_of_le hi
    · rw [if_neg (by rw [hlast (pos + 1) hlt le_rfl]; decide)]
      exact ih (Nat.lt_succ_iff.mp hlt) fun j hij hj => hlast j hij (hj.trans (Nat.le_succ pos))
    · rw [if_pos hp]

private theorem findLast_eq_none {p : UInt8 → Bool} {text : Bytes} {pos : Nat} (h : ∀ j ≤ pos, text[j]?.any p = false) :
    findLast p text pos = none := by
  induction pos with
  | zero => rw [findLast, if_neg (by rw [h 0 le_rfl]; decide)]
  | succ pos ih =>
    rw [findLast, if_neg (by rw [h (pos + 1) le_rfl]; decide)]
    exact ih fun j hj => h j (hj.trans (Nat.le_succ pos))

private theorem tokenBefore_endsWith {text front token gap : Bytes} (h : EndsWith space text front token gap)
    (more : Bytes) : tokenBefore (text ++ more) text.length = some (front.length, front.length + token.length - 1) := by
  have hpos : 0 < token.length := List.length_pos_of_ne_nil h.ne_nil
  have hlength : text.length = front.length + (token.length + gap.length) := by
    rw [h.eq, List.length_append, List.length_append]
  have hshape : text ++ more = front ++ (token ++ (gap ++ more)) := by
    rw [h.eq, List.append_assoc, List.append_assoc]
  have htoken : ∀ j, front.length ≤ j → j < front.length + token.length → ∃ b, (text ++ more)[j]? = some b ∧ b ≠ space := by
    intro j hj hlt
    obtain ⟨k, rfl⟩ := Nat.exists_eq_add_of_le hj
    have hk : k < token.length := Nat.lt_of_add_lt_add_left hlt
    refine ⟨token[k], ?_, fun hspace => h.free (hspace ▸ List.getElem_mem hk)⟩
    rw [hshape, List.getElem?_append_right hj, Nat.add_sub_cancel_left, List.getElem?_append_left hk,
      List.getElem?_eq_getElem hk]
  have hgap : ∀ j, front.length + token.length ≤ j → j < text.length → (text ++ more)[j]? = some space := by
    intro j hj hlt
    obtain ⟨k, rfl⟩ := Nat.exists_eq_add_of_le hj
    have hk : k < gap.length := by omega
    rw [hshape, List.getElem?_append_right (by omega), List.getElem?_append_right (by omega),
      List.getElem?_append_left (by omega), List.getElem?_eq_getElem (by omega)]
    exact congrArg some (h.gap _ (List.getElem_mem _))
  have hend : findLast (· != space) (text ++ more) (text.length - 1) = some (front.length + token.length - 1) := by
    refine findLast_eq_some (by omega) ?_ fun j hij hj => ?_
    · obtain ⟨b, hb, hne⟩ := htoken (front.length + token.length - 1) (by omega) (by omega)
      rw [hb]
      simpa using hne
    · rw [hgap j (by omega) (by omega)]
      rfl
  have hnotSpace : ∀ j, front.length ≤ j → j ≤ front.length + token.length - 1 →
      (text ++ more)[j]?.any (· == space) = false := by
    intro j hj hle
    obtain ⟨b, hb, hne⟩ := htoken j hj (by omega)
    rw [hb]
    simpa using hne
  rw [tokenBefore, hend, Option.map_some]
  obtain rfl | ⟨rest, rfl⟩ := h.stops
  · rw [findLast_eq_none fun j hj => hnotSpace j (Nat.zero_le j) hj]
    rfl
  · have hlast : (text ++ more)[rest.length]?.any (· == space) = true := by
      rw [hshape, List.append_assoc, List.getElem?_append_right le_rfl, Nat.sub_self]
      rfl
    rw [List.length_append, List.length_singleton] at hnotSpace ⊢
    rw [findLast_eq_some (by omega) hlast fun j hj hle => hnotSpace j hj hle]
    rfl

/-- Each round goes back over one more token. -/
theorem trailingCut_eq {text : Bytes} {n : Nat} (hcount : n < (tokens text).length) (more : Bytes) (cut : Option Nat) :
    ∃ front last, tokens text = tokens front ++ last ∧ last.length = n + 1 ∧ Stops space front ∧ front <+: text ∧
      trailingCut (text ++ more) (n + 1) text.length cut = some front.length := by
  induction n generalizing text more cut with
  | zero =>
    obtain ⟨front, token, gap, h⟩ := exists_endsWith (List.ne_nil_of_length_pos hcount)
    refine ⟨front, [token], h.words_eq, rfl, h.stops, ⟨token ++ gap, h.eq.symm⟩, ?_⟩
    rw [trailingCut, if_neg h.length_ne_zero, tokenBefore_endsWith h]
    dsimp only
    split_ifs with hzero
    · rw [hzero]
    · rfl
  | succ n ih =>
    obtain ⟨front, token, gap, h⟩ := exists_endsWith (List.ne_nil_of_length_pos (Nat.zero_lt_of_lt hcount))
    have htokens : tokens text = tokens front ++ [token] := h.words_eq
    rw [htokens, List.length_append, List.length_singleton, Nat.add_lt_add_iff_right] at hcount
    obtain rfl | ⟨rest, rfl⟩ := h.stops
    · cases hcount
    · have hrest : tokens (rest ++ [space]) = tokens rest := by
        rw [tokens, tokens, words_append_cons, words_nil, List.append_nil]
      rw [hrest] at hcount htokens
      obtain ⟨front, last, hlast, hlength, hstops, hprefix, hcut⟩ :=
        ih hcount (space :: (token ++ gap ++ more)) (some (rest ++ [space]).length)
      have hshape : text ++ more = rest ++ space :: (token ++ gap ++ more) := by
        rw [h.eq, List.append_assoc, List.append_assoc, List.singleton_append]
      refine ⟨front, last ++ [token], ?_, ?_, hstops, ?_, ?_⟩
      · rw [htokens, hlast, List.append_assoc]
      · rw [List.length_append, hlength, List.length_singleton]
      · rw [h.eq, List.append_assoc]
        exact hprefix.trans (List.prefix_append rest _)
      · rw [trailingCut, if_neg h.length_ne_zero, tokenBefore_endsWith h]
        dsimp only
        rw [if_neg (by rw [List.length_append, List.length_singleton]; omega), hshape, ← hcut]
        congr 1
        rw [List.length_append, List.length_singleton, Nat.add_sub_cancel]

/-- Tokens that are written one behind the other are read back to front. -/
theorem trailingBytes_endsWith {text front token gap : Bytes} (h : EndsWith space text front token gap) (n : Nat)
    (more : Bytes) :
    trailingBytes (text ++ more) (n + 1) text.length =
      (strtoul token).toUInt8 :: if front.length = 0 then [] else trailingBytes (text ++ more) n (front.length - 1) := by
  have hpos : 0 < token.length := List.length_pos_of_ne_nil h.ne_nil
  have hlength : front.length + token.length - 1 - front.length + 1 = token.length := by omega
  have hshape : text ++ more = front ++ (token ++ (gap ++ more)) := by
    rw [h.eq, List.append_assoc, List.append_assoc]
  rw [trailingBytes, if_neg h.length_ne_zero, tokenBefore_endsWith h]
  dsimp only
  rw [hlength, hshape, List.drop_left, List.take_left]

/-- A byte above what is there is added to it. -/
theorem toNat_or_shiftLeft {low : UInt32} {k : UInt32} (hk : k.toNat ≤ 24) (hlow : low.toNat < 2 ^ k.toNat) (b : UInt8) :
    (low ||| b.toUInt32 <<< k).toNat = low.toNat + 2 ^ k.toNat * b.toNat := by
  have hbyte : b.toNat * 2 ^ k.toNat < 2 ^ 32 := by
    calc
      b.toNat * 2 ^ k.toNat < 2 ^ 8 * 2 ^ k.toNat := Nat.mul_lt_mul_of_pos_right b.toNat_lt (Nat.two_pow_pos _)
      _ ≤ 2 ^ 8 * 2 ^ 24 := Nat.mul_le_mul_left _ (Nat.pow_le_pow_right (by decide) hk)
      _ = 2 ^ 32 := rfl
  rw [UInt32.toNat_or, UInt32.toNat_shiftLeft, UInt8.toNat_toUInt32, Nat.mod_eq_of_lt (by omega : k.toNat < 32),
    Nat.shiftLeft_eq, Nat.mod_eq_of_lt hbyte, ← Nat.shiftLeft_eq, Nat.or_comm, ← Nat.shiftLeft_add_eq_or_of_lt hlow,
    Nat.shiftLeft_eq, Nat.add_comm, Nat.mul_comm]

theorem toNat_littleEndian (b0 b1 b2 b3 : UInt8) :
    (littleEndian b0 b1 b2 b3).toNat = b0.toNat + 2 ^ 8 * b1.toNat + 2 ^ 16 * b2.toNat + 2 ^ 24 * b3.toNat := by
  have h0 := b0.toNat_lt
  have h1 := b1.toNat_lt
  have h2 := b2.toNat_lt
  have hone : (b0.toUInt32 ||| b1.toUInt32 <<< 8).toNat = b0.toNat + 2 ^ 8 * b1.toNat := by
    rw [toNat_or_shiftLeft (by decide) (by rw [UInt8.toNat_toUInt32]; exact h0), UInt8.toNat_toUInt32]
    rfl
  have htwo : (b0.toUInt32 ||| b1.toUInt32 <<< 8 ||| b2.toUInt32 <<< 16).toNat =
      b0.toNat + 2 ^ 8 * b1.toNat + 2 ^ 16 * b2.toNat := by
    rw [toNat_or_shiftLeft (by decide) (by rw [hone]; change _ < 2 ^ 16; omega), hone]
    rfl
  rw [littleEndian, toNat_or_shiftLeft (by decide) (by rw [htwo]; change _ < 2 ^ 24; omega), htwo]
  rfl

private theorem littleEndian_bytes (root : UInt32) :
    littleEndian root.toUInt8 (root >>> 8).toUInt8 (root >>> 16).toUInt8 (root >>> 24).toUInt8 = root := by
  have hroot := root.toNat_lt
  have h8 : (root >>> 8).toNat = root.toNat / 2 ^ 8 := by rw [UInt32.toNat_shiftRight, Nat.shiftRight_eq_div_pow]; rfl
  have h16 : (root >>> 16).toNat = root.toNat / 2 ^ 16 := by rw [UInt32.toNat_shiftRight, Nat.shiftRight_eq_div_pow]; rfl
  have h24 : (root >>> 24).toNat = root.toNat / 2 ^ 24 := by rw [UInt32.toNat_shiftRight, Nat.shiftRight_eq_div_pow]; rfl
  rw [← UInt32.toNat_inj, toNat_littleEndian]
  simp only [UInt32.toNat_toUInt8, h8, h16, h24]
  omega

private theorem strtoul_twoDigits (b : UInt8) : (strtoul (twoDigits b)).toUInt8 = b := by
  have hall : (List.range 256).all (fun n => (strtoul (twoDigits (UInt8.ofNat n))).toUInt8 == UInt8.ofNat n) = true := by
    decide +kernel
  have hb := List.all_eq_true.mp hall b.toNat (List.mem_range.mpr b.toNat_lt)
  rwa [UInt8.ofNat_toNat, beq_iff_eq] at hb

private theorem twoDigits_free (b : UInt8) : space ∉ twoDigits b := by
  have hall : (List.range 256).all (fun n => !(twoDigits (UInt8.ofNat n)).contains space) = true := by decide +kernel
  have hb := List.all_eq_true.mp hall b.toNat (List.mem_range.mpr b.toNat_lt)
  simpa using hb

/-- A token behind a space is read, and the loop goes on in front of the space. -/
theorem trailingBytes_twoDigits {whole rest more : Bytes} {b : UInt8} (n : Nat)
    (hwhole : whole = (rest ++ space :: twoDigits b) ++ more) :
    trailingBytes whole (n + 1) (rest ++ space :: twoDigits b).length = b :: trailingBytes whole n rest.length := by
  have h : EndsWith space (rest ++ space :: twoDigits b) (rest ++ [space]) (twoDigits b) [] := by
    refine ⟨?_, List.cons_ne_nil _ _, twoDigits_free b, List.forall_mem_nil _, .inr ⟨rest, rfl⟩⟩
    rw [List.append_nil, List.append_assoc, List.singleton_append]
  rw [hwhole, trailingBytes_endsWith h, strtoul_twoDigits, List.length_append, List.length_singleton,
    if_neg (Nat.succ_ne_zero _), Nat.add_sub_cancel]

/-- A written root is read. -/
theorem parseTrailingRoot_append {front : Bytes} (h : Stops space front) (root : UInt32) :
    parseTrailingRoot (front ++ rootText root) = root := by
  have hfirst : EndsWith space (front ++ twoDigits root.toUInt8) front (twoDigits root.toUInt8) [] :=
    ⟨by rw [List.append_nil], List.cons_ne_nil _ _, twoDigits_free _, List.forall_mem_nil _, h⟩
  have hwhole : front ++ rootText root =
      ((((front ++ twoDigits root.toUInt8) ++ space :: twoDigits (root >>> 8).toUInt8) ++
        space :: twoDigits (root >>> 16).toUInt8) ++ space :: twoDigits (root >>> 24).toUInt8) := by
    simp only [rootText, List.append_assoc, List.cons_append]
  have hbytes : trailingBytes (front ++ rootText root) 4 (front ++ rootText root).length =
      [(root >>> 24).toUInt8, (root >>> 16).toUInt8, (root >>> 8).toUInt8, root.toUInt8] := by
    conv_lhs => rw [hwhole]
    rw [trailingBytes_twoDigits 3 (List.append_nil _).symm, trailingBytes_twoDigits 2 rfl,
      trailingBytes_twoDigits 1 (List.append_assoc _ _ _), List.append_assoc, List.append_assoc,
      trailingBytes_endsWith hfirst, strtoul_twoDigits]
    split_ifs
    · rfl
    · rfl
  rw [parseTrailingRoot, hbytes]
  exact littleEndian_bytes root

private theorem tokens_rootText (root : UInt32) :
    tokens (rootText root) = [twoDigits root.toUInt8, twoDigits (root >>> 8).toUInt8, twoDigits (root >>> 16).toUInt8,
      twoDigits (root >>> 24).toUInt8] := by
  have hone : ∀ b, words space (twoDigits b) = [twoDigits b] := fun b =>
    words_of_free (List.cons_ne_nil _ _) (twoDigits_free b)
  rw [tokens, rootText, words_append_cons, words_append_cons, words_append_cons, hone, hone, hone, hone]
  rfl

/-- A tail has room for its root, and every byte that its mask fixes. -/
theorem tailAt_iff {code : Bytes} {i : Nat} :
    tailAt code i = true ↔ i + kMatchSpan ≤ code.length ∧ ∀ k b, mask[k]? = some (some b) → code[i + k]? = some b := by
  rw [tailAt, Bool.and_eq_true, decide_eq_true_eq, agrees, List.all_eq_true]
  refine and_congr_right fun hroom => ?_
  have hbyte : ∀ k < kRootByteOffset, code[i + k]? = some (byteAt code (i + k)) := by
    intro k hk
    have hlt : i + k < code.length := by rw [kMatchSpan] at hroom; omega
    rw [byteAt, List.getD_eq_getElem?_getD, List.getElem?_eq_getElem hlt, Option.getD_some]
  constructor
  · intro h k b hmask
    obtain ⟨hk, -⟩ := List.getElem?_eq_some_iff.mp hmask
    have hagree := h k (List.mem_range'_1.mpr ⟨k.zero_le, hk.trans_eq (Nat.zero_add _).symm⟩)
    rw [List.getD_eq_getElem?_getD, hmask, Option.getD_some, beq_iff_eq] at hagree
    rw [hbyte k hk, hagree]
  · intro h k hk
    have hk : k < kRootByteOffset := by simpa using (List.mem_range'_1.mp hk).2
    rw [List.getD_eq_getElem?_getD]
    cases hmask : mask[k]? with
    | none => rfl
    | some cell =>
      cases cell with
      | none => rfl
      | some b => exact beq_iff_eq.mpr (Option.some.inj ((hbyte k hk).symm.trans (h k b hmask)))

/-- The root of a tail is the four bytes behind its mask, the lowest weight first. -/
theorem root_candAt {code : Bytes} {i : Nat} (hroom : i + kMatchSpan ≤ code.length) :
    (candAt code i).root.toNat = Nat.ofDigits 256 (((code.drop (i + kRootByteOffset)).take 4).map UInt8.toNat) := by
  have hspan : kMatchSpan = 19 := rfl
  have hbytes : (code.drop (i + kRootByteOffset)).take 4 =
      [byteAt code (i + 15), byteAt code (i + 16), byteAt code (i + 17), byteAt code (i + 18)] := by
    refine List.ext_getElem? fun k => ?_
    by_cases hk : k < 4
    · have hlt : i + 15 + k < code.length := by omega
      rw [List.getElem?_take_of_lt hk, List.getElem?_drop, kRootByteOffset, List.getElem?_eq_getElem hlt]
      simp only [byteAt, List.getD_eq_getElem?_getD]
      obtain rfl | rfl | rfl | rfl : k = 0 ∨ k = 1 ∨ k = 2 ∨ k = 3 := by omega
      all_goals simp [List.getElem?_eq_getElem hlt]
    · rw [List.getElem?_eq_none (by rw [List.length_take]; omega), List.getElem?_eq_none (Nat.le_of_not_lt hk)]
  rw [candAt, toNat_littleEndian, hbytes]
  simp only [List.map_cons, List.map_nil, Nat.ofDigits_cons, Nat.ofDigits_nil]
  omega

/-- The scan finds the offsets where the pattern is, in order, each with the root and the bytes that are left there; and a
pattern keeps its tokens but the root that is written. -/
theorem frame_scan_and_root :
    (∀ code : Bytes,
      (scan code).map Cand.offset = (List.range code.length).filter (tailAt code) ∧
        (∀ i, tailAt code i = true ↔
          i + kMatchSpan ≤ code.length ∧ ∀ k b, mask[k]? = some (some b) → code[i + k]? = some b) ∧
        ∀ c ∈ scan code,
          c.root.toNat = Nat.ofDigits 256 (((code.drop (c.offset + kRootByteOffset)).take 4).map UInt8.toNat) ∧
            c.available = code.length - c.offset) ∧
    ∀ (pattern : Bytes) (root : UInt32), 4 ≤ (tokens pattern).length →
      parseTrailingRoot (setTrailingRoot pattern root) = root ∧
        ∃ before last, tokens pattern = before ++ last ∧ last.length = 4 ∧
          tokens (setTrailingRoot pattern root) = before ++
            [twoDigits root.toUInt8, twoDigits (root >>> 8).toUInt8, twoDigits (root >>> 16).toUInt8,
              twoDigits (root >>> 24).toUInt8] := by
  refine ⟨fun code => ⟨?_, fun i => tailAt_iff, fun c hc => ?_⟩, fun pattern root hfour => ?_⟩
  · rw [scan_eq, List.map_map]
    exact List.map_id _
  · rw [scan_eq] at hc
    obtain ⟨i, hi, rfl⟩ := List.mem_map.mp hc
    exact ⟨root_candAt (tailAt_iff.mp (List.mem_filter.mp hi).2).1, rfl⟩
  · obtain ⟨front, last, htokens, hlast, hstops, ⟨rest, rfl⟩, hcut⟩ := trailingCut_eq (Nat.lt_of_succ_le hfour) [] none
    rw [List.append_nil] at hcut
    have hset : setTrailingRoot (front ++ rest) root = front ++ rootText root := by
      rw [setTrailingRoot, hcut]
      dsimp only
      rw [List.take_left]
    rw [hset]
    refine ⟨parseTrailingRoot_append hstops root, tokens front, last, htokens, hlast, ?_⟩
    rw [tokens, words_append_of_stops hstops, ← tokens, ← tokens, tokens_rootText]

end SlsteamMoon.IpcFrame
