import SlsteamMoon.ProvisionCache.Metadata
import SlsteamMoon.KeyValues.Printed

/-! CmVdfReader over a cached wire buffer, and the content depots it must name. -/
namespace SlsteamMoon.ProvisionCache
open KeyValues

/-- What a map node holds under a key. -/
inductive Value
  | scalar (value : Bytes)
  | object (children : Pairs)
  deriving DecidableEq

def Value.pair (key : Bytes) : Value → Pairs → Pairs
  | .scalar value, rest => .leaf key value rest
  | .object children, rest => .node key children rest

/-- node[key] = value: a key that is there keeps its place. -/
def assign (key : Bytes) (value : Value) : Pairs → Pairs
  | .nil => value.pair key .nil
  | .leaf k v rest => if k = key then value.pair key rest else .leaf k v (assign key value rest)
  | .node k children rest => if k = key then value.pair key rest else .node k children (assign key value rest)

def find (key : Bytes) : Pairs → Option Value
  | .nil => none
  | .leaf k v rest => if k = key then some (.scalar v) else find key rest
  | .node k children rest => if k = key then some (.object children) else find key rest

theorem find_pair_self (key : Bytes) (value : Value) (rest : Pairs) : find key (value.pair key rest) = some value := by
  cases value with
  | scalar v => simp [Value.pair, find]
  | object children => simp [Value.pair, find]

theorem find_pair_ne {key other : Bytes} (h : key ≠ other) (value : Value) (rest : Pairs) :
    find other (value.pair key rest) = find other rest := by
  cases value with
  | scalar v => simp [Value.pair, find, h]
  | object children => simp [Value.pair, find, h]

/-- The last assignment to a key is what it holds. -/
theorem find_assign (key other : Bytes) (value : Value) (pairs : Pairs) :
    find other (assign key value pairs) = if key = other then some value else find other pairs := by
  split
  · next heq =>
    subst heq
    induction pairs with
    | nil => exact find_pair_self key value .nil
    | leaf k v rest ih =>
      by_cases hk : k = key
      · simp only [assign, if_pos hk]
        exact find_pair_self key value rest
      · simp only [assign, if_neg hk, find, ih]
    | node k children rest _ ih =>
      by_cases hk : k = key
      · simp only [assign, if_pos hk]
        exact find_pair_self key value rest
      · simp only [assign, if_neg hk, find, ih]
  · next hne =>
    induction pairs with
    | nil => exact find_pair_ne hne value .nil
    | leaf k v rest ih =>
      by_cases hk : k = key
      · subst hk
        simp only [assign, if_true, find_pair_ne hne, find, if_neg hne]
      · simp only [assign, if_neg hk, find, ih]
    | node k children rest _ ih =>
      by_cases hk : k = key
      · subst hk
        simp only [assign, if_true, find_pair_ne hne, find, if_neg hne]
      · simp only [assign, if_neg hk, find, ih]

/-- One unit of fuel for a pair. Whatever is malformed ends the object it is in. -/
def parseObject : Nat → Pairs → Bytes → Pairs × Bytes
  | 0, node, input => (node, input)
  | fuel + 1, node, input =>
    match next input with
    | (.string key, afterKey) =>
      match next afterKey with
      | (.openBrace, inside) =>
        let child := parseObject fuel .nil inside
        parseObject fuel (assign key (.object child.1) node) child.2
      | (.string value, rest) => parseObject fuel (assign key (.scalar value) node) rest
      | (_, rest) => (node, rest)
    | (_, rest) => (node, rest)

def parseAppinfo (wire : Bytes) : Option Pairs :=
  match next wire with
  | (.string _, rest) =>
    match next rest with
    | (.openBrace, inside) => some (parseObject inside.length .nil inside).1
    | _ => none
  | _ => none

private theorem next_finished {input rest : Bytes} (h : next input = (.finished, rest)) : rest = [] := by
  rw [next] at h
  split at h
  · cases h
    rfl
  · split at h
    · cases h
    · split at h
      · cases h
      · split at h
        · split at h
          · cases h
          · cases h
            rfl
        · cases h

private theorem next_length_le {input : Bytes} {tok : Tok} {rest : Bytes} (h : next input = (tok, rest)) :
    rest.length ≤ input.length := by
  by_cases htok : tok = .finished
  · subst htok
    simp [next_finished h]
  · exact (lexes_next h htok).length_lt.le

private theorem parseObject_length_le (fuel : Nat) (node : Pairs) (input : Bytes) :
    (parseObject fuel node input).2.length ≤ input.length := by
  induction fuel generalizing node input with
  | zero => exact le_rfl
  | succ fuel ih =>
    rw [parseObject]
    split
    · next key afterKey hkey =>
      have hafter : afterKey.length ≤ input.length := next_length_le hkey
      split
      · next inside hbrace =>
        have hinside : inside.length ≤ afterKey.length := next_length_le hbrace
        have hchild := ih .nil inside
        exact (ih _ _).trans (hchild.trans (hinside.trans hafter))
      · next value rest hvalue => exact (ih _ _).trans ((next_length_le hvalue).trans hafter)
      · next rest _ _ hother => exact (next_length_le hother).trans hafter
    · next rest _ hother => exact next_length_le hother

/-- More fuel than bytes changes nothing. -/
theorem parseObject_fuel (fuel : Nat) (node : Pairs) (input : Bytes) (h : input.length ≤ fuel) :
    parseObject (fuel + 1) node input = parseObject fuel node input := by
  induction fuel generalizing node input with
  | zero =>
    obtain rfl := List.eq_nil_of_length_eq_zero (Nat.le_zero.mp h)
    rfl
  | succ fuel ih =>
    rw [parseObject, parseObject]
    split
    · next key afterKey hkey =>
      have hafter := (lexes_next hkey Tok.noConfusion).length_lt
      split
      · next inside hbrace =>
        have hinside := (lexes_next hbrace Tok.noConfusion).length_lt
        have hchild := parseObject_length_le fuel .nil inside
        dsimp only
        rw [ih .nil inside (by omega), ih _ _ (by omega)]
      · next value rest hvalue =>
        have hrest := (lexes_next hvalue Tok.noConfusion).length_lt
        exact ih _ rest (by omega)
      · rfl
    · rfl

/-- Does some entry of the map satisfy the test? -/
def anyEntry (test : Bytes → Value → Bool) : Pairs → Bool
  | .nil => false
  | .leaf key value rest => test key (.scalar value) || anyEntry test rest
  | .node key children rest => test key (.object children) || anyEntry test rest

def isHexDigit (c : UInt8) : Bool := isDigit c || (0x41 ≤ c && c ≤ 0x46) || (0x61 ≤ c && c ≤ 0x66)

def hexValue (c : UInt8) : Nat := if isDigit c then c.toNat - 0x30 else (c.toNat - 0x41) % 0x20 + 10

def isSpace (c : UInt8) : Bool := c == 0x20 || (0x09 ≤ c && c ≤ 0x0d)

/-- Digits of one base, in 64 bits, and white space after them. -/
def extractUInt64 (base : Nat) (isBaseDigit : UInt8 → Bool) (digits : Bytes) : Option Nat :=
  let number := numberOf base hexValue (digits.takeWhile isBaseDigit)
  if digits.takeWhile isBaseDigit ≠ [] ∧ (digits.dropWhile isBaseDigit).all isSpace ∧
      number < 0x10000000000000000 then some number
  else none

/-- as<uint64_t> of a scalar: the stream detects the base. -/
def asUInt64 (value : Bytes) : Option Nat :=
  match if value.head? = some 0x2b then value.tail else value with
  | 0x30 :: x :: digits =>
    if x = 0x78 ∨ x = 0x58 then extractUInt64 16 isHexDigit digits
    else extractUInt64 8 (fun c => 0x30 ≤ c && c ≤ 0x37) (0x30 :: x :: digits)
  | digits => extractUInt64 10 isDigit digits

/-- A branch of a manifest whose gid is a number other than zero. -/
def hasGid : Value → Bool
  | .object branch =>
    match find (utf8 "gid") branch with
    | some (.scalar gid) => (asUInt64 gid).any (· ≠ 0)
    | _ => false
  | .scalar _ => false

def hasManifest : Value → Bool
  | .object depot =>
    match find (utf8 "manifests") depot with
    | some (.object manifests) => anyEntry (fun _ branch => hasGid branch) manifests
    | _ => false
  | .scalar _ => false

def hasUsableContentDepot (body : Pairs) : Bool :=
  match find (utf8 "depots") body with
  | some (.object depots) => anyEntry (fun key depot => key ≠ [] && key.all isDigit && hasManifest depot) depots
  | _ => false

end SlsteamMoon.ProvisionCache

/-! `std::to_string` of an unsigned number, and what reads it back. -/
namespace SlsteamMoon.ProvisionCache
open KeyValues

def toDecimal (n : Nat) : Bytes := (Nat.toDigits 10 n).map fun c => UInt8.ofNat c.toNat

private theorem digit_byte {c : Char} (h : c.isDigit = true) :
    isDigit (UInt8.ofNat c.toNat) = true ∧ (UInt8.ofNat c.toNat).toNat = c.toNat := by
  simp only [Char.isDigit, Bool.and_eq_true, decide_eq_true_eq, UInt32.le_iff_toNat_le] at h
  have hlow : 48 ≤ c.toNat := h.1
  have hhigh : c.toNat ≤ 57 := h.2
  have hbyte : (UInt8.ofNat c.toNat).toNat = c.toNat := by
    rw [UInt8.toNat_ofNat']
    omega
  refine ⟨?_, hbyte⟩
  simp only [isDigit, Bool.and_eq_true, decide_eq_true_eq, UInt8.le_iff_toNat_le, hbyte]
  exact ⟨hlow, hhigh⟩

/-- A digit is neither white space nor a sign. -/
theorem digit_front {c : UInt8} (h : isDigit c = true) : isSpace c = false ∧ c ≠ 0x2b ∧ c ≠ 0x2d := by
  refine ⟨?_, ?_, ?_⟩
  · simp only [isDigit, Bool.and_eq_true, decide_eq_true_eq, UInt8.le_iff_toNat_le] at h
    simp only [isSpace, Bool.or_eq_false_iff, Bool.and_eq_false_iff, decide_eq_false_iff_not, UInt8.le_iff_toNat_le,
      beq_eq_false_iff_ne, ne_eq, ← UInt8.toNat_inj]
    have hlow : 48 ≤ c.toNat := h.1
    exact ⟨fun h => by rw [h] at hlow; exact absurd hlow (by decide), .inr fun h => absurd (hlow.trans h) (by decide)⟩
  · rintro rfl
    exact absurd h (by decide)
  · rintro rfl
    exact absurd h (by decide)

private theorem isDigit_toDigits {n : Nat} {c : Char} (h : c ∈ Nat.toDigits 10 n) : c.isDigit = true :=
  Nat.isDigit_of_mem_toDigits (by decide) (by decide) h

theorem toDecimal_all_isDigit (n : Nat) : (toDecimal n).all isDigit = true := by
  rw [toDecimal, List.all_map, List.all_eq_true]
  exact fun c hc => (digit_byte (isDigit_toDigits hc)).1

private theorem isSpecial_of_isDigit {c : UInt8} (h : isDigit c = true) : isSpecial c = false ∧ c ≠ backslash := by
  rw [isDigit, Bool.and_eq_true, decide_eq_true_eq, decide_eq_true_eq, UInt8.le_iff_toNat_le, UInt8.le_iff_toNat_le] at h
  refine ⟨?_, ?_⟩
  · by_contra hspecial
    rw [Bool.not_eq_false, isSpecial, isBlank] at hspecial
    simp only [Bool.or_eq_true, beq_iff_eq] at hspecial
    rcases hspecial with (((((rfl | rfl) | rfl) | rfl) | rfl) | rfl) | rfl <;> exact absurd h (by decide)
  · rintro rfl
    exact absurd h (by decide)

theorem toDecimal_ne_nil (n : Nat) : toDecimal n ≠ [] := by
  rw [toDecimal, Ne, List.map_eq_nil_iff]
  exact Nat.toDigits_ne_nil

theorem keyWord_toDecimal (n : Nat) : KeyWord (toDecimal n) :=
  ⟨toDecimal_ne_nil n, fun c hc => isSpecial_of_isDigit (List.all_eq_true.mp (toDecimal_all_isDigit n) c hc)⟩

private theorem numberOf_chars (cs : List Char) (hdigits : ∀ c ∈ cs, c.isDigit = true) (init : Nat) :
    (cs.map fun c => UInt8.ofNat c.toNat).foldl (fun n c => n * 10 + decimalValue c) init =
      Nat.ofDigitChars 10 cs init := by
  induction cs generalizing init with
  | nil => rfl
  | cons c cs ih =>
    have hbyte : decimalValue (UInt8.ofNat c.toNat) = c.toNat - '0'.toNat := by
      rw [decimalValue, (digit_byte (hdigits c List.mem_cons_self)).2]
      rfl
    rw [List.map_cons, List.foldl_cons, ih (fun d hd => hdigits d (List.mem_cons_of_mem c hd)), hbyte,
      Nat.ofDigitChars_cons, Nat.mul_comm]

theorem numberOf_toDecimal (n : Nat) : numberOf 10 decimalValue (toDecimal n) = n := by
  rw [numberOf, toDecimal, numberOf_chars _ fun c => isDigit_toDigits, Nat.ofDigitChars_ten_toDigits]

theorem toDecimal_injective : Function.Injective toDecimal := by
  intro m n h
  rw [← numberOf_toDecimal m, h, numberOf_toDecimal]

/-- A number other than zero is written without a leading zero. -/
theorem toDigits_head {n : Nat} (h : 0 < n) : (Nat.toDigits 10 n).head? ≠ some '0' := by
  induction n using Nat.strongRecOn with
  | ind n ih =>
    rw [Nat.toDigits_eq_if (by decide)]
    split_ifs with hlt
    · have hall : ∀ k : Fin 10, 0 < k.val → [k.val.digitChar].head? ≠ some '0' := by decide
      exact hall ⟨n, hlt⟩ h
    · rw [List.head?_append_of_ne_nil _ Nat.toDigits_ne_nil]
      exact ih (n / 10) (by omega) (by omega)

theorem toDecimal_zero : toDecimal 0 = [0x30] := by decide

theorem toDecimal_head {n : Nat} (h : 0 < n) : (toDecimal n).head? ≠ some 0x30 := by
  rw [toDecimal, List.head?_map]
  intro hhead
  obtain ⟨c, hc, hbyte⟩ := Option.map_eq_some_iff.mp hhead
  have hdigit := digit_byte (isDigit_toDigits (List.mem_of_mem_head? hc))
  rw [hbyte] at hdigit
  have hzero : c = '0' := Char.ext (UInt32.toNat_inj.mp hdigit.2.symm)
  rw [hzero] at hc
  exact toDigits_head h hc

private theorem extractUInt64_toDecimal {n : Nat} (h : n < 0x10000000000000000) :
    extractUInt64 10 isDigit (toDecimal n) = some n := by
  have hall : ∀ c ∈ toDecimal n, isDigit c = true := List.all_eq_true.mp (toDecimal_all_isDigit n)
  have htake : (toDecimal n).takeWhile isDigit = toDecimal n := List.takeWhile_eq_self_iff.mpr hall
  have hdrop : (toDecimal n).dropWhile isDigit = [] := List.dropWhile_eq_nil_iff.mpr hall
  have hvalue : numberOf 10 hexValue (toDecimal n) = n := by
    have hsame : ∀ (ds : Bytes), (∀ c ∈ ds, isDigit c = true) → ∀ init : Nat,
        ds.foldl (fun n c => n * 10 + hexValue c) init = ds.foldl (fun n c => n * 10 + decimalValue c) init := by
      intro ds hds
      induction ds with
      | nil => exact fun _ => rfl
      | cons c ds ih =>
        intro init
        have hc : hexValue c = decimalValue c := by rw [hexValue, if_pos (hds c List.mem_cons_self), decimalValue]
        rw [List.foldl_cons, List.foldl_cons, hc, ih fun d hd => hds d (List.mem_cons_of_mem c hd)]
    rw [numberOf, hsame _ hall, ← numberOf, numberOf_toDecimal]
  rw [extractUInt64, htake, hdrop, hvalue, if_pos ⟨toDecimal_ne_nil n, rfl, h⟩]

/-- The number that was written is read, in base ten. -/
theorem asUInt64_toDecimal {n : Nat} (h : n < 0x10000000000000000) : asUInt64 (toDecimal n) = some n := by
  have hextract := extractUInt64_toDecimal h
  rcases Nat.eq_zero_or_pos n with rfl | hpos
  · rw [toDecimal_zero] at hextract ⊢
    exact hextract
  · obtain ⟨c, cs, hcs⟩ := List.exists_cons_of_ne_nil (toDecimal_ne_nil n)
    have hhead := toDecimal_head hpos
    have hdigit : isDigit c = true := List.all_eq_true.mp (toDecimal_all_isDigit n) c (by rw [hcs]; exact List.mem_cons_self)
    have hplus : c ≠ 0x2b := by
      rintro rfl
      exact absurd hdigit (by decide)
    rw [hcs] at hextract hhead ⊢
    have hzero : c ≠ 0x30 := fun hc => hhead (by rw [hc]; rfl)
    rw [asUInt64, List.head?_cons, if_neg (by simpa using hplus)]
    split
    · next heq => exact absurd (List.cons.inj heq).1 hzero
    · exact hextract

end SlsteamMoon.ProvisionCache
