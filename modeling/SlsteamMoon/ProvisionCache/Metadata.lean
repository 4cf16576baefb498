import SlsteamMoon.KeyValues.Text
import Mathlib.Data.List.Basic

/-! The metadata record beside a cached buffer: its parser, the rule between record and
provenance marker, and the digest it carries. -/
namespace SlsteamMoon.ProvisionCache
open KeyValues

def utf8 (text : String) : Bytes := text.toUTF8.data.toList

theorem utf8_inj {a b : String} : utf8 a = utf8 b ↔ a = b := by
  rw [utf8, utf8, Array.toList_inj]
  constructor
  · intro h
    exact String.toByteArray_inj.mp (ByteArray.ext h)
  · rintro rfl
    rfl

structure CacheMetadataView where
  appId : Nat := 0
  changeNumber : Nat := 0
  wireSize : Nat := 0
  shaBase64 : Bytes := []
  hasNormalized : Bool := false
  normalized : Bool := false
  hasSynthetic : Bool := false
  synthetic : Bool := false
  deriving DecidableEq

/-- The view so far and the keys seen that leave no trace of their own in it. -/
structure Parsed where
  view : CacheMetadataView := {}
  appIdSeen : Bool := false
  wireSizeSeen : Bool := false
  shaSeen : Bool := false
  changeSeen : Bool := false

def isDigit (c : UInt8) : Bool := 0x30 ≤ c && c ≤ 0x39

def isUpper (c : UInt8) : Bool := 0x41 ≤ c && c ≤ 0x5a

def isLower (c : UInt8) : Bool := 0x61 ≤ c && c ≤ 0x7a

def equalsSign : UInt8 := 0x3d

/-- The number of a run of digits whose values `value` gives. -/
def numberOf (base : Nat) (value : UInt8 → Nat) (digits : Bytes) : Nat :=
  digits.foldl (fun n c => n * base + value c) 0

def decimalValue (c : UInt8) : Nat := c.toNat - 0x30

/-- from_chars over the whole value, in 64 bits. -/
def parseUnsigned (value : Bytes) : Option Nat :=
  let number := numberOf 10 decimalValue value
  if value ≠ [] ∧ value.all isDigit ∧ number < 0x10000000000000000 then some number else none

def parseBool (value : Bytes) : Option Bool :=
  if value = utf8 "true" then some true
  else if value = utf8 "false" then some false
  else none

def isBase64 (c : UInt8) : Bool := isUpper c || isLower c || isDigit c || c == 0x2b || c == 0x2f

/-- 27 letters of the alphabet and one '='. -/
def isShaBase64 (value : Bytes) : Bool :=
  value.length = 28 && value.getLast? = some equalsSign && value.dropLast.all isBase64

def maxUInt32 : Nat := 0xffffffff

/-- One branch of the key comparison each; `none` rejects the text. -/
def parseField (p : Parsed) (key value : Bytes) : Option Parsed :=
  if key = utf8 "appid" then
    match parseUnsigned value with
    | some number =>
      if p.appIdSeen ∨ number = 0 ∨ maxUInt32 < number then none
      else some { p with appIdSeen := true, view.appId := number }
    | none => none
  else if key = utf8 "change_number" then
    match parseUnsigned value with
    | some number =>
      if p.changeSeen ∨ maxUInt32 < number then none
      else some { p with changeSeen := true, view.changeNumber := number }
    | none => none
  else if key = utf8 "wire_size" then
    match parseUnsigned value with
    | some number =>
      if p.wireSizeSeen ∨ number = 0 then none
      else some { p with wireSizeSeen := true, view.wireSize := number }
    | none => none
  else if key = utf8 "sha_b64" then
    if p.shaSeen ∨ ¬ isShaBase64 value then none
    else some { p with shaSeen := true, view.shaBase64 := value }
  else if key = utf8 "normalized" then
    match parseBool value with
    | some flag =>
      if p.view.hasNormalized then none
      else some { p with view.hasNormalized := true, view.normalized := flag }
    | none => none
  else if key = utf8 "synthetic" then
    match parseBool value with
    | some flag =>
      if p.view.hasSynthetic then none
      else some { p with view.hasSynthetic := true, view.synthetic := flag }
    | none => none
  else none

/-- The line before and after its first ": ". -/
def splitSeparator : Bytes → Option (Bytes × Bytes)
  | 0x3a :: 0x20 :: rest => some ([], rest)
  | c :: cs => (splitSeparator cs).map fun (key, value) => (c :: key, value)
  | [] => none

def parseLine (p : Parsed) (line : Bytes) : Option Parsed :=
  if line = [] ∨ 0x0d ∈ line then none
  else
    match splitSeparator line with
    | some (key, value) => if key = [] ∨ value = [] then none else parseField p key value
    | none => none

/-- The newline at the end of the text starts no line. -/
def textLines (text : Bytes) : List Bytes :=
  let pieces := text.splitOn newline
  if pieces.getLast? = some [] then pieces.dropLast else pieces

def parseCacheMetadata (text : Bytes) : Option CacheMetadataView :=
  match (textLines text).foldlM parseLine {} with
  | some p => if p.appIdSeen ∧ p.wireSizeSeen ∧ p.shaSeen then some p.view else none
  | none => none

def syntheticMarkerConsistent (synthetic markerPresent : Bool) : Bool := synthetic == markerPresent

def syntheticMarkerPublicationConsistent (synthetic operationSucceeded markerPresent : Bool) : Bool :=
  operationSucceeded && syntheticMarkerConsistent synthetic markerPresent

/-- A record without the field is valid with and without the marker. -/
def syntheticMarkerStateConsistent (hasSyntheticMetadata synthetic markerPresent : Bool) : Bool :=
  !hasSyntheticMetadata || syntheticMarkerConsistent synthetic markerPresent

structure CacheRecordFacts where
  requestedAppId : Nat
  metadataAppId : Nat
  declaredSize : Nat
  actualSize : Nat
  shaSize : Nat
  shaMatches : Bool
  parsed : Bool
  hasUsableContent : Bool

def isCacheRecordValid (facts : CacheRecordFacts) : Bool :=
  facts.requestedAppId ≠ 0 && facts.metadataAppId = facts.requestedAppId && 0 < facts.declaredSize &&
    facts.declaredSize = facts.actualSize && facts.shaSize = 20 && facts.shaMatches && facts.parsed &&
    facts.hasUsableContent

/-- The six bits of a letter of the alphabet. -/
def sextet (c : UInt8) : Option Nat :=
  if isUpper c then some (c.toNat - 0x41)
  else if isLower c then some (c.toNat - 0x61 + 26)
  else if isDigit c then some (c.toNat - 0x30 + 52)
  else if c = 0x2b then some 62
  else if c = 0x2f then some 63
  else none

/-- Two, three or four letters hold one byte less; the bits left over are dropped. -/
def decodeGroup (group : Bytes) : Option Bytes :=
  (group.mapM sextet).map fun sextets =>
    let bits := (sextets ++ List.replicate (4 - group.length) 0).foldl (fun n sextet => n * 64 + sextet) 0
    ([bits / 0x10000, bits / 0x100 % 0x100, bits % 0x100].map UInt8.ofNat).take (group.length - 1)

def decodeGroups : Bytes → Option Bytes
  | a :: b :: c :: d :: rest => do
    let first ← decodeGroup [a, b, c, d]
    let others ← decodeGroups rest
    return first ++ others
  | _ => some []

def fromBase64 (data : Bytes) : Except String Bytes :=
  let numPadding := (data.drop (data.length - 4)).count equalsSign
  if data = [] then .ok []
  else if data.length % 4 ≠ 0 then .error "Invalid base64 encoded data - Size not divisible by 4"
  else if 2 < numPadding then .error "Invalid base64 encoded data - Found more than 2 padding signs"
  else
    let full := if numPadding = 0 then data.length else data.length - 4
    let last := if numPadding = 0 then some [] else decodeGroup ((data.drop full).take (4 - numPadding))
    match decodeGroups (data.take full), last with
    | some decoded, some tail => .ok (decoded ++ tail)
    | _, _ => .error "Invalid base64 encoded data - Invalid character"

example : fromBase64 (utf8 "TWFu") = .ok (utf8 "Man") ∧ fromBase64 (utf8 "TWE=") = .ok (utf8 "Ma") := by decide

end SlsteamMoon.ProvisionCache

/-! The base64 text of a digest, and that it decodes to the digest. -/
namespace SlsteamMoon.ProvisionCache
open KeyValues

/-- The letter of six bits. -/
def letter (n : Nat) : UInt8 :=
  if n < 26 then UInt8.ofNat (0x41 + n)
  else if n < 52 then UInt8.ofNat (0x61 + (n - 26))
  else if n < 62 then UInt8.ofNat (0x30 + (n - 52))
  else if n = 62 then 0x2b
  else 0x2f

def toBase64 : Bytes → Bytes
  | a :: b :: c :: rest =>
    letter (a.toNat / 4) :: letter (a.toNat % 4 * 16 + b.toNat / 16) ::
      letter (b.toNat % 16 * 4 + c.toNat / 64) :: letter (c.toNat % 64) :: toBase64 rest
  | [a, b] =>
    [letter (a.toNat / 4), letter (a.toNat % 4 * 16 + b.toNat / 16), letter (b.toNat % 16 * 4), equalsSign]
  | [a] => [letter (a.toNat / 4), letter (a.toNat % 4 * 16), equalsSign, equalsSign]
  | [] => []

example : toBase64 (utf8 "Man") = utf8 "TWFu" ∧ toBase64 (utf8 "Ma") = utf8 "TWE=" := by decide

private theorem letter_sound : ∀ n < 64, sextet (letter n) = some n ∧ isBase64 (letter n) = true := by decide +kernel

private theorem isBase64_equalsSign : isBase64 equalsSign = false := by decide

@[simp] theorem sextet_letter {n : Nat} (h : n < 64) : sextet (letter n) = some n := (letter_sound n h).1

private theorem letter_ne_equalsSign {c : UInt8} (h : isBase64 c = true) : c ≠ equalsSign := by
  rintro rfl
  rw [isBase64_equalsSign] at h
  cases h

private theorem toBase64_append {front : Bytes} (h : 3 ∣ front.length) (rest : Bytes) :
    toBase64 (front ++ rest) = toBase64 front ++ toBase64 rest := by
  induction front using toBase64.induct with
  | case1 a b c front ih =>
    have hfront : 3 ∣ front.length := by
      simp only [List.length_cons] at h
      omega
    simp only [List.cons_append, toBase64, ih hfront]
  | case2 a b => exact absurd h (by simp only [List.length_cons, List.length_nil]; omega)
  | case3 a => exact absurd h (by simp only [List.length_cons, List.length_nil]; omega)
  | case4 => rfl

/-- Twenty-four bits are three bytes. -/
theorem bytes_of_bits (a b c : UInt8) {bits : Nat} (h : bits = a.toNat * 0x10000 + b.toNat * 0x100 + c.toNat) :
    [bits / 0x10000, bits / 0x100 % 0x100, bits % 0x100].map UInt8.ofNat = [a, b, c] := by
  have hb := b.toNat_lt
  have hc := c.toNat_lt
  have hfirst : bits / 0x10000 = a.toNat := by omega
  have hsecond : bits / 0x100 % 0x100 = b.toNat := by omega
  have hthird : bits % 0x100 = c.toNat := by omega
  rw [hfirst, hsecond, hthird, List.map_cons, List.map_cons, List.map_cons, List.map_nil, UInt8.ofNat_toNat,
    UInt8.ofNat_toNat, UInt8.ofNat_toNat]

/-- The letters of three bytes. -/
theorem decodeGroup_triple (a b c : UInt8) :
    decodeGroup [letter (a.toNat / 4), letter (a.toNat % 4 * 16 + b.toNat / 16),
      letter (b.toNat % 16 * 4 + c.toNat / 64), letter (c.toNat % 64)] = some [a, b, c] := by
  have ha := a.toNat_lt
  have hb := b.toNat_lt
  have hc := c.toNat_lt
  rw [decodeGroup, List.mapM_cons, List.mapM_cons, List.mapM_cons, List.mapM_cons, List.mapM_nil,
    sextet_letter (by omega), sextet_letter (by omega), sextet_letter (by omega), sextet_letter (by omega)]
  refine congrArg some (congrArg (List.take 3) (bytes_of_bits a b c ?_))
  simp
  omega

/-- The letters of two bytes that are left over. -/
theorem decodeGroup_pair (a b : UInt8) :
    decodeGroup [letter (a.toNat / 4), letter (a.toNat % 4 * 16 + b.toNat / 16), letter (b.toNat % 16 * 4)] =
      some [a, b] := by
  have ha := a.toNat_lt
  have hb := b.toNat_lt
  rw [decodeGroup, List.mapM_cons, List.mapM_cons, List.mapM_cons, List.mapM_nil,
    sextet_letter (by omega), sextet_letter (by omega), sextet_letter (by omega)]
  refine congrArg some (congrArg (List.take 2) (bytes_of_bits a b 0 ?_))
  simp
  omega

/-- Whole groups hold letters only, four for three bytes, and decode to the bytes. -/
theorem toBase64_groups {front : Bytes} (h : 3 ∣ front.length) :
    decodeGroups (toBase64 front) = some front ∧ (toBase64 front).length = front.length / 3 * 4 ∧
      ∀ c ∈ toBase64 front, isBase64 c = true := by
  induction front using toBase64.induct with
  | case1 a b c front ih =>
    rw [List.length_cons, List.length_cons, List.length_cons] at h
    obtain ⟨hdecode, hlength, hletters⟩ := ih (by omega)
    have ha := a.toNat_lt
    have hb := b.toNat_lt
    have hc := c.toNat_lt
    refine ⟨?_, ?_, ?_⟩
    · rw [toBase64, decodeGroups, decodeGroup_triple, hdecode]
      rfl
    · simp only [toBase64, List.length_cons, hlength]
      omega
    · simp only [toBase64, List.forall_mem_cons]
      exact ⟨(letter_sound _ (by omega)).2, (letter_sound _ (by omega)).2, (letter_sound _ (by omega)).2,
        (letter_sound _ (by omega)).2, hletters⟩
  | case2 a b => exact absurd h (by simp only [List.length_cons, List.length_nil]; omega)
  | case3 a => exact absurd h (by simp only [List.length_cons, List.length_nil]; omega)
  | case4 => exact ⟨rfl, rfl, List.forall_mem_nil _⟩

/-- A digest is six groups and two bytes. -/
theorem exists_groups {data : Bytes} (h : data.length % 3 = 2) :
    ∃ front a b, data = front ++ [a, b] ∧ 3 ∣ front.length := by
  obtain ⟨a, b, hab⟩ := List.length_eq_two.mp
    (show (data.drop (data.length - 2)).length = 2 by rw [List.length_drop]; omega)
  refine ⟨data.take (data.length - 2), a, b, ?_, ?_⟩
  · rw [← hab, List.take_append_drop]
  · rw [List.length_take]
    omega

/-- The text of whole groups and two bytes. -/
theorem toBase64_pair {front : Bytes} (h : 3 ∣ front.length) (a b : UInt8) :
    ∃ group : Bytes, toBase64 (front ++ [a, b]) = toBase64 front ++ (group ++ [equalsSign]) ∧ group.length = 3 ∧
      decodeGroup group = some [a, b] ∧ ∀ c ∈ group, isBase64 c = true := by
  have ha := a.toNat_lt
  have hb := b.toNat_lt
  refine ⟨_, toBase64_append h [a, b], rfl, decodeGroup_pair a b, ?_⟩
  simp only [List.forall_mem_cons]
  exact ⟨(letter_sound _ (by omega)).2, (letter_sound _ (by omega)).2, (letter_sound _ (by omega)).2,
    List.forall_mem_nil _⟩

theorem fromBase64_toBase64 {data : Bytes} (h : data.length % 3 = 2) : fromBase64 (toBase64 data) = .ok data := by
  obtain ⟨front, a, b, rfl, hfront⟩ := exists_groups h
  obtain ⟨hdecode, hlength, -⟩ := toBase64_groups hfront
  obtain ⟨group, htext, hgroup, hlast, hletters⟩ := toBase64_pair hfront a b
  have hsize : (toBase64 front ++ (group ++ [equalsSign])).length - 4 = (toBase64 front).length := by
    simp only [List.length_append, List.length_cons, List.length_nil, hgroup]
    omega
  have hcount : (group ++ [equalsSign]).count equalsSign = 1 := by
    rw [List.count_append, List.count_eq_zero_of_not_mem fun hmem => letter_ne_equalsSign (hletters _ hmem) rfl]
    rfl
  have htake : (group ++ [equalsSign]).take (4 - 1) = group := List.take_left' hgroup
  have hne : toBase64 front ++ (group ++ [equalsSign]) ≠ [] := by simp
  have hmod : (toBase64 front ++ (group ++ [equalsSign])).length % 4 = 0 := by
    simp only [List.length_append, List.length_cons, List.length_nil, hgroup, hlength]
    omega
  rw [htext, fromBase64]
  simp only [hsize, List.drop_left, hcount, hmod, if_neg hne, ne_eq, not_true_eq_false, Nat.reduceLT, Nat.one_ne_zero,
    if_false, List.take_left, hdecode, htake, hlast]

/-- The text of a digest is what the reader takes for one. -/
theorem isShaBase64_toBase64 {sha : Bytes} (h : sha.length = 20) : isShaBase64 (toBase64 sha) = true := by
  obtain ⟨front, a, b, rfl, hfront⟩ := exists_groups (show sha.length % 3 = 2 by omega)
  obtain ⟨-, hlength, hfrontLetters⟩ := toBase64_groups hfront
  obtain ⟨group, htext, hgroup, -, hletters⟩ := toBase64_pair hfront a b
  have hsize : front.length = 18 := by simpa using h
  rw [htext, isShaBase64, ← List.append_assoc, List.getLast?_concat, List.dropLast_concat, List.all_append,
    List.all_eq_true.mpr hfrontLetters, List.all_eq_true.mpr hletters]
  simp [hlength, hgroup, hsize]

end SlsteamMoon.ProvisionCache
