import SlsteamMoon.Signatures.Readers
import SlsteamMoon.ProvisionCache.CmVdf
import SlsteamMoon.Utf8Scan
import SlsteamMoon.CheckedReads

/-! The parser of a pattern catalog. A text is its bytes, and a rejected one has its message. -/
namespace SlsteamMoon.PatternCatalog
open KeyValues Utf8Scan
open ProvisionCache (utf8 isDigit isUpper isLower parseUnsigned)
open Signatures (isSignature)

def kMaximumBodySize : Nat := 256 * 1024
def kConsumerSchema : UInt64 := 1
def maxUInt32 : UInt64 := 0xffffffff

def carriageReturn : UInt8 := 0x0d

structure ModuleIdentity where
  component : Bytes
  moduleName : Bytes
  sha256 : Bytes
  size : UInt64
  gnuBuildId : Bytes

structure Locator where
  symbol : Bytes
  name : Bytes
  targetRva : UInt32
  matchRva : Option UInt32
  signature : Bytes
  followMode : Bytes
  resolver : Bytes
  required : Bool
  matchCount : UInt32
  targetCount : UInt32
  deriving DecidableEq

structure Catalog where
  component : Bytes
  revision : UInt64
  locators : List Locator
  deriving DecidableEq

def isHexDigit (c : UInt8) : Bool := isDigit c || (0x61 ≤ c && c ≤ 0x66)

def isLowerHex (value : Bytes) : Bool := value ≠ [] && value.all isHexDigit

def isLowerHexOf (exact : Nat) (value : Bytes) : Bool := value.length = exact && isLowerHex value

def isSafe (c : UInt8) : Bool := 0x20 ≤ c && c ≠ quote && c ≠ backslash

def isSafeText (value : Bytes) : Bool := value ≠ [] && value.all isSafe

def isSymbolByte (c : UInt8) : Bool := isUpper c || isLower c || isDigit c || c == 0x5f || c == 0x3a

def symbolPrefix : Bytes := utf8 "Patterns::"

def isSymbol (value : Bytes) : Bool :=
  symbolPrefix.isPrefixOf value && symbolPrefix.length < value.length && (value.drop symbolPrefix.length).all isSymbolByte

def isLowerOrDigit (c : UInt8) : Bool := isLower c || isDigit c

def isResolver (value : Bytes) : Bool :=
  match value with
  | [] => false
  | front :: rest => value.length ≤ 64 && isLowerOrDigit front && rest.all fun c => isLowerOrDigit c || c == 0x2d

def followModes : List Bytes := [utf8 "None", utf8 "Relative", utf8 "PrologueUpwards"]

def sources : List Bytes := [utf8 "deterministic", utf8 "model-validated"]

abbrev Lines := List Bytes

def splitLines (body : Bytes) : Lines := body.dropLast.splitOn newline

/-- The value of a line that begins with its key and a quote and ends with another quote. -/
def stringOf (key line : Bytes) : Option Bytes :=
  let keyed := key ++ utf8 " = \""
  if ¬keyed <+: line ∨ line.length ≤ keyed.length ∨ line.getLast? ≠ some quote then none
  else
    let value := (line.drop keyed.length).dropLast
    if isSafeText value then some value else none

def stringLine (lines : Lines) (index : Nat) (key : String) : Option Bytes := lines[index]?.bind (stringOf (utf8 key))

/-- The number of a line, in the digits that it is written with. -/
def integerOf (key line : Bytes) : Option UInt64 :=
  let keyed := key ++ utf8 " = "
  if ¬keyed <+: line then none
  else
    let digits := line.drop keyed.length
    if 1 < digits.length ∧ digits.head? = some 0x30 then none else (parseUnsigned digits).map UInt64.ofNat

def integerLine (lines : Lines) (index : Nat) (key : String) : Option UInt64 := lines[index]?.bind (integerOf (utf8 key))

/-- A header with its fields as they are read. -/
structure Header where
  schema : UInt64
  platform : Bytes
  component : Bytes
  moduleName : Bytes
  moduleSha256 : Bytes
  moduleSize : UInt64
  gnuBuildId : Bytes
  steamVersion : UInt64
  consumerCommit : Bytes
  minimumConsumerSchema : UInt64
  revision : UInt64
  source : Bytes
  deriving DecidableEq

def readHeader (lines : Lines) : Option Header := do
  let schema ← integerLine lines 0 "schema"
  let platform ← stringLine lines 1 "platform"
  let component ← stringLine lines 2 "component"
  let moduleName ← stringLine lines 3 "module_name"
  let moduleSha256 ← stringLine lines 4 "module_sha256"
  let moduleSize ← integerLine lines 5 "module_size"
  let gnuBuildId ← stringLine lines 6 "gnu_build_id"
  let steamVersion ← integerLine lines 7 "steam_version"
  let consumerCommit ← stringLine lines 8 "consumer_commit"
  let minimumConsumerSchema ← integerLine lines 9 "minimum_consumer_schema"
  let revision ← integerLine lines 10 "revision"
  let source ← stringLine lines 11 "source"
  return ⟨schema, platform, component, moduleName, moduleSha256, moduleSize, gnuBuildId, steamVersion, consumerCommit,
    minimumConsumerSchema, revision, source⟩

/-- The header is one of the module. -/
def matchesModule (expected : ModuleIdentity) (header : Header) : Bool :=
  header.schema = 1 && header.platform = utf8 "linux32" && header.component = expected.component &&
    header.moduleName = expected.moduleName && header.moduleSha256 = expected.sha256 &&
    isLowerHexOf 64 header.moduleSha256 && header.moduleSize = expected.size && header.moduleSize ≠ 0 &&
    header.gnuBuildId = expected.gnuBuildId && isLowerHex header.gnuBuildId && header.steamVersion ≠ 0 &&
    isLowerHexOf 40 header.consumerCommit && header.minimumConsumerSchema = kConsumerSchema && header.revision ≠ 0 &&
    sources.contains header.source

def reject {α : Type} (message : String) : Option α → Except String α
  | some value => .ok value
  | none => .error message

/-- A condition that rejects the text when it does not hold. -/
def expect (message : String) (good : Bool) : Except String Unit := if good then .ok () else .error message

def isRva (value : UInt64) : Bool := value ≠ 0 && value ≤ maxUInt32

/-- The symbol, the name and the target of a block. -/
def readIdentity (lines : Lines) (cursor : Nat) (size : UInt64) : Option (Bytes × Bytes × UInt32) := do
  let symbol ← (stringLine lines (cursor + 2) "symbol").filter isSymbol
  let name ← stringLine lines (cursor + 3) "name"
  let target ← (integerLine lines (cursor + 4) "target_rva").filter fun target => isRva target && target < size
  return (symbol, name, target.toUInt32)

/-- The line that may be missing. -/
def readMatch (lines : Lines) (cursor : Nat) : Option (Option UInt32) :=
  if lines[cursor]?.any fun line => (utf8 "match_rva = ").isPrefixOf line then
    ((integerLine lines cursor "match_rva").filter isRva).map fun value => some value.toUInt32
  else some none

/-- The signature, the mode and the resolver of a block. -/
def readResolver (lines : Lines) (cursor : Nat) : Option (Bytes × Bytes × Bytes) :=
  if lines.length ≤ cursor + 5 then none
  else do
    let signature ← (stringLine lines cursor "signature").filter isSignature
    let followMode ← (stringLine lines (cursor + 1) "follow_mode").filter followModes.contains
    let resolver ← (stringLine lines (cursor + 2) "resolver").filter isResolver
    return (signature, followMode, resolver)

def readRequired (lines : Lines) (cursor : Nat) : Option Bool :=
  if lines[cursor + 3]? = some (utf8 "required = true") then some true
  else if lines[cursor + 3]? = some (utf8 "required = false") then some false
  else none

def readCounts (lines : Lines) (cursor : Nat) : Option (UInt32 × UInt32) := do
  let matchCount ← (integerLine lines (cursor + 4) "match_count").filter isRva
  let targetCount ← (integerLine lines (cursor + 5) "target_count").filter (· = 1)
  return (matchCount.toUInt32, targetCount.toUInt32)

def atBoundary (lines : Lines) (cursor : Nat) : Bool :=
  cursor + 10 < lines.length && lines[cursor]? = some [] && lines[cursor + 1]? = some (utf8 "[[locators]]")

/-- The place behind the fields of the identity, and behind the optional line. -/
def behindMatch (cursor : Nat) (matchRva : Option UInt32) : Nat := cursor + 5 + if matchRva.isSome then 1 else 0

def readLocator (lines : Lines) (size : UInt64) (cursor : Nat) : Except String Locator := do
  expect "locator boundary is invalid" (atBoundary lines cursor)
  let (symbol, name, targetRva) ← reject "locator identity or target RVA is invalid" (readIdentity lines cursor size)
  let matchRva ← reject "locator match RVA is invalid" (readMatch lines (cursor + 5))
  let cursor := behindMatch cursor matchRva
  let (signature, followMode, resolver) ← reject "locator resolver fields are invalid" (readResolver lines cursor)
  let required ← reject "locator required policy is invalid" (readRequired lines cursor)
  let (matchCount, targetCount) ← reject "locator resolution counts are invalid" (readCounts lines cursor)
  return ⟨symbol, name, targetRva, matchRva, signature, followMode, resolver, required, matchCount, targetCount⟩

def known (locators : List Locator) (locator : Locator) : Bool :=
  locators.any fun other => other.symbol = locator.symbol || other.name = locator.name

/-- The blocks from a line on, behind those that are read. -/
def readLocators (lines : Lines) (size : UInt64) (cursor : Nat) (locators : List Locator) : Except String (List Locator) :=
  if cursor < lines.length then
    match readLocator lines size cursor with
    | .error message => .error message
    | .ok locator =>
      if known locators locator then .error "locator identity is duplicated"
      else readLocators lines size (behindMatch cursor locator.matchRva + 6) (locators ++ [locator])
  else .ok locators
termination_by lines.length - cursor
decreasing_by
  rw [behindMatch]
  omega

def parseCanonical (body : Bytes) (expected : ModuleIdentity) : Except String Catalog := do
  expect "metadata size or final LF is invalid"
    (body ≠ [] && body.length ≤ kMaximumBodySize && body.getLast? = some newline)
  expect "metadata text encoding is invalid" (isValidUtf8 body && carriageReturn ∉ body && 0 ∉ body)
  let lines := splitLines body
  expect "metadata is missing required fields" (20 ≤ lines.length)
  let header ← reject "metadata header or module identity is invalid"
    ((readHeader lines).filter (matchesModule expected))
  let locators ← readLocators lines expected.size 12 []
  expect "metadata has no locators" (locators ≠ [])
  return ⟨header.component, header.revision, locators⟩

end SlsteamMoon.PatternCatalog

/-! The lines of a catalog as they are written, and what each of them is read as. -/
namespace SlsteamMoon.PatternCatalog
open KeyValues Utf8Scan CheckedReads
open ProvisionCache (utf8 isDigit numberOf decimalValue parseUnsigned toDecimal toDecimal_ne_nil toDecimal_all_isDigit
  toDecimal_zero toDecimal_head numberOf_toDecimal toDecimal_injective)

def stringText (key value : Bytes) : Bytes := key ++ utf8 " = \"" ++ value ++ [quote]

def integerText (key : Bytes) (n : Nat) : Bytes := key ++ utf8 " = " ++ toDecimal n

variable {key line value digits : Bytes} {lines : Lines} {index : Nat} {name : String}

private theorem stringOf_eq_some_iff :
    stringOf key line = some value ↔ line = stringText key value ∧ isSafeText value = true := by
  rw [stringOf, stringText]
  constructor
  · intro h
    dsimp only at h
    split_ifs at h with hshape hsafe
    obtain ⟨hkeyed, hshape⟩ := not_or.mp hshape
    obtain ⟨hlength, hlast⟩ := not_or.mp hshape
    obtain ⟨rest, rfl⟩ := not_not.mp hkeyed
    cases h
    rw [List.drop_left] at hsafe ⊢
    rw [List.length_append] at hlength
    have hne : rest ≠ [] := List.ne_nil_of_length_pos (by omega)
    have hquote : rest.getLast hne = quote := by
      rw [not_not, List.getLast?_append_of_ne_nil _ hne, List.getLast?_eq_some_getLast hne, Option.some.injEq] at hlast
      exact hlast
    refine ⟨?_, hsafe⟩
    rw [List.append_assoc _ rest.dropLast, ← hquote, List.dropLast_concat_getLast]
  · rintro ⟨rfl, hsafe⟩
    rw [if_neg]
    · dsimp only
      rw [List.append_assoc _ value, List.drop_left, List.dropLast_concat, if_pos hsafe]
    · rw [List.append_assoc _ value, not_or, not_or, not_not, not_not]
      refine ⟨List.prefix_append _ _, ?_, ?_⟩
      · have hlast : (value ++ [quote]).length = value.length + 1 := by rw [List.length_append, List.length_singleton]
        rw [List.length_append, hlast]
        omega
      · rw [← List.append_assoc, List.getLast?_concat]

private theorem toDecimal_digit {d : UInt8} (h : isDigit d = true) : toDecimal (decimalValue d) = [d] := by
  have hall : ∀ k : Fin 10, toDecimal k.val = [UInt8.ofNat (0x30 + k.val)] := by decide
  rw [isDigit, Bool.and_eq_true, decide_eq_true_iff, decide_eq_true_iff, UInt8.le_iff_toNat_le, UInt8.le_iff_toNat_le] at h
  have hlow : 0x30 ≤ d.toNat := h.1
  have hhigh : d.toNat ≤ 0x39 := h.2
  have hbyte : UInt8.ofNat (0x30 + (d.toNat - 0x30)) = d := by
    rw [Nat.add_sub_cancel' hlow, UInt8.ofNat_toNat]
  have hd := hall ⟨d.toNat - 0x30, by omega⟩
  dsimp only at hd
  rwa [hbyte] at hd

private theorem decimalValue_lt {d : UInt8} (h : isDigit d = true) : decimalValue d < 10 := by
  rw [isDigit, Bool.and_eq_true, decide_eq_true_iff, decide_eq_true_iff, UInt8.le_iff_toNat_le, UInt8.le_iff_toNat_le] at h
  have hhigh : d.toNat ≤ 0x39 := h.2
  rw [decimalValue]
  omega

/-- The last digit behind the others. -/
theorem toDecimal_mul_add {n d : Nat} (hn : 0 < n) (hd : d < 10) : toDecimal (n * 10 + d) = toDecimal n ++ toDecimal d := by
  rw [toDecimal, Nat.toDigits_eq_if (by decide), if_neg (by omega), List.map_append, ← toDecimal]
  have hdiv : (n * 10 + d) / 10 = n := by omega
  have hmod : (n * 10 + d) % 10 = d := by omega
  have hlast : Nat.toDigits 10 d = [d.digitChar] := by rw [Nat.toDigits_eq_if (by decide), if_pos hd]
  rw [hdiv, hmod, toDecimal, toDecimal, hlast]

/-- A number is written in one way by digits without a zero in front. -/
theorem toDecimal_numberOf (hdigits : digits.all isDigit = true) (hne : digits ≠ [])
    (hzero : ¬(1 < digits.length ∧ digits.head? = some 0x30)) : toDecimal (numberOf 10 decimalValue digits) = digits := by
  induction digits using List.reverseRecOn with
  | nil => exact absurd rfl hne
  | append_singleton ds d ih =>
    rw [List.all_append, Bool.and_eq_true] at hdigits
    have hd : isDigit d = true := by simpa using hdigits.2
    have hvalue := decimalValue_lt hd
    have hsum : numberOf 10 decimalValue (ds ++ [d]) = numberOf 10 decimalValue ds * 10 + decimalValue d := by
      rw [numberOf, List.foldl_append, List.foldl_cons, List.foldl_nil, numberOf]
    rw [hsum]
    cases ds with
    | nil =>
      have hnil : numberOf 10 decimalValue [] = 0 := rfl
      rw [hnil, Nat.zero_mul, Nat.zero_add, toDecimal_digit hd, List.nil_append]
    | cons first rest =>
      have hhead : first ≠ 0x30 := by
        rintro rfl
        exact hzero ⟨by simp, rfl⟩
      have hfront := ih hdigits.1 (List.cons_ne_nil _ _) fun h => hhead (Option.some.inj h.2)
      have hpos : 0 < numberOf 10 decimalValue (first :: rest) := by
        refine Nat.pos_of_ne_zero fun hz => ?_
        rw [hz, toDecimal_zero] at hfront
        exact hhead (List.cons.inj hfront).1.symm
      rw [toDecimal_mul_add hpos hvalue, hfront, toDecimal_digit hd]

theorem parseUnsigned_eq_some_iff {n : Nat} : parseUnsigned digits = some n ↔
    (digits ≠ [] ∧ digits.all isDigit = true ∧ n < 0x10000000000000000) ∧ numberOf 10 decimalValue digits = n := by
  rw [parseUnsigned, Option.ite_none_right_eq_some, Option.some.injEq]
  constructor
  · rintro ⟨h, rfl⟩
    exact ⟨h, rfl⟩
  · rintro ⟨h, rfl⟩
    exact ⟨h, rfl⟩

private theorem integerOf_eq_some_iff {n : UInt64} : integerOf key line = some n ↔ line = integerText key n.toNat := by
  rw [integerOf, integerText]
  dsimp only
  constructor
  · intro h
    split_ifs at h with hkeyed hzero
    obtain ⟨digits, rfl⟩ := hkeyed
    obtain ⟨m, hm, rfl⟩ := Option.map_eq_some_iff.mp h
    rw [List.drop_left] at hzero hm
    obtain ⟨⟨hne, hdigits, hlt⟩, rfl⟩ := parseUnsigned_eq_some_iff.mp hm
    rw [UInt64.toNat_ofNat_of_lt' hlt, toDecimal_numberOf hdigits hne hzero]
  · rintro rfl
    rw [if_neg (not_not.mpr (List.prefix_append _ _)), List.drop_left, if_neg]
    · have hparse : parseUnsigned (toDecimal n.toNat) = some n.toNat :=
        parseUnsigned_eq_some_iff.mpr
          ⟨⟨toDecimal_ne_nil _, toDecimal_all_isDigit _, n.toNat_lt⟩, numberOf_toDecimal _⟩
      rw [hparse, Option.map_some, UInt64.ofNat_toNat]
    · rintro ⟨hlength, hhead⟩
      rcases Nat.eq_zero_or_pos n.toNat with hzero | hpos
      · rw [hzero, toDecimal_zero] at hlength
        exact absurd hlength (by decide)
      · exact toDecimal_head hpos hhead

theorem stringLine_eq_some_iff : stringLine lines index name = some value ↔
    lines[index]? = some (stringText (utf8 name) value) ∧ isSafeText value = true := by
  rw [stringLine, Option.bind_eq_some_iff]
  constructor
  · rintro ⟨line, hline, hvalue⟩
    obtain ⟨rfl, hsafe⟩ := stringOf_eq_some_iff.mp hvalue
    exact ⟨hline, hsafe⟩
  · rintro ⟨hline, hsafe⟩
    exact ⟨_, hline, stringOf_eq_some_iff.mpr ⟨rfl, hsafe⟩⟩

theorem integerLine_eq_some_iff {n : UInt64} : integerLine lines index name = some n ↔
    lines[index]? = some (integerText (utf8 name) n.toNat) := by
  rw [integerLine, Option.bind_eq_some_iff]
  constructor
  · rintro ⟨line, hline, hvalue⟩
    rw [hline, integerOf_eq_some_iff.mp hvalue]
  · intro hline
    exact ⟨_, hline, integerOf_eq_some_iff.mpr rfl⟩

end SlsteamMoon.PatternCatalog
