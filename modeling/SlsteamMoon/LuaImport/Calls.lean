import SlsteamMoon.PatternScan
import Mathlib.Data.List.Basic

/-! The calls that the two importers read in a stplug-in script. A text is the list of its
characters, one for each byte. -/
namespace SlsteamMoon.LuaImport
open PatternScan

abbrev Text := List Char

/-- `\s` -/
def isSpace (c : Char) : Bool := c = ' ' || ('\t' ≤ c && c ≤ '\r')

/-- `\d` -/
def isDigit (c : Char) : Bool := '0' ≤ c && c ≤ '9'

def isHexDigit (c : Char) : Bool := isDigit c || ('A' ≤ c && c ≤ 'F') || ('a' ≤ c && c ≤ 'f')

def quote : Char := Char.ofNat 0x22

/-- `\s*` and the word. -/
def token (word : Text) : Pattern Char Unit := fun text =>
  literal word (text.dropWhile isSpace)

/-- `\s*` and `\d+`. -/
def number : Pattern Char Text := fun text => some1 isDigit (text.dropWhile isSpace)

/-- addappid(depot, n, "key") -/
structure KeyCall where
  depot : Text
  keyHex : Text
  deriving DecidableEq, Repr

/-- setManifestid(depot, "gid") -/
structure PinCall where
  depot : Text
  gid : Text
  deriving DecidableEq, Repr

def addappidWithKeyRe : Pattern Char KeyCall := fun text => do
  let (_, text) ← literal ['a', 'd', 'd', 'a', 'p', 'p', 'i', 'd'] text
  let (_, text) ← token ['('] text
  let (depot, text) ← number text
  let (_, text) ← token [','] text
  let (_, text) ← number text
  let (_, text) ← token [','] text
  let (_, text) ← token [quote] text
  let (keyHex, text) ← exactly 64 isHexDigit text
  let (_, text) ← literal [quote] text
  let (_, text) ← token [')'] text
  return (⟨depot, keyHex⟩, text)

/-- `(?:,\s*[^)]*)?\)` behind `\s*`; the arguments behind the gid are not read. -/
def tailArguments : Pattern Char Unit := fun text =>
  match text.dropWhile isSpace with
  | ',' :: text => literal [')'] (text.dropWhile fun c => c ≠ ')')
  | text => literal [')'] text

def setManifestRe : Pattern Char PinCall := fun text => do
  let (_, text) ← literal ['s', 'e', 't', 'M', 'a', 'n', 'i', 'f', 'e', 's', 't', 'i', 'd'] text
  let (_, text) ← token ['('] text
  let (depot, text) ← number text
  let (_, text) ← token [','] text
  let (_, text) ← token [quote] text
  let (gid, text) ← some1 isDigit text
  let (_, text) ← literal [quote] text
  let (_, text) ← tailArguments text
  return (⟨depot, gid⟩, text)

/-- The line up to its first `--`. -/
def stripComment : Text → Text
  | '-' :: '-' :: _ => []
  | c :: line => c :: stripComment line
  | [] => []

/-- What one pattern finds in a script, line by line. -/
def calls {β : Type} (p : Pattern Char β) (text : Text) : List β :=
  (text.splitOn '\n').flatMap fun line => scan p (stripComment line)

def numeral (digits : Text) : Nat := digits.foldl (fun v c => v * 10 + (c.toNat - '0'.toNat)) 0

/-- With an `unsigned long` of 32 bits; none is `std::out_of_range`. -/
def stoul (digits : Text) : Option UInt32 :=
  if numeral digits < 0x100000000 then some (UInt32.ofNat (numeral digits)) else none

def nibble (c : Char) : Option UInt8 :=
  if '0' ≤ c ∧ c ≤ '9' then some (UInt8.ofNat (c.toNat - '0'.toNat))
  else if 'a' ≤ c ∧ c ≤ 'f' then some (10 + UInt8.ofNat (c.toNat - 'a'.toNat))
  else if 'A' ≤ c ∧ c ≤ 'F' then some (10 + UInt8.ofNat (c.toNat - 'A'.toNat))
  else none

/-- The loop of hexToBytes; none when a character is no hex digit. -/
def hexPairs : Text → Option (List UInt8)
  | hi :: lo :: rest => do
    let hi ← nibble hi
    let lo ← nibble lo
    return (hi <<< 4 ||| lo) :: (← hexPairs rest)
  | _ => some []

def hexToBytes (hex : Text) : List UInt8 :=
  if hex.length ≠ 64 then [] else (hexPairs hex).getD []

private theorem nibble_of_isHexDigit {c : Char} (h : isHexDigit c = true) : ∃ v, nibble c = some v := by
  simp only [isHexDigit, isDigit, Bool.or_eq_true, Bool.and_eq_true, decide_eq_true_eq] at h
  rw [nibble]
  split_ifs
  · exact ⟨_, rfl⟩
  · exact ⟨_, rfl⟩
  · exact ⟨_, rfl⟩
  · tauto

private theorem hexPairs_length {hex : Text} (h : hex.all isHexDigit = true) :
    ∃ bytes, hexPairs hex = some bytes ∧ bytes.length = hex.length / 2 := by
  induction hex using hexPairs.induct with
  | case1 hi lo rest ih =>
    simp only [List.all_cons, Bool.and_eq_true] at h
    obtain ⟨hhi, hlo, hrest⟩ := h
    obtain ⟨vhi, hvhi⟩ := nibble_of_isHexDigit hhi
    obtain ⟨vlo, hvlo⟩ := nibble_of_isHexDigit hlo
    obtain ⟨bytes, hbytes, hlength⟩ := ih hrest
    refine ⟨(vhi <<< 4 ||| vlo) :: bytes, ?_, ?_⟩
    · simp only [hexPairs, hvhi, hvlo, hbytes, Option.bind_eq_bind, Option.bind_some, Option.pure_def]
    · simp only [List.length_cons, hlength]
      omega
  | case2 hex hshort =>
    refine ⟨[], ?_, ?_⟩
    · rw [hexPairs]
      exact hshort
    · match hex, hshort with
      | [], _ => rfl
      | [_], _ => simp
      | hi :: lo :: rest, hshort => exact (hshort hi lo rest rfl).elim

/-- A key is always as long as a depot key has to be. -/
theorem keyBin_length {text : Text} {call : KeyCall} (h : call ∈ calls addappidWithKeyRe text) :
    (hexToBytes call.keyHex).length = 32 := by
  obtain ⟨line, -, hcall⟩ := List.mem_flatMap.mp h
  obtain ⟨here, rest, -, hread⟩ := mem_scan hcall
  simp only [addappidWithKeyRe, Option.bind_eq_bind, Option.bind_eq_some_iff, Prod.exists, Option.pure_def,
    Option.some.injEq, Prod.mk.injEq] at hread
  obtain ⟨_, _, -, _, _, -, depot, _, -, _, _, -, _, _, -, _, _, -, _, _, -, keyHex, _, hkey, _, _, -, _, _, -, rfl, -⟩ :=
    hread
  obtain ⟨hlength, hall⟩ := exactly_spec hkey
  obtain ⟨bytes, hbytes, hbyteslength⟩ := hexPairs_length hall
  rw [hexToBytes, if_neg (by simpa using hlength), hbytes, Option.getD_some, hbyteslength, hlength]

/-- A gid is a numeral. -/
theorem gid_digits {text : Text} {call : PinCall} (h : call ∈ calls setManifestRe text) :
    call.gid ≠ [] ∧ call.gid.all isDigit = true := by
  obtain ⟨line, -, hcall⟩ := List.mem_flatMap.mp h
  obtain ⟨here, rest, -, hread⟩ := mem_scan hcall
  simp only [setManifestRe, Option.bind_eq_bind, Option.bind_eq_some_iff, Prod.exists, Option.pure_def,
    Option.some.injEq, Prod.mk.injEq] at hread
  obtain ⟨_, _, -, _, _, -, depot, _, -, _, _, -, _, _, -, gid, _, hgid, _, _, -, _, _, -, rfl, -⟩ := hread
  exact some1_spec hgid

end SlsteamMoon.LuaImport

/-! The scripts that an importer reads: the entries of the stplug-in directory in the
order of the directory, without those whose name does not say a managed app. -/
namespace SlsteamMoon.LuaImport

abbrev AppId := UInt32
abbrev DepotId := UInt32

/-- One entry of the directory. -/
structure DirectoryEntry where
  filename : Text
  isRegular : Bool := true
  opens : Bool := true
  text : Text
  deriving DecidableEq, Repr

def lua : Text := ['.', 'l', 'u', 'a']

/-- A name before its last dot, and from the dot on. -/
def splitLastDot (name : Text) : Option (Text × Text) :=
  match name.reverse.dropWhile (· ≠ '.') with
  | [] => none
  | _ :: stem => some (stem.reverse, '.' :: (name.reverse.takeWhile (· ≠ '.')).reverse)

/-- `path.extension()` -/
def extension (name : Text) : Text :=
  match splitLastDot name with
  | none => []
  | some (stem, suffix) => if stem = [] ∨ name = ['.', '.'] then [] else suffix

/-- The digits of a stem, as long as they fit; none is the early return of zero. -/
def stemValue : Text → Nat → Option Nat
  | [], v => some v
  | c :: stem, v =>
    if isDigit c = false then none
    else
      let v := v * 10 + (c.toNat - '0'.toNat)
      if v > 0xFFFFFFFF then none else stemValue stem v

def appIdFromScriptName (filename : Text) : AppId :=
  match splitLastDot filename with
  | none => 0
  | some (stem, suffix) =>
    if suffix ≠ lua ∨ stem = [] then 0
    else match stemValue stem 0 with
      | none => 0
      | some v => UInt32.ofNat v

/-- A script under the app of its name. -/
structure Script where
  appId : AppId
  text : Text
  managed : appId ≠ 0
  deriving DecidableEq, Repr

/-- The conditions at the head of both loops. -/
def script? (managedApps : List AppId) (entry : DirectoryEntry) : Option Script :=
  if entry.isRegular = false ∨ extension entry.filename ≠ lua then none
  else if h : appIdFromScriptName entry.filename = 0 ∨ appIdFromScriptName entry.filename ∉ managedApps then none
  else if entry.opens = false then none
  else some ⟨appIdFromScriptName entry.filename, entry.text, fun h0 => h (.inl h0)⟩

def scripts (managedApps : List AppId) (stplug : List DirectoryEntry) : List Script :=
  stplug.filterMap (script? managedApps)

namespace Script

def keyCalls (s : Script) : List KeyCall := calls addappidWithKeyRe s.text

def pinCalls (s : Script) : List PinCall := calls setManifestRe s.text

end Script

/-- The depot that a call names. -/
def KeyCall.Names (call : KeyCall) (d : DepotId) : Prop := numeral call.depot = d.toNat

def PinCall.Names (call : PinCall) (d : DepotId) : Prop := numeral call.depot = d.toNat

instance (call : KeyCall) (d : DepotId) : Decidable (call.Names d) := inferInstanceAs (Decidable (_ = _))

instance (call : PinCall) (d : DepotId) : Decidable (call.Names d) := inferInstanceAs (Decidable (_ = _))

theorem stoul_eq_some_iff {digits : Text} {d : UInt32} : stoul digits = some d ↔ numeral digits = d.toNat := by
  rw [stoul]
  split_ifs with hfits
  · rw [Option.some.injEq]
    constructor
    · rintro rfl
      exact (UInt32.toNat_ofNat_of_lt' hfits).symm
    · intro hd
      rw [hd, UInt32.ofNat_toNat]
  · constructor
    · intro h
      cases h
    · intro hd
      exact absurd (hd ▸ d.toNat_lt) hfits

theorem stoul_eq_none_iff {digits : Text} : stoul digits = none ↔ 0x100000000 ≤ numeral digits := by
  rw [stoul]
  split_ifs with hfits
  · simpa using hfits
  · simpa using hfits

end SlsteamMoon.LuaImport
