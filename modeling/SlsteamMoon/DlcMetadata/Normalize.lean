import SlsteamMoon.ProvisionCache.RenderMeaning

/-! The metadata of one DLC as it is stored: the record's text is parsed, checked, stripped to its identity, its common
and its extended part, and printed again. -/
namespace SlsteamMoon.DlcMetadata
open KeyValues ProvisionCache

/-! ### The reader -/

inductive Token
  | string (value : Bytes)
  | openBrace
  | closeBrace
  | finished
  | invalid
  deriving DecidableEq

/-- White space and line comments; the flag is set inside a comment. -/
def skipWhitespace : Bool → Bytes → Bytes
  | _, [] => []
  | true, c :: cs => if c = newline then skipWhitespace false cs else skipWhitespace true cs
  | false, c :: cs =>
    if isSpace c = true then skipWhitespace false cs
    else if c = slash ∧ cs.head? = some slash then skipWhitespace true cs
    else c :: cs

def endsBare (c : UInt8) : Bool := isSpace c || c == lbrace || c == rbrace || c == quote

def bare (input : Bytes) : Token × Bytes :=
  let output := input.takeWhile fun c => !endsBare c
  (if output = [] then .invalid else .string output, input.dropWhile fun c => !endsBare c)

def quoted (input : Bytes) : Token × Bytes :=
  match readQuoted input with
  | some (output, rest) => (.string output, rest)
  | none => (.invalid, [])

def nextToken (input : Bytes) : Token × Bytes :=
  match skipWhitespace false input with
  | [] => (.finished, [])
  | c :: cs =>
    if c = lbrace then (.openBrace, cs)
    else if c = rbrace then (.closeBrace, cs)
    else if c = quote then quoted cs
    else bare (c :: cs)

/-- The object up to its closing brace, with one unit of fuel for a pair. `none` when it is not closed. -/
def readObject : Nat → Pairs → Bytes → Option (Pairs × Bytes)
  | 0, _, _ => none
  | fuel + 1, node, input =>
    match nextToken input with
    | (.closeBrace, rest) => some (node, rest)
    | (.string key, afterKey) =>
      match nextToken afterKey with
      | (.string value, rest) => readObject fuel (assign key (.scalar value) node) rest
      | (.openBrace, inside) =>
        match readObject fuel .nil inside with
        | some (child, rest) => readObject fuel (assign key (.object child) node) rest
        | none => none
      | _ => none
    | _ => none

def readAppinfo (wire : Bytes) : Option Pairs :=
  match nextToken wire with
  | (.string name, afterName) =>
    if name ≠ appinfoKey then none
    else
      match nextToken afterName with
      | (.openBrace, inside) =>
        match readObject (inside.length + 1) .nil inside with
        | some (body, rest) => if (nextToken rest).1 = .finished then some body else none
        | none => none
      | _ => none
  | _ => none

/-! ### The printer -/

def printMap (depth : Nat) : Pairs → Bytes
  | .nil => []
  | .leaf key value rest => tabs depth ++ (emitEscaped key ++ (emitScalar value ++ printMap depth rest))
  | .node key children rest =>
    tabs depth ++ (emitEscaped key ++ (braced depth (printMap (depth + 1) children) ++ printMap depth rest))

def printAppinfo (safe : Pairs) : Bytes :=
  utf8 "\"appinfo\"\n\x7b\n" ++ (printMap 1 safe ++ [rbrace, newline])

/-! ### The checks -/

/-- from_chars over the whole scalar, in 32 bits, and no zero. -/
def parseAppId : Option Value → Option Nat
  | some (.scalar value) => (parseUnsigned value).filter fun number => number ≤ maxUInt32 ∧ number ≠ 0
  | _ => none

def lower (value : Bytes) : Bytes := value.map fun c => if isUpper c then c + 0x20 else c

def typeIsDlc : Option Value → Bool
  | some (.scalar value) => lower value = utf8 "dlc"
  | _ => false

def objectOf : Option Value → Option Pairs
  | some (.object children) => some children
  | _ => none

structure DlcMetadataFacts where
  requestedBaseAppId : Nat
  requestedDlcAppId : Nat
  wireAppId : Nat
  parentAppId : Nat
  hasCommon : Bool
  typeIsDlc : Bool

def isValidDlcMetadata (facts : DlcMetadataFacts) : Bool :=
  facts.requestedBaseAppId ≠ 0 && facts.requestedDlcAppId ≠ 0 && facts.requestedDlcAppId ≠ facts.requestedBaseAppId &&
    facts.wireAppId = facts.requestedDlcAppId && facts.parentAppId = facts.requestedBaseAppId && facts.hasCommon &&
    facts.typeIsDlc

/-- One parent that both parts agree on where both name one. -/
def parentOf : Option Nat → Option Nat → Option Nat
  | some common, some extended => if common = extended then some common else none
  | some common, none => some common
  | none, extended => extended

/-- The nodes of the body that are kept. -/
structure Parts where
  appId : Value
  common : Pairs
  extended : Option Pairs

def Parts.safe (parts : Parts) : Pairs :=
  let identity := assign (utf8 "common") (.object parts.common) (assign (utf8 "appid") parts.appId .nil)
  match parts.extended with
  | some extended => assign (utf8 "extended") (.object extended) identity
  | none => identity

/-- The parts of a body that passes every check. -/
def checkedParts (requestedDlcAppId baseAppId : Nat) (body : Pairs) : Option Parts :=
  match find (utf8 "appid") body, objectOf (find (utf8 "common") body) with
  | some appId, some common =>
    let extended := objectOf (find (utf8 "extended") body)
    let extendedParent := extended.bind fun extended => parseAppId (find (utf8 "dlcforappid") extended)
    match parseAppId (some appId), parentOf (parseAppId (find (utf8 "parent") common)) extendedParent with
    | some wireAppId, some parent =>
      if typeIsDlc (find (utf8 "type") common) = true ∧
          isValidDlcMetadata ⟨baseAppId, requestedDlcAppId, wireAppId, parent, true, true⟩ = true then
        some ⟨appId, common, extended⟩
      else none
    | _, _ => none
  | _, _ => none

/-- The text without the zeros and the white space at its end. -/
def trimmed (cmWire : Bytes) : Bytes := cmWire.rdropWhile fun c => c == 0 || isSpace c

def normalize (cmWire : Bytes) (requestedDlcAppId baseAppId : Nat) : Option Bytes :=
  if requestedDlcAppId = 0 ∨ baseAppId = 0 ∨ requestedDlcAppId = baseAppId ∨ trimmed cmWire = [] then none
  else
    match readAppinfo (trimmed cmWire) with
    | some body => (checkedParts requestedDlcAppId baseAppId body).map fun parts => printAppinfo parts.safe
    | none => none

/-! ### The fuel of the reader -/

private theorem skipWhitespace_length_le (comment : Bool) (input : Bytes) :
    (skipWhitespace comment input).length ≤ input.length := by
  induction input generalizing comment with
  | nil => exact Nat.le_of_eq (by rw [skipWhitespace])
  | cons c cs ih =>
    cases comment with
    | true =>
      rw [skipWhitespace]
      split_ifs
      · exact (ih false).trans (Nat.le_succ _)
      · exact (ih true).trans (Nat.le_succ _)
    | false =>
      rw [skipWhitespace]
      split_ifs
      · exact (ih false).trans (Nat.le_succ _)
      · exact (ih true).trans (Nat.le_succ _)
      · exact Nat.le_refl _

/-- A token that lets the reader go on takes a byte at least. -/
theorem nextToken_length_lt {input rest : Bytes} {token : Token} (h : nextToken input = (token, rest))
    (hfinished : token ≠ .finished) (hinvalid : token ≠ .invalid) : rest.length < input.length := by
  have hskip := skipWhitespace_length_le false input
  rw [nextToken] at h
  split at h
  · exact absurd (Prod.mk.inj h).1.symm hfinished
  · next c cs htext =>
    rw [htext, List.length_cons] at hskip
    split_ifs at h
    · obtain ⟨-, rfl⟩ := Prod.mk.inj h
      exact hskip
    · obtain ⟨-, rfl⟩ := Prod.mk.inj h
      exact hskip
    · rw [quoted] at h
      split at h
      · next output after hread =>
        obtain ⟨-, rfl⟩ := Prod.mk.inj h
        obtain ⟨body, -, rfl⟩ := escaped_readQuoted hread
        rw [List.length_append, List.length_cons] at hskip
        omega
      · exact absurd (Prod.mk.inj h).1.symm hinvalid
    · rw [bare] at h
      obtain ⟨htoken, rfl⟩ := Prod.mk.inj h
      have hne : (c :: cs).takeWhile (fun c => !endsBare c) ≠ [] := by
        intro hempty
        rw [if_pos hempty] at htoken
        exact hinvalid htoken.symm
      have hparts := congrArg List.length (@List.takeWhile_append_dropWhile _ (fun c => !endsBare c) (c :: cs))
      rw [List.length_append, List.length_cons] at hparts
      have hpos := List.length_pos_of_ne_nil hne
      omega

private theorem readObject_length_lt (fuel : Nat) {node result : Pairs} {input rest : Bytes}
    (h : readObject fuel node input = some (result, rest)) : rest.length < input.length := by
  induction fuel generalizing node result input rest with
  | zero => cases h
  | succ fuel ih =>
    rw [readObject] at h
    split at h
    · next after hclose =>
      obtain ⟨-, rfl⟩ := Prod.mk.inj (Option.some.inj h)
      exact nextToken_length_lt hclose Token.noConfusion Token.noConfusion
    · next key afterKey hkey =>
      have hafter := nextToken_length_lt hkey Token.noConfusion Token.noConfusion
      split at h
      · next value after hvalue =>
        exact (ih h).trans ((nextToken_length_lt hvalue Token.noConfusion Token.noConfusion).trans hafter)
      · next inside hbrace =>
        split at h
        · next child after hchild =>
          have hinside := nextToken_length_lt hbrace Token.noConfusion Token.noConfusion
          exact (ih h).trans ((ih hchild).trans (hinside.trans hafter))
        · cases h
      · cases h
    · cases h

/-- More fuel than bytes changes nothing. -/
theorem readObject_fuel (fuel : Nat) (node : Pairs) (input : Bytes) (h : input.length < fuel) :
    readObject (fuel + 1) node input = readObject fuel node input := by
  induction fuel generalizing node input with
  | zero => exact absurd h (Nat.not_lt_zero _)
  | succ fuel ih =>
    rw [readObject, readObject]
    split
    · rfl
    · next key afterKey hkey =>
      have hafter := nextToken_length_lt hkey Token.noConfusion Token.noConfusion
      split
      · next value after hvalue =>
        have hrest := nextToken_length_lt hvalue Token.noConfusion Token.noConfusion
        exact ih _ after (by omega)
      · next inside hbrace =>
        have hinside := nextToken_length_lt hbrace Token.noConfusion Token.noConfusion
        rw [ih .nil inside (by omega)]
        split
        · next child after hchild =>
          have hrest := readObject_length_lt fuel hchild
          exact ih _ after (by omega)
        · rfl
      · rfl
    · rfl

end SlsteamMoon.DlcMetadata
