import SlsteamMoon.KeyValues.Text
import Mathlib.Data.List.Infix
import Mathlib.Data.List.DropRight
import Mathlib.Logic.Function.Basic

/-! From KeyValues text to binary KeyValues whose keys are indices into the
file's string table. -/
namespace SlsteamMoon.KeyValues

/-- An ordered list of pairs: the first pair's key and value or children, and
the pairs after it. -/
inductive Pairs
  | nil
  | leaf (key value : Bytes) (rest : Pairs)
  | node (key : Bytes) (children rest : Pairs)
  deriving DecidableEq

/-- The grammar of an object's body up to its closing brace. -/
inductive Body : Bytes → Pairs → Bytes → Prop
  | close {input rest : Bytes} (brace : Lexes input .closeBrace rest) : Body input .nil rest
  | leaf {input afterKey afterValue rest key value : Bytes} {pairs : Pairs}
      (keyTok : Lexes input (.string key) afterKey) (valueTok : Lexes afterKey (.string value) afterValue)
      (more : Body afterValue pairs rest) : Body input (.leaf key value pairs) rest
  | node {input afterKey inside after rest key : Bytes} {children pairs : Pairs}
      (keyTok : Lexes input (.string key) afterKey) (brace : Lexes afterKey .openBrace inside)
      (body : Body inside children after) (more : Body after pairs rest) :
      Body input (.node key children pairs) rest

/-- The grammar of the top-level pair at the front of a text. -/
inductive TopPair : Bytes → Pairs → Prop
  | leaf {input afterKey afterValue key value : Bytes} (keyTok : Lexes input (.string key) afterKey)
      (valueTok : Lexes afterKey (.string value) afterValue) : TopPair input (.leaf key value .nil)
  | node {input afterKey inside after key : Bytes} {children : Pairs}
      (keyTok : Lexes input (.string key) afterKey) (brace : Lexes afterKey .openBrace inside)
      (body : Body inside children after) : TopPair input (.node key children .nil)

theorem Body.length_lt {input : Bytes} {pairs : Pairs} {rest : Bytes} (h : Body input pairs rest) :
    rest.length < input.length := by
  induction h with
  | close hbrace => exact hbrace.length_lt
  | leaf hkey hvalue _ ih =>
    have hk := hkey.length_lt
    have hv := hvalue.length_lt
    omega
  | node hkey hbrace _ _ ihBody ihMore =>
    have hk := hkey.length_lt
    have hb := hbrace.length_lt
    omega

theorem Body.unique {input : Bytes} {pairs pairs' : Pairs} {rest rest' : Bytes} (h : Body input pairs rest)
    (h' : Body input pairs' rest') : pairs = pairs' ∧ rest = rest' := by
  induction h generalizing pairs' rest' with
  | close hbrace =>
    cases h' with
    | close hbrace' => exact ⟨rfl, (hbrace.unique hbrace').2⟩
    | leaf hkey' => cases (hbrace.unique hkey').1
    | node hkey' => cases (hbrace.unique hkey').1
  | leaf hkey hvalue _ ih =>
    cases h' with
    | close hbrace' => cases (hkey.unique hbrace').1
    | leaf hkey' hvalue' hmore' =>
      obtain ⟨hk, rfl⟩ := hkey.unique hkey'
      obtain ⟨hv, rfl⟩ := hvalue.unique hvalue'
      obtain ⟨rfl, rfl⟩ := ih hmore'
      cases hk
      cases hv
      exact ⟨rfl, rfl⟩
    | node hkey' hbrace' =>
      obtain ⟨-, rfl⟩ := hkey.unique hkey'
      cases (hvalue.unique hbrace').1
  | node hkey hbrace _ _ ihBody ihMore =>
    cases h' with
    | close hbrace' => cases (hkey.unique hbrace').1
    | leaf hkey' hvalue' =>
      obtain ⟨-, rfl⟩ := hkey.unique hkey'
      cases (hbrace.unique hvalue').1
    | node hkey' hbrace' hbody' hmore' =>
      obtain ⟨hk, rfl⟩ := hkey.unique hkey'
      obtain ⟨-, rfl⟩ := hbrace.unique hbrace'
      obtain ⟨rfl, rfl⟩ := ihBody hbody'
      obtain ⟨rfl, rfl⟩ := ihMore hmore'
      cases hk
      exact ⟨rfl, rfl⟩

/-- The grammar assigns one tree to a text. -/
theorem TopPair.unique {input : Bytes} {tree tree' : Pairs} (h : TopPair input tree)
    (h' : TopPair input tree') : tree = tree' := by
  cases h with
  | leaf hkey hvalue =>
    cases h' with
    | leaf hkey' hvalue' =>
      obtain ⟨hk, rfl⟩ := hkey.unique hkey'
      obtain ⟨hv, -⟩ := hvalue.unique hvalue'
      cases hk
      cases hv
      rfl
    | node hkey' hbrace' =>
      obtain ⟨-, rfl⟩ := hkey.unique hkey'
      cases (hvalue.unique hbrace').1
  | node hkey hbrace hbody =>
    cases h' with
    | leaf hkey' hvalue' =>
      obtain ⟨-, rfl⟩ := hkey.unique hkey'
      cases (hbrace.unique hvalue').1
    | node hkey' hbrace' hbody' =>
      obtain ⟨hk, rfl⟩ := hkey.unique hkey'
      obtain ⟨-, rfl⟩ := hbrace.unique hbrace'
      obtain ⟨rfl, -⟩ := hbody.unique hbody'
      cases hk
      rfl

/-- vector<string>::max_size in a 32-bit process; push_back throws past it. -/
def maxStrings : Nat := 0x7fffffff / 24

/-- The string table and its index; the index resolves to the string. -/
structure StringTable where
  strings : List Bytes
  stringIndex : Bytes → Option Nat
  resolves : ∀ s i, stringIndex s = some i → strings[i]? = some s
  bounded : strings.length ≤ maxStrings

/-- A call answers false with a text, or an exception leaves it. -/
inductive Failure
  | returned (err : String)
  | thrown (what : String)
  deriving DecidableEq

/-- The table is the caller's: what was interned before a failure stays in it. -/
structure EmitFailure where
  failure : Failure
  table : StringTable

abbrev Emit (α : Type) := Except EmitFailure α

theorem StringTable.resolves_appended {f : StringTable} {t : Bytes} {i : Nat} (h : f.stringIndex t = some i)
    (s : Bytes) : (f.strings ++ [s])[i]? = some t := by
  have hold := f.resolves t i h
  rw [List.getElem?_append_left (List.getElem?_eq_some_iff.mp hold).1, hold]

theorem StringTable.resolves_update (f : StringTable) (s t : Bytes) (i : Nat)
    (h : Function.update f.stringIndex s (some f.strings.length) t = some i) : (f.strings ++ [s])[i]? = some t := by
  by_cases ht : t = s
  · rw [ht, Function.update_self] at h
    rw [← Option.some.inj h, ht, List.getElem?_concat_length]
  · rw [Function.update_of_ne ht] at h
    exact resolves_appended h s

theorem StringTable.bounded_appended (f : StringTable) (s : Bytes) (h : f.strings.length < maxStrings) :
    (f.strings ++ [s]).length ≤ maxStrings := by
  rw [List.length_append]
  exact h

def StringTable.internStringIndex (f : StringTable) (s : Bytes) : Emit (Nat × StringTable) :=
  match f.stringIndex s with
  | some i => .ok (i, f)
  | none =>
    if h : f.strings.length < maxStrings then
      .ok (f.strings.length,
        { strings := f.strings ++ [s]
          stringIndex := Function.update f.stringIndex s (some f.strings.length)
          resolves := f.resolves_update s
          bounded := f.bounded_appended s h })
    else .error ⟨.thrown "vector::_M_realloc_append", f⟩

/-- An interned index fits 32 bits, resolves to its string and moves no other. -/
theorem StringTable.intern_spec {f f' : StringTable} {s : Bytes} {i : Nat}
    (h : f.internStringIndex s = .ok (i, f')) :
    f'.strings[i]? = some s ∧ i < 0x100000000 ∧ f.strings <+: f'.strings := by
  have hbound : ∀ j, j ≤ maxStrings → j < 0x100000000 := by
    intro j hj
    simp only [maxStrings] at hj
    omega
  simp only [internStringIndex] at h
  split at h
  · next j hj =>
    obtain ⟨rfl, rfl⟩ := Prod.mk.inj (Except.ok.inj h)
    have hget := f.resolves s j hj
    have hlt := (List.getElem?_eq_some_iff.mp hget).1
    exact ⟨hget, hbound j (hlt.le.trans f.bounded), List.prefix_refl _⟩
  · split at h
    · next hroom =>
      obtain ⟨rfl, rfl⟩ := Prod.mk.inj (Except.ok.inj h)
      exact ⟨List.getElem?_concat_length, hbound _ hroom.le, List.prefix_append _ _⟩
    · cases h

def kChildObject : UInt8 := 0
def kString : UInt8 := 1
def kEnd : UInt8 := 8

def writeLE32 (n : Nat) : Bytes :=
  [UInt8.ofNat n, UInt8.ofNat (n / 256), UInt8.ofNat (n / 65536), UInt8.ofNat (n / 16777216)]

/-- What an emitter appended, the table it left and the text it left unread. -/
structure Emitted where
  out : Bytes
  table : StringTable
  rest : Bytes

def emitString (f : StringTable) (key value rest : Bytes) : Emit Emitted := do
  let (i, f) ← f.internStringIndex key
  return ⟨kString :: (writeLE32 i ++ (value ++ [0])), f, rest⟩

/-- `object` is the emitter of the nested body. -/
def emitPair (object : Bytes → StringTable → Emit Emitted) (key input : Bytes) (f : StringTable) :
    Emit Emitted :=
  match next input with
  | (.string value, rest) => emitString f key value rest
  | (.openBrace, inside) => do
    let (i, f) ← f.internStringIndex key
    let body ← object inside f
    return { body with out := kChildObject :: (writeLE32 i ++ body.out) }
  | _ => .error ⟨.returned "expected value or '\x7b' after key", f⟩

/-- One unit of fuel for a token; a text of no more bytes than fuel never
lacks it. -/
def emitObject : Nat → Bytes → StringTable → Emit Emitted
  | 0, _, f => .error ⟨.returned "unterminated object", f⟩
  | fuel + 1, input, f =>
    match next input with
    | (.closeBrace, rest) => .ok ⟨[kEnd], f, rest⟩
    | (.finished, _) => .error ⟨.returned "unterminated object", f⟩
    | (.openBrace, _) => .error ⟨.returned "expected key", f⟩
    | (.string key, rest) => do
      let pair ← emitPair (emitObject fuel) key rest f
      let more ← emitObject fuel pair.rest pair.table
      return { more with out := pair.out ++ more.out }

/-- The terminator and the white space before it. -/
def isTrailing (c : UInt8) : Bool := c == 0 || isBlank c

/-- The text of a wire buffer. -/
def wireText (wire : Bytes) : Bytes := wire.rdropWhile isTrailing

def translateWireToIndexed (wire : Bytes) (f : StringTable) : Emit (Bytes × StringTable) :=
  if wire.isEmpty = true then .error ⟨.returned "empty wire buffer", f⟩
  else
    match next (wireText wire) with
    | (.string topKey, rest) => do
      let pair ← emitPair (emitObject rest.length) topKey rest f
      return (pair.out ++ [kEnd], pair.table)
    | _ => .error ⟨.returned "wire buffer doesn't start with a key", f⟩

/-- The bytes of a body over a string table: one node for each pair, in order,
and an end marker. -/
inductive Encodes (strings : List Bytes) : Pairs → Bytes → Prop
  | nil : Encodes strings .nil [kEnd]
  | leaf (i : Nat) {key value more : Bytes} {pairs : Pairs} (named : strings[i]? = some key) (fits : i < 0x100000000)
      (rest : Encodes strings pairs more) :
      Encodes strings (.leaf key value pairs) (kString :: (writeLE32 i ++ (value ++ [0])) ++ more)
  | node (i : Nat) {key body more : Bytes} {children pairs : Pairs} (named : strings[i]? = some key)
      (fits : i < 0x100000000) (inner : Encodes strings children body) (rest : Encodes strings pairs more) :
      Encodes strings (.node key children pairs) (kChildObject :: (writeLE32 i ++ body) ++ more)

private theorem resolves_longer {strings longer : List Bytes} (h : strings <+: longer) {i : Nat} {s : Bytes}
    (hi : strings[i]? = some s) : longer[i]? = some s := by
  obtain ⟨tail, rfl⟩ := h
  rw [List.getElem?_append_left (List.getElem?_eq_some_iff.mp hi).1, hi]

/-- Strings interned later do not change what is encoded. -/
theorem Encodes.mono {strings longer : List Bytes} (h : strings <+: longer) {pairs : Pairs} {out : Bytes}
    (he : Encodes strings pairs out) : Encodes longer pairs out := by
  induction he with
  | nil => exact .nil
  | leaf i hkey hfit _ ih => exact .leaf i (resolves_longer h hkey) hfit ih
  | node i hkey hfit _ _ ihBody ihMore => exact .node i (resolves_longer h hkey) hfit ihBody ihMore

/-- What an emitter of bodies promises. -/
def EmitsBody (object : Bytes → StringTable → Emit Emitted) : Prop :=
  ∀ input f e, object input f = .ok e →
    ∃ pairs, Body input pairs e.rest ∧ Encodes e.table.strings pairs e.out ∧ f.strings <+: e.table.strings

/-- The pair behind a key, as it was read and as it was emitted. -/
inductive EmitsPair (key input : Bytes) (e : Emitted) : Prop
  | leaf (i : Nat) (value : Bytes) (valueTok : Lexes input (.string value) e.rest)
      (named : e.table.strings[i]? = some key) (fits : i < 0x100000000)
      (out : e.out = kString :: (writeLE32 i ++ (value ++ [0])))
  | node (i : Nat) (children : Pairs) (inside body : Bytes) (brace : Lexes input .openBrace inside)
      (inner : Body inside children e.rest) (encoded : Encodes e.table.strings children body)
      (named : e.table.strings[i]? = some key) (fits : i < 0x100000000)
      (out : e.out = kChildObject :: (writeLE32 i ++ body))

theorem bind_ok {ε α β : Type} {x : Except ε α} {g : α → Except ε β} {b : β}
    (h : (x >>= g) = .ok b) : ∃ a, x = .ok a ∧ g a = .ok b := by
  cases x with
  | error err => cases h
  | ok a => exact ⟨a, rfl, h⟩

private theorem emitPair_spec {object : Bytes → StringTable → Emit Emitted} (hobject : EmitsBody object)
    {key input : Bytes} {f : StringTable} {e : Emitted} (h : emitPair object key input f = .ok e) :
    EmitsPair key input e ∧ f.strings <+: e.table.strings := by
  simp only [emitPair] at h
  split at h
  · next value rest hnext =>
    obtain ⟨⟨i, f'⟩, hi, he⟩ := bind_ok h
    obtain rfl := Except.ok.inj he
    obtain ⟨hget, hfit, hpre⟩ := f.intern_spec hi
    exact ⟨.leaf i value (lexes_next hnext Tok.noConfusion) hget hfit rfl, hpre⟩
  · next inside hnext =>
    obtain ⟨⟨i, f'⟩, hi, h⟩ := bind_ok h
    obtain ⟨body, hbody, he⟩ := bind_ok h
    obtain rfl := Except.ok.inj he
    obtain ⟨hget, hfit, hpre⟩ := f.intern_spec hi
    obtain ⟨children, hchildren, hencoded, hpreBody⟩ := hobject inside f' body hbody
    exact ⟨.node i children inside body.out (lexes_next hnext Tok.noConfusion) hchildren hencoded
      (resolves_longer hpreBody hget) hfit rfl, hpre.trans hpreBody⟩
  · cases h

/-- The emitter's output encodes the body the grammar assigns. -/
theorem emitObject_spec (fuel : Nat) : EmitsBody (emitObject fuel) := by
  induction fuel with
  | zero =>
    intro input f e h
    cases h
  | succ fuel ih =>
    intro input f e h
    simp only [emitObject] at h
    split at h
    · next rest hnext =>
      obtain rfl := Except.ok.inj h
      exact ⟨.nil, .close (lexes_next hnext Tok.noConfusion), .nil, List.prefix_refl _⟩
    · cases h
    · cases h
    · next key rest hnext =>
      have hkey := lexes_next hnext Tok.noConfusion
      obtain ⟨pair, hpair, h⟩ := bind_ok h
      obtain ⟨more, hmore, he⟩ := bind_ok h
      obtain rfl := Except.ok.inj he
      obtain ⟨hspec, hprePair⟩ := emitPair_spec ih hpair
      obtain ⟨pairs, hbody, hencoded, hpreMore⟩ := ih pair.rest pair.table more hmore
      cases hspec with
      | leaf i value hvalue hget hfit hout =>
        refine ⟨.leaf key value pairs, .leaf hkey hvalue hbody, ?_, hprePair.trans hpreMore⟩
        rw [hout]
        exact .leaf i (resolves_longer hpreMore hget) hfit hencoded
      | node i children inside body hbrace hinner hchildren hget hfit hout =>
        refine ⟨.node key children pairs, .node hkey hbrace hinner hbody, ?_, hprePair.trans hpreMore⟩
        rw [hout]
        exact .node i (resolves_longer hpreMore hget) hfit (hchildren.mono hpreMore) hencoded

/-- What a successful translation emits is the encoding of the top-level pair. -/
theorem translateWireToIndexed_spec {wire : Bytes} {f : StringTable} {out : Bytes} {f' : StringTable}
    (h : translateWireToIndexed wire f = .ok (out, f')) :
    ∃ tree, TopPair (wireText wire) tree ∧ Encodes f'.strings tree out := by
  simp only [translateWireToIndexed] at h
  split at h
  · cases h
  · split at h
    · next topKey rest hnext =>
      have hkey := lexes_next hnext Tok.noConfusion
      obtain ⟨pair, hpair, he⟩ := bind_ok h
      obtain ⟨rfl, rfl⟩ := Prod.mk.inj (Except.ok.inj he)
      obtain ⟨hspec, -⟩ := emitPair_spec (emitObject_spec rest.length) hpair
      cases hspec with
      | leaf i value hvalue hget hfit hout =>
        refine ⟨.leaf topKey value .nil, .leaf hkey hvalue, ?_⟩
        rw [hout]
        exact .leaf i hget hfit .nil
      | node i children inside body hbrace hinner hchildren hget hfit hout =>
        refine ⟨.node topKey children .nil, .node hkey hbrace hinner, ?_⟩
        rw [hout]
        exact .node i hget hfit hchildren .nil
    · cases h

/-- Emitters that agree on shorter texts emit the same pair. -/
theorem emitPair_congr {object object' : Bytes → StringTable → Emit Emitted} {key input : Bytes}
    {f : StringTable} (h : ∀ inside f, inside.length < input.length → object inside f = object' inside f) :
    emitPair object key input f = emitPair object' key input f := by
  simp only [emitPair]
  split
  · rfl
  · next inside hnext =>
    have hlt := (lexes_next hnext Tok.noConfusion).length_lt
    apply bind_congr
    rintro ⟨i, f'⟩
    simp only [h inside f' hlt]
  · rfl

/-- More fuel than bytes changes nothing. -/
theorem emitObject_fuel (fuel : Nat) (input : Bytes) (f : StringTable) (h : input.length ≤ fuel) :
    emitObject (fuel + 1) input f = emitObject fuel input f := by
  induction fuel generalizing input f with
  | zero =>
    obtain rfl := List.eq_nil_of_length_eq_zero (Nat.le_zero.mp h)
    rfl
  | succ fuel ih =>
    rw [emitObject, emitObject]
    split
    · rfl
    · rfl
    · rfl
    · next key rest hnext =>
      have hrest := (lexes_next hnext Tok.noConfusion).length_lt
      have hpair : emitPair (emitObject (fuel + 1)) key rest f = emitPair (emitObject fuel) key rest f :=
        emitPair_congr fun inside f' hlt => ih inside f' (by omega)
      rw [hpair]
      cases hemitted : emitPair (emitObject fuel) key rest f with
      | error err => rfl
      | ok pair =>
        have hshort : pair.rest.length ≤ rest.length := by
          cases (emitPair_spec (emitObject_spec fuel) hemitted).1 with
          | leaf i value hvalue => exact hvalue.length_lt.le
          | node i children inside body hbrace hinner =>
            exact (hinner.length_lt.trans hbrace.length_lt).le
        show (emitObject (fuel + 1) pair.rest pair.table >>= _) = (emitObject fuel pair.rest pair.table >>= _)
        rw [ih pair.rest pair.table (by omega)]

end SlsteamMoon.KeyValues
