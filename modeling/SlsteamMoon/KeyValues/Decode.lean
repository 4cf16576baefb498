import SlsteamMoon.KeyValues.Emit

/-! The reader of binary KeyValues, the validator of generated payloads, and
when a translated payload reads back as the tree of its text. -/
namespace SlsteamMoon.KeyValues

def readLE32 : Bytes → Option (Nat × Bytes)
  | a :: b :: c :: d :: rest =>
    some (a.toNat + 256 * b.toNat + 65536 * c.toNat + 16777216 * d.toNat, rest)
  | _ => none

/-- A string up to its terminator. -/
def readCString : Bytes → Option (Bytes × Bytes)
  | [] => none
  | c :: cs => if c = 0 then some ([], cs) else (readCString cs).map fun (value, rest) => (c :: value, rest)

/-- Read nodes up to the end marker of the object. -/
def decodeObject (strings : List Bytes) : Nat → Bytes → Option (Pairs × Bytes)
  | 0, _ => none
  | _ + 1, [] => none
  | fuel + 1, type :: data =>
    if type = kEnd then some (.nil, data)
    else if type ≠ kChildObject ∧ type ≠ kString then none
    else do
      let (i, data) ← readLE32 data
      let key ← strings[i]?
      if type = kChildObject then
        let (children, data) ← decodeObject strings fuel data
        let (pairs, data) ← decodeObject strings fuel data
        return (.node key children pairs, data)
      else
        let (value, data) ← readCString data
        let (pairs, data) ← decodeObject strings fuel data
        return (.leaf key value pairs, data)

/-- A whole payload: one body and nothing after it. -/
def decodeVdf (strings : List Bytes) (data : Bytes) : Option Pairs :=
  match decodeObject strings data.length data with
  | some (pairs, []) => some pairs
  | _ => none

def maxDepth : Nat := 128

def validateGeneratedObject (strings : List Bytes) : Nat → Nat → Bytes → Except String Bytes
  | 0, depth, _ =>
    .error (if depth > maxDepth then "generated KV nesting is too deep"
      else "generated KV object is missing its end marker")
  | fuel + 1, depth, data =>
    if depth > maxDepth then .error "generated KV nesting is too deep"
    else
      match data with
      | [] => .error "generated KV object is missing its end marker"
      | type :: data =>
        if type = kEnd then .ok data
        else if type ≠ kChildObject ∧ type ≠ kString then
          .error "generated KV contains an unexpected node type"
        else
          match readLE32 data with
          | none => .error "generated KV key index is truncated"
          | some (i, data) =>
            if i ≥ strings.length then .error "generated KV key index is outside the string table"
            else if type = kChildObject then do
              let data ← validateGeneratedObject strings fuel (depth + 1) data
              validateGeneratedObject strings fuel depth data
            else
              match readCString data with
              | none => .error "generated KV string is not NUL-terminated"
              | some (_, data) => validateGeneratedObject strings fuel depth data

def validateGeneratedVdf (data : Bytes) (strings : List Bytes) : Except String Unit :=
  if data.isEmpty = true then .error "generated KV is empty"
  else do
    let rest ← validateGeneratedObject strings data.length 0 data
    if rest.isEmpty = true then .ok () else .error "generated KV has trailing bytes"

/-- No value of the tree holds a terminator byte. -/
def NulFree : Pairs → Prop
  | .nil => True
  | .leaf _ value rest => 0 ∉ value ∧ NulFree rest
  | .node _ children rest => NulFree children ∧ NulFree rest

instance decidableNulFree : (pairs : Pairs) → Decidable (NulFree pairs)
  | .nil => isTrue trivial
  | .leaf _ value rest =>
    have := decidableNulFree rest
    inferInstanceAs (Decidable (0 ∉ value ∧ NulFree rest))
  | .node _ children rest =>
    have := decidableNulFree children
    have := decidableNulFree rest
    inferInstanceAs (Decidable (NulFree children ∧ NulFree rest))

theorem readLE32_write {n : Nat} (h : n < 0x100000000) (rest : Bytes) :
    readLE32 (writeLE32 n ++ rest) = some (n, rest) := by
  simp only [writeLE32, List.cons_append, List.nil_append, readLE32, UInt8.toNat_ofNat', Option.some.injEq,
    Prod.mk.injEq, and_true]
  omega

@[simp] theorem length_writeLE32 (n : Nat) : (writeLE32 n).length = 4 := rfl

/-- Four bytes are the number that is read from them. -/
theorem writeLE32_of_read {blob rest : Bytes} {n : Nat} (h : readLE32 blob = some (n, rest)) :
    n < 0x100000000 ∧ blob = writeLE32 n ++ rest := by
  match blob with
  | [] | [_] | [_, _] | [_, _, _] => cases h
  | a :: b :: c :: d :: tail =>
    rw [readLE32] at h
    cases h
    have ha := a.toNat_lt
    have hb := b.toNat_lt
    have hc := c.toNat_lt
    have hd := d.toNat_lt
    refine ⟨by omega, ?_⟩
    simp only [writeLE32, List.cons_append, List.nil_append, List.cons.injEq, ← UInt8.toNat_inj, UInt8.toNat_ofNat',
      and_true]
    omega

theorem readLE32_eq_none_iff {blob : Bytes} : readLE32 blob = none ↔ blob.length < 4 := by
  match blob with
  | [] | [_] | [_, _] | [_, _, _] => simp [readLE32]
  | a :: b :: c :: d :: tail => simp [readLE32]

theorem readCString_write {value : Bytes} (h : 0 ∉ value) (rest : Bytes) :
    readCString (value ++ 0 :: rest) = some (value, rest) := by
  induction value with
  | nil => simp [readCString]
  | cons c value ih =>
    have hc : c ≠ 0 := fun hc => h (by simp [hc])
    have hvalue : 0 ∉ value := fun hv => h (by simp [hv])
    simp [readCString, hc, ih hvalue]

theorem readCString_nulFree {data value rest : Bytes} (h : readCString data = some (value, rest)) : 0 ∉ value := by
  induction data generalizing value with
  | nil => cases h
  | cons c cs ih =>
    simp only [readCString] at h
    split at h
    · cases h
      simp
    · next hc =>
      obtain ⟨⟨tail, after⟩, htail, heq⟩ := Option.map_eq_some_iff.mp h
      cases heq
      intro hmem
      obtain h0 | h0 := List.mem_cons.mp hmem
      · exact hc h0.symm
      · exact ih htail h0

/-- What the reader returns never holds a terminator in a value. -/
theorem decodeObject_nulFree (strings : List Bytes) (fuel : Nat) {data rest : Bytes} {pairs : Pairs}
    (h : decodeObject strings fuel data = some (pairs, rest)) : NulFree pairs := by
  induction fuel generalizing data rest pairs with
  | zero => cases h
  | succ fuel ih =>
    cases data with
    | nil => cases h
    | cons type data =>
      simp only [decodeObject] at h
      split at h
      · cases h
        trivial
      · split at h
        · cases h
        · simp only [bind, Option.bind_eq_some_iff] at h
          obtain ⟨⟨i, afterIndex⟩, -, key, -, h⟩ := h
          split at h
          · simp only [Option.bind_eq_some_iff] at h
            obtain ⟨⟨children, inside⟩, hchildren, ⟨more, after⟩, hmore, heq⟩ := h
            cases heq
            exact ⟨ih hchildren, ih hmore⟩
          · simp only [Option.bind_eq_some_iff] at h
            obtain ⟨⟨value, inside⟩, hvalue, ⟨more, after⟩, hmore, heq⟩ := h
            cases heq
            exact ⟨readCString_nulFree hvalue, ih hmore⟩

/-- The round trip of an encoded body whose values hold no terminator. -/
theorem decodeObject_encodes {strings : List Bytes} {pairs : Pairs} {out : Bytes}
    (h : Encodes strings pairs out) (hfree : NulFree pairs) (fuel : Nat) (hfuel : out.length ≤ fuel)
    (rest : Bytes) : decodeObject strings fuel (out ++ rest) = some (pairs, rest) := by
  induction h generalizing fuel rest with
  | nil =>
    obtain ⟨fuel, rfl⟩ := Nat.exists_eq_succ_of_ne_zero (n := fuel) (by simp at hfuel; omega)
    rfl
  | leaf i hkey hfit _ ih =>
    rename_i key value more pairs _
    obtain ⟨fuel, rfl⟩ := Nat.exists_eq_succ_of_ne_zero (n := fuel) (by simp at hfuel; omega)
    have hmore := ih hfree.2 fuel (by simp at hfuel; omega) rest
    have hindex : readLE32 (writeLE32 i ++ (value ++ 0 :: (more ++ rest))) = _ := readLE32_write hfit _
    have hvalue : readCString (value ++ 0 :: (more ++ rest)) = _ := readCString_write hfree.1 _
    have hend : kString ≠ kEnd := by decide
    have hchild : kString ≠ kChildObject := by decide
    simp only [List.cons_append, List.nil_append, List.append_assoc, decodeObject, if_neg hend, hindex, hkey,
      hvalue, hmore, if_neg hchild, bind, Option.bind, ne_eq, not_true_eq_false, and_false, if_false]
    rfl
  | node i hkey hfit _ _ ihBody ihMore =>
    rename_i key body more children pairs _ _
    obtain ⟨fuel, rfl⟩ := Nat.exists_eq_succ_of_ne_zero (n := fuel) (by simp at hfuel; omega)
    have hbody := ihBody hfree.1 fuel (by simp at hfuel; omega) (more ++ rest)
    have hmore := ihMore hfree.2 fuel (by simp at hfuel; omega) rest
    have hindex : readLE32 (writeLE32 i ++ (body ++ (more ++ rest))) = _ := readLE32_write hfit _
    have hend : kChildObject ≠ kEnd := by decide
    simp only [List.cons_append, List.append_assoc, decodeObject, if_neg hend, hindex, hkey, hbody, hmore,
      if_true, bind, Option.bind, ne_eq, not_true_eq_false, false_and, if_false]
    rfl

theorem decodeVdf_encodes_iff {strings : List Bytes} {pairs : Pairs} {out : Bytes} (h : Encodes strings pairs out) :
    decodeVdf strings out = some pairs ↔ NulFree pairs := by
  constructor
  · intro hdecode
    simp only [decodeVdf] at hdecode
    split at hdecode
    · next decoded hobject =>
      obtain rfl := Option.some.inj hdecode
      exact decodeObject_nulFree strings _ hobject
    · cases hdecode
  · intro hfree
    have hobject := decodeObject_encodes h hfree out.length (Nat.le_refl _) []
    rw [List.append_nil] at hobject
    simp only [decodeVdf, hobject]

/-- What the validator accepts, the reader reads. -/
theorem validated_decodes (strings : List Bytes) (fuel depth : Nat) {data rest : Bytes}
    (h : validateGeneratedObject strings fuel depth data = .ok rest) :
    ∃ pairs, decodeObject strings fuel data = some (pairs, rest) := by
  induction fuel generalizing depth data rest with
  | zero => cases h
  | succ fuel ih =>
    simp only [validateGeneratedObject] at h
    split at h
    · cases h
    · split at h
      · cases h
      · next type data =>
        simp only [decodeObject]
        split at h
        · next hend =>
          obtain rfl := Except.ok.inj h
          exact ⟨.nil, if_pos hend⟩
        · next hend =>
          rw [if_neg hend]
          split at h
          · cases h
          · next hnode =>
            rw [if_neg hnode]
            split at h
            · cases h
            · next i afterIndex hindex =>
              split at h
              · cases h
              · next hlt =>
                have hinside : i < strings.length := by omega
                have hkey : strings[i]? = some strings[i] := List.getElem?_eq_getElem hinside
                simp only [hindex, hkey, bind, Option.bind]
                split at h
                · next hchild =>
                  obtain ⟨inside, hinside, h⟩ := bind_ok h
                  obtain ⟨children, hchildren⟩ := ih (depth + 1) hinside
                  obtain ⟨pairs, hpairs⟩ := ih depth h
                  rw [if_pos hchild]
                  exact ⟨_, by simp only [hchildren, hpairs]; rfl⟩
                · next hchild =>
                  split at h
                  · cases h
                  · next value after hvalue =>
                    obtain ⟨pairs, hpairs⟩ := ih depth h
                    rw [if_neg hchild]
                    exact ⟨_, by simp only [hvalue, hpairs]; rfl⟩

/-- A translated payload reads back as the tree the grammar assigns to the
text's top-level pair exactly when no value of that tree holds a NUL. -/
theorem translated_decodes_iff {wire : Bytes} {f : StringTable} {out : Bytes} {f' : StringTable}
    (h : translateWireToIndexed wire f = .ok (out, f')) :
    ∃ tree, TopPair (wireText wire) tree ∧ (∀ other, TopPair (wireText wire) other → other = tree) ∧
      (decodeVdf f'.strings out = some tree ↔ NulFree tree) := by
  obtain ⟨tree, htree, hencoded⟩ := translateWireToIndexed_spec h
  exact ⟨tree, htree, fun other hother => hother.unique htree, decodeVdf_encodes_iff hencoded⟩

def emptyTable : StringTable where
  strings := []
  stringIndex := fun _ => none
  resolves := fun _ _ h => by cases h
  bounded := by decide

def ascii (text : List Char) : Bytes := text.map fun c => UInt8.ofNat c.toNat

/-- A nested object with bare words, a comment and an escape. -/
def commentedWire : Bytes :=
  ascii ['"', 'a', '"', ' ', '{', ' ', '/', '/', '"', '\n', 'i', ' ', '"', '\\', '"', '"', ' ', 'e', '{', '}',
    '}', '\n'] ++ [0]

def commentedTree : Pairs :=
  .node (ascii ['a']) (.leaf (ascii ['i']) (ascii ['"']) (.node (ascii ['e']) .nil .nil)) .nil

private theorem lexes_of_fst {input : Bytes} {tok : Tok} (h : (next input).1 = tok) (htok : tok ≠ .finished) :
    Lexes input tok (next input).2 :=
  lexes_next (Prod.ext h rfl) htok

theorem commented_decodes :
    ∃ out f', translateWireToIndexed commentedWire emptyTable = .ok (out, f') ∧
      decodeVdf f'.strings out = some commentedTree := by
  have htop : TopPair (wireText commentedWire) commentedTree := by
    apply TopPair.node (lexes_of_fst rfl Tok.noConfusion) (lexes_of_fst rfl Tok.noConfusion)
    apply Body.leaf (lexes_of_fst rfl Tok.noConfusion) (lexes_of_fst rfl Tok.noConfusion)
    apply Body.node (lexes_of_fst rfl Tok.noConfusion) (lexes_of_fst rfl Tok.noConfusion)
    · exact .close (lexes_of_fst rfl Tok.noConfusion)
    · exact .close (lexes_of_fst rfl Tok.noConfusion)
  have htranslated : ∃ out f', translateWireToIndexed commentedWire emptyTable = .ok (out, f') := ⟨_, _, rfl⟩
  obtain ⟨out, f', h⟩ := htranslated
  obtain ⟨tree, -, hunique, hiff⟩ := translated_decodes_iff h
  obtain rfl := hunique commentedTree htop
  refine ⟨out, f', h, hiff.mpr ?_⟩
  decide

/-- The key `k` with the value `a`, NUL, 1, four NULs, `b`. -/
def splitWire : Bytes := ascii ['"', 'k', '"', ' ', '"', 'a'] ++ [0, 1, 0, 0, 0, 0] ++ ascii ['b', '"']

/-- The validator accepts a payload in which a NUL inside the only value opens
a second node. -/
theorem nul_in_value_adds_node :
    ∃ out f', translateWireToIndexed splitWire emptyTable = .ok (out, f') ∧
      validateGeneratedVdf out f'.strings = .ok () ∧
      TopPair (wireText splitWire)
        (.leaf (ascii ['k']) (ascii ['a'] ++ [0, 1, 0, 0, 0, 0] ++ ascii ['b']) .nil) ∧
      decodeVdf f'.strings out =
        some (.leaf (ascii ['k']) (ascii ['a']) (.leaf (ascii ['k']) (ascii ['b']) .nil)) := by
  refine ⟨_, _, rfl, rfl, ?_, rfl⟩
  exact .leaf (lexes_of_fst rfl Tok.noConfusion) (lexes_of_fst rfl Tok.noConfusion)

end SlsteamMoon.KeyValues
