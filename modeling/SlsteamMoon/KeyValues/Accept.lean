import SlsteamMoon.KeyValues.Decode

/-! A text of the grammar is translated, unless the string table has no room for its keys. -/
namespace SlsteamMoon.KeyValues

/-- The number of keys, nested ones included. -/
def Pairs.keyCount : Pairs → Nat
  | .nil => 0
  | .leaf _ _ rest => rest.keyCount + 1
  | .node _ children rest => children.keyCount + rest.keyCount + 1

def Pairs.append : Pairs → Pairs → Pairs
  | .nil, more => more
  | .leaf key value rest, more => .leaf key value (rest.append more)
  | .node key children rest, more => .node key children (rest.append more)

theorem Pairs.append_nil (pairs : Pairs) : pairs.append .nil = pairs := by
  induction pairs with
  | nil => rfl
  | leaf k v rest ih => rw [append, ih]
  | node k children rest _ ih => rw [append, ih]

theorem Pairs.append_assoc (a b c : Pairs) : (a.append b).append c = a.append (b.append c) := by
  induction a with
  | nil => rfl
  | leaf k v rest ih => rw [append, append, append, ih]
  | node k children rest _ ih => rw [append, append, append, ih]

/-- An emitter that takes its text up to `rest` and interns at most `n` strings, or finds the table full. -/
inductive Accepts (f : StringTable) (n : Nat) (rest : Bytes) : Emit Emitted → Prop
  | emitted (e : Emitted) (unread : e.rest = rest) (grown : e.table.strings.length ≤ f.strings.length + n) :
      Accepts f n rest (.ok e)
  | full (what : String) (table : StringTable) (room : maxStrings < f.strings.length + n) :
      Accepts f n rest (.error ⟨.thrown what, table⟩)

private theorem StringTable.intern_cases (f : StringTable) (s : Bytes) :
    (∃ i g, f.internStringIndex s = .ok (i, g) ∧ g.strings.length ≤ f.strings.length + 1) ∨
      ∃ what, f.internStringIndex s = .error ⟨.thrown what, f⟩ ∧ maxStrings < f.strings.length + 1 := by
  rw [internStringIndex]
  split
  · exact .inl ⟨_, _, rfl, Nat.le_succ _⟩
  · split
    · exact .inl ⟨_, _, rfl, by simp⟩
    · next hfull => exact .inr ⟨_, rfl, by omega⟩

theorem Accepts.mono {f g : StringTable} {n m : Nat} {rest : Bytes} {x : Emit Emitted} (h : Accepts g n rest x)
    (hle : g.strings.length + n ≤ f.strings.length + m) : Accepts f m rest x := by
  cases h with
  | emitted e hrest hgrown => exact .emitted e hrest (hgrown.trans hle)
  | full what table hroom => exact .full what table (Nat.lt_of_lt_of_le hroom hle)

/-- The pair in front, then the rest of the body. -/
theorem Accepts.cons {f : StringTable} {n m : Nat} {mid rest : Bytes} {x : Emit Emitted}
    {object : Bytes → StringTable → Emit Emitted}
    (h : Accepts f n mid x) (hmore : ∀ g, Accepts g m rest (object mid g)) :
    Accepts f (n + m) rest (x >>= fun pair => object pair.rest pair.table >>= fun more =>
      pure { more with out := pair.out ++ more.out }) := by
  cases h with
  | full what table hroom => exact .full what table (by omega)
  | emitted e hunread hgrown =>
    have hrest := hmore e.table
    rw [← hunread] at hrest
    show Accepts f (n + m) rest (object e.rest e.table >>= _)
    generalize object e.rest e.table = y at hrest
    cases hrest with
    | full what table hroom => exact .full what table (by omega)
    | emitted e' hunread' hgrown' => exact .emitted _ hunread' (by show e'.table.strings.length ≤ _; omega)

private theorem emitPair_leaf {input rest value : Bytes} (h : Lexes input (.string value) rest)
    (object : Bytes → StringTable → Emit Emitted) (key : Bytes) (f : StringTable) :
    Accepts f 1 rest (emitPair object key input f) := by
  rw [emitPair, next_lexes h]
  dsimp only
  rw [emitString]
  obtain ⟨i, g, hi, hgrown⟩ | ⟨what, hi, hroom⟩ := f.intern_cases key
  · rw [hi]
    exact .emitted _ rfl hgrown
  · rw [hi]
    exact .full what f hroom

private theorem emitPair_node {input inside rest : Bytes} {n : Nat} (h : Lexes input .openBrace inside)
    {object : Bytes → StringTable → Emit Emitted} (hobject : ∀ g, Accepts g n rest (object inside g)) (key : Bytes)
    (f : StringTable) : Accepts f (n + 1) rest (emitPair object key input f) := by
  rw [emitPair, next_lexes h]
  dsimp only
  obtain ⟨i, g, hi, hgrown⟩ | ⟨what, hi, hroom⟩ := f.intern_cases key
  · rw [hi]
    have hbody := (hobject g).mono (f := f) (m := n + 1) (by omega)
    show Accepts f (n + 1) rest (object inside g >>= _)
    generalize object inside g = body at hbody
    cases hbody with
    | emitted e hunread hgrown' => exact .emitted _ hunread hgrown'
    | full what table hroom => exact .full what table hroom
  · rw [hi]
    exact .full what f (by omega)

/-- The emitter takes a body of the grammar. -/
theorem emitObject_body {input rest : Bytes} {pairs : Pairs} (h : Body input pairs rest) (fuel : Nat)
    (hfuel : input.length ≤ fuel) (f : StringTable) : Accepts f pairs.keyCount rest (emitObject fuel input f) := by
  induction h generalizing fuel f with
  | close hbrace =>
    have hlt := hbrace.length_lt
    obtain ⟨fuel, rfl⟩ := Nat.exists_eq_succ_of_ne_zero (n := fuel) (by omega)
    rw [emitObject, next_lexes hbrace]
    exact .emitted _ rfl (Nat.le_refl _)
  | leaf hkey hvalue _ ih =>
    have hk := hkey.length_lt
    have hv := hvalue.length_lt
    obtain ⟨fuel, rfl⟩ := Nat.exists_eq_succ_of_ne_zero (n := fuel) (by omega)
    rw [emitObject, next_lexes hkey, Pairs.keyCount, Nat.add_comm]
    exact (emitPair_leaf hvalue (emitObject fuel) _ f).cons fun g => ih fuel (by omega) g
  | node hkey hbrace hbody _ ihBody ihMore =>
    have hk := hkey.length_lt
    have hb := hbrace.length_lt
    have hafter := hbody.length_lt
    obtain ⟨fuel, rfl⟩ := Nat.exists_eq_succ_of_ne_zero (n := fuel) (by omega)
    rw [emitObject, next_lexes hkey, Pairs.keyCount, Nat.add_right_comm]
    exact (emitPair_node hbrace (fun g => ihBody fuel (by omega) g) _ f).cons fun g => ihMore fuel (by omega) g

/-- A text whose top-level pair is an object is translated to what decodes to it, or the table is full. -/
theorem translateWireToIndexed_accepts {wire : Bytes} {key : Bytes} {children : Pairs} (f : StringTable)
    (h : TopPair (wireText wire) (.node key children .nil)) (hfree : NulFree children) :
    (∃ out f', translateWireToIndexed wire f = .ok (out, f') ∧
        decodeVdf f'.strings out = some (.node key children .nil)) ∨
      maxStrings < f.strings.length + (children.keyCount + 1) ∧
        ∃ what table, translateWireToIndexed wire f = .error ⟨.thrown what, table⟩ := by
  have hwire : wire.isEmpty = false := by
    cases wire with
    | nil => cases h with | node hkey => exact absurd hkey.length_lt (by simp [wireText])
    | cons c cs => rfl
  cases hresult : translateWireToIndexed wire f with
  | ok translated =>
    obtain ⟨out, f'⟩ := translated
    obtain ⟨tree, htree, hencoded⟩ := translateWireToIndexed_spec hresult
    obtain rfl := htree.unique h
    exact .inl ⟨out, f', rfl, (decodeVdf_encodes_iff hencoded).mpr ⟨hfree, trivial⟩⟩
  | error failed =>
    right
    cases h with
    | node hkey hbrace hbody =>
      have hb := hbrace.length_lt
      rw [translateWireToIndexed, hwire, next_lexes hkey] at hresult
      have hpair := emitPair_node hbrace (fun g => emitObject_body hbody _ (Nat.le_of_lt hb) g) key f
      dsimp only at hresult
      rw [if_neg (by decide)] at hresult
      generalize emitPair _ key _ f = pair at hpair hresult
      cases hpair with
      | emitted e _ _ => cases hresult
      | full what table hroom =>
        obtain rfl := Except.error.inj hresult
        exact ⟨hroom, what, table, rfl⟩

end SlsteamMoon.KeyValues
