import SlsteamMoon.ProvisionCache.Render

/-! When both readers give back the document: just when no sequence is an element of a sequence,
which the text says is an empty string. -/
namespace SlsteamMoon.ProvisionCache
open KeyValues

/-! ### The provisioner's reader -/

/-- No map of the tree has a key twice. -/
def Distinct : Pairs → Prop
  | .nil => True
  | .leaf key _ rest => find key rest = none ∧ Distinct rest
  | .node key children rest => find key rest = none ∧ Distinct children ∧ Distinct rest

theorem Distinct.of_find {key : Bytes} {tree children : Pairs} (h : Distinct tree)
    (hfind : find key tree = some (.object children)) : Distinct children := by
  induction tree with
  | nil => cases hfind
  | leaf k value rest ih =>
    rw [find] at hfind
    split_ifs at hfind
    · cases hfind
    · exact ih h.2 hfind
  | node k other rest _ ih =>
    rw [find] at hfind
    split_ifs at hfind
    · cases hfind
      exact h.2.1
    · exact ih h.2.2 hfind

private theorem pair_append (key : Bytes) (value : Value) (rest more : Pairs) :
    (value.pair key rest).append more = value.pair key (rest.append more) := by
  cases value <;> rfl

/-- A new key goes to the end of the map. -/
theorem assign_new {key : Bytes} {node : Pairs} (h : find key node = none) (value : Value) :
    assign key value node = node.append (value.pair key .nil) := by
  induction node with
  | nil => rfl
  | leaf k v rest ih =>
    rw [find] at h
    split_ifs at h with hk
    rw [assign, if_neg hk, Pairs.append, ih h]
  | node k children rest _ ih =>
    rw [find] at h
    split_ifs at h with hk
    rw [assign, if_neg hk, Pairs.append, ih h]

theorem distinct_pair {key : Bytes} {value : Value} {rest : Pairs} :
    Distinct (value.pair key rest) ↔ find key rest = none ∧
      (∀ children, value = .object children → Distinct children) ∧ Distinct rest := by
  cases value with
  | scalar v => simp [Value.pair, Distinct]
  | object children => simp [Value.pair, Distinct]

/-- The keys of two maps have nothing in common. -/
def Apart (node pairs : Pairs) : Prop := ∀ key, find key node = none ∨ find key pairs = none

/-- The first pair of what is to come goes over to what has been read. -/
theorem Apart.shift {node rest : Pairs} {key : Bytes} (value : Value) (h : Apart node (value.pair key rest))
    (hkey : find key rest = none) :
    Apart (assign key value node) rest ∧
      (assign key value node).append rest = node.append (value.pair key rest) := by
  have hnew : find key node = none := (h key).resolve_right (by rw [find_pair_self]; exact Option.some_ne_none _)
  constructor
  · intro other
    rw [find_assign]
    split_ifs with hother
    · exact .inr (by rw [← hother, hkey])
    · have := h other
      rwa [find_pair_ne hother] at this
  · rw [assign_new hnew, Pairs.append_assoc, pair_append]
    rfl

/-- The reader gives the pairs of a body after those it has. -/
theorem parseObject_body {input rest : Bytes} {pairs : Pairs} (h : Body input pairs rest) (fuel : Nat) (node : Pairs)
    (hfuel : input.length ≤ fuel) (hdistinct : Distinct pairs) (hapart : Apart node pairs) :
    parseObject fuel node input = (node.append pairs, rest) := by
  induction h generalizing fuel node with
  | close hbrace =>
    have hlt := hbrace.length_lt
    obtain ⟨fuel, rfl⟩ := Nat.exists_eq_succ_of_ne_zero (n := fuel) (by omega)
    rw [parseObject, next_lexes hbrace, Pairs.append_nil]
  | leaf hkey hvalue _ ih =>
    have hk := hkey.length_lt
    have hv := hvalue.length_lt
    obtain ⟨fuel, rfl⟩ := Nat.exists_eq_succ_of_ne_zero (n := fuel) (by omega)
    rename_i key value pairs _
    obtain ⟨hshift, happend⟩ := Apart.shift (.scalar value) hapart hdistinct.1
    rw [parseObject, next_lexes hkey]
    dsimp only
    rw [next_lexes hvalue]
    dsimp only
    rw [ih fuel _ (by omega) hdistinct.2 hshift, happend]
    rfl
  | node hkey hbrace hbody _ ihBody ihMore =>
    have hk := hkey.length_lt
    have hb := hbrace.length_lt
    have hafter := hbody.length_lt
    obtain ⟨fuel, rfl⟩ := Nat.exists_eq_succ_of_ne_zero (n := fuel) (by omega)
    rename_i key children pairs _
    obtain ⟨hshift, happend⟩ := Apart.shift (.object children) hapart hdistinct.1
    have hchild := ihBody fuel .nil (by omega) hdistinct.2.1 fun _ => .inl rfl
    rw [parseObject, next_lexes hkey]
    dsimp only
    rw [next_lexes hbrace]
    dsimp only
    rw [hchild]
    dsimp only [Pairs.append]
    rw [ihMore fuel _ (by omega) hdistinct.2.2 hshift, happend]
    rfl

/-! ### Documents -/

private theorem Entries.find_written (key : Bytes) : (e : Entries) → e.Lacks key → find key e.written = none
  | .nil, _ => rfl
  | .cons other value rest, h => by
    rw [Entries.Lacks] at h
    rw [Entries.written, find_pair_ne h.1]
    exact rest.find_written key h.2

private theorem Items.find_written (j idx : Nat) :
    (items : Items) → j < idx → find (toDecimal j) (items.written idx) = none
  | .nil, _ => rfl
  | .cons child rest, h => by
    have hne : toDecimal idx ≠ toDecimal j := fun heq => absurd (toDecimal_injective heq) (by omega)
    rw [Items.written, find_pair_ne hne]
    exact rest.find_written j (idx + 1) (by omega)

mutual

/-- The text of a document never has a key twice in a map. -/
theorem Entries.distinct_written : (e : Entries) → e.Proper → Distinct e.written
  | .nil, _ => trivial
  | .cons key value rest, h => by
    rw [Entries.Proper] at h
    rw [Entries.written]
    exact distinct_pair.mpr ⟨rest.find_written key h.2.1, value.distinct_written h.2.2.1, rest.distinct_written h.2.2.2⟩

theorem Node.distinct_written : (v : Node) → v.Proper → ∀ children, v.written = .object children → Distinct children
  | .scalar _, _, _, heq => by cases heq
  | .map entries, h, _, heq => by
    obtain rfl := Value.object.inj heq
    exact entries.distinct_written h
  | .sequence items, h, _, heq => by
    obtain rfl := Value.object.inj heq
    exact items.distinct_written 0 h
  | .null, _, _, heq => by cases heq

theorem Items.distinct_written (idx : Nat) : (items : Items) → items.Proper → Distinct (items.written idx)
  | .nil, _ => trivial
  | .cons child rest, h => by
    rw [Items.Proper] at h
    rw [Items.written]
    exact distinct_pair.mpr ⟨rest.find_written idx (idx + 1) (Nat.lt_succ_self idx), child.distinct_writtenChild h.1,
      rest.distinct_written (idx + 1) h.2⟩

private theorem Node.distinct_writtenChild :
    (v : Node) → v.Proper → ∀ children, v.writtenChild = .object children → Distinct children
  | .scalar _, _, _, heq => by cases heq
  | .map entries, h, _, heq => by
    obtain rfl := Value.object.inj heq
    exact entries.distinct_written h
  | .sequence _, _, _, heq => by cases heq
  | .null, _, _, heq => by cases heq

end

/-- A value without a NUL. -/
def Value.Clean : Value → Prop
  | .scalar value => 0 ∉ value
  | .object children => NulFree children

private theorem nulFree_of_clean {key : Bytes} {value : Value} {rest : Pairs} (h : value.Clean) (hrest : NulFree rest) :
    NulFree (value.pair key rest) := by
  cases value with
  | scalar v => exact ⟨h, hrest⟩
  | object children => exact ⟨h, hrest⟩

mutual

private theorem Entries.nulFree_written : (e : Entries) → e.Proper → NulFree e.written
  | .nil, _ => trivial
  | .cons key value rest, h => by
    rw [Entries.Proper] at h
    rw [Entries.written]
    exact nulFree_of_clean (value.clean_written h.2.2.1) (rest.nulFree_written h.2.2.2)

private theorem Node.clean_written : (v : Node) → v.Proper → v.written.Clean
  | .scalar _, h => h
  | .map entries, h => entries.nulFree_written h
  | .sequence items, h => items.nulFree_written 0 h
  | .null, _ => List.not_mem_nil

private theorem Items.nulFree_written (idx : Nat) : (items : Items) → items.Proper → NulFree (items.written idx)
  | .nil, _ => trivial
  | .cons child rest, h => by
    rw [Items.Proper] at h
    rw [Items.written]
    exact nulFree_of_clean (child.clean_writtenChild h.1) (rest.nulFree_written (idx + 1) h.2)

private theorem Node.clean_writtenChild : (v : Node) → v.Proper → v.writtenChild.Clean
  | .scalar _, h => h
  | .map entries, h => entries.nulFree_written h
  | .sequence _, _ => List.not_mem_nil
  | .null, _ => List.not_mem_nil

end

private theorem pair_inj {key : Bytes} {value value' : Value} {rest rest' : Pairs} :
    value.pair key rest = value'.pair key rest' ↔ value = value' ∧ rest = rest' := by
  cases value <;> cases value' <;> simp [Value.pair]

mutual

/-- The text says what the document means just when the document is flat. -/
theorem Entries.written_eq_iff : (e : Entries) → (e.written = e.pairs ↔ e.flat = true)
  | .nil => iff_of_true rfl rfl
  | .cons key value rest => by
    rw [Entries.written, Entries.pairs, Entries.flat, pair_inj, Bool.and_eq_true, value.written_eq_iff,
      rest.written_eq_iff]

theorem Node.written_eq_iff : (v : Node) → (v.written = v.value ↔ v.flat = true)
  | .scalar _ => iff_of_true rfl rfl
  | .map entries => by
    rw [Node.written, Node.value, Node.flat, Value.object.injEq, entries.written_eq_iff]
  | .sequence items => by
    rw [Node.written, Node.value, Node.flat, Value.object.injEq, items.written_eq_iff]
  | .null => iff_of_true rfl rfl

theorem Items.written_eq_iff (idx : Nat) : (items : Items) → (items.written idx = items.pairs idx ↔ items.flat = true)
  | .nil => iff_of_true rfl rfl
  | .cons child rest => by
    rw [Items.written, Items.pairs, Items.flat, pair_inj, Bool.and_eq_true, child.writtenChild_eq_iff,
      rest.written_eq_iff]

private theorem Node.writtenChild_eq_iff : (v : Node) → (v.writtenChild = v.value ↔ v.flatChild = true)
  | .scalar _ => iff_of_true rfl rfl
  | .map entries => by
    rw [Node.writtenChild, Node.value, Node.flatChild, Value.object.injEq, entries.written_eq_iff]
  | .sequence _ => by
    rw [Node.writtenChild, Node.value, Node.flatChild]
    exact iff_of_false Value.noConfusion Bool.noConfusion
  | .null => iff_of_true rfl rfl

end

private theorem parseAppinfo_render (d : Document) : parseAppinfo (renderAppinfo d.body) = some d.body.written := by
  have hkey := lexes_emitEscaped Blank.nil appinfoKey
    ([newline] ++ lbrace :: ([newline] ++ (emitMap 1 d.body ++ (tabs 0 ++ rbrace :: [newline]))))
  have hbody := d.body.writes 1 [newline] 0 [newline] blank_newline
  rw [List.nil_append] at hkey
  rw [renderAppinfo_eq, parseAppinfo, next_lexes hkey]
  dsimp only
  rw [next_lexes (lexes_openBrace blank_newline _)]
  dsimp only
  rw [parseObject_body hbody _ .nil (Nat.le_refl _) (d.body.distinct_written d.proper) fun _ => .inl rfl]
  rfl

/-- Both readers give back what the document means. The first needs room in the string table. -/
structure ReadsBack (d : Document) : Prop where
  translated : ∀ f : StringTable,
    (∃ out f', translateWireToIndexed (renderAppinfo d.body) f = .ok (out, f') ∧
      decodeVdf f'.strings out = some (.node appinfoKey d.body.pairs .nil)) ∨
    maxStrings < f.strings.length + (d.body.pairs.keyCount + 1) ∧
      ∃ what table, translateWireToIndexed (renderAppinfo d.body) f = .error ⟨.thrown what, table⟩
  parsed : parseAppinfo (renderAppinfo d.body) = some d.body.pairs

/-- A document reads back just when no sequence of it is an element of a sequence. -/
theorem readsBack_iff_flat (d : Document) : ReadsBack d ↔ d.body.flat = true := by
  rw [← d.body.written_eq_iff]
  constructor
  · intro h
    exact Option.some.inj ((parseAppinfo_render d).symm.trans h.parsed)
  · intro h
    constructor
    · intro f
      rw [← h]
      exact translateWireToIndexed_accepts f (topPair_renderAppinfo d.body) (d.body.nulFree_written d.proper)
    · rw [parseAppinfo_render, h]

/-- The document `k: [[v]]`. -/
def nestedSequence : Document where
  body := .cons [0x6b] (.sequence (.cons (.sequence (.cons (.scalar [0x76]) .nil)) .nil)) .nil
  proper := by simp [Entries.Proper, Entries.Lacks, Node.Proper, Items.Proper]

/-- The inner sequence reads back as the empty string. -/
theorem nestedSequence_lost :
    parseAppinfo (renderAppinfo nestedSequence.body) = some (.node [0x6b] (.leaf [0x30] [] .nil) .nil) ∧
      nestedSequence.body.pairs = .node [0x6b] (.node [0x30] (.leaf [0x30] [0x76] .nil) .nil) .nil ∧
      ¬ReadsBack nestedSequence := by
  have hparsed : parseAppinfo (renderAppinfo nestedSequence.body) = some (.node [0x6b] (.leaf [0x30] [] .nil) .nil) := by
    decide +kernel
  have hpairs : nestedSequence.body.pairs = .node [0x6b] (.node [0x30] (.leaf [0x30] [0x76] .nil) .nil) .nil := by
    decide +kernel
  refine ⟨hparsed, hpairs, fun h => ?_⟩
  have := h.parsed
  rw [hparsed, hpairs] at this
  cases this

end SlsteamMoon.ProvisionCache
