import SlsteamMoon.ProvisionCache.CmVdf
import SlsteamMoon.KeyValues.Accept

/-! The text that `renderAppinfoBuffer` writes for a YAML document, and the tree of pairs that the
document means: a sequence is a map keyed 0, 1, 2 and so on, a null is the empty string. -/
namespace SlsteamMoon.ProvisionCache
open KeyValues

def tab : UInt8 := 0x09

def tabs (depth : Nat) : Bytes := List.replicate depth tab

mutual

inductive Node
  | scalar (value : Bytes)
  | map (entries : Entries)
  | sequence (items : Items)
  | null

inductive Entries
  | nil
  | cons (key : Bytes) (value : Node) (rest : Entries)

inductive Items
  | nil
  | cons (value : Node) (rest : Items)

end

def escapeByte (c : UInt8) : Bytes := if c = backslash ∨ c = quote then [backslash, c] else [c]

def emitEscaped (s : Bytes) : Bytes := quote :: (s.flatMap escapeByte ++ [quote])

/-- A body between braces on lines of their own. -/
def braced (depth : Nat) (body : Bytes) : Bytes :=
  newline :: (tabs depth ++ (lbrace :: newline :: (body ++ (tabs depth ++ [rbrace, newline]))))

/-- A value on the line of its key. -/
def emitScalar (value : Bytes) : Bytes := tab :: tab :: (emitEscaped value ++ [newline])

mutual

def emitMap (depth : Nat) : Entries → Bytes
  | .nil => []
  | .cons key value rest => tabs depth ++ (emitEscaped key ++ (emitValue depth value ++ emitMap depth rest))

/-- What follows a key of a map. -/
def emitValue (depth : Nat) : Node → Bytes
  | .map entries => braced depth (emitMap (depth + 1) entries)
  | .scalar value => emitScalar value
  | .sequence items => braced depth (emitItems (depth + 1) 0 items)
  | .null => emitScalar []

/-- The children of a sequence. One that is neither a map nor a scalar is written as the empty string. -/
def emitItems (depth idx : Nat) : Items → Bytes
  | .nil => []
  | .cons child rest => tabs depth ++ (emitEscaped (toDecimal idx) ++ (emitChild depth child ++ emitItems depth (idx + 1) rest))

def emitChild (depth : Nat) : Node → Bytes
  | .map entries => braced depth (emitMap (depth + 1) entries)
  | .scalar value => emitScalar value
  | .sequence _ => emitScalar []
  | .null => emitScalar []

end

def emitNode (depth : Nat) : Node → Bytes
  | .map entries => emitMap depth entries
  | _ => []

def appinfoKey : Bytes := utf8 "appinfo"

/-- The text of a document whose envelope fields are gone. -/
def renderAppinfo (body : Entries) : Bytes :=
  utf8 "\"appinfo\"\n\x7b\n" ++ (emitNode 1 (.map body) ++ [rbrace, newline])

/-! ### What a document means -/

mutual

def Entries.pairs : Entries → Pairs
  | .nil => .nil
  | .cons key value rest => value.value.pair key rest.pairs

def Node.value : Node → Value
  | .scalar value => .scalar value
  | .map entries => .object entries.pairs
  | .sequence items => .object (items.pairs 0)
  | .null => .scalar []

def Items.pairs (idx : Nat) : Items → Pairs
  | .nil => .nil
  | .cons child rest => child.value.pair (toDecimal idx) (rest.pairs (idx + 1))

end

/-! ### What the text says -/

mutual

def Entries.written : Entries → Pairs
  | .nil => .nil
  | .cons key value rest => value.written.pair key rest.written

def Node.written : Node → Value
  | .scalar value => .scalar value
  | .map entries => .object entries.written
  | .sequence items => .object (items.written 0)
  | .null => .scalar []

def Items.written (idx : Nat) : Items → Pairs
  | .nil => .nil
  | .cons child rest => child.writtenChild.pair (toDecimal idx) (rest.written (idx + 1))

def Node.writtenChild : Node → Value
  | .scalar value => .scalar value
  | .map entries => .object entries.written
  | .sequence _ => .scalar []
  | .null => .scalar []

end

mutual

/-- No sequence is an element of a sequence. -/
def Entries.flat : Entries → Bool
  | .nil => true
  | .cons _ value rest => value.flat && rest.flat

def Node.flat : Node → Bool
  | .scalar _ => true
  | .map entries => entries.flat
  | .sequence items => items.flat
  | .null => true

def Items.flat : Items → Bool
  | .nil => true
  | .cons child rest => child.flatChild && rest.flat

def Node.flatChild : Node → Bool
  | .scalar _ => true
  | .map entries => entries.flat
  | .sequence _ => false
  | .null => true

end

mutual

/-- No key and no scalar holds a NUL, and the keys of each map are distinct. -/
def Entries.Proper : Entries → Prop
  | .nil => True
  | .cons key value rest => 0 ∉ key ∧ rest.Lacks key ∧ value.Proper ∧ rest.Proper

def Entries.Lacks (key : Bytes) : Entries → Prop
  | .nil => True
  | .cons other _ rest => other ≠ key ∧ rest.Lacks key

def Node.Proper : Node → Prop
  | .scalar value => 0 ∉ value
  | .map entries => entries.Proper
  | .sequence items => items.Proper
  | .null => True

def Items.Proper : Items → Prop
  | .nil => True
  | .cons child rest => child.Proper ∧ rest.Proper

end

/-- A map of scalars, maps, sequences and nulls. -/
structure Document where
  body : Entries
  proper : body.Proper

end SlsteamMoon.ProvisionCache

/-! What the two readers make of a rendered document: the tree that its text says, which is the tree
that the document means unless a sequence is an element of a sequence. -/
namespace SlsteamMoon.ProvisionCache
open KeyValues

/-! ### The grammar of the text -/

theorem escaped_escapeBytes (s : Bytes) : Escaped (s.flatMap escapeByte) s := by
  induction s with
  | nil => exact .nil
  | cons c s ih =>
    rw [List.flatMap_cons, escapeByte]
    split_ifs with h
    · have hself : unescape c = c := by
        rcases h with rfl | rfl
        · decide
        · decide
      have := Escaped.escape c ih
      rwa [hself] at this
    · rw [not_or] at h
      exact .plain c h.2 h.1 ih

theorem lexes_emitEscaped {ws : Bytes} (hws : Blank ws) (s rest : Bytes) :
    Lexes (ws ++ (emitEscaped s ++ rest)) (.string s) rest := by
  have := Lexes.quoted rest hws (escaped_escapeBytes s)
  rwa [show quote :: (s.flatMap escapeByte ++ quote :: rest) = emitEscaped s ++ rest by simp [emitEscaped]] at this

private theorem blank_tabs (depth : Nat) : Blank (tabs depth) := by
  induction depth with
  | zero => exact .nil
  | succ depth ih =>
    rw [tabs, List.replicate_succ]
    exact .space tab (by decide) ih

theorem blank_newline : Blank [newline] := .space newline (by decide) .nil

theorem lexes_openBrace {ws : Bytes} (hws : Blank ws) (rest : Bytes) : Lexes (ws ++ lbrace :: rest) .openBrace rest :=
  .openBrace rest hws

/-- A text that is the body `pairs` wherever it is closed. -/
def WritesBody (text : Bytes) (pairs : Pairs) : Prop :=
  ∀ ws depth after, Blank ws → Body (ws ++ (text ++ (tabs depth ++ rbrace :: after))) pairs after

/-- A text that is the value of the key before it. -/
def WritesValue (text : Bytes) (value : Value) : Prop :=
  ∀ ws key more pairs after, Blank ws → (∀ ws', Blank ws' → Body (ws' ++ more) pairs after) →
    Body (ws ++ (emitEscaped key ++ (text ++ more))) (value.pair key pairs) after

private theorem writesValue_scalar (value : Bytes) : WritesValue (emitScalar value) (.scalar value) := by
  intro ws key more pairs after hws hmore
  apply Body.leaf (lexes_emitEscaped hws key _)
  · have hblank : Blank [tab, tab] := .space tab (by decide) (.space tab (by decide) .nil)
    have := lexes_emitEscaped hblank value (newline :: more)
    rwa [show [tab, tab] ++ (emitEscaped value ++ newline :: more) = emitScalar value ++ more by simp [emitScalar]] at this
  · exact hmore [newline] blank_newline

private theorem writesValue_braced {body : Bytes} {children : Pairs} (h : WritesBody body children) (depth : Nat) :
    WritesValue (braced depth body) (.object children) := by
  intro ws key more pairs after hws hmore
  have hopen : Blank (newline :: tabs depth) := .space newline (by decide) (blank_tabs depth)
  apply Body.node (lexes_emitEscaped hws key _)
  · have := lexes_openBrace hopen ([newline] ++ (body ++ (tabs depth ++ rbrace :: newline :: more)))
    rwa [show (newline :: tabs depth) ++ lbrace :: ([newline] ++ (body ++ (tabs depth ++ rbrace :: newline :: more))) =
      braced depth body ++ more by simp [braced]] at this
  · exact h [newline] depth (newline :: more) blank_newline
  · exact hmore [newline] blank_newline

private theorem writesBody_nil : WritesBody [] .nil := by
  intro ws depth after hws
  have := Lexes.closeBrace after (hws.append (blank_tabs depth))
  rw [List.append_assoc] at this
  exact .close this

private theorem writesBody_cons {text more : Bytes} {value : Value} {pairs : Pairs} (depth : Nat) (key : Bytes)
    (hvalue : WritesValue text value) (hmore : WritesBody more pairs) :
    WritesBody (tabs depth ++ (emitEscaped key ++ (text ++ more))) (value.pair key pairs) := by
  intro ws closing after hws
  have := hvalue (ws ++ tabs depth) key (more ++ (tabs closing ++ rbrace :: after)) pairs after
    (hws.append (blank_tabs depth)) fun ws' hws' => hmore ws' closing after hws'
  simpa only [List.append_assoc] using this

mutual

theorem Entries.writes (depth : Nat) : (e : Entries) → WritesBody (emitMap depth e) e.written
  | .nil => writesBody_nil
  | .cons key value rest => writesBody_cons depth key (value.writes depth) (rest.writes depth)

theorem Node.writes (depth : Nat) : (v : Node) → WritesValue (emitValue depth v) v.written
  | .scalar value => writesValue_scalar value
  | .map entries => writesValue_braced (entries.writes (depth + 1)) depth
  | .sequence items => writesValue_braced (items.writes (depth + 1) 0) depth
  | .null => writesValue_scalar []

theorem Items.writes (depth idx : Nat) : (items : Items) → WritesBody (emitItems depth idx items) (items.written idx)
  | .nil => writesBody_nil
  | .cons child rest =>
    writesBody_cons depth (toDecimal idx) (child.writesChild depth) (rest.writes depth (idx + 1))

private theorem Node.writesChild (depth : Nat) : (v : Node) → WritesValue (emitChild depth v) v.writtenChild
  | .scalar value => writesValue_scalar value
  | .map entries => writesValue_braced (entries.writes (depth + 1)) depth
  | .sequence _ => writesValue_scalar []
  | .null => writesValue_scalar []

end

theorem renderAppinfo_eq (body : Entries) :
    renderAppinfo body = emitEscaped appinfoKey ++ ([newline] ++ lbrace :: ([newline] ++ (emitMap 1 body ++
      (tabs 0 ++ rbrace :: [newline])))) := by
  have hheader : utf8 "\"appinfo\"\n\x7b\n" = emitEscaped appinfoKey ++ ([newline] ++ lbrace :: [newline]) := by
    decide +kernel
  rw [renderAppinfo, hheader, emitNode]
  simp [tabs]

/-- The last line ends behind the closing brace, also when the trailing newline is taken off. -/
theorem wireText_renderAppinfo (body : Entries) :
    wireText (renderAppinfo body) = emitEscaped appinfoKey ++ ([newline] ++ lbrace :: ([newline] ++ (emitMap 1 body ++
      (tabs 0 ++ rbrace :: [])))) := by
  rw [renderAppinfo_eq, wireText]
  have hsplit (front : Bytes) : (front ++ (rbrace :: [newline])).rdropWhile isTrailing = front ++ [rbrace] := by
    rw [show front ++ (rbrace :: [newline]) = (front ++ [rbrace]) ++ [newline] by simp, List.rdropWhile_concat,
      if_pos (by decide), List.rdropWhile_concat, if_neg (by decide)]
  have := hsplit (emitEscaped appinfoKey ++ ([newline] ++ lbrace :: ([newline] ++ (emitMap 1 body ++ tabs 0))))
  simpa only [List.append_assoc, List.cons_append] using this

theorem topPair_renderAppinfo (body : Entries) :
    TopPair (wireText (renderAppinfo body)) (.node appinfoKey body.written .nil) := by
  rw [wireText_renderAppinfo]
  apply TopPair.node
  · have := lexes_emitEscaped Blank.nil appinfoKey
      ([newline] ++ lbrace :: ([newline] ++ (emitMap 1 body ++ (tabs 0 ++ [rbrace]))))
    rwa [List.nil_append] at this
  · exact lexes_openBrace blank_newline _
  · exact body.writes 1 [newline] 0 [] blank_newline

end SlsteamMoon.ProvisionCache
