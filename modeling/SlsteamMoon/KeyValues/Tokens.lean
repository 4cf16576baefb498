import SlsteamMoon.KeyValues.Accept

/-! A whole text as a run of tokens, and what text put between two tokens does to its tree. -/
namespace SlsteamMoon.KeyValues

/-- A run of tokens at the front of a text. -/
inductive Reads : Bytes → List Tok → Bytes → Prop
  | nil (input : Bytes) : Reads input [] input
  | cons {input mid rest : Bytes} {tok : Tok} {toks : List Tok} (first : Lexes input tok mid)
      (more : Reads mid toks rest) : Reads input (tok :: toks) rest

/-- Pairs up to the end of the text. -/
inductive Document : Bytes → Pairs → Prop
  | finished {input : Bytes} (ends : skipWs false input = []) : Document input .nil
  | leaf {input afterKey afterValue key value : Bytes} {pairs : Pairs}
      (keyTok : Lexes input (.string key) afterKey) (valueTok : Lexes afterKey (.string value) afterValue)
      (more : Document afterValue pairs) : Document input (.leaf key value pairs)
  | node {input afterKey inside after key : Bytes} {children pairs : Pairs}
      (keyTok : Lexes input (.string key) afterKey) (brace : Lexes afterKey .openBrace inside)
      (body : Body inside children after) (more : Document after pairs) :
      Document input (.node key children pairs)

def Pairs.tokens : Pairs → List Tok
  | .nil => []
  | .leaf key value rest => .string key :: .string value :: rest.tokens
  | .node key children rest => .string key :: .openBrace :: (children.tokens ++ .closeBrace :: rest.tokens)

def Pairs.keys : Pairs → List Bytes
  | .nil => []
  | .leaf key _ rest => key :: rest.keys
  | .node key _ rest => key :: rest.keys

/-- The pairs whose keys are not among these. -/
def Pairs.without (keys : List Bytes) : Pairs → Pairs
  | .nil => .nil
  | .leaf key value rest => if key ∈ keys then rest.without keys else .leaf key value (rest.without keys)
  | .node key children rest => if key ∈ keys then rest.without keys else .node key children (rest.without keys)

theorem Pairs.tokens_append (a b : Pairs) : (a.append b).tokens = a.tokens ++ b.tokens := by
  induction a with
  | nil => rfl
  | leaf key value rest ih => rw [append, tokens, ih, tokens, List.cons_append, List.cons_append]
  | node key children rest _ ih =>
    rw [append, tokens, ih, tokens, List.cons_append, List.cons_append, List.append_assoc, List.cons_append]

theorem Pairs.keys_append (a b : Pairs) : (a.append b).keys = a.keys ++ b.keys := by
  induction a with
  | nil => rfl
  | leaf key value rest ih => rw [append, keys, ih, keys, List.cons_append]
  | node key children rest _ ih => rw [append, keys, ih, keys, List.cons_append]

section
variable {keys : List Bytes}

theorem Pairs.keys_without (pairs : Pairs) : (pairs.without keys).keys = pairs.keys.filter (· ∉ keys) := by
  induction pairs with
  | nil => rfl
  | leaf key value rest ih =>
    rw [without, Pairs.keys]
    split_ifs with h
    · rw [List.filter_cons_of_neg (by simpa using h), ih]
    · rw [List.filter_cons_of_pos (by simpa using h), Pairs.keys, ih]
  | node key children rest _ ih =>
    rw [without, Pairs.keys]
    split_ifs with h
    · rw [List.filter_cons_of_neg (by simpa using h), ih]
    · rw [List.filter_cons_of_pos (by simpa using h), Pairs.keys, ih]

theorem Pairs.without_append (a b : Pairs) : (a.append b).without keys = (a.without keys).append (b.without keys) := by
  induction a with
  | nil => rfl
  | leaf key value rest ih =>
    rw [append, without, without, ih]
    split_ifs <;> rfl
  | node key children rest _ ih =>
    rw [append, without, without, ih]
    split_ifs <;> rfl

theorem Pairs.without_of_forall_mem {pairs : Pairs} (h : ∀ key ∈ pairs.keys, key ∈ keys) : pairs.without keys = .nil := by
  induction pairs with
  | nil => rfl
  | leaf key value rest ih =>
    rw [without, if_pos (h key List.mem_cons_self), ih fun k hk => h k (List.mem_cons_of_mem key hk)]
  | node key children rest _ ih =>
    rw [without, if_pos (h key List.mem_cons_self), ih fun k hk => h k (List.mem_cons_of_mem key hk)]

theorem Pairs.without_of_forall_not_mem {pairs : Pairs} (h : ∀ key ∈ pairs.keys, key ∉ keys) :
    pairs.without keys = pairs := by
  induction pairs with
  | nil => rfl
  | leaf key value rest ih =>
    rw [without, if_neg (h key List.mem_cons_self), ih fun k hk => h k (List.mem_cons_of_mem key hk)]
  | node key children rest _ ih =>
    rw [without, if_neg (h key List.mem_cons_self), ih fun k hk => h k (List.mem_cons_of_mem key hk)]

end

section
variable {input mid rest more : Bytes} {tok : Tok} {toks toks' : List Tok}

theorem Reads.append (h : Reads input toks mid) (hmore : Reads mid toks' rest) : Reads input (toks ++ toks') rest := by
  induction h with
  | nil => exact hmore
  | cons hfirst _ ih => exact .cons hfirst (ih hmore)

theorem Reads.split (h : Reads input (toks ++ toks') rest) :
    ∃ mid, Reads input toks mid ∧ Reads mid toks' rest := by
  induction toks generalizing input with
  | nil => exact ⟨input, .nil input, h⟩
  | cons tok toks ih =>
    cases h with
    | cons hfirst h =>
      obtain ⟨mid, hmid, hrest⟩ := ih h
      exact ⟨mid, .cons hfirst hmid, hrest⟩

/-- Text behind a run changes nothing, when no bare word can grow into it. -/
theorem Lexes.extend (hmore : ∀ c, more.head? = some c → isSpecial c = true) (h : Lexes input tok rest) :
    Lexes (input ++ more) tok (rest ++ more) := by
  cases h with
  | openBrace _ hws =>
    rw [List.append_assoc, List.cons_append]
    exact .openBrace _ hws
  | closeBrace _ hws =>
    rw [List.append_assoc, List.cons_append]
    exact .closeBrace _ hws
  | quoted _ hws htext =>
    rw [List.append_assoc, List.cons_append, List.append_assoc, List.cons_append]
    exact .quoted _ hws htext
  | bare _ hws htext =>
    rw [List.append_assoc, List.append_assoc]
    refine .bare _ hws ⟨htext.nonempty, htext.plain, htext.noComment, ?_⟩
    intro c hc
    cases rest with
    | nil => exact hmore c hc
    | cons d rest => exact htext.maximal c hc

theorem Reads.extend (hmore : ∀ c, more.head? = some c → isSpecial c = true) (h : Reads input toks rest) :
    Reads (input ++ more) toks (rest ++ more) := by
  induction h with
  | nil input => exact .nil _
  | cons hfirst _ ih => exact .cons (hfirst.extend hmore) ih

theorem Lexes.blank {ws : Bytes} (hws : Blank ws) (h : Lexes input tok rest) : Lexes (ws ++ input) tok rest := by
  cases h with
  | openBrace _ hblank =>
    rw [← List.append_assoc]
    exact .openBrace _ (hws.append hblank)
  | closeBrace _ hblank =>
    rw [← List.append_assoc]
    exact .closeBrace _ (hws.append hblank)
  | quoted _ hblank htext =>
    rw [← List.append_assoc]
    exact .quoted _ (hws.append hblank) htext
  | bare _ hblank htext =>
    rw [← List.append_assoc]
    exact .bare _ (hws.append hblank) htext

end

section
variable {input rest : Bytes} {pairs : Pairs}

theorem Body.reads (h : Body input pairs rest) : Reads input (pairs.tokens ++ [.closeBrace]) rest := by
  induction h with
  | close hbrace => exact .cons hbrace (.nil _)
  | leaf hkey hvalue _ ih => exact .cons hkey (.cons hvalue ih)
  | node hkey hbrace _ _ ihBody ihMore =>
    rw [Pairs.tokens, List.cons_append, List.cons_append, List.append_assoc, List.cons_append, List.append_cons]
    exact .cons hkey (.cons hbrace (ihBody.append ihMore))

/-- Tokens of pairs are read as those pairs, whatever closes them. -/
theorem body_of_reads {more : List Tok} (h : Reads input (pairs.tokens ++ .closeBrace :: more) rest) :
    ∃ after, Body input pairs after ∧ Reads after more rest := by
  induction pairs generalizing input more with
  | nil =>
    cases h with
    | cons hbrace hmore => exact ⟨_, .close hbrace, hmore⟩
  | leaf key value pairs ih =>
    cases h with
    | cons hkey h =>
      cases h with
      | cons hvalue h =>
        obtain ⟨after, hbody, hmore⟩ := ih h
        exact ⟨after, .leaf hkey hvalue hbody, hmore⟩
  | node key children pairs ihChildren ih =>
    rw [Pairs.tokens, List.cons_append, List.cons_append, List.append_assoc, List.cons_append] at h
    cases h with
    | cons hkey h =>
      cases h with
      | cons hbrace h =>
        obtain ⟨mid, hchildren, h⟩ := ihChildren h
        obtain ⟨after, hbody, hmore⟩ := ih h
        exact ⟨after, .node hkey hbrace hchildren hbody, hmore⟩

/-- A text is a document just when its tokens are those of the tree. -/
theorem document_iff_reads : Document input pairs ↔ ∃ rest, Reads input pairs.tokens rest ∧ skipWs false rest = [] := by
  constructor
  · intro h
    induction h with
    | finished hends => exact ⟨_, .nil _, hends⟩
    | leaf hkey hvalue _ ih =>
      obtain ⟨rest, hrest, hends⟩ := ih
      exact ⟨rest, .cons hkey (.cons hvalue hrest), hends⟩
    | node hkey hbrace hbody _ ih =>
      obtain ⟨rest, hrest, hends⟩ := ih
      refine ⟨rest, .cons hkey (.cons hbrace ?_), hends⟩
      rw [List.append_cons]
      exact hbody.reads.append hrest
  · rintro ⟨rest, h, hends⟩
    induction pairs generalizing input with
    | nil =>
      cases h
      exact .finished hends
    | leaf key value pairs ih =>
      cases h with
      | cons hkey h =>
        cases h with
        | cons hvalue h => exact .leaf hkey hvalue (ih h)
    | node key children pairs _ ih =>
      cases h with
      | cons hkey h =>
        cases h with
        | cons hbrace h =>
          obtain ⟨after, hbody, hmore⟩ := body_of_reads h
          exact .node hkey hbrace hbody (ih hmore)

end

private theorem Lexes.ne_finished {input rest : Bytes} {tok : Tok} (h : Lexes input tok rest) : tok ≠ .finished := by
  cases h <;> exact Tok.noConfusion

/-- White space in front of a token takes no part in it. -/
theorem Lexes.of_newline {input rest : Bytes} {tok : Tok} (h : Lexes (newline :: input) tok rest) :
    Lexes input tok rest := by
  have hskip : skipWs false (newline :: input) = skipWs false input := by simp [skipWs, isBlank]
  have hnext := next_lexes h
  rw [next, hskip, ← next] at hnext
  exact lexes_next hnext h.ne_finished

private theorem Lexes.not_finished {input rest : Bytes} {tok : Tok} (h : Lexes input tok rest) :
    skipWs false input ≠ [] := by
  intro hends
  have hnext := next_lexes h
  rw [next, hends] at hnext
  exact h.ne_finished (Prod.mk.inj hnext).1.symm

theorem Document.unique {input : Bytes} {pairs pairs' : Pairs} (h : Document input pairs) (h' : Document input pairs') :
    pairs = pairs' := by
  induction h generalizing pairs' with
  | finished hends =>
    cases h' with
    | finished _ => rfl
    | leaf hkey' => exact absurd hends hkey'.not_finished
    | node hkey' => exact absurd hends hkey'.not_finished
  | leaf hkey hvalue _ ih =>
    cases h' with
    | finished hends => exact absurd hends hkey.not_finished
    | leaf hkey' hvalue' hmore' =>
      obtain ⟨hk, rfl⟩ := hkey.unique hkey'
      obtain ⟨hv, rfl⟩ := hvalue.unique hvalue'
      cases hk
      cases hv
      rw [ih hmore']
    | node hkey' hbrace' =>
      obtain ⟨-, rfl⟩ := hkey.unique hkey'
      cases (hvalue.unique hbrace').1
  | node hkey hbrace hbody _ ih =>
    cases h' with
    | finished hends => exact absurd hends hkey.not_finished
    | leaf hkey' hvalue' =>
      obtain ⟨-, rfl⟩ := hkey.unique hkey'
      cases (hbrace.unique hvalue').1
    | node hkey' hbrace' hbody' hmore' =>
      obtain ⟨hk, rfl⟩ := hkey.unique hkey'
      obtain ⟨-, rfl⟩ := hbrace.unique hbrace'
      obtain ⟨rfl, rfl⟩ := hbody.unique hbody'
      cases hk
      rw [ih hmore']

/-- The object of the first pair that has the key and an object. -/
def Pairs.child (key : Bytes) : Pairs → Option Pairs
  | .nil => none
  | .leaf _ _ rest => rest.child key
  | .node k children rest => if k = key then some children else rest.child key

def Pairs.setChild (key : Bytes) : Pairs → Pairs → Pairs
  | .nil, _ => .nil
  | .leaf k value rest, new => .leaf k value (rest.setChild key new)
  | .node k children rest, new => if k = key then .node k new rest else .node k children (rest.setChild key new)

/-- The tokens up to the inside of that object, and those from its end on. -/
def Pairs.childFront (key : Bytes) : Pairs → List Tok
  | .nil => []
  | .leaf k value rest => .string k :: .string value :: rest.childFront key
  | .node k children rest =>
    if k = key then [.string k, .openBrace]
    else .string k :: .openBrace :: (children.tokens ++ .closeBrace :: rest.childFront key)

def Pairs.childBack (key : Bytes) : Pairs → List Tok
  | .nil => []
  | .leaf _ _ rest => rest.childBack key
  | .node k _ rest => if k = key then .closeBrace :: rest.tokens else rest.childBack key

def Pairs.objectAt : List Bytes → Pairs → Option Pairs
  | [], pairs => some pairs
  | key :: path, pairs => (pairs.child key).bind (objectAt path)

/-- The tree with another object at the path. -/
def Pairs.withObject : List Bytes → Pairs → Pairs → Pairs
  | [], _, new => new
  | key :: path, pairs, new => pairs.setChild key (((pairs.child key).map fun c => withObject path c new).getD .nil)

def Pairs.front : List Bytes → Pairs → List Tok
  | [], _ => []
  | key :: path, pairs => pairs.childFront key ++ ((pairs.child key).map (front path)).getD []

def Pairs.back : List Bytes → Pairs → List Tok
  | [], _ => []
  | key :: path, pairs => ((pairs.child key).map (back path)).getD [] ++ pairs.childBack key

namespace Pairs
variable {key : Bytes} {path : List Bytes} {tree old new : Pairs}

private theorem child_setChild (h : tree.child key = some old) (new : Pairs) :
    (tree.setChild key new).child key = some new := by
  induction tree with
  | nil => cases h
  | leaf k value rest ih => exact ih h
  | node k children rest _ ih =>
    rw [child] at h
    rw [setChild]
    split_ifs at h ⊢ with hk
    · rw [child, if_pos hk]
    · rw [child, if_neg hk, ih h]

private theorem tokens_setChild (h : tree.child key = some old) (new : Pairs) :
    (tree.setChild key new).tokens = tree.childFront key ++ new.tokens ++ tree.childBack key := by
  induction tree with
  | nil => cases h
  | leaf k value rest ih =>
    rw [setChild, tokens, ih h, childFront, childBack]
    rfl
  | node k children rest _ ih =>
    rw [child] at h
    rw [setChild, childFront, childBack]
    split_ifs at h ⊢ with hk
    · rw [tokens]
      rfl
    · rw [tokens, ih h]
      simp only [List.cons_append, List.append_assoc]

theorem child_append (a b : Pairs) : (a.append b).child key = (a.child key).or (b.child key) := by
  induction a with
  | nil => rfl
  | leaf k value rest ih => exact ih
  | node k children rest _ ih =>
    rw [append, child, child]
    split_ifs with hk
    · rfl
    · exact ih

theorem objectAt_append (path more : List Bytes) (tree : Pairs) :
    tree.objectAt (path ++ more) = (tree.objectAt path).bind (objectAt more) := by
  induction path generalizing tree with
  | nil => rfl
  | cons key path ih =>
    rw [List.cons_append, objectAt, objectAt, Option.bind_assoc]
    exact congrArg ((tree.child key).bind ·) (funext ih)

theorem objectAt_withObject (h : tree.objectAt path = some old) (new : Pairs) :
    (tree.withObject path new).objectAt path = some new := by
  induction path generalizing tree with
  | nil => rfl
  | cons key path ih =>
    obtain ⟨c, hc, h⟩ := Option.bind_eq_some_iff.mp h
    rw [withObject, objectAt, hc, child_setChild hc]
    exact ih h

private theorem tokens_withObject (h : tree.objectAt path = some old) (new : Pairs) :
    (tree.withObject path new).tokens = tree.front path ++ new.tokens ++ tree.back path := by
  induction path generalizing tree with
  | nil =>
    rw [withObject, front, back, List.nil_append, List.append_nil]
  | cons key path ih =>
    obtain ⟨c, hc, h⟩ := Option.bind_eq_some_iff.mp h
    rw [withObject, front, back, hc, tokens_setChild hc]
    show _ ++ (c.withObject path new).tokens ++ _ = _
    rw [ih h]
    simp only [Option.map_some, Option.getD_some, List.append_assoc]

end Pairs

/-- Text can be put between `front` and `place`: they read as the tokens before and behind, and a
newline ends what may be open at the end of `front`. -/
structure Gap (front place : Bytes) (before after : List Tok) : Prop where
  reads : ∃ rest, Reads front before rest ∧ Blank (rest ++ [newline])
  readsPlace : ∃ rest, Reads place after rest ∧ skipWs false rest = []

/-- Text that reads as the tokens, whatever stands behind it. -/
def Prints (text : Bytes) (toks : List Tok) : Prop := ∀ more, Reads (text ++ more) toks more

section
variable {text text' ws body value : Bytes} {toks toks' : List Tok}

theorem prints_nil : Prints [] [] := fun more => .nil more

theorem Prints.append (h : Prints text toks) (h' : Prints text' toks') : Prints (text ++ text') (toks ++ toks') := by
  intro more
  rw [List.append_assoc]
  exact (h (text' ++ more)).append (h' more)

theorem Prints.blank (hws : Blank ws) (hne : toks ≠ []) (h : Prints text toks) : Prints (ws ++ text) toks := by
  intro more
  obtain ⟨tok, toks, rfl⟩ := List.exists_cons_of_ne_nil hne
  rw [List.append_assoc]
  cases h more with
  | cons hfirst hmore => exact .cons (hfirst.blank hws) hmore

theorem prints_openBrace (hws : Blank ws) : Prints (ws ++ [lbrace]) [.openBrace] := by
  intro more
  rw [List.append_assoc]
  exact .cons (.openBrace _ hws) (.nil more)

theorem prints_closeBrace (hws : Blank ws) : Prints (ws ++ [rbrace]) [.closeBrace] := by
  intro more
  rw [List.append_assoc]
  exact .cons (.closeBrace _ hws) (.nil more)

theorem prints_quoted (hws : Blank ws) (h : Escaped body value) :
    Prints (ws ++ quote :: (body ++ [quote])) [.string value] := by
  intro more
  rw [List.append_assoc, List.cons_append, List.append_assoc]
  exact .cons (.quoted _ hws h) (.nil more)

end

theorem blank_of_all {ws : Bytes} (h : ws.all isBlank = true) : Blank ws := by
  induction ws with
  | nil => exact .nil
  | cons c ws ih =>
    rw [List.all_cons, Bool.and_eq_true] at h
    exact .space c h.1 (ih h.2)

/-- A text without quotes and backslashes stands for itself. -/
theorem escaped_self {body : Bytes} (h : body.all (fun c => c != quote && c != backslash) = true) : Escaped body body := by
  induction body with
  | nil => exact .nil
  | cons c body ih =>
    rw [List.all_cons, Bool.and_eq_true, Bool.and_eq_true, bne_iff_ne, bne_iff_ne] at h
    exact .plain c h.1.1 h.1.2 (ih h.2)

/-- What is put into the gap is read between the two. -/
theorem Gap.reads_insert {front place text : Bytes} {before toks after : List Tok} (h : Gap front place before after)
    (hne : toks ≠ []) (htext : Prints (newline :: text) toks) :
    ∃ rest, Reads (front ++ (newline :: (text ++ place))) (before ++ toks ++ after) rest ∧ skipWs false rest = [] := by
  obtain ⟨opened, hfront, hblank⟩ := h.reads
  obtain ⟨rest, hplace, hends⟩ := h.readsPlace
  refine ⟨rest, ?_, hends⟩
  have hspecial : ∀ c, (newline :: (text ++ place)).head? = some c → isSpecial c = true := by
    rintro c ⟨⟩
    decide
  rw [List.append_assoc]
  refine (hfront.extend hspecial).append ?_
  obtain ⟨tok, toks, rfl⟩ := List.exists_cons_of_ne_nil hne
  cases htext place with
  | cons hfirst hmore =>
    have hopen := hfirst.of_newline.blank hblank
    rw [List.append_assoc] at hopen
    exact (Reads.cons hopen hmore).append hplace

/-- Pairs that are put into a gap inside an object are read as pairs of that object. -/
theorem Gap.document {front place text : Bytes} {path : List Bytes} {tree before after new : Pairs}
    (h : Gap front place (tree.front path ++ before.tokens) (after.tokens ++ tree.back path))
    (hfound : tree.objectAt path = some (before.append after)) (hne : new.tokens ≠ [])
    (htext : Prints (newline :: text) new.tokens) :
    Document (front ++ (newline :: (text ++ place))) (tree.withObject path (before.append (new.append after))) := by
  rw [document_iff_reads, Pairs.tokens_withObject hfound, Pairs.tokens_append, Pairs.tokens_append]
  obtain ⟨rest, hreads, hends⟩ := h.reads_insert hne htext
  refine ⟨rest, ?_, hends⟩
  simpa only [List.append_assoc] using hreads

/-- As many tokens as the fuel allows, and the text behind them. -/
def tokensOf : Nat → Bytes → List Tok × Bytes
  | 0, input => ([], input)
  | fuel + 1, input =>
    match next input with
    | (.finished, _) => ([], input)
    | (tok, rest) => (tok :: (tokensOf fuel rest).1, (tokensOf fuel rest).2)

private theorem tokensOf_reads (fuel : Nat) (input : Bytes) :
    Reads input (tokensOf fuel input).1 (tokensOf fuel input).2 := by
  induction fuel generalizing input with
  | zero => exact .nil input
  | succ fuel ih =>
    rw [tokensOf]
    split
    · exact .nil input
    · next tok rest hnot hnext =>
      exact .cons (lexes_next hnext hnot) (ih rest)

theorem reads_of_tokensOf {fuel : Nat} {input : Bytes} {toks : List Tok} (h : (tokensOf fuel input).1 = toks) :
    Reads input toks (tokensOf fuel input).2 := by
  rw [← h]
  exact tokensOf_reads fuel input

end SlsteamMoon.KeyValues
