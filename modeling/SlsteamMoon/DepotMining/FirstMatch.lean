import SlsteamMoon.DepotMining.Scanner
import SlsteamMoon.ProvisionCache.Render

/-! Where the scanner begins: the first string of the text that looks like the key `depots`
is that key, or there is none. -/
namespace SlsteamMoon.DepotMining
open KeyValues ProvisionCache TextSearch

def Plain (name : Bytes) : Prop := ∀ c ∈ name, c ≠ quote ∧ c ≠ backslash

instance (name : Bytes) : Decidable (Plain name) := List.decidableBAll _ name

private theorem escapeByte_plain {c : UInt8} (h : c ≠ quote ∧ c ≠ backslash) : escapeByte c = [c] := by
  rw [escapeByte, if_neg (by simp [h.1, h.2])]

private theorem escapeByte_special {c : UInt8} (h : c = backslash ∨ c = quote) : escapeByte c = [backslash, c] :=
  if_pos h

/-- A plain name in quotes is only ever written for itself. -/
theorem eq_of_prefix_escaped {name s more : Bytes} (hname : Plain name)
    (h : name ++ [quote] <+: s.flatMap escapeByte ++ quote :: more) : s = name := by
  induction name generalizing s with
  | nil =>
    cases s with
    | nil => rfl
    | cons c s =>
      exfalso
      by_cases hc : c = backslash ∨ c = quote
      · rw [List.flatMap_cons, escapeByte_special hc] at h
        exact absurd (List.cons_prefix_cons.mp h).1 (by decide)
      · rw [not_or] at hc
        rw [List.flatMap_cons, escapeByte_plain ⟨hc.2, hc.1⟩] at h
        exact hc.2 (List.cons_prefix_cons.mp h).1.symm
  | cons n name ih =>
    have hn := hname n List.mem_cons_self
    cases s with
    | nil => exact absurd (List.cons_prefix_cons.mp h).1 hn.1
    | cons c s =>
      by_cases hc : c = backslash ∨ c = quote
      · rw [List.flatMap_cons, escapeByte_special hc] at h
        exact absurd (List.cons_prefix_cons.mp h).1 hn.2
      · rw [not_or] at hc
        rw [List.flatMap_cons, escapeByte_plain ⟨hc.2, hc.1⟩] at h
        obtain ⟨rfl, htail⟩ := List.cons_prefix_cons.mp h
        rw [ih (fun d hd => hname d (List.mem_cons_of_mem n hd)) htail]

private theorem plain_depotsName : Plain depotsName := by decide

private theorem emitEscaped_depotsName : emitEscaped depotsName = depotsWord := by decide

/-! ### Pieces without the key -/

private theorem quote_not_mem_tabs (depth : Nat) : quote ∉ tabs depth :=
  fun h => absurd (List.eq_of_mem_replicate h) (by decide)

/-- The rest of a string: only an escaped quote can begin the word there. -/
theorem unseen_escaped {s : Bytes} {c : UInt8} (hc : c = tab ∨ c = newline) (h : ¬quote :: depotsName <:+ s) :
    Unseen depotsWord (s.flatMap escapeByte ++ [quote, c]) := by
  have hquote : quote ≠ c := by rcases hc with rfl | rfl <;> decide
  induction s with
  | nil =>
    refine ⟨fun more hword => ?_, fun more hword => hquote (List.cons_prefix_cons.mp hword).1, trivial⟩
    have hnext := (List.cons_prefix_cons.mp (List.cons_prefix_cons.mp hword).2).1
    rcases hc with rfl | rfl <;> exact absurd hnext (by decide)
  | cons x s ih =>
    have hrest := ih fun hsuffix => h (hsuffix.trans (List.suffix_cons x s))
    by_cases hx : x = backslash ∨ x = quote
    · rw [List.flatMap_cons, escapeByte_special hx]
      refine ⟨fun more hword => absurd (List.cons_prefix_cons.mp hword).1 (by decide), fun more hword => ?_, hrest⟩
      obtain ⟨rfl, hbehind⟩ := List.cons_prefix_cons.mp hword
      have htail : depotsName ++ [quote] <+: s.flatMap escapeByte ++ [quote, c] ++ more := hbehind
      rw [List.append_assoc] at htail
      rw [eq_of_prefix_escaped plain_depotsName htail] at h
      exact h (List.suffix_refl _)
    · rw [not_or] at hx
      rw [List.flatMap_cons, escapeByte_plain ⟨hx.2, hx.1⟩]
      exact ⟨fun more hword => hx.2 (List.cons_prefix_cons.mp hword).1.symm, hrest⟩

/-- A string and the blank behind it. -/
theorem unseen_emitEscaped {s : Bytes} {c : UInt8} (hc : c = tab ∨ c = newline) (h : ¬Marks s) :
    Unseen depotsWord (emitEscaped s ++ [c]) := by
  have hrest := unseen_escaped hc fun hsuffix => h (hsuffix.trans (List.suffix_cons quote s))
  rw [emitEscaped, List.cons_append, List.append_assoc]
  refine ⟨fun more hword => ?_, hrest⟩
  have htail := (List.cons_prefix_cons.mp hword).2
  rw [List.append_assoc] at htail
  have hs := eq_of_prefix_escaped plain_depotsName htail
  rw [Marks, hs] at h
  exact h (List.suffix_refl _)

private theorem unseen_string {s more : Bytes} {c : UInt8} (hc : c = tab ∨ c = newline) (hs : ¬Marks s)
    (hmore : Unseen depotsWord more) : Unseen depotsWord (emitEscaped s ++ c :: more) := by
  rw [← List.singleton_append (l := more), ← List.append_assoc]
  exact (unseen_emitEscaped hc hs).append hmore

private theorem unseen_front {blank more : Bytes} (h : quote ∉ blank) (hmore : Unseen depotsWord more) :
    Unseen depotsWord (blank ++ more) := (unseen_of_not_mem h).append hmore

private theorem unseen_leafText {key value : Bytes} (depth : Nat) (hkey : ¬Marks key) (hvalue : ¬Marks value) :
    Unseen depotsWord (leafText depth key value) := by
  apply unseen_front (quote_not_mem_tabs depth)
  apply unseen_string (.inl rfl) hkey
  apply unseen_front (by decide)
  exact unseen_emitEscaped (.inr rfl) hvalue

private theorem unseen_openText {key : Bytes} (depth : Nat) (hkey : ¬Marks key) :
    Unseen depotsWord (openText depth key) := by
  apply unseen_front (quote_not_mem_tabs depth)
  apply unseen_string (.inr rfl) hkey
  apply unseen_front (quote_not_mem_tabs depth)
  exact unseen_of_not_mem (by decide)

private theorem unseen_closeText (depth : Nat) : Unseen depotsWord (closeText depth) := by
  apply unseen_front (quote_not_mem_tabs depth)
  exact unseen_of_not_mem (by decide)

private theorem unseen_emitPairs {tree : Pairs} (h : Unmarked tree) (depth : Nat) :
    Unseen depotsWord (emitPairs depth tree) := by
  induction tree generalizing depth with
  | nil => trivial
  | leaf key value rest ih =>
    rw [emitPairs_leaf]
    exact (unseen_leafText depth h.1 h.2.1).append (ih h.2.2 depth)
  | node key children rest ihChildren ihRest =>
    rw [emitPairs_node]
    apply (unseen_openText depth h.1).append
    apply (ihChildren h.2.1 (depth + 1)).append
    exact (unseen_closeText depth).append (ihRest h.2.2 depth)

/-! ### Pieces in which no brace opens -/

private theorem lbrace_not_mem_tabs (depth : Nat) : lbrace ∉ tabs depth :=
  fun h => absurd (List.eq_of_mem_replicate h) (by decide)

private theorem lbrace_not_mem_emitEscaped {s : Bytes} (h : lbrace ∉ s) : lbrace ∉ emitEscaped s := by
  intro hmem
  obtain heq | hmem := List.mem_cons.mp hmem
  · exact absurd heq (by decide)
  obtain hmem | hmem := List.mem_append.mp hmem
  · obtain ⟨c, hc, hmem⟩ := List.mem_flatMap.mp hmem
    rw [escapeByte] at hmem
    split_ifs at hmem
    · obtain heq | hmem := List.mem_cons.mp hmem
      · exact absurd heq (by decide)
      · exact h (List.mem_singleton.mp hmem ▸ hc)
    · exact h (List.mem_singleton.mp hmem ▸ hc)
  · exact absurd (List.mem_singleton.mp hmem) (by decide)

private theorem lbrace_not_mem_append {front piece : Bytes} (hfront : lbrace ∉ front) (h : lbrace ∉ piece) :
    lbrace ∉ front ++ piece := by
  rw [List.mem_append, not_or]
  exact ⟨hfront, h⟩

private theorem lbrace_not_mem_leafText {key value : Bytes} (depth : Nat) (hkey : lbrace ∉ key)
    (hvalue : lbrace ∉ value) : lbrace ∉ leafText depth key value := by
  apply lbrace_not_mem_append (lbrace_not_mem_tabs depth)
  apply lbrace_not_mem_append (lbrace_not_mem_emitEscaped hkey)
  apply lbrace_not_mem_append (show lbrace ∉ [tab, tab] by decide)
  exact lbrace_not_mem_append (lbrace_not_mem_emitEscaped hvalue) (by decide)

private theorem lbrace_not_mem_emitPairs {tree : Pairs} (h : BraceFree tree) (depth : Nat) :
    lbrace ∉ emitPairs depth tree := by
  induction tree with
  | nil => exact List.not_mem_nil
  | leaf key value rest ih =>
    rw [emitPairs_leaf]
    exact lbrace_not_mem_append (lbrace_not_mem_leafText depth h.1 h.2.1) (ih h.2.2)
  | node => exact h.elim

/-! ### The first match -/

/-- What the first match in the text of the top level is. -/
inductive FirstMatch (tree : Pairs) : Prop
  | missing (hfind : find depotsName tree = none) (hunseen : Unseen depotsWord (emitPairs 1 tree))
  | scalar (before more : Bytes) {value : Bytes} (hfind : find depotsName tree = some (.scalar value))
      (hunseen : Unseen depotsWord before) (htext : emitPairs 1 tree = before ++ (depotsWord ++ more))
      (hmore : lbrace ∉ more)
  | map (before more : Bytes) {depots : Pairs} (hfind : find depotsName tree = some (.object depots))
      (hunseen : Unseen depotsWord before)
      (htext : emitPairs 1 tree = before ++ (depotsWord ++ ([newline, tab] ++ lbrace :: newline ::
        (emitPairs 2 depots ++ (closeText 1 ++ more)))))
      (hquotes : QuoteFree depots) (horderly : Orderly none depots)

theorem FirstMatch.later {tree later : Pairs} (front : Bytes) (h : FirstMatch later)
    (hfind : find depotsName tree = find depotsName later) (hunseen : Unseen depotsWord front)
    (htext : emitPairs 1 tree = front ++ emitPairs 1 later) : FirstMatch tree := by
  cases h with
  | missing hf hu =>
    refine .missing (hfind.trans hf) ?_
    rw [htext]
    exact hunseen.append hu
  | scalar before more hf hu ht hmore =>
    refine .scalar (front ++ before) more (hfind.trans hf) (hunseen.append hu) ?_ hmore
    rw [htext, ht, List.append_assoc]
  | map before more hf hu ht hquotes horderly =>
    refine .map (front ++ before) more (hfind.trans hf) (hunseen.append hu) ?_ hquotes horderly
    rw [htext, ht, List.append_assoc]

private theorem firstMatch {tree : Pairs} (h : Minable tree) : FirstMatch tree := by
  induction tree with
  | nil => exact .missing rfl trivial
  | leaf key value rest ih =>
    rw [Minable] at h
    split_ifs at h with hkey
    · subst hkey
      refine .scalar (tabs 1) ([tab, tab] ++ (emitEscaped value ++ ([newline] ++ emitPairs 1 rest))) (if_pos rfl)
        (unseen_of_not_mem (quote_not_mem_tabs 1)) ?_ ?_
      · rw [emitPairs_leaf, leafText, emitEscaped_depotsName]
        simp
      · apply lbrace_not_mem_append (by decide)
        apply lbrace_not_mem_append (lbrace_not_mem_emitEscaped h.1)
        exact lbrace_not_mem_append (by decide) (lbrace_not_mem_emitPairs h.2 1)
    · exact (ih h.2.2).later _ (if_neg hkey) (unseen_leafText 1 h.1 h.2.1) (emitPairs_leaf 1 key value rest)
  | node key children rest _ ih =>
    rw [Minable] at h
    split_ifs at h with hkey
    · subst hkey
      refine .map (tabs 1) (emitPairs 1 rest) (if_pos rfl)
        (unseen_of_not_mem (quote_not_mem_tabs 1)) ?_ h.1 h.2
      rw [emitPairs_node, openText, emitEscaped_depotsName]
      simp [tabs]
    · refine (ih h.2.2).later (openText 1 key ++ (emitPairs 2 children ++ closeText 1)) (if_neg hkey) ?_ ?_
      · exact (unseen_openText 1 h.1).append ((unseen_emitPairs h.2.1 2).append (unseen_closeText 1))
      · rw [emitPairs_node]
        simp only [List.append_assoc]

/-- The text that the walk begins with, if it begins. -/
theorem walked_renderAppinfo {body : Entries} (h : Minable body.written) :
    ((behind depotsWord (renderAppinfo body)).bind (upTo lbrace) = none ∧
        ∀ depots, find depotsName body.written ≠ some (.object depots)) ∨
      ∃ depots front more, (behind depotsWord (renderAppinfo body)).bind (upTo lbrace) =
          some (front, newline :: (emitPairs 2 depots ++ (closeText 1 ++ more))) ∧
        find depotsName body.written = some (.object depots) ∧ QuoteFree depots ∧ Orderly none depots := by
  have hword : depotsWord ≠ [] := by decide
  obtain ⟨header, hheader, htext⟩ : ∃ header, Unseen depotsWord header ∧
      renderAppinfo body = header ++ (emitPairs 1 body.written ++ closeText 0) := by
    refine ⟨emitEscaped appinfoKey ++ [newline, lbrace, newline], ?_, ?_⟩
    · have hmark : ¬Marks appinfoKey := by
        rw [Marks]
        decide
      exact unseen_string (.inr rfl) hmark (unseen_of_not_mem (by decide))
    · rw [renderAppinfo_eq, emitMap_eq]
      simp [closeText]
  have hbehind : ∀ {before more : Bytes}, Unseen depotsWord before →
      emitPairs 1 body.written = before ++ (depotsWord ++ more) →
      behind depotsWord (renderAppinfo body) = some (more ++ closeText 0) := by
    intro before more hunseen htree
    rw [htext, htree, ← behind_of_unseen (hheader.append hunseen) hword]
    simp only [List.append_assoc]
  cases firstMatch h with
  | missing hfind hunseen =>
    refine .inl ⟨?_, fun depots hdepots => ?_⟩
    · rw [htext, behind_eq_none (hheader.append (hunseen.append (unseen_closeText 0))) hword]
      rfl
    · rw [hfind] at hdepots
      cases hdepots
  | scalar before more hfind hunseen htree hmore =>
    refine .inl ⟨?_, fun depots hdepots => ?_⟩
    · rw [hbehind hunseen htree]
      exact upTo_eq_none (lbrace_not_mem_append hmore (by decide))
    · rw [hfind] at hdepots
      cases hdepots
  | map before more hfind hunseen htree hquotes horderly =>
    rename_i depots
    refine .inr ⟨depots, [newline, tab], more ++ closeText 0, ?_, hfind, hquotes, horderly⟩
    have hbrace := upTo_append (show lbrace ∉ [newline, tab] by decide)
      (newline :: (emitPairs 2 depots ++ (closeText 1 ++ (more ++ closeText 0))))
    rw [hbehind hunseen htree, Option.bind_some, ← hbrace]
    simp only [List.append_assoc, List.cons_append]

end SlsteamMoon.DepotMining

/-! The walk over the text of a tree whose strings hold no quotes: one token for each string,
and the braces of the maps. -/
namespace SlsteamMoon.DepotMining
open KeyValues ProvisionCache TextSearch

/-! ### Strings between quotes -/

/-- What stands between the quotes of a string. -/
def escaped (s : Bytes) : Bytes := s.flatMap escapeByte

private theorem quote_not_mem_escaped {s : Bytes} (h : quote ∉ s) : quote ∉ escaped s := by
  intro hmem
  obtain ⟨c, hc, hmem⟩ := List.mem_flatMap.mp hmem
  have hne : c ≠ quote := fun heq => h (heq ▸ hc)
  rw [escapeByte] at hmem
  split_ifs at hmem
  · obtain heq | hmem := List.mem_cons.mp hmem
    · exact absurd heq (by decide)
    · exact hne (List.mem_singleton.mp hmem).symm
  · exact hne (List.mem_singleton.mp hmem).symm

theorem escaped_plain {s : Bytes} (h : Plain s) : escaped s = s := by
  induction s with
  | nil => rfl
  | cons c s ih =>
    have hs := ih fun d hd => h d (List.mem_cons_of_mem c hd)
    rw [escaped, List.flatMap_cons, escapeByte_plain (h c List.mem_cons_self), List.singleton_append]
    exact congrArg (c :: ·) hs

/-- A token is a plain name just when the string is. -/
theorem escaped_eq_iff {name : Bytes} (hname : Plain name) (s : Bytes) : escaped s = name ↔ s = name := by
  constructor
  · intro h
    have hprefix : name ++ [quote] <+: s.flatMap escapeByte ++ quote :: [] := by
      rw [← h]
      exact List.prefix_refl _
    exact eq_of_prefix_escaped hname hprefix
  · rintro rfl
    exact escaped_plain hname

private theorem plain_of_isDigits {s : Bytes} (h : isDigits s = true) : Plain s := by
  rw [isDigits, Bool.and_eq_true, List.all_eq_true] at h
  intro c hc
  have hdigit := h.2 c hc
  constructor <;> rintro rfl <;> exact absurd hdigit (by decide)

/-- The digits of a string are written as they are. -/
theorem escaped_digits (s : Bytes) : escaped s = s ∨ isDigits s = false ∧ isDigits (escaped s) = false := by
  cases hs : isDigits s with
  | true => exact .inl (escaped_plain (plain_of_isDigits hs))
  | false =>
    cases htoken : isDigits (escaped s) with
    | true =>
      have heq := (escaped_eq_iff (plain_of_isDigits htoken) s).mp rfl
      exact .inl heq.symm
    | false => exact .inr ⟨rfl, rfl⟩

/-! ### Turns of the walk -/

def PassedOver (blank : Bytes) : Prop := ∀ c ∈ blank, c ≠ quote ∧ c ≠ lbrace ∧ c ≠ rbrace

instance (blank : Bytes) : Decidable (PassedOver blank) := List.decidableBAll _ blank

namespace Scan

/-- The walk over the text leads from the one state to the other. -/
def Reaches (s : Scan) (text : Bytes) (t : Scan) : Prop := ∀ rest, walk 0 s (text ++ rest) = walk 0 t rest

section
variable {s t u : Scan} {text more : Bytes}

theorem Reaches.refl (s : Scan) : s.Reaches [] s := fun _ => rfl

theorem Reaches.append (h : s.Reaches text t) (hmore : t.Reaches more u) : s.Reaches (text ++ more) u := by
  intro rest
  rw [List.append_assoc, h, hmore]

private theorem walk_skip (front rest : Bytes) (s : Scan) : walk front.length s (front ++ rest) = walk 0 s rest := by
  induction front with
  | nil => rfl
  | cons c front ih => exact ih

private theorem walk_suffix {rest text : Bytes} (h : rest <:+ text) (s : Scan) :
    walk (text.length - rest.length) s text = walk 0 s rest := by
  obtain ⟨front, rfl⟩ := h
  rw [List.length_append, Nat.add_sub_cancel]
  exact walk_skip front rest s

theorem walk_closed (hdepth : s.depth = 0) (text : Bytes) : walk 0 s text = s.out := by
  cases text with
  | nil => rw [walk]
  | cons c text => rw [walk, if_pos hdepth]

/-- Bytes that are neither quotes nor braces are passed over. -/
theorem reaches_blank (s : Scan) (blank : Bytes) (h : PassedOver blank) : s.Reaches blank s := by
  intro rest
  induction blank with
  | nil => rfl
  | cons c blank ih =>
    obtain ⟨hquote, hopen, hclose⟩ := h c List.mem_cons_self
    by_cases hdepth : s.depth = 0
    · rw [walk_closed hdepth, walk_closed hdepth]
    · rw [List.cons_append, walk, if_neg hdepth, if_neg hquote, if_neg hopen, if_neg hclose]
      exact ih fun d hd => h d (List.mem_cons_of_mem c hd)

theorem reaches_tabs (s : Scan) (depth : Nat) : s.Reaches (tabs depth) s :=
  s.reaches_blank _ fun c hc => by
    rw [List.eq_of_mem_replicate hc]
    decide

private theorem reaches_lbrace (hdepth : s.depth ≠ 0) : s.Reaches [lbrace] s.openBrace := by
  intro rest
  rw [List.singleton_append, walk, if_neg hdepth, if_neg (by decide), if_pos rfl]

private theorem reaches_rbrace (hdepth : s.depth ≠ 0) : s.Reaches [rbrace] s.closeBrace := by
  intro rest
  rw [List.singleton_append, walk, if_neg hdepth, if_neg (by decide), if_neg (by decide), if_pos rfl]

private theorem quotedValue_suffix {text value rest : Bytes} (h : quotedValue text = some (value, rest)) :
    rest <:+ text := by
  obtain ⟨⟨front, behind⟩, hfirst, hsecond⟩ := Option.bind_eq_some_iff.mp h
  rw [upTo_eq_some hfirst, upTo_eq_some hsecond]
  exact ⟨front ++ quote :: (value ++ [quote]), by simp⟩

/-- The walk goes on in the text behind the token. -/
theorem onToken_suffix (s : Scan) (token after : Bytes) : (s.onToken token after).2 <:+ after := by
  simp only [onToken]
  split_ifs
  · exact List.suffix_refl after
  · exact List.suffix_refl after
  · exact List.suffix_refl after
  · split
    · rename_i hvalue
      exact quotedValue_suffix hvalue
    · exact List.suffix_refl after
  · split
    · rename_i hvalue
      exact quotedValue_suffix hvalue
    · exact List.suffix_refl after
  · exact List.suffix_refl after

/-- A string without quotes is one token. -/
theorem walk_string (hdepth : s.depth ≠ 0) {string : Bytes} (hquote : quote ∉ string) (after : Bytes) :
    walk 0 s (emitEscaped string ++ after) =
      walk 0 (s.onToken (escaped string) after).1 (s.onToken (escaped string) after).2 := by
  have hshape : emitEscaped string ++ after = quote :: (escaped string ++ quote :: after) := by
    simp [emitEscaped, escaped]
  have hsuffix : (s.onToken (escaped string) after).2 <:+ escaped string ++ quote :: after :=
    (s.onToken_suffix (escaped string) after).trans ⟨escaped string ++ [quote], by simp⟩
  rw [hshape, walk, if_neg hdepth, if_pos rfl, upTo_append (quote_not_mem_escaped hquote)]
  exact walk_suffix hsuffix _

theorem reaches_string (hdepth : s.depth ≠ 0) {string : Bytes} (hquote : quote ∉ string)
    (htoken : ∀ after, s.onToken (escaped string) after = (t, after)) : s.Reaches (emitEscaped string) t := by
  intro rest
  rw [walk_string hdepth hquote, htoken]

theorem reaches_leafText {key value : Bytes} (depth : Nat) (hkey : s.Reaches (emitEscaped key) t)
    (hvalue : t.Reaches (emitEscaped value) u) : s.Reaches (leafText depth key value) u := by
  apply (s.reaches_tabs depth).append
  apply hkey.append
  apply (t.reaches_blank [tab, tab] (by decide)).append
  exact hvalue.append (u.reaches_blank [newline] (by decide))

theorem reaches_openText {key : Bytes} (depth : Nat) (hkey : s.Reaches (emitEscaped key) t) (hdepth : t.depth ≠ 0) :
    s.Reaches (openText depth key) t.openBrace := by
  apply (s.reaches_tabs depth).append
  apply hkey.append
  apply (t.reaches_blank [newline] (by decide)).append
  apply (t.reaches_tabs depth).append
  exact (reaches_lbrace hdepth).append (t.openBrace.reaches_blank [newline] (by decide))

theorem reaches_closeText (depth : Nat) (hdepth : s.depth ≠ 0) : s.Reaches (closeText depth) s.closeBrace := by
  apply (s.reaches_tabs depth).append
  exact (reaches_rbrace hdepth).append (s.closeBrace.reaches_blank [newline] (by decide))

/-- The value on the line of a key. -/
theorem quotedValue_line (blank : Bytes) {value : Bytes} (hblank : quote ∉ blank) (hvalue : quote ∉ value) (rest : Bytes) :
    quotedValue (blank ++ (emitEscaped value ++ rest)) = some (escaped value, rest) := by
  have hshape : emitEscaped value ++ rest = quote :: (escaped value ++ quote :: rest) := by
    simp [emitEscaped, escaped]
  rw [quotedValue, hshape, upTo_append hblank, Option.bind_some]
  exact upTo_append (quote_not_mem_escaped hvalue) rest

end
end Scan
end SlsteamMoon.DepotMining
