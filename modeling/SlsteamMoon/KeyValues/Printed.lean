import SlsteamMoon.KeyValues.Tokens

/-! Texts of a printer that quotes every string and escapes the quotes and backslashes in it. -/
namespace SlsteamMoon.KeyValues

/-- What may stand behind a backslash. -/
def isEscaped (e : UInt8) : Bool := e == quote || e == backslash || e == 0x6e || e == 0x74 || e == 0x72

/-- The text of a value between its quotes. A line end or a tab may be written as it is or with its letter. -/
inductive Spells : Bytes → Bytes → Prop
  | nil : Spells [] []
  | plain (c : UInt8) {body value : Bytes} (hquote : c ≠ quote) (hslash : c ≠ backslash) (rest : Spells body value) :
      Spells (c :: body) (c :: value)
  | escape (e : UInt8) {body value : Bytes} (he : isEscaped e = true) (rest : Spells body value) :
      Spells (backslash :: e :: body) (unescape e :: value)

/-- The tokens with white space before each of them, and behind the last. -/
inductive Printed : List Tok → Bytes → Prop
  | finished {ws : Bytes} (blank : ws.all isBlank = true) : Printed [] ws
  | string {ws body value text : Bytes} {toks : List Tok} (blank : ws.all isBlank = true) (spells : Spells body value)
      (more : Printed toks text) : Printed (.string value :: toks) (ws ++ quote :: (body ++ quote :: text))
  | openBrace {ws text : Bytes} {toks : List Tok} (blank : ws.all isBlank = true) (more : Printed toks text) :
      Printed (.openBrace :: toks) (ws ++ lbrace :: text)
  | closeBrace {ws text : Bytes} {toks : List Tok} (blank : ws.all isBlank = true) (more : Printed toks text) :
      Printed (.closeBrace :: toks) (ws ++ rbrace :: text)

/-- A byte that no value has but with an escape. -/
def isControl (c : UInt8) : Bool := c == quote || c == backslash || c == newline || c == 0x09 || c == 0x0d

variable {body value word text ws more : Bytes} {toks toks' : List Tok}

theorem Spells.escaped (h : Spells body value) : Escaped body value := by
  induction h with
  | nil => exact .nil
  | plain c hquote hslash _ ih => exact .plain c hquote hslash ih
  | escape e _ _ ih => exact .escape e ih

private theorem isControl_unescape {e : UInt8} (h : isEscaped e = true) : isControl (unescape e) = true := by
  simp only [isEscaped, Bool.or_eq_true, beq_iff_eq] at h
  rcases h with (((rfl | rfl) | rfl) | rfl) | rfl <;> decide

/-- A value with no escapes but those it needs. -/
def escape (value : Bytes) : Bytes := value.flatMap fun c => if c = quote ∨ c = backslash then [backslash, c] else [c]

theorem spells_escape (value : Bytes) : Spells (escape value) value := by
  induction value with
  | nil => exact .nil
  | cons c value ih =>
    rw [escape, List.flatMap_cons]
    split_ifs with hescaped
    · rcases hescaped with rfl | rfl
      · exact .escape quote rfl ih
      · exact .escape backslash rfl ih
    · exact .plain c (fun h => hescaped (.inl h)) (fun h => hescaped (.inr h)) ih

/-- A value without quotes is written without quotes. -/
theorem Spells.quote_not_mem (h : Spells body value) (hvalue : quote ∉ value) : quote ∉ body := by
  induction h with
  | nil => exact List.not_mem_nil
  | plain c hquote _ _ ih =>
    obtain ⟨hc, hrest⟩ := List.ne_and_not_mem_of_not_mem_cons hvalue
    exact List.not_mem_cons_of_ne_of_not_mem hc (ih hrest)
  | escape e he _ ih =>
    obtain ⟨hc, hrest⟩ := List.ne_and_not_mem_of_not_mem_cons hvalue
    have hslash : quote ≠ backslash := by decide
    have hne : quote ≠ e := by
      rintro rfl
      exact hc rfl
    exact List.not_mem_cons_of_ne_of_not_mem hslash (List.not_mem_cons_of_ne_of_not_mem hne (ih hrest))

/-- A word up to the closing quote is the whole value. -/
theorem Spells.eq_of_prefix (h : Spells body value) (hword : ∀ c ∈ word, isControl c = false)
    (hbegins : word ++ [quote] <+: body ++ [quote] ++ more) : body = word ∧ value = word := by
  induction h generalizing word with
  | nil =>
    cases word with
    | nil => exact ⟨rfl, rfl⟩
    | cons c word =>
      have hc := (List.cons_prefix_cons.mp hbegins).1
      exact absurd (hword c List.mem_cons_self) (by rw [hc]; decide)
  | plain c hquote _ _ ih =>
    cases word with
    | nil => exact absurd (List.cons_prefix_cons.mp hbegins).1.symm hquote
    | cons d word =>
      obtain ⟨rfl, hrest⟩ := List.cons_prefix_cons.mp hbegins
      obtain ⟨rfl, rfl⟩ := ih (fun c hc => hword c (List.mem_cons_of_mem d hc)) hrest
      exact ⟨rfl, rfl⟩
  | escape e _ _ _ =>
    cases word with
    | nil => exact absurd (List.cons_prefix_cons.mp hbegins).1 (by decide)
    | cons d word =>
      have hd := (List.cons_prefix_cons.mp hbegins).1
      exact absurd (hword d List.mem_cons_self) (by rw [hd]; decide)

theorem Spells.eq_of_plain (h : Spells body value) (hvalue : ∀ c ∈ value, isControl c = false) : body = value := by
  induction h with
  | nil => rfl
  | plain c _ _ _ ih => rw [ih fun d hd => hvalue d (List.mem_cons_of_mem c hd)]
  | escape e he _ _ => exact absurd (hvalue _ List.mem_cons_self) (by rw [isControl_unescape he]; decide)

theorem Spells.eq_iff (h : Spells body value) (hword : ∀ c ∈ word, isControl c = false) : body = word ↔ value = word := by
  constructor
  · rintro rfl
    exact (h.eq_of_prefix hword (List.prefix_append _ [])).2
  · rintro rfl
    exact h.eq_of_plain hword

/-- The value ends with the word, and a quote of its own stands before that, or the word is all of it. -/
def EndsLike (word value : Bytes) : Prop := quote :: word <:+ quote :: value

instance (word value : Bytes) : Decidable (EndsLike word value) := inferInstanceAs (Decidable (_ <:+ _))

/-- Where a quoted word begins between two quotes: at an escaped quote, or at the second of them. -/
theorem Spells.suffix (h : Spells body value) (hword : ∀ c ∈ word, isControl c = false) {s : Bytes} (hne : s ≠ [])
    (hs : s <:+ body ++ [quote]) (hbegins : quote :: (word ++ [quote]) <+: s ++ more) :
    s = [quote] ∨ s = quote :: (word ++ [quote]) ∧ quote :: word <:+ value := by
  induction h with
  | nil =>
    rcases List.suffix_cons_iff.mp hs with rfl | hs
    · exact .inl rfl
    · exact absurd (List.suffix_nil.mp hs) hne
  | plain c hquote _ _ ih =>
    rcases List.suffix_cons_iff.mp hs with rfl | hs
    · exact absurd (List.cons_prefix_cons.mp hbegins).1.symm hquote
    · exact (ih hs).imp_right fun hfound => ⟨hfound.1, hfound.2.trans (List.suffix_cons _ _)⟩
  | @escape e body value _ rest ih =>
    rcases List.suffix_cons_iff.mp hs with rfl | hs
    · exact absurd (List.cons_prefix_cons.mp hbegins).1 (by decide)
    · rcases List.suffix_cons_iff.mp hs with rfl | hs
      · obtain ⟨rfl, hrest⟩ := List.cons_prefix_cons.mp hbegins
        obtain ⟨rfl, rfl⟩ := rest.eq_of_prefix hword hrest
        exact .inr ⟨rfl, List.suffix_refl _⟩
      · exact (ih hs).imp_right fun hfound => ⟨hfound.1, hfound.2.trans (List.suffix_cons _ _)⟩

/-- Where a quoted word begins in a quoted value. -/
theorem Spells.suffix_quoted (h : Spells body value) (hword : ∀ c ∈ word, isControl c = false) {s : Bytes} (hne : s ≠ [])
    (hs : s <:+ quote :: (body ++ [quote])) (hbegins : quote :: (word ++ [quote]) <+: s ++ more) :
    s = [quote] ∨ s = quote :: (word ++ [quote]) ∧ EndsLike word value := by
  rcases List.suffix_cons_iff.mp hs with rfl | hs
  · have hrest := (List.cons_prefix_cons.mp hbegins).2
    obtain ⟨rfl, rfl⟩ := h.eq_of_prefix hword hrest
    exact .inr ⟨rfl, List.suffix_refl _⟩
  · exact (h.suffix hword hne hs hbegins).imp_right fun hfound => ⟨hfound.1, hfound.2.trans (List.suffix_cons _ _)⟩

private theorem unescape_eq_quote {e : UInt8} (h : isEscaped e = true) (hquote : unescape e = quote) : e = quote := by
  simp only [isEscaped, Bool.or_eq_true, beq_iff_eq] at h
  rcases h with (((rfl | rfl) | rfl) | rfl) | rfl
  · rfl
  all_goals exact absurd hquote (by decide)

/-- A value that ends like the word has it quoted in its text. -/
theorem Spells.exists_suffix (h : Spells body value) (hword : ∀ c ∈ word, isControl c = false)
    (hends : quote :: word <:+ value) : quote :: (word ++ [quote]) <:+ body ++ [quote] := by
  induction h with
  | nil => exact absurd (List.suffix_nil.mp hends) (List.cons_ne_nil _ _)
  | plain c hquote _ _ ih =>
    rcases List.suffix_cons_iff.mp hends with heq | hends
    · exact absurd (List.cons.inj heq).1.symm hquote
    · exact (ih hends).trans (List.suffix_cons _ _)
  | escape e he rest ih =>
    rcases List.suffix_cons_iff.mp hends with heq | hends
    · obtain ⟨hquote, rfl⟩ := List.cons.inj heq
      rw [unescape_eq_quote he hquote.symm, rest.eq_of_plain hword]
      exact List.suffix_cons _ _
    · exact (ih hends).trans ((List.suffix_cons _ _).trans (List.suffix_cons _ _))

theorem Spells.exists_suffix_quoted (h : Spells body value) (hword : ∀ c ∈ word, isControl c = false)
    (hends : EndsLike word value) : quote :: (word ++ [quote]) <:+ quote :: (body ++ [quote]) := by
  rcases List.suffix_cons_iff.mp hends with heq | hends
  · obtain ⟨-, rfl⟩ := List.cons.inj heq
    rw [h.eq_of_plain hword]
  · exact (h.exists_suffix hword hends).trans (List.suffix_cons _ _)

theorem Printed.blank (h : Printed toks text) (hws : ws.all isBlank = true) : Printed toks (ws ++ text) := by
  have hboth {gap : Bytes} (hgap : gap.all isBlank = true) : (ws ++ gap).all isBlank = true := by
    rw [List.all_append, hws, hgap, Bool.and_self]
  cases h with
  | finished hblank => exact .finished (hboth hblank)
  | string hblank spells more =>
    rw [← List.append_assoc]
    exact .string (hboth hblank) spells more
  | openBrace hblank more =>
    rw [← List.append_assoc]
    exact .openBrace (hboth hblank) more
  | closeBrace hblank more =>
    rw [← List.append_assoc]
    exact .closeBrace (hboth hblank) more

theorem Printed.append (h : Printed toks text) (hmore : Printed toks' more) : Printed (toks ++ toks') (text ++ more) := by
  induction h with
  | finished hblank => exact hmore.blank hblank
  | string hblank spells _ ih =>
    rw [List.cons_append, List.append_assoc, List.cons_append, List.append_assoc, List.cons_append]
    exact .string hblank spells ih
  | openBrace hblank _ ih =>
    rw [List.cons_append, List.append_assoc, List.cons_append]
    exact .openBrace hblank ih
  | closeBrace hblank _ ih =>
    rw [List.cons_append, List.append_assoc, List.cons_append]
    exact .closeBrace hblank ih

theorem Printed.split (h : Printed (toks ++ toks') text) :
    ∃ front rest, text = front ++ rest ∧ Printed toks front ∧ Printed toks' rest := by
  induction toks generalizing text with
  | nil => exact ⟨[], text, rfl, .finished rfl, h⟩
  | cons tok toks ih =>
    cases h with
    | string hblank spells more =>
      obtain ⟨front, rest, rfl, hfront, hrest⟩ := ih more
      refine ⟨_, rest, ?_, .string hblank spells hfront, hrest⟩
      rw [List.append_assoc, List.cons_append, List.append_assoc, List.cons_append]
    | openBrace hblank more =>
      obtain ⟨front, rest, rfl, hfront, hrest⟩ := ih more
      refine ⟨_, rest, ?_, .openBrace hblank hfront, hrest⟩
      rw [List.append_assoc, List.cons_append]
    | closeBrace hblank more =>
      obtain ⟨front, rest, rfl, hfront, hrest⟩ := ih more
      refine ⟨_, rest, ?_, .closeBrace hblank hfront, hrest⟩
      rw [List.append_assoc, List.cons_append]

theorem Printed.quoted (spells : Spells body value) (h : Printed toks text) :
    Printed (.string value :: toks) (quote :: (body ++ quote :: text)) := @Printed.string [] _ _ _ _ rfl spells h

theorem Printed.opened (h : Printed toks text) : Printed (.openBrace :: toks) (lbrace :: text) :=
  @Printed.openBrace [] _ _ rfl h

theorem Printed.closed (h : Printed toks text) : Printed (.closeBrace :: toks) (rbrace :: text) :=
  @Printed.closeBrace [] _ _ rfl h

/-- The tokens without white space. -/
def compact : List Tok → Bytes
  | [] => []
  | .string value :: rest => quote :: (escape value ++ quote :: compact rest)
  | .openBrace :: rest => lbrace :: compact rest
  | .closeBrace :: rest => rbrace :: compact rest
  | .finished :: rest => compact rest

theorem printed_compact (h : .finished ∉ toks) : Printed toks (compact toks) := by
  induction toks with
  | nil => exact .finished rfl
  | cons tok toks ih =>
    obtain ⟨hne, hrest⟩ := List.ne_and_not_mem_of_not_mem_cons h
    cases tok with
    | string value => exact .quoted (spells_escape value) (ih hrest)
    | openBrace => exact .opened (ih hrest)
    | closeBrace => exact .closed (ih hrest)
    | finished => exact absurd rfl hne

theorem Pairs.finished_not_mem_tokens (pairs : Pairs) : .finished ∉ pairs.tokens := by
  induction pairs with
  | nil => exact List.not_mem_nil
  | leaf key value rest ih => simpa [tokens] using ih
  | node key children rest ihChildren ih => simp [tokens, ihChildren, ih]

theorem Printed.reads (h : Printed toks text) : ∃ rest, Reads text toks rest ∧ Blank rest := by
  induction h with
  | finished hblank => exact ⟨_, .nil _, blank_of_all hblank⟩
  | string hblank spells _ ih =>
    obtain ⟨rest, hreads, hrest⟩ := ih
    exact ⟨rest, .cons (.quoted _ (blank_of_all hblank) spells.escaped) hreads, hrest⟩
  | openBrace hblank _ ih =>
    obtain ⟨rest, hreads, hrest⟩ := ih
    exact ⟨rest, .cons (.openBrace _ (blank_of_all hblank)) hreads, hrest⟩
  | closeBrace hblank _ ih =>
    obtain ⟨rest, hreads, hrest⟩ := ih
    exact ⟨rest, .cons (.closeBrace _ (blank_of_all hblank)) hreads, hrest⟩

/-- A printed tree is read as that tree. -/
theorem Printed.document {pairs : Pairs} (h : Printed pairs.tokens text) : Document text pairs := by
  obtain ⟨rest, hreads, hblank⟩ := h.reads
  refine document_iff_reads.mpr ⟨rest, hreads, ?_⟩
  have hskip := skipWs_blank hblank []
  rwa [List.append_nil] at hskip

/-- A text that no word goes on in. -/
def Bounded (text : Bytes) : Prop := ∀ c, text.head? = some c → isSpecial c = true

private theorem isSpecial_of_isBlank {c : UInt8} (h : isBlank c = true) : isSpecial c = true := by
  rw [isSpecial, h, Bool.true_or, Bool.true_or, Bool.true_or]

theorem bounded_of_blank (hws : ws.all isBlank = true) (h : Bounded more) : Bounded (ws ++ more) := by
  cases ws with
  | nil => exact h
  | cons c ws =>
    rintro d ⟨⟩
    exact isSpecial_of_isBlank (List.all_eq_true.mp hws c List.mem_cons_self)

theorem bounded_cons {c : UInt8} (h : isSpecial c = true) : Bounded (c :: text) := by
  rintro d ⟨⟩
  exact h

theorem Printed.bounded (h : Printed toks text) (hmore : Bounded more) : Bounded (text ++ more) := by
  cases h with
  | finished hblank => exact bounded_of_blank hblank hmore
  | string hblank _ _ =>
    rw [List.append_assoc]
    exact bounded_of_blank hblank (bounded_cons rfl)
  | openBrace hblank _ =>
    rw [List.append_assoc]
    exact bounded_of_blank hblank (bounded_cons rfl)
  | closeBrace hblank _ =>
    rw [List.append_assoc]
    exact bounded_of_blank hblank (bounded_cons rfl)

theorem Printed.bounded_self (h : Printed toks text) : Bounded text := by
  have hbounded := @Printed.bounded _ [] _ h nofun
  rwa [List.append_nil] at hbounded

/-- A word that needs neither quotes nor escapes. -/
structure KeyWord (word : Bytes) : Prop where
  nonempty : word ≠ []
  bare : ∀ c ∈ word, isSpecial c = false ∧ c ≠ backslash

theorem KeyWord.plain (h : KeyWord word) : ∀ c ∈ word, isControl c = false := by
  intro c hc
  obtain ⟨hspecial, hslash⟩ := h.bare c hc
  by_contra hcontrol
  rw [Bool.not_eq_false, isControl] at hcontrol
  simp only [Bool.or_eq_true, beq_iff_eq] at hcontrol
  rcases hcontrol with (((rfl | rfl) | rfl) | rfl) | rfl
  · exact absurd hspecial (by decide)
  · exact hslash rfl
  all_goals exact absurd hspecial (by decide)

private theorem KeyWord.not_prefix (h : KeyWord word) (hmore : Bounded more) : ¬word ++ [quote] <+: more := by
  intro hbegins
  obtain ⟨c, tail, rfl⟩ := List.exists_cons_of_ne_nil h.nonempty
  obtain ⟨rest, rfl⟩ := hbegins
  exact absurd (hmore c rfl) (by rw [(h.bare c List.mem_cons_self).1]; exact Bool.false_ne_true)

/-- A quoted word begins nowhere in a string that does not end like it. -/
theorem Spells.unseen (h : Spells body value) (hword : KeyWord word) (hmore : Bounded more)
    (hends : ¬EndsLike word value) {s : Bytes} (hne : s ≠ []) (hs : s <:+ quote :: (body ++ [quote])) :
    ¬quote :: (word ++ [quote]) <+: s ++ more := by
  intro hbegins
  rcases h.suffix_quoted hword.plain hne hs hbegins with rfl | ⟨-, hlike⟩
  · exact hword.not_prefix hmore (List.cons_prefix_cons.mp hbegins).2
  · exact hends hlike

theorem quote_not_mem_blank (hws : ws.all isBlank = true) : quote ∉ ws := fun hmem =>
  absurd (List.all_eq_true.mp hws quote hmem) (by decide)

/-- A token with an opening brace in its text. -/
def opens : Tok → Bool
  | .openBrace => true
  | .string value => value.contains lbrace
  | .closeBrace => false
  | .finished => false

/-- A brace is in the text of a value when it is in the value. -/
theorem Spells.brace_mem_iff {c : UInt8} (h : Spells body value) (hc : c = lbrace ∨ c = rbrace) : c ∈ body ↔ c ∈ value := by
  induction h with
  | nil => rfl
  | plain d _ _ _ ih => rw [List.mem_cons, List.mem_cons, ih]
  | escape e he _ ih =>
    have hother : c ≠ backslash ∧ c ≠ e ∧ c ≠ unescape e := by
      simp only [isEscaped, Bool.or_eq_true, beq_iff_eq] at he
      rcases hc with rfl | rfl <;> rcases he with (((rfl | rfl) | rfl) | rfl) | rfl <;> decide
    rw [List.mem_cons, List.mem_cons, List.mem_cons, ih, or_iff_right hother.1, or_iff_right hother.2.1,
      or_iff_right hother.2.2]

theorem lbrace_not_mem_blank (hws : ws.all isBlank = true) : lbrace ∉ ws := fun hmem =>
  absurd (List.all_eq_true.mp hws lbrace hmem) (by decide)

/-- A brace is in the text when a token has one. -/
theorem Printed.lbrace_mem_iff (h : Printed toks text) : lbrace ∈ text ↔ toks.any opens = true := by
  induction h with
  | finished hblank => exact iff_of_false (lbrace_not_mem_blank hblank) Bool.false_ne_true
  | string hblank spells _ ih =>
    have hquote : lbrace ≠ quote := by decide
    rw [List.mem_append, or_iff_right (lbrace_not_mem_blank hblank), List.mem_cons, or_iff_right hquote, List.mem_append,
      List.mem_cons, or_iff_right hquote, ih, spells.brace_mem_iff (.inl rfl), List.any_cons, Bool.or_eq_true, opens,
      List.contains_iff_mem]
  | openBrace hblank _ ih =>
    exact iff_of_true (List.mem_append_right _ List.mem_cons_self) (by rw [List.any_cons, opens, Bool.true_or])
  | closeBrace hblank _ ih =>
    have hclose : lbrace ≠ rbrace := by decide
    rw [List.mem_append, or_iff_right (lbrace_not_mem_blank hblank), List.mem_cons, or_iff_right hclose, ih,
      List.any_cons, opens, Bool.false_or]

end SlsteamMoon.KeyValues
