import Mathlib.Data.List.TakeWhile

/-! KeyValues text: the grammar of one token and the lexer that reads it. -/
namespace SlsteamMoon.KeyValues

abbrev Bytes := List UInt8

def lbrace : UInt8 := 0x7b
def rbrace : UInt8 := 0x7d
def quote : UInt8 := 0x22
def backslash : UInt8 := 0x5c
def slash : UInt8 := 0x2f
def newline : UInt8 := 0x0a

def isBlank (c : UInt8) : Bool := c == 0x20 || c == 0x09 || c == 0x0d || c == newline

/-- Bytes that end a bare word. -/
def isSpecial (c : UInt8) : Bool := isBlank c || c == lbrace || c == rbrace || c == quote

inductive Tok
  | string (value : Bytes)
  | openBrace
  | closeBrace
  | finished
  deriving DecidableEq

/-- `comment` is set inside a line comment; the newline that ends it is white
space itself. -/
def skipWs : Bool → Bytes → Bytes
  | _, [] => []
  | true, c :: cs => if c = newline then skipWs false cs else skipWs true cs
  | false, c :: cs =>
    if isBlank c = true then skipWs false cs
    else if c = slash ∧ cs.head? = some slash then skipWs true cs
    else c :: cs

/-- 'n', 't' and 'r' name control bytes; every other byte stands for itself. -/
def unescape (e : UInt8) : UInt8 :=
  if e = 0x6e then newline else if e = 0x74 then 0x09 else if e = 0x72 then 0x0d else e

/-- The value after the opening quote, none when the string is unterminated. -/
def readQuoted : Bytes → Option (Bytes × Bytes)
  | [] => none
  | [c] => if c = quote then some ([], []) else none
  | c :: e :: rest =>
    if c = quote then some ([], e :: rest)
    else if c = backslash then (readQuoted rest).map fun (value, after) => (unescape e :: value, after)
    else (readQuoted (e :: rest)).map fun (value, after) => (c :: value, after)

def readBare (input : Bytes) : Bytes × Bytes :=
  (input.takeWhile fun c => !isSpecial c, input.dropWhile fun c => !isSpecial c)

/-- An unterminated string is the end of the text. -/
def next (input : Bytes) : Tok × Bytes :=
  match skipWs false input with
  | [] => (.finished, [])
  | c :: cs =>
    if c = lbrace then (.openBrace, cs)
    else if c = rbrace then (.closeBrace, cs)
    else if c = quote then
      match readQuoted cs with
      | some (value, rest) => (.string value, rest)
      | none => (.finished, [])
    else (.string (readBare (c :: cs)).1, (readBare (c :: cs)).2)

/-- White space and whole line comments. -/
inductive Blank : Bytes → Prop
  | nil : Blank []
  | space (c : UInt8) {ws : Bytes} (blank : isBlank c = true) (rest : Blank ws) : Blank (c :: ws)
  | comment (body : Bytes) {ws : Bytes} (opened : body.head? = some slash) (line : newline ∉ body)
      (rest : Blank ws) : Blank (slash :: (body ++ newline :: ws))

/-- The text between two quotes and the value it stands for. -/
inductive Escaped : Bytes → Bytes → Prop
  | nil : Escaped [] []
  | plain (c : UInt8) {body value : Bytes} (hquote : c ≠ quote) (hslash : c ≠ backslash)
      (rest : Escaped body value) : Escaped (c :: body) (c :: value)
  | escape (e : UInt8) {body value : Bytes} (rest : Escaped body value) :
      Escaped (backslash :: e :: body) (unescape e :: value)

/-- A bare word is as long as it can be and does not start a comment. -/
structure BareWord (word rest : Bytes) : Prop where
  nonempty : word ≠ []
  plain : ∀ c ∈ word, isSpecial c = false
  noComment : ¬ ∃ tail, word = slash :: slash :: tail
  maximal : ∀ c, rest.head? = some c → isSpecial c = true

/-- One token of the grammar at the front of a text. -/
inductive Lexes : Bytes → Tok → Bytes → Prop
  | openBrace {ws : Bytes} (rest : Bytes) (blank : Blank ws) : Lexes (ws ++ lbrace :: rest) .openBrace rest
  | closeBrace {ws : Bytes} (rest : Bytes) (blank : Blank ws) : Lexes (ws ++ rbrace :: rest) .closeBrace rest
  | quoted {ws body value : Bytes} (rest : Bytes) (blank : Blank ws) (text : Escaped body value) :
      Lexes (ws ++ quote :: (body ++ quote :: rest)) (.string value) rest
  | bare {ws word : Bytes} (rest : Bytes) (blank : Blank ws) (text : BareWord word rest) :
      Lexes (ws ++ (word ++ rest)) (.string word) rest

theorem Blank.append {ws more : Bytes} (h : Blank ws) (hmore : Blank more) : Blank (ws ++ more) := by
  induction h with
  | nil => exact hmore
  | space c hblank _ ih => exact .space c hblank ih
  | comment body hopened hline _ ih =>
    rw [List.cons_append, List.append_assoc, List.cons_append]
    exact .comment body hopened hline ih

/-- A text whose first byte belongs to a token. -/
def Starts (text : Bytes) : Prop :=
  ∃ c cs, text = c :: cs ∧ isBlank c = false ∧ ¬ (c = slash ∧ cs.head? = some slash)

private theorem skipWs_starts {text : Bytes} (h : Starts text) : skipWs false text = text := by
  obtain ⟨c, cs, rfl, hblank, hcomment⟩ := h
  simp only [skipWs, hblank, Bool.false_eq_true, if_false, if_neg hcomment]

private theorem skipWs_comment (body rest : Bytes) (h : newline ∉ body) :
    skipWs true (body ++ newline :: rest) = skipWs false rest := by
  induction body with
  | nil => simp [skipWs]
  | cons c body ih =>
    have hc : c ≠ newline := fun hc => h (by simp [hc])
    have hbody : newline ∉ body := fun hb => h (by simp [hb])
    simp only [List.cons_append, skipWs, if_neg hc]
    exact ih hbody

theorem skipWs_blank {ws : Bytes} (h : Blank ws) (rest : Bytes) :
    skipWs false (ws ++ rest) = skipWs false rest := by
  induction h with
  | nil => rfl
  | space c hblank _ ih => simp only [List.cons_append, skipWs, if_pos hblank, ih]
  | comment body hopened hline _ ih =>
    rename_i ws _
    have hslash : isBlank slash = false := by decide
    have hhead : (body ++ newline :: (ws ++ rest)).head? = some slash := by
      rw [List.head?_append, hopened]
      rfl
    rw [List.cons_append, List.append_assoc, List.cons_append]
    simp only [skipWs, hslash, Bool.false_eq_true, if_false]
    rw [if_pos ⟨trivial, hhead⟩, skipWs_comment body _ hline, ih]

/-- What a comment or white space skipped over, when a token follows. -/
theorem skipWs_split (input : Bytes) :
    (∀ c cs, skipWs false input = c :: cs →
        ∃ ws, Blank ws ∧ input = ws ++ c :: cs ∧ Starts (c :: cs)) ∧
      ∀ c cs, skipWs true input = c :: cs →
        ∃ body ws, newline ∉ body ∧ Blank ws ∧ input = body ++ newline :: (ws ++ c :: cs) ∧
          Starts (c :: cs) := by
  induction input with
  | nil => simp [skipWs]
  | cons a input ih =>
    obtain ⟨ihText, ihComment⟩ := ih
    constructor
    · intro c cs h
      simp only [skipWs] at h
      split at h
      · next hblank =>
        obtain ⟨ws, hws, heq, hstarts⟩ := ihText c cs h
        exact ⟨a :: ws, .space a hblank hws, by rw [heq, List.cons_append], hstarts⟩
      · next hblank =>
        split at h
        · next hcomment =>
          obtain ⟨body, ws, hline, hws, heq, hstarts⟩ := ihComment c cs h
          have hopened : body.head? = some slash := by
            have hhead := hcomment.2
            rw [heq] at hhead
            cases body with
            | nil =>
              simp only [List.nil_append, List.head?_cons, Option.some.injEq] at hhead
              exact absurd hhead (by decide)
            | cons b body => simpa using hhead
          refine ⟨slash :: (body ++ newline :: ws), .comment body hopened hline hws, ?_, hstarts⟩
          rw [hcomment.1, heq]
          simp
        · next hcomment =>
          obtain ⟨rfl, rfl⟩ := List.cons.inj h
          exact ⟨[], .nil, rfl, a, input, rfl, by simpa using hblank, hcomment⟩
    · intro c cs h
      simp only [skipWs] at h
      split at h
      · next hline =>
        obtain ⟨ws, hws, heq, hstarts⟩ := ihText c cs h
        exact ⟨[], ws, by simp, hws, by rw [hline, heq]; rfl, hstarts⟩
      · next hline =>
        obtain ⟨body, ws, hbody, hws, heq, hstarts⟩ := ihComment c cs h
        refine ⟨a :: body, ws, ?_, hws, by rw [heq]; rfl, hstarts⟩
        intro hmem
        obtain h | h := List.mem_cons.mp hmem
        · exact hline h.symm
        · exact hbody h

theorem readQuoted_escaped {body value : Bytes} (h : Escaped body value) (rest : Bytes) :
    readQuoted (body ++ quote :: rest) = some (value, rest) := by
  induction h with
  | nil => cases rest <;> simp [readQuoted]
  | plain c hquote hslash hbody ih =>
    rename_i body value
    cases hb : body ++ quote :: rest with
    | nil => simp at hb
    | cons e tail =>
      rw [hb] at ih
      rw [List.cons_append, hb]
      simp [readQuoted, hquote, hslash, ih]
  | escape e _ ih =>
    have hne : backslash ≠ quote := by decide
    simp [readQuoted, hne, ih]

theorem escaped_readQuoted {input value rest : Bytes} (h : readQuoted input = some (value, rest)) :
    ∃ body, Escaped body value ∧ input = body ++ quote :: rest := by
  induction input using readQuoted.induct generalizing value with
  | case1 => cases h
  | case2 =>
    simp [readQuoted] at h
    obtain ⟨rfl, rfl⟩ := h
    exact ⟨[], .nil, rfl⟩
  | case3 c hc =>
    simp [readQuoted, hc] at h
  | case4 e tail =>
    simp [readQuoted] at h
    obtain ⟨rfl, rfl⟩ := h
    exact ⟨[], .nil, rfl⟩
  | case5 e tail hne ih =>
    simp [readQuoted, hne] at h
    obtain ⟨value, hread, rfl⟩ := h
    obtain ⟨body, hbody, rfl⟩ := ih hread
    exact ⟨backslash :: e :: body, .escape e hbody, rfl⟩
  | case6 c e tail hquote hslash ih =>
    simp [readQuoted, hquote, hslash] at h
    obtain ⟨value, hread, rfl⟩ := h
    obtain ⟨body, hbody, heq⟩ := ih hread
    exact ⟨c :: body, .plain c hquote hslash hbody, by rw [heq]; rfl⟩

private theorem readBare_word {word rest : Bytes} (h : BareWord word rest) :
    readBare (word ++ rest) = (word, rest) := by
  have hword : ∀ c ∈ word, (!isSpecial c) = true := fun c hc => by simp [h.plain c hc]
  have hrest : rest.takeWhile (fun c => !isSpecial c) = [] ∧ rest.dropWhile (fun c => !isSpecial c) = rest := by
    cases rest with
    | nil => exact ⟨rfl, rfl⟩
    | cons c cs => simp [h.maximal c rfl]
  simp only [readBare, List.takeWhile_append_of_pos hword, List.dropWhile_append_of_pos hword, hrest.1, hrest.2,
    List.append_nil]

private theorem readBare_append (input : Bytes) : (readBare input).1 ++ (readBare input).2 = input :=
  List.takeWhile_append_dropWhile

private theorem word_readBare {c : UInt8} {cs : Bytes} (hspecial : isSpecial c = false) (hstarts : Starts (c :: cs)) :
    BareWord (readBare (c :: cs)).1 (readBare (c :: cs)).2 := by
  refine ⟨by simp [readBare, hspecial], ?_, ?_, ?_⟩
  · intro a ha
    simpa using List.mem_takeWhile_imp ha
  · rintro ⟨tail, htail⟩
    obtain ⟨_, _, heq, -, hcomment⟩ := hstarts
    obtain ⟨rfl, rfl⟩ := List.cons.inj heq
    have hall : c :: cs = slash :: slash :: tail ++ (readBare (c :: cs)).2 := by
      rw [← htail]
      exact (readBare_append (c :: cs)).symm
    obtain ⟨hc, hcs⟩ := List.cons.inj hall
    exact hcomment ⟨hc, by rw [hcs]; rfl⟩
  · intro a ha
    have hnot := List.head?_dropWhile_not (fun c => !isSpecial c) (c :: cs)
    simp only [readBare] at ha
    rw [ha] at hnot
    simpa using hnot

private theorem starts_of_ne {c : UInt8} {cs : Bytes} (hblank : isBlank c = false) (hslash : c ≠ slash) :
    Starts (c :: cs) :=
  ⟨c, cs, rfl, hblank, fun h => hslash h.1⟩

/-- The lexer reads what the grammar assigns. -/
theorem next_lexes {input : Bytes} {tok : Tok} {rest : Bytes} (h : Lexes input tok rest) :
    next input = (tok, rest) := by
  cases h with
  | openBrace _ hws =>
    rw [next, skipWs_blank hws, skipWs_starts (starts_of_ne (by decide) (by decide))]
    rfl
  | closeBrace _ hws =>
    rw [next, skipWs_blank hws, skipWs_starts (starts_of_ne (by decide) (by decide))]
    rfl
  | quoted _ hws htext =>
    rw [next, skipWs_blank hws, skipWs_starts (starts_of_ne (by decide) (by decide))]
    have hl : quote ≠ lbrace := by decide
    have hr : quote ≠ rbrace := by decide
    simp [hl, hr, readQuoted_escaped htext]
  | bare _ hws htext =>
    rename_i ws word
    obtain ⟨c, cs, rfl⟩ := List.exists_cons_of_ne_nil htext.nonempty
    have hplain := htext.plain c (by simp)
    have hstarts : Starts (c :: cs ++ rest) := by
      refine ⟨c, cs ++ rest, rfl, ?_, ?_⟩
      · simp only [isSpecial, Bool.or_eq_false_iff] at hplain
        exact hplain.1.1.1
      · rintro ⟨rfl, hhead⟩
        cases cs with
        | nil =>
          have hspecial := htext.maximal slash (by simpa using hhead)
          exact absurd hspecial (by decide)
        | cons d ds =>
          simp only [List.cons_append, List.head?_cons, Option.some.injEq] at hhead
          exact htext.noComment ⟨ds, by rw [hhead]⟩
    rw [next, skipWs_blank hws, skipWs_starts hstarts]
    simp only [isSpecial, Bool.or_eq_false_iff, beq_eq_false_iff_ne] at hplain
    have hread := readBare_word htext
    rw [List.cons_append] at hread ⊢
    simp only [if_neg hplain.1.1.2, if_neg hplain.1.2, if_neg hplain.2, hread]

/-- What the lexer reads, the grammar assigns. -/
theorem lexes_next {input : Bytes} {tok : Tok} {rest : Bytes} (h : next input = (tok, rest))
    (htok : tok ≠ .finished) : Lexes input tok rest := by
  rw [next] at h
  split at h
  · cases h
    exact absurd rfl htok
  · next c cs hskip =>
    obtain ⟨ws, hws, rfl, hstarts⟩ := (skipWs_split input).1 c cs hskip
    by_cases hl : c = lbrace
    · rw [if_pos hl] at h
      cases h
      rw [hl]
      exact .openBrace _ hws
    by_cases hr : c = rbrace
    · rw [if_neg hl, if_pos hr] at h
      cases h
      rw [hr]
      exact .closeBrace _ hws
    by_cases hq : c = quote
    · rw [if_neg hl, if_neg hr, if_pos hq] at h
      split at h
      · next value after hread =>
        cases h
        obtain ⟨body, hbody, rfl⟩ := escaped_readQuoted hread
        rw [hq]
        exact .quoted _ hws hbody
      · cases h
        exact absurd rfl htok
    · rw [if_neg hl, if_neg hr, if_neg hq] at h
      cases h
      have hplain : isSpecial c = false := by
        obtain ⟨_, _, heq, hblank, -⟩ := hstarts
        obtain ⟨rfl, -⟩ := List.cons.inj heq
        simp [isSpecial, hblank, hl, hr, hq]
      have hword := Lexes.bare (readBare (c :: cs)).2 hws (word_readBare hplain hstarts)
      rwa [readBare_append] at hword

/-- The grammar assigns one token to a text. -/
theorem Lexes.unique {input : Bytes} {tok tok' : Tok} {rest rest' : Bytes} (h : Lexes input tok rest)
    (h' : Lexes input tok' rest') : tok = tok' ∧ rest = rest' :=
  Prod.mk.inj ((next_lexes h).symm.trans (next_lexes h'))

/-- A token takes bytes with it. -/
theorem Lexes.length_lt {input : Bytes} {tok : Tok} {rest : Bytes} (h : Lexes input tok rest) :
    rest.length < input.length := by
  cases h with
  | openBrace _ _ => simp; omega
  | closeBrace _ _ => simp; omega
  | quoted _ _ _ => simp; omega
  | bare _ _ htext =>
    have hpos := List.length_pos_iff.mpr htext.nonempty
    simp
    omega

end SlsteamMoon.KeyValues
