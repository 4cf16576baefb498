import Mathlib.Data.List.Basic

/-! Looking for a character or for a word in a text, from its front on. -/
namespace SlsteamMoon.TextSearch

variable {α : Type*}

/-- What stands before the first `c` and what stands behind it. -/
def upTo [DecidableEq α] (c : α) : List α → Option (List α × List α)
  | [] => none
  | b :: text => if b = c then some ([], text) else (upTo c text).map fun (front, rest) => (b :: front, rest)

/-- The text behind the first place where the word stands. -/
def behind [DecidableEq α] (word : List α) : List α → Option (List α)
  | [] => if word = [] then some [] else none
  | c :: text => if word <+: c :: text then some ((c :: text).drop word.length) else behind word text

/-- The first of the `n` places from `i` on where `c` stands. -/
def memchr [DecidableEq α] (text : List α) (c : α) (i n : Nat) : Option Nat :=
  (((text.drop i).take n).findIdx? (· == c)).map (i + ·)

/-- The first place where the word stands. -/
def findWord [DecidableEq α] (word : List α) : List α → Option Nat
  | [] => if word = [] then some 0 else none
  | c :: text => if word <+: c :: text then some 0 else (findWord word text).map (· + 1)

/-- The first place from `pos` on. -/
def findWordFrom [DecidableEq α] (word text : List α) (pos : Nat) : Option Nat :=
  (findWord word (text.drop pos)).map (· + pos)

/-- The word begins nowhere in the piece, whatever comes behind it. -/
def Unseen (word : List α) : List α → Prop
  | [] => True
  | c :: piece => (∀ more, ¬word <+: c :: (piece ++ more)) ∧ Unseen word piece

section
variable {word : List α}

theorem Unseen.append {front piece : List α} (hfront : Unseen word front) (h : Unseen word piece) :
    Unseen word (front ++ piece) := by
  induction front with
  | nil => exact h
  | cons c front ih =>
    refine ⟨fun more hword => hfront.1 (piece ++ more) ?_, ih hfront.2⟩
    rwa [← List.append_assoc]

/-- A word without `c` ends before the first `c`. -/
theorem prefix_of_prefix_append_cons {c : α} (hc : c ∉ word) {front rest : List α} (h : word <+: front ++ c :: rest) :
    word <+: front := by
  induction front generalizing word with
  | nil =>
    cases word with
    | nil => exact List.nil_prefix
    | cons d tail =>
      have hd := (List.cons_prefix_cons.mp h).1
      exact absurd (by rw [hd]; exact List.mem_cons_self) hc
  | cons b front ih =>
    cases word with
    | nil => exact List.nil_prefix
    | cons d tail =>
      obtain ⟨rfl, htail⟩ := List.cons_prefix_cons.mp h
      exact List.cons_prefix_cons.mpr ⟨rfl, ih (List.not_mem_of_not_mem_cons hc) htail⟩

/-- A word without `c` stands before the `c` or behind it. -/
theorem infix_append_cons_iff {c : α} (hc : c ∉ word) (hword : word ≠ []) (front rest : List α) :
    word <:+: front ++ c :: rest ↔ word <:+: front ∨ word <:+: rest := by
  constructor
  · induction front with
    | nil =>
      intro h
      obtain h | h := List.infix_cons_iff.mp h
      · exact absurd (List.prefix_nil.mp (prefix_of_prefix_append_cons hc h)) hword
      · exact .inr h
    | cons d front ih =>
      intro h
      obtain h | h := List.infix_cons_iff.mp h
      · exact .inl (prefix_of_prefix_append_cons hc h).isInfix
      · obtain h | h := ih h
        · exact .inl (h.trans (List.suffix_cons d front).isInfix)
        · exact .inr h
  · rintro (h | h)
    · exact h.trans (List.prefix_append front (c :: rest)).isInfix
    · exact h.trans ((List.suffix_cons c rest).trans (List.suffix_append front (c :: rest))).isInfix

/-- A piece without the first character of the word. -/
theorem unseen_of_not_mem {c : α} {tail piece : List α} (h : c ∉ piece) : Unseen (c :: tail) piece := by
  induction piece with
  | nil => trivial
  | cons b piece ih =>
    obtain ⟨hb, hpiece⟩ := List.ne_and_not_mem_of_not_mem_cons h
    exact ⟨fun more hword => hb (List.cons_prefix_cons.mp hword).1, ih hpiece⟩

end

section
variable {p : α → Bool} {text piece : List α} {c : α}

/-- The pieces between separators have none. -/
theorem free_of_mem_splitOnP (h : piece ∈ text.splitOnP p) : ∀ c ∈ piece, p c = false := by
  induction text generalizing piece with
  | nil =>
    rw [List.splitOnP_nil, List.mem_singleton] at h
    rw [h]
    exact List.forall_mem_nil _
  | cons d text ih =>
    obtain ⟨first, others, hrest⟩ := List.exists_cons_of_ne_nil (List.splitOnP_ne_nil p text)
    rw [hrest] at ih
    rw [List.splitOnP_cons_eq_if_modifyHead, hrest] at h
    split_ifs at h with hd
    · obtain rfl | h := List.mem_cons.mp h
      · exact List.forall_mem_nil _
      · exact ih h
    · rw [List.modifyHead_cons] at h
      obtain rfl | h := List.mem_cons.mp h
      · rw [List.forall_mem_cons]
        exact ⟨by simpa using hd, ih List.mem_cons_self⟩
      · exact ih (List.mem_cons_of_mem first h)

/-- What is no separator stands in the text just when it stands in a piece. -/
theorem exists_mem_splitOnP_iff (hc : p c = false) : (∃ piece ∈ text.splitOnP p, c ∈ piece) ↔ c ∈ text := by
  induction text with
  | nil => simp
  | cons d text ih =>
    obtain ⟨first, others, hrest⟩ := List.exists_cons_of_ne_nil (List.splitOnP_ne_nil p text)
    rw [hrest, List.exists_mem_cons_iff] at ih
    rw [List.splitOnP_cons_eq_if_modifyHead, hrest, List.mem_cons]
    split_ifs with hd
    · have hne : c ≠ d := by
        rintro rfl
        rw [hc] at hd
        cases hd
      rw [List.exists_mem_cons_iff, List.exists_mem_cons_iff, ih, or_iff_right List.not_mem_nil, or_iff_right hne]
    · rw [List.modifyHead_cons, List.exists_mem_cons_iff, List.mem_cons, or_assoc, ih]

end

section
variable [DecidableEq α]

theorem findWord_isSome_iff {word text : List α} : (findWord word text).isSome = true ↔ word <:+: text := by
  induction text with
  | nil =>
    rw [findWord]
    split_ifs with h <;> simp [h]
  | cons c text ih =>
    rw [findWord, List.infix_cons_iff]
    split_ifs with h
    · simp [h]
    · rw [Option.isSome_map, ih, or_iff_right h]

/-- The word stands where it is found. -/
theorem prefix_of_findWord {word text : List α} {i : Nat} (h : findWord word text = some i) : word <+: text.drop i := by
  induction text generalizing i with
  | nil =>
    rw [findWord] at h
    split_ifs at h with hnil
    rw [hnil]
    exact List.nil_prefix
  | cons c text ih =>
    rw [findWord] at h
    split_ifs at h with hprefix
    · rw [← Option.some.inj h]
      exact hprefix
    · obtain ⟨j, hj, rfl⟩ := Option.map_eq_some_iff.mp h
      exact ih hj

theorem findWord_singleton {c : α} {front : List α} (h : c ∉ front) (rest : List α) :
    findWord [c] (front ++ c :: rest) = some front.length := by
  induction front with
  | nil =>
    have hp : [c] <+: c :: rest := List.prefix_append [c] rest
    rw [List.nil_append, findWord, if_pos hp, List.length_nil]
  | cons b front ih =>
    obtain ⟨hb, hfront⟩ := List.ne_and_not_mem_of_not_mem_cons h
    have hno : ¬[c] <+: b :: (front ++ c :: rest) := fun hp => hb (List.cons_prefix_cons.mp hp).1
    rw [List.cons_append, findWord, if_neg hno, ih hfront]
    rfl

theorem findWord_eq_zero {word : List α} (hword : word ≠ []) (rest : List α) : findWord word (word ++ rest) = some 0 := by
  obtain ⟨c, tail, rfl⟩ := List.exists_cons_of_ne_nil hword
  have hprefix : c :: tail <+: c :: (tail ++ rest) := List.prefix_append (c :: tail) rest
  rw [List.cons_append, findWord, if_pos hprefix]

/-- A word that begins nowhere in a piece is looked for behind it. -/
theorem findWord_append {word piece rest : List α} (h : ∀ s, s ≠ [] → s <:+ piece → ¬word <+: s ++ rest) :
    findWord word (piece ++ rest) = (findWord word rest).map (· + piece.length) := by
  induction piece with
  | nil =>
    rw [List.nil_append]
    cases findWord word rest <;> rfl
  | cons c piece ih =>
    have hhere := h (c :: piece) (List.cons_ne_nil _ _) (List.suffix_refl _)
    rw [List.cons_append] at hhere
    rw [List.cons_append, findWord, if_neg hhere, ih fun s hne hs => h s hne (hs.trans (List.suffix_cons c piece)),
      Option.map_map]
    rfl

/-- A word that is not in front of a `c` is looked for behind it. -/
theorem findWord_append_cons {word front : List α} {c : α} (hc : c ∉ word) (hword : word ≠ []) (h : ¬word <:+: front)
    (rest : List α) : findWord word (front ++ c :: rest) = (findWord word rest).map (· + (front.length + 1)) := by
  induction front with
  | nil =>
    have hno : ¬word <+: c :: rest := fun hp =>
      hword (List.prefix_nil.mp (prefix_of_prefix_append_cons hc hp))
    rw [List.nil_append, findWord, if_neg hno]
    rfl
  | cons b front ih =>
    have hno : ¬word <+: b :: (front ++ c :: rest) := fun hp =>
      h (prefix_of_prefix_append_cons hc hp).isInfix
    have hfront : ¬word <:+: front := fun hf => h (hf.trans (List.suffix_cons b front).isInfix)
    rw [List.cons_append, findWord, if_neg hno, ih hfront, Option.map_map]
    rfl

theorem upTo_append {c : α} {front : List α} (h : c ∉ front) (rest : List α) :
    upTo c (front ++ c :: rest) = some (front, rest) := by
  induction front with
  | nil => rw [List.nil_append, upTo, if_pos rfl]
  | cons b front ih =>
    obtain ⟨hb, hfront⟩ := List.ne_and_not_mem_of_not_mem_cons h
    rw [List.cons_append, upTo, if_neg hb.symm, ih hfront]
    rfl

/-- What stands behind the first `c` is the same with a front that has none. -/
theorem map_snd_upTo_append {c : α} {front : List α} (h : c ∉ front) (rest : List α) :
    (upTo c (front ++ rest)).map Prod.snd = (upTo c rest).map Prod.snd := by
  induction front with
  | nil => rfl
  | cons b front ih =>
    obtain ⟨hb, hfront⟩ := List.ne_and_not_mem_of_not_mem_cons h
    rw [List.cons_append, upTo, if_neg hb.symm, Option.map_map, ← ih hfront]
    rfl

/-- The text is what stands before, the character and what stands behind. -/
theorem upTo_eq_some {c : α} {text front rest : List α} (h : upTo c text = some (front, rest)) :
    text = front ++ c :: rest := by
  induction text generalizing front with
  | nil => cases h
  | cons b text ih =>
    rw [upTo] at h
    split_ifs at h with hb
    · cases h
      rw [hb, List.nil_append]
    · obtain ⟨⟨tail, after⟩, htail, heq⟩ := Option.map_eq_some_iff.mp h
      cases heq
      rw [List.cons_append, ← ih htail]

theorem length_upTo {c : α} {text front rest : List α} (h : upTo c text = some (front, rest)) :
    rest.length < text.length := by
  rw [upTo_eq_some h, List.length_append, List.length_cons]
  omega

theorem upTo_eq_none {c : α} {text : List α} (h : c ∉ text) : upTo c text = none := by
  induction text with
  | nil => rfl
  | cons b text ih =>
    obtain ⟨hb, htext⟩ := List.ne_and_not_mem_of_not_mem_cons h
    rw [upTo, if_neg hb.symm, ih htext]
    rfl

/-- A word found at the front. -/
theorem behind_append {word : List α} (h : word ≠ []) (rest : List α) : behind word (word ++ rest) = some rest := by
  obtain ⟨c, tail, rfl⟩ := List.exists_cons_of_ne_nil h
  have hprefix : c :: tail <+: c :: (tail ++ rest) := List.prefix_append (c :: tail) rest
  rw [List.cons_append, behind, if_pos hprefix, ← List.cons_append, List.drop_left]

/-- A word that begins nowhere in a piece is looked for behind it. -/
theorem behind_piece {word piece rest : List α} (h : ∀ s, s ≠ [] → s <:+ piece → ¬word <+: s ++ rest) :
    behind word (piece ++ rest) = behind word rest := by
  induction piece with
  | nil => rfl
  | cons c piece ih =>
    have hhere := h (c :: piece) (List.cons_ne_nil _ _) (List.suffix_refl _)
    rw [List.cons_append] at hhere
    rw [List.cons_append, behind, if_neg hhere, ih fun s hne hs => h s hne (hs.trans (List.suffix_cons c piece))]

theorem behind_of_unseen {word front : List α} (h : Unseen word front) (hword : word ≠ []) (rest : List α) :
    behind word (front ++ (word ++ rest)) = some rest := by
  induction front with
  | nil => exact behind_append hword rest
  | cons c front ih => rw [List.cons_append, behind, if_neg (h.1 (word ++ rest)), ih h.2]

theorem behind_eq_none {word text : List α} (h : Unseen word text) (hword : word ≠ []) : behind word text = none := by
  induction text with
  | nil => rw [behind, if_neg hword]
  | cons c text ih =>
    have hhere := h.1 []
    rw [List.append_nil] at hhere
    rw [behind, if_neg hhere, ih h.2]

/-- What stands behind the first place of the word. -/
theorem behind_eq_some_iff {word text rest : List α} (hword : word ≠ []) : behind word text = some rest ↔
    ∃ before, text = before ++ (word ++ rest) ∧ ¬word <:+: before ++ word.dropLast := by
  induction text with
  | nil => simp [behind, hword]
  | cons c text ih =>
    rw [behind]
    have hlength : word.dropLast.length < word.length := by
      have := List.length_pos_iff.mpr hword
      rw [List.length_dropLast]
      omega
    split_ifs with hhere
    · rw [Option.some.injEq]
      constructor
      · rintro rfl
        obtain ⟨tail, htail⟩ := hhere
        refine ⟨[], by rw [← htail, List.drop_left, List.nil_append], fun hinside => ?_⟩
        have := hinside.length_le
        rw [List.nil_append] at this
        omega
      · rintro ⟨before, htext, hfirst⟩
        cases before with
        | nil => rw [htext, List.nil_append, List.drop_left]
        | cons d before =>
          refine absurd ?_ hfirst
          have hlonger : word <+: d :: before ++ word.dropLast ++ [word.getLast hword] ++ rest := by
            rw [List.append_assoc _ _ [_], List.dropLast_append_getLast, List.append_assoc, ← htext]
            exact hhere
          have hfits : word.length ≤ (d :: before ++ word.dropLast).length := by
            simp only [List.cons_append, List.length_cons, List.length_append, List.length_dropLast]
            omega
          rw [List.append_assoc] at hlonger
          exact (List.prefix_of_prefix_length_le hlonger (List.prefix_append _ _) hfits).isInfix
    · rw [ih]
      constructor
      · rintro ⟨before, rfl, hfirst⟩
        refine ⟨c :: before, rfl, fun hinside => ?_⟩
        obtain hfront | hinside := List.infix_cons_iff.mp hinside
        · refine hhere (hfront.trans ?_)
          have hdrop : word.dropLast <+: word ++ rest := word.dropLast_prefix.trans (List.prefix_append word rest)
          exact List.cons_prefix_cons.mpr ⟨rfl, (List.prefix_append_right_inj before).mpr hdrop⟩
        · exact hfirst hinside
      · rintro ⟨before, htext, hfirst⟩
        cases before with
        | nil =>
          refine absurd ?_ hhere
          rw [htext, List.nil_append]
          exact List.prefix_append word rest
        | cons d before =>
          obtain ⟨rfl, rfl⟩ := List.cons.inj htext
          exact ⟨before, rfl, fun hinside => hfirst (hinside.trans (List.suffix_cons c _).isInfix)⟩

/-- What stands before the first `c`, and behind it. -/
theorem upTo_eq_some_iff {c : α} {text front rest : List α} :
    upTo c text = some (front, rest) ↔ text = front ++ c :: rest ∧ c ∉ front := by
  constructor
  · intro h
    refine ⟨upTo_eq_some h, ?_⟩
    induction text generalizing front with
    | nil => cases h
    | cons b text ih =>
      rw [upTo] at h
      split_ifs at h with hb
      · cases h
        exact List.not_mem_nil
      · obtain ⟨⟨tail, after⟩, htail, heq⟩ := Option.map_eq_some_iff.mp h
        cases heq
        exact List.not_mem_cons_of_ne_of_not_mem (Ne.symm hb) (ih htail)
  · rintro ⟨rfl, hfront⟩
    exact upTo_append hfront rest

end

section Memchr

theorem getElem?_window (text : List α) (i : Nat) {n k : Nat} (hk : k < n) :
    ((text.drop i).take n)[k]? = text[i + k]? := by
  rw [List.getElem?_take_of_lt hk, List.getElem?_drop]

variable [DecidableEq α] {text : List α} {c : α} {i n hit : Nat}

/-- The place that is found is the first one. -/
theorem memchr_eq_some (h : memchr text c i n = some hit) :
    i ≤ hit ∧ hit < i + n ∧ text[hit]? = some c ∧ ∀ j, i ≤ j → j < hit → text[j]? ≠ some c := by
  obtain ⟨k, hk, rfl⟩ := Option.map_eq_some_iff.mp h
  obtain ⟨hlt, hc, hfirst⟩ := List.findIdx?_eq_some_iff_getElem.mp hk
  have hkn : k < n := Nat.lt_of_lt_of_le hlt (List.length_take_le n _)
  refine ⟨Nat.le_add_right i k, Nat.add_lt_add_left hkn i, ?_, fun j hij hjk hj => ?_⟩
  · rw [← getElem?_window text i hkn, List.getElem?_eq_getElem hlt, beq_iff_eq.mp hc]
  · obtain ⟨m, rfl⟩ := Nat.exists_eq_add_of_le hij
    have hm : m < k := Nat.lt_of_add_lt_add_left hjk
    have hne := hfirst m hm
    rw [← getElem?_window text i (Nat.lt_trans hm hkn), List.getElem?_eq_getElem (Nat.lt_trans hm hlt),
      Option.some.injEq] at hj
    simp [hj] at hne

theorem memchr_eq_none (h : memchr text c i n = none) {j : Nat} (hij : i ≤ j) (hj : j < i + n) : text[j]? ≠ some c := by
  intro hc
  obtain ⟨k, rfl⟩ := Nat.exists_eq_add_of_le hij
  have hk : k < n := Nat.lt_of_add_lt_add_left hj
  rw [← getElem?_window text i hk] at hc
  have hnone := List.findIdx?_eq_none_iff.mp (Option.map_eq_none_iff.mp h) c (List.mem_of_getElem? hc)
  simp at hnone

end Memchr

end SlsteamMoon.TextSearch
