import Mathlib.Data.List.Induction

/-! The words of a text, between separators, and how a text ends with its last word. -/
namespace SlsteamMoon.Words

variable {α : Type*} {c : α} {text front word gap : List α}

/-- What stands in front of a word is empty or ends with a separator. -/
def Stops (c : α) (front : List α) : Prop := front = [] ∨ ∃ rest, front = rest ++ [c]

theorem stops_of_gap (h : ∀ b ∈ gap, b = c) (hne : gap ≠ []) (front : List α) : Stops c (front ++ gap) := by
  refine .inr ⟨front ++ gap.dropLast, ?_⟩
  have hlast : gap.getLast hne = c := h _ (List.getLast_mem hne)
  rw [List.append_assoc, ← hlast, List.dropLast_concat_getLast]

/-- A text that ends with a word, and perhaps with separators behind it. -/
structure EndsWith (c : α) (text front word gap : List α) : Prop where
  eq : text = front ++ (word ++ gap)
  ne_nil : word ≠ []
  free : c ∉ word
  gap : ∀ b ∈ gap, b = c
  stops : Stops c front

theorem EndsWith.length_ne_zero (h : EndsWith c text front word gap) : text.length ≠ 0 := by
  have hpos := List.length_pos_iff.mpr h.ne_nil
  rw [h.eq, List.length_append, List.length_append]
  omega

variable [DecidableEq α]

def words (c : α) (text : List α) : List (List α) := (text.splitOn c).filter (· ≠ [])

@[simp] theorem words_nil : words c ([] : List α) = [] := rfl

/-- A separator is in no word. -/
theorem words_append_cons (front rest : List α) : words c (front ++ c :: rest) = words c front ++ words c rest := by
  rw [words, List.splitOn_append_cons_self, List.filter_append]
  rfl

theorem words_of_free (hne : word ≠ []) (h : c ∉ word) : words c word = [word] := by
  rw [words, List.splitOn_eq_singleton h, List.filter_cons_of_pos (by simpa using hne), List.filter_nil]

theorem words_gap (h : ∀ b ∈ gap, b = c) : words c gap = [] := by
  induction gap with
  | nil => rfl
  | cons b gap ih =>
    obtain ⟨rfl, hgap⟩ := List.forall_mem_cons.mp h
    have hsplit := @words_append_cons α b _ [] gap
    rw [List.nil_append, words_nil, List.nil_append] at hsplit
    rw [hsplit, ih hgap]

theorem words_append_of_stops (h : Stops c front) (rest : List α) :
    words c (front ++ rest) = words c front ++ words c rest := by
  obtain rfl | ⟨start, rfl⟩ := h
  · rfl
  · rw [List.append_assoc, List.singleton_append, words_append_cons, words_append_cons, words_nil, List.append_nil]

theorem EndsWith.words_eq (h : EndsWith c text front word gap) : words c text = words c front ++ [word] := by
  have hlast : words c (word ++ gap) = [word] := by
    cases gap with
    | nil => rw [List.append_nil, words_of_free h.ne_nil h.free]
    | cons b gap =>
      obtain ⟨rfl, hgap⟩ := List.forall_mem_cons.mp h.gap
      rw [words_append_cons, words_of_free h.ne_nil h.free, words_gap hgap, List.append_nil]
  rw [h.eq, words_append_of_stops h.stops, hlast]

/-- A text has nothing but separators or ends with a word. -/
theorem gap_or_endsWith (c : α) (text : List α) :
    (∀ b ∈ text, b = c) ∨ ∃ front word gap, EndsWith c text front word gap := by
  induction text using List.reverseRecOn with
  | nil => exact .inl (List.forall_mem_nil _)
  | append_singleton text b ih =>
    by_cases hb : b = c
    · obtain hgap | ⟨front, word, gap, h⟩ := ih
      · exact .inl (List.forall_mem_append.mpr ⟨hgap, List.forall_mem_singleton.mpr hb⟩)
      · refine .inr ⟨front, word, gap ++ [b], ?_, h.ne_nil, h.free, ?_, h.stops⟩
        · rw [h.eq, List.append_assoc, List.append_assoc]
        · exact List.forall_mem_append.mpr ⟨h.gap, List.forall_mem_singleton.mpr hb⟩
    · have hfresh : Stops c text → ∃ front word gap, EndsWith c (text ++ [b]) front word gap := fun hstops =>
        ⟨text, [b], [], rfl, List.cons_ne_nil b [], fun hc => hb (List.mem_singleton.mp hc).symm,
          List.forall_mem_nil _, hstops⟩
      obtain hgap | ⟨front, word, gap, h⟩ := ih
      · by_cases hnil : text = []
        · exact .inr (hfresh (.inl hnil))
        · exact .inr (hfresh (stops_of_gap hgap hnil []))
      · by_cases hnil : gap = []
        · subst hnil
          refine .inr ⟨front, word ++ [b], [], ?_, List.append_ne_nil_of_left_ne_nil h.ne_nil [b], ?_,
            List.forall_mem_nil _, h.stops⟩
          · rw [h.eq, List.append_nil, List.append_nil, List.append_assoc]
          · exact List.not_mem_append h.free fun hc => hb (List.mem_singleton.mp hc).symm
        · refine .inr (hfresh ?_)
          rw [h.eq, ← List.append_assoc]
          exact stops_of_gap h.gap hnil (front ++ word)

/-- A text with a word ends with its last one. -/
theorem exists_endsWith (h : words c text ≠ []) : ∃ front word gap, EndsWith c text front word gap :=
  (gap_or_endsWith c text).resolve_left fun hgap => h (words_gap hgap)

end SlsteamMoon.Words
