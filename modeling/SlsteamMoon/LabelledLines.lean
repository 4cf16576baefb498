import SlsteamMoon.TextSearch

/-! Texts of labelled lines: each label, its value and the end of the line, in a fixed order. -/
namespace SlsteamMoon.LabelledLines
open TextSearch

variable {α : Type*}

def writeFields (eol : α) : List (List α) → List (List α) → List α
  | label :: labels, value :: values => label ++ value ++ eol :: writeFields eol labels values
  | _, _ => []

variable {eol : α} {labels values : List (List α)} {text rest : List α}

theorem length_writeFields_le {n : Nat} (hlabels : ∀ label ∈ labels, label.length ≤ n)
    (hvalues : ∀ value ∈ values, value.length ≤ n) :
    (writeFields eol labels values).length ≤ labels.length * (2 * n + 1) := by
  induction labels generalizing values with
  | nil => exact Nat.zero_le _
  | cons label labels ih =>
    cases values with
    | nil => exact Nat.zero_le _
    | cons value values =>
      have hlabel := hlabels label List.mem_cons_self
      have hvalue := hvalues value List.mem_cons_self
      have hrest := ih (fun l hl => hlabels l (List.mem_cons_of_mem label hl)) fun v hv =>
        hvalues v (List.mem_cons_of_mem value hv)
      rw [writeFields, List.length_append, List.length_append, List.length_cons, List.length_cons, Nat.succ_mul]
      omega

theorem not_mem_writeFields {c : α} (hc : c ≠ eol)
    (hlabels : ∀ label ∈ labels, c ∉ label) (hvalues : ∀ value ∈ values, c ∉ value) :
    c ∉ writeFields eol labels values := by
  induction labels generalizing values with
  | nil => exact List.not_mem_nil
  | cons label labels ih =>
    cases values with
    | nil => exact List.not_mem_nil
    | cons value values =>
      have hrest := ih (fun l hl => hlabels l (List.mem_cons_of_mem label hl)) fun v hv =>
        hvalues v (List.mem_cons_of_mem value hv)
      have hfront := List.not_mem_append (hlabels label List.mem_cons_self) (hvalues value List.mem_cons_self)
      exact List.not_mem_append hfront (List.not_mem_cons_of_ne_of_not_mem hc hrest)

variable [DecidableEq α]

/-- The values behind the labels, none of them empty, and what stands behind the last line. -/
def readFields (eol : α) : List (List α) → List α → Option (List (List α) × List α)
  | [], text => some ([], text)
  | label :: labels, text =>
    match upTo eol text with
    | none => none
    | some (line, rest) =>
      let value := line.drop label.length
      if ¬label <+: line ∨ value = [] then none
      else (readFields eol labels rest).map fun (values, tail) => (value :: values, tail)


theorem readFields_writeFields (hlabels : ∀ label ∈ labels, eol ∉ label)
    (hlength : values.length = labels.length) (hvalues : ∀ value ∈ values, value ≠ [] ∧ eol ∉ value) :
    readFields eol labels (writeFields eol labels values ++ rest) = some (values, rest) := by
  induction labels generalizing values with
  | nil =>
    rw [List.length_eq_zero_iff.mp hlength]
    rfl
  | cons label labels ih =>
    obtain ⟨value, values, rfl⟩ := List.exists_cons_of_length_eq_add_one hlength
    obtain ⟨hne, heol⟩ := hvalues value List.mem_cons_self
    have hline : eol ∉ label ++ value := List.not_mem_append (hlabels label List.mem_cons_self) heol
    have hrest : readFields eol labels (writeFields eol labels values ++ rest) = some (values, rest) :=
      ih (fun l hl => hlabels l (List.mem_cons_of_mem label hl)) (Nat.succ.inj hlength)
        fun v hv => hvalues v (List.mem_cons_of_mem value hv)
    have hshape : writeFields eol (label :: labels) (value :: values) ++ rest =
        (label ++ value) ++ eol :: (writeFields eol labels values ++ rest) := by
      rw [writeFields, List.append_assoc, List.cons_append]
    rw [hshape, readFields, upTo_append hline]
    simp only [List.drop_left, List.prefix_append, not_true, false_or, if_neg hne, hrest, Option.map_some]

theorem readFields_spec (h : readFields eol labels text = some (values, rest)) :
    values.length = labels.length ∧ (∀ value ∈ values, value ≠ []) ∧
      text = writeFields eol labels values ++ rest := by
  induction labels generalizing text values with
  | nil =>
    cases h
    exact ⟨rfl, List.forall_mem_nil _, rfl⟩
  | cons label labels ih =>
    rw [readFields] at h
    split at h
    · cases h
    · next line tail hsplit =>
      simp only at h
      split_ifs at h with hline
      obtain ⟨hlabel, hne⟩ := not_or.mp hline
      obtain ⟨⟨others, after⟩, hothers, heq⟩ := Option.map_eq_some_iff.mp h
      cases heq
      obtain ⟨value, rfl⟩ := not_not.mp hlabel
      rw [List.drop_left] at hne ⊢
      obtain ⟨hlength, hvalues, rfl⟩ := ih hothers
      refine ⟨congrArg Nat.succ hlength, List.forall_mem_cons.mpr ⟨hne, hvalues⟩, ?_⟩
      rw [upTo_eq_some hsplit, writeFields, List.append_assoc (label ++ value), List.cons_append]

end SlsteamMoon.LabelledLines
