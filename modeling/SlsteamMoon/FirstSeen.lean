import Mathlib.Data.List.Basic
import Mathlib.Data.List.Pairwise

/-! A pass over a list that takes the first element of each key and remembers the keys it has seen. -/
namespace SlsteamMoon.FirstSeen

variable {α κ μ : Type*} [DecidableEq κ] [DecidableEq μ]

/-- The elements whose key is new, and the keys seen in the end. -/
def pass (key : α → κ) : List κ → List α → List α × List κ
  | seen, [] => ([], seen)
  | seen, a :: l =>
    if key a ∈ seen then pass key seen l
    else (a :: (pass key (key a :: seen) l).1, (pass key (key a :: seen) l).2)

/-- The list holds the first element of each key, once and in the order of their places. -/
structure TakesFirsts (key : α → κ) (l out : List α) : Prop where
  each : ∀ a, a ∈ out ↔ l.find? (fun b => key b = key a) = some a
  ordered : out.Pairwise fun a b => l.findIdx (fun c => key c = key a) < l.findIdx (fun c => key c = key b)

theorem pass_append (key : α → κ) (seen : List κ) (first second : List α) :
    pass key seen (first ++ second) =
      ((pass key seen first).1 ++ (pass key (pass key seen first).2 second).1,
        (pass key (pass key seen first).2 second).2) := by
  induction first generalizing seen with
  | nil => rfl
  | cons a first ih =>
    rw [List.cons_append, pass, pass]
    split_ifs with hseen
    · exact ih seen
    · rw [ih]
      rfl

theorem mem_pass {key : α → κ} {seen : List κ} {l : List α} {a : α} :
    a ∈ (pass key seen l).1 ↔ key a ∉ seen ∧ l.find? (fun b => key b = key a) = some a := by
  induction l generalizing seen with
  | nil => simp [pass]
  | cons b l ih =>
    rw [pass]
    split_ifs with hb
    · rw [ih]
      constructor
      · rintro ⟨ha, hfind⟩
        have hne : key b ≠ key a := fun heq => ha (heq ▸ hb)
        exact ⟨ha, by rw [List.find?_cons_of_neg (by simpa using hne), hfind]⟩
      · rintro ⟨ha, hfind⟩
        have hne : key b ≠ key a := fun heq => ha (heq ▸ hb)
        rw [List.find?_cons_of_neg (by simpa using hne)] at hfind
        exact ⟨ha, hfind⟩
    · rw [List.mem_cons, ih, List.mem_cons, not_or]
      by_cases hkey : key b = key a
      · rw [List.find?_cons_of_pos (by simpa using hkey), Option.some.injEq]
        constructor
        · rintro (rfl | ⟨⟨hne, -⟩, -⟩)
          · exact ⟨hb, rfl⟩
          · exact absurd hkey.symm hne
        · rintro ⟨-, rfl⟩
          exact .inl rfl
      · rw [List.find?_cons_of_neg (by simpa using hkey)]
        constructor
        · rintro (rfl | ⟨⟨-, ha⟩, hfind⟩)
          · exact absurd rfl hkey
          · exact ⟨ha, hfind⟩
        · rintro ⟨ha, hfind⟩
          exact .inr ⟨⟨Ne.symm hkey, ha⟩, hfind⟩

/-- No key is taken twice. -/
theorem pass_distinct (key : α → κ) (seen : List κ) (l : List α) :
    (pass key seen l).1.Pairwise fun a b => key a ≠ key b := by
  induction l generalizing seen with
  | nil => exact List.Pairwise.nil
  | cons a l ih =>
    rw [pass]
    split_ifs
    · exact ih seen
    · refine List.pairwise_cons.mpr ⟨fun b hb heq => ?_, ih (key a :: seen)⟩
      exact (mem_pass.mp hb).1 (heq ▸ List.mem_cons_self)

theorem pass_ordered (key : α → κ) (seen : List κ) (l : List α) :
    (pass key seen l).1.Pairwise fun a b =>
      l.findIdx (fun c => key c = key a) < l.findIdx (fun c => key c = key b) := by
  induction l generalizing seen with
  | nil => exact List.Pairwise.nil
  | cons a l ih =>
    -- the elements taken behind `a` have other keys, so that their places move by one
    have hshift (seen : List κ) (hseen : key a ∈ seen) : (pass key seen l).1.Pairwise fun b c =>
        (a :: l).findIdx (fun d => key d = key b) < (a :: l).findIdx (fun d => key d = key c) := by
      apply (ih seen).imp_of_mem
      intro b c hb hc hlt
      have hne : ∀ {d : α}, d ∈ (pass key seen l).1 → key a ≠ key d :=
        fun hd heq => (mem_pass.mp hd).1 (heq ▸ hseen)
      simpa [List.findIdx_cons, hne hb, hne hc] using hlt
    rw [pass]
    split_ifs with hseen
    · exact hshift seen hseen
    · refine List.pairwise_cons.mpr ⟨fun b hb => ?_, hshift (key a :: seen) List.mem_cons_self⟩
      have hne : key a ≠ key b := fun heq => (mem_pass.mp hb).1 (heq ▸ List.mem_cons_self)
      simp [List.findIdx_cons, hne]

theorem pass_takesFirsts (key : α → κ) (l : List α) : TakesFirsts key l (pass key [] l).1 :=
  ⟨fun _ => by rw [mem_pass]; exact and_iff_right List.not_mem_nil, pass_ordered key [] l⟩

/-- A coarser key that tells the elements of the list apart as well. -/
theorem pass_congr {key : α → κ} {mix : κ → μ} {seen : List κ} {l : List α}
    (h : ∀ k ∈ seen ++ l.map key, ∀ k' ∈ seen ++ l.map key, mix k = mix k' → k = k') :
    (pass (fun a => mix (key a)) (seen.map mix) l).1 = (pass key seen l).1 := by
  induction l generalizing seen with
  | nil => rfl
  | cons a l ih =>
    have ha : key a ∈ seen ++ (a :: l).map key := by simp
    have hmem : mix (key a) ∈ seen.map mix ↔ key a ∈ seen := by
      rw [List.mem_map]
      constructor
      · rintro ⟨k, hk, heq⟩
        rwa [← h k (List.mem_append_left _ hk) (key a) ha heq]
      · exact fun hk => ⟨key a, hk, rfl⟩
    rw [pass, pass]
    by_cases hseen : key a ∈ seen
    · rw [if_pos (hmem.mpr hseen), if_pos hseen]
      apply ih
      intro k hk k' hk'
      exact h k (by simp at hk ⊢; tauto) k' (by simp at hk' ⊢; tauto)
    · rw [if_neg (mt hmem.mp hseen), if_neg hseen]
      refine congrArg (a :: ·) (@ih (key a :: seen) ?_)
      intro k hk k' hk'
      exact h k (by simp at hk ⊢; tauto) k' (by simp at hk' ⊢; tauto)

/-- Leaving out the elements of some keys before the pass or after it is the same. -/
theorem pass_filter (key : α → κ) (wanted : κ → Bool) {seen seen' : List κ} (l : List α)
    (hseen : ∀ k, wanted k = true → (k ∈ seen' ↔ k ∈ seen)) :
    (pass key seen' (l.filter fun a => wanted (key a))).1 = (pass key seen l).1.filter fun a => wanted (key a) := by
  induction l generalizing seen seen' with
  | nil => rfl
  | cons a l ih =>
    rw [pass]
    cases hwanted : wanted (key a) with
    | false =>
      rw [List.filter_cons_of_neg (by simpa using hwanted)]
      split_ifs with ha
      · exact ih hseen
      · rw [List.filter_cons_of_neg (by simpa using hwanted)]
        apply ih
        intro k hk
        have hne : k ≠ key a := by
          rintro rfl
          rw [hk] at hwanted
          cases hwanted
        rw [hseen k hk, List.mem_cons, or_iff_right hne]
    | true =>
      rw [List.filter_cons_of_pos (p := fun a => wanted (key a)) hwanted, pass]
      by_cases ha : key a ∈ seen
      · rw [if_pos ha, if_pos ((hseen _ hwanted).mpr ha)]
        exact ih hseen
      · rw [if_neg ha, if_neg (mt (hseen _ hwanted).mp ha),
          List.filter_cons_of_pos (p := fun a => wanted (key a)) hwanted]
        refine congrArg (a :: ·) (ih ?_)
        intro k hk
        rw [List.mem_cons, List.mem_cons, hseen k hk]

/-- The pass over a mix of the key takes the first element of each key just when the mix tells the keys apart. -/
theorem pass_mixed_iff (key : α → κ) (mix : κ → μ) (l : List α) :
    TakesFirsts key l (pass (fun a => mix (key a)) [] l).1 ↔
      ∀ a ∈ l, ∀ b ∈ l, mix (key a) = mix (key b) → key a = key b := by
  constructor
  · intro h a ha b hb heq
    have hfirst : ∀ c ∈ l, ∃ d ∈ (pass (fun a => mix (key a)) [] l).1, key d = key c := by
      intro c hc
      obtain ⟨d, hd⟩ := Option.isSome_iff_exists.mp
        (List.find?_isSome (p := fun b => decide (key b = key c)).mpr ⟨c, hc, by simp⟩)
      have hkey : key d = key c := by simpa using List.find?_some hd
      refine ⟨d, (h.each d).mpr ?_, hkey⟩
      rw [hkey]
      exact hd
    obtain ⟨d, hd, hda⟩ := hfirst a ha
    obtain ⟨e, he, heb⟩ := hfirst b hb
    have hsame : mix (key d) = mix (key e) := by rw [hda, heb, heq]
    by_cases hde : d = e
    · rw [← hda, hde, heb]
    · have hsymm : Std.Symm fun a b : α => mix (key a) ≠ mix (key b) := ⟨fun _ _ hne => hne.symm⟩
      exact absurd hsame ((pass_distinct (fun a => mix (key a)) [] l).forall hd he hde)
  · intro h
    have hcongr := @pass_congr α κ μ _ _ key mix [] l (by simpa using h)
    rw [List.map_nil] at hcongr
    rw [hcongr]
    exact pass_takesFirsts key l

end SlsteamMoon.FirstSeen
