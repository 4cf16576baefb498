import SlsteamMoon.ElfIdentity.GetBuildId

/-! When the walk over the notes of a segment ends inside of it, and with which build id. -/
namespace SlsteamMoon.ElfIdentity
open CheckedReads Check CursorLoop NoteRecords

section
variable {α β : Type}

/-- With enough fuel the value comes. -/
def Yields (c : Nat → Reading α) (value : α) : Prop := ∃ enough, ∀ fuel, enough ≤ fuel → c fuel = .passed value

/-- More fuel does not change a value. -/
def Stable (c : Nat → Reading α) : Prop := ∀ fuel value, c fuel = .passed value → ∀ more, c (fuel + more) = .passed value

theorem Yields.unique {c : Nat → Reading α} {value value' : α} (h : Yields c value) (h' : Yields c value') :
    value = value' := by
  obtain ⟨enough, henough⟩ := h
  obtain ⟨enough', henough'⟩ := h'
  have heq := (henough (max enough enough') (Nat.le_max_left _ _)).symm.trans (henough' _ (Nat.le_max_right _ _))
  exact Check.passed.inj heq

theorem yields_pure_iff {value value' : α} : Yields (fun _ => (pure value : Reading α)) value' ↔ value' = value := by
  constructor
  · rintro ⟨enough, henough⟩
    exact (Check.passed.inj (henough enough (Nat.le_refl _))).symm
  · rintro rfl
    exact ⟨0, fun _ _ => rfl⟩

private theorem Stable.yields {c : Nat → Reading α} (hc : Stable c) {fuel : Nat} {value : α}
    (h : c fuel = .passed value) : Yields c value := by
  refine ⟨fuel, fun more hle => ?_⟩
  rw [← Nat.add_sub_cancel' hle]
  exact hc fuel value h (more - fuel)

theorem yields_bind_iff {c : Nat → Reading α} {f : Nat → α → Reading β} {value : β} (hc : Stable c) :
    Yields (fun fuel => c fuel >>= f fuel) value ↔ ∃ a, Yields c a ∧ Yields (fun fuel => f fuel a) value := by
  constructor
  · rintro ⟨enough, henough⟩
    have hpassed : c enough >>= f enough = .passed value := henough enough (Nat.le_refl _)
    cases hvalue : c enough with
    | outside =>
      rw [hvalue] at hpassed
      exact nomatch hpassed
    | refused stop =>
      rw [hvalue] at hpassed
      exact nomatch hpassed
    | passed a =>
      refine ⟨a, hc.yields hvalue, enough, fun fuel hle => ?_⟩
      have hmore := hc enough a hvalue (fuel - enough)
      have hfuel : c fuel >>= f fuel = .passed value := henough fuel hle
      rw [Nat.add_sub_cancel' hle] at hmore
      rwa [hmore] at hfuel
  · rintro ⟨a, ⟨enough, henough⟩, enough', henough'⟩
    refine ⟨max enough enough', fun fuel hle => ?_⟩
    dsimp only
    rw [henough fuel (Nat.le_trans (Nat.le_max_left _ _) hle)]
    exact henough' fuel (Nat.le_trans (Nat.le_max_right _ _) hle)

variable {σ : Type} {turn : σ → Reading (Turn σ α)} {s : σ}

private theorem loop_eq_passed_iff {fuel : Nat} {value : α} :
    loop turn fuel s = .passed value ↔ run (fun s => turnOf (turn s)) fuel s = some (.passed value) := by
  rw [loop]
  cases run (fun s => turnOf (turn s)) fuel s with
  | none =>
    constructor
    · intro h
      cases h
    · intro h
      cases h
  | some answer => exact Option.some_inj.symm

theorem stable_loop (turn : σ → Reading (Turn σ α)) (s : σ) : Stable fun fuel => loop turn fuel s := by
  intro fuel value h more
  exact loop_eq_passed_iff.mpr (run_mono (loop_eq_passed_iff.mp h) more)

end

variable {notes : List UInt8} {place next : Nat}

/-- The four things that a turn can do. -/
theorem buildIdTurn_cases (hlength : notes.length ≤ 0x100000) (place : Nat) :
    (¬Counted notes place ∧ buildIdTurn notes place = .passed (.leave none)) ∨
    ((Counted notes place ∧ ¬IsGnu notes place) ∧
      buildIdTurn notes place = .passed (.again (behind32 notes place))) ∨
    (Counted notes place ∧ IsGnu notes place ∧
      buildIdTurn notes place = .passed (.leave (some (hexadecimal (noteAt notes place).description)))) ∨
    buildIdTurn notes place = .outside := by
  by_cases hcounted : Counted notes place
  · by_cases hgnu : IsGnu notes place
    · rcases Nat.lt_or_ge notes.length (behind notes place) with hlt | hle
      · exact .inr (.inr (.inr (buildIdTurn_of_gnu_outside hlength hcounted hgnu hlt)))
      · exact .inr (.inr (.inl ⟨hcounted, hgnu, buildIdTurn_of_gnu_inside hlength hcounted hgnu hle⟩))
    · by_cases hinside : Named notes place → place + 16 ≤ notes.length
      · exact .inr (.inl ⟨⟨hcounted, hgnu⟩, buildIdTurn_of_not_gnu hcounted hgnu hinside⟩)
      · obtain ⟨hnamed, hle⟩ := Classical.not_imp.mp hinside
        exact .inr (.inr (.inr (buildIdTurn_of_name_outside hcounted hnamed (Nat.lt_of_not_le hle))))
  · exact .inl ⟨hcounted, buildIdTurn_of_not_counted hcounted⟩

private theorem chain_again_iff : chain notes place = .again next ↔
    (Counted notes place ∧ ¬IsGnu notes place) ∧ behind32 notes place = next := by
  rw [chain]
  split_ifs with h
  · rw [and_iff_right h, Turn.again.injEq]
  · exact iff_of_false nofun fun hand => h hand.1

/-- The turns of the walk. -/
def turnAt (notes : List UInt8) (place : Nat) : Turn Nat (Reading (Option (List UInt8))) := turnOf (buildIdTurn notes place)

private theorem turnAt_again (hlength : notes.length ≤ 0x100000) (h : turnAt notes place = .again next) :
    chain notes place = .again next := by
  rw [turnAt] at h
  rcases buildIdTurn_cases hlength place with ⟨-, heq⟩ | ⟨hgoes, heq⟩ | ⟨-, -, heq⟩ | heq
  · rw [heq] at h
    exact nomatch h
  · rw [heq] at h
    exact chain_again_iff.mpr ⟨hgoes, Turn.again.inj h⟩
  · rw [heq] at h
    exact nomatch h
  · rw [heq] at h
    exact nomatch h

/-- The walk goes from note to note unless it reads outside. -/
theorem turnAt_of_chain (hlength : notes.length ≤ 0x100000) (h : chain notes place = .again next)
    (hinside : buildIdTurn notes place ≠ .outside) : turnAt notes place = .again next := by
  obtain ⟨hgoes, rfl⟩ := chain_again_iff.mp h
  rw [turnAt]
  rcases buildIdTurn_cases hlength place with ⟨hcounted, -⟩ | ⟨-, heq⟩ | ⟨-, hgnu, -⟩ | heq
  · exact absurd hgoes.1 hcounted
  · rw [heq, turnOf]
  · exact absurd hgnu hgoes.2
  · exact absurd heq hinside

theorem Clean.inside (h : Clean notes) (hlength : notes.length ≤ 0x100000) (hcomes : Comes notes place) :
    buildIdTurn notes place ≠ .outside := by
  intro houtside
  by_cases hcounted : Counted notes place
  · by_cases hgnu : IsGnu notes place
    · rw [buildIdTurn_of_gnu_inside hlength hcounted hgnu (h.gnu place hcomes hcounted hgnu)] at houtside
      exact nomatch houtside
    · rw [buildIdTurn_of_not_gnu hcounted hgnu (h.named place hcomes hcounted)] at houtside
      exact nomatch houtside
  · rw [buildIdTurn_of_not_counted hcounted] at houtside
    exact nomatch houtside

private theorem comes_of_reaches (hlength : notes.length ≤ 0x100000) {s t : Nat} (h : Reaches (turnAt notes) s t) :
    Reaches (chain notes) s t :=
  h.of_steps fun _ _ _ hturn => turnAt_again hlength hturn

/-- The places of a walk lie in the segment. -/
theorem le_length_of_comes (h : Comes notes place) : place ≤ notes.length := by
  induction h with
  | start => exact Nat.zero_le _
  | turn _ hstep _ =>
    obtain ⟨hgoes, rfl⟩ := chain_again_iff.mp hstep
    exact hgoes.1.2

private theorem yields_loop_of_run {value : Option (List UInt8)} {fuel : Nat}
    (h : run (turnAt notes) fuel 0 = some (.passed value)) : Yields (fun fuel => loop (buildIdTurn notes) fuel 0) value :=
  (stable_loop (buildIdTurn notes) 0).yields (loop_eq_passed_iff.mpr h)

private theorem exists_run_of_yields {value : Option (List UInt8)}
    (h : Yields (fun fuel => loop (buildIdTurn notes) fuel 0) value) :
    ∃ fuel, run (turnAt notes) fuel 0 = some (.passed value) := by
  obtain ⟨enough, henough⟩ := h
  exact ⟨enough, loop_eq_passed_iff.mp (henough enough (Nat.le_refl _))⟩

/-- A clean walk ends at the build id that it comes to. -/
theorem Clean.yields_some (h : Clean notes) (hlength : notes.length ≤ 0x100000) (hgnu : Gnu notes place) :
    Yields (fun fuel => loop (buildIdTurn notes) fuel 0) (some (hexadecimal (noteAt notes place).description)) := by
  obtain ⟨hcomes, hcounted, hisGnu⟩ := hgnu
  have hreach : Reaches (turnAt notes) 0 place := hcomes.of_steps fun u v hu hturn =>
    turnAt_of_chain hlength hturn (h.inside hlength (comes_of_reaches hlength hu))
  have hleave : turnAt notes place = .leave (.passed (some (hexadecimal (noteAt notes place).description))) := by
    rw [turnAt, buildIdTurn_of_gnu_inside hlength hcounted hisGnu (h.gnu place hcomes hcounted hisGnu), turnOf]
  obtain ⟨fuel, hfuel⟩ := exists_run_of_reaches hreach (run_leave hleave 0)
  exact yields_loop_of_run hfuel

/-- A clean walk that comes to no build id ends behind its notes. -/
theorem Clean.yields_none (h : Clean notes) (hlength : notes.length ≤ 0x100000) (hgnu : ∀ place, ¬Gnu notes place) :
    Yields (fun fuel => loop (buildIdTurn notes) fuel 0) none := by
  have hstates : ∀ t, Reaches (turnAt notes) 0 t → t ∈ List.range (notes.length + 1) := fun t ht =>
    List.mem_range.mpr (Nat.lt_succ_of_le (le_length_of_comes (comes_of_reaches hlength ht)))
  have honward : ∀ t, Reaches (turnAt notes) 0 t → ¬ComesBack (turnAt notes) t := by
    rintro t ht ⟨u, hturn, hback⟩
    exact h.onward t (comes_of_reaches hlength ht) ⟨u, turnAt_again hlength hturn, comes_of_reaches hlength hback⟩
  obtain ⟨answer, hrun⟩ := Option.isSome_iff_exists.mp (run_isSome_of_not_comesBack hstates honward)
  obtain ⟨t, ht, hleave⟩ := exists_leave_of_run hrun
  have hcomes : Comes notes t := comes_of_reaches hlength ht
  rw [turnAt] at hleave
  rcases buildIdTurn_cases hlength t with ⟨-, heq⟩ | ⟨-, heq⟩ | ⟨hcounted, hisGnu, -⟩ | heq
  · rw [heq] at hleave
    obtain rfl := Turn.leave.inj hleave
    exact yields_loop_of_run hrun
  · rw [heq] at hleave
    exact nomatch hleave
  · exact absurd ⟨hcomes, hcounted, hisGnu⟩ (hgnu t)
  · exact absurd heq (h.inside hlength hcomes)

/-- A walk that ends inside of its segment is clean. -/
theorem clean_of_yields (hlength : notes.length ≤ 0x100000) {value : Option (List UInt8)}
    (h : Yields (fun fuel => loop (buildIdTurn notes) fuel 0) value) : Clean notes := by
  obtain ⟨fuel, hrun⟩ := exists_run_of_yields h
  have hinside {t : Nat} (ht : Reaches (turnAt notes) 0 t) : buildIdTurn notes t ≠ .outside := by
    intro houtside
    have hleave : turnAt notes t = .leave .outside := by rw [turnAt, houtside, turnOf]
    obtain ⟨fuel', hfuel'⟩ := exists_run_of_reaches ht (run_leave hleave 0)
    cases run_unique hrun hfuel'
  have hreach {s t : Nat} (hs : Reaches (turnAt notes) 0 s) (ht : Reaches (chain notes) s t) : Reaches (turnAt notes) s t :=
    ht.of_steps fun u v hu hturn => turnAt_of_chain hlength hturn (hinside (hs.trans hu))
  refine ⟨?_, ?_, ?_⟩
  · rintro t ht ⟨u, hturn, hback⟩
    have ht' := hreach .start ht
    have hu := turnAt_of_chain hlength hturn (hinside ht')
    obtain ⟨fuel', -, hfuel'⟩ := run_of_reaches hrun ht'
    rw [run_of_comesBack ⟨u, hu, hreach (ht'.turn hu) hback⟩ fuel'] at hfuel'
    cases hfuel'
  · intro t ht hcounted hnamed
    refine Nat.le_of_not_lt fun hlt => ?_
    exact hinside (hreach .start ht) (buildIdTurn_of_name_outside hcounted hnamed hlt)
  · intro t ht hcounted hgnu
    refine Nat.le_of_not_lt fun hlt => ?_
    exact hinside (hreach .start ht) (buildIdTurn_of_gnu_outside hlength hcounted hgnu hlt)

/-- What a walk over a segment finds. -/
def Finds (notes : List UInt8) (value : Option (List UInt8)) : Prop :=
  Clean notes ∧ ((∃ place, Gnu notes place ∧ value = some (hexadecimal (noteAt notes place).description)) ∨
    (∀ place, ¬Gnu notes place) ∧ value = none)

theorem yields_loop_iff (hlength : notes.length ≤ 0x100000) {value : Option (List UInt8)} :
    Yields (fun fuel => loop (buildIdTurn notes) fuel 0) value ↔ Finds notes value := by
  constructor
  · intro h
    have hclean := clean_of_yields hlength h
    refine ⟨hclean, ?_⟩
    by_cases hgnu : ∃ place, Gnu notes place
    · obtain ⟨place, hplace⟩ := hgnu
      exact .inl ⟨place, hplace, h.unique (hclean.yields_some hlength hplace)⟩
    · have hnone := not_exists.mp hgnu
      exact .inr ⟨hnone, h.unique (hclean.yields_none hlength hnone)⟩
  · rintro ⟨hclean, ⟨place, hplace, rfl⟩ | ⟨hnone, rfl⟩⟩
    · exact hclean.yields_some hlength hplace
    · exact hclean.yields_none hlength hnone

/-- Where no sum of a note that the cursor comes to wraps around, the walk is clean. -/
theorem clean_of_no_wrap (h : ∀ place, Comes notes place → Counted notes place → behind notes place < two32) :
    Clean notes := by
  have hbehind {t : Nat} (ht : Comes notes t) (hcounted : Counted notes t) : behind notes t ≤ notes.length := by
    rw [← Nat.mod_eq_of_lt (h t ht hcounted)]
    exact hcounted.2
  have hnext {t u : Nat} (ht : Comes notes t) (hstep : chain notes t = .again u) : t < u := by
    obtain ⟨hgoes, rfl⟩ := chain_again_iff.mp hstep
    have hlt := place_lt_behind notes t
    rw [behind32, Nat.mod_eq_of_lt (h t ht hgoes.1)]
    omega
  have hforward {s t : Nat} (hs : Comes notes s) (ht : Reaches (chain notes) s t) : s ≤ t := by
    induction ht with
    | start => exact Nat.le_refl s
    | turn hreach hstep ih => exact Nat.le_trans ih (Nat.le_of_lt (hnext (hs.trans hreach) hstep))
  refine ⟨?_, ?_, ?_⟩
  · rintro t ht ⟨u, hstep, hback⟩
    exact absurd (hforward (ht.turn hstep) hback) (Nat.not_le.mpr (hnext ht hstep))
  · intro t ht hcounted hnamed
    have hle := hbehind ht hcounted
    rw [behind, descriptionPlace, hnamed.2] at hle
    have hfour : rounded 4 = 4 := rfl
    omega
  · intro t ht hcounted _
    exact hbehind ht hcounted

end SlsteamMoon.ElfIdentity
