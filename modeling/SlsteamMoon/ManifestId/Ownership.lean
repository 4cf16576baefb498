import Mathlib.Data.List.Induction
import SlsteamMoon.ManifestId.Relations

/-! What the relation index gives back: the depots that lose their last owner, over any row of replacements and releases. -/
namespace SlsteamMoon.ManifestId.AppDepotIndex

/-- The maps agree and have no empty set. -/
structure Inverse (index : AppDepotIndex) : Prop extends index.Related where
  depots_ne : ∀ a, index.appDepots a ≠ some []
  owners_ne : ∀ d, index.depotApps d ≠ some []

inductive Change where
  | replaceApp (appId : AppId) (depots : List DepotId)
  | releaseApp (appId : AppId)

def change (index : AppDepotIndex) : Change → List DepotId × AppDepotIndex
  | .replaceApp appId depots => index.replaceApp appId depots
  | .releaseApp appId => index.releaseApp appId

def run (changes : List Change) : AppDepotIndex := changes.foldl (fun index c => (index.change c).2) {}

private theorem inverse_empty : ({} : AppDepotIndex).Inverse := ⟨related_empty, nofun, nofun⟩

section
variable {depotApps : DepotId → Option (List AppId)} {a b : AppId} {d e : DepotId}

private theorem disown_ne (h : ∀ d, depotApps d ≠ some []) (a : AppId) (d e : DepotId) :
    disown depotApps a d e ≠ some [] := by
  rw [disown]
  cases hd : depotApps d with
  | none => exact h e
  | some apps =>
    by_cases he : e = d
    · subst he
      simp only [Function.update_self]
      split_ifs with hempty
      · exact (Option.some_ne_none _).symm
      · exact fun hsome => hempty (Option.some.inj hsome)
    · simp only [Function.update_of_ne he]
      exact h e

private theorem foldl_disown_ne (h : ∀ d, depotApps d ≠ some []) (a : AppId) (ds : List DepotId) (e : DepotId) :
    ds.foldl (fun depotApps d => disown depotApps a d) depotApps e ≠ some [] := by
  induction ds generalizing depotApps with
  | nil => exact h e
  | cons d ds ih => exact ih (disown_ne h a d)

private theorem foldl_own_ne (h : ∀ d, depotApps d ≠ some []) (a : AppId) (ds : List DepotId) (e : DepotId) :
    ds.foldl (own a) depotApps e ≠ some [] := by
  induction ds generalizing depotApps with
  | nil => exact h e
  | cons d ds ih =>
    refine ih fun f hf => ?_
    rw [own] at hf
    by_cases hfd : f = d
    · subst hfd
      rw [Function.update_self, Option.some.injEq] at hf
      have hmem : a ∈ setInsert a ((depotApps f).getD []) := mem_setInsert.mpr (.inl rfl)
      rw [hf] at hmem
      cases hmem
    · rw [Function.update_of_ne hfd] at hf
      exact h f hf

/-- The loop gives back depots of the list that it runs over, in their order. -/
theorem releaseMissing_sublist (a : AppId) (desired ds : List DepotId) (released : List DepotId)
    (depotApps : DepotId → Option (List AppId)) :
    ∃ gone, gone.Sublist ds ∧ (releaseMissing a desired ds (released, depotApps)).1 = released ++ gone := by
  induction ds generalizing released depotApps with
  | nil => exact ⟨[], .slnil, (List.append_nil _).symm⟩
  | cons d ds ih =>
    rw [releaseMissing]
    split_ifs with hd
    · obtain ⟨gone, hgone, heq⟩ := ih released depotApps
      exact ⟨gone, hgone.cons d, heq⟩
    · dsimp only
      split_ifs
      · obtain ⟨gone, hgone, heq⟩ := ih (released ++ [d]) (disown depotApps a d)
        exact ⟨d :: gone, hgone.cons_cons d, by rw [heq, List.append_assoc, List.singleton_append]⟩
      · obtain ⟨gone, hgone, heq⟩ := ih released (disown depotApps a d)
        exact ⟨gone, hgone.cons d, heq⟩

end

variable {index : AppDepotIndex} {a b : AppId} {d : DepotId}

theorem Inverse.replaceApp (h : index.Inverse) (a : AppId) (depots : List DepotId) :
    (index.replaceApp a depots).2.Inverse := by
  refine ⟨h.toRelated.replaceApp a depots, fun b => ?_, fun d => ?_⟩
  · rw [AppDepotIndex.replaceApp]
    split_ifs with ha
    · exact h.depots_ne b
    · dsimp only
      by_cases hb : b = a
      · subst hb
        split_ifs with hnone
        · simp only [Function.update_self]
          exact (Option.some_ne_none _).symm
        · simp only [Function.update_self]
          exact fun hsome => hnone (Option.some.inj hsome)
      · split_ifs <;> simp only [Function.update_of_ne hb] <;> exact h.depots_ne b
  · by_cases ha : a = 0
    · rw [AppDepotIndex.replaceApp, if_pos ha]
      exact h.owners_ne d
    · rw [owners_replaceApp ha, releaseMissing_owners]
      exact foldl_own_ne (foldl_disown_ne h.owners_ne a _) a _ d

theorem Inverse.releaseApp (h : index.Inverse) (a : AppId) : (index.releaseApp a).2.Inverse := by
  refine ⟨h.toRelated.releaseApp a, fun b => ?_, fun d => ?_⟩
  · rw [AppDepotIndex.releaseApp]
    cases index.appDepots a with
    | none => exact h.depots_ne b
    | some depots =>
      by_cases hb : b = a
      · subst hb
        simp only [Function.update_self]
        exact (Option.some_ne_none _).symm
      · simp only [Function.update_of_ne hb]
        exact h.depots_ne b
  · rw [AppDepotIndex.releaseApp]
    cases index.appDepots a with
    | none => exact h.owners_ne d
    | some depots => exact foldl_disown_ne h.owners_ne a depots d

private theorem inverse_run (changes : List Change) : (run changes).Inverse := by
  induction changes using List.reverseRecOn with
  | nil => exact inverse_empty
  | append_singleton changes c ih =>
    rw [run, List.foldl_append, List.foldl_cons, List.foldl_nil]
    cases c with
    | replaceApp a depots => exact ih.replaceApp a depots
    | releaseApp a => exact ih.releaseApp a

/-- A released app owns nothing, everyone else what they owned. -/
theorem Related.owns_releaseApp (h : index.Related) : (index.releaseApp a).2.Owns b d ↔ b ≠ a ∧ index.Owns b d := by
  rw [AppDepotIndex.releaseApp]
  cases hdepots : index.appDepots a with
  | none =>
    have hnot : ¬index.Owns a d := by
      rw [← h.agree a d, depotsForApp, hdepots]
      exact List.not_mem_nil
    constructor
    · refine fun howns => ⟨?_, howns⟩
      rintro rfl
      exact hnot howns
    · exact And.right
  | some depots =>
    have hall : index.depotsForApp a = depots := by rw [depotsForApp, hdepots, Option.getD_some]
    rw [Owns, mem_foldl_disown h.owners_nodup, ← hall, h.agree a d, Owns, Owns]
    by_cases hb : b = a
    · subst hb
      tauto
    · tauto

/-- Given back is what the app owned alone. -/
theorem Related.mem_releaseApp (h : index.Related) :
    d ∈ (index.releaseApp a).1 ↔ index.Owns a d ∧ ∀ b, index.Owns b d → b = a := by
  have hmem : d ∈ (index.releaseApp a).1 ↔ d ∈ index.exclusiveDepotsForApp a := by
    rw [AppDepotIndex.releaseApp]
    cases hdepots : index.appDepots a with
    | none => simp [exclusiveDepotsForApp, depotsForApp, hdepots]
    | some depots => rfl
  rw [hmem, exclusiveDepotsForApp, List.mem_filter, h.agree a d]
  refine and_congr_right fun howns => ?_
  have hlone := lone_iff (h.owners_nodup d) howns
  rw [Lone] at hlone
  rw [Owns, owners] at howns
  cases howners : index.depotApps d with
  | none =>
    rw [howners] at howns
    cases howns
  | some apps =>
    rw [howners] at hlone
    simp only [decide_eq_true_eq]
    exact hlone

private theorem Related.nodup_change (h : index.Related) (c : Change) : (index.change c).1.Nodup := by
  cases c with
  | replaceApp a depots =>
    by_cases ha : a = 0
    · rw [change, AppDepotIndex.replaceApp, if_pos ha]
      exact List.nodup_nil
    · rw [change, released_replaceApp ha]
      obtain ⟨gone, hgone, heq⟩ := releaseMissing_sublist a (desiredSet depots) (index.depotsForApp a) [] index.depotApps
      rw [heq, List.nil_append]
      exact (h.depots_nodup a).sublist hgone
  | releaseApp a =>
    rw [change, AppDepotIndex.releaseApp]
    cases index.appDepots a with
    | none => exact List.nodup_nil
    | some depots => exact (h.depots_nodup a).filter _

/-- Given back is what had an owner before the call and has none after it. -/
theorem Related.mem_change (h : index.Related) (c : Change) :
    d ∈ (index.change c).1 ↔ (∃ a, index.Owns a d) ∧ ¬∃ a, (index.change c).2.Owns a d := by
  cases c with
  | replaceApp a depots =>
    rw [change]
    by_cases ha : a = 0
    · rw [AppDepotIndex.replaceApp, if_pos ha]
      simp only [List.not_mem_nil, false_iff, not_and_not_right, imp_self]
    · rw [h.mem_released ha]
      simp only [h.owns_replaceApp ha, not_exists]
      constructor
      · rintro ⟨howns, hnot, hall⟩
        refine ⟨⟨a, howns⟩, fun b hb => ?_⟩
        split_ifs at hb with hba
        · exact hnot hb
        · exact hba (hall b hb)
      · rintro ⟨⟨c, hc⟩, hnone⟩
        have hall : ∀ b, index.Owns b d → b = a := by
          intro b hb
          by_contra hba
          exact hnone b (by rwa [if_neg hba])
        have hnot : d ∉ desiredSet depots := fun hmem => hnone a (by rwa [if_pos rfl])
        exact ⟨hall c hc ▸ hc, hnot, hall⟩
  | releaseApp a =>
    rw [change, h.mem_releaseApp]
    simp only [h.owns_releaseApp, not_exists, not_and]
    constructor
    · rintro ⟨howns, hall⟩
      exact ⟨⟨a, howns⟩, fun b hba hb => hba (hall b hb)⟩
    · rintro ⟨⟨c, hc⟩, hnone⟩
      have hall : ∀ b, index.Owns b d → b = a := by
        intro b hb
        by_contra hba
        exact hnone b hba hb
      exact ⟨hall c hc ▸ hc, hall⟩

/-- Who owns which depot after a change. -/
def OwnsAfterChange (index : AppDepotIndex) (b : AppId) (d : DepotId) : Change → Prop
  | .replaceApp a depots => if b = a ∧ a ≠ 0 then d ∈ depots ∧ d ≠ 0 else index.Owns b d
  | .releaseApp a => b ≠ a ∧ index.Owns b d

private theorem Related.owns_change (h : index.Related) (c : Change) :
    (index.change c).2.Owns b d ↔ index.OwnsAfterChange b d c := by
  cases c with
  | replaceApp a depots =>
    rw [change, OwnsAfterChange]
    by_cases ha : a = 0
    · rw [AppDepotIndex.replaceApp, if_pos ha, if_neg fun hboth => hboth.2 ha]
    · rw [h.owns_replaceApp ha]
      by_cases hb : b = a
      · rw [if_pos hb, if_pos ⟨hb, ha⟩, mem_desiredSet]
      · rw [if_neg hb, if_neg fun hboth => hb hboth.1]
  | releaseApp a => exact h.owns_releaseApp

/-- The two maps say the same and hold no empty set; a change gives back the depots that lose their last owner, and
moves no other relation than those of its app. -/
theorem ownership_index (changes : List Change) :
    (∀ a d, d ∈ ((run changes).appDepots a).getD [] ↔ a ∈ ((run changes).depotApps d).getD []) ∧
    (∀ a, (run changes).appDepots a ≠ some []) ∧ (∀ d, (run changes).depotApps d ≠ some []) ∧
    (∀ c : Change, ((run changes).change c).1.Nodup ∧
      ∀ d, d ∈ ((run changes).change c).1 ↔
        (∃ a, a ∈ ((run changes).depotApps d).getD []) ∧
          ¬∃ a, a ∈ (((run changes).change c).2.depotApps d).getD []) ∧
    ∀ (c : Change) b d, ((run changes).change c).2.Owns b d ↔ (run changes).OwnsAfterChange b d c := by
  have h := inverse_run changes
  exact ⟨h.agree, h.depots_ne, h.owners_ne, fun c => ⟨h.toRelated.nodup_change c, fun d => h.toRelated.mem_change c⟩,
    fun c b d => h.toRelated.owns_change c⟩

end SlsteamMoon.ManifestId.AppDepotIndex
