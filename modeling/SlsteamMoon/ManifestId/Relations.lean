import SlsteamMoon.ManifestId.Index

/-! The two maps of the relation index as one relation between apps and depots, and
what replacing the relations of one app does to it. -/
namespace SlsteamMoon.ManifestId
open Runs

theorem mem_setInsert {x y : UInt32} {set : List UInt32} : y ∈ setInsert x set ↔ y = x ∨ y ∈ set := by
  rw [setInsert]
  split_ifs with hx
  · constructor
    · exact .inr
    · rintro (rfl | hy)
      · exact hx
      · exact hy
  · rw [List.mem_orderedInsert]

private theorem nodup_setInsert {x : UInt32} {set : List UInt32} (h : set.Nodup) : (setInsert x set).Nodup := by
  rw [setInsert]
  split_ifs with hx
  · exact h
  · exact (List.perm_orderedInsert _ x set).nodup_iff.mpr (List.nodup_cons.mpr ⟨hx, h⟩)

namespace AppDepotIndex

def owners (depotApps : DepotId → Option (List AppId)) (d : DepotId) : List AppId := (depotApps d).getD []

/-- The app is one of the depot's owners. -/
def Owns (index : AppDepotIndex) (a : AppId) (d : DepotId) : Prop := a ∈ owners index.depotApps d

/-- The maps agree, and their lists have no element twice. -/
structure Related (index : AppDepotIndex) : Prop where
  agree : ∀ a d, d ∈ index.depotsForApp a ↔ index.Owns a d
  depots_nodup : ∀ a, (index.depotsForApp a).Nodup
  owners_nodup : ∀ d, (owners index.depotApps d).Nodup

theorem related_empty : ({} : AppDepotIndex).Related :=
  ⟨fun _ _ => by simp [depotsForApp, Owns, owners], fun _ => List.nodup_nil, fun _ => List.nodup_nil⟩

/-! The set that a script asks for. -/

theorem mem_desiredSet {depots : List DepotId} {d : DepotId} : d ∈ desiredSet depots ↔ d ∈ depots ∧ d ≠ 0 := by
  have hfold : ∀ set, d ∈ depots.foldl (fun desired e => if e ≠ 0 then setInsert e desired else desired) set ↔
      d ∈ set ∨ d ∈ depots ∧ d ≠ 0 := by
    induction depots with
    | nil => simp
    | cons e depots ih =>
      intro set
      rw [List.foldl_cons, ih]
      split_ifs with he
      · rw [mem_setInsert, List.mem_cons]
        constructor
        · rintro ((rfl | h) | h)
          · exact .inr ⟨.inl rfl, he⟩
          · exact .inl h
          · exact .inr ⟨.inr h.1, h.2⟩
        · rintro (h | ⟨rfl | h, hd⟩)
          · exact .inl (.inr h)
          · exact .inl (.inl rfl)
          · exact .inr ⟨h, hd⟩
      · rw [List.mem_cons]
        constructor
        · rintro (h | h)
          · exact .inl h
          · exact .inr ⟨.inr h.1, h.2⟩
        · rintro (h | ⟨rfl | h, hd⟩)
          · exact .inl h
          · exact absurd hd he
          · exact .inr ⟨h, hd⟩
  rw [desiredSet, hfold]
  simp only [List.not_mem_nil, false_or]

private theorem nodup_desiredSet (depots : List DepotId) : (desiredSet depots).Nodup := by
  have hfold : ∀ set : List DepotId, set.Nodup →
      (depots.foldl (fun desired e => if e ≠ 0 then setInsert e desired else desired) set).Nodup := by
    induction depots with
    | nil => exact fun _ h => h
    | cons e depots ih =>
      intro set h
      rw [List.foldl_cons]
      apply ih
      split_ifs
      · exact nodup_setInsert h
      · exact h
  exact hfold [] List.nodup_nil

section
variable {depotApps : DepotId → Option (List AppId)} {a b : AppId} {d e : DepotId} {ds desired : List DepotId}

private theorem disown_of_ne (depotApps : DepotId → Option (List AppId)) (a : AppId) (h : e ≠ d) :
    disown depotApps a d e = depotApps e := by
  rw [disown]
  cases depotApps d with
  | none => rfl
  | some apps => exact Function.update_of_ne h _ _

private theorem owners_disown (depotApps : DepotId → Option (List AppId)) (a : AppId) (d e : DepotId) :
    owners (disown depotApps a d) e = if e = d then (owners depotApps e).erase a else owners depotApps e := by
  split_ifs with he
  · subst he
    rw [disown]
    cases hd : depotApps e with
    | none => simp [owners, hd]
    | some apps =>
      simp only [owners, hd, Function.update_self, Option.getD_some]
      split_ifs with hempty
      · rw [hempty]
        rfl
      · rfl
  · rw [owners, disown_of_ne depotApps a he, owners]

private theorem disown_nodup (h : ∀ d, (owners depotApps d).Nodup) (a : AppId) (d : DepotId) :
    ∀ e, (owners (disown depotApps a d) e).Nodup := by
  intro e
  rw [owners_disown]
  split_ifs
  · exact (h e).erase a
  · exact h e

private theorem mem_disown (h : ∀ d, (owners depotApps d).Nodup) :
    b ∈ owners (disown depotApps a d) e ↔ b ∈ owners depotApps e ∧ ¬(b = a ∧ e = d) := by
  rw [owners_disown]
  split_ifs with he
  · rw [(h e).mem_erase_iff]
    tauto
  · tauto

private theorem owners_own (depotApps : DepotId → Option (List AppId)) (a : AppId) (d e : DepotId) :
    owners (own a depotApps d) e = if e = d then setInsert a (owners depotApps e) else owners depotApps e := by
  rw [own]
  split_ifs with he
  · subst he
    simp only [owners, Function.update_self, Option.getD_some]
  · simp only [owners, Function.update_of_ne he]

private theorem foldl_own_nodup (h : ∀ d, (owners depotApps d).Nodup) (a : AppId) (ds : List DepotId) :
    ∀ e, (owners (ds.foldl (own a) depotApps) e).Nodup := by
  induction ds generalizing depotApps with
  | nil => exact h
  | cons d ds ih =>
    refine ih fun e => ?_
    rw [owners_own]
    split_ifs
    · exact nodup_setInsert (h e)
    · exact h e

private theorem mem_foldl_own :
    b ∈ owners (ds.foldl (own a) depotApps) e ↔ b ∈ owners depotApps e ∨ b = a ∧ e ∈ ds := by
  induction ds generalizing depotApps with
  | nil => simp
  | cons d ds ih =>
    rw [List.foldl_cons, ih, owners_own]
    split_ifs with he
    · rw [mem_setInsert, List.mem_cons]
      tauto
    · rw [List.mem_cons]
      tauto

private theorem foldl_disown_nodup (h : ∀ d, (owners depotApps d).Nodup) (a : AppId) (ds : List DepotId) :
    ∀ e, (owners (ds.foldl (fun depotApps d => disown depotApps a d) depotApps) e).Nodup := by
  induction ds generalizing depotApps with
  | nil => exact h
  | cons d ds ih => exact ih (disown_nodup h a d)

theorem mem_foldl_disown (h : ∀ d, (owners depotApps d).Nodup) :
    b ∈ owners (ds.foldl (fun depotApps d => disown depotApps a d) depotApps) e ↔
      b ∈ owners depotApps e ∧ ¬(b = a ∧ e ∈ ds) := by
  induction ds generalizing depotApps with
  | nil => simp
  | cons d ds ih =>
    rw [List.foldl_cons, ih (disown_nodup h a d), mem_disown h, List.mem_cons]
    tauto

/-- The owners left behind: the app gives up what it had and does not ask for. -/
theorem releaseMissing_owners (ds : List DepotId) (acc : List DepotId × (DepotId → Option (List AppId))) :
    (releaseMissing a desired ds acc).2 =
      (ds.filter fun d => d ∉ desired).foldl (fun depotApps d => disown depotApps a d) acc.2 := by
  induction ds generalizing acc with
  | nil => rfl
  | cons d ds ih =>
    obtain ⟨released, depotApps⟩ := acc
    rw [releaseMissing]
    split_ifs with hd
    · rw [ih, List.filter_cons_of_neg (by simpa using hd)]
    · rw [ih, List.filter_cons_of_pos (by simpa using hd), List.foldl_cons]

/-- A depot that had nobody but the app, as the loop sees it. -/
def Lone (depotApps : DepotId → Option (List AppId)) (d : DepotId) : Prop :=
  match depotApps d with
  | none => True
  | some apps => apps.length = 1

theorem lone_iff (h : (owners depotApps d).Nodup) (ha : a ∈ owners depotApps d) :
    Lone depotApps d ↔ ∀ b ∈ owners depotApps d, b = a := by
  cases hd : depotApps d with
  | none => simp [owners, hd] at ha
  | some apps =>
    simp only [owners, hd, Option.getD_some] at h ha
    simp only [Lone, owners, hd, Option.getD_some]
    constructor
    · intro hone b hb
      obtain ⟨c, rfl⟩ := List.length_eq_one_iff.mp hone
      rw [List.mem_singleton] at ha hb
      rw [ha, hb]
    · intro hall
      rw [List.eq_replicate_of_mem hall] at h
      exact Nat.le_antisymm (List.nodup_replicate.mp h) (List.length_pos_of_mem ha)

/-- The loop releases what the app had alone and does not ask for. -/
theorem mem_releaseMissing (hds : ds.Nodup) (h : ∀ d, (owners depotApps d).Nodup) (released : List DepotId) :
    e ∈ (releaseMissing a desired ds (released, depotApps)).1 ↔
      e ∈ released ∨ (e ∈ ds ∧ e ∉ desired) ∧ Lone depotApps e := by
  induction ds generalizing released depotApps with
  | nil => simp [releaseMissing]
  | cons d ds ih =>
    obtain ⟨hnotin, hds⟩ := List.nodup_cons.mp hds
    rw [releaseMissing]
    split_ifs with hd
    · rw [ih hds h, List.mem_cons]
      have hne : e = d → e ∉ desired → False := fun heq hnot => hnot (heq ▸ hd)
      tauto
    · rw [ih hds (disown_nodup h a d), List.mem_cons]
      have hgone : (match depotApps d with | none => true | some owners => decide (owners.length = 1)) = true ↔
          Lone depotApps d := by
        rw [Lone]
        split <;> simp
      have hother : e ≠ d → (Lone (disown depotApps a d) e ↔ Lone depotApps e) := by
        intro hne
        rw [Lone, Lone, disown_of_ne depotApps a hne]
      by_cases heq : e = d
      · subst heq
        split_ifs with hmatch
        · have := hgone.mp hmatch
          simp only [List.mem_append, List.mem_singleton]
          tauto
        · have hnot := fun hlone => hmatch (hgone.mpr hlone)
          tauto
      · rw [hother heq]
        split_ifs
        · simp only [List.mem_append, List.mem_singleton]
          tauto
        · tauto

end

section
variable {index : AppDepotIndex} {a b : AppId} {d e : DepotId}

theorem owners_replaceApp (ha : a ≠ 0) (depots : List DepotId) :
    (index.replaceApp a depots).2.depotApps =
      (desiredSet depots).foldl (own a)
        (releaseMissing a (desiredSet depots) (index.depotsForApp a) ([], index.depotApps)).2 := by
  rw [replaceApp, if_neg ha]
  dsimp only
  split_ifs with hnone
  · rw [hnone]
    rfl
  · rfl

theorem released_replaceApp (ha : a ≠ 0) (depots : List DepotId) :
    (index.replaceApp a depots).1 =
      (releaseMissing a (desiredSet depots) (index.depotsForApp a) ([], index.depotApps)).1 := by
  rw [replaceApp, if_neg ha]
  dsimp only
  split_ifs <;> rfl

private theorem depotsForApp_replaceApp (ha : a ≠ 0) (depots : List DepotId) (b : AppId) :
    (index.replaceApp a depots).2.depotsForApp b = if b = a then desiredSet depots else index.depotsForApp b := by
  rw [replaceApp, if_neg ha]
  dsimp only
  split_ifs with hnone hb hb
  · simp only [hnone, hb, depotsForApp, Function.update_self, Option.getD_none]
  · simp only [depotsForApp, Function.update_of_ne hb]
  · simp only [hb, depotsForApp, Function.update_self, Option.getD_some]
  · simp only [depotsForApp, Function.update_of_ne hb]

/-- The app owns what it asked for, everyone else what they owned. -/
theorem Related.owns_replaceApp (h : index.Related) (ha : a ≠ 0) (depots : List DepotId) :
    (index.replaceApp a depots).2.Owns b d ↔ if b = a then d ∈ desiredSet depots else index.Owns b d := by
  rw [Owns, owners_replaceApp ha, mem_foldl_own, releaseMissing_owners, mem_foldl_disown h.owners_nodup,
    List.mem_filter, h.agree a d, decide_eq_true_iff]
  split_ifs with hb
  · subst hb
    rw [Owns]
    tauto
  · rw [Owns]
    tauto

/-- Released is what the app owned alone and no longer asks for. -/
theorem Related.mem_released (h : index.Related) (ha : a ≠ 0) (depots : List DepotId) :
    d ∈ (index.replaceApp a depots).1 ↔
      index.Owns a d ∧ d ∉ desiredSet depots ∧ ∀ b, index.Owns b d → b = a := by
  rw [released_replaceApp ha, mem_releaseMissing (h.depots_nodup a) h.owners_nodup, h.agree a d]
  constructor
  · rintro (hnone | ⟨⟨howns, hnot⟩, hlone⟩)
    · cases hnone
    · exact ⟨howns, hnot, (lone_iff (h.owners_nodup d) howns).mp hlone⟩
  · rintro ⟨howns, hnot, hall⟩
    exact .inr ⟨⟨howns, hnot⟩, (lone_iff (h.owners_nodup d) howns).mpr hall⟩

theorem Related.replaceApp (h : index.Related) (a : AppId) (depots : List DepotId) :
    (index.replaceApp a depots).2.Related := by
  by_cases ha : a = 0
  · rw [AppDepotIndex.replaceApp, if_pos ha]
    exact h
  · refine ⟨fun b d => ?_, fun b => ?_, ?_⟩
    · rw [depotsForApp_replaceApp ha, h.owns_replaceApp ha]
      split_ifs
      · rfl
      · exact h.agree b d
    · rw [depotsForApp_replaceApp ha]
      split_ifs
      · exact nodup_desiredSet depots
      · exact h.depots_nodup b
    · rw [owners_replaceApp ha, releaseMissing_owners]
      exact foldl_own_nodup (foldl_disown_nodup h.owners_nodup a _) a _

theorem Related.releaseApp (h : index.Related) (a : AppId) : (index.releaseApp a).2.Related := by
  rw [AppDepotIndex.releaseApp]
  cases hdepots : index.appDepots a with
  | none => exact h
  | some depots =>
    have hall : index.depotsForApp a = depots := by rw [depotsForApp, hdepots, Option.getD_some]
    have hother : ∀ depotApps b, (AppDepotIndex.mk (Function.update index.appDepots a none) depotApps).depotsForApp b =
        if b = a then [] else index.depotsForApp b := by
      intro depotApps b
      split_ifs with hb
      · simp only [hb, depotsForApp, Function.update_self, Option.getD_none]
      · simp only [depotsForApp, Function.update_of_ne hb]
    refine ⟨fun b d => ?_, fun b => ?_, ?_⟩
    · rw [hother, Owns, mem_foldl_disown h.owners_nodup, ← hall, h.agree a d]
      split_ifs with hb
      · subst hb
        rw [Owns]
        simp only [List.not_mem_nil, true_and, false_iff]
        tauto
      · rw [h.agree b d, Owns]
        tauto
    · rw [hother]
      split_ifs
      · exact List.nodup_nil
      · exact h.depots_nodup b
    · exact foldl_disown_nodup h.owners_nodup a depots

end
end AppDepotIndex

namespace Process

private theorem index_load (p : Process) : p.loadCatalogLocked.index = p.index := by
  rw [loadCatalogLocked]
  split_ifs <;> rfl

private theorem index_retireDepotsLocked (p : Process) (ds : List DepotId) (removes : DepotId → Bool) :
    (p.retireDepotsLocked ds removes).index = p.index := by
  rw [retireDepotsLocked, ← p.index_load]
  generalize p.loadCatalogLocked = q
  induction ds generalizing q with
  | nil => rfl
  | cons d ds ih =>
    rw [List.foldl_cons, ih, retireOne]
    split_ifs <;> rfl

theorem index_savePin (p : Process) (d : DepotId) (gid : Gid) (io : WriteIo) :
    (p.savePin d gid io).2.index = p.index := by
  rw [savePin]
  split_ifs
  · rfl
  · cases io <;> rfl
  · rfl

theorem index_replaceScript (p : Process) (a : AppId) (ds : List DepotId) (removes : DepotId → Bool) :
    (p.replaceScript a ds removes).index = (p.index.replaceApp a ds).2 :=
  index_retireDepotsLocked _ _ _

/-- In every process the two maps of the index agree. -/
theorem related_exec {disk : Disk} {es : List Event} {p : Process} (hrun : exec step (start disk) es = some p) :
    p.index.Related := by
  refine exec_preserves (P := fun p => p.index.Related) ?_ AppDepotIndex.related_empty hrun
  intro p e q h hstep
  cases e with
  | restart =>
    cases hstep
    exact AppDepotIndex.related_empty
  | savePin d gid io =>
    cases hstep
    rwa [index_savePin]
  | stopInSave d =>
    cases hstep
    exact AppDepotIndex.related_empty
  | retireDepots ds removes =>
    cases hstep
    rw [retireDepots]
    split_ifs
    · exact h
    · rwa [index_retireDepotsLocked]
  | replaceScript a ds removes =>
    cases hstep
    rw [index_replaceScript]
    exact h.replaceApp a ds
  | forgetApp a moves gone =>
    cases hstep
    rw [forgetApp]
    dsimp only
    split_ifs
    · exact h
    · exact h.releaseApp a
    · exact h
  | getPinnedGid d =>
    cases hstep
    change p.loadCatalogLocked.index.Related
    rwa [index_load]

end Process
end SlsteamMoon.ManifestId
