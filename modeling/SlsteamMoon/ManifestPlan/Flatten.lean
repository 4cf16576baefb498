import Mathlib.Data.Finset.Insert
import SlsteamMoon.ManifestPlan.Planner

/-! The depot index of the redirect lookup. A depot that two apps pin to different gids belongs to
neither of them, and the order of iteration does not choose a winner. -/
namespace SlsteamMoon.ManifestPlan

/-- The locals of flattenDepots. -/
structure Flattening where
  flat : AList fun _ : DepotId => Gid
  ambiguous : Finset DepotId

/-- The body of the inner loop. -/
def Flattening.addPin (s : Flattening) (depotId : DepotId) (gid : Gid) : Flattening :=
  if depotId = 0 ∨ gid = 0 then s
  else if depotId ∈ s.ambiguous then s
  else match s.flat.lookup depotId with
    | none => { s with flat := s.flat.insert depotId gid }
    | some held =>
      if held ≠ gid then
        { flat := s.flat.erase depotId, ambiguous := insert depotId s.ambiguous }
      else s

/-- The body of the outer loop. -/
def Flattening.addApp (s : Flattening) (appId : AppId) (app : AppPins) : Flattening :=
  if appId = 0 then s
  else app.depots.entries.foldl (fun s entry => s.addPin entry.1 entry.2) s

def flattenDepots (pins : PinMap) : AList fun _ : DepotId => Gid :=
  (pins.entries.foldl (fun s entry => s.addApp entry.1 entry.2) (⟨∅, ∅⟩ : Flattening)).flat

/-- Some app other than zero pins the depot to this gid. -/
def Pinned (pins : PinMap) (depotId : DepotId) (gid : Gid) : Prop :=
  gid ≠ 0 ∧ ∃ appId ≠ 0, ∃ app, pins.lookup appId = some app ∧ app.depots.lookup depotId = some gid

/-- The two maps hold the same pins; neither the order of the apps nor the order of their depots
counts. -/
def SamePins (pins other : PinMap) : Prop :=
  ∀ appId, Option.Rel (fun a b : AppPins => a.locked = b.locked ∧ a.buildId = b.buildId ∧
    ∀ depotId, a.depots.lookup depotId = b.depots.lookup depotId)
    (pins.lookup appId) (other.lookup appId)

/-- What the loops know after the pins in `seen`. -/
structure Flattening.Knows (s : Flattening) (seen : DepotId → Gid → Prop) : Prop where
  flat : ∀ depotId gid,
    s.flat.lookup depotId = some gid ↔ seen depotId gid ∧ ∀ other, seen depotId other → other = gid
  ambiguous : ∀ depotId,
    depotId ∈ s.ambiguous ↔ ∃ gid other, seen depotId gid ∧ seen depotId other ∧ gid ≠ other

namespace Flattening

theorem Knows.congr {s : Flattening} {seen seen' : DepotId → Gid → Prop} (h : s.Knows seen)
    (hseen : ∀ depotId gid, seen depotId gid ↔ seen' depotId gid) : s.Knows seen' := by
  have heq : seen = seen' := by
    funext depotId gid
    exact propext (hseen depotId gid)
  exact heq ▸ h

/-- A depot with no entry that is not ambiguous was pinned nowhere so far. -/
theorem Knows.unseen {s : Flattening} {seen : DepotId → Gid → Prop} (h : s.Knows seen)
    {depotId : DepotId} (hflat : s.flat.lookup depotId = none) (hclear : depotId ∉ s.ambiguous)
    (gid : Gid) : ¬ seen depotId gid := by
  intro hgid
  have hsole : ∀ other, seen depotId other → other = gid := by
    intro other hother
    by_contra hne
    exact hclear ((h.ambiguous depotId).mpr ⟨other, gid, hother, hgid, hne⟩)
  have := (h.flat depotId gid).mpr ⟨hgid, hsole⟩
  simp [hflat] at this

/-- The pins seen once one more was looked at. -/
def also (seen : DepotId → Gid → Prop) (depotId : DepotId) (gid : Gid) : DepotId → Gid → Prop :=
  fun d g => seen d g ∨ (depotId ≠ 0 ∧ gid ≠ 0 ∧ d = depotId ∧ g = gid)

private theorem Knows.addPin {s : Flattening} {seen : DepotId → Gid → Prop} (h : s.Knows seen)
    (depotId : DepotId) (gid : Gid) : (s.addPin depotId gid).Knows (also seen depotId gid) := by
  unfold Flattening.addPin
  split_ifs with hzero hamb
  · apply h.congr
    intro d g
    unfold also
    tauto
  · -- A third pin does not bring the depot back.
    obtain ⟨g₁, g₂, h₁, h₂, hne⟩ := (h.ambiguous depotId).mp hamb
    constructor
    · intro d g
      rw [h.flat]
      by_cases hd : d = depotId
      · subst hd
        constructor
        · rintro ⟨-, hall⟩
          exact absurd ((hall _ h₁).trans (hall _ h₂).symm) hne
        · rintro ⟨-, hall⟩
          exact absurd ((hall _ (Or.inl h₁)).trans (hall _ (Or.inl h₂)).symm) hne
      · simp [also, hd]
    · intro d
      rw [h.ambiguous]
      by_cases hd : d = depotId
      · subst hd
        exact ⟨fun _ => ⟨g₁, g₂, Or.inl h₁, Or.inl h₂, hne⟩, fun _ => ⟨g₁, g₂, h₁, h₂, hne⟩⟩
      · simp [also, hd]
  · push Not at hzero
    cases hflat : s.flat.lookup depotId with
    | none =>
      have hnone := h.unseen hflat hamb
      constructor
      · intro d g
        by_cases hd : d = depotId
        · subst hd
          simp only [AList.lookup_insert, also, hnone, Option.some.injEq]
          constructor
          · rintro rfl
            exact ⟨by simp [hzero], by simp⟩
          · rintro ⟨hg, -⟩
            simpa [hzero, eq_comm] using hg
        · rw [AList.lookup_insert_ne hd, h.flat]
          simp [also, hd]
      · intro d
        dsimp only
        rw [h.ambiguous]
        by_cases hd : d = depotId
        · subst hd
          simp only [also, hnone]
          grind
        · simp [also, hd]
    | some held =>
      obtain ⟨hheld, hsole⟩ := (h.flat depotId held).mp hflat
      dsimp only
      split_ifs with hne
      · constructor
        · intro d g
          by_cases hd : d = depotId
          · subst hd
            simp only [AList.lookup_erase]
            constructor
            · intro hnone
              exact nomatch hnone
            · rintro ⟨-, hall⟩
              have hboth := (hall _ (Or.inl hheld)).trans
                (hall gid (Or.inr ⟨hzero.1, hzero.2, rfl, rfl⟩)).symm
              exact absurd hboth hne
          · rw [AList.lookup_erase_ne hd, h.flat]
            simp [also, hd]
        · intro d
          rw [Finset.mem_insert, h.ambiguous]
          by_cases hd : d = depotId
          · subst hd
            exact ⟨fun _ => ⟨held, gid, Or.inl hheld, Or.inr ⟨hzero.1, hzero.2, rfl, rfl⟩, hne⟩,
              fun _ => Or.inl rfl⟩
          · simp [also, hd]
      · rw [ne_eq, not_not] at hne
        subst hne
        apply h.congr
        intro d g
        constructor
        · exact Or.inl
        · rintro (hseen | ⟨-, -, rfl, rfl⟩)
          · exact hseen
          · exact hheld

/-- The pins of one app, entry by entry. -/
theorem Knows.pins {s : Flattening} {seen : DepotId → Gid → Prop} (h : s.Knows seen)
    (entries : List (Sigma fun _ : DepotId => Gid)) :
    (entries.foldl (fun s entry => s.addPin entry.1 entry.2) s).Knows
      fun d g => seen d g ∨ (d ≠ 0 ∧ g ≠ 0 ∧ ⟨d, g⟩ ∈ entries) := by
  induction entries generalizing s seen with
  | nil =>
    apply h.congr
    simp
  | cons entry rest ih =>
    apply (ih (h.addPin entry.1 entry.2)).congr
    intro d g
    obtain ⟨depotId, gid⟩ := entry
    simp only [also, List.mem_cons, Sigma.mk.injEq, heq_eq_eq]
    constructor
    · rintro ((hseen | ⟨hd, hg, rfl, rfl⟩) | ⟨hd, hg, hrest⟩)
      · exact Or.inl hseen
      · exact Or.inr ⟨hd, hg, Or.inl ⟨rfl, rfl⟩⟩
      · exact Or.inr ⟨hd, hg, Or.inr hrest⟩
    · rintro (hseen | ⟨hd, hg, ⟨rfl, rfl⟩ | hrest⟩)
      · exact Or.inl (Or.inl hseen)
      · exact Or.inl (Or.inr ⟨hd, hg, rfl, rfl⟩)
      · exact Or.inr ⟨hd, hg, hrest⟩

private theorem Knows.addApp {s : Flattening} {seen : DepotId → Gid → Prop} (h : s.Knows seen)
    (appId : AppId) (app : AppPins) :
    (s.addApp appId app).Knows fun d g =>
      seen d g ∨ (d ≠ 0 ∧ g ≠ 0 ∧ appId ≠ 0 ∧ app.depots.lookup d = some g) := by
  unfold Flattening.addApp
  split_ifs with happ
  · apply h.congr
    simp [happ]
  · apply (h.pins app.depots.entries).congr
    intro d g
    simp [happ, ← AList.mem_lookup_iff]

theorem Knows.apps {s : Flattening} {seen : DepotId → Gid → Prop} (h : s.Knows seen)
    (entries : List (Sigma fun _ : AppId => AppPins)) :
    (entries.foldl (fun s entry => s.addApp entry.1 entry.2) s).Knows fun d g =>
      seen d g ∨ (d ≠ 0 ∧ g ≠ 0 ∧ ∃ appId ≠ 0, ∃ app, ⟨appId, app⟩ ∈ entries ∧
        app.depots.lookup d = some g) := by
  induction entries generalizing s seen with
  | nil =>
    apply h.congr
    simp
  | cons entry rest ih =>
    apply (ih (h.addApp entry.1 entry.2)).congr
    intro d g
    obtain ⟨appId, app⟩ := entry
    constructor
    · rintro ((hseen | ⟨hd, hg, happ, hpin⟩) | ⟨hd, hg, a, ha, b, hb, hpin⟩)
      · exact Or.inl hseen
      · exact Or.inr ⟨hd, hg, appId, happ, app, List.mem_cons_self, hpin⟩
      · exact Or.inr ⟨hd, hg, a, ha, b, List.mem_cons_of_mem _ hb, hpin⟩
    · rintro (hseen | ⟨hd, hg, a, ha, b, hb, hpin⟩)
      · exact Or.inl (Or.inl hseen)
      · rcases List.mem_cons.mp hb with heq | hrest
        · obtain ⟨rfl, rfl⟩ := Sigma.mk.inj heq
          exact Or.inl (Or.inr ⟨hd, hg, ha, hpin⟩)
        · exact Or.inr ⟨hd, hg, a, ha, b, hrest, hpin⟩

end Flattening

private theorem lookup_flattenDepots (pins : PinMap) (depotId : DepotId) (gid : Gid) :
    (flattenDepots pins).lookup depotId = some gid ↔
      depotId ≠ 0 ∧ Pinned pins depotId gid ∧ ∀ other, Pinned pins depotId other → other = gid := by
  have hstart : (⟨∅, ∅⟩ : Flattening).Knows fun _ _ => False := by constructor <;> simp
  have hall := (hstart.apps pins.entries).flat depotId gid
  simp only [← AList.mem_lookup_iff, Option.mem_def, false_or] at hall
  unfold flattenDepots Pinned
  rw [hall]
  constructor
  · rintro ⟨⟨hdepot, hpin⟩, hsole⟩
    exact ⟨hdepot, hpin, fun other hother => hsole other ⟨hdepot, hother⟩⟩
  · rintro ⟨hdepot, hpin, hsole⟩
    exact ⟨⟨hdepot, hpin⟩, fun other hother => hsole other hother.2⟩

theorem SamePins.pinned {pins other : PinMap} (h : SamePins pins other) {depotId : DepotId}
    {gid : Gid} (hpin : Pinned pins depotId gid) : Pinned other depotId gid := by
  obtain ⟨hgid, appId, happ, app, hlook, hdepot⟩ := hpin
  have hsame := h appId
  rw [hlook] at hsame
  cases hother : other.lookup appId with
  | none => rw [hother] at hsame; cases hsame
  | some app' =>
    rw [hother] at hsame
    cases hsame with
    | some hrel => exact ⟨hgid, appId, happ, app', hother, (hrel.2.2 depotId).symm.trans hdepot⟩

theorem SamePins.symm {pins other : PinMap} (h : SamePins pins other) : SamePins other pins := by
  intro appId
  have hsame := h appId
  generalize pins.lookup appId = a, other.lookup appId = b at hsame
  cases hsame with
  | some hrel => exact .some ⟨hrel.1.symm, hrel.2.1.symm, fun d => (hrel.2.2 d).symm⟩
  | none => exact .none

/-- A depot is in the index with a gid when that is the one gid the apps pin it to, and two orders
of iteration give the same index. -/
theorem flattenDepots_order_independent :
    (∀ (pins : PinMap) (depotId : DepotId) (gid : Gid),
      (flattenDepots pins).lookup depotId = some gid ↔
        depotId ≠ 0 ∧ Pinned pins depotId gid ∧
          ∀ other, Pinned pins depotId other → other = gid) ∧
      ∀ pins other : PinMap, SamePins pins other →
        ∀ depotId, (flattenDepots pins).lookup depotId = (flattenDepots other).lookup depotId := by
  refine ⟨lookup_flattenDepots, fun pins other hsame depotId => ?_⟩
  have hpinned : ∀ gid, Pinned pins depotId gid ↔ Pinned other depotId gid :=
    fun gid => ⟨hsame.pinned, hsame.symm.pinned⟩
  apply Option.ext
  intro gid
  rw [lookup_flattenDepots, lookup_flattenDepots]
  simp only [hpinned]

/-- Depot zero is no depot: a pin for it is left out, though it is the only one. -/
theorem flattenDepots_omits_depot_zero :
    ¬ ∀ (pins : PinMap) (depotId : DepotId) (gid : Gid),
      (flattenDepots pins).lookup depotId = some gid ↔
        Pinned pins depotId gid ∧ ∀ other, Pinned pins depotId other → other = gid := by
  intro h
  let pins : PinMap := AList.singleton 1 ⟨false, 0, AList.singleton 0 30⟩
  have hpin : Pinned pins 0 30 := ⟨by decide, 1, by decide, _, rfl, rfl⟩
  have hsole : ∀ other, Pinned pins 0 other → other = 30 := by
    rintro other ⟨-, appId, -, app, happ, hother⟩
    by_cases h1 : appId = 1
    · subst h1
      cases happ
      cases hother
      rfl
    · have hnone : pins.lookup appId = none := by
        rw [AList.lookup_eq_none, AList.mem_keys, AList.keys_singleton, List.mem_singleton]
        exact h1
      rw [hnone] at happ
      cases happ
  exact absurd ((h pins 0 30).mpr ⟨hpin, hsole⟩) (by simp [lookup_flattenDepots])

end SlsteamMoon.ManifestPlan
