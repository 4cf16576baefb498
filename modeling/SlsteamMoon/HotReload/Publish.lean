import SlsteamMoon.SortedRanges
import Mathlib.Data.Finset.Sort

/-! Publications of the managed-membership store: the merge of the desired ids with
the records of the snapshot before, and what a history of publications leaves. -/
namespace SlsteamMoon.HotReloadStore

open SortedRanges

abbrev AppId := UInt32

/-- The identity is the allocation; the records of a snapshot are shared pointers. -/
structure Record where
  identity : Nat
  appId : AppId
  generation : UInt64
  deriving DecidableEq, Repr

structure Snapshot where
  generation : UInt64 := 0
  records : List Record := []
  deriving DecidableEq, Repr

namespace Snapshot

def appIds (snapshot : Snapshot) : List AppId := snapshot.records.map Record.appId

def findRecord (snapshot : Snapshot) (appId : AppId) : Option Record := lookup Record.appId appId snapshot.records

end Snapshot

structure Transition where
  generation : UInt64
  added : List AppId := []
  removed : List AppId := []
  snapshot : Snapshot
  deriving DecidableEq, Repr

structure Store where
  current : Snapshot := {}
  allocated : Nat := 0
  deriving DecidableEq, Repr

/-- The loop over the desired ids; the previous records are read from the cursor on. -/
def mergeRecords (generation : UInt64) (allocated : Nat) : List Record → List AppId → List Record × Nat
  | _, [] => ([], allocated)
  | previous, appId :: ids =>
    match seek Record.appId appId previous with
    | [] =>
      let (records, allocated') := mergeRecords generation (allocated + 1) [] ids
      (⟨allocated, appId, generation⟩ :: records, allocated')
    | record :: rest =>
      if record.appId = appId then
        let (records, allocated') := mergeRecords generation allocated rest ids
        (record :: records, allocated')
      else
        let (records, allocated') := mergeRecords generation (allocated + 1) (record :: rest) ids
        (⟨allocated, appId, generation⟩ :: records, allocated')

def publish (s : Store) (desired : Finset AppId) : Transition × Store :=
  let desiredIds := desired.sort
  let previousIds := s.current.appIds
  if desiredIds = previousIds then ({ generation := s.current.generation, snapshot := s.current }, s)
  else
    let generation := s.current.generation + 1
    let added := difference desiredIds previousIds
    let removed := difference previousIds desiredIds
    let (records, allocated) := mergeRecords generation s.allocated s.current.records desiredIds
    ({ generation, added, removed, snapshot := ⟨generation, records⟩ }, ⟨⟨generation, records⟩, allocated⟩)

/-- The store after a history of publications. -/
def publications (history : List (Finset AppId)) : Store := history.foldl (fun s desired => (publish s desired).2) {}

/-! The merge, seen without its cursor. -/

private theorem mergeRecords_of_seek {generation : UInt64} {allocated : Nat} {previous previous' : List Record}
    {ids : List AppId} (h : ∀ appId ∈ ids, seek Record.appId appId previous' = seek Record.appId appId previous) :
    mergeRecords generation allocated previous' ids = mergeRecords generation allocated previous ids := by
  cases ids with
  | nil => rfl
  | cons appId ids => simp only [mergeRecords, h appId (List.mem_cons_self ..)]

/-- One turn of the loop keeps the record of the id or makes a new one. -/
theorem mergeRecords_cons (generation : UInt64) (allocated : Nat) {previous : List Record} {appId : AppId}
    {ids : List AppId} (hids : Ascending id (appId :: ids)) :
    mergeRecords generation allocated previous (appId :: ids) =
      match lookup Record.appId appId previous with
      | some record =>
        (record :: (mergeRecords generation allocated previous ids).1, (mergeRecords generation allocated previous ids).2)
      | none =>
        (⟨allocated, appId, generation⟩ :: (mergeRecords generation (allocated + 1) previous ids).1,
          (mergeRecords generation (allocated + 1) previous ids).2) := by
  have hahead : ∀ later ∈ ids, appId < later := (List.pairwise_cons.mp hids).1
  have hseek : ∀ later ∈ ids,
      seek Record.appId later (seek Record.appId appId previous) = seek Record.appId later previous :=
    fun later hlater => seek_seek (hahead later hlater)
  conv_lhs => unfold mergeRecords
  unfold lookup
  cases hcursor : seek Record.appId appId previous with
  | nil =>
    rw [hcursor] at hseek
    simp only [mergeRecords_of_seek hseek]
  | cons record rest =>
    rw [hcursor] at hseek
    by_cases hkey : record.appId = appId
    · have hrest : ∀ later ∈ ids, seek Record.appId later rest = seek Record.appId later previous := by
        intro later hlater
        have hpass : record.appId < later := hkey ▸ hahead later hlater
        rw [← hseek later hlater]
        simp [seek, hpass]
      simp only [hkey, if_true, mergeRecords_of_seek hrest]
    · simp only [hkey, if_false, mergeRecords_of_seek hseek]

/-- A record the merge made: allocated by it, under the new generation. -/
structure Made (generation : UInt64) (allocated allocated' : Nat) (previous : List Record) (r : Record) : Prop where
  allocated_le : allocated ≤ r.identity
  lt_allocated : r.identity < allocated'
  generation_eq : r.generation = generation
  absent : r.appId ∉ previous.map Record.appId

section
variable {g : UInt64} {previous : List Record} {ids : List AppId}

private theorem allocated_le_mergeRecords (allocated : Nat) (hids : Ascending id ids) :
    allocated ≤ (mergeRecords g allocated previous ids).2 := by
  induction ids generalizing allocated with
  | nil => exact Nat.le_refl _
  | cons appId ids ih =>
    obtain ⟨-, hrest⟩ := List.pairwise_cons.mp hids
    rw [mergeRecords_cons _ _ hids]
    split
    · exact ih allocated hrest
    · exact Nat.le_of_succ_le (ih (allocated + 1) hrest)

private theorem absent_of_lookup (hprevious : Ascending Record.appId previous) {appId : AppId}
    (h : lookup Record.appId appId previous = none) : appId ∉ previous.map Record.appId := by
  intro hin
  obtain ⟨r, hr, hkey⟩ := List.mem_map.mp hin
  rw [(lookup_eq_some hprevious).mpr ⟨hr, hkey⟩] at h
  cases h

private theorem mergeRecords_appIds (hprevious : Ascending Record.appId previous) (allocated : Nat)
    (hids : Ascending id ids) : (mergeRecords g allocated previous ids).1.map Record.appId = ids := by
  induction ids generalizing allocated with
  | nil => rfl
  | cons appId ids ih =>
    obtain ⟨-, hrest⟩ := List.pairwise_cons.mp hids
    rw [mergeRecords_cons _ _ hids]
    split
    · next record hfound =>
      have hkey := ((lookup_eq_some hprevious).mp hfound).2
      rw [List.map_cons, ih allocated hrest, hkey]
    · rw [List.map_cons, ih (allocated + 1) hrest]

/-- Every record of the merge was kept or made. -/
theorem of_mem_mergeRecords (hprevious : Ascending Record.appId previous) (allocated : Nat) (hids : Ascending id ids)
    {r : Record} (hr : r ∈ (mergeRecords g allocated previous ids).1) :
    r ∈ previous ∨ Made g allocated (mergeRecords g allocated previous ids).2 previous r := by
  induction ids generalizing allocated with
  | nil => exact absurd hr List.not_mem_nil
  | cons appId ids ih =>
    obtain ⟨-, hrest⟩ := List.pairwise_cons.mp hids
    rw [mergeRecords_cons _ _ hids] at hr ⊢
    split at hr
    · next record hfound =>
      rcases List.mem_cons.mp hr with rfl | hr
      · exact .inl ((lookup_eq_some hprevious).mp hfound).1
      · exact ih allocated hrest hr
    · next hfound =>
      rcases List.mem_cons.mp hr with rfl | hr
      · exact .inr ⟨Nat.le_refl _, allocated_le_mergeRecords (allocated + 1) hrest, rfl, absent_of_lookup hprevious hfound⟩
      · refine (ih (allocated + 1) hrest hr).imp id fun hmade => ?_
        exact ⟨Nat.le_of_succ_le hmade.allocated_le, hmade.lt_allocated, hmade.generation_eq, hmade.absent⟩

/-- The records of ids that stay are kept. -/
theorem mem_mergeRecords_of_mem (hprevious : Ascending Record.appId previous) (allocated : Nat)
    (hids : Ascending id ids) {r : Record} (hr : r ∈ previous) (hid : r.appId ∈ ids) :
    r ∈ (mergeRecords g allocated previous ids).1 := by
  induction ids generalizing allocated with
  | nil => exact absurd hid List.not_mem_nil
  | cons appId ids ih =>
    obtain ⟨-, hrest⟩ := List.pairwise_cons.mp hids
    rw [mergeRecords_cons _ _ hids]
    rcases List.mem_cons.mp hid with rfl | hid
    · rw [(lookup_eq_some hprevious).mpr ⟨hr, rfl⟩]
      exact List.mem_cons_self ..
    · split
      · exact List.mem_cons_of_mem _ (ih allocated hrest hid)
      · exact List.mem_cons_of_mem _ (ih (allocated + 1) hrest hid)

/-- No two records of the merge are one allocation. -/
theorem mergeRecords_distinct (hprevious : Ascending Record.appId previous) (allocated : Nat)
    (hids : Ascending id ids) (hbound : ∀ r ∈ previous, r.identity < allocated)
    (hdistinct : ∀ r ∈ previous, ∀ r' ∈ previous, r.identity = r'.identity → r = r') :
    (mergeRecords g allocated previous ids).1.Pairwise fun r r' => r.identity ≠ r'.identity := by
  induction ids generalizing allocated with
  | nil => exact .nil
  | cons appId ids ih =>
    obtain ⟨habove, hrest⟩ := List.pairwise_cons.mp hids
    rw [mergeRecords_cons _ _ hids]
    split
    · next record hfound =>
      obtain ⟨hin, hkey⟩ := (lookup_eq_some hprevious).mp hfound
      refine List.pairwise_cons.mpr ⟨fun r hr hsame => ?_, ih allocated hrest hbound⟩
      rcases of_mem_mergeRecords hprevious allocated hrest hr with hold | hmade
      · have happ : r.appId ∈ ids := by
          rw [← mergeRecords_appIds hprevious allocated hrest]
          exact List.mem_map_of_mem hr
        have hlt := habove _ happ
        rw [← hdistinct record hin r hold hsame, hkey] at hlt
        exact UInt32.lt_irrefl _ hlt
      · have hlt := hbound record hin
        have hle := hmade.allocated_le
        omega
    · refine List.pairwise_cons.mpr ⟨fun r hr hsame => ?_, ih (allocated + 1) hrest fun r hr =>
        Nat.lt_succ_of_lt (hbound r hr)⟩
      rcases of_mem_mergeRecords hprevious (allocated + 1) hrest hr with hold | hmade
      · have hlt := hbound r hold
        dsimp only at hsame
        omega
      · have hle := hmade.allocated_le
        dsimp only at hsame
        omega

end

/-! One publication. -/

/-- The snapshot is ordered, and its records are allocations of their own. -/
structure Store.Sound (s : Store) : Prop where
  ascending : Ascending Record.appId s.current.records
  bounded : ∀ r ∈ s.current.records, r.identity < s.allocated
  distinct : ∀ r ∈ s.current.records, ∀ r' ∈ s.current.records, r.identity = r'.identity → r = r'

private theorem ascending_appIds {records : List Record} :
    Ascending id (records.map Record.appId) ↔ Ascending Record.appId records := List.pairwise_map

private theorem ascending_sort (desired : Finset AppId) : Ascending id desired.sort :=
  ((Finset.pairwise_sort desired _).and (Finset.sort_nodup desired _)).imp fun h => UInt32.lt_of_le_of_ne h.1 h.2

/-- What a publication reports and what it leaves, by the sets alone. -/
structure Exact (s : Store) (desired : Finset AppId) (t : Transition) (s' : Store) : Prop where
  sound : s'.Sound
  snapshot : t.snapshot = s'.current
  generation : t.generation = s'.current.generation
  appIds : s'.current.appIds = desired.sort
  added : ∀ appId, appId ∈ t.added ↔ appId ∈ desired ∧ appId ∉ s.current.appIds
  removed : ∀ appId, appId ∈ t.removed ↔ appId ∈ s.current.appIds ∧ appId ∉ desired
  ascendingAdded : Ascending id t.added
  ascendingRemoved : Ascending id t.removed
  advances : t.generation = if desired.sort = s.current.appIds then s.current.generation else s.current.generation + 1
  kept : ∀ r ∈ s.current.records, r.appId ∈ desired → r ∈ s'.current.records
  origin : ∀ r ∈ s'.current.records, r ∈ s.current.records ∨
    r.appId ∈ t.added ∧ r.generation = t.generation ∧ s.allocated ≤ r.identity

theorem Store.Sound.merge {s : Store} (hs : s.Sound) {g : UInt64} {desired : Finset AppId}
    (hids : (mergeRecords g s.allocated s.current.records desired.sort).1.map Record.appId = desired.sort) :
    Store.Sound ⟨⟨g, (mergeRecords g s.allocated s.current.records desired.sort).1⟩,
      (mergeRecords g s.allocated s.current.records desired.sort).2⟩ := by
  have hdesired := ascending_sort desired
  have hdistinct := mergeRecords_distinct (g := g) hs.ascending s.allocated hdesired hs.bounded hs.distinct
  have hascending := hdesired
  rw [← hids, ascending_appIds] at hascending
  refine ⟨hascending, fun r hr => ?_, fun r hr r' hr' hsame => ?_⟩
  · rcases of_mem_mergeRecords hs.ascending s.allocated hdesired hr with hold | hmade
    · exact Nat.lt_of_lt_of_le (hs.bounded r hold) (allocated_le_mergeRecords _ hdesired)
    · exact hmade.lt_allocated
  · exact List.inj_on_of_nodup_map (List.pairwise_map.mpr hdistinct) hr hr' hsame

private theorem publish_exact {s : Store} (hs : s.Sound) (desired : Finset AppId) :
    Exact s desired (publish s desired).1 (publish s desired).2 := by
  have hdesired := ascending_sort desired
  have hprevious : Ascending id s.current.appIds := ascending_appIds.mpr hs.ascending
  unfold publish
  by_cases hsame : desired.sort = s.current.appIds
  · have hmem (appId : AppId) : appId ∈ s.current.appIds ↔ appId ∈ desired := by rw [← hsame, Finset.mem_sort]
    simp only [if_pos hsame]
    exact {
      sound := hs
      snapshot := rfl
      generation := rfl
      appIds := hsame.symm
      added := fun appId => by simp [hmem]
      removed := fun appId => by simp [hmem]
      ascendingAdded := .nil
      ascendingRemoved := .nil
      advances := (if_pos hsame).symm
      kept := fun r hr _ => hr
      origin := fun r hr => .inl hr }
  · simp only [if_neg hsame]
    have hids := mergeRecords_appIds (g := s.current.generation + 1) hs.ascending s.allocated hdesired
    exact {
      sound := hs.merge hids
      snapshot := rfl
      generation := rfl
      appIds := hids
      added := fun appId => by rw [mem_difference hdesired hprevious, Finset.mem_sort]
      removed := fun appId => by rw [mem_difference hprevious hdesired, Finset.mem_sort]
      ascendingAdded := ascending_difference hdesired _
      ascendingRemoved := ascending_difference hprevious _
      advances := (if_neg hsame).symm
      kept := fun r hr hid => mem_mergeRecords_of_mem hs.ascending _ hdesired hr ((Finset.mem_sort _).mpr hid)
      origin := fun r hr => by
        refine (of_mem_mergeRecords hs.ascending s.allocated hdesired hr).imp id
          fun hmade => ⟨?_, hmade.generation_eq, hmade.allocated_le⟩
        have hin : r.appId ∈ desired.sort := hids ▸ List.mem_map_of_mem hr
        exact (mem_difference hdesired hprevious).mpr ⟨hin, hmade.absent⟩ }

/-! Histories. -/

/-- The set of the last publication; nothing was published at the start. -/
def published (history : List (Finset AppId)) : Finset AppId := history.getLast?.getD ∅

/-- The publication of the history that added the app last, and its generation. -/
def LastAdded (history : List (Finset AppId)) (appId : AppId) (generation : UInt64) : Prop :=
  ∃ before desired after, history = before ++ desired :: after ∧
    appId ∈ (publish (publications before) desired).1.added ∧
    (publish (publications before) desired).1.generation = generation ∧
    ∀ between later rest, after = between ++ later :: rest →
      appId ∉ (publish (publications (before ++ desired :: between)) later).1.added

private theorem publications_concat (history : List (Finset AppId)) (desired : Finset AppId) :
    publications (history ++ [desired]) = (publish (publications history) desired).2 :=
  List.foldl_concat ..

private theorem publications_sound (history : List (Finset AppId)) : (publications history).Sound := by
  induction history using List.reverseRecOn with
  | nil => exact ⟨.nil, fun r hr => absurd hr List.not_mem_nil, fun r hr => absurd hr List.not_mem_nil⟩
  | append_singleton history desired ih =>
    rw [publications_concat]
    exact (publish_exact ih desired).sound

private theorem publications_appIds (history : List (Finset AppId)) :
    (publications history).current.appIds = (published history).sort := by
  rcases List.eq_nil_or_concat history with rfl | ⟨history, desired, rfl⟩
  · exact (Finset.sort_empty _).symm
  · rw [List.concat_eq_append, publications_concat, (publish_exact (publications_sound history) desired).appIds]
    simp [published]

private theorem mem_publications_appIds {history : List (Finset AppId)} {appId : AppId} :
    appId ∈ (publications history).current.appIds ↔ appId ∈ published history := by
  rw [publications_appIds, Finset.mem_sort]

/-- A record carries the generation under which its app was added last: it is kept
while the app stays, and made anew when the app comes back. -/
theorem lastAdded_of_mem (history : List (Finset AppId)) :
    ∀ r ∈ (publications history).current.records, LastAdded history r.appId r.generation := by
  induction history using List.reverseRecOn with
  | nil => exact fun r hr => absurd hr List.not_mem_nil
  | append_singleton history desired ih =>
    intro r hr
    have hexact := publish_exact (publications_sound history) desired
    rw [publications_concat] at hr
    rcases hexact.origin r hr with hold | ⟨hadded, hgeneration, -⟩
    · obtain ⟨before, desired', after, rfl, hin, hgen, hlater⟩ := ih r hold
      refine ⟨before, desired', after ++ [desired], by simp, hin, hgen, fun between later rest hsplit => ?_⟩
      rcases List.eq_nil_or_concat rest with rfl | ⟨rest, last, rfl⟩
      · obtain ⟨rfl, hlast⟩ := List.append_inj' hsplit rfl
        obtain rfl := List.singleton_inj.mp hlast
        intro hagain
        exact ((hexact.added r.appId).mp hagain).2 (List.mem_map_of_mem hold)
      · have hshort : after = between ++ later :: rest := by
          rw [List.concat_eq_append, ← List.cons_append, ← List.append_assoc] at hsplit
          exact (List.append_inj' hsplit rfl).1
        exact hlater between later rest hshort
    · exact ⟨history, desired, [], rfl, hadded, hgeneration.symm, fun between later rest hsplit => by
        simp at hsplit⟩

private theorem sort_eq_appIds_iff {history : List (Finset AppId)} {desired : Finset AppId} :
    desired.sort = (publications history).current.appIds ↔ desired = published history := by
  rw [publications_appIds]
  constructor
  · intro h
    ext appId
    rw [← Finset.mem_sort (· ≤ ·), h, Finset.mem_sort]
  · rintro rfl
    rfl

theorem generation_succ_ne (generation : UInt64) : generation + 1 ≠ generation := by
  intro h
  have hnat := congrArg UInt64.toNat h
  rw [UInt64.toNat_add, UInt64.toNat_one] at hnat
  have hlt := generation.toNat_lt
  omega

/-- After any history the snapshot is the set published last, in order, each record
under the generation that added its app; and the next publication reports exactly
the differences and keeps the records of what stays. -/
theorem publications_are_exact (history : List (Finset AppId)) :
    ((publications history).current.records.Pairwise (fun r r' => r.appId < r'.appId) ∧
      (∀ appId, appId ∈ (publications history).current.records.map Record.appId ↔ appId ∈ published history) ∧
      ∀ r ∈ (publications history).current.records, LastAdded history r.appId r.generation) ∧
    ∀ desired : Finset AppId,
      let s := publications history
      let t := (publish s desired).1
      let s' := publications (history ++ [desired])
      t.snapshot = s'.current ∧ t.generation = s'.current.generation ∧
      (t.added.Pairwise (· < ·) ∧ ∀ appId, appId ∈ t.added ↔ appId ∈ desired ∧ appId ∉ published history) ∧
      (t.removed.Pairwise (· < ·) ∧ ∀ appId, appId ∈ t.removed ↔ appId ∈ published history ∧ appId ∉ desired) ∧
      (s'.current.generation = s.current.generation + 1 ↔ desired ≠ published history) ∧
      (s'.current.generation = s.current.generation ↔ desired = published history) ∧
      (∀ r ∈ s.current.records, r.appId ∈ desired → r ∈ s'.current.records) ∧
      (∀ r ∈ s'.current.records, r ∉ s.current.records →
        r.appId ∈ t.added ∧ ∀ r' ∈ s.current.records, r'.identity ≠ r.identity) := by
  have hsound := publications_sound history
  refine ⟨⟨hsound.ascending, fun appId => mem_publications_appIds, lastAdded_of_mem history⟩, fun desired => ?_⟩
  have hexact := publish_exact hsound desired
  have hadvances := hexact.generation.symm.trans hexact.advances
  simp only [sort_eq_appIds_iff] at hadvances
  dsimp only
  rw [publications_concat]
  refine ⟨hexact.snapshot, hexact.generation, ⟨hexact.ascendingAdded, fun appId => ?_⟩,
    ⟨hexact.ascendingRemoved, fun appId => ?_⟩, ?_, ?_, hexact.kept, fun r hr hnew => ?_⟩
  · rw [hexact.added, mem_publications_appIds]
  · rw [hexact.removed, mem_publications_appIds]
  · rw [hadvances]
    split <;> simp [*, (generation_succ_ne _).symm]
  · rw [hadvances]
    split <;> simp [*]
  · rcases hexact.origin r hr with hold | ⟨hadded, -, hfresh⟩
    · exact absurd hold hnew
    · refine ⟨hadded, fun r' hr' => ?_⟩
      have hlt := hsound.bounded r' hr'
      omega

end SlsteamMoon.HotReloadStore
