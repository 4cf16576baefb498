import Mathlib.Data.List.Destutter
import SlsteamMoon.OwnerQueue.Queue

/-! The work that a package snapshot leaves to its successor, and the record of the
app info requests that Steam has accepted. -/
namespace SlsteamMoon.PackagePatch
open OwnerQueue

/-- The two lists of a snapshot that name work still to be done. -/
inductive Work where
  | ownership | appInfo
  deriving DecidableEq, Repr

def Work.ids : Work → PackageSnapshot → List AppId
  | .ownership, s => s.addedAppIds
  | .appInfo, s => s.appInfoRequestIds

/-- Ascending, so without repetition, and within the snapshot's own app ids. -/
structure Work.Proper (w : Work) (s : PackageSnapshot) : Prop where
  ascending : (w.ids s).Pairwise (· < ·)
  within : w.ids s ⊆ s.appIds

/-- Of a sorted list, dropping neighbours that repeat drops every repetition. -/
theorem carryRelevant_eq_dedup (nextAppIds pending current : List AppId) :
    carryRelevant nextAppIds pending current =
      (((pending ++ current).filter (· ∈ nextAppIds)).insertionSort (· ≤ ·)).dedup :=
  (List.pairwise_insertionSort (· ≤ ·) _).destutter_eq_dedup

private theorem mem_carryRelevant {nextAppIds pending current : List AppId} {id : AppId} :
    id ∈ carryRelevant nextAppIds pending current ↔ (id ∈ pending ∨ id ∈ current) ∧ id ∈ nextAppIds := by
  rw [carryRelevant_eq_dedup, List.mem_dedup, List.mem_insertionSort, List.mem_filter, List.mem_append]
  simp

private theorem carryRelevant_ascending (nextAppIds pending current : List AppId) :
    (carryRelevant nextAppIds pending current).Pairwise (· < ·) := by
  rw [carryRelevant_eq_dedup]
  have hsorted := List.Pairwise.sublist (List.dedup_sublist _)
    (List.pairwise_insertionSort (· ≤ ·) ((pending ++ current).filter (· ∈ nextAppIds)))
  apply (hsorted.and (List.nodup_dedup _)).imp
  rintro a b ⟨hle, hne⟩
  exact UInt32.lt_of_le_of_ne hle hne

/-- Ascending lists with the same elements are equal. -/
theorem ascending_ext {xs ys : List UInt32} (hxs : xs.Pairwise (· < ·)) (hys : ys.Pairwise (· < ·))
    (h : ∀ id, id ∈ xs ↔ id ∈ ys) : xs = ys := by
  have hperm : xs.Perm ys := by
    apply (List.perm_ext_iff_of_nodup _ _).mpr h
    · exact hxs.imp fun hlt => UInt32.ne_of_lt hlt
    · exact hys.imp fun hlt => UInt32.ne_of_lt hlt
  apply hperm.eq_of_pairwise _ hxs hys
  intro a b _ _ hab hba
  exact absurd hab (UInt32.lt_asymm hba)

variable {w : Work} {previous next : PackageSnapshot} {processed requested : Bool}

/-- The flag that says whether the predecessor's list is done with. -/
def Work.done (processed requested : Bool) : Work → Bool
  | .ownership => processed
  | .appInfo => requested

private theorem carry_ids : w.ids (carryPendingSnapshotWork previous next processed requested) =
    if w.done processed requested then w.ids next
    else carryRelevant next.appIds (w.ids previous) (w.ids next) := by
  cases w with
  | ownership => rfl
  | appInfo => rfl

@[simp] theorem carry_generation :
    (carryPendingSnapshotWork previous next processed requested).generation = next.generation := rfl

@[simp] theorem carry_appIds :
    (carryPendingSnapshotWork previous next processed requested).appIds = next.appIds := rfl

/-- An id that the predecessor still has to do goes on where the successor has it. -/
theorem mem_carry_of_previous {id : AppId} (hdone : w.done processed requested = false)
    (hid : id ∈ w.ids previous) (hnext : id ∈ next.appIds) :
    id ∈ w.ids (carryPendingSnapshotWork previous next processed requested) := by
  rw [carry_ids, if_neg (by simp [hdone])]
  exact mem_carryRelevant.mpr ⟨.inl hid, hnext⟩

/-- The successor's own ids stay. -/
theorem mem_carry_of_next {id : AppId} (hid : id ∈ w.ids next) (hnext : id ∈ next.appIds) :
    id ∈ w.ids (carryPendingSnapshotWork previous next processed requested) := by
  rw [carry_ids]
  split
  · exact hid
  · exact mem_carryRelevant.mpr ⟨.inr hid, hnext⟩

/-- Nothing else comes in. -/
theorem mem_of_mem_carry {id : AppId}
    (h : id ∈ w.ids (carryPendingSnapshotWork previous next processed requested)) :
    id ∈ w.ids next ∨ w.done processed requested = false ∧ id ∈ w.ids previous := by
  rw [carry_ids] at h
  split at h
  · exact .inl h
  · rename_i hdone
    rcases (mem_carryRelevant.mp h).1 with hprevious | hnext
    · exact .inr ⟨by simpa using hdone, hprevious⟩
    · exact .inl hnext

private theorem proper_carry (h : w.Proper next) :
    w.Proper (carryPendingSnapshotWork previous next processed requested) := by
  constructor
  · rw [carry_ids]
    split
    · exact h.ascending
    · exact carryRelevant_ascending ..
  · rw [carry_ids]
    split
    · exact h.within
    · intro id hid
      exact (mem_carryRelevant.mp hid).2

/-- Every snapshot is newer than those before it. -/
def Ascends (line : List PackageSnapshot) : Prop := line.Pairwise fun a b => a.generation < b.generation

/-- Two neighbours become one, or nothing changes. From the first generation on a list
is done with only when it is empty; before it both lists are. -/
inductive Merges (first : UInt64) : List PackageSnapshot → List PackageSnapshot → Prop
  | stays (line : List PackageSnapshot) : Merges first line line
  | carries (front back : List PackageSnapshot) (previous next : PackageSnapshot) (processed requested : Bool)
      (hopen : first ≤ previous.generation → ∀ w : Work, w.done processed requested = true → w.ids previous = [])
      (hsettled : previous.generation < first → ∀ w : Work, w.done processed requested = true) :
      Merges first (front ++ previous :: next :: back)
        (front ++ carryPendingSnapshotWork previous next processed requested :: back)

variable {first : UInt64} {line merged : List PackageSnapshot}

theorem Merges.append (h : Merges first line merged) (arrivals : List PackageSnapshot) :
    Merges first (line ++ arrivals) (merged ++ arrivals) := by
  cases h with
  | stays => exact .stays _
  | carries front back previous next processed requested hopen hsettled =>
    simpa using Merges.carries front (back ++ arrivals) previous next processed requested hopen hsettled

/-- Of two neighbours the second is newer. -/
theorem Ascends.neighbours {front back : List PackageSnapshot}
    (h : Ascends (front ++ previous :: next :: back)) : previous.generation < next.generation :=
  (List.pairwise_cons.mp (List.pairwise_append.mp h).2.1).1 next (by simp)

theorem Merges.ascends (h : Merges first line merged) (hline : Ascends line) : Ascends merged := by
  cases h with
  | stays => exact hline
  | carries front back previous next processed requested =>
    have hkept : Ascends (front ++ next :: back) :=
      List.Pairwise.sublist (List.Sublist.append_left (List.sublist_cons_self ..) front) hline
    unfold Ascends at hkept ⊢
    rw [List.pairwise_append, List.pairwise_cons] at hkept ⊢
    simpa only [List.forall_mem_cons, carry_generation] using hkept

/-- The newest snapshot stays as new. -/
theorem Merges.newest (h : Merges first line merged) (hline : Ascends line) {x : PackageSnapshot} (hx : x ∈ line) :
    ∃ y ∈ merged, x.generation ≤ y.generation := by
  cases h with
  | stays => exact ⟨x, hx, UInt64.le_refl _⟩
  | carries front back previous next processed requested =>
    have hnewer := hline.neighbours
    simp only [List.mem_append, List.mem_cons] at hx ⊢
    rcases hx with hx | rfl | rfl | hx
    · exact ⟨x, .inl hx, UInt64.le_refl _⟩
    · exact ⟨_, .inr (.inl rfl), UInt64.le_of_lt hnewer⟩
    · exact ⟨_, .inr (.inl rfl), UInt64.le_refl _⟩
    · exact ⟨x, .inr (.inr hx), UInt64.le_refl _⟩

/-- The id is still to be done in a snapshot of the line, and that snapshot and all after
it have the id. -/
def Tracked (w : Work) (id : AppId) (first : UInt64) : List PackageSnapshot → Prop
  | [] => False
  | x :: rest =>
    first ≤ x.generation ∧ id ∈ w.ids x ∧ (∀ y ∈ x :: rest, id ∈ y.appIds) ∨ Tracked w id first rest

theorem Tracked.append_left {id : AppId} (h : Tracked w id first line) (front : List PackageSnapshot) :
    Tracked w id first (front ++ line) := by
  induction front with
  | nil => exact h
  | cons x front ih => exact .inr ih

theorem Tracked.exists {id : AppId} (h : Tracked w id first line) :
    ∃ x ∈ line, first ≤ x.generation ∧ id ∈ w.ids x := by
  induction line with
  | nil => exact h.elim
  | cons x line ih =>
    rcases h with ⟨hfirst, hid, -⟩ | hrest
    · exact ⟨x, by simp, hfirst, hid⟩
    · obtain ⟨y, hy, hwork⟩ := ih hrest
      exact ⟨y, by simp [hy], hwork⟩

/-- A merge loses no id that it tracks. -/
theorem Merges.tracked {id : AppId} (h : Merges first line merged) (hline : Ascends line)
    (htracked : Tracked w id first line) : Tracked w id first merged := by
  cases h with
  | stays => exact htracked
  | carries front back previous next processed requested hopen =>
    have hnewer := hline.neighbours
    clear hline
    -- in front of the two neighbours a snapshot only sees the successor's ids
    induction front with
    | nil =>
      rcases htracked with ⟨hfirst, hid, hall⟩ | ⟨hfirst, hid, hall⟩ | hback
      · have hdone : w.done processed requested = false := by
          by_contra hdone
          have hempty := hopen hfirst w (by simpa using hdone)
          simp [hempty] at hid
        simp only [List.forall_mem_cons] at hall
        refine .inl ⟨UInt64.le_trans hfirst (UInt64.le_of_lt hnewer), mem_carry_of_previous hdone hid hall.2.1, ?_⟩
        simpa only [List.forall_mem_cons, carry_appIds] using hall.2
      · simp only [List.forall_mem_cons] at hall
        refine .inl ⟨hfirst, mem_carry_of_next hid hall.1, ?_⟩
        simpa only [List.forall_mem_cons, carry_appIds] using hall
      · exact .inr hback
    | cons x front ih =>
      rcases htracked with ⟨hfirst, hid, hall⟩ | hrest
      · refine .inl ⟨hfirst, hid, ?_⟩
        simp only [List.forall_mem_cons, List.forall_mem_append, List.append_eq, carry_appIds] at hall ⊢
        exact ⟨hall.1, hall.2.1, hall.2.2.2⟩
      · exact .inr (ih hrest)

/-- The two differ at most in their work lists. -/
def SameTopology (s x : PackageSnapshot) : Prop :=
  x.generation = s.generation ∧ x.appIds = s.appIds ∧ x.depotIds = s.depotIds ∧
    x.metadataComplete = s.metadataComplete

theorem SameTopology.eq {s x y : PackageSnapshot} (hx : SameTopology s x) (hy : SameTopology s y)
    (h : ∀ w : Work, w.ids x = w.ids y) : x = y := by
  obtain ⟨hgeneration, happs, hdepots, hcomplete⟩ := hx
  obtain ⟨hgeneration', happs', hdepots', hcomplete'⟩ := hy
  have howned : x.addedAppIds = y.addedAppIds := h .ownership
  have hrequested : x.appInfoRequestIds = y.appInfoRequestIds := h .appInfo
  cases x
  cases y
  simp_all

/-- A snapshot under way is one of the chain but for its two lists, which hold ids of
the chain only and are in order where that snapshot's were. -/
structure Origin (chain : List PackageSnapshot) (x : PackageSnapshot) : Prop where
  source : ∃ s ∈ chain, SameTopology s x ∧ ∀ w : Work, w.Proper s → w.Proper x
  listed : ∀ (w : Work) (id : AppId), id ∈ w.ids x → ∃ s ∈ chain, id ∈ w.ids s

theorem Origin.self {chain : List PackageSnapshot} {x : PackageSnapshot} (hx : x ∈ chain) : Origin chain x :=
  ⟨⟨x, hx, ⟨rfl, rfl, rfl, rfl⟩, fun _ h => h⟩, fun _ _ hid => ⟨x, hx, hid⟩⟩

/-- What carries over comes from the predecessor's own origin. -/
theorem Origin.carry {chain : List PackageSnapshot} (hnext : Origin chain next)
    (hprevious : (∃ w : Work, w.done processed requested = false) → Origin chain previous) :
    Origin chain (carryPendingSnapshotWork previous next processed requested) := by
  obtain ⟨s, hs, hsame, hproper⟩ := hnext.source
  refine ⟨⟨s, hs, hsame, fun w h => proper_carry (hproper w h)⟩, ?_⟩
  intro w id hid
  rcases mem_of_mem_carry hid with hid | ⟨hdone, hid⟩
  · exact hnext.listed w id hid
  · exact (hprevious ⟨w, hdone⟩).listed w id hid

theorem Merges.origins {chain : List PackageSnapshot} (h : Merges first line merged)
    (hline : ∀ x ∈ line, first ≤ x.generation → Origin chain x) :
    ∀ x ∈ merged, first ≤ x.generation → Origin chain x := by
  cases h with
  | stays => exact hline
  | carries front back previous next processed requested hopen hsettled =>
    simp only [List.forall_mem_append, List.forall_mem_cons, carry_generation] at hline ⊢
    obtain ⟨hfront, hprevious, hnext, hback⟩ := hline
    refine ⟨hfront, fun hfirst => (hnext hfirst).carry ?_, hback⟩
    rintro ⟨w, hdone⟩
    apply hprevious
    apply UInt64.not_lt.mp
    intro hlt
    simp [hsettled hlt w] at hdone

end SlsteamMoon.PackagePatch
