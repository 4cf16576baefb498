import SlsteamMoon.OwnerQueue.Queue
import SlsteamMoon.PackagePatch.Carry

/-! A live vector of package 0 and what is done to it: the plan against a seeded set,
its capacity, the in-place compaction and the appends. -/
namespace SlsteamMoon.PackagePatch
open OwnerQueue

/-- The elements up to the size, and the slots allocated. A vector without slots is the
one whose base may be null. -/
structure CUtlVector where
  ids : List UInt32 := []
  alloc : Nat := 0
  deriving DecidableEq, Repr

namespace CUtlVector

def size (vec : CUtlVector) : Nat := vec.ids.length

def validLive (vec : CUtlVector) : Bool := vec.size ≤ vec.alloc

end CUtlVector

def kUint32Max : Nat := 4294967295
def kIntMax : Nat := 2147483647

/-- The desired ids absent from the vector, sorted and without repetition. -/
def missingFromVector (live desired : List UInt32) : List UInt32 :=
  ((desired.filter (· ∉ live)).dedup).insertionSort (· ≤ ·)

theorem mem_missingFromVector (live desired : List UInt32) (id : UInt32) :
    id ∈ missingFromVector live desired ↔ id ∈ desired ∧ id ∉ live := by
  simp [missingFromVector]

theorem missingFromVector_ascending (live desired : List UInt32) : (missingFromVector live desired).Pairwise (· < ·) := by
  have hsorted := List.pairwise_insertionSort (· ≤ ·) ((desired.filter (· ∉ live)).dedup)
  have hnodup : (missingFromVector live desired).Nodup :=
    (List.perm_insertionSort (· ≤ ·) _).nodup_iff.mpr (List.nodup_dedup _)
  apply (hsorted.and hnodup).imp
  rintro a b ⟨hle, hne⟩
  exact UInt32.lt_of_le_of_ne hle hne

/-- An id goes when it is seeded and no longer desired. -/
def compactInjected (live seeded desired : List UInt32) : List UInt32 :=
  live.filter fun id => ¬ (id ∈ seeded ∧ id ∉ desired)

theorem mem_compactInjected (live seeded desired : List UInt32) (id : UInt32) :
    id ∈ compactInjected live seeded desired ↔ id ∈ live ∧ (id ∈ seeded → id ∈ desired) := by
  simp only [compactInjected, List.mem_filter, decide_eq_true_eq, not_and, not_not]

structure VectorPlan where
  desired : List UInt32
  missing : List UInt32
  targetSize : Nat
  removes : Bool
  deriving DecidableEq, Repr

def buildVectorPlan (vec : CUtlVector) (seeded desiredValues : List UInt32) : Option VectorPlan :=
  if ¬ vec.validLive then none
  else
    let desired := desiredValues.filter (· ≠ 0)
    let missing := missingFromVector vec.ids desired
    let kept := vec.ids.countP fun id => ¬ (id ∈ seeded ∧ id ∉ desired)
    if kUint32Max < kept + missing.length then none
    else some
      { desired, missing
        targetSize := kept + missing.length
        removes := vec.ids.any fun id => id ∈ seeded ∧ id ∉ desired }

/-- A plan with the vector and the seeded set it was built for. -/
structure VectorPlan.For (plan : VectorPlan) (vec : CUtlVector) (seeded desiredValues : List UInt32) : Prop where
  desired : plan.desired = desiredValues.filter (· ≠ 0)
  missing : plan.missing = missingFromVector vec.ids plan.desired
  targetSize : plan.targetSize = (compactInjected vec.ids seeded plan.desired).length + plan.missing.length

theorem buildVectorPlan_for {vec : CUtlVector} {seeded desiredValues : List UInt32} {plan : VectorPlan}
    (h : buildVectorPlan vec seeded desiredValues = some plan) : plan.For vec seeded desiredValues := by
  unfold buildVectorPlan at h
  split at h
  · cases h
  · dsimp only at h
    split at h
    · cases h
    · cases h
      exact ⟨rfl, rfl, by simp only [compactInjected, List.countP_eq_length_filter]⟩

/-- Capacity for the target size, where the grow call may leave any capacity. -/
def prepareVectorLocked (vec : CUtlVector) (plan : VectorPlan) (grown : Option Nat) : CUtlVector × Bool :=
  if ¬ vec.validLive then (vec, false)
  else if plan.targetSize ≤ vec.alloc then (vec, true)
  else match grown with
    | none => (vec, false)
    | some alloc =>
      if plan.targetSize ≤ vec.size ∨ kIntMax < plan.targetSize - vec.size then (vec, false)
      else
        let next := { vec with alloc }
        (next, next.validLive && plan.targetSize ≤ alloc)

theorem prepareVectorLocked_ids (vec : CUtlVector) (plan : VectorPlan) (grown : Option Nat) :
    (prepareVectorLocked vec plan grown).1.ids = vec.ids := by
  unfold prepareVectorLocked
  split
  · rfl
  · split
    · rfl
    · split
      · rfl
      · split <;> rfl

/-- A prepared vector has the capacity that its plan needs. -/
theorem prepareVectorLocked_room {vec : CUtlVector} {plan : VectorPlan} {grown : Option Nat}
    (h : (prepareVectorLocked vec plan grown).2 = true) :
    plan.targetSize ≤ (prepareVectorLocked vec plan grown).1.alloc := by
  unfold prepareVectorLocked at h ⊢
  by_cases hvalid : vec.validLive = true
  · by_cases hfits : plan.targetSize ≤ vec.alloc
    · simp [hvalid, hfits]
    · cases grown with
      | none => simp [hvalid, hfits] at h
      | some alloc =>
        by_cases hgrow : plan.targetSize ≤ vec.size ∨ kIntMax < plan.targetSize - vec.size
        · simp only [hvalid, not_true_eq_false, hfits, hgrow, if_true, if_false, Bool.false_eq_true] at h
        · simp only [hvalid, not_true_eq_false, hfits, hgrow, if_false, Bool.and_eq_true, decide_eq_true_eq] at h ⊢
          exact h.2
  · simp [hvalid] at h

def buildNextSeeded (seeded : List UInt32) (plan : VectorPlan) : List UInt32 :=
  seeded.filter (· ∈ plan.desired) ++ plan.missing

def applyVectorPlanLocked (vec : CUtlVector) (seeded : List UInt32) (plan : VectorPlan) : CUtlVector × Bool :=
  let ids := compactInjected vec.ids seeded plan.desired ++ plan.missing
  ({ vec with ids }, plan.removes || !plan.missing.isEmpty || ids.length != vec.size)

/-- Ids leave the quarantine's exclusions behind, in order. -/
def withoutIds (ids drop : List UInt32) : List UInt32 :=
  if drop = [] then ids else ids.filter (· ∉ drop)

/-- The append that the boot path and the older hot-add use; it answers how many ids it
added. -/
def appendToVecLocked (vec : CUtlVector) (ids seen : List UInt32) (grown : Option Nat) :
    CUtlVector × List UInt32 × Nat :=
  match grown with
  | none => (vec, seen, 0)
  | some alloc =>
    if ids = [] ∨ ¬ vec.validLive then (vec, seen, 0)
    else
      let fresh := (missingFromVector vec.ids ids).filter (· ≠ 0)
      if fresh = [] ∨ kIntMax < fresh.length ∨ kUint32Max - vec.size < fresh.length then (vec, seen, 0)
      else if alloc < vec.size + fresh.length then ({ vec with alloc }, seen, 0)
      else ({ ids := vec.ids ++ fresh, alloc }, seen ++ fresh, fresh.length)

/-- The append leaves what was there and adds ids that were not. -/
theorem appendToVecLocked_ids (vec : CUtlVector) (ids seen : List UInt32) (grown : Option Nat) :
    ∃ fresh, (∀ id ∈ fresh, id ∉ vec.ids) ∧ (appendToVecLocked vec ids seen grown).1.ids = vec.ids ++ fresh ∧
      (appendToVecLocked vec ids seen grown).2.1 = seen ++ fresh := by
  have hnone : ∃ fresh, (∀ id ∈ fresh, id ∉ vec.ids) ∧ vec.ids = vec.ids ++ fresh ∧ seen = seen ++ fresh :=
    ⟨[], by simp, by simp, by simp⟩
  unfold appendToVecLocked
  split
  · exact hnone
  · split
    · exact hnone
    · dsimp only
      split
      · exact hnone
      · split
        · exact hnone
        · refine ⟨_, fun id hid => ?_, rfl, rfl⟩
          exact ((mem_missingFromVector ..).mp (List.mem_of_mem_filter hid)).2

end SlsteamMoon.PackagePatch

/-! Two injections against the one their ids coalesce to. The queue keeps the order in which ids were first
seen, the append sorts what it adds. -/
namespace SlsteamMoon.PackagePatch
open OwnerQueue

/-- The ids an append adds to a vector that has room for them. -/
def newIds (live ids : List UInt32) : List UInt32 := (missingFromVector live ids).filter (· ≠ 0)

private theorem mem_newIds (live ids : List UInt32) (id : UInt32) :
    id ∈ newIds live ids ↔ id ∈ ids ∧ id ∉ live ∧ id ≠ 0 := by
  simp only [newIds, List.mem_filter, mem_missingFromVector, decide_eq_true_eq, and_assoc]

private theorem newIds_ascending (live ids : List UInt32) : (newIds live ids).Pairwise (· < ·) :=
  (missingFromVector_ascending live ids).filter _

private theorem appendToVecLocked_some (vec : CUtlVector) (ids seen : List UInt32) (alloc : Nat) :
    appendToVecLocked vec ids seen (some alloc) =
      if ids = [] ∨ ¬vec.validLive then (vec, seen, 0)
      else if newIds vec.ids ids = [] ∨ kIntMax < (newIds vec.ids ids).length ∨
          kUint32Max - vec.size < (newIds vec.ids ids).length then (vec, seen, 0)
      else if alloc < vec.size + (newIds vec.ids ids).length then ({ vec with alloc }, seen, 0)
      else ({ ids := vec.ids ++ newIds vec.ids ids, alloc }, seen ++ newIds vec.ids ids,
        (newIds vec.ids ids).length) := rfl

/-- An append with room for its new ids adds them all. -/
theorem appendToVecLocked_room {vec : CUtlVector} (ids seen : List UInt32) {alloc : Nat}
    (hvalid : vec.validLive = true) (hcount : (newIds vec.ids ids).length ≤ kIntMax)
    (hsize : vec.size + (newIds vec.ids ids).length ≤ kUint32Max)
    (hroom : vec.size + (newIds vec.ids ids).length ≤ alloc) :
    (appendToVecLocked vec ids seen (some alloc)).1.ids = vec.ids ++ newIds vec.ids ids ∧
      (appendToVecLocked vec ids seen (some alloc)).2.1 = seen ++ newIds vec.ids ids ∧
      (appendToVecLocked vec ids seen (some alloc)).1.validLive = true := by
  simp only [appendToVecLocked_some]
  split_ifs with hskip hnone hfull
  · obtain rfl := hskip.resolve_right (not_not.mpr hvalid)
    have hnil : newIds vec.ids [] = [] := rfl
    rw [hnil, List.append_nil, List.append_nil]
    exact ⟨rfl, rfl, hvalid⟩
  · have hnil : newIds vec.ids ids = [] := by
      obtain h | h | h := hnone
      · exact h
      · omega
      · omega
    rw [hnil, List.append_nil, List.append_nil]
    exact ⟨rfl, rfl, hvalid⟩
  · omega
  · refine ⟨rfl, rfl, ?_⟩
    simp only [CUtlVector.validLive, CUtlVector.size, List.length_append, decide_eq_true_eq]
    exact hroom

/-- One list is injected and then the other. -/
def injectBoth (vec : CUtlVector) (seen first second : List UInt32) (growFirst growSecond : Nat) :
    CUtlVector × List UInt32 :=
  let afterFirst := appendToVecLocked vec first seen (some growFirst)
  let afterSecond := appendToVecLocked afterFirst.1 second afterFirst.2.1 (some growSecond)
  (afterSecond.1, afterSecond.2.1)

/-- The coalesced list is injected. -/
def injectCoalesced (vec : CUtlVector) (seen first second : List UInt32) (grow : Nat) : CUtlVector × List UInt32 :=
  let after := appendToVecLocked vec (mergeIds first second) seen (some grow)
  (after.1, after.2.1)

/-- A valid live vector, each of whose grow calls leaves room for all ids that are new. -/
structure Capacity (vec : CUtlVector) (first second : List UInt32) (grows : List Nat) : Prop where
  valid : vec.validLive = true
  countable : (newIds vec.ids (mergeIds first second)).length ≤ kIntMax
  addressable : vec.size + (newIds vec.ids (mergeIds first second)).length ≤ kUint32Max
  room : ∀ grow ∈ grows, vec.size + (newIds vec.ids (mergeIds first second)).length ≤ grow

/-- The ids that the first injection brings in are below those that only the second does. -/
def BroughtInOrder (live first second : List UInt32) : Prop :=
  ∀ a ∈ first, a ≠ 0 → a ∉ live → ∀ b ∈ second, b ≠ 0 → b ∉ live → b ∉ first → a < b

/-- Of an append in two parts, the second part is what the first left missing. -/
theorem newIds_second (live first second : List UInt32) (id : UInt32) :
    id ∈ newIds (live ++ newIds live first) second ↔ id ∈ second ∧ id ∉ live ∧ id ∉ first ∧ id ≠ 0 := by
  rw [mem_newIds, List.mem_append, mem_newIds]
  tauto

private theorem mem_newIds_split (live first second : List UInt32) (id : UInt32) :
    id ∈ newIds live (mergeIds first second) ↔
      id ∈ newIds live first ∨ id ∈ newIds (live ++ newIds live first) second := by
  rw [newIds_second, mem_newIds, mem_newIds, mem_mergeIds]
  tauto

private theorem newIds_split_iff (live first second : List UInt32) :
    newIds live first ++ newIds (live ++ newIds live first) second = newIds live (mergeIds first second) ↔
      BroughtInOrder live first second := by
  constructor
  · intro h a ha hazero halive b hb hbzero hblive hbfirst
    have hsorted := newIds_ascending live (mergeIds first second)
    rw [← h, List.pairwise_append] at hsorted
    apply hsorted.2.2 a _ b
    · exact (newIds_second ..).mpr ⟨hb, hblive, hbfirst, hbzero⟩
    · exact (mem_newIds ..).mpr ⟨ha, halive, hazero⟩
  · intro h
    apply ascending_ext _ (newIds_ascending ..)
    · intro id
      rw [List.mem_append, mem_newIds_split]
    · rw [List.pairwise_append]
      refine ⟨newIds_ascending .., newIds_ascending .., fun a ha b hb => ?_⟩
      obtain ⟨hfirst, halive, hazero⟩ := (mem_newIds ..).mp ha
      obtain ⟨hsecond, hblive, hbfirst, hbzero⟩ := (newIds_second ..).mp hb
      exact h a hfirst hazero halive b hsecond hbzero hblive hbfirst

private theorem length_newIds_split (live first second : List UInt32) :
    (newIds live first).length + (newIds (live ++ newIds live first) second).length =
      (newIds live (mergeIds first second)).length := by
  have hnodup : ∀ {ids : List UInt32}, ids.Pairwise (· < ·) → ids.Nodup := fun h => h.imp fun hlt => UInt32.ne_of_lt hlt
  rw [← List.length_append]
  apply List.Perm.length_eq
  rw [List.perm_ext_iff_of_nodup]
  · intro id
    rw [List.mem_append, mem_newIds_split]
  · rw [List.nodup_append]
    refine ⟨hnodup (newIds_ascending ..), hnodup (newIds_ascending ..), fun a ha b hb => ?_⟩
    rintro rfl
    exact ((newIds_second ..).mp hb).2.2.1 ((mem_newIds ..).mp ha).1
  · exact hnodup (newIds_ascending ..)

private theorem injectCoalesced_spec {vec : CUtlVector} {first second : List UInt32} {grows : List Nat} {grow : Nat}
    (h : Capacity vec first second grows) (hgrow : grow ∈ grows) (seen : List UInt32) :
    (injectCoalesced vec seen first second grow).1.ids = vec.ids ++ newIds vec.ids (mergeIds first second) ∧
      (injectCoalesced vec seen first second grow).2 = seen ++ newIds vec.ids (mergeIds first second) := by
  obtain ⟨hids, hseen, -⟩ := appendToVecLocked_room (mergeIds first second) seen h.valid h.countable h.addressable
    (h.room grow hgrow)
  exact ⟨hids, hseen⟩

private theorem injectBoth_spec {vec : CUtlVector} {first second : List UInt32} {grows : List Nat}
    {growFirst growSecond : Nat}
    (h : Capacity vec first second grows) (hfirst : growFirst ∈ grows) (hsecond : growSecond ∈ grows)
    (seen : List UInt32) :
    (injectBoth vec seen first second growFirst growSecond).1.ids =
        vec.ids ++ (newIds vec.ids first ++ newIds (vec.ids ++ newIds vec.ids first) second) ∧
      (injectBoth vec seen first second growFirst growSecond).2 =
        seen ++ (newIds vec.ids first ++ newIds (vec.ids ++ newIds vec.ids first) second) := by
  have hsplit := length_newIds_split vec.ids first second
  have hcountable := h.countable
  have haddressable := h.addressable
  have hroomFirst := h.room growFirst hfirst
  have hroomSecond := h.room growSecond hsecond
  obtain ⟨hids, hseen, hvalid⟩ :=
    appendToVecLocked_room first seen h.valid (by omega) (by omega) (by omega : _ ≤ growFirst)
  have hsize : (appendToVecLocked vec first seen (some growFirst)).1.size =
      vec.size + (newIds vec.ids first).length := by
    rw [CUtlVector.size, hids, List.length_append]
    rfl
  obtain ⟨hids', hseen', -⟩ := appendToVecLocked_room second (appendToVecLocked vec first seen (some growFirst)).2.1
    hvalid (by rw [hids]; omega) (by rw [hsize, hids]; omega) (by rw [hsize, hids]; omega : _ ≤ growSecond)
  rw [hids] at hids' hseen'
  constructor
  · rw [injectBoth, hids', List.append_assoc]
  · rw [injectBoth, hseen', hseen, List.append_assoc]

/-- Coalescing leaves the vector as the two injections would just when the ids of the first come before the
new ones of the second; the seeded set is the same in any case. -/
theorem coalesced_injection_exact_iff (vec : CUtlVector) (seen first second : List UInt32)
    (growFirst growSecond grow : Nat) (hcapacity : Capacity vec first second [growFirst, growSecond, grow]) :
    ((injectBoth vec seen first second growFirst growSecond).1.ids =
          (injectCoalesced vec seen first second grow).1.ids ∧
        ∀ id, id ∈ (injectBoth vec seen first second growFirst growSecond).2 ↔
          id ∈ (injectCoalesced vec seen first second grow).2) ↔
      BroughtInOrder vec.ids first second := by
  obtain ⟨hbothIds, hbothSeen⟩ := injectBoth_spec hcapacity List.mem_cons_self
    (List.mem_cons_of_mem growFirst List.mem_cons_self) seen
  obtain ⟨honceIds, honceSeen⟩ := injectCoalesced_spec hcapacity
    (List.mem_cons_of_mem growFirst (List.mem_cons_of_mem growSecond List.mem_cons_self)) seen
  have hsame : ∀ id, id ∈ (injectBoth vec seen first second growFirst growSecond).2 ↔
      id ∈ (injectCoalesced vec seen first second grow).2 := by
    intro id
    rw [hbothSeen, honceSeen, List.mem_append, List.mem_append, List.mem_append, mem_newIds_split]
  rw [hbothIds, honceIds, List.append_cancel_left_eq, newIds_split_iff]
  exact and_iff_left hsame

/-- Into an empty vector with four slots. -/
def emptyVector : CUtlVector := ⟨[], 4⟩

theorem coalesced_in_order :
    (injectBoth emptyVector [] [10, 20] [20, 30] 4 4).1.ids =
      (injectCoalesced emptyVector [] [10, 20] [20, 30] 4).1.ids := by
  have hcapacity : Capacity emptyVector [10, 20] [20, 30] [4, 4, 4] :=
    ⟨rfl, by decide, by decide, by decide⟩
  refine ((coalesced_injection_exact_iff emptyVector [] [10, 20] [20, 30] 4 4 4 hcapacity).mpr ?_).1
  simp [BroughtInOrder, emptyVector]

/-- The app 20 and then the apps 20 and 10. -/
theorem coalesced_out_of_order :
    emptyVector.validLive = true ∧ mergeIds [20] [20, 10] = [20, 10] ∧
      (injectBoth emptyVector [] [20] [20, 10] 4 4).1.ids = [20, 10] ∧
      (injectCoalesced emptyVector [] [20] [20, 10] 4).1.ids = [10, 20] := by
  decide

end SlsteamMoon.PackagePatch
