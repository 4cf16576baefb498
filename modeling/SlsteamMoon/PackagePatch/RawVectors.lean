import SlsteamMoon.InPlace
import SlsteamMoon.PackagePatch.Vectors

/-! The live vectors as memory: a base pointer with the slots behind it, written in place. A read or a write
outside the slots has no result. -/
namespace SlsteamMoon.PackagePatch
open OwnerQueue InPlace

/-- A null base has no slots; alloc counts them. -/
structure RawVector where
  base : Option (List UInt32)
  size : Nat
  deriving DecidableEq

/-- CUtlMemoryGrow: the memory it leaves when it is asked for so many slots more. -/
abbrev GrowCall := Option (List UInt32) → Nat → Option (List UInt32)

def slots (base : Option (List UInt32)) : List UInt32 := base.getD []

/-- A reallocation keeps every slot there is, and adds as many as it likes. -/
def GrowCall.Keeps (grow : GrowCall) : Prop := ∀ base growBy, slots base <+: slots (grow base growBy)

namespace RawVector

def alloc (vec : RawVector) : Nat := (slots vec.base).length

def validLiveVector (vec : RawVector) : Bool := decide (vec.size ≤ vec.alloc) && (vec.size == 0 || vec.base.isSome)

/-- The elements up to the size. -/
def logical (vec : RawVector) : CUtlVector := ⟨(slots vec.base).take vec.size, vec.alloc⟩

def buildVectorPlan (vec : RawVector) (seeded desiredValues : List UInt32) : Option VectorPlan :=
  if vec.validLiveVector = true then PackagePatch.buildVectorPlan vec.logical seeded desiredValues else none

def prepareVectorLocked (vec : RawVector) (plan : VectorPlan) (grow : Option GrowCall) : RawVector × Bool :=
  if ¬vec.validLiveVector = true then (vec, false)
  else if plan.targetSize ≤ vec.alloc then (vec, true)
  else
    match grow with
    | none => (vec, false)
    | some grow =>
      if plan.targetSize ≤ vec.size ∨ kIntMax < plan.targetSize - vec.size then (vec, false)
      else
        let next := { vec with base := grow vec.base (plan.targetSize - vec.size) }
        (next, next.validLiveVector && plan.targetSize ≤ next.alloc)

end RawVector

/-- Through a null base and past the slots nothing is written. -/
def writeAt (base : Option (List UInt32)) (i : Nat) (id : UInt32) : Option (List UInt32) :=
  base.bind fun slots => if i < slots.length then some (slots.set i id) else none

/-- The loop of compactInjected over the slots from the read index on. -/
def compactSlots (seeded desired : List UInt32) : Nat → Nat → Nat → List UInt32 → Option (List UInt32 × Nat)
  | 0, _, writeIndex, slots => some (slots, writeIndex)
  | n + 1, readIndex, writeIndex, slots =>
    match slots[readIndex]? with
    | none => none
    | some id =>
      if id ∈ seeded ∧ id ∉ desired then compactSlots seeded desired n (readIndex + 1) writeIndex slots
      else
        match writeAt (some slots) writeIndex id with
        | none => none
        | some slots => compactSlots seeded desired n (readIndex + 1) (writeIndex + 1) slots

namespace RawVector

def compactInjected (vec : RawVector) (seeded desired : List UInt32) : Option RawVector :=
  match vec.base with
  | none => some vec
  | some slots =>
    if vec.size = 0 then some vec
    else (compactSlots seeded desired vec.size 0 0 slots).map fun (slots, size) => ⟨some slots, size⟩

def appendMissing : List UInt32 → RawVector → Option RawVector
  | [], vec => some vec
  | id :: missing, vec =>
    match writeAt vec.base vec.size id with
    | none => none
    | some slots => appendMissing missing ⟨some slots, vec.size + 1⟩

def applyVectorPlanLocked (vec : RawVector) (seeded : List UInt32) (plan : VectorPlan) : Option (RawVector × Bool) :=
  ((vec.compactInjected seeded plan.desired).bind (appendMissing plan.missing)).map fun next =>
    (next, plan.removes || !plan.missing.isEmpty || next.size != vec.size)

/-- Size within the slots. -/
def Live (vec : RawVector) : Prop := vec.size ≤ vec.alloc

end RawVector

theorem validLiveVector_iff (vec : RawVector) : vec.validLiveVector = true ↔ vec.Live := by
  obtain ⟨base, size⟩ := vec
  simp only [RawVector.validLiveVector, RawVector.Live, Bool.and_eq_true, decide_eq_true_eq, Bool.or_eq_true, beq_iff_eq]
  refine and_iff_left_of_imp fun hlive => ?_
  cases base with
  | none => exact .inl (Nat.le_zero.mp hlive)
  | some cells => exact .inr rfl

theorem logical_size {vec : RawVector} (h : vec.Live) : vec.logical.size = vec.size := by
  rw [CUtlVector.size, RawVector.logical, List.length_take]
  exact Nat.min_eq_left h

/-- What the compaction keeps of a cell. -/
def keepsCell (seeded desired : List UInt32) (id : UInt32) : Option UInt32 × List Unit :=
  (if id ∈ seeded ∧ id ∉ desired then none else some id, [])

/-- The loop never leaves the slots, and it is the general compaction. -/
theorem compactSlots_eq (seeded desired : List UInt32) (n : Nat) {r w : Nat} {cells : List UInt32} (hw : w ≤ r)
    (hn : r + n ≤ cells.length) :
    compactSlots seeded desired n r w cells =
      some ((compactLoop (keepsCell seeded desired) n r w cells).storage,
        (compactLoop (keepsCell seeded desired) n r w cells).writeIdx) := by
  induction n generalizing r w cells with
  | zero => rfl
  | succ n ih =>
    have hr : r < cells.length := by omega
    have hget : cells[r]? = some cells[r] := List.getElem?_eq_getElem hr
    have hwlt : w < cells.length := by omega
    have hsame : cells.set r cells[r] = cells := List.set_getElem_self hr
    simp only [compactSlots, compactLoop, hget]
    by_cases hdrop : cells[r] ∈ seeded ∧ cells[r] ∉ desired
    · simp only [keepsCell, if_pos hdrop]
      exact ih (by omega) (by omega)
    · have hwrite : writeAt (some cells) w cells[r] = some (cells.set w cells[r]) := by
        simp only [writeAt, Option.bind_some, hwlt, if_true]
      have hmoved : (if w = r then cells.set r cells[r] else (cells.set r cells[r]).set w cells[r]) =
          cells.set w cells[r] := by
        split
        · next hwr => rw [hwr]
        · rw [hsame]
      simp only [keepsCell, if_neg hdrop, hwrite, hmoved]
      exact ih (by omega) (by rw [List.length_set]; omega)

private theorem filterMap_keepsCell (seeded desired ids : List UInt32) :
    (ids.filterMap fun id => (keepsCell seeded desired id).1) = compactInjected ids seeded desired := by
  rw [compactInjected, ← List.filterMap_eq_filter]
  apply List.filterMap_congr
  intro id _
  by_cases hdrop : id ∈ seeded ∧ id ∉ desired
  · simp [keepsCell, Option.guard, hdrop]
  · simp [keepsCell, Option.guard, hdrop]

/-- The compaction in place leaves the elements that a plan keeps, in order, and the allocation. -/
theorem compactInjected_spec {vec : RawVector} (h : vec.Live) (seeded desired : List UInt32) :
    ∃ next, vec.compactInjected seeded desired = some next ∧ next.Live ∧ next.alloc = vec.alloc ∧
      next.logical.ids = compactInjected vec.logical.ids seeded desired := by
  obtain ⟨base, size⟩ := vec
  cases base with
  | none =>
    refine ⟨_, rfl, h, rfl, ?_⟩
    simp [RawVector.logical, slots, compactInjected]
  | some cells =>
    have hsize : size ≤ cells.length := h
    simp only [RawVector.compactInjected]
    split_ifs with hzero
    · refine ⟨_, rfl, h, rfl, ?_⟩
      simp [RawVector.logical, hzero, compactInjected]
    · rw [compactSlots_eq seeded desired size (Nat.le_refl 0) (by omega)]
      have hlen := compact_length (keepsCell seeded desired) size cells
      have hidx := compact_writeIdx_le (keepsCell seeded desired) hsize
      have hkept := compact_survivors (keepsCell seeded desired) hsize
      rw [filterMap_keepsCell] at hkept
      refine ⟨_, rfl, ?_, hlen, hkept⟩
      show (compact (keepsCell seeded desired) size cells).writeIdx ≤
        (compact (keepsCell seeded desired) size cells).storage.length
      omega

/-- Appends within the allocation all succeed. -/
theorem appendMissing_spec (missing : List UInt32) {vec : RawVector} (h : vec.size + missing.length ≤ vec.alloc) :
    ∃ next, RawVector.appendMissing missing vec = some next ∧ next.Live ∧ next.alloc = vec.alloc ∧
      next.logical.ids = vec.logical.ids ++ missing := by
  induction missing generalizing vec with
  | nil => exact ⟨vec, rfl, h, rfl, (List.append_nil _).symm⟩
  | cons id missing ih =>
    obtain ⟨base, size⟩ := vec
    rw [List.length_cons] at h
    cases base with
    | none => exact absurd h (by simp [RawVector.alloc, slots])
    | some cells =>
      have hlt : size < cells.length := by
        simp only [RawVector.alloc, slots, Option.getD_some] at h
        omega
      have hwrite : writeAt (some cells) size id = some (cells.set size id) := by
        simp only [writeAt, Option.bind_some, hlt, if_true]
      have hroom : size + 1 + missing.length ≤ (RawVector.mk (some (cells.set size id)) (size + 1)).alloc := by
        simp only [RawVector.alloc, slots, Option.getD_some, List.length_set] at h ⊢
        omega
      obtain ⟨next, hnext, hlive, halloc, hids⟩ := @ih ⟨some (cells.set size id), size + 1⟩ hroom
      refine ⟨next, ?_, hlive, ?_, ?_⟩
      · simp only [RawVector.appendMissing, hwrite]
        exact hnext
      · rw [halloc]
        simp [RawVector.alloc, slots]
      · rw [hids]
        simp only [RawVector.logical, slots, Option.getD_some]
        rw [List.take_succ_eq_append_getElem (by simpa using hlt), List.take_set, List.getElem_set_self,
          List.set_eq_of_length_le (List.length_take_le _ _), List.append_assoc, List.singleton_append]

/-- A plan whose target fits is carried out in place as on the elements alone. -/
theorem applyRaw_spec {vec : RawVector} {seeded : List UInt32} {plan : VectorPlan} (h : vec.Live)
    (hsize : (compactInjected vec.logical.ids seeded plan.desired).length + plan.missing.length ≤ vec.alloc) :
    ∃ next changed, vec.applyVectorPlanLocked seeded plan = some (next, changed) ∧ next.Live ∧
      (next.logical, changed) = applyVectorPlanLocked vec.logical seeded plan := by
  obtain ⟨compacted, hcompacted, hlive, halloc, hids⟩ := compactInjected_spec h seeded plan.desired
  have hcount : compacted.size = (compactInjected vec.logical.ids seeded plan.desired).length := by
    rw [← hids, ← logical_size hlive]
    rfl
  obtain ⟨next, hnext, hnextLive, hnextAlloc, hnextIds⟩ :=
    appendMissing_spec plan.missing (by rw [hcount, halloc]; exact hsize)
  refine ⟨next, _, by rw [RawVector.applyVectorPlanLocked, hcompacted, Option.bind_some, hnext]; rfl, hnextLive, ?_⟩
  have hlogical : next.logical =
      { vec.logical with ids := compactInjected vec.logical.ids seeded plan.desired ++ plan.missing } := by
    have hfinal : next.alloc = vec.alloc := hnextAlloc.trans halloc
    rw [← hids, ← hnextIds]
    simp only [RawVector.logical, hfinal]
  have hsizes : next.size = (compactInjected vec.logical.ids seeded plan.desired ++ plan.missing).length := by
    rw [← logical_size hnextLive, hlogical]
    rfl
  simp only [applyVectorPlanLocked, hlogical, hsizes, logical_size h]

/-- What the grow call leaves allocated. -/
def grownAlloc (vec : RawVector) (plan : VectorPlan) (grow : GrowCall) : Nat :=
  (slots (grow vec.base (plan.targetSize - vec.size))).length

/-- The preparation of the memory against the preparation of its capacity. -/
theorem prepareRaw_spec {vec : RawVector} {grow : Option GrowCall} (plan : VectorPlan) (h : vec.Live)
    (hkeeps : ∀ call, grow = some call → call.Keeps) :
    (vec.prepareVectorLocked plan grow).1.Live ∧
      ((vec.prepareVectorLocked plan grow).1.logical, (vec.prepareVectorLocked plan grow).2) =
        prepareVectorLocked vec.logical plan (grow.map fun call => grownAlloc vec plan call) := by
  have hvalid : vec.validLiveVector = true := (validLiveVector_iff vec).mpr h
  have hlogical : vec.logical.validLive = true := by
    rw [CUtlVector.validLive, logical_size h]
    exact decide_eq_true h
  simp only [RawVector.prepareVectorLocked, prepareVectorLocked, hvalid, hlogical, not_true_eq_false, if_false,
    logical_size h]
  by_cases hfits : plan.targetSize ≤ vec.alloc
  · rw [if_pos hfits, if_pos (show plan.targetSize ≤ vec.logical.alloc from hfits)]
    exact ⟨h, rfl⟩
  · rw [if_neg hfits, if_neg (show ¬plan.targetSize ≤ vec.logical.alloc from hfits)]
    cases grow with
    | none => exact ⟨h, rfl⟩
    | some call =>
      dsimp only [Option.map_some]
      by_cases hgrow : plan.targetSize ≤ vec.size ∨ kIntMax < plan.targetSize - vec.size
      · rw [if_pos hgrow, if_pos hgrow]
        exact ⟨h, rfl⟩
      · rw [if_neg hgrow, if_neg hgrow]
        obtain ⟨more, hmore⟩ := hkeeps call rfl vec.base (plan.targetSize - vec.size)
        set next : RawVector := { vec with base := call vec.base (plan.targetSize - vec.size) } with hnext
        have hsame : next.logical = { vec.logical with alloc := grownAlloc vec plan call } := by
          simp only [RawVector.logical, hnext, ← hmore, RawVector.alloc, grownAlloc]
          rw [List.take_append_of_le_length h]
        have hlive : next.Live := by
          show vec.size ≤ next.alloc
          simp only [RawVector.alloc, hnext, ← hmore, List.length_append]
          exact Nat.le_add_right_of_le h
        refine ⟨hlive, ?_⟩
        have hnextValid : next.validLiveVector = true := (validLiveVector_iff next).mpr hlive
        have hnextLogical : ({ vec.logical with alloc := grownAlloc vec plan call } : CUtlVector).validLive = true := by
          rw [← hsame, CUtlVector.validLive, logical_size hlive]
          exact decide_eq_true hlive
        rw [hsame, hnextValid, hnextLogical]
        rfl

end SlsteamMoon.PackagePatch
