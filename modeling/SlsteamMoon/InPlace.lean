import Mathlib.Data.List.Basic
import Mathlib.Data.List.TakeDrop

/-! In-place passes over a stretch of storage: a compaction with separate read
and write indices, and a rewrite of each cell where it stands. Each pass logs
what it does to every cell it visits. -/
namespace SlsteamMoon.InPlace

variable {α ε : Type*}

/-- What is left after a pass: the storage, the write index and the log. -/
structure Pass (α ε : Type*) where
  storage : List α
  writeIdx : Nat
  log : List ε

/-- Visit `n` cells from `readIdx`. A cell the function keeps is written back
where it stands and, if a cell before it was dropped, copied down. -/
def compactLoop (f : α → Option α × List ε) : Nat → Nat → Nat → List α → Pass α ε
  | 0, _, writeIdx, storage => ⟨storage, writeIdx, []⟩
  | n + 1, readIdx, writeIdx, storage =>
    match storage[readIdx]? with
    | none => ⟨storage, writeIdx, []⟩
    | some entry =>
      let visit := f entry
      let rest := match visit.1 with
        | none => compactLoop f n (readIdx + 1) writeIdx storage
        | some kept =>
          let written := storage.set readIdx kept
          let moved := if writeIdx = readIdx then written else written.set writeIdx kept
          compactLoop f n (readIdx + 1) (writeIdx + 1) moved
      { rest with log := visit.2 ++ rest.log }

/-- Compact the first `count` cells. -/
def compact (f : α → Option α × List ε) (count : Nat) (storage : List α) : Pass α ε :=
  compactLoop f count 0 0 storage

/-- Rewrite `n` cells from `i` where they stand. -/
def rewriteLoop (g : α → α) : Nat → Nat → List α → List α
  | 0, _, storage => storage
  | n + 1, i, storage =>
    match storage[i]? with
    | none => storage
    | some entry => rewriteLoop g n (i + 1) (storage.set i (g entry))

private theorem take_set_succ {storage : List α} {w : Nat} (hw : w < storage.length) (a : α) :
    (storage.set w a).take (w + 1) = storage.take w ++ [a] := by
  have hlt : w < (storage.set w a).length := by simpa using hw
  rw [List.take_succ_eq_append_getElem hlt, List.take_set,
    List.set_eq_of_length_le (List.length_take_le w storage), List.getElem_set_self]

private theorem drop_moved (storage : List α) {w r : Nat} (hw : w ≤ r) (a : α) :
    (if w = r then storage.set r a else (storage.set r a).set w a).drop (r + 1) =
      storage.drop (r + 1) := by
  split
  · rw [List.drop_set, if_pos (by omega)]
  · rw [List.drop_set, if_pos (by omega), List.drop_set, if_pos (by omega)]

private theorem take_moved {storage : List α} {w r : Nat} (hw : w ≤ r) (hr : r < storage.length) (a : α) :
    (if w = r then storage.set r a else (storage.set r a).set w a).take (w + 1) =
      storage.take w ++ [a] := by
  split
  · next h => rw [h, take_set_succ hr]
  · rw [take_set_succ (by simpa using by omega), List.take_set, List.set_eq_of_length_le (by simp; omega)]

private theorem length_moved (storage : List α) (w r : Nat) (a : α) :
    (if w = r then storage.set r a else (storage.set r a).set w a).length = storage.length := by
  split <;> simp

theorem compactLoop_length (f : α → Option α × List ε) (n r w : Nat) (storage : List α) :
    (compactLoop f n r w storage).storage.length = storage.length := by
  induction n generalizing r w storage with
  | zero => rfl
  | succ n ih =>
    simp only [compactLoop]
    cases storage[r]? with
    | none => rfl
    | some entry =>
      dsimp only
      cases (f entry).1 with
      | none => exact ih (r + 1) w storage
      | some kept =>
        dsimp only
        rw [ih, length_moved]

/-- The loop specification: what stands behind the write index, in order. -/
theorem compactLoop_spec (f : α → Option α × List ε) (n r w : Nat) (storage : List α)
    (hw : w ≤ r) (hn : r + n ≤ storage.length) :
    let p := compactLoop f n r w storage
    p.storage.take p.writeIdx =
        storage.take w ++ ((storage.drop r).take n).filterMap (fun e => (f e).1) ∧
      p.log = ((storage.drop r).take n).flatMap (fun e => (f e).2) ∧
      p.writeIdx ≤ r + n := by
  induction n generalizing r w storage with
  | zero => simp [compactLoop, hw]
  | succ n ih =>
    have hr : r < storage.length := by omega
    have hget : storage[r]? = some storage[r] := List.getElem?_eq_getElem hr
    have hdrop : (storage.drop r).take (n + 1) = storage[r] :: (storage.drop (r + 1)).take n := by
      rw [List.drop_eq_getElem_cons hr, List.take_succ_cons]
    have hadd : r + (n + 1) = r + 1 + n := by omega
    simp only [compactLoop, hget, hdrop, List.filterMap_cons, List.flatMap_cons, hadd]
    cases hf : (f storage[r]).1 with
    | none =>
      obtain ⟨hs, hl, hi⟩ := ih (r + 1) w storage (by omega) (by omega)
      exact ⟨hs, by rw [hl], hi⟩
    | some kept =>
      dsimp only
      obtain ⟨hs, hl, hi⟩ := ih (r + 1) (w + 1)
        (if w = r then storage.set r kept else (storage.set r kept).set w kept) (by omega)
        (by rw [length_moved]; omega)
      have htail := drop_moved storage hw kept
      rw [take_moved hw hr, htail] at hs
      rw [htail] at hl
      refine ⟨?_, by rw [hl], hi⟩
      rw [hs, List.append_assoc]
      rfl

/-- A compaction keeps, in order, what the function keeps. -/
theorem compact_survivors (f : α → Option α × List ε) {count : Nat} {storage : List α}
    (h : count ≤ storage.length) :
    (compact f count storage).storage.take (compact f count storage).writeIdx =
      (storage.take count).filterMap fun e => (f e).1 := by
  simpa [compact] using (compactLoop_spec f count 0 0 storage (by omega) (by omega)).1

theorem compact_length (f : α → Option α × List ε) (count : Nat) (storage : List α) :
    (compact f count storage).storage.length = storage.length :=
  compactLoop_length f count 0 0 storage

theorem compact_writeIdx_le (f : α → Option α × List ε) {count : Nat} {storage : List α}
    (h : count ≤ storage.length) : (compact f count storage).writeIdx ≤ count := by
  simpa [compact] using (compactLoop_spec f count 0 0 storage (by omega) (by omega)).2.2

theorem rewriteLoop_length (g : α → α) (n i : Nat) (storage : List α) :
    (rewriteLoop g n i storage).length = storage.length := by
  induction n generalizing i storage with
  | zero => rfl
  | succ n ih =>
    simp only [rewriteLoop]
    cases storage[i]? with
    | none => rfl
    | some entry =>
      dsimp only
      rw [ih, List.length_set]

theorem rewriteLoop_take (g : α → α) (n i : Nat) (storage : List α) (hn : i + n ≤ storage.length) :
    (rewriteLoop g n i storage).take (i + n) =
      storage.take i ++ ((storage.drop i).take n).map g := by
  induction n generalizing i storage with
  | zero => simp [rewriteLoop]
  | succ n ih =>
    have hi : i < storage.length := by omega
    have hget : storage[i]? = some storage[i] := List.getElem?_eq_getElem hi
    have hdrop : (storage.drop i).take (n + 1) = storage[i] :: (storage.drop (i + 1)).take n := by
      rw [List.drop_eq_getElem_cons hi, List.take_succ_cons]
    have hrest := ih (i + 1) (storage.set i (g storage[i])) (by simpa using by omega)
    rw [take_set_succ hi, List.drop_set, if_pos (by omega)] at hrest
    simp only [rewriteLoop, hget, hdrop, List.map_cons]
    rw [show i + (n + 1) = i + 1 + n by omega, hrest, List.append_assoc]
    rfl

/-- Rewriting the first `count` cells maps them. -/
theorem rewriteLoop_survivors (g : α → α) {count : Nat} {storage : List α} (h : count ≤ storage.length) :
    (rewriteLoop g count 0 storage).take count = (storage.take count).map g := by
  simpa using rewriteLoop_take g count 0 storage (by omega)

end SlsteamMoon.InPlace
