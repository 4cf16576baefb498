import Mathlib.Data.List.Basic
import Mathlib.Tactic.Ring

/-! Hashes that take a message block by block: the blocks of a message, and the same result from a buffer that is fed one
letter after the other. -/
namespace SlsteamMoon.IteratedHash

variable {σ α : Type*} {n : Nat}

/-- The complete blocks at the front of a message. -/
def blocks (n : Nat) (message : List α) : List (List α) :=
  (List.range (message.length / n)).map fun i => (message.drop (n * i)).take n

/-- The letters behind them. -/
def rest (n : Nat) (message : List α) : List α := message.drop (n * (message.length / n))

theorem length_rest (n : Nat) (message : List α) : (rest n message).length = message.length % n := by
  rw [rest, List.length_drop, Nat.mod_eq_sub_mul_div]

theorem blocks_of_short {message : List α} (h : message.length < n) : blocks n message = [] := by
  rw [blocks, Nat.div_eq_of_lt h, List.range_zero, List.map_nil]

theorem rest_of_short {message : List α} (h : message.length < n) : rest n message = message := by
  rw [rest, Nat.div_eq_of_lt h, Nat.mul_zero, List.drop_zero]

private theorem div_of_block {block more : List α} (hn : 0 < n) (h : block.length = n) :
    (block ++ more).length / n = more.length / n + 1 := by
  rw [List.length_append, h, Nat.add_div_left _ hn]

theorem blocks_block {block more : List α} (hn : 0 < n) (h : block.length = n) :
    blocks n (block ++ more) = block :: blocks n more := by
  rw [blocks, div_of_block hn h, List.range_succ_eq_map, List.map_cons, List.map_map, Nat.mul_zero, List.drop_zero,
    List.take_left' h, blocks]
  congr 1
  refine List.map_congr_left fun i _ => ?_
  have hskip : n * (i + 1) = block.length + n * i := by rw [h]; ring
  rw [Function.comp_apply, Nat.succ_eq_add_one, hskip, List.drop_append, List.drop_of_length_le (by omega), List.nil_append,
    Nat.add_sub_cancel_left]

theorem blocks_of_length {block : List α} (hn : 0 < n) (h : block.length = n) : blocks n block = [block] := by
  have hwhole : blocks n (block ++ []) = block :: blocks n [] := blocks_block hn h
  have hnone : blocks n ([] : List α) = [] := blocks_of_short hn
  rwa [List.append_nil, hnone] at hwhole

theorem rest_block {block more : List α} (hn : 0 < n) (h : block.length = n) : rest n (block ++ more) = rest n more := by
  have hskip : n * (more.length / n + 1) = block.length + n * (more.length / n) := by rw [h]; ring
  rw [rest, div_of_block hn h, hskip, List.drop_append, List.drop_of_length_le (by omega), List.nil_append,
    Nat.add_sub_cancel_left, rest]

/-- A chaining value with the letters that wait for their block. -/
structure Pending (σ α : Type*) where
  chain : σ
  letters : List α

namespace Pending

/-- The next letter, and with the last of a block the block. -/
def push (compress : σ → List α → σ) (n : Nat) (p : Pending σ α) (a : α) : Pending σ α :=
  if p.letters.length + 1 = n then ⟨compress p.chain (p.letters ++ [a]), []⟩ else ⟨p.chain, p.letters ++ [a]⟩

variable {compress : σ → List α → σ}

/-- Fewer letters than the block has room for are only kept. -/
theorem foldl_push_short {p : Pending σ α} {letters : List α} (h : p.letters.length + letters.length < n) :
    letters.foldl (push compress n) p = ⟨p.chain, p.letters ++ letters⟩ := by
  induction letters generalizing p with
  | nil => simp
  | cons a letters ih =>
    rw [List.length_cons] at h
    rw [List.foldl_cons, push, if_neg (by omega), ih (by simp; omega)]
    simp

/-- The letters that fill the block. -/
theorem foldl_push_full {p : Pending σ α} {letters : List α} (hne : letters ≠ []) (h : p.letters.length + letters.length = n) :
    letters.foldl (push compress n) p = ⟨compress p.chain (p.letters ++ letters), []⟩ := by
  obtain ⟨front, a, rfl⟩ := (List.eq_nil_or_concat' letters).resolve_left hne
  rw [List.length_append, List.length_singleton] at h
  have hfront : front.foldl (push compress n) p = ⟨p.chain, p.letters ++ front⟩ := foldl_push_short (by omega)
  have hlast : (p.letters ++ front).length + 1 = n := by
    rw [List.length_append]
    omega
  rw [List.foldl_append, hfront, List.foldl_cons, List.foldl_nil, push, if_pos hlast, List.append_assoc]

/-- Letter by letter, the blocks of the message are compressed in their order and the rest waits. -/
theorem foldl_push (hn : 0 < n) (chain : σ) (message : List α) :
    message.foldl (push compress n) ⟨chain, []⟩ = ⟨(blocks n message).foldl compress chain, rest n message⟩ := by
  induction hlength : message.length using Nat.strong_induction_on generalizing chain message with
  | _ length ih =>
    subst hlength
    by_cases hshort : message.length < n
    · rw [foldl_push_short (by simpa using hshort), blocks_of_short hshort, rest_of_short hshort]
      rfl
    · have htake : (message.take n).length = n := by
        rw [List.length_take]
        omega
      have hless : (message.drop n).length < message.length := by
        rw [List.length_drop]
        omega
      have hne : message.take n ≠ [] := List.ne_nil_of_length_pos (by omega)
      have hfull : (message.take n).foldl (push compress n) ⟨chain, []⟩ = ⟨compress chain (message.take n), []⟩ :=
        foldl_push_full hne (by rw [List.length_nil, htake, Nat.zero_add])
      have hmessage : message = message.take n ++ message.drop n := (List.take_append_drop n message).symm
      calc
        _ = (message.drop n).foldl (push compress n) ⟨compress chain (message.take n), []⟩ := by
          conv_lhs => rw [hmessage, List.foldl_append, hfull]
        _ = ⟨(blocks n (message.drop n)).foldl compress (compress chain (message.take n)), rest n (message.drop n)⟩ :=
          ih _ hless _ _ rfl
        _ = _ := by
          conv_rhs => rw [hmessage, blocks_block hn htake, rest_block hn htake, List.foldl_cons]

end Pending

/-- A message that goes on is hashed from where its front left off. -/
theorem foldl_blocks_append {compress : σ → List α → σ} (hn : 0 < n) (chain : σ) (message more : List α) :
    (blocks n (message ++ more)).foldl compress chain =
      (blocks n (rest n message ++ more)).foldl compress ((blocks n message).foldl compress chain) := by
  have hshort : (rest n message).length < n := by
    rw [length_rest]
    exact Nat.mod_lt _ hn
  let front := (blocks n message).foldl compress chain
  have hrest : (rest n message).foldl (Pending.push compress n) ⟨front, []⟩ = ⟨front, rest n message⟩ :=
    Pending.foldl_push_short (by simpa using hshort)
  have hboth : (message ++ more).foldl (Pending.push compress n) ⟨chain, []⟩ =
      (rest n message ++ more).foldl (Pending.push compress n) ⟨front, []⟩ := by
    rw [List.foldl_append, List.foldl_append, hrest, Pending.foldl_push hn]
  rw [Pending.foldl_push hn, Pending.foldl_push hn] at hboth
  exact congrArg Pending.chain hboth

end SlsteamMoon.IteratedHash
