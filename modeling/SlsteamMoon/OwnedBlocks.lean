import Mathlib.Logic.Function.Basic
import SlsteamMoon.CheckedReads

/-! Programs over memory that consists of blocks. An access outside of every block has no outcome, and each access that
is made is recorded. -/
namespace SlsteamMoon.OwnedBlocks
open CheckedReads

variable {A α β γ : Type}

inductive Access (A : Type) where
  | read (address : A) (off n : Nat)
  | write (address : A) (off n : Nat)
  | alloc (address : A) (n : Nat)
  | free (address : A)

/-- The blocks by their first address, and the accesses so far. -/
structure Heap (A α : Type) where
  blocks : A → Option (List α)
  trace : List (Access A)

def Heap.note (h : Heap A α) (access : Access A) : Heap A α := { h with trace := h.trace ++ [access] }

structure Prog (A α β : Type) where
  run : Heap A α → Option (β × Heap A α)

instance : Monad (Prog A α) where
  pure b := ⟨fun h => some (b, h)⟩
  bind p f := ⟨fun h => (p.run h).bind fun outcome => (f outcome.1).run outcome.2⟩

theorem run_pure (b : β) (h : Heap A α) : (pure b : Prog A α β).run h = some (b, h) := rfl

/-- The rule of sequence. -/
theorem run_bind {p : Prog A α β} {f : β → Prog A α γ} {h h' : Heap A α} {b : β} (hp : p.run h = some (b, h')) :
    (p >>= f).run h = (f b).run h' := by
  have hbind : (p >>= f).run h = (p.run h).bind fun outcome => (f outcome.1).run outcome.2 := rfl
  rw [hbind, hp, Option.bind_some]

/-- The list with these values from the offset on. -/
def overwrite (xs : List α) (off : Nat) (ys : List α) : List α := xs.take off ++ ys ++ xs.drop (off + ys.length)

/-- Writing goes on where what has been written ends. -/
theorem overwrite_append {front ys rest : List α} {off : Nat} (hoff : front.length = off) :
    overwrite (front ++ rest) off ys = (front ++ ys) ++ rest.drop ys.length := by
  subst hoff
  rw [overwrite, List.take_left, ← List.drop_drop, List.drop_left]

def load (a : A) (off n : Nat) : Prog A α (List α) where
  run h :=
    match h.blocks a with
    | none => none
    | some xs => if off + n ≤ xs.length then some (slice xs off n, h.note (.read a off n)) else none

section
variable {a : A} {xs ys : List α} {off n : Nat} {h : Heap A α}

theorem run_load (hblock : h.blocks a = some xs) (hinside : off + n ≤ xs.length) :
    (load a off n).run h = some (slice xs off n, h.note (.read a off n)) := by
  simp only [load, hblock]
  exact if_pos hinside

variable [DecidableEq A]

def Heap.put (h : Heap A α) (a : A) (block : Option (List α)) (access : Access A) : Heap A α where
  blocks := Function.update h.blocks a block
  trace := h.trace ++ [access]

def store (a : A) (off : Nat) (ys : List α) : Prog A α Unit where
  run h :=
    match h.blocks a with
    | none => none
    | some xs =>
      if off + ys.length ≤ xs.length then some ((), h.put a (some (overwrite xs off ys)) (.write a off ys.length))
      else none

/-- The allocator answers with an address and what happens to stand there. -/
def alloc (allocator : (A → Option (List α)) → Nat → Option (A × List α)) (n : Nat) : Prog A α (Option A) where
  run h :=
    match allocator h.blocks n with
    | none => some (none, h)
    | some (a, xs) => some (some a, h.put a (some xs) (.alloc a n))

/-- Only a block can be freed. -/
def free (a : A) : Prog A α Unit where
  run h :=
    match h.blocks a with
    | none => none
    | some _ => some ((), h.put a none (.free a))

theorem run_store (hblock : h.blocks a = some xs) (hinside : off + ys.length ≤ xs.length) :
    (store a off ys).run h = some ((), h.put a (some (overwrite xs off ys)) (.write a off ys.length)) := by
  simp only [store, hblock]
  exact if_pos hinside

theorem run_alloc_none {allocator : (A → Option (List α)) → Nat → Option (A × List α)}
    (hnone : allocator h.blocks n = none) : (alloc allocator n).run h = some (none, h) := by
  simp only [alloc, hnone]

theorem run_alloc_some {allocator : (A → Option (List α)) → Nat → Option (A × List α)}
    (hsome : allocator h.blocks n = some (a, xs)) :
    (alloc allocator n).run h = some (some a, h.put a (some xs) (.alloc a n)) := by
  simp only [alloc, hsome]

theorem run_free (hblock : h.blocks a = some xs) : (free a).run h = some ((), h.put a none (.free a)) := by
  simp only [free, hblock]

end
end SlsteamMoon.OwnedBlocks
