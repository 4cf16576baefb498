import Mathlib.Data.List.Basic
import Mathlib.Algebra.GroupWithZero.Nat

/-! Checked reads of a list at offsets of the reader's own choice: what stands at a place, and what a run of reads
and checks passes. -/
namespace SlsteamMoon.CheckedReads

variable {α : Type} {xs w w' : List α} {off n : Nat}

/-- The values from the offset on begin with these. -/
def StandsAt (xs : List α) (off : Nat) (w : List α) : Prop := w <+: xs.drop off

/-- One after the other. -/
theorem standsAt_append_iff : StandsAt xs off (w ++ w') ↔ StandsAt xs off w ∧ StandsAt xs (off + w.length) w' := by
  constructor
  · rintro ⟨rest, hrest⟩
    rw [List.append_assoc] at hrest
    refine ⟨⟨w' ++ rest, hrest⟩, rest, ?_⟩
    rw [← List.drop_drop, ← hrest, List.drop_left]
  · rintro ⟨⟨rest, hrest⟩, hnext⟩
    rw [StandsAt, ← List.drop_drop, ← hrest, List.drop_left] at hnext
    rw [StandsAt, ← hrest, List.prefix_append_right_inj]
    exact hnext

theorem StandsAt.unique (h : StandsAt xs off w) (h' : StandsAt xs off w') (hlength : w.length = w'.length) : w = w' :=
  (List.prefix_of_prefix_length_le h h' (Nat.le_of_eq hlength)).eq_of_length hlength

/-- What stands at a place, as far as the list goes. -/
def slice (xs : List α) (off n : Nat) : List α := (xs.drop off).take n

theorem length_slice (h : off + n ≤ xs.length) : (slice xs off n).length = n := by
  rw [slice, List.length_take, List.length_drop]
  omega

theorem standsAt_slice (xs : List α) (off n : Nat) : StandsAt xs off (slice xs off n) := List.take_prefix n _

theorem StandsAt.eq_slice (h : StandsAt xs off w) : w = slice xs off w.length := List.prefix_iff_eq_take.mp h

theorem exists_standsAt (h : off + n ≤ xs.length) : ∃ w, w.length = n ∧ StandsAt xs off w :=
  ⟨slice xs off n, length_slice h, standsAt_slice xs off n⟩

theorem standsAt_zero_iff (hlength : w.length = xs.length) : StandsAt xs 0 w ↔ w = xs := by
  constructor
  · intro h
    exact List.IsPrefix.eq_of_length h hlength
  · rintro rfl
    exact List.prefix_rfl

theorem standsAt_cons_iff {x : α} : StandsAt xs off (x :: w) ↔ xs[off]? = some x ∧ StandsAt xs (off + 1) w := by
  rw [StandsAt, StandsAt]
  obtain hlt | hle := Nat.lt_or_ge off xs.length
  · rw [List.drop_eq_getElem_cons hlt, List.cons_prefix_cons, List.getElem?_eq_getElem hlt, Option.some.injEq, eq_comm]
  · rw [List.drop_eq_nil_of_le hle, List.getElem?_eq_none hle, List.prefix_nil]
    exact iff_of_false (List.cons_ne_nil x w) fun h => Option.some_ne_none x h.1.symm

theorem length_le_of_standsAt (hw : w ≠ []) (h : StandsAt xs off w) : off + w.length ≤ xs.length := by
  have hpos := List.length_pos_of_ne_nil hw
  have hle := List.IsPrefix.length_le h
  rw [List.length_drop] at hle
  omega

/-- A read outside of the list, a refusal with its diagnostic, or a value. -/
inductive Check (δ α : Type) where
  | outside
  | refused (diagnostic : δ)
  | passed (value : α)

namespace Check

variable {δ β : Type} {c p q : Check δ Bool} {P Q : Prop}

instance : Monad (Check δ) where
  pure := passed
  bind c f := match c with
    | outside => outside
    | refused diagnostic => refused diagnostic
    | passed value => f value

def readAt (xs : List α) (i : Nat) : Check δ α :=
  match xs[i]? with
  | some x => passed x
  | none => outside

theorem readAt_eq {i : Nat} {x : α} (h : xs[i]? = some x) : (readAt xs i : Check δ α) = passed x := by
  rw [readAt, h]

/-- The second is looked at only when the first is false. -/
def either (p q : Check δ Bool) : Check δ Bool := do
  if ← p then return true else q

def differs [DecidableEq β] (read : Check δ β) (value : β) : Check δ Bool := do
  return (← read) ≠ value

def refuseIf (diagnostic : δ) (bad : Check δ Bool) : Check δ Unit := do
  if ← bad then refused diagnostic

@[simp] theorem passed_bind (b : β) (f : β → Check δ α) : passed b >>= f = f b := rfl

/-- Nothing is read outside, and the answer is false exactly when the statement holds. -/
def Guards (c : Check δ Bool) (P : Prop) : Prop := ∃ b, c = passed b ∧ (b = false ↔ P)

/-- Nothing is read outside, and the values that pass are those of the predicate. -/
structure Passes (c : Check δ α) (P : α → Prop) : Prop where
  inside : c ≠ outside
  iff : ∀ value, c = passed value ↔ P value

theorem guards_pure {b : Bool} (h : b = false ↔ P) : Guards (pure b : Check δ Bool) P := ⟨b, rfl, h⟩

theorem Guards.congr (h : Guards c P) (hiff : P ↔ Q) : Guards c Q := by
  obtain ⟨b, hb, hP⟩ := h
  exact ⟨b, hb, hP.trans hiff⟩

theorem Guards.either (hp : Guards p P) (hq : P → Guards q Q) : Guards (either p q) (P ∧ Q) := by
  obtain ⟨b, rfl, hb⟩ := hp
  cases b with
  | true => exact ⟨true, rfl, iff_of_false nofun fun h => nomatch hb.mpr h.1⟩
  | false =>
    obtain ⟨b', rfl, hb'⟩ := hq (hb.mp rfl)
    exact ⟨b', rfl, hb'.trans (and_iff_right (hb.mp rfl)).symm⟩

theorem guards_differs [DecidableEq β] {read : Check δ β} {b : β} (h : read = passed b) (value : β) :
    Guards (differs read value) (b = value) := by
  rw [h]
  exact ⟨decide (b ≠ value), rfl, by rw [decide_eq_false_iff_not, ne_eq, not_not]⟩

theorem Passes.congr {c : Check δ α} {P Q : α → Prop} (h : Passes c P) (hiff : ∀ value, P value ↔ Q value) : Passes c Q :=
  ⟨h.inside, fun value => (h.iff value).trans (hiff value)⟩

/-- The one value that passes, where a predicate has no other. -/
theorem passes_of_unique {c : Check δ α} {P : α → Prop} {a : α} (h : c = passed a) (ha : P a) (hP : ∀ b, P b → b = a) :
    Passes c P := by
  rw [h]
  refine ⟨nofun, fun b => ⟨?_, fun hb => by rw [hP b hb]⟩⟩
  rintro ⟨⟩
  exact ha

theorem passes_pure (a : α) : Passes (pure a : Check δ α) (· = a) :=
  passes_of_unique rfl rfl fun _ => id

theorem passes_refused (diagnostic : δ) : Passes (refused diagnostic : Check δ α) fun _ => False :=
  ⟨nofun, fun _ => ⟨nofun, False.elim⟩⟩

/-- A read and what comes after it. -/
theorem Passes.bind {c : Check δ β} {f : β → Check δ α} {P : β → Prop} {Q : β → α → Prop} (h : Passes c P)
    (hf : ∀ b, P b → Passes (f b) (Q b)) : Passes (c >>= f) fun a => ∃ b, P b ∧ Q b a := by
  cases c with
  | outside => exact absurd rfl h.inside
  | refused diagnostic =>
    refine (passes_refused diagnostic).congr fun a => iff_of_false id ?_
    rintro ⟨b, hb, -⟩
    exact nomatch (h.iff b).mpr hb
  | passed b =>
    have hb : P b := (h.iff b).mp rfl
    refine (hf b hb).congr fun a => ⟨fun hq => ⟨b, hb, hq⟩, ?_⟩
    rintro ⟨b', hb', hq⟩
    cases (h.iff b').mpr hb'
    exact hq

/-- What comes after a read decides whether something is read outside. -/
theorem Passes.bind_ne_outside_iff {c : Check δ β} {f : β → Check δ α} {P : β → Prop} (h : Passes c P) :
    c >>= f ≠ outside ↔ ∀ b, P b → f b ≠ outside := by
  cases c with
  | outside => exact absurd rfl h.inside
  | refused diagnostic => exact iff_of_true nofun fun b hb => nomatch (h.iff b).mpr hb
  | passed b =>
    refine ⟨fun hf b' hb' => ?_, fun hf => hf b ((h.iff b).mp rfl)⟩
    cases (h.iff b').mpr hb'
    exact hf

/-- A check and what comes after it. -/
theorem Guards.refuseIf (h : Guards c P) {f : Unit → Check δ α} {Q : α → Prop} (hf : P → Passes (f ()) Q) (diagnostic : δ) :
    Passes (refuseIf diagnostic c >>= f) fun a => P ∧ Q a := by
  obtain ⟨b, rfl, hb⟩ := h
  cases b with
  | true => exact (passes_refused diagnostic).congr fun a => iff_of_false id fun h => nomatch hb.mpr h.1
  | false => exact (hf (hb.mp rfl)).congr fun a => (and_iff_right (hb.mp rfl)).symm

theorem readAt_standsAt (h : StandsAt xs off w) (k : Nat) {x : α} (hk : w[k]? = some x) :
    (readAt xs (off + k) : Check δ α) = passed x := by
  obtain ⟨rest, hrest⟩ := h
  obtain ⟨hlt, -⟩ := List.getElem?_eq_some_iff.mp hk
  rw [readAt, ← List.getElem?_drop, ← hrest, List.getElem?_append_left hlt, hk]

end Check
end SlsteamMoon.CheckedReads
