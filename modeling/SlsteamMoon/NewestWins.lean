import Mathlib.Data.List.Basic
import Mathlib.Order.Basic

/-! A map that holds one value a key and is offered others: the newer of two values
of one key stays, and an offer names the value that had to go. -/
namespace SlsteamMoon.NewestWins
open Std

variable {κ ν : Type} [Ord κ]

/-- `replaces current incoming` lets the incoming value take the place; of two values
one at least may replace the other. -/
structure Rule (κ ν : Type) where
  key : ν → κ
  replaces : ν → ν → Bool
  total : ∀ current incoming, replaces current incoming = false → replaces incoming current = true

namespace Rule

/-- The map after the offer, and the losing value beside the one that stays. -/
def offer (r : Rule κ ν) (held : TreeMap κ ν) (x : ν) : TreeMap κ ν × Option (ν × ν) :=
  match held[r.key x]? with
  | none => (held.insert (r.key x) x, none)
  | some found =>
    if r.replaces found x then (held.insert (r.key x) x, some (found, x)) else (held, some (x, found))

/-- The offers in turn, with all the losses. -/
def offerAll (r : Rule κ ν) (held : TreeMap κ ν) : List ν → TreeMap κ ν × List (ν × ν)
  | [] => (held, [])
  | x :: xs =>
    let (next, loss) := r.offer held x
    let (final, losses) := r.offerAll next xs
    (final, loss.toList ++ losses)

/-- The value stands under its own key. -/
def Has (r : Rule κ ν) (held : TreeMap κ ν) (x : ν) : Prop := held[r.key x]? = some x

instance [DecidableEq ν] (r : Rule κ ν) (held : TreeMap κ ν) (x : ν) : Decidable (r.Has held x) :=
  inferInstanceAs (Decidable (_ = _))

/-- The map holds a value under no key but its own. -/
def Keyed (r : Rule κ ν) (held : TreeMap κ ν) : Prop := ∀ k x, held[k]? = some x → r.key x = k

/-- A loss gives way to a value of its key that may replace it. -/
def Fair (r : Rule κ ν) (loss : ν × ν) : Prop :=
  r.key loss.2 = r.key loss.1 ∧ r.replaces loss.1 loss.2 = true

/-- What an offer can do. -/
theorem offer_cases (r : Rule κ ν) (held : TreeMap κ ν) (x : ν) :
    (held[r.key x]? = none ∧ r.offer held x = (held.insert (r.key x) x, none)) ∨
      ∃ found, held[r.key x]? = some found ∧
        (r.replaces found x = true ∧ r.offer held x = (held.insert (r.key x) x, some (found, x)) ∨
          r.replaces found x = false ∧ r.offer held x = (held, some (x, found))) := by
  rw [offer]
  cases hfound : held[r.key x]? with
  | none => exact .inl ⟨rfl, rfl⟩
  | some found =>
    refine .inr ⟨found, rfl, ?_⟩
    cases hreplaces : r.replaces found x with
    | true => exact .inl ⟨rfl, by simp only [hreplaces, if_true]⟩
    | false => exact .inr ⟨rfl, by simp only [hreplaces, Bool.false_eq_true, if_false]⟩

theorem offer_fair {r : Rule κ ν} {held : TreeMap κ ν} (h : r.Keyed held) {x : ν}
    {loss : ν × ν} (hloss : loss ∈ (r.offer held x).2) : r.Fair loss := by
  obtain ⟨-, heq⟩ | ⟨found, hfound, ⟨hreplaces, heq⟩ | ⟨hreplaces, heq⟩⟩ := offer_cases r held x <;>
    rw [heq] at hloss
  · cases hloss
  · cases hloss
    exact ⟨(h _ _ hfound).symm, hreplaces⟩
  · cases hloss
    exact ⟨h _ _ hfound, r.total _ _ hreplaces⟩

section
variable [TransOrd κ] {r : Rule κ ν} {held : TreeMap κ ν} {x y : ν}

theorem keyed_empty : r.Keyed ∅ := by
  intro k x hx
  rw [TreeMap.getElem?_emptyc] at hx
  cases hx

theorem has_insert : r.Has (held.insert (r.key x) x) x := TreeMap.getElem?_insert_self

/-- The offered value is taken or is the loss. -/
theorem has_offer (r : Rule κ ν) (held : TreeMap κ ν) (x : ν) :
    r.Has (r.offer held x).1 x ∨ ∃ winner, (x, winner) ∈ (r.offer held x).2 := by
  obtain ⟨-, heq⟩ | ⟨found, -, ⟨-, heq⟩ | ⟨-, heq⟩⟩ := offer_cases r held x <;> rw [heq]
  · exact .inl has_insert
  · exact .inl has_insert
  · exact .inr ⟨found, rfl⟩

variable [LawfulEqOrd κ]

theorem Has.insert (h : r.Has held x) (hkey : r.key y ≠ r.key x) : r.Has (held.insert (r.key y) y) x := by
  rw [Has, TreeMap.getElem?_insert, if_neg (by simpa using hkey)]
  exact h

theorem Keyed.insert (h : r.Keyed held) : r.Keyed (held.insert (r.key y) y) := by
  intro k x hx
  rw [TreeMap.getElem?_insert] at hx
  split at hx
  · rename_i hcmp
    cases hx
    exact LawfulEqCmp.eq_of_compare hcmp
  · exact h k x hx

theorem offer_keyed (h : r.Keyed held) : r.Keyed (r.offer held x).1 := by
  obtain ⟨-, heq⟩ | ⟨found, -, ⟨-, heq⟩ | ⟨-, heq⟩⟩ := offer_cases r held x <;> rw [heq]
  · exact h.insert
  · exact h.insert
  · exact h

/-- A value that was there stays or is the loss. -/
theorem Has.offer (h : r.Has held x) (y : ν) :
    r.Has (r.offer held y).1 x ∨ ∃ winner, (x, winner) ∈ (r.offer held y).2 := by
  obtain ⟨habsent, heq⟩ | ⟨found, hfound, ⟨-, heq⟩ | ⟨-, heq⟩⟩ := offer_cases r held y <;> rw [heq]
  · refine .inl (h.insert fun hkey => ?_)
    rw [hkey, h] at habsent
    cases habsent
  · by_cases hkey : r.key y = r.key x
    · rw [hkey, h] at hfound
      cases hfound
      exact .inr ⟨y, rfl⟩
    · exact .inl (h.insert hkey)
  · exact .inl h

theorem offerAll_keyed (h : r.Keyed held) (xs : List ν) : r.Keyed (r.offerAll held xs).1 := by
  induction xs generalizing held with
  | nil => exact h
  | cons x xs ih => exact ih (offer_keyed h)

theorem offerAll_fair (h : r.Keyed held) (xs : List ν) : ∀ loss ∈ (r.offerAll held xs).2, r.Fair loss := by
  induction xs generalizing held with
  | nil =>
    intro loss hloss
    cases hloss
  | cons x xs ih =>
    intro loss hloss
    obtain hfirst | hrest := List.mem_append.mp hloss
    · exact offer_fair h (Option.mem_toList.mp hfirst)
    · exact ih (offer_keyed h) loss hrest

theorem Has.offerAll (h : r.Has held x) (xs : List ν) :
    r.Has (r.offerAll held xs).1 x ∨ ∃ winner, (x, winner) ∈ (r.offerAll held xs).2 := by
  induction xs generalizing held with
  | nil => exact .inl h
  | cons y ys ih =>
    obtain hkept | ⟨winner, hlost⟩ := h.offer y
    · obtain hkept | ⟨winner, hlost⟩ := ih hkept
      · exact .inl hkept
      · exact .inr ⟨winner, List.mem_append_right _ hlost⟩
    · exact .inr ⟨winner, List.mem_append_left _ (Option.mem_toList.mpr hlost)⟩

/-- Each of the offered values is in the map at the end or among the losses. -/
theorem has_offerAll (held : TreeMap κ ν) {xs : List ν} (hx : x ∈ xs) :
    r.Has (r.offerAll held xs).1 x ∨ ∃ winner, (x, winner) ∈ (r.offerAll held xs).2 := by
  induction xs generalizing held with
  | nil => cases hx
  | cons y ys ih =>
    obtain hsettled : r.Has (r.offer held y).1 x ∨ x ∈ ys ∨ ∃ winner, (x, winner) ∈ (r.offer held y).2 := by
      obtain rfl | hx := List.mem_cons.mp hx
      · exact (has_offer r held x).imp_right .inr
      · exact .inr (.inl hx)
    have hlast : r.Has (r.offerAll (r.offer held y).1 ys).1 x ∨
        ∃ winner, (x, winner) ∈ (r.offerAll (r.offer held y).1 ys).2 ∨ (x, winner) ∈ (r.offer held y).2 := by
      obtain hkept | hlater | ⟨winner, hlost⟩ := hsettled
      · exact (hkept.offerAll ys).imp_right fun ⟨winner, hlost⟩ => ⟨winner, .inl hlost⟩
      · exact (ih _ hlater).imp_right fun ⟨winner, hlost⟩ => ⟨winner, .inl hlost⟩
      · exact .inr ⟨winner, .inr hlost⟩
    refine hlast.imp_right fun ⟨winner, hlost⟩ => ⟨winner, ?_⟩
    obtain hlost | hlost := hlost
    · exact List.mem_append_right _ hlost
    · exact List.mem_append_left _ (Option.mem_toList.mpr hlost)

end
end Rule
end SlsteamMoon.NewestWins
