import Mathlib.Data.List.Basic
import Mathlib.Order.Basic
import Mathlib.Data.Nat.Init

/-! Runs of deterministic labelled steps. An event carries every choice of the
environment, so a schedule is a list of events and a run is its execution. -/
namespace SlsteamMoon.Runs

variable {σ ε : Type*}

/-- A step function answers none when the event is not enabled. -/
abbrev Step (σ ε : Type*) := σ → ε → Option σ

/-- Execute a schedule; a disabled event has no run. -/
def exec (step : Step σ ε) : σ → List ε → Option σ
  | s, [] => some s
  | s, e :: es => (step s e).bind fun t => exec step t es

/-- Every event of the schedule meets the condition in the state it is taken from. -/
def Meets (step : Step σ ε) (ok : σ → ε → Prop) : σ → List ε → Prop
  | _, [] => True
  | s, e :: es => ok s e ∧ ∀ t, step s e = some t → Meets step ok t es

@[simp] theorem exec_nil (step : Step σ ε) (s : σ) : exec step s [] = some s := rfl

@[simp] theorem exec_cons (step : Step σ ε) (s : σ) (e : ε) (es : List ε) :
    exec step s (e :: es) = (step s e).bind fun t => exec step t es := rfl

@[simp] theorem meets_nil (step : Step σ ε) (ok : σ → ε → Prop) (s : σ) : Meets step ok s [] := trivial

@[simp] theorem meets_cons (step : Step σ ε) (ok : σ → ε → Prop) (s : σ) (e : ε) (es : List ε) :
    Meets step ok s (e :: es) ↔ ok s e ∧ ∀ t, step s e = some t → Meets step ok t es := Iff.rfl

/-- The condition along a run whose steps are known. -/
theorem Meets.step {step : Step σ ε} {ok : σ → ε → Prop} {s t : σ} {e : ε} {es : List ε}
    (hs : step s e = some t) (he : ok s e) (hes : Meets step ok t es) : Meets step ok s (e :: es) :=
  ⟨he, fun u hu => by rwa [← Option.some.inj (hs.symm.trans hu)]⟩

/-- A decidable condition can be checked along a schedule. -/
instance decidableMeets (step : Step σ ε) (ok : σ → ε → Prop) [∀ s e, Decidable (ok s e)] :
    (s : σ) → (es : List ε) → Decidable (Meets step ok s es)
  | _, [] => .isTrue trivial
  | s, e :: es =>
    match hs : step s e with
    | none => decidable_of_iff (ok s e) ⟨fun he => ⟨he, fun t ht => by simp [hs] at ht⟩, And.left⟩
    | some t =>
      have := decidableMeets step ok t es
      decidable_of_iff (ok s e ∧ Meets step ok t es)
        ⟨fun h => .step hs h.1 h.2, fun h => ⟨h.1, h.2 t hs⟩⟩

theorem exec_append (step : Step σ ε) (s : σ) (first second : List ε) :
    exec step s (first ++ second) = (exec step s first).bind fun t => exec step t second := by
  induction first generalizing s with
  | nil => rfl
  | cons e es ih => simp only [List.cons_append, exec_cons, Option.bind_assoc, ih]

theorem meets_append (step : Step σ ε) (ok : σ → ε → Prop) (s : σ) (first second : List ε) :
    Meets step ok s (first ++ second) ↔
      Meets step ok s first ∧ ∀ t, exec step s first = some t → Meets step ok t second := by
  induction first generalizing s with
  | nil => simp
  | cons e es ih =>
    simp only [List.cons_append, meets_cons, exec_cons, ih, Option.bind_eq_some_iff]
    constructor
    · rintro ⟨he, hes⟩
      exact ⟨⟨he, fun t ht => (hes t ht).1⟩, fun t ⟨u, hu, ht⟩ => (hes u hu).2 t ht⟩
    · rintro ⟨⟨he, hes⟩, hrest⟩
      exact ⟨he, fun t ht => ⟨hes t ht, fun u hu => hrest u ⟨t, ht, hu⟩⟩⟩

/-- The condition of a run, read off its splits. -/
theorem meets_iff_splits (step : Step σ ε) (ok : σ → ε → Prop) (s : σ) (es : List ε) :
    Meets step ok s es ↔ ∀ first e rest, es = first ++ e :: rest →
      ∀ t, exec step s first = some t → ok t e := by
  constructor
  · rintro h first e rest rfl t ht
    exact (((meets_append step ok s first (e :: rest)).mp h).2 t ht).1
  · intro h
    induction es generalizing s with
    | nil => trivial
    | cons e es ih =>
      refine ⟨h [] e es rfl s rfl, fun t ht => ih t fun first e' rest hsplit u hu => ?_⟩
      exact h (e :: first) e' rest (by simp [hsplit]) u (by simp [ht, hu])

theorem Meets.mono {step : Step σ ε} {ok weaker : σ → ε → Prop} (h : ∀ s e, ok s e → weaker s e) {s : σ}
    {es : List ε} (hes : Meets step ok s es) : Meets step weaker s es := by
  induction es generalizing s with
  | nil => trivial
  | cons e es ih => exact ⟨h s e hes.1, fun t ht => ih (hes.2 t ht)⟩

/-- A property of every event needs no look at the states between. -/
theorem meets_of_forall {step : Step σ ε} {ok : σ → ε → Prop} {es : List ε}
    (h : ∀ e ∈ es, ∀ s, ok s e) (s : σ) : Meets step ok s es := by
  induction es generalizing s with
  | nil => trivial
  | cons e es ih =>
    exact ⟨h e (by simp) s, fun t _ => ih (fun e' he' => h e' (by simp [he'])) t⟩

/-- Events of one kind keep an invariant under which each of them meets the
condition. -/
theorem meets_of_preserved {step : Step σ ε} {ok : σ → ε → Prop} {P : σ → Prop} {kind : ε → Prop}
    (hstep : ∀ s e t, P s → kind e → step s e = some t → P t) (hok : ∀ s e, P s → kind e → ok s e)
    {s : σ} {es : List ε} (hs : P s) (hes : ∀ e ∈ es, kind e) : Meets step ok s es := by
  induction es generalizing s with
  | nil => trivial
  | cons e es ih =>
    have he : kind e := hes e (by simp)
    exact ⟨hok s e hs he, fun t ht => ih (hstep s e t hs he ht) fun e' he' => hes e' (by simp [he'])⟩

theorem Meets.and {step : Step σ ε} {ok ok' : σ → ε → Prop} {s : σ} {es : List ε} (h : Meets step ok s es)
    (h' : Meets step ok' s es) : Meets step (fun s e => ok s e ∧ ok' s e) s es := by
  induction es generalizing s with
  | nil => trivial
  | cons e es ih => exact ⟨⟨h.1, h'.1⟩, fun t ht => ih (h.2 t ht) (h'.2 t ht)⟩

/-- A condition that keeps an invariant yields along the run what the two give at
each step. -/
theorem Meets.of_invariant {step : Step σ ε} {ok good : σ → ε → Prop} {P : σ → Prop}
    (hstep : ∀ s e t, P s → ok s e → step s e = some t → P t) (hgood : ∀ s e, P s → ok s e → good s e)
    {s : σ} {es : List ε} (hs : P s) (hes : Meets step ok s es) : Meets step good s es := by
  induction es generalizing s with
  | nil => trivial
  | cons e es ih => exact ⟨hgood s e hs hes.1, fun t ht => ih (hstep s e t hs hes.1 ht) (hes.2 t ht)⟩

/-- What one conditioned step preserves, a conditioned run preserves. -/
theorem exec_invariant {step : Step σ ε} {ok : σ → ε → Prop} {P : σ → Prop}
    (hstep : ∀ s e t, P s → ok s e → step s e = some t → P t) {s t : σ} {es : List ε}
    (hs : P s) (hes : Meets step ok s es) (he : exec step s es = some t) : P t := by
  induction es generalizing s with
  | nil =>
    cases he
    exact hs
  | cons e es ih =>
    obtain ⟨u, hu, ht⟩ := Option.bind_eq_some_iff.mp he
    exact ih (hstep s e u hs hes.1 hu) (hes.2 u hu) ht

/-- The same with no condition on the steps. -/
theorem exec_preserves {step : Step σ ε} {P : σ → Prop}
    (hstep : ∀ s e t, P s → step s e = some t → P t) {s t : σ} {es : List ε}
    (hs : P s) (he : exec step s es = some t) : P t := by
  have hall : Meets step (fun _ _ => True) s es := meets_of_forall (fun _ _ _ => trivial) s
  exact exec_invariant (fun s e t h _ => hstep s e t h) hs hall he

/-- Two schedules whose events lead to the same state from every state of an
invariant, pair by pair, run to the same state. -/
theorem exec_unwinding {step : Step σ ε} {ok : σ → ε → Prop} {P : σ → Prop} {alike : ε → ε → Prop}
    (hstep : ∀ s e t, P s → ok s e → step s e = some t → P t)
    (hsame : ∀ s e e' t t', P s → ok s e → alike e e' → step s e = some t → step s e' = some t' → t' = t)
    {s t t' : σ} {es es' : List ε} (hs : P s) (hes : Meets step ok s es) (halike : List.Forall₂ alike es es')
    (he : exec step s es = some t) (he' : exec step s es' = some t') : t' = t := by
  induction halike generalizing s with
  | nil => exact Option.some.inj (he'.symm.trans he)
  | cons hevent _ ih =>
    obtain ⟨u, hu, ht⟩ := Option.bind_eq_some_iff.mp he
    obtain ⟨u', hu', ht'⟩ := Option.bind_eq_some_iff.mp he'
    obtain rfl := hsame s _ _ u u' hs hes.1 hevent hu hu'
    exact ih (hstep s _ u' hs hes.1 hu) (hes.2 u' hu) ht ht'

/-! A state made of parts, one of which changes or comes new. -/

theorem part_set_cases {α : Type*} {parts : List α} {i j : Nat} {a b : α} (h : (parts.set i a)[j]? = some b) :
    i = j ∧ b = a ∨ i ≠ j ∧ parts[j]? = some b := by
  by_cases hij : i = j
  · subst hij
    have hlength : i < (parts.set i a).length := (List.getElem?_eq_some_iff.mp h).1
    rw [List.getElem?_set_self (by simpa using hlength)] at h
    exact .inl ⟨rfl, (Option.some.inj h).symm⟩
  · rw [List.getElem?_set_ne hij] at h
    exact .inr ⟨hij, h⟩

theorem part_concat_cases {α : Type*} {parts : List α} {j : Nat} {a b : α} (h : (parts ++ [a])[j]? = some b) :
    j = parts.length ∧ b = a ∨ j < parts.length ∧ parts[j]? = some b := by
  rcases Nat.lt_or_ge j parts.length with hj | hj
  · rw [List.getElem?_append_left hj] at h
    exact .inr ⟨hj, h⟩
  · have hlength : j < (parts ++ [a]).length := (List.getElem?_eq_some_iff.mp h).1
    obtain rfl : j = parts.length := by
      rw [List.length_append, List.length_singleton] at hlength
      omega
    rw [List.getElem?_concat_length] at h
    exact .inl ⟨rfl, (Option.some.inj h).symm⟩

end SlsteamMoon.Runs

/-! Runs without an end, and what has to happen in them when no enabled event is put off for ever. -/
namespace SlsteamMoon.FairRuns
open Runs

variable {σ ε : Type*} {step : Step σ ε}

/-- A run in which nothing may happen at a moment. -/
structure Endless (step : Step σ ε) where
  state : Nat → σ
  event : Nat → Option ε
  quiet : ∀ n, event n = none → state (n + 1) = state n
  steps : ∀ n e, event n = some e → step (state n) e = some (state (n + 1))

namespace Endless
variable {r : Endless step}

/-- An event of the kind happens at the moment. -/
def Happens (r : Endless step) (kind : ε → Prop) (n : Nat) : Prop := ∃ e, r.event n = some e ∧ kind e

/-- Where events of the kind stay enabled from some moment on, one happens. -/
def Fair (r : Endless step) (enabled : σ → Prop) (kind : ε → Prop) : Prop :=
  ∀ n, (∀ m, n ≤ m → enabled (r.state m)) → ∃ m, n ≤ m ∧ r.Happens kind m

theorem Fair.mono {enabled enabled' : σ → Prop} {kind kind' : ε → Prop} (h : r.Fair enabled kind)
    (henabled : ∀ s, enabled' s → enabled s) (hkind : ∀ e, kind e → kind' e) : r.Fair enabled' kind' := by
  intro n hn
  obtain ⟨m, hm, e, hevent, he⟩ := h n fun m hm => henabled _ (hn m hm)
  exact ⟨m, hm, e, hevent, hkind e he⟩

/-- What every step keeps holds from its first moment on. -/
theorem holds_from {P : σ → Prop} (hstep : ∀ s e t, P s → step s e = some t → P t) {n : Nat} (h : P (r.state n)) {m : Nat}
    (hm : n ≤ m) : P (r.state m) := by
  induction m, hm using Nat.le_induction with
  | base => exact h
  | succ m _ ih =>
    cases hevent : r.event m with
    | none =>
      rw [r.quiet m hevent]
      exact ih
    | some e => exact hstep _ e _ ih (r.steps m e hevent)

/-- The same for a run all of whose events meet a condition. -/
theorem holds_of_events {P : σ → Prop} {C : σ → ε → Prop} (hok : ∀ n e, r.event n = some e → C (r.state n) e)
    (hstep : ∀ s e t, P s → C s e → step s e = some t → P t) (h : P (r.state 0)) (n : Nat) : P (r.state n) := by
  induction n with
  | zero => exact h
  | succ n ih =>
    cases hevent : r.event n with
    | none =>
      rw [r.quiet n hevent]
      exact ih
    | some e => exact hstep _ e _ ih (hok n e hevent) (r.steps n e hevent)

/-- What only events of a kind can end, and what enables them, lasts until one of them happens. -/
theorem happens_of_lasts {P Q : σ → Prop} {K : ε → Prop} (hinv : ∀ n, Q (r.state n)) (hfair : r.Fair P K)
    (hlasts : ∀ s e t, Q s → P s → ¬K e → step s e = some t → P t) {n : Nat} (h : P (r.state n)) :
    ∃ m, n ≤ m ∧ P (r.state m) ∧ r.Happens K m := by
  by_contra hnever
  have hall : ∀ m, n ≤ m → P (r.state m) := by
    intro m hm
    induction m, hm using Nat.le_induction with
    | base => exact h
    | succ m hm ih =>
      cases hevent : r.event m with
      | none =>
        rw [r.quiet m hevent]
        exact ih
      | some e =>
        have hother : ¬K e := fun hkind => hnever ⟨m, hm, ih, e, hevent, hkind⟩
        exact hlasts _ e _ (hinv m) ih hother (r.steps m e hevent)
  obtain ⟨m, hm, hhappens⟩ := hfair n hall
  exact hnever ⟨m, hm, hall m hm, hhappens⟩

/-- Where the work lowers a measure that nothing else raises, fairness to the work ends what it is about. -/
theorem settles {busy : σ → Prop} {work : ε → Prop} (measure : σ → Nat) (hfair : r.Fair busy work) {n : Nat}
    (hwork : ∀ m e, n ≤ m → r.event m = some e → work e → measure (r.state (m + 1)) < measure (r.state m))
    (hother : ∀ m e, n ≤ m → r.event m = some e → ¬work e → measure (r.state (m + 1)) ≤ measure (r.state m)) :
    ∃ m, n ≤ m ∧ ¬busy (r.state m) := by
  induction hbound : measure (r.state n) using Nat.strong_induction_on generalizing n with
  | _ bound ih =>
    subst hbound
    by_contra hnever
    have hbusy : ∀ m, n ≤ m → busy (r.state m) := fun m hm => by_contra fun hidle => hnever ⟨m, hm, hidle⟩
    obtain ⟨m, hm, e, hevent, he⟩ := hfair n hbusy
    have hle : measure (r.state m) ≤ measure (r.state n) := by
      clear hevent
      induction m, hm using Nat.le_induction with
      | base => exact Nat.le_refl _
      | succ k hk ihk =>
        cases hk' : r.event k with
        | none => exact r.quiet k hk' ▸ ihk
        | some e' =>
          by_cases he' : work e'
          · exact Nat.le_trans (Nat.le_of_lt (hwork k e' hk hk' he')) ihk
          · exact Nat.le_trans (hother k e' hk hk' he') ihk
    have hless := Nat.lt_of_lt_of_le (hwork m e hm hevent he) hle
    obtain ⟨k, hk, hidle⟩ := ih _ hless (fun k e' hk => hwork k e' (by omega)) (fun k e' hk => hother k e' (by omega)) rfl
    exact hnever ⟨k, by omega, hidle⟩

/-- A run that does nothing behind its last event. -/
def finite (step : Step σ ε) (s t : σ) (es : List ε) (hrun : exec step s es = some t) : Endless step where
  state n := (exec step s (es.take n)).getD t
  event n := es[n]?
  quiet n hnone := by
    rw [List.take_of_length_le (Nat.le_succ_of_le (List.getElem?_eq_none_iff.mp hnone)),
      List.take_of_length_le (List.getElem?_eq_none_iff.mp hnone)]
  steps n e hevent := by
    obtain ⟨hn, rfl⟩ := List.getElem?_eq_some_iff.mp hevent
    have hsplit : es = es.take n ++ es[n] :: es.drop (n + 1) := by
      rw [List.getElem_cons_drop, List.take_append_drop]
    rw [hsplit, exec_append] at hrun
    obtain ⟨u, hu, hrest⟩ := Option.bind_eq_some_iff.mp hrun
    obtain ⟨v, hv, -⟩ := Option.bind_eq_some_iff.mp hrest
    rw [List.take_add_one, hevent, exec_append, hu]
    simp [hv]

@[simp] theorem finite_zero (s t : σ) (es : List ε) (hrun : exec step s es = some t) :
    (finite step s t es hrun).state 0 = s := by
  simp [finite]

theorem finite_of_le {s t : σ} {es : List ε} (hrun : exec step s es = some t) {n : Nat} (hn : es.length ≤ n) :
    (finite step s t es hrun).state n = t := by
  simp only [finite, List.take_of_length_le hn, hrun, Option.getD_some]

/-- It is fair to what its last state does not enable. -/
theorem finite_fair {s t : σ} {es : List ε} (hrun : exec step s es = some t) {enabled : σ → Prop} {kind : ε → Prop}
    (ht : ¬enabled t) : (finite step s t es hrun).Fair enabled kind := by
  intro n hn
  have hlast := hn (max n es.length) (Nat.le_max_left n es.length)
  rw [finite_of_le hrun (Nat.le_max_right n es.length)] at hlast
  exact absurd hlast ht

end Endless
end SlsteamMoon.FairRuns
