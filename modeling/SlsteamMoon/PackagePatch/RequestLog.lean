import SlsteamMoon.PackagePatch.MergeSites

/-! The bookkeeping of app-info requests over the log of its calls. A request reserves under the mutex, asks Steam
without it and finishes under it again, so that a finish may come after a clear or after newer generations. -/
namespace SlsteamMoon.PackagePatch
open OwnerQueue Runs

namespace AppInfoRequestState

def clear (_ : AppInfoRequestState) : AppInfoRequestState := {}

/-- More than one generation behind the highest one. -/
def Stale (r : AppInfoRequestState) (generation : UInt64) : Prop :=
  generation < r.highestGeneration ∧ 1 < r.highestGeneration - generation

instance (r : AppInfoRequestState) (generation : UInt64) : Decidable (r.Stale generation) :=
  inferInstanceAs (Decidable (_ ∧ _))

theorem not_stale_iff (r : AppInfoRequestState) (generation : UInt64) :
    ¬r.Stale generation ↔ r.highestGeneration.toNat ≤ generation.toNat + 1 := by
  rw [Stale, UInt64.lt_iff_toNat_lt]
  by_cases hlt : generation.toNat < r.highestGeneration.toNat
  · have hle : generation ≤ r.highestGeneration := UInt64.le_iff_toNat_le.mpr hlt.le
    have hone : (1 : UInt64).toNat = 1 := rfl
    rw [UInt64.lt_iff_toNat_lt, UInt64.toNat_sub_of_le _ _ hle, hone]
    omega
  · omega

/-- Nothing is accepted outside the window. -/
def Windowed (r : AppInfoRequestState) : Prop := ∀ g id, id ∈ r.accepted g → ¬r.Stale g

private theorem mem_pruneAccepted (r : AppInfoRequestState) (g : UInt64) (id : AppId) :
    id ∈ r.pruneAccepted.accepted g ↔ id ∈ r.accepted g ∧ ¬r.Stale g := by
  show id ∈ (if r.Stale g then [] else r.accepted g) ↔ _
  by_cases hstale : r.Stale g
  · simp [hstale]
  · simp [hstale]

/-- What the reservations so far of one call have done. -/
structure Claimed (base : AppInfoRequestState) (generation : UInt64) (out : AppInfoRequestState × List AppId) :
    Prop where
  inFlight : ∀ e, e ∈ out.1.inFlight ↔ e ∈ base.inFlight ∨ (e.1 = generation ∧ e.2 ∈ out.2)
  accepted : out.1.accepted = base.accepted
  fresh : ∀ id ∈ out.2, (generation, id) ∉ base.inFlight ∧ id ∉ base.accepted generation
  nodup : out.2.Nodup

theorem Claimed.one {base : AppInfoRequestState} {generation : UInt64} {out : AppInfoRequestState × List AppId}
    (h : Claimed base generation out) (appId : AppId) : Claimed base generation (reserveOne generation out appId) := by
  simp only [reserveOne]
  split_ifs with hskip
  · exact h
  · simp only [not_or] at hskip
    obtain ⟨-, haccepted, hfree⟩ := hskip
    rw [h.accepted] at haccepted
    have hfresh := (h.inFlight (generation, appId)).not.mp hfree
    simp only [not_or, not_and, true_implies] at hfresh
    refine ⟨?_, h.accepted, ?_, ?_⟩
    · rintro ⟨g, id⟩
      simp only [List.mem_cons, List.mem_append, Prod.mk.injEq, h.inFlight]
      tauto
    · intro id hid
      obtain hold | hnew := List.mem_append.mp hid
      · exact h.fresh id hold
      · obtain rfl := List.mem_singleton.mp hnew
        exact ⟨hfresh.1, haccepted⟩
    · rw [List.nodup_append]
      refine ⟨h.nodup, List.nodup_singleton _, ?_⟩
      rintro id hid _ hnew rfl
      obtain rfl := List.mem_singleton.mp hnew
      exact hfresh.2 hid

theorem Claimed.all {base : AppInfoRequestState} {generation : UInt64} (appIds : List AppId)
    {out : AppInfoRequestState × List AppId} (h : Claimed base generation out) :
    Claimed base generation (appIds.foldl (reserveOne generation) out) := by
  induction appIds generalizing out with
  | nil => exact h
  | cons appId appIds ih => exact ih (h.one appId)

/-- A call reserves ids once each, and none that is in flight or accepted. -/
theorem reserve_claimed (r : AppInfoRequestState) (generation : UInt64) (appIds : List AppId) :
    Claimed { r with highestGeneration := max r.highestGeneration generation }.pruneAccepted generation
      (r.reserve generation appIds) := by
  apply Claimed.all
  refine ⟨fun e => ?_, rfl, fun id hid => absurd hid List.not_mem_nil, List.nodup_nil⟩
  simp only [List.not_mem_nil, and_false, or_false]

theorem mem_reserve_inFlight (r : AppInfoRequestState) (generation : UInt64) (appIds : List AppId) (g : UInt64)
    (id : AppId) :
    (g, id) ∈ (r.reserve generation appIds).1.inFlight ↔
      (g, id) ∈ r.inFlight ∨ (g = generation ∧ id ∈ (r.reserve generation appIds).2) :=
  (reserve_claimed r generation appIds).inFlight (g, id)

theorem mem_reserve_accepted (r : AppInfoRequestState) (generation : UInt64) (appIds : List AppId) (g : UInt64)
    (id : AppId) :
    id ∈ (r.reserve generation appIds).1.accepted g ↔
      id ∈ r.accepted g ∧ ¬(r.reserve generation appIds).1.Stale g := by
  rw [(reserve_claimed r generation appIds).accepted, mem_pruneAccepted, Stale, Stale, reserve_highest]

/-- Its own generation is in the window, or it was out of it before. -/
theorem Windowed.reserve_fresh {r : AppInfoRequestState} (h : r.Windowed) {generation : UInt64}
    {appIds : List AppId} {id : AppId} (hid : id ∈ (r.reserve generation appIds).2) :
    (generation, id) ∉ r.inFlight ∧ id ∉ r.accepted generation := by
  obtain ⟨hflight, haccepted⟩ := (reserve_claimed r generation appIds).fresh id hid
  refine ⟨hflight, fun hmem => haccepted ?_⟩
  rw [mem_pruneAccepted]
  refine ⟨hmem, ?_⟩
  have hwindow := h generation id hmem
  rw [not_stale_iff] at hwindow ⊢
  show (max r.highestGeneration generation).toNat ≤ _
  rw [toNat_max]
  omega

theorem mem_finish_inFlight (r : AppInfoRequestState) (generation : UInt64) (appIds : List AppId) (accepted : Bool)
    (g : UInt64) (id : AppId) :
    (g, id) ∈ (r.finish generation appIds accepted).inFlight ↔
      (g, id) ∈ r.inFlight ∧ ¬(g = generation ∧ id ∈ appIds) := by
  have hlanded : (r.finish generation appIds accepted).inFlight =
      r.inFlight.filter fun e => ¬(e.1 = generation ∧ e.2 ∈ appIds) := by
    simp only [finish]
    split <;> rfl
  rw [hlanded, List.mem_filter, decide_eq_true_eq]

theorem Windowed.mem_finish {r : AppInfoRequestState} (h : r.Windowed) (generation : UInt64) (appIds : List AppId)
    (accepted : Bool) (g : UInt64) (id : AppId) :
    id ∈ (r.finish generation appIds accepted).accepted g ↔
      id ∈ r.accepted g ∨ (g = generation ∧ id ∈ appIds ∧ accepted = true ∧ ¬r.Stale generation) := by
  have hwindow := h g id
  simp only [finish]
  split_ifs with hdropped
  · have hnot : ¬(accepted = true ∧ ¬r.Stale generation) := by
      rintro ⟨rfl, hopen⟩
      exact hdropped.elim (fun hrejected => hrejected rfl) hopen
    tauto
  · obtain ⟨haccepted, hopen⟩ := not_or.mp hdropped
    have hkept : accepted = true := not_not.mp haccepted
    rw [mem_pruneAccepted]
    show id ∈ (if g = generation then r.accepted g ++ appIds else r.accepted g) ∧ ¬r.Stale g ↔ _
    by_cases hg : g = generation
    · obtain rfl := hg
      rw [if_pos rfl, List.mem_append]
      exact ⟨fun hmem => hmem.1.imp_right fun hid => ⟨rfl, hid, hkept, hopen⟩,
        fun hmem => ⟨hmem.imp_right fun hid => hid.2.1, hopen⟩⟩
    · rw [if_neg hg]
      tauto

end AppInfoRequestState

/-- A reserve with what it returned; a finish names the place of its reserve in the log. -/
inductive RequestEntry where
  | reserve (generation : UInt64) (returned : List AppId)
  | finish (ticket : Nat) (accepted : Bool)
  | clear
  deriving DecidableEq

abbrev RequestEntries := List RequestEntry

namespace RequestEntries

variable {log : RequestEntries} {entry other : RequestEntry} {i : Nat} {generation : UInt64} {id : AppId}

/-- The reserve at this place returned the id in this generation. -/
def Returned (log : RequestEntries) (i : Nat) (generation : UInt64) (id : AppId) : Prop :=
  ∃ returned, log[i]? = some (RequestEntry.reserve generation returned) ∧ id ∈ returned

/-- No clear comes after this place. -/
def Standing (log : RequestEntries) (i : Nat) : Prop := ∀ j : Nat, i < j → log[j]? ≠ some RequestEntry.clear

/-- A clear releases every id, and a finish the ids that its reserve returned. -/
def Releases (log : RequestEntries) (entry : RequestEntry) (generation : UInt64) (id : AppId) : Prop :=
  entry = .clear ∨ ∃ ticket accepted, entry = .finish ticket accepted ∧ log.Returned ticket generation id

/-- Reserved, and not released since. -/
def InFlight (log : RequestEntries) (generation : UInt64) (id : AppId) : Prop :=
  ∃ i, log.Returned i generation id ∧
    ∀ (j : Nat) (entry : RequestEntry), i < j → log[j]? = some entry → ¬log.Releases entry generation id

/-- Part of an accepting finish whose reserve came after the latest clear. -/
def Earned (log : RequestEntries) (generation : UInt64) (id : AppId) : Prop :=
  ∃ j ticket : Nat, log[j]? = some (RequestEntry.finish ticket true) ∧ log.Returned ticket generation id ∧
    log.Standing ticket

/-- The place that a finish names is a reserve. -/
def Names (log : RequestEntries) (entry : RequestEntry) : Prop :=
  ∀ ticket accepted, entry = .finish ticket accepted →
    ∃ generation returned, log[ticket]? = some (RequestEntry.reserve generation returned)

def Answered (log : RequestEntries) : Prop :=
  ∀ (j : Nat) (entry : RequestEntry), log[j]? = some entry → log.Names entry

theorem get_snoc (log : RequestEntries) (entry other : RequestEntry) (i : Nat) :
    (log ++ [entry])[i]? = some other ↔ log[i]? = some other ∨ (i = log.length ∧ entry = other) := by
  obtain hlt | rfl | hgt := Nat.lt_trichotomy i log.length
  · rw [List.getElem?_append_left hlt]
    exact ⟨.inl, fun h => h.resolve_right fun hlast => hlt.ne hlast.1⟩
  · simp
  · rw [List.getElem?_append_right hgt.le, List.getElem?_eq_none (l := log) hgt.le,
      List.getElem?_eq_none (by rw [List.length_singleton]; omega)]
    simp [hgt.ne']

theorem get_lt (h : log[i]? = some entry) : i < log.length := (List.getElem?_eq_some_iff.mp h).1

private theorem returned_lt (h : log.Returned i generation id) : i < log.length := get_lt h.choose_spec.1

private theorem returned_snoc :
    Returned (log ++ [entry]) i generation id ↔
      log.Returned i generation id ∨
        (i = log.length ∧ ∃ returned, entry = .reserve generation returned ∧ id ∈ returned) := by
  simp only [Returned, get_snoc]
  constructor
  · rintro ⟨returned, hget | ⟨hlast, rfl⟩, hid⟩
    · exact .inl ⟨returned, hget, hid⟩
    · exact .inr ⟨hlast, returned, rfl, hid⟩
  · rintro (⟨returned, hget, hid⟩ | ⟨hlast, returned, rfl, hid⟩)
    · exact ⟨returned, .inl hget, hid⟩
    · exact ⟨returned, .inr ⟨hlast, rfl⟩, hid⟩

theorem standing_snoc (hi : i < log.length) : Standing (log ++ [entry]) i ↔ log.Standing i ∧ entry ≠ .clear := by
  simp only [Standing, ne_eq, get_snoc, not_or]
  constructor
  · intro h
    exact ⟨fun j hj => (h j hj).1, fun hclear => (h log.length hi).2 ⟨rfl, hclear⟩⟩
  · rintro ⟨hstanding, hclear⟩ j hj
    exact ⟨hstanding j hj, fun hlast => hclear hlast.2⟩

/-- Nothing stands behind the last place. -/
theorem none_after_last {j : Nat} (hj : log.length < j) : (log ++ [entry])[j]? ≠ some other := by
  intro hget
  have hlt := get_lt hget
  rw [List.length_append, List.length_singleton] at hlt
  omega

theorem Names.snoc (h : log.Names entry) (new : RequestEntry) : Names (log ++ [new]) entry := by
  intro ticket accepted hentry
  obtain ⟨generation, returned, hreserve⟩ := h ticket accepted hentry
  exact ⟨generation, returned, (get_snoc ..).mpr (.inl hreserve)⟩

theorem Answered.snoc (h : log.Answered) (hentry : log.Names entry) : Answered (log ++ [entry]) := by
  intro j other hget
  obtain hold | ⟨-, rfl⟩ := (get_snoc ..).mp hget
  · exact (h j other hold).snoc entry
  · exact hentry.snoc entry

/-- The reserve that a finish names is older than any entry to come. -/
theorem Names.returned_snoc {ticket : Nat} {accepted : Bool} (h : log.Names (.finish ticket accepted)) :
    Returned (log ++ [entry]) ticket generation id ↔ log.Returned ticket generation id := by
  obtain ⟨g, returned, hreserve⟩ := h ticket accepted rfl
  rw [RequestEntries.returned_snoc]
  exact or_iff_left fun hlast => (get_lt hreserve).ne hlast.1

private theorem Names.releases_snoc (h : log.Names entry) (new : RequestEntry) :
    Releases (log ++ [new]) entry generation id ↔ log.Releases entry generation id := by
  refine or_congr_right ⟨?_, ?_⟩
  · rintro ⟨ticket, accepted, rfl, hreturned⟩
    exact ⟨ticket, accepted, rfl, h.returned_snoc.mp hreturned⟩
  · rintro ⟨ticket, accepted, rfl, hreturned⟩
    exact ⟨ticket, accepted, rfl, h.returned_snoc.mpr hreturned⟩

/-- What is in flight after one more entry. -/
theorem Answered.inFlight_snoc (h : log.Answered) (hentry : log.Names entry) :
    InFlight (log ++ [entry]) generation id ↔
      (log.InFlight generation id ∧ ¬log.Releases entry generation id) ∨
        ∃ returned, entry = .reserve generation returned ∧ id ∈ returned := by
  constructor
  · rintro ⟨i, hreturned, huntouched⟩
    obtain hold | ⟨-, hnew⟩ := returned_snoc.mp hreturned
    · left
      constructor
      · refine ⟨i, hold, fun j other hj hget => ?_⟩
        rw [← (h j other hget).releases_snoc entry]
        exact huntouched j other hj ((get_snoc ..).mpr (.inl hget))
      · rw [← hentry.releases_snoc entry]
        exact huntouched log.length entry (returned_lt hold) ((get_snoc ..).mpr (.inr ⟨rfl, rfl⟩))
    · exact .inr hnew
  · rintro (⟨⟨i, hold, huntouched⟩, hreleases⟩ | hnew)
    · refine ⟨i, returned_snoc.mpr (.inl hold), fun j other hj hget => ?_⟩
      obtain hget | ⟨-, rfl⟩ := (get_snoc ..).mp hget
      · rw [(h j other hget).releases_snoc entry]
        exact huntouched j other hj hget
      · rwa [hentry.releases_snoc entry]
    · exact ⟨log.length, returned_snoc.mpr (.inr ⟨rfl, hnew⟩), fun j other hj hget => absurd hget (none_after_last hj)⟩

/-- What is earned after one more entry. -/
theorem Answered.earned_snoc (h : log.Answered) (hentry : log.Names entry) :
    Earned (log ++ [entry]) generation id ↔
      entry ≠ .clear ∧ (log.Earned generation id ∨
        ∃ ticket, entry = .finish ticket true ∧ log.Returned ticket generation id ∧ log.Standing ticket) := by
  constructor
  · rintro ⟨j, ticket, hget, hreturned, hstanding⟩
    obtain hold | ⟨-, rfl⟩ := (get_snoc ..).mp hget
    · rw [(h j _ hold).returned_snoc] at hreturned
      obtain ⟨hstanding, hclear⟩ := (standing_snoc (returned_lt hreturned)).mp hstanding
      exact ⟨hclear, .inl ⟨j, ticket, hold, hreturned, hstanding⟩⟩
    · rw [hentry.returned_snoc] at hreturned
      obtain ⟨hstanding, hclear⟩ := (standing_snoc (returned_lt hreturned)).mp hstanding
      exact ⟨hclear, .inr ⟨ticket, rfl, hreturned, hstanding⟩⟩
  · rintro ⟨hclear, ⟨j, ticket, hget, hreturned, hstanding⟩ | ⟨ticket, rfl, hreturned, hstanding⟩⟩
    · exact ⟨j, ticket, (get_snoc ..).mpr (.inl hget), returned_snoc.mpr (.inl hreturned),
        (standing_snoc (returned_lt hreturned)).mpr ⟨hstanding, hclear⟩⟩
    · exact ⟨log.length, ticket, (get_snoc ..).mpr (.inr ⟨rfl, rfl⟩), returned_snoc.mpr (.inl hreturned),
        (standing_snoc (returned_lt hreturned)).mpr ⟨hstanding, hclear⟩⟩

end RequestEntries

end SlsteamMoon.PackagePatch
