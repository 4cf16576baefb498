import SlsteamMoon.PackagePatch.RequestLog
import SlsteamMoon.Runs

/-! Runs of the app-info bookkeeping: what its calls return and answer against the log of the calls. -/
namespace SlsteamMoon.PackagePatch
open OwnerQueue Runs RequestEntries

/-- A finish passes what the reserve at its place in the log returned. -/
inductive RequestCall where
  | reserve (generation : UInt64) (appIds : List AppId)
  | finish (ticket : Nat) (accepted : Bool)
  | clear
  deriving DecidableEq

structure RequestBooks where
  state : AppInfoRequestState := {}
  log : RequestEntries := []

namespace RequestBooks

def step (b : RequestBooks) : RequestCall → Option RequestBooks
  | .reserve generation appIds =>
    some ⟨(b.state.reserve generation appIds).1, b.log ++ [.reserve generation (b.state.reserve generation appIds).2]⟩
  | .finish ticket accepted =>
    match b.log[ticket]? with
    | some (.reserve generation returned) =>
      some ⟨b.state.finish generation returned accepted, b.log ++ [.finish ticket accepted]⟩
    | _ => none
  | .clear => some ⟨b.state.clear, b.log ++ [.clear]⟩

/-- The state against the log, whatever the order of the calls. -/
structure Accounted (b : RequestBooks) : Prop where
  answered : b.log.Answered
  windowed : b.state.Windowed
  inFlight : ∀ g id, (g, id) ∈ b.state.inFlight ↔ b.log.InFlight g id
  highest : ∀ i g returned, b.log[i]? = some (RequestEntry.reserve g returned) → b.log.Standing i →
    g.toNat ≤ b.state.highestGeneration.toNat
  kept : ∀ g id, b.log.Earned g id → ¬b.state.Stale g → id ∈ b.state.accepted g

/-- What the requests rely on. -/
structure Sound (b : RequestBooks) : Prop where
  once : ∀ g ids, (b.state.reserve g ids).2.Nodup ∧
    ∀ id ∈ (b.state.reserve g ids).2, ¬b.log.InFlight g id ∧ b.state.allAccepted g [id] = false
  earned : ∀ g ids, b.state.allAccepted g ids = true → ∀ id ∈ ids, b.log.Earned g id
  recent : ∀ g id, b.state.allAccepted g [id] = true → ∀ i g' returned,
    b.log[i]? = some (RequestEntry.reserve g' returned) → b.log.Standing i → g'.toNat ≤ g.toNat + 1

private theorem allAccepted_one (r : AppInfoRequestState) (g : UInt64) (id : AppId) :
    r.allAccepted g [id] = true ↔ id ∈ r.accepted g := by
  simp only [AppInfoRequestState.allAccepted_iff, List.cons_subset, List.nil_subset, and_true]

/-- All but the earned part holds in every run. -/
theorem Accounted.sound {b : RequestBooks} (h : b.Accounted)
    (hearned : ∀ g id, id ∈ b.state.accepted g → b.log.Earned g id) : b.Sound := by
  constructor
  · intro g ids
    refine ⟨(AppInfoRequestState.reserve_claimed b.state g ids).nodup, fun id hid => ?_⟩
    obtain ⟨hflight, haccepted⟩ := h.windowed.reserve_fresh hid
    rw [← h.inFlight, ← Bool.not_eq_true, allAccepted_one]
    exact ⟨hflight, haccepted⟩
  · intro g ids hall id hid
    exact hearned g id (AppInfoRequestState.allAccepted_iff.mp hall hid)
  · intro g id hall i g' returned hget hstanding
    have hwindow := h.windowed g id ((allAccepted_one ..).mp hall)
    rw [AppInfoRequestState.not_stale_iff] at hwindow
    exact (h.highest i g' returned hget hstanding).trans hwindow

private theorem accounted_initial : Accounted {} := by
  constructor
  · intro j entry hget
    cases hget
  · intro g id hid
    cases hid
  · intro g id
    exact ⟨fun hid => absurd hid List.not_mem_nil, fun ⟨i, ⟨_, hget, _⟩, _⟩ => absurd hget (by simp)⟩
  · intro i g returned hget
    cases hget
  · rintro g id ⟨j, ticket, hget, -⟩
    cases hget

private theorem names_of_ne {log : RequestEntries} {entry : RequestEntry}
    (h : ∀ ticket accepted, entry ≠ .finish ticket accepted) :
    log.Names entry := fun ticket accepted hentry => absurd hentry (h ticket accepted)

theorem Accounted.reserve {b : RequestBooks} (h : b.Accounted) (generation : UInt64) (appIds : List AppId) :
    Accounted ⟨(b.state.reserve generation appIds).1,
      b.log ++ [.reserve generation (b.state.reserve generation appIds).2]⟩ := by
  have hnames : b.log.Names (.reserve generation (b.state.reserve generation appIds).2) := names_of_ne (by simp)
  have hhighest : (b.state.reserve generation appIds).1.highestGeneration.toNat =
      max b.state.highestGeneration.toNat generation.toNat := by
    rw [AppInfoRequestState.reserve_highest, toNat_max]
  constructor
  · exact h.answered.snoc hnames
  · intro g id hid
    exact ((AppInfoRequestState.mem_reserve_accepted ..).mp hid).2
  · intro g id
    have hreleases : ¬b.log.Releases (.reserve generation (b.state.reserve generation appIds).2) g id := by
      simp [Releases]
    rw [AppInfoRequestState.mem_reserve_inFlight, h.inFlight, h.answered.inFlight_snoc hnames, and_iff_left hreleases]
    refine or_congr_right ⟨?_, ?_⟩
    · rintro ⟨rfl, hid⟩
      exact ⟨_, rfl, hid⟩
    · rintro ⟨returned, hentry, hid⟩
      obtain ⟨rfl, rfl⟩ := RequestEntry.reserve.inj hentry
      exact ⟨rfl, hid⟩
  · intro i g returned hget hstanding
    rw [hhighest]
    obtain hold | ⟨-, hentry⟩ := (get_snoc ..).mp hget
    · have hle := h.highest i g returned hold ((standing_snoc (get_lt hold)).mp hstanding).1
      omega
    · obtain ⟨rfl, -⟩ := RequestEntry.reserve.inj hentry
      exact Nat.le_max_right ..
  · intro g id hearned hopen
    obtain ⟨-, hold | ⟨ticket, hentry, -⟩⟩ := (h.answered.earned_snoc hnames).mp hearned
    · rw [AppInfoRequestState.mem_reserve_accepted]
      refine ⟨h.kept g id hold ?_, hopen⟩
      rw [AppInfoRequestState.not_stale_iff] at hopen ⊢
      rw [hhighest] at hopen
      omega
    · cases hentry

/-- The finish releases what its reserve returned. -/
theorem releases_finish {log : RequestEntries} {ticket : Nat} {generation : UInt64} {returned : List AppId}
    (hget : log[ticket]? = some (RequestEntry.reserve generation returned)) (accepted : Bool) (g : UInt64)
    (id : AppId) : log.Releases (.finish ticket accepted) g id ↔ g = generation ∧ id ∈ returned := by
  constructor
  · rintro (hclear | ⟨_, _, hentry, other, hother, hid⟩)
    · cases hclear
    · obtain ⟨rfl, -⟩ := RequestEntry.finish.inj hentry
      obtain ⟨rfl, rfl⟩ := RequestEntry.reserve.inj (Option.some.inj (hget.symm.trans hother))
      exact ⟨rfl, hid⟩
  · rintro ⟨rfl, hid⟩
    exact .inr ⟨ticket, accepted, rfl, returned, hget, hid⟩

private theorem names_finish {log : RequestEntries} {ticket : Nat} {generation : UInt64} {returned : List AppId}
    (hget : log[ticket]? = some (RequestEntry.reserve generation returned)) (accepted : Bool) :
    log.Names (.finish ticket accepted) := by
  intro _ _ hentry
  obtain ⟨rfl, -⟩ := RequestEntry.finish.inj hentry
  exact ⟨generation, returned, hget⟩

theorem Accounted.finish {b : RequestBooks} (h : b.Accounted) {ticket : Nat} {generation : UInt64}
    {returned : List AppId} (hget : b.log[ticket]? = some (RequestEntry.reserve generation returned))
    (accepted : Bool) :
    Accounted ⟨b.state.finish generation returned accepted, b.log ++ [.finish ticket accepted]⟩ := by
  have hnames := names_finish hget accepted
  have hstale : ∀ g, (b.state.finish generation returned accepted).Stale g ↔ b.state.Stale g := by
    intro g
    rw [AppInfoRequestState.Stale, AppInfoRequestState.finish_highest, AppInfoRequestState.Stale]
  constructor
  · exact h.answered.snoc hnames
  · intro g id hid
    rw [hstale]
    obtain hold | ⟨rfl, -, -, hopen⟩ := (h.windowed.mem_finish ..).mp hid
    · exact h.windowed g id hold
    · exact hopen
  · intro g id
    rw [AppInfoRequestState.mem_finish_inFlight, h.inFlight, h.answered.inFlight_snoc hnames,
      releases_finish hget]
    refine (or_iff_left ?_).symm
    rintro ⟨_, hentry, -⟩
    cases hentry
  · intro i g other hother hstanding
    rw [AppInfoRequestState.finish_highest]
    obtain hold | ⟨-, hentry⟩ := (get_snoc ..).mp hother
    · exact h.highest i g other hold ((standing_snoc (get_lt hold)).mp hstanding).1
    · cases hentry
  · intro g id hearned hopen
    rw [hstale] at hopen
    rw [h.windowed.mem_finish]
    obtain ⟨-, hold | ⟨_, hentry, ⟨other, hother, hid⟩, -⟩⟩ := (h.answered.earned_snoc hnames).mp hearned
    · exact .inl (h.kept g id hold hopen)
    · obtain ⟨rfl, rfl⟩ := RequestEntry.finish.inj hentry
      obtain ⟨rfl, rfl⟩ := RequestEntry.reserve.inj (Option.some.inj (hget.symm.trans hother))
      exact .inr ⟨rfl, hid, rfl, hopen⟩

theorem Accounted.clear {b : RequestBooks} (h : b.Accounted) : Accounted ⟨b.state.clear, b.log ++ [.clear]⟩ := by
  have hnames : b.log.Names .clear := names_of_ne (by simp)
  constructor
  · exact h.answered.snoc hnames
  · intro g id hid
    cases hid
  · intro g id
    rw [h.answered.inFlight_snoc hnames]
    refine ⟨fun hid => absurd hid List.not_mem_nil, ?_⟩
    rintro (⟨-, hkept⟩ | ⟨_, hentry, -⟩)
    · exact absurd (.inl rfl) hkept
    · cases hentry
  · intro i g returned hget hstanding
    obtain hold | ⟨-, hentry⟩ := (get_snoc ..).mp hget
    · exact absurd rfl ((standing_snoc (get_lt hold)).mp hstanding).2
    · cases hentry
  · intro g id hearned
    exact absurd rfl ((h.answered.earned_snoc hnames).mp hearned).1

/-- The cases of a call. -/
theorem step_cases {b b' : RequestBooks} {call : RequestCall} (h : b.step call = some b') :
    (∃ generation appIds, call = .reserve generation appIds ∧
        b' = ⟨(b.state.reserve generation appIds).1,
          b.log ++ [.reserve generation (b.state.reserve generation appIds).2]⟩) ∨
      (∃ ticket accepted generation returned, call = .finish ticket accepted ∧
        b.log[ticket]? = some (RequestEntry.reserve generation returned) ∧
        b' = ⟨b.state.finish generation returned accepted, b.log ++ [.finish ticket accepted]⟩) ∨
      (call = .clear ∧ b' = ⟨b.state.clear, b.log ++ [.clear]⟩) := by
  cases call with
  | reserve generation appIds => exact .inl ⟨generation, appIds, rfl, (Option.some.inj h).symm⟩
  | clear => exact .inr (.inr ⟨rfl, (Option.some.inj h).symm⟩)
  | finish ticket accepted =>
    simp only [step] at h
    split at h
    · next generation returned hget =>
      exact .inr (.inl ⟨ticket, accepted, generation, returned, rfl, hget, (Option.some.inj h).symm⟩)
    · cases h

theorem Accounted.step {b b' : RequestBooks} {call : RequestCall} (h : b.Accounted) (hstep : b.step call = some b') :
    b'.Accounted := by
  obtain ⟨generation, appIds, -, rfl⟩ | ⟨_, accepted, _, _, -, hget, rfl⟩ | ⟨-, rfl⟩ := step_cases hstep
  · exact h.reserve generation appIds
  · exact h.finish hget accepted
  · exact h.clear

/-- An accepting finish that the window lets through comes from after the latest clear, or passes nothing new. -/
def Current (b : RequestBooks) (call : RequestCall) : Prop :=
  ∀ ticket generation returned, call = .finish ticket true →
    b.log[ticket]? = some (RequestEntry.reserve generation returned) → ¬b.state.Stale generation →
    b.log.Standing ticket ∨ ∀ id ∈ returned, id ∈ b.state.accepted generation

def AllEarned (b : RequestBooks) : Prop := ∀ g id, id ∈ b.state.accepted g → b.log.Earned g id

theorem AllEarned.step {b b' : RequestBooks} {call : RequestCall} (haccounted : b.Accounted) (h : b.AllEarned)
    (hcurrent : b.Current call) (hstep : b.step call = some b') : b'.AllEarned := by
  obtain ⟨generation, appIds, -, rfl⟩ | ⟨ticket, accepted, generation, returned, rfl, hget, rfl⟩ | ⟨-, rfl⟩ :=
    step_cases hstep
  · intro g id hid
    rw [haccounted.answered.earned_snoc (names_of_ne (by simp))]
    exact ⟨by simp, .inl (h g id ((AppInfoRequestState.mem_reserve_accepted ..).mp hid).1)⟩
  · intro g id hid
    rw [haccounted.answered.earned_snoc (names_finish hget accepted)]
    refine ⟨by simp, ?_⟩
    obtain hold | ⟨rfl, hpassed, rfl, hopen⟩ := (haccounted.windowed.mem_finish ..).mp hid
    · exact .inl (h g id hold)
    · obtain hstanding | hknown := hcurrent ticket g returned rfl hget hopen
      · exact .inr ⟨ticket, rfl, ⟨returned, hget, hpassed⟩, hstanding⟩
      · exact .inl (h g id (hknown id hpassed))
  · intro g id hid
    cases hid

/-- Where everything accepted is earned after a call, the call was current. -/
theorem AllEarned.current {b b' : RequestBooks} {call : RequestCall} (haccounted : b.Accounted)
    (hstep : b.step call = some b') (h : b'.AllEarned) : b.Current call := by
  rintro ticket generation returned rfl hget hopen
  rw [or_iff_not_imp_left]
  intro hcleared id hid
  have hb' : b' = ⟨b.state.finish generation returned true, b.log ++ [.finish ticket true]⟩ := by
    rw [RequestBooks.step, hget] at hstep
    exact (Option.some.inj hstep).symm
  obtain rfl := hb'
  have hmem : id ∈ (b.state.finish generation returned true).accepted generation :=
    (haccounted.windowed.mem_finish ..).mpr (.inr ⟨rfl, hid, rfl, hopen⟩)
  have hearned := h generation id hmem
  rw [haccounted.answered.earned_snoc (names_finish hget true)] at hearned
  obtain ⟨-, hold | ⟨_, hentry, -, hstanding⟩⟩ := hearned
  · exact haccounted.kept generation id hold hopen
  · obtain ⟨rfl, -⟩ := RequestEntry.finish.inj hentry
    exact absurd hstanding hcleared

private theorem Sound.allEarned {b : RequestBooks} (h : b.Sound) : b.AllEarned := by
  intro g id hid
  exact h.earned g [id] ((allAccepted_one ..).mpr hid) id (List.mem_singleton_self id)

private theorem accounted_run {calls : List RequestCall} {b : RequestBooks} (h : exec step {} calls = some b) :
    b.Accounted := exec_preserves (fun _ _ _ hs => hs.step) accounted_initial h

/-- The books are sound in every state of a run exactly when no accepting finish brings in an id from before the latest
clear. -/
theorem bookkeeping_sound_iff (calls : List RequestCall) :
    (∀ before rest b, calls = before ++ rest → exec step {} before = some b → b.Sound) ↔
      Meets step Current {} calls := by
  constructor
  · intro hsound
    rw [meets_iff_splits]
    intro before call rest hsplit b hb
    cases hnext : b.step call with
    | none =>
      rintro ticket generation returned rfl hget
      rw [step, hget] at hnext
      cases hnext
    | some next =>
      have hrun : exec step {} (before ++ [call]) = some next := by
        rw [exec_append, hb, Option.bind_some, exec_cons, hnext, Option.bind_some, exec_nil]
      have hnextSound := hsound (before ++ [call]) rest next (by rw [hsplit, List.append_assoc]; rfl) hrun
      exact hnextSound.allEarned.current (accounted_run hb) hnext
  · rintro hcurrent before rest b rfl hb
    have hbefore := ((meets_append ..).mp hcurrent).1
    have hinitial : AllEarned {} := by
      intro g id hid
      cases hid
    obtain ⟨haccounted, hearned⟩ := exec_invariant (P := fun b => b.Accounted ∧ b.AllEarned)
      (fun s call t hs hok hstep => ⟨hs.1.step hstep, hs.2.step hs.1 hok hstep⟩) ⟨accounted_initial, hinitial⟩
      hbefore hb
    exact haccounted.sound hearned

/-- An answer that comes after the clear is taken for one to a reserve after it. -/
theorem late_answer_accepted :
    ∃ b, exec step {} [.reserve 1 [5], .clear, .finish 0 true] = some b ∧ b.state.allAccepted 1 [5] = true ∧
      ¬b.log.Earned 1 5 := by
  refine ⟨_, rfl, by decide, ?_⟩
  rintro ⟨j, ticket, hget, ⟨returned, hreturned, -⟩, hstanding⟩
  have hlog : ([.reserve 1 [5], .clear, .finish 0 true] : RequestEntries)[ticket]? =
    some (RequestEntry.reserve 1 returned) := hreturned
  obtain _ | _ | _ | ticket := ticket
  · exact hstanding 1 Nat.zero_lt_one rfl
  · cases hlog
  · cases hlog
  · cases hlog

end RequestBooks

end SlsteamMoon.PackagePatch
