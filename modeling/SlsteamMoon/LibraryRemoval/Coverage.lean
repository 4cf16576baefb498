import SlsteamMoon.LibraryRemoval.Queue
import SlsteamMoon.Runs

/-! The removal queue under its callers: any thread changes what is wanted, and a
work that was drained is retried, or begun and then finished. -/
namespace SlsteamMoon.LibraryRemoval

open Runs

/-- The works that were drained and not given back, and whether each was begun. -/
structure Client where
  queue : Queue
  held : List (Work × Bool) := []

inductive Event
  | push (appId : AppId)
  | cancel (appId : AppId)
  | readyToRestore (appId : AppId)
  | requestFullReassert
  | drainOne
  | retry (work : Work)
  | begin (work : Work)
  | finish (work : Work)
  deriving DecidableEq, Repr

def step (c : Client) : Event → Option Client
  | .push appId => some { c with queue := (c.queue.push appId).2 }
  | .cancel appId => some { c with queue := c.queue.cancel appId }
  | .readyToRestore appId => some { c with queue := c.queue.readyToRestore appId }
  | .requestFullReassert => some { c with queue := c.queue.requestFullReassert }
  | .drainOne => some ⟨c.queue.drainOne.2, c.queue.drainOne.1.toList.map (·, false) ++ c.held⟩
  | .retry work =>
    if (work, false) ∈ c.held then some ⟨c.queue.retry work, c.held.erase (work, false)⟩ else none
  | .begin work =>
    let held := c.held.erase (work, false)
    if (work, false) ∈ c.held then
      some ⟨(c.queue.begin work).2, if (c.queue.begin work).1 then (work, true) :: held else held⟩
    else none
  | .finish work =>
    if (work, true) ∈ c.held then some ⟨c.queue.finish work, c.held.erase (work, true)⟩ else none

/-- What holds of an open queue between its calls. -/
structure Queue.Sound (capacity : Nat) (q : Queue) : Prop where
  matched : q.Matched
  opened : q.closed = false
  sized : q.capacity = capacity
  bounded : q.desired.card ≤ capacity
  settled : ∀ appId, q.Settled appId

namespace Queue

variable {capacity : Nat} {q : Queue}

theorem sound_init (capacity : Nat) : Sound capacity { capacity } where
  matched := ⟨List.nodup_nil, fun work => by cases haction : work.action <;> simp [pendingSet]⟩
  opened := rfl
  sized := rfl
  bounded := Nat.zero_le _
  settled appId := ⟨fun h => absurd h (Finset.notMem_empty appId), fun _ h => absurd h (Finset.notMem_empty appId)⟩

/-- A change that concerns one app, reconciled. -/
theorem Sound.reconcile (hmatched : q.Matched) (hopened : q.closed = false) (hsized : q.capacity = capacity)
    (hbounded : q.desired.card ≤ capacity) {appId : AppId} (hothers : ∀ other, other ≠ appId → q.Settled other) :
    (q.reconcile appId).Sound capacity := by
  have hafter := hmatched.reconcile appId
  refine ⟨hafter.matched, hafter.closed.trans hopened, hafter.capacity.trans hsized, ?_, fun other => ?_⟩
  · rwa [hafter.desired]
  · by_cases hne : other = appId
    · rw [hne]
      exact settled_reconcile hmatched appId
    · exact settled_reconcile_other hmatched hne (hothers other hne)

theorem Sound.push (h : q.Sound capacity) (appId : AppId) : (q.push appId).2.Sound capacity := by
  unfold Queue.push
  split
  · exact h
  · split
    · exact h
    · dsimp only
      split
      · next hfull =>
        have hnew : appId ∉ q.desired := of_decide_eq_true hfull.1
        simp only [Finset.erase_insert hnew]
        exact h
      · next hfits =>
        apply Sound.reconcile (q := { q with desired := insert appId q.desired })
          ⟨h.matched.nodup, h.matched.mem_iff⟩ h.opened h.sized
        · by_cases hin : appId ∈ q.desired
          · simpa [Finset.insert_eq_of_mem hin] using h.bounded
          · simpa [hin, h.sized] using hfits
        · intro other hne
          exact (h.settled other).congr (by simp [hne]) Iff.rfl id (fun _ => id) fun _ => id

theorem Sound.cancel (h : q.Sound capacity) (appId : AppId) : (q.cancel appId).Sound capacity := by
  apply Sound.reconcile (q := { q with desired := q.desired.erase appId })
    ⟨h.matched.nodup, h.matched.mem_iff⟩ h.opened h.sized
  · exact (Finset.card_erase_le).trans h.bounded
  · intro other hne
    exact (h.settled other).congr (by simp [hne]) Iff.rfl id (fun _ => id) fun _ => id

theorem Sound.readyToRestore (h : q.Sound capacity) (appId : AppId) : (q.readyToRestore appId).Sound capacity := by
  unfold Queue.readyToRestore
  split
  · exact h
  · apply Sound.reconcile (q := { q with presentReady := insert appId q.presentReady })
      ⟨h.matched.nodup, h.matched.mem_iff⟩ h.opened h.sized h.bounded
    intro other hne
    exact (h.settled other).congr Iff.rfl Iff.rfl (by simp [hne]) (fun _ => id) fun _ => id

theorem Sound.requestFullReassert (h : q.Sound capacity) : q.requestFullReassert.Sound capacity := by
  unfold Queue.requestFullReassert
  split
  · exact ⟨⟨h.matched.nodup, h.matched.mem_iff⟩, h.opened, h.sized, h.bounded, h.settled⟩
  · exact h

private theorem land_matched (h : q.Matched) (work : Work) : (q.land work).Matched := by
  unfold land
  split
  · exact ⟨h.nodup, h.mem_iff⟩
  · exact h

private theorem land_frame (q : Queue) (work : Work) : (q.land work).closed = q.closed ∧
    (q.land work).capacity = q.capacity ∧ (q.land work).desired = q.desired := by
  unfold land
  split <;> exact ⟨rfl, rfl, rfl⟩

private theorem land_settled {work : Work} {other : AppId} (hne : other ≠ work.appId) (h : q.Settled other) :
    (q.land work).Settled other := by
  unfold land
  split
  · next hflight =>
    refine h.congr Iff.rfl Iff.rfl id (fun _ => id) fun action hf => ?_
    rw [hflight] at hf
    exact absurd (congrArg Work.appId (Option.some.inj hf)).symm hne
  · exact h

theorem Sound.retry (h : q.Sound capacity) (work : Work) : (q.retry work).Sound capacity := by
  obtain ⟨hclosed, hcapacity, hdesired⟩ := land_frame q work
  apply Sound.reconcile (land_matched h.matched work) (hclosed.trans h.opened) (hcapacity.trans h.sized)
  · rw [hdesired]
    exact h.bounded
  · intro other hne
    exact land_settled hne (h.settled other)

theorem Sound.finish (h : q.Sound capacity) (work : Work) : (q.finish work).Sound capacity := by
  obtain ⟨hclosed, hcapacity, hdesired⟩ := land_frame q work
  have hmatched := land_matched h.matched work
  have hbounded : (q.land work).desired.card ≤ capacity := by
    rw [hdesired]
    exact h.bounded
  unfold Queue.finish
  dsimp only
  split
  · apply Sound.reconcile (q := { q.land work with presentReady := (q.land work).presentReady.erase work.appId })
      ⟨hmatched.nodup, hmatched.mem_iff⟩ (hclosed.trans h.opened) (hcapacity.trans h.sized) hbounded
    intro other hne
    exact (land_settled hne (h.settled other)).congr Iff.rfl Iff.rfl (by simp [hne]) (fun _ => id) fun _ => id
  · apply Sound.reconcile hmatched (hclosed.trans h.opened) (hcapacity.trans h.sized) hbounded
    intro other hne
    exact land_settled hne (h.settled other)

theorem Sound.begin (h : q.Sound capacity) (work : Work) : (q.begin work).2.Sound capacity := by
  unfold Queue.begin
  split
  · exact h
  · next hheld =>
    have hflight : q.inFlight = some work := by
      by_contra hne
      exact hheld (.inr hne)
    split
    · -- the work is no longer wanted: its app is reconciled with nothing in flight
      apply Sound.reconcile (q := { q with inFlight := none }) ⟨h.matched.nodup, h.matched.mem_iff⟩ h.opened
        h.sized h.bounded
      intro other hne
      have hland := land_settled hne (h.settled other)
      unfold land at hland
      rwa [if_pos hflight] at hland
    · next hcurrent =>
      rw [not_not] at hcurrent
      cases work with
      | mk appId action =>
        cases action with
        | remove =>
          refine ⟨⟨h.matched.nodup, h.matched.mem_iff⟩, h.opened, h.sized, h.bounded, fun other => ?_⟩
          refine ⟨fun hd => ?_, fun hd hr he => ?_⟩
          · exact ((h.settled other).1 hd).imp Finset.mem_insert_of_mem id
          · have hne : other ≠ appId := by
              rintro rfl
              exact hd hcurrent
            exact (h.settled other).2 hd hr (Finset.mem_of_mem_insert_of_ne he hne)
        | restore =>
          refine ⟨⟨h.matched.nodup, h.matched.mem_iff⟩, h.opened, h.sized, h.bounded, fun other => ?_⟩
          refine ⟨fun hd => ?_, fun hd hr he => (h.settled other).2 hd hr (Finset.mem_of_mem_erase he)⟩
          have hne : other ≠ appId := by
            rintro rfl
            exact hcurrent.1 hd
          exact ((h.settled other).1 hd).imp (fun he => Finset.mem_erase.mpr ⟨hne, he⟩) id

/-- A reassertion only adds works. -/
theorem Sound.enqueue (h : q.Sound capacity) (work : Work) : (q.enqueue work).2.Sound capacity := by
  obtain ⟨hmatched, hsame, -, hkept, -⟩ := enqueue_spec h.matched work
  refine ⟨hmatched, hsame.closed.trans h.opened, hsame.capacity.trans h.sized, ?_, fun other => ?_⟩
  · rw [hsame.desired]
    exact h.bounded
  · exact (h.settled other).congr (by rw [hsame.desired]) (by rw [hsame.effectiveRemoved])
      (fun hr => hsame.presentReady ▸ hr) (fun action => hkept _) fun action hf => hsame.inFlight.trans hf

theorem Sound.enqueueDesired (h : q.Sound capacity) (appIds : List AppId) :
    (q.enqueueDesired appIds).Sound capacity ∧ (q.enqueueDesired appIds).inFlight = q.inFlight := by
  induction appIds generalizing q with
  | nil => exact ⟨h, rfl⟩
  | cons appId appIds ih =>
    unfold Queue.enqueueDesired
    rw [List.foldl_cons]
    split
    · obtain ⟨hsound, hflight⟩ := ih (h.enqueue ⟨appId, .remove⟩)
      exact ⟨hsound, hflight.trans (enqueue_inFlight q _)⟩
    · exact ih h

theorem Sound.reassert (h : q.Sound capacity) : q.reassert.Sound capacity ∧ q.reassert.inFlight = q.inFlight := by
  obtain ⟨hsound, hflight⟩ := h.enqueueDesired q.effectiveRemoved.sort
  exact ⟨⟨⟨hsound.matched.nodup, hsound.matched.mem_iff⟩, hsound.opened, hsound.sized, hsound.bounded,
    hsound.settled⟩, hflight⟩

/-- A work taken from the front settles its app only while it is wanted. -/
theorem Sound.drainFrom (h : q.Sound capacity) (hidle : q.inFlight = none) {pending : List Work}
    (hpending : q.pending = pending) :
    (q.drainFrom pending).2.Sound capacity ∧ (q.drainFrom pending).2.inFlight = (q.drainFrom pending).1 := by
  induction pending generalizing q with
  | nil => exact ⟨h, hidle⟩
  | cons work pending ih =>
    obtain ⟨hmatched, hsame, hrest⟩ := pop_spec h.matched hpending
    have hopened := hsame.closed.trans h.opened
    have hsized := hsame.capacity.trans h.sized
    have hbounded : ({ q with pending }.erasePendingSet work).desired.card ≤ capacity := by
      rw [hsame.desired]
      exact h.bounded
    -- the works of an app are what they were, but for the one that was taken
    have hsettled (other : AppId) :
        (other ∈ q.desired → other ∈ q.effectiveRemoved ∨ ⟨other, .remove⟩ ∈ pending ∨ work = ⟨other, .remove⟩) ∧
          (other ∉ q.desired → other ∈ q.presentReady → other ∈ q.effectiveRemoved →
            ⟨other, .restore⟩ ∈ pending ∨ work = ⟨other, .restore⟩) := by
      have hother := h.settled other
      simp only [Settled, hpending, hidle, List.mem_cons, reduceCtorEq, or_false] at hother
      refine ⟨fun hd => ?_, fun hd hr he => ?_⟩
      · rcases hother.1 hd with he | hwork | hin
        · exact .inl he
        · exact .inr (.inr hwork.symm)
        · exact .inr (.inl hin)
      · exact (hother.2 hd hr he).symm.imp id Eq.symm
    unfold Queue.drainFrom
    dsimp only
    split
    · refine ⟨⟨⟨hmatched.nodup, hmatched.mem_iff⟩, hopened, hsized, hbounded,
        fun other => ⟨fun hd => ?_, fun hd hr he => ?_⟩⟩, rfl⟩
      · rw [hsame.desired] at hd
        rw [hsame.effectiveRemoved, hrest]
        exact ((hsettled other).1 hd).imp id (Or.imp id (congrArg some))
      · rw [hsame.desired] at hd
        rw [hsame.presentReady] at hr
        rw [hsame.effectiveRemoved] at he
        rw [hrest]
        exact ((hsettled other).2 hd hr he).imp id (congrArg some)
    · next hstale =>
      refine ih ⟨hmatched, hopened, hsized, hbounded, fun other => ⟨fun hd => ?_, fun hd hr he => ?_⟩⟩
        (hsame.inFlight.trans hidle) hrest
      · rw [hrest, hsame.effectiveRemoved]
        rcases (hsettled other).1 (hsame.desired ▸ hd) with he | hin | rfl
        · exact .inl he
        · exact .inr (.inl hin)
        · exact absurd hd hstale
      · rw [hrest]
        rcases (hsettled other).2 (hsame.desired ▸ hd) (hsame.presentReady ▸ hr) (hsame.effectiveRemoved ▸ he) with
          hin | rfl
        · exact .inl hin
        · exact absurd ⟨hd, hr⟩ hstale

theorem Sound.drainOne (h : q.Sound capacity) : q.drainOne.2.Sound capacity ∧
    q.drainOne.2.inFlight.toList = q.drainOne.1.toList ++ q.inFlight.toList := by
  unfold Queue.drainOne
  split
  · exact ⟨h, rfl⟩
  · next hidle =>
    rw [not_or, Option.not_isSome_iff_eq_none] at hidle
    have hstart : (if q.reassertRequested then q.reassert else q).Sound capacity ∧
        (if q.reassertRequested then q.reassert else q).inFlight = none := by
      split
      · exact ⟨h.reassert.1, h.reassert.2.trans hidle.2⟩
      · exact ⟨h, hidle.2⟩
    obtain ⟨hsound, hflight⟩ := hstart.1.drainFrom hstart.2 rfl
    refine ⟨hsound, ?_⟩
    rw [hflight, hidle.2]
    simp

end Queue

/-! Runs of the callers. -/

/-- The work in flight is the one that was drained and not given back. -/
structure Client.Sound (capacity : Nat) (c : Client) : Prop where
  queue : c.queue.Sound capacity
  held : c.held.map Prod.fst = c.queue.inFlight.toList

private theorem Client.Sound.held_eq {capacity : Nat} {c : Client} (h : c.Sound capacity) {work : Work} {begun : Bool}
    (hheld : (work, begun) ∈ c.held) :
    c.queue.inFlight = some work ∧ c.held = [(work, begun)] := by
  have hmem : work ∈ c.queue.inFlight.toList := h.held ▸ List.mem_map_of_mem hheld
  have hflight : c.queue.inFlight = some work := Option.mem_toList.mp hmem
  refine ⟨hflight, ?_⟩
  have hlength : c.held.length = 1 := by
    rw [← List.length_map (f := Prod.fst), h.held, hflight]
    rfl
  obtain ⟨entry, hentry⟩ := List.length_eq_one_iff.mp hlength
  rw [hentry, List.mem_singleton] at hheld
  rw [hentry, hheld]

theorem step_sound {capacity : Nat} {c d : Client} {e : Event} (h : c.Sound capacity) (hstep : step c e = some d) :
    d.Sound capacity := by
  cases e with
  | push appId =>
    obtain rfl := Option.some.inj hstep
    exact ⟨h.queue.push appId, by simpa using h.held⟩
  | cancel appId =>
    obtain rfl := Option.some.inj hstep
    exact ⟨h.queue.cancel appId, by simpa using h.held⟩
  | readyToRestore appId =>
    obtain rfl := Option.some.inj hstep
    exact ⟨h.queue.readyToRestore appId, by simpa using h.held⟩
  | requestFullReassert =>
    obtain rfl := Option.some.inj hstep
    exact ⟨h.queue.requestFullReassert, by simpa using h.held⟩
  | drainOne =>
    obtain rfl := Option.some.inj hstep
    obtain ⟨hsound, hflight⟩ := h.queue.drainOne
    refine ⟨hsound, ?_⟩
    rw [hflight, ← h.held]
    simp [Function.comp_def]
  | retry work =>
    unfold step at hstep
    dsimp only at hstep
    split at hstep
    · next hheld =>
      obtain rfl := Option.some.inj hstep
      obtain ⟨hflight, hall⟩ := h.held_eq hheld
      exact ⟨h.queue.retry work, by simp [hall, Queue.retry_inFlight hflight]⟩
    · cases hstep
  | begin work =>
    unfold step at hstep
    dsimp only at hstep
    split at hstep
    · next hheld =>
      obtain rfl := Option.some.inj hstep
      obtain ⟨hflight, hall⟩ := h.held_eq hheld
      refine ⟨h.queue.begin work, ?_⟩
      rw [Queue.begin_inFlight h.queue.opened hflight, hall]
      cases (c.queue.begin work).1 <;> simp
    · cases hstep
  | finish work =>
    unfold step at hstep
    dsimp only at hstep
    split at hstep
    · next hheld =>
      obtain rfl := Option.some.inj hstep
      obtain ⟨hflight, hall⟩ := h.held_eq hheld
      exact ⟨h.queue.finish work, by simp [hall, Queue.finish_inFlight hflight]⟩
    · cases hstep

theorem run_sound {capacity : Nat} {events : List Event} {c : Client}
    (hrun : exec step { queue := { capacity } } events = some c) : c.Sound capacity :=
  exec_preserves (fun _ _ _ h hstep => step_sound h hstep) ⟨Queue.sound_init capacity, rfl⟩ hrun

/-- Whatever order the calls come in, the pending works are those of the two sets,
one work is in flight at most, and every wanted change is made or on its way. -/
theorem removal_queue_covers_every_wanted_change {capacity : Nat} {events : List Event} {c : Client}
    (hrun : exec step { queue := { capacity } } events = some c) :
    (c.queue.pending.Nodup ∧ ∀ appId,
        (⟨appId, .remove⟩ ∈ c.queue.pending ↔ appId ∈ c.queue.pendingRemovals) ∧
        (⟨appId, .restore⟩ ∈ c.queue.pending ↔ appId ∈ c.queue.pendingRestores)) ∧
      (c.held.length ≤ 1 ∧ c.held.map Prod.fst = c.queue.inFlight.toList) ∧
      c.queue.desired.card ≤ capacity ∧
      (∀ appId ∈ c.queue.desired, appId ∈ c.queue.effectiveRemoved ∨ ⟨appId, .remove⟩ ∈ c.queue.pending ∨
        c.queue.inFlight = some ⟨appId, .remove⟩) ∧
      (∀ appId ∉ c.queue.desired, appId ∈ c.queue.presentReady → appId ∈ c.queue.effectiveRemoved →
        ⟨appId, .restore⟩ ∈ c.queue.pending ∨ c.queue.inFlight = some ⟨appId, .restore⟩) ∧
      c.queue.appliedSnapshot.Pairwise (· < ·) ∧
      ∀ appId, appId ∈ c.queue.appliedSnapshot ↔ appId ∈ c.queue.effectiveRemoved ∧ appId ∈ c.queue.desired := by
  have hsound := run_sound hrun
  have hmatched := hsound.queue.matched
  refine ⟨⟨hmatched.nodup, fun appId => ⟨hmatched.mem_iff ⟨appId, .remove⟩, hmatched.mem_iff ⟨appId, .restore⟩⟩⟩,
    ⟨?_, hsound.held⟩, hsound.queue.bounded, fun appId => (hsound.queue.settled appId).1,
    fun appId => (hsound.queue.settled appId).2, ?_, fun appId => ?_⟩
  · rw [← List.length_map (f := Prod.fst), hsound.held]
    cases c.queue.inFlight <;> simp
  · exact ((Finset.pairwise_sort _ _).and (Finset.sort_nodup _ _)).imp fun h => UInt32.lt_of_le_of_ne h.1 h.2
  · simp [Queue.appliedSnapshot, hsound.queue.opened]

/-- An app that is wanted again while its removal is at the worker is restored
after it. -/
theorem removal_queue_restores_behind_removal :
    ∃ c, exec step { queue := { capacity := 1 } } [.push 480, .drainOne, .cancel 480, .begin ⟨480, .remove⟩, .push 480,
        .drainOne, .begin ⟨480, .remove⟩, .cancel 480, .readyToRestore 480, .finish ⟨480, .remove⟩] = some c ∧
      c.queue.desired.card ≤ 1 ∧
      (⟨480, .restore⟩ ∈ c.queue.pending ∨ c.queue.inFlight = some ⟨480, .restore⟩) := by
  obtain ⟨c, hrun, hdesired, hready, heffective⟩ : ∃ c, exec step { queue := { capacity := 1 } } [.push 480, .drainOne,
      .cancel 480, .begin ⟨480, .remove⟩, .push 480, .drainOne, .begin ⟨480, .remove⟩, .cancel 480,
      .readyToRestore 480, .finish ⟨480, .remove⟩] = some c ∧ c.queue.desired = ∅ ∧ c.queue.presentReady = {480} ∧
      c.queue.effectiveRemoved = {480} := ⟨_, rfl, by decide +kernel, by decide +kernel, by decide +kernel⟩
  obtain ⟨-, -, hbounded, -, hrestores, -⟩ := removal_queue_covers_every_wanted_change hrun
  exact ⟨c, hrun, hbounded, hrestores 480 (by simp [hdesired]) (by simp [hready]) (by simp [heffective])⟩

end SlsteamMoon.LibraryRemoval
