import SlsteamMoon.ManifestCode.DonorFutures
import SlsteamMoon.ManifestCode.DonorResets
import Mathlib.Algebra.GroupWithZero.Nat

/-! Job numbers are handed out in order, so a promise finds its job taken only after they
have come round. -/
namespace SlsteamMoon.ManifestCode
open Runs

namespace DonorState

/-- The first n jobs are handed out, and none of them twice before they come round. -/
structure Numbered (s : DonorState) (n : Nat) : Prop where
  next : s.nextDonorJob = donorJobBase + UInt64.ofNat n
  few : n ≤ s.requests
  pending : ∀ p ∈ s.pending, ∃ k, 1 ≤ k ∧ k ≤ n ∧ p.1 = donorJobBase + UInt64.ofNat k
  broken : ∀ r, .broken ∈ s.futures r → 2 ^ 64 < s.requests

private theorem numbered_start : Numbered {} 0 where
  next := rfl
  few := Nat.le_refl _
  pending p hp := by cases hp
  broken r hr := by cases hr

/-- No job is handed out, and no promise entered or destroyed. -/
structure Completes (s t : DonorState) : Prop where
  next : t.nextDonorJob = s.nextDonorJob
  requests : s.requests ≤ t.requests
  pending : t.pending ⊆ s.pending
  broken : ∀ r, .broken ∈ t.futures r → .broken ∈ s.futures r

section
variable {s t : DonorState} {n : Nat}

theorem Completes.same (hnext : t.nextDonorJob = s.nextDonorJob) (hrequests : t.requests = s.requests)
    (hpending : t.pending = s.pending) (hfutures : t.futures = s.futures) : s.Completes t where
  next := hnext
  requests := Nat.le_of_eq hrequests.symm
  pending p hp := hpending ▸ hp
  broken r hr := by rwa [hfutures] at hr

theorem Completes.refl (s : DonorState) : s.Completes s := .same rfl rfl rfl rfl

private theorem pop_completes (s : DonorState) (i : Nat) : s.Completes (s.pop i) := .same rfl rfl rfl rfl

private theorem push_completes (s : DonorState) (i : Nat) (f : Frame) : s.Completes (s.push i f) :=
  .same rfl rfl rfl rfl

theorem Completes.trans {u : DonorState} (h : s.Completes t) (h' : t.Completes u) : s.Completes u where
  next := h'.next.trans h.next
  requests := Nat.le_trans h.requests h'.requests
  pending _ hp := h.pending (h'.pending hp)
  broken r hr := h.broken r (h'.broken r hr)

theorem Completes.numbered (hc : s.Completes t) (h : s.Numbered n) : t.Numbered n where
  next := hc.next.trans h.next
  few := Nat.le_trans h.few hc.requests
  pending p hp := h.pending p (hc.pending hp)
  broken r hr := Nat.lt_of_lt_of_le (h.broken r (hc.broken r hr)) hc.requests

private theorem mem_completePromise {r r' : Nat} {o o' : Outcome} (h : o ∈ (s.completePromise r' o').futures r) :
    o ∈ s.futures r ∨ o = o' := by
  change o ∈ Function.update s.futures r' (s.futures r' ++ [o']) r at h
  rw [Function.update_apply] at h
  split at h
  · rename_i hr
    rw [hr]
    simpa using h
  · exact .inl h

private theorem completePromise_completes (s : DonorState) (r : Nat) (code : UInt64) :
    s.Completes (s.completePromise r (.value code)) where
  next := rfl
  requests := Nat.le_refl _
  pending := List.Subset.refl _
  broken r' hr := (mem_completePromise hr).resolve_right (by rintro ⟨⟩)

private theorem failPending_completes (s : DonorState) (job : UInt64) : s.Completes (s.failPending job) := by
  unfold failPending
  split
  · rename_i p _
    have herased : s.Completes { s with pending := s.pending.eraseP fun p => p.1 = job } :=
      ⟨rfl, Nat.le_refl _, List.eraseP_subset, fun _ => id⟩
    exact herased.trans (completePromise_completes _ p.2 0)
  · exact .refl s

private theorem foldl_completes (entries : List (UInt64 × Nat)) (s : DonorState) :
    s.Completes (entries.foldl (fun s p => s.completePromise p.2 (.value 0)) s) := by
  induction entries generalizing s with
  | nil => exact .refl s
  | cons p entries ih => exact (completePromise_completes s p.2 0).trans (ih _)

private theorem clear_completes (s : DonorState) : s.Completes s.clearDonorSessionLocked := by
  have hfold := foldl_completes s.pending s
  exact ⟨hfold.next, hfold.requests, List.nil_subset _, hfold.broken⟩

private theorem failRequest_completes (s : DonorState) : s.Completes s.failRequest := by
  have hnew : s.Completes { s with requests := s.requests + 1 } :=
    ⟨rfl, Nat.le_succ _, List.Subset.refl _, fun _ => id⟩
  exact hnew.trans (completePromise_completes _ s.requests 0)

/-- The next job, whatever becomes of it. -/
theorem numbered_next (h : s.Numbered n) :
    { s with nextDonorJob := s.nextDonorJob + 1, requests := s.requests + 1 }.Numbered (n + 1) where
  next := by
    show s.nextDonorJob + 1 = _
    rw [h.next, UInt64.ofNat_add]
    exact UInt64.add_assoc ..
  few := Nat.succ_le_succ h.few
  pending p hp := by
    obtain ⟨k, hpos, hk, hjob⟩ := h.pending p hp
    exact ⟨k, hpos, Nat.le_succ_of_le hk, hjob⟩
  broken r hr := Nat.lt_succ_of_lt (h.broken r hr)

/-- A job that is still pending is handed out again only 2^64 jobs later. -/
theorem Numbered.round (h : s.Numbered n) {p : UInt64 × Nat} (hp : p ∈ s.pending)
    (hjob : p.1 = s.nextDonorJob + 1) : 2 ^ 64 ≤ n := by
  obtain ⟨k, hpos, hk, hnumber⟩ := h.pending p hp
  rw [hnumber, h.next, UInt64.add_assoc, UInt64.add_right_inj] at hjob
  have hmod := congrArg UInt64.toNat hjob
  simp only [UInt64.toNat_add, UInt64.toNat_ofNat', UInt64.toNat_one] at hmod
  omega

private theorem emplacePending_numbered (h : s.Numbered n) :
    ({ s with nextDonorJob := s.nextDonorJob + 1, requests := s.requests + 1 }.emplacePending
      (s.nextDonorJob + 1) s.requests).Numbered (n + 1) := by
  have hnext := numbered_next h
  unfold emplacePending
  split
  · rename_i htaken
    obtain ⟨p, hp, hjob⟩ := List.any_eq_true.mp htaken
    have hround := h.round hp (by simpa using hjob)
    exact ⟨hnext.next, hnext.few, hnext.pending, fun _ _ => Nat.lt_succ_of_le (Nat.le_trans hround h.few)⟩
  · refine ⟨hnext.next, hnext.few, fun p hp => ?_, hnext.broken⟩
    rcases List.mem_cons.mp hp with rfl | hold
    · exact ⟨n + 1, Nat.succ_pos n, Nat.le_refl _, hnext.next⟩
    · exact hnext.pending p hold

private theorem requestCode_numbered (h : s.Numbered n) (i : Nat) (depotId : UInt32) (gid : UInt64)
    (encoding : Encoding) : ∃ m, (s.requestCode i depotId gid encoding).Numbered m := by
  have hfail : s.failRequest.Numbered n := (failRequest_completes s).numbered h
  unfold requestCode
  split
  · exact ⟨n, hfail⟩
  · split
    · exact ⟨n, hfail⟩
    · split
      · exact ⟨n, hfail⟩
      · split
        · exact ⟨n, hfail⟩
        · dsimp only
          split
          · have hvalue := completePromise_completes
              { s with nextDonorJob := s.nextDonorJob + 1, requests := s.requests + 1 } s.requests 0
            exact ⟨n + 1, hvalue.numbered (numbered_next h)⟩
          · have hentered := emplacePending_numbered h
            exact ⟨n + 1, hentered.next, hentered.few, hentered.pending, hentered.broken⟩

private theorem sendSection_completes (s : DonorState) : s.Completes s.sendSection := by
  unfold sendSection
  dsimp only
  split
  · have hcleared := clear_completes { s with activeSends := s.activeSends - 1 }
    exact ⟨hcleared.next, hcleared.requests, hcleared.pending, hcleared.broken⟩
  · exact .same rfl rfl rfl rfl

private theorem resolveDonorResponse_completes (s : DonorState) (i : Nat) (job code : UInt64) :
    s.Completes (s.resolveDonorResponse i job code) := by
  unfold resolveDonorResponse
  dsimp only
  split
  · exact .refl s
  · exact ⟨rfl, Nat.le_refl _, List.eraseP_subset, fun _ => id⟩

private theorem completeResolved_completes (s : DonorState) (promise : Option Nat) (sent : Option PassiveRequest)
    (code : UInt64) : s.Completes (s.completeResolved promise sent code) := by
  obtain ⟨submitted, hcompleted⟩ := completeResolved_eq s promise sent code
  rw [hcompleted]
  cases promise with
  | none => exact .same rfl rfl rfl rfl
  | some r =>
    have hvalue := completePromise_completes s r code
    exact ⟨hvalue.next, hvalue.requests, hvalue.pending, hvalue.broken⟩

private theorem beginReset_completes (s : DonorState) (i : Nat) : s.Completes (s.beginReset i) := by
  have hcleared := clear_completes { s with
    resetting := true
    contextGeneration := s.contextGeneration + 1
    increments := s.increments + 1
    resetCalls := s.resetCalls + 1 }
  unfold beginReset
  dsimp only
  split <;> exact ⟨hcleared.next, hcleared.requests, hcleared.pending, hcleared.broken⟩

private theorem resetSession_completes (s : DonorState) (i : Nat) : s.Completes (s.resetSession i) := by
  unfold resetSession
  split
  · split
    · exact .same rfl rfl rfl rfl
    · exact push_completes s i .resetWaits
  · exact beginReset_completes s i

private theorem observe_completes (s : DonorState) (job : UInt64) (request : PassiveRequest) (expired : List UInt64) :
    s.Completes (s.observe job request expired) := by
  unfold observe
  dsimp only
  split <;> exact .same rfl rfl rfl rfl

private theorem hookCaptures_completes (s : DonorState) (i : Nat) (hook : SendHook) :
    s.Completes (s.hookCaptures i hook) := by
  unfold hookCaptures
  split <;> exact .same rfl rfl rfl rfl

theorem Moves.numbered (hmoves : s.Moves t) (h : s.Numbered n) : ∃ m, t.Numbered m := by
  cases hmoves with
  | requestCode i depotId gid encoding => exact requestCode_numbered h i depotId gid encoding
  | stays => exact ⟨n, h⟩
  | sendReturns => exact ⟨n, ((pop_completes s _).trans (push_completes _ _ _)).numbered h⟩
  | sendSection => exact ⟨n, ((pop_completes s _).trans (sendSection_completes _)).numbered h⟩
  | @sendRefused i =>
    have hsection := (pop_completes s i).trans (sendSection_completes _)
    exact ⟨n, (hsection.trans (push_completes _ _ _)).numbered h⟩
  | rejectSection => exact ⟨n, ((pop_completes s _).trans (failPending_completes _ _)).numbered h⟩
  | discardRequest job => exact ⟨n, (failPending_completes s job).numbered h⟩
  | resolveDonorResponse i job code => exact ⟨n, (resolveDonorResponse_completes s i job code).numbered h⟩
  | complete => exact ⟨n, ((pop_completes s _).trans (completeResolved_completes _ _ _ _)).numbered h⟩
  | observe job request expired => exact ⟨n, (observe_completes s job request expired).numbered h⟩
  | hookReads i connection header => exact ⟨n, (push_completes s i _).numbered h⟩
  | hookCaptures => exact ⟨n, ((pop_completes s _).trans (hookCaptures_completes _ _ _)).numbered h⟩
  | resetSession i => exact ⟨n, (resetSession_completes s i).numbered h⟩
  | resetWakes => exact ⟨n, ((pop_completes s _).trans (beginReset_completes _ _)).numbered h⟩
  | @resetDrained i =>
    have hcleared := clear_completes { s.pop i with resetting := false }
    have hdrained : s.Completes { s.pop i with resetting := false } := .same rfl rfl rfl rfl
    exact ⟨n, ((hdrained.trans hcleared).trans (push_completes _ _ _)).numbered h⟩
  | resetReturns => exact ⟨n, (pop_completes s _).numbered h⟩

end

end DonorState
end SlsteamMoon.ManifestCode

/-! Donor requests and resets over whole runs. -/
namespace SlsteamMoon.ManifestCode
open Runs

namespace DonorState

/-- The request's future is completed, or its promise is in the one place that completes
it. Only after 2^64 requests is a future left broken. -/
def Kept (s : DonorState) (r : Nat) : Prop :=
  (∃ o, s.futures r = [o] ∧ (o = .broken → 2 ^ 64 < s.requests)) ∧ s.pendingOf r = 0 ∧ s.heldBy r = 0 ∨
    s.futures r = [] ∧ s.pendingOf r = 1 ∧ s.heldBy r = 0 ∨
    s.futures r = [] ∧ s.pendingOf r = 0 ∧ s.heldBy r = 1

section
variable {s : DonorState}

theorem Once.kept (h : s.Once) {n : Nat} (hnumbered : s.Numbered n) {r : Nat} (hr : r < s.requests) : s.Kept r := by
  have hone := h r
  rw [if_pos hr, accounts] at hone
  unfold Kept
  cases hfutures : s.futures r with
  | nil =>
    rw [hfutures, List.length_nil] at hone
    have hwhere : s.pendingOf r = 1 ∧ s.heldBy r = 0 ∨ s.pendingOf r = 0 ∧ s.heldBy r = 1 := by omega
    rcases hwhere with hpending | hheld
    · exact .inr (.inl ⟨rfl, hpending⟩)
    · exact .inr (.inr ⟨rfl, hheld⟩)
  | cons o outcomes =>
    rw [hfutures, List.length_cons] at hone
    have hlast : outcomes = [] := List.length_eq_zero_iff.mp (by omega)
    subst hlast
    refine .inl ⟨⟨o, rfl, ?_⟩, by omega, by omega⟩
    rintro rfl
    exact hnumbered.broken r (by rw [hfutures]; exact List.mem_singleton_self _)

/-- A hook that installs its context has seen the last reset, unless the generation has
come round. -/
theorem Session.installs (h : s.Session) {i : Nat} {hook : SendHook} (htop : s.top i = some (.hooked hook))
    (hinstalls : (s.pop i).installs i hook = true) :
    hook.resetCalls = s.resetCalls ∨ hook.increments + 2 ^ 64 ≤ s.increments := by
  obtain ⟨-, -, hgeneration, -, hsame⟩ := of_decide_eq_true hinstalls
  obtain ⟨hread, hearlier, hquiet⟩ := h.frame i _ (mem_top htop) hgeneration
  change hook.generation = s.contextGeneration at hsame
  rw [hread, h.generation, UInt64.add_right_inj] at hsame
  by_cases hlast : hook.increments = s.increments
  · exact .inl (hquiet hlast).2
  · refine .inr ?_
    have hmod := congrArg UInt64.toNat hsame
    simp only [UInt64.toNat_ofNat'] at hmod
    omega

theorem donor_sessions (events : List DonorEvent) (hrun : exec step {} events = some s) :
    (∀ r < s.requests, s.Kept r) ∧
      (∀ i hook, s.top i = some (.hooked hook) → (s.pop i).installs i hook = true →
        hook.resetCalls = s.resetCalls ∨ hook.increments + 2 ^ 64 ≤ s.increments) ∧
      (∀ i n j job connection capturedAt, (i, .resetDone n) ∈ s.frames →
        (j, .sending job connection capturedAt) ∈ s.frames → n ≤ capturedAt) := by
  have honce : s.Once := exec_preserves (P := Once) (fun _ _ _ h hstep => (step_moves hstep).once h) (fun _ => rfl) hrun
  obtain ⟨n, hnumbered⟩ := exec_preserves (P := fun s => ∃ n, s.Numbered n)
    (fun _ _ _ ⟨_, h⟩ hstep => (step_moves hstep).numbered h) ⟨0, numbered_start⟩ hrun
  have hsession : s.Session := exec_preserves (P := Session)
    (fun _ _ _ h hstep => (step_moves hstep).session h) session_start hrun
  refine ⟨fun r hr => honce.kept hnumbered hr, fun i hook => hsession.installs, ?_⟩
  intro i n j job connection capturedAt hdone hsend
  exact (hsession.frame i _ hdone).2.2 j job connection capturedAt hsend

/-- A send over the old connection has returned before the reset has. -/
def reconnect : List DonorEvent :=
  [.hookReads 0 (some 5) [1], .hookCaptures 0, .requestCode 1 10 7 {}, .resetSession 2, .sendReturns 1 true,
    .sendSection 1, .resetDrained 2, .hookReads 0 (some 6) [2], .hookCaptures 0, .requestCode 1 10 7 {},
    .hookReads 3 (some 7) [3]]

theorem reconnect_sessions :
    ∃ s hook job capturedAt, exec step {} reconnect = some s ∧ s.Kept 0 ∧ s.Kept 1 ∧ s.top 3 = some (.hooked hook) ∧
      (hook.resetCalls = s.resetCalls ∨ hook.increments + 2 ^ 64 ≤ s.increments) ∧
      (2, .resetDone 1) ∈ s.frames ∧ (1, .sending job 6 capturedAt) ∈ s.frames ∧ 1 ≤ capturedAt := by
  obtain ⟨s, hook, job, hrun, hrequests, htop, hinstalls, hdone, hsend⟩ : ∃ s hook job,
      exec step {} reconnect = some s ∧ s.requests = 2 ∧ s.top 3 = some (.hooked hook) ∧
        (s.pop 3).installs 3 hook = true ∧ (2, .resetDone 1) ∈ s.frames ∧ (1, .sending job 6 1) ∈ s.frames :=
    ⟨_, _, _, rfl, rfl, rfl, by decide, .tail _ (.tail _ (.head _)), .tail _ (.head _)⟩
  obtain ⟨hkept, hhooks, hresets⟩ := donor_sessions reconnect hrun
  exact ⟨s, hook, job, 1, hrun, hkept 0 (by omega), hkept 1 (by omega), htop, hhooks 3 hook htop hinstalls, hdone, hsend,
    hresets 2 1 1 job 6 1 hdone hsend⟩

/-- A whole reset outside of any send. -/
def resetCycle : List DonorEvent := [.resetSession 1, .resetDrained 1, .resetReturns 1]

/-- A hook has read its generation n resets ago. -/
def turned (n : Nat) : DonorState :=
  { contextGeneration := 1 + UInt64.ofNat n
    frames := [(0, .hooked ⟨1, some 5, [1], 0, 0⟩)]
    increments := n
    resetCalls := n }

private theorem resetCycle_turned (n : Nat) : exec step (turned n) resetCycle = some (turned (n + 1)) := by
  unfold turned
  rw [UInt64.ofNat_add, ← UInt64.add_assoc]
  rfl

private theorem resetCycles_turned (n : Nat) :
    exec step {} (.hookReads 0 (some 5) [1] :: (List.replicate n resetCycle).flatten) = some (turned n) := by
  induction n with
  | zero => rfl
  | succ n ih =>
    rw [List.replicate_succ', List.flatten_append, List.flatten_singleton, ← List.cons_append, exec_append, ih]
    exact resetCycle_turned n

/-- A response has taken the promise of a request out of the entries and not completed it
yet, and a hook that waits for 2^64 resets installs what it has read before them. -/
theorem answer_taken_generation_round :
    (∃ events s, exec step {} events = some s ∧ 0 < s.requests ∧ s.futures 0 = [] ∧ s.pendingOf 0 = 0) ∧
      ∃ events s hook, exec step {} events = some s ∧ s.top 0 = some (.hooked hook) ∧ s.hookGoesOn 0 hook = true ∧
        (s.pop 0).installs 0 hook = true ∧ hook.resetCalls < s.resetCalls := by
  constructor
  · exact ⟨[.hookReads 0 (some 5) [1], .hookCaptures 0, .requestCode 1 10 7 {},
      .resolveDonorResponse 2 (donorJobBase + 1) 9], _, rfl, by decide, rfl, rfl⟩
  · refine ⟨_, _, _, resetCycles_turned (2 ^ 64), rfl, ?_, ?_, ?_⟩
    · decide +kernel
    · decide +kernel
    · show 0 < 2 ^ 64
      decide

end

end DonorState
end SlsteamMoon.ManifestCode
