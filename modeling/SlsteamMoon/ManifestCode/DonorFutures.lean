import SlsteamMoon.ManifestCode.DonorSession

/-! Where a request's promise is: completed, under its job, or in the hands of a response
that is about to complete it. Each path takes it from one place and leaves it in one. -/
namespace SlsteamMoon.ManifestCode
open Runs

/-- The first element that is found apart, what erasing it leaves. -/
theorem find?_eraseP {α : Type*} {p : α → Bool} {l : List α} {a : α} (h : l.find? p = some a) :
    p a = true ∧ ∃ above below, l = above ++ a :: below ∧ l.eraseP p = above ++ below := by
  obtain ⟨ha, above, below, rfl, habove⟩ := List.find?_eq_some_iff_append.mp h
  refine ⟨ha, above, below, rfl, ?_⟩
  rw [List.eraseP_append_right _ fun b hb => by simpa using habove b hb, List.eraseP_cons_of_pos ha]

namespace DonorState

def pendingOf (s : DonorState) (r : Nat) : Nat := s.pending.countP fun p => p.2 = r

def heldBy (s : DonorState) (r : Nat) : Nat := s.frames.countP fun f => f.2.holds r

/-- How often the request's future is completed or still to be. -/
def accounts (s : DonorState) (r : Nat) : Nat := (s.futures r).length + s.pendingOf r + s.heldBy r

/-- Every request's future is accounted for once. -/
def Once (s : DonorState) : Prop := ∀ r, s.accounts r = if r < s.requests then 1 else 0

section
variable {s : DonorState} {i r : Nat} {f : Frame} {job : UInt64}

theorem find?_top (htop : s.top i = some f) : (s.frames.find? fun f => f.1 = i) = some (i, f) := by
  obtain ⟨found, hfound, rfl⟩ := Option.map_eq_some_iff.mp htop
  obtain rfl : found.1 = i := by simpa using List.find?_some hfound
  exact hfound

theorem countP_pop (htop : s.top i = some f) (p : Nat × Frame → Bool) :
    s.frames.countP p = (s.pop i).frames.countP p + if p (i, f) then 1 else 0 := by
  obtain ⟨-, above, below, hframes, hpop⟩ := find?_eraseP (find?_top htop)
  rw [pop, hpop, hframes]
  simp only [List.countP_append, List.countP_cons]
  omega

private theorem accounts_completePromise (s : DonorState) (r' : Nat) (o : Outcome) (r : Nat) :
    (s.completePromise r' o).accounts r = s.accounts r + if r = r' then 1 else 0 := by
  show ((Function.update s.futures r' (s.futures r' ++ [o])) r).length + s.pendingOf r + s.heldBy r = _
  rw [Function.update_apply, accounts]
  split
  · rename_i hr
    rw [hr, List.length_append, List.length_singleton]
    omega
  · omega

private theorem accounts_push (s : DonorState) (i : Nat) (f : Frame) (r : Nat) :
    (s.push i f).accounts r = s.accounts r + if f.holds r then 1 else 0 := by
  show (s.futures r).length + s.pendingOf r + ((i, f) :: s.frames).countP (fun f => f.2.holds r) = _
  rw [List.countP_cons, accounts, heldBy]
  exact (Nat.add_assoc ..).symm

private theorem accounts_pop (htop : s.top i = some f) (r : Nat) :
    s.accounts r = (s.pop i).accounts r + if f.holds r then 1 else 0 := by
  have hcount := countP_pop htop fun f => f.2.holds r
  show (s.futures r).length + s.pendingOf r + s.frames.countP (fun f => f.2.holds r) =
    (s.futures r).length + s.pendingOf r + (s.pop i).frames.countP (fun f => f.2.holds r) + _
  rw [hcount, Nat.add_assoc, Nat.add_assoc, Nat.add_assoc]

/-- The entry of a job apart, the entries are the others. -/
theorem pendingOf_erase {p : UInt64 × Nat} (hfound : (s.pending.find? fun p => p.1 = job) = some p) (r : Nat) :
    s.pendingOf r = (s.pending.eraseP fun p => p.1 = job).countP (fun p => p.2 = r) + if r = p.2 then 1 else 0 := by
  obtain ⟨-, above, below, hpending, herase⟩ := find?_eraseP hfound
  rw [herase, pendingOf, hpending]
  simp only [List.countP_append, List.countP_cons]
  by_cases hr : r = p.2
  · simp [hr]
    omega
  · simp [hr, Ne.symm hr]

private theorem accounts_failPending (s : DonorState) (job : UInt64) (r : Nat) :
    (s.failPending job).accounts r = s.accounts r := by
  unfold failPending
  split
  · rename_i p hfound
    rw [accounts_completePromise]
    have hcount := pendingOf_erase hfound r
    show (s.futures r).length + (s.pending.eraseP fun p => p.1 = job).countP (fun p => p.2 = r) + s.heldBy r + _ = _
    rw [accounts]
    omega
  · rfl

private theorem foldl_completePromise (entries : List (UInt64 × Nat)) (s : DonorState) :
    ∃ futures, entries.foldl (fun s p => s.completePromise p.2 (.value 0)) s = { s with futures } ∧
      ∀ r, (futures r).length = (s.futures r).length + entries.countP fun p => p.2 = r := by
  induction entries generalizing s with
  | nil => exact ⟨s.futures, rfl, fun _ => rfl⟩
  | cons p entries ih =>
    obtain ⟨futures, hfold, hlength⟩ := ih (s.completePromise p.2 (.value 0))
    refine ⟨futures, hfold, fun r => ?_⟩
    rw [hlength, List.countP_cons]
    show ((Function.update s.futures p.2 (s.futures p.2 ++ [.value 0])) r).length + _ = _
    rw [Function.update_apply]
    split
    · rename_i hr
      simp [hr]
      omega
    · rename_i hr
      simp [Ne.symm hr]

/-- A cleared session has completed every entry and forgotten its context. -/
theorem clearDonorSessionLocked_eq (s : DonorState) :
    ∃ futures, s.clearDonorSessionLocked =
        { s with futures, pending := [], passive := [], connection := none, header := [] } ∧
      ∀ r, (futures r).length = (s.futures r).length + s.pendingOf r := by
  obtain ⟨futures, hfold, hlength⟩ := foldl_completePromise s.pending s
  refine ⟨futures, ?_, hlength⟩
  unfold clearDonorSessionLocked
  rw [hfold]

private theorem accounts_clear (s : DonorState) (r : Nat) : s.clearDonorSessionLocked.accounts r = s.accounts r := by
  obtain ⟨futures, hclear, hlength⟩ := clearDonorSessionLocked_eq s
  rw [hclear]
  show (futures r).length + 0 + s.heldBy r = _
  rw [hlength, accounts]
  omega

private theorem accounts_emplacePending (s : DonorState) (job : UInt64) (r' r : Nat) :
    (s.emplacePending job r').accounts r = s.accounts r + if r = r' then 1 else 0 := by
  unfold emplacePending
  split
  · exact accounts_completePromise s r' .broken r
  · show (s.futures r).length + ((job, r') :: s.pending).countP (fun p => p.2 = r) + s.heldBy r = _
    rw [List.countP_cons, accounts, pendingOf]
    by_cases hr : r = r'
    · simp [hr]
      omega
    · simp [hr, Ne.symm hr]

theorem Once.same {t : DonorState} (h : s.Once) (haccounts : ∀ r, t.accounts r = s.accounts r)
    (hrequests : t.requests = s.requests) : t.Once := by
  intro r
  rw [haccounts, hrequests]
  exact h r

/-- A new request brings its future. -/
theorem Once.grown {t : DonorState} (h : s.Once)
    (haccounts : ∀ r, t.accounts r = s.accounts r + if r = s.requests then 1 else 0)
    (hrequests : t.requests = s.requests + 1) : t.Once := by
  intro r
  rw [haccounts, hrequests, h r]
  rcases Nat.lt_trichotomy r s.requests with hr | rfl | hr
  · rw [if_pos hr, if_neg (Nat.ne_of_lt hr), if_pos (Nat.lt_succ_of_lt hr)]
  · rw [if_neg (Nat.lt_irrefl _), if_pos rfl, if_pos (Nat.lt_succ_self _)]
  · rw [if_neg (Nat.not_lt_of_gt hr), if_neg (Nat.ne_of_gt hr), if_neg (by omega)]

private theorem failPending_requests (s : DonorState) (job : UInt64) : (s.failPending job).requests = s.requests := by
  unfold failPending
  split <;> rfl

private theorem clear_requests (s : DonorState) : s.clearDonorSessionLocked.requests = s.requests := by
  obtain ⟨futures, hclear, -⟩ := clearDonorSessionLocked_eq s
  rw [hclear]

private theorem emplacePending_requests (s : DonorState) (job : UInt64) (r : Nat) :
    (s.emplacePending job r).requests = s.requests := by
  unfold emplacePending
  split <;> rfl

private theorem failRequest_once (h : s.Once) : s.failRequest.Once :=
  h.grown (fun r => accounts_completePromise { s with requests := s.requests + 1 } s.requests (.value 0) r) rfl

private theorem requestCode_once (h : s.Once) (i : Nat) (depotId : UInt32) (gid : UInt64) (encoding : Encoding) :
    (s.requestCode i depotId gid encoding).Once := by
  unfold requestCode
  split
  · exact failRequest_once h
  · split
    · exact failRequest_once h
    · rename_i connection _
      split
      · exact failRequest_once h
      · split
        · exact failRequest_once h
        · dsimp only
          split
          · exact failRequest_once (s := { s with nextDonorJob := s.nextDonorJob + 1 }) h
          · refine h.grown (fun r => ?_) ?_
            · rw [accounts_push]
              exact accounts_emplacePending
                { s with nextDonorJob := s.nextDonorJob + 1, requests := s.requests + 1 } _ _ r
            · exact emplacePending_requests _ _ _

/-- The frame that goes holds no promise. -/
theorem pop_once (h : s.Once) (htop : s.top i = some f) (hholds : ∀ r, f.holds r = false) : (s.pop i).Once := by
  refine h.same (fun r => ?_) rfl
  have hcount := accounts_pop htop r
  rw [hholds r] at hcount
  exact hcount.symm

private theorem push_once (h : s.Once) (i : Nat) (hholds : ∀ r, f.holds r = false) : (s.push i f).Once := by
  refine h.same (fun r => ?_) rfl
  rw [accounts_push, hholds r]
  rfl

private theorem failPending_once (h : s.Once) (job : UInt64) : (s.failPending job).Once :=
  h.same (accounts_failPending s job) (failPending_requests s job)

private theorem clear_once (h : s.Once) : s.clearDonorSessionLocked.Once := h.same (accounts_clear s) (clear_requests s)

private theorem sendSection_once (h : s.Once) : s.sendSection.Once := by
  unfold sendSection
  dsimp only
  split
  · exact clear_once (s := { s with activeSends := s.activeSends - 1 }) h
  · exact h

/-- A response takes the promise out of the entries and holds it. -/
theorem resolveDonorResponse_once (h : s.Once) (i : Nat) (job code : UInt64) :
    (s.resolveDonorResponse i job code).Once := by
  unfold resolveDonorResponse
  dsimp only
  split
  · exact h
  · refine h.same (fun r => ?_) rfl
    rw [accounts_push]
    show (s.futures r).length + (s.pending.eraseP fun p => p.1 = job).countP (fun p => p.2 = r) + s.heldBy r + _ = _
    cases hfound : s.pending.find? fun p => p.1 = job with
    | none =>
      rw [List.eraseP_of_forall_not fun p hp => by simpa using List.find?_eq_none.mp hfound p hp]
      rfl
    | some p =>
      have hcount := pendingOf_erase hfound r
      rw [accounts, hcount]
      by_cases hr : r = p.2
      · simp [Frame.holds, hr]
        omega
      · simp [Frame.holds, hr, Ne.symm hr]

theorem completeResolved_eq (s : DonorState) (promise : Option Nat) (sent : Option PassiveRequest) (code : UInt64) :
    ∃ submitted, s.completeResolved promise sent code = { s.completeOriginated promise code with submitted } := by
  unfold completeResolved
  cases sent with
  | none => exact ⟨_, rfl⟩
  | some request =>
    dsimp only
    split <;> exact ⟨_, rfl⟩

/-- The promise of a response leaves its frame for the outcomes. -/
theorem completeResolved_once (h : s.Once) {promise : Option Nat} {sent : Option PassiveRequest} {code : UInt64}
    (htop : s.top i = some (.resolving promise sent code)) :
    ((s.pop i).completeResolved promise sent code).Once := by
  obtain ⟨submitted, hcompleted⟩ := completeResolved_eq (s.pop i) promise sent code
  rw [hcompleted]
  refine h.same (fun r => ?_) ?_
  · rw [accounts_pop htop]
    show ((s.pop i).completeOriginated promise code).accounts r = _
    cases promise with
    | none => rfl
    | some p =>
      rw [completeOriginated, accounts_completePromise]
      by_cases hr : r = p
      · simp [Frame.holds, hr]
      · simp [Frame.holds, hr, Ne.symm hr]
  · cases promise <;> rfl

private theorem beginReset_once (h : s.Once) (i : Nat) : (s.beginReset i).Once := by
  have hcleared : ({ s with
      resetting := true
      contextGeneration := s.contextGeneration + 1
      increments := s.increments + 1
      resetCalls := s.resetCalls + 1 } : DonorState).clearDonorSessionLocked.Once := clear_once h
  unfold beginReset
  dsimp only
  split
  · exact hcleared
  · exact push_once hcleared i fun _ => rfl

theorem Moves.once {t : DonorState} (hmoves : s.Moves t) (h : s.Once) : t.Once := by
  cases hmoves with
  | stays => exact h
  | requestCode i depotId gid encoding => exact requestCode_once h i depotId gid encoding
  | sendReturns htop => exact push_once (pop_once h htop fun _ => rfl) _ fun _ => rfl
  | sendSection htop => exact sendSection_once (pop_once h htop fun _ => rfl)
  | sendRefused htop => exact push_once (sendSection_once (pop_once h htop fun _ => rfl)) _ fun _ => rfl
  | rejectSection htop => exact failPending_once (pop_once h htop fun _ => rfl) _
  | discardRequest job => exact failPending_once h job
  | resolveDonorResponse i job code => exact resolveDonorResponse_once h i job code
  | complete htop => exact completeResolved_once h htop
  | observe job request expired =>
    unfold DonorState.observe
    dsimp only
    split <;> exact h
  | hookReads i connection header => exact push_once h i fun _ => rfl
  | hookCaptures htop =>
    have hpop := pop_once h htop fun _ => rfl
    unfold DonorState.hookCaptures
    split <;> exact hpop
  | resetSession i =>
    unfold DonorState.resetSession
    split
    · split
      · exact h
      · exact push_once h i fun _ => rfl
    · exact beginReset_once h i
  | resetWakes htop => exact beginReset_once (pop_once h htop fun _ => rfl) _
  | resetDrained htop =>
    have hpop := pop_once h htop fun _ => rfl
    exact push_once (clear_once (s := { s.pop _ with resetting := false }) hpop) _ fun _ => rfl
  | resetReturns htop => exact pop_once h htop fun _ => rfl

end

end DonorState
end SlsteamMoon.ManifestCode
