import SlsteamMoon.ManifestFetch.WorkerSteps

/-! Two workers of one manifest. The worker of a job that a reset dropped stays in its
attempt, and the next request launches another job beside it. -/
namespace SlsteamMoon.ManifestFetch
open Runs

namespace BlobState

/-- The workers go on and time passes. -/
def worksOn : BlobEvent → Bool
  | .expire _ => true
  | .take _ => true
  | .worker _ _ => true
  | .decide _ => true
  | _ => false

private theorem settled_of_worksOn {s : BlobState} {e : BlobEvent} (he : worksOn e = true) : s.Settled e := by
  intro key hkey
  cases e <;> first | cases hkey | cases he

section
variable {s t : BlobState} {m n : Nat} {key : BlobKey}

private theorem tidy_of_exec {events : List BlobEvent} (h : s.Tidy) (hrun : exec step s events = some t) : t.Tidy :=
  exec_preserves (fun _ _ _ => step_tidy) h hrun

/-- A worker that has left its attempt for good. -/
theorem deciding_ends (h : s.Tidy) {job : Nat} {ok activeRetryDone : Bool}
    (hw : s.workers m = some ⟨job, .deciding ok, activeRetryDone⟩) (hstop : (s.jobs job).shouldStop = true) :
    ∃ u, s.step (.decide m) = some u ∧ s.Ended m ⟨job, .deciding ok, activeRetryDone⟩ u :=
  ⟨s.decideBlob m ⟨job, .deciding ok, activeRetryDone⟩ ok, by simp only [step, hw], decideBlob_ended h (by simp [hstop])⟩

/-- A worker whose job has to stop leaves its attempt and ends. -/
theorem stopped_ends (h : s.Tidy) {w : Worker} (hw : s.workers m = some w)
    (hstop : (s.jobs w.job).shouldStop = true) :
    ∃ more u, (∀ e ∈ more, worksOn e = true) ∧ exec step s more = some u ∧ s.Ended m w u := by
  have hleaves : ∀ e, w.next (s.jobs w.job) e = some { w with stage := .deciding false } →
      ∃ more u, (∀ e ∈ more, worksOn e = true) ∧ exec step s more = some u ∧ s.Ended m w u := by
    intro e hnext
    have hstep : s.step (.worker m e) = some (s.setWorker m (some { w with stage := .deciding false })) := by
      simp only [step, hw, hnext, Option.map_some]
    have hleft : (s.setWorker m (some { w with stage := .deciding false })).workers m =
        some ⟨w.job, .deciding false, w.activeRetryDone⟩ := by rw [workers_setWorker, if_pos rfl]
    obtain ⟨u, hu, hended⟩ := deciding_ends (step_tidy h hstep) hleft hstop
    refine ⟨[.worker m e, .decide m], u, by simp [worksOn], ?_, ?_⟩
    · rw [exec_cons, hstep, Option.bind_some, exec_cons, hu]
      rfl
    · refine ⟨hended.launched, hended.queue, fun n => ?_, hended.jobs, hended.inflight⟩
      rw [hended.workers, workers_setWorker]
      split <;> rfl
  obtain ⟨job, stage, activeRetryDone⟩ := w
  cases stage with
  | top => exact hleaves .begins (by simp [Worker.next, hstop])
  | deciding ok =>
    obtain ⟨u, hu, hended⟩ := deciding_ends h hw hstop
    refine ⟨[.decide m], u, by simp [worksOn], ?_, hended⟩
    rw [exec_cons, hu]
    rfl
  | started => exact hleaves .threw rfl
  | restoring bypass => exact hleaves .threw rfl
  | fetching bypass => exact hleaves .threw rfl
  | requesting => exact hleaves .threw rfl
  | transferring => exact hleaves .threw rfl
  | writing => exact hleaves .threw rfl
  | publishing => exact hleaves .threw rfl

/-- A worker can be made free while nothing else moves. -/
theorem worker_frees (h : s.Tidy) (m : Nat) :
    ∃ more u, (∀ e ∈ more, worksOn e = true) ∧ exec step s more = some u ∧ u.workers m = none ∧ u.queue = s.queue ∧
      (∀ n, n ≠ m → u.workers n = s.workers n) ∧
        ∀ j, (∀ w, s.workers m = some w → w.job ≠ j) → u.jobs j = s.jobs j := by
  cases hw : s.workers m with
  | none => exact ⟨[], s, by simp, rfl, hw, rfl, fun _ _ => rfl, fun _ _ => rfl⟩
  | some w =>
    -- its deadline passes
    have hstep : s.step (.expire w.job) = some (s.modifyJob w.job fun job => { job with expired := true }) := by
      simp only [step, if_pos (h.known w.job (.inr ⟨m, w, hw, rfl⟩))]
    have hstop : ((s.modifyJob w.job fun job => { job with expired := true }).jobs w.job).shouldStop = true := by
      rw [jobs_modifyJob, if_pos rfl]
      simp [BlobJob.shouldStop]
    obtain ⟨more, u, hmore, hu, hended⟩ := stopped_ends (step_tidy h hstep) hw hstop
    refine ⟨.expire w.job :: more, u, List.forall_mem_cons.mpr ⟨rfl, hmore⟩, ?_, ?_, hended.queue, ?_, ?_⟩
    · rw [exec_cons, hstep]
      exact hu
    · rw [hended.workers, if_pos rfl]
    · intro n hn
      rw [hended.workers, if_neg hn]
      rfl
    · intro j hj
      have hne := hj w rfl
      rw [hended.jobs j hne.symm, jobs_modifyJob, if_neg hne.symm]

/-- Beside an attempt another worker takes the head of the queue. -/
theorem head_taken {j : Nat} {rest : List Nat} (h : s.Tidy) (hqueue : s.queue = j :: rest)
    (hattempts : s.Attempts m key) :
    ∃ other more u, other ≠ m ∧ (∀ e ∈ more, worksOn e = true) ∧ exec step s more = some u ∧
      u.workers other = some { job := j } ∧ u.queue = rest ∧ u.Attempts m key ∧
        ∀ i ∈ j :: rest, u.jobs i = s.jobs i := by
  obtain ⟨other, hother, hcount⟩ : ∃ other, other ≠ m ∧ other < workerCount := by
    by_cases hm : m = 0
    · exact ⟨1, by omega, by decide⟩
    · exact ⟨0, by omega, by decide⟩
  obtain ⟨more, u, hmore, hu, hfree, hkept, hothers, hjobs⟩ := worker_frees h other
  have hstep : u.step (.take other) = some ({ u with queue := rest }.setWorker other (some { job := j })) := by
    simp only [step, hkept, hqueue, hfree, and_true, if_pos hcount]
  refine ⟨other, more ++ [.take other], { u with queue := rest }.setWorker other (some { job := j }), hother, ?_, ?_,
    ?_, rfl, ?_, ?_⟩
  · intro e he
    rcases List.mem_append.mp he with he | he
    · exact hmore e he
    · rw [List.mem_singleton.mp he]
      rfl
  · rw [exec_append, hu, Option.bind_some, exec_cons, hstep]
    rfl
  · rw [workers_setWorker, if_pos rfl]
  · obtain ⟨w, hw, hbusy, hwkey⟩ := hattempts
    refine ⟨w, ?_, hbusy, ?_⟩
    · rw [workers_setWorker, if_neg hother.symm]
      exact (hothers m hother.symm).trans hw
    · show (u.jobs w.job).key = key
      rw [hjobs]
      · exact hwkey
      · intro w' hw' hsame
        exact hother (h.alone other m w' w hw' hw hsame)
  · intro i hi
    exact hjobs i fun w hw => h.once i (hqueue ▸ hi) other w hw

/-- A job that waits in the queue beside an attempt for its manifest is taken by another
worker, which begins an attempt of its own. -/
theorem queued_overlaps {before after : List Nat} (h : s.Tidy) (hqueue : s.queue = before ++ n :: after)
    (hattempts : s.Attempts m key) (hkey : (s.jobs n).key = key) (hgoes : (s.jobs n).shouldStop = false) :
    ∃ more u, (∀ e ∈ more, worksOn e = true) ∧ exec step s more = some u ∧ ¬ u.OneWorker := by
  induction before generalizing s with
  | nil =>
    obtain ⟨other, more, u, hother, hmore, hu, hw, -, hbusy, hjobs⟩ := head_taken h hqueue hattempts
    have hjob := hjobs n List.mem_cons_self
    have hstep : u.step (.worker other .begins) = some (u.setWorker other (some ⟨n, .started, false⟩)) := by
      simp only [step, hw, Worker.next, hjob, hgoes, Bool.false_eq_true, if_false, Option.map_some]
    refine ⟨more ++ [.worker other .begins], u.setWorker other (some ⟨n, .started, false⟩), ?_, ?_, fun hone => ?_⟩
    · intro e he
      rcases List.mem_append.mp he with he | he
      · exact hmore e he
      · rw [List.mem_singleton.mp he]
        rfl
    · rw [exec_append, hu, Option.bind_some, exec_cons, hstep]
      rfl
    · apply hother
      refine hone key other m ⟨_, by rw [workers_setWorker, if_pos rfl], rfl, ?_⟩ ?_
      · exact (congrArg BlobJob.key hjob).trans hkey
      · obtain ⟨w, hw', hattempting, hwkey⟩ := hbusy
        exact ⟨w, by rw [workers_setWorker, if_neg hother.symm, hw'], hattempting, hwkey⟩
  | cons j before ih =>
    obtain ⟨other, more, u, -, hmore, hu, -, hrest, hbusy, hjobs⟩ := head_taken h hqueue hattempts
    have hjob : u.jobs n = s.jobs n := hjobs n (by simp)
    obtain ⟨more', v, hmore', hv, htwo⟩ := ih (tidy_of_exec h hu) hrest hbusy (hjob ▸ hkey) (hjob ▸ hgoes)
    refine ⟨more ++ more', v, ?_, ?_, htwo⟩
    · intro e he
      rcases List.mem_append.mp he with he | he
      · exact hmore e he
      · exact hmore' e he
    · rw [exec_append, hu]
      exact hv

/-- A launch that is not settled has a continuation by the workers with an overlap. -/
theorem step_overlaps {e : BlobEvent} (h : s.Tidy) (hstep : s.step e = some t) (hnot : ¬ s.Settled e) :
    ∃ more u, (∀ e ∈ more, worksOn e = true) ∧ exec step t more = some u ∧ ¬ u.OneWorker := by
  simp only [Settled, not_forall, not_not] at hnot
  obtain ⟨key, hlaunches, m, hattempts⟩ := hnot
  have hnone : s.launchedKey e ≠ none := by
    rw [hlaunches]
    rintro ⟨⟩
  cases step_change h hstep with
  | kept hjoins => exact absurd hjoins hnone
  | took m j rest hjoins => exact absurd hjoins hnone
  | moved m w next hjoins => exact absurd hjoins hnone
  | ended m w hjoins => exact absurd hjoins hnone
  | launched r u calls hkey hu hfresh ht =>
    obtain rfl := Option.some.inj (hlaunches.symm.trans hkey)
    have hutidy := hu.tidy h
    have hattempts : (u.enqueueJob r).Attempts m r.key := (enqueueJob_attempts hutidy).mpr ((hu.attempts h).mpr hattempts)
    obtain ⟨hnew, hgoes, -⟩ := enqueueJob_new u r
    subst ht
    exact queued_overlaps (step_tidy h hstep) rfl hattempts hnew hgoes

/-- A run that never has two workers, however its workers go on, has met the condition. -/
theorem meets_of_oneWorker {events : List BlobEvent} {last : BlobState} (h : s.Tidy)
    (hrun : exec step s events = some last)
    (hone : ∀ first rest, events = first ++ rest → ∀ more u, (∀ e ∈ more, worksOn e = true) →
      exec step s (first ++ more) = some u → u.OneWorker) : Meets step Settled s events := by
  induction events generalizing s with
  | nil => trivial
  | cons e events ih =>
    obtain ⟨t, hstep, hrest⟩ := Option.bind_eq_some_iff.mp hrun
    have hok : s.Settled e := by
      by_contra hnot
      obtain ⟨more, u, hmore, hu, htwo⟩ := step_overlaps h hstep hnot
      refine htwo (hone [e] events rfl more u hmore ?_)
      rw [List.singleton_append, exec_cons, hstep]
      exact hu
    refine .step hstep hok (ih (step_tidy h hstep) hrest ?_)
    rintro first rest rfl more u hmore hu
    refine hone (e :: first) rest rfl more u hmore ?_
    rw [List.cons_append, exec_cons, hstep]
    exact hu

end

/-- No two workers write one temporary file of the process. -/
def OneWriter (s : BlobState) : Prop :=
  ∀ pid m n w w', s.workers m = some w → s.workers n = some w' → w.stage = .writing → w'.stage = .writing →
    archiveTmp (s.jobs w.job).depotcacheDir (s.jobs w.job).key pid =
      archiveTmp (s.jobs w'.job).depotcacheDir (s.jobs w'.job).key pid → m = n

private theorem OneWorker.oneWriter {s : BlobState} (h : s.OneWorker) : s.OneWriter := by
  intro pid m n w w' hw hw' hwrites hwrites' hpath
  have hattempts : ∀ v : Worker, v.stage = .writing → v.attempting = true := by
    intro v hv
    rw [Worker.attempting, hv]
  exact h (s.jobs w.job).key m n ⟨w, hw, hattempts w hwrites, rfl⟩
    ⟨w', hw', hattempts w' hwrites', (archiveTmp_inj hpath).symm⟩

/-- One worker for each manifest and one writer for each temporary file, in every state
of the run and however its workers go on, just when every new job is settled. -/
theorem one_worker_per_manifest {events : List BlobEvent} {s : BlobState} (hrun : exec step {} events = some s) :
    Meets step Settled {} events ↔
      ∀ first rest, events = first ++ rest → ∀ more u, (∀ e ∈ more, worksOn e = true) →
        exec step {} (first ++ more) = some u → u.OneWorker ∧ u.OneWriter := by
  constructor
  · rintro hmeets first rest rfl more u hmore hu
    have hfirst := ((meets_append step Settled _ first rest).mp hmeets).1
    have hall : Meets step Settled {} (first ++ more) :=
      (meets_append step Settled _ first more).mpr
        ⟨hfirst, fun t _ => meets_of_forall (fun e he s => settled_of_worksOn (hmore e he)) t⟩
    have hboth : u.Tidy ∧ u.Lone :=
      exec_invariant (P := fun s => s.Tidy ∧ s.Lone)
        (fun s e t h hok hstep => ⟨step_tidy h.1 hstep, step_lone h.1 h.2 hok hstep⟩) ⟨tidy_start, lone_start⟩ hall hu
    have hone := hboth.2.oneWorker hboth.1
    exact ⟨hone, hone.oneWriter⟩
  · intro hone
    exact meets_of_oneWorker tidy_start hrun fun first rest hsplit more u hmore hu =>
      (hone first rest hsplit more u hmore hu).1

def manifestKey : BlobKey := ⟨7, 42⟩

def submitKey : BlobEvent := .submitManifestBlob manifestKey 10 "depotcache" false false true

/-- A reset meets a worker in its attempt, which ends before the next request. -/
def resetThenEnd : List BlobEvent :=
  [submitKey, .take 0, .worker 0 .begins, .resetEpoch, .resetInflight, .worker 0 .threw, .decide 0, submitKey, .take 0]

theorem reset_then_end_one_worker : ∃ s, exec step {} resetThenEnd = some s ∧ s.OneWorker ∧ s.OneWriter := by
  have hmeets : Meets step Settled {} resetThenEnd := by
    have hquiet : ∀ {s : BlobState} {e : BlobEvent}, s.launchedKey e = none → s.Settled e := by
      intro s e hnone key hkey
      rw [hnone] at hkey
      cases hkey
    refine .step rfl ?_ (.step rfl (hquiet rfl) (.step rfl (hquiet rfl) (.step rfl (hquiet rfl) ?_)))
    · rintro key - m ⟨w, hw, -⟩
      cases hw
    refine .step rfl (hquiet rfl) (.step rfl (hquiet rfl) (.step rfl (hquiet rfl) (.step rfl ?_ ?_)))
    · rintro key - m ⟨w, hw, -⟩
      rcases m with _ | m <;> cases hw
    · exact .step rfl (hquiet rfl) trivial
  refine ⟨_, rfl, (one_worker_per_manifest rfl).mp hmeets _ [] (List.append_nil _).symm [] _ ?_ rfl⟩
  rintro e ⟨⟩

/-- A worker from the top of its task into the transfer. -/
def transferSteps (m : Nat) : List BlobEvent :=
  [.take m, .worker m .begins, .worker m .load, .worker m (.restored false), .worker m (.fetch false false),
    .worker m .request]

/-- The reset comes between the network call of one worker and its file writes. -/
def resetInTransfer : List BlobEvent :=
  submitKey :: transferSteps 0 ++ [.resetEpoch, .resetInflight, submitKey] ++ transferSteps 1 ++
    [.worker 0 (.answered false 200 true), .worker 1 (.answered false 200 true)]

theorem reset_overlaps : ∃ s, exec step {} resetInTransfer = some s ∧ ¬ s.OneWorker ∧ ¬ s.OneWriter := by
  refine ⟨_, rfl, fun hone => ?_, fun hone => ?_⟩
  · exact absurd (hone manifestKey 0 1 ⟨_, rfl, rfl, rfl⟩ ⟨_, rfl, rfl, rfl⟩) (by decide)
  · exact absurd (hone 1 0 1 _ _ rfl rfl rfl rfl rfl) (by decide)

end BlobState
end SlsteamMoon.ManifestFetch
