import SlsteamMoon.ManifestFetch.OneWorker

/-! The steps of the workers and of their callers, each as one of five changes of the
queue, the workers and the map. -/
namespace SlsteamMoon.ManifestFetch
open Runs

private theorem Worker.next_job {job : BlobJob} {w next : Worker} {e : WorkerEvent} (h : w.next job e = some next) :
    next.job = w.job := by
  obtain ⟨j, stage, activeRetryDone⟩ := w
  cases e <;> cases stage <;> cases h <;> rfl

/-- Outside of an attempt a task only looks at its budget. -/
theorem Worker.attempting_of_next {job : BlobJob} {w next : Worker} {e : WorkerEvent} (he : e ≠ .begins)
    (h : w.next job e = some next) : w.attempting = true := by
  obtain ⟨j, stage, activeRetryDone⟩ := w
  cases stage with
  | top =>
    cases e with
    | begins => exact absurd rfl he
    | load | restored | fetch | request | answered | wrote | published | threw => cases h
  | deciding ok => cases e <;> cases h
  | started | restoring | fetching | requesting | transferring | writing | publishing => rfl

/-- A step of the task enters an attempt only from the check at the top of its loop. -/
theorem Worker.next_attempting {job : BlobJob} {w next : Worker} {e : WorkerEvent} (h : w.next job e = some next)
    (hattempts : next.attempting = true) :
    w.attempting = true ∨ w.attempting = false ∧ job.shouldStop = false := by
  by_cases he : e = .begins
  · subst he
    simp only [Worker.next] at h
    split at h
    · rename_i hstage
      obtain rfl := Option.some.inj h
      refine .inr ⟨by simp [attempting, hstage], ?_⟩
      by_contra hgoes
      have hstop : job.shouldStop = true := by simpa using hgoes
      simp [attempting, hstop] at hattempts
    · cases h
  · exact .inl (attempting_of_next he h)

namespace BlobState

section
variable {s t : BlobState} {m : Nat} {w next : Worker}

private theorem live_setWorker (hw : s.workers m = some w) (hjob : next.job = w.job) {j : Nat} :
    (s.setWorker m (some next)).Live j ↔ s.Live j := by
  unfold Live
  refine or_congr_right ?_
  constructor
  · rintro ⟨n, w', hw', rfl⟩
    rw [workers_setWorker] at hw'
    split at hw'
    · obtain rfl := Option.some.inj hw'
      exact ⟨m, w, hw, hjob.symm⟩
    · exact ⟨n, w', hw', rfl⟩
  · rintro ⟨n, w', hw', rfl⟩
    by_cases hn : n = m
    · subst hn
      obtain rfl := Option.some.inj (hw.symm.trans hw')
      exact ⟨n, next, by rw [workers_setWorker, if_pos rfl], hjob⟩
    · exact ⟨n, w', by rw [workers_setWorker, if_neg hn, hw'], rfl⟩

/-- The worker goes on with its task. -/
theorem setWorker_tidy (h : s.Tidy) (hw : s.workers m = some w) (hjob : next.job = w.job) :
    (s.setWorker m (some next)).Tidy := by
  have hworker : ∀ n w', (s.setWorker m (some next)).workers n = some w' →
      ∃ w'', s.workers n = some w'' ∧ w''.job = w'.job := by
    intro n w' hw'
    rw [workers_setWorker] at hw'
    split at hw'
    · rename_i hn
      obtain rfl := Option.some.inj hw'
      exact ⟨w, hn ▸ hw, hjob.symm⟩
    · exact ⟨w', hw', rfl⟩
  refine ⟨?_, ?_, h.nodup, ?_, h.entry, ?_, ?_⟩
  · intro j hj
    exact h.known j ((live_setWorker hw hjob).mp hj)
  · intro j hj n w' hw'
    obtain ⟨w'', hw'', hsame⟩ := hworker n w' hw'
    exact hsame ▸ h.once j hj n w'' hw''
  · intro n n' w₁ w₂ hw₁ hw₂ hsame
    obtain ⟨v₁, hv₁, hsame₁⟩ := hworker n w₁ hw₁
    obtain ⟨v₂, hv₂, hsame₂⟩ := hworker n' w₂ hw₂
    exact h.alone n n' v₁ v₂ hv₁ hv₂ (by rw [hsame₁, hsame₂, hsame])
  · intro j hj
    exact h.pending j ((live_setWorker hw hjob).mp hj)
  · intro j hj
    exact h.kept j ((live_setWorker hw hjob).mp hj)

/-- A worker that begins an attempt has the job of the map's entry, and the others of
the manifest are dropped ones. -/
theorem setWorker_lone (htidy : s.Tidy) (h : s.Lone) (hw : s.workers m = some w) (hjob : next.job = w.job)
    (hnext : next.attempting = true → w.attempting = true ∨ w.attempting = false ∧ (s.jobs w.job).shouldStop = false) :
    (s.setWorker m (some next)).Lone := by
  have hlive : s.Live w.job := .inr ⟨m, w, hw, rfl⟩
  intro n w₁ hw₁ hattempts j hj hne hkey
  have hj := (live_setWorker hw hjob).mp hj
  have hkey : (s.jobs j).key = (s.jobs w₁.job).key := hkey
  rw [workers_setWorker] at hw₁
  split at hw₁
  · obtain rfl := Option.some.inj hw₁
    rw [hjob] at hne hkey
    have hrest : (s.jobs j).cancelled = true ∧ ∀ n w', s.workers n = some w' → w'.job = j → w'.attempting = false := by
      rcases hnext hattempts with hold | ⟨-, hgoes⟩
      · exact h m w hw hold j hj hne hkey
      · have hgoes : (s.jobs w.job).cancelled = false := by
          simp only [BlobJob.shouldStop, Bool.or_eq_false_iff] at hgoes
          exact hgoes.1
        refine ⟨?_, fun n' w' hw' hsame => ?_⟩
        · rcases htidy.kept w.job hlive with hentry | hcancelled
          · rcases htidy.kept j hj with hother | hcancelled
            · rw [hkey, hentry] at hother
              exact absurd (Option.some.inj hother).symm hne
            · exact hcancelled
          · rw [hgoes] at hcancelled
            cases hcancelled
        · by_contra hbusy
          have hbusy : w'.attempting = true := by simpa using hbusy
          have hcancelled := (h n' w' hw' hbusy w.job hlive (hsame ▸ hne.symm) (hsame ▸ hkey.symm)).1
          rw [hgoes] at hcancelled
          cases hcancelled
    refine ⟨hrest.1, fun n' w' hw' hsame => ?_⟩
    rw [workers_setWorker] at hw'
    split at hw'
    · obtain rfl := Option.some.inj hw'
      exact absurd (hsame.symm.trans hjob) hne
    · exact hrest.2 n' w' hw' hsame
  · obtain ⟨hcancelled, hrest⟩ := h n w₁ hw₁ hattempts j hj hne hkey
    refine ⟨hcancelled, fun n' w' hw' hsame => ?_⟩
    rw [workers_setWorker] at hw'
    split at hw'
    · obtain rfl := Option.some.inj hw'
      -- a dropped job does not begin
      by_contra hbusy
      have hbusy : next.attempting = true := by simpa using hbusy
      have hsame : w.job = j := hjob.symm.trans hsame
      rcases hnext hbusy with hold | ⟨-, hgoes⟩
      · rw [hrest m w hw hsame] at hold
        cases hold
      · simp [BlobJob.shouldStop, hsame, hcancelled] at hgoes
    · exact hrest n' w' hw' hsame

/-- The worker's task is over. -/
structure Ended (s : BlobState) (m : Nat) (w : Worker) (t : BlobState) : Prop where
  launched : t.launched = s.launched
  queue : t.queue = s.queue
  workers : ∀ n, t.workers n = if n = m then none else s.workers n
  jobs : ∀ j, j ≠ w.job → t.jobs j = s.jobs j
  inflight : ∀ key j, t.inflight key = some j ↔ s.inflight key = some j ∧ j ≠ w.job

/-- The workers that are left were there. -/
theorem Ended.worker (he : s.Ended m w t) {n : Nat} {w' : Worker} (hw' : t.workers n = some w') :
    s.workers n = some w' := by
  rw [he.workers] at hw'
  split at hw'
  · cases hw'
  · exact hw'

theorem Ended.live (he : s.Ended m w t) (h : s.Tidy) (hw : s.workers m = some w) {j : Nat} (hj : t.Live j) :
    s.Live j ∧ j ≠ w.job := by
  rcases hj with hj | ⟨n, w', hw', rfl⟩
  · rw [he.queue] at hj
    exact ⟨.inl hj, (h.once j hj m w hw).symm⟩
  · rw [he.workers] at hw'
    split at hw'
    · cases hw'
    · rename_i hn
      exact ⟨.inr ⟨n, w', hw', rfl⟩, fun hsame => hn (h.alone n m w' w hw' hw hsame)⟩

theorem Ended.tidy (he : s.Ended m w t) (h : s.Tidy) (hw : s.workers m = some w) : t.Tidy := by
  refine ⟨?_, ?_, ?_, ?_, ?_, ?_, ?_⟩
  · intro j hj
    rw [he.launched]
    exact h.known j (he.live h hw hj).1
  · intro j hj n w' hw'
    exact h.once j (he.queue ▸ hj) n w' (he.worker hw')
  · exact he.queue ▸ h.nodup
  · intro n n' w₁ w₂ hw₁ hw₂
    exact h.alone n n' w₁ w₂ (he.worker hw₁) (he.worker hw₂)
  · intro key j hj
    obtain ⟨hj, hne⟩ := (he.inflight key j).mp hj
    rw [he.launched, he.jobs j hne]
    exact h.entry key j hj
  · intro j hj
    obtain ⟨hlive, hne⟩ := he.live h hw hj
    rw [he.jobs j hne]
    exact h.pending j hlive
  · intro j hj
    obtain ⟨hlive, hne⟩ := he.live h hw hj
    rw [he.jobs j hne]
    rcases h.kept j hlive with hentry | hcancelled
    · exact .inl ((he.inflight _ j).mpr ⟨hentry, hne⟩)
    · exact .inr hcancelled

theorem Ended.lone (he : s.Ended m w t) (htidy : s.Tidy) (h : s.Lone) (hw : s.workers m = some w) : t.Lone := by
  intro n w₁ hw₁ hattempts j hj hne hkey
  have hown := (he.live htidy hw (.inr ⟨n, w₁, hw₁, rfl⟩)).2
  obtain ⟨hlive, hother⟩ := he.live htidy hw hj
  rw [he.jobs j hother, he.jobs w₁.job hown] at hkey
  rw [he.jobs j hother]
  obtain ⟨hcancelled, hrest⟩ := h n w₁ (he.worker hw₁) hattempts j hlive hne hkey
  exact ⟨hcancelled, fun n' w' hw' => hrest n' w' (he.worker hw')⟩

theorem decideBlob_ended (h : s.Tidy) {ok : Bool}
    (hends : (!ok && !w.activeRetryDone && !(s.jobs w.job).shouldStop && (s.jobs w.job).bypassArchiveMiss) = false) :
    s.Ended m w (s.decideBlob m w ok) := by
  have hinflight : ∀ key j, (if s.inflight (s.jobs w.job).key = some w.job then
      ((s.modifyJob w.job (.finish ok)).setWorker m none).setInflight (s.jobs w.job).key none
      else (s.modifyJob w.job (.finish ok)).setWorker m none).inflight key = some j ↔
        s.inflight key = some j ∧ j ≠ w.job := by
    intro key j
    split
    · rename_i hentry
      rw [inflight_setInflight]
      show (if key = (s.jobs w.job).key then none else s.inflight key) = some j ↔ _
      split
      · rename_i hkey
        rw [hkey, hentry, Option.some.injEq]
        constructor
        · rintro ⟨⟩
        · rintro ⟨hsame, hne⟩
          exact absurd hsame.symm hne
      · rename_i hkey
        refine ⟨fun hj => ⟨hj, ?_⟩, And.left⟩
        rintro rfl
        exact hkey (h.entry key _ hj).2.symm
    · rename_i hentry
      refine ⟨fun hj => ⟨hj, ?_⟩, And.left⟩
      rintro rfl
      have hj : s.inflight key = some w.job := hj
      rw [← (h.entry key _ hj).2] at hj
      exact hentry hj
  unfold decideBlob
  dsimp only
  rw [hends, if_neg Bool.false_ne_true]
  refine ⟨?_, ?_, ?_, ?_, hinflight⟩
  · split <;> rfl
  · split <;> rfl
  · intro n
    split <;> exact workers_setWorker _ _ _ _
  · intro j hj
    split <;> exact (jobs_modifyJob s w.job j _).trans (if_neg hj)

/-- The section at the end of an attempt. -/
theorem decideBlob_cases (h : s.Tidy) (m : Nat) (w : Worker) (ok : Bool) :
    (∃ next : Worker, s.decideBlob m w ok = s.setWorker m (some next) ∧ next.job = w.job ∧ next.attempting = false) ∨
      s.Ended m w (s.decideBlob m w ok) := by
  by_cases hretry : (!ok && !w.activeRetryDone && !(s.jobs w.job).shouldStop && (s.jobs w.job).bypassArchiveMiss) = true
  · refine .inl ⟨{ w with stage := .top, activeRetryDone := true }, ?_, rfl, rfl⟩
    unfold decideBlob
    dsimp only
    rw [if_pos hretry]
  · exact .inr (decideBlob_ended h (Bool.eq_false_iff.mpr hretry))

variable {j : Nat} {rest : List Nat}

/-- A worker takes the oldest task. -/
theorem take_live (hqueue : s.queue = j :: rest) {i : Nat}
    (hi : ({ s with queue := rest }.setWorker m (some { job := j })).Live i) : s.Live i := by
  rcases hi with hi | ⟨n, w, hw, rfl⟩
  · exact .inl (hqueue ▸ List.mem_cons_of_mem _ hi)
  · rw [workers_setWorker] at hw
    split at hw
    · obtain rfl := Option.some.inj hw
      exact .inl (hqueue ▸ List.mem_cons_self)
    · exact .inr ⟨n, w, hw, rfl⟩

private theorem take_tidy (h : s.Tidy) (hqueue : s.queue = j :: rest) :
    ({ s with queue := rest }.setWorker m (some { job := j })).Tidy := by
  have hnodup := hqueue ▸ h.nodup
  have hhead : ∀ n w, s.workers n = some w → w.job ≠ j := h.once j (hqueue ▸ List.mem_cons_self)
  refine ⟨?_, ?_, (List.nodup_cons.mp hnodup).2, ?_, h.entry, ?_, ?_⟩
  · intro i hi
    exact h.known i (take_live hqueue hi)
  · intro i hi n w hw
    have hi : i ∈ rest := hi
    rw [workers_setWorker] at hw
    split at hw
    · obtain rfl := Option.some.inj hw
      rintro rfl
      exact (List.nodup_cons.mp hnodup).1 hi
    · exact h.once i (hqueue ▸ List.mem_cons_of_mem _ hi) n w hw
  · intro n n' w w' hw hw' hsame
    rw [workers_setWorker] at hw hw'
    split at hw
    · rename_i hn
      obtain rfl := Option.some.inj hw
      split at hw'
      · rename_i hn'
        exact hn.trans hn'.symm
      · exact absurd hsame.symm (hhead n' w' hw')
    · split at hw'
      · obtain rfl := Option.some.inj hw'
        exact absurd hsame (hhead n w hw)
      · exact h.alone n n' w w' hw hw' hsame
  · intro i hi
    exact h.pending i (take_live hqueue hi)
  · intro i hi
    exact h.kept i (take_live hqueue hi)

private theorem take_lone (h : s.Lone) (hqueue : s.queue = j :: rest) :
    ({ s with queue := rest }.setWorker m (some { job := j })).Lone := by
  intro n w hw hattempts i hi hne hkey
  rw [workers_setWorker] at hw
  split at hw
  · obtain rfl := Option.some.inj hw
    cases hattempts
  · obtain ⟨hcancelled, hrest⟩ := h n w hw hattempts i (take_live hqueue hi) hne hkey
    refine ⟨hcancelled, fun n' w' hw' hsame => ?_⟩
    rw [workers_setWorker] at hw'
    split at hw'
    · obtain rfl := Option.some.inj hw'
      rfl
    · exact hrest n' w' hw' hsame

private theorem kept_calls (s : BlobState) (calls : Nat → Option AwaitStage) : s.Kept { s with calls } :=
  ⟨Nat.le_refl _, rfl, rfl, fun _ _ => rfl, fun _ _ h => h, fun _ _ => rfl, fun _ _ h => h, fun _ _ _ h => .inl h⟩

/-- A reset cancels every job that it drops. -/
theorem kept_clearInflight (s : BlobState) (resetting : Nat) : s.Kept { s.clearInflight with resetting } where
  launched := Nat.le_refl _
  queue := rfl
  workers := rfl
  key j _ := by
    simp only [clearInflight]
    split <;> rfl
  cancelled j _ hc := by
    simp only [clearInflight]
    split
    · rfl
    · exact hc
  future j _ := by
    simp only [clearInflight]
    split <;> rfl
  inflight key j hj := by cases hj
  entry j _ _ hentry := by
    right
    simp only [clearInflight, if_pos hentry]
    rfl

/-- The last waiter cancels a job only after its end, so the entry is another job's. -/
theorem kept_releaseBlobWaiter (s : BlobState) (j : Nat) (cancelIfLast : Bool) :
    s.Kept (s.releaseBlobWaiter j cancelIfLast) := by
  have hreleased : s.Kept (s.modifyJob j fun job => { job with waiters := job.waiters - 1 }) :=
    kept_modifyJob s j (fun _ => rfl) (fun _ hc => hc) fun _ => rfl
  unfold releaseBlobWaiter
  dsimp only
  split
  · split
    · rename_i hentry
      show s.Kept (((s.modifyJob j fun job => { job with waiters := job.waiters - 1 }).modifyJob j .cancel).setInflight
        (s.jobs j).key none)
      refine (hreleased.trans (kept_cancel _ j)).trans (kept_erase fun i hi _ => ?_)
      obtain rfl := Option.some.inj (hentry.symm.trans hi)
      rw [jobs_modifyJob, if_pos rfl]
      rfl
    · exact hreleased.trans (kept_cancel _ j)
  · exact hreleased

/-- What a step does to queue, workers and map. -/
inductive Change (s : BlobState) (e : BlobEvent) (t : BlobState) : Prop
  | kept (hnone : s.launchedKey e = none) (ht : s.Kept t)
  | launched (r : BlobRequest) (u : BlobState) (calls : Nat → Option AwaitStage)
      (hkey : s.launchedKey e = some r.key) (hu : s.Kept u) (hnone : u.inflight r.key = none)
      (ht : t = { u.enqueueJob r with calls })
  | took (m j : Nat) (rest : List Nat) (hnone : s.launchedKey e = none) (hqueue : s.queue = j :: rest)
      (ht : t = { s with queue := rest }.setWorker m (some { job := j }))
  | moved (m : Nat) (w next : Worker) (hnone : s.launchedKey e = none) (hw : s.workers m = some w)
      (hjob : next.job = w.job) (ht : t = s.setWorker m (some next))
      (hnext : next.attempting = true →
        w.attempting = true ∨ w.attempting = false ∧ (s.jobs w.job).shouldStop = false)
  | ended (m : Nat) (w : Worker) (hnone : s.launchedKey e = none) (hw : s.workers m = some w) (ht : s.Ended m w t)

theorem step_change {e : BlobEvent} (h : s.Tidy) (hstep : s.step e = some t) : s.Change e t := by
  cases e with
  | submitManifestBlob key appId depotcacheDir bypassArchiveMiss onDisk accepted =>
    obtain rfl := Option.some.inj hstep
    rcases launchOrJoinBlob_cases h ⟨key, appId, depotcacheDir, false, bypassArchiveMiss⟩ onDisk accepted with
      ⟨hjoins, hkept⟩ | ⟨hlaunches, u, hu, hnone, ht⟩
    · exact .kept (by simp [launchedKey, hjoins]) hkept
    · exact .launched _ u _ (by simp [launchedKey, hlaunches]) hu hnone ht
  | awaitManifestBlobFor i key appId depotcacheDir activeRequest onDisk accepted =>
    simp only [step] at hstep
    split at hstep
    · cases hstep
    · obtain rfl := Option.some.inj hstep
      have hcases := launchOrJoinBlob_cases h ⟨key, appId, depotcacheDir, true, activeRequest⟩ onDisk accepted
      generalize s.launchOrJoinBlob ⟨key, appId, depotcacheDir, true, activeRequest⟩ onDisk accepted = launched
        at hcases
      obtain ⟨v, j⟩ := launched
      rcases hcases with ⟨hjoins, hkept⟩ | ⟨hlaunches, u, hu, hnone, rfl⟩
      · exact .kept (by simp [launchedKey, hjoins]) (hkept.trans (kept_calls _ _))
      · exact .launched _ u (Function.update u.calls i (some (.waiting j))) (by simp [launchedKey, hlaunches]) hu hnone
          rfl
  | timedOut i =>
    simp only [step] at hstep
    split at hstep
    · split at hstep
      · obtain rfl := Option.some.inj hstep
        exact .kept rfl (kept_calls _ _)
      · cases hstep
    · cases hstep
  | release i =>
    simp only [step] at hstep
    split at hstep
    · split at hstep
      · obtain rfl := Option.some.inj hstep
        exact .kept rfl ((kept_releaseBlobWaiter _ _ _).trans (kept_calls _ _))
      · cases hstep
    · obtain rfl := Option.some.inj hstep
      exact .kept rfl ((kept_releaseBlobWaiter _ _ _).trans (kept_calls _ _))
    · cases hstep
  | resetEpoch =>
    obtain rfl := Option.some.inj hstep
    exact .kept rfl ⟨Nat.le_refl _, rfl, rfl, fun _ _ => rfl, fun _ _ h => h, fun _ _ => rfl, fun _ _ h => h,
      fun _ _ _ h => .inl h⟩
  | resetInflight =>
    simp only [step] at hstep
    split at hstep
    · cases hstep
    · obtain rfl := Option.some.inj hstep
      exact .kept rfl (kept_clearInflight s _)
  | expire j =>
    simp only [step] at hstep
    split at hstep
    · obtain rfl := Option.some.inj hstep
      exact .kept rfl (kept_modifyJob s j (fun _ => rfl) (fun _ hc => hc) fun _ => rfl)
    · cases hstep
  | take m =>
    simp only [step] at hstep
    split at hstep
    · cases hstep
    · rename_i j rest hqueue
      split at hstep
      · obtain rfl := Option.some.inj hstep
        exact .took m j rest rfl hqueue rfl
      · cases hstep
  | worker m e =>
    simp only [step] at hstep
    split at hstep
    · rename_i w hw
      obtain ⟨next, hnext, rfl⟩ := Option.map_eq_some_iff.mp hstep
      exact .moved m w next rfl hw (Worker.next_job hnext) rfl (Worker.next_attempting hnext)
    · cases hstep
  | decide m =>
    simp only [step] at hstep
    split at hstep
    · rename_i job ok activeRetryDone hw
      obtain rfl := Option.some.inj hstep
      rcases decideBlob_cases h m ⟨job, .deciding ok, activeRetryDone⟩ ok with ⟨next, ht, hjob, hrests⟩ | hended
      · refine .moved m _ next rfl hw hjob ht fun hattempts => ?_
        rw [hrests] at hattempts
        cases hattempts
      · exact .ended m _ rfl hw hended
    · cases hstep

theorem step_tidy {e : BlobEvent} (h : s.Tidy) (hstep : s.step e = some t) : t.Tidy := by
  cases step_change h hstep with
  | kept _ ht => exact ht.tidy h
  | launched r u calls _ hu hnone ht => exact ht ▸ (kept_calls _ calls).tidy (enqueueJob_tidy (hu.tidy h) hnone)
  | took m j rest _ hqueue ht => exact ht ▸ take_tidy h hqueue
  | moved m w next _ hw hjob ht => exact ht ▸ setWorker_tidy h hw hjob
  | ended m w _ hw ht => exact ht.tidy h hw

theorem step_lone {e : BlobEvent} (htidy : s.Tidy) (h : s.Lone) (hok : s.Settled e) (hstep : s.step e = some t) :
    t.Lone := by
  cases step_change htidy hstep with
  | kept _ ht => exact ht.lone htidy h
  | launched r u calls hkey hu hnone ht =>
    have hutidy := hu.tidy htidy
    subst ht
    apply (kept_calls _ calls).lone (enqueueJob_tidy hutidy hnone)
    refine enqueueJob_lone hutidy (hu.lone htidy h) fun m hattempts => ?_
    exact hok r.key hkey m ((hu.attempts htidy).mp hattempts)
  | took m j rest _ hqueue ht => exact ht ▸ take_lone h hqueue
  | moved m w next _ hw hjob ht hnext => exact ht ▸ setWorker_lone htidy h hw hjob hnext
  | ended m w _ hw ht => exact ht.lone htidy h hw

end

end BlobState
end SlsteamMoon.ManifestFetch
