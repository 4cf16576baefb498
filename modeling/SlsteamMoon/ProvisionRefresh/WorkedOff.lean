import SlsteamMoon.ProvisionRefresh.Workers

/-! What callers ask for is worked off, as long as threads can be made and go on. -/
namespace SlsteamMoon.ProvisionRefresh
open Runs FairRuns ThreadStart

/-- What one event can do to the call of this index. -/
structure Launch.Steps (e : Event) (i : Nat) (l l' : Launch) : Prop where
  job : l'.job = l.job
  start : l'.start = l.start ∨ ∃ event, e = .start i event ∧ l.start.Moves callbacks () event () l'.start
  finished : l'.finished = l.finished ∨ e = .finishRefresh i
  exit : e = .start i .exit → l.finished = true ∨ l'.start = l.start

theorem Launch.Steps.refl (e : Event) (i : Nat) (l : Launch) : l.Steps e i l := ⟨rfl, .inl rfl, .inl rfl, fun _ => .inr rfl⟩

namespace Machine
variable {m m' : Machine} {e : Event} {i : Nat} {l : Launch} {r : RefreshRequest}

private theorem steps_set {j : Nat} {k : Launch} (k' : Launch) (hk : m.launches[j]? = some k) (h : k.Steps e j k')
    (i : Nat) (l : Launch)
    (hl : m.launches[i]? = some l) : ∃ l', (m.launches.set j k')[i]? = some l' ∧ l.Steps e i l' := by
  by_cases hij : j = i
  · subst hij
    obtain rfl := Option.some.inj (hk.symm.trans hl)
    exact ⟨k', List.getElem?_set_self (List.getElem?_eq_some_iff.mp hl).1, h⟩
  · exact ⟨l, by rwa [List.getElem?_set_ne hij], .refl e i l⟩

/-- After an event stand the calls from before, and at most new ones. -/
structure Continues (m m' : Machine) (e : Event) (parts more : List Launch) : Prop where
  launches : m'.launches = parts ++ more
  length : parts.length = m.launches.length
  steps : ∀ (i : Nat) (l : Launch), m.launches[i]? = some l → ∃ l', parts[i]? = some l' ∧ l.Steps e i l'
  new : ∀ l ∈ more, ∃ job, l = { job }

private theorem continues_step (hs : step m e = some m') : ∃ parts more, Continues m m' e parts more := by
  have hnone : ∀ l ∈ ([] : List Launch), ∃ job, l = { job } := fun l hl => absurd hl List.not_mem_nil
  have hone (job : Job) : ∀ l ∈ [({ job } : Launch)], ∃ job, l = { job } := fun l hl => ⟨job, List.mem_singleton.mp hl⟩
  cases e with
  | refreshInBackground enabled path requests =>
    cases hs
    have hsteps (i : Nat) (l : Launch) (hl : m.launches[i]? = some l) :
        ∃ l', m.launches[i]? = some l' ∧ l.Steps (.refreshInBackground enabled path requests) i l' := ⟨l, hl, .refl _ i l⟩
    unfold Machine.refreshInBackground
    split
    · exact ⟨m.launches, [], (List.append_nil _).symm, rfl, hsteps, hnone⟩
    · dsimp only
      split
      · exact ⟨m.launches, [], (List.append_nil _).symm, rfl, hsteps, hnone⟩
      · exact ⟨m.launches, _, rfl, rfl, hsteps, hone _⟩
  | start j event =>
    obtain ⟨k, x, hk, hm, hexit, rfl⟩ := start_cases hs
    have hsteps : k.Steps (.start j event) j { k with start := x } :=
      ⟨rfl, .inr ⟨event, rfl, hm⟩, .inl rfl, fun he => .inl (hexit (by cases he; rfl))⟩
    exact ⟨_, [], (List.append_nil _).symm, List.length_set, steps_set _ hk hsteps, hnone⟩
  | finishRefresh j =>
    obtain ⟨k, hk, hs⟩ := Option.bind_eq_some_iff.mp hs
    obtain ⟨-, hs⟩ := Option.ite_none_right_eq_some.mp hs
    cases hs
    have hsteps (k' : Launch) (hjob : k'.job = k.job) (hstart : k'.start = k.start) :=
      steps_set (e := .finishRefresh j) k' hk ⟨hjob, .inl hstart, .inr rfl, fun he => by cases he⟩
    unfold Machine.finishRefresh
    split
    · exact ⟨_, [], (List.append_nil _).symm, List.length_set, hsteps _ rfl rfl, hnone⟩
    · dsimp only
      split
      · exact ⟨_, [], (List.append_nil _).symm, List.length_set, hsteps _ rfl rfl, hnone⟩
      · exact ⟨_, _, rfl, List.length_set, hsteps _ rfl rfl, hone _⟩
  | retainRefreshAfterFailedStart j =>
    obtain ⟨k, hk, hs⟩ := Option.bind_eq_some_iff.mp hs
    have hsteps := steps_set (e := .retainRefreshAfterFailedStart j) { k with retained := true } hk
      ⟨rfl, .inl rfl, .inl rfl, fun he => by cases he⟩
    cases hstage : k.start.stage with
    | returned started =>
      simp only [hstage] at hs
      obtain ⟨-, hs⟩ := Option.ite_none_right_eq_some.mp hs
      cases hs
      unfold Machine.retainRefreshAfterFailedStart
      dsimp only
      split
      · exact ⟨_, [], (List.append_nil _).symm, List.length_set, hsteps, hnone⟩
      · split <;> exact ⟨_, [], (List.append_nil _).symm, List.length_set, hsteps, hnone⟩
    | _ => simp [hstage] at hs

/-- What one step does to a call. -/
theorem launch_step (hs : step m e = some m') (hl : m.launches[i]? = some l) :
    ∃ l', m'.launches[i]? = some l' ∧ l.Steps e i l' := by
  obtain ⟨parts, more, h⟩ := continues_step hs
  obtain ⟨l', hl', hsteps⟩ := h.steps i l hl
  have hlength := (List.getElem?_eq_some_iff.mp hl').1
  exact ⟨l', by rwa [h.launches, List.getElem?_append_left hlength], hsteps⟩

private theorem launch_step_back (hs : step m e = some m') {l' : Launch} (hl' : m'.launches[i]? = some l') :
    (∃ l, m.launches[i]? = some l ∧ l.Steps e i l') ∨ ∃ job, l' = { job } := by
  obtain ⟨parts, more, h⟩ := continues_step hs
  rcases Nat.lt_or_ge i m.launches.length with hi | hi
  · obtain ⟨l'', hl'', hsteps⟩ := launch_step hs (List.getElem?_eq_getElem hi)
    obtain rfl := Option.some.inj (hl'.symm.trans hl'')
    exact .inl ⟨_, List.getElem?_eq_getElem hi, hsteps⟩
  · rw [h.launches, List.getElem?_append_right (h.length ▸ hi)] at hl'
    exact .inr (h.new l' (List.mem_of_getElem? hl'))

/-- No thread failed to be made. -/
def Made (m : Machine) : Prop :=
  ∀ (i : Nat) (l : Launch), m.launches[i]? = some l → l.start.worker = .unborn → l.start.stage = .creating

/-- Where no batch is at a worker, all that was asked for has been worked on. -/
def Rested (m : Machine) : Prop :=
  m.queue.active = false → ∀ r ∈ m.enqueued, r.appId ≠ 0 → ∃ entry ∈ m.worked, Dominates entry r

theorem Made.step (h : m.Made) (he : ∀ i, e ≠ .start i (.create true)) (hs : ProvisionRefresh.step m e = some m') :
    m'.Made := by
  intro i l' hl' hunborn
  rcases launch_step_back hs hl' with ⟨l, hl, hsteps⟩ | ⟨job, rfl⟩
  · rcases hsteps.start with hsame | ⟨event, rfl, hm⟩
    · rw [hsame] at hunborn ⊢
      exact h i l hl hunborn
    · have hwas : l.start.worker = .unborn := by
        rcases Launch.worker_moves hm with hkept | ⟨-, hother, -⟩ | ⟨-, hother, -⟩ | ⟨-, hother, -⟩
        · rwa [← hkept]
        all_goals
          rw [hunborn] at hother
          cases hother
      have hcreating := h i l hl hwas
      generalize l'.start = x at hm hunborn
      cases hm with
      | createFails _ => exact absurd rfl (he i)
      | created _ => cases hunborn
      | _ => simp_all
  · rfl

/-- What one step does to the queue where every thread could be made. -/
inductive QueueSteps (m m' : Machine) : Event → Prop where
  /-- A restore behind a worker that has finished. -/
  | idle {e : Event} (was : m.queue.active = false) (is : m'.queue.active = false) (enqueued : m'.enqueued = m.enqueued)
      (worked : m'.worked = m.worked) : QueueSteps m m' e
  | same {e : Event} (other : ∀ i, e ≠ .finishRefresh i) (queue : m'.queue = m.queue) (enqueued : m'.enqueued = m.enqueued) (worked : ∀ r ∈ m.worked, r ∈ m'.worked)
      (length : m'.launches.length = m.launches.length) : QueueSteps m m' e
  | enqueue (enabled : Bool) (path : Path) (requests : List RefreshRequest) (queue : m'.queue = (m.queue.enqueue requests).2)
      (length : m.queue.active = true → m'.launches.length = m.launches.length) :
      QueueSteps m m' (.refreshInBackground enabled path requests)
  | finish (i : Nat) (last : i + 1 = m.launches.length) (active : m.queue.active = true)
      (queue : m'.queue = m.queue.finishActive.2) (length : m'.queue.active = true → m'.launches.length = m.launches.length + 1) :
      QueueSteps m m' (.finishRefresh i)

private theorem queueSteps_retain (h : m.Sound) (hmade : m.Made)
    (hs : ProvisionRefresh.step m (.retainRefreshAfterFailedStart i) = some m') :
    QueueSteps m m' (.retainRefreshAfterFailedStart i) := by
  obtain ⟨l, hl, hs⟩ := Option.bind_eq_some_iff.mp hs
  cases hstage : l.start.stage with
  | returned started =>
    simp only [hstage] at hs
    obtain ⟨-, hs⟩ := Option.ite_none_right_eq_some.mp hs
    cases hs
    unfold Machine.retainRefreshAfterFailedStart
    dsimp only
    split
    · exact .same (fun _ he => by cases he) rfl rfl (fun _ hr => hr) List.length_set
    · next hresult =>
      split
      · exact .same (fun _ he => by cases he) rfl rfl (fun _ hr => hr) List.length_set
      · next htoken =>
        have hend : i + 1 = m.launches.length := by
          simp only [Machine.setLaunch, ne_eq, not_not] at htoken
          rw [← h.shape.token, htoken, h.shape.tokens i l hl]
        -- the worker was made, and so it has finished
        have hfinished : l.finished = true := by
          rcases (h.shape.launches i l hl).result_cases hstage with ⟨-, hunborn | hfinished⟩ | ⟨hother, -⟩
          · rw [hmade i l hl hunborn] at hstage
            cases hstage
          · exact hfinished
          · exact absurd hother hresult
        exact .idle ((h.shape.settled_iff hl hend).mp (.inl hfinished)) rfl rfl rfl
  | _ => simp [hstage] at hs

private theorem queueSteps (h : m.Sound) (hmade : m.Made) (hs : ProvisionRefresh.step m e = some m') :
    QueueSteps m m' e := by
  cases e with
  | refreshInBackground enabled path requests =>
    cases hs
    unfold Machine.refreshInBackground
    split
    · exact .same (fun _ he => by cases he) rfl rfl (fun _ hr => hr) rfl
    · dsimp only
      split
      · exact .enqueue enabled path requests rfl fun _ => rfl
      · next hstart =>
        refine .enqueue enabled path requests rfl fun hactive => ?_
        rcases enqueue_cases m.queue requests with ⟨hother, -⟩ | ⟨-, hidle, -⟩
        · exact absurd (not_not.mp hstart) hother
        · rw [hactive] at hidle
          cases hidle
  | start j event =>
    obtain ⟨l, x, -, -, -, rfl⟩ := start_cases hs
    refine .same (fun _ he => by cases he) rfl rfl (fun r hr => ?_) List.length_set
    dsimp only
    split
    · exact List.mem_append_right _ hr
    · exact hr
  | finishRefresh j =>
    obtain ⟨l, hl, hs⟩ := Option.bind_eq_some_iff.mp hs
    obtain ⟨⟨hexiting, hunfinished⟩, hs⟩ := Option.ite_none_right_eq_some.mp hs
    cases hs
    obtain ⟨hend, hactive, hguard⟩ := h.finishing hl hexiting hunfinished
    rw [Machine.finishRefresh, if_neg hguard]
    have hcases := finishActive_cases m.queue
    cases hnext : m.queue.finishActive with
    | mk nextRequests queue =>
      rw [hnext] at hcases
      dsimp only at hcases ⊢
      rcases hcases with ⟨hnil, hidle⟩ | ⟨hne, -⟩
      · rw [if_pos hnil]
        refine .finish j hend hactive (by rw [hnext]; rfl) fun hbusy => ?_
        exact absurd (hidle.symm.trans hbusy) Bool.false_ne_true
      · rw [if_neg hne]
        refine .finish j hend hactive (by rw [hnext]; rfl) fun _ => ?_
        simp [Machine.setLaunch]
  | retainRefreshAfterFailedStart j => exact queueSteps_retain h hmade hs

private theorem Sound.rested_of_empty (h : m.Sound) (hempty : m.queue.pendingRequests.isEmpty = true) : m.Rested := by
  intro hidle r hr hzero
  obtain ⟨history, hhistory⟩ := h.follows
  rcases h.covered r hr hzero with ⟨entry, hentry, -⟩ | ⟨entry, hentry, -⟩ | hworked
  · rw [← hhistory.queue] at hidle hentry
    rw [hhistory.sound.idle hidle] at hentry
    simp at hentry
  · rw [Std.TreeMap.getElem?_of_isEmpty hempty] at hentry
    cases hentry
  · exact hworked

private theorem pending_of_enqueue (q : RefreshQueue) (requests : List RefreshRequest)
    (h : (q.enqueue requests).2.active = false) : (q.enqueue requests).2.pendingRequests.isEmpty = true := by
  revert h
  unfold RefreshQueue.enqueue
  split
  · dsimp only
    split
    · next hempty => exact fun _ => hempty
    · exact fun h => absurd h.symm Bool.false_ne_true
  · next hbusy => exact fun h => absurd h hbusy

private theorem pending_of_finish (q : RefreshQueue) (h : q.finishActive.2.active = false) :
    q.pendingRequests.isEmpty = true ∧ q.finishActive.2.pendingRequests.isEmpty = true := by
  revert h
  unfold RefreshQueue.finishActive
  split
  · next hempty => exact fun _ => ⟨hempty, hempty⟩
  · exact fun h => absurd h.symm Bool.false_ne_true

private theorem active_of_finish (q : RefreshQueue) (h : q.finishActive.2.active = true) :
    q.finishActive.2.activeRequests = q.pendingRequests := by
  revert h
  unfold RefreshQueue.finishActive
  split
  · exact fun h => absurd h Bool.false_ne_true
  · exact fun _ => rfl

theorem Rested.step (h : m.Rested) (hsound : m.Sound) (hmade : m.Made) (hs : ProvisionRefresh.step m e = some m') :
    m'.Rested := by
  have hsound' := hsound.step hs
  cases queueSteps hsound hmade hs with
  | idle hwas _ henqueued hworked =>
    intro _ r hr hzero
    rw [hworked]
    exact h hwas r (henqueued ▸ hr) hzero
  | same _ hqueue henqueued hworked _ =>
    intro hidle r hr hzero
    obtain ⟨entry, hentry, hdom⟩ := h (hqueue ▸ hidle) r (henqueued ▸ hr) hzero
    exact ⟨entry, hworked entry hentry, hdom⟩
  | enqueue enabled path requests hqueue _ =>
    intro hidle
    refine hsound'.rested_of_empty ?_ hidle
    rw [hqueue] at hidle ⊢
    exact pending_of_enqueue _ _ hidle
  | finish i _ _ hqueue _ =>
    intro hidle
    refine hsound'.rested_of_empty ?_ hidle
    rw [hqueue] at hidle ⊢
    exact (pending_of_finish _ hidle).2

/-- The request stands behind the batch of this call. -/
structure Behind (i : Nat) (r : RefreshRequest) (m : Machine) : Prop where
  active : m.queue.active = true
  length : m.launches.length = i + 1
  pending : Holds m.queue.pendingRequests r

theorem Behind.step (h : Behind i r m) (hsound : m.Sound) (hmade : m.Made) (hs : ProvisionRefresh.step m e = some m')
    (he : e ≠ .finishRefresh i) : Behind i r m' := by
  cases queueSteps hsound hmade hs with
  | idle hwas _ _ _ =>
    rw [h.active] at hwas
    cases hwas
  | same _ hqueue _ _ hlength => exact ⟨hqueue ▸ h.active, hlength.trans h.length, hqueue ▸ h.pending⟩
  | enqueue enabled path requests hqueue hlength =>
    obtain ⟨history, hhistory⟩ := hsound.follows
    have hkeyed : Keyed m.queue.activeRequests := hhistory.queue ▸ hhistory.sound.keyedActive
    have hbusy : ¬m.queue.active = false := fun hidle => absurd (hidle.symm.trans h.active) Bool.false_ne_true
    have henqueue : m'.queue = { m.queue with
        pendingRequests := (RefreshQueue.enqueueAll m.queue.activeRequests (m.queue.pendingRequests, false) requests).1 } := by
      rw [hqueue, RefreshQueue.enqueue, if_neg hbusy]
    refine ⟨?_, (hlength h.active).trans h.length, ?_⟩
    · rw [henqueue]
      exact h.active
    · rw [henqueue]
      exact h.pending.enqueueAll hkeyed false requests
  | finish j hlast _ _ _ =>
    obtain rfl : j = i := by
      have := h.length
      omega
    exact absurd rfl he

/-- When that batch is finished, the request's is at the worker. -/
theorem Behind.finish (h : Behind i r m) (hsound : m.Sound) (hmade : m.Made) (hs : ProvisionRefresh.step m (.finishRefresh i) = some m') :
    m'.queue.active = true ∧ m'.launches.length = i + 2 ∧ Holds m'.queue.activeRequests r := by
  cases queueSteps hsound hmade hs with
  | idle hwas _ _ _ =>
    rw [h.active] at hwas
    cases hwas
  | same hother _ _ _ _ => exact absurd rfl (hother i)
  | finish j hlast _ hqueue hlength =>
    have hactive : m'.queue.active = true := by
      by_contra hidle
      rw [hqueue] at hidle
      obtain ⟨entry, hentry, -⟩ := h.pending
      rw [Std.TreeMap.getElem?_of_isEmpty (pending_of_finish _ (eq_false_of_ne_true hidle)).1] at hentry
      cases hentry
    refine ⟨hactive, ?_, ?_⟩
    · rw [hlength hactive, h.length]
    · rw [hqueue] at hactive ⊢
      rw [active_of_finish _ hactive]
      exact h.pending

/-- What holds at every moment of a run in which threads can be made. -/
structure Steady (m : Machine) : Prop where
  sound : m.Sound
  made : m.Made
  rested : m.Rested

private theorem steady_new : Steady {} :=
  ⟨sound_new, fun i l h => by simp at h, fun _ r hr => absurd hr List.not_mem_nil⟩

theorem Steady.step (h : m.Steady) (he : ∀ i, e ≠ .start i (.create true)) (hs : ProvisionRefresh.step m e = some m') :
    m'.Steady := ⟨h.sound.step hs, h.made.step he hs, h.rested.step h.sound h.made hs⟩

/-- Where the worker of this call stands. -/
def At (i : Nat) (worker : Worker) (m : Machine) : Prop := ∃ l, m.launches[i]? = some l ∧ l.start.worker = worker

/-- It goes on by the event that it waits for and by no other. -/
theorem At.step {worker : Worker} (h : At i worker m) (hsound : m.Sound) (hs : ProvisionRefresh.step m e = some m') :
    At i worker m' ∨ (worker = .unborn ∧ e = .start i (.create false) ∧ At i .running m') ∨
      (worker = .running ∧ e = .start i (.body ()) ∧ At i .exiting m') ∨ worker = .exiting ∧ At i .gone m' := by
  obtain ⟨l, hl, rfl⟩ := h
  obtain ⟨l', hl', hsteps⟩ := launch_step hs hl
  rcases hsteps.start with hsame | ⟨event, rfl, hm⟩
  · exact .inl ⟨l', hl', by rw [hsame]⟩
  · rcases Launch.worker_moves hm with hsame | ⟨hstage, hrunning, rfl⟩ | ⟨hwas, hexiting, rfl⟩ | ⟨hwas, hgone, -⟩
    · exact .inl ⟨l', hl', hsame⟩
    · exact .inr (.inl ⟨(hsound.shape.launches i l hl).unborn_of_creating hstage, rfl, l', hl', hrunning⟩)
    · exact .inr (.inr (.inl ⟨hwas, rfl, l', hl', hexiting⟩))
    · exact .inr (.inr (.inr ⟨hwas, l', hl', hgone⟩))

private theorem at_of_create (hs : ProvisionRefresh.step m (.start i (.create false)) = some m') :
    At i .running m' := by
  obtain ⟨l, x, hl, hm, -, rfl⟩ := start_cases hs
  refine ⟨{ l with start := x }, List.getElem?_set_self (List.getElem?_eq_some_iff.mp hl).1, ?_⟩
  cases hm with
  | created _ => rfl

private theorem at_of_body (hs : ProvisionRefresh.step m (.start i (.body ())) = some m') : At i .exiting m' := by
  obtain ⟨l, x, hl, hm, -, rfl⟩ := start_cases hs
  refine ⟨{ l with start := x }, List.getElem?_set_self (List.getElem?_eq_some_iff.mp hl).1, ?_⟩
  cases hm with
  | body _ _ => rfl

/-- The worker is in front of finishRefresh. -/
def Ending (i : Nat) (m : Machine) : Prop := ∃ l, m.launches[i]? = some l ∧ l.start.worker = .exiting ∧ l.finished = false

theorem Ending.step (h : Ending i m) (hsound : m.Sound) (hs : ProvisionRefresh.step m e = some m') (he : e ≠ .finishRefresh i) :
    Ending i m' := by
  obtain ⟨l, hl, hexiting, hunfinished⟩ := h
  obtain ⟨l', hl', hsteps⟩ := launch_step hs hl
  refine ⟨l', hl', ?_, (hsteps.finished.resolve_right he).trans hunfinished⟩
  rcases hsteps.start with hsame | ⟨event, rfl, hm⟩
  · rw [hsame, hexiting]
  · rcases Launch.worker_moves hm with hsame | ⟨hstage, -⟩ | ⟨hwas, -⟩ | ⟨-, hgone, rfl⟩
    · rw [hsame, hexiting]
    · rw [(hsound.shape.launches i l hl).unborn_of_creating hstage] at hexiting
      cases hexiting
    · rw [hwas] at hexiting
      cases hexiting
    · rcases hsteps.exit rfl with hfinished | hsame
      · rw [hunfinished] at hfinished
        cases hfinished
      · rw [hsame, hexiting]

private theorem Ending.of_finish (hs : ProvisionRefresh.step m (.finishRefresh i) = some m') : Ending i m := by
  obtain ⟨l, hl, hs⟩ := Option.bind_eq_some_iff.mp hs
  exact ⟨l, hl, (Option.ite_none_right_eq_some.mp hs).1⟩

/-- A worker that stands elsewhere is not finished now. -/
theorem At.not_finish {worker : Worker} (h : At i worker m) (hworker : worker ≠ .exiting)
    (hs : ProvisionRefresh.step m e = some m') : e ≠ .finishRefresh i := by
  rintro rfl
  obtain ⟨l, hl, rfl⟩ := h
  obtain ⟨l', hl', hexiting, -⟩ := Ending.of_finish hs
  exact hworker (Option.some.inj (hl.symm.trans hl') ▸ hexiting)

/-- The batch of this call. -/
def Carries (i : Nat) (requests : List RefreshRequest) (m : Machine) : Prop :=
  ∃ l, m.launches[i]? = some l ∧ l.job.requests = requests

theorem Carries.step {requests : List RefreshRequest} (h : Carries i requests m) (hs : ProvisionRefresh.step m e = some m') :
    Carries i requests m' := by
  obtain ⟨l, hl, rfl⟩ := h
  obtain ⟨l', hl', hsteps⟩ := launch_step hs hl
  exact ⟨l', hl', by rw [hsteps.job]⟩

end Machine

/-- The scheduler: every thread can be made, and a caller, a body and the end of a worker get on with it. -/
structure Scheduled (run : Endless step) : Prop where
  starts : run.state 0 = {}
  makes : ∀ n i, run.event n ≠ some (.start i (.create true))
  creates : ∀ i, run.Fair (Machine.At i .unborn) (· = .start i (.create false))
  works : ∀ i, run.Fair (Machine.At i .running) (· = .start i (.body ()))
  finishes : ∀ i, run.Fair (Machine.Ending i) (· = .finishRefresh i)

namespace Scheduled
variable {run : Endless step} {n i : Nat} {r : RefreshRequest}

private theorem steady (h : Scheduled run) (n : Nat) : (run.state n).Steady :=
  run.holds_of_events (C := fun _ e => ∀ i, e ≠ .start i (.create true)) (fun n _ hevent i he => h.makes n i (he ▸ hevent))
    (fun _ _ _ hs hok hstep => hs.step hok hstep) (h.starts ▸ Machine.steady_new) n

/-- A worker comes behind its body, and what lasts till the end of it is still there. -/
theorem behind_body (h : Scheduled run) {P : Machine → Prop}
    (hP : ∀ m e m', m.Steady → P m → e ≠ .finishRefresh i → step m e = some m' → P m')
    (hi : i < (run.state n).launches.length) (hn : P (run.state n)) :
    ∃ m, n ≤ m ∧ P (run.state m) ∧ (Machine.At i .exiting (run.state m) ∨ Machine.At i .gone (run.state m)) := by
  have hunborn (k : Nat) (hat : Machine.At i .unborn (run.state k)) (hk : P (run.state k)) :
      ∃ m, k ≤ m ∧ P (run.state m) ∧ Machine.At i .running (run.state m) := by
    have hlasts (m : Machine) (e : Event) (m' : Machine) (hsteady : m.Steady) (hm : Machine.At i .unborn m ∧ P m)
        (hne : e ≠ .start i (.create false)) (hs : step m e = some m') : Machine.At i .unborn m' ∧ P m' := by
      refine ⟨?_, hP m e m' hsteady hm.2 (hm.1.not_finish (by decide) hs) hs⟩
      rcases hm.1.step hsteady.sound hs with hstays | ⟨-, hcreate, -⟩ | ⟨hother, -⟩ | ⟨hother, -⟩
      · exact hstays
      · exact absurd hcreate hne
      · cases hother
      · cases hother
    obtain ⟨m, hm, ⟨hatm, hPm⟩, e, hevent, rfl⟩ := run.happens_of_lasts (P := fun m => Machine.At i .unborn m ∧ P m) h.steady
      ((h.creates i).mono (fun _ h => h.1) fun _ h => h) hlasts ⟨hat, hk⟩
    have hs := run.steps m _ hevent
    have hnext := hP _ _ _ (h.steady m) hPm (hatm.not_finish (by decide) hs) hs
    exact ⟨m + 1, Nat.le_succ_of_le hm, hnext, Machine.at_of_create hs⟩
  have hrunning (k : Nat) (hat : Machine.At i .running (run.state k)) (hk : P (run.state k)) :
      ∃ m, k ≤ m ∧ P (run.state m) ∧ Machine.At i .exiting (run.state m) := by
    have hlasts (m : Machine) (e : Event) (m' : Machine) (hsteady : m.Steady) (hm : Machine.At i .running m ∧ P m)
        (hne : e ≠ .start i (.body ())) (hs : step m e = some m') : Machine.At i .running m' ∧ P m' := by
      refine ⟨?_, hP m e m' hsteady hm.2 (hm.1.not_finish (by decide) hs) hs⟩
      rcases hm.1.step hsteady.sound hs with hstays | ⟨hother, -⟩ | ⟨-, hbody, -⟩ | ⟨hother, -⟩
      · exact hstays
      · cases hother
      · exact absurd hbody hne
      · cases hother
    obtain ⟨m, hm, ⟨hatm, hPm⟩, e, hevent, rfl⟩ := run.happens_of_lasts (P := fun m => Machine.At i .running m ∧ P m) h.steady
      ((h.works i).mono (fun _ h => h.1) fun _ h => h) hlasts ⟨hat, hk⟩
    have hs := run.steps m _ hevent
    have hnext := hP _ _ _ (h.steady m) hPm (hatm.not_finish (by decide) hs) hs
    exact ⟨m + 1, Nat.le_succ_of_le hm, hnext, Machine.at_of_body hs⟩
  obtain ⟨l, hl⟩ : ∃ l, (run.state n).launches[i]? = some l := ⟨_, List.getElem?_eq_getElem hi⟩
  cases hworker : l.start.worker with
  | unborn =>
    obtain ⟨k, hk, hPk, hatk⟩ := hunborn n ⟨l, hl, hworker⟩ hn
    obtain ⟨m, hm, hPm, hatm⟩ := hrunning k hatk hPk
    exact ⟨m, Nat.le_trans hk hm, hPm, .inl hatm⟩
  | running =>
    obtain ⟨m, hm, hPm, hatm⟩ := hrunning n ⟨l, hl, hworker⟩ hn
    exact ⟨m, hm, hPm, .inl hatm⟩
  | exiting => exact ⟨n, Nat.le_refl n, hn, .inl ⟨l, hl, hworker⟩⟩
  | gone => exact ⟨n, Nat.le_refl n, hn, .inr ⟨l, hl, hworker⟩⟩

/-- What is in the batch of a call will have been worked on. -/
theorem worked_of_carries (h : Scheduled run) {requests : List RefreshRequest} (hn : Machine.Carries i requests (run.state n)) :
    ∃ m, n ≤ m ∧ ∀ entry ∈ requests, entry ∈ (run.state m).worked := by
  have ⟨l, hl, _⟩ := hn
  obtain ⟨m, hm, ⟨k, hk, hcarries⟩, hat⟩ := h.behind_body (P := Machine.Carries i requests)
    (fun _ _ _ _ hcarries _ hs => hcarries.step hs) (List.getElem?_eq_some_iff.mp hl).1 hn
  refine ⟨m, hm, fun entry hentry => ?_⟩
  have hworker : k.start.worker = .exiting ∨ k.start.worker = .gone := by
    rcases hat with ⟨k', hk', hworker⟩ | ⟨k', hk', hworker⟩ <;> obtain rfl := Option.some.inj (hk.symm.trans hk')
    · exact .inl hworker
    · exact .inr hworker
  exact (h.steady m).sound.shape.worked i k hk hworker entry (hcarries ▸ hentry)

/-- What is at the worker will have been worked on. -/
theorem worked_of_active (h : Scheduled run) (hactive : (run.state n).queue.active = true)
    (hr : Holds (run.state n).queue.activeRequests r) : ∃ m, n ≤ m ∧ ∃ entry ∈ (run.state m).worked, Dominates entry r := by
  have hsound := (h.steady n).sound
  obtain ⟨i, l, hl, hend, -⟩ := hsound.shape.busy hactive
  obtain ⟨entry, hentry, hdom⟩ := hr.batch
  obtain ⟨m, hm, hworked⟩ := h.worked_of_carries (i := i) ⟨l, hl, hsound.last_batch hactive hl hend⟩
  exact ⟨m, hm, entry, hworked entry hentry, hdom⟩

/-- The batch of the last call will be finished, and the next one at the worker. -/
theorem active_of_pending (h : Scheduled run) (hactive : (run.state n).queue.active = true)
    (hr : Holds (run.state n).queue.pendingRequests r) :
    ∃ m, n ≤ m ∧ (run.state m).queue.active = true ∧ Holds (run.state m).queue.activeRequests r := by
  obtain ⟨i, l, hl, hend, -⟩ := (h.steady n).sound.shape.busy hactive
  have hbehind : Machine.Behind i r (run.state n) := ⟨hactive, hend.symm, hr⟩
  obtain ⟨k, hk, hbehindk, hat⟩ := h.behind_body (P := Machine.Behind i r)
    (fun _ _ _ hsteady hbehind hne hs => hbehind.step hsteady.sound hsteady.made hs hne) (by omega) hbehind
  have hending : Machine.Ending i (run.state k) := by
    have hsound := (h.steady k).sound
    have hunsettled (l : Launch) (hl : (run.state k).launches[i]? = some l) : ¬l.Settled := by
      rw [hsound.shape.settled_iff hl hbehindk.length.symm, hbehindk.active]
      exact fun hfalse => by cases hfalse
    rcases hat with ⟨l, hl, hworker⟩ | ⟨l, hl, hworker⟩
    · exact ⟨l, hl, hworker, eq_false_of_ne_true fun hfinished => hunsettled l hl (.inl hfinished)⟩
    · exact absurd (.inl ((hsound.shape.launches i l hl).ended hworker)) (hunsettled l hl)
  have hlasts (m : Machine) (e : Event) (m' : Machine) (hsteady : m.Steady) (hm : Machine.Ending i m ∧ Machine.Behind i r m)
      (hne : e ≠ .finishRefresh i) (hs : step m e = some m') : Machine.Ending i m' ∧ Machine.Behind i r m' :=
    ⟨hm.1.step hsteady.sound hs hne, hm.2.step hsteady.sound hsteady.made hs hne⟩
  obtain ⟨m, hm, ⟨-, hbehindm⟩, e, hevent, rfl⟩ := run.happens_of_lasts
    (P := fun m => Machine.Ending i m ∧ Machine.Behind i r m) h.steady ((h.finishes i).mono (fun _ h => h.1) fun _ h => h) hlasts
    ⟨hending, hbehindk⟩
  obtain ⟨hactive', -, hat'⟩ := hbehindm.finish (h.steady m).sound (h.steady m).made (run.steps m _ hevent)
  exact ⟨m + 1, by omega, hactive', hat'⟩

end Scheduled

/-- In a run in which every thread can be made and is not put off for ever, everything that a caller of refreshInBackground asks
for is absorbed in time by what a worker's body goes through, whatever is asked for meanwhile. -/
theorem refresh_worked_off (run : Endless step) (h : Scheduled run) (n : Nat) (r : RefreshRequest)
    (hr : r ∈ (run.state n).enqueued) (hzero : r.appId ≠ 0) :
    ∃ m, n ≤ m ∧ ∃ entry ∈ (run.state m).worked, Dominates entry r := by
  have hsteady := h.steady n
  cases hactive : (run.state n).queue.active with
  | false => exact ⟨n, Nat.le_refl n, hsteady.rested hactive r hr hzero⟩
  | true =>
    rcases hsteady.sound.covered r hr hzero with hat | hbehind | hworked
    · exact h.worked_of_active hactive hat
    · obtain ⟨k, hk, hactive', hat⟩ := h.active_of_pending hactive hbehind
      obtain ⟨m, hm, hworked⟩ := h.worked_of_active hactive' hat
      exact ⟨m, Nat.le_trans hk hm, hworked⟩
    · exact ⟨n, Nat.le_refl n, hworked⟩

/-- A request comes while another is at the worker, and both workers finish. -/
def twoBatches : List Event :=
  [.refreshInBackground true [0x61] [{ appId := 420530, managedGeneration := 3 }], .start 0 (.create false),
    .refreshInBackground true [0x62] [{ appId := 570, managedGeneration := 3 }], .start 0 (.body ()), .finishRefresh 0,
    .start 1 (.create false), .start 1 (.body ()), .finishRefresh 1]

theorem refresh_worked_off_twoBatches : ∃ run : Endless step, run.state 0 = {} ∧ ∃ m, 3 ≤ m ∧
    ∃ entry ∈ (run.state m).worked, Dominates entry { appId := 570, managedGeneration := 3 } := by
  have hworkers : (exec step {} twoBatches).map (fun m => m.launches.map fun l => (l.start.worker, l.finished)) =
    some [(.exiting, true), (.exiting, true)] := by decide +kernel
  have hthird : (exec step {} (twoBatches.take 3)).map (·.enqueued) =
    some [{ appId := 570, managedGeneration := 3 }, { appId := 420530, managedGeneration := 3 }] := by decide +kernel
  obtain ⟨t, hrun, hlast⟩ := Option.map_eq_some_iff.mp hworkers
  have hdone (i : Nat) (l : Launch) (hl : t.launches[i]? = some l) : l.start.worker = .exiting ∧ l.finished = true := by
    have hmem := List.mem_map_of_mem (f := fun l : Launch => (l.start.worker, l.finished)) (List.mem_of_getElem? hl)
    rw [hlast] at hmem
    simpa using hmem
  have hidle (i : Nat) (worker : Worker) (hworker : worker ≠ .exiting) : ¬Machine.At i worker t := by
    rintro ⟨l, hl, rfl⟩
    exact hworker (hdone i l hl).1
  have hmakes : ∀ e ∈ twoBatches, ∀ i, e ≠ .start i (.create true) := by
    intro e he i heq
    subst heq
    simp [twoBatches] at he
  have hscheduled : Scheduled (.finite step {} t twoBatches hrun) := {
    starts := Endless.finite_zero _ _ _ hrun
    makes := fun n i hevent => hmakes _ (List.mem_of_getElem? hevent) i rfl
    creates := fun i => Endless.finite_fair hrun (hidle i .unborn (by decide))
    works := fun i => Endless.finite_fair hrun (hidle i .running (by decide))
    finishes := fun i => Endless.finite_fair hrun fun ⟨l, hl, _, hunfinished⟩ => by
      rw [(hdone i l hl).2] at hunfinished
      cases hunfinished }
  refine ⟨_, hscheduled.starts, refresh_worked_off _ hscheduled 3 _ ?_ (by decide)⟩
  obtain ⟨m, hm, henqueued⟩ := Option.map_eq_some_iff.mp hthird
  have hstate : (Endless.finite step {} t twoBatches hrun).state 3 = m := by
    simp only [Endless.finite, hm, Option.getD_some]
  rw [hstate, henqueued]
  exact List.mem_cons_self

end SlsteamMoon.ProvisionRefresh
