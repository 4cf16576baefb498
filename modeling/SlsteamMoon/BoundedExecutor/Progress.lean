import SlsteamMoon.BoundedExecutor.Accounting
import SlsteamMoon.Runs

/-! No accepted task is forgotten: where threads that can go on do, and tasks end, each is started and finished. -/
namespace SlsteamMoon.BoundedExecutor
open Runs FairRuns Executor

variable {τ : Type} {workerCount maxQueue : Nat} {x y : Executor τ}

namespace Executor

private theorem submit_workers (x : Executor τ) (task : Option τ) (pushed : Bool) :
    (x.submit maxQueue task pushed).1.workers = x.workers := by
  cases task with
  | none => rfl
  | some task =>
    simp only [Executor.submit]
    split_ifs <;> rfl

/-- A section of a worker is about that worker alone. -/
theorem runSection_workers (x : Executor τ) (i : Nat) : ∃ w, (x.runSection i).workers = x.workers.set i w := by
  rw [runSection]
  split
  · split_ifs
    · exact ⟨.exited, rfl⟩
    · exact ⟨.waiting, rfl⟩
  · next job _ _ => exact ⟨.running job, rfl⟩

end Executor

private theorem woken_of_not_waiting {w : Worker τ} (h : w.isWaiting = false) : w.woken = w := by
  cases w <;> first | rfl | cases h

private theorem stopAndJoin_stays (h : x.Inv workerCount maxQueue) {stage : Stopping}
    (hstage : x.owner.stage? = some stage)
    {i : Nat} {w : Worker τ} (hi : x.workers[i]? = some w) (hwaiting : w.isWaiting = false) (hexited : w ≠ .exited)
    {e : Event τ} (hy : x.stopAndJoin stage e = some y) : y.workers[i]? = some w := by
  cases e with
  | setStopping =>
    simp only [stopAndJoin] at hy
    split at hy
    · cases hy
      exact hi
    · cases hy
  | notifyAll =>
    simp only [stopAndJoin] at hy
    split at hy
    · cases hy
      dsimp only
      rw [List.getElem?_map, hi, Option.map_some, woken_of_not_waiting hwaiting]
    · cases hy
  | join =>
    simp only [stopAndJoin] at hy
    split at hy
    · split at hy
      · cases hy
        exact hi
      · cases hy
    · cases hy
  | clear =>
    simp only [stopAndJoin] at hy
    split at hy
    · next joined =>
      obtain ⟨hall, -⟩ := Option.ite_none_right_eq_some.mp hy
      obtain ⟨hlt, -⟩ := List.getElem?_eq_some_iff.mp hi
      have hgone := h.joined joined hstage i (hall ▸ hlt)
      exact absurd (Option.some.inj (hi.symm.trans hgone)) hexited
    · cases hy
  | _ => cases hy

/-- A worker that neither waits nor is gone changes only by its own section and the end of its own task. -/
theorem worker_stays (h : x.Inv workerCount maxQueue) {i : Nat} {w : Worker τ} (hi : x.workers[i]? = some w)
    (hwaiting : w.isWaiting = false) (hexited : w ≠ .exited) {e : Event τ}
    (hy : step workerCount maxQueue x e = some y) :
    y.workers[i]? = some w ∨ (e = .lockSection i ∧ w = .ready) ∨ ∃ threw job, e = .finish i threw ∧ w = .running job := by
  have hset : ∀ {j v v'}, x.workers[j]? = some v → i ≠ j → (x.workers.set j v')[i]? = some w := by
    intro j v v' _ hne
    rw [List.getElem?_set_ne hne.symm, hi]
  have hother : ∀ {j v}, x.workers[j]? = some v → v ≠ w → i ≠ j := by
    rintro j v hj hne rfl
    exact hne (Option.some.inj (hj.symm.trans hi))
  have hnotWaiting : Worker.waiting ≠ w := by
    rintro rfl
    cases hwaiting
  cases e with
  | createWorker =>
    obtain ⟨-, hy⟩ := Option.ite_none_right_eq_some.mp hy
    cases hy
    obtain ⟨hlt, -⟩ := List.getElem?_eq_some_iff.mp hi
    exact .inl ((List.getElem?_append_left hlt).trans hi)
  | createFails | constructed | destroy =>
    obtain ⟨-, hy⟩ := Option.ite_none_right_eq_some.mp hy
    cases hy
    exact .inl hi
  | submit task pushed =>
    obtain ⟨-, hy⟩ := Option.ite_none_right_eq_some.mp hy
    cases hy
    exact .inl ((submit_workers x task pushed).symm ▸ hi)
  | notifyOne woken =>
    obtain ⟨-, hy⟩ := Option.ite_none_left_eq_some.mp hy
    cases woken with
    | none =>
      obtain ⟨-, hy⟩ := Option.ite_none_left_eq_some.mp hy
      cases hy
      exact .inl hi
    | some j =>
      simp only [Executor.notifyOne] at hy
      split at hy
      · next hj =>
        cases hy
        exact .inl (hset hj (hother hj hnotWaiting))
      · cases hy
  | lockSection j =>
    simp only [step] at hy
    split at hy
    · next hj =>
      cases hy
      by_cases hsame : i = j
      · subst hsame
        exact .inr (.inl ⟨rfl, Option.some.inj (hi.symm.trans hj)⟩)
      · obtain ⟨v, hworkers⟩ := runSection_workers x j
        rw [hworkers]
        exact .inl (hset hj hsame)
    · cases hy
  | spuriousWake j =>
    simp only [step] at hy
    split at hy
    · next hj =>
      cases hy
      exact .inl (hset hj (hother hj hnotWaiting))
    · cases hy
  | finish j threw =>
    simp only [step] at hy
    split at hy
    · next job hj =>
      cases hy
      by_cases hsame : i = j
      · subst hsame
        exact .inr (.inr ⟨threw, job, rfl, Option.some.inj (hi.symm.trans hj)⟩)
      · exact .inl (hset hj hsame)
    · cases hy
  | setStopping | notifyAll | join | clear =>
    simp only [step] at hy
    split at hy
    · next stage hstage => exact .inl (stopAndJoin_stays h hstage hi hwaiting hexited hy)
    · cases hy

private theorem stopAndJoin_books {stage : Stopping} {e : Event τ} (hy : x.stopAndJoin stage e = some y) :
    y.accepted = x.accepted ∧ y.started = x.started := by
  cases e with
  | setStopping | notifyAll =>
    simp only [stopAndJoin] at hy
    split at hy <;> cases hy
    exact ⟨rfl, rfl⟩
  | join =>
    simp only [stopAndJoin] at hy
    split at hy
    · split at hy <;> cases hy
      exact ⟨rfl, rfl⟩
    · cases hy
  | clear =>
    simp only [stopAndJoin] at hy
    split at hy
    · obtain ⟨-, hy⟩ := Option.ite_none_right_eq_some.mp hy
      cases hy
      exact ⟨rfl, rfl⟩
    · cases hy
  | _ => cases hy

/-- What is accepted and started only grows. -/
theorem step_grows {e : Event τ} (hy : step workerCount maxQueue x e = some y) :
    x.accepted <+: y.accepted ∧ x.started <+: y.started := by
  have hsame : x.accepted <+: x.accepted ∧ x.started <+: x.started := ⟨List.prefix_rfl, List.prefix_rfl⟩
  cases e with
  | createWorker | createFails | constructed | destroy =>
    obtain ⟨-, hy⟩ := Option.ite_none_right_eq_some.mp hy
    cases hy
    exact hsame
  | submit task pushed =>
    obtain ⟨-, hy⟩ := Option.ite_none_right_eq_some.mp hy
    cases hy
    cases task with
    | none => exact hsame
    | some task =>
      simp only [Executor.submit]
      split_ifs
      · exact hsame
      · exact hsame
      · exact hsame
      · exact ⟨List.prefix_append x.accepted _, List.prefix_rfl⟩
  | notifyOne woken =>
    obtain ⟨-, hy⟩ := Option.ite_none_left_eq_some.mp hy
    cases woken with
    | none =>
      obtain ⟨-, hy⟩ := Option.ite_none_left_eq_some.mp hy
      cases hy
      exact hsame
    | some j =>
      simp only [Executor.notifyOne] at hy
      split at hy <;> cases hy
      exact hsame
  | lockSection j =>
    simp only [step] at hy
    split at hy <;> cases hy
    rw [runSection]
    split
    · split_ifs <;> exact hsame
    · exact ⟨List.prefix_rfl, List.prefix_append x.started _⟩
  | spuriousWake j | finish j threw =>
    simp only [step] at hy
    split at hy <;> cases hy
    exact hsame
  | setStopping | notifyAll | join | clear =>
    simp only [step] at hy
    split at hy
    · obtain ⟨haccepted, hstarted⟩ := stopAndJoin_books hy
      rw [haccepted, hstarted]
      exact hsame
    · cases hy

/-- Threads in front of the lock get it, notifications under way arrive, and tasks return or throw. -/
structure Scheduled (r : Endless (step (τ := τ) workerCount maxQueue)) : Prop where
  starts : r.state 0 = {}
  locks : ∀ i, r.Fair (fun x => x.workers[i]? = some .ready) (fun e => e = .lockSection i)
  notifies : r.Fair (fun x => x.pendingNotifies ≠ 0) (fun e => ∃ woken, e = .notifyOne woken)
  ends : ∀ i job, r.Fair (fun x => x.workers[i]? = some (.running job)) (fun e => ∃ threw, e = .finish i threw)

section
variable {r : Endless (step (τ := τ) workerCount maxQueue)} {n : Nat}

private theorem Scheduled.inv (h : Scheduled r) (n : Nat) : (r.state n).Inv workerCount maxQueue :=
  r.holds_from (fun _ _ _ hinv hy => step_inv hinv hy) (by rw [h.starts]; exact inv_start) (Nat.zero_le n)

/-- A worker in front of the lock gets it. -/
theorem Scheduled.gets_lock (h : Scheduled r) {i : Nat} (hi : (r.state n).workers[i]? = some .ready) :
    ∃ m, n ≤ m ∧ (r.state m).workers[i]? = some .ready ∧ r.event m = some (.lockSection i) := by
  obtain ⟨m, hm, hready, e, hevent, rfl⟩ := r.happens_of_lasts (P := fun x => x.workers[i]? = some .ready)
    (K := fun e => e = .lockSection i) h.inv (h.locks i) (fun s e t hinv hs hother hstep => by
      obtain hstays | ⟨hlock, -⟩ | ⟨threw, job, -, heq⟩ := worker_stays hinv hs rfl (fun heq => by cases heq) hstep
      · exact hstays
      · exact absurd hlock hother
      · cases heq) hi
  exact ⟨m, hm, hready, hevent⟩

/-- A task that runs comes to its end, and its worker back to the lock. -/
theorem Scheduled.ends_task (h : Scheduled r) {i : Nat} {job : Job τ}
    (hi : (r.state n).workers[i]? = some (.running job)) :
    ∃ m, n ≤ m ∧ (r.state m).workers[i]? = some .ready ∧ job ∈ (r.state m).finished := by
  obtain ⟨m, hm, hrunning, e, hevent, threw, rfl⟩ := r.happens_of_lasts
    (P := fun x => x.workers[i]? = some (.running job)) (K := fun e => ∃ threw, e = .finish i threw) h.inv (h.ends i job)
    (fun s e t hinv hs hother hstep => by
      obtain hstays | ⟨-, heq⟩ | ⟨threw, _, hfinish, -⟩ := worker_stays hinv hs rfl (fun heq => by cases heq) hstep
      · exact hstays
      · cases heq
      · exact absurd ⟨threw, hfinish⟩ hother) hi
  have hstep := r.steps m _ hevent
  simp only [step, hrunning] at hstep
  have hstate := (Option.some.inj hstep).symm
  obtain ⟨hlt, -⟩ := List.getElem?_eq_some_iff.mp hrunning
  refine ⟨m + 1, Nat.le_succ_of_le hm, ?_, ?_⟩
  · rw [hstate]
    exact List.getElem?_set_self hlt
  · rw [hstate]
    exact List.mem_append_right _ List.mem_cons_self

theorem Scheduled.grows {m : Nat} (hm : n ≤ m) :
    (r.state n).accepted <+: (r.state m).accepted ∧ (r.state n).started <+: (r.state m).started :=
  r.holds_from (P := fun x => (r.state n).accepted <+: x.accepted ∧ (r.state n).started <+: x.started)
    (fun s e t hs hstep => by
      obtain ⟨haccepted, hstarted⟩ := step_grows hstep
      exact ⟨hs.1.trans haccepted, hs.2.trans hstarted⟩) ⟨List.prefix_rfl, List.prefix_rfl⟩ hm

/-- While anything is pending some worker takes a task, sooner or later. -/
theorem Scheduled.takes_next (h : Scheduled r) (hpending : (r.state n).tasks ≠ []) :
    ∃ m, n ≤ m ∧ (r.state n).started.length < (r.state m).started.length := by
  by_contra hnever
  -- nothing is started any more, so the queue keeps a first task
  have hstays : ∀ m, n ≤ m → (r.state m).tasks ≠ [] := by
    intro m hm hnil
    obtain ⟨haccepted, -⟩ := Scheduled.grows (r := r) hm
    have hmore := haccepted.length_le
    rw [(h.inv n).order, (h.inv m).order, hnil, List.length_append, List.append_nil] at hmore
    have hpos := List.length_pos_of_ne_nil hpending
    exact hnever ⟨m, hm, by omega⟩
  -- so no worker is ever in front of the lock: it would take that task
  have hready : ∀ m, n ≤ m → ∀ i : Nat, (r.state m).workers[i]? ≠ some .ready := by
    intro m hm i hi
    obtain ⟨k, hk, hlock, hevent⟩ := h.gets_lock hi
    have hnk : n ≤ k := Nat.le_trans hm hk
    obtain ⟨job, tasks, htasks⟩ := List.exists_cons_of_ne_nil (hstays k hnk)
    have hstep := r.steps k _ hevent
    simp only [step, hlock, runSection, htasks] at hstep
    have hstarted := congrArg (fun x => x.started.length) (Option.some.inj hstep)
    rw [List.length_append, List.length_singleton] at hstarted
    have hgrown := (Scheduled.grows (r := r) hnk).2.length_le
    exact hnever ⟨k + 1, Nat.le_succ_of_le hnk, by omega⟩
  -- and none runs a task, which would come to its end
  have hwaits : ∀ m, n ≤ m → ∀ w ∈ (r.state m).workers, w = .waiting := by
    intro m hm w hw
    obtain ⟨i, hi⟩ := List.mem_iff_getElem?.mp hw
    cases w with
    | ready => exact absurd hi (hready m hm i)
    | waiting => rfl
    | running job =>
      obtain ⟨k, hk, hback, -⟩ := h.ends_task hi
      exact absurd hback (hready k (Nat.le_trans hm hk) i)
    | exited => exact absurd ((h.inv m).exits hw).2 (hstays m hm)
  have hany : ∀ m, n ≤ m → (r.state m).workers.any Worker.isWaiting = true := by
    intro m hm
    obtain ⟨w, hw⟩ := List.exists_mem_of_ne_nil _ fun hnil => hstays m hm ((h.inv m).nobody hnil)
    exact List.any_eq_true.mpr ⟨w, hw, by rw [hwaits m hm w hw]; rfl⟩
  -- they all wait, so notifications are under way, and the first to arrive wakes one
  have hpendingNotifies : ∀ m, n ≤ m → (r.state m).pendingNotifies ≠ 0 := by
    intro m hm
    have henough := (h.inv m).wakes (hany m hm)
    have hnone : (r.state m).workers.countP Worker.isReady = 0 := by
      rw [List.countP_eq_zero]
      intro w hw
      rw [hwaits m hm w hw]
      exact Bool.false_ne_true
    have hpos := List.length_pos_of_ne_nil (hstays m hm)
    omega
  obtain ⟨m, hm, e, hevent, woken, rfl⟩ := h.notifies n hpendingNotifies
  have hstep := r.steps m _ hevent
  obtain ⟨-, hstep⟩ := Option.ite_none_left_eq_some.mp hstep
  cases woken with
  | none => exact (Option.ite_none_left_eq_some.mp hstep).1 (hany m hm)
  | some i =>
    simp only [Executor.notifyOne] at hstep
    split at hstep
    · next hi =>
      obtain ⟨hlt, -⟩ := List.getElem?_eq_some_iff.mp hi
      refine hready (m + 1) (Nat.le_succ_of_le hm) i ?_
      rw [← Option.some.inj hstep]
      exact List.getElem?_set_self hlt
    · cases hstep

/-- Each accepted job is started, the ones in front of it first. -/
theorem Scheduled.starts_all (h : Scheduled r) {k : Nat} (hk : k < (r.state n).accepted.length) :
    ∃ m, n ≤ m ∧ k < (r.state m).started.length := by
  generalize hleft : k + 1 - (r.state n).started.length = left
  induction left using Nat.strong_induction_on generalizing n with
  | h left ih =>
    by_cases hstarted : k < (r.state n).started.length
    · exact ⟨n, Nat.le_refl n, hstarted⟩
    · have hpending : (r.state n).tasks ≠ [] := by
        intro hnil
        rw [(h.inv n).order, hnil, List.append_nil] at hk
        exact hstarted hk
      obtain ⟨m, hm, hmore⟩ := h.takes_next hpending
      have hk' := Nat.lt_of_lt_of_le hk (Scheduled.grows (r := r) hm).1.length_le
      obtain ⟨l, hl, hdone⟩ := ih (k + 1 - (r.state m).started.length) (by omega) hk' rfl
      exact ⟨l, Nat.le_trans hm hl, hdone⟩

/-- Each accepted job is finished. -/
theorem Scheduled.finishes (h : Scheduled r) {job : Job τ} (hjob : job ∈ (r.state n).accepted) :
    ∃ m, n ≤ m ∧ job ∈ (r.state m).finished := by
  obtain ⟨k, hk, rfl⟩ := List.getElem_of_mem hjob
  obtain ⟨m, hm, hstarted⟩ := h.starts_all hk
  have hmem : (r.state n).accepted[k] ∈ (r.state m).started := by
    have hbegins : (r.state m).started <+: (r.state m).accepted := by
      rw [(h.inv m).order]
      exact List.prefix_append _ _
    rw [(Scheduled.grows (r := r) hm).1.getElem hk, ← hbegins.getElem hstarted]
    exact List.getElem_mem hstarted
  obtain hfinished | hrunning := List.mem_append.mp ((h.inv m).executed.mem_iff.mp hmem)
  · exact ⟨m, hm, hfinished⟩
  · obtain ⟨w, hw, hjob⟩ := List.mem_filterMap.mp hrunning
    obtain ⟨i, hi⟩ := List.mem_iff_getElem?.mp hw
    obtain rfl : w = .running (r.state n).accepted[k] := by
      cases w with
      | running job => exact congrArg Worker.running (Option.some.inj hjob)
      | _ => cases hjob
    obtain ⟨l, hl, -, hfinished⟩ := h.ends_task hi
    exact ⟨l, Nat.le_trans hm hl, hfinished⟩

end

namespace Executor

/-- True is the answer to exactly the submissions that are accepted; any other leaves everything as it was. -/
theorem submit_answers (x : Executor τ) (task : Option τ) (pushed : Bool) :
    ((x.submit maxQueue task pushed).2 = true ∧ ∃ accepted, task = some accepted ∧
        (x.submit maxQueue task pushed).1.accepted = x.accepted ++ [⟨x.accepted.length, accepted⟩]) ∨
      (x.submit maxQueue task pushed).2 = false ∧ (x.submit maxQueue task pushed).1 = x := by
  cases task with
  | none => exact .inr ⟨rfl, rfl⟩
  | some task =>
    simp only [submit]
    split_ifs
    · exact .inr ⟨rfl, rfl⟩
    · exact .inr ⟨rfl, rfl⟩
    · exact .inr ⟨rfl, rfl⟩
    · exact .inl ⟨rfl, task, rfl, rfl⟩

/-- What holds of the executor at any moment: each job was accepted once, the first of them have been started, in that order,
and the others wait; what was started is running or finished, on no more workers than there are. -/
structure Sound (workerCount maxQueue : Nat) (x : Executor τ) : Prop where
  once : x.accepted.Nodup ∧ x.started.Nodup ∧ x.finished.Nodup
  order : x.accepted = x.started ++ x.tasks
  executed : x.started.Perm (x.finished ++ x.running)
  workers : x.running.length ≤ x.workers.length ∧ x.workers.length ≤ workerCount
  bound : maxQueue ≠ 0 → x.tasks.length ≤ maxQueue
  destroyed : x.owner = .destroyed → x.accepted.Perm x.finished

theorem Inv.sound (h : x.Inv workerCount maxQueue) : x.Sound workerCount maxQueue where
  once := ⟨h.accepted_nodup, h.started_nodup, h.finished_nodup⟩
  order := h.order
  executed := h.executed
  workers := ⟨List.length_filterMap_le _ _, h.created⟩
  bound := h.bound
  destroyed hgone := (h.destroyed hgone).2

end Executor

/-- Of the tasks that are accepted each is executed once, in order; in a run whose threads go on, none is forgotten. -/
theorem executor_runs_each_once (workerCount maxQueue : Nat) :
    (∀ (x : Executor τ) (task : Option τ) (pushed : Bool),
        ((x.submit maxQueue task pushed).2 = true ∧ ∃ accepted, task = some accepted ∧
            (x.submit maxQueue task pushed).1.accepted = x.accepted ++ [⟨x.accepted.length, accepted⟩]) ∨
          (x.submit maxQueue task pushed).2 = false ∧ (x.submit maxQueue task pushed).1 = x) ∧
      (∀ (events : List (Event τ)) (x : Executor τ), exec (step workerCount maxQueue) {} events = some x →
        x.Sound workerCount maxQueue) ∧
      ∀ r : Endless (step (τ := τ) workerCount maxQueue), Scheduled r →
        ∀ n, ∀ job ∈ (r.state n).accepted, ∃ m, n ≤ m ∧ job ∈ (r.state m).finished :=
  ⟨submit_answers, fun _ _ hrun => (exec_inv hrun).sound, fun _ h _ _ hjob => h.finishes hjob⟩

/-- Two tasks for one worker, which waits again at the end. -/
def servedRun : List (Event Bool) :=
  [.createWorker, .constructed, .lockSection 0, .submit (some true) true, .submit (some false) true, .notifyOne (some 0),
    .notifyOne none, .lockSection 0, .finish 0 true, .lockSection 0, .finish 0 false, .lockSection 0]

def servedExecutor : Executor Bool where
  owner := .live
  workers := [.waiting]
  accepted := [⟨0, true⟩, ⟨1, false⟩]
  started := [⟨0, true⟩, ⟨1, false⟩]
  finished := [⟨0, true⟩, ⟨1, false⟩]

private theorem servedRun_run : exec (step 1 2) {} servedRun = some servedExecutor := by decide

private theorem scheduled_servedRun :
    Scheduled (Endless.finite (step 1 2) {} servedExecutor servedRun servedRun_run) where
  starts := Endless.finite_zero _ _ _ _
  locks := by
    intro i
    apply Endless.finite_fair
    intro hready
    have hwaits := List.mem_singleton.mp (List.mem_of_getElem? hready)
    cases hwaits
  notifies := Endless.finite_fair _ (by decide)
  ends := by
    intro i job
    apply Endless.finite_fair
    intro hrunning
    have hwaits := List.mem_singleton.mp (List.mem_of_getElem? hrunning)
    cases hwaits

/-- The second task is waiting when both are in. -/
theorem executor_runs_each_once_served :
    ∃ m, 5 ≤ m ∧ ⟨1, false⟩ ∈ ((Endless.finite (step 1 2) {} servedExecutor servedRun servedRun_run).state m).finished :=
  (executor_runs_each_once 1 2).2.2 _ scheduled_servedRun 5 ⟨1, false⟩ (by decide)

/-- Two tasks on one worker, the first of which throws, and the destructor while it runs. -/
def shutdownRun : List (Event Bool) :=
  [.createWorker, .constructed, .submit (some true) true, .submit (some false) true, .lockSection 0, .destroy, .setStopping,
    .finish 0 true, .notifyAll, .lockSection 0, .finish 0 false, .lockSection 0, .join, .clear]

example : (exec (step 1 2) {} shutdownRun).map (fun x => (x.owner, x.finished)) =
    some (.destroyed, [⟨0, true⟩, ⟨1, false⟩]) := by decide

end SlsteamMoon.BoundedExecutor
