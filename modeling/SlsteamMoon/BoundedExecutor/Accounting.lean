import Mathlib.Data.List.Nodup
import SlsteamMoon.BoundedExecutor.Machine

/-! What every run of the executor keeps: each accepted task is pending or was started once, in the order of acceptance. -/
namespace SlsteamMoon.BoundedExecutor
open Runs

variable {τ : Type} {workerCount maxQueue : Nat} {x y : Executor τ} {i : Nat} {old w : Worker τ}

private theorem set_perm {α : Type} {xs : List α} {i : Nat} {a : α} (h : xs[i]? = some a) (b : α) :
    ∃ rest, xs.Perm (a :: rest) ∧ (xs.set i b).Perm (b :: rest) := by
  obtain ⟨hi, rfl⟩ := List.getElem?_eq_some_iff.mp h
  exact ⟨xs.eraseIdx i, (List.getElem_cons_eraseIdx_perm hi).symm, List.set_perm_cons_eraseIdx hi b⟩

namespace Executor

/-- The books: what was accepted is started, in that order, or still in the queue; what was
started is finished or running. -/
structure Books (maxQueue : Nat) (x : Executor τ) : Prop where
  order : x.accepted = x.started ++ x.tasks
  tickets : x.accepted.map Job.ticket = List.range x.accepted.length
  executed : x.started.Perm (x.finished ++ x.running)
  bound : maxQueue ≠ 0 → x.tasks.length ≤ maxQueue

/-- A worker waits only if there are workers in front of the lock, or notifications under way, for all of the queue. -/
def Wakes (x : Executor τ) : Prop :=
  x.workers.any Worker.isWaiting = true → x.tasks.length ≤ x.workers.countP Worker.isReady + x.pendingNotifies

/-- The owner and the workers: a worker leaves when the executor stops and nothing is pending, and only then. -/
structure Shape (workerCount : Nat) (x : Executor τ) : Prop where
  created : x.workers.length ≤ workerCount
  exits : .exited ∈ x.workers → x.stopping = true ∧ x.tasks = []
  nobody : x.workers = [] → x.tasks = []
  gone : x.owner = .destroyed → x.workers = []
  flagged : ∀ stage, x.owner.stage? = some stage → stage ≠ .called → x.stopping = true
  joined : ∀ k, x.owner.stage? = some (.joining k) → ∀ j < k, x.workers[j]? = some .exited
  wakes : x.Wakes

structure Inv (workerCount maxQueue : Nat) (x : Executor τ) : Prop extends Books maxQueue x, Shape workerCount x

theorem inv_start : Inv workerCount maxQueue ({} : Executor τ) where
  order := rfl
  tickets := rfl
  executed := List.Perm.refl []
  bound _ := Nat.zero_le _
  created := Nat.zero_le _
  exits h := absurd h List.not_mem_nil
  nobody _ := rfl
  gone _ := rfl
  flagged _ h := by cases h
  joined _ h := by cases h
  wakes h := by cases h

/-- One worker goes on to another state. -/
theorem Shape.goes (h : x.Shape workerCount) (hi : x.workers[i]? = some old) (hold : old ≠ .exited)
    (hworkers : y.workers = x.workers.set i w) (howner : y.owner = x.owner) (hstopping : y.stopping = x.stopping)
    (htasks : x.tasks = [] → y.tasks = []) (hexits : w = .exited → y.stopping = true ∧ y.tasks = []) (hwakes : y.Wakes) :
    y.Shape workerCount := by
  obtain ⟨hlt, -⟩ := List.getElem?_eq_some_iff.mp hi
  have hlength : y.workers.length = x.workers.length := by rw [hworkers, List.length_set]
  have hsome : y.workers ≠ [] := List.ne_nil_of_length_pos (by omega)
  refine ⟨?_, ?_, fun hnil => absurd hnil hsome, ?_, ?_, ?_, hwakes⟩
  · rw [hlength]
    exact h.created
  · intro hmem
    rw [hworkers] at hmem
    obtain hmem | heq := List.mem_or_eq_of_mem_set hmem
    · obtain ⟨hstop, hnone⟩ := h.exits hmem
      exact ⟨hstopping.trans hstop, htasks hnone⟩
    · exact hexits heq.symm
  · intro hgone
    rw [h.gone (howner.symm.trans hgone)] at hlt
    exact absurd hlt (Nat.not_lt_zero i)
  · rw [howner, hstopping]
    exact h.flagged
  · intro k hk j hj
    rw [howner] at hk
    have hexited := h.joined k hk j hj
    have hne : i ≠ j := by
      rintro rfl
      exact hold (Option.some.inj (hi.symm.trans hexited))
    rw [hworkers, List.getElem?_set_ne hne, hexited]

private theorem running_perm (hi : x.workers[i]? = some old) (w : Worker τ) :
    ∃ rest, x.running.Perm (old.job?.toList ++ rest) ∧
      ((x.workers.set i w).filterMap Worker.job?).Perm (w.job?.toList ++ rest) := by
  obtain ⟨rest, hbefore, hafter⟩ := set_perm hi w
  refine ⟨rest.filterMap Worker.job?, ?_, ?_⟩
  · refine (hbefore.filterMap _).trans ?_
    rw [List.filterMap_cons]
    cases old.job? <;> exact List.Perm.refl _
  · refine (hafter.filterMap _).trans ?_
    rw [List.filterMap_cons]
    cases w.job? <;> exact List.Perm.refl _

private theorem countP_set (hi : x.workers[i]? = some old) (w : Worker τ) (p : Worker τ → Bool) :
    (x.workers.set i w).countP p + (p old).toNat = x.workers.countP p + (p w).toNat := by
  obtain ⟨rest, hbefore, hafter⟩ := set_perm hi w
  rw [hbefore.countP_eq, hafter.countP_eq, List.countP_cons, List.countP_cons]
  cases p old <;> cases p w <;> simp

private theorem any_waiting_of_set (hw : w.isWaiting = false) (h : (x.workers.set i w).any Worker.isWaiting = true) :
    x.workers.any Worker.isWaiting = true := by
  obtain ⟨v, hv, hwaiting⟩ := List.any_eq_true.mp h
  obtain hv | rfl := List.mem_or_eq_of_mem_set hv
  · exact List.any_eq_true.mpr ⟨v, hv, hwaiting⟩
  · rw [hw] at hwaiting
    cases hwaiting

/-- One more worker in front of the lock makes up for one notification. -/
theorem Wakes.readies (h : x.Wakes) (hi : x.workers[i]? = some old) (hold : old.isReady = false)
    (hworkers : y.workers = x.workers.set i .ready) (htasks : y.tasks = x.tasks)
    (hpending : x.pendingNotifies ≤ y.pendingNotifies + 1) : y.Wakes := by
  intro hwaiting
  rw [hworkers] at hwaiting
  have henough := h (any_waiting_of_set rfl hwaiting)
  have hcount := countP_set hi .ready Worker.isReady
  rw [hold] at hcount
  have hready : (Worker.ready : Worker τ).isReady.toNat = 1 := rfl
  rw [htasks, hworkers]
  rw [Bool.toNat_false, hready] at hcount
  omega

/-- A worker comes back to the lock, from its task or from waiting. -/
theorem Inv.readies (h : x.Inv workerCount maxQueue) (hi : x.workers[i]? = some old) (hold : old ≠ .exited)
    (hready : old.isReady = false) (hworkers : y.workers = x.workers.set i .ready) (howner : y.owner = x.owner)
    (hstopping : y.stopping = x.stopping) (htasks : y.tasks = x.tasks) (haccepted : y.accepted = x.accepted)
    (hstarted : y.started = x.started) (hfinished : y.finished = x.finished ++ old.job?.toList)
    (hpending : x.pendingNotifies ≤ y.pendingNotifies + 1) : y.Inv workerCount maxQueue := by
  refine ⟨⟨?_, ?_, ?_, ?_⟩, h.toShape.goes hi hold hworkers howner hstopping (fun hnone => htasks.trans hnone)
    (fun heq => by cases heq) (h.wakes.readies hi hready hworkers htasks hpending)⟩
  · rw [haccepted, hstarted, htasks]
    exact h.order
  · rw [haccepted]
    exact h.tickets
  · obtain ⟨rest, hbefore, hafter⟩ := running_perm hi .ready
    have hrunning : y.running.Perm rest := by
      rw [running, hworkers]
      exact hafter
    rw [hstarted, hfinished, List.append_assoc]
    exact h.executed.trans (List.Perm.append_left _ (hbefore.trans (List.Perm.append_left _ hrunning.symm)))
  · rw [htasks]
    exact h.bound

theorem Inv.submit (h : x.Inv workerCount maxQueue) (task : Option τ) (pushed : Bool) :
    (x.submit maxQueue task pushed).1.Inv workerCount maxQueue := by
  cases task with
  | none => exact h
  | some task =>
    simp only [Executor.submit]
    split_ifs with hclosed hfull hlost
    · exact h
    · exact h
    · exact h
    · obtain ⟨hopen, hworkers⟩ := not_or.mp hclosed
      refine ⟨⟨?_, ?_, h.executed, ?_⟩, ⟨h.created, ?_, fun hnil => absurd hnil hworkers, h.gone, h.flagged, h.joined, ?_⟩⟩
      · dsimp only
        rw [h.order, List.append_assoc]
      · dsimp only
        rw [List.map_append, h.tickets, List.length_append, List.length_singleton, List.range_succ]
        rfl
      · intro hbound
        have hroom : x.tasks.length < maxQueue := Nat.lt_of_not_le fun hle => hfull ⟨hbound, hle⟩
        simp only [List.length_append, List.length_singleton]
        exact hroom
      · intro hexited
        exact absurd (h.exits hexited).1 hopen
      · intro hwaiting
        have henough := h.wakes hwaiting
        simp only [List.length_append, List.length_singleton]
        omega

/-- A worker that finds nothing to do waits or leaves. -/
theorem Inv.idles (h : x.Inv workerCount maxQueue) (hi : x.workers[i]? = some .ready) (hnone : x.tasks = [])
    (hjob : w.job? = none) (hexits : w = .exited → x.stopping = true) : (x.setWorker i w).Inv workerCount maxQueue := by
  refine ⟨⟨h.order, h.tickets, ?_, h.bound⟩, h.toShape.goes hi (fun heq => by cases heq) rfl rfl rfl id
    (fun heq => ⟨hexits heq, hnone⟩) fun _ => ?_⟩
  · obtain ⟨rest, hbefore, hafter⟩ := running_perm hi w
    rw [hjob] at hafter
    have hrunning : x.running.Perm (x.setWorker i w).running := hbefore.trans hafter.symm
    exact h.executed.trans (List.Perm.append_left _ hrunning)
  · have hempty : (x.setWorker i w).tasks.length = 0 := congrArg List.length hnone
    rw [hempty]
    exact Nat.zero_le _

/-- A worker takes the first task. -/
theorem Inv.takes (h : x.Inv workerCount maxQueue) (hi : x.workers[i]? = some .ready) {job : Job τ} {tasks : List (Job τ)}
    (htasks : x.tasks = job :: tasks) :
    Inv workerCount maxQueue { x.setWorker i (.running job) with tasks, started := x.started ++ [job] } := by
  have hnonempty : x.tasks ≠ [] := by
    rw [htasks]
    exact List.cons_ne_nil job tasks
  refine ⟨⟨?_, h.tickets, ?_, ?_⟩, h.toShape.goes hi (fun heq => by cases heq) rfl rfl rfl
    (fun hnil => absurd hnil hnonempty) (fun heq => by cases heq) fun hwaiting => ?_⟩
  · exact h.order.trans (by rw [htasks, List.append_assoc]; rfl)
  · obtain ⟨rest, hbefore, hafter⟩ := running_perm hi (.running job)
    have hrunning : (x.finished ++ [job] ++ x.running).Perm (x.finished ++ (x.setWorker i (.running job)).running) := by
      rw [List.append_assoc]
      exact List.Perm.append_left _ ((List.Perm.append_left [job] hbefore).trans hafter.symm)
    refine (List.Perm.append_right [job] h.executed).trans (List.Perm.trans ?_ hrunning)
    rw [List.append_assoc, List.append_assoc]
    exact List.Perm.append_left _ List.perm_append_comm
  · intro hbound
    have hroom := h.bound hbound
    rw [htasks, List.length_cons] at hroom
    exact Nat.le_of_succ_le hroom
  · have henough := h.wakes (any_waiting_of_set rfl hwaiting)
    have hcount : (x.workers.set i (.running job)).countP Worker.isReady + 1 = x.workers.countP Worker.isReady + 0 :=
      countP_set hi (.running job) Worker.isReady
    rw [htasks, List.length_cons] at henough
    simp only [Executor.setWorker]
    omega

theorem Inv.runSection (h : x.Inv workerCount maxQueue) (hi : x.workers[i]? = some .ready) :
    (x.runSection i).Inv workerCount maxQueue := by
  rw [Executor.runSection]
  split
  · next hnone =>
    split_ifs with hstopping
    · exact h.idles hi hnone rfl fun _ => hstopping
    · exact h.idles hi hnone rfl fun heq => by cases heq
  · next job tasks htasks => exact h.takes hi htasks

theorem Inv.notifyOne (h : x.Inv workerCount maxQueue) {woken : Option Nat} (hy : x.notifyOne woken = some y) :
    y.Inv workerCount maxQueue := by
  cases woken with
  | none =>
    simp only [Executor.notifyOne] at hy
    split_ifs at hy with hnone
    cases hy
    exact ⟨⟨h.order, h.tickets, h.executed, h.bound⟩, h.created, h.exits, h.nobody, h.gone, h.flagged, h.joined,
      fun hwaiting => absurd hwaiting hnone⟩
  | some i =>
    simp only [Executor.notifyOne] at hy
    split at hy
    · next hi =>
      cases hy
      refine h.readies hi (fun heq => by cases heq) rfl rfl rfl rfl rfl rfl rfl (List.append_nil _).symm ?_
      dsimp only
      omega
    · cases hy

/-- The owner goes on inside stopAndJoin, or leaves it. -/
theorem Inv.owned (h : x.Inv workerCount maxQueue) {owner : Owner} {stopping : Bool}
    (hstopping : x.stopping = true → stopping = true) (hgone : owner = .destroyed → x.workers = [])
    (hflagged : ∀ stage, owner.stage? = some stage → stage ≠ .called → stopping = true)
    (hjoined : ∀ k, owner.stage? = some (.joining k) → ∀ j < k, x.workers[j]? = some .exited) :
    Inv workerCount maxQueue { x with owner, stopping } :=
  ⟨⟨h.order, h.tickets, h.executed, h.bound⟩, h.created, fun hexited => ⟨hstopping (h.exits hexited).1, (h.exits hexited).2⟩,
    h.nobody, hgone, hflagged, hjoined, h.wakes⟩

theorem Inv.createWorker (h : x.Inv workerCount maxQueue) (howner : x.owner = .constructing)
    (hroom : x.workers.length < workerCount) :
    Inv workerCount maxQueue { x with workers := x.workers ++ [.ready] } := by
  have hstage : x.owner.stage? = none := by rw [howner]; rfl
  have hrunning : (x.workers ++ [Worker.ready]).filterMap Worker.job? = x.running := by
    rw [List.filterMap_append]
    exact List.append_nil _
  refine ⟨⟨h.order, h.tickets, ?_, h.bound⟩, ⟨?_, ?_, ?_, ?_, ?_, ?_, ?_⟩⟩
  · have hexecuted := h.executed
    rw [← hrunning] at hexecuted
    exact hexecuted
  · rw [List.length_append]
    exact hroom
  · intro hexited
    obtain hexited | hready := List.mem_append.mp hexited
    · exact h.exits hexited
    · cases List.mem_singleton.mp hready
  · intro hnil
    exact absurd hnil (List.append_ne_nil_of_right_ne_nil _ (List.cons_ne_nil _ _))
  · intro hgone
    cases howner.symm.trans hgone
  · intro stage hsome
    cases hstage.symm.trans hsome
  · intro k hsome
    cases hstage.symm.trans hsome
  · intro hwaiting
    rw [List.any_append, List.any_cons, List.any_nil, Bool.or_false] at hwaiting
    have henough := h.wakes ((Bool.or_eq_true_iff.mp hwaiting).resolve_right (fun heq => by cases heq))
    rw [List.countP_append]
    exact Nat.le_trans henough (Nat.add_le_add_right (Nat.le_add_right _ _) _)

private theorem withStage_spec {owner : Owner} {stage : Stopping} (h : owner.stage? = some stage) (next : Stopping) :
    (owner.withStage next).stage? = some next ∧ owner.withStage next ≠ .destroyed := by
  cases owner with
  | unwinding _ => exact ⟨rfl, fun heq => by cases heq⟩
  | destroying _ => exact ⟨rfl, fun heq => by cases heq⟩
  | _ => cases h

private theorem stopped_stage? (owner : Owner) : owner.stopped.stage? = none := by cases owner <;> rfl

private theorem job?_woken (w : Worker τ) : w.woken.job? = w.job? := by cases w <;> rfl

theorem Inv.notifyAll (h : x.Inv workerCount maxQueue) {stage : Stopping} (hstage : x.owner.stage? = some stage)
    (hstopping : x.stopping = true) :
    Inv workerCount maxQueue { x with workers := x.workers.map Worker.woken, owner := x.owner.withStage (.joining 0) } := by
  obtain ⟨hnext, hnotGone⟩ := withStage_spec hstage (.joining 0)
  have hrunning : (x.workers.map Worker.woken).filterMap Worker.job? = x.running := by
    rw [List.filterMap_map]
    exact congrArg (fun f => x.workers.filterMap f) (funext job?_woken)
  refine ⟨⟨h.order, h.tickets, ?_, h.bound⟩, ⟨?_, ?_, ?_, fun heq => absurd heq hnotGone, fun _ _ _ => hstopping, ?_, ?_⟩⟩
  · have hexecuted := h.executed
    rw [← hrunning] at hexecuted
    exact hexecuted
  · rw [List.length_map]
    exact h.created
  · intro hexited
    obtain ⟨w, hw, hwoken⟩ := List.mem_map.mp hexited
    obtain rfl : w = .exited := by cases w <;> first | rfl | cases hwoken
    exact h.exits hw
  · intro hnil
    exact h.nobody (List.map_eq_nil_iff.mp hnil)
  · intro k hk j hj
    obtain rfl := Stopping.joining.inj (Option.some.inj (hnext.symm.trans hk))
    exact absurd hj (Nat.not_lt_zero j)
  · intro hwaiting
    obtain ⟨v, hv, hwaits⟩ := List.any_eq_true.mp hwaiting
    obtain ⟨w, -, rfl⟩ := List.mem_map.mp hv
    cases w <;> cases hwaits

theorem Inv.clear (h : x.Inv workerCount maxQueue) {joined : Nat} (hstage : x.owner.stage? = some (.joining joined))
    (hall : joined = x.workers.length) : Inv workerCount maxQueue { x with workers := [], owner := x.owner.stopped } := by
  have hexited : ∀ w ∈ x.workers, w = .exited := by
    intro w hw
    obtain ⟨j, hj, rfl⟩ := List.getElem_of_mem hw
    have hsome := h.joined joined hstage j (hall ▸ hj)
    rw [List.getElem?_eq_getElem hj] at hsome
    exact Option.some.inj hsome
  have hrunning : x.running = [] := by
    rw [Executor.running, List.filterMap_eq_nil_iff]
    intro w hw
    rw [hexited w hw]
    rfl
  have hnone : x.tasks = [] := by
    cases hworkers : x.workers with
    | nil => exact h.nobody hworkers
    | cons w rest =>
      have hmem : w ∈ x.workers := by
        rw [hworkers]
        exact List.mem_cons_self
      exact (h.exits (hexited w hmem ▸ hmem)).2
  refine ⟨⟨h.order, h.tickets, ?_, h.bound⟩, ⟨Nat.zero_le _, fun hmem => absurd hmem List.not_mem_nil, fun _ => hnone,
    fun _ => rfl, ?_, ?_, fun hwaiting => by cases hwaiting⟩⟩
  · have hexecuted := h.executed
    rw [hrunning] at hexecuted
    exact hexecuted
  · intro stage hsome
    rw [stopped_stage?] at hsome
    cases hsome
  · intro k hsome
    rw [stopped_stage?] at hsome
    cases hsome

theorem Inv.stopAndJoin (h : x.Inv workerCount maxQueue) {stage : Stopping} (hstage : x.owner.stage? = some stage)
    {e : Event τ} (hy : x.stopAndJoin stage e = some y) : y.Inv workerCount maxQueue := by
  cases e with
  | setStopping =>
    simp only [Executor.stopAndJoin] at hy
    split at hy
    · cases hy
      obtain ⟨hnext, hnotGone⟩ := withStage_spec hstage .flagged
      refine h.owned (fun _ => rfl) (fun heq => absurd heq hnotGone) (fun _ _ _ => rfl) fun k hk => ?_
      cases Option.some.inj (hnext.symm.trans hk)
    · cases hy
  | notifyAll =>
    simp only [Executor.stopAndJoin] at hy
    split at hy
    · cases hy
      exact h.notifyAll hstage (h.flagged _ hstage fun heq => by cases heq)
    · cases hy
  | join =>
    simp only [Executor.stopAndJoin] at hy
    split at hy
    · next joined =>
      split at hy
      · next hexited =>
        cases hy
        obtain ⟨hnext, hnotGone⟩ := withStage_spec hstage (.joining (joined + 1))
        refine h.owned id (fun heq => absurd heq hnotGone)
          (fun _ _ _ => h.flagged _ hstage fun heq => by cases heq) fun k hk j hj => ?_
        obtain rfl := Stopping.joining.inj (Option.some.inj (hnext.symm.trans hk))
        obtain hlt | rfl := Nat.lt_or_eq_of_le (Nat.le_of_lt_succ hj)
        · exact h.joined joined hstage j hlt
        · exact hexited
      · cases hy
    · cases hy
  | clear =>
    simp only [Executor.stopAndJoin] at hy
    split at hy
    · next joined =>
      obtain ⟨hall, hy⟩ := Option.ite_none_right_eq_some.mp hy
      cases hy
      exact h.clear hstage hall
    · cases hy
  | _ => cases hy

end Executor

open Executor

/-- Every step keeps the books. -/
theorem step_inv {e : Event τ} (h : x.Inv workerCount maxQueue) (hy : step workerCount maxQueue x e = some y) :
    y.Inv workerCount maxQueue := by
  cases e with
  | createWorker =>
    obtain ⟨⟨howner, hroom⟩, hy⟩ := Option.ite_none_right_eq_some.mp hy
    cases hy
    exact h.createWorker howner hroom
  | createFails =>
    obtain ⟨⟨howner, -⟩, hy⟩ := Option.ite_none_right_eq_some.mp hy
    cases hy
    refine h.owned id (fun heq => by cases heq) (fun stage hstage hne => ?_) fun k hk => by cases hk
    exact absurd (Option.some.inj hstage).symm hne
  | constructed =>
    obtain ⟨⟨howner, -⟩, hy⟩ := Option.ite_none_right_eq_some.mp hy
    cases hy
    exact h.owned id (fun heq => by cases heq) (fun _ hstage => by cases hstage) fun _ hk => by cases hk
  | submit task pushed =>
    obtain ⟨-, hy⟩ := Option.ite_none_right_eq_some.mp hy
    cases hy
    exact h.submit task pushed
  | notifyOne woken =>
    obtain ⟨-, hy⟩ := Option.ite_none_left_eq_some.mp hy
    exact h.notifyOne hy
  | lockSection i =>
    simp only [step] at hy
    split at hy
    · next hi =>
      cases hy
      exact h.runSection hi
    · cases hy
  | spuriousWake i =>
    simp only [step] at hy
    split at hy
    · next hi =>
      cases hy
      exact h.readies hi (fun heq => by cases heq) rfl rfl rfl rfl rfl rfl rfl (List.append_nil _).symm (Nat.le_succ _)
    · cases hy
  | finish i threw =>
    simp only [step] at hy
    split at hy
    · next job hi =>
      cases hy
      exact h.readies hi (fun heq => by cases heq) rfl rfl rfl rfl rfl rfl rfl rfl (Nat.le_succ _)
    · cases hy
  | destroy =>
    obtain ⟨-, hy⟩ := Option.ite_none_right_eq_some.mp hy
    cases hy
    refine h.owned id (fun heq => by cases heq) (fun stage hstage hne => ?_) fun k hk => by cases hk
    exact absurd (Option.some.inj hstage).symm hne
  | setStopping | notifyAll | join | clear =>
    simp only [step] at hy
    split at hy
    · next stage hstage => exact h.stopAndJoin hstage hy
    · cases hy

theorem exec_inv {events : List (Event τ)} (hrun : exec (step workerCount maxQueue) {} events = some x) :
    x.Inv workerCount maxQueue :=
  exec_preserves (fun _ _ _ h hy => step_inv h hy) inv_start hrun

namespace Executor

/-- The tickets tell the accepted jobs apart. -/
theorem Books.accepted_nodup (h : x.Books maxQueue) : x.accepted.Nodup :=
  List.Nodup.of_map Job.ticket (h.tickets ▸ List.nodup_range)

theorem Books.started_nodup (h : x.Books maxQueue) : x.started.Nodup :=
  (List.nodup_append.mp (h.order ▸ h.accepted_nodup)).1

theorem Books.finished_nodup (h : x.Books maxQueue) : x.finished.Nodup :=
  (List.nodup_append.mp (h.executed.nodup_iff.mp h.started_nodup)).1

/-- When the destructor has returned nothing is pending or running. -/
theorem Inv.destroyed (h : x.Inv workerCount maxQueue) (hgone : x.owner = .destroyed) :
    x.started = x.accepted ∧ x.accepted.Perm x.finished := by
  have hworkers := h.gone hgone
  have horder := h.order
  have hexecuted := h.executed
  rw [h.nobody hworkers, List.append_nil] at horder
  rw [Executor.running, hworkers, List.filterMap_nil, List.append_nil] at hexecuted
  exact ⟨horder.symm, horder ▸ hexecuted⟩

end Executor
end SlsteamMoon.BoundedExecutor
