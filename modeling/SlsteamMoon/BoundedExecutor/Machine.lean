import Mathlib.Data.List.Perm.Basic
import SlsteamMoon.Runs

/-! The executor with its fixed workers: the threads that submit, the workers, and the owner that constructs and destroys.
A step is a section under the lock, or what a thread does between two of them. -/
namespace SlsteamMoon.BoundedExecutor
open Runs

variable {τ : Type}

/-- A task as it was accepted; the ticket tells apart two submissions of equal tasks. -/
structure Job (τ : Type) where
  ticket : Nat
  task : τ
  deriving DecidableEq

/-- Ready is in front of the lock, at the top of the loop or after a wake-up. -/
inductive Worker (τ : Type) where
  | ready
  | waiting
  | running (job : Job τ)
  | exited
  deriving DecidableEq

namespace Worker

def isReady : Worker τ → Bool
  | ready => true
  | _ => false

def isWaiting : Worker τ → Bool
  | waiting => true
  | _ => false

def job? : Worker τ → Option (Job τ)
  | running job => some job
  | _ => none

/-- A waiting worker that is notified. -/
def woken : Worker τ → Worker τ
  | waiting => ready
  | w => w

end Worker

/-- Inside stopAndJoin: in front of the lock, with the flag set, and with the first `joined` workers joined. -/
inductive Stopping where
  | called
  | flagged
  | joining (joined : Nat)
  deriving DecidableEq

inductive Owner where
  | constructing
  /-- The handler of the constructor. -/
  | unwinding (stage : Stopping)
  | live
  | destroying (stage : Stopping)
  | destroyed
  deriving DecidableEq

namespace Owner

def stage? : Owner → Option Stopping
  | unwinding stage | destroying stage => some stage
  | _ => none

def withStage (stage : Stopping) : Owner → Owner
  | unwinding _ => unwinding stage
  | destroying _ => destroying stage
  | owner => owner

/-- Behind stopAndJoin. A constructor that failed leaves an object. -/
def stopped : Owner → Owner
  | unwinding _ => live
  | destroying _ => destroyed
  | owner => owner

/-- Other threads, and the tasks, may call submit. -/
def isShared : Owner → Bool
  | live | destroying _ => true
  | _ => false

end Owner

/-- `pendingNotifies` counts the submitters between the lock and notify_one. The last three record what happened. -/
structure Executor (τ : Type) where
  owner : Owner := .constructing
  workers : List (Worker τ) := []
  tasks : List (Job τ) := []
  stopping : Bool := false
  pendingNotifies : Nat := 0
  accepted : List (Job τ) := []
  started : List (Job τ) := []
  finished : List (Job τ) := []
  deriving DecidableEq

inductive Event (τ : Type) where
  | createWorker
  | createFails
  | constructed
  /-- No task is an empty function; the queue may have no memory for one. -/
  | submit (task : Option τ) (pushed : Bool)
  | notifyOne (woken : Option Nat)
  | lockSection (i : Nat)
  | spuriousWake (i : Nat)
  /-- Returned or threw. -/
  | finish (i : Nat) (threw : Bool)
  | destroy
  | setStopping
  | notifyAll
  | join
  | clear
  deriving DecidableEq

namespace Executor

def running (x : Executor τ) : List (Job τ) := x.workers.filterMap Worker.job?

def setWorker (x : Executor τ) (i : Nat) (w : Worker τ) : Executor τ := { x with workers := x.workers.set i w }

/-- The section under the lock, and the answer. -/
def submit (maxQueue : Nat) (x : Executor τ) (task : Option τ) (pushed : Bool) : Executor τ × Bool :=
  match task with
  | none => (x, false)
  | some task =>
    if x.stopping = true ∨ x.workers = [] then (x, false)
    else if maxQueue ≠ 0 ∧ maxQueue ≤ x.tasks.length then (x, false)
    else if pushed = false then (x, false)
    else
      ({ x with
          tasks := x.tasks ++ [⟨x.accepted.length, task⟩]
          pendingNotifies := x.pendingNotifies + 1
          accepted := x.accepted ++ [⟨x.accepted.length, task⟩] }, true)

/-- The section of a worker: it waits, leaves, or takes the first task. -/
def runSection (x : Executor τ) (i : Nat) : Executor τ :=
  match x.tasks with
  | [] => if x.stopping then x.setWorker i .exited else x.setWorker i .waiting
  | job :: tasks => { x.setWorker i (.running job) with tasks, started := x.started ++ [job] }

/-- One waiting worker is woken, if there is one. -/
def notifyOne (x : Executor τ) : Option Nat → Option (Executor τ)
  | none => if x.workers.any Worker.isWaiting then none else some { x with pendingNotifies := x.pendingNotifies - 1 }
  | some i =>
    match x.workers[i]? with
    | some .waiting => some { x.setWorker i .ready with pendingNotifies := x.pendingNotifies - 1 }
    | _ => none

/-- A thread of the owner's that is inside stopAndJoin. -/
def stopAndJoin (x : Executor τ) (stage : Stopping) : Event τ → Option (Executor τ)
  | .setStopping =>
    match stage with
    | .called => some { x with stopping := true, owner := x.owner.withStage .flagged }
    | _ => none
  | .notifyAll =>
    match stage with
    | .flagged => some { x with workers := x.workers.map Worker.woken, owner := x.owner.withStage (.joining 0) }
    | _ => none
  | .join =>
    match stage with
    | .joining joined =>
      match x.workers[joined]? with
      | some .exited => some { x with owner := x.owner.withStage (.joining (joined + 1)) }
      | _ => none
    | _ => none
  | .clear =>
    match stage with
    | .joining joined => if joined = x.workers.length then some { x with workers := [], owner := x.owner.stopped } else none
    | _ => none
  | _ => none

end Executor

open Executor

/-- One step of an executor with this many workers wanted and this bound of its queue, none if it is zero. -/
def step (workerCount maxQueue : Nat) : Step (Executor τ) (Event τ)
  | x, .createWorker =>
    if x.owner = .constructing ∧ x.workers.length < workerCount then some { x with workers := x.workers ++ [.ready] }
    else none
  | x, .createFails =>
    if x.owner = .constructing ∧ x.workers.length < workerCount then some { x with owner := .unwinding .called } else none
  | x, .constructed =>
    if x.owner = .constructing ∧ x.workers.length = workerCount then some { x with owner := .live } else none
  | x, .submit task pushed => if x.owner.isShared then some (x.submit maxQueue task pushed).1 else none
  | x, .notifyOne woken => if x.pendingNotifies = 0 then none else x.notifyOne woken
  | x, .lockSection i =>
    match x.workers[i]? with
    | some .ready => some (x.runSection i)
    | _ => none
  | x, .spuriousWake i =>
    match x.workers[i]? with
    | some .waiting => some (x.setWorker i .ready)
    | _ => none
  | x, .finish i _ =>
    match x.workers[i]? with
    | some (.running job) => some { x.setWorker i .ready with finished := x.finished ++ [job] }
    | _ => none
  | x, .destroy => if x.owner = .live then some { x with owner := .destroying .called } else none
  | x, e =>
    match x.owner.stage? with
    | some stage => x.stopAndJoin stage e
    | none => none

end SlsteamMoon.BoundedExecutor
