import Mathlib.Logic.Function.Basic
import SlsteamMoon.OwnerQueue.Queue
import SlsteamMoon.Runs

/-! Any number of threads on one queue. A section under the mutex, an acquisition
of the recursive execution mutex and each end of a command's run are single events;
a runner may call back into the queue, so a thread holds a stack of calls. -/
namespace SlsteamMoon.OwnerQueue

abbrev ThreadId := Nat

/-- A claimed record under the ticket of its acceptance, or an extra command. -/
structure Item where
  ticket : Option Nat
  cmd : Command
  deriving DecidableEq, Repr

inductive Phase where
  | called | claimed | waiting | window | running | left
  deriving DecidableEq, Repr

/-- One drain, flushStale or runPendingThen call. The bound counts the records
accepted before it began; only proofs read it. -/
structure Frame where
  phase : Phase
  batch : List Item
  claimed : Bool := false
  bound : Nat := 0
  deriving DecidableEq, Repr

/-- The tickets, their count and the log of finished runs are history. -/
structure Machine where
  queue : Queue
  tickets : List Nat := []
  issued : Nat := 0
  exec : Option (ThreadId × Nat) := none
  threads : ThreadId → List Frame := fun _ => []
  ran : List Item := []

inductive Event where
  | push (cmd : Command) (nowUs : Nat)
  | pushBatch (batch : List Command) (nowUs : Nat)
  | drain (t : ThreadId)
  | flushStale (t : ThreadId) (nowUs maxStaleUs : Nat)
  | runPendingThen (t : ThreadId) (extra : List Command)
  | claimInline (t : ThreadId)
  | countInline (t : ThreadId)
  | enter (t : ThreadId)
  | start (t : ThreadId)
  | finish (t : ThreadId) (threw : Bool)
  | leave (t : ThreadId)
  | release (t : ThreadId)
  | shutdown
  deriving DecidableEq

namespace Machine

def start (b : Bounds) : Machine := { queue := { bounds := b } }

def items (m : Machine) : List Item :=
  List.zipWith (fun k (e : Entry) => ⟨some k, e.cmd⟩) m.tickets m.queue.pending

/-- Every accepted record gets the next ticket, in the order of the results. -/
def accept (m : Machine) (q : Queue) (results : List PushResult) : Machine :=
  { m with
    queue := q
    tickets := m.tickets ++ List.range' m.issued (results.count .queued)
    issued := m.issued + results.count .queued }

def stack (m : Machine) (t : ThreadId) (frames : List Frame) : Machine :=
  { m with threads := Function.update m.threads t frames }

/-- A thread may call when it is outside the queue or inside a command's run. -/
def mayCall (m : Machine) (t : ThreadId) : Bool :=
  match m.threads t with
  | [] => true
  | f :: _ => f.phase = .running

/-- The claim section of drain and flushStale: refused, the call returns zero. -/
def callClaiming (m : Machine) (t : ThreadId) (kind : ClaimKind) (nowUs maxStaleUs : Nat) :
    Option Machine :=
  if m.mayCall t then
    match m.queue.claim kind nowUs maxStaleUs with
    | none => some m
    | some (_, q) =>
      some ({ m with queue := q, tickets := [] }.stack t
        (⟨.waiting, m.items, true, 0⟩ :: m.threads t))
  else none

/-- The claim section of runPendingThen: refused, only the extra commands are left to run. -/
def claimInline (m : Machine) (t : ThreadId) (f : Frame) (rest : List Frame) : Machine :=
  match m.queue.claim .inline 0 0 with
  | none => m.stack t ({ f with phase := .claimed } :: rest)
  | some (_, q) =>
    { m with queue := q, tickets := [] }.stack t
      ({ f with phase := .claimed, claimed := true, batch := m.items ++ f.batch } :: rest)

def step (m : Machine) : Event → Option Machine
  | .push cmd now =>
    let (q, result) := m.queue.push cmd now
    some (m.accept q [result])
  | .pushBatch batch now =>
    let (q, _, results) := m.queue.pushBatch batch now
    some (m.accept q results)
  | .drain t => m.callClaiming t .drain 0 0
  | .flushStale t now maxStale => m.callClaiming t .stale now maxStale
  | .runPendingThen t extra =>
    if m.mayCall t then
      some (m.stack t (⟨.called, extra.map fun c => ⟨none, c⟩, false, m.issued⟩ :: m.threads t))
    else none
  | .claimInline t =>
    match m.threads t with
    | f :: rest => if f.phase = .called then some (m.claimInline t f rest) else none
    | [] => none
  | .countInline t =>
    match m.threads t with
    | f :: rest =>
      if f.phase ≠ .claimed then none
      else if f.batch = [] then some (m.stack t ({ f with phase := .left } :: rest))
      else some ({ m with queue := m.queue.countInline f.batch.length }.stack t
        ({ f with phase := .waiting } :: rest))
    | [] => none
  | .enter t =>
    match m.threads t with
    | f :: rest =>
      if f.phase ≠ .waiting then none
      else match m.exec with
        | none => some ({ m with exec := some (t, 1) }.stack t ({ f with phase := .window } :: rest))
        | some (u, d) =>
          if u = t then
            some ({ m with exec := some (t, d + 1) }.stack t ({ f with phase := .window } :: rest))
          else none
    | [] => none
  | .start t =>
    match m.threads t with
    | f :: rest =>
      if f.phase = .window ∧ f.batch ≠ [] then some (m.stack t ({ f with phase := .running } :: rest))
      else none
    | [] => none
  | .finish t threw =>
    match m.threads t with
    | f :: rest =>
      match f.phase, f.batch with
      | .running, i :: tail =>
        some ({ m with queue := m.queue.countRun threw, ran := m.ran ++ [i] }.stack t
          ({ f with phase := .window, batch := tail } :: rest))
      | _, _ => none
    | [] => none
  | .leave t =>
    match m.threads t, m.exec with
    | f :: rest, some (_, d) =>
      if f.phase = .window ∧ f.batch = [] then
        some ({ m with exec := if d ≤ 1 then none else some (t, d - 1) }.stack t
          ({ f with phase := .left } :: rest))
      else none
    | _, _ => none
  | .release t =>
    match m.threads t with
    | f :: rest =>
      if f.phase = .left then
        some ({ m with queue := if f.claimed then m.queue.releaseExecuting else m.queue }.stack t rest)
      else none
    | [] => none
  | .shutdown => some { m with queue := m.queue.shutdown, tickets := [] }

/-- The forms a step takes, with what its guards establish. -/
inductive Moves (m : Machine) : Event → Machine → Prop
  | pushed (e : Event) (q : Queue) (results : List PushResult) (hcontrol : m.queue.SameControl q)
      (hpushes : Queue.Pushes m.queue.bounds m.queue.pending results q.pending) :
      Moves m e (m.accept q results)
  | refused (e : Event) : Moves m e m
  | claims (e : Event) (t : ThreadId) (q : Queue) (hcall : m.mayCall t)
      (hclaims : m.queue.Claims m.queue.pending q) :
      Moves m e ({ m with queue := q, tickets := [] }.stack t
        (⟨.waiting, m.items, true, 0⟩ :: m.threads t))
  | calls (t : ThreadId) (extra : List Command) (hcall : m.mayCall t) :
      Moves m (.runPendingThen t extra) (m.stack t
        (⟨.called, extra.map fun c => ⟨none, c⟩, false, m.issued⟩ :: m.threads t))
  | claimsInline (t : ThreadId) (f : Frame) (rest : List Frame) (q : Queue)
      (hstack : m.threads t = f :: rest) (hphase : f.phase = .called)
      (hclaims : m.queue.Claims m.queue.pending q) :
      Moves m (.claimInline t) ({ m with queue := q, tickets := [] }.stack t
        ({ f with phase := .claimed, claimed := true, batch := m.items ++ f.batch } :: rest))
  | refusedInline (t : ThreadId) (f : Frame) (rest : List Frame) (hstack : m.threads t = f :: rest)
      (hphase : f.phase = .called) (hexecuting : m.queue.executing = true) :
      Moves m (.claimInline t) (m.stack t ({ f with phase := .claimed } :: rest))
  | counts (t : ThreadId) (f : Frame) (rest : List Frame) (hstack : m.threads t = f :: rest)
      (hphase : f.phase = .claimed) (hbatch : f.batch ≠ []) :
      Moves m (.countInline t) ({ m with queue := m.queue.countInline f.batch.length }.stack t
        ({ f with phase := .waiting } :: rest))
  | skips (t : ThreadId) (f : Frame) (rest : List Frame) (hstack : m.threads t = f :: rest)
      (hphase : f.phase = .claimed) (hbatch : f.batch = []) :
      Moves m (.countInline t) (m.stack t ({ f with phase := .left } :: rest))
  | enters (t : ThreadId) (f : Frame) (rest : List Frame) (d : Nat)
      (hstack : m.threads t = f :: rest) (hphase : f.phase = .waiting)
      (hexec : m.exec = none ∧ d = 0 ∨ m.exec = some (t, d)) :
      Moves m (.enter t) ({ m with exec := some (t, d + 1) }.stack t ({ f with phase := .window } :: rest))
  | starts (t : ThreadId) (f : Frame) (rest : List Frame) (hstack : m.threads t = f :: rest)
      (hphase : f.phase = .window) (hbatch : f.batch ≠ []) :
      Moves m (.start t) (m.stack t ({ f with phase := .running } :: rest))
  | finishes (t : ThreadId) (threw : Bool) (f : Frame) (rest : List Frame) (i : Item)
      (tail : List Item) (hstack : m.threads t = f :: rest) (hphase : f.phase = .running)
      (hbatch : f.batch = i :: tail) :
      Moves m (.finish t threw) ({ m with queue := m.queue.countRun threw, ran := m.ran ++ [i] }.stack t
        ({ f with phase := .window, batch := tail } :: rest))
  | leaves (t u : ThreadId) (d : Nat) (f : Frame) (rest : List Frame)
      (hstack : m.threads t = f :: rest) (hphase : f.phase = .window) (hbatch : f.batch = [])
      (hexec : m.exec = some (u, d)) :
      Moves m (.leave t) ({ m with exec := if d ≤ 1 then none else some (t, d - 1) }.stack t
        ({ f with phase := .left } :: rest))
  | releases (t : ThreadId) (f : Frame) (rest : List Frame) (hstack : m.threads t = f :: rest)
      (hphase : f.phase = .left) :
      Moves m (.release t)
        ({ m with queue := if f.claimed then m.queue.releaseExecuting else m.queue }.stack t rest)
  | shuts : Moves m .shutdown { m with queue := m.queue.shutdown, tickets := [] }

private theorem callClaiming_moves {m n : Machine} {e : Event} {t : ThreadId} {kind : ClaimKind}
    {nowUs maxStaleUs : Nat} (h : m.callClaiming t kind nowUs maxStaleUs = some n) : Moves m e n := by
  unfold callClaiming at h
  split at h
  · rename_i hcall
    split at h
    · cases h
      exact .refused e
    · rename_i hclaim
      cases h
      have hclaims := Queue.claim_claims hclaim
      exact .claims e t _ hcall (hclaims.batch_eq ▸ hclaims)
  · cases h

private theorem claimInline_moves {m : Machine} {t : ThreadId} {f : Frame} {rest : List Frame}
    (hstack : m.threads t = f :: rest) (hphase : f.phase = .called) :
    Moves m (.claimInline t) (m.claimInline t f rest) := by
  unfold claimInline
  split
  · rename_i hnone
    exact .refusedInline t f rest hstack hphase (Queue.executing_of_inline_refused hnone)
  · rename_i hclaim
    have hclaims := Queue.claim_claims hclaim
    exact .claimsInline t f rest _ hstack hphase (hclaims.batch_eq ▸ hclaims)

theorem step_moves {m n : Machine} {e : Event} (h : m.step e = some n) : Moves m e n := by
  cases e with
  | push cmd now =>
    cases h
    exact .pushed _ _ _ (Queue.pushLocked_control ..) (Queue.push_pushes ..)
  | pushBatch batch now =>
    cases h
    exact .pushed _ _ _ (Queue.pushBatch_control ..) (Queue.pushBatch_pushes ..)
  | drain t => exact callClaiming_moves h
  | flushStale t now maxStale => exact callClaiming_moves h
  | runPendingThen t extra =>
    simp only [step] at h
    split at h
    · cases h
      exact .calls t extra ‹_›
    · cases h
  | claimInline t =>
    simp only [step] at h
    split at h
    · split at h
      · cases h
        exact claimInline_moves ‹_› ‹_›
      · cases h
    · cases h
  | countInline t =>
    simp only [step] at h
    split at h
    · rename_i f rest hstack
      split at h
      · cases h
      · rename_i hphase
        have hphase : f.phase = .claimed := by simpa using hphase
        split at h
        · cases h
          exact .skips t f rest hstack hphase ‹_›
        · cases h
          exact .counts t f rest hstack hphase ‹_›
    · cases h
  | enter t =>
    simp only [step] at h
    split at h
    · rename_i f rest hstack
      split at h
      · cases h
      · rename_i hphase
        have hphase : f.phase = .waiting := by simpa using hphase
        split at h
        · cases h
          exact .enters t f rest 0 hstack hphase (.inl ⟨‹_›, rfl⟩)
        · rename_i u d hexec
          split at h
          · rename_i hut
            cases h
            exact .enters t f rest d hstack hphase (.inr (hut ▸ hexec))
          · cases h
    · cases h
  | start t =>
    simp only [step] at h
    split at h
    · split at h
      · rename_i hwindow
        cases h
        exact .starts t _ _ ‹_› hwindow.1 hwindow.2
      · cases h
    · cases h
  | finish t threw =>
    simp only [step] at h
    split at h
    · split at h
      · cases h
        exact .finishes t threw _ _ _ _ ‹_› ‹_› ‹_›
      · cases h
    · cases h
  | leave t =>
    simp only [step] at h
    split at h
    · split at h
      · rename_i hwindow
        cases h
        exact .leaves t _ _ _ _ ‹_› hwindow.1 hwindow.2 ‹_›
      · cases h
    · cases h
  | release t =>
    simp only [step] at h
    split at h
    · split at h
      · cases h
        exact .releases t _ _ ‹_› ‹_›
      · cases h
    · cases h
  | shutdown =>
    cases h
    exact .shuts

/-- Only the shutdown closes the queue. -/
theorem step_open {m n : Machine} {e : Event} (h : m.queue.shuttingDown = false) (hopen : e ≠ .shutdown)
    (hstep : m.step e = some n) : n.queue.shuttingDown = false := by
  cases step_moves hstep with
  | pushed _ q results hcontrol => exact hcontrol.shuttingDown.trans h
  | claims _ t q hcall hclaims => exact hclaims.shuttingDown.trans h
  | claimsInline t f rest q hstack hphase hclaims => exact hclaims.shuttingDown.trans h
  | releases t f rest =>
    simp only [stack]
    split
    · exact h
    · exact h
  | shuts => exact absurd rfl hopen
  | _ => exact h

/-- The tickets of the records whose command has been executed. -/
def executed (m : Machine) : List Nat := m.ran.filterMap Item.ticket

end Machine
end SlsteamMoon.OwnerQueue
