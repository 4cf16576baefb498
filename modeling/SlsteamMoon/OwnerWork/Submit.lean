import SlsteamMoon.OwnerQueue.Reconcile

/-! submitBatch on any number of threads over the owner queue. Each load of the owner
or of the shutdown flag and each queue section is an event of its own, so another
thread's step fits between any two of them. -/
namespace SlsteamMoon.OwnerWork
open OwnerQueue

/-- Where submitBatch has got to: past the shutdown check, past its idle tick, or
bound for runInline. -/
inductive Stage where
  | checked | ticked | inline
  deriving DecidableEq, Repr

/-- One submitBatch call, made from below the given number of queue calls. -/
structure Submission where
  batch : List Command
  depth : Nat
  stage : Stage := .checked
  deriving DecidableEq, Repr

/-- The target of an EnsureCompat command. -/
abbrev CompatKey := AppId × UInt64

/-- The switches are read once at start. The calls begun before the shutdown and the
accepted compatibility requests that the owner has not run are history. -/
structure Work where
  machine : Machine
  queueEnabled : Bool
  maxStaleMs : Nat
  owner : Option ThreadId := none
  submissions : ThreadId → List Submission := fun _ => []
  begun : Option (ThreadId → Nat) := none
  owed : List CompatKey := []

inductive Event where
  | latchOwnerThread (t : ThreadId)
  | submitBatch (t : ThreadId) (batch : List Command)
  | idleTick (t : ThreadId) (nowUs : Nat)
  | checkOwner (t : ThreadId)
  | pushBatch (t : ThreadId) (nowUs : Nat)
  | runInline (t : ThreadId)
  | drainOnOwnerFrame (t : ThreadId)
  | claimInline (t : ThreadId)
  | countInline (t : ThreadId)
  | enter (t : ThreadId)
  | start (t : ThreadId)
  | finish (t : ThreadId) (threw unavailable : Bool) (nowUs : Nat)
  | leave (t : ThreadId)
  | release (t : ThreadId)
  | shutdown
  deriving DecidableEq

def compatKey : Command → Option CompatKey
  | .ensureCompat app generation _ => some (app, generation)
  | _ => none

def submitCompatReadiness (appId : AppId) (managedGeneration : UInt64) : List Command :=
  if appId ≠ 0 then [.ensureCompat appId managedGeneration 0] else []

def kMaxPollAttempts : UInt32 := 20

def accepted : PushResult → Bool
  | .queued | .coalesced | .duplicate => true
  | .full | .shuttingDown => false

/-- The command that the thread's innermost queue call is running. -/
def running (m : Machine) (t : ThreadId) : Option Command :=
  match m.threads t with
  | f :: _ => if f.phase = .running then f.batch.head?.map Item.cmd else none
  | [] => none

namespace Work

def start (b : Bounds) (queueEnabled : Bool) (maxStaleMs : Nat) : Work :=
  { machine := .start b, queueEnabled, maxStaleMs }

/-- The submission the thread is inside of, unless a queue call it made is still open. -/
def active (w : Work) (t : ThreadId) : Option Submission :=
  match w.submissions t with
  | s :: _ => if s.depth = (w.machine.threads t).length then some s else none
  | [] => none

def mayCall (w : Work) (t : ThreadId) : Bool := w.machine.mayCall t && (w.active t).isNone

def setSubmissions (w : Work) (t : ThreadId) (calls : List Submission) : Work :=
  { w with submissions := Function.update w.submissions t calls }

/-- A call that has returned is no longer one of those begun. -/
def advance (w : Work) (m : Machine) : Work :=
  { w with
    machine := m
    begun := w.begun.map fun count t => min (count t) (m.threads t).length }

def act (w : Work) (e : OwnerQueue.Event) : Option Work := (w.machine.step e).map w.advance

/-- A step inside a queue call: no submission is open above it. -/
def proceed (w : Work) (t : ThreadId) (e : OwnerQueue.Event) : Option Work :=
  if (w.active t).isNone then w.act e else none

def atStage (w : Work) (t : ThreadId) (stage : Stage) : Work :=
  match w.submissions t with
  | s :: rest => w.setSubmissions t ({ s with stage } :: rest)
  | [] => w

/-- The guards of idleTick, then the stale flush. -/
def flushStale (w : Work) (t : ThreadId) (nowUs : Nat) : Option Work :=
  if ¬ w.queueEnabled ∨ w.maxStaleMs = 0 ∨ w.machine.queue.depthHint = 0 then some w
  else w.act (.flushStale t nowUs (w.maxStaleMs * 1000))

/-- The runner pushes a compatibility command and ends; the result is ignored. -/
def requeue (w : Work) (t : ThreadId) (app : AppId) (generation : UInt64) (attempt : UInt32)
    (nowUs : Nat) (threw : Bool) : Option Work :=
  let cmd := Command.ensureCompat app generation attempt
  let taken := accepted (w.machine.queue.push cmd nowUs).2
  ({ w with owed := if taken then (app, generation) :: w.owed else w.owed }.act (.push cmd nowUs)).bind
    fun x => x.act (.finish t threw)

/-- The end of runCommand. An EnsureCompat command off the owner puts itself back, and
on the owner it settles the request or, while no interface answers, asks again. -/
def finish (w : Work) (t : ThreadId) (threw unavailable : Bool) (nowUs : Nat) : Option Work :=
  match running w.machine t with
  | some (.ensureCompat app generation attempt) =>
    if w.owner ≠ some t then w.requeue t app generation attempt nowUs threw
    else
      let done := { w with owed := w.owed.filter (· ≠ (app, generation)) }
      if unavailable ∧ attempt + 1 < kMaxPollAttempts then
        done.requeue t app generation (attempt + 1) nowUs threw
      else done.act (.finish t threw)
  | _ => w.act (.finish t threw)

def step (w : Work) : Event → Option Work
  | .latchOwnerThread t =>
    if w.mayCall t then some { w with owner := w.owner.or (some t) } else none
  | .submitBatch t batch =>
    if w.mayCall t then
      -- an empty batch or a closed queue abandons the call
      if batch = [] ∨ w.machine.queue.shuttingDown then some w
      else some (w.setSubmissions t (⟨batch, (w.machine.threads t).length, .checked⟩ :: w.submissions t))
    else none
  | .idleTick t now =>
    match w.active t with
    | some s =>
      if s.stage = .checked ∧ w.queueEnabled then (w.atStage t .ticked).flushStale t now else none
    | none => if w.mayCall t then w.flushStale t now else none
  | .checkOwner t =>
    match w.active t with
    | some s =>
      if s.stage = .checked ∧ ¬ w.queueEnabled ∨ s.stage = .ticked ∧ (w.owner = none ∨ w.owner = some t)
      then some (w.atStage t .inline)
      else none
    | none => none
  | .pushBatch t now =>
    match w.active t with
    | some s =>
      if s.stage = .ticked ∧ w.owner ≠ none ∧ w.owner ≠ some t then
        if (w.machine.queue.pushBatch s.batch now).2.1 then
          ({ w with owed := s.batch.filterMap compatKey ++ w.owed }.setSubmissions t
            (w.submissions t).tail).act (.pushBatch s.batch now)
        else (w.atStage t .inline).act (.pushBatch s.batch now)
      else none
    | none => none
  | .runInline t =>
    match w.active t with
    | some s =>
      if s.stage = .inline then
        ({ w with owed := s.batch.filterMap compatKey ++ w.owed }.setSubmissions t
          (w.submissions t).tail).act (.runPendingThen t s.batch)
      else none
    | none => none
  | .drainOnOwnerFrame t =>
    if w.mayCall t ∧ w.owner = some t then w.act (.drain t) else none
  | .claimInline t => w.proceed t (.claimInline t)
  | .countInline t => w.proceed t (.countInline t)
  | .enter t => w.proceed t (.enter t)
  | .start t => w.proceed t (.start t)
  | .finish t threw unavailable now =>
    if (w.active t).isNone then w.finish t threw unavailable now else none
  | .leave t => w.proceed t (.leave t)
  | .release t => w.proceed t (.release t)
  | .shutdown =>
    if w.machine.queue.shuttingDown then some w
    else
      { w with begun := some fun t => (w.machine.threads t).countP fun f : Frame => f.phase ≠ OwnerQueue.Phase.called }.act .shutdown

theorem requeue_acts {w x : Work} {t : ThreadId} {app : AppId} {generation : UInt64} {attempt : UInt32}
    {nowUs : Nat} {threw : Bool} (h : w.requeue t app generation attempt nowUs threw = some x) :
    ∃ owed y, (∀ k ∈ owed, k ∈ w.owed ∨
        k = (app, generation) ∧
          accepted (w.machine.queue.push (.ensureCompat app generation attempt) nowUs).2 = true) ∧
      { w with owed }.act (.push (.ensureCompat app generation attempt) nowUs) = some y ∧
      y.act (.finish t threw) = some x := by
  unfold requeue at h
  obtain ⟨y, hpush, hfinish⟩ := Option.bind_eq_some_iff.mp h
  refine ⟨_, y, fun k hk => ?_, hpush, hfinish⟩
  split at hk
  · rename_i htaken
    rcases List.mem_cons.mp hk with rfl | hk
    · exact .inr ⟨rfl, htaken⟩
    · exact .inl hk
  · exact .inl hk

/-- The same machine and history, with no submission more. -/
structure Alike (w x : Work) : Prop where
  machine : x.machine = w.machine
  begun : x.begun = w.begun
  owed : x.owed = w.owed
  submissions : ∀ t, w.submissions t = [] → x.submissions t = []

theorem Alike.refl (w : Work) : Alike w w := ⟨rfl, rfl, rfl, fun _ h => h⟩

private theorem submissions_setSubmissions (w : Work) (t u : ThreadId) (calls : List Submission) :
    (w.setSubmissions t calls).submissions u = if u = t then calls else w.submissions u := by
  simp [setSubmissions, Function.update_apply]

theorem setSubmissions_alike (w : Work) (t : ThreadId) (calls : List Submission)
    (h : w.submissions t = [] → calls = []) : Alike w (w.setSubmissions t calls) := by
  refine ⟨rfl, rfl, rfl, fun u hu => ?_⟩
  rw [submissions_setSubmissions]
  split
  · rename_i hut
    exact h (hut ▸ hu)
  · exact hu

private theorem atStage_alike (w : Work) (t : ThreadId) (stage : Stage) : Alike w (w.atStage t stage) := by
  unfold atStage
  split
  · rename_i s rest hcalls
    exact setSubmissions_alike w t _ fun hnil => by rw [hcalls] at hnil; cases hnil
  · exact .refl w

/-- The queue events that only the other forms of a step take. -/
def Plain (w : Work) : OwnerQueue.Event → Prop
  | .runPendingThen _ _ => False
  | .finish t _ => ∀ cmd, running w.machine t = some cmd → compatKey cmd = none
  | .shutdown => False
  | _ => True

/-- The forms a step takes. -/
inductive Moves (w : Work) : Event → Work → Prop
  | keeps (e : Event) (x : Work) (halike : Alike w x) : Moves w e x
  | submits (t : ThreadId) (batch : List Command) (calls : List Submission)
      (hopen : w.machine.queue.shuttingDown = false) :
      Moves w (.submitBatch t batch) (w.setSubmissions t calls)
  | acts (e : Event) (x : Work) (q : OwnerQueue.Event) (m : Machine) (halike : Alike w x) (hplain : w.Plain q)
      (hstep : w.machine.step q = some m) : Moves w e (x.advance m)
  | queues (t : ThreadId) (now : Nat) (s : Submission) (m : Machine) (hactive : w.active t = some s)
      (haccepted : (w.machine.queue.pushBatch s.batch now).2.1 = true)
      (hstep : w.machine.step (.pushBatch s.batch now) = some m) :
      Moves w (.pushBatch t now) (({ w with owed := s.batch.filterMap compatKey ++ w.owed }.setSubmissions t
        (w.submissions t).tail).advance m)
  | inlines (t : ThreadId) (s : Submission) (m : Machine) (hactive : w.active t = some s)
      (hstep : w.machine.step (.runPendingThen t s.batch) = some m) :
      Moves w (.runInline t) (({ w with owed := s.batch.filterMap compatKey ++ w.owed }.setSubmissions t
        (w.submissions t).tail).advance m)
  | returns (t : ThreadId) (threw unavailable : Bool) (now : Nat) (app : AppId) (generation : UInt64)
      (attempt : UInt32) (x : Work) (hactive : (w.active t).isNone = true) (howner : w.owner ≠ some t)
      (hrunning : running w.machine t = some (.ensureCompat app generation attempt))
      (hstep : w.requeue t app generation attempt now threw = some x) :
      Moves w (.finish t threw unavailable now) x
  | retries (t : ThreadId) (threw unavailable : Bool) (now : Nat) (app : AppId) (generation : UInt64)
      (attempt retry : UInt32) (x : Work) (howner : w.owner = some t)
      (hrunning : running w.machine t = some (.ensureCompat app generation attempt))
      (hstep : { w with owed := w.owed.filter (· ≠ (app, generation)) }.requeue t app generation retry now threw
        = some x) :
      Moves w (.finish t threw unavailable now) x
  | settles (t : ThreadId) (threw unavailable : Bool) (now : Nat) (app : AppId) (generation : UInt64)
      (attempt : UInt32) (m : Machine) (howner : w.owner = some t)
      (hrunning : running w.machine t = some (.ensureCompat app generation attempt))
      (hstep : w.machine.step (.finish t threw) = some m) :
      Moves w (.finish t threw unavailable now)
        ({ w with owed := w.owed.filter (· ≠ (app, generation)) }.advance m)
  | shuts (m : Machine) (hopen : w.machine.queue.shuttingDown = false)
      (hstep : w.machine.step .shutdown = some m) :
      Moves w .shutdown ({ w with
        begun := some fun t => (w.machine.threads t).countP fun f : Frame => f.phase ≠ OwnerQueue.Phase.called
        }.advance m)

private theorem act_moves {w x n : Work} {e : Event} {q : OwnerQueue.Event} (halike : Alike w x)
    (h : x.act q = some n) (hplain : w.Plain q) : Moves w e n := by
  obtain ⟨m, hstep, rfl⟩ := Option.map_eq_some_iff.mp h
  rw [halike.machine] at hstep
  exact .acts e x q m halike hplain hstep

private theorem proceed_moves {w n : Work} {e : Event} {q : OwnerQueue.Event} {t : ThreadId}
    (h : w.proceed t q = some n) (hplain : w.Plain q) : Moves w e n := by
  unfold proceed at h
  split at h
  · exact act_moves (.refl w) h hplain
  · cases h

private theorem flushStale_moves {w x n : Work} {e : Event} {t : ThreadId} {now : Nat} (halike : Alike w x)
    (h : x.flushStale t now = some n) : Moves w e n := by
  unfold flushStale at h
  split at h
  · cases h
    exact .keeps e x halike
  · exact act_moves halike h trivial

private theorem finish_moves {w n : Work} {t : ThreadId} {threw unavailable : Bool} {now : Nat}
    (hactive : (w.active t).isNone = true) (h : w.finish t threw unavailable now = some n) :
    Moves w (.finish t threw unavailable now) n := by
  unfold finish at h
  split at h
  · rename_i app generation attempt hrunning
    split at h
    · exact .returns t threw unavailable now app generation attempt n hactive ‹_› hrunning h
    · rename_i howner
      have howner : w.owner = some t := by simpa using howner
      dsimp only at h
      split at h
      · exact .retries t threw unavailable now app generation attempt _ n howner hrunning h
      · obtain ⟨m, hstep, rfl⟩ := Option.map_eq_some_iff.mp h
        exact .settles t threw unavailable now app generation attempt m howner hrunning hstep
  · rename_i hother
    refine act_moves (.refl w) h fun cmd hcmd => ?_
    cases cmd with
    | ensureCompat app generation attempt => exact absurd hcmd (hother app generation attempt)
    | _ => rfl

theorem step_moves {w n : Work} {e : Event} (h : w.step e = some n) : Moves w e n := by
  cases e with
  | latchOwnerThread t =>
    simp only [step] at h
    split at h
    · cases h
      exact .keeps _ _ ⟨rfl, rfl, rfl, fun _ hu => hu⟩
    · cases h
  | submitBatch t batch =>
    simp only [step] at h
    split at h
    · split at h
      · cases h
        exact .keeps _ _ (.refl w)
      · rename_i hopen
        cases h
        exact .submits t batch _ (by simpa using fun hs => hopen (.inr hs))
    · cases h
  | idleTick t now =>
    simp only [step] at h
    split at h
    · split at h
      · exact flushStale_moves (atStage_alike w t .ticked) h
      · cases h
    · split at h
      · exact flushStale_moves (.refl w) h
      · cases h
  | checkOwner t =>
    simp only [step] at h
    split at h
    · split at h
      · cases h
        exact .keeps _ _ (atStage_alike w t .inline)
      · cases h
    · cases h
  | pushBatch t now =>
    simp only [step] at h
    split at h
    · rename_i s hactive
      split at h
      · split at h
        · rename_i haccepted
          obtain ⟨m, hstep, rfl⟩ := Option.map_eq_some_iff.mp h
          exact .queues t now s m hactive haccepted hstep
        · exact act_moves (atStage_alike w t .inline) h trivial
      · cases h
    · cases h
  | runInline t =>
    simp only [step] at h
    split at h
    · rename_i s hactive
      split at h
      · obtain ⟨m, hstep, rfl⟩ := Option.map_eq_some_iff.mp h
        exact .inlines t s m hactive hstep
      · cases h
    · cases h
  | drainOnOwnerFrame t =>
    simp only [step] at h
    split at h
    · exact act_moves (.refl w) h trivial
    · cases h
  | finish t threw unavailable now =>
    simp only [step] at h
    split at h
    · exact finish_moves ‹_› h
    · cases h
  | shutdown =>
    simp only [step] at h
    split at h
    · cases h
      exact .keeps _ _ (.refl w)
    · rename_i hopen
      obtain ⟨m, hstep, rfl⟩ := Option.map_eq_some_iff.mp h
      exact .shuts m (by simpa using hopen) hstep
  | _ => exact proceed_moves h trivial

end Work
end SlsteamMoon.OwnerWork
