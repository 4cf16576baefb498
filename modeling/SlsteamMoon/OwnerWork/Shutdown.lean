import SlsteamMoon.OwnerWork.Submit

/-! What runs after the queue's shutdown. -/
namespace SlsteamMoon.OwnerQueue

private theorem Queue.push_shuttingDown {q : Queue} (h : q.shuttingDown = true) (cmd : Command) (nowUs : Nat) :
    (q.push cmd nowUs).1.pending = q.pending := by
  rw [Queue.push, Queue.pushLocked, if_pos h]

private theorem Queue.pushBatch_shuttingDown {q : Queue} (h : q.shuttingDown = true) (batch : List Command)
    (nowUs : Nat) : (q.pushBatch batch nowUs).1.pending = q.pending := by
  rw [Queue.pushBatch, if_pos h]

namespace Machine

/-- Closed with nothing pending: work can only be finished. -/
structure Drained (m : Machine) : Prop where
  shuttingDown : m.queue.shuttingDown = true
  pending : m.queue.pending = []

/-- No claim takes anything from an empty pending set. -/
private theorem callClaiming_empty {m n : Machine} {t : ThreadId} {kind : ClaimKind} {nowUs maxStaleUs : Nat}
    (hkind : kind ≠ .inline) (hpending : m.queue.pending = [])
    (h : m.callClaiming t kind nowUs maxStaleUs = some n) : n = m := by
  have hnone : m.queue.claim kind nowUs maxStaleUs = none := by
    unfold Queue.claim
    rw [hpending]
    simp [hkind]
  unfold callClaiming at h
  rw [hnone] at h
  split at h
  · exact (Option.some.inj h).symm
  · cases h

/-- A drained queue stays drained, and with no new inline call no thread gets deeper
into the queue. -/
theorem step_drained {m n : Machine} {e : Event} (h : m.Drained) (hcall : ∀ t extra, e ≠ .runPendingThen t extra)
    (hstep : m.step e = some n) : n.Drained ∧ ∀ u, (n.threads u).length ≤ (m.threads u).length := by
  obtain ⟨hshut, hpending⟩ := h
  cases e with
  | push cmd now =>
    cases hstep
    have hcontrol := Queue.pushLocked_control m.queue cmd now
    have hkept := (Queue.push_shuttingDown hshut cmd now).trans hpending
    exact ⟨⟨hcontrol.shuttingDown.trans hshut, hkept⟩, fun _ => le_rfl⟩
  | pushBatch batch now =>
    cases hstep
    have hcontrol := Queue.pushBatch_control m.queue batch now
    have hkept := (Queue.pushBatch_shuttingDown hshut batch now).trans hpending
    exact ⟨⟨hcontrol.shuttingDown.trans hshut, hkept⟩, fun _ => le_rfl⟩
  | drain t =>
    obtain rfl := callClaiming_empty (by simp) hpending hstep
    exact ⟨⟨hshut, hpending⟩, fun _ => le_rfl⟩
  | flushStale t now maxStale =>
    obtain rfl := callClaiming_empty (by simp) hpending hstep
    exact ⟨⟨hshut, hpending⟩, fun _ => le_rfl⟩
  | runPendingThen t extra => exact absurd rfl (hcall t extra)
  | shutdown =>
    cases hstep
    have hsame : m.queue.shutdown = m.queue := by rw [Queue.shutdown, if_pos hshut]
    exact ⟨⟨hsame.symm ▸ hshut, hsame.symm ▸ hpending⟩, fun _ => le_rfl⟩
  | _ =>
    -- the top frame is replaced or popped
    grind [Drained, step, claimInline, Queue.claim, threads_stack, queue_stack, Queue.countInline, Queue.countRun,
      Queue.releaseExecuting]

end Machine
end SlsteamMoon.OwnerQueue

namespace SlsteamMoon.OwnerWork
open OwnerQueue
namespace Work

/-- Once the shutdown has come, a command starts only inside a queue call whose claim
had been made before. -/
def NothingLate (w : Work) : Event → Prop
  | .start t => ∀ count, w.begun = some count → (w.machine.threads t).length ≤ count t
  | _ => True

/-- At the shutdown no thread is between the check of submitBatch and its return, or
before the claim of an inline call. -/
def QuietShutdown (w : Work) : Event → Prop
  | .shutdown => w.machine.queue.shuttingDown = false →
      ∀ t, w.submissions t = [] ∧ ∀ f ∈ w.machine.threads t, f.phase ≠ .called
  | _ => True

/-- What a quiet shutdown leaves: an empty closed queue, no submission, and no queue
call but those begun before it. -/
structure Quiet (w : Work) : Prop where
  flag : w.machine.queue.shuttingDown = w.begun.isSome
  drained : ∀ count, w.begun = some count → w.machine.Drained
  idle : ∀ count, w.begun = some count → ∀ t, w.submissions t = []
  depth : ∀ count, w.begun = some count → ∀ t, (w.machine.threads t).length ≤ count t

private theorem quiet_start (b : Bounds) (queueEnabled : Bool) (maxStaleMs : Nat) :
    (start b queueEnabled maxStaleMs).Quiet where
  flag := rfl
  drained _ h := by cases h
  idle _ h := by cases h
  depth _ h := by cases h

theorem Quiet.alike {w x : Work} (h : w.Quiet) (halike : Alike w x) : x.Quiet where
  flag := by rw [halike.machine, halike.begun, h.flag]
  drained count hcount := halike.machine ▸ h.drained count (halike.begun ▸ hcount)
  idle count hcount t := halike.submissions t (h.idle count (halike.begun ▸ hcount) t)
  depth count hcount := halike.machine ▸ h.depth count (halike.begun ▸ hcount)

/-- Before the shutdown the bookkeeping says nothing. -/
theorem quiet_of_open {w : Work} (hopen : w.machine.queue.shuttingDown = false) (hbegun : w.begun = none) :
    w.Quiet where
  flag := by simp [hopen, hbegun]
  drained _ h := by simp [hbegun] at h
  idle _ h := by simp [hbegun] at h
  depth _ h := by simp [hbegun] at h

private theorem Quiet.begun_of_open {w : Work} (h : w.Quiet) (hopen : w.machine.queue.shuttingDown = false) :
    w.begun = none := by
  have := h.flag
  rw [hopen] at this
  simpa using this.symm

/-- A queue event other than a new inline call or the shutdown keeps the quiet. -/
theorem Quiet.advance {w : Work} {m : Machine} {q : OwnerQueue.Event} (h : w.Quiet)
    (hcall : ∀ t extra, q ≠ .runPendingThen t extra) (hopen : q ≠ .shutdown)
    (hstep : w.machine.step q = some m) : (w.advance m).Quiet := by
  cases hbegun : w.begun with
  | none =>
    have hflag : w.machine.queue.shuttingDown = false := by rw [h.flag, hbegun]; rfl
    exact quiet_of_open (Machine.step_open hflag hopen hstep) (by simp [Work.advance, hbegun])
  | some count =>
    obtain ⟨hdrained, hlength⟩ := Machine.step_drained (h.drained count hbegun) hcall hstep
    refine ⟨?_, fun _ _ => hdrained, fun _ _ => h.idle count hbegun, fun later hlater t => ?_⟩
    · rw [Work.advance]
      simp [hdrained.shuttingDown, hbegun]
    · have hdepth := h.depth count hbegun t
      have hshorter := hlength t
      simp only [Work.advance, hbegun, Option.map_some, Option.some.injEq] at hlater ⊢
      rw [← hlater]
      exact le_min (hshorter.trans hdepth) le_rfl

theorem Quiet.owing {w : Work} (h : w.Quiet) (owed : List CompatKey) : { w with owed }.Quiet :=
  ⟨h.flag, h.drained, h.idle, h.depth⟩

/-- A submission is open only before the shutdown. -/
theorem Quiet.open_of_active {w : Work} (h : w.Quiet) {t : ThreadId} {s : Submission}
    (hactive : w.active t = some s) : w.machine.queue.shuttingDown = false := by
  rw [h.flag]
  cases hbegun : w.begun with
  | none => rfl
  | some count =>
    rw [active, h.idle count hbegun t] at hactive
    cases hactive

private theorem Quiet.act {w x : Work} {q : OwnerQueue.Event} (h : w.Quiet)
    (hcall : ∀ t extra, q ≠ .runPendingThen t extra) (hopen : q ≠ .shutdown) (hact : w.act q = some x) :
    x.Quiet := by
  obtain ⟨m, hstep, rfl⟩ := Option.map_eq_some_iff.mp hact
  exact h.advance hcall hopen hstep

private theorem Quiet.requeue {w x : Work} {t : ThreadId} {app : AppId} {generation : UInt64} {attempt : UInt32}
    {now : Nat} {threw : Bool} (h : w.Quiet) (hstep : w.requeue t app generation attempt now threw = some x) :
    x.Quiet := by
  obtain ⟨owed, y, -, hpush, hfinish⟩ := requeue_acts hstep
  exact ((h.owing owed).act (by simp) (by simp) hpush).act (by simp) (by simp) hfinish

theorem step_quiet {w n : Work} {e : Event} (h : w.Quiet) (hquiet : w.QuietShutdown e)
    (hnext : w.step e = some n) : n.Quiet := by
  cases step_moves hnext with
  | keeps _ x halike => exact h.alike halike
  | submits t batch calls hopen => exact quiet_of_open hopen (h.begun_of_open hopen)
  | acts _ x q m halike hplain hstep =>
    refine (h.alike halike).advance (fun t extra hq => ?_) (fun hq => ?_) (halike.machine.symm ▸ hstep)
    · rw [hq] at hplain
      exact hplain
    · rw [hq] at hplain
      exact hplain
  | queues t now s m hactive haccepted hstep =>
    have hidle := (h.owing (s.batch.filterMap compatKey ++ w.owed)).alike
      (setSubmissions_alike _ t (w.submissions t).tail fun hnil => by rw [hnil]; rfl)
    exact hidle.advance (by simp) (by simp) hstep
  | inlines t s m hactive hstep =>
    have hopen := h.open_of_active hactive
    refine quiet_of_open (Machine.step_open hopen (by simp) hstep) ?_
    have hbegun := h.begun_of_open hopen
    simp [Work.advance, setSubmissions, hbegun]
  | returns t threw unavailable now app generation attempt x hactive howner hrunning hstep => exact h.requeue hstep
  | retries t threw unavailable now app generation attempt retry x howner hrunning hstep =>
    exact (h.owing _).requeue hstep
  | settles t threw unavailable now app generation attempt m howner hrunning hstep =>
    exact (h.owing _).advance (by simp) (by simp) hstep
  | shuts m hopen hstep =>
    cases hstep
    have hall := hquiet hopen
    have hcount : ∀ t, (w.machine.threads t).countP (fun f : Frame => f.phase ≠ OwnerQueue.Phase.called) =
        (w.machine.threads t).length := by
      intro t
      exact List.countP_eq_length.mpr fun f hf => by simpa using (hall t).2 f hf
    have hqueue : w.machine.queue.shutdown.shuttingDown = true ∧ w.machine.queue.shutdown.pending = [] := by
      simp [Queue.shutdown, hopen]
    refine ⟨by simp [Work.advance, hqueue.1], fun _ _ => ⟨hqueue.1, hqueue.2⟩, fun _ _ t => (hall t).1, ?_⟩
    intro count hcounted t
    simp only [Work.advance, Option.map_some, Option.some.injEq, hcount] at hcounted ⊢
    rw [← hcounted]
    exact (min_self _).ge

/-- In every run whose shutdown finds no thread inside submitBatch or before the claim
of an inline call, no command starts after it but in a queue call claimed before. -/
theorem nothing_starts_after_shutdown (b : Bounds) (queueEnabled : Bool) (maxStaleMs : Nat) (es : List Event)
    (hok : Runs.Meets step QuietShutdown (start b queueEnabled maxStaleMs) es) :
    Runs.Meets step NothingLate (start b queueEnabled maxStaleMs) es := by
  refine Runs.Meets.of_invariant (P := Quiet) (fun _ _ _ h he hstep => step_quiet h he hstep) ?_
    (quiet_start b queueEnabled maxStaleMs) hok
  intro w e h _
  cases e with
  | start t => exact fun count hcount => h.depth count hcount t
  | _ => trivial

/-- The owner is inside its drain when the shutdown comes, and finishes it. -/
def drainingSchedule : List Event :=
  [.latchOwnerThread 0, .submitBatch 1 [.installApp 7 0], .idleTick 1 0, .pushBatch 1 5,
    .drainOnOwnerFrame 0, .shutdown, .enter 0, .start 0]

theorem nothing_starts_after_shutdown_draining :
    (∃ n, Runs.exec step (start .default true 1500) drainingSchedule = some n) ∧
      Runs.Meets step NothingLate (start .default true 1500) drainingSchedule := by
  refine ⟨⟨_, rfl⟩, nothing_starts_after_shutdown .default true 1500 drainingSchedule ?_⟩
  refine .step rfl trivial (.step rfl trivial (.step rfl trivial (.step rfl trivial (.step rfl trivial
    (.step rfl ?_ (.step rfl trivial (.step rfl trivial trivial)))))))
  intro _ t
  match t with
  | 0 => exact ⟨rfl, by decide⟩
  | 1 => exact ⟨rfl, by decide⟩
  | n + 2 => exact ⟨rfl, fun f hf => absurd (show f ∈ ([] : List Frame) from hf) List.not_mem_nil⟩

/-- Thread 1 has passed the check when the shutdown comes; its refused push sends it to
the inline fallback, which starts the command. -/
def lateSchedule : List Event :=
  [.latchOwnerThread 0, .submitBatch 1 [.installApp 7 0], .idleTick 1 0, .shutdown, .pushBatch 1 5,
    .runInline 1, .claimInline 1, .countInline 1, .enter 1, .start 1]

theorem inline_fallback_starts_after_shutdown :
    (∃ n, Runs.exec step (start .default true 1500) lateSchedule = some n ∧
      running n.machine 1 = some (.installApp 7 0)) ∧
      ¬ Runs.Meets step NothingLate (start .default true 1500) lateSchedule := by
  refine ⟨⟨_, rfl, rfl⟩, fun h => ?_⟩
  have hstart := (Runs.meets_iff_splits ..).mp h (lateSchedule.take 9) (.start 1) [] rfl _ rfl
  exact absurd (hstart _ rfl) (by decide)

end Work
end SlsteamMoon.OwnerWork
