import Mathlib.Algebra.BigOperators.Group.Finset.Basic
import Mathlib.Algebra.GroupWithZero.Nat
import SlsteamMoon.OwnerQueue.Order

/-! What the statistics say of the records: the claims, the runs and the records
themselves balance in every reachable state, whichever threads call. -/
namespace SlsteamMoon.OwnerQueue

namespace Stats

/-- Commands taken out of the queue or passed beside it. -/
def taken (s : Stats) : Nat := s.drained + s.flushedStale + s.ranInline

/-- Commands whose runner has returned or thrown. -/
def ended (s : Stats) : Nat := s.executed + s.failed

end Stats

namespace Queue

/-- What accepted and refused pushes leave of the queue's counters. -/
structure Accepted (q : Queue) (results : List PushResult) (r : Queue) : Prop where
  pushed : r.stats.pushed = q.stats.pushed + results.count .queued
  taken : r.stats.taken = q.stats.taken
  ended : r.stats.ended = q.stats.ended
  abandoned : r.stats.abandoned = q.stats.abandoned
  pending : r.pending.length = q.pending.length + results.count .queued
  closed : q.shuttingDown = true → r.pending = q.pending
  shuttingDown : r.shuttingDown = q.shuttingDown

private theorem countPush_accepted (s : Stats) (result : PushResult) :
    (countPush s result).pushed = s.pushed + [result].count .queued ∧ (countPush s result).taken = s.taken ∧
      (countPush s result).ended = s.ended ∧ (countPush s result).abandoned = s.abandoned := by
  cases result <;> exact ⟨rfl, rfl, rfl, rfl⟩

private theorem pushLocked_accepted (q : Queue) (cmd : Command) (nowUs : Nat) :
    q.Accepted [(q.pushLocked cmd nowUs).2] (q.pushLocked cmd nowUs).1 := by
  have hlength := (push_pushes q cmd nowUs).length
  have hcontrol := (pushLocked_control q cmd nowUs).shuttingDown
  simp only [push] at hlength
  obtain ⟨hpushed, htaken, hended, habandoned⟩ := countPush_accepted q.stats (q.pushLocked cmd nowUs).2
  have hstats : (q.pushLocked cmd nowUs).1.stats = countPush q.stats (q.pushLocked cmd nowUs).2 := by
    unfold pushLocked
    split
    · rfl
    · split <;> rfl
  refine ⟨hstats ▸ hpushed, hstats ▸ htaken, hstats ▸ hended, hstats ▸ habandoned, hlength, ?_, hcontrol⟩
  intro hclosed
  unfold pushLocked
  rw [if_pos hclosed]

theorem Accepted.trans {q r s : Queue} {results more : List PushResult} (h : q.Accepted results r)
    (h' : r.Accepted more s) : q.Accepted (results ++ more) s where
  pushed := by rw [h'.pushed, h.pushed, List.count_append, Nat.add_assoc]
  taken := h'.taken.trans h.taken
  ended := h'.ended.trans h.ended
  abandoned := h'.abandoned.trans h.abandoned
  pending := by rw [h'.pending, h.pending, List.count_append, Nat.add_assoc]
  closed hclosed := (h'.closed (h.shuttingDown.trans hclosed)).trans (h.closed hclosed)
  shuttingDown := h'.shuttingDown.trans h.shuttingDown

private theorem pushAll_accepted (nowUs : Nat) (q : Queue) (batch : List Command) :
    q.Accepted (pushAll nowUs q batch).2 (pushAll nowUs q batch).1 := by
  induction batch generalizing q with
  | nil => exact ⟨rfl, rfl, rfl, rfl, rfl, fun _ => rfl, rfl⟩
  | cons cmd rest ih => exact (pushLocked_accepted q cmd nowUs).trans (ih _)

/-- A refused batch counts no record. -/
theorem refused_accepted {q r : Queue} (batch : List Command) {result : PushResult} (hresult : result ≠ .queued)
    (hpushed : r.stats.pushed = q.stats.pushed) (htaken : r.stats.taken = q.stats.taken)
    (hended : r.stats.ended = q.stats.ended) (habandoned : r.stats.abandoned = q.stats.abandoned)
    (hpending : r.pending = q.pending) (hclosed : r.shuttingDown = q.shuttingDown) :
    q.Accepted (batch.map fun _ => result) r := by
  have hnone : (batch.map fun _ => result).count .queued = 0 := by
    apply List.count_eq_zero.mpr
    intro hmem
    obtain ⟨-, -, hqueued⟩ := List.mem_map.mp hmem
    exact hresult hqueued
  exact ⟨by rw [hnone, hpushed, Nat.add_zero], htaken, hended, habandoned,
    by rw [hnone, hpending, Nat.add_zero], fun _ => hpending, hclosed⟩

private theorem pushBatch_accepted (q : Queue) (batch : List Command) (nowUs : Nat) :
    q.Accepted (q.pushBatch batch nowUs).2.2 (q.pushBatch batch nowUs).1 := by
  unfold pushBatch
  split
  · exact refused_accepted batch (by simp) rfl rfl rfl rfl rfl rfl
  · split
    · exact refused_accepted batch (by simp) rfl rfl rfl rfl rfl rfl
    · exact pushAll_accepted nowUs q batch

/-- A claim moves the whole pending set; inline it is counted later. -/
theorem claim_stats {q r : Queue} {kind : ClaimKind} {nowUs maxStaleUs : Nat} {batch : List Entry}
    (h : q.claim kind nowUs maxStaleUs = some (batch, r)) :
    r.stats.pushed = q.stats.pushed ∧ r.stats.ended = q.stats.ended ∧ r.stats.abandoned = q.stats.abandoned ∧
      r.stats.taken = q.stats.taken + if kind = .inline then 0 else q.pending.length := by
  unfold claim at h
  split at h
  · cases h
  · split at h
    · cases h
    · split at h
      · rename_i hnil
        split at h
        · obtain ⟨-, rfl⟩ := Prod.mk.inj (Option.some.inj h)
          exact ⟨rfl, rfl, rfl, by simp [hnil]⟩
        · cases h
      · split at h
        · cases h
        · obtain ⟨-, rfl⟩ := Prod.mk.inj (Option.some.inj h)
          cases kind with
          | drain => exact ⟨rfl, rfl, rfl, by simp only [countClaim, Stats.taken, reduceCtorEq, if_false]; omega⟩
          | stale => exact ⟨rfl, rfl, rfl, by simp only [countClaim, Stats.taken, reduceCtorEq, if_false]; omega⟩
          | inline => exact ⟨rfl, rfl, rfl, rfl⟩

theorem countRun_stats (q : Queue) (threw : Bool) :
    (q.countRun threw).stats.pushed = q.stats.pushed ∧ (q.countRun threw).stats.taken = q.stats.taken ∧
      (q.countRun threw).stats.abandoned = q.stats.abandoned ∧
      (q.countRun threw).stats.ended = q.stats.ended + 1 ∧ (q.countRun threw).pending = q.pending := by
  cases threw with
  | false => exact ⟨rfl, rfl, rfl, by simp only [countRun, Stats.ended, Bool.false_eq_true, if_false]; omega, rfl⟩
  | true => exact ⟨rfl, rfl, rfl, by simp only [countRun, Stats.ended, if_true]; omega, rfl⟩

/-- A closed queue has nothing left to drop. -/
theorem shutdown_stats {q : Queue} (h : q.shuttingDown = true → q.pending = []) :
    q.shutdown.stats.pushed = q.stats.pushed ∧ q.shutdown.stats.taken = q.stats.taken ∧
      q.shutdown.stats.ended = q.stats.ended ∧
      q.shutdown.stats.abandoned = q.stats.abandoned + q.pending.length ∧ q.shutdown.pending = [] := by
  unfold shutdown
  split
  · rename_i hclosed
    rw [h hclosed]
    exact ⟨rfl, rfl, rfl, rfl, rfl⟩
  · exact ⟨rfl, rfl, rfl, rfl, rfl⟩

end Queue

/-- Commands of a call that has claimed and not yet counted them. -/
def Frame.unaccounted (f : Frame) : Nat := if f.phase = .claimed then f.batch.length else 0

/-- A counted batch that is being run, or waits for the execution mutex. -/
def Frame.runs (f : Frame) : Bool := f.phase = .waiting ∨ f.phase = .window ∨ f.phase = .running

def Frame.unrun (f : Frame) : Nat := if f.runs then f.batch.length else 0

theorem Frame.unrun_runs {f : Frame} (h : f.runs = true) : f.unrun = f.batch.length := if_pos h

theorem Frame.unrun_idle {f : Frame} (h : f.runs = false) : f.unrun = 0 := if_neg (Bool.eq_false_iff.mp h)

/-- How often the frame still has the record of this ticket to run. -/
def Frame.carries (k : Nat) (f : Frame) : Nat := f.batch.countP (·.ticket = some k)

/-- A frame that walks on within its run, or with nothing to run. -/
def Frame.Walks (f : Frame) (phase : Phase) : Prop :=
  f.batch = [] ∨ f.runs = true ∧ { f with phase }.runs = true ∧ phase ≠ .left

theorem Frame.Walks.unaccounted {f : Frame} {phase : Phase} (h : f.Walks phase) :
    { f with phase }.unaccounted = f.unaccounted := by
  rcases h with hbatch | ⟨hruns, hruns', -⟩
  · simp [Frame.unaccounted, hbatch]
  · have hphase : f.phase ≠ .claimed := by
      rintro hclaimed
      simp [Frame.runs, hclaimed] at hruns
    have hphase' : phase ≠ .claimed := by
      rintro rfl
      simp [Frame.runs] at hruns'
    simp [Frame.unaccounted, hphase, hphase']

theorem Frame.Walks.unrun {f : Frame} {phase : Phase} (h : f.Walks phase) : { f with phase }.unrun = f.unrun := by
  rcases h with hbatch | ⟨hruns, hruns', -⟩
  · simp [Frame.unrun, hbatch]
  · simp [Frame.unrun, hruns, hruns']

namespace Machine

/-- What a step passes beside the queue; a call's extra commands count as passed once
the call has reached its claim. -/
def passedBy (m : Machine) : Event → Nat
  | .claimInline t => (m.threads t).head?.elim 0 fun f => f.batch.length
  | _ => 0

/-- The records that a step drops. -/
def abandonedBy (m : Machine) : Event → List Nat
  | .shutdown => m.tickets
  | _ => []

/-- The forms of a step with what it counts, passes and drops. -/
inductive Accounts (m : Machine) : Nat → List Nat → Machine → Prop
  | pushed (q : Queue) (results : List PushResult) (hq : m.queue.Accepted results q) :
      Accounts m 0 [] (m.accept q results)
  | refused : Accounts m 0 [] m
  | claims (t : ThreadId) (q : Queue) (hclaims : m.queue.Claims m.queue.pending q)
      (hpushed : q.stats.pushed = m.queue.stats.pushed) (hended : q.stats.ended = m.queue.stats.ended)
      (habandoned : q.stats.abandoned = m.queue.stats.abandoned)
      (htaken : q.stats.taken = m.queue.stats.taken + m.queue.pending.length) :
      Accounts m 0 [] ({ m with queue := q, tickets := [] }.stack t (⟨.waiting, m.items, true, 0⟩ :: m.threads t))
  | calls (t : ThreadId) (extra : List Command) :
      Accounts m 0 [] (m.stack t (⟨.called, extra.map fun c => ⟨none, c⟩, false, m.issued⟩ :: m.threads t))
  | claimsInline (t : ThreadId) (f : Frame) (rest : List Frame) (q : Queue) (hstack : m.threads t = f :: rest)
      (hphase : f.phase = .called) (hclaims : m.queue.Claims m.queue.pending q)
      (hpushed : q.stats.pushed = m.queue.stats.pushed) (hended : q.stats.ended = m.queue.stats.ended)
      (habandoned : q.stats.abandoned = m.queue.stats.abandoned) (htaken : q.stats.taken = m.queue.stats.taken) :
      Accounts m f.batch.length [] ({ m with queue := q, tickets := [] }.stack t
        ({ f with phase := .claimed, claimed := true, batch := m.items ++ f.batch } :: rest))
  | refusedInline (t : ThreadId) (f : Frame) (rest : List Frame) (hstack : m.threads t = f :: rest)
      (hphase : f.phase = .called) :
      Accounts m f.batch.length [] (m.stack t ({ f with phase := .claimed } :: rest))
  | counts (t : ThreadId) (f : Frame) (rest : List Frame) (hstack : m.threads t = f :: rest)
      (hphase : f.phase = .claimed) :
      Accounts m 0 [] ({ m with queue := m.queue.countInline f.batch.length }.stack t
        ({ f with phase := .waiting } :: rest))
  | walks (t : ThreadId) (f : Frame) (rest : List Frame) (phase : Phase) (exec : Option (ThreadId × Nat))
      (hstack : m.threads t = f :: rest)
      (hwalks : f.Walks phase) :
      Accounts m 0 [] ({ m with exec }.stack t ({ f with phase } :: rest))
  | finishes (t : ThreadId) (threw : Bool) (f : Frame) (rest : List Frame) (i : Item) (tail : List Item)
      (hstack : m.threads t = f :: rest) (hphase : f.phase = .running) (hbatch : f.batch = i :: tail) :
      Accounts m 0 [] ({ m with queue := m.queue.countRun threw, ran := m.ran ++ [i] }.stack t
        ({ f with phase := .window, batch := tail } :: rest))
  | releases (t : ThreadId) (f : Frame) (rest : List Frame) (hstack : m.threads t = f :: rest)
      (hphase : f.phase = .left) :
      Accounts m 0 []
        ({ m with queue := if f.claimed then m.queue.releaseExecuting else m.queue }.stack t rest)
  | shuts : Accounts m 0 m.tickets { m with queue := m.queue.shutdown, tickets := [] }

private theorem callClaiming_accounts {m n : Machine} {t : ThreadId} {kind : ClaimKind} {nowUs maxStaleUs : Nat}
    (hkind : kind ≠ .inline) (h : m.callClaiming t kind nowUs maxStaleUs = some n) : Accounts m 0 [] n := by
  unfold callClaiming at h
  split at h
  · split at h
    · obtain rfl := Option.some.inj h
      exact .refused
    · rename_i hclaim
      obtain rfl := Option.some.inj h
      have hclaims := Queue.claim_claims hclaim
      obtain ⟨hpushed, hended, habandoned, htaken⟩ := Queue.claim_stats hclaim
      rw [if_neg hkind] at htaken
      exact .claims t _ (hclaims.batch_eq ▸ hclaims) hpushed hended habandoned htaken
  · cases h

private theorem claimInline_accounts {m : Machine} {t : ThreadId} {f : Frame} {rest : List Frame}
    (hstack : m.threads t = f :: rest) (hphase : f.phase = .called) :
    Accounts m f.batch.length [] (m.claimInline t f rest) := by
  unfold claimInline
  split
  · exact .refusedInline t f rest hstack hphase
  · rename_i hclaim
    have hclaims := Queue.claim_claims hclaim
    obtain ⟨hpushed, hended, habandoned, htaken⟩ := Queue.claim_stats hclaim
    exact .claimsInline t f rest _ hstack hphase (hclaims.batch_eq ▸ hclaims) hpushed hended habandoned htaken

theorem step_accounts {m n : Machine} {e : Event} (h : m.step e = some n) :
    Accounts m (m.passedBy e) (m.abandonedBy e) n := by
  cases e with
  | push cmd now =>
    obtain rfl := Option.some.inj h
    exact .pushed _ _ (Queue.pushLocked_accepted ..)
  | pushBatch batch now =>
    obtain rfl := Option.some.inj h
    exact .pushed _ _ (Queue.pushBatch_accepted ..)
  | drain t => exact callClaiming_accounts (by simp) h
  | flushStale t now maxStale => exact callClaiming_accounts (by simp) h
  | runPendingThen t extra =>
    simp only [step] at h
    split at h
    · obtain rfl := Option.some.inj h
      exact .calls t extra
    · cases h
  | claimInline t =>
    simp only [step] at h
    split at h
    · rename_i f rest hstack
      split at h
      · obtain rfl := Option.some.inj h
        have hpassed : m.passedBy (.claimInline t) = f.batch.length := by simp [passedBy, hstack]
        rw [hpassed]
        exact claimInline_accounts hstack ‹_›
      · cases h
    · cases h
  | countInline t =>
    simp only [step] at h
    split at h
    · rename_i f rest hstack
      split at h
      · cases h
      · rename_i hphase
        split at h
        · rename_i hbatch
          obtain rfl := Option.some.inj h
          exact .walks t f rest .left m.exec hstack (.inl hbatch)
        · obtain rfl := Option.some.inj h
          exact .counts t f rest hstack (by simpa using hphase)
    · cases h
  | enter t =>
    simp only [step] at h
    split at h
    · rename_i f rest hstack
      split at h
      · cases h
      · rename_i hphase
        have hwalks : f.Walks .window :=
          .inr ⟨by simpa [Frame.runs] using .inl (not_not.mp hphase), by simp [Frame.runs], by simp⟩
        split at h
        · obtain rfl := Option.some.inj h
          exact .walks t f rest .window _ hstack hwalks
        · split at h
          · obtain rfl := Option.some.inj h
            exact .walks t f rest .window _ hstack hwalks
          · cases h
    · cases h
  | start t =>
    simp only [step] at h
    split at h
    · rename_i f rest hstack
      split at h
      · rename_i hwindow
        obtain rfl := Option.some.inj h
        exact .walks t f rest .running m.exec hstack
          (.inr ⟨by simp [Frame.runs, hwindow.1], by simp [Frame.runs], by simp⟩)
      · cases h
    · cases h
  | finish t threw =>
    simp only [step] at h
    split at h
    · split at h
      · obtain rfl := Option.some.inj h
        exact .finishes t threw _ _ _ _ ‹_› ‹_› ‹_›
      · cases h
    · cases h
  | leave t =>
    simp only [step] at h
    split at h
    · rename_i f rest u d hstack hexec
      split at h
      · rename_i hwindow
        obtain rfl := Option.some.inj h
        exact .walks t f rest .left _ hstack (.inl hwindow.2)
      · cases h
    · cases h
  | release t =>
    simp only [step] at h
    split at h
    · split at h
      · obtain rfl := Option.some.inj h
        exact .releases t _ _ ‹_› ‹_›
      · cases h
    · cases h
  | shutdown =>
    obtain rfl := Option.some.inj h
    exact .shuts

/-- The weights of all frames add up to the total; finitely many threads have a frame. -/
def Weighs (w : Frame → Nat) (m : Machine) (total : Nat) : Prop :=
  ∃ busy : Finset ThreadId, (∀ t ∉ busy, m.threads t = []) ∧ ∑ t ∈ busy, ((m.threads t).map w).sum = total

variable {w : Frame → Nat} {m : Machine} {total : Nat}

theorem weighs_start (w : Frame → Nat) (b : Bounds) : Weighs w (start b) 0 := ⟨∅, fun _ _ => rfl, rfl⟩

/-- One thread's frames can be replaced; the others' weight stays. -/
theorem Weighs.stack (h : Weighs w m total) (t : ThreadId) :
    ∃ others, total = others + ((m.threads t).map w).sum ∧ ∀ (k : Machine) (frames : List Frame),
      k.threads = m.threads → Weighs w (k.stack t frames) (others + (frames.map w).sum) := by
  obtain ⟨busy, hidle, rfl⟩ := h
  refine ⟨∑ u ∈ busy.erase t, ((m.threads u).map w).sum, ?_, fun k frames hk => ⟨insert t busy, ?_, ?_⟩⟩
  · by_cases ht : t ∈ busy
    · rw [Finset.sum_erase_add _ _ ht]
    · rw [Finset.erase_eq_of_notMem ht, hidle t ht]
      rfl
  · intro u hu
    rw [Finset.mem_insert, not_or] at hu
    rw [threads_stack, if_neg hu.1, hk]
    exact hidle u hu.2
  · have herase : (insert t busy).erase t = busy.erase t := by
      rw [Finset.erase_insert_eq_erase]
    rw [← Finset.sum_erase_add _ _ (Finset.mem_insert_self t busy), herase, threads_stack_self]
    congr 1
    apply Finset.sum_congr rfl
    intro u hu
    rw [threads_stack, if_neg (Finset.ne_of_mem_erase hu), hk]

theorem Weighs.called (h : Weighs w m total) {k : Machine} (t : ThreadId) (g : Frame) (hk : k.threads = m.threads) :
    Weighs w (k.stack t (g :: m.threads t)) (total + w g) := by
  obtain ⟨others, rfl, hnew⟩ := h.stack t
  have hcalled := hnew k (g :: m.threads t) hk
  rw [List.map_cons, List.sum_cons] at hcalled
  rwa [Nat.add_assoc, Nat.add_comm _ (w g)]

/-- The top frame changes; everything else keeps its weight. -/
theorem Weighs.retop (h : Weighs w m total) {t : ThreadId} {f : Frame} {rest : List Frame}
    (hstack : m.threads t = f :: rest) : ∃ others, total = others + w f ∧ ∀ (k : Machine) (g : Frame),
      k.threads = m.threads → Weighs w (k.stack t (g :: rest)) (others + w g) := by
  obtain ⟨others, rfl, hnew⟩ := h.stack t
  refine ⟨others + (rest.map w).sum, ?_, fun k g hk => ?_⟩
  · rw [hstack, List.map_cons, List.sum_cons]
    omega
  · have hretopped := hnew k (g :: rest) hk
    rw [List.map_cons, List.sum_cons] at hretopped
    rwa [Nat.add_assoc, Nat.add_comm _ (w g)]

theorem Weighs.popped (h : Weighs w m total) {k : Machine} {t : ThreadId} {f : Frame} {rest : List Frame}
    (hstack : m.threads t = f :: rest) (hk : k.threads = m.threads) :
    ∃ others, total = others + w f ∧ Weighs w (k.stack t rest) others := by
  obtain ⟨others, rfl, hnew⟩ := h.stack t
  refine ⟨others + (rest.map w).sum, ?_, hnew k rest hk⟩
  rw [hstack, List.map_cons, List.sum_cons]
  omega

theorem Weighs.le (h : Weighs w m total) {u : ThreadId} {g : Frame} (hg : g ∈ m.threads u) : w g ≤ total := by
  obtain ⟨others, rfl, -⟩ := h.stack u
  obtain ⟨above, below, hframes⟩ := List.append_of_mem hg
  rw [hframes]
  simp only [List.map_append, List.map_cons, List.sum_append, List.sum_cons]
  omega

/-- Weightless frames add up to nothing. -/
theorem Weighs.eq_zero (h : Weighs w m total) (hall : ∀ u, ∀ g ∈ m.threads u, w g = 0) : total = 0 := by
  obtain ⟨busy, -, rfl⟩ := h
  apply Finset.sum_eq_zero
  intro u _
  apply List.sum_eq_zero
  intro x hx
  obtain ⟨g, hg, rfl⟩ := List.mem_map.mp hx
  exact hall u g hg

theorem Weighs.exists_pos (h : Weighs w m total) (hpos : 0 < total) : ∃ u, ∃ g ∈ m.threads u, 0 < w g := by
  by_contra hnone
  have hzero := h.eq_zero fun u g hg => by
    by_contra hne
    exact hnone ⟨u, g, hg, Nat.pos_of_ne_zero hne⟩
  omega

end Machine
end SlsteamMoon.OwnerQueue
