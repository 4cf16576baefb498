import SlsteamMoon.OwnerQueue.Conservation

/-! Queue conservation: no record is lost or run twice, and the counters add up. -/
namespace SlsteamMoon.OwnerQueue
open Runs

/-- The machine with what was passed beside the queue, which records a shutdown dropped
and what each record held when it was last pending. -/
structure Ledger where
  machine : Machine
  passed : Nat := 0
  abandoned : List Nat := []
  content : Nat → Option Command := fun _ => none

namespace Ledger

def start (b : Bounds) : Ledger := { machine := .start b }

def contentOf (items : List Item) (older : Nat → Option Command) (k : Nat) : Option Command :=
  match items.find? fun i => i.ticket = some k with
  | some i => some i.cmd
  | none => older k

def step (l : Ledger) (e : Event) : Option Ledger :=
  (l.machine.step e).map fun next =>
    { machine := next
      passed := l.passed + l.machine.passedBy e
      abandoned := l.abandoned ++ l.machine.abandonedBy e
      content := contentOf next.items l.content }

/-- The item waits in the queue or in a batch, or has been run. -/
def Present (m : Machine) (i : Item) : Prop :=
  i ∈ m.items ∨ i ∈ m.ran ∨ ∃ u, ∃ g ∈ m.threads u, i ∈ g.batch

/-- Claims and runs balance, and every issued record is in one place, with the content
that it had when it was last pending. -/
structure Balanced (l : Ledger) : Prop where
  aligned : l.machine.tickets.length = l.machine.queue.pending.length
  closed : l.machine.queue.shuttingDown = true → l.machine.queue.pending = []
  left : ∀ u, ∀ g ∈ l.machine.threads u, g.phase = .left → g.batch = []
  pushed : l.machine.queue.stats.pushed = l.machine.issued
  abandoned : l.machine.queue.stats.abandoned = l.abandoned.length
  claims : ∃ unaccounted, Machine.Weighs Frame.unaccounted l.machine unaccounted ∧
    l.machine.queue.stats.pushed + l.passed = l.machine.queue.stats.taken + l.machine.queue.stats.abandoned +
      l.machine.queue.pending.length + unaccounted
  runs : ∃ unrun, Machine.Weighs Frame.unrun l.machine unrun ∧
    l.machine.queue.stats.ended + unrun = l.machine.queue.stats.taken
  records : ∀ k, ∃ held, Machine.Weighs (Frame.carries k) l.machine held ∧
    l.machine.tickets.count k + held + l.machine.executed.count k + l.abandoned.count k =
      (List.range l.machine.issued).count k
  contents : ∀ (i : Item) (k : Nat), i.ticket = some k → Present l.machine i → l.content k = some i.cmd

private theorem balanced_start (b : Bounds) : (start b).Balanced where
  aligned := rfl
  closed _ := rfl
  left u g hg := by cases hg
  pushed := rfl
  abandoned := rfl
  claims := ⟨0, Machine.weighs_start _ b, rfl⟩
  runs := ⟨0, Machine.weighs_start _ b, rfl⟩
  records k := ⟨0, Machine.weighs_start _ b, rfl⟩
  contents i k _ hpresent := by
    rcases hpresent with hi | hi | ⟨u, g, hg, -⟩
    · cases hi
    · cases hi
    · cases hg

section
variable {l : Ledger} {n : Machine} {passed : Nat} {dropped : List Nat}

/-- The pending records, each once under its ticket. -/
theorem carries_items {m : Machine} (h : m.tickets.length = m.queue.pending.length) (k : Nat) :
    m.items.countP (·.ticket = some k) = m.tickets.count k := by
  have htickets := congrArg (List.countP (· = some k)) (Machine.items_tickets h)
  rw [List.countP_map, List.countP_map] at htickets
  rw [List.count]
  convert htickets using 2
  · funext i
    simp
  · funext j
    simp [beq_eq_decide]

private theorem length_items {m : Machine} (h : m.tickets.length = m.queue.pending.length) :
    m.items.length = m.queue.pending.length := by
  rw [Machine.items, List.length_zipWith, h, Nat.min_self]

private theorem accounts_claims (h : l.Balanced) (hstep : Machine.Accounts l.machine passed dropped n) :
    ∃ unaccounted, Machine.Weighs Frame.unaccounted n unaccounted ∧
      n.queue.stats.pushed + (l.passed + passed) = n.queue.stats.taken + n.queue.stats.abandoned +
        n.queue.pending.length + unaccounted := by
  obtain ⟨total, hweighs, hbalance⟩ := h.claims
  cases hstep with
  | pushed q results hq =>
    refine ⟨total, hweighs, ?_⟩
    have hpushed := hq.pushed
    have htaken := hq.taken
    have habandoned := hq.abandoned
    have hpending := hq.pending
    simp only [Machine.accept]
    omega
  | refused => exact ⟨total, hweighs, hbalance⟩
  | claims t q hclaims hpushed hended habandoned htaken =>
    refine ⟨_, hweighs.called t _ rfl, ?_⟩
    simp only [Machine.queue_stack, hclaims.pending, Frame.unaccounted, List.length_nil, reduceCtorEq, if_false]
    omega
  | calls t extra =>
    refine ⟨_, hweighs.called t _ rfl, ?_⟩
    simp only [Machine.queue_stack, Frame.unaccounted, reduceCtorEq, if_false]
    omega
  | claimsInline t f rest q hstack hphase hclaims hpushed hended habandoned htaken =>
    obtain ⟨others, rfl, hnew⟩ := hweighs.retop hstack
    refine ⟨_, hnew _ _ rfl, ?_⟩
    have hlength := length_items h.aligned
    simp only [Frame.unaccounted, hphase, reduceCtorEq, if_false] at hbalance
    simp only [Machine.queue_stack, hclaims.pending, Frame.unaccounted, List.length_nil, List.length_append, if_true]
    omega
  | refusedInline t f rest hstack hphase =>
    obtain ⟨others, rfl, hnew⟩ := hweighs.retop hstack
    refine ⟨_, hnew _ _ rfl, ?_⟩
    simp only [Frame.unaccounted, hphase, reduceCtorEq, if_false] at hbalance
    simp only [Machine.queue_stack, Frame.unaccounted, if_true]
    omega
  | counts t f rest hstack hphase =>
    obtain ⟨others, rfl, hnew⟩ := hweighs.retop hstack
    refine ⟨_, hnew _ _ rfl, ?_⟩
    simp only [Frame.unaccounted, hphase, if_true, Stats.taken] at hbalance
    simp only [Machine.queue_stack, Frame.unaccounted, reduceCtorEq, if_false, Queue.countInline, Stats.taken]
    omega
  | walks t f rest phase exec hstack hwalks =>
    obtain ⟨others, rfl, hnew⟩ := hweighs.retop hstack
    refine ⟨_, hnew _ _ rfl, ?_⟩
    rw [hwalks.unaccounted]
    exact hbalance
  | finishes t threw f rest i tail hstack hphase hbatch =>
    obtain ⟨others, rfl, hnew⟩ := hweighs.retop hstack
    refine ⟨_, hnew _ _ rfl, ?_⟩
    obtain ⟨hpushed, htaken, habandoned, -, hpending⟩ := l.machine.queue.countRun_stats threw
    simp only [Frame.unaccounted, hphase, reduceCtorEq, if_false] at hbalance ⊢
    simp only [Machine.queue_stack, hpushed, htaken, habandoned, hpending]
    exact hbalance
  | releases t f rest hstack hphase =>
    obtain ⟨others, rfl, hnew⟩ := hweighs.popped hstack rfl
    refine ⟨_, hnew, ?_⟩
    simp only [Frame.unaccounted, hphase, reduceCtorEq, if_false] at hbalance
    simp only [Machine.queue_stack]
    split <;> exact hbalance
  | shuts =>
    refine ⟨total, hweighs, ?_⟩
    obtain ⟨hpushed, htaken, -, habandoned, hpending⟩ := Queue.shutdown_stats h.closed
    simp only [hpushed, htaken, habandoned, hpending, List.length_nil]
    omega

private theorem accounts_runs (h : l.Balanced) (hstep : Machine.Accounts l.machine passed dropped n) :
    ∃ unrun, Machine.Weighs Frame.unrun n unrun ∧ n.queue.stats.ended + unrun = n.queue.stats.taken := by
  obtain ⟨total, hweighs, hbalance⟩ := h.runs
  have hlength := length_items h.aligned
  cases hstep with
  | pushed q results hq =>
    refine ⟨total, hweighs, ?_⟩
    simp only [Machine.accept, hq.taken, hq.ended]
    exact hbalance
  | refused => exact ⟨total, hweighs, hbalance⟩
  | claims t q hclaims hpushed hended habandoned htaken =>
    refine ⟨_, hweighs.called t _ rfl, ?_⟩
    simp only [Machine.queue_stack, Frame.unrun, Frame.runs, true_or, decide_true, if_true]
    omega
  | calls t extra =>
    refine ⟨_, hweighs.called t _ rfl, ?_⟩
    simp only [Machine.queue_stack, Frame.unrun, Frame.runs, reduceCtorEq, or_self, decide_false, Bool.false_eq_true,
      if_false]
    exact hbalance
  | claimsInline t f rest q hstack hphase hclaims hpushed hended habandoned htaken =>
    obtain ⟨others, rfl, hnew⟩ := hweighs.retop hstack
    refine ⟨_, hnew _ _ rfl, ?_⟩
    rw [Frame.unrun_idle (by simp [Frame.runs, hphase])] at hbalance
    rw [Frame.unrun_idle (by simp [Frame.runs])]
    simp only [Machine.queue_stack]
    omega
  | refusedInline t f rest hstack hphase =>
    obtain ⟨others, rfl, hnew⟩ := hweighs.retop hstack
    refine ⟨_, hnew _ _ rfl, ?_⟩
    rw [Frame.unrun_idle (by simp [Frame.runs, hphase])] at hbalance
    rw [Frame.unrun_idle (by simp [Frame.runs])]
    exact hbalance
  | counts t f rest hstack hphase =>
    obtain ⟨others, rfl, hnew⟩ := hweighs.retop hstack
    refine ⟨_, hnew _ _ rfl, ?_⟩
    rw [Frame.unrun_idle (by simp [Frame.runs, hphase])] at hbalance
    rw [Frame.unrun_runs (by simp [Frame.runs])]
    simp only [Stats.taken, Stats.ended] at hbalance
    simp only [Machine.queue_stack, Queue.countInline, Stats.taken, Stats.ended]
    omega
  | walks t f rest phase exec hstack hwalks =>
    obtain ⟨others, rfl, hnew⟩ := hweighs.retop hstack
    refine ⟨_, hnew _ _ rfl, ?_⟩
    rw [hwalks.unrun]
    exact hbalance
  | finishes t threw f rest i tail hstack hphase hbatch =>
    obtain ⟨others, rfl, hnew⟩ := hweighs.retop hstack
    refine ⟨_, hnew _ _ rfl, ?_⟩
    obtain ⟨-, htaken, -, hended, -⟩ := l.machine.queue.countRun_stats threw
    rw [Frame.unrun_runs (by simp [Frame.runs, hphase]), hbatch, List.length_cons] at hbalance
    rw [Frame.unrun_runs (by simp [Frame.runs])]
    simp only [Machine.queue_stack]
    omega
  | releases t f rest hstack hphase =>
    obtain ⟨others, rfl, hnew⟩ := hweighs.popped hstack rfl
    refine ⟨_, hnew, ?_⟩
    rw [Frame.unrun_idle (by simp [Frame.runs, hphase])] at hbalance
    simp only [Machine.queue_stack]
    split <;> exact hbalance
  | shuts =>
    refine ⟨total, hweighs, ?_⟩
    obtain ⟨-, htaken, hended, -, -⟩ := Queue.shutdown_stats h.closed
    simp only [htaken, hended]
    exact hbalance

/-- The tickets issued so far, and those of the newly queued. -/
theorem count_issued (issued queued k : Nat) :
    (List.range (issued + queued)).count k = (List.range issued).count k + (List.range' issued queued).count k := by
  rw [← List.count_append, List.range_eq_range', List.range_eq_range', ← List.range'_append_1, Nat.zero_add]

private theorem count_ran (ran : List Item) (i : Item) (k : Nat) :
    ((ran ++ [i]).filterMap Item.ticket).count k =
      (ran.filterMap Item.ticket).count k + if i.ticket = some k then 1 else 0 := by
  rw [List.filterMap_append, List.count_append]
  cases hticket : i.ticket with
  | none => simp [hticket]
  | some j => simp [hticket, List.count_singleton]

private theorem accounts_records (h : l.Balanced) (hstep : Machine.Accounts l.machine passed dropped n) (k : Nat) :
    ∃ held, Machine.Weighs (Frame.carries k) n held ∧
      n.tickets.count k + held + n.executed.count k + (l.abandoned ++ dropped).count k =
        (List.range n.issued).count k := by
  obtain ⟨total, hweighs, hbalance⟩ := h.records k
  rw [List.count_append]
  have hitems := carries_items h.aligned k
  cases hstep with
  | pushed q results hq =>
    refine ⟨total, hweighs, ?_⟩
    simp only [Machine.accept, List.count_append, count_issued, List.count_nil]
    simp only [Machine.executed] at hbalance ⊢
    omega
  | refused => exact ⟨total, hweighs, hbalance⟩
  | claims t q hclaims hpushed hended habandoned htaken =>
    refine ⟨_, hweighs.called t _ rfl, ?_⟩
    simp only [Machine.tickets_stack, Machine.executed_stack, Machine.issued_stack, Frame.carries, List.count_nil]
    simp only [Machine.executed] at hbalance ⊢
    omega
  | calls t extra =>
    refine ⟨_, hweighs.called t _ rfl, ?_⟩
    have hextra : Frame.carries k ⟨.called, extra.map fun c => ⟨none, c⟩, false, l.machine.issued⟩ = 0 := by
      simp [Frame.carries, List.countP_map]
    rw [hextra]
    exact hbalance
  | claimsInline t f rest q hstack hphase hclaims hpushed hended habandoned htaken =>
    obtain ⟨others, rfl, hnew⟩ := hweighs.retop hstack
    refine ⟨_, hnew _ _ rfl, ?_⟩
    simp only [Machine.tickets_stack, Machine.executed_stack, Machine.issued_stack, Frame.carries, List.count_nil,
      List.countP_append]
    simp only [Machine.executed, Frame.carries] at hbalance ⊢
    omega
  | refusedInline t f rest hstack hphase =>
    obtain ⟨others, rfl, hnew⟩ := hweighs.retop hstack
    exact ⟨_, hnew _ _ rfl, hbalance⟩
  | counts t f rest hstack hphase =>
    obtain ⟨others, rfl, hnew⟩ := hweighs.retop hstack
    exact ⟨_, hnew _ _ rfl, hbalance⟩
  | walks t f rest phase exec hstack hwalks =>
    obtain ⟨others, rfl, hnew⟩ := hweighs.retop hstack
    exact ⟨_, hnew _ _ rfl, hbalance⟩
  | finishes t threw f rest i tail hstack hphase hbatch =>
    obtain ⟨others, rfl, hnew⟩ := hweighs.retop hstack
    refine ⟨_, hnew _ _ rfl, ?_⟩
    have hran := count_ran l.machine.ran i k
    simp only [Machine.executed, Frame.carries, hbatch, List.countP_cons, decide_eq_true_eq] at hbalance
    simp only [Machine.stack, Machine.executed, Frame.carries, List.count_nil]
    omega
  | releases t f rest hstack hphase =>
    obtain ⟨others, rfl, hnew⟩ := hweighs.popped hstack rfl
    refine ⟨_, hnew, ?_⟩
    have hempty : f.carries k = 0 := by simp [Frame.carries, h.left t f (by simp [hstack]) hphase]
    rw [hempty] at hbalance
    exact hbalance
  | shuts =>
    refine ⟨total, hweighs, ?_⟩
    simp only [List.count_nil]
    simp only [Machine.executed] at hbalance ⊢
    omega

private theorem present_of_batch {m : Machine} {t : ThreadId} {frames : List Frame} (hthreads : m.threads t = frames)
    {g : Frame} (hg : g ∈ frames) {i : Item} (hi : i ∈ g.batch) : Present m i :=
  .inr (.inr ⟨t, g, hthreads ▸ hg, hi⟩)

private theorem present_stack {m k : Machine} {t : ThreadId} {frames : List Frame} {i : Item}
    (hthreads : k.threads = m.threads) (hran : i ∈ k.ran → Present m i)
    (hframes : ∀ g ∈ frames, i ∈ g.batch → Present m i) (hi : Present (k.stack t frames) i) :
    i ∈ (k.stack t frames).items ∨ Present m i := by
  rcases hi with hi | hi | ⟨u, g, hg, hi⟩
  · exact .inl hi
  · exact .inr (hran hi)
  · rcases (Machine.mem_stack ..).mp hg with ⟨-, hg⟩ | ⟨-, hg⟩
    · exact .inr (hframes g hg hi)
    · exact .inr (.inr (.inr ⟨u, g, hthreads ▸ hg, hi⟩))

/-- A record of the next state was present before, or is pending there. -/
theorem accounts_present {m : Machine} (hstep : Machine.Accounts m passed dropped n) {i : Item} {k : Nat}
    (hticket : i.ticket = some k) (hi : Present n i) : i ∈ n.items ∨ Present m i := by
  have hran : i ∈ m.ran → Present m i := fun h => .inr (.inl h)
  -- a call's own frame above those of its thread
  have hcalled : ∀ (t : ThreadId) (g : Frame), (i ∈ g.batch → Present m i) →
      ∀ f ∈ g :: m.threads t, i ∈ f.batch → Present m i := by
    intro t g hg f hf hif
    rcases List.mem_cons.mp hf with rfl | hf
    · exact hg hif
    · exact present_of_batch rfl hf hif
  have hretop : ∀ (t : ThreadId) (f g : Frame) (rest : List Frame), m.threads t = f :: rest →
      (i ∈ g.batch → i ∈ m.items ∨ i ∈ f.batch) → ∀ f' ∈ g :: rest, i ∈ f'.batch → Present m i := by
    intro t f g rest hstack hg f' hf' hif
    rcases List.mem_cons.mp hf' with rfl | hf'
    · rcases hg hif with hitems | hbatch
      · exact .inl hitems
      · exact present_of_batch hstack (by simp) hbatch
    · exact present_of_batch hstack (by simp [hf']) hif
  cases hstep with
  | pushed q results hq =>
    rcases hi with hi | hi | hi
    · exact .inl hi
    · exact .inr (.inr (.inl hi))
    · exact .inr (.inr (.inr hi))
  | refused => exact .inr hi
  | claims t q => exact present_stack rfl hran (hcalled t _ .inl) hi
  | calls t extra =>
    refine present_stack rfl hran (hcalled t _ fun hmem => ?_) hi
    obtain ⟨c, -, rfl⟩ := List.mem_map.mp hmem
    cases hticket
  | claimsInline t f rest q hstack =>
    exact present_stack rfl hran (hretop t f _ rest hstack List.mem_append.mp) hi
  | refusedInline t f rest hstack => exact present_stack rfl hran (hretop t f _ rest hstack .inr) hi
  | counts t f rest hstack => exact present_stack rfl hran (hretop t f _ rest hstack .inr) hi
  | walks t f rest phase exec hstack => exact present_stack rfl hran (hretop t f _ rest hstack .inr) hi
  | finishes t threw f rest j tail hstack hphase hbatch =>
    refine present_stack rfl ?_ (hretop t f _ rest hstack fun hmem => .inr (by simp [hbatch, hmem])) hi
    intro hmem
    rcases List.mem_append.mp hmem with hmem | hmem
    · exact hran hmem
    · exact present_of_batch hstack (g := f) (by simp) (by rw [List.mem_singleton.mp hmem, hbatch]; simp)
  | releases t f rest hstack =>
    exact present_stack rfl hran (fun g hg => present_of_batch hstack (by simp [hg])) hi
  | shuts =>
    rcases hi with hi | hi | hi
    · exact .inl hi
    · exact .inr (.inr (.inl hi))
    · exact .inr (.inr (.inr hi))

/-- The rest of the balance: the tickets stay aligned, a closed queue stays empty, and
a finished call has nothing left. -/
theorem accounts_shape (h : l.Balanced) (hstep : Machine.Accounts l.machine passed dropped n) :
    n.tickets.length = n.queue.pending.length ∧ (n.queue.shuttingDown = true → n.queue.pending = []) ∧
      (∀ u, ∀ g ∈ n.threads u, g.phase = .left → g.batch = []) ∧ n.queue.stats.pushed = n.issued ∧
      n.queue.stats.abandoned = (l.abandoned ++ dropped).length := by
  have hleft := h.left
  have hdropped : l.machine.queue.stats.abandoned = (l.abandoned ++ []).length := by
    rw [List.append_nil]
    exact h.abandoned
  have hstack : ∀ (k : Machine) (t : ThreadId) (frames : List Frame), k.threads = l.machine.threads →
      (∀ g ∈ frames, g.phase = .left → g.batch = []) →
      ∀ u, ∀ g ∈ (k.stack t frames).threads u, g.phase = .left → g.batch = [] := by
    intro k t frames hk hframes u g hg
    rcases (Machine.mem_stack ..).mp hg with ⟨-, hg⟩ | ⟨-, hg⟩
    · exact hframes g hg
    · exact hleft u g (hk ▸ hg)
  have htop : ∀ (t : ThreadId) (f g : Frame) (rest : List Frame), l.machine.threads t = f :: rest →
      (g.phase = .left → g.batch = []) → ∀ f' ∈ g :: rest, f'.phase = .left → f'.batch = [] := by
    intro t f g rest hthreads hg f' hf'
    rcases List.mem_cons.mp hf' with rfl | hf'
    · exact hg
    · exact hleft t f' (by simp [hthreads, hf'])
  cases hstep with
  | pushed q results hq =>
    refine ⟨?_, ?_, hleft, ?_, hq.abandoned.trans hdropped⟩
    · simp only [Machine.accept, List.length_append, List.length_range', h.aligned, hq.pending]
    · intro hclosed
      have hold := hq.shuttingDown.symm.trans hclosed
      exact (hq.closed hold).trans (h.closed hold)
    · simp only [Machine.accept, hq.pushed, h.pushed]
  | refused => exact ⟨h.aligned, h.closed, hleft, h.pushed, hdropped⟩
  | claims t q hclaims hpushed hended habandoned =>
    refine ⟨by simp [hclaims.pending], fun _ => hclaims.pending, hstack _ t _ rfl ?_, hpushed.trans h.pushed,
      habandoned.trans hdropped⟩
    intro g hg
    rcases List.mem_cons.mp hg with rfl | hg
    · simp
    · exact hleft t g hg
  | calls t extra =>
    refine ⟨h.aligned, h.closed, hstack _ t _ rfl ?_, h.pushed, hdropped⟩
    intro g hg
    rcases List.mem_cons.mp hg with rfl | hg
    · simp
    · exact hleft t g hg
  | claimsInline t f rest q hthreads hphase hclaims hpushed hended habandoned =>
    exact ⟨by simp [hclaims.pending], fun _ => hclaims.pending,
      hstack _ t _ rfl (htop t f _ rest hthreads (by simp)), hpushed.trans h.pushed, habandoned.trans hdropped⟩
  | refusedInline t f rest hthreads =>
    exact ⟨h.aligned, h.closed, hstack _ t _ rfl (htop t f _ rest hthreads (by simp)), h.pushed, hdropped⟩
  | counts t f rest hthreads =>
    exact ⟨h.aligned, h.closed, hstack _ t _ rfl (htop t f _ rest hthreads (by simp)), h.pushed, hdropped⟩
  | walks t f rest phase exec hthreads hwalks =>
    refine ⟨h.aligned, h.closed, hstack _ t _ rfl (htop t f _ rest hthreads fun hleft => ?_), h.pushed, hdropped⟩
    exact hwalks.resolve_right fun hruns => hruns.2.2 hleft
  | finishes t threw f rest i tail hthreads =>
    obtain ⟨hpushed, -, habandoned, -, hpending⟩ := l.machine.queue.countRun_stats threw
    refine ⟨?_, ?_, hstack _ t _ rfl (htop t f _ rest hthreads (by simp)), hpushed.trans h.pushed,
      habandoned.trans hdropped⟩
    · simp only [Machine.tickets_stack, Machine.queue_stack, hpending]
      exact h.aligned
    · intro hclosed
      exact hpending.trans (h.closed hclosed)
  | releases t f rest hthreads =>
    refine ⟨?_, ?_, hstack _ t _ rfl fun g hg => hleft t g (by simp [hthreads, hg]), ?_, ?_⟩
    · simp only [Machine.queue_stack]
      split <;> exact h.aligned
    · simp only [Machine.queue_stack]
      split <;> exact h.closed
    · simp only [Machine.queue_stack]
      split <;> exact h.pushed
    · simp only [Machine.queue_stack]
      split <;> exact hdropped
  | shuts =>
    obtain ⟨hpushed, -, -, habandoned, hpending⟩ := Queue.shutdown_stats h.closed
    refine ⟨by simp [hpending], fun _ => hpending, hleft, hpushed.trans h.pushed, ?_⟩
    rw [habandoned, List.length_append, h.aligned, h.abandoned]

private theorem count_range_le (issued k : Nat) : (List.range issued).count k ≤ 1 :=
  List.nodup_iff_count_le_one.mp List.nodup_range k

private theorem eq_of_countP_le_one {α : Type*} {p : α → Bool} {xs : List α} (h : xs.countP p ≤ 1) {a b : α}
    (ha : a ∈ xs) (hb : b ∈ xs) (hpa : p a = true) (hpb : p b = true) : a = b := by
  have ha' : a ∈ xs.filter p := List.mem_filter.mpr ⟨ha, hpa⟩
  have hb' : b ∈ xs.filter p := List.mem_filter.mpr ⟨hb, hpb⟩
  rw [List.countP_eq_length_filter] at h
  match hxs : xs.filter p, ha', hb', h with
  | [c], ha', hb', _ => exact (List.mem_singleton.mp ha').trans (List.mem_singleton.mp hb').symm

/-- A record that is pending is nowhere else. -/
theorem present_unique {m : Machine} {k held gone : Nat} (halign : m.tickets.length = m.queue.pending.length)
    (hweighs : Machine.Weighs (Frame.carries k) m held)
    (hrecords : m.tickets.count k + held + m.executed.count k + gone = (List.range m.issued).count k)
    {i j : Item} (hj : j ∈ m.items) (hjk : j.ticket = some k) (hi : Present m i) (hik : i.ticket = some k) :
    i = j := by
  have hle := count_range_le m.issued k
  have hitems := carries_items halign k
  have hpos : 0 < m.items.countP (·.ticket = some k) := List.countP_pos_iff.mpr ⟨j, hj, by simpa using hjk⟩
  rcases hi with hi | hi | ⟨u, g, hg, hi⟩
  · have hone : m.items.countP (·.ticket = some k) ≤ 1 := by omega
    exact eq_of_countP_le_one hone hi hj (by simpa using hik) (by simpa using hjk)
  · have hran : k ∈ m.executed := List.mem_filterMap.mpr ⟨i, hi, hik⟩
    have hcount := List.count_pos_iff.mpr hran
    omega
  · have hcarries : 0 < g.carries k := List.countP_pos_iff.mpr ⟨i, hi, by simpa using hik⟩
    have hheld := hweighs.le hg
    omega

end

private theorem step_balanced {l next : Ledger} {e : Event} (h : l.Balanced) (hstep : l.step e = some next) :
    next.Balanced := by
  obtain ⟨n, hn, rfl⟩ := Option.map_eq_some_iff.mp hstep
  have haccounts := Machine.step_accounts hn
  obtain ⟨haligned, hclosed, hleft, hpushed, habandoned⟩ := accounts_shape h haccounts
  refine ⟨haligned, hclosed, hleft, hpushed, habandoned, accounts_claims h haccounts, accounts_runs h haccounts,
    accounts_records h haccounts, ?_⟩
  intro i k hik hi
  dsimp only [contentOf]
  split
  · rename_i j hfind
    obtain ⟨held, hweighs, hrecords⟩ := accounts_records h haccounts k
    have hjk : j.ticket = some k := by simpa using List.find?_some hfind
    rw [present_unique haligned hweighs hrecords (List.mem_of_find?_eq_some hfind) hjk hi hik]
  · rename_i hnone
    have habsent : i ∉ n.items := by
      intro hmem
      simpa [hik] using List.find?_eq_none.mp hnone i hmem
    exact h.contents i k hik ((accounts_present haccounts hik hi).resolve_left habsent)

private theorem exec_balanced {b : Bounds} {l : Ledger} {events : List Event}
    (h : exec step (start b) events = some l) : l.Balanced :=
  exec_preserves (fun _ _ _ hl hstep => step_balanced hl hstep) (balanced_start b) h

section
variable {l : Ledger} {k : Nat}

theorem Balanced.once (h : l.Balanced) (k : Nat) : (l.machine.executed ++ l.abandoned).count k ≤ 1 := by
  obtain ⟨held, -, hrecords⟩ := h.records k
  have hle := count_range_le l.machine.issued k
  rw [List.count_append]
  omega

theorem Balanced.issued (h : l.Balanced) (hk : k ∈ l.machine.executed ++ l.abandoned) : k < l.machine.issued := by
  obtain ⟨held, -, hrecords⟩ := h.records k
  have hpos := List.count_pos_iff.mpr hk
  rw [List.count_append] at hpos
  exact List.mem_range.mp (List.count_pos_iff.mp (by omega))

private theorem count_range_eq {issued : Nat} (hk : k < issued) : (List.range issued).count k = 1 :=
  List.count_eq_one_of_mem List.nodup_range (List.mem_range.mpr hk)

/-- An issued record is in one of the four places. -/
theorem Balanced.located (h : l.Balanced) (hk : k < l.machine.issued) :
    k ∈ l.machine.executed ∨ k ∈ l.abandoned ∨ k ∈ l.machine.tickets ∨ ∃ u, l.machine.Held u k := by
  obtain ⟨held, hweighs, hrecords⟩ := h.records k
  rw [count_range_eq hk] at hrecords
  by_contra hnone
  simp only [not_or, not_exists] at hnone
  obtain ⟨hran, hgone, hpending, hheld⟩ := hnone
  rw [List.count_eq_zero.mpr hran, List.count_eq_zero.mpr hgone, List.count_eq_zero.mpr hpending] at hrecords
  obtain ⟨u, g, hg, hcarries⟩ := hweighs.exists_pos (by omega)
  obtain ⟨i, hi, hik⟩ := List.countP_pos_iff.mp hcarries
  exact hheld u ⟨g, hg, i, hi, by simpa using hik⟩

/-- With nothing pending and no call under way, a record was run or dropped. -/
theorem Balanced.settled (h : l.Balanced) (hpending : l.machine.queue.pending = [])
    (hidle : ∀ u, l.machine.threads u = []) (hk : k < l.machine.issued) :
    (l.machine.executed ++ l.abandoned).count k = 1 := by
  obtain ⟨held, hweighs, hrecords⟩ := h.records k
  have hzero := hweighs.eq_zero fun u g hg => by rw [hidle u] at hg; cases hg
  have htickets : l.machine.tickets = [] := List.length_eq_zero_iff.mp (by rw [h.aligned, hpending]; rfl)
  rw [count_range_eq hk, htickets, hzero, List.count_nil] at hrecords
  rw [List.count_append]
  omega

private theorem Balanced.claims_settled (h : l.Balanced)
    (hnone : ∀ u, ∀ f ∈ l.machine.threads u, f.phase ≠ .claimed) :
    l.machine.queue.stats.pushed + l.passed =
      l.machine.queue.stats.taken + l.machine.queue.stats.abandoned + l.machine.queue.pending.length := by
  obtain ⟨unaccounted, hweighs, hclaims⟩ := h.claims
  have hzero := hweighs.eq_zero fun u g hg => by simp [Frame.unaccounted, hnone u g hg]
  rw [hzero, Nat.add_zero] at hclaims
  exact hclaims

private theorem Balanced.runs_settled (h : l.Balanced)
    (hnone : ∀ u, ∀ f ∈ l.machine.threads u, f.runs = true → f.batch = []) :
    l.machine.queue.stats.ended = l.machine.queue.stats.taken := by
  obtain ⟨unrun, hweighs, hruns⟩ := h.runs
  have hzero := hweighs.eq_zero fun u g hg => by
    rw [Frame.unrun]
    split
    · rw [hnone u g hg ‹_›]
      rfl
    · rfl
  rw [hzero, Nat.add_zero] at hruns
  exact hruns

end

/-- Every queued record is run at most once and not after it was dropped; it is pending,
in a call's batch, run with the content it last had, or counted abandoned; and the two
equations of the counters hold wherever no call is on its way through them. -/
theorem queue_conserves_records (b : Bounds) (events : List Event) (l : Ledger)
    (hrun : exec step (start b) events = some l) :
    (∀ k, (l.machine.executed ++ l.abandoned).count k ≤ 1 ∧
      (k ∈ l.machine.executed ++ l.abandoned → k < l.machine.issued)) ∧
    (∀ k < l.machine.issued, k ∈ l.machine.executed ∨ k ∈ l.abandoned ∨ k ∈ l.machine.tickets ∨
      ∃ u, l.machine.Held u k) ∧
    (l.machine.queue.pending = [] → (∀ u, l.machine.threads u = []) →
      ∀ k < l.machine.issued, (l.machine.executed ++ l.abandoned).count k = 1) ∧
    (∀ i ∈ l.machine.ran, ∀ k, i.ticket = some k → l.content k = some i.cmd) ∧
    l.machine.queue.stats.abandoned = l.abandoned.length ∧
    l.machine.queue.stats.pushed = l.machine.issued ∧
    ((∀ u, ∀ f ∈ l.machine.threads u, f.phase ≠ .claimed) →
      l.machine.queue.stats.pushed + l.passed =
        l.machine.queue.stats.drained + l.machine.queue.stats.flushedStale + l.machine.queue.stats.ranInline +
          l.machine.queue.stats.abandoned + l.machine.queue.pending.length) ∧
    ((∀ u, ∀ f ∈ l.machine.threads u, f.runs = true → f.batch = []) →
      l.machine.queue.stats.executed + l.machine.queue.stats.failed =
        l.machine.queue.stats.drained + l.machine.queue.stats.flushedStale + l.machine.queue.stats.ranInline) := by
  have h := exec_balanced hrun
  refine ⟨fun k => ⟨h.once k, h.issued⟩, fun k => h.located, fun hpending hidle k => h.settled hpending hidle, ?_,
    h.abandoned, h.pushed, h.claims_settled, h.runs_settled⟩
  intro i hi k hik
  exact h.contents i k hik (.inr (.inl hi))

/-- Two records run inline behind them an extra command, one of them throwing; a third
record is dropped by the shutdown. -/
def closingRun : List Event :=
  [.push (.installApp 5 0) 1, .push (.installApp 6 0) 2, .runPendingThen 0 [.reconcileLicenses], .claimInline 0,
    .countInline 0, .enter 0, .start 0, .finish 0 true, .start 0, .finish 0 false, .start 0, .finish 0 false,
    .leave 0, .release 0, .push (.installApp 7 0) 3, .shutdown]

theorem closing_run_conserves : ∃ l, exec step (start .default) closingRun = some l ∧
    l.machine.executed = [0, 1] ∧ l.abandoned = [2] ∧ l.passed = 1 ∧ l.machine.queue.stats.failed = 1 ∧
      (l.machine.executed ++ l.abandoned).count 2 ≤ 1 :=
  ⟨_, rfl, rfl, rfl, rfl, rfl, ((queue_conserves_records .default closingRun _ rfl).1 2).1⟩

end Ledger
end SlsteamMoon.OwnerQueue
