import SlsteamMoon.OwnerQueue.Machine

/-! The shape of the pending set: how many records of a kind, how long their lists, in which order their
times; and the dry run of a batch against its real run. -/
namespace SlsteamMoon.OwnerQueue

/-- What two pending records may not share: the kind, and for installs and compatibility checks the target
too. -/
inductive Slot
  | injectPackage0
  | reconcileLicenses
  | installApp (appId : AppId) (library : UInt32)
  | syncPackage0
  | ensureCompat (appId : AppId) (managedGeneration : UInt64)

def Command.slot : Command → Slot
  | .injectPackage0 _ => .injectPackage0
  | .reconcileLicenses => .reconcileLicenses
  | .installApp appId library => .installApp appId library
  | .syncPackage0 _ => .syncPackage0
  | .ensureCompat appId managedGeneration _ => .ensureCompat appId managedGeneration

/-- A record of the command's own slot never lets it pass. -/
theorem slot_ne_of_passes {maxIds : Nat} {p : Entry} {cmd : Command} (h : meet maxIds p cmd = .passes) :
    p.cmd.slot ≠ cmd.slot := by
  intro hslot
  obtain ⟨pending, enqueuedUs⟩ := p
  cases pending <;> cases cmd <;> simp only [Command.slot, reduceCtorEq] at hslot
  case injectPackage0.injectPackage0 base extra =>
    simp only [meet, Command.kind, ne_eq, not_true_eq_false, if_false] at h
    split_ifs at h
  case reconcileLicenses.reconcileLicenses => cases h
  case installApp.installApp a l b m =>
    obtain ⟨rfl, rfl⟩ := Slot.installApp.inj hslot
    simp [meet, Command.kind, Command.sameWork] at h
  case syncPackage0.syncPackage0 previous next =>
    simp only [meet, Command.kind, ne_eq, not_true_eq_false, if_false] at h
    split_ifs at h
  case ensureCompat.ensureCompat a g _ b k _ =>
    obtain ⟨rfl, rfl⟩ := Slot.ensureCompat.inj hslot
    simp [meet, Command.kind, Command.sameWork] at h

private theorem Met.slot {maxIds : Nat} {p entry : Entry} {cmd : Command} {result : PushResult}
    (h : Met maxIds p cmd entry result) : entry.cmd.slot = p.cmd.slot := by
  cases h with
  | same | covered | older => rfl
  | merged base extra hp => rw [hp]; rfl
  | replaced previous next hp => rw [hp]; rfl

private theorem Met.time {maxIds : Nat} {p entry : Entry} {cmd : Command} {result : PushResult}
    (h : Met maxIds p cmd entry result) : entry.enqueuedUs = p.enqueuedUs := by
  cases h <;> rfl

/-- The results of a push that the queue takes in. -/
def PushResult.accepted : PushResult → Prop
  | .queued | .coalesced | .duplicate => True
  | .full | .shuttingDown => False

theorem Met.accepted {maxIds : Nat} {p entry : Entry} {cmd : Command} {result : PushResult}
    (h : Met maxIds p cmd entry result) : result.accepted := by
  cases h <;> trivial

theorem Accepts.accepted {b : Bounds} {cmd : Command} {nowUs : Nat} {into out : List Entry} {result : PushResult}
    (h : Accepts b cmd nowUs into out result) : result.accepted := by
  cases h with
  | appended => trivial
  | met _ _ _ _ _ _ _ hmet => exact hmet.accepted

/-- The lists of the record that takes a command in stay within the cap. -/
theorem meet_within {maxIds : Nat} {p entry : Entry} {cmd : Command} {result : PushResult}
    (h : meet maxIds p cmd = .becomes entry result) (hcmd : cmd.withinIds maxIds = true)
    (hp : p.cmd.withinIds maxIds = true) : entry.cmd.withinIds maxIds = true := by
  unfold meet at h
  split_ifs at h
  · obtain ⟨rfl, -⟩ := Meeting.becomes.inj h
    exact hp
  · split at h
    · dsimp only at h
      split_ifs at h with hlong hsame
      · obtain ⟨rfl, -⟩ := Meeting.becomes.inj h
        exact hp
      · obtain ⟨rfl, -⟩ := Meeting.becomes.inj h
        simp only [Command.withinIds, decide_eq_true_eq]
        omega
    · next next previous hprevious _ _ =>
      dsimp only at h
      split_ifs at h with hold hlong
      · obtain ⟨rfl, -⟩ := Meeting.becomes.inj h
        exact hp
      · obtain ⟨rfl, -⟩ := Meeting.becomes.inj h
        simp only [Command.withinIds, decide_eq_true_eq] at hcmd ⊢
        exact ⟨hcmd.1, hcmd.2.1, by omega, by omega⟩
    · cases h

private theorem within_of_go {b : Bounds} {cmd : Command} {nowUs : Nat} {out : List Entry} {result : PushResult}
    (hcmd : cmd.withinIds b.maxIds = true) (rest before : List Entry)
    (hrest : ∀ e ∈ rest, e.cmd.withinIds b.maxIds = true) (hbefore : ∀ e ∈ before, e.cmd.withinIds b.maxIds = true)
    (h : applyPush.go b cmd nowUs before rest = some (out, result)) : ∀ e ∈ out, e.cmd.withinIds b.maxIds = true := by
  induction rest generalizing before with
  | nil =>
    simp only [applyPush.go] at h
    split at h
    · cases h
    · obtain ⟨rfl, -⟩ := Prod.mk.inj (Option.some.inj h)
      rw [List.forall_mem_append, List.forall_mem_singleton]
      exact ⟨hbefore, hcmd⟩
  | cons p rest ih =>
    obtain ⟨hp, hrest⟩ := List.forall_mem_cons.mp hrest
    simp only [applyPush.go] at h
    split at h
    · apply ih (before ++ [p]) hrest _ h
      rw [List.forall_mem_append, List.forall_mem_singleton]
      exact ⟨hbefore, hp⟩
    · cases h
    · next entry result' hmeet =>
      obtain ⟨rfl, -⟩ := Prod.mk.inj (Option.some.inj h)
      rw [List.forall_mem_append, List.forall_mem_cons]
      exact ⟨hbefore, meet_within hmeet hcmd hp, hrest⟩

/-- A pending set within the bounds, one record for each slot. -/
structure Shaped (b : Bounds) (pending : List Entry) : Prop where
  room : pending.length ≤ b.capacity
  once : (pending.map fun e => e.cmd.slot).Nodup
  within : ∀ e ∈ pending, e.cmd.withinIds b.maxIds = true

private theorem shaped_nil (b : Bounds) : Shaped b [] := ⟨Nat.zero_le _, List.nodup_nil, List.forall_mem_nil _⟩

theorem Accepts.slots {b : Bounds} {cmd : Command} {nowUs : Nat} {into out : List Entry} {result : PushResult}
    (h : Accepts b cmd nowUs into out result) (honce : (into.map fun e => e.cmd.slot).Nodup) :
    (out.map fun e => e.cmd.slot).Nodup := by
  cases h with
  | appended hroom hpass =>
    rw [List.map_append, List.map_singleton, ← List.concat_eq_append, List.nodup_concat]
    refine ⟨fun hmem => ?_, honce⟩
    obtain ⟨p, hp, hslot⟩ := List.mem_map.mp hmem
    exact slot_ne_of_passes (hpass p hp) hslot
  | met before p entry rest result hinto hpass hmet =>
    rw [hinto, List.map_append, List.map_cons] at honce
    rw [List.map_append, List.map_cons, hmet.slot]
    exact honce

theorem Accepts.room {b : Bounds} {cmd : Command} {nowUs : Nat} {into out : List Entry} {result : PushResult}
    (h : Accepts b cmd nowUs into out result) (hroom : into.length ≤ b.capacity) : out.length ≤ b.capacity := by
  cases h with
  | appended hlt hpass =>
    rw [List.length_append, List.length_singleton]
    exact hlt
  | met before p entry rest result hinto hpass hmet =>
    rw [hinto] at hroom
    simpa using hroom

theorem Shaped.applyPush {b : Bounds} {cmd : Command} {nowUs : Nat} {into out : List Entry} {result : PushResult}
    (h : Shaped b into) (hpush : applyPush b into cmd nowUs = some (out, result)) : Shaped b out := by
  have haccepts := applyPush_accepts hpush
  refine ⟨haccepts.room h.room, haccepts.slots h.once, ?_⟩
  rw [OwnerQueue.applyPush] at hpush
  split_ifs at hpush with hcmd
  exact within_of_go hcmd into [] h.within (List.forall_mem_nil _) hpush

/-- The enqueue times, oldest first when they are in order. -/
def times (pending : List Entry) : List Nat := pending.map Entry.enqueuedUs

/-- A push adds its own time at the end or none. -/
theorem Accepts.times {b : Bounds} {cmd : Command} {nowUs : Nat} {into out : List Entry} {result : PushResult}
    (h : Accepts b cmd nowUs into out result) :
    times out = times into ∨ times out = times into ++ [nowUs] := by
  cases h with
  | appended => exact .inr (by simp [OwnerQueue.times])
  | met before p entry rest result hinto hpass hmet =>
    exact .inl (by simp [OwnerQueue.times, hinto, hmet.time])

/-- Accepted pushes of one section under the mutex, all with its time. -/
inductive Section (b : Bounds) (nowUs : Nat) : List Entry → List Entry → Prop
  | done (pending : List Entry) : Section b nowUs pending pending
  | pushed {pending next last : List Entry} {result : PushResult} (cmd : Command)
      (push : applyPush b pending cmd nowUs = some (next, result)) (rest : Section b nowUs next last) :
      Section b nowUs pending last

private theorem Section.shaped {b : Bounds} {nowUs : Nat} {pending last : List Entry} (h : Section b nowUs pending last)
    (hshaped : Shaped b pending) : Shaped b last := by
  induction h with
  | done => exact hshaped
  | pushed cmd push rest ih => exact ih (hshaped.applyPush push)

theorem Section.times {b : Bounds} {nowUs : Nat} {pending last : List Entry} (h : Section b nowUs pending last) :
    ∃ k, times last = times pending ++ List.replicate k nowUs := by
  induction h with
  | done => exact ⟨0, (List.append_nil _).symm⟩
  | pushed cmd push rest ih =>
    obtain ⟨k, hk⟩ := ih
    obtain hsame | hmore := (applyPush_accepts push).times
    · exact ⟨k, by rw [hk, hsame]⟩
    · exact ⟨k + 1, by rw [hk, hmore, List.append_assoc, List.replicate_succ, List.singleton_append]⟩

namespace Queue

private theorem pushLocked_section (q : Queue) (cmd : Command) (nowUs : Nat) {last : List Entry}
    (hrest : Section q.bounds nowUs (q.pushLocked cmd nowUs).1.pending last) :
    Section q.bounds nowUs q.pending last := by
  rw [pushLocked] at hrest
  split at hrest
  · exact hrest
  · split at hrest
    · exact hrest
    · next hpush => exact .pushed cmd hpush hrest

private theorem pushAll_section (nowUs : Nat) (q : Queue) (batch : List Command) :
    Section q.bounds nowUs q.pending (pushAll nowUs q batch).1.pending := by
  induction batch generalizing q with
  | nil => exact .done _
  | cons cmd rest ih =>
    have hrest := ih (q.pushLocked cmd nowUs).1
    rw [(pushLocked_control q cmd nowUs).bounds] at hrest
    exact pushLocked_section q cmd nowUs hrest

private theorem pushBatch_section (q : Queue) (batch : List Command) (nowUs : Nat) :
    Section q.bounds nowUs q.pending (q.pushBatch batch nowUs).1.pending := by
  rw [pushBatch]
  split_ifs
  · exact .done _
  · exact .done _
  · exact pushAll_section nowUs q batch

private theorem pushAll_eq_foldl (nowUs : Nat) (q : Queue) (batch : List Command) :
    (pushAll nowUs q batch).1 = batch.foldl (fun q cmd => (q.push cmd nowUs).1) q := by
  induction batch generalizing q with
  | nil => rfl
  | cons cmd rest ih => exact ih (q.pushLocked cmd nowUs).1

private theorem pushAll_length (nowUs : Nat) (q : Queue) (batch : List Command) :
    (pushAll nowUs q batch).2.length = batch.length := by
  induction batch generalizing q with
  | nil => rfl
  | cons cmd rest ih => exact congrArg (· + 1) (ih (q.pushLocked cmd nowUs).1)

/-- The real run meets the pending sets of the dry run, so that it accepts the same commands. -/
theorem pushAll_of_dryRun {nowUs : Nat} {q : Queue} (hopen : q.shuttingDown = false) {batch : List Command}
    (hdry : (dryRun q.bounds nowUs q.pending batch).isSome = true) :
    ∀ result ∈ (pushAll nowUs q batch).2, result.accepted := by
  induction batch generalizing q with
  | nil => exact List.forall_mem_nil _
  | cons cmd rest ih =>
    rw [dryRun] at hdry
    split at hdry
    · cases hdry
    · next next result hpush =>
      have hlocked : q.pushLocked cmd nowUs = ({ q with pending := next, stats := countPush q.stats result }, result) := by
        rw [pushLocked, hopen, hpush]
        rfl
      simp only [pushAll, hlocked]
      rw [List.forall_mem_cons]
      exact ⟨(applyPush_accepts hpush).accepted, ih hopen hdry⟩

/-- What a batch does that is refused. -/
theorem pushBatch_refused {q r : Queue} {batch : List Command} {nowUs : Nat} {results : List PushResult}
    (h : q.pushBatch batch nowUs = (r, false, results)) : r.pending = q.pending := by
  rw [pushBatch] at h
  split_ifs at h
  · obtain ⟨rfl, -⟩ := Prod.mk.inj h
    rfl
  · obtain ⟨rfl, -⟩ := Prod.mk.inj h
    rfl
  · cases (Prod.mk.inj (Prod.mk.inj h).2).1

/-- What a batch does that is taken in. -/
theorem pushBatch_taken {q r : Queue} {batch : List Command} {nowUs : Nat} {results : List PushResult}
    (h : q.pushBatch batch nowUs = (r, true, results)) :
    results.length = batch.length ∧ (∀ result ∈ results, result.accepted) ∧
      r = batch.foldl (fun q cmd => (q.push cmd nowUs).1) q := by
  rw [pushBatch] at h
  split_ifs at h with hshut hnone
  · cases (Prod.mk.inj (Prod.mk.inj h).2).1
  · cases (Prod.mk.inj (Prod.mk.inj h).2).1
  · obtain ⟨rfl, hrest⟩ := Prod.mk.inj h
    obtain ⟨-, rfl⟩ := Prod.mk.inj hrest
    have hdry : (dryRun q.bounds nowUs q.pending batch).isSome = true := by
      rw [← Option.not_isNone, eq_false_of_ne_true hnone]
      rfl
    exact ⟨pushAll_length nowUs q batch, pushAll_of_dryRun (eq_false_of_ne_true hshut) hdry,
      pushAll_eq_foldl nowUs q batch⟩

end Queue

/-- The time a caller stamps its push with. -/
def Event.pushTime : Event → Option Nat
  | .push _ nowUs | .pushBatch _ nowUs => some nowUs
  | _ => none

namespace Machine

/-- The bounds stay, and the pending set stays or is taken as a whole. -/
def Quiet (m n : Machine) : Prop :=
  n.queue.bounds = m.queue.bounds ∧ (n.queue.pending = m.queue.pending ∨ n.queue.pending = [])

private theorem quiet_same {m n : Machine} (hbounds : n.queue.bounds = m.queue.bounds)
    (hpending : n.queue.pending = m.queue.pending) : Quiet m n := ⟨hbounds, .inl hpending⟩

private theorem callClaiming_quiet {m n : Machine} {t : ThreadId} {kind : ClaimKind} {nowUs maxStaleUs : Nat}
    (h : m.callClaiming t kind nowUs maxStaleUs = some n) : Quiet m n := by
  simp only [callClaiming] at h
  split at h
  · split at h
    · obtain rfl := Option.some.inj h
      exact quiet_same rfl rfl
    · next hclaim =>
      obtain rfl := Option.some.inj h
      exact ⟨(Queue.claim_claims hclaim).bounds, .inr (Queue.claim_claims hclaim).pending⟩
  · cases h

private theorem claimInline_quiet (m : Machine) (t : ThreadId) (f : Frame) (rest : List Frame) :
    Quiet m (m.claimInline t f rest) := by
  simp only [claimInline]
  split
  · exact quiet_same rfl rfl
  · next hclaim => exact ⟨(Queue.claim_claims hclaim).bounds, .inr (Queue.claim_claims hclaim).pending⟩

/-- Only a push adds to the pending set or changes a record in it. -/
theorem step_quiet {m n : Machine} {e : Event} (hquiet : e.pushTime = none) (h : m.step e = some n) : Quiet m n := by
  cases e with
  | push cmd now => cases hquiet
  | pushBatch batch now => cases hquiet
  | drain t => exact callClaiming_quiet h
  | flushStale t now maxStale => exact callClaiming_quiet h
  | runPendingThen t extra =>
    simp only [step] at h
    split at h
    · obtain rfl := Option.some.inj h
      exact quiet_same rfl rfl
    · cases h
  | claimInline t =>
    simp only [step] at h
    split at h
    · split at h
      · obtain rfl := Option.some.inj h
        exact claimInline_quiet m t _ _
      · cases h
    · cases h
  | countInline t =>
    simp only [step] at h
    split at h
    · split at h
      · cases h
      · split at h <;> obtain rfl := Option.some.inj h <;> exact quiet_same rfl rfl
    · cases h
  | enter t =>
    simp only [step] at h
    split at h
    · split at h
      · cases h
      · split at h
        · obtain rfl := Option.some.inj h
          exact quiet_same rfl rfl
        · split at h
          · obtain rfl := Option.some.inj h
            exact quiet_same rfl rfl
          · cases h
    · cases h
  | start t =>
    simp only [step] at h
    split at h
    · split at h
      · obtain rfl := Option.some.inj h
        exact quiet_same rfl rfl
      · cases h
    · cases h
  | finish t threw =>
    simp only [step] at h
    split at h
    · split at h
      · obtain rfl := Option.some.inj h
        exact quiet_same rfl rfl
      · cases h
    · cases h
  | leave t =>
    simp only [step] at h
    split at h
    · split at h
      · obtain rfl := Option.some.inj h
        exact quiet_same rfl rfl
      · cases h
    · cases h
  | release t =>
    simp only [step] at h
    split at h
    · split at h
      · obtain rfl := Option.some.inj h
        simp only [stack]
        split <;> exact quiet_same rfl rfl
      · cases h
    · cases h
  | shutdown =>
    obtain rfl := Option.some.inj h
    simp only [Quiet, Queue.shutdown]
    split
    · exact ⟨rfl, .inl rfl⟩
    · exact ⟨rfl, .inr rfl⟩

private theorem step_pushes {m n : Machine} {e : Event} {nowUs : Nat} (htime : e.pushTime = some nowUs)
    (h : m.step e = some n) :
    n.queue.bounds = m.queue.bounds ∧ Section m.queue.bounds nowUs m.queue.pending n.queue.pending := by
  cases e with
  | push cmd now =>
    obtain rfl := Option.some.inj htime
    obtain rfl := Option.some.inj h
    exact ⟨(Queue.pushLocked_control ..).bounds, Queue.pushLocked_section _ _ _ (.done _)⟩
  | pushBatch batch now =>
    obtain rfl := Option.some.inj htime
    obtain rfl := Option.some.inj h
    exact ⟨(Queue.pushBatch_control ..).bounds, Queue.pushBatch_section ..⟩
  | _ => cases htime

private theorem step_shaped {b : Bounds} {m n : Machine} {e : Event} (h : m.queue.bounds = b ∧ Shaped b m.queue.pending)
    (hstep : m.step e = some n) : n.queue.bounds = b ∧ Shaped b n.queue.pending := by
  obtain ⟨rfl, hshaped⟩ := h
  cases htime : e.pushTime with
  | none =>
    obtain ⟨hbounds, hsame | hnil⟩ := step_quiet htime hstep
    · exact ⟨hbounds, hsame ▸ hshaped⟩
    · exact ⟨hbounds, hnil ▸ shaped_nil _⟩
  | some nowUs =>
    obtain ⟨hbounds, hsection⟩ := step_pushes htime hstep
    exact ⟨hbounds, hsection.shaped hshaped⟩

/-- The times of the pushes of a schedule, in lock order. -/
def pushTimes (es : List Event) : List Nat := es.filterMap Event.pushTime

/-- The pending times and the times still to come stay in order. -/
theorem step_times {m n : Machine} {e : Event} {es : List Event} (hstep : m.step e = some n)
    (h : (times m.queue.pending ++ pushTimes (e :: es)).Pairwise (· ≤ ·)) :
    (times n.queue.pending ++ pushTimes es).Pairwise (· ≤ ·) := by
  cases htime : e.pushTime with
  | none =>
    rw [pushTimes, List.filterMap_cons_none htime] at h
    obtain ⟨-, hsame | hnil⟩ := step_quiet htime hstep
    · rw [hsame]
      exact h
    · rw [hnil]
      exact h.sublist (List.sublist_append_right _ _)
  | some nowUs =>
    rw [pushTimes, List.filterMap_cons_some htime] at h
    obtain ⟨k, hk⟩ := (step_pushes htime hstep).2.times
    obtain ⟨hold, hlater, hbetween⟩ := List.pairwise_append.mp h
    obtain ⟨hnow, hrest⟩ := List.pairwise_cons.mp hlater
    rw [hk, List.append_assoc, List.pairwise_append, List.pairwise_append]
    refine ⟨hold, ⟨List.pairwise_replicate.mpr (.inr (Nat.le_refl _)), hrest, ?_⟩, ?_⟩
    · intro a ha c hc
      rw [List.eq_of_mem_replicate ha]
      exact hnow c hc
    · intro a ha c hc
      obtain hc | hc := List.mem_append.mp hc
      · rw [List.eq_of_mem_replicate hc]
        exact hbetween a ha nowUs List.mem_cons_self
      · exact hbetween a ha c (List.mem_cons_of_mem _ hc)

private theorem run_times {m n : Machine} {es : List Event} (hrun : Runs.exec step m es = some n)
    (h : (times m.queue.pending ++ pushTimes es).Pairwise (· ≤ ·)) : (times n.queue.pending).Pairwise (· ≤ ·) := by
  induction es generalizing m with
  | nil =>
    obtain rfl := Option.some.inj hrun
    rwa [pushTimes, List.filterMap_nil, List.append_nil] at h
  | cons e es ih =>
    obtain ⟨u, hu, hrest⟩ := Option.bind_eq_some_iff.mp hrun
    exact ih hrest (step_times hu h)

/-- On every reachable queue a batch is taken in whole or not at all, and the pending set keeps its shape:
bounded, one record for each slot, and in the order of its times when the pushes come in theirs. -/
theorem batches_keep_shape (b : Bounds) (es : List Event) (m : Machine)
    (hrun : Runs.exec step (start b) es = some m) :
    (∀ batch nowUs r results,
        (m.queue.pushBatch batch nowUs = (r, false, results) → r.pending = m.queue.pending) ∧
        (m.queue.pushBatch batch nowUs = (r, true, results) → results.length = batch.length ∧
          (∀ result ∈ results, result.accepted) ∧
          r.pending = (batch.foldl (fun q cmd => (q.push cmd nowUs).1) m.queue).pending)) ∧
      Shaped b m.queue.pending ∧
      ((pushTimes es).Pairwise (· ≤ ·) → (times m.queue.pending).Pairwise (· ≤ ·)) := by
  refine ⟨fun batch nowUs r results => ⟨Queue.pushBatch_refused, fun h => ?_⟩, ?_, fun htimes => ?_⟩
  · obtain ⟨hlength, haccepted, hfold⟩ := Queue.pushBatch_taken h
    exact ⟨hlength, haccepted, congrArg Queue.pending hfold⟩
  · have hstart : (start b).queue.bounds = b ∧ Shaped b (start b).queue.pending := ⟨rfl, shaped_nil b⟩
    exact (Runs.exec_preserves (fun _ _ _ h hstep => step_shaped h hstep) hstart hrun).2
  · exact run_times hrun htimes

/-- Two injections merge, and a later reconcile stands behind them. -/
def mergingSchedule : List Event :=
  [.push (.injectPackage0 [7]) 1, .pushBatch [.injectPackage0 [8, 7], .reconcileLicenses] 2]

theorem batches_keep_shape_merging : ∃ m, Runs.exec step (start .default) mergingSchedule = some m ∧
    m.queue.pending = [⟨.injectPackage0 [7, 8], 1⟩, ⟨.reconcileLicenses, 2⟩] ∧
    Shaped .default m.queue.pending ∧ (times m.queue.pending).Pairwise (· ≤ ·) := by
  obtain ⟨m, hrun, hpending⟩ : ∃ m, Runs.exec step (start .default) mergingSchedule = some m ∧
      m.queue.pending = [⟨.injectPackage0 [7, 8], 1⟩, ⟨.reconcileLicenses, 2⟩] := ⟨_, rfl, rfl⟩
  obtain ⟨-, hshaped, htimes⟩ := batches_keep_shape .default mergingSchedule m hrun
  exact ⟨m, hrun, hpending, hshaped, htimes (by decide)⟩

end Machine
end SlsteamMoon.OwnerQueue
