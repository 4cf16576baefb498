import Mathlib.Data.List.Dedup
import Mathlib.Data.List.Sort

/-! The owner queue's immutable commands and the two merges that coalescing uses. -/
namespace SlsteamMoon.OwnerQueue

abbrev AppId := UInt32

structure PackageSnapshot where
  generation : UInt64 := 0
  appIds : List AppId := []
  depotIds : List UInt32 := []
  metadataComplete : Bool := false
  addedAppIds : List AppId := []
  appInfoRequestIds : List AppId := []
  deriving DecidableEq, Repr

inductive Kind where
  | injectPackage0 | reconcileLicenses | installApp | syncPackage0 | ensureCompat
  deriving DecidableEq, Repr

/-- One constructor for each factory: a command carries only what its kind uses. -/
inductive Command where
  | injectPackage0 (appIds : List AppId)
  | reconcileLicenses
  | installApp (appId : AppId) (library : UInt32)
  | syncPackage0 (snapshot : PackageSnapshot)
  | ensureCompat (appId : AppId) (managedGeneration : UInt64) (attempt : UInt32)
  deriving DecidableEq, Repr

namespace Command

def kind : Command → Kind
  | .injectPackage0 _ => .injectPackage0
  | .reconcileLicenses => .reconcileLicenses
  | .installApp _ _ => .installApp
  | .syncPackage0 _ => .syncPackage0
  | .ensureCompat _ _ _ => .ensureCompat

def appIds : Command → List AppId
  | .injectPackage0 ids => ids
  | _ => []

/-- Idempotency key: the same kind addressed to the same target. An attempt
count is not part of the target. -/
def sameWork : Command → Command → Bool
  | .injectPackage0 a, .injectPackage0 b => a = b
  | .reconcileLicenses, .reconcileLicenses => true
  | .installApp a l, .installApp b m => a = b ∧ l = m
  | .syncPackage0 a, .syncPackage0 b => a = b
  | .ensureCompat a g _, .ensureCompat b h _ => a = b ∧ g = h
  | _, _ => false

theorem kind_eq_of_sameWork {a b : Command} (h : a.sameWork b = true) : a.kind = b.kind := by
  cases a <;> cases b <;> first | rfl | simp [sameWork] at h

end Command

/-- First-seen-order union of two id lists. -/
def mergeIds (base extra : List AppId) : List AppId :=
  extra.foldl (fun out id => if id ∈ out then out else out ++ [id]) base

theorem mem_mergeIds (base extra : List AppId) (id : AppId) :
    id ∈ mergeIds base extra ↔ id ∈ base ∨ id ∈ extra := by
  unfold mergeIds
  induction extra generalizing base with
  | nil => simp
  | cons x rest ih =>
    simp only [List.foldl_cons, ih, List.mem_cons]
    split
    · rename_i hx
      constructor
      · rintro (h | h) <;> simp [h]
      · rintro (h | rfl | h)
        · exact .inl h
        · exact .inl hx
        · exact .inr h
    · simp only [List.mem_append, List.mem_singleton, or_assoc]

/-- The union only appends to its base. -/
theorem mergeIds_extends (base extra : List AppId) : base <+: mergeIds base extra := by
  unfold mergeIds
  induction extra generalizing base with
  | nil => exact List.prefix_rfl
  | cons x rest ih =>
    simp only [List.foldl_cons]
    split
    · exact ih base
    · exact (List.prefix_append base [x]).trans (ih _)

/-- Nothing was appended exactly when every id was already there. -/
theorem subset_of_mergeIds_length {base extra : List AppId}
    (h : (mergeIds base extra).length = base.length) : extra ⊆ base := by
  have he := (mergeIds_extends base extra).eq_of_length h.symm
  intro id hid
  rw [he]
  exact (mem_mergeIds base extra id).mpr (.inr hid)

/-- Pending ids followed by current ones, kept where the next snapshot still
has them, sorted and without repetition. -/
def carryRelevant (nextAppIds pending current : List AppId) : List AppId :=
  (((pending ++ current).filter (· ∈ nextAppIds)).insertionSort (· ≤ ·)).destutter (· ≠ ·)

def carryPendingSnapshotWork (previous next : PackageSnapshot)
    (previousOwnershipProcessed previousAppInfoRequested : Bool) : PackageSnapshot :=
  { next with
    addedAppIds :=
      if previousOwnershipProcessed then next.addedAppIds
      else carryRelevant next.appIds previous.addedAppIds next.addedAppIds
    appInfoRequestIds :=
      if previousAppInfoRequested then next.appInfoRequestIds
      else carryRelevant next.appIds previous.appInfoRequestIds next.appInfoRequestIds }

end SlsteamMoon.OwnerQueue

/-! The sections of the queue that run under its mutex: the pushes, the claim,
the release and the shutdown, each with the statistics it keeps. -/
namespace SlsteamMoon.OwnerQueue

inductive PushResult where
  | queued | coalesced | duplicate | full | shuttingDown
  deriving DecidableEq, Repr

structure Stats where
  pushed : Nat := 0
  coalesced : Nat := 0
  duplicates : Nat := 0
  rejectedFull : Nat := 0
  rejectedShutdown : Nat := 0
  drained : Nat := 0
  flushedStale : Nat := 0
  ranInline : Nat := 0
  executed : Nat := 0
  failed : Nat := 0
  abandoned : Nat := 0
  deriving DecidableEq, Repr

structure Entry where
  cmd : Command
  enqueuedUs : Nat := 0
  deriving DecidableEq, Repr

/-- The constructor's arguments, a zero read as one. -/
structure Bounds where
  capacity : Nat
  maxIds : Nat
  capacity_pos : 0 < capacity
  maxIds_pos : 0 < maxIds

def Bounds.make (capacity maxIdsPerCommand : Nat) : Bounds where
  capacity := if capacity = 0 then 1 else capacity
  maxIds := if maxIdsPerCommand = 0 then 1 else maxIdsPerCommand
  capacity_pos := by split <;> omega
  maxIds_pos := by split <;> omega

def kDefaultCapacity : Nat := 32
def kMaxIdsPerCommand : Nat := 4096

def Bounds.default : Bounds := .make kDefaultCapacity kMaxIdsPerCommand

/-- Each list is checked on its own, before the pending set is looked at. -/
def Command.withinIds (maxIds : Nat) : Command → Bool
  | .injectPackage0 ids => ids.length ≤ maxIds
  | .syncPackage0 s =>
    s.appIds.length ≤ maxIds ∧ s.depotIds.length ≤ maxIds ∧
      s.addedAppIds.length ≤ maxIds ∧ s.appInfoRequestIds.length ≤ maxIds
  | _ => true

/-- What one pending entry does with an incoming command. -/
inductive Meeting where
  | passes
  | refuses
  | becomes (entry : Entry) (result : PushResult)
  deriving DecidableEq

/-- The loop body of applyPush. A replacement keeps the original enqueue time. -/
def meet (maxIds : Nat) (pending : Entry) (cmd : Command) : Meeting :=
  if pending.cmd.kind ≠ cmd.kind then .passes
  else if pending.cmd.sameWork cmd then .becomes pending .duplicate
  else match cmd, pending.cmd with
    | .injectPackage0 extra, .injectPackage0 base =>
      let merged := mergeIds base extra
      if maxIds < merged.length then .refuses
      else if merged.length = base.length then .becomes pending .duplicate
      else .becomes ⟨.injectPackage0 merged, pending.enqueuedUs⟩ .coalesced
    | .syncPackage0 next, .syncPackage0 previous =>
      if next.generation ≤ previous.generation then .becomes pending .duplicate
      else
        let replacement := carryPendingSnapshotWork previous next false false
        if maxIds < replacement.addedAppIds.length ∨ maxIds < replacement.appInfoRequestIds.length
        then .refuses
        else .becomes ⟨.syncPackage0 replacement, pending.enqueuedUs⟩ .coalesced
    | _, _ => .passes

/-- The first entry that does not pass decides; with none the command is
appended when there is room. -/
def applyPush (b : Bounds) (into : List Entry) (cmd : Command) (nowUs : Nat) :
    Option (List Entry × PushResult) :=
  if cmd.withinIds b.maxIds then go [] into else none
where
  go (before : List Entry) : List Entry → Option (List Entry × PushResult)
    | [] =>
      if b.capacity ≤ before.length then none
      else some (before ++ [⟨cmd, nowUs⟩], .queued)
    | pending :: rest =>
      match meet b.maxIds pending cmd with
      | .passes => go (before ++ [pending]) rest
      | .refuses => none
      | .becomes entry result => some (before ++ entry :: rest, result)

/-- How an entry meets a command of its kind when the push is accepted there. -/
inductive Met (maxIds : Nat) (p : Entry) (cmd : Command) : Entry → PushResult → Prop
  | same (hsame : p.cmd.sameWork cmd = true) : Met maxIds p cmd p .duplicate
  | covered (base extra : List AppId) (hp : p.cmd = .injectPackage0 base)
      (hcmd : cmd = .injectPackage0 extra) (hsub : extra ⊆ base) : Met maxIds p cmd p .duplicate
  | merged (base extra : List AppId) (hp : p.cmd = .injectPackage0 base)
      (hcmd : cmd = .injectPackage0 extra) (hfits : (mergeIds base extra).length ≤ maxIds) :
      Met maxIds p cmd ⟨.injectPackage0 (mergeIds base extra), p.enqueuedUs⟩ .coalesced
  | older (previous next : PackageSnapshot) (hp : p.cmd = .syncPackage0 previous)
      (hcmd : cmd = .syncPackage0 next) (hold : next.generation ≤ previous.generation) :
      Met maxIds p cmd p .duplicate
  | replaced (previous next : PackageSnapshot) (hp : p.cmd = .syncPackage0 previous)
      (hcmd : cmd = .syncPackage0 next) (hnew : previous.generation < next.generation) :
      Met maxIds p cmd
        ⟨.syncPackage0 (carryPendingSnapshotWork previous next false false), p.enqueuedUs⟩ .coalesced

private theorem meet_met {maxIds : Nat} {p entry : Entry} {cmd : Command} {result : PushResult}
    (h : meet maxIds p cmd = .becomes entry result) : Met maxIds p cmd entry result := by
  unfold meet at h
  split at h
  · cases h
  · split at h
    · obtain ⟨rfl, rfl⟩ := Meeting.becomes.inj h
      exact .same ‹_›
    · split at h
      · rename_i hbase _ _
        dsimp only at h
        split at h
        · cases h
        · rename_i hfits
          split at h
          · rename_i hlen
            obtain ⟨rfl, rfl⟩ := Meeting.becomes.inj h
            exact .covered _ _ hbase rfl (subset_of_mergeIds_length hlen)
          · obtain ⟨rfl, rfl⟩ := Meeting.becomes.inj h
            exact .merged _ _ hbase rfl (by omega)
      · rename_i hprevious _ _
        split at h
        · obtain ⟨rfl, rfl⟩ := Meeting.becomes.inj h
          exact .older _ _ hprevious rfl ‹_›
        · rename_i hnew
          dsimp only at h
          split at h
          · cases h
          · obtain ⟨rfl, rfl⟩ := Meeting.becomes.inj h
            exact .replaced _ _ hprevious rfl (by simpa using hnew)
      · cases h

/-- A met entry is never reported as queued. -/
theorem Met.not_queued {maxIds : Nat} {p entry : Entry} {cmd : Command} {result : PushResult}
    (h : Met maxIds p cmd entry result) : result ≠ .queued := by
  cases h <;> simp

/-- What an accepted command does to the pending set: it is appended, or the first
entry that does not pass is replaced in its place. -/
inductive Accepts (b : Bounds) (cmd : Command) (nowUs : Nat) (into : List Entry) :
    List Entry → PushResult → Prop
  | appended (hroom : into.length < b.capacity)
      (hpass : ∀ p ∈ into, meet b.maxIds p cmd = .passes) :
      Accepts b cmd nowUs into (into ++ [⟨cmd, nowUs⟩]) .queued
  | met (before : List Entry) (p entry : Entry) (rest : List Entry) (result : PushResult)
      (hinto : into = before ++ p :: rest)
      (hpass : ∀ q ∈ before, meet b.maxIds q cmd = .passes)
      (hmet : Met b.maxIds p cmd entry result) :
      Accepts b cmd nowUs into (before ++ entry :: rest) result

private theorem accepts_of_go {b : Bounds} {cmd : Command} {nowUs : Nat} {out : List Entry}
    {result : PushResult} (rest before : List Entry)
    (hpass : ∀ q ∈ before, meet b.maxIds q cmd = .passes)
    (h : applyPush.go b cmd nowUs before rest = some (out, result)) :
    Accepts b cmd nowUs (before ++ rest) out result := by
  induction rest generalizing before with
  | nil =>
    simp only [applyPush.go] at h
    split at h
    · cases h
    · rename_i hroom
      obtain ⟨rfl, rfl⟩ := Prod.mk.inj (Option.some.inj h)
      rw [List.append_nil]
      exact .appended (by omega) hpass
  | cons p rest ih =>
    simp only [applyPush.go] at h
    split at h
    · rename_i hp
      have hpass' : ∀ q ∈ before ++ [p], meet b.maxIds q cmd = .passes := by
        intro q hq
        rcases List.mem_append.mp hq with hq | hq
        · exact hpass q hq
        · rw [List.mem_singleton.mp hq, hp]
      simpa using ih (before ++ [p]) hpass' h
    · cases h
    · rename_i entry result' hp
      obtain ⟨rfl, rfl⟩ := Prod.mk.inj (Option.some.inj h)
      exact .met before p entry rest _ rfl hpass (meet_met hp)

theorem applyPush_accepts {b : Bounds} {into out : List Entry} {cmd : Command} {nowUs : Nat}
    {result : PushResult} (h : applyPush b into cmd nowUs = some (out, result)) :
    Accepts b cmd nowUs into out result := by
  unfold applyPush at h
  split at h
  · simpa using accepts_of_go into [] (by simp) h
  · cases h

/-- Only a queued command makes the pending set longer. -/
theorem Accepts.length {b : Bounds} {cmd : Command} {nowUs : Nat} {into out : List Entry}
    {result : PushResult} (h : Accepts b cmd nowUs into out result) :
    out.length = into.length + [result].count .queued := by
  cases h with
  | appended => simp
  | met before p entry rest result hinto hpass hmet =>
    rw [List.count_singleton, beq_false_of_ne hmet.not_queued]
    simp [hinto]

inductive ClaimKind where
  | drain | stale | inline
  deriving DecidableEq, Repr

structure Queue where
  bounds : Bounds
  pending : List Entry := []
  stats : Stats := {}
  executing : Bool := false
  shuttingDown : Bool := false

namespace Queue

/-- The lock-free hint equals the depth at the end of every section that changes it. -/
def depthHint (q : Queue) : Nat := q.pending.length

def countPush (s : Stats) : PushResult → Stats
  | .queued => { s with pushed := s.pushed + 1 }
  | .coalesced => { s with coalesced := s.coalesced + 1 }
  | .duplicate => { s with duplicates := s.duplicates + 1 }
  | .full => { s with rejectedFull := s.rejectedFull + 1 }
  | .shuttingDown => { s with rejectedShutdown := s.rejectedShutdown + 1 }

def pushLocked (q : Queue) (cmd : Command) (nowUs : Nat) : Queue × PushResult :=
  if q.shuttingDown then ({ q with stats := countPush q.stats .shuttingDown }, .shuttingDown)
  else match applyPush q.bounds q.pending cmd nowUs with
    | none => ({ q with stats := countPush q.stats .full }, .full)
    | some (pending, result) => ({ q with pending, stats := countPush q.stats result }, result)

def push (q : Queue) (cmd : Command) (nowUs : Nat) : Queue × PushResult := q.pushLocked cmd nowUs

/-- The dry run over a scratch copy. -/
def dryRun (b : Bounds) (nowUs : Nat) : List Entry → List Command → Option (List Entry)
  | scratch, [] => some scratch
  | scratch, cmd :: rest =>
    match applyPush b scratch cmd nowUs with
    | none => none
    | some (next, _) => dryRun b nowUs next rest

def pushAll (nowUs : Nat) : Queue → List Command → Queue × List PushResult
  | q, [] => (q, [])
  | q, cmd :: rest =>
    let (next, result) := q.pushLocked cmd nowUs
    let (last, results) := pushAll nowUs next rest
    (last, result :: results)

/-- All-or-nothing enqueue of an ordered batch, with the per-command results. -/
def pushBatch (q : Queue) (batch : List Command) (nowUs : Nat) : Queue × Bool × List PushResult :=
  if q.shuttingDown then
    ({ q with stats := { q.stats with rejectedShutdown := q.stats.rejectedShutdown + batch.length } },
      false, batch.map fun _ => .shuttingDown)
  else if (dryRun q.bounds nowUs q.pending batch).isNone then
    ({ q with stats := { q.stats with rejectedFull := q.stats.rejectedFull + batch.length } },
      false, batch.map fun _ => .full)
  else
    let (last, results) := pushAll nowUs q batch
    (last, true, results)

/-- What a section of pushes leaves of the queue: the pending set changes by accepted
commands only, and nothing but the statistics changes beside it. -/
inductive Pushes (b : Bounds) : List Entry → List PushResult → List Entry → Prop
  | done (pending : List Entry) : Pushes b pending [] pending
  | refused {pending last : List Entry} {results : List PushResult} (result : PushResult)
      (hresult : result ≠ .queued) (hrest : Pushes b pending results last) :
      Pushes b pending (result :: results) last
  | accepted {pending next last : List Entry} {results : List PushResult} (cmd : Command)
      (nowUs : Nat) (result : PushResult) (hnext : Accepts b cmd nowUs pending next result)
      (hrest : Pushes b next results last) : Pushes b pending (result :: results) last

theorem Pushes.length {b : Bounds} {pending last : List Entry} {results : List PushResult}
    (h : Pushes b pending results last) :
    last.length = pending.length + results.count .queued := by
  induction h with
  | done => simp
  | refused result hresult _ ih => rw [ih, List.count_cons_of_ne hresult]
  | accepted cmd nowUs result hnext _ ih =>
    rw [ih, hnext.length]
    simp only [List.count_cons, List.count_nil]
    omega

/-- The fields that no push touches. -/
structure SameControl (q r : Queue) : Prop where
  bounds : r.bounds = q.bounds
  executing : r.executing = q.executing
  shuttingDown : r.shuttingDown = q.shuttingDown

theorem SameControl.trans {q r s : Queue} (h : SameControl q r) (h' : SameControl r s) :
    SameControl q s :=
  ⟨h'.bounds.trans h.bounds, h'.executing.trans h.executing, h'.shuttingDown.trans h.shuttingDown⟩

theorem pushLocked_control (q : Queue) (cmd : Command) (nowUs : Nat) :
    SameControl q (q.pushLocked cmd nowUs).1 := by
  unfold pushLocked
  split
  · exact ⟨rfl, rfl, rfl⟩
  · split <;> exact ⟨rfl, rfl, rfl⟩

private theorem pushAll_control (nowUs : Nat) (q : Queue) (batch : List Command) :
    SameControl q (pushAll nowUs q batch).1 := by
  induction batch generalizing q with
  | nil => exact ⟨rfl, rfl, rfl⟩
  | cons cmd rest ih => exact (pushLocked_control q cmd nowUs).trans (ih _)

theorem pushBatch_control (q : Queue) (batch : List Command) (nowUs : Nat) :
    SameControl q (q.pushBatch batch nowUs).1 := by
  unfold pushBatch
  split
  · exact ⟨rfl, rfl, rfl⟩
  · split
    · exact ⟨rfl, rfl, rfl⟩
    · exact pushAll_control nowUs q batch

private theorem pushLocked_pushes {b : Bounds} {q : Queue} {cmd : Command} {nowUs : Nat} {last : List Entry}
    {results : List PushResult} (hb : q.bounds = b)
    (hrest : Pushes b (q.pushLocked cmd nowUs).1.pending results last) :
    Pushes b q.pending ((q.pushLocked cmd nowUs).2 :: results) last := by
  subst hb
  unfold pushLocked at hrest ⊢
  split
  · rename_i hs
    rw [if_pos hs] at hrest
    exact .refused _ (by simp) hrest
  · rename_i hs
    rw [if_neg hs] at hrest
    split
    · rename_i hnone
      rw [hnone] at hrest
      exact .refused _ (by simp) hrest
    · rename_i out result hsome
      rw [hsome] at hrest
      exact .accepted cmd nowUs result (applyPush_accepts hsome) hrest

theorem push_pushes (q : Queue) (cmd : Command) (nowUs : Nat) :
    Pushes q.bounds q.pending [(q.push cmd nowUs).2] (q.push cmd nowUs).1.pending :=
  pushLocked_pushes rfl (.done _)

private theorem pushAll_pushes (nowUs : Nat) (q : Queue) (batch : List Command) :
    Pushes q.bounds q.pending (pushAll nowUs q batch).2 (pushAll nowUs q batch).1.pending := by
  induction batch generalizing q with
  | nil => exact .done _
  | cons cmd rest ih =>
    have hrest := ih (q.pushLocked cmd nowUs).1
    rw [(pushLocked_control q cmd nowUs).bounds] at hrest
    exact pushLocked_pushes rfl hrest

private theorem refused_pushes (b : Bounds) (pending : List Entry) (batch : List Command)
    {result : PushResult} (hresult : result ≠ .queued) :
    Pushes b pending (batch.map fun _ => result) pending := by
  induction batch with
  | nil => exact .done _
  | cons cmd rest ih => exact .refused result hresult ih

theorem pushBatch_pushes (q : Queue) (batch : List Command) (nowUs : Nat) :
    Pushes q.bounds q.pending (q.pushBatch batch nowUs).2.2 (q.pushBatch batch nowUs).1.pending := by
  unfold pushBatch
  split
  · exact refused_pushes _ _ _ (by simp)
  · split
    · exact refused_pushes _ _ _ (by simp)
    · exact pushAll_pushes nowUs q batch

/-- No escape when the threshold or the oldest time is zero. -/
def isStale (oldestUs nowUs maxStaleUs : Nat) : Bool :=
  if maxStaleUs = 0 ∨ oldestUs = 0 ∨ nowUs ≤ oldestUs then false
  else maxStaleUs ≤ nowUs - oldestUs

def countClaim (s : Stats) (taken : Nat) : ClaimKind → Stats
  | .drain => { s with drained := s.drained + taken }
  | .stale => { s with flushedStale := s.flushedStale + taken }
  | .inline => s

/-- Take the whole pending set and the executing flag, or answer none. -/
def claim (q : Queue) (kind : ClaimKind) (nowUs maxStaleUs : Nat) : Option (List Entry × Queue) :=
  if q.executing then none
  else if kind = .stale ∧ q.shuttingDown then none
  else match q.pending with
    | [] =>
      -- an inline claim still excludes a concurrent owner frame
      if kind = .inline then some ([], { q with executing := true }) else none
    | oldest :: _ =>
      if kind = .stale ∧ isStale oldest.enqueuedUs nowUs maxStaleUs = false then none
      else some (q.pending,
        { q with pending := [], executing := true, stats := countClaim q.stats q.pending.length kind })

/-- What a claim that takes the queue found and leaves. -/
structure Claims (q : Queue) (batch : List Entry) (r : Queue) : Prop where
  batch_eq : batch = q.pending
  idle : q.executing = false
  executing : r.executing = true
  pending : r.pending = []
  bounds : r.bounds = q.bounds
  shuttingDown : r.shuttingDown = q.shuttingDown

theorem claim_claims {q r : Queue} {kind : ClaimKind} {nowUs maxStaleUs : Nat} {batch : List Entry}
    (h : q.claim kind nowUs maxStaleUs = some (batch, r)) : Claims q batch r := by
  unfold claim at h
  split at h
  · cases h
  · rename_i hidle
    have hidle : q.executing = false := by simpa using hidle
    split at h
    · cases h
    · split at h
      · rename_i hnil
        split at h
        · obtain ⟨rfl, rfl⟩ := Prod.mk.inj (Option.some.inj h)
          exact ⟨hnil.symm, hidle, rfl, hnil, rfl, rfl⟩
        · cases h
      · split at h
        · cases h
        · obtain ⟨rfl, rfl⟩ := Prod.mk.inj (Option.some.inj h)
          exact ⟨rfl, hidle, rfl, rfl, rfl, rfl⟩

/-- An inline claim is refused only by a claim that is out. -/
theorem executing_of_inline_refused {q : Queue} (h : q.claim .inline 0 0 = none) :
    q.executing = true := by
  unfold claim at h
  grind

def releaseExecuting (q : Queue) : Queue := { q with executing := false }

def countInline (q : Queue) (ran : Nat) : Queue :=
  { q with stats := { q.stats with ranInline := q.stats.ranInline + ran } }

def countRun (q : Queue) (threw : Bool) : Queue :=
  { q with stats :=
      if threw then { q.stats with failed := q.stats.failed + 1 }
      else { q.stats with executed := q.stats.executed + 1 } }

def shutdown (q : Queue) : Queue :=
  if q.shuttingDown then q
  else { q with
    shuttingDown := true
    stats := { q.stats with abandoned := q.stats.abandoned + q.pending.length }
    pending := [] }

end Queue
end SlsteamMoon.OwnerQueue
