import SlsteamMoon.NewestWins
import SlsteamMoon.ProvisionRefresh.Queue
import SlsteamMoon.Runs

/-! Raw product-info buffers on their way to the cache: the item, the rule by which one
replaces another, and what a worker does with an item of its batch. -/
namespace SlsteamMoon.RawCache
open NewestWins ProvisionRefresh

abbrev Bytes := List UInt8

structure CachePublicationToken where
  managed : Bool := false
  generation : UInt64 := 0
  deriving DecidableEq, Repr

structure RawCacheItem where
  appId : AppId := 0
  changeNumber : UInt32 := 0
  sha : Bytes := []
  buffer : Bytes := []
  appinfoVdfPath : Bytes := []
  publication : CachePublicationToken := {}
  deriving DecidableEq, Repr

def rawCacheItemShouldReplace (pendingGeneration : UInt64) (pendingChange : UInt32)
    (incomingGeneration : UInt64) (incomingChange : UInt32) : Bool :=
  if incomingGeneration ≠ pendingGeneration then pendingGeneration < incomingGeneration
  else pendingChange ≤ incomingChange

/-- A batch of nothing but deferred items waits for a later event. -/
def rawCacheWorkerShouldContinueAfterDeferral (hadConcurrentPending : Bool) : Bool := hadConcurrentPending

/-- An item under the number of its arrival; two arrivals may carry the same item. -/
structure Enqueued where
  ticket : Nat
  item : RawCacheItem
  deriving DecidableEq, Repr

/-- The one lookup, comparison and assignment of the arrivals and of the merge back. -/
def newest : Rule AppId Enqueued where
  key x := x.item.appId
  replaces found x :=
    rawCacheItemShouldReplace found.item.publication.generation found.item.changeNumber
      x.item.publication.generation x.item.changeNumber
  total := by
    intro found x h
    simp only [rawCacheItemShouldReplace] at h ⊢
    split at h
    · rename_i hne
      rw [if_pos (Ne.symm hne)]
      simp only [decide_eq_false_iff_not, UInt64.not_lt] at h
      simpa using UInt64.lt_of_le_of_ne h hne
    · rename_i heq
      rw [if_neg (by simpa using fun h' => heq (Ne.symm h'))]
      simp only [decide_eq_false_iff_not, UInt32.not_le] at h
      simpa using UInt32.le_of_lt h

abbrev ItemMap := Std.TreeMap AppId Enqueued

inductive CacheReadiness
  | missing | invalid | fresh | validStale | busy | unverified
  deriving DecidableEq, Repr

/-- What the calls made for one item answer; none stands for an exception. -/
structure Answers where
  persistAppBuffer : Option Bool
  probeCache : Option CacheReadiness
  refreshInBackground : Option Unit
  deriving DecidableEq, Repr

/-- `reasonMask(RefreshReason::CacheRepair)` -/
def cacheRepairMask : UInt8 := (1 : UInt8) <<< 4

def RawCacheItem.repairRequest (item : RawCacheItem) : RefreshRequest :=
  ⟨item.appId, item.changeNumber, item.publication.generation, cacheRepairMask, true, false⟩

/-- What became of an item. -/
inductive Record
  | replaced (loser winner : Enqueued)
  | persisted (x : Enqueued)
  | probedUsable (x : Enqueued) (readiness : CacheReadiness)
  | refreshInBackground (x : Enqueued) (appinfoVdfPath : Bytes) (requests : List RefreshRequest)
  deriving DecidableEq, Repr

/-- The body of the worker's loop over its batch; an item without a record is deferred. -/
def processItem (x : Enqueued) (a : Answers) : Option Record :=
  if a.persistAppBuffer = some true then some (.persisted x)
  else match a.probeCache with
    | none => none
    | some .fresh => some (.probedUsable x .fresh)
    | some .validStale => some (.probedUsable x .validStale)
    | some _ =>
      match a.refreshInBackground with
      | none => none
      | some () => some (.refreshInBackground x x.item.appinfoVdfPath [x.item.repairRequest])

theorem processItem_cases (x : Enqueued) (a : Answers) :
    processItem x a = none ∨ processItem x a = some (.persisted x) ∨
      (∃ readiness, (readiness = .fresh ∨ readiness = .validStale) ∧
        processItem x a = some (.probedUsable x readiness)) ∨
      processItem x a = some (.refreshInBackground x x.item.appinfoVdfPath [x.item.repairRequest]) := by
  rw [processItem]
  split
  · exact .inr (.inl rfl)
  · split
    · exact .inl rfl
    · exact .inr (.inr (.inl ⟨.fresh, .inl rfl, rfl⟩))
    · exact .inr (.inr (.inl ⟨.validStale, .inr rfl, rfl⟩))
    · split
      · exact .inl rfl
      · exact .inr (.inr (.inr rfl))

end SlsteamMoon.RawCache

/-! The shared map of pending items, the flag of the worker and any number of threads:
callers that enqueue, starts that may fail, workers in the middle of a batch. A section
under the mutex is one event, and so is the treatment of one item, which no other thread
can see. Memory does not run out. -/
namespace SlsteamMoon.RawCache
open NewestWins ProvisionRefresh

/-- The ways out of `startDetached`: no thread; a detached one; one that is joined, or left
alone, because detaching failed. -/
inductive Start
  | threw | detached | joined | abandoned
  deriving DecidableEq, Repr

inductive Phase
  | starting
  | taking
  | processing (batch : List Enqueued) (publishedAny : Bool) (deferred : ItemMap)
  | joining
  | ended

/-- One start; `joined` while the starter waits for the end of the thread. -/
structure Worker where
  phase : Phase := .starting
  joined : Bool := false

/-- Why the flag was last cleared. -/
inductive End
  | drained | deferral | startFailed
  deriving DecidableEq, Repr

/-- `enqueued`, `log`, `refreshes`, `answers` and `lastEnd` are history. -/
structure Machine where
  pending : ItemMap := ∅
  active : Bool := false
  workers : List Worker := []
  enqueued : List Enqueued := []
  log : List Record := []
  refreshes : Nat := 0
  answers : List Bool := []
  lastEnd : Option End := none

inductive Event
  | enqueue (items : List RawCacheItem)
  | start (w : Nat) (outcome : Start)
  | take (w : Nat)
  | process (w : Nat) (a : Answers)
  | finish (w : Nat)
  | joinReturns (w : Nat)
  deriving DecidableEq

namespace Machine

def ticketed (m : Machine) (items : List RawCacheItem) : List Enqueued :=
  items.mapIdx fun i item => ⟨m.enqueued.length + i, item⟩

def set (m : Machine) (w : Nat) (worker : Worker) : Machine :=
  { m with workers := m.workers.set w worker }

/-- Offer items to the pending map, one after the other. -/
def offer (m : Machine) (xs : List Enqueued) : Machine :=
  let (pending, losses) := newest.offerAll m.pending xs
  { m with pending, log := m.log ++ losses.map fun loss => .replaced loss.1 loss.2 }

/-- The call up to `startDetached`. -/
def enqueueRawCacheItems (m : Machine) (items : List RawCacheItem) : Machine :=
  if items = [] then { m with answers := m.answers ++ [false] }
  else
    let m := { m with enqueued := m.enqueued ++ m.ticketed items }.offer (m.ticketed items)
    if m.active then { m with answers := m.answers ++ [true] }
    else { m with active := true, workers := m.workers ++ [⟨.starting, false⟩] }

/-- Clear the flag as the thread `w` ends. -/
def clear (m : Machine) (w : Nat) (phase : Phase) (why : End) : Machine :=
  { m with active := false, lastEnd := some why }.set w ⟨phase, false⟩

def startDetached (m : Machine) (w : Nat) : Start → Machine
  | .threw => { m.clear w .ended .startFailed with answers := m.answers ++ [false] }
  | .detached => { m.set w ⟨.taking, false⟩ with answers := m.answers ++ [true] }
  | .joined => m.set w ⟨.taking, true⟩
  | .abandoned => { m.set w ⟨.taking, false⟩ with answers := m.answers ++ [false] }

/-- The worker returns; a joined one leaves the flag to its starter as well. -/
def leave (m : Machine) (w : Nat) (joined : Bool) (why : End) : Machine :=
  m.clear w (if joined then .joining else .ended) why

/-- The top of the worker's loop. -/
def take (m : Machine) (w : Nat) (joined : Bool) : Machine :=
  if m.pending.isEmpty then m.leave w joined .drained
  else { m with pending := ∅ }.set w ⟨.processing (m.pending.toList.map Prod.snd) false ∅, joined⟩

def process (m : Machine) (w : Nat) (joined : Bool) (x : Enqueued) (batch : List Enqueued) (publishedAny : Bool)
    (deferred : ItemMap) (a : Answers) : Machine :=
  match processItem x a with
  | some record =>
    let publishedAny := publishedAny || a.persistAppBuffer == some true
    { m with log := m.log ++ [record] }.set w ⟨.processing batch publishedAny deferred, joined⟩
  | none => m.set w ⟨.processing batch publishedAny (deferred.insert x.item.appId x), joined⟩

/-- The end of a batch: the deferred items go back, and the worker stays if there were
arrivals meanwhile. -/
def finish (m : Machine) (w : Nat) (joined publishedAny : Bool) (deferred : ItemMap) : Machine :=
  let m := { m with refreshes := m.refreshes + publishedAny.toNat }
  if deferred.isEmpty then m.set w ⟨.taking, joined⟩
  else
    let hadConcurrentPending := !m.pending.isEmpty
    let m := m.offer (deferred.toList.map Prod.snd)
    if rawCacheWorkerShouldContinueAfterDeferral hadConcurrentPending then m.set w ⟨.taking, joined⟩
    else m.leave w joined .deferral

def step (m : Machine) : Event → Option Machine
  | .enqueue items => some (m.enqueueRawCacheItems items)
  | .start w outcome =>
    match m.workers[w]? with
    | some ⟨.starting, _⟩ => some (m.startDetached w outcome)
    | _ => none
  | .take w =>
    match m.workers[w]? with
    | some ⟨.taking, joined⟩ => some (m.take w joined)
    | _ => none
  | .process w a =>
    match m.workers[w]? with
    | some ⟨.processing (x :: batch) publishedAny deferred, joined⟩ =>
      some (m.process w joined x batch publishedAny deferred a)
    | _ => none
  | .finish w =>
    match m.workers[w]? with
    | some ⟨.processing [] publishedAny deferred, joined⟩ => some (m.finish w joined publishedAny deferred)
    | _ => none
  | .joinReturns w =>
    match m.workers[w]? with
    | some ⟨.joining, _⟩ =>
      some { m.clear w .ended .startFailed with answers := m.answers ++ [false] }
    | _ => none

end Machine
end SlsteamMoon.RawCache
