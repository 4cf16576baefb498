import SlsteamMoon.CachePair.Publish
import SlsteamMoon.PendingProton.Record
import SlsteamMoon.ProtonMapping.Turns
import SlsteamMoon.ProvisionTerminal.Record

/-! Provisioning in several processes: what each of them holds in memory of its apps, and the cached files of every app
and the pending Proton mappings, which they share. A step is a locked section; what files and the system answer comes
with the event. -/
namespace SlsteamMoon.Provisioning
open KeyValues PendingProton
open CachePair (Member Disk Publication Phase)
open ProvisionTerminal (Record isValid parse render)

abbrev AppId := UInt32

/-- A generation is a counter of 64 bits, which does not run over. -/
structure CachePublicationToken where
  managed : Bool
  generation : Nat

def cachePublicationAllowed (managed : Bool) (expectedGeneration currentGeneration : Nat) : Bool :=
  managed && expectedGeneration == currentGeneration

structure TerminalMemoryEntry where
  record : Record
  managedGeneration : Nat

/-- The files that are named after one app. -/
inductive Artifact
  | member (m : Member)
  | terminal
  | dlcMetadata
  | marker
  deriving DecidableEq

/-- The sidecar of a terminal result is kept with its text; the flag of the disk follows it. -/
structure AppCache where
  disk : Disk
  terminal : Option Bytes

namespace AppCache

def has (c : AppCache) : Artifact → Bool
  | .member m => (c.disk.file m).isSome
  | .terminal => c.terminal.isSome
  | .dlcMetadata => c.disk.dlcMetadata
  | .marker => c.disk.marker

/-- What a publication starts from. -/
def start (c : AppCache) : Disk := { c.disk with terminal := c.terminal.isSome }

def left (c : AppCache) (disk : Disk) : AppCache := ⟨disk, if disk.terminal then c.terminal else none⟩

def eraseTerminal (c : AppCache) (erased : Bool) : AppCache := if erased then { c with terminal := none } else c

/-- Every file that is moved away is no longer under its name. -/
def quarantine (c : AppCache) (moved : Artifact → Bool) : AppCache where
  disk := { c.disk with
    file := fun m => if moved (.member m) then none else c.disk.file m
    dlcMetadata := c.disk.dlcMetadata && !moved .dlcMetadata
    marker := c.disk.marker && !moved .marker }
  terminal := if moved .terminal then none else c.terminal

end AppCache

/-- The answer of snapshotCachePublication in the hands of a thread. -/
structure Held where
  appId : AppId
  token : CachePublicationToken

/-- How far flushPendingProtonMappings is; it holds the pass mutex all the while. -/
inductive Flush
  | idle
  | unread
  | loaded (fileIds : Finset AppId)
  | applied (fileIds : Finset AppId)
  deriving DecidableEq

/-- How far forgetAppImpl is; one thread calls it, for one app after the other. -/
inductive Forgetting
  | idle
  | begun (appId : AppId) (preserveTicketArtifacts : Bool)
  | cleaned (appId : AppId)
  deriving DecidableEq

structure Process where
  managed : Finset AppId
  added : Finset AppId
  generations : AppId → Nat := fun _ => 0
  tokens : List Held := []
  needProton : Finset AppId := ∅
  pendingRemovals : Finset AppId := ∅
  terminalResults : AppId → Option TerminalMemoryEntry := fun _ => none
  invalidated : Finset AppId := ∅
  flush : Flush := .idle
  forgetting : Forgetting := .idle

structure System where
  processes : List Process
  cache : AppId → AppCache
  pending : Option Bytes

/-- What the callers of the two writers of a cache pair hand over, and what happens in it. -/
structure Call where
  lockAcquired : Bool
  sha : Bytes
  wire : Bytes
  metadata : Bytes
  synthetic : Bool
  script : List CachePair.Event

/-- What a cleanup meets. -/
structure Cleanup where
  lockAcquired : Bool
  terminalErased : Bool
  synthesized : Bool
  pending : Answers
  moved : Artifact → Bool

inductive SourceResult
  | virtualDlc
  | noUsableContent
  | incompleteContent
  | other
  deriving DecidableEq

/-- `p` is a process and `i` one of its tokens. -/
inductive Event
  | start (managed added : Finset AppId)
  | restart (p : Nat) (managed added : Finset AppId)
  | reload (p : Nat) (managed added : Finset AppId)
  | snapshotCachePublication (p : Nat) (appId : AppId)
  | persistBuffer (p i : Nat) (call : Call)
  | persistAppBuffer (p i : Nat) (call : Call) (normalizedCache : Bool)
  | diesPublishing (p i : Nat) (call : Call) (managed added : Finset AppId)
  | enrichAndPublishDlcMetadata (p : Nat) (appId : AppId) (lockAcquired matchesBase written : Bool)
  | noteTerminalProvisionResult (p i : Nat) (result : SourceResult) (changeNumber : UInt32) (fingerprint : Bytes)
      (lockAcquired erased written : Bool)
  | terminalProvisionResultKnown (p : Nat) (appId : AppId) (observedChangeNumber : UInt32) (memoized fingerprint : Bytes)
      (lockAcquired readable : Bool)
  | primeTerminalMemo (p : Nat) (appId : AppId) (fingerprint : Bytes) (lockAcquired readable : Bool)
  | clearTerminalProvisionResult (p : Nat) (appId : AppId) (erased : Bool)
  | markProtonNeeded (p i : Nat)
  | persistPendingProtonMappings (p : Nat) (answers : Answers)
  | injectProtonMappings (p : Nat) (file : ProtonMapping.ConfigFile)
  | flushLoad (p : Nat) (required : Finset AppId) (answers : Answers)
  | flushInject (p : Nat) (file : ProtonMapping.ConfigFile)
  | flushClear (p : Nat) (answers : Answers)
  | forgetBegin (p : Nat) (appId : AppId) (preserveTicketArtifacts : Bool)
  | forgetClean (p : Nat) (cleanup : Cleanup)
  | forgetEnd (p : Nat)

namespace Process

/-- A process that comes up; only ids above zero are taken from the sources. -/
def fresh (managed added : Finset AppId) : Process where
  managed := managed.filter (0 < ·)
  added

def allowed (P : Process) (h : Held) : Bool :=
  cachePublicationAllowed h.token.managed h.token.generation (P.generations h.appId)

def snapshotCachePublication (P : Process) (appId : AppId) : Process :=
  { P with tokens := P.tokens ++ [⟨appId, ⟨appId ∈ P.managed, P.generations appId⟩⟩] }

def eraseTerminal (P : Process) (appId : AppId) : Process :=
  { P with terminalResults := Function.update P.terminalResults appId none }

def setTerminal (P : Process) (appId : AppId) (entry : TerminalMemoryEntry) : Process :=
  { P with terminalResults := Function.update P.terminalResults appId (some entry) }

def clearCacheReadInvalidation (P : Process) (appId : AppId) : Process :=
  { P with invalidated := P.invalidated.erase appId }

def markProtonNeeded (P : Process) (h : Held) : Process :=
  if !h.token.managed || h.appId ∉ P.managed then P
  else if !P.allowed h then P
  else { P with pendingRemovals := P.pendingRemovals.erase h.appId, needProton := insert h.appId P.needProton }

/-- The ids that the mappings are put in for. -/
def need (P : Process) : ProtonMapping.AppSet :=
  ⟨P.needProton.sort, ((Finset.pairwise_sort P.needProton _).and (Finset.sort_nodup P.needProton _)).imp fun h =>
    UInt32.lt_of_le_of_ne h.1 h.2⟩

def injected (P : Process) (file : ProtonMapping.ConfigFile) : Bool := (ProtonMapping.injectProtonMappings P.need file).1

/-- `required` is what the validated caches call for. -/
def flushLoad (P : Process) (required : Finset AppId) (a : Answers) (file : Option Bytes) : Process :=
  let needProton := P.needProton ∪ P.managed ∩ required
  let unread := { P with needProton, flush := if needProton = ∅ then .idle else .unread }
  if !a.lockAcquired then unread
  else
    match readPendingProtonFileLocked a.readable file with
    | .valid ids =>
      let needProton := needProton ∪ ids ∩ P.managed
      { P with needProton, flush := if needProton = ∅ then .applied ids else .loaded ids }
    | _ => unread

def flushInject (P : Process) (file : ProtonMapping.ConfigFile) : Option Process :=
  match P.flush with
  | .unread => some { P with flush := .idle }
  | .loaded fileIds => some { P with flush := if P.injected file then .applied fileIds else .idle }
  | _ => none

/-- The first section of forgetAppImpl. -/
def forgetBegin (P : Process) (appId : AppId) (preserveTicketArtifacts : Bool) : Process :=
  { P with
    generations := Function.update P.generations appId (P.generations appId + 1)
    terminalResults := Function.update P.terminalResults appId none
    invalidated := insert appId P.invalidated
    needProton := P.needProton.erase appId
    pendingRemovals := insert appId P.pendingRemovals
    forgetting := .begun appId preserveTicketArtifacts }

end Process

/-- ProvisionTerminal::applies. -/
def applies (record : Record) (appId : AppId) (observedChangeNumber : UInt32) (currentInputFingerprint : Bytes) : Bool :=
  if isValid record = false ∨ record.appId ≠ appId ∨ record.changeNumber ≠ observedChangeNumber then false
  else record.kind == .virtualDlc || record.inputFingerprint == currentInputFingerprint

/-- ProvisionTerminal::Store::load, where it finds a valid record. -/
def load (appId : AppId) (readable : Bool) (sidecar : Option Bytes) : Option Record :=
  if appId = 0 ∨ readable = false then none
  else do
    let record ← parse (← sidecar)
    if record.appId ≠ appId then none else some record

/-- ProvisionTerminal::Store::publish. -/
def publishRecord (record : Record) (written : Bool) (sidecar : Option Bytes) : Option Bytes × Bool :=
  if isValid record && written then (some (render record), true) else (sidecar, false)

def Process.terminalMemoryAppliesLocked (P : Process) (appId : AppId) (observedChangeNumber : UInt32) (fingerprint : Bytes) :
    Bool :=
  match P.terminalResults appId with
  | none => false
  | some ⟨record, managedGeneration⟩ =>
    if managedGeneration ≠ P.generations appId then false
    else if record.changeNumber = 0 then
      !(observedChangeNumber != 0 || record.appId != appId ||
        (record.kind != .virtualDlc && record.inputFingerprint != fingerprint))
    else
      applies record appId (if observedChangeNumber = 0 then record.changeNumber else observedChangeNumber) fingerprint

/-- publishCachePairLocked, up to where the script ends. -/
def publishCachePairLocked (c : AppCache) (call : Call) (script : List CachePair.Event) : Option (AppCache × Phase) :=
  let publication : Publication :=
    { path := fun _ => ""
      content := fun
        | .buffer => call.wire
        | .metadata => call.metadata
      synthetic := call.synthetic
      markerBefore := c.disk.marker }
  (Runs.exec (CachePair.State.step publication) (CachePair.State.start c.start) script).map fun s => (c.left s.disk, s.phase)

namespace System

def setProcess (s : System) (p : Nat) (P : Process) : System := { s with processes := s.processes.set p P }

def setCache (s : System) (appId : AppId) (c : AppCache) : System := { s with cache := Function.update s.cache appId c }

/-- The writers of a cache pair: `checks` is what the caller asks of the pair behind the gate. -/
def publish (s : System) (p : Nat) (P : Process) (h : Held) (call : Call) (checks : Bool) : Option System :=
  if !call.lockAcquired || !P.allowed h || !checks then some s
  else
    match publishCachePairLocked (s.cache h.appId) call call.script with
    | some (c, .returned true) =>
      some ((s.setCache h.appId c).setProcess p ((P.eraseTerminal h.appId).clearCacheReadInvalidation h.appId))
    | some (c, .returned false) => some ((s.setCache h.appId c).setProcess p (P.eraseTerminal h.appId))
    | _ => none

def persistBuffer (s : System) (p : Nat) (P : Process) (h : Held) (call : Call) : Option System :=
  s.publish p P h call (call.sha.length = 20)

/-- The writer of raw product info from PICS. -/
def persistAppBuffer (s : System) (p : Nat) (P : Process) (h : Held) (call : Call) (normalizedCache : Bool) :
    Option System :=
  if !h.token.managed then some s
  else s.publish p P h call (call.wire ≠ [] ∧ call.sha.length = 20 ∧ normalizedCache = false)

/-- The process ends at any access of a publication, and another takes its place. -/
def diesPublishing (s : System) (p : Nat) (P : Process) (h : Held) (call : Call) (managed added : Finset AppId) :
    Option System :=
  if !P.allowed h then none
  else (publishCachePairLocked (s.cache h.appId) call call.script).map fun (c, _) =>
    (s.setCache h.appId c).setProcess p (.fresh managed added)

def enrichAndPublishDlcMetadata (s : System) (P : Process) (appId : AppId) (lockAcquired matchesBase written : Bool) :
    System :=
  if lockAcquired && decide (appId ∈ P.managed) && matchesBase && written then
    s.setCache appId { s.cache appId with disk.dlcMetadata := true }
  else s

/-- A terminal result with its record, behind the gate. -/
def noteRecord (s : System) (p : Nat) (P : Process) (h : Held) (record : Record) (erased written : Bool) : System :=
  let c := s.cache h.appId
  let dropped := P.eraseTerminal h.appId
  let noted := P.setTerminal h.appId ⟨record, h.token.generation⟩
  if !erased then s.setProcess p dropped
  else if record.changeNumber = 0 then (s.setCache h.appId (c.eraseTerminal true)).setProcess p noted
  else
    let (sidecar, published) := publishRecord record written none
    (s.setCache h.appId { c with terminal := sidecar }).setProcess p (if published then noted else dropped)

def noteTerminalProvisionResult (s : System) (p : Nat) (P : Process) (h : Held) (result : SourceResult)
    (changeNumber : UInt32) (fingerprint : Bytes) (lockAcquired erased written : Bool) : System :=
  if result = .other then s
  else if !lockAcquired || !P.allowed h then s
  else
    let record : Record :=
      { schema := ProvisionTerminal.kSchema
        appId := h.appId
        kind := if result = .virtualDlc then .virtualDlc else .noUsableContent
        changeNumber
        inputFingerprint := if result = .virtualDlc then ProvisionCache.utf8 "-" else fingerprint }
    s.noteRecord p P h record erased written

/-- A record in the sidecar goes to memory where it fits. -/
def loadTerminal (s : System) (p : Nat) (P : Process) (appId : AppId) (readable : Bool) (fits : Record → Bool) : System :=
  match load appId readable (s.cache appId).terminal with
  | none => s
  | some record => if fits record then s.setProcess p (P.setTerminal appId ⟨record, P.generations appId⟩) else s

/-- `memoized` is the fingerprint that the memory of the process has for the app. -/
def terminalProvisionResultKnown (s : System) (p : Nat) (P : Process) (appId : AppId) (observedChangeNumber : UInt32)
    (memoized fingerprint : Bytes) (lockAcquired readable : Bool) : System :=
  if P.terminalMemoryAppliesLocked appId observedChangeNumber memoized then s
  else if appId ∉ P.added ∨ lockAcquired = false then s
  else
    s.loadTerminal p P appId readable fun record =>
      applies record appId (if observedChangeNumber = 0 then record.changeNumber else observedChangeNumber) fingerprint

def primeTerminalMemo (s : System) (p : Nat) (P : Process) (appId : AppId) (fingerprint : Bytes)
    (lockAcquired readable : Bool) : System :=
  if appId = 0 ∨ appId ∉ P.added ∨ lockAcquired = false then s
  else s.loadTerminal p P appId readable fun record => applies record appId record.changeNumber fingerprint

/-- The second section of forgetAppImpl. -/
def forgetClean (s : System) (p : Nat) (P : Process) (appId : AppId) (preserveTicketArtifacts : Bool) (a : Cleanup) :
    System :=
  if !a.lockAcquired then s.setProcess p { P with forgetting := .idle }
  else
    let c := (s.cache appId).eraseTerminal a.terminalErased
    let preserveSyntheticMarker := preserveTicketArtifacts && a.synthesized
    let (pending, removed) := removePendingProtonMappingLocked appId a.pending s.pending
    let moved (x : Artifact) : Bool := a.moved x && !(x == .marker && preserveSyntheticMarker)
    let s := s.setCache appId (c.quarantine moved)
    { s with pending }.setProcess p { P with forgetting := if removed then .cleaned appId else .idle }

def step (s : System) : Event → Option System
  | .start managed added => some { s with processes := s.processes ++ [.fresh managed added] }
  | .restart p managed added => if p < s.processes.length then some (s.setProcess p (.fresh managed added)) else none
  | .reload p managed added => do
    let P ← s.processes[p]?
    some (s.setProcess p { P with managed := managed.filter (0 < ·), added })
  | .snapshotCachePublication p appId => do
    let P ← s.processes[p]?
    if P.flush ≠ .idle then none else some (s.setProcess p (P.snapshotCachePublication appId))
  | .persistBuffer p i call => do
    let P ← s.processes[p]?
    s.persistBuffer p P (← P.tokens[i]?) call
  | .persistAppBuffer p i call normalizedCache => do
    let P ← s.processes[p]?
    s.persistAppBuffer p P (← P.tokens[i]?) call normalizedCache
  | .diesPublishing p i call managed added => do
    let P ← s.processes[p]?
    s.diesPublishing p P (← P.tokens[i]?) call managed added
  | .enrichAndPublishDlcMetadata p appId lockAcquired matchesBase written => do
    let P ← s.processes[p]?
    if P.flush ≠ .idle then none else some (s.enrichAndPublishDlcMetadata P appId lockAcquired matchesBase written)
  | .noteTerminalProvisionResult p i result changeNumber fingerprint lockAcquired erased written => do
    let P ← s.processes[p]?
    let h ← P.tokens[i]?
    some (s.noteTerminalProvisionResult p P h result changeNumber fingerprint lockAcquired erased written)
  | .terminalProvisionResultKnown p appId observedChangeNumber memoized fingerprint lockAcquired readable => do
    let P ← s.processes[p]?
    some (s.terminalProvisionResultKnown p P appId observedChangeNumber memoized fingerprint lockAcquired readable)
  | .primeTerminalMemo p appId fingerprint lockAcquired readable => do
    let P ← s.processes[p]?
    some (s.primeTerminalMemo p P appId fingerprint lockAcquired readable)
  | .clearTerminalProvisionResult p appId erased => do
    let P ← s.processes[p]?
    some ((s.setCache appId ((s.cache appId).eraseTerminal erased)).setProcess p (P.eraseTerminal appId))
  | .markProtonNeeded p i => do
    let P ← s.processes[p]?
    let h ← P.tokens[i]?
    if P.flush ≠ .idle then none else some (s.setProcess p (P.markProtonNeeded h))
  | .persistPendingProtonMappings p answers => do
    let P ← s.processes[p]?
    if P.flush ≠ .idle then none
    else
      let (pending, persisted) := persistPendingProtonMappings P.needProton P.pendingRemovals P.managed answers s.pending
      let s := { s with pending }
      some (if persisted then s.setProcess p { P with pendingRemovals := ∅ } else s)
  | .injectProtonMappings p _ => do
    let P ← s.processes[p]?
    if P.flush ≠ .idle then none else some s
  | .flushLoad p required answers => do
    let P ← s.processes[p]?
    if P.flush ≠ .idle then none else some (s.setProcess p (P.flushLoad required answers s.pending))
  | .flushInject p file => do
    let P ← s.processes[p]?
    some (s.setProcess p (← P.flushInject file))
  | .flushClear p answers => do
    let P ← s.processes[p]?
    match P.flush with
    | .applied fileIds =>
      some ({ s with pending := clearPendingProtonMappingsIfUnchanged fileIds answers s.pending }.setProcess p
        { P with flush := .idle })
    | _ => none
  | .forgetBegin p appId preserveTicketArtifacts => do
    let P ← s.processes[p]?
    if appId = 0 ∨ P.flush ≠ .idle ∨ P.forgetting ≠ .idle then none
    else some (s.setProcess p (P.forgetBegin appId preserveTicketArtifacts))
  | .forgetClean p cleanup => do
    let P ← s.processes[p]?
    match P.forgetting with
    | .begun appId preserveTicketArtifacts => some (s.forgetClean p P appId preserveTicketArtifacts cleanup)
    | _ => none
  | .forgetEnd p => do
    let P ← s.processes[p]?
    match P.forgetting with
    | .cleaned appId =>
      if P.flush ≠ .idle then none
      else some (s.setProcess p { P with pendingRemovals := P.pendingRemovals.erase appId, forgetting := .idle })
    | _ => none

end System
end SlsteamMoon.Provisioning
