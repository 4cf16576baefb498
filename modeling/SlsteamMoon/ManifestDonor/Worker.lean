import SlsteamMoon.Runs
import Mathlib.Data.List.Basic

/-! What the account owns, as far as its licences and the packages seen so far tell, and
the rules for a captured code. -/
namespace SlsteamMoon.ManifestDonor

abbrev PackageId := UInt32
abbrev AppId := UInt32
abbrev DepotId := UInt32
abbrev Gid := UInt64

structure PackageRecord where
  apps : List AppId := []
  depots : List DepotId := []
  deriving DecidableEq, Repr

structure LicensedPackages where
  ownedDepots : List DepotId := []
  licensedApps : List (PackageId × AppId) := []
  resolvedPackages : Nat := 0
  deriving DecidableEq, Repr

def deriveLicensedPackages (licenses : List PackageId) (packages : List (PackageId × PackageRecord)) :
    LicensedPackages :=
  licenses.foldl (fun result packageId =>
    match packages.lookup packageId with
    | none => result
    | some found =>
      { ownedDepots := result.ownedDepots ++ found.depots
        licensedApps := result.licensedApps ++ (found.apps.filter (· ≠ 0)).map fun appId => (packageId, appId)
        resolvedPackages := result.resolvedPackages + 1 }) {}

def shouldObserveLicensedPackage (licenseReady packageInLicenseSet : Bool) : Bool :=
  licenseReady && packageInLicenseSet

def shouldSubmitCapturedCode (enabled currentGeneration licensedDepot wantedManifest fresh : Bool) : Bool :=
  enabled && currentGeneration && licensedDepot && wantedManifest && fresh

def shouldRetainCapturedCode (currentGeneration wantedManifest ownershipComplete licensedDepot expired : Bool) :
    Bool :=
  currentGeneration && wantedManifest && !ownershipComplete && !licensedDepot && !expired

/-- The maps and sets under g_ownedMutex; the licences are a list without duplicates. -/
structure Ownership where
  packages : List (PackageId × PackageRecord) := []
  licenses : List PackageId := []
  ownedDepots : List DepotId := []
  licenseReady : Bool := false
  deriving DecidableEq, Repr

/-- The message of the licence list: the result field and the package ids that it has. -/
structure LicenseList where
  eresult : Option Int := none
  packageIds : List (Option PackageId) := []
  deriving DecidableEq, Repr

def LicenseList.succeeded (message : LicenseList) : Bool := message.eresult = none || message.eresult = some 1

namespace Ownership

def rebuildOwnedLocked (o : Ownership) : Ownership :=
  { o with ownedDepots := (deriveLicensedPackages o.licenses o.packages).ownedDepots }

/-- Every licensed package has been seen. -/
def ownershipComplete (o : Ownership) : Bool :=
  o.licenseReady && (o.licenses.countP fun packageId => (o.packages.lookup packageId).isSome) == o.licenses.length

def erase (packages : List (PackageId × PackageRecord)) (packageId : PackageId) : List (PackageId × PackageRecord) :=
  packages.filter fun entry => entry.1 ≠ packageId

/-- `contents` are the two vectors, none when they cannot be read. -/
def observePackage (o : Ownership) (packageId : PackageId) (available : Bool)
    (contents : Option (List AppId × List DepotId)) : Ownership :=
  if packageId = 0 then o
  else if available = false then
    let o := { o with packages := erase o.packages packageId }
    if o.licenseReady then o.rebuildOwnedLocked else o
  else match contents with
    | none => o
    | some (apps, depots) =>
      if apps.length > 100000 ∨ depots.length > 100000 then o
      else if o.packages.length ≥ 100000 ∧ (o.packages.lookup packageId).isNone then o
      else
        let record : PackageRecord := ⟨apps.filter (· ≠ 0), depots.filter (· ≠ 0)⟩
        let o := { o with packages := (packageId, record) :: erase o.packages packageId }
        if shouldObserveLicensedPackage o.licenseReady (packageId ∈ o.licenses) then o.rebuildOwnedLocked else o

def licensesOf (message : LicenseList) : List PackageId :=
  if message.succeeded ∧ message.packageIds.length ≤ 100000 then
    ((message.packageIds.filterMap id).filter (· ≠ 0)).eraseDups
  else []

def onLicenseList (o : Ownership) (message : LicenseList) : Ownership :=
  { o with licenses := licensesOf message, licenseReady := message.succeeded }.rebuildOwnedLocked

def onLoggedOff (o : Ownership) : Ownership := { o with licenseReady := false, licenses := [], ownedDepots := [] }

end Ownership
end SlsteamMoon.ManifestDonor

/-! The donor: callers that change the ownership and capture codes, and one worker that
sweeps the wanted list and drains the captured codes. A step is a section under one of the
locks, the read of an atomic, or the return of a call; what the settings, the clock and the
archive decide comes with the event. -/
namespace SlsteamMoon.ManifestDonor

structure ManifestKey where
  depotId : DepotId
  gid : Gid
  deriving DecidableEq, Repr

structure Wanted where
  appId : AppId := 0
  depotId : DepotId := 0
  gid : Gid := 0
  deriving DecidableEq, Repr

/-- What the ownership, the generation and the clock say at one moment. A generation is a
counter of 64 bits, which does not run over. -/
structure View where
  generation : Nat
  complete : Bool
  owned : List DepotId
  now : Nat
  deriving DecidableEq, Repr

/-- What the worker copies under g_ownedMutex; `index` counts the steps before. -/
structure Snapshot where
  view : View
  session : Nat
  index : Nat
  deriving DecidableEq, Repr

/-- A code of Steam's own; `index` counts the steps before its capture. -/
structure CapturedCode where
  depotId : DepotId
  gid : Gid
  code : UInt64
  generation : Nat
  capturedAt : Nat
  index : Nat
  deriving DecidableEq, Repr

/-- One line of a body, and the generation its code was captured or requested in. -/
structure Line where
  depotId : DepotId
  gid : Gid
  code : UInt64
  generation : Nat
  deriving DecidableEq, Repr

/-- A call of submit: its body, the snapshot whose generation and session it is given, and
the generation at the time of the call. -/
structure Submission where
  body : List Line
  snap : Snapshot
  calledIn : Nat
  deriving DecidableEq, Repr

/-- Where flushCapturedCodes is. -/
inductive Flush
  | idle
  | called
  | begun
  | configured
  | refreshed (wanted : List ManifestKey)
  | owned (wanted : List ManifestKey) (snap : Snapshot)
  | judged (snap : Snapshot) (body : List Line) (retained : List CapturedCode)
  | retaining (retained : List CapturedCode)
  deriving DecidableEq, Repr

/-- Where runCycle is; a request carries the generation it was made in. -/
inductive CyclePhase
  | entered
  | top
  | batching
  | tests
  | head (wanted : Wanted)
  | before (wanted : Wanted)
  | requesting (wanted : Wanted)
  | requested (wanted : Wanted) (requestedIn : Nat)
  | answered (wanted : Wanted) (requestedIn : Nat) (code : UInt64)
  | ending
  deriving DecidableEq, Repr

structure Cycle where
  snap : Snapshot
  rest : List Wanted := []
  body : List Line := []
  phase : CyclePhase := .entered
  deriving DecidableEq, Repr

structure Worker where
  flush : Flush := .idle
  cycle : Option Cycle := none
  posting : Option Submission := none
  deriving DecidableEq, Repr

/-- The rest of a section under g_ownedMutex that has counted the generation up. -/
inductive Section
  | licenseList (ready : Bool)
  | loggedOff
  deriving DecidableEq, Repr

/-- The flag of each session, the last one being g_sessionAlive; `clears` are the calls of
onLoggedOff between their two sections. From `accepted` on it is history: the codes taken
into the queue, those a flush let go and whether they were wanted, those that found no room
and the length of the queue then, the POSTs, and a view for each step. -/
structure Machine where
  own : Ownership := {}
  generation : Nat := 0
  alive : List Bool := [false]
  updating : Option Section := none
  clears : Nat := 0
  queue : List CapturedCode := []
  worker : Worker := {}
  now : Nat := 0
  accepted : List CapturedCode := []
  dropped : List (CapturedCode × Bool) := []
  crowded : List (CapturedCode × Nat) := []
  posts : List Submission := []
  history : List View := []
  deriving DecidableEq

inductive Event
  | observePackage (packageId : PackageId) (available : Bool) (contents : Option (List AppId × List DepotId))
  | onLicenseList (message : LicenseList)
  | onLoggedOff
  | publishSession
  | clearCaptured
  | submitCapturedCode (depotId : DepotId) (gid : Gid) (code : UInt64) (generation : Nat) (enabled : Bool) (seen : Nat)
  | tick (ms : Nat)
  | callFlush
  | look
  | readConfig (enabled : Bool)
  | refreshWanted (answer : Option (List ManifestKey))
  | readOwnership
  | swap
  | callSubmit
  | post (running enabled : Bool)
  | putBack
  | beginCycle
  | wantedEntries (answer : Option (List Wanted))
  | cycleTop
  | batch (due : Bool)
  | tests (goOn : Bool)
  | head (archived : Bool)
  | before (enabled : Bool)
  | request
  | answer (code : UInt64)
  | afterAnswer
  | endCycle (running : Bool)

/-- Older than four minutes, in milliseconds. -/
def CapturedCode.expired (c : CapturedCode) (now : Nat) : Bool := c.capturedAt + 240000 < now

/-- What a flush does with a code. -/
inductive Verdict
  | submit | retain | drop
  deriving DecidableEq, Repr

def verdict (wanted : List ManifestKey) (view : View) (now : Nat) (c : CapturedCode) : Verdict :=
  let current := c.generation == view.generation
  let licensed := decide (c.depotId ∈ view.owned)
  let exactWanted := decide (⟨c.depotId, c.gid⟩ ∈ wanted)
  if shouldSubmitCapturedCode true current licensed exactWanted (!c.expired now) then .submit
  else if shouldRetainCapturedCode current exactWanted view.complete licensed (c.expired now) then .retain
  else .drop

namespace Machine

def view (m : Machine) : View := ⟨m.generation, m.own.ownershipComplete, m.own.ownedDepots, m.now⟩

def aliveOf (m : Machine) (session : Nat) : Bool := m.alive.getD session false

def snapshot (m : Machine) : Snapshot := ⟨m.view, m.alive.length - 1, m.history.length⟩

/-! The callers. -/

def submitCapturedCode (m : Machine) (depotId : DepotId) (gid : Gid) (code : UInt64) (generation : Nat)
    (enabled : Bool) (seen : Nat) : Machine :=
  if depotId = 0 ∨ gid = 0 ∨ code = 0 ∨ enabled = false ∨ generation ≠ seen then m
  else if generation ≠ m.generation then m
  else
    let queue := m.queue.filter fun c => !c.expired m.now
    if queue.length ≥ 256 then { m with queue }
    else
      let c : CapturedCode := ⟨depotId, gid, code, generation, m.now, m.history.length⟩
      { m with queue := queue ++ [c], accepted := m.accepted ++ [c] }

def publishSession (m : Machine) : Section → Machine
  | .licenseList ready =>
    { m with updating := none, alive := m.alive.set (m.alive.length - 1) false ++ [ready] }
  | .loggedOff =>
    { m with updating := none, alive := m.alive.set (m.alive.length - 1) false, clears := m.clears + 1 }

/-! The worker's flush. -/

def setFlush (m : Machine) (flush : Flush) : Machine := { m with worker.flush := flush }

def swap (m : Machine) (wanted : List ManifestKey) (snap : Snapshot) : Machine :=
  let captured := m.queue
  let judge := verdict wanted snap.view m.now
  let body := (captured.filter fun c => judge c = .submit).map fun c => ⟨c.depotId, c.gid, c.code, c.generation⟩
  let retained := captured.filter fun c => judge c = .retain
  let dropped := (captured.filter fun c => judge c = .drop).map fun c => (c, decide (⟨c.depotId, c.gid⟩ ∈ wanted))
  { m with queue := [], dropped := m.dropped ++ dropped }.setFlush (.judged snap body retained)

/-- The checks at the head of submit; with all of them passed the POST is started. -/
def post (m : Machine) (s : Submission) (running enabled : Bool) : Machine :=
  if s.body = [] ∨ running = false ∨ m.aliveOf s.snap.session = false ∨
      m.generation ≠ s.snap.view.generation ∨ enabled = false then
    { m with worker.posting := none }
  else { m with worker.posting := none, posts := m.posts ++ [s] }

def putBack (m : Machine) (retained : List CapturedCode) : Machine :=
  let room := 256 - min 256 m.queue.length
  let keep := min room retained.length
  let queue := m.queue ++ retained.take keep
  { m with queue, crowded := m.crowded ++ (retained.drop keep).map fun c => (c, queue.length) }.setFlush .idle

def flushStep (m : Machine) (flush : Flush) : Event → Option Machine
  | .callFlush => if flush = .idle ∧ m.worker.cycle = none then some (m.setFlush .called) else none
  | .look => if flush = .called then some (m.setFlush (if m.queue = [] then .idle else .begun)) else none
  | .readConfig enabled =>
    if flush = .begun then
      some (if enabled then m.setFlush .configured else { m with queue := [] }.setFlush .idle)
    else none
  | .refreshWanted answer =>
    if flush = .configured then
      match answer with
      | none => some ({ m with queue := m.queue.filter fun c => !c.expired m.now }.setFlush .idle)
      | some wanted => some (m.setFlush (.refreshed wanted))
    else none
  | .readOwnership =>
    match flush with
    | .refreshed wanted => if m.updating = none then some (m.setFlush (.owned wanted m.snapshot)) else none
    | _ => none
  | .swap =>
    match flush with
    | .owned wanted snap => some (m.swap wanted snap)
    | _ => none
  | .callSubmit =>
    match flush with
    | .judged snap body retained =>
      some { m with worker := { m.worker with
        flush := .retaining retained
        posting := if body = [] then none else some ⟨body, snap, m.generation⟩ } }
    | _ => none
  | .putBack =>
    match flush with
    | .retaining retained => some (m.putBack retained)
    | _ => none
  | _ => none

/-! The worker's sweep. -/

def setCycle (m : Machine) (cycle : Cycle) : Machine := { m with worker.cycle := some cycle }

/-- The test of the generation and the session that the sweep makes again and again. -/
def stillIn (m : Machine) (snap : Snapshot) : Bool :=
  m.generation == snap.view.generation && m.aliveOf snap.session

/-- flushBatch: submit is called with the lines of the body, if there are any. -/
def flushBatch (m : Machine) (cycle : Cycle) : Option Submission :=
  if cycle.body = [] then none else some ⟨cycle.body, cycle.snap, m.generation⟩

/-- The sweep at one wanted entry. -/
def entryStep (m : Machine) (cycle : Cycle) : Event → Option Machine
  | .tests goOn =>
    match cycle.phase, cycle.rest with
    | .tests, wanted :: rest =>
      if goOn = false ∨ m.stillIn cycle.snap = false then some (m.setCycle { cycle with phase := .ending })
      else if wanted.depotId ∉ cycle.snap.view.owned then some (m.setCycle { cycle with rest, phase := .top })
      else some (m.setCycle { cycle with rest, phase := .head wanted })
    | _, _ => none
  | .head archived =>
    match cycle.phase with
    | .head wanted => some (m.setCycle { cycle with phase := if archived then .top else .before wanted })
    | _ => none
  | .before enabled =>
    match cycle.phase with
    | .before wanted =>
      if m.stillIn cycle.snap = false ∨ enabled = false then some (m.setCycle { cycle with phase := .ending })
      else some (m.setCycle { cycle with phase := .requesting wanted })
    | _ => none
  | .request =>
    match cycle.phase with
    | .requesting wanted => some (m.setCycle { cycle with phase := .requested wanted m.generation })
    | _ => none
  | .answer code =>
    match cycle.phase with
    | .requested wanted requestedIn =>
      some ((m.setCycle { cycle with phase := .answered wanted requestedIn code }).setFlush .called)
    | _ => none
  | .afterAnswer =>
    match cycle.phase with
    | .answered wanted requestedIn code =>
      if m.stillIn cycle.snap = false then some (m.setCycle { cycle with phase := .ending })
      else if code = 0 then some (m.setCycle { cycle with phase := .top })
      else
        some (m.setCycle { cycle with
          body := cycle.body ++ [⟨wanted.depotId, wanted.gid, code, requestedIn⟩]
          phase := .top })
    | _ => none
  | _ => none

def cycleStep (m : Machine) (cycle : Cycle) : Event → Option Machine
  | .wantedEntries answer =>
    if cycle.phase = .entered then
      match answer with
      | none => some { m with worker.cycle := none }
      | some entries =>
        if cycle.snap.view.owned = [] ∨ m.aliveOf cycle.snap.session = false ∨ entries = [] then
          some { m with worker.cycle := none }
        else some (m.setCycle { cycle with rest := entries, phase := .top })
    else none
  | .cycleTop =>
    if cycle.phase = .top then
      match cycle.rest with
      | [] => some (m.setCycle { cycle with phase := .ending })
      | _ :: _ => some ((m.setCycle { cycle with phase := .batching }).setFlush .called)
    else none
  | .batch due =>
    if cycle.phase = .batching then
      some (if due then
        { m with worker := { m.worker with
          cycle := some { cycle with body := [], phase := .tests }, posting := m.flushBatch cycle } }
      else m.setCycle { cycle with phase := .tests })
    else none
  | .endCycle running =>
    if cycle.phase = .ending then
      some { m with worker := { m.worker with
        cycle := none
        posting := if running && m.stillIn cycle.snap then m.flushBatch cycle else none } }
    else none
  | e => m.entryStep cycle e

/-- One event; the worker goes on with a submission first, then with a flush, then with
its sweep. -/
def act (m : Machine) : Event → Option Machine
  | .observePackage packageId available contents =>
    if m.updating = none then some { m with own := m.own.observePackage packageId available contents } else none
  | .onLicenseList message =>
    if m.updating = none then
      some { m with
        own := m.own.onLicenseList message
        generation := m.generation + 1
        updating := some (.licenseList message.succeeded) }
    else none
  | .onLoggedOff =>
    if m.updating = none then
      some { m with
        own := m.own.onLoggedOff
        generation := m.generation + 1
        updating := some .loggedOff }
    else none
  | .publishSession => m.updating.map m.publishSession
  | .clearCaptured => if m.clears = 0 then none else some { m with clears := m.clears - 1, queue := [] }
  | .submitCapturedCode depotId gid code generation enabled seen =>
    some (m.submitCapturedCode depotId gid code generation enabled seen)
  | .tick ms => some { m with now := m.now + ms }
  | .beginCycle =>
    if m.updating = none ∧ m.worker = {} then
      some (if m.own.licenseReady then m.setCycle { snap := m.snapshot } else m)
    else none
  | .post running enabled => m.worker.posting.map fun s => m.post s running enabled
  | e =>
    if m.worker.posting.isSome then none
    else match m.flushStep m.worker.flush e with
      | some t => some t
      | none =>
        match m.worker.flush, m.worker.cycle with
        | .idle, some cycle => m.cycleStep cycle e
        | _, _ => none

/-- The event and the view of the state that it leads to. -/
def step (m : Machine) (e : Event) : Option Machine :=
  (m.act e).map fun t => { t with history := t.history ++ [t.view] }

end Machine
end SlsteamMoon.ManifestDonor
