import SlsteamMoon.KeyValues.Text
import SlsteamMoon.Runs
import Mathlib.Data.Finset.Basic
import Mathlib.Data.List.Sort

/-! The ticket caches: threads that get and save tickets, and the watcher that forgets and
restores apps after a reload. A step is what a thread does between two points at which
another can be scheduled; what a file holds comes with the event. -/
namespace SlsteamMoon.TicketCache
open KeyValues (Bytes)

abbrev AppId := UInt32

structure SavedTicket where
  steamId : UInt64 := 0
  ticket : Bytes := []
  deriving DecidableEq

/-- ticketMap and encryptedTicketMap, each with its files. -/
inductive Cache
  | plain
  | encrypted
  deriving DecidableEq

inductive Job
  | get
  | save (bytes : Bytes)
  deriving DecidableEq

/-- A call of one of the four functions. -/
structure Call where
  cache : Cache
  appId : AppId
  job : Job
  deriving DecidableEq

inductive Result
  | ticket (ticket : SavedTicket)
  | saved (done : Bool)
  deriving DecidableEq

/-- Where a thread is. From `locked` to `leaving` it holds the mutex; in `left` it has yet to
return. -/
inductive Phase
  | idle
  | called (call : Call)
  | locked (call : Call)
  | passed (call : Call)
  | missed (call : Call)
  | loaded (call : Call) (ticket : SavedTicket)
  | opened (call : Call) (bytes : Bytes)
  | written (call : Call) (bytes : Bytes)
  | leaving (call : Call) (result : Result)
  | left (call : Call) (result : Result)
  deriving DecidableEq

inductive Act
  | call (call : Call)
  | elsewhere
  | lock
  | check
  | look
  | load (answer : Option SavedTicket)
  | openFile (opened : Bool)
  | write (good : Bool)
  | publish (steamId : UInt64)
  | unlock
  | throws
  | ret

/-- Where forgetApp or restoreApp is with the app at the head of its list. -/
inductive Stage
  | next
  | locked
  | inserted
  | erased
  | done
  deriving DecidableEq

/-- Where onFileChange is. -/
inductive Watch
  | idle
  | loading (before : List AppId)
  | forgetting (before after todo : List AppId) (stage : Stage)
  | restoring (before after todo : List AppId) (stage : Stage)
  deriving DecidableEq

inductive Holder
  | watcher
  | thread (n : Nat)
  deriving DecidableEq

/-- What is seen of the machine: the ends of forgetApp, the effects of restoreApp, the files
that are opened for writing, and the ends of the transactions and of the calls. -/
inductive Action
  | forgot (appId : AppId)
  | restored (appId : AppId)
  | wrote (cache : Cache) (appId : AppId)
  | left (call : Call) (result : Result)
  | returned (call : Call) (result : Result)
  deriving DecidableEq

/-- `ever` and `trace` are history: the apps of the start and of the completed reloads, and
what was seen, the newest first. -/
structure Machine where
  invalidatedApps : Finset AppId := ∅
  maps : Cache → AppId → Option SavedTicket := fun _ _ => none
  cacheMutex : Option Holder := none
  threads : Nat → Phase := fun _ => .idle
  addedAppIds : List AppId
  watch : Watch := .idle
  ever : List AppId
  trace : List Action := []

inductive Event
  | thread (n : Nat) (act : Act)
  | beginReload
  | loadSettings (after : List AppId)
  | watcher

/-- The apps of the first set that are not in the second, in order. -/
def removedAppIds (before after : List AppId) : List AppId :=
  (before.filter fun appId => appId ∉ after).mergeSort (· ≤ ·)

/-- The return of a call that finds the tombstone. -/
def Job.rejected : Job → Result
  | .get => .ticket {}
  | .save _ => .saved false

/-- The thread holds the mutex. -/
def Phase.inside : Phase → Bool
  | .idle | .called _ | .left _ _ => false
  | _ => true

namespace Machine

/-- The settings are loaded once before the watcher and the hooks. -/
def start (added : List AppId) : Machine := { addedAppIds := added, ever := added }

def goes (m : Machine) (n : Nat) (phase : Phase) : Machine := { m with threads := Function.update m.threads n phase }

def sees (m : Machine) (action : Action) : Machine := { m with trace := action :: m.trace }

/-- map[appId] = ticket, or erase. -/
def setMap (m : Machine) (cache : Cache) (appId : AppId) (ticket : Option SavedTicket) : Machine :=
  { m with maps := Function.update m.maps cache (Function.update (m.maps cache) appId ticket) }

def act (m : Machine) (n : Nat) : Phase → Act → Option Machine
  | .idle, .call call => some (m.goes n (.called call))
  -- an app that runs under another id has no encrypted ticket, and the mutex is not taken
  | .called ⟨.encrypted, appId, .get⟩, .elsewhere => some (m.goes n (.left ⟨.encrypted, appId, .get⟩ (.ticket {})))
  | .called call, .lock =>
    if m.cacheMutex = none then some ({ m with cacheMutex := some (.thread n) }.goes n (.locked call)) else none
  | .locked call, .check =>
    some (m.goes n (if call.appId ∈ m.invalidatedApps then .leaving call call.job.rejected else .passed call))
  | .passed ⟨cache, appId, .get⟩, .look =>
    match m.maps cache appId with
    | some ticket => some (m.goes n (.leaving ⟨cache, appId, .get⟩ (.ticket ticket)))
    | none => some (m.goes n (.missed ⟨cache, appId, .get⟩))
  -- none is a file that is not there or cannot be parsed
  | .missed call, .load none => some (m.goes n (.leaving call (.ticket {})))
  | .missed call, .load (some ticket) => some (m.goes n (.loaded call ticket))
  | .loaded call ticket, .publish _ =>
    some ((m.setMap call.cache call.appId (some ticket)).goes n (.leaving call (.ticket ticket)))
  | .passed ⟨cache, appId, .save bytes⟩, .openFile opened =>
    if opened then some ((m.sees (.wrote cache appId)).goes n (.opened ⟨cache, appId, .save bytes⟩ bytes))
    else some (m.goes n (.leaving ⟨cache, appId, .save bytes⟩ (.saved false)))
  | .opened call bytes, .write good =>
    some (m.goes n (if good then .written call bytes else .leaving call (.saved false)))
  | .written call bytes, .publish steamId =>
    some ((m.setMap call.cache call.appId (some ⟨steamId, bytes⟩)).goes n (.leaving call (.saved true)))
  | .leaving call result, .unlock =>
    some (({ m with cacheMutex := none }.sees (.left call result)).goes n (.left call result))
  | .left call result, .ret => some ((m.sees (.returned call result)).goes n .idle)
  | phase, .throws => if phase.inside then some ({ m with cacheMutex := none }.goes n .idle) else none
  | _, _ => none

/-- forgetApp for the head of the list. -/
def forget (m : Machine) (before after : List AppId) (appId : AppId) (todo : List AppId) : Stage → Option Machine
  | .next =>
    if appId = 0 then some ({ m with watch := .forgetting before after todo .next }.sees (.forgot 0))
    else if m.cacheMutex = none then
      some { m with cacheMutex := some .watcher, watch := .forgetting before after (appId :: todo) .locked }
    else none
  | .locked =>
    some { m with
      invalidatedApps := insert appId m.invalidatedApps
      watch := .forgetting before after (appId :: todo) .inserted }
  | .inserted => some { m.setMap .plain appId none with watch := .forgetting before after (appId :: todo) .erased }
  | .erased => some { m.setMap .encrypted appId none with watch := .forgetting before after (appId :: todo) .done }
  | .done =>
    some ({ m with cacheMutex := none, watch := .forgetting before after todo .next }.sees (.forgot appId))

/-- restoreApp for the head of the list. -/
def restore (m : Machine) (before after : List AppId) (appId : AppId) (todo : List AppId) : Stage → Option Machine
  | .next =>
    if appId = 0 then some ({ m with watch := .restoring before after todo .next }.sees (.restored 0))
    else if m.cacheMutex = none then
      some { m with cacheMutex := some .watcher, watch := .restoring before after (appId :: todo) .locked }
    else none
  | .locked =>
    some ({ m with
      invalidatedApps := m.invalidatedApps.erase appId
      watch := .restoring before after (appId :: todo) .done }.sees (.restored appId))
  | .done => some { m with cacheMutex := none, watch := .restoring before after todo .next }
  | _ => none

/-- The next step of the watcher after the settings are loaded. -/
def watcher (m : Machine) : Option Machine :=
  match m.watch with
  | .forgetting before after (appId :: todo) stage => m.forget before after appId todo stage
  | .forgetting before after [] _ =>
    some { m with watch := .restoring before after (after.filter fun appId => appId ∉ before) .next }
  | .restoring before after (appId :: todo) stage => m.restore before after appId todo stage
  | .restoring _ after [] _ => some { m with watch := .idle, ever := m.ever ++ after }
  | _ => none

def step (m : Machine) : Event → Option Machine
  | .thread n act => m.act n (m.threads n) act
  | .beginReload => if m.watch = .idle then some { m with watch := .loading m.addedAppIds } else none
  | .loadSettings after =>
    match m.watch with
    | .loading before =>
      some { m with addedAppIds := after, watch := .forgetting before after (removedAppIds before after) .next }
    | _ => none
  | .watcher => m.watcher

end Machine

/-- forgetApp has ended, and restoreApp has not taken effect since. -/
def Gone : List Action → AppId → Prop
  | [], _ => False
  | .forgot appId :: older, a => a = appId ∨ Gone older a
  | .restored appId :: older, a => a ≠ appId ∧ Gone older a
  | _ :: older, a => Gone older a

/-- A save opens a file of the app, or a get returns a ticket for it. -/
def Uses (a : AppId) : Action → Prop
  | .wrote _ appId => appId = a
  | .returned call (.ticket ticket) => call.appId = a ∧ ticket ≠ {}
  | _ => False

/-- A save opens a file of the app, or a get ends its transaction with a ticket for it. -/
def Takes (a : AppId) : Action → Prop
  | .wrote _ appId => appId = a
  | .left call (.ticket ticket) => call.appId = a ∧ ticket ≠ {}
  | _ => False

/-- Nothing of the kind is seen while the app is gone. -/
def Never (kind : AppId → Action → Prop) : List Action → AppId → Prop
  | [], _ => True
  | action :: older, a => (Gone older a → ¬kind a action) ∧ Never kind older a

namespace Machine

/-- After a reload the tombstones are the apps that were active before and are not now. -/
def TombstonesExact (m : Machine) : Prop :=
  m.watch = .idle → ∀ a, a ∈ m.invalidatedApps ↔ a ≠ 0 ∧ a ∈ m.ever ∧ a ∉ m.addedAppIds

/-- Neither map has an entry for the app while it is gone. -/
def MapsClear (m : Machine) (a : AppId) : Prop := Gone m.trace a → ∀ cache, m.maps cache a = none

end Machine
end SlsteamMoon.TicketCache
