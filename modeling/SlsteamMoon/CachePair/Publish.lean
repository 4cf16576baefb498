import SlsteamMoon.Runs
import SlsteamMoon.ProvisionCache.Metadata

/-! publishCachePairLocked access by access. Its caller holds the publication mutex and
the cache lock, so nobody else touches the pair. -/
namespace SlsteamMoon.CachePair
open KeyValues Runs ProvisionCache

inductive Member where
  | buffer
  | metadata
  deriving DecidableEq

/-- `backup` is the staging copy beside each member; `terminal` and `dlcMetadata` tell
whether the two sidecars are there. -/
structure Disk where
  file : Member → Option Bytes
  backup : Member → Option Bytes
  marker : Bool
  terminal : Bool
  dlcMetadata : Bool

structure Publication where
  path : Member → String
  content : Member → Bytes
  synthetic : Bool
  markerBefore : Bool

/-- The access that comes next. -/
inductive Phase where
  | eraseTerminal
  | inspect (m : Member)
  | copyFile (m : Member)
  | unstage
  | prepareTemp (m : Member)
  | renameTemp (m : Member)
  | setMarker
  | markerIsPresent (operationSucceeded : Bool)
  | resetMarker
  | restoreBuffer
  | restoreMetadata (bufferRestored : Bool)
  | discardBackup (m : Member)
  | removeDlcMetadata
  | returned (result : Bool)
  deriving DecidableEq

structure State where
  disk : Disk
  staged : Member → Bool := fun _ => false
  phase : Phase := .eraseTerminal
  error : String := ""

/-- `failure` is the message of an access that failed. A marker callback may leave the
marker in either state and answer either way. -/
inductive Event where
  | eraseTerminal (ok : Bool)
  | inspect (failure : Option String) (staleRemoved : Bool)
  | copyPart (copy : Option Bytes)
  | copyFile (failure : Option String)
  | prepareTemp (failure : Option String)
  | renameTemp (failure : Option String)
  | setMarker (present result : Bool)
  | markerIsPresent (reported : Bool)
  | restoreMember (inspected : Bool) (failure : Option String)
  | discardBackup (ok : Bool)
  | removeDlcMetadata (ok : Bool)
  deriving DecidableEq

namespace Disk

def setFile (d : Disk) (m : Member) (file : Option Bytes) : Disk :=
  { d with file := Function.update d.file m file }

def setBackup (d : Disk) (m : Member) (copy : Option Bytes) : Disk :=
  { d with backup := Function.update d.backup m copy }

/-- Both members. -/
def pair (d : Disk) : Option Bytes × Option Bytes := (d.file .buffer, d.file .metadata)

end Disk

/-- What restoreMember leaves: the disk, what it appends to the error and its result. -/
structure Restored where
  disk : Disk
  report : String
  result : Bool

/-- `none` when the rename has no source. `inspected` is whether exists could tell. -/
def restoreMember (path : String) (m : Member) (d : Disk) (staged inspected : Bool) (failure : Option String) :
    Option Restored :=
  if staged then
    match failure with
    | some message => some ⟨d, "; unable to restore cache member " ++ path ++ ": " ++ message, false⟩
    | none =>
      match d.backup m with
      | some copy => some ⟨(d.setFile m (some copy)).setBackup m none, "", true⟩
      | none => none
  else if ¬ inspected then some ⟨d, "", false⟩
  else
    match d.file m, failure with
    | none, _ => some ⟨d, "", true⟩
    | some _, some message => some ⟨d, "; unable to remove failed cache member " ++ path ++ ": " ++ message, false⟩
    | some _, none => some ⟨d.setFile m none, "", true⟩

namespace State

def start (disk : Disk) : State := { disk }

def goto (s : State) (phase : Phase) : State := { s with phase }

def fail (s : State) (phase : Phase) (error : String) : State := { s with phase, error }

/-- stageMember returned false. -/
def stagingFailed (s : State) (m : Member) (error : String) : State :=
  match m with
  | .buffer => s.fail (.returned false) error
  | .metadata => s.fail .unstage error

/-- stageMember returned true. -/
def stagingDone (s : State) (m : Member) (staged : Bool) : State :=
  { s with
    staged := Function.update s.staged m staged
    phase := match m with
      | .buffer => .inspect .metadata
      | .metadata => .prepareTemp .buffer }

def writeDone (s : State) (m : Member) : State :=
  s.goto (match m with
    | .buffer => .prepareTemp .metadata
    | .metadata => .setMarker)

def step (c : Publication) (s : State) : Event → Option State
  | .eraseTerminal ok =>
    match s.phase with
    | .eraseTerminal =>
      some (if ok then { s with disk.terminal := false, phase := .inspect .buffer }
        else s.fail (.returned false) "unable to invalidate terminal sidecar")
    | _ => none
  | .inspect failure staleRemoved =>
    match s.phase with
    | .inspect m =>
      match failure, s.disk.file m with
      | some message, _ =>
        some (s.stagingFailed m ("cannot inspect cache pair member " ++ c.path m ++ ": " ++ message))
      | none, some _ => some (s.goto (.copyFile m))
      -- the copy of a crashed publication describes no visible member
      | none, none =>
        some ({ s with disk := if staleRemoved then s.disk.setBackup m none else s.disk }.stagingDone m false)
    | _ => none
  | .copyPart copy =>
    match s.phase with
    | .copyFile m => some { s with disk := s.disk.setBackup m copy }
    | _ => none
  | .copyFile failure =>
    match s.phase with
    | .copyFile m =>
      match failure, s.disk.file m with
      | some message, _ =>
        some (s.stagingFailed m ("cannot stage cache pair member " ++ c.path m ++ ": " ++ message))
      | none, some content => some ({ s with disk := s.disk.setBackup m (some content) }.stagingDone m true)
      | none, none => none
    | _ => none
  | .prepareTemp failure =>
    match s.phase with
    | .prepareTemp m =>
      some (match failure with
        | some message => s.fail .restoreBuffer message
        | none => s.fail (.renameTemp m) "")
    | _ => none
  | .renameTemp failure =>
    match s.phase with
    | .renameTemp m =>
      some (match failure with
        | some message => s.fail .restoreBuffer ("rename failed: " ++ message)
        | none => { s with disk := s.disk.setFile m (some (c.content m)) }.writeDone m)
    | _ => none
  | .setMarker present result =>
    match s.phase with
    | .setMarker => some { s with disk.marker := present, phase := .markerIsPresent result }
    | .resetMarker =>
      some { s with
        disk.marker := present
        phase := .restoreBuffer
        error := s.error ++ if result then "" else "; cache marker rollback failed" }
    | _ => none
  | .markerIsPresent reported =>
    match s.phase with
    | .markerIsPresent operationSucceeded =>
      some (if syntheticMarkerPublicationConsistent c.synthetic operationSucceeded reported then
          s.goto (.discardBackup .buffer)
        else s.fail .resetMarker
          (if operationSucceeded then "cache marker state is inconsistent" else "cache marker publication failed"))
    | _ => none
  | .restoreMember inspected failure =>
    match s.phase with
    | .unstage =>
      (restoreMember (c.path .buffer) .buffer s.disk (s.staged .buffer) inspected failure).map fun r =>
        { s with disk := r.disk, phase := .returned false, error := s.error ++ r.report }
    | .restoreBuffer =>
      (restoreMember (c.path .buffer) .buffer s.disk (s.staged .buffer) inspected failure).map fun r =>
        { s with disk := r.disk, phase := .restoreMetadata r.result, error := s.error ++ r.report }
    | .restoreMetadata bufferRestored =>
      (restoreMember (c.path .metadata) .metadata s.disk (s.staged .metadata) inspected failure).map fun r =>
        { s with
          disk := r.disk
          phase := .returned false
          error := s.error ++ r.report ++
            if bufferRestored && r.result then "" else "; previous cache pair could not be restored" }
    | _ => none
  | .discardBackup ok =>
    match s.phase with
    | .discardBackup m =>
      some { s with
        disk := if s.staged m ∧ ok then s.disk.setBackup m none else s.disk
        phase := match m with
          | .buffer => .discardBackup .metadata
          | .metadata => .removeDlcMetadata }
    | _ => none
  | .removeDlcMetadata ok =>
    match s.phase with
    | .removeDlcMetadata =>
      some { s with disk.dlcMetadata := s.disk.dlcMetadata && !ok, phase := .returned true }
    | _ => none

end State
end SlsteamMoon.CachePair
