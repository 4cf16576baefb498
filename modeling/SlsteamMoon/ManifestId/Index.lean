import SlsteamMoon.Runs
import Mathlib.Data.List.Sort
import Mathlib.Logic.Function.Basic

/-! Which stplug-in script owns which manifest pin. The sets are ascending lists. -/
namespace SlsteamMoon.ManifestId

abbrev AppId := UInt32
abbrev DepotId := UInt32

def setInsert (x : UInt32) (set : List UInt32) : List UInt32 :=
  if x ∈ set then set else List.orderedInsert (· ≤ ·) x set

structure AppDepotIndex where
  appDepots : AppId → Option (List DepotId) := fun _ => none
  depotApps : DepotId → Option (List AppId) := fun _ => none

namespace AppDepotIndex

def desiredSet (depots : List DepotId) : List DepotId :=
  depots.foldl (fun desired d => if d ≠ 0 then setInsert d desired else desired) []

/-- Take the app out of a depot's owners; an emptied set is erased. -/
def disown (depotApps : DepotId → Option (List AppId)) (appId : AppId) (d : DepotId) :
    DepotId → Option (List AppId) :=
  match depotApps d with
  | none => depotApps
  | some owners =>
    Function.update depotApps d (if owners.erase appId = [] then none else some (owners.erase appId))

/-- The loop of replaceApp over the depots the app had. -/
def releaseMissing (appId : AppId) (desired : List DepotId) :
    List DepotId → List DepotId × (DepotId → Option (List AppId)) →
      List DepotId × (DepotId → Option (List AppId))
  | [], acc => acc
  | d :: rest, (released, depotApps) =>
    if d ∈ desired then releaseMissing appId desired rest (released, depotApps)
    else
      let gone := match depotApps d with
        | none => true
        | some owners => owners.length = 1
      releaseMissing appId desired rest
        (if gone then released ++ [d] else released, disown depotApps appId d)

def own (appId : AppId) (depotApps : DepotId → Option (List AppId)) (d : DepotId) :
    DepotId → Option (List AppId) :=
  Function.update depotApps d (some (setInsert appId ((depotApps d).getD [])))

def replaceApp (index : AppDepotIndex) (appId : AppId) (depots : List DepotId) :
    List DepotId × AppDepotIndex :=
  if appId = 0 then ([], index)
  else
    let desired := desiredSet depots
    let (released, depotApps) :=
      releaseMissing appId desired ((index.appDepots appId).getD []) ([], index.depotApps)
    if desired = [] then
      (released, ⟨Function.update index.appDepots appId none, depotApps⟩)
    else
      (released, ⟨Function.update index.appDepots appId (some desired), desired.foldl (own appId) depotApps⟩)

def depotsForApp (index : AppDepotIndex) (appId : AppId) : List DepotId :=
  (index.appDepots appId).getD []

def exclusiveDepotsForApp (index : AppDepotIndex) (appId : AppId) : List DepotId :=
  (index.depotsForApp appId).filter fun d =>
    match index.depotApps d with
    | some owners => owners.length = 1
    | none => false

def releaseApp (index : AppDepotIndex) (appId : AppId) : List DepotId × AppDepotIndex :=
  match index.appDepots appId with
  | none => ([], index)
  | some depots =>
    (index.exclusiveDepotsForApp appId,
      ⟨Function.update index.appDepots appId none,
        depots.foldl (fun depotApps d => disown depotApps appId d) index.depotApps⟩)

end AppDepotIndex
end SlsteamMoon.ManifestId

/-! The pin catalogue: one record file for each depot, an in-memory map loaded on the
first read, and the calls that write, retire and quarantine the files. -/
namespace SlsteamMoon.ManifestId

abbrev Gid := List Char

/-- What the YAML of one record file holds when it can be read. -/
structure PinNode where
  depotId : DepotId
  gid : Gid
  deriving DecidableEq, Repr

inductive PinFile where
  | unreadable
  | node (n : PinNode)
  deriving DecidableEq, Repr

/-- The manifestid_*.yaml files by number; a record names the depot of its file. -/
structure Disk where
  file : DepotId → Option PinFile
  named : ∀ d n, file d = some (.node n) → n.depotId = d ∧ d ≠ 0

namespace Disk

def empty : Disk := ⟨fun _ => none, fun _ _ h => by cases h⟩

/-- The gid of the on-disk pin record. -/
def record (disk : Disk) (d : DepotId) : Option Gid :=
  match disk.file d with
  | some (.node n) => some n.gid
  | _ => none

def put (disk : Disk) (n : PinNode) (h : n.depotId ≠ 0) : Disk where
  file := Function.update disk.file n.depotId (some (.node n))
  named d k hk := by
    by_cases hd : d = n.depotId
    · subst hd
      rw [Function.update_self] at hk
      obtain rfl := PinFile.node.inj (Option.some.inj hk)
      exact ⟨rfl, h⟩
    · rw [Function.update_of_ne hd] at hk
      exact disk.named d k hk

/-- Set a file to something that is no record. -/
def clear (disk : Disk) (d : DepotId) (file : Option PinFile) (h : ∀ n, file ≠ some (.node n)) : Disk where
  file := Function.update disk.file d file
  named e k hk := by
    by_cases he : e = d
    · subst he
      rw [Function.update_self] at hk
      exact absurd hk (h k)
    · rw [Function.update_of_ne he] at hk
      exact disk.named e k hk

def spoil (disk : Disk) (d : DepotId) : Disk := disk.clear d (some .unreadable) (by simp)

def remove (disk : Disk) (d : DepotId) : Disk := disk.clear d none (by simp)

end Disk

/-- One process on the cache directory. -/
structure Process where
  disk : Disk
  catalog : DepotId → Option Gid := fun _ => none
  loaded : Bool := false
  index : AppDepotIndex := {}

/-- What the file system does with savePin's ofstream; a short write goes unnoticed. -/
inductive WriteIo where
  | refused | short | complete
  deriving DecidableEq, Repr

namespace Process

def start (disk : Disk) : Process := { disk }

def loadCatalogLocked (p : Process) : Process :=
  if p.loaded then p
  else { p with
    loaded := true
    catalog := fun d =>
      match p.disk.file d with
      | some (.node n) => if n.depotId ≠ 0 ∧ n.gid ≠ [] then some n.gid else p.catalog d
      | _ => p.catalog d }

/-- The empty string when the catalogue has no entry. -/
def getPinnedGid (p : Process) (d : DepotId) : Gid × Process :=
  ((p.loadCatalogLocked.catalog d).getD [], p.loadCatalogLocked)

def validPin (d : DepotId) (gid : Gid) : Bool :=
  d ≠ 0 && gid ≠ [] && gid.all fun c => '0' ≤ c && c ≤ '9'

def remember (p : Process) (d : DepotId) (gid : Gid) : Process :=
  { p with catalog := Function.update p.catalog d (some gid), loaded := true }

def savePin (p : Process) (d : DepotId) (gid : Gid) (io : WriteIo) : Bool × Process :=
  if h : validPin d gid then
    -- an equal file is not written again
    if p.disk.file d = some (.node ⟨d, gid⟩) then (true, p.remember d gid)
    else match io with
      | .refused => (false, p)
      | .short => (true, Process.remember { p with disk := p.disk.spoil d } d gid)
      | .complete => (true, Process.remember
          { p with disk := p.disk.put ⟨d, gid⟩ (by simp [validPin] at h; exact h.1.1) } d gid)
  else (false, p)

/-- One turn of the loop of retireDepots: an unremovable file keeps its entry. -/
def retireOne (removes : DepotId → Bool) (p : Process) (d : DepotId) : Process :=
  if d = 0 ∨ removes d = false then p
  else { p with disk := p.disk.remove d, catalog := Function.update p.catalog d none }

def retireDepotsLocked (p : Process) (depotIds : List DepotId) (removes : DepotId → Bool) : Process :=
  depotIds.foldl (retireOne removes) p.loadCatalogLocked

def retireDepots (p : Process) (depotIds : List DepotId) (removes : DepotId → Bool) : Process :=
  if depotIds = [] then p else p.retireDepotsLocked depotIds removes

/-- The end of importLuaScripts for one script: its relations replaced, the released depots retired. -/
def replaceScript (p : Process) (appId : AppId) (depots : List DepotId) (removes : DepotId → Bool) : Process :=
  let (released, index) := p.index.replaceApp appId depots
  retireDepotsLocked { p with index } released removes

/-- One depot file of quarantineAppArtifacts. -/
def quarantineOne (moves : DepotId → Bool) (disk : Disk) (d : DepotId) : Disk :=
  if d ≠ 0 ∧ (disk.file d).isSome ∧ moves d then disk.remove d else disk

/-- The file quarantine of forgetAppImpl; the relation is dropped only when every
artifact of the app has gone. -/
def forgetApp (p : Process) (appId : AppId) (moves : DepotId → Bool) (othersGone : Bool) : Process :=
  if appId = 0 then p
  else
    let related := p.index.exclusiveDepotsForApp appId
    let disk := related.foldl (quarantineOne moves) p.disk
    let complete := othersGone && related.all fun d => d = 0 || (disk.file d).isNone
    { p with disk, index := if complete then (p.index.releaseApp appId).2 else p.index }

inductive Event where
  | restart
  | savePin (d : DepotId) (gid : Gid) (io : WriteIo)
  | stopInSave (d : DepotId)
  | retireDepots (depotIds : List DepotId) (removes : DepotId → Bool)
  | replaceScript (appId : AppId) (depots : List DepotId) (removes : DepotId → Bool)
  | forgetApp (appId : AppId) (moves : DepotId → Bool) (othersGone : Bool)
  | getPinnedGid (d : DepotId)

/-- A stop inside savePin leaves the truncated file to the next process. -/
def step (p : Process) : Event → Option Process
  | .restart => some (start p.disk)
  | .savePin d gid io => some (p.savePin d gid io).2
  | .stopInSave d => some (start (p.disk.spoil d))
  | .retireDepots ds removes => some (p.retireDepots ds removes)
  | .replaceScript a ds removes => some (p.replaceScript a ds removes)
  | .forgetApp a moves gone => some (p.forgetApp a moves gone)
  | .getPinnedGid d => some (p.getPinnedGid d).2

/-- The depots a call is about. -/
def targets (p : Process) : Event → List DepotId
  | .restart | .getPinnedGid _ => []
  | .savePin d _ _ | .stopInSave d => [d]
  | .retireDepots ds _ => ds
  | .replaceScript a ds _ => (p.index.replaceApp a ds).1
  | .forgetApp a _ _ => p.index.exclusiveDepotsForApp a

end Process
end SlsteamMoon.ManifestId
