import SlsteamMoon.KeyValues.Decode
import SlsteamMoon.Runs

/-! The v41 appinfo file: its in-memory form, the reader, the serializer and the
merge of one cached record. Sizes and offsets are 32 bits wide. -/
namespace SlsteamMoon.AppInfo

open KeyValues

/-- A SHA-1 value. -/
abbrev Digest := { bytes : Bytes // bytes.length = 20 }

structure AppEntry where
  appid : UInt32
  infoState : UInt32
  lastUpdated : UInt32
  picsToken : UInt64
  sha : Digest
  changeNumber : UInt32
  binaryHash : Digest
  binaryVdf : Bytes
  deriving DecidableEq

structure AppInfoFile where
  universeId : UInt32
  apps : List AppEntry
  table : StringTable

def magicV41 : Nat := 0x07564429

def le32 (data : Bytes) : Nat := ((readLE32 data).map Prod.fst).getD 0

def le64 (data : Bytes) : Nat := le32 data + 0x100000000 * le32 (data.drop 4)

theorem le32_lt (data : Bytes) : le32 data < 0x100000000 := by
  match data with
  | a :: b :: c :: d :: rest =>
    have ha := a.toNat_lt
    have hb := b.toNat_lt
    have hc := c.toNat_lt
    have hd := d.toNat_lt
    simp only [le32, readLE32, Option.map_some, Option.getD_some]
    omega
  | [] | [_] | [_, _] | [_, _, _] => exact Nat.zero_lt_succ _

def writeLE64 (n : Nat) : Bytes := writeLE32 n ++ writeLE32 (n / 0x100000000)

private theorem resolves_pushed (f : StringTable) (s t : Bytes) (i : Nat)
    (h : (if (f.stringIndex s).isSome = true then f.stringIndex
      else Function.update f.stringIndex s (some f.strings.length)) t = some i) :
    (f.strings ++ [s])[i]? = some t := by
  split at h
  · exact StringTable.resolves_appended h s
  · exact f.resolves_update s t i h

/-- One string read from a file; the index keeps the first of equal strings. -/
def pushString (f : StringTable) (s : Bytes) : Except Failure StringTable :=
  if h : f.strings.length < maxStrings then
    .ok
      { strings := f.strings ++ [s]
        stringIndex :=
          if (f.stringIndex s).isSome = true then f.stringIndex
          else Function.update f.stringIndex s (some f.strings.length)
        resolves := resolves_pushed f s
        bounded := f.bounded_appended s h }
  else .error (.thrown "vector::_M_realloc_append")

def readStrings : Nat → Bytes → StringTable → Except Failure StringTable
  | 0, _, f => .ok f
  | count + 1, p, f =>
    match readCString p with
    | none => .error (.returned "string table missing terminator")
    | some (s, p) => do
      let f ← pushString f s
      readStrings count p f

/-- reserve throws past max_size. -/
def readTable (data : Bytes) : Except Failure StringTable :=
  if data.length < 4 then .error (.returned "string table truncated")
  else
    let count := le32 data
    if count > maxStrings then .error (.thrown "vector::reserve")
    else readStrings count (data.drop 4) emptyTable

def headerBytes : Nat := 60

/-- The fields of an entry behind its size. -/
def readEntry (appid : Nat) (body : Bytes) (h : headerBytes ≤ body.length) : AppEntry where
  appid := UInt32.ofNat appid
  infoState := UInt32.ofNat (le32 body)
  lastUpdated := UInt32.ofNat (le32 (body.drop 4))
  picsToken := UInt64.ofNat (le64 (body.drop 8))
  sha := ⟨(body.drop 16).take 20, by simp [headerBytes] at h ⊢; omega⟩
  changeNumber := UInt32.ofNat (le32 (body.drop 36))
  binaryHash := ⟨(body.drop 40).take 20, by simp [headerBytes] at h ⊢; omega⟩
  binaryVdf := body.drop headerBytes

/-- Entries up to the zero app id; the region ends at the string table. The
fuel is the length of the region. -/
def readApps : Nat → Bytes → Except Failure (List AppEntry)
  | 0, _ => .ok []
  | fuel + 1, region =>
    if region.isEmpty = true then .ok []
    else if region.length < 4 then .error (.returned "truncated before footer")
    else
      let appid := le32 region
      if appid = 0 then .ok []
      else if region.length < 8 then .error (.returned "truncated entry header")
      else
        let entrySize := le32 (region.drop 4)
        let body := (region.drop 8).take entrySize
        if entrySize > region.length - 8 then .error (.returned "entry size exceeds remaining bytes")
        else if h : headerBytes ≤ body.length then do
          let rest ← readApps fuel ((region.drop 8).drop entrySize)
          return readEntry appid body h :: rest
        else .error (.returned "entry header smaller than expected")

/-- A file as it is read whole; none is a path that cannot be opened. -/
def readV41 (contents : Option Bytes) : Except Failure AppInfoFile :=
  match contents with
  | none => .error (.returned "cannot open")
  | some buf =>
    if buf.length < 16 then .error (.returned "file too small")
    else if le32 buf ≠ magicV41 then .error (.returned "unsupported magic (only v41 supported)")
    else
      -- the 64-bit offset is narrowed to size_t
      let stringTableOffset := le32 (buf.drop 8)
      if stringTableOffset < 16 ∨ stringTableOffset > buf.length then
        .error (.returned "string table offset out of range")
      else do
        let table ← readTable (buf.drop stringTableOffset)
        let region := (buf.take stringTableOffset).drop 16
        let apps ← readApps region.length region
        return ⟨UInt32.ofNat (le32 (buf.drop 4)), apps, table⟩

def hasV41Magic (contents : Option Bytes) : Bool :=
  match contents with
  | none => false
  | some buf => decide (4 ≤ buf.length) && le32 buf == magicV41

def serializeEntry (e : AppEntry) : Bytes :=
  let body := writeLE32 e.infoState.toNat ++ writeLE32 e.lastUpdated.toNat ++ writeLE64 e.picsToken.toNat ++
    e.sha.val ++ writeLE32 e.changeNumber.toNat ++ e.binaryHash.val ++ e.binaryVdf
  writeLE32 e.appid.toNat ++ writeLE32 body.length ++ body

def serializeV41 (f : AppInfoFile) : Bytes :=
  let body := f.apps.flatMap serializeEntry ++ writeLE32 0
  writeLE32 magicV41 ++ writeLE32 f.universeId.toNat ++ writeLE64 (16 + body.length) ++ body ++
    writeLE32 f.table.strings.length ++ f.table.strings.flatMap fun s => s ++ [0]

/-- A record to merge; its SHA comes from a file and may have any length. -/
structure CachedBuffer where
  appid : UInt32
  changeNumber : UInt32
  sha : Bytes
  buffer : Bytes

/-- Replace the first entry of the app, or append. -/
def replaceEntry (entry : AppEntry) : List AppEntry → List AppEntry
  | [] => [entry]
  | e :: rest => if e.appid = entry.appid then entry :: rest else e :: replaceEntry entry rest

/-- The answer with the file as the call leaves it; `true` is a change. -/
def mergeAppImpl (sha1 : Bytes → Digest) (f : AppInfoFile) (record : CachedBuffer) :
    Except Failure Bool × AppInfoFile :=
  if hsha : record.sha.length = 20 then
    if record.buffer.isEmpty = true then (.error (.returned "wire buffer empty"), f)
    else if (f.apps.any fun e =>
        e.appid == record.appid && e.changeNumber == record.changeNumber && e.sha.val == record.sha) = true then
      (.ok false, f)
    else
      match translateWireToIndexed record.buffer f.table with
      | .error failed => (.error failed.failure, { f with table := failed.table })
      | .ok (indexed, table) =>
        match validateGeneratedVdf indexed table.strings with
        | .error err => (.error (.returned err), { f with table })
        | .ok _ =>
          let entry : AppEntry :=
            { appid := record.appid, infoState := 2, lastUpdated := 0, picsToken := 0
              sha := ⟨record.sha, hsha⟩, changeNumber := record.changeNumber
              binaryHash := sha1 indexed, binaryVdf := indexed }
          (.ok true, { f with apps := replaceEntry entry f.apps, table })
  else (.error (.returned "sha must be 20 bytes"), f)

end SlsteamMoon.AppInfo

/-! The splice transactions as sequences of file system accesses. One event is
one access of the transaction or a replacement of the file by a writer that
takes no lock. -/
namespace SlsteamMoon.AppInfo

open KeyValues Runs

structure FileIdentity where
  device : Nat
  inode : Nat
  size : Nat
  mtimeSecs : Int
  mtimeNsecs : Int
  deriving DecidableEq

structure Inode where
  identity : FileIdentity
  content : Bytes
  deriving DecidableEq

/-- The names the transaction uses; `aside` holds what was moved to corrupt and
conflict names. -/
structure Disk where
  path : Option Inode
  rollback : Option Inode
  validation : Option Inode
  temp : Option Inode
  aside : List Inode

namespace Disk

def moveAside (d : Disk) (file : Option Inode) : List Inode := file.toList ++ d.aside

/-- renameExchange of the temporary file and the path; both must exist. -/
def exchange (d : Disk) : Option Disk :=
  if d.path.isSome = true ∧ d.temp.isSome = true then some { d with path := d.temp, temp := d.path } else none

end Disk

/-- An entry point: whether it asks a guard after the locks, whether it keeps a
rollback snapshot, and what it merges into the parsed file. An exception leaves
the merge; otherwise it answers the file, whether it changed, and a count. -/
structure Splice where
  guarded : Bool
  snapshots : Bool
  merge : AppInfoFile → Except Failure (AppInfoFile × Bool × Nat)

/-- The merge loop over cached records; a rejected record is skipped. -/
def mergeCached (sha1 : Bytes → Digest) : List CachedBuffer → AppInfoFile → Bool → Nat →
    Except Failure (AppInfoFile × Bool × Nat)
  | [], file, changed, injected => .ok (file, changed, injected)
  | record :: records, file, changed, injected =>
    match mergeAppImpl sha1 file record with
    | (.ok entryChanged, file) => mergeCached sha1 records file (changed || entryChanged) (injected + 1)
    | (.error (.returned _), file) => mergeCached sha1 records file changed injected
    | (.error (.thrown what), _) => .error (.thrown what)

/-- The loop over metadata records; an app already present is left alone. -/
def mergeMetadata (sha1 : Bytes → Digest) : List CachedBuffer → AppInfoFile → Bool → Nat →
    Except Failure (AppInfoFile × Bool × Nat)
  | [], file, changed, accounted => .ok (file, changed, accounted)
  | app :: apps, file, changed, accounted =>
    if app.appid = 0 then mergeMetadata sha1 apps file changed accounted
    else if (file.apps.any fun entry => entry.appid == app.appid) = true then
      mergeMetadata sha1 apps file changed (accounted + 1)
    else
      match mergeAppImpl sha1 file app with
      | (.ok entryChanged, file) => mergeMetadata sha1 apps file (changed || entryChanged) (accounted + 1)
      | (.error (.returned _), file) => mergeMetadata sha1 apps file changed accounted
      | (.error (.thrown what), _) => .error (.thrown what)

/-- `records` are the cached pairs of managed apps that load, in path order. -/
def injectAllCached (sha1 : Bytes → Digest) (records : List CachedBuffer) : Splice where
  guarded := false
  snapshots := true
  merge := fun file => mergeCached sha1 records file false 0

/-- `records` are the cached pairs of the requested managed apps that load. -/
def injectCachedApps (sha1 : Bytes → Digest) (records : List CachedBuffer) : Splice where
  guarded := false
  snapshots := false
  merge := fun file => mergeCached sha1 records file false 0

def injectValidatedMetadataAppsGuarded (sha1 : Bytes → Digest) (metadataApps : List CachedBuffer) : Splice where
  guarded := true
  snapshots := false
  merge := fun file => mergeMetadata sha1 metadataApps file false 0

/-- What the transaction publishes and where it expects to publish it. -/
structure Plan where
  file : AppInfoFile
  expected : FileIdentity
  count : Nat

inductive Phase
  | locks
  | guard
  | reading
  | magic
  | readPrevious
  | moveCorrupt (previous : AppInfoFile)
  | restorePrevious (previous : AppInfoFile)
  | undoCorrupt
  | quarantine
  | identify (file : AppInfoFile)
  | merging (file : AppInfoFile) (expected : FileIdentity)
  | snapshot (plan : Plan)
  | validateWrite (plan : Plan)
  | validateRead (plan : Plan)
  | validateRemove (plan : Plan) (valid : Bool)
  | compare (plan : Plan)
  | prepareTemp (plan : Plan)
  | identifyTemp (plan : Plan)
  | exchange (plan : Plan) (prepared : FileIdentity)
  | displaced (plan : Plan) (prepared : FileIdentity)
  | visible (plan : Plan) (prepared : FileIdentity) (displacedMatches : Bool)
  | rollback (prepared : FileIdentity)
  | rolledBack (prepared : FileIdentity)
  | restoreExternal
  | preserve
  | discard (count : Nat)
  | finished (count : Nat) (published : Bool)
  | threw (what : String)

/-- The transaction has parsed a file and not yet confirmed a publication. -/
def Phase.inFlight : Phase → Bool
  | .locks | .guard | .reading | .magic | .readPrevious | .discard _ | .finished _ _ | .threw _ => false
  | _ => true

/-- `parsed` is the content the read accepted, `lost` what the exchange took
from the path, `replaced` whether another writer replaced the path since the
parse. -/
structure State where
  disk : Disk
  phase : Phase
  parsed : Option Bytes
  lost : Option Bytes
  replaced : Bool

def identityOf (file : Option Inode) : Option FileIdentity := file.map Inode.identity

def contentOf (file : Option Inode) : Option Bytes := file.map Inode.content

namespace State

def goto (s : State) (phase : Phase) : State := { s with phase }

def goDisk (s : State) (disk : Disk) (phase : Phase) : State := { s with disk, phase }

/-- The transaction gives up and answers zero. -/
def abort (s : State) : State := { s with phase := .finished 0 false }

end State

/-- One access of the transaction. `io` is its outcome where it can fail,
`stamp` the identity of a file it creates. -/
def transact (splice : Splice) (io : Bool) (stamp : FileIdentity) (s : State) : Option State :=
  match s.phase with
  | .locks =>
    some (if io = true then s.goto (if splice.guarded = true then .guard else .reading) else s.abort)
  | .guard => some (if io = true then s.goto .reading else s.abort)
  | .reading =>
    match readV41 (contentOf s.disk.path) with
    | .ok file => some { s with phase := .identify file, parsed := contentOf s.disk.path }
    | .error (.returned _) => some (s.goto .magic)
    | .error (.thrown what) => some (s.goto (.threw what))
  | .magic => some (if hasV41Magic (contentOf s.disk.path) = true then s.goto .readPrevious else s.abort)
  | .readPrevious =>
    match readV41 (contentOf s.disk.rollback) with
    | .ok previous => some { s with phase := .moveCorrupt previous, parsed := contentOf s.disk.rollback }
    | .error (.returned _) => some (s.goto .quarantine)
    | .error (.thrown what) => some (s.goto (.threw what))
  | .moveCorrupt previous =>
    some (if io = true ∧ s.disk.path.isSome = true then
        s.goDisk { s.disk with path := none, aside := s.disk.moveAside s.disk.path } (.restorePrevious previous)
      else s.goto .quarantine)
  | .restorePrevious previous =>
    some (if io = true then
        s.goDisk { s.disk with path := s.disk.rollback, rollback := none } (.identify previous)
      else s.goto .undoCorrupt)
  | .undoCorrupt =>
    some (match s.disk.aside with
      | [] => s.goto .quarantine
      | corrupt :: aside =>
        if io = true then s.goDisk { s.disk with path := some corrupt, aside } .quarantine else s.goto .quarantine)
  | .quarantine =>
    some (if io = true then
        { s with disk := { s.disk with path := none, aside := s.disk.moveAside s.disk.path }
                 phase := .finished 0 false }
      else s.abort)
  | .identify file =>
    some (match identityOf s.disk.path with
      | none => s.abort
      | some expected => s.goto (.merging file expected))
  | .merging file expected =>
    some (match splice.merge file with
      | .ok (merged, true, count) =>
        s.goto (if splice.snapshots = true then .snapshot ⟨merged, expected, count⟩
          else .validateWrite ⟨merged, expected, count⟩)
      | .ok (_, false, count) => s.goto (.finished count false)
      | .error (.thrown what) => s.goto (.threw what)
      | .error (.returned _) => s.abort)
  | .snapshot plan =>
    some (match s.disk.path with
      | none => s.goto (.validateWrite plan)
      | some file =>
        if io = true then s.goDisk { s.disk with rollback := some ⟨stamp, file.content⟩ } (.validateWrite plan)
        else s.abort)
  | .validateWrite plan =>
    some (if io = true then
        s.goDisk { s.disk with validation := some ⟨stamp, serializeV41 plan.file⟩ } (.validateRead plan)
      else s.abort)
  | .validateRead plan =>
    some (match readV41 (contentOf s.disk.validation) with
      | .ok _ => s.goto (.validateRemove plan true)
      | .error (.returned _) => s.goto (.validateRemove plan false)
      | .error (.thrown what) => s.goto (.threw what))
  | .validateRemove plan valid =>
    some (if io = true then
        s.goDisk { s.disk with validation := none } (if valid = true then .compare plan else .finished 0 false)
      else s.abort)
  | .compare plan =>
    some (if identityOf s.disk.path = some plan.expected then s.goto (.prepareTemp plan) else s.abort)
  | .prepareTemp plan =>
    some (if io = true then
        s.goDisk { s.disk with temp := some ⟨stamp, serializeV41 plan.file⟩ } (.identifyTemp plan)
      else s.abort)
  | .identifyTemp plan =>
    some (match identityOf s.disk.temp with
      | none => s.abort
      | some prepared => s.goto (.exchange plan prepared))
  | .exchange plan prepared =>
    some (match if io = true then s.disk.exchange else none with
      | none => { s with disk := { s.disk with temp := none }, phase := .finished 0 false }
      | some disk => { s with disk, phase := .displaced plan prepared, lost := contentOf s.disk.path })
  | .displaced plan prepared =>
    some (s.goto (.visible plan prepared (identityOf s.disk.temp == some plan.expected)))
  | .visible plan prepared displacedMatches =>
    some (if identityOf s.disk.path ≠ some prepared then s.goto .preserve
      else if displacedMatches = true then s.goto (.discard plan.count)
      else s.goto (.rollback prepared))
  | .rollback prepared =>
    some (match if io = true then s.disk.exchange else none with
      | none => s.goto .preserve
      | some disk => s.goDisk disk (.rolledBack prepared))
  | .rolledBack prepared =>
    some (if identityOf s.disk.temp = some prepared then
        { s with disk := { s.disk with temp := none }, phase := .finished 0 false }
      else s.goto .restoreExternal)
  | .restoreExternal =>
    some (match if io = true then s.disk.exchange else none with
      | none => s.goto .preserve
      | some disk => s.goDisk disk .preserve)
  | .preserve =>
    some (if io = true then
        { s with disk := { s.disk with temp := none, aside := s.disk.moveAside s.disk.temp }
                 phase := .finished 0 false }
      else s.abort)
  | .discard count => some (s.goDisk { s.disk with temp := none } (.finished count true))
  | .finished _ _ => none
  | .threw _ => none

inductive Event
  | transact (io : Bool) (stamp : FileIdentity)
  | replace (file : Inode)

/-- The other writer renames a complete new file over the path. -/
def step (splice : Splice) : Step State Event
  | s, .transact io stamp => transact splice io stamp s
  | s, .replace file =>
    some { s with disk := { s.disk with path := some file }, replaced := s.replaced || s.phase.inFlight }

def initial (disk : Disk) : State := ⟨disk, .locks, none, none, false⟩

end SlsteamMoon.AppInfo
