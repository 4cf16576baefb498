import SlsteamMoon.CachePair.Rollback
import SlsteamMoon.ProvisionCache.CmVdf

/-! The validating reader, on the disk that a publication left when it ended or when the
process stopped inside it. The digest is libcrypto's. -/
namespace SlsteamMoon.CachePair
open KeyValues Runs ProvisionCache

/-- Which of a reader's own accesses succeed, and whether the process has invalidated
reads of the app. -/
structure ReadAccess where
  metadataOpens : Bool := true
  metadataReads : Bool := true
  markerStat : Bool := true
  bufferOpens : Bool := true
  bufferReads : Bool := true
  invalidated : Bool := false

def maxMetadata : Nat := 0x10000

def maxWire : Nat := 0x1000000

def readCacheMetadataFile (a : ReadAccess) (d : Disk) : Except String CacheMetadataView :=
  match d.file .metadata with
  | none => .error "metadata is missing"
  | some text =>
    if ¬ a.metadataOpens then .error "metadata is missing"
    else if text = [] ∨ maxMetadata < text.length then .error "metadata size is outside the accepted range"
    else if ¬ a.metadataReads then .error "metadata read failed"
    else
      match parseCacheMetadata text with
      | none => .error "metadata format is invalid"
      | some metadata => .ok metadata

def cacheMetadataMarkerAllowsRead (a : ReadAccess) (d : Disk) (metadata : CacheMetadataView) : Bool :=
  !a.invalidated &&
    syntheticMarkerStateConsistent metadata.hasSynthetic metadata.synthetic (a.markerStat && d.marker)

def recordFacts (sha1 : Bytes → Bytes) (appId : Nat) (metadata : CacheMetadataView) (declaredSha wire : Bytes) :
    CacheRecordFacts where
  requestedAppId := appId
  metadataAppId := metadata.appId
  declaredSize := metadata.wireSize
  actualSize := wire.length
  shaSize := declaredSha.length
  shaMatches := declaredSha = sha1 wire
  parsed := (parseAppinfo wire).any (· ≠ .nil)
  hasUsableContent := (parseAppinfo wire).any fun body => body ≠ .nil && hasUsableContentDepot body

def readBuffer (a : ReadAccess) (d : Disk) : Except String Bytes :=
  match d.file .buffer with
  | none => .error "buffer is missing"
  | some wire =>
    if ¬ a.bufferOpens then .error "buffer is missing"
    else if wire = [] ∨ maxWire < wire.length then .error "buffer size is outside the accepted range"
    else if ¬ a.bufferReads then .error "buffer read failed"
    else .ok wire

def readValidatedCacheBufferLocked (sha1 : Bytes → Bytes) (a : ReadAccess) (appId : Nat) (d : Disk) :
    Except String Bytes := do
  let metadata ← readCacheMetadataFile a d
  if ¬ cacheMetadataMarkerAllowsRead a d metadata then throw "synthetic marker state is inconsistent"
  let declaredSha ← fromBase64 metadata.shaBase64
  let wire ← readBuffer a d
  if ¬ isCacheRecordValid (recordFacts sha1 appId metadata declaredSha wire) then
    throw "metadata, SHA-1, or depot validation failed"
  return wire

/-- The metadata text states the size and the digest of the buffer. -/
def Declares (sha1 : Bytes → Bytes) (text wire : Bytes) : Prop :=
  ∃ metadata, parseCacheMetadata text = some metadata ∧ metadata.wireSize = wire.length ∧
    fromBase64 metadata.shaBase64 = .ok (sha1 wire)

private theorem Declares.sha_eq {sha1 : Bytes → Bytes} {text wire wire' : Bytes} (h : Declares sha1 text wire)
    (h' : Declares sha1 text wire') : sha1 wire = sha1 wire' := by
  obtain ⟨metadata, hparse, _, hsha⟩ := h
  obtain ⟨metadata', hparse', _, hsha'⟩ := h'
  obtain rfl := Option.some.inj (hparse.symm.trans hparse')
  exact Except.ok.inj (hsha.symm.trans hsha')

private theorem readCacheMetadataFile_ok {a : ReadAccess} {d : Disk} {metadata : CacheMetadataView}
    (h : readCacheMetadataFile a d = .ok metadata) :
    ∃ text, d.file .metadata = some text ∧ parseCacheMetadata text = some metadata := by
  unfold readCacheMetadataFile at h
  split at h
  · cases h
  · next text htext =>
    split at h
    · cases h
    split at h
    · cases h
    split at h
    · cases h
    split at h
    · cases h
    · next parsed hparse =>
      cases h
      exact ⟨text, htext, hparse⟩

private theorem readBuffer_ok {a : ReadAccess} {d : Disk} {wire : Bytes} (h : readBuffer a d = .ok wire) :
    d.file .buffer = some wire := by
  unfold readBuffer at h
  split at h
  · cases h
  · next content hcontent =>
    split at h
    · cases h
    split at h
    · cases h
    split at h
    · cases h
    · cases h
      exact hcontent

/-- What the reader returns is the buffer on disk, and the metadata on disk declares it. -/
theorem read_ok {sha1 : Bytes → Bytes} {a : ReadAccess} {appId : Nat} {d : Disk} {wire : Bytes}
    (h : readValidatedCacheBufferLocked sha1 a appId d = .ok wire) :
    d.file .buffer = some wire ∧ ∃ text, d.file .metadata = some text ∧ Declares sha1 text wire := by
  obtain ⟨metadata, hmetadata, h⟩ := bind_ok h
  split at h
  · cases h
  obtain ⟨declaredSha, hsha, h⟩ := bind_ok h
  obtain ⟨content, hcontent, h⟩ := bind_ok h
  split at h
  · cases h
  · next hvalid =>
    obtain rfl := Except.ok.inj h
    obtain ⟨text, htext, hparse⟩ := readCacheMetadataFile_ok hmetadata
    have hfacts : isCacheRecordValid (recordFacts sha1 appId metadata declaredSha content) = true := not_not.mp hvalid
    simp only [isCacheRecordValid, Bool.and_eq_true] at hfacts
    obtain ⟨⟨⟨⟨⟨_, hsize⟩, _⟩, hdigest⟩, _⟩, _⟩ := hfacts
    have hsame : declaredSha = sha1 content := of_decide_eq_true hdigest
    exact ⟨readBuffer_ok hcontent, text, htext, metadata, hparse, of_decide_eq_true hsize, by rw [hsha, hsame]⟩

def firstWire : Bytes := utf8 "\"appinfo\"\x7b\"depots\"\x7b\"1\"\x7b\"manifests\"\x7b\"public\"\x7b\"gid\"\"1\"\x7d\x7d\x7d\x7d\x7d"

def secondWire : Bytes := utf8 "\"appinfo\"\x7b\"depots\"\x7b\"1\"\x7b\"manifests\"\x7b\"public\"\x7b\"gid\"\"2\"\x7d\x7d\x7d\x7d\x7d"

/-- SHA-1 of the two buffers. -/
def sampleSha1 (wire : Bytes) : Bytes :=
  if wire = secondWire then
    [170, 147, 244, 35, 231, 134, 117, 17, 209, 11, 141, 56, 202, 181, 229, 55, 135, 63, 189, 189]
  else
    [56, 10, 93, 132, 49, 93, 192, 63, 191, 54, 100, 151, 128, 95, 113, 48, 178, 207, 7, 15]

def firstMetadata : Bytes :=
  utf8 "appid: 1\nchange_number: 5\nwire_size: 57\nsha_b64: OApdhDFdwD+/NmSXgF9xMLLPBw8=\nnormalized: false\nsynthetic: false"

/-- Change 6 of the app, as the provider and as PICS write it. -/
def secondMetadata (normalized : Bool) : Bytes :=
  utf8 "appid: 1\nchange_number: 6\nwire_size: 57\nsha_b64: qpP0I+eGdRHRC404yrXlN4c/vb0=\nnormalized: " ++
    utf8 (if normalized then "true" else "false") ++ utf8 "\nsynthetic: false"

/-- The disk with nothing of the app on it but the two files. -/
def sampleDisk (buffer metadata : Option Bytes) : Disk where
  file m := match m with
    | .buffer => buffer
    | .metadata => metadata
  backup _ := none
  marker := false
  terminal := false
  dlcMetadata := false

/-- The second wire buffer, as the provider publishes it. -/
def samplePublication : Publication where
  path m := match m with
    | .buffer => "picsbuffer_1.bin"
    | .metadata => "picsbuffer_1.yaml"
  content m := match m with
    | .buffer => secondWire
    | .metadata => secondMetadata true
  synthetic := false
  markerBefore := false

def Publication.pair (c : Publication) : Option Bytes × Option Bytes :=
  (some (c.content .buffer), some (c.content .metadata))

/-- A rollback that goes through leaves the old pair and marker. Wherever the process stops,
what the reader accepts is the old pair or the new one; a buffer beside the other
publication's metadata is accepted only where that metadata declares this buffer and not
its own. -/
theorem publication_atomic (sha1 : Bytes → Bytes) (c : Publication) (old : Disk) {s : State} {events : List Event}
    (hrun : exec (State.step c) (State.start old) events = some s) (hbefore : c.markerBefore = old.marker)
    (hsha : ∀ wire, old.file .buffer = some wire → sha1 wire = sha1 (c.content .buffer) → wire = c.content .buffer) :
    (Meets (State.step c) (Restores c) (State.start old) events → s.phase = .returned false →
        s.disk.file = old.file ∧ s.disk.marker = old.marker) ∧
      ∀ a appId wire, readValidatedCacheBufferLocked sha1 a appId s.disk = .ok wire →
        s.disk.file .buffer = some wire ∧
          (s.disk.pair = old.pair ∨ s.disk.pair = c.pair ∨
            (∃ text, s.disk.pair = (some (c.content .buffer), some text) ∧ old.file .metadata = some text ∧
              Declares sha1 text (c.content .buffer) ∧
              ∀ wire, old.file .buffer = some wire → ¬ Declares sha1 text wire) ∨
            ∃ wire, s.disk.pair = (some wire, some (c.content .metadata)) ∧ old.file .buffer = some wire ∧
              Declares sha1 (c.content .metadata) wire ∧
              ¬ Declares sha1 (c.content .metadata) (c.content .buffer)) := by
  refine ⟨fun hok hphase => returned_false hrun hbefore hok hphase, fun a appId wire hread => ?_⟩
  obtain ⟨hbuffer, text, htext, hdeclares⟩ := read_ok hread
  refine ⟨hbuffer, ?_⟩
  have htracked : Tracked c old s := tracked_exec hrun
  rcases htracked.file .buffer with hwire | hwire <;> rcases htracked.file .metadata with hmeta | hmeta
  · left
    rw [Disk.pair, Disk.pair, hwire, hmeta]
  · -- the old buffer beside the new metadata: a rollback stopped halfway
    have hold : old.file .buffer = some wire := hwire.symm.trans hbuffer
    have hcontent : text = c.content .metadata := Option.some.inj (htext.symm.trans hmeta)
    subst hcontent
    by_cases hown : Declares sha1 (c.content .metadata) (c.content .buffer)
    · have hsame : wire = c.content .buffer := hsha wire hold (hdeclares.sha_eq hown)
      right; left
      rw [Disk.pair, Publication.pair, hbuffer, hmeta, hsame]
    · right; right; right
      exact ⟨wire, by rw [Disk.pair, hbuffer, hmeta], hold, hdeclares, hown⟩
  · -- the new buffer beside the old metadata: the publication stopped halfway
    have hnew : wire = c.content .buffer := Option.some.inj (hbuffer.symm.trans hwire)
    subst hnew
    have hold : old.file .metadata = some text := hmeta.symm.trans htext
    by_cases hown : ∃ other, old.file .buffer = some other ∧ Declares sha1 text other
    · obtain ⟨other, hother, hdeclared⟩ := hown
      have hsame : other = c.content .buffer := hsha other hother (hdeclared.sha_eq hdeclares)
      left
      rw [Disk.pair, Disk.pair, hwire, hmeta, hother, hsame]
    · right; right; left
      refine ⟨text, by rw [Disk.pair, hwire, htext], hold, hdeclares, fun other hother hdeclared => ?_⟩
      exact hown ⟨other, hother, hdeclared⟩
  · right; left
    rw [Disk.pair, Publication.pair, hwire, hmeta]

/-- No space for the metadata. -/
def fullDiskRun : List Event :=
  [.eraseTerminal true, .inspect none true, .copyFile none, .inspect none true, .copyFile none, .prepareTemp none,
    .renameTemp none, .prepareTemp (some "write/fsync temporary file failed"), .restoreMember true none,
    .restoreMember true none]

/-- The first pair is back. -/
theorem publication_atomic_full_disk :
    ∃ s, exec (State.step samplePublication) (State.start (sampleDisk (some firstWire) (some firstMetadata)))
        fullDiskRun = some s ∧ s.phase = .returned false ∧
      s.disk.file = (sampleDisk (some firstWire) (some firstMetadata)).file ∧ s.disk.marker = false := by
  obtain ⟨s, hrun, hphase⟩ : ∃ s, exec (State.step samplePublication)
      (State.start (sampleDisk (some firstWire) (some firstMetadata))) fullDiskRun = some s ∧
      s.phase = .returned false := ⟨_, rfl, rfl⟩
  have hsha : ∀ wire, (sampleDisk (some firstWire) (some firstMetadata)).file .buffer = some wire →
      sampleSha1 wire = sampleSha1 (samplePublication.content .buffer) → wire = samplePublication.content .buffer := by
    intro wire hwire hsame
    cases hwire
    exact absurd hsame (by decide +kernel)
  have hok : Meets (State.step samplePublication) (Restores samplePublication)
      (State.start (sampleDisk (some firstWire) (some firstMetadata))) fullDiskRun := by decide +kernel
  exact ⟨s, hrun, hphase,
    (publication_atomic sampleSha1 samplePublication _ hrun rfl hsha).1 hok hphase⟩

/-- The buffer of a published pair is lost and the same buffer is published again with
metadata of its own: stopped after the first rename, the reader takes the new buffer
beside the old metadata. -/
theorem new_buffer_beside_old_metadata :
    ∃ s, exec (State.step samplePublication) (State.start (sampleDisk none (some (secondMetadata false))))
        [.eraseTerminal true, .inspect none true, .inspect none true, .copyFile none, .prepareTemp none,
          .renameTemp none] = some s ∧
      readValidatedCacheBufferLocked sampleSha1 {} 1 s.disk = .ok secondWire ∧
      s.disk.pair = (some secondWire, some (secondMetadata false)) ∧
      s.disk.pair ≠ (sampleDisk none (some (secondMetadata false))).pair ∧
      s.disk.pair ≠ samplePublication.pair := by
  refine ⟨_, rfl, ?_⟩
  decide +kernel

end SlsteamMoon.CachePair
