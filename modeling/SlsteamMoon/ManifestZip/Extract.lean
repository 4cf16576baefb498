import SlsteamMoon.CheckedReads
import SlsteamMoon.IpcFrame.TrailingRoot
import SlsteamMoon.KeyValues.Decode

/-! The extraction of the single payload of a manifest archive, where a size is a number of 32 bits. -/
namespace SlsteamMoon.ManifestZip
open KeyValues CheckedReads Check
open IpcFrame (littleEndian)

/-- The bytes that a size can count. -/
abbrev Archive := { bytes : Bytes // bytes.length < 0x100000000 }

/-- What comes of reading headers; a refusal has its diagnostic. -/
abbrev Reading (α : Type) := Check String α

def kZOk : Int := 0
def kZStreamEnd : Int := 1
def kLocalHeader : UInt32 := 0x04034b50
def kCentralHeader : UInt32 := 0x02014b50
def kEndOfCentralDirectory : UInt32 := 0x06054b50
def kMaximumPayloadSize : UInt32 := 64 * 1024 * 1024
def kMaximumEocdSearch : UInt32 := 65535 + 22
def npos : UInt32 := 0xffffffff

def Archive.size (archive : Archive) : UInt32 := UInt32.ofNat archive.1.length

/-- What inflate leaves in a buffer of the given room. -/
structure Inflated (room : UInt32) where
  code : Int
  totalIn : UInt32
  totalOut : UInt32
  buffer : { bytes : Bytes // bytes.length = room.toNat }

/-- The runtime library as it is found, and what its functions answer. -/
structure Zlib where
  available : Bool
  inflateInit2 : Int
  inflate : Bytes → (room : UInt32) → Inflated room
  crc32 : Bytes → UInt32

def rangeFits (offset length available : UInt32) : Bool := offset ≤ available && length ≤ available - offset

def read16 (archive : Archive) (offset : UInt32) : Reading UInt16 := do
  let p0 ← readAt archive.1 offset.toNat
  let p1 ← readAt archive.1 (offset.toNat + 1)
  return p0.toUInt16 ||| p1.toUInt16 <<< 8

def read32 (archive : Archive) (offset : UInt32) : Reading UInt32 := do
  let p0 ← readAt archive.1 offset.toNat
  let p1 ← readAt archive.1 (offset.toNat + 1)
  let p2 ← readAt archive.1 (offset.toNat + 2)
  let p3 ← readAt archive.1 (offset.toNat + 3)
  return littleEndian p0 p1 p2 p3

/-- The exception for a position outside the string is a read outside it. -/
def substr (archive : Archive) (pos count : UInt32) : Reading Bytes :=
  if archive.size < pos then .outside else return slice archive.1 pos.toNat count.toNat

/-- From `start + n` down to `start`. -/
def searchDown (archive : Archive) (start : UInt32) : Nat → Reading UInt32
  | 0 => do
    if (← read32 archive start) = kEndOfCentralDirectory then return start else return npos
  | n + 1 => do
    let offset := start + UInt32.ofNat (n + 1)
    if (← read32 archive offset) = kEndOfCentralDirectory then return offset else searchDown archive start n

def findEndOfCentralDirectory (archive : Archive) : Reading UInt32 :=
  if archive.size < 22 then return npos
  else
    let start := if kMaximumEocdSearch < archive.size then archive.size - kMaximumEocdSearch else 0
    searchDown archive start (archive.size - 22 - start).toNat

def readEnd (archive : Archive) : Reading UInt32 := do
  let eocd ← findEndOfCentralDirectory archive
  refuseIf "end-of-central-directory record is missing" (return eocd = npos || !rangeFits eocd 22 archive.size)
  let commentSize := (← read16 archive (eocd + 20)).toUInt32
  refuseIf "end-of-central-directory record is truncated"
    (return !rangeFits (eocd + 22) commentSize archive.size || eocd + 22 + commentSize ≠ archive.size)
  refuseIf "archive is not a single-entry non-spanned ZIP"
    (either (differs (read16 archive (eocd + 4)) 0) (either (differs (read16 archive (eocd + 6)) 0)
      (either (differs (read16 archive (eocd + 8)) 1) (differs (read16 archive (eocd + 10)) 1))))
  return eocd

/-- What the directory says of the entry. -/
structure CentralEntry where
  offset : UInt32
  flags : UInt16
  method : UInt16
  expectedCrc : UInt32
  compressedSize : UInt32
  payloadSize : UInt32
  nameSize : UInt32
  localOffset : UInt32

def readCentral (archive : Archive) (eocd : UInt32) : Reading CentralEntry := do
  let centralSize ← read32 archive (eocd + 12)
  let centralOffset ← read32 archive (eocd + 16)
  refuseIf "central-directory entry is invalid"
    (either (return !rangeFits centralOffset centralSize eocd || centralOffset + centralSize ≠ eocd || centralSize < 46)
      (differs (read32 archive centralOffset) kCentralHeader))
  let flags ← read16 archive (centralOffset + 8)
  let method ← read16 archive (centralOffset + 10)
  let expectedCrc ← read32 archive (centralOffset + 16)
  let compressedSize ← read32 archive (centralOffset + 20)
  let payloadSize ← read32 archive (centralOffset + 24)
  let centralNameSize := (← read16 archive (centralOffset + 28)).toUInt32
  let centralExtraSize := (← read16 archive (centralOffset + 30)).toUInt32
  let centralCommentSize := (← read16 archive (centralOffset + 32)).toUInt32
  let localOffset ← read32 archive (centralOffset + 42)
  let centralEntrySize := 46 + centralNameSize + centralExtraSize + centralCommentSize
  refuseIf "ZIP entry policy or bounds check failed"
    (either (return centralEntrySize ≠ centralSize || flags &&& 0x0009 ≠ 0 || (method ≠ 0 && method ≠ 8)
        || payloadSize = 0 || kMaximumPayloadSize < payloadSize || kMaximumPayloadSize < compressedSize
        || !rangeFits localOffset 30 centralOffset)
      (differs (read32 archive localOffset) kLocalHeader))
  return {
    offset := centralOffset, flags, method, expectedCrc, compressedSize, payloadSize, nameSize := centralNameSize
    localOffset }

/-- The payload as the archive has it. -/
structure Payload where
  method : UInt16
  expectedCrc : UInt32
  compressedSize : UInt32
  payloadSize : UInt32
  compressed : Bytes

def readLocal (archive : Archive) (c : CentralEntry) : Reading Payload := do
  let localFlags ← read16 archive (c.localOffset + 6)
  let localMethod ← read16 archive (c.localOffset + 8)
  let localCrc ← read32 archive (c.localOffset + 14)
  let localCompressedSize ← read32 archive (c.localOffset + 18)
  let localPayloadSize ← read32 archive (c.localOffset + 22)
  let localNameSize := (← read16 archive (c.localOffset + 26)).toUInt32
  let localExtraSize := (← read16 archive (c.localOffset + 28)).toUInt32
  let localNameOffset := c.localOffset + 30
  let localVariableSize := localNameSize + localExtraSize
  refuseIf "local and central ZIP metadata disagree"
    (either (return localFlags ≠ c.flags || localMethod ≠ c.method || localCrc ≠ c.expectedCrc
        || localCompressedSize ≠ c.compressedSize || localPayloadSize ≠ c.payloadSize || localNameSize ≠ c.nameSize
        || !rangeFits localNameOffset localVariableSize c.offset)
      (do return (← substr archive (c.localOffset + 30) localNameSize) ≠ (← substr archive (c.offset + 46) c.nameSize)))
  let dataOffset := localNameOffset + localVariableSize
  refuseIf "compressed ZIP payload is truncated" (return !rangeFits dataOffset c.compressedSize c.offset)
  let compressed ← substr archive dataOffset c.compressedSize
  return {
    method := c.method, expectedCrc := c.expectedCrc, compressedSize := c.compressedSize, payloadSize := c.payloadSize
    compressed }

def readPayload (archive : Archive) : Reading Payload := do
  let eocd ← readEnd archive
  let central ← readCentral archive eocd
  readLocal archive central

/-- The answer, what is in the output, and the diagnostic. -/
structure Extracted where
  ok : Bool
  output : Bytes
  diagnostic : String

/-- The answer and the output, which has its size before inflate is initialized. -/
def inflatePayload (zlib : Zlib) (compressed : Bytes) (expectedSize : UInt32) (output : Bytes) : Bool × Bytes :=
  if zlib.available = false then (false, output)
  else if zlib.inflateInit2 ≠ kZOk then (false, List.replicate expectedSize.toNat 0)
  else
    let result := zlib.inflate compressed expectedSize
    let complete := result.code = kZStreamEnd && result.totalIn = UInt32.ofNat compressed.length
      && result.totalOut = expectedSize
    (complete, if complete then result.buffer.1 else [])

def checkCrc (zlib : Zlib) (expectedCrc : UInt32) (output : Bytes) : Extracted :=
  if zlib.crc32 output ≠ expectedCrc then ⟨false, [], "manifest payload CRC32 mismatch"⟩ else ⟨true, output, ""⟩

def unpack (zlib : Zlib) (p : Payload) : Extracted :=
  if zlib.available = false then ⟨false, [], "zlib runtime is unavailable"⟩
  else if p.method = 0 then
    if p.compressedSize ≠ p.payloadSize then ⟨false, [], "stored ZIP entry has inconsistent sizes"⟩
    else checkCrc zlib p.expectedCrc p.compressed
  else
    let (complete, output) := inflatePayload zlib p.compressed p.payloadSize []
    if complete then checkCrc zlib p.expectedCrc output else ⟨false, output, "DEFLATE payload is invalid"⟩

/-- No result is a read outside the archive. -/
def extractSingleFile (zlib : Zlib) (archive : Archive) : Option Extracted :=
  match readPayload archive with
  | .outside => none
  | .refused diagnostic => some ⟨false, [], diagnostic⟩
  | .passed payload => some (unpack zlib payload)

end SlsteamMoon.ManifestZip

/-! Numbers as they stand in an archive, and what the checked reads of them pass. -/
namespace SlsteamMoon.ManifestZip
open KeyValues CheckedReads Check
open IpcFrame (littleEndian toNat_littleEndian)

variable {archive : Archive} {offset : UInt32} {n : Nat}

def writeLE16 (n : Nat) : Bytes := [UInt8.ofNat n, UInt8.ofNat (n / 256)]

@[simp] theorem length_writeLE16 (n : Nat) : (writeLE16 n).length = 2 := rfl

private theorem toNat_word16 (b0 b1 : UInt8) :
    (b0.toUInt16 ||| b1.toUInt16 <<< 8).toNat = b0.toNat + 2 ^ 8 * b1.toNat := by
  have h0 : b0.toNat < 2 ^ 8 := b0.toNat_lt
  have hbyte : b1.toNat * 2 ^ 8 < 2 ^ 16 := by
    have h1 := b1.toNat_lt
    omega
  rw [UInt16.toNat_or, UInt16.toNat_shiftLeft, UInt8.toNat_toUInt16, UInt8.toNat_toUInt16]
  change b0.toNat ||| b1.toNat <<< 8 % 2 ^ 16 = _
  rw [Nat.shiftLeft_eq, Nat.mod_eq_of_lt hbyte, ← Nat.shiftLeft_eq, Nat.or_comm, ← Nat.shiftLeft_add_eq_or_of_lt h0,
    Nat.shiftLeft_eq, Nat.add_comm, Nat.mul_comm]

private theorem writeLE16_word16 (b0 b1 : UInt8) : writeLE16 (b0.toUInt16 ||| b1.toUInt16 <<< 8).toNat = [b0, b1] := by
  have h0 := b0.toNat_lt
  have h1 := b1.toNat_lt
  rw [toNat_word16]
  simp only [writeLE16, List.cons.injEq, ← UInt8.toNat_inj, UInt8.toNat_ofNat', and_true]
  omega

private theorem writeLE32_littleEndian (b0 b1 b2 b3 : UInt8) :
    writeLE32 (littleEndian b0 b1 b2 b3).toNat = [b0, b1, b2, b3] := by
  have h0 := b0.toNat_lt
  have h1 := b1.toNat_lt
  have h2 := b2.toNat_lt
  have h3 := b3.toNat_lt
  rw [toNat_littleEndian]
  simp only [writeLE32, List.cons.injEq, ← UInt8.toNat_inj, UInt8.toNat_ofNat', and_true]
  omega

/-- Sums that stay below the size of the numbers. -/
theorem toNat_add_small {a b : UInt32} (h : a.toNat + b.toNat < 0x100000000) : (a + b).toNat = a.toNat + b.toNat := by
  rw [UInt32.toNat_add, Nat.mod_eq_of_lt h]

/-- Four bytes within the archive are a number, which stands there. -/
theorem read32_inside (hn : offset.toNat = n) (h : n + 4 ≤ archive.1.length) :
    ∃ v, read32 archive offset = .passed v ∧ StandsAt archive.1 n (writeLE32 v.toNat) := by
  obtain ⟨w, hlength, hw⟩ := exists_standsAt h
  match w, hlength with
  | [p0, p1, p2, p3], _ =>
    have h0 : (readAt archive.1 n : Reading UInt8) = .passed p0 := readAt_standsAt hw 0 rfl
    have h1 : (readAt archive.1 (n + 1) : Reading UInt8) = .passed p1 := readAt_standsAt hw 1 rfl
    have h2 : (readAt archive.1 (n + 2) : Reading UInt8) = .passed p2 := readAt_standsAt hw 2 rfl
    have h3 : (readAt archive.1 (n + 3) : Reading UInt8) = .passed p3 := readAt_standsAt hw 3 rfl
    refine ⟨littleEndian p0 p1 p2 p3, ?_, ?_⟩
    · rw [read32, hn, h0, passed_bind, h1, passed_bind, h2, passed_bind, h3]
      rfl
    · rwa [writeLE32_littleEndian]

private theorem read16_inside {offset : UInt32} (hn : offset.toNat = n) (h : n + 2 ≤ archive.1.length) :
    ∃ v, read16 archive offset = .passed v ∧ StandsAt archive.1 n (writeLE16 v.toNat) := by
  obtain ⟨w, hlength, hw⟩ := exists_standsAt h
  match w, hlength with
  | [p0, p1], _ =>
    have h0 : (readAt archive.1 n : Reading UInt8) = .passed p0 := readAt_standsAt hw 0 rfl
    have h1 : (readAt archive.1 (n + 1) : Reading UInt8) = .passed p1 := readAt_standsAt hw 1 rfl
    refine ⟨p0.toUInt16 ||| p1.toUInt16 <<< 8, ?_, ?_⟩
    · rw [read16, hn, h0, passed_bind, h1]
      rfl
    · rwa [writeLE16_word16]

private theorem writeLE32_inj {v w : UInt32} (h : writeLE32 v.toNat = writeLE32 w.toNat) : v = w := by
  have hv := readLE32_write v.toNat_lt []
  rw [h, readLE32_write w.toNat_lt] at hv
  exact UInt32.toNat_inj.mp (congrArg Prod.fst (Option.some.inj hv)).symm

private theorem writeLE16_inj {v w : UInt16} (h : writeLE16 v.toNat = writeLE16 w.toNat) : v = w := by
  have hv := v.toNat_lt
  have hw := w.toNat_lt
  simp only [writeLE16, List.cons.injEq, ← UInt8.toNat_inj, UInt8.toNat_ofNat', and_true] at h
  rw [← UInt16.toNat_inj]
  omega

theorem number32_unique {v w : UInt32} {n : Nat} (hv : StandsAt archive.1 n (writeLE32 v.toNat))
    (hw : StandsAt archive.1 n (writeLE32 w.toNat)) : v = w := writeLE32_inj (hv.unique hw rfl)

private theorem number16_unique {v w : UInt16} {n : Nat} (hv : StandsAt archive.1 n (writeLE16 v.toNat))
    (hw : StandsAt archive.1 n (writeLE16 w.toNat)) : v = w := writeLE16_inj (hv.unique hw rfl)

section
variable (hn : offset.toNat = n)
include hn

private theorem passes_read32 (h : n + 4 ≤ archive.1.length) :
    Passes (read32 archive offset) fun v => StandsAt archive.1 n (writeLE32 v.toNat) := by
  obtain ⟨v, hv, hstands⟩ := read32_inside hn h
  exact passes_of_unique hv hstands fun w hw => number32_unique hw hstands

private theorem passes_read16 (h : n + 2 ≤ archive.1.length) :
    Passes (read16 archive offset) fun v => StandsAt archive.1 n (writeLE16 v.toNat) := by
  obtain ⟨v, hv, hstands⟩ := read16_inside hn h
  exact passes_of_unique hv hstands fun w hw => number16_unique hw hstands

theorem guards_read32 (h : n + 4 ≤ archive.1.length) (value : UInt32) :
    Guards (differs (read32 archive offset) value) (StandsAt archive.1 n (writeLE32 value.toNat)) := by
  obtain ⟨v, hv, hstands⟩ := read32_inside hn h
  refine (guards_differs hv value).congr ⟨?_, ?_⟩
  · rintro rfl
    exact hstands
  · exact number32_unique hstands

private theorem guards_read16 (h : n + 2 ≤ archive.1.length) (value : UInt16) :
    Guards (differs (read16 archive offset) value) (StandsAt archive.1 n (writeLE16 value.toNat)) := by
  obtain ⟨v, hv, hstands⟩ := read16_inside hn h
  refine (guards_differs hv value).congr ⟨?_, ?_⟩
  · rintro rfl
    exact hstands
  · exact number16_unique hstands

end

/-- Places within the archive are counted without overflow. -/
theorem toNat_add_inside {k : UInt32} {m : Nat} (hk : k.toNat = m) (h : offset.toNat + m ≤ archive.1.length) :
    (offset + k).toNat = offset.toNat + m := by
  have hbound := archive.2
  rw [toNat_add_small (by omega), hk]

section
variable {k : UInt32} (m : Nat) (hk : k.toNat = m)
include hk

theorem passes_read32_add (h : offset.toNat + m + 4 ≤ archive.1.length) :
    Passes (read32 archive (offset + k)) fun v => StandsAt archive.1 (offset.toNat + m) (writeLE32 v.toNat) :=
  passes_read32 (toNat_add_inside hk (Nat.le_of_add_right_le h)) h

theorem passes_read16_add (h : offset.toNat + m + 2 ≤ archive.1.length) :
    Passes (read16 archive (offset + k)) fun v => StandsAt archive.1 (offset.toNat + m) (writeLE16 v.toNat) :=
  passes_read16 (toNat_add_inside hk (Nat.le_of_add_right_le h)) h

theorem guards_read16_add (h : offset.toNat + m + 2 ≤ archive.1.length) (value : UInt16) :
    Guards (differs (read16 archive (offset + k)) value) (StandsAt archive.1 (offset.toNat + m) (writeLE16 value.toNat)) :=
  guards_read16 (toNat_add_inside hk (Nat.le_of_add_right_le h)) h value

end

theorem Archive.toNat_size (archive : Archive) : archive.size.toNat = archive.1.length := by
  rw [Archive.size, UInt32.toNat_ofNat', Nat.mod_eq_of_lt archive.2]

theorem rangeFits_iff {offset length available : UInt32} :
    rangeFits offset length available = true ↔ offset.toNat + length.toNat ≤ available.toNat := by
  rw [rangeFits, Bool.and_eq_true, decide_eq_true_eq, decide_eq_true_eq]
  constructor
  · rintro ⟨hoffset, hlength⟩
    have hle : offset.toNat ≤ available.toNat := hoffset
    have hlength : length.toNat ≤ (available - offset).toNat := hlength
    rw [UInt32.toNat_sub_of_le _ _ hoffset] at hlength
    omega
  · intro h
    have hoffset : offset ≤ available := UInt32.le_iff_toNat_le.mpr (by omega)
    refine ⟨hoffset, UInt32.le_iff_toNat_le.mpr ?_⟩
    rw [UInt32.toNat_sub_of_le _ _ hoffset]
    omega

end SlsteamMoon.ManifestZip

/-! The archives with a single entry, and what the headers are read as. -/
namespace SlsteamMoon.ManifestZip
open KeyValues CheckedReads Check

/-- Bytes that no reader of the archive looks at. -/
abbrev Unread (n : Nat) := { bytes : Bytes // bytes.length = n }

/-- One entry that is neither encrypted nor followed by a descriptor, and what may stand around it. -/
structure Entry where
  front : Bytes
  version : Unread 2
  flags : UInt16
  method : UInt16
  modified : Unread 4
  crc : UInt32
  size : UInt32
  name : Bytes
  localExtra : Bytes
  data : Bytes
  gap : Bytes
  centralVersions : Unread 4
  centralModified : Unread 4
  attributes : Unread 8
  centralExtra : Bytes
  centralComment : Bytes
  comment : Bytes
  flags_clear : flags &&& 0x0009 = 0
  method_known : method = 0 ∨ method = 8
  size_ne_zero : size ≠ 0
  size_le : size ≤ kMaximumPayloadSize
  data_le : data.length ≤ kMaximumPayloadSize.toNat
  name_short : name.length < 0x10000
  localExtra_short : localExtra.length < 0x10000
  centralExtra_short : centralExtra.length < 0x10000
  centralComment_short : centralComment.length < 0x10000
  comment_short : comment.length < 0x10000

namespace Entry

def localHeader (e : Entry) : Bytes :=
  writeLE32 kLocalHeader.toNat ++ (e.version.1 ++ (writeLE16 e.flags.toNat ++ (writeLE16 e.method.toNat ++ (e.modified.1 ++
    (writeLE32 e.crc.toNat ++ (writeLE32 e.data.length ++ (writeLE32 e.size.toNat ++
      (writeLE16 e.name.length ++ writeLE16 e.localExtra.length))))))))

def centralOffset (e : Entry) : Nat :=
  e.front.length + 30 + e.name.length + e.localExtra.length + e.data.length + e.gap.length

def centralSize (e : Entry) : Nat := 46 + e.name.length + e.centralExtra.length + e.centralComment.length

def centralHeader (e : Entry) : Bytes :=
  writeLE32 kCentralHeader.toNat ++ (e.centralVersions.1 ++ (writeLE16 e.flags.toNat ++ (writeLE16 e.method.toNat ++
    (e.centralModified.1 ++ (writeLE32 e.crc.toNat ++ (writeLE32 e.data.length ++ (writeLE32 e.size.toNat ++
      (writeLE16 e.name.length ++ (writeLE16 e.centralExtra.length ++ (writeLE16 e.centralComment.length ++
        (e.attributes.1 ++ writeLE32 e.front.length)))))))))))

/-- One disk, one entry. -/
def endRecord (e : Entry) : Bytes :=
  writeLE32 kEndOfCentralDirectory.toNat ++ (writeLE16 0 ++ (writeLE16 0 ++ (writeLE16 1 ++ (writeLE16 1 ++
    (writeLE32 e.centralSize ++ (writeLE32 e.centralOffset ++ writeLE16 e.comment.length))))))

def bytes (e : Entry) : Bytes :=
  e.front ++ (e.localHeader ++ (e.name ++ (e.localExtra ++ (e.data ++ (e.gap ++ (e.centralHeader ++ (e.name ++
    (e.centralExtra ++ (e.centralComment ++ (e.endRecord ++ e.comment))))))))))

/-- The bytes of the entry, where no comment holds another end of a directory. -/
structure Form (e : Entry) (archive : Bytes) : Prop where
  bytes : archive = e.bytes
  last : ∀ i, e.centralOffset + e.centralSize < i → i + 22 ≤ archive.length →
    ¬ StandsAt archive i (writeLE32 kEndOfCentralDirectory.toNat)

def payload (e : Entry) : Payload where
  method := e.method
  expectedCrc := e.crc
  compressedSize := UInt32.ofNat e.data.length
  payloadSize := e.size
  compressed := e.data

@[simp] theorem length_localHeader (e : Entry) : e.localHeader.length = 30 := by
  simp only [localHeader, List.length_append, length_writeLE32, length_writeLE16, e.version.2, e.modified.2]

@[simp] theorem length_centralHeader (e : Entry) : e.centralHeader.length = 46 := by
  simp only [centralHeader, List.length_append, length_writeLE32, length_writeLE16, e.centralVersions.2,
    e.centralModified.2, e.attributes.2]

@[simp] theorem length_endRecord (e : Entry) : e.endRecord.length = 22 := rfl

theorem length_bytes (e : Entry) : e.bytes.length = e.centralOffset + e.centralSize + 22 + e.comment.length := by
  simp only [bytes, List.length_append, length_localHeader, length_centralHeader, length_endRecord, centralOffset,
    centralSize]
  omega

variable {e : Entry} {xs : Bytes} {off : Nat}

theorem standsAt_localHeader_iff : StandsAt xs off e.localHeader ↔
    StandsAt xs off (writeLE32 kLocalHeader.toNat) ∧ StandsAt xs (off + 4) e.version.1 ∧
    StandsAt xs (off + 6) (writeLE16 e.flags.toNat) ∧ StandsAt xs (off + 8) (writeLE16 e.method.toNat) ∧
    StandsAt xs (off + 10) e.modified.1 ∧ StandsAt xs (off + 14) (writeLE32 e.crc.toNat) ∧
    StandsAt xs (off + 18) (writeLE32 e.data.length) ∧ StandsAt xs (off + 22) (writeLE32 e.size.toNat) ∧
    StandsAt xs (off + 26) (writeLE16 e.name.length) ∧ StandsAt xs (off + 28) (writeLE16 e.localExtra.length) := by
  simp only [localHeader, standsAt_append_iff, length_writeLE32, length_writeLE16, e.version.2, e.modified.2, Nat.add_assoc,
    Nat.reduceAdd]

theorem standsAt_centralHeader_iff : StandsAt xs off e.centralHeader ↔
    StandsAt xs off (writeLE32 kCentralHeader.toNat) ∧ StandsAt xs (off + 4) e.centralVersions.1 ∧
    StandsAt xs (off + 8) (writeLE16 e.flags.toNat) ∧ StandsAt xs (off + 10) (writeLE16 e.method.toNat) ∧
    StandsAt xs (off + 12) e.centralModified.1 ∧ StandsAt xs (off + 16) (writeLE32 e.crc.toNat) ∧
    StandsAt xs (off + 20) (writeLE32 e.data.length) ∧ StandsAt xs (off + 24) (writeLE32 e.size.toNat) ∧
    StandsAt xs (off + 28) (writeLE16 e.name.length) ∧ StandsAt xs (off + 30) (writeLE16 e.centralExtra.length) ∧
    StandsAt xs (off + 32) (writeLE16 e.centralComment.length) ∧ StandsAt xs (off + 34) e.attributes.1 ∧
    StandsAt xs (off + 42) (writeLE32 e.front.length) := by
  simp only [centralHeader, standsAt_append_iff, length_writeLE32, length_writeLE16, e.centralVersions.2,
    e.centralModified.2, e.attributes.2, Nat.add_assoc, Nat.reduceAdd]

theorem standsAt_endRecord_iff : StandsAt xs off e.endRecord ↔
    StandsAt xs off (writeLE32 kEndOfCentralDirectory.toNat) ∧ StandsAt xs (off + 4) (writeLE16 0) ∧
    StandsAt xs (off + 6) (writeLE16 0) ∧ StandsAt xs (off + 8) (writeLE16 1) ∧ StandsAt xs (off + 10) (writeLE16 1) ∧
    StandsAt xs (off + 12) (writeLE32 e.centralSize) ∧ StandsAt xs (off + 16) (writeLE32 e.centralOffset) ∧
    StandsAt xs (off + 20) (writeLE16 e.comment.length) := by
  simp only [endRecord, standsAt_append_iff, length_writeLE32, length_writeLE16, Nat.add_assoc, Nat.reduceAdd]

/-- Each part at its place. -/
theorem standsAt_bytes_iff : StandsAt xs 0 e.bytes ↔
    StandsAt xs 0 e.front ∧ StandsAt xs e.front.length e.localHeader ∧ StandsAt xs (e.front.length + 30) e.name ∧
    StandsAt xs (e.front.length + 30 + e.name.length) e.localExtra ∧
    StandsAt xs (e.front.length + 30 + e.name.length + e.localExtra.length) e.data ∧
    StandsAt xs (e.front.length + 30 + e.name.length + e.localExtra.length + e.data.length) e.gap ∧
    StandsAt xs e.centralOffset e.centralHeader ∧ StandsAt xs (e.centralOffset + 46) e.name ∧
    StandsAt xs (e.centralOffset + 46 + e.name.length) e.centralExtra ∧
    StandsAt xs (e.centralOffset + 46 + e.name.length + e.centralExtra.length) e.centralComment ∧
    StandsAt xs (e.centralOffset + e.centralSize) e.endRecord ∧
    StandsAt xs (e.centralOffset + e.centralSize + 22) e.comment := by
  simp only [bytes, standsAt_append_iff, length_localHeader, length_centralHeader, length_endRecord, Nat.zero_add,
    centralOffset, centralSize, Nat.add_assoc]

end Entry
end SlsteamMoon.ManifestZip
