import SlsteamMoon.ManifestZip.Headers

/-! The headers that are read are those of an archive with a single entry, and what its extraction leaves. -/
namespace SlsteamMoon.ManifestZip
open KeyValues CheckedReads Check

variable {archive : Archive} {eocd : UInt32} {c : CentralEntry} {p : Payload}

/-- Parts in their places up to the end record that is found. -/
theorem Entry.form_of_parts (e : Entry) (hend : EndAt archive eocd) (hplace : e.centralOffset + e.centralSize = eocd.toNat)
    (hlength : eocd.toNat + 22 + e.comment.length = archive.1.length) (hparts : StandsAt archive.1 0 e.bytes) :
    e.Form archive.1 where
  bytes := by
    have hbytes : e.bytes.length = archive.1.length := by rw [e.length_bytes, hplace, hlength]
    exact ((standsAt_zero_iff hbytes).mp hparts).symm
  last := by
    rw [hplace]
    exact hend.last

/-- The parts that the headers speak of, and those between them. -/
theorem exists_entry (hend : EndAt archive eocd) (hc : CentralAt archive eocd c) (hp : LocalAt archive c p) :
    ∃ e : Entry, e.Form archive.1 ∧ p = e.payload := by
  obtain ⟨endComment, hendComment, hlength⟩ := hend.comment
  obtain ⟨name16, centralExtra16, centralComment16, hnameSize, hcentralName, hcentralExtra, hcentralComment, hsize,
    hdirectory⟩ := hc.sizes
  obtain ⟨localName, localExtra16, hlocalNameSize, hlocalName, hlocalExtra, hfits, hnames, rfl⟩ := hp.sizes
  have hsame : localName = name16 := by
    rw [← UInt16.toNat_inj, ← UInt16.toNat_toUInt32, hlocalNameSize, hnameSize, UInt16.toNat_toUInt32]
  subst hsame
  have hroom := hc.room
  have hcompressedLe := UInt32.le_iff_toNat_le.mp hc.compressed_le
  have ⟨front, hfrontLength, hfront⟩ := exists_standsAt (by omega : 0 + c.localOffset.toNat ≤ archive.1.length)
  have ⟨version, hversionLength, hversion⟩ := exists_standsAt (by omega : c.localOffset.toNat + 4 + 2 ≤ archive.1.length)
  have ⟨modified, hmodifiedLength, hmodified⟩ := exists_standsAt (by omega : c.localOffset.toNat + 10 + 4 ≤ archive.1.length)
  have ⟨localExtra, hlocalExtraLength, hlocalExtraStands⟩ := exists_standsAt
    (by omega : c.localOffset.toNat + 30 + localName.toNat + localExtra16.toNat ≤ archive.1.length)
  have ⟨gap, hgapLength, hgap⟩ := exists_standsAt
    (by omega : c.localOffset.toNat + 30 + localName.toNat + localExtra16.toNat + c.compressedSize.toNat +
      (c.offset.toNat - (c.localOffset.toNat + 30 + localName.toNat + localExtra16.toNat + c.compressedSize.toNat)) ≤
        archive.1.length)
  have ⟨centralVersions, hcentralVersionsLength, hcentralVersions⟩ := exists_standsAt
    (by omega : c.offset.toNat + 4 + 4 ≤ archive.1.length)
  have ⟨centralModified, hcentralModifiedLength, hcentralModified⟩ := exists_standsAt
    (by omega : c.offset.toNat + 12 + 4 ≤ archive.1.length)
  have ⟨attributes, hattributesLength, hattributes⟩ := exists_standsAt
    (by omega : c.offset.toNat + 34 + 8 ≤ archive.1.length)
  have ⟨centralExtra, hcentralExtraLength, hcentralExtraStands⟩ := exists_standsAt
    (by omega : c.offset.toNat + 46 + localName.toNat + centralExtra16.toNat ≤ archive.1.length)
  have ⟨centralComment, hcentralCommentLength, hcentralCommentStands⟩ := exists_standsAt
    (by omega : c.offset.toNat + 46 + localName.toNat + centralExtra16.toNat + centralComment16.toNat ≤ archive.1.length)
  have ⟨comment, hcommentLength, hcomment⟩ := exists_standsAt
    (by omega : eocd.toNat + 22 + endComment.toNat ≤ archive.1.length)
  have ⟨name, hnameLength, hname⟩ := exists_standsAt
    (by omega : c.localOffset.toNat + 30 + localName.toNat ≤ archive.1.length)
  have hnameCentral : StandsAt archive.1 (c.offset.toNat + 46) name := by
    rw [hname.eq_slice, hnameLength, hnames]
    exact standsAt_slice ..
  have ⟨data, hdataLength, hdata⟩ := exists_standsAt
    (by omega : c.localOffset.toNat + 30 + localName.toNat + localExtra16.toNat + c.compressedSize.toNat ≤ archive.1.length)
  have hsizes := And.intro localName.toNat_lt (And.intro localExtra16.toNat_lt (And.intro centralExtra16.toNat_lt
    (And.intro centralComment16.toNat_lt endComment.toNat_lt)))
  let e : Entry := {
    front, version := ⟨version, hversionLength⟩, flags := c.flags, method := c.method
    modified := ⟨modified, hmodifiedLength⟩, crc := c.expectedCrc, size := c.payloadSize, name, localExtra, data, gap
    centralVersions := ⟨centralVersions, hcentralVersionsLength⟩
    centralModified := ⟨centralModified, hcentralModifiedLength⟩, attributes := ⟨attributes, hattributesLength⟩
    centralExtra, centralComment, comment
    flags_clear := hc.flags_clear, method_known := hc.method_known, size_ne_zero := hc.size_ne_zero, size_le := hc.size_le
    data_le := by omega
    name_short := by omega
    localExtra_short := by omega
    centralExtra_short := by omega
    centralComment_short := by omega
    comment_short := by omega }
  have hlocal : e.centralOffset = c.offset.toNat := by
    change front.length + 30 + name.length + localExtra.length + data.length + gap.length = _
    omega
  have hcentral : e.centralSize = 46 + localName.toNat + centralExtra16.toNat + centralComment16.toNat := by
    change 46 + name.length + centralExtra.length + centralComment.length = _
    omega
  have hplace : e.centralOffset + e.centralSize = eocd.toNat := by omega
  refine ⟨e, e.form_of_parts hend hplace (by change _ + comment.length = _; omega) (Entry.standsAt_bytes_iff.mpr ?_), ?_⟩
  · rw [hplace, hlocal, Entry.standsAt_localHeader_iff, Entry.standsAt_centralHeader_iff, Entry.standsAt_endRecord_iff,
      hlocal, hcentral]
    dsimp only [e]
    rw [hfrontLength, hnameLength, hlocalExtraLength, hdataLength, hcentralExtraLength, hcentralCommentLength,
      hcommentLength]
    exact ⟨hfront, ⟨hc.localSignature, hversion, hp.flags, hp.method, hmodified, hp.crc, hp.compressedSize, hp.payloadSize,
      hlocalName, hlocalExtra⟩, hname, hlocalExtraStands, hdata, hgap, ⟨hc.signature, hcentralVersions, hc.flags, hc.method,
      hcentralModified, hc.expectedCrc, hc.compressedSize, hc.payloadSize, hcentralName, hcentralExtra, hcentralComment,
      hattributes, hc.localOffset⟩, hnameCentral, hcentralExtraStands, hcentralCommentStands, ⟨hend.signature, hend.disk,
      hend.centralDisk, hend.entriesHere, hend.entries, hsize, hc.offset, hendComment⟩, hcomment⟩
  · rw [Entry.payload]
    dsimp only [e]
    rw [← Nat.add_assoc, ← hdataLength, ← hdata.eq_slice, hdataLength, UInt32.ofNat_toNat]

namespace Entry

variable {e : Entry}

theorem Form.length_eq (h : e.Form archive.1) :
    e.centralOffset + e.centralSize + 22 + e.comment.length = archive.1.length := by
  rw [h.bytes, e.length_bytes]

/-- Places within the archive are the numbers of its headers. -/
theorem toNat_inside (archive : Archive) {n : Nat} (hn : n ≤ archive.1.length) : (UInt32.ofNat n).toNat = n := by
  have hbound := archive.2
  rw [UInt32.toNat_ofNat', Nat.mod_eq_of_lt (by omega)]

private theorem toNat_short {n : Nat} (h : n < 0x10000) : (UInt16.ofNat n).toNat = n := by
  rw [UInt16.toNat_ofNat', Nat.mod_eq_of_lt h]

/-- What the directory of the entry is read as. -/
def central (e : Entry) : CentralEntry where
  offset := UInt32.ofNat e.centralOffset
  flags := e.flags
  method := e.method
  expectedCrc := e.crc
  compressedSize := UInt32.ofNat e.data.length
  payloadSize := e.size
  nameSize := (UInt16.ofNat e.name.length).toUInt32
  localOffset := UInt32.ofNat e.front.length

theorem Form.parts (h : e.Form archive.1) : StandsAt archive.1 0 e.bytes := by
  rw [h.bytes]
  exact (standsAt_zero_iff rfl).mpr rfl

private theorem Form.endAt (h : e.Form archive.1) : EndAt archive (UInt32.ofNat (e.centralOffset + e.centralSize)) := by
  have hlength := h.length_eq
  have hplace := toNat_inside archive (by omega : e.centralOffset + e.centralSize ≤ archive.1.length)
  obtain ⟨-, -, -, -, -, -, -, -, -, -, hend, -⟩ := standsAt_bytes_iff.mp h.parts
  obtain ⟨hsignature, hdisk, hcentralDisk, hentriesHere, hentries, -, -, hcomment⟩ := standsAt_endRecord_iff.mp hend
  rw [← hplace] at hsignature hdisk hcentralDisk hentriesHere hentries hcomment
  rw [← toNat_short e.comment_short] at hcomment
  exact ⟨by omega, hsignature, by rw [hplace]; exact h.last, hdisk, hcentralDisk, hentriesHere, hentries, _, hcomment,
    by rw [hplace, toNat_short e.comment_short]; exact hlength⟩

private theorem Form.front_le (h : e.Form archive.1) :
    e.front.length + 30 + e.name.length + e.localExtra.length + e.data.length ≤ e.centralOffset ∧
      e.centralOffset + 46 + e.name.length ≤ archive.1.length := by
  have hlength := h.length_eq
  have hsize : e.centralSize = 46 + e.name.length + e.centralExtra.length + e.centralComment.length := rfl
  exact ⟨Nat.le_add_right _ _, by omega⟩

private theorem Form.toNat_central (h : e.Form archive.1) : e.central.offset.toNat = e.centralOffset ∧
    e.central.localOffset.toNat = e.front.length ∧ e.central.compressedSize.toNat = e.data.length ∧
    e.central.nameSize.toNat = e.name.length := by
  obtain ⟨hfront, hcentral⟩ := h.front_le
  refine ⟨toNat_inside archive (by omega), toNat_inside archive (by omega), toNat_inside archive (by omega), ?_⟩
  rw [central, UInt16.toNat_toUInt32, toNat_short e.name_short]

private theorem Form.centralAt (h : e.Form archive.1) :
    CentralAt archive (UInt32.ofNat (e.centralOffset + e.centralSize)) e.central := by
  have hlength := h.length_eq
  have hplace := toNat_inside archive (by omega : e.centralOffset + e.centralSize ≤ archive.1.length)
  obtain ⟨hfront, hroom⟩ := h.front_le
  obtain ⟨hoffset, hlocalOffset, hcompressed, hnameSize⟩ := h.toNat_central
  obtain ⟨-, hlocal, -, -, -, -, hcentral, -, -, -, hend, -⟩ := standsAt_bytes_iff.mp h.parts
  obtain ⟨-, -, -, -, -, hsize, hdirectory, -⟩ := standsAt_endRecord_iff.mp hend
  obtain ⟨hlocalSignature, -⟩ := standsAt_localHeader_iff.mp hlocal
  obtain ⟨hsignature, -, hflags, hmethod, -, hcrc, hcompressedSize, hpayloadSize, hname, hextra, hcomment, -,
    hplaceOfLocal⟩ := standsAt_centralHeader_iff.mp hcentral
  exact {
    offset := by rw [hplace, hoffset]; exact hdirectory
    signature := by rw [hoffset]; exact hsignature
    flags := by rw [hoffset]; exact hflags
    method := by rw [hoffset]; exact hmethod
    expectedCrc := by rw [hoffset]; exact hcrc
    compressedSize := by rw [hoffset, hcompressed]; exact hcompressedSize
    payloadSize := by rw [hoffset]; exact hpayloadSize
    sizes := by
      refine ⟨UInt16.ofNat e.name.length, UInt16.ofNat e.centralExtra.length, UInt16.ofNat e.centralComment.length, rfl, ?_⟩
      rw [hoffset, hplace, toNat_short e.name_short, toNat_short e.centralExtra_short, toNat_short e.centralComment_short]
      exact ⟨hname, hextra, hcomment, hsize, rfl⟩
    localOffset := by rw [hoffset, hlocalOffset]; exact hplaceOfLocal
    flags_clear := e.flags_clear
    method_known := e.method_known
    size_ne_zero := e.size_ne_zero
    size_le := e.size_le
    compressed_le := by rw [UInt32.le_iff_toNat_le, hcompressed]; exact e.data_le
    room := by rw [hoffset, hlocalOffset]; omega
    localSignature := by rw [hlocalOffset]; exact hlocalSignature }

private theorem Form.localAt (h : e.Form archive.1) : LocalAt archive e.central e.payload := by
  obtain ⟨hfront, hroom⟩ := h.front_le
  obtain ⟨hoffset, hlocalOffset, hcompressed, hnameSize⟩ := h.toNat_central
  obtain ⟨-, hlocal, hname, -, hdata, -, -, hnameCentral, -⟩ := standsAt_bytes_iff.mp h.parts
  obtain ⟨-, -, hflags, hmethod, -, hcrc, hcompressedSize, hpayloadSize, hlocalName, hextra⟩ :=
    standsAt_localHeader_iff.mp hlocal
  have hnames := hname.eq_slice.symm.trans hnameCentral.eq_slice
  exact {
    flags := by rw [hlocalOffset]; exact hflags
    method := by rw [hlocalOffset]; exact hmethod
    crc := by rw [hlocalOffset]; exact hcrc
    compressedSize := by rw [hlocalOffset, hcompressed]; exact hcompressedSize
    payloadSize := by rw [hlocalOffset]; exact hpayloadSize
    sizes := by
      refine ⟨UInt16.ofNat e.name.length, UInt16.ofNat e.localExtra.length, rfl, ?_⟩
      rw [hlocalOffset, hoffset, hcompressed, toNat_short e.name_short, toNat_short e.localExtra_short, ← Nat.add_assoc,
        ← hdata.eq_slice]
      exact ⟨hlocalName, hextra, hfront, hnames, rfl⟩ }

end Entry

/-- The headers are read as those of an entry exactly when the archive has its form. -/
theorem passes_readPayload : Passes (readPayload archive) fun p => ∃ e : Entry, e.Form archive.1 ∧ p = e.payload := by
  rw [readPayload]
  apply Passes.congr
  · apply passes_readEnd.bind
    intro eocd hend
    apply (passes_readCentral hend.room).bind
    intro c hc
    have hroom := hend.room
    obtain ⟨name, extra, comment, hnameSize, -, -, -, -, hdirectory⟩ := hc.sizes
    refine passes_readLocal hc.room ?_
    rw [hnameSize, UInt16.toNat_toUInt32]
    omega
  · intro p
    constructor
    · rintro ⟨eocd, hend, c, hc, hp⟩
      exact exists_entry hend hc hp
    · rintro ⟨e, he, rfl⟩
      exact ⟨_, he.endAt, e.central, he.centralAt, he.localAt⟩

/-- The reflected polynomial, one bit at a time. -/
def checksum (bytes : Bytes) : UInt32 :=
  ~~~bytes.foldl (fun crc b => Nat.repeat (fun crc => if crc &&& 1 = 1 then crc >>> 1 ^^^ 0xedb88320 else crc >>> 1) 8
    (crc ^^^ b.toUInt32)) 0xffffffff

/-- What the library is documented to do: at the end of a stream the buffer begins with what its input stands for. -/
structure Zlib.Documented (zlib : Zlib) (Decompresses : Bytes → Bytes → Prop) : Prop where
  stream_end : ∀ data room, (zlib.inflate data room).code = kZStreamEnd →
    Decompresses (data.take (zlib.inflate data room).totalIn.toNat)
      ((zlib.inflate data room).buffer.1.take (zlib.inflate data room).totalOut.toNat)
  crc32_eq : ∀ bytes, zlib.crc32 bytes = checksum bytes

/-- The payload that an entry declares. -/
structure Entry.Holds (e : Entry) (Decompresses : Bytes → Bytes → Prop) (output : Bytes) : Prop where
  payload : e.method = 0 ∧ output = e.data ∨ e.method = 8 ∧ Decompresses e.data output
  size : output.length = e.size.toNat
  crc : checksum output = e.crc

variable {zlib : Zlib} {output : Bytes} {crc : UInt32} {e : Entry}

private theorem checkCrc_ok (h : (checkCrc zlib crc output).ok = true) :
    (checkCrc zlib crc output).output = output ∧ zlib.crc32 output = crc := by
  rw [checkCrc] at h ⊢
  split_ifs at h ⊢ with hcrc
  exact ⟨rfl, not_not.mp hcrc⟩

private theorem checkCrc_refused (h : (checkCrc zlib crc output).ok = false) :
    (checkCrc zlib crc output).output = [] := by
  rw [checkCrc] at h ⊢
  split_ifs at h ⊢ with hcrc
  rfl

private theorem inflatePayload_complete {data : Bytes} {size : UInt32}
    (h : (inflatePayload zlib data size []).1 = true) :
    (zlib.inflate data size).code = kZStreamEnd ∧ (zlib.inflate data size).totalIn = UInt32.ofNat data.length ∧
      (zlib.inflate data size).totalOut = size ∧
      (inflatePayload zlib data size []).2 = (zlib.inflate data size).buffer.1 := by
  rw [inflatePayload] at h ⊢
  split_ifs at h ⊢ with havailable hinit
  dsimp only at h ⊢
  rw [if_pos h]
  rw [Bool.and_eq_true, Bool.and_eq_true, decide_eq_true_eq, decide_eq_true_eq, decide_eq_true_eq] at h
  exact ⟨h.1.1, h.1.2, h.2, rfl⟩

/-- Zeros are left where inflate could not be initialized. -/
theorem inflatePayload_failed {data : Bytes} {size : UInt32} (havailable : zlib.available = true)
    (h : (inflatePayload zlib data size []).1 = false) :
    (inflatePayload zlib data size []).2 = if zlib.inflateInit2 ≠ kZOk then List.replicate size.toNat 0 else [] := by
  rw [inflatePayload, if_neg (by simp [havailable])] at h ⊢
  split_ifs at h ⊢ with hinit
  · rfl
  · dsimp only at h ⊢
    rw [if_neg (by rw [h]; exact Bool.false_ne_true)]

private theorem unpack_ok {Decompresses : Bytes → Bytes → Prop} (hzlib : zlib.Documented Decompresses)
    (hdata : e.data.length < 0x100000000) (h : (unpack zlib e.payload).ok = true) :
    e.Holds Decompresses (unpack zlib e.payload).output := by
  rw [unpack] at h ⊢
  split_ifs at h ⊢ with havailable hmethod hsizes
  · obtain ⟨houtput, hcrc⟩ := checkCrc_ok h
    rw [houtput]
    have hsize : (UInt32.ofNat e.data.length).toNat = e.size.toNat := congrArg UInt32.toNat (not_not.mp hsizes)
    rw [UInt32.toNat_ofNat', Nat.mod_eq_of_lt hdata] at hsize
    exact ⟨.inl ⟨hmethod, rfl⟩, hsize, by rw [← hzlib.crc32_eq]; exact hcrc⟩
  · dsimp only at h ⊢
    split_ifs at h ⊢ with hcomplete
    obtain ⟨hcode, hin, hout, hbuffer⟩ := inflatePayload_complete hcomplete
    dsimp only [Entry.payload] at hcode hin hout hbuffer h ⊢
    obtain ⟨houtput, hcrc⟩ := checkCrc_ok h
    have hsize := (zlib.inflate e.data e.size).buffer.2
    have hstream := hzlib.stream_end e.data e.size hcode
    rw [hin, hout, UInt32.toNat_ofNat', Nat.mod_eq_of_lt hdata, List.take_length,
      List.take_of_length_le (Nat.le_of_eq hsize)] at hstream
    rw [houtput, hbuffer]
    rw [hbuffer, hzlib.crc32_eq] at hcrc
    exact ⟨.inr ⟨e.method_known.resolve_left hmethod, hstream⟩, hsize, hcrc⟩

private theorem inflatePayload_uninitialized {data : Bytes} {size : UInt32} (h : zlib.inflateInit2 ≠ kZOk) :
    (inflatePayload zlib data size []).1 = false := by
  rw [inflatePayload, if_pos h]
  split_ifs <;> rfl

private theorem unpack_refused_iff : ((unpack zlib e.payload).ok = false → (unpack zlib e.payload).output = []) ↔
    ¬(zlib.available = true ∧ zlib.inflateInit2 ≠ kZOk ∧ e.method = 8) := by
  rw [unpack]
  split_ifs with havailable hmethod hsizes
  · exact iff_of_true (fun _ => rfl) fun h => by simp [havailable] at h
  · exact iff_of_true (fun _ => rfl) fun h => by simp [show e.method = 0 from hmethod] at h
  · exact iff_of_true checkCrc_refused fun h => by simp [show e.method = 0 from hmethod] at h
  · have hdeflated : e.method = 8 := e.method_known.resolve_left hmethod
    have havailable : zlib.available = true := Bool.not_eq_false .. |>.mp havailable
    dsimp only
    split_ifs with hcomplete
    · refine iff_of_true checkCrc_refused fun h => ?_
      rw [inflatePayload_uninitialized h.2.1] at hcomplete
      exact Bool.false_ne_true hcomplete
    · rw [inflatePayload_failed havailable (Bool.not_eq_true .. |>.mp hcomplete)]
      split_ifs with hinit
      · have hsize : e.size.toNat ≠ 0 := fun h => e.size_ne_zero (UInt32.toNat_inj.mp h)
        refine iff_of_false (fun h => hsize ?_) (not_not.mpr ⟨havailable, hinit, hdeflated⟩)
        exact (List.replicate_eq_nil_iff _).mp (h rfl)
      · exact iff_of_true (fun _ => rfl) fun h => hinit h.2.1

/-- An extraction reads inside the archive, what it accepts is the payload of the single entry, and what it refuses
    leaves no output unless inflate could not be initialized for a deflated entry. -/
theorem extract_single_file {Decompresses : Bytes → Bytes → Prop} (hzlib : zlib.Documented Decompresses)
    (archive : Archive) :
    ∃ r, extractSingleFile zlib archive = some r ∧
      (r.ok = true → r.output.length ≤ 64 * 1024 * 1024 ∧
        ∃ e : Entry, e.Form archive.1 ∧ e.Holds Decompresses r.output) ∧
      ((r.ok = false → r.output = []) ↔
        ¬(zlib.available = true ∧ zlib.inflateInit2 ≠ kZOk ∧ ∃ e : Entry, e.Form archive.1 ∧ e.method = 8)) := by
  have hread := @passes_readPayload archive
  rw [extractSingleFile]
  cases hpayload : readPayload archive with
  | outside => exact absurd hpayload hread.inside
  | refused diagnostic =>
    refine ⟨_, rfl, nofun, iff_of_true (fun _ => rfl) ?_⟩
    rintro ⟨-, -, e, he, -⟩
    have hpassed := (hread.iff e.payload).mpr ⟨e, he, rfl⟩
    rw [hpayload] at hpassed
    cases hpassed
  | passed p =>
    obtain ⟨e, he, rfl⟩ := (hread.iff p).mp hpayload
    refine ⟨_, rfl, fun hok => ?_, unpack_refused_iff.trans (not_congr ?_)⟩
    · have hdata : e.data.length < 0x100000000 := Nat.lt_of_le_of_lt e.data_le (by decide)
      have hholds := unpack_ok hzlib hdata hok
      refine ⟨?_, e, he, hholds⟩
      rw [hholds.size]
      exact UInt32.le_iff_toNat_le.mp e.size_le
    · refine and_congr_right fun _ => and_congr_right fun _ => ⟨fun hmethod => ⟨e, he, hmethod⟩, ?_⟩
      rintro ⟨e', he', hmethod⟩
      have hpassed := (hread.iff e'.payload).mpr ⟨e', he', rfl⟩
      rw [hpayload] at hpassed
      exact (congrArg Payload.method (Check.passed.inj hpassed)).trans hmethod

/-- The stream of one block that is stored as it is. -/
def storedBlock (payload : Bytes) : Bytes :=
  1 :: (writeLE16 payload.length ++ (writeLE16 (0xffff - payload.length) ++ payload))

/-- The library on streams of one stored block; other data is an error. -/
def storedZlib : Zlib where
  available := true
  inflateInit2 := kZOk
  inflate data room :=
    if h : (data.drop 5).length = room.toNat ∧ data = storedBlock (data.drop 5) ∧ data.length < 0x100000000 then
      ⟨kZStreamEnd, UInt32.ofNat data.length, room, ⟨data.drop 5, h.1⟩⟩
    else ⟨-3, 0, 0, ⟨List.replicate room.toNat 0, List.length_replicate⟩⟩
  crc32 := checksum

private theorem storedZlib_documented : storedZlib.Documented fun data payload => data = storedBlock payload where
  stream_end data room h := by
    rw [storedZlib] at h ⊢
    dsimp only at h ⊢
    split_ifs at h ⊢ with hstored
    · obtain ⟨hroom, hblock, hlength⟩ := hstored
      dsimp only
      rwa [UInt32.toNat_ofNat', Nat.mod_eq_of_lt hlength, List.take_length, List.take_of_length_le (Nat.le_of_eq hroom)]
    · cases h
  crc32_eq _ := rfl

/-- An entry of one byte. -/
def letter : Entry where
  front := []
  version := ⟨[20, 0], rfl⟩
  flags := 0
  method := 8
  modified := ⟨[0, 0, 0, 0], rfl⟩
  crc := 0xd3d99e8b
  size := 1
  name := [122]
  localExtra := []
  data := storedBlock [65]
  gap := []
  centralVersions := ⟨[20, 0, 20, 0], rfl⟩
  centralModified := ⟨[0, 0, 0, 0], rfl⟩
  attributes := ⟨[0, 0, 0, 0, 0, 0, 0, 0], rfl⟩
  centralExtra := []
  centralComment := []
  comment := []
  flags_clear := by decide
  method_known := .inr rfl
  size_ne_zero := by decide
  size_le := by decide
  data_le := by decide
  name_short := by decide
  localExtra_short := by decide
  centralExtra_short := by decide
  centralComment_short := by decide
  comment_short := by decide

def letterArchive : Archive := ⟨letter.bytes, by decide⟩

theorem extract_single_file_letter : (extractSingleFile storedZlib letterArchive).any (·.output = [65]) = true ∧
    ∃ r, extractSingleFile storedZlib letterArchive = some r ∧
      (r.ok = true → r.output.length ≤ 64 * 1024 * 1024 ∧
        ∃ e : Entry, e.Form letterArchive.1 ∧ e.Holds (fun data payload => data = storedBlock payload) r.output) ∧
      ((r.ok = false → r.output = []) ↔ ¬(storedZlib.available = true ∧ storedZlib.inflateInit2 ≠ kZOk ∧
        ∃ e : Entry, e.Form letterArchive.1 ∧ e.method = 8)) :=
  ⟨by decide, extract_single_file storedZlib_documented letterArchive⟩

/-- Without memory for inflate the answer is false and the output is not empty. -/
theorem extract_single_file_zeros :
    (extractSingleFile { storedZlib with inflateInit2 := -4 } letterArchive).map (fun r => (r.ok, r.output)) =
      some (false, [0]) := by decide

end SlsteamMoon.ManifestZip
