import SlsteamMoon.ManifestZip.Extract

/-! What the three headers are read as, each when it is in place. -/
namespace SlsteamMoon.ManifestZip
open KeyValues CheckedReads Check

variable {archive : Archive} {offset : UInt32} {n : Nat}

/-- The place of an end record, the last of its signatures that leaves room for one. -/
structure IsEnd (archive : Archive) (first last : Nat) (eocd : UInt32) : Prop where
  ge : first ≤ eocd.toNat
  le : eocd.toNat ≤ last
  signature : StandsAt archive.1 eocd.toNat (writeLE32 kEndOfCentralDirectory.toNat)
  last : ∀ i, eocd.toNat < i → i ≤ last → ¬StandsAt archive.1 i (writeLE32 kEndOfCentralDirectory.toNat)

theorem IsEnd.unique {first last : Nat} {o o' : UInt32} (h : IsEnd archive first last o) (h' : IsEnd archive first last o') :
    o = o' := by
  rw [← UInt32.toNat_inj]
  rcases Nat.lt_trichotomy o.toNat o'.toNat with hlt | heq | hgt
  · exact absurd h'.signature (h.last _ hlt h'.le)
  · exact heq
  · exact absurd h.signature (h'.last _ hgt h.le)

/-- The answer of the search between two places. -/
def Ends (archive : Archive) (first last : Nat) (eocd : UInt32) : Prop :=
  IsEnd archive first last eocd ∨ eocd = npos ∧ ∀ o, ¬IsEnd archive first last o

/-- One turn of the search: it stops at a signature. -/
theorem passes_look {first last : Nat} (hoffset : offset.toNat = last) (hfirst : first ≤ last)
    (h : last + 22 ≤ archive.1.length) {rest : Reading UInt32}
    (hrest : ¬StandsAt archive.1 last (writeLE32 kEndOfCentralDirectory.toNat) → Passes rest (Ends archive first last)) :
    Passes (do if (← read32 archive offset) = kEndOfCentralDirectory then return offset else rest)
      (Ends archive first last) := by
  obtain ⟨v, hv, hstands⟩ := read32_inside hoffset (by omega : last + 4 ≤ archive.1.length)
  rw [hv, passed_bind]
  split_ifs with hsignature
  · subst hsignature
    have hend : IsEnd archive first last offset :=
      ⟨by omega, by omega, by rwa [hoffset], fun i hlt hle => absurd hle (by omega)⟩
    refine passes_of_unique rfl (.inl hend) ?_
    rintro o (ho | ⟨-, hnone⟩)
    · exact ho.unique hend
    · exact absurd hend (hnone offset)
  · exact hrest fun hsig => hsignature (number32_unique hstands hsig)

/-- Without a signature there the last place can be left out. -/
theorem isEnd_succ_iff {first last : Nat}
    (h : ¬StandsAt archive.1 (last + 1) (writeLE32 kEndOfCentralDirectory.toNat)) {o : UInt32} :
    IsEnd archive first last o ↔ IsEnd archive first (last + 1) o := by
  constructor
  · intro ho
    refine ⟨ho.ge, Nat.le_succ_of_le ho.le, ho.signature, fun i hlt hle => ?_⟩
    rcases Nat.lt_or_eq_of_le hle with hle | rfl
    · exact ho.last i hlt (Nat.le_of_lt_succ hle)
    · exact h
  · intro ho
    have hne : o.toNat ≠ last + 1 := fun heq => h (heq ▸ ho.signature)
    have hle := ho.le
    exact ⟨ho.ge, by omega, ho.signature, fun i hlt hi => ho.last i hlt (Nat.le_succ_of_le hi)⟩

private theorem passes_searchDown {start : UInt32} {n : Nat} (h : start.toNat + n + 22 ≤ archive.1.length) :
    Passes (searchDown archive start n) (Ends archive start.toNat (start.toNat + n)) := by
  induction n with
  | zero =>
    rw [searchDown]
    refine passes_look rfl (Nat.le_refl _) h fun hsignature => ?_
    have hnone : ∀ o, ¬IsEnd archive start.toNat start.toNat o := fun o ho =>
      hsignature (Nat.le_antisymm ho.le ho.ge ▸ ho.signature)
    refine passes_of_unique rfl (.inr ⟨rfl, hnone⟩) ?_
    rintro o (ho | ⟨ho, -⟩)
    · exact absurd ho (hnone o)
    · exact ho
  | succ n ih =>
    have hbound := archive.2
    have hn : (UInt32.ofNat (n + 1)).toNat = n + 1 := by
      rw [UInt32.toNat_ofNat', Nat.mod_eq_of_lt (by omega)]
    have hoffset : (start + UInt32.ofNat (n + 1)).toNat = start.toNat + (n + 1) := by
      rw [toNat_add_small (by omega), hn]
    rw [searchDown]
    refine passes_look hoffset (Nat.le_add_right _ _) h fun hsignature => ?_
    refine (ih (by omega)).congr fun o => ?_
    have hsucc : ∀ o, IsEnd archive start.toNat (start.toNat + n) o ↔ IsEnd archive start.toNat (start.toNat + (n + 1)) o :=
      fun o => isEnd_succ_iff hsignature
    exact or_congr (hsucc o) (and_congr_right fun _ => forall_congr' fun o => not_congr (hsucc o))

private theorem passes_find (h : 22 ≤ archive.1.length) : Passes (findEndOfCentralDirectory archive)
    (Ends archive (archive.1.length - 65557) (archive.1.length - 22)) := by
  have hbound := archive.2
  have hsize := archive.toNat_size
  have h22 : (22 : UInt32) ≤ archive.size := UInt32.le_iff_toNat_le.mpr (by rw [hsize]; exact h)
  have hlast : (archive.size - 22).toNat = archive.1.length - 22 := by
    rw [UInt32.toNat_sub_of_le _ _ h22, hsize]
    rfl
  have hstart : (if kMaximumEocdSearch < archive.size then archive.size - kMaximumEocdSearch else 0).toNat =
      archive.1.length - 65557 := by
    split_ifs with hlong
    · rw [UInt32.toNat_sub_of_le _ _ (UInt32.le_of_lt hlong), hsize]
      rfl
    · have hshort := UInt32.lt_iff_toNat_lt.not.mp hlong
      rw [hsize] at hshort
      change ¬65557 < archive.1.length at hshort
      exact (Nat.sub_eq_zero_of_le (by omega)).symm
  rw [findEndOfCentralDirectory, if_neg (UInt32.not_lt.mpr h22)]
  dsimp only
  generalize (if kMaximumEocdSearch < archive.size then archive.size - kMaximumEocdSearch else 0) = start at hstart
  have hcount : (archive.size - 22 - start).toNat = archive.1.length - 22 - start.toNat := by
    rw [UInt32.toNat_sub_of_le, hlast]
    rw [UInt32.le_iff_toNat_le, hlast]
    omega
  have hsearch := @passes_searchDown archive start (archive.size - 22 - start).toNat (by omega)
  have hend : start.toNat + (archive.size - 22 - start).toNat = archive.1.length - 22 := by omega
  rwa [hend, hstart] at hsearch

/-- The end record as it is read, with a comment up to the end of the archive. -/
structure EndAt (archive : Archive) (eocd : UInt32) : Prop where
  room : eocd.toNat + 22 ≤ archive.1.length
  signature : StandsAt archive.1 eocd.toNat (writeLE32 kEndOfCentralDirectory.toNat)
  last : ∀ i, eocd.toNat < i → i + 22 ≤ archive.1.length → ¬StandsAt archive.1 i (writeLE32 kEndOfCentralDirectory.toNat)
  disk : StandsAt archive.1 (eocd.toNat + 4) (writeLE16 0)
  centralDisk : StandsAt archive.1 (eocd.toNat + 6) (writeLE16 0)
  entriesHere : StandsAt archive.1 (eocd.toNat + 8) (writeLE16 1)
  entries : StandsAt archive.1 (eocd.toNat + 10) (writeLE16 1)
  comment : ∃ size : UInt16, StandsAt archive.1 (eocd.toNat + 20) (writeLE16 size.toNat) ∧
    eocd.toNat + 22 + size.toNat = archive.1.length

private theorem ne_npos {eocd : UInt32} (h : eocd.toNat + 22 ≤ archive.1.length) : eocd ≠ npos := by
  have hbound := archive.2
  rintro rfl
  change 0xffffffff + 22 ≤ _ at h
  omega

private theorem missing_iff {eocd : UInt32} :
    (eocd = npos || !rangeFits eocd 22 archive.size) = false ↔ eocd.toNat + 22 ≤ archive.1.length := by
  rw [Bool.or_eq_false_iff, decide_eq_false_iff_not, Bool.not_eq_false', rangeFits_iff, archive.toNat_size]
  exact and_iff_right_of_imp ne_npos

private theorem truncated_iff {eocd : UInt32} {size : UInt16} (h : eocd.toNat + 22 ≤ archive.1.length) :
    (!rangeFits (eocd + 22) size.toUInt32 archive.size || eocd + 22 + size.toUInt32 ≠ archive.size) = false ↔
      eocd.toNat + 22 + size.toNat = archive.1.length := by
  have hbound := archive.2
  have hsize := size.toNat_toUInt32
  have h22 : (eocd + 22).toNat = eocd.toNat + 22 := toNat_add_inside rfl h
  rw [Bool.or_eq_false_iff, Bool.not_eq_false', rangeFits_iff, decide_eq_false_iff_not, ne_eq, not_not, ← UInt32.toNat_inj,
    archive.toNat_size, h22, hsize]
  constructor
  · rintro ⟨hfit, heq⟩
    rwa [toNat_add_small (by omega), h22, hsize] at heq
  · intro heq
    refine ⟨Nat.le_of_eq heq, ?_⟩
    rw [toNat_add_small (by omega), h22, hsize, heq]

theorem passes_readEnd : Passes (readEnd archive) (EndAt archive) := by
  rw [readEnd]
  by_cases h : 22 ≤ archive.1.length
  · apply Passes.congr
    · apply (passes_find h).bind
      intro eocd heocd
      apply (guards_pure missing_iff).refuseIf
      intro hroom
      apply (passes_read16_add 20 rfl hroom).bind
      intro commentSize hcomment
      apply (guards_pure (truncated_iff hroom)).refuseIf
      intro hend
      apply Guards.refuseIf
      · apply (guards_read16_add 4 rfl (by omega) 0).either
        intro hdisk
        apply (guards_read16_add 6 rfl (by omega) 0).either
        intro hcentralDisk
        apply (guards_read16_add 8 rfl (by omega) 1).either
        intro hentriesHere
        exact guards_read16_add 10 rfl (by omega) 1
      · exact fun _ => passes_pure eocd
    · intro eocd
      constructor
      · rintro ⟨eocd, hend | ⟨hnpos, -⟩, hroom, size, hsize, hcomment, ⟨hdisk, hcentralDisk, hentriesHere, hentries⟩, rfl⟩
        · exact ⟨hroom, hend.signature, fun i hlt hle => hend.last i hlt (by omega), hdisk, hcentralDisk, hentriesHere,
            hentries, size, hsize, hcomment⟩
        · exact absurd hnpos (ne_npos hroom)
      · intro hend
        obtain ⟨size, hsize, hcomment⟩ := hend.comment
        have hshort := size.toNat_lt
        have hroom := hend.room
        have his : IsEnd archive (archive.1.length - 65557) (archive.1.length - 22) eocd :=
          ⟨by omega, by omega, hend.signature, fun i hlt hle => hend.last i hlt (by omega)⟩
        exact ⟨eocd, .inl his, hroom, size, hsize, hcomment,
          ⟨hend.disk, hend.centralDisk, hend.entriesHere, hend.entries⟩, rfl⟩
  · have hshort : archive.size < 22 := by
      rw [UInt32.lt_iff_toNat_lt, archive.toNat_size]
      exact Nat.lt_of_not_le h
    rw [findEndOfCentralDirectory, if_pos hshort]
    refine (passes_refused _).congr fun eocd => iff_of_false id fun hend => ?_
    have hroom := hend.room
    omega

/-- The directory as it is read: one entry, up to the end record. -/
structure CentralAt (archive : Archive) (eocd : UInt32) (c : CentralEntry) : Prop where
  offset : StandsAt archive.1 (eocd.toNat + 16) (writeLE32 c.offset.toNat)
  signature : StandsAt archive.1 c.offset.toNat (writeLE32 kCentralHeader.toNat)
  flags : StandsAt archive.1 (c.offset.toNat + 8) (writeLE16 c.flags.toNat)
  method : StandsAt archive.1 (c.offset.toNat + 10) (writeLE16 c.method.toNat)
  expectedCrc : StandsAt archive.1 (c.offset.toNat + 16) (writeLE32 c.expectedCrc.toNat)
  compressedSize : StandsAt archive.1 (c.offset.toNat + 20) (writeLE32 c.compressedSize.toNat)
  payloadSize : StandsAt archive.1 (c.offset.toNat + 24) (writeLE32 c.payloadSize.toNat)
  sizes : ∃ name extra comment : UInt16, c.nameSize = name.toUInt32 ∧
    StandsAt archive.1 (c.offset.toNat + 28) (writeLE16 name.toNat) ∧
    StandsAt archive.1 (c.offset.toNat + 30) (writeLE16 extra.toNat) ∧
    StandsAt archive.1 (c.offset.toNat + 32) (writeLE16 comment.toNat) ∧
    StandsAt archive.1 (eocd.toNat + 12) (writeLE32 (46 + name.toNat + extra.toNat + comment.toNat)) ∧
    c.offset.toNat + (46 + name.toNat + extra.toNat + comment.toNat) = eocd.toNat
  localOffset : StandsAt archive.1 (c.offset.toNat + 42) (writeLE32 c.localOffset.toNat)
  flags_clear : c.flags &&& 0x0009 = 0
  method_known : c.method = 0 ∨ c.method = 8
  size_ne_zero : c.payloadSize ≠ 0
  size_le : c.payloadSize ≤ kMaximumPayloadSize
  compressed_le : c.compressedSize ≤ kMaximumPayloadSize
  room : c.localOffset.toNat + 30 ≤ c.offset.toNat
  localSignature : StandsAt archive.1 c.localOffset.toNat (writeLE32 kLocalHeader.toNat)

private theorem directory_iff {eocd offset size : UInt32} :
    (!rangeFits offset size eocd || offset + size ≠ eocd || size < 46) = false ↔
      offset.toNat + size.toNat = eocd.toNat ∧ 46 ≤ size.toNat := by
  have hbound := eocd.toNat_lt
  rw [Bool.or_eq_false_iff, Bool.or_eq_false_iff, Bool.not_eq_false', rangeFits_iff, decide_eq_false_iff_not, ne_eq, not_not,
    ← UInt32.toNat_inj, decide_eq_false_iff_not, UInt32.lt_iff_toNat_lt, Nat.not_lt]
  refine and_congr_left fun _ => ⟨?_, fun h => ?_⟩
  · rintro ⟨hfit, heq⟩
    rwa [toNat_add_small (by omega)] at heq
  · exact ⟨Nat.le_of_eq h, by rw [toNat_add_small (by omega), h]⟩

private theorem policy_iff {size payloadSize compressedSize lo offset : UInt32}
    {flags method name extra comment : UInt16} :
    (46 + name.toUInt32 + extra.toUInt32 + comment.toUInt32 ≠ size || flags &&& 0x0009 ≠ 0 || (method ≠ 0 && method ≠ 8)
        || payloadSize = 0 || kMaximumPayloadSize < payloadSize || kMaximumPayloadSize < compressedSize
        || !rangeFits lo 30 offset) = false ↔
      46 + name.toNat + extra.toNat + comment.toNat = size.toNat ∧ flags &&& 0x0009 = 0 ∧ (method = 0 ∨ method = 8) ∧
        payloadSize ≠ 0 ∧ payloadSize ≤ kMaximumPayloadSize ∧ compressedSize ≤ kMaximumPayloadSize ∧
        lo.toNat + 30 ≤ offset.toNat := by
  have hname := name.toNat_lt
  have hextra := extra.toNat_lt
  have hcomment := comment.toNat_lt
  have hsum : (46 + name.toUInt32 + extra.toUInt32 + comment.toUInt32).toNat =
      46 + name.toNat + extra.toNat + comment.toNat := by
    rw [UInt32.toNat_add, UInt32.toNat_add, UInt32.toNat_add, UInt16.toNat_toUInt32, UInt16.toNat_toUInt32,
      UInt16.toNat_toUInt32]
    change (((46 + name.toNat) % 2 ^ 32 + extra.toNat) % 2 ^ 32 + comment.toNat) % 2 ^ 32 = _
    omega
  have hsize : 46 + name.toUInt32 + extra.toUInt32 + comment.toUInt32 = size ↔
      46 + name.toNat + extra.toNat + comment.toNat = size.toNat := by
    rw [← UInt32.toNat_inj, hsum]
  have hmethod : (decide (method ≠ 0) && decide (method ≠ 8)) = false ↔ method = 0 ∨ method = 8 := by
    rw [Bool.and_eq_false_iff, decide_eq_false_iff_not, decide_eq_false_iff_not, ne_eq, not_not, ne_eq, not_not]
  simp only [Bool.or_eq_false_iff, hmethod, decide_eq_false_iff_not, ne_eq, not_not, Bool.not_eq_false', rangeFits_iff,
    UInt32.not_lt, hsize, and_assoc]
  exact Iff.rfl

theorem passes_readCentral {eocd : UInt32} (h : eocd.toNat + 22 ≤ archive.1.length) :
    Passes (readCentral archive eocd) (CentralAt archive eocd) := by
  rw [readCentral]
  apply Passes.congr
  · apply (passes_read32_add 12 rfl (by omega)).bind
    intro centralSize hcentralSize
    apply (passes_read32_add 16 rfl (by omega)).bind
    intro centralOffset hcentralOffset
    apply Guards.refuseIf
    · apply (guards_pure directory_iff).either
      rintro ⟨hend, hsize⟩
      exact guards_read32 rfl (by omega) kCentralHeader
    rintro ⟨⟨hend, hsize⟩, hsignature⟩
    apply (passes_read16_add 8 rfl (by omega)).bind
    intro flags hflags
    apply (passes_read16_add 10 rfl (by omega)).bind
    intro method hmethod
    apply (passes_read32_add 16 rfl (by omega)).bind
    intro expectedCrc hexpectedCrc
    apply (passes_read32_add 20 rfl (by omega)).bind
    intro compressedSize hcompressedSize
    apply (passes_read32_add 24 rfl (by omega)).bind
    intro payloadSize hpayloadSize
    apply (passes_read16_add 28 rfl (by omega)).bind
    intro name hname
    apply (passes_read16_add 30 rfl (by omega)).bind
    intro extra hextra
    apply (passes_read16_add 32 rfl (by omega)).bind
    intro comment hcomment
    apply (passes_read32_add 42 rfl (by omega)).bind
    intro localOffset hlocalOffset
    apply Guards.refuseIf
    · apply (guards_pure policy_iff).either
      rintro ⟨-, -, -, -, -, -, hroom⟩
      exact guards_read32 rfl (by omega) kLocalHeader
    exact fun _ => passes_pure _
  · intro c
    constructor
    · rintro ⟨size, hsize, offset, hoffset, ⟨⟨hend, -⟩, hsignature⟩, flags, hflags, method, hmethod, crc, hcrc, compressed,
        hcompressed, payload, hpayload, name, hname, extra, hextra, comment, hcomment, lo, hlo,
        ⟨⟨hsum, hclear, hknown, hne, hle, hcompressedLe, hroom⟩, hlocal⟩, rfl⟩
      exact {
        offset := hoffset, signature := hsignature, flags := hflags, method := hmethod, expectedCrc := hcrc
        compressedSize := hcompressed, payloadSize := hpayload
        sizes := ⟨name, extra, comment, rfl, hname, hextra, hcomment, hsum ▸ hsize, hsum ▸ hend⟩
        localOffset := hlo, flags_clear := hclear, method_known := hknown, size_ne_zero := hne, size_le := hle
        compressed_le := hcompressedLe, room := hroom, localSignature := hlocal }
    · intro hc
      obtain ⟨name, extra, comment, hnameSize, hname, hextra, hcomment, hsize, hend⟩ := hc.sizes
      obtain ⟨offset, flags, method, crc, compressed, payload, nameSize, lo⟩ := c
      subst hnameSize
      have hnat : (UInt32.ofNat (46 + name.toNat + extra.toNat + comment.toNat)).toNat =
          46 + name.toNat + extra.toNat + comment.toNat := by
        have hbound := eocd.toNat_lt
        rw [UInt32.toNat_ofNat', Nat.mod_eq_of_lt (by omega)]
      exact ⟨UInt32.ofNat (46 + name.toNat + extra.toNat + comment.toNat), hnat.symm ▸ hsize, offset, hc.offset,
        ⟨⟨hnat.symm ▸ hend, by omega⟩, hc.signature⟩, flags, hc.flags, method, hc.method, crc, hc.expectedCrc, compressed,
        hc.compressedSize, payload, hc.payloadSize, name, hname, extra, hextra, comment, hcomment, lo, hc.localOffset,
        ⟨⟨hnat.symm, hc.flags_clear, hc.method_known, hc.size_ne_zero, hc.size_le, hc.compressed_le, hc.room⟩,
          hc.localSignature⟩, rfl⟩

/-- The local header as it is read, its name and its data. -/
structure LocalAt (archive : Archive) (c : CentralEntry) (p : Payload) : Prop where
  flags : StandsAt archive.1 (c.localOffset.toNat + 6) (writeLE16 c.flags.toNat)
  method : StandsAt archive.1 (c.localOffset.toNat + 8) (writeLE16 c.method.toNat)
  crc : StandsAt archive.1 (c.localOffset.toNat + 14) (writeLE32 c.expectedCrc.toNat)
  compressedSize : StandsAt archive.1 (c.localOffset.toNat + 18) (writeLE32 c.compressedSize.toNat)
  payloadSize : StandsAt archive.1 (c.localOffset.toNat + 22) (writeLE32 c.payloadSize.toNat)
  sizes : ∃ name extra : UInt16, name.toUInt32 = c.nameSize ∧
    StandsAt archive.1 (c.localOffset.toNat + 26) (writeLE16 name.toNat) ∧
    StandsAt archive.1 (c.localOffset.toNat + 28) (writeLE16 extra.toNat) ∧
    c.localOffset.toNat + 30 + (name.toNat + extra.toNat) + c.compressedSize.toNat ≤ c.offset.toNat ∧
    slice archive.1 (c.localOffset.toNat + 30) name.toNat = slice archive.1 (c.offset.toNat + 46) name.toNat ∧
    p = ⟨c.method, c.expectedCrc, c.compressedSize, c.payloadSize,
      slice archive.1 (c.localOffset.toNat + 30 + (name.toNat + extra.toNat)) c.compressedSize.toNat⟩

private theorem substr_inside {pos count : UInt32} (hn : pos.toNat = n) (h : n ≤ archive.1.length) :
    substr archive pos count = .passed (slice archive.1 n count.toNat) := by
  rw [substr, if_neg, hn]
  · rfl
  · rw [UInt32.lt_iff_toNat_lt, archive.toNat_size, hn, Nat.not_lt]
    exact h

private theorem toNat_variableSize (name extra : UInt16) :
    (name.toUInt32 + extra.toUInt32).toNat = name.toNat + extra.toNat := by
  have hname := name.toNat_lt
  have hextra := extra.toNat_lt
  rw [UInt32.toNat_add, UInt16.toNat_toUInt32, UInt16.toNat_toUInt32]
  omega

private theorem metadata_iff {flags flags' method method' : UInt16}
    {crc crc' compressed compressed' payload payload' : UInt32} {name extra : UInt16} {nameSize start offset : UInt32} :
    (flags ≠ flags' || method ≠ method' || crc ≠ crc' || compressed ≠ compressed' || payload ≠ payload'
        || name.toUInt32 ≠ nameSize || !rangeFits start (name.toUInt32 + extra.toUInt32) offset) = false ↔
      flags = flags' ∧ method = method' ∧ crc = crc' ∧ compressed = compressed' ∧ payload = payload' ∧
        name.toUInt32 = nameSize ∧ start.toNat + (name.toNat + extra.toNat) ≤ offset.toNat := by
  simp only [Bool.or_eq_false_iff, decide_eq_false_iff_not, ne_eq, not_not, Bool.not_eq_false', rangeFits_iff,
    toNat_variableSize, and_assoc]

theorem passes_readLocal {c : CentralEntry} (hroom : c.localOffset.toNat + 30 ≤ c.offset.toNat)
    (hc : c.offset.toNat + 46 + c.nameSize.toNat ≤ archive.1.length) : Passes (readLocal archive c) (LocalAt archive c) := by
  have hbound := archive.2
  have hstart : (c.localOffset + 30).toNat = c.localOffset.toNat + 30 :=
    toNat_add_inside rfl (by omega : c.localOffset.toNat + 30 ≤ archive.1.length)
  have hdirectory : (c.offset + 46).toNat = c.offset.toNat + 46 :=
    toNat_add_inside rfl (by omega : c.offset.toNat + 46 ≤ archive.1.length)
  rw [readLocal]
  apply Passes.congr
  · apply (passes_read16_add 6 rfl (by omega)).bind
    intro flags hflags
    apply (passes_read16_add 8 rfl (by omega)).bind
    intro method hmethod
    apply (passes_read32_add 14 rfl (by omega)).bind
    intro crc hcrc
    apply (passes_read32_add 18 rfl (by omega)).bind
    intro compressedSize hcompressedSize
    apply (passes_read32_add 22 rfl (by omega)).bind
    intro payloadSize hpayloadSize
    apply (passes_read16_add 26 rfl (by omega)).bind
    intro name hname
    apply (passes_read16_add 28 rfl (by omega)).bind
    intro extra hextra
    have hname32 := name.toNat_toUInt32
    apply Guards.refuseIf
    · apply (guards_pure metadata_iff).either
      rintro ⟨-, -, -, -, -, hnameSize, hfits⟩
      rw [substr_inside hstart (by omega), substr_inside hdirectory (by omega), passed_bind, passed_bind]
      apply guards_pure
      rw [decide_eq_false_iff_not, ne_eq, not_not]
    rintro ⟨⟨-, -, -, -, -, hnameSize, hfits⟩, -⟩
    have hdata : (c.localOffset + 30 + (name.toUInt32 + extra.toUInt32)).toNat =
        c.localOffset.toNat + 30 + (name.toNat + extra.toNat) := by
      rw [hstart] at hfits
      rw [toNat_add_small] <;> rw [toNat_variableSize, hstart]
      omega
    apply Guards.refuseIf
    · apply guards_pure
      rw [Bool.not_eq_false', rangeFits_iff, hdata]
    intro hpayload
    rw [substr_inside hdata (by omega), passed_bind]
    apply passes_pure
  · intro p
    constructor
    · rintro ⟨flags, hflags, method, hmethod, crc, hcrc, compressed, hcompressed, payload, hpayload, name, hname, extra,
        hextra, ⟨⟨rfl, rfl, rfl, rfl, rfl, hnameSize, -⟩, hnames⟩, hdata, rfl⟩
      rw [← hnameSize, UInt16.toNat_toUInt32] at hnames
      exact ⟨hflags, hmethod, hcrc, hcompressed, hpayload, name, extra, hnameSize, hname, hextra, hdata, hnames, rfl⟩
    · rintro ⟨hflags, hmethod, hcrc, hcompressed, hpayload, name, extra, hnameSize, hname, hextra, hdata, hnames, rfl⟩
      rw [← UInt16.toNat_toUInt32 name, hnameSize] at hnames
      refine ⟨_, hflags, _, hmethod, _, hcrc, _, hcompressed, _, hpayload, name, hname, extra, hextra,
        ⟨⟨rfl, rfl, rfl, rfl, rfl, hnameSize, ?_⟩, hnameSize ▸ hnames⟩, hdata, rfl⟩
      rw [hstart]
      omega

end SlsteamMoon.ManifestZip
