import SlsteamMoon.ExecutableFile.Sections

/-! What the parsers of the section headers read, and where a section is read. -/
namespace SlsteamMoon.ExecutableFile
open CheckedReads Check NumberFields
open KeyValues (readCString)

variable {c : ElfClass} {file strSec : List UInt8} {hdr : Ehdr c} {shdrs : List Shdr} {offset size : Nat}

private theorem outOfBounds_eq_false_iff : outOfBounds file offset size = false ↔ offset + size ≤ file.length := by
  rw [outOfBounds, Bool.or_eq_false_iff, decide_eq_false_iff_not, decide_eq_false_iff_not]
  omega

/-- A condition that refuses, and what comes after it. -/
theorem passes_refuseIf {α : Type} {bad : Bool} {P : Prop} {rest : Unit → Check Failure α} {Q : α → Prop}
    (hbad : bad = false ↔ P) (diagnostic : Failure) (hrest : P → Passes (rest ()) Q) :
    Passes (refuseIf diagnostic (return bad) >>= rest) fun value => P ∧ Q value :=
  (guards_pure hbad).refuseIf hrest diagnostic

private theorem passes_fseek (diagnostic : Failure) (offset : Nat) : Passes (fseek diagnostic offset)
    fun position => offset % sizeBits ≤ maxPosition ∧ position = offset % sizeBits := by
  apply passes_refuseIf
  · rw [decide_eq_false_iff_not, Nat.not_lt]
  · exact fun _ => passes_pure _

private theorem passes_resize (size : Nat) : Passes (resize size)
    fun room => size % sizeBits ≤ maxSize ∧ room = size % sizeBits := by
  apply passes_refuseIf
  · rw [decide_eq_false_iff_not, Nat.not_lt]
  · exact fun _ => passes_pure _

private theorem passes_fread (diagnostic : Failure) (file : List UInt8) (position size : Nat) :
    Passes (fread diagnostic file position size)
      fun bytes => position + size ≤ file.length ∧ bytes = slice file position size := by
  apply passes_refuseIf
  · rw [decide_eq_false_iff_not, Nat.not_lt]
  · exact fun _ => passes_pure _

/-- The section headers that are read, in the range that the header tells. -/
structure HeadersAt (c : ElfClass) (file : List UInt8) (hdr : Ehdr c) (shdrs : List Shdr) : Prop where
  entrySize : hdr.e_shentsize.toNat ≤ c.shdrSize
  index : hdr.e_shstrndx < hdr.e_shnum
  inside : hdr.e_shoff.toNat + hdr.e_shnum.toNat * c.shdrSize ≤ file.length
  position : hdr.e_shoff.toNat % sizeBits ≤ maxPosition
  eq : shdrs = shdrsOf c hdr.e_shnum.toNat
    (slice file (hdr.e_shoff.toNat % sizeBits) (hdr.e_shnum.toNat * c.shdrSize))

/-- The strings that are read, in the range that their header tells. -/
structure StringsAt (file : List UInt8) (strHdr : Shdr) (strSec : List UInt8) : Prop where
  inside : strHdr.sh_offset.toNat + strHdr.sh_size.toNat ≤ file.length
  size : strHdr.sh_size.toNat % sizeBits ≤ maxSize
  position : strHdr.sh_offset.toNat % sizeBits ≤ maxPosition
  eq : strSec = slice file (strHdr.sh_offset.toNat % sizeBits) (strHdr.sh_size.toNat % sizeBits)

/-- The two tables, the second told by an entry of the first. -/
def Loads (c : ElfClass) (file : List UInt8) (hdr : Ehdr c) (shdrs : List Shdr) (strSec : List UInt8) : Prop :=
  HeadersAt c file hdr shdrs ∧ ∃ strHdr, shdrs[hdr.e_shstrndx.toNat]? = some strHdr ∧ StringsAt file strHdr strSec

@[simp] theorem length_shdrsOf (c : ElfClass) (count : Nat) (table : List UInt8) :
    (shdrsOf c count table).length = count := by
  rw [shdrsOf, List.length_map, List.length_range]

private theorem index_iff {count index : UInt16} :
    (decide (count = 0) || decide (count ≤ index)) = false ↔ index < count := by
  rw [Bool.or_eq_false_iff, decide_eq_false_iff_not, decide_eq_false_iff_not, UInt16.not_le, and_iff_right_iff_imp]
  rintro hlt rfl
  exact UInt16.not_lt_zero hlt

private theorem ElfClass.shdrSize_pos (c : ElfClass) : 0 < c.shdrSize := by
  cases c <;> decide

/-- An empty file has no room for a table that is not empty. -/
theorem inside_iff (hindex : hdr.e_shstrndx < hdr.e_shnum) :
    (decide (file.length = 0) || outOfBounds file hdr.e_shoff.toNat (hdr.e_shnum.toNat * c.shdrSize)) = false ↔
      hdr.e_shoff.toNat + hdr.e_shnum.toNat * c.shdrSize ≤ file.length := by
  rw [Bool.or_eq_false_iff, decide_eq_false_iff_not, outOfBounds_eq_false_iff, and_iff_right_iff_imp]
  have hcount : 0 < hdr.e_shnum.toNat := Nat.zero_lt_of_lt (UInt16.lt_iff_toNat_lt.mp hindex)
  have htable := Nat.mul_pos hcount c.shdrSize_pos
  omega

private theorem passes_readShdrs (c : ElfClass) (file : List UInt8) (hdr : Ehdr c) :
    Passes (readShdrs c file hdr) (HeadersAt c file hdr) := by
  have hparts : Passes (readShdrs c file hdr) fun shdrs =>
      hdr.e_shentsize.toNat ≤ c.shdrSize ∧ hdr.e_shstrndx < hdr.e_shnum ∧
        hdr.e_shoff.toNat + hdr.e_shnum.toNat * c.shdrSize ≤ file.length ∧
        ∃ position, (hdr.e_shoff.toNat % sizeBits ≤ maxPosition ∧ position = hdr.e_shoff.toNat % sizeBits) ∧
        ∃ table, (position + hdr.e_shnum.toNat * c.shdrSize ≤ file.length ∧
          table = slice file position (hdr.e_shnum.toNat * c.shdrSize)) ∧
        shdrs = shdrsOf c hdr.e_shnum.toNat table := by
    apply passes_refuseIf
    · rw [decide_eq_false_iff_not, Nat.not_lt]
    intro _
    apply passes_refuseIf index_iff
    intro hindex
    apply passes_refuseIf (inside_iff hindex)
    intro _
    refine (passes_fseek _ _).bind fun position _ => ?_
    exact (passes_fread _ file position _).bind fun table _ => passes_pure _
  refine hparts.congr fun shdrs => ⟨?_, ?_⟩
  · rintro ⟨hentry, hindex, hinside, position, ⟨hposition, rfl⟩, table, ⟨-, rfl⟩, heq⟩
    exact ⟨hentry, hindex, hinside, hposition, heq⟩
  · intro h
    have hmod := Nat.mod_le hdr.e_shoff.toNat sizeBits
    exact ⟨h.entrySize, h.index, h.inside, _, ⟨h.position, rfl⟩, _,
      ⟨Nat.le_trans (Nat.add_le_add_right hmod _) h.inside, rfl⟩, h.eq⟩

private theorem passes_readStrSec (file : List UInt8) (strHdr : Shdr) :
    Passes (readStrSec file strHdr) (StringsAt file strHdr) := by
  have hparts : Passes (readStrSec file strHdr) fun strSec =>
      strHdr.sh_offset.toNat + strHdr.sh_size.toNat ≤ file.length ∧
        ∃ size, (strHdr.sh_size.toNat % sizeBits ≤ maxSize ∧ size = strHdr.sh_size.toNat % sizeBits) ∧
        ∃ position, (strHdr.sh_offset.toNat % sizeBits ≤ maxPosition ∧
          position = strHdr.sh_offset.toNat % sizeBits) ∧
        position + size ≤ file.length ∧ strSec = slice file position size := by
    apply passes_refuseIf outOfBounds_eq_false_iff
    intro _
    refine (passes_resize _).bind fun size _ => ?_
    exact (passes_fseek _ _).bind fun position _ => passes_fread _ file position size
  refine hparts.congr fun strSec => ⟨?_, ?_⟩
  · rintro ⟨hinside, size, ⟨hsize, rfl⟩, position, ⟨hposition, rfl⟩, -, heq⟩
    exact ⟨hinside, hsize, hposition, heq⟩
  · intro h
    have hle := Nat.add_le_add (Nat.mod_le strHdr.sh_offset.toNat sizeBits) (Nat.mod_le strHdr.sh_size.toNat sizeBits)
    exact ⟨h.inside, _, ⟨h.size, rfl⟩, _, ⟨h.position, rfl⟩, Nat.le_trans hle h.inside, h.eq⟩

private theorem passes_loadTables (c : ElfClass) (file : List UInt8) (hdr : Ehdr c) :
    Passes (loadTables c file hdr) fun tables => Loads c file hdr tables.1 tables.2 := by
  have hread {shdrs : List Shdr} (h : HeadersAt c file hdr shdrs) :
      Passes (readAt shdrs hdr.e_shstrndx.toNat : Check Failure Shdr)
        fun strHdr => shdrs[hdr.e_shstrndx.toNat]? = some strHdr := by
    have hlt : hdr.e_shstrndx.toNat < shdrs.length := by
      rw [h.eq, length_shdrsOf]
      exact UInt16.lt_iff_toNat_lt.mp h.index
    rw [readAt, List.getElem?_eq_getElem hlt]
    exact passes_of_unique rfl rfl fun strHdr heq => (Option.some.inj heq).symm
  have hparts := (passes_readShdrs c file hdr).bind fun shdrs h => (hread h).bind fun strHdr _ =>
    (passes_readStrSec file strHdr).bind fun strSec _ => passes_pure (shdrs, strSec)
  refine hparts.congr fun tables => ⟨?_, ?_⟩
  · rintro ⟨shdrs, hshdrs, strHdr, hstrHdr, strSec, hstrSec, rfl⟩
    exact ⟨hshdrs, strHdr, hstrHdr, hstrSec⟩
  · rintro ⟨hshdrs, strHdr, hstrHdr, hstrSec⟩
    exact ⟨tables.1, hshdrs, strHdr, hstrHdr, tables.2, hstrSec, rfl⟩

private theorem readCString_eq_none_iff {bytes : List UInt8} : readCString bytes = none ↔ 0 ∉ bytes := by
  induction bytes with
  | nil => exact iff_of_true rfl List.not_mem_nil
  | cons b rest ih =>
    rw [readCString, List.mem_cons, not_or]
    by_cases hb : b = 0
    · rw [if_pos hb]
      exact iff_of_false (Option.some_ne_none _) fun h => h.1 hb.symm
    · rw [if_neg hb, Option.map_eq_none_iff, ih]
      exact (and_iff_right (Ne.symm hb)).symm

/-- A scan stops at a terminator or leaves the section. -/
theorem nameAt_cases {place : Nat} (h : place < strSec.length) :
    (0 ∈ strSec.drop place ∧ ∃ name, nameAt strSec place = passed name) ∨
      (0 ∉ strSec.drop place ∧ nameAt strSec place = .outside) := by
  rw [nameAt, readAt, List.getElem?_eq_getElem h]
  dsimp only
  rw [passed_bind]
  cases hname : readCString (strSec.drop place) with
  | none => exact .inr ⟨readCString_eq_none_iff.mp hname, rfl⟩
  | some found =>
    refine .inl ⟨Decidable.not_not.mp fun hfree => ?_, found.1, rfl⟩
    rw [readCString_eq_none_iff.mpr hfree] at hname
    cases hname

/-- A name that starts in the string section ends there. -/
def Terminated (strSec : List UInt8) (shdr : Shdr) : Prop :=
  shdr.sh_name ≠ 0 → shdr.sh_name.toNat < strSec.length → 0 ∈ strSec.drop shdr.sh_name.toNat

/-- Every name ends that a loaded table tells. -/
def NamesEnd (c : ElfClass) (file : List UInt8) (hdr : Ehdr c) : Prop :=
  ∀ shdrs strSec, Loads c file hdr shdrs strSec → ∀ shdr ∈ shdrs, Terminated strSec shdr

private theorem terminated_of_skipped {shdr : Shdr} (h : skipped strSec shdr = true) : Terminated strSec shdr := by
  intro hname hlt
  rw [skipped, Bool.or_eq_true, decide_eq_true_iff, decide_eq_true_iff] at h
  rcases h with hzero | hle
  · exact absurd hzero hname
  · exact absurd hlt (Nat.not_lt.mpr hle)

private theorem nameSections_ne_outside_iff (strSec : List UInt8) (shdrs : List Shdr) :
    nameSections strSec shdrs ≠ .outside ↔ ∀ shdr ∈ shdrs, Terminated strSec shdr := by
  induction shdrs with
  | nil => exact iff_of_true nofun nofun
  | cons shdr shdrs ih =>
    rw [nameSections, List.forall_mem_cons, ← ih]
    by_cases hskip : skipped strSec shdr = true
    · rw [if_pos hskip, and_iff_right (terminated_of_skipped hskip)]
    · rw [if_neg hskip]
      rw [skipped, Bool.or_eq_true, decide_eq_true_iff, decide_eq_true_iff, not_or, Nat.not_le] at hskip
      rcases nameAt_cases hskip.2 with ⟨hend, name, hname⟩ | ⟨hfree, hname⟩
      · have hterminated : Terminated strSec shdr := fun _ _ => hend
        rw [hname, passed_bind, and_iff_right hterminated]
        cases nameSections strSec shdrs with
        | outside => exact iff_of_false (fun h => h rfl) fun h => h rfl
        | refused diagnostic => exact iff_of_true nofun nofun
        | passed sections => exact iff_of_true nofun nofun
      · rw [hname]
        exact iff_of_false (fun h => h rfl) fun h => hfree (h.1 hskip.1 hskip.2)

private theorem parseHeaders_ne_outside_iff (c : ElfClass) (file : List UInt8) (hdr : Ehdr c) :
    parseHeaders c file hdr ≠ .outside ↔ NamesEnd c file hdr := by
  refine (passes_loadTables c file hdr).bind_ne_outside_iff.trans ⟨?_, ?_⟩
  · intro h shdrs strSec hloads
    exact (nameSections_ne_outside_iff strSec shdrs).mp (h (shdrs, strSec) hloads)
  · intro h tables hloads
    exact (nameSections_ne_outside_iff tables.2 tables.1).mpr (h tables.1 tables.2 hloads)

/-- The parsers give sections exactly for the tables they load. -/
theorem parseHeaders_eq_passed_iff {sections : List SectionHdr} : parseHeaders c file hdr = .passed sections ↔
    ∃ shdrs strSec, Loads c file hdr shdrs strSec ∧ nameSections strSec shdrs = .passed sections := by
  have htables := passes_loadTables c file hdr
  rw [parseHeaders]
  cases hload : loadTables c file hdr with
  | outside => exact absurd hload htables.inside
  | refused diagnostic =>
    refine iff_of_false nofun ?_
    rintro ⟨shdrs, strSec, hloads, -⟩
    exact nomatch hload.symm.trans ((htables.iff (shdrs, strSec)).mpr hloads)
  | passed tables =>
    refine ⟨fun h => ⟨tables.1, tables.2, (htables.iff tables).mp hload, h⟩, ?_⟩
    rintro ⟨shdrs, strSec, hloads, h⟩
    cases hload.symm.trans ((htables.iff (shdrs, strSec)).mpr hloads)
    exact h

/-- What a reader answers are bytes of the file, in a file whose positions a `long` can name those of the section. -/
def ReadsFile (file : List UInt8) (sectionHdr : SectionHdr) : Prop :=
  readSection file sectionHdr ≠ .outside ∧ ∀ bytes, readSection file sectionHdr = .passed bytes →
    ∃ position, position + bytes.length ≤ file.length ∧ StandsAt file position bytes ∧
      (file.length ≤ maxPosition → position = sectionHdr.offset.toNat ∧ bytes.length = sectionHdr.size.toNat)

private theorem readsFile (file : List UInt8) (sectionHdr : SectionHdr) : ReadsFile file sectionHdr := by
  have hpasses : Passes (readSection file sectionHdr) fun bytes =>
      (file.length ≠ 0 ∧ sectionHdr.offset.toNat + sectionHdr.size.toNat ≤ file.length) ∧
        ∃ position, (sectionHdr.offset.toNat % sizeBits ≤ maxPosition ∧
          position = sectionHdr.offset.toNat % sizeBits) ∧
        ∃ size, (sectionHdr.size.toNat % sizeBits ≤ maxSize ∧ size = sectionHdr.size.toNat % sizeBits) ∧
        size ≠ 0 ∧ position + size ≤ file.length ∧ bytes = slice file position size := by
    apply passes_refuseIf
    · rw [Bool.or_eq_false_iff, decide_eq_false_iff_not, outOfBounds_eq_false_iff]
    intro _
    refine (passes_fseek _ _).bind fun position _ => (passes_resize _).bind fun size _ => ?_
    apply passes_refuseIf decide_eq_false_iff_not
    exact fun _ => passes_fread _ file position size
  refine ⟨hpasses.inside, fun bytes hbytes => ?_⟩
  obtain ⟨⟨-, hinside⟩, position, ⟨-, hposition⟩, size, ⟨-, hsize⟩, -, hroom, rfl⟩ := (hpasses.iff bytes).mp hbytes
  have hlength := length_slice hroom
  refine ⟨position, by rwa [hlength], standsAt_slice file position size, fun hfile => ?_⟩
  have hmax : maxPosition < sizeBits := by decide
  have hoffset : sectionHdr.offset.toNat < sizeBits := by omega
  have hlt : sectionHdr.size.toNat < sizeBits := by omega
  exact ⟨hposition.trans (Nat.mod_eq_of_lt hoffset), hlength.trans (hsize.trans (Nat.mod_eq_of_lt hlt))⟩

end SlsteamMoon.ExecutableFile

/-! The parsers of the two classes on files that tell the same values, and when they stay in their tables. -/
namespace SlsteamMoon.ExecutableFile
open CheckedReads Check NumberFields

variable {c : ElfClass} {file file32 file64 strSec : List UInt8} {hdr : Ehdr c} {hdr32 : Ehdr .elf32} {hdr64 : Ehdr .elf64}
  {shdrs : List Shdr} {strHdr : Shdr} {offset size : Nat}

/-- The bytes of a range that lies in the file. -/
def bytesAt (file : List UInt8) (offset size : Nat) : Option (List UInt8) :=
  if offset + size ≤ file.length then some (slice file offset size) else none

/-- The section headers that a header tells of. -/
def headersIn (c : ElfClass) (file : List UInt8) (hdr : Ehdr c) : Option (List Shdr) :=
  (bytesAt file hdr.e_shoff.toNat (hdr.e_shnum.toNat * c.shdrSize)).map (shdrsOf c hdr.e_shnum.toNat)

/-- The strings that a section header tells of. -/
def stringsIn (file : List UInt8) (strHdr : Shdr) : Option (List UInt8) :=
  bytesAt file strHdr.sh_offset.toNat strHdr.sh_size.toNat

/-- Two files, one of each class, whose headers, section headers and section names have the same values. The
size of an entry is the class's own, so that only its check is the same. -/
structure SameValues (file32 : List UInt8) (hdr32 : Ehdr .elf32) (file64 : List UInt8) (hdr64 : Ehdr .elf64) : Prop where
  entrySize : hdr32.e_shentsize.toNat ≤ ElfClass.elf32.shdrSize ↔ hdr64.e_shentsize.toNat ≤ ElfClass.elf64.shdrSize
  e_shoff : hdr32.e_shoff.toNat = hdr64.e_shoff.toNat
  e_shnum : hdr32.e_shnum = hdr64.e_shnum
  e_shstrndx : hdr32.e_shstrndx = hdr64.e_shstrndx
  headers : headersIn .elf32 file32 hdr32 = headersIn .elf64 file64 hdr64
  strings : ∀ shdrs strHdr, headersIn .elf32 file32 hdr32 = some shdrs →
    shdrs[hdr32.e_shstrndx.toNat]? = some strHdr → stringsIn file32 strHdr = stringsIn file64 strHdr

private theorem bytesAt_eq_some_iff {bytes : List UInt8} :
    bytesAt file offset size = some bytes ↔ offset + size ≤ file.length ∧ bytes = slice file offset size := by
  rw [bytesAt, Option.ite_none_right_eq_some, Option.some.injEq, eq_comm (a := bytes)]

/-- Where a `long` can name the position, the headers are read where they are told to be. -/
theorem headersAt_iff (h : hdr.e_shoff.toNat < sizeBits) : HeadersAt c file hdr shdrs ↔
    hdr.e_shentsize.toNat ≤ c.shdrSize ∧ hdr.e_shstrndx < hdr.e_shnum ∧ hdr.e_shoff.toNat ≤ maxPosition ∧
      headersIn c file hdr = some shdrs := by
  rw [headersIn, Option.map_eq_some_iff]
  constructor
  · intro hat
    have hposition := hat.position
    have heq := hat.eq
    rw [Nat.mod_eq_of_lt h] at hposition heq
    exact ⟨hat.entrySize, hat.index, hposition, _, bytesAt_eq_some_iff.mpr ⟨hat.inside, rfl⟩, heq.symm⟩
  · rintro ⟨hentry, hindex, hposition, bytes, hbytes, rfl⟩
    obtain ⟨hinside, rfl⟩ := bytesAt_eq_some_iff.mp hbytes
    refine ⟨hentry, hindex, hinside, ?_, ?_⟩
    · rwa [Nat.mod_eq_of_lt h]
    · rw [Nat.mod_eq_of_lt h]

private theorem stringsAt_iff (hoffset : strHdr.sh_offset.toNat < sizeBits) (hsize : strHdr.sh_size.toNat < sizeBits) :
    StringsAt file strHdr strSec ↔
      strHdr.sh_size.toNat ≤ maxSize ∧ strHdr.sh_offset.toNat ≤ maxPosition ∧ stringsIn file strHdr = some strSec := by
  rw [stringsIn, bytesAt_eq_some_iff]
  constructor
  · intro hat
    have hposition := hat.position
    have hle := hat.size
    have heq := hat.eq
    rw [Nat.mod_eq_of_lt hoffset] at hposition heq
    rw [Nat.mod_eq_of_lt hsize] at hle heq
    exact ⟨hle, hposition, hat.inside, heq⟩
  · rintro ⟨hle, hposition, hinside, rfl⟩
    refine ⟨hinside, ?_, ?_, ?_⟩
    · rwa [Nat.mod_eq_of_lt hsize]
    · rwa [Nat.mod_eq_of_lt hoffset]
    · rw [Nat.mod_eq_of_lt hsize, Nat.mod_eq_of_lt hoffset]

/-- A section header of the smaller class has words of 32 bits. -/
theorem word_lt_of_mem {table : List UInt8} {count : Nat} (h : strHdr ∈ shdrsOf .elf32 count table) :
    strHdr.sh_offset.toNat < sizeBits ∧ strHdr.sh_size.toNat < sizeBits := by
  obtain ⟨i, -, rfl⟩ := List.mem_map.mp h
  have hfield (off : Nat) : (UInt64.ofNat (field table off ElfClass.elf32.word)).toNat < sizeBits :=
    Nat.lt_of_le_of_lt (Nat.mod_le _ _) (field_lt table off 4)
  exact ⟨hfield _, hfield _⟩

private theorem SameValues.loads_iff (h : SameValues file32 hdr32 file64 hdr64) :
    Loads .elf32 file32 hdr32 shdrs strSec ↔ Loads .elf64 file64 hdr64 shdrs strSec := by
  have hoffset32 : hdr32.e_shoff.toNat < sizeBits := hdr32.e_shoff.isLt
  have hoffset64 : hdr64.e_shoff.toNat < sizeBits := h.e_shoff ▸ hoffset32
  have hheaders : HeadersAt .elf32 file32 hdr32 shdrs ↔ HeadersAt .elf64 file64 hdr64 shdrs := by
    rw [headersAt_iff hoffset32, headersAt_iff hoffset64, h.entrySize, h.e_shoff, h.e_shnum, h.e_shstrndx, h.headers]
  rw [Loads, Loads, ← hheaders, ← h.e_shstrndx]
  refine and_congr_right fun hat => exists_congr fun strHdr => and_congr_right fun hentry => ?_
  have hmem : strHdr ∈ shdrs := List.mem_of_getElem? hentry
  rw [hat.eq] at hmem
  obtain ⟨hoffset, hsize⟩ := word_lt_of_mem hmem
  have hsome := ((headersAt_iff hoffset32).mp hat).2.2.2
  rw [stringsAt_iff hoffset hsize, stringsAt_iff hoffset hsize, h.strings shdrs strHdr hsome hentry]

private theorem SameValues.sections_iff (h : SameValues file32 hdr32 file64 hdr64) (sections : List SectionHdr) :
    parseElf32Headers file32 hdr32 = .passed sections ↔ parseElf64Headers file64 hdr64 = .passed sections := by
  rw [parseElf32Headers, parseElf64Headers, parseHeaders_eq_passed_iff, parseHeaders_eq_passed_iff]
  exact exists_congr fun shdrs => exists_congr fun strSec => and_congr_left' h.loads_iff

/-- Every access is in a table that was loaded, what is read of a returned section is read from the file, and
the parsers of the two classes return the same sections for the same values. -/
structure StaysInTables (c : ElfClass) (file : List UInt8) (hdr : Ehdr c) : Prop where
  inside : parseHeaders c file hdr ≠ .outside
  reads : ∀ sections, parseHeaders c file hdr = .passed sections → ∀ sectionHdr ∈ sections, ReadsFile file sectionHdr
  same : ∀ file32 hdr32 file64 hdr64, SameValues file32 hdr32 file64 hdr64 → ∀ sections,
    parseElf32Headers file32 hdr32 = .passed sections ↔ parseElf64Headers file64 hdr64 = .passed sections

/-- The section reader stays in its tables exactly for the files whose section names end in the string section. -/
theorem stays_in_tables_iff (c : ElfClass) (file : List UInt8) (hdr : Ehdr c) :
    StaysInTables c file hdr ↔ NamesEnd c file hdr := by
  constructor
  · intro h
    exact (parseHeaders_ne_outside_iff c file hdr).mp h.inside
  · intro h
    refine ⟨(parseHeaders_ne_outside_iff c file hdr).mpr h, ?_, ?_⟩
    · intro sections _ sectionHdr _
      exact readsFile file sectionHdr
    · intro file32 hdr32 file64 hdr64 hsame sections
      exact hsame.sections_iff sections

/-- A file of one section header, and behind it a string section without a terminator. -/
def unterminatedFile : List UInt8 :=
  [0x7F, 0x45, 0x4C, 0x46, 1, 1, 1] ++ List.replicate 9 0 ++ [3, 0, 3, 0, 1, 0, 0, 0] ++ List.replicate 8 0 ++
    [52, 0, 0, 0] ++ List.replicate 4 0 ++ [52, 0, 0, 0, 0, 0, 40, 0, 1, 0, 0, 0] ++
    [1, 0, 0, 0, 3, 0, 0, 0] ++ List.replicate 8 0 ++ [92, 0, 0, 0, 5, 0, 0, 0] ++ List.replicate 16 0 ++
    [0x00, 0x2E, 0x73, 0x74, 0x72]

/-- The name `.str` of the string section has no byte behind it. -/
theorem name_runs_out_of_strings :
    ¬StaysInTables .elf32 unterminatedFile (ehdrOf .elf32 unterminatedFile) := fun h => h.inside (by rfl)

end SlsteamMoon.ExecutableFile
