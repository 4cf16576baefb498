import SlsteamMoon.ElfIdentity.LayoutFor

/-! What a layout says of its file: the ranges of its executable segments and the first build id of its notes. -/
namespace SlsteamMoon.ElfIdentity
open CheckedReads Check NumberFields CursorLoop NoteRecords
open PatternRefresh (ExecutableRange)

/-- The fields of a program header. -/
structure ProgramHeader where
  type : Nat
  flags : Nat
  offset : Nat
  virtualAddress : Nat
  fileSize : Nat
  memorySize : Nat

def programHeader (elf64 : Bool) (entry : List UInt8) : ProgramHeader where
  type := field entry 0 4
  flags := field entry (if elf64 then 4 else 24) 4
  offset := field entry (if elf64 then 8 else 4) (if elf64 then 8 else 4)
  virtualAddress := field entry (if elf64 then 16 else 8) (if elf64 then 8 else 4)
  fileSize := field entry (if elf64 then 32 else 16) (if elf64 then 8 else 4)
  memorySize := field entry (if elf64 then 40 else 20) (if elf64 then 8 else 4)

def isElf64 (file : List UInt8) : Bool := file[4]? = some 2

def tableOf (elf64 : Bool) (file : List UInt8) : ProgramTable where
  programOffset := field file (if elf64 then 0x20 else 0x1C) (if elf64 then 8 else 4)
  entrySize := field file (if elf64 then 0x36 else 0x2A) 2
  entryCount := field file (if elf64 then 0x38 else 0x2C) 2

/-- The header at a place of the table. -/
def headerOf (file : List UInt8) (elf64 : Bool) (table : ProgramTable) (index : Nat) : ProgramHeader :=
  programHeader elf64 (slice file (table.programOffset + index * table.entrySize) table.entrySize)

def programHeaders (file : List UInt8) : List ProgramHeader :=
  let elf64 := isElf64 file
  let table := tableOf elf64 file
  (List.range table.entryCount).map (headerOf file elf64 table)

namespace ProgramHeader

/-- A segment that is loaded to be executed, at addresses that do not wrap around. -/
def IsExecutable (header : ProgramHeader) : Prop :=
  header.type = 1 ∧ header.flags % 2 ≠ 0 ∧ 0 < header.memorySize ∧ header.virtualAddress + header.memorySize < two64

instance (header : ProgramHeader) : Decidable header.IsExecutable := inferInstanceAs (Decidable (_ ∧ _))

def range (header : ProgramHeader) : ExecutableRange :=
  ⟨UInt64.ofNat header.virtualAddress, UInt64.ofNat (header.virtualAddress + header.memorySize)⟩

def ranges (header : ProgramHeader) : List ExecutableRange := if header.IsExecutable then [header.range] else []

/-- A segment of notes that is looked at. -/
def IsNotes (fileSize : Nat) (header : ProgramHeader) : Prop :=
  header.type = 4 ∧ 16 ≤ header.fileSize ∧ header.fileSize ≤ 1024 * 1024 ∧ header.offset + header.fileSize ≤ fileSize

instance (fileSize : Nat) (header : ProgramHeader) : Decidable (header.IsNotes fileSize) :=
  inferInstanceAs (Decidable (_ ∧ _))

def bytes (header : ProgramHeader) (file : List UInt8) : List UInt8 := slice file header.offset header.fileSize

def notes (header : ProgramHeader) (file : List UInt8) (fileSize : Nat) : List Note :=
  if header.IsNotes fileSize then notesIn (header.bytes file) else []

end ProgramHeader

/-- A reader answers, or it gives up. -/
def Answers {α : Type} (c : Reading α) (P : α → Prop) : Prop := c = .refused .nullopt ∨ ∃ value, c = .passed value ∧ P value

section
variable {α β : Type} {c : Reading α} {P Q : α → Prop}

private theorem answers_of_eq {value : α} (h : c = .passed value) (hvalue : P value) : Answers c P :=
  .inr ⟨value, h, hvalue⟩

theorem Answers.imp (h : Answers c P) (himp : ∀ value, P value → Q value) : Answers c Q := by
  rcases h with hstop | ⟨value, hvalue, hP⟩
  · exact .inl hstop
  · exact .inr ⟨value, hvalue, himp value hP⟩

theorem Answers.bind {f : α → Reading β} {R : β → Prop} (h : Answers c P) (hf : ∀ value, P value → Answers (f value) R) :
    Answers (c >>= f) R := by
  rcases h with rfl | ⟨value, rfl, hvalue⟩
  · exact .inl rfl
  · exact hf value hvalue

private theorem answers_refuseIf {bad : Bool} {rest : Unit → Reading α} (h : bad = false → Answers (rest ()) P) :
    Answers (refuseIf .nullopt (return bad) >>= rest) P := by
  cases bad with
  | true => exact .inl rfl
  | false => exact h rfl

end

variable {file entry : List UInt8} {fileSize fuel index : Nat} {elf64 : Bool} {table : ProgramTable}

private theorem answers_readExactAt (file : List UInt8) (size offset : Nat) : Answers (readExactAt file size offset)
    fun bytes => offset + size ≤ file.length ∧ bytes = slice file offset size := by
  rw [readExactAt]
  split_ifs with h
  · exact answers_of_eq rfl ⟨h, rfl⟩
  · exact .inl rfl

/-- An entry is as long as the fields that are read of it. -/
def Fits (elf64 : Bool) (entry : List UInt8) : Prop := (if elf64 then 56 else 32) ≤ entry.length

/-- A field of words of either class is inside of an entry. -/
theorem field_inside (h : Fits elf64 entry) {off off' size size' : Nat} (hbig : off + size ≤ 56)
    (hsmall : off' + size' ≤ 32) :
    littleEndian entry (if elf64 then off else off') (if elf64 then size else size') =
      .passed (field entry (if elf64 then off else off') (if elf64 then size else size')) := by
  apply littleEndian_inside
  rw [Fits] at h
  cases elf64 with
  | true => exact Nat.le_trans hbig h
  | false => exact Nat.le_trans hsmall h

private theorem word_inside (h : Fits elf64 entry) {off off' : Nat} (hbig : off + 4 ≤ 56) (hsmall : off' + 4 ≤ 32) :
    littleEndian entry (if elf64 then off else off') 4 = .passed (field entry (if elf64 then off else off') 4) := by
  have hword : littleEndian entry (if elf64 then off else off') (if elf64 then 4 else 4) =
      .passed (field entry (if elf64 then off else off') (if elf64 then 4 else 4)) := field_inside h hbig hsmall
  rwa [ite_self] at hword

private theorem memorySize_lt (elf64 : Bool) (entry : List UInt8) : (programHeader elf64 entry).memorySize < two64 := by
  cases elf64 with
  | true => exact field_lt entry 40 8
  | false => exact Nat.lt_trans (field_lt entry 20 4) (by decide)

private theorem addRange_eq (h : Fits elf64 entry) (htype : (programHeader elf64 entry).type = 1)
    (ranges : List ExecutableRange) :
    addRange elf64 entry ranges = .passed (ranges ++ (programHeader elf64 entry).ranges) := by
  have hmemory := memorySize_lt elf64 entry
  have hiff : (programHeader elf64 entry).IsExecutable ↔ (programHeader elf64 entry).flags % 2 ≠ 0 ∧
      0 < (programHeader elf64 entry).memorySize ∧
      (programHeader elf64 entry).virtualAddress ≤ two64 - 1 - (programHeader elf64 entry).memorySize := by
    rw [ProgramHeader.IsExecutable, and_iff_right htype]
    refine and_congr_right fun _ => and_congr_right fun _ => ?_
    omega
  rw [addRange, field_inside h (by decide) (by decide), passed_bind, field_inside h (by decide) (by decide), passed_bind,
    word_inside h (by decide) (by decide), passed_bind, ProgramHeader.ranges]
  by_cases hrange : (programHeader elf64 entry).IsExecutable
  · rw [if_pos hrange, ProgramHeader.range, UInt64.ofNat_add]
    exact if_pos (hiff.mp hrange)
  · rw [if_neg hrange, List.append_nil]
    exact if_neg (hrange ∘ hiff.mpr)

private theorem answers_readNotes (h : Fits elf64 entry) (htype : (programHeader elf64 entry).type = 4)
    (hfuel : 1024 * 1024 < fuel) (buildId : List UInt8) : Answers (readNotes fuel file fileSize elf64 entry buildId)
      fun answer => answer = ((programHeader elf64 entry).notes file fileSize).foldl taken buildId := by
  rw [readNotes, field_inside h (by decide) (by decide), passed_bind, field_inside h (by decide) (by decide), passed_bind,
    ProgramHeader.notes]
  change Answers (if (programHeader elf64 entry).fileSize < 16 ∨ 1024 * 1024 < (programHeader elf64 entry).fileSize ∨
    fileSize < (programHeader elf64 entry).offset ∨
    fileSize - (programHeader elf64 entry).offset < (programHeader elf64 entry).fileSize then _ else _) _
  have hiff : (programHeader elf64 entry).IsNotes fileSize ↔ ¬((programHeader elf64 entry).fileSize < 16 ∨
      1024 * 1024 < (programHeader elf64 entry).fileSize ∨ fileSize < (programHeader elf64 entry).offset ∨
      fileSize - (programHeader elf64 entry).offset < (programHeader elf64 entry).fileSize) := by
    rw [ProgramHeader.IsNotes, and_iff_right htype]
    omega
  by_cases hnotes : (programHeader elf64 entry).IsNotes fileSize
  · rw [if_neg (hiff.mp hnotes), if_pos hnotes]
    refine (answers_readExactAt file _ _).bind ?_
    rintro bytes ⟨-, rfl⟩
    have hlength :
        (slice file (programHeader elf64 entry).offset (programHeader elf64 entry).fileSize).length ≤ 1024 * 1024 :=
      Nat.le_trans (List.length_take_le _ _) hnotes.2.2.1
    exact answers_of_eq (loop_notesIn (Nat.lt_of_le_of_lt hlength hfuel) buildId) rfl
  · rw [if_pos (Decidable.not_not.mp (hnotes ∘ hiff.mpr)), if_neg hnotes]
    exact answers_of_eq rfl rfl

/-- What the headers make of a layout. -/
structure Extends (file : List UInt8) (fileSize : Nat) (result : ElfLayout) (headers : List ProgramHeader)
    (layout : ElfLayout) : Prop where
  buildId : layout.buildId = (headers.flatMap fun header => header.notes file fileSize).foldl taken result.buildId
  ranges : layout.executableRanges = result.executableRanges ++ headers.flatMap ProgramHeader.ranges

private theorem notes_of_type_ne {header : ProgramHeader} (h : header.type ≠ 4) : header.notes file fileSize = [] :=
  if_neg fun hnotes => h hnotes.1

private theorem ranges_of_type_ne {header : ProgramHeader} (h : header.type ≠ 1) : header.ranges = [] :=
  if_neg fun hexecutable => h hexecutable.1

private theorem extends_of_eq {header : ProgramHeader} {result layout : ElfLayout}
    (hbuild : layout.buildId = (header.notes file fileSize).foldl taken result.buildId)
    (hranges : layout.executableRanges = result.executableRanges ++ header.ranges) :
    Extends file fileSize result [header] layout := by
  refine ⟨?_, ?_⟩
  · rw [List.flatMap_singleton, hbuild]
  · rw [List.flatMap_singleton, hranges]

private theorem answers_readEntry (h : Fits elf64 entry) (hfuel : 1024 * 1024 < fuel) (result : ElfLayout) :
    Answers (readEntry fuel file fileSize elf64 entry result)
      (Extends file fileSize result [programHeader elf64 entry]) := by
  have hlength : 0 + 4 ≤ entry.length := by
    rw [Fits] at h
    split_ifs at h
    all_goals omega
  have htype : littleEndian entry 0 4 = .passed (programHeader elf64 entry).type := littleEndian_inside hlength
  rw [readEntry, htype, passed_bind]
  split_ifs with hload hnote
  · rw [addRange_eq h hload, passed_bind]
    refine answers_of_eq rfl (extends_of_eq ?_ rfl)
    rw [notes_of_type_ne (by rw [hload]; decide), List.foldl_nil]
  · refine (answers_readNotes h hnote hfuel _).bind ?_
    rintro buildId rfl
    refine answers_of_eq rfl (extends_of_eq rfl ?_)
    rw [ranges_of_type_ne hload, List.append_nil]
  · refine answers_of_eq rfl (extends_of_eq ?_ ?_)
    · rw [notes_of_type_ne hnote, List.foldl_nil]
    · rw [ranges_of_type_ne hload, List.append_nil]

theorem Extends.trans {result middle layout : ElfLayout} {headers headers' : List ProgramHeader}
    (h : Extends file fileSize result headers middle) (h' : Extends file fileSize middle headers' layout) :
    Extends file fileSize result (headers ++ headers') layout := by
  refine ⟨?_, ?_⟩
  · rw [h'.buildId, h.buildId, List.flatMap_append, List.foldl_append]
  · rw [h'.ranges, h.ranges, List.flatMap_append, List.append_assoc]

/-- The entries are at places that do not wrap around, each long enough for its class. -/
theorem answers_readEntries (hentry : (if elf64 then 56 else 32) ≤ table.entrySize)
    (hfuel : 1024 * 1024 < fuel) (indices : List Nat)
    (hplace : ∀ index ∈ indices, table.programOffset + index * table.entrySize < two64) (result : ElfLayout) :
    Answers (readEntries fuel file fileSize elf64 table indices result)
      (Extends file fileSize result (indices.map (headerOf file elf64 table))) := by
  induction indices generalizing result with
  | nil =>
    refine answers_of_eq rfl ⟨?_, ?_⟩
    · rw [List.map_nil, List.flatMap_nil, List.foldl_nil]
    · rw [List.map_nil, List.flatMap_nil, List.append_nil]
  | cons index indices ih =>
    obtain ⟨hindex, hindices⟩ := List.forall_mem_cons.mp hplace
    rw [readEntries, Nat.mod_eq_of_lt hindex]
    refine (answers_readExactAt file _ _).bind ?_
    rintro entry ⟨hinside, rfl⟩
    have hfits : Fits elf64 (slice file (table.programOffset + index * table.entrySize) table.entrySize) := by
      rw [Fits, length_slice hinside]
      exact hentry
    refine (answers_readEntry hfits hfuel result).bind fun middle hmiddle => ?_
    exact (ih hindices middle).imp fun layout hlayout => hmiddle.trans hlayout

private theorem field_slice {xs : List UInt8} {place size off n : Nat} (h : off + n ≤ size) :
    field (slice xs place size) off n = field xs (place + off) n := by
  rw [field, field, slice, slice, slice, List.drop_take, List.drop_drop, List.take_take, Nat.min_eq_left (by omega)]

private theorem answers_readClass {header : List UInt8} (h : header.length = 64) :
    Answers (readClass header) fun elf64 => elf64 = isElf64 header ∧ slice header 0 4 = kElf := by
  have hread {k : Nat} (hk : k < header.length) : (readAt header k : Reading UInt8) = .passed header[k] := by
    rw [readAt, List.getElem?_eq_getElem hk]
  obtain ⟨bad, hbad, hmagic⟩ := Guards.either (guards_differs (bytesAt_inside (by omega : 0 + 4 ≤ header.length)) kElf)
    fun _ => guards_differs (hread (by omega : 5 < header.length)) 1
  rw [readClass, hbad]
  apply answers_refuseIf
  intro hgood
  rw [hread (by omega : 4 < header.length), passed_bind]
  apply answers_refuseIf
  intro _
  refine answers_of_eq rfl ⟨?_, (hmagic.mp hgood).1⟩
  rw [isElf64, List.getElem?_eq_getElem (by omega : 4 < header.length), decide_eq_decide, Option.some.injEq]

/-- The table lies in the file. -/
structure TableFits (fileSize : Nat) (elf64 : Bool) (table : ProgramTable) : Prop where
  entry : (if elf64 then 56 else 32) ≤ table.entrySize
  inside : table.programOffset + table.entryCount * table.entrySize ≤ fileSize

private theorem answers_readTable {header : List UInt8} (h : header.length = 64) (fileSize : Nat) (elf64 : Bool) :
    Answers (readTable header fileSize elf64)
      fun table => table = tableOf elf64 header ∧ TableFits fileSize elf64 table := by
  have hoffset : littleEndian header (if elf64 then 0x20 else 0x1C) (if elf64 then 8 else 4) =
      .passed (tableOf elf64 header).programOffset := by
    apply littleEndian_inside
    cases elf64 with
    | true => simp [h]
    | false => simp [h]
  have hsize : littleEndian header (if elf64 then 0x36 else 0x2A) 2 = .passed (tableOf elf64 header).entrySize := by
    apply littleEndian_inside
    cases elf64 with
    | true => simp [h]
    | false => simp [h]
  have hcount : littleEndian header (if elf64 then 0x38 else 0x2C) 2 = .passed (tableOf elf64 header).entryCount := by
    apply littleEndian_inside
    cases elf64 with
    | true => simp [h]
    | false => simp [h]
  rw [readTable, hoffset, passed_bind, hsize, passed_bind, hcount, passed_bind]
  dsimp only
  apply answers_refuseIf
  intro hgood
  refine answers_of_eq rfl ⟨rfl, ?_⟩
  simp only [Bool.or_eq_false_iff, decide_eq_false_iff_not, Nat.not_lt] at hgood
  obtain ⟨⟨⟨⟨⟨hentry, -⟩, hcount⟩, -⟩, hplace⟩, hroom⟩ := hgood
  refine ⟨hentry, ?_⟩
  have hmul := (Nat.mul_le_mul_right (tableOf elf64 header).entrySize hroom).trans (Nat.div_mul_le_self _ _)
  change (tableOf elf64 header).programOffset +
    (tableOf elf64 header).entryCount * (tableOf elf64 header).entrySize ≤ fileSize
  omega

private theorem isElf64_header (file : List UInt8) : isElf64 (slice file 0 64) = isElf64 file := by
  rw [isElf64, isElf64, slice, List.drop_zero, List.getElem?_take_of_lt (by decide)]

private theorem tableOf_header (elf64 : Bool) (file : List UInt8) :
    tableOf elf64 (slice file 0 64) = tableOf elf64 file := by
  cases elf64 with
  | true => simp [tableOf, field_slice]
  | false => simp [tableOf, field_slice]

/-- What a file has that has a layout. -/
structure HasTable (file : List UInt8) (fileSize : Nat) : Prop where
  header : 64 ≤ file.length
  magic : slice file 0 4 = kElf
  fits : TableFits fileSize (isElf64 file) (tableOf (isElf64 file) file)

/-- The layout before it is sorted, when it is complete. -/
structure Collected (file : List UInt8) (fileSize : Nat) (layout : ElfLayout) : Prop where
  table : HasTable file fileSize
  made : Extends file fileSize ⟨[], []⟩ (programHeaders file) layout
  buildId_ne_nil : layout.buildId ≠ []

theorem answers_layoutFor (file : List UInt8) {fileSize : Nat} (hsize : fileSize < two64) (hfuel : 1024 * 1024 < fuel) :
    Answers (layoutFor fuel file fileSize) fun layout => ∃ collected, Collected file fileSize collected ∧
      layout = { collected with executableRanges := collected.executableRanges.insertionSort rangeLe } := by
  rw [layoutFor]
  refine (answers_readExactAt file 64 0).bind ?_
  rintro header ⟨hinside, rfl⟩
  have hlength : (slice file 0 64).length = 64 := length_slice hinside
  refine (answers_readClass hlength).bind ?_
  rintro elf64 ⟨rfl, hmagic⟩
  refine (answers_readTable hlength fileSize _).bind ?_
  rintro table ⟨rfl, hfits⟩
  rw [isElf64_header, tableOf_header] at hfits ⊢
  have hplace : ∀ index ∈ List.range (tableOf (isElf64 file) file).entryCount,
      (tableOf (isElf64 file) file).programOffset + index * (tableOf (isElf64 file) file).entrySize < two64 := by
    intro index hindex
    have hle := Nat.mul_le_mul_right (tableOf (isElf64 file) file).entrySize (Nat.le_of_lt (List.mem_range.mp hindex))
    have hinside := hfits.inside
    omega
  refine (answers_readEntries hfits.entry hfuel _ hplace _).bind fun collected hcollected => ?_
  apply answers_refuseIf
  intro hcomplete
  rw [Bool.or_eq_false_iff, decide_eq_false_iff_not] at hcomplete
  have hmagic' : slice file 0 4 = kElf := by
    rw [slice, slice, List.drop_zero, List.drop_zero, List.take_take] at hmagic
    exact hmagic
  exact answers_of_eq rfl ⟨collected, ⟨⟨by omega, hmagic', hfits⟩, hcollected, hcomplete.1⟩, rfl⟩

/-- A layout says what its file has. -/
structure Describes (file : List UInt8) (fileSize : Nat) (layout : ElfLayout) : Prop where
  sorted : layout.executableRanges.Pairwise rangeLe
  perm : layout.executableRanges.Perm ((programHeaders file).flatMap ProgramHeader.ranges)
  ranges : ∀ r ∈ layout.executableRanges, ∃ header ∈ programHeaders file, header.type = 1 ∧ header.flags % 2 = 1 ∧
    r.rangeBegin.toNat = header.virtualAddress ∧ r.rangeEnd.toNat = header.virtualAddress + header.memorySize ∧
    r.rangeBegin < r.rangeEnd
  buildId : ∃ note, ((programHeaders file).flatMap fun header => header.notes file fileSize).find? isBuildIdNote =
    some note ∧ layout.buildId = hexadecimal note.description

private theorem rangeLe_trans {r r' r'' : ExecutableRange} (h : rangeLe r r') (h' : rangeLe r' r'') :
    rangeLe r r'' := by
  rcases h with hlt | ⟨heq, hle⟩
  · rcases h' with hlt' | ⟨heq', -⟩
    · exact .inl (UInt64.lt_trans hlt hlt')
    · exact .inl (heq' ▸ hlt)
  · rcases h' with hlt' | ⟨heq', hle'⟩
    · exact .inl (heq ▸ hlt')
    · exact .inr ⟨heq.trans heq', UInt64.le_trans hle hle'⟩

private theorem rangeLe_total (r r' : ExecutableRange) : rangeLe r r' ∨ rangeLe r' r := by
  by_cases hlt : r.rangeBegin < r'.rangeBegin
  · exact .inl (.inl hlt)
  by_cases hgt : r'.rangeBegin < r.rangeBegin
  · exact .inr (.inl hgt)
  have heq : r.rangeBegin = r'.rangeBegin := UInt64.le_antisymm (UInt64.not_lt.mp hgt) (UInt64.not_lt.mp hlt)
  rcases UInt64.le_total r.rangeEnd r'.rangeEnd with hle | hle
  · exact .inl (.inr ⟨heq, hle⟩)
  · exact .inr (.inr ⟨heq.symm, hle⟩)

instance : IsTrans ExecutableRange rangeLe := ⟨fun _ _ _ => rangeLe_trans⟩

instance : Std.Total rangeLe := ⟨rangeLe_total⟩

private theorem mem_ranges {header : ProgramHeader} {r : ExecutableRange} (h : r ∈ header.ranges) :
    header.type = 1 ∧ header.flags % 2 = 1 ∧ r.rangeBegin.toNat = header.virtualAddress ∧
      r.rangeEnd.toNat = header.virtualAddress + header.memorySize ∧ r.rangeBegin < r.rangeEnd := by
  rw [ProgramHeader.ranges] at h
  split_ifs at h with hexecutable
  · obtain ⟨htype, hflags, hpos, hlt⟩ := hexecutable
    cases List.mem_singleton.mp h
    have hbegin : header.range.rangeBegin.toNat = header.virtualAddress := Nat.mod_eq_of_lt (by rw [two64] at hlt; omega)
    have hend : header.range.rangeEnd.toNat = header.virtualAddress + header.memorySize := Nat.mod_eq_of_lt hlt
    refine ⟨htype, by omega, hbegin, hend, ?_⟩
    rw [UInt64.lt_iff_toNat_lt, hbegin, hend]
    omega
  · cases h

theorem Collected.describes {layout : ElfLayout} (h : Collected file fileSize layout) :
    Describes file fileSize { layout with executableRanges := layout.executableRanges.insertionSort rangeLe } := by
  have hperm := List.perm_insertionSort rangeLe layout.executableRanges
  have hranges := h.made.ranges
  rw [List.nil_append] at hranges
  refine ⟨List.pairwise_insertionSort rangeLe _, hranges ▸ hperm, ?_, ?_⟩
  · intro r hr
    have hmem := hperm.mem_iff.mp hr
    rw [hranges, List.mem_flatMap] at hmem
    obtain ⟨header, hheader, hmem⟩ := hmem
    exact ⟨header, hheader, mem_ranges hmem⟩
  · have hbuild := h.made.buildId
    have hne := h.buildId_ne_nil
    rw [foldl_taken_nil] at hbuild
    cases hfind : ((programHeaders file).flatMap fun header => header.notes file fileSize).find? isBuildIdNote with
    | none =>
      rw [hfind] at hbuild
      exact absurd hbuild hne
    | some note =>
      rw [hfind] at hbuild
      exact ⟨note, rfl, hbuild⟩

/-- The reader of a layout ends inside of its buffers, without a layout or with one that its file has. -/
theorem layoutFor_describes (file : List UInt8) (fileSize : UInt64) (more : Nat) :
    layoutFor (1024 * 1024 + 1 + more) file fileSize.toNat = .refused .nullopt ∨
      ∃ layout, layoutFor (1024 * 1024 + 1 + more) file fileSize.toNat = .passed layout ∧
        Describes file fileSize.toNat layout := by
  have hanswers := answers_layoutFor file fileSize.toNat_lt (by omega : 1024 * 1024 < 1024 * 1024 + 1 + more)
  refine hanswers.imp ?_
  rintro layout ⟨collected, hcollected, rfl⟩
  exact hcollected.describes

/-- The name that a note of the GNU tools has, with its terminator. -/
def isGnuBuildId (note : Note) : Bool := note.type = 3 && note.name = kGnu ++ [0] && 0 < note.description.length

/-- The notes of all segments of notes. -/
def allNotes (file : List UInt8) : List Note :=
  ((programHeaders file).filter (·.type = 4)).flatMap fun header => notesIn (header.bytes file)

/-- One executable segment, and a segment with two build ids of 65 bytes and of one byte. -/
def twoBuildIds : List UInt8 :=
  kElf ++ [1, 1, 1] ++ List.replicate 9 0 ++ [3, 0, 3, 0, 1, 0, 0, 0] ++ List.replicate 4 0 ++ [64, 0, 0, 0] ++
    List.replicate 8 0 ++ [52, 0, 32, 0, 2, 0, 0, 0] ++ List.replicate 16 0 ++
    [1, 0, 0, 0] ++ List.replicate 4 0 ++ [0x00, 0x10, 0, 0] ++ List.replicate 8 0 ++ [0x00, 0x01, 0, 0, 5, 0, 0, 0] ++
    List.replicate 4 0 ++ [4, 0, 0, 0, 128, 0, 0, 0] ++ List.replicate 8 0 ++ [104, 0, 0, 0] ++ List.replicate 12 0 ++
    ([4, 0, 0, 0, 65, 0, 0, 0, 3, 0, 0, 0] ++ kGnu ++ [0] ++ List.replicate 65 0xAA ++ [0, 0, 0]) ++
    ([4, 0, 0, 0, 1, 0, 0, 0, 3, 0, 0, 0] ++ kGnu ++ [0] ++ [0xBB, 0, 0, 0])

set_option maxRecDepth 4000 in
/-- A description of more than 64 bytes is passed over, and the build id is one behind it. -/
theorem long_description_is_passed_over : ¬∀ fuel file layout, layoutFor fuel file file.length = .passed layout →
    ∀ note, (allNotes file).find? isGnuBuildId = some note → layout.buildId = hexadecimal note.description := by
  intro h
  have hlayout : layoutFor 232 twoBuildIds twoBuildIds.length = .passed ⟨[0x62, 0x62], [⟨0x1000, 0x1100⟩]⟩ := by rfl
  have hfirst : (allNotes twoBuildIds).find? isGnuBuildId = some ⟨kGnu ++ [0], 3, List.replicate 65 0xAA⟩ := by rfl
  have heq := congrArg List.length (h 232 twoBuildIds _ hlayout _ hfirst)
  exact absurd heq (by decide)

end SlsteamMoon.ElfIdentity
