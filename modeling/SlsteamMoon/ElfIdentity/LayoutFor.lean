import SlsteamMoon.CursorLoop
import SlsteamMoon.CheckedReads
import SlsteamMoon.PatternRefresh.Activation
import SlsteamMoon.NoteRecords
import Mathlib.Data.List.Sort

/-! The layout of an executable, as its program headers and its notes tell it. A file is its bytes. -/
namespace SlsteamMoon.ElfIdentity
open CheckedReads Check NumberFields CursorLoop
open PatternRefresh (ExecutableRange)

/-- Why a reader has no answer: it gives up, or its fuel is out while a loop still runs. -/
inductive Stop where
  | nullopt
  | running
  deriving DecidableEq

abbrev Reading := Check Stop

/-- The bytes of a range of a buffer. -/
def bytesAt (buffer : List UInt8) (off n : Nat) : Reading (List UInt8) :=
  if off + n ≤ buffer.length then return slice buffer off n else .outside

def littleEndian (buffer : List UInt8) (off n : Nat) : Reading Nat := do
  return number (← bytesAt buffer off n)

/-- All of the bytes, or none. -/
def readExactAt (file : List UInt8) (size offset : Nat) : Reading (List UInt8) :=
  if offset + size ≤ file.length then return slice file offset size else .refused .nullopt

variable {σ τ : Type}

/-- A turn of a loop that reads. -/
def turnOf : Reading (Turn σ τ) → Turn σ (Reading τ)
  | .outside => .leave .outside
  | .refused stop => .leave (.refused stop)
  | .passed (.again s) => .again s
  | .passed (.leave answer) => .leave (.passed answer)

def loop (turn : σ → Reading (Turn σ τ)) (fuel : Nat) (s : σ) : Reading τ :=
  (run (fun s => turnOf (turn s)) fuel s).getD (.refused .running)

structure ElfLayout where
  buildId : List UInt8
  executableRanges : List ExecutableRange
  deriving DecidableEq

def hexDigit (n : Nat) : UInt8 := if n < 10 then UInt8.ofNat (0x30 + n) else UInt8.ofNat (0x57 + n)

def hexadecimal (bytes : List UInt8) : List UInt8 :=
  bytes.flatMap fun b => [hexDigit (b.toNat / 16), hexDigit (b.toNat % 16)]

/-- A size up to the next word; a size of 32 bits has room for it in 64 bits. -/
def aligned (n : Nat) : Nat := (n + 3) / 4 * 4

def kGnu : List UInt8 := [0x47, 0x4E, 0x55]

/-- The cursor in the notes, and the build id as far as it is known. -/
structure NoteState where
  cursor : Nat
  buildId : List UInt8

def noteTurn (notes : List UInt8) (s : NoteState) : Reading (Turn NoteState (List UInt8)) :=
  if s.cursor + 12 ≤ notes.length then do
    let nameSize ← littleEndian notes s.cursor 4
    let descriptionSize ← littleEndian notes (s.cursor + 4) 4
    let type ← littleEndian notes (s.cursor + 8) 4
    let cursor := s.cursor + 12
    if notes.length - cursor < aligned nameSize then return .leave s.buildId
    else
      let descriptionOffset := cursor + aligned nameSize
      if notes.length - descriptionOffset < aligned descriptionSize then return .leave s.buildId
      else
        let next := descriptionOffset + aligned descriptionSize
        if type = 3 ∧ s.buildId = [] ∧ 3 ≤ nameSize ∧ 0 < descriptionSize ∧ descriptionSize ≤ 64 then
          if (← bytesAt notes cursor 3) = kGnu then
            let description ← bytesAt notes descriptionOffset descriptionSize
            return .again ⟨next, hexadecimal description⟩
          else return .again ⟨next, s.buildId⟩
        else return .again ⟨next, s.buildId⟩
  else return .leave s.buildId

def two64 : Nat := 0x10000000000000000

/-- The range of a segment that is loaded to be executed. -/
def addRange (elf64 : Bool) (entry : List UInt8) (ranges : List ExecutableRange) : Reading (List ExecutableRange) := do
  let virtualAddress ← littleEndian entry (if elf64 then 16 else 8) (if elf64 then 8 else 4)
  let memorySize ← littleEndian entry (if elf64 then 40 else 20) (if elf64 then 8 else 4)
  let flags ← littleEndian entry (if elf64 then 4 else 24) 4
  if flags % 2 ≠ 0 ∧ 0 < memorySize ∧ virtualAddress ≤ two64 - 1 - memorySize then
    return ranges ++ [⟨UInt64.ofNat virtualAddress, UInt64.ofNat virtualAddress + UInt64.ofNat memorySize⟩]
  else return ranges

/-- The build id, as far as the notes of a segment tell it. -/
def readNotes (fuel : Nat) (file : List UInt8) (fileSize : Nat) (elf64 : Bool) (entry buildId : List UInt8) :
    Reading (List UInt8) := do
  let noteOffset ← littleEndian entry (if elf64 then 8 else 4) (if elf64 then 8 else 4)
  let noteSize ← littleEndian entry (if elf64 then 32 else 16) (if elf64 then 8 else 4)
  if noteSize < 16 ∨ 1024 * 1024 < noteSize ∨ fileSize < noteOffset ∨ fileSize - noteOffset < noteSize then
    return buildId
  else
    let notes ← readExactAt file noteSize noteOffset
    loop (noteTurn notes) fuel ⟨0, buildId⟩

def readEntry (fuel : Nat) (file : List UInt8) (fileSize : Nat) (elf64 : Bool) (entry : List UInt8) (result : ElfLayout) :
    Reading ElfLayout := do
  let type ← littleEndian entry 0 4
  if type = 1 then
    let ranges ← addRange elf64 entry result.executableRanges
    return { result with executableRanges := ranges }
  else if type = 4 then
    let buildId ← readNotes fuel file fileSize elf64 entry result.buildId
    return { result with buildId := buildId }
  else return result

/-- The table of the program headers, as the header tells it. -/
structure ProgramTable where
  programOffset : Nat
  entrySize : Nat
  entryCount : Nat

def readEntries (fuel : Nat) (file : List UInt8) (fileSize : Nat) (elf64 : Bool) (table : ProgramTable) :
    List Nat → ElfLayout → Reading ElfLayout
  | [], result => return result
  | index :: indices, result => do
    let entry ← readExactAt file table.entrySize ((table.programOffset + index * table.entrySize) % two64)
    let result ← readEntry fuel file fileSize elf64 entry result
    readEntries fuel file fileSize elf64 table indices result

def kElf : List UInt8 := [0x7F, 0x45, 0x4C, 0x46]

/-- The class of the file, when its header is one of an executable. -/
def readClass (header : List UInt8) : Reading Bool := do
  refuseIf .nullopt (either (differs (bytesAt header 0 4) kElf) (differs (readAt header 5) 1))
  let ident ← readAt header 4
  refuseIf .nullopt (return ident ≠ 2 && ident ≠ 1)
  return ident = 2

def readTable (header : List UInt8) (fileSize : Nat) (elf64 : Bool) : Reading ProgramTable := do
  let programOffset ← littleEndian header (if elf64 then 0x20 else 0x1C) (if elf64 then 8 else 4)
  let entrySize ← littleEndian header (if elf64 then 0x36 else 0x2A) 2
  let entryCount ← littleEndian header (if elf64 then 0x38 else 0x2C) 2
  let minimumEntry := if elf64 then 56 else 32
  refuseIf .nullopt (return entrySize < minimumEntry || 256 < entrySize || entryCount = 0 || 1024 < entryCount ||
    fileSize < programOffset || (fileSize - programOffset) / entrySize < entryCount)
  return ⟨programOffset, entrySize, entryCount⟩

def rangeLe (left right : ExecutableRange) : Prop :=
  left.rangeBegin < right.rangeBegin ∨ left.rangeBegin = right.rangeBegin ∧ left.rangeEnd ≤ right.rangeEnd

instance : DecidableRel rangeLe := fun _ _ => inferInstanceAs (Decidable (_ ∨ _))

def layoutFor (fuel : Nat) (file : List UInt8) (fileSize : Nat) : Reading ElfLayout := do
  let header ← readExactAt file 64 0
  let elf64 ← readClass header
  let table ← readTable header fileSize elf64
  let result ← readEntries fuel file fileSize elf64 table (List.range table.entryCount) ⟨[], []⟩
  refuseIf .nullopt (return result.buildId = [] || result.executableRanges = [])
  return { result with executableRanges := result.executableRanges.insertionSort rangeLe }

end SlsteamMoon.ElfIdentity

/-! The walk over the notes of a segment, told by the notes. -/
namespace SlsteamMoon.ElfIdentity
open CheckedReads Check NumberFields CursorLoop NoteRecords

variable {buffer notes buildId : List UInt8} {off n place fuel : Nat}

theorem bytesAt_inside (h : off + n ≤ buffer.length) : bytesAt buffer off n = .passed (slice buffer off n) := if_pos h

theorem littleEndian_inside (h : off + n ≤ buffer.length) : littleEndian buffer off n = .passed (field buffer off n) := by
  rw [littleEndian, bytesAt_inside h]
  rfl

/-- The note of a build id: type, name and the length of the description. -/
def isBuildIdNote (note : Note) : Bool :=
  note.type = 3 && note.name.take 3 = kGnu && 0 < note.description.length && note.description.length ≤ 64

/-- A build id that is there stays. -/
def taken (buildId : List UInt8) (note : Note) : List UInt8 :=
  if buildId = [] ∧ isBuildIdNote note = true then hexadecimal note.description else buildId

private theorem aligned_eq_rounded (n : Nat) : aligned n = rounded n := rfl

private theorem take_name (hname : 3 ≤ nameSize notes place) :
    (noteAt notes place).name.take 3 = slice notes (place + 12) 3 := by
  rw [noteAt, slice, List.take_take, Nat.min_eq_left hname, slice]

private theorem isBuildIdNote_iff (h : behind notes place ≤ notes.length) : isBuildIdNote (noteAt notes place) = true ↔
    (noteType notes place = 3 ∧ 3 ≤ nameSize notes place ∧ 0 < descriptionSize notes place ∧
      descriptionSize notes place ≤ 64) ∧ slice notes (place + 12) 3 = kGnu := by
  have htype : (noteAt notes place).type = noteType notes place := rfl
  rw [isBuildIdNote, length_description h, htype]
  simp only [Bool.and_eq_true, decide_eq_true_eq]
  constructor
  · rintro ⟨⟨⟨htype, hgnu⟩, hpos⟩, hle⟩
    have hname : 3 ≤ nameSize notes place := by
      rw [← length_name h, ← show kGnu.length = 3 from rfl, ← hgnu, List.length_take]
      exact Nat.min_le_right 3 _
    exact ⟨⟨htype, hname, hpos, hle⟩, by rw [← take_name hname, hgnu]⟩
  · rintro ⟨⟨htype, hname, hpos, hle⟩, hgnu⟩
    exact ⟨⟨⟨htype, by rw [take_name hname, hgnu]⟩, hpos⟩, hle⟩

/-- What is read of the head of a note. -/
theorem head_inside (h : place + 12 ≤ notes.length) :
    littleEndian notes place 4 = .passed (nameSize notes place) ∧
      littleEndian notes (place + 4) 4 = .passed (descriptionSize notes place) ∧
      littleEndian notes (place + 8) 4 = .passed (noteType notes place) :=
  ⟨littleEndian_inside (by omega), littleEndian_inside (by omega), littleEndian_inside (by omega)⟩

/-- A whole note is passed, and its description taken when it is the first of a build id. -/
theorem noteTurn_of_behind_le (h : behind notes place ≤ notes.length) : noteTurn notes ⟨place, buildId⟩ =
    .passed (.again ⟨behind notes place, taken buildId (noteAt notes place)⟩) := by
  have hrounded := le_rounded (nameSize notes place)
  have hdescription := le_rounded (descriptionSize notes place)
  have hiff := isBuildIdNote_iff h
  have hnext : behind notes place = place + 12 + rounded (nameSize notes place) + rounded (descriptionSize notes place) :=
    rfl
  have hhead : place + 12 ≤ notes.length := by omega
  obtain ⟨hname, hsize, htype⟩ := head_inside hhead
  rw [noteTurn, if_pos hhead]
  dsimp only
  rw [hname, passed_bind, hsize, passed_bind, htype, passed_bind, aligned_eq_rounded, aligned_eq_rounded,
    if_neg (by omega), if_neg (by omega), ← hnext]
  by_cases hsizes : noteType notes place = 3 ∧ buildId = [] ∧ 3 ≤ nameSize notes place ∧
      0 < descriptionSize notes place ∧ descriptionSize notes place ≤ 64
  · obtain ⟨hthree, hempty, hsizes'⟩ := hsizes
    rw [if_pos ⟨hthree, hempty, hsizes'⟩, bytesAt_inside (by omega), passed_bind]
    split_ifs with hgnu
    · rw [bytesAt_inside (by omega), passed_bind, taken, if_pos ⟨hempty, hiff.mpr ⟨⟨hthree, hsizes'⟩, hgnu⟩⟩]
      rfl
    · rw [taken, if_neg fun htaken => hgnu (hiff.mp htaken.2).2]
      rfl
  · rw [if_neg hsizes, taken, if_neg]
    · rfl
    · rintro ⟨hempty, hnote⟩
      obtain ⟨hthree, hsizes'⟩ := (hiff.mp hnote).1
      exact hsizes ⟨hthree, hempty, hsizes'⟩

/-- A note that is not whole ends the walk. -/
theorem noteTurn_of_lt_behind (h : notes.length < behind notes place) :
    noteTurn notes ⟨place, buildId⟩ = .passed (.leave buildId) := by
  rw [noteTurn]
  split_ifs with hhead
  · dsimp only at hhead ⊢
    obtain ⟨hname, hsize, htype⟩ := head_inside hhead
    rw [hname, passed_bind, hsize, passed_bind, htype, passed_bind, aligned_eq_rounded, aligned_eq_rounded]
    rw [behind, descriptionPlace] at h
    by_cases hroom : notes.length - (place + 12) < rounded (nameSize notes place)
    · rw [if_pos hroom]
      rfl
    · rw [if_neg hroom, if_pos (by omega)]
      rfl
  · rfl

private theorem loop_again {σ τ : Type} {turn : σ → Reading (Turn σ τ)} {s t : σ} (h : turn s = .passed (.again t)) :
    loop turn (fuel + 1) s = loop turn fuel t := by
  have hturn : turnOf (turn s) = .again t := by rw [h, turnOf]
  rw [loop, loop, run_again hturn]

private theorem loop_leave {σ τ : Type} {turn : σ → Reading (Turn σ τ)} {s : σ} {answer : τ}
    (h : turn s = .passed (.leave answer)) : loop turn (fuel + 1) s = .passed answer := by
  have hturn : turnOf (turn s) = .leave (.passed answer) := by rw [h, turnOf]
  rw [loop, run_leave hturn]
  rfl

/-- With fuel for the bytes that are left the walk ends, with what the notes make of the build id. -/
theorem loop_noteTurn (h : notes.length - place < fuel) :
    loop (noteTurn notes) fuel ⟨place, buildId⟩ = .passed ((notesFrom notes fuel place).foldl taken buildId) := by
  induction fuel generalizing place buildId with
  | zero => exact absurd h (Nat.not_lt_zero _)
  | succ fuel ih =>
    have hlt := place_lt_behind notes place
    rw [notesFrom]
    split_ifs with hwhole
    · rw [loop_again (noteTurn_of_behind_le hwhole), ih (by omega), List.foldl_cons]
    · rw [loop_leave (noteTurn_of_lt_behind (Nat.lt_of_not_le hwhole)), List.foldl_nil]

theorem loop_notesIn (h : notes.length < fuel) (buildId : List UInt8) :
    loop (noteTurn notes) fuel ⟨0, buildId⟩ = .passed ((notesIn notes).foldl taken buildId) := by
  rw [loop_noteTurn (by omega), notesIn, @notesFrom_of_le notes 0 fuel notes.length (by omega) (by omega)]

theorem hexadecimal_eq_nil_iff {bytes : List UInt8} : hexadecimal bytes = [] ↔ bytes = [] := by
  cases bytes with
  | nil => exact iff_of_true rfl rfl
  | cons b rest => exact iff_of_false (List.cons_ne_nil _ _) (List.cons_ne_nil b rest)

theorem hexadecimal_ne_nil {note : Note} (h : isBuildIdNote note = true) : hexadecimal note.description ≠ [] := by
  rw [isBuildIdNote, Bool.and_eq_true, Bool.and_eq_true, decide_eq_true_eq] at h
  rw [ne_eq, hexadecimal_eq_nil_iff]
  exact List.ne_nil_of_length_pos h.1.2

private theorem foldl_taken_of_ne_nil (h : buildId ≠ []) (records : List Note) :
    records.foldl taken buildId = buildId := by
  induction records with
  | nil => rfl
  | cons note records ih => rw [List.foldl_cons, taken, if_neg fun htaken => h htaken.1, ih]

/-- The notes make the description of the first one that has a build id. -/
theorem foldl_taken_nil (records : List Note) :
    records.foldl taken [] = ((records.find? isBuildIdNote).map fun note => hexadecimal note.description).getD [] := by
  induction records with
  | nil => rfl
  | cons note records ih =>
    rw [List.foldl_cons, List.find?_cons]
    cases hnote : isBuildIdNote note with
    | true => rw [taken, if_pos ⟨rfl, hnote⟩, foldl_taken_of_ne_nil (hexadecimal_ne_nil hnote)]; rfl
    | false => rw [taken, if_neg fun htaken => Bool.false_ne_true (hnote.symm.trans htaken.2), ih]

end SlsteamMoon.ElfIdentity
