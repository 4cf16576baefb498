import SlsteamMoon.ElfIdentity.LayoutFor

/-! The reader of a build id that goes through a stream, where a `size_t` has 32 bits. -/
namespace SlsteamMoon.ElfIdentity
open CheckedReads Check NumberFields CursorLoop

/-- The positions of a stream; the numbers of 64 bits behind them are negative ones. -/
def positions : Nat := 0x8000000000000000

/-- The bytes that a stream has positions for. -/
abbrev File := { bytes : List UInt8 // bytes.length < positions }

/-- A seek and a read: what is got, and whether the stream is still good. A stream that is not gets nothing. -/
def seekRead (file : File) (good : Bool) (off n : Nat) : List UInt8 × Bool :=
  if good = true ∧ off < positions then (slice file.1 off n, decide (off + n ≤ file.1.length)) else ([], false)

/-- The bytes that are not got are zero. -/
def rd (file : File) (good : Bool) (off n : Nat) : Nat × Bool :=
  let (got, good) := seekRead file good off n
  (number got, good)

def two32 : Nat := 0x100000000

/-- `(n + 3) & ~3u` in 32 bits. -/
def aligned32 (n : Nat) : Nat := (n + 3) % two32 / 4 * 4

/-- A turn over the notes; the loop is left with a build id or at the end of the notes. -/
def buildIdTurn (notes : List UInt8) (pos : Nat) : Reading (Turn Nat (Option (List UInt8))) :=
  if pos + 12 ≤ notes.length then do
    let namesz ← littleEndian notes pos 4
    let descsz ← littleEndian notes (pos + 4) 4
    let type ← littleEndian notes (pos + 8) 4
    let nameOff := pos + 12
    let descOff := (nameOff + aligned32 namesz) % two32
    let next := (descOff + aligned32 descsz) % two32
    if notes.length < next then return .leave none
    else if type = 3 ∧ namesz = 4 then
      if (← bytesAt notes nameOff 4) = kGnu ++ [0] ∧ 0 < descsz then
        return .leave (some (hexadecimal (← bytesAt notes descOff descsz)))
      else return .again next
    else return .again next
  else return .leave none

/-- The notes of one header, unless it is passed over, and the stream behind them. -/
def loadNotes (file : File) (is64 : Bool) (ph : Nat) (good : Bool) : Option (List UInt8) × Bool :=
  let (pType, good) := rd file good ph 4
  if pType ≠ 4 then (none, good)
  else
    let (pOffset, good) := rd file good (ph + if is64 then 8 else 4) (if is64 then 8 else 4)
    let (pFilesz, good) := rd file good (ph + if is64 then 32 else 16) (if is64 then 8 else 4)
    if pFilesz = 0 ∨ 0x100000 < pFilesz then (none, good)
    else
      let (notes, good) := seekRead file good pOffset pFilesz
      if notes.length ≠ pFilesz then (none, good) else (some notes, good)

/-- The headers from an index on, with the stream as they find it. -/
def scanHeaders (fuel : Nat) (file : File) (is64 : Bool) (phoff phentsize : Nat) : List Nat → Bool → Reading (List UInt8)
  | [], _ => return []
  | i :: indices, good =>
    match loadNotes file is64 ((phoff + i * phentsize) % two64) good with
    | (none, good) => scanHeaders fuel file is64 phoff phentsize indices good
    | (some notes, good) => do
      match ← loop (buildIdTurn notes) fuel 0 with
      | some buildId => return buildId
      | none => scanHeaders fuel file is64 phoff phentsize indices good

def getBuildId (fuel : Nat) (file : File) : Reading (List UInt8) :=
  if file.1.length < 16 ∨ slice file.1 0 4 ≠ kElf then return []
  else
    let is64 : Bool := file.1[4]? = some 2
    let (phoff, good) := rd file true (if is64 then 0x20 else 0x1C) (if is64 then 8 else 4)
    let (phentsize, good) := rd file good (if is64 then 0x36 else 0x2A) 2
    let (phnum, good) := rd file good (if is64 then 0x38 else 0x2C) 2
    scanHeaders fuel file is64 phoff phentsize (List.range phnum) good

end SlsteamMoon.ElfIdentity

/-! The notes of a segment as a cursor of 32 bits comes to them, one behind the other. -/
namespace SlsteamMoon.ElfIdentity
open CheckedReads Check NumberFields CursorLoop NoteRecords

section
variable (notes : List UInt8) (place : Nat)

/-- The place behind a note, as far as 32 bits tell it. -/
def behind32 : Nat := behind notes place % two32

/-- The head of the note is there, and the place behind it is told to be. -/
def Counted : Prop := place + 12 ≤ notes.length ∧ behind32 notes place ≤ notes.length

/-- A note whose name is looked at. -/
def Named : Prop := noteType notes place = 3 ∧ nameSize notes place = 4

/-- A note with a build id. -/
def IsGnu : Prop := Named notes place ∧ slice notes (place + 12) 4 = kGnu ++ [0] ∧ 0 < descriptionSize notes place

instance : Decidable (Counted notes place) := inferInstanceAs (Decidable (_ ∧ _))

instance : Decidable (Named notes place) := inferInstanceAs (Decidable (_ ∧ _))

instance : Decidable (IsGnu notes place) := inferInstanceAs (Decidable (_ ∧ _))

/-- From note to note, up to a build id or the end. -/
def chain : Turn Nat Unit := if Counted notes place ∧ ¬IsGnu notes place then .again (behind32 notes place) else .leave ()

/-- A place that the cursor comes to. -/
def Comes : Prop := Reaches (chain notes) 0 place

end

/-- The cursor comes to no place again, and a name and a build id that it comes to are inside of the segment. -/
structure Clean (notes : List UInt8) : Prop where
  onward : ∀ place, Comes notes place → ¬ComesBack (chain notes) place
  named : ∀ place, Comes notes place → Counted notes place → Named notes place → place + 16 ≤ notes.length
  gnu : ∀ place, Comes notes place → Counted notes place → IsGnu notes place → behind notes place ≤ notes.length

/-- The first build id that the cursor comes to, if it comes to one. -/
def Gnu (notes : List UInt8) (place : Nat) : Prop := Comes notes place ∧ Counted notes place ∧ IsGnu notes place

variable {notes : List UInt8} {place fuel : Nat}

/-- What rounding loses in 32 bits are multiples of their number. -/
theorem aligned32_mod (n : Nat) : aligned32 n % two32 = rounded n % two32 := by
  rw [aligned32, rounded]
  rw [two32] at *
  omega

private theorem sum_eq_behind32 (notes : List UInt8) (place : Nat) :
    ((place + 12 + aligned32 (nameSize notes place)) % two32 + aligned32 (descriptionSize notes place)) % two32 =
      behind32 notes place := by
  have hname := aligned32_mod (nameSize notes place)
  have hdescription := aligned32_mod (descriptionSize notes place)
  rw [behind32, behind, descriptionPlace]
  rw [two32] at *
  omega

/-- What a turn does behind the head of a note. -/
theorem buildIdTurn_of_head (h : place + 12 ≤ notes.length) : buildIdTurn notes place =
    if notes.length < behind32 notes place then return .leave none
    else if Named notes place then do
      if (← bytesAt notes (place + 12) 4) = kGnu ++ [0] ∧ 0 < descriptionSize notes place then
        return .leave (some (hexadecimal (← bytesAt notes
          ((place + 12 + aligned32 (nameSize notes place)) % two32) (descriptionSize notes place))))
      else return .again (behind32 notes place)
    else return .again (behind32 notes place) := by
  obtain ⟨hname, hsize, htype⟩ := head_inside h
  rw [buildIdTurn, if_pos h, hname, passed_bind, hsize, passed_bind, htype, passed_bind]
  dsimp only
  rw [sum_eq_behind32]
  rfl

theorem buildIdTurn_of_not_counted (h : ¬Counted notes place) : buildIdTurn notes place = .passed (.leave none) := by
  by_cases hhead : place + 12 ≤ notes.length
  · rw [buildIdTurn_of_head hhead, if_pos (Nat.lt_of_not_le fun hle => h ⟨hhead, hle⟩)]
    rfl
  · exact if_neg hhead

/-- A name that is not inside is looked at nevertheless. -/
theorem buildIdTurn_of_name_outside (h : Counted notes place) (hnamed : Named notes place)
    (hlt : notes.length < place + 16) : buildIdTurn notes place = .outside := by
  rw [buildIdTurn_of_head h.1, if_neg (Nat.not_lt.mpr h.2), if_pos hnamed, bytesAt, if_neg (by omega)]
  rfl

theorem buildIdTurn_of_not_gnu (h : Counted notes place) (hgnu : ¬IsGnu notes place)
    (hinside : Named notes place → place + 16 ≤ notes.length) :
    buildIdTurn notes place = .passed (.again (behind32 notes place)) := by
  rw [buildIdTurn_of_head h.1, if_neg (Nat.not_lt.mpr h.2)]
  by_cases hnamed : Named notes place
  · have hle := hinside hnamed
    rw [if_pos hnamed, bytesAt_inside (by omega), passed_bind, if_neg fun hname => hgnu ⟨hnamed, hname⟩]
    rfl
  · rw [if_neg hnamed]
    rfl

private theorem IsGnu.name_inside (h : IsGnu notes place) : place + 16 ≤ notes.length := by
  have hlength := congrArg List.length h.2.1
  rw [slice, List.length_take, List.length_drop] at hlength
  have hfour : (kGnu ++ [(0 : UInt8)]).length = 4 := rfl
  omega

/-- The description of a build id begins four bytes behind its name. -/
theorem IsGnu.descriptionPlace (h : IsGnu notes place) : descriptionPlace notes place = place + 16 := by
  rw [NoteRecords.descriptionPlace, h.1.2]
  rfl

private theorem buildIdTurn_of_gnu (hlength : notes.length ≤ 0x100000) (h : Counted notes place)
    (hgnu : IsGnu notes place) : buildIdTurn notes place = (do
      return .leave (some (hexadecimal (← bytesAt notes (descriptionPlace notes place) (descriptionSize notes place))))) := by
  have hname := hgnu.name_inside
  have hplace : (place + 12 + aligned32 (nameSize notes place)) % two32 = descriptionPlace notes place := by
    have hfour : aligned32 4 = 4 := rfl
    rw [hgnu.descriptionPlace, hgnu.1.2, hfour]
    exact Nat.mod_eq_of_lt (by rw [two32]; omega)
  rw [buildIdTurn_of_head h.1, if_neg (Nat.not_lt.mpr h.2), if_pos hgnu.1, bytesAt_inside (by omega), passed_bind,
    if_pos hgnu.2, hplace]

theorem buildIdTurn_of_gnu_inside (hlength : notes.length ≤ 0x100000) (h : Counted notes place) (hgnu : IsGnu notes place)
    (hle : behind notes place ≤ notes.length) :
    buildIdTurn notes place = .passed (.leave (some (hexadecimal (noteAt notes place).description))) := by
  have hrounded := le_rounded (descriptionSize notes place)
  rw [buildIdTurn_of_gnu hlength h hgnu, bytesAt_inside (by rw [behind] at hle; omega)]
  rfl

/-- A sum that wraps around has a description that ends far outside. -/
theorem buildIdTurn_of_gnu_outside (hlength : notes.length ≤ 0x100000) (h : Counted notes place) (hgnu : IsGnu notes place)
    (hlt : notes.length < behind notes place) : buildIdTurn notes place = .outside := by
  have hwrap := h.2
  have hrounded : rounded (descriptionSize notes place) ≤ descriptionSize notes place + 3 := by
    rw [rounded]
    omega
  rw [behind32, two32] at hwrap
  rw [buildIdTurn_of_gnu hlength h hgnu, bytesAt, if_neg (by rw [behind] at hwrap hlt; omega)]
  rfl

end SlsteamMoon.ElfIdentity
