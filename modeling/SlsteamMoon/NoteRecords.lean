import SlsteamMoon.NumberFields

/-! The notes of a note segment: a name and a description, each rounded up to words, behind a head with their sizes
and the type. The first note that is not whole ends them. -/
namespace SlsteamMoon.NoteRecords
open CheckedReads NumberFields

structure Note where
  name : List UInt8
  type : Nat
  description : List UInt8
  deriving DecidableEq

/-- A size up to the next word. -/
def rounded (n : Nat) : Nat := (n + 3) / 4 * 4

theorem le_rounded (n : Nat) : n ≤ rounded n := by
  rw [rounded]
  omega

section
variable (notes : List UInt8) (place : Nat)

def nameSize : Nat := field notes place 4

def descriptionSize : Nat := field notes (place + 4) 4

def noteType : Nat := field notes (place + 8) 4

def descriptionPlace : Nat := place + 12 + rounded (nameSize notes place)

/-- The place behind the note. -/
def behind : Nat := descriptionPlace notes place + rounded (descriptionSize notes place)

def noteAt : Note where
  name := slice notes (place + 12) (nameSize notes place)
  type := noteType notes place
  description := slice notes (descriptionPlace notes place) (descriptionSize notes place)

end

variable {notes : List UInt8} {place : Nat}

theorem place_lt_behind (notes : List UInt8) (place : Nat) : place + 12 ≤ behind notes place := by
  rw [behind, descriptionPlace]
  omega

theorem length_name (h : behind notes place ≤ notes.length) : (noteAt notes place).name.length = nameSize notes place := by
  apply length_slice
  have hle := le_rounded (nameSize notes place)
  rw [behind, descriptionPlace] at h
  omega

theorem length_description (h : behind notes place ≤ notes.length) :
    (noteAt notes place).description.length = descriptionSize notes place := by
  apply length_slice
  have hle := le_rounded (descriptionSize notes place)
  rw [behind] at h
  omega

/-- The notes from a place on. -/
def notesFrom (notes : List UInt8) : Nat → Nat → List Note
  | 0, _ => []
  | fuel + 1, place =>
    if behind notes place ≤ notes.length then noteAt notes place :: notesFrom notes fuel (behind notes place) else []

/-- A note takes bytes, so that the bytes left are fuel enough. -/
theorem notesFrom_of_le {fuel fuel' : Nat} (h : notes.length - place ≤ fuel) (h' : notes.length - place ≤ fuel') :
    notesFrom notes fuel place = notesFrom notes fuel' place := by
  induction fuel generalizing place fuel' with
  | zero =>
    cases fuel' with
    | zero => rfl
    | succ fuel' =>
      have hlt := place_lt_behind notes place
      rw [notesFrom, notesFrom, if_neg (by omega)]
  | succ fuel ih =>
    have hlt := place_lt_behind notes place
    cases fuel' with
    | zero => rw [notesFrom, notesFrom, if_neg (by omega)]
    | succ fuel' =>
      rw [notesFrom, notesFrom]
      split_ifs with hwhole
      · rw [@ih (behind notes place) fuel' (by omega) (by omega)]
      · rfl

/-- The notes of a segment. -/
def notesIn (notes : List UInt8) : List Note := notesFrom notes notes.length 0

end SlsteamMoon.NoteRecords
