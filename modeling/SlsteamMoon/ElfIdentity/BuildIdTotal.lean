import SlsteamMoon.ElfIdentity.LayoutSpec
import SlsteamMoon.ElfIdentity.NoteWalk

/-! When the reader of a build id answers, and answers as the reader of layouts does. -/
namespace SlsteamMoon.ElfIdentity
open CheckedReads Check NumberFields CursorLoop NoteRecords

/-- The segments of notes that are loaded from an index on, with the stream as their headers find it. -/
def segments (file : File) (is64 : Bool) (phoff phentsize : Nat) : List Nat → Bool → List (List UInt8)
  | [], _ => []
  | i :: indices, good =>
    match loadNotes file is64 ((phoff + i * phentsize) % two64) good with
    | (none, good) => segments file is64 phoff phentsize indices good
    | (some notes, good) => notes :: segments file is64 phoff phentsize indices good

/-- The segments of notes that a file makes the reader load. -/
def noteSegments (file : File) : List (List UInt8) :=
  if file.1.length < 16 ∨ slice file.1 0 4 ≠ kElf then []
  else
    let is64 : Bool := file.1[4]? = some 2
    let (phoff, good) := rd file true (if is64 then 0x20 else 0x1C) (if is64 then 8 else 4)
    let (phentsize, good) := rd file good (if is64 then 0x36 else 0x2A) 2
    let (phnum, good) := rd file good (if is64 then 0x38 else 0x2C) 2
    segments file is64 phoff phentsize (List.range phnum) good

/-- The walks over segments, one after the other. -/
def walk (fuel : Nat) : List (List UInt8) → Reading (List UInt8)
  | [] => return []
  | notes :: rest => do
    match ← loop (buildIdTurn notes) fuel 0 with
    | some buildId => return buildId
    | none => walk fuel rest

variable {file : File} {is64 : Bool} {phoff phentsize fuel : Nat}

private theorem scanHeaders_eq_walk (fuel : Nat) (file : File) (is64 : Bool) (phoff phentsize : Nat)
    (indices : List Nat) (good : Bool) : scanHeaders fuel file is64 phoff phentsize indices good =
      walk fuel (segments file is64 phoff phentsize indices good) := by
  induction indices generalizing good with
  | nil => rfl
  | cons i indices ih =>
    rw [scanHeaders, segments]
    cases loadNotes file is64 ((phoff + i * phentsize) % two64) good with
    | mk loaded left =>
      cases loaded with
      | none => exact ih left
      | some notes =>
        dsimp only
        rw [ih left]
        rfl

private theorem getBuildId_eq_walk (fuel : Nat) (file : File) :
    getBuildId fuel file = walk fuel (noteSegments file) := by
  rw [getBuildId, noteSegments]
  by_cases hmagic : file.1.length < 16 ∨ slice file.1 0 4 ≠ kElf
  · rw [if_pos hmagic, if_pos hmagic]
    rfl
  · rw [if_neg hmagic, if_neg hmagic]
    exact scanHeaders_eq_walk ..

private theorem length_le_of_loadNotes {ph : Nat} {good left : Bool} {notes : List UInt8}
    (h : loadNotes file is64 ph good = (some notes, left)) : notes.length ≤ 0x100000 := by
  rw [loadNotes] at h
  dsimp only at h
  split_ifs at h
  all_goals cases h
  all_goals omega

private theorem length_le_of_mem_segments {indices : List Nat} {good : Bool} {notes : List UInt8}
    (h : notes ∈ segments file is64 phoff phentsize indices good) : notes.length ≤ 0x100000 := by
  induction indices generalizing good with
  | nil => cases h
  | cons i indices ih =>
    rw [segments] at h
    split at h
    · exact ih h
    next hload =>
      rcases List.mem_cons.mp h with rfl | h
      · exact length_le_of_loadNotes hload
      · exact ih h

private theorem length_le_of_mem_noteSegments {notes : List UInt8} (h : notes ∈ noteSegments file) :
    notes.length ≤ 0x100000 := by
  rw [noteSegments] at h
  by_cases hmagic : file.1.length < 16 ∨ slice file.1 0 4 ≠ kElf
  · rw [if_pos hmagic] at h
    cases h
  · rw [if_neg hmagic] at h
    exact length_le_of_mem_segments h

/-- Up to the first build id the walks are clean. -/
def CleanUpTo : List (List UInt8) → Prop
  | [] => True
  | notes :: rest => Clean notes ∧ ((∃ place, Gnu notes place) ∨ CleanUpTo rest)

/-- The description of the first build id that the walks come to. -/
def FirstDescription : List (List UInt8) → List UInt8 → Prop
  | [], _ => False
  | notes :: rest, description =>
    (∃ place, Gnu notes place ∧ description = (noteAt notes place).description) ∨
      (∀ place, ¬Gnu notes place) ∧ FirstDescription rest description

/-- What the walks over clean segments answer. -/
def FindsIn : List (List UInt8) → List UInt8 → Prop
  | [], buildId => buildId = []
  | notes :: rest, buildId => ∃ value, Finds notes value ∧
      match value with
      | some found => buildId = found
      | none => FindsIn rest buildId

private theorem yields_walk_iff {segs : List (List UInt8)} (hlength : ∀ notes ∈ segs, notes.length ≤ 0x100000)
    {buildId : List UInt8} : Yields (fun fuel => walk fuel segs) buildId ↔ FindsIn segs buildId := by
  induction segs with
  | nil => exact yields_pure_iff
  | cons notes rest ih =>
    obtain ⟨hnotes, hrest⟩ := List.forall_mem_cons.mp hlength
    refine (yields_bind_iff (stable_loop (buildIdTurn notes) 0)).trans (exists_congr fun value => ?_)
    rw [yields_loop_iff hnotes]
    refine and_congr_right fun _ => ?_
    cases value with
    | none => exact ih hrest
    | some found => exact yields_pure_iff

private theorem cleanUpTo_of_findsIn {segs : List (List UInt8)} {buildId : List UInt8} (h : FindsIn segs buildId) :
    CleanUpTo segs := by
  induction segs with
  | nil => trivial
  | cons notes rest ih =>
    obtain ⟨value, ⟨hclean, ⟨place, hgnu, -⟩ | ⟨-, rfl⟩⟩, hrest⟩ := h
    · exact ⟨hclean, .inl ⟨place, hgnu⟩⟩
    · exact ⟨hclean, .inr (ih hrest)⟩

private theorem exists_findsIn {segs : List (List UInt8)} (h : CleanUpTo segs) : ∃ buildId, FindsIn segs buildId := by
  induction segs with
  | nil => exact ⟨[], rfl⟩
  | cons notes rest ih =>
    obtain ⟨hclean, hrest⟩ := h
    by_cases hgnu : ∃ place, Gnu notes place
    · obtain ⟨place, hplace⟩ := hgnu
      exact ⟨_, _, ⟨hclean, .inl ⟨place, hplace, rfl⟩⟩, rfl⟩
    · obtain ⟨buildId, hbuildId⟩ := ih (hrest.resolve_left hgnu)
      exact ⟨buildId, none, ⟨hclean, .inr ⟨not_exists.mp hgnu, rfl⟩⟩, hbuildId⟩

/-- An answer that is not empty has the first description. -/
theorem firstDescription_of_findsIn {segs : List (List UInt8)} {buildId : List UInt8} (h : FindsIn segs buildId)
    (hne : buildId ≠ []) : ∃ description, FirstDescription segs description ∧ buildId = hexadecimal description := by
  induction segs with
  | nil => exact absurd h hne
  | cons notes rest ih =>
    obtain ⟨value, ⟨-, ⟨place, hgnu, rfl⟩ | ⟨hnone, rfl⟩⟩, hrest⟩ := h
    · exact ⟨_, .inl ⟨place, hgnu, rfl⟩, hrest⟩
    · obtain ⟨description, hfirst, heq⟩ := ih hrest
      exact ⟨description, .inr ⟨hnone, hfirst⟩, heq⟩

private theorem findsIn_of_firstDescription {segs : List (List UInt8)} {description : List UInt8} (h : CleanUpTo segs)
    (hfirst : FirstDescription segs description) : FindsIn segs (hexadecimal description) := by
  induction segs with
  | nil => exact hfirst.elim
  | cons notes rest ih =>
    obtain ⟨hclean, hrest⟩ := h
    rcases hfirst with ⟨place, hgnu, rfl⟩ | ⟨hnone, hfirst⟩
    · exact ⟨_, ⟨hclean, .inl ⟨place, hgnu, rfl⟩⟩, rfl⟩
    · have hrest' := hrest.resolve_left (not_exists.mpr hnone)
      exact ⟨none, ⟨hclean, .inr ⟨hnone, rfl⟩⟩, ih hrest' hfirst⟩

private theorem hexDigit_inj {m n : Nat} (hm : m < 16) (hn : n < 16) (h : hexDigit m = hexDigit n) : m = n := by
  have hall : ∀ i : Fin 16, ∀ j : Fin 16, hexDigit i.1 = hexDigit j.1 → i = j := by decide
  exact congrArg Fin.val (hall ⟨m, hm⟩ ⟨n, hn⟩ h)

private theorem hexadecimal_injective : Function.Injective hexadecimal := by
  intro bytes
  induction bytes with
  | nil =>
    intro other h
    exact (hexadecimal_eq_nil_iff.mp h.symm).symm
  | cons b rest ih =>
    intro other h
    cases other with
    | nil => exact absurd (hexadecimal_eq_nil_iff.mp h) (List.cons_ne_nil b rest)
    | cons b' rest' =>
      have hpair := List.cons.inj h
      have hpair' := List.cons.inj hpair.2
      have hb := b.toNat_lt
      have hb' := b'.toNat_lt
      have hhigh := hexDigit_inj (by omega) (by omega) hpair.1
      have hlow := hexDigit_inj (by omega) (by omega) hpair'.1
      have heq : b = b' := UInt8.toNat_inj.mp (by omega)
      rw [heq, ih hpair'.2]

/-- Every segment of notes lies in the file, and is not long. -/
def NotesFit (file : File) : Prop :=
  ∀ header ∈ programHeaders file.1, header.type = 4 →
    header.offset + header.fileSize ≤ file.1.length ∧ header.fileSize ≤ 1024 * 1024

/-- The reader answers inside of its buffers, and as the reader of layouts does where that one has a layout. -/
def Total (file : File) : Prop :=
  ∃ buildId, Yields (fun fuel => getBuildId fuel file) buildId ∧
    ∀ layout, layoutFor (1024 * 1024 + 1) file.1 file.1.length = .passed layout → NotesFit file → buildId = layout.buildId

/-- The first build ids that the two readers come to have one description. -/
def SameDescription (file : File) : Prop :=
  ∀ layout, layoutFor (1024 * 1024 + 1) file.1 file.1.length = .passed layout → NotesFit file → ∀ note,
    ((programHeaders file.1).flatMap fun header => header.notes file.1 file.1.length).find? isBuildIdNote = some note →
      FirstDescription (noteSegments file) note.description

private theorem describes_of_layoutFor {layout : ElfLayout}
    (h : layoutFor (1024 * 1024 + 1) file.1 file.1.length = .passed layout) : Describes file.1 file.1.length layout := by
  have hsize : file.1.length < two64 := Nat.lt_trans file.2 (by decide)
  rcases answers_layoutFor file.1 hsize (Nat.lt_succ_self (1024 * 1024)) with
    hstop | ⟨found, hfound, collected, hcollected, rfl⟩
  · exact nomatch hstop.symm.trans h
  · cases hfound.symm.trans h
    exact hcollected.describes

private theorem yields_getBuildId_iff {buildId : List UInt8} :
    Yields (fun fuel => getBuildId fuel file) buildId ↔ FindsIn (noteSegments file) buildId := by
  simp only [getBuildId_eq_walk]
  exact yields_walk_iff fun notes hnotes => length_le_of_mem_noteSegments hnotes

/-- The reader is total exactly for the files whose notes, up to the first build id, are walked without coming back
to a place and without a build id that runs out of its segment, and whose first build ids are the same. -/
theorem getBuildId_total_iff (file : File) : Total file ↔ CleanUpTo (noteSegments file) ∧ SameDescription file := by
  constructor
  · rintro ⟨buildId, hyields, hagrees⟩
    have hfinds := yields_getBuildId_iff.mp hyields
    refine ⟨cleanUpTo_of_findsIn hfinds, fun layout hlayout hfit note hnote => ?_⟩
    obtain ⟨note', hnote', hdescription⟩ := (describes_of_layoutFor hlayout).buildId
    cases hnote.symm.trans hnote'
    have heq : buildId = hexadecimal note.description := (hagrees layout hlayout hfit).trans hdescription
    have hne : buildId ≠ [] := heq ▸ hexadecimal_ne_nil (List.find?_some hnote)
    obtain ⟨description, hfirst, heq'⟩ := firstDescription_of_findsIn hfinds hne
    rwa [hexadecimal_injective (heq.symm.trans heq')]
  · rintro ⟨hclean, hsame⟩
    obtain ⟨buildId, hfinds⟩ := exists_findsIn hclean
    have hyields := yields_getBuildId_iff.mpr hfinds
    refine ⟨buildId, hyields, fun layout hlayout hfit => ?_⟩
    obtain ⟨note, hnote, hdescription⟩ := (describes_of_layoutFor hlayout).buildId
    have hfirst := findsIn_of_firstDescription hclean (hsame layout hlayout hfit note hnote)
    rw [hdescription]
    exact hyields.unique (yields_getBuildId_iff.mpr hfirst)

/-- One segment with one note, whose sizes add up to 2^32. -/
def turningBack : File :=
  ⟨kElf ++ [1, 1, 1] ++ List.replicate 9 0 ++ [3, 0, 3, 0, 1, 0, 0, 0] ++ List.replicate 4 0 ++ [52, 0, 0, 0] ++
    List.replicate 8 0 ++ [52, 0, 32, 0, 1, 0, 0, 0] ++ List.replicate 4 0 ++
    [4, 0, 0, 0, 84, 0, 0, 0] ++ List.replicate 8 0 ++ [12, 0, 0, 0] ++ List.replicate 12 0 ++
    [4, 0, 0, 0, 0xF0, 0xFF, 0xFF, 0xFF, 1, 0, 0, 0], by simp [kElf, positions]⟩

/-- The cursor stays at the note for ever. -/
theorem sizes_turn_cursor_back : ¬Total turningBack := by
  rintro ⟨buildId, ⟨enough, henough⟩, -⟩
  have hsegments : noteSegments turningBack = [[4, 0, 0, 0, 0xF0, 0xFF, 0xFF, 0xFF, 1, 0, 0, 0]] := by rfl
  have hloop : loop (buildIdTurn [4, 0, 0, 0, 0xF0, 0xFF, 0xFF, 0xFF, 1, 0, 0, 0]) enough 0 = .refused .running := by
    rw [loop, run_of_fixed (by rfl)]
    rfl
  have hanswer := henough enough (Nat.le_refl _)
  dsimp only at hanswer
  rw [getBuildId_eq_walk, hsegments, walk, hloop] at hanswer
  cases hanswer

end SlsteamMoon.ElfIdentity
