import SlsteamMoon.AppInfo.RoundTrip
import SlsteamMoon.AppInfo.Update

/-! Reading a file that may be malformed. An exception of the reader leaves the recovery too. -/
namespace SlsteamMoon.AppInfo

open KeyValues Runs

/-- vector<uint8_t>::max_size in a 32-bit process. -/
def maxBuffer : Nat := 0x7fffffff

/-- The size a buffer is given: tellg narrowed to size_t. -/
def bufferSize (data : Bytes) : Nat := data.length % 0x100000000

/-- readV41 with the allocation of its buffer; none is a path that cannot be opened. -/
def readV41File (contents : Option Bytes) : Except Failure AppInfoFile :=
  match contents with
  | none => .error (.returned "cannot open")
  | some data =>
    if bufferSize data > maxBuffer then .error (.thrown "cannot create std::vector larger than max_size()")
    else readV41 (some (data.take (bufferSize data)))

/-- The outcomes of the renames a recovery asks for. -/
structure Renames where
  moveCorrupt : Bool
  restorePrevious : Bool
  undoCorrupt : Bool
  quarantine : Bool

def quarantineCurrent (renamed : Bool) (disk : Disk) : Disk :=
  if renamed = true ∧ disk.path.isSome = true then
    { disk with path := none, aside := disk.moveAside disk.path }
  else disk

/-- Both renames of the restoration; on a failure of the second the corrupt file goes back. -/
def restorePrevious (renames : Renames) (disk : Disk) : Bool × Disk :=
  if renames.moveCorrupt = true ∧ disk.path.isSome = true then
    if renames.restorePrevious = true then
      (true, { disk with path := disk.rollback, rollback := none, aside := disk.moveAside disk.path })
    else if renames.undoCorrupt = true then (false, disk)
    else (false, { disk with path := none, aside := disk.moveAside disk.path })
  else (false, disk)

/-- The answer with the disk as the call leaves it. -/
def readWithRecovery (renames : Renames) (disk : Disk) : Except Failure AppInfoFile × Disk :=
  match readV41File (contentOf disk.path) with
  | .ok out => (.ok out, disk)
  | .error (.thrown what) => (.error (.thrown what), disk)
  | .error (.returned originalError) =>
    if hasV41Magic (contentOf disk.path) = false then (.error (.returned originalError), disk)
    else
      match readV41File (contentOf disk.rollback) with
      | .error (.thrown what) => (.error (.thrown what), disk)
      | .error (.returned _) => (.error (.returned originalError), quarantineCurrent renames.quarantine disk)
      | .ok previous =>
        match restorePrevious renames disk with
        | (true, restored) => (.ok previous, restored)
        | (false, left) => (.error (.returned originalError), quarantineCurrent renames.quarantine left)

/-- The header leads to a string table whose count no vector of strings can reserve. -/
def DeclaresTooMany (buf : Bytes) : Prop :=
  16 ≤ buf.length ∧ le32 buf = magicV41 ∧ 16 ≤ le32 (buf.drop 8) ∧ le32 (buf.drop 8) + 4 ≤ buf.length ∧
    maxStrings < le32 (buf.drop (le32 (buf.drop 8)))

/-- The reader asks a container for more than it can hold. -/
def Oversized : Option Bytes → Prop
  | none => False
  | some data => maxBuffer < bufferSize data ∨ DeclaresTooMany (data.take (bufferSize data))

instance (buf : Bytes) : Decidable (DeclaresTooMany buf) :=
  inferInstanceAs (Decidable (_ ∧ _ ∧ _ ∧ _ ∧ _))

instance : (contents : Option Bytes) → Decidable (Oversized contents)
  | none => inferInstanceAs (Decidable False)
  | some _ => inferInstanceAs (Decidable (_ ∨ _))

/-- The call is left by an exception. -/
def Throws {α : Type} : Except Failure α → Prop
  | .error (.thrown _) => True
  | _ => False

private theorem throws_bind {α β : Type} (x : Except Failure α) (g : α → Except Failure β) :
    Throws (x >>= g) ↔ Throws x ∨ ∃ a, x = .ok a ∧ Throws (g a) := by
  cases x with
  | ok a =>
    constructor
    · exact fun h => .inr ⟨a, rfl, h⟩
    · rintro (h | ⟨b, hb, h⟩)
      · exact h.elim
      · obtain rfl := Except.ok.inj hb
        exact h
  | error failure =>
    cases failure with
    | thrown what => exact ⟨fun _ => .inl trivial, fun _ => trivial⟩
    | returned err =>
      constructor
      · exact False.elim
      · rintro (h | ⟨b, hb, -⟩)
        · exact h
        · cases hb

/-- Strings that were reserved for are pushed without an exception. -/
theorem readStrings_not_throws (count : Nat) {p : Bytes} {f : StringTable}
    (hroom : f.strings.length + count ≤ maxStrings) : ¬Throws (readStrings count p f) := by
  induction count generalizing p f with
  | zero => exact id
  | succ count ih =>
    simp only [readStrings]
    split
    · exact id
    · next s rest hs =>
      obtain ⟨f', hf'⟩ : ∃ f', pushString f s = .ok f' := ⟨_, dif_pos (by omega)⟩
      have hlen : f'.strings.length = f.strings.length + 1 := by
        rw [(pushString_spec hf').1, List.length_append]
        rfl
      rw [hf']
      exact ih (by omega)

private theorem readTable_throws_iff (data : Bytes) :
    Throws (readTable data) ↔ 4 ≤ data.length ∧ maxStrings < le32 data := by
  simp only [readTable]
  split_ifs with hshort hmany
  · exact ⟨False.elim, fun h => by omega⟩
  · exact ⟨fun _ => ⟨by omega, hmany⟩, fun _ => trivial⟩
  · have hroom : emptyTable.strings.length + le32 data ≤ maxStrings := by
      rw [show emptyTable.strings.length = 0 from rfl]
      omega
    exact ⟨fun h => absurd h (readStrings_not_throws _ hroom), fun h => by omega⟩

private theorem readApps_not_throws (fuel : Nat) (region : Bytes) : ¬Throws (readApps fuel region) := by
  induction fuel generalizing region with
  | zero => exact id
  | succ fuel ih =>
    simp only [readApps]
    split_ifs with hempty hshort hid hhead hsize hbody
    · exact id
    · exact id
    · exact id
    · exact id
    · exact id
    · intro h
      obtain h | ⟨rest, -, h⟩ := (throws_bind _ _).mp h
      · exact ih _ h
      · exact h
    · exact id

/-- The reader of a buffer throws only for the count of its string table. -/
theorem readV41_throws_iff (buf : Bytes) : Throws (readV41 (some buf)) ↔ DeclaresTooMany buf := by
  simp only [readV41, DeclaresTooMany]
  split_ifs with hsmall hmagic hoffset
  · exact ⟨False.elim, fun h => by omega⟩
  · exact ⟨False.elim, fun h => hmagic h.2.1⟩
  · exact ⟨False.elim, fun h => by omega⟩
  · have htable := readTable_throws_iff (buf.drop (le32 (buf.drop 8)))
    rw [List.length_drop] at htable
    constructor
    · intro h
      obtain h | ⟨table, -, h⟩ := (throws_bind _ _).mp h
      · obtain ⟨hroom, hmany⟩ := htable.mp h
        exact ⟨by omega, not_not.mp hmagic, by omega, by omega, hmany⟩
      · obtain h | ⟨apps, -, h⟩ := (throws_bind _ _).mp h
        · exact absurd h (readApps_not_throws _ _)
        · exact h.elim
    · rintro ⟨-, -, -, hroom, hmany⟩
      exact (throws_bind _ _).mpr (.inl (htable.mpr ⟨by omega, hmany⟩))

private theorem readV41File_throws_iff (contents : Option Bytes) :
    Throws (readV41File contents) ↔ Oversized contents := by
  cases contents with
  | none => exact Iff.rfl
  | some data =>
    simp only [readV41File, Oversized]
    split_ifs with hlarge
    · exact ⟨fun _ => .inl hlarge, fun _ => trivial⟩
    · rw [readV41_throws_iff]
      exact ⟨.inr, fun h => h.resolve_left hlarge⟩

/-- No file comes out of the reader. -/
def Malformed (contents : Option Bytes) : Prop := ∀ file, readV41File contents ≠ .ok file

/-- How a recovery ends that returns: the parsed file, the previous snapshot in its place, or false with
the file moved aside or left where it was. -/
inductive Recovered (disk : Disk) : Except Failure AppInfoFile × Disk → Prop
  | parsed (file : AppInfoFile) (accepted : readV41File (contentOf disk.path) = .ok file) :
      Recovered disk (.ok file, disk)
  | restored (previous : AppInfoFile) (malformed : Malformed (contentOf disk.path))
      (accepted : readV41File (contentOf disk.rollback) = .ok previous) :
      Recovered disk (.ok previous,
        { disk with path := disk.rollback, rollback := none, aside := disk.moveAside disk.path })
  | movedAside (err : String) (malformed : Malformed (contentOf disk.path)) :
      Recovered disk (.error (.returned err), { disk with path := none, aside := disk.moveAside disk.path })
  | leftInPlace (err : String) (malformed : Malformed (contentOf disk.path)) :
      Recovered disk (.error (.returned err), disk)

private theorem Recovered.not_throws {disk : Disk} {answer : Except Failure AppInfoFile × Disk}
    (h : Recovered disk answer) : ¬Throws answer.1 := by
  cases h <;> exact id

private theorem quarantineCurrent_recovered {disk : Disk} (malformed : Malformed (contentOf disk.path)) (renamed : Bool)
    (err : String) : Recovered disk (.error (.returned err), quarantineCurrent renamed disk) := by
  rw [quarantineCurrent]
  split_ifs
  · exact .movedAside err malformed
  · exact .leftInPlace err malformed

private theorem restorePrevious_recovered {disk : Disk} {previous : AppInfoFile}
    (malformed : Malformed (contentOf disk.path))
    (accepted : readV41File (contentOf disk.rollback) = .ok previous) (renames : Renames) (err : String) :
    Recovered disk (match restorePrevious renames disk with
      | (true, restored) => (.ok previous, restored)
      | (false, left) => (.error (.returned err), quarantineCurrent renames.quarantine left)) := by
  rw [restorePrevious]
  split_ifs
  · exact .restored previous malformed accepted
  · exact quarantineCurrent_recovered malformed renames.quarantine err
  · -- the path is absent by now, so that there is nothing to quarantine
    have habsent : ¬(renames.quarantine = true ∧ (none : Option Inode).isSome = true) := fun h => nomatch h.2
    simp only [quarantineCurrent]
    rw [if_neg habsent]
    exact .movedAside err malformed
  · exact quarantineCurrent_recovered malformed renames.quarantine err

/-- The recovery comes to an end, with one of its answers, just when the reader does on each file it is
given: the snapshot is only read for a file that was refused. -/
theorem readWithRecovery_recovered_iff (renames : Renames) {disk : Disk}
    (hmagic : hasV41Magic (contentOf disk.path) = true) :
    Recovered disk (readWithRecovery renames disk) ↔ ¬Throws (readV41File (contentOf disk.path)) ∧
      (Malformed (contentOf disk.path) → ¬Throws (readV41File (contentOf disk.rollback))) := by
  rw [readWithRecovery]
  cases hpath : readV41File (contentOf disk.path) with
  | ok out =>
    exact ⟨fun _ => ⟨id, fun malformed => absurd hpath (malformed out)⟩, fun _ => .parsed out hpath⟩
  | error failure =>
    cases failure with
    | thrown what => exact ⟨fun h => absurd trivial h.not_throws, fun h => absurd trivial h.1⟩
    | returned originalError =>
      have malformed : Malformed (contentOf disk.path) := by
        intro file hfile
        rw [hpath] at hfile
        cases hfile
      dsimp only
      rw [if_neg (by rw [hmagic]; exact Bool.noConfusion)]
      cases hrollback : readV41File (contentOf disk.rollback) with
      | ok previous =>
        exact ⟨fun _ => ⟨id, fun _ => id⟩,
          fun _ => restorePrevious_recovered malformed hrollback renames originalError⟩
      | error failure =>
        cases failure with
        | thrown what => exact ⟨fun h => absurd trivial h.not_throws, fun h => absurd trivial (h.2 malformed)⟩
        | returned previousError =>
          exact ⟨fun _ => ⟨id, fun _ => id⟩,
            fun _ => quarantineCurrent_recovered malformed renames.quarantine originalError⟩

/-- The reader answers for every content but the oversized, and so does the recovery on a file with the
magic, whose snapshot counts once the file itself is refused. -/
theorem recovery_covers_iff (renames : Renames) {disk : Disk}
    (hmagic : hasV41Magic (contentOf disk.path) = true) :
    (∀ contents, ¬Throws (readV41File contents) ↔ ¬Oversized contents) ∧
      (Recovered disk (readWithRecovery renames disk) ↔ ¬Oversized (contentOf disk.path) ∧
        (Malformed (contentOf disk.path) → ¬Oversized (contentOf disk.rollback))) := by
  constructor
  · exact fun contents => not_congr (readV41File_throws_iff contents)
  · rw [readWithRecovery_recovered_iff renames hmagic, readV41File_throws_iff, readV41File_throws_iff]

/-- A v41 header and an entry region cut off behind it. -/
def truncatedFile : Bytes := writeLE32 magicV41 ++ writeLE32 1 ++ writeLE64 64

/-- A cut file is recovered. -/
theorem recovery_covers_truncated :
    Recovered ⟨some ⟨stampOf 1, truncatedFile⟩, some oldFile, none, none, []⟩
      (readWithRecovery ⟨true, true, true, true⟩
        ⟨some ⟨stampOf 1, truncatedFile⟩, some oldFile, none, none, []⟩) :=
  (recovery_covers_iff _ rfl).2.mpr ⟨by decide, fun _ => by decide⟩

/-- An empty entry region in front of a table that announces 2^32 - 1 strings. -/
def overcountedFile : Bytes := writeLE32 magicV41 ++ writeLE32 1 ++ writeLE64 16 ++ writeLE32 0xffffffff

def overcountedDisk : Disk := ⟨some ⟨stampOf 1, overcountedFile⟩, some oldFile, none, none, []⟩

/-- The snapshot next to the file is sound, and yet the exception leaves the recovery. -/
theorem overcounted_table_throws :
    hasV41Magic (contentOf overcountedDisk.path) = true ∧
      (∃ file, readV41File (contentOf overcountedDisk.rollback) = .ok file) ∧
      readV41File (contentOf overcountedDisk.path) = .error (.thrown "vector::reserve") ∧
      ∀ renames, ¬Recovered overcountedDisk (readWithRecovery renames overcountedDisk) := by
  have hthrown : readV41File (contentOf overcountedDisk.path) = .error (.thrown "vector::reserve") := rfl
  refine ⟨rfl, ⟨_, rfl⟩, hthrown, fun renames h => h.not_throws ?_⟩
  rw [readWithRecovery, hthrown]
  trivial

/-- The reader's buffer holds the whole file. -/
def FitsBuffer (contents : Option Bytes) : Prop := ∀ data, contents = some data → data.length ≤ maxBuffer

private theorem readV41File_fits {contents : Option Bytes} (h : FitsBuffer contents) :
    readV41File contents = readV41 contents := by
  cases contents with
  | none => rfl
  | some data =>
    have hfits := h data rfl
    have hsize : bufferSize data = data.length := Nat.mod_eq_of_lt (by rw [maxBuffer] at hfits; omega)
    simp only [readV41File]
    rw [hsize, if_neg (by omega), List.take_length]

/-- How a transaction stands when the recovery is over. -/
def StandsAfter (t : State) : Except Failure AppInfoFile × Disk → Prop
  | (.ok file, disk) => t.phase = .identify file ∧ t.disk = disk
  | (.error (.returned _), disk) => t.phase = .finished 0 false ∧ t.disk = disk
  | (.error (.thrown what), disk) => t.phase = .threw what ∧ t.disk = disk

/-- The transaction gets to where the recovery ends with accesses of its own. -/
def Performs (splice : Splice) (s : State) (answer : Except Failure AppInfoFile × Disk) : Prop :=
  ∃ ios : List Bool, ∃ t, exec (step splice) s (ios.map fun io => .transact io (stampOf 0)) = some t ∧
    StandsAfter t answer

private theorem performs_step {splice : Splice} {s u : State} {answer : Except Failure AppInfoFile × Disk} (io : Bool)
    (hstep : transact splice io (stampOf 0) s = some u) (h : Performs splice u answer) :
    Performs splice s answer := by
  obtain ⟨ios, t, hrun, hstands⟩ := h
  refine ⟨io :: ios, t, ?_, hstands⟩
  rw [List.map_cons, exec_cons, step, hstep]
  exact hrun

private theorem performs_done {splice : Splice} {t : State} {answer : Except Failure AppInfoFile × Disk}
    (h : StandsAfter t answer) : Performs splice t answer := ⟨[], t, rfl, h⟩

private theorem quarantine_performs (splice : Splice) {s : State} (hphase : s.phase = .quarantine) (renamed : Bool)
    (err : String) : Performs splice s (.error (.returned err), quarantineCurrent renamed s.disk) := by
  obtain ⟨disk, phase, parsed, lost, replaced⟩ := s
  obtain rfl := hphase
  refine performs_step renamed rfl (performs_done ?_)
  cases renamed with
  | false => exact ⟨rfl, rfl⟩
  | true =>
    obtain ⟨path, rollback, validation, temp, aside⟩ := disk
    cases path with
    | none => exact ⟨rfl, rfl⟩
    | some file => exact ⟨rfl, rfl⟩

private theorem restorePrevious_performs (splice : Splice) {s : State} {previous : AppInfoFile}
    (hphase : s.phase = .moveCorrupt previous) (renames : Renames) (err : String) :
    Performs splice s (match restorePrevious renames s.disk with
      | (true, restored) => (.ok previous, restored)
      | (false, left) => (.error (.returned err), quarantineCurrent renames.quarantine left)) := by
  obtain ⟨⟨path, rollback, validation, temp, aside⟩, phase, parsed, lost, replaced⟩ := s
  obtain rfl := hphase
  obtain ⟨moveCorrupt, restorePrevious, undoCorrupt, quarantine⟩ := renames
  cases moveCorrupt with
  | false => exact performs_step false rfl (quarantine_performs splice rfl quarantine err)
  | true =>
    cases path with
    | none => exact performs_step true rfl (quarantine_performs splice rfl quarantine err)
    | some file =>
      refine performs_step true rfl ?_
      cases restorePrevious with
      | true => exact performs_step true rfl (performs_done ⟨rfl, rfl⟩)
      | false =>
        refine performs_step false rfl ?_
        cases undoCorrupt with
        | true => exact performs_step true rfl (quarantine_performs splice rfl quarantine err)
        | false => exact performs_step false rfl (quarantine_performs splice rfl quarantine err)

private theorem readPrevious_performs (splice : Splice) {s : State} (hphase : s.phase = .readPrevious)
    (renames : Renames) (err : String) : Performs splice s (match readV41 (contentOf s.disk.rollback) with
      | .error (.thrown what) => (.error (.thrown what), s.disk)
      | .error (.returned _) => (.error (.returned err), quarantineCurrent renames.quarantine s.disk)
      | .ok previous =>
        match restorePrevious renames s.disk with
        | (true, restored) => (.ok previous, restored)
        | (false, left) => (.error (.returned err), quarantineCurrent renames.quarantine left)) := by
  cases hprevious : readV41 (contentOf s.disk.rollback) with
  | ok previous =>
    have hnext : transact splice true (stampOf 0) s =
        some { s with phase := .moveCorrupt previous, parsed := contentOf s.disk.rollback } := by
      simp only [transact, hphase, hprevious]
    exact performs_step true hnext (restorePrevious_performs splice rfl renames err)
  | error failure =>
    cases failure with
    | thrown what =>
      have hnext : transact splice true (stampOf 0) s = some (s.goto (.threw what)) := by
        simp only [transact, hphase, hprevious]
      exact performs_step true hnext (performs_done ⟨rfl, rfl⟩)
    | returned previousError =>
      have hnext : transact splice true (stampOf 0) s = some (s.goto .quarantine) := by
        simp only [transact, hphase, hprevious]
      exact performs_step true hnext (quarantine_performs splice rfl renames.quarantine err)

/-- The recovery is what the accesses of a transaction come to between its first read and the capture of
the identity, when no other writer comes between. -/
theorem readWithRecovery_performs (splice : Splice) {s : State} (hphase : s.phase = .reading)
    (hpath : FitsBuffer (contentOf s.disk.path)) (hrollback : FitsBuffer (contentOf s.disk.rollback))
    (renames : Renames) : Performs splice s (readWithRecovery renames s.disk) := by
  rw [readWithRecovery, readV41File_fits hpath, readV41File_fits hrollback]
  cases hread : readV41 (contentOf s.disk.path) with
  | ok file =>
    have hnext : transact splice true (stampOf 0) s =
        some { s with phase := .identify file, parsed := contentOf s.disk.path } := by
      simp only [transact, hphase, hread]
    exact performs_step true hnext (performs_done ⟨rfl, rfl⟩)
  | error failure =>
    cases failure with
    | thrown what =>
      have hnext : transact splice true (stampOf 0) s = some (s.goto (.threw what)) := by
        simp only [transact, hphase, hread]
      exact performs_step true hnext (performs_done ⟨rfl, rfl⟩)
    | returned originalError =>
      have hnext : transact splice true (stampOf 0) s = some (s.goto .magic) := by
        simp only [transact, hphase, hread]
      apply performs_step true hnext
      dsimp only
      split_ifs with hmagic
      · have hnext : transact splice true (stampOf 0) (s.goto .magic) = some (s.goto .magic).abort := by
          simp only [State.goto, transact, hmagic, Bool.false_eq_true, if_false]
        exact performs_step true hnext (performs_done ⟨rfl, rfl⟩)
      · have hnext : transact splice true (stampOf 0) (s.goto .magic) = some (s.goto .readPrevious) := by
          simp only [State.goto, transact, eq_true_of_ne_false hmagic, if_true]
        apply performs_step true hnext
        exact readPrevious_performs splice rfl renames originalError

end SlsteamMoon.AppInfo
