import SlsteamMoon.AppInfo.Update
import SlsteamMoon.AppInfo.RoundTrip

/-! What merges intern, and when the string table survives the file. -/
namespace SlsteamMoon.AppInfo

open KeyValues Runs

/-- The keys behind which the lexer finds a value or an object, in the order
the translator meets them; no rest is a text it refuses. -/
def scanPair (object : Bytes → List Bytes × Option Bytes) (key input : Bytes) : List Bytes × Option Bytes :=
  match next input with
  | (.string _, rest) => ([key], some rest)
  | (.openBrace, inside) => (key :: (object inside).1, (object inside).2)
  | _ => ([], none)

def scanObject : Nat → Bytes → List Bytes × Option Bytes
  | 0, _ => ([], none)
  | fuel + 1, input =>
    match next input with
    | (.closeBrace, rest) => ([], some rest)
    | (.string key, rest) =>
      match scanPair (scanObject fuel) key rest with
      | (keys, none) => (keys, none)
      | (keys, some rest) => (keys ++ (scanObject fuel rest).1, (scanObject fuel rest).2)
    | _ => ([], none)

/-- The keys of a wire buffer, up to where its text is refused. -/
def wireKeys (wire : Bytes) : List Bytes :=
  if wire.isEmpty = true then []
  else
    match next (wireText wire) with
    | (.string topKey, rest) => (scanPair (scanObject rest.length) topKey rest).1
    | _ => []

/-- A table that gained the strings of a list of keys, and is the same table when it knew them all. -/
structure Interned (f : StringTable) (keys : List Bytes) (g : StringTable) : Prop where
  mem : ∀ s, s ∈ g.strings ↔ s ∈ f.strings ∨ s ∈ keys
  first : FirstIndexed f → FirstIndexed g
  known : ∀ s, (g.stringIndex s).isSome = true ↔ (f.stringIndex s).isSome = true ∨ s ∈ keys
  same : (∀ s ∈ keys, (f.stringIndex s).isSome = true) → g = f

theorem Interned.refl (f : StringTable) : Interned f [] f where
  mem := by simp
  first := id
  known := by simp
  same _ := rfl

theorem Interned.trans {f g h : StringTable} {keys more : List Bytes} (hfg : Interned f keys g)
    (hgh : Interned g more h) : Interned f (keys ++ more) h where
  mem s := by rw [hgh.mem, hfg.mem, List.mem_append, or_assoc]
  first hf := hgh.first (hfg.first hf)
  known s := by rw [hgh.known, hfg.known, List.mem_append, or_assoc]
  same hknown := by
    have hg : g = f := hfg.same fun s hs => hknown s (List.mem_append_left more hs)
    rw [← hg]
    apply hgh.same
    intro s hs
    rw [hg]
    exact hknown s (List.mem_append_right keys hs)

private theorem internStringIndex_interned {f g : StringTable} {s : Bytes} {i : Nat}
    (h : f.internStringIndex s = .ok (i, g)) : Interned f [s] g := by
  simp only [StringTable.internStringIndex] at h
  split at h
  · next j hj =>
    obtain ⟨-, rfl⟩ := Prod.mk.inj (Except.ok.inj h)
    have hs : s ∈ f.strings := List.mem_of_getElem? (f.resolves s j hj)
    refine ⟨fun t => ⟨Or.inl, ?_⟩, id, fun t => ⟨Or.inl, ?_⟩, fun _ => rfl⟩
    · rintro (ht | ht)
      · exact ht
      · rwa [List.mem_singleton.mp ht]
    · rintro (ht | ht)
      · exact ht
      · rw [List.mem_singleton.mp ht, hj]
        rfl
  · next hnew =>
    split at h
    · obtain ⟨-, rfl⟩ := Prod.mk.inj (Except.ok.inj h)
      refine ⟨fun t => List.mem_append, fun hf t => ?_, fun t => ?_, fun hknown => ?_⟩
      · show Function.update f.stringIndex s (some f.strings.length) t = _
        rw [findIdx_appended, ← hf t]
        by_cases hst : s = t
        · subst hst
          rw [Function.update_self, hnew, if_pos rfl, Option.none_or]
        · rw [Function.update_of_ne (Ne.symm hst), if_neg hst, Option.or_none]
      · show (Function.update f.stringIndex s (some f.strings.length) t).isSome = true ↔ _
        rw [List.mem_singleton]
        by_cases hst : t = s
        · rw [hst, Function.update_self]
          simp
        · rw [Function.update_of_ne hst]
          simp [hst]
      · have := hknown s (List.mem_singleton_self s)
        rw [hnew] at this
        cases this
    · cases h

/-- How a call of an emitter compares with the scan of its text. -/
inductive Emits (f : StringTable) (scanned : List Bytes × Option Bytes) : Emit Emitted → Prop
  | emitted (e : Emitted) (rest : scanned.2 = some e.rest) (interned : Interned f scanned.1 e.table) :
      Emits f scanned (.ok e)
  | refused (err : String) (table : StringTable) (rest : scanned.2 = none) (interned : Interned f scanned.1 table) :
      Emits f scanned (.error ⟨.returned err, table⟩)
  | threw (what : String) (table : StringTable) : Emits f scanned (.error ⟨.thrown what, table⟩)

private theorem internStringIndex_cases (f : StringTable) (s : Bytes) :
    (∃ i g, f.internStringIndex s = .ok (i, g) ∧ Interned f [s] g) ∨
      ∃ what, f.internStringIndex s = .error ⟨.thrown what, f⟩ := by
  cases h : f.internStringIndex s with
  | ok found => exact Or.inl ⟨found.1, found.2, rfl, internStringIndex_interned h⟩
  | error failed =>
    refine Or.inr ⟨"vector::_M_realloc_append", ?_⟩
    simp only [StringTable.internStringIndex] at h
    split at h
    · cases h
    · split at h
      · cases h
      · rw [← Except.error.inj h]

private theorem emitPair_emits {object : Bytes → StringTable → Emit Emitted} {scan : Bytes → List Bytes × Option Bytes}
    (hobject : ∀ input f, Emits f (scan input) (object input f)) (key input : Bytes) (f : StringTable) :
    Emits f (scanPair scan key input) (emitPair object key input f) := by
  simp only [emitPair, scanPair]
  obtain ⟨tok, rest⟩ := next input
  cases tok with
  | string value =>
    obtain ⟨i, g, hi, hinterned⟩ | ⟨what, hi⟩ := internStringIndex_cases f key
    · simp only [emitString, hi]
      exact .emitted _ rfl hinterned
    · simp only [emitString, hi]
      exact .threw what f
  | openBrace =>
    obtain ⟨i, g, hi, hinterned⟩ | ⟨what, hi⟩ := internStringIndex_cases f key
    · have hbody := hobject rest g
      simp only [hi]
      show Emits f _ (object rest g >>= _)
      generalize object rest g = body at hbody
      cases hbody with
      | emitted e hrest hmore => exact .emitted _ hrest (hinterned.trans hmore)
      | refused err table hrest hmore => exact .refused err table hrest (hinterned.trans hmore)
      | threw what table => exact .threw what table
    · simp only [hi]
      exact .threw what f
  | closeBrace => exact .refused _ f rfl (.refl f)
  | finished => exact .refused _ f rfl (.refl f)

private theorem emitObject_emits (fuel : Nat) :
    ∀ input f, Emits f (scanObject fuel input) (emitObject fuel input f) := by
  induction fuel with
  | zero => exact fun input f => .refused _ f rfl (.refl f)
  | succ fuel ih =>
    intro input f
    simp only [emitObject, scanObject]
    obtain ⟨tok, rest⟩ := next input
    cases tok with
    | closeBrace => exact .emitted _ rfl (.refl f)
    | finished => exact .refused _ f rfl (.refl f)
    | openBrace => exact .refused _ f rfl (.refl f)
    | string key =>
      have hpair := emitPair_emits ih key rest f
      dsimp only
      generalize emitPair (emitObject fuel) key rest f = pair at hpair
      generalize scanPair (scanObject fuel) key rest = scanned at hpair
      obtain ⟨keys, after⟩ := scanned
      cases hpair with
      | emitted e hrest hinterned =>
        obtain rfl : after = some e.rest := hrest
        have hmore := ih e.rest e.table
        show Emits f (keys ++ _, _) (emitObject fuel e.rest e.table >>= _)
        generalize emitObject fuel e.rest e.table = more at hmore
        cases hmore with
        | emitted e' hrest' hinterned' => exact .emitted _ hrest' (hinterned.trans hinterned')
        | refused err table hrest' hinterned' => exact .refused err table hrest' (hinterned.trans hinterned')
        | threw what table => exact .threw what table
      | refused err table hrest hinterned =>
        obtain rfl : after = none := hrest
        exact .refused err table rfl hinterned
      | threw what table => exact .threw what table

/-- A translation that no exception leaves interned the keys of its buffer,
also when it refuses the text. -/
theorem translateWireToIndexed_interned (wire : Bytes) (f : StringTable) :
    match translateWireToIndexed wire f with
    | .ok translated => Interned f (wireKeys wire) translated.2
    | .error failed => (∃ what, failed.failure = .thrown what) ∨ Interned f (wireKeys wire) failed.table := by
  simp only [translateWireToIndexed, wireKeys]
  split_ifs with hempty
  · exact Or.inr (.refl f)
  · obtain ⟨tok, rest⟩ := next (wireText wire)
    cases tok with
    | string topKey =>
      dsimp only
      have hpair := emitPair_emits (emitObject_emits rest.length) topKey rest f
      generalize emitPair (emitObject rest.length) topKey rest f = pair at hpair
      cases hpair with
      | emitted e _ hinterned => exact hinterned
      | refused err table _ hinterned => exact Or.inr hinterned
      | threw what table => exact Or.inl ⟨what, rfl⟩
    | openBrace => exact Or.inr (.refl f)
    | closeBrace => exact Or.inr (.refl f)
    | finished => exact Or.inr (.refl f)

/-- The checks in front of the translation: the SHA has its length, the buffer
is not empty and the file has no entry of this version yet. -/
def Translates (f : AppInfoFile) (record : CachedBuffer) : Prop :=
  record.sha.length = 20 ∧ record.buffer.isEmpty = false ∧
    (f.apps.any fun e =>
      e.appid == record.appid && e.changeNumber == record.changeNumber && e.sha.val == record.sha) = false

instance (f : AppInfoFile) (record : CachedBuffer) : Decidable (Translates f record) :=
  inferInstanceAs (Decidable (_ ∧ _ ∧ _))

/-- One merge of a sequence; an exception that leaves it ends the sequence. -/
def mergeStep (sha1 : Bytes → Digest) (f : AppInfoFile) (record : CachedBuffer) : Option AppInfoFile :=
  match mergeAppImpl sha1 f record with
  | (.error (.thrown _), _) => none
  | (_, f') => some f'

/-- The keys a merge interns. -/
def mergedKeys (f : AppInfoFile) (record : CachedBuffer) : List Bytes :=
  if Translates f record then wireKeys record.buffer else []

private theorem mergeStep_eq_some {sha1 : Bytes → Digest} {f g : AppInfoFile} {record : CachedBuffer}
    (h : mergeStep sha1 f record = some g) :
    ∃ answer, mergeAppImpl sha1 f record = (answer, g) ∧ ∀ what, answer ≠ .error (.thrown what) := by
  simp only [mergeStep] at h
  split at h
  · cases h
  · next answer f' hnot heq =>
    obtain rfl := Option.some.inj h
    refine ⟨answer, heq, ?_⟩
    rintro what rfl
    exact hnot what rfl

theorem mergeStep_interned {sha1 : Bytes → Digest} {f g : AppInfoFile} {record : CachedBuffer}
    (h : mergeStep sha1 f record = some g) : Interned f.table (mergedKeys f record) g.table := by
  obtain ⟨answer, hanswer, hnot⟩ := mergeStep_eq_some h
  have htable := translateWireToIndexed_interned record.buffer f.table
  simp only [mergeAppImpl] at hanswer
  by_cases htranslates : Translates f record
  · obtain ⟨hsha, hbuffer, hfresh⟩ := id htranslates
    rw [mergedKeys, if_pos htranslates]
    rw [dif_pos hsha, if_neg (by simp [hbuffer]), if_neg (by simp [hfresh])] at hanswer
    cases htranslated : translateWireToIndexed record.buffer f.table with
    | error failed =>
      simp only [htranslated] at hanswer htable
      obtain ⟨rfl, rfl⟩ := Prod.mk.inj hanswer
      obtain ⟨what, hwhat⟩ | hinterned := htable
      · exact absurd (congrArg Except.error hwhat) (hnot what)
      · exact hinterned
    | ok translated =>
      simp only [htranslated] at hanswer htable
      split at hanswer <;> obtain ⟨-, rfl⟩ := Prod.mk.inj hanswer <;> exact htable
  · rw [mergedKeys, if_neg htranslates]
    have hsame : f = g := by
      split_ifs at hanswer with hsha hbuffer hfresh
      · exact (Prod.mk.inj hanswer).2
      · exact (Prod.mk.inj hanswer).2
      · exact absurd ⟨hsha, by simpa using hbuffer, by simpa using hfresh⟩ htranslates
      · exact (Prod.mk.inj hanswer).2
    rw [hsame]
    exact .refl _

/-- Merges keep the index a first index. -/
theorem merges_firstIndexed {sha1 : Bytes → Digest} {f g : AppInfoFile} {records : List CachedBuffer}
    (hf : FirstIndexed f.table) (hrun : exec (mergeStep sha1) f records = some g) : FirstIndexed g.table :=
  exec_preserves (P := fun f => FirstIndexed f.table) (fun _ _ _ h hstep => (mergeStep_interned hstep).first h) hf hrun

/-- Every key a merge interns from the record is without a terminator. -/
def CleanKeys (f : AppInfoFile) (record : CachedBuffer) : Prop :=
  Translates f record → ∀ key ∈ wireKeys record.buffer, 0 ∉ key

private theorem cleanKeys_iff (f : AppInfoFile) (record : CachedBuffer) :
    CleanKeys f record ↔ ∀ key ∈ mergedKeys f record, 0 ∉ key := by
  by_cases h : Translates f record
  · simp [CleanKeys, mergedKeys, h]
  · simp [CleanKeys, mergedKeys, h]

/-- Once a table holds a terminator it keeps it, so the strings at the end tell
of every merge. -/
theorem merges_clean_iff {sha1 : Bytes → Digest} {f g : AppInfoFile} {records : List CachedBuffer}
    (hrun : exec (mergeStep sha1) f records = some g) :
    (∀ s ∈ g.table.strings, 0 ∉ s) ↔
      (∀ s ∈ f.table.strings, 0 ∉ s) ∧ Meets (mergeStep sha1) CleanKeys f records := by
  induction records generalizing f with
  | nil =>
    obtain rfl := Option.some.inj hrun
    simp
  | cons record records ih =>
    obtain ⟨u, hu, hrest⟩ := Option.bind_eq_some_iff.mp hrun
    have hinterned := mergeStep_interned hu
    have hstrings : (∀ s ∈ u.table.strings, 0 ∉ s) ↔ (∀ s ∈ f.table.strings, 0 ∉ s) ∧ CleanKeys f record := by
      rw [cleanKeys_iff]
      simp only [hinterned.mem, or_imp, forall_and]
    rw [ih hrest, hstrings, and_assoc]
    refine and_congr_right fun _ => ?_
    constructor
    · rintro ⟨hclean, hmeets⟩
      exact .step hu hclean hmeets
    · rintro ⟨hclean, hmeets⟩
      exact ⟨hclean, hmeets u hu⟩

/-- After merges into a file that was read, the table reads back as it is in
memory exactly when no merge interned a key with a terminator inside. -/
theorem string_table_survives_iff {sha1 : Bytes → Digest} {b : Bytes} {f g : AppInfoFile}
    {records : List CachedBuffer} (hread : readV41 (some b) = .ok f)
    (hrun : exec (mergeStep sha1) f records = some g) (hsize : (serializeV41 g).length < 0x100000000) :
    (∃ again, readV41 (some (serializeV41 g)) = .ok again ∧ again.table = g.table) ↔
      Meets (mergeStep sha1) CleanKeys f records := by
  obtain ⟨hfirst, hfree, -, -⟩ := readV41_spec hread
  have hclean := merges_clean_iff hrun
  constructor
  · rintro ⟨again, hagain, htable⟩
    obtain ⟨-, hagainFree, -, -⟩ := readV41_spec hagain
    rw [htable] at hagainFree
    exact (hclean.mp hagainFree).2
  · intro hmeets
    obtain ⟨table, htable, hstrings⟩ := readTable_written g.table (hclean.mpr ⟨hfree, hmeets⟩)
    have hsame : table = g.table :=
      (readTable_spec htable).2.1.unique (merges_firstIndexed hfirst hrun) hstrings
    refine ⟨⟨g.universeId, g.apps.takeWhile fun e => decide (e.appid ≠ 0), table⟩, ?_, hsame⟩
    rw [readV41_serialize g (offset_lt hsize), htable]
    rfl

/-- The table of one merged record reads back. -/
theorem string_table_survives_cached :
    ∃ f g again, readV41 (some (emptyCache 1)) = .ok f ∧
      exec (mergeStep fun _ => zeroDigest) f [cachedRecord] = some g ∧
      readV41 (some (serializeV41 g)) = .ok again ∧ again.table = g.table := by
  obtain ⟨f, g, hread, hrun, hsize, hkeys⟩ : ∃ f g, readV41 (some (emptyCache 1)) = .ok f ∧
      exec (mergeStep fun _ => zeroDigest) f [cachedRecord] = some g ∧
      (serializeV41 g).length < 0x100000000 ∧ wireKeys cachedRecord.buffer = [ascii ['a']] :=
    ⟨_, _, rfl, rfl, by decide +kernel, rfl⟩
  have hmeets : Meets (mergeStep fun _ => zeroDigest) CleanKeys f [cachedRecord] := by
    refine ⟨fun _ key hkey => ?_, fun _ _ => trivial⟩
    rw [hkeys] at hkey
    rw [List.mem_singleton.mp hkey]
    decide
  obtain ⟨again, hagain, htable⟩ := (string_table_survives_iff hread hrun hsize).mpr hmeets
  exact ⟨f, g, again, hread, hrun, hagain, htable⟩

/-- The object `r` with the keys `a`, NUL, `b` and `c`. -/
def nulKeyRecord : CachedBuffer where
  appid := 10
  changeNumber := 1
  sha := List.replicate 20 0
  buffer := ascii ['r', '\x7b', '"', 'a'] ++ [0] ++ ascii ['b', '"', ' ', 'x', ' ', 'c', ' ', 'y', '\x7d']

/-- The third string of the table is `c` in memory and `b` in the file. -/
theorem nul_in_key_shifts_indices :
    ∃ f g again, readV41 (some (emptyCache 1)) = .ok f ∧
      exec (mergeStep fun _ => zeroDigest) f [nulKeyRecord] = some g ∧
      readV41 (some (serializeV41 g)) = .ok again ∧
      g.table.strings[2]? = some (ascii ['c']) ∧ again.table.strings[2]? = some (ascii ['b']) := by
  obtain ⟨f, g, hread, hrun, hsize, hmemory, table, htable, hfile⟩ : ∃ f g, readV41 (some (emptyCache 1)) = .ok f ∧
      exec (mergeStep fun _ => zeroDigest) f [nulKeyRecord] = some g ∧ (serializeV41 g).length < 0x100000000 ∧
      g.table.strings[2]? = some (ascii ['c']) ∧
      ∃ table, readTable (tableBytes g.table) = .ok table ∧ table.strings[2]? = some (ascii ['b']) :=
    ⟨_, _, rfl, rfl, by decide +kernel, rfl, _, rfl, rfl⟩
  have hagain := readV41_serialize g (offset_lt hsize)
  rw [htable] at hagain
  exact ⟨f, g, _, hread, hrun, hagain, hmemory, hfile⟩

end SlsteamMoon.AppInfo
