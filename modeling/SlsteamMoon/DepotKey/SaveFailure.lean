import SlsteamMoon.DepotKey.ManagedIndex
import SlsteamMoon.ManifestId.Index
import SlsteamMoon.ProvisionCache.MetadataText

/-! What a save that fails leaves: the key cache where writing succeeds, and the records when it does not. -/
namespace SlsteamMoon.DepotKey.Store
open LuaImport KeyValues
open ProvisionCache (utf8 toDecimal toDecimal_injective toBase64 toBase64_letters boolWord pairLine EmitsBlock PlainScalar
  emitLines)

/-- The store with a file for each depot that is named after it, as the cache has it. -/
structure Simulates (s : Store) (c : KeyCache) : Prop where
  kept : s.Kept
  named : ∀ name key, s.files.lookup name = some (some key) → name = toDecimal key.depotId.toNat
  files : ∀ d, s.recordOnDisk d = c.file d
  loaded : s.loaded = c.loaded
  entries : s.loaded = true → ∀ d, s.entries.lookup d = c.entry d

private theorem recordOnDisk_put (s : Store) (depotId d : DepotId) (reading : Option SavedKey) :
    (s.put depotId reading).recordOnDisk d = if d = depotId then reading else s.recordOnDisk d := by
  rw [recordOnDisk, put]
  split_ifs with hd
  · subst hd
    dsimp only
    rw [AList.lookup_insert]
    rfl
  · have hname : toDecimal d.toNat ≠ toDecimal depotId.toNat := fun h => hd (UInt32.toNat_inj.mp (toDecimal_injective h))
    dsimp only
    rw [AList.lookup_insert_ne hname]
    rfl

private theorem parseCachedKeyFile_eq_some_iff {reading : Option SavedKey} {key : SavedKey} :
    parseCachedKeyFile reading = some key ↔ reading = some key ∧ key.depotId ≠ 0 := by
  rw [parseCachedKeyFile, Option.filter_eq_some_iff, decide_eq_true_eq]

/-- The entry of a depot is the record of the file that is named after it. -/
theorem lookup_foldl_loadFile {l : List (Sigma fun _ : Bytes => Option SavedKey)} (hnodup : l.NodupKeys)
    (hnamed : ∀ name key, ⟨name, some key⟩ ∈ l → name = toDecimal key.depotId.toNat) (entries : Entries) (d : DepotId) :
    (l.foldl loadFile entries).lookup d =
      (parseCachedKeyFile (l.dlookup (toDecimal d.toNat)).join).or (entries.lookup d) := by
  induction l generalizing entries with
  | nil => rfl
  | cons file l ih =>
    obtain ⟨name, reading⟩ := file
    obtain ⟨hfresh, hnodup⟩ := List.nodupKeys_cons.mp hnodup
    rw [List.foldl_cons, ih hnodup fun n k hmem => hnamed n k (List.mem_cons_of_mem _ hmem)]
    by_cases hname : name = toDecimal d.toNat
    · subst hname
      have hnone : parseCachedKeyFile (none : Option (Option SavedKey)).join = none := rfl
      rw [List.dlookup_eq_none.mpr hfresh, List.dlookup_cons_eq, loadFile, hnone, Option.none_or, Option.join_some]
      dsimp only
      cases hparse : parseCachedKeyFile reading with
      | none => rw [Option.none_or]
      | some key =>
        obtain ⟨rfl, -⟩ := parseCachedKeyFile_eq_some_iff.mp hparse
        have hdepot : key.depotId = d :=
          UInt32.toNat_inj.mp (toDecimal_injective (hnamed _ key List.mem_cons_self)).symm
        dsimp only
        rw [hdepot, AList.lookup_insert]
        rfl
    · rw [List.dlookup_cons_ne _ _ (Ne.symm hname)]
      congr 1
      rw [loadFile]
      cases hparse : parseCachedKeyFile reading with
      | none => rfl
      | some key =>
        obtain ⟨rfl, -⟩ := parseCachedKeyFile_eq_some_iff.mp hparse
        refine AList.lookup_insert_ne fun hdepot => hname ?_
        rw [hnamed name key List.mem_cons_self, hdepot]

/-- A file that reads as a record reads as one of its own depot. -/
theorem Simulates.depotId_recordOnDisk {s : Store} {c : KeyCache} (h : s.Simulates c) {d : DepotId} {key : SavedKey}
    (hkey : s.recordOnDisk d = some key) : key.depotId = d := by
  rw [h.files] at hkey
  exact c.named d key hkey

private theorem loaded_loadKeyIndexLocked (s : Store) : s.loadKeyIndexLocked.loaded = true := by
  rw [loadKeyIndexLocked]
  split_ifs <;> first | assumption | rfl

private theorem files_loadKeyIndexLocked (s : Store) : s.loadKeyIndexLocked.files = s.files := by
  rw [loadKeyIndexLocked]
  split_ifs <;> rfl

private theorem recordOnDisk_loadKeyIndexLocked (s : Store) (d : DepotId) :
    s.loadKeyIndexLocked.recordOnDisk d = s.recordOnDisk d := by
  rw [recordOnDisk, files_loadKeyIndexLocked, recordOnDisk]

private theorem entries_loadKeyIndexLocked (s : Store) :
    s.loadKeyIndexLocked.entries = if s.loaded then s.entries else s.files.entries.foldl loadFile ∅ := by
  rw [loadKeyIndexLocked]
  split_ifs <;> rfl

namespace Simulates

variable {s : Store} {c : KeyCache}

/-- Files that are named after their records are the files of a cache. -/
theorem start {files : AList fun _ : Bytes => Option SavedKey}
    (hnamed : ∀ name key, files.lookup name = some (some key) → name = toDecimal key.depotId.toNat) :
    Simulates { files }
      { file := fun d => recordOnDisk { files } d
        named := fun d key hkey => by
          have hfile := hnamed (toDecimal d.toNat) key (Option.join_eq_some_iff.mp hkey)
          exact UInt32.toNat_inj.mp (toDecimal_injective hfile).symm
        agrees := fun h => by cases h } where
  kept := kept_run files []
  named := hnamed
  files _ := rfl
  loaded := rfl
  entries h := by cases h

/-- The first use loads what the files have. -/
theorem lookup_load (h : s.Simulates c) (d : DepotId) :
    s.loadKeyIndexLocked.entries.lookup d = c.loadKeyIndexLocked.entry d := by
  rw [entries_loadKeyIndexLocked, KeyCache.loadKeyIndexLocked, ← h.loaded]
  split_ifs with hloaded
  · exact h.entries hloaded d
  · have hnamed : ∀ name key, ⟨name, some key⟩ ∈ s.files.entries → name = toDecimal key.depotId.toNat :=
      fun name key hmem => h.named name key (AList.mem_lookup_iff.mpr hmem)
    have hread := lookup_foldl_loadFile s.files.nodupKeys hnamed ∅ d
    rw [AList.lookup_empty, Option.or_none] at hread
    rw [hread]
    change parseCachedKeyFile (s.recordOnDisk d) = if d = 0 then none else c.file d
    rw [← h.files]
    cases hkey : s.recordOnDisk d with
    | none => rw [ite_self]; rfl
    | some key =>
      rw [parseCachedKeyFile, Option.filter_some, h.depotId_recordOnDisk hkey]
      by_cases hd : d = 0 <;> simp [hd]

/-- Loading gives the catalogue what the files have. -/
theorem load (h : s.Simulates c) : s.loadKeyIndexLocked.Simulates c.loadKeyIndexLocked where
  kept := h.kept.load
  named name key hkey := h.named name key (by rwa [files_loadKeyIndexLocked] at hkey)
  files d := by rw [recordOnDisk_loadKeyIndexLocked, KeyCache.file_load, h.files]
  loaded := by rw [loaded_loadKeyIndexLocked, KeyCache.loaded_load]
  entries _ := h.lookup_load

private theorem put_remember (h : s.Simulates c) (hloaded : s.loaded = true) (depotId appId : UInt32) (key : List UInt8)
    (managed : Bool) :
    ((s.put depotId (some ⟨appId, depotId, key, managed⟩)).remember depotId ((s.entries.lookup depotId).getD {})
      ⟨appId, depotId, key, managed⟩).Simulates (c.write depotId appId key managed) where
  kept := Kept.remember (s := s.put depotId _) ⟨h.kept.ready, h.kept.indexes⟩ depotId _
  named name saved hsaved := by
    change (s.files.insert (toDecimal depotId.toNat) _).lookup name = _ at hsaved
    by_cases hname : name = toDecimal depotId.toNat
    · subst hname
      rw [AList.lookup_insert] at hsaved
      obtain rfl := Option.some.inj (Option.some.inj hsaved)
      rfl
    · rw [AList.lookup_insert_ne hname] at hsaved
      exact h.named name saved hsaved
  files d := by
    change (s.put depotId _).recordOnDisk d = Function.update c.file depotId _ d
    rw [recordOnDisk_put, Function.update_apply, h.files]
  loaded := h.loaded
  entries _ d := by
    change (s.entries.insert depotId _).lookup d = Function.update c.entry depotId _ d
    by_cases hd : d = depotId
    · rw [hd, AList.lookup_insert, Function.update_self]
    · rw [AList.lookup_insert_ne hd, Function.update_of_ne hd, h.entries hloaded]

/-- Where writing succeeds, a save is the save of the cache. -/
theorem saveKeyToCache (h : s.Simulates c) (appId : AppId) (depotId : DepotId) (key : List UInt8) (managed : Bool) :
    (s.saveKeyToCache appId depotId key managed .complete).1 = (c.saveKeyToCache appId depotId key managed).1 ∧
      (s.saveKeyToCache appId depotId key managed .complete).2.Simulates (c.saveKeyToCache appId depotId key managed).2 := by
  rw [Store.saveKeyToCache, KeyCache.saveKeyToCache]
  dsimp only
  rw [← h.lookup_load depotId]
  by_cases hkey : key.length ≠ 32
  · rw [if_pos hkey, if_pos hkey]
    exact ⟨rfl, h⟩
  rw [if_neg hkey, if_neg hkey]
  dsimp only [merged]
  split_ifs
  · exact ⟨rfl, h.load⟩
  · exact ⟨rfl, h.load.put_remember s.loaded_loadKeyIndexLocked depotId _ key _⟩
  · exact ⟨rfl, h.load⟩
  · exact ⟨rfl, h.load.put_remember s.loaded_loadKeyIndexLocked depotId _ key _⟩

end Simulates

/-- The catalogue and its index as the next look at them has them. -/
def memory (s : Store) : Entries × ManagedDepotIndex := (s.loadKeyIndexLocked.entries, s.loadKeyIndexLocked.index)

theorem load_load (s : Store) : s.loadKeyIndexLocked.loadKeyIndexLocked = s.loadKeyIndexLocked := by
  cases s with | mk files loaded entries indexReady index =>
  cases loaded <;> cases indexReady <;> rfl

private theorem memory_load (s : Store) : s.loadKeyIndexLocked.memory = s.memory := by rw [memory, load_load, memory]

/-- What is written to the files stays out of the memory of a loaded store. -/
theorem memory_load_put (s : Store) (depotId : DepotId) (reading : Option SavedKey) :
    (s.loadKeyIndexLocked.put depotId reading).memory = s.memory := by
  cases s with | mk files loaded entries indexReady index =>
  cases loaded <;> cases indexReady <;> rfl

/-- The entry of the depot says what the save would say. -/
theorem merged_eq_iff (existing : SavedKey) (appId : AppId) (depotId : DepotId) (key : List UInt8) (managed : Bool) :
    existing = merged existing appId depotId key managed ↔
      existing.depotId = depotId ∧ existing.key = key ∧
        existing.appId = (merged existing appId depotId key managed).appId ∧
        existing.managed = (merged existing appId depotId key managed).managed := by
  constructor
  · intro h
    exact ⟨congrArg SavedKey.depotId h, congrArg SavedKey.key h, congrArg SavedKey.appId h, congrArg SavedKey.managed h⟩
  · rintro ⟨hdepot, hkey, happ, hmanaged⟩
    cases existing
    exact SavedKey.mk.injEq .. ▸ ⟨happ, hdepot, hkey, hmanaged⟩

/-- The end of a save: the file first, then the entry. -/
def writeRecord (s : Store) (depotId : DepotId) (existing saved : SavedKey) : WriteIo → Bool × Store
  | .refused => (false, s)
  | .failed left => (false, s.put depotId left)
  | .unnoticed left => (true, (s.put depotId left).remember depotId existing saved)
  | .complete => (true, (s.put depotId (some saved)).remember depotId existing saved)

/-- A save that has something to write, whose write fails and leaves the file with another reading than it had. -/
def Overwrites (s : Store) (appId : AppId) (depotId : DepotId) (key : List UInt8) (managed : Bool) (io : WriteIo) : Prop :=
  key.length = 32 ∧ s.getCachedKey depotId ≠ merged (s.getCachedKey depotId) appId depotId key managed ∧
    ∃ left, io = .failed left ∧ left ≠ s.recordOnDisk depotId

/-- What a save with a key of the right length does once the catalogue is loaded. -/
theorem saveKeyToCache_of_length (s : Store) {key : List UInt8} (hkey : key.length = 32) (appId : AppId)
    (depotId : DepotId) (managed : Bool) (io : WriteIo) :
    s.saveKeyToCache appId depotId key managed io =
      if s.getCachedKey depotId = merged (s.getCachedKey depotId) appId depotId key managed then
        (true, s.loadKeyIndexLocked)
      else s.loadKeyIndexLocked.writeRecord depotId (s.getCachedKey depotId)
        (merged (s.getCachedKey depotId) appId depotId key managed) io := by
  rw [saveKeyToCache, if_neg (not_not.mpr hkey)]
  dsimp only
  rw [← getCachedKey, if_congr (merged_eq_iff ..).symm rfl rfl]
  cases io <;> rfl

private theorem savePin_eq_self {p : ManifestId.Process} {d : ManifestId.DepotId} {gid : ManifestId.Gid}
    {io : ManifestId.WriteIo} (h : (p.savePin d gid io).1 = false) : (p.savePin d gid io).2 = p := by
  unfold ManifestId.Process.savePin at h ⊢
  by_cases hvalid : ManifestId.Process.validPin d gid = true
  · rw [dif_pos hvalid] at h ⊢
    by_cases hsame : p.disk.file d = some (.node ⟨d, gid⟩)
    · rw [if_pos hsame] at h
      cases h
    · rw [if_neg hsame] at h ⊢
      cases io with
      | refused => rfl
      | short => cases h
      | complete => cases h
  · rw [dif_neg hvalid]

/-- A save that has nothing to write, or whose key has another length. -/
theorem saved_of_not_written {s : Store} {appId : AppId} {depotId : DepotId} {key : List UInt8} {managed : Bool}
    {io : WriteIo} (h : ¬ (key.length = 32 ∧
      s.getCachedKey depotId ≠ merged (s.getCachedKey depotId) appId depotId key managed)) :
    (s.saveKeyToCache appId depotId key managed io).2.files = s.files ∧
      (s.saveKeyToCache appId depotId key managed io).2.memory = s.memory := by
  by_cases hkey : key.length = 32
  · have hsame := not_not.mp fun hne => h ⟨hkey, hne⟩
    rw [saveKeyToCache_of_length s hkey, if_pos hsame]
    exact ⟨s.files_loadKeyIndexLocked, s.memory_load⟩
  · rw [saveKeyToCache, if_pos hkey]
    exact ⟨rfl, rfl⟩

/-- A key that is not saved leaves the files and the catalogue as they were, unless the write has failed on the file that
it had truncated. -/
theorem keeps_record_iff (s : Store) (appId : AppId) (depotId : DepotId) (key : List UInt8) (managed : Bool)
    (io : WriteIo) :
    ((s.saveKeyToCache appId depotId key managed io).1 = false →
      (∀ d, (s.saveKeyToCache appId depotId key managed io).2.recordOnDisk d = s.recordOnDisk d) ∧
        (s.saveKeyToCache appId depotId key managed io).2.memory = s.memory) ↔
      ¬ s.Overwrites appId depotId key managed io := by
  by_cases hwrite : key.length = 32 ∧
      s.getCachedKey depotId ≠ merged (s.getCachedKey depotId) appId depotId key managed
  · obtain ⟨hkey, hnew⟩ := hwrite
    rw [saveKeyToCache_of_length s hkey, if_neg hnew]
    cases io with
    | refused =>
      have hkept : ¬ s.Overwrites appId depotId key managed .refused := by rintro ⟨-, -, left, ⟨⟩, -⟩
      exact iff_of_true (fun _ => ⟨s.recordOnDisk_loadKeyIndexLocked, s.memory_load⟩) hkept
    | failed left =>
      have hover : s.Overwrites appId depotId key managed (.failed left) ↔ left ≠ s.recordOnDisk depotId := by
        constructor
        · rintro ⟨-, -, left, ⟨⟩, hleft⟩
          exact hleft
        · intro hleft
          exact ⟨hkey, hnew, left, rfl, hleft⟩
      rw [hover, not_not, writeRecord]
      constructor
      · intro h
        have hdisk := (h rfl).1 depotId
        rwa [recordOnDisk_put, if_pos rfl] at hdisk
      · rintro rfl -
        refine ⟨fun d => ?_, memory_load_put s depotId _⟩
        rw [recordOnDisk_put, recordOnDisk_loadKeyIndexLocked]
        split_ifs with hd
        · rw [hd]
        · rfl
    | unnoticed left =>
      have hkept : ¬ s.Overwrites appId depotId key managed (.unnoticed left) := by rintro ⟨-, -, left, ⟨⟩, -⟩
      exact iff_of_true (fun h => by cases h) hkept
    | complete =>
      have hkept : ¬ s.Overwrites appId depotId key managed .complete := by rintro ⟨-, -, left, ⟨⟩, -⟩
      exact iff_of_true (fun h => by cases h) hkept
  · obtain ⟨hfiles, hmemory⟩ := saved_of_not_written hwrite
    have hkept : ¬ s.Overwrites appId depotId key managed io := fun h => hwrite ⟨h.1, h.2.1⟩
    exact iff_of_true (fun _ => ⟨fun d => by rw [recordOnDisk, hfiles, recordOnDisk], hmemory⟩) hkept

/-- The record as the emitter is given it. -/
def recordPairs (saved : SavedKey) : List (Bytes × Bytes) :=
  [(utf8 "appId", toDecimal saved.appId.toNat), (utf8 "depotId", toDecimal saved.depotId.toNat),
    (utf8 "key", toBase64 saved.key), (utf8 "managed", boolWord saved.managed)]

/-- A text that the stream's buffer has room for is kept there until the stream is closed: writing it does not fail. -/
def Buffers (stream : Bytes → WriteIo) : Prop := ∀ text left, text.length < 1024 → stream text ≠ .failed left

/-- The save with the emitter and the stream that it is given. -/
def saveThrough (emit : List (Bytes × Bytes) → Bytes) (stream : Bytes → WriteIo) (s : Store) (appId : AppId)
    (depotId : DepotId) (key : List UInt8) (managed : Bool) : Bool × Store :=
  s.saveKeyToCache appId depotId key managed
    (stream (emit (recordPairs (merged (s.getCachedKey depotId) appId depotId key managed))))

private theorem length_toDecimal_le (n : UInt32) : (toDecimal n.toNat).length ≤ 10 := by
  rw [toDecimal, List.length_map]
  exact (Nat.length_toDigits_le_iff (by decide) (by decide)).mpr (n.toNat_lt.trans (by decide))

/-- A record has room in the buffer. -/
theorem length_record_lt {emit : List (Bytes × Bytes) → Bytes} (hemit : EmitsBlock emit) {saved : SavedKey}
    (hkey : saved.key.length = 32) : (emit (recordPairs saved)).length < 1024 := by
  have hmod : saved.key.length % 3 = 2 := by rw [hkey]
  have hplain := ProvisionCache.base64_plain hmod (by omega) (by omega)
  have hlength := (toBase64_letters hmod).1
  have happ := length_toDecimal_le saved.appId
  have hdepot := length_toDecimal_le saved.depotId
  have hnumber : ∀ n : UInt32, PlainScalar (toDecimal n.toNat) := fun n =>
    ProvisionCache.number_plain (n.toNat_lt.trans (by decide))
  have hname : ∀ word ∈ [utf8 "appId", utf8 "depotId", utf8 "key", utf8 "managed", utf8 "true", utf8 "false"],
      PlainScalar word := by
    intro word hword
    refine ⟨?_, ?_, ?_, ?_⟩ <;> revert word <;> decide +kernel
  have hflag : PlainScalar (boolWord saved.managed) ∧ (boolWord saved.managed).length ≤ 5 := by
    cases saved.managed
    · exact ⟨hname _ (by simp [boolWord]), by decide +kernel⟩
    · exact ⟨hname _ (by simp [boolWord]), by decide +kernel⟩
  have hpairs : ∀ pair ∈ recordPairs saved, PlainScalar pair.1 ∧ PlainScalar pair.2 := by
    simp only [recordPairs, List.forall_mem_cons]
    exact ⟨⟨hname _ (by simp), hnumber _⟩, ⟨hname _ (by simp), hnumber _⟩, ⟨hname _ (by simp), hplain⟩,
      ⟨hname _ (by simp), hflag.1⟩, List.forall_mem_nil _⟩
  have hnames : (utf8 "appId").length = 5 ∧ (utf8 "depotId").length = 7 ∧ (utf8 "key").length = 3 ∧
      (utf8 "managed").length = 7 := by decide +kernel
  obtain ⟨happId, hdepotId, hkeyName, hmanaged⟩ := hnames
  have hseparator : ProvisionCache.separator.length = 2 := rfl
  rw [hemit (recordPairs saved) (List.cons_ne_nil _ _) hpairs]
  simp only [recordPairs, pairLine, List.map_cons, List.map_nil, List.intercalate_cons_cons, List.intercalate_singleton,
    List.length_append, List.length_singleton, happId, hdepotId, hkeyName, hmanaged, hseparator]
  omega

/-- A pin or a key that is not saved leaves the files and the catalogue as they were. -/
theorem failed_save_keeps_record {emit : List (Bytes × Bytes) → Bytes} (hemit : EmitsBlock emit)
    {stream : Bytes → WriteIo} (hstream : Buffers stream) (s : Store) (appId : AppId) (depotId : DepotId)
    (key : List UInt8) (managed : Bool) :
    (∀ (p : ManifestId.Process) d gid io, (p.savePin d gid io).1 = false → (p.savePin d gid io).2 = p) ∧
      ((s.saveThrough emit stream appId depotId key managed).1 = false →
        (∀ d, (s.saveThrough emit stream appId depotId key managed).2.recordOnDisk d = s.recordOnDisk d) ∧
          (s.saveThrough emit stream appId depotId key managed).2.memory = s.memory) := by
  refine ⟨fun p d gid io => savePin_eq_self, (keeps_record_iff s appId depotId key managed _).mpr ?_⟩
  rintro ⟨hkey, -, left, hfailed, -⟩
  have hmerged : (merged (s.getCachedKey depotId) appId depotId key managed).key.length = 32 := hkey
  exact hstream _ left (length_record_lt hemit hmerged) hfailed

/-- A file that may not be opened. -/
theorem failed_save_keeps_record_refused :
    let s : Store := { files := AList.singleton [55] (some ⟨3, 7, List.replicate 32 1, false⟩) }
    let saved := s.saveThrough emitLines (fun _ => .refused) 3 7 (List.replicate 32 2) false
    saved.1 = false ∧ saved.2.recordOnDisk 7 = some ⟨3, 7, List.replicate 32 1, false⟩ ∧ saved.2.memory = s.memory := by
  intro s saved
  have hfalse : saved.1 = false := by decide
  have hstream : Buffers fun _ => .refused := fun _ _ _ => WriteIo.noConfusion
  obtain ⟨hdisk, hmemory⟩ :=
    (failed_save_keeps_record ProvisionCache.emitLines_emitsBlock hstream s 3 7 (List.replicate 32 2) false).2 hfalse
  exact ⟨hfalse, hdisk 7, hmemory⟩

end SlsteamMoon.DepotKey.Store
