import SlsteamMoon.AppInfo.Splice
import Mathlib.Data.List.TakeWhile

/-! The codec of the v41 file: what is serialized reads back, and a file that was
read serializes to one that reads the same. -/
namespace SlsteamMoon.AppInfo

open KeyValues

@[simp] theorem length_writeLE32 (n : Nat) : (writeLE32 n).length = 4 := rfl

@[simp] theorem length_writeLE64 (n : Nat) : (writeLE64 n).length = 8 := rfl

theorem le32_write {n : Nat} (h : n < 0x100000000) (rest : Bytes) : le32 (writeLE32 n ++ rest) = n := by
  rw [le32, readLE32_write h rest]
  rfl

private theorem le64_write {n : Nat} (h : n < 0x10000000000000000) (rest : Bytes) : le64 (writeLE64 n ++ rest) = n := by
  have hlow : le32 (writeLE64 n ++ rest) = n % 0x100000000 := by
    have hwrite : writeLE32 n = writeLE32 (n % 0x100000000) := by
      simp only [writeLE32, List.cons.injEq, and_true]
      refine ⟨?_, ?_, ?_, ?_⟩ <;> apply UInt8.toNat_inj.mp <;> simp only [UInt8.toNat_ofNat'] <;> omega
    rw [writeLE64, List.append_assoc, hwrite, le32_write (Nat.mod_lt _ (by decide))]
  have hhigh : le32 ((writeLE64 n ++ rest).drop 4) = n / 0x100000000 := by
    have hdrop : (writeLE64 n ++ rest).drop 4 = writeLE32 (n / 0x100000000) ++ rest := rfl
    rw [hdrop, le32_write (by omega)]
  rw [le64, hlow, hhigh]
  omega

/-- The bytes of an entry behind its size. -/
def entryBody (e : AppEntry) : Bytes :=
  writeLE32 e.infoState.toNat ++ writeLE32 e.lastUpdated.toNat ++ writeLE64 e.picsToken.toNat ++
    e.sha.val ++ writeLE32 e.changeNumber.toNat ++ e.binaryHash.val ++ e.binaryVdf

private theorem serializeEntry_eq (e : AppEntry) :
    serializeEntry e = writeLE32 e.appid.toNat ++ writeLE32 (entryBody e).length ++ entryBody e := rfl

private theorem length_entryBody (e : AppEntry) : (entryBody e).length = headerBytes + e.binaryVdf.length := by
  simp only [entryBody, List.length_append, length_writeLE32, length_writeLE64, e.sha.property,
    e.binaryHash.property, headerBytes]

private theorem length_serializeEntry (e : AppEntry) :
    (serializeEntry e).length = 8 + headerBytes + e.binaryVdf.length := by
  simp only [serializeEntry_eq, List.length_append, length_writeLE32, length_entryBody]
  omega

private theorem drop_length_append {front rest : Bytes} {n : Nat} (h : front.length = n) :
    (front ++ rest).drop n = rest := by
  rw [← h, List.drop_left]

private theorem take_length_append {front rest : Bytes} {n : Nat} (h : front.length = n) :
    (front ++ rest).take n = front := by
  rw [← h, List.take_left]

/-- The reader of an entry undoes its writer. -/
theorem readEntry_entryBody {e : AppEntry} {body : Bytes} (hbody : body = entryBody e)
    (h : headerBytes ≤ body.length) : readEntry e.appid.toNat body h = e := by
  obtain ⟨appid, infoState, lastUpdated, picsToken, ⟨sha, hsha⟩, changeNumber, ⟨hash, hhash⟩, vdf⟩ := e
  simp only [entryBody, List.append_assoc] at hbody
  have hstate : le32 body = infoState.toNat := by
    rw [hbody, le32_write infoState.toNat_lt]
  have hdrop4 : body.drop 4 = writeLE32 lastUpdated.toNat ++
      (writeLE64 picsToken.toNat ++ (sha ++ (writeLE32 changeNumber.toNat ++ (hash ++ vdf)))) := by
    rw [hbody]
    rfl
  have hdrop8 : body.drop 8 =
      writeLE64 picsToken.toNat ++ (sha ++ (writeLE32 changeNumber.toNat ++ (hash ++ vdf))) := by
    rw [hbody]
    rfl
  have hsha16 : body.drop 16 = sha ++ (writeLE32 changeNumber.toNat ++ (hash ++ vdf)) := by
    rw [hbody]
    rfl
  have hupdated : le32 (body.drop 4) = lastUpdated.toNat := by
    rw [hdrop4, le32_write lastUpdated.toNat_lt]
  have htoken : le64 (body.drop 8) = picsToken.toNat := by
    rw [hdrop8, le64_write picsToken.toNat_lt]
  have hchange36 : body.drop 36 = writeLE32 changeNumber.toNat ++ (hash ++ vdf) := by
    have hsplit : body.drop 36 = (body.drop 16).drop 20 := by rw [List.drop_drop]
    rw [hsplit, hsha16, drop_length_append hsha]
  have hhash40 : body.drop 40 = hash ++ vdf := by
    have hsplit : body.drop 40 = (body.drop 36).drop 4 := by rw [List.drop_drop]
    rw [hsplit, hchange36]
    rfl
  have hvdf : body.drop headerBytes = vdf := by
    have hsplit : body.drop headerBytes = (body.drop 40).drop 20 := by rw [List.drop_drop]; rfl
    rw [hsplit, hhash40, drop_length_append hhash]
  have hchange : le32 (body.drop 36) = changeNumber.toNat := by
    rw [hchange36, le32_write changeNumber.toNat_lt]
  simp only [readEntry, hstate, hupdated, htoken, hsha16, hchange, hhash40, hvdf, take_length_append hsha,
    take_length_append hhash, UInt32.ofNat_toNat, UInt64.ofNat_toNat]

private theorem readApps_entry (e : AppEntry) (hid : e.appid ≠ 0)
    (hsize : headerBytes + e.binaryVdf.length < 0x100000000) (fuel : Nat) (tail : Bytes) :
    readApps (fuel + 1) (serializeEntry e ++ tail) = (readApps fuel tail).map (e :: ·) := by
  set region := serializeEntry e ++ tail with hregion
  simp only [serializeEntry_eq, List.append_assoc] at hregion
  have hlen : region.length = 8 + (entryBody e).length + tail.length := by
    rw [hregion]
    simp only [List.length_append, length_writeLE32]
    omega
  have happid : le32 region = e.appid.toNat := by
    rw [hregion, le32_write e.appid.toNat_lt]
  have hafterId : region.drop 4 = writeLE32 (entryBody e).length ++ (entryBody e ++ tail) := by
    rw [hregion]
    rfl
  have hafter : region.drop 8 = entryBody e ++ tail := by
    rw [hregion]
    rfl
  have hentry : le32 (region.drop 4) = (entryBody e).length := by
    rw [hafterId, le32_write (by rwa [length_entryBody])]
  have hbody : (region.drop 8).take (le32 (region.drop 4)) = entryBody e := by
    rw [hentry, hafter, take_length_append rfl]
  have htail : (region.drop 8).drop (le32 (region.drop 4)) = tail := by
    rw [hentry, hafter, drop_length_append rfl]
  have hheader : headerBytes ≤ ((region.drop 8).take (le32 (region.drop 4))).length := by
    rw [hbody, length_entryBody]
    exact Nat.le_add_right _ _
  have hnonempty : ¬region.isEmpty = true := by
    rw [List.isEmpty_iff_length_eq_zero]
    omega
  have hnonzero : ¬le32 region = 0 := by
    rw [happid]
    exact fun h => hid (UInt32.toNat_inj.mp h)
  rw [readApps, if_neg hnonempty, if_neg (by omega), if_neg hnonzero, if_neg (by omega), if_neg (by omega),
    dif_pos hheader, htail, happid, readEntry_entryBody hbody hheader]
  cases readApps fuel tail <;> rfl

/-- The footer, or an entry of app zero, ends the list. -/
theorem readApps_footer (fuel : Nat) (tail : Bytes) : readApps fuel (writeLE32 0 ++ tail) = .ok [] := by
  cases fuel with
  | zero => rfl
  | succ fuel => rfl

/-- Serialized entries read back, up to an entry of app zero. -/
theorem readApps_entries (apps : List AppEntry) (hsize : ∀ e ∈ apps, headerBytes + e.binaryVdf.length < 0x100000000)
    (fuel : Nat) (hfuel : apps.length < fuel) :
    readApps fuel (apps.flatMap serializeEntry ++ writeLE32 0) = .ok (apps.takeWhile fun e => decide (e.appid ≠ 0)) := by
  induction apps generalizing fuel with
  | nil => exact readApps_footer fuel []
  | cons e apps ih =>
    obtain ⟨fuel, rfl⟩ := Nat.exists_eq_succ_of_ne_zero (n := fuel) (by omega)
    have hrest := ih (fun e' he' => hsize e' (List.mem_cons_of_mem _ he')) fuel (by simp at hfuel; omega)
    rw [List.flatMap_cons, List.append_assoc]
    by_cases hid : e.appid = 0
    · rw [List.takeWhile_cons_of_neg (by simpa using hid), serializeEntry_eq, hid]
      simp only [List.append_assoc]
      exact readApps_footer _ _
    · rw [readApps_entry e hid (hsize e (List.mem_cons_self ..)), hrest,
        List.takeWhile_cons_of_pos (by simpa using hid)]
      rfl

/-- The index names the first of equal strings, as the reader and the interner
leave it. -/
def FirstIndexed (f : StringTable) : Prop := ∀ s, f.stringIndex s = f.strings.findIdx? (· == s)

theorem FirstIndexed.unique {f g : StringTable} (hf : FirstIndexed f) (hg : FirstIndexed g)
    (h : f.strings = g.strings) : f = g := by
  have hindex : f.stringIndex = g.stringIndex := by
    funext s
    rw [hf s, hg s, h]
  cases f
  cases g
  simp only [StringTable.mk.injEq]
  exact ⟨h, hindex⟩

theorem findIdx_appended (strings : List Bytes) (s t : Bytes) :
    (strings ++ [s]).findIdx? (· == t) =
      (strings.findIdx? (· == t)).or (if s = t then some strings.length else none) := by
  rw [List.findIdx?_append]
  congr 1
  by_cases hst : s = t
  · simp [hst]
  · simp [hst, List.findIdx?_cons]

theorem pushString_spec {f g : StringTable} {s : Bytes} (h : pushString f s = .ok g) :
    g.strings = f.strings ++ [s] ∧ (FirstIndexed f → FirstIndexed g) := by
  simp only [pushString] at h
  split at h
  · obtain rfl := Except.ok.inj h
    refine ⟨rfl, fun hf t => ?_⟩
    show (if _ then _ else _ : Bytes → Option Nat) t = _
    rw [findIdx_appended, ← hf t]
    split
    · next hknown =>
      by_cases hst : s = t
      · subst hst
        obtain ⟨i, hi⟩ := Option.isSome_iff_exists.mp hknown
        rw [hi]
        rfl
      · rw [if_neg hst, Option.or_none]
    · next hnew =>
      have hnone : f.stringIndex s = none := Option.not_isSome_iff_eq_none.mp hnew
      by_cases hst : s = t
      · subst hst
        rw [Function.update_self, hnone, if_pos rfl, Option.none_or]
      · rw [Function.update_of_ne (Ne.symm hst), if_neg hst, Option.or_none]
  · cases h

/-- What the reader of the table adds: as many strings as it was asked for, none
with a terminator inside. -/
theorem readStrings_spec (count : Nat) {p : Bytes} {f g : StringTable} (h : readStrings count p f = .ok g) :
    ∃ read, g.strings = f.strings ++ read ∧ (∀ s ∈ read, 0 ∉ s) ∧ (FirstIndexed f → FirstIndexed g) := by
  induction count generalizing p f with
  | zero =>
    obtain rfl := Except.ok.inj h
    exact ⟨[], (List.append_nil _).symm, by simp, id⟩
  | succ count ih =>
    simp only [readStrings] at h
    split at h
    · cases h
    · next s rest hs =>
      obtain ⟨f', hf', h⟩ := bind_ok h
      obtain ⟨hstrings, hfirst⟩ := pushString_spec hf'
      obtain ⟨read, hread, hfree, hmore⟩ := ih h
      refine ⟨s :: read, ?_, ?_, fun hf => hmore (hfirst hf)⟩
      · rw [hread, hstrings, List.append_assoc]
        rfl
      · intro t ht
        obtain rfl | ht := List.mem_cons.mp ht
        · exact readCString_nulFree hs
        · exact hfree t ht

private theorem readStrings_written (strings : List Bytes) (hfree : ∀ s ∈ strings, 0 ∉ s) (f : StringTable)
    (hroom : f.strings.length + strings.length ≤ maxStrings) :
    ∃ g, readStrings strings.length (strings.flatMap fun s => s ++ [0]) f = .ok g ∧
      g.strings = f.strings ++ strings := by
  induction strings generalizing f with
  | nil => exact ⟨f, rfl, (List.append_nil _).symm⟩
  | cons s strings ih =>
    simp only [List.length_cons] at hroom
    obtain ⟨f', hf'⟩ : ∃ f', pushString f s = .ok f' := ⟨_, dif_pos (by omega)⟩
    obtain ⟨hstrings, -⟩ := pushString_spec hf'
    have hlen : f'.strings.length = f.strings.length + 1 := by rw [hstrings, List.length_append]; rfl
    obtain ⟨g, hg, hread⟩ := ih (fun t ht => hfree t (List.mem_cons_of_mem _ ht)) f' (by omega)
    refine ⟨g, ?_, ?_⟩
    · have hs : readCString ((s :: strings).flatMap fun s => s ++ [0]) =
          some (s, strings.flatMap fun s => s ++ [0]) := by
        rw [List.flatMap_cons, List.append_assoc]
        exact readCString_write (hfree s (List.mem_cons_self ..)) _
      simp only [List.length_cons, readStrings, hs, hf']
      exact hg
    · rw [hread, hstrings, List.append_assoc]
      rfl

theorem readTable_spec {data : Bytes} {f : StringTable} (h : readTable data = .ok f) :
    4 ≤ data.length ∧ FirstIndexed f ∧ ∀ s ∈ f.strings, 0 ∉ s := by
  simp only [readTable] at h
  split at h
  · cases h
  · next hlen =>
    split at h
    · cases h
    · obtain ⟨read, hread, hfree, hfirst⟩ := readStrings_spec _ h
      refine ⟨by omega, hfirst fun s => rfl, fun s hs => hfree s ?_⟩
      rwa [hread] at hs

/-- The bytes behind the string table offset. -/
def tableBytes (f : StringTable) : Bytes :=
  writeLE32 f.strings.length ++ f.strings.flatMap fun s => s ++ [0]

theorem readTable_written (f : StringTable) (hfree : ∀ s ∈ f.strings, 0 ∉ s) :
    ∃ g, readTable (tableBytes f) = .ok g ∧ g.strings = f.strings := by
  have hbound : f.strings.length < 0x100000000 := by
    have h := f.bounded
    simp only [maxStrings] at h
    omega
  have hcount : le32 (tableBytes f) = f.strings.length := le32_write hbound _
  have hlen : ¬(tableBytes f).length < 4 := by simp [tableBytes]
  obtain ⟨g, hg, hread⟩ := readStrings_written f.strings hfree emptyTable (by simpa [emptyTable] using f.bounded)
  refine ⟨g, ?_, hread⟩
  simp only [readTable]
  rw [if_neg hlen, hcount, if_neg (by have := f.bounded; omega)]
  exact hg

/-- The entries the reader accepts, written again, fit the region they came from. -/
theorem readApps_spec (fuel : Nat) {region : Bytes} {apps : List AppEntry} (h : readApps fuel region = .ok apps) :
    (∀ e ∈ apps, e.appid ≠ 0) ∧ (apps.flatMap serializeEntry).length ≤ region.length := by
  induction fuel generalizing region apps with
  | zero =>
    obtain rfl := Except.ok.inj h
    exact ⟨by simp, Nat.zero_le _⟩
  | succ fuel ih =>
    simp only [readApps] at h
    split_ifs at h with hempty hshort hid hhead hsize hbody
    · obtain rfl := Except.ok.inj h
      exact ⟨by simp, Nat.zero_le _⟩
    · obtain rfl := Except.ok.inj h
      exact ⟨by simp, Nat.zero_le _⟩
    · obtain ⟨more, hmore, he⟩ := bind_ok h
      obtain rfl := Except.ok.inj he
      obtain ⟨hids, hlen⟩ := ih hmore
      set entrySize := le32 (region.drop 4)
      set e := readEntry (le32 region) ((region.drop 8).take entrySize) hbody with he
      have hvdf : headerBytes + e.binaryVdf.length = entrySize := by
        have htake : ((region.drop 8).take entrySize).length = entrySize := by
          rw [List.length_take, List.length_drop]
          omega
        have hsplit : e.binaryVdf.length = entrySize - headerBytes := by
          rw [he, readEntry, List.length_drop, htake]
        rw [htake] at hbody
        omega
      have hnonzero : e.appid ≠ 0 := by
        intro hzero
        have hnat : (UInt32.ofNat (le32 region)).toNat = 0 := congrArg UInt32.toNat hzero
        rw [UInt32.toNat_ofNat_of_lt' (le32_lt region)] at hnat
        exact hid hnat
      constructor
      · intro e' he'
        obtain rfl | he' := List.mem_cons.mp he'
        · exact hnonzero
        · exact hids e' he'
      · rw [List.flatMap_cons, List.length_append, length_serializeEntry]
        simp only [List.length_drop] at hlen
        omega

/-- What the parser of a file promises. -/
theorem readV41_spec {b : Bytes} {f : AppInfoFile} (h : readV41 (some b) = .ok f) :
    FirstIndexed f.table ∧ (∀ s ∈ f.table.strings, 0 ∉ s) ∧ (∀ e ∈ f.apps, e.appid ≠ 0) ∧
      20 + (f.apps.flatMap serializeEntry).length ≤ b.length := by
  simp only [readV41] at h
  split_ifs at h with hsmall hmagic hoffset
  obtain ⟨table, htable, h⟩ := bind_ok h
  obtain ⟨apps, happs, h⟩ := bind_ok h
  obtain rfl := Except.ok.inj h
  obtain ⟨hroom, hfirst, hfree⟩ := readTable_spec htable
  obtain ⟨hids, hlen⟩ := readApps_spec _ happs
  simp only [List.length_drop, List.length_take] at hroom hlen
  refine ⟨hfirst, hfree, hids, ?_⟩
  show 20 + (apps.flatMap serializeEntry).length ≤ b.length
  omega

private theorem length_apps_le (apps : List AppEntry) : apps.length ≤ (apps.flatMap serializeEntry).length := by
  induction apps with
  | nil => exact Nat.zero_le _
  | cons e apps ih =>
    rw [List.flatMap_cons, List.length_append, length_serializeEntry, List.length_cons]
    omega

private theorem length_le_flatMap {e : AppEntry} {apps : List AppEntry} (h : e ∈ apps) :
    (serializeEntry e).length ≤ (apps.flatMap serializeEntry).length := by
  have hsub : (serializeEntry e).Sublist (apps.map serializeEntry).flatten :=
    List.sublist_flatten_of_mem (List.mem_map_of_mem h)
  exact hsub.length_le

/-- A serialized file whose offset fits reads back as its universe, its entries
up to one of app zero, and whatever its string table reads as. -/
theorem readV41_serialize (f : AppInfoFile) (hoffset : 20 + (f.apps.flatMap serializeEntry).length < 0x100000000) :
    readV41 (some (serializeV41 f)) =
      (readTable (tableBytes f.table)).map fun table =>
        ⟨f.universeId, f.apps.takeWhile fun e => decide (e.appid ≠ 0), table⟩ := by
  set body := f.apps.flatMap serializeEntry ++ writeLE32 0 with hbody
  have hbodyLen : body.length = (f.apps.flatMap serializeEntry).length + 4 := by
    rw [hbody, List.length_append, length_writeLE32]
  set buf := serializeV41 f with hbuf
  have hlayout : buf = writeLE32 magicV41 ++ (writeLE32 f.universeId.toNat ++
      (writeLE64 (16 + body.length) ++ (body ++ tableBytes f.table))) := by
    rw [hbuf]
    simp only [serializeV41, tableBytes, List.append_assoc, ← hbody]
  have hlen : buf.length = 16 + body.length + (tableBytes f.table).length := by
    rw [hlayout]
    simp only [List.length_append, length_writeLE32, length_writeLE64]
    omega
  have hmagic : le32 buf = magicV41 := by
    rw [hlayout, le32_write (by decide)]
  have huniverse : le32 (buf.drop 4) = f.universeId.toNat := by
    have hdrop : buf.drop 4 = writeLE32 f.universeId.toNat ++
        (writeLE64 (16 + body.length) ++ (body ++ tableBytes f.table)) := by
      rw [hlayout]
      rfl
    rw [hdrop, le32_write f.universeId.toNat_lt]
  have htableOffset : le32 (buf.drop 8) = 16 + body.length := by
    have hdrop : buf.drop 8 = writeLE32 (16 + body.length) ++
        (writeLE32 ((16 + body.length) / 0x100000000) ++ (body ++ tableBytes f.table)) := by
      rw [hlayout]
      rfl
    rw [hdrop, le32_write (by omega)]
  have hdrop16 : buf.drop 16 = body ++ tableBytes f.table := by
    rw [hlayout]
    rfl
  have htable : buf.drop (16 + body.length) = tableBytes f.table := by
    rw [← List.drop_drop, hdrop16, drop_length_append rfl]
  have hregion : (buf.take (16 + body.length)).drop 16 = body := by
    rw [List.drop_take, hdrop16, Nat.add_sub_cancel_left, take_length_append rfl]
  have hsizes : ∀ e ∈ f.apps, headerBytes + e.binaryVdf.length < 0x100000000 := by
    intro e he
    have hle := length_le_flatMap he
    rw [length_serializeEntry] at hle
    omega
  have hcount : f.apps.length < body.length := by
    have hmono := length_apps_le f.apps
    omega
  simp only [readV41]
  rw [if_neg (by omega), if_neg (by simp [hmagic]), htableOffset, if_neg (by omega), htable, hregion, huniverse,
    UInt32.ofNat_toNat, hbody, readApps_entries f.apps hsizes _ hcount]
  cases readTable (tableBytes f.table) <;> rfl

theorem offset_lt {f : AppInfoFile} (h : (serializeV41 f).length < 0x100000000) :
    20 + (f.apps.flatMap serializeEntry).length < 0x100000000 := by
  simp only [serializeV41, List.length_append, length_writeLE32, length_writeLE64] at h
  omega

/-- A file whose entries and strings the format can hold reads back whole. -/
theorem readV41_serialized {f : AppInfoFile} (hids : ∀ e ∈ f.apps, e.appid ≠ 0)
    (hfree : ∀ s ∈ f.table.strings, 0 ∉ s)
    (hoffset : 20 + (f.apps.flatMap serializeEntry).length < 0x100000000) :
    ∃ g, readV41 (some (serializeV41 f)) = .ok g ∧ g.universeId = f.universeId ∧ g.apps = f.apps ∧
      g.table.strings = f.table.strings ∧ (FirstIndexed f.table → g = f) := by
  obtain ⟨table, htable, hstrings⟩ := readTable_written f.table hfree
  have happs : (f.apps.takeWhile fun e => decide (e.appid ≠ 0)) = f.apps := by
    rw [List.takeWhile_eq_self_iff]
    exact fun e he => decide_eq_true (hids e he)
  refine ⟨⟨f.universeId, f.apps, table⟩, ?_, rfl, rfl, hstrings, fun hfirst => ?_⟩
  · rw [readV41_serialize f hoffset, htable, happs]
    rfl
  · obtain rfl := (readTable_spec htable).2.1.unique hfirst hstrings
    rfl

/-- The codec in both directions, for files of a process whose size_t has 32
bits. The index of a file that was read or merged into is its first index. -/
theorem v41_round_trip :
    (∀ b f, b.length < 0x100000000 → readV41 (some b) = .ok f → readV41 (some (serializeV41 f)) = .ok f) ∧
    ∀ f : AppInfoFile, (∀ e ∈ f.apps, e.appid ≠ 0) → (∀ s ∈ f.table.strings, 0 ∉ s) →
      (∀ e ∈ f.apps, headerBytes + e.binaryVdf.length < 0x100000000) →
      (serializeV41 f).length < 0x100000000 →
      ∃ g, readV41 (some (serializeV41 f)) = .ok g ∧ g.universeId = f.universeId ∧ g.apps = f.apps ∧
        g.table.strings = f.table.strings ∧ (FirstIndexed f.table → g = f) := by
  constructor
  · intro b f hb hread
    obtain ⟨hfirst, hfree, hids, hoffset⟩ := readV41_spec hread
    obtain ⟨g, hg, -, -, -, hsame⟩ := readV41_serialized hids hfree (by omega)
    rw [hg, hsame hfirst]
  · intro f hids hfree _ hsize
    exact readV41_serialized hids hfree (offset_lt hsize)

def blankEntry : AppEntry := readEntry 7 (List.replicate 61 5) (by decide)

/-- One entry twice. -/
def twiceFile : AppInfoFile where
  universeId := 1
  apps := [blankEntry, blankEntry]
  table := emptyTable

/-- The same entries in front of a table of one string, with no footer. -/
def footerlessFile : Bytes :=
  writeLE32 magicV41 ++ writeLE32 1 ++ writeLE64 154 ++ serializeEntry blankEntry ++ serializeEntry blankEntry ++
    writeLE32 1 ++ [97, 0]

theorem v41_round_trip_twice :
    (∃ f, readV41 (some footerlessFile) = .ok f ∧ readV41 (some (serializeV41 f)) = .ok f) ∧
      ∃ g, readV41 (some (serializeV41 twiceFile)) = .ok g ∧ g.apps = [blankEntry, blankEntry] := by
  constructor
  · have haccepted : (readV41 (some footerlessFile)).toOption.isSome = true := by decide +kernel
    cases hf : readV41 (some footerlessFile) with
    | error err =>
      rw [hf] at haccepted
      cases haccepted
    | ok f => exact ⟨f, rfl, v41_round_trip.1 footerlessFile f (by decide +kernel) hf⟩
  · obtain ⟨g, hg, -, happs, -⟩ :=
      v41_round_trip.2 twiceFile (by decide) (by decide) (by decide +kernel) (by decide +kernel)
    exact ⟨g, hg, happs⟩

end SlsteamMoon.AppInfo
