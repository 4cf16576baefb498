import SlsteamMoon.AppInfo.Update

/-! What a successful merge leaves alone: the strings and indices of the table, and every entry but
the first of its app. -/
namespace SlsteamMoon.AppInfo

open KeyValues

/-- A later table: strings were appended and no index of a string moved. -/
structure Retains (f g : StringTable) : Prop where
  strings : f.strings <+: g.strings
  index : ∀ s i, f.stringIndex s = some i → g.stringIndex s = some i

theorem Retains.refl (f : StringTable) : Retains f f := ⟨List.prefix_refl _, fun _ _ h => h⟩

theorem Retains.trans {f g h : StringTable} (first : Retains f g) (second : Retains g h) : Retains f h where
  strings := List.IsPrefix.trans first.strings second.strings
  index s i hi := second.index s i (first.index s i hi)

private theorem internStringIndex_retains {f g : StringTable} {s : Bytes} {i : Nat}
    (h : f.internStringIndex s = .ok (i, g)) : Retains f g := by
  refine ⟨(f.intern_spec h).2.2, fun t j hj => ?_⟩
  simp only [StringTable.internStringIndex] at h
  split at h
  · obtain ⟨-, rfl⟩ := Prod.mk.inj (Except.ok.inj h)
    exact hj
  · next hnew =>
    split at h
    · obtain ⟨-, rfl⟩ := Prod.mk.inj (Except.ok.inj h)
      have hother : t ≠ s := by
        rintro rfl
        rw [hnew] at hj
        cases hj
      show Function.update f.stringIndex s (some f.strings.length) t = some j
      rw [Function.update_of_ne hother, hj]
    · cases h

/-- An emitter whose successful calls only append. -/
def Appends (object : Bytes → StringTable → Emit Emitted) : Prop :=
  ∀ input f e, object input f = .ok e → Retains f e.table

private theorem emitPair_retains {object : Bytes → StringTable → Emit Emitted} (hobject : Appends object)
    {key input : Bytes} {f : StringTable} {e : Emitted} (h : emitPair object key input f = .ok e) :
    Retains f e.table := by
  simp only [emitPair] at h
  split at h
  · obtain ⟨⟨i, g⟩, hi, he⟩ := bind_ok h
    obtain rfl := Except.ok.inj he
    exact internStringIndex_retains hi
  · next inside hnext =>
    obtain ⟨⟨i, g⟩, hi, h⟩ := bind_ok h
    obtain ⟨body, hbody, he⟩ := bind_ok h
    obtain rfl := Except.ok.inj he
    exact (internStringIndex_retains hi).trans (hobject inside g body hbody)
  · cases h

private theorem emitObject_retains (fuel : Nat) : Appends (emitObject fuel) := by
  induction fuel with
  | zero =>
    intro input f e h
    cases h
  | succ fuel ih =>
    intro input f e h
    simp only [emitObject] at h
    split at h
    · obtain rfl := Except.ok.inj h
      exact .refl f
    · cases h
    · cases h
    · obtain ⟨pair, hpair, h⟩ := bind_ok h
      obtain ⟨more, hmore, he⟩ := bind_ok h
      obtain rfl := Except.ok.inj he
      exact (emitPair_retains ih hpair).trans (ih pair.rest pair.table more hmore)

private theorem translateWireToIndexed_retains {wire indexed : Bytes} {f g : StringTable}
    (h : translateWireToIndexed wire f = .ok (indexed, g)) : Retains f g := by
  simp only [translateWireToIndexed] at h
  split at h
  · cases h
  · split at h
    · next topKey rest hnext =>
      obtain ⟨pair, hpair, he⟩ := bind_ok h
      obtain ⟨-, rfl⟩ := Prod.mk.inj (Except.ok.inj he)
      exact emitPair_retains (emitObject_retains rest.length) hpair
    · cases h

/-- The test that makes a merge idempotent. -/
def HoldsVersion (record : CachedBuffer) (e : AppEntry) : Bool :=
  e.appid == record.appid && e.changeNumber == record.changeNumber && e.sha.val == record.sha

theorem holdsVersion_iff (record : CachedBuffer) (e : AppEntry) : HoldsVersion record e = true ↔
    e.appid = record.appid ∧ e.changeNumber = record.changeNumber ∧ e.sha.val = record.sha := by
  simp only [HoldsVersion, Bool.and_eq_true, beq_iff_eq, and_assoc]

/-- The entry a merge builds from the translated buffer. -/
def mergedEntry (sha1 : Bytes → Digest) (record : CachedBuffer) (hsha : record.sha.length = 20)
    (indexed : Bytes) : AppEntry where
  appid := record.appid
  infoState := 2
  lastUpdated := 0
  picsToken := 0
  sha := ⟨record.sha, hsha⟩
  changeNumber := record.changeNumber
  binaryHash := sha1 indexed
  binaryVdf := indexed

/-- The ways a merge succeeds: the version is there, or its entry was built and placed. -/
inductive Merges (sha1 : Bytes → Digest) (f : AppInfoFile) (record : CachedBuffer) : Bool → AppInfoFile → Prop
  | present (held : f.apps.any (HoldsVersion record) = true) : Merges sha1 f record false f
  | placed (hsha : record.sha.length = 20) (indexed : Bytes) (table : StringTable)
      (fresh : f.apps.any (HoldsVersion record) = false)
      (translated : translateWireToIndexed record.buffer f.table = .ok (indexed, table)) :
      Merges sha1 f record true
        { f with apps := replaceEntry (mergedEntry sha1 record hsha indexed) f.apps, table }

theorem mergeAppImpl_merges {sha1 : Bytes → Digest} {f g : AppInfoFile} {record : CachedBuffer} {changed : Bool}
    (h : mergeAppImpl sha1 f record = (.ok changed, g)) :
    record.sha.length = 20 ∧ record.buffer.isEmpty = false ∧ Merges sha1 f record changed g := by
  rw [mergeAppImpl] at h
  split_ifs at h with hsha hbuffer hheld
  · cases (Prod.mk.inj h).1
  · obtain ⟨hchanged, rfl⟩ := Prod.mk.inj h
    obtain rfl := Except.ok.inj hchanged
    exact ⟨hsha, eq_false_of_ne_true hbuffer, .present hheld⟩
  · cases htranslated : translateWireToIndexed record.buffer f.table with
    | error failed =>
      rw [htranslated] at h
      cases (Prod.mk.inj h).1
    | ok translated =>
      obtain ⟨indexed, table⟩ := translated
      rw [htranslated] at h
      dsimp only at h
      split at h
      · cases (Prod.mk.inj h).1
      · obtain ⟨hchanged, rfl⟩ := Prod.mk.inj h
        obtain rfl := Except.ok.inj hchanged
        exact ⟨hsha, eq_false_of_ne_true hbuffer,
          .placed hsha indexed table (eq_false_of_ne_true hheld) htranslated⟩
  · cases (Prod.mk.inj h).1

/-- A merge that finds its version changes nothing. -/
theorem mergeAppImpl_present (sha1 : Bytes → Digest) {f : AppInfoFile} {record : CachedBuffer}
    (hsha : record.sha.length = 20) (hbuffer : record.buffer.isEmpty = false)
    (hheld : f.apps.any (HoldsVersion record) = true) : mergeAppImpl sha1 f record = (.ok false, f) := by
  rw [mergeAppImpl, dif_pos hsha, if_neg (Bool.eq_false_iff.mp hbuffer)]
  exact if_pos hheld

/-- Where an entry was put into a list: over the first of its app, or behind all. -/
inductive PutsEntry (entry : AppEntry) : List AppEntry → List AppEntry → Prop
  | replaces (before after : List AppEntry) (old : AppEntry) (sameApp : old.appid = entry.appid)
      (first : ∀ e ∈ before, e.appid ≠ entry.appid) :
      PutsEntry entry (before ++ old :: after) (before ++ entry :: after)
  | appends (apps : List AppEntry) (absent : ∀ e ∈ apps, e.appid ≠ entry.appid) :
      PutsEntry entry apps (apps ++ [entry])

theorem PutsEntry.cons {entry e : AppEntry} {apps apps' : List AppEntry} (hne : e.appid ≠ entry.appid)
    (h : PutsEntry entry apps apps') : PutsEntry entry (e :: apps) (e :: apps') := by
  cases h with
  | replaces before after old sameApp first =>
    exact .replaces (e :: before) after old sameApp (List.forall_mem_cons.mpr ⟨hne, first⟩)
  | appends _ absent => exact .appends (e :: apps) (List.forall_mem_cons.mpr ⟨hne, absent⟩)

theorem replaceEntry_puts (entry : AppEntry) (apps : List AppEntry) :
    PutsEntry entry apps (replaceEntry entry apps) := by
  induction apps with
  | nil => exact .appends [] (List.forall_mem_nil _)
  | cons e rest ih =>
    rw [replaceEntry]
    split
    · next hsame => exact .replaces [] rest e hsame (List.forall_mem_nil _)
    · next hne => exact ih.cons hne

theorem PutsEntry.mem {entry : AppEntry} {apps apps' : List AppEntry} (h : PutsEntry entry apps apps') :
    entry ∈ apps' := by
  cases h with
  | replaces before after => exact List.mem_append_right before List.mem_cons_self
  | appends apps => exact List.mem_append_right apps (List.mem_singleton_self entry)

/-- What a merge did to the entries. -/
def EntriesAfter (sha1 : Bytes → Digest) (record : CachedBuffer) (apps apps' : List AppEntry) : Bool → Prop
  | false => apps' = apps
  | true => ∃ (hsha : record.sha.length = 20) (indexed : Bytes),
      mergedEntry sha1 record hsha indexed ∉ apps ∧ PutsEntry (mergedEntry sha1 record hsha indexed) apps apps'

/-- A successful merge appends strings, puts at most one entry and, called again, does nothing. -/
theorem merge_touches_one_entry {sha1 : Bytes → Digest} {f g : AppInfoFile} {record : CachedBuffer}
    {changed : Bool} (h : mergeAppImpl sha1 f record = (.ok changed, g)) :
    g.universeId = f.universeId ∧ Retains f.table g.table ∧
      EntriesAfter sha1 record f.apps g.apps changed ∧ mergeAppImpl sha1 g record = (.ok false, g) := by
  obtain ⟨hsha, hbuffer, hmerges⟩ := mergeAppImpl_merges h
  cases hmerges with
  | present hheld => exact ⟨rfl, .refl _, rfl, mergeAppImpl_present sha1 hsha hbuffer hheld⟩
  | placed _ indexed table hfresh htranslated =>
    have hputs := replaceEntry_puts (mergedEntry sha1 record hsha indexed) f.apps
    have hversion : HoldsVersion record (mergedEntry sha1 record hsha indexed) = true :=
      (holdsVersion_iff _ _).mpr ⟨rfl, rfl, rfl⟩
    have hnew : mergedEntry sha1 record hsha indexed ∉ f.apps := by
      intro hmem
      exact absurd hversion (List.any_eq_false.mp hfresh _ hmem)
    have hheld : (replaceEntry (mergedEntry sha1 record hsha indexed) f.apps).any (HoldsVersion record) = true :=
      List.any_eq_true.mpr ⟨_, hputs.mem, hversion⟩
    exact ⟨rfl, translateWireToIndexed_retains htranslated, ⟨hsha, indexed, hnew, hputs⟩,
      mergeAppImpl_present sha1 hsha hbuffer hheld⟩

/-- A first merge into an empty file. -/
theorem merge_touches_one_entry_cached : ∃ g,
    mergeAppImpl (fun _ => zeroDigest) ⟨1, [], emptyTable⟩ cachedRecord = (.ok true, g) ∧
      Retains emptyTable g.table ∧ EntriesAfter (fun _ => zeroDigest) cachedRecord [] g.apps true ∧
      mergeAppImpl (fun _ => zeroDigest) g cachedRecord = (.ok false, g) := by
  obtain ⟨g, hmerge⟩ : ∃ g, mergeAppImpl (fun _ => zeroDigest) ⟨1, [], emptyTable⟩ cachedRecord = (.ok true, g) :=
    ⟨_, rfl⟩
  obtain ⟨-, htable, hentries, hagain⟩ := merge_touches_one_entry hmerge
  exact ⟨g, hmerge, htable, hentries, hagain⟩

end SlsteamMoon.AppInfo
