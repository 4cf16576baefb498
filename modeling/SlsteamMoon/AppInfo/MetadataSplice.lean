import SlsteamMoon.AppInfo.Interning
import SlsteamMoon.AppInfo.MergeFrame

/-! What a merge that answers false leaves behind: the strings it interned before the text or the
generated object was refused. -/
namespace SlsteamMoon.AppInfo

open KeyValues Runs

/-- Every key that the merge looks up has an index already. -/
def KnowsKeys (f : AppInfoFile) (record : CachedBuffer) : Prop :=
  ∀ key ∈ mergedKeys f record, (f.table.stringIndex key).isSome = true

instance (f : AppInfoFile) (record : CachedBuffer) : Decidable (KnowsKeys f record) :=
  inferInstanceAs (Decidable (∀ key ∈ _, _))

/-- Entries are replaced after the last check, so that a failed merge has left them alone. -/
theorem mergeAppImpl_failed_apps {sha1 : Bytes → Digest} {f g : AppInfoFile} {record : CachedBuffer}
    {failure : Failure} (h : mergeAppImpl sha1 f record = (.error failure, g)) :
    g.universeId = f.universeId ∧ g.apps = f.apps := by
  rw [mergeAppImpl] at h
  split_ifs at h
  · obtain rfl := (Prod.mk.inj h).2
    exact ⟨rfl, rfl⟩
  · cases (Prod.mk.inj h).1
  · cases htranslated : translateWireToIndexed record.buffer f.table with
    | error failed =>
      rw [htranslated] at h
      obtain rfl := (Prod.mk.inj h).2
      exact ⟨rfl, rfl⟩
    | ok translated =>
      rw [htranslated] at h
      dsimp only at h
      split at h
      · obtain rfl := (Prod.mk.inj h).2
        exact ⟨rfl, rfl⟩
      · cases (Prod.mk.inj h).1
  · obtain rfl := (Prod.mk.inj h).2
    exact ⟨rfl, rfl⟩

private theorem mergeAppImpl_failed_interned {sha1 : Bytes → Digest} {f g : AppInfoFile} {record : CachedBuffer}
    {err : String} (h : mergeAppImpl sha1 f record = (.error (.returned err), g)) :
    Interned f.table (mergedKeys f record) g.table := by
  have hstep : mergeStep sha1 f record = some g := by
    rw [mergeStep, h]
  exact mergeStep_interned hstep

private theorem failed_merge_same {sha1 : Bytes → Digest} {f g : AppInfoFile} {record : CachedBuffer} {err : String}
    (h : mergeAppImpl sha1 f record = (.error (.returned err), g)) (hknown : KnowsKeys f record) : g = f := by
  obtain ⟨huniverse, happs⟩ := mergeAppImpl_failed_apps h
  have htable : g.table = f.table := (mergeAppImpl_failed_interned h).same hknown
  obtain ⟨universeId, apps, table⟩ := g
  obtain rfl := huniverse
  obtain rfl := happs
  obtain rfl := htable
  rfl

/-- A loop over cached records passes a rejected one without a trace when its keys are known. -/
theorem mergeCached_skips {sha1 : Bytes → Digest} {f g : AppInfoFile} {record : CachedBuffer} {err : String}
    (h : mergeAppImpl sha1 f record = (.error (.returned err), g)) (hknown : KnowsKeys f record)
    (records : List CachedBuffer) (changed : Bool) (injected : Nat) :
    mergeCached sha1 (record :: records) f changed injected = mergeCached sha1 records f changed injected := by
  obtain rfl := failed_merge_same h hknown
  rw [mergeCached, h]

/-- A merge that answers false leaves the file as it was just when its table knew every key of the record. -/
theorem failed_merge_changes_nothing_iff {sha1 : Bytes → Digest} {f g : AppInfoFile} {record : CachedBuffer}
    {err : String} (h : mergeAppImpl sha1 f record = (.error (.returned err), g)) :
    g = f ↔ KnowsKeys f record := by
  constructor
  · rintro rfl key hkey
    exact ((mergeAppImpl_failed_interned h).known key).mpr (.inr hkey)
  · exact failed_merge_same h

/-- The object `r` with the pair of `a` and `x`, its closing brace missing. -/
def unclosedRecord : CachedBuffer where
  appid := 10
  changeNumber := 1
  sha := List.replicate 20 0
  buffer := ascii ['r', '\x7b', 'a', ' ', 'x']

/-- A file that knows the keys of the record is left as it was. -/
theorem failed_merge_known_keys :
    ∃ f err, KnowsKeys f unclosedRecord ∧
      mergeAppImpl (fun _ => zeroDigest) f unclosedRecord = (.error (.returned err), f) := by
  obtain ⟨f, g, err, hmerge, hknown⟩ : ∃ f g err,
      mergeAppImpl (fun _ => zeroDigest) f unclosedRecord = (.error (.returned err), g) ∧
      KnowsKeys f unclosedRecord :=
    ⟨(mergeAppImpl (fun _ => zeroDigest) ⟨1, [], emptyTable⟩ unclosedRecord).2, _, _, rfl, by decide +kernel⟩
  exact ⟨f, err, hknown, by rw [hmerge, (failed_merge_changes_nothing_iff hmerge).mpr hknown]⟩

/-- The failed merge leaves both keys in an empty table. -/
theorem failed_merge_interns :
    ∃ err g, mergeAppImpl (fun _ => zeroDigest) ⟨1, [], emptyTable⟩ unclosedRecord = (.error (.returned err), g) ∧
      g.table.strings = [ascii ['r'], ascii ['a']] ∧ g ≠ ⟨1, [], emptyTable⟩ := by
  obtain ⟨err, g, hmerge, hstrings⟩ : ∃ err g,
      mergeAppImpl (fun _ => zeroDigest) ⟨1, [], emptyTable⟩ unclosedRecord = (.error (.returned err), g) ∧
      g.table.strings = [ascii ['r'], ascii ['a']] := ⟨_, _, rfl, rfl⟩
  refine ⟨err, g, hmerge, hstrings, ?_⟩
  rintro rfl
  cases hstrings

end SlsteamMoon.AppInfo

/-! What the metadata splice inserts and what it counts. -/
namespace SlsteamMoon.AppInfo

open KeyValues Runs

/-- The app has an entry. -/
def HoldsApp (file : AppInfoFile) (appid : UInt32) : Bool := file.apps.any fun entry => entry.appid == appid

private theorem holdsApp_iff (file : AppInfoFile) (appid : UInt32) :
    HoldsApp file appid = true ↔ ∃ e ∈ file.apps, e.appid = appid := by
  simp only [HoldsApp, List.any_eq_true, beq_iff_eq]

/-- One turn of the loop over metadata records, without its counters. -/
def metadataTurn (sha1 : Bytes → Digest) (file : AppInfoFile) (app : CachedBuffer) : Except Failure AppInfoFile :=
  if app.appid = 0 then .ok file
  else if HoldsApp file app.appid = true then .ok file
  else
    match mergeAppImpl sha1 file app with
    | (.ok _, file) => .ok file
    | (.error (.returned _), file) => .ok file
    | (.error (.thrown what), _) => .error (.thrown what)

/-- Each record with the file as its turn leaves it. -/
def metadataTurns (sha1 : Bytes → Digest) : AppInfoFile → List CachedBuffer → List (CachedBuffer × AppInfoFile)
  | _, [] => []
  | file, app :: apps =>
    match metadataTurn sha1 file app with
    | .ok file => (app, file) :: metadataTurns sha1 file apps
    | .error _ => []

/-- The record names an app and the app has an entry. -/
def PresentIn (file : AppInfoFile) (app : CachedBuffer) : Bool := app.appid != 0 && HoldsApp file app.appid

/-- After its own turn the app of the record has an entry. -/
def Accounted (turn : CachedBuffer × AppInfoFile) : Bool := PresentIn turn.2 turn.1

/-- How a turn ends. -/
inductive Turn (file : AppInfoFile) (app : CachedBuffer) : AppInfoFile → Prop
  | unnamed (zero : app.appid = 0) : Turn file app file
  | held (named : app.appid ≠ 0) (present : HoldsApp file app.appid = true) : Turn file app file
  | failed (named : app.appid ≠ 0) (absent : HoldsApp file app.appid = false) (table : StringTable) :
      Turn file app { file with table }
  | inserted (named : app.appid ≠ 0) (absent : HoldsApp file app.appid = false) (entry : AppEntry)
      (same : entry.appid = app.appid) (table : StringTable) :
      Turn file app { file with apps := file.apps ++ [entry], table }

private theorem PutsEntry.absent_eq {entry : AppEntry} {apps apps' : List AppEntry} (h : PutsEntry entry apps apps')
    (habsent : ∀ e ∈ apps, e.appid ≠ entry.appid) : apps' = apps ++ [entry] := by
  cases h with
  | replaces before after old sameApp first =>
    exact absurd sameApp (habsent old (List.mem_append_right before List.mem_cons_self))
  | appends apps absent => rfl

/-- A merge of an app without an entry appends one. -/
theorem mergeAppImpl_absent {sha1 : Bytes → Digest} {file g : AppInfoFile} {app : CachedBuffer} {changed : Bool}
    (h : mergeAppImpl sha1 file app = (.ok changed, g)) (habsent : HoldsApp file app.appid = false) :
    changed = true ∧ ∃ (entry : AppEntry) (table : StringTable), entry.appid = app.appid ∧
      g = { file with apps := file.apps ++ [entry], table } := by
  have hother : ∀ e ∈ file.apps, e.appid ≠ app.appid := by
    intro e he hsame
    rw [(holdsApp_iff file app.appid).mpr ⟨e, he, hsame⟩] at habsent
    cases habsent
  obtain ⟨-, -, hmerges⟩ := mergeAppImpl_merges h
  cases hmerges with
  | present hheld =>
    obtain ⟨e, he, hversion⟩ := List.any_eq_true.mp hheld
    exact absurd ((holdsVersion_iff app e).mp hversion).1 (hother e he)
  | placed hsha indexed table =>
    have hputs := (replaceEntry_puts (mergedEntry sha1 app hsha indexed) file.apps).absent_eq hother
    exact ⟨rfl, mergedEntry sha1 app hsha indexed, table, rfl, by rw [hputs]⟩

private theorem metadataTurn_turn {sha1 : Bytes → Digest} {file v : AppInfoFile} {app : CachedBuffer}
    (h : metadataTurn sha1 file app = .ok v) : Turn file app v := by
  simp only [metadataTurn] at h
  split_ifs at h with hzero hheld
  · obtain rfl := Except.ok.inj h
    exact .unnamed hzero
  · obtain rfl := Except.ok.inj h
    exact .held hzero hheld
  · have habsent := eq_false_of_ne_true hheld
    split at h
    · next changed g hmerge =>
      obtain rfl := Except.ok.inj h
      obtain ⟨-, entry, table, hsame, rfl⟩ := mergeAppImpl_absent hmerge habsent
      exact .inserted hzero habsent entry hsame table
    · next err g hmerge =>
      obtain rfl := Except.ok.inj h
      obtain ⟨huniverse, happs⟩ := mergeAppImpl_failed_apps hmerge
      obtain ⟨universeId, apps, table⟩ := g
      obtain rfl := huniverse
      obtain rfl := happs
      exact .failed hzero habsent table
    · cases h

private theorem holdsApp_appended (file : AppInfoFile) (entry : AppEntry) (table : StringTable) (appid : UInt32) :
    HoldsApp { file with apps := file.apps ++ [entry], table } appid =
      (HoldsApp file appid || entry.appid == appid) := by
  simp only [HoldsApp, List.any_append, List.any_cons, List.any_nil, Bool.or_false]

/-- What one turn adds to the counters of the loop. -/
theorem mergeMetadata_cons (sha1 : Bytes → Digest) (app : CachedBuffer) (apps : List CachedBuffer)
    (file : AppInfoFile) (changed : Bool) (n : Nat) :
    mergeMetadata sha1 (app :: apps) file changed n =
      match metadataTurn sha1 file app with
      | .ok v => mergeMetadata sha1 apps v (changed || decide (v.apps ≠ file.apps))
          (n + if PresentIn v app = true then 1 else 0)
      | .error failure => .error failure := by
  simp only [mergeMetadata, metadataTurn]
  split_ifs with hzero hheld hheld' hheld'
  · simp [PresentIn, hzero]
  · simp [PresentIn, hzero, hheld']
  · exact absurd hheld hheld'
  · exact absurd hheld' hheld
  · have habsent := eq_false_of_ne_true hheld'
    cases hmerge : mergeAppImpl sha1 file app with
    | mk answer g =>
      cases answer with
      | ok entryChanged =>
        obtain ⟨rfl, entry, table, hsame, rfl⟩ := mergeAppImpl_absent hmerge habsent
        have hpresent : PresentIn { file with apps := file.apps ++ [entry], table } app = true := by
          simp [PresentIn, holdsApp_appended, hsame, hzero]
        simp [hpresent]
      | error failure =>
        cases failure with
        | returned err =>
          obtain ⟨-, happs⟩ := mergeAppImpl_failed_apps hmerge
          have hpresent : PresentIn g app = false := by
            simp only [PresentIn, HoldsApp, happs]
            simp only [HoldsApp] at habsent
            rw [habsent, Bool.and_false]
          simp [hpresent, happs]
        | thrown what => rfl

/-- The turns of a loop that no exception leaves. -/
inductive TurnsTo : AppInfoFile → List (CachedBuffer × AppInfoFile) → AppInfoFile → Prop
  | nil (file : AppInfoFile) : TurnsTo file [] file
  | cons {file v g : AppInfoFile} {app : CachedBuffer} {turns : List (CachedBuffer × AppInfoFile)}
      (turn : Turn file app v) (rest : TurnsTo v turns g) : TurnsTo file ((app, v) :: turns) g

/-- What the loop adds to a file. -/
structure Inserts (apps : List CachedBuffer) (file g : AppInfoFile) (added : List AppEntry) : Prop where
  sameUniverse : g.universeId = file.universeId
  entries : g.apps = file.apps ++ added
  once : (added.map AppEntry.appid).Nodup
  fresh : ∀ e ∈ added, HoldsApp file e.appid = false
  asked : ∀ e ∈ added, ∃ app ∈ apps, app.appid = e.appid ∧ app.appid ≠ 0

theorem Inserts.skipped {apps : List CachedBuffer} {file g : AppInfoFile} {added : List AppEntry}
    (app : CachedBuffer) (h : Inserts apps file g added) : Inserts (app :: apps) file g added where
  sameUniverse := h.sameUniverse
  entries := h.entries
  once := h.once
  fresh := h.fresh
  asked e he := by
    obtain ⟨other, hother, hnamed⟩ := h.asked e he
    exact ⟨other, List.mem_cons_of_mem app hother, hnamed⟩

theorem Inserts.inserted {apps : List CachedBuffer} {file g : AppInfoFile} {added : List AppEntry}
    {app : CachedBuffer} {entry : AppEntry} {table : StringTable} (hnamed : app.appid ≠ 0)
    (habsent : HoldsApp file app.appid = false) (hsame : entry.appid = app.appid)
    (h : Inserts apps { file with apps := file.apps ++ [entry], table } g added) :
    Inserts (app :: apps) file g (entry :: added) := by
  have hfresh : ∀ e ∈ added, HoldsApp file e.appid = false ∧ entry.appid ≠ e.appid := by
    intro e he
    have := h.fresh e he
    rw [holdsApp_appended, Bool.or_eq_false_iff] at this
    exact ⟨this.1, ne_of_beq_false this.2⟩
  refine ⟨h.sameUniverse, ?_, ?_, ?_, ?_⟩
  · rw [h.entries, List.append_assoc, List.singleton_append]
  · rw [List.map_cons, List.nodup_cons]
    refine ⟨fun hmem => ?_, h.once⟩
    obtain ⟨e, he, hid⟩ := List.mem_map.mp hmem
    exact (hfresh e he).2 hid.symm
  · rw [List.forall_mem_cons, hsame]
    exact ⟨habsent, fun e he => (hfresh e he).1⟩
  · rw [List.forall_mem_cons]
    exact ⟨⟨app, List.mem_cons_self, hsame.symm, hnamed⟩, (h.skipped app).asked⟩

theorem TurnsTo.inserts {file g : AppInfoFile} {turns : List (CachedBuffer × AppInfoFile)} (h : TurnsTo file turns g) :
    ∃ added, Inserts (turns.map Prod.fst) file g added := by
  induction h with
  | nil file => exact ⟨[], rfl, (List.append_nil _).symm, List.nodup_nil, List.forall_mem_nil _, List.forall_mem_nil _⟩
  | cons turn rest ih =>
    obtain ⟨added, hadded⟩ := ih
    cases turn with
    | unnamed | held => exact ⟨added, hadded.skipped _⟩
    | failed named absent table =>
      exact ⟨added, Inserts.skipped _ ⟨hadded.sameUniverse, hadded.entries, hadded.once, hadded.fresh, hadded.asked⟩⟩
    | inserted named absent entry same table => exact ⟨entry :: added, hadded.inserted named absent same⟩

theorem TurnsTo.holds {file g : AppInfoFile} {turns : List (CachedBuffer × AppInfoFile)} (h : TurnsTo file turns g)
    {appid : UInt32} (hheld : HoldsApp file appid = true) : HoldsApp g appid = true := by
  obtain ⟨added, hadded⟩ := h.inserts
  obtain ⟨e, he, hid⟩ := (holdsApp_iff file appid).mp hheld
  refine (holdsApp_iff g appid).mpr ⟨e, ?_, hid⟩
  rw [hadded.entries]
  exact List.mem_append_left added he

theorem Turn.grows {file v : AppInfoFile} {app : CachedBuffer} (h : Turn file app v) : file.apps <+: v.apps := by
  cases h with
  | unnamed | held | failed => exact List.prefix_refl _
  | inserted named absent entry => exact List.prefix_append _ _

theorem TurnsTo.grows {file g : AppInfoFile} {turns : List (CachedBuffer × AppInfoFile)} (h : TurnsTo file turns g) :
    file.apps <+: g.apps := by
  obtain ⟨added, hadded⟩ := h.inserts
  exact ⟨added, hadded.entries.symm⟩

/-- The entries of every turn lie between the first and the last. -/
theorem TurnsTo.between {file g : AppInfoFile} {turns : List (CachedBuffer × AppInfoFile)} (h : TurnsTo file turns g) :
    ∀ turn ∈ turns, file.apps <+: turn.2.apps ∧ turn.2.apps <+: g.apps := by
  induction h with
  | nil file => exact List.forall_mem_nil _
  | cons turn rest ih =>
    rw [List.forall_mem_cons]
    exact ⟨⟨turn.grows, rest.grows⟩, fun later hlater => ⟨List.IsPrefix.trans turn.grows (ih later hlater).1,
      (ih later hlater).2⟩⟩

/-- A record that failed although its app has an entry in the end. -/
def Overtaken (g : AppInfoFile) (turn : CachedBuffer × AppInfoFile) : Bool := PresentIn g turn.1 && !Accounted turn

/-- The records present in the end are those accounted for and those overtaken. -/
theorem TurnsTo.countP_present {file g : AppInfoFile} {turns : List (CachedBuffer × AppInfoFile)}
    (h : TurnsTo file turns g) :
    (turns.map Prod.fst).countP (PresentIn g) = turns.countP Accounted + turns.countP (Overtaken g) := by
  induction h with
  | nil file => rfl
  | @cons file v g app turns turn rest ih =>
    have hlater : PresentIn v app = true → PresentIn g app = true := by
      simp only [PresentIn, Bool.and_eq_true]
      exact And.imp_right rest.holds
    rw [List.map_cons, List.countP_cons, List.countP_cons, List.countP_cons, ih]
    cases hnow : PresentIn v app with
    | true => simp [Overtaken, Accounted, hnow, hlater hnow]; omega
    | false => cases hend : PresentIn g app <;> simp [Overtaken, Accounted, hnow, hend]; omega

theorem mergeMetadata_turns {sha1 : Bytes → Digest} {apps : List CachedBuffer} {file g : AppInfoFile}
    {changed c : Bool} {n m : Nat} (h : mergeMetadata sha1 apps file changed n = .ok (g, c, m)) :
    TurnsTo file (metadataTurns sha1 file apps) g ∧ (metadataTurns sha1 file apps).map Prod.fst = apps ∧
      m = n + (metadataTurns sha1 file apps).countP Accounted ∧ (c = true ↔ changed = true ∨ g.apps ≠ file.apps) := by
  induction apps generalizing file changed n with
  | nil =>
    obtain ⟨rfl, hrest⟩ := Prod.mk.inj (Except.ok.inj h)
    obtain ⟨rfl, rfl⟩ := Prod.mk.inj hrest
    exact ⟨.nil file, rfl, rfl, by simp⟩
  | cons app apps ih =>
    rw [mergeMetadata_cons] at h
    cases hturn : metadataTurn sha1 file app with
    | error failure =>
      rw [hturn] at h
      cases h
    | ok v =>
      rw [hturn] at h
      obtain ⟨hrest, hfst, hm, hc⟩ := ih h
      have hall : TurnsTo file ((app, v) :: metadataTurns sha1 v apps) g := .cons (metadataTurn_turn hturn) hrest
      simp only [metadataTurns, hturn]
      refine ⟨hall, by rw [List.map_cons, hfst], ?_, ?_⟩
      · rw [hm, List.countP_cons]
        show _ = n + (_ + if PresentIn v app = true then 1 else 0)
        omega
      · obtain ⟨more, hmore⟩ := hrest.inserts
        have hfirst : ∃ front, v.apps = file.apps ++ front := by
          cases metadataTurn_turn hturn with
          | unnamed | held | failed => exact ⟨[], (List.append_nil _).symm⟩
          | inserted named absent entry => exact ⟨[entry], rfl⟩
        obtain ⟨front, hfront⟩ := hfirst
        have hlast : g.apps = v.apps ↔ more = [] := by rw [hmore.entries, List.append_right_eq_self]
        have hboth : g.apps = file.apps ↔ front = [] ∧ more = [] := by
          rw [hmore.entries, hfront, List.append_assoc, List.append_right_eq_self, List.append_eq_nil_iff]
        have hnext : v.apps = file.apps ↔ front = [] := by rw [hfront, List.append_right_eq_self]
        simp only [hc, Bool.or_eq_true, decide_eq_true_eq, ne_eq, hlast, hboth, hnext]
        rw [or_assoc, not_and_or]

end SlsteamMoon.AppInfo
