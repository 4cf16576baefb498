import SlsteamMoon.ManifestStore.Names

/-! The gid that the store offers in place of another, and the file names that its readers take for manifests. -/
namespace SlsteamMoon.ManifestStore
open KeyValues ProvisionCache TextSearch ManifestPlan

/-- The names in the store with the content of each regular file. -/
structure StoreDir where
  files : List (Bytes × Option Bytes)
  distinct : (files.map Prod.fst).Nodup

/-- An entry as the iterator gives it: the status of a name may fail, and its time. -/
structure Listed where
  name : Bytes
  contents : Option Bytes
  statusFails : Bool := false
  mtime : Option Int

namespace StoreDir

/-- The file of this name. -/
def lookup (dir : StoreDir) (name : Bytes) : Option Bytes := (dir.files.lookup name).getD none

def isArchived (dir : StoreDir) (depotId : DepotId) (gid : Gid) : Bool :=
  decide (depotId ≠ 0 ∧ gid ≠ 0) && isValidManifest (dir.lookup (manifestName depotId gid))

/-- A listing in any order, with any times. -/
def Lists (dir : StoreDir) (entries : List Listed) : Prop :=
  (entries.map fun e => (e.name, e.contents)).Perm dir.files

end StoreDir

/-- The loop of bestArchivedGid. After a failed status or time the error code ends it. -/
def bestLoop (front : Bytes) (excludeGid : Gid) : List Listed → Gid → Int → Gid
  | [], best, _ => best
  | e :: rest, best, bestTime =>
    if e.statusFails then best
    else
      let gid := gidFromName e.name front
      if e.contents = none ∨ gid = 0 ∨ gid = excludeGid ∨ isValidManifest e.contents = false then
        bestLoop front excludeGid rest best bestTime
      else
        match e.mtime with
        | none => best
        | some t =>
          if best = 0 ∨ bestTime < t then bestLoop front excludeGid rest gid t
          else bestLoop front excludeGid rest best bestTime

def bestArchivedGid (entries : List Listed) (depotId : DepotId) (excludeGid : Gid) : Gid :=
  bestLoop (depotPrefix depotId) excludeGid entries 0 0

/-- The names that a purge of one depot removes; `fails` tells which removals do. -/
def purgeLoop (front : Bytes) (fails : Bytes → Bool) : List Bytes → List Bytes
  | [] => []
  | name :: rest =>
    if gidFromName name front = 0 then purgeLoop front fails rest
    else if fails name then []
    else name :: purgeLoop front fails rest

/-- What a listing offers as the newest was a valid file of the depot. -/
theorem bestLoop_listed (front : Bytes) (excludeGid : Gid) (entries : List Listed) {best : Gid} (bestTime : Int)
    (hother : bestLoop front excludeGid entries best bestTime ≠ best) :
    ∃ e ∈ entries, gidFromName e.name front = bestLoop front excludeGid entries best bestTime ∧
      isValidManifest e.contents = true ∧ gidFromName e.name front ≠ 0 := by
  induction entries generalizing best bestTime with
  | nil => exact absurd rfl hother
  | cons e rest ih =>
    have hrest : ∀ {best : Gid} {bestTime : Int}, bestLoop front excludeGid rest best bestTime ≠ best →
        ∃ f ∈ e :: rest, gidFromName f.name front = bestLoop front excludeGid rest best bestTime ∧
          isValidManifest f.contents = true ∧ gidFromName f.name front ≠ 0 := by
      intro best bestTime h
      obtain ⟨f, hf, hfound⟩ := ih bestTime h
      exact ⟨f, List.mem_cons_of_mem e hf, hfound⟩
    rw [bestLoop] at hother ⊢
    split at hother
    · exact absurd rfl hother
    · next hstatus =>
      rw [if_neg hstatus]
      dsimp only at hother ⊢
      split at hother
      · next hskip =>
        rw [if_pos hskip]
        exact hrest hother
      · next htaken =>
        rw [if_neg htaken]
        simp only [not_or, Bool.not_eq_false] at htaken
        obtain ⟨-, hgid, -, hvalid⟩ := htaken
        cases htime : e.mtime with
        | none =>
          rw [htime] at hother
          exact absurd rfl hother
        | some t =>
          rw [htime] at hother
          dsimp only at hother ⊢
          split at hother
          · next hnewer =>
            rw [if_pos hnewer]
            by_cases hkept : bestLoop front excludeGid rest (gidFromName e.name front) t = gidFromName e.name front
            · exact ⟨e, List.mem_cons_self, hkept.symm, hvalid, hgid⟩
            · exact hrest hkept
          · next hnewer =>
            rw [if_neg hnewer]
            exact hrest hother

/-- A listing whose later entries are all older keeps its first. -/
theorem bestLoop_keeps (front : Bytes) (excludeGid : Gid) (files : List (Bytes × Option Bytes)) {best : Gid}
    (hbest : best ≠ 0) :
    bestLoop front excludeGid (files.map fun file => ⟨file.1, file.2, false, some 0⟩) best 1 = best := by
  induction files with
  | nil => rfl
  | cons file files ih =>
    rw [List.map_cons, bestLoop]
    dsimp only
    rw [if_neg Bool.false_ne_true]
    split
    · exact ih
    · rw [if_neg (by simp [hbest])]
      exact ih

/-- A name without the differences between the readers: of a name that the lenient one takes, the depot is not zero and
the gid is digits alone; of a name that the strict one takes, the depot is written without leading zeros. -/
structure Plain (name : Bytes) : Prop where
  lenient : ∀ (depotId : DepotId) (text : Bytes) (gid : Gid), name = depotPrefix depotId ++ (text ++ manifestSuffix) →
    stoull text = some gid → gid ≠ 0 → depotId ≠ 0 ∧ text ≠ [] ∧ text.all isDigit = true
  strict : ∀ (depotText gidText : Bytes) (depotId : DepotId) (gid : Gid),
    name = depotText ++ underscore :: (gidText ++ manifestSuffix) → parseUnsigned depotText = some depotId.toNat →
      parseUnsigned gidText = some gid.toNat → depotId ≠ 0 → gid ≠ 0 → depotText = toDecimal depotId.toNat

private theorem depotPrefix_append (depotId : DepotId) (text : Bytes) :
    depotPrefix depotId ++ (text ++ manifestSuffix) =
      toDecimal depotId.toNat ++ underscore :: (text ++ manifestSuffix) := by
  rw [depotPrefix, List.append_assoc, List.singleton_append]

theorem parseUnsigned_toDecimal {n : Nat} (h : n < 0x10000000000000000) : parseUnsigned (toDecimal n) = some n :=
  parseUnsigned_eq_some.mpr ⟨toDecimal_ne_nil n, toDecimal_all_isDigit n, h, numberOf_toDecimal n⟩

private theorem depot_toDecimal (depotId : DepotId) : parseUnsigned (toDecimal depotId.toNat) = some depotId.toNat := by
  have hlt := depotId.toNat_lt
  exact parseUnsigned_toDecimal (by omega)

/-- On a plain name the readers agree, the number included. -/
theorem Plain.readers {name : Bytes} (h : Plain name) (depotId : DepotId) {gid : Gid} (hgid : gid ≠ 0) :
    gidFromName name (depotPrefix depotId) = gid ↔ parseManifestName name = some (depotId, gid) := by
  rw [gidFromName_eq hgid, parseManifestName_eq]
  constructor
  · rintro ⟨text, rfl, hne, htext⟩
    obtain ⟨hdepot, -, hdigits⟩ := h.lenient depotId text gid rfl htext hgid
    refine ⟨toDecimal depotId.toNat, text, depotPrefix_append depotId text, depot_toDecimal depotId, ?_, hdepot, hgid⟩
    rw [stoull_digits hne hdigits] at htext
    obtain ⟨number, hnumber, rfl⟩ := Option.map_eq_some_iff.mp htext
    have hsmall := (parseUnsigned_eq_some.mp hnumber).2.2.1
    rw [hnumber, UInt64.toNat_ofNat', Nat.mod_eq_of_lt hsmall]
  · rintro ⟨depotText, gidText, rfl, hdepotText, hgidText, hdepot, -⟩
    obtain rfl := h.strict depotText gidText depotId gid rfl hdepotText hgidText hdepot hgid
    obtain ⟨hne, hdigits, -, -⟩ := parseUnsigned_eq_some.mp hgidText
    refine ⟨gidText, (depotPrefix_append depotId gidText).symm, hne, ?_⟩
    rw [stoull_digits hne hdigits, hgidText, Option.map_some, UInt64.ofNat_toNat]

/-- Both readers take the same depots' names. -/
def SameReading (name : Bytes) : Prop :=
  ∀ depotId, gidFromName name (depotPrefix depotId) ≠ 0 ↔ ∃ gid, parseManifestName name = some (depotId, gid)

private theorem plain_iff (name : Bytes) : Plain name ↔ SameReading name := by
  constructor
  · intro h depotId
    constructor
    · intro hgid
      exact ⟨_, (h.readers depotId hgid).mp rfl⟩
    · rintro ⟨gid, hparsed⟩ hzero
      obtain ⟨-, -, -, -, -, -, hgid⟩ := parseManifestName_eq.mp hparsed
      rw [(h.readers depotId hgid).mpr hparsed] at hzero
      exact hgid hzero
  · intro h
    constructor
    · rintro depotId text gid rfl htext hgid
      by_cases hne : text = []
      · rw [hne] at htext
        cases htext
      · have hlenient : gidFromName (depotPrefix depotId ++ (text ++ manifestSuffix)) (depotPrefix depotId) = gid :=
          (gidFromName_eq hgid).mpr ⟨text, rfl, hne, htext⟩
        obtain ⟨other, hother⟩ := (h depotId).mp (by rw [hlenient]; exact hgid)
        obtain ⟨depotText, gidText, hname, hdepotText, hgidText, hdepot, -⟩ := parseManifestName_eq.mp hother
        obtain ⟨-, hdepotDigits, -, -⟩ := parseUnsigned_eq_some.mp hdepotText
        obtain ⟨-, hdigits, -, -⟩ := parseUnsigned_eq_some.mp hgidText
        rw [depotPrefix_append] at hname
        obtain ⟨-, rfl⟩ := named_inj (underscore_notMem (toDecimal_all_isDigit _)) (underscore_notMem hdepotDigits) hname
        exact ⟨hdepot, hne, hdigits⟩
    · rintro depotText gidText depotId gid rfl hdepotText hgidText hdepot hgid
      have hparsed : parseManifestName (depotText ++ underscore :: (gidText ++ manifestSuffix)) = some (depotId, gid) :=
        parseManifestName_eq.mpr ⟨depotText, gidText, rfl, hdepotText, hgidText, hdepot, hgid⟩
      have hlenient := (h depotId).mpr ⟨gid, hparsed⟩
      obtain ⟨text, hname, -, -⟩ := (gidFromName_eq hlenient).mp rfl
      obtain ⟨-, hdepotDigits, -, -⟩ := parseUnsigned_eq_some.mp hdepotText
      rw [depotPrefix_append] at hname
      exact (named_inj (underscore_notMem hdepotDigits) (underscore_notMem (toDecimal_all_isDigit _)) hname).1

/-- A purge removes what the lenient reader takes. -/
theorem mem_purgeLoop (front : Bytes) (names : List Bytes) (name : Bytes) :
    name ∈ purgeLoop front (fun _ => false) names ↔ name ∈ names ∧ gidFromName name front ≠ 0 := by
  induction names with
  | nil => simp [purgeLoop]
  | cons other names ih =>
    rw [purgeLoop, if_neg Bool.false_ne_true]
    split_ifs with hother
    · rw [ih, List.mem_cons]
      constructor
      · rintro ⟨hmem, hgid⟩
        exact ⟨.inr hmem, hgid⟩
      · rintro ⟨rfl | hmem, hgid⟩
        · exact absurd hother hgid
        · exact ⟨hmem, hgid⟩
    · rw [List.mem_cons, ih, List.mem_cons]
      constructor
      · rintro (rfl | ⟨hmem, hgid⟩)
        · exact ⟨.inl rfl, hother⟩
        · exact ⟨.inr hmem, hgid⟩
      · rintro ⟨rfl | hmem, hgid⟩
        · exact .inl rfl
        · exact .inr ⟨hmem, hgid⟩

namespace StoreDir

def names (dir : StoreDir) : List Bytes := dir.files.map Prod.fst

/-- Every name is plain, and under the name that the numbers give back stands a valid manifest too. -/
structure WellNamed (dir : StoreDir) : Prop where
  plain : ∀ name ∈ dir.names, Plain name
  canonical : ∀ file ∈ dir.files, isValidManifest file.2 = true → ∀ depotId gid,
    parseManifestName file.1 = some (depotId, gid) → isValidManifest (dir.lookup (manifestName depotId gid)) = true

/-- The fallback is archived in every listing, and the three readers take the same names. -/
structure Reliable (dir : StoreDir) : Prop where
  archived : ∀ entries, dir.Lists entries → ∀ depotId excludeGid, bestArchivedGid entries depotId excludeGid ≠ 0 →
    dir.isArchived depotId (bestArchivedGid entries depotId excludeGid) = true
  recognised : ∀ name ∈ dir.names, ∀ depotId,
    (gidFromName name (depotPrefix depotId) ≠ 0 ↔ ∃ gid, parseManifestName name = some (depotId, gid)) ∧
      (name ∈ purgeLoop (depotPrefix depotId) (fun _ => false) dir.names ↔
        ∃ gid, parseManifestName name = some (depotId, gid))

private theorem archived_of_wellNamed {dir : StoreDir} (h : dir.WellNamed) {entries : List Listed}
    (hlists : dir.Lists entries)
    {depotId : DepotId} {excludeGid : Gid} (hbest : bestArchivedGid entries depotId excludeGid ≠ 0) :
    dir.isArchived depotId (bestArchivedGid entries depotId excludeGid) = true := by
  obtain ⟨e, he, hgid, hvalid, -⟩ := bestLoop_listed (depotPrefix depotId) excludeGid entries 0 hbest
  have hfile : (e.name, e.contents) ∈ dir.files := hlists.subset (List.mem_map.mpr ⟨e, he, rfl⟩)
  have hplain := h.plain e.name (List.mem_map.mpr ⟨_, hfile, rfl⟩)
  have hparsed := (hplain.readers depotId hbest).mp hgid
  obtain ⟨-, -, -, -, -, hdepot, -⟩ := parseManifestName_eq.mp hparsed
  rw [isArchived, h.canonical _ hfile hvalid depotId _ hparsed, Bool.and_true]
  exact decide_eq_true ⟨hdepot, hbest⟩

/-- With its own file listed first and newest, a gid is the fallback of its depot. -/
theorem newest_first (dir : StoreDir) {file : Bytes × Option Bytes} (hfile : file ∈ dir.files)
    (hvalid : isValidManifest file.2 = true) {depotId : DepotId} {gid : Gid} (hgid : gid ≠ 0)
    (hread : gidFromName file.1 (depotPrefix depotId) = gid) :
    ∃ entries, dir.Lists entries ∧ bestArchivedGid entries depotId 0 = gid := by
  refine ⟨⟨file.1, file.2, false, some 1⟩ ::
    (dir.files.erase file).map fun file => ⟨file.1, file.2, false, some 0⟩, ?_, ?_⟩
  · rw [Lists, List.map_cons, List.map_map]
    have hsame : (dir.files.erase file).map ((fun e : Listed => (e.name, e.contents)) ∘
        fun file => ⟨file.1, file.2, false, some 0⟩) = dir.files.erase file := List.map_id _
    rw [hsame]
    exact (List.perm_cons_erase hfile).symm
  · have hcontents : file.2 ≠ none := by
      rintro hnone
      rw [hnone] at hvalid
      cases hvalid
    rw [bestArchivedGid, bestLoop]
    simp only [Bool.false_eq_true, if_false, hread, hcontents, hgid, hvalid, or_self, Bool.true_eq_false, true_or, if_true]
    exact bestLoop_keeps (depotPrefix depotId) 0 (dir.files.erase file) hgid

/-- The fallback is always archived, and the readers agree, exactly in a store whose names are plain and stand for
themselves. -/
theorem fallback_archived_iff (dir : StoreDir) : dir.Reliable ↔ dir.WellNamed := by
  constructor
  · intro h
    have hplain : ∀ name ∈ dir.names, Plain name := by
      intro name hname
      rw [plain_iff]
      exact fun depotId => (h.recognised name hname depotId).1
    refine ⟨hplain, ?_⟩
    intro file hfile hvalid depotId gid hparsed
    obtain ⟨-, -, -, -, -, -, hgid⟩ := parseManifestName_eq.mp hparsed
    have hread := ((hplain file.1 (List.mem_map.mpr ⟨file, hfile, rfl⟩)).readers depotId hgid).mpr hparsed
    obtain ⟨entries, hlists, hbest⟩ := dir.newest_first hfile hvalid hgid hread
    have harchived := h.archived entries hlists depotId 0 (by rw [hbest]; exact hgid)
    rw [hbest, isArchived, Bool.and_eq_true] at harchived
    exact harchived.2
  · intro h
    refine ⟨fun entries hlists depotId excludeGid hbest => archived_of_wellNamed h hlists hbest, ?_⟩
    intro name hname depotId
    have hsame := (plain_iff name).mp (h.plain name hname) depotId
    refine ⟨hsame, ?_⟩
    rw [mem_purgeLoop, and_iff_right hname]
    exact hsame

/-- A copy of a manifest that someone kept under a longer name. -/
def keptCopy : StoreDir := ⟨[(utf8 "5_12abc.manifest", some manifestMagic)], by decide⟩

/-- The copy is offered as gid 12, which the store does not have. -/
theorem copy_offered_not_archived :
    keptCopy.Lists [⟨utf8 "5_12abc.manifest", some manifestMagic, false, some 0⟩] ∧
      bestArchivedGid [⟨utf8 "5_12abc.manifest", some manifestMagic, false, some 0⟩] 5 0 = 12 ∧
        keptCopy.isArchived 5 12 = false ∧ parseManifestName (utf8 "5_12abc.manifest") = none :=
  ⟨List.Perm.refl _, by decide +kernel⟩

end StoreDir

end SlsteamMoon.ManifestStore
