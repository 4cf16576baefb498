import SlsteamMoon.ConfigDiscovery.State

/-! The directory in which executables are rewritten. It is found by a second reader of
installdir, line by line and without the checks of the first. -/
namespace SlsteamMoon.ConfigDiscovery
open KeyValues ProvisionCache TextSearch

/-- The value of the first line that has both the key and a value. -/
def lineField (text key : Bytes) : Option Bytes := (textLines text).findSome? fun line => field line key

def steamRoots : List Bytes :=
  [utf8 ".steam/steam", utf8 ".steam/debian-installation", utf8 ".local/share/Steam"]

def steamappsDir : Path := ⟨utf8 "steamapps"⟩

/-- A root that exists, with the libraries that its libraryfolders.vdf lists. -/
def rootsOf (fs : FileSystem) (root : Path) : List Path :=
  if fs.present root = false then []
  else
    let libVdf := root / steamappsDir / ⟨utf8 "libraryfolders.vdf"⟩
    let extras := if fs.present libVdf then (fs.contents libVdf).getD [] else []
    root / steamappsDir ::
      (textLines extras).filterMap fun line => (field line (utf8 "path")).map fun extra => ⟨extra⟩ / steamappsDir

def libraryRoots (fs : FileSystem) (home : Path) : List Path :=
  steamRoots.flatMap fun root => rootsOf fs (home / ⟨root⟩)

def manifestPath (libroot : Path) (appId : UInt32) : Path := libroot / ⟨manifestName appId⟩

/-- The loop body for one library: the directory that it returns. -/
def installDirIn (fs : FileSystem) (appId : UInt32) (libroot : Path) : Option Path :=
  if fs.present (manifestPath libroot appId) = false then none
  else
    let text := (fs.contents (manifestPath libroot appId)).getD []
    let installdir := (lineField text (utf8 "installdir")).getD []
    if installdir = [] then none else some (libroot / commonDir / ⟨installdir⟩)

/-- `home` is none when HOME is not set; none is the empty string. -/
def findInstallDir (fs : FileSystem) (home : Option Path) (appId : UInt32) : Option Path :=
  home.bind fun home => (libraryRoots fs home).findSome? (installDirIn fs appId)

/-- The value stands in the first line that has one. -/
def LineHolds (text key value : Bytes) : Prop :=
  ∃ before line after, textLines text = before ++ line :: after ∧ (∀ l ∈ before, ∀ v, ¬Holds l key v) ∧
    Holds line key value

private theorem lineField_eq_some_iff {text key value : Bytes} :
    lineField text key = some value ↔ LineHolds text key value := by
  rw [lineField, List.findSome?_eq_some_iff]
  constructor
  · rintro ⟨before, line, after, hlines, hvalue, hnone⟩
    refine ⟨before, line, after, hlines, fun l hl v hv => ?_, field_eq_some_iff.mp hvalue⟩
    have hfield := field_eq_some_iff.mpr hv
    rw [hnone l hl] at hfield
    cases hfield
  · rintro ⟨before, line, after, hlines, hnone, hvalue⟩
    refine ⟨before, line, after, hlines, field_eq_some_iff.mpr hvalue, fun l hl => ?_⟩
    exact Option.eq_none_iff_forall_not_mem.mpr fun v hv => hnone l hl v (field_eq_some_iff.mp hv)

/-- The library whose manifest the directory is read from, and the manifest. -/
def FoundIn (fs : FileSystem) (home : Option Path) (appId : UInt32) (library : Path) (dir : Path) : Prop :=
  ∃ h ∈ home, ∃ before after, libraryRoots fs h = before ++ library :: after ∧
    (∀ l ∈ before, installDirIn fs appId l = none) ∧ installDirIn fs appId library = some dir

private theorem findInstallDir_eq_some_iff {fs : FileSystem} {home : Option Path} {appId : UInt32} {dir : Path} :
    findInstallDir fs home appId = some dir ↔ ∃ library, FoundIn fs home appId library dir := by
  simp only [findInstallDir, Option.bind_eq_some_iff, List.findSome?_eq_some_iff, FoundIn]
  constructor
  · rintro ⟨h, hhome, before, library, after, hroots, hdir, hnone⟩
    exact ⟨library, h, hhome, before, after, hroots, hnone, hdir⟩
  · rintro ⟨library, h, hhome, before, after, hroots, hnone, hdir⟩
    exact ⟨h, hhome, before, library, after, hroots, hdir, hnone⟩

/-- A library is found once. -/
theorem FoundIn.unique {fs : FileSystem} {home : Option Path} {appId : UInt32} {library library' dir dir' : Path}
    (h : FoundIn fs home appId library dir) (h' : FoundIn fs home appId library' dir') : library' = library := by
  obtain ⟨root, hhome, before, after, hroots, hnone, hdir⟩ := h
  obtain ⟨root', hhome', before', after', hroots', hnone', hdir'⟩ := h'
  obtain rfl : root = root' := Option.some.inj (hhome.symm.trans hhome')
  let tagged (l : Path) : Option (Path × Path) := (installDirIn fs appId l).map fun d => (l, d)
  have htagged {l : Path} (hl : installDirIn fs appId l = none) : tagged l = none := Option.map_eq_none_iff.mpr hl
  have hfirst : (libraryRoots fs root).findSome? tagged = some (library, dir) := by
    rw [List.findSome?_eq_some_iff]
    exact ⟨before, library, after, hroots, Option.map_eq_some_iff.mpr ⟨dir, hdir, rfl⟩,
      fun l hl => htagged (hnone l hl)⟩
  have hsecond : (libraryRoots fs root).findSome? tagged = some (library', dir') := by
    rw [List.findSome?_eq_some_iff]
    exact ⟨before', library', after', hroots', Option.map_eq_some_iff.mpr ⟨dir', hdir', rfl⟩,
      fun l hl => htagged (hnone' l hl)⟩
  exact (Prod.mk.inj (Option.some.inj (hsecond.symm.trans hfirst))).1

/-- The manifest of a library names this install directory, line by line. -/
def Names (fs : FileSystem) (appId : UInt32) (library : Path) (text value : Bytes) : Prop :=
  fs.present (manifestPath library appId) = true ∧ fs.contents (manifestPath library appId) = some text ∧
    LineHolds text (utf8 "installdir") value ∧ value ≠ []

/-- The first library whose manifest names an install directory. -/
def Serves (fs : FileSystem) (home : Option Path) (appId : UInt32) (library : Path) (text value : Bytes) : Prop :=
  ∃ h ∈ home, ∃ before after, libraryRoots fs h = before ++ library :: after ∧
    (∀ l ∈ before, ∀ t v, ¬Names fs appId l t v) ∧ Names fs appId library text value

private theorem lineField_nil (key : Bytes) : lineField [] key = none := rfl

private theorem installDirIn_eq_some_iff {fs : FileSystem} {appId : UInt32} {library dir : Path} :
    installDirIn fs appId library = some dir ↔
      ∃ text value, Names fs appId library text value ∧ dir = library / commonDir / ⟨value⟩ := by
  rw [installDirIn]
  constructor
  · intro h
    obtain ⟨hpresent, h⟩ := Option.ite_none_left_eq_some.mp h
    obtain ⟨hvalue, h⟩ := Option.ite_none_left_eq_some.mp h
    cases hcontents : fs.contents (manifestPath library appId) with
    | none =>
      rw [hcontents] at hvalue
      exact absurd (by rw [Option.getD_none, lineField_nil, Option.getD_none]) hvalue
    | some text =>
      rw [hcontents, Option.getD_some] at hvalue h
      cases hline : lineField text (utf8 "installdir") with
      | none =>
        rw [hline] at hvalue
        exact absurd rfl hvalue
      | some value =>
        rw [hline, Option.getD_some] at hvalue h
        exact ⟨text, value, ⟨Bool.of_not_eq_false hpresent, hcontents, lineField_eq_some_iff.mp hline, hvalue⟩,
          (Option.some.inj h).symm⟩
  · rintro ⟨text, value, ⟨hpresent, hcontents, hline, hvalue⟩, rfl⟩
    rw [hpresent, hcontents, if_neg Bool.true_eq_false.mp]
    dsimp only
    rw [Option.getD_some, lineField_eq_some_iff.mpr hline, Option.getD_some, if_neg hvalue]

private theorem installDirIn_eq_none_iff {fs : FileSystem} {appId : UInt32} {library : Path} :
    installDirIn fs appId library = none ↔ ∀ text value, ¬Names fs appId library text value := by
  rw [Option.eq_none_iff_forall_not_mem]
  constructor
  · intro h text value hnames
    exact h _ (installDirIn_eq_some_iff.mpr ⟨text, value, hnames, rfl⟩)
  · intro h dir hdir
    obtain ⟨text, value, hnames, -⟩ := installDirIn_eq_some_iff.mp hdir
    exact h text value hnames

private theorem foundIn_iff {fs : FileSystem} {home : Option Path} {appId : UInt32} {library dir : Path} :
    FoundIn fs home appId library dir ↔
      ∃ text value, Serves fs home appId library text value ∧ dir = library / commonDir / ⟨value⟩ := by
  constructor
  · rintro ⟨h, hhome, before, after, hroots, hnone, hdir⟩
    obtain ⟨text, value, hnames, rfl⟩ := installDirIn_eq_some_iff.mp hdir
    exact ⟨text, value, ⟨h, hhome, before, after, hroots, fun l hl => installDirIn_eq_none_iff.mp (hnone l hl), hnames⟩,
      rfl⟩
  · rintro ⟨text, value, ⟨h, hhome, before, after, hroots, hnone, hnames⟩, rfl⟩
    exact ⟨h, hhome, before, after, hroots, fun l hl => installDirIn_eq_none_iff.mpr (hnone l hl),
      installDirIn_eq_some_iff.mpr ⟨text, value, hnames, rfl⟩⟩

/-- The directory is a component of common/, and the component is what the checked reader
accepts of the same manifest. -/
def InsideGame (fs : FileSystem) (appId : UInt32) (library dir : Path) : Prop :=
  ∃ text d, fs.contents (manifestPath library appId) = some text ∧ Component d ∧
    acceptedInstallDir text = some ⟨d⟩ ∧ dir = library / commonDir / ⟨d⟩

private theorem common_ends (library : Path) : ∃ front, (library / commonDir).text = front ++ utf8 "common" := by
  show ∃ front, (library.append commonDir).text = front ++ utf8 "common"
  rw [Path.append]
  split_ifs
  · exact ⟨[], rfl⟩
  · exact ⟨library.text, rfl⟩
  · exact ⟨library.text ++ [slash], by rw [List.append_assoc]; rfl⟩

private theorem common_slash {library : Path} {name : Bytes} (h : Path.isAbsolute ⟨name⟩ = false) :
    library / commonDir / ⟨name⟩ = ⟨(library / commonDir).text ++ slash :: name⟩ := by
  obtain ⟨front, hfront⟩ := common_ends library
  have hcommon : utf8 "common" ≠ [] ∧ (utf8 "common").getLast? = some 0x6e := by decide +kernel
  have hne : (library / commonDir).text ≠ [] := by
    rw [hfront]
    exact List.append_ne_nil_of_right_ne_nil front hcommon.1
  have hlast : (library / commonDir).text.getLast? ≠ some slash := by
    rw [hfront, List.getLast?_append_of_ne_nil _ hcommon.1, hcommon.2]
    decide
  exact Path.slash_eq hne hlast h

/-- Below one library the directory tells the name, unless the name is a whole path. -/
theorem common_slash_eq_iff {library : Path} {d value : Bytes} (hd : Component d) :
    library / commonDir / ⟨value⟩ = library / commonDir / ⟨d⟩ ↔
      value = d ∨ (Path.isAbsolute ⟨value⟩ = true ∧ (⟨value⟩ : Path) = library / commonDir / ⟨d⟩) := by
  cases habsolute : Path.isAbsolute ⟨value⟩ with
  | true =>
    have hvalue : library / commonDir / ⟨value⟩ = ⟨value⟩ := if_pos (.inl habsolute)
    rw [hvalue]
    constructor
    · exact fun h => .inr ⟨rfl, h⟩
    · rintro (rfl | ⟨-, h⟩)
      · rw [component_relative hd] at habsolute
        cases habsolute
      · exact h
  | false =>
    rw [common_slash habsolute, common_slash (component_relative hd), Path.mk.injEq, List.append_cancel_left_eq,
      List.cons.injEq]
    simp

/-- The tree in which executables are rewritten is a directory of common/ just when the
first library that serves a directory has, as the first installdir of the whole manifest,
the component that its line names. -/
theorem install_dir_inside_game_iff (fs : FileSystem) (home : Option Path) (appId : UInt32) :
    (∀ dir, findInstallDir fs home appId = some dir →
      ∃ library, FoundIn fs home appId library dir ∧ InsideGame fs appId library dir) ↔
    ∀ library text value, Serves fs home appId library text value →
      ∃ d, Component d ∧ Holds text (utf8 "installdir") d ∧
        (value = d ∨ (Path.isAbsolute ⟨value⟩ = true ∧ (⟨value⟩ : Path) = library / commonDir / ⟨d⟩)) := by
  constructor
  · intro h library text value hserves
    have hfound : FoundIn fs home appId library (library / commonDir / ⟨value⟩) :=
      foundIn_iff.mpr ⟨text, value, hserves, rfl⟩
    obtain ⟨library', hfound', text', d, htext, hd, haccepted, hdir⟩ :=
      h _ (findInstallDir_eq_some_iff.mpr ⟨library, hfound⟩)
    obtain rfl := hfound.unique hfound'
    obtain ⟨-, -, -, -, -, -, -, hcontents, -, -⟩ := hserves
    obtain rfl : text = text' := Option.some.inj (hcontents.symm.trans htext)
    exact ⟨d, hd, (acceptedInstallDir_eq_some hd).mp haccepted, (common_slash_eq_iff hd).mp hdir⟩
  · intro h dir hdir
    obtain ⟨library, hfound⟩ := findInstallDir_eq_some_iff.mp hdir
    obtain ⟨text, value, hserves, rfl⟩ := foundIn_iff.mp hfound
    obtain ⟨d, hd, hholds, hvalue⟩ := h library text value hserves
    obtain ⟨-, -, -, -, -, -, -, hcontents, -, -⟩ := hserves
    exact ⟨library, hfound, text, d, hcontents, hd, (acceptedInstallDir_eq_some hd).mpr hholds,
      (common_slash_eq_iff hd).mpr hvalue⟩

/-- One manifest below one Steam root, in a file system that lists nothing. -/
def loneManifest (root manifest : Path) (text : Bytes) : FileSystem where
  contents p := if p = manifest then some text else none
  isRegularFile p := p = manifest
  isDirectory p := p ≠ manifest
  present p := p = manifest ∨ p = root
  list _ := none
  listed _ _ _ h := by cases h

/-- The parent directory is named, and the tree of the whole library is walked. -/
theorem install_dir_escapes :
    ¬ ∀ (fs : FileSystem) (home : Option Path) (appId : UInt32) (dir : Path), findInstallDir fs home appId = some dir →
      ∃ library, FoundIn fs home appId library dir ∧ InsideGame fs appId library dir := by
  intro hclaim
  let fs := loneManifest ⟨utf8 "/h/.steam/steam"⟩ ⟨utf8 "/h/.steam/steam/steamapps/appmanifest_7.acf"⟩
    (utf8 "\"installdir\" \"..\"")
  have hdir : findInstallDir fs (some ⟨utf8 "/h"⟩) 7 = some ⟨utf8 "/h/.steam/steam/steamapps/common/.."⟩ := by
    decide +kernel
  obtain ⟨library, -, text, d, hcontents, -, haccepted, -⟩ := hclaim fs _ 7 _ hdir
  have htext : text = utf8 "\"installdir\" \"..\"" := (Option.some.inj (Option.ite_none_right_eq_some.mp hcontents).2).symm
  have hnone : acceptedInstallDir (utf8 "\"installdir\" \"..\"") = none := by decide +kernel
  rw [htext, hnone] at haccepted
  cases haccepted

end SlsteamMoon.ConfigDiscovery
