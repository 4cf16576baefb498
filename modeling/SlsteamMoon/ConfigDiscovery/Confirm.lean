import SlsteamMoon.ConfigDiscovery.State

/-! Installed apps from a walk over the steamapps directories, and one app confirmed from the
name that its manifest should have. -/
namespace SlsteamMoon.ConfigDiscovery
open KeyValues ProvisionCache

structure InstalledApps where
  all : List UInt32 := []
  accela : List UInt32 := []
  deriving DecidableEq, Repr

def manifestFront : Bytes := utf8 "appmanifest_"
def manifestEnd : Bytes := utf8 ".acf"

/-- The loop over the digits; none is one of its returns. -/
def digitsValue : Bytes → Nat → Option Nat
  | [], value => some value
  | c :: cs, value =>
    if isDigit c = false then none
    else if value * 10 + decimalValue c > 0xffffffff then none
    else digitsValue cs (value * 10 + decimalValue c)

def appIdFromManifestName (filename : Bytes) : UInt32 :=
  if ¬manifestFront <+: filename ∨ ¬manifestEnd <:+ filename then 0
  else
    let digits := (filename.drop manifestFront.length).take
      (filename.length - manifestFront.length - manifestEnd.length)
    if digits = [] then 0 else UInt32.ofNat ((digitsValue digits 0).getD 0)

/-- One entry of a steamapps directory. -/
def scanEntry (fs : FileSystem) (steamapps : Path) (result : InstalledApps) (name : Bytes) : InstalledApps :=
  if fs.isRegularFile (steamapps / ⟨name⟩) = false then result
  else
    let appId := appIdFromManifestName name
    if appId = 0 then result
    else
      match manifestInstalledState fs steamapps (steamapps / ⟨name⟩) with
      | (false, _) => result
      | (true, isAccela) =>
        { all := result.all.insert appId
          accela := if isAccela then result.accela.insert appId else result.accela }

/-- A directory that cannot be opened is passed over. -/
def scanRoot (fs : FileSystem) (result : InstalledApps) (steamapps : Path) : InstalledApps :=
  ((fs.list steamapps).getD []).foldl (scanEntry fs steamapps) result

def scanInstalledApps (fs : FileSystem) (steamAppsRoots : List Path) : InstalledApps :=
  steamAppsRoots.foldl (scanRoot fs) {}

/-- Whether the app is confirmed, and what isAccela is set to. -/
def confirmInstalledApp (fs : FileSystem) (steamAppsRoots : List Path) (appId : UInt32) : Bool × Bool :=
  if appId = 0 then (false, false)
  else
    let found := steamAppsRoots.findSome? fun steamapps =>
      let manifestPath := steamapps / ⟨manifestName appId⟩
      if fs.isRegularFile manifestPath = false then none
      else
        match manifestInstalledState fs steamapps manifestPath with
        | (true, isAccela) => some isAccela
        | (false, _) => none
    match found with
    | some isAccela => (true, isAccela)
    | none => (false, false)

def recoverRacyScanDrops (freshScan previouslyKnown : List UInt32) (sourceExists : UInt32 → Bool) : List UInt32 :=
  (previouslyKnown.filter fun appId => appId ≠ 0 ∧ appId ∉ freshScan ∧ sourceExists appId).mergeSort (· ≤ ·)

/-- The recovery in loadSettings, after a scan that may have missed entries. -/
def recoverDrops (fs : FileSystem) (steamAppsRoots : List Path) (previous : List UInt32) (installed : InstalledApps) :
    InstalledApps :=
  (recoverRacyScanDrops installed.all previous fun appId => (confirmInstalledApp fs steamAppsRoots appId).1).foldl
    (fun installed appId =>
      match confirmInstalledApp fs steamAppsRoots appId with
      | (true, isAccela) =>
        { all := installed.all.insert appId
          accela := if isAccela then installed.accela.insert appId else installed.accela }
      | (false, _) => installed) installed

-- The name of an id is read back, and so is the name with a zero before it.
example : appIdFromManifestName (manifestName 730) = 730 ∧ appIdFromManifestName (utf8 "appmanifest_0730.acf") = 730 ∧
    appIdFromManifestName (utf8 "appmanifest_4294967296.acf") = 0 := by decide +kernel

section
variable {fs : FileSystem} {roots : List Path} {root : Path} {name : Bytes} {appId : UInt32}

/-- A manifest under this name is one of an installed app, with the mark or without. -/
def Installed (fs : FileSystem) (root : Path) (name : Bytes) (isAccela : Bool) : Prop :=
  fs.isRegularFile (root / ⟨name⟩) = true ∧ manifestInstalledState fs root (root / ⟨name⟩) = (true, isAccela)

/-- What the walk comes across: a manifest of the app in a directory that it can list. -/
def Scanned (fs : FileSystem) (roots : List Path) (appId : UInt32) (isAccela : Bool) : Prop :=
  ∃ root ∈ roots, ∃ names, fs.list root = some names ∧ ∃ name ∈ names,
    appIdFromManifestName name = appId ∧ Installed fs root name isAccela

private theorem scanEntry_eq (fs : FileSystem) (root : Path) (result : InstalledApps) (name : Bytes) :
    (∃ isAccela, appIdFromManifestName name ≠ 0 ∧ Installed fs root name isAccela ∧
      scanEntry fs root result name =
        ⟨result.all.insert (appIdFromManifestName name),
          if isAccela then result.accela.insert (appIdFromManifestName name) else result.accela⟩) ∨
    ((∀ isAccela, ¬(appIdFromManifestName name ≠ 0 ∧ Installed fs root name isAccela)) ∧
      scanEntry fs root result name = result) := by
  rw [scanEntry]
  by_cases hregular : fs.isRegularFile (root / ⟨name⟩) = false
  · rw [if_pos hregular]
    refine .inr ⟨fun isAccela hinstalled => ?_, rfl⟩
    rw [hinstalled.2.1] at hregular
    cases hregular
  · rw [if_neg hregular]
    by_cases hzero : appIdFromManifestName name = 0
    · rw [if_pos hzero]
      exact .inr ⟨fun isAccela hinstalled => hinstalled.1 hzero, rfl⟩
    · rw [if_neg hzero]
      cases hstate : manifestInstalledState fs root (root / ⟨name⟩) with
      | mk installed isAccela =>
        cases installed with
        | true => exact .inl ⟨isAccela, hzero, ⟨Bool.of_not_eq_false hregular, hstate⟩, rfl⟩
        | false =>
          refine .inr ⟨fun isAccela hinstalled => ?_, rfl⟩
          cases hstate.symm.trans hinstalled.2.2

private theorem mem_all_scanEntry (result : InstalledApps) (name : Bytes) :
    appId ∈ (scanEntry fs root result name).all ↔
      appId ∈ result.all ∨
        (appId ≠ 0 ∧ appIdFromManifestName name = appId ∧ ∃ isAccela, Installed fs root name isAccela) := by
  obtain ⟨isAccela, hne, hinstalled, heq⟩ | ⟨hnone, heq⟩ := scanEntry_eq fs root result name
  · rw [heq, List.mem_insert_iff, or_comm]
    refine or_congr_right ⟨?_, fun h => h.2.1.symm⟩
    rintro rfl
    exact ⟨hne, rfl, isAccela, hinstalled⟩
  · rw [heq]
    refine (or_iff_left ?_).symm
    rintro ⟨hne, rfl, isAccela, hinstalled⟩
    exact hnone isAccela ⟨hne, hinstalled⟩

private theorem mem_accela_scanEntry (result : InstalledApps) (name : Bytes) :
    appId ∈ (scanEntry fs root result name).accela ↔
      appId ∈ result.accela ∨ (appId ≠ 0 ∧ appIdFromManifestName name = appId ∧ Installed fs root name true) := by
  obtain ⟨isAccela, hne, hinstalled, heq⟩ | ⟨hnone, heq⟩ := scanEntry_eq fs root result name
  · rw [heq]
    cases isAccela with
    | true =>
      rw [if_pos rfl, List.mem_insert_iff, or_comm]
      refine or_congr_right ⟨?_, fun h => h.2.1.symm⟩
      rintro rfl
      exact ⟨hne, rfl, hinstalled⟩
    | false =>
      rw [if_neg Bool.false_ne_true]
      refine (or_iff_left fun h => ?_).symm
      cases hinstalled.2.symm.trans h.2.2.2
  · rw [heq]
    refine (or_iff_left ?_).symm
    rintro ⟨hne, rfl, hinstalled⟩
    exact hnone true ⟨hne, hinstalled⟩

/-- What a fold gathers, if each of its steps adds what it stands for. -/
theorem mem_foldl_gathers {β γ : Type*} {f : γ → β → γ} (ids : γ → List UInt32) {P : β → Prop}
    (h : ∀ acc b, appId ∈ ids (f acc b) ↔ appId ∈ ids acc ∨ P b) (acc : γ) (items : List β) :
    appId ∈ ids (items.foldl f acc) ↔ appId ∈ ids acc ∨ ∃ b ∈ items, P b := by
  induction items generalizing acc with
  | nil => simp
  | cons b items ih => rw [List.foldl_cons, ih, h, List.exists_mem_cons_iff, or_assoc]

private theorem exists_listed_iff {P : Bytes → Prop} :
    (∃ name ∈ (fs.list root).getD [], P name) ↔ ∃ names, fs.list root = some names ∧ ∃ name ∈ names, P name := by
  cases fs.list root <;> simp

/-- The walk reports the apps that it comes across. -/
theorem mem_all_scan :
    appId ∈ (scanInstalledApps fs roots).all ↔ appId ≠ 0 ∧ ∃ isAccela, Scanned fs roots appId isAccela := by
  have hroot (result : InstalledApps) (root : Path) : appId ∈ (scanRoot fs result root).all ↔ appId ∈ result.all ∨
      ∃ name ∈ (fs.list root).getD [],
        appId ≠ 0 ∧ appIdFromManifestName name = appId ∧ ∃ isAccela, Installed fs root name isAccela := by
    rw [scanRoot]
    exact mem_foldl_gathers InstalledApps.all mem_all_scanEntry result _
  rw [scanInstalledApps, mem_foldl_gathers InstalledApps.all hroot]
  simp only [exists_listed_iff, Scanned, List.not_mem_nil, false_or]
  constructor
  · rintro ⟨root, hmem, names, hlist, name, hname, hne, hid, isAccela, hinstalled⟩
    exact ⟨hne, isAccela, root, hmem, names, hlist, name, hname, hid, hinstalled⟩
  · rintro ⟨hne, isAccela, root, hmem, names, hlist, name, hname, hid, hinstalled⟩
    exact ⟨root, hmem, names, hlist, name, hname, hne, hid, isAccela, hinstalled⟩

private theorem mem_accela_scan :
    appId ∈ (scanInstalledApps fs roots).accela ↔ appId ≠ 0 ∧ Scanned fs roots appId true := by
  have hroot (result : InstalledApps) (root : Path) : appId ∈ (scanRoot fs result root).accela ↔
      appId ∈ result.accela ∨ ∃ name ∈ (fs.list root).getD [],
        appId ≠ 0 ∧ appIdFromManifestName name = appId ∧ Installed fs root name true := by
    rw [scanRoot]
    exact mem_foldl_gathers InstalledApps.accela mem_accela_scanEntry result _
  rw [scanInstalledApps, mem_foldl_gathers InstalledApps.accela hroot]
  simp only [exists_listed_iff, Scanned, List.not_mem_nil, false_or]
  constructor
  · rintro ⟨root, hmem, names, hlist, name, hname, hne, hid, hinstalled⟩
    exact ⟨hne, root, hmem, names, hlist, name, hname, hid, hinstalled⟩
  · rintro ⟨hne, root, hmem, names, hlist, name, hname, hid, hinstalled⟩
    exact ⟨root, hmem, names, hlist, name, hname, hne, hid, hinstalled⟩

/-- The first library that has an installed app under the name, and its mark. -/
def Confirmed (fs : FileSystem) (roots : List Path) (appId : UInt32) (root : Path) (isAccela : Bool) : Prop :=
  ∃ before after, roots = before ++ root :: after ∧ (∀ r ∈ before, ∀ b, ¬Installed fs r (manifestName appId) b) ∧
    Installed fs root (manifestName appId) isAccela

private theorem confirmInstalledApp_eq_true {isAccela : Bool} : confirmInstalledApp fs roots appId = (true, isAccela) ↔
    appId ≠ 0 ∧ ∃ root, Confirmed fs roots appId root isAccela := by
  let found (steamapps : Path) : Option Bool :=
    if fs.isRegularFile (steamapps / ⟨manifestName appId⟩) = false then none
    else
      match manifestInstalledState fs steamapps (steamapps / ⟨manifestName appId⟩) with
      | (true, isAccela) => some isAccela
      | (false, _) => none
  have hfound (root : Path) (b : Bool) : found root = some b ↔ Installed fs root (manifestName appId) b := by
    simp only [found, Installed, Option.ite_none_left_eq_some, Bool.not_eq_false]
    refine and_congr_right fun _ => ?_
    cases manifestInstalledState fs root (root / ⟨manifestName appId⟩) with
    | mk installed mark => cases installed <;> simp
  have hnone (root : Path) : found root = none ↔ ∀ b, ¬Installed fs root (manifestName appId) b := by
    simp only [← hfound]
    exact Option.eq_none_iff_forall_not_mem
  rw [confirmInstalledApp]
  by_cases hzero : appId = 0
  · simp [hzero]
  · rw [if_neg hzero]
    have hfirst : roots.findSome? found = some isAccela ↔ ∃ root, Confirmed fs roots appId root isAccela := by
      simp only [List.findSome?_eq_some_iff, hfound, hnone, Confirmed]
      constructor
      · rintro ⟨before, root, after, hroots, hinstalled, hbefore⟩
        exact ⟨root, before, after, hroots, hbefore, hinstalled⟩
      · rintro ⟨root, before, after, hroots, hbefore, hinstalled⟩
        exact ⟨before, root, after, hroots, hinstalled, hbefore⟩
    rw [← hfirst]
    show (match roots.findSome? found with
      | some isAccela => (true, isAccela)
      | none => (false, false)) = (true, isAccela) ↔ _
    cases roots.findSome? found with
    | none => simp
    | some mark => simp [hzero]

/-- The first of the libraries that have the app. -/
theorem exists_confirmed (h : ∃ root ∈ roots, ∃ b, Installed fs root (manifestName appId) b) :
    ∃ root b, Confirmed fs roots appId root b := by
  induction roots with
  | nil =>
    obtain ⟨root, hmem, -⟩ := h
    cases hmem
  | cons r rest ih =>
    by_cases hr : ∃ b, Installed fs r (manifestName appId) b
    · obtain ⟨b, hb⟩ := hr
      exact ⟨r, b, [], rest, rfl, List.forall_mem_nil _, hb⟩
    · obtain ⟨root, hmem, hroot⟩ := h
      obtain rfl | hmem := List.mem_cons.mp hmem
      · exact absurd hroot hr
      · obtain ⟨first, b, before, after, hrest, hbefore, hfirst⟩ := ih ⟨root, hmem, hroot⟩
        refine ⟨first, b, r :: before, after, by rw [hrest, List.cons_append], ?_, hfirst⟩
        exact List.forall_mem_cons.mpr ⟨not_exists.mp hr, hbefore⟩

private theorem confirmInstalledApp_fst : (confirmInstalledApp fs roots appId).1 = true ↔
    appId ≠ 0 ∧ ∃ root ∈ roots, ∃ isAccela, Installed fs root (manifestName appId) isAccela := by
  constructor
  · intro h
    obtain ⟨hne, root, before, after, rfl, -, hinstalled⟩ :=
      confirmInstalledApp_eq_true.mp (Prod.ext (y := (true, (confirmInstalledApp fs roots appId).2)) h rfl)
    exact ⟨hne, root, by simp, _, hinstalled⟩
  · rintro ⟨hne, hsome⟩
    obtain ⟨root, b, hconfirmed⟩ := exists_confirmed hsome
    rw [confirmInstalledApp_eq_true.mpr ⟨hne, root, hconfirmed⟩]

end

private theorem le_foldl_digits (digits : Bytes) (value : Nat) :
    value ≤ digits.foldl (fun n c => n * 10 + decimalValue c) value := by
  induction digits generalizing value with
  | nil => exact Nat.le_refl value
  | cons c digits ih => exact Nat.le_trans (by omega) (ih (value * 10 + decimalValue c))

/-- The loop reads digits as long as their number fits. -/
theorem digitsValue_eq_some {digits : Bytes} {value : Nat} (hdigits : digits.all isDigit = true)
    (h : digits.foldl (fun n c => n * 10 + decimalValue c) value ≤ 0xffffffff) :
    digitsValue digits value = some (digits.foldl (fun n c => n * 10 + decimalValue c) value) := by
  induction digits generalizing value with
  | nil => rfl
  | cons c digits ih =>
    rw [List.all_cons, Bool.and_eq_true] at hdigits
    have hfits : ¬value * 10 + decimalValue c > 0xffffffff :=
      Nat.not_lt.mpr (Nat.le_trans (le_foldl_digits digits _) h)
    rw [digitsValue, hdigits.1, if_neg Bool.true_eq_false.mp, if_neg hfits, ih hdigits.2 h]
    rfl

/-- The name of an id is read back as the id. -/
theorem appIdFromManifestName_manifestName (appId : UInt32) : appIdFromManifestName (manifestName appId) = appId := by
  have hfront : manifestFront <+: manifestName appId := by
    rw [manifestName, List.append_assoc]
    exact List.prefix_append manifestFront _
  have hend : manifestEnd <:+ manifestName appId := List.suffix_append _ manifestEnd
  have hdigits : ((manifestName appId).drop manifestFront.length).take
      ((manifestName appId).length - manifestFront.length - manifestEnd.length) = toDecimal appId.toNat := by
    have hdrop : (manifestName appId).drop manifestFront.length = toDecimal appId.toNat ++ manifestEnd := by
      rw [manifestName, List.append_assoc]
      exact List.drop_left
    have hlength : (manifestName appId).length - manifestFront.length - manifestEnd.length =
        (toDecimal appId.toNat).length := by
      rw [← List.length_drop, hdrop, List.length_append, Nat.add_sub_cancel]
    rw [hdrop, hlength, List.take_left]
  have hvalue : digitsValue (toDecimal appId.toNat) 0 = some appId.toNat := by
    have hnumber : (toDecimal appId.toNat).foldl (fun n c => n * 10 + decimalValue c) 0 = appId.toNat :=
      numberOf_toDecimal appId.toNat
    have hlt := appId.toNat_lt
    rw [digitsValue_eq_some (toDecimal_all_isDigit _) (by rw [hnumber]; omega), hnumber]
  rw [appIdFromManifestName, if_neg (by simp [hfront, hend])]
  dsimp only
  rw [hdigits, if_neg (toDecimal_ne_nil _), hvalue, Option.getD_some, UInt32.ofNat_toNat]

private theorem manifestName_component (appId : UInt32) : Component (manifestName appId) := by
  have hnot {c : UInt8} (hc : isDigit c = false) (hfront : c ∉ manifestFront) (hend : c ∉ manifestEnd) :
      c ∉ manifestName appId := by
    intro hmem
    obtain hmem | hmem := List.mem_append.mp hmem
    · obtain hmem | hmem := List.mem_append.mp hmem
      · exact hfront hmem
      · rw [List.all_eq_true.mp (toDecimal_all_isDigit _) c hmem] at hc
        cases hc
    · exact hend hmem
  have hlong : 2 < (manifestName appId).length := by
    have hfront : manifestFront.length = 12 := by decide +kernel
    have hname : (manifestName appId).length =
        manifestFront.length + (toDecimal appId.toNat).length + manifestEnd.length := by
      rw [manifestName, List.length_append, List.length_append]
      rfl
    omega
  refine ⟨fun h => ?_, hnot (by decide) (by decide +kernel) (by decide +kernel),
    hnot (by decide) (by decide +kernel) (by decide +kernel), fun h => ?_, fun h => ?_⟩
  · rw [h] at hlong
    exact absurd hlong (by decide)
  · rw [h] at hlong
    exact absurd hlong (by decide +kernel)
  · rw [h] at hlong
    exact absurd hlong (by decide +kernel)

section
variable {fs : FileSystem} {roots : List Path} {appId : UInt32}

theorem confirmInstalledApp_zero : confirmInstalledApp fs roots 0 = (false, false) := rfl

private theorem mem_recoverRacyScanDrops {freshScan previous : List UInt32} {sourceExists : UInt32 → Bool} :
    appId ∈ recoverRacyScanDrops freshScan previous sourceExists ↔
      appId ∈ previous ∧ appId ≠ 0 ∧ appId ∉ freshScan ∧ sourceExists appId = true := by
  simp [recoverRacyScanDrops, List.mem_filter]

/-- The recovery adds the known apps that are confirmed. -/
theorem mem_all_recoverDrops {previous : List UInt32} {installed : InstalledApps} :
    appId ∈ (recoverDrops fs roots previous installed).all ↔
      appId ∈ installed.all ∨ (appId ∈ previous ∧ (confirmInstalledApp fs roots appId).1 = true) := by
  rw [recoverDrops, mem_foldl_gathers InstalledApps.all
    (P := fun dropped => dropped = appId ∧ (confirmInstalledApp fs roots appId).1 = true)]
  · constructor
    · rintro (h | ⟨dropped, hdropped, rfl, hconfirmed⟩)
      · exact .inl h
      · exact .inr ⟨(mem_recoverRacyScanDrops.mp hdropped).1, hconfirmed⟩
    · rintro (h | ⟨hprevious, hconfirmed⟩)
      · exact .inl h
      · by_cases hseen : appId ∈ installed.all
        · exact .inl hseen
        · have hne : appId ≠ 0 := by
            rintro rfl
            cases hconfirmed
          exact .inr ⟨appId, mem_recoverRacyScanDrops.mpr ⟨hprevious, hne, hseen, hconfirmed⟩, rfl, hconfirmed⟩
  · intro acc dropped
    split
    · next isAccela hconfirmed =>
      rw [List.mem_insert_iff, or_comm]
      refine or_congr_right ⟨?_, fun h => h.1.symm⟩
      rintro rfl
      exact ⟨rfl, by rw [hconfirmed]⟩
    · next isAccela hconfirmed =>
      refine (or_iff_left ?_).symm
      rintro ⟨rfl, htrue⟩
      rw [hconfirmed] at htrue
      cases htrue

private theorem mem_accela_recoverDrops {previous : List UInt32} {installed : InstalledApps} :
    appId ∈ (recoverDrops fs roots previous installed).accela ↔ appId ∈ installed.accela ∨
      (appId ∈ previous ∧ appId ∉ installed.all ∧ confirmInstalledApp fs roots appId = (true, true)) := by
  rw [recoverDrops, mem_foldl_gathers InstalledApps.accela
    (P := fun dropped => dropped = appId ∧ confirmInstalledApp fs roots appId = (true, true))]
  · constructor
    · rintro (h | ⟨dropped, hdropped, rfl, hconfirmed⟩)
      · exact .inl h
      · obtain ⟨hprevious, -, hseen, -⟩ := mem_recoverRacyScanDrops.mp hdropped
        exact .inr ⟨hprevious, hseen, hconfirmed⟩
    · rintro (h | ⟨hprevious, hseen, hconfirmed⟩)
      · exact .inl h
      · have hne : appId ≠ 0 := by
          rintro rfl
          cases hconfirmed
        exact .inr ⟨appId, mem_recoverRacyScanDrops.mpr ⟨hprevious, hne, hseen, by rw [hconfirmed]⟩, rfl, hconfirmed⟩
  · intro acc dropped
    split
    · next isAccela hconfirmed =>
      cases isAccela with
      | true =>
        rw [if_pos rfl, List.mem_insert_iff, or_comm]
        refine or_congr_right ⟨?_, fun h => h.1.symm⟩
        rintro rfl
        exact ⟨rfl, hconfirmed⟩
      | false =>
        rw [if_neg Bool.false_ne_true]
        refine (or_iff_left ?_).symm
        rintro ⟨rfl, htrue⟩
        cases hconfirmed.symm.trans htrue
    · next isAccela hconfirmed =>
      refine (or_iff_left ?_).symm
      rintro ⟨rfl, htrue⟩
      cases hconfirmed.symm.trans htrue

/-- The walk and the confirmation report the same apps with the same marks, and the recovery
after a walk that missed some adds what a complete one reports. -/
def Agree (fs : FileSystem) (roots : List Path) : Prop :=
  ∀ appId : UInt32,
    (appId ∈ (scanInstalledApps fs roots).all ↔ (confirmInstalledApp fs roots appId).1 = true) ∧
    ((confirmInstalledApp fs roots appId).1 = true →
      (appId ∈ (scanInstalledApps fs roots).accela ↔ (confirmInstalledApp fs roots appId).2 = true)) ∧
    ∀ (previous : List UInt32) (missed : InstalledApps),
      (appId ∈ (recoverDrops fs roots previous missed).all ↔
        appId ∈ missed.all ∨ (appId ∈ previous ∧ appId ∈ (scanInstalledApps fs roots).all)) ∧
      (appId ∈ (recoverDrops fs roots previous missed).accela ↔ appId ∈ missed.accela ∨
        (appId ∈ previous ∧ appId ∉ missed.all ∧ appId ∈ (scanInstalledApps fs roots).accela))

/-- Every installed app is reached both ways. -/
structure Uniform (fs : FileSystem) (roots : List Path) : Prop where
  /-- beside a manifest whose id is spelled otherwise, some library has the plain one -/
  plain : ∀ root ∈ roots, ∀ names, fs.list root = some names → ∀ name ∈ names, ∀ isAccela,
    appIdFromManifestName name ≠ 0 → name ≠ manifestName (appIdFromManifestName name) →
    Installed fs root name isAccela →
      ∃ other ∈ roots, ∃ b, Installed fs other (manifestName (appIdFromManifestName name)) b
  /-- an app in a directory that cannot be opened is also in one that can -/
  opened : ∀ root ∈ roots, fs.list root = none → ∀ appId ≠ 0, ∀ isAccela,
    Installed fs root (manifestName appId) isAccela → ∃ b, Scanned fs roots appId b
  /-- the first library with the app has the mark, where any manifest that is listed has it -/
  marked : ∀ appId ≠ 0, Scanned fs roots appId true → ∀ root isAccela,
    Confirmed fs roots appId root isAccela → isAccela = true
  /-- and where that library has the mark but cannot be opened, one that can has it too -/
  listed : ∀ appId ≠ 0, ∀ root, fs.list root = none → Confirmed fs roots appId root true →
    Scanned fs roots appId true

/-- What can be listed is scanned. -/
theorem scanned_of_installed {root : Path} {names : List Bytes} {isAccela : Bool} (hmem : root ∈ roots)
    (hlist : fs.list root = some names) (h : Installed fs root (manifestName appId) isAccela) :
    Scanned fs roots appId isAccela :=
  ⟨root, hmem, names, hlist, manifestName appId,
    fs.listed root names (manifestName appId) hlist (manifestName_component appId) h.1,
    appIdFromManifestName_manifestName appId, h⟩

theorem Confirmed.mem {root : Path} {isAccela : Bool} (h : Confirmed fs roots appId root isAccela) : root ∈ roots := by
  obtain ⟨before, after, rfl, -⟩ := h
  simp

theorem Confirmed.installed {root : Path} {isAccela : Bool} (h : Confirmed fs roots appId root isAccela) :
    Installed fs root (manifestName appId) isAccela := by
  obtain ⟨before, after, -, -, hinstalled⟩ := h
  exact hinstalled

private theorem all_iff_of_uniform (h : Uniform fs roots) (appId : UInt32) :
    appId ∈ (scanInstalledApps fs roots).all ↔ (confirmInstalledApp fs roots appId).1 = true := by
  rw [mem_all_scan, confirmInstalledApp_fst]
  refine and_congr_right fun hne => ?_
  constructor
  · rintro ⟨isAccela, root, hmem, names, hlist, name, hname, rfl, hinstalled⟩
    by_cases hplain : name = manifestName (appIdFromManifestName name)
    · exact ⟨root, hmem, isAccela, hplain ▸ hinstalled⟩
    · exact h.plain root hmem names hlist name hname isAccela hne hplain hinstalled
  · rintro ⟨root, hmem, isAccela, hinstalled⟩
    cases hlist : fs.list root with
    | none => exact h.opened root hmem hlist appId hne isAccela hinstalled
    | some names => exact ⟨isAccela, scanned_of_installed hmem hlist hinstalled⟩

private theorem accela_iff_of_uniform (h : Uniform fs roots) (appId : UInt32) :
    appId ∈ (scanInstalledApps fs roots).accela ↔ confirmInstalledApp fs roots appId = (true, true) := by
  rw [mem_accela_scan, confirmInstalledApp_eq_true]
  refine and_congr_right fun hne => ?_
  constructor
  · intro hscanned
    have hall : (confirmInstalledApp fs roots appId).1 = true :=
      (all_iff_of_uniform h appId).mp (mem_all_scan.mpr ⟨hne, true, hscanned⟩)
    obtain ⟨root, isAccela, hconfirmed⟩ := exists_confirmed (confirmInstalledApp_fst.mp hall).2
    obtain rfl := h.marked appId hne hscanned root isAccela hconfirmed
    exact ⟨root, hconfirmed⟩
  · rintro ⟨root, hconfirmed⟩
    cases hlist : fs.list root with
    | none => exact h.listed appId hne root hlist hconfirmed
    | some names => exact scanned_of_installed hconfirmed.mem hlist hconfirmed.installed

/-- Scan and confirmation agree just when every installed app is reached both ways. -/
theorem scan_confirm_agree_iff (fs : FileSystem) (roots : List Path) : Agree fs roots ↔ Uniform fs roots := by
  constructor
  · intro h
    have hall {appId : UInt32} {isAccela : Bool} (hne : appId ≠ 0) (hscanned : Scanned fs roots appId isAccela) :
        (confirmInstalledApp fs roots appId).1 = true := (h appId).1.mp (mem_all_scan.mpr ⟨hne, isAccela, hscanned⟩)
    exact
      { plain := fun root hmem names hlist name hname isAccela hne _ hinstalled =>
          (confirmInstalledApp_fst.mp (hall hne ⟨root, hmem, names, hlist, name, hname, rfl, hinstalled⟩)).2
        opened := fun root hmem _ appId hne isAccela hinstalled => by
          have hconfirmed := confirmInstalledApp_fst.mpr ⟨hne, root, hmem, isAccela, hinstalled⟩
          exact (mem_all_scan.mp ((h appId).1.mpr hconfirmed)).2
        marked := fun appId hne hscanned root isAccela hconfirmed => by
          have hmark := ((h appId).2.1 (hall hne hscanned)).mp (mem_accela_scan.mpr ⟨hne, hscanned⟩)
          rw [confirmInstalledApp_eq_true.mpr ⟨hne, root, hconfirmed⟩] at hmark
          exact hmark
        listed := fun appId hne root _ hconfirmed => by
          have heq := confirmInstalledApp_eq_true.mpr ⟨hne, root, hconfirmed⟩
          exact (mem_accela_scan.mp (((h appId).2.1 (by rw [heq])).mpr (by rw [heq]))).2 }
  · intro h appId
    have hall := all_iff_of_uniform h appId
    have haccela := accela_iff_of_uniform h appId
    refine ⟨hall, fun hfirst => ?_, fun previous missed => ⟨?_, ?_⟩⟩
    · rw [haccela, Prod.ext_iff, hfirst]
      simp
    · rw [mem_all_recoverDrops, hall]
    · rw [mem_accela_recoverDrops, haccela]

end

/-- One library with one installed app, whose manifest spells the id with zeros. -/
def spelledOtherwise : FileSystem where
  contents p := if p = ⟨utf8 "/s/appmanifest_007.acf"⟩ then some (utf8 "\"installdir\" \"g\"") else none
  isRegularFile p := p = ⟨utf8 "/s/appmanifest_007.acf"⟩
  isDirectory p := p ≠ ⟨utf8 "/s/appmanifest_007.acf"⟩
  present _ := false
  list p :=
    if p = ⟨utf8 "/s"⟩ then some [utf8 "appmanifest_007.acf"]
    else if p = ⟨utf8 "/s/common/g"⟩ then some [utf8 "bin"]
    else none
  listed dir names name hlist hname hregular := by
    have hrelative := component_relative hname
    have hpath := of_decide_eq_true hregular
    split_ifs at hlist with hroot hgame <;> cases hlist
    · rw [hroot, Path.slash_eq (by decide +kernel) (by decide +kernel) hrelative, Path.mk.injEq] at hpath
      have hsplit : utf8 "/s/appmanifest_007.acf" = utf8 "/s" ++ slash :: utf8 "appmanifest_007.acf" := by
        decide +kernel
      rw [hsplit, List.append_cancel_left_eq, List.cons.injEq] at hpath
      exact List.mem_singleton.mpr hpath.2
    · rw [hgame, Path.slash_eq (by decide +kernel) (by decide +kernel) hrelative, Path.mk.injEq] at hpath
      have hfront := congrArg (List.take 4) hpath
      rw [List.take_append_of_le_length (by decide +kernel)] at hfront
      exact absurd hfront (by decide +kernel)

/-- The walk reports the app, and the confirmation looks for another name. -/
theorem spelled_otherwise_dropped : ¬ ∀ (fs : FileSystem) (roots : List Path), Agree fs roots := by
  intro hclaim
  have hscan : (7 : UInt32) ∈ (scanInstalledApps spelledOtherwise [⟨utf8 "/s"⟩]).all := by decide +kernel
  have hconfirm := (hclaim spelledOtherwise [⟨utf8 "/s"⟩] 7).1.mp hscan
  exact absurd hconfirm (by decide +kernel)

end SlsteamMoon.ConfigDiscovery
