import SlsteamMoon.TextSearch
import SlsteamMoon.ManifestPlan.Planner
import SlsteamMoon.ProvisionCache.CmVdf

/-! Manifest files: their names, which one reader takes strictly and one leniently, and what makes a content valid. -/
namespace SlsteamMoon.ManifestStore
open KeyValues ProvisionCache TextSearch ManifestPlan

def underscore : UInt8 := 0x5f

def manifestSuffix : Bytes := utf8 ".manifest"

def depotPrefix (depotId : DepotId) : Bytes := toDecimal depotId.toNat ++ [underscore]

def manifestName (depotId : DepotId) (gid : Gid) : Bytes :=
  depotPrefix depotId ++ (toDecimal gid.toNat ++ manifestSuffix)

/-- White space and a sign may stand before the digits, and anything behind them; none is an exception. -/
def stoull (text : Bytes) : Option UInt64 :=
  let body := text.dropWhile isSpace
  let digits := (if body.head? = some 0x2b ∨ body.head? = some 0x2d then body.tail else body).takeWhile isDigit
  let number := numberOf 10 decimalValue digits
  if digits = [] ∨ 0x10000000000000000 ≤ number then none
  else if body.head? = some 0x2d then some (0 - UInt64.ofNat number)
  else some (UInt64.ofNat number)

def gidFromName (name front : Bytes) : Gid :=
  if ¬front <+: name then 0
  else if ¬manifestSuffix <:+ name then 0
  else
    let gidStr := (name.drop front.length).take (name.length - manifestSuffix.length - front.length)
    if gidStr = [] then 0 else (stoull gidStr).getD 0

def parseManifestName (name : Bytes) : Option (DepotId × Gid) :=
  if ¬manifestSuffix <:+ name then none
  else
    match upTo underscore (name.take (name.length - manifestSuffix.length)) with
    | none => none
    | some (depotText, gidText) =>
      if depotText = [] ∨ gidText = [] ∨ underscore ∈ gidText then none
      else
        match parseUnsigned depotText with
        | none => none
        | some depot =>
          if depot = 0 ∨ maxUInt32 < depot then none
          else
            match parseUnsigned gidText with
            | none => none
            | some gid => if gid = 0 then none else some (UInt32.ofNat depot, UInt64.ofNat gid)

def manifestMagic : Bytes := [0xd0, 0x17, 0xf6, 0x71]

/-- A regular file of four bytes or more that begins with the magic number. -/
def isValidManifest : Option Bytes → Bool
  | none => false
  | some contents => decide (4 ≤ contents.length) && contents.take 4 == manifestMagic

example : parseManifestName (manifestName 5 12) = some (5, 12) := by decide +kernel

-- Both readers give 12 for the first name, and only the lenient one for the second.
example : gidFromName (utf8 "5_012.manifest") (depotPrefix 5) = 12 ∧
    parseManifestName (utf8 "5_012.manifest") = some (5, 12) ∧
    gidFromName (utf8 "5_12abc.manifest") (depotPrefix 5) = 12 ∧
    parseManifestName (utf8 "5_12abc.manifest") = none := by decide +kernel

/-- The parts of a name around its first underscore. -/
theorem named_inj {front front' text text' : Bytes} (h : underscore ∉ front) (h' : underscore ∉ front')
    (hsame : front ++ underscore :: (text ++ manifestSuffix) = front' ++ underscore :: (text' ++ manifestSuffix)) :
    front = front' ∧ text = text' := by
  have hsplit : some (front, text ++ manifestSuffix) = some (front', text' ++ manifestSuffix) := by
    rw [← upTo_append h, hsame, upTo_append h']
  obtain ⟨hfront, htext⟩ := Prod.mk.inj (Option.some.inj hsplit)
  exact ⟨hfront, List.append_cancel_right htext⟩

theorem underscore_notMem {text : Bytes} (h : text.all isDigit = true) : underscore ∉ text := by
  intro hmem
  exact absurd (List.all_eq_true.mp h underscore hmem) (by decide)

theorem parseUnsigned_eq_some {text : Bytes} {number : Nat} :
    parseUnsigned text = some number ↔
      text ≠ [] ∧ text.all isDigit = true ∧ number < 0x10000000000000000 ∧
        numberOf 10 decimalValue text = number := by
  simp only [parseUnsigned]
  split_ifs with h
  · obtain ⟨hne, hdigits, hsmall⟩ := h
    rw [Option.some.injEq]
    exact ⟨fun hnumber => ⟨hne, hdigits, hnumber ▸ hsmall, hnumber⟩, fun hnumber => hnumber.2.2.2⟩
  · refine ⟨nofun, fun hall => absurd ⟨hall.1, hall.2.1, ?_⟩ h⟩
    rw [hall.2.2.2]
    exact hall.2.2.1

/-- Both readers give the same number for digits alone. -/
theorem stoull_digits {text : Bytes} (hne : text ≠ []) (hdigits : text.all isDigit = true) :
    stoull text = (parseUnsigned text).map UInt64.ofNat := by
  obtain ⟨c, rest, rfl⟩ := List.exists_cons_of_ne_nil hne
  have hc : isDigit c = true := List.all_eq_true.mp hdigits c List.mem_cons_self
  obtain ⟨hspace, hplus, hminus⟩ := digit_front hc
  have hbody : (c :: rest).dropWhile isSpace = c :: rest := List.dropWhile_cons_of_neg (by rw [hspace]; decide)
  have htake : (c :: rest).takeWhile isDigit = c :: rest :=
    List.takeWhile_eq_self_iff.mpr fun d hd => List.all_eq_true.mp hdigits d hd
  simp only [stoull, hbody, List.head?_cons, Option.some.injEq, hplus, hminus, or_self, if_false, htake, hne, false_or,
    parseUnsigned, ne_eq, not_false_eq_true, hdigits, true_and]
  by_cases hlarge : 0x10000000000000000 ≤ numberOf 10 decimalValue (c :: rest)
  · rw [if_pos hlarge, if_neg (Nat.not_lt.mpr hlarge)]
    rfl
  · rw [if_neg hlarge, if_pos (Nat.lt_of_not_le hlarge)]
    rfl

private theorem take_gidText (front text : Bytes) :
    (text ++ manifestSuffix).take
      ((front ++ (text ++ manifestSuffix)).length - manifestSuffix.length - front.length) = text := by
  rw [List.length_append, List.length_append, List.take_append_of_le_length (by omega),
    List.take_of_length_le (by omega)]

/-- What the lenient reader takes for a manifest of the depot. -/
theorem gidFromName_eq {name : Bytes} {depotId : DepotId} {gid : Gid} (hgid : gid ≠ 0) :
    gidFromName name (depotPrefix depotId) = gid ↔
      ∃ text, name = depotPrefix depotId ++ (text ++ manifestSuffix) ∧ text ≠ [] ∧ stoull text = some gid := by
  constructor
  · intro h
    simp only [gidFromName] at h
    by_cases hfront : depotPrefix depotId <+: name
    · by_cases hsuffix : manifestSuffix <:+ name
      · rw [if_neg (not_not.mpr hfront), if_neg (not_not.mpr hsuffix)] at h
        split_ifs at h with hempty
        · exact absurd h.symm hgid
        · obtain ⟨rest, rfl⟩ := hfront
          rw [List.drop_left] at h hempty
          have hlong : manifestSuffix.length < rest.length := by
            rw [List.take_eq_nil_iff, not_or, List.length_append] at hempty
            omega
          obtain ⟨text, rfl⟩ : manifestSuffix <:+ rest :=
            List.suffix_of_suffix_length_le hsuffix (List.suffix_append _ rest) hlong.le
          rw [take_gidText] at h hempty
          refine ⟨text, rfl, hempty, ?_⟩
          cases hnumber : stoull text with
          | none =>
            rw [hnumber] at h
            exact absurd h.symm hgid
          | some number =>
            rw [hnumber] at h
            exact congrArg some h
      · rw [if_neg (not_not.mpr hfront), if_pos hsuffix] at h
        exact absurd h.symm hgid
    · rw [if_pos hfront] at h
      exact absurd h.symm hgid
  · rintro ⟨text, rfl, hne, htext⟩
    have hsuffix : manifestSuffix <:+ depotPrefix depotId ++ (text ++ manifestSuffix) := by
      rw [← List.append_assoc]
      exact List.suffix_append _ _
    rw [gidFromName, if_neg (not_not.mpr (List.prefix_append _ _)), if_neg (not_not.mpr hsuffix), List.drop_left]
    dsimp only
    rw [take_gidText, if_neg hne, htext, Option.getD_some]

/-- What the strict reader takes for a manifest. -/
theorem parseManifestName_eq {name : Bytes} {depotId : DepotId} {gid : Gid} :
    parseManifestName name = some (depotId, gid) ↔
      ∃ depotText gidText, name = depotText ++ underscore :: (gidText ++ manifestSuffix) ∧
        parseUnsigned depotText = some depotId.toNat ∧ parseUnsigned gidText = some gid.toNat ∧ depotId ≠ 0 ∧
          gid ≠ 0 := by
  constructor
  · intro h
    simp only [parseManifestName] at h
    by_cases hsuffix : manifestSuffix <:+ name
    · obtain ⟨body, rfl⟩ := hsuffix
      have htake : (body ++ manifestSuffix).take ((body ++ manifestSuffix).length - manifestSuffix.length) = body := by
        rw [List.length_append, Nat.add_sub_cancel, List.take_left]
      rw [if_neg (not_not.mpr (List.suffix_append _ _)), htake] at h
      split at h
      · cases h
      · next depotText gidText hsplit =>
        split_ifs at h with hparts
        split at h
        · cases h
        · next depot hdepot =>
          split_ifs at h with hrange
          split at h
          · cases h
          · next number hnumber =>
            split_ifs at h with hzero
            obtain ⟨rfl, rfl⟩ := Prod.mk.inj (Option.some.inj h)
            obtain ⟨hpos, hmax⟩ := not_or.mp hrange
            have hsmall := (parseUnsigned_eq_some.mp hnumber).2.2.1
            have hdepotId : (UInt32.ofNat depot).toNat = depot := by
              rw [UInt32.toNat_ofNat']
              simp only [maxUInt32] at hmax
              omega
            have hgid : (UInt64.ofNat number).toNat = number := by
              rw [UInt64.toNat_ofNat']
              omega
            refine ⟨depotText, gidText, ?_, by rw [hdepotId]; exact hdepot, by rw [hgid]; exact hnumber, ?_, ?_⟩
            · rw [upTo_eq_some hsplit, List.append_assoc]
              rfl
            · intro heq
              rw [heq] at hdepotId
              exact hpos hdepotId.symm
            · intro heq
              rw [heq] at hgid
              exact hzero hgid.symm
    · rw [if_pos hsuffix] at h
      cases h
  · rintro ⟨depotText, gidText, rfl, hdepot, hgid, hdepotId, hgidNe⟩
    obtain ⟨hdepotNe, hdepotDigits, -, -⟩ := parseUnsigned_eq_some.mp hdepot
    obtain ⟨hgidText, hgidDigits, -, -⟩ := parseUnsigned_eq_some.mp hgid
    have hname : depotText ++ underscore :: (gidText ++ manifestSuffix) =
        (depotText ++ underscore :: gidText) ++ manifestSuffix := by simp
    have htake : (depotText ++ underscore :: (gidText ++ manifestSuffix)).take
        ((depotText ++ underscore :: (gidText ++ manifestSuffix)).length - manifestSuffix.length) =
          depotText ++ underscore :: gidText := by
      rw [hname, List.length_append, Nat.add_sub_cancel, List.take_left]
    have hsuffix : manifestSuffix <:+ depotText ++ underscore :: (gidText ++ manifestSuffix) := by
      rw [hname]
      exact List.suffix_append _ _
    have hdepotPos : depotId.toNat ≠ 0 := fun h => hdepotId (UInt32.toNat_inj.mp h)
    have hgidPos : gid.toNat ≠ 0 := fun h => hgidNe (UInt64.toNat_inj.mp h)
    have hmax : ¬maxUInt32 < depotId.toNat := by
      have hlt := depotId.toNat_lt
      simp only [maxUInt32]
      omega
    simp only [parseManifestName]
    rw [if_neg (not_not.mpr hsuffix), htake, upTo_append (underscore_notMem hdepotDigits)]
    simp only [hdepotNe, hgidText, underscore_notMem hgidDigits, or_self, if_false, hdepot, hdepotPos, hmax, hgid,
      hgidPos, UInt32.ofNat_toNat, UInt64.ofNat_toNat]

end SlsteamMoon.ManifestStore

/-! Who decides that a manifest still has to be obtained: three places in front judge the staged file by its size, and
the fetcher behind them by its magic number. -/
namespace SlsteamMoon.ManifestStore
open KeyValues ManifestPlan

/-- The content of each regular file, by name. -/
structure Dirs where
  depotcache : Bytes → Option Bytes
  store : Bytes → Option Bytes

namespace Dirs

def staged (files : Dirs) (depotId : DepotId) (gid : Gid) : Option Bytes := files.depotcache (manifestName depotId gid)

/-- There, and not empty. -/
def manifestOnDisk (files : Dirs) (depotId : DepotId) (gid : Gid) : Bool :=
  match files.staged depotId gid with
  | none => false
  | some contents => decide (0 < contents.length)

def isInDepotcache (files : Dirs) (depotId : DepotId) (gid : Gid) : Bool :=
  decide (gid ≠ 0) && isValidManifest (files.staged depotId gid)

/-- `copied` is the outcome of the atomic copy, if one is made. -/
def restoreToDepotcache (files : Dirs) (depotId : DepotId) (gid : Gid) (copied : Bool) : Bool :=
  decide (gid ≠ 0) && isValidManifest (files.store (manifestName depotId gid)) &&
    (isValidManifest (files.staged depotId gid) || copied)

end Dirs

inductive Effect where
  | restore (depotId : DepotId) (gid : Gid)
  | awaitManifestBlob (gid : Gid) (appId : AppId) (depotId : DepotId)
  | archive (depotId : DepotId) (gid : Gid)
  | markPreferredGid (depotId : DepotId) (gid : Gid)
  | unlink (name : Bytes)
  | httpGet (depotId : DepotId) (gid : Gid)
  deriving DecidableEq

/-- A restore or a fetch. -/
def Effect.starts : Effect → Bool
  | .restore .. | .awaitManifestBlob .. | .httpGet .. => true
  | _ => false

/-- The pinned branch: the pin is staged and the planned gid stays. No root is an unknown Steam directory. -/
def redirectPinned (root : Option Dirs) (appId : AppId) (depotId : DepotId) (manifestId pin : Gid) (copied : Bool) :
    Gid × List Effect :=
  match root with
  | none => (manifestId, [])
  | some files =>
    if files.manifestOnDisk depotId pin then (manifestId, [])
    else if files.restoreToDepotcache depotId pin copied then (manifestId, [.restore depotId pin])
    else (manifestId, [.restore depotId pin, .awaitManifestBlob pin appId depotId])

/-- What comes before Steam's own request; `fetched` is the answer of the wait. -/
def hkBYldRequestDepotManifest (root : Option Dirs) (inScope : Bool) (appId : AppId) (depotId : DepotId)
    (manifestId pin : Gid) (fetched : Bool) : List Effect :=
  if ¬inScope then []
  else
    match root with
    | none => []
    | some files =>
      if files.staged depotId manifestId = none ∨ files.staged depotId manifestId = some [] then
        .awaitManifestBlob manifestId appId depotId ::
          if ¬fetched then []
          else if pin ≠ manifestId then [.archive depotId manifestId, .markPreferredGid depotId manifestId]
          else [.archive depotId manifestId]
      else []

/-- The fetcher up to its request to the archive. -/
def fetchManifestBlob (files : Dirs) (shouldStop bypassArchiveMiss recentArchiveMiss : Bool) (depotId : DepotId)
    (gid : Gid) : List Effect :=
  if shouldStop then []
  else if files.isInDepotcache depotId gid then [.archive depotId gid]
  else if bypassArchiveMiss || !recentArchiveMiss then [.unlink (manifestName depotId gid), .httpGet depotId gid]
  else [.unlink (manifestName depotId gid)]

def PlanEffect.submits : PlanEffect → Bool
  | .submitManifestBlob .. => true
  | _ => false

/-- The four places, with what each of them reads besides the file. -/
inductive Place where
  | redirectPin (appId : AppId) (manifestId : Gid) (copied : Bool)
  | prefetch (env : PlannerEnv) (entry : DepotEntry) (pin : Gid)
  | request (inScope : Bool) (appId : AppId) (pin : Gid) (fetched : Bool)
  | blob (shouldStop bypassArchiveMiss recentArchiveMiss : Bool)

namespace Place

/-- The planner's environment over these files. -/
def planning (files : Dirs) (env : PlannerEnv) : PlannerEnv :=
  { env with planDepotcache := true, manifestOnDisk := files.manifestOnDisk }

def starts (place : Place) (files : Dirs) (depotId : DepotId) (gid : Gid) : Bool :=
  match place with
  | .redirectPin appId manifestId copied =>
    (redirectPinned (some files) appId depotId manifestId gid copied).2.any Effect.starts
  | .prefetch env entry pin =>
    (acquireTarget (planning files env) { entry with depotId, gid } pin).any PlanEffect.submits
  | .request inScope appId pin fetched =>
    (hkBYldRequestDepotManifest (some files) inScope appId depotId gid pin fetched).any Effect.starts
  | .blob shouldStop bypassArchiveMiss recentArchiveMiss =>
    (fetchManifestBlob files shouldStop bypassArchiveMiss recentArchiveMiss depotId gid).any Effect.starts

/-- The place gets to look at the file: in scope, with time left, and not for a gid that the archive just lacked. -/
def decides (place : Place) (depotId : DepotId) : Prop :=
  match place with
  | .redirectPin .. => True
  | .prefetch env entry pin => env.manifestInManagedScope entry.appId depotId (pin ≠ 0) entry.dlcAppId = true
  | .request inScope _ _ _ => inScope = true
  | .blob shouldStop bypassArchiveMiss recentArchiveMiss =>
    shouldStop = false ∧ (bypassArchiveMiss || !recentArchiveMiss) = true

/-- All but the fetcher itself. -/
def judgesBySize : Place → Bool
  | .blob .. => false
  | _ => true

end Place

/-- Not empty, and no manifest. -/
def Corrupt (file : Option Bytes) : Prop := isValidManifest file = false ∧ file ≠ none ∧ file ≠ some []

private theorem manifestOnDisk_eq_false (files : Dirs) (depotId : DepotId) (gid : Gid) :
    files.manifestOnDisk depotId gid = false ↔
      files.staged depotId gid = none ∨ files.staged depotId gid = some [] := by
  rw [Dirs.manifestOnDisk]
  cases files.staged depotId gid with
  | none => simp
  | some contents => cases contents <;> simp

private theorem acquireTarget_submits (env : PlannerEnv) (e : DepotEntry) {pin : Gid} (hgid : e.gid ≠ 0)
    (hscope : env.manifestInManagedScope e.appId e.depotId (pin ≠ 0) e.dlcAppId = true)
    (hroot : env.planDepotcache = true) :
    (acquireTarget env e pin).any PlanEffect.submits = true ↔ env.manifestOnDisk e.depotId e.gid = false := by
  rw [acquireTarget, if_pos ⟨hgid, hscope⟩, hroot]
  cases env.manifestOnDisk e.depotId e.gid <;> simp [PlanEffect.submits]

/-- The places in front start something when the file is absent or empty. -/
theorem starts_bySize {place : Place} {files : Dirs} {depotId : DepotId} {gid : Gid} (hgid : gid ≠ 0)
    (hdecides : place.decides depotId) (hsize : place.judgesBySize = true) :
    place.starts files depotId gid = true ↔
      files.staged depotId gid = none ∨ files.staged depotId gid = some [] := by
  rw [← manifestOnDisk_eq_false]
  cases place with
  | redirectPin appId manifestId copied =>
    simp only [Place.starts, redirectPinned]
    split_ifs <;> simp_all [Effect.starts]
  | prefetch env entry pin =>
    exact acquireTarget_submits (Place.planning files env) { entry with depotId, gid } hgid hdecides rfl
  | request inScope appId pin fetched =>
    obtain rfl : inScope = true := hdecides
    rw [manifestOnDisk_eq_false]
    simp only [Place.starts, hkBYldRequestDepotManifest, not_true_eq_false, if_false]
    split_ifs <;> simp_all [Effect.starts]
  | blob shouldStop bypassArchiveMiss recentArchiveMiss => cases hsize

private theorem isValidManifest_empty (file : Option Bytes) (h : file = none ∨ file = some []) :
    isValidManifest file = false := by
  obtain rfl | rfl := h <;> rfl

/-- Each place starts a restore or a fetch exactly when the staged file is no valid manifest, except that the places in
front take a file that is not empty for one. -/
theorem staged_manifest_judged_iff (place : Place) (files : Dirs) (depotId : DepotId) (gid : Gid) (hgid : gid ≠ 0)
    (hdecides : place.decides depotId) :
    (place.starts files depotId gid = true ↔ isValidManifest (files.staged depotId gid) = false) ↔
      (place.judgesBySize = true → ¬Corrupt (files.staged depotId gid)) := by
  cases hsize : place.judgesBySize with
  | true =>
    rw [starts_bySize hgid hdecides hsize]
    simp only [Corrupt, forall_const]
    have hempty := isValidManifest_empty (files.staged depotId gid)
    tauto
  | false =>
    obtain ⟨shouldStop, bypassArchiveMiss, recentArchiveMiss, rfl⟩ :
        ∃ shouldStop bypass recent, place = .blob shouldStop bypass recent := by
      cases place with
      | blob shouldStop bypass recent => exact ⟨shouldStop, bypass, recent, rfl⟩
      | _ => cases hsize
    obtain ⟨rfl, hasks⟩ := hdecides
    simp only [Bool.false_eq_true, false_implies, iff_true, Place.starts, fetchManifestBlob, if_false]
    rw [if_pos hasks]
    by_cases hvalid : isValidManifest (files.staged depotId gid) = true
    · simp [Dirs.isInDepotcache, hgid, hvalid, Effect.starts]
    · simp [Dirs.isInDepotcache, hvalid, Effect.starts]

/-- One byte staged under the pin, and an empty store. -/
def oneByteStaged : Dirs := ⟨fun _ => some [0x41], fun _ => none⟩

theorem staged_manifest_judged_one_byte :
    ((Place.request true 480 0 false).starts oneByteStaged 481 9 = true ↔
        isValidManifest (oneByteStaged.staged 481 9) = false) ↔
      ((Place.request true 480 0 false).judgesBySize = true → ¬Corrupt (oneByteStaged.staged 481 9)) :=
  staged_manifest_judged_iff (.request true 480 0 false) oneByteStaged 481 9 (by decide) rfl

/-- The pinned branch takes the byte for the manifest. -/
theorem one_byte_suppresses_fetch :
    (Place.redirectPin 480 7 false).starts oneByteStaged 481 9 = false ∧
      isValidManifest (oneByteStaged.staged 481 9) = false := by
  decide

end SlsteamMoon.ManifestStore
