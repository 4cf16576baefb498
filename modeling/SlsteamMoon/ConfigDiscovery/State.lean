import SlsteamMoon.ProvisionCache.CmVdf
import SlsteamMoon.TextSearch

/-! When an app manifest stands for an installed app: its installdir names a directory below
common/ with content in it. -/
namespace SlsteamMoon.ConfigDiscovery
open KeyValues ProvisionCache TextSearch

/-- A path as its text. -/
structure Path where
  text : Bytes
  deriving DecidableEq

namespace Path

def isAbsolute (p : Path) : Bool := p.text.head? = some slash

def hasParentPath (p : Path) : Bool := slash ∈ p.text

/-- An absolute path takes the place of what it is appended to. -/
def append (p q : Path) : Path :=
  if q.isAbsolute ∨ p.text = [] then q
  else if p.text.getLast? = some slash then ⟨p.text ++ q.text⟩
  else ⟨p.text ++ slash :: q.text⟩

instance : Div Path := ⟨append⟩

theorem slash_eq {p : Path} {name : Bytes} (hne : p.text ≠ []) (hlast : p.text.getLast? ≠ some slash)
    (hname : isAbsolute ⟨name⟩ = false) : p / ⟨name⟩ = ⟨p.text ++ slash :: name⟩ := by
  show p.append ⟨name⟩ = _
  rw [append, if_neg (by simp [hname, hne]), if_neg hlast]

end Path

/-- A name that a directory can hold. -/
def Component (name : Bytes) : Prop :=
  name ≠ [] ∧ slash ∉ name ∧ 0 ∉ name ∧ name ≠ utf8 "." ∧ name ≠ utf8 ".."

theorem component_relative {d : Bytes} (hd : Component d) : Path.isAbsolute ⟨d⟩ = false := by
  rw [Path.isAbsolute, decide_eq_false_iff_not]
  exact fun hhead => hd.2.1 (List.mem_of_mem_head? hhead)

/-- What the calls of the file system answer while nothing changes. A directory that cannot
be opened has no listing; in one that has, no regular file is missing. -/
structure FileSystem where
  contents : Path → Option Bytes
  isRegularFile : Path → Bool
  isDirectory : Path → Bool
  present : Path → Bool
  list : Path → Option (List Bytes)
  listed : ∀ dir names name, list dir = some names → Component name → isRegularFile (dir / ⟨name⟩) = true →
    name ∈ names

def quoted (key : Bytes) : Bytes := quote :: key ++ [quote]

/-- The text between the next two quotes behind the key. -/
def field (text key : Bytes) : Option Bytes := do
  let behindKey ← behind (quoted key) text
  let (_, behindOpen) ← upTo quote behindKey
  let (value, _) ← upTo quote behindOpen
  return value

def quotedField (text key : Bytes) : Bytes := (field text key).getD []

/-- The installdir that the reader of the state goes on with. -/
def acceptedInstallDir (text : Bytes) : Option Path :=
  let relative : Path := ⟨quotedField text (utf8 "installdir")⟩
  if relative.text = [] ∨ relative.isAbsolute ∨ relative.hasParentPath ∨ relative = ⟨utf8 "."⟩ ∨
      relative = ⟨utf8 ".."⟩ then none
  else some relative

def commonDir : Path := ⟨utf8 "common"⟩

def accelaMarker : Bytes := utf8 ".DepotDownloader"

/-- Whether the app is installed, and what isAccela is set to. -/
def manifestInstalledState (fs : FileSystem) (steamapps manifestPath : Path) : Bool × Bool :=
  match fs.contents manifestPath with
  | none => (false, false)
  | some text =>
    match acceptedInstallDir text with
    | none => (false, false)
    | some relative =>
      let gameDir := steamapps / commonDir / relative
      if fs.isDirectory gameDir = false then (false, false)
      else
        let hasAccelaMarker := fs.present (gameDir / ⟨accelaMarker⟩)
        match fs.list gameDir with
        | none => (false, false)
        | some names => if names.any (· ≠ accelaMarker) then (true, hasAccelaMarker) else (false, false)

def manifestName (appId : UInt32) : Bytes := utf8 "appmanifest_" ++ toDecimal appId.toNat ++ utf8 ".acf"

/-- The first key of the text is followed by this value. -/
def Holds (text key value : Bytes) : Prop :=
  ∃ before gap after, text = before ++ (quoted key ++ (gap ++ quote :: (value ++ quote :: after))) ∧
    ¬quoted key <:+: before ++ (quoted key).dropLast ∧ quote ∉ gap ∧ quote ∉ value

private theorem quoted_ne_nil (key : Bytes) : quoted key ≠ [] := List.cons_ne_nil _ _

theorem field_eq_some_iff {text key value : Bytes} : field text key = some value ↔ Holds text key value := by
  constructor
  · intro h
    obtain ⟨behindKey, hkey, h⟩ := Option.bind_eq_some_iff.mp h
    obtain ⟨⟨gap, behindOpen⟩, hopen, h⟩ := Option.bind_eq_some_iff.mp h
    obtain ⟨⟨found, after⟩, hclose, h⟩ := Option.bind_eq_some_iff.mp h
    obtain rfl := Option.some.inj h
    obtain ⟨before, rfl, hfirst⟩ := (behind_eq_some_iff (quoted_ne_nil key)).mp hkey
    obtain ⟨rfl, hgap⟩ := upTo_eq_some_iff.mp hopen
    obtain ⟨rfl, hvalue⟩ := upTo_eq_some_iff.mp hclose
    exact ⟨before, gap, after, rfl, hfirst, hgap, hvalue⟩
  · rintro ⟨before, gap, after, htext, hfirst, hgap, hvalue⟩
    have hkey := (behind_eq_some_iff (quoted_ne_nil key)).mpr ⟨before, htext, hfirst⟩
    rw [field, hkey]
    show (upTo quote (gap ++ quote :: (value ++ quote :: after))).bind _ = _
    rw [upTo_append hgap]
    show (upTo quote (value ++ quote :: after)).bind _ = _
    rw [upTo_append hvalue]
    rfl

/-- A single component that the first installdir has is the one that is accepted. -/
theorem acceptedInstallDir_eq_some {text d : Bytes} (hd : Component d) :
    acceptedInstallDir text = some ⟨d⟩ ↔ Holds text (utf8 "installdir") d := by
  have habsolute := component_relative hd
  obtain ⟨hne, hslash, -, hdot, hdots⟩ := hd
  rw [← field_eq_some_iff, acceptedInstallDir, quotedField]
  constructor
  · intro h
    dsimp only at h
    split_ifs at h with hbad
    have hvalue : (field text (utf8 "installdir")).getD [] = d := congrArg Path.text (Option.some.inj h)
    cases hfield : field text (utf8 "installdir") with
    | none =>
      rw [hfield] at hvalue
      exact absurd hvalue.symm hne
    | some value =>
      rw [hfield] at hvalue
      exact congrArg some hvalue
  · intro h
    have hparent : Path.hasParentPath ⟨d⟩ = false := decide_eq_false hslash
    rw [h, Option.getD_some]
    refine if_neg ?_
    rw [habsolute, hparent]
    simp [hne, hdot, hdots]

end SlsteamMoon.ConfigDiscovery
