import Mathlib.Data.Finset.Card
import SlsteamMoon.DlcIds.Lists
import SlsteamMoon.ManifestSynth.InstallDir

/-! The depots of an appinfo tree that cannot be used are dropped, and the DLCs that lose all of their content with
them. -/
namespace SlsteamMoon.DepotPrune
open KeyValues ProvisionCache DlcMetadata DlcIds ManifestSynth

abbrev DepotId := UInt32

/-! ### One depot -/

/-- node.IsMap() && node[key]. -/
def childOf (key : Bytes) : Node → Option Node
  | .map entries => subnode key entries
  | _ => none

def hasDlcMarker (depotNode : Node) : Bool := (childOf (utf8 "dlcappid") depotNode).isSome

def hasManifests (depotNode : Node) : Bool := (childOf (utf8 "manifests") depotNode).isSome

def isVirtualDlc (depotNode : Node) : Bool := hasDlcMarker depotNode && !hasManifests depotNode

/-- as<uint32_t>(), and zero where that is an exception. -/
def dlcAppId (depotNode : Node) : AppId := UInt32.ofNat (asUnsigned 0x100000000 (childOf (utf8 "dlcappid") depotNode))

def depotPublicManifestIsEmpty (depotNode : Node) : Bool :=
  match ((childOf (utf8 "manifests") depotNode).bind (childOf (utf8 "public"))).bind (childOf (utf8 "size")) with
  | some (.scalar size) => (size.dropWhile isBlank).rdropWhile isBlank = utf8 "0"
  | _ => false

/-! ### Platforms -/

def isTrim (c : UInt8) : Bool := c == 0x20 || c == 0x09

def parsePlatformOsList (text : Bytes) : Finset Bytes :=
  (((text.splitOn comma).map fun piece => (piece.dropWhile isTrim).rdropWhile isTrim).filter (· ≠ [])).toFinset

def kAnyPlatform : Bytes := utf8 "*"

def addDepotPlatforms (out : Finset Bytes) (oslist : Bytes) : Finset Bytes :=
  if oslist = [] then insert kAnyPlatform out else out ∪ parsePlatformOsList oslist

def requiresProtonMapping (keptContentDepots : Nat) (depotOs : Finset Bytes) (commonOsList : Bytes) : Bool :=
  if keptContentDepots = 0 then false
  else
    let commonOs := parsePlatformOsList commonOsList
    let anyPlatform := decide (kAnyPlatform ∈ depotOs)
    let commonHasLinux := decide (utf8 "linux" ∈ commonOs)
    if depotOs.card = (if anyPlatform then 1 else 0) then decide (commonOs ≠ ∅) && !commonHasLinux
    else
      let depotTargetsLinux := decide (utf8 "linux" ∈ depotOs) || (anyPlatform && commonHasLinux)
      !(if commonOs = ∅ then depotTargetsLinux else depotTargetsLinux && commonHasLinux)

/-- config.oslist of a depot that is a map. None is the exception for a config that is a scalar. -/
def depotOsList (depot : Entries) : Option Bytes :=
  match subnode (utf8 "config") depot with
  | some (.scalar _) => none
  | some (.map config) => some (((subnode (utf8 "oslist") config).bind asString).getD [])
  | _ => some []

/-! ### The loop over the depots -/

structure Pruned where
  newDepots : Entries := .nil
  survivingOs : Finset Bytes := ∅
  keptContent : Nat := 0
  dropped : Nat := 0
  contentDlcAppIds : Finset AppId := ∅
  usableDlcAppIds : Finset AppId := ∅

def isNumeric (key : Bytes) : Bool := key ≠ [] && key.all isDigit

/-- newDepots[key] = YAML::Clone(node). -/
def Pruned.keep (p : Pruned) (key : Bytes) (node : Node) : Pruned :=
  { p with newDepots := assignNode key node p.newDepots }

def Pruned.drop (p : Pruned) : Pruned := { p with dropped := p.dropped + 1 }

/-- The DLC of a depot with manifests, seen before the depot may be dropped. -/
def Pruned.recordContent (p : Pruned) (node : Node) : Pruned :=
  { p with
    contentDlcAppIds :=
      if dlcAppId node ≠ 0 ∧ hasManifests node = true then insert (dlcAppId node) p.contentDlcAppIds
      else p.contentDlcAppIds }

/-- The DLC of a depot that is kept. -/
def Pruned.recordUsable (p : Pruned) (node : Node) : Pruned :=
  { p with
    usableDlcAppIds := if dlcAppId node ≠ 0 then insert (dlcAppId node) p.usableDlcAppIds else p.usableDlcAppIds }

/-- The platforms of a content depot that is kept. -/
def Pruned.addPlatforms (p : Pruned) : Node → Option Pruned
  | .map depot =>
    (depotOsList depot).map fun oslist => { p with survivingOs := addDepotPlatforms p.survivingOs oslist }
  | _ => some p

def visitDepot (hasKey : DepotId → Bool) (p : Pruned) (entry : Bytes × Node) : Option Pruned :=
  let key := entry.1
  let depotNode := entry.2
  if isNumeric key = false then some (p.keep key depotNode)
  else
    match stoul key with
    | none => some (p.keep key depotNode)
    | some depotId =>
      let p := p.recordContent depotNode
      if depotPublicManifestIsEmpty depotNode = true then some p.drop
      else if hasKey depotId = false ∧ isVirtualDlc depotNode = false then some p.drop
      else
        let p := (p.keep key depotNode).recordUsable depotNode
        if isVirtualDlc depotNode = true then some p
        else { p with keptContent := p.keptContent + 1 }.addPlatforms depotNode

/-- The entries of a map, in their order. -/
def entryList : Entries → List (Bytes × Node)
  | .nil => []
  | .cons key value rest => (key, value) :: entryList rest

/-! ### The tree -/

/-- common.oslist and the body behind the look at it, which turns a common node that is null or a sequence into a map. -/
def readCommonOsList (body : Entries) : Bytes × Entries :=
  match subnode (utf8 "common") body with
  | some (.map common) => (((subnode (utf8 "oslist") common).bind asString).getD [], body)
  | some (.scalar _) => ([], body)
  | some common => ([], assignNode (utf8 "common") (.map ((convertToMap (some common)).getD .nil)) body)
  | none => ([], body)

/-- The list in extended.listofdlc without the unsupported ids. -/
def pruneListOfDlc (unsupported : Finset AppId) (body : Entries) : Entries :=
  if unsupported = ∅ then body
  else
    match subnode (utf8 "extended") body with
    | some (.map extended) =>
      match subnode (utf8 "listofdlc") extended with
      | some (.scalar oldList) =>
        let (newList, removed) := filterUnsupportedDlcAppIds oldList unsupported
        if removed = 0 then body
        else assignNode (utf8 "extended") (.map (assignNode (utf8 "listofdlc") (.scalar newList) extended)) body
      | _ => body
    | _ => body

/-- The body behind the call and whether the app is marked for Proton. None is an exception, which leaves the body. -/
def pruneUnsupportedDepots (hasKey : DepotId → Bool) : Node → Option (Node × Bool)
  | .map body =>
    match subnode (utf8 "depots") body with
    | some (.map depots) =>
      ((entryList depots).foldlM (visitDepot hasKey) {}).map fun p =>
        let (commonOsList, body) := readCommonOsList body
        let protonNeeded := requiresProtonMapping p.keptContent p.survivingOs commonOsList
        let body := pruneListOfDlc (p.contentDlcAppIds \ p.usableDlcAppIds) body
        (.map (if p.dropped = 0 then body else assignNode (utf8 "depots") (.map p.newDepots) body), protonNeeded)
    | _ => some (.map body, false)
  | body => some (body, false)

end SlsteamMoon.DepotPrune
