import SlsteamMoon.TextSearch
import SlsteamMoon.ProvisionCache.Metadata
import SlsteamMoon.ProvisionCache.Render

/-! The walk over the `depots` block of an appinfo text that gives, for each depot, its
public manifest and its operating systems. -/
namespace SlsteamMoon.DepotMining
open KeyValues ProvisionCache TextSearch

structure DepotInfo where
  depotId : UInt32
  gid : UInt64 := 0
  oslist : Bytes := []
  deriving DecidableEq, Repr

structure DepotGid where
  depotId : UInt32
  gid : UInt64
  deriving DecidableEq, Repr

def manifests : Bytes := utf8 "manifests"
def publicBranch : Bytes := utf8 "public"
def gidKey : Bytes := utf8 "gid"
def config : Bytes := utf8 "config"
def oslistKey : Bytes := utf8 "oslist"
def depotsName : Bytes := utf8 "depots"

def isDigits (token : Bytes) : Bool := token ≠ [] && token.all isDigit

/-- Of a token of digits, with an `unsigned long` of 32 bits; none is `std::out_of_range`. -/
def stoul (token : Bytes) : Option UInt32 :=
  if numberOf 10 decimalValue token < 0x100000000 then some (UInt32.ofNat (numberOf 10 decimalValue token)) else none

def stoull (token : Bytes) : Option UInt64 :=
  if numberOf 10 decimalValue token < 0x10000000000000000 then
    some (UInt64.ofNat (numberOf 10 decimalValue token))
  else none

/-- The state of the walk; `current` is the depot of the entry that the pointer is at. -/
structure Scan where
  depth : Nat := 1
  current : Option UInt32 := none
  currentSection : Bytes := []
  currentBranch : Bytes := []
  out : List DepotInfo := []
  deriving DecidableEq, Repr

def entryFor (out : List DepotInfo) (depotId : UInt32) : List DepotInfo :=
  if depotId ∈ out.map DepotInfo.depotId then out else out ++ [{ depotId := depotId }]

/-- The text between the next two quotes, and what stands behind them. -/
def quotedValue (text : Bytes) : Option (Bytes × Bytes) :=
  (upTo quote text).bind fun (_, value) => upTo quote value

namespace Scan

def onCurrent (s : Scan) (change : DepotInfo → DepotInfo) : Scan :=
  { s with out := s.out.map fun e => if s.current = some e.depotId then change e else e }

def depotToken (s : Scan) (token : Bytes) : Scan :=
  if isDigits token then
    match stoul token with
    | some depotId => { s with current := some depotId, out := entryFor s.out depotId }
    | none => { s with current := none }
  else s

def gidToken (s : Scan) (value : Bytes) : Scan :=
  if isDigits value then
    match stoull value with
    | some gid => s.onCurrent fun e => { e with gid }
    | none => s
  else s

/-- What a token does at its depth, and where the walk goes on. -/
def onToken (s : Scan) (token after : Bytes) : Scan × Bytes :=
  if s.depth = 1 then (s.depotToken token, after)
  else if s.depth = 2 then ({ s with currentSection := token }, after)
  else if s.depth = 3 ∧ s.currentSection = manifests then ({ s with currentBranch := token }, after)
  else if s.depth = 3 ∧ s.currentSection = config ∧ token = oslistKey ∧ s.current ≠ none then
    match quotedValue after with
    | some (value, rest) => (s.onCurrent fun e => { e with oslist := value }, rest)
    | none => (s, after)
  else if s.depth = 4 ∧ s.currentSection = manifests ∧ s.currentBranch = publicBranch ∧ token = gidKey ∧
      s.current ≠ none then
    match quotedValue after with
    | some (value, rest) => (s.gidToken value, rest)
    | none => (s, after)
  else (s, after)

def openBrace (s : Scan) : Scan := { s with depth := s.depth + 1 }

def closeBrace (s : Scan) : Scan :=
  { s with depth := s.depth - 1, current := if s.depth - 1 = 1 then none else s.current }

/-- The walk over a text whose first `skip` bytes have been read. -/
def walk : Nat → Scan → Bytes → List DepotInfo
  | _, s, [] => s.out
  | skip + 1, s, _ :: text => walk skip s text
  | 0, s, c :: text =>
    if s.depth = 0 then s.out
    else if c = quote then
      match upTo quote text with
      | none => s.out
      | some (token, after) =>
        walk (text.length - (s.onToken token after).2.length) (s.onToken token after).1 text
    else if c = lbrace then walk 0 s.openBrace text
    else if c = rbrace then walk 0 s.closeBrace text
    else walk 0 s text

end Scan

def depotsWord : Bytes := quote :: (depotsName ++ [quote])

def parseDepots (buf : Bytes) : List DepotInfo :=
  match (behind depotsWord buf).bind (upTo lbrace) with
  | some (_, text) => Scan.walk 0 {} text
  | none => []

def extractDepotsAndGids (buf : Bytes) : List DepotGid :=
  ((parseDepots buf).filter fun d => d.gid ≠ 0).map fun d => ⟨d.depotId, d.gid⟩

end SlsteamMoon.DepotMining

/-! What an appinfo tree says about its depots, and when the scanner can tell. -/
namespace SlsteamMoon.DepotMining
open KeyValues ProvisionCache

/-! ### What the tree says -/

/-- The number of a key, none when it is not one. -/
def depotNumber (key : Bytes) : Option UInt32 := if isDigits key then stoul key else none

def gidNumber (value : Bytes) : Option UInt64 := if isDigits value then stoull value else none

/-- The `gid` of a branch. -/
def branchGid (branch : Pairs) : Option UInt64 :=
  match find gidKey branch with
  | some (.scalar value) => gidNumber value
  | _ => none

/-- The `gid` of the public branch. -/
def manifestsGid (manifestsMap : Pairs) : Option UInt64 :=
  match find publicBranch manifestsMap with
  | some (.object branch) => branchGid branch
  | _ => none

/-- A depot's manifests.public.gid. -/
def publicGid (depot : Pairs) : Option UInt64 :=
  match find manifests depot with
  | some (.object manifestsMap) => manifestsGid manifestsMap
  | _ => none

/-- The numeric keys that have a public manifest, in the order of the tree. -/
def depotGids : Pairs → List DepotGid
  | .nil => []
  | .leaf _ _ rest => depotGids rest
  | .node key depot rest =>
    match depotNumber key, publicGid depot with
    | some depotId, some gid => ⟨depotId, gid⟩ :: depotGids rest
    | _, _ => depotGids rest

/-- The pairs that the tree lists. -/
def Lists (tree : Pairs) (d : DepotGid) : Prop :=
  ∃ depots, find depotsName tree = some (.object depots) ∧ d ∈ depotGids depots ∧ d.gid ≠ 0

/-! ### When the scanner can tell -/

/-- No key and no value holds a quote. -/
def QuoteFree : Pairs → Prop
  | .nil => True
  | .leaf key value rest => quote ∉ key ∧ quote ∉ value ∧ QuoteFree rest
  | .node key children rest => quote ∉ key ∧ QuoteFree children ∧ QuoteFree rest

/-- The name is the key of no map, and no value but its own. -/
def Names (name : Bytes) : Pairs → Prop
  | .nil => True
  | .leaf key value rest => (key = name ∨ value ≠ name) ∧ Names name rest
  | .node key _ rest => key ≠ name ∧ Names name rest

/-- In each public branch `gid` is only ever the key of a scalar. -/
def NamesGid : Pairs → Prop
  | .nil => True
  | .leaf _ _ rest => NamesGid rest
  | .node key branch rest => (key = publicBranch → Names gidKey branch) ∧ NamesGid rest

/-- Of a depot: the two names that the scanner takes for keys are keys of scalars. -/
def NamesKeys : Pairs → Prop
  | .nil => True
  | .leaf _ _ rest => NamesKeys rest
  | .node key children rest =>
    (key = manifests → NamesGid children) ∧ (key = config → Names oslistKey children) ∧ NamesKeys rest

/-- The depot that the scanner is at after a token among the depots. -/
def armedBy (armed : Option UInt32) (token : Bytes) : Option UInt32 :=
  if isDigits token then stoul token else armed

/-- Of the depots: `armed` is what a scalar before has left behind. A map with another key
then has no public manifest of its own, and one number has one manifest. -/
def Orderly (armed : Option UInt32) : Pairs → Prop
  | .nil => True
  | .leaf key value rest => Orderly (armedBy (armedBy armed key) value) rest
  | .node key depot rest =>
    (armedBy armed key ≠ none → NamesKeys depot) ∧
      (depotNumber key = none → armedBy armed key ≠ none → publicGid depot = none) ∧
      (∀ d ∈ depotGids (.node key depot .nil), d.gid ≠ 0 → ∀ later ∈ depotGids rest,
        later.depotId = d.depotId → later.gid = d.gid) ∧
      Orderly none rest

/-- The string, between its quotes, ends like the key that the scanner looks for. -/
def Marks (s : Bytes) : Prop := quote :: depotsName <:+ quote :: s

def Unmarked : Pairs → Prop
  | .nil => True
  | .leaf key value rest => ¬Marks key ∧ ¬Marks value ∧ Unmarked rest
  | .node key children rest => ¬Marks key ∧ Unmarked children ∧ Unmarked rest

/-- No brace opens: there is no map, and no string holds one. -/
def BraceFree : Pairs → Prop
  | .nil => True
  | .leaf key value rest => lbrace ∉ key ∧ lbrace ∉ value ∧ BraceFree rest
  | .node _ _ _ => False

/-- The first string that looks like the key `depots` is that key. Its map has no quotes in
its strings and is orderly; when it is a scalar, no brace opens behind it. -/
def Minable : Pairs → Prop
  | .nil => True
  | .leaf key value rest =>
    if key = depotsName then lbrace ∉ value ∧ BraceFree rest else ¬Marks key ∧ ¬Marks value ∧ Minable rest
  | .node key children rest =>
    if key = depotsName then QuoteFree children ∧ Orderly none children
    else ¬Marks key ∧ Unmarked children ∧ Minable rest

instance decidableQuoteFree : (tree : Pairs) → Decidable (QuoteFree tree)
  | .nil => .isTrue trivial
  | .leaf _ _ rest =>
    have := decidableQuoteFree rest
    inferInstanceAs (Decidable (_ ∧ _ ∧ _))
  | .node _ children rest =>
    have := decidableQuoteFree children
    have := decidableQuoteFree rest
    inferInstanceAs (Decidable (_ ∧ _ ∧ _))

instance decidableNames (name : Bytes) : (tree : Pairs) → Decidable (Names name tree)
  | .nil => .isTrue trivial
  | .leaf _ _ rest =>
    have := decidableNames name rest
    inferInstanceAs (Decidable (_ ∧ _))
  | .node _ _ rest =>
    have := decidableNames name rest
    inferInstanceAs (Decidable (_ ∧ _))

instance decidableNamesGid : (tree : Pairs) → Decidable (NamesGid tree)
  | .nil => .isTrue trivial
  | .leaf _ _ rest => decidableNamesGid rest
  | .node _ _ rest =>
    have := decidableNamesGid rest
    inferInstanceAs (Decidable (_ ∧ _))

instance decidableNamesKeys : (tree : Pairs) → Decidable (NamesKeys tree)
  | .nil => .isTrue trivial
  | .leaf _ _ rest => decidableNamesKeys rest
  | .node _ _ rest =>
    have := decidableNamesKeys rest
    inferInstanceAs (Decidable (_ ∧ _ ∧ _))

instance decidableOrderly : (armed : Option UInt32) → (tree : Pairs) → Decidable (Orderly armed tree)
  | _, .nil => .isTrue trivial
  | armed, .leaf key value rest => decidableOrderly (armedBy (armedBy armed key) value) rest
  | _, .node _ _ rest =>
    have := decidableOrderly none rest
    inferInstanceAs (Decidable (_ ∧ _ ∧ _ ∧ _))

instance (s : Bytes) : Decidable (Marks s) := inferInstanceAs (Decidable (_ <:+ _))

instance decidableUnmarked : (tree : Pairs) → Decidable (Unmarked tree)
  | .nil => .isTrue trivial
  | .leaf _ _ rest =>
    have := decidableUnmarked rest
    inferInstanceAs (Decidable (_ ∧ _ ∧ _))
  | .node _ children rest =>
    have := decidableUnmarked children
    have := decidableUnmarked rest
    inferInstanceAs (Decidable (_ ∧ _ ∧ _))

instance decidableBraceFree : (tree : Pairs) → Decidable (BraceFree tree)
  | .nil => .isTrue trivial
  | .leaf _ _ rest =>
    have := decidableBraceFree rest
    inferInstanceAs (Decidable (_ ∧ _ ∧ _))
  | .node _ _ _ => .isFalse id

instance decidableMinable : (tree : Pairs) → Decidable (Minable tree)
  | .nil => .isTrue trivial
  | .leaf key _ rest =>
    have := decidableMinable rest
    inferInstanceAs (Decidable (if key = depotsName then _ else _))
  | .node key _ rest =>
    have := decidableMinable rest
    inferInstanceAs (Decidable (if key = depotsName then _ else _))

/-! ### The text of a tree -/

def emitPairs (depth : Nat) : Pairs → Bytes
  | .nil => []
  | .leaf key value rest => tabs depth ++ (emitEscaped key ++ (emitScalar value ++ emitPairs depth rest))
  | .node key children rest =>
    tabs depth ++ (emitEscaped key ++ (braced depth (emitPairs (depth + 1) children) ++ emitPairs depth rest))

/-- The line of a scalar. -/
def leafText (depth : Nat) (key value : Bytes) : Bytes :=
  tabs depth ++ (emitEscaped key ++ tab :: ([tab] ++ (emitEscaped value ++ [newline])))

/-- The lines of a map up to its first entry. -/
def openText (depth : Nat) (key : Bytes) : Bytes :=
  tabs depth ++ (emitEscaped key ++ newline :: (tabs depth ++ [lbrace, newline]))

def closeText (depth : Nat) : Bytes := tabs depth ++ [rbrace, newline]

theorem emitPairs_leaf (depth : Nat) (key value : Bytes) (rest : Pairs) :
    emitPairs depth (.leaf key value rest) = leafText depth key value ++ emitPairs depth rest := by
  simp [emitPairs, emitScalar, leafText]

theorem emitPairs_node (depth : Nat) (key : Bytes) (children rest : Pairs) :
    emitPairs depth (.node key children rest) =
      openText depth key ++ (emitPairs (depth + 1) children ++ (closeText depth ++ emitPairs depth rest)) := by
  simp [emitPairs, braced, openText, closeText]

def emitOf (depth : Nat) : Value → Bytes
  | .scalar value => emitScalar value
  | .object children => braced depth (emitPairs (depth + 1) children)

private theorem emitPairs_pair (depth : Nat) (key : Bytes) (value : Value) (rest : Pairs) :
    emitPairs depth (value.pair key rest) =
      tabs depth ++ (emitEscaped key ++ (emitOf depth value ++ emitPairs depth rest)) := by
  cases value <;> rfl

mutual

/-- The text is the one of the tree that it says. -/
theorem emitMap_eq (depth : Nat) : (e : Entries) → emitMap depth e = emitPairs depth e.written
  | .nil => rfl
  | .cons key value rest => by
    rw [emitMap, Entries.written, emitPairs_pair, emitValue_eq depth value, emitMap_eq depth rest]

private theorem emitValue_eq (depth : Nat) : (v : Node) → emitValue depth v = emitOf depth v.written
  | .scalar value => rfl
  | .map entries => by rw [emitValue, Node.written, emitOf, emitMap_eq (depth + 1) entries]
  | .sequence items => by rw [emitValue, Node.written, emitOf, emitItems_eq (depth + 1) 0 items]
  | .null => rfl

private theorem emitItems_eq (depth idx : Nat) :
    (items : Items) → emitItems depth idx items = emitPairs depth (items.written idx)
  | .nil => rfl
  | .cons child rest => by
    rw [emitItems, Items.written, emitPairs_pair, emitChild_eq depth child, emitItems_eq depth (idx + 1) rest]

private theorem emitChild_eq (depth : Nat) : (v : Node) → emitChild depth v = emitOf depth v.writtenChild
  | .scalar value => rfl
  | .map entries => by rw [emitChild, Node.writtenChild, emitOf, emitMap_eq (depth + 1) entries]
  | .sequence _ => rfl
  | .null => rfl

end

end SlsteamMoon.DepotMining
