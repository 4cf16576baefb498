import SlsteamMoon.ProvisionCache.Render

/-! The file of DLC metadata records: its writer, its reader, and which records survive the two. -/
namespace SlsteamMoon.DlcMetadata
open KeyValues ProvisionCache

structure MetadataApp where
  appid : UInt32 := 0
  changeNumber : UInt32 := 0
  sha : Bytes := []
  wireBuffer : Bytes := []
  deriving DecidableEq

structure CacheRecord where
  baseAppId : UInt32 := 0
  baseGeneration : UInt64 := 0
  baseChangeNumber : UInt32 := 0
  baseSha : Bytes := []
  apps : List MetadataApp := []
  rejectedAppIds : List UInt32 := []
  deriving DecidableEq

/-- The YAML emitter and parser and the base64 codec. None is an exception or an emitter that is not good. -/
structure Libraries where
  emit : Node → Option Bytes
  load : Bytes → Option Node
  toBase64 : Bytes → Bytes
  fromBase64 : Bytes → Option Bytes

/-! ### Nodes -/

def mapOf : List (Bytes × Node) → Entries
  | [] => .nil
  | (key, value) :: rest => .cons key value (mapOf rest)

def sequenceOf : List Node → Items
  | [] => .nil
  | child :: rest => .cons child (sequenceOf rest)

def listOf : Items → List Node
  | .nil => []
  | .cons child rest => child :: listOf rest

/-- node[key]. -/
def subnode (key : Bytes) : Entries → Option Node
  | .nil => none
  | .cons other value rest => if other = key then some value else subnode key rest

def number (n : Nat) : Node := .scalar (toDecimal n)

/-- as<T>(0) for an unsigned type of so many values. -/
def asUnsigned (values : Nat) : Option Node → Nat
  | some (.scalar value) => ((asUInt64 value).filter (· < values)).getD 0
  | _ => 0

/-- as<std::string>(). -/
def asString : Node → Option Bytes
  | .scalar value => some value
  | .null => some (utf8 "null")
  | _ => none

/-! ### The writer -/

def appNode (lib : Libraries) (app : MetadataApp) : Node :=
  .map (mapOf [
    (utf8 "appid", number app.appid.toNat),
    (utf8 "change_number", number app.changeNumber.toNat),
    (utf8 "sha_b64", .scalar (lib.toBase64 app.sha)),
    (utf8 "wire_b64", .scalar (lib.toBase64 app.wireBuffer))])

/-- The document of a record. -/
def cacheNode (lib : Libraries) (record : CacheRecord) : Node :=
  .map (mapOf [
    (utf8 "schema", number 1),
    (utf8 "base_appid", number record.baseAppId.toNat),
    (utf8 "base_generation", number record.baseGeneration.toNat),
    (utf8 "base_change_number", number record.baseChangeNumber.toNat),
    (utf8 "base_sha_b64", .scalar (lib.toBase64 record.baseSha)),
    (utf8 "apps", .sequence (sequenceOf (record.apps.map (appNode lib)))),
    (utf8 "rejected_appids", .sequence (sequenceOf (record.rejectedAppIds.map fun id => number id.toNat)))])

def encodeCache (lib : Libraries) (record : CacheRecord) : Option Bytes :=
  if record.baseAppId = 0 ∨ record.baseSha.length ≠ 20 then none
  else if record.apps.any (fun app => app.appid = 0 ∨ app.sha.length ≠ 20 ∨ app.wireBuffer = []) = true then none
  else if record.rejectedAppIds.any (fun id => id = 0 ∨ id = record.baseAppId) = true then none
  else (lib.emit (cacheNode lib record)).filter (· ≠ [])

/-! ### The reader -/

def maxInput : Nat := 32 * 1024 * 1024
def maxWire : Nat := 4 * 1024 * 1024
def maxEntries : Nat := 4096

def decodeApp (lib : Libraries) : Node → Option MetadataApp
  | .map node => do
    let sha ← subnode (utf8 "sha_b64") node
    let wire ← subnode (utf8 "wire_b64") node
    let app : MetadataApp := {
      appid := UInt32.ofNat (asUnsigned 0x100000000 (subnode (utf8 "appid") node))
      changeNumber := UInt32.ofNat (asUnsigned 0x100000000 (subnode (utf8 "change_number") node))
      sha := ← (asString sha).bind lib.fromBase64
      wireBuffer := ← (asString wire).bind lib.fromBase64 }
    if app.appid = 0 ∨ app.sha.length ≠ 20 ∨ app.wireBuffer = [] ∨ maxWire < app.wireBuffer.length then none
    else some app
  | _ => none

def decodeRejected (baseAppId : UInt32) (node : Node) : Option UInt32 :=
  let appId := UInt32.ofNat (asUnsigned 0x100000000 (some node))
  if appId = 0 ∨ appId = baseAppId then none else some appId

def decodeRoot (lib : Libraries) (root : Entries) : Option CacheRecord :=
  if asUnsigned 0x100000000 (subnode (utf8 "schema") root) ≠ 1 then none
  else do
    let baseAppId := UInt32.ofNat (asUnsigned 0x100000000 (subnode (utf8 "base_appid") root))
    let baseSha ← (← subnode (utf8 "base_sha_b64") root |>.map asString).bind lib.fromBase64
    match subnode (utf8 "apps") root, subnode (utf8 "rejected_appids") root with
    | some (.sequence apps), some (.sequence rejected) =>
      if baseAppId = 0 ∨ baseSha.length ≠ 20 ∨ maxEntries < (listOf apps).length + (listOf rejected).length then none
      else do
        let apps ← (listOf apps).mapM (decodeApp lib)
        let rejectedAppIds ← (listOf rejected).mapM (decodeRejected baseAppId)
        some {
          baseAppId
          baseGeneration := UInt64.ofNat (asUnsigned 0x10000000000000000 (subnode (utf8 "base_generation") root))
          baseChangeNumber := UInt32.ofNat (asUnsigned 0x100000000 (subnode (utf8 "base_change_number") root))
          baseSha
          apps
          rejectedAppIds }
    | _, _ => none

def decodeCache (lib : Libraries) (input : Bytes) : Option CacheRecord :=
  if input = [] ∨ maxInput < input.length then none
  else match lib.load input with
    | some (.map root) => decodeRoot lib root
    | _ => none

end SlsteamMoon.DlcMetadata

/-! A written record reads back just when it keeps the limits of the reader, none of which the
writer looks at. -/
namespace SlsteamMoon.DlcMetadata
open KeyValues ProvisionCache

/-- The limits that only the reader enforces. -/
structure WithinLimits (lib : Libraries) (record : CacheRecord) : Prop where
  entries : record.apps.length + record.rejectedAppIds.length ≤ maxEntries
  wires : ∀ app ∈ record.apps, app.wireBuffer.length ≤ maxWire
  input : ∀ text, lib.emit (cacheNode lib record) = some text → text.length ≤ maxInput

/-- The YAML library gives back the document of the record and the base64 codec its byte strings. -/
structure GivesBack (lib : Libraries) (record : CacheRecord) : Prop where
  yaml : ∀ text, lib.emit (cacheNode lib record) = some text → lib.load text = some (cacheNode lib record)
  baseSha : lib.fromBase64 (lib.toBase64 record.baseSha) = some record.baseSha
  sha : ∀ app ∈ record.apps, lib.fromBase64 (lib.toBase64 app.sha) = some app.sha
  wire : ∀ app ∈ record.apps, lib.fromBase64 (lib.toBase64 app.wireBuffer) = some app.wireBuffer

/-! ### What was written is found -/

private theorem asUnsigned_number {n values : Nat} (h : n < values) (hvalues : values ≤ 0x10000000000000000) :
    asUnsigned values (some (number n)) = n := by
  have hread := asUInt64_toDecimal (Nat.lt_of_lt_of_le h hvalues)
  rw [number, asUnsigned, hread, Option.filter_some, if_pos (by simpa using h)]
  rfl

private theorem asUnsigned_uint32 (n : UInt32) : UInt32.ofNat (asUnsigned 0x100000000 (some (number n.toNat))) = n := by
  rw [asUnsigned_number n.toNat_lt (by decide), UInt32.ofNat_toNat]

private theorem asUnsigned_uint64 (n : UInt64) :
    UInt64.ofNat (asUnsigned 0x10000000000000000 (some (number n.toNat))) = n := by
  rw [asUnsigned_number n.toNat_lt (Nat.le_refl _), UInt64.ofNat_toNat]

private theorem listOf_sequenceOf (nodes : List Node) : listOf (sequenceOf nodes) = nodes := by
  induction nodes with
  | nil => rfl
  | cons node nodes ih => rw [sequenceOf, listOf, ih]

/-- An app that the writer takes is read back unless its wire is too long. -/
theorem decodeApp_appNode {lib : Libraries} {app : MetadataApp}
    (hwritten : ¬(app.appid = 0 ∨ app.sha.length ≠ 20 ∨ app.wireBuffer = []))
    (hsha : lib.fromBase64 (lib.toBase64 app.sha) = some app.sha)
    (hwire : lib.fromBase64 (lib.toBase64 app.wireBuffer) = some app.wireBuffer) :
    decodeApp lib (appNode lib app) = if maxWire < app.wireBuffer.length then none else some app := by
  simp only [appNode, decodeApp, mapOf, subnode, utf8_inj, String.reduceEq, if_false, if_true, asUnsigned_uint32]
  simp only [asString, Option.bind_some, hsha, hwire, Option.bind_eq_bind]
  simp only [not_or] at hwritten
  simp only [hwritten.1, hwritten.2.1, hwritten.2.2, false_or]

private theorem decodeApps_written {lib : Libraries} {apps : List MetadataApp}
    (hwritten : ∀ app ∈ apps, ¬(app.appid = 0 ∨ app.sha.length ≠ 20 ∨ app.wireBuffer = []))
    (hsha : ∀ app ∈ apps, lib.fromBase64 (lib.toBase64 app.sha) = some app.sha)
    (hwire : ∀ app ∈ apps, lib.fromBase64 (lib.toBase64 app.wireBuffer) = some app.wireBuffer) :
    (apps.map (appNode lib)).mapM (decodeApp lib) =
      if ∀ app ∈ apps, app.wireBuffer.length ≤ maxWire then some apps else none := by
  induction apps with
  | nil => rfl
  | cons app apps ih =>
    have hrest := ih (fun a ha => hwritten a (List.mem_cons_of_mem app ha))
      (fun a ha => hsha a (List.mem_cons_of_mem app ha))
      fun a ha => hwire a (List.mem_cons_of_mem app ha)
    have happ := decodeApp_appNode (hwritten app List.mem_cons_self) (hsha app List.mem_cons_self)
      (hwire app List.mem_cons_self)
    rw [List.map_cons, List.mapM_cons, happ, hrest]
    have hcons : (∀ a ∈ app :: apps, a.wireBuffer.length ≤ maxWire) ↔
        app.wireBuffer.length ≤ maxWire ∧ ∀ a ∈ apps, a.wireBuffer.length ≤ maxWire := List.forall_mem_cons
    by_cases hlong : maxWire < app.wireBuffer.length
    · rw [if_pos hlong, if_neg (mt hcons.mp fun h => absurd h.1 (Nat.not_le.mpr hlong))]
      rfl
    · rw [if_neg hlong]
      by_cases hall : ∀ a ∈ apps, a.wireBuffer.length ≤ maxWire
      · rw [if_pos hall, if_pos (hcons.mpr ⟨Nat.le_of_not_lt hlong, hall⟩)]
        rfl
      · rw [if_neg hall, if_neg (mt hcons.mp fun h => hall h.2)]
        rfl

private theorem decodeRejected_written {base : UInt32} {ids : List UInt32} (h : ∀ id ∈ ids, ¬(id = 0 ∨ id = base)) :
    (ids.map fun id => number id.toNat).mapM (decodeRejected base) = some ids := by
  induction ids with
  | nil => rfl
  | cons id ids ih =>
    rw [List.map_cons, List.mapM_cons, ih fun other hother => h other (List.mem_cons_of_mem id hother), decodeRejected,
      asUnsigned_uint32]
    rw [if_neg (h id List.mem_cons_self)]
    rfl

private theorem encodeCache_eq_some {lib : Libraries} {record : CacheRecord} {text : Bytes}
    (h : encodeCache lib record = some text) :
    ¬(record.baseAppId = 0 ∨ record.baseSha.length ≠ 20) ∧
    (∀ app ∈ record.apps, ¬(app.appid = 0 ∨ app.sha.length ≠ 20 ∨ app.wireBuffer = [])) ∧
    (∀ id ∈ record.rejectedAppIds, ¬(id = 0 ∨ id = record.baseAppId)) ∧
    lib.emit (cacheNode lib record) = some text ∧ text ≠ [] := by
  simp only [encodeCache, Option.ite_none_left_eq_some, List.any_eq_true, decide_eq_true_eq, not_exists, not_and] at h
  obtain ⟨hbase, happs, hrejected, hemit⟩ := h
  rw [Option.filter_eq_some_iff] at hemit
  exact ⟨hbase, happs, hrejected, hemit.1, by simpa using hemit.2⟩

/-- The reader's answer for the document of a record that the writer takes. -/
theorem decodeRoot_written {lib : Libraries} {record : CacheRecord}
    (hbase : ¬(record.baseAppId = 0 ∨ record.baseSha.length ≠ 20))
    (happs : ∀ app ∈ record.apps, ¬(app.appid = 0 ∨ app.sha.length ≠ 20 ∨ app.wireBuffer = []))
    (hrejected : ∀ id ∈ record.rejectedAppIds, ¬(id = 0 ∨ id = record.baseAppId)) (hback : GivesBack lib record)
    (root : Entries) (hroot : cacheNode lib record = .map root) :
    decodeRoot lib root =
      if record.apps.length + record.rejectedAppIds.length ≤ maxEntries ∧
        ∀ app ∈ record.apps, app.wireBuffer.length ≤ maxWire then some record else none := by
  obtain rfl := Node.map.inj hroot
  have hschema : asUnsigned 0x100000000 (some (number 1)) = 1 := asUnsigned_number (by decide) (by decide)
  simp only [decodeRoot, mapOf, subnode, utf8_inj, String.reduceEq, if_false, if_true, asUnsigned_uint32,
    asUnsigned_uint64, hschema]
  rw [listOf_sequenceOf, listOf_sequenceOf, List.length_map, List.length_map,
    decodeApps_written happs hback.sha hback.wire, decodeRejected_written hrejected]
  rw [if_neg (by decide), Option.map_some, asString, Option.bind_eq_bind, Option.bind_some, Option.bind_some,
    hback.baseSha, Option.bind_eq_bind, Option.bind_some]
  simp only [not_or] at hbase
  simp only [hbase.1, hbase.2, false_or]
  by_cases hentries : record.apps.length + record.rejectedAppIds.length ≤ maxEntries
  · rw [if_neg (Nat.not_lt.mpr hentries)]
    by_cases hwires : ∀ app ∈ record.apps, app.wireBuffer.length ≤ maxWire
    · rw [if_pos hwires, if_pos ⟨hentries, hwires⟩]
      rfl
    · rw [if_neg hwires, if_neg fun h => hwires h.2]
      rfl
  · rw [if_pos (Nat.lt_of_not_le hentries), if_neg fun h => hentries h.1]

private theorem decodeCache_written {lib : Libraries} {record : CacheRecord} (hback : GivesBack lib record)
    {text : Bytes} (h : encodeCache lib record = some text) :
    decodeCache lib text =
      if text.length ≤ maxInput ∧ record.apps.length + record.rejectedAppIds.length ≤ maxEntries ∧
        ∀ app ∈ record.apps, app.wireBuffer.length ≤ maxWire then some record else none := by
  obtain ⟨hbase, happs, hrejected, hemit, htext⟩ := encodeCache_eq_some h
  rw [decodeCache]
  by_cases hsize : text.length ≤ maxInput
  · rw [if_neg (by rw [not_or]; exact ⟨htext, Nat.not_lt.mpr hsize⟩), hback.yaml text hemit]
    have hroot := decodeRoot_written hbase happs hrejected hback _ rfl
    simp only [hsize, true_and]
    exact hroot
  · rw [if_pos (.inr (Nat.lt_of_not_le hsize)), if_neg fun h => hsize h.1]

/-- A record that is written reads back just when it is within the reader's limits. -/
theorem cache_round_trip_iff {lib : Libraries} {record : CacheRecord} (hback : GivesBack lib record) {text : Bytes}
    (hencode : encodeCache lib record = some text) :
    decodeCache lib text = some record ↔ WithinLimits lib record := by
  have hemit := (encodeCache_eq_some hencode).2.2.2.1
  rw [decodeCache_written hback hencode, Option.ite_none_right_eq_some]
  constructor
  · rintro ⟨⟨hsize, hentries, hwires⟩, -⟩
    refine ⟨hentries, hwires, fun other hother => ?_⟩
    rwa [← Option.some.inj (hemit.symm.trans hother)]
  · intro h
    exact ⟨⟨h.input text hemit, h.entries, h.wires⟩, rfl⟩

/-- The base64 of the byte strings below. -/
def base64Table : List (Bytes × Bytes) := [
  (List.replicate 20 0x62, utf8 "YmJiYmJiYmJiYmJiYmJiYmJiYmI="),
  (List.replicate 20 0x61, utf8 "YWFhYWFhYWFhYWFhYWFhYWFhYWE="),
  (utf8 "xyz", utf8 "eHl6")]

/-- Libraries that know the text of one record. -/
def standIn (record : CacheRecord) (text : Bytes) : Libraries where
  emit _ := some text
  load input :=
    if input = text then
      some (cacheNode ⟨fun _ => none, fun _ => none, fun s => (base64Table.lookup s).getD [], fun _ => none⟩ record)
    else none
  toBase64 s := (base64Table.lookup s).getD []
  fromBase64 t := (base64Table.find? fun entry => entry.2 == t).map Prod.fst

private theorem standIn_yaml (record : CacheRecord) (text : Bytes) (other : Bytes)
    (h : (standIn record text).emit (cacheNode (standIn record text) record) = some other) :
    (standIn record text).load other = some (cacheNode (standIn record text) record) := by
  obtain rfl := Option.some.inj h
  exact if_pos rfl

def smallRecord : CacheRecord where
  baseAppId := 10
  baseChangeNumber := 1
  baseSha := List.replicate 20 0x62
  apps := [{ appid := 20, changeNumber := 1, sha := List.replicate 20 0x61, wireBuffer := utf8 "xyz" }]
  rejectedAppIds := [30]

def smallText : Bytes :=
  utf8 "schema: 1\nbase_appid: 10\nbase_generation: 0\nbase_change_number: 1\n" ++
  utf8 "base_sha_b64: YmJiYmJiYmJiYmJiYmJiYmJiYmI=\napps:\n  - appid: 20\n    change_number: 1\n" ++
  utf8 "    sha_b64: YWFhYWFhYWFhYWFhYWFhYWFhYWE=\n    wire_b64: eHl6\nrejected_appids:\n  - 30"

theorem smallRecord_round_trip : decodeCache (standIn smallRecord smallText) smallText = some smallRecord := by
  have hback : GivesBack (standIn smallRecord smallText) smallRecord := {
    yaml := standIn_yaml smallRecord smallText
    baseSha := by decide +kernel
    sha := by decide +kernel
    wire := by decide +kernel }
  have hencode : encodeCache (standIn smallRecord smallText) smallRecord = some smallText := by decide +kernel
  apply (cache_round_trip_iff hback hencode).mpr
  refine ⟨by decide +kernel, by decide +kernel, fun text htext => ?_⟩
  obtain rfl := Option.some.inj htext
  decide +kernel

/-- A record of 4097 rejected apps and no other. -/
def longRecord : CacheRecord where
  baseAppId := 10
  baseChangeNumber := 1
  baseSha := List.replicate 20 0x62
  rejectedAppIds := List.replicate 4097 30

def longText : Bytes :=
  utf8 "schema: 1\nbase_appid: 10\nbase_generation: 0\nbase_change_number: 1\n" ++
  utf8 "base_sha_b64: YmJiYmJiYmJiYmJiYmJiYmJiYmI=\napps:\n  []\nrejected_appids:" ++
  (List.replicate 4097 (utf8 "\n  - 30")).flatten

/-- The file that is written for it is refused. -/
theorem longRecord_refused :
    encodeCache (standIn longRecord longText) longRecord = some longText ∧
      decodeCache (standIn longRecord longText) longText = none := by
  have hback : GivesBack (standIn longRecord longText) longRecord := {
    yaml := standIn_yaml longRecord longText
    baseSha := by decide +kernel
    sha := fun app happ => absurd happ List.not_mem_nil
    wire := fun app happ => absurd happ List.not_mem_nil }
  have hencode : encodeCache (standIn longRecord longText) longRecord = some longText := by
    have hids : longRecord.rejectedAppIds.any (fun id => id = 0 ∨ id = longRecord.baseAppId) = false := by
      rw [longRecord, List.any_eq_false]
      intro id hid
      rw [(List.mem_replicate.mp hid).2]
      decide
    have hbase : ¬(longRecord.baseAppId = 0 ∨ longRecord.baseSha.length ≠ 20) := by decide +kernel
    have happs : longRecord.apps = [] := rfl
    have htext : longText ≠ [] := List.append_ne_nil_of_left_ne_nil (by decide +kernel) _
    rw [encodeCache, if_neg hbase, happs, hids, List.any_nil, if_neg Bool.false_ne_true, if_neg Bool.false_ne_true,
      standIn, Option.filter_some, if_pos (by simpa using htext)]
  refine ⟨hencode, ?_⟩
  rw [decodeCache_written hback hencode, if_neg]
  rintro ⟨-, hentries, -⟩
  have hlong : longRecord.rejectedAppIds.length = 4097 := List.length_replicate
  rw [hlong, maxEntries] at hentries
  omega

end SlsteamMoon.DlcMetadata
