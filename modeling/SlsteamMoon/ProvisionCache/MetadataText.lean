import Mathlib.Data.List.Nodup
import Mathlib.Data.List.Perm.Basic
import SlsteamMoon.ProvisionCache.Metadata
import SlsteamMoon.ProvisionCache.CmVdf

/-! The text of the metadata record: the parser takes what the writer emits, in every order of its lines, and nothing
that has a key twice, an unknown key, a required key missing or a number out of range. -/
namespace SlsteamMoon.ProvisionCache
open KeyValues

/-- The keys that the parser knows. -/
inductive Field
  | appId
  | changeNumber
  | wireSize
  | shaBase64
  | normalized
  | synthetic
  deriving DecidableEq

namespace Field

def key : Field → Bytes
  | .appId => utf8 "appid"
  | .changeNumber => utf8 "change_number"
  | .wireSize => utf8 "wire_size"
  | .shaBase64 => utf8 "sha_b64"
  | .normalized => utf8 "normalized"
  | .synthetic => utf8 "synthetic"

def all : List Field := [.appId, .changeNumber, .wireSize, .shaBase64, .normalized, .synthetic]

/-- Every number is in the range of its field, a digest has the form of twenty bytes and a flag is a word. -/
def Valid : Field → Bytes → Prop
  | .appId, value => ∃ number, parseUnsigned value = some number ∧ number ≠ 0 ∧ number ≤ maxUInt32
  | .changeNumber, value => ∃ number, parseUnsigned value = some number ∧ number ≤ maxUInt32
  | .wireSize, value => ∃ number, parseUnsigned value = some number ∧ number ≠ 0
  | .shaBase64, value => isShaBase64 value = true
  | .normalized, value | .synthetic, value => value = utf8 "true" ∨ value = utf8 "false"

end Field

/-- The record as far as it has been read, with one more field; the value is one that the field takes. -/
def Parsed.store (p : Parsed) (field : Field) (value : Bytes) : Parsed :=
  match field with
  | .appId => { p with appIdSeen := true, view.appId := (parseUnsigned value).getD 0 }
  | .changeNumber => { p with changeSeen := true, view.changeNumber := (parseUnsigned value).getD 0 }
  | .wireSize => { p with wireSizeSeen := true, view.wireSize := (parseUnsigned value).getD 0 }
  | .shaBase64 => { p with shaSeen := true, view.shaBase64 := value }
  | .normalized => { p with view.hasNormalized := true, view.normalized := (parseBool value).getD false }
  | .synthetic => { p with view.hasSynthetic := true, view.synthetic := (parseBool value).getD false }

def Parsed.seen (p : Parsed) : Field → Bool
  | .appId => p.appIdSeen
  | .changeNumber => p.changeSeen
  | .wireSize => p.wireSizeSeen
  | .shaBase64 => p.shaSeen
  | .normalized => p.view.hasNormalized
  | .synthetic => p.view.hasSynthetic

@[simp] theorem Parsed.seen_store (p : Parsed) (field other : Field) (value : Bytes) :
    (p.store field value).seen other = (decide (other = field) || p.seen other) := by
  cases field <;> cases other <;> rfl

private theorem parseBool_eq_some {value : Bytes} :
    (∃ flag, parseBool value = some flag) ↔ value = utf8 "true" ∨ value = utf8 "false" := by
  rw [parseBool]
  by_cases htrue : value = utf8 "true"
  · rw [if_pos htrue]
    exact iff_of_true ⟨true, rfl⟩ (.inl htrue)
  · rw [if_neg htrue]
    by_cases hfalse : value = utf8 "false"
    · rw [if_pos hfalse]
      exact iff_of_true ⟨false, rfl⟩ (.inr hfalse)
    · rw [if_neg hfalse]
      exact iff_of_false (by rintro ⟨flag, hflag⟩; cases hflag) (by rw [not_or]; exact ⟨htrue, hfalse⟩)

/-- The branch of a key takes a value that is valid for it, the first time. -/
theorem parseField_eq_some {p q : Parsed} {field : Field} {value : Bytes} :
    parseField p field.key value = some q ↔ p.seen field = false ∧ field.Valid value ∧ q = p.store field value := by
  cases field <;>
    simp only [parseField, Field.key, utf8_inj, String.reduceEq, if_false, if_true, Field.Valid, Parsed.seen,
      Parsed.store, ← parseBool_eq_some]
  case appId => cases parseUnsigned value <;> grind
  case changeNumber => cases parseUnsigned value <;> grind
  case wireSize => cases parseUnsigned value <;> grind
  case shaBase64 => grind
  case normalized => cases parseBool value <;> grind
  case synthetic => cases parseBool value <;> grind

/-! ### One line -/

def separator : Bytes := [0x3a, 0x20]

/-- The line of a key with its value. -/
def pairLine (pair : Bytes × Bytes) : Bytes := pair.1 ++ separator ++ pair.2

private theorem splitSeparator_pairLine {key : Bytes} (h : 0x3a ∉ key) (value : Bytes) :
    splitSeparator (pairLine (key, value)) = some (key, value) := by
  rw [pairLine, List.append_assoc]
  induction key with
  | nil => rfl
  | cons c key ih =>
    obtain ⟨hc, hkey⟩ := List.ne_and_not_mem_of_not_mem_cons h
    rw [List.cons_append, splitSeparator, ih hkey]
    · rfl
    · rintro rest rfl -
      exact hc rfl

private theorem pairLine_of_splitSeparator {line key value : Bytes} (h : splitSeparator line = some (key, value)) :
    line = pairLine (key, value) := by
  induction line using splitSeparator.induct generalizing key with
  | case1 rest =>
    obtain ⟨rfl, rfl⟩ := Prod.mk.inj (Option.some.inj h)
    rfl
  | case2 c cs hne ih =>
    rw [splitSeparator] at h
    · obtain ⟨⟨front, rest⟩, hfront, heq⟩ := Option.map_eq_some_iff.mp h
      obtain ⟨rfl, rfl⟩ := Prod.mk.inj heq
      rw [ih hfront]
      rfl
    · exact hne
  | case3 => cases h

private theorem isBase64_graphic {c : UInt8} (h : isBase64 c = true) : 0x20 < c := by
  simp only [isBase64, isUpper, isLower, isDigit, Bool.or_eq_true, Bool.and_eq_true, decide_eq_true_eq, beq_iff_eq,
    UInt8.le_iff_toNat_le, UInt8.lt_iff_toNat_lt, ← UInt8.toNat_inj] at h ⊢
  simp at h ⊢
  omega

private theorem parseUnsigned_digits {value : Bytes} {number : Nat} (h : parseUnsigned value = some number) :
    value ≠ [] ∧ ∀ c ∈ value, isDigit c = true := by
  rw [parseUnsigned] at h
  split_ifs at h with hread
  exact ⟨hread.1, List.all_eq_true.mp hread.2.1⟩

private theorem isShaBase64_letters {value : Bytes} (h : isShaBase64 value = true) :
    value ≠ [] ∧ ∀ c ∈ value, isBase64 c = true ∨ c = equalsSign := by
  simp only [isShaBase64, Bool.and_eq_true, decide_eq_true_eq] at h
  obtain ⟨⟨-, hlast⟩, hletters⟩ := h
  obtain ⟨front, rfl⟩ := List.getLast?_eq_some_iff.mp hlast
  rw [List.dropLast_concat, List.all_eq_true] at hletters
  refine ⟨List.append_ne_nil_of_right_ne_nil front (List.cons_ne_nil _ _), fun c hc => ?_⟩
  rw [List.mem_append, List.mem_singleton] at hc
  exact hc.imp_left (hletters c)

/-- A value that is valid for its field is one visible word. -/
theorem Field.Valid.graphic {field : Field} {value : Bytes} (h : field.Valid value) :
    value ≠ [] ∧ ∀ c ∈ value, 0x20 < c := by
  have hnumber : ∀ number, parseUnsigned value = some number → value ≠ [] ∧ ∀ c ∈ value, 0x20 < c := by
    intro number hread
    obtain ⟨hne, hdigits⟩ := parseUnsigned_digits hread
    refine ⟨hne, fun c hc => isBase64_graphic ?_⟩
    rw [isBase64, hdigits c hc]
    simp
  have hword : value = utf8 "true" ∨ value = utf8 "false" → value ≠ [] ∧ ∀ c ∈ value, 0x20 < c := by
    rintro (rfl | rfl) <;> decide +kernel
  cases field with
  | appId =>
    obtain ⟨number, hread, -⟩ := h
    exact hnumber number hread
  | changeNumber =>
    obtain ⟨number, hread, -⟩ := h
    exact hnumber number hread
  | wireSize =>
    obtain ⟨number, hread, -⟩ := h
    exact hnumber number hread
  | shaBase64 =>
    obtain ⟨hne, hletters⟩ := isShaBase64_letters h
    refine ⟨hne, fun c hc => ?_⟩
    obtain hletter | rfl := hletters c hc
    · exact isBase64_graphic hletter
    · decide
  | normalized => exact hword h
  | synthetic => exact hword h

private theorem Field.key_plain (field : Field) : field.key ≠ [] ∧ 0x3a ∉ field.key ∧ ∀ c ∈ field.key, 0x20 < c := by
  cases field <;> decide +kernel

/-- The line of a field. -/
def Field.line (entry : Field × Bytes) : Bytes := pairLine (entry.1.key, entry.2)

private theorem Field.line_plain {entry : Field × Bytes} (h : entry.1.Valid entry.2) :
    Field.line entry ≠ [] ∧ 0x0d ∉ Field.line entry ∧ newline ∉ Field.line entry := by
  obtain ⟨hkey, -, hkeyBytes⟩ := entry.1.key_plain
  have hbytes : ∀ c ∈ Field.line entry, 0x20 ≤ c := by
    intro c hc
    rw [Field.line, pairLine, List.mem_append, List.mem_append] at hc
    obtain (hc | hc) | hc := hc
    · exact UInt8.le_of_lt (hkeyBytes c hc)
    · have hall : separator.all (fun b => decide (0x20 ≤ b)) = true := by decide +kernel
      exact of_decide_eq_true (List.all_eq_true.mp hall c hc)
    · exact UInt8.le_of_lt (h.graphic.2 c hc)
  refine ⟨?_, fun hc => absurd (hbytes _ hc) (by decide), fun hc => absurd (hbytes _ hc) (by decide)⟩
  simp [Field.line, pairLine, hkey]

/-- Only the known keys are taken. -/
theorem exists_field_of_parseField {p q : Parsed} {key value : Bytes} (h : parseField p key value = some q) :
    ∃ field : Field, key = field.key := by
  by_contra hne
  rw [not_exists] at hne
  have happ := hne .appId
  have hchange := hne .changeNumber
  have hsize := hne .wireSize
  have hsha := hne .shaBase64
  have hnormalized := hne .normalized
  have hsynthetic := hne .synthetic
  simp only [Field.key] at happ hchange hsize hsha hnormalized hsynthetic
  rw [parseField, if_neg happ, if_neg hchange, if_neg hsize, if_neg hsha, if_neg hnormalized, if_neg hsynthetic] at h
  cases h

/-- A line is taken just when it is the line of a field that has not been seen, with a value that is valid for it. -/
theorem parseLine_eq_some {p q : Parsed} {line : Bytes} :
    parseLine p line = some q ↔ ∃ entry : Field × Bytes, line = Field.line entry ∧ p.seen entry.1 = false ∧
      entry.1.Valid entry.2 ∧ q = p.store entry.1 entry.2 := by
  constructor
  · intro h
    rw [parseLine] at h
    split_ifs at h with hline
    split at h
    · next key value hsplit =>
      split_ifs at h with hpart
      obtain ⟨field, rfl⟩ := exists_field_of_parseField h
      exact ⟨(field, value), pairLine_of_splitSeparator hsplit, parseField_eq_some.mp h⟩
    · cases h
  · rintro ⟨⟨field, value⟩, rfl, hfield⟩
    obtain ⟨hne, hreturn, -⟩ := Field.line_plain hfield.2.1
    obtain ⟨hkey, hcolon, -⟩ := field.key_plain
    have hsplit : splitSeparator (Field.line (field, value)) = some (field.key, value) :=
      splitSeparator_pairLine hcolon value
    rw [parseLine, if_neg (by rw [not_or]; exact ⟨hne, hreturn⟩), hsplit]
    exact (if_neg (by rw [not_or]; exact ⟨hkey, hfield.2.1.graphic.1⟩)).trans (parseField_eq_some.mpr hfield)

/-! ### The lines of a text -/

def storeAll (p : Parsed) (entries : List (Field × Bytes)) : Parsed :=
  entries.foldl (fun p entry => p.store entry.1 entry.2) p

private theorem seen_storeAll (p : Parsed) (entries : List (Field × Bytes)) (field : Field) :
    (storeAll p entries).seen field = true ↔ field ∈ entries.map Prod.fst ∨ p.seen field = true := by
  induction entries generalizing p with
  | nil => simp [storeAll]
  | cons entry entries ih =>
    rw [storeAll, List.foldl_cons, ← storeAll, ih, Parsed.seen_store, Bool.or_eq_true, decide_eq_true_eq,
      List.map_cons, List.mem_cons, ← or_assoc, or_comm (a := field ∈ _)]

/-- What is taken from the empty record on. -/
structure Takes (p : Parsed) (entries : List (Field × Bytes)) : Prop where
  distinct : (entries.map Prod.fst).Nodup
  unseen : ∀ entry ∈ entries, p.seen entry.1 = false
  valid : ∀ entry ∈ entries, entry.1.Valid entry.2

private theorem takes_cons {p : Parsed} {entry : Field × Bytes} {entries : List (Field × Bytes)} :
    Takes p (entry :: entries) ↔
      p.seen entry.1 = false ∧ entry.1.Valid entry.2 ∧ Takes (p.store entry.1 entry.2) entries := by
  constructor
  · rintro ⟨hdistinct, hunseen, hvalid⟩
    rw [List.map_cons, List.nodup_cons] at hdistinct
    rw [List.forall_mem_cons] at hunseen hvalid
    refine ⟨hunseen.1, hvalid.1, hdistinct.2, fun other hother => ?_, hvalid.2⟩
    rw [Parsed.seen_store, hunseen.2 other hother, Bool.or_false, decide_eq_false_iff_not]
    intro heq
    exact hdistinct.1 (heq ▸ List.mem_map_of_mem hother)
  · rintro ⟨hunseen, hvalid, hrest⟩
    have hapart : ∀ other ∈ entries, other.1 ≠ entry.1 ∧ p.seen other.1 = false := by
      intro other hother
      have hseen := hrest.unseen other hother
      rwa [Parsed.seen_store, Bool.or_eq_false_iff, decide_eq_false_iff_not] at hseen
    refine ⟨?_, List.forall_mem_cons.mpr ⟨hunseen, fun other hother => (hapart other hother).2⟩,
      List.forall_mem_cons.mpr ⟨hvalid, hrest.valid⟩⟩
    rw [List.map_cons, List.nodup_cons]
    refine ⟨fun hmem => ?_, hrest.distinct⟩
    obtain ⟨other, hother, heq⟩ := List.mem_map.mp hmem
    exact (hapart other hother).1 heq

/-- The lines are taken just when they are the lines of fields that are all different. -/
theorem foldlM_parseLine {lines : List Bytes} {p q : Parsed} :
    lines.foldlM parseLine p = some q ↔
      ∃ entries, lines = entries.map Field.line ∧ Takes p entries ∧ q = storeAll p entries := by
  induction lines generalizing p with
  | nil =>
    constructor
    · intro h
      exact ⟨[], rfl, ⟨List.nodup_nil, List.forall_mem_nil _, List.forall_mem_nil _⟩, (Option.some.inj h).symm⟩
    · rintro ⟨entries, hlines, -, rfl⟩
      rw [List.map_eq_nil_iff.mp hlines.symm]
      rfl
  | cons line lines ih =>
    rw [List.foldlM_cons, Option.bind_eq_bind, Option.bind_eq_some_iff]
    constructor
    · rintro ⟨r, hline, hlines⟩
      obtain ⟨entry, rfl, hunseen, hvalid, rfl⟩ := parseLine_eq_some.mp hline
      obtain ⟨entries, rfl, hrest, rfl⟩ := ih.mp hlines
      exact ⟨entry :: entries, rfl, takes_cons.mpr ⟨hunseen, hvalid, hrest⟩, rfl⟩
    · rintro ⟨entries, hlines, htakes, rfl⟩
      cases entries with
      | nil => cases hlines
      | cons entry entries =>
        obtain ⟨rfl, rfl⟩ := List.cons.inj hlines
        obtain ⟨hunseen, hvalid, hrest⟩ := takes_cons.mp htakes
        exact ⟨_, parseLine_eq_some.mpr ⟨entry, rfl, hunseen, hvalid, rfl⟩, ih.mpr ⟨entries, rfl, hrest, rfl⟩⟩

/-- No key twice, every value valid for its key and every required key there. -/
structure WellFormed (entries : List (Field × Bytes)) : Prop where
  distinct : (entries.map Prod.fst).Nodup
  valid : ∀ entry ∈ entries, entry.1.Valid entry.2
  required : ∀ field ∈ [Field.appId, .wireSize, .shaBase64], field ∈ entries.map Prod.fst

def viewOf (entries : List (Field × Bytes)) : CacheMetadataView := (storeAll {} entries).view

private theorem seen_empty (field : Field) : ({} : Parsed).seen field = false := by
  cases field <;> rfl

/-- The texts that are accepted, and what is read from them. -/
theorem parseCacheMetadata_eq_some {text : Bytes} {view : CacheMetadataView} :
    parseCacheMetadata text = some view ↔
      ∃ entries, textLines text = entries.map Field.line ∧ WellFormed entries ∧ view = viewOf entries := by
  have hrequired : ∀ entries : List (Field × Bytes),
      ((storeAll {} entries).appIdSeen ∧ (storeAll {} entries).wireSizeSeen ∧ (storeAll {} entries).shaSeen) ↔
        ∀ field ∈ [Field.appId, .wireSize, .shaBase64], field ∈ entries.map Prod.fst := by
    intro entries
    have hseen : ∀ field, (storeAll {} entries).seen field = true ↔ field ∈ entries.map Prod.fst := by
      intro field
      rw [seen_storeAll, seen_empty, or_iff_left Bool.false_ne_true]
    simp only [List.forall_mem_cons, ← hseen, List.not_mem_nil, false_imp_iff, implies_true, and_true, Parsed.seen]
  rw [parseCacheMetadata]
  constructor
  · intro h
    cases hrun : (textLines text).foldlM parseLine {} with
    | none =>
      rw [hrun] at h
      cases h
    | some p =>
      obtain ⟨entries, hlines, htakes, rfl⟩ := foldlM_parseLine.mp hrun
      rw [hrun] at h
      dsimp only at h
      split_ifs at h with hseen
      exact ⟨entries, hlines, ⟨htakes.distinct, htakes.valid, (hrequired entries).mp hseen⟩,
        (Option.some.inj h).symm⟩
  · rintro ⟨entries, hlines, hentries, rfl⟩
    have htakes : Takes {} entries := ⟨hentries.distinct, fun entry _ => seen_empty entry.1, hentries.valid⟩
    rw [foldlM_parseLine.mpr ⟨entries, hlines, htakes, rfl⟩]
    exact if_pos ((hrequired entries).mpr hentries.required)

private theorem store_comm (p : Parsed) {entry other : Field × Bytes} (h : entry.1 ≠ other.1) :
    (p.store entry.1 entry.2).store other.1 other.2 = (p.store other.1 other.2).store entry.1 entry.2 := by
  obtain ⟨field, value⟩ := entry
  obtain ⟨field', value'⟩ := other
  revert h
  cases field <;> cases field' <;> intro h <;> first | rfl | exact absurd rfl h

/-- The order of the lines plays no part. -/
theorem viewOf_perm {entries entries' : List (Field × Bytes)} (hperm : entries'.Perm entries)
    (hdistinct : (entries.map Prod.fst).Nodup) : viewOf entries' = viewOf entries := by
  rw [viewOf, viewOf, storeAll, storeAll]
  refine congrArg Parsed.view (hperm.foldl_eq' (fun x hx y hy p => ?_) _)
  by_cases heq : x = y
  · rw [heq]
  · refine store_comm p fun hfield => heq ?_
    exact List.inj_on_of_nodup_map hdistinct (hperm.mem_iff.mp hx) (hperm.mem_iff.mp hy) hfield

theorem WellFormed.perm {entries entries' : List (Field × Bytes)} (hperm : entries'.Perm entries)
    (h : WellFormed entries) : WellFormed entries' where
  distinct := (hperm.map Prod.fst).nodup_iff.mpr h.distinct
  valid entry hentry := h.valid entry (hperm.mem_iff.mp hentry)
  required field hfield := (hperm.map Prod.fst).mem_iff.mpr (h.required field hfield)

/-! ### The writer -/

/-- What `persistBuffer` is given to write. -/
structure PersistedBuffer where
  appId : UInt32
  changeNumber : UInt32
  sha20 : Bytes
  wire : Bytes
  markSynthetic : Bool
  named : appId ≠ 0
  digest : sha20.length = 20
  filled : wire ≠ []
  sized : wire.length < 0x10000000000000000

def boolWord (flag : Bool) : Bytes := if flag then utf8 "true" else utf8 "false"

namespace PersistedBuffer

/-- The map that the emitter is given. -/
def pairs (buffer : PersistedBuffer) : List (Bytes × Bytes) :=
  [(utf8 "appid", toDecimal buffer.appId.toNat), (utf8 "change_number", toDecimal buffer.changeNumber.toNat),
    (utf8 "wire_size", toDecimal buffer.wire.length), (utf8 "sha_b64", toBase64 buffer.sha20),
    (utf8 "normalized", boolWord true), (utf8 "synthetic", boolWord buffer.markSynthetic)]

def view (buffer : PersistedBuffer) : CacheMetadataView where
  appId := buffer.appId.toNat
  changeNumber := buffer.changeNumber.toNat
  wireSize := buffer.wire.length
  shaBase64 := toBase64 buffer.sha20
  hasNormalized := true
  normalized := true
  hasSynthetic := true
  synthetic := buffer.markSynthetic

def entries (buffer : PersistedBuffer) : List (Field × Bytes) :=
  [(.appId, toDecimal buffer.appId.toNat), (.changeNumber, toDecimal buffer.changeNumber.toNat),
    (.wireSize, toDecimal buffer.wire.length), (.shaBase64, toBase64 buffer.sha20),
    (.normalized, boolWord true), (.synthetic, boolWord buffer.markSynthetic)]

theorem parseUnsigned_toDecimal {n : Nat} (h : n < 0x10000000000000000) : parseUnsigned (toDecimal n) = some n := by
  rw [parseUnsigned, numberOf_toDecimal]
  exact if_pos ⟨toDecimal_ne_nil n, toDecimal_all_isDigit n, h⟩

private theorem parseBool_boolWord (flag : Bool) : parseBool (boolWord flag) = some flag := by
  cases flag <;> decide +kernel

private theorem boolWord_valid (flag : Bool) : boolWord flag = utf8 "true" ∨ boolWord flag = utf8 "false" := by
  cases flag
  · exact .inr rfl
  · exact .inl rfl

private theorem entries_wellFormed (buffer : PersistedBuffer) : WellFormed buffer.entries := by
  have happ := buffer.appId.toNat_lt
  have hchange := buffer.changeNumber.toNat_lt
  have hnamed : buffer.appId.toNat ≠ 0 := fun h => buffer.named (UInt32.toNat_inj.mp h)
  have hfields : buffer.entries.map Prod.fst = Field.all := rfl
  refine ⟨by rw [hfields]; decide, ?_, by rw [hfields]; decide⟩
  simp only [entries, List.forall_mem_cons]
  exact ⟨⟨_, parseUnsigned_toDecimal (by omega), hnamed, Nat.le_of_lt_succ happ⟩,
    ⟨_, parseUnsigned_toDecimal (by omega), Nat.le_of_lt_succ hchange⟩,
    ⟨_, parseUnsigned_toDecimal buffer.sized, by simpa using buffer.filled⟩, isShaBase64_toBase64 buffer.digest,
    boolWord_valid true, boolWord_valid _, List.forall_mem_nil _⟩

private theorem viewOf_entries (buffer : PersistedBuffer) : viewOf buffer.entries = buffer.view := by
  have happ := buffer.appId.toNat_lt
  have hchange := buffer.changeNumber.toNat_lt
  simp only [viewOf, storeAll, entries, List.foldl_cons, List.foldl_nil, Parsed.store, view,
    parseUnsigned_toDecimal buffer.sized, parseUnsigned_toDecimal (show buffer.appId.toNat < _ by omega),
    parseUnsigned_toDecimal (show buffer.changeNumber.toNat < _ by omega), parseBool_boolWord, Option.getD_some]

end PersistedBuffer

/-- What a YAML emitter writes as it stands, at the least: a short word of letters, digits and the signs of a base64
text that is not one for nothing. -/
structure PlainScalar (word : Bytes) : Prop where
  ne_nil : word ≠ []
  plain : ∀ c ∈ word, isBase64 c = true ∨ c = equalsSign ∨ c = 0x5f
  notNull : word ∉ [utf8 "null", utf8 "Null", utf8 "NULL"]
  short : word.length ≤ 1024

/-- A map of plain scalars is written in block style: one line each, in the order of the map, no newline at the end. -/
def EmitsBlock (emit : List (Bytes × Bytes) → Bytes) : Prop :=
  ∀ pairs ≠ [], (∀ pair ∈ pairs, PlainScalar pair.1 ∧ PlainScalar pair.2) →
    emit pairs = [newline].intercalate (pairs.map pairLine)

private theorem textLines_intercalate {lines : List Bytes} (hne : lines ≠ [])
    (hlines : ∀ line ∈ lines, line ≠ [] ∧ newline ∉ line) : textLines ([newline].intercalate lines) = lines := by
  rw [textLines, List.splitOn_intercalate newline (fun line hline => (hlines line hline).2) hne]
  refine if_neg fun hlast => ?_
  exact (hlines [] (List.mem_of_getLast? hlast)).1 rfl

theorem number_plain {n : Nat} (h : n < 0x10000000000000000) : PlainScalar (toDecimal n) := by
  have hdigits : ∀ c ∈ toDecimal n, isDigit c = true := List.all_eq_true.mp (toDecimal_all_isDigit n)
  refine ⟨toDecimal_ne_nil n, fun c hc => .inl ?_, fun hnull => ?_, ?_⟩
  · rw [isBase64, hdigits c hc]
    simp
  · have hword : ∀ word ∈ [utf8 "null", utf8 "Null", utf8 "NULL"], ∃ c ∈ word, isDigit c = false := by decide +kernel
    obtain ⟨c, hc, hdigit⟩ := hword _ hnull
    rw [hdigits c hc] at hdigit
    cases hdigit
  · have hlength : (Nat.toDigits 10 n).length ≤ 20 := (Nat.length_toDigits_le_iff (by decide) (by decide)).mpr (by omega)
    rw [toDecimal, List.length_map]
    omega

/-- The text of whole groups and two bytes, group by group. -/
theorem toBase64_letters {data : Bytes} (h : data.length % 3 = 2) :
    (toBase64 data).length = (data.length + 1) / 3 * 4 ∧ ∀ c ∈ toBase64 data, isBase64 c = true ∨ c = equalsSign := by
  obtain ⟨front, a, b, rfl, hfront⟩ := exists_groups h
  obtain ⟨-, hlength, hletters⟩ := toBase64_groups hfront
  obtain ⟨group, htext, hgroup, -, hlast⟩ := toBase64_pair hfront a b
  constructor
  · simp only [htext, List.length_append, List.length_cons, List.length_nil, hlength, hgroup]
    omega
  · intro c hc
    rw [htext, List.mem_append, List.mem_append, List.mem_singleton] at hc
    obtain hc | hc | hc := hc
    · exact .inl (hletters c hc)
    · exact .inl (hlast c hc)
    · exact .inr hc

theorem base64_plain {data : Bytes} (h : data.length % 3 = 2) (hlong : 3 < data.length) (hshort : data.length ≤ 767) :
    PlainScalar (toBase64 data) := by
  obtain ⟨hlength, hletters⟩ := toBase64_letters h
  refine ⟨List.ne_nil_of_length_pos (by omega), fun c hc => (hletters c hc).imp_right .inl, fun hnull => ?_, by omega⟩
  have hword : ∀ word ∈ [utf8 "null", utf8 "Null", utf8 "NULL"], word.length = 4 := by decide +kernel
  have hfour := hword _ hnull
  omega

namespace PersistedBuffer

private theorem word_plain : ∀ word ∈ [utf8 "true", utf8 "false", utf8 "appid", utf8 "change_number", utf8 "wire_size",
    utf8 "sha_b64", utf8 "normalized", utf8 "synthetic"], PlainScalar word := by
  intro word hword
  refine ⟨?_, ?_, ?_, ?_⟩ <;> revert word <;> decide +kernel

private theorem pairs_plain (buffer : PersistedBuffer) :
    ∀ pair ∈ buffer.pairs, PlainScalar pair.1 ∧ PlainScalar pair.2 := by
  have happ := buffer.appId.toNat_lt
  have hchange := buffer.changeNumber.toNat_lt
  have hdigest : PlainScalar (toBase64 buffer.sha20) :=
    base64_plain (by rw [buffer.digest]) (by rw [buffer.digest]; decide) (by rw [buffer.digest]; decide)
  have hflag : PlainScalar (boolWord buffer.markSynthetic) := by
    cases buffer.markSynthetic <;> exact word_plain _ (by simp [boolWord])
  simp only [pairs, List.forall_mem_cons]
  exact ⟨⟨word_plain _ (by simp), number_plain (by omega)⟩, ⟨word_plain _ (by simp), number_plain (by omega)⟩,
    ⟨word_plain _ (by simp), number_plain buffer.sized⟩, ⟨word_plain _ (by simp), hdigest⟩,
    ⟨word_plain _ (by simp), word_plain _ (by simp [boolWord])⟩, ⟨word_plain _ (by simp), hflag⟩, List.forall_mem_nil _⟩

/-- The lines that the writer emits. -/
theorem textLines_emit {emit : List (Bytes × Bytes) → Bytes} (hemit : EmitsBlock emit) (buffer : PersistedBuffer) :
    textLines (emit buffer.pairs) = buffer.entries.map Field.line := by
  have hlines : buffer.pairs.map pairLine = buffer.entries.map Field.line := rfl
  have hne : buffer.pairs ≠ [] := List.cons_ne_nil _ _
  rw [hemit buffer.pairs hne buffer.pairs_plain, hlines]
  refine textLines_intercalate (List.cons_ne_nil _ _) fun line hline => ?_
  obtain ⟨entry, hentry, rfl⟩ := List.mem_map.mp hline
  have hplain := Field.line_plain (buffer.entries_wellFormed.valid entry hentry)
  exact ⟨hplain.1, hplain.2.2⟩

end PersistedBuffer

/-- The parser takes the lines of the writer in every order, with and without a newline at the end, and gives back every
field of the record; whatever it takes is well formed. -/
theorem cache_metadata_read_back (emit : List (Bytes × Bytes) → Bytes) (hemit : EmitsBlock emit) :
    (∀ (buffer : PersistedBuffer) (text : Bytes), (textLines text).Perm (textLines (emit buffer.pairs)) →
      parseCacheMetadata text = some buffer.view ∧ fromBase64 buffer.view.shaBase64 = .ok buffer.sha20) ∧
    ∀ (text : Bytes) (view : CacheMetadataView), parseCacheMetadata text = some view →
      ∃ entries, textLines text = entries.map Field.line ∧ WellFormed entries ∧ view = viewOf entries := by
  refine ⟨fun buffer text hperm => ⟨?_, ?_⟩, fun text view h => parseCacheMetadata_eq_some.mp h⟩
  · rw [buffer.textLines_emit hemit] at hperm
    obtain ⟨entries, hlines, hentries⟩ := (congrFun₂ (List.eq_map_comp_perm Field.line) _ _).mpr hperm
    have hview : buffer.view = viewOf entries := by
      rw [viewOf_perm hentries buffer.entries_wellFormed.distinct, buffer.viewOf_entries]
    exact parseCacheMetadata_eq_some.mpr ⟨entries, hlines, buffer.entries_wellFormed.perm hentries, hview⟩
  · exact fromBase64_toBase64 (by rw [buffer.digest])

/-- An emitter of plain scalars. -/
def emitLines (pairs : List (Bytes × Bytes)) : Bytes := [newline].intercalate (pairs.map pairLine)

theorem emitLines_emitsBlock : EmitsBlock emitLines := fun _ _ _ => rfl

def smallBuffer : PersistedBuffer where
  appId := 480
  changeNumber := 7
  sha20 := List.replicate 20 0xa5
  wire := utf8 "depots"
  markSynthetic := false
  named := by decide
  digest := rfl
  filled := by decide +kernel
  sized := by decide +kernel

theorem cache_metadata_read_back_reversed :
    parseCacheMetadata (emitLines smallBuffer.pairs.reverse ++ [newline]) = some smallBuffer.view :=
  ((cache_metadata_read_back emitLines emitLines_emitsBlock).1 smallBuffer _ (by decide +kernel)).1

end SlsteamMoon.ProvisionCache
