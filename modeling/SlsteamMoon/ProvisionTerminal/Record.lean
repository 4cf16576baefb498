import SlsteamMoon.LabelledLines
import SlsteamMoon.HotReload.Memo
import SlsteamMoon.ProvisionCache.CmVdf

/-! Terminal results of provisioning: the record of a change number, its text, and the
fingerprint of the local inputs that it rests on. -/
namespace SlsteamMoon.ProvisionTerminal
open KeyValues LabelledLines
open HotReload (LocalInput)
open ProvisionCache (utf8 isDigit numberOf decimalValue toDecimal toDecimal_all_isDigit toDecimal_ne_nil numberOf_toDecimal)

inductive Kind where
  | virtualDlc
  | noUsableContent
  deriving DecidableEq

structure Record where
  schema : UInt32 := 1
  appId : UInt32 := 0
  kind : Kind := .virtualDlc
  changeNumber : UInt32 := 0
  inputFingerprint : Bytes := []
  deriving DecidableEq

def kSchema : UInt32 := 1

def kMaxStateBytes : Nat := 4096

def carriageReturn : UInt8 := 0x0d

/-- from_chars in 32 bits over the whole text, in the spelling of to_string. -/
def parseUnsigned (text : Bytes) : Option UInt32 :=
  let digits := text.takeWhile isDigit
  let value := numberOf 10 decimalValue digits
  if text = [] then none
  else if digits = [] ∨ 0x100000000 ≤ value ∨ text.dropWhile isDigit ≠ [] ∨ toDecimal value ≠ text then none
  else some (UInt32.ofNat value)

def isHexDigit (c : UInt8) : Bool := isDigit c || (0x61 ≤ c && c ≤ 0x66)

def isFingerprint (value : Bytes) : Bool := decide (value.length = 16) && value.all isHexDigit

def isValid (record : Record) : Bool :=
  if record.schema ≠ kSchema ∨ record.appId = 0 ∨ record.changeNumber = 0 then false
  else
    match record.kind with
    | .virtualDlc => record.inputFingerprint == utf8 "-"
    | .noUsableContent => isFingerprint record.inputFingerprint

def kindName : Kind → Bytes
  | .virtualDlc => utf8 "virtual_dlc"
  | .noUsableContent => utf8 "no_usable_content"

def parseKind (text : Bytes) : Option Kind :=
  if text = utf8 "virtual_dlc" then some .virtualDlc
  else if text = utf8 "no_usable_content" then some .noUsableContent
  else none

def labels : List Bytes :=
  [utf8 "schema: ", utf8 "appid: ", utf8 "kind: ", utf8 "change_number: ", utf8 "input_fingerprint: "]

def parse (text : Bytes) : Option Record :=
  if kMaxStateBytes < text.length ∨ carriageReturn ∈ text then none
  else
    match readFields newline labels text with
    | some ([schema, appId, kind, changeNumber, inputFingerprint], []) => do
      let schema ← parseUnsigned schema
      let appId ← parseUnsigned appId
      let changeNumber ← parseUnsigned changeNumber
      let kind ← parseKind kind
      let parsed : Record := { schema, appId, kind, changeNumber, inputFingerprint }
      if isValid parsed then some parsed else none
    | _ => none

def render (record : Record) : Bytes :=
  if isValid record then
    utf8 "schema: " ++ toDecimal record.schema.toNat ++ [newline] ++
    utf8 "appid: " ++ toDecimal record.appId.toNat ++ [newline] ++
    utf8 "kind: " ++ kindName record.kind ++ [newline] ++
    utf8 "change_number: " ++ toDecimal record.changeNumber.toNat ++ [newline] ++
    utf8 "input_fingerprint: " ++ record.inputFingerprint ++ [newline]
  else []

theorem parseUnsigned_eq_some_iff {text : Bytes} {value : UInt32} :
    parseUnsigned text = some value ↔ text = toDecimal value.toNat := by
  constructor
  · intro h
    rw [parseUnsigned] at h
    split_ifs at h with hempty hbad
    obtain ⟨-, hsize, -, hsame⟩ := not_or.mp hbad |>.imp_right not_or.mp |>.imp_right (And.imp_right not_or.mp)
    cases h
    rw [UInt32.toNat_ofNat_of_lt' (not_le.mp hsize)]
    exact (not_not.mp hsame).symm
  · rintro rfl
    have hall : ∀ c ∈ toDecimal value.toNat, isDigit c = true := List.all_eq_true.mp (toDecimal_all_isDigit _)
    have htake : (toDecimal value.toNat).takeWhile isDigit = toDecimal value.toNat := List.takeWhile_eq_self_iff.mpr hall
    have hdrop : (toDecimal value.toNat).dropWhile isDigit = [] := List.dropWhile_eq_nil_iff.mpr hall
    have hbound : ¬0x100000000 ≤ value.toNat := not_le.mpr value.toNat_lt
    rw [parseUnsigned, if_neg (toDecimal_ne_nil _)]
    simp only [htake, hdrop, numberOf_toDecimal]
    rw [if_neg (by simp [toDecimal_ne_nil, hbound]), UInt32.ofNat_toNat]

private theorem parseKind_eq_some_iff {text : Bytes} {kind : Kind} :
    parseKind text = some kind ↔ text = kindName kind := by
  have hne : utf8 "no_usable_content" ≠ utf8 "virtual_dlc" := by decide +kernel
  rw [parseKind]
  constructor
  · intro h
    split_ifs at h with hvirtual hnone
    · cases h
      exact hvirtual
    · cases h
      exact hnone
  · rintro rfl
    cases kind with
    | virtualDlc => rw [kindName, if_pos rfl]
    | noUsableContent => rw [kindName, if_neg hne, if_pos rfl]

/-- The texts of the fields, in the order of the labels. -/
def fieldTexts (record : Record) : List Bytes :=
  [toDecimal record.schema.toNat, toDecimal record.appId.toNat, kindName record.kind,
    toDecimal record.changeNumber.toNat, record.inputFingerprint]

private theorem render_eq_writeFields {record : Record} (h : isValid record = true) :
    render record = writeFields newline labels (fieldTexts record) := by
  rw [render, if_pos h]
  simp only [labels, fieldTexts, writeFields, List.append_assoc, List.cons_append, List.nil_append]

/-- A field's text is a short word without control characters. -/
def Plain (text : Bytes) : Prop := text ≠ [] ∧ text.length ≤ 19 ∧ text.all (0x20 ≤ ·) = true

instance (text : Bytes) : Decidable (Plain text) := inferInstanceAs (Decidable (_ ∧ _ ∧ _))

theorem plain_toDecimal (value : UInt32) : Plain (toDecimal value.toNat) := by
  refine ⟨toDecimal_ne_nil _, ?_, List.all_eq_true.mpr fun c hc => ?_⟩
  · rw [toDecimal, List.length_map]
    have hlength : (Nat.toDigits 10 value.toNat).length ≤ 10 :=
      (Nat.length_toDigits_le_iff (by decide) (by decide)).mpr (by have := value.toNat_lt; omega)
    omega
  · have hdigit : isDigit c = true := List.all_eq_true.mp (toDecimal_all_isDigit _) c hc
    simp only [isDigit, Bool.and_eq_true, decide_eq_true_eq, UInt8.le_iff_toNat_le] at hdigit
    have hlow : 0x30 ≤ c.toNat := hdigit.1
    exact decide_eq_true (UInt8.le_iff_toNat_le.mpr (by have : (0x20 : UInt8).toNat = 0x20 := rfl; omega))

private theorem plain_kindName (kind : Kind) : Plain (kindName kind) := by
  cases kind <;> exact ⟨by decide +kernel, by decide +kernel, by decide +kernel⟩

private theorem plain_inputFingerprint {record : Record} (h : isValid record = true) :
    Plain record.inputFingerprint := by
  rw [isValid] at h
  split_ifs at h
  split at h
  · rw [beq_iff_eq.mp h]
    exact ⟨by decide +kernel, by decide +kernel, by decide +kernel⟩
  · rw [isFingerprint, Bool.and_eq_true, decide_eq_true_eq, List.all_eq_true] at h
    refine ⟨fun hnil => ?_, by omega, List.all_eq_true.mpr fun c hc => ?_⟩
    · rw [hnil] at h
      cases h.1
    · have hhex := h.2 c hc
      simp only [isHexDigit, isDigit, Bool.or_eq_true, Bool.and_eq_true, decide_eq_true_eq,
        UInt8.le_iff_toNat_le] at hhex ⊢
      have hspace : (0x20 : UInt8).toNat = 0x20 := rfl
      have hzero : (0x30 : UInt8).toNat = 0x30 := rfl
      have ha : (0x61 : UInt8).toNat = 0x61 := rfl
      omega

private theorem plain_fieldTexts {record : Record} (h : isValid record = true) :
    ∀ text ∈ fieldTexts record, Plain text := by
  rw [fieldTexts]
  exact List.forall_mem_cons.mpr ⟨plain_toDecimal _, List.forall_mem_cons.mpr ⟨plain_toDecimal _,
    List.forall_mem_cons.mpr ⟨plain_kindName _, List.forall_mem_cons.mpr ⟨plain_toDecimal _,
      List.forall_mem_singleton.mpr (plain_inputFingerprint h)⟩⟩⟩⟩

theorem Plain.not_mem {text : Bytes} (h : Plain text) {c : UInt8} (hc : c < 0x20) : c ∉ text := by
  intro hmem
  have hlow : 0x20 ≤ c := of_decide_eq_true (List.all_eq_true.mp h.2.2 c hmem)
  exact absurd hc (UInt8.not_lt.mpr hlow)

private theorem plain_labels : ∀ label ∈ labels, Plain label := by
  have hall : labels.all (fun label => decide (Plain label)) = true := by decide +kernel
  exact fun label hlabel => of_decide_eq_true (List.all_eq_true.mp hall label hlabel)

/-- The reader takes the rendering of a valid record and no other text. -/
theorem parse_eq_some_iff {text : Bytes} {record : Record} :
    parse text = some record ↔ isValid record = true ∧ text = render record := by
  constructor
  · intro h
    rw [parse] at h
    split_ifs at h
    split at h
    · next schema appId kind changeNumber inputFingerprint hfields =>
      obtain ⟨schema', hschema, h⟩ := Option.bind_eq_some_iff.mp h
      obtain ⟨appId', happId, h⟩ := Option.bind_eq_some_iff.mp h
      obtain ⟨changeNumber', hchange, h⟩ := Option.bind_eq_some_iff.mp h
      obtain ⟨kind', hkind, h⟩ := Option.bind_eq_some_iff.mp h
      simp only at h
      split_ifs at h with hvalid
      cases h
      refine ⟨hvalid, ?_⟩
      rw [render_eq_writeFields hvalid, (readFields_spec hfields).2.2, List.append_nil,
        parseUnsigned_eq_some_iff.mp hschema, parseUnsigned_eq_some_iff.mp happId,
        parseUnsigned_eq_some_iff.mp hchange, parseKind_eq_some_iff.mp hkind]
      rfl
    · cases h
  · rintro ⟨hvalid, rfl⟩
    have hplain := plain_fieldTexts hvalid
    have hsize : ¬kMaxStateBytes < (render record).length := by
      have hlength : (writeFields newline labels (fieldTexts record)).length ≤ 5 * (2 * 19 + 1) :=
        length_writeFields_le (fun l hl => (plain_labels l hl).2.1) fun v hv => (hplain v hv).2.1
      rw [render_eq_writeFields hvalid, kMaxStateBytes]
      omega
    have hreturn : carriageReturn ∉ render record := by
      rw [render_eq_writeFields hvalid]
      exact not_mem_writeFields (by decide) (fun l hl => (plain_labels l hl).not_mem (by decide))
        fun v hv => (hplain v hv).not_mem (by decide)
    have hfields : readFields newline labels (render record) = some (fieldTexts record, []) := by
      rw [render_eq_writeFields hvalid, ← List.append_nil (writeFields newline labels _)]
      exact readFields_writeFields (fun l hl => (plain_labels l hl).not_mem (by decide)) rfl fun v hv =>
        ⟨(hplain v hv).1, (hplain v hv).not_mem (by decide)⟩
    rw [parse, if_neg (by simp [hsize, hreturn]), hfields]
    simp only [fieldTexts, parseUnsigned_eq_some_iff.mpr rfl, parseKind_eq_some_iff.mpr rfl, Option.bind_eq_bind,
      Option.bind_some, if_pos hvalid]

/-- The order in which the inputs are hashed: by depot, then by key, then by manifest. -/
def inputLE (left right : LocalInput) : Bool :=
  if left.depotId ≠ right.depotId then left.depotId < right.depotId
  else if left.key ≠ right.key then left.key < right.key
  else left.manifestGid ≤ right.manifestGid

def hexDigit (value : UInt64) : UInt8 :=
  if value < 10 then 0x30 + value.toUInt8 else 0x57 + value.toUInt8

/-- The sixteen digits, the most significant first. -/
def hexText (hash : UInt64) : Bytes :=
  (List.range 16).map fun index => hexDigit ((hash >>> UInt64.ofNat ((15 - index) * 4)) &&& 0x0f)

def fingerprint (inputs : List LocalInput) : Bytes :=
  hexText (HotReload.fingerprint (inputs.mergeSort inputLE))

private theorem inputLE_iff {a b : LocalInput} :
    inputLE a b = true ↔ a.depotId < b.depotId ∨
      a.depotId = b.depotId ∧ (a.key < b.key ∨ a.key = b.key ∧ a.manifestGid ≤ b.manifestGid) := by
  rw [inputLE]
  split_ifs with hdepot hkey
  · grind
  · grind
  · grind

private theorem inputLE_total (a b : LocalInput) : (inputLE a b || inputLE b a) = true := by
  rw [Bool.or_eq_true, inputLE_iff, inputLE_iff]
  grind

private theorem inputLE_trans {a b c : LocalInput} (hab : inputLE a b = true) (hbc : inputLE b c = true) :
    inputLE a c = true := by
  rw [inputLE_iff] at *
  grind

/-- Inputs that the order does not tell apart are the same. -/
theorem inputLE_antisymm {a b : LocalInput} (hab : inputLE a b = true) (hba : inputLE b a = true) : a = b := by
  rw [inputLE_iff] at hab hba
  have hdepot : a.depotId = b.depotId := by grind
  have hkey : a.key = b.key := by grind
  have hgid : a.manifestGid = b.manifestGid := by grind
  cases a
  cases b
  congr

private theorem fingerprint_perm {inputs inputs' : List LocalInput} (h : inputs.Perm inputs') :
    fingerprint inputs = fingerprint inputs' := by
  have hsorted : ∀ l : List LocalInput, (l.mergeSort inputLE).Pairwise fun a b => inputLE a b = true :=
    List.pairwise_mergeSort (fun _ _ _ => inputLE_trans) inputLE_total
  have hperm : (inputs.mergeSort inputLE).Perm (inputs'.mergeSort inputLE) :=
    (List.mergeSort_perm inputs inputLE).trans (h.trans (List.mergeSort_perm inputs' inputLE).symm)
  rw [fingerprint, fingerprint,
    hperm.eq_of_pairwise (fun _ _ _ _ => inputLE_antisymm) (hsorted inputs) (hsorted inputs')]

private theorem hexDigit_isHexDigit (i : Fin 16) : isHexDigit (hexDigit (UInt64.ofNat i)) = true := by
  revert i
  decide

/-- The records of a kind that names its inputs take any hash of them. -/
theorem isFingerprint_fingerprint (inputs : List LocalInput) :
    isFingerprint (fingerprint inputs) = true := by
  rw [isFingerprint, fingerprint, hexText, List.length_map, List.length_range, List.all_map,
    Bool.and_eq_true, List.all_eq_true]
  refine ⟨rfl, fun index _ => ?_⟩
  generalize HotReload.fingerprint _ = hash
  have hlt : ((hash >>> UInt64.ofNat ((15 - index) * 4)) &&& 0x0f).toNat < 16 := by
    rw [UInt64.toNat_and]
    exact Nat.and_lt_two_pow _ (by decide : (0x0f : UInt64).toNat < 2 ^ 4)
  have hdigit := hexDigit_isHexDigit ⟨_, hlt⟩
  rwa [UInt64.ofNat_toNat] at hdigit

theorem record_codec :
    (∀ record : Record, isValid record = true → parse (render record) = some record) ∧
      (∀ (text : Bytes) (record : Record), parse text = some record → render record = text) ∧
      ∀ inputs inputs' : List LocalInput, inputs.Perm inputs' →
        fingerprint inputs = fingerprint inputs' := by
  refine ⟨fun record hvalid => ?_, fun text record hparse => ?_, fun inputs inputs' => fingerprint_perm⟩
  · exact parse_eq_some_iff.mpr ⟨hvalid, rfl⟩
  · exact (parse_eq_some_iff.mp hparse).2.symm

end SlsteamMoon.ProvisionTerminal
