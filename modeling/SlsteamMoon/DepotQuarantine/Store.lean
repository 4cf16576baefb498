import Mathlib.Algebra.GroupWithZero.Nat
import Mathlib.Data.List.Nodup
import SlsteamMoon.ProvisionCache.CmVdf

/-! Depots whose key was proven unusable, as they are kept in a file: one line a depot. -/
namespace SlsteamMoon.DepotQuarantineStore
open KeyValues
open ProvisionCache (isDigit isSpace numberOf decimalValue toDecimal toDecimal_all_isDigit toDecimal_ne_nil
  numberOf_toDecimal digit_front textLines)

structure Record where
  appId : UInt32 := 0
  depotId : UInt32 := 0
  dlcAppId : UInt32 := 0
  keyFingerprint : UInt64 := 0
  deriving DecidableEq

def isUsable (record : Record) : Bool :=
  record.appId != 0 && record.depotId != 0 && record.dlcAppId != 0 && record.keyFingerprint != 0

/-- The entry of the same depot is overwritten where it stands; the flag tells whether it differs. -/
def overwrite (record : Record) : List Record → Option (Bool × List Record)
  | [] => none
  | existing :: records =>
    if existing.depotId ≠ record.depotId then
      (overwrite record records).map fun (changed, rest) => (changed, existing :: rest)
    else if existing.appId = record.appId ∧ existing.dlcAppId = record.dlcAppId ∧
        existing.keyFingerprint = record.keyFingerprint then
      some (false, existing :: records)
    else some (true, record :: records)

def upsert (records : List Record) (record : Record) : Bool × List Record :=
  if isUsable record = false then (false, records)
  else (overwrite record records).getD (true, records ++ [record])

def line (record : Record) : Bytes :=
  toDecimal record.appId.toNat ++ 0x20 :: (toDecimal record.depotId.toNat ++ 0x20 ::
    (toDecimal record.dlcAppId.toNat ++ 0x20 :: toDecimal record.keyFingerprint.toNat))

def serialize (records : List Record) : Bytes :=
  (records.filter isUsable).flatMap fun record => line record ++ [newline]

/-- `operator>>` for an unsigned number of `width` bits: white space, a sign, digits. A number that does not
fit fails, and one behind a minus wraps. -/
def extract (width : Nat) (text : Bytes) : Option (Nat × Bytes) :=
  let body := text.dropWhile isSpace
  let unsigned := if body.head? = some 0x2b ∨ body.head? = some 0x2d then body.tail else body
  let digits := unsigned.takeWhile isDigit
  let number := numberOf 10 decimalValue digits
  if digits = [] ∨ 2 ^ width ≤ number then none
  else some (if body.head? = some 0x2d then (2 ^ width - number) % 2 ^ width else number, unsigned.dropWhile isDigit)

/-- Whatever stands behind the fourth number is ignored. -/
def parseLine (text : Bytes) : Option Record := do
  let (appId, text) ← extract 32 text
  let (depotId, text) ← extract 32 text
  let (dlcAppId, text) ← extract 32 text
  let (keyFingerprint, _) ← extract 64 text
  some ⟨UInt32.ofNat appId, UInt32.ofNat depotId, UInt32.ofNat dlcAppId, UInt64.ofNat keyFingerprint⟩

def parse (text : Bytes) : List Record :=
  (textLines text).foldl
    (fun records text =>
      match parseLine text with
      | none => records
      | some record => (upsert records record).2) []

/-- What the lists that are written have in common. -/
structure Stored (records : List Record) : Prop where
  usable : ∀ record ∈ records, isUsable record = true
  distinct : (records.map Record.depotId).Nodup

private theorem stored_nil : Stored [] := ⟨List.forall_mem_nil _, List.nodup_nil⟩

variable {records : List Record} {record : Record}

/-- The depots of the entries are the same after an overwriting, and each entry is the new one or an old one. -/
theorem overwrite_spec {result : Bool × List Record} (h : overwrite record records = some result) :
    result.2.map Record.depotId = records.map Record.depotId ∧
      (∀ entry ∈ result.2, entry = record ∨ entry ∈ records) ∧ (result.1 = true ↔ result.2 ≠ records) := by
  induction records generalizing result with
  | nil => cases h
  | cons existing records ih =>
    rw [overwrite] at h
    split_ifs at h with hdepot hsame
    · obtain ⟨rest, hrest, rfl⟩ := Option.map_eq_some_iff.mp h
      obtain ⟨changed, rest⟩ := rest
      obtain ⟨hdepots, hentries, hchanged⟩ := ih hrest
      refine ⟨?_, ?_, ?_⟩
      · rw [List.map_cons, hdepots, List.map_cons]
      · refine List.forall_mem_cons.mpr ⟨.inr List.mem_cons_self, fun entry hentry => ?_⟩
        exact (hentries entry hentry).imp_right (List.mem_cons_of_mem existing)
      · rw [hchanged, Ne, Ne, List.cons_inj_right]
    · cases h
      exact ⟨rfl, fun entry hentry => .inr hentry, by simp⟩
    · cases h
      refine ⟨?_, ?_, ?_⟩
      · rw [List.map_cons, List.map_cons, not_not.mp hdepot]
      · exact List.forall_mem_cons.mpr ⟨.inl rfl, fun entry hentry => .inr (List.mem_cons_of_mem existing hentry)⟩
      · have hne : record ≠ existing := by
          rintro rfl
          exact hsame ⟨rfl, rfl, rfl⟩
        simp [hne]

private theorem overwrite_eq_none_iff :
    overwrite record records = none ↔ record.depotId ∉ records.map Record.depotId := by
  induction records with
  | nil => simp [overwrite]
  | cons existing records ih =>
    rw [overwrite, List.map_cons, List.mem_cons, not_or]
    split_ifs with hdepot hsame
    · rw [Option.map_eq_none_iff, ih, and_iff_right (Ne.symm hdepot)]
    · simp [not_not.mp hdepot]
    · simp [not_not.mp hdepot]

private theorem upsert_fresh (husable : isUsable record = true) (h : record.depotId ∉ records.map Record.depotId) :
    upsert records record = (true, records ++ [record]) := by
  rw [upsert, if_neg (by simp [husable]), overwrite_eq_none_iff.mpr h, Option.getD_none]

private theorem Stored.upsert (h : Stored records) (record : Record) : Stored (upsert records record).2 := by
  rw [DepotQuarantineStore.upsert]
  split_ifs with husable
  · exact h
  · rw [Bool.not_eq_false] at husable
    cases hresult : overwrite record records with
    | none =>
      have hfresh := overwrite_eq_none_iff.mp hresult
      refine ⟨?_, ?_⟩
      · exact List.forall_mem_append.mpr ⟨h.usable, List.forall_mem_singleton.mpr husable⟩
      · rw [Option.getD_none, List.map_append]
        refine List.nodup_append.mpr ⟨h.distinct, List.nodup_singleton _, fun a ha b hb hab => hfresh ?_⟩
        rwa [← List.mem_singleton.mp hb, ← hab]
    | some result =>
      obtain ⟨hdepots, hentries, -⟩ := overwrite_spec hresult
      refine ⟨fun entry hentry => ?_, ?_⟩
      · obtain rfl | hold := hentries entry hentry
        · exact husable
        · exact h.usable entry hold
      · rw [Option.getD_some, hdepots]
        exact h.distinct

private theorem mem_overwrite {result : Bool × List Record} (h : overwrite record records = some result)
    (hdistinct : (records.map Record.depotId).Nodup) (entry : Record) :
    entry ∈ result.2 ↔ entry = record ∨ entry ∈ records ∧ entry.depotId ≠ record.depotId := by
  induction records generalizing result with
  | nil => cases h
  | cons existing records ih =>
    obtain ⟨hfresh, hdistinct⟩ := List.nodup_cons.mp hdistinct
    -- Behind the entry that is overwritten no other one is of its depot.
    have hothers : existing.depotId = record.depotId → ∀ entry ∈ records, entry.depotId ≠ record.depotId :=
      fun hdepot entry hentry hsame => hfresh (hdepot ▸ hsame ▸ List.mem_map_of_mem hentry)
    rw [overwrite] at h
    split_ifs at h with hdepot hsame
    · obtain ⟨⟨changed, rest⟩, hrest, rfl⟩ := Option.map_eq_some_iff.mp h
      rw [List.mem_cons, List.mem_cons, ih hrest hdistinct]
      constructor
      · rintro (rfl | rfl | hold)
        · exact .inr ⟨.inl rfl, hdepot⟩
        · exact .inl rfl
        · exact .inr ⟨.inr hold.1, hold.2⟩
      · rintro (rfl | ⟨rfl | hold, hother⟩)
        · exact .inr (.inl rfl)
        · exact .inl rfl
        · exact .inr (.inr ⟨hold, hother⟩)
    · obtain rfl : existing = record := by
        cases existing
        cases record
        simp_all
      cases h
      rw [List.mem_cons]
      constructor
      · exact Or.imp_right fun hold => ⟨.inr hold, hothers rfl entry hold⟩
      · rintro (rfl | ⟨rfl | hold, hother⟩)
        · exact .inl rfl
        · exact .inl rfl
        · exact .inr hold
    · cases h
      rw [List.mem_cons, List.mem_cons]
      constructor
      · exact Or.imp_right fun hold => ⟨.inr hold, hothers (not_not.mp hdepot) entry hold⟩
      · rintro (rfl | ⟨rfl | hold, hother⟩)
        · exact .inl rfl
        · exact absurd (not_not.mp hdepot) hother
        · exact .inr hold

/-- A usable record takes the place of the one of its depot; the other records stay. -/
theorem Stored.mem_upsert (h : Stored records) (husable : isUsable record = true) (entry : Record) :
    entry ∈ (DepotQuarantineStore.upsert records record).2 ↔
      entry = record ∨ entry ∈ records ∧ entry.depotId ≠ record.depotId := by
  rw [DepotQuarantineStore.upsert, if_neg (by simp [husable])]
  cases hresult : overwrite record records with
  | none =>
    have hfresh : entry ∈ records → entry.depotId ≠ record.depotId := fun hentry hsame =>
      overwrite_eq_none_iff.mp hresult (hsame ▸ List.mem_map_of_mem hentry)
    rw [Option.getD_none, List.mem_append, List.mem_singleton, or_comm]
    exact or_congr_right ⟨fun hentry => ⟨hentry, hfresh hentry⟩, And.left⟩
  | some result => exact mem_overwrite hresult h.distinct entry

/-- The answer of an upsert is whether it changed the list. -/
theorem upsert_changed : (upsert records record).1 = true ↔ (upsert records record).2 ≠ records := by
  rw [upsert]
  split_ifs with husable
  · simp
  · cases hresult : overwrite record records with
    | none => simp
    | some result => exact (overwrite_spec hresult).2.2

private theorem stored_foldl_upsert (updates : List Record) (h : Stored records) :
    Stored (updates.foldl (fun records record => (upsert records record).2) records) := by
  induction updates generalizing records with
  | nil => exact h
  | cons record updates ih => exact ih (h.upsert record)

private theorem stored_parse (text : Bytes) : Stored (parse text) := by
  rw [parse]
  induction textLines text using List.reverseRecOn with
  | nil => exact stored_nil
  | append_singleton lines text ih =>
    rw [List.foldl_append, List.foldl_cons, List.foldl_nil]
    cases parseLine text with
    | none => exact ih
    | some record => exact ih.upsert record

/-- A written number is read up to what cannot belong to it. -/
theorem extract_toDecimal {width n : Nat} (hn : n < 2 ^ width) {rest : Bytes} (hrest : ∀ c ∈ rest.head?, isDigit c = false) :
    extract width (toDecimal n ++ rest) = some (n, rest) := by
  have hall : ∀ c ∈ toDecimal n, isDigit c = true := List.all_eq_true.mp (toDecimal_all_isDigit n)
  have hstop : rest.takeWhile isDigit = [] ∧ rest.dropWhile isDigit = rest := by
    cases rest with
    | nil => exact ⟨rfl, rfl⟩
    | cons c rest =>
      have hc : ¬isDigit c = true := by rw [hrest c rfl]; decide
      exact ⟨List.takeWhile_cons_of_neg hc, List.dropWhile_cons_of_neg hc⟩
  have htake : (toDecimal n ++ rest).takeWhile isDigit = toDecimal n := by
    rw [List.takeWhile_append_of_pos hall, hstop.1, List.append_nil]
  have hdrop : (toDecimal n ++ rest).dropWhile isDigit = rest := by
    rw [List.dropWhile_append_of_pos hall, hstop.2]
  obtain ⟨c, digits, hdigits⟩ := List.exists_cons_of_ne_nil (toDecimal_ne_nil n)
  obtain ⟨hspace, hplus, hminus⟩ := digit_front (hall c (by rw [hdigits]; exact List.mem_cons_self))
  have hbody : (toDecimal n ++ rest).dropWhile isSpace = toDecimal n ++ rest := by
    rw [hdigits, List.cons_append, List.dropWhile_cons_of_neg (by rw [hspace]; decide)]
  have hhead : (toDecimal n ++ rest).head? = some c := by rw [hdigits]; rfl
  simp only [extract, hbody, hhead, Option.some.injEq, hplus, hminus, or_self, if_false, htake, hdrop, numberOf_toDecimal]
  rw [if_neg (not_or.mpr ⟨toDecimal_ne_nil n, Nat.not_le.mpr hn⟩)]

private theorem extract_space {width : Nat} (text : Bytes) : extract width (0x20 :: text) = extract width text := by
  rw [extract, extract, List.dropWhile_cons_of_pos (by decide)]

private theorem parseLine_line (record : Record) : parseLine (line record) = some record := by
  have hspace : ∀ text : Bytes, ∀ c ∈ (0x20 :: text).head?, isDigit c = false := by
    intro text c hc
    cases hc
    decide
  have hend : extract 64 (toDecimal record.keyFingerprint.toNat) = some (record.keyFingerprint.toNat, []) := by
    have hread := @extract_toDecimal 64 _ record.keyFingerprint.toNat_lt [] nofun
    rwa [List.append_nil] at hread
  rw [line, parseLine]
  simp only [extract_toDecimal (UInt32.toNat_lt _) (hspace _), extract_space, hend, Option.bind_eq_bind, Option.bind_some,
    UInt32.ofNat_toNat, UInt64.ofNat_toNat]

theorem textLines_cons {text : Bytes} (h : newline ∉ text) (rest : Bytes) :
    textLines (text ++ newline :: rest) = text :: textLines rest := by
  have hsplit : (text ++ newline :: rest).splitOn newline = text :: rest.splitOn newline :=
    List.splitOn_append_cons_self_of_not_mem h rest
  obtain ⟨piece, pieces, hpieces⟩ := List.exists_cons_of_ne_nil (List.splitOn_ne_nil newline rest)
  rw [textLines, textLines, hsplit, hpieces, List.getLast?_cons_cons]
  split_ifs with hlast
  · rw [List.dropLast_cons_cons]
  · rfl

private theorem newline_not_mem_line (record : Record) : newline ∉ line record := by
  have hnumber : ∀ n : Nat, newline ∉ toDecimal n := fun n hmem =>
    absurd (List.all_eq_true.mp (toDecimal_all_isDigit n) newline hmem) (by decide)
  have hspace : newline ≠ 0x20 := by decide
  simp only [line, List.mem_append, List.mem_cons, hnumber, hspace, or_self, not_false_eq_true]

private theorem textLines_serialize (h : ∀ record ∈ records, isUsable record = true) :
    textLines (serialize records) = records.map line := by
  rw [serialize, List.filter_eq_self.mpr h]
  induction records with
  | nil => decide
  | cons record records ih =>
    rw [List.flatMap_cons, List.append_assoc, List.cons_append, List.nil_append,
      textLines_cons (newline_not_mem_line record), ih fun r hr => h r (List.mem_cons_of_mem record hr), List.map_cons]

private theorem parse_serialize (h : Stored records) : parse (serialize records) = records := by
  rw [parse, textLines_serialize h.usable, List.foldl_map]
  simp only [parseLine_line]
  -- What has been read is the list so far, and the next record's depot is not in it.
  induction records using List.reverseRecOn with
  | nil => rfl
  | append_singleton records record ih =>
    obtain ⟨husable, hrecord⟩ := List.forall_mem_append.mp h.usable
    have hdistinct := h.distinct
    rw [List.map_append, List.nodup_append] at hdistinct
    rw [List.foldl_append, ih ⟨husable, hdistinct.1⟩, List.foldl_cons, List.foldl_nil,
      upsert_fresh (hrecord record (List.mem_singleton_self record)) fun hmem =>
        hdistinct.2.2 _ hmem _ (List.mem_singleton_self _) rfl]

/-- What upserts have made is read back as it was written, each of them putting its record in the place of the one of its
depot; and whatever is read is usable, with one record a depot. -/
theorem quarantine_codec :
    (∀ updates : List Record,
      let records := updates.foldl (fun records record => (upsert records record).2) []
      parse (serialize records) = records ∧
        ∀ record, ((upsert records record).1 = true ↔ (upsert records record).2 ≠ records) ∧
          (isUsable record = false → (upsert records record).2 = records) ∧
          (isUsable record = true → ∀ entry, entry ∈ (upsert records record).2 ↔
            entry = record ∨ entry ∈ records ∧ entry.depotId ≠ record.depotId)) ∧
    ∀ text : Bytes, (∀ record ∈ parse text, isUsable record = true) ∧ ((parse text).map Record.depotId).Nodup ∧
      parse (serialize (parse text)) = parse text := by
  constructor
  · intro updates records
    have hstored : Stored records := stored_foldl_upsert updates stored_nil
    refine ⟨parse_serialize hstored, fun record => ⟨upsert_changed, fun hunusable => ?_, hstored.mem_upsert⟩⟩
    rw [upsert, if_pos hunusable]
  · intro text
    exact ⟨(stored_parse text).usable, (stored_parse text).distinct, parse_serialize (stored_parse text)⟩

end SlsteamMoon.DepotQuarantineStore
