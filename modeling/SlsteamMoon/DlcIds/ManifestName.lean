import SlsteamMoon.ManifestStore.Names

/-! The depot id of a manifest's file name as the artifact index reads it, beside the strict reader of the store. -/
namespace SlsteamMoon.DlcIds
open KeyValues ProvisionCache TextSearch ManifestStore ManifestPlan

/-- The number of the leading digits, if there are any and it is below the limit, and what stands behind them. -/
def fromChars (limit : Nat) (text : Bytes) : Option (Nat × Bytes) :=
  let digits := text.takeWhile isDigit
  let number := numberOf 10 decimalValue digits
  if digits = [] ∨ limit ≤ number then none else some (number, text.dropWhile isDigit)

/-- A number that ends where its text ends, and is not zero. -/
def wholeNumber (limit : Nat) (text : Bytes) : Option Nat :=
  match fromChars limit text with
  | none => none
  | some (number, behind) => if behind ≠ [] ∨ number = 0 then none else some number

def depotIdFromManifestName (name : Bytes) : Option DepotId :=
  match upTo underscore name with
  | none => none
  | some (depotText, behind) =>
    if depotText = [] ∨ name.length ≤ depotText.length + 1 + manifestSuffix.length ∨ ¬manifestSuffix <:+ name then none
    else
      match wholeNumber 0x100000000 depotText with
      | none => none
      | some parsedDepot =>
        match wholeNumber 0x10000000000000000 (behind.take (behind.length - manifestSuffix.length)) with
        | none => none
        | some _ => some (UInt32.ofNat parsedDepot)

theorem wholeNumber_eq_some {limit : Nat} {text : Bytes} {number : Nat} (hlimit : limit ≤ 0x10000000000000000) :
    wholeNumber limit text = some number ↔ parseUnsigned text = some number ∧ number < limit ∧ number ≠ 0 := by
  rw [parseUnsigned_eq_some]
  constructor
  · intro h
    simp only [wholeNumber, fromChars] at h
    split at h
    · cases h
    · next parsed behind hparsed =>
      split_ifs at hparsed with hnone
      obtain ⟨rfl, rfl⟩ := Prod.mk.inj (Option.some.inj hparsed)
      split_ifs at h with hwhole
      obtain ⟨hend, hne⟩ := not_or.mp hwhole
      obtain ⟨hdigits, hsmall⟩ := not_or.mp hnone
      have htake : text.takeWhile isDigit = text := by
        rw [← List.append_nil (text.takeWhile isDigit), ← not_not.mp hend, List.takeWhile_append_dropWhile]
      rw [htake] at h hdigits hsmall hne
      obtain rfl := Option.some.inj h
      have hlt := Nat.lt_of_not_le hsmall
      exact ⟨⟨hdigits, List.all_eq_true.mpr (List.takeWhile_eq_self_iff.mp htake), by omega, rfl⟩, hlt, hne⟩
  · rintro ⟨⟨hne, hdigits, -, rfl⟩, hlt, hzero⟩
    have hall := List.all_eq_true.mp hdigits
    have htake : text.takeWhile isDigit = text := List.takeWhile_eq_self_iff.mpr hall
    have hdrop : text.dropWhile isDigit = [] := List.dropWhile_eq_nil_iff.mpr hall
    simp only [wholeNumber, fromChars, htake, hdrop]
    rw [if_neg (not_or.mpr ⟨hne, Nat.not_le.mpr hlt⟩)]
    exact if_neg (not_or.mpr ⟨fun h => h rfl, hzero⟩)

private theorem underscore_notMem_suffix : underscore ∉ manifestSuffix := by decide +kernel

/-- The suffix of a name stands behind the first underscore, or there is none. -/
theorem suffix_of_behind {depotText behind : Bytes} (hsuffix : manifestSuffix <:+ depotText ++ underscore :: behind) :
    ∃ gidText, behind = gidText ++ manifestSuffix := by
  have hbehind : behind <:+ depotText ++ underscore :: behind :=
    (List.suffix_cons underscore behind).trans (List.suffix_append depotText _)
  obtain hle | hlt := Nat.lt_or_ge behind.length manifestSuffix.length
  · have hinside : underscore :: behind <:+ manifestSuffix :=
      List.suffix_of_suffix_length_le (List.suffix_append depotText _) hsuffix hle
    exact absurd (hinside.subset List.mem_cons_self) underscore_notMem_suffix
  · obtain ⟨gidText, hgidText⟩ := List.suffix_of_suffix_length_le hsuffix hbehind hlt
    exact ⟨gidText, hgidText.symm⟩

private theorem gidText_of_behind (gidText : Bytes) :
    (gidText ++ manifestSuffix).take ((gidText ++ manifestSuffix).length - manifestSuffix.length) = gidText := by
  rw [List.length_append, Nat.add_sub_cancel, List.take_left]

/-- What the reader of the index takes for a manifest is what the strict reader does. -/
theorem depotIdFromManifestName_eq {name : Bytes} {depotId : DepotId} :
    depotIdFromManifestName name = some depotId ↔ ∃ gid, parseManifestName name = some (depotId, gid) := by
  simp only [parseManifestName_eq]
  constructor
  · intro h
    simp only [depotIdFromManifestName] at h
    split at h
    · cases h
    · next depotText behind hsplit =>
      split_ifs at h with hshape
      obtain ⟨-, -, hsuffix⟩ : depotText ≠ [] ∧ _ ∧ _ := by simpa only [not_or, not_not] using hshape
      rw [upTo_eq_some hsplit] at hsuffix
      obtain ⟨gidText, rfl⟩ := suffix_of_behind hsuffix
      rw [gidText_of_behind] at h
      split at h
      · cases h
      · next depot hdepot =>
        split at h
        · cases h
        · next number hnumber =>
          obtain rfl := Option.some.inj h
          obtain ⟨hdepot, hdepotLt, hdepotNe⟩ := (wholeNumber_eq_some (by decide)).mp hdepot
          obtain ⟨hnumber, hnumberLt, hnumberNe⟩ := (wholeNumber_eq_some (Nat.le_refl _)).mp hnumber
          have hdepotId : (UInt32.ofNat depot).toNat = depot := UInt32.toNat_ofNat_of_lt' hdepotLt
          have hgid : (UInt64.ofNat number).toNat = number := UInt64.toNat_ofNat_of_lt' hnumberLt
          refine ⟨UInt64.ofNat number, depotText, gidText, upTo_eq_some hsplit, by rwa [hdepotId], by rwa [hgid], ?_, ?_⟩
          · intro heq
            rw [heq] at hdepotId
            exact hdepotNe hdepotId.symm
          · intro heq
            rw [heq] at hgid
            exact hnumberNe hgid.symm
  · rintro ⟨gid, depotText, gidText, rfl, hdepot, hgid, hdepotId, hgidNe⟩
    obtain ⟨hdepotNe, hdepotDigits, -, -⟩ := parseUnsigned_eq_some.mp hdepot
    have hgidText : gidText ≠ [] := (parseUnsigned_eq_some.mp hgid).1
    have hdepot : wholeNumber 0x100000000 depotText = some depotId.toNat :=
      (wholeNumber_eq_some (by decide)).mpr ⟨hdepot, depotId.toNat_lt, fun h => hdepotId (UInt32.toNat_inj.mp h)⟩
    have hgid : wholeNumber 0x10000000000000000 gidText = some gid.toNat :=
      (wholeNumber_eq_some (Nat.le_refl _)).mpr ⟨hgid, gid.toNat_lt, fun h => hgidNe (UInt64.toNat_inj.mp h)⟩
    have hlong : ¬(depotText ++ underscore :: (gidText ++ manifestSuffix)).length ≤
        depotText.length + 1 + manifestSuffix.length := by
      have hpos := List.length_pos_of_ne_nil hgidText
      simp only [List.length_append, List.length_cons]
      omega
    have hsuffix : manifestSuffix <:+ depotText ++ underscore :: (gidText ++ manifestSuffix) :=
      ((List.suffix_append gidText _).trans (List.suffix_cons underscore _)).trans (List.suffix_append depotText _)
    simp only [depotIdFromManifestName]
    rw [upTo_append (underscore_notMem hdepotDigits)]
    dsimp only
    rw [if_neg (by simp only [hdepotNe, hlong, hsuffix, not_true_eq_false, or_self, not_false_eq_true]), gidText_of_behind,
      hdepot, hgid]
    exact congrArg some (UInt32.ofNat_toNat)

/-- The index and the store take the same names, and read the same depot id from each. -/
theorem manifest_names_read_alike (name : Bytes) :
    depotIdFromManifestName name = (parseManifestName name).map Prod.fst := by
  refine Option.ext fun depotId => ?_
  rw [depotIdFromManifestName_eq, Option.map_eq_some_iff]
  constructor
  · rintro ⟨gid, h⟩
    exact ⟨(depotId, gid), h, rfl⟩
  · rintro ⟨⟨depotId, gid⟩, h, rfl⟩
    exact ⟨gid, h⟩

end SlsteamMoon.DlcIds
