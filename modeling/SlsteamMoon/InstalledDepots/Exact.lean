import SlsteamMoon.InstalledDepots.Files

/-! What the reader makes of the depots of a file, and the files it reads exactly. -/
namespace SlsteamMoon.InstalledDepots
open KeyValues TextSearch ManifestPlan
open ProvisionCache (utf8 toDecimal keyWord_toDecimal toDecimal_all_isDigit isDigit)

variable {m : AppManifest} {rest : List Tok} {text more body value ws : Bytes} {fields : List (Bytes × Bytes)}
  {depots : List Depot} {curDepot d : DepotId} {gid : Gid} {out installed : Gids} {depth : Nat} {front : Front}

private theorem readDepots_blank (hws : ws.all isBlank = true) :
    readDepots (ws ++ more) depth curDepot out = readDepots more depth curDepot out := by
  refine readDepots_skip fun c hc => ?_
  have hblank := List.all_eq_true.mp hws c hc
  simp only [isBlank, Bool.or_eq_true, beq_iff_eq] at hblank
  rcases hblank with ((rfl | rfl) | rfl) | rfl <;> decide

private theorem manifestKey_plain : ∀ c ∈ manifestKey, isControl c = false := by decide +kernel

private theorem toDecimal_plain (n : Nat) : ∀ c ∈ toDecimal n, isControl c = false := (keyWord_toDecimal n).plain

private theorem quote_not_mem_of_plain (h : ∀ c ∈ value, isControl c = false) : quote ∉ value := fun hmem =>
  absurd (h quote hmem) (by decide)

/-- What a field does to the map. -/
def putField (curDepot : DepotId) (out : Gids) (field : Bytes × Bytes) : Gids :=
  if field.1 = manifestKey ∧ curDepot ≠ 0 then ((gidOf field.2).map (out.insert curDepot)).getD out else out

/-- The fields of a depot are read one by one. -/
theorem readDepots_fields (h : Printed ((flat fields).tokens ++ rest) text)
    (hfree : ∀ field ∈ fields, quote ∉ field.1 ∧ quote ∉ field.2)
    (hvalues : curDepot ≠ 0 → ∀ field ∈ fields, field.2 ≠ manifestKey)
    (hmanifest : ∀ field ∈ fields, field.1 = manifestKey → ∀ c ∈ field.2, isControl c = false) :
    ∃ more, Printed rest more ∧
      readDepots text 2 curDepot out = readDepots more 2 curDepot (fields.foldl (putField curDepot) out) := by
  induction fields generalizing text out with
  | nil => exact ⟨text, h, rfl⟩
  | cons field fields ih =>
    obtain ⟨key, value⟩ := field
    obtain ⟨⟨hkey, hvalue⟩, hfree⟩ := List.forall_mem_cons.mp hfree
    obtain ⟨hplain, hmanifest⟩ := List.forall_mem_cons.mp hmanifest
    have hother := fun hcur => (List.forall_mem_cons.mp (hvalues hcur)).1
    cases h with
    | @string ws keyBody _ _ _ hws hkeyBody h =>
      cases h with
      | @string gap valueBody _ text _ hgap hvalueBody h =>
        obtain ⟨more, hmore, hread⟩ := @ih _ (putField curDepot out (key, value)) h hfree
          (fun hcur => (List.forall_mem_cons.mp (hvalues hcur)).2) hmanifest
        refine ⟨more, hmore, ?_⟩
        rw [List.foldl_cons, ← hread, readDepots_blank hws, putField]
        split_ifs with hfound
        · obtain ⟨rfl, hcur⟩ := hfound
          rw [hkeyBody.eq_of_plain manifestKey_plain, hvalueBody.eq_of_plain (hplain rfl)]
          exact readDepots_manifest hcur (quote_not_mem_blank hgap) hvalue
        · have hkeyOther : ¬(2 = 2 ∧ keyBody = manifestKey ∧ curDepot ≠ 0) := by
            rintro ⟨-, hsame, hcur⟩
            exact hfound ⟨(hkeyBody.eq_iff manifestKey_plain).mp hsame, hcur⟩
          have hvalueOther : ¬(2 = 2 ∧ valueBody = manifestKey ∧ curDepot ≠ 0) := by
            rintro ⟨-, hsame, hcur⟩
            exact hother hcur ((hvalueBody.eq_iff manifestKey_plain).mp hsame)
          rw [readDepots_token (hkeyBody.quote_not_mem hkey) le_rfl hkeyOther, readDepots_blank hgap,
            readDepots_token (hvalueBody.quote_not_mem hvalue) le_rfl hvalueOther]

private theorem depotOf_toDecimal (n : Nat) : depotOf (toDecimal n) = if n < 2 ^ 32 then UInt32.ofNat n else 0 := by
  rw [depotOf, stoul_toDecimal]
  split_ifs <;> rfl

private theorem gidOf_toDecimal (gid : Gid) : gidOf (toDecimal gid.toNat) = some gid := by
  rw [gidOf, stoul_toDecimal, if_pos gid.toNat_lt, Option.map_some, UInt64.ofNat_toNat]

/-- What a depot does to the map. -/
def putDepot (out : Gids) (depot : Depot) : Gids :=
  if depotOf (toDecimal depot.id) = 0 then out
  else (depot.manifest.map (out.insert (depotOf (toDecimal depot.id)))).getD out

private theorem foldl_putField (depot : Depot) (out : Gids) :
    depot.fields.foldl (putField (depotOf (toDecimal depot.id))) out = putDepot out depot := by
  have hsame : (fun (out : Gids) (field : Bytes × Bytes) => if decide (field.1 = manifestKey) = true then
      putField (depotOf (toDecimal depot.id)) out field else out) = putField (depotOf (toDecimal depot.id)) := by
    funext out field
    by_cases hkey : field.1 = manifestKey
    · rw [if_pos (decide_eq_true hkey)]
    · rw [if_neg fun h => hkey (of_decide_eq_true h), putField, if_neg fun h => hkey h.1]
  rw [← hsame, ← List.foldl_filter, depot.manifestFields, putDepot]
  cases depot.manifest with
  | none => exact (ite_self out).symm
  | some gid =>
    rw [Option.toList_some, List.map_singleton, List.foldl_cons, List.foldl_nil, putField, gidOf_toDecimal]
    split_ifs with hfound hzero hzero
    · exact absurd hzero hfound.2
    · rfl
    · rfl
    · exact absurd ⟨rfl, hzero⟩ hfound

private theorem depotOf_ne_zero_iff (n : Nat) : depotOf (toDecimal n) ≠ 0 ↔ n ≠ 0 ∧ n < 2 ^ 32 := by
  rw [depotOf_toDecimal, ne_eq, ← UInt32.toNat_inj]
  split_ifs with hlt
  · rw [UInt32.toNat_ofNat_of_lt' hlt]
    exact ⟨fun h => ⟨h, hlt⟩, fun h => h.1⟩
  · exact iff_of_false (fun h => h rfl) fun h => hlt h.2

/-- A field with the key of the manifest has a number. -/
theorem Depot.manifest_plain (depot : Depot) :
    ∀ field ∈ depot.fields, field.1 = manifestKey → ∀ c ∈ field.2, isControl c = false := by
  intro field hfield hkey
  have hmem : field ∈ depot.fields.filter fun field => field.1 = manifestKey :=
    List.mem_filter.mpr ⟨hfield, decide_eq_true hkey⟩
  rw [depot.manifestFields, List.mem_map] at hmem
  obtain ⟨gid, -, rfl⟩ := hmem
  exact toDecimal_plain gid.toNat

/-- The depots of the object are read one by one, up to its closing brace. -/
theorem readDepots_depots (h : Printed ((blockPairs depots).tokens ++ .closeBrace :: rest) text)
    (hplain : ∀ depot ∈ depots, depot.Plain) : readDepots text 1 curDepot out = depots.foldl putDepot out := by
  induction depots generalizing text curDepot out with
  | nil =>
    cases h with
    | closeBrace hws h => rw [readDepots_blank hws, readDepots_closeBrace, readDepots_zero, List.foldl_nil]
  | cons depot depots ih =>
    obtain ⟨hdepot, hdepots⟩ := List.forall_mem_cons.mp hplain
    rw [blockPairs, Pairs.tokens, List.cons_append, List.cons_append, List.append_assoc, List.cons_append] at h
    cases h with
    | string hws hbody h =>
      cases h with
      | openBrace hgap h =>
        rw [readDepots_blank hws, hbody.eq_of_plain (toDecimal_plain depot.id),
          readDepots_key (quote_not_mem_of_plain (toDecimal_plain depot.id)), readDepots_blank hgap,
          readDepots_openBrace Nat.one_ne_zero]
        obtain ⟨behind, hbehind, hfields⟩ := @readDepots_fields _ _ _ (depotOf (toDecimal depot.id)) out h
          hdepot.free (fun hcur => hdepot.values ((depotOf_ne_zero_iff _).mp hcur).1 ((depotOf_ne_zero_iff _).mp hcur).2)
          depot.manifest_plain
        rw [hfields, foldl_putField, List.foldl_cons]
        cases hbehind with
        | closeBrace hlast h => rw [readDepots_blank hlast, readDepots_closeBrace, ih h hdepots]

private theorem Depot.has_iff (depot : Depot) :
    depot.Has d gid ↔ depotOf (toDecimal depot.id) = d ∧ d ≠ 0 ∧ depot.manifest = some gid := by
  rw [Has, ← and_assoc, ← and_assoc]
  refine and_congr_left fun _ => and_congr_left fun hne => ?_
  rw [depotOf_toDecimal]
  split_ifs with hlt
  · rw [← UInt32.toNat_inj, UInt32.toNat_ofNat_of_lt' hlt]
  · refine iff_of_false (fun hid => hlt ?_) (Ne.symm hne)
    rw [hid]
    exact d.toNat_lt

/-- What a depot has is in the map behind it, and the rest of the map is as it was. -/
theorem lookup_putDepot (depot : Depot) : (putDepot out depot).lookup d = some gid ↔
    depot.Has d gid ∨ out.lookup d = some gid ∧ ∀ other, ¬depot.Has d other := by
  simp only [depot.has_iff]
  rw [putDepot]
  split_ifs with hzero
  · rw [hzero]
    have hno (other : Gid) : ¬(0 = d ∧ d ≠ 0 ∧ depot.manifest = some other) := fun h => h.2.1 h.1.symm
    rw [or_iff_right (hno gid), and_iff_left hno]
  · cases depot.manifest with
    | none =>
      have hno (other : Gid) : ¬(depotOf (toDecimal depot.id) = d ∧ d ≠ 0 ∧ none = some other) := fun h => nomatch h.2.2
      rw [or_iff_right (hno gid), and_iff_left hno]
      rfl
    | some held =>
      rw [Option.map_some, Option.getD_some]
      by_cases hkey : depotOf (toDecimal depot.id) = d
      · rw [hkey] at hzero ⊢
        rw [AList.lookup_insert]
        constructor
        · intro h
          exact .inl ⟨rfl, hzero, h⟩
        · rintro (h | ⟨-, h⟩)
          · exact h.2.2
          · exact absurd ⟨rfl, hzero, rfl⟩ (h held)
      · rw [AList.lookup_insert_ne (Ne.symm hkey), or_iff_right fun h => hkey h.1]
        exact (and_iff_left fun other h => hkey h.1).symm

private theorem lookup_foldl_putDepot (hdistinct : (depots.map Depot.id).Nodup) :
    (depots.foldl putDepot out).lookup d = some gid ↔
      (∃ depot ∈ depots, depot.Has d gid) ∨ out.lookup d = some gid ∧ ∀ depot ∈ depots, ∀ other, ¬depot.Has d other := by
  induction depots generalizing out with
  | nil => simp
  | cons depot depots ih =>
    obtain ⟨hfirst, hrest⟩ := List.nodup_cons.mp hdistinct
    -- Two depots of one id are the same.
    have hone (other : Gid) (h : depot.Has d other) : ∀ next ∈ depots, ∀ gid, ¬next.Has d gid := fun next hnext gid hhas =>
      hfirst (List.mem_map.mpr ⟨next, hnext, hhas.1.trans h.1.symm⟩)
    rw [List.foldl_cons, ih hrest, lookup_putDepot, List.exists_mem_cons_iff, List.forall_mem_cons]
    constructor
    · rintro (h | ⟨h | ⟨hout, hno⟩, hnone⟩)
      · exact .inl (.inr h)
      · exact .inl (.inl h)
      · exact .inr ⟨hout, hno, hnone⟩
    · rintro ((h | h) | ⟨hout, hno, hnone⟩)
      · exact .inr ⟨.inl h, hone gid h⟩
      · exact .inl h
      · exact .inr ⟨.inr ⟨hout, hno⟩, hnone⟩

/-- Where the front does not mislead and the depots are plain, the map is that of the file. -/
theorem lookup_installedDepotGids (h : ¬Misleads m.front) (hplain : ∀ depot ∈ m.depots, depot.Plain)
    (hprinted : Printed m.tree.tokens text) :
    (installedDepotGids (some text)).lookup d = some gid ↔ m.Installs d gid := by
  rw [AppManifest.tokens_tree] at hprinted
  obtain ⟨front, tail, rfl, hfront, htail⟩ := hprinted.split
  obtain ⟨block, hblock, heq⟩ := blockOf_of_not_misleads h hfront htail
  rw [installedDepotGids, Option.bind_some, heq]
  dsimp only
  rw [readDepots_depots hblock hplain, lookup_foldl_putDepot m.distinct]
  refine or_iff_left fun hempty => ?_
  exact nomatch hempty.1

/-- The loop over the pins of an app. -/
theorem allMatch_eq_true_iff {entries : List (Sigma fun _ : DepotId => Gid)} {matched : Bool} :
    allMatch installed entries matched = true ↔
      (matched = true ∨ ∃ entry ∈ entries, ∃ gid, installed.lookup entry.1 = some gid) ∧
        ∀ entry ∈ entries, ∀ gid, installed.lookup entry.1 = some gid → gid = entry.2 := by
  induction entries generalizing matched with
  | nil => simp [allMatch]
  | cons entry entries ih =>
    rw [allMatch, List.exists_mem_cons_iff, List.forall_mem_cons]
    cases hfound : installed.lookup entry.1 with
    | none =>
      dsimp only
      rw [ih]
      simp
    | some held =>
      dsimp only
      split_ifs with hne
      · exact iff_of_false not_false fun h => hne (h.2.1 held rfl)
      · rw [ih]
        simp [not_not.mp hne]

private theorem appAtPinnedGids_eq_true_iff {pins : PinMap} {appId : AppId} {file : Option Bytes} :
    appAtPinnedGids pins appId file = true ↔
      (∃ d pin gid, (getAppPinnedDepots pins appId).lookup d = some pin ∧
        (installedDepotGids file).lookup d = some gid) ∧
      ∀ d pin gid, (getAppPinnedDepots pins appId).lookup d = some pin →
        (installedDepotGids file).lookup d = some gid → gid = pin := by
  have hentries (gids : Gids) (d : DepotId) (gid : Gid) : gids.lookup d = some gid ↔ ⟨d, gid⟩ ∈ gids.entries :=
    AList.mem_lookup_iff
  have hempty {gids : Gids} (h : gids.entries = []) (d : DepotId) (gid : Gid) : ¬gids.lookup d = some gid := by
    rw [hentries, h]
    exact List.not_mem_nil
  rw [appAtPinnedGids]
  dsimp only
  split_ifs with hpins hinstalled
  · exact iff_of_false not_false fun ⟨⟨d, pin, _, hpin, _⟩, _⟩ => hempty hpins d pin hpin
  · exact iff_of_false not_false fun ⟨⟨d, _, gid, _, hgid⟩, _⟩ => hempty hinstalled d gid hgid
  · rw [allMatch_eq_true_iff, or_iff_right Bool.false_ne_true]
    simp only [hentries (getAppPinnedDepots pins appId)]
    constructor
    · rintro ⟨⟨⟨d, pin⟩, hpin, gid, hgid⟩, hall⟩
      exact ⟨⟨d, pin, gid, hpin, hgid⟩, fun d pin gid hpin hgid => hall ⟨d, pin⟩ hpin gid hgid⟩
    · rintro ⟨⟨d, pin, gid, hpin, hgid⟩, hall⟩
      exact ⟨⟨⟨d, pin⟩, hpin, gid, hgid⟩, fun entry hentry gid hgid => hall entry.1 entry.2 gid hentry hgid⟩

/-- From this depth on, nothing is read of the text. -/
def Inert (least : Nat) (text : Bytes) : Prop :=
  ∀ depth, least ≤ depth → ∀ curDepot out, readDepots text depth curDepot out = out

private theorem inert_nil : Inert 0 [] := fun _ _ _ _ => readDepots_nil

theorem Inert.mono {least more : Nat} (h : Inert least text) (hle : least ≤ more) : Inert more text :=
  fun depth hdepth => h depth (hle.trans hdepth)

theorem Inert.skip {least : Nat} {gap : Bytes} (h : Inert least text) (hgap : ∀ c ∈ gap, isMark c = false) :
    Inert least (gap ++ text) := by
  intro depth hdepth curDepot out
  rw [readDepots_skip hgap, h depth hdepth]

theorem Inert.openBrace {least : Nat} (h : Inert (least + 1) text) : Inert least (lbrace :: text) := by
  intro depth hdepth curDepot out
  cases depth with
  | zero => exact readDepots_zero
  | succ depth => rw [readDepots_openBrace (Nat.succ_ne_zero depth), h _ (Nat.succ_le_succ hdepth)]

theorem Inert.closeBrace {least : Nat} (h : Inert least text) : Inert (least + 1) (rbrace :: text) := by
  intro depth hdepth curDepot out
  cases depth with
  | zero => exact readDepots_zero
  | succ depth => rw [readDepots_closeBrace, h depth (Nat.le_of_succ_le_succ hdepth)]

/-- A token that is no key of a manifest, or one too deep for it. -/
theorem Inert.token {least : Nat} {tok : Bytes} (h : Inert least text) (hfree : quote ∉ tok)
    (hother : tok ≠ manifestKey ∨ 3 ≤ least) : Inert least (quote :: (tok ++ quote :: text)) := by
  intro depth hdepth curDepot out
  rcases Nat.lt_or_ge depth 2 with hlt | hge
  · obtain rfl | rfl : depth = 0 ∨ depth = 1 := by omega
    · exact readDepots_zero
    · rw [readDepots_key hfree, h 1 hdepth]
  · rw [readDepots_token hfree hge, h depth hdepth]
    rintro ⟨rfl, hsame, -⟩
    exact hother.elim (fun hne => hne hsame) fun hle => absurd (hle.trans hdepth) (by decide)

private theorem inert_unclosed (h : quote ∉ text) : Inert 0 (quote :: text) := fun _ _ _ _ => readDepots_unclosed h

/-- A text from which nothing is read, wherever in its first three quotes the loop comes to it. -/
def Hidden (text : Bytes) : Prop :=
  ∃ behind, text = quote :: (installedKey ++ quote :: ([lbrace] ++ quote :: behind)) ∧ Inert 1 text ∧
    Inert 1 (installedKey ++ quote :: ([lbrace] ++ quote :: behind)) ∧ Inert 2 ([lbrace] ++ quote :: behind) ∧
    Inert 2 behind

private theorem quote_not_mem_installedKey : quote ∉ installedKey := quote_not_mem_of_plain installedKey_plain

private theorem quote_not_mem_lbrace : quote ∉ [lbrace] := by decide

/-- The key of a depot, or a token that is no key of a manifest. -/
theorem readDepots_pass {tok : Bytes} (hfree : quote ∉ tok) (hdepth : depth ≠ 0)
    (hother : ¬(depth = 2 ∧ tok = manifestKey ∧ curDepot ≠ 0)) :
    readDepots (quote :: (tok ++ quote :: more)) depth curDepot out =
      readDepots more depth (if depth = 1 then depotOf tok else curDepot) out := by
  by_cases hone : depth = 1
  · rw [if_pos hone, hone, readDepots_key hfree]
  · rw [if_neg hone, readDepots_token hfree (by omega) hother]

/-- A token that ends at a hidden text. -/
theorem token_hidden {tok : Bytes} (hfree : quote ∉ tok) (hdepth : depth ≠ 0) (h : Hidden text) :
    readDepots (quote :: (tok ++ text)) depth curDepot out =
      if depth = 2 ∧ tok = manifestKey ∧ curDepot ≠ 0 then ((gidOf [lbrace]).map (out.insert curDepot)).getD out
      else out := by
  obtain ⟨behind, rfl, -, hopened, -, hbehind⟩ := h
  split_ifs with hmanifest
  · obtain ⟨rfl, rfl, hcur⟩ := hmanifest
    rw [readDepots_manifest hcur quote_not_mem_installedKey quote_not_mem_lbrace, hbehind 2 le_rfl]
  · rw [readDepots_pass hfree hdepth hmanifest, hopened depth (Nat.one_le_iff_ne_zero.mpr hdepth)]

/-- A hidden text behind the key of a manifest. -/
theorem gap_hidden {gap : Bytes} (hcur : curDepot ≠ 0) (hfree : quote ∉ gap) (h : Hidden text) :
    readDepots (quote :: (manifestKey ++ quote :: (gap ++ text))) 2 curDepot out =
      ((gidOf installedKey).map (out.insert curDepot)).getD out := by
  obtain ⟨behind, rfl, -, -, hclosed, -⟩ := h
  rw [readDepots_manifest hcur hfree quote_not_mem_installedKey, hclosed 2 le_rfl]

/-- A hidden text in the value of a manifest. -/
theorem value_hidden {gap value : Bytes} (hcur : curDepot ≠ 0) (hgap : quote ∉ gap) (hvalue : quote ∉ value)
    (h : Hidden text) :
    readDepots (quote :: (manifestKey ++ quote :: (gap ++ quote :: (value ++ text)))) 2 curDepot out =
      ((gidOf value).map (out.insert curDepot)).getD out := by
  obtain ⟨behind, rfl, -, hopened, -, -⟩ := h
  rw [readDepots_manifest hcur hgap hvalue, hopened 2 (by decide)]

/-- What is read of a front does not tell one hidden text behind it from another. -/
theorem exists_readDepots_hidden (front : Bytes) (depth : Nat) (curDepot : DepotId) (out : Gids) :
    ∃ result, ∀ text, Hidden text → readDepots (front ++ text) depth curDepot out = result := by
  induction hlength : front.length using Nat.strongRecOn generalizing front depth curDepot out with
  | ind n ih =>
    have hrest (rest : Bytes) (hlt : rest.length < n) (depth : Nat) (curDepot : DepotId) (out : Gids) :
        ∃ result, ∀ text, Hidden text → readDepots (rest ++ text) depth curDepot out = result :=
      ih rest.length hlt rest depth curDepot out rfl
    by_cases hdepth : depth = 0
    · exact ⟨out, fun text _ => by rw [hdepth, readDepots_zero]⟩
    cases front with
    | nil => exact ⟨out, fun text h => h.choose_spec.2.1 depth (Nat.one_le_iff_ne_zero.mpr hdepth) curDepot out⟩
    | cons c front =>
      rw [List.length_cons] at hlength
      by_cases hmark : isMark c = true
      · simp only [isMark, Bool.or_eq_true, beq_iff_eq] at hmark
        rcases hmark with (rfl | rfl) | rfl
        · obtain ⟨result, hresult⟩ := hrest front (by omega) (depth + 1) curDepot out
          exact ⟨result, fun text h => (readDepots_openBrace hdepth).trans (hresult text h)⟩
        · obtain ⟨d, rfl⟩ := Nat.exists_eq_succ_of_ne_zero hdepth
          obtain ⟨result, hresult⟩ := hrest front (by omega) d curDepot out
          exact ⟨result, fun text h => readDepots_closeBrace.trans (hresult text h)⟩
        · by_cases htok : quote ∈ front
          · obtain ⟨tok, behind, rfl, hfree⟩ := List.eq_append_cons_of_mem htok
            rw [List.length_append, List.length_cons] at hlength
            by_cases hmanifest : depth = 2 ∧ tok = manifestKey ∧ curDepot ≠ 0
            · obtain ⟨rfl, rfl, hcur⟩ := hmanifest
              by_cases hmore : quote ∈ behind
              · obtain ⟨gap, opened, rfl, hgap⟩ := List.eq_append_cons_of_mem hmore
                rw [List.length_append, List.length_cons] at hlength
                by_cases hnext : quote ∈ opened
                · obtain ⟨value, closed, rfl, hvalue⟩ := List.eq_append_cons_of_mem hnext
                  rw [List.length_append, List.length_cons] at hlength
                  obtain ⟨result, hresult⟩ := hrest closed (by omega) 2 curDepot
                    (((gidOf value).map (out.insert curDepot)).getD out)
                  refine ⟨result, fun text h => ?_⟩
                  rw [← hresult text h, ← readDepots_manifest hcur hgap hvalue]
                  simp only [List.cons_append, List.append_assoc]
                · refine ⟨((gidOf opened).map (out.insert curDepot)).getD out, fun text h => ?_⟩
                  rw [← value_hidden hcur hgap hnext h]
                  simp only [List.cons_append, List.append_assoc]
              · refine ⟨((gidOf installedKey).map (out.insert curDepot)).getD out, fun text h => ?_⟩
                rw [← gap_hidden hcur hmore h]
                simp only [List.cons_append, List.append_assoc]
            · obtain ⟨result, hresult⟩ :=
                hrest behind (by omega) depth (if depth = 1 then depotOf tok else curDepot) out
              refine ⟨result, fun text h => ?_⟩
              rw [List.cons_append, List.append_assoc, List.cons_append, readDepots_pass hfree hdepth hmanifest,
                hresult text h]
          · exact ⟨_, fun text h => token_hidden htok hdepth h⟩
      · obtain ⟨result, hresult⟩ := hrest front (by omega) depth curDepot out
        have hskip : ∀ d ∈ [c], isMark d = false := by
          intro d hd
          rw [List.mem_singleton.mp hd]
          exact Bool.eq_false_iff.mpr hmark
        refine ⟨result, fun text h => ?_⟩
        rw [← hresult text h]
        exact readDepots_skip hskip

/-- The object of a file with one depot, and the end of that file. -/
def hiddenText (gid : Gid) : Bytes :=
  quote :: (installedKey ++ quote :: ([lbrace] ++ quote :: (toDecimal 1 ++ quote :: ([lbrace] ++ quote :: (manifestKey ++
    quote :: ([] ++ quote :: (toDecimal gid.toNat ++ quote :: [rbrace, rbrace, rbrace])))))))

private theorem toDecimal_unmarked (n : Nat) : ∀ c ∈ toDecimal n, isMark c = false := by
  intro c hc
  have hdigit := List.all_eq_true.mp (toDecimal_all_isDigit n) c hc
  by_contra hmark
  rw [Bool.not_eq_false, isMark] at hmark
  simp only [Bool.or_eq_true, beq_iff_eq] at hmark
  rcases hmark with (rfl | rfl) | rfl <;> exact absurd hdigit (by decide)

private theorem toDecimal_ne_manifestKey (n : Nat) : toDecimal n ≠ manifestKey := by
  intro h
  have hdigits := toDecimal_all_isDigit n
  rw [h] at hdigits
  exact absurd hdigits (by decide +kernel)

private theorem hidden_hiddenText (gid : Gid) : Hidden (hiddenText gid) := by
  have hnil : quote ∉ ([] : Bytes) := List.not_mem_nil
  have hclosing : quote ∉ [rbrace, rbrace, rbrace] := by decide
  have hdigits (n : Nat) : quote ∉ toDecimal n := quote_not_mem_of_plain (toDecimal_plain n)
  have hkeys : ([] : Bytes) ≠ manifestKey ∧ [lbrace] ≠ manifestKey ∧ installedKey ≠ manifestKey := by decide +kernel
  have hmarks : (∀ c ∈ manifestKey, isMark c = false) ∧ ∀ c ∈ installedKey, isMark c = false := by decide +kernel
  -- The loop is outside of a string here,
  have hfields : Inert 3 (quote :: (manifestKey ++ quote :: ([] ++
      quote :: (toDecimal gid.toNat ++ quote :: [rbrace, rbrace, rbrace])))) :=
    (inert_nil.closeBrace.closeBrace.closeBrace.token (hdigits _) (.inr le_rfl)).token quote_not_mem_manifestKey
      (.inr le_rfl)
  have hdepot := (hfields.openBrace.token (hdigits 1) (.inl (toDecimal_ne_manifestKey 1))).openBrace
  -- and inside of one there.
  have hnumber := (inert_unclosed hclosing).skip (toDecimal_unmarked gid.toNat)
  have hkey := (hnumber.token hnil (.inl hkeys.1)).skip hmarks.1
  have hbehind := (hkey.token quote_not_mem_lbrace (.inl hkeys.2.1)).skip (toDecimal_unmarked 1)
  have hopened := (hbehind.token quote_not_mem_lbrace (.inl hkeys.2.1)).skip hmarks.2
  exact ⟨_, rfl, hdepot.token quote_not_mem_installedKey (.inl hkeys.2.2), hopened.mono (Nat.zero_le 1),
    hdepot.mono (by decide), hbehind.mono (Nat.zero_le 2)⟩

/-- A depot of which only the manifest is told. -/
def bareDepot (id : Nat) (gid : Gid) : Depot where
  id := id
  fields := [(manifestKey, toDecimal gid.toNat)]
  manifest := some gid
  manifestFields := List.filter_cons_of_pos (decide_eq_true rfl)

private theorem bareDepot_plain (id : Nat) (gid : Gid) : (bareDepot id gid).Plain := by
  constructor
  · intro field hfield
    rw [List.mem_singleton.mp hfield]
    exact ⟨quote_not_mem_manifestKey, quote_not_mem_of_plain (toDecimal_plain _)⟩
  · intro _ _ field hfield
    rw [List.mem_singleton.mp hfield]
    exact toDecimal_ne_manifestKey _

/-- The file that ends with one such depot. -/
def bareFile (front : Front) (gid : Gid) : AppManifest where
  front := front
  depots := [bareDepot 1 gid]
  after := .nil
  distinct := List.nodup_singleton _
  once := List.not_mem_nil

private theorem printed_bareFile (front : Front) (gid : Gid) :
    Printed (bareFile front gid).tree.tokens (compact front.tokens ++ hiddenText gid) := by
  have hfront : .finished ∉ front.tokens := by simp [Front.tokens, Pairs.finished_not_mem_tokens]
  rw [AppManifest.tokens_tree]
  refine (printed_compact hfront).append ?_
  have hself {value : Bytes} (h : ∀ c ∈ value, isControl c = false) : Spells value value := by
    have hspells := spells_escape value
    rwa [hspells.eq_of_plain h] at hspells
  have hend : Printed [.closeBrace, .closeBrace, .closeBrace] [rbrace, rbrace, rbrace] :=
    .closed (.closed (.closed (.finished rfl)))
  have hfields := (hend.quoted (hself (toDecimal_plain gid.toNat))).quoted (hself manifestKey_plain)
  exact (hfields.opened.quoted (hself (toDecimal_plain 1))).opened.quoted (hself installedKey_plain)

private theorem bareFile_installs (front : Front) (gid : Gid) : (bareFile front gid).Installs 1 gid :=
  ⟨bareDepot 1 gid, List.mem_singleton_self _, rfl, by decide, rfl⟩

/-- Behind a misleading front all such files are read alike. -/
theorem exists_installedDepotGids_of_misleads (h : Misleads front) :
    ∃ result, ∀ gid, installedDepotGids (some (compact front.tokens ++ hiddenText gid)) = result := by
  have hfront : .finished ∉ front.tokens := by simp [Front.tokens, Pairs.finished_not_mem_tokens]
  obtain ⟨tail, htail⟩ := blockOf_of_misleads h (printed_compact hfront)
  obtain ⟨result, hresult⟩ := exists_readDepots_hidden tail 1 0 ∅
  refine ⟨result, fun gid => ?_⟩
  have hbounded : Bounded (hiddenText gid) := bounded_cons rfl
  rw [installedDepotGids, Option.bind_some, htail _ hbounded]
  exact hresult _ (hidden_hiddenText gid)

/-- The files with plain depots behind a front are read exactly just when the front does not mislead. -/
theorem reads_exactly_iff (front : Front) :
    (∀ m text, m.front = front → (∀ depot ∈ m.depots, depot.Plain) → Printed m.tree.tokens text → ReadsExactly m text) ↔
      ¬Misleads front := by
  constructor
  · intro hall hmisleads
    obtain ⟨result, hresult⟩ := exists_installedDepotGids_of_misleads hmisleads
    have hread (gid : Gid) : result.lookup 1 = some gid := by
      have hplain : ∀ depot ∈ (bareFile front gid).depots, depot.Plain := by
        intro depot hdepot
        rw [List.mem_singleton.mp hdepot]
        exact bareDepot_plain 1 gid
      have hexact := hall (bareFile front gid) _ rfl hplain (printed_bareFile front gid)
      rw [← hresult gid]
      exact (hexact.gids 1 gid).mpr (bareFile_installs front gid)
    exact absurd (Option.some.inj ((hread 1).symm.trans (hread 2))) (by decide)
  · rintro h m text rfl hplain hprinted
    have hgids (d : DepotId) (gid : Gid) : (installedDepotGids (some text)).lookup d = some gid ↔ m.Installs d gid :=
      lookup_installedDepotGids h hplain hprinted
    refine ⟨hgids, fun pins appId => ?_⟩
    rw [appAtPinnedGids_eq_true_iff]
    simp only [hgids]

/-- A game whose name is that of the key, with the settings of its user before the depots. -/
def namedFront : Front where
  root := utf8 "AppState"
  before := .leaf (utf8 "name") installedKey (.node (utf8 "UserConfig") .nil .nil)
  once := by decide +kernel

/-- The reader begins in the settings of the user and finds no depot. -/
theorem name_is_taken_for_key : ¬∀ (m : AppManifest) (text : Bytes), Printed m.tree.tokens text → ReadsExactly m text := by
  intro hall
  have hexact := hall (bareFile namedFront 7) _ (printed_bareFile namedFront 7)
  have hfound := (hexact.gids 1 7).mpr (bareFile_installs namedFront 7)
  have hnone : (installedDepotGids (some (compact namedFront.tokens ++ hiddenText 7))).lookup 1 = none := by
    decide +kernel
  exact nomatch hnone.symm.trans hfound

end SlsteamMoon.InstalledDepots
