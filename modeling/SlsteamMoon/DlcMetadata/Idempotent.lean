import SlsteamMoon.DlcMetadata.Normalize

/-! A normalised record is a fixed point: its text reads back as the tree that was printed, and the checks pass on it
again. -/
namespace SlsteamMoon.DlcMetadata
open KeyValues ProvisionCache

/-! ### Tokens of a printed text -/

def Spaces (ws : Bytes) : Prop := ∀ c ∈ ws, isSpace c = true

private theorem spaces_nil : Spaces [] := List.forall_mem_nil _

private theorem spaces_newline : Spaces [newline] := by
  rw [Spaces, List.forall_mem_singleton]
  decide

private theorem spaces_tabs (depth : Nat) : Spaces (tabs depth) := by
  intro c hc
  rw [List.eq_of_mem_replicate hc]
  decide

theorem Spaces.append {ws more : Bytes} (h : Spaces ws) (hmore : Spaces more) : Spaces (ws ++ more) := by
  intro c hc
  exact (List.mem_append.mp hc).elim (h c) (hmore c)

private theorem skipWhitespace_spaces {ws : Bytes} (h : Spaces ws) (rest : Bytes) :
    skipWhitespace false (ws ++ rest) = skipWhitespace false rest := by
  induction ws with
  | nil => rfl
  | cons c ws ih =>
    rw [Spaces, List.forall_mem_cons] at h
    rw [List.cons_append, skipWhitespace, if_pos h.1, ih h.2]

private theorem skipWhitespace_token {c : UInt8} {rest : Bytes} (hspace : isSpace c = false) (hslash : c ≠ slash) :
    skipWhitespace false (c :: rest) = c :: rest := by
  rw [skipWhitespace, if_neg (by rw [hspace]; exact Bool.false_ne_true), if_neg fun h => hslash h.1]

private theorem nextToken_string {ws : Bytes} (hws : Spaces ws) (s rest : Bytes) :
    nextToken (ws ++ (emitEscaped s ++ rest)) = (.string s, rest) := by
  have htext : emitEscaped s ++ rest = quote :: (s.flatMap escapeByte ++ quote :: rest) := by simp [emitEscaped]
  rw [htext, nextToken, skipWhitespace_spaces hws, skipWhitespace_token (by decide) (by decide)]
  dsimp only
  rw [if_neg (by decide), if_neg (by decide), if_pos rfl, quoted, readQuoted_escaped (escaped_escapeBytes s)]

private theorem nextToken_openBrace {ws : Bytes} (hws : Spaces ws) (rest : Bytes) :
    nextToken (ws ++ lbrace :: rest) = (.openBrace, rest) := by
  rw [nextToken, skipWhitespace_spaces hws, skipWhitespace_token (by decide) (by decide)]
  exact if_pos rfl

private theorem nextToken_closeBrace {ws : Bytes} (hws : Spaces ws) (rest : Bytes) :
    nextToken (ws ++ rbrace :: rest) = (.closeBrace, rest) := by
  rw [nextToken, skipWhitespace_spaces hws, skipWhitespace_token (by decide) (by decide)]
  dsimp only
  rw [if_neg (by decide), if_pos rfl]

/-! ### The reader on a printed tree -/

private theorem printMap_leaf (depth : Nat) (key value : Bytes) (rest : Pairs) (ws tail : Bytes) :
    ws ++ (printMap depth (.leaf key value rest) ++ tail) =
      (ws ++ tabs depth) ++ (emitEscaped key ++ ([tab, tab] ++ (emitEscaped value ++
        ([newline] ++ (printMap depth rest ++ tail))))) := by
  simp [printMap, emitScalar]

private theorem printMap_node (depth : Nat) (key : Bytes) (children rest : Pairs) (ws tail : Bytes) :
    ws ++ (printMap depth (.node key children rest) ++ tail) =
      (ws ++ tabs depth) ++ (emitEscaped key ++ (([newline] ++ tabs depth) ++ lbrace :: ([newline] ++
        (printMap (depth + 1) children ++ (tabs depth ++ rbrace :: ([newline] ++ (printMap depth rest ++ tail))))))) := by
  simp [printMap, braced]

/-- A printed map reads back behind the pairs that the reader has. -/
theorem readObject_printMap (pairs : Pairs) :
    ∀ (depth closing fuel : Nat) (ws after : Bytes) (node : Pairs), Spaces ws → Distinct pairs → Apart node pairs →
      (ws ++ (printMap depth pairs ++ (tabs closing ++ rbrace :: after))).length ≤ fuel →
      readObject fuel node (ws ++ (printMap depth pairs ++ (tabs closing ++ rbrace :: after))) =
        some (node.append pairs, after) := by
  induction pairs with
  | nil =>
    intro depth closing fuel ws after node hws _ _ hfuel
    have hclose := nextToken_closeBrace (hws.append (spaces_tabs closing)) after
    rw [List.append_assoc] at hclose
    rw [printMap, List.nil_append] at hfuel ⊢
    obtain ⟨fuel, rfl⟩ := Nat.exists_eq_succ_of_ne_zero (n := fuel) (by simp at hfuel; omega)
    rw [readObject, hclose, Pairs.append_nil]
  | leaf key value rest ih =>
    intro depth closing fuel ws after node hws hdistinct hapart hfuel
    rw [printMap_leaf] at hfuel ⊢
    obtain ⟨fuel, rfl⟩ := Nat.exists_eq_succ_of_ne_zero (n := fuel) (by simp at hfuel; omega)
    obtain ⟨hshift, happend⟩ := Apart.shift (.scalar value) hapart hdistinct.1
    have hrest := ih depth closing fuel [newline] after (assign key (.scalar value) node) spaces_newline hdistinct.2 hshift
      (by simp at hfuel ⊢; omega)
    rw [readObject, nextToken_string (hws.append (spaces_tabs depth))]
    dsimp only
    rw [@nextToken_string [tab, tab] (spaces_tabs 2)]
    dsimp only
    rw [hrest, happend]
    rfl
  | node key children rest ihChildren ih =>
    intro depth closing fuel ws after node hws hdistinct hapart hfuel
    rw [printMap_node] at hfuel ⊢
    obtain ⟨fuel, rfl⟩ := Nat.exists_eq_succ_of_ne_zero (n := fuel) (by simp at hfuel; omega)
    obtain ⟨hshift, happend⟩ := Apart.shift (.object children) hapart hdistinct.1
    have hchildren := ihChildren (depth + 1) depth fuel [newline]
      ([newline] ++ (printMap depth rest ++ (tabs closing ++ rbrace :: after))) .nil spaces_newline hdistinct.2.1
      (fun _ => .inl rfl) (by simp at hfuel ⊢; omega)
    have hrest := ih depth closing fuel [newline] after (assign key (.object children) node) spaces_newline hdistinct.2.2
      hshift (by simp at hfuel ⊢; omega)
    rw [readObject, nextToken_string (hws.append (spaces_tabs depth))]
    dsimp only
    rw [nextToken_openBrace (spaces_newline.append (spaces_tabs depth))]
    dsimp only
    rw [hchildren]
    dsimp only [Pairs.append]
    rw [hrest, happend]
    rfl

/-! ### What the reader gives -/

private theorem find_eq_none_assign {key other : Bytes} {value : Value} {pairs : Pairs} (hne : key ≠ other)
    (h : find other pairs = none) : find other (assign key value pairs) = none := by
  rw [find_assign, if_neg hne, h]

/-- An assignment leaves the keys of the map distinct. -/
theorem distinct_assign {key : Bytes} {value : Value} {pairs : Pairs}
    (hvalue : ∀ children, value = .object children → Distinct children) (h : Distinct pairs) :
    Distinct (assign key value pairs) := by
  induction pairs with
  | nil => exact distinct_pair.mpr ⟨rfl, hvalue, trivial⟩
  | leaf k v rest ih =>
    rw [assign]
    split_ifs with hk
    · exact distinct_pair.mpr ⟨hk ▸ h.1, hvalue, h.2⟩
    · exact ⟨find_eq_none_assign (Ne.symm hk) h.1, ih h.2⟩
  | node k children rest _ ih =>
    rw [assign]
    split_ifs with hk
    · exact distinct_pair.mpr ⟨hk ▸ h.1, hvalue, h.2.2⟩
    · exact ⟨find_eq_none_assign (Ne.symm hk) h.1, h.2.1, ih h.2.2⟩

/-- The reader gives no map a key twice. -/
theorem readObject_distinct (fuel : Nat) {node result : Pairs} {input rest : Bytes}
    (h : readObject fuel node input = some (result, rest)) (hnode : Distinct node) : Distinct result := by
  induction fuel generalizing node result input rest with
  | zero => cases h
  | succ fuel ih =>
    rw [readObject] at h
    split at h
    · obtain ⟨rfl, -⟩ := Prod.mk.inj (Option.some.inj h)
      exact hnode
    · split at h
      · exact ih h (distinct_assign (by rintro children ⟨⟩) hnode)
      · split at h
        · next child rest' hchild =>
          refine ih h (distinct_assign ?_ hnode)
          rintro children ⟨⟩
          exact ih hchild trivial
        · cases h
      · cases h
    · cases h

private theorem readAppinfo_distinct {wire : Bytes} {body : Pairs} (h : readAppinfo wire = some body) :
    Distinct body := by
  rw [readAppinfo] at h
  split at h
  · split_ifs at h
    split at h
    · split at h
      · next body' rest hbody =>
        split_ifs at h
        obtain rfl := Option.some.inj h
        exact readObject_distinct _ hbody trivial
      · cases h
    · cases h
  · cases h

/-! ### The checks on what was kept -/

/-- What the passed checks say. -/
theorem checkedParts_eq_some {requestedDlcAppId baseAppId : Nat} {body : Pairs} {parts : Parts} :
    checkedParts requestedDlcAppId baseAppId body = some parts ↔
      find (utf8 "appid") body = some parts.appId ∧ objectOf (find (utf8 "common") body) = some parts.common ∧
      objectOf (find (utf8 "extended") body) = parts.extended ∧ ∃ wireAppId parent,
        parseAppId (some parts.appId) = some wireAppId ∧
        parentOf (parseAppId (find (utf8 "parent") parts.common))
          (parts.extended.bind fun extended => parseAppId (find (utf8 "dlcforappid") extended)) = some parent ∧
        typeIsDlc (find (utf8 "type") parts.common) = true ∧
        isValidDlcMetadata ⟨baseAppId, requestedDlcAppId, wireAppId, parent, true, true⟩ = true := by
  obtain ⟨appId, common, extended⟩ := parts
  dsimp only
  constructor
  · intro h
    rw [checkedParts] at h
    split at h
    · next appId' common' happ hcommon =>
      dsimp only at h
      split at h
      · next wireAppId parent hwire hparent =>
        split_ifs at h with hvalid
        obtain ⟨rfl, rfl, rfl⟩ := Parts.mk.inj (Option.some.inj h)
        exact ⟨happ, hcommon, rfl, wireAppId, parent, hwire, hparent, hvalid⟩
      · cases h
    · cases h
  · rintro ⟨happ, hcommon, rfl, wireAppId, parent, hwire, hparent, hvalid⟩
    rw [checkedParts, happ, hcommon]
    dsimp only
    rw [hwire, hparent]
    exact if_pos hvalid

private theorem find_safe (parts : Parts) :
    find (utf8 "appid") parts.safe = some parts.appId ∧
      objectOf (find (utf8 "common") parts.safe) = some parts.common ∧
      objectOf (find (utf8 "extended") parts.safe) = parts.extended := by
  obtain ⟨appId, common, extended⟩ := parts
  cases extended <;>
    simp only [Parts.safe, find_assign, utf8_inj, String.reduceEq, if_true, if_false, find, objectOf, and_self]

/-- The parts that are kept pass the checks again, and all of them are kept again. -/
theorem checkedParts_safe {requestedDlcAppId baseAppId : Nat} {body : Pairs} {parts : Parts}
    (h : checkedParts requestedDlcAppId baseAppId body = some parts) :
    checkedParts requestedDlcAppId baseAppId parts.safe = some parts := by
  obtain ⟨-, -, -, hchecks⟩ := checkedParts_eq_some.mp h
  obtain ⟨happ, hcommon, hextended⟩ := find_safe parts
  exact checkedParts_eq_some.mpr ⟨happ, hcommon, hextended, hchecks⟩

private theorem distinct_objectOf {key : Bytes} {body children : Pairs} (h : objectOf (find key body) = some children)
    (hbody : Distinct body) : Distinct children := by
  cases hfind : find key body with
  | none =>
    rw [hfind] at h
    cases h
  | some value =>
    rw [hfind] at h
    cases value with
    | scalar text => cases h
    | object other =>
      obtain rfl := Option.some.inj h
      exact hbody.of_find hfind

private theorem distinct_safe {requestedDlcAppId baseAppId : Nat} {body : Pairs} {parts : Parts}
    (h : checkedParts requestedDlcAppId baseAppId body = some parts) (hbody : Distinct body) : Distinct parts.safe := by
  obtain ⟨-, hcommon, hextended, wireAppId, parent, hwire, -⟩ := checkedParts_eq_some.mp h
  have happ : ∀ children, parts.appId = .object children → Distinct children := by
    intro children heq
    rw [heq] at hwire
    cases hwire
  have hidentity : Distinct (assign (utf8 "common") (.object parts.common) (assign (utf8 "appid") parts.appId .nil)) := by
    refine distinct_assign ?_ (distinct_assign happ trivial)
    rintro children ⟨⟩
    exact distinct_objectOf hcommon hbody
  rw [Parts.safe]
  cases hpart : parts.extended with
  | none => exact hidentity
  | some extended =>
    refine distinct_assign ?_ hidentity
    rintro children ⟨⟩
    exact distinct_objectOf (hextended.trans hpart) hbody

/-! ### The whole text -/

private theorem printAppinfo_eq (safe : Pairs) :
    printAppinfo safe = [] ++ (emitEscaped appinfoKey ++ ([newline] ++ lbrace :: ([newline] ++ (printMap 1 safe ++
      (tabs 0 ++ rbrace :: [newline]))))) := by
  have hheader : utf8 "\"appinfo\"\n\x7b\n" = emitEscaped appinfoKey ++ ([newline] ++ lbrace :: [newline]) := by
    decide +kernel
  rw [printAppinfo, hheader]
  simp [tabs]

/-- Only the newline at the end is taken off. -/
theorem trimmed_printAppinfo (safe : Pairs) :
    trimmed (printAppinfo safe) = [] ++ (emitEscaped appinfoKey ++ ([newline] ++ lbrace :: ([newline] ++
      (printMap 1 safe ++ (tabs 0 ++ rbrace :: []))))) := by
  have hsplit (front : Bytes) :
      (front ++ (rbrace :: [newline])).rdropWhile (fun c => c == 0 || isSpace c) = front ++ [rbrace] := by
    rw [show front ++ (rbrace :: [newline]) = (front ++ [rbrace]) ++ [newline] by simp, List.rdropWhile_concat,
      if_pos (by decide), List.rdropWhile_concat, if_neg (by decide)]
  have := hsplit ([] ++ (emitEscaped appinfoKey ++ ([newline] ++ lbrace :: ([newline] ++ (printMap 1 safe ++ tabs 0)))))
  rw [printAppinfo_eq, trimmed]
  simpa only [List.append_assoc, List.cons_append] using this

private theorem readAppinfo_printed {safe : Pairs} (h : Distinct safe) :
    readAppinfo (trimmed (printAppinfo safe)) = some safe := by
  rw [trimmed_printAppinfo, readAppinfo, nextToken_string spaces_nil]
  dsimp only
  rw [if_neg (fun hne => hne rfl), nextToken_openBrace spaces_newline]
  dsimp only
  rw [readObject_printMap safe 1 0 _ [newline] [] .nil spaces_newline h (fun _ => .inl rfl) (Nat.le_succ _)]
  exact if_pos rfl

/-- What is normalised once is its own normal form. -/
theorem normalize_idempotent {cmWire normalizedWire : Bytes} {requestedDlcAppId baseAppId : Nat}
    (h : normalize cmWire requestedDlcAppId baseAppId = some normalizedWire) :
    normalize normalizedWire requestedDlcAppId baseAppId = some normalizedWire := by
  rw [normalize] at h
  split_ifs at h with hids
  split at h
  · next body hbody =>
    obtain ⟨parts, hparts, rfl⟩ := Option.map_eq_some_iff.mp h
    have hread := readAppinfo_printed (distinct_safe hparts (readAppinfo_distinct hbody))
    have hne : trimmed (printAppinfo parts.safe) ≠ [] := by
      rw [trimmed_printAppinfo]
      simp [emitEscaped]
    simp only [not_or] at hids
    rw [normalize, if_neg (by simp only [not_or]; exact ⟨hids.1, hids.2.1, hids.2.2.1, hne⟩), hread]
    dsimp only
    rw [checkedParts_safe hparts]
    rfl
  · cases h

/-- A record with an escaped quote, a key that comes twice, an empty block and a section that is dropped. -/
def oddWire : Bytes :=
  utf8 "\"appinfo\"\x7b appid 7 // the dlc\n common \x7b type DLC name \"a \\\"b\\\"\" parent 9 parent 5 tags \x7b\x7d \x7d depots \x7b\x7d \x7d\n"

def oddNormal : Bytes :=
  utf8 "\"appinfo\"\n\x7b\n\t\"appid\"\t\t\"7\"\n\t\"common\"\n\t\x7b\n\t\t\"type\"\t\t\"DLC\"\n\t\t\"name\"\t\t\"a \\\"b\\\"\"\n\t\t\"parent\"\t\t\"5\"\n\t\t\"tags\"\n\t\t\x7b\n\t\t\x7d\n\t\x7d\n\x7d\n"

private theorem oddWire_normalizes : normalize oddWire 7 5 = some oddNormal := by decide +kernel

theorem normalize_idempotent_oddWire : normalize oddNormal 7 5 = some oddNormal := normalize_idempotent oddWire_normalizes

end SlsteamMoon.DlcMetadata
