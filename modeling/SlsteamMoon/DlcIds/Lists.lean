import Mathlib.Data.Finset.Basic
import SlsteamMoon.FirstSeen
import SlsteamMoon.ProvisionCache.CmVdf
import SlsteamMoon.TextSearch

/-! The DLC ids of an appinfo text: what is extracted from a comma-separated list, and the filter that takes
unsupported ids out of it. -/
namespace SlsteamMoon.DlcIds
open KeyValues ProvisionCache TextSearch FirstSeen

abbrev AppId := UInt32

def comma : UInt8 := 0x2c

/-- stoul of digits, where unsigned long has 32 bits; none is out_of_range. -/
def stoul (digits : Bytes) : Option AppId :=
  let number := numberOf 10 decimalValue digits
  if maxUInt32 < number then none else some (UInt32.ofNat number)

/-- The ids so far and those seen. -/
structure Ids where
  out : List AppId := []
  seen : List AppId := []

def addDlcId (baseAppId : AppId) (ids : Ids) (tok : Bytes) : Ids :=
  if tok = [] then ids
  else if tok.all isDigit = false then ids
  else
    match stoul tok with
    | none => ids
    | some id =>
      if id = 0 ∨ id = baseAppId then ids
      else if id ∈ ids.seen then ids
      else ⟨ids.out ++ [id], id :: ids.seen⟩

/-- The pieces between the commas. A comma at the end of the list starts no piece. -/
def listTokens (value : Bytes) : List Bytes :=
  let pieces := value.splitOn comma
  if pieces.getLast? = some [] then pieces.dropLast else pieces

/-- The ids of one list. -/
def addListed (baseAppId : AppId) (ids : Ids) (value : Bytes) : Ids :=
  (listTokens value).foldl (addDlcId baseAppId) ids

/-- The value behind the first occurrence of a quoted key, and the text behind it. -/
def nextQuotedValueFor (key s : Bytes) : Option (Bytes × Bytes) := do
  let after ← behind (quote :: (key ++ [quote])) s
  let (_, opened) ← upTo quote after
  upTo quote opened

/-- The values of a key, each looked for behind the last; one unit of fuel for a value. -/
def quotedValues (key : Bytes) : Nat → Bytes → List Bytes
  | 0, _ => []
  | fuel + 1, s =>
    match nextQuotedValueFor key s with
    | none => []
    | some (value, rest) => value :: quotedValues key fuel rest

structure DlcAppIds where
  depotTagged : List AppId := []
  advertised : List AppId := []

def extractDlcAppIdsBySource (wire : Bytes) (baseAppId : AppId) : DlcAppIds where
  advertised := ((quotedValues (utf8 "listofdlc") wire.length wire).foldl (addListed baseAppId) {}).out
  depotTagged := ((quotedValues (utf8 "dlcappid") wire.length wire).foldl (addDlcId baseAppId) {}).out

/-- A numeric token whose id is in the set. -/
def isUnsupported (unsupported : Finset AppId) (token : Bytes) : Bool :=
  token ≠ [] && token.all isDigit && (stoul token).any (· ∈ unsupported)

/-- The output of the filter, whether nothing has been kept yet, and the tokens removed. -/
structure Filtered where
  out : Bytes := []
  firstKept : Bool := true
  removed : Nat := 0

def filterToken (unsupported : Finset AppId) (f : Filtered) (token : Bytes) : Filtered :=
  if isUnsupported unsupported token then { f with removed := f.removed + 1 }
  else { f with out := (if f.firstKept then f.out else f.out ++ [comma]) ++ token, firstKept := false }

/-- The filtered list and how many tokens were removed. -/
def filterUnsupportedDlcAppIds (value : Bytes) (unsupported : Finset AppId) : Bytes × Nat :=
  let f := (value.splitOn comma).foldl (filterToken unsupported) {}
  (f.out, f.removed)

example : (addListed 480 {} (utf8 "10,x,,480,0,10,7,")).out = [10, 7] ∧
    filterUnsupportedDlcAppIds (utf8 "10,x,,007,10,4294967303") {7, 10} = (utf8 "x,,4294967303", 3) := by
  decide +kernel

/-- The id that a token adds, when it is new. -/
def tokenId (baseAppId : AppId) (token : Bytes) : Option AppId :=
  if token = [] ∨ token.all isDigit = false then none else (stoul token).filter fun id => id ≠ 0 ∧ id ≠ baseAppId

private theorem addDlcId_eq (baseAppId : AppId) (ids : Ids) (token : Bytes) :
    addDlcId baseAppId ids token =
      match tokenId baseAppId token with
      | none => ids
      | some id => if id ∈ ids.seen then ids else ⟨ids.out ++ [id], id :: ids.seen⟩ := by
  rw [addDlcId, tokenId]
  by_cases hempty : token = []
  · rw [if_pos hempty, if_pos (.inl hempty)]
  by_cases hdigits : token.all isDigit = false
  · rw [if_neg hempty, if_pos hdigits, if_pos (.inr hdigits)]
  rw [if_neg hempty, if_neg hdigits, if_neg (by rw [not_or]; exact ⟨hempty, hdigits⟩)]
  cases stoul token with
  | none => rfl
  | some id =>
    dsimp only
    rw [Option.filter_some]
    by_cases hid : id = 0 ∨ id = baseAppId
    · have hnot : ¬decide (id ≠ 0 ∧ id ≠ baseAppId) = true := by
        rw [decide_eq_true_eq]
        exact fun h => hid.elim h.1 h.2
      rw [if_pos hid, if_neg hnot]
    · rw [if_neg hid, if_pos (decide_eq_true (not_or.mp hid))]

/-- The ids of a list are those of its tokens, each where it is first met. -/
theorem foldl_addDlcId (baseAppId : AppId) (tokens : List Bytes) (ids : Ids) :
    tokens.foldl (addDlcId baseAppId) ids =
      ⟨ids.out ++ (pass id ids.seen (tokens.filterMap (tokenId baseAppId))).1,
        (pass id ids.seen (tokens.filterMap (tokenId baseAppId))).2⟩ := by
  induction tokens generalizing ids with
  | nil => simp [FirstSeen.pass]
  | cons token tokens ih =>
    rw [List.foldl_cons, ih, addDlcId_eq]
    cases htoken : tokenId baseAppId token with
    | none => rw [List.filterMap_cons_none htoken]
    | some n =>
      rw [List.filterMap_cons_some htoken, FirstSeen.pass, id_eq]
      dsimp only
      split_ifs
      · rfl
      · simp only [List.append_assoc, List.singleton_append]

private theorem tokenId_nil (baseAppId : AppId) : tokenId baseAppId [] = none := rfl

/-- An empty token at the end says nothing. -/
theorem filterMap_listTokens (baseAppId : AppId) (value : Bytes) :
    (listTokens value).filterMap (tokenId baseAppId) = (value.splitOn comma).filterMap (tokenId baseAppId) := by
  simp only [listTokens]
  split_ifs with hlast
  · obtain ⟨front, hfront⟩ := List.getLast?_eq_some_iff.mp hlast
    rw [hfront, List.dropLast_concat, List.filterMap_append, List.filterMap_cons_none (tokenId_nil baseAppId),
      List.filterMap_nil, List.append_nil]
  · rfl

private theorem addListed_out (baseAppId : AppId) (value : Bytes) :
    (addListed baseAppId {} value).out = (pass id [] ((value.splitOn comma).filterMap (tokenId baseAppId))).1 := by
  rw [addListed, foldl_addDlcId, filterMap_listTokens]
  exact List.nil_append _

/-- The tokens that stay. -/
def kept (unsupported : Finset AppId) (tokens : List Bytes) : List Bytes :=
  tokens.filter fun token => !isUnsupported unsupported token

private theorem foldl_filterToken (unsupported : Finset AppId) (tokens : List Bytes) (f : Filtered) :
    (tokens.foldl (filterToken unsupported) f).out =
      f.out ++ if f.firstKept then [comma].intercalate (kept unsupported tokens)
        else (kept unsupported tokens).flatMap (comma :: ·) := by
  have hjoin : ∀ (token : Bytes) (tokens : List Bytes),
      [comma].intercalate (token :: tokens) = token ++ tokens.flatMap (comma :: ·) := by
    intro token tokens
    induction tokens generalizing token with
    | nil => simp
    | cons next tokens ih =>
      rw [List.intercalate_cons_cons, ih]
      simp
  induction tokens generalizing f with
  | nil => simp [kept]
  | cons token tokens ih =>
    rw [List.foldl_cons, ih, filterToken]
    cases hremove : isUnsupported unsupported token with
    | true =>
      have hkept : kept unsupported (token :: tokens) = kept unsupported tokens :=
        List.filter_cons_of_neg (by simp [hremove])
      rw [hkept]
      rfl
    | false =>
      have hkept : kept unsupported (token :: tokens) = token :: kept unsupported tokens :=
        List.filter_cons_of_pos (by simp [hremove])
      rw [hkept]
      cases f.firstKept with
      | true => simp [hjoin]
      | false => simp

/-- The filter joins the tokens that stay. -/
theorem filterUnsupported_eq (value : Bytes) (unsupported : Finset AppId) :
    (filterUnsupportedDlcAppIds value unsupported).1 =
      [comma].intercalate (kept unsupported (value.splitOn comma)) :=
  foldl_filterToken unsupported (value.splitOn comma) {}

/-- A list of which nothing is removed is joined to what it was. -/
theorem kept_of_none_removed {value : Bytes} {unsupported : Finset AppId}
    (h : (filterUnsupportedDlcAppIds value unsupported).2 = 0) :
    [comma].intercalate (kept unsupported (value.splitOn comma)) = value := by
  have hcount : ∀ (tokens : List Bytes) (f : Filtered),
      (tokens.foldl (filterToken unsupported) f).removed = f.removed + tokens.countP (isUnsupported unsupported) := by
    intro tokens
    induction tokens with
    | nil => exact fun f => rfl
    | cons token tokens ih =>
      intro f
      rw [List.foldl_cons, ih, List.countP_cons, filterToken]
      cases isUnsupported unsupported token
      · rfl
      · simp only [if_true]
        omega
  have hnone : (value.splitOn comma).countP (isUnsupported unsupported) = 0 :=
    (Nat.zero_add _).symm.trans ((hcount (value.splitOn comma) {}).symm.trans h)
  have hall : kept unsupported (value.splitOn comma) = value.splitOn comma := by
    rw [kept, List.filter_eq_self]
    intro token htoken
    rw [Bool.not_eq_true', Bool.eq_false_iff]
    exact List.countP_eq_zero.mp hnone token htoken
  rw [hall, List.intercalate_splitOn]

/-- What is joined is split again, but for a list without tokens, which reads as one empty token. -/
theorem splitOn_kept (value : Bytes) (unsupported : Finset AppId) :
    ([comma].intercalate (kept unsupported (value.splitOn comma))).splitOn comma =
      if kept unsupported (value.splitOn comma) = [] then [[]] else kept unsupported (value.splitOn comma) := by
  split_ifs with hnone
  · rw [hnone]
    rfl
  · apply List.splitOn_intercalate comma ?_ hnone
    intro token htoken hcomma
    have hpiece : token ∈ value.splitOnP (· == comma) := (List.mem_filter.mp htoken).1
    exact absurd (free_of_mem_splitOnP hpiece comma hcomma) (by decide)

private theorem kept_nil (unsupported : Finset AppId) : kept unsupported [[]] = [[]] := rfl

/-- A token is removed just when the id that it would add is in the set; one that adds no id adds none either way. -/
theorem filterMap_kept (baseAppId : AppId) (unsupported : Finset AppId) (tokens : List Bytes) :
    (kept unsupported tokens).filterMap (tokenId baseAppId) =
      (tokens.filterMap (tokenId baseAppId)).filter (· ∉ unsupported) := by
  induction tokens with
  | nil => rfl
  | cons token tokens ih =>
    have hremove : ∀ n, tokenId baseAppId token = some n → (isUnsupported unsupported token = true ↔ n ∈ unsupported) := by
      intro n hn
      rw [tokenId] at hn
      split_ifs at hn with hshape
      obtain ⟨hstoul, -⟩ := Option.filter_eq_some_iff.mp hn
      rw [not_or, Bool.not_eq_false] at hshape
      simp [isUnsupported, hshape.1, hshape.2, hstoul]
    by_cases hunsupported : isUnsupported unsupported token = true
    · have hkept : kept unsupported (token :: tokens) = kept unsupported tokens :=
        List.filter_cons_of_neg (by simp [hunsupported])
      rw [hkept, ih]
      cases htoken : tokenId baseAppId token with
      | none => rw [List.filterMap_cons_none htoken]
      | some n =>
        rw [List.filterMap_cons_some htoken, List.filter_cons_of_neg (by simpa using (hremove n htoken).mp hunsupported)]
    · have hkept : kept unsupported (token :: tokens) = token :: kept unsupported tokens :=
        List.filter_cons_of_pos (by simp [hunsupported])
      rw [hkept]
      cases htoken : tokenId baseAppId token with
      | none => rw [List.filterMap_cons_none htoken, List.filterMap_cons_none htoken, ih]
      | some n =>
        rw [List.filterMap_cons_some htoken, List.filterMap_cons_some htoken, ih,
          List.filter_cons_of_pos (by simpa using mt (hremove n htoken).mpr hunsupported)]

private theorem filtered_twice (value : Bytes) (first second : Finset AppId) :
    (filterUnsupportedDlcAppIds (filterUnsupportedDlcAppIds value first).1 second).1 =
      [comma].intercalate (kept second (kept first (value.splitOn comma))) := by
  rw [filterUnsupported_eq, filterUnsupported_eq, splitOn_kept]
  split_ifs with hnone
  · rw [hnone, kept_nil]
    rfl
  · rfl

private theorem kept_kept (first second : Finset AppId) (tokens : List Bytes) :
    kept second (kept first tokens) = kept (first ∪ second) tokens := by
  rw [kept, kept, kept, List.filter_filter]
  apply List.filter_congr
  intro token _
  cases hstoul : stoul token with
  | none => simp [isUnsupported, hstoul]
  | some n =>
    simp only [isUnsupported, hstoul, Option.any_some, Finset.mem_union]
    by_cases hfirst : n ∈ first <;> by_cases hsecond : n ∈ second <;> simp [hfirst, hsecond]

/-- The ids of the filtered list are the others of the list. -/
theorem addListed_filtered (value : Bytes) (unsupported : Finset AppId) (baseAppId : AppId) :
    (addListed baseAppId {} (filterUnsupportedDlcAppIds value unsupported).1).out =
      (addListed baseAppId {} value).out.filter (· ∉ unsupported) := by
  have hids : ((filterUnsupportedDlcAppIds value unsupported).1.splitOn comma).filterMap (tokenId baseAppId) =
      ((value.splitOn comma).filterMap (tokenId baseAppId)).filter (· ∉ unsupported) := by
    rw [← filterMap_kept, filterUnsupported_eq, splitOn_kept]
    split_ifs with hnone
    · rw [hnone]
      rfl
    · rfl
  rw [addListed_out, addListed_out, hids]
  exact pass_filter id (fun n => decide (n ∉ unsupported)) _ fun _ _ => Iff.rfl

/-- The filter brings no byte into a list but commas. -/
theorem notMem_filtered {value : Bytes} {c : UInt8} (hc : c ∉ value) (hcomma : c ≠ comma) (unsupported : Finset AppId) :
    c ∉ (filterUnsupportedDlcAppIds value unsupported).1 := by
  intro hmem
  have hbyte : (c == comma) = false := beq_eq_false_iff_ne.mpr hcomma
  obtain ⟨piece, hpiece, hin⟩ := (exists_mem_splitOnP_iff (p := (· == comma)) hbyte).mpr hmem
  have hsplit := splitOn_kept value unsupported
  rw [← filterUnsupported_eq, List.splitOn] at hsplit
  rw [hsplit] at hpiece
  split_ifs at hpiece
  · obtain rfl := List.mem_singleton.mp hpiece
    cases hin
  · exact hc ((exists_mem_splitOnP_iff (p := (· == comma)) hbyte).mp ⟨piece, (List.mem_filter.mp hpiece).1, hin⟩)

/-- A text with a list behind its key. -/
def listText (front gap value rest : Bytes) : Bytes :=
  front ++ (quote :: (utf8 "listofdlc" ++ [quote]) ++ (gap ++ quote :: (value ++ quote :: rest)))

/-- No list in front of it and none behind. -/
structure LoneList (front gap rest : Bytes) : Prop where
  front : Unseen (quote :: (utf8 "listofdlc" ++ [quote])) front
  gap : quote ∉ gap
  rest : nextQuotedValueFor (utf8 "listofdlc") rest = none

private theorem quotedValues_listText {front gap value rest : Bytes} (h : LoneList front gap rest)
    (hvalue : quote ∉ value)
    (fuel : Nat) : quotedValues (utf8 "listofdlc") (fuel + 1) (listText front gap value rest) = [value] := by
  have hnext : nextQuotedValueFor (utf8 "listofdlc") (listText front gap value rest) = some (value, rest) := by
    rw [nextQuotedValueFor, listText, behind_of_unseen h.front (List.cons_ne_nil _ _), Option.bind_eq_bind,
      Option.bind_some, upTo_append h.gap]
    exact upTo_append hvalue rest
  rw [quotedValues, hnext]
  dsimp only
  cases fuel with
  | zero => rfl
  | succ fuel => rw [quotedValues, h.rest]

private theorem advertised_listText {front gap value rest : Bytes} (h : LoneList front gap rest)
    (hvalue : quote ∉ value) (baseAppId : AppId) :
    (extractDlcAppIdsBySource (listText front gap value rest) baseAppId).advertised =
      (addListed baseAppId {} value).out := by
  obtain ⟨fuel, hfuel⟩ : ∃ fuel, (listText front gap value rest).length = fuel + 1 := by
    refine Nat.exists_eq_succ_of_ne_zero fun hzero => ?_
    have hnil := List.eq_nil_of_length_eq_zero hzero
    simp [listText] at hnil
  rw [extractDlcAppIdsBySource, hfuel, quotedValues_listText h hvalue]
  rfl

/-- The filter of a list is a set difference: on the ids that are extracted, in their order, from the list and from a text
that holds it, and as an operation. -/
theorem dlc_list_filter_is_difference (value : Bytes) (first second : Finset AppId) (baseAppId : AppId) :
    (addListed baseAppId {} (filterUnsupportedDlcAppIds value first).1).out =
        (addListed baseAppId {} value).out.filter (· ∉ first) ∧
      (∀ front gap rest, LoneList front gap rest → quote ∉ value →
        (extractDlcAppIdsBySource (listText front gap (filterUnsupportedDlcAppIds value first).1 rest) baseAppId).advertised =
          (extractDlcAppIdsBySource (listText front gap value rest) baseAppId).advertised.filter (· ∉ first)) ∧
      (filterUnsupportedDlcAppIds (filterUnsupportedDlcAppIds value first).1 first).1 =
        (filterUnsupportedDlcAppIds value first).1 ∧
      (filterUnsupportedDlcAppIds (filterUnsupportedDlcAppIds value first).1 second).1 =
        (filterUnsupportedDlcAppIds value (first ∪ second)).1 := by
  refine ⟨addListed_filtered value first baseAppId, ?_, ?_, ?_⟩
  · intro front gap rest h hvalue
    rw [advertised_listText h (notMem_filtered hvalue (by decide) first), advertised_listText h hvalue,
      addListed_filtered]
  · rw [filtered_twice, kept_kept, Finset.union_self, ← filterUnsupported_eq]
  · rw [filtered_twice, kept_kept, ← filterUnsupported_eq]

end SlsteamMoon.DlcIds
