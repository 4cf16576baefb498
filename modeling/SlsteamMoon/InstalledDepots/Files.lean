import SlsteamMoon.KeyValues.Text
import SlsteamMoon.ManifestPlan.Planner
import SlsteamMoon.ProvisionCache.CmVdf
import SlsteamMoon.TextSearch
import SlsteamMoon.KeyValues.Printed
import Mathlib.Algebra.GroupWithZero.Nat

/-! The reader of the InstalledDepots block of an appmanifest file, and the comparison with the pins of the app. -/
namespace SlsteamMoon.InstalledDepots
open KeyValues TextSearch ManifestPlan
open ProvisionCache (utf8 isDigit isSpace numberOf decimalValue toDecimal toDecimal_all_isDigit toDecimal_ne_nil
  numberOf_toDecimal digit_front)

/-- `std::stoul` on the C string, with an integer of so many bits: white space, a sign, digits. None is an exception. -/
def stoul (bits : Nat) (text : Bytes) : Option Nat :=
  let body := (text.takeWhile (· != 0)).dropWhile isSpace
  let unsigned := if body.head? = some 0x2b ∨ body.head? = some 0x2d then body.tail else body
  let digits := unsigned.takeWhile isDigit
  let number := numberOf 10 decimalValue digits
  if digits = [] ∨ 2 ^ bits ≤ number then none
  else if body.head? = some 0x2d then some ((2 ^ bits - number) % 2 ^ bits)
  else some number

/-- The depot of a key; unsigned long has 32 bits. -/
def depotOf (tok : Bytes) : DepotId := ((stoul 32 tok).map UInt32.ofNat).getD 0

def gidOf (value : Bytes) : Option Gid := (stoul 64 value).map UInt64.ofNat

abbrev Gids := AList fun _ : DepotId => Gid

def installedKey : Bytes := utf8 "InstalledDepots"

def manifestKey : Bytes := utf8 "manifest"

/-- The text behind the brace of the block. -/
def blockOf (s : Bytes) : Option Bytes := do
  let idStart ← findWord (quote :: (installedKey ++ [quote])) s
  let (_, block) ← upTo lbrace (s.drop idStart)
  return block

/-- The loop on what is left of the text, with its three locals. -/
def readDepots (s : Bytes) (depth : Nat) (curDepot : DepotId) (out : Gids) : Gids :=
  match s with
  | [] => out
  | c :: rest =>
    if depth = 0 then out
    else if c = lbrace then readDepots rest (depth + 1) curDepot out
    else if c = rbrace then readDepots rest (depth - 1) curDepot out
    else if c = quote then
      match _htok : upTo quote rest with
      | none => out
      | some (tok, behind) =>
        if depth = 1 then readDepots behind depth (depotOf tok) out
        else if depth = 2 ∧ tok = manifestKey ∧ curDepot ≠ 0 then
          match _hopen : upTo quote behind with
          | none => out
          | some (_, opened) =>
            match _hclose : upTo quote opened with
            | none => out
            | some (value, closed) =>
              readDepots closed depth curDepot (((gidOf value).map (out.insert curDepot)).getD out)
        else readDepots behind depth curDepot out
    else readDepots rest depth curDepot out
termination_by s.length
decreasing_by
  all_goals rw [List.length_cons]
  · omega
  · omega
  · have htok := length_upTo _htok
    omega
  · have htok := length_upTo _htok
    have hopen := length_upTo _hopen
    have hclose := length_upTo _hclose
    omega
  · have htok := length_upTo _htok
    omega
  · omega

/-- The content of the file that is found for the app, if there is one. -/
def installedDepotGids (file : Option Bytes) : Gids :=
  match file.bind blockOf with
  | none => ∅
  | some block => readDepots block 1 0 ∅

def getAppPinnedDepots (pins : PinMap) (appId : AppId) : Gids := ((pins.lookup appId).map AppPins.depots).getD ∅

/-- The loop over the pins of the app. -/
def allMatch (installed : Gids) : List (Sigma fun _ : DepotId => Gid) → Bool → Bool
  | [], anyInstalledPinMatched => anyInstalledPinMatched
  | ⟨depot, gid⟩ :: rest, anyInstalledPinMatched =>
    match installed.lookup depot with
    | none => allMatch installed rest anyInstalledPinMatched
    | some held => if held ≠ gid then false else allMatch installed rest true

def appAtPinnedGids (pins : PinMap) (appId : AppId) (file : Option Bytes) : Bool :=
  let pinned := getAppPinnedDepots pins appId
  if pinned.entries = [] then false
  else
    let installed := installedDepotGids file
    if installed.entries = [] then false else allMatch installed pinned.entries false

/-- A byte that the loop does not pass over. -/
def isMark (c : UInt8) : Bool := c == lbrace || c == rbrace || c == quote

variable {s gap tok value rest : Bytes} {depth : Nat} {curDepot : DepotId} {out : Gids}

theorem readDepots_nil : readDepots [] depth curDepot out = out := by rw [readDepots]

theorem readDepots_zero : readDepots s 0 curDepot out = out := by
  cases s with
  | nil => exact readDepots_nil
  | cons c s => rw [readDepots, if_pos rfl]

theorem readDepots_skip (h : ∀ c ∈ gap, isMark c = false) :
    readDepots (gap ++ rest) depth curDepot out = readDepots rest depth curDepot out := by
  induction gap with
  | nil => rfl
  | cons c gap ih =>
    obtain ⟨hc, hgap⟩ := List.forall_mem_cons.mp h
    simp only [isMark, Bool.or_eq_false_iff, beq_eq_false_iff_ne] at hc
    rw [List.cons_append, readDepots, if_neg hc.1.1, if_neg hc.1.2, if_neg hc.2, ih hgap]
    split_ifs with hzero
    · rw [hzero, readDepots_zero]
    · rfl

theorem readDepots_openBrace (hdepth : depth ≠ 0) :
    readDepots (lbrace :: rest) depth curDepot out = readDepots rest (depth + 1) curDepot out := by
  rw [readDepots, if_neg hdepth, if_pos rfl]

theorem readDepots_closeBrace :
    readDepots (rbrace :: rest) (depth + 1) curDepot out = readDepots rest depth curDepot out := by
  have hne : rbrace ≠ lbrace := by decide
  rw [readDepots, if_neg (Nat.succ_ne_zero depth), if_neg hne, if_pos rfl, Nat.add_sub_cancel]

/-- A token that is neither the key of a depot nor that of its manifest. -/
theorem readDepots_token (hfree : quote ∉ tok) (hdepth : 2 ≤ depth)
    (hother : ¬(depth = 2 ∧ tok = manifestKey ∧ curDepot ≠ 0)) :
    readDepots (quote :: (tok ++ quote :: rest)) depth curDepot out = readDepots rest depth curDepot out := by
  have hopen : quote ≠ lbrace := by decide
  have hclose : quote ≠ rbrace := by decide
  rw [readDepots, if_neg (by omega), if_neg hopen, if_neg hclose, if_pos rfl, upTo_append hfree]
  dsimp only
  rw [if_neg (by omega), if_neg hother]

theorem readDepots_key (hfree : quote ∉ tok) :
    readDepots (quote :: (tok ++ quote :: rest)) 1 curDepot out = readDepots rest 1 (depotOf tok) out := by
  have hopen : quote ≠ lbrace := by decide
  have hclose : quote ≠ rbrace := by decide
  rw [readDepots, if_neg Nat.one_ne_zero, if_neg hopen, if_neg hclose, if_pos rfl, upTo_append hfree]
  dsimp only
  rw [if_pos rfl]

theorem quote_not_mem_manifestKey : quote ∉ manifestKey := by decide +kernel

/-- The key of a manifest takes the next two quotes with it. -/
theorem readDepots_manifest (hcur : curDepot ≠ 0) (hgap : quote ∉ gap) (hvalue : quote ∉ value) :
    readDepots (quote :: (manifestKey ++ quote :: (gap ++ quote :: (value ++ quote :: rest)))) 2 curDepot out =
      readDepots rest 2 curDepot (((gidOf value).map (out.insert curDepot)).getD out) := by
  have hopen : quote ≠ lbrace := by decide
  have hclose : quote ≠ rbrace := by decide
  rw [readDepots, if_neg (Nat.succ_ne_zero 1), if_neg hopen, if_neg hclose, if_pos rfl,
    upTo_append quote_not_mem_manifestKey]
  dsimp only
  rw [if_neg (by decide), if_pos ⟨rfl, rfl, hcur⟩, upTo_append hgap]
  dsimp only
  rw [upTo_append hvalue]

theorem readDepots_unclosed (hfree : quote ∉ rest) : readDepots (quote :: rest) depth curDepot out = out := by
  have hopen : quote ≠ lbrace := by decide
  have hclose : quote ≠ rbrace := by decide
  rw [readDepots, if_neg hopen, if_neg hclose, if_pos rfl, upTo_eq_none hfree]
  exact ite_self out

/-- A number in decimal digits is read when it has no more bits. -/
theorem stoul_toDecimal (bits n : Nat) : stoul bits (toDecimal n) = if n < 2 ^ bits then some n else none := by
  have hall : ∀ c ∈ toDecimal n, isDigit c = true := List.all_eq_true.mp (toDecimal_all_isDigit n)
  have hzero : (toDecimal n).takeWhile (· != 0) = toDecimal n := by
    refine List.takeWhile_eq_self_iff.mpr fun c hc => ?_
    rw [bne_iff_ne]
    rintro rfl
    exact absurd (hall 0 hc) (by decide)
  have hdigits : (toDecimal n).takeWhile isDigit = toDecimal n := List.takeWhile_eq_self_iff.mpr hall
  obtain ⟨c, cs, hcons⟩ := List.exists_cons_of_ne_nil (toDecimal_ne_nil n)
  have hfront := digit_front (hall c (by rw [hcons]; exact List.mem_cons_self))
  have hspace : (toDecimal n).dropWhile isSpace = toDecimal n := by
    rw [hcons, List.dropWhile_cons, hfront.1, if_neg Bool.false_ne_true]
  have hhead : (toDecimal n).head? = some c := by rw [hcons, List.head?_cons]
  have hplus : ¬(some c = some 0x2b ∨ some c = some 0x2d) := by
    rintro (h | h)
    · exact hfront.2.1 (Option.some.inj h)
    · exact hfront.2.2 (Option.some.inj h)
  rw [stoul, hzero, hspace, hhead, if_neg hplus, hdigits, numberOf_toDecimal,
    if_neg fun h => hplus (.inr h)]
  split_ifs with hfail hlt hlt
  · exact absurd hfail (by simp [toDecimal_ne_nil, hlt])
  · rfl
  · rfl
  · exact absurd (Nat.le_of_not_lt hlt) fun hle => hfail (.inr hle)

end SlsteamMoon.InstalledDepots

/-! The appmanifest files, and the place where the reader enters them. -/
namespace SlsteamMoon.InstalledDepots
open KeyValues TextSearch ManifestPlan
open ProvisionCache (utf8 toDecimal)

/-- A depot with its fields, at most one of them its manifest. -/
structure Depot where
  id : Nat
  fields : List (Bytes × Bytes)
  manifest : Option Gid
  manifestFields : fields.filter (fun field => field.1 = manifestKey) =
    manifest.toList.map fun gid => (manifestKey, toDecimal gid.toNat)

def flat : List (Bytes × Bytes) → Pairs
  | [] => .nil
  | (key, value) :: rest => .leaf key value (flat rest)

def blockPairs : List Depot → Pairs
  | [] => .nil
  | depot :: rest => .node (toDecimal depot.id) (flat depot.fields) (blockPairs rest)

/-- The root and the pairs before the depots. -/
structure Front where
  root : Bytes
  before : Pairs
  once : installedKey ∉ before.keys

/-- A file with one object of depots at its top level. -/
structure AppManifest where
  front : Front
  depots : List Depot
  after : Pairs
  distinct : (depots.map Depot.id).Nodup
  once : installedKey ∉ after.keys

def AppManifest.tree (m : AppManifest) : Pairs :=
  .node m.front.root (m.front.before.append (.node installedKey (blockPairs m.depots) m.after)) .nil

def Front.tokens (front : Front) : List Tok := .string front.root :: .openBrace :: front.before.tokens

def AppManifest.behind (m : AppManifest) : List Tok := m.after.tokens ++ [.closeBrace]

/-- The tokens behind the first string that ends like the key. -/
def behindLike : List Tok → Option (List Tok)
  | [] => none
  | .string value :: rest => if EndsLike installedKey value then some rest else behindLike rest
  | _ :: rest => behindLike rest

/-- A brace stands between the first string that ends like the key and the depots. -/
def Misleads (front : Front) : Prop := ∃ rest, behindLike front.tokens = some rest ∧ rest.any opens = true

/-- The depot has an id and this manifest. -/
def Depot.Has (depot : Depot) (d : DepotId) (gid : Gid) : Prop :=
  depot.id = d.toNat ∧ d ≠ 0 ∧ depot.manifest = some gid

def AppManifest.Installs (m : AppManifest) (d : DepotId) (gid : Gid) : Prop := ∃ depot ∈ m.depots, depot.Has d gid

/-- What the reader is for. -/
structure ReadsExactly (m : AppManifest) (text : Bytes) : Prop where
  gids : ∀ d gid, (installedDepotGids (some text)).lookup d = some gid ↔ m.Installs d gid
  pinned : ∀ pins appId, appAtPinnedGids pins appId (some text) = true ↔
    (∃ d pin gid, (getAppPinnedDepots pins appId).lookup d = some pin ∧ m.Installs d gid) ∧
      ∀ d pin gid, (getAppPinnedDepots pins appId).lookup d = some pin → m.Installs d gid → gid = pin

/-- No quote in the fields, and none of their values reads like the key of a manifest where one is looked for. -/
structure Depot.Plain (depot : Depot) : Prop where
  free : ∀ field ∈ depot.fields, quote ∉ field.1 ∧ quote ∉ field.2
  values : depot.id ≠ 0 → depot.id < 2 ^ 32 → ∀ field ∈ depot.fields, field.2 ≠ manifestKey

variable {m : AppManifest} {toks rest : List Tok} {text more body value ws block : Bytes} {front : Front}

theorem AppManifest.tokens_tree : m.tree.tokens = m.front.tokens ++
    (.string installedKey :: .openBrace :: ((blockPairs m.depots).tokens ++ .closeBrace :: m.behind)) := by
  rw [tree, Pairs.tokens, Pairs.tokens_append, Pairs.tokens, Pairs.tokens, Front.tokens, behind, List.cons_append,
    List.cons_append, List.append_assoc, List.cons_append, List.cons_append, List.append_assoc, List.cons_append]

private theorem installedKey_keyWord : KeyWord installedKey := ⟨by decide +kernel, by decide +kernel⟩

theorem installedKey_plain : ∀ c ∈ installedKey, isControl c = false := installedKey_keyWord.plain

def installedWord : Bytes := quote :: (installedKey ++ [quote])

private theorem blockOf_eq (s : Bytes) :
    blockOf s = (findWord installedWord s).bind fun idStart => (upTo lbrace (s.drop idStart)).map Prod.snd := by
  rw [blockOf, installedWord]
  refine congrArg _ (funext fun idStart => ?_)
  cases upTo lbrace (s.drop idStart) <;> rfl

/-- A piece in which the word does not begin. -/
theorem blockOf_append (h : ∀ s, s ≠ [] → s <:+ text → ¬installedWord <+: s ++ more) :
    blockOf (text ++ more) = blockOf more := by
  rw [blockOf_eq, blockOf_eq, findWord_append h, Option.bind_map]
  refine congrArg _ (funext fun idStart => ?_)
  rw [Function.comp_apply, Nat.add_comm, List.drop_length_add_append]

private theorem blockOf_of_no_quote (h : quote ∉ text) : blockOf (text ++ more) = blockOf more := by
  refine blockOf_append fun s hne hs hbegins => ?_
  obtain ⟨c, s, rfl⟩ := List.exists_cons_of_ne_nil hne
  have hc := (List.cons_prefix_cons.mp hbegins).1
  exact h (hc ▸ hs.subset List.mem_cons_self)

/-- The reader passes over a string that does not end like the key. -/
theorem blockOf_string (h : Spells body value) (hmore : Bounded more) (hends : ¬EndsLike installedKey value) :
    blockOf (quote :: (body ++ quote :: more)) = blockOf more := by
  have hshape : quote :: (body ++ quote :: more) = quote :: (body ++ [quote]) ++ more := by
    rw [List.cons_append, List.append_assoc, List.singleton_append]
  rw [hshape]
  exact blockOf_append fun s hne hs => h.unseen installedKey_keyWord hmore hends hne hs

/-- A string that ends like the key is taken for it. -/
theorem blockOf_like (h : Spells body value) (hends : EndsLike installedKey value) :
    blockOf (quote :: (body ++ quote :: more)) = (upTo lbrace more).map Prod.snd := by
  obtain ⟨before, hbefore⟩ := h.exists_suffix_quoted installedKey_plain hends
  rw [← installedWord] at hbefore
  have hshape : quote :: (body ++ quote :: more) = before ++ (installedWord ++ more) := by
    rw [← List.append_assoc, hbefore, List.cons_append, List.append_assoc, List.singleton_append]
  have hword : installedWord ≠ [] := List.cons_ne_nil _ _
  have hfind : findWord installedWord (before ++ (installedWord ++ more)) = some before.length := by
    rw [findWord_append, findWord_eq_zero hword, Option.map_some, Nat.zero_add]
    intro s hne hs hbegins
    obtain ⟨front, rfl⟩ := hs
    rw [List.append_assoc] at hbefore
    rw [← List.append_assoc] at hbegins
    rcases h.suffix_quoted installedKey_plain (List.append_ne_nil_of_left_ne_nil hne _) ⟨front, hbefore⟩ hbegins with
      hone | ⟨hsame, -⟩
    · obtain ⟨c, s, rfl⟩ := List.exists_cons_of_ne_nil hne
      exact hword (List.append_eq_nil_iff.mp (List.cons.inj hone).2).2
    · exact hne (List.append_left_eq_self.mp hsame)
  have hfree : lbrace ∉ installedWord := by decide +kernel
  rw [hshape, blockOf_eq, hfind, Option.bind_some, List.drop_left, map_snd_upTo_append hfree]

private theorem blockOf_blank (hws : ws.all isBlank = true) : blockOf (ws ++ more) = blockOf more :=
  blockOf_of_no_quote (quote_not_mem_blank hws)

private theorem blockOf_cons {c : UInt8} (h : quote ≠ c) : blockOf (c :: more) = blockOf more :=
  @blockOf_of_no_quote [c] more fun hmem => h (List.mem_singleton.mp hmem)

/-- The first string that ends like the key decides from where on the brace is looked for. -/
theorem blockOf_printed (h : Printed toks text) :
    (behindLike toks = none ∧ ∀ more, Bounded more → blockOf (text ++ more) = blockOf more) ∨
      ∃ rest tail, behindLike toks = some rest ∧ Printed rest tail ∧
        ∀ more, Bounded more → blockOf (text ++ more) = (upTo lbrace (tail ++ more)).map Prod.snd := by
  have hbrace {c : UInt8} {ws text : Bytes} (hc : quote ≠ c) (hws : ws.all isBlank = true) (more : Bytes) :
      blockOf (ws ++ c :: text ++ more) = blockOf (text ++ more) := by
    rw [List.append_assoc, blockOf_blank hws, List.cons_append, blockOf_cons hc]
  induction h with
  | finished hblank => exact .inl ⟨rfl, fun more _ => blockOf_blank hblank⟩
  | @string ws body value text toks hblank spells printed ih =>
    have hshape (more : Bytes) : blockOf (ws ++ quote :: (body ++ quote :: text) ++ more) =
        blockOf (quote :: (body ++ quote :: (text ++ more))) := by
      rw [List.append_assoc, blockOf_blank hblank, List.cons_append, List.append_assoc, List.cons_append]
    rw [behindLike]
    split_ifs with hends
    · exact .inr ⟨toks, text, rfl, printed, fun more _ => by rw [hshape, blockOf_like spells hends]⟩
    · have hpass (more : Bytes) (hmore : Bounded more) :
          blockOf (ws ++ quote :: (body ++ quote :: text) ++ more) = blockOf (text ++ more) := by
        rw [hshape, blockOf_string spells (printed.bounded hmore) hends]
      rcases ih with ⟨hnone, hrest⟩ | ⟨rest, tail, hlike, htail, hrest⟩
      · exact .inl ⟨hnone, fun more hmore => (hpass more hmore).trans (hrest more hmore)⟩
      · exact .inr ⟨rest, tail, hlike, htail, fun more hmore => (hpass more hmore).trans (hrest more hmore)⟩
  | openBrace hblank _ ih =>
    rcases ih with ⟨hnone, hrest⟩ | ⟨rest, tail, hlike, htail, hrest⟩
    · exact .inl ⟨hnone, fun more hmore => (hbrace (by decide) hblank more).trans (hrest more hmore)⟩
    · exact .inr ⟨rest, tail, hlike, htail, fun more hmore => (hbrace (by decide) hblank more).trans (hrest more hmore)⟩
  | closeBrace hblank _ ih =>
    rcases ih with ⟨hnone, hrest⟩ | ⟨rest, tail, hlike, htail, hrest⟩
    · exact .inl ⟨hnone, fun more hmore => (hbrace (by decide) hblank more).trans (hrest more hmore)⟩
    · exact .inr ⟨rest, tail, hlike, htail, fun more hmore => (hbrace (by decide) hblank more).trans (hrest more hmore)⟩

/-- Where the front does not mislead, the reader begins behind the brace of the depots. -/
theorem blockOf_of_not_misleads (h : ¬Misleads front) (hfront : Printed front.tokens text)
    (hmore : Printed (.string installedKey :: .openBrace :: rest) more) :
    ∃ block, Printed rest block ∧ blockOf (text ++ more) = some block := by
  have hbounded := hmore.bounded_self
  cases hmore with
  | @string ws body _ inner _ hws spells printed =>
    cases printed with
    | @openBrace gap block _ hgap printed =>
      have hbrace : upTo lbrace (gap ++ lbrace :: block) = some (gap, block) := upTo_append (lbrace_not_mem_blank hgap) block
      refine ⟨block, printed, ?_⟩
      rcases blockOf_printed hfront with ⟨-, hnone⟩ | ⟨rest, tail, hlike, htail, hsome⟩
      · rw [hnone _ hbounded, blockOf_blank hws, blockOf_like spells (List.suffix_refl _), hbrace]
        rfl
      · have hopens : ¬rest.any opens = true := fun hopens => h ⟨rest, hlike, hopens⟩
        have hkey : lbrace ∉ quote :: (body ++ [quote]) := by
          rw [spells.eq_of_plain installedKey_plain]
          decide +kernel
        have hshape : quote :: (body ++ quote :: (gap ++ lbrace :: block)) =
            quote :: (body ++ [quote]) ++ (gap ++ lbrace :: block) := by
          rw [List.cons_append, List.append_assoc, List.singleton_append]
        rw [hsome _ hbounded, map_snd_upTo_append (mt htail.lbrace_mem_iff.mp hopens),
          map_snd_upTo_append (lbrace_not_mem_blank hws), hshape, map_snd_upTo_append hkey, hbrace]
        rfl

/-- Where it misleads, the reader begins in the front. -/
theorem blockOf_of_misleads (h : Misleads front) (hfront : Printed front.tokens text) :
    ∃ tail, ∀ more, Bounded more → blockOf (text ++ more) = some (tail ++ more) := by
  obtain ⟨rest, hlike, hopens⟩ := h
  rcases blockOf_printed hfront with ⟨hnone, -⟩ | ⟨rest', printed, hlike', hprinted, hsome⟩
  · exact nomatch hnone.symm.trans hlike
  · cases hlike'.symm.trans hlike
    obtain ⟨before, tail, rfl, hfree⟩ := List.eq_append_cons_of_mem (hprinted.lbrace_mem_iff.mpr hopens)
    refine ⟨tail, fun more hmore => ?_⟩
    rw [hsome more hmore, List.append_assoc, List.cons_append, upTo_append hfree]
    rfl

end SlsteamMoon.InstalledDepots
