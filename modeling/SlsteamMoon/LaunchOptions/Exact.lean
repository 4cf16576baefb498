import SlsteamMoon.KeyValues.Printed
import SlsteamMoon.LaunchOptions.Reader

/-! The launch options of a tree, and the files they are read from exactly. -/
namespace SlsteamMoon.LaunchOptions
open KeyValues TextSearch
open ProvisionCache (utf8 toDecimal keyWord_toDecimal)

/-- The contents of the objects with this key, in order. -/
def objects (key : Bytes) : Pairs → List Pairs
  | .nil => []
  | .leaf _ _ rest => objects key rest
  | .node key' children rest => if key' = key then children :: objects key rest else objects key rest

def strings (key : Bytes) : Pairs → List Bytes
  | .nil => []
  | .leaf key' value rest => if key' = key then value :: strings key rest else strings key rest
  | .node _ _ rest => strings key rest

/-- The contents of the objects at the path. -/
def under : List Bytes → Pairs → List Pairs
  | [], pairs => [pairs]
  | key :: path, pairs => (objects key pairs).flatMap (under path)

/-- The contents of the objects with this key at any depth. -/
def named (key : Bytes) : Pairs → List Pairs
  | .nil => []
  | .leaf _ _ rest => named key rest
  | .node key' children rest => (if key' = key then [children] else []) ++ (named key children ++ named key rest)

def appsPath : List Bytes := [utf8 "Software", utf8 "Valve", utf8 "Steam", utf8 "apps"]

def optionsName : Bytes := utf8 "LaunchOptions"

/-- What the reader is for. -/
def launchOptions (appId : UInt32) (config : Pairs) : Option Bytes := do
  let apps ← (under appsPath config).head?
  let app ← (objects (toDecimal appId.toNat) apps).head?
  (strings optionsName app).head?

def document (root : Bytes) (config : Pairs) : Pairs := .node root config .nil

/-- A tree but for one of its values. -/
structure Hole (key : Bytes) where
  tree : Bytes → Pairs
  before : List Tok
  behind : List Tok
  tokens_tree : ∀ v, (tree v).tokens = before ++ .string key :: .string v :: behind

namespace Hole

variable {key : Bytes}

def here (key : Bytes) (rest : Pairs) : Hole key where
  tree v := .leaf key v rest
  before := []
  behind := rest.tokens
  tokens_tree _ := rfl

def afterLeaf (key' value : Bytes) (hole : Hole key) : Hole key where
  tree v := .leaf key' value (hole.tree v)
  before := .string key' :: .string value :: hole.before
  behind := hole.behind
  tokens_tree v := by rw [Pairs.tokens, hole.tokens_tree]; rfl

def afterNode (key' : Bytes) (children : Pairs) (hole : Hole key) : Hole key where
  tree v := .node key' children (hole.tree v)
  before := .string key' :: .openBrace :: (children.tokens ++ .closeBrace :: hole.before)
  behind := hole.behind
  tokens_tree v := by
    rw [Pairs.tokens, hole.tokens_tree, List.cons_append, List.cons_append, List.append_assoc, List.cons_append]

def inside (key' : Bytes) (hole : Hole key) (rest : Pairs) : Hole key where
  tree v := .node key' (hole.tree v) rest
  before := .string key' :: .openBrace :: hole.before
  behind := hole.behind ++ .closeBrace :: rest.tokens
  tokens_tree v := by
    rw [Pairs.tokens, hole.tokens_tree, List.cons_append, List.cons_append, List.append_assoc, List.cons_append,
      List.cons_append]

private theorem tokens_document (hole : Hole key) (root value : Bytes) : (document root (hole.tree value)).tokens =
    .string root :: .openBrace :: (hole.before ++ [.string key]) ++ .string value :: (hole.behind ++ [.closeBrace]) := by
  rw [document, Pairs.tokens, hole.tokens_tree, Pairs.tokens]
  simp only [List.cons_append, List.append_assoc, List.nil_append]

end Hole

section
variable {key k v : Bytes} {pairs found : Pairs} {path : List Bytes}

private theorem exists_hole_strings (h : (strings key pairs).head? = some v) :
    ∃ hole : Hole key, hole.tree v = pairs ∧ ∀ w, (strings key (hole.tree w)).head? = some w := by
  induction pairs with
  | nil => cases h
  | leaf key' value rest ih =>
    rw [strings] at h
    split_ifs at h with hkey
    · obtain rfl := Option.some.inj h
      subst hkey
      exact ⟨.here key' rest, rfl, fun w => by rw [Hole.here, strings, if_pos rfl]; rfl⟩
    · obtain ⟨hole, hhole, hread⟩ := ih h
      exact ⟨hole.afterLeaf key' value, congrArg _ hhole, fun w => by
        rw [Hole.afterLeaf, strings, if_neg hkey]
        exact hread w⟩
  | node key' children rest _ ih =>
    obtain ⟨hole, hhole, hread⟩ := ih h
    exact ⟨hole.afterNode key' children, congrArg _ hhole, hread⟩

/-- A hole of the first object at a path is one of the tree. -/
theorem exists_hole_under (h : (under path pairs).head? = some found) (inner : Hole key) (hinner : inner.tree v = found) :
    ∃ hole : Hole key, hole.tree v = pairs ∧ ∀ w, (under path (hole.tree w)).head? = some (inner.tree w) := by
  induction path generalizing pairs with
  | nil =>
    obtain rfl := Option.some.inj h
    exact ⟨inner, hinner, fun _ => rfl⟩
  | cons k path ihPath =>
    induction pairs with
    | nil => cases h
    | leaf key' value rest ih =>
      obtain ⟨hole, hhole, hread⟩ := ih h
      exact ⟨hole.afterLeaf key' value, congrArg _ hhole, hread⟩
    | node key' children rest _ ih =>
      rw [under, objects] at h
      split_ifs at h with hkey
      · rw [List.flatMap_cons, List.head?_append] at h
        cases hchildren : (under path children).head? with
        | some first =>
          rw [hchildren, Option.some_or] at h
          obtain ⟨hole, hhole, hread⟩ := ihPath (hchildren.trans h)
          refine ⟨hole.inside key' rest, congrArg (Pairs.node key' · rest) hhole, fun w => ?_⟩
          rw [Hole.inside, under, objects, if_pos hkey, List.flatMap_cons, List.head?_append, hread, Option.some_or]
        | none =>
          rw [hchildren, Option.none_or] at h
          obtain ⟨hole, hhole, hread⟩ := ih h
          refine ⟨hole.afterNode key' children, congrArg _ hhole, fun w => ?_⟩
          rw [Hole.afterNode, under, objects, if_pos hkey, List.flatMap_cons, List.head?_append, hchildren, Option.none_or]
          exact hread w
      · obtain ⟨hole, hhole, hread⟩ := ih h
        refine ⟨hole.afterNode key' children, congrArg _ hhole, fun w => ?_⟩
        rw [Hole.afterNode, under, objects, if_neg hkey]
        exact hread w

private theorem under_singleton (k : Bytes) (pairs : Pairs) : under [k] pairs = objects k pairs :=
  List.flatMap_singleton' _

/-- The own launch options of an app can be taken out of the tree. -/
theorem exists_hole {appId : UInt32} {config : Pairs} (h : launchOptions appId config = some v) :
    ∃ hole : Hole optionsName, hole.tree v = config ∧ ∀ w, launchOptions appId (hole.tree w) = some w := by
  obtain ⟨apps, happs, h⟩ := Option.bind_eq_some_iff.mp h
  obtain ⟨app, happ, h⟩ := Option.bind_eq_some_iff.mp h
  rw [← under_singleton] at happ
  obtain ⟨inApp, hinApp, hoptions⟩ := exists_hole_strings h
  obtain ⟨inApps, hinApps, hid⟩ := exists_hole_under happ inApp hinApp
  obtain ⟨hole, hhole, hread⟩ := exists_hole_under happs inApps hinApps
  refine ⟨hole, hhole, fun w => ?_⟩
  rw [launchOptions, hread]
  show ((objects _ (inApps.tree w)).head?).bind _ = _
  rw [← under_singleton, hid]
  exact hoptions w

end

/-- A printed file without the value of the app's own launch options. -/
structure CutFile (appId : UInt32) where
  root : Bytes
  hole : Hole optionsName
  own : ∀ v, launchOptions appId (hole.tree v) = some v
  front : Bytes
  behind : Bytes
  front_printed : Printed (.string root :: .openBrace :: (hole.before ++ [.string optionsName])) front
  behind_printed : Printed (hole.behind ++ [.closeBrace]) behind

namespace CutFile

variable {appId : UInt32} {file : CutFile appId} {body value : Bytes}

/-- The file with this text of the value. -/
def text (file : CutFile appId) (body : Bytes) : Bytes := file.front ++ quote :: (body ++ quote :: file.behind)

theorem printed_text (spells : Spells body value) :
    Printed (document file.root (file.hole.tree value)).tokens (file.text body) := by
  rw [file.hole.tokens_document]
  exact file.front_printed.append (.quoted spells file.behind_printed)

end CutFile

/-- Every printed file of an app with launch options is one of these. -/
theorem exists_cutFile {appId : UInt32} {root value text : Bytes} {config : Pairs}
    (h : launchOptions appId config = some value) (hprinted : Printed (document root config).tokens text) :
    ∃ (file : CutFile appId) (body : Bytes), Spells body value ∧ file.root = root ∧ file.hole.tree value = config ∧
      file.text body = text := by
  obtain ⟨hole, rfl, hown⟩ := exists_hole h
  rw [hole.tokens_document] at hprinted
  obtain ⟨front, rest, rfl, hfront, hrest⟩ := hprinted.split
  cases hrest with
  | @string gap body _ behind _ hgap spells hbehind =>
    have hfront' := hfront.append (.finished hgap)
    rw [List.append_nil] at hfront'
    refine ⟨⟨root, hole, hown, front ++ gap, behind, hfront', hbehind⟩, body, spells, rfl, rfl, ?_⟩
    rw [CutFile.text, List.append_assoc]

/-- No letter stands behind a backslash that escapes it. -/
def unlettered : Bytes → Bool
  | [] => true
  | [_] => true
  | c :: e :: body => if c = backslash then (e == quote || e == backslash) && unlettered body else unlettered (e :: body)

section
variable {appId : UInt32} {file : CutFile appId} {body value front more text rest : Bytes} {c : UInt8}

private theorem readValue_plain (hquote : c ≠ quote) (hslash : c ≠ backslash) (text : Bytes) :
    readValue (c :: text) = c :: readValue text := by
  cases text with
  | nil => exact if_neg hquote
  | cons e text => rw [readValue, if_neg hslash, if_neg hquote]

private theorem readValue_quote (text : Bytes) : readValue (quote :: text) = [] := by
  cases text with
  | nil => rfl
  | cons e text => rw [readValue, if_neg (by decide), if_pos rfl]

private theorem unlettered_plain (hslash : c ≠ backslash) (body : Bytes) :
    unlettered (c :: body) = unlettered body := by
  cases body with
  | nil => rfl
  | cons e body => rw [unlettered, if_neg hslash]

/-- A value is read as it is but for its lettered escapes. -/
theorem readValue_eq_iff (spells : Spells body value) (more : Bytes) :
    readValue (body ++ quote :: more) = value ↔ unlettered body = true := by
  induction spells with
  | nil => exact iff_of_true (readValue_quote more) rfl
  | plain c hquote hslash _ ih =>
    rw [List.cons_append, readValue_plain hquote hslash, unlettered_plain hslash, List.cons_inj_right, ih]
  | escape e he _ ih =>
    rw [List.cons_append, List.cons_append, readValue, if_pos rfl, unlettered, if_pos rfl, List.cons_eq_cons, ih,
      Bool.and_eq_true, and_congr_left_iff]
    rintro -
    simp only [isEscaped, Bool.or_eq_true, beq_iff_eq] at he
    rcases he with (((rfl | rfl) | rfl) | rfl) | rfl <;> decide

private theorem length_readValue_le (text : Bytes) : (readValue text).length ≤ text.length := by
  induction text using readValue.induct with
  | case1 => exact le_rfl
  | case2 => exact Nat.zero_le _
  | case3 c hc => rw [readValue, if_neg hc]
  | case4 e text ih =>
    rw [readValue, if_pos rfl, List.length_cons, List.length_cons, List.length_cons]
    omega
  | case5 e text hslash => rw [readValue_quote]; exact Nat.zero_le _
  | case6 c e text hslash hquote ih =>
    rw [readValue_plain hquote hslash, List.length_cons, List.length_cons]
    omega

/-- A quote ends the value unless a backslash stands before it. -/
theorem length_readValue_append (hlast : ∀ c ∈ front.getLast?, c ≠ backslash) (more : Bytes) :
    (readValue (front ++ quote :: more)).length ≤ front.length := by
  have htail {e : UInt8} {front : Bytes} (h : ∀ c ∈ (e :: front).getLast?, c ≠ backslash) :
      ∀ c ∈ front.getLast?, c ≠ backslash := by
    intro c hc
    cases front with
    | nil => cases hc
    | cons d front => exact h c (by rwa [List.getLast?_cons_cons])
  induction front using readValue.induct with
  | case1 =>
    rw [List.nil_append, readValue_quote]
  | case2 =>
    rw [List.cons_append, readValue_quote]
    exact Nat.zero_le _
  | case3 c hquote =>
    rw [List.cons_append, readValue_plain hquote (hlast c rfl), List.nil_append, readValue_quote]
  | case4 e front ih =>
    have := ih (htail (htail hlast))
    rw [List.cons_append, List.cons_append, readValue, if_pos rfl, List.length_cons, List.length_cons, List.length_cons]
    omega
  | case5 e front hslash =>
    rw [List.cons_append, readValue_quote]
    exact Nat.zero_le _
  | case6 c e front hslash hquote ih =>
    have := ih (htail hlast)
    rw [List.cons_append, readValue_plain hquote hslash, List.length_cons, List.length_cons]
    omega

private theorem last_ne_backslash_cons (hc : c ≠ backslash) (hlast : ∀ d ∈ text.getLast?, d ≠ backslash)
    (front : Bytes) : ∀ d ∈ (front ++ c :: text).getLast?, d ≠ backslash := by
  intro d hd
  rw [List.getLast?_append_cons, List.getLast?_cons] at hd
  obtain rfl := Option.some.inj hd
  cases htext : text.getLast? with
  | none => exact hc
  | some d => exact hlast d htext

/-- No printed text ends with a backslash. -/
theorem last_ne_backslash {toks : List Tok} (h : Printed toks text) : ∀ d ∈ text.getLast?, d ≠ backslash := by
  induction h with
  | finished hblank =>
    rintro d hd rfl
    exact absurd (List.all_eq_true.mp hblank backslash (List.mem_of_getLast? hd)) (by decide)
  | @string ws body _ text _ _ _ _ ih =>
    have htext := last_ne_backslash_cons (c := quote) (by decide) ih body
    exact last_ne_backslash_cons (by decide) htext ws
  | @openBrace ws _ _ _ _ ih => exact last_ne_backslash_cons (by decide) ih ws
  | @closeBrace ws _ _ _ _ ih => exact last_ne_backslash_cons (by decide) ih ws

/-- Behind the first quote there is no more than behind a later one. -/
theorem length_le_of_append_cons (hbody : c ∉ body) (h : body ++ c :: more = front ++ c :: rest) :
    rest.length ≤ more.length := by
  obtain ⟨between, rfl, hrest⟩ | ⟨between, rfl, hrest⟩ := List.append_eq_append_iff.mp h
  · have := congrArg List.length hrest
    rw [List.length_cons, List.length_append, List.length_cons] at this
    omega
  · cases between with
    | nil => rw [(List.cons.inj hrest).2]
    | cons d between =>
      obtain rfl := (List.cons.inj hrest).1
      exact absurd (List.mem_append_right front List.mem_cons_self) hbody

/-- The reader gets a long value only at its own place. -/
theorem CutFile.reaches_of_read (hbody : quote ∉ body) (hlong : file.front.length + file.behind.length < value.length)
    (h : parseAppLaunchOptions (file.text body) appId = value) : Reaches appId file.front := by
  rw [parseAppLaunchOptions] at h
  cases hfound : valueText (file.text body) appId with
  | none =>
    rw [hfound] at h
    rw [← h] at hlong
    exact absurd hlong (Nat.not_lt_zero _)
  | some rest =>
    rw [hfound] at h
    have hsame : value.length = (readValue rest).length := congrArg List.length h.symm
    obtain ⟨front, htext, hreaches⟩ := valueText_eq_some_iff.mp hfound
    obtain ⟨more, hfront, hmore⟩ | ⟨more, hfront, hmore⟩ := List.append_eq_append_iff.mp htext
    · cases more with
      | nil => rwa [hfront, List.append_nil] at hreaches
      | cons c more =>
        -- a quote behind the one that opens the value is one behind the value
        have hlater := length_le_of_append_cons hbody (List.cons.inj hmore).2
        have hread := length_readValue_le rest
        omega
    · cases more with
      | nil => rwa [hfront, List.append_nil]
      | cons c more =>
        -- what begins at a quote of the front ends at the quote behind it
        have hlast : ∀ d ∈ more.getLast?, d ≠ backslash := by
          intro d hd
          refine last_ne_backslash file.front_printed d ?_
          rw [hfront, List.getLast?_append_cons, List.getLast?_cons, Option.mem_def.mp hd]
          rfl
        have hrest : rest = more ++ quote :: (body ++ quote :: file.behind) := (List.cons.inj hmore).2
        have hread := length_readValue_append hlast (body ++ quote :: file.behind)
        rw [← hrest] at hread
        have hlength := congrArg List.length hfront
        rw [List.length_append, List.length_cons] at hlength
        omega

/-- Behind a front that the reader gets over, the value is read as it is but for its lettered
escapes. -/
theorem CutFile.read_iff (hreaches : Reaches appId file.front) (spells : Spells body value) :
    parseAppLaunchOptions (file.text body) appId = value ↔ unlettered body = true := by
  have hfound : valueText (file.text body) appId = some (body ++ quote :: file.behind) :=
    valueText_eq_some_iff.mpr ⟨file.front, rfl, hreaches⟩
  rw [parseAppLaunchOptions, hfound, Option.elim_some, readValue_eq_iff spells]

private theorem spells_replicate (n : Nat) : Spells (List.replicate n 0x78) (List.replicate n 0x78) := by
  induction n with
  | zero => exact .nil
  | succ n ih => exact .plain 0x78 (by decide) (by decide) ih

private theorem unlettered_replicate (n : Nat) : unlettered (List.replicate n 0x78) = true := by
  induction n with
  | zero => rfl
  | succ n ih => rw [List.replicate_succ, unlettered_plain (by decide), ih]

private theorem readValue_eq_nil_iff : readValue text = [] ↔ ∀ c ∈ text.head?, c = quote := by
  cases text with
  | nil => exact iff_of_true rfl (fun c hc => by cases hc)
  | cons c text =>
    have hhead : (∀ d ∈ (c :: text).head?, d = quote) ↔ c = quote :=
      ⟨fun h => h c rfl, fun hc d hd => (Option.some.inj hd).symm.trans hc⟩
    rw [hhead]
    refine ⟨fun h => ?_, fun hquote => hquote ▸ readValue_quote text⟩
    by_contra hquote
    by_cases hslash : c = backslash
    · subst hslash
      cases text with
      | nil => cases h
      | cons e text =>
        rw [readValue, if_pos rfl] at h
        cases h
    · rw [readValue_plain hquote hslash] at h
      cases h

/-- Nothing is read just when a quote or the end of the text follows wherever the reader takes a
quote for the one that opens the value. -/
theorem parse_eq_nil_iff : parseAppLaunchOptions text appId = [] ↔
    ∀ front rest, text = front ++ quote :: rest → Reaches appId front → ∀ c ∈ rest.head?, c = quote := by
  rw [parseAppLaunchOptions]
  cases hfound : valueText text appId with
  | none =>
    refine iff_of_true rfl fun front rest htext hreaches => ?_
    cases hfound.symm.trans (valueText_eq_some_iff.mpr ⟨front, htext, hreaches⟩)
  | some value =>
    rw [Option.elim_some, readValue_eq_nil_iff]
    constructor
    · intro h front rest htext hreaches
      obtain rfl := Option.some.inj (hfound.symm.trans (valueText_eq_some_iff.mpr ⟨front, htext, hreaches⟩))
      exact h
    · intro h
      obtain ⟨front, htext, hreaches⟩ := valueText_eq_some_iff.mp hfound
      exact h front value htext hreaches

end

/-- The strings of the pairs, keys and values. -/
def texts : Pairs → List Bytes
  | .nil => []
  | .leaf key value rest => key :: value :: texts rest
  | .node key children rest => key :: (texts children ++ texts rest)

/-- Those that a walk could take for its word. -/
def exposed (direct : Bool) (depth : Nat) : Pairs → List Bytes
  | .nil => []
  | .leaf key value rest => (if direct = true → depth = 1 then [key, value] else []) ++ exposed direct depth rest
  | .node key children rest => (if direct = true → depth = 1 then [key] else []) ++
      (exposed direct (depth + 1) children ++ exposed direct depth rest)

/-- What stands before the value in a file that the reader gets right: no braces in the strings
that it walks over, and none of them like the word that it looks for. -/
structure PlainFront (appId : UInt32) where
  outer : List Tok
  siblings : Pairs
  fields : Pairs
  outer_free : ∀ v, .string v ∈ outer → ¬EndsLike (utf8 "apps") v
  unbraced : ∀ v ∈ texts siblings ++ texts fields, lbrace ∉ v ∧ rbrace ∉ v
  siblings_free : ∀ v ∈ exposed true 1 siblings, ¬EndsLike (toDecimal appId.toNat) v
  fields_free : ∀ v ∈ exposed false 1 fields, ¬EndsLike optionsName v

def PlainFront.tokens {appId : UInt32} (plain : PlainFront appId) : List Tok :=
  plain.outer ++ .string (utf8 "apps") :: .openBrace :: (plain.siblings.tokens ++
    .string (toDecimal appId.toNat) :: .openBrace :: (plain.fields.tokens ++ [.string optionsName]))

section
variable {key body value ws text more after : Bytes} {direct : Bool} {depth : Nat} {pairs : Pairs} {toks rest : List Tok}

private theorem walk_blank (hws : ws.all isBlank = true) :
    walk (quote :: key) direct depth (ws ++ more) = walk (quote :: key) direct depth more := by
  have hrbrace : rbrace ∉ ws := fun hmem => absurd (List.all_eq_true.mp hws rbrace hmem) (by decide)
  refine walk_append ⟨lbrace_not_mem_blank hws, hrbrace⟩ fun _ s hne hs hbegins => ?_
  obtain ⟨c, s, rfl⟩ := List.exists_cons_of_ne_nil hne
  obtain rfl := (List.cons_prefix_cons.mp hbegins).1
  exact quote_not_mem_blank hws (hs.subset List.mem_cons_self)

private theorem quoted_append (body more : Bytes) :
    quote :: (body ++ quote :: more) = quote :: (body ++ [quote]) ++ more := by
  rw [List.cons_append, List.append_assoc, List.singleton_append]

theorem walk_string (spells : Spells body value) (hkey : KeyWord key) (hmore : Bounded more)
    (hbraces : lbrace ∉ value ∧ rbrace ∉ value) (hends : (direct = true → depth = 1) → ¬EndsLike key value) :
    walk (quote :: (key ++ [quote])) direct depth (quote :: (body ++ quote :: more)) =
      walk (quote :: (key ++ [quote])) direct depth more := by
  have hfree {c : UInt8} (hc : c = lbrace ∨ c = rbrace) (hvalue : c ∉ value) : c ∉ quote :: (body ++ [quote]) := by
    have hquote : c ≠ quote := by rcases hc with rfl | rfl <;> decide
    simpa [hquote, spells.brace_mem_iff hc] using hvalue
  rw [quoted_append body more]
  exact walk_append ⟨hfree (.inl rfl) hbraces.1, hfree (.inr rfl) hbraces.2⟩ fun htakes _ hne hs =>
    spells.unseen hkey hmore (hends htakes) hne hs

/-- A walk goes over whole pairs. -/
theorem walk_pairs (h : Printed (pairs.tokens ++ rest) text) (hkey : KeyWord key) (hafter : Bounded after)
    (hdepth : 0 < depth) (hbraces : ∀ v ∈ texts pairs, lbrace ∉ v ∧ rbrace ∉ v)
    (hends : ∀ v ∈ exposed direct depth pairs, ¬EndsLike key v) :
    ∃ more, Printed rest more ∧ walk (quote :: (key ++ [quote])) direct depth (text ++ after) =
      walk (quote :: (key ++ [quote])) direct depth (more ++ after) := by
  induction pairs generalizing text rest depth with
  | nil => exact ⟨text, h, rfl⟩
  | leaf k v pairs ih =>
    simp only [texts, List.forall_mem_cons] at hbraces
    simp only [exposed, List.forall_mem_append] at hends
    have hstrings (htakes : direct = true → depth = 1) : ¬EndsLike key k ∧ ¬EndsLike key v := by
      have hboth := hends.1
      rw [if_pos htakes, List.forall_mem_cons, List.forall_mem_singleton] at hboth
      exact hboth
    cases h with
    | string hws hbody h =>
      cases h with
      | string hgap hbody' h =>
        obtain ⟨more, hmore, hread⟩ := ih h hdepth hbraces.2.2 hends.2
        refine ⟨more, hmore, ?_⟩
        simp only [List.append_assoc, List.cons_append]
        rw [walk_blank hws, walk_string hbody hkey (bounded_of_blank hgap (bounded_cons rfl)) hbraces.1
            fun htakes => (hstrings htakes).1, walk_blank hgap,
          walk_string hbody' hkey (h.bounded hafter) hbraces.2.1 fun htakes => (hstrings htakes).2, hread]
  | node k children pairs ihChildren ih =>
    simp only [texts, List.forall_mem_cons, List.forall_mem_append] at hbraces
    simp only [exposed, List.forall_mem_append] at hends
    have hstring (htakes : direct = true → depth = 1) : ¬EndsLike key k := by
      have hone := hends.1
      rwa [if_pos htakes, List.forall_mem_singleton] at hone
    rw [Pairs.tokens, List.cons_append, List.cons_append, List.append_assoc, List.cons_append] at h
    cases h with
    | string hws hbody h =>
      cases h with
      | openBrace hgap h =>
        obtain ⟨inner, hinner, hwalk⟩ := ihChildren h (Nat.succ_pos depth) hbraces.2.1 hends.2.1
        cases hinner with
        | closeBrace hlast h =>
          obtain ⟨more, hmore, hread⟩ := ih h hdepth hbraces.2.2 hends.2.2
          refine ⟨more, hmore, ?_⟩
          simp only [List.append_assoc, List.cons_append] at hwalk ⊢
          rw [walk_blank hws, walk_string hbody hkey (bounded_of_blank hgap (bounded_cons rfl)) hbraces.1 hstring,
            walk_blank hgap, walk_openBrace, hwalk, walk_blank hlast, walk_closeBrace,
            if_neg (Nat.pos_iff_ne_zero.mp hdepth), hread]

/-- Behind tokens without a string that ends like it, a quoted word is looked for in what follows. -/
theorem behind_printed (h : Printed toks text) (hkey : KeyWord key) (hmore : Bounded more)
    (hends : ∀ v, .string v ∈ toks → ¬EndsLike key v) :
    behind (quote :: (key ++ [quote])) (text ++ more) = behind (quote :: (key ++ [quote])) more := by
  have hfree {piece : Bytes} (hpiece : quote ∉ piece) (more : Bytes) :
      behind (quote :: (key ++ [quote])) (piece ++ more) = behind (quote :: (key ++ [quote])) more := by
    refine behind_piece fun s hne hs hbegins => ?_
    obtain ⟨c, s, rfl⟩ := List.exists_cons_of_ne_nil hne
    obtain rfl := (List.cons_prefix_cons.mp hbegins).1
    exact hpiece (hs.subset List.mem_cons_self)
  have hbrace {c : UInt8} (hc : quote ≠ c) (more : Bytes) :
      behind (quote :: (key ++ [quote])) (c :: more) = behind (quote :: (key ++ [quote])) more :=
    @hfree [c] (fun hmem => hc (List.mem_singleton.mp hmem)) more
  induction h with
  | finished hblank => exact hfree (quote_not_mem_blank hblank) more
  | @string ws body value text toks hblank spells printed ih =>
    have hrest := ih fun v hv => hends v (List.mem_cons_of_mem _ hv)
    have hvalue := hends value List.mem_cons_self
    rw [List.append_assoc, hfree (quote_not_mem_blank hblank), quoted_append body text, List.append_assoc,
      behind_piece fun s hne hs => spells.unseen hkey (printed.bounded hmore) hvalue hne hs, hrest]
  | openBrace hblank _ ih =>
    rw [List.append_assoc, hfree (quote_not_mem_blank hblank), List.cons_append, hbrace (by decide),
      ih fun v hv => hends v (List.mem_cons_of_mem _ hv)]
  | closeBrace hblank _ ih =>
    rw [List.append_assoc, hfree (quote_not_mem_blank hblank), List.cons_append, hbrace (by decide),
      ih fun v hv => hends v (List.mem_cons_of_mem _ hv)]

private theorem keyWord_apps : KeyWord (utf8 "apps") := ⟨by decide +kernel, by decide +kernel⟩

private theorem keyWord_optionsName : KeyWord optionsName := ⟨by decide +kernel, by decide +kernel⟩

/-- The text of a key with an object. -/
theorem exists_object (h : Printed (.string key :: .openBrace :: rest) text) (hkey : KeyWord key) :
    ∃ ws gap block, text = ws ++ (quote :: (key ++ [quote]) ++ (gap ++ lbrace :: block)) ∧ ws.all isBlank = true ∧
      gap.all isBlank = true ∧ Printed rest block := by
  cases h with
  | @string ws body _ _ _ hws spells h =>
    cases h with
    | @openBrace gap block _ hgap h =>
      obtain rfl := spells.eq_of_plain hkey.plain
      exact ⟨ws, gap, block, congrArg (ws ++ ·) (quoted_append body _), hws, hgap, h⟩

private theorem exists_last (h : Printed [.string key] text) (hkey : KeyWord key) :
    ∃ ws gap, text = ws ++ (quote :: (key ++ [quote]) ++ gap) ∧ ws.all isBlank = true ∧ gap.all isBlank = true := by
  cases h with
  | @string ws body _ gap _ hws spells h =>
    cases h with
    | finished hgap =>
      obtain rfl := spells.eq_of_plain hkey.plain
      exact ⟨ws, gap, congrArg (ws ++ ·) (quoted_append body _), hws, hgap⟩

private theorem walk_word (htakes : direct = true → depth = 1) (hdepth : 0 < depth) (hws : ws.all isBlank = true) :
    walk (quote :: key) direct depth (ws ++ (quote :: key ++ more)) = some more := by
  rw [walk_blank hws, walk_eq_some_iff hdepth]
  exact ⟨[], rfl, finds_nil.mpr ⟨hdepth, htakes⟩⟩

/-- Such a front leads the reader to the value. -/
theorem reaches_of_plain {appId : UInt32} (plain : PlainFront appId) (h : Printed plain.tokens text) :
    Reaches appId text := by
  have hid := keyWord_toDecimal appId.toNat
  have hafter : Bounded [quote] := bounded_cons rfl
  have hshape (front word rest : Bytes) : front ++ (word ++ rest) ++ [quote] = front ++ (word ++ (rest ++ [quote])) := by
    simp only [List.append_assoc]
  have hbrace (gap block : Bytes) : gap ++ lbrace :: block ++ [quote] = gap ++ lbrace :: (block ++ [quote]) := by
    rw [List.append_assoc, List.cons_append]
  obtain ⟨hsiblings, hfields⟩ := List.forall_mem_append.mp plain.unbraced
  obtain ⟨outer, apps, rfl, houter, happs⟩ := h.split
  have hskip := behind_printed houter keyWord_apps (happs.bounded hafter) plain.outer_free
  obtain ⟨ws, gap, block, rfl, hws, hgap, hblock⟩ := exists_object happs keyWord_apps
  obtain ⟨inApps, hinApps, hwalk⟩ :=
    @walk_pairs _ _ _ true 1 _ _ hblock hid hafter Nat.one_pos hsiblings plain.siblings_free
  obtain ⟨ws', gap', block', rfl, hws', hgap', hblock'⟩ := exists_object hinApps hid
  obtain ⟨inApp, hinApp, hwalk'⟩ :=
    @walk_pairs _ _ _ false 1 _ _ hblock' keyWord_optionsName hafter Nat.one_pos hfields plain.fields_free
  obtain ⟨ws'', gap'', rfl, hws'', hgap''⟩ := exists_last hinApp keyWord_optionsName
  rw [hshape, walk_word (fun _ => rfl) Nat.one_pos hws', hbrace] at hwalk
  rw [hshape, walk_word (fun _ => rfl) Nat.one_pos hws''] at hwalk'
  have hquote (word rest : Bytes) : Bounded (quote :: word ++ rest) := bounded_cons rfl
  rw [hshape, behind_printed (.finished hws) keyWord_apps (hquote _ _) (fun _ hv => by cases hv),
    behind_append (List.cons_ne_nil _ _), hbrace, ← appsKey_eq] at hskip
  have hfound : valueText (outer ++ (ws ++ (quote :: (utf8 "apps" ++ [quote]) ++ (gap ++ lbrace :: block))) ++ [quote])
      appId = some [] := by
    rw [List.append_assoc, hshape, hbrace, ← appsKey_eq]
    exact valueText_eq_some hskip (lbrace_not_mem_blank hgap) hwalk (lbrace_not_mem_blank hgap')
      (loKey_eq ▸ hwalk') (quote_not_mem_blank hgap'')
  obtain ⟨front, htext, hreaches⟩ := valueText_eq_some_iff.mp hfound
  rwa [← List.append_cancel_right htext] at hreaches

/-- In a file with such a front the reader finds the value. -/
theorem CutFile.read_of_plain {appId : UInt32} (file : CutFile appId) (plain : PlainFront appId)
    (hfront : Printed plain.tokens file.front) (spells : Spells body value) :
    parseAppLaunchOptions (file.text body) appId = value ↔ unlettered body = true :=
  file.read_iff (reaches_of_plain plain hfront) spells

end

/-- Whatever the app's own launch options are, the reader returns them, but for lettered escapes,
just when the front of the file leads it to them; and where an app has none, it returns the empty
string just when its way ends at an empty string, or nowhere. -/
theorem own_launch_options_read_iff (appId : UInt32) :
    (∀ file : CutFile appId, (∀ value body, Spells body value →
      (parseAppLaunchOptions (file.text body) appId = value ↔ unlettered body = true)) ↔ Reaches appId file.front) ∧
    ∀ root config text, launchOptions appId config = none → Printed (document root config).tokens text →
      (parseAppLaunchOptions text appId = [] ↔
        ∀ front rest, text = front ++ quote :: rest → Reaches appId front → ∀ c ∈ rest.head?, c = quote) := by
  refine ⟨fun file => ⟨fun hall => ?_, fun hreaches value body spells => file.read_iff hreaches spells⟩, ?_⟩
  · let n := file.front.length + file.behind.length + 1
    have hread := (hall _ _ (spells_replicate n)).mpr (unlettered_replicate n)
    refine file.reaches_of_read (fun hmem => ?_) ?_ hread
    · exact absurd (List.eq_of_mem_replicate hmem) (by decide)
    · rw [List.length_replicate]
      exact Nat.lt_succ_self _
  · intro root config text _ _
    exact parse_eq_nil_iff

/-- One app, with a closing brace for its name. -/
def bracedApps : Pairs :=
  let app : Pairs := .leaf (utf8 "name") (utf8 "\x7d") (.leaf optionsName (utf8 "--steamless") .nil)
  .node (toDecimal 7) app .nil

def bracedConfig : Pairs := appsPath.foldr (fun key children => .node key children .nil) bracedApps

/-- A brace in a string ends the block for the reader. -/
theorem braced_string_hides_options : ¬∀ (appId : UInt32) (root : Bytes) (config apps : Pairs) (text : Bytes),
    named (utf8 "apps") (document root config) = [apps] → under appsPath config = [apps] →
    Printed (document root config).tokens text →
      parseAppLaunchOptions text appId = (launchOptions appId config).getD [] := by
  intro hclaim
  let tree := document (utf8 "UserLocalConfigStore") bracedConfig
  have honly : named (utf8 "apps") tree = [bracedApps] ∧ under appsPath bracedConfig = [bracedApps] := by
    decide +kernel
  have hread := hclaim 7 _ bracedConfig bracedApps _ honly.1 honly.2 (printed_compact tree.finished_not_mem_tokens)
  have hlost : parseAppLaunchOptions (compact tree.tokens) 7 = [] ∧
      launchOptions 7 bracedConfig = some (utf8 "--steamless") := by decide +kernel
  rw [hlost.1, hlost.2] at hread
  exact absurd hread (by decide +kernel)

end SlsteamMoon.LaunchOptions
