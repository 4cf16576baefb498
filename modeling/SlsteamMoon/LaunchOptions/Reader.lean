import SlsteamMoon.ProvisionCache.CmVdf
import SlsteamMoon.TextSearch

/-! The reader of an app's launch options in a localconfig.vdf, and the place where it begins
the value. -/
namespace SlsteamMoon.LaunchOptions
open KeyValues TextSearch
open ProvisionCache (utf8 toDecimal)

def appsKey : Bytes := utf8 "\"apps\""

def loKey : Bytes := utf8 "\"LaunchOptions\""

def needle (appId : UInt32) : Bytes := quote :: (toDecimal appId.toNat ++ [quote])

/-- The walk over a block, from behind its brace, up to a word; `direct` is for the walk that
takes the word at depth 1 only. -/
def walk (word : Bytes) (direct : Bool) : Nat → Bytes → Option Bytes
  | _, [] => none
  | depth, c :: text =>
    if c = lbrace then walk word direct (depth + 1) text
    else if c = rbrace then
      -- the end of the block, or of what the walk takes for it
      if depth - 1 = 0 then none else walk word direct (depth - 1) text
    else if c = quote ∧ (direct = true → depth = 1) ∧ word <+: c :: text then some ((c :: text).drop word.length)
    else walk word direct depth text

/-- The value from behind its quote on. A backslash goes, and what stands behind it stays. -/
def readValue : Bytes → Bytes
  | [] => []
  | [c] => if c = quote then [] else [c]
  | c :: e :: text =>
    if c = backslash then e :: readValue text else if c = quote then [] else c :: readValue (e :: text)

/-- The text behind the quote that opens the value. -/
def valueText (vdf : Bytes) (appId : UInt32) : Option Bytes := do
  let behindApps ← behind appsKey vdf
  let (_, apps) ← upTo lbrace behindApps
  let behindId ← walk (needle appId) true 1 apps
  let (_, app) ← upTo lbrace behindId
  let behindKey ← walk loKey false 1 app
  let (_, value) ← upTo quote behindKey
  return value

def parseAppLaunchOptions (vdf : Bytes) (appId : UInt32) : Bytes := (valueText vdf appId).elim [] readValue

/-- A walk that starts at this depth goes over the piece, braces in strings and all, and the
word behind the piece is the first that it takes. -/
structure Finds (word : Bytes) (direct : Bool) (depth : Nat) (piece : Bytes) : Prop where
  inside : ∀ q, q <+: piece → q.count rbrace < depth + q.count lbrace
  here : direct = true → piece.count rbrace + 1 = depth + piece.count lbrace
  first : ∀ q s, piece = q ++ s → s ≠ [] → (direct = true → q.count rbrace + 1 = depth + q.count lbrace) →
    ¬word <+: s ++ word

/-- The reader takes the next quote behind this text for the one that opens the value. -/
def Reaches (appId : UInt32) (text : Bytes) : Prop :=
  ∃ before gap block gap' block' gap'',
    text = before ++ (appsKey ++ (gap ++ lbrace ::
      (block ++ (needle appId ++ (gap' ++ lbrace :: (block' ++ (loKey ++ gap''))))))) ∧
    ¬appsKey <:+: before ++ appsKey.dropLast ∧ lbrace ∉ gap ∧ Finds (needle appId) true 1 block ∧
    lbrace ∉ gap' ∧ Finds loKey false 1 block' ∧ quote ∉ gap''

section
variable {word tail piece text rest : Bytes} {direct : Bool} {depth depth' : Nat} {c : UInt8} {appId : UInt32}

theorem finds_nil : Finds word direct depth [] ↔ 0 < depth ∧ (direct = true → depth = 1) := by
  constructor
  · intro h
    exact ⟨h.inside [] (List.prefix_refl _), fun hdirect => (h.here hdirect).symm⟩
  · rintro ⟨hdepth, hhere⟩
    refine ⟨fun q hq => ?_, fun hdirect => (hhere hdirect).symm, fun q s hqs hs => ?_⟩
    · rw [List.prefix_nil.mp hq]
      exact hdepth
    · exact absurd (List.append_eq_nil_iff.mp hqs.symm).2 hs

/-- One byte more in front of a walk. -/
theorem finds_cons (hdepth : depth' + (if c = rbrace then 1 else 0) = depth + if c = lbrace then 1 else 0) :
    Finds word direct depth (c :: piece) ↔
      0 < depth ∧ ((direct = true → depth = 1) → ¬word <+: c :: (piece ++ word)) ∧ Finds word direct depth' piece := by
  have hcount (q : Bytes) : (c :: q).count rbrace = q.count rbrace + (if c = rbrace then 1 else 0) ∧
      (c :: q).count lbrace = q.count lbrace + if c = lbrace then 1 else 0 := by
    simp only [List.count_cons, beq_iff_eq, and_self]
  constructor
  · intro h
    refine ⟨h.inside [] List.nil_prefix, fun hhere => ?_, ⟨fun q hq => ?_, fun hdirect => ?_, fun q s hqs hs hhere => ?_⟩⟩
    · exact h.first [] (c :: piece) rfl (List.cons_ne_nil c piece) fun hdirect => (hhere hdirect).symm
    · have := h.inside (c :: q) (List.cons_prefix_cons.mpr ⟨rfl, hq⟩)
      have := hcount q
      omega
    · have := h.here hdirect
      have := hcount piece
      omega
    · refine h.first (c :: q) s (congrArg (c :: ·) hqs) hs fun hdirect => ?_
      have := hhere hdirect
      have := hcount q
      omega
  · rintro ⟨hpos, hno, h⟩
    refine ⟨fun q hq => ?_, fun hdirect => ?_, fun q s hqs hs hhere => ?_⟩
    · cases q with
      | nil => exact hpos
      | cons d q =>
        obtain ⟨rfl, htail⟩ := List.cons_prefix_cons.mp hq
        have := h.inside q htail
        have := hcount q
        omega
    · have := h.here hdirect
      have := hcount piece
      omega
    · cases q with
      | nil =>
        rw [List.nil_append] at hqs
        rw [← hqs]
        exact hno fun hdirect => (hhere hdirect).symm
      | cons d q =>
        obtain ⟨rfl, htail⟩ := List.cons.inj hqs
        refine h.first q s htail hs fun hdirect => ?_
        have := hhere hdirect
        have := hcount q
        omega

/-- The piece before the word is empty or goes on behind its first byte. -/
theorem exists_finds_cons (hdepth : 0 < depth) :
    (∃ piece, c :: text = piece ++ (word ++ rest) ∧ Finds word direct depth piece) ↔
      c :: text = word ++ rest ∧ (direct = true → depth = 1) ∨
        ∃ piece, text = piece ++ (word ++ rest) ∧ Finds word direct depth (c :: piece) := by
  constructor
  · rintro ⟨piece, htext, hfinds⟩
    cases piece with
    | nil => exact .inl ⟨htext, (finds_nil.mp hfinds).2⟩
    | cons d piece =>
      obtain ⟨rfl, htail⟩ := List.cons.inj htext
      exact .inr ⟨piece, htail, hfinds⟩
  · rintro (⟨htext, hhere⟩ | ⟨piece, rfl, hfinds⟩)
    · exact ⟨[], htext, finds_nil.mpr ⟨hdepth, hhere⟩⟩
    · exact ⟨c :: piece, rfl, hfinds⟩

/-- What begins before a word is no longer than up to its end. -/
theorem begins_iff (htext : text = piece ++ (word ++ rest)) : word <+: c :: text ↔ word <+: c :: (piece ++ word) := by
  have hlonger : c :: text = c :: (piece ++ word) ++ rest := by
    rw [htext, ← List.append_assoc]
    rfl
  rw [hlonger]
  refine ⟨fun h => List.prefix_of_prefix_length_le h (List.prefix_append _ rest) ?_,
    fun h => h.trans (List.prefix_append _ rest)⟩
  rw [List.length_cons, List.length_append]
  omega

/-- Where a walk ends. -/
theorem walk_eq_some_iff (hdepth : 0 < depth) : walk (quote :: tail) direct depth text = some rest ↔
    ∃ piece, text = piece ++ (quote :: tail ++ rest) ∧ Finds (quote :: tail) direct depth piece := by
  induction text generalizing depth with
  | nil =>
    refine iff_of_false (fun h => by cases h) ?_
    rintro ⟨piece, htext, -⟩
    exact absurd (List.append_eq_nil_iff.mp htext.symm).2 (List.cons_ne_nil _ _)
  | cons c text ih =>
    have hbrace (hc : c ≠ quote) : ¬(c :: text = quote :: tail ++ rest ∧ (direct = true → depth = 1)) ∧
        ∀ piece, ¬quote :: tail <+: c :: (piece ++ quote :: tail) := by
      refine ⟨fun h => hc (List.cons.inj h.1).1, fun piece h => hc ?_⟩
      exact (List.cons_prefix_cons.mp h).1.symm
    rw [exists_finds_cons hdepth, walk]
    split_ifs with hopen hclose hend hfound
    · obtain ⟨hno, hnot⟩ := hbrace (by rw [hopen]; decide)
      rw [or_iff_right hno, ih (Nat.succ_pos depth)]
      refine exists_congr fun piece => and_congr_right fun _ => ?_
      rw [@finds_cons _ _ _ _ (depth + 1) _ (by rw [if_pos hopen, hopen, if_neg (by decide)]),
        and_iff_right hdepth, and_iff_right fun _ => hnot piece]
    · -- a block that is closed here has no word behind
      obtain ⟨hno, -⟩ := hbrace (by rw [hclose]; decide)
      rw [or_iff_right hno]
      refine iff_of_false (fun h => by cases h) ?_
      rintro ⟨piece, -, hfinds⟩
      have := hfinds.inside [c] (List.prefix_append [c] piece)
      rw [hclose] at this
      have hclosed : [rbrace].count rbrace = 1 ∧ [rbrace].count lbrace = 0 := by decide
      omega
    · obtain ⟨hno, hnot⟩ := hbrace (by rw [hclose]; decide)
      rw [or_iff_right hno, ih (Nat.pos_of_ne_zero hend)]
      refine exists_congr fun piece => and_congr_right fun _ => ?_
      rw [@finds_cons _ _ _ _ (depth - 1) _ (by rw [if_pos hclose, if_neg hopen]; omega),
        and_iff_right hdepth, and_iff_right fun _ => hnot piece]
    · obtain ⟨-, hhere, hbegins⟩ := hfound
      have hno : ¬∃ piece, text = piece ++ (quote :: tail ++ rest) ∧ Finds (quote :: tail) direct depth (c :: piece) := by
        rintro ⟨piece, htext, hfinds⟩
        exact hfinds.first [] (c :: piece) rfl (List.cons_ne_nil c piece) (fun hdirect => (hhere hdirect).symm)
          ((begins_iff htext).mp hbegins)
      rw [or_iff_left hno, and_iff_left hhere, Option.some.injEq]
      obtain ⟨after, hafter⟩ := hbegins
      rw [← hafter, List.drop_left, List.append_right_inj]
    · have hno : ¬(c :: text = quote :: tail ++ rest ∧ (direct = true → depth = 1)) := by
        rintro ⟨htext, hhere⟩
        exact hfound ⟨(List.cons.inj htext).1, hhere, htext ▸ List.prefix_append _ _⟩
      rw [or_iff_right hno, ih hdepth]
      refine exists_congr fun piece => and_congr_right fun htext => ?_
      rw [@finds_cons _ _ _ _ depth _ (by rw [if_neg hclose, if_neg hopen]), and_iff_right hdepth, iff_and_self]
      rintro - hhere hbegins
      exact hfound ⟨(List.cons_prefix_cons.mp hbegins).1.symm, hhere, (begins_iff htext).mpr hbegins⟩

/-- A walk goes over a piece without braces in which the word is not taken. -/
theorem walk_append (hbraces : lbrace ∉ piece ∧ rbrace ∉ piece)
    (hno : (direct = true → depth = 1) → ∀ s, s ≠ [] → s <:+ piece → ¬word <+: s ++ rest) :
    walk word direct depth (piece ++ rest) = walk word direct depth rest := by
  induction piece with
  | nil => rfl
  | cons c piece ih =>
    obtain ⟨hopen, hopens⟩ := List.ne_and_not_mem_of_not_mem_cons hbraces.1
    obtain ⟨hclose, hcloses⟩ := List.ne_and_not_mem_of_not_mem_cons hbraces.2
    have hhere : ¬(c = quote ∧ (direct = true → depth = 1) ∧ word <+: c :: (piece ++ rest)) := fun h =>
      hno h.2.1 (c :: piece) (List.cons_ne_nil _ _) (List.suffix_refl _) h.2.2
    rw [List.cons_append, walk, if_neg hopen.symm, if_neg hclose.symm, if_neg hhere]
    exact ih ⟨hopens, hcloses⟩ fun htakes s hne hs => hno htakes s hne (hs.trans (List.suffix_cons c piece))

theorem walk_openBrace : walk word direct depth (lbrace :: text) = walk word direct (depth + 1) text := if_pos rfl

theorem walk_closeBrace : walk word direct (depth + 1) (rbrace :: text) =
    if depth = 0 then none else walk word direct depth text := by
  rw [walk, if_neg (by decide), if_pos rfl, Nat.add_sub_cancel]

private theorem appsKey_ne_nil : appsKey ≠ [] := by decide +kernel

theorem appsKey_eq : appsKey = quote :: (utf8 "apps" ++ [quote]) := by decide +kernel

theorem loKey_eq : loKey = quote :: (utf8 "LaunchOptions" ++ [quote]) := by decide +kernel

private theorem walk_loKey_iff (hdepth : 0 < depth) : walk loKey direct depth text = some rest ↔
    ∃ piece, text = piece ++ (loKey ++ rest) ∧ Finds loKey direct depth piece := by
  rw [loKey_eq]
  exact walk_eq_some_iff hdepth

/-- The way of the reader, piece by piece. -/
theorem valueText_eq_some {gap gap' gap'' block block' : Bytes} (happs : behind appsKey text = some (gap ++ lbrace :: block))
    (hgap : lbrace ∉ gap) (hid : walk (needle appId) true 1 block = some (gap' ++ lbrace :: block')) (hgap' : lbrace ∉ gap')
    (hkey : walk loKey false 1 block' = some (gap'' ++ quote :: rest)) (hgap'' : quote ∉ gap'') :
    valueText text appId = some rest := by
  rw [valueText, happs]
  show (upTo lbrace _).bind _ = _
  rw [upTo_append hgap]
  show (walk (needle appId) true 1 _).bind _ = _
  rw [hid]
  show (upTo lbrace _).bind _ = _
  rw [upTo_append hgap']
  show (walk loKey false 1 _).bind _ = _
  rw [hkey]
  show (upTo quote _).bind _ = _
  rw [upTo_append hgap'']
  rfl

/-- Where the reader begins the value. -/
theorem valueText_eq_some_iff : valueText text appId = some rest ↔
    ∃ front, text = front ++ quote :: rest ∧ Reaches appId front := by
  constructor
  · intro h
    obtain ⟨behindApps, happs, h⟩ := Option.bind_eq_some_iff.mp h
    obtain ⟨⟨gap, apps⟩, hopen, h⟩ := Option.bind_eq_some_iff.mp h
    obtain ⟨behindId, hid, h⟩ := Option.bind_eq_some_iff.mp h
    obtain ⟨⟨gap', app⟩, hopen', h⟩ := Option.bind_eq_some_iff.mp h
    obtain ⟨behindKey, hkey, h⟩ := Option.bind_eq_some_iff.mp h
    obtain ⟨⟨gap'', value⟩, hvalue, h⟩ := Option.bind_eq_some_iff.mp h
    obtain rfl := Option.some.inj h
    obtain ⟨before, rfl, hfirst⟩ := (behind_eq_some_iff appsKey_ne_nil).mp happs
    obtain ⟨rfl, hgap⟩ := upTo_eq_some_iff.mp hopen
    obtain ⟨block, rfl, hblock⟩ := (walk_eq_some_iff Nat.one_pos).mp hid
    obtain ⟨rfl, hgap'⟩ := upTo_eq_some_iff.mp hopen'
    obtain ⟨block', rfl, hblock'⟩ := (walk_loKey_iff Nat.one_pos).mp hkey
    obtain ⟨rfl, hgap''⟩ := upTo_eq_some_iff.mp hvalue
    refine ⟨_, ?_, before, gap, block, gap', block', gap'', rfl, hfirst, hgap, hblock, hgap', hblock', hgap''⟩
    simp only [needle, List.append_assoc, List.cons_append]
  · rintro ⟨front, rfl, before, gap, block, gap', block', gap'', rfl, hfirst, hgap, hblock, hgap', hblock', hgap''⟩
    simp only [List.append_assoc, List.cons_append]
    exact valueText_eq_some ((behind_eq_some_iff appsKey_ne_nil).mpr ⟨before, rfl, hfirst⟩) hgap
      ((walk_eq_some_iff Nat.one_pos).mpr ⟨block, rfl, hblock⟩) hgap'
      ((walk_loKey_iff Nat.one_pos).mpr ⟨block', rfl, hblock'⟩) hgap''

end

end SlsteamMoon.LaunchOptions
