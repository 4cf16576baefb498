import SlsteamMoon.CursorLoop
import SlsteamMoon.KeyValues.Tokens
import SlsteamMoon.ProvisionCache.CmVdf
import SlsteamMoon.TextSearch

/-! Compatibility tool mappings for the apps that need Proton, put into the text of config.vdf. -/
namespace SlsteamMoon.ProtonMapping
open KeyValues ProvisionCache TextSearch CursorLoop

/-- `i` is the place of the first byte that is left. -/
def matchBraceFrom : Bytes → Nat → Nat → Option Nat
  | [], _, _ => none
  | c :: cs, depth, i =>
    if c = lbrace then matchBraceFrom cs (depth + 1) (i + 1)
    else if c = rbrace then if depth = 1 then some i else matchBraceFrom cs (depth - 1) (i + 1)
    else matchBraceFrom cs depth (i + 1)

/-- The brace that closes the block opened at `opened`; strings and comments are not told apart. -/
def matchBrace (s : Bytes) (opened : Nat) : Option Nat :=
  if s[opened]? = some lbrace then matchBraceFrom (s.drop opened) 0 opened else none

/-- The value that follows the `"name"` key, up to the next quote. -/
def readName (s : Bytes) (opened close : Nat) : Bytes :=
  match findWordFrom (utf8 "\"name\"") s opened with
  | none => []
  | some namePos =>
    if close ≤ namePos then []
    else
      match findWordFrom [quote] s (namePos + 6) with
      | none => []
      | some q1 =>
        if close ≤ q1 then []
        else
          match findWordFrom [quote] s (q1 + 1) with
          | none => []
          | some q2 => if close ≤ q2 then [] else (s.drop (q1 + 1)).take (q2 - q1 - 1)

/-- One turn of the loop that looks for the standalone `"0"` key. -/
def zeroKeyTurn (content : Bytes) (mapEnd k : Nat) : Turn Nat Bytes :=
  match findWordFrom (utf8 "\"0\"") content k with
  | none => .leave []
  | some k =>
    if mapEnd ≤ k then .leave []
    else
      let b := k + 3 + ((content.drop (k + 3)).takeWhile isBlank).length
      if b < mapEnd ∧ content[b]? = some lbrace then
        .leave (readName content b ((matchBrace content b).getD mapEnd))
      else .again (k + 3)

def mappingName : Bytes := utf8 "CompatToolMapping"
def mappingWord : Bytes := utf8 "\"CompatToolMapping\""
def steamWord : Bytes := utf8 "\"Steam\""

/-- The first brace behind the first place where the word stands. -/
def braceAfter (word content : Bytes) : Option Nat :=
  (findWord word content).bind fun pos => findWordFrom [lbrace] content pos

/-- The user's default tool, or nothing. -/
def parseDefaultTool (content : Bytes) : Bytes :=
  match braceAfter mappingWord content with
  | none => []
  | some mapBrace =>
    match matchBrace content mapBrace with
    | none => []
    | some mapEnd => (run (zeroKeyTurn content mapEnd) (mapEnd + 1) mapBrace).getD []

def toolName (content : Bytes) : Bytes :=
  if parseDefaultTool content = [] then utf8 "proton_experimental" else parseDefaultTool content

/-- content.insert(pos, piece). -/
def insertAt (content : Bytes) (pos : Nat) (piece : Bytes) : Bytes :=
  content.take pos ++ (piece ++ content.drop pos)

/-- A fresh block. -/
def block : Bytes := utf8 "\n\t\t\t\t\t\"CompatToolMapping\"\n\t\t\t\t\t\x7b\n\t\t\t\t\t\x7d"

def quotedId (appId : UInt32) : Bytes := quote :: (toDecimal appId.toNat ++ [quote])

/-- The lines of an entry below its key. -/
def entryLines (tool : Bytes) : Bytes :=
  utf8 "\t\t\t\t\t\t\x7b\n\t\t\t\t\t\t\t\"name\"\t\t\"" ++ tool ++
    utf8 "\"\n\t\t\t\t\t\t\t\"config\"\t\t\"\"\n\t\t\t\t\t\t\t\"priority\"\t\t\"250\"\n\t\t\t\t\t\t\x7d"

def entryText (tool : Bytes) (appId : UInt32) : Bytes :=
  utf8 "\n\t\t\t\t\t\t" ++ quotedId appId ++ utf8 "\n" ++ entryLines tool

/-- The text with a mapping block, and the block's brace. -/
def locateMapping (content : Bytes) : Option (Bytes × Nat) :=
  match findWord mappingWord content with
  | some _ => (braceAfter mappingWord content).map fun mapBrace => (content, mapBrace)
  | none =>
    match braceAfter steamWord content with
    | none => none
    | some steamBrace =>
      let content := insertAt content (steamBrace + 1) block
      (braceAfter mappingWord content).map fun mapBrace => (content, mapBrace)

/-- The text and the number of entries added so far. An app is passed over when its quoted id stands
anywhere behind the brace. -/
def addMapping (tool : Bytes) (mapBrace : Nat) (edit : Bytes × Nat) (appId : UInt32) : Bytes × Nat :=
  if (findWordFrom (quotedId appId) edit.1 mapBrace).isSome then edit
  else (insertAt edit.1 (mapBrace + 1) (entryText tool appId), edit.2 + 1)

/-- A std::set of app ids, in its order. -/
structure AppSet where
  ids : List UInt32
  ascending : ids.Pairwise (· < ·)

/-- config.vdf, and what the calls on it answer. -/
structure ConfigFile where
  content : Bytes
  present : Bool
  lockAcquired : Bool
  identityRead : Bool
  opened : Bool
  /-- The answer of AtomicFile::writeIfUnchanged. -/
  published : Bool

/-- The answer, and what the file holds afterwards. -/
def injectProtonMappings (need : AppSet) (file : ConfigFile) : Bool × Bytes :=
  if need.ids = [] then (true, file.content)
  else if !(file.present && file.lockAcquired && file.identityRead && file.opened) then (false, file.content)
  else
    match locateMapping file.content with
    | none => (false, file.content)
    | some (content, mapBrace) =>
      let edit := need.ids.foldl (addMapping (toolName content) mapBrace) (content, 0)
      if edit.2 = 0 then (true, file.content)
      else if file.published then (true, edit.1)
      else (false, file.content)

/-- The search for the default tool is left before its fuel runs out. -/
theorem zeroKey_loop_returns (content : Bytes) (mapBrace mapEnd : Nat) :
    (run (zeroKeyTurn content mapEnd) (mapEnd + 1) mapBrace).isSome = true := by
  have hturn : ∀ k u, zeroKeyTurn content mapEnd k = .again u → k < u ∧ k < mapEnd := by
    intro k u h
    simp only [zeroKeyTurn] at h
    split at h
    · cases h
    · next found hfound =>
      obtain ⟨i, -, rfl⟩ := Option.map_eq_some_iff.mp hfound
      split_ifs at h with hend hopen
      cases h
      omega
  exact run_isSome_of_room hturn (by omega) (Nat.succ_pos mapEnd)

end SlsteamMoon.ProtonMapping

/-! The apps that get an entry, and the text that their entries make. -/
namespace SlsteamMoon.ProtonMapping
open KeyValues ProvisionCache TextSearch

private theorem mem_quotedId {appId : UInt32} {c : UInt8} (h : c ∈ quotedId appId) : c = quote ∨ isDigit c = true := by
  obtain rfl | h := List.mem_cons.mp h
  · exact .inl rfl
  obtain h | h := List.mem_append.mp h
  · exact .inr (List.all_eq_true.mp (toDecimal_all_isDigit appId.toNat) c h)
  · exact .inl (List.mem_singleton.mp h)

private theorem quote_notMem_toDecimal (n : Nat) : quote ∉ toDecimal n := fun h =>
  absurd (List.all_eq_true.mp (toDecimal_all_isDigit n) quote h) (by decide)

private theorem quotedId_ne_nil (appId : UInt32) : quotedId appId ≠ [] := List.cons_ne_nil _ _

section
variable {appId other : UInt32} {c : UInt8}

/-- Quoted ids do not reach over braces and white space. -/
theorem quotedId_infix_append_cons (hquote : c ≠ quote) (hdigit : isDigit c = false) (front rest : Bytes) :
    quotedId appId <:+: front ++ c :: rest ↔ quotedId appId <:+: front ∨ quotedId appId <:+: rest := by
  refine infix_append_cons_iff ?_ (quotedId_ne_nil appId) front rest
  intro h
  obtain rfl | h := mem_quotedId h
  · exact hquote rfl
  · rw [hdigit] at h
    cases h

private theorem not_quotedId_infix_nil : ¬quotedId appId <:+: [] := fun h => quotedId_ne_nil appId (List.infix_nil.mp h)

private theorem quotedId_infix_cons (hquote : c ≠ quote) (hdigit : isDigit c = false) (rest : Bytes) :
    quotedId appId <:+: c :: rest ↔ quotedId appId <:+: rest :=
  (quotedId_infix_append_cons hquote hdigit [] rest).trans (or_iff_right not_quotedId_infix_nil)

private theorem quotedId_infix_white {ws : Bytes} (h : ws.all isBlank = true) (rest : Bytes) :
    quotedId appId <:+: ws ++ rest ↔ quotedId appId <:+: rest := by
  induction ws with
  | nil => rfl
  | cons c ws ih =>
    rw [List.all_cons, Bool.and_eq_true] at h
    have hquote : c ≠ quote := by
      rintro rfl
      exact absurd h.1 (by decide)
    have hdigit : isDigit c = false := by
      have hblank := h.1
      simp only [isBlank, Bool.or_eq_true, beq_iff_eq] at hblank
      obtain ((rfl | rfl) | rfl) | rfl := hblank <;> rfl
    rw [List.cons_append, quotedId_infix_cons hquote hdigit, ih h.2]

private theorem quotedId_infix_quotedId : quotedId appId <:+: quotedId other ↔ appId = other := by
  constructor
  · rintro ⟨x, y, h⟩
    have hcount : ∀ a : UInt32, (quotedId a).count quote = 2 := by
      intro a
      rw [quotedId, List.count_cons_self, List.count_append, List.count_eq_zero.mpr (quote_notMem_toDecimal _)]
      rfl
    have hx : x.count quote = 0 := by
      have hsum := congrArg (List.count quote) h
      rw [List.count_append, List.count_append, hcount, hcount] at hsum
      omega
    cases x with
    | cons c x =>
      have hc : c = quote := (List.cons.inj h).1
      rw [hc, List.count_cons_self] at hx
      cases hx
    | nil =>
      have hdigits : toDecimal appId.toNat ++ quote :: y = toDecimal other.toNat ++ quote :: [] := by
        have htail : toDecimal appId.toNat ++ [quote] ++ y = toDecimal other.toNat ++ [quote] := (List.cons.inj h).2
        rwa [List.append_assoc] at htail
      have hupTo := congrArg (upTo quote) hdigits
      rw [upTo_append (quote_notMem_toDecimal _), upTo_append (quote_notMem_toDecimal _)] at hupTo
      exact UInt32.toNat_inj.mp (toDecimal_injective (Prod.mk.inj (Option.some.inj hupTo)).1)
  · rintro rfl
    exact List.infix_refl _

/-- An entry has its own id, and what the lines below have. -/
theorem quotedId_infix_entryText (tool : Bytes) :
    quotedId appId <:+: entryText tool other ↔ appId = other ∨ quotedId appId <:+: entryLines tool := by
  have hlead : entryText tool other = utf8 "\n\t\t\t\t\t\t" ++ (quotedId other ++ newline :: entryLines tool) := by
    rw [entryText, List.append_assoc, List.append_assoc]
    rfl
  rw [hlead, quotedId_infix_white (by decide +kernel), quotedId_infix_append_cons (by decide) (by decide),
    quotedId_infix_quotedId]

end

/-- The entry up to its closing brace. -/
theorem entryText_ends (tool : Bytes) (appId : UInt32) : ∃ body, entryText tool appId = body ++ [rbrace] := by
  refine ⟨utf8 "\n\t\t\t\t\t\t" ++ quotedId appId ++ utf8 "\n" ++ (utf8 "\t\t\t\t\t\t\x7b\n\t\t\t\t\t\t\t\"name\"\t\t\"" ++ tool ++
    utf8 "\"\n\t\t\t\t\t\t\t\"config\"\t\t\"\"\n\t\t\t\t\t\t\t\"priority\"\t\t\"250\"\n\t\t\t\t\t\t"), ?_⟩
  have htail : utf8 "\"\n\t\t\t\t\t\t\t\"config\"\t\t\"\"\n\t\t\t\t\t\t\t\"priority\"\t\t\"250\"\n\t\t\t\t\t\t\x7d" =
      utf8 "\"\n\t\t\t\t\t\t\t\"config\"\t\t\"\"\n\t\t\t\t\t\t\t\"priority\"\t\t\"250\"\n\t\t\t\t\t\t" ++ [rbrace] := by
    decide +kernel
  rw [entryText, entryLines, htail]
  simp only [List.append_assoc]

/-- The entries added so far, the latest in front. -/
def entries (tool : Bytes) (added : List UInt32) : Bytes := added.flatMap (entryText tool)

private theorem quotedId_infix_entries {tool : Bytes} {added : List UInt32} {appId : UInt32} {place : Bytes} :
    quotedId appId <:+: entries tool added ++ place ↔
      quotedId appId <:+: place ∨ ∃ b ∈ added, quotedId appId <:+: entryText tool b := by
  induction added with
  | nil => simp [entries]
  | cons b added ih =>
    obtain ⟨body, hbody⟩ := entryText_ends tool b
    have hbrace : ∀ rest, quotedId appId <:+: entryText tool b ++ rest ↔
        quotedId appId <:+: entryText tool b ∨ quotedId appId <:+: rest := by
      intro rest
      rw [hbody, List.append_assoc, List.singleton_append, quotedId_infix_append_cons (by decide) (by decide),
        quotedId_infix_append_cons (by decide) (by decide), or_iff_left not_quotedId_infix_nil]
    rw [entries, List.flatMap_cons, List.append_assoc, hbrace, ← entries, ih, List.exists_mem_cons_iff]
    exact or_left_comm

/-- Passed over: the quoted id stands behind the brace, or in the lines of an entry that an earlier app
has got. -/
def SeenIn (ids : List UInt32) (place tool : Bytes) (appId : UInt32) : Prop :=
  quotedId appId <:+: place ∨
    quotedId appId <:+: entryLines tool ∧ ∃ b ∈ ids, b < appId ∧ ¬quotedId b <:+: place

instance (ids : List UInt32) (place tool : Bytes) (appId : UInt32) : Decidable (SeenIn ids place tool appId) :=
  have := List.decidableBEx (fun b => b < appId ∧ ¬quotedId b <:+: place) ids
  inferInstanceAs (Decidable (_ ∨ _ ∧ _))

/-- The apps of `ids` that are not passed over. -/
structure Added (ids : List UInt32) (place tool : Bytes) (added : List UInt32) : Prop where
  mem : ∀ a, a ∈ added ↔ a ∈ ids ∧ ¬SeenIn ids place tool a
  nodup : added.Nodup
  some : added ≠ [] ↔ ∃ b ∈ ids, ¬quotedId b <:+: place

section
variable {ids added : List UInt32} {place tool : Bytes} {appId : UInt32}

/-- A larger id does not change what is seen. -/
theorem seenIn_append (h : ∀ b ∈ ids, b < appId) {a : UInt32} (ha : a ∈ ids) :
    SeenIn (ids ++ [appId]) place tool a ↔ SeenIn ids place tool a := by
  have hlater : ¬appId < a := UInt32.lt_asymm (h a ha)
  simp only [SeenIn, List.mem_append, List.mem_singleton]
  refine or_congr_right (and_congr_right fun _ => ⟨?_, ?_⟩)
  · rintro ⟨b, hb | rfl, hlt, hunwritten⟩
    · exact ⟨b, hb, hlt, hunwritten⟩
    · exact absurd hlt hlater
  · rintro ⟨b, hb, hlt, hunwritten⟩
    exact ⟨b, .inl hb, hlt, hunwritten⟩

/-- The largest id is seen just when it stands in the text with the entries. -/
theorem seenIn_last (h : ∀ b ∈ ids, b < appId) (hadded : Added ids place tool added) :
    SeenIn (ids ++ [appId]) place tool appId ↔ quotedId appId <:+: entries tool added ++ place := by
  rw [quotedId_infix_entries]
  refine or_congr_right ⟨?_, ?_⟩
  · rintro ⟨hlines, b, hb, hlt, hunwritten⟩
    have hb : b ∈ ids := by
      obtain hb | hb := List.mem_append.mp hb
      · exact hb
      · exact absurd hlt (by rw [List.mem_singleton.mp hb]; exact UInt32.lt_irrefl appId)
    obtain ⟨c, hc⟩ := List.exists_mem_of_ne_nil added (hadded.some.mpr ⟨b, hb, hunwritten⟩)
    exact ⟨c, hc, (quotedId_infix_entryText tool).mpr (.inr hlines)⟩
  · rintro ⟨b, hb, hentry⟩
    have hne : appId ≠ b := (UInt32.ne_of_lt (h b ((hadded.mem b).mp hb).1)).symm
    refine ⟨((quotedId_infix_entryText tool).mp hentry).resolve_left hne, ?_⟩
    obtain ⟨c, hc, hunwritten⟩ := hadded.some.mp (List.ne_nil_of_mem hb)
    exact ⟨c, List.mem_append_left [appId] hc, h c hc, hunwritten⟩

/-- One more app. -/
theorem Added.next (h : ∀ b ∈ ids, b < appId) (hadded : Added ids place tool added) :
    Added (ids ++ [appId]) place tool
      (if quotedId appId <:+: entries tool added ++ place then added else appId :: added) := by
  have hnew : appId ∉ added := fun hmem => UInt32.lt_irrefl appId (h appId ((hadded.mem appId).mp hmem).1)
  have hlast := seenIn_last h hadded
  have hmem : ∀ a, a ∈ ids ++ [appId] ∧ ¬SeenIn (ids ++ [appId]) place tool a ↔
      a ∈ added ∨ a = appId ∧ ¬quotedId appId <:+: entries tool added ++ place := by
    intro a
    rw [List.mem_append, List.mem_singleton]
    by_cases ha : a ∈ ids
    · have hne : a ≠ appId := UInt32.ne_of_lt (h a ha)
      rw [seenIn_append h ha, hadded.mem]
      simp [ha, hne]
    · rw [hadded.mem]
      simp only [ha, false_or, false_and]
      refine and_congr_right ?_
      rintro rfl
      rw [hlast]
  split_ifs with hseen
  · refine ⟨fun a => by rw [hmem]; simp [hseen], hadded.nodup, ?_⟩
    rw [hadded.some]
    constructor
    · rintro ⟨b, hb, hunwritten⟩
      exact ⟨b, List.mem_append_left [appId] hb, hunwritten⟩
    · rintro ⟨b, hb, hunwritten⟩
      obtain hb | hb := List.mem_append.mp hb
      · exact ⟨b, hb, hunwritten⟩
      · rw [List.mem_singleton.mp hb] at hunwritten
        obtain ⟨c, hc, -⟩ := (quotedId_infix_entries.mp hseen).resolve_left hunwritten
        exact hadded.some.mp (List.ne_nil_of_mem hc)
  · refine ⟨fun a => by rw [hmem, List.mem_cons]; simp [hseen, or_comm], List.nodup_cons.mpr ⟨hnew, hadded.nodup⟩, ?_⟩
    have hunwritten : ¬quotedId appId <:+: place := fun hp => hseen (quotedId_infix_entries.mpr (.inl hp))
    exact iff_of_true (List.cons_ne_nil _ _) ⟨appId, by simp, hunwritten⟩

end

/-- The text after some turns: the entries stand right behind the brace. -/
def edited (front place tool : Bytes) (added : List UInt32) : Bytes × Nat :=
  (front ++ (entries tool added ++ place), added.length)

private theorem insertAt_length (front place piece : Bytes) :
    insertAt (front ++ place) front.length piece = front ++ (piece ++ place) := by
  rw [insertAt, List.take_left, List.drop_left]

/-- One turn of the loop over the apps. -/
theorem addMapping_edited (front place tool : Bytes) (added : List UInt32) (appId : UInt32) :
    addMapping tool front.length (edited (front ++ [lbrace]) place tool added) appId =
      edited (front ++ [lbrace]) place tool
        (if quotedId appId <:+: entries tool added ++ place then added else appId :: added) := by
  have hfound : (findWordFrom (quotedId appId) (edited (front ++ [lbrace]) place tool added).1 front.length).isSome = true ↔
      quotedId appId <:+: entries tool added ++ place := by
    rw [findWordFrom, Option.isSome_map, edited, List.append_assoc, List.drop_left, findWord_isSome_iff,
      List.singleton_append, quotedId_infix_cons (by decide) (by decide)]
  rw [addMapping]
  split_ifs with h hin hin
  · rfl
  · exact absurd (hfound.mp h) hin
  · exact absurd (hfound.mpr hin) h
  · have hlength : front.length + 1 = (front ++ [lbrace]).length := by simp
    show (insertAt (front ++ [lbrace] ++ (entries tool added ++ place)) (front.length + 1) (entryText tool appId),
      added.length + 1) = _
    rw [hlength, insertAt_length, ← List.append_assoc (entryText tool appId)]
    rfl

/-- The loop over the apps. -/
theorem foldl_addMapping (front place tool : Bytes) {ids : List UInt32} (h : ids.Pairwise (· < ·)) :
    ∃ added, Added ids place tool added ∧
      ids.foldl (addMapping tool front.length) (front ++ [lbrace] ++ place, 0) =
        edited (front ++ [lbrace]) place tool added := by
  induction ids using List.reverseRecOn with
  | nil => exact ⟨[], ⟨fun a => by simp, List.nodup_nil, by simp⟩, rfl⟩
  | append_singleton ids appId ih =>
    obtain ⟨hids, -, hlt⟩ := List.pairwise_append.mp h
    obtain ⟨added, hadded, hfold⟩ := ih hids
    refine ⟨_, hadded.next fun b hb => hlt b hb appId List.mem_cons_self, ?_⟩
    rw [List.foldl_append, hfold, List.foldl_cons, List.foldl_nil, addMapping_edited]

/-- The brace that is taken for the mapping's, or for that of the object which gets the block. -/
def anchorBrace (content : Bytes) : Option Nat :=
  if mappingWord <:+: content then braceAfter mappingWord content else braceAfter steamWord content

/-- The tool that the entries name. -/
def toolFor (content : Bytes) : Bytes := ((locateMapping content).map fun located => toolName located.1).getD []

/-- A fresh block up to its brace, and behind it. -/
def blockHead : Bytes := utf8 "\n\t\t\t\t\t\"CompatToolMapping\"\n\t\t\t\t\t"
def blockTail : Bytes := utf8 "\n\t\t\t\t\t\x7d"

/-- What is put behind the brace. -/
def insertion (content tool : Bytes) (added : List UInt32) : Bytes :=
  if mappingWord <:+: content then entries tool added
  else blockHead ++ lbrace :: (entries tool added ++ blockTail)

private theorem braceAfter_split {word content : Bytes} {brace : Nat} (h : braceAfter word content = some brace) :
    content = content.take brace ++ [lbrace] ++ content.drop (brace + 1) ∧ (content.take brace).length = brace := by
  obtain ⟨pos, -, hfound⟩ := Option.bind_eq_some_iff.mp h
  obtain ⟨i, hi, rfl⟩ := Option.map_eq_some_iff.mp hfound
  have hprefix := prefix_of_findWord hi
  rw [List.drop_drop, Nat.add_comm] at hprefix
  obtain ⟨rest, hrest⟩ := hprefix
  have hplace : content.drop (i + pos + 1) = rest := by
    rw [← List.drop_drop, ← hrest]
    rfl
  refine ⟨?_, ?_⟩
  · rw [hplace, List.append_assoc, hrest, List.take_append_drop]
  · have hlength := congrArg List.length hrest
    rw [List.length_append, List.length_drop, List.length_singleton] at hlength
    rw [List.length_take]
    omega

private theorem braceAfter_take {word content : Bytes} {brace : Nat} (h : braceAfter word content = some brace) :
    content.take (brace + 1) = content.take brace ++ [lbrace] := by
  obtain ⟨hsplit, hlength⟩ := braceAfter_split h
  have hfront : (content.take brace ++ [lbrace]).length = brace + 1 := by
    rw [List.length_append, hlength, List.length_singleton]
  have htake := congrArg (List.take (brace + 1)) hsplit
  rwa [← hfront, List.take_left, hfront] at htake

/-- The brace of a fresh block is found. -/
theorem braceAfter_block {front : Bytes} (h : ¬mappingWord <:+: front) (rest : Bytes) :
    braceAfter mappingWord (front ++ (blockHead ++ lbrace :: rest)) = some (front ++ blockHead).length := by
  have hhead : blockHead = newline :: (utf8 "\t\t\t\t" ++ 0x09 :: (mappingWord ++ utf8 "\n\t\t\t\t\t")) := by decide +kernel
  have hword : mappingWord ≠ [] := by decide +kernel
  have htext : front ++ (blockHead ++ lbrace :: rest) = front ++ newline :: utf8 "\t\t\t\t" ++
      0x09 :: (mappingWord ++ (utf8 "\n\t\t\t\t\t" ++ lbrace :: rest)) := by
    rw [hhead]
    simp only [List.append_assoc, List.cons_append]
  have hlead : ¬mappingWord <:+: front ++ newline :: utf8 "\t\t\t\t" := by
    rw [infix_append_cons_iff (by decide +kernel) hword]
    rintro (hp | hp)
    · exact h hp
    · exact absurd hp (by decide +kernel)
  have hlength : (front ++ newline :: utf8 "\t\t\t\t").length + 1 = front.length + 6 := by
    rw [List.length_append]
    rfl
  have hpos : findWord mappingWord (front ++ (blockHead ++ lbrace :: rest)) = some (front.length + 6) := by
    rw [htext, findWord_append_cons (by decide +kernel) hword hlead, findWord_eq_zero hword, Option.map_some, hlength,
      Nat.zero_add]
  have hdrop : (front ++ (blockHead ++ lbrace :: rest)).drop (front.length + 6) =
      mappingWord ++ utf8 "\n\t\t\t\t\t" ++ lbrace :: rest := by
    rw [htext, ← hlength, ← List.drop_drop, List.drop_left, List.append_assoc]
    rfl
  have hbrace : lbrace ∉ mappingWord ++ utf8 "\n\t\t\t\t\t" := by decide +kernel
  rw [braceAfter, hpos, Option.bind_some, findWordFrom, hdrop, findWord_singleton hbrace, Option.map_some]
  have htotal : (mappingWord ++ utf8 "\n\t\t\t\t\t").length + 6 = blockHead.length := by decide +kernel
  have hfront : (front ++ blockHead).length = front.length + blockHead.length := List.length_append
  congr 1
  omega

/-- Ids are looked for behind a fresh block just as behind the place where it is put. -/
theorem quotedId_infix_blockTail (appId : UInt32) (place : Bytes) :
    quotedId appId <:+: blockTail ++ place ↔ quotedId appId <:+: place := by
  have htail : blockTail = utf8 "\n\t\t\t\t\t" ++ [rbrace] := by decide +kernel
  rw [htail, List.append_assoc, quotedId_infix_white (by decide +kernel), List.singleton_append,
    quotedId_infix_cons (by decide) (by decide)]

private theorem insertAt_block (content : Bytes) (brace : Nat) :
    insertAt content (brace + 1) block =
      content.take (brace + 1) ++ (blockHead ++ lbrace :: (blockTail ++ content.drop (brace + 1))) := by
  have hblock : block = blockHead ++ lbrace :: blockTail := by decide +kernel
  rw [insertAt, hblock, List.append_assoc, List.cons_append]

/-- Where the turns begin: the text in front of the brace, and the text behind it. -/
theorem locateMapping_split {content text : Bytes} {mapBrace : Nat} (h : locateMapping content = some (text, mapBrace)) :
    ∃ brace front place, anchorBrace content = some brace ∧ text = front ++ [lbrace] ++ place ∧
      mapBrace = front.length ∧ (∀ a, quotedId a <:+: place ↔ quotedId a <:+: content.drop (brace + 1)) ∧
      ∀ tool added, front ++ [lbrace] ++ (entries tool added ++ place) =
        content.take (brace + 1) ++ (insertion content tool added ++ content.drop (brace + 1)) := by
  rw [locateMapping] at h
  split at h
  · next pos hpos =>
    have hword : mappingWord <:+: content := findWord_isSome_iff.mp (by rw [hpos]; rfl)
    obtain ⟨brace, hbrace, heq⟩ := Option.map_eq_some_iff.mp h
    obtain ⟨rfl, rfl⟩ := Prod.mk.inj heq
    obtain ⟨hsplit, hlength⟩ := braceAfter_split hbrace
    refine ⟨brace, content.take brace, content.drop (brace + 1), ?_, hsplit, hlength.symm, fun a => Iff.rfl, ?_⟩
    · rw [anchorBrace, if_pos hword, hbrace]
    · intro tool added
      rw [insertion, if_pos hword, braceAfter_take hbrace]
  · next hnone =>
    have hword : ¬mappingWord <:+: content := by
      rw [← findWord_isSome_iff, hnone]
      exact Bool.false_ne_true
    split at h
    · cases h
    · next brace hbrace =>
      have hfront : ¬mappingWord <:+: content.take (brace + 1) := fun hp =>
        hword (hp.trans (List.take_prefix _ content).isInfix)
      obtain ⟨mapBrace', hmap, heq⟩ := Option.map_eq_some_iff.mp h
      obtain ⟨rfl, rfl⟩ := Prod.mk.inj heq
      rw [insertAt_block, braceAfter_block hfront] at hmap
      refine ⟨brace, content.take (brace + 1) ++ blockHead, blockTail ++ content.drop (brace + 1), ?_, ?_,
        (Option.some.inj hmap).symm, fun a => quotedId_infix_blockTail a _, ?_⟩
      · rw [anchorBrace, if_neg hword, hbrace]
      · rw [insertAt_block]
        simp only [List.append_assoc, List.singleton_append]
      · intro tool added
        rw [insertion, if_neg hword]
        simp only [List.append_assoc, List.nil_append, List.cons_append]

theorem Added.congr {ids added : List UInt32} {place place' tool : Bytes}
    (h : ∀ a, quotedId a <:+: place ↔ quotedId a <:+: place') (hadded : Added ids place tool added) :
    Added ids place' tool added := by
  have hseen : ∀ a, SeenIn ids place tool a ↔ SeenIn ids place' tool a := by
    intro a
    simp only [SeenIn, h]
  refine ⟨fun a => by rw [hadded.mem, hseen], hadded.nodup, hadded.some.trans ?_⟩
  simp only [h]

/-- What a call that reports success leaves in the file. -/
theorem injectProtonMappings_success {need : AppSet} {file : ConfigFile}
    (h : (injectProtonMappings need file).1 = true) (hne : need.ids ≠ []) :
    ∃ brace added, anchorBrace file.content = some brace ∧
      Added need.ids (file.content.drop (brace + 1)) (toolFor file.content) added ∧
      (injectProtonMappings need file).2 =
        if added = [] then file.content
        else file.content.take (brace + 1) ++
          (insertion file.content (toolFor file.content) added ++ file.content.drop (brace + 1)) := by
  rw [injectProtonMappings, if_neg hne] at h ⊢
  by_cases haccess : (!(file.present && file.lockAcquired && file.identityRead && file.opened)) = true
  · rw [if_pos haccess] at h
    cases h
  rw [if_neg haccess] at h ⊢
  cases hlocated : locateMapping file.content with
  | none =>
    rw [hlocated] at h
    cases h
  | some located =>
    obtain ⟨text, mapBrace⟩ := located
    rw [hlocated] at h
    obtain ⟨brace, front, place, hbrace, rfl, rfl, hplace, htext⟩ := locateMapping_split hlocated
    have htool : toolFor file.content = toolName (front ++ [lbrace] ++ place) := by
      rw [toolFor, hlocated]
      rfl
    obtain ⟨added, hadded, hfold⟩ := foldl_addMapping front place (toolName (front ++ [lbrace] ++ place)) need.ascending
    rw [← htool] at hadded hfold
    refine ⟨brace, added, hbrace, hadded.congr hplace, ?_⟩
    dsimp only at h ⊢
    rw [← htool, hfold] at h ⊢
    by_cases hnone : added = []
    · rw [hnone]
      rfl
    · have hcount : (edited (front ++ [lbrace]) place (toolFor file.content) added).2 ≠ 0 := fun hzero =>
        hnone (List.eq_nil_of_length_eq_zero hzero)
      rw [if_neg hcount] at h ⊢
      rw [if_neg hnone, ← htext]
      by_cases hpublished : file.published = true
      · rw [if_pos hpublished]
        rfl
      · rw [if_neg hpublished] at h
        cases h

end SlsteamMoon.ProtonMapping
