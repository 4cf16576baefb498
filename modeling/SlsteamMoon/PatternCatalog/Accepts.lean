import SlsteamMoon.PatternCatalog.Canonical

/-! The bytes of a rendered catalog, and the theorem on the texts that are accepted. -/
namespace SlsteamMoon.PatternCatalog
open KeyValues CheckedReads Utf8Scan
open ProvisionCache (utf8 toDecimal toDecimal_all_isDigit isDigit)

/-- The bytes between a space and the end of ASCII. -/
def Plain (text : Bytes) : Prop := text.all (fun c => 0x20 ≤ c && c ≤ 0x7F) = true

instance (text : Bytes) : Decidable (Plain text) := inferInstanceAs (Decidable (_ = true))

/-- A property of lines that is one of the strings in them. -/
structure OfStrings (P : Bytes → Prop) : Prop where
  plain : ∀ text, Plain text → P text
  string : ∀ key value, Plain key → (P (stringText key value) ↔ P value)

def headerKeys : List String :=
  ["schema", "platform", "component", "module_name", "module_sha256", "module_size", "gnu_build_id", "steam_version",
    "consumer_commit", "minimum_consumer_schema", "revision", "source"]

def blockTexts : List String :=
  ["[[locators]]", "symbol", "name", "target_rva", "match_rva", "signature", "follow_mode", "resolver", "required = true",
    "required = false", "match_count", "target_count"]

private theorem plain_keys : ∀ name ∈ headerKeys ++ blockTexts, Plain (utf8 name) := by decide +kernel

private theorem plain_separators : Plain (utf8 " = \"") ∧ Plain (utf8 " = ") := by decide +kernel

private theorem plain_append {a b : Bytes} : Plain (a ++ b) ↔ Plain a ∧ Plain b := by
  rw [Plain, List.all_append, Bool.and_eq_true, Plain, Plain]

theorem plain_toDecimal (n : Nat) : Plain (toDecimal n) := by
  rw [Plain, List.all_eq_true]
  intro c hc
  have hdigit := List.all_eq_true.mp (toDecimal_all_isDigit n) c hc
  rw [isDigit, Bool.and_eq_true, decide_eq_true_iff, decide_eq_true_iff] at hdigit
  rw [Bool.and_eq_true, decide_eq_true_iff, decide_eq_true_iff]
  exact ⟨UInt8.le_trans (by decide) hdigit.1, UInt8.le_trans hdigit.2 (by decide)⟩

private theorem plain_integerText {key : Bytes} (h : Plain key) (n : Nat) : Plain (integerText key n) :=
  plain_append.mpr ⟨plain_append.mpr ⟨h, plain_separators.2⟩, plain_toDecimal n⟩

variable {P : Bytes → Prop} {h : Header} {ls : List Locator} {l : Locator} {body : Bytes} {expected : ModuleIdentity}

theorem OfStrings.headerLines (hP : OfStrings P) (h : Header) :
    (∀ line ∈ headerLines h, P line) ↔ ∀ s ∈ h.strings, P s := by
  have hkeys := plain_keys
  simp only [headerKeys, List.cons_append, List.forall_mem_cons] at hkeys
  obtain ⟨k0, k1, k2, k3, k4, k5, k6, k7, k8, k9, k10, k11, -⟩ := hkeys
  have hinteger {key : Bytes} (hkey : Plain key) (n : Nat) : P (integerText key n) :=
    hP.plain _ (plain_integerText hkey n)
  simp only [PatternCatalog.headerLines, Header.strings, List.forall_mem_cons, hP.string _ _ k1, hP.string _ _ k2,
    hP.string _ _ k3, hP.string _ _ k4, hP.string _ _ k6, hP.string _ _ k8, hP.string _ _ k11, hinteger k0, hinteger k5,
    hinteger k7, hinteger k9, hinteger k10, true_and]

theorem OfStrings.blockLines (hP : OfStrings P) (l : Locator) :
    (∀ line ∈ blockLines l, P line) ↔ ∀ s ∈ l.strings, P s := by
  have hkeys := plain_keys
  simp only [headerKeys, blockTexts, List.cons_append, List.nil_append, List.forall_mem_cons] at hkeys
  obtain ⟨-, -, -, -, -, -, -, -, -, -, -, -, k0, k1, k2, k3, k4, k5, k6, k7, k8, k9, k10, k11, -⟩ := hkeys
  have hinteger {key : Bytes} (hkey : Plain key) (n : Nat) : P (integerText key n) :=
    hP.plain _ (plain_integerText hkey n)
  have hmatch : ∀ line ∈ matchLines l.matchRva, P line := by
    intro line hline
    obtain ⟨value, -, rfl⟩ := List.mem_map.mp hline
    exact hinteger k4 _
  have hrequired : P (requiredText l.required) := by
    rw [requiredText]
    split_ifs
    · exact hP.plain _ k8
    · exact hP.plain _ k9
  have hempty : P [] := hP.plain _ rfl
  simp only [PatternCatalog.blockLines, identityLines, resolutionLines, Locator.strings, List.forall_mem_append,
    List.forall_mem_cons, hempty, hP.plain _ k0, hP.string _ _ k1, hP.string _ _ k2, hinteger k3, hP.string _ _ k5,
    hP.string _ _ k6, hP.string _ _ k7, hrequired, hinteger k10, hinteger k11, true_and]
  constructor
  · rintro ⟨⟨hsymbol, hname, -⟩, -, hsignature, hmode, hresolver, -⟩
    exact ⟨hsymbol, hname, hsignature, hmode, hresolver, List.forall_mem_nil _⟩
  · rintro ⟨hsymbol, hname, hsignature, hmode, hresolver, -⟩
    exact ⟨⟨hsymbol, hname, List.forall_mem_nil _⟩, hmatch, hsignature, hmode, hresolver, List.forall_mem_nil _⟩

theorem OfStrings.documentLines (hP : OfStrings P) (h : Header) (ls : List Locator) :
    (∀ line ∈ documentLines h ls, P line) ↔ (∀ s ∈ h.strings, P s) ∧ ∀ l ∈ ls, ∀ s ∈ l.strings, P s := by
  rw [PatternCatalog.documentLines, List.forall_mem_append, hP.headerLines, List.forall_mem_flatMap]
  exact and_congr_right fun _ => forall₂_congr fun l _ => hP.blockLines l

private theorem ascii_of_plain {text : Bytes} (h : Plain text) : ∀ c ∈ text, c ≤ 0x7F := by
  intro c hc
  have hplain := List.all_eq_true.mp h c hc
  rw [Bool.and_eq_true, decide_eq_true_iff, decide_eq_true_iff] at hplain
  exact hplain.2

private theorem ofStrings_isValidUtf8 : OfStrings fun line => isValidUtf8 line = true := by
  refine ⟨fun text htext => isValidUtf8_of_ascii (ascii_of_plain htext), fun key value hkey => ?_⟩
  have hfront : Plain (key ++ utf8 " = \"") := plain_append.mpr ⟨hkey, plain_separators.1⟩
  have hquote : quote ≤ 0x7F := by decide
  rw [stringText, List.append_assoc, isValidUtf8_ascii_append (ascii_of_plain hfront), isValidUtf8_append_cons hquote]
  exact Bool.and_eq_true_iff.trans (and_iff_left rfl)

/-- No control character. -/
def Printable (line : Bytes) : Prop := ∀ c ∈ line, 0x20 ≤ c

private theorem printable_of_plain {text : Bytes} (h : Plain text) : Printable text := by
  intro c hc
  have hplain := List.all_eq_true.mp h c hc
  rw [Bool.and_eq_true, decide_eq_true_iff, decide_eq_true_iff] at hplain
  exact hplain.1

private theorem ofStrings_printable : OfStrings Printable := by
  refine ⟨fun text => printable_of_plain, fun key value hkey => ?_⟩
  have hfront : Printable (key ++ utf8 " = \"") := printable_of_plain (plain_append.mpr ⟨hkey, plain_separators.1⟩)
  have hquote : Printable [quote] := by
    intro c hc
    rw [List.mem_singleton.mp hc]
    decide
  rw [stringText]
  constructor
  · intro hline
    exact (List.forall_mem_append.mp (List.forall_mem_append.mp hline).1).2
  · intro hvalue
    exact List.forall_mem_append.mpr ⟨List.forall_mem_append.mpr ⟨hfront, hvalue⟩, hquote⟩

private theorem printable_of_isSafeText {value : Bytes} (h : isSafeText value = true) : Printable value := by
  intro c hc
  rw [isSafeText, Bool.and_eq_true] at h
  have hsafe := List.all_eq_true.mp h.2 c hc
  rw [isSafe, Bool.and_eq_true, Bool.and_eq_true, decide_eq_true_iff] at hsafe
  exact hsafe.1.1

private theorem newline_not_mem {line : Bytes} (h : Printable line) : newline ∉ line :=
  fun hmem => absurd (h _ hmem) (by decide)

private theorem flatMap_newline {lines : Lines} (h : lines ≠ []) :
    lines.flatMap (· ++ [newline]) = [newline].intercalate lines ++ [newline] := by
  induction lines with
  | nil => exact absurd rfl h
  | cons line lines ih =>
    cases lines with
    | nil => rw [List.flatMap_singleton, List.intercalate_singleton]
    | cons next lines =>
      rw [List.flatMap_cons, ih (List.cons_ne_nil _ _), List.intercalate_cons_cons, List.append_assoc, List.append_assoc,
        List.append_assoc]

/-- A text that ends with a LF is its lines. -/
theorem flatMap_splitLines (h : body.getLast? = some newline) : (splitLines body).flatMap (· ++ [newline]) = body := by
  obtain ⟨front, rfl⟩ := List.getLast?_eq_some_iff.mp h
  rw [splitLines, List.dropLast_concat, flatMap_newline (List.splitOn_ne_nil _ _), List.intercalate_splitOn]

private theorem splitLines_flatMap {lines : Lines} (hne : lines ≠ []) (hfree : ∀ line ∈ lines, newline ∉ line) :
    splitLines (lines.flatMap (· ++ [newline])) = lines := by
  rw [splitLines, flatMap_newline hne, List.dropLast_concat]
  exact List.splitOn_intercalate newline hfree hne

private theorem documentLines_ne_nil (h : Header) (ls : List Locator) : documentLines h ls ≠ [] := List.cons_ne_nil _ _

/-- The lines of a rendering are those it was made of. -/
theorem splitLines_render (hheader : ∀ s ∈ h.strings, isSafeText s = true)
    (hlocators : ∀ l ∈ ls, ∀ s ∈ l.strings, isSafeText s = true) : splitLines (render h ls) = documentLines h ls := by
  apply splitLines_flatMap (documentLines_ne_nil h ls)
  have hprintable := (ofStrings_printable.documentLines h ls).mpr
    ⟨fun s hs => printable_of_isSafeText (hheader s hs), fun l hl s hs => printable_of_isSafeText (hlocators l hl s hs)⟩
  exact fun line hline => newline_not_mem (hprintable line hline)

/-- What is read of the lines of a document. -/
theorem reads_iff {lines : Lines} {size : UInt64} :
    (readHeader lines = some h ∧ readLocators lines size 12 [] = .ok ls) ↔
      lines = documentLines h ls ∧ (∀ s ∈ h.strings, isSafeText s = true) ∧
      (∀ l ∈ ls, ValidLocator size l ∧ ∀ s ∈ l.strings, isSafeText s = true) ∧ Distinct ls := by
  have hlength : (headerLines h).length = 12 := rfl
  have hnil : Distinct [] := ⟨List.nodup_nil, List.nodup_nil⟩
  rw [readHeader_eq_some_iff, standsAt_iff_drop, List.drop_zero, hlength, readLocators_eq_ok_iff hnil, documentLines]
  constructor
  · rintro ⟨⟨hlines, hsafe⟩, found, rfl, ⟨hdrop, hvalid⟩, hdistinct⟩
    rw [hdrop] at hlines
    exact ⟨hlines, hsafe, hvalid, hdistinct⟩
  · rintro ⟨rfl, hsafe, hvalid, hdistinct⟩
    have hdrop : (headerLines h ++ ls.flatMap blockLines).drop 12 = ls.flatMap blockLines := List.drop_left' hlength
    exact ⟨⟨by rw [Nat.zero_add, hdrop], hsafe⟩, ls, rfl, ⟨hdrop, hvalid⟩, hdistinct⟩

private theorem isValidUtf8_render (h : Header) (ls : List Locator) : isValidUtf8 (render h ls) = true ↔
    (∀ s ∈ h.strings, isValidUtf8 s = true) ∧ ∀ l ∈ ls, ∀ s ∈ l.strings, isValidUtf8 s = true := by
  have hnewline : newline ≤ 0x7F := by decide
  rw [← ofStrings_isValidUtf8.documentLines, render, isValidUtf8_lines hnewline, List.all_eq_true]

private theorem getLast_render (h : Header) (ls : List Locator) : (render h ls).getLast? = some newline := by
  rw [render, flatMap_newline (documentLines_ne_nil h ls), List.getLast?_concat]

/-- The only control characters of a rendering are its line ends. -/
theorem mem_render {c : UInt8} (hheader : ∀ s ∈ h.strings, isSafeText s = true)
    (hlocators : ∀ l ∈ ls, ∀ s ∈ l.strings, isSafeText s = true) (hc : c ∈ render h ls) : 0x20 ≤ c ∨ c = newline := by
  have hprintable := (ofStrings_printable.documentLines h ls).mpr
    ⟨fun s hs => printable_of_isSafeText (hheader s hs), fun l hl s hs => printable_of_isSafeText (hlocators l hl s hs)⟩
  obtain ⟨line, hline, hmem⟩ := List.mem_flatMap.mp hc
  rcases List.mem_append.mp hmem with hmem | hmem
  · exact .inl (hprintable line hline c hmem)
  · exact .inr (List.mem_singleton.mp hmem)

private theorem length_documentLines (hne : ls ≠ []) : 20 ≤ (documentLines h ls).length := by
  obtain ⟨l, ls, rfl⟩ := List.exists_cons_of_ne_nil hne
  have hheader : (headerLines h).length = 12 := rfl
  have hidentity : (identityLines l).length = 5 := rfl
  have hresolution : (resolutionLines l).length = 6 := rfl
  rw [documentLines, List.length_append, List.flatMap_cons, List.length_append, blockLines, List.length_append,
    List.length_append, hheader, hidentity, hresolution]
  omega

private theorem IsCanonical.headerSafe (hcan : IsCanonical expected h ls) : ∀ s ∈ h.strings, isSafeText s = true :=
  fun s hs => (hcan.headerText s hs).1

private theorem IsCanonical.locatorSafe (hcan : IsCanonical expected h ls) :
    ∀ l ∈ ls, ∀ s ∈ l.strings, isSafeText s = true :=
  fun l hl s hs => (hcan.locatorText l hl s hs).1

theorem IsCanonical.splitLines (hcan : IsCanonical expected h ls) :
    splitLines (render h ls) = documentLines h ls := splitLines_render hcan.headerSafe hcan.locatorSafe

/-- What is written of a header and its locators is read back. -/
theorem IsCanonical.reads (hcan : IsCanonical expected h ls) :
    readHeader (documentLines h ls) = some h ∧ readLocators (documentLines h ls) expected.size 12 [] = .ok ls :=
  reads_iff.mpr ⟨rfl, hcan.headerSafe, fun l hl => ⟨hcan.locators l hl, hcan.locatorSafe l hl⟩, hcan.distinct⟩

private theorem render_ne_nil (h : Header) (ls : List Locator) : render h ls ≠ [] := by
  have hlast := getLast_render h ls
  intro hnil
  rw [hnil] at hlast
  exact nomatch hlast

/-- No byte that the parser rejects is in a rendering. -/
theorem IsCanonical.not_mem {c : UInt8} (hcan : IsCanonical expected h ls) (hc : c < 0x20) (hne : c ≠ newline) :
    c ∉ render h ls := by
  intro hmem
  rcases mem_render hcan.headerSafe hcan.locatorSafe hmem with hle | heq
  · exact absurd hc (UInt8.not_lt.mpr hle)
  · exact hne heq

theorem IsCanonical.isValidUtf8 (hcan : IsCanonical expected h ls) : isValidUtf8 (render h ls) = true :=
  (isValidUtf8_render h ls).mpr ⟨fun s hs => (hcan.headerText s hs).2, fun l hl s hs => (hcan.locatorText l hl s hs).2⟩

/-- The texts that are accepted are the renderings, those of them that are not too long. -/
theorem parseCanonical_eq_ok_iff {catalog : Catalog} : parseCanonical body expected = .ok catalog ↔
    ∃ h ls, IsCanonical expected h ls ∧ body = render h ls ∧ body.length ≤ kMaximumBodySize ∧
      catalog = ⟨h.component, h.revision, ls⟩ := by
  simp only [parseCanonical, expect_bind_eq_ok_iff, reject_bind_eq_ok_iff, Option.filter_eq_some_iff, matchesModule_iff,
    Bool.and_eq_true, decide_eq_true_eq]
  constructor
  · rintro ⟨⟨⟨-, hsize⟩, hlast⟩, ⟨⟨hutf8, -⟩, -⟩, -, h, ⟨hheader, hmodule⟩, hrest⟩
    cases hlocators : readLocators (splitLines body) expected.size 12 [] with
    | error message =>
      rw [hlocators] at hrest
      exact nomatch hrest
    | ok ls =>
      rw [hlocators] at hrest
      obtain ⟨hne, hcatalog⟩ := expect_bind_eq_ok_iff.mp hrest
      obtain ⟨hlines, hsafe, hvalid, hdistinct⟩ := reads_iff.mp ⟨hheader, hlocators⟩
      have hbody : body = render h ls := by rw [render, ← hlines, flatMap_splitLines hlast]
      rw [hbody, isValidUtf8_render] at hutf8
      refine ⟨h, ls, ⟨hmodule, fun s hs => ⟨hsafe s hs, hutf8.1 s hs⟩, of_decide_eq_true hne, fun l hl => (hvalid l hl).1,
        fun l hl s hs => ⟨(hvalid l hl).2 s hs, hutf8.2 l hl s hs⟩, hdistinct⟩, hbody, hsize, ?_⟩
      exact (Except.ok.inj hcatalog).symm
  · rintro ⟨h, ls, hcan, rfl, hsize, rfl⟩
    rw [hcan.splitLines]
    refine ⟨⟨⟨render_ne_nil h ls, hsize⟩, getLast_render h ls⟩,
      ⟨⟨hcan.isValidUtf8, hcan.not_mem (by decide) (by decide)⟩, hcan.not_mem (by decide) (by decide)⟩,
      length_documentLines hcan.ne_nil, h, ⟨hcan.reads.1, hcan.header⟩, ?_⟩
    rw [hcan.reads.2]
    exact expect_bind_eq_ok_iff.mpr ⟨decide_eq_true hcan.ne_nil, rfl⟩

/-- A text is the rendering of one header and one list of locators at most. -/
theorem render_injective {h' : Header} {ls' : List Locator} (hcan : IsCanonical expected h ls)
    (hcan' : IsCanonical expected h' ls') (heq : render h ls = render h' ls') : h = h' ∧ ls = ls' := by
  have hlines : documentLines h ls = documentLines h' ls' := by rw [← hcan.splitLines, heq, hcan'.splitLines]
  have hread := hcan.reads
  rw [hlines, hcan'.reads.1, hcan'.reads.2] at hread
  exact ⟨(Option.some.inj hread.1).symm, (Except.ok.inj hread.2).symm⟩

theorem accepts_canonical (body : Bytes) (expected : ModuleIdentity) :
    (∀ catalog, parseCanonical body expected = .ok catalog ↔
      ∃ h ls, IsCanonical expected h ls ∧ body = render h ls ∧ body.length ≤ kMaximumBodySize ∧
        catalog = ⟨h.component, h.revision, ls⟩) ∧
    ∀ h ls h' ls', IsCanonical expected h ls → IsCanonical expected h' ls' →
      body = render h ls → body = render h' ls' → h = h' ∧ ls = ls' :=
  ⟨fun _ => parseCanonical_eq_ok_iff, fun _ _ _ _ hcan hcan' hbody hbody' =>
    render_injective hcan hcan' (hbody.symm.trans hbody')⟩

def smallModule : ModuleIdentity :=
  ⟨utf8 "steamclient", utf8 "steamclient.so", List.replicate 64 0x30, 0x1000, utf8 "ab"⟩

def smallHeader : Header :=
  ⟨1, utf8 "linux32", utf8 "steamclient", utf8 "steamclient.so", List.replicate 64 0x30, 0x1000, utf8 "ab", 1,
    List.replicate 40 0x30, 1, 1, utf8 "deterministic"⟩

/-- As many letters as a text may have bytes. -/
def longName : Bytes := List.replicate kMaximumBodySize 0x61

def longLocator : Locator :=
  ⟨utf8 "Patterns::a", longName, 1, none, utf8 "55", utf8 "None", utf8 "direct", true, 1, 1⟩

private theorem isText_longName : IsText longName := by
  constructor
  · rw [isSafeText, Bool.and_eq_true, decide_eq_true_iff, longName, List.all_replicate]
    exact ⟨nofun, rfl⟩
  · apply isValidUtf8_of_ascii
    intro c hc
    rw [List.eq_of_mem_replicate hc]
    decide

private theorem smallHeader_valid : ValidHeader smallModule smallHeader ∧ ∀ s ∈ smallHeader.strings, IsText s := by
  refine ⟨matchesModule_iff.mp (by decide +kernel), ?_⟩
  simp only [IsText]
  decide +kernel

private theorem longLocator_isCanonical : IsCanonical smallModule smallHeader [longLocator] where
  header := smallHeader_valid.1
  headerText := smallHeader_valid.2
  ne_nil := nofun
  locators := by
    intro l hl
    rw [List.mem_singleton.mp hl]
    constructor <;> decide +kernel
  locatorText := by
    intro l hl
    rw [List.mem_singleton.mp hl, Locator.strings, List.forall_mem_cons, List.forall_mem_cons]
    refine ⟨⟨by decide +kernel, by decide +kernel⟩, isText_longName, ?_⟩
    simp only [IsText]
    decide +kernel
  distinct := ⟨List.nodup_singleton _, List.nodup_singleton _⟩

private theorem length_lt_render {line : Bytes} (hline : line ∈ documentLines h ls) :
    line.length < (render h ls).length := by
  have hmem : line ++ [newline] ∈ (documentLines h ls).map (· ++ [newline]) := List.mem_map_of_mem hline
  have hlength := (List.sublist_flatten_of_mem hmem).length_le
  rw [← List.flatMap_def, ← render, List.length_append, List.length_singleton] at hlength
  exact hlength

private theorem length_name_lt_render (hl : l ∈ ls) : l.name.length < (render h ls).length := by
  have hblock : stringText (utf8 "name") l.name ∈ blockLines l :=
    List.mem_append_left _ (.tail _ (.tail _ (.tail _ (.head _))))
  have hlength := length_lt_render (h := h) (List.mem_append_right _ (List.mem_flatMap.mpr ⟨l, hl, hblock⟩))
  rw [stringText, List.length_append, List.length_append, List.length_append] at hlength
  omega

/-- A rendering of a module that is longer than the limit. -/
theorem long_rendering_is_rejected : ¬∀ (body : Bytes) (expected : ModuleIdentity),
    (∃ catalog, parseCanonical body expected = .ok catalog) ↔
      ∃ h ls, IsCanonical expected h ls ∧ body = render h ls := by
  intro hall
  obtain ⟨catalog, hparse⟩ := (hall _ smallModule).mpr ⟨smallHeader, [longLocator], longLocator_isCanonical, rfl⟩
  obtain ⟨h, ls, -, -, hsize, -⟩ := parseCanonical_eq_ok_iff.mp hparse
  have hname : longLocator.name.length = kMaximumBodySize := List.length_replicate
  have hlong := length_name_lt_render (h := smallHeader) (List.mem_singleton_self longLocator)
  omega

end SlsteamMoon.PatternCatalog
