import SlsteamMoon.DlcMetadata.Cache
import SlsteamMoon.TextSearch

/-! The install directory that is derived from an app's name: when it is one safe path component. -/
namespace SlsteamMoon.ManifestSynth
open KeyValues ProvisionCache DlcMetadata TextSearch

def space : UInt8 := 0x20
def dot : UInt8 := 0x2e

/-- What the sanitiser takes out: control bytes below the space, separators and reserved characters. -/
def isBad (c : UInt8) : Bool :=
  c < 0x20 || c == 0x2f || c == 0x5c || c == 0x3a || c == 0x2a || c == 0x3f || c == 0x22 || c == 0x3c || c == 0x3e ||
    c == 0x7c

def isGap (c : UInt8) : Bool := isBad c || c == space

/-- The loop over the name, with its pending space and its output. -/
def sanitize : Bytes → Bool → Bytes → Bytes
  | [], _, out => out
  | c :: cs, pendingSpace, out =>
    if isGap c then sanitize cs (pendingSpace || !out.isEmpty) out
    else if pendingSpace then sanitize cs false (out ++ [space, c])
    else sanitize cs false (out ++ [c])

/-- node[key] = value in a map. -/
def assignNode (key : Bytes) (value : Node) : Entries → Entries
  | .nil => .cons key value .nil
  | .cons other held rest => if other = key then .cons key value rest else .cons other held (assignNode key value rest)

/-- The elements of a sequence that becomes a map, keyed by their places. -/
def itemsToMap (idx : Nat) : Items → Entries
  | .nil => .nil
  | .cons child rest => .cons (toDecimal idx) child (itemsToMap (idx + 1) rest)

/-- What node[key] makes of a node that it may insert into; none is the exception for a scalar. -/
def convertToMap : Option Node → Option Entries
  | none | some .null => some .nil
  | some (.map entries) => some entries
  | some (.sequence items) => some (itemsToMap 0 items)
  | some (.scalar _) => none

/-- A config.installdir that is a scalar other than the empty string. -/
def hasInstallDir (body : Entries) : Bool :=
  match subnode (utf8 "config") body with
  | some (.map cfg) =>
    match subnode (utf8 "installdir") cfg with
    | some (.scalar dir) => dir ≠ []
    | _ => false
  | _ => false

/-- common.name, when it is a scalar. -/
def commonName (body : Entries) : Option Bytes :=
  match subnode (utf8 "common") body with
  | some (.map common) =>
    match subnode (utf8 "name") common with
    | some (.scalar name) => some name
    | _ => none
  | _ => none

/-- Did it write, and the body; none is an exception. -/
def ensureInstallDir (body : Node) : Option (Bool × Node) :=
  match body with
  | .map entries =>
    if hasInstallDir entries then some (false, body)
    else
      match commonName entries with
      | none => some (false, body)
      | some raw =>
        let out := sanitize raw false []
        if out = [] then some (false, body)
        else (convertToMap (subnode (utf8 "config") entries)).map fun cfg =>
          (true, .map (assignNode (utf8 "config") (.map (assignNode (utf8 "installdir") (.scalar out) cfg)) entries))
  | _ => some (false, body)

/-- config.installdir. -/
def installDir : Node → Option Bytes
  | .map entries =>
    match subnode (utf8 "config") entries with
    | some (.map cfg) =>
      match subnode (utf8 "installdir") cfg with
      | some (.scalar dir) => some dir
      | _ => none
    | _ => none
  | _ => none

/-- One path component: no separator, control or reserved character, no space at an end or doubled, and neither the
directory itself nor its parent. -/
structure SafeComponent (dir : Bytes) : Prop where
  nonempty : dir ≠ []
  plain : ∀ c ∈ dir, isBad c = false ∧ c ≠ 0x7f
  leading : dir.head? ≠ some space
  trailing : dir.getLast? ≠ some space
  doubled : ¬[space, space] <:+: dir
  notSelf : dir ≠ [dot]
  notParent : dir ≠ [dot, dot]

/-- The words of a name, which bad characters and spaces set apart. -/
def words (name : Bytes) : List Bytes := (name.splitOnP isGap).filter (· ≠ [])

/-- Each word behind a space of its own. -/
def spaced (words : List Bytes) : Bytes := words.flatMap (space :: ·)

private theorem exists_splitOnP (name : Bytes) : ∃ w ws, name.splitOnP isGap = w :: ws :=
  List.exists_cons_of_ne_nil (List.splitOnP_ne_nil isGap name)

/-- What the loop adds to an output that has begun: the rest of its word, when no space is pending, and the other words. -/
theorem sanitize_begun (name : Bytes) {out : Bytes} (hout : out ≠ []) {w : Bytes} {ws : List Bytes}
    (hsplit : name.splitOnP isGap = w :: ws) :
    sanitize name false out = out ++ (w ++ spaced (ws.filter (· ≠ []))) ∧
      sanitize name true out = out ++ spaced ((w :: ws).filter (· ≠ [])) := by
  induction name generalizing out w ws with
  | nil =>
    rw [List.splitOnP_nil] at hsplit
    obtain ⟨rfl, rfl⟩ := List.cons.inj hsplit
    simp [sanitize, spaced]
  | cons c name ih =>
    obtain ⟨v, vs, hrest⟩ := exists_splitOnP name
    rw [List.splitOnP_cons_eq_if_modifyHead, hrest] at hsplit
    cases hgap : isGap c with
    | true =>
      rw [if_pos hgap] at hsplit
      obtain ⟨rfl, rfl⟩ := List.cons.inj hsplit
      have hbegun : (!out.isEmpty) = true := by simpa using hout
      simp only [sanitize, hgap, if_true, hbegun, Bool.or_true, (ih hout hrest).2]
      simp
    | false =>
      rw [if_neg (by rw [hgap]; decide), List.modifyHead_cons] at hsplit
      obtain ⟨rfl, rfl⟩ := List.cons.inj hsplit
      have hc := (@ih (out ++ [c]) (by simp) v vs hrest).1
      have hspace := (@ih (out ++ [space, c]) (by simp) v vs hrest).1
      simp only [sanitize, hgap, Bool.false_eq_true, if_false, if_true, hc, hspace]
      simp [spaced]

private theorem intercalate_cons (w : Bytes) (ws : List Bytes) : [space].intercalate (w :: ws) = w ++ spaced ws := by
  induction ws generalizing w with
  | nil => simp [spaced]
  | cons v ws ih =>
    rw [List.intercalate_cons_cons, ih]
    simp [spaced]

/-- The sanitised name is its words with one space between two. -/
theorem sanitize_eq (name : Bytes) : sanitize name false [] = [space].intercalate (words name) := by
  induction name with
  | nil => decide
  | cons c name ih =>
    obtain ⟨v, vs, hrest⟩ := exists_splitOnP name
    cases hgap : isGap c with
    | true =>
      have hwords : words (c :: name) = words name := by
        simp [words, List.splitOnP_cons_eq_if_modifyHead, hgap]
      rw [sanitize, if_pos hgap, hwords]
      exact ih
    | false =>
      have hwords : words (c :: name) = (c :: v) :: vs.filter (· ≠ []) := by
        simp [words, List.splitOnP_cons_eq_if_modifyHead, hgap, hrest]
      rw [sanitize, if_neg (by rw [hgap]; decide), if_neg Bool.false_ne_true, hwords,
        (sanitize_begun name (List.append_ne_nil_of_right_ne_nil [] (List.cons_ne_nil c [])) hrest).1]
      rw [intercalate_cons]
      rfl

private theorem mem_words {name w : Bytes} (h : w ∈ words name) : w ≠ [] ∧ ∀ c ∈ w, isGap c = false := by
  obtain ⟨hmem, hne⟩ := List.mem_filter.mp h
  exact ⟨of_decide_eq_true hne, free_of_mem_splitOnP hmem⟩

private theorem space_isGap : isGap space = true := by decide

private theorem delete_not_isGap : isGap 0x7f = false := by decide

/-- The spaces of a sanitised name are those between its words. -/
theorem splitOn_sanitize {name : Bytes} (h : words name ≠ []) : (sanitize name false []).splitOn space = words name := by
  rw [sanitize_eq, List.splitOn_intercalate space ?_ h]
  intro w hw hspace
  exact absurd space_isGap (by rw [(mem_words hw).2 space hspace]; decide)

private theorem mem_sanitize {name : Bytes} {c : UInt8} (h : c ∈ sanitize name false []) :
    c = space ∨ ∃ w ∈ words name, c ∈ w := by
  rw [sanitize_eq] at h
  cases hwords : words name with
  | nil =>
    rw [hwords] at h
    cases h
  | cons w ws =>
    rw [hwords, intercalate_cons, List.mem_append, spaced, List.mem_flatMap] at h
    obtain h | ⟨v, hv, h⟩ := h
    · exact .inr ⟨w, List.mem_cons_self, h⟩
    · obtain rfl | h := List.mem_cons.mp h
      · exact .inl rfl
      · exact .inr ⟨v, List.mem_cons_of_mem w hv, h⟩

private theorem sanitize_mem {name w : Bytes} (hw : w ∈ words name) : w <:+: sanitize name false [] := by
  rw [sanitize_eq]
  obtain ⟨before, after, hwords⟩ := List.append_of_mem hw
  rw [hwords]
  cases before with
  | nil => exact ⟨[], spaced after, by rw [List.nil_append, List.nil_append, intercalate_cons]⟩
  | cons v before =>
    refine ⟨v ++ (spaced before ++ [space]), spaced after, ?_⟩
    rw [List.cons_append, intercalate_cons]
    simp [spaced]

/-- No word is empty, so that no two spaces meet and none stands at an end. -/
theorem no_stray_space {name before after : Bytes} (h : sanitize name false [] = before ++ space :: after)
    (hends : before = [] ∨ after = [] ∨ after.head? = some space) : False := by
  by_cases hwords : words name = []
  · rw [sanitize_eq, hwords] at h
    exact absurd h.symm (List.append_ne_nil_of_right_ne_nil before (List.cons_ne_nil space after))
  · have hsplit := splitOn_sanitize hwords
    have hself : (space == space) = true := by decide
    rw [h, List.splitOn_eq_splitOnP, List.splitOnP_append_cons (p := (· == space)) before after hself] at hsplit
    have hempty : [] ∈ words name := by
      rw [← hsplit]
      obtain rfl | rfl | hhead := hends
      · exact List.mem_append_left _ (by rw [List.splitOnP_nil]; exact List.mem_cons_self)
      · exact List.mem_append_right _ (by rw [List.splitOnP_nil]; exact List.mem_cons_self)
      · obtain ⟨rest, rfl⟩ := List.head?_eq_some_iff.mp hhead
        apply List.mem_append_right
        rw [List.splitOnP_cons_eq_if_modifyHead, if_pos hself]
        exact List.mem_cons_self
    exact (mem_words hempty).1 rfl

/-- The sanitised name is one word that has no space just when the name has no other word. -/
theorem sanitize_eq_word {name w : Bytes} (hne : w ≠ []) (hspace : space ∉ w) :
    sanitize name false [] = w ↔ words name = [w] := by
  constructor
  · intro h
    by_cases hwords : words name = []
    · rw [sanitize_eq, hwords] at h
      exact absurd h.symm hne
    · rw [← splitOn_sanitize hwords, h, List.splitOn_eq_splitOnP]
      apply List.splitOnP_eq_singleton
      intro c hc
      rw [beq_eq_false_iff_ne]
      rintro rfl
      exact hspace hc
  · intro h
    rw [sanitize_eq, h, List.intercalate_singleton]

/-- What the sanitiser leaves for the name to decide. -/
structure SafeName (name : Bytes) : Prop where
  noDelete : 0x7f ∉ name
  notSelf : words name ≠ [[dot]]
  notParent : words name ≠ [[dot, dot]]

private theorem sanitize_safe_iff {name : Bytes} (hne : sanitize name false [] ≠ []) :
    SafeComponent (sanitize name false []) ↔ SafeName name := by
  have hself : sanitize name false [] = [dot] ↔ words name = [[dot]] := sanitize_eq_word (by decide) (by decide)
  have hparent : sanitize name false [] = [dot, dot] ↔ words name = [[dot, dot]] :=
    sanitize_eq_word (by decide) (by decide)
  constructor
  · intro h
    refine ⟨fun hdelete => ?_, fun heq => h.notSelf (hself.mpr heq), fun heq => h.notParent (hparent.mpr heq)⟩
    obtain ⟨w, hw, hmem⟩ := (exists_mem_splitOnP_iff delete_not_isGap).mpr hdelete
    have hwords : w ∈ words name := List.mem_filter.mpr ⟨hw, decide_eq_true (List.ne_nil_of_mem hmem)⟩
    exact (h.plain 0x7f ((sanitize_mem hwords).subset hmem)).2 rfl
  · intro h
    refine ⟨hne, ?_, ?_, ?_, ?_, fun heq => h.notSelf (hself.mp heq), fun heq => h.notParent (hparent.mp heq)⟩
    · intro c hc
      obtain rfl | ⟨w, hw, hcw⟩ := mem_sanitize hc
      · decide
      · have hgap := (mem_words hw).2 c hcw
        refine ⟨(Bool.or_eq_false_iff.mp hgap).1, ?_⟩
        rintro rfl
        exact h.noDelete ((exists_mem_splitOnP_iff hgap).mp ⟨w, (List.mem_filter.mp hw).1, hcw⟩)
    · intro hhead
      obtain ⟨rest, hrest⟩ := List.head?_eq_some_iff.mp hhead
      exact @no_stray_space name [] rest hrest (.inl rfl)
    · intro hlast
      obtain ⟨front, hfront⟩ := List.getLast?_eq_some_iff.mp hlast
      exact no_stray_space hfront (.inr (.inl rfl))
    · rintro ⟨before, after, hinfix⟩
      have hsplit : sanitize name false [] = before ++ space :: (space :: after) := by rw [← hinfix]; simp
      exact no_stray_space hsplit (.inr (.inr rfl))

private theorem safeName_of_empty {name : Bytes} (h : sanitize name false [] = []) : SafeName name := by
  have hwords : words name = [] := by
    by_contra hne
    have hsplit := splitOn_sanitize hne
    rw [h] at hsplit
    have hempty : [] ∈ words name := by
      rw [← hsplit]
      exact List.mem_cons_self
    exact (mem_words hempty).1 rfl
  refine ⟨fun hdelete => ?_, by rw [hwords]; decide, by rw [hwords]; decide⟩
  obtain ⟨w, hw, hmem⟩ := (exists_mem_splitOnP_iff delete_not_isGap).mpr hdelete
  have hmem' : w ∈ words name := List.mem_filter.mpr ⟨hw, decide_eq_true (List.ne_nil_of_mem hmem)⟩
  rw [hwords] at hmem'
  cases hmem'

@[simp] theorem subnode_assignNode (key : Bytes) (value : Node) (entries : Entries) :
    subnode key (assignNode key value entries) = some value := by
  induction entries using assignNode.induct key with
  | case1 => exact if_pos rfl
  | case2 held rest => rw [assignNode, if_pos rfl, subnode, if_pos rfl]
  | case3 other held rest hne ih => rw [assignNode, if_neg hne, subnode, if_neg hne, ih]

/-- What the body holds after a write. -/
theorem ensureInstallDir_writes {body : Entries} {name : Bytes} {body' : Node} (hname : commonName body = some name)
    (h : ensureInstallDir (.map body) = some (true, body')) :
    sanitize name false [] ≠ [] ∧ installDir body' = some (sanitize name false []) := by
  simp only [ensureInstallDir, hname] at h
  split_ifs at h with hheld hempty
  · cases (Prod.mk.inj (Option.some.inj h)).1
  · cases (Prod.mk.inj (Option.some.inj h)).1
  · obtain ⟨cfg, -, hbody⟩ := Option.map_eq_some_iff.mp h
    obtain ⟨-, rfl⟩ := Prod.mk.inj hbody
    exact ⟨hempty, by simp [installDir]⟩

/-- A body that has a name and nothing else. -/
def namedBody (name : Bytes) : Entries := .cons (utf8 "common") (.map (.cons (utf8 "name") (.scalar name) .nil)) .nil

private theorem namedBody_writes {name : Bytes} (hne : sanitize name false [] ≠ []) :
    commonName (namedBody name) = some name ∧ ∃ body', ensureInstallDir (.map (namedBody name)) = some (true, body') := by
  have hother : utf8 "common" ≠ utf8 "config" := by decide +kernel
  have hname : commonName (namedBody name) = some name := by simp [commonName, namedBody, subnode]
  have hconfig : subnode (utf8 "config") (namedBody name) = none := by simp [namedBody, subnode, hother]
  refine ⟨hname, ?_⟩
  simp only [ensureInstallDir, hasInstallDir, hconfig, hname, hne, Bool.false_eq_true, if_false, convertToMap,
    Option.map_some, Option.some.injEq, Prod.mk.injEq, true_and]
  exact ⟨_, rfl⟩

/-- The directory that is written for a name is one safe path component just when the name has no delete byte and is
not, but for what is taken out, the directory itself or its parent. -/
theorem installdir_safe_iff (name : Bytes) :
    (∀ body body', commonName body = some name → ensureInstallDir (.map body) = some (true, body') →
      ∃ dir, installDir body' = some dir ∧ SafeComponent dir) ↔ SafeName name := by
  constructor
  · intro h
    by_cases hempty : sanitize name false [] = []
    · exact safeName_of_empty hempty
    · obtain ⟨hname, body', hwrites⟩ := namedBody_writes hempty
      obtain ⟨dir, hdir, hsafe⟩ := h (namedBody name) body' hname hwrites
      rw [(ensureInstallDir_writes hname hwrites).2] at hdir
      obtain rfl := Option.some.inj hdir
      exact (sanitize_safe_iff hempty).mp hsafe
  · intro h body body' hname hwrites
    obtain ⟨hne, hdir⟩ := ensureInstallDir_writes hname hwrites
    exact ⟨_, hdir, (sanitize_safe_iff hne).mpr h⟩

/-- A name of two dots becomes the parent directory. -/
theorem parent_directory_written :
    (ensureInstallDir (.map (namedBody (utf8 "..")))).map (fun r => (r.1, installDir r.2)) =
        some (true, some (utf8 "..")) ∧
      ¬SafeComponent (utf8 "..") := by
  have hname : utf8 ".." = [dot, dot] := by decide +kernel
  refine ⟨by decide +kernel, fun h => h.notParent hname⟩

end SlsteamMoon.ManifestSynth
