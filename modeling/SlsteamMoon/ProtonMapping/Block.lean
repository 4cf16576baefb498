import SlsteamMoon.ProtonMapping.Turns
import Mathlib.Data.List.Count

/-! What an insertion behind the brace does to the tree: when every app has one entry in the mapping
object, and nothing else has changed. -/
namespace SlsteamMoon.ProtonMapping
open KeyValues ProvisionCache TextSearch

def steamPath : List Bytes := [utf8 "InstallConfigStore", utf8 "Software", utf8 "Valve", utf8 "Steam"]
def mappingPath : List Bytes := steamPath ++ [mappingName]

def idKey (appId : UInt32) : Bytes := toDecimal appId.toNat

/-- The keys of the mapping object. -/
def mappedKeys (tree : Pairs) : List Bytes := ((tree.objectAt mappingPath).map Pairs.keys).getD []

/-- `new` is `old` with entries for apps of the set that had none, one for each, and has every app. -/
structure Gained (need : AppSet) (old new : Pairs) : Prop where
  fresh : ∃ keys : List Bytes, new.without keys = old ∧
    ∀ key ∈ keys, key ∉ old.keys ∧ new.keys.count key = 1 ∧ ∃ a ∈ need.ids, key = idKey a
  complete : ∀ a ∈ need.ids, idKey a ∈ new.keys

/-- The tree but for the mapping object, which is complete or gains what it lacks. -/
inductive Mapped (need : AppSet) (tree : Pairs) : Pairs → Prop
  | kept (had : ∀ a ∈ need.ids, idKey a ∈ mappedKeys tree) : Mapped need tree tree
  | gained {old new : Pairs} (found : tree.objectAt mappingPath = some old) (entries : Gained need old new) :
      Mapped need tree (tree.withObject mappingPath new)
  | created {before after new : Pairs} (absent : tree.objectAt mappingPath = none)
      (steam : tree.objectAt steamPath = some (before.append after)) (entries : Gained need .nil new) :
      Mapped need tree (tree.withObject steamPath (before.append (.node mappingName new after)))

/-- The tree with entries put into its mapping object, or into one of its own. -/
inductive Grown (tree entries : Pairs) : Pairs → Prop
  | existing {before after : Pairs} (found : tree.objectAt mappingPath = some (before.append after)) :
      Grown tree entries (tree.withObject mappingPath (before.append (entries.append after)))
  | fresh {before after : Pairs} (absent : tree.objectAt mappingPath = none)
      (steam : tree.objectAt steamPath = some (before.append after)) :
      Grown tree entries (tree.withObject steamPath (before.append (.node mappingName entries after)))

private theorem objectAt_mappingPath {tree steam : Pairs} (h : tree.objectAt steamPath = some steam) :
    tree.objectAt mappingPath = steam.child mappingName := by
  rw [mappingPath, Pairs.objectAt_append, h, Option.bind_some, Pairs.objectAt]
  cases steam.child mappingName <;> rfl

section
variable {tree before after new : Pairs}

/-- A node that is put into the Steam object is the mapping object, when there was none. -/
theorem objectAt_created (absent : tree.objectAt mappingPath = none)
    (steam : tree.objectAt steamPath = some (before.append after)) :
    (tree.withObject steamPath (before.append (.node mappingName new after))).objectAt mappingPath = some new := by
  have hbefore : before.child mappingName = none := by
    rw [objectAt_mappingPath steam, Pairs.child_append, Option.or_eq_none_iff] at absent
    exact absent.1
  rw [objectAt_mappingPath (Pairs.objectAt_withObject steam _), Pairs.child_append, hbefore, Option.none_or, Pairs.child,
    if_pos rfl]

/-- Entries put into the object are counted with those it has. -/
theorem Grown.count {entries tree' : Pairs} (h : Grown tree entries tree') (key : Bytes) :
    (mappedKeys tree').count key = entries.keys.count key + (mappedKeys tree).count key := by
  cases h with
  | existing found =>
    rw [mappedKeys, mappedKeys, Pairs.objectAt_withObject found, found, Option.map_some, Option.map_some, Option.getD_some,
      Option.getD_some, Pairs.keys_append, Pairs.keys_append, Pairs.keys_append]
    simp only [List.count_append]
    omega
  | fresh absent steam =>
    rw [mappedKeys, mappedKeys, objectAt_created absent steam, absent]
    rfl

end

/-- The mapped object has every app, and no second entry of an app that it had. -/
theorem Mapped.count {need : AppSet} {tree tree' : Pairs} (h : Mapped need tree tree') {a : UInt32} (ha : a ∈ need.ids) :
    idKey a ∈ mappedKeys tree' ∧
      (idKey a ∈ mappedKeys tree → (mappedKeys tree').count (idKey a) = (mappedKeys tree).count (idKey a)) := by
  cases h with
  | kept had => exact ⟨had a ha, fun _ => rfl⟩
  | gained found entries =>
    obtain ⟨keys, hold, hkeys⟩ := entries.fresh
    rw [mappedKeys, mappedKeys, Pairs.objectAt_withObject found, found]
    refine ⟨entries.complete a ha, fun hmem => ?_⟩
    have hnot : idKey a ∉ keys := fun hin => (hkeys (idKey a) hin).1 hmem
    show List.count (idKey a) _ = List.count (idKey a) _
    rw [Option.map_some, Option.map_some, Option.getD_some, Option.getD_some, ← hold, Pairs.keys_without,
      List.count_filter (by simpa using hnot)]
  | created absent steam entries =>
    rw [mappedKeys, mappedKeys, objectAt_created absent steam, absent]
    exact ⟨entries.complete a ha, fun hmem => absurd hmem List.not_mem_nil⟩

/-- The entries for the apps. -/
def entryPairs (tool : Bytes) : List UInt32 → Pairs
  | [] => .nil
  | appId :: added =>
    .node (idKey appId)
      (.leaf (utf8 "name") tool (.leaf (utf8 "config") [] (.leaf (utf8 "priority") (utf8 "250") .nil)))
      (entryPairs tool added)

private theorem keys_entryPairs (tool : Bytes) (added : List UInt32) :
    (entryPairs tool added).keys = added.map idKey := by
  induction added with
  | nil => rfl
  | cons appId added ih => rw [entryPairs, Pairs.keys, ih, List.map_cons]

private theorem idKey_injective : Function.Injective idKey := fun _ _ h => UInt32.toNat_inj.mp (toDecimal_injective h)

private theorem count_entryPairs (tool : Bytes) {added : List UInt32} (h : added.Nodup) (a : UInt32) :
    (entryPairs tool added).keys.count (idKey a) = if a ∈ added then 1 else 0 := by
  rw [keys_entryPairs, List.count_map_of_injective added idKey idKey_injective, h.count]

/-- Entries for the right apps are what the mapping object is to gain. -/
theorem gained_of_added {need : AppSet} {tool : Bytes} {added : List UInt32} {before after : Pairs} (h : added.Nodup)
    (hadded : ∀ a ∈ need.ids, a ∈ added ↔ idKey a ∉ (before.append after).keys) (hneed : ∀ a ∈ added, a ∈ need.ids) :
    Gained need (before.append after) (before.append ((entryPairs tool added).append after)) := by
  have hfresh : ∀ key ∈ added.map idKey, key ∉ (before.append after).keys := by
    intro key hkey
    obtain ⟨a, ha, rfl⟩ := List.mem_map.mp hkey
    exact (hadded a (hneed a ha)).mp ha
  have hold : ∀ key ∈ (before.append after).keys, key ∉ added.map idKey := fun key hkey hin => hfresh key hin hkey
  rw [Pairs.keys_append] at hold
  have hkeys : (before.append ((entryPairs tool added).append after)).keys =
      before.keys ++ (added.map idKey ++ after.keys) := by
    rw [Pairs.keys_append, Pairs.keys_append, keys_entryPairs]
  refine ⟨⟨added.map idKey, ?_, ?_⟩, ?_⟩
  · rw [Pairs.without_append, Pairs.without_append,
      Pairs.without_of_forall_not_mem fun key hkey => hold key (List.mem_append_left _ hkey),
      Pairs.without_of_forall_not_mem fun key hkey => hold key (List.mem_append_right _ hkey),
      Pairs.without_of_forall_mem fun key hkey => by rwa [keys_entryPairs] at hkey]
    rfl
  · intro key hkey
    obtain ⟨a, ha, rfl⟩ := List.mem_map.mp hkey
    have hnew := hfresh (idKey a) hkey
    have hcount := count_entryPairs tool h a
    rw [keys_entryPairs, if_pos ha] at hcount
    rw [Pairs.keys_append, List.mem_append, not_or] at hnew
    refine ⟨hfresh (idKey a) hkey, ?_, a, hneed a ha, rfl⟩
    rw [hkeys, List.count_append, List.count_append, hcount, List.count_eq_zero.mpr hnew.1, List.count_eq_zero.mpr hnew.2]
  · intro a ha
    rw [hkeys, List.mem_append, List.mem_append]
    by_cases hin : a ∈ added
    · exact .inr (.inl (List.mem_map_of_mem hin))
    · have hhad : idKey a ∈ (before.append after).keys := not_not.mp fun hnot => hin ((hadded a ha).mpr hnot)
      rw [Pairs.keys_append, List.mem_append] at hhad
      exact hhad.imp_right .inr

/-- Which apps get an entry decides whether the grown tree is the one that is wanted. -/
theorem Grown.mapped_iff {need : AppSet} {tool : Bytes} {added : List UInt32} {tree tree' : Pairs}
    (h : Grown tree (entryPairs tool added) tree') (hnodup : added.Nodup) (hneed : ∀ a ∈ added, a ∈ need.ids) :
    Mapped need tree tree' ↔ ∀ a ∈ need.ids, a ∈ added ↔ idKey a ∉ mappedKeys tree := by
  constructor
  · intro hmapped a ha
    obtain ⟨hall, honce⟩ := hmapped.count ha
    have hcount := h.count (idKey a)
    rw [count_entryPairs tool hnodup] at hcount
    have hpos := List.count_pos_iff.mpr hall
    by_cases hin : a ∈ added
    · rw [if_pos hin] at hcount
      refine iff_of_true hin fun hmem => ?_
      have hsame := honce hmem
      omega
    · rw [if_neg hin] at hcount
      refine iff_of_false hin (not_not.mpr ?_)
      exact List.count_pos_iff.mp (by omega)
  · intro hadded
    cases h with
    | existing found =>
      refine .gained found (gained_of_added hnodup (fun a ha => ?_) hneed)
      rw [hadded a ha, mappedKeys, found]
      rfl
    | fresh absent steam =>
      refine .created absent steam ?_
      have hgained : Gained need .nil ((entryPairs tool added).append .nil) :=
        @gained_of_added need tool added .nil .nil hnodup (fun a ha => by rw [hadded a ha, mappedKeys, absent]; rfl) hneed
      rwa [Pairs.append_nil] at hgained

/-- A quoted string behind white space. -/
def spelled (ws body : Bytes) : Bytes := ws ++ quote :: (body ++ [quote])

private theorem entryText_eq (tool : Bytes) (appId : UInt32) :
    entryText tool appId =
      spelled (utf8 "\n\t\t\t\t\t\t") (idKey appId) ++ (utf8 "\n\t\t\t\t\t\t" ++ [lbrace] ++
        (spelled (utf8 "\n\t\t\t\t\t\t\t") (utf8 "name") ++ (spelled (utf8 "\t\t") tool ++
          (spelled (utf8 "\n\t\t\t\t\t\t\t") (utf8 "config") ++ (spelled (utf8 "\t\t") [] ++
            (spelled (utf8 "\n\t\t\t\t\t\t\t") (utf8 "priority") ++ (spelled (utf8 "\t\t") (utf8 "250") ++
              (utf8 "\n\t\t\t\t\t\t" ++ [rbrace])))))))) := by
  have hhead : utf8 "\n" ++ utf8 "\t\t\t\t\t\t\x7b\n\t\t\t\t\t\t\t\"name\"\t\t\"" =
      utf8 "\n\t\t\t\t\t\t" ++ [lbrace] ++ (spelled (utf8 "\n\t\t\t\t\t\t\t") (utf8 "name") ++ (utf8 "\t\t" ++ [quote])) := by
    decide +kernel
  have htail : utf8 "\"\n\t\t\t\t\t\t\t\"config\"\t\t\"\"\n\t\t\t\t\t\t\t\"priority\"\t\t\"250\"\n\t\t\t\t\t\t\x7d" =
      [quote] ++ (spelled (utf8 "\n\t\t\t\t\t\t\t") (utf8 "config") ++ (spelled (utf8 "\t\t") [] ++
        (spelled (utf8 "\n\t\t\t\t\t\t\t") (utf8 "priority") ++ (spelled (utf8 "\t\t") (utf8 "250") ++
          (utf8 "\n\t\t\t\t\t\t" ++ [rbrace]))))) := by
    decide +kernel
  rw [entryText, entryLines, htail, List.append_assoc, ← List.append_assoc (utf8 "\n"),
    ← List.append_assoc (utf8 "\n"), hhead]
  simp only [spelled, quotedId, idKey, List.append_assoc, List.cons_append, List.nil_append]

private theorem prints_entryText {tool value : Bytes} (h : Escaped tool value) (appId : UInt32) :
    Prints (entryText tool appId) (entryPairs value [appId]).tokens := by
  have hdigits : (idKey appId).all (fun c => c != quote && c != backslash) = true := by
    refine List.all_eq_true.mpr fun c hc => ?_
    have hdigit := List.all_eq_true.mp (toDecimal_all_isDigit appId.toNat) c hc
    have hquote : c ≠ quote := by
      rintro rfl
      exact absurd hdigit (by decide)
    have hslash : c ≠ backslash := by
      rintro rfl
      exact absurd hdigit (by decide)
    simp [hquote, hslash]
  have hline : Blank (utf8 "\n\t\t\t\t\t\t") := blank_of_all (by decide +kernel)
  have hdeep : Blank (utf8 "\n\t\t\t\t\t\t\t") := blank_of_all (by decide +kernel)
  have htabs : Blank (utf8 "\t\t") := blank_of_all (by decide +kernel)
  rw [entryText_eq]
  exact (prints_quoted hline (escaped_self hdigits)).append ((prints_openBrace hline).append
    ((prints_quoted hdeep (escaped_self (by decide +kernel))).append ((prints_quoted htabs h).append
      ((prints_quoted hdeep (escaped_self (by decide +kernel))).append ((prints_quoted htabs .nil).append
        ((prints_quoted hdeep (escaped_self (by decide +kernel))).append
          ((prints_quoted htabs (escaped_self (by decide +kernel))).append (prints_closeBrace hline))))))))

private theorem prints_entries {tool value : Bytes} (h : Escaped tool value) (added : List UInt32) :
    Prints (entries tool added) (entryPairs value added).tokens := by
  induction added with
  | nil => exact prints_nil
  | cons appId added ih => exact (prints_entryText h appId).append ih

end SlsteamMoon.ProtonMapping

/-! When the insertion into the text of config.vdf is an insertion into its mapping object. -/
namespace SlsteamMoon.ProtonMapping
open KeyValues ProvisionCache TextSearch

/-- The text up to the brace behind which entries are put, and the text behind it. -/
def aroundBrace (content : Bytes) : Bytes × Bytes :=
  match anchorBrace content with
  | none => (content, [])
  | some brace => (content.take (brace + 1), content.drop (brace + 1))

/-- The app is passed over. -/
def Seen (need : AppSet) (content : Bytes) (appId : UInt32) : Prop :=
  SeenIn need.ids (aroundBrace content).2 (toolFor content) appId

instance (need : AppSet) (content : Bytes) (appId : UInt32) : Decidable (Seen need content appId) :=
  inferInstanceAs (Decidable (SeenIn _ _ _ _))

/-- The brace belongs to the mapping object, or to a Steam object without one: around it stand the
tokens before and behind a place inside that object. -/
inductive WellPlaced (content : Bytes) (tree : Pairs) : Prop
  | existing {before after : Pairs} (anchored : mappingWord <:+: content)
      (found : tree.objectAt mappingPath = some (before.append after))
      (gap : Gap (aroundBrace content).1 (aroundBrace content).2 (tree.front mappingPath ++ before.tokens)
        (after.tokens ++ tree.back mappingPath))
  | fresh {before after : Pairs} (missing : ¬mappingWord <:+: content) (absent : tree.objectAt mappingPath = none)
      (steam : tree.objectAt steamPath = some (before.append after))
      (gap : Gap (aroundBrace content).1 (aroundBrace content).2 (tree.front steamPath ++ before.tokens)
        (after.tokens ++ tree.back steamPath))

private theorem tokens_entryPairs_ne_nil (tool : Bytes) {added : List UInt32} (h : added ≠ []) :
    (entryPairs tool added).tokens ≠ [] := by
  obtain ⟨appId, rest, rfl⟩ := List.exists_cons_of_ne_nil h
  exact List.cons_ne_nil _ _

/-- A fresh block reads as the mapping object with the entries. -/
theorem prints_block {tool value : Bytes} (hvalue : Escaped tool value) (added : List UInt32) :
    Prints (blockHead ++ lbrace :: (entries tool added ++ blockTail))
      (Pairs.node mappingName (entryPairs value added) .nil).tokens := by
  have hwhite : Blank (utf8 "\n\t\t\t\t\t") := blank_of_all (by decide +kernel)
  have hhead : blockHead = spelled (utf8 "\n\t\t\t\t\t") mappingName ++ utf8 "\n\t\t\t\t\t" := by decide +kernel
  have htail : blockTail = utf8 "\n\t\t\t\t\t" ++ [rbrace] := by decide +kernel
  have hname : Escaped mappingName mappingName := escaped_self (by decide +kernel)
  have hall := (prints_quoted hwhite hname).append
    ((prints_openBrace hwhite).append ((prints_entries hvalue added).append (prints_closeBrace hwhite)))
  rw [hhead, htail, List.append_assoc, spelled]
  rw [List.append_assoc (utf8 "\n\t\t\t\t\t") [lbrace]] at hall
  exact hall

/-- An insertion at the right place grows the tree by its entries. -/
theorem WellPlaced.document {content tool value : Bytes} {tree : Pairs} {added : List UInt32} (h : WellPlaced content tree)
    (hvalue : Escaped tool value) (hne : added ≠ []) :
    ∃ tree', Document ((aroundBrace content).1 ++ (insertion content tool added ++ (aroundBrace content).2)) tree' ∧
      Grown tree (entryPairs value added) tree' := by
  cases h with
  | existing anchored found gap =>
    refine ⟨_, ?_, .existing found⟩
    have hprints := prints_entries hvalue added
    obtain ⟨text, htext⟩ : ∃ text, entries tool added = newline :: text := by
      obtain ⟨appId, rest, rfl⟩ := List.exists_cons_of_ne_nil hne
      exact ⟨_, rfl⟩
    rw [htext] at hprints
    rw [insertion, if_pos anchored, htext]
    exact gap.document found (tokens_entryPairs_ne_nil value hne) hprints
  | fresh missing absent steam gap =>
    refine ⟨_, ?_, .fresh absent steam⟩
    have hprints := prints_block hvalue added
    obtain ⟨text, htext⟩ : ∃ text, blockHead = newline :: text :=
      ⟨utf8 "\t\t\t\t\t\"CompatToolMapping\"\n\t\t\t\t\t", by decide +kernel⟩
    rw [htext, List.cons_append] at hprints
    have hnode : (Pairs.node mappingName (entryPairs value added) .nil).tokens ≠ [] := by
      rw [Pairs.tokens]
      exact List.cons_ne_nil _ _
    have hdocument := gap.document steam hnode hprints
    rw [insertion, if_neg missing, htext, List.cons_append]
    rwa [Pairs.append, Pairs.append] at hdocument

/-- A text that is left as it is has every app just when all of them had an entry. -/
theorem kept_iff {need : AppSet} {content : Bytes} {tree : Pairs} (htree : Document content tree) :
    (∃ tree', Document content tree' ∧ Mapped need tree tree') ↔ ∀ a ∈ need.ids, idKey a ∈ mappedKeys tree := by
  constructor
  · rintro ⟨tree', htree', hmapped⟩ a ha
    obtain rfl := htree'.unique htree
    exact (hmapped.count ha).1
  · intro had
    exact ⟨tree, htree, .kept had⟩

/-- Where the brace is the right one, whenever something is put behind it, and the tool's name can be
quoted: the text that a successful call leaves has the tree with one entry for every app just when the
apps that are passed over are the ones that have an entry. -/
theorem injected_iff {need : AppSet} {file : ConfigFile} {tree : Pairs}
    (hsuccess : (injectProtonMappings need file).1 = true) (htree : Document file.content tree)
    (hplace : (∃ a ∈ need.ids, ¬quotedId a <:+: (aroundBrace file.content).2) →
      WellPlaced file.content tree ∧ ∃ value, Escaped (toolFor file.content) value) :
    (∃ tree', Document (injectProtonMappings need file).2 tree' ∧ Mapped need tree tree') ↔
      ∀ a ∈ need.ids, Seen need file.content a ↔ idKey a ∈ mappedKeys tree := by
  by_cases hempty : need.ids = []
  · have hrun : (injectProtonMappings need file).2 = file.content := by rw [injectProtonMappings, if_pos hempty]
    refine iff_of_true ⟨tree, by rwa [hrun], .kept fun a ha => ?_⟩ fun a ha => ?_
    all_goals
      rw [hempty] at ha
      cases ha
  obtain ⟨brace, added, hbrace, hadded, hrun⟩ := injectProtonMappings_success hsuccess hempty
  have haround : aroundBrace file.content = (file.content.take (brace + 1), file.content.drop (brace + 1)) := by
    rw [aroundBrace, hbrace]
  have hmem : ∀ a, a ∈ added ↔ a ∈ need.ids ∧ ¬Seen need file.content a := by
    intro a
    rw [hadded.mem, Seen, haround]
  have hseen : (∀ a ∈ need.ids, a ∈ added ↔ idKey a ∉ mappedKeys tree) ↔
      ∀ a ∈ need.ids, Seen need file.content a ↔ idKey a ∈ mappedKeys tree := by
    refine forall_congr' fun a => imp_congr_right fun ha => ?_
    rw [hmem, and_iff_right ha, not_iff_not]
  rw [← hseen, hrun]
  by_cases hnone : added = []
  · rw [if_pos hnone, kept_iff htree, hnone]
    refine forall_congr' fun a => imp_congr_right fun _ => ?_
    rw [iff_false_left List.not_mem_nil, not_not]
  · have hunwritten : ∃ a ∈ need.ids, ¬quotedId a <:+: (aroundBrace file.content).2 := by
      rw [haround]
      exact hadded.some.mp hnone
    obtain ⟨hplaced, value, hvalue⟩ := hplace hunwritten
    obtain ⟨tree', htree', hgrown⟩ := hplaced.document hvalue hnone
    rw [haround] at htree'
    rw [if_neg hnone, ← hgrown.mapped_iff hadded.nodup fun a ha => ((hmem a).mp ha).1]
    constructor
    · rintro ⟨other, hother, hmapped⟩
      rwa [htree'.unique hother]
    · intro hmapped
      exact ⟨tree', htree', hmapped⟩

/-- A configuration with a default tool and one mapped app. -/
def steamConfig : Bytes :=
  utf8 "\"InstallConfigStore\"\n\x7b\n\"Software\"\n\x7b\n\"Valve\"\n\x7b\n\"Steam\"\n\x7b\n\"CompatToolMapping\"\n\x7b\n" ++
  utf8 "\"0\"\n\x7b\n\"name\"\t\"proton_9\"\n\"config\"\t\"\"\n\"priority\"\t\"75\"\n\x7d\n" ++
  utf8 "\"10\"\n\x7b\n\"name\"\t\"proton_9\"\n\"config\"\t\"\"\n\"priority\"\t\"250\"\n\x7d\n" ++
  utf8 "\x7d\n\x7d\n\x7d\n\x7d\n\x7d\n"

def entry (priority : Bytes) : Pairs :=
  .leaf (utf8 "name") (utf8 "proton_9") (.leaf (utf8 "config") [] (.leaf (utf8 "priority") priority .nil))

def steamMapping : Pairs :=
  .node (utf8 "0") (entry (utf8 "75")) (.node (utf8 "10") (entry (utf8 "250")) .nil)

def steamTree : Pairs :=
  .node (utf8 "InstallConfigStore")
    (.node (utf8 "Software")
      (.node (utf8 "Valve") (.node (utf8 "Steam") (.node mappingName steamMapping .nil) .nil) .nil) .nil) .nil

def steamFile : ConfigFile := ⟨steamConfig, true, true, true, true, true⟩

private theorem steamConfig_document : Document steamConfig steamTree := by
  rw [document_iff_reads]
  exact ⟨(tokensOf 100 steamConfig).2, reads_of_tokensOf (by decide +kernel), by decide +kernel⟩

private theorem steamConfig_gap :
    Gap (aroundBrace steamConfig).1 (aroundBrace steamConfig).2 (steamTree.front mappingPath ++ Pairs.nil.tokens)
      (steamMapping.tokens ++ steamTree.back mappingPath) where
  reads := ⟨(tokensOf 100 (aroundBrace steamConfig).1).2, reads_of_tokensOf (by decide +kernel),
    blank_of_all (by decide +kernel)⟩
  readsPlace := ⟨(tokensOf 100 (aroundBrace steamConfig).2).2, reads_of_tokensOf (by decide +kernel), by decide +kernel⟩

theorem injected_iff_steamConfig :
    ∃ tree', Document (injectProtonMappings ⟨[10, 440], by decide⟩ steamFile).2 tree' ∧
      Mapped ⟨[10, 440], by decide⟩ steamTree tree' := by
  refine (injected_iff (by decide +kernel) steamConfig_document fun _ => ⟨?_, utf8 "proton_9", ?_⟩).mpr
    (List.forall_mem_cons.mpr ⟨by decide +kernel, List.forall_mem_singleton.mpr (by decide +kernel)⟩)
  · have hfound : steamTree.objectAt mappingPath = some (Pairs.nil.append steamMapping) := by decide +kernel
    exact .existing (by decide +kernel) hfound steamConfig_gap
  · have htool : toolFor steamFile.content = utf8 "proton_9" := by decide +kernel
    rw [htool]
    exact escaped_self (by decide +kernel)

/-- The priority of another app's entry is taken for the app's own entry. -/
theorem priority_taken_for_app :
    (injectProtonMappings ⟨[250], by decide⟩ steamFile).1 = true ∧ Document steamFile.content steamTree ∧
      ¬∃ tree', Document (injectProtonMappings ⟨[250], by decide⟩ steamFile).2 tree' ∧
        Mapped ⟨[250], by decide⟩ steamTree tree' := by
  refine ⟨by decide +kernel, steamConfig_document, ?_⟩
  rintro ⟨tree', htree', hmapped⟩
  have hrun : (injectProtonMappings ⟨[250], by decide⟩ steamFile).2 = steamConfig := by decide +kernel
  rw [hrun] at htree'
  rw [htree'.unique steamConfig_document] at hmapped
  have hmissing : idKey 250 ∉ mappedKeys steamTree := by decide +kernel
  have hneed : (250 : UInt32) ∈ [(250 : UInt32)] := List.mem_cons_self
  exact hmissing (hmapped.count hneed).1

end SlsteamMoon.ProtonMapping
