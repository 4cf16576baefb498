import SlsteamMoon.DepotPrune.Prune

/-! What is left of the depots and of the DLC list. -/
namespace SlsteamMoon.DepotPrune
open KeyValues ProvisionCache DlcMetadata DlcIds ManifestSynth

variable {hasKey : DepotId → Bool}

/-- The depot that a key numbers. -/
def depotIdOf (key : Bytes) : Option DepotId := if isNumeric key then stoul key else none

/-- A depot stays when it is not empty and has a key or is virtual; what is no depot stays. -/
def isKept (hasKey : DepotId → Bool) (entry : Bytes × Node) : Bool :=
  match depotIdOf entry.1 with
  | none => true
  | some depotId => !depotPublicManifestIsEmpty entry.2 && (hasKey depotId || isVirtualDlc entry.2)

/-- A depot of the DLC. -/
def BelongsTo (dlc : AppId) (entry : Bytes × Node) : Prop :=
  (depotIdOf entry.1).isSome = true ∧ dlc ≠ 0 ∧ dlcAppId entry.2 = dlc

/-- A content depot that stays and whose config is a scalar. -/
def Breaks (hasKey : DepotId → Bool) (entry : Bytes × Node) : Prop :=
  (depotIdOf entry.1).isSome = true ∧ isKept hasKey entry = true ∧ isVirtualDlc entry.2 = false ∧
    ∃ config, childOf (utf8 "config") entry.2 = some (.scalar config)

/-- What a visit does that does not break. -/
structure Visited (hasKey : DepotId → Bool) (p : Pruned) (entry : Bytes × Node) (q : Pruned) : Prop where
  depots : q.newDepots = if isKept hasKey entry then assignNode entry.1 entry.2 p.newDepots else p.newDepots
  dropped : q.dropped = if isKept hasKey entry then p.dropped else p.dropped + 1
  content : ∀ dlc, dlc ∈ q.contentDlcAppIds ↔
    dlc ∈ p.contentDlcAppIds ∨ BelongsTo dlc entry ∧ hasManifests entry.2 = true
  usable : ∀ dlc, dlc ∈ q.usableDlcAppIds ↔
    dlc ∈ p.usableDlcAppIds ∨ BelongsTo dlc entry ∧ isKept hasKey entry = true

private theorem addPlatforms_eq_none {p : Pruned} {node : Node} :
    p.addPlatforms node = none ↔ ∃ config, childOf (utf8 "config") node = some (.scalar config) := by
  match node with
  | .map depot =>
    rw [Pruned.addPlatforms, Option.map_eq_none_iff, depotOsList, childOf]
    match subnode (utf8 "config") depot with
    | some (.scalar config) => simp
    | some (.map config) => simp
    | some (.sequence items) => simp
    | some .null => simp
    | none => simp
  | .scalar _ | .sequence _ | .null => simp [Pruned.addPlatforms, childOf]

/-- The platforms leave the rest alone. -/
theorem addPlatforms_eq_some {p q : Pruned} {node : Node} (h : p.addPlatforms node = some q) :
    ∃ os, q = { p with survivingOs := os } := by
  match node with
  | .map depot =>
    obtain ⟨oslist, -, rfl⟩ := Option.map_eq_some_iff.mp h
    exact ⟨_, rfl⟩
  | .scalar _ | .sequence _ | .null =>
    obtain rfl := Option.some.inj h
    exact ⟨_, rfl⟩

/-- What is no depot is kept as it is. -/
theorem visited_keep {p : Pruned} {entry : Bytes × Node} (h : depotIdOf entry.1 = none) :
    Visited hasKey p entry (p.keep entry.1 entry.2) := by
  have hkept : isKept hasKey entry = true := by rw [isKept, h]
  refine ⟨?_, ?_, fun dlc => ?_, fun dlc => ?_⟩
  · rw [if_pos hkept]
    rfl
  · rw [if_pos hkept]
    rfl
  · simp [BelongsTo, h, Pruned.keep]
  · simp [BelongsTo, h, Pruned.keep]

private theorem belongsTo_iff {dlc : AppId} {entry : Bytes × Node} {depotId : DepotId}
    (h : depotIdOf entry.1 = some depotId) : BelongsTo dlc entry ↔ dlcAppId entry.2 ≠ 0 ∧ dlc = dlcAppId entry.2 := by
  rw [BelongsTo, h]
  constructor
  · rintro ⟨-, hne, rfl⟩
    exact ⟨hne, rfl⟩
  · rintro ⟨hne, rfl⟩
    exact ⟨rfl, hne, rfl⟩

private theorem mem_insert_if {dlc other : AppId} {ids : Finset AppId} {P : Prop} [Decidable P] :
    dlc ∈ (if P then insert other ids else ids) ↔ dlc ∈ ids ∨ P ∧ dlc = other := by
  split_ifs with h
  · rw [Finset.mem_insert, or_comm, and_iff_right h]
  · rw [or_iff_left fun h' => h h'.1]

private theorem mem_recordContent {dlc : AppId} {p : Pruned} {entry : Bytes × Node} {depotId : DepotId}
    (h : depotIdOf entry.1 = some depotId) :
    dlc ∈ (p.recordContent entry.2).contentDlcAppIds ↔
      dlc ∈ p.contentDlcAppIds ∨ BelongsTo dlc entry ∧ hasManifests entry.2 = true := by
  rw [Pruned.recordContent, mem_insert_if, belongsTo_iff h, and_right_comm]

private theorem mem_recordUsable {dlc : AppId} {p : Pruned} {entry : Bytes × Node} {depotId : DepotId}
    (h : depotIdOf entry.1 = some depotId) :
    dlc ∈ (p.recordUsable entry.2).usableDlcAppIds ↔ dlc ∈ p.usableDlcAppIds ∨ BelongsTo dlc entry := by
  rw [Pruned.recordUsable, mem_insert_if, belongsTo_iff h]

/-- A depot that goes. -/
theorem visited_drop {p : Pruned} {entry : Bytes × Node} {depotId : DepotId} (h : depotIdOf entry.1 = some depotId)
    (hgoes : isKept hasKey entry = false) : Visited hasKey p entry (p.recordContent entry.2).drop := by
  refine ⟨?_, ?_, fun dlc => mem_recordContent h, fun dlc => ?_⟩
  · rw [hgoes]
    rfl
  · rw [hgoes]
    rfl
  · rw [hgoes]
    exact (or_iff_left fun h' => Bool.false_ne_true h'.2).symm

/-- A depot that stays. -/
theorem visited_stays {p : Pruned} {entry : Bytes × Node} {depotId : DepotId} (h : depotIdOf entry.1 = some depotId)
    (hstays : isKept hasKey entry = true) (content : Nat) (os : Finset Bytes) :
    Visited hasKey p entry { ((p.recordContent entry.2).keep entry.1 entry.2).recordUsable entry.2 with
      keptContent := content, survivingOs := os } := by
  refine ⟨?_, ?_, fun dlc => mem_recordContent h, fun dlc => ?_⟩
  · rw [hstays]
    rfl
  · rw [hstays]
    rfl
  · rw [and_iff_left hstays]
    exact mem_recordUsable h

private theorem keep_spec (p : Pruned) {entry : Bytes × Node} (h : depotIdOf entry.1 = none) :
    ¬Breaks hasKey entry ∧ Visited hasKey p entry (p.keep entry.1 entry.2) := by
  refine ⟨fun hbreaks => ?_, visited_keep h⟩
  have hsome := hbreaks.1
  rw [h] at hsome
  cases hsome

private theorem drop_spec (p : Pruned) {entry : Bytes × Node} {depotId : DepotId}
    (hid : depotIdOf entry.1 = some depotId) (h : isKept hasKey entry = false) :
    ¬Breaks hasKey entry ∧ Visited hasKey p entry (p.recordContent entry.2).drop := by
  refine ⟨fun hbreaks => ?_, visited_drop hid h⟩
  have hstays := hbreaks.2.1
  rw [h] at hstays
  cases hstays

/-- A visit is an exception just when it breaks, and does to the four collections what it says otherwise. -/
theorem visitDepot_spec (hasKey : DepotId → Bool) (p : Pruned) (entry : Bytes × Node) :
    match visitDepot hasKey p entry with
    | none => Breaks hasKey entry
    | some q => ¬Breaks hasKey entry ∧ Visited hasKey p entry q := by
  rw [visitDepot]
  by_cases hnumeric : isNumeric entry.1 = false
  · simp only [if_pos hnumeric]
    exact keep_spec p (by rw [depotIdOf, hnumeric]; rfl)
  rw [Bool.not_eq_false] at hnumeric
  simp only [hnumeric, Bool.true_eq_false, if_false]
  cases hstoul : stoul entry.1 with
  | none => exact keep_spec p (by rw [depotIdOf, hnumeric]; exact hstoul)
  | some depotId =>
    have hid : depotIdOf entry.1 = some depotId := by rw [depotIdOf, hnumeric]; exact hstoul
    have hkept : isKept hasKey entry =
        (!depotPublicManifestIsEmpty entry.2 && (hasKey depotId || isVirtualDlc entry.2)) := by
      rw [isKept, hid]
    dsimp only
    by_cases hempty : depotPublicManifestIsEmpty entry.2 = true
    · simp only [if_pos hempty]
      exact drop_spec p hid (by rw [hkept, hempty]; rfl)
    simp only [if_neg hempty]
    by_cases hlocked : hasKey depotId = false ∧ isVirtualDlc entry.2 = false
    · simp only [if_pos hlocked]
      exact drop_spec p hid (by rw [hkept, hlocked.1, hlocked.2]; exact Bool.and_false _)
    simp only [if_neg hlocked]
    have hstays : isKept hasKey entry = true := by
      rw [hkept]
      grind
    by_cases hvirtual : isVirtualDlc entry.2 = true
    · simp only [if_pos hvirtual]
      refine ⟨fun hbreaks => ?_, visited_stays hid hstays _ _⟩
      have hcontent := hbreaks.2.2.1
      rw [hvirtual] at hcontent
      cases hcontent
    simp only [if_neg hvirtual]
    rw [Bool.not_eq_true] at hvirtual
    split
    · next hnone => exact ⟨by rw [hid]; rfl, hstays, hvirtual, addPlatforms_eq_none.mp hnone⟩
    · next q hsome =>
      obtain ⟨os, rfl⟩ := addPlatforms_eq_some hsome
      refine ⟨fun hbreaks => ?_, visited_stays hid hstays _ os⟩
      rw [addPlatforms_eq_none.mpr hbreaks.2.2.2] at hsome
      cases hsome

/-! ### The whole loop -/

/-- node[key] = value for each of the entries. -/
def assignAll (entries : Entries) (list : List (Bytes × Node)) : Entries :=
  list.foldl (fun entries entry => assignNode entry.1 entry.2 entries) entries

/-- What the visits of a list do when none breaks. -/
structure VisitedAll (hasKey : DepotId → Bool) (p : Pruned) (list : List (Bytes × Node)) (q : Pruned) : Prop where
  depots : q.newDepots = assignAll p.newDepots (list.filter (isKept hasKey))
  dropped : q.dropped = p.dropped + list.countP fun entry => !isKept hasKey entry
  content : ∀ dlc, dlc ∈ q.contentDlcAppIds ↔
    dlc ∈ p.contentDlcAppIds ∨ ∃ entry ∈ list, BelongsTo dlc entry ∧ hasManifests entry.2 = true
  usable : ∀ dlc, dlc ∈ q.usableDlcAppIds ↔
    dlc ∈ p.usableDlcAppIds ∨ ∃ entry ∈ list, BelongsTo dlc entry ∧ isKept hasKey entry = true

private theorem visitedAll_nil (p : Pruned) : VisitedAll hasKey p [] p :=
  ⟨rfl, rfl, fun _ => by simp, fun _ => by simp⟩

theorem Visited.cons {p q r : Pruned} {entry : Bytes × Node} {list : List (Bytes × Node)}
    (h : Visited hasKey p entry q) (hlist : VisitedAll hasKey q list r) : VisitedAll hasKey p (entry :: list) r := by
  refine ⟨?_, ?_, fun dlc => ?_, fun dlc => ?_⟩
  · rw [hlist.depots, h.depots, List.filter_cons]
    split_ifs
    · rfl
    · rfl
  · rw [hlist.dropped, h.dropped, List.countP_cons]
    cases isKept hasKey entry
    · simp only [Bool.false_eq_true, if_false, Bool.not_false, if_true]
      omega
    · simp
  · rw [hlist.content, h.content, List.exists_mem_cons_iff, or_assoc]
  · rw [hlist.usable, h.usable, List.exists_mem_cons_iff, or_assoc]

/-- The loop is an exception just when an entry breaks it. -/
theorem visitDepots_spec (hasKey : DepotId → Bool) (list : List (Bytes × Node)) (p : Pruned) :
    match list.foldlM (visitDepot hasKey) p with
    | none => ∃ entry ∈ list, Breaks hasKey entry
    | some q => (∀ entry ∈ list, ¬Breaks hasKey entry) ∧ VisitedAll hasKey p list q := by
  induction list generalizing p with
  | nil => exact ⟨List.forall_mem_nil _, visitedAll_nil p⟩
  | cons entry list ih =>
    have hvisit := visitDepot_spec hasKey p entry
    rw [List.foldlM_cons]
    cases hfirst : visitDepot hasKey p entry with
    | none =>
      rw [hfirst] at hvisit
      exact ⟨entry, List.mem_cons_self, hvisit⟩
    | some q =>
      rw [hfirst] at hvisit
      have hrest := ih q
      rw [Option.bind_eq_bind, Option.bind_some]
      cases hrun : list.foldlM (visitDepot hasKey) q with
      | none =>
        rw [hrun] at hrest
        obtain ⟨other, hmem, hbreaks⟩ := hrest
        exact ⟨other, List.mem_cons_of_mem entry hmem, hbreaks⟩
      | some r =>
        rw [hrun] at hrest
        exact ⟨List.forall_mem_cons.mpr ⟨hvisit.1, hrest.1⟩, hvisit.2.cons hrest.2⟩

/-! ### Maps as lists -/

private theorem mem_of_subnode {key : Bytes} {node : Node} {entries : Entries} (h : subnode key entries = some node) :
    (key, node) ∈ entryList entries := by
  induction entries using entryList.induct with
  | case1 => cases h
  | case2 other value rest ih =>
    rw [subnode] at h
    rw [entryList]
    split_ifs at h with hkey
    · obtain rfl := Option.some.inj h
      rw [hkey]
      exact List.mem_cons_self
    · exact List.mem_cons_of_mem _ (ih h)

private theorem subnode_isSome_of_mem {entry : Bytes × Node} {entries : Entries} (h : entry ∈ entryList entries) :
    (subnode entry.1 entries).isSome = true := by
  induction entries using entryList.induct with
  | case1 => cases h
  | case2 other value rest ih =>
    rw [subnode]
    split_ifs with hkey
    · rfl
    · rw [entryList, List.mem_cons] at h
      obtain rfl | h := h
      · exact absurd rfl hkey
      · exact ih h

private theorem subnode_assignNode_ne {key other : Bytes} (h : other ≠ key) (value : Node) (entries : Entries) :
    subnode other (assignNode key value entries) = subnode other entries := by
  induction entries using assignNode.induct key with
  | case1 => exact if_neg (Ne.symm h)
  | case2 held rest => rw [assignNode, if_pos rfl, subnode, subnode, if_neg (Ne.symm h), if_neg (Ne.symm h)]
  | case3 held value' rest hne ih => rw [assignNode, if_neg hne, subnode, subnode, ih]

/-- A key that is new goes to the end. -/
theorem entryList_assignNode {key : Bytes} {value : Node} {entries : Entries}
    (h : key ∉ (entryList entries).map Prod.fst) :
    entryList (assignNode key value entries) = entryList entries ++ [(key, value)] := by
  induction entries using entryList.induct with
  | case1 => rfl
  | case2 other held rest ih =>
    rw [entryList, List.map_cons, List.mem_cons, not_or] at h
    rw [assignNode, if_neg (Ne.symm h.1), entryList, entryList, ih h.2]
    rfl

private theorem subnode_assignAll {key : Bytes} {node : Node} {entries : Entries} {list : List (Bytes × Node)}
    (h : subnode key (assignAll entries list) = some node) : (key, node) ∈ list ∨ subnode key entries = some node := by
  induction list generalizing entries with
  | nil => exact .inr h
  | cons entry list ih =>
    obtain hmem | hfirst := ih h
    · exact .inl (List.mem_cons_of_mem entry hmem)
    · by_cases hkey : key = entry.1
      · rw [hkey, subnode_assignNode] at hfirst
        obtain rfl := Option.some.inj hfirst
        rw [hkey]
        exact .inl List.mem_cons_self
      · rw [subnode_assignNode_ne hkey] at hfirst
        exact .inr hfirst

private theorem isSome_assignAll {key : Bytes} {entries : Entries} {list : List (Bytes × Node)}
    (h : key ∈ list.map Prod.fst ∨ (subnode key entries).isSome = true) :
    (subnode key (assignAll entries list)).isSome = true := by
  induction list generalizing entries with
  | nil => exact h.resolve_left List.not_mem_nil
  | cons entry list ih =>
    apply ih
    by_cases hkey : key = entry.1
    · rw [hkey, subnode_assignNode]
      exact .inr rfl
    · rw [subnode_assignNode_ne hkey]
      rw [List.map_cons, List.mem_cons, or_iff_right hkey] at h
      exact h

private theorem entryList_assignAll {entries : Entries} {list : List (Bytes × Node)}
    (h : ((entryList entries ++ list).map Prod.fst).Nodup) :
    entryList (assignAll entries list) = entryList entries ++ list := by
  induction list generalizing entries with
  | nil => exact (List.append_nil _).symm
  | cons entry list ih =>
    have hnew : entry.1 ∉ (entryList entries).map Prod.fst := by
      rw [List.map_append, List.nodup_append] at h
      intro hmem
      exact h.2.2 _ hmem _ List.mem_cons_self rfl
    have hfirst : entryList (assignNode entry.1 entry.2 entries) = entryList entries ++ [entry] :=
      entryList_assignNode hnew
    have happend : entryList (assignNode entry.1 entry.2 entries) ++ list = entryList entries ++ entry :: list := by
      rw [hfirst, List.append_assoc]
      rfl
    rw [assignAll, List.foldl_cons, ← assignAll, ih (by rw [happend]; exact h), happend]

/-! ### The tree -/

/-- What is left is what stays. Where no key comes twice, it is left in its order. -/
structure Left (hasKey : DepotId → Bool) (depots depots' : Entries) : Prop where
  sound : ∀ key node, subnode key depots' = some node → (key, node) ∈ entryList depots ∧ isKept hasKey (key, node) = true
  complete : ∀ entry ∈ entryList depots, isKept hasKey entry = true → (subnode entry.1 depots').isSome = true
  ordered : ((entryList depots).map Prod.fst).Nodup → entryList depots' = (entryList depots).filter (isKept hasKey)

/-- Nothing is dropped. -/
theorem left_self {depots : Entries} (h : ∀ entry ∈ entryList depots, isKept hasKey entry = true) :
    Left hasKey depots depots where
  sound _ _ hnode := ⟨mem_of_subnode hnode, h _ (mem_of_subnode hnode)⟩
  complete _ hentry _ := subnode_isSome_of_mem hentry
  ordered _ := (List.filter_eq_self.mpr h).symm

private theorem left_assignAll (hasKey : DepotId → Bool) (depots : Entries) :
    Left hasKey depots (assignAll .nil ((entryList depots).filter (isKept hasKey))) where
  sound key node hnode := by
    have hmem := (subnode_assignAll hnode).resolve_right (by rintro ⟨⟩)
    exact List.mem_filter.mp hmem
  complete entry hentry hkept :=
    isSome_assignAll (.inl (List.mem_map_of_mem (List.mem_filter.mpr ⟨hentry, hkept⟩)))
  ordered hdistinct := entryList_assignAll (hdistinct.sublist (List.filter_sublist.map Prod.fst))

/-- A DLC that had a content depot and of whose depots none stays. -/
def Lost (hasKey : DepotId → Bool) (depots : Entries) (dlc : AppId) : Prop :=
  (∃ entry ∈ entryList depots, BelongsTo dlc entry ∧ hasManifests entry.2 = true) ∧
    ∀ entry ∈ entryList depots, BelongsTo dlc entry → isKept hasKey entry = false

private theorem mem_lost {q : Pruned} {depots : Entries} {dlc : AppId} (h : VisitedAll hasKey {} (entryList depots) q) :
    dlc ∈ q.contentDlcAppIds \ q.usableDlcAppIds ↔ Lost hasKey depots dlc := by
  rw [Finset.mem_sdiff, h.content, h.usable, Lost]
  simp

def depotsOf (body : Node) : Option Entries :=
  match childOf (utf8 "depots") body with
  | some (.map depots) => some depots
  | _ => none

/-- extended.listofdlc, when it is a scalar. -/
def listOfDlc (body : Node) : Option Bytes :=
  match (childOf (utf8 "extended") body).bind (childOf (utf8 "listofdlc")) with
  | some (.scalar list) => some list
  | _ => none

private theorem childOf_readCommonOsList {key : Bytes} (h : key ≠ utf8 "common") (body : Entries) :
    subnode key (readCommonOsList body).2 = subnode key body := by
  rw [readCommonOsList]
  split
  · rfl
  · rfl
  · exact subnode_assignNode_ne h _ _
  · rfl

private theorem subnode_pruneListOfDlc {key : Bytes} (h : key ≠ utf8 "extended") (lost : Finset AppId)
    (body : Entries) : subnode key (pruneListOfDlc lost body) = subnode key body := by
  rw [pruneListOfDlc]
  split_ifs
  · rfl
  · split
    · split
      · dsimp only
        split_ifs
        · rfl
        · exact subnode_assignNode_ne h _ _
      · rfl
    · rfl

private theorem kept_empty (value : Bytes) : [comma].intercalate (kept ∅ (value.splitOn comma)) = value := by
  have hall : kept ∅ (value.splitOn comma) = value.splitOn comma := by
    rw [kept, List.filter_eq_self]
    intro token _
    rw [isUnsupported]
    cases stoul token <;> simp
  rw [hall, List.intercalate_splitOn]

/-- The list keeps its tokens but for those of the ids, in their order and as they are spelt. -/
theorem listOfDlc_pruneListOfDlc (ids : Finset AppId) (body : Entries) :
    listOfDlc (.map (pruneListOfDlc ids body)) =
      (listOfDlc (.map body)).map fun list => [comma].intercalate (kept ids (list.splitOn comma)) := by
  rw [pruneListOfDlc]
  split_ifs with hnone
  · subst hnone
    simp only [kept_empty]
    exact Option.map_id'.symm
  split
  · next extended hextended =>
    have hnode : (childOf (utf8 "extended") (.map body)).bind (childOf (utf8 "listofdlc")) =
        subnode (utf8 "listofdlc") extended := by
      rw [childOf, hextended]
      rfl
    split
    · next oldList hold =>
      have hlist : listOfDlc (.map body) = some oldList := by rw [listOfDlc, hnode, hold]
      dsimp only
      split_ifs with hremoved
      · rw [hlist, Option.map_some, kept_of_none_removed hremoved]
      · rw [hlist, Option.map_some, ← filterUnsupported_eq]
        simp [listOfDlc, childOf]
    · next hother =>
      have hnot : listOfDlc (.map body) = none := by
        rw [listOfDlc, hnode]
        split
        · next list hscalar => exact absurd hscalar (hother list)
        · rfl
      rw [hnot]
      rfl
  · next hother =>
    have hnot : listOfDlc (.map body) = none := by
      rw [listOfDlc, childOf]
      cases hnode : subnode (utf8 "extended") body with
      | none => rfl
      | some node =>
        cases node with
        | map extended => exact absurd hnode (hother extended)
        | scalar _ => rfl
        | sequence _ => rfl
        | null => rfl
    rw [hnot]
    rfl

/-- What a call does to a tree. -/
structure PrunedTo (hasKey : DepotId → Bool) (body : Node) (depots : Entries) (body' : Node) : Prop where
  left : ∃ depots', depotsOf body' = some depots' ∧ Left hasKey depots depots'
  list : ∃ lost : Finset AppId, (∀ dlc, dlc ∈ lost ↔ Lost hasKey depots dlc) ∧
    listOfDlc body' = (listOfDlc body).map fun list => [comma].intercalate (kept lost (list.splitOn comma))

/-- The body that the loop's result is written to. -/
theorem prunedTo_of_visited {body depots : Entries} {p : Pruned}
    (hdepots : subnode (utf8 "depots") body = some (.map depots)) (h : VisitedAll hasKey {} (entryList depots) p) :
    PrunedTo hasKey (.map body) depots
      (let body := pruneListOfDlc (p.contentDlcAppIds \ p.usableDlcAppIds) (readCommonOsList body).2
       .map (if p.dropped = 0 then body else assignNode (utf8 "depots") (.map p.newDepots) body)) := by
  have hcommon : utf8 "depots" ≠ utf8 "common" ∧ utf8 "extended" ≠ utf8 "common" := by decide +kernel
  have hextended : utf8 "depots" ≠ utf8 "extended" := by decide +kernel
  dsimp only
  have hlist : listOfDlc (.map (pruneListOfDlc (p.contentDlcAppIds \ p.usableDlcAppIds) (readCommonOsList body).2)) =
      (listOfDlc (.map body)).map fun list =>
        [comma].intercalate (kept (p.contentDlcAppIds \ p.usableDlcAppIds) (list.splitOn comma)) := by
    rw [listOfDlc_pruneListOfDlc, listOfDlc, listOfDlc, childOf, childOf, childOf_readCommonOsList hcommon.2]
  constructor
  · split_ifs with hdropped
    · refine ⟨depots, ?_, left_self ?_⟩
      · rw [depotsOf, childOf, subnode_pruneListOfDlc hextended, childOf_readCommonOsList hcommon.1, hdepots]
      · rw [h.dropped] at hdropped
        have hnone := (Nat.add_eq_zero_iff.mp hdropped).2
        intro entry hentry
        simpa using List.countP_eq_zero.mp hnone entry hentry
    · refine ⟨p.newDepots, ?_, ?_⟩
      · rw [depotsOf, childOf, subnode_assignNode]
      · rw [h.depots]
        exact left_assignAll hasKey depots
  · refine ⟨_, fun dlc => mem_lost h, ?_⟩
    split_ifs
    · exact hlist
    · rw [← hlist, listOfDlc, listOfDlc, childOf, childOf, subnode_assignNode_ne (Ne.symm hextended)]

/-- A tree without depots is left alone. In another one the depots that are left are those that stay, and the list loses
just the DLCs that had a content depot and keep none; or it is an exception, just when a content depot that stays has a
scalar for its config. -/
theorem usable_depots_left (hasKey : DepotId → Bool) (body : Node) :
    match depotsOf body with
    | none => pruneUnsupportedDepots hasKey body = some (body, false)
    | some depots =>
      match pruneUnsupportedDepots hasKey body with
      | none => ∃ entry ∈ entryList depots, Breaks hasKey entry
      | some (body', _) => (∀ entry ∈ entryList depots, ¬Breaks hasKey entry) ∧ PrunedTo hasKey body depots body' := by
  match body with
  | .scalar _ | .sequence _ | .null => rfl
  | .map body =>
    match hdepots : subnode (utf8 "depots") body with
    | some (.scalar _) | some (.sequence _) | some .null | none =>
      simp only [depotsOf, childOf, hdepots, pruneUnsupportedDepots]
    | some (.map depots) =>
      have hloop := visitDepots_spec hasKey (entryList depots) {}
      simp only [depotsOf, childOf, hdepots, pruneUnsupportedDepots]
      cases hrun : (entryList depots).foldlM (visitDepot hasKey) {} with
      | none =>
        rw [hrun] at hloop
        exact hloop
      | some p =>
        rw [hrun] at hloop
        refine ⟨hloop.1, prunedTo_of_visited hdepots hloop.2⟩


/-- A content depot under a number that is too large for a depot id. -/
def farBody : Node :=
  .map (.cons (utf8 "depots") (.map (.cons (utf8 "4294967296") (.map (.cons (utf8 "manifests") (.map .nil) .nil)) .nil)) .nil)

/-- It stays without a key. -/
theorem far_depot_stays :
    ¬∀ (hasKey : DepotId → Bool) (body body' : Node) (proton : Bool) (depots' : Entries),
      pruneUnsupportedDepots hasKey body = some (body', proton) → depotsOf body' = some depots' →
      ∀ entry ∈ entryList depots', isNumeric entry.1 = true → depotPublicManifestIsEmpty entry.2 = false ∧
        ((∃ depotId, stoul entry.1 = some depotId ∧ hasKey depotId = true) ∨ isVirtualDlc entry.2 = true) := by
  intro h
  have hleft : ((pruneUnsupportedDepots (fun _ => false) farBody).bind fun result => depotsOf result.1).map
      (fun depots => (entryList depots).map fun entry => (isNumeric entry.1, isVirtualDlc entry.2)) =
        some [(true, false)] := by decide +kernel
  obtain ⟨depots', hdepots, hentries⟩ := Option.map_eq_some_iff.mp hleft
  obtain ⟨⟨body', proton⟩, hrun, hdepots⟩ := Option.bind_eq_some_iff.mp hdepots
  obtain ⟨entry, rest, hlist, hentry, -⟩ := List.map_eq_cons_iff.mp hentries
  obtain ⟨hnumeric, hvirtual⟩ := Prod.mk.inj hentry
  obtain ⟨-, ⟨depotId, -, hkey⟩ | hdlc⟩ :=
    h _ _ body' proton depots' hrun hdepots entry (by rw [hlist]; exact List.mem_cons_self) hnumeric
  · cases hkey
  · rw [hvirtual] at hdlc
    cases hdlc

end SlsteamMoon.DepotPrune
