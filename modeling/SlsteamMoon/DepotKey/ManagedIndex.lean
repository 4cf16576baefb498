import SlsteamMoon.DepotKey.Import
import SlsteamMoon.ProvisionCache.CmVdf
import Mathlib.Data.Finset.Basic
import Mathlib.Data.List.AList

/-! The index of the managed depots of an app, which is kept up beside the catalogue of the keys. -/
namespace SlsteamMoon.DepotKey
open LuaImport

abbrev Entries := AList fun _ : DepotId => SavedKey

structure ManagedDepotIndex where
  byApp : AppId → Option (Finset DepotId) := fun _ => none

namespace ManagedDepotIndex

def insertDepot (index : ManagedDepotIndex) (appId : AppId) (depotId : DepotId) : ManagedDepotIndex where
  byApp := Function.update index.byApp appId (some (insert depotId ((index.byApp appId).getD ∅)))

/-- A set that is emptied is erased. -/
def withdraw (index : ManagedDepotIndex) (appId : AppId) (depotId : DepotId) : ManagedDepotIndex :=
  match index.byApp appId with
  | none => index
  | some depots =>
    { byApp := Function.update index.byApp appId
        (if depots.erase depotId = ∅ then none else some (depots.erase depotId)) }

def rebuildStep (index : ManagedDepotIndex) (entry : Sigma fun _ : DepotId => SavedKey) : ManagedDepotIndex :=
  if entry.2.managed = true ∧ entry.2.appId ≠ 0 ∧ entry.1 ≠ 0 then index.insertDepot entry.2.appId entry.1 else index

def rebuild (entries : Entries) : ManagedDepotIndex := entries.entries.foldl rebuildStep {}

def replace (index : ManagedDepotIndex) (depotId : DepotId) (oldAppId : AppId) (oldManaged : Bool) (newAppId : AppId)
    (newManaged : Bool) : ManagedDepotIndex :=
  let hadOld := oldManaged && oldAppId != 0 && depotId != 0
  let hasNew := newManaged && newAppId != 0 && depotId != 0
  if hadOld && hasNew && oldAppId == newAppId then index.insertDepot newAppId depotId
  else
    let index := if hasNew then index.insertDepot newAppId depotId else index
    if hadOld then index.withdraw oldAppId depotId else index

def forApp (index : ManagedDepotIndex) (appId : AppId) : Finset DepotId := (index.byApp appId).getD ∅

/-- What the entry of a depot puts in the index. -/
def Puts (entry : SavedKey) (depotId : DepotId) (appId : AppId) : Prop :=
  entry.managed = true ∧ entry.appId = appId ∧ appId ≠ 0 ∧ depotId ≠ 0

/-- The depots of the entries, app by app, and no empty set. -/
structure Indexes (index : ManagedDepotIndex) (entries : Entries) : Prop where
  mem : ∀ appId depotId, depotId ∈ index.forApp appId ↔
    ∃ entry, entries.lookup depotId = some entry ∧ Puts entry depotId appId
  ne_empty : ∀ appId, index.byApp appId ≠ some ∅

/-- The entries leave no choice. -/
theorem Indexes.unique {index other : ManagedDepotIndex} {entries : Entries} (h : index.Indexes entries)
    (h' : other.Indexes entries) : index = other := by
  have hsame : ∀ appId, index.forApp appId = other.forApp appId := by
    intro appId
    ext depotId
    rw [h.mem, h'.mem]
  have hbyApp : index.byApp = other.byApp := by
    funext appId
    have hset := hsame appId
    rw [forApp, forApp] at hset
    cases hleft : index.byApp appId with
    | none =>
      cases hright : other.byApp appId with
      | none => rfl
      | some depots =>
        rw [hleft, hright] at hset
        exact absurd (hright.trans (congrArg some hset.symm)) (h'.ne_empty appId)
    | some depots =>
      cases hright : other.byApp appId with
      | none =>
        rw [hleft, hright] at hset
        exact absurd (hleft.trans (congrArg some hset)) (h.ne_empty appId)
      | some others =>
        rw [hleft, hright] at hset
        exact congrArg some hset
  cases index
  cases other
  congr

section
variable {index : ManagedDepotIndex} {appId a : AppId} {depotId d : DepotId}

private theorem mem_insertDepot :
    d ∈ (index.insertDepot appId depotId).forApp a ↔ (a = appId ∧ d = depotId) ∨ d ∈ index.forApp a := by
  rw [forApp, forApp, insertDepot]
  dsimp only
  by_cases ha : a = appId
  · subst ha
    rw [Function.update_self, Option.getD_some, Finset.mem_insert, and_iff_right rfl]
  · rw [Function.update_of_ne ha, or_iff_right fun hboth => ha hboth.1]

private theorem mem_withdraw :
    d ∈ (index.withdraw appId depotId).forApp a ↔ d ∈ index.forApp a ∧ ¬(a = appId ∧ d = depotId) := by
  rw [forApp, forApp, withdraw]
  by_cases ha : a = appId
  · subst ha
    cases hbyApp : index.byApp a with
    | none => simp [hbyApp]
    | some depots =>
      dsimp only
      rw [Function.update_self, Option.getD_some, and_iff_right rfl, and_comm, ← Ne, ← Finset.mem_erase]
      split_ifs with hempty
      · rw [hempty]
        rfl
      · rfl
  · rw [and_iff_left fun hboth => ha hboth.1]
    cases index.byApp appId with
    | none => rfl
    | some depots =>
      dsimp only
      rw [Function.update_of_ne ha]

private theorem insertDepot_ne_empty (h : ∀ a, index.byApp a ≠ some ∅) :
    (index.insertDepot appId depotId).byApp a ≠ some ∅ := by
  rw [insertDepot]
  dsimp only
  by_cases ha : a = appId
  · subst ha
    rw [Function.update_self]
    exact fun hsome => Finset.insert_ne_empty _ _ (Option.some.inj hsome)
  · rw [Function.update_of_ne ha]
    exact h a

private theorem withdraw_ne_empty (h : ∀ a, index.byApp a ≠ some ∅) :
    (index.withdraw appId depotId).byApp a ≠ some ∅ := by
  rw [withdraw]
  cases index.byApp appId with
  | none => exact h a
  | some depots =>
    by_cases ha : a = appId
    · subst ha
      dsimp only
      rw [Function.update_self]
      split_ifs with hempty
      · exact nofun
      · exact fun hsome => hempty (Option.some.inj hsome)
    · dsimp only
      rw [Function.update_of_ne ha]
      exact h a

end

private theorem forApp_rebuildStep (index : ManagedDepotIndex) (entry : Sigma fun _ : DepotId => SavedKey) (a : AppId)
    (d : DepotId) :
    d ∈ (index.rebuildStep entry).forApp a ↔ d ∈ index.forApp a ∨ d = entry.1 ∧ Puts entry.2 d a := by
  rw [rebuildStep, Puts]
  split_ifs with hputs
  · rw [mem_insertDepot]
    grind
  · grind

private theorem foldl_rebuildStep (l : List (Sigma fun _ : DepotId => SavedKey)) {index : ManagedDepotIndex}
    (h : ∀ a, index.byApp a ≠ some ∅) :
    (∀ a d, d ∈ (l.foldl rebuildStep index).forApp a ↔ d ∈ index.forApp a ∨ ∃ entry, ⟨d, entry⟩ ∈ l ∧ Puts entry d a) ∧
      ∀ a, (l.foldl rebuildStep index).byApp a ≠ some ∅ := by
  induction l generalizing index with
  | nil => exact ⟨fun a d => by simp, h⟩
  | cons head l ih =>
    have hstep : ∀ a, (index.rebuildStep head).byApp a ≠ some ∅ := by
      intro a
      rw [rebuildStep]
      split_ifs
      · exact insertDepot_ne_empty h
      · exact h a
    obtain ⟨hmem, hne⟩ := ih hstep
    refine ⟨fun a d => ?_, hne⟩
    obtain ⟨depotId, entry⟩ := head
    rw [List.foldl_cons, hmem, forApp_rebuildStep, or_assoc]
    refine or_congr_right ⟨?_, ?_⟩
    · rintro (⟨rfl, hputs⟩ | ⟨entry', hmem', hputs⟩)
      · exact ⟨entry, List.mem_cons_self, hputs⟩
      · exact ⟨entry', List.mem_cons_of_mem _ hmem', hputs⟩
    · rintro ⟨entry', hmem', hputs⟩
      obtain heq | hmem' := List.mem_cons.mp hmem'
      · cases heq
        exact .inl ⟨rfl, hputs⟩
      · exact .inr ⟨entry', hmem', hputs⟩

private theorem indexes_rebuild (entries : Entries) : (rebuild entries).Indexes entries := by
  obtain ⟨hmem, hne⟩ := @foldl_rebuildStep entries.entries {} nofun
  refine ⟨fun a d => ?_, hne⟩
  have hnone : d ∉ ({} : ManagedDepotIndex).forApp a := Finset.notMem_empty d
  rw [rebuild, hmem, or_iff_right hnone]
  simp only [← AList.mem_lookup_iff, Option.mem_def]

/-- A replacement moves the depot to the app of the new entry. -/
theorem mem_replace {index : ManagedDepotIndex} {depotId : DepotId} {oldAppId newAppId : AppId}
    {oldManaged newManaged : Bool}
    (hold : ∀ a, depotId ∈ index.forApp a ↔ oldManaged = true ∧ oldAppId = a ∧ a ≠ 0 ∧ depotId ≠ 0)
    (a : AppId) (d : DepotId) :
    d ∈ (index.replace depotId oldAppId oldManaged newAppId newManaged).forApp a ↔
      (d = depotId ∧ newManaged = true ∧ newAppId = a ∧ a ≠ 0 ∧ depotId ≠ 0) ∨ (d ≠ depotId ∧ d ∈ index.forApp a) := by
  have holdApp := hold a
  rw [replace]
  simp only [Bool.and_eq_true, bne_iff_ne, beq_iff_eq]
  -- Whether the old entry and the new one are in the index, and then whether the depot is the one that moves.
  split_ifs with hsame hhad hnew hnew
  · rw [mem_insertDepot]
    grind
  · rw [mem_withdraw, mem_insertDepot]
    grind
  · rw [mem_withdraw]
    grind
  · rw [mem_insertDepot]
    grind
  · grind

private theorem replace_ne_empty {index : ManagedDepotIndex} (h : ∀ a, index.byApp a ≠ some ∅) {depotId : DepotId}
    {oldAppId newAppId : AppId} {oldManaged newManaged : Bool} (a : AppId) :
    (index.replace depotId oldAppId oldManaged newAppId newManaged).byApp a ≠ some ∅ := by
  rw [replace]
  dsimp only
  split_ifs
  · exact insertDepot_ne_empty h
  · exact withdraw_ne_empty fun _ => insertDepot_ne_empty h
  · exact withdraw_ne_empty h
  · exact insertDepot_ne_empty h
  · exact h a

/-- The index follows an entry that is overwritten. -/
theorem Indexes.replace {index : ManagedDepotIndex} {entries : Entries} (h : index.Indexes entries) (depotId : DepotId)
    (saved : SavedKey) :
    let existing := (entries.lookup depotId).getD {}
    (index.replace depotId existing.appId existing.managed saved.appId saved.managed).Indexes
      (entries.insert depotId saved) := by
  intro existing
  have hold : ∀ a, depotId ∈ index.forApp a ↔ existing.managed = true ∧ existing.appId = a ∧ a ≠ 0 ∧ depotId ≠ 0 := by
    intro a
    rw [h.mem]
    simp only [existing]
    cases entries.lookup depotId with
    | none => simp
    | some entry => simp [Puts]
  refine ⟨fun a d => ?_, replace_ne_empty h.ne_empty⟩
  rw [mem_replace hold]
  by_cases hd : d = depotId
  · subst hd
    rw [AList.lookup_insert]
    simp [Puts]
  · rw [AList.lookup_insert_ne hd, ← h.mem]
    simp [hd]

end ManagedDepotIndex
end SlsteamMoon.DepotKey

/-! The key catalogue with its files and its index, as the file system leaves them. -/
namespace SlsteamMoon.DepotKey
open LuaImport KeyValues
open ProvisionCache (toDecimal toDecimal_injective)

/-- What becomes of the ofstream, and what the file then reads as. A loss when the file is closed goes unnoticed. -/
inductive WriteIo where
  | refused
  | failed (left : Option SavedKey)
  | unnoticed (left : Option SavedKey)
  | complete

/-- The files by the digits of their names; none is a file that holds no record. -/
structure Store where
  files : AList fun _ : Bytes => Option SavedKey
  loaded : Bool := false
  entries : Entries := ∅
  indexReady : Bool := false
  index : ManagedDepotIndex := {}

/-- The records that are taken from files. -/
def parseCachedKeyFile (reading : Option SavedKey) : Option SavedKey := reading.filter (·.depotId ≠ 0)

def loadFile (entries : Entries) (file : Sigma fun _ : Bytes => Option SavedKey) : Entries :=
  match parseCachedKeyFile file.2 with
  | none => entries
  | some key => entries.insert key.depotId key

namespace Store

def loadKeyIndexLocked (s : Store) : Store :=
  let s := if s.loaded then s else { s with loaded := true, entries := s.files.entries.foldl loadFile ∅ }
  if s.indexReady then s else { s with indexReady := true, index := .rebuild s.entries }

def recordOnDisk (s : Store) (depotId : DepotId) : Option SavedKey := (s.files.lookup (toDecimal depotId.toNat)).join

def getCachedKey (s : Store) (depotId : DepotId) : SavedKey := (s.loadKeyIndexLocked.entries.lookup depotId).getD {}

def put (s : Store) (depotId : DepotId) (reading : Option SavedKey) : Store :=
  { s with files := s.files.insert (toDecimal depotId.toNat) reading }

/-- The entry of the depot, and its place in the index. -/
def remember (s : Store) (depotId : DepotId) (existing saved : SavedKey) : Store :=
  { s with
    index := s.index.replace depotId existing.appId existing.managed saved.appId saved.managed
    entries := s.entries.insert depotId saved }

/-- What a save makes of the entry of a depot. -/
def merged (existing : SavedKey) (appId : AppId) (depotId : DepotId) (key : List UInt8) (managed : Bool) : SavedKey where
  appId := if appId ≠ 0 then appId else existing.appId
  depotId := depotId
  key := key
  managed := existing.managed || managed

def saveKeyToCache (s : Store) (appId : AppId) (depotId : DepotId) (key : List UInt8) (managed : Bool) (io : WriteIo) :
    Bool × Store :=
  if key.length ≠ 32 then (false, s)
  else
    let s := s.loadKeyIndexLocked
    let existing := (s.entries.lookup depotId).getD {}
    let saved := merged existing appId depotId key managed
    if existing.depotId = depotId ∧ existing.key = key ∧ existing.appId = saved.appId ∧ existing.managed = saved.managed then
      (true, s)
    else
      match io with
      | .refused => (false, s)
      | .failed left => (false, s.put depotId left)
      | .unnoticed left => (true, (s.put depotId left).remember depotId existing saved)
      | .complete => (true, (s.put depotId (some saved)).remember depotId existing saved)

inductive Call where
  | saveKeyToCache (appId : AppId) (depotId : DepotId) (key : List UInt8) (managed : Bool) (io : WriteIo)
  | getCachedKey (depotId : DepotId)

def step (s : Store) : Call → Store
  | .saveKeyToCache appId depotId key managed io => (s.saveKeyToCache appId depotId key managed io).2
  | .getCachedKey _ => s.loadKeyIndexLocked

def run (files : AList fun _ : Bytes => Option SavedKey) (calls : List Call) : Store := calls.foldl step { files }

/-- The index is the one of the entries, loaded or not. -/
structure Kept (s : Store) : Prop where
  ready : s.indexReady = s.loaded
  indexes : s.index.Indexes s.entries

theorem Kept.load {s : Store} (h : s.Kept) : s.loadKeyIndexLocked.Kept := by
  cases hloaded : s.loaded with
  | true =>
    rw [loadKeyIndexLocked]
    simp only [hloaded, h.ready, if_true]
    exact h
  | false =>
    rw [loadKeyIndexLocked]
    simp only [hloaded, h.ready, Bool.false_eq_true, if_false]
    exact ⟨rfl, ManagedDepotIndex.indexes_rebuild _⟩

theorem Kept.remember {s : Store} (h : s.Kept) (depotId : DepotId) (saved : SavedKey) :
    (s.remember depotId ((s.entries.lookup depotId).getD {}) saved).Kept :=
  ⟨h.ready, h.indexes.replace depotId saved⟩

theorem Kept.save {s : Store} (h : s.Kept) (appId : AppId) (depotId : DepotId) (key : List UInt8) (managed : Bool)
    (io : WriteIo) :
    (s.saveKeyToCache appId depotId key managed io).2.Kept := by
  have hload := h.load
  have hput : ∀ reading, (s.loadKeyIndexLocked.put depotId reading).Kept := fun reading => ⟨hload.ready, hload.indexes⟩
  rw [saveKeyToCache]
  dsimp only
  split_ifs
  · exact h
  · exact hload
  · cases io with
    | refused => exact hload
    | failed left => exact hput left
    | unnoticed left => exact (hput left).remember depotId _
    | complete => exact (hput _).remember depotId _

theorem kept_run (files : AList fun _ : Bytes => Option SavedKey) (calls : List Call) : (run files calls).Kept := by
  induction calls using List.reverseRecOn with
  | nil => exact ⟨rfl, ManagedDepotIndex.indexes_rebuild ∅⟩
  | append_singleton calls call ih =>
    rw [run, List.foldl_append, List.foldl_cons, List.foldl_nil]
    cases call with
    | saveKeyToCache appId depotId key managed io => exact ih.save appId depotId key managed io
    | getCachedKey depotId => exact ih.load

/-- After any calls the index is the one that a rebuild makes. -/
theorem index_eq_rebuild (files : AList fun _ : Bytes => Option SavedKey) (calls : List Call) :
    (run files calls).index = .rebuild (run files calls).entries ∧
      ∀ appId depotId, depotId ∈ (run files calls).index.forApp appId ↔
        ∃ entry, (run files calls).entries.lookup depotId = some entry ∧ entry.managed = true ∧ entry.appId = appId ∧
          appId ≠ 0 ∧ depotId ≠ 0 := by
  have h := (kept_run files calls).indexes
  exact ⟨h.unique (ManagedDepotIndex.indexes_rebuild _), h.mem⟩

end Store
end SlsteamMoon.DepotKey
