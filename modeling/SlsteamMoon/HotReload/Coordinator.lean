import SlsteamMoon.OwnerQueue.Queue
import Mathlib.Data.List.Nodup

/-! The inputs of a package snapshot, one for each managed base, and the bounded
build over them. Unordered sets are lists without repetition. -/
namespace SlsteamMoon.HotReload

open OwnerQueue (AppId PackageSnapshot)

def kMaxSnapshotAppIds : Nat := 16384
def kMaxSnapshotDepotIds : Nat := 131072

structure AppInput where
  baseAppId : AppId := 0
  cacheValid : Bool := false
  plannerAppIds : List AppId := []
  depotIds : List UInt32 := []
  childMetadataPending : Bool := false
  childMetadataMissing : Bool := false
  cacheMtimeSecs : Int := 0
  publishReady : Bool := true
  deriving DecidableEq

structure BuildResult where
  snapshot : PackageSnapshot := {}
  cacheMissingBaseIds : List AppId := []
  metadataMissingBaseIds : List AppId := []
  cacheMtimeSecs : AppId → Option Int := fun _ => none
  valid : Bool := false

/-- The locals of the build loop. -/
structure Gathered where
  appIds : List AppId := []
  depotIds : List UInt32 := []
  metadataComplete : Bool := true
  cacheMissingBaseIds : List AppId := []
  metadataMissingBaseIds : List AppId := []
  cacheMtimeSecs : AppId → Option Int := fun _ => none

/-- The app ids an input adds: its base, and its planner ids when the cache is valid. -/
def AppInput.publishedAppIds (input : AppInput) : List AppId :=
  if input.publishReady then
    (input.baseAppId :: if input.cacheValid then input.plannerAppIds else []).filter (· ≠ 0)
  else []

def AppInput.publishedDepotIds (input : AppInput) : List UInt32 :=
  if input.publishReady then input.depotIds.filter (· ≠ 0) else []

/-- One iteration of the loop. -/
def gather (g : Gathered) (input : AppInput) : Gathered where
  appIds := input.publishedAppIds ∪ g.appIds
  depotIds := input.publishedDepotIds ∪ g.depotIds
  metadataComplete := g.metadataComplete &&
    !(input.publishReady && (input.baseAppId == 0 || !input.cacheValid || input.childMetadataPending))
  cacheMissingBaseIds :=
    if !input.cacheValid && input.baseAppId != 0 then g.cacheMissingBaseIds ++ [input.baseAppId]
    else g.cacheMissingBaseIds
  metadataMissingBaseIds :=
    if input.childMetadataMissing && input.baseAppId != 0 then g.metadataMissingBaseIds ++ [input.baseAppId]
    else g.metadataMissingBaseIds
  cacheMtimeSecs :=
    if input.baseAppId != 0 then Function.update g.cacheMtimeSecs input.baseAppId (some input.cacheMtimeSecs)
    else g.cacheMtimeSecs

/-- The loop; false is the early return past a ceiling. -/
def gatherAll (maxAppIds maxDepotIds : Nat) : Gathered → List AppInput → Gathered × Bool
  | g, [] => (g, true)
  | g, input :: rest =>
    let g := gather g input
    if g.appIds.length > maxAppIds ∨ g.depotIds.length > maxDepotIds then (g, false)
    else gatherAll maxAppIds maxDepotIds g rest

def sorted (ids : List UInt32) : List UInt32 := ids.insertionSort (· ≤ ·)

def build (generation : UInt64) (inputs : List AppInput) (maxAppIds maxDepotIds : Nat) : BuildResult :=
  match gatherAll maxAppIds maxDepotIds {} inputs with
  | (g, false) =>
    { snapshot := { generation, metadataComplete := false }
      cacheMissingBaseIds := g.cacheMissingBaseIds
      metadataMissingBaseIds := g.metadataMissingBaseIds
      cacheMtimeSecs := g.cacheMtimeSecs
      valid := false }
  | (g, true) =>
    { snapshot :=
        { generation, appIds := sorted g.appIds, depotIds := sorted g.depotIds
          metadataComplete := g.metadataComplete }
      cacheMissingBaseIds := sorted g.cacheMissingBaseIds
      metadataMissingBaseIds := sorted g.metadataMissingBaseIds
      cacheMtimeSecs := g.cacheMtimeSecs
      valid := true }

@[simp] theorem mem_sorted {ids : List UInt32} {id : UInt32} : id ∈ sorted ids ↔ id ∈ ids :=
  (List.perm_insertionSort _ ids).mem_iff

@[simp] theorem length_sorted (ids : List UInt32) : (sorted ids).length = ids.length :=
  List.length_insertionSort _ ids

private theorem nodup_sorted {ids : List UInt32} (h : ids.Nodup) : (sorted ids).Nodup :=
  (List.perm_insertionSort _ ids).nodup_iff.mpr h

/-- The sets of the loop hold each id once: exactly those of the inputs seen. -/
structure Gathers (g : Gathered) (inputs : List AppInput) : Prop where
  appNodup : g.appIds.Nodup
  depotNodup : g.depotIds.Nodup
  mem_app : ∀ id, id ∈ g.appIds ↔ id ∈ inputs.flatMap AppInput.publishedAppIds
  mem_depot : ∀ id, id ∈ g.depotIds ↔ id ∈ inputs.flatMap AppInput.publishedDepotIds
  mem_missing : ∀ id ∈ g.cacheMissingBaseIds, id ≠ 0 ∧ ∃ input ∈ inputs, input.baseAppId = id

/-- How many different ids a list holds. -/
def distinct (ids : List UInt32) : Nat := ids.dedup.length

private theorem length_of_mem_iff {ids wanted : List UInt32} (hnodup : ids.Nodup) (h : ∀ id, id ∈ ids ↔ id ∈ wanted) :
    ids.length = distinct wanted := by
  apply List.Perm.length_eq
  rw [List.perm_ext_iff_of_nodup hnodup (List.nodup_dedup wanted)]
  intro id
  rw [h, List.mem_dedup]

private theorem gathers_start : Gathers {} [] := by
  constructor <;> simp

private theorem gathers_step {g : Gathered} {seen : List AppInput} (h : Gathers g seen) (input : AppInput) :
    Gathers (gather g input) (seen ++ [input]) where
  appNodup := h.appNodup.union _
  depotNodup := h.depotNodup.union _
  mem_app id := by
    rw [List.flatMap_append, List.mem_append, ← h.mem_app]
    simp [gather, or_comm]
  mem_depot id := by
    rw [List.flatMap_append, List.mem_append, ← h.mem_depot]
    simp [gather, or_comm]
  mem_missing id hid := by
    simp only [gather] at hid
    split at hid
    · next hmissing =>
      obtain hid | hid := List.mem_append.mp hid
      · obtain ⟨hne, other, hother, hbase⟩ := h.mem_missing id hid
        exact ⟨hne, other, by simp [hother], hbase⟩
      · rw [List.mem_singleton.mp hid]
        simp only [Bool.and_eq_true, bne_iff_ne] at hmissing
        exact ⟨hmissing.2, input, by simp, rfl⟩
    · obtain ⟨hne, other, hother, hbase⟩ := h.mem_missing id hid
      exact ⟨hne, other, by simp [hother], hbase⟩

private theorem distinct_le_append (first second : List UInt32) : distinct first ≤ distinct (first ++ second) := by
  apply List.Subperm.length_le
  apply List.subperm_of_subset (List.nodup_dedup first)
  intro id hid
  rw [List.mem_dedup] at hid ⊢
  exact List.mem_append_left _ hid

/-- The loop runs to its end exactly when the whole list stays within the ceilings. -/
theorem gatherAll_spec (maxAppIds maxDepotIds : Nat) {g : Gathered} {seen : List AppInput} (h : Gathers g seen)
    (happs : distinct (seen.flatMap AppInput.publishedAppIds) ≤ maxAppIds)
    (hdepots : distinct (seen.flatMap AppInput.publishedDepotIds) ≤ maxDepotIds) (rest : List AppInput) :
    ((gatherAll maxAppIds maxDepotIds g rest).2 = true ↔
        distinct ((seen ++ rest).flatMap AppInput.publishedAppIds) ≤ maxAppIds ∧
          distinct ((seen ++ rest).flatMap AppInput.publishedDepotIds) ≤ maxDepotIds) ∧
      ((gatherAll maxAppIds maxDepotIds g rest).2 = true →
        Gathers (gatherAll maxAppIds maxDepotIds g rest).1 (seen ++ rest)) := by
  induction rest generalizing g seen with
  | nil =>
    rw [List.append_nil]
    exact ⟨⟨fun _ => ⟨happs, hdepots⟩, fun _ => rfl⟩, fun _ => h⟩
  | cons input rest ih =>
    have hnext := gathers_step h input
    have happLen := length_of_mem_iff hnext.appNodup hnext.mem_app
    have hdepotLen := length_of_mem_iff hnext.depotNodup hnext.mem_depot
    have hsplit : seen ++ input :: rest = (seen ++ [input]) ++ rest := by simp
    simp only [gatherAll, happLen, hdepotLen]
    split
    · next hover =>
      have happMono := distinct_le_append ((seen ++ [input]).flatMap AppInput.publishedAppIds)
        (rest.flatMap AppInput.publishedAppIds)
      have hdepotMono := distinct_le_append ((seen ++ [input]).flatMap AppInput.publishedDepotIds)
        (rest.flatMap AppInput.publishedDepotIds)
      rw [← List.flatMap_append, ← hsplit] at happMono hdepotMono
      refine ⟨⟨fun hfalse => absurd hfalse Bool.false_ne_true, fun hfits => ?_⟩,
        fun hfalse => absurd hfalse Bool.false_ne_true⟩
      omega
    · next hfits =>
      rw [hsplit]
      exact ih hnext (by omega) (by omega)

/-- What a valid build promises: its lists hold each published id once. -/
structure Built (inputs : List AppInput) (out : BuildResult) : Prop where
  appNodup : out.snapshot.appIds.Nodup
  mem_app : ∀ id, id ∈ out.snapshot.appIds ↔ id ∈ inputs.flatMap AppInput.publishedAppIds
  apps : out.snapshot.appIds.length = distinct (inputs.flatMap AppInput.publishedAppIds)
  depots : out.snapshot.depotIds.length = distinct (inputs.flatMap AppInput.publishedDepotIds)
  added : out.snapshot.addedAppIds = []
  requested : out.snapshot.appInfoRequestIds = []
  mem_missing : ∀ id ∈ out.cacheMissingBaseIds, id ≠ 0 ∧ ∃ input ∈ inputs, input.baseAppId = id

theorem build_valid_iff (generation : UInt64) (inputs : List AppInput) (maxAppIds maxDepotIds : Nat) :
    (build generation inputs maxAppIds maxDepotIds).valid = true ↔
      distinct (inputs.flatMap AppInput.publishedAppIds) ≤ maxAppIds ∧
        distinct (inputs.flatMap AppInput.publishedDepotIds) ≤ maxDepotIds := by
  have hspec := (gatherAll_spec maxAppIds maxDepotIds gathers_start (Nat.zero_le _) (Nat.zero_le _) inputs).1
  rw [List.nil_append] at hspec
  rw [← hspec]
  simp only [build]
  split
  · next hfalse => simp [hfalse]
  · next htrue => simp [htrue]

theorem build_built {generation : UInt64} {inputs : List AppInput} {maxAppIds maxDepotIds : Nat}
    (h : (build generation inputs maxAppIds maxDepotIds).valid = true) :
    Built inputs (build generation inputs maxAppIds maxDepotIds) := by
  have hspec := (gatherAll_spec maxAppIds maxDepotIds gathers_start (Nat.zero_le _) (Nat.zero_le _) inputs).2
  rw [List.nil_append] at hspec
  simp only [build] at h ⊢
  split at h
  · cases h
  · next g htrue =>
    rw [htrue] at hspec
    have hg := hspec rfl
    exact
      { appNodup := nodup_sorted hg.appNodup
        mem_app := fun id => mem_sorted.trans (hg.mem_app id)
        apps := (length_sorted _).trans (length_of_mem_iff hg.appNodup hg.mem_app)
        depots := (length_sorted _).trans (length_of_mem_iff hg.depotNodup hg.mem_depot)
        added := rfl
        requested := rfl
        mem_missing := fun id hid => hg.mem_missing id (mem_sorted.mp hid) }

end SlsteamMoon.HotReload

/-! The snapshots the coordinator derives from a build, and which of them the
owner queue accepts. -/
namespace SlsteamMoon.HotReload

open OwnerQueue (AppId PackageSnapshot Queue Bounds PushResult)

/-- sort, then unique. -/
def sortUnique (ids : List UInt32) : List UInt32 := (sorted ids).dedup

def difference (left right : List AppId) : List AppId := (sorted left).filter (· ∉ right)

def membershipAppInfoRequestIds (initialPublication : Bool) (cacheMissingBaseIds : List AppId) : List AppId :=
  (sortUnique (if initialPublication then cacheMissingBaseIds else [])).filter (· ≠ 0)

def readyBaseIds (candidates ready : List AppId) : List AppId :=
  sortUnique (candidates.filter fun id => id ≠ 0 ∧ id ∈ ready)

def nonAuthoritativeAppInfoRequestIds (requested authoritative : List AppId) : List AppId :=
  sortUnique (requested.filter fun id => id ≠ 0 ∧ id ∉ authoritative)

def newTopologyAppInfoRequestIds (previous next : PackageSnapshot) : List AppId :=
  ((sortUnique next.appIds).filter (· ∉ previous.appIds)).filter (· ≠ 0)

/-- What the publications read of the coordinator. -/
structure CoordinatorState where
  generation : UInt64 := 0
  managedAppIds : List AppId := []
  readyBaseIds : List AppId := []
  metadataPendingBaseIds : List AppId := []
  metadataDeferredBaseIds : List AppId := []
  contentFingerprints : AppId → Option UInt64 := fun _ => none
  lastSnapshot : Option PackageSnapshot := none

/-- The three callers that build and submit a snapshot: a watcher's managed set,
a base whose cache was prepared, and a base whose metadata completed. -/
inductive Publication
  | managed (managedAppIds : List AppId)
  | preparedBase (baseAppId : AppId)
  | metadataCompletion (baseAppId : AppId)

namespace Publication

def managedAppIds (s : CoordinatorState) : Publication → List AppId
  | .managed ids => ids
  | .preparedBase _ => s.managedAppIds
  | .metadataCompletion _ => s.managedAppIds

def readyBaseIds (s : CoordinatorState) : Publication → List AppId
  | .managed ids =>
    (if s.generation = 0 then ids else s.readyBaseIds).filter (· ∉ difference s.managedAppIds ids)
  | .preparedBase baseAppId => s.readyBaseIds.insert baseAppId
  | .metadataCompletion _ => s.readyBaseIds

def addedAppIds (s : CoordinatorState) : Publication → List AppId
  | .managed ids => HotReload.readyBaseIds (difference ids s.managedAppIds) ((Publication.managed ids).readyBaseIds s)
  | .preparedBase baseAppId => [baseAppId]
  | .metadataCompletion _ => []

def requestedIds (s : CoordinatorState) (built : BuildResult) : Publication → List AppId
  | .managed _ => membershipAppInfoRequestIds (s.generation == 0) built.cacheMissingBaseIds
  | .preparedBase _ => []
  | .metadataCompletion _ =>
    match s.lastSnapshot with
    | some last => newTopologyAppInfoRequestIds last built.snapshot
    | none => built.snapshot.appInfoRequestIds

def snapshot (s : CoordinatorState) (authoritative : List AppId) (built : BuildResult) (p : Publication) :
    PackageSnapshot :=
  { built.snapshot with
    addedAppIds := p.addedAppIds s
    appInfoRequestIds := nonAuthoritativeAppInfoRequestIds (p.requestedIds s built) authoritative }

end Publication

/-- One input for each managed base, in ascending order, ready as the set says. -/
structure InputsOf (managed ready : List AppId) (inputs : List AppInput) : Prop where
  bases : inputs.map AppInput.baseAppId = sorted managed
  ready : ∀ input ∈ inputs, input.publishReady = decide (input.baseAppId ∈ ready)

@[simp] theorem mem_sortUnique {ids : List UInt32} {id : UInt32} : id ∈ sortUnique ids ↔ id ∈ ids := by
  rw [sortUnique, List.mem_dedup, mem_sorted]

private theorem length_sortUnique_le {ids wanted : List UInt32} (h : ∀ id ∈ ids, id ∈ wanted) :
    (sortUnique ids).length ≤ wanted.length := by
  apply List.Subperm.length_le
  apply List.subperm_of_subset (List.nodup_dedup _)
  intro id hid
  exact h id (mem_sortUnique.mp hid)

/-- A ready managed base is one of the published ids. -/
theorem InputsOf.published {managed ready : List AppId} {inputs : List AppInput} (h : InputsOf managed ready inputs)
    {id : AppId} (hmanaged : id ∈ managed) (hready : id ∈ ready) (hne : id ≠ 0) :
    id ∈ inputs.flatMap AppInput.publishedAppIds := by
  have hbase : id ∈ inputs.map AppInput.baseAppId := by rwa [h.bases, mem_sorted]
  obtain ⟨input, hinput, rfl⟩ := List.mem_map.mp hbase
  apply List.mem_flatMap.mpr
  refine ⟨input, hinput, ?_⟩
  have hpublish : input.publishReady = true := by rw [h.ready input hinput, decide_eq_true hready]
  simp [AppInput.publishedAppIds, hpublish, hne]

theorem mem_difference {left right : List AppId} {id : AppId} :
    id ∈ difference left right ↔ id ∈ left ∧ id ∉ right := by
  simp [difference]

variable {s : CoordinatorState} {p : Publication} {inputs : List AppInput} {built : BuildResult}

/-- The added bases are published ids, or the one base just prepared. -/
theorem addedAppIds_le (hinputs : InputsOf (p.managedAppIds s) (p.readyBaseIds s) inputs) (hbuilt : Built inputs built) :
    (p.addedAppIds s).length ≤ max 1 built.snapshot.appIds.length := by
  cases p with
  | managed ids =>
    apply Nat.le_trans _ (Nat.le_max_right ..)
    apply length_sortUnique_le
    intro id hid
    simp only [List.mem_filter, decide_eq_true_eq] at hid
    obtain ⟨hadded, hne, hready⟩ := hid
    rw [hbuilt.mem_app]
    exact hinputs.published (mem_difference.mp hadded).1 hready hne
  | preparedBase baseAppId => exact Nat.le_max_left ..
  | metadataCompletion baseAppId => exact Nat.zero_le _

/-- The requested ids are published ids. -/
theorem requestedIds_le (authoritative : List AppId)
    (hinputs : InputsOf (p.managedAppIds s) (p.readyBaseIds s) inputs) (hbuilt : Built inputs built) :
    (nonAuthoritativeAppInfoRequestIds (p.requestedIds s built) authoritative).length ≤
      built.snapshot.appIds.length := by
  apply length_sortUnique_le
  intro id hid
  replace hid := (List.mem_filter.mp hid).1
  cases p with
  | managed ids =>
    simp only [Publication.requestedIds, membershipAppInfoRequestIds, List.mem_filter, mem_sortUnique] at hid
    obtain ⟨hid, -⟩ := hid
    split at hid
    · next hinitial =>
      obtain ⟨hne, input, hinput, rfl⟩ := hbuilt.mem_missing id hid
      have hmanaged : input.baseAppId ∈ ids := by
        have hmem : input.baseAppId ∈ inputs.map AppInput.baseAppId := List.mem_map_of_mem hinput
        rwa [hinputs.bases, mem_sorted] at hmem
      have hready : input.baseAppId ∈ (Publication.managed ids).readyBaseIds s := by
        rw [Publication.readyBaseIds, if_pos (by simpa using hinitial), List.mem_filter]
        refine ⟨hmanaged, decide_eq_true fun hremoved => ?_⟩
        exact (mem_difference.mp hremoved).2 hmanaged
      rw [hbuilt.mem_app]
      exact hinputs.published hmanaged hready hne
    · cases hid
  | preparedBase baseAppId => cases hid
  | metadataCompletion baseAppId =>
    simp only [Publication.requestedIds] at hid
    split at hid
    · simp only [newTopologyAppInfoRequestIds, List.mem_filter, mem_sortUnique] at hid
      exact hid.1.1
    · rw [hbuilt.requested] at hid
      cases hid

/-- OwnerWork's queue before its first push. -/
def emptyQueue : Queue where
  bounds := .default

theorem pushBatch_single (cmd : OwnerQueue.Command) (nowUs : Nat) :
    (emptyQueue.pushBatch [cmd] nowUs).2 =
      if cmd.withinIds OwnerQueue.kMaxIdsPerCommand = true then (true, [.queued]) else (false, [.full]) := by
  have hmax : Bounds.default.maxIds = OwnerQueue.kMaxIdsPerCommand := rfl
  by_cases h : cmd.withinIds OwnerQueue.kMaxIdsPerCommand = true
  · rw [if_pos h]
    have hpush : OwnerQueue.applyPush .default [] cmd nowUs = some ([⟨cmd, nowUs⟩], .queued) := by
      rw [OwnerQueue.applyPush, hmax, if_pos h]
      rfl
    simp [Queue.pushBatch, emptyQueue, Queue.dryRun, hpush, Queue.pushAll, Queue.pushLocked]
  · rw [if_neg h]
    have hpush : OwnerQueue.applyPush .default [] cmd nowUs = none := by
      rw [OwnerQueue.applyPush, hmax, if_neg h]
    simp [Queue.pushBatch, emptyQueue, Queue.dryRun, hpush]

private theorem syncPackage0_withinIds (snapshot : PackageSnapshot) (maxIds : Nat) :
    (OwnerQueue.Command.syncPackage0 snapshot).withinIds maxIds = true ↔
      snapshot.appIds.length ≤ maxIds ∧ snapshot.depotIds.length ≤ maxIds ∧
        snapshot.addedAppIds.length ≤ maxIds ∧ snapshot.appInfoRequestIds.length ≤ maxIds :=
  decide_eq_true_iff

theorem withinIds_iff (hinputs : InputsOf (p.managedAppIds s) (p.readyBaseIds s) inputs) (hbuilt : Built inputs built)
    (authoritative : List AppId) :
    (OwnerQueue.Command.syncPackage0 (p.snapshot s authoritative built)).withinIds OwnerQueue.kMaxIdsPerCommand = true ↔
      distinct (inputs.flatMap AppInput.publishedAppIds) ≤ OwnerQueue.kMaxIdsPerCommand ∧
        distinct (inputs.flatMap AppInput.publishedDepotIds) ≤ OwnerQueue.kMaxIdsPerCommand := by
  have hadded := addedAppIds_le hinputs hbuilt
  have hrequested := requestedIds_le authoritative hinputs hbuilt
  have hone : 1 ≤ OwnerQueue.kMaxIdsPerCommand := by decide
  rw [syncPackage0_withinIds, ← hbuilt.apps, ← hbuilt.depots]
  simp only [Publication.snapshot]
  omega

/-- The snapshot a publication derives from a valid build is queued exactly when
it names at most 4096 apps and at most 4096 depots. -/
theorem snapshot_queued_iff (authoritative : List AppId)
    (hinputs : InputsOf (p.managedAppIds s) (p.readyBaseIds s) inputs)
    (hvalid : (build (s.generation + 1) inputs kMaxSnapshotAppIds kMaxSnapshotDepotIds).valid = true) (nowUs : Nat) :
    (emptyQueue.pushBatch [.syncPackage0 (p.snapshot s authoritative
        (build (s.generation + 1) inputs kMaxSnapshotAppIds kMaxSnapshotDepotIds))] nowUs).2 = (true, [.queued]) ↔
      distinct (inputs.flatMap AppInput.publishedAppIds) ≤ OwnerQueue.kMaxIdsPerCommand ∧
        distinct (inputs.flatMap AppInput.publishedDepotIds) ≤ OwnerQueue.kMaxIdsPerCommand := by
  rw [pushBatch_single, ← withinIds_iff hinputs (build_built hvalid) authoritative]
  split
  · next h => simp [h]
  · next h => simp [h]

/-- A base with one DLC and one depot. -/
def smallInputs : List AppInput := [{ baseAppId := 7, cacheValid := true, plannerAppIds := [8], depotIds := [9] }]

theorem snapshot_queued_small :
    (emptyQueue.pushBatch [.syncPackage0 ((Publication.managed [7]).snapshot {} []
        (build 1 smallInputs kMaxSnapshotAppIds kMaxSnapshotDepotIds))] 5).2 = (true, [.queued]) :=
  (snapshot_queued_iff (s := {}) (p := .managed [7]) [] ⟨rfl, by decide⟩ (by decide) 5).mpr (by decide)

def manyDlcIds : List AppId := (List.range 4096).map fun i => UInt32.ofNat (i + 2)

/-- One base with 4096 DLC ids. -/
def largeInputs : List AppInput := [{ baseAppId := 1, cacheValid := true, plannerAppIds := manyDlcIds }]

private theorem manyDlcIds_toNat {id : AppId} (h : id ∈ manyDlcIds) : 2 ≤ id.toNat := by
  obtain ⟨i, hi, rfl⟩ := List.mem_map.mp h
  rw [List.mem_range] at hi
  rw [UInt32.toNat_ofNat_of_lt' (by simp only [UInt32.size]; omega)]
  omega

private theorem nodup_manyDlcIds : manyDlcIds.Nodup := by
  apply List.Nodup.map_on _ List.nodup_range
  intro i hi j hj h
  rw [List.mem_range] at hi hj
  have hnat := congrArg UInt32.toNat h
  rw [UInt32.toNat_ofNat_of_lt' (by simp only [UInt32.size]; omega),
    UInt32.toNat_ofNat_of_lt' (by simp only [UInt32.size]; omega)] at hnat
  omega

private theorem distinct_largeInputs : distinct (largeInputs.flatMap AppInput.publishedAppIds) = 4097 := by
  have hne : ∀ id ∈ (1 : AppId) :: manyDlcIds, decide (id ≠ 0) = true := by
    intro id hid
    obtain rfl | hid := List.mem_cons.mp hid
    · rfl
    · have hge := manyDlcIds_toNat hid
      apply decide_eq_true
      rintro rfl
      exact absurd hge (by decide)
  have hpublished : largeInputs.flatMap AppInput.publishedAppIds = 1 :: manyDlcIds := by
    simp only [largeInputs, List.flatMap_cons, List.flatMap_nil, List.append_nil, AppInput.publishedAppIds, if_true]
    exact List.filter_eq_self.mpr hne
  have hnodup : ((1 : AppId) :: manyDlcIds).Nodup := by
    refine List.nodup_cons.mpr ⟨fun hmem => ?_, nodup_manyDlcIds⟩
    exact absurd (manyDlcIds_toNat hmem) (by decide)
  rw [hpublished, distinct, List.dedup_eq_self.mpr hnodup, manyDlcIds, List.length_cons, List.length_map,
    List.length_range]

/-- A valid build of 4097 app ids: the queue answers Full. -/
theorem large_snapshot_full :
    (build 1 largeInputs kMaxSnapshotAppIds kMaxSnapshotDepotIds).valid = true ∧
      (emptyQueue.pushBatch [.syncPackage0 ((Publication.managed [1]).snapshot {} []
        (build 1 largeInputs kMaxSnapshotAppIds kMaxSnapshotDepotIds))] 5).2 = (false, [.full]) := by
  have happs := distinct_largeInputs
  have hdepots : distinct (largeInputs.flatMap AppInput.publishedDepotIds) = 0 := rfl
  have hvalid : (build 1 largeInputs kMaxSnapshotAppIds kMaxSnapshotDepotIds).valid = true := by
    rw [build_valid_iff, happs, hdepots]
    decide
  have hinputs : InputsOf ((Publication.managed [1]).managedAppIds {}) ((Publication.managed [1]).readyBaseIds {})
      largeInputs := by
    constructor
    · rfl
    · intro input hinput
      rw [List.mem_singleton.mp hinput]
      rfl
  refine ⟨hvalid, ?_⟩
  rw [pushBatch_single, if_neg]
  rw [withinIds_iff hinputs (build_built hvalid) [], happs, hdepots]
  decide

end SlsteamMoon.HotReload
