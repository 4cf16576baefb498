import SlsteamMoon.HotReload.Memo
import SlsteamMoon.HotReload.Publish
import SlsteamMoon.ProvisionRefresh.Queue

/-! The coordinator's whole state under its two publishing calls, with the
membership store they guard before they submit, and what a refused call leaves. -/
namespace SlsteamMoon.HotReload

open OwnerQueue (AppId PackageSnapshot)
open ProvisionRefresh (RefreshRequest)

/-- The publications' state with what the repairs read of it. -/
structure Coordinator extends CoordinatorState where
  initialized : Bool := false
  managedGenerations : AppId → Option UInt64 := fun _ => none
  cacheMtimeSecs : AppId → Option Int := fun _ => none
  cacheRepairBaseIds : List AppId := []
  cacheRepairAfter : Nat := 0
  metadataRepairBaseIds : List AppId := []
  metadataRepairAfter : Nat := 0
  metadataRepairOpportunitySeen : Bool := false

inductive LibraryCall
  | cancel (appId : AppId)
  | queue (appId : AppId)
  deriving DecidableEq, Repr

/-- The coordinator and the membership store, and what the calls reach outside
them: the input memo, the published authority, the library queue and the
refreshes. -/
structure Process where
  coordinator : Coordinator := {}
  store : HotReloadStore.Store := {}
  memo : Memo := fun _ => none
  authoritative : List AppId := []
  library : List LibraryCall := []
  refreshes : List RefreshRequest := []

/-- How the owner queue took a snapshot. -/
inductive Mode
  | queued | onOwner | noOwner | overflow | disabled | abandoned
  deriving DecidableEq, Repr

/-- What a call finds outside the process's own state. -/
structure Surroundings where
  world : World := {}
  managedAppIds : List AppId := []
  locallyAuthoritativeApps : List AppId → List AppId := fun _ => []
  cachePublicationGeneration : AppId → UInt64 := fun _ => 0
  submitManagedState : PackageSnapshot → Mode := fun _ => .queued
  appinfoPathFound : Bool := false

def guardedAppInfoIds (managed planner authoritative : List AppId) : Finset AppId :=
  (managed ++ planner.filter (· ≠ 0) ++ authoritative.filter (· ≠ 0)).toFinset

/-- The authority first, then the guarded records. -/
def publishAppInfoScopes (p : Process) (env : Surroundings) (managed planner : List AppId) : Process :=
  let authoritative := env.locallyAuthoritativeApps managed
  { p with
    authoritative
    store := (HotReloadStore.publish p.store (guardedAppInfoIds managed planner authoritative)).2 }

structure MetadataRepairCandidate where
  appId : AppId
  runtimePending : Bool
  cacheMtimeSecs : Int

/-- Pending bases first, then the newest caches. -/
def MetadataRepairCandidate.before (left right : MetadataRepairCandidate) : Prop :=
  if left.runtimePending ≠ right.runtimePending then left.runtimePending = true
  else if left.cacheMtimeSecs ≠ right.cacheMtimeSecs then right.cacheMtimeSecs < left.cacheMtimeSecs
  else left.appId ≤ right.appId

instance : DecidableRel MetadataRepairCandidate.before := fun left right => by
  unfold MetadataRepairCandidate.before
  infer_instance

def prioritizeMetadataRepairs (candidates : List MetadataRepairCandidate) : List AppId :=
  ((candidates.insertionSort MetadataRepairCandidate.before).map MetadataRepairCandidate.appId).filter (· ≠ 0)

namespace Coordinator

/-- Fresh missing bases at the start; later only those that are still missing. -/
def nextCacheRepairs (c : Coordinator) (managed : List AppId) (built : BuildResult) : List AppId :=
  if c.generation = 0 then built.cacheMissingBaseIds
  else c.cacheRepairBaseIds.filter fun appId => appId ∈ managed ∧ appId ∈ built.cacheMissingBaseIds

/-- The base leaves the cache repairs. -/
def dropCacheRepair (c : Coordinator) (baseAppId : AppId) : Coordinator :=
  let remaining := c.cacheRepairBaseIds.filter (· ≠ baseAppId)
  { c with
    cacheRepairBaseIds := remaining
    cacheRepairAfter := if remaining.isEmpty then 0 else c.cacheRepairAfter }

end Coordinator

/-- Requests for the added bases, and for those whose own inputs changed. -/
def backgroundRequests (env : Surroundings) (added locallyChanged : List AppId) : List RefreshRequest :=
  let request (reasons : UInt8) (appId : AppId) : RefreshRequest :=
    ⟨appId, 0, env.cachePublicationGeneration appId, reasons, true, true⟩
  added.map (request 4) ++ (locallyChanged.filter (· ∉ added)).map (request 8)

/-- The coordinator a published managed set leaves. -/
def publishedCoordinator (env : Surroundings) (c : Coordinator) (managed : List AppId) (call : BuildCall)
    (built : BuildResult) (snapshot : PackageSnapshot) (refreshed : List AppId) : Coordinator :=
  let removed := difference c.managedAppIds managed
  let repairs := built.metadataMissingBaseIds.map fun appId =>
    ⟨appId, call.metadataPendingBaseIds.contains appId, (built.cacheMtimeSecs appId).getD 0⟩
  { c with
    managedAppIds := managed
    readyBaseIds := call.readyBaseIds
    generation := call.generation
    contentFingerprints := fun appId =>
      if appId ∈ managed then some (env.world.localContentFingerprint appId) else none
    metadataPendingBaseIds := call.metadataPendingBaseIds
    cacheRepairBaseIds := c.nextCacheRepairs managed built
    metadataRepairBaseIds := prioritizeMetadataRepairs repairs
    cacheMtimeSecs := built.cacheMtimeSecs
    managedGenerations := fun appId =>
      if appId ∈ managed then
        if appId ∈ refreshed then some (env.cachePublicationGeneration appId)
        else some ((c.managedGenerations appId).getD (env.cachePublicationGeneration appId))
      else if appId ∈ removed then none
      else c.managedGenerations appId
    lastSnapshot := some snapshot }

/-- The build, the guard and the submission of a managed set. The deferred bases
are edited in place, the other sets in copies. -/
def publishManaged (env : Surroundings) (p : Process) (managed : List AppId) (allowBackgroundRefresh : Bool)
    (call : BuildCall) : Bool × Process :=
  let c := p.coordinator
  let added := difference managed c.managedAppIds
  let removed := difference c.managedAppIds managed
  let locallyChanged := env.world.locallyChanged c.toCoordinatorState managed
  let p := { p with coordinator := { c with metadataDeferredBaseIds := call.metadataDeferredBaseIds } }
  let (built, memo) := buildFromCaches env.world p.memo call
  let p := { p with memo }
  if built.valid = false then (false, p)
  else
    let p := publishAppInfoScopes p env managed built.snapshot.appIds
    let snapshot := (Publication.managed managed).snapshot c.toCoordinatorState p.authoritative built
    let p := { p with library := p.library ++ added.map .cancel }
    if env.submitManagedState snapshot = .abandoned then (false, p)
    else
      let refreshed := if allowBackgroundRefresh && env.appinfoPathFound then added ++ locallyChanged else []
      (true, { p with
        coordinator := publishedCoordinator env p.coordinator managed call built snapshot refreshed
        library := p.library ++ removed.map .queue
        refreshes := p.refreshes ++
          if refreshed.isEmpty then [] else backgroundRequests env added locallyChanged })

def publishLocked (env : Surroundings) (p : Process) (managed : List AppId) (force allowBackgroundRefresh : Bool) :
    Bool × Process :=
  match managedCall env.world p.coordinator.toCoordinatorState managed force with
  | none => (false, p)
  | some call => publishManaged env p managed allowBackgroundRefresh call

/-- The arguments of the completion's build; none is one of its early returns. -/
def completionCall (env : Surroundings) (c : Coordinator) (baseAppId : AppId) (expectedManagedGeneration : UInt64) :
    Option BuildCall :=
  if baseAppId = 0 then none
  else if c.initialized = false ∨ baseAppId ∉ c.managedAppIds then none
  else if difference env.managedAppIds c.managedAppIds ≠ [] ∨ difference c.managedAppIds env.managedAppIds ≠ [] ∨
      baseAppId ∉ env.managedAppIds then none
  else if env.cachePublicationGeneration baseAppId ≠ expectedManagedGeneration then none
  else some
    { generation := c.generation + 1
      managedAppIds := env.managedAppIds
      metadataPendingBaseIds := c.metadataPendingBaseIds.filter (· ≠ baseAppId)
      metadataDeferredBaseIds := c.metadataDeferredBaseIds.filter (· ≠ baseAppId)
      readyBaseIds := c.readyBaseIds
      forceRecompute := [] }

/-- No snapshot was submitted before, or the package topology moved. -/
def snapshotChanged (c : Coordinator) (built : BuildResult) : Bool :=
  c.lastSnapshot.elim true fun last => metadataSnapshotChanged last built.snapshot

/-- What a settled completion leaves of the coordinator beside its generation. -/
def settledCoordinator (c : Coordinator) (baseAppId : AppId) (call : BuildCall) (built : BuildResult) : Coordinator :=
  { c with
    metadataPendingBaseIds := call.metadataPendingBaseIds
    metadataRepairBaseIds := built.metadataMissingBaseIds
    cacheMtimeSecs := built.cacheMtimeSecs }.dropCacheRepair baseAppId

/-- The live splice has succeeded, so the base's metadata is no longer deferred. -/
def completeMetadata (env : Surroundings) (p : Process) (baseAppId : AppId) (call : BuildCall) : Bool × Process :=
  let c := p.coordinator
  let p := { p with coordinator := { c with metadataDeferredBaseIds := call.metadataDeferredBaseIds } }
  let (built, memo) := buildFromCaches env.world p.memo call
  let p := { p with memo }
  if built.valid = false then (false, p)
  else if snapshotChanged c built = false then
    (true, { p with coordinator := settledCoordinator p.coordinator baseAppId call built })
  else
    let p := publishAppInfoScopes p env env.managedAppIds built.snapshot.appIds
    let snapshot := (Publication.metadataCompletion baseAppId).snapshot c.toCoordinatorState p.authoritative built
    if env.submitManagedState snapshot = .abandoned then (false, p)
    else
      let settled := settledCoordinator p.coordinator baseAppId call built
      (true, { p with coordinator := { settled with generation := call.generation, lastSnapshot := some snapshot } })

def publishMetadataCompletion (env : Surroundings) (p : Process) (baseAppId : AppId)
    (expectedManagedGeneration : UInt64) : Bool × Process :=
  match completionCall env p.coordinator baseAppId expectedManagedGeneration with
  | none => (false, p)
  | some call => completeMetadata env p baseAppId call

/-! The publications' part of the state, as the memo's history has it. -/

/-- How the environment decides an attempt. -/
def Surroundings.attempt (env : Surroundings) (p : Process) (publication : Publication) (managed : List AppId)
    (force : Bool) (built : BuildResult) : Attempt where
  publication := publication
  forceSourceRefresh := force
  authoritative := env.locallyAuthoritativeApps managed
  abandoned := env.submitManagedState (publication.snapshot p.coordinator.toCoordinatorState
    (env.locallyAuthoritativeApps managed) built) == .abandoned

theorem publishManaged_settles (env : Surroundings) (p : Process) (managed : List AppId)
    (force allowBackgroundRefresh : Bool) (call : BuildCall) :
    let built := (buildFromCaches env.world p.memo call).1
    (publishManaged env p managed allowBackgroundRefresh call).2.coordinator.toCoordinatorState =
      settle env.world p.coordinator.toCoordinatorState (env.attempt p (.managed managed) managed force built) call
        built := by
  dsimp only [publishManaged, publishAppInfoScopes, settle, Surroundings.attempt]
  cases hvalid : (buildFromCaches env.world p.memo call).1.valid with
  | false => simp
  | true =>
    by_cases hmode : env.submitManagedState ((Publication.managed managed).snapshot p.coordinator.toCoordinatorState
        (env.locallyAuthoritativeApps managed) (buildFromCaches env.world p.memo call).1) = .abandoned
    · simp [hmode]
    · simp [hmode, publishedCoordinator]

theorem completeMetadata_settles (env : Surroundings) (p : Process) (baseAppId : AppId) (call : BuildCall) :
    let built := (buildFromCaches env.world p.memo call).1
    (completeMetadata env p baseAppId call).2.coordinator.toCoordinatorState =
      settle env.world p.coordinator.toCoordinatorState
        (env.attempt p (.metadataCompletion baseAppId) env.managedAppIds false built) call built := by
  dsimp only [completeMetadata, publishAppInfoScopes, settle, Surroundings.attempt]
  cases hvalid : (buildFromCaches env.world p.memo call).1.valid with
  | false => simp
  | true =>
    have hsame : ((p.coordinator.lastSnapshot.map fun last => metadataSnapshotChanged last
          ((Publication.metadataCompletion baseAppId).snapshot p.coordinator.toCoordinatorState
            (env.locallyAuthoritativeApps env.managedAppIds) (buildFromCaches env.world p.memo call).1)) = some false) ↔
        snapshotChanged p.coordinator (buildFromCaches env.world p.memo call).1 = false := by
      unfold snapshotChanged
      cases p.coordinator.lastSnapshot with
      | none => simp
      | some last => simp [metadataSnapshotChanged, Publication.snapshot]
    by_cases hchanged : snapshotChanged p.coordinator (buildFromCaches env.world p.memo call).1 = false
    · simp [hsame, hchanged, settledCoordinator, Coordinator.dropCacheRepair]
    · by_cases hmode : env.submitManagedState ((Publication.metadataCompletion baseAppId).snapshot
          p.coordinator.toCoordinatorState (env.locallyAuthoritativeApps env.managedAppIds)
          (buildFromCaches env.world p.memo call).1) = .abandoned
      · simp [hsame, hchanged, hmode]
      · simp [hsame, hchanged, hmode, settledCoordinator, Coordinator.dropCacheRepair]

/-! What a refused call leaves. -/

/-- The coordinator's state and the membership store are as they were. -/
def Unchanged (p p' : Process) : Prop := p'.coordinator = p.coordinator ∧ p'.store = p.store

/-- The store publishes exactly these ids already. -/
def Guards (store : HotReloadStore.Store) (ids : Finset AppId) : Prop := ids.sort = store.current.appIds

/-- None of the deferred bases leaves the managed set, and a snapshot that is
abandoned would have guarded what is guarded. -/
def LockedKeeps (env : Surroundings) (p : Process) (managed : List AppId) (force : Bool) : Prop :=
  ∀ call, managedCall env.world p.coordinator.toCoordinatorState managed force = some call →
    let built := (buildFromCaches env.world p.memo call).1
    let authoritative := env.locallyAuthoritativeApps managed
    let snapshot := (Publication.managed managed).snapshot p.coordinator.toCoordinatorState authoritative built
    let stays := ∀ appId ∈ p.coordinator.metadataDeferredBaseIds, appId ∉ difference p.coordinator.managedAppIds managed
    (built.valid = false → stays) ∧
      (built.valid = true → env.submitManagedState snapshot = .abandoned →
        stays ∧ Guards p.store (guardedAppInfoIds managed built.snapshot.appIds authoritative))

/-- The base is not deferred, and likewise for an abandoned snapshot. -/
def CompletionKeeps (env : Surroundings) (p : Process) (baseAppId : AppId) (expectedManagedGeneration : UInt64) : Prop :=
  ∀ call, completionCall env p.coordinator baseAppId expectedManagedGeneration = some call →
    let built := (buildFromCaches env.world p.memo call).1
    let authoritative := env.locallyAuthoritativeApps env.managedAppIds
    let snapshot :=
      (Publication.metadataCompletion baseAppId).snapshot p.coordinator.toCoordinatorState authoritative built
    (built.valid = false → baseAppId ∉ p.coordinator.metadataDeferredBaseIds) ∧
      (built.valid = true → snapshotChanged p.coordinator built = true →
        env.submitManagedState snapshot = .abandoned →
        baseAppId ∉ p.coordinator.metadataDeferredBaseIds ∧
          Guards p.store (guardedAppInfoIds env.managedAppIds built.snapshot.appIds authoritative))

private theorem publish_eq_self_iff (store : HotReloadStore.Store) (ids : Finset AppId) :
    (HotReloadStore.publish store ids).2 = store ↔ Guards store ids := by
  unfold HotReloadStore.publish Guards
  dsimp only
  split
  · next hsame => simp [hsame]
  · next hne =>
    refine ⟨fun heq => ?_, fun hsame => absurd hsame hne⟩
    have hgeneration := congrArg (fun s => s.current.generation) heq
    exact absurd hgeneration (HotReloadStore.generation_succ_ne _)

private theorem editDeferred_eq_self_iff (c : Coordinator) (ids : List AppId) :
    { c with metadataDeferredBaseIds := ids } = c ↔ ids = c.metadataDeferredBaseIds := by
  constructor
  · intro h
    have hids := congrArg (fun c => c.metadataDeferredBaseIds) h
    exact hids
  · rintro rfl
    rfl

private theorem managedCall_deferred {w : World} {c : CoordinatorState} {managed : List AppId} {force : Bool}
    {call : BuildCall} (h : managedCall w c managed force = some call) :
    call.metadataDeferredBaseIds = c.metadataDeferredBaseIds.filter (· ∉ difference c.managedAppIds managed) := by
  unfold managedCall at h
  dsimp only at h
  split at h
  · cases h
  · split at h
    · cases h
    · obtain rfl := Option.some.inj h
      rfl

private theorem completionCall_deferred {env : Surroundings} {c : Coordinator} {baseAppId : AppId} {expected : UInt64}
    {call : BuildCall} (h : completionCall env c baseAppId expected = some call) :
    call.metadataDeferredBaseIds = c.metadataDeferredBaseIds.filter (· ≠ baseAppId) := by
  unfold completionCall at h
  split_ifs at h
  obtain rfl := Option.some.inj h
  rfl

/-- A refused publication of a managed set leaves everything exactly when nothing
it edited ahead was there to edit. -/
theorem publishLocked_refused_iff (env : Surroundings) (p : Process) (managed : List AppId)
    (force allowBackgroundRefresh : Bool) :
    ((publishLocked env p managed force allowBackgroundRefresh).1 = false →
      Unchanged p (publishLocked env p managed force allowBackgroundRefresh).2) ↔ LockedKeeps env p managed force := by
  unfold publishLocked LockedKeeps
  cases hcall : managedCall env.world p.coordinator.toCoordinatorState managed force with
  | none => simp [Unchanged]
  | some call =>
    have hdeferred := managedCall_deferred hcall
    have hstays : call.metadataDeferredBaseIds = p.coordinator.metadataDeferredBaseIds ↔
        ∀ appId ∈ p.coordinator.metadataDeferredBaseIds, appId ∉ difference p.coordinator.managedAppIds managed := by
      rw [hdeferred, List.filter_eq_self]
      simp
    simp only [Option.some.injEq, forall_eq', publishManaged, publishAppInfoScopes]
    cases hvalid : (buildFromCaches env.world p.memo call).1.valid with
    | false => simp [Unchanged, editDeferred_eq_self_iff, hstays]
    | true =>
      by_cases hmode : env.submitManagedState ((Publication.managed managed).snapshot p.coordinator.toCoordinatorState
          (env.locallyAuthoritativeApps managed) (buildFromCaches env.world p.memo call).1) = .abandoned
      · simp [Unchanged, editDeferred_eq_self_iff, publish_eq_self_iff, hstays, hmode]
      · simp [hmode]

private theorem publishMetadataCompletion_refused_iff (env : Surroundings) (p : Process) (baseAppId : AppId)
    (expectedManagedGeneration : UInt64) :
    ((publishMetadataCompletion env p baseAppId expectedManagedGeneration).1 = false →
      Unchanged p (publishMetadataCompletion env p baseAppId expectedManagedGeneration).2) ↔
      CompletionKeeps env p baseAppId expectedManagedGeneration := by
  unfold publishMetadataCompletion CompletionKeeps
  cases hcall : completionCall env p.coordinator baseAppId expectedManagedGeneration with
  | none => simp [Unchanged]
  | some call =>
    have hdeferred := completionCall_deferred hcall
    have hstays : call.metadataDeferredBaseIds = p.coordinator.metadataDeferredBaseIds ↔
        baseAppId ∉ p.coordinator.metadataDeferredBaseIds := by
      rw [hdeferred, List.filter_eq_self]
      constructor
      · intro h hin
        simpa using h baseAppId hin
      · rintro h appId hin
        exact decide_eq_true fun heq => h (heq ▸ hin)
    simp only [Option.some.injEq, forall_eq', completeMetadata, publishAppInfoScopes]
    cases hvalid : (buildFromCaches env.world p.memo call).1.valid with
    | false => simp [Unchanged, editDeferred_eq_self_iff, hstays]
    | true =>
      simp only [Bool.true_eq_false, if_false]
      cases hchanged : snapshotChanged p.coordinator (buildFromCaches env.world p.memo call).1 with
      | false => simp
      | true =>
        by_cases hmode : env.submitManagedState ((Publication.metadataCompletion baseAppId).snapshot
            p.coordinator.toCoordinatorState (env.locallyAuthoritativeApps env.managedAppIds)
            (buildFromCaches env.world p.memo call).1) = .abandoned
        · simp [Unchanged, editDeferred_eq_self_iff, publish_eq_self_iff, hstays, hmode]
        · simp [hmode]

/-- Each of the two calls, when it fails, leaves the coordinator and the store as
they were exactly when the sets it edited before its last point of failure did not
hold what it took out or publishes what it put in. -/
theorem refused_publication_changes_nothing_iff (env : Surroundings) (p : Process) :
    (∀ managed force allowBackgroundRefresh,
      ((publishLocked env p managed force allowBackgroundRefresh).1 = false →
        Unchanged p (publishLocked env p managed force allowBackgroundRefresh).2) ↔ LockedKeeps env p managed force) ∧
    ∀ baseAppId expectedManagedGeneration,
      ((publishMetadataCompletion env p baseAppId expectedManagedGeneration).1 = false →
        Unchanged p (publishMetadataCompletion env p baseAppId expectedManagedGeneration).2) ↔
        CompletionKeeps env p baseAppId expectedManagedGeneration :=
  ⟨fun managed force allowBackgroundRefresh => publishLocked_refused_iff env p managed force allowBackgroundRefresh,
    fun baseAppId expected => publishMetadataCompletion_refused_iff env p baseAppId expected⟩

def dlcRange (count : Nat) : List AppId := (List.range count).map fun i => UInt32.ofNat (i + 11)

private theorem toNat_dlc {count i : Nat} (hcount : count < 4294967285) (hi : i < count) :
    (UInt32.ofNat (i + 11)).toNat = i + 11 :=
  UInt32.toNat_ofNat_of_lt' (by simp only [UInt32.size]; omega)

private theorem nodup_dlcRange {count : Nat} (hcount : count < 4294967285) :
    ((10 : AppId) :: dlcRange count).Nodup := by
  refine List.nodup_cons.mpr ⟨fun hin => ?_, List.Nodup.map_on (fun i hi j hj heq => ?_) List.nodup_range⟩
  · obtain ⟨i, hi, heq⟩ := List.mem_map.mp hin
    have hnat := congrArg UInt32.toNat heq
    rw [toNat_dlc hcount (List.mem_range.mp hi)] at hnat
    change i + 11 = 10 at hnat
    omega
  · have hnat := congrArg UInt32.toNat heq
    rw [toNat_dlc hcount (List.mem_range.mp hi), toNat_dlc hcount (List.mem_range.mp hj)] at hnat
    omega

private theorem mem_foldl_appendUnique_iff {ids out : List AppId} {id : AppId} :
    id ∈ ids.foldl appendUnique out ↔ id ∈ out ∨ id ≠ 0 ∧ id ∈ ids := by
  induction ids generalizing out with
  | nil => simp
  | cons first ids ih =>
    rw [List.foldl_cons, ih]
    unfold appendUnique
    split <;> grind

/-- Base 10 has so many planner ids. -/
def wideWorld (count : Nat) : World where
  files appId := if appId = 10 then { buffer := some { sources := { depotTagged := dlcRange count } } } else {}

/-- Bases 5 and 10 are managed, and the metadata of 5 waits for a restart. -/
def deferredFive : Process where
  coordinator :=
    { initialized := true, generation := 1, managedAppIds := [5, 10], readyBaseIds := [5, 10]
      metadataDeferredBaseIds := [5] }

private theorem wide_build_invalid {count : Nat} (hcount : count < 4294967285) (hwide : kMaxSnapshotAppIds ≤ count)
    {call : BuildCall} (hmanaged : call.managedAppIds = [10]) (hready : call.readyBaseIds = [10]) :
    (buildFromCaches (wideWorld count) (fun _ => none) call).1.valid = false := by
  rw [Bool.eq_false_iff]
  intro hvalid
  simp only [buildFromCaches, build_valid_iff] at hvalid
  -- every planner id of base 10 is published
  have hpublished : ∀ id ∈ (10 : AppId) :: dlcRange count, id ∈ ((sorted call.managedAppIds).map fun baseAppId =>
      (call.entry (wideWorld count) (fun _ => none) baseAppId).input).flatMap AppInput.publishedAppIds := by
    intro id hid
    have hne : id ≠ 0 := by
      rintro rfl
      rcases List.mem_cons.mp hid with heq | hin
      · exact absurd heq (by decide)
      · obtain ⟨i, hi, heq⟩ := List.mem_map.mp hin
        have hnat := congrArg UInt32.toNat heq
        rw [toNat_dlc hcount (List.mem_range.mp hi)] at hnat
        exact absurd hnat (Nat.succ_ne_zero _)
    have hplanner : id ∈ (dlcRange count).foldl appendUnique [] ↔ id ∈ dlcRange count := by
      simp [mem_foldl_appendUnique_iff, hne]
    rw [hmanaged]
    simp [sorted, BuildCall.entry, BuildCall.reused, BuildCall.compute, BuildCall.key, World.buildOneInput, wideWorld,
      hready, World.plannerAppIds, selectDlcInjectionIds, AppInput.publishedAppIds, hplanner, hne]
    simpa using hid
  have hsubperm := List.subperm_of_subset (nodup_dlcRange hcount) fun id hid =>
    List.mem_dedup.mpr (hpublished id hid)
  have hlength := hsubperm.length_le
  have hmax := hvalid.1
  simp only [distinct, dlcRange, List.length_cons, List.length_map, List.length_range] at hlength hmax
  omega

/-- A watcher's set without base 5 is refused by its size, and base 5, which stays
managed, is no longer deferred. -/
theorem refused_publication_forgets_deferred :
    (publishLocked { world := wideWorld 16384 } deferredFive [10] false true).1 = false ∧
      ¬Unchanged deferredFive (publishLocked { world := wideWorld 16384 } deferredFive [10] false true).2 := by
  obtain ⟨call, hcall, hmanaged, hready, hdeferred⟩ : ∃ call,
      managedCall (wideWorld 16384) deferredFive.coordinator.toCoordinatorState [10] false = some call ∧
        call.managedAppIds = [10] ∧ call.readyBaseIds = [10] ∧ call.metadataDeferredBaseIds = [] :=
    ⟨_, rfl, rfl, by decide, by decide⟩
  have hinvalid : (buildFromCaches (wideWorld 16384) (fun _ => none) call).1.valid = false :=
    wide_build_invalid (by decide) (by decide) hmanaged hready
  have hrefused : publishLocked { world := wideWorld 16384 } deferredFive [10] false true =
      (false, { deferredFive with
        coordinator := { deferredFive.coordinator with metadataDeferredBaseIds := [] }
        memo := (buildFromCaches (wideWorld 16384) (fun _ => none) call).2 }) := by
    simp only [publishLocked, hcall, publishManaged, hdeferred]
    exact if_pos hinvalid
  rw [hrefused]
  refine ⟨rfl, fun h => ?_⟩
  have hids := congrArg (fun c => c.metadataDeferredBaseIds) h.1
  exact List.cons_ne_nil _ _ hids.symm

end SlsteamMoon.HotReload
