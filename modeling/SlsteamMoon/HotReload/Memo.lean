import SlsteamMoon.HotReload.Coordinator
import SlsteamMoon.Runs

/-! The per-base memo of the snapshot inputs, over the caches, keys and settings
that an input is computed from. -/
namespace SlsteamMoon.HotReload

open OwnerQueue (AppId PackageSnapshot)
open Runs

structure DlcAppIds where
  depotTagged : List AppId := []
  advertised : List AppId := []
  deriving DecidableEq

/-- What the scans of a validated cache buffer answer. -/
structure CachedAppInfo where
  sources : DlcAppIds := {}
  hasDepotsInDlc : Bool := false
  deriving DecidableEq

structure DlcMetadataRecord where
  rejectedAppIds : List AppId := []
  appIds : List AppId := []
  deriving DecidableEq

/-- What reads of an app's caches answer: the validated records, and the times
in whole seconds. -/
structure CacheFiles where
  buffer : Option CachedAppInfo := none
  pairMtimeSecs : Int := 0
  dlcMetadata : Option DlcMetadataRecord := none
  dlcMetadataMtimeSecs : Int := 0

structure SavedKey where
  appId : AppId
  depotId : UInt32
  key : List UInt8
  managed : Bool

structure World where
  files : AppId → CacheFiles := fun _ => {}
  keys : List SavedKey := []
  archivedGids : UInt32 → UInt64 := fun _ => 0
  injectAllAdvertisedDlc : Bool := false

def World.managedDepotsForApp (w : World) (appId : AppId) : List UInt32 :=
  if appId = 0 then []
  else sorted ((w.keys.filter fun k => k.managed && k.appId == appId && k.depotId != 0).map SavedKey.depotId)

def World.cachedKey (w : World) (depotId : UInt32) : List UInt8 :=
  ((w.keys.find? fun k => k.depotId == depotId).map SavedKey.key).getD []

structure LocalInput where
  depotId : UInt32
  key : List UInt8
  manifestGid : UInt64

def fnvByte (hash : UInt64) (byte : UInt8) : UInt64 := (hash ^^^ byte.toUInt64) * 1099511628211

/-- The most significant byte first. -/
def fnvUnsigned (width : Nat) (hash value : UInt64) : UInt64 :=
  (List.range width).reverse.foldl (fun h i => fnvByte h (value >>> UInt64.ofNat (8 * i)).toUInt8) hash

def fingerprint (inputs : List LocalInput) : UInt64 :=
  inputs.foldl (fun hash input =>
    let hash := fnvUnsigned 4 hash input.depotId.toUInt64
    let hash := fnvUnsigned 8 hash (UInt64.ofNat input.key.length)
    fnvUnsigned 8 (input.key.foldl fnvByte hash) input.manifestGid) 14695981039346656037

/-- Over the app's own depots, in ascending order. -/
def World.localContentFingerprint (w : World) (appId : AppId) : UInt64 :=
  fingerprint ((w.managedDepotsForApp appId).map fun depotId =>
    ⟨depotId, w.cachedKey depotId, w.archivedGids depotId⟩)

def selectDlcMetadataCandidates (baseAppId : AppId) (sources : DlcAppIds) : List AppId :=
  sortUnique ((sources.advertised ++ sources.depotTagged).filter fun id => id ≠ 0 ∧ id ≠ baseAppId)

def appendUnique (out : List AppId) (id : AppId) : List AppId :=
  if id ≠ 0 ∧ id ∉ out then out ++ [id] else out

/-- The ids for package 0. -/
def selectDlcInjectionIds (sources : DlcAppIds) (advertisedWithContent : List AppId) (injectAllAdvertised : Bool) :
    List AppId :=
  sources.advertised.foldl
    (fun out id => if injectAllAdvertised || advertisedWithContent.contains id then appendUnique out id else out)
    (sources.depotTagged.foldl appendUnique [])

/-- The metadata's rejected ids leave the planner ids and its apps join them. -/
def withDlcMetadata (plannerAppIds : List AppId) (record : DlcMetadataRecord) : List AppId :=
  record.appIds.foldl appendUnique (plannerAppIds.filter (· ∉ record.rejectedAppIds))

def World.plannerAppIds (w : World) (files : CacheFiles) (info : CachedAppInfo) (deferred : Bool) : List AppId :=
  let advertisedWithContent := info.sources.advertised.filter fun id =>
    info.hasDepotsInDlc || !(w.managedDepotsForApp id).isEmpty
  let selected := selectDlcInjectionIds info.sources advertisedWithContent w.injectAllAdvertisedDlc
  match files.dlcMetadata with
  | some record => if deferred then selected else withDlcMetadata selected record
  | none => selected

def World.buildOneInput (w : World) (baseAppId : AppId) (pending deferred ready : Bool) : AppInput :=
  let files := w.files baseAppId
  match files.buffer with
  | none =>
    { baseAppId, publishReady := ready, depotIds := w.managedDepotsForApp baseAppId }
  | some info =>
    let hasCandidates := !(selectDlcMetadataCandidates baseAppId info.sources).isEmpty
    let planner := w.plannerAppIds files info deferred
    { baseAppId, publishReady := ready, cacheValid := true
      cacheMtimeSecs := files.pairMtimeSecs
      plannerAppIds := planner
      childMetadataPending := pending && hasCandidates
      childMetadataMissing := hasCandidates && files.dlcMetadata.isNone
      depotIds := w.managedDepotsForApp baseAppId ++ planner.flatMap w.managedDepotsForApp }

structure MemoKey where
  pairMtime : Int
  dlcMetaMtime : Int
  ready : Bool
  pending : Bool
  deferred : Bool
  deriving DecidableEq

structure MemoEntry where
  key : MemoKey
  input : AppInput

abbrev Memo := AppId → Option MemoEntry

/-- The arguments of one build. -/
structure BuildCall where
  generation : UInt64
  managedAppIds : List AppId
  metadataPendingBaseIds : List AppId
  metadataDeferredBaseIds : List AppId
  readyBaseIds : List AppId
  forceRecompute : List AppId

def BuildCall.key (call : BuildCall) (w : World) (baseAppId : AppId) : MemoKey where
  pairMtime := (w.files baseAppId).pairMtimeSecs
  dlcMetaMtime := (w.files baseAppId).dlcMetadataMtimeSecs
  ready := call.readyBaseIds.contains baseAppId
  pending := call.metadataPendingBaseIds.contains baseAppId
  deferred := call.metadataDeferredBaseIds.contains baseAppId

def BuildCall.compute (call : BuildCall) (w : World) (baseAppId : AppId) : MemoEntry :=
  let key := call.key w baseAppId
  ⟨key, w.buildOneInput baseAppId key.pending key.deferred key.ready⟩

/-- The memo's entry, unless the base is forced or its key moved. -/
def BuildCall.reused (call : BuildCall) (w : World) (memo : Memo) (baseAppId : AppId) : Option MemoEntry :=
  if baseAppId ∈ call.forceRecompute then none
  else (memo baseAppId).filter fun entry => entry.key = call.key w baseAppId

def BuildCall.entry (call : BuildCall) (w : World) (memo : Memo) (baseAppId : AppId) : MemoEntry :=
  (call.reused w memo baseAppId).getD (call.compute w baseAppId)

/-- The result and the memo the call leaves: an entry for each managed base. -/
def buildFromCaches (w : World) (memo : Memo) (call : BuildCall) : BuildResult × Memo :=
  let inputs := (sorted call.managedAppIds).map fun baseAppId => (call.entry w memo baseAppId).input
  (build call.generation inputs kMaxSnapshotAppIds kMaxSnapshotDepotIds,
    fun baseAppId => if baseAppId ∈ call.managedAppIds then some (call.entry w memo baseAppId) else none)

/-- The publications' state, the memo and the world; an entry's origin is the
world it was computed from. -/
structure History where
  world : World
  memo : Memo := fun _ => none
  coordinator : CoordinatorState := {}
  origin : AppId → World

/-- A publication with what the environment decides of it: whether the watcher
forces it, which apps are authoritative, and whether the owner queue is closed. -/
structure Attempt where
  publication : Publication
  forceSourceRefresh : Bool := false
  authoritative : List AppId := []
  abandoned : Bool := false

inductive Event
  | writeCaches (appId : AppId) (files : CacheFiles)
  | saveKey (key : SavedKey)
  | archive (depotId : UInt32) (gid : UInt64)
  | setInjectAllAdvertisedDlc (on : Bool)
  | noteDlcMetadataCacheCompletion (baseAppId : AppId)
  | publish (attempt : Attempt)
  | shutdown

def World.locallyChanged (w : World) (c : CoordinatorState) (managed : List AppId) : List AppId :=
  managed.filter fun appId => c.contentFingerprints appId ≠ some (w.localContentFingerprint appId)

/-- The arguments of publishLocked's build; none is its early return. -/
def managedCall (w : World) (c : CoordinatorState) (managed : List AppId) (force : Bool) : Option BuildCall :=
  let initialPublication := c.generation == 0
  let added := difference managed c.managedAppIds
  let removed := difference c.managedAppIds managed
  let membershipChanged := !added.isEmpty || !removed.isEmpty
  let locallyChanged := w.locallyChanged c managed
  if !(initialPublication || membershipChanged || force) then none
  else if !(initialPublication || membershipChanged || !locallyChanged.isEmpty) then none
  else
    let pending := c.metadataPendingBaseIds.filter (· ∉ removed)
    some
      { generation := c.generation + 1
        managedAppIds := managed
        metadataPendingBaseIds := if initialPublication then pending else pending ++ added
        metadataDeferredBaseIds := c.metadataDeferredBaseIds.filter (· ∉ removed)
        readyBaseIds := (Publication.managed managed).readyBaseIds c
        forceRecompute := added ++ locallyChanged }

/-- The arguments of the build a publication makes; the two completions force nothing. -/
def buildCall (w : World) (c : CoordinatorState) (attempt : Attempt) : Option BuildCall :=
  match attempt.publication with
  | .managed managed => managedCall w c managed attempt.forceSourceRefresh
  | .preparedBase baseAppId =>
    if baseAppId = 0 ∨ baseAppId ∉ c.managedAppIds ∨ baseAppId ∈ c.readyBaseIds then none
    else some
      { generation := c.generation + 1
        managedAppIds := c.managedAppIds
        metadataPendingBaseIds := c.metadataPendingBaseIds
        metadataDeferredBaseIds := c.metadataDeferredBaseIds
        readyBaseIds := (Publication.preparedBase baseAppId).readyBaseIds c
        forceRecompute := [] }
  | .metadataCompletion baseAppId =>
    if baseAppId = 0 ∨ baseAppId ∉ c.managedAppIds then none
    else some
      { generation := c.generation + 1
        managedAppIds := c.managedAppIds
        metadataPendingBaseIds := c.metadataPendingBaseIds.filter (· ≠ baseAppId)
        metadataDeferredBaseIds := c.metadataDeferredBaseIds.filter (· ≠ baseAppId)
        readyBaseIds := (Publication.metadataCompletion baseAppId).readyBaseIds c
        forceRecompute := [] }

def metadataSnapshotChanged (previous next : PackageSnapshot) : Bool :=
  previous.appIds != next.appIds || previous.depotIds != next.depotIds ||
    previous.metadataComplete != next.metadataComplete

/-- What a publication leaves of the coordinator after its build. -/
def settle (w : World) (c : CoordinatorState) (attempt : Attempt) (call : BuildCall) (built : BuildResult) :
    CoordinatorState :=
  let snapshot := attempt.publication.snapshot c attempt.authoritative built
  let c := { c with metadataDeferredBaseIds := call.metadataDeferredBaseIds }
  if built.valid = false then c
  else
    match attempt.publication with
    | .managed managed =>
      if attempt.abandoned then c
      else
        { c with
          generation := call.generation
          managedAppIds := managed
          readyBaseIds := call.readyBaseIds
          metadataPendingBaseIds := call.metadataPendingBaseIds
          contentFingerprints := fun appId =>
            if appId ∈ managed then some (w.localContentFingerprint appId) else none
          lastSnapshot := some snapshot }
    | .preparedBase baseAppId =>
      if baseAppId ∉ snapshot.appIds ∨ attempt.abandoned = true then c
      else { c with generation := call.generation, readyBaseIds := call.readyBaseIds, lastSnapshot := some snapshot }
    | .metadataCompletion _ =>
      if (c.lastSnapshot.map fun last => metadataSnapshotChanged last snapshot) = some false then
        { c with metadataPendingBaseIds := call.metadataPendingBaseIds }
      else if attempt.abandoned then c
      else
        { c with
          generation := call.generation
          metadataPendingBaseIds := call.metadataPendingBaseIds
          lastSnapshot := some snapshot }

def History.publish (s : History) (attempt : Attempt) : History :=
  match buildCall s.world s.coordinator attempt with
  | none => s
  | some call =>
    let (built, memo) := buildFromCaches s.world s.memo call
    { s with
      memo
      coordinator := settle s.world s.coordinator attempt call built
      origin := fun baseAppId =>
        if (call.reused s.world s.memo baseAppId).isSome then s.origin baseAppId else s.world }

def step (s : History) : Event → Option History
  | .writeCaches appId files =>
    some { s with world := { s.world with files := Function.update s.world.files appId files } }
  | .saveKey key =>
    some { s with world := { s.world with keys := key :: s.world.keys.filter (·.depotId ≠ key.depotId) } }
  | .archive depotId gid =>
    some { s with world := { s.world with archivedGids := Function.update s.world.archivedGids depotId gid } }
  | .setInjectAllAdvertisedDlc on => some { s with world := { s.world with injectAllAdvertisedDlc := on } }
  | .noteDlcMetadataCacheCompletion baseAppId =>
    if baseAppId = 0 ∨ baseAppId ∉ s.coordinator.managedAppIds ∨
        baseAppId ∈ s.coordinator.metadataPendingBaseIds then some s
    else some
      { s with
        coordinator :=
          { s.coordinator with
            metadataDeferredBaseIds := s.coordinator.metadataDeferredBaseIds.insert baseAppId } }
  | .publish attempt => some (s.publish attempt)
  | .shutdown => some { s with memo := fun _ => none, coordinator := {} }

def start (w : World) : History where
  world := w
  origin := fun _ => w

/-- The build of the step, if it makes one, gives what it gives with an empty memo. -/
def Agrees (s : History) : Event → Prop
  | .publish attempt => ∀ call, buildCall s.world s.coordinator attempt = some call →
      (buildFromCaches s.world s.memo call).1 = (buildFromCaches s.world (fun _ => none) call).1
  | _ => True

/-- The ids whose depots an app's input looks at. -/
def World.contentIds (w : World) (baseAppId : AppId) : List AppId :=
  let files := w.files baseAppId
  baseAppId :: (files.buffer.elim [] fun info => info.sources.advertised ++ info.sources.depotTagged) ++
    files.dlcMetadata.elim [] DlcMetadataRecord.appIds

/-- What an app's input is computed from, beside the observed times. -/
structure SameSources (old new : World) (baseAppId : AppId) : Prop where
  buffer : (old.files baseAppId).buffer = (new.files baseAppId).buffer
  dlcMetadata : (new.files baseAppId).buffer.isSome = true →
    (old.files baseAppId).dlcMetadata = (new.files baseAppId).dlcMetadata
  injectAll : ∀ info, (new.files baseAppId).buffer = some info →
    info.sources.advertised = [] ∨ old.injectAllAdvertisedDlc = new.injectAllAdvertisedDlc
  depots : ∀ id ∈ new.contentIds baseAppId, old.managedDepotsForApp id = new.managedDepotsForApp id

/-- Where the step's build takes an entry of the memo, nothing the entry was
computed from has changed. -/
def Fresh (s : History) : Event → Prop
  | .publish attempt => ∀ call, buildCall s.world s.coordinator attempt = some call →
      ∀ baseAppId ∈ call.managedAppIds, (call.reused s.world s.memo baseAppId).isSome = true →
        SameSources (s.origin baseAppId) s.world baseAppId
  | _ => True

private theorem mem_foldl_appendUnique {ids out : List AppId} {id : AppId} (h : id ∈ ids.foldl appendUnique out) :
    id ∈ out ∨ id ∈ ids := by
  induction ids generalizing out with
  | nil => exact Or.inl h
  | cons first ids ih =>
    obtain h | h := ih h
    · simp only [appendUnique] at h
      split at h
      · obtain h | h := List.mem_append.mp h
        · exact Or.inl h
        · exact Or.inr (by simp [List.mem_singleton.mp h])
      · exact Or.inl h
    · exact Or.inr (List.mem_cons_of_mem _ h)

private theorem mem_selectDlcInjectionIds {sources : DlcAppIds} {withContent : List AppId} {all : Bool} {id : AppId}
    (h : id ∈ selectDlcInjectionIds sources withContent all) : id ∈ sources.advertised ∨ id ∈ sources.depotTagged := by
  have hadvertised : ∀ (advertised out : List AppId),
      id ∈ advertised.foldl
        (fun out id => if all || withContent.contains id then appendUnique out id else out) out →
      id ∈ out ∨ id ∈ advertised := by
    intro advertised
    induction advertised with
    | nil => exact fun out h => Or.inl h
    | cons first rest ih =>
      intro out h
      obtain h | h := ih _ h
      · dsimp only at h
        split at h
        · have h : id ∈ [first].foldl appendUnique out := h
          obtain h | h := mem_foldl_appendUnique h
          · exact Or.inl h
          · exact Or.inr (by simp [List.mem_singleton.mp h])
        · exact Or.inl h
      · exact Or.inr (List.mem_cons_of_mem _ h)
  obtain h | h := hadvertised _ _ h
  · exact Or.inr ((mem_foldl_appendUnique h).resolve_left List.not_mem_nil)
  · exact Or.inl h

/-- Planner ids come from the buffer or from the metadata. -/
theorem plannerAppIds_subset {w : World} {baseAppId : AppId} {info : CachedAppInfo}
    (hbuffer : (w.files baseAppId).buffer = some info) (deferred : Bool) {id : AppId}
    (h : id ∈ w.plannerAppIds (w.files baseAppId) info deferred) : id ∈ w.contentIds baseAppId := by
  have hselected : ∀ {withContent all}, id ∈ selectDlcInjectionIds info.sources withContent all →
      id ∈ w.contentIds baseAppId := by
    intro withContent all hid
    obtain hid | hid := mem_selectDlcInjectionIds hid <;> simp [World.contentIds, hbuffer, hid]
  simp only [World.plannerAppIds] at h
  split at h
  · next record hrecord =>
    split at h
    · exact hselected h
    · obtain h | h := mem_foldl_appendUnique h
      · exact hselected (List.mem_filter.mp h).1
      · simp [World.contentIds, hrecord, h]
  · exact hselected h

private theorem plannerAppIds_congr {old new : World} {baseAppId : AppId} (h : SameSources old new baseAppId)
    {info : CachedAppInfo} (hbuffer : (new.files baseAppId).buffer = some info) (deferred : Bool) :
    old.plannerAppIds (old.files baseAppId) info deferred = new.plannerAppIds (new.files baseAppId) info deferred := by
  have hmetadata := h.dlcMetadata (by rw [hbuffer]; rfl)
  have hcontent : (info.sources.advertised.filter fun id =>
        info.hasDepotsInDlc || !(old.managedDepotsForApp id).isEmpty) =
      info.sources.advertised.filter fun id => info.hasDepotsInDlc || !(new.managedDepotsForApp id).isEmpty := by
    apply List.filter_congr
    intro id hid
    rw [h.depots id (by simp [World.contentIds, hbuffer, hid])]
  have hselected : ∀ withContent,
      selectDlcInjectionIds info.sources withContent old.injectAllAdvertisedDlc =
        selectDlcInjectionIds info.sources withContent new.injectAllAdvertisedDlc := by
    intro withContent
    obtain hnone | hsame := h.injectAll info hbuffer
    · simp only [selectDlcInjectionIds, hnone, List.foldl_nil]
    · rw [hsame]
  simp only [World.plannerAppIds, hmetadata, hcontent, hselected]

/-- An input is a function of its sources, the pair's time and the three flags. -/
theorem buildOneInput_congr {old new : World} {baseAppId : AppId} (h : SameSources old new baseAppId)
    (htime : (old.files baseAppId).pairMtimeSecs = (new.files baseAppId).pairMtimeSecs)
    (pending deferred ready : Bool) :
    old.buildOneInput baseAppId pending deferred ready = new.buildOneInput baseAppId pending deferred ready := by
  have hbase : old.managedDepotsForApp baseAppId = new.managedDepotsForApp baseAppId :=
    h.depots baseAppId (by simp [World.contentIds])
  simp only [World.buildOneInput, h.buffer, htime, hbase]
  split
  · rfl
  · next info hbuffer =>
    have hmetadata := h.dlcMetadata (by rw [hbuffer]; rfl)
    have hdepots : (new.plannerAppIds (new.files baseAppId) info deferred).flatMap old.managedDepotsForApp =
        (new.plannerAppIds (new.files baseAppId) info deferred).flatMap new.managedDepotsForApp := by
      apply List.flatMap_congr
      intro id hid
      exact h.depots id (plannerAppIds_subset hbuffer deferred hid)
    rw [plannerAppIds_congr h hbuffer deferred, hdepots, hmetadata]

/-- Every entry is what its origin gives for the state in its key. -/
def Recorded (s : History) : Prop :=
  ∀ baseAppId entry, s.memo baseAppId = some entry →
    entry.key.pairMtime = ((s.origin baseAppId).files baseAppId).pairMtimeSecs ∧
      entry.input =
        (s.origin baseAppId).buildOneInput baseAppId entry.key.pending entry.key.deferred entry.key.ready

private theorem reused_eq_some {call : BuildCall} {w : World} {memo : Memo} {baseAppId : AppId} {entry : MemoEntry}
    (h : call.reused w memo baseAppId = some entry) :
    baseAppId ∉ call.forceRecompute ∧ memo baseAppId = some entry ∧ entry.key = call.key w baseAppId := by
  simp only [BuildCall.reused] at h
  split at h
  · cases h
  · next hforce =>
    obtain ⟨hmemo, hkey⟩ := Option.filter_eq_some_iff.mp h
    exact ⟨hforce, hmemo, of_decide_eq_true hkey⟩

private theorem recorded_publish {s : History} (h : Recorded s) (attempt : Attempt) : Recorded (s.publish attempt) := by
  simp only [History.publish]
  split
  · exact h
  · next call _ =>
    intro baseAppId entry hentry
    simp only [buildFromCaches] at hentry
    split at hentry
    · obtain rfl := Option.some.inj hentry
      simp only [BuildCall.entry]
      cases hreused : call.reused s.world s.memo baseAppId with
      | none => exact ⟨rfl, rfl⟩
      | some entry => exact h baseAppId entry (reused_eq_some hreused).2.1
    · cases hentry

private theorem recorded_step (s : History) (e : Event) (t : History) (h : Recorded s) (hstep : step s e = some t) :
    Recorded t := by
  cases e with
  | noteDlcMetadataCacheCompletion baseAppId =>
    simp only [step] at hstep
    split at hstep <;> obtain rfl := Option.some.inj hstep <;> exact h
  | publish attempt =>
    obtain rfl := Option.some.inj hstep
    exact recorded_publish h attempt
  | shutdown =>
    obtain rfl := Option.some.inj hstep
    intro baseAppId entry hentry
    cases hentry
  | writeCaches | saveKey | archive | setInjectAllAdvertisedDlc =>
    obtain rfl := Option.some.inj hstep
    exact h

private theorem buildOneInput_base (w : World) (baseAppId : AppId) (pending deferred ready : Bool) :
    (w.buildOneInput baseAppId pending deferred ready).baseAppId = baseAppId := by
  simp only [World.buildOneInput]
  split <;> rfl

private theorem buildOneInput_ready (w : World) (baseAppId : AppId) (pending deferred ready : Bool) :
    (w.buildOneInput baseAppId pending deferred ready).publishReady = ready := by
  simp only [World.buildOneInput]
  split <;> rfl

/-- Also with a stale memo the inputs name each managed base, ready as the set says. -/
theorem entries_inputsOf {s : History} (h : Recorded s) (call : BuildCall) :
    InputsOf call.managedAppIds call.readyBaseIds
      ((sorted call.managedAppIds).map fun baseAppId => (call.entry s.world s.memo baseAppId).input) := by
  have hentry : ∀ baseAppId, ∃ w pending deferred, (call.entry s.world s.memo baseAppId).input =
      World.buildOneInput w baseAppId pending deferred (call.readyBaseIds.contains baseAppId) := by
    intro baseAppId
    rw [BuildCall.entry]
    cases hreused : call.reused s.world s.memo baseAppId with
    | none => exact ⟨s.world, _, _, rfl⟩
    | some entry =>
      obtain ⟨-, hmemo, hkey⟩ := reused_eq_some hreused
      have hready : entry.key.ready = call.readyBaseIds.contains baseAppId := by rw [hkey]; rfl
      exact ⟨s.origin baseAppId, _, _, hready ▸ (h baseAppId entry hmemo).2⟩
  constructor
  · rw [List.map_map]
    apply List.map_id''
    intro baseAppId
    obtain ⟨w, pending, deferred, hinput⟩ := hentry baseAppId
    exact (congrArg AppInput.baseAppId hinput).trans (buildOneInput_base ..)
  · intro input hmem
    obtain ⟨baseAppId, -, rfl⟩ := List.mem_map.mp hmem
    obtain ⟨w, pending, deferred, hinput⟩ := hentry baseAppId
    rw [hinput, buildOneInput_ready, buildOneInput_base]
    exact List.contains_eq_mem _ _

/-- The build of a publication is over its own sets. -/
theorem buildCall_sets {w : World} {c : CoordinatorState} {attempt : Attempt} {call : BuildCall}
    (h : buildCall w c attempt = some call) :
    call.managedAppIds = attempt.publication.managedAppIds c ∧
      call.readyBaseIds = attempt.publication.readyBaseIds c := by
  obtain ⟨publication, force, authoritative, abandoned⟩ := attempt
  cases publication with
  | managed managed =>
    simp only [buildCall, managedCall] at h
    split at h
    · cases h
    · split at h
      · cases h
      · obtain rfl := Option.some.inj h
        exact ⟨rfl, rfl⟩
  | preparedBase baseAppId =>
    simp only [buildCall] at h
    split_ifs at h
    obtain rfl := Option.some.inj h
    exact ⟨rfl, rfl⟩
  | metadataCompletion baseAppId =>
    simp only [buildCall] at h
    split_ifs at h
    obtain rfl := Option.some.inj h
    exact ⟨rfl, rfl⟩

/-- What a publication of a reachable state submits is queued exactly when its
inputs name at most 4096 apps and at most 4096 depots. -/
theorem publication_queued_iff {s : History} (h : Recorded s) {attempt : Attempt} {call : BuildCall}
    (hcall : buildCall s.world s.coordinator attempt = some call)
    (hvalid : (buildFromCaches s.world s.memo call).1.valid = true) (nowUs : Nat) :
    (emptyQueue.pushBatch [.syncPackage0 (attempt.publication.snapshot s.coordinator attempt.authoritative
        (buildFromCaches s.world s.memo call).1)] nowUs).2 = (true, [.queued]) ↔
      (buildFromCaches s.world s.memo call).1.snapshot.appIds.length ≤ OwnerQueue.kMaxIdsPerCommand ∧
        (buildFromCaches s.world s.memo call).1.snapshot.depotIds.length ≤ OwnerQueue.kMaxIdsPerCommand := by
  obtain ⟨hmanaged, hready⟩ := buildCall_sets hcall
  have hinputs := entries_inputsOf h call
  simp only [buildFromCaches] at hvalid ⊢
  generalize (sorted call.managedAppIds).map (fun baseAppId => (call.entry s.world s.memo baseAppId).input) = inputs
    at hinputs hvalid ⊢
  rw [hmanaged, hready] at hinputs
  have hbuilt := build_built hvalid
  have hwithin := withinIds_iff hinputs hbuilt attempt.authoritative
  rw [← hbuilt.apps, ← hbuilt.depots] at hwithin
  rw [pushBatch_single, ← hwithin]
  split
  · next hfits => simp [hfits]
  · next hfull => simp [hfull]

/-- A build that takes only fresh entries is the build without a memo. -/
theorem agrees_of_fresh (s : History) (e : Event) (h : Recorded s) (hfresh : Fresh s e) : Agrees s e := by
  cases e with
  | publish attempt =>
    intro call hcall
    have hinputs : ∀ baseAppId ∈ sorted call.managedAppIds,
        (call.entry s.world s.memo baseAppId).input = (call.entry s.world (fun _ => none) baseAppId).input := by
      intro baseAppId hmanaged
      have hempty : call.entry s.world (fun _ => none) baseAppId = call.compute s.world baseAppId := by
        simp only [BuildCall.entry, BuildCall.reused]
        split <;> rfl
      rw [hempty, BuildCall.entry]
      cases hreused : call.reused s.world s.memo baseAppId with
      | none => rfl
      | some entry =>
        have hsame := hfresh call hcall baseAppId (mem_sorted.mp hmanaged) (by rw [hreused]; rfl)
        obtain ⟨-, hmemo, hkey⟩ := reused_eq_some hreused
        obtain ⟨htime, hinput⟩ := h baseAppId entry hmemo
        rw [hkey] at htime
        show entry.input = (call.compute s.world baseAppId).input
        rw [hinput, hkey]
        exact buildOneInput_congr hsame htime.symm _ _ _
    simp only [buildFromCaches]
    rw [List.map_congr_left hinputs]
  | writeCaches | saveKey | archive | setInjectAllAdvertisedDlc | noteDlcMetadataCacheCompletion | shutdown => trivial

/-- In a run whose builds take only fresh entries, every build gives what it
gives with an empty memo. -/
theorem memo_agrees (w : World) {es : List Event} (hok : Meets step Fresh (start w) es) :
    Meets step Agrees (start w) es := by
  rw [meets_iff_splits] at hok ⊢
  intro first e rest hsplit t ht
  have hstart : Recorded (start w) := by
    intro baseAppId entry hentry
    cases hentry
  have hrecorded := exec_preserves recorded_step hstart ht
  exact agrees_of_fresh t e hrecorded (hok first e rest hsplit t ht)

theorem SameSources.refl (w : World) (baseAppId : AppId) : SameSources w w baseAppId where
  buffer := rfl
  dlcMetadata _ := rfl
  injectAll _ _ := Or.inr rfl
  depots _ _ := rfl

/-- The first build computes every entry from the world it finds. -/
theorem publish_origin {s : History} {attempt : Attempt} {call : BuildCall}
    (hcall : buildCall s.world s.coordinator attempt = some call) (hmemo : ∀ baseAppId, s.memo baseAppId = none) :
    (s.publish attempt).origin = fun _ => (s.publish attempt).world := by
  funext baseAppId
  have hnone : call.reused s.world s.memo baseAppId = none := by
    simp only [BuildCall.reused, hmemo]
    split <;> rfl
  simp only [History.publish, hcall, hnone]
  rfl

/-- App 10 advertises DLC 11, which has no depots yet. -/
def advertisingFiles : CacheFiles where
  buffer := some { sources := { advertised := [11] } }
  pairMtimeSecs := 5

/-- The cache is written, the app is published, its metadata completes. -/
def completedRun : List Event :=
  [.writeCaches 10 advertisingFiles, .publish { publication := .managed [10] },
    .publish { publication := .metadataCompletion 10 }]

theorem memo_agrees_completed : Meets step Agrees (start {}) completedRun := by
  apply memo_agrees
  apply Meets.step rfl trivial
  apply Meets.step rfl
  · intro call _ baseAppId _ hreused
    obtain ⟨entry, hentry⟩ := Option.isSome_iff_exists.mp hreused
    cases (reused_eq_some hentry).2.1
  · refine ⟨fun call _ baseAppId hmanaged _ => ?_, fun _ _ => trivial⟩
    rw [publish_origin rfl fun _ => rfl]
    exact .refl _ baseAppId

/-- A key saved for the DLC moves no time of its base, and the completion forces
no base: the build with the memo lacks the DLC and its depot. -/
theorem saved_key_missed_by_memo :
    ∃ t call, exec step (start {}) [.writeCaches 10 advertisingFiles, .publish { publication := .managed [10] },
        .saveKey ⟨11, 12, [], true⟩] = some t ∧
      buildCall t.world t.coordinator { publication := .metadataCompletion 10 } = some call ∧
      ((buildFromCaches t.world t.memo call).1.snapshot.appIds = [10] ∧
        (buildFromCaches t.world t.memo call).1.snapshot.depotIds = []) ∧
      (buildFromCaches t.world (fun _ => none) call).1.snapshot.appIds = [10, 11] ∧
        (buildFromCaches t.world (fun _ => none) call).1.snapshot.depotIds = [12] :=
  ⟨_, _, rfl, rfl, ⟨rfl, rfl⟩, rfl, rfl⟩

end SlsteamMoon.HotReload
