import SlsteamMoon.InPlace
import Mathlib.Data.List.AList

/-! Manifest pins by app and the three lookups over them. A zero gid is no pin. -/
namespace SlsteamMoon.ManifestPlan

abbrev AppId := UInt32
abbrev DepotId := UInt32
abbrev Gid := UInt64

structure AppPins where
  locked : Bool
  buildId : UInt32
  depots : AList fun _ : DepotId => Gid

/-- appid -> its pins; the key lists cannot repeat an app or a depot. -/
abbrev PinMap := AList fun _ : AppId => AppPins

/-- Resolve a pin only within its owning app. -/
def getPin (pins : PinMap) (appId : AppId) (depotId : DepotId) : Gid :=
  if appId = 0 ∨ depotId = 0 then 0
  else match pins.lookup appId with
    | none => 0
    | some app => (app.depots.lookup depotId).getD 0

def getPinForContext (pins : PinMap) (appId : AppId) (depotId : DepotId) : Gid :=
  if appId = 0 ∨ depotId = 0 then 0 else getPin pins appId depotId

/-- The iteration of getPinForUniqueOwner with its two locals. -/
def uniqueOwnerLoop (depotId : DepotId) : List (Sigma fun _ : AppId => AppPins) → Bool → Gid → Gid
  | [], found, pin => if found then pin else 0
  | ⟨appId, app⟩ :: rest, found, pin =>
    if appId = 0 then uniqueOwnerLoop depotId rest found pin
    else
      let gid := (app.depots.lookup depotId).getD 0
      if gid = 0 then uniqueOwnerLoop depotId rest found pin
      else if found then 0
      else uniqueOwnerLoop depotId rest true gid

def getPinForUniqueOwner (pins : PinMap) (depotId : DepotId) : Gid :=
  if depotId = 0 then 0 else uniqueOwnerLoop depotId pins.entries false 0

/-- Planner entries carry their owning app id; a zero field falls back to a
depot with one configured owner. -/
def getPinForPlannerEntry (pins : PinMap) (appId : AppId) (depotId : DepotId) : Gid :=
  if appId ≠ 0 then getPinForContext pins appId depotId else getPinForUniqueOwner pins depotId

@[simp] theorem getPinForContext_eq (pins : PinMap) (appId : AppId) (depotId : DepotId) :
    getPinForContext pins appId depotId = getPin pins appId depotId := by
  simp only [getPinForContext, getPin]
  split <;> rfl

/-- With an owning app id the planner and the reconciler look up the same pin. -/
theorem plannerEntry_eq_context (pins : PinMap) {appId : AppId} (h : appId ≠ 0) (depotId : DepotId) :
    getPinForPlannerEntry pins appId depotId = getPinForContext pins appId depotId := by
  simp only [getPinForPlannerEntry, if_pos h]

/-- The pins configured for a depot, in iteration order. -/
def ownerPins (depotId : DepotId) (entries : List (Sigma fun _ : AppId => AppPins)) : List Gid :=
  entries.filterMap fun entry =>
    let gid := (entry.2.depots.lookup depotId).getD 0
    if entry.1 = 0 ∨ gid = 0 then none else some gid

private theorem uniqueOwnerLoop_found (depotId : DepotId) (entries : List (Sigma fun _ : AppId => AppPins))
    (pin : Gid) :
    uniqueOwnerLoop depotId entries true pin = if ownerPins depotId entries = [] then pin else 0 := by
  induction entries with
  | nil => rfl
  | cons entry rest ih =>
    obtain ⟨appId, app⟩ := entry
    by_cases happ : appId = 0
    · simpa [uniqueOwnerLoop, ownerPins, happ] using ih
    · by_cases hgid : (app.depots.lookup depotId).getD 0 = 0
      · simpa [uniqueOwnerLoop, ownerPins, happ, hgid] using ih
      · simp [uniqueOwnerLoop, ownerPins, happ, hgid]

/-- The fallback answers the depot's pin when exactly one app configures one,
whatever order the map is iterated in. -/
theorem getPinForUniqueOwner_eq (pins : PinMap) {depotId : DepotId} (h : depotId ≠ 0) :
    getPinForUniqueOwner pins depotId =
      match ownerPins depotId pins.entries with
      | [pin] => pin
      | _ => 0 := by
  simp only [getPinForUniqueOwner, if_neg h]
  induction pins.entries with
  | nil => rfl
  | cons entry rest ih =>
    obtain ⟨appId, app⟩ := entry
    by_cases happ : appId = 0
    · simpa [uniqueOwnerLoop, ownerPins, happ] using ih
    · by_cases hgid : (app.depots.lookup depotId).getD 0 = 0
      · simpa [uniqueOwnerLoop, ownerPins, happ, hgid] using ih
      · have howner : ownerPins depotId (⟨appId, app⟩ :: rest) =
            (app.depots.lookup depotId).getD 0 :: ownerPins depotId rest := by
          simp [ownerPins, happ, hgid]
        rw [howner]
        simp only [uniqueOwnerLoop, if_neg happ, if_neg hgid, uniqueOwnerLoop_found]
        cases ownerPins depotId rest with
        | nil => simp
        | cons second others => simp

end SlsteamMoon.ManifestPlan

/-! The install planner's pass over Steam's depot vector: bounds check,
managed-empty and quarantine filters, pin rewriting and acquisition, all in
place over the vector's storage. -/
namespace SlsteamMoon.ManifestPlan

open InPlace

/-- Steam's DepotEntry; the last word holds the flag bytes nothing here reads. -/
structure DepotEntry where
  depotId : DepotId
  appId : AppId
  gid : Gid
  size : UInt64
  dlcAppId : AppId
  flags : UInt32
  deriving DecidableEq, Repr

def kDepotEntryStride : Nat := 0x20

/-- The client is a 32-bit process. -/
def sizeMax : Nat := 0xffffffff

/-- CUtlVector<DepotEntry>: the storage behind a non-null base has the
allocated number of cells. -/
structure DepotVector where
  base : Option (List DepotEntry)
  capacity : Int
  count : Int
  allocated : ∀ storage, base = some storage → (storage.length : Int) = capacity

namespace DepotVector

/-- The entries the owner of the vector sees. -/
def entries (v : DepotVector) : List DepotEntry :=
  (v.base.getD []).take v.count.toNat

/-- Run a compaction over the counted cells and store the new count. -/
def compacted {ε : Type*} (v : DepotVector) (f : DepotEntry → Option DepotEntry × List ε) :
    DepotVector × List ε :=
  match h : v.base with
  | none => (v, [])
  | some storage =>
    let p := compact f v.count.toNat storage
    ({ base := some p.storage, capacity := v.capacity, count := p.writeIdx,
       allocated := by
        intro after hafter
        rw [← Option.some.inj hafter, compact_length]
        exact v.allocated storage h },
     p.log)

/-- Rewrite the counted cells where they stand. -/
def rewritten (v : DepotVector) (g : DepotEntry → DepotEntry) : DepotVector :=
  match h : v.base with
  | none => v
  | some storage =>
    { base := some (rewriteLoop g v.count.toNat 0 storage), capacity := v.capacity, count := v.count,
      allocated := by
        intro after hafter
        rw [← Option.some.inj hafter, rewriteLoop_length]
        exact v.allocated storage h }

/-- The counted cells lie inside the allocation. -/
def InBounds (v : DepotVector) : Prop := 0 ≤ v.count ∧ v.count ≤ v.capacity

private theorem InBounds.count_le {v : DepotVector} (h : v.InBounds) {storage : List DepotEntry}
    (hb : v.base = some storage) : v.count.toNat ≤ storage.length := by
  have hall := v.allocated storage hb
  have hcap := h.2
  omega

theorem entries_compacted {ε : Type*} {v : DepotVector} (h : v.InBounds)
    (f : DepotEntry → Option DepotEntry × List ε) :
    (v.compacted f).1.entries = v.entries.filterMap fun e => (f e).1 := by
  simp only [compacted]
  split
  · next hb => simp [entries, hb]
  · next storage hb =>
    simp only [entries, Option.getD_some, Int.toNat_natCast, hb]
    exact compact_survivors f (h.count_le hb)

theorem inBounds_compacted {ε : Type*} {v : DepotVector} (h : v.InBounds)
    (f : DepotEntry → Option DepotEntry × List ε) : (v.compacted f).1.InBounds := by
  simp only [compacted]
  split
  · exact h
  · next storage hb =>
    have hle := compact_writeIdx_le f (h.count_le hb)
    have hcap := h.2
    have hpos := h.1
    constructor
    · exact Int.natCast_nonneg _
    · dsimp only
      omega

theorem entries_rewritten {v : DepotVector} (h : v.InBounds) (g : DepotEntry → DepotEntry) :
    (v.rewritten g).entries = v.entries.map g := by
  simp only [rewritten]
  split
  · next hb => simp [entries, hb]
  · next storage hb =>
    simp only [entries, Option.getD_some, hb]
    exact rewriteLoop_survivors g (h.count_le hb)

end DepotVector

/-- Steam's own allocation count bounds the vector. -/
def validVectorBounds (count capacity : Int) (stride : Nat) : Bool :=
  decide (0 < count ∧ count ≤ capacity ∧ 0 < stride ∧ count.toNat ≤ sizeMax / stride)

theorem inBounds_of_valid {v : DepotVector} {stride : Nat}
    (h : validVectorBounds v.count v.capacity stride = true) : v.InBounds := by
  obtain ⟨hpos, hcap, -, -⟩ := of_decide_eq_true h
  exact ⟨by omega, hcap⟩

def shouldDrop (size : UInt64) (managed : Bool) : Bool := size == 0 && managed

/-- What both passes read: the app-scoped pins, the managed depots and the
sizes of the archived manifests. -/
structure DepotFacts where
  pins : PinMap
  isManagedDepot : DepotId → Bool
  installedSize : DepotId → Gid → Option UInt64

/-- What only the planner reads. The size lookup after a wait may find what
the first lookup did not. -/
structure PlannerEnv where
  shouldDropManagedDlc : DepotId → AppId → Bool
  remainingPlanBudgetMs : DepotId → Gid → Int
  awaitManifestBlobFor : Gid → AppId → DepotId → Int → Bool
  installedSizeAfterWait : DepotId → Gid → Option UInt64
  manifestInManagedScope : AppId → DepotId → Bool → AppId → Bool
  isAnyManagedDownloadActive : AppId → Bool
  planDepotcache : Bool
  manifestOnDisk : DepotId → Gid → Bool

inductive PlanEffect
  | submitManifestBlob (gid : Gid) (appId : AppId) (depotId : DepotId) (active : Bool)
  | droppingEmpty (depotId : DepotId)
  | omittingQuarantined (depotId : DepotId) (dlcAppId : AppId)
  | observeDepot (appId : AppId) (depotId : DepotId) (gid : Gid)
  | registerPlanTarget (depotId : DepotId) (gid : Gid)
  | pinNotReady (depotId : DepotId) (pin : Gid)
  deriving DecidableEq

structure DepotPair where
  gid : Gid
  size : UInt64
  pinned : Bool
  deriving DecidableEq

/-- The size lookup is retried once, after a wait that succeeded; otherwise
Steam's public pair stays whole. -/
def resolvePinnedPair (publicGid : Gid) (publicSize : UInt64) (pinnedGid : Gid) (remainingBudgetMs : Int)
    (installedSize installedSizeAfterWait : Option UInt64) (awaitPinned : Int → Bool) : DepotPair :=
  if pinnedGid = 0 then ⟨publicGid, publicSize, false⟩
  else
    let pinnedSize :=
      if installedSize.isNone ∧ 0 < remainingBudgetMs ∧ awaitPinned remainingBudgetMs = true
      then installedSizeAfterWait else installedSize
    match pinnedSize with
    | none => ⟨publicGid, publicSize, false⟩
    | some size => ⟨pinnedGid, size, true⟩

def kTargetPlanFlag : UInt32 := 0

section Planner

variable (facts : DepotFacts) (env : PlannerEnv)

/-- Join the pin's fetch against the plan's deadline and rewrite the pair. -/
def pinTarget (e : DepotEntry) (pin : Gid) : DepotEntry × List PlanEffect :=
  let resolved := resolvePinnedPair e.gid e.size pin (env.remainingPlanBudgetMs e.depotId pin)
    (facts.installedSize e.depotId pin) (env.installedSizeAfterWait e.depotId pin)
    (env.awaitManifestBlobFor pin e.appId e.depotId)
  if resolved.pinned = true then
    ({ e with gid := resolved.gid, size := resolved.size }, [.registerPlanTarget e.depotId pin])
  else (e, [.registerPlanTarget e.depotId pin, .pinNotReady e.depotId pin])

/-- Start the acquisition of a surviving entry's manifest. -/
def acquireTarget (e : DepotEntry) (pin : Gid) : List PlanEffect :=
  if e.gid ≠ 0 ∧ env.manifestInManagedScope e.appId e.depotId (pin ≠ 0) e.dlcAppId = true then
    .registerPlanTarget e.depotId e.gid ::
      if env.planDepotcache = false ∨ env.manifestOnDisk e.depotId e.gid = false then
        [.submitManifestBlob e.gid e.appId e.depotId (env.isAnyManagedDownloadActive e.appId)]
      else []
  else []

/-- The body of the rewrite loop for one entry. -/
def planEntry (flag : UInt32) (e : DepotEntry) : Option DepotEntry × List PlanEffect :=
  if shouldDrop e.size (facts.isManagedDepot e.depotId) = true then (none, [.droppingEmpty e.depotId])
  else if env.shouldDropManagedDlc e.depotId e.dlcAppId = true then
    (none, [.omittingQuarantined e.depotId e.dlcAppId])
  else
    let pin := getPinForPlannerEntry facts.pins e.appId e.depotId
    let target := if flag = kTargetPlanFlag ∧ pin ≠ 0 then pinTarget facts env e pin else (e, [])
    (some target.1, .observeDepot e.appId e.depotId e.gid :: target.2 ++ acquireTarget env target.1 pin)

/-- Every first-import pin is started before any is waited for. -/
def prefetchEntry (e : DepotEntry) : List PlanEffect :=
  let pin := getPinForPlannerEntry facts.pins e.appId e.depotId
  if pin ≠ 0 ∧ facts.installedSize e.depotId pin = none then
    [.submitManifestBlob pin e.appId e.depotId (env.isAnyManagedDownloadActive e.appId)]
  else []

/-- The vector as it is forwarded to Steam's builder, with what was started. -/
def hkBuildDepot (flag : UInt32) (depots : Option DepotVector) : Option DepotVector × List PlanEffect :=
  match depots with
  | none => (none, [])
  | some v =>
    if v.base.isSome = true ∧ validVectorBounds v.count v.capacity kDepotEntryStride = true then
      let prefetched := if flag = kTargetPlanFlag then v.entries.flatMap (prefetchEntry facts env) else []
      let planned := v.compacted (planEntry facts env flag)
      (some planned.1, prefetched ++ planned.2)
    else (some v, [])

end Planner

end SlsteamMoon.ManifestPlan
