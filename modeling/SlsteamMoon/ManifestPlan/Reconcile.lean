import SlsteamMoon.ManifestPlan.Planner

/-! The reconciler's target passes over the same vectors, and when they leave
what the install planner leaves. -/
namespace SlsteamMoon.ManifestPlan

open InPlace

def kMaxDepots : Int := 512
def kFlagTargetSide : UInt32 := 0x8

/-- The reconciler's settings: the gid rewrite switch and the decoded offset of
the context's depot vector, zero when it was not located. -/
structure Reconciler where
  pinActive : Bool
  ctxDepotVecOff : Nat

inductive ReconcileEffect
  | droppingEmpty (depotId : DepotId)
  deriving DecidableEq

section Passes

variable (facts : DepotFacts) (reconciler : Reconciler)

/-- One entry of compactEmptyManaged. -/
def keepNonEmpty (e : DepotEntry) : Option DepotEntry × List ReconcileEffect :=
  if shouldDrop e.size (facts.isManagedDepot e.depotId) = true then (none, [.droppingEmpty e.depotId])
  else (some e, [])

def filterEmptyManaged (v : DepotVector) : DepotVector × List ReconcileEffect :=
  v.compacted (keepNonEmpty facts)

/-- An unknown size leaves the public pair whole. -/
def applyPinnedEntry (pin : Gid) (e : DepotEntry) : DepotEntry :=
  match facts.installedSize e.depotId pin with
  | none => e
  | some pinSize => { e with gid := pin, size := pinSize }

/-- The body of the pin loop for one entry. -/
def pinEntry (appId : AppId) (e : DepotEntry) : DepotEntry :=
  let pin := getPinForContext facts.pins appId e.depotId
  if pin = 0 then e else applyPinnedEntry facts pin e

/-- The shared body of the two target passes. -/
def patchTarget (appId : AppId) (v : DepotVector) : DepotVector × List ReconcileEffect :=
  if v.base = none ∨ v.count ≤ 0 ∨ v.count > kMaxDepots then (v, [])
  else
    let filtered := filterEmptyManaged facts v
    if reconciler.pinActive = false then filtered
    else (filtered.1.rewritten (pinEntry facts appId), filtered.2)

/-- The vector inside the context, once its offset is known. -/
def patchTargetCtx (appId : AppId) (flags : UInt32) (v : DepotVector) : DepotVector × List ReconcileEffect :=
  if flags &&& kFlagTargetSide = 0 then (v, [])
  else if reconciler.ctxDepotVecOff = 0 then (v, [])
  else patchTarget facts reconciler appId v

/-- The builder's function-local target vector. -/
def patchTargetVec (appId : AppId) (v : DepotVector) : DepotVector × List ReconcileEffect :=
  patchTarget facts reconciler appId v

end Passes

section Agreement

variable {facts : DepotFacts} {env : PlannerEnv} {reconciler : Reconciler} {appId : AppId} {v : DepotVector}

/-- The entry survives both filters. -/
def Kept (facts : DepotFacts) (e : DepotEntry) : Prop :=
  shouldDrop e.size (facts.isManagedDepot e.depotId) = false

/-- The entry's pin, if it has one, is what the entry already holds. -/
def PinHeld (facts : DepotFacts) (appId : AppId) (e : DepotEntry) : Prop :=
  let pin := getPin facts.pins appId e.depotId
  pin ≠ 0 → e.gid = pin ∧ facts.installedSize e.depotId pin = some e.size

/-- What the two passes are promised about a vector: one owning app, no
quarantined DLC, and a known size behind every pin. -/
structure Uniform (facts : DepotFacts) (env : PlannerEnv) (appId : AppId) (v : DepotVector) : Prop where
  owner : ∀ e ∈ v.entries, e.appId = appId
  notQuarantined : ∀ e ∈ v.entries, env.shouldDropManagedDlc e.depotId e.dlcAppId = false
  sizeKnown : ∀ e ∈ v.entries, getPin facts.pins appId e.depotId ≠ 0 →
    (facts.installedSize e.depotId (getPin facts.pins appId e.depotId)).isSome = true

/-- What a target entry should become: dropped when managed and empty, else
pinned. -/
def target (facts : DepotFacts) (appId : AppId) (e : DepotEntry) : Option DepotEntry :=
  if shouldDrop e.size (facts.isManagedDepot e.depotId) = true then none
  else some (pinEntry facts appId e)

private theorem pinEntry_eq_self_iff (e : DepotEntry)
    (hsize : getPin facts.pins appId e.depotId ≠ 0 →
      (facts.installedSize e.depotId (getPin facts.pins appId e.depotId)).isSome = true) :
    pinEntry facts appId e = e ↔ PinHeld facts appId e := by
  simp only [pinEntry, PinHeld, getPinForContext_eq]
  by_cases hpin : getPin facts.pins appId e.depotId = 0
  · simp [hpin]
  · obtain ⟨size, hs⟩ := Option.isSome_iff_exists.mp (hsize hpin)
    simp only [applyPinnedEntry, hs, ne_eq, hpin, not_false_eq_true, true_implies,
      Option.some.injEq]
    constructor
    · intro h
      have hg := congrArg DepotEntry.gid h
      have hz := congrArg DepotEntry.size h
      exact ⟨hg.symm, hz⟩
    · rintro ⟨hg, rfl⟩
      rw [← hg, if_neg not_false]

/-- With a known size the planner never waits and writes the pinned pair. -/
theorem pinTarget_fst (e : DepotEntry) {pin : Gid} (hpin : pin ≠ 0)
    (hsize : (facts.installedSize e.depotId pin).isSome = true) :
    (pinTarget facts env e pin).1 = applyPinnedEntry facts pin e := by
  obtain ⟨size, hs⟩ := Option.isSome_iff_exists.mp hsize
  simp [pinTarget, resolvePinnedPair, applyPinnedEntry, hpin, hs]

private theorem planEntry_fst (hA : appId ≠ 0) {e : DepotEntry} (happ : e.appId = appId)
    (hquar : env.shouldDropManagedDlc e.depotId e.dlcAppId = false)
    (hsize : getPin facts.pins appId e.depotId ≠ 0 →
      (facts.installedSize e.depotId (getPin facts.pins appId e.depotId)).isSome = true) :
    (planEntry facts env kTargetPlanFlag e).1 = target facts appId e := by
  have hlookup : getPinForPlannerEntry facts.pins e.appId e.depotId = getPin facts.pins appId e.depotId := by
    rw [happ, plannerEntry_eq_context _ hA, getPinForContext_eq]
  simp only [planEntry, target, pinEntry, getPinForContext_eq, hlookup, hquar]
  by_cases hdrop : shouldDrop e.size (facts.isManagedDepot e.depotId) = true
  · simp [hdrop]
  · by_cases hpin : getPin facts.pins appId e.depotId = 0
    · simp [hdrop, hpin]
    · simp [hdrop, hpin, pinTarget_fst e hpin (hsize hpin)]

/-- The planner's target pass computes the target of every entry. -/
theorem entries_hkBuildDepot (hA : appId ≠ 0)
    (hvalid : validVectorBounds v.count v.capacity kDepotEntryStride = true) (hu : Uniform facts env appId v) :
    ∃ planned, (hkBuildDepot facts env kTargetPlanFlag (some v)).1 = some planned ∧
      planned.entries = v.entries.filterMap (target facts appId) := by
  cases hb : v.base with
  | none => exact ⟨v, by simp [hkBuildDepot, hb], by simp [DepotVector.entries, hb]⟩
  | some storage =>
    refine ⟨(v.compacted (planEntry facts env kTargetPlanFlag)).1, by simp [hkBuildDepot, hb, hvalid], ?_⟩
    rw [DepotVector.entries_compacted (inBounds_of_valid hvalid)]
    apply List.filterMap_congr
    intro e he
    exact planEntry_fst hA (hu.owner e he) (hu.notQuarantined e he) (hu.sizeKnown e he)

private theorem keepNonEmpty_fst (e : DepotEntry) :
    (keepNonEmpty facts e).1 =
      if shouldDrop e.size (facts.isManagedDepot e.depotId) = true then none else some e := by
  simp only [keepNonEmpty]
  split <;> rfl

/-- Filtering and then pinning is the target of every entry. -/
theorem filterMap_target (l : List DepotEntry) :
    l.filterMap (target facts appId) =
      (l.filterMap fun e => (keepNonEmpty facts e).1).map (pinEntry facts appId) := by
  rw [List.map_filterMap]
  apply List.filterMap_congr
  intro e _
  rw [keepNonEmpty_fst, target]
  split <;> rfl

/-- Nothing is left to do to the vector's entries. -/
def Settled (facts : DepotFacts) (appId : AppId) (v : DepotVector) : Prop :=
  ∀ e ∈ v.entries, Kept facts e ∧ PinHeld facts appId e

/-- No surviving entry is left with a pair its pin would replace. -/
def PinsHeld (facts : DepotFacts) (appId : AppId) (v : DepotVector) : Prop :=
  ∀ e ∈ v.entries, Kept facts e → PinHeld facts appId e

/-- When the local target pass leaves what the planner leaves. -/
def VecAgrees (facts : DepotFacts) (reconciler : Reconciler) (appId : AppId) (v : DepotVector) : Prop :=
  Settled facts appId v ∨
    v.count ≤ kMaxDepots ∧ (reconciler.pinActive = true ∨ PinsHeld facts appId v)

/-- The context pass further needs the vector to have been located. -/
def CtxAgrees (facts : DepotFacts) (reconciler : Reconciler) (appId : AppId) (v : DepotVector) : Prop :=
  Settled facts appId v ∨ reconciler.ctxDepotVecOff ≠ 0 ∧
    v.count ≤ kMaxDepots ∧ (reconciler.pinActive = true ∨ PinsHeld facts appId v)

private theorem target_eq_some_iff (e : DepotEntry)
    (hsize : getPin facts.pins appId e.depotId ≠ 0 →
      (facts.installedSize e.depotId (getPin facts.pins appId e.depotId)).isSome = true) :
    target facts appId e = some e ↔ Kept facts e ∧ PinHeld facts appId e := by
  simp only [target, Kept]
  by_cases hdrop : shouldDrop e.size (facts.isManagedDepot e.depotId) = true
  · simp [hdrop]
  · simp only [if_neg hdrop, Option.some.injEq, pinEntry_eq_self_iff e hsize]
    simp [Bool.eq_false_iff.mpr hdrop]

/-- A pass that does nothing agrees with the planner on settled vectors only. -/
theorem target_eq_self_iff (hu : Uniform facts env appId v) :
    v.entries.filterMap (target facts appId) = v.entries ↔ Settled facts appId v := by
  have hself := List.filterMap_eq_map_iff_forall_eq_some
    (f := target facts appId) (g := id) (l := v.entries)
  rw [List.map_id] at hself
  rw [hself]
  constructor
  · intro h e he
    exact (target_eq_some_iff e (hu.sizeKnown e he)).mp (h e he)
  · intro h e he
    exact (target_eq_some_iff e (hu.sizeKnown e he)).mpr (h e he)

/-- A pass that only filters agrees when no pin would change a survivor. -/
theorem target_eq_filter_iff (hu : Uniform facts env appId v) :
    v.entries.filterMap (target facts appId) = (v.entries.filterMap fun e => (keepNonEmpty facts e).1) ↔
      PinsHeld facts appId v := by
  have hmem : ∀ e, (e ∈ v.entries.filterMap fun e => (keepNonEmpty facts e).1) ↔
      e ∈ v.entries ∧ Kept facts e := by
    intro e
    rw [List.mem_filterMap]
    constructor
    · rintro ⟨e', he', hkeep⟩
      rw [keepNonEmpty_fst] at hkeep
      by_cases hdrop : shouldDrop e'.size (facts.isManagedDepot e'.depotId) = true
      · simp [hdrop] at hkeep
      · rw [if_neg hdrop] at hkeep
        obtain rfl := Option.some.inj hkeep
        exact ⟨he', Bool.eq_false_iff.mpr hdrop⟩
    · rintro ⟨he, hkept⟩
      exact ⟨e, he, by rw [keepNonEmpty_fst, if_neg (Bool.eq_false_iff.mp hkept)]⟩
  rw [filterMap_target]
  constructor
  · intro h e he hkept
    have hid : ∀ e ∈ (v.entries.filterMap fun e => (keepNonEmpty facts e).1),
        pinEntry facts appId e = id e :=
      List.map_eq_map_iff.mp (h.trans (List.map_id _).symm)
    exact (pinEntry_eq_self_iff e (hu.sizeKnown e he)).mp (hid e ((hmem e).mpr ⟨he, hkept⟩))
  · intro h
    apply Eq.trans (List.map_congr_left (g := id) _) (List.map_id _)
    intro e he
    obtain ⟨hin, hkept⟩ := (hmem e).mp he
    exact (pinEntry_eq_self_iff e (hu.sizeKnown e hin)).mpr (h e hin hkept)

private theorem entries_patchTarget (h : v.InBounds) : (patchTarget facts reconciler appId v).1.entries =
    if v.base = none ∨ v.count ≤ 0 ∨ v.count > kMaxDepots then v.entries
    else if reconciler.pinActive = false then v.entries.filterMap fun e => (keepNonEmpty facts e).1
    else v.entries.filterMap (target facts appId) := by
  simp only [patchTarget]
  split
  · rfl
  · split
    · exact DepotVector.entries_compacted h (keepNonEmpty facts)
    · dsimp only [filterEmptyManaged]
      rw [DepotVector.entries_rewritten (DepotVector.inBounds_compacted h _),
        DepotVector.entries_compacted h, filterMap_target]

/-- The shared body leaves the planner's survivors exactly on these vectors. -/
theorem target_eq_patchTarget_iff (hvalid : validVectorBounds v.count v.capacity kDepotEntryStride = true)
    (hu : Uniform facts env appId v) :
    v.entries.filterMap (target facts appId) = (patchTarget facts reconciler appId v).1.entries ↔
      VecAgrees facts reconciler appId v := by
  have hcount : 0 < v.count := (of_decide_eq_true hvalid).1
  rw [entries_patchTarget (inBounds_of_valid hvalid)]
  by_cases hsettled : Settled facts appId v
  · -- a settled vector is its own target, so every way out of the pass agrees
    have hself := (target_eq_self_iff hu).mpr hsettled
    have hfilter := (target_eq_filter_iff hu).mpr fun e he _ => (hsettled e he).2
    refine iff_of_true ?_ (Or.inl hsettled)
    split
    · exact hself
    · split
      · exact hfilter
      · rfl
  · simp only [VecAgrees, hsettled, false_or]
    by_cases hout : v.base = none ∨ v.count ≤ 0 ∨ v.count > kMaxDepots
    · rw [if_pos hout, target_eq_self_iff hu]
      refine iff_of_false hsettled ?_
      rintro ⟨hle, -⟩
      obtain hnone | hneg | hgt := hout
      · exact hsettled fun e he => by simp [DepotVector.entries, hnone] at he
      · omega
      · omega
    · have hle : v.count ≤ kMaxDepots := by
        simp only [not_or] at hout
        omega
      rw [if_neg hout]
      by_cases hactive : reconciler.pinActive = true
      · simp [hactive, hle]
      · rw [if_pos (Bool.eq_false_iff.mpr hactive), target_eq_filter_iff hu]
        simp [hactive, hle]

private theorem target_eq_patchTargetCtx_iff (hvalid : validVectorBounds v.count v.capacity kDepotEntryStride = true)
    (hu : Uniform facts env appId v) {flags : UInt32} (hflags : flags &&& kFlagTargetSide ≠ 0) :
    v.entries.filterMap (target facts appId) = (patchTargetCtx facts reconciler appId flags v).1.entries ↔
      CtxAgrees facts reconciler appId v := by
  simp only [patchTargetCtx, if_neg hflags]
  by_cases hoff : reconciler.ctxDepotVecOff = 0
  · rw [if_pos hoff]
    simpa [CtxAgrees, hoff] using target_eq_self_iff hu
  · rw [if_neg hoff, target_eq_patchTarget_iff hvalid hu]
    simp [CtxAgrees, VecAgrees, hoff]

/-- The install planner's target pass and the reconciler's two target passes
leave the same entries, exactly when the vector is settled or each pass reaches
its pin loop or has no pin to write. -/
theorem target_passes_agree_iff (hA : appId ≠ 0)
    (hvalid : validVectorBounds v.count v.capacity kDepotEntryStride = true) (hu : Uniform facts env appId v)
    {flags : UInt32} (hflags : flags &&& kFlagTargetSide ≠ 0) :
    ∃ planned, (hkBuildDepot facts env kTargetPlanFlag (some v)).1 = some planned ∧
      (planned.entries = (patchTargetVec facts reconciler appId v).1.entries ↔
        VecAgrees facts reconciler appId v) ∧
      (planned.entries = (patchTargetCtx facts reconciler appId flags v).1.entries ↔
        CtxAgrees facts reconciler appId v) := by
  obtain ⟨planned, hplanned, hentries⟩ := entries_hkBuildDepot hA hvalid hu
  refine ⟨planned, hplanned, ?_, ?_⟩
  · rw [hentries]
    exact target_eq_patchTarget_iff hvalid hu
  · rw [hentries]
    exact target_eq_patchTargetCtx_iff hvalid hu hflags

end Agreement

/-- App 10 pins depot 1001; depots 1000 and up are managed, and depot 1000 is
empty. -/
def pinnedFacts : DepotFacts where
  pins := (∅ : PinMap).insert 10
    { locked := true, buildId := 0, depots := (∅ : AList fun _ : DepotId => Gid).insert 1001 70 }
  isManagedDepot := fun depotId => decide (1000 ≤ depotId)
  installedSize := fun depotId gid => if depotId = 1001 ∧ gid = 70 then some 700 else none

def idlePlanner : PlannerEnv where
  shouldDropManagedDlc := fun _ _ => false
  remainingPlanBudgetMs := fun _ _ => 12000
  awaitManifestBlobFor := fun _ _ _ _ => false
  installedSizeAfterWait := fun _ _ => none
  manifestInManagedScope := fun _ _ _ _ => true
  isAnyManagedDownloadActive := fun _ => false
  planDepotcache := true
  manifestOnDisk := fun _ _ => true

def publicEntry (i : Nat) : DepotEntry :=
  ⟨1000 + UInt32.ofNat i, 10, 5, UInt64.ofNat i, 0, 0⟩

/-- A vector of `n` public entries, exactly as allocated. -/
def publicVector (n : Nat) : DepotVector where
  base := some ((List.range n).map publicEntry)
  capacity := n
  count := n
  allocated := by
    rintro storage hst
    rw [← Option.some.inj hst]
    simp

private theorem uniform_publicVector (n : Nat) : Uniform pinnedFacts idlePlanner 10 (publicVector n) := by
  have hentry : ∀ e ∈ (publicVector n).entries, ∃ i, e = publicEntry i := by
    intro e he
    obtain ⟨i, -, rfl⟩ := List.mem_map.mp (List.mem_of_mem_take he)
    exact ⟨i, rfl⟩
  refine ⟨?_, fun _ _ => rfl, ?_⟩
  · intro e he
    obtain ⟨i, rfl⟩ := hentry e he
    rfl
  · intro e _ hpin
    have hlookup : getPin pinnedFacts.pins 10 e.depotId = if e.depotId = 1001 then 70 else 0 := by
      by_cases hdepot : e.depotId = 1001
      · rw [hdepot]
        decide
      · have hnone : ((∅ : AList fun _ : DepotId => Gid).insert 1001 70).lookup e.depotId = none := by
          rw [AList.lookup_insert_ne hdepot]
          rfl
        by_cases hzero : e.depotId = 0
        · rw [hzero]
          decide
        · simp only [getPin, pinnedFacts, AList.lookup_insert, hnone, hzero, hdepot]
          rfl
    rw [hlookup] at hpin ⊢
    by_cases hdepot : e.depotId = 1001
    · simp [pinnedFacts, hdepot]
    · simp [hdepot] at hpin

/-- Three public entries: the empty one is dropped, the pinned one rewritten,
and all passes leave the same two. -/
theorem target_passes_agree_three :
    ∃ planned, (hkBuildDepot pinnedFacts idlePlanner kTargetPlanFlag (some (publicVector 3))).1 = some planned ∧
      planned.entries = (patchTargetVec pinnedFacts ⟨true, 0x90⟩ 10 (publicVector 3)).1.entries ∧
      planned.entries = (patchTargetCtx pinnedFacts ⟨true, 0x90⟩ 10 0x8 (publicVector 3)).1.entries := by
  have hflags : (0x8 : UInt32) &&& kFlagTargetSide ≠ 0 := by decide
  obtain ⟨planned, hplanned, hvec, hctx⟩ :=
    @target_passes_agree_iff pinnedFacts idlePlanner ⟨true, 0x90⟩ 10 (publicVector 3) (by decide) (by decide)
      (uniform_publicVector 3) 0x8 hflags
  have hceiling : (publicVector 3).count ≤ kMaxDepots := by decide
  exact ⟨planned, hplanned, hvec.mpr (Or.inr ⟨hceiling, Or.inl rfl⟩),
    hctx.mpr (Or.inr ⟨by decide, hceiling, Or.inl rfl⟩)⟩

/-- One entry past the reconciler's ceiling: the planner drops the empty depot
and pins the next one, both target passes leave all 513 public entries. -/
theorem passes_differ_past_ceiling :
    validVectorBounds (publicVector 513).count (publicVector 513).capacity kDepotEntryStride = true ∧
      Uniform pinnedFacts idlePlanner 10 (publicVector 513) ∧
      ∃ planned, (hkBuildDepot pinnedFacts idlePlanner kTargetPlanFlag (some (publicVector 513))).1 =
          some planned ∧
        planned.entries ≠ (patchTargetVec pinnedFacts ⟨true, 0x90⟩ 10 (publicVector 513)).1.entries ∧
        planned.entries ≠ (patchTargetCtx pinnedFacts ⟨true, 0x90⟩ 10 0x8 (publicVector 513)).1.entries := by
  have hvalid : validVectorBounds (publicVector 513).count (publicVector 513).capacity kDepotEntryStride = true := by
    decide
  have hu := uniform_publicVector 513
  have hempty : publicEntry 0 ∈ (publicVector 513).entries := by
    apply List.mem_take_iff_getElem.mpr
    exact ⟨0, by simp [publicVector], by simp [publicVector]⟩
  have hunsettled : ¬ Settled pinnedFacts 10 (publicVector 513) := by
    intro h
    have hdrop : shouldDrop (publicEntry 0).size (pinnedFacts.isManagedDepot (publicEntry 0).depotId) = true := by
      decide
    exact Bool.false_ne_true ((h _ hempty).1.symm.trans hdrop)
  have hceiling : ¬ (publicVector 513).count ≤ kMaxDepots := by decide
  obtain ⟨planned, hplanned, hentries⟩ := entries_hkBuildDepot (by decide) hvalid hu
  refine ⟨hvalid, hu, planned, hplanned, ?_, ?_⟩
  · rw [hentries, ne_eq, patchTargetVec, target_eq_patchTarget_iff hvalid hu]
    rintro (h | ⟨h, -⟩)
    · exact hunsettled h
    · exact hceiling h
  · rw [hentries, ne_eq, target_eq_patchTargetCtx_iff hvalid hu (by decide)]
    rintro (h | ⟨-, h, -⟩)
    · exact hunsettled h
    · exact hceiling h

end SlsteamMoon.ManifestPlan
