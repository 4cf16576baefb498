import Mathlib.Data.List.Basic
import Mathlib.Order.Basic

/-! Targeted refresh requests, their merge, and the map of one request per app. -/
namespace SlsteamMoon.ProvisionRefresh

abbrev AppId := UInt32

@[ext] structure RefreshRequest where
  appId : AppId := 0
  minimumChangeNumber : UInt32 := 0
  managedGeneration : UInt64 := 0
  reasons : UInt8 := 0
  forceRefresh : Bool := false
  publishRuntime : Bool := false
  deriving DecidableEq, Repr

def mergeRefreshRequests (current incoming : RefreshRequest) : RefreshRequest :=
  if current.managedGeneration < incoming.managedGeneration then incoming
  else if incoming.managedGeneration < current.managedGeneration then current
  else
    { current with
      minimumChangeNumber :=
        if current.minimumChangeNumber < incoming.minimumChangeNumber then incoming.minimumChangeNumber
        else current.minimumChangeNumber
      reasons := current.reasons ||| incoming.reasons
      forceRefresh := current.forceRefresh || incoming.forceRefresh
      publishRuntime := current.publishRuntime || incoming.publishRuntime }

def refreshRequestStrongerThan (candidate baseline : RefreshRequest) : Bool :=
  if candidate.managedGeneration != baseline.managedGeneration then
    decide (baseline.managedGeneration < candidate.managedGeneration)
  else
    decide (baseline.minimumChangeNumber < candidate.minimumChangeNumber) ||
      (candidate.reasons &&& ~~~baseline.reasons) != 0 ||
      (candidate.forceRefresh && !baseline.forceRefresh) ||
      (candidate.publishRuntime && !baseline.publishRuntime)

def sameRefreshRequest (left right : RefreshRequest) : Bool :=
  left.appId == right.appId && left.minimumChangeNumber == right.minimumChangeNumber &&
    left.managedGeneration == right.managedGeneration && left.reasons == right.reasons &&
    left.forceRefresh == right.forceRefresh && left.publishRuntime == right.publishRuntime

/-- One request is absorbed by another of its app. -/
def Dominates (strong weak : RefreshRequest) : Prop :=
  weak.appId = strong.appId ∧ mergeRefreshRequests strong weak = strong

instance (strong weak : RefreshRequest) : Decidable (Dominates strong weak) :=
  inferInstanceAs (Decidable (_ ∧ _))

/-! The merge is a join of the requests of one app. -/

private theorem later_comm (c c' : UInt32) : (if c < c' then c' else c) = if c' < c then c else c' := by
  simp only [UInt32.lt_iff_toNat_lt, ← UInt32.toNat_inj, apply_ite UInt32.toNat]
  split_ifs <;> omega

private theorem later_assoc (c c' c'' : UInt32) :
    (if (if c < c' then c' else c) < c'' then c'' else if c < c' then c' else c) =
      if c < (if c' < c'' then c'' else c') then if c' < c'' then c'' else c' else c := by
  simp only [UInt32.lt_iff_toNat_lt, ← UInt32.toNat_inj, apply_ite UInt32.toNat]
  split_ifs <;> omega

private theorem or_of_and_not {x y : UInt8} (h : x &&& ~~~y = 0) : x ||| y = y := by
  rw [← UInt8.toBitVec_inj]
  ext i hi
  have hbit : (x &&& ~~~y).toBitVec[i] = false := by simp [h]
  simp only [UInt8.toBitVec_and, UInt8.toBitVec_not, BitVec.getElem_and, BitVec.getElem_not,
    UInt8.toBitVec_or, BitVec.getElem_or] at hbit ⊢
  cases hx : x.toBitVec[i] <;> simp_all

private theorem generation_trichotomy (g g' : UInt64) : g < g' ∨ g = g' ∨ g' < g := by
  by_cases h : g = g'
  · exact .inr (.inl h)
  · rcases UInt64.lt_or_lt_of_ne h with hlt | hlt
    · exact .inl hlt
    · exact .inr (.inr hlt)

private theorem mergeRefreshRequests_newer {current incoming : RefreshRequest}
    (h : current.managedGeneration < incoming.managedGeneration) :
    mergeRefreshRequests current incoming = incoming := by
  simp [mergeRefreshRequests, h]

private theorem mergeRefreshRequests_older {current incoming : RefreshRequest}
    (h : incoming.managedGeneration < current.managedGeneration) :
    mergeRefreshRequests current incoming = current := by
  have hnot : ¬current.managedGeneration < incoming.managedGeneration := UInt64.lt_asymm h
  simp [mergeRefreshRequests, h, hnot]

/-- Of one generation, everything is joined. -/
theorem mergeRefreshRequests_same {current incoming : RefreshRequest}
    (h : current.managedGeneration = incoming.managedGeneration) :
    mergeRefreshRequests current incoming =
      { current with
        minimumChangeNumber :=
          if current.minimumChangeNumber < incoming.minimumChangeNumber then incoming.minimumChangeNumber
          else current.minimumChangeNumber
        reasons := current.reasons ||| incoming.reasons
        forceRefresh := current.forceRefresh || incoming.forceRefresh
        publishRuntime := current.publishRuntime || incoming.publishRuntime } := by
  simp [mergeRefreshRequests, h, UInt64.lt_irrefl]

private theorem mergeRefreshRequests_appId {current incoming : RefreshRequest} (happ : incoming.appId = current.appId) :
    (mergeRefreshRequests current incoming).appId = current.appId := by
  unfold mergeRefreshRequests
  split_ifs
  · exact happ
  · rfl
  · rfl
  · rfl

private theorem mergeRefreshRequests_idem (r : RefreshRequest) : mergeRefreshRequests r r = r := by
  rw [mergeRefreshRequests_same rfl]
  simp [UInt32.lt_irrefl]

private theorem mergeRefreshRequests_comm {r r' : RefreshRequest} (happ : r.appId = r'.appId) :
    mergeRefreshRequests r r' = mergeRefreshRequests r' r := by
  rcases generation_trichotomy r.managedGeneration r'.managedGeneration with h | h | h
  · rw [mergeRefreshRequests_newer h, mergeRefreshRequests_older h]
  · rw [mergeRefreshRequests_same h, mergeRefreshRequests_same h.symm]
    exact RefreshRequest.ext happ (later_comm _ _) h (UInt8.or_comm _ _) (Bool.or_comm _ _) (Bool.or_comm _ _)
  · rw [mergeRefreshRequests_older h, mergeRefreshRequests_newer h]

private theorem mergeRefreshRequests_assoc (a b c : RefreshRequest) :
    mergeRefreshRequests (mergeRefreshRequests a b) c = mergeRefreshRequests a (mergeRefreshRequests b c) := by
  rcases generation_trichotomy a.managedGeneration b.managedGeneration with hab | hab | hab
  · rcases generation_trichotomy b.managedGeneration c.managedGeneration with hbc | hbc | hbc
    · rw [mergeRefreshRequests_newer hab, mergeRefreshRequests_newer hbc,
        mergeRefreshRequests_newer (UInt64.lt_trans hab hbc)]
    · rw [mergeRefreshRequests_newer hab]
      refine (mergeRefreshRequests_newer ?_).symm
      rwa [mergeRefreshRequests_same hbc]
    · rw [mergeRefreshRequests_newer hab, mergeRefreshRequests_older hbc, mergeRefreshRequests_newer hab]
  · rcases generation_trichotomy b.managedGeneration c.managedGeneration with hbc | hbc | hbc
    · rw [mergeRefreshRequests_newer hbc, mergeRefreshRequests_newer (hab.trans_lt hbc)]
      refine mergeRefreshRequests_newer ?_
      rwa [mergeRefreshRequests_same hab, hab]
    · rw [mergeRefreshRequests_same hab, mergeRefreshRequests_same hbc, mergeRefreshRequests_same, mergeRefreshRequests_same]
      · exact RefreshRequest.ext rfl (later_assoc _ _ _) rfl (UInt8.or_assoc _ _ _) (Bool.or_assoc _ _ _)
          (Bool.or_assoc _ _ _)
      · exact hab
      · exact hab.trans hbc
    · rw [mergeRefreshRequests_older hbc]
      refine mergeRefreshRequests_older ?_
      rwa [mergeRefreshRequests_same hab, hab]
  · rcases generation_trichotomy b.managedGeneration c.managedGeneration with hbc | hbc | hbc
    · rw [mergeRefreshRequests_older hab, mergeRefreshRequests_newer hbc]
    · rw [mergeRefreshRequests_older hab, mergeRefreshRequests_older (hbc ▸ hab)]
      refine (mergeRefreshRequests_older ?_).symm
      rwa [mergeRefreshRequests_same hbc]
    · rw [mergeRefreshRequests_older hab, mergeRefreshRequests_older hbc,
        mergeRefreshRequests_older (UInt64.lt_trans hbc hab), mergeRefreshRequests_older hab]

/-! Absorption is the order of the join. -/

theorem Dominates.refl (r : RefreshRequest) : Dominates r r := ⟨rfl, mergeRefreshRequests_idem r⟩

theorem Dominates.trans {a b c : RefreshRequest} (hab : Dominates a b) (hbc : Dominates b c) : Dominates a c := by
  refine ⟨hbc.1.trans hab.1, ?_⟩
  calc mergeRefreshRequests a c
      = mergeRefreshRequests (mergeRefreshRequests a b) c := by rw [hab.2]
    _ = mergeRefreshRequests a b := by rw [mergeRefreshRequests_assoc, hbc.2]
    _ = a := hab.2

private theorem dominates_merge_left {current incoming : RefreshRequest} (happ : incoming.appId = current.appId) :
    Dominates (mergeRefreshRequests current incoming) current := by
  refine ⟨(mergeRefreshRequests_appId happ).symm, ?_⟩
  rw [mergeRefreshRequests_comm happ.symm, mergeRefreshRequests_assoc, mergeRefreshRequests_idem]

private theorem dominates_merge_right {current incoming : RefreshRequest} (happ : incoming.appId = current.appId) :
    Dominates (mergeRefreshRequests current incoming) incoming := by
  rw [mergeRefreshRequests_comm happ.symm]
  exact dominates_merge_left happ.symm

/-- A merge that is not stronger than what it was merged into changed nothing. -/
theorem merge_of_not_stronger {current incoming : RefreshRequest}
    (h : refreshRequestStrongerThan (mergeRefreshRequests current incoming) current = false) :
    mergeRefreshRequests current incoming = current := by
  rcases generation_trichotomy current.managedGeneration incoming.managedGeneration with hlt | heq | hgt
  · rw [mergeRefreshRequests_newer hlt] at h
    have hne : incoming.managedGeneration ≠ current.managedGeneration := (UInt64.ne_of_lt hlt).symm
    simp [refreshRequestStrongerThan, hne, hlt] at h
  · rw [mergeRefreshRequests_same heq] at h ⊢
    simp only [refreshRequestStrongerThan, bne_self_eq_false, Bool.false_eq_true, if_false, Bool.or_eq_false_iff,
      decide_eq_false_iff_not] at h
    obtain ⟨⟨⟨hchange, hreasons⟩, hforce⟩, hpublish⟩ := h
    refine RefreshRequest.ext rfl ?_ rfl ?_ ?_ ?_
    · have hle : ¬current.minimumChangeNumber < incoming.minimumChangeNumber := by
        intro hlt
        exact hchange (by rwa [if_pos hlt])
      simp [hle]
    · have hjoin := or_of_and_not (bne_eq_false_iff_eq.mp hreasons)
      rwa [UInt8.or_comm, ← UInt8.or_assoc, UInt8.or_self] at hjoin
    · cases hcurrent : current.forceRefresh <;> simp_all
    · cases hcurrent : current.publishRuntime <;> simp_all
  · exact mergeRefreshRequests_older hgt

end SlsteamMoon.ProvisionRefresh

/-! The refresh queue: one batch at a worker, one batch behind it, and a rollback
when the worker could not be started. -/
namespace SlsteamMoon.ProvisionRefresh

abbrev RequestMap := Std.TreeMap AppId RefreshRequest

def mergeRefreshRequest (requests : RequestMap) (incoming : RefreshRequest) : RequestMap :=
  if incoming.appId = 0 then requests
  else match requests[incoming.appId]? with
    | none => requests.insert incoming.appId incoming
    | some current => requests.insert incoming.appId (mergeRefreshRequests current incoming)

/-- In the order of the map's keys. -/
def refreshRequestBatch (requests : RequestMap) : List RefreshRequest := requests.toList.map Prod.snd

inductive RefreshQueueAction
  | ignore | start | queue
  deriving DecidableEq, Repr

structure RefreshQueueDecision where
  action : RefreshQueueAction := .ignore
  batch : List RefreshRequest := []
  deriving DecidableEq, Repr

structure RefreshQueue where
  active : Bool := false
  activeRequests : RequestMap := ∅
  pendingRequests : RequestMap := ∅

namespace RefreshQueue

/-- Merge one request behind the active batch; true if the pending entry of its
app is new or another one than before. -/
def mergePending (pendingRequests : RequestMap) (request : RefreshRequest) : RequestMap × Bool :=
  let pending := pendingRequests[request.appId]?
  let before := pending.getD {}
  let requests := mergeRefreshRequest pendingRequests request
  let after := requests.getD request.appId {}
  (requests, pending.isNone || !sameRefreshRequest before after)

/-- One turn of the loop of a queue whose worker is busy. -/
def enqueueBehind (activeRequests pendingRequests : RequestMap) (request : RefreshRequest) : RequestMap × Bool :=
  if request.appId = 0 then (pendingRequests, false)
  else match activeRequests[request.appId]? with
    | none => mergePending pendingRequests request
    | some active =>
      let merged := mergeRefreshRequests active request
      if refreshRequestStrongerThan merged active = false then (pendingRequests, false)
      else mergePending pendingRequests merged

def enqueueAll (activeRequests : RequestMap) : RequestMap × Bool → List RefreshRequest → RequestMap × Bool
  | found, [] => found
  | (pendingRequests, queued), request :: incoming =>
    let (requests, changed) := enqueueBehind activeRequests pendingRequests request
    enqueueAll activeRequests (requests, queued || changed) incoming

def enqueue (q : RefreshQueue) (incoming : List RefreshRequest) : RefreshQueueDecision × RefreshQueue :=
  if q.active = false then
    let requests := incoming.foldl mergeRefreshRequest q.pendingRequests
    if requests.isEmpty then ({}, { q with pendingRequests := requests })
    else (⟨.start, refreshRequestBatch requests⟩, ⟨true, requests, ∅⟩)
  else
    let (requests, queued) := enqueueAll q.activeRequests (q.pendingRequests, false) incoming
    (⟨if queued then .queue else .ignore, []⟩, { q with pendingRequests := requests })

def finishActive (q : RefreshQueue) : List RefreshRequest × RefreshQueue :=
  if q.pendingRequests.isEmpty then ([], ⟨false, ∅, q.pendingRequests⟩)
  else (refreshRequestBatch q.pendingRequests, ⟨true, q.pendingRequests, ∅⟩)

def restoreAfterStartFailure (q : RefreshQueue) (failed : List RefreshRequest) : RefreshQueue :=
  ⟨false, ∅, failed.foldl mergeRefreshRequest q.pendingRequests⟩

end RefreshQueue

/-! The queue with the history of its calls. -/

inductive Call
  | enqueue (incoming : List RefreshRequest)
  | finishActive
  | restoreAfterStartFailure
  deriving DecidableEq, Repr

/-- `started` is the batch handed out last, `finished` the entries of the batches
that were at the worker when it finished. -/
structure History where
  queue : RefreshQueue := {}
  enqueued : List RefreshRequest := []
  started : List RefreshRequest := []
  finished : List RefreshRequest := []

namespace History

def call (h : History) : Call → History
  | .enqueue incoming =>
    let (decision, queue) := h.queue.enqueue incoming
    { h with
      queue
      enqueued := incoming ++ h.enqueued
      started := if decision.action = .start then decision.batch else h.started }
  | .finishActive =>
    let (batch, queue) := h.queue.finishActive
    { h with
      queue
      started := if queue.active then batch else h.started
      finished := refreshRequestBatch h.queue.activeRequests ++ h.finished }
  | .restoreAfterStartFailure => { h with queue := h.queue.restoreAfterStartFailure h.started }

def run (h : History) (calls : List Call) : History := calls.foldl call h

end History

/-! What merging into a map keeps. -/

/-- Every request stands under its own app. -/
def Keyed (requests : RequestMap) : Prop :=
  ∀ (app : AppId) (r : RefreshRequest), requests[app]? = some r → r.appId = app

/-- The entry of the request's app absorbs it. -/
def Holds (requests : RequestMap) (r : RefreshRequest) : Prop :=
  ∃ entry, requests[r.appId]? = some entry ∧ Dominates entry r

theorem keyed_empty : Keyed ∅ := by
  intro app r h
  simp at h

private theorem not_holds_empty (r : RefreshRequest) : ¬Holds ∅ r := by
  rintro ⟨entry, h, -⟩
  simp at h

private theorem Holds.of_dominates {requests : RequestMap} {strong weak : RefreshRequest} (h : Holds requests strong)
    (hdom : Dominates strong weak) : Holds requests weak := by
  obtain ⟨entry, hentry, hstrong⟩ := h
  exact ⟨entry, by rwa [hdom.1], hstrong.trans hdom⟩

private theorem getElem?_merge_other {requests : RequestMap} {r : RefreshRequest} {app : AppId} (h : r.appId ≠ app) :
    (mergeRefreshRequest requests r)[app]? = requests[app]? := by
  unfold mergeRefreshRequest
  split
  · rfl
  · split <;> simp [Std.TreeMap.getElem?_insert, h]

private theorem getElem?_merge_self {requests : RequestMap} {r : RefreshRequest} (h : r.appId ≠ 0) :
    (mergeRefreshRequest requests r)[r.appId]? =
      some ((requests[r.appId]?).elim r fun current => mergeRefreshRequests current r) := by
  unfold mergeRefreshRequest
  rw [if_neg h]
  split <;> simp [*]

private theorem mergeRefreshRequest_zero {requests : RequestMap} {r : RefreshRequest} (h : r.appId = 0) :
    mergeRefreshRequest requests r = requests := if_pos h

theorem Keyed.merge {requests : RequestMap} (h : Keyed requests) (r : RefreshRequest) :
    Keyed (mergeRefreshRequest requests r) := by
  intro app entry hentry
  by_cases hzero : r.appId = 0
  · rw [mergeRefreshRequest_zero hzero] at hentry
    exact h app entry hentry
  by_cases happ : r.appId = app
  · subst happ
    rw [getElem?_merge_self hzero] at hentry
    obtain rfl := Option.some.inj hentry
    cases hcurrent : requests[r.appId]? with
    | none => rfl
    | some current =>
      have hkey : current.appId = r.appId := h _ _ hcurrent
      exact (mergeRefreshRequests_appId hkey.symm).trans hkey
  · rw [getElem?_merge_other happ] at hentry
    exact h app entry hentry

theorem Holds.merge {requests : RequestMap} {r : RefreshRequest} (h : Holds requests r) (incoming : RefreshRequest) :
    Holds (mergeRefreshRequest requests incoming) r := by
  obtain ⟨entry, hentry, hdom⟩ := h
  by_cases hzero : incoming.appId = 0
  · rw [mergeRefreshRequest_zero hzero]
    exact ⟨entry, hentry, hdom⟩
  by_cases happ : incoming.appId = r.appId
  · refine ⟨mergeRefreshRequests entry incoming, ?_, ?_⟩
    · rw [← happ, getElem?_merge_self hzero, happ, hentry, Option.elim_some]
    · exact (dominates_merge_left (happ.trans hdom.1)).trans hdom
  · exact ⟨entry, by rw [getElem?_merge_other happ, hentry], hdom⟩

private theorem holds_merge {requests : RequestMap} (hkeyed : Keyed requests) {r : RefreshRequest} (h : r.appId ≠ 0) :
    Holds (mergeRefreshRequest requests r) r := by
  refine ⟨_, getElem?_merge_self h, ?_⟩
  cases hcurrent : requests[r.appId]? with
  | none => exact .refl r
  | some current => exact dominates_merge_right (hkeyed _ _ hcurrent).symm

theorem Keyed.foldl {requests : RequestMap} (h : Keyed requests) (incoming : List RefreshRequest) :
    Keyed (incoming.foldl mergeRefreshRequest requests) := by
  induction incoming generalizing requests with
  | nil => exact h
  | cons r incoming ih => exact ih (h.merge r)

theorem Holds.foldl {requests : RequestMap} {r : RefreshRequest} (h : Holds requests r)
    (incoming : List RefreshRequest) : Holds (incoming.foldl mergeRefreshRequest requests) r := by
  induction incoming generalizing requests with
  | nil => exact h
  | cons r' incoming ih => exact ih (h.merge r')

private theorem holds_foldl {requests : RequestMap} (hkeyed : Keyed requests) {incoming : List RefreshRequest}
    {r : RefreshRequest} (hr : r ∈ incoming) (h : r.appId ≠ 0) :
    Holds (incoming.foldl mergeRefreshRequest requests) r := by
  induction incoming generalizing requests with
  | nil => exact absurd hr List.not_mem_nil
  | cons r' incoming ih =>
    rcases List.mem_cons.mp hr with rfl | hr
    · exact (holds_merge hkeyed h).foldl incoming
    · exact ih (hkeyed.merge r') hr

private theorem mem_refreshRequestBatch {requests : RequestMap} {r : RefreshRequest} :
    r ∈ refreshRequestBatch requests ↔ ∃ app : AppId, requests[app]? = some r := by
  simp [refreshRequestBatch, Std.TreeMap.mem_toList_iff_getElem?_eq_some]

theorem Holds.batch {requests : RequestMap} {r : RefreshRequest} (h : Holds requests r) :
    ∃ entry ∈ refreshRequestBatch requests, Dominates entry r := by
  obtain ⟨entry, hentry, hdom⟩ := h
  exact ⟨entry, mem_refreshRequestBatch.mpr ⟨_, hentry⟩, hdom⟩

/-! What a busy queue does with one request and with a list of them. -/

/-- A request behind the batch is in the batch already, or a request that absorbs
it is merged into the pending ones. -/
theorem enqueueBehind_cases {active : RequestMap} (hkeyed : Keyed active) (pending : RequestMap)
    (r : RefreshRequest) :
    (RefreshQueue.enqueueBehind active pending r).1 = pending ∧ (r.appId ≠ 0 → Holds active r) ∨
      ∃ stronger, Dominates stronger r ∧
        (RefreshQueue.enqueueBehind active pending r).1 = mergeRefreshRequest pending stronger := by
  unfold RefreshQueue.enqueueBehind
  split
  · next hzero => exact .inl ⟨rfl, fun h => absurd hzero h⟩
  · next hzero =>
    cases hactive : active[r.appId]? with
    | none => exact .inr ⟨r, .refl r, rfl⟩
    | some entry =>
      have happ : r.appId = entry.appId := (hkeyed _ _ hactive).symm
      dsimp only
      split
      · next hweak => exact .inl ⟨rfl, fun _ => ⟨entry, hactive, happ, merge_of_not_stronger hweak⟩⟩
      · exact .inr ⟨mergeRefreshRequests entry r, dominates_merge_right happ, rfl⟩

private theorem Keyed.enqueueBehind {active pending : RequestMap} (hactive : Keyed active) (h : Keyed pending)
    (r : RefreshRequest) : Keyed (RefreshQueue.enqueueBehind active pending r).1 := by
  obtain ⟨hsame, -⟩ | ⟨stronger, -, hmerge⟩ := enqueueBehind_cases hactive pending r
  · rwa [hsame]
  · rw [hmerge]
    exact h.merge stronger

private theorem Holds.enqueueBehind {active pending : RequestMap} (hactive : Keyed active) {r : RefreshRequest}
    (h : Holds pending r) (r' : RefreshRequest) : Holds (RefreshQueue.enqueueBehind active pending r').1 r := by
  obtain ⟨hsame, -⟩ | ⟨stronger, -, hmerge⟩ := enqueueBehind_cases hactive pending r'
  · rwa [hsame]
  · rw [hmerge]
    exact h.merge stronger

private theorem holds_enqueueBehind {active pending : RequestMap} (hactive : Keyed active) (hpending : Keyed pending)
    {r : RefreshRequest} (hzero : r.appId ≠ 0) :
    Holds active r ∨ Holds (RefreshQueue.enqueueBehind active pending r).1 r := by
  obtain ⟨-, hheld⟩ | ⟨stronger, hdom, hmerge⟩ := enqueueBehind_cases hactive pending r
  · exact .inl (hheld hzero)
  · rw [hmerge]
    exact .inr ((holds_merge hpending (hdom.1 ▸ hzero)).of_dominates hdom)

theorem Keyed.enqueueAll {active pending : RequestMap} (hactive : Keyed active) (h : Keyed pending) (queued : Bool)
    (incoming : List RefreshRequest) : Keyed (RefreshQueue.enqueueAll active (pending, queued) incoming).1 := by
  induction incoming generalizing pending queued with
  | nil => exact h
  | cons r incoming ih => exact ih (hactive.enqueueBehind h r) _

theorem Holds.enqueueAll {active pending : RequestMap} (hactive : Keyed active) {r : RefreshRequest}
    (h : Holds pending r) (queued : Bool) (incoming : List RefreshRequest) :
    Holds (RefreshQueue.enqueueAll active (pending, queued) incoming).1 r := by
  induction incoming generalizing pending queued with
  | nil => exact h
  | cons r' incoming ih => exact ih (h.enqueueBehind hactive r') _

private theorem holds_enqueueAll {active pending : RequestMap} (hactive : Keyed active) (hpending : Keyed pending)
    {r : RefreshRequest} (hzero : r.appId ≠ 0) (queued : Bool) {incoming : List RefreshRequest} (hr : r ∈ incoming) :
    Holds active r ∨ Holds (RefreshQueue.enqueueAll active (pending, queued) incoming).1 r := by
  induction incoming generalizing pending queued with
  | nil => exact absurd hr List.not_mem_nil
  | cons r' incoming ih =>
    rcases List.mem_cons.mp hr with rfl | hr
    · rcases holds_enqueueBehind hactive hpending hzero with hheld | hheld
      · exact .inl hheld
      · exact .inr (hheld.enqueueAll hactive _ incoming)
    · exact ih (hactive.enqueueBehind hpending r') _ hr

/-! The queue over its history. -/

namespace History

/-- A request is absorbed by the entry of its app at the worker, by the one behind
it, or by an entry of a batch the worker finished. -/
def Covered (h : History) (r : RefreshRequest) : Prop :=
  Holds h.queue.activeRequests r ∨ Holds h.queue.pendingRequests r ∨ ∃ entry ∈ h.finished, Dominates entry r

structure Sound (h : History) : Prop where
  keyedActive : Keyed h.queue.activeRequests
  keyedPending : Keyed h.queue.pendingRequests
  idle : h.queue.active = false → h.queue.activeRequests = ∅
  started : h.queue.active = true → h.started = refreshRequestBatch h.queue.activeRequests
  covered : ∀ r ∈ h.enqueued, r.appId ≠ 0 → h.Covered r

theorem sound_init : Sound {} where
  keyedActive := keyed_empty
  keyedPending := keyed_empty
  idle _ := rfl
  started h := absurd h Bool.false_ne_true
  covered _ h := absurd h List.not_mem_nil

/-- Requests to an idle queue join the pending ones, and all of them start. -/
theorem Sound.enqueue_idle {h : History} (hs : h.Sound) (hactive : h.queue.active = false)
    (incoming : List RefreshRequest) : (h.call (.enqueue incoming)).Sound := by
  have hkeyed : Keyed (incoming.foldl mergeRefreshRequest h.queue.pendingRequests) := hs.keyedPending.foldl incoming
  have hcovered : ∀ r ∈ incoming ++ h.enqueued, r.appId ≠ 0 →
      Holds (incoming.foldl mergeRefreshRequest h.queue.pendingRequests) r ∨
        ∃ entry ∈ h.finished, Dominates entry r := by
    intro r hr hzero
    rcases List.mem_append.mp hr with hr | hr
    · exact .inl (holds_foldl hs.keyedPending hr hzero)
    · rcases hs.covered r hr hzero with hheld | hheld | hfinished
      · rw [hs.idle hactive] at hheld
        exact absurd hheld (not_holds_empty r)
      · exact .inl (hheld.foldl incoming)
      · exact .inr hfinished
  simp only [call, RefreshQueue.enqueue, if_pos hactive]
  split
  · exact {
      keyedActive := hs.keyedActive
      keyedPending := hkeyed
      idle := hs.idle
      started := fun hbusy => absurd (hactive.symm.trans hbusy) Bool.false_ne_true
      covered := fun r hr hzero => .inr (hcovered r hr hzero) }
  · exact {
      keyedActive := hkeyed
      keyedPending := keyed_empty
      idle := fun hidle => absurd hidle.symm Bool.false_ne_true
      started := fun _ => rfl
      covered := fun r hr hzero => (hcovered r hr hzero).imp id .inr }

/-- Requests to a busy queue are in the batch at the worker or go behind it. -/
theorem Sound.enqueue_busy {h : History} (hs : h.Sound) (hactive : h.queue.active = true)
    (incoming : List RefreshRequest) : (h.call (.enqueue incoming)).Sound := by
  have hnot : ¬h.queue.active = false := by simp [hactive]
  have hcovered : ∀ r ∈ incoming ++ h.enqueued, r.appId ≠ 0 → Holds h.queue.activeRequests r ∨
      Holds (RefreshQueue.enqueueAll h.queue.activeRequests (h.queue.pendingRequests, false) incoming).1 r ∨
        ∃ entry ∈ h.finished, Dominates entry r := by
    intro r hr hzero
    rcases List.mem_append.mp hr with hr | hr
    · exact (holds_enqueueAll hs.keyedActive hs.keyedPending hzero false hr).imp id .inl
    · rcases hs.covered r hr hzero with hheld | hheld | hfinished
      · exact .inl hheld
      · exact .inr (.inl (hheld.enqueueAll hs.keyedActive false incoming))
      · exact .inr (.inr hfinished)
  have hstarted (queued : Bool) : (if queued then RefreshQueueAction.queue else .ignore) ≠ .start := by
    cases queued <;> decide
  simp only [call, RefreshQueue.enqueue, if_neg hnot, if_neg (hstarted _)]
  exact {
    keyedActive := hs.keyedActive
    keyedPending := hs.keyedActive.enqueueAll hs.keyedPending false incoming
    idle := hs.idle
    started := hs.started
    covered := hcovered }

/-- What was at the worker is finished; what was behind it is at the worker. -/
theorem Sound.finishActive {h : History} (hs : h.Sound) : (h.call .finishActive).Sound := by
  have hcovered : ∀ r ∈ h.enqueued, r.appId ≠ 0 → Holds h.queue.pendingRequests r ∨
      ∃ entry ∈ refreshRequestBatch h.queue.activeRequests ++ h.finished, Dominates entry r := by
    intro r hr hzero
    rcases hs.covered r hr hzero with hheld | hheld | ⟨entry, hentry, hdom⟩
    · obtain ⟨entry, hentry, hdom⟩ := hheld.batch
      exact .inr ⟨entry, List.mem_append_left _ hentry, hdom⟩
    · exact .inl hheld
    · exact .inr ⟨entry, List.mem_append_right _ hentry, hdom⟩
  unfold call RefreshQueue.finishActive
  dsimp only
  split
  · exact {
      keyedActive := keyed_empty
      keyedPending := hs.keyedPending
      idle := fun _ => rfl
      started := fun hbusy => absurd hbusy Bool.false_ne_true
      covered := fun r hr hzero => .inr (hcovered r hr hzero) }
  · exact {
      keyedActive := hs.keyedPending
      keyedPending := keyed_empty
      idle := fun hidle => absurd hidle.symm Bool.false_ne_true
      started := fun _ => rfl
      covered := fun r hr hzero => (hcovered r hr hzero).imp id .inr }

/-- The batch that could not be started goes back to the pending requests. -/
theorem Sound.restoreAfterStartFailure {h : History} (hs : h.Sound) :
    (h.call .restoreAfterStartFailure).Sound where
  keyedActive := keyed_empty
  keyedPending := hs.keyedPending.foldl h.started
  idle _ := rfl
  started hbusy := absurd hbusy Bool.false_ne_true
  covered := by
    intro r hr hzero
    rcases hs.covered r hr hzero with hheld | hheld | hfinished
    · cases hactive : h.queue.active with
      | false =>
        rw [hs.idle hactive] at hheld
        exact absurd hheld (not_holds_empty r)
      | true =>
        obtain ⟨entry, hentry, hdom⟩ := hheld.batch
        rw [← hs.started hactive] at hentry
        have hkept := holds_foldl hs.keyedPending hentry (hdom.1 ▸ hzero)
        exact .inr (.inl (hkept.of_dominates hdom))
    · exact .inr (.inl (hheld.foldl h.started))
    · exact .inr (.inr hfinished)

theorem Sound.call {h : History} (hs : h.Sound) (c : Call) : (h.call c).Sound := by
  cases c with
  | enqueue incoming =>
    cases hactive : h.queue.active with
    | false => exact hs.enqueue_idle hactive incoming
    | true => exact hs.enqueue_busy hactive incoming
  | finishActive => exact hs.finishActive
  | restoreAfterStartFailure => exact hs.restoreAfterStartFailure

theorem Sound.run {h : History} (hs : h.Sound) (calls : List Call) : (h.run calls).Sound := by
  induction calls generalizing h with
  | nil => exact hs
  | cons c calls ih => exact ih (hs.call c)

/-- Only a failed start leaves requests behind no batch. -/
theorem pending_behind_batch (h : History) {c : Call} (hc : c ≠ .restoreAfterStartFailure)
    (hidle : (h.call c).queue.active = false) :
    (h.call c).queue.pendingRequests.isEmpty = true := by
  cases c with
  | enqueue incoming =>
    revert hidle
    unfold call RefreshQueue.enqueue
    dsimp only
    split
    · split
      · next hempty => exact fun _ => hempty
      · exact fun hidle => absurd hidle.symm Bool.false_ne_true
    · next hactive => exact fun hidle => absurd hidle hactive
  | finishActive =>
    revert hidle
    unfold call RefreshQueue.finishActive
    dsimp only
    split
    · next hempty => exact fun _ => hempty
    · exact fun hidle => absurd hidle.symm Bool.false_ne_true
  | restoreAfterStartFailure => exact absurd rfl hc

theorem run_concat (h : History) (calls : List Call) (c : Call) : h.run (calls ++ [c]) = (h.run calls).call c :=
  List.foldl_concat call h c calls

private theorem run_pending_idle (calls : List Call) (hidle : (run {} calls).queue.active = false)
    (hpending : (run {} calls).queue.pendingRequests.isEmpty = false) :
    calls.getLast? = some .restoreAfterStartFailure := by
  rcases List.eq_nil_or_concat calls with rfl | ⟨before, c, rfl⟩
  · exact absurd hpending (by decide)
  · rw [List.concat_eq_append] at hidle hpending ⊢
    rw [run_concat] at hidle hpending
    by_contra hlast
    have hc : c ≠ .restoreAfterStartFailure := by
      rintro rfl
      exact hlast (by simp)
    rw [pending_behind_batch _ hc hidle] at hpending
    exact absurd hpending.symm Bool.false_ne_true

end History

/-- The merge of one app is a join in which a later publication wins, and every
request with an app is absorbed by what is at the worker, behind it or finished. -/
theorem refresh_requests_merged_never_lost :
    ((∀ r r' : RefreshRequest, r.appId = r'.appId → mergeRefreshRequests r r' = mergeRefreshRequests r' r) ∧
      (∀ a b c, mergeRefreshRequests (mergeRefreshRequests a b) c = mergeRefreshRequests a (mergeRefreshRequests b c)) ∧
      (∀ r, mergeRefreshRequests r r = r) ∧
      (∀ r r' : RefreshRequest, r'.managedGeneration < r.managedGeneration → mergeRefreshRequests r r' = r) ∧
      ∀ r r' : RefreshRequest, r.managedGeneration = r'.managedGeneration →
        (mergeRefreshRequests r r').managedGeneration = r.managedGeneration ∧
        (mergeRefreshRequests r r').minimumChangeNumber.toNat =
          max r.minimumChangeNumber.toNat r'.minimumChangeNumber.toNat ∧
        (mergeRefreshRequests r r').reasons = r.reasons ||| r'.reasons ∧
        (mergeRefreshRequests r r').forceRefresh = (r.forceRefresh || r'.forceRefresh) ∧
        (mergeRefreshRequests r r').publishRuntime = (r.publishRuntime || r'.publishRuntime)) ∧
    ∀ calls : List Call,
      (∀ r ∈ (History.run {} calls).enqueued, r.appId ≠ 0 → (History.run {} calls).Covered r) ∧
      ((History.run {} calls).queue.active = false → (History.run {} calls).queue.pendingRequests.isEmpty = false →
        calls.getLast? = some .restoreAfterStartFailure) := by
  refine ⟨⟨fun r r' h => mergeRefreshRequests_comm h, mergeRefreshRequests_assoc, mergeRefreshRequests_idem,
    fun r r' h => mergeRefreshRequests_older h, fun r r' h => ?_⟩, fun calls => ⟨?_, ?_⟩⟩
  · rw [mergeRefreshRequests_same h]
    refine ⟨rfl, ?_, rfl, rfl, rfl⟩
    simp only [UInt32.lt_iff_toNat_lt, apply_ite UInt32.toNat]
    split <;> omega
  · exact (History.sound_init.run calls).covered
  · exact History.run_pending_idle calls

private def refreshOf (appId : AppId) (change : UInt32) (generation : UInt64) : RefreshRequest :=
  { appId, minimumChangeNumber := change, managedGeneration := generation, reasons := 2, forceRefresh := true }

/-- A start that failed leaves its request, merged with a later one, to the next
batch. -/
theorem refresh_requests_survive_failed_start :
    (History.run {} [.enqueue [refreshOf 420530 8 3], .enqueue [refreshOf 420530 9 3], .restoreAfterStartFailure]).Covered
        (refreshOf 420530 8 3) ∧
      [Call.enqueue [refreshOf 420530 8 3], .enqueue [refreshOf 420530 9 3], .restoreAfterStartFailure].getLast? =
        some .restoreAfterStartFailure := by
  obtain ⟨hcovered, hdormant⟩ := refresh_requests_merged_never_lost.2
    [.enqueue [refreshOf 420530 8 3], .enqueue [refreshOf 420530 9 3], .restoreAfterStartFailure]
  exact ⟨hcovered _ (by decide) (by decide), hdormant (by decide +kernel) (by decide +kernel)⟩

/-- A request that names no app is dropped. -/
theorem refresh_request_without_app_dropped :
    refreshOf 0 8 3 ∈ (History.run {} [.enqueue [refreshOf 0 8 3]]).enqueued ∧
      ¬(History.run {} [.enqueue [refreshOf 0 8 3]]).Covered (refreshOf 0 8 3) := by
  refine ⟨by decide, ?_⟩
  rintro (hheld | hheld | ⟨entry, hentry, -⟩)
  · exact not_holds_empty _ hheld
  · exact not_holds_empty _ hheld
  · exact absurd hentry List.not_mem_nil

end SlsteamMoon.ProvisionRefresh
