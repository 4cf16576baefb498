import Mathlib.Data.Finset.Card
import Mathlib.Logic.Function.Basic
import SlsteamMoon.KeyValues.Text

/-! The quarantine of depots whose chunks fail to unpack, bound to the key that they failed with. -/
namespace SlsteamMoon.DepotQuarantine
open KeyValues

abbrev AppId := UInt32
abbrev DepotId := UInt32
abbrev Chunk := UInt64

def kUnpackFailed : UInt32 := 4

def kDistinctFailureThreshold : Nat := 3

structure Record where
  appId : AppId
  key : Bytes
  failedChunks : Finset Chunk
  quarantined : Bool

/-- The arguments of `markFailure`. -/
structure Failure where
  depotId : DepotId
  appId : AppId
  inManagedScope : Bool
  key : Bytes
  unpackResult : UInt32
  chunkFingerprint : Chunk

inductive Call where
  | markFailure (failure : Failure)
  | adopt (depotId : DepotId) (appId : AppId) (key : Bytes)
  | shouldDrop (depotId : DepotId) (dlcAppId : AppId) (inManagedScope : Bool) (currentKey : Bytes)

def Call.depotId : Call → DepotId
  | markFailure failure => failure.depotId
  | adopt depotId _ _ => depotId
  | shouldDrop depotId _ _ _ => depotId

/-- The failures that count against a depot. -/
def Failure.counts (failure : Failure) : Bool :=
  failure.depotId != 0 && failure.appId != 0 && failure.inManagedScope && failure.key.length == 32 &&
    failure.unpackResult == kUnpackFailed && failure.chunkFingerprint != 0

abbrev Registry := DepotId → Option Record

/-- The record that a failure is entered in. -/
def recordFor (entry : Option Record) (appId : AppId) (key : Bytes) : Record :=
  match entry with
  | none => ⟨appId, key, ∅, false⟩
  | some record => if record.appId ≠ appId ∨ record.key ≠ key then ⟨appId, key, ∅, false⟩ else record

/-- Enter a chunk; true when it is the one that confirms the quarantine. -/
def Record.enter (record : Record) (chunk : Chunk) : Bool × Record :=
  if record.quarantined then (false, record)
  else
    let record := { record with failedChunks := insert chunk record.failedChunks }
    if record.failedChunks.card < kDistinctFailureThreshold then (false, record)
    else (true, { record with quarantined := true })

def Registry.markFailure (records : Registry) (failure : Failure) : Bool × Registry :=
  if failure.counts = false then (false, records)
  else
    let (answer, record) := (recordFor (records failure.depotId) failure.appId failure.key).enter failure.chunkFingerprint
    (answer, Function.update records failure.depotId (some record))

def Registry.adopt (records : Registry) (depotId : DepotId) (appId : AppId) (key : Bytes) : Bool × Registry :=
  if depotId = 0 ∨ appId = 0 ∨ key.length ≠ 32 then (false, records)
  else
    match records depotId with
    | none => (true, Function.update records depotId (some ⟨appId, key, ∅, true⟩))
    | some record =>
      if record.quarantined ∧ record.appId = appId ∧ record.key = key then (false, records)
      else (true, Function.update records depotId (some ⟨appId, key, ∅, true⟩))

/-- A depot that is no longer managed, or whose key is another one, is released. -/
def Registry.shouldDrop (records : Registry) (depotId : DepotId) (dlcAppId : AppId) (inManagedScope : Bool)
    (currentKey : Bytes) : Bool × Registry :=
  match records depotId with
  | none => (false, records)
  | some record =>
    if record.quarantined = false then (false, records)
    else if inManagedScope = false ∨ currentKey.length ≠ 32 ∨ currentKey ≠ record.key then
      (false, Function.update records depotId none)
    else (dlcAppId != 0, records)

def Registry.step (records : Registry) : Call → Bool × Registry
  | .markFailure failure => records.markFailure failure
  | .adopt depotId appId key => records.adopt depotId appId key
  | .shouldDrop depotId dlcAppId inManagedScope currentKey =>
    records.shouldDrop depotId dlcAppId inManagedScope currentKey

def Registry.run (calls : List Call) : Registry := calls.foldl (fun records call => (records.step call).2) fun _ => none

/-- What happened to a depot since its app or its key last changed: whether its quarantine was brought from another
session, the chunks of its failures, and how often `markFailure` answered true. -/
structure Epoch where
  appId : AppId
  key : Bytes
  adopted : Bool := false
  chunks : List Chunk := []
  answers : Nat := 0

namespace Epoch

def distinct (epoch : Epoch) : Nat := epoch.chunks.toFinset.card

/-- The epoch of a confirmed quarantine. -/
def Confirmed (epoch : Epoch) : Prop := epoch.adopted = true ∨ 3 ≤ epoch.distinct

instance (epoch : Epoch) : Decidable epoch.Confirmed := inferInstanceAs (Decidable (_ ∨ _))

/-- The epoch of an app and a key, if it is theirs. -/
def current (epoch : Option Epoch) (appId : AppId) (key : Bytes) : Epoch :=
  match epoch with
  | some epoch => if epoch.appId = appId ∧ epoch.key = key then epoch else { appId, key }
  | none => { appId, key }

@[simp] theorem current_appId (epoch : Option Epoch) (appId : AppId) (key : Bytes) :
    (current epoch appId key).appId = appId := by
  cases epoch with
  | none => rfl
  | some epoch =>
    rw [current]
    split_ifs with h
    · exact h.1
    · rfl

@[simp] theorem current_key (epoch : Option Epoch) (appId : AppId) (key : Bytes) : (current epoch appId key).key = key := by
  cases epoch with
  | none => rfl
  | some epoch =>
    rw [current]
    split_ifs with h
    · exact h.2
    · rfl

def enter (epoch : Epoch) (chunk : Chunk) (answer : Bool) : Epoch :=
  { epoch with chunks := epoch.chunks ++ [chunk], answers := epoch.answers + answer.toNat }

/-- The epoch of a depot after a call about it and its answer. -/
def next (epoch : Option Epoch) (call : Call) (answer : Bool) : Option Epoch :=
  match call with
  | .markFailure failure =>
    if failure.counts = false then epoch
    else some ((current epoch failure.appId failure.key).enter failure.chunkFingerprint answer)
  | .adopt depotId appId key =>
    if depotId = 0 ∨ appId = 0 ∨ key.length ≠ 32 then epoch
    else if epoch.any fun e => e.Confirmed ∧ e.appId = appId ∧ e.key = key then epoch
    else some { appId, key, adopted := true }
  | .shouldDrop _ _ inManagedScope currentKey =>
    match epoch with
    | none => none
    | some e =>
      if e.Confirmed ∧ (inManagedScope = false ∨ currentKey.length ≠ 32 ∨ currentKey ≠ e.key) then none else some e

end Epoch

/-- A run with the epochs written down beside the registry. -/
structure Watched where
  records : Registry := fun _ => none
  epochs : DepotId → Option Epoch := fun _ => none

def Watched.step (watched : Watched) (call : Call) : Watched :=
  let (answer, records) := watched.records.step call
  { records
    epochs := Function.update watched.epochs call.depotId (Epoch.next (watched.epochs call.depotId) call answer) }

def Watched.run (calls : List Call) : Watched := calls.foldl Watched.step {}

private theorem Watched.run_records (calls : List Call) : (Watched.run calls).records = Registry.run calls := by
  induction calls using List.reverseRecOn with
  | nil => rfl
  | append_singleton calls call ih =>
    rw [Watched.run, Registry.run, List.foldl_append, List.foldl_append, ← Watched.run, ← Registry.run, ← ih]
    rfl

/-- A record holds what its epoch tells. -/
structure Record.Tells (record : Record) (epoch : Epoch) : Prop where
  appId : record.appId = epoch.appId
  key : record.key = epoch.key
  quarantined : record.quarantined = true ↔ epoch.Confirmed
  chunks : record.quarantined = false → record.failedChunks = epoch.chunks.toFinset
  answers : epoch.answers = if epoch.adopted = false ∧ 3 ≤ epoch.distinct then 1 else 0

/-- A depot has a record just when it has an epoch. -/
def Told : Option Record → Option Epoch → Prop
  | none, none => True
  | some record, some epoch => record.Tells epoch
  | _, _ => False

private theorem Epoch.enter_distinct (epoch : Epoch) (chunk : Chunk) (answer : Bool) :
    (epoch.enter chunk answer).distinct = (insert chunk epoch.chunks.toFinset).card := by
  rw [distinct, enter, List.toFinset_append, List.toFinset_cons, List.toFinset_nil, Finset.union_comm]
  rfl

private theorem Epoch.distinct_le_enter (epoch : Epoch) (chunk : Chunk) (answer : Bool) :
    epoch.distinct ≤ (epoch.enter chunk answer).distinct ∧ (epoch.enter chunk answer).distinct ≤ epoch.distinct + 1 := by
  rw [enter_distinct]
  exact ⟨Finset.card_le_card (Finset.subset_insert _ _), Finset.card_insert_le _ _⟩

namespace Record

variable {record : Record} {epoch : Epoch}

/-- The chunk that answers true is the one that makes three. -/
theorem Tells.enter_answer (h : record.Tells epoch) (chunk : Chunk) (answer : Bool) :
    (record.enter chunk).1 = true ↔
      epoch.adopted = false ∧ epoch.distinct < 3 ∧ (epoch.enter chunk answer).distinct = 3 := by
  have hgrow := epoch.distinct_le_enter chunk answer
  rw [enter]
  split_ifs with hquarantined
  · obtain hadopted | hthree := h.quarantined.mp hquarantined
    · simp [hadopted]
    · simp [Nat.not_lt.mpr hthree]
  · have hopen : record.quarantined = false := by simpa using hquarantined
    obtain ⟨hadopted, hfew⟩ := not_or.mp fun hconfirmed => hquarantined (h.quarantined.mpr hconfirmed)
    have hadopted : epoch.adopted = false := by simpa using hadopted
    have hcard : (insert chunk record.failedChunks).card = (epoch.enter chunk answer).distinct := by
      rw [h.chunks hopen, Epoch.enter_distinct]
    simp only [hcard, kDistinctFailureThreshold]
    split_ifs with hless
    · simp only [false_iff]
      omega
    · simp only [true_iff, hadopted, true_and]
      omega

theorem Tells.enter (h : record.Tells epoch) (chunk : Chunk) :
    (record.enter chunk).2.Tells (epoch.enter chunk (record.enter chunk).1) := by
  have hanswers := h.answers
  by_cases hquarantined : record.quarantined = true
  · -- A confirmed epoch stays confirmed, and its chunks are not looked at again.
    have hgrow := epoch.distinct_le_enter chunk false
    rw [Record.enter, if_pos hquarantined]
    obtain hadopted | hthree := h.quarantined.mp hquarantined
    · refine ⟨h.appId, h.key, ?_, fun hopen => ?_, ?_⟩
      · exact iff_of_true hquarantined (.inl hadopted)
      · exact absurd hquarantined (Bool.eq_false_iff.mp hopen)
      · simpa [Epoch.enter, hadopted] using hanswers
    · refine ⟨h.appId, h.key, ?_, fun hopen => ?_, ?_⟩
      · exact iff_of_true hquarantined (.inr (hthree.trans hgrow.1))
      · exact absurd hquarantined (Bool.eq_false_iff.mp hopen)
      · have hsame : epoch.adopted = false ∧ 3 ≤ epoch.distinct ↔
            epoch.adopted = false ∧ 3 ≤ (epoch.enter chunk false).distinct :=
          and_congr_right fun _ => iff_of_true hthree (hthree.trans hgrow.1)
        exact hanswers.trans (if_congr hsame rfl rfl)
  · have hopen : record.quarantined = false := by simpa using hquarantined
    obtain ⟨hadopted, hfew⟩ := not_or.mp fun hconfirmed => hquarantined (h.quarantined.mpr hconfirmed)
    have hadopted : epoch.adopted = false := by simpa using hadopted
    rw [if_neg fun hboth => hfew hboth.2] at hanswers
    have hinsert : insert chunk record.failedChunks = (epoch.chunks ++ [chunk]).toFinset := by
      rw [h.chunks hopen, List.toFinset_append, List.toFinset_cons, List.toFinset_nil, Finset.union_comm]
      rfl
    have hcard : ∀ answer, (insert chunk record.failedChunks).card = (epoch.enter chunk answer).distinct := by
      intro answer
      rw [h.chunks hopen, Epoch.enter_distinct]
    rw [Record.enter, if_neg hquarantined]
    by_cases hless : (insert chunk record.failedChunks).card < kDistinctFailureThreshold
    · simp only [if_pos hless]
      rw [hcard false, kDistinctFailureThreshold] at hless
      refine ⟨h.appId, h.key, ?_, fun _ => hinsert, ?_⟩
      · refine iff_of_false hquarantined ?_
        rintro (hbrought | hthree)
        · exact absurd (hadopted.symm.trans hbrought) Bool.false_ne_true
        · exact absurd hthree (Nat.not_le.mpr hless)
      · rw [if_neg fun hboth => absurd hboth.2 (Nat.not_le.mpr hless)]
        exact hanswers
    · simp only [if_neg hless]
      rw [hcard true, Nat.not_lt, kDistinctFailureThreshold] at hless
      refine ⟨h.appId, h.key, ?_, nofun, ?_⟩
      · exact iff_of_true rfl (.inr hless)
      · rw [if_pos ⟨hadopted, hless⟩, Epoch.enter, hanswers]
        rfl

private theorem tells_fresh (appId : AppId) (key : Bytes) : Tells ⟨appId, key, ∅, false⟩ { appId, key } :=
  ⟨rfl, rfl, iff_of_false Bool.false_ne_true (by rintro (h | h) <;> cases h), fun _ => rfl, rfl⟩

private theorem tells_adopted (appId : AppId) (key : Bytes) :
    Tells ⟨appId, key, ∅, true⟩ { appId, key, adopted := true } :=
  ⟨rfl, rfl, iff_of_true rfl (.inl rfl), nofun, rfl⟩

end Record

/-- The record that a failure is entered in and the epoch that it belongs to. -/
theorem Told.recordFor {entry : Option Record} {epoch : Option Epoch} (h : Told entry epoch) (appId : AppId) (key : Bytes) :
    (recordFor entry appId key).Tells (Epoch.current epoch appId key) := by
  cases entry with
  | none =>
    cases epoch with
    | none => exact Record.tells_fresh appId key
    | some epoch => exact h.elim
  | some record =>
    cases epoch with
    | none => exact h.elim
    | some epoch =>
      have htells : record.Tells epoch := h
      rw [DepotQuarantine.recordFor, Epoch.current, htells.appId, htells.key]
      split_ifs with hother hsame
      · exact absurd hsame (by tauto)
      · exact Record.tells_fresh appId key
      · exact htells
      · exact absurd hother (by tauto)

theorem Registry.step_frame (records : Registry) (call : Call) {depotId : DepotId} (h : depotId ≠ call.depotId) :
    (records.step call).2 depotId = records depotId := by
  cases call with
  | markFailure failure =>
    rw [step, markFailure]
    split_ifs
    · rfl
    · exact Function.update_of_ne h _ _
  | adopt depot appId key =>
    rw [step, adopt]
    split_ifs
    · rfl
    · split
      · exact Function.update_of_ne h _ _
      · split_ifs
        · rfl
        · exact Function.update_of_ne h _ _
  | shouldDrop depot dlcAppId inManagedScope currentKey =>
    rw [step, shouldDrop]
    split
    · rfl
    · split_ifs
      · rfl
      · exact Function.update_of_ne h _ _
      · rfl

variable {records : Registry} {epoch : Option Epoch}

private theorem told_markFailure {failure : Failure} (h : Told (records failure.depotId) epoch) :
    Told ((records.markFailure failure).2 failure.depotId)
      (Epoch.next epoch (.markFailure failure) (records.markFailure failure).1) := by
  rw [Registry.markFailure, Epoch.next]
  split_ifs
  · exact h
  · simp only [Function.update_self]
    exact (h.recordFor failure.appId failure.key).enter failure.chunkFingerprint

/-- The two shapes of a depot that is told of. -/
theorem told_cases {entry : Option Record} (h : Told entry epoch) :
    (entry = none ∧ epoch = none) ∨ ∃ record e, entry = some record ∧ epoch = some e ∧ record.Tells e := by
  cases entry with
  | none =>
    cases epoch with
    | none => exact .inl ⟨rfl, rfl⟩
    | some e => exact h.elim
  | some record =>
    cases epoch with
    | none => exact h.elim
    | some e => exact .inr ⟨record, e, rfl, rfl, h⟩

private theorem told_adopt {depotId : DepotId} (h : Told (records depotId) epoch) (appId : AppId) (key : Bytes)
    (answer : Bool) :
    Told ((records.adopt depotId appId key).2 depotId) (Epoch.next epoch (.adopt depotId appId key) answer) := by
  rw [Registry.adopt, Epoch.next]
  split_ifs with hbad hkept
  · exact h
  · obtain ⟨hrecord, rfl⟩ | ⟨record, e, hrecord, rfl, htells⟩ := told_cases h
    · cases hkept
    · have hsame : record.quarantined = true ∧ record.appId = appId ∧ record.key = key := by
        rw [htells.quarantined, htells.appId, htells.key]
        simpa using hkept
      rw [hrecord]
      simp only [if_pos hsame]
      rw [hrecord]
      exact htells
  · obtain ⟨hrecord, rfl⟩ | ⟨record, e, hrecord, rfl, htells⟩ := told_cases h
    · rw [hrecord]
      simp only [Function.update_self]
      exact Record.tells_adopted appId key
    · have hother : ¬(record.quarantined = true ∧ record.appId = appId ∧ record.key = key) := by
        rw [htells.quarantined, htells.appId, htells.key]
        simpa using hkept
      rw [hrecord]
      simp only [if_neg hother, Function.update_self]
      exact Record.tells_adopted appId key

private theorem told_shouldDrop {depotId : DepotId} (h : Told (records depotId) epoch) (dlcAppId : AppId)
    (inManagedScope : Bool) (currentKey : Bytes) (answer : Bool) :
    Told ((records.shouldDrop depotId dlcAppId inManagedScope currentKey).2 depotId)
      (Epoch.next epoch (.shouldDrop depotId dlcAppId inManagedScope currentKey) answer) := by
  rw [Registry.shouldDrop]
  obtain ⟨hrecord, rfl⟩ | ⟨record, e, hrecord, rfl, htells⟩ := told_cases h
  · rw [hrecord, Epoch.next]
    simp only [hrecord]
    trivial
  · have hreleases : (e.Confirmed ∧ (inManagedScope = false ∨ currentKey.length ≠ 32 ∨ currentKey ≠ e.key)) ↔
        record.quarantined = true ∧ (inManagedScope = false ∨ currentKey.length ≠ 32 ∨ currentKey ≠ record.key) := by
      rw [htells.quarantined, htells.key]
    rw [hrecord, Epoch.next]
    simp only [hreleases]
    by_cases hopen : record.quarantined = false
    · simp only [hopen, Bool.false_eq_true, false_and, if_true, if_false, hrecord]
      exact htells
    · rw [Bool.not_eq_false] at hopen
      by_cases hreleased : inManagedScope = false ∨ currentKey.length ≠ 32 ∨ currentKey ≠ record.key
      · simp only [hopen, hreleased, and_self, Bool.true_eq_false, if_true, if_false, Function.update_self]
        trivial
      · simp only [hopen, hreleased, and_false, Bool.true_eq_false, if_false, hrecord]
        exact htells

/-- One call keeps the registry and the epochs together. -/
theorem told_step {watched : Watched} (h : ∀ depotId, Told (watched.records depotId) (watched.epochs depotId)) (call : Call)
    (depotId : DepotId) : Told ((watched.step call).records depotId) ((watched.step call).epochs depotId) := by
  rw [Watched.step]
  by_cases hdepot : depotId = call.depotId
  · rw [hdepot]
    simp only [Function.update_self]
    cases call with
    | markFailure failure => exact told_markFailure (h failure.depotId)
    | adopt depot appId key => exact told_adopt (h depot) appId key _
    | shouldDrop depot dlcAppId inManagedScope currentKey =>
      exact told_shouldDrop (h depot) dlcAppId inManagedScope currentKey _
  · simp only [Function.update_of_ne hdepot, Registry.step_frame watched.records call hdepot]
    exact h depotId

private theorem told_run (calls : List Call) (depotId : DepotId) :
    Told ((Watched.run calls).records depotId) ((Watched.run calls).epochs depotId) := by
  induction calls using List.reverseRecOn generalizing depotId with
  | nil => trivial
  | append_singleton calls call ih =>
    rw [Watched.run, List.foldl_append, List.foldl_cons, List.foldl_nil]
    exact told_step ih call depotId

/-- The failures that count for the depot of `failure`, back to the last one with another app or another key. -/
def sinceChange (failures : List Failure) (failure : Failure) : List Chunk :=
  (((failures.filter fun f => f.counts && f.depotId == failure.depotId).reverse.takeWhile fun f =>
    f.appId == failure.appId && f.key == failure.key).reverse).map Failure.chunkFingerprint

/-- Among failures alone an epoch goes back to the last change. -/
theorem current_chunks (failures : List Failure) (failure : Failure) :
    let epoch := Epoch.current ((Watched.run (failures.map .markFailure)).epochs failure.depotId) failure.appId failure.key
    epoch.adopted = false ∧ epoch.chunks = sinceChange failures failure := by
  induction failures using List.reverseRecOn generalizing failure with
  | nil => exact ⟨rfl, rfl⟩
  | append_singleton failures last ih =>
    rw [List.map_append, Watched.run, List.foldl_append, ← Watched.run, List.map_singleton, List.foldl_cons, List.foldl_nil,
      sinceChange, List.filter_append]
    by_cases hlast : last.counts = true ∧ last.depotId = failure.depotId
    · obtain ⟨hcounts, hdepot⟩ := hlast
      have hfilter : [last].filter (fun f => f.counts && f.depotId == failure.depotId) = [last] :=
        List.filter_cons_of_pos (by simp [hcounts, hdepot])
      rw [hfilter, List.reverse_append, List.reverse_singleton, List.singleton_append, Watched.step]
      simp only [Call.depotId, hdepot, Function.update_self, Epoch.next, hcounts, Bool.true_eq_false, if_false]
      by_cases hsame : last.appId = failure.appId ∧ last.key = failure.key
      · have hkept := ih failure
        rw [List.takeWhile_cons_of_pos (by simpa using hsame), List.reverse_cons, List.map_append, ← sinceChange, ← hkept.2,
          hsame.1, hsame.2]
        generalize hepoch : Epoch.current ((Watched.run (failures.map .markFailure)).epochs failure.depotId) failure.appId
          failure.key = epoch at hkept ⊢
        have happId : epoch.appId = failure.appId := by rw [← hepoch, Epoch.current_appId]
        have hkey : epoch.key = failure.key := by rw [← hepoch, Epoch.current_key]
        rw [Epoch.current, if_pos ⟨happId, hkey⟩]
        exact ⟨hkept.1, rfl⟩
      · rw [List.takeWhile_cons_of_neg (by simpa using hsame)]
        rw [Epoch.current, if_neg (by simpa [Epoch.enter] using hsame)]
        exact ⟨rfl, rfl⟩
    · have hfilter : [last].filter (fun f => f.counts && f.depotId == failure.depotId) = [] :=
        List.filter_cons_of_neg (by simpa using hlast)
      rw [hfilter, List.append_nil, ← sinceChange]
      have hepoch : ((Watched.run (failures.map .markFailure)).step (.markFailure last)).epochs failure.depotId =
          (Watched.run (failures.map .markFailure)).epochs failure.depotId := by
        rw [Watched.step]
        by_cases hdepot : failure.depotId = last.depotId
        · have huncounted : last.counts = false := by
            rw [Bool.eq_false_iff]
            exact fun hcounts => hlast ⟨hcounts, hdepot.symm⟩
          simp only [hdepot, Call.depotId, Function.update_self, Epoch.next, huncounted, if_true]
        · exact Function.update_of_ne hdepot _ _
      rw [hepoch]
      exact ih failure

/-- The epoch that a failure belongs to tells its answer. -/
theorem markFailure_answer (calls : List Call) (failure : Failure) :
    ((Registry.run calls).markFailure failure).1 = true ↔
      failure.counts = true ∧
        let epoch := Epoch.current ((Watched.run calls).epochs failure.depotId) failure.appId failure.key
        epoch.adopted = false ∧ epoch.distinct < 3 ∧
          (insert failure.chunkFingerprint epoch.chunks.toFinset).card = 3 := by
  have htold := (told_run calls failure.depotId).recordFor failure.appId failure.key
  rw [Watched.run_records] at htold
  rw [Registry.markFailure]
  split_ifs with hcounts
  · simp [hcounts]
  · rw [Bool.not_eq_false] at hcounts
    have henter := htold.enter_answer failure.chunkFingerprint false
    rw [Epoch.enter_distinct] at henter
    simp only [henter, hcounts, true_and]

theorem markFailure_once_per_epoch (calls : List Call) :
    (∀ failure : Failure, ((Registry.run calls).markFailure failure).1 = true ↔
      failure.counts = true ∧
        let epoch := Epoch.current ((Watched.run calls).epochs failure.depotId) failure.appId failure.key
        epoch.adopted = false ∧ epoch.distinct < 3 ∧
          (insert failure.chunkFingerprint epoch.chunks.toFinset).card = 3) ∧
    (∀ depotId epoch, (Watched.run calls).epochs depotId = some epoch →
      epoch.answers = if epoch.adopted = false ∧ 3 ≤ epoch.distinct then 1 else 0) ∧
    ∀ (failures : List Failure) (failure : Failure),
      ((Registry.run (failures.map .markFailure)).markFailure failure).1 = true ↔
        failure.counts = true ∧ (sinceChange failures failure).toFinset.card < 3 ∧
          (insert failure.chunkFingerprint (sinceChange failures failure).toFinset).card = 3 := by
  refine ⟨markFailure_answer calls, fun depotId epoch hepoch => ?_, fun failures failure => ?_⟩
  · have htold := told_run calls depotId
    rw [hepoch] at htold
    obtain ⟨-, hnone⟩ | ⟨record, e, -, he, htells⟩ := told_cases htold
    · cases hnone
    · cases he
      exact htells.answers
  · have hchunks := current_chunks failures failure
    simp only at hchunks
    rw [markFailure_answer]
    simp only [hchunks.1, Epoch.distinct, hchunks.2, true_and]

end SlsteamMoon.DepotQuarantine
