import Mathlib.Data.List.Nodup
import SlsteamMoon.ManifestFetch.BlobJobs

/-! At most one worker for each manifest. A job that was dropped from the map is
cancelled, which stops its worker from a new attempt and not in the present one. -/
namespace SlsteamMoon.ManifestFetch
open Runs

namespace BlobState

/-- The job is queued or a worker has its task. -/
def Live (s : BlobState) (j : Nat) : Prop := j ∈ s.queue ∨ ∃ m w, s.workers m = some w ∧ w.job = j

def Attempts (s : BlobState) (m : Nat) (key : BlobKey) : Prop :=
  ∃ w, s.workers m = some w ∧ w.attempting = true ∧ (s.jobs w.job).key = key

def OneWorker (s : BlobState) : Prop := ∀ key m n, s.Attempts m key → s.Attempts n key → m = n

/-- The request queues a new job. -/
def launches (s : BlobState) (r : BlobRequest) (onDisk accepted : Bool) : Bool :=
  accepted && s.queue.length < maxQueue &&
    match (s.dropStale r.key).inflight r.key with
    | none => true
    | some j => ((s.dropStale r.key).jobs j).future.any fun ok => !(ok && onDisk)

def launchedKey (s : BlobState) : BlobEvent → Option BlobKey
  | .submitManifestBlob key appId depotcacheDir bypassArchiveMiss onDisk accepted =>
    if s.launches ⟨key, appId, depotcacheDir, false, bypassArchiveMiss⟩ onDisk accepted then some key else none
  | .awaitManifestBlobFor _ key appId depotcacheDir activeRequest onDisk accepted =>
    if s.launches ⟨key, appId, depotcacheDir, true, activeRequest⟩ onDisk accepted then some key else none
  | _ => none

/-- A new job is queued only while no worker attempts its manifest. -/
def Settled (s : BlobState) (e : BlobEvent) : Prop :=
  ∀ key, s.launchedKey e = some key → ∀ m, ¬ s.Attempts m key

/-- What every step keeps. -/
structure Tidy (s : BlobState) : Prop where
  known : ∀ j, s.Live j → j < s.launched
  once : ∀ j ∈ s.queue, ∀ m w, s.workers m = some w → w.job ≠ j
  nodup : s.queue.Nodup
  alone : ∀ m n w w', s.workers m = some w → s.workers n = some w' → w.job = w'.job → m = n
  entry : ∀ key j, s.inflight key = some j → j < s.launched ∧ (s.jobs j).key = key
  pending : ∀ j, s.Live j → (s.jobs j).future = none
  kept : ∀ j, s.Live j → s.inflight (s.jobs j).key = some j ∨ (s.jobs j).cancelled = true

/-- Beside an attempt every other job of the manifest is cancelled and at rest. -/
def Lone (s : BlobState) : Prop :=
  ∀ m w, s.workers m = some w → w.attempting = true → ∀ j, s.Live j → j ≠ w.job →
    (s.jobs j).key = (s.jobs w.job).key →
      (s.jobs j).cancelled = true ∧ ∀ n w', s.workers n = some w' → w'.job = j → w'.attempting = false

theorem Lone.oneWorker {s : BlobState} (htidy : s.Tidy) (h : s.Lone) : s.OneWorker := by
  rintro key m n ⟨w, hw, hattempts, hkey⟩ ⟨w', hw', hattempts', hkey'⟩
  by_cases hjob : w'.job = w.job
  · exact htidy.alone m n w w' hw hw' hjob.symm
  · have hrest := (h m w hw hattempts w'.job (.inr ⟨n, w', hw', rfl⟩) hjob (hkey'.trans hkey.symm)).2 n w' hw' rfl
    rw [hrest] at hattempts'
    cases hattempts'

theorem tidy_start : Tidy {} where
  known j hj := by
    rcases hj with hj | ⟨m, w, hw, -⟩
    · cases hj
    · cases hw
  once j hj := by cases hj
  nodup := List.nodup_nil
  alone m n w w' hw := by cases hw
  entry key j hj := by cases hj
  pending j hj := by
    rcases hj with hj | ⟨m, w, hw, -⟩
    · cases hj
    · cases hw
  kept j hj := by
    rcases hj with hj | ⟨m, w, hw, -⟩
    · cases hj
    · cases hw

theorem lone_start : Lone {} := by
  rintro m w ⟨⟩

/-- A step that leaves queue and workers alone. A live job loses its entry only when it
is cancelled. -/
structure Kept (s t : BlobState) : Prop where
  launched : s.launched ≤ t.launched
  queue : t.queue = s.queue
  workers : t.workers = s.workers
  key : ∀ j < s.launched, (t.jobs j).key = (s.jobs j).key
  cancelled : ∀ j < s.launched, (s.jobs j).cancelled = true → (t.jobs j).cancelled = true
  future : ∀ j < s.launched, (t.jobs j).future = (s.jobs j).future
  inflight : ∀ key j, t.inflight key = some j → s.inflight key = some j
  entry : ∀ j < s.launched, s.Live j → s.inflight (s.jobs j).key = some j →
    t.inflight (s.jobs j).key = some j ∨ (t.jobs j).cancelled = true

section
variable {s t u : BlobState}

theorem Kept.live (h : s.Kept t) {j : Nat} : t.Live j ↔ s.Live j := by
  unfold Live
  rw [h.queue, h.workers]

theorem Kept.refl (s : BlobState) : s.Kept s :=
  ⟨Nat.le_refl _, rfl, rfl, fun _ _ => rfl, fun _ _ h => h, fun _ _ => rfl, fun _ _ h => h, fun _ _ _ h => .inl h⟩

theorem Kept.trans (h : s.Kept t) (h' : t.Kept u) : s.Kept u where
  launched := Nat.le_trans h.launched h'.launched
  queue := h'.queue.trans h.queue
  workers := h'.workers.trans h.workers
  key j hj := (h'.key j (Nat.lt_of_lt_of_le hj h.launched)).trans (h.key j hj)
  cancelled j hj hc := h'.cancelled j (Nat.lt_of_lt_of_le hj h.launched) (h.cancelled j hj hc)
  future j hj := (h'.future j (Nat.lt_of_lt_of_le hj h.launched)).trans (h.future j hj)
  inflight key j hj := h.inflight key j (h'.inflight key j hj)
  entry j hj hlive hentry := by
    have hlater := Nat.lt_of_lt_of_le hj h.launched
    rcases h.entry j hj hlive hentry with hentry | hcancelled
    · rw [← h.key j hj] at hentry ⊢
      exact h'.entry j hlater (h.live.mpr hlive) hentry
    · exact .inr (h'.cancelled j hlater hcancelled)

theorem Kept.tidy (hk : s.Kept t) (h : s.Tidy) : t.Tidy where
  known j hj := Nat.lt_of_lt_of_le (h.known j (hk.live.mp hj)) hk.launched
  once j hj m w hw := h.once j (hk.queue ▸ hj) m w (hk.workers ▸ hw)
  nodup := hk.queue ▸ h.nodup
  alone m n w w' hw hw' := h.alone m n w w' (hk.workers ▸ hw) (hk.workers ▸ hw')
  entry key j hj := by
    obtain ⟨hknown, hkey⟩ := h.entry key j (hk.inflight key j hj)
    exact ⟨Nat.lt_of_lt_of_le hknown hk.launched, (hk.key j hknown).trans hkey⟩
  pending j hj := by
    have hlive := hk.live.mp hj
    rw [hk.future j (h.known j hlive)]
    exact h.pending j hlive
  kept j hj := by
    have hlive := hk.live.mp hj
    have hknown := h.known j hlive
    rw [hk.key j hknown]
    rcases h.kept j hlive with hentry | hcancelled
    · exact hk.entry j hknown hlive hentry
    · exact .inr (hk.cancelled j hknown hcancelled)

theorem Kept.lone (hk : s.Kept t) (htidy : s.Tidy) (h : s.Lone) : t.Lone := by
  intro m w hw hattempts j hj hne hkey
  rw [hk.workers] at hw
  have hlive := hk.live.mp hj
  have hknown := htidy.known j hlive
  have hjob := htidy.known w.job (.inr ⟨m, w, hw, rfl⟩)
  rw [hk.key j hknown, hk.key w.job hjob] at hkey
  obtain ⟨hcancelled, hrest⟩ := h m w hw hattempts j hlive hne hkey
  exact ⟨hk.cancelled j hknown hcancelled, fun n w' hw' => hrest n w' (hk.workers ▸ hw')⟩

theorem Kept.attempts (hk : s.Kept t) (htidy : s.Tidy) {m : Nat} {key : BlobKey} :
    t.Attempts m key ↔ s.Attempts m key := by
  unfold Attempts
  rw [hk.workers]
  constructor
  · rintro ⟨w, hw, hattempts, hkey⟩
    exact ⟨w, hw, hattempts, (hk.key _ (htidy.known _ (.inr ⟨m, w, hw, rfl⟩))).symm.trans hkey⟩
  · rintro ⟨w, hw, hattempts, hkey⟩
    exact ⟨w, hw, hattempts, (hk.key _ (htidy.known _ (.inr ⟨m, w, hw, rfl⟩))).trans hkey⟩

theorem jobs_modifyJob (s : BlobState) (j i : Nat) (f : BlobJob → BlobJob) :
    (s.modifyJob j f).jobs i = if i = j then f (s.jobs j) else s.jobs i := by
  simp [modifyJob, Function.update_apply]

theorem inflight_setInflight (s : BlobState) (key k : BlobKey) (j : Option Nat) :
    (s.setInflight key j).inflight k = if k = key then j else s.inflight k := by
  simp [setInflight, Function.update_apply]

theorem workers_setWorker (s : BlobState) (m n : Nat) (w : Option Worker) :
    (s.setWorker m w).workers n = if n = m then w else s.workers n := by
  simp [setWorker, Function.update_apply]

theorem kept_modifyJob (s : BlobState) (j : Nat) {f : BlobJob → BlobJob} (hkey : ∀ job, (f job).key = job.key)
    (hcancelled : ∀ job, job.cancelled = true → (f job).cancelled = true)
    (hfuture : ∀ job, (f job).future = job.future) : s.Kept (s.modifyJob j f) where
  launched := Nat.le_refl _
  queue := rfl
  workers := rfl
  key i _ := by
    rw [jobs_modifyJob]
    split
    · rename_i hi
      rw [hkey, hi]
    · rfl
  cancelled i _ hc := by
    rw [jobs_modifyJob]
    split
    · rename_i hi
      exact hcancelled _ (hi ▸ hc)
    · exact hc
  future i _ := by
    rw [jobs_modifyJob]
    split
    · rename_i hi
      rw [hfuture, hi]
    · rfl
  inflight _ _ hi := hi
  entry _ _ _ hi := .inl hi

/-- An entry that is forgotten belongs to no live job, or to a cancelled one. -/
theorem kept_erase {key : BlobKey} (h : ∀ j, s.inflight key = some j → s.Live j → (s.jobs j).cancelled = true) :
    s.Kept (s.setInflight key none) where
  launched := Nat.le_refl _
  queue := rfl
  workers := rfl
  key _ _ := rfl
  cancelled _ _ hc := hc
  future _ _ := rfl
  inflight k j hj := by
    rw [inflight_setInflight] at hj
    split at hj
    · cases hj
    · exact hj
  entry j _ hlive hentry := by
    rw [inflight_setInflight]
    split
    · rename_i hkey
      exact .inr (h j (hkey ▸ hentry) hlive)
    · exact .inl hentry

theorem kept_cancel (s : BlobState) (j : Nat) : s.Kept (s.modifyJob j .cancel) :=
  kept_modifyJob s j (fun _ => rfl) (fun _ _ => rfl) fun _ => rfl

private theorem kept_dropStale (s : BlobState) (key : BlobKey) : s.Kept (s.dropStale key) := by
  unfold dropStale
  split
  · rename_i j hj
    split
    · refine (kept_cancel s j).trans (kept_erase fun i hi _ => ?_)
      obtain rfl := Option.some.inj (hj.symm.trans hi)
      rw [jobs_modifyJob, if_pos rfl]
      rfl
    · exact .refl s
  · exact .refl s

private theorem jobs_enterJob (s : BlobState) (r : BlobRequest) {j : Nat} (hj : j < s.launched) :
    (s.enterJob r).jobs j = s.jobs j := by
  simp [enterJob, setInflight, Nat.ne_of_lt hj]

variable {r : BlobRequest}

/-- A task that the executor refuses leaves no job behind it. -/
theorem kept_refused (hnone : s.inflight r.key = none) :
    s.Kept (((s.enterJob r).modifyJob s.launched fun job => job.cancel.finish false).setInflight r.key none) := by
  have hjobs : ∀ j < s.launched,
      (((s.enterJob r).modifyJob s.launched fun job => job.cancel.finish false).setInflight r.key none).jobs j =
        s.jobs j := by
    intro j hj
    show ((s.enterJob r).modifyJob s.launched fun job => job.cancel.finish false).jobs j = _
    rw [jobs_modifyJob, if_neg (Nat.ne_of_lt hj), jobs_enterJob s r hj]
  refine ⟨Nat.le_succ _, rfl, rfl, ?_, ?_, ?_, ?_, ?_⟩
  · intro j hj
    rw [hjobs j hj]
  · intro j hj hc
    rw [hjobs j hj, hc]
  · intro j hj
    rw [hjobs j hj]
  · intro key j hj
    rw [inflight_setInflight] at hj
    split at hj
    · cases hj
    · rename_i hkey
      have hj : (s.enterJob r).inflight key = some j := hj
      rw [enterJob, inflight_setInflight, if_neg hkey] at hj
      exact hj
  · intro j hj hlive hentry
    have hkey : (s.jobs j).key ≠ r.key := by
      intro hkey
      rw [hkey, hnone] at hentry
      cases hentry
    refine .inl ?_
    rw [inflight_setInflight, if_neg hkey]
    show (s.enterJob r).inflight (s.jobs j).key = some j
    rw [enterJob, inflight_setInflight, if_neg hkey]
    exact hentry

/-- A request joins the job of its manifest, or there is none and it launches one. -/
theorem launchOrJoinBlob_cases (h : s.Tidy) (r : BlobRequest) (onDisk accepted : Bool) :
    s.launches r onDisk accepted = false ∧ s.Kept (s.launchOrJoinBlob r onDisk accepted).1 ∨
      s.launches r onDisk accepted = true ∧ ∃ u, s.Kept u ∧ u.inflight r.key = none ∧
        (s.launchOrJoinBlob r onDisk accepted).1 = u.enqueueJob r := by
  have hstale := kept_dropStale s r.key
  have htidy := hstale.tidy h
  have hlaunch : ∀ u : BlobState, s.Kept u → u.inflight r.key = none →
      ((accepted && s.queue.length < maxQueue) = false ∧ s.Kept (u.launchBlob r accepted).1) ∨
        ((accepted && s.queue.length < maxQueue) = true ∧ (u.launchBlob r accepted).1 = u.enqueueJob r) := by
    intro u hu hnone
    unfold launchBlob
    rw [hu.queue]
    cases hroom : accepted && decide (s.queue.length < maxQueue) with
    | true => exact .inr ⟨rfl, rfl⟩
    | false => exact .inl ⟨rfl, hu.trans (kept_refused hnone)⟩
  unfold launches launchOrJoinBlob
  generalize s.dropStale r.key = fresh at hstale htidy ⊢
  dsimp only
  cases hentry : fresh.inflight r.key with
  | none =>
    rw [Bool.and_true]
    rcases hlaunch fresh hstale hentry with ⟨hroom, hkept⟩ | ⟨hroom, hqueued⟩
    · exact .inl ⟨hroom, hkept⟩
    · exact .inr ⟨hroom, fresh, hstale, hentry, hqueued⟩
  | some j =>
    have hpromoted : s.Kept (fresh.modifyJob j (.promote r)) :=
      hstale.trans (kept_modifyJob fresh j (fun _ => rfl) (fun _ hc => hc) fun _ => rfl)
    have hjoined : s.Kept ((fresh.modifyJob j (.promote r)).modifyJob j (.registerWaiter r.registerWaiter)) := by
      refine hpromoted.trans (kept_modifyJob _ j ?_ ?_ ?_) <;> intro job
      · unfold BlobJob.registerWaiter
        split <;> rfl
      · intro hc
        unfold BlobJob.registerWaiter
        split <;> exact hc
      · unfold BlobJob.registerWaiter
        split <;> rfl
    dsimp only
    cases hfuture : (fresh.jobs j).future with
    | none => exact .inl ⟨by simp, hjoined⟩
    | some ok =>
      dsimp only [Option.any_some]
      by_cases hdone : (ok && onDisk) = true
      · rw [if_pos hdone, hdone]
        exact .inl ⟨by simp, hjoined⟩
      · rw [if_neg hdone]
        have hforgotten : s.Kept ((fresh.modifyJob j (.promote r)).setInflight r.key none) := by
          refine hpromoted.trans (kept_erase fun i hi hlive => ?_)
          -- the job of the entry has ended, and a live one has not
          obtain rfl := Option.some.inj (hentry.symm.trans hi)
          have hpending := htidy.pending j hlive
          rw [hfuture] at hpending
          cases hpending
        have hnone : ((fresh.modifyJob j (.promote r)).setInflight r.key none).inflight r.key = none := by
          rw [inflight_setInflight, if_pos rfl]
        rw [Bool.eq_false_iff.mpr hdone, Bool.not_false, Bool.and_true]
        rcases hlaunch _ hforgotten hnone with ⟨hroom, hkept⟩ | ⟨hroom, hqueued⟩
        · exact .inl ⟨hroom, hkept⟩
        · exact .inr ⟨hroom, _, hforgotten, hnone, hqueued⟩

private theorem live_enqueueJob {j : Nat} : (s.enqueueJob r).Live j ↔ s.Live j ∨ j = s.launched := by
  unfold Live
  have hqueue : j ∈ (s.enqueueJob r).queue ↔ j ∈ s.queue ∨ j = s.launched := by simp [enqueueJob]
  rw [hqueue]
  exact or_right_comm

private theorem jobs_enqueueJob {j : Nat} (hj : j < s.launched) : (s.enqueueJob r).jobs j = s.jobs j :=
  jobs_enterJob s r hj

/-- What the new job is. -/
theorem enqueueJob_new (s : BlobState) (r : BlobRequest) :
    ((s.enqueueJob r).jobs s.launched).key = r.key ∧ ((s.enqueueJob r).jobs s.launched).shouldStop = false ∧
      ((s.enqueueJob r).jobs s.launched).future = none := by
  simp [enqueueJob, enterJob, setInflight, BlobJob.shouldStop]

theorem enqueueJob_tidy (h : s.Tidy) (hnone : s.inflight r.key = none) : (s.enqueueJob r).Tidy := by
  have hfresh : ∀ m w, s.workers m = some w → w.job < s.launched := fun m w hw => h.known _ (.inr ⟨m, w, hw, rfl⟩)
  obtain ⟨hkey, -, hfuture⟩ := enqueueJob_new s r
  have hinflight : ∀ key, (s.enqueueJob r).inflight key = if key = r.key then some s.launched else s.inflight key :=
    fun key => inflight_setInflight _ _ _ _
  refine ⟨?_, ?_, ?_, h.alone, ?_, ?_, ?_⟩
  · intro j hj
    rcases live_enqueueJob.mp hj with hj | rfl
    · exact Nat.lt_succ_of_lt (h.known j hj)
    · exact Nat.lt_succ_self _
  · intro j hj m w hw
    have hj : j ∈ s.queue ++ [s.launched] := hj
    rcases List.mem_append.mp hj with hj | hj
    · exact h.once j hj m w hw
    · rw [List.mem_singleton.mp hj]
      exact Nat.ne_of_lt (hfresh m w hw)
  · show (s.queue ++ [s.launched]).Nodup
    rw [List.nodup_append]
    refine ⟨h.nodup, List.nodup_singleton _, fun j hj i hi => ?_⟩
    rw [List.mem_singleton.mp hi]
    exact Nat.ne_of_lt (h.known j (.inl hj))
  · intro key j hj
    rw [hinflight] at hj
    split at hj
    · rename_i hsame
      obtain rfl := Option.some.inj hj
      exact ⟨Nat.lt_succ_self _, hkey.trans hsame.symm⟩
    · obtain ⟨hknown, hjkey⟩ := h.entry key j hj
      rw [jobs_enqueueJob hknown]
      exact ⟨Nat.lt_succ_of_lt hknown, hjkey⟩
  · intro j hj
    rcases live_enqueueJob.mp hj with hj | rfl
    · rw [jobs_enqueueJob (h.known j hj)]
      exact h.pending j hj
    · exact hfuture
  · intro j hj
    rcases live_enqueueJob.mp hj with hj | rfl
    · rw [jobs_enqueueJob (h.known j hj), hinflight]
      rcases h.kept j hj with hentry | hcancelled
      · left
        rw [if_neg]
        · exact hentry
        · intro hsame
          rw [hsame, hnone] at hentry
          cases hentry
      · exact .inr hcancelled
    · left
      rw [hkey, hinflight, if_pos rfl]

theorem enqueueJob_attempts (h : s.Tidy) {m : Nat} {key : BlobKey} :
    (s.enqueueJob r).Attempts m key ↔ s.Attempts m key := by
  unfold Attempts
  constructor
  · rintro ⟨w, hw, hattempts, hkey⟩
    rw [jobs_enqueueJob (h.known _ (.inr ⟨m, w, hw, rfl⟩))] at hkey
    exact ⟨w, hw, hattempts, hkey⟩
  · rintro ⟨w, hw, hattempts, hkey⟩
    refine ⟨w, hw, hattempts, ?_⟩
    rw [jobs_enqueueJob (h.known _ (.inr ⟨m, w, hw, rfl⟩))]
    exact hkey

/-- No worker attempts the manifest of the new job. -/
theorem enqueueJob_lone (htidy : s.Tidy) (h : s.Lone) (hquiet : ∀ m, ¬ s.Attempts m r.key) :
    (s.enqueueJob r).Lone := by
  intro m w hw hattempts j hj hne hkey
  have hw : s.workers m = some w := hw
  rw [jobs_enqueueJob (htidy.known w.job (.inr ⟨m, w, hw, rfl⟩))] at hkey
  rcases live_enqueueJob.mp hj with hj | rfl
  · rw [jobs_enqueueJob (htidy.known j hj)] at hkey ⊢
    exact h m w hw hattempts j hj hne hkey
  · rw [(enqueueJob_new s r).1] at hkey
    exact absurd ⟨w, hw, hattempts, hkey.symm⟩ (hquiet m)

end

end BlobState
end SlsteamMoon.ManifestFetch
