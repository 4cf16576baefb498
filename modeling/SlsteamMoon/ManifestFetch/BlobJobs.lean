import Mathlib.Logic.Function.Basic
import Mathlib.Data.List.Basic
import SlsteamMoon.Runs

/-! Manifest downloads deduplicated by (gid, depotId): the callers, the map of jobs and
the workers of the executor. A step is a section under the blob lock, one of the two
sections of a session reset, or what a worker does between two looks at its job. -/
namespace SlsteamMoon.ManifestFetch
open Runs

structure BlobKey where
  gid : UInt64
  depotId : UInt32
  deriving DecidableEq, Repr

def targetPath (depotcacheDir : String) (key : BlobKey) : String :=
  depotcacheDir ++ "/" ++ toString key.depotId.toNat ++ "_" ++ toString key.gid.toNat ++ ".manifest"

def archiveTmp (depotcacheDir : String) (key : BlobKey) (pid : Nat) : String :=
  targetPath depotcacheDir key ++ ".archive." ++ toString pid

/-- The deadline of the budget has passed when the job is expired. -/
structure BlobJob where
  key : BlobKey
  depotcacheDir : String
  sessionEpoch : UInt64
  future : Option Bool := none
  cancelled : Bool := false
  expired : Bool := false
  waiters : Int := 0
  appId : UInt32 := 0
  bypassArchiveMiss : Bool := false
  producerActive : Bool := true
  deriving DecidableEq, Repr

structure BlobRequest where
  key : BlobKey
  appId : UInt32
  depotcacheDir : String
  registerWaiter : Bool
  bypassArchiveMiss : Bool
  deriving DecidableEq, Repr

namespace BlobJob

def shouldStop (job : BlobJob) : Bool := job.cancelled || job.expired

def cancel (job : BlobJob) : BlobJob := { job with cancelled := true }

def promoteAppId (stored candidate : UInt32) : UInt32 :=
  if candidate = 0 then stored else if stored = 0 then candidate else stored

def promoteArchiveMissBypass (promoted requested : Bool) : Bool := promoted || requested

def promote (r : BlobRequest) (job : BlobJob) : BlobJob :=
  { job with
    appId := promoteAppId job.appId r.appId
    bypassArchiveMiss := promoteArchiveMissBypass job.bypassArchiveMiss r.bypassArchiveMiss }

def registerWaiter (register : Bool) (job : BlobJob) : BlobJob :=
  if register then { job with waiters := job.waiters + 1 } else job

def finish (ok : Bool) (job : BlobJob) : BlobJob := { job with future := some ok, producerActive := false }

end BlobJob

def shouldCancelBlobJob (producerActive lastWaiter cancelIfLast : Bool) : Bool :=
  cancelIfLast && lastWaiter && !producerActive

/-- Where the task of a worker is. An attempt is everything from the check of the budget
at the loop's top to the terminal section. -/
inductive WorkerStage where
  | top
  | started
  | restoring (bypass : Bool)
  | fetching (bypass : Bool)
  | requesting
  | transferring
  | writing
  | publishing
  | deciding (ok : Bool)
  deriving DecidableEq, Repr

structure Worker where
  job : Nat
  stage : WorkerStage := .top
  activeRetryDone : Bool := false
  deriving DecidableEq, Repr

/-- What the files, the archive and the clock answer to a worker. -/
inductive WorkerEvent where
  | begins
  | load
  | restored (ok : Bool)
  | fetch (inDepotcache recentArchiveMiss : Bool)
  | request
  | answered (networkError : Bool) (status : Nat) (looksLikeArchivedManifest : Bool)
  | wrote (ok : Bool)
  | published (ok : Bool)
  | threw
  deriving DecidableEq, Repr

namespace Worker

def attempting (w : Worker) : Bool :=
  match w.stage with
  | .top => false
  | .deciding _ => false
  | _ => true

/-- The task between two sections under the lock. An exception leaves the attempt. -/
def next (job : BlobJob) (w : Worker) : WorkerEvent → Option Worker
  | .begins =>
    match w.stage with
    | .top => some { w with stage := if job.shouldStop then .deciding false else .started }
    | _ => none
  | .load =>
    match w.stage with
    | .started =>
      some
        { w with
          stage := if w.activeRetryDone then .fetching job.bypassArchiveMiss else .restoring job.bypassArchiveMiss
          activeRetryDone := w.activeRetryDone || job.bypassArchiveMiss }
    | _ => none
  | .restored ok =>
    match w.stage with
    | .restoring bypass => some { w with stage := if ok then .deciding true else .fetching bypass }
    | _ => none
  | .fetch inDepotcache recentArchiveMiss =>
    match w.stage with
    | .fetching bypass =>
      some
        { w with
          stage :=
            if job.shouldStop then .deciding false
            else if inDepotcache then .deciding true
            else if bypass || !recentArchiveMiss then .requesting
            else .deciding false }
    | _ => none
  | .request =>
    match w.stage with
    | .requesting => some { w with stage := if job.shouldStop then .deciding false else .transferring }
    | _ => none
  | .answered networkError status looksLikeArchivedManifest =>
    match w.stage with
    | .transferring =>
      some
        { w with
          stage := if !networkError && status = 200 && looksLikeArchivedManifest then .writing else .deciding false }
    | _ => none
  | .wrote ok =>
    match w.stage with
    | .writing => some { w with stage := if ok then .publishing else .deciding false }
    | _ => none
  | .published ok =>
    match w.stage with
    | .publishing => some { w with stage := .deciding ok }
    | _ => none
  | .threw => if w.attempting then some { w with stage := .deciding false } else none

end Worker

/-- A caller waits for the job's future, or its time is over. -/
inductive AwaitStage where
  | waiting (j : Nat)
  | timedOut (j : Nat)
  deriving DecidableEq, Repr

/-- Jobs have numbers in the order of their launch. A session reset that has raised the
epoch and not yet cleared the map is under way. -/
structure BlobState where
  sessionEpoch : UInt64 := 1
  resetting : Nat := 0
  launched : Nat := 0
  jobs : Nat → BlobJob := fun _ => { key := ⟨0, 0⟩, depotcacheDir := "", sessionEpoch := 0 }
  inflight : BlobKey → Option Nat := fun _ => none
  queue : List Nat := []
  workers : Nat → Option Worker := fun _ => none
  calls : Nat → Option AwaitStage := fun _ => none

/-- The executor may refuse a task also for want of memory or of workers. -/
inductive BlobEvent where
  | submitManifestBlob (key : BlobKey) (appId : UInt32) (depotcacheDir : String)
      (bypassArchiveMiss onDisk accepted : Bool)
  | awaitManifestBlobFor (i : Nat) (key : BlobKey) (appId : UInt32) (depotcacheDir : String)
      (activeRequest onDisk accepted : Bool)
  | timedOut (i : Nat)
  | release (i : Nat)
  | resetEpoch
  | resetInflight
  | expire (j : Nat)
  | take (m : Nat)
  | worker (m : Nat) (e : WorkerEvent)
  | decide (m : Nat)
  deriving DecidableEq, Repr

def workerCount : Nat := 8
def maxQueue : Nat := 64

namespace BlobState

def modifyJob (s : BlobState) (j : Nat) (f : BlobJob → BlobJob) : BlobState :=
  { s with jobs := Function.update s.jobs j (f (s.jobs j)) }

def setInflight (s : BlobState) (key : BlobKey) (j : Option Nat) : BlobState :=
  { s with inflight := Function.update s.inflight key j }

def setWorker (s : BlobState) (m : Nat) (w : Option Worker) : BlobState :=
  { s with workers := Function.update s.workers m w }

def setCall (s : BlobState) (i : Nat) (call : Option AwaitStage) : BlobState :=
  { s with calls := Function.update s.calls i call }

/-- The entry of an older session is cancelled and forgotten. -/
def dropStale (s : BlobState) (key : BlobKey) : BlobState :=
  match s.inflight key with
  | some j =>
    if (s.jobs j).sessionEpoch ≠ s.sessionEpoch then (s.modifyJob j .cancel).setInflight key none else s
  | none => s

/-- A new job and its entry in the map. -/
def enterJob (s : BlobState) (r : BlobRequest) : BlobState :=
  let job : BlobJob :=
    { key := r.key
      depotcacheDir := r.depotcacheDir
      sessionEpoch := s.sessionEpoch
      waiters := if r.registerWaiter then 1 else 0
      appId := r.appId
      bypassArchiveMiss := r.bypassArchiveMiss }
  { s with launched := s.launched + 1, jobs := Function.update s.jobs s.launched job }.setInflight r.key
    (some s.launched)

def enqueueJob (s : BlobState) (r : BlobRequest) : BlobState :=
  { s.enterJob r with queue := s.queue ++ [s.launched] }

def launchBlob (s : BlobState) (r : BlobRequest) (accepted : Bool) : BlobState × Nat :=
  if accepted && s.queue.length < maxQueue then (s.enqueueJob r, s.launched)
  else
    (((s.enterJob r).modifyJob s.launched fun job => job.cancel.finish false).setInflight r.key none, s.launched)

def launchOrJoinBlob (s : BlobState) (r : BlobRequest) (onDisk accepted : Bool) : BlobState × Nat :=
  let fresh := s.dropStale r.key
  match fresh.inflight r.key with
  | none => fresh.launchBlob r accepted
  | some j =>
    let promoted := fresh.modifyJob j (.promote r)
    match (fresh.jobs j).future with
    | some ok =>
      if ok && onDisk then (promoted.modifyJob j (.registerWaiter r.registerWaiter), j)
      else (promoted.setInflight r.key none).launchBlob r accepted
    | none => (promoted.modifyJob j (.registerWaiter r.registerWaiter), j)

def releaseBlobWaiter (s : BlobState) (j : Nat) (cancelIfLast : Bool) : BlobState :=
  let released := s.modifyJob j fun job => { job with waiters := job.waiters - 1 }
  if shouldCancelBlobJob (s.jobs j).producerActive ((s.jobs j).waiters = 1) cancelIfLast then
    let erased :=
      if s.inflight (s.jobs j).key = some j then released.setInflight (s.jobs j).key none else released
    erased.modifyJob j .cancel
  else released

/-- The worker's section under the lock: one more attempt for a promoted job, or the end. -/
def decideBlob (s : BlobState) (m : Nat) (w : Worker) (ok : Bool) : BlobState :=
  let job := s.jobs w.job
  if !ok && !w.activeRetryDone && !job.shouldStop && job.bypassArchiveMiss then
    s.setWorker m (some { w with stage := .top, activeRetryDone := true })
  else
    let finished := (s.modifyJob w.job (.finish ok)).setWorker m none
    if s.inflight job.key = some w.job then finished.setInflight job.key none else finished

/-- Every job of the map is cancelled. -/
def clearInflight (s : BlobState) : BlobState :=
  { s with
    jobs := fun j => if s.inflight (s.jobs j).key = some j then (s.jobs j).cancel else s.jobs j
    inflight := fun _ => none }

def step (s : BlobState) : BlobEvent → Option BlobState
  | .submitManifestBlob key appId depotcacheDir bypassArchiveMiss onDisk accepted =>
    some (s.launchOrJoinBlob ⟨key, appId, depotcacheDir, false, bypassArchiveMiss⟩ onDisk accepted).1
  | .awaitManifestBlobFor i key appId depotcacheDir activeRequest onDisk accepted =>
    if (s.calls i).isSome then none
    else
      let launched := s.launchOrJoinBlob ⟨key, appId, depotcacheDir, true, activeRequest⟩ onDisk accepted
      some (launched.1.setCall i (some (.waiting launched.2)))
  | .timedOut i =>
    match s.calls i with
    | some (.waiting j) => if (s.jobs j).future.isNone then some (s.setCall i (some (.timedOut j))) else none
    | _ => none
  | .release i =>
    match s.calls i with
    | some (.waiting j) =>
      if (s.jobs j).future.isSome then some ((s.releaseBlobWaiter j false).setCall i none) else none
    | some (.timedOut j) => some ((s.releaseBlobWaiter j true).setCall i none)
    | none => none
  | .resetEpoch => some { s with sessionEpoch := s.sessionEpoch + 1, resetting := s.resetting + 1 }
  | .resetInflight =>
    if s.resetting = 0 then none else some { s.clearInflight with resetting := s.resetting - 1 }
  | .expire j => if j < s.launched then some (s.modifyJob j fun job => { job with expired := true }) else none
  | .take m =>
    match s.queue with
    | [] => none
    | j :: rest =>
      if m < workerCount ∧ s.workers m = none then
        some ({ s with queue := rest }.setWorker m (some { job := j }))
      else none
  | .worker m e =>
    match s.workers m with
    | some w => (w.next (s.jobs w.job) e).map fun next => s.setWorker m (some next)
    | none => none
  | .decide m =>
    match s.workers m with
    | some ⟨job, .deciding ok, activeRetryDone⟩ => some (s.decideBlob m ⟨job, .deciding ok, activeRetryDone⟩ ok)
    | _ => none

end BlobState

/-- The last occurrence of a separator splits a list in one way. -/
theorem append_cons_inj_last {α : Type*} {a : α} {x y z w : List α} (hz : a ∉ z) (hw : a ∉ w)
    (h : x ++ a :: z = y ++ a :: w) : x = y ∧ z = w := by
  rcases List.append_eq_append_iff.mp h with ⟨c, rfl, hc⟩ | ⟨c, rfl, hc⟩
  · cases c with
    | nil => simpa using hc
    | cons b c =>
      have hmem : a ∈ z := by simp [(List.cons.inj hc).2]
      exact absurd hmem hz
  · cases c with
    | nil => simpa [eq_comm] using hc
    | cons b c =>
      have hmem : a ∈ w := by simp [(List.cons.inj hc).2]
      exact absurd hmem hw

private theorem notMem_toDigits {c : Char} (hc : c.isDigit = false) (n : Nat) : c ∉ Nat.toDigits 10 n := by
  intro hmem
  have hdigit := Nat.isDigit_of_mem_toDigits (by decide) (by decide) hmem
  rw [hc] at hdigit
  cases hdigit

private theorem toDigits_inj {m n : Nat} (h : Nat.toDigits 10 m = Nat.toDigits 10 n) : m = n := by
  rw [← Nat.ofDigitChars_ten_toDigits (n := m), h, Nat.ofDigitChars_ten_toDigits]

/-- Two temporary files of one process have one name only when they are for one manifest. -/
theorem archiveTmp_inj {dir dir' : String} {key key' : BlobKey} {pid : Nat}
    (h : archiveTmp dir key pid = archiveTmp dir' key' pid) : key = key' := by
  have hchars := congrArg String.toList h
  simp only [archiveTmp, targetPath, String.toList_append] at hchars
  have hnames := List.append_cancel_right (List.append_cancel_right (List.append_cancel_right hchars))
  have hdigits : ∀ n : Nat, (toString n).toList = Nat.toDigits 10 n := fun n => Nat.toList_repr
  have hunder : "_".toList = ['_'] := rfl
  have hslash : "/".toList = ['/'] := rfl
  simp only [hdigits, hunder, hslash, List.append_assoc, List.singleton_append] at hnames
  -- the gid follows the last underscore
  have hgid := append_cons_inj_last (x := dir.toList ++ '/' :: Nat.toDigits 10 key.depotId.toNat)
    (y := dir'.toList ++ '/' :: Nat.toDigits 10 key'.depotId.toNat) (notMem_toDigits rfl _)
    (notMem_toDigits rfl _) (by simpa using hnames)
  -- the depot id follows the last slash
  have hdepot := (append_cons_inj_last (notMem_toDigits rfl _) (notMem_toDigits rfl _) hgid.1).2
  cases key
  cases key'
  simp only [BlobKey.mk.injEq]
  exact ⟨UInt64.toNat_inj.mp (toDigits_inj hgid.2), UInt32.toNat_inj.mp (toDigits_inj hdepot)⟩

end SlsteamMoon.ManifestFetch
