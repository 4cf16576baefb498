import SlsteamMoon.ProvisionRefresh.Queue
import SlsteamMoon.ThreadStart.Start

/-! The threads around the refresh queue: callers that start a worker for a batch, the worker that starts the next one in its
turn, and the caller that gives a batch back whose worker could not be started. -/
namespace SlsteamMoon.ProvisionRefresh
open Runs ThreadStart

abbrev Path := List UInt8

/-- What startRefreshWorker is called with. A token is a counter of 64 bits, which does not run over. -/
structure Job where
  token : Nat
  path : Path
  requests : List RefreshRequest
  deriving DecidableEq, Repr

/-- A call of startRefreshWorker with its worker. -/
structure Launch where
  job : Job
  start : Start := {}
  /-- The worker is behind the lock of finishRefresh. -/
  finished : Bool := false
  /-- The call that finishRefresh made in its turn. -/
  nested : Option Nat := none
  /-- The caller is behind retainRefreshAfterFailedStart. -/
  retained : Bool := false
  deriving DecidableEq, Repr

inductive RefreshWorkerStartResult where
  | started | notStarted | uncertain
  deriving DecidableEq, Repr

/-- The last two tell what callers asked for and what the workers' bodies went through. -/
structure Machine where
  queue : RefreshQueue := {}
  activePath : Path := []
  token : Nat := 0
  launches : List Launch := []
  enqueued : List RefreshRequest := []
  worked : List RefreshRequest := []

inductive Event where
  | refreshInBackground (enabled : Bool) (path : Path) (requests : List RefreshRequest)
  /-- A step of the call or of its worker; the body is provisionRequestedApps. -/
  | start (i : Nat) (event : ThreadStart.Event Unit)
  | finishRefresh (i : Nat)
  | retainRefreshAfterFailedStart (i : Nat)
  deriving DecidableEq, Repr

namespace Launch

/-- What startRefreshWorker returns where startDetached returned this. -/
def result (l : Launch) (started : Bool) : RefreshWorkerStartResult :=
  if started then .started else if l.start.recoveries ≠ 0 then .uncertain else .notStarted

end Launch

/-- The callbacks of startRefreshWorker write to the log only. -/
def callbacks : Client Unit Unit where
  claim := some
  onFailure := id
  onDetachFailure := id
  onRecoveryFailure := id
  body _ := id
  onExit := id

namespace Machine

def setLaunch (m : Machine) (i : Nat) (l : Launch) : Machine := { m with launches := m.launches.set i l }

/-- The critical section of refreshInBackground, with the call that follows where a batch starts. -/
def refreshInBackground (m : Machine) (enabled : Bool) (path : Path) (requests : List RefreshRequest) : Machine :=
  if requests = [] ∨ enabled = false then m
  else
    let (decision, queue) := m.queue.enqueue requests
    let m := { m with queue, enqueued := requests ++ m.enqueued }
    if decision.action ≠ .start then m
    else
      { m with
        activePath := path
        token := m.token + 1
        launches := m.launches ++ [{ job := ⟨m.token + 1, path, decision.batch⟩ }] }

/-- The thread of a worker ends behind finishRefresh, and that behind the call it makes. -/
def mayExit (m : Machine) (l : Launch) : Bool :=
  l.finished && match l.nested with
    | none => true
    | some j => (m.launches[j]?.map Launch.retained).getD false

/-- The worker of a call stands in front of finishRefresh. -/
def finishRefresh (m : Machine) (i : Nat) (l : Launch) : Machine :=
  if m.token ≠ l.job.token ∨ m.queue.active = false then m.setLaunch i { l with finished := true }
  else
    let (nextRequests, queue) := m.queue.finishActive
    let m := { m with queue }
    if nextRequests = [] then { m with activePath := [] }.setLaunch i { l with finished := true }
    else
      let nextPath := if m.activePath = [] then l.job.path else m.activePath
      let m := m.setLaunch i { l with finished := true, nested := some m.launches.length }
      { m with token := m.token + 1, launches := m.launches ++ [{ job := ⟨m.token + 1, nextPath, nextRequests⟩ }] }

def retainRefreshAfterFailedStart (m : Machine) (i : Nat) (l : Launch) (started : Bool) : Machine :=
  let m := m.setLaunch i { l with retained := true }
  if l.result started ≠ .notStarted then m
  else if m.token ≠ l.job.token then m
  else { m with queue := m.queue.restoreAfterStartFailure l.job.requests, activePath := [] }

end Machine

def step : Step Machine Event
  | m, .refreshInBackground enabled path requests => some (m.refreshInBackground enabled path requests)
  | m, .start i event =>
    m.launches[i]?.bind fun l =>
      if event = .exit ∧ m.mayExit l = false then none
      else
        (l.start.step callbacks () event).map fun r =>
          let m := m.setLaunch i { l with start := r.2 }
          if event = .body () then { m with worked := l.job.requests ++ m.worked } else m
  | m, .finishRefresh i =>
    m.launches[i]?.bind fun l =>
      if l.start.worker = .exiting ∧ l.finished = false then some (m.finishRefresh i l) else none
  | m, .retainRefreshAfterFailedStart i =>
    m.launches[i]?.bind fun l =>
      match l.start.stage with
      | .returned started => if l.retained = false then some (m.retainRefreshAfterFailedStart i l started) else none
      | _ => none

namespace Launch

/-- Nothing is to come of the call that the queue would wait for: its worker has finished, or there was none and the caller
has seen to it. -/
def Settled (l : Launch) : Prop := l.finished = true ∨ l.start.worker = .unborn ∧ l.retained = true

/-- What holds of a call at every moment. -/
structure Sound (l : Launch) : Prop where
  start : l.start.Sound
  ending : l.finished = true → l.start.worker = .exiting ∨ l.start.worker = .gone
  ended : l.start.worker = .gone → l.finished = true
  retained : l.retained = true → ∃ started, l.start.stage = .returned started

theorem sound_new (job : Job) : Sound { job } where
  start := Start.sound_new
  ending h := absurd h Bool.false_ne_true
  ended h := by cases h
  retained h := absurd h Bool.false_ne_true

private theorem not_settled_new (job : Job) : ¬Settled { job } := by
  rintro (h | ⟨-, h⟩) <;> exact absurd h Bool.false_ne_true

/-- What one step does to the worker. -/
theorem worker_moves {x x' : Start} {event : ThreadStart.Event Unit} {s : Unit} (hm : x.Moves callbacks () event s x') :
    x'.worker = x.worker ∨ x.stage = .creating ∧ x'.worker = .running ∧ event = .create false ∨
      x.worker = .running ∧ x'.worker = .exiting ∧ event = .body () ∨
      x.worker = .exiting ∧ x'.worker = .gone ∧ event = .exit := by
  cases hm with
  | created h => exact .inr (.inl ⟨h, rfl, rfl⟩)
  | body h result => exact .inr (.inr (.inl ⟨h, rfl, rfl⟩))
  | exit h => exact .inr (.inr (.inr ⟨h, rfl, rfl⟩))
  | _ => exact .inl rfl

/-- A worker that stands behind its body was there before, or the step is the body. -/
theorem worker_moves_cases {x x' : Start} {event : ThreadStart.Event Unit} {s : Unit} (hm : x.Moves callbacks () event s x')
    (h : x'.worker = .exiting ∨ x'.worker = .gone) : (x.worker = .exiting ∨ x.worker = .gone) ∨ event = .body () := by
  rcases worker_moves hm with hsame | ⟨-, hrunning, -⟩ | ⟨-, -, hbody⟩ | ⟨hexiting, -⟩
  · rw [hsame] at h
    exact .inl h
  · rw [hrunning] at h
    rcases h with h | h <;> cases h
  · exact .inr hbody
  · exact .inl (.inl hexiting)

/-- A call that has returned stays as it is but for its worker. -/
theorem stage_moves {x x' : Start} {event : ThreadStart.Event Unit} {s : Unit} {started : Bool}
    (hm : x.Moves callbacks () event s x') (h : x.stage = .returned started) : x'.stage = .returned started := by
  cases hm with
  | body _ _ => exact h
  | exit _ => exact h
  | _ => simp_all

variable {l : Launch} {x : Start} {event : ThreadStart.Event Unit} {s : Unit}

theorem Sound.unborn_of_creating (h : l.Sound) (hstage : l.start.stage = .creating) : l.start.worker = .unborn :=
  h.start.unborn.mpr (h.start.creating hstage)

theorem Sound.moves (h : l.Sound) (hm : l.start.Moves callbacks () event s x) (hexit : event = .exit → l.finished = true) :
    Sound { l with start := x } where
  start := h.start.moves hm
  ending := by
    intro hfinished
    rcases worker_moves hm with hsame | ⟨hstage, -⟩ | ⟨hrunning, -⟩ | ⟨-, hgone, -⟩
    · exact hsame ▸ h.ending hfinished
    · have hending := h.ending hfinished
      rw [h.unborn_of_creating hstage] at hending
      rcases hending with hworker | hworker <;> cases hworker
    · have hending := h.ending hfinished
      rw [hrunning] at hending
      rcases hending with hworker | hworker <;> cases hworker
    · exact .inr hgone
  ended := by
    intro hgone
    have hgone : x.worker = .gone := hgone
    rcases worker_moves hm with hsame | ⟨-, hrunning, -⟩ | ⟨-, hexiting, -⟩ | ⟨-, -, hevent⟩
    · exact h.ended (hsame ▸ hgone)
    · rw [hgone] at hrunning
      cases hrunning
    · rw [hgone] at hexiting
      cases hexiting
    · exact hexit hevent
  retained := by
    intro hretained
    obtain ⟨started, hstage⟩ := h.retained hretained
    exact ⟨started, stage_moves hm hstage⟩

/-- No step of startDetached or of a body settles a call. -/
theorem Sound.settled_moves (h : l.Sound) (hm : l.start.Moves callbacks () event s x) :
    Settled { l with start := x } ↔ l.Settled := by
  have hkeeps : l.retained = true → (x.worker = .unborn ↔ l.start.worker = .unborn) := by
    intro hretained
    obtain ⟨started, hreturned⟩ := h.retained hretained
    rcases worker_moves hm with hsame | ⟨hstage, -⟩ | ⟨hwas, his, -⟩ | ⟨hwas, his, -⟩
    · rw [hsame]
    · rw [hstage] at hreturned
      cases hreturned
    · rw [hwas, his]
      exact ⟨fun hworker => (by cases hworker), fun hworker => (by cases hworker)⟩
    · rw [hwas, his]
      exact ⟨fun hworker => (by cases hworker), fun hworker => (by cases hworker)⟩
  constructor
  · rintro (hfinished | ⟨hunborn, hretained⟩)
    · exact .inl hfinished
    · exact .inr ⟨(hkeeps hretained).mp hunborn, hretained⟩
  · rintro (hfinished | ⟨hunborn, hretained⟩)
    · exact .inl hfinished
    · exact .inr ⟨(hkeeps hretained).mpr hunborn, hretained⟩

/-- Where the caller comes back and its worker is none or at its end, the caller gives the batch back. -/
theorem Sound.result_cases (h : l.Sound) {started : Bool} (hstage : l.start.stage = .returned started) :
    l.result started = .notStarted ∧ (l.start.worker = .unborn ∨ l.finished = true) ∨
      l.result started ≠ .notStarted ∧ l.start.worker ≠ .unborn := by
  have hborn : l.start.object ≠ .absent → l.start.worker ≠ .unborn := fun hobject hworker =>
    hobject (h.start.unborn.mp hworker)
  cases started with
  | true =>
    obtain ⟨joinable, hobject⟩ := h.start.started hstage
    exact .inr ⟨by simp [result], hborn (by simp [hobject])⟩
  | false =>
    by_cases hrecoveries : l.start.recoveries = 0
    · refine .inl ⟨by simp [result, hrecoveries], ?_⟩
      have hanswers := h.start.answers
      rw [if_pos hstage, hrecoveries] at hanswers
      have halive := (h.start.stopped (.inr (by omega))).1
      cases hworker : l.start.worker with
      | unborn => exact .inl rfl
      | gone => exact .inr (h.ended hworker)
      | running | exiting => simp [hworker, Worker.alive] at halive
    · exact .inr ⟨by simp [result, hrecoveries], hborn (h.start.recovered hrecoveries)⟩

end Launch

namespace Machine

variable {m : Machine} {active active' : Bool}

/-- The calls around a queue that is busy or not: only the last can be unsettled, and it is just while the queue is busy. -/
structure Shape (active : Bool) (m : Machine) : Prop where
  launches : ∀ (i : Nat) (l : Launch), m.launches[i]? = some l → l.Sound
  token : m.token = m.launches.length
  tokens : ∀ (i : Nat) (l : Launch), m.launches[i]? = some l → l.job.token = i + 1
  settled : ∀ (i : Nat) (l : Launch), m.launches[i]? = some l → i + 1 ≠ m.launches.length ∨ active = false → l.Settled
  busy : active = true → ∃ (i : Nat) (l : Launch), m.launches[i]? = some l ∧ i + 1 = m.launches.length ∧ ¬l.Settled
  worked : ∀ (i : Nat) (l : Launch), m.launches[i]? = some l → l.start.worker = .exiting ∨ l.start.worker = .gone →
    ∀ r ∈ l.job.requests, r ∈ m.worked

/-- The queue went through these calls, and what they finished has been worked on. -/
structure Follows (m : Machine) (h : History) : Prop where
  sound : h.Sound
  queue : h.queue = m.queue
  enqueued : h.enqueued = m.enqueued
  finished : ∀ r ∈ h.finished, r ∈ m.worked
  started : ∀ (i : Nat) (l : Launch), m.launches[i]? = some l → i + 1 = m.launches.length → h.started = l.job.requests

structure Sound (m : Machine) : Prop where
  shape : m.Shape m.queue.active
  follows : ∃ h, m.Follows h

theorem sound_new : Sound {} where
  shape := {
    launches := fun i l h => by simp at h
    token := rfl
    tokens := fun i l h => by simp at h
    settled := fun i l h => by simp at h
    busy := fun h => absurd h Bool.false_ne_true
    worked := fun i l h => by simp at h }
  follows := ⟨{}, History.sound_init, rfl, rfl, fun r hr => absurd hr List.not_mem_nil, fun i l h => by simp at h⟩

namespace Shape

/-- An unsettled call is the last, and the queue is busy. -/
theorem last_of_unsettled (h : m.Shape active) {i : Nat} {l : Launch} (hl : m.launches[i]? = some l) (hunsettled : ¬l.Settled) :
    i + 1 = m.launches.length ∧ active = true := by
  constructor
  · by_contra hnot
    exact hunsettled (h.settled i l hl (.inl hnot))
  · by_contra hnot
    exact hunsettled (h.settled i l hl (.inr (eq_false_of_ne_true hnot)))

theorem settled_iff (h : m.Shape active) {i : Nat} {l : Launch} (hl : m.launches[i]? = some l) (hend : i + 1 = m.launches.length) :
    l.Settled ↔ active = false := by
  constructor
  · intro hsettled
    by_contra hbusy
    obtain ⟨j, k, hk, hlast, hunsettled⟩ := h.busy (eq_true_of_ne_false hbusy)
    obtain rfl : i = j := by omega
    exact hunsettled (Option.some.inj (hk.symm.trans hl) ▸ hsettled)
  · exact fun hidle => h.settled i l hl (.inr hidle)

/-- One call moves, and the queue with it. -/
theorem set (h : m.Shape active) {i : Nat} {l l' : Launch} {worked : List RefreshRequest} (hl : m.launches[i]? = some l)
    (hsound : l'.Sound) (hjob : l'.job = l.job) (hkeeps : l.Settled → l'.Settled)
    (hlast : i + 1 = m.launches.length → (l'.Settled ↔ active' = false))
    (hother : i + 1 ≠ m.launches.length → active' = active) (hgrows : ∀ r ∈ m.worked, r ∈ worked)
    (hworked : l'.start.worker = .exiting ∨ l'.start.worker = .gone → ∀ r ∈ l.job.requests, r ∈ worked)
    {queue : RefreshQueue} {activePath : Path} :
    Shape active' { m with queue, activePath, worked, launches := m.launches.set i l' } where
  launches := by
    intro j k hk
    rcases part_set_cases hk with ⟨-, rfl⟩ | ⟨-, hold⟩
    · exact hsound
    · exact h.launches j k hold
  token := by
    rw [List.length_set]
    exact h.token
  tokens := by
    intro j k hk
    rcases part_set_cases hk with ⟨rfl, rfl⟩ | ⟨-, hold⟩
    · rw [hjob]
      exact h.tokens i l hl
    · exact h.tokens j k hold
  settled := by
    intro j k hk hwhere
    rw [List.length_set] at hwhere
    rcases part_set_cases hk with ⟨rfl, rfl⟩ | ⟨hij, hold⟩
    · by_cases hend : i + 1 = m.launches.length
      · exact (hlast hend).mpr (hwhere.resolve_left fun hnot => hnot hend)
      · exact hkeeps (h.settled i l hl (.inl hend))
    · by_cases hend : i + 1 = m.launches.length
      · exact h.settled j k hold (.inl fun hsame => hij (by omega))
      · rw [hother hend] at hwhere
        exact h.settled j k hold hwhere
  busy := by
    intro hbusy
    by_cases hend : i + 1 = m.launches.length
    · refine ⟨i, l', List.getElem?_set_self (List.getElem?_eq_some_iff.mp hl).1, by rwa [List.length_set], ?_⟩
      rw [hlast hend, hbusy]
      exact fun hfalse => by cases hfalse
    · obtain ⟨j, k, hk, hlastj, hunsettled⟩ := h.busy (hother hend ▸ hbusy)
      exact ⟨j, k, (List.getElem?_set_ne fun hij => hend (by omega)).trans hk, by rwa [List.length_set], hunsettled⟩
  worked := by
    intro j k hk hworker
    rcases part_set_cases hk with ⟨-, rfl⟩ | ⟨-, hold⟩
    · rw [hjob]
      exact hworked hworker
    · exact fun r hr => hgrows r (h.worked j k hold hworker r hr)

/-- A call comes new where the queue was not busy. -/
theorem launch (h : m.Shape false) {path activePath : Path} {requests enqueued : List RefreshRequest} {queue : RefreshQueue} :
    Shape true { m with
      queue
      activePath
      enqueued
      token := m.token + 1
      launches := m.launches ++ [{ job := ⟨m.token + 1, path, requests⟩ }] } where
  launches := by
    intro j k hk
    rcases part_concat_cases hk with ⟨-, rfl⟩ | ⟨-, hold⟩
    · exact Launch.sound_new _
    · exact h.launches j k hold
  token := by
    rw [List.length_append, h.token]
    rfl
  tokens := by
    intro j k hk
    rcases part_concat_cases hk with ⟨rfl, rfl⟩ | ⟨-, hold⟩
    · rw [h.token]
    · exact h.tokens j k hold
  settled := by
    intro j k hk hwhere
    rcases part_concat_cases hk with ⟨rfl, rfl⟩ | ⟨-, hold⟩
    · rcases hwhere with hother | hidle
      · exact absurd (by simp) hother
      · cases hidle
    · exact h.settled j k hold (.inr rfl)
  busy := fun _ => ⟨m.launches.length, _, List.getElem?_concat_length, by simp, Launch.not_settled_new _⟩
  worked := by
    intro j k hk hworker
    rcases part_concat_cases hk with ⟨-, rfl⟩ | ⟨-, hold⟩
    · rcases hworker with hworker | hworker <;> cases hworker
    · exact h.worked j k hold hworker

/-- Nothing but the queue and what was asked for. -/
theorem congr (h : m.Shape active) {queue : RefreshQueue} {activePath : Path} {enqueued : List RefreshRequest} :
    Shape active { m with queue, activePath, enqueued } := ⟨h.launches, h.token, h.tokens, h.settled, h.busy, h.worked⟩

end Shape

/-- What refreshInBackground does. -/
theorem enqueue_cases (q : RefreshQueue) (requests : List RefreshRequest) :
    (q.enqueue requests).1.action ≠ .start ∧ (q.enqueue requests).2.active = q.active ∨
      (q.enqueue requests).1.action = .start ∧ q.active = false ∧ (q.enqueue requests).2.active = true := by
  unfold RefreshQueue.enqueue
  split
  · next hidle =>
    dsimp only
    split
    · exact .inl ⟨by simp, rfl⟩
    · exact .inr ⟨rfl, hidle, rfl⟩
  · refine .inl ⟨?_, rfl⟩
    dsimp only
    split <;> simp

theorem finishActive_cases (q : RefreshQueue) :
    q.finishActive.1 = [] ∧ q.finishActive.2.active = false ∨ q.finishActive.1 ≠ [] ∧ q.finishActive.2.active = true := by
  unfold RefreshQueue.finishActive
  split
  · exact .inl ⟨rfl, rfl⟩
  · next hpending =>
    refine .inr ⟨fun hnil => hpending ?_, rfl⟩
    have hlist : q.pendingRequests.toList = [] := List.map_eq_nil_iff.mp hnil
    rw [← Std.TreeMap.isEmpty_toList, hlist]
    rfl

/-- The batch at the worker. -/
theorem Follows.active_batch {history : History} (h : m.Follows history) (hactive : m.queue.active = true) :
    history.started = refreshRequestBatch m.queue.activeRequests := by
  rw [← h.queue] at hactive ⊢
  exact h.sound.started hactive

/-- One call moves and keeps its batch; the queue's history may go on. -/
theorem Follows.set {history history' : History} (h : m.Follows history) (l' : Launch) (activePath : Path) {i : Nat} {l : Launch}
    (hl : m.launches[i]? = some l) (hjob : l'.job = l.job) (hsound : history'.Sound) (henqueued : history'.enqueued = history.enqueued)
    (hstarted : history'.started = history.started) {worked : List RefreshRequest} (hfinished : ∀ r ∈ history'.finished, r ∈ worked) :
    Follows { m with queue := history'.queue, activePath, worked, launches := m.launches.set i l' } history' where
  sound := hsound
  queue := rfl
  enqueued := henqueued.trans h.enqueued
  finished := hfinished
  started := by
    intro j k hk hend
    rw [List.length_set] at hend
    rw [hstarted]
    rcases part_set_cases hk with ⟨rfl, rfl⟩ | ⟨-, hold⟩
    · rw [hjob]
      exact h.started i l hl hend
    · exact h.started j k hold hend

/-- A step of a call or of its worker; the body is the one that adds to what was worked on. -/
theorem start_cases {m' : Machine} {i : Nat} {event : ThreadStart.Event Unit} (hs : step m (.start i event) = some m') :
    ∃ l x, m.launches[i]? = some l ∧ l.start.Moves callbacks () event () x ∧ (event = .exit → l.finished = true) ∧
      m' = { m with
        worked := if event = .body () then l.job.requests ++ m.worked else m.worked
        launches := m.launches.set i { l with start := x } } := by
  obtain ⟨l, hl, hs⟩ := Option.bind_eq_some_iff.mp hs
  obtain ⟨hexit, hs⟩ := Option.ite_none_left_eq_some.mp hs
  obtain ⟨⟨u, x⟩, hx, rfl⟩ := Option.map_eq_some_iff.mp hs
  refine ⟨l, x, hl, Start.moves hx, ?_, ?_⟩
  · rintro rfl
    have hmay : m.mayExit l = true := eq_true_of_ne_false fun hfalse => hexit ⟨rfl, hfalse⟩
    exact ((Bool.and_eq_true _ _).mp hmay).1
  · dsimp only
    split <;> rfl

namespace Sound
variable {m' : Machine}

theorem refreshInBackground (h : m.Sound) (enabled : Bool) (path : Path) (requests : List RefreshRequest) :
    (m.refreshInBackground enabled path requests).Sound := by
  obtain ⟨history, hhistory⟩ := h.follows
  unfold Machine.refreshInBackground
  split
  · exact h
  · have hsound := hhistory.sound.call (.enqueue requests)
    have henqueued : requests ++ history.enqueued = requests ++ m.enqueued := by rw [hhistory.enqueued]
    have hcases := enqueue_cases m.queue requests
    cases hdecision : m.queue.enqueue requests with
    | mk decision queue =>
      rw [hdecision] at hcases
      have hqueue : (history.queue.enqueue requests) = (decision, queue) := by rw [hhistory.queue, hdecision]
      dsimp only
      rcases hcases with ⟨haction, hactive⟩ | ⟨haction, hidle, hactive⟩
      · rw [if_pos haction]
        refine ⟨?_, history.call (.enqueue requests), hsound, congrArg Prod.snd hqueue, henqueued, hhistory.finished, ?_⟩
        · have hshape : m.Shape queue.active := by
            rw [hactive]
            exact h.shape
          exact hshape.congr
        · intro i l hl hend
          simp only [History.call, hqueue, if_neg haction]
          exact hhistory.started i l hl hend
      · rw [if_neg (not_not.mpr haction)]
        refine ⟨?_, history.call (.enqueue requests), hsound, congrArg Prod.snd hqueue, henqueued, hhistory.finished, ?_⟩
        · rw [hactive]
          exact (hidle ▸ h.shape).congr.launch
        · intro i l hl hend
          simp only [History.call, hqueue, if_pos haction]
          rcases part_concat_cases hl with ⟨-, rfl⟩ | ⟨hi, -⟩
          · rfl
          · rw [List.length_append, List.length_singleton] at hend
            omega

theorem start (h : m.Sound) {i : Nat} {event : ThreadStart.Event Unit} (hs : step m (.start i event) = some m') : m'.Sound := by
  obtain ⟨l, x, hl, hm, hfinished, rfl⟩ := start_cases hs
  have hl' := h.shape.launches i l hl
  have hsettled := hl'.settled_moves hm
  have hsound := hl'.moves hm hfinished
  have hgrows : ∀ r ∈ m.worked, r ∈ if event = .body () then l.job.requests ++ m.worked else m.worked := by
    intro r hr
    split
    · exact List.mem_append_right _ hr
    · exact hr
  obtain ⟨history, hhistory⟩ := h.follows
  constructor
  · refine h.shape.set hl hsound rfl hsettled.mpr (fun hend => ?_) (fun _ => rfl) hgrows ?_
    · rw [hsettled]
      exact h.shape.settled_iff hl hend
    · intro hworker r hr
      rcases Launch.worker_moves_cases hm hworker with hwas | hbody
      · exact hgrows r (h.shape.worked i l hl hwas r hr)
      · rw [if_pos hbody]
        exact List.mem_append_left _ hr
  · have hfollows := hhistory.set { l with start := x } m.activePath hl rfl hhistory.sound rfl rfl
      fun r hr => hgrows r (hhistory.finished r hr)
    rw [hhistory.queue] at hfollows
    exact ⟨history, hfollows⟩

/-- The worker in front of finishRefresh is the last call's, and its guard lets it through. -/
theorem finishing (h : m.Sound) {i : Nat} {l : Launch} (hl : m.launches[i]? = some l) (hexiting : l.start.worker = .exiting)
    (hunfinished : l.finished = false) :
    i + 1 = m.launches.length ∧ m.queue.active = true ∧ ¬(m.token ≠ l.job.token ∨ m.queue.active = false) := by
  have hunsettled : ¬l.Settled := by
    rintro (hfinished | ⟨hunborn, -⟩)
    · rw [hunfinished] at hfinished
      cases hfinished
    · rw [hexiting] at hunborn
      cases hunborn
  obtain ⟨hend, hactive⟩ := h.shape.last_of_unsettled hl hunsettled
  refine ⟨hend, hactive, ?_⟩
  rw [h.shape.token, h.shape.tokens i l hl, hend, hactive]
  simp

theorem finishRefresh (h : m.Sound) {i : Nat} (hs : step m (.finishRefresh i) = some m') : m'.Sound := by
  obtain ⟨l, hl, hs⟩ := Option.bind_eq_some_iff.mp hs
  obtain ⟨⟨hexiting, hunfinished⟩, hs⟩ := Option.ite_none_right_eq_some.mp hs
  cases hs
  have hl' := h.shape.launches i l hl
  obtain ⟨history, hhistory⟩ := h.follows
  obtain ⟨hend, hactive, hguard⟩ := h.finishing hl hexiting hunfinished
  have hsound (nested : Option Nat) : Launch.Sound { l with finished := true, nested } :=
    ⟨hl'.start, fun _ => .inl hexiting, fun _ => rfl, hl'.retained⟩
  have hworked := h.shape.worked i l hl (.inl hexiting)
  have hcall := hhistory.sound.call .finishActive
  have hfinished : ∀ r ∈ (history.call .finishActive).finished, r ∈ m.worked := by
    intro r hr
    rcases List.mem_append.mp hr with hr | hr
    · rw [hhistory.queue, ← hhistory.active_batch hactive, hhistory.started i l hl hend] at hr
      exact hworked r hr
    · exact hhistory.finished r hr
  rw [Machine.finishRefresh, if_neg hguard]
  have hcases := finishActive_cases m.queue
  cases hnext : m.queue.finishActive with
  | mk nextRequests queue =>
    have hqueue : history.queue.finishActive = (nextRequests, queue) := by rw [hhistory.queue, hnext]
    rw [hnext] at hcases
    dsimp only at hcases ⊢
    rcases hcases with ⟨hnil, hidle⟩ | ⟨hne, hbusy⟩
    · rw [if_pos hnil]
      constructor
      · exact h.shape.set hl (hsound l.nested) rfl (fun _ => .inl rfl) (fun _ => iff_of_true (.inl rfl) hidle)
          (fun hother => absurd hend hother) (fun _ hr => hr) fun _ => hworked
      · have hfollows := hhistory.set { l with finished := true } [] hl rfl hcall rfl
          (by simp only [History.call, hqueue, hidle, Bool.false_eq_true, if_false]) hfinished
        have hafter : (history.call .finishActive).queue = queue := congrArg Prod.snd hqueue
        rw [hafter] at hfollows
        exact ⟨_, hfollows⟩
    · rw [if_neg hne]
      have hset : Shape false (m.setLaunch i { l with finished := true, nested := some m.launches.length }) :=
        h.shape.set hl (hsound _) rfl (fun _ => .inl rfl) (fun _ => iff_of_true (.inl rfl) rfl)
          (fun hother => absurd hend hother) (fun _ hr => hr) (fun _ => hworked)
      constructor
      · change Shape queue.active _
        rw [hbusy]
        exact hset.launch
      · refine ⟨history.call .finishActive, hcall, congrArg Prod.snd hqueue, hhistory.enqueued, hfinished, ?_⟩
        intro j k hk hlast
        rcases part_concat_cases hk with ⟨-, rfl⟩ | ⟨hj, -⟩
        · simp only [History.call, hqueue, hbusy, if_true]
        · rw [List.length_append, List.length_singleton] at hlast
          omega

theorem retainRefreshAfterFailedStart (h : m.Sound) {i : Nat} (hs : step m (.retainRefreshAfterFailedStart i) = some m') :
    m'.Sound := by
  obtain ⟨l, hl, hs⟩ := Option.bind_eq_some_iff.mp hs
  have hl' := h.shape.launches i l hl
  obtain ⟨history, hhistory⟩ := h.follows
  cases hstage : l.start.stage with
  | returned started =>
    simp only [hstage] at hs
    obtain ⟨-, hs⟩ := Option.ite_none_right_eq_some.mp hs
    cases hs
    have hsound : Launch.Sound { l with retained := true } := ⟨hl'.start, hl'.ending, hl'.ended, fun _ => ⟨started, hstage⟩⟩
    have hkeeps : l.Settled → Launch.Settled { l with retained := true } := fun h => h.imp_right fun ⟨hworker, _⟩ => ⟨hworker, rfl⟩
    have hfollows := hhistory.set { l with retained := true } m.activePath hl rfl hhistory.sound rfl rfl hhistory.finished
    rw [hhistory.queue] at hfollows
    rw [Machine.retainRefreshAfterFailedStart]
    rcases hl'.result_cases hstage with ⟨hresult, hworker⟩ | ⟨hresult, hworker⟩
    · -- the batch goes back, unless a later call has the token
      have hnow : Launch.Settled { l with retained := true } := by
        rcases hworker with hunborn | hfinished
        · exact .inr ⟨hunborn, rfl⟩
        · exact .inl hfinished
      rw [if_neg (not_not.mpr hresult)]
      split
      · next htoken =>
        have hnot : i + 1 ≠ m.launches.length := fun hend => htoken (by
          simp only [Machine.setLaunch]
          rw [h.shape.token, h.shape.tokens i l hl, hend])
        exact ⟨h.shape.set hl hsound rfl hkeeps (fun hend => absurd hend hnot) (fun _ => rfl) (fun _ hr => hr)
          (h.shape.worked i l hl), history, hfollows⟩
      · next htoken =>
        have hend : i + 1 = m.launches.length := by
          simp only [Machine.setLaunch, ne_eq, not_not] at htoken
          rw [← h.shape.token, htoken, h.shape.tokens i l hl]
        refine ⟨h.shape.set hl hsound rfl hkeeps (fun _ => iff_of_true hnow rfl) (fun hother => absurd hend hother)
          (fun _ hr => hr) (h.shape.worked i l hl), history.call .restoreAfterStartFailure, ?_⟩
        have hcall := hhistory.set { l with retained := true } [] hl rfl (hhistory.sound.call .restoreAfterStartFailure)
          rfl rfl hhistory.finished
        have hafter : (history.call .restoreAfterStartFailure).queue = m.queue.restoreAfterStartFailure l.job.requests := by
          simp only [History.call, hhistory.queue, hhistory.started i l hl hend]
        rw [hafter] at hcall
        exact hcall
    · rw [if_pos hresult]
      have hsame : Launch.Settled { l with retained := true } ↔ l.Settled := by
        refine ⟨?_, hkeeps⟩
        rintro (hfinished | ⟨hunborn, -⟩)
        · exact .inl hfinished
        · exact absurd hunborn hworker
      refine ⟨h.shape.set hl hsound rfl hkeeps (fun hend => ?_) (fun _ => rfl) (fun _ hr => hr) (h.shape.worked i l hl),
        history, hfollows⟩
      rw [hsame]
      exact h.shape.settled_iff hl hend
  | _ => simp [hstage] at hs

/-- What was asked for is at the worker, behind it or worked on. -/
theorem covered (h : m.Sound) (r : RefreshRequest) (hr : r ∈ m.enqueued) (hzero : r.appId ≠ 0) :
    Holds m.queue.activeRequests r ∨ Holds m.queue.pendingRequests r ∨ ∃ entry ∈ m.worked, Dominates entry r := by
  obtain ⟨history, hhistory⟩ := h.follows
  rcases hhistory.sound.covered r (hhistory.enqueued ▸ hr) hzero with hactive | hpending | ⟨entry, hentry, hdom⟩
  · exact .inl (hhistory.queue ▸ hactive)
  · exact .inr (.inl (hhistory.queue ▸ hpending))
  · exact .inr (.inr ⟨entry, hhistory.finished entry hentry, hdom⟩)

/-- The last call has the batch at the worker. -/
theorem last_batch (h : m.Sound) (hactive : m.queue.active = true) {i : Nat} {l : Launch} (hl : m.launches[i]? = some l)
    (hend : i + 1 = m.launches.length) : l.job.requests = refreshRequestBatch m.queue.activeRequests := by
  obtain ⟨history, hhistory⟩ := h.follows
  rw [← hhistory.started i l hl hend, hhistory.active_batch hactive]

theorem step (h : m.Sound) {e : Event} (hs : ProvisionRefresh.step m e = some m') : m'.Sound := by
  cases e with
  | refreshInBackground enabled path requests =>
    cases hs
    exact h.refreshInBackground enabled path requests
  | start i event => exact h.start hs
  | finishRefresh i => exact h.finishRefresh hs
  | retainRefreshAfterFailedStart i => exact h.retainRefreshAfterFailedStart hs

end Sound

/-- Every run of the threads is sound. -/
theorem sound_of_run {events : List Event} (hrun : exec ProvisionRefresh.step {} events = some m) : m.Sound :=
  exec_preserves (fun _ _ _ h hs => Sound.step h hs) sound_new hrun

end Machine

/-- The event is a step of this call. -/
def Event.Of (i : Nat) : Event → Prop
  | .refreshInBackground _ _ _ => False
  | .start j _ | .finishRefresh j | .retainRefreshAfterFailedStart j => j = i

namespace Machine
variable {m : Machine}

/-- A call that is not settled has a step to take. -/
theorem goes_on {i : Nat} {l : Launch} (hl : m.launches[i]? = some l) (h : l.Sound) (hunsettled : ¬l.Settled) :
    ∃ e, e.Of i ∧ (step m e).isSome = true := by
  have hborn : l.start.object ≠ .absent → l.start.worker ≠ .unborn := fun hobject hworker =>
    hobject (h.start.unborn.mp hworker)
  have hunfinished : l.finished = false := eq_false_of_ne_true fun hfinished => hunsettled (.inl hfinished)
  cases hworker : l.start.worker with
  | running => exact ⟨.start i (.body ()), rfl, by simp [step, hl, Start.step, hworker]⟩
  | exiting => exact ⟨.finishRefresh i, rfl, by simp [step, hl, hworker, hunfinished]⟩
  | gone => exact absurd (.inl (h.ended hworker)) hunsettled
  | unborn =>
    have hunretained : l.retained = false := eq_false_of_ne_true fun hretained => hunsettled (.inr ⟨hworker, hretained⟩)
    cases hstage : l.start.stage with
    | creating => exact ⟨.start i (.create false), rfl, by simp [step, hl, Start.step, hstage]⟩
    | failing => exact ⟨.start i .failure, rfl, by simp [step, hl, Start.step, hstage]⟩
    | returned started => exact ⟨.retainRefreshAfterFailedStart i, rfl, by simp [step, hl, hstage, hunretained]⟩
    | detaching | joining | redetaching => exact absurd hworker (hborn (by simp [h.start.made, hstage]))
    | handling =>
      obtain ⟨joinable, hobject⟩ := h.start.handling hstage
      exact absurd hworker (hborn (by simp [hobject]))
    | recovering =>
      rcases h.start.recovering hstage with hobject | hobject <;> exact absurd hworker (hborn (by simp [hobject]))

end Machine

/-- Over every order of the callers and the workers and every way in which a worker fails to start: what a caller asked for is in
the batch at the worker, behind it or absorbed by what a worker's body went through; the queue is busy only while the last call
holds its batch and has a step to take; and the bodies run one at a time. -/
theorem refresh_never_lost (events : List Event) (m : Machine) (hrun : exec step {} events = some m) :
    (∀ r ∈ m.enqueued, r.appId ≠ 0 → Holds m.queue.activeRequests r ∨ Holds m.queue.pendingRequests r ∨
      ∃ entry ∈ m.worked, Dominates entry r) ∧
    (m.queue.active = true → ∃ (i : Nat) (l : Launch), m.launches[i]? = some l ∧ i + 1 = m.launches.length ∧
      l.job.requests = refreshRequestBatch m.queue.activeRequests ∧ ∃ e, e.Of i ∧ (step m e).isSome = true) ∧
    (∀ (i j : Nat) (l k : Launch), m.launches[i]? = some l → m.launches[j]? = some k →
      l.start.worker = .running → k.start.worker = .running → i = j) := by
  have h := Machine.sound_of_run hrun
  refine ⟨h.covered, ?_, ?_⟩
  · intro hactive
    obtain ⟨i, l, hl, hend, hunsettled⟩ := h.shape.busy hactive
    exact ⟨i, l, hl, hend, h.last_batch hactive hl hend, Machine.goes_on hl (h.shape.launches i l hl) hunsettled⟩
  · have hrunning (i : Nat) (l : Launch) (hl : m.launches[i]? = some l) (hworker : l.start.worker = .running) :
        i + 1 = m.launches.length := by
      refine (h.shape.last_of_unsettled hl ?_).1
      rintro (hfinished | ⟨hunborn, -⟩)
      · rcases (h.shape.launches i l hl).ending hfinished with hwas | hwas <;> rw [hworker] at hwas <;> cases hwas
      · rw [hworker] at hunborn
        cases hunborn
    intro i j l k hl hk hworker hworker'
    have hi := hrunning i l hl hworker
    have hj := hrunning j k hk hworker'
    omega

/-- A detach fails while the worker starts the next batch; the join sees both out. -/
def handedOn : List Event :=
  [.refreshInBackground true [0x61] [{ appId := 420530, managedGeneration := 3 }], .start 0 (.create false),
    .refreshInBackground true [0x62] [{ appId := 570, managedGeneration := 3 }], .start 0 (.detach true true), .start 0 (.body ()),
    .finishRefresh 0, .start 1 (.create false), .start 0 .detachFailure, .start 1 (.detach false false),
    .retainRefreshAfterFailedStart 1, .start 0 .exit, .start 0 (.join false false), .start 0 .failure,
    .retainRefreshAfterFailedStart 0]

theorem refresh_never_lost_handedOn : ∃ m, exec step {} handedOn = some m ∧
    ∃ (i : Nat) (l : Launch), m.launches[i]? = some l ∧ i + 1 = m.launches.length ∧ ∃ e, e.Of i ∧ (step m e).isSome = true := by
  have hbusy : (exec step {} handedOn).map (·.queue.active) = some true := by decide +kernel
  obtain ⟨m, hrun, hactive⟩ := Option.map_eq_some_iff.mp hbusy
  obtain ⟨i, l, hl, hend, -, hstep⟩ := (refresh_never_lost handedOn m hrun).2.1 hactive
  exact ⟨m, hrun, i, l, hl, hend, hstep⟩

end SlsteamMoon.ProvisionRefresh
