import SlsteamMoon.ThreadStart.Start

/-! The background warm-up of the Wine prefix and the launches that wait for it: the generations that warmupAsync
claims, their workers, and the loop of onLaunchApp around the condition variable. -/
namespace SlsteamMoon.Warmup
open Runs ThreadStart

/-- The flags and the count of generations, which has 64 bits and does not run over. -/
structure Flags where
  started : Bool := false
  done : Bool := false
  failed : Bool := false
  generation : Nat := 0
  deriving DecidableEq, Repr

namespace Flags

def tryBeginWarmup (f : Flags) : Option Flags :=
  if f.started then none else some ⟨true, false, false, f.generation + 1⟩

def recordWarmupResult (f : Flags) (exitCode : Int) : Flags := if exitCode ≠ 0 then { f with failed := true } else f

def finishWarmup (f : Flags) : Flags := { f with started := if f.failed then false else f.started, done := true }

def shouldRetryWarmup (f : Flags) : Bool := !f.started && f.done && f.failed

end Flags

/-- The callbacks of warmupAsync. The body ends with the exit code of runPrewarm, none where it threw. -/
def client : Client Flags (Option Int) where
  claim := Flags.tryBeginWarmup
  onFailure f := { f with failed := false, started := false, done := true }
  onDetachFailure := id
  onRecoveryFailure := id
  body
    | some exitCode, f => f.recordWarmupResult exitCode
    | none, f => { f with failed := true }
  onExit := Flags.finishWarmup

/-- Where a launch stands with an executable that carries the stub. -/
inductive Launch where
  /-- In front of the look at g_warmupStarted. -/
  | arrived
  /-- In front of tryBeginWarmup. -/
  | calling (observed : Nat) (retried : Bool)
  /-- Inside startDetached, as the call of this index. -/
  | starting (call observed : Nat) (retried : Bool)
  /-- At the top of the loop. -/
  | looping (observed : Nat) (retried : Bool)
  | sleeping (waiting : Nat) (retried : Bool)
  /-- Woken, in front of the lock. -/
  | woken (waiting : Nat) (retried : Bool)
  /-- Out of the loop, at runHelper. -/
  | helping
  | processed
  deriving DecidableEq, Repr

namespace Launch

def woke : Launch → Launch
  | sleeping waiting retried => woken waiting retried
  | l => l

/-- The end of the section under the lock: one retry of a failed generation, or out of the loop. -/
def leaveOrRetry (f : Flags) (observed : Nat) (retried : Bool) : Launch :=
  if f.shouldRetryWarmup ∧ retried = false then calling observed true else helping

/-- The section under the lock from the top of the loop; none observed is zero. -/
def enter (f : Flags) (observed : Nat) (retried : Bool) : Launch :=
  let observed := if observed = 0 then f.generation else observed
  let retried := if f.generation ≠ observed then true else retried
  if f.started ∧ f.done = false then sleeping f.generation retried else leaveOrRetry f f.generation retried

/-- The section under the lock behind a wake-up: the predicate again, and what follows the wait. -/
def reenter (f : Flags) (waiting : Nat) (retried : Bool) : Launch :=
  if f.generation ≠ waiting then looping f.generation true
  else if f.done then leaveOrRetry f waiting retried
  else sleeping waiting retried

end Launch

/-- What a launch does by itself. -/
inductive Turn where
  | look
  | enter
  | spurious
  | reenter
  /-- Out of startDetached. -/
  | returned
  | help
  /-- On with the next executable. -/
  | next
  deriving DecidableEq, Repr

def Launch.turn (g : System Flags) : Launch → Turn → Option Launch
  | arrived, .look => some (if g.shared.started then looping 0 false else calling 0 false)
  | looping observed retried, .enter => some (enter g.shared observed retried)
  | sleeping waiting retried, .spurious => some (woken waiting retried)
  | woken waiting retried, .reenter => some (reenter g.shared waiting retried)
  | starting call observed retried, .returned =>
    if g.starts[call]?.any fun x => x.stage.isReturned then some (looping observed retried) else none
  | helping, .help => some processed
  | processed, .next => some arrived
  | _, _ => none

/-- The gate with its calls, the workers that finished and are still to notify, and the launches. -/
structure Machine where
  gate : System Flags := ⟨{}, []⟩
  notifying : Nat := 0
  launches : List Launch := []
  deriving DecidableEq, Repr

inductive Event where
  | launch
  /-- A call from outside a launch. -/
  | warmupAsync
  /-- The call of a launch, up to startDetached. -/
  | call (i : Nat)
  | turn (i : Nat) (turn : Turn)
  | start (i : Nat) (event : ThreadStart.Event (Option Int))
  | notify
  deriving DecidableEq, Repr

namespace Machine

def setLaunch (m : Machine) (i : Nat) (l : Launch) : Machine := { m with launches := m.launches.set i l }

def wakeAll (m : Machine) : Machine := { m with launches := m.launches.map Launch.woke }

/-- A refused call returns at once. -/
def call (m : Machine) (i : Nat) : Launch → Option Machine
  | .calling observed retried =>
    if m.gate.shared.started then some (m.setLaunch i (.looping observed retried))
    else some { m.setLaunch i (.starting m.gate.starts.length observed retried) with gate := m.gate.claim client }
  | _ => none

/-- A step of a call: the exit callback leaves a notify_all behind its lock, the failure callback makes it at once. -/
def start (m : Machine) (i : Nat) (event : ThreadStart.Event (Option Int)) : Option Machine :=
  (System.step client m.gate (.start i event)).map fun gate =>
    match event with
    | .exit => { m with gate, notifying := m.notifying + 1 }
    | .failure => { m with gate }.wakeAll
    | _ => { m with gate }

end Machine

open Machine

def step : Step Machine Event
  | m, .launch => some { m with launches := m.launches ++ [.arrived] }
  | m, .warmupAsync => some { m with gate := m.gate.claim client }
  | m, .call i => m.launches[i]?.bind (m.call i)
  | m, .turn i turn => (m.launches[i]?.bind fun l => l.turn m.gate turn).map (m.setLaunch i)
  | m, .start i event => m.start i event
  | m, .notify => if m.notifying = 0 then none else some { m.wakeAll with notifying := m.notifying - 1 }

namespace Machine

theorem call_cases {m m' : Machine} {i : Nat} (hs : step m (.call i) = some m') :
    ∃ observed retried, m.launches[i]? = some (.calling observed retried) ∧
      (m.gate.shared.started = true ∧ m' = m.setLaunch i (.looping observed retried) ∨
        m.gate.shared.started = false ∧
          m' = { m.setLaunch i (.starting m.gate.starts.length observed retried) with gate := m.gate.claim client }) := by
  obtain ⟨l, hl, hs⟩ := Option.bind_eq_some_iff.mp hs
  cases l with
  | calling observed retried =>
    refine ⟨observed, retried, hl, ?_⟩
    simp only [call] at hs
    split at hs
    next hstarted => exact .inl ⟨hstarted, (Option.some.inj hs).symm⟩
    next hstarted => exact .inr ⟨by simpa using hstarted, (Option.some.inj hs).symm⟩
  | _ => cases hs

theorem turn_cases {m m' : Machine} {i : Nat} {turn : Turn} (hs : step m (.turn i turn) = some m') :
    ∃ l l', m.launches[i]? = some l ∧ l.turn m.gate turn = some l' ∧ m' = m.setLaunch i l' := by
  obtain ⟨l', hl', rfl⟩ := Option.map_eq_some_iff.mp hs
  obtain ⟨l, hl, hturn⟩ := Option.bind_eq_some_iff.mp hl'
  exact ⟨l, l', hl, hturn, rfl⟩

end Machine
end SlsteamMoon.Warmup

/-! One warm-up at a time, no launch left asleep, and no more warm-ups than the launches can ask for. -/
namespace SlsteamMoon.Warmup
open Runs ThreadStart

def Event.detaches : Event → Bool
  | .start _ event => event.detaches
  | _ => true

/-- A generation was claimed and has not finished. -/
def Flags.Open (f : Flags) : Prop := f.started = true ∧ f.done = false

theorem guarded : client.Guarded Flags.Open where
  claim := by
    intro f t h
    obtain ⟨hstarted, h⟩ := Option.ite_none_left_eq_some.mp h
    cases h
    exact ⟨fun hopen => hstarted hopen.1, rfl, rfl⟩
  body := by
    rintro f (_ | exitCode) h
    · exact h
    · simp only [client, Flags.recordWarmupResult]
      split
      · exact h
      · exact h

/-- The gate: a generation for each call, open while one is busy, and done behind the first. -/
structure Sound (g : System Flags) : Prop where
  exclusive : g.Exclusive Flags.Open
  generation : g.shared.generation = g.starts.length
  open_iff : g.shared.Open ↔ ∃ x ∈ g.starts, x.Busy
  finished : g.shared.generation ≠ 0 → g.shared.Open ∨ g.shared.done = true

theorem sound_new : Sound ⟨{}, []⟩ where
  exclusive := System.exclusive_new _
  generation := rfl
  open_iff := by simp [Flags.Open]
  finished := fun h => absurd rfl h

theorem Sound.claim {g : System Flags} (h : Sound g) : Sound (g.claim client) := by
  rcases System.claim_cases client g with ⟨-, heq⟩ | ⟨f, hf, heq⟩
  · rwa [heq]
  · have hclosed := guarded.claim _ _ hf
    rw [heq]
    obtain ⟨-, hf⟩ := Option.ite_none_left_eq_some.mp hf
    refine ⟨heq ▸ h.exclusive.claim guarded, ?_, iff_of_true hclosed.2 ⟨{}, by simp, Start.busy_new⟩, fun _ => .inl hclosed.2⟩
    cases hf
    simp [h.generation]

theorem Sound.start {g g' : System Flags} (h : Sound g) {i : Nat} {event : ThreadStart.Event (Option Int)}
    (hs : System.step client g (.start i event) = some g') (hdetaches : event.detaches = true) : Sound g' := by
  obtain ⟨x, f, x', hx, hm, rfl⟩ := System.start_cases hs
  have hexclusive := h.exclusive.start guarded hx hm hdetaches
  have hmem := List.mem_of_getElem? hx
  have hopen := h.open_iff
  rw [System.exists_busy hx] at hopen
  have hothers (hbusy : x.Busy) : ¬∃ j y, j ≠ i ∧ g.starts[j]? = some y ∧ y.Busy := by
    rintro ⟨j, y, hij, hj, hy⟩
    exact hij (h.exclusive.sole hj hx hy hbusy)
  rcases (h.exclusive.plain x hmem).effect (h.exclusive.sound x hmem) hm hdetaches with
    ⟨rfl, hkeeps⟩ | ⟨hbefore, hbusy, result, rfl⟩ | ⟨hbefore, hends, hf⟩
  · refine ⟨hexclusive, by simpa using h.generation, ?_, h.finished⟩
    rw [System.exists_busy_set hx, hkeeps]
    exact hopen
  · have hclosed := guarded.body _ result (hopen.mpr (.inl hbefore))
    refine ⟨hexclusive, ?_, ?_, fun _ => .inl hclosed⟩
    · have hsame : (client.body result g.shared).generation = g.shared.generation := by
        cases result with
        | none => rfl
        | some exitCode =>
          simp only [client, Flags.recordWarmupResult]
          split <;> rfl
      simpa [hsame] using h.generation
    · rw [System.exists_busy_set hx]
      exact iff_of_true hclosed (.inl hbusy)
  · have hdone : f.done = true ∧ f.generation = g.shared.generation := by
      rcases hf with rfl | rfl <;> exact ⟨rfl, rfl⟩
    refine ⟨hexclusive, ?_, ?_, fun _ => .inr hdone.1⟩
    · simpa [hdone.2] using h.generation
    · rw [System.exists_busy_set hx]
      refine iff_of_false (fun hopen => absurd hopen.2 (by simp [hdone.1])) ?_
      rintro (hbusy | hbusy)
      · exact hends hbusy
      · exact hothers hbefore hbusy

private theorem Sound.one_le {g : System Flags} (h : Sound g) (hopen : g.shared.Open) : 1 ≤ g.shared.generation := by
  obtain ⟨x, hx, -⟩ := h.open_iff.mp hopen
  rw [h.generation]
  exact List.length_pos_of_mem hx

/-- A step that neither finishes a worker nor reports a failed creation tells the sleepers nothing. -/
theorem quiet_of_moves {f f' : Flags} {x x' : Start} {event : ThreadStart.Event (Option Int)}
    (hm : x.Moves client f event f' x') (hexit : event ≠ .exit) (hfailure : event ≠ .failure) :
    f'.done = f.done ∧ f'.generation = f.generation := by
  cases hm with
  | exit _ => exact absurd rfl hexit
  | failed _ => exact absurd rfl hfailure
  | body _ result =>
    cases result with
    | none => exact ⟨rfl, rfl⟩
    | some exitCode =>
      simp only [client, Flags.recordWarmupResult]
      split <;> exact ⟨rfl, rfl⟩
  | _ => exact ⟨rfl, rfl⟩

namespace Launch

/-- A sleeping launch waits for the generation at work, or a notify is still to come. -/
def Waits (f : Flags) (notifying : Nat) : Launch → Prop
  | sleeping waiting _ =>
    1 ≤ waiting ∧ waiting ≤ f.generation ∧ (0 < notifying ∨ waiting = f.generation ∧ f.done = false)
  | woken waiting _ => 1 ≤ waiting ∧ waiting ≤ f.generation
  | _ => True

variable {f f' : Flags} {notifying : Nat} {l : Launch}

private theorem waits_woke (h : l.Waits f notifying) (n : Nat) (hgeneration : f'.generation = f.generation) :
    l.woke.Waits f' n := by
  cases l with
  | sleeping waiting retried => exact ⟨h.1, hgeneration ▸ h.2.1⟩
  | woken waiting retried => exact ⟨h.1, hgeneration ▸ h.2⟩
  | _ => trivial

theorem Waits.quiet (h : l.Waits f notifying) (hdone : f'.done = f.done) (hgeneration : f'.generation = f.generation) :
    l.Waits f' notifying := by
  cases l with
  | sleeping waiting retried => exact ⟨h.1, hgeneration ▸ h.2.1, by rw [hdone, hgeneration]; exact h.2.2⟩
  | woken waiting retried => exact ⟨h.1, hgeneration ▸ h.2⟩
  | _ => trivial

theorem Waits.finish (h : l.Waits f notifying) (hgeneration : f'.generation = f.generation) :
    l.Waits f' (notifying + 1) := by
  cases l with
  | sleeping waiting retried => exact ⟨h.1, hgeneration ▸ h.2.1, .inl (Nat.succ_pos notifying)⟩
  | woken waiting retried => exact ⟨h.1, hgeneration ▸ h.2⟩
  | _ => trivial

/-- A claim finds the generation before done, so its sleepers were notified or will be. -/
theorem Waits.claim {g : System Flags} (hg : Sound g) (h : l.Waits g.shared notifying) :
    l.Waits (g.claim client).shared notifying := by
  rcases System.claim_cases client g with ⟨-, heq⟩ | ⟨f, hf, heq⟩
  · rwa [heq]
  · rw [heq]
    have hclosed := (guarded.claim _ _ hf).1
    obtain ⟨-, hf⟩ := Option.ite_none_left_eq_some.mp hf
    cases hf
    cases l with
    | sleeping waiting retried =>
      obtain ⟨hone, hle, hwaits⟩ := h
      refine ⟨hone, Nat.le_succ_of_le hle, .inl ?_⟩
      rcases hwaits with hpos | ⟨rfl, hdone⟩
      · exact hpos
      · rcases hg.finished (by omega) with hopen | hdone'
        · exact absurd hopen hclosed
        · rw [hdone] at hdone'
          cases hdone'
    | woken waiting retried => exact ⟨h.1, Nat.le_succ_of_le h.2⟩
    | _ => trivial

private theorem waits_leaveOrRetry (observed : Nat) (retried : Bool) :
    (leaveOrRetry f observed retried).Waits f notifying := by
  unfold leaveOrRetry
  split <;> trivial

private theorem waits_enter {g : System Flags} (hg : Sound g) (observed : Nat) (retried : Bool) :
    (enter g.shared observed retried).Waits g.shared notifying := by
  simp only [enter]
  split
  next hopen => exact ⟨hg.one_le hopen, Nat.le_refl _, .inr ⟨rfl, hopen.2⟩⟩
  next => exact waits_leaveOrRetry _ _

private theorem waits_reenter {waiting : Nat} {retried : Bool} (h : (woken waiting retried).Waits f notifying) :
    (reenter f waiting retried).Waits f notifying := by
  simp only [reenter]
  split
  next => trivial
  next hsame =>
    split
    next => exact waits_leaveOrRetry _ _
    next hdone => exact ⟨h.1, h.2, .inr ⟨(not_ne_iff.mp hsame).symm, by simpa using hdone⟩⟩

end Launch

/-- A turn from a launch that waits leaves one that does. -/
theorem Launch.Waits.turn {g : System Flags} (hg : Sound g) {notifying : Nat} {l l' : Launch} {turn : Turn}
    (h : l.Waits g.shared notifying) (ht : l.turn g turn = some l') : l'.Waits g.shared notifying := by
  cases l <;> cases turn <;> simp only [Launch.turn, reduceCtorEq, Option.some.injEq] at ht
  case arrived.look =>
    subst ht
    split <;> trivial
  case looping.enter observed retried =>
    subst ht
    exact waits_enter hg observed retried
  case sleeping.spurious waiting retried =>
    subst ht
    exact ⟨h.1, h.2.1⟩
  case woken.reenter waiting retried =>
    subst ht
    exact waits_reenter h
  case starting.returned call observed retried =>
    obtain ⟨-, ht⟩ := Option.ite_none_right_eq_some.mp ht
    cases ht
    trivial
  case helping.help =>
    subst ht
    trivial
  case processed.next =>
    subst ht
    trivial

namespace Machine

structure Sound (m : Machine) : Prop where
  gate : Warmup.Sound m.gate
  waits : ∀ l ∈ m.launches, l.Waits m.gate.shared m.notifying

variable {m m' : Machine}

theorem sound_new : Sound {} := ⟨Warmup.sound_new, fun _ hl => absurd hl List.not_mem_nil⟩

theorem Sound.setLaunch (h : m.Sound) (i : Nat) {l : Launch} (hl : l.Waits m.gate.shared m.notifying) :
    (m.setLaunch i l).Sound := by
  refine ⟨h.gate, fun l' hl' => ?_⟩
  rcases List.mem_or_eq_of_mem_set hl' with hl' | rfl
  · exact h.waits l' hl'
  · exact hl

theorem Sound.claim (h : m.Sound) : Sound { m with gate := m.gate.claim client } :=
  ⟨h.gate.claim, fun l hl => (h.waits l hl).claim h.gate⟩

theorem Sound.start (h : m.Sound) {i : Nat} {event : ThreadStart.Event (Option Int)} (hs : m.start i event = some m')
    (hdetaches : event.detaches = true) : m'.Sound := by
  obtain ⟨gate, hgate, rfl⟩ := Option.map_eq_some_iff.mp hs
  have hsound := h.gate.start hgate hdetaches
  obtain ⟨x, f, x', hx, hm, rfl⟩ := System.start_cases hgate
  by_cases hexit : event = .exit
  · subst hexit
    cases hm
    exact ⟨hsound, fun l hl => (h.waits l hl).finish rfl⟩
  · by_cases hfailure : event = .failure
    · subst hfailure
      cases hm
      refine ⟨hsound, fun l hl => ?_⟩
      obtain ⟨l₀, hl₀, rfl⟩ := List.mem_map.mp (show l ∈ m.launches.map Launch.woke from hl)
      exact Launch.waits_woke (h.waits l₀ hl₀) _ rfl
    · obtain ⟨hdone, hgeneration⟩ := quiet_of_moves hm hexit hfailure
      have hkeeps : ∀ l ∈ m.launches, l.Waits f m.notifying := fun l hl => (h.waits l hl).quiet hdone hgeneration
      cases event <;> first | exact ⟨hsound, hkeeps⟩ | contradiction

theorem Sound.step {e : Event} (h : m.Sound) (hs : Warmup.step m e = some m') (hdetaches : e.detaches = true) : m'.Sound := by
  cases e with
  | launch =>
    cases hs
    refine ⟨h.gate, fun l hl => ?_⟩
    rcases List.mem_append.mp hl with hl | hl
    · exact h.waits l hl
    · rw [List.mem_singleton.mp hl]
      trivial
  | warmupAsync =>
    cases hs
    exact h.claim
  | call i =>
    obtain ⟨observed, retried, -, ⟨-, rfl⟩ | ⟨-, rfl⟩⟩ := call_cases hs
    · exact h.setLaunch i trivial
    · have hset : (m.setLaunch i (.starting m.gate.starts.length observed retried)).Sound := h.setLaunch i trivial
      exact hset.claim
  | turn i turn =>
    obtain ⟨l, l', hl, hturn, rfl⟩ := turn_cases hs
    exact h.setLaunch i ((h.waits l (List.mem_of_getElem? hl)).turn h.gate hturn)
  | start i event => exact h.start hs hdetaches
  | notify =>
    obtain ⟨-, hs⟩ := Option.ite_none_left_eq_some.mp hs
    cases hs
    refine ⟨h.gate, fun l hl => ?_⟩
    obtain ⟨l₀, hl₀, rfl⟩ := List.mem_map.mp (show l ∈ m.launches.map Launch.woke from hl)
    exact Launch.waits_woke (h.waits l₀ hl₀) _ rfl

theorem sound_of_run {events : List Event} (hdetaches : ∀ e ∈ events, e.detaches = true)
    (hrun : exec Warmup.step {} events = some m) : m.Sound := by
  have hall : Meets Warmup.step (fun _ e => e.detaches = true) {} events :=
    meets_of_forall (fun e he _ => hdetaches e he) _
  exact exec_invariant (fun m e m' h hok hs => h.step hs hok) sound_new hall hrun

end Machine

namespace Launch
variable {f : Flags}

/-- A launch leaves the loop with no generation at work. -/
theorem not_open_of_enter {observed : Nat} {retried : Bool} (h : enter f observed retried = helping) : ¬f.Open := by
  intro hopen
  simp only [enter, if_pos (show f.started = true ∧ f.done = false from hopen)] at h
  cases h

private theorem not_open_of_reenter {waiting : Nat} {retried : Bool} (h : reenter f waiting retried = helping) :
    ¬f.Open := by
  intro hopen
  simp only [reenter, hopen.2] at h
  split at h <;> cases h

private theorem not_open_of_turn {g : System Flags} {l : Launch} {turn : Turn} (h : l.turn g turn = some helping) :
    ¬g.shared.Open := by
  cases l <;> cases turn <;> simp only [Launch.turn, reduceCtorEq, Option.some.injEq] at h
  case arrived.look => split at h <;> cases h
  case looping.enter observed retried => exact not_open_of_enter h
  case woken.reenter waiting retried => exact not_open_of_reenter h
  case starting.returned call observed retried => cases (Option.ite_none_right_eq_some.mp h).2

private theorem helping_of_woke {l : Launch} (h : l.woke = helping) : l = helping := by
  cases l <;> first | rfl | cases h

end Launch

namespace Machine
variable {m m' : Machine} {i j : Nat} {l : Launch}

private theorem getElem?_setLaunch (h : (m.setLaunch j l).launches[i]? = some .helping) :
    l = .helping ∨ m.launches[i]? = some .helping := by
  simp only [setLaunch, List.getElem?_set] at h
  split at h
  · split at h
    · exact .inl (Option.some.inj h)
    · cases h
  · exact .inr h

private theorem getElem?_wakeAll (h : (m.launches.map Launch.woke)[i]? = some .helping) :
    m.launches[i]? = some .helping := by
  rw [List.getElem?_map] at h
  obtain ⟨l, hl, hwoke⟩ := Option.map_eq_some_iff.mp h
  rw [hl, Launch.helping_of_woke hwoke]

/-- Only a turn leads to the helper, and it leaves the gate as it is. -/
theorem helping_cases {e : Event} (hs : Warmup.step m e = some m') (h : m'.launches[i]? = some .helping) :
    m.launches[i]? = some .helping ∨ m'.gate = m.gate ∧ ¬m.gate.shared.Open := by
  cases e with
  | launch =>
    cases hs
    rw [List.getElem?_append] at h
    split at h
    · exact .inl h
    · cases List.mem_singleton.mp (List.mem_of_getElem? h)
  | warmupAsync =>
    cases hs
    exact .inl h
  | call j =>
    obtain ⟨observed, retried, -, ⟨-, rfl⟩ | ⟨-, rfl⟩⟩ := call_cases hs
    · rcases getElem?_setLaunch h with hl | hl
      · cases hl
      · exact .inl hl
    · rcases getElem?_setLaunch (m := m) (l := .starting m.gate.starts.length observed retried) h with hl | hl
      · cases hl
      · exact .inl hl
  | turn j turn =>
    obtain ⟨l, l', hl, hturn, rfl⟩ := turn_cases hs
    rcases getElem?_setLaunch h with rfl | hl
    · exact .inr ⟨rfl, Launch.not_open_of_turn hturn⟩
    · exact .inl hl
  | start j event =>
    obtain ⟨gate, hgate, rfl⟩ := Option.map_eq_some_iff.mp hs
    cases event with
    | failure => exact .inl (getElem?_wakeAll h)
    | _ => exact .inl h
  | notify =>
    obtain ⟨-, hs⟩ := Option.ite_none_left_eq_some.mp hs
    cases hs
    exact .inl (getElem?_wakeAll h)

/-- A generation that finished and did not give the gate back. -/
def Succeeded (m : Machine) : Prop := m.gate.shared.started = true ∧ m.gate.shared.done = true

theorem Succeeded.step {e : Event} (hsound : m.Sound) (h : m.Succeeded) (hs : Warmup.step m e = some m')
    (hdetaches : e.detaches = true) : m'.Succeeded ∧ m'.gate.starts.length = m.gate.starts.length := by
  have hclaim : m.gate.claim client = m.gate := by
    rcases System.claim_cases client m.gate with ⟨-, heq⟩ | ⟨f, hf, -⟩
    · exact heq
    · exact absurd h.1 (Option.ite_none_left_eq_some.mp hf).1
  cases e with
  | launch =>
    cases hs
    exact ⟨h, rfl⟩
  | warmupAsync =>
    cases hs
    rw [Succeeded, hclaim]
    exact ⟨h, rfl⟩
  | call i =>
    obtain ⟨observed, retried, -, ⟨-, rfl⟩ | ⟨hstarted, -⟩⟩ := call_cases hs
    · exact ⟨h, rfl⟩
    · rw [h.1] at hstarted
      cases hstarted
  | turn i turn =>
    obtain ⟨l, l', -, -, rfl⟩ := turn_cases hs
    exact ⟨h, rfl⟩
  | start i event =>
    obtain ⟨gate, hgate, rfl⟩ := Option.map_eq_some_iff.mp hs
    obtain ⟨x, f, x', hx, hm, rfl⟩ := System.start_cases hgate
    have hmem := List.mem_of_getElem? hx
    have hidle : ¬x.Busy := by
      intro hbusy
      have hopen := hsound.gate.open_iff.mpr ⟨x, hmem, hbusy⟩
      exact absurd hopen.2 (by simp [h.2])
    rcases (hsound.gate.exclusive.plain x hmem).effect (hsound.gate.exclusive.sound x hmem) hm hdetaches with
      ⟨rfl, -⟩ | ⟨hbusy, -⟩ | ⟨hbusy, -⟩
    · cases event <;> exact ⟨h, List.length_set⟩
    · exact absurd hbusy hidle
    · exact absurd hbusy hidle
  | notify =>
    obtain ⟨-, hs⟩ := Option.ite_none_left_eq_some.mp hs
    cases hs
    exact ⟨h, rfl⟩

theorem Succeeded.run {events : List Event} (hsound : m.Sound) (h : m.Succeeded)
    (hdetaches : ∀ e ∈ events, e.detaches = true) (hrun : exec Warmup.step m events = some m') :
    m'.Succeeded ∧ m'.gate.starts.length = m.gate.starts.length := by
  have hall : Meets Warmup.step (fun _ e => e.detaches = true) m events :=
    meets_of_forall (fun e he _ => hdetaches e he) _
  have hlast := exec_invariant (P := fun m₁ => m₁.Sound ∧ m₁.Succeeded ∧ m₁.gate.starts.length = m.gate.starts.length)
    (fun m₁ e m₂ ⟨hsound₁, h₁, hlength⟩ hok hs =>
      have hnext := h₁.step hsound₁ hs hok
      ⟨hsound₁.step hs hok, hnext.1, hnext.2.trans hlength⟩) ⟨hsound, h, rfl⟩ hall hrun
  exact hlast.2

end Machine

/-- Over every order of launches, calls and workers in which no detach fails: one warm-up is at work at a time; a launch
goes on to the helper only with none at work and none about to be; and behind one that succeeded there is no other. -/
theorem helper_without_warmup (events : List Event) (e : Event) (m m' : Machine)
    (hdetaches : ∀ e' ∈ events ++ [e], e'.detaches = true) (hrun : exec step {} events = some m) (hs : step m e = some m') :
    (∀ (i j : Nat) (x y : Start), m'.gate.starts[i]? = some x → m'.gate.starts[j]? = some y → x.Busy → y.Busy → i = j) ∧
      (∀ i : Nat, m'.launches[i]? = some .helping →
        m.launches[i]? = some .helping ∨ ∀ x ∈ m'.gate.starts, ¬x.Busy) ∧
      (m'.Succeeded → ∀ later m'', (∀ e' ∈ later, e'.detaches = true) → exec step m' later = some m'' →
        m''.Succeeded ∧ m''.gate.starts.length = m'.gate.starts.length) := by
  have h := Machine.sound_of_run (fun e' he' => hdetaches e' (List.mem_append_left [e] he')) hrun
  have h' := h.step hs (hdetaches e (by simp))
  refine ⟨fun _ _ _ _ hx hy => h'.gate.exclusive.sole hx hy, ?_, fun hsucceeded later m'' => hsucceeded.run h'⟩
  intro i hi
  rcases Machine.helping_cases hs hi with hbefore | ⟨hsame, hclosed⟩
  · exact .inl hbefore
  · right
    intro x hx hbusy
    rw [← hsame] at hclosed
    exact hclosed (h'.gate.open_iff.mpr ⟨x, hx, hbusy⟩)

/-- Two launches meet a first generation that fails; the one that wakes first claims the second, and the other joins it. -/
def retriedWarmup : List Event :=
  [.launch, .launch, .turn 0 .look, .call 0, .start 0 (.create false), .start 0 (.detach false false), .turn 0 .returned,
    .turn 0 .enter, .turn 1 .look, .turn 1 .enter, .start 0 (.body (some 1)), .start 0 .exit, .notify, .turn 0 .reenter,
    .call 0, .start 1 (.create false), .turn 1 .reenter, .turn 1 .enter, .start 1 (.body (some 0)), .start 1 .exit, .notify]

/-- The second launch is awake, in front of the lock. -/
def joinedWarmup : Machine where
  gate :=
    ⟨⟨true, true, false, 2⟩,
      [{ stage := .returned true, object := .released false, worker := .gone, exits := 1 },
        { stage := .detaching, object := .owned true, worker := .gone, exits := 1 }]⟩
  launches := [.starting 1 1 true, .woken 2 true]

theorem helper_without_warmup_retried : List.Forall (¬ThreadStart.Start.Busy ·) joinedWarmup.gate.starts := by
  have hrun : exec step {} retriedWarmup = some joinedWarmup := by decide
  have hs : step joinedWarmup (.turn 1 .reenter) = some (joinedWarmup.setLaunch 1 .helping) := by decide
  have h := helper_without_warmup retriedWarmup (.turn 1 .reenter) _ _ (by decide) hrun hs
  rcases h.2.1 1 rfl with hbefore | hidle
  · exact absurd hbefore (by decide)
  · exact List.forall_iff_forall_mem.mpr hidle

end SlsteamMoon.Warmup
