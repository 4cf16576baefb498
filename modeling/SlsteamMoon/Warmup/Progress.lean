import Mathlib.Algebra.GroupWithZero.Nat
import SlsteamMoon.Warmup.Waiting

/-! A launch that sleeps is woken as soon as the threads go on, and the launches bound the number of warm-ups. -/
namespace SlsteamMoon.Warmup
open Runs FairRuns ThreadStart

/-- The events by which a busy call comes to its end. -/
def isWork : ThreadStart.Event (Option Int) → Bool
  | .create _ | .failure | .body _ | .exit => true
  | _ => false

/-- How many of them are still to come. -/
def workLeft (x : Start) : Nat :=
  if x.stage = .creating then 3
  else if x.stage = .failing then 1
  else if x.worker = .running then 2
  else if x.worker = .exiting then 1
  else 0

/-- A step of a busy call is work and leaves less, or it leaves the call busy and as much. -/
theorem workLeft_step {f f' : Flags} {x x' : Start} {event : ThreadStart.Event (Option Int)} (hplain : x.Plain)
    (hsound : x.Sound) (hbusy : x.Busy) (hm : x.Moves client f event f' x') (hdetaches : event.detaches = true) :
    isWork event = true ∧ workLeft x' < workLeft x ∨ isWork event = false ∧ x'.Busy ∧ workLeft x' = workLeft x := by
  have hunborn := hsound.unborn
  have hcreating := hsound.creating
  have hstopped := hsound.stopped
  cases hm with
  | createFails hstage => exact .inl ⟨rfl, by simp [workLeft, hstage]⟩
  | created hstage => exact .inl ⟨rfl, by simp [workLeft, hstage]⟩
  | detached hstage joinable => exact .inr ⟨rfl, by simpa [Start.Busy, hstage] using hbusy, by simp [workLeft, hstage]⟩
  | failed hstage =>
    obtain ⟨hworker, -⟩ := hstopped (.inl hstage)
    refine .inl ⟨rfl, ?_⟩
    cases hkind : x.worker <;> simp_all [workLeft, Worker.alive]
  | body hworker result =>
    refine .inl ⟨rfl, ?_⟩
    by_cases hstage : x.stage = .creating ∨ x.stage = .failing
    · rcases hstage with hstage | hstage <;> simp_all [Worker.alive]
    · simp_all [workLeft]
  | exit hworker =>
    refine .inl ⟨rfl, ?_⟩
    by_cases hstage : x.stage = .creating ∨ x.stage = .failing
    · rcases hstage with hstage | hstage <;> simp_all [Worker.alive]
    · simp_all [workLeft]
  | detachFails _ _ => cases hdetaches
  | _ => exact absurd hplain (by simp_all [Start.Plain])

namespace Machine
variable {m m' : Machine} {i : Nat} {waiting : Nat} {retried : Bool}

/-- The events that wake a launch. -/
def Wakes (i : Nat) (e : Event) : Prop := e = .notify ∨ e = .turn i .spurious ∨ ∃ k, e = .start k .failure

private theorem woken_of_wakes {e : Event} (hl : m.launches[i]? = some (.sleeping waiting retried))
    (hs : Warmup.step m e = some m') (he : Wakes i e) : m'.launches[i]? = some (.woken waiting retried) := by
  rcases he with rfl | rfl | ⟨k, rfl⟩
  · obtain ⟨-, hs⟩ := Option.ite_none_left_eq_some.mp hs
    cases hs
    show (m.launches.map Launch.woke)[i]? = _
    rw [List.getElem?_map, hl]
    rfl
  · obtain ⟨l, l', hl', hturn, rfl⟩ := turn_cases hs
    obtain rfl := Option.some.inj (hl.symm.trans hl')
    cases hturn
    exact List.getElem?_set_self (List.getElem?_eq_some_iff.mp hl).1
  · obtain ⟨gate, -, rfl⟩ := Option.map_eq_some_iff.mp hs
    show (m.launches.map Launch.woke)[i]? = _
    rw [List.getElem?_map, hl]
    rfl

private theorem sleeping_of_not_wakes {e : Event} (hl : m.launches[i]? = some (.sleeping waiting retried))
    (hs : Warmup.step m e = some m') (he : ¬Wakes i e) : m'.launches[i]? = some (.sleeping waiting retried) := by
  have hother {j : Nat} {l : Launch} (hne : j ≠ i) : (m.setLaunch j l).launches[i]? = some (.sleeping waiting retried) := by
    rw [setLaunch, List.getElem?_set_ne hne]
    exact hl
  cases e with
  | launch =>
    cases hs
    rw [List.getElem?_append_left (List.getElem?_eq_some_iff.mp hl).1]
    exact hl
  | warmupAsync =>
    cases hs
    exact hl
  | call j =>
    obtain ⟨observed, retried', hl', hcases⟩ := call_cases hs
    have hne : j ≠ i := by
      rintro rfl
      cases hl.symm.trans hl'
    rcases hcases with ⟨-, rfl⟩ | ⟨-, rfl⟩
    · exact hother hne
    · exact hother (l := .starting m.gate.starts.length observed retried') hne
  | turn j turn =>
    obtain ⟨l, l', hl', hturn, rfl⟩ := turn_cases hs
    have hne : j ≠ i := by
      rintro rfl
      obtain rfl := Option.some.inj (hl.symm.trans hl')
      cases turn <;> simp only [Launch.turn, reduceCtorEq] at hturn
      exact he (.inr (.inl rfl))
    exact hother hne
  | start k event =>
    obtain ⟨gate, -, rfl⟩ := Option.map_eq_some_iff.mp hs
    cases event with
    | failure => exact absurd (.inr (.inr ⟨k, rfl⟩)) he
    | _ => exact hl
  | notify => exact absurd (.inl rfl) he

/-- A call is only changed by its own steps. -/
theorem starts_of_other {e : Event} {k : Nat} {x : Start} (hx : m.gate.starts[k]? = some x)
    (hs : Warmup.step m e = some m') (he : ∀ event, e ≠ .start k event) : m'.gate.starts[k]? = some x := by
  have hclaim : (m.gate.claim client).starts[k]? = some x := by
    rcases System.claim_cases client m.gate with ⟨-, heq⟩ | ⟨f, -, heq⟩
    · rw [heq]
      exact hx
    · rw [heq]
      show (m.gate.starts ++ _)[k]? = _
      rw [List.getElem?_append_left (List.getElem?_eq_some_iff.mp hx).1]
      exact hx
  cases e with
  | launch =>
    cases hs
    exact hx
  | warmupAsync =>
    cases hs
    exact hclaim
  | call j =>
    obtain ⟨observed, retried, -, ⟨-, rfl⟩ | ⟨-, rfl⟩⟩ := call_cases hs
    · exact hx
    · exact hclaim
  | turn j turn =>
    obtain ⟨l, l', -, -, rfl⟩ := turn_cases hs
    exact hx
  | start j event =>
    have hne : j ≠ k := by
      rintro rfl
      exact he event rfl
    obtain ⟨gate, hgate, rfl⟩ := Option.map_eq_some_iff.mp hs
    obtain ⟨y, f, y', -, -, rfl⟩ := System.start_cases hgate
    have hset : (m.gate.starts.set j y')[k]? = some x := by
      rw [List.getElem?_set_ne hne]
      exact hx
    cases event <;> exact hset
  | notify =>
    obtain ⟨-, hs⟩ := Option.ite_none_left_eq_some.mp hs
    cases hs
    exact hx

private theorem notifying_of_other {e : Event} (hs : Warmup.step m e = some m') (he : e ≠ .notify) :
    m.notifying ≤ m'.notifying := by
  cases e with
  | launch | warmupAsync =>
    cases hs
    exact Nat.le_refl _
  | call j =>
    obtain ⟨observed, retried, -, ⟨-, rfl⟩ | ⟨-, rfl⟩⟩ := call_cases hs <;> exact Nat.le_refl _
  | turn j turn =>
    obtain ⟨l, l', -, -, rfl⟩ := turn_cases hs
    exact Nat.le_refl _
  | start j event =>
    obtain ⟨gate, -, rfl⟩ := Option.map_eq_some_iff.mp hs
    cases event <;> first | exact Nat.le_succ _ | exact Nat.le_refl _
  | notify => exact absurd rfl he

/-- A step of a busy call, and the notify that an exit leaves. -/
theorem work_cases {k : Nat} {x : Start} {event : ThreadStart.Event (Option Int)} (h : m.Sound)
    (hx : m.gate.starts[k]? = some x) (hbusy : x.Busy) (hs : Warmup.step m (.start k event) = some m')
    (hdetaches : event.detaches = true) :
    (∃ x', m'.gate.starts[k]? = some x' ∧
        (isWork event = true ∧ workLeft x' < workLeft x ∨ isWork event = false ∧ x'.Busy ∧ workLeft x' = workLeft x) ∧
        (x'.Busy ∨ m'.notifying ≠ 0 ∨ event = .failure)) := by
  obtain ⟨gate, hgate, rfl⟩ := Option.map_eq_some_iff.mp hs
  obtain ⟨y, f, x', hy, hm, rfl⟩ := System.start_cases hgate
  obtain rfl := Option.some.inj (hx.symm.trans hy)
  have hmem := List.mem_of_getElem? hx
  have hleft := workLeft_step (h.gate.exclusive.plain x hmem) (h.gate.exclusive.sound x hmem) hbusy hm hdetaches
  have hset : (m.gate.starts.set k x')[k]? = some x' := List.getElem?_set_self (List.getElem?_eq_some_iff.mp hx).1
  refine ⟨x', ?_, hleft, ?_⟩
  · cases event <;> exact hset
  · cases hm with
    | createFails _ => exact .inl (.inr (.inl rfl))
    | created _ => exact .inl (.inr (.inr rfl))
    | body _ _ => exact .inl (.inr (.inr rfl))
    | exit _ => exact .inr (.inl (Nat.succ_ne_zero _))
    | failed _ => exact .inr (.inr rfl)
    | _ =>
      rcases hleft with ⟨hwork, -⟩ | ⟨-, hbusy', -⟩
      · cases hwork
      · exact .inl hbusy'

end Machine

/-- The scheduler: no detach fails, a notify that is under way arrives, and a call that is busy gets on with its work. -/
structure Scheduled (r : Endless step) : Prop where
  starts : r.state 0 = {}
  detaches : ∀ n e, r.event n = some e → e.detaches = true
  notifies : r.Fair (fun m => m.notifying ≠ 0) (fun e => e = .notify)
  works : ∀ k, r.Fair (fun m => ∃ x, m.gate.starts[k]? = some x ∧ x.Busy)
    (fun e => ∃ event, e = .start k event ∧ isWork event = true)

namespace Scheduled
variable {r : Endless step} {n i waiting : Nat} {retried : Bool}

theorem sound (h : Scheduled r) (n : Nat) : (r.state n).Sound :=
  r.holds_of_events h.detaches (fun _ _ _ hs hok hstep => hs.step hstep hok) (by rw [h.starts]; exact Machine.sound_new) n

private theorem wakes_now {m : Nat} {e : Event} (hl : (r.state m).launches[i]? = some (.sleeping waiting retried))
    (hevent : r.event m = some e) (he : Machine.Wakes i e) :
    (r.state (m + 1)).launches[i]? = some (.woken waiting retried) :=
  Machine.woken_of_wakes hl (r.steps m e hevent) he

/-- With a notify under way. -/
theorem wakes_of_notifying (h : Scheduled r) (hl : (r.state n).launches[i]? = some (.sleeping waiting retried))
    (hn : (r.state n).notifying ≠ 0) : ∃ m, n ≤ m ∧ (r.state m).launches[i]? = some (.woken waiting retried) := by
  obtain ⟨m, hm, ⟨hl', -⟩, e, hevent, he⟩ := r.happens_of_lasts
    (P := fun m => m.launches[i]? = some (.sleeping waiting retried) ∧ m.notifying ≠ 0) (K := Machine.Wakes i) h.sound
    (h.notifies.mono (fun _ hs => hs.2) (fun e he => .inl he))
    (fun s e t _ hs hother hstep => by
      have hmore := Machine.notifying_of_other hstep fun heq => hother (.inl heq)
      exact ⟨Machine.sleeping_of_not_wakes hs.1 hstep hother, by omega⟩) ⟨hl, hn⟩
  exact ⟨m + 1, by omega, wakes_now hl' hevent he⟩

/-- With a call at work; the induction is on what is left of it. -/
theorem wakes_of_busy (h : Scheduled r) {k : Nat} {x : Start}
    (hl : (r.state n).launches[i]? = some (.sleeping waiting retried)) (hx : (r.state n).gate.starts[k]? = some x)
    (hbusy : x.Busy) : ∃ m, n ≤ m ∧ (r.state m).launches[i]? = some (.woken waiting retried) := by
  generalize hleft : workLeft x = left
  induction left using Nat.strong_induction_on generalizing n x with
  | h left ih =>
    let atWork (m : Machine) : Prop := m.launches[i]? = some (.sleeping waiting retried) ∧
      ∃ x, m.gate.starts[k]? = some x ∧ x.Busy ∧ workLeft x = left
    let ends (e : Event) : Prop := Machine.Wakes i e ∨ e.detaches = false ∨ ∃ event, e = .start k event ∧ isWork event = true
    have hlasts : ∀ s e t, Machine.Sound s → atWork s → ¬ends e → step s e = some t → atWork t := by
      rintro s e t hsound ⟨hls, y, hy, hybusy, hyleft⟩ hother hstep
      refine ⟨Machine.sleeping_of_not_wakes hls hstep fun he => hother (.inl he), ?_⟩
      by_cases hstart : ∃ event, e = .start k event
      · obtain ⟨event, rfl⟩ := hstart
        have hdetaches : event.detaches = true := by
          by_contra hfails
          exact hother (.inr (.inl (show event.detaches = false by simpa using hfails)))
        obtain ⟨y', hy', ⟨hwork, -⟩ | ⟨-, hybusy', hsame⟩, -⟩ := Machine.work_cases hsound hy hybusy hstep hdetaches
        · exact absurd (.inr (.inr ⟨event, rfl, hwork⟩)) hother
        · exact ⟨y', hy', hybusy', hsame.trans hyleft⟩
      · exact ⟨y, Machine.starts_of_other hy hstep fun event heq => hstart ⟨event, heq⟩, hybusy, hyleft⟩
    have hfair : r.Fair atWork ends :=
      (h.works k).mono (fun _ hs => ⟨hs.2.choose, hs.2.choose_spec.1, hs.2.choose_spec.2.1⟩) fun _ he => .inr (.inr he)
    obtain ⟨m, hm, ⟨hlm, y, hy, hybusy, hyleft⟩, e, hevent, he⟩ := r.happens_of_lasts h.sound hfair hlasts ⟨hl, x, hx, hbusy, hleft⟩
    have hdetaches := h.detaches m e hevent
    have hstep := r.steps m e hevent
    by_cases hwakes : Machine.Wakes i e
    · exact ⟨m + 1, by omega, wakes_now hlm hevent hwakes⟩
    · have hlm' := Machine.sleeping_of_not_wakes hlm hstep hwakes
      rcases he with he | he | ⟨event, rfl, hwork⟩
      · exact absurd he hwakes
      · rw [hdetaches] at he
        cases he
      · obtain ⟨y', hy', ⟨-, hless⟩ | ⟨hidle, -⟩, hafter⟩ := Machine.work_cases (h.sound m) hy hybusy hstep hdetaches
        · rcases hafter with hybusy' | hnotifying | rfl
          · obtain ⟨l, hl, hwoken⟩ := ih (workLeft y') (by omega) hlm' hy' hybusy' rfl
            exact ⟨l, by omega, hwoken⟩
          · obtain ⟨l, hl, hwoken⟩ := h.wakes_of_notifying hlm' hnotifying
            exact ⟨l, by omega, hwoken⟩
          · exact absurd (.inr (.inr ⟨k, rfl⟩)) hwakes
        · rw [hwork] at hidle
          cases hidle

/-- Every launch that sleeps. -/
theorem wakes (h : Scheduled r) (hl : (r.state n).launches[i]? = some (.sleeping waiting retried)) :
    ∃ m, n ≤ m ∧ (r.state m).launches[i]? = some (.woken waiting retried) := by
  have hsound := h.sound n
  obtain ⟨hone, -, hwaits⟩ := hsound.waits _ (List.mem_of_getElem? hl)
  by_cases hn : (r.state n).notifying = 0
  · obtain ⟨rfl, hdone⟩ : waiting = (r.state n).gate.shared.generation ∧ (r.state n).gate.shared.done = false := by
      rcases hwaits with hpos | hcurrent
      · omega
      · exact hcurrent
    obtain ⟨x, hx, hbusy⟩ := hsound.gate.open_iff.mp <| by
      rcases hsound.gate.finished (by omega) with hopen | hdone'
      · exact hopen
      · rw [hdone] at hdone'
        cases hdone'
    obtain ⟨k, hk⟩ := List.mem_iff_getElem?.mp hx
    exact h.wakes_of_busy hl hk hbusy
  · exact h.wakes_of_notifying hl hn

end Scheduled

/-- How many generations a launch may still claim for the executable it stands at. -/
def Launch.claimsLeft : Launch → Nat
  | arrived => 2
  | calling _ retried => if retried then 1 else 2
  | starting _ _ retried | looping _ retried | sleeping _ retried | woken _ retried => if retried then 0 else 1
  | helping | processed => 0

/-- What an event adds to that. -/
def Event.claims : Event → Nat
  | launch | turn _ .next => 2
  | warmupAsync => 1
  | _ => 0

private theorem Launch.claimsLeft_woke (l : Launch) : l.woke.claimsLeft = l.claimsLeft := by
  cases l <;> rfl

private theorem Launch.claimsLeft_leaveOrRetry (f : Flags) (observed : Nat) (retried : Bool) :
    (leaveOrRetry f observed retried).claimsLeft ≤ if retried then 0 else 1 := by
  unfold leaveOrRetry
  split
  next h => simp [h.2, claimsLeft]
  next => simp [claimsLeft]

private theorem Launch.claimsLeft_enter (f : Flags) (observed : Nat) (retried : Bool) :
    (enter f observed retried).claimsLeft ≤ if retried then 0 else 1 := by
  have hmore (b : Bool) : (if (if b then true else retried) then 0 else 1) ≤ if retried then 0 else 1 := by
    cases b <;> cases retried <;> decide
  have hchanged := hmore (f.generation ≠ if observed = 0 then f.generation else observed)
  simp only [decide_eq_true_eq] at hchanged
  simp only [enter]
  split
  · exact hchanged
  · exact Nat.le_trans (claimsLeft_leaveOrRetry _ _ _) hchanged

private theorem Launch.claimsLeft_reenter (f : Flags) (waiting : Nat) (retried : Bool) :
    (reenter f waiting retried).claimsLeft ≤ if retried then 0 else 1 := by
  simp only [reenter]
  split
  · exact Nat.zero_le _
  · split
    · exact claimsLeft_leaveOrRetry _ _ _
    · exact Nat.le_refl _

private theorem Launch.claimsLeft_turn {g : System Flags} {l l' : Launch} {turn : Turn} (h : l.turn g turn = some l')
    (i : Nat) : l'.claimsLeft ≤ l.claimsLeft + (Event.turn i turn).claims := by
  cases l <;> cases turn <;> simp only [Launch.turn, reduceCtorEq, Option.some.injEq] at h
  case arrived.look =>
    subst h
    split
    · exact Nat.le_succ 1
    · exact Nat.le_refl 2
  case looping.enter observed retried =>
    subst h
    exact claimsLeft_enter _ _ _
  case sleeping.spurious waiting retried =>
    subst h
    exact Nat.le_refl _
  case woken.reenter waiting retried =>
    subst h
    exact claimsLeft_reenter _ _ _
  case starting.returned call observed retried =>
    cases (Option.ite_none_right_eq_some.mp h).2
    exact Nat.le_refl _
  case helping.help =>
    subst h
    exact Nat.le_refl _
  case processed.next =>
    subst h
    exact Nat.le_refl _

/-- The total of a list behind the change of one entry. -/
theorem sum_map_set {α : Type} (f : α → Nat) {l : List α} {i : Nat} {x y : α} (h : l[i]? = some x) :
    ((l.set i y).map f).sum + f x = (l.map f).sum + f y := by
  induction l generalizing i with
  | nil => cases h
  | cons z l ih =>
    cases i with
    | zero =>
      cases h
      simp only [List.set_cons_zero, List.map_cons, List.sum_cons]
      omega
    | succ i =>
      have := ih h
      simp only [List.set_cons_succ, List.map_cons, List.sum_cons]
      omega

namespace Machine
variable {m m' : Machine}

/-- The generations claimed and those that may be. -/
def claimed (m : Machine) : Nat := m.gate.starts.length + (m.launches.map Launch.claimsLeft).sum

private theorem length_claim (g : System Flags) : (g.claim client).starts.length ≤ g.starts.length + 1 := by
  rcases System.claim_cases client g with ⟨-, heq⟩ | ⟨f, -, heq⟩ <;> rw [heq] <;> simp

private theorem claimed_step {e : Event} (hs : Warmup.step m e = some m') : m'.claimed ≤ m.claimed + e.claims := by
  cases e with
  | launch =>
    cases hs
    simp [claimed, Event.claims, Launch.claimsLeft]
    omega
  | warmupAsync =>
    cases hs
    have := length_claim m.gate
    simp only [claimed, Event.claims]
    omega
  | call i =>
    obtain ⟨observed, retried, hl, hcases⟩ := call_cases hs
    have hretried : (if retried then 1 else 2) = (if retried then 0 else 1) + 1 := by cases retried <;> rfl
    rcases hcases with ⟨-, rfl⟩ | ⟨-, rfl⟩
    · have := sum_map_set Launch.claimsLeft (y := .looping observed retried) hl
      simp only [claimed, setLaunch, Event.claims, Launch.claimsLeft] at this ⊢
      omega
    · have := sum_map_set Launch.claimsLeft (y := .starting m.gate.starts.length observed retried) hl
      have := length_claim m.gate
      simp only [claimed, setLaunch, Event.claims, Launch.claimsLeft] at *
      omega
  | turn i turn =>
    obtain ⟨l, l', hl, hturn, rfl⟩ := turn_cases hs
    have := sum_map_set Launch.claimsLeft (y := l') hl
    have := Launch.claimsLeft_turn hturn i
    simp only [claimed, setLaunch] at *
    omega
  | start i event =>
    obtain ⟨gate, hgate, rfl⟩ := Option.map_eq_some_iff.mp hs
    obtain ⟨x, f, x', -, -, rfl⟩ := System.start_cases hgate
    have hwoke : (m.launches.map Launch.woke).map Launch.claimsLeft = m.launches.map Launch.claimsLeft := by
      rw [List.map_map]
      exact List.map_congr_left fun l _ => l.claimsLeft_woke
    cases event <;> simp [claimed, wakeAll, hwoke, -List.map_map]
  | notify =>
    obtain ⟨-, hs⟩ := Option.ite_none_left_eq_some.mp hs
    cases hs
    have hwoke : (m.launches.map Launch.woke).map Launch.claimsLeft = m.launches.map Launch.claimsLeft := by
      rw [List.map_map]
      exact List.map_congr_left fun l _ => l.claimsLeft_woke
    simp [claimed, wakeAll, hwoke, -List.map_map]

private theorem claimed_run {events : List Event} (hrun : exec Warmup.step m events = some m') :
    m'.claimed ≤ m.claimed + (events.map Event.claims).sum := by
  induction events generalizing m with
  | nil =>
    cases hrun
    simp
  | cons e events ih =>
    obtain ⟨m₁, hs, hrest⟩ := Option.bind_eq_some_iff.mp hrun
    have := claimed_step hs
    have := ih hrest
    simp only [List.map_cons, List.sum_cons]
    omega

end Machine

/-- In a run whose threads go on and whose detaches succeed, every launch that sleeps on the condition variable is woken;
and in every run, fair or not, there are in all at most two warm-ups for each executable that a launch stands at, the one it
opens and its retry, and one for each call from outside. -/
theorem launch_wakes (r : Endless step) (h : Scheduled r) :
    (∀ (n i waiting : Nat) (retried : Bool), (r.state n).launches[i]? = some (.sleeping waiting retried) →
        ∃ m, n ≤ m ∧ (r.state m).launches[i]? = some (.woken waiting retried)) ∧
      ∀ events m, exec step {} events = some m → m.gate.starts.length ≤ (events.map Event.claims).sum := by
  refine ⟨fun n i waiting retried => h.wakes, fun events m hrun => ?_⟩
  have hclaimed := Machine.claimed_run hrun
  have hnone : ({} : Machine).claimed = 0 := rfl
  have hle : m.gate.starts.length ≤ m.claimed := Nat.le_add_right _ _
  omega

private theorem retriedWarmup_run : exec step {} retriedWarmup = some joinedWarmup := by decide

private theorem scheduled_retriedWarmup :
    Scheduled (Endless.finite step {} joinedWarmup retriedWarmup retriedWarmup_run) where
  starts := Endless.finite_zero _ _ _ _
  detaches := by
    intro n e hevent
    have hall : ∀ e ∈ retriedWarmup, e.detaches = true := by decide
    exact hall e (List.mem_of_getElem? hevent)
  notifies := Endless.finite_fair _ (by decide)
  works := by
    intro k
    apply Endless.finite_fair
    rintro ⟨x, hx, hbusy⟩
    rcases k with _ | _ | k
    · cases hx
      exact absurd hbusy (by simp [Start.Busy, Worker.alive])
    · cases hx
      exact absurd hbusy (by simp [Start.Busy, Worker.alive])
    · cases hx

theorem launch_wakes_retried :
    ∃ m, 8 ≤ m ∧ ((Endless.finite step {} joinedWarmup retriedWarmup retriedWarmup_run).state m).launches[0]? =
      some (.woken 1 false) :=
  (launch_wakes _ scheduled_retriedWarmup).1 8 0 1 false (by decide)

end SlsteamMoon.Warmup
