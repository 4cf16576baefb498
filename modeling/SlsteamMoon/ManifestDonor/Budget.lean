import SlsteamMoon.ManifestDonor.Sweep

/-! The budget of the sweep. runCycle counts the codes that it requests in a session and
stops at a limit of the settings; the machine of the donor runs with the counter beside it. -/
namespace SlsteamMoon.ManifestDonor

/-- The limits that a call of runCycle is given. -/
structure Limits where
  maxMintsPerCycle : UInt32 := 25
  maxMintsPerSession : UInt32 := 0
  deriving DecidableEq, Repr

/-- What the worker has left to do with the counter: the test at the head of runCycle and
before each entry, or the count after an answer. -/
inductive Tally
  | idle
  | reads
  | counts
  deriving DecidableEq, Repr

/-- `newSession` is the local of onLicenseList. From `session` on it is history: the limit of
each request since the login, the newest first, and whether the request under way is one of
these. -/
structure Minting where
  machine : Machine := {}
  mintedThisSession : UInt32 := 0
  limits : Limits := {}
  attempted : UInt32 := 0
  newSession : Bool := false
  tally : Tally := .idle
  session : Option (List UInt32) := none
  ours : Bool := false
  deriving DecidableEq

inductive Move
  | login
  | cycle (limits : Limits)
  | readMinted
  | count
  | does (e : Event)

/-- The events of other threads, and the clock. -/
def Event.ofCaller : Event → Bool
  | .observePackage _ _ _ | .onLicenseList _ | .onLoggedOff | .publishSession | .clearCaptured
  | .submitCapturedCode _ _ _ _ _ _ | .tick _ => true
  | _ => false

/-- The sweep returns before its loop, or breaks out of it. -/
def Machine.stopSweep (m : Machine) : Machine :=
  match m.worker.cycle with
  | some cycle =>
    if cycle.phase = .entered then { m with worker.cycle := none } else m.setCycle { cycle with phase := .ending }
  | none => m

namespace Minting
open Runs

/-- The session has used up its limit. -/
def spent (s : Minting) : Bool :=
  s.limits.maxMintsPerSession != 0 && decide (s.limits.maxMintsPerSession ≤ s.mintedThisSession)

/-- The generation and the session are still those of the cycle. -/
def current (s : Minting) : Bool := s.machine.worker.cycle.any fun cycle => s.machine.stillIn cycle.snap

/-- The section under g_ownedMutex that is under way sets the counter back. -/
def resets (s : Minting) : Bool :=
  match s.machine.updating with
  | some .loggedOff => true
  | some (.licenseList _) => s.newSession
  | none => false

def does (s : Minting) : Event → Option Minting
  | .onLicenseList message =>
    (s.machine.step (.onLicenseList message)).map fun machine =>
      { s with machine, newSession := !s.machine.own.licenseReady }
  | .onLoggedOff => (s.machine.step .onLoggedOff).map fun machine => { s with machine, session := none, ours := false }
  | .publishSession =>
    (s.machine.step .publishSession).map fun machine =>
      { s with machine, mintedThisSession := if s.resets then 0 else s.mintedThisSession }
  | .tests goOn =>
    (s.machine.step (.tests (goOn && decide (s.attempted < s.limits.maxMintsPerCycle)))).map fun machine =>
      { s with machine, tally := .reads }
  | .request =>
    (s.machine.step .request).map fun machine =>
      { s with
        machine
        session := s.session.map (s.limits.maxMintsPerSession :: ·)
        ours := s.session.isSome }
  | .answer code =>
    (s.machine.step (.answer code)).map fun machine => { s with machine, attempted := s.attempted + 1 }
  | .afterAnswer =>
    (s.machine.step .afterAnswer).map fun machine =>
      if s.current then { s with machine, tally := .counts } else { s with machine, ours := false }
  | .beginCycle => none
  | e => (s.machine.step e).map fun machine => { s with machine }

/-- The account logs in only when it is logged off. A call of runCycle brings the limits,
and the worker reads and counts before it goes on. -/
def step (s : Minting) : Move → Option Minting
  | .login =>
    if s.session = none ∧ s.machine.updating = none then some { s with session := some [], ours := false } else none
  | .cycle limits =>
    if s.tally = .idle then
      (s.machine.step .beginCycle).map fun machine =>
        { s with machine, limits, attempted := 0, tally := if machine.worker.cycle = none then .idle else .reads }
    else none
  | .readMinted =>
    if s.tally = .reads then
      some { s with machine := if s.spent then s.machine.stopSweep else s.machine, tally := .idle }
    else none
  | .count =>
    if s.tally = .counts then
      some { s with mintedThisSession := s.mintedThisSession + 1, tally := .idle, ours := false }
    else none
  | .does e => if s.tally = .idle ∨ e.ofCaller = true then s.does e else none

/-- Where every request since the login was made under a limit of at most `M`, there are at
most `M` of them. -/
def WithinBudget (s : Minting) : Prop :=
  ∀ requests ∈ s.session, ∀ M : UInt32, (∀ l ∈ requests, l ≠ 0 ∧ l ≤ M) → requests.length ≤ M.toNat

/-- Every request of the session is counted: it comes back in the generation and the session
of its cycle, and the counter is not set back once there are requests. -/
def Counted (s : Minting) : Move → Prop
  | .does .afterAnswer => s.ours = true → s.current = true
  | .does .publishSession => s.resets = true → ∀ requests ∈ s.session, requests = []
  | _ => True

instance (s : Minting) : (move : Move) → Decidable (s.Counted move)
  | .does e => by
    cases e <;> unfold Counted <;> infer_instance
  | .login => .isTrue trivial
  | .cycle _ => .isTrue trivial
  | .readMinted => .isTrue trivial
  | .count => .isTrue trivial

/-- A request is out, or its answer is not counted yet. -/
def Asking (s : Minting) : Prop := s.machine.phase.any CyclePhase.asked = true ∨ s.tally = .counts

/-- What holds between two steps when every request of the session is counted. -/
structure Sound (s : Minting) : Prop where
  room : s.tally ≠ .reads → s.machine.phase.any CyclePhase.passed = true ∨ s.tally = .counts → s.spent = false
  reading : s.tally = .reads → s.machine.phase.any CyclePhase.asked = false
  counting : s.tally = .counts → s.machine.phase.any CyclePhase.passed = false
  asking : s.ours = true → s.Asking
  newest : s.ours = true → ∃ older, s.session = some (s.limits.maxMintsPerSession :: older)
  others : s.Asking → s.ours = false → ∀ requests ∈ s.session, requests = []
  counted : ∀ requests ∈ s.session, (∀ l ∈ requests, l ≠ 0) →
    requests.length ≤ s.mintedThisSession.toNat + s.ours.toNat
  within : s.WithinBudget

variable {s t : Minting} {move : Move}

private theorem withinBudget_of_empty (h : ∀ requests ∈ s.session, requests = []) : s.WithinBudget := by
  intro requests hrequests M _
  rw [h requests hrequests]
  exact Nat.zero_le _

/-- The room that the limit leaves, in numbers. -/
theorem lt_of_room (h : s.spent = false) (hlimit : s.limits.maxMintsPerSession ≠ 0) :
    s.mintedThisSession.toNat < s.limits.maxMintsPerSession.toNat := by
  simp only [spent, bne_iff_ne, ne_eq, hlimit, not_false_iff, Bool.and_eq_false_imp, decide_eq_false_iff_not,
    forall_const] at h
  exact UInt32.lt_iff_toNat_lt.mp (UInt32.not_le.mp h)

/-- Events away from the counter leave what is known of it. -/
theorem Sound.carried (h : s.Sound) {e : Event} {machine : Machine} (he : e.ofBudget = false)
    (hgoes : Goes e s.machine.phase machine.phase) (attempted : UInt32) (newSession : Bool) :
    Sound { s with machine, attempted, newSession } := by
  have hasking : Asking { s with machine, attempted, newSession } ↔ s.Asking := by
    simp only [Asking, hgoes.asked_eq he]
  exact
    { room := fun hreads hpassed => h.room hreads (hpassed.imp_left (hgoes.passed_before he))
      reading := fun hreads => (hgoes.asked_eq he).trans (h.reading hreads)
      counting := fun hcounts => by
        have hbefore := h.counting hcounts
        by_contra hpassed
        rw [hgoes.passed_before he (eq_true_of_ne_false hpassed)] at hbefore
        cases hbefore
      asking := fun hours => hasking.mpr (h.asking hours)
      newest := h.newest
      others := fun hasks => h.others (hasking.mp hasks)
      counted := h.counted
      within := h.within }

/-- Between its steps the worker is asking only in the phases of a request. -/
theorem ours_of_not_asked (h : s.Sound) (htally : s.tally ≠ .counts)
    (hasked : s.machine.phase.any CyclePhase.asked = false) : s.ours = false := by
  by_contra hours
  obtain hphase | hcounts := h.asking (eq_true_of_ne_false hours)
  · rw [hasked] at hphase
    cases hphase
  · exact htally hcounts

private theorem not_asking (htally : s.tally ≠ .counts) (hasked : s.machine.phase.any CyclePhase.asked = false) :
    ¬ s.Asking := by
  rintro (hphase | hcounts)
  · rw [hasked] at hphase
    cases hphase
  · exact htally hcounts

/-- A request is issued only where the limit leaves room for one more. -/
theorem request_sound (h : s.Sound) (htally : s.tally = .idle) (hstep : s.does .request = some t) : t.Sound := by
  obtain ⟨machine, hmachine, rfl⟩ := Option.map_eq_some_iff.mp hstep
  obtain ⟨hpassed, hbefore, hafter⟩ := (Machine.step_goes hmachine).of_request
  have hidle : s.tally ≠ .counts := by simp [htally]
  have hours : s.ours = false := ours_of_not_asked h hidle hbefore
  have hroom : s.spent = false := h.room (by simp [htally]) (.inl hpassed)
  have hcounted : ∀ requests ∈ s.session, (∀ l ∈ requests, l ≠ 0) →
      requests.length ≤ s.mintedThisSession.toNat := by
    simpa [hours] using h.counted
  refine
    { room := fun _ _ => hroom
      reading := fun hreads => ?_
      counting := fun hcounts => absurd hcounts hidle
      asking := fun _ => .inl hafter
      newest := fun hsome => ?_
      others := fun _ hnone requests hrequests => ?_
      counted := fun requests hrequests hlimits => ?_
      within := fun requests hrequests M hlimits => ?_ }
  · rw [htally] at hreads
    cases hreads
  · obtain ⟨older, holder⟩ := Option.isSome_iff_exists.mp hsome
    exact ⟨older, by rw [holder, Option.map_some]⟩
  · obtain ⟨older, holder, -⟩ := Option.map_eq_some_iff.mp hrequests
    rw [holder] at hnone
    cases hnone
  · obtain ⟨older, holder, rfl⟩ := Option.map_eq_some_iff.mp hrequests
    have holds := hcounted older holder fun l hl => hlimits l (List.mem_cons_of_mem _ hl)
    rw [holder]
    exact Nat.succ_le_succ holds
  · obtain ⟨older, holder, rfl⟩ := Option.map_eq_some_iff.mp hrequests
    have holds := hcounted older holder fun l hl => (hlimits l (List.mem_cons_of_mem _ hl)).1
    obtain ⟨hlimit, hle⟩ := hlimits _ List.mem_cons_self
    have hlt : s.mintedThisSession.toNat < s.limits.maxMintsPerSession.toNat := lt_of_room hroom hlimit
    exact Nat.le_trans (Nat.succ_le_of_lt (Nat.lt_of_le_of_lt holds hlt)) (UInt32.le_iff_toNat_le.mp hle)

/-- An answer of the session goes on to the count. -/
theorem afterAnswer_sound (h : s.Sound) (htally : s.tally = .idle) (hcounted : s.Counted (.does .afterAnswer))
    (hstep : s.does .afterAnswer = some t) : t.Sound := by
  obtain ⟨machine, hmachine, rfl⟩ := Option.map_eq_some_iff.mp hstep
  obtain ⟨hpassed, hasked, hover, hgone⟩ := (Machine.step_goes hmachine).of_afterAnswer
  have hroom : s.spent = false := h.room (by simp [htally]) (.inl hpassed)
  split_ifs with hcurrent
  · exact
      { room := fun _ _ => hroom
        reading := fun hreads => by cases hreads
        counting := fun _ => hover
        asking := fun _ => .inr rfl
        newest := h.newest
        others := fun _ => h.others (.inl hasked)
        counted := h.counted
        within := h.within }
  · have hours : s.ours = false := by
      by_contra hours
      exact hcurrent (hcounted (eq_true_of_ne_false hours))
    have hidle : s.tally ≠ .counts := by simp [htally]
    exact
      { room := fun _ _ => hroom
        reading := fun _ => hgone
        counting := fun _ => hover
        asking := fun hours => by cases hours
        newest := fun hours => by cases hours
        others := fun hasks => absurd hasks (not_asking hidle hgone)
        counted := by simpa [hours] using h.counted
        within := h.within }

/-- A section that sets the counter back finds no request of the session. -/
theorem publishSession_sound (h : s.Sound) (hcounted : s.Counted (.does .publishSession))
    (hstep : s.does .publishSession = some t) : t.Sound := by
  obtain ⟨machine, hmachine, rfl⟩ := Option.map_eq_some_iff.mp hstep
  have hcarried : Sound { s with machine } :=
    h.carried rfl (Machine.step_goes hmachine) s.attempted s.newSession
  split_ifs with hresets
  · have hempty : ∀ requests ∈ s.session, requests = [] := hcounted hresets
    exact
      { room := fun _ _ => by simp [spent]
        reading := hcarried.reading
        counting := hcarried.counting
        asking := hcarried.asking
        newest := h.newest
        others := hcarried.others
        counted := fun requests hrequests _ => by simp [hempty requests hrequests]
        within := withinBudget_of_empty hempty }
  · exact hcarried

private theorem onLoggedOff_sound (h : s.Sound) (hstep : s.does .onLoggedOff = some t) : t.Sound := by
  obtain ⟨machine, hmachine, rfl⟩ := Option.map_eq_some_iff.mp hstep
  have hcarried : Sound { s with machine } :=
    h.carried rfl (Machine.step_goes hmachine) s.attempted s.newSession
  exact
    { room := hcarried.room
      reading := hcarried.reading
      counting := hcarried.counting
      asking := fun hours => by cases hours
      newest := fun hours => by cases hours
      others := fun _ _ requests hrequests => by cases hrequests
      counted := fun requests hrequests => by cases hrequests
      within := fun requests hrequests => by cases hrequests }

private theorem tests_sound (h : s.Sound) (htally : s.tally = .idle) {goOn : Bool}
    (hstep : s.does (.tests goOn) = some t) : t.Sound := by
  obtain ⟨machine, hmachine, rfl⟩ := Option.map_eq_some_iff.mp hstep
  obtain ⟨hbefore, hafter⟩ := (Machine.step_goes hmachine).of_tests
  have hours : s.ours = false := ours_of_not_asked h (by simp [htally]) hbefore
  exact
    { room := fun hreads => absurd rfl hreads
      reading := fun _ => hafter
      counting := fun hcounts => by cases hcounts
      asking := fun hsome => by simp [hours] at hsome
      newest := h.newest
      others := fun hasks => absurd hasks (not_asking (by simp) hafter)
      counted := h.counted
      within := h.within }

private theorem does_sound (h : s.Sound) {e : Event} (hturn : s.tally = .idle ∨ e.ofCaller = true)
    (hcounted : s.Counted (.does e)) (hstep : s.does e = some t) : t.Sound := by
  have hidle (hworker : e.ofCaller ≠ true) : s.tally = .idle := hturn.resolve_right hworker
  cases e with
  | onLicenseList message =>
    obtain ⟨machine, hmachine, rfl⟩ := Option.map_eq_some_iff.mp hstep
    exact h.carried rfl (Machine.step_goes hmachine) s.attempted _
  | onLoggedOff => exact onLoggedOff_sound h hstep
  | publishSession => exact publishSession_sound h hcounted hstep
  | tests goOn => exact tests_sound h (hidle Bool.false_ne_true) hstep
  | request => exact request_sound h (hidle Bool.false_ne_true) hstep
  | answer code =>
    obtain ⟨machine, hmachine, rfl⟩ := Option.map_eq_some_iff.mp hstep
    exact h.carried rfl (Machine.step_goes hmachine) _ s.newSession
  | afterAnswer => exact afterAnswer_sound h (hidle Bool.false_ne_true) hcounted hstep
  | beginCycle => cases hstep
  | _ =>
    simp only [does, Option.map_eq_some_iff] at hstep
    obtain ⟨machine, hmachine, rfl⟩ := hstep
    exact h.carried rfl (Machine.step_goes hmachine) s.attempted s.newSession

private theorem cycle_sound (h : s.Sound) {limits : Limits} (hstep : s.step (.cycle limits) = some t) : t.Sound := by
  obtain ⟨htally, hstep⟩ := Option.ite_none_right_eq_some.mp hstep
  obtain ⟨machine, hmachine, rfl⟩ := Option.map_eq_some_iff.mp hstep
  obtain ⟨hpassed, hbefore, hafter⟩ := (Machine.step_goes hmachine).of_beginCycle
  have hours : s.ours = false := ours_of_not_asked h (by simp [htally]) hbefore
  have hidle : (if machine.worker.cycle = none then Tally.idle else .reads) ≠ .counts := by split_ifs <;> simp
  exact
    { room := fun _ hbusy => by
        obtain hbusy | hbusy := hbusy
        · rw [hpassed] at hbusy
          cases hbusy
        · exact absurd hbusy hidle
      reading := fun _ => hafter
      counting := fun hcounts => absurd hcounts hidle
      asking := fun hsome => by simp [hours] at hsome
      newest := fun hsome => by simp [hours] at hsome
      others := fun hasks => absurd hasks (not_asking hidle hafter)
      counted := h.counted
      within := h.within }

private theorem stopSweep_phase (m : Machine) :
    m.stopSweep.phase.any CyclePhase.passed = false ∧ m.stopSweep.phase.any CyclePhase.asked = false := by
  rw [Machine.stopSweep]
  split
  · split_ifs <;> exact ⟨rfl, rfl⟩
  · rename_i hnone
    rw [Machine.phase, hnone]
    exact ⟨rfl, rfl⟩

private theorem readMinted_sound (h : s.Sound) (hstep : s.step .readMinted = some t) : t.Sound := by
  obtain ⟨htally, hstep⟩ := Option.ite_none_right_eq_some.mp hstep
  have hasked := h.reading htally
  have hours : s.ours = false := ours_of_not_asked h (by simp [htally]) hasked
  cases hstep
  have hafter : (if s.spent then s.machine.stopSweep else s.machine).phase.any CyclePhase.asked = false := by
    split_ifs
    · exact (stopSweep_phase s.machine).2
    · exact hasked
  exact
    { room := fun _ hbusy => by
        by_contra hspent
        have hspent : s.spent = true := eq_true_of_ne_false hspent
        simp [hspent, (stopSweep_phase s.machine).1] at hbusy
      reading := fun hreads => by cases hreads
      counting := fun hcounts => by cases hcounts
      asking := fun hsome => by simp [hours] at hsome
      newest := fun hsome => by simp [hours] at hsome
      others := fun hasks => absurd hasks (not_asking (by simp) hafter)
      counted := h.counted
      within := h.within }

/-- The room for the request is still there when it is counted, so the counter does not
overflow. -/
theorem count_sound (h : s.Sound) (hstep : s.step .count = some t) : t.Sound := by
  obtain ⟨htally, hstep⟩ := Option.ite_none_right_eq_some.mp hstep
  cases hstep
  have hpassed := h.counting htally
  have hasked : s.machine.phase.any CyclePhase.asked = false := by
    by_contra hasked
    rw [Goes.passed_of_asked (eq_true_of_ne_false hasked)] at hpassed
    cases hpassed
  exact
    { room := fun _ hbusy => by simp [hpassed] at hbusy
      reading := fun hreads => by cases hreads
      counting := fun hcounts => by cases hcounts
      asking := fun hours => by cases hours
      newest := fun hours => by cases hours
      others := fun hasks => absurd hasks (not_asking (by simp) hasked)
      counted := fun requests hrequests hlimits => by
        cases hours : s.ours with
        | false => simp [h.others (.inr htally) hours requests hrequests]
        | true =>
          obtain ⟨older, holder⟩ := h.newest hours
          have hlimit : s.limits.maxMintsPerSession ≠ 0 := by
            cases holder.symm.trans hrequests
            exact hlimits _ List.mem_cons_self
          have hlt := lt_of_room (h.room (by simp [htally]) (.inr htally)) hlimit
          have hbound := s.limits.maxMintsPerSession.toNat_lt
          have hnext : (s.mintedThisSession + 1).toNat = s.mintedThisSession.toNat + 1 := by
            rw [UInt32.toNat_add, UInt32.toNat_one, Nat.mod_eq_of_lt (by omega)]
          have hcount := h.counted requests hrequests hlimits
          rw [hours] at hcount
          exact hnext ▸ hcount
      within := h.within }

private theorem login_sound (h : s.Sound) (hstep : s.step .login = some t) : t.Sound := by
  obtain ⟨-, hstep⟩ := Option.ite_none_right_eq_some.mp hstep
  cases hstep
  have hempty : ∀ requests ∈ (some [] : Option (List UInt32)), requests = [] :=
    fun requests hrequests => (Option.some.inj hrequests).symm
  exact
    { room := h.room
      reading := h.reading
      counting := h.counting
      asking := fun hours => by cases hours
      newest := fun hours => by cases hours
      others := fun _ _ => hempty
      counted := fun requests hrequests _ => by simp [hempty requests hrequests]
      within := withinBudget_of_empty hempty }

theorem step_sound (h : s.Sound) (hcounted : s.Counted move) (hstep : s.step move = some t) : t.Sound := by
  cases move with
  | login => exact login_sound h hstep
  | cycle limits => exact cycle_sound h hstep
  | readMinted => exact readMinted_sound h hstep
  | count => exact count_sound h hstep
  | does e =>
    obtain ⟨hturn, hstep⟩ := Option.ite_none_right_eq_some.mp hstep
    exact does_sound h hturn hcounted hstep

theorem start_sound : ({} : Minting).Sound where
  room _ hbusy := by simp [Machine.phase] at hbusy
  reading hreads := by cases hreads
  counting hcounts := by cases hcounts
  asking hours := by cases hours
  newest hours := by cases hours
  others _ _ requests hrequests := by cases hrequests
  counted := fun requests hrequests => by cases hrequests
  within := fun requests hrequests => by cases hrequests

/-- A run in which every request of a session is counted keeps the budget of each session. -/
theorem session_budget_kept (moves : List Move) (hcounted : Meets step Counted {} moves)
    (hrun : exec step {} moves = some s) : s.WithinBudget :=
  (exec_invariant (fun _ _ _ => step_sound) start_sound hcounted hrun).within

/-- A licence list of one package. -/
def arrives (eresult : Int) : List Move := [.does (.onLicenseList ⟨some eresult, [some 1]⟩), .does .publishSession]

/-- A login with its licences, and a package of one depot. -/
def openSession : List Move := .login :: arrives 1 ++ [.does (.observePackage 1 true (some ([], [7])))]

/-- A sweep with a limit of one, up to the answer of its first request. -/
def sweepOnce (meanwhile : List Move) : List Move :=
  [.cycle ⟨25, 1⟩, .readMinted, .does (.wantedEntries (some [⟨5, 7, 9⟩])), .does .cycleTop, .does .look,
    .does (.batch false), .does (.tests true), .readMinted, .does (.head false), .does (.before true),
    .does .request] ++ meanwhile ++ [.does (.answer 3), .does .look, .does .afterAnswer]

theorem session_budget_kept_once :
    (exec step {} (openSession ++ sweepOnce [] ++ [.count])).isSome = true ∧
      ∀ s, exec step {} (openSession ++ sweepOnce [] ++ [.count]) = some s → s.WithinBudget :=
  ⟨by decide +kernel, fun _ hrun => session_budget_kept _ (by decide +kernel) hrun⟩

/-- A licence list that arrives during the one request that is allowed leaves it out of the
count, and the next sweep makes a second one. -/
theorem session_budget_exceeded :
    ¬ ∀ (moves : List Move) (s : Minting), exec step {} moves = some s → s.WithinBudget := by
  intro hclaim
  have hrun : (exec step {} (openSession ++ sweepOnce (arrives 1) ++ [.does (.endCycle true)] ++ sweepOnce [])).map
      session = some (some [1, 1]) := by decide +kernel
  obtain ⟨s, hs, hsession⟩ := Option.map_eq_some_iff.mp hrun
  have hones : ∀ limit ∈ List.replicate 2 (1 : UInt32), limit ≠ 0 ∧ limit ≤ 1 := by
    intro limit hlimit
    rw [List.eq_of_mem_replicate hlimit]
    decide
  have htwo : 2 ≤ (1 : UInt32).toNat := hclaim _ s hs [1, 1] hsession 1 hones
  exact absurd htwo (by decide)

end Minting
end SlsteamMoon.ManifestDonor
