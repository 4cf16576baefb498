import SlsteamMoon.ManifestDonor.Posts

/-! Where the sweep of the donor goes: one inversion for every event of its machine. -/
namespace SlsteamMoon.ManifestDonor

/-- The steps of runCycle. -/
def Event.ofSweep : Event → Bool
  | .beginCycle | .wantedEntries _ | .cycleTop | .batch _ | .tests _ | .head _ | .before _ | .request | .answer _
  | .afterAnswer | .endCycle _ => true
  | _ => false

/-- The steps of runCycle at which the counter is read or changed. -/
def Event.ofBudget : Event → Bool
  | .beginCycle | .tests _ | .request | .afterAnswer => true
  | _ => false

namespace CyclePhase

/-- The limits have been tested, and what the test allowed is not over. -/
def passed : CyclePhase → Bool
  | .head _ | .before _ | .requesting _ | .requested _ _ | .answered _ _ _ => true
  | _ => false

/-- A request has been issued. -/
def asked : CyclePhase → Bool
  | .requested _ _ | .answered _ _ _ => true
  | _ => false

end CyclePhase

/-- Where the sweep goes with an event. -/
inductive Goes : Event → Option CyclePhase → Option CyclePhase → Prop
  | stays {e p} (h : e.ofSweep = false) : Goes e p p
  | notReady : Goes .beginCycle none none
  | begins : Goes .beginCycle none (some .entered)
  | returns {answer} : Goes (.wantedEntries answer) (some .entered) none
  | enters {answer} : Goes (.wantedEntries answer) (some .entered) (some .top)
  | cycleTop {p} (h : p = .ending ∨ p = .batching) : Goes .cycleTop (some .top) (some p)
  | batch {due} : Goes (.batch due) (some .batching) (some .tests)
  | tests {goOn p} (h : p.asked = false) : Goes (.tests goOn) (some .tests) (some p)
  | head {archived wanted p} (h : p = .top ∨ p = .before wanted) :
      Goes (.head archived) (some (.head wanted)) (some p)
  | before {enabled wanted p} (h : p = .ending ∨ p = .requesting wanted) :
      Goes (.before enabled) (some (.before wanted)) (some p)
  | request {wanted generation} : Goes .request (some (.requesting wanted)) (some (.requested wanted generation))
  | answer {wanted generation code} :
      Goes (.answer code) (some (.requested wanted generation)) (some (.answered wanted generation code))
  | afterAnswer {wanted generation code p} (h : p = .ending ∨ p = .top) :
      Goes .afterAnswer (some (.answered wanted generation code)) (some p)
  | endCycle {running} : Goes (.endCycle running) (some .ending) none

namespace Goes

variable {e : Event} {p q : Option CyclePhase}

/-- Only the tests let a sweep pass. -/
theorem passed_before (h : Goes e p q) (he : e.ofBudget = false) (hq : q.any CyclePhase.passed = true) :
    p.any CyclePhase.passed = true := by
  cases h with
  | stays _ => exact hq
  | cycleTop h => obtain rfl | rfl := h <;> cases hq
  | head _ => rfl
  | before _ => rfl
  | answer => rfl
  | returns => cases hq
  | enters => cases hq
  | batch => cases hq
  | endCycle => cases hq
  | _ => cases he

/-- A request is issued by one event and over with another. -/
theorem asked_eq (h : Goes e p q) (he : e.ofBudget = false) :
    q.any CyclePhase.asked = p.any CyclePhase.asked := by
  cases h with
  | cycleTop h => obtain rfl | rfl := h <;> rfl
  | head h => obtain rfl | rfl := h <;> rfl
  | before h => obtain rfl | rfl := h <;> rfl
  | notReady => cases he
  | begins => cases he
  | tests _ => cases he
  | request => cases he
  | afterAnswer _ => cases he
  | _ => rfl

theorem passed_of_asked (h : p.any CyclePhase.asked = true) : p.any CyclePhase.passed = true := by
  obtain _ | phase := p
  · cases h
  · cases phase <;> first | rfl | cases h

theorem of_beginCycle (h : Goes .beginCycle p q) :
    q.any CyclePhase.passed = false ∧ p.any CyclePhase.asked = false ∧ q.any CyclePhase.asked = false := by
  cases h with
  | stays h => cases h
  | notReady => exact ⟨rfl, rfl, rfl⟩
  | begins => exact ⟨rfl, rfl, rfl⟩

theorem of_tests {goOn : Bool} (h : Goes (.tests goOn) p q) :
    p.any CyclePhase.asked = false ∧ q.any CyclePhase.asked = false := by
  cases h with
  | stays h => cases h
  | tests h => exact ⟨rfl, h⟩

theorem of_request (h : Goes .request p q) :
    p.any CyclePhase.passed = true ∧ p.any CyclePhase.asked = false ∧ q.any CyclePhase.asked = true := by
  cases h with
  | stays h => cases h
  | request => exact ⟨rfl, rfl, rfl⟩

theorem of_afterAnswer (h : Goes .afterAnswer p q) :
    p.any CyclePhase.passed = true ∧ p.any CyclePhase.asked = true ∧
      q.any CyclePhase.passed = false ∧ q.any CyclePhase.asked = false := by
  cases h with
  | stays h => cases h
  | afterAnswer h => obtain rfl | rfl := h <;> exact ⟨rfl, rfl, rfl, rfl⟩

end Goes

namespace Machine

variable {m t : Machine} {e : Event}

def phase (m : Machine) : Option CyclePhase := m.worker.cycle.map Cycle.phase

private theorem goes_of_cycle (hcycle : t.worker.cycle = m.worker.cycle) (he : e.ofSweep = false) :
    Goes e m.phase t.phase := by
  rw [show t.phase = m.phase by rw [phase, phase, hcycle]]
  exact .stays he

private theorem flushStep_goes {flush : Flush} (h : m.flushStep flush e = some t) : Goes e m.phase t.phase := by
  cases e with
  | callFlush =>
    obtain ⟨-, h⟩ := Option.ite_none_right_eq_some.mp h
    cases h
    exact goes_of_cycle rfl rfl
  | look =>
    obtain ⟨-, h⟩ := Option.ite_none_right_eq_some.mp h
    cases h
    exact goes_of_cycle rfl rfl
  | readConfig enabled =>
    obtain ⟨-, h⟩ := Option.ite_none_right_eq_some.mp h
    cases enabled <;> cases h <;> exact goes_of_cycle rfl rfl
  | refreshWanted answer =>
    obtain ⟨-, h⟩ := Option.ite_none_right_eq_some.mp h
    cases answer <;> cases h <;> exact goes_of_cycle rfl rfl
  | readOwnership =>
    cases flush <;> simp only [flushStep, reduceCtorEq] at h
    obtain ⟨-, h⟩ := Option.ite_none_right_eq_some.mp h
    cases h
    exact goes_of_cycle rfl rfl
  | swap =>
    cases flush <;> cases h
    exact goes_of_cycle rfl rfl
  | callSubmit =>
    cases flush <;> cases h
    exact goes_of_cycle rfl rfl
  | putBack =>
    cases flush <;> cases h
    exact goes_of_cycle rfl rfl
  | _ => cases h

private theorem entryStep_goes {cycle : Cycle} (hcycle : m.worker.cycle = some cycle)
    (h : m.entryStep cycle e = some t) : Goes e m.phase t.phase := by
  have hphase : m.phase = some cycle.phase := by rw [phase, hcycle, Option.map_some]
  rw [hphase]
  cases e with
  | tests goOn =>
    simp only [entryStep] at h
    split at h
    · rename_i wanted rest hp hrest
      rw [hp]
      split_ifs at h <;> cases h <;> exact .tests rfl
    · cases h
  | head archived =>
    simp only [entryStep] at h
    split at h
    · rename_i wanted hp
      rw [hp]
      cases h
      cases archived
      · exact .head (.inr rfl)
      · exact .head (.inl rfl)
    · cases h
  | before enabled =>
    simp only [entryStep] at h
    split at h
    · rename_i wanted hp
      rw [hp]
      split_ifs at h <;> cases h
      · exact .before (.inl rfl)
      · exact .before (.inr rfl)
    · cases h
  | request =>
    simp only [entryStep] at h
    split at h
    · rename_i wanted hp
      rw [hp]
      cases h
      exact .request
    · cases h
  | answer code =>
    simp only [entryStep] at h
    split at h
    · rename_i wanted generation hp
      rw [hp]
      cases h
      exact .answer
    · cases h
  | afterAnswer =>
    simp only [entryStep] at h
    split at h
    · rename_i wanted generation code hp
      rw [hp]
      split_ifs at h <;> cases h
      · exact .afterAnswer (.inl rfl)
      · exact .afterAnswer (.inr rfl)
      · exact .afterAnswer (.inr rfl)
    · cases h
  | _ => cases h

private theorem cycleStep_goes {cycle : Cycle} (hcycle : m.worker.cycle = some cycle)
    (h : m.cycleStep cycle e = some t) : Goes e m.phase t.phase := by
  have hphase : m.phase = some cycle.phase := by rw [phase, hcycle, Option.map_some]
  cases e with
  | wantedEntries answer =>
    obtain ⟨hp, h⟩ := Option.ite_none_right_eq_some.mp h
    rw [hphase, hp]
    cases answer with
    | none =>
      cases h
      exact .returns
    | some entries =>
      dsimp only at h
      split_ifs at h <;> cases h
      · exact .returns
      · exact .enters
  | cycleTop =>
    obtain ⟨hp, h⟩ := Option.ite_none_right_eq_some.mp h
    rw [hphase, hp]
    split at h <;> cases h
    · exact .cycleTop (.inl rfl)
    · exact .cycleTop (.inr rfl)
  | batch due =>
    obtain ⟨hp, h⟩ := Option.ite_none_right_eq_some.mp h
    rw [hphase, hp]
    cases due <;> cases h <;> exact .batch
  | endCycle running =>
    obtain ⟨hp, h⟩ := Option.ite_none_right_eq_some.mp h
    rw [hphase, hp]
    cases h
    exact .endCycle
  | _ => exact entryStep_goes hcycle h

private theorem turn_goes (h : m.Turn e t) : Goes e m.phase t.phase := by
  cases h with
  | flush _ h => exact flushStep_goes h
  | sweep _ _ hcycle h => exact cycleStep_goes hcycle h

private theorem act_goes (h : m.act e = some t) : Goes e m.phase t.phase := by
  cases e with
  | observePackage packageId available contents =>
    obtain ⟨-, h⟩ := Option.ite_none_right_eq_some.mp h
    cases h
    exact goes_of_cycle rfl rfl
  | onLicenseList message =>
    obtain ⟨-, h⟩ := Option.ite_none_right_eq_some.mp h
    cases h
    exact goes_of_cycle rfl rfl
  | onLoggedOff =>
    obtain ⟨-, h⟩ := Option.ite_none_right_eq_some.mp h
    cases h
    exact goes_of_cycle rfl rfl
  | publishSession =>
    obtain ⟨under, -, rfl⟩ := Option.map_eq_some_iff.mp h
    cases under <;> exact goes_of_cycle rfl rfl
  | clearCaptured =>
    obtain ⟨-, h⟩ := Option.ite_none_left_eq_some.mp h
    cases h
    exact goes_of_cycle rfl rfl
  | submitCapturedCode depotId gid code generation enabled seen =>
    cases h
    have hworker := (m.submitCapturedCode_frame depotId gid code generation enabled seen).1
    exact goes_of_cycle (congrArg Worker.cycle hworker) rfl
  | tick ms =>
    cases h
    exact goes_of_cycle rfl rfl
  | beginCycle =>
    obtain ⟨hfree, h⟩ := Option.ite_none_right_eq_some.mp h
    have hnone : m.phase = none := by rw [phase, hfree.2, Option.map_none]
    cases h
    split_ifs
    · rw [hnone]
      exact .begins
    · rw [hnone]
      exact .notReady
  | post running enabled =>
    obtain ⟨s, -, rfl⟩ := Option.map_eq_some_iff.mp h
    refine goes_of_cycle ?_ rfl
    rw [post]
    split_ifs <;> rfl
  | callFlush => exact turn_goes (turn_of_act h)
  | look => exact turn_goes (turn_of_act h)
  | readConfig enabled => exact turn_goes (turn_of_act h)
  | refreshWanted answer => exact turn_goes (turn_of_act h)
  | readOwnership => exact turn_goes (turn_of_act h)
  | swap => exact turn_goes (turn_of_act h)
  | callSubmit => exact turn_goes (turn_of_act h)
  | putBack => exact turn_goes (turn_of_act h)
  | wantedEntries answer => exact turn_goes (turn_of_act h)
  | cycleTop => exact turn_goes (turn_of_act h)
  | batch due => exact turn_goes (turn_of_act h)
  | tests goOn => exact turn_goes (turn_of_act h)
  | head archived => exact turn_goes (turn_of_act h)
  | before enabled => exact turn_goes (turn_of_act h)
  | request => exact turn_goes (turn_of_act h)
  | answer code => exact turn_goes (turn_of_act h)
  | afterAnswer => exact turn_goes (turn_of_act h)
  | endCycle running => exact turn_goes (turn_of_act h)

/-- Each step moves the sweep as its event says. -/
theorem step_goes (h : m.step e = some t) : Goes e m.phase t.phase := by
  obtain ⟨u, hact, rfl⟩ := Option.map_eq_some_iff.mp h
  have hgoes : Goes e m.phase u.phase := act_goes hact
  exact hgoes

end Machine

end SlsteamMoon.ManifestDonor
