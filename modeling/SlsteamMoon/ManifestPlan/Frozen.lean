import SlsteamMoon.ManifestPlan.Redirect

/-! The leaf freezes a decision per depot and planned gid, the planner of the
same pair consumes it. When every step leaves outstanding decisions alone, the
planner forwards what its leaf forwarded. -/
namespace SlsteamMoon.ManifestPlan

open Runs

/-- The leaf forwarded `gid` and the planner has not decided yet. -/
def Outstanding (pair : Pair) (gid : Gid) : Prop :=
  pair.leaf = .returned gid ∧ (pair.planner = none ∨ pair.planner = some .lookup)

/-- How far a pair is, and what the plan states hold for it. -/
inductive Progress (plans : PlanStates) (pair : Pair) : Prop
  | leafRunning (running : ∀ gid, pair.leaf ≠ .returned gid) (idle : pair.planner = none)
  | outstanding (gid : Gid) (awaited : Outstanding pair gid) (frozen : frozenOf plans pair.key = some gid)
  | agreed (gid : Gid) (leaf : pair.leaf = .returned gid) (planner : pair.planner = some (.returned gid))

/-- Every outstanding decision is the frozen one. -/
def Decided (s : State) : Prop := ∀ n pair, s.pairs n = some pair → Progress s.world.plans pair

/-- No other pair is outstanding on the key. -/
def Alone (s : State) (n : Nat) (key : PlanKey) : Prop :=
  ∀ m other gid, m ≠ n → s.pairs m = some other → Outstanding other gid → other.key ≠ key

/-- No outstanding decision is past its time to live. -/
def Fresh (s : State) : Prop :=
  ∀ n pair gid, s.pairs n = some pair → Outstanding pair gid →
    ∀ state, s.world.plans pair.key = some state → ¬ Expired s.world.now state

/-- The step neither consumes or overwrites the decision of another pair nor
prunes one that is still awaited. -/
def Undisturbed (s : State) : Event → Prop
  | .advance n .leaf _ => ∀ pair, s.pairs n = some pair →
      (pair.leaf = .planBudget → Fresh s) ∧ ∀ gid, pair.leaf = .freeze gid → Alone s n pair.key
  | .advance n .planner _ => ∀ pair, s.pairs n = some pair →
      pair.planner = some .lookup → Alone s n pair.key
  | .registered key _ => key.depotId ≠ 0 ∧ key.gid ≠ 0 → Fresh s
  | _ => True

theorem Progress.frame {plans plans' : PlanStates} {pair : Pair} (h : Progress plans pair)
    (hframe : ∀ gid, Outstanding pair gid → frozenOf plans' pair.key = frozenOf plans pair.key) :
    Progress plans' pair := by
  cases h with
  | leafRunning hrun hidle => exact .leafRunning hrun hidle
  | outstanding gid ho hf => exact .outstanding gid ho ((hframe gid ho).trans hf)
  | agreed gid hl hp => exact .agreed gid hl hp

/-- A change of the world that keeps the outstanding decisions. -/
theorem Decided.setWorld {s : State} (h : Decided s) {w : World}
    (hframe : ∀ n pair gid, s.pairs n = some pair → Outstanding pair gid →
      frozenOf w.plans pair.key = frozenOf s.world.plans pair.key) : Decided (s.setWorld w) := by
  intro n pair hpair
  exact (h n pair hpair).frame fun gid ho => hframe n pair gid hpair ho

theorem Decided.setPair {s : State} (h : Decided s) {n : Nat} {pair : Pair}
    (hpair : Progress s.world.plans pair) : Decided (s.setPair n pair) := by
  intro m other hother
  rw [State.pairs_setPair] at hother
  split at hother
  · rw [← Option.some.inj hother]
    exact hpair
  · exact h m other hother

/-- Pruning while every outstanding decision is fresh keeps them all. -/
theorem Fresh.frozenOf_prune {s : State} (h : Fresh s) {n : Nat} {pair : Pair} {gid : Gid}
    (hpair : s.pairs n = some pair) (ho : Outstanding pair gid) :
    frozenOf (prunePlanStates s.world.now s.world.plans) pair.key = frozenOf s.world.plans pair.key :=
  ManifestPlan.frozenOf_prune fun state hstate => h n pair gid hpair ho state hstate

/-- One access of a running leaf. -/
theorem decided_leaf {s : State} (h : Decided s) {n : Nat} {pair : Pair} (hpair : s.pairs n = some pair)
    {w : World} {phase : Phase} (hm : Moves false pair.key s.world w pair.leaf phase)
    (hfresh : pair.leaf = .planBudget → Fresh s)
    (halone : ∀ gid, pair.leaf = .freeze gid → Alone s n pair.key) :
    Decided ((s.setWorld w).setPair n { pair with leaf := phase }) := by
  have hidle : (∀ gid, pair.leaf ≠ .returned gid) → pair.planner = none := by
    intro hrun
    cases h n pair hpair with
    | leafRunning _ hidle => exact hidle
    | outstanding gid ho => exact absurd ho.1 (hrun gid)
    | agreed gid hl => exact absurd hl (hrun gid)
  obtain ⟨appId, key, leaf, planner⟩ := pair
  dsimp only at hm hidle hfresh halone ⊢
  cases hm with
  | reused gid hfound hfrozen =>
    have hsame : ∀ k, frozenOf w.plans k = frozenOf s.world.plans k := by simpa using hfrozen
    refine (h.setWorld fun _ _ _ _ _ => hsame _).setPair ?_
    exact .outstanding gid ⟨rfl, Or.inl (hidle (fun _ => Phase.noConfusion))⟩ ((hsame key).trans hfound)
  | froze gid hfrozen =>
    intro m other hother
    rw [State.pairs_setPair] at hother
    by_cases hmn : m = n
    · rw [if_pos hmn] at hother
      rw [← Option.some.inj hother]
      exact .outstanding gid ⟨rfl, Or.inl (hidle (fun _ => Phase.noConfusion))⟩ (by simpa using hfrozen key)
    · rw [if_neg hmn] at hother
      refine (h m other hother).frame fun g ho => ?_
      have hkey : other.key ≠ key := halone gid rfl m other g hmn hother ho
      simpa [hkey] using hfrozen other.key
  | budgeted waitMs hfrozen =>
    refine (h.setWorld fun m other gid hother ho => ?_).setPair ?_
    · exact (hfrozen other.key).trans ((hfresh rfl).frozenOf_prune hother ho)
    · exact .leafRunning (fun _ => Phase.noConfusion) (hidle (fun _ => Phase.noConfusion))
  | inside _ _ _ hentered hrun hfrozen =>
    refine (h.setWorld fun _ _ _ _ _ => hfrozen _).setPair ?_
    exact .leafRunning hrun (hidle hentered)

/-- One access of a planner: its lookup finds the decision its leaf froze. -/
theorem decided_planner {s : State} (h : Decided s) {n : Nat} {pair : Pair} (hpair : s.pairs n = some pair)
    {w : World} {before phase : Phase} (hplanner : pair.planner = some before)
    (hm : Moves true pair.key s.world w before phase)
    (halone : before = .lookup → Alone s n pair.key) :
    Decided ((s.setWorld w).setPair n { pair with planner := some phase }) := by
  cases h n pair hpair with
  | leafRunning _ hidle =>
    rw [hidle] at hplanner
    cases hplanner
  | agreed gid _ hreturned =>
    rw [hreturned] at hplanner
    cases hplanner
    cases hm with
    | inside _ _ _ hentered => exact absurd rfl (hentered gid)
  | outstanding gid ho hfrozen =>
    obtain ⟨hleaf, hnone | hlookup⟩ := ho
    · rw [hnone] at hplanner
      cases hplanner
    · rw [hlookup] at hplanner
      cases hplanner
      cases hm with
      | inside _ _ hmissed => exact absurd (hfrozen.symm.trans (hmissed rfl)) (Option.some_ne_none gid)
      | reused found hfound hconsumed =>
        obtain rfl : gid = found := Option.some.inj (hfrozen.symm.trans hfound)
        intro m other hother
        rw [State.pairs_setPair] at hother
        by_cases hmn : m = n
        · rw [if_pos hmn] at hother
          rw [← Option.some.inj hother]
          exact .agreed gid hleaf rfl
        · rw [if_neg hmn] at hother
          refine (h m other hother).frame fun g ho => ?_
          have hkey : other.key ≠ pair.key := halone rfl m other g hmn hother ho
          simpa [hkey] using hconsumed other.key

/-- An undisturbed step keeps every outstanding decision. -/
theorem step_decided {scope : Scope} {s t : State} {e : Event} (h : Decided s) (hok : Undisturbed s e)
    (hstep : step scope s e = some t) : Decided t := by
  cases e with
  | hkProcessDepot n appId key =>
    simp only [step, Option.ite_none_right_eq_some, Option.some.injEq] at hstep
    obtain ⟨-, rfl⟩ := hstep
    exact h.setPair (.leafRunning (fun _ => Phase.noConfusion) rfl)
  | hkPrepareDepot n =>
    simp only [step] at hstep
    split at hstep
    · next appId key gid hpair =>
      obtain rfl := Option.some.inj hstep
      apply h.setPair
      cases h n _ hpair with
      | leafRunning hrun => exact absurd rfl (hrun gid)
      | outstanding g ho hf => exact .outstanding g ⟨ho.1, Or.inr rfl⟩ hf
      | agreed g _ hp => cases hp
    · cases hstep
  | advance n side io =>
    simp only [step, Option.bind_eq_some_iff] at hstep
    obtain ⟨pair, hpair, hstep⟩ := hstep
    cases side with
    | leaf =>
      obtain ⟨⟨w, phase⟩, hnext, rfl⟩ := Option.map_eq_some_iff.mp hstep
      obtain ⟨hfresh, halone⟩ := hok pair hpair
      exact decided_leaf h hpair (redirectStep_moves hnext) hfresh halone
    | planner =>
      obtain ⟨before, hplanner, hstep⟩ := Option.bind_eq_some_iff.mp hstep
      obtain ⟨⟨w, phase⟩, hnext, rfl⟩ := Option.map_eq_some_iff.mp hstep
      refine decided_planner h hpair hplanner (redirectStep_moves hnext) ?_
      rintro rfl
      exact hok pair hpair hplanner
  | registered key deadline =>
    obtain rfl := Option.some.inj hstep
    refine h.setWorld fun n pair gid hpair ho => ?_
    by_cases hkey : key.depotId ≠ 0 ∧ key.gid ≠ 0
    · rw [frozenOf_registerPlanTarget _ _ _ _ hkey]
      exact (hok hkey).frozenOf_prune hpair ho
    · have hskip : key.depotId = 0 ∨ key.gid = 0 := by
        by_contra hne
        exact hkey (not_or.mp hne)
      simp only [registerPlanTarget, if_pos hskip]
  | published key archived =>
    obtain rfl := Option.some.inj hstep
    exact h.setWorld fun _ _ _ _ _ => rfl
  | purged key =>
    obtain rfl := Option.some.inj hstep
    exact h.setWorld fun _ _ _ _ _ => rfl
  | elapsed ms =>
    obtain rfl := Option.some.inj hstep
    exact h.setWorld fun _ _ _ _ _ => rfl

/-- In a run of undisturbed steps the planner of every pair forwards the gid
its leaf forwarded. -/
theorem run_planner_forwards_leaf (scope : Scope) (w : World) {es : List Event} {t : State}
    (hok : Meets (step scope) Undisturbed (initial w) es) (hrun : exec (step scope) (initial w) es = some t)
    {n : Nat} {pair : Pair} (hpair : t.pairs n = some pair) {leafGid plannerGid : Gid}
    (hleaf : pair.leaf = .returned leafGid) (hplanner : pair.planner = some (.returned plannerGid)) :
    plannerGid = leafGid := by
  have hinit : Decided (initial w) := fun n pair hpair => by cases hpair
  have hdecided := exec_invariant (fun s e t hs hok hstep => step_decided hs hok hstep) hinit hok hrun
  cases hdecided n pair hpair with
  | leafRunning hrun => exact absurd hleaf (hrun leafGid)
  | outstanding gid ho =>
    obtain hnone | hlookup := ho.2
    · rw [hnone] at hplanner
      cases hplanner
    · rw [hlookup] at hplanner
      cases hplanner
  | agreed gid hl hp =>
    rw [hl] at hleaf
    rw [hp] at hplanner
    cases hleaf
    cases hplanner
    rfl

/-- No pair but `n` was ever called. -/
def Only (n : Nat) (s : State) : Prop := ∀ m, m ≠ n → s.pairs m = none

/-- The events of one plan with one depot: its calls, the files and the clock. -/
def ofPair (n : Nat) : Event → Prop
  | .hkProcessDepot m _ _ => m = n
  | .hkPrepareDepot m => m = n
  | .advance m _ _ => m = n
  | .registered _ _ => False
  | _ => True

private theorem only_setPair {n : Nat} {s : State} (h : Only n s) (pair : Pair) : Only n (s.setPair n pair) := by
  intro m hm
  rw [State.pairs_setPair, if_neg hm]
  exact h m hm

private theorem step_only {scope : Scope} {n : Nat} {s t : State} {e : Event} (h : Only n s) (he : ofPair n e)
    (hstep : step scope s e = some t) : Only n t := by
  cases e with
  | hkProcessDepot m appId key =>
    obtain rfl : m = n := he
    simp only [step, Option.ite_none_right_eq_some, Option.some.injEq] at hstep
    obtain ⟨-, rfl⟩ := hstep
    exact only_setPair h _
  | hkPrepareDepot m =>
    obtain rfl : m = n := he
    simp only [step] at hstep
    split at hstep
    · obtain rfl := Option.some.inj hstep
      exact only_setPair h _
    · cases hstep
  | advance m side io =>
    obtain rfl : m = n := he
    simp only [step, Option.bind_eq_some_iff] at hstep
    obtain ⟨pair, -, hstep⟩ := hstep
    cases side with
    | leaf =>
      obtain ⟨next, -, rfl⟩ := Option.map_eq_some_iff.mp hstep
      exact only_setPair h _
    | planner =>
      obtain ⟨before, -, hstep⟩ := Option.bind_eq_some_iff.mp hstep
      obtain ⟨next, -, rfl⟩ := Option.map_eq_some_iff.mp hstep
      exact only_setPair h _
  | registered key deadline => exact he.elim
  | published key archived =>
    obtain rfl := Option.some.inj hstep
    exact h
  | purged key =>
    obtain rfl := Option.some.inj hstep
    exact h
  | elapsed ms =>
    obtain rfl := Option.some.inj hstep
    exact h

/-- A pair on its own is never disturbed, however long it takes. -/
theorem undisturbed_of_only {n : Nat} {s : State} {e : Event} (h : Only n s) (he : ofPair n e) :
    Undisturbed s e := by
  have halone : ∀ key, Alone s n key := by
    intro key m other gid hm hother
    rw [h m hm] at hother
    cases hother
  cases e with
  | advance m side io =>
    obtain rfl : m = n := he
    cases side with
    | leaf =>
      intro pair hpair
      refine ⟨fun hbudget k other gid hother ho => ?_, fun _ _ => halone pair.key⟩
      by_cases hk : k = m
      · rw [hk, hpair] at hother
        rw [← Option.some.inj hother, Outstanding, hbudget] at ho
        cases ho.1
      · rw [h k hk] at hother
        cases hother
    | planner => exact fun pair _ _ => halone pair.key
  | registered key deadline => exact he.elim
  | _ => trivial

private theorem meets_ofPair (scope : Scope) (w : World) {n : Nat} {es : List Event} (h : ∀ e ∈ es, ofPair n e) :
    Meets (step scope) Undisturbed (initial w) es :=
  meets_of_preserved (fun _ _ _ hs he hstep => step_only hs he hstep)
    (fun _ _ hs he => undisturbed_of_only hs he) (fun _ _ => rfl) h

/-- One depot in scope and unpinned. -/
def openScope : Scope := ⟨true, true, fun _ _ => 0, fun _ _ => true⟩

/-- The store holds gid 7 of every depot as its last observed one; nothing is
staged. -/
def fallbackWorld : World where
  now := 1
  plans := fun _ => none
  files := ⟨fun _ => [], fun _ => [7], fun _ => 7⟩
  offline := fun _ => false

def plannedKey : PlanKey := ⟨100, 5⟩

/-- A leaf whose fetch does not arrive in time and which falls back to gid 7. -/
def leafFallsBack (n : Nat) : List Event :=
  .hkProcessDepot n 10 plannedKey ::
    [true, true, true, true, false, true, true, true, true, true, true].map (Event.advance n .leaf)

/-- The fetch completes and the clock passes the time to live between the two
calls of one pair. -/
def slowPlan : List Event :=
  leafFallsBack 1 ++ [.published plannedKey true, .elapsed 150000, .hkPrepareDepot 1, .advance 1 .planner true]

/-- The planner of the slow plan still forwards the fallback. -/
theorem slow_planner_forwards_fallback :
    ∃ t pair plannerGid, exec (step openScope) (initial fallbackWorld) slowPlan = some t ∧
      t.pairs 1 = some pair ∧ pair.leaf = .returned 7 ∧ pair.planner = some (.returned plannerGid) ∧
      plannerGid = 7 := by
  have hone : ∀ e ∈ slowPlan, ofPair 1 e := by
    simp [slowPlan, leafFallsBack, ofPair]
  refine ⟨_, _, 7, rfl, rfl, rfl, rfl, ?_⟩
  exact run_planner_forwards_leaf openScope fallbackWorld (meets_ofPair openScope fallbackWorld hone) rfl
    (n := 1) rfl rfl rfl

/-- Two plans share the depot and the planned gid: both leaves forward the
fallback, the first planner consumes the decision, the fetch completes, and the
second planner forwards the exact gid. -/
theorem second_planner_forwards_exact :
    ∃ t pair, exec (step openScope) (initial fallbackWorld)
        (leafFallsBack 1 ++ [.hkProcessDepot 2 10 plannedKey, .advance 2 .leaf true, .hkPrepareDepot 1,
          .advance 1 .planner true, .published plannedKey true, .hkPrepareDepot 2, .advance 2 .planner true,
          .advance 2 .planner true, .advance 2 .planner true, .advance 2 .planner true,
          .advance 2 .planner true]) = some t ∧
      t.pairs 2 = some pair ∧ pair.leaf = .returned 7 ∧ pair.planner = some (.returned 5) :=
  ⟨_, _, rfl, rfl, rfl, rfl⟩

end SlsteamMoon.ManifestPlan
