import SlsteamMoon.PackagePatch.RefreshGuard

/-! Two changes of one generation are one to a completion: a call under way forgets the
change that came after its start. -/
namespace SlsteamMoon.PackagePatch
open OwnerQueue Runs

namespace RefreshState

/-- The calls under way go on and no section applies anything. -/
def GoesOn : RefreshEvent → Bool
  | .decide _ _ _ => true
  | .completeNoChange _ => true
  | .process => true
  | .processed _ => true
  | .complete => true
  | _ => false

private theorem apart_of_goesOn {s : RefreshState} {e : RefreshEvent} (he : GoesOn e = true) : s.Apart e := by
  constructor
  · intro generation hwrites
    cases e <;> first | cases hwrites | cases he
  · rintro i cachedDepots excluded grow rfl
    cases he

section
variable {s t : RefreshState} {generation : UInt64} {start k : Nat}

private theorem completeRefresh_clears {g : Globals} (hflag : g.runtimeRefreshPending = true)
    (hgeneration : g.pendingGeneration = generation) : (g.completeRefresh generation).runtimeRefreshPending = false := by
  unfold Globals.completeRefresh
  dsimp only
  rw [if_pos ⟨hflag, hgeneration⟩]

/-- The call that found nothing to do reaches its completion section. -/
theorem noChange_completes {i : Nat} (hc : s.calls i = some ⟨generation, .noChange, start⟩) :
    exec step s [.completeNoChange i] =
      some ({ s with globals := s.globals.completeRefresh generation }.setCall i none) := by
  simp [step, hc]

private theorem chosen_completes {i : Nat} {safe : Bool}
    (hc : s.calls i = some ⟨generation, .chosen safe false, start⟩) :
    exec step s [.decide i true true, .completeNoChange i] =
      some ({ s.setCall i (some ⟨generation, .noChange, start⟩) with
        globals := s.globals.completeRefresh generation }.setCall i none) := by
  have hdecided : s.step (.decide i true true) = some (s.setCall i (some ⟨generation, .noChange, start⟩)) := by
    simp [step, hc, decideAction, LicenseRefreshPolicy.decide]
  rw [exec_cons, hdecided]
  apply noChange_completes
  rw [calls_setCall, if_pos rfl]

/-- The refresh in flight reaches its completion section. -/
theorem running_completes {stage : RunStage} (hr : s.running = some ⟨generation, stage, start⟩)
    (hflight : RunningRefresh.inFlight ⟨generation, stage, start⟩ = true) :
    ∃ more, (∀ e ∈ more, GoesOn e = true) ∧ exec step s more = some
      { s with
        globals := s.globals.completeRefresh generation
        running := some ⟨generation, .leaving, start⟩
        covered := max s.covered start } := by
  cases stage with
  | claimed => cases hflight
  | marking => exact ⟨[.process, .processed true, .complete], by simp [GoesOn], by simp [step, hr]⟩
  | processing => exact ⟨[.processed true, .complete], by simp [GoesOn], by simp [step, hr]⟩
  | completing => exact ⟨[.complete], by simp [GoesOn], by simp [step, hr]⟩
  | leaving => cases hflight

/-- A call whose generation is the pending one completes and clears the flag, whatever
was applied since it began. -/
theorem completion_forgets (hwaits : s.Awaits generation start) (hflag : s.globals.runtimeRefreshPending = true)
    (hgeneration : s.globals.pendingGeneration = generation) (hk : s.Unprocessed k) (hlt : start < k) :
    ∃ more u, (∀ e ∈ more, GoesOn e = true) ∧ exec step s more = some u ∧ ¬ u.Flagged := by
  have hcleared := completeRefresh_clears hflag hgeneration
  have hforgets : ∀ u : RefreshState, u.globals = s.globals.completeRefresh generation → u.Unprocessed k →
      ¬ u.Flagged := by
    intro u hu hk hflagged
    have hpending := hflagged k hk
    rw [hu, hcleared] at hpending
    cases hpending
  rcases hwaits with ⟨i, ⟨_, stage, _⟩, hc, hcompletes, rfl, rfl⟩ | ⟨⟨_, stage, _⟩, hr, hflight, rfl, rfl⟩
  · cases stage with
    | noChange => exact ⟨_, _, by simp [GoesOn], noChange_completes hc, hforgets _ rfl hk⟩
    | chosen safe changed =>
      have hchanged : changed = false := by simpa [RefreshCall.completes] using hcompletes
      subst hchanged
      exact ⟨_, _, by simp [GoesOn], chosen_completes hc, hforgets _ rfl hk⟩
    | late => cases hcompletes
  · obtain ⟨more, hmore, hrun⟩ := running_completes hr hflight
    exact ⟨more, _, hmore, hrun, hforgets _ rfl ⟨hk.1, Nat.max_lt.mpr ⟨hk.2, hlt⟩⟩⟩

/-- What an event that writes a generation leaves behind it. -/
structure WritesTo (s : RefreshState) (e : RefreshEvent) (generation : UInt64) (t : RefreshState) : Prop where
  pending : t.globals.pendingGeneration = generation
  flag : s.globals.runtimeRefreshPending = true ∨ s.changesPackage e = true → t.globals.runtimeRefreshPending = true
  outstanding : ∀ k, s.Outstanding e k → t.Unprocessed k
  awaits : ∀ g start, s.Awaits g start → t.Awaits g start

private theorem Awaits.transfer (h : s.Awaits generation start)
    (hcalls : ∀ i c, s.calls i = some c → c.completes = true → t.calls i = some c) (hrun : t.running = s.running) :
    t.Awaits generation start := by
  rcases h with ⟨i, c, hc, hcompletes, rfl, rfl⟩ | ⟨r, hr, hflight, rfl, rfl⟩
  · exact .call i c (hcalls i c hc hcompletes) hcompletes rfl rfl
  · exact .run r (hrun.trans hr) hflight rfl rfl

private theorem setCall_other {i j : Nat} {c : RefreshCall} {call : Option RefreshCall} (hfree : s.calls i = none)
    (hc : s.calls j = some c) : (s.setCall i call).calls j = some c := by
  rw [calls_setCall, if_neg, hc]
  rintro rfl
  rw [hfree] at hc
  cases hc

/-- A change beside a refresh in flight is numbered and unprocessed. -/
theorem record_unprocessed (h : s.covered ≤ s.changes) {changed : Bool} {k : Nat}
    (hk : s.Unprocessed k ∨ k = s.changes + 1 ∧ changed = true ∧ s.refreshing = true) :
    (s.record changed).Unprocessed k := by
  rcases hk with hold | ⟨rfl, rfl, hrefreshing⟩
  · refine ⟨?_, (record_same s changed).2.2.2.symm ▸ hold.2⟩
    unfold record
    split
    · dsimp only
      split
      · exact List.mem_cons_of_mem _ hold.1
      · exact hold.1
    · exact hold.1
  · refine ⟨?_, Nat.lt_succ_of_le h⟩
    show s.changes + 1 ∈ if s.refreshing then (s.changes + 1) :: s.during else s.during
    rw [if_pos hrefreshing]
    exact List.mem_cons_self

variable {e : RefreshEvent} {g : Globals} {desired : PackageSnapshot} {excluded : List UInt32} {grow : Option Grow}

/-- The section that goes through, with a change or a pending refresh. -/
theorem applySection_writesTo {i : Nat} {reload nested guardReady : Bool} (hfree : s.calls i = none)
    (hcovered : s.covered ≤ s.changes) (hflag : SameFlag s.globals g)
    (hwrites : applyWrites g desired excluded grow = true)
    (hchanges : s.changesPackage e = applyChanges g desired excluded grow) :
    s.WritesTo e desired.generation (s.applySection i g desired reload nested excluded grow guardReady) := by
  have hflag' := hflag.trans (applySnapshotLocked_flag g desired excluded grow)
  unfold applyWrites at hwrites
  unfold applyChanges at hchanges
  rw [hflag.flag] at hwrites
  unfold applySection
  generalize g.applySnapshotLocked desired excluded grow = applied at *
  dsimp only at hwrites hchanges ⊢
  obtain ⟨havailable, hwrites⟩ := Bool.and_eq_true_iff.mp hwrites
  rw [havailable, Bool.true_and] at hchanges
  rw [if_pos havailable]
  have hrecorded : s.WritesTo e desired.generation
      ({ s with globals := applied.1.noteApplied applied.2.changed desired.generation }.record applied.2.changed) := by
    obtain ⟨hglobals, hrunning, hcalls, -⟩ := record_same
      { s with globals := applied.1.noteApplied applied.2.changed desired.generation } applied.2.changed
    refine ⟨?_, ?_, ?_, ?_⟩
    · rw [hglobals]
      cases hchanged : applied.2.changed with
      | true => rfl
      | false =>
        rw [hchanged, Bool.false_or] at hwrites
        exact (noteApplied_unchanged applied.1 desired.generation).2 (hflag'.flag.trans hwrites)
    · rw [hglobals, hchanges]
      rintro (hpending | hchanged)
      · cases applied.2.changed with
        | true => rfl
        | false => exact ((noteApplied_unchanged applied.1 desired.generation).1.trans hflag'.flag).trans hpending
      · rw [hchanged]
        rfl
    · intro k hk
      unfold Outstanding at hk
      rw [hchanges] at hk
      exact record_unprocessed (s := { s with globals := applied.1.noteApplied applied.2.changed desired.generation })
        hcovered hk
    · intro g start hwaits
      refine hwaits.transfer (fun i c hc _ => ?_) hrunning
      rw [hcalls]
      exact hc
  split
  · exact hrecorded
  · refine ⟨hrecorded.pending, hrecorded.flag, hrecorded.outstanding, ?_⟩
    intro g start hwaits
    have hcalls := (record_same
      { s with globals := applied.1.noteApplied applied.2.changed desired.generation } applied.2.changed).2.2.1
    refine Awaits.transfer hwaits (fun j c hc _ => setCall_other ?_ ?_) (record_same _ _).2.1
    · rw [hcalls]
      exact hfree
    · rw [hcalls]
      exact hc

private theorem synchronizePackage0_writesTo (h : s.Guarded) {i : Nat} {snapshot : PackageSnapshot} {requested : Bool}
    {guardReady : Bool} (hfree : s.calls i = none)
    (hwrites : s.writes (.synchronizePackage0 i snapshot requested excluded grow guardReady) = some generation) :
    s.WritesTo (.synchronizePackage0 i snapshot requested excluded grow guardReady) generation
      (s.synchronizePackage0 i snapshot requested excluded grow guardReady) := by
  obtain ⟨desired, hadopt, happlied⟩ := Option.bind_eq_some_iff.mp hwrites
  obtain ⟨hwritten, hgeneration⟩ := Option.ite_none_right_eq_some.mp happlied
  obtain rfl := Option.some.inj hgeneration
  unfold synchronizePackage0
  rw [hadopt]
  apply applySection_writesTo hfree h.covered_le
  · exact ⟨rfl, rfl⟩
  · exact hwritten
  · simp only [changesPackage, hadopt, Option.any_some]

private theorem reloadSection_writesTo (h : s.Guarded) {i : Nat} {guardReady nested : Bool} (hfree : s.calls i = none)
    (hwrites : s.writes (.reloadSection i excluded grow guardReady nested) = some generation) :
    s.WritesTo (.reloadSection i excluded grow guardReady nested) generation
      (s.reloadSection i excluded grow guardReady nested) := by
  obtain ⟨desired, hdesired, happlied⟩ := Option.bind_eq_some_iff.mp hwrites
  obtain ⟨hwritten, hgeneration⟩ := Option.ite_none_right_eq_some.mp happlied
  obtain rfl := Option.some.inj hgeneration
  have hchanges : s.changesPackage (.reloadSection i excluded grow guardReady nested) =
      applyChanges s.globals desired excluded grow := by simp only [changesPackage, hdesired, Option.any_some]
  have hto : s.WritesTo (.reloadSection i excluded grow guardReady nested) desired.generation
      (s.applySection i s.globals desired true nested excluded grow guardReady) :=
    applySection_writesTo hfree h.covered_le (.refl _) hwritten hchanges
  unfold reloadSection
  rw [hdesired]
  refine ⟨hto.pending, hto.flag, hto.outstanding, fun g start hwaits => ?_⟩
  exact Awaits.transfer (hto.awaits g start hwaits) (fun _ _ hc _ => hc) rfl

/-- An event that changes nothing leaves the changes that are outstanding. -/
theorem unprocessed_of_unchanged (hunchanged : s.changesPackage e = false) (hk : s.Outstanding e k) :
    s.Unprocessed k := by
  rcases hk with hk | ⟨-, hchanged, -⟩
  · exact hk
  · rw [hunchanged] at hchanged
    cases hchanged

private theorem lateSection_writesTo {i : Nat} (hc : s.calls i = some ⟨generation, .late, start⟩) :
    s.WritesTo (.lateSection i) generation
      ({ s with globals := { s.globals with pendingGeneration := generation } }.setCall i none) := by
  refine ⟨rfl, ?_, fun k hk => show s.Unprocessed k from unprocessed_of_unchanged rfl hk, fun g start hwaits => ?_⟩
  · rintro (hpending | hchanged)
    · exact hpending
    · cases hchanged
  · refine Awaits.transfer hwaits (fun j c hd hcompletes => ?_) rfl
    rw [calls_setCall, if_neg]
    · exact hd
    · rintro rfl
      obtain rfl := Option.some.inj (hc.symm.trans hd)
      cases hcompletes

private theorem reprocessCurrentState_writesTo {i : Nat} {guardReady : Bool} (hfree : s.calls i = none)
    (hwrites : s.writes (.reprocessCurrentState i guardReady) = some generation) :
    s.WritesTo (.reprocessCurrentState i guardReady) generation (s.reprocessCurrentState i guardReady) := by
  obtain ⟨desired, hdesired, happlied⟩ := Option.bind_eq_some_iff.mp hwrites
  obtain ⟨hready, hgeneration⟩ := Option.ite_none_right_eq_some.mp happlied
  obtain rfl := Option.some.inj hgeneration
  unfold reprocessCurrentState
  rw [hdesired]
  dsimp only
  rw [if_neg (by simpa using hready)]
  refine ⟨rfl, fun _ => hready.1, fun k hk => ?_, fun g start hwaits => ?_⟩
  · exact show s.Unprocessed k from unprocessed_of_unchanged rfl hk
  · exact Awaits.transfer hwaits (fun j c hc _ => setCall_other hfree hc) rfl

/-- Every event that writes a generation. -/
theorem step_writesTo (h : s.Guarded) (hstep : s.step e = some t) (hwrites : s.writes e = some generation) :
    s.WritesTo e generation t := by
  cases e with
  | synchronizePackage0 i snapshot requested excluded grow guardReady =>
    obtain ⟨hfree, hnext⟩ := Option.ite_none_left_eq_some.mp hstep
    obtain rfl := Option.some.inj hnext
    exact synchronizePackage0_writesTo h (by simpa using hfree) hwrites
  | reloadSection i excluded grow guardReady nested =>
    obtain ⟨hfree, hnext⟩ := Option.ite_none_left_eq_some.mp hstep
    obtain rfl := Option.some.inj hnext
    refine reloadSection_writesTo h ?_ hwrites
    by_contra hsome
    exact hfree (.inr (.inl (Option.isSome_iff_ne_none.mpr hsome)))
  | lateSection i =>
    simp only [step] at hstep
    split at hstep
    · rename_i late start hc
      obtain rfl := Option.some.inj hstep
      obtain rfl : late = generation := by simpa [writes, hc] using hwrites
      exact lateSection_writesTo hc
    · cases hstep
  | reprocessCurrentState i guardReady =>
    obtain ⟨hfree, hnext⟩ := Option.ite_none_left_eq_some.mp hstep
    obtain rfl := Option.some.inj hnext
    exact reprocessCurrentState_writesTo (by simpa using hfree) hwrites
  | loadPackage => cases hwrites
  | bootIds => cases hwrites
  | inject => cases hwrites
  | decide => cases hwrites
  | completeNoChange => cases hwrites
  | mark => cases hwrites
  | process => cases hwrites
  | processed => cases hwrites
  | complete => cases hwrites
  | leave => cases hwrites

/-- An event that is not apart has a continuation by the calls under way that clears the
flag before the change is processed. -/
theorem step_forgets (h : s.Guarded) (hstep : s.step e = some t) (hnot : ¬ s.Apart e) :
    ∃ more u, (∀ e ∈ more, GoesOn e = true) ∧ exec step t more = some u ∧ ¬ u.Flagged := by
  by_contra hkeeps
  apply hnot
  constructor
  · intro generation hwrites k hk start hlt hwaits
    have hto := step_writesTo h hstep hwrites
    have hflag : t.globals.runtimeRefreshPending = true := by
      rcases hk with hold | ⟨-, hchanged, -⟩
      · exact hto.flag (.inl (h.flagged k hold))
      · exact hto.flag (.inr hchanged)
    exact hkeeps (completion_forgets (hto.awaits generation start hwaits) hflag hto.pending (hto.outstanding k hk) hlt)
  · rintro i cachedDepots excluded grow rfl hchanged hrefreshing
    simp only [step] at hstep
    split at hstep
    · rename_i ids hreload
      simp only [changesPackage, hreload] at hchanged
      obtain rfl := Option.some.inj hstep
      unfold inject at hkeeps
      rw [hchanged] at hkeeps
      obtain ⟨hflag, hgeneration⟩ := injectFullSetLocked_flag s.globals ids cachedDepots excluded grow
      have hk := record_unprocessed
        (s := { s with globals := (s.globals.injectFullSetLocked ids cachedDepots excluded grow).1 }) h.covered_le
        (.inr ⟨rfl, rfl, hrefreshing⟩)
      constructor
      · by_contra hclear
        refine hkeeps ⟨[], _, by simp, rfl, fun hflagged => hclear ?_⟩
        exact hflag.symm.trans (hflagged _ hk)
      · intro start hwaits
        by_cases hpending : s.globals.runtimeRefreshPending = true
        · refine hkeeps (completion_forgets (Awaits.transfer hwaits (fun _ _ hc _ => hc) rfl) (hflag.trans hpending)
            hgeneration hk ?_)
          exact Nat.lt_succ_of_le (h.begun _ _ hwaits)
        · refine hkeeps ⟨[], _, by simp, rfl, fun hflagged => hpending ?_⟩
          exact hflag.symm.trans (hflagged _ hk)
    · cases hstep

/-- A run whose every prefix stays flagged, however its calls go on, has met the condition. -/
theorem meets_of_flagged {events : List RefreshEvent} {last : RefreshState} (h : s.Guarded)
    (hrun : exec step s events = some last)
    (hflagged : ∀ first rest, events = first ++ rest → ∀ more u, (∀ e ∈ more, GoesOn e = true) →
      exec step s (first ++ more) = some u → u.Flagged) : Meets step Apart s events := by
  induction events generalizing s with
  | nil => trivial
  | cons e events ih =>
    obtain ⟨t, hstep, hrest⟩ := Option.bind_eq_some_iff.mp hrun
    have hok : s.Apart e := by
      by_contra hnot
      obtain ⟨more, u, hmore, hu, hlost⟩ := step_forgets h hstep hnot
      refine hlost (hflagged [e] events rfl more u hmore ?_)
      rw [List.singleton_append, exec_cons, hstep]
      exact hu
    refine .step hstep hok (ih (step_guarded h hok hstep) hrest ?_)
    rintro first rest rfl more u hmore hu
    refine hflagged (e :: first) rest rfl more u hmore ?_
    rw [List.cons_append, exec_cons, hstep]
    exact hu

end

/-- The flag stands for every change that is applied beside a refresh, in every state of
the run and however the calls of that state go on, just when each step is apart. -/
theorem changes_stay_flagged (g : Globals) {events : List RefreshEvent} {s : RefreshState}
    (hrun : exec step { globals := g } events = some s) :
    Meets step Apart { globals := g } events ↔
      ∀ first rest, events = first ++ rest → ∀ more u, (∀ e ∈ more, GoesOn e = true) →
        exec step { globals := g } (first ++ more) = some u → u.Flagged := by
  constructor
  · rintro hmeets first rest rfl more u hmore hu
    have hfirst := ((meets_append step Apart _ first rest).mp hmeets).1
    have hall : Meets step Apart { globals := g } (first ++ more) :=
      (meets_append step Apart _ first more).mpr
        ⟨hfirst, fun t _ => meets_of_forall (fun e he s => apart_of_goesOn (hmore e he)) t⟩
    exact (exec_invariant (fun s e t => step_guarded) (guarded_start g) hall hu).flagged
  · exact meets_of_flagged (guarded_start g) hrun

/-- Beside an idle refresh nothing is at stake. -/
theorem apart_of_idle {s : RefreshState} (hduring : s.during = []) (hidle : s.refreshing = false) (e : RefreshEvent) :
    s.Apart e := by
  constructor
  · rintro generation - k (⟨hmem, -⟩ | ⟨-, -, hrefreshing⟩)
    · rw [hduring] at hmem
      cases hmem
    · rw [hidle] at hrefreshing
      cases hrefreshing
  · intro i cachedDepots excluded grow _ _ hrefreshing
    rw [hidle] at hrefreshing
    cases hrefreshing

/-- Generation 1 is applied and its refresh is pending. -/
def pendingFirst : Globals :=
  { package := some { available := true, appIdVec := ⟨[10], 8⟩, depotIdVec := ⟨[], 8⟩ }
    seededAppIds := [10]
    desired := some { generation := 1, appIds := [10], metadataComplete := true }
    appliedGeneration := 1
    pendingGeneration := 1
    runtimeRefreshPending := true }

def refreshFirst : List RefreshEvent := [.reprocessCurrentState 0 true, .decide 0 true true, .mark true, .process]

/-- A newer snapshot arrives while the first one is processed. -/
theorem newer_snapshot_stays_flagged : ∃ s,
    exec step { globals := pendingFirst } (refreshFirst ++
      [.synchronizePackage0 1 { generation := 2, appIds := [10, 20] } true [] (some ⟨8, 8⟩) true, .processed true,
        .complete]) = some s ∧ s.Unprocessed 1 ∧ s.globals.runtimeRefreshPending = true := by
  have hmeets : Meets step Apart { globals := pendingFirst } (refreshFirst ++
      [.synchronizePackage0 1 { generation := 2, appIds := [10, 20] } true [] (some ⟨8, 8⟩) true, .processed true,
        .complete]) := by
    refine .step rfl (apart_of_idle rfl rfl _) (.step rfl (apart_of_idle rfl rfl _) ?_)
    refine .step rfl (apart_of_idle rfl rfl _) (.step rfl (apart_of_goesOn rfl) ?_)
    refine ⟨?_, fun t _ => meets_of_forall ?_ t⟩
    · constructor
      · rintro generation hwrites k - start - (⟨i, c, hc, -⟩ | ⟨r, hr, -, rfl, -⟩)
        · have hc : Function.update (Function.update (fun _ => none) 0 _) 0 none i = some c := hc
          by_cases hi : i = 0 <;> simp [hi] at hc
        · obtain rfl := Option.some.inj hr
          exact absurd hwrites (by decide)
      · rintro i cachedDepots excluded grow ⟨⟩
    · simp only [List.forall_mem_cons, List.not_mem_nil, false_implies, implies_true, and_true]
      exact ⟨fun s => apart_of_goesOn rfl, fun s => apart_of_goesOn rfl⟩
  refine ⟨_, rfl, ?_, ?_⟩
  · decide
  · refine (changes_stay_flagged pendingFirst rfl).mp hmeets _ [] (List.append_nil _).symm [] _ ?_ rfl 1 (by decide)
    rintro e ⟨⟩

/-- Steam reloads package 0 from inside the process call, and the first snapshot is
applied again. -/
theorem reload_change_forgotten : ∃ s,
    exec step { globals := pendingFirst } (refreshFirst ++
      [.loadPackage 1 { available := true, appIdVec := ⟨[], 8⟩, depotIdVec := ⟨[], 8⟩ },
        .reloadSection 1 [] (some ⟨8, 8⟩) true true, .processed true, .complete]) = some s ∧ ¬ s.Flagged := by
  refine ⟨_, rfl, fun hflagged => ?_⟩
  have hpending := hflagged 1 (by decide)
  exact absurd hpending (by decide)

end RefreshState
end SlsteamMoon.PackagePatch
