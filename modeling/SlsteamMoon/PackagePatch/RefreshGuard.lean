import SlsteamMoon.PackagePatch.RuntimeRefresh
import SlsteamMoon.Runs

/-! A change that is applied while a refresh is in flight. The completion tells changes
apart by their generation only, so the flag outlives it when the generations differ. -/
namespace SlsteamMoon.PackagePatch
open OwnerQueue Runs

/-- The call will reach the completion section of a NoChange action. -/
def RefreshCall.completes (c : RefreshCall) : Bool :=
  match c.stage with
  | .noChange => true
  | .chosen _ changed => !changed
  | .late => false

namespace RefreshState

/-- A change made during a refresh, and no refresh that started after it has completed. -/
def Unprocessed (s : RefreshState) (k : Nat) : Prop := k ∈ s.during ∧ s.covered < k

instance (s : RefreshState) (k : Nat) : Decidable (s.Unprocessed k) :=
  inferInstanceAs (Decidable (k ∈ s.during ∧ s.covered < k))

/-- The pending flag stands for every such change. -/
def Flagged (s : RefreshState) : Prop := ∀ k, s.Unprocessed k → s.globals.runtimeRefreshPending = true

/-- A call for the generation, begun after that many changes, has its completion before it. -/
inductive Awaits (s : RefreshState) (generation : UInt64) (start : Nat) : Prop
  | call (i : Nat) (c : RefreshCall) (hc : s.calls i = some c) (hcompletes : c.completes = true)
      (hgeneration : c.generation = generation) (hstart : c.start = start)
  | run (r : RunningRefresh) (hr : s.running = some r) (hflight : r.inFlight = true)
      (hgeneration : r.generation = generation) (hstart : r.start = start)

def applyChanges (g : Globals) (desired : PackageSnapshot) (excluded : List UInt32) (grow : Option Grow) : Bool :=
  let applied := g.applySnapshotLocked desired excluded grow
  applied.2.available && applied.2.changed

/-- An application that goes through makes its generation the pending one when it has
changed something or a refresh is pending. -/
def applyWrites (g : Globals) (desired : PackageSnapshot) (excluded : List UInt32) (grow : Option Grow) : Bool :=
  let applied := g.applySnapshotLocked desired excluded grow
  applied.2.available && (applied.2.changed || g.runtimeRefreshPending)

/-- The event changes package 0. -/
def changesPackage (s : RefreshState) : RefreshEvent → Bool
  | .synchronizePackage0 _ snapshot requested excluded grow _ =>
    (s.globals.adopt snapshot requested).any fun desired =>
      applyChanges { s.globals with desired := some desired } desired excluded grow
  | .reloadSection _ excluded grow _ _ =>
    s.globals.desired.any fun desired => applyChanges s.globals desired excluded grow
  | .inject i cachedDepots excluded grow =>
    match s.reloads i with
    | some (.holds ids) => injects s.globals ids cachedDepots excluded grow
    | _ => false
  | _ => false

/-- The generation that the event makes the pending one. -/
def writes (s : RefreshState) : RefreshEvent → Option UInt64
  | .synchronizePackage0 _ snapshot requested excluded grow _ =>
    (s.globals.adopt snapshot requested).bind fun desired =>
      if applyWrites { s.globals with desired := some desired } desired excluded grow then some desired.generation
      else none
  | .reloadSection _ excluded grow _ _ =>
    s.globals.desired.bind fun desired =>
      if applyWrites s.globals desired excluded grow then some desired.generation else none
  | .lateSection i => (s.calls i).map RefreshCall.generation
  | .reprocessCurrentState _ _ =>
    s.globals.desired.bind fun desired =>
      if s.globals.runtimeRefreshPending ∧ s.globals.appliedGeneration = desired.generation then
        some s.globals.appliedGeneration
      else none
  | _ => none

/-- A change that is unprocessed when the event is over, if the event completes nothing. -/
def Outstanding (s : RefreshState) (e : RefreshEvent) (k : Nat) : Prop :=
  s.Unprocessed k ∨ k = s.changes + 1 ∧ s.changesPackage e = true ∧ s.refreshing = true

/-- No event makes the generation of a call under way the pending one when there is a
change newer than the call, and an injection beside a refresh finds another one pending. -/
structure Apart (s : RefreshState) (e : RefreshEvent) : Prop where
  written : ∀ generation, s.writes e = some generation → ∀ k, s.Outstanding e k →
    ∀ start < k, ¬ s.Awaits generation start
  injected : ∀ i cachedDepots excluded grow, e = .inject i cachedDepots excluded grow →
    s.changesPackage e = true → s.refreshing = true → s.globals.runtimeRefreshPending = true ∧
      ∀ start, ¬ s.Awaits s.globals.pendingGeneration start

/-- What the steps keep. -/
structure Guarded (s : RefreshState) : Prop where
  begun : ∀ generation start, s.Awaits generation start → start ≤ s.changes
  covered_le : s.covered ≤ s.changes
  numbered : ∀ k ∈ s.during, k ≤ s.changes
  flagged : s.Flagged
  apart : ∀ k, s.Unprocessed k → ∀ generation start, s.Awaits generation start → start < k →
    generation ≠ s.globals.pendingGeneration
  quiet : ∀ k, s.Unprocessed k → ∀ i c, s.calls i = some c → c.completes = true → c.start < k

theorem guarded_start (g : Globals) : Guarded { globals := g } where
  begun generation start h := by
    cases h with
    | call i c hc => cases hc
    | run r hr => cases hr
  covered_le := Nat.le_refl 0
  numbered k hk := by cases hk
  flagged k hk := by cases hk.1
  apart k hk := by cases hk.1
  quiet k hk := by cases hk.1

/-- The fields that a completion reads. -/
structure SameFlag (g next : Globals) : Prop where
  flag : next.runtimeRefreshPending = g.runtimeRefreshPending
  generation : next.pendingGeneration = g.pendingGeneration

theorem SameFlag.refl (g : Globals) : SameFlag g g := ⟨rfl, rfl⟩

theorem SameFlag.trans {g next last : Globals} (h : SameFlag g next) (h' : SameFlag next last) : SameFlag g last :=
  ⟨h'.flag.trans h.flag, h'.generation.trans h.generation⟩

section
variable {s t : RefreshState} {desired : PackageSnapshot} {e : RefreshEvent}

/-- A step that touches neither the flag nor the changes: its new calls begin now. -/
theorem Guarded.same_flag (h : s.Guarded) (hglobals : SameFlag s.globals t.globals) (hchanges : t.changes = s.changes)
    (hcovered : t.covered = s.covered) (hduring : t.during = s.during)
    (hcalls : ∀ i c, t.calls i = some c → c.completes = true →
      ∃ j d, s.calls j = some d ∧ d.completes = true ∧ d.generation = c.generation ∧ d.start = c.start)
    (hrun : ∀ r, t.running = some r → r.inFlight = true → s.Awaits r.generation r.start ∨ r.start = s.changes) :
    t.Guarded := by
  have hunprocessed : ∀ k, t.Unprocessed k → s.Unprocessed k := by
    intro k hk
    unfold Unprocessed at hk ⊢
    rwa [← hduring, ← hcovered]
  have hawaits : ∀ generation start, t.Awaits generation start → s.Awaits generation start ∨ start = s.changes := by
    rintro _ _ (⟨i, c, hc, hcompletes, rfl, rfl⟩ | ⟨r, hr, hflight, rfl, rfl⟩)
    · obtain ⟨j, d, hd, hdone, hgeneration, hstart⟩ := hcalls i c hc hcompletes
      exact .inl (.call j d hd hdone hgeneration hstart)
    · exact hrun r hr hflight
  refine ⟨?_, ?_, ?_, ?_, ?_, ?_⟩
  · intro generation start hwaits
    rw [hchanges]
    rcases hawaits generation start hwaits with hold | rfl
    · exact h.begun generation start hold
    · exact Nat.le_refl _
  · rw [hcovered, hchanges]
    exact h.covered_le
  · rw [hduring, hchanges]
    exact h.numbered
  · intro k hk
    rw [hglobals.flag]
    exact h.flagged k (hunprocessed k hk)
  · intro k hk generation start hwaits hlt
    rw [hglobals.generation]
    have hold := hunprocessed k hk
    rcases hawaits generation start hwaits with hwaits | rfl
    · exact h.apart k hold generation start hwaits hlt
    · exact absurd (h.numbered k hold.1) (Nat.not_le.mpr hlt)
  · intro k hk i c hc hcompletes
    obtain ⟨j, d, hd, hdone, -, hstart⟩ := hcalls i c hc hcompletes
    rw [← hstart]
    exact h.quiet k (hunprocessed k hk) j d hd hdone

/-- The same calls and the same run. -/
theorem Guarded.same_calls (h : s.Guarded) (hglobals : SameFlag s.globals t.globals) (hchanges : t.changes = s.changes)
    (hcovered : t.covered = s.covered) (hduring : t.during = s.during) (hcalls : t.calls = s.calls)
    (hrun : t.running = s.running) : t.Guarded :=
  h.same_flag hglobals hchanges hcovered hduring
    (fun i c hc hdone => ⟨i, c, hcalls ▸ hc, hdone, rfl, rfl⟩)
    fun r hr hflight => .inl (.run r (hrun ▸ hr) hflight rfl rfl)

/-- What a section that may change package 0 leaves: a change gets a number and the
flag, and nothing else touches the flag. -/
inductive Noted (s t : RefreshState) : Prop
  | changed (hchanges : t.changes = s.changes + 1)
      (hduring : t.during = if s.refreshing then (s.changes + 1) :: s.during else s.during)
      (hflag : s.refreshing = true → t.globals.runtimeRefreshPending = true)
      (hkept : s.globals.runtimeRefreshPending = true → t.globals.runtimeRefreshPending = true)
  | unchanged (hchanges : t.changes = s.changes) (hduring : t.during = s.during)
      (hflag : t.globals.runtimeRefreshPending = s.globals.runtimeRefreshPending)

/-- A section that leaves the calls under way apart from the generation it writes. -/
structure AppliedTo (s t : RefreshState) : Prop where
  running : t.running = s.running
  covered : t.covered = s.covered
  calls : ∀ i c, t.calls i = some c → s.calls i = some c ∨
    c.start = t.changes ∧ (c.completes = true → t.globals.runtimeRefreshPending = false)
  noted : s.Noted t
  apart : ∀ k, t.Unprocessed k → ∀ generation start, s.Awaits generation start → start < k →
    generation ≠ t.globals.pendingGeneration

/-- The changes of a section that completes nothing. -/
theorem Noted.unprocessed (h : s.Noted t) (hcovered : t.covered = s.covered) {k : Nat} (hk : t.Unprocessed k) :
    s.Unprocessed k ∨ k = s.changes + 1 ∧ t.changes = s.changes + 1 ∧ s.refreshing = true := by
  obtain ⟨hmem, hlt⟩ := hk
  rw [hcovered] at hlt
  cases h with
  | unchanged hchanges hduring => exact .inl ⟨hduring ▸ hmem, hlt⟩
  | changed hchanges hduring =>
    rw [hduring] at hmem
    split at hmem
    · rename_i hrefreshing
      rcases List.mem_cons.mp hmem with rfl | hmem
      · exact .inr ⟨rfl, hchanges, hrefreshing⟩
      · exact .inl ⟨hmem, hlt⟩
    · exact .inl ⟨hmem, hlt⟩

theorem Noted.flagged (hn : s.Noted t) (hcovered : t.covered = s.covered) (h : s.Guarded) : t.Flagged := by
  intro k hk
  have hcases := hn.unprocessed hcovered hk
  cases hn with
  | changed _ _ hflag hkept =>
    rcases hcases with hold | ⟨-, -, hrefreshing⟩
    · exact hkept (h.flagged k hold)
    · exact hflag hrefreshing
  | unchanged hchanges _ hflag =>
    rw [hflag]
    rcases hcases with hold | ⟨-, hnew, -⟩
    · exact h.flagged k hold
    · omega

/-- While a change is unprocessed the section lets no call go on to NoChange. -/
theorem AppliedTo.awaits (ha : s.AppliedTo t) (hflag : t.globals.runtimeRefreshPending = true)
    {generation : UInt64} {start : Nat} (hwaits : t.Awaits generation start) : s.Awaits generation start := by
  rcases hwaits with ⟨i, c, hc, hcompletes, rfl, rfl⟩ | ⟨r, hr, hflight, rfl, rfl⟩
  · rcases ha.calls i c hc with hold | ⟨-, hnone⟩
    · exact .call i c hold hcompletes rfl rfl
    · rw [hnone hcompletes] at hflag
      cases hflag
  · exact .run r (ha.running ▸ hr) hflight rfl rfl

theorem AppliedTo.guarded (ha : s.AppliedTo t) (h : s.Guarded) : t.Guarded := by
  have hflagged := ha.noted.flagged ha.covered h
  have hmono : s.changes ≤ t.changes := by
    cases ha.noted with
    | changed hchanges => omega
    | unchanged hchanges => omega
  refine ⟨?_, ?_, ?_, hflagged, ?_, ?_⟩
  · rintro _ _ (⟨i, c, hc, hcompletes, rfl, rfl⟩ | ⟨r, hr, hflight, rfl, rfl⟩)
    · rcases ha.calls i c hc with hold | ⟨hstart, -⟩
      · exact (h.begun _ _ (.call i c hold hcompletes rfl rfl)).trans hmono
      · exact hstart.le
    · exact (h.begun _ _ (.run r (ha.running ▸ hr) hflight rfl rfl)).trans hmono
  · rw [ha.covered]
    exact h.covered_le.trans hmono
  · intro k hk
    cases ha.noted with
    | unchanged hchanges hduring =>
      rw [hchanges]
      exact h.numbered k (hduring ▸ hk)
    | changed hchanges hduring =>
      rw [hduring] at hk
      split at hk
      · rcases List.mem_cons.mp hk with rfl | hk
        · exact hchanges.ge
        · exact (h.numbered k hk).trans hmono
      · exact (h.numbered k hk).trans hmono
  · intro k hk generation start hwaits hlt
    exact ha.apart k hk generation start (ha.awaits (hflagged k hk) hwaits) hlt
  · intro k hk i c hc hcompletes
    have hflag := hflagged k hk
    rcases ha.calls i c hc with hold | ⟨-, hnone⟩
    · rcases ha.noted.unprocessed ha.covered hk with hk | ⟨rfl, -, -⟩
      · exact h.quiet k hk i c hold hcompletes
      · exact Nat.lt_succ_of_le (h.begun _ _ (.call i c hold hcompletes rfl rfl))
    · rw [hnone hcompletes] at hflag
      cases hflag

/-- An application itself does not touch the flag. -/
theorem applySnapshotLocked_flag (g : Globals) (desired : PackageSnapshot) (excluded : List UInt32)
    (grow : Option Grow) : SameFlag g (g.applySnapshotLocked desired excluded grow).1 := by
  unfold Globals.applySnapshotLocked
  split
  · exact .refl g
  · split
    · exact .refl g
    · split
      · exact .refl g
      · dsimp only
        split
        · exact ⟨rfl, rfl⟩
        · unfold Globals.commitSnapshot
          dsimp only
          split <;> exact ⟨rfl, rfl⟩

theorem injectFullSetLocked_flag (g : Globals) (appIds cachedDepots excluded : List UInt32) (grow : Option Grow) :
    SameFlag g (g.injectFullSetLocked appIds cachedDepots excluded grow).1 := by
  unfold Globals.injectFullSetLocked
  split
  · exact .refl g
  · dsimp only
    split <;> exact ⟨rfl, rfl⟩

theorem noteApplied_unchanged (g : Globals) (generation : UInt64) :
    (g.noteApplied false generation).runtimeRefreshPending = g.runtimeRefreshPending ∧
      (g.runtimeRefreshPending = true → (g.noteApplied false generation).pendingGeneration = generation) := by
  unfold Globals.noteApplied
  cases hpending : g.runtimeRefreshPending with
  | false => simp [hpending]
  | true => simp

theorem calls_setCall (s : RefreshState) (i j : Nat) (call : Option RefreshCall) :
    (s.setCall i call).calls j = if j = i then call else s.calls j := by
  simp [setCall, Function.update_apply]

/-- A call that the section lets begin. -/
theorem AppliedTo.withCall (ha : s.AppliedTo t) {i : Nat} {c : RefreshCall} (hstart : c.start = t.changes)
    (hcompletes : c.completes = true → t.globals.runtimeRefreshPending = false) :
    s.AppliedTo (t.setCall i (some c)) where
  running := ha.running
  covered := ha.covered
  calls j d hd := by
    rw [calls_setCall] at hd
    split at hd
    · obtain rfl := Option.some.inj hd
      exact .inr ⟨hstart, hcompletes⟩
    · exact ha.calls j d hd
  noted := by
    cases ha.noted with
    | changed hchanges hduring hflag hkept => exact .changed hchanges hduring hflag hkept
    | unchanged hchanges hduring hflag => exact .unchanged hchanges hduring hflag
  apart := ha.apart

private theorem AppliedTo.withReload (ha : s.AppliedTo t) (i : Nat) (reload : Option ReloadStage) :
    s.AppliedTo (t.setReload i reload) where
  running := ha.running
  covered := ha.covered
  calls := ha.calls
  noted := by
    cases ha.noted with
    | changed hchanges hduring hflag hkept => exact .changed hchanges hduring hflag hkept
    | unchanged hchanges hduring hflag => exact .unchanged hchanges hduring hflag
  apart := ha.apart

variable {g : Globals} {excluded : List UInt32} {grow : Option Grow}

/-- A section that leaves both the flag and its generation. -/
theorem Guarded.kept_appliedTo (h : s.Guarded) {next : Globals} (hflag : SameFlag s.globals next) :
    s.AppliedTo { s with globals := next } where
  running := rfl
  covered := rfl
  calls _ _ := .inl
  noted := .unchanged rfl rfl hflag.flag
  apart k hk generation start hwaits hlt := by
    show generation ≠ next.pendingGeneration
    rw [hflag.generation]
    exact h.apart k hk generation start hwaits hlt

/-- The available application, before any call begins. -/
theorem Guarded.recorded_appliedTo (h : s.Guarded) {applied : Globals} (changed : Bool) {generation : UInt64}
    (hflag : applied.runtimeRefreshPending = s.globals.runtimeRefreshPending)
    (hapart : (changed || s.globals.runtimeRefreshPending) = true → ∀ k,
      s.Unprocessed k ∨ k = s.changes + 1 ∧ changed = true ∧ s.refreshing = true →
        ∀ start < k, ¬ s.Awaits generation start) :
    s.AppliedTo ({ s with globals := applied.noteApplied changed generation }.record changed) := by
  cases changed with
  | true =>
    have hnoted : s.Noted ({ s with globals := applied.noteApplied true generation }.record true) :=
      .changed rfl rfl (fun _ => rfl) fun _ => rfl
    refine ⟨rfl, rfl, fun _ _ => .inl, hnoted, ?_⟩
    intro k hk _ start hwaits hlt hsame
    -- the generation is the one that was noted
    obtain rfl := hsame
    refine hapart rfl k ?_ start hlt hwaits
    rcases hnoted.unprocessed rfl hk with hold | ⟨hnew, -, hrefreshing⟩
    · exact .inl hold
    · exact .inr ⟨hnew, rfl, hrefreshing⟩
  | false =>
    obtain ⟨hsame, hgeneration⟩ := noteApplied_unchanged applied generation
    refine ⟨rfl, rfl, fun _ _ => .inl, .unchanged rfl rfl (hsame.trans hflag), ?_⟩
    intro k hk awaited start hwaits hlt
    have hpending := h.flagged k hk
    show awaited ≠ (applied.noteApplied false generation).pendingGeneration
    rw [hgeneration (hflag.trans hpending)]
    rintro rfl
    exact hapart hpending k (.inl hk) start hlt hwaits

private theorem Guarded.applySection_appliedTo (h : s.Guarded) {i : Nat} {reload nested guardReady : Bool}
    (hflag : SameFlag s.globals g)
    (hapart : applyWrites g desired excluded grow = true → ∀ k,
      s.Unprocessed k ∨ k = s.changes + 1 ∧ applyChanges g desired excluded grow = true ∧ s.refreshing = true →
        ∀ start < k, ¬ s.Awaits desired.generation start) :
    s.AppliedTo (s.applySection i g desired reload nested excluded grow guardReady) := by
  have hflag' := hflag.trans (applySnapshotLocked_flag g desired excluded grow)
  unfold applyWrites applyChanges at hapart
  rw [hflag.flag] at hapart
  unfold applySection
  generalize g.applySnapshotLocked desired excluded grow = applied at *
  dsimp only at hapart ⊢
  split
  · rename_i havailable
    rw [havailable] at hapart
    have hrecorded := h.recorded_appliedTo applied.2.changed hflag'.flag hapart
    split
    · exact hrecorded
    · apply hrecorded.withCall rfl
      intro hcompletes
      rw [(record_same _ _).1]
      simpa [RefreshCall.completes] using hcompletes
  · have hrefused := h.kept_appliedTo hflag'
    split
    · apply hrefused.withCall rfl
      intro hcompletes
      cases hcompletes
    · exact hrefused

private theorem synchronizePackage0_guarded (h : s.Guarded) {i : Nat} {snapshot : PackageSnapshot}
    {requested guardReady : Bool} (hok : s.Apart (.synchronizePackage0 i snapshot requested excluded grow guardReady)) :
    (s.synchronizePackage0 i snapshot requested excluded grow guardReady).Guarded := by
  unfold synchronizePackage0
  cases hadopt : s.globals.adopt snapshot requested with
  | none => exact h
  | some desired =>
    refine AppliedTo.guarded (h.applySection_appliedTo ?_ fun hwrites k hk => ?_) h
    · exact ⟨rfl, rfl⟩
    refine hok.written desired.generation ?_ k ?_
    · exact Option.bind_eq_some_iff.mpr ⟨desired, hadopt, if_pos hwrites⟩
    · simpa only [Outstanding, changesPackage, hadopt, Option.any_some] using hk

private theorem reloadSection_guarded (h : s.Guarded) {i : Nat} {guardReady nested : Bool}
    (hok : s.Apart (.reloadSection i excluded grow guardReady nested)) :
    (s.reloadSection i excluded grow guardReady nested).Guarded := by
  unfold reloadSection
  cases hdesired : s.globals.desired with
  | none => exact h.same_calls (.refl _) rfl rfl rfl rfl rfl
  | some desired =>
    refine ((h.applySection_appliedTo (.refl _) fun hwrites k hk => ?_).withReload i none).guarded h
    refine hok.written desired.generation ?_ k ?_
    · exact Option.bind_eq_some_iff.mpr ⟨desired, hdesired, if_pos hwrites⟩
    · simpa only [Outstanding, changesPackage, hdesired, Option.any_some] using hk

/-- The store of a loaded package. -/
theorem loadPackage_guarded (h : s.Guarded) (i : Nat) (info : PackageInfo) : (s.loadPackage i info).Guarded := by
  unfold loadPackage
  split
  · exact h
  · dsimp only
    split <;> exact h.same_calls ⟨rfl, rfl⟩ rfl rfl rfl rfl rfl

/-- An injection beside a refresh finds the flag and leaves it. -/
theorem inject_guarded (h : s.Guarded) {i : Nat} {ids cachedDepots : List UInt32}
    (hreload : s.reloads i = some (.holds ids)) (hok : s.Apart (.inject i cachedDepots excluded grow)) :
    (s.inject i ids cachedDepots excluded grow).Guarded := by
  have hflag := injectFullSetLocked_flag s.globals ids cachedDepots excluded grow
  have hinjected := hok.injected i cachedDepots excluded grow rfl
  simp only [changesPackage, hreload] at hinjected
  unfold inject
  refine AppliedTo.guarded (AppliedTo.withReload ?_ i none) h
  cases hchanges : injects s.globals ids cachedDepots excluded grow with
  | false => exact h.kept_appliedTo hflag
  | true =>
    have hnoted : s.Noted
        ({ s with globals := (s.globals.injectFullSetLocked ids cachedDepots excluded grow).1 }.record true) :=
      .changed rfl rfl (fun hrefreshing => hflag.flag.trans (hinjected hchanges hrefreshing).1) hflag.flag.trans
    refine ⟨rfl, rfl, fun _ _ => .inl, hnoted, ?_⟩
    intro k hk generation start hwaits hlt
    show generation ≠ (s.globals.injectFullSetLocked ids cachedDepots excluded grow).1.pendingGeneration
    rw [hflag.generation]
    rcases hnoted.unprocessed rfl hk with hold | ⟨-, -, hrefreshing⟩
    · exact h.apart k hold generation start hwaits hlt
    · rintro rfl
      exact (hinjected hchanges hrefreshing).2 start hwaits

/-- A retry writes the latest applied generation. -/
theorem reprocessCurrentState_guarded (h : s.Guarded) {i : Nat} {guardReady : Bool}
    (hok : s.Apart (.reprocessCurrentState i guardReady)) : (s.reprocessCurrentState i guardReady).Guarded := by
  unfold reprocessCurrentState
  split
  · exact h
  · rename_i desired hdesired
    split
    · exact h
    · rename_i hready
      have hready : s.globals.runtimeRefreshPending = true ∧ s.globals.appliedGeneration = desired.generation := by
        simpa using hready
      have hwrites : s.writes (.reprocessCurrentState i guardReady) = some s.globals.appliedGeneration :=
        Option.bind_eq_some_iff.mpr ⟨desired, hdesired, if_pos hready⟩
      have hmoved : s.AppliedTo
          { s with globals := { s.globals with pendingGeneration := s.globals.appliedGeneration } } := by
        refine ⟨rfl, rfl, fun _ _ => .inl, .unchanged rfl rfl rfl, ?_⟩
        rintro k hk _ start hwaits hlt rfl
        exact hok.written _ hwrites k (.inl hk) start hlt hwaits
      exact (hmoved.withCall rfl (by rintro ⟨⟩)).guarded h

private theorem completeRefresh_other {g : Globals} {generation : UInt64} (h : generation ≠ g.pendingGeneration) :
    SameFlag g (g.completeRefresh generation) := by
  unfold Globals.completeRefresh
  dsimp only
  rw [if_neg fun hclears => h hclears.2.symm]
  exact ⟨rfl, rfl⟩

/-- A completion that finds another generation pending whenever a change is still
unprocessed after it. -/
theorem Guarded.completed (h : s.Guarded) {generation : UInt64}
    (hglobals : t.globals = s.globals.completeRefresh generation) (hchanges : t.changes = s.changes)
    (hcovered : s.covered ≤ t.covered ∧ t.covered ≤ s.changes) (hduring : t.during = s.during)
    (hcalls : ∀ i c, t.calls i = some c → s.calls i = some c)
    (hrun : ∀ r, t.running = some r → r.inFlight = true → s.running = some r)
    (hother : ∀ k, t.Unprocessed k → generation ≠ s.globals.pendingGeneration) : t.Guarded := by
  have hunprocessed : ∀ k, t.Unprocessed k → s.Unprocessed k :=
    fun k hk => ⟨hduring ▸ hk.1, hcovered.1.trans_lt hk.2⟩
  have hawaits : ∀ g start, t.Awaits g start → s.Awaits g start := by
    rintro _ _ (⟨i, c, hc, hcompletes, rfl, rfl⟩ | ⟨r, hr, hflight, rfl, rfl⟩)
    · exact .call i c (hcalls i c hc) hcompletes rfl rfl
    · exact .run r (hrun r hr hflight) hflight rfl rfl
  have hsame : ∀ k, t.Unprocessed k → SameFlag s.globals t.globals := by
    intro k hk
    rw [hglobals]
    exact completeRefresh_other (hother k hk)
  refine ⟨?_, ?_, ?_, ?_, ?_, ?_⟩
  · intro g start hwaits
    rw [hchanges]
    exact h.begun g start (hawaits g start hwaits)
  · rw [hchanges]
    exact hcovered.2
  · rw [hduring, hchanges]
    exact h.numbered
  · intro k hk
    rw [(hsame k hk).flag]
    exact h.flagged k (hunprocessed k hk)
  · intro k hk g start hwaits hlt
    rw [(hsame k hk).generation]
    exact h.apart k (hunprocessed k hk) g start (hawaits g start hwaits) hlt
  · intro k hk i c hc hcompletes
    exact h.quiet k (hunprocessed k hk) i c (hcalls i c hc) hcompletes

private theorem setCall_none {i j : Nat} {c : RefreshCall} (h : (s.setCall i none).calls j = some c) :
    s.calls j = some c := by
  rw [calls_setCall] at h
  split at h
  · cases h
  · exact h

/-- A call that found nothing to do began before every change that is unprocessed. -/
theorem completeNoChange_guarded (h : s.Guarded) {i : Nat} {c : RefreshCall} (hc : s.calls i = some c)
    (hcompletes : c.completes = true) :
    Guarded ({ s with globals := s.globals.completeRefresh c.generation }.setCall i none) := by
  refine h.completed rfl rfl ⟨Nat.le_refl _, h.covered_le⟩ rfl (fun j d hd => setCall_none hd)
    (fun r hr _ => hr) ?_
  intro k hk
  exact h.apart k hk c.generation c.start (.call i c hc hcompletes rfl rfl) (h.quiet k hk i c hc hcompletes)

/-- What the refresh covers was applied before it started. -/
theorem complete_guarded (h : s.Guarded) {generation : UInt64} {start : Nat}
    (hr : s.running = some ⟨generation, .completing, start⟩) :
    Guarded
      { s with
        globals := s.globals.completeRefresh generation
        running := some ⟨generation, .leaving, start⟩
        covered := max s.covered start } := by
  have hwaits : s.Awaits generation start := .run _ hr rfl rfl rfl
  refine h.completed rfl rfl ⟨Nat.le_max_left .., Nat.max_le.mpr ⟨h.covered_le, h.begun _ _ hwaits⟩⟩ rfl
    (fun _ _ hc => hc) ?_ ?_
  · intro r hleaving hflight
    obtain rfl := Option.some.inj hleaving
    cases hflight
  · rintro k ⟨hmem, hlt⟩
    have hk : s.Unprocessed k := ⟨hmem, (Nat.le_max_left ..).trans_lt hlt⟩
    exact h.apart k hk generation start hwaits ((Nat.le_max_right ..).trans_lt hlt)

private theorem lateSection_guarded (h : s.Guarded) {i : Nat} {c : RefreshCall} (hc : s.calls i = some c)
    (hok : s.Apart (.lateSection i)) :
    Guarded ({ s with globals := { s.globals with pendingGeneration := c.generation } }.setCall i none) := by
  have hwrites : s.writes (.lateSection i) = some c.generation := by simp [writes, hc]
  have hawaits : ∀ g start,
      Awaits ({ s with globals := { s.globals with pendingGeneration := c.generation } }.setCall i none) g start →
        s.Awaits g start := by
    rintro _ _ (⟨j, d, hd, hcompletes, rfl, rfl⟩ | ⟨r, hr, hflight, rfl, rfl⟩)
    · exact .call j d (setCall_none hd) hcompletes rfl rfl
    · exact .run r hr hflight rfl rfl
  refine ⟨?_, h.covered_le, h.numbered, h.flagged, ?_, ?_⟩
  · intro g start hwaits
    exact h.begun g start (hawaits g start hwaits)
  · rintro k hk g start hwaits hlt rfl
    exact hok.written _ hwrites k (.inl hk) start hlt (hawaits _ start hwaits)
  · intro k hk j d hd hcompletes
    exact h.quiet k hk j d (setCall_none hd) hcompletes

/-- The calls are as before, except that one has gone on or is over. -/
theorem Guarded.moved (h : s.Guarded) {i : Nat} {c : RefreshCall} {call : Option RefreshCall}
    {running : Option RunningRefresh} (hc : s.calls i = some c)
    (hcall : ∀ d, call = some d → d.generation = c.generation ∧ d.start = c.start ∧
      (d.completes = true → c.completes = true))
    (hrun : running = s.running ∨ running = some ⟨c.generation, .claimed, 0⟩) :
    Guarded ({ s with running }.setCall i call) := by
  refine h.same_flag (.refl _) rfl rfl rfl ?_ ?_
  · intro j d hd hdone
    rw [calls_setCall] at hd
    split at hd
    · obtain ⟨hgeneration, hstart, hcompletes⟩ := hcall d hd
      exact ⟨i, c, hc, hcompletes hdone, hgeneration.symm, hstart.symm⟩
    · exact ⟨j, d, hd, hdone, rfl, rfl⟩
  · intro r hr hflight
    have hr : running = some r := hr
    rcases hrun with rfl | rfl
    · exact .inl (.run r hr hflight rfl rfl)
    · obtain rfl := Option.some.inj hr
      cases hflight

private theorem decideAction_guarded (h : s.Guarded) {i : Nat} {generation : UInt64} {safe changed : Bool} {start : Nat}
    (hc : s.calls i = some ⟨generation, .chosen safe changed, start⟩) (markReady processReady : Bool) :
    (s.decideAction i ⟨generation, .chosen safe changed, start⟩ safe changed markReady processReady).Guarded := by
  unfold decideAction
  split
  · rename_i haction
    refine h.moved hc (fun d hd => ?_) (.inl rfl)
    obtain rfl := Option.some.inj hd
    refine ⟨rfl, rfl, fun _ => ?_⟩
    -- the action is NoChange only when nothing had changed
    cases changed with
    | false => rfl
    | true => cases markReady <;> cases processReady <;> cases safe <;> cases haction
  · exact h.moved hc (by rintro d ⟨⟩) (.inl rfl)
  · split
    · exact h.moved hc (by rintro d ⟨⟩) (.inl rfl)
    · exact h.moved hc (by rintro d ⟨⟩) (.inr rfl)

/-- The run goes on: it begins now, or it goes on with the start it had. -/
theorem Guarded.ran (h : s.Guarded) {r next : RunningRefresh} (hr : s.running = some r)
    (hgeneration : next.generation = r.generation)
    (hstart : next.inFlight = true → next.start = s.changes ∨ r.inFlight = true ∧ next.start = r.start) :
    Guarded { s with running := some next } := by
  refine h.same_flag (.refl _) rfl rfl rfl
    (fun i c hc hdone => ⟨i, c, hc, hdone, rfl, rfl⟩) ?_
  intro r' hr' hflight
  obtain rfl := Option.some.inj hr'
  rcases hstart hflight with hnow | ⟨hold, hsame⟩
  · exact .inr hnow
  · exact .inl (.run r hr hold hgeneration.symm hsame.symm)

theorem step_guarded {e : RefreshEvent} (h : s.Guarded) (hok : s.Apart e) (hstep : s.step e = some t) :
    t.Guarded := by
  cases e with
  | synchronizePackage0 i snapshot requested excluded grow guardReady =>
    simp only [step] at hstep
    split at hstep
    · cases hstep
    · obtain rfl := Option.some.inj hstep
      exact synchronizePackage0_guarded h hok
  | loadPackage i info =>
    simp only [step] at hstep
    split at hstep
    · cases hstep
    · obtain rfl := Option.some.inj hstep
      exact loadPackage_guarded h i info
  | reloadSection i excluded grow guardReady nested =>
    simp only [step] at hstep
    split at hstep
    · cases hstep
    · obtain rfl := Option.some.inj hstep
      exact reloadSection_guarded h hok
  | bootIds i managed =>
    simp only [step] at hstep
    split at hstep
    · obtain rfl := Option.some.inj hstep
      exact h.same_calls (.refl _) rfl rfl rfl rfl rfl
    · cases hstep
  | inject i cachedDepots excluded grow =>
    simp only [step] at hstep
    split at hstep
    · rename_i ids hreload
      obtain rfl := Option.some.inj hstep
      exact inject_guarded h hreload hok
    · cases hstep
  | lateSection i =>
    simp only [step] at hstep
    split at hstep
    · rename_i generation start hc
      obtain rfl := Option.some.inj hstep
      exact lateSection_guarded h hc hok
    · cases hstep
  | reprocessCurrentState i guardReady =>
    simp only [step] at hstep
    split at hstep
    · cases hstep
    · obtain rfl := Option.some.inj hstep
      exact reprocessCurrentState_guarded h hok
  | decide i markReady processReady =>
    simp only [step] at hstep
    split at hstep
    · rename_i hc
      obtain rfl := Option.some.inj hstep
      exact decideAction_guarded h hc markReady processReady
    · cases hstep
  | completeNoChange i =>
    simp only [step] at hstep
    split at hstep
    · rename_i hc
      obtain rfl := Option.some.inj hstep
      exact completeNoChange_guarded h hc rfl
    · cases hstep
  | mark user =>
    simp only [step] at hstep
    split at hstep
    · rename_i hr
      obtain rfl := Option.some.inj hstep
      cases user with
      | true => exact h.ran hr rfl fun _ => .inl rfl
      | false => exact h.ran hr rfl (by rintro ⟨⟩)
    · cases hstep
  | process =>
    simp only [step] at hstep
    split at hstep
    · rename_i hr
      obtain rfl := Option.some.inj hstep
      exact h.ran hr rfl fun _ => .inr ⟨rfl, rfl⟩
    · cases hstep
  | processed ok =>
    simp only [step] at hstep
    split at hstep
    · rename_i hr
      obtain rfl := Option.some.inj hstep
      exact h.ran hr rfl fun _ => .inr ⟨rfl, rfl⟩
    · cases hstep
  | complete =>
    simp only [step] at hstep
    split at hstep
    · rename_i hr
      obtain rfl := Option.some.inj hstep
      exact complete_guarded h hr
    · cases hstep
  | leave =>
    simp only [step] at hstep
    split at hstep
    · obtain rfl := Option.some.inj hstep
      refine h.same_flag (.refl _) rfl rfl rfl
        (fun i c hc hdone => ⟨i, c, hc, hdone, rfl, rfl⟩) ?_
      rintro r ⟨⟩
    · cases hstep

end

end RefreshState
end SlsteamMoon.PackagePatch
