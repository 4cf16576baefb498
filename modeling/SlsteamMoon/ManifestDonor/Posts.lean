import SlsteamMoon.ManifestDonor.Worker

/-! What leaves the machine: the lines of each body belong to the generation of its
submission and to depots owned in it, and no POST starts once that generation is over. -/
namespace SlsteamMoon.ManifestDonor
open Runs

/-- The snapshot is what some moment of the past looked like. -/
structure Snapshot.Taken (s : Snapshot) (history : List View) (generation : Nat) : Prop where
  moment : history[s.index]? = some s.view
  past : s.view.generation ≤ generation

/-- The line belongs to the generation and to a depot that it owned. -/
def Line.Belongs (l : Line) (view : View) : Prop := l.generation = view.generation ∧ l.depotId ∈ view.owned

def Flush.Sound (history : List View) (generation : Nat) : Flush → Prop
  | .owned _ snap => snap.Taken history generation
  | .judged snap body _ => snap.Taken history generation ∧ ∀ l ∈ body, l.Belongs snap.view
  | _ => True

/-- A wanted entry that is looked at is owned; a request is no older than the snapshot. -/
def CyclePhase.Sound (view : View) (generation : Nat) : CyclePhase → Prop
  | .head wanted | .before wanted | .requesting wanted => wanted.depotId ∈ view.owned
  | .requested wanted requestedIn | .answered wanted requestedIn _ =>
    wanted.depotId ∈ view.owned ∧ view.generation ≤ requestedIn ∧ requestedIn ≤ generation
  | _ => True

structure Cycle.Sound (cycle : Cycle) (history : List View) (generation : Nat) : Prop where
  taken : cycle.snap.Taken history generation
  lines : ∀ l ∈ cycle.body, l.Belongs cycle.snap.view
  phase : cycle.phase.Sound cycle.snap.view generation

structure Submission.Sound (s : Submission) (history : List View) (generation : Nat) : Prop where
  taken : s.snap.Taken history generation
  lines : ∀ l ∈ s.body, l.Belongs s.snap.view
  called : s.snap.view.generation ≤ s.calledIn ∧ s.calledIn ≤ generation

structure Worker.Sound (w : Worker) (history : List View) (generation : Nat) : Prop where
  flush : w.flush.Sound history generation
  cycle : ∀ cycle ∈ w.cycle, cycle.Sound history generation
  posting : ∀ s ∈ w.posting, s.Sound history generation

/-- A POST that was started: its submission was called in the generation it is about. -/
structure Submission.Posted (s : Submission) (history : List View) : Prop where
  moment : history[s.snap.index]? = some s.snap.view
  lines : ∀ l ∈ s.body, l.Belongs s.snap.view
  called : s.calledIn = s.snap.view.generation

section
variable {history more : List View} {generation later : Nat}

private theorem getElem?_grow {k : Nat} {v : View} (h : history[k]? = some v) : (history ++ more)[k]? = some v := by
  rw [List.getElem?_append_left (List.getElem?_eq_some_iff.mp h).1]
  exact h

theorem Snapshot.Taken.mono {s : Snapshot} (h : s.Taken history generation) (hle : generation ≤ later) :
    s.Taken (history ++ more) later := ⟨getElem?_grow h.moment, Nat.le_trans h.past hle⟩

theorem CyclePhase.Sound.mono {view : View} {phase : CyclePhase} (h : phase.Sound view generation)
    (hle : generation ≤ later) : phase.Sound view later := by
  cases phase with
  | requested wanted requestedIn => exact ⟨h.1, h.2.1, Nat.le_trans h.2.2 hle⟩
  | answered wanted requestedIn code => exact ⟨h.1, h.2.1, Nat.le_trans h.2.2 hle⟩
  | head wanted => exact h
  | before wanted => exact h
  | requesting wanted => exact h
  | entered => trivial
  | top => trivial
  | batching => trivial
  | tests => trivial
  | ending => trivial

theorem Flush.Sound.mono {flush : Flush} (h : flush.Sound history generation) (hle : generation ≤ later) :
    flush.Sound (history ++ more) later := by
  cases flush with
  | owned wanted snap => exact Snapshot.Taken.mono h hle
  | judged snap body retained => exact ⟨h.1.mono hle, h.2⟩
  | idle => trivial
  | called => trivial
  | begun => trivial
  | configured => trivial
  | refreshed wanted => trivial
  | retaining retained => trivial

theorem Worker.Sound.mono {w : Worker} (h : w.Sound history generation) (hle : generation ≤ later) :
    w.Sound (history ++ more) later where
  flush := h.flush.mono hle
  cycle cycle hcycle :=
    have hsound := h.cycle cycle hcycle
    ⟨hsound.taken.mono hle, hsound.lines, hsound.phase.mono hle⟩
  posting s hs :=
    have hsound := h.posting s hs
    ⟨hsound.taken.mono hle, hsound.lines, hsound.called.1, Nat.le_trans hsound.called.2 hle⟩

/-- A sweep in another phase. -/
theorem Cycle.Sound.goes {cycle : Cycle}
    (h : cycle.Sound history generation) {rest : List Wanted} {phase : CyclePhase}
    (hphase : phase.Sound cycle.snap.view generation) :
    Cycle.Sound { cycle with rest, phase } history generation := ⟨h.taken, h.lines, hphase⟩

theorem Submission.Posted.mono {s : Submission} (h : s.Posted history) :
    s.Posted (history ++ more) := ⟨getElem?_grow h.moment, h.lines, h.called⟩

end

namespace Machine

structure Sound (m : Machine) : Prop where
  worker : m.worker.Sound m.history m.generation
  posts : ∀ s ∈ m.posts, s.Posted m.history

/-- A turn of the worker's flush or of its sweep. -/
inductive Turn (m : Machine) (e : Event) : Machine → Prop
  | flush {t} (hnone : m.worker.posting = none) (h : m.flushStep m.worker.flush e = some t) : Turn m e t
  | sweep {t cycle} (hnone : m.worker.posting = none) (hidle : m.worker.flush = .idle)
      (hcycle : m.worker.cycle = some cycle) (h : m.cycleStep cycle e = some t) : Turn m e t

/-- What an event can be: one of the callers, or the worker. -/
inductive Acts (m : Machine) (e : Event) : Machine → Prop
  | callers {t} (worker : t.worker = m.worker) (posts : t.posts = m.posts) (generation : m.generation ≤ t.generation)
      (history : t.history = m.history) : Acts m e t
  | begins (hworker : m.worker = {}) : Acts m e (m.setCycle { snap := m.snapshot })
  | post {s} (hs : m.worker.posting = some s) (running enabled) : Acts m e (m.post s running enabled)
  | turn {t} (h : m.Turn e t) : Acts m e t

section
variable {m t : Machine} {e : Event}

theorem submitCapturedCode_frame (m : Machine) (depotId : DepotId) (gid : Gid) (code : UInt64) (generation : Nat)
    (enabled : Bool) (seen : Nat) :
    (m.submitCapturedCode depotId gid code generation enabled seen).worker = m.worker ∧
      (m.submitCapturedCode depotId gid code generation enabled seen).posts = m.posts ∧
      (m.submitCapturedCode depotId gid code generation enabled seen).history = m.history ∧
      (m.submitCapturedCode depotId gid code generation enabled seen).view = m.view := by
  simp only [submitCapturedCode]
  split_ifs <;> exact ⟨rfl, rfl, rfl, rfl⟩

/-- The turns of the worker, once nothing is being submitted. -/
theorem turn_of_act (hturn : (if m.worker.posting.isSome then none
    else match m.flushStep m.worker.flush e with
      | some t => some t
      | none =>
        match m.worker.flush, m.worker.cycle with
        | .idle, some cycle => m.cycleStep cycle e
        | _, _ => none) = some t) : m.Turn e t := by
  split_ifs at hturn with hposting
  have hnone : m.worker.posting = none := by simpa using hposting
  split at hturn
  · rename_i u hflush
    cases hturn
    exact .flush hnone hflush
  · split at hturn
    · rename_i cycle hidle hcycle
      exact .sweep hnone hidle hcycle hturn
    · cases hturn

theorem act_acts (h : m.act e = some t) : m.Acts e t := by
  cases e with
  | observePackage packageId available contents =>
    simp only [act] at h
    split_ifs at h
    cases h
    exact .callers rfl rfl (Nat.le_refl _) rfl
  | onLicenseList message =>
    simp only [act] at h
    split_ifs at h
    cases h
    exact .callers rfl rfl (Nat.le_succ _) rfl
  | onLoggedOff =>
    simp only [act] at h
    split_ifs at h
    cases h
    exact .callers rfl rfl (Nat.le_succ _) rfl
  | publishSession =>
    obtain ⟨section_, -, rfl⟩ := Option.map_eq_some_iff.mp h
    cases section_ <;> exact .callers rfl rfl (Nat.le_refl _) rfl
  | clearCaptured =>
    simp only [act] at h
    split_ifs at h
    cases h
    exact .callers rfl rfl (Nat.le_refl _) rfl
  | submitCapturedCode depotId gid code generation enabled seen =>
    cases h
    obtain ⟨hworker, hposts, hhistory, hview⟩ :=
      m.submitCapturedCode_frame depotId gid code generation enabled seen
    exact .callers hworker hposts (Nat.le_of_eq (congrArg View.generation hview).symm) hhistory
  | tick ms =>
    cases h
    exact .callers rfl rfl (Nat.le_refl _) rfl
  | beginCycle =>
    simp only [act] at h
    split_ifs at h with hfree hready
    · cases h
      exact .begins hfree.2
    · cases h
      exact .callers rfl rfl (Nat.le_refl _) rfl
  | post running enabled =>
    obtain ⟨s, hs, rfl⟩ := Option.map_eq_some_iff.mp h
    exact .post hs running enabled
  | callFlush => exact .turn (turn_of_act h)
  | look => exact .turn (turn_of_act h)
  | readConfig enabled => exact .turn (turn_of_act h)
  | refreshWanted answer => exact .turn (turn_of_act h)
  | readOwnership => exact .turn (turn_of_act h)
  | swap => exact .turn (turn_of_act h)
  | callSubmit => exact .turn (turn_of_act h)
  | putBack => exact .turn (turn_of_act h)
  | wantedEntries answer => exact .turn (turn_of_act h)
  | cycleTop => exact .turn (turn_of_act h)
  | batch due => exact .turn (turn_of_act h)
  | tests goOn => exact .turn (turn_of_act h)
  | head archived => exact .turn (turn_of_act h)
  | before enabled => exact .turn (turn_of_act h)
  | request => exact .turn (turn_of_act h)
  | answer code => exact .turn (turn_of_act h)
  | afterAnswer => exact .turn (turn_of_act h)
  | endCycle running => exact .turn (turn_of_act h)

/-- The part of a state that the worker leaves alone. -/
structure Same (m t : Machine) : Prop where
  own : t.own = m.own
  generation : t.generation = m.generation
  now : t.now = m.now
  history : t.history = m.history

theorem Same.view (h : m.Same t) : t.view = m.view := by
  rw [Machine.view, Machine.view, h.own, h.generation, h.now]

/-- A worker whose sweep and submission stay. -/
theorem sound_of_flush (h : m.worker.Sound m.history m.generation) {flush : Flush}
    (hflush : flush.Sound (m.history ++ [m.view]) m.generation) :
    (m.setFlush flush).worker.Sound (m.history ++ [m.view]) m.generation :=
  have hgrown : m.worker.Sound (m.history ++ [m.view]) m.generation := h.mono (Nat.le_refl _)
  ⟨hflush, hgrown.cycle, hgrown.posting⟩

private theorem snapshot_taken (m : Machine) : m.snapshot.Taken (m.history ++ [m.view]) m.generation :=
  ⟨List.getElem?_concat_length, Nat.le_refl _⟩

theorem verdict_submit {wanted : List ManifestKey} {view : View} {now : Nat} {c : CapturedCode}
    (h : verdict wanted view now c = .submit) :
    c.generation = view.generation ∧ c.depotId ∈ view.owned ∧ ⟨c.depotId, c.gid⟩ ∈ wanted ∧ c.expired now = false := by
  simp only [verdict] at h
  split_ifs at h with hsubmit
  simp only [shouldSubmitCapturedCode, Bool.and_eq_true, beq_iff_eq, decide_eq_true_eq, Bool.not_eq_true'] at hsubmit
  exact ⟨hsubmit.1.1.1.2, hsubmit.1.1.2, hsubmit.1.2, hsubmit.2⟩

/-- A code goes into the body only if it is of the snapshot's generation and licensed in it. -/
theorem flushStep_sound (h : m.worker.Sound m.history m.generation)
    (hstep : m.flushStep m.worker.flush e = some t) :
    m.Same t ∧ t.posts = m.posts ∧ t.worker.Sound (m.history ++ [m.view]) m.generation := by
  have hflush : m.worker.flush.Sound (m.history ++ [m.view]) m.generation := h.flush.mono (Nat.le_refl m.generation)
  cases e with
  | callFlush =>
    simp only [flushStep] at hstep
    split_ifs at hstep
    cases hstep
    exact ⟨⟨rfl, rfl, rfl, rfl⟩, rfl, sound_of_flush h trivial⟩
  | look =>
    simp only [flushStep] at hstep
    split_ifs at hstep <;> cases hstep
    · exact ⟨⟨rfl, rfl, rfl, rfl⟩, rfl, sound_of_flush h trivial⟩
    · exact ⟨⟨rfl, rfl, rfl, rfl⟩, rfl, sound_of_flush h trivial⟩
  | readConfig enabled =>
    simp only [flushStep] at hstep
    split_ifs at hstep <;> cases hstep
    · exact ⟨⟨rfl, rfl, rfl, rfl⟩, rfl, sound_of_flush h trivial⟩
    · exact ⟨⟨rfl, rfl, rfl, rfl⟩, rfl, sound_of_flush h trivial⟩
  | refreshWanted answer =>
    simp only [flushStep] at hstep
    split_ifs at hstep
    cases answer with
    | none =>
      cases hstep
      exact ⟨⟨rfl, rfl, rfl, rfl⟩, rfl, sound_of_flush h trivial⟩
    | some wanted =>
      cases hstep
      exact ⟨⟨rfl, rfl, rfl, rfl⟩, rfl, sound_of_flush h trivial⟩
  | readOwnership =>
    simp only [flushStep] at hstep
    split at hstep
    · split_ifs at hstep
      cases hstep
      exact ⟨⟨rfl, rfl, rfl, rfl⟩, rfl, sound_of_flush h m.snapshot_taken⟩
    · cases hstep
  | swap =>
    simp only [flushStep] at hstep
    split at hstep
    · rename_i wanted snap howned
      cases hstep
      rw [howned] at hflush
      refine ⟨⟨rfl, rfl, rfl, rfl⟩, rfl, sound_of_flush h ⟨hflush, fun l hl => ?_⟩⟩
      obtain ⟨c, hc, rfl⟩ := List.mem_map.mp hl
      have hsubmit := verdict_submit (of_decide_eq_true (List.mem_filter.mp hc).2)
      exact ⟨hsubmit.1, hsubmit.2.1⟩
    · cases hstep
  | callSubmit =>
    simp only [flushStep] at hstep
    split at hstep
    · rename_i snap body retained hjudged
      cases hstep
      rw [hjudged] at hflush
      refine ⟨⟨rfl, rfl, rfl, rfl⟩, rfl, trivial, (h.mono (Nat.le_refl _)).cycle, fun s hs => ?_⟩
      dsimp only at hs
      split_ifs at hs
      · cases hs
      · cases hs
        exact ⟨hflush.1, hflush.2, hflush.1.past, Nat.le_refl _⟩
    · cases hstep
  | putBack =>
    simp only [flushStep] at hstep
    split at hstep
    · cases hstep
      exact ⟨⟨rfl, rfl, rfl, rfl⟩, rfl, sound_of_flush h trivial⟩
    · cases hstep
  | _ => cases hstep

private theorem stillIn_generation {snap : Snapshot} (h : m.stillIn snap ≠ false) :
    m.generation = snap.view.generation := by
  simp only [stillIn, ne_eq, Bool.not_eq_false, Bool.and_eq_true, beq_iff_eq] at h
  exact h.1

/-- A worker whose flush and submission stay. -/
theorem sound_of_cycle (h : m.worker.Sound m.history m.generation) {cycle : Cycle}
    (hcycle : cycle.Sound m.history m.generation) :
    (m.setCycle cycle).worker.Sound (m.history ++ [m.view]) m.generation :=
  have hnow : (m.setCycle cycle).worker.Sound m.history m.generation :=
    ⟨h.flush, fun _ hmem => Option.some.inj hmem ▸ hcycle, h.posting⟩
  hnow.mono (Nat.le_refl _)

private theorem flushBatch_sound {cycle : Cycle} (h : cycle.Sound m.history m.generation) :
    ∀ s ∈ m.flushBatch cycle, s.Sound m.history m.generation := by
  intro s hs
  rw [flushBatch] at hs
  split_ifs at hs
  · cases hs
  · cases hs
    exact ⟨h.taken, h.lines, h.taken.past, Nat.le_refl _⟩

/-- A sweep that goes on in another phase. -/
theorem goes_sound (h : m.worker.Sound m.history m.generation) {cycle : Cycle}
    (hsound : cycle.Sound m.history m.generation) {rest : List Wanted} {phase : CyclePhase}
    (hphase : phase.Sound cycle.snap.view m.generation) :
    (m.setCycle { cycle with rest, phase }).worker.Sound (m.history ++ [m.view]) m.generation :=
  sound_of_cycle h (hsound.goes hphase)

/-- The same, with a flush to begin. -/
theorem calls_sound (h : m.worker.Sound m.history m.generation) {cycle : Cycle}
    (hsound : cycle.Sound m.history m.generation) {rest : List Wanted} {phase : CyclePhase}
    (hphase : phase.Sound cycle.snap.view m.generation) :
    ((m.setCycle { cycle with rest, phase }).setFlush .called).worker.Sound (m.history ++ [m.view]) m.generation :=
  have hgone := goes_sound h hsound hphase
  ⟨trivial, hgone.cycle, hgone.posting⟩

/-- A requested code goes into the body only if the generation is still the one of the
snapshot, so it was requested in it. -/
theorem entryStep_sound (h : m.worker.Sound m.history m.generation) {cycle : Cycle}
    (hcycle : m.worker.cycle = some cycle) (hstep : m.entryStep cycle e = some t) :
    m.Same t ∧ t.posts = m.posts ∧ t.worker.Sound (m.history ++ [m.view]) m.generation := by
  have hsound := h.cycle cycle hcycle
  cases e with
  | tests goOn =>
    simp only [entryStep] at hstep
    split at hstep
    · split_ifs at hstep with hstop howned <;> cases hstep
      · exact ⟨⟨rfl, rfl, rfl, rfl⟩, rfl, goes_sound h hsound trivial⟩
      · exact ⟨⟨rfl, rfl, rfl, rfl⟩, rfl, goes_sound h hsound howned⟩
      · exact ⟨⟨rfl, rfl, rfl, rfl⟩, rfl, goes_sound h hsound trivial⟩
    · cases hstep
  | head archived =>
    simp only [entryStep] at hstep
    split at hstep
    · rename_i wanted hphase
      cases hstep
      have howned := hphase ▸ hsound.phase
      refine ⟨⟨rfl, rfl, rfl, rfl⟩, rfl, goes_sound h hsound ?_⟩
      split_ifs
      · trivial
      · exact howned
    · cases hstep
  | before enabled =>
    simp only [entryStep] at hstep
    split at hstep
    · rename_i wanted hphase
      have howned := hphase ▸ hsound.phase
      split_ifs at hstep <;> cases hstep
      · exact ⟨⟨rfl, rfl, rfl, rfl⟩, rfl, goes_sound h hsound trivial⟩
      · exact ⟨⟨rfl, rfl, rfl, rfl⟩, rfl, goes_sound h hsound howned⟩
    · cases hstep
  | request =>
    simp only [entryStep] at hstep
    split at hstep
    · rename_i wanted hphase
      have howned := hphase ▸ hsound.phase
      cases hstep
      exact ⟨⟨rfl, rfl, rfl, rfl⟩, rfl, goes_sound h hsound ⟨howned, hsound.taken.past, Nat.le_refl _⟩⟩
    · cases hstep
  | answer code =>
    simp only [entryStep] at hstep
    split at hstep
    · rename_i wanted requestedIn hphase
      have hrequested : CyclePhase.Sound cycle.snap.view m.generation (.requested wanted requestedIn) :=
        hphase ▸ hsound.phase
      cases hstep
      exact ⟨⟨rfl, rfl, rfl, rfl⟩, rfl, calls_sound h hsound hrequested⟩
    · cases hstep
  | afterAnswer =>
    simp only [entryStep] at hstep
    split at hstep
    · rename_i wanted requestedIn code hphase
      have hanswered : CyclePhase.Sound cycle.snap.view m.generation (.answered wanted requestedIn code) :=
        hphase ▸ hsound.phase
      split_ifs at hstep with hstop hrefused <;> cases hstep
      · exact ⟨⟨rfl, rfl, rfl, rfl⟩, rfl, goes_sound h hsound trivial⟩
      · exact ⟨⟨rfl, rfl, rfl, rfl⟩, rfl, goes_sound h hsound trivial⟩
      · have hgeneration := stillIn_generation hstop
        have hsame : requestedIn = cycle.snap.view.generation :=
          Nat.le_antisymm (hgeneration ▸ hanswered.2.2) hanswered.2.1
        refine ⟨⟨rfl, rfl, rfl, rfl⟩, rfl, sound_of_cycle h ⟨hsound.taken, fun l hl => ?_, trivial⟩⟩
        obtain hl | hl := List.mem_append.mp hl
        · exact hsound.lines l hl
        · cases List.mem_singleton.mp hl
          exact ⟨hsame, hanswered.1⟩
    · cases hstep
  | _ => cases hstep

/-- A batch carries the lines of the sweep's body. -/
theorem cycleStep_sound (h : m.worker.Sound m.history m.generation) {cycle : Cycle}
    (hcycle : m.worker.cycle = some cycle) (hstep : m.cycleStep cycle e = some t) :
    m.Same t ∧ t.posts = m.posts ∧ t.worker.Sound (m.history ++ [m.view]) m.generation := by
  have hsound := h.cycle cycle hcycle
  have hgrown : m.worker.Sound (m.history ++ [m.view]) m.generation := h.mono (Nat.le_refl _)
  have hleaves : ({ m with worker.cycle := none } : Machine).worker.Sound (m.history ++ [m.view]) m.generation :=
    ⟨hgrown.flush, fun _ hmem => (nomatch hmem), hgrown.posting⟩
  cases e with
  | wantedEntries answer =>
    simp only [cycleStep] at hstep
    split_ifs at hstep
    cases answer with
    | none =>
      cases hstep
      exact ⟨⟨rfl, rfl, rfl, rfl⟩, rfl, hleaves⟩
    | some entries =>
      dsimp only at hstep
      split_ifs at hstep <;> cases hstep
      · exact ⟨⟨rfl, rfl, rfl, rfl⟩, rfl, hleaves⟩
      · exact ⟨⟨rfl, rfl, rfl, rfl⟩, rfl, goes_sound h hsound trivial⟩
  | cycleTop =>
    simp only [cycleStep] at hstep
    split_ifs at hstep
    split at hstep <;> cases hstep
    · exact ⟨⟨rfl, rfl, rfl, rfl⟩, rfl, goes_sound h hsound trivial⟩
    · exact ⟨⟨rfl, rfl, rfl, rfl⟩, rfl, calls_sound h hsound trivial⟩
  | batch due =>
    simp only [cycleStep] at hstep
    split_ifs at hstep <;> cases hstep
    · have hemptied : Cycle.Sound { cycle with body := [], phase := .tests } m.history m.generation :=
        ⟨hsound.taken, fun l hl => (nomatch hl), trivial⟩
      have hnow : Worker.Sound ⟨m.worker.flush, some { cycle with body := [], phase := .tests }, m.flushBatch cycle⟩
          m.history m.generation :=
        ⟨h.flush, fun _ hmem => Option.some.inj hmem ▸ hemptied, flushBatch_sound hsound⟩
      exact ⟨⟨rfl, rfl, rfl, rfl⟩, rfl, hnow.mono (Nat.le_refl _)⟩
    · exact ⟨⟨rfl, rfl, rfl, rfl⟩, rfl, goes_sound h hsound trivial⟩
  | endCycle running =>
    obtain ⟨-, hstep⟩ := Option.ite_none_right_eq_some.mp hstep
    cases hstep
    have hnow : Worker.Sound ⟨m.worker.flush, none,
        if running && m.stillIn cycle.snap then m.flushBatch cycle else none⟩ m.history m.generation := by
      refine ⟨h.flush, fun _ hmem => (nomatch hmem), fun s hs => ?_⟩
      dsimp only at hs
      split_ifs at hs
      · exact flushBatch_sound hsound s hs
      · cases hs
    exact ⟨⟨rfl, rfl, rfl, rfl⟩, rfl, hnow.mono (Nat.le_refl _)⟩
  | _ =>
    simp only [cycleStep] at hstep
    exact entryStep_sound h hcycle hstep

/-- The checks of submit pass only in the generation of the snapshot, and the call was made
between the two. -/
theorem post_sound (h : m.Sound) {s : Submission} (hs : m.worker.posting = some s) (running enabled : Bool) :
    m.Same (m.post s running enabled) ∧
      (m.post s running enabled).worker.Sound (m.history ++ [m.view]) m.generation ∧
      ∀ s' ∈ (m.post s running enabled).posts, s'.Posted (m.history ++ [m.view]) := by
  have hgrown : m.worker.Sound (m.history ++ [m.view]) m.generation := h.worker.mono (Nat.le_refl _)
  have hsubmission := hgrown.posting s hs
  rw [post]
  split_ifs with hchecks
  · exact ⟨⟨rfl, rfl, rfl, rfl⟩, ⟨hgrown.flush, hgrown.cycle, fun _ hmem => (nomatch hmem)⟩,
      fun s' hs' => (h.posts s' hs').mono⟩
  · refine ⟨⟨rfl, rfl, rfl, rfl⟩, ⟨hgrown.flush, hgrown.cycle, fun _ hmem => (nomatch hmem)⟩, fun s' hs' => ?_⟩
    obtain hs' | hs' := List.mem_append.mp hs'
    · exact (h.posts s' hs').mono
    · cases List.mem_singleton.mp hs'
      simp only [not_or, ne_eq, not_not] at hchecks
      have hcalled : s.calledIn = s.snap.view.generation :=
        Nat.le_antisymm (hchecks.2.2.2.1 ▸ hsubmission.called.2) hsubmission.called.1
      exact ⟨hsubmission.taken.moment, hsubmission.lines, hcalled⟩

theorem step_sound (h : m.Sound) (hstep : m.step e = some t) : t.Sound := by
  obtain ⟨u, hact, rfl⟩ := Option.map_eq_some_iff.mp hstep
  have hsame : ∀ {u : Machine}, m.Same u → u.posts = m.posts →
      u.worker.Sound (m.history ++ [m.view]) m.generation →
      ({ u with history := u.history ++ [u.view] } : Machine).Sound := by
    intro u hu hposts hworker
    refine ⟨?_, fun s hs => ?_⟩
    · rw [hu.history, hu.view, hu.generation]
      exact hworker
    · rw [hu.history]
      exact (h.posts s (hposts ▸ hs)).mono
  cases act_acts hact with
  | callers hworker hposts hgeneration hhistory =>
    refine ⟨?_, fun s hs => ?_⟩
    · rw [hhistory, hworker]
      exact h.worker.mono hgeneration
    · rw [hhistory]
      exact (h.posts s (hposts ▸ hs)).mono
  | begins hfree =>
    refine hsame ⟨rfl, rfl, rfl, rfl⟩ rfl ?_
    have hgrown : m.worker.Sound (m.history ++ [m.view]) m.generation := h.worker.mono (Nat.le_refl _)
    refine ⟨hgrown.flush, fun cycle hcycle => ?_, hgrown.posting⟩
    cases hcycle
    exact ⟨m.snapshot_taken, fun l hl => (nomatch hl), trivial⟩
  | post hs running enabled =>
    obtain ⟨hu, hworker, hposts⟩ := post_sound h hs running enabled
    refine ⟨?_, fun s' hs' => ?_⟩
    · rw [hu.history, hu.view, hu.generation]
      exact hworker
    · rw [hu.history, hu.view]
      exact hposts s' hs'
  | turn hturn =>
    cases hturn with
    | flush hnone hflush =>
      obtain ⟨hu, hposts, hworker⟩ := flushStep_sound h.worker hflush
      exact hsame hu hposts hworker
    | sweep hnone hidle hcycle hsweep =>
      obtain ⟨hu, hposts, hworker⟩ := cycleStep_sound h.worker hcycle hsweep
      exact hsame hu hposts hworker

theorem start_sound : ({} : Machine).Sound :=
  ⟨⟨trivial, fun _ h => (nomatch h), fun _ h => (nomatch h)⟩, fun _ h => (nomatch h)⟩

theorem exec_sound {events : List Event} (hrun : exec step {} events = some m) : m.Sound :=
  exec_preserves (fun _ _ _ => step_sound) start_sound hrun

end
end Machine
end SlsteamMoon.ManifestDonor
