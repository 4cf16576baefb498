import SlsteamMoon.ManifestDonor.Posts

/-! What becomes of a captured code: it waits in the queue or at a flush until something
releases it, unless a flush judges it by a copy of the ownership older than the code. -/
namespace SlsteamMoon.ManifestDonor
open Runs

/-- The code need not be kept any longer: its generation is over, the ownership is
complete, the depot is licensed, or the code is too old. -/
def View.Releases (v : View) (c : CapturedCode) : Prop :=
  c.generation ≠ v.generation ∨ v.complete = true ∨ c.depotId ∈ v.owned ∨ c.expired v.now = true

instance (v : View) (c : CapturedCode) : Decidable (v.Releases c) :=
  inferInstanceAs (Decidable (_ ∨ _ ∨ _ ∨ _))

/-- The codes that a flush is going to put back. -/
def Flush.held : Flush → List CapturedCode
  | .judged _ _ retained | .retaining retained => retained
  | _ => []

/-- The wanted list and the copy of the ownership that a flush is going to judge by. -/
def Flush.judgement : Flush → Option (List ManifestKey × Snapshot)
  | .owned wanted snap => some (wanted, snap)
  | _ => none

/-- The event takes the queue over for a flush. -/
def Event.takesOver : Event → Bool
  | .swap => true
  | _ => false

/-- The event empties the queue. -/
def Event.empties : Event → Bool
  | .clearCaptured | .readConfig false => true
  | _ => false

/-- Only an unwanted code, a code too old and one that the view releases are not kept. -/
theorem verdict_releases {wanted : List ManifestKey} {view : View} {now : Nat} {c : CapturedCode}
    (h : verdict wanted view now c ≠ .retain) :
    (verdict wanted view now c = .drop ∧ ⟨c.depotId, c.gid⟩ ∉ wanted) ∨ c.expired now = true ∨
      (⟨c.depotId, c.gid⟩ ∈ wanted ∧ view.Releases c) := by
  cases hverdict : verdict wanted view now c with
  | retain => exact absurd hverdict h
  | submit =>
    obtain ⟨-, howned, hwanted, -⟩ := Machine.verdict_submit hverdict
    exact .inr (.inr ⟨hwanted, .inr (.inr (.inl howned))⟩)
  | drop =>
    by_cases hwanted : ⟨c.depotId, c.gid⟩ ∈ wanted
    · refine .inr ?_
      by_contra hnot
      simp only [not_or, Bool.not_eq_true, not_and, View.Releases, ne_eq, not_not] at hnot
      obtain ⟨hfresh, hview⟩ := hnot
      obtain ⟨hgeneration, hcomplete, howned, -⟩ := hview hwanted
      simp [verdict, shouldSubmitCapturedCode, shouldRetainCapturedCode, hwanted, hfresh, hgeneration, hcomplete,
        howned] at hverdict
    · exact .inl ⟨rfl, hwanted⟩

namespace Machine

/-- Some moment since the capture has released the code. -/
def Released (m : Machine) (c : CapturedCode) : Prop := ∃ v ∈ m.history.drop c.index, v.Releases c

instance (m : Machine) (c : CapturedCode) : Decidable (m.Released c) :=
  inferInstanceAs (Decidable (∃ v ∈ m.history.drop c.index, v.Releases c))

/-- The code waits, has been released, was not wanted at its flush or found the queue full. -/
def Accounted (m : Machine) (c : CapturedCode) : Prop :=
  c ∈ m.queue ∨ c ∈ m.worker.flush.held ∨ m.Released c ∨ (c, false) ∈ m.dropped ∨
    ∃ entry ∈ m.crowded, entry.1 = c ∧ 256 ≤ entry.2

instance (m : Machine) (c : CapturedCode) : Decidable (m.Accounted c) :=
  inferInstanceAs (Decidable (_ ∨ _ ∨ _ ∨ _ ∨ ∃ entry ∈ m.crowded, entry.1 = c ∧ 256 ≤ entry.2))

/-- A flush judges a wanted code that was captured since its copy of the ownership, and
that nothing has released, only by a copy that does not release it either; the queue is
emptied, by a logoff or with donations off, only of codes that have been released. -/
structure Timely (m : Machine) (e : Event) : Prop where
  swap : e.takesOver = true → ∀ judgement ∈ m.worker.flush.judgement, ∀ c ∈ m.queue, judgement.2.index < c.index →
    ⟨c.depotId, c.gid⟩ ∈ judgement.1 → ¬m.Released c → ¬judgement.2.view.Releases c
  empties : e.empties = true → ∀ c ∈ m.queue, m.Released c

instance (m : Machine) (e : Event) : Decidable (m.Timely e) :=
  decidable_of_iff (_ ∧ _) ⟨fun h => ⟨h.1, h.2⟩, fun h => ⟨h.swap, h.empties⟩⟩

/-- The codes that wait are numbered by steps of the past, and every accepted code is
accounted for. -/
structure Keeps (m : Machine) : Prop where
  queued : ∀ c ∈ m.queue, c.index < m.history.length
  held : ∀ c ∈ m.worker.flush.held, c.index < m.history.length
  accounted : ∀ c ∈ m.accepted, m.Accounted c

section
variable {m t : Machine} {e : Event} {c : CapturedCode}

private theorem released_of_getElem? {k : Nat} {v : View} (hk : c.index ≤ k) (hv : m.history[k]? = some v)
    (h : v.Releases c) : m.Released c := by
  refine ⟨v, List.mem_of_getElem? (i := k - c.index) ?_, h⟩
  rw [List.getElem?_drop, Nat.add_sub_cancel' hk]
  exact hv

/-- The step's own view is one moment more. -/
def seen (t : Machine) : Machine := { t with history := t.history ++ [t.view] }

theorem Released.seen (h : m.Released c) (hhistory : t.history = m.history) : t.seen.Released c := by
  obtain ⟨v, hv, hreleases⟩ := h
  refine ⟨v, ?_, hreleases⟩
  rw [Machine.seen, hhistory, List.drop_append]
  exact List.mem_append_left _ hv

private theorem released_seen (hindex : c.index ≤ t.history.length) (h : t.view.Releases c) : t.seen.Released c :=
  released_of_getElem? hindex List.getElem?_concat_length h

/-- A step after which every code that waited is still there or accounted for otherwise. -/
theorem Keeps.step (h : m.Keeps) (hhistory : t.history = m.history)
    (hqueue : ∀ c ∈ t.queue, c.index ≤ m.history.length) (hheld : ∀ c ∈ t.worker.flush.held, c.index ≤ m.history.length)
    (haccepted : ∀ c ∈ t.accepted, c ∈ m.accepted ∨ c ∈ t.queue)
    (hwaits : ∀ c, c ∈ m.queue ∨ c ∈ m.worker.flush.held → t.seen.Accounted c)
    (hdropped : m.dropped ⊆ t.dropped) (hcrowded : m.crowded ⊆ t.crowded) : t.seen.Keeps := by
  have hlength : t.seen.history.length = m.history.length + 1 := by
    rw [Machine.seen, List.length_append, hhistory, List.length_singleton]
  refine ⟨fun c hc => ?_, fun c hc => ?_, fun c hc => ?_⟩
  · rw [hlength]
    exact Nat.lt_succ_of_le (hqueue c hc)
  · rw [hlength]
    exact Nat.lt_succ_of_le (hheld c hc)
  · obtain hold | hnew := haccepted c hc
    · obtain hq | hh | hreleased | hunwanted | ⟨entry, hentry, hfull⟩ := h.accounted c hold
      · exact hwaits c (.inl hq)
      · exact hwaits c (.inr hh)
      · exact .inr (.inr (.inl (hreleased.seen hhistory)))
      · exact .inr (.inr (.inr (.inl (hdropped hunwanted))))
      · exact .inr (.inr (.inr (.inr ⟨entry, hcrowded hentry, hfull⟩)))
    · exact .inl hnew

/-- A step that leaves the codes where they are. -/
structure Quiet (m t : Machine) : Prop where
  queue : t.queue = m.queue
  held : t.worker.flush.held = m.worker.flush.held
  accepted : t.accepted = m.accepted
  dropped : t.dropped = m.dropped
  crowded : t.crowded = m.crowded
  history : t.history = m.history

theorem Keeps.quiet (h : m.Keeps) (hquiet : m.Quiet t) : t.seen.Keeps := by
  refine h.step hquiet.history (fun c hc => ?_) (fun c hc => ?_) (fun c hc => .inl (hquiet.accepted ▸ hc))
    (fun c hc => ?_) (by rw [hquiet.dropped]; exact List.Subset.refl _) (by rw [hquiet.crowded]; exact List.Subset.refl _)
  · exact Nat.le_of_lt (h.queued c (hquiet.queue ▸ hc))
  · exact Nat.le_of_lt (h.held c (hquiet.held ▸ hc))
  · obtain hc | hc := hc
    · exact .inl (hquiet.queue ▸ hc)
    · exact .inr (.inl (hquiet.held ▸ hc))

/-- A step that only takes codes out of the queue, each of them released. -/
theorem Keeps.takes (h : m.Keeps) (hhistory : t.history = m.history) (hsub : t.queue ⊆ m.queue)
    (hheld : t.worker.flush.held = m.worker.flush.held) (haccepted : t.accepted = m.accepted)
    (hgone : ∀ c ∈ m.queue, c ∈ t.queue ∨ t.seen.Released c) (hdropped : t.dropped = m.dropped)
    (hcrowded : t.crowded = m.crowded) : t.seen.Keeps := by
  refine h.step hhistory (fun c hc => Nat.le_of_lt (h.queued c (hsub hc)))
    (fun c hc => Nat.le_of_lt (h.held c (hheld ▸ hc))) (fun c hc => .inl (haccepted ▸ hc)) (fun c hc => ?_)
    (by rw [hdropped]; exact List.Subset.refl _) (by rw [hcrowded]; exact List.Subset.refl _)
  obtain hc | hc := hc
  · obtain hstays | hreleased := hgone c hc
    · exact .inl hstays
    · exact .inr (.inr (.inl hreleased))
  · exact .inr (.inl (hheld ▸ hc))

/-- Codes leave the queue when they are too old. -/
theorem expired_gone (h : m.Keeps) (hhistory : t.history = m.history) (hnow : t.now = m.now)
    (hqueue : ∀ c ∈ m.queue, c.expired m.now = false → c ∈ t.queue) :
    ∀ c ∈ m.queue, c ∈ t.queue ∨ t.seen.Released c := by
  intro c hc
  cases hexpired : c.expired m.now with
  | false => exact .inl (hqueue c hc hexpired)
  | true =>
    refine .inr (released_seen ?_ (.inr (.inr (.inr ?_))))
    · rw [hhistory]
      exact Nat.le_of_lt (h.queued c hc)
    · rw [Machine.view, hnow]
      exact hexpired

private theorem submitCapturedCode_keeps (h : m.Keeps) (depotId : DepotId) (gid : Gid) (code : UInt64)
    (generation : Nat)
    (enabled : Bool) (seen : Nat) : (m.submitCapturedCode depotId gid code generation enabled seen).seen.Keeps := by
  have hfilter : ∀ c ∈ m.queue, c.expired m.now = false → c ∈ m.queue.filter fun c => !c.expired m.now :=
    fun c hc hfresh => List.mem_filter.mpr ⟨hc, by rw [hfresh]; rfl⟩
  simp only [submitCapturedCode]
  split_ifs with hrefused hstale hfull
  · exact h.quiet ⟨rfl, rfl, rfl, rfl, rfl, rfl⟩
  · exact h.quiet ⟨rfl, rfl, rfl, rfl, rfl, rfl⟩
  · exact h.takes rfl (fun c hc => (List.mem_filter.mp hc).1) rfl rfl (expired_gone h rfl rfl hfilter) rfl rfl
  · refine h.step rfl (fun c hc => ?_) (fun c hc => Nat.le_of_lt (h.held c hc)) (fun c hc => ?_) (fun c hc => ?_)
      (List.Subset.refl _) (List.Subset.refl _)
    · obtain hc | hc := List.mem_append.mp hc
      · exact Nat.le_of_lt (h.queued c (List.mem_filter.mp hc).1)
      · cases List.mem_singleton.mp hc
        exact Nat.le_refl _
    · obtain hc | hc := List.mem_append.mp hc
      · exact .inl hc
      · exact .inr (List.mem_append_right _ hc)
    · obtain hc | hc := hc
      · obtain hstays | hreleased := expired_gone
          (t := { m with queue := m.queue.filter fun c => !c.expired m.now }) h rfl rfl hfilter c hc
        · exact .inl (List.mem_append_left _ hstays)
        · exact .inr (.inr (.inl hreleased))
      · exact .inr (.inl hc)

private theorem setFlush_keeps (h : m.Keeps) {flush : Flush} (hheld : flush.held = m.worker.flush.held) :
    (m.setFlush flush).seen.Keeps := h.quiet ⟨rfl, hheld, rfl, rfl, rfl, rfl⟩

/-- A code captured before the copy of the ownership is judged by what it has lived to see;
one captured after it is what the condition is about. -/
theorem swap_keeps (hsound : m.worker.flush.Sound m.history m.generation) (h : m.Keeps) (hok : m.Timely .swap)
    {wanted : List ManifestKey} {snap : Snapshot} (howned : m.worker.flush = .owned wanted snap) :
    (m.swap wanted snap).seen.Keeps := by
  have hjudges := hok.swap rfl (wanted, snap) (by rw [howned]; rfl)
  rw [howned] at hsound
  have hmoment : m.history[snap.index]? = some snap.view := hsound.moment
  have hreleased : ∀ c ∈ m.queue, ⟨c.depotId, c.gid⟩ ∈ wanted → snap.view.Releases c → m.Released c := by
    intro c hc hwanted hreleases
    obtain hlt | hle := Nat.lt_or_ge snap.index c.index
    · by_contra hnot
      exact hjudges c hc hlt hwanted hnot hreleases
    · exact released_of_getElem? hle hmoment hreleases
  refine h.step rfl (fun c hc => (nomatch hc)) (fun c hc => Nat.le_of_lt (h.queued c (List.mem_filter.mp hc).1))
    (fun c hc => .inl hc) (fun c hc => ?_) (List.subset_append_left _ _) (List.Subset.refl _)
  obtain hc | hc := hc
  · by_cases hretain : verdict wanted snap.view m.now c = .retain
    · exact .inr (.inl (List.mem_filter.mpr ⟨hc, decide_eq_true hretain⟩))
    · refine .inr (.inr ?_)
      obtain ⟨hdrop, hunwanted⟩ | hexpired | ⟨hwanted, hreleases⟩ := verdict_releases hretain
      · refine .inr (.inl (List.mem_append_right _ (List.mem_map.mpr ⟨c, ?_, ?_⟩)))
        · exact List.mem_filter.mpr ⟨hc, decide_eq_true hdrop⟩
        · rw [decide_eq_false hunwanted]
      · exact .inl (released_seen (Nat.le_of_lt (h.queued c hc)) (.inr (.inr (.inr hexpired))))
      · exact .inl ((hreleased c hc hwanted hreleases).seen rfl)
  · rw [howned] at hc
    exact (nomatch hc)

/-- A code that finds no room leaves behind a queue that is full. -/
theorem putBack_keeps (h : m.Keeps) {retained : List CapturedCode}
    (hretaining : m.worker.flush = .retaining retained) : (m.putBack retained).seen.Keeps := by
  have hheld : m.worker.flush.held = retained := by
    rw [hretaining]
    rfl
  refine h.step rfl (fun c hc => ?_) (fun c hc => (nomatch hc)) (fun c hc => .inl hc) (fun c hc => ?_)
    (List.Subset.refl _) (List.subset_append_left _ _)
  · obtain hc | hc := List.mem_append.mp hc
    · exact Nat.le_of_lt (h.queued c hc)
    · exact Nat.le_of_lt (h.held c (hheld ▸ List.mem_of_mem_take hc))
  · obtain hc | hc := hc
    · exact .inl (List.mem_append_left _ hc)
    · rw [hheld, ← List.take_append_drop (min (256 - min 256 m.queue.length) retained.length) retained] at hc
      obtain hkept | hleft := List.mem_append.mp hc
      · exact .inl (List.mem_append_right _ hkept)
      · have hroom : min (256 - min 256 m.queue.length) retained.length < retained.length := by
          have hpos := List.length_pos_of_mem hleft
          rw [List.length_drop] at hpos
          exact Nat.lt_of_sub_pos hpos
        refine .inr (.inr (.inr (.inr ⟨_, List.mem_append_right _ (List.mem_map.mpr ⟨c, hleft, rfl⟩), rfl, ?_⟩)))
        rw [List.length_append, List.length_take]
        omega

private theorem flushStep_keeps (hsound : m.worker.flush.Sound m.history m.generation) (h : m.Keeps) (hok : m.Timely e)
    (hstep : m.flushStep m.worker.flush e = some t) : t.seen.Keeps := by
  cases e with
  | callFlush =>
    simp only [flushStep] at hstep
    split_ifs at hstep with hidle
    cases hstep
    exact setFlush_keeps h (by rw [hidle.1]; rfl)
  | look =>
    simp only [flushStep] at hstep
    split_ifs at hstep with hcalled <;> cases hstep
    · exact setFlush_keeps h (by rw [hcalled]; rfl)
    · exact setFlush_keeps h (by rw [hcalled]; rfl)
  | readConfig enabled =>
    simp only [flushStep] at hstep
    split_ifs at hstep with hbegun henabled <;> cases hstep
    · exact setFlush_keeps h (by rw [hbegun]; rfl)
    · rw [Bool.not_eq_true] at henabled
      subst henabled
      exact h.takes rfl (List.nil_subset _) (by rw [hbegun]; rfl) rfl
        (fun c hc => .inr ((hok.empties rfl c hc).seen rfl)) rfl rfl
  | refreshWanted answer =>
    simp only [flushStep] at hstep
    split_ifs at hstep with hconfigured
    cases answer with
    | none =>
      cases hstep
      exact h.takes rfl (fun c hc => (List.mem_filter.mp hc).1) (by rw [hconfigured]; rfl) rfl
        (expired_gone h rfl rfl fun c hc hfresh => List.mem_filter.mpr ⟨hc, by rw [hfresh]; rfl⟩) rfl rfl
    | some wanted =>
      cases hstep
      exact setFlush_keeps h (by rw [hconfigured]; rfl)
  | readOwnership =>
    simp only [flushStep] at hstep
    split at hstep
    · rename_i wanted hrefreshed
      split_ifs at hstep
      cases hstep
      exact setFlush_keeps h (by rw [hrefreshed]; rfl)
    · cases hstep
  | swap =>
    simp only [flushStep] at hstep
    split at hstep
    · rename_i wanted snap howned
      cases hstep
      exact swap_keeps hsound h hok howned
    · cases hstep
  | callSubmit =>
    simp only [flushStep] at hstep
    split at hstep
    · rename_i snap body retained hjudged
      cases hstep
      exact h.quiet ⟨rfl, by rw [hjudged]; rfl, rfl, rfl, rfl, rfl⟩
    · cases hstep
  | putBack =>
    simp only [flushStep] at hstep
    split at hstep
    · rename_i retained hretaining
      cases hstep
      exact putBack_keeps h hretaining
    · cases hstep
  | _ => cases hstep

private theorem quiet_calls {cycle : Cycle} (hidle : m.worker.flush = .idle) :
    m.Quiet ((m.setCycle cycle).setFlush .called) := ⟨rfl, by rw [hidle]; rfl, rfl, rfl, rfl, rfl⟩

private theorem entryStep_quiet {cycle : Cycle} (hidle : m.worker.flush = .idle)
    (hstep : m.entryStep cycle e = some t) : m.Quiet t := by
  cases e with
  | tests goOn =>
    simp only [entryStep] at hstep
    split at hstep
    · split_ifs at hstep <;> cases hstep <;> exact ⟨rfl, rfl, rfl, rfl, rfl, rfl⟩
    · cases hstep
  | head archived =>
    simp only [entryStep] at hstep
    split at hstep <;> cases hstep
    exact ⟨rfl, rfl, rfl, rfl, rfl, rfl⟩
  | before enabled =>
    simp only [entryStep] at hstep
    split at hstep
    · split_ifs at hstep <;> cases hstep <;> exact ⟨rfl, rfl, rfl, rfl, rfl, rfl⟩
    · cases hstep
  | request =>
    simp only [entryStep] at hstep
    split at hstep <;> cases hstep
    exact ⟨rfl, rfl, rfl, rfl, rfl, rfl⟩
  | answer code =>
    simp only [entryStep] at hstep
    split at hstep <;> cases hstep
    exact quiet_calls hidle
  | afterAnswer =>
    simp only [entryStep] at hstep
    split at hstep
    · split_ifs at hstep <;> cases hstep <;> exact ⟨rfl, rfl, rfl, rfl, rfl, rfl⟩
    · cases hstep
  | _ => cases hstep

/-- The sweep leaves the codes to its flushes. -/
theorem cycleStep_quiet {cycle : Cycle} (hidle : m.worker.flush = .idle)
    (hstep : m.cycleStep cycle e = some t) : m.Quiet t := by
  cases e with
  | wantedEntries answer =>
    simp only [cycleStep] at hstep
    split_ifs at hstep
    cases answer with
    | none =>
      cases hstep
      exact ⟨rfl, rfl, rfl, rfl, rfl, rfl⟩
    | some entries =>
      dsimp only at hstep
      split_ifs at hstep <;> cases hstep <;> exact ⟨rfl, rfl, rfl, rfl, rfl, rfl⟩
  | cycleTop =>
    simp only [cycleStep] at hstep
    split_ifs at hstep
    split at hstep <;> cases hstep
    · exact ⟨rfl, rfl, rfl, rfl, rfl, rfl⟩
    · exact quiet_calls hidle
  | batch due =>
    simp only [cycleStep] at hstep
    split_ifs at hstep <;> cases hstep <;> exact ⟨rfl, rfl, rfl, rfl, rfl, rfl⟩
  | endCycle running =>
    obtain ⟨-, hstep⟩ := Option.ite_none_right_eq_some.mp hstep
    cases hstep
    exact ⟨rfl, rfl, rfl, rfl, rfl, rfl⟩
  | _ =>
    simp only [cycleStep] at hstep
    exact entryStep_quiet hidle hstep

private theorem turn_keeps (hsound : m.Sound) (h : m.Keeps) (hok : m.Timely e) (hturn : m.Turn e t) : t.seen.Keeps := by
  cases hturn with
  | flush hnone hflush => exact flushStep_keeps hsound.worker.flush h hok hflush
  | sweep hnone hidle hcycle hsweep => exact h.quiet (cycleStep_quiet hidle hsweep)

private theorem act_keeps (hsound : m.Sound) (h : m.Keeps) (hok : m.Timely e) (hact : m.act e = some t) :
    t.seen.Keeps := by
  cases e with
  | observePackage packageId available contents =>
    simp only [act] at hact
    split_ifs at hact
    cases hact
    exact h.quiet ⟨rfl, rfl, rfl, rfl, rfl, rfl⟩
  | onLicenseList message =>
    simp only [act] at hact
    split_ifs at hact
    cases hact
    exact h.quiet ⟨rfl, rfl, rfl, rfl, rfl, rfl⟩
  | onLoggedOff =>
    simp only [act] at hact
    split_ifs at hact
    cases hact
    exact h.quiet ⟨rfl, rfl, rfl, rfl, rfl, rfl⟩
  | publishSession =>
    obtain ⟨rest, -, rfl⟩ := Option.map_eq_some_iff.mp hact
    cases rest <;> exact h.quiet ⟨rfl, rfl, rfl, rfl, rfl, rfl⟩
  | clearCaptured =>
    simp only [act] at hact
    split_ifs at hact
    cases hact
    exact h.takes rfl (List.nil_subset _) rfl rfl (fun c hc => .inr ((hok.empties rfl c hc).seen rfl)) rfl rfl
  | submitCapturedCode depotId gid code generation enabled seen =>
    cases hact
    exact submitCapturedCode_keeps h depotId gid code generation enabled seen
  | tick ms =>
    cases hact
    exact h.quiet ⟨rfl, rfl, rfl, rfl, rfl, rfl⟩
  | beginCycle =>
    simp only [act] at hact
    split_ifs at hact <;> cases hact <;> exact h.quiet ⟨rfl, rfl, rfl, rfl, rfl, rfl⟩
  | post running enabled =>
    obtain ⟨s, -, rfl⟩ := Option.map_eq_some_iff.mp hact
    rw [post]
    split_ifs <;> exact h.quiet ⟨rfl, rfl, rfl, rfl, rfl, rfl⟩
  | _ => exact turn_keeps hsound h hok (turn_of_act hact)

private theorem start_keeps : ({} : Machine).Keeps :=
  ⟨fun _ h => (nomatch h), fun _ h => (nomatch h), fun _ h => (nomatch h)⟩

/-- Codes wait along a run in which no flush judges by a copy that is out of date. -/
theorem exec_keeps {events : List Event} (htimely : Meets step Timely {} events)
    (hrun : exec step {} events = some m) : m.Keeps :=
  (exec_invariant (P := fun m => m.Sound ∧ m.Keeps)
    (fun m e t ⟨hsound, hkeeps⟩ hok hstep => by
      refine ⟨step_sound hsound hstep, ?_⟩
      obtain ⟨u, hact, rfl⟩ := Option.map_eq_some_iff.mp hstep
      exact act_keeps hsound hkeeps hok hact)
    ⟨start_sound, start_keeps⟩ htimely hrun).2

/-- A code of a depot that no package has named so far is flushed once and put back; once
the package is seen the next flush sends it. -/
def putBackRun : List Event :=
  [.onLicenseList ⟨none, [some 1]⟩, .publishSession, .submitCapturedCode 100 7 9 1 true 1, .callFlush, .look,
    .readConfig true, .refreshWanted (some [⟨100, 7⟩]), .readOwnership, .swap, .callSubmit, .putBack,
    .observePackage 1 true (some ([5], [100])), .callFlush, .look, .readConfig true, .refreshWanted (some [⟨100, 7⟩]),
    .readOwnership, .swap, .callSubmit, .post true true, .putBack]

/-- A second licence list arrives, and a code is captured under it, between the copy of the
ownership and the swap of the queue. -/
def overtakenRun : List Event :=
  [.onLicenseList ⟨none, [some 1]⟩, .publishSession, .submitCapturedCode 100 7 9 1 true 1, .callFlush, .look,
    .readConfig true, .refreshWanted (some [⟨100, 7⟩, ⟨101, 8⟩]), .readOwnership, .onLicenseList ⟨none, [some 1]⟩,
    .publishSession, .submitCapturedCode 101 8 9 2 true 2, .swap]

/-- Each POST carries codes of its own generation for depots owned in it and is called for
in that generation; the codes that were taken wait as long as they should in a run in which
no flush judges by a copy that is out of date. -/
theorem donations_belong_and_codes_wait {events : List Event} (hrun : exec step {} events = some m) :
    (∀ s ∈ m.posts, s.Posted m.history) ∧
      (Meets step Timely {} events → ∀ c ∈ m.accepted, m.Accounted c) :=
  ⟨(exec_sound hrun).posts, fun htimely => (exec_keeps htimely hrun).accounted⟩

theorem putBackRun_donates : ∃ m, exec step {} putBackRun = some m ∧ m.posts ≠ [] ∧
    (∀ s ∈ m.posts, s.Posted m.history) ∧ ∀ c ∈ m.accepted, m.Accounted c := by
  have hsome : (exec step {} putBackRun).isSome := by decide +kernel
  have hsent : ∀ m ∈ exec step {} putBackRun, m.posts ≠ [] := by decide +kernel
  have htimely : Meets step Timely {} putBackRun := by decide +kernel
  obtain ⟨m, hrun⟩ := Option.isSome_iff_exists.mp hsome
  have hlaw := donations_belong_and_codes_wait hrun
  exact ⟨m, hrun, hsent m hrun, hlaw.1, hlaw.2 htimely⟩

/-- The code of the second licence list is dropped as stale, though it is current and wanted
and its depot may yet turn out to be licensed. -/
theorem overtakenRun_loses_code : ¬∀ events m, exec step {} events = some m →
    (∀ s ∈ m.posts, s.Posted m.history) ∧ ∀ c ∈ m.accepted, m.Accounted c := by
  intro hclaim
  have hsome : (exec step {} overtakenRun).isSome := by decide +kernel
  have hlost : ∀ m ∈ exec step {} overtakenRun, ¬∀ c ∈ m.accepted, m.Accounted c := by decide +kernel
  obtain ⟨m, hrun⟩ := Option.isSome_iff_exists.mp hsome
  exact hlost m hrun (hclaim overtakenRun m hrun).2

end
end Machine
end SlsteamMoon.ManifestDonor
