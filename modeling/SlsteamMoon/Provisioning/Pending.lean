import SlsteamMoon.Provisioning.Forgotten

/-! The pending Proton mappings: one that is wanted stays in the file until it has been put into Steam's configuration. -/
namespace SlsteamMoon.Provisioning
open KeyValues PendingProton Runs

/-- The event leaves the app managed, and no removal of it begins. -/
def Event.Keeps (a : AppId) : Event → Prop
  | .start managed _ => a ∈ managed
  | .restart _ managed _ => a ∈ managed
  | .reload _ managed _ => a ∈ managed
  | .diesPublishing _ _ _ managed _ => a ∈ managed
  | .forgetBegin _ appId _ => appId ≠ a
  | _ => True

namespace Process
variable {P P' : Process} {p : Nat} {e : Event} {a : AppId}

/-- The process has the app, and what its flush is about to clear has been applied for it. -/
structure Holds (P : Process) (a : AppId) : Prop where
  managed : a ∈ P.managed
  unremoved : a ∉ P.pendingRemovals
  unforgotten : ∀ preserve, P.forgetting ≠ .begun a preserve
  loaded : ∀ fileIds, P.flush = .loaded fileIds → a ∈ fileIds → a ∈ P.needProton
  applied : ∀ fileIds, P.flush = .applied fileIds → a ∉ fileIds

private theorem Holds.of_idle (hmanaged : a ∈ P.managed) (hunremoved : a ∉ P.pendingRemovals)
    (hunforgotten : ∀ preserve, P.forgetting ≠ .begun a preserve) (hflush : P.flush = .idle) : P.Holds a where
  managed := hmanaged
  unremoved := hunremoved
  unforgotten := hunforgotten
  loaded _ hloaded := by
    rw [hflush] at hloaded
    cases hloaded
  applied _ happlied := by
    rw [hflush] at happlied
    cases happlied

private theorem holds_fresh {managed : Finset AppId} (added : Finset AppId) (ha : a ≠ 0) (h : a ∈ managed) :
    (fresh managed added).Holds a :=
  .of_idle (Finset.mem_filter.mpr ⟨h, UInt32.pos_iff_ne_zero.mpr ha⟩) (Finset.notMem_empty a)
    (fun _ => Forgetting.noConfusion) rfl

theorem Holds.flushLoad (h : P.Holds a) (required : Finset AppId) (answers : Answers) (file : Option Bytes) :
    (P.flushLoad required answers file).Holds a := by
  have hunread : ∀ needProton,
      ({ P with needProton, flush := if needProton = ∅ then .idle else .unread } : Process).Holds a := by
    intro needProton
    refine ⟨h.managed, h.unremoved, h.unforgotten, fun _ hflush => ?_, fun _ hflush => ?_⟩
    · dsimp only at hflush
      split at hflush <;> cases hflush
    · dsimp only at hflush
      split at hflush <;> cases hflush
  unfold Process.flushLoad
  dsimp only
  split
  · exact hunread _
  split
  · next ids hread =>
    -- what the file lists of the managed apps is needed from here on
    have hneed : a ∈ ids → a ∈ P.needProton ∪ P.managed ∩ required ∪ ids ∩ P.managed := fun hin =>
      Finset.mem_union_right _ (Finset.mem_inter.mpr ⟨hin, h.managed⟩)
    refine ⟨h.managed, h.unremoved, h.unforgotten, fun fileIds hflush hin => ?_, fun fileIds hflush hin => ?_⟩
    · dsimp only at hflush ⊢
      split at hflush
      · cases hflush
      · cases hflush
        exact hneed hin
    · dsimp only at hflush
      split at hflush
      · next hempty =>
        cases hflush
        exact absurd (hempty ▸ hneed hin) (Finset.notMem_empty a)
      · cases hflush
  · exact hunread _

theorem Holds.flushInject {file : ProtonMapping.ConfigFile} (h : P.Holds a) (hinject : P.flushInject file = some P') :
    P'.Holds a ∨ a ∈ P.needProton ∧ P.injected file = true := by
  have hidle : ({ P with flush := .idle } : Process).Holds a := .of_idle h.managed h.unremoved h.unforgotten rfl
  rw [Process.flushInject] at hinject
  cases hflush : P.flush with
  | idle =>
    rw [hflush] at hinject
    cases hinject
  | unread =>
    rw [hflush] at hinject
    cases hinject
    exact .inl hidle
  | loaded fileIds =>
    rw [hflush] at hinject
    cases hinject
    by_cases hinjected : P.injected file = true
    · by_cases hin : a ∈ fileIds
      · exact .inr ⟨h.loaded fileIds hflush hin, hinjected⟩
      · rw [if_pos hinjected]
        refine .inl ⟨h.managed, h.unremoved, h.unforgotten, fun _ hloaded => ?_, fun _ happlied => ?_⟩
        · cases hloaded
        · cases happlied
          exact hin
    · rw [if_neg hinjected]
      exact .inl hidle
  | applied fileIds =>
    rw [hflush] at hinject
    cases hinject

theorem Holds.markProtonNeeded (h : P.Holds a) (held : Held) : (P.markProtonNeeded held).Holds a := by
  unfold Process.markProtonNeeded
  split
  · exact h
  split
  · exact h
  · exact ⟨h.managed, fun hin => h.unremoved (Finset.mem_of_mem_erase hin), h.unforgotten,
      fun fileIds hflush hin => Finset.mem_insert_of_mem (h.loaded fileIds hflush hin), h.applied⟩

theorem Holds.moves (h : P.Holds a) (ha : a ≠ 0) (hmoves : P.Moves p e P') (hkeeps : e.Keeps a) :
    P'.Holds a ∨ ∃ file, e = .flushInject p file ∧ a ∈ P.needProton ∧ P.injected file = true := by
  cases hmoves with
  | terminal => exact .inl ⟨h.managed, h.unremoved, h.unforgotten, h.loaded, h.applied⟩
  | restart managed added => exact .inl (holds_fresh added ha hkeeps)
  | dies i call managed added => exact .inl (holds_fresh added ha hkeeps)
  | reload managed added =>
    exact .inl ⟨Finset.mem_filter.mpr ⟨hkeeps, UInt32.pos_iff_ne_zero.mpr ha⟩, h.unremoved, h.unforgotten, h.loaded,
      h.applied⟩
  | snapshot appId => exact .inl ⟨h.managed, h.unremoved, h.unforgotten, h.loaded, h.applied⟩
  | mark i held idle => exact .inl (h.markProtonNeeded held)
  | persisted answers idle =>
    exact .inl ⟨h.managed, Finset.notMem_empty a, h.unforgotten, h.loaded, h.applied⟩
  | flushLoad required answers file idle => exact .inl (h.flushLoad required answers file)
  | flushInject file P' hinject =>
    exact (h.flushInject hinject).imp_right fun hdone => ⟨file, rfl, hdone⟩
  | flushClear answers fileIds applied =>
    exact .inl (.of_idle h.managed h.unremoved h.unforgotten rfl)
  | forgetBegin appId preserve idle =>
    refine .inl ⟨h.managed, fun hin => ?_, fun _ hbegun => ?_, fun fileIds hflush hin => ?_, h.applied⟩
    · exact (Finset.mem_insert.mp hin).elim (fun hsame => hkeeps hsame.symm) h.unremoved
    · cases hbegun
      exact hkeeps rfl
    · exact Finset.mem_erase.mpr ⟨Ne.symm hkeeps, h.loaded fileIds hflush hin⟩
  | forgetClean cleanup forgetting hidle => exact .inl ⟨h.managed, h.unremoved, hidle a, h.loaded, h.applied⟩
  | forgetEnd appId idle =>
    exact .inl ⟨h.managed, fun hin => h.unremoved (Finset.mem_of_mem_erase hin),
      fun _ => Forgetting.noConfusion, h.loaded, h.applied⟩

end Process

namespace System
variable {s t : System} {e : Event} {a : AppId}

/-- The mapping is in the file, and every process holds the app. -/
structure Waits (s : System) (a : AppId) : Prop where
  sound : s.Sound
  holds : ∀ P ∈ s.processes, P.Holds a
  listed : a ∈ listed s.pending

/-- A flush puts the mapping into the configuration. -/
def Injects (s : System) (a : AppId) (e : Event) : Prop :=
  ∃ p file P, e = .flushInject p file ∧ s.processes[p]? = some P ∧ a ∈ P.needProton ∧ P.injected file = true

private theorem Waits.ne_zero (h : s.Waits a) : a ≠ 0 := fun hzero => zero_notMem_listed s.pending (hzero ▸ h.listed)

theorem Waits.listed_step (h : s.Waits a) (hs : step s e = some t) : a ∈ PendingProton.listed t.pending := by
  have hin := h.listed
  cases (step_steps hs).pending with
  | same hpending => exact hpending ▸ hin
  | persists P answers hP hpending =>
    rw [hpending]
    have hholds := h.holds P hP
    rcases listed_persist (h.sound P hP).positive answers s.pending with hlisted | hlisted
    · exact hlisted ▸ hin
    · rw [hlisted]
      exact Finset.mem_sdiff.mpr ⟨Finset.mem_union_left _ (Finset.mem_inter.mpr ⟨hin, hholds.managed⟩), hholds.unremoved⟩
  | clears P answers fileIds hP applied hpending =>
    rw [hpending]
    rcases listed_clear fileIds answers s.pending with hlisted | ⟨hsame, -⟩
    · exact hlisted ▸ hin
    · exact absurd (hsame ▸ hin) ((h.holds P hP).applied fileIds applied)
  | removes P answers appId preserve hP begun hpending =>
    rw [hpending]
    rcases (listed_remove appId answers s.pending).1 with hlisted | hlisted
    · exact hlisted ▸ hin
    · rw [hlisted]
      refine Finset.mem_erase.mpr ⟨fun hsame => ?_, hin⟩
      exact (h.holds P hP).unforgotten preserve (hsame ▸ begun)

theorem Waits.stepped (h : s.Waits a) (hs : step s e = some t) (hkeeps : e.Keeps a) : t.Waits a ∨ s.Injects a e := by
  by_cases hinjects : s.Injects a e
  · exact .inr hinjects
  refine .inl ⟨h.sound.stepped hs, (step_steps hs).processes.preserves h.holds (fun managed added he => ?_) ?_, h.listed_step hs⟩
  · subst he
    exact Process.holds_fresh added h.ne_zero hkeeps
  · intro p P P' hP hmoves
    rcases (h.holds P (List.mem_of_getElem? hP)).moves h.ne_zero hmoves hkeeps with hholds | ⟨file, he, hneed, hdone⟩
    · exact hholds
    · exact absurd ⟨p, file, P, he, hP, hneed, hdone⟩ hinjects

/-- While every process keeps the app, a mapping leaves the file only behind a flush that has put it into the
configuration: no lock that is not had, no file that cannot be read and no other process's write loses it. -/
theorem pending_mapping_waits {events : List Event} (hsound : s.Sound)
    (hidle : ∀ P ∈ s.processes, a ∈ P.managed ∧ a ∉ P.pendingRemovals ∧ P.flush = .idle ∧ P.forgetting = .idle)
    (hlisted : a ∈ listed s.pending) (hrun : exec step s events = some t) (hkeeps : ∀ e ∈ events, e.Keeps a) :
    a ∈ listed t.pending ∨
      ∃ before e after u, events = before ++ e :: after ∧ exec step s before = some u ∧ u.Injects a e := by
  have hwaits : s.Waits a := by
    refine ⟨hsound, fun P hP => ?_, hlisted⟩
    obtain ⟨hmanaged, hunremoved, hflush, hforgetting⟩ := hidle P hP
    refine .of_idle hmanaged hunremoved (fun _ hbegun => ?_) hflush
    rw [hforgetting] at hbegun
    cases hbegun
  clear hidle hlisted hsound
  induction events generalizing s with
  | nil =>
    cases hrun
    exact .inl hwaits.listed
  | cons e events ih =>
    obtain ⟨u, hs, hrun⟩ := Option.bind_eq_some_iff.mp hrun
    obtain ⟨he, hrest⟩ := List.forall_mem_cons.mp hkeeps
    rcases hwaits.stepped hs he with hwaits | hinjects
    · refine (ih hrun hrest hwaits).imp_right ?_
      rintro ⟨before, f, after, v, rfl, hbefore, hinjects⟩
      exact ⟨e :: before, f, after, v, rfl, by rw [exec_cons, hs]; exact hbefore, hinjects⟩
    · exact .inr ⟨[], e, events, s, rfl, rfl, hinjects⟩

def waitingFile : System where
  processes := []
  cache _ := ⟨⟨fun _ => none, fun _ => none, false, false, false⟩, none⟩
  pending := some (content {5})

/-- One process cannot read the file for its flush, and another cannot for its own mark. -/
def unreadRun : List Event :=
  [.start {5} {5}, .flushLoad 0 {5} ⟨true, false, true⟩, .start {5} {5}, .snapshotCachePublication 1 5, .markProtonNeeded 1 0,
    .persistPendingProtonMappings 1 ⟨true, false, true⟩]

theorem unread_mapping_waits : 5 ∈ listed (waitingFile.ran unreadRun).pending := by
  have hlisted : 5 ∈ listed waitingFile.pending := by
    rw [waitingFile, listed, Option.bind_some, parsePendingProtonText_content (by decide)]
    exact Finset.mem_singleton_self 5
  have hkeeps : ∀ e ∈ unreadRun, e.Keeps 5 := by
    simp only [unreadRun, List.forall_mem_cons, Event.Keeps, Finset.mem_singleton, true_and]
    exact fun _ h => absurd h List.not_mem_nil
  rcases pending_mapping_waits (t := waitingFile.ran unreadRun) (fun _ h => absurd h List.not_mem_nil)
    (fun _ h => absurd h List.not_mem_nil) hlisted rfl hkeeps with hin | ⟨before, e, after, u, hsplit, -, p, file, P, rfl, -⟩
  · exact hin
  · have hmem : Event.flushInject p file ∈ unreadRun := hsplit ▸ List.mem_append_right _ List.mem_cons_self
    simp [unreadRun] at hmem

end System
end SlsteamMoon.Provisioning
