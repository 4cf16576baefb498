import SlsteamMoon.CachePair.Publish

/-! What a publication has done to the pair at each access, whatever fails, and what a
rollback whose own steps succeed leaves. -/
namespace SlsteamMoon.CachePair
open KeyValues Runs ProvisionCache

namespace Phase

/-- The member has not been replaced yet. -/
@[simp] def original : Phase → Member → Bool
  | .eraseTerminal, _ => true
  | .inspect _, _ => true
  | .copyFile _, _ => true
  | .unstage, _ => true
  | .prepareTemp m, n => m = .buffer || n = .metadata
  | .renameTemp m, n => m = .buffer || n = .metadata
  | _, _ => false

/-- The member has been replaced and no restore has begun. -/
@[simp] def replaced : Phase → Member → Bool
  | .prepareTemp m, n => m = .metadata && n = .buffer
  | .renameTemp m, n => m = .metadata && n = .buffer
  | .setMarker, _ => true
  | .markerIsPresent _, _ => true
  | .resetMarker, _ => true
  | .discardBackup _, _ => true
  | .removeDlcMetadata, _ => true
  | .returned result, _ => result
  | _, _ => false

/-- Staging of the member is done and its copy not used up. -/
@[simp] def covered : Phase → Member → Bool
  | .inspect m, n => m = .metadata && n = .buffer
  | .copyFile m, n => m = .metadata && n = .buffer
  | .unstage, n => n = .buffer
  | .prepareTemp _, _ => true
  | .renameTemp _, _ => true
  | .setMarker, _ => true
  | .markerIsPresent _, _ => true
  | .resetMarker, _ => true
  | .restoreBuffer, _ => true
  | .restoreMetadata _, n => n = .metadata
  | _, _ => false

/-- The restore of the member is over. -/
@[simp] def restored : Phase → Member → Bool
  | .restoreMetadata _, n => n = .buffer
  | .returned result, _ => !result
  | _, _ => false

/-- The marker has not been set yet, or is set back. -/
@[simp] def markerKept : Phase → Bool
  | .markerIsPresent _ => false
  | .resetMarker => false
  | .discardBackup _ => false
  | .removeDlcMetadata => false
  | .returned result => !result
  | _ => true

/-- The later phase asserts nothing of the members that the earlier one does not. -/
def Follows (p q : Phase) : Prop :=
  ∀ m, (q.original m → p.original m) ∧ (q.replaced m → p.replaced m) ∧ (q.covered m → p.covered m)

end Phase

/-- What a staging flag promises about a member that was `old`. -/
def Covers (d : Disk) (staged : Bool) (m : Member) (old : Option Bytes) : Prop :=
  if staged then d.backup m = old else old = none

/-- The state of the pair at every access, failed restores included. -/
structure Tracked (c : Publication) (old : Disk) (s : State) : Prop where
  file : ∀ m, s.disk.file m = old.file m ∨ s.disk.file m = some (c.content m)
  original : ∀ m, s.phase.original m → s.disk.file m = old.file m
  replaced : ∀ m, s.phase.replaced m → s.disk.file m = some (c.content m)
  covered : ∀ m, s.phase.covered m → Covers s.disk (s.staged m) m (old.file m)

private theorem tracked_start (c : Publication) (old : Disk) : Tracked c old (State.start old) where
  file _ := .inl rfl
  original _ _ := rfl
  replaced _ h := by cases h
  covered _ h := by cases h

private theorem restoreMember_spec {path : String} {m : Member} {d : Disk} {staged inspected : Bool}
    {failure : Option String} {r : Restored} (h : restoreMember path m d staged inspected failure = some r)
    {old : Option Bytes} (hcovers : Covers d staged m old) :
    (r.disk.file m = d.file m ∨ r.disk.file m = old) ∧
      (inspected = true → failure = none → r.disk.file m = old) ∧
      (∀ n, n ≠ m → r.disk.file n = d.file n ∧ r.disk.backup n = d.backup n) ∧ r.disk.marker = d.marker := by
  unfold restoreMember at h
  split at h
  · next hstaged =>
    rw [Covers, if_pos hstaged] at hcovers
    split at h
    · cases h
      exact ⟨.inl rfl, fun _ hfailure => absurd hfailure (Option.some_ne_none _), fun _ _ => ⟨rfl, rfl⟩, rfl⟩
    · split at h
      · next copy hcopy =>
        cases h
        have hfile : some copy = old := hcopy.symm.trans hcovers
        refine ⟨.inr ?_, fun _ _ => ?_, fun n hn => ⟨?_, ?_⟩, rfl⟩
        · simpa [Disk.setFile, Disk.setBackup] using hfile
        · simpa [Disk.setFile, Disk.setBackup] using hfile
        · exact Function.update_of_ne hn _ _
        · exact Function.update_of_ne hn _ _
      · cases h
  · next hstaged =>
    rw [Covers, if_neg hstaged] at hcovers
    split at h
    · next hinspected =>
      cases h
      exact ⟨.inl rfl, fun hyes => absurd hyes hinspected, fun _ _ => ⟨rfl, rfl⟩, rfl⟩
    · split at h
      · next hnone =>
        cases h
        exact ⟨.inl rfl, fun _ _ => hnone.trans hcovers.symm, fun _ _ => ⟨rfl, rfl⟩, rfl⟩
      · cases h
        exact ⟨.inl rfl, fun _ hfailure => absurd hfailure (Option.some_ne_none _), fun _ _ => ⟨rfl, rfl⟩, rfl⟩
      · cases h
        have hfile : (d.setFile m none).file m = old := by simp [Disk.setFile, hcovers]
        exact ⟨.inr hfile, fun _ _ => hfile, fun n hn => ⟨Function.update_of_ne hn _ _, rfl⟩, rfl⟩

/-- Neither the members nor a copy that is still needed change. -/
structure Untouched (s t : State) : Prop where
  follows : s.phase.Follows t.phase
  file : t.disk.file = s.disk.file
  copies : ∀ m, t.phase.covered m → t.disk.backup m = s.disk.backup m ∧ t.staged m = s.staged m

/-- What one access does to the members, their copies and the marker. -/
inductive Access (c : Publication) (s : State) : Event → State → Prop
  | quiet {e : Event} {t : State} (untouched : Untouched s t) (marker : t.disk.marker = s.disk.marker)
      (restored : ∀ m, t.phase.restored m → s.phase.original m ∨ s.phase.restored m)
      (kept : t.phase.markerKept → s.phase.markerKept) : Access c s e t
  | staged {e : Event} (m : Member) (d : Disk) (staged : Bool) (phase : s.phase = .inspect m ∨ s.phase = .copyFile m)
      (file : d.file = s.disk.file) (marker : d.marker = s.disk.marker)
      (backup : ∀ n, n ≠ m → d.backup n = s.disk.backup n) (covers : Covers d staged m (s.disk.file m)) :
      Access c s e ({ s with disk := d }.stagingDone m staged)
  | written {e : Event} (m : Member) (phase : s.phase = .renameTemp m) :
      Access c s e ({ s with disk := s.disk.setFile m (some (c.content m)) }.writeDone m)
  | marked {present result : Bool} {t : State} (untouched : Untouched s t) (marker : t.disk.marker = present)
      (restored : ∀ m, t.phase.restored m = false) (reset : t.phase.markerKept → s.phase = .resetMarker) :
      Access c s (.setMarker present result) t
  | restored {inspected : Bool} {failure : Option String} {t : State} {path : String} {r : Restored} (m : Member)
      (restore : restoreMember path m s.disk (s.staged m) inspected failure = some r) (covered : s.phase.covered m)
      (disk : t.disk = r.disk) (staged : t.staged = s.staged) (kept : s.phase.markerKept)
      (original : ∀ n, t.phase.original n = false) (replaced : ∀ n, t.phase.replaced n = false)
      (copies : ∀ n, t.phase.covered n → n ≠ m ∧ s.phase.covered n)
      (others : ∀ n, n ≠ m → t.phase.restored n → s.phase.original n ∨ s.phase.restored n) :
      Access c s (.restoreMember inspected failure) t

/-- An access that leaves the disk and the staging flags alone. -/
theorem Access.goto {c : Publication} {s t : State} {e : Event} (hfollows : s.phase.Follows t.phase)
    (hdisk : t.disk = s.disk) (hstaged : t.staged = s.staged)
    (hrestored : ∀ m, t.phase.restored m → s.phase.original m ∨ s.phase.restored m)
    (hkept : t.phase.markerKept → s.phase.markerKept) : Access c s e t := by
  have hcopies : ∀ m, t.phase.covered m → t.disk.backup m = s.disk.backup m ∧ t.staged m = s.staged m := by
    intro m _
    rw [hdisk, hstaged]
    exact ⟨rfl, rfl⟩
  exact .quiet ⟨hfollows, by rw [hdisk], hcopies⟩ (by rw [hdisk]) hrestored hkept

theorem Access.stagingFailed {c : Publication} {s : State} {e : Event} {m : Member}
    (hphase : s.phase = .inspect m ∨ s.phase = .copyFile m) (error : String) :
    Access c s e (s.stagingFailed m error) := by
  rcases hphase with hp | hp
  · cases m with
    | buffer =>
      exact .goto (by simp [Phase.Follows, State.stagingFailed, State.fail]) rfl rfl (by simp [hp]) (by simp [hp])
    | metadata =>
      exact .goto (by simp [Phase.Follows, State.stagingFailed, State.fail, hp]) rfl rfl (by simp [hp]) (by simp [hp])
  · cases m with
    | buffer =>
      exact .goto (by simp [Phase.Follows, State.stagingFailed, State.fail]) rfl rfl (by simp [hp]) (by simp [hp])
    | metadata =>
      exact .goto (by simp [Phase.Follows, State.stagingFailed, State.fail, hp]) rfl rfl (by simp [hp]) (by simp [hp])

private theorem inspect_access {c : Publication} {s t : State} {failure : Option String} {staleRemoved : Bool}
    (h : State.step c s (.inspect failure staleRemoved) = some t) : Access c s (.inspect failure staleRemoved) t := by
  simp only [State.step] at h
  split at h
  · next m hphase =>
    split at h
    · cases h
      exact .stagingFailed (.inl hphase) _
    · cases h
      exact .goto (by simp [Phase.Follows, State.goto, hphase]) rfl rfl (by simp [State.goto]) (by simp [hphase])
    · next hnone =>
      cases h
      cases staleRemoved with
      | false => exact .staged m s.disk false (.inl hphase) rfl rfl (fun _ _ => rfl) hnone
      | true =>
        exact .staged m (s.disk.setBackup m none) false (.inl hphase) rfl rfl
          (fun _ hn => Function.update_of_ne hn _ _) hnone
  · cases h

private theorem copyPart_access {c : Publication} {s t : State} {copy : Option Bytes}
    (h : State.step c s (.copyPart copy) = some t) : Access c s (.copyPart copy) t := by
  simp only [State.step] at h
  split at h
  · next m hphase =>
    cases h
    refine .quiet ⟨fun _ => ⟨id, id, id⟩, rfl, fun n hn => ⟨?_, rfl⟩⟩ rfl (fun _ hn => .inr hn) id
    have hnm : n ≠ m := by
      rintro rfl
      cases n <;> simp [hphase] at hn
    exact Function.update_of_ne hnm _ _
  · cases h

private theorem copyFile_access {c : Publication} {s t : State} {failure : Option String}
    (h : State.step c s (.copyFile failure) = some t) : Access c s (.copyFile failure) t := by
  simp only [State.step] at h
  split at h
  · next m hphase =>
    split at h
    · cases h
      exact .stagingFailed (.inr hphase) _
    · next content hcontent =>
      cases h
      have hcovers : Covers (s.disk.setBackup m (some content)) true m (s.disk.file m) := by
        simp [Covers, Disk.setBackup, hcontent]
      exact .staged m (s.disk.setBackup m (some content)) true (.inr hphase) rfl rfl
        (fun _ hn => Function.update_of_ne hn _ _) hcovers
    · cases h
  · cases h

private theorem setMarker_access {c : Publication} {s t : State} {present result : Bool}
    (h : State.step c s (.setMarker present result) = some t) : Access c s (.setMarker present result) t := by
  simp only [State.step] at h
  split at h
  · next hphase =>
    cases h
    exact .marked ⟨by simp [Phase.Follows, hphase], rfl, fun _ _ => ⟨rfl, rfl⟩⟩ rfl (by simp) (by simp)
  · next hphase =>
    cases h
    exact .marked ⟨by simp [Phase.Follows, hphase], rfl, fun _ _ => ⟨rfl, rfl⟩⟩ rfl (by simp) fun _ => hphase
  · cases h

private theorem restoreMember_access {c : Publication} {s t : State} {inspected : Bool} {failure : Option String}
    (h : State.step c s (.restoreMember inspected failure) = some t) :
    Access c s (.restoreMember inspected failure) t := by
  simp only [State.step] at h
  split at h
  · next hphase =>
    obtain ⟨r, hr, rfl⟩ := Option.map_eq_some_iff.mp h
    exact .restored .buffer hr (by simp [hphase]) rfl rfl (by simp [hphase]) (by simp) (by simp) (by simp)
      (by simp [hphase])
  · next hphase =>
    obtain ⟨r, hr, rfl⟩ := Option.map_eq_some_iff.mp h
    exact .restored .buffer hr (by simp [hphase]) rfl rfl (by simp [hphase]) (by simp) (by simp) (by simp [hphase])
      fun n hn hdone => absurd (by simpa using hdone) hn
  · next bufferRestored hphase =>
    obtain ⟨r, hr, rfl⟩ := Option.map_eq_some_iff.mp h
    refine .restored .metadata hr (by simp [hphase]) rfl rfl (by simp [hphase]) (by simp) (by simp) (by simp)
      fun n hn _ => .inr ?_
    cases n with
    | buffer => simp [hphase]
    | metadata => exact absurd rfl hn
  · cases h

/-- Every step of a publication is such an access. -/
theorem step_access {c : Publication} {s t : State} {e : Event} (h : State.step c s e = some t) :
    Access c s e t := by
  cases e with
  | eraseTerminal ok =>
    simp only [State.step] at h
    split at h
    · next hphase =>
      cases h
      cases ok with
      | false => exact .goto (by simp [Phase.Follows, State.fail]) rfl rfl (by simp [hphase]) (by simp [hphase])
      | true => exact .quiet ⟨by simp [Phase.Follows, hphase], rfl, by simp⟩ rfl (by simp) (by simp [hphase])
    · cases h
  | inspect failure staleRemoved => exact inspect_access h
  | copyPart copy => exact copyPart_access h
  | copyFile failure => exact copyFile_access h
  | prepareTemp failure =>
    simp only [State.step] at h
    split at h
    · next m hphase =>
      cases h
      cases failure with
      | some message =>
        exact .goto (by simp [Phase.Follows, State.fail, hphase]) rfl rfl (by simp [State.fail]) (by simp [hphase])
      | none =>
        exact .goto (by simp [Phase.Follows, State.fail, hphase]) rfl rfl (by simp [State.fail]) (by simp [hphase])
    · cases h
  | renameTemp failure =>
    simp only [State.step] at h
    split at h
    · next m hphase =>
      cases h
      cases failure with
      | some message =>
        exact .goto (by simp [Phase.Follows, State.fail, hphase]) rfl rfl (by simp [State.fail]) (by simp [hphase])
      | none => exact .written m hphase
    · cases h
  | setMarker present result => exact setMarker_access h
  | markerIsPresent reported =>
    simp only [State.step] at h
    split at h
    · next operationSucceeded hphase =>
      cases h
      split
      · exact .goto (by simp [Phase.Follows, State.goto, hphase]) rfl rfl (by simp [State.goto]) (by simp [State.goto])
      · exact .goto (by simp [Phase.Follows, State.fail, hphase]) rfl rfl (by simp [State.fail]) (by simp [State.fail])
    · cases h
  | restoreMember inspected failure => exact restoreMember_access h
  | discardBackup ok =>
    simp only [State.step] at h
    split at h
    · next m hphase =>
      cases h
      cases m with
      | buffer =>
        exact .quiet ⟨by simp [Phase.Follows, hphase], by split <;> rfl, by simp⟩ (by split <;> rfl) (by simp)
          (by simp)
      | metadata =>
        exact .quiet ⟨by simp [Phase.Follows, hphase], by split <;> rfl, by simp⟩ (by split <;> rfl) (by simp)
          (by simp)
    · cases h
  | removeDlcMetadata ok =>
    simp only [State.step] at h
    split at h
    · next hphase =>
      cases h
      exact .quiet ⟨by simp [Phase.Follows, hphase], rfl, by simp⟩ rfl (by simp) (by simp)
    · cases h

section Invariants

variable {c : Publication} {old : Disk} {s t : State} {e : Event}

theorem Tracked.untouched (h : Tracked c old s) (hst : Untouched s t) : Tracked c old t where
  file m := by
    rw [hst.file]
    exact h.file m
  original m hm := by
    rw [hst.file]
    exact h.original m ((hst.follows m).1 hm)
  replaced m hm := by
    rw [hst.file]
    exact h.replaced m ((hst.follows m).2.1 hm)
  covered m hm := by
    have hold := h.covered m ((hst.follows m).2.2 hm)
    obtain ⟨hbackup, hstaged⟩ := hst.copies m hm
    rwa [Covers, hbackup, hstaged]

theorem Tracked.stagingDone {d : Disk} {m : Member} {staged : Bool} (h : Tracked c old s)
    (hphase : s.phase = .inspect m ∨ s.phase = .copyFile m) (hfile : d.file = s.disk.file)
    (hbackup : ∀ n, n ≠ m → d.backup n = s.disk.backup n) (hcovers : Covers d staged m (s.disk.file m)) :
    Tracked c old ({ s with disk := d }.stagingDone m staged) := by
  have horiginal : ∀ n, s.disk.file n = old.file n := fun n =>
    h.original n (by rcases hphase with hp | hp <;> rw [hp] <;> rfl)
  refine ⟨fun n => .inl ?_, fun n _ => ?_, fun n hn => ?_, fun n hn => ?_⟩
  · exact (congrFun hfile n).trans (horiginal n)
  · exact (congrFun hfile n).trans (horiginal n)
  · cases m <;> cases n <;> cases hn
  · by_cases hnm : n = m
    · subst hnm
      rw [← horiginal n]
      simpa [State.stagingDone, Covers] using hcovers
    · have hold : s.phase.covered n := by
        rcases hphase with hp | hp <;> rw [hp] <;> cases m <;> cases n <;> simp_all [State.stagingDone]
      have hcopy := h.covered n hold
      simpa [State.stagingDone, Covers, Function.update_of_ne hnm, hbackup n hnm] using hcopy

/-- The rename that makes the new content of a member visible. -/
theorem Tracked.written {m : Member} (h : Tracked c old s) (hphase : s.phase = .renameTemp m) :
    Tracked c old ({ s with disk := s.disk.setFile m (some (c.content m)) }.writeDone m) := by
  refine ⟨fun n => ?_, fun n hn => ?_, fun n hn => ?_, fun n hn => ?_⟩
  · by_cases hnm : n = m
    · subst hnm
      exact .inr (Function.update_self _ _ _)
    · simpa only [State.writeDone, State.goto, Disk.setFile, Function.update_of_ne hnm] using h.file n
  · have hold : n ≠ m ∧ s.phase.original n := by
      rw [hphase]
      cases m <;> cases n <;> simp_all [State.writeDone, State.goto]
    simpa only [State.writeDone, State.goto, Disk.setFile, Function.update_of_ne hold.1] using
      h.original n hold.2
  · by_cases hnm : n = m
    · subst hnm
      exact Function.update_self _ _ _
    · have hold : s.phase.replaced n := by
        rw [hphase]
        cases m <;> cases n <;> simp_all [State.writeDone, State.goto]
      simpa only [State.writeDone, State.goto, Disk.setFile, Function.update_of_ne hnm] using h.replaced n hold
  · have hold : s.phase.covered n := by rw [hphase]; rfl
    exact h.covered n hold

private theorem tracked_step (h : Tracked c old s) (hstep : State.step c s e = some t) : Tracked c old t := by
  cases step_access hstep with
  | quiet huntouched => exact h.untouched huntouched
  | staged m d staged hphase hfile _ hbackup hcovers => exact h.stagingDone hphase hfile hbackup hcovers
  | written m hphase => exact h.written hphase
  | marked huntouched => exact h.untouched huntouched
  | restored m hr hm hdisk hstaged _ horiginal hreplaced hcopies =>
    obtain ⟨hself, _, hothers, _⟩ := restoreMember_spec hr (h.covered m hm)
    refine ⟨fun n => ?_, fun n hn => ?_, fun n hn => ?_, fun n hn => ?_⟩
    · rw [hdisk]
      by_cases hnm : n = m
      · subst hnm
        rcases hself with hsame | hold
        · rw [hsame]
          exact h.file n
        · exact .inl hold
      · rw [(hothers n hnm).1]
        exact h.file n
    · rw [horiginal n] at hn
      cases hn
    · rw [hreplaced n] at hn
      cases hn
    · obtain ⟨hnm, hold⟩ := hcopies n hn
      have hcopy := h.covered n hold
      rwa [Covers, hdisk, hstaged, (hothers n hnm).2]

theorem tracked_exec {events : List Event} (hrun : exec (State.step c) (State.start old) events = some s) :
    Tracked c old s :=
  exec_preserves (fun _ _ _ => tracked_step) (tracked_start c old) hrun

/-- The steps of a rollback succeed: the member is restored and the marker set back. -/
def Restores (c : Publication) (s : State) : Event → Prop
  | .restoreMember inspected failure => inspected = true ∧ failure = none
  | .setMarker present _ => s.phase = .resetMarker → present = c.markerBefore
  | _ => True

instance (c : Publication) (s : State) (e : Event) : Decidable (Restores c s e) := by
  cases e <;> unfold Restores <;> infer_instance

structure Reverted (old : Disk) (s : State) : Prop where
  file : ∀ m, s.phase.restored m → s.disk.file m = old.file m
  marker : s.phase.markerKept → s.disk.marker = old.marker

private theorem reverted_start (old : Disk) : Reverted old (State.start old) where
  file _ h := by cases h
  marker _ := rfl

private theorem reverted_step (hbefore : c.markerBefore = old.marker) (hs : Tracked c old s) (h : Reverted old s)
    (hok : Restores c s e) (hstep : State.step c s e = some t) : Reverted old t := by
  cases step_access hstep with
  | quiet huntouched hmarker hrestored hkept =>
    refine ⟨fun m hm => ?_, fun hm => hmarker.trans (h.marker (hkept hm))⟩
    rw [huntouched.file]
    rcases hrestored m hm with horiginal | hdone
    · exact hs.original m horiginal
    · exact h.file m hdone
  | staged m d staged hphase _ hmarker =>
    have hkept : s.phase.markerKept := by rcases hphase with hp | hp <;> rw [hp] <;> rfl
    refine ⟨fun n hn => ?_, fun _ => hmarker.trans (h.marker hkept)⟩
    cases m <;> cases hn
  | written m hphase =>
    refine ⟨fun n hn => ?_, fun _ => h.marker (by simp [hphase])⟩
    cases m <;> cases hn
  | marked _ hmarker hrestored hreset =>
    refine ⟨fun m hm => ?_, fun hm => ?_⟩
    · rw [hrestored m] at hm
      cases hm
    · exact hmarker.trans ((hok (hreset hm)).trans hbefore)
  | restored m hr hm hdisk _ hkept _ _ _ hothers =>
    obtain ⟨rfl, rfl⟩ := hok
    obtain ⟨_, hself, hsame, hmarker⟩ := restoreMember_spec hr (hs.covered m hm)
    refine ⟨fun n hn => ?_, fun _ => ?_⟩
    · rw [hdisk]
      by_cases hnm : n = m
      · subst hnm
        exact hself rfl rfl
      · rw [(hsame n hnm).1]
        rcases hothers n hnm hn with horiginal | hdone
        · exact hs.original n horiginal
        · exact h.file n hdone
    · rw [hdisk, hmarker]
      exact h.marker hkept

/-- A false result whose rollback went through left nothing of the publication. -/
theorem returned_false {events : List Event}
    (hrun : exec (State.step c) (State.start old) events = some s) (hbefore : c.markerBefore = old.marker)
    (hok : Meets (State.step c) (Restores c) (State.start old) events) (hphase : s.phase = .returned false) :
    s.disk.file = old.file ∧ s.disk.marker = old.marker := by
  have hinvariant : Tracked c old s ∧ Reverted old s :=
    exec_invariant (P := fun s => Tracked c old s ∧ Reverted old s)
      (fun _ _ _ h hok hstep => ⟨tracked_step h.1 hstep, reverted_step hbefore h.1 h.2 hok hstep⟩)
      ⟨tracked_start c old, reverted_start old⟩ hok hrun
  refine ⟨funext fun m => ?_, ?_⟩
  · exact hinvariant.2.file m (by simp [hphase])
  · exact hinvariant.2.marker (by simp [hphase])

end Invariants

end SlsteamMoon.CachePair
