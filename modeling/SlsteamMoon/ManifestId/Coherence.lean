import SlsteamMoon.ManifestId.Index

/-! The in-memory catalogue against the record files, over runs of calls and restarts. -/
namespace SlsteamMoon.ManifestId

namespace Disk

theorem record_clear (disk : Disk) (d e : DepotId) (file : Option PinFile) (h : ∀ n, file ≠ some (.node n)) :
    (disk.clear d file h).record e = if e = d then none else disk.record e := by
  by_cases he : e = d
  · subst he
    match file with
    | none => simp [record, clear]
    | some .unreadable => simp [record, clear]
    | some (.node n) => exact absurd rfl (h n)
  · simp [record, clear, he]

theorem record_put (disk : Disk) (n : PinNode) (h : n.depotId ≠ 0) (e : DepotId) :
    (disk.put n h).record e = if e = n.depotId then some n.gid else disk.record e := by
  by_cases he : e = n.depotId
  · simp [record, put, he]
  · simp [record, put, he]

private theorem file_clear_of_ne (disk : Disk) {d e : DepotId} (file : Option PinFile) (h : ∀ n, file ≠ some (.node n))
    (he : e ≠ d) : (disk.clear d file h).file e = disk.file e := by
  simp [clear, he]

end Disk

namespace Process

/-- Before the load the catalogue is empty, after it it says what the files say. -/
structure Faithful (p : Process) : Prop where
  fresh : p.loaded = false → ∀ d, p.catalog d = none
  agrees : p.loaded = true → ∀ d, (p.catalog d).getD [] = (p.disk.record d).getD []

private theorem faithful_start (disk : Disk) : (start disk).Faithful := ⟨fun _ _ => rfl, fun h => by cases h⟩

theorem loaded_load (p : Process) : p.loadCatalogLocked.loaded = true := by
  unfold loadCatalogLocked
  split <;> simp_all

theorem disk_load (p : Process) : p.loadCatalogLocked.disk = p.disk := by
  unfold loadCatalogLocked
  split <;> rfl

theorem Faithful.load {p : Process} (h : p.Faithful) : p.loadCatalogLocked.Faithful := by
  refine ⟨fun hfresh => absurd (p.loaded_load.symm.trans hfresh) (by simp), fun _ d => ?_⟩
  rw [disk_load]
  unfold loadCatalogLocked
  split
  · exact h.agrees ‹_› d
  · rename_i hloaded
    have hnone := h.fresh (by simpa using hloaded) d
    simp only [Disk.record]
    split
    · rename_i n hfile
      obtain ⟨hname, hd⟩ := p.disk.named d n hfile
      by_cases hgid : n.gid = []
      · simp [hgid, hnone]
      · simp [hname, hd, hgid]
    · simp [hnone]

/-- Both sides of one depot change together. -/
private theorem agrees_update {p : Process} (h : ∀ d, (p.catalog d).getD [] = (p.disk.record d).getD [])
    {disk : Disk} {d : DepotId} {entry : Option Gid} (hself : disk.record d = entry)
    (hother : ∀ e, e ≠ d → disk.record e = p.disk.record e) (e : DepotId) :
    (Function.update p.catalog d entry e).getD [] = (disk.record e).getD [] := by
  by_cases he : e = d
  · subst he
    rw [Function.update_self, hself]
  · rw [Function.update_of_ne he, hother e he]
    exact h e

private theorem retireOne_agrees (removes : DepotId → Bool) {p : Process} (d : DepotId)
    (h : p.loaded = true ∧ p.Faithful) :
    (retireOne removes p d).loaded = true ∧ (retireOne removes p d).Faithful := by
  unfold retireOne
  split
  · exact h
  · refine ⟨h.1, fun hfresh => absurd (h.1.symm.trans hfresh) (by simp), fun _ => ?_⟩
    refine agrees_update (h.2.agrees h.1) (by simp [Disk.remove, Disk.record_clear]) fun e he => ?_
    simp [Disk.remove, Disk.record_clear, he]

private theorem retireDepotsLocked_faithful {p : Process} (h : p.Faithful) (depotIds : List DepotId)
    (removes : DepotId → Bool) : (p.retireDepotsLocked depotIds removes).Faithful := by
  have hall : ∀ q : Process, q.loaded = true ∧ q.Faithful →
      (depotIds.foldl (retireOne removes) q).loaded = true ∧
        (depotIds.foldl (retireOne removes) q).Faithful := by
    induction depotIds with
    | nil => exact fun q hq => hq
    | cons d rest ih => exact fun q hq => ih _ (retireOne_agrees removes d hq)
  exact (hall _ ⟨p.loaded_load, h.load⟩).2

/-- savePin finds the loaded catalogue or no other record, and its write is complete;
forgetApp quarantines no record of a loaded catalogue. -/
def KeepsCatalog (p : Process) : Event → Prop
  | .savePin d gid io => validPin d gid = true →
      p.disk.file d = some (.node ⟨d, gid⟩) ∨ io ≠ .refused →
      (p.loaded = true ∨ ∀ e, e ≠ d → (p.disk.record e).getD [] = []) ∧
        (p.disk.file d = some (.node ⟨d, gid⟩) ∨ io ≠ .short)
  | .forgetApp a moves _ => p.loaded = true →
      ∀ d ∈ p.index.exclusiveDepotsForApp a, moves d = true → (p.disk.record d).getD [] = []
  | _ => True

/-- A remembered pin agrees with a file that holds it, where the rest already did. -/
theorem remember_faithful {p : Process} (h : p.Faithful) {d : DepotId} {gid : Gid}
    (hothers : p.loaded = true ∨ ∀ e, e ≠ d → (p.disk.record e).getD [] = []) {disk : Disk}
    (hself : disk.record d = some gid) (hother : ∀ e, e ≠ d → disk.record e = p.disk.record e) :
    (Process.remember { p with disk } d gid).Faithful := by
  refine ⟨fun hfresh => absurd hfresh (by simp [remember]), fun _ e => ?_⟩
  rcases hothers with hloaded | hnone
  · exact agrees_update (h.agrees hloaded) hself hother e
  · by_cases he : e = d
    · subst he
      simp [remember, hself]
    · cases hl : p.loaded with
      | true => exact agrees_update (h.agrees hl) hself hother e
      | false => simp [remember, he, h.fresh hl e, hother e he, hnone e he]

private theorem savePin_faithful {p : Process} (h : p.Faithful) {d : DepotId} {gid : Gid} {io : WriteIo}
    (hok : p.KeepsCatalog (.savePin d gid io)) : (p.savePin d gid io).2.Faithful := by
  unfold savePin
  split
  · rename_i hvalid
    split
    · rename_i hsame
      exact remember_faithful h (hok hvalid (.inl hsame)).1 (by simp [Disk.record, hsame]) fun _ _ => rfl
    · rename_i hdiffers
      cases io with
      | refused => exact h
      | short =>
        rcases (hok hvalid (.inr (by simp))).2 with hsame | hshort
        · exact absurd hsame hdiffers
        · exact absurd rfl hshort
      | complete =>
        refine remember_faithful h (hok hvalid (.inr (by simp))).1 (by simp [Disk.record_put]) fun e he => ?_
        simp [Disk.record_put, he]
  · exact h

private theorem quarantineOne_record (moves : DepotId → Bool) (disk : Disk) (d e : DepotId) :
    (quarantineOne moves disk d).record e = disk.record e ∨
      e = d ∧ moves d = true ∧ (quarantineOne moves disk d).record e = none := by
  unfold quarantineOne
  split
  · rename_i hmoves
    rw [Disk.remove, Disk.record_clear]
    split
    · exact .inr ⟨‹_›, hmoves.2.2, rfl⟩
    · exact .inl rfl
  · exact .inl rfl

private theorem quarantine_record (moves : DepotId → Bool) (depots : List DepotId) (disk : Disk) (e : DepotId) :
    (depots.foldl (quarantineOne moves) disk).record e = disk.record e ∨
      e ∈ depots ∧ moves e = true ∧ (depots.foldl (quarantineOne moves) disk).record e = none := by
  induction depots generalizing disk with
  | nil => exact .inl rfl
  | cons d rest ih =>
    rw [List.foldl_cons]
    rcases ih (quarantineOne moves disk d) with hrest | ⟨hmem, hmoves, hnone⟩
    · rw [hrest]
      exact (quarantineOne_record moves disk d e).imp id
        fun ⟨hed, hmoves, hnone⟩ => ⟨by simp [hed], hed ▸ hmoves, hnone⟩
    · exact .inr ⟨List.mem_cons_of_mem d hmem, hmoves, hnone⟩

private theorem forgetApp_faithful {p : Process} (h : p.Faithful) {a : AppId} {moves : DepotId → Bool} {gone : Bool}
    (hok : p.KeepsCatalog (.forgetApp a moves gone)) : (p.forgetApp a moves gone).Faithful := by
  unfold forgetApp
  split
  · exact h
  · refine ⟨h.fresh, fun hloaded d => ?_⟩
    have hd := h.agrees hloaded d
    rcases quarantine_record moves (p.index.exclusiveDepotsForApp a) p.disk d with hsame | ⟨hmem, hmoves, hnone⟩
    · exact hd.trans (by rw [hsame])
    · exact (hd.trans (hok hloaded d hmem hmoves)).trans (by rw [hnone]; rfl)

private theorem step_faithful {p q : Process} {e : Event} (h : p.Faithful) (hok : p.KeepsCatalog e)
    (hstep : p.step e = some q) : q.Faithful := by
  cases e with
  | restart | stopInSave =>
    cases hstep
    exact faithful_start _
  | savePin d gid io =>
    cases hstep
    exact savePin_faithful h hok
  | retireDepots ds removes =>
    cases hstep
    unfold retireDepots
    split
    · exact h
    · exact retireDepotsLocked_faithful h ds removes
  | replaceScript a ds removes =>
    cases hstep
    exact retireDepotsLocked_faithful (p := { p with index := (p.index.replaceApp a ds).2 })
      ⟨h.fresh, h.agrees⟩ _ removes
  | forgetApp a moves gone =>
    cases hstep
    exact forgetApp_faithful h hok
  | getPinnedGid d =>
    cases hstep
    exact h.load

theorem Faithful.getPinnedGid {p : Process} (h : p.Faithful) (d : DepotId) :
    (p.getPinnedGid d).1 = (p.disk.record d).getD [] := by
  have hagrees := h.load.agrees p.loaded_load d
  rw [disk_load] at hagrees
  exact hagrees

/-- A call leaves the files of all depots but its own alone. -/
theorem step_frame {p q : Process} {e : Event} (hstep : p.step e = some q) {d : DepotId}
    (hd : d ∉ p.targets e) : q.disk.file d = p.disk.file d := by
  have hretire : ∀ (removes : DepotId → Bool) (ds : List DepotId) (r : Process), d ∉ ds →
      (ds.foldl (retireOne removes) r).disk.file d = r.disk.file d := by
    intro removes ds
    induction ds with
    | nil => exact fun r _ => rfl
    | cons x xs ih =>
      intro r hx
      rw [List.mem_cons, not_or] at hx
      rw [List.foldl_cons, ih _ hx.2]
      unfold retireOne
      split
      · rfl
      · exact Disk.file_clear_of_ne r.disk none (by simp) hx.1
  cases e with
  | restart =>
    cases hstep
    rfl
  | stopInSave e =>
    cases hstep
    exact Disk.file_clear_of_ne p.disk (some .unreadable) (by simp) (by simpa [targets] using hd)
  | getPinnedGid e =>
    cases hstep
    simp [Process.getPinnedGid, disk_load]
  | savePin e gid io =>
    have hne : d ≠ e := by simpa [targets] using hd
    cases hstep
    unfold savePin
    split
    · split
      · rfl
      · cases io with
        | refused => rfl
        | short => exact Disk.file_clear_of_ne p.disk (some .unreadable) (by simp) hne
        | complete => simp [remember, Disk.put, hne]
    · rfl
  | retireDepots ds removes =>
    cases hstep
    unfold Process.retireDepots
    split
    · rfl
    · rw [retireDepotsLocked, hretire removes ds _ hd, disk_load]
  | replaceScript a ds removes =>
    cases hstep
    exact (hretire removes _ _ hd).trans (by rw [disk_load])
  | forgetApp a moves gone =>
    cases hstep
    unfold Process.forgetApp
    split
    · rfl
    · change ((p.index.exclusiveDepotsForApp a).foldl (quarantineOne moves) p.disk).file d = p.disk.file d
      have hq : ∀ (ds : List DepotId) (disk : Disk), d ∉ ds →
          (ds.foldl (quarantineOne moves) disk).file d = disk.file d := by
        intro ds
        induction ds with
        | nil => exact fun disk _ => rfl
        | cons x xs ih =>
          intro disk hx
          rw [List.mem_cons, not_or] at hx
          rw [List.foldl_cons, ih _ hx.2]
          unfold quarantineOne
          split
          · exact Disk.file_clear_of_ne disk none (by simp) hx.1
          · rfl
      exact hq _ _ hd

/-- From any cache directory, over calls that keep the catalogue, getPinnedGid answers
what the depot's record holds, and no call touches another depot's record. -/
theorem pinned_gid_is_recorded (disk : Disk) (es : List Event) (p : Process)
    (hok : Runs.Meets step KeepsCatalog (start disk) es) (hrun : Runs.exec step (start disk) es = some p) :
    (∀ d, (p.getPinnedGid d).1 = (p.disk.record d).getD []) ∧
      ∀ e q, p.step e = some q → ∀ d, d ∉ p.targets e → q.disk.record d = p.disk.record d := by
  have hfaithful : p.Faithful :=
    Runs.exec_invariant (fun _ _ _ h hok hstep => step_faithful h hok hstep) (faithful_start disk) hok hrun
  refine ⟨hfaithful.getPinnedGid, fun e q hstep d hd => ?_⟩
  rw [Disk.record, Disk.record, step_frame hstep hd]

def twoPins : List Event :=
  [.savePin 1 ['5'] .complete, .restart, .getPinnedGid 1, .savePin 2 ['7'] .complete]

/-- A restart and a read stand between the two pins, so both are found. -/
theorem pinned_gid_is_recorded_after_restart :
    ∃ p, Runs.exec step (start .empty) twoPins = some p ∧
      (p.getPinnedGid 1).1 = (p.disk.record 1).getD [] ∧ p.disk.record 1 = some ['5'] := by
  refine ⟨_, rfl, (pinned_gid_is_recorded .empty twoPins _ ?_ rfl).1 1, rfl⟩
  refine .step rfl (fun _ _ => ⟨.inr fun _ _ => rfl, .inr (by decide)⟩) (.step rfl trivial (.step rfl trivial ?_))
  exact .step rfl (fun _ _ => ⟨.inl rfl, .inr (by decide)⟩) trivial

/-- After a restart the first savePin hides the record of another depot, and a forgotten
app's quarantined record stays pinned. -/
theorem pinned_gid_diverges :
    (∃ p, Runs.exec step (start .empty) [.savePin 1 ['5'] .complete, .restart, .savePin 2 ['7'] .complete] =
        some p ∧ (p.getPinnedGid 1).1 = [] ∧ p.disk.record 1 = some ['5']) ∧
    ∃ p, Runs.exec step (start .empty) [.savePin 1 ['5'] .complete, .replaceScript 9 [1] fun _ => true,
        .forgetApp 9 (fun _ => true) true] = some p ∧
      (p.getPinnedGid 1).1 = ['5'] ∧ p.disk.record 1 = none :=
  ⟨⟨_, rfl, rfl, rfl⟩, _, rfl, rfl, rfl⟩

end Process
end SlsteamMoon.ManifestId
