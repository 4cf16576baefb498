import SlsteamMoon.AppInfo.MetadataSplice

/-! What a splice transaction returns and leaves at the path when no other writer replaces the file behind
its read. -/
namespace SlsteamMoon.AppInfo

open KeyValues Runs

/-- The phases in which the transaction has not parsed a file yet. -/
def Phase.opening : Phase → Bool
  | .locks | .guard | .reading | .magic | .readPrevious => true
  | _ => false

/-- Other writers replace the file before the transaction reads it, if at all. -/
def Alone (s : State) : Event → Prop
  | .transact _ _ => True
  | .replace _ => s.phase.opening = true

/-- The plan is the merge into the file that was parsed. -/
def Planned (splice : Splice) (s : State) (plan : Plan) : Prop :=
  ∃ file, readV41 s.parsed = .ok file ∧ splice.merge file = .ok (plan.file, true, plan.count)

/-- The validation copy was accepted. -/
def ReadsBack (plan : Plan) : Prop := ∃ again, readV41 (some (serializeV41 plan.file)) = .ok again

/-- The path holds a validated plan that counts so many records. -/
def Publishes (splice : Splice) (s : State) (count : Nat) : Prop :=
  ∃ plan, Planned splice s plan ∧ ReadsBack plan ∧ plan.count = count ∧
    contentOf s.disk.path = some (serializeV41 plan.file)

/-- The merge had nothing to change in the file at the path. -/
def LeavesAlone (splice : Splice) (s : State) (count : Nat) : Prop :=
  ∃ file merged, readV41 s.parsed = .ok file ∧ splice.merge file = .ok (merged, false, count) ∧
    contentOf s.disk.path = s.parsed

/-- What holds in each phase of a transaction that is alone. -/
def Going (splice : Splice) (s : State) : Prop :=
  match s.phase with
  | .moveCorrupt previous | .restorePrevious previous =>
    readV41 s.parsed = .ok previous ∧ contentOf s.disk.rollback = s.parsed
  | .identify file | .merging file _ => readV41 s.parsed = .ok file ∧ contentOf s.disk.path = s.parsed
  | .snapshot plan | .validateWrite plan => Planned splice s plan
  | .validateRead plan => Planned splice s plan ∧ contentOf s.disk.validation = some (serializeV41 plan.file)
  | .validateRemove plan valid => Planned splice s plan ∧ (valid = true → ReadsBack plan)
  | .compare plan | .prepareTemp plan => Planned splice s plan ∧ ReadsBack plan
  | .identifyTemp plan | .exchange plan _ =>
    Planned splice s plan ∧ ReadsBack plan ∧ contentOf s.disk.temp = some (serializeV41 plan.file)
  | .displaced plan _ | .visible plan _ _ =>
    Planned splice s plan ∧ ReadsBack plan ∧ contentOf s.disk.path = some (serializeV41 plan.file)
  | .discard count => Publishes splice s count
  | .finished count true => Publishes splice s count
  | .finished count false => count = 0 ∨ LeavesAlone splice s count
  | _ => True

private theorem going_abort (splice : Splice) (s : State) : Going splice s.abort := .inl rfl

/-- An access that goes on or gives up. -/
theorem going_or_abort {splice : Splice} {s t : State} {succeeds : Prop} [Decidable succeeds]
    (h : succeeds → Going splice t) : Going splice (if succeeds then t else s.abort) := by
  split
  · next hsucceeds => exact h hsucceeds
  · exact going_abort splice s

/-- What one access of the transaction preserves. -/
theorem transact_going {splice : Splice} {io : Bool} {stamp : FileIdentity} {s t : State} (h : Going splice s)
    (hstep : transact splice io stamp s = some t) : Going splice t := by
  obtain ⟨disk, phase, parsed, lost, replaced⟩ := s
  cases phase with
  | locks =>
    obtain rfl := Option.some.inj hstep
    apply going_or_abort
    intro _
    cases splice.guarded <;> trivial
  | guard =>
    obtain rfl := Option.some.inj hstep
    exact going_or_abort fun _ => trivial
  | reading =>
    simp only [transact] at hstep
    split at hstep
    · next file hread =>
      obtain rfl := Option.some.inj hstep
      exact ⟨hread, rfl⟩
    · obtain rfl := Option.some.inj hstep
      trivial
    · obtain rfl := Option.some.inj hstep
      trivial
  | magic =>
    obtain rfl := Option.some.inj hstep
    exact going_or_abort fun _ => trivial
  | readPrevious =>
    simp only [transact] at hstep
    split at hstep
    · next previous hread =>
      obtain rfl := Option.some.inj hstep
      exact ⟨hread, rfl⟩
    · obtain rfl := Option.some.inj hstep
      trivial
    · obtain rfl := Option.some.inj hstep
      trivial
  | moveCorrupt previous =>
    obtain rfl := Option.some.inj hstep
    split
    · exact h
    · trivial
  | restorePrevious previous =>
    obtain rfl := Option.some.inj hstep
    split
    · exact h
    · trivial
  | undoCorrupt =>
    obtain rfl := Option.some.inj hstep
    split
    · trivial
    · split <;> trivial
  | quarantine =>
    obtain rfl := Option.some.inj hstep
    split
    · exact .inl rfl
    · exact going_abort splice _
  | identify file =>
    obtain rfl := Option.some.inj hstep
    split
    · exact going_abort splice _
    · exact h
  | merging file expected =>
    obtain ⟨hread, hpath⟩ := h
    obtain rfl := Option.some.inj hstep
    split
    · next merged count hmerge =>
      cases splice.snapshots <;> exact ⟨file, hread, hmerge⟩
    · next merged count hmerge => exact .inr ⟨file, merged, hread, hmerge, hpath⟩
    · trivial
    · exact going_abort splice _
  | snapshot plan =>
    obtain rfl := Option.some.inj hstep
    split
    · exact h
    · exact going_or_abort fun _ => h
  | validateWrite plan =>
    obtain rfl := Option.some.inj hstep
    exact going_or_abort fun _ => ⟨h, rfl⟩
  | validateRead plan =>
    obtain ⟨hplanned, hvalidation⟩ := h
    obtain rfl := Option.some.inj hstep
    split
    · next again hagain =>
      rw [hvalidation] at hagain
      exact ⟨hplanned, fun _ => ⟨again, hagain⟩⟩
    · exact ⟨hplanned, fun hvalid => Bool.noConfusion hvalid⟩
    · trivial
  | validateRemove plan valid =>
    obtain ⟨hplanned, hvalid⟩ := h
    obtain rfl := Option.some.inj hstep
    apply going_or_abort
    intro _
    cases valid with
    | true => exact ⟨hplanned, hvalid rfl⟩
    | false => exact .inl rfl
  | compare plan =>
    obtain rfl := Option.some.inj hstep
    exact going_or_abort fun _ => h
  | prepareTemp plan =>
    obtain rfl := Option.some.inj hstep
    exact going_or_abort fun _ => ⟨h.1, h.2, rfl⟩
  | identifyTemp plan =>
    obtain rfl := Option.some.inj hstep
    split
    · exact going_abort splice _
    · exact h
  | exchange plan prepared =>
    obtain ⟨hplanned, hback, htemp⟩ := h
    obtain rfl := Option.some.inj hstep
    split
    · exact .inl rfl
    · next exchanged hx =>
      simp only [Option.ite_none_right_eq_some] at hx
      obtain ⟨file, temp, -, hfile, rfl⟩ := exchange_eq_some hx.2
      have hpath : contentOf (some temp) = some (serializeV41 plan.file) := by rw [← hfile, htemp]
      exact ⟨hplanned, hback, hpath⟩
  | displaced plan prepared =>
    obtain rfl := Option.some.inj hstep
    exact h
  | visible plan prepared displacedMatches =>
    obtain ⟨hplanned, hback, hpath⟩ := h
    obtain rfl := Option.some.inj hstep
    split
    · trivial
    · split
      · exact ⟨plan, hplanned, hback, rfl, hpath⟩
      · trivial
  | rollback prepared =>
    obtain rfl := Option.some.inj hstep
    split <;> trivial
  | rolledBack prepared =>
    obtain rfl := Option.some.inj hstep
    split
    · exact .inl rfl
    · trivial
  | restoreExternal =>
    obtain rfl := Option.some.inj hstep
    split <;> trivial
  | preserve =>
    obtain rfl := Option.some.inj hstep
    split
    · exact .inl rfl
    · exact going_abort splice _
  | discard count =>
    obtain rfl := Option.some.inj hstep
    exact h
  | finished count published => cases hstep
  | threw what => cases hstep

private theorem step_going {splice : Splice} {s t : State} {e : Event} (h : Going splice s) (halone : Alone s e)
    (hstep : step splice s e = some t) : Going splice t := by
  cases e with
  | transact io stamp => exact transact_going h hstep
  | replace file =>
    obtain rfl := Option.some.inj hstep
    obtain ⟨disk, phase, parsed, lost, replaced⟩ := s
    cases phase <;> trivial

/-- A run of a transaction that is alone ends with the merge published, with nothing to change, or with a
zero. -/
theorem run_going (splice : Splice) {s t : State} {es : List Event} (hs : Going splice s)
    (halone : Meets (step splice) Alone s es) (hrun : exec (step splice) s es = some t) : Going splice t :=
  exec_invariant (fun _ _ _ h halone hstep => step_going h halone hstep) hs halone hrun

/-- A call with no records returns before it takes a lock. -/
def callMetadata (metadataApps : List CachedBuffer) (disk : Disk) : State :=
  if metadataApps.isEmpty = true then (initial disk).abort else initial disk

private theorem callMetadata_going (sha1 : Bytes → Digest) (metadataApps : List CachedBuffer) (disk : Disk) :
    Going (injectValidatedMetadataAppsGuarded sha1 metadataApps) (callMetadata metadataApps disk) := by
  rw [callMetadata]
  split
  · exact going_abort _ _
  · trivial

/-- The counter of the loop against the entries of the file at the path afterwards. -/
theorem accounted_spec {sha1 : Bytes → Digest} {apps : List CachedBuffer} {file g : AppInfoFile} {c : Bool}
    {count : Nat} (h : mergeMetadata sha1 apps file false 0 = .ok (g, c, count)) :
    apps.countP (PresentIn g) = count + (metadataTurns sha1 file apps).countP (Overtaken g) ∧
      (c = true ↔ g.apps ≠ file.apps) ∧ ∃ added, Inserts apps file g added := by
  obtain ⟨hturns, hfst, hcount, hc⟩ := mergeMetadata_turns h
  have hpresent := hturns.countP_present
  have hinserts := hturns.inserts
  rw [hfst] at hpresent hinserts
  refine ⟨by omega, by simpa using hc, hinserts⟩

/-- Entries of nonzero apps that were validated are on the disk. -/
theorem readsBack_apps {plan : Plan} (hback : ReadsBack plan) (hids : ∀ e ∈ plan.file.apps, e.appid ≠ 0)
    (hsize : (serializeV41 plan.file).length < 0x100000000) :
    ∃ again, readV41 (some (serializeV41 plan.file)) = .ok again ∧ again.apps = plan.file.apps := by
  obtain ⟨again, hagain⟩ := hback
  refine ⟨again, hagain, ?_⟩
  have hall : (plan.file.apps.takeWhile fun e => decide (e.appid ≠ 0)) = plan.file.apps := by
    rw [List.takeWhile_eq_self_iff]
    exact fun e he => decide_eq_true (hids e he)
  rw [readV41_serialize plan.file (offset_lt hsize), hall] at hagain
  cases htable : readTable (tableBytes plan.file.table) with
  | error failure =>
    rw [htable] at hagain
    cases hagain
  | ok table =>
    rw [htable] at hagain
    rw [← Except.ok.inj hagain]

theorem Inserts.ids {apps : List CachedBuffer} {file g : AppInfoFile} {added : List AppEntry}
    (h : Inserts apps file g added) (hids : ∀ e ∈ file.apps, e.appid ≠ 0) : ∀ e ∈ g.apps, e.appid ≠ 0 := by
  intro e he
  rw [h.entries] at he
  obtain he | he := List.mem_append.mp he
  · exact hids e he
  · obtain ⟨app, -, hsame, hnamed⟩ := h.asked e he
    rwa [← hsame]

/-- What a publication put at the path. -/
def PublishedInserts (sha1 : Bytes → Digest) (metadataApps : List CachedBuffer) (t : State) (count : Nat) : Prop :=
  ∃ file g added, readV41 t.parsed = .ok file ∧ Inserts metadataApps file g added ∧
    contentOf t.disk.path = some (serializeV41 g) ∧
    ((serializeV41 g).length < 0x100000000 →
      ∃ again, readV41 (contentOf t.disk.path) = .ok again ∧ again.apps = g.apps) ∧
    metadataApps.countP (PresentIn g) = count + (metadataTurns sha1 file metadataApps).countP (Overtaken g)

/-- There was nothing to publish: the file at the path has every app that was counted. -/
def FoundPresent (sha1 : Bytes → Digest) (metadataApps : List CachedBuffer) (t : State) (count : Nat) : Prop :=
  ∃ file merged, readV41 t.parsed = .ok file ∧ mergeMetadata sha1 metadataApps file false 0 = .ok (merged, false, count) ∧
    contentOf t.disk.path = t.parsed ∧ count = metadataApps.countP (PresentIn file)

private theorem publishes_inserts {sha1 : Bytes → Digest} {metadataApps : List CachedBuffer} {t : State} {count : Nat}
    (h : Publishes (injectValidatedMetadataAppsGuarded sha1 metadataApps) t count) :
    PublishedInserts sha1 metadataApps t count := by
  obtain ⟨plan, ⟨file, hread, hmerge⟩, hback, rfl, hpath⟩ := h
  obtain ⟨hcount, -, added, hadded⟩ := accounted_spec hmerge
  refine ⟨file, plan.file, added, hread, hadded, hpath, fun hsize => ?_, hcount⟩
  cases hparsed : t.parsed with
  | none =>
    rw [hparsed] at hread
    cases hread
  | some content =>
    rw [hparsed] at hread
    rw [hpath]
    exact readsBack_apps hback (hadded.ids (readV41_spec hread).2.2.1) hsize

private theorem leavesAlone_present {sha1 : Bytes → Digest} {metadataApps : List CachedBuffer} {t : State} {count : Nat}
    (h : LeavesAlone (injectValidatedMetadataAppsGuarded sha1 metadataApps) t count) :
    FoundPresent sha1 metadataApps t count := by
  obtain ⟨file, merged, hread, hmerge, hpath⟩ := h
  refine ⟨file, merged, hread, hmerge, hpath, ?_⟩
  obtain ⟨hturns, -, -, -⟩ := mergeMetadata_turns hmerge
  obtain ⟨hpresent, hchanged, -⟩ := accounted_spec hmerge
  have hsame : merged.apps = file.apps := by
    by_contra hne
    exact Bool.noConfusion (hchanged.mpr hne)
  have halike : ∀ turn ∈ metadataTurns sha1 file metadataApps, turn.2.apps = merged.apps := by
    intro turn hturn
    obtain ⟨hfirst, hlast⟩ := hturns.between turn hturn
    rw [← hsame] at hfirst
    exact List.IsPrefix.eq_of_length_le hlast (List.IsPrefix.length_le hfirst)
  have hnone : (metadataTurns sha1 file metadataApps).countP (Overtaken merged) = 0 := by
    rw [List.countP_eq_zero]
    intro turn hturn
    simp [Overtaken, Accounted, PresentIn, HoldsApp, halike turn hturn]
  rw [hnone, Nat.add_zero] at hpresent
  rw [← hpresent]
  apply List.countP_congr
  intro app _
  simp only [PresentIn, HoldsApp, hsame]

/-- The metadata splice only inserts, and it counts the records whose apps are there in the end less those
that failed before another record brought in their app. -/
theorem metadata_splice_only_inserts (sha1 : Bytes → Digest) (metadataApps : List CachedBuffer) (disk : Disk)
    {es : List Event} {t : State}
    (halone : Meets (step (injectValidatedMetadataAppsGuarded sha1 metadataApps)) Alone
      (callMetadata metadataApps disk) es)
    (hrun : exec (step (injectValidatedMetadataAppsGuarded sha1 metadataApps)) (callMetadata metadataApps disk) es =
      some t) {count : Nat} {published : Bool} (hreturns : t.phase = .finished count published) :
    (published = true → PublishedInserts sha1 metadataApps t count) ∧
      (published = false → count = 0 ∨ FoundPresent sha1 metadataApps t count) := by
  have hgoing := run_going _ (callMetadata_going sha1 metadataApps disk) halone hrun
  simp only [Going, hreturns] at hgoing
  cases published with
  | true => exact ⟨fun _ => publishes_inserts hgoing, fun h => Bool.noConfusion h⟩
  | false => exact ⟨fun h => Bool.noConfusion h, fun _ => hgoing.imp_right leavesAlone_present⟩

/-- A record of app 5 that merges. -/
def usableApp : CachedBuffer := ⟨5, 1, List.replicate 20 0, ascii ['a', ' ', 'b']⟩

/-- A record of app 5 whose SHA is cut short. -/
def shortShaApp : CachedBuffer := ⟨5, 1, List.replicate 4 0, ascii ['a', ' ', 'b']⟩

/-- One usable record, published and counted. -/
theorem usable_app_inserted : ∃ t,
    exec (step (injectValidatedMetadataAppsGuarded (fun _ => zeroDigest) [usableApp])) (callMetadata [usableApp] startDisk)
      (accesses 15) = some t ∧ t.phase = .finished 1 true ∧
      PublishedInserts (fun _ => zeroDigest) [usableApp] t 1 := by
  obtain ⟨t, hrun, hreturns⟩ : ∃ t, exec (step (injectValidatedMetadataAppsGuarded (fun _ => zeroDigest) [usableApp]))
      (callMetadata [usableApp] startDisk) (accesses 15) = some t ∧ t.phase = .finished 1 true := ⟨_, rfl, rfl⟩
  have halone : Meets (step (injectValidatedMetadataAppsGuarded (fun _ => zeroDigest) [usableApp])) Alone
      (callMetadata [usableApp] startDisk) (accesses 15) := by
    apply meets_of_forall
    intro e he s
    rw [List.eq_of_mem_replicate he]
    trivial
  exact ⟨t, hrun, hreturns, (metadata_splice_only_inserts _ _ _ halone hrun hreturns).1 rfl⟩

/-- Both records name an app that is in the published file, and the call answers one. -/
theorem overtaken_record_not_counted : ∃ t file,
    exec (step (injectValidatedMetadataAppsGuarded (fun _ => zeroDigest) [shortShaApp, usableApp]))
      (callMetadata [shortShaApp, usableApp] startDisk) (accesses 15) = some t ∧ t.phase = .finished 1 true ∧
      readV41 (contentOf t.disk.path) = .ok file ∧ [shortShaApp, usableApp].countP (PresentIn file) = 2 :=
  ⟨_, _, rfl, rfl, rfl, by decide⟩

end SlsteamMoon.AppInfo
