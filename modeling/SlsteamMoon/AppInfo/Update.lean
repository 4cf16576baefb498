import SlsteamMoon.AppInfo.Splice

/-! No competing update is lost: what a publication takes from the path is what
the transaction parsed, as long as the identity it compares was captured from
the file it parsed. -/
namespace SlsteamMoon.AppInfo

open KeyValues Runs

/-- The transaction has accepted a content whose identity it has not captured. -/
def Phase.unidentified : Phase → Bool
  | .moveCorrupt _ | .restorePrevious _ | .identify _ => true
  | _ => false

/-- The identities a later comparison relies on. -/
def Phase.recorded : Phase → List FileIdentity
  | .merging _ expected => [expected]
  | .snapshot plan | .validateWrite plan | .validateRead plan | .validateRemove plan _ | .compare plan
  | .prepareTemp plan | .identifyTemp plan => [plan.expected]
  | .exchange plan prepared => [plan.expected, prepared]
  | .displaced _ prepared | .visible _ prepared _ => [prepared]
  | _ => []

/-- The other writer does not come between the parse and the capture of the
identity, and its file carries an identity of its own. -/
def Undisturbed (s : State) : Event → Prop
  | .transact _ _ => True
  | .replace file => s.phase.unidentified = false ∧ file.identity ∉ s.phase.recorded

/-- A path with the captured identity holds the parsed content. -/
def Tracked (s : State) (expected : FileIdentity) : Prop :=
  identityOf s.disk.path = some expected → contentOf s.disk.path = s.parsed ∧ s.replaced = false

/-- The exchange took the parsed content. -/
def TookParsed (s : State) : Prop := ∃ content, s.parsed = some content ∧ s.lost = some content

/-- What the transaction knows in each phase. -/
def Known (s : State) : Prop :=
  match s.phase with
  | .locks | .guard | .reading | .magic | .readPrevious => s.replaced = false
  | .moveCorrupt _ | .restorePrevious _ => contentOf s.disk.rollback = s.parsed ∧ s.replaced = false
  | .identify _ => contentOf s.disk.path = s.parsed ∧ s.replaced = false
  | .merging _ expected => Tracked s expected
  | .snapshot plan | .validateWrite plan | .validateRead plan | .validateRemove plan _ | .compare plan
  | .prepareTemp plan | .identifyTemp plan | .exchange plan _ => Tracked s plan.expected
  | .displaced plan prepared => identityOf s.disk.temp = some plan.expected →
      TookParsed s ∧ (identityOf s.disk.path = some prepared → s.replaced = false)
  | .visible _ prepared displacedMatches => displacedMatches = true →
      TookParsed s ∧ (identityOf s.disk.path = some prepared → s.replaced = false)
  | .discard _ => TookParsed s ∧ s.replaced = false
  | .finished _ published => published = true → TookParsed s ∧ s.replaced = false
  | _ => True

private theorem known_abort (s : State) : Known s.abort := by
  intro h
  cases h

/-- An access that goes on or gives up. -/
theorem known_or_abort {s t : State} {succeeds : Prop} [Decidable succeeds] (h : succeeds → Known t) :
    Known (if succeeds then t else s.abort) := by
  split
  · next hsucceeds => exact h hsucceeds
  · exact known_abort s

theorem exchange_eq_some {d d' : Disk} (h : d.exchange = some d') :
    ∃ file temp, d.path = some file ∧ d.temp = some temp ∧ d' = { d with path := some temp, temp := some file } := by
  simp only [Disk.exchange, Option.ite_none_right_eq_some, Option.some.injEq] at h
  obtain ⟨⟨hpath, htemp⟩, rfl⟩ := h
  obtain ⟨file, hfile⟩ := Option.isSome_iff_exists.mp hpath
  obtain ⟨temp, htemp⟩ := Option.isSome_iff_exists.mp htemp
  exact ⟨file, temp, hfile, htemp, by rw [hfile, htemp]⟩

/-- The exchange takes from the path what the transaction tracked there. -/
theorem known_exchanged {s : State} {plan : Plan} (h : Tracked s plan.expected) {disk : Disk}
    (hx : s.disk.exchange = some disk) (prepared : FileIdentity) :
    Known { s with disk, phase := .displaced plan prepared, lost := contentOf s.disk.path } := by
  obtain ⟨file, temp, hfile, -, rfl⟩ := exchange_eq_some hx
  intro htook
  have hpath : identityOf s.disk.path = some plan.expected := by
    rw [hfile]
    exact htook
  obtain ⟨hcontent, hreplaced⟩ := h hpath
  refine ⟨⟨file.content, ?_, ?_⟩, fun _ => hreplaced⟩
  · rw [← hcontent, hfile]
    rfl
  · show contentOf s.disk.path = some file.content
    rw [hfile]
    rfl

/-- What one access of the transaction preserves. -/
theorem transact_known {splice : Splice} {io : Bool} {stamp : FileIdentity} {s t : State} (h : Known s)
    (hstep : transact splice io stamp s = some t) : Known t := by
  obtain ⟨disk, phase, parsed, lost, replaced⟩ := s
  cases phase with
  | locks =>
    obtain rfl := Option.some.inj hstep
    apply known_or_abort
    intro _
    cases splice.guarded <;> exact h
  | guard =>
    obtain rfl := Option.some.inj hstep
    exact known_or_abort fun _ => h
  | reading =>
    simp only [transact] at hstep
    split at hstep
    · obtain rfl := Option.some.inj hstep
      exact ⟨rfl, h⟩
    · obtain rfl := Option.some.inj hstep
      exact h
    · obtain rfl := Option.some.inj hstep
      trivial
  | magic =>
    obtain rfl := Option.some.inj hstep
    exact known_or_abort fun _ => h
  | readPrevious =>
    simp only [transact] at hstep
    split at hstep
    · obtain rfl := Option.some.inj hstep
      exact ⟨rfl, h⟩
    · obtain rfl := Option.some.inj hstep
      trivial
    · obtain rfl := Option.some.inj hstep
      trivial
  | moveCorrupt previous =>
    obtain rfl := Option.some.inj hstep
    split
    · exact h
    · trivial
  | restorePrevious previous =>
    obtain rfl := Option.some.inj hstep
    split
    · exact h
    · trivial
  | undoCorrupt =>
    obtain rfl := Option.some.inj hstep
    split
    · trivial
    · split <;> trivial
  | quarantine =>
    obtain rfl := Option.some.inj hstep
    split
    · intro hp
      cases hp
    · exact known_abort _
  | identify file =>
    obtain rfl := Option.some.inj hstep
    split
    · exact known_abort _
    · exact fun _ => h
  | merging file expected =>
    obtain rfl := Option.some.inj hstep
    split
    · cases splice.snapshots <;> exact h
    · intro hp
      cases hp
    · trivial
    · exact known_abort _
  | snapshot plan =>
    obtain rfl := Option.some.inj hstep
    split
    · exact h
    · split
      · exact h
      · exact known_abort _
  | validateWrite plan =>
    obtain rfl := Option.some.inj hstep
    exact known_or_abort fun _ => h
  | validateRead plan =>
    obtain rfl := Option.some.inj hstep
    split
    · exact h
    · exact h
    · trivial
  | validateRemove plan valid =>
    obtain rfl := Option.some.inj hstep
    apply known_or_abort
    intro _
    cases valid with
    | true => exact h
    | false => exact known_abort _
  | compare plan =>
    obtain rfl := Option.some.inj hstep
    exact known_or_abort fun _ => h
  | prepareTemp plan =>
    obtain rfl := Option.some.inj hstep
    exact known_or_abort fun _ => h
  | identifyTemp plan =>
    obtain rfl := Option.some.inj hstep
    split
    · exact known_abort _
    · exact h
  | exchange plan prepared =>
    obtain rfl := Option.some.inj hstep
    split
    · intro hp
      cases hp
    · next exchanged hx =>
      simp only [Option.ite_none_right_eq_some] at hx
      exact known_exchanged h hx.2 prepared
  | displaced plan prepared =>
    obtain rfl := Option.some.inj hstep
    intro hmatches
    exact h (eq_of_beq hmatches)
  | visible plan prepared displacedMatches =>
    obtain rfl := Option.some.inj hstep
    split
    · trivial
    · next hvisible =>
      split
      · next hmatches =>
        obtain ⟨htook, hreplaced⟩ := h hmatches
        exact ⟨htook, hreplaced (not_not.mp hvisible)⟩
      · trivial
  | rollback prepared =>
    obtain rfl := Option.some.inj hstep
    split <;> trivial
  | rolledBack prepared =>
    obtain rfl := Option.some.inj hstep
    split
    · intro hp
      cases hp
    · trivial
  | restoreExternal =>
    obtain rfl := Option.some.inj hstep
    split <;> trivial
  | preserve =>
    obtain rfl := Option.some.inj hstep
    split
    · intro hp
      cases hp
    · exact known_abort _
  | discard count =>
    obtain rfl := Option.some.inj hstep
    exact fun _ => h
  | finished count published => cases hstep
  | threw what => cases hstep

/-- What a replacement by the other writer preserves. -/
theorem replace_known {s : State} (h : Known s) {file : Inode} (hid : s.phase.unidentified = false)
    (hfresh : file.identity ∉ s.phase.recorded) :
    Known { s with disk := { s.disk with path := some file }, replaced := s.replaced || s.phase.inFlight } := by
  have hother : ∀ identity, identity ∈ s.phase.recorded → identityOf (some file) ≠ some identity := by
    intro identity hmem heq
    exact hfresh (Option.some.inj heq ▸ hmem)
  obtain ⟨disk, phase, parsed, lost, replaced⟩ := s
  cases phase with
  | locks | guard | reading | magic | readPrevious => simpa [Known, Phase.inFlight] using h
  | moveCorrupt previous | restorePrevious previous | identify file => cases hid
  | merging file' expected => exact fun hsame => absurd hsame (hother expected (by simp [Phase.recorded]))
  | snapshot plan | validateWrite plan | validateRead plan | compare plan | prepareTemp plan
  | identifyTemp plan => exact fun hsame => absurd hsame (hother plan.expected (by simp [Phase.recorded]))
  | validateRemove plan valid =>
    exact fun hsame => absurd hsame (hother plan.expected (by simp [Phase.recorded]))
  | exchange plan prepared =>
    exact fun hsame => absurd hsame (hother plan.expected (by simp [Phase.recorded]))
  | displaced plan prepared =>
    intro htemp
    exact ⟨(h htemp).1, fun hsame => absurd hsame (hother prepared (by simp [Phase.recorded]))⟩
  | visible plan prepared displacedMatches =>
    intro hmatches
    exact ⟨(h hmatches).1, fun hsame => absurd hsame (hother prepared (by simp [Phase.recorded]))⟩
  | discard count => simpa [Known, Phase.inFlight, TookParsed] using h
  | finished count published => simpa [Known, Phase.inFlight, TookParsed] using h
  | undoCorrupt | quarantine | rollback prepared | rolledBack prepared | restoreExternal | preserve
  | threw what => trivial

private theorem step_known {splice : Splice} {s t : State} {e : Event} (h : Known s) (hok : Undisturbed s e)
    (hstep : step splice s e = some t) : Known t := by
  cases e with
  | transact io stamp => exact transact_known h hstep
  | replace file =>
    obtain rfl := Option.some.inj hstep
    exact replace_known h hok.1 hok.2

/-- In a run of undisturbed steps a transaction that publishes took from the
path the content it parsed, and no writer replaced the path in between. -/
theorem run_publication_takes_parsed (splice : Splice) (disk : Disk) {es : List Event} {t : State}
    (hok : Meets (step splice) Undisturbed (initial disk) es)
    (hrun : exec (step splice) (initial disk) es = some t) {count : Nat} (hpublished : t.phase = .finished count true) :
    (∃ content, t.parsed = some content ∧ t.lost = some content) ∧ t.replaced = false := by
  have hinit : Known (initial disk) := rfl
  have hknown := exec_invariant (fun _ _ _ hs hok hstep => step_known hs hok hstep) hinit hok hrun
  simp only [Known, hpublished] at hknown
  exact hknown trivial

/-- Without the hash library every digest is zero. -/
def zeroDigest : Digest := ⟨List.replicate 20 0, rfl⟩

/-- A cached record of app 10. -/
def cachedRecord : CachedBuffer := ⟨10, 1, List.replicate 20 0, ascii ['a', ' ', 'b']⟩

/-- A v41 file with no entries and no strings. -/
def emptyCache (universeId : UInt32) : Bytes := serializeV41 ⟨universeId, [], emptyTable⟩

def stampOf (inode : Nat) : FileIdentity := ⟨1, inode, 28, 100, 0⟩

def oldFile : Inode := ⟨stampOf 1, emptyCache 1⟩

/-- What the other writer publishes. -/
def newFile : Inode := ⟨stampOf 2, emptyCache 2⟩

def liveSplice : Splice := injectCachedApps (fun _ => zeroDigest) [cachedRecord]

/-- Accesses of the transaction that all succeed. -/
def accesses (n : Nat) : List Event := List.replicate n (.transact true (stampOf 3))

def startDisk : Disk := ⟨some oldFile, none, none, none, []⟩

/-- The other writer replaces the path before the splice reads it. -/
def replacedFirst : List Event := .transact true (stampOf 3) :: .replace newFile :: accesses 13

/-- A replacement before the read is the file the splice parses and takes. -/
theorem splice_after_replacement_takes_it :
    ∃ t, exec (step liveSplice) (initial startDisk) replacedFirst = some t ∧
      (∃ content, t.parsed = some content ∧ t.lost = some content) ∧ t.replaced = false := by
  have hrun : ∃ t, exec (step liveSplice) (initial startDisk) replacedFirst = some t ∧
      t.phase = .finished 1 true := ⟨_, rfl, rfl⟩
  obtain ⟨t, hrun, hpublished⟩ := hrun
  refine ⟨t, hrun, run_publication_takes_parsed liveSplice startDisk ?_ hrun hpublished⟩
  apply Meets.step rfl trivial
  apply Meets.step rfl ⟨rfl, List.not_mem_nil⟩
  apply meets_of_forall
  intro e he s
  rw [List.eq_of_mem_replicate he]
  trivial

/-- A replacement between the read and the capture of the identity: the splice
publishes over the new file although it parsed the old one. -/
theorem replacement_after_parse_is_lost :
    ∃ t, exec (step liveSplice) (initial startDisk)
        (accesses 2 ++ .replace newFile :: accesses 12) = some t ∧
      t.phase = .finished 1 true ∧ t.replaced = true ∧ t.parsed = some oldFile.content ∧
      t.lost = some newFile.content ∧ oldFile.content ≠ newFile.content :=
  ⟨_, rfl, rfl, rfl, rfl, rfl, by decide⟩

end SlsteamMoon.AppInfo
