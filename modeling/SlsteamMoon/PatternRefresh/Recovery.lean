import SlsteamMoon.PatternRefresh.Refresh

/-! When a remote refresh ends with an active catalog, and what it may select. -/
namespace SlsteamMoon.PatternRefresh

variable {t : Trust} {m : ExactModule} {files : Files}

private theorem evaluate_some {responses : ResponsePair} {source : Source} {cache : Option CachedPair}
    {validate : Validator} (h : (evaluate responses source cache validate).source ≠ .none) :
    validate (evaluate responses source cache validate).catalog
        (evaluate responses source cache validate).signature = true ∧
      responseBody responses.catalog cache .catalog =
        some (evaluate responses source cache validate).catalog ∧
      responseBody responses.signature cache .signature =
        some (evaluate responses source cache validate).signature := by
  unfold evaluate at h ⊢
  split
  · rename_i catalog signature hcatalog hsignature
    rw [hcatalog, hsignature] at h
    dsimp only at h
    split
    · exact ⟨‹_›, hcatalog, hsignature⟩
    · rename_i hinvalid
      rw [if_neg hinvalid] at h
      exact absurd rfl h
  · rename_i hnone
    split at h
    · rename_i catalog signature hcatalog hsignature
      exact absurd hsignature (hnone _ _ hcatalog)
    · exact absurd rfl h

/-- Without a cached pair only two full answers are evaluated, to their own source. -/
theorem evaluate_uncached {responses : ResponsePair} {source : Source} {validate : Validator}
    (h : (evaluate responses source none validate).source ≠ .none) :
    responses.catalog.transportOk = true ∧ responses.catalog.status = 200 ∧
      responses.signature.transportOk = true ∧ responses.signature.status = 200 ∧
      validate responses.catalog.body responses.signature.body = true ∧
      (evaluate responses source none validate).source = source := by
  obtain ⟨hvalid, hcatalog, hsignature⟩ := evaluate_some h
  have hfull : ∀ (r : Response) (part : Part) (body : Bytes), responseBody r none part = some body →
      r.transportOk = true ∧ r.status = 200 ∧ body = r.body := by
    intro r part body hbody
    unfold responseBody at hbody
    split at hbody
    · cases hbody
    · rename_i hok
      split at hbody
      · exact ⟨by simpa using hok, ‹_›, (Option.some.inj hbody).symm⟩
      · cases hbody
  obtain ⟨hcok, hc200, hcbody⟩ := hfull _ _ _ hcatalog
  obtain ⟨hsok, hs200, hsbody⟩ := hfull _ _ _ hsignature
  rw [hcbody, hsbody] at hvalid
  exact ⟨hcok, hc200, hsok, hs200, hvalid, by simp [evaluate, responseBody, hcok, hc200, hsok, hs200, hvalid]⟩

private theorem evaluate_full {responses : ResponsePair} {source : Source} {cache : Option CachedPair}
    {validate : Validator} (hcok : responses.catalog.transportOk = true) (hc : responses.catalog.status = 200)
    (hsok : responses.signature.transportOk = true) (hs : responses.signature.status = 200)
    (hvalid : validate responses.catalog.body responses.signature.body = true) :
    (evaluate responses source cache validate).source = source := by
  simp [evaluate, responseBody, hcok, hc, hsok, hs, hvalid]

/-- Every selection has been validated as a pair. -/
theorem chooseCandidate_valid {github jsDelivr : ResponsePair} {cache : Option CachedPair} {validate : Validator}
    (h : (chooseCandidate github jsDelivr cache validate).source ≠ .none) :
    validate (chooseCandidate github jsDelivr cache validate).catalog
      (chooseCandidate github jsDelivr cache validate).signature = true := by
  unfold chooseCandidate at h ⊢
  dsimp only at h ⊢
  split
  · exact (evaluate_some ‹_›).1
  · split
    · exact (evaluate_some ‹_›).1
    · rename_i hfirst hsecond
      rw [if_neg hfirst, if_neg hsecond] at h
      split
      · split
        · rename_i hcached
          exact (Bool.and_eq_true_iff.mp hcached).2
        · rename_i c hinvalid
          simp [hinvalid] at h
      · simp at h

private theorem choose_valid (t : Trust) (m : ExactModule) (files : Files) (responses : Mirror → ResponsePair)
    (h : (choose t m files responses).source ≠ .none) :
    validator t m files (choose t m files responses).catalog (choose t m files responses).signature = true :=
  chooseCandidate_valid h

/-- A selection is made from either mirror or from a valid cached pair. -/
theorem chooseCandidate_source {github jsDelivr : ResponsePair} {cache : Option CachedPair} {validate : Validator} :
    (chooseCandidate github jsDelivr cache validate).source = .none ↔
      (evaluate github .github cache validate).source = .none ∧
        (evaluate jsDelivr .jsDelivr cache validate).source = .none ∧
        ∀ c, cache = some c → (c.exactSha && validate c.catalog c.signature) = false := by
  unfold chooseCandidate
  dsimp only
  split
  · rename_i h
    exact ⟨fun hnone => absurd hnone h, fun hall => absurd hall.1 h⟩
  · rename_i hfirst
    split
    · rename_i h
      exact ⟨fun hnone => absurd hnone h, fun hall => absurd hall.2.1 h⟩
    · rename_i hsecond
      cases cache with
      | none => simp [not_not.mp hfirst, not_not.mp hsecond]
      | some c =>
        cases hc : c.exactSha && validate c.catalog c.signature <;>
          simp only [hc, not_not.mp hfirst, not_not.mp hsecond] <;> simpa using hc

private theorem validator_iff {body signature : Bytes} : validator t m files body signature = true ↔
    ∃ v, validateSignedCatalog t m body signature = .ok v ∧
      acceptsRevision v body (activeMetadata t m files)
        (((activePair t m files).map fun p => p.1).getD []) = true := by
  unfold validator
  split
  · rename_i v hv
    exact ⟨fun h => ⟨v, hv, h⟩, fun ⟨w, hw, h⟩ => by rwa [Except.ok.inj (hv.symm.trans hw)]⟩
  · rename_i e he
    exact ⟨(fun h => by cases h), fun ⟨w, hw, _⟩ => by cases he.symm.trans hw⟩

/-- An admitted candidate is not older than the active pair. -/
theorem validator_revision {body signature : Bytes} (h : validator t m files body signature = true) :
    ∃ v, validateSignedCatalog t m body signature = .ok v ∧
      ∀ a, activeMetadata t m files = some a → a.revision ≤ v.revision := by
  obtain ⟨v, hv, haccepts⟩ := validator_iff.mp h
  refine ⟨v, hv, fun a ha => ?_⟩
  simp only [acceptsRevision, ha, Bool.or_eq_true, Bool.and_eq_true, decide_eq_true_eq] at haccepts
  rcases haccepts with hlt | ⟨heq, -⟩
  · exact UInt64.le_of_lt hlt
  · rw [heq]
    exact UInt64.le_refl _

/-- The active pair is always a candidate. -/
theorem validator_active {body signature : Bytes} {a : ValidatedCatalog}
    (h : activePair t m files = some (body, signature, a)) : validator t m files body signature = true := by
  refine validator_iff.mpr ⟨a, (activePair_some h).2.2, ?_⟩
  simp [acceptsRevision, activeMetadata, h]

/-- With every write renamed, an admitted candidate is active afterwards. -/
theorem activate_admitted {body signature : Bytes} (hargs : m.identityValid = true)
    (h : validator t m files body signature = true) : ∃ result error,
      (activateSignedCatalog t m true files body signature .renamed .renamed).2 = .returned result error ∧
        result.active = true ∧
        activeMetadata t m (activateSignedCatalog t m true files body signature .renamed .renamed).1 =
          some ⟨result.revision⟩ := by
  obtain ⟨v, hv, haccepts⟩ := validator_iff.mp h
  have hmodule : isModule m.component m.moduleName = true ∧ isSha256 m.sha256 = true := by
    simp only [ExactModule.identityValid, Bool.and_eq_true] at hargs
    exact ⟨hargs.1.1.1, hargs.1.1.2⟩
  have hreturns : ∃ result error,
      (activateSignedCatalog t m true files body signature .renamed .renamed).2 = .returned result error ∧
        result.active = true := by
    unfold activateSignedCatalog
    rw [if_neg (by simp [hmodule.1, hmodule.2]), hv]
    dsimp only
    rw [activeMetadata] at haccepts
    rw [if_neg (by simp [haccepts])]
    split
    · exact ⟨_, _, rfl, rfl⟩
    · exact ⟨_, _, rfl, rfl⟩
  obtain ⟨result, error, hreport, hactive⟩ := hreturns
  exact ⟨result, error, hreport, hactive,
    ((activates t m files { body, signature }).active hreport hactive).1⟩

private theorem activeMetadata_storeEtags (mirror : Mirror) (responses : ResponsePair) (written : Part → Bool) :
    activeMetadata t m (storeResponseEtags files mirror responses written) = activeMetadata t m files := rfl

/-- The responses of a batch are complete answers or none, and unless they satisfy
stopWhen they are all complete. -/
theorem fetchBatch_spec (answers : Mirror → Part → Response) (stop : (Mirror → ResponsePair) → Bool)
    (done : Mirror → Part → Bool) (polls : List (Mirror → Part → Bool)) : ∃ finished,
      fetchBatch answers stop done polls = completedResponses answers finished ∧
        (stop (completedResponses answers finished) = true ∨ finished = fun _ _ => true) := by
  induction polls generalizing done with
  | nil => exact ⟨_, rfl, .inr rfl⟩
  | cons completes polls ih =>
    unfold fetchBatch
    dsimp only
    split
    · exact ⟨_, rfl, .inl ‹_›⟩
    · exact ih _

/-- The mirror holds a pair that validates and that the active revision admits. -/
def Offers (t : Trust) (m : ExactModule) (files : Files) (mirrors : Mirror → Part → Option Resource)
    (mirror : Mirror) : Prop :=
  ∃ catalog signature, mirrors mirror .catalog = some catalog ∧ mirrors mirror .signature = some signature ∧
    validator t m files catalog.body signature.body = true

/-- No stored ETag of this mirror is that of its current file. -/
def Unmatched (files : Files) (mirrors : Mirror → Part → Option Resource) (mirror : Mirror) : Prop :=
  ∀ part r, mirrors mirror part = some r → safeEtag r.etag = true →
    loadEtag (files.etag mirror part) ≠ r.etag

private theorem safe_of_loadEtag {file : Option Bytes} (h : loadEtag file ≠ []) : safeEtag (loadEtag file) = true := by
  unfold loadEtag at h ⊢
  grind

/-- A mirror's answer is full exactly when the request carries no matching ETag. -/
theorem mirrorNetwork_full {mirrors : Mirror → Part → Option Resource} {mirror : Mirror} {part : Part}
    {sent : Bytes} {maximum : Nat} :
    ((mirrorNetwork mirrors mirror part sent maximum).transportOk = true ∧
      (mirrorNetwork mirrors mirror part sent maximum).status = 200) ↔
      ∃ r, mirrors mirror part = some r ∧ ¬ (sent ≠ [] ∧ sent = r.etag) ∧ r.body.length ≤ maximum ∧
        (mirrorNetwork mirrors mirror part sent maximum).body = r.body := by
  unfold mirrorNetwork
  split
  · simp_all
  · rename_i r hr
    dsimp only
    by_cases hmatched : sent ≠ [] ∧ sent = r.etag
    · rw [if_pos hmatched]
      simp [hmatched.2]
      grind
    · rw [if_neg hmatched]
      by_cases hlong : maximum < r.body.length
      · rw [if_pos hlong]
        simp
        grind
      · rw [if_neg hlong]
        simp
        grind

def Mirror.source : Mirror → Source
  | .github => .github
  | .jsDelivr => .jsDelivr

private theorem activePair_none (h : activeMetadata t m files = none) : activePair t m files = none := by
  rwa [activeMetadata, Option.map_eq_none_iff] at h

private theorem activeCache_none (h : activeMetadata t m files = none) : activeCache t m files = none := by
  rw [activeCache, activePair_none h]
  rfl

/-- Without an active pair a selection comes from a mirror. -/
theorem choose_uncached (hnone : activeMetadata t m files = none) (responses : Mirror → ResponsePair) :
    (choose t m files responses).source = .none ∨ (choose t m files responses).source = .github ∨
      (choose t m files responses).source = .jsDelivr := by
  rw [choose, activeCache_none hnone, chooseCandidate]
  split
  · exact .inr (.inl (evaluate_uncached ‹_›).2.2.2.2.2)
  · split
    · exact .inr (.inr (evaluate_uncached ‹_›).2.2.2.2.2)
    · exact .inl rfl

/-- Without an active pair something is selected exactly when some mirror's responses
evaluate on their own. -/
theorem choose_uncached_iff (hnone : activeMetadata t m files = none) (responses : Mirror → ResponsePair) :
    (choose t m files responses).source ≠ .none ↔
      ∃ mirror : Mirror, (evaluate (responses mirror) mirror.source none (validator t m files)).source ≠ .none := by
  rw [choose, activeCache_none hnone, ne_eq, chooseCandidate_source]
  constructor
  · intro h
    by_cases hg : (evaluate (responses .github) .github none (validator t m files)).source = .none
    · refine ⟨.jsDelivr, fun hj => h ⟨hg, hj, by simp⟩⟩
    · exact ⟨.github, hg⟩
  · rintro ⟨mirror, hmirror⟩ ⟨hg, hj, -⟩
    cases mirror with
    | github => exact hmirror hg
    | jsDelivr => exact hmirror hj

/-- Without an active pair a refresh selects something exactly when a mirror offers a
pair and is asked for it unconditionally. -/
theorem fetch_selects_iff (hnone : activeMetadata t m files = none)
    (mirrors : Mirror → Part → Option Resource) (polls : List (Mirror → Part → Bool)) :
    (choose t m files (fetchResponses t m files (mirrorNetwork mirrors) polls)).source ≠ .none ↔
      ∃ mirror, Offers t m files mirrors mirror ∧ Unmatched files mirrors mirror := by
  obtain ⟨finished, hfetch, hstop⟩ := fetchBatch_spec
    (fun mirror part => mirrorNetwork mirrors mirror part (loadEtag (files.etag mirror part)) (requestMaximum part))
    (stopWhen t m files) (fun _ _ => false) polls
  rw [fetchResponses, hfetch]
  constructor
  · intro hselects
    obtain ⟨mirror, hmirror⟩ := (choose_uncached_iff hnone _).mp hselects
    obtain ⟨hcok, hc200, hsok, hs200, hvalid, -⟩ := evaluate_uncached hmirror
    have hcatalog : finished mirror .catalog = true := by
      cases hf : finished mirror .catalog
      · simp [completedResponses, hf] at hcok
      · rfl
    have hsignature : finished mirror .signature = true := by
      cases hf : finished mirror .signature
      · simp [completedResponses, hf] at hsok
      · rfl
    simp only [completedResponses, hcatalog, hsignature, if_pos] at hcok hc200 hsok hs200 hvalid
    obtain ⟨c, hc, hcfresh, -, hcbody⟩ := mirrorNetwork_full.mp ⟨hcok, hc200⟩
    obtain ⟨s, hs, hsfresh, -, hsbody⟩ := mirrorNetwork_full.mp ⟨hsok, hs200⟩
    rw [hcbody, hsbody] at hvalid
    refine ⟨mirror, ⟨c, s, hc, hs, hvalid⟩, fun part r hr hsafe hmatched => ?_⟩
    have hsent : loadEtag (files.etag mirror part) ≠ [] := by
      rw [hmatched]
      rintro hnil
      simp [hnil, safeEtag] at hsafe
    cases part with
    | catalog => exact hcfresh ⟨hsent, Option.some.inj (hr.symm.trans hc) ▸ hmatched⟩
    | signature => exact hsfresh ⟨hsent, Option.some.inj (hr.symm.trans hs) ▸ hmatched⟩
  · rintro ⟨mirror, ⟨c, s, hc, hs, hvalid⟩, hunmatched⟩
    rcases hstop with hstop | rfl
    · intro hsource
      simp [stopWhen, hsource] at hstop
    · rw [choose_uncached_iff hnone]
      obtain ⟨v, hv, -⟩ := validator_iff.mp hvalid
      have hsizes := validates_of_ok hv
      have hfull : ∀ part r, mirrors mirror part = some r → r.body.length ≤ requestMaximum part →
          mirrorNetwork mirrors mirror part (loadEtag (files.etag mirror part)) (requestMaximum part) =
            { transportOk := true, status := 200, body := r.body, etag := if safeEtag r.etag then r.etag else [] } := by
        intro part r hr hlen
        have hfresh : ¬ (loadEtag (files.etag mirror part) ≠ [] ∧ loadEtag (files.etag mirror part) = r.etag) :=
          fun ⟨hsent, hmatched⟩ => hunmatched part r hr (hmatched ▸ safe_of_loadEtag hsent) hmatched
        simp only [mirrorNetwork, hr]
        rw [if_neg hfresh, if_neg (Nat.not_lt.mpr hlen)]
      have hcfull := hfull .catalog c hc hsizes.size_le
      have hsfull := hfull .signature s hs (Nat.le_of_eq hsizes.signature_size)
      have hsource : mirror.source ≠ .none := by cases mirror <;> simp [Mirror.source]
      refine ⟨mirror, ne_of_eq_of_ne (evaluate_full ?_ ?_ ?_ ?_ ?_) hsource⟩ <;>
        simp only [completedResponses, if_pos, hcfull, hsfull]
      exact hvalid

/-- With an active pair there is always a selection. -/
theorem choose_active {a : ValidatedCatalog} (ha : activeMetadata t m files = some a)
    (responses : Mirror → ResponsePair) : (choose t m files responses).source ≠ .none := by
  obtain ⟨body, signature, hpair⟩ := activeMetadata_pair ha
  intro hsource
  have hcache := (chooseCandidate_source.mp hsource).2.2 ⟨body, signature, true⟩ (by simp [activeCache, hpair])
  simp [validator_active hpair] at hcache

/-- A selection validates as a pair and is not older than the active one. -/
theorem choose_sound (responses : Mirror → ResponsePair) (h : (choose t m files responses).source ≠ .none) :
    ∃ v, validateSignedCatalog t m (choose t m files responses).catalog (choose t m files responses).signature =
        .ok v ∧ ∀ a, activeMetadata t m files = some a → a.revision ≤ v.revision :=
  validator_revision (choose_valid t m files responses h)

/-- The refresh reports an active catalog, and the files hold one. -/
def Recovered (t : Trust) (m : ExactModule) (out : Files × Option (RefreshResult × String)) : Prop :=
  ∃ result error, out.2 = some (result, error) ∧ result.active = true ∧ (activeMetadata t m out.1).isSome

private theorem activateChoice_recovers {selected : Selection} (hargs : m.identityValid = true)
    (hvalid : validator t m files selected.catalog selected.signature = true) (responses : Mirror → ResponsePair)
    (mirror : Mirror) (written : Part → Bool) :
    Recovered t m (activateChoice t m files responses selected mirror { etag := written }) := by
  obtain ⟨result, error, hreport, hactive, hafter⟩ := activate_admitted hargs hvalid
  unfold activateChoice
  split
  · rename_i hstopped
    rw [hstopped] at hreport
    cases hreport
  · rename_i after activated e hreturned
    rw [hreturned] at hreport hafter
    obtain ⟨rfl, rfl⟩ := Report.returned.inj hreport
    split
    · rename_i hinactive
      exact absurd (hactive.symm.trans hinactive) (by simp)
    · exact ⟨_, _, rfl, rfl, Option.isSome_iff_exists.mpr ⟨_, (activeMetadata_storeEtags ..).trans hafter⟩⟩

/-- A remote refresh whose writes succeed ends active exactly when it starts so or a
mirror offers a pair that no stored ETag keeps from being sent. -/
theorem recovered_iff {rootAbsolute : Bool} {bases : MirrorBases}
    (hargs : argumentsValid m rootAbsolute .remote bases = true) (mirrors : Mirror → Part → Option Resource)
    (polls : List (Mirror → Part → Bool)) (written : Part → Bool) :
    Recovered t m (refreshComponent t m rootAbsolute .remote bases (mirrorNetwork mirrors) polls
        { etag := written } files) ↔
      (activeMetadata t m files).isSome ∨
        ∃ mirror, Offers t m files mirrors mirror ∧ Unmatched files mirrors mirror := by
  have hidentity : m.identityValid = true := by
    simp only [argumentsValid, Bool.and_eq_true] at hargs
    exact hargs.1.2
  have hvalid := choose_valid t m files (fetchResponses t m files (mirrorNetwork mirrors) polls)
  unfold refreshComponent
  rw [if_neg (by simp [hargs])]
  dsimp only
  cases ha : activeMetadata t m files with
  | none =>
    have hselects := fetch_selects_iff ha mirrors polls
    simp only [Option.isSome_none, Bool.false_eq_true, false_or]
    rw [← hselects]
    rcases choose_uncached ha (fetchResponses t m files (mirrorNetwork mirrors) polls) with hs | hs | hs
    · rw [hs]
      simp [Recovered]
    · rw [hs]
      exact ⟨fun _ => by simp, fun _ => activateChoice_recovers hidentity (hvalid (by rw [hs]; simp)) _ _ _⟩
    · rw [hs]
      exact ⟨fun _ => by simp, fun _ => activateChoice_recovers hidentity (hvalid (by rw [hs]; simp)) _ _ _⟩
  | some a =>
    simp only [Option.isSome_some, true_or, iff_true]
    cases hs : (choose t m files (fetchResponses t m files (mirrorNetwork mirrors) polls)).source with
    | none => exact absurd hs (choose_active ha _)
    | github | jsDelivr => exact activateChoice_recovers hidentity (hvalid (by rw [hs]; simp)) _ _ _
    | revalidatedCache =>
      exact ⟨_, _, rfl, rfl, Option.isSome_iff_exists.mpr ⟨a, (activeMetadata_storeEtags ..).trans ha⟩⟩
    | offlineCache => exact ⟨_, _, rfl, rfl, Option.isSome_iff_exists.mpr ⟨a, ha⟩⟩

/-- Where some mirror offers a catalog, a remote refresh ends active exactly when the
local pair is valid or an offering mirror is not asked with a matching ETag; and on any
network whatever is selected validates as a pair and is not older than the active one. -/
theorem remote_refresh_recovers_iff (t : Trust) (m : ExactModule) (files : Files) (rootAbsolute : Bool)
    (bases : MirrorBases) (hargs : argumentsValid m rootAbsolute .remote bases = true)
    (mirrors : Mirror → Part → Option Resource) (polls : List (Mirror → Part → Bool)) (written : Part → Bool) :
    (((∃ mirror, Offers t m files mirrors mirror) →
        Recovered t m (refreshComponent t m rootAbsolute .remote bases (mirrorNetwork mirrors) polls
          { etag := written } files)) ↔
      (activeMetadata t m files).isSome ∨
        (∃ mirror, Offers t m files mirrors mirror ∧ Unmatched files mirrors mirror) ∨
        ∀ mirror, ¬ Offers t m files mirrors mirror) ∧
    ∀ network anyPolls, (choose t m files (fetchResponses t m files network anyPolls)).source ≠ .none →
      ∃ v, validateSignedCatalog t m (choose t m files (fetchResponses t m files network anyPolls)).catalog
          (choose t m files (fetchResponses t m files network anyPolls)).signature = .ok v ∧
        ∀ a, activeMetadata t m files = some a → a.revision ≤ v.revision := by
  refine ⟨?_, fun network anyPolls h => choose_sound _ h⟩
  rw [recovered_iff hargs]
  constructor
  · intro h
    by_cases hoffers : ∃ mirror, Offers t m files mirrors mirror
    · exact (h hoffers).imp id .inl
    · exact .inr (.inr (not_exists.mp hoffers))
  · rintro (hactive | hfresh | hnone) hoffers
    · exact .inl hactive
    · exact .inr hfresh
    · exact absurd hoffers (not_exists.mpr hnone)

/-- GitHub holds revision 1 under the ETags a and b, the other mirror nothing. -/
def githubOnly : Mirror → Part → Option Resource
  | .github, .catalog => some ⟨(signedByte 1).body, [97]⟩
  | .github, .signature => some ⟨(signedByte 1).signature, [98]⟩
  | .jsDelivr, _ => none

theorem remote_refresh_recovers_without_etags :
    Recovered byteTrust clientModule (refreshComponent byteTrust clientModule true .remote {}
      (mirrorNetwork githubOnly) [] { etag := fun _ => true } ⟨none, none, fun _ _ => none⟩) := by
  have hoffers : Offers byteTrust clientModule ⟨none, none, fun _ _ => none⟩ githubOnly .github :=
    ⟨_, _, rfl, rfl, rfl⟩
  have hunmatched : Unmatched ⟨none, none, fun _ _ => none⟩ githubOnly .github := by
    rintro part r - hsafe hetag
    rw [← hetag] at hsafe
    cases hsafe
  exact (remote_refresh_recovers_iff byteTrust clientModule _ true {} (by decide) githubOnly [] fun _ => true).1.mpr
    (.inr (.inl ⟨.github, hoffers, hunmatched⟩)) ⟨.github, hoffers⟩

/-- The active files are gone but the ETags of what GitHub still holds are stored: both
its answers are 304, and the refresh ends with nothing active. -/
theorem remote_refresh_stuck :
    Offers byteTrust clientModule ⟨none, none, fun mirror part => (githubOnly mirror part).map Resource.etag⟩
        githubOnly .github ∧
      (refreshComponent byteTrust clientModule true .remote {} (mirrorNetwork githubOnly) []
        { etag := fun _ => true } ⟨none, none, fun mirror part => (githubOnly mirror part).map Resource.etag⟩).2 =
        some ({}, "no valid signed exact-module catalog is available") :=
  ⟨⟨_, _, rfl, rfl, rfl⟩, rfl⟩

end SlsteamMoon.PatternRefresh
