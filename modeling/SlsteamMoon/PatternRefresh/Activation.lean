import SlsteamMoon.Runs
import Mathlib.Data.List.Basic

/-! Signed pattern metadata: the exact module it is for, the checks on a signed body,
the revision guard, and the files of one module. -/
namespace SlsteamMoon.PatternRefresh

abbrev Bytes := List UInt8

def kMaximumCatalogSize : Nat := 256 * 1024
def kSignatureSize : Nat := 64

structure ExecutableRange where
  rangeBegin : UInt64
  rangeEnd : UInt64
  deriving DecidableEq, Repr

structure ExactModule where
  component : String
  moduleName : String
  sha256 : String
  size : UInt64
  gnuBuildId : String
  executableRanges : List ExecutableRange
  deriving DecidableEq, Repr

structure Catalog where
  revision : UInt64
  targetRvas : List UInt32
  deriving DecidableEq, Repr

structure ValidatedCatalog where
  revision : UInt64
  deriving DecidableEq, Repr

/-- What the checks take from elsewhere: the Ed25519 verification under the public key
and the canonical catalog parser. -/
structure Trust where
  verifyEd25519 : Bytes → Bytes → Bool
  parseCanonical : Bytes → ExactModule → Except String Catalog

def isModule (component moduleName : String) : Bool :=
  (component = "steamclient" && moduleName = "steamclient.so") ||
    (component = "steamui" && moduleName = "steamui.so")

def isHexDigit (c : Char) : Bool := ('0' ≤ c && c ≤ '9') || ('a' ≤ c && c ≤ 'f')

def isSha256 (value : String) : Bool := value.length = 64 && value.toList.all isHexDigit

def isLowerHex (value : String) (maximum : Nat) : Bool :=
  value ≠ "" && value.length ≤ maximum && value.length % 2 = 0 && value.toList.all isHexDigit

namespace ExactModule

def identityValid (m : ExactModule) : Bool :=
  isModule m.component m.moduleName && isSha256 m.sha256 && m.size ≠ 0 && isLowerHex m.gnuBuildId 128

def executable (m : ExactModule) (targetRva : UInt32) : Bool :=
  m.executableRanges.any fun r =>
    r.rangeBegin < r.rangeEnd && r.rangeBegin ≤ targetRva.toUInt64 && targetRva.toUInt64 < r.rangeEnd

end ExactModule

def validateSignedCatalog (t : Trust) (m : ExactModule) (body signature : Bytes) :
    Except String ValidatedCatalog :=
  if m.identityValid = false then .error "exact module identity is invalid"
  else if body = [] ∨ kMaximumCatalogSize < body.length then .error "catalog size is invalid"
  else if signature.length ≠ kSignatureSize then .error "catalog signature size is invalid"
  else if t.verifyEd25519 body signature = false then .error "catalog signature is invalid"
  else match t.parseCanonical body m with
    | .error parseError => .error (if parseError = "" then "catalog metadata is invalid" else parseError)
    | .ok catalog =>
      if catalog.targetRvas.all m.executable then .ok ⟨catalog.revision⟩
      else .error "catalog target is not in an executable ELF segment"

/-- What a body that validates went through; the revision is a function of the body. -/
structure Validates (t : Trust) (m : ExactModule) (body signature : Bytes) (v : ValidatedCatalog) : Prop where
  nonempty : body ≠ []
  size_le : body.length ≤ kMaximumCatalogSize
  signature_size : signature.length = kSignatureSize
  verified : t.verifyEd25519 body signature = true
  parsed : ∃ catalog, t.parseCanonical body m = .ok catalog ∧ v.revision = catalog.revision

theorem validates_of_ok {t : Trust} {m : ExactModule} {body signature : Bytes} {v : ValidatedCatalog}
    (h : validateSignedCatalog t m body signature = .ok v) : Validates t m body signature v := by
  unfold validateSignedCatalog at h
  split at h
  · cases h
  · split at h
    · cases h
    · rename_i hbody
      split at h
      · cases h
      · rename_i hsize
        split at h
        · cases h
        · rename_i hverified
          split at h
          · cases h
          · rename_i catalog hparsed
            split at h
            · obtain rfl := Except.ok.inj h
              rw [not_or, Nat.not_lt] at hbody
              exact ⟨hbody.1, hbody.2, not_not.mp hsize, by simpa using hverified, catalog, hparsed, rfl⟩
            · cases h

/-- Two signatures of one body give it the same revision. -/
theorem validates_revision {t : Trust} {m : ExactModule} {body first second : Bytes} {v w : ValidatedCatalog}
    (hv : Validates t m body first v) (hw : Validates t m body second w) : v = w := by
  obtain ⟨c, hc, hcv⟩ := hv.parsed
  obtain ⟨d, hd, hdw⟩ := hw.parsed
  obtain rfl := Except.ok.inj (hc.symm.trans hd)
  cases v
  cases w
  simpa using hcv.trans hdw.symm

def acceptsRevision (candidate : ValidatedCatalog) (candidateBody : Bytes)
    (active : Option ValidatedCatalog) (activeBody : Bytes) : Bool :=
  match active with
  | none => true
  | some a => a.revision < candidate.revision ||
      (candidate.revision = a.revision && candidateBody = activeBody)

inductive Mirror where
  | github | jsDelivr
  deriving DecidableEq, Repr

inductive Part where
  | catalog | signature
  deriving DecidableEq, Repr

/-- The files of one module under the pattern root; none stands for everything that is
not a readable regular file. -/
structure Files where
  catalog : Option Bytes
  signature : Option Bytes
  etag : Mirror → Part → Option Bytes := fun _ _ => none

def readRegularFile (file : Option Bytes) (maximum : Nat) : Option Bytes :=
  file.filter fun body => body.length ≤ maximum

/-- The pair that both readers take as active: whole, of the right sizes, validated. -/
def activePair (t : Trust) (m : ExactModule) (files : Files) : Option (Bytes × Bytes × ValidatedCatalog) :=
  match readRegularFile files.catalog kMaximumCatalogSize, readRegularFile files.signature kSignatureSize with
  | some body, some signature =>
    if body ≠ [] ∧ signature.length = kSignatureSize then
      match validateSignedCatalog t m body signature with
      | .ok v => some (body, signature, v)
      | .error _ => none
    else none
  | _, _ => none

/-- What the module's readers find active, if anything. -/
def activeMetadata (t : Trust) (m : ExactModule) (files : Files) : Option ValidatedCatalog :=
  (activePair t m files).map fun pair => pair.2.2

theorem activePair_some {t : Trust} {m : ExactModule} {files : Files} {body signature : Bytes}
    {v : ValidatedCatalog} (h : activePair t m files = some (body, signature, v)) :
    files.catalog = some body ∧ files.signature = some signature ∧
      validateSignedCatalog t m body signature = .ok v := by
  unfold activePair at h
  split at h
  · rename_i b s hb hs
    split at h
    · split at h
      · rename_i hvalid
        simp only [Option.some.injEq, Prod.mk.injEq] at h
        obtain ⟨rfl, rfl, rfl⟩ := h
        exact ⟨(Option.filter_eq_some_iff.mp hb).1, (Option.filter_eq_some_iff.mp hs).1, hvalid⟩
      · cases h
    · cases h
  · cases h

/-- A validated pair on disk is the active one. -/
theorem activePair_of_files {t : Trust} {m : ExactModule} {files : Files} {body signature : Bytes}
    {v : ValidatedCatalog} (hcatalog : files.catalog = some body) (hsignature : files.signature = some signature)
    (hvalid : validateSignedCatalog t m body signature = .ok v) :
    activePair t m files = some (body, signature, v) := by
  have h := validates_of_ok hvalid
  have hb : readRegularFile files.catalog kMaximumCatalogSize = some body := by
    rw [hcatalog, readRegularFile, Option.filter_some, if_pos (by simpa using h.size_le)]
  have hs : readRegularFile files.signature kSignatureSize = some signature := by
    rw [hsignature, readRegularFile, Option.filter_some, if_pos (by simpa using Nat.le_of_eq h.signature_size)]
  simp [activePair, hb, hs, h.nonempty, h.signature_size, hvalid]

end SlsteamMoon.PatternRefresh

/-! Activation of a signed candidate: the signature file is renamed into place first, the
catalog file second, and the revision guard reads whatever pair then validates. -/
namespace SlsteamMoon.PatternRefresh

/-- How one writeAtomic0600 ends: the temporary file is renamed over the target, an
error leaves the target alone, or the process stops before the rename. -/
inductive WriteIo where
  | renamed | failed | stopped
  deriving DecidableEq, Repr

structure ActivationResult where
  active : Bool := false
  changed : Bool := false
  revision : UInt64 := 0
  deriving DecidableEq, Repr

/-- The report of a call that returns; a stopped process reports nothing. -/
inductive Report where
  | returned (result : ActivationResult) (error : String)
  | stopped
  deriving DecidableEq, Repr

/-- The two writes in their order, ended by the first that is not renamed. -/
def writePair (files : Files) (body signature : Bytes) (revision : UInt64) (signatureIo catalogIo : WriteIo) :
    Files × Report :=
  let failed : Report := .returned {} "catalog could not be activated atomically"
  match signatureIo with
  | .failed => (files, failed)
  | .stopped => (files, .stopped)
  | .renamed =>
    let half := { files with signature := some signature }
    match catalogIo with
    | .failed => (half, failed)
    | .stopped => (half, .stopped)
    | .renamed => ({ half with catalog := some body }, .returned ⟨true, true, revision⟩ "")

def activateSignedCatalog (t : Trust) (m : ExactModule) (rootAbsolute : Bool) (files : Files)
    (body signature : Bytes) (signatureIo catalogIo : WriteIo) : Files × Report :=
  if rootAbsolute = false ∨ isModule m.component m.moduleName = false ∨ isSha256 m.sha256 = false then
    (files, .returned {} "catalog activation arguments are invalid")
  else match validateSignedCatalog t m body signature with
    | .error e => (files, .returned {} e)
    | .ok candidate =>
      let pair := activePair t m files
      let active := pair.map fun p => p.2.2
      let activeBody := (pair.map fun p => p.1).getD []
      if acceptsRevision candidate body active activeBody = false then
        (files, .returned {} "catalog revision would roll back active metadata")
      else if active.any (fun a => candidate.revision = a.revision) && body = activeBody then
        (files, .returned ⟨true, false, candidate.revision⟩ "")
      else writePair files body signature candidate.revision signatureIo catalogIo

/-- One call with the fate of its writes. -/
structure Call where
  rootAbsolute : Bool := true
  body : Bytes
  signature : Bytes
  signatureIo : WriteIo := .renamed
  catalogIo : WriteIo := .renamed
  deriving DecidableEq, Repr

section
variable (t : Trust) (m : ExactModule)

def report (files : Files) (c : Call) : Report :=
  (activateSignedCatalog t m c.rootAbsolute files c.body c.signature c.signatureIo c.catalogIo).2

/-- A call runs to its end or to the stop of the process. -/
def activationStep (files : Files) (c : Call) : Option Files :=
  some (activateSignedCatalog t m c.rootAbsolute files c.body c.signature c.signatureIo c.catalogIo).1

/-- The call goes on to write over a valid pair. -/
def Replaces (files : Files) (c : Call) : Prop :=
  ∃ a v, activeMetadata t m files = some a ∧ c.rootAbsolute = true ∧
    validateSignedCatalog t m c.body c.signature = .ok v ∧ a.revision < v.revision

/-- Over a valid pair the catalog's rename follows the signature's. -/
def NotHalved (files : Files) (c : Call) : Prop :=
  Replaces t m files c → c.signatureIo = .renamed → c.catalogIo = .renamed

/-- Every state of the run that has a valid pair is followed by such states only, with
no lower revision. -/
def NeverLost (files : Files) (calls : List Call) : Prop :=
  ∀ first between rest, calls = first ++ between ++ rest → ∀ before after,
    Runs.exec (activationStep t m) files first = some before →
    Runs.exec (activationStep t m) before between = some after →
    ∀ a, activeMetadata t m before = some a →
      ∃ b, activeMetadata t m after = some b ∧ a.revision ≤ b.revision

end

/-- What a call can do to the files. -/
inductive Activates (t : Trust) (m : ExactModule) (files : Files) (c : Call) : Files → Report → Prop
  | refused (error : String) (hkeeps : ¬ Replaces t m files c) :
      Activates t m files c files (.returned {} error)
  | same (a : ValidatedCatalog) (hactive : activeMetadata t m files = some a)
      (hbody : files.catalog = some c.body) (hkeeps : ¬ Replaces t m files c) :
      Activates t m files c files (.returned ⟨true, false, a.revision⟩ "")
  | unwritten (r : Report) (hio : c.signatureIo ≠ .renamed)
      (hinactive : ∀ result error, r = .returned result error → result.active = false) :
      Activates t m files c files r
  | halved (v : ValidatedCatalog) (r : Report) (hsignature : c.signatureIo = .renamed)
      (hcatalog : c.catalogIo ≠ .renamed) (hroot : c.rootAbsolute = true)
      (hvalid : validateSignedCatalog t m c.body c.signature = .ok v)
      (hraises : ∀ a, activeMetadata t m files = some a → a.revision < v.revision)
      (hinactive : ∀ result error, r = .returned result error → result.active = false) :
      Activates t m files c { files with signature := some c.signature } r
  | written (v : ValidatedCatalog) (hcatalog : c.catalogIo = .renamed)
      (hvalid : validateSignedCatalog t m c.body c.signature = .ok v)
      (hraises : ∀ a, activeMetadata t m files = some a → a.revision < v.revision) :
      Activates t m files c { files with catalog := some c.body, signature := some c.signature }
        (.returned ⟨true, true, v.revision⟩ "")

private theorem writePair_activates {t : Trust} {m : ExactModule} {files : Files} {c : Call}
    {v : ValidatedCatalog} (hroot : c.rootAbsolute = true)
    (hvalid : validateSignedCatalog t m c.body c.signature = .ok v)
    (hraises : ∀ a, activeMetadata t m files = some a → a.revision < v.revision) :
    Activates t m files c (writePair files c.body c.signature v.revision c.signatureIo c.catalogIo).1
      (writePair files c.body c.signature v.revision c.signatureIo c.catalogIo).2 := by
  unfold writePair
  cases hs : c.signatureIo with
  | failed | stopped => exact .unwritten _ (by simp [hs]) (by simp)
  | renamed =>
    cases hc : c.catalogIo with
    | failed | stopped => exact .halved v _ hs (by simp [hc]) hroot hvalid hraises (by simp)
    | renamed => exact .written v hc hvalid hraises

theorem activates (t : Trust) (m : ExactModule) (files : Files) (c : Call) :
    Activates t m files c
      (activateSignedCatalog t m c.rootAbsolute files c.body c.signature c.signatureIo c.catalogIo).1
      (report t m files c) := by
  unfold report activateSignedCatalog
  split
  · rename_i hargs
    refine .refused _ ?_
    rintro ⟨a, v, -, hroot, hvalid, -⟩
    rcases hargs with habsolute | hmodule | hsha
    · exact absurd (hroot.symm.trans habsolute) (by simp)
    · simp [validateSignedCatalog, ExactModule.identityValid, hmodule] at hvalid
    · simp [validateSignedCatalog, ExactModule.identityValid, hsha] at hvalid
  · rename_i hargs
    have hroot : c.rootAbsolute = true := by simpa using fun h => hargs (.inl h)
    split
    · rename_i e herror
      refine .refused _ ?_
      rintro ⟨a, v, -, -, hvalid, -⟩
      exact absurd (herror.symm.trans hvalid) (by simp)
    · rename_i v hvalid
      dsimp only
      cases hpair : activePair t m files with
      | none =>
        have hnone : activeMetadata t m files = none := by rw [activeMetadata, hpair]; rfl
        exact writePair_activates hroot hvalid fun a ha => by simp [hnone] at ha
      | some pair =>
        obtain ⟨body, signature, a⟩ := pair
        have hactive : activeMetadata t m files = some a := by rw [activeMetadata, hpair]; rfl
        -- a replacement is by a higher revision than the active one
        have hreplaces : Replaces t m files c → a.revision < v.revision := by
          rintro ⟨b, w, hb, -, hw, hlt⟩
          obtain rfl := Option.some.inj (hactive.symm.trans hb)
          obtain rfl := Except.ok.inj (hvalid.symm.trans hw)
          exact hlt
        simp only [Option.map_some, Option.getD_some, Option.any_some]
        split
        · rename_i hrefused
          refine .refused _ fun hr => ?_
          simp [acceptsRevision, hreplaces hr] at hrefused
        · rename_i haccepts
          split
          · rename_i hsame
            simp only [Bool.and_eq_true, decide_eq_true_eq] at hsame
            obtain ⟨hrev, hbody⟩ := hsame
            rw [hrev]
            refine .same a hactive (hbody ▸ (activePair_some hpair).1) fun hr => ?_
            exact absurd (hrev ▸ hreplaces hr) (UInt64.lt_irrefl _)
          · rename_i hdiffers
            refine writePair_activates hroot hvalid fun x hx => ?_
            obtain rfl := Option.some.inj (hactive.symm.trans hx)
            simp only [acceptsRevision, Bool.not_eq_false, Bool.or_eq_true, Bool.and_eq_true,
              decide_eq_true_eq] at haccepts hdiffers
            exact haccepts.resolve_right hdiffers

theorem activeMetadata_pair {t : Trust} {m : ExactModule} {files : Files} {a : ValidatedCatalog}
    (h : activeMetadata t m files = some a) : ∃ body signature, activePair t m files = some (body, signature, a) := by
  obtain ⟨⟨body, signature, v⟩, hpair, rfl⟩ := Option.map_eq_some_iff.mp h
  exact ⟨body, signature, hpair⟩

private theorem activeMetadata_of_files {t : Trust} {m : ExactModule} {files : Files} {body signature : Bytes}
    {v : ValidatedCatalog} (hcatalog : files.catalog = some body) (hsignature : files.signature = some signature)
    (hvalid : validateSignedCatalog t m body signature = .ok v) : activeMetadata t m files = some v := by
  rw [activeMetadata, activePair_of_files hcatalog hsignature hvalid]
  rfl

/-- A report of activity names the revision that is then active, with the candidate's body. -/
theorem Activates.active {t : Trust} {m : ExactModule} {files after : Files} {c : Call} {r : Report}
    (h : Activates t m files c after r) {result : ActivationResult} {error : String}
    (hr : r = .returned result error) (hactive : result.active = true) :
    activeMetadata t m after = some ⟨result.revision⟩ ∧ after.catalog = some c.body := by
  cases h with
  | refused e =>
    obtain ⟨rfl, -⟩ := Report.returned.inj hr
    cases hactive
  | same a ha hbody =>
    obtain ⟨rfl, -⟩ := Report.returned.inj hr
    exact ⟨ha, hbody⟩
  | unwritten _ hio hinactive => exact absurd (hactive.symm.trans (hinactive _ _ hr)) (by simp)
  | halved v _ _ _ _ _ _ hinactive => exact absurd (hactive.symm.trans (hinactive _ _ hr)) (by simp)
  | written v hcatalog hvalid =>
    obtain ⟨rfl, -⟩ := Report.returned.inj hr
    exact ⟨activeMetadata_of_files rfl rfl hvalid, rfl⟩

/-- Over a valid pair a call keeps a valid pair exactly when it does not stay half done. -/
theorem Activates.keeps_iff {t : Trust} {m : ExactModule} {files after : Files} {c : Call} {r : Report}
    (hforge : ∀ body other signature, t.verifyEd25519 body signature = true →
      t.verifyEd25519 other signature = true → body = other)
    (h : Activates t m files c after r) {a : ValidatedCatalog} (ha : activeMetadata t m files = some a) :
    (∃ b, activeMetadata t m after = some b ∧ a.revision ≤ b.revision) ↔ NotHalved t m files c := by
  cases h with
  | refused e hkeeps => exact ⟨fun _ hr => absurd hr hkeeps, fun _ => ⟨a, ha, UInt64.le_refl _⟩⟩
  | same b _ _ hkeeps => exact ⟨fun _ hr => absurd hr hkeeps, fun _ => ⟨a, ha, UInt64.le_refl _⟩⟩
  | unwritten _ hio => exact ⟨fun _ _ hs => absurd hs hio, fun _ => ⟨a, ha, UInt64.le_refl _⟩⟩
  | written v hcatalog hvalid hraises =>
    exact ⟨fun _ _ _ => hcatalog,
      fun _ => ⟨v, activeMetadata_of_files rfl rfl hvalid, UInt64.le_of_lt (hraises a ha)⟩⟩
  | halved v _ hsignature hcatalog hroot hvalid hraises =>
    refine ⟨fun ⟨b, hb, _⟩ => ?_, fun hok => absurd (hok ⟨a, v, ha, hroot, hvalid, hraises a ha⟩ hsignature) hcatalog⟩
    -- the old body under the new signature would make the two bodies one
    obtain ⟨body, _, hpair⟩ := activeMetadata_pair ha
    obtain ⟨hold, -, hoka⟩ := activePair_some hpair
    obtain ⟨other, signature, hhalf⟩ := activeMetadata_pair hb
    obtain ⟨hsame, hsig, hokb⟩ := activePair_some hhalf
    obtain rfl := Option.some.inj (hold.symm.trans hsame)
    obtain rfl := Option.some.inj hsig
    have hbody := hforge _ _ _ (validates_of_ok hokb).verified (validates_of_ok hvalid).verified
    subst hbody
    obtain rfl := validates_revision (validates_of_ok hoka) (validates_of_ok hvalid)
    exact absurd (hraises a ha) (UInt64.lt_irrefl _)

/-- No valid pair is ever lost or lowered, over any sequence of calls, failures and
stops, exactly when no call over a valid pair ends between its two renames; and a call
that reports activity leaves its revision and body active. -/
theorem signed_pair_never_lost_iff (t : Trust) (m : ExactModule)
    (hforge : ∀ body other signature, t.verifyEd25519 body signature = true →
      t.verifyEd25519 other signature = true → body = other) (files : Files) (calls : List Call) :
    (NeverLost t m files calls ↔ Runs.Meets (activationStep t m) (NotHalved t m) files calls) ∧
      ∀ before c result error, report t m before c = .returned result error → result.active = true →
        ∀ after, activationStep t m before c = some after →
          activeMetadata t m after = some ⟨result.revision⟩ ∧ after.catalog = some c.body := by
  refine ⟨⟨fun h => ?_, fun h => ?_⟩, ?_⟩
  · rw [Runs.meets_iff_splits]
    rintro first c rest rfl before hbefore
    rintro ⟨a, v, ha, hreplaces⟩
    have hkeeps := h first [c] rest (by simp) before _ hbefore (by simp [activationStep]; rfl) a ha
    exact ((activates t m before c).keeps_iff hforge ha).mp hkeeps ⟨a, v, ha, hreplaces⟩
  · rintro first between rest rfl before after hbefore hafter a ha
    rw [List.append_assoc, Runs.meets_append] at h
    have hbetween := ((Runs.meets_append _ _ _ _ _).mp (h.2 before hbefore)).1
    refine Runs.exec_invariant (P := fun x => ∃ b, activeMetadata t m x = some b ∧ a.revision ≤ b.revision)
      ?_ ⟨a, ha, UInt64.le_refl _⟩ hbetween hafter
    rintro x c y ⟨b, hb, hab⟩ hok hstep
    obtain rfl := Option.some.inj hstep
    obtain ⟨d, hd, hbd⟩ := ((activates t m x c).keeps_iff hforge hb).mpr hok
    exact ⟨d, hd, UInt64.le_trans hab hbd⟩
  · rintro before c result error hreport hactive after hstep
    obtain rfl := Option.some.inj hstep
    exact (activates t m before c).active hreport hactive

/-- Bodies of one byte, which is their revision and fills their signature. -/
def byteTrust : Trust where
  verifyEd25519 body signature := body.length = 1 && signature = List.replicate 64 (body.headD 0)
  parseCanonical body _ := .ok ⟨(body.headD 0).toUInt64, []⟩

def clientModule : ExactModule where
  component := "steamclient"
  moduleName := "steamclient.so"
  sha256 := "aaaaaaaaaaaaaaaaaaaaaaaaaaaaaaaaaaaaaaaaaaaaaaaaaaaaaaaaaaaaaaaa"
  size := 1
  gnuBuildId := "aa"
  executableRanges := []

def signedByte (b : UInt8) : Call := { body := [b], signature := List.replicate 64 b }

private theorem byteTrust_unforgeable (body other signature : Bytes)
    (h : byteTrust.verifyEd25519 body signature = true)
    (h' : byteTrust.verifyEd25519 other signature = true) : body = other := by
  simp only [byteTrust, Bool.and_eq_true, decide_eq_true_eq] at h h'
  obtain ⟨x, rfl⟩ := List.length_eq_one_iff.mp h.1
  obtain ⟨y, rfl⟩ := List.length_eq_one_iff.mp h'.1
  have hxy : List.replicate 64 x = List.replicate 64 y := h.2.symm.trans h'.2
  rw [(List.replicate_inj.mp hxy).2.resolve_left (by decide)]

theorem signed_pair_never_lost_two_revisions :
    NeverLost byteTrust clientModule ⟨none, none, fun _ _ => none⟩ [signedByte 1, signedByte 2] :=
  (signed_pair_never_lost_iff byteTrust clientModule byteTrust_unforgeable _ _).1.mpr
    (.step rfl (fun _ _ => rfl) (.step rfl (fun _ _ => rfl) trivial))

/-- Revision 2 is active; revision 3's signature is renamed and its catalog is not, so
no pair is valid; then revision 1 is accepted. -/
def rollbackCalls : List Call := [signedByte 2, { signedByte 3 with catalogIo := .failed }, signedByte 1]

theorem signed_pair_rolls_back :
    ¬ NeverLost byteTrust clientModule ⟨none, none, fun _ _ => none⟩ rollbackCalls ∧
      ∃ first half last, Runs.exec (activationStep byteTrust clientModule) ⟨none, none, fun _ _ => none⟩
          (rollbackCalls.take 1) = some first ∧
        activationStep byteTrust clientModule first { signedByte 3 with catalogIo := .failed } = some half ∧
        activationStep byteTrust clientModule half (signedByte 1) = some last ∧
        activeMetadata byteTrust clientModule first = some ⟨2⟩ ∧
        activeMetadata byteTrust clientModule half = none ∧
        activeMetadata byteTrust clientModule last = some ⟨1⟩ := by
  refine ⟨fun h => ?_, _, _, _, rfl, rfl, rfl, rfl, rfl, rfl⟩
  obtain ⟨b, hb, -⟩ := h [signedByte 2] [{ signedByte 3 with catalogIo := .failed }] [signedByte 1] rfl _ _ rfl rfl
    ⟨2⟩ rfl
  cases hb

end SlsteamMoon.PatternRefresh
