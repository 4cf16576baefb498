import SlsteamMoon.PatternRefresh.Activation

/-! One refresh of a module: conditional requests to two mirrors with the stored ETags,
the choice among what they answer and the active pair, and the activation of the choice. -/
namespace SlsteamMoon.PatternRefresh

structure Response where
  transportOk : Bool := false
  status : Nat := 0
  body : Bytes := []
  etag : Bytes := []
  deriving DecidableEq, Repr

structure ResponsePair where
  catalog : Response := {}
  signature : Response := {}
  deriving DecidableEq, Repr

structure CachedPair where
  catalog : Bytes
  signature : Bytes
  exactSha : Bool := false
  deriving DecidableEq, Repr

inductive Source where
  | none | github | jsDelivr | revalidatedCache | offlineCache
  deriving DecidableEq, Repr

structure Selection where
  source : Source := .none
  catalog : Bytes := []
  signature : Bytes := []
  deriving DecidableEq, Repr

abbrev Validator := Bytes → Bytes → Bool

def responseBody (response : Response) (cache : Option CachedPair) (part : Part) : Option Bytes :=
  if response.transportOk = false then none
  else if response.status = 200 then some response.body
  else match cache with
    | none => none
    | some c =>
      if response.status ≠ 304 ∨ c.exactSha = false then none
      else match part with
        | .catalog => some c.catalog
        | .signature => some c.signature

def evaluate (responses : ResponsePair) (remoteSource : Source) (cache : Option CachedPair)
    (validate : Validator) : Selection :=
  match responseBody responses.catalog cache .catalog, responseBody responses.signature cache .signature with
  | some catalog, some signature =>
    if validate catalog signature then
      ⟨if responses.catalog.status = 304 ∧ responses.signature.status = 304 then .revalidatedCache
        else remoteSource, catalog, signature⟩
    else {}
  | _, _ => {}

def chooseCandidate (github jsDelivr : ResponsePair) (cache : Option CachedPair) (validate : Validator) :
    Selection :=
  let first := evaluate github .github cache validate
  let second := evaluate jsDelivr .jsDelivr cache validate
  if first.source ≠ .none then first
  else if second.source ≠ .none then second
  else match cache with
    | some c =>
      if c.exactSha && validate c.catalog c.signature then ⟨.offlineCache, c.catalog, c.signature⟩ else {}
    | none => {}

def safeEtag (value : Bytes) : Bool :=
  value ≠ [] && value.length ≤ 256 && value.all fun b => 0x20 ≤ b && b < 0x7F && b ≠ 0x5C

def loadEtag (file : Option Bytes) : Bytes :=
  match readRegularFile file 256 with
  | some body => if safeEtag body then body else []
  | none => []

/-- What answers a request for one file, given the ETag it carries and its size limit. -/
abbrev Network := Mirror → Part → Bytes → Nat → Response

/-- A transfer that has not completed reads as a transport failure. -/
def completedResponses (answers : Mirror → Part → Response) (done : Mirror → Part → Bool) (mirror : Mirror) :
    ResponsePair where
  catalog := if done mirror .catalog then answers mirror .catalog else {}
  signature := if done mirror .signature then answers mirror .signature else {}

/-- Every poll completes some transfers; the batch ends when the partial responses
satisfy stopWhen or when all have completed. -/
def fetchBatch (answers : Mirror → Part → Response) (stopWhen : (Mirror → ResponsePair) → Bool)
    (done : Mirror → Part → Bool) : List (Mirror → Part → Bool) → Mirror → ResponsePair
  | [] => completedResponses answers fun _ _ => true
  | completes :: polls =>
    let now := fun mirror part => done mirror part || completes mirror part
    if stopWhen (completedResponses answers now) then completedResponses answers now
    else fetchBatch answers stopWhen now polls

def requestMaximum : Part → Nat
  | .catalog => kMaximumCatalogSize
  | .signature => kSignatureSize

structure MirrorBases where
  github : String := "https://raw.githubusercontent.com/swwayps/steam-monitor/main/"
  jsDelivr : String := "https://cdn.jsdelivr.net/gh/swwayps/steam-monitor@main/"
  allowHttpForTests : Bool := false
  deriving DecidableEq, Repr

def validMirrorBase (value : String) (allowHttp : Bool) : Bool :=
  value ≠ "" && value.length ≤ 512 && value.toList.getLast? = some '/' &&
    ("https://".toList.isPrefixOf value.toList || (allowHttp && "http://".toList.isPrefixOf value.toList)) &&
    value.toList.all fun c => 0x21 ≤ c.toNat && c.toNat < 0x7F && c ≠ '\\' && c ≠ '"'

inductive RefreshMode where
  | remote | cacheOnly
  deriving DecidableEq, Repr

structure RefreshResult where
  active : Bool := false
  changed : Bool := false
  source : Source := .none
  revision : UInt64 := 0
  deriving DecidableEq, Repr

/-- The fate of the writes of one refresh. -/
structure RefreshIo where
  signature : WriteIo := .renamed
  catalog : WriteIo := .renamed
  etag : Part → Bool := fun _ => true

def argumentsValid (m : ExactModule) (rootAbsolute : Bool) (mode : RefreshMode) (bases : MirrorBases) : Bool :=
  rootAbsolute && m.identityValid && (mode = .cacheOnly ||
    (validMirrorBase bases.github bases.allowHttpForTests &&
      validMirrorBase bases.jsDelivr bases.allowHttpForTests))

def ResponsePair.part (pair : ResponsePair) : Part → Response
  | .catalog => pair.catalog
  | .signature => pair.signature

def storeResponseEtags (files : Files) (mirror : Mirror) (responses : ResponsePair) (written : Part → Bool) :
    Files :=
  { files with etag := fun at_ part =>
      if at_ = mirror ∧ safeEtag (responses.part part).etag ∧ written part then some (responses.part part).etag
      else files.etag at_ part }

section
variable (t : Trust) (m : ExactModule)

def activeCache (files : Files) : Option CachedPair :=
  (activePair t m files).map fun p => ⟨p.1, p.2.1, true⟩

/-- A candidate validates as a pair and is admitted by the active revision. -/
def validator (files : Files) : Validator := fun body signature =>
  match validateSignedCatalog t m body signature with
  | .ok candidate =>
    acceptsRevision candidate body (activeMetadata t m files)
      (((activePair t m files).map fun p => p.1).getD [])
  | .error _ => false

def choose (files : Files) (responses : Mirror → ResponsePair) : Selection :=
  chooseCandidate (responses .github) (responses .jsDelivr) (activeCache t m files) (validator t m files)

def stopWhen (files : Files) (partialResponses : Mirror → ResponsePair) : Bool :=
  (choose t m files partialResponses).source = .github ||
    (choose t m files partialResponses).source = .jsDelivr ||
    (choose t m files partialResponses).source = .revalidatedCache

def fetchResponses (files : Files) (network : Network) (polls : List (Mirror → Part → Bool)) :
    Mirror → ResponsePair :=
  fetchBatch (fun mirror part => network mirror part (loadEtag (files.etag mirror part)) (requestMaximum part))
    (stopWhen t m files) (fun _ _ => false) polls

/-- The activation of a remote choice; the mirror's ETags are kept once it is active. -/
def activateChoice (files : Files) (responses : Mirror → ResponsePair) (selected : Selection) (mirror : Mirror)
    (io : RefreshIo) : Files × Option (RefreshResult × String) :=
  match activateSignedCatalog t m true files selected.catalog selected.signature io.signature io.catalog with
  | (after, .stopped) => (after, none)
  | (after, .returned activated error) =>
    if activated.active = false then (after, some ({}, error))
    else (storeResponseEtags after mirror (responses mirror) io.etag,
      some (⟨true, activated.changed, selected.source, activated.revision⟩, error))

/-- The result and the error text, or none when the process stops in a write. -/
def refreshComponent (rootAbsolute : Bool) (mode : RefreshMode) (bases : MirrorBases) (network : Network)
    (polls : List (Mirror → Part → Bool)) (io : RefreshIo) (files : Files) :
    Files × Option (RefreshResult × String) :=
  if argumentsValid m rootAbsolute mode bases = false then
    (files, some ({}, "pattern refresh arguments are invalid"))
  else match mode with
    | .cacheOnly =>
      match activeMetadata t m files with
      | some active => (files, some (⟨true, false, .offlineCache, active.revision⟩, ""))
      | none => (files, some ({}, "no valid signed exact-module cache is available"))
    | .remote =>
      let responses := fetchResponses t m files network polls
      let githubOnly :=
        chooseCandidate (responses .github) {} (activeCache t m files) (validator t m files)
      let selected := choose t m files responses
      match selected.source with
      | .none => (files, some ({}, "no valid signed exact-module catalog is available"))
      | .github => activateChoice t m files responses selected .github io
      | .jsDelivr => activateChoice t m files responses selected .jsDelivr io
      | .revalidatedCache =>
        match activeMetadata t m files with
        | none => (files, some ({}, "remote response requires an unavailable exact cache"))
        | some active =>
          let mirror := if githubOnly.source = .revalidatedCache then Mirror.github else .jsDelivr
          (storeResponseEtags files mirror (responses mirror) io.etag,
            some (⟨true, false, selected.source, active.revision⟩, ""))
      | .offlineCache =>
        match activeMetadata t m files with
        | none => (files, some ({}, "remote response requires an unavailable exact cache"))
        | some active => (files, some (⟨true, false, selected.source, active.revision⟩, ""))

end

/-- A file as a mirror holds it, under its current ETag. -/
structure Resource where
  body : Bytes
  etag : Bytes
  deriving DecidableEq, Repr

/-- A mirror answers 304 exactly when the ETag sent is that of its content, otherwise
200 with the content; what it does not hold is a 404, what is too long is cut off. -/
def mirrorNetwork (mirrors : Mirror → Part → Option Resource) : Network := fun mirror part sent maximum =>
  match mirrors mirror part with
  | none => { transportOk := true, status := 404 }
  | some r =>
    let etag := if safeEtag r.etag then r.etag else []
    if sent ≠ [] ∧ sent = r.etag then { transportOk := true, status := 304, etag }
    else if maximum < r.body.length then { status := 200, etag }
    else { transportOk := true, status := 200, body := r.body, etag }

end SlsteamMoon.PatternRefresh
