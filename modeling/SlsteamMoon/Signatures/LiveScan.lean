import SlsteamMoon.Signatures.Readers

/-! The live scan over the executable segments, and the check that the local cache makes again at an
address the scan found. -/
namespace SlsteamMoon.Signatures
open KeyValues IpcFrame TextSearch

/-- The matches counted so far, the address kept of them and the list of addresses. -/
structure Found where
  address : Option Nat := none
  matched : Nat := 0
  addresses : List Nat := []

def kMaxConvergenceCandidates : Nat := 256

def Found.record (r : Found) (address : Nat) (countDuplicates : Bool) (addressCap : Nat) : Found :=
  { address := if r.matched = 0 ∨ countDuplicates then some address else r.address
    matched := r.matched + 1
    addresses := if r.addresses.length < addressCap then r.addresses ++ [address] else r.addresses }

/-- A candidate has as many bytes as the pattern has cells. -/
def matchesAt (cells : List Int) (candidate : Bytes) : Bool :=
  (cells.zip candidate).all fun (cell, byte) => fits cell byte

section Range
variable (cells : List Int) (start : Nat) (data : Bytes) (countDuplicates : Bool) (addressCap : Nat)

/-- One candidate, and whether the scan goes on behind it. -/
def tryCandidate (offset : Nat) (r : Found) : Found × Bool :=
  if matchesAt cells (data.drop offset) then
    (r.record (start + offset) countDuplicates addressCap, countDuplicates)
  else (r, true)

/-- The candidates of a pattern without a literal, one after the other. -/
def plainLoop : List Nat → Found → Found
  | [], r => r
  | offset :: rest, r =>
    let (r, more) := tryCandidate cells start data countDuplicates addressCap offset r
    if more then plainLoop rest r else r

/-- The candidates around the occurrences of the first literal. -/
def literalLoop (firstLiteral : Nat) (needle : UInt8) (literalEnd : Nat) : Nat → Nat → Found → Found
  | 0, _, r => r
  | fuel + 1, search, r =>
    match memchr data needle search (literalEnd - search) with
    | none => r
    | some literal =>
      let (r, more) := tryCandidate cells start data countDuplicates addressCap (literal - firstLiteral) r
      if more then literalLoop firstLiteral needle literalEnd fuel (literal + 1) r else r

/-- The matches in the range that begins at `start` and holds `data`. -/
def scanPatternRange (addresses : List Nat) : Found :=
  let r : Found := { addresses }
  if cells.length = 0 ∨ data.length < cells.length then r
  else
    let candidateCount := data.length - cells.length + 1
    let firstLiteral := cells.findIdx (0 ≤ ·)
    if firstLiteral = cells.length then
      plainLoop cells start data countDuplicates addressCap (List.range candidateCount) r
    else
      literalLoop cells start data countDuplicates addressCap firstLiteral (asByte (cells.getD firstLiteral 0))
        (firstLiteral + candidateCount) candidateCount firstLiteral r

end Range

/-- A mapped segment that can be read and executed. -/
structure Segment where
  base : Nat
  bytes : Bytes

def accumulateScan (total range : Found) : Found :=
  if range.matched = 0 then total
  else
    { address := if total.address = none then range.address else total.address
      matched := total.matched + range.matched
      addresses := range.addresses }

/-- The segments that do not touch the module are passed over. -/
def scanSegment (cells : List Int) (moduleBase moduleSize : Nat) (total : Found) (segment : Segment) : Found :=
  if segment.base + segment.bytes.length < moduleBase ∨ moduleBase + moduleSize < segment.base then total
  else accumulateScan total
    (scanPatternRange cells segment.base segment.bytes true kMaxConvergenceCandidates total.addresses)

def patternScan (pattern : Bytes) (moduleBase moduleSize : Nat) (segments : List Segment) : Found :=
  if patternToBytes pattern = [] then {}
  else segments.foldl (scanSegment (patternToBytes pattern) moduleBase moduleSize) {}

/-- The scan offered the address, alone or among several. -/
def Found.Offers (r : Found) (address : Nat) : Prop := r.address = some address ∨ address ∈ r.addresses

/-- What stands in memory from an address on begins with these bytes. -/
def StandAt (segments : List Segment) (address : Nat) (bytes : Bytes) : Prop :=
  ∃ segment ∈ segments, segment.base ≤ address ∧ bytes <+: segment.bytes.drop (address - segment.base)

private theorem Found.offers_record {r : Found} {P : Nat → Prop} (h : ∀ a, r.Offers a → P a) {address : Nat}
    (hnew : P address) (countDuplicates : Bool) (addressCap : Nat) :
    ∀ a, (r.record address countDuplicates addressCap).Offers a → P a := by
  rintro a (hkept | hlisted)
  · dsimp only [Found.record] at hkept
    split_ifs at hkept
    · cases hkept
      exact hnew
    · exact h a (.inl hkept)
  · dsimp only [Found.record] at hlisted
    split_ifs at hlisted
    · rcases List.mem_append.mp hlisted with hold | hlast
      · exact h a (.inr hold)
      · rw [List.mem_singleton.mp hlast]
        exact hnew
    · exact h a (.inr hlisted)

/-- Only as many bytes as there are cells are looked at. -/
theorem matchesAt_take (cells : List Int) (bytes : Bytes) :
    matchesAt cells (bytes.take cells.length) = matchesAt cells bytes := by
  induction cells generalizing bytes with
  | nil => rfl
  | cons cell cells ih =>
    cases bytes with
    | nil => rfl
    | cons byte bytes =>
      simp only [matchesAt, List.length_cons, List.take_succ_cons, List.zip_cons_cons, List.all_cons] at ih ⊢
      rw [ih]

section Range
variable {cells : List Int} {start : Nat} {data : Bytes} (countDuplicates : Bool) (addressCap : Nat)
variable {P : Nat → Prop}

/-- Every place inside the range where the pattern fits has the property. -/
def AllFits (P : Nat → Prop) (cells : List Int) (start : Nat) (data : Bytes) : Prop :=
  ∀ offset, offset + cells.length ≤ data.length → matchesAt cells (data.drop offset) = true → P (start + offset)

private theorem offers_tryCandidate (hfits : AllFits P cells start data) {r : Found} (h : ∀ a, r.Offers a → P a)
    {offset : Nat} (hinside : offset + cells.length ≤ data.length) :
    ∀ a, (tryCandidate cells start data countDuplicates addressCap offset r).1.Offers a → P a := by
  rw [tryCandidate]
  split_ifs with hmatch
  · exact Found.offers_record h (hfits offset hinside hmatch) countDuplicates addressCap
  · exact h

private theorem offers_plainLoop (hfits : AllFits P cells start data) {offsets : List Nat}
    (hinside : ∀ offset ∈ offsets, offset + cells.length ≤ data.length) {r : Found}
    (h : ∀ a, r.Offers a → P a) :
    ∀ a, (plainLoop cells start data countDuplicates addressCap offsets r).Offers a → P a := by
  induction offsets generalizing r with
  | nil => exact h
  | cons offset rest ih =>
    obtain ⟨hhere, hrest⟩ := List.forall_mem_cons.mp hinside
    have htried := offers_tryCandidate countDuplicates addressCap hfits h hhere
    rw [plainLoop]
    dsimp only
    split_ifs
    · exact ih hrest htried
    · exact htried

private theorem offers_literalLoop (hfits : AllFits P cells start data) {firstLiteral : Nat} {needle : UInt8}
    {literalEnd : Nat} (hend : literalEnd + cells.length ≤ firstLiteral + data.length + 1) (fuel : Nat)
    {search : Nat} (hsearch : firstLiteral ≤ search) {r : Found} (h : ∀ a, r.Offers a → P a) :
    ∀ a, (literalLoop cells start data countDuplicates addressCap firstLiteral needle literalEnd fuel search r).Offers a →
      P a := by
  induction fuel generalizing search r with
  | zero => exact h
  | succ fuel ih =>
    rw [literalLoop]
    cases hliteral : memchr data needle search (literalEnd - search) with
    | none => exact h
    | some literal =>
      obtain ⟨hlow, hhigh, -⟩ := memchr_eq_some hliteral
      have hhere : literal - firstLiteral + cells.length ≤ data.length := by omega
      have htried := offers_tryCandidate countDuplicates addressCap hfits h hhere
      dsimp only
      split_ifs
      · exact ih (by omega) htried
      · exact htried

/-- The scan of a range offers places where the pattern fits. -/
theorem offers_scanPatternRange (hfits : AllFits P cells start data) {addresses : List Nat}
    (h : ∀ a ∈ addresses, P a) :
    ∀ a, (scanPatternRange cells start data countDuplicates addressCap addresses).Offers a → P a := by
  have hbefore : ∀ a, ({ addresses } : Found).Offers a → P a := by
    rintro a (hkept | hlisted)
    · cases hkept
    · exact h a hlisted
  unfold scanPatternRange
  dsimp only
  split_ifs with hsmall hplain
  · exact hbefore
  · apply offers_plainLoop countDuplicates addressCap hfits ?_ hbefore
    intro offset hoffset
    rw [List.mem_range] at hoffset
    omega
  · apply offers_literalLoop countDuplicates addressCap hfits ?_ _ le_rfl hbefore
    omega

end Range

private theorem offers_accumulateScan {P : Nat → Prop} {total range : Found} (htotal : ∀ a, total.Offers a → P a)
    (hrange : ∀ a, range.Offers a → P a) : ∀ a, (accumulateScan total range).Offers a → P a := by
  by_cases hnone : range.matched = 0
  · rw [accumulateScan, if_pos hnone]
    exact htotal
  · rw [accumulateScan, if_neg hnone]
    rintro a (hkept | hlisted)
    · dsimp only at hkept
      split_ifs at hkept
      · exact hrange a (.inl hkept)
      · exact htotal a (.inl hkept)
    · exact hrange a (.inr hlisted)

/-- What the scan offers stands in a segment and fits the pattern there. -/
theorem offers_patternScan {pattern : Bytes} {moduleBase moduleSize : Nat} {segments : List Segment} {address : Nat}
    (h : (patternScan pattern moduleBase moduleSize segments).Offers address) :
    ∃ bytes, StandAt segments address bytes ∧ bytes.length = (patternToBytes pattern).length ∧
      matchesAt (patternToBytes pattern) bytes = true := by
  have hnone : ∀ a, ¬({} : Found).Offers a := by
    rintro a (hkept | hlisted)
    · cases hkept
    · cases hlisted
  rw [patternScan] at h
  split_ifs at h with hempty
  · exact absurd h (hnone address)
  · generalize patternToBytes pattern = cells at h
    let P := fun a => ∃ bytes, StandAt segments a bytes ∧ bytes.length = cells.length ∧ matchesAt cells bytes = true
    suffices hfold : ∀ rest : List Segment, rest ⊆ segments → ∀ total : Found, (∀ a, total.Offers a → P a) →
        ∀ a, (rest.foldl (scanSegment cells moduleBase moduleSize) total).Offers a → P a from
      hfold segments (List.Subset.refl _) {} (fun a ha => absurd ha (hnone a)) address h
    intro rest
    induction rest with
    | nil => exact fun _ _ htotal => htotal
    | cons segment rest ih =>
      intro hsubset total htotal
      obtain ⟨hsegment, hrest⟩ := List.cons_subset.mp hsubset
      apply ih hrest
      rw [scanSegment]
      split_ifs
      · exact htotal
      · apply offers_accumulateScan htotal
        apply offers_scanPatternRange
        · intro offset hinside hmatch
          refine ⟨(segment.bytes.drop offset).take cells.length, ⟨segment, hsegment, Nat.le_add_right _ _, ?_⟩, ?_, ?_⟩
          · rw [Nat.add_sub_cancel_left]
            exact List.take_prefix _ _
          · rw [List.length_take, List.length_drop]
            omega
          · rw [matchesAt_take]
            exact hmatch
        · exact fun a ha => htotal a (.inr ha)

/-- The readers agree: the scan has the cells of the cache, in their number, and what it offers passes
the cache's check. -/
def Agree (signature : Bytes) (cells : List Int) : Prop :=
  patternToBytes signature = cells ∧
  signatureSize signature = some (patternToBytes signature).length ∧
  ∀ moduleBase moduleSize segments address, (patternScan signature moduleBase moduleSize segments).Offers address →
    ∃ bytes, StandAt segments address bytes ∧ signatureMatches signature bytes = true

private theorem cells_eq_iff (tokens : List Token) :
    tokens.flatMap Token.cells = tokens.map Token.cell ↔ .anyTwice ∉ tokens := by
  have hlonger : ∀ tokens : List Token, tokens.length ≤ (tokens.flatMap Token.cells).length := by
    intro tokens
    induction tokens with
    | nil => exact le_rfl
    | cons t tokens ih =>
      rw [List.flatMap_cons, List.length_append, List.length_cons]
      cases t <;> simp only [Token.cells, List.length_cons, List.length_nil] <;> omega
  induction tokens with
  | nil => simp
  | cons t tokens ih =>
    rw [List.flatMap_cons, List.map_cons, List.mem_cons, not_or]
    cases t with
    | any => simpa [Token.cells, Token.cell] using ih
    | byte high low => simpa [Token.cells, Token.cell] using ih
    | anyTwice =>
      constructor
      · intro heq
        have hlength := congrArg List.length heq
        simp only [Token.cells, List.length_append, List.length_cons, List.length_nil, List.length_map] at hlength
        have hrest := hlonger tokens
        omega
      · rintro ⟨hne, -⟩
        exact absurd rfl hne

/-- A signature that the cache accepts is one that the catalog accepts, and the readers agree on it when
the wildcard is not written twice anywhere. -/
theorem readers_agree_iff (signature : Bytes) (cells : List Int) (hcache : parseSignature signature = some cells) :
    isSignature signature = true ∧ (Agree signature cells ↔ [question, question] ∉ signature.splitOn space) := by
  obtain ⟨tokens, rfl, hfixed, -, rfl⟩ := parseSignature_eq_some_iff.mp hcache
  refine ⟨isSignature_iff.mpr ⟨tokens, rfl, hfixed⟩, ?_⟩
  have hne : tokens ≠ [] := by
    rintro rfl
    cases hfixed
  have htwice : [question, question] ∈ (signatureOf tokens).splitOn space ↔ .anyTwice ∈ tokens := by
    rw [splitOn_signatureOf hne, List.mem_map]
    constructor
    · rintro ⟨t, ht, htext⟩
      obtain rfl : t = .anyTwice := text_injective htext
      exact ht
    · intro h
      exact ⟨.anyTwice, h, rfl⟩
  rw [htwice, ← cells_eq_iff, ← patternToBytes_signatureOf]
  constructor
  · rintro ⟨hcells, -⟩
    exact hcells
  · intro hcells
    refine ⟨hcells, by rw [signatureSize, hcache, hcells]; rfl, ?_⟩
    intro moduleBase moduleSize segments address hoffer
    obtain ⟨bytes, hstand, hlength, hmatch⟩ := offers_patternScan hoffer
    rw [hcells] at hlength hmatch
    refine ⟨bytes, hstand, ?_⟩
    rw [signatureMatches, hcache]
    dsimp only
    rw [hlength, decide_eq_true rfl, Bool.true_and]
    exact hmatch

/-- The bytes `8B ? 01`. -/
theorem readers_agree_single : Agree [0x38, 0x42, space, question, space, 0x30, 0x31] [0x8b, -1, 1] :=
  (readers_agree_iff _ _ (by decide)).2.mpr (by decide)

/-- `?? 01` has two cells for the cache and three for the scan, which offers a place where the cache's
check then fails. -/
theorem readers_disagree_on_doubled_wildcard :
    isSignature [question, question, space, 0x30, 0x31] = true ∧
    parseSignature [question, question, space, 0x30, 0x31] = some [-1, 1] ∧
    patternToBytes [question, question, space, 0x30, 0x31] = [-1, -1, 1] ∧
    (patternScan [question, question, space, 0x30, 0x31] 0x1000 3 [⟨0x1000, [0xaa, 0xbb, 1]⟩]).address = some 0x1000 ∧
    signatureMatches [question, question, space, 0x30, 0x31] [0xaa, 0xbb] = false ∧
    ¬Agree [question, question, space, 0x30, 0x31] [-1, 1] :=
  ⟨by decide, by decide, by decide, by decide, by decide, fun h => absurd h.1 (by decide)⟩

end SlsteamMoon.Signatures
