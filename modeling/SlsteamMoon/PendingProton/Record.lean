import Mathlib.Data.Finset.Sort
import SlsteamMoon.DlcIds.ManifestName
import SlsteamMoon.ProvisionCache.MetadataText

/-! The file of the pending Proton mappings: one app id a token, and no part of it is taken where one token is malformed. -/
namespace SlsteamMoon.PendingProton
open KeyValues ProvisionCache DlcIds

/-- The runs between white space; `word` is the part of a run that is behind. -/
def tokensFrom (word : Bytes) : Bytes → List Bytes
  | [] => if word = [] then [] else [word]
  | c :: cs =>
    if isSpace c then if word = [] then tokensFrom [] cs else word :: tokensFrom [] cs
    else tokensFrom (word ++ [c]) cs

def tokens (text : Bytes) : List Bytes := tokensFrom [] text

def parseToken (token : Bytes) : Option UInt32 := (wholeNumber 0x100000000 token).map UInt32.ofNat

/-- The ids of a valid text. -/
def parsePendingProtonText (text : Bytes) : Option (Finset UInt32) :=
  (tokens text).foldlM (fun ids token => (parseToken token).map fun id => insert id ids) ∅

inductive PendingProtonFile
  | missing
  | invalid
  | valid (ids : Finset UInt32)
  deriving DecidableEq

/-- One token taken out of the stream. -/
def takeToken (ids : Finset UInt32) (token : Bytes) : Option (Finset UInt32) :=
  match parsePendingProtonText token with
  | none => none
  | some parsed => if parsed.card ≠ 1 then none else some (ids ∪ parsed)

/-- `readable` is whether the calls on the file told what is there. -/
def readPendingProtonFileLocked (readable : Bool) (file : Option Bytes) : PendingProtonFile :=
  if !readable then .invalid
  else
    match file with
    | none => .missing
    | some text =>
      match (tokens text).foldlM takeToken ∅ with
      | none => .invalid
      | some ids => .valid ids

/-- The text of a record, an id a line. -/
def content (pending : Finset UInt32) : Bytes :=
  pending.sort.flatMap fun appId => toDecimal appId.toNat ++ [newline]

/-- An empty record is a file that is not there; `done` is the answer of the write or of the removal. -/
def save (pending : Finset UInt32) (file : Option Bytes) (done : Bool) : Option Bytes :=
  if !done then file else if pending = ∅ then none else some (content pending)

/-- What the calls of one locked section answer. -/
structure Answers where
  lockAcquired : Bool
  readable : Bool
  written : Bool

/-- The file afterwards, and whether the removals are on it. -/
def persistPendingProtonMappings (needProton removals managed : Finset UInt32) (a : Answers) (file : Option Bytes) :
    Option Bytes × Bool :=
  if needProton = ∅ ∧ removals = ∅ ∨ a.lockAcquired = false then (file, false)
  else
    let pending (existing : Finset UInt32) := (existing ∩ managed ∪ needProton ∩ managed) \ removals
    match readPendingProtonFileLocked a.readable file with
    | .invalid => (file, false)
    | .missing => (save (pending ∅) file a.written, a.written)
    | .valid ids => (save (pending ids) file a.written, a.written)

def removePendingProtonMappingLocked (appId : UInt32) (a : Answers) (file : Option Bytes) : Option Bytes × Bool :=
  match readPendingProtonFileLocked a.readable file with
  | .missing => (file, true)
  | .invalid => (file, false)
  | .valid ids => if appId ∉ ids then (file, true) else (save (ids.erase appId) file a.written, a.written)

def clearPendingProtonMappingsIfUnchanged (expectedFileIds : Finset UInt32) (a : Answers) (file : Option Bytes) :
    Option Bytes :=
  if !a.lockAcquired then file
  else
    match readPendingProtonFileLocked a.readable file with
    | .valid ids => if ids ≠ expectedFileIds then file else save ∅ file a.written
    | _ => file

section
variable {word text rest : Bytes} {token : Bytes} {ids : Finset UInt32}

private theorem tokensFrom_word (h : ∀ c ∈ text, isSpace c = false) (word rest : Bytes) :
    tokensFrom word (text ++ rest) = tokensFrom (word ++ text) rest := by
  induction text generalizing word with
  | nil => rw [List.nil_append, List.append_nil]
  | cons c cs ih =>
    obtain ⟨hc, hcs⟩ := List.forall_mem_cons.mp h
    rw [List.cons_append, tokensFrom, if_neg (by rw [hc]; exact Bool.false_ne_true), ih hcs, List.append_assoc,
      List.singleton_append]

private theorem tokensFrom_line (h : ∀ c ∈ text, isSpace c = false) (hne : text ≠ []) (rest : Bytes) :
    tokensFrom [] (text ++ newline :: rest) = text :: tokensFrom [] rest := by
  rw [tokensFrom_word h, List.nil_append, tokensFrom, if_pos (by decide), if_neg hne]

/-- What is taken for a token has no white space in it and is its own only token. -/
theorem of_mem_tokensFrom (hword : ∀ c ∈ word, isSpace c = false) (h : token ∈ tokensFrom word text) :
    token ≠ [] ∧ ∀ c ∈ token, isSpace c = false := by
  induction text generalizing word with
  | nil =>
    rw [tokensFrom] at h
    split_ifs at h with hnil
    · cases h
    · obtain rfl := List.mem_singleton.mp h
      exact ⟨hnil, hword⟩
  | cons c cs ih =>
    rw [tokensFrom] at h
    have hnone : ∀ c ∈ ([] : Bytes), isSpace c = false := fun _ hc => absurd hc List.not_mem_nil
    split_ifs at h with hspace hnil
    · exact ih hnone h
    · rcases List.mem_cons.mp h with rfl | h
      · exact ⟨hnil, hword⟩
      · exact ih hnone h
    · refine ih (fun d hd => ?_) h
      rcases List.mem_append.mp hd with hd | hd
      · exact hword d hd
      · obtain rfl := List.mem_singleton.mp hd
        exact eq_false_of_ne_true hspace

private theorem tokens_token (h : token ∈ tokens text) : tokens token = [token] := by
  obtain ⟨hne, hfree⟩ := of_mem_tokensFrom (fun _ hc => absurd hc List.not_mem_nil) h
  have hword := tokensFrom_word hfree [] []
  rw [List.append_nil, List.nil_append, tokensFrom, if_neg hne] at hword
  exact hword

private theorem takeToken_eq (h : token ∈ tokens text) :
    takeToken ids token = (parseToken token).map fun id => insert id ids := by
  rw [takeToken, parsePendingProtonText, tokens_token h]
  cases hparsed : parseToken token with
  | none => simp [hparsed]
  | some id =>
    simp only [List.foldlM_cons, hparsed, Option.map_some, List.foldlM_nil, Option.pure_def, Option.bind_eq_bind,
      Option.bind_some, insert_empty_eq, Finset.card_singleton, ne_eq, not_true_eq_false, if_false, Option.some.injEq]
    rw [Finset.union_comm, ← Finset.insert_eq]

/-- Token by token, the stream gives what the parser gives for the whole text. -/
theorem readPendingProtonFileLocked_some (text : Bytes) :
    readPendingProtonFileLocked true (some text) =
      match parsePendingProtonText text with
      | none => .invalid
      | some ids => .valid ids := by
  have hfold : ∀ (rest : List Bytes) (ids : Finset UInt32), (∀ token ∈ rest, token ∈ tokens text) →
      rest.foldlM takeToken ids =
        rest.foldlM (fun ids token => (parseToken token).map fun id => insert id ids) ids := by
    intro rest
    induction rest with
    | nil => exact fun _ _ => rfl
    | cons token rest ih =>
      intro ids h
      obtain ⟨htoken, hrest⟩ := List.forall_mem_cons.mp h
      rw [List.foldlM_cons, List.foldlM_cons, takeToken_eq htoken]
      cases (parseToken token).map fun id => insert id ids with
      | none => rfl
      | some ids => exact ih ids hrest
  rw [readPendingProtonFileLocked, hfold _ _ fun _ h => h]
  rfl

private theorem parseToken_ne_zero {id : UInt32} (h : parseToken token = some id) : id ≠ 0 := by
  obtain ⟨n, hn, rfl⟩ := Option.map_eq_some_iff.mp h
  obtain ⟨-, hlt, hne⟩ := (wholeNumber_eq_some (by decide)).mp hn
  intro hzero
  have hnumber := congrArg UInt32.toNat hzero
  rw [UInt32.toNat_ofNat', Nat.mod_eq_of_lt hlt] at hnumber
  exact hne hnumber

/-- No file lists the id zero. -/
theorem zero_notMem_parsePendingProtonText (h : parsePendingProtonText text = some ids) : 0 ∉ ids := by
  have hfold : ∀ (rest : List Bytes) (start : Finset UInt32), 0 ∉ start →
      rest.foldlM (fun ids token => (parseToken token).map fun id => insert id ids) start = some ids → 0 ∉ ids := by
    intro rest
    induction rest with
    | nil =>
      intro start hstart h
      cases h
      exact hstart
    | cons token rest ih =>
      intro start hstart h
      rw [List.foldlM_cons] at h
      obtain ⟨next, hnext, h⟩ := Option.bind_eq_some_iff.mp h
      obtain ⟨id, hid, rfl⟩ := Option.map_eq_some_iff.mp hnext
      refine ih _ (fun hin => ?_) h
      exact (Finset.mem_insert.mp hin).elim (fun hzero => parseToken_ne_zero hid hzero.symm) hstart
  exact hfold _ ∅ (Finset.notMem_empty 0) h

private theorem parseToken_toDecimal {appId : UInt32} (h : appId ≠ 0) :
    parseToken (toDecimal appId.toNat) = some appId := by
  have hnumber : wholeNumber 0x100000000 (toDecimal appId.toNat) = some appId.toNat :=
    (wholeNumber_eq_some (by decide)).mpr
      ⟨PersistedBuffer.parseUnsigned_toDecimal (Nat.lt_trans appId.toNat_lt (by decide)), appId.toNat_lt,
        fun hzero => h (UInt32.toNat_inj.mp hzero)⟩
  rw [parseToken, hnumber, Option.map_some, UInt32.ofNat_toNat]

private theorem tokens_lines (pending : List UInt32) :
    tokens (pending.flatMap fun appId => toDecimal appId.toNat ++ [newline]) =
      pending.map fun appId => toDecimal appId.toNat := by
  induction pending with
  | nil => rfl
  | cons appId pending ih =>
    have hdigits : ∀ c ∈ toDecimal appId.toNat, isSpace c = false := fun c hc =>
      (digit_front (List.all_eq_true.mp (toDecimal_all_isDigit appId.toNat) c hc)).1
    rw [List.flatMap_cons, List.append_assoc, List.singleton_append, tokens,
      tokensFrom_line hdigits (toDecimal_ne_nil _), ← tokens, ih, List.map_cons]

/-- A record is read back from the text that is written for it. -/
theorem parsePendingProtonText_content (h : 0 ∉ ids) : parsePendingProtonText (content ids) = some ids := by
  have hfold : ∀ (pending : List UInt32) (start : Finset UInt32), 0 ∉ pending →
      (pending.map fun appId => toDecimal appId.toNat).foldlM
        (fun ids token => (parseToken token).map fun id => insert id ids) start = some (pending.toFinset ∪ start) := by
    intro pending
    induction pending with
    | nil => exact fun start _ => by rw [List.toFinset_nil, Finset.empty_union]; rfl
    | cons appId pending ih =>
      intro start hzero
      have hne : appId ≠ 0 := fun h => hzero (List.mem_cons.mpr (.inl h.symm))
      have hrest : 0 ∉ pending := fun h => hzero (List.mem_cons_of_mem _ h)
      rw [List.map_cons, List.foldlM_cons, parseToken_toDecimal hne, Option.map_some]
      exact (ih (insert appId start) hrest).trans (by rw [List.toFinset_cons, Finset.union_insert, Finset.insert_union])
  rw [parsePendingProtonText, content, tokens_lines, hfold _ _ (by rwa [Finset.mem_sort]), Finset.sort_toFinset,
    Finset.union_empty]

end

/-- The ids that a file lists. -/
def listed (file : Option Bytes) : Finset UInt32 := (file.bind parsePendingProtonText).getD ∅

section
variable {pending ids : Finset UInt32} {file : Option Bytes} {readable done : Bool}

/-- What a read finds in a file, whether or not it succeeds. -/
inductive Reads (file : Option Bytes) : PendingProtonFile → Prop
  | missing (hlisted : listed file = ∅) : Reads file .missing
  | invalid : Reads file .invalid
  | valid : Reads file (.valid (listed file))

theorem reads (readable : Bool) (file : Option Bytes) : Reads file (readPendingProtonFileLocked readable file) := by
  cases readable with
  | false => exact .invalid
  | true =>
    cases file with
    | none => exact .missing rfl
    | some text =>
      have hlisted : listed (some text) = (parsePendingProtonText text).getD ∅ := rfl
      rw [readPendingProtonFileLocked_some]
      cases hparsed : parsePendingProtonText text with
      | none => exact .invalid
      | some ids =>
        rw [hparsed, Option.getD_some] at hlisted
        exact hlisted ▸ .valid

private theorem listed_save (h : 0 ∉ pending) :
    listed (save pending file done) = if done then pending else listed file := by
  cases done with
  | false => rfl
  | true =>
    simp only [save, Bool.not_true, Bool.false_eq_true, if_false, if_true]
    split_ifs with hempty
    · exact hempty ▸ rfl
    · rw [listed, Option.bind_some, parsePendingProtonText_content h, Option.getD_some]

theorem zero_notMem_listed (file : Option Bytes) : 0 ∉ listed file := by
  cases file with
  | none => exact Finset.notMem_empty 0
  | some text =>
    rw [listed, Option.bind_some]
    cases hparsed : parsePendingProtonText text with
    | none => exact Finset.notMem_empty 0
    | some ids => exact zero_notMem_parsePendingProtonText hparsed

/-- What the file lists behind a persist: what it did, or the managed ids of the file and of memory without the removals. -/
theorem listed_persist {need removals managed : Finset UInt32} (h : 0 ∉ managed) (a : Answers) (file : Option Bytes) :
    listed (persistPendingProtonMappings need removals managed a file).1 = listed file ∨
      listed (persistPendingProtonMappings need removals managed a file).1 =
        (listed file ∩ managed ∪ need ∩ managed) \ removals := by
  have hzero : 0 ∉ (listed file ∩ managed ∪ need ∩ managed) \ removals := fun hin =>
    (Finset.mem_union.mp (Finset.mem_sdiff.mp hin).1).elim (fun h' => h (Finset.mem_inter.mp h').2) fun h' =>
      h (Finset.mem_inter.mp h').2
  unfold persistPendingProtonMappings
  split
  · exact .inl rfl
  have hreads := reads a.readable file
  dsimp only
  revert hreads
  cases readPendingProtonFileLocked a.readable file with
  | invalid => exact fun _ => .inl rfl
  | missing =>
    intro hreads
    cases hreads with
    | missing hlisted =>
      rw [← hlisted, listed_save hzero]
      cases a.written with
      | false => exact .inl rfl
      | true => exact .inr rfl
  | valid ids =>
    intro hreads
    cases hreads
    rw [listed_save hzero]
    cases a.written with
    | false => exact .inl rfl
    | true => exact .inr rfl

/-- A removal takes no other id, and where it reports success the id is out. -/
theorem listed_remove (appId : UInt32) (a : Answers) (file : Option Bytes) :
    (listed (removePendingProtonMappingLocked appId a file).1 = listed file ∨
      listed (removePendingProtonMappingLocked appId a file).1 = (listed file).erase appId) ∧
      ((removePendingProtonMappingLocked appId a file).2 = true →
        appId ∉ listed (removePendingProtonMappingLocked appId a file).1) := by
  have hzero : 0 ∉ (listed file).erase appId := fun hin => zero_notMem_listed file (Finset.mem_of_mem_erase hin)
  unfold removePendingProtonMappingLocked
  have hreads := reads a.readable file
  revert hreads
  cases readPendingProtonFileLocked a.readable file with
  | invalid => exact fun _ => ⟨.inl rfl, fun h => absurd h Bool.false_ne_true⟩
  | missing =>
    intro hreads
    cases hreads with
    | missing hlisted => exact ⟨.inl rfl, fun _ => hlisted ▸ Finset.notMem_empty appId⟩
  | valid ids =>
    intro hreads
    cases hreads
    dsimp only
    split
    · next hout => exact ⟨.inl rfl, fun _ => hout⟩
    · dsimp only
      rw [listed_save hzero]
      cases a.written with
      | false => exact ⟨.inl rfl, fun h => absurd h Bool.false_ne_true⟩
      | true => exact ⟨.inr rfl, fun _ => Finset.notMem_erase appId _⟩

/-- A clearing takes out what was expected to be there, and nothing else. -/
theorem listed_clear (expected : Finset UInt32) (a : Answers) (file : Option Bytes) :
    listed (clearPendingProtonMappingsIfUnchanged expected a file) = listed file ∨
      listed file = expected ∧ listed (clearPendingProtonMappingsIfUnchanged expected a file) = ∅ := by
  unfold clearPendingProtonMappingsIfUnchanged
  split
  · exact .inl rfl
  have hreads := reads a.readable file
  revert hreads
  cases readPendingProtonFileLocked a.readable file with
  | invalid => exact fun _ => .inl rfl
  | missing => exact fun _ => .inl rfl
  | valid ids =>
    intro hreads
    cases hreads
    dsimp only
    split
    · exact .inl rfl
    · next hsame =>
      rw [listed_save (Finset.notMem_empty 0)]
      cases a.written with
      | false => exact .inl rfl
      | true => exact .inr ⟨not_not.mp hsame, rfl⟩

end
end SlsteamMoon.PendingProton
