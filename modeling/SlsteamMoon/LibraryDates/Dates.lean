import SlsteamMoon.DepotQuarantine.Store
import SlsteamMoon.History

/-! Inclusion dates by app and the text they are kept in: a header and a line for each app. -/
namespace SlsteamMoon.LibraryDates
open KeyValues
open ProvisionCache (isDigit isSpace numberOf decimalValue toDecimal toDecimal_all_isDigit toDecimal_ne_nil
  numberOf_toDecimal digit_front textLines utf8)

abbrev AppId := UInt32

/-- A `std::map`: the entries by rising key. -/
structure Dates where
  entries : List (AppId × UInt32)
  sorted : entries.Pairwise fun a b => a.1 < b.1
  deriving DecidableEq

def insertEntry (id : AppId) (date : UInt32) : List (AppId × UInt32) → List (AppId × UInt32)
  | [] => [(id, date)]
  | (k, v) :: rest =>
    if id < k then (id, date) :: (k, v) :: rest
    else if id = k then (k, v) :: rest
    else (k, v) :: insertEntry id date rest

theorem mem_insertEntry {id : AppId} {date : UInt32} {entries : List (AppId × UInt32)} {e : AppId × UInt32}
    (h : e ∈ insertEntry id date entries) : e = (id, date) ∨ e ∈ entries := by
  induction entries with
  | nil => exact .inl (List.mem_singleton.mp h)
  | cons first rest ih =>
    obtain ⟨k, v⟩ := first
    rw [insertEntry] at h
    split_ifs at h
    · exact List.mem_cons.mp h
    · exact .inr h
    · rcases List.mem_cons.mp h with rfl | hrest
      · exact .inr List.mem_cons_self
      · exact (ih hrest).imp_right (List.mem_cons_of_mem _)

private theorem sorted_insertEntry (id : AppId) (date : UInt32) {entries : List (AppId × UInt32)}
    (h : entries.Pairwise fun a b => a.1 < b.1) :
    (insertEntry id date entries).Pairwise fun a b => a.1 < b.1 := by
  induction entries with
  | nil => exact List.pairwise_singleton _ _
  | cons first rest ih =>
    obtain ⟨k, v⟩ := first
    obtain ⟨hfirst, hrest⟩ := List.pairwise_cons.mp h
    rw [insertEntry]
    split_ifs with hlt heq
    · refine List.pairwise_cons.mpr ⟨fun e he => ?_, h⟩
      rcases List.mem_cons.mp he with rfl | he
      · exact hlt
      · exact UInt32.lt_trans hlt (hfirst e he)
    · exact h
    · refine List.pairwise_cons.mpr ⟨fun e he => ?_, ih hrest⟩
      rcases mem_insertEntry he with rfl | he
      · exact UInt32.lt_of_le_of_ne (UInt32.not_lt.mp hlt) (Ne.symm heq)
      · exact hfirst e he

namespace Dates

def empty : Dates := ⟨[], List.Pairwise.nil⟩

def find (d : Dates) (id : AppId) : Option UInt32 := d.entries.lookup id

/-- A key that is there keeps its date. -/
def emplace (d : Dates) (id : AppId) (date : UInt32) : Dates :=
  ⟨insertEntry id date d.entries, sorted_insertEntry id date d.sorted⟩

@[simp] theorem find_empty (id : AppId) : empty.find id = none := rfl

private theorem lookup_eq_none_of_lt {id : AppId} {entries : List (AppId × UInt32)} (h : ∀ e ∈ entries, id < e.1) :
    entries.lookup id = none := by
  rw [List.lookup_eq_none_iff]
  intro e he
  have hne : id ≠ e.1 := fun heq => UInt32.lt_irrefl _ (heq ▸ h e he)
  simpa using hne

private theorem lookup_cons_eq (id k : AppId) (v : UInt32) (rest : List (AppId × UInt32)) :
    List.lookup id ((k, v) :: rest) = if id = k then some v else rest.lookup id := by
  rw [List.lookup_cons]
  by_cases h : id = k
  · simp [h]
  · have hbeq : (id == k) = false := by simpa using h
    simp only [hbeq, if_neg h]

theorem find_emplace (d : Dates) (id : AppId) (date : UInt32) (other : AppId) :
    (d.emplace id date).find other = if other = id then some ((d.find id).getD date) else d.find other := by
  obtain ⟨entries, hsorted⟩ := d
  dsimp only [find, emplace]
  induction entries with
  | nil => rw [insertEntry, lookup_cons_eq, List.lookup_nil, List.lookup_nil, Option.getD_none]
  | cons first rest ih =>
    obtain ⟨k, v⟩ := first
    obtain ⟨hfirst, hrest⟩ := List.pairwise_cons.mp hsorted
    rw [insertEntry]
    by_cases hlt : id < k
    · have hnone : List.lookup id ((k, v) :: rest) = none := by
        apply lookup_eq_none_of_lt
        intro e he
        rcases List.mem_cons.mp he with rfl | he
        · exact hlt
        · exact UInt32.lt_trans hlt (hfirst e he)
      rw [if_pos hlt, hnone, lookup_cons_eq other id, Option.getD_none]
    · by_cases heq : id = k
      · rw [if_neg hlt, if_pos heq]
        subst heq
        by_cases hother : other = id
        · rw [if_pos hother, hother, lookup_cons_eq, if_pos rfl, Option.getD_some]
        · rw [if_neg hother]
      · rw [if_neg hlt, if_neg heq, lookup_cons_eq, ih hrest, lookup_cons_eq id, if_neg heq, lookup_cons_eq other]
        by_cases hother : other = id
        · have hne : ¬other = k := fun h => heq (hother.symm.trans h)
          rw [if_neg hne, if_pos hother, if_pos hother]
        · rw [if_neg hother, if_neg hother]

/-- Neither an app id nor a date of zero is kept. -/
def Nonzero (d : Dates) : Prop := ∀ e ∈ d.entries, e.1 ≠ 0 ∧ e.2 ≠ 0

end Dates

/-! The file. -/

def parseNumber (text : Bytes) : Option UInt32 :=
  let value := numberOf 10 decimalValue text
  if text ≠ [] ∧ text.all isDigit ∧ value < 0x100000000 ∧ value ≠ 0 then some (UInt32.ofNat value) else none

/-- The words `>>` takes from a row. -/
def rowWords (line : Bytes) : List Bytes := (line.splitOnP isSpace).filter (· ≠ [])

def parseRow (dates : Dates) (line : Bytes) : Option Dates :=
  match rowWords line with
  | [idText, dateText] =>
    match parseNumber idText, parseNumber dateText with
    | some id, some date => if (dates.find id).isSome then none else some (dates.emplace id date)
    | _, _ => none
  | _ => none

def header : Bytes := utf8 "library-added-times-v1"

def maxFileSize : Nat := 8 * 1024 * 1024

def parseRows (dates : Dates) (lines : List Bytes) : Option Dates :=
  lines.foldlM (fun dates line => if line = [] then some dates else parseRow dates line) dates

def parseDates (text : Bytes) : Except String Dates :=
  match textLines text with
  | first :: rows =>
    if first = header then
      match parseRows .empty rows with
      | some dates => .ok dates
      | none => .error "invalid date file record"
    else .error "unrecognized date file format"
  | [] => .error "unrecognized date file format"

def row (e : AppId × UInt32) : Bytes := toDecimal e.1.toNat ++ 0x20 :: toDecimal e.2.toNat

def render (dates : Dates) : Bytes := header ++ newline :: dates.entries.flatMap fun e => row e ++ [newline]

private theorem parseNumber_toDecimal {n : UInt32} (h : n ≠ 0) : parseNumber (toDecimal n.toNat) = some n := by
  have hne : n.toNat ≠ 0 := fun hzero => h (UInt32.toNat_inj.mp hzero)
  rw [parseNumber, numberOf_toDecimal, if_pos ⟨toDecimal_ne_nil _, toDecimal_all_isDigit _, n.toNat_lt, hne⟩,
    UInt32.ofNat_toNat]

private theorem rowWords_row (e : AppId × UInt32) : rowWords (row e) = [toDecimal e.1.toNat, toDecimal e.2.toNat] := by
  have hfree : ∀ n : Nat, ∀ c ∈ toDecimal n, isSpace c = false := fun n c hc =>
    (digit_front (List.all_eq_true.mp (toDecimal_all_isDigit n) c hc)).1
  rw [rowWords, row, List.splitOnP_append_cons_of_forall_mem (hfree _) _ rfl, List.splitOnP_eq_singleton (hfree _)]
  simp [toDecimal_ne_nil]

private theorem parseRow_row {dates : Dates} {e : AppId × UInt32} (he : e.1 ≠ 0 ∧ e.2 ≠ 0)
    (hnew : dates.find e.1 = none) : parseRow dates (row e) = some (dates.emplace e.1 e.2) := by
  simp [parseRow, rowWords_row, parseNumber_toDecimal he.1, parseNumber_toDecimal he.2, hnew]

/-- A larger key goes to the end. -/
theorem insertEntry_append {id : AppId} {date : UInt32} {entries : List (AppId × UInt32)}
    (h : ∀ e ∈ entries, e.1 < id) : insertEntry id date entries = entries ++ [(id, date)] := by
  induction entries with
  | nil => rfl
  | cons first rest ih =>
    obtain ⟨k, v⟩ := first
    obtain ⟨hfirst, hrest⟩ := List.forall_mem_cons.mp h
    have hlt : ¬id < k := UInt32.not_lt.mpr (UInt32.le_of_lt hfirst)
    have hne : id ≠ k := fun heq => UInt32.lt_irrefl _ (heq ▸ hfirst)
    rw [insertEntry, if_neg hlt, if_neg hne, ih hrest, List.cons_append]

private theorem row_ne_nil (e : AppId × UInt32) : row e ≠ [] :=
  List.append_ne_nil_of_right_ne_nil _ (List.cons_ne_nil _ _)

/-- The rows of the entries behind the ones that were read. -/
theorem parseRows_rows {seen rest : List (AppId × UInt32)} (hseen : seen.Pairwise fun a b => a.1 < b.1)
    (hsorted : (seen ++ rest).Pairwise fun a b => a.1 < b.1) (hrest : ∀ e ∈ rest, e.1 ≠ 0 ∧ e.2 ≠ 0) :
    parseRows ⟨seen, hseen⟩ (rest.map row) = some ⟨seen ++ rest, hsorted⟩ := by
  induction rest generalizing seen with
  | nil => simp [parseRows]
  | cons e rest ih =>
    obtain ⟨he, hrest⟩ := List.forall_mem_cons.mp hrest
    have hbefore : ∀ a ∈ seen, a.1 < e.1 := fun a ha =>
      (List.pairwise_append.mp hsorted).2.2 a ha e List.mem_cons_self
    have hnew : (⟨seen, hseen⟩ : Dates).find e.1 = none := by
      rw [Dates.find, List.lookup_eq_none_iff]
      intro a ha
      have hne : e.1 ≠ a.1 := fun heq => UInt32.lt_irrefl _ (heq ▸ hbefore a ha)
      simpa using hne
    have hemplace : (⟨seen, hseen⟩ : Dates).emplace e.1 e.2 =
        ⟨seen ++ [e], by rw [← insertEntry_append hbefore]; exact sorted_insertEntry e.1 e.2 hseen⟩ := by
      simp only [Dates.emplace, insertEntry_append hbefore]
    rw [List.map_cons, parseRows, List.foldlM_cons, if_neg (row_ne_nil e), parseRow_row he hnew, Option.bind_eq_bind,
      Option.bind_some, hemplace, ← parseRows]
    have hall : ((seen ++ [e]) ++ rest).Pairwise fun a b => a.1 < b.1 := by simpa using hsorted
    rw [ih _ hall hrest]
    simp

private theorem newline_notMem_row (e : AppId × UInt32) : newline ∉ row e := by
  have hnumber : ∀ n : Nat, newline ∉ toDecimal n := fun n hmem =>
    absurd (List.all_eq_true.mp (toDecimal_all_isDigit n) newline hmem) (by decide)
  have hspace : newline ≠ 0x20 := by decide
  simp only [row, List.mem_append, List.mem_cons, hnumber, hspace, or_self, not_false_eq_true]

private theorem textLines_rows (entries : List (AppId × UInt32)) :
    textLines (entries.flatMap fun e => row e ++ [newline]) = entries.map row := by
  induction entries with
  | nil => decide
  | cons e rest ih =>
    rw [List.flatMap_cons, List.append_assoc, List.singleton_append,
      DepotQuarantineStore.textLines_cons (newline_notMem_row e), ih, List.map_cons]

/-- What is written reads back as the same dates. -/
theorem parseDates_render {dates : Dates} (h : dates.Nonzero) : parseDates (render dates) = .ok dates := by
  have hheader : newline ∉ header := by decide
  have hrows := @parseRows_rows [] dates.entries List.Pairwise.nil dates.sorted h
  rw [parseDates, render, DepotQuarantineStore.textLines_cons hheader, textLines_rows]
  simp only [if_true, Dates.empty, hrows, List.nil_append]

end SlsteamMoon.LibraryDates

/-! The store of inclusion dates: what one refresh does to its memory and to the file, and the calls and
restarts of a machine's life. -/
namespace SlsteamMoon.LibraryDates
open KeyValues History

/-- How the file answers when it is there: `open`, then `fstat`, then the reads. -/
inductive Reading where
  | whole
  | cannotOpen
  | notRegular
  | incomplete
  deriving DecidableEq

inductive ReadResult where
  | missing
  | ready
  | failed
  deriving DecidableEq

def readDates (file : Option Bytes) (reading : Reading) : ReadResult × Dates × String :=
  if reading = .cannotOpen then (.failed, .empty, "cannot open date file")
  else
    match file with
    | none => (.missing, .empty, "")
    | some text =>
      if reading = .notRegular ∨ maxFileSize < text.length then (.failed, .empty, "invalid date file type or size")
      else if reading = .incomplete then (.failed, .empty, "incomplete date file read")
      else
        match parseDates text with
        | .ok dates => (.ready, dates, "")
        | .error error => (.failed, .empty, error)

/-- One call, with what the system answers during it: the lock, the reads of the file, the times of the
scripts that are regular files, and the write, which fails with a text. -/
structure Refresh where
  configDir : String
  scriptDir : String
  appIds : List AppId
  now : UInt32
  lockAcquired : Bool
  reading : Reading
  scriptTime : String → Option Int
  writing : Option String

namespace Refresh

def path (r : Refresh) : String := r.configDir ++ "/library-added-times.txt"

/-- A date from the future is clamped. -/
def initialDate (r : Refresh) (id : AppId) : UInt32 :=
  if r.scriptDir ≠ "" then
    match r.scriptTime (r.scriptDir ++ "/" ++ toString id ++ ".lua") with
    | some mtime => if 0 < mtime then UInt32.ofNat (min mtime.toNat r.now.toNat) else r.now
    | none => r.now
  else r.now

/-- The dates on file, once the lock is held. -/
def persisted (r : Refresh) (file : Option Bytes) : ReadResult × Dates × String :=
  if r.lockAcquired then readDates file r.reading else (.failed, .empty, "date store lock unavailable")

end Refresh

structure Store where
  times : Dates := .empty
  path : String := ""
  initialized : Bool := false

structure Outcome where
  store : Store
  file : Option Bytes
  answer : Bool
  error : String

namespace Store

def get (s : Store) (id : AppId) : UInt32 := (s.times.find id).getD 0

/-- Another directory starts over. -/
def opened (s : Store) (path : String) : Store := if s.path ≠ path then { path } else s

/-- Once initialized, memory is authoritative. -/
def dateOf (s : Store) (saved : Dates) (r : Refresh) (id : AppId) : UInt32 :=
  match s.times.find id with
  | some date => date
  | none =>
    if s.initialized then r.now
    else
      match saved.find id with
      | some date => date
      | none => r.initialDate id

/-- One turn of the loop over the set. -/
def addDate (s : Store) (saved : Dates) (r : Refresh) (next : Dates) (id : AppId) : Dates :=
  if id = 0 ∨ s.dateOf saved r id = 0 then next else next.emplace id (s.dateOf saved r id)

/-- A removed app is forgotten. -/
def next (s : Store) (saved : Dates) (r : Refresh) : Dates := r.appIds.foldl (s.addDate saved r) .empty

def refresh (s : Store) (file : Option Bytes) (r : Refresh) : Outcome :=
  let s := s.opened r.path
  let (result, saved, error) := r.persisted file
  let times := s.next saved r
  let s := { s with times, initialized := true }
  if result = .failed then ⟨s, file, false, error⟩
  else if result = .ready ∧ times = saved then ⟨s, file, true, error⟩
  else if maxFileSize < (render times).length then ⟨s, file, false, "date snapshot exceeds file size limit"⟩
  else
    match r.writing with
    | none => ⟨s, some (render times), true, ""⟩
    | some error => ⟨s, file, false, error⟩

end Store

/-- The date on file. -/
def dateOn (file : Option Bytes) (id : AppId) : Option UInt32 :=
  match file with
  | none => none
  | some text =>
    match parseDates text with
    | .ok dates => dates.find id
    | .error _ => none

/-- The files of the machine and the store of the running process. -/
structure World where
  files : String → Option Bytes
  store : Store := {}

inductive Event where
  | restart
  | refresh (r : Refresh)

namespace World

/-- What the call does and answers. -/
def outcome (w : World) (r : Refresh) : Outcome := w.store.refresh (w.files r.path) r

def step (w : World) : Event → World
  | .restart => { w with store := {} }
  | .refresh r => { files := Function.update w.files r.path (w.outcome r).file, store := (w.outcome r).store }

def stored (w : World) (path : String) (id : AppId) : Option UInt32 := dateOn (w.files path) id

/-- The running process has refreshed for the directory, and for no other since. -/
def Remembers (w : World) (path : String) : Prop := w.store.path = path ∧ w.store.initialized = true

end World

/-- The lock is taken by somebody else, or the file cannot be read to its end. -/
def Refresh.Blocked (r : Refresh) (w : World) : Prop :=
  r.lockAcquired = false ∨ r.reading ≠ .whole ∨ ∃ text, w.files r.path = some text ∧ maxFileSize < text.length

/-- A call that is the first of its process for the directory is not blocked while an app of its set
has a stored date other than the one the call would give it. -/
def Steady (w : World) : Event → Prop
  | .restart => True
  | .refresh r => ¬w.Remembers r.path → r.Blocked w →
      ∀ id ∈ r.appIds, ∀ date, w.stored r.path id = some date → r.initialDate id = date

/-! The property. -/

/-- The events that come behind keep the app in every set of the directory. -/
def Stays (path : String) (id : AppId) (events : List Event) : Prop :=
  ∀ r, .refresh r ∈ events → r.path = path → id ∈ r.appIds

def Absent (path : String) (id : AppId) (events : List Event) : Prop :=
  ∀ r, .refresh r ∈ events → r.path = path → id ∉ r.appIds

/-- A date that a call has persisted is on file as long as the app stays. -/
def KeepsDates (w : World) (events : List Event) : Prop :=
  ∀ before r later id date, events = before ++ .refresh r :: later →
    ((run World.step w before).outcome r).answer = true → id ∈ r.appIds →
    (run World.step w (before ++ [.refresh r])).stored r.path id = some date →
    Stays r.path id later → (run World.step w events).stored r.path id = some date

/-- An app that comes back after a call has persisted its removal is dated by that call alone: now, or
in a process that has not refreshed for the directory by its script. -/
def RenewsDates (w : World) (events : List Event) : Prop :=
  ∀ before r between back id, events = before ++ .refresh r :: (between ++ [.refresh back]) →
    ((run World.step w before).outcome r).answer = true → id ≠ 0 → id ∉ r.appIds → Absent r.path id between →
    back.path = r.path → id ∈ back.appIds →
    ((run World.step w (before ++ .refresh r :: between)).Remembers r.path →
      (run World.step w events).store.get id = back.now) ∧
    (¬(run World.step w (before ++ .refresh r :: between)).Remembers r.path →
      (run World.step w events).store.get id = back.initialDate id)

end SlsteamMoon.LibraryDates
