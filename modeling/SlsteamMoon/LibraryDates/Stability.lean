import SlsteamMoon.LibraryDates.Dates

/-! Inclusion dates over the life of a machine: what the file says of an app and what the running process
remembers of it go together from the first call that persisted the date. -/
namespace SlsteamMoon.LibraryDates
open KeyValues History

namespace Store

private theorem nonzero_addDate {s : Store} {saved : Dates} {r : Refresh} {dates : Dates} (h : dates.Nonzero)
    (id : AppId) : (s.addDate saved r dates id).Nonzero := by
  rw [addDate]
  split_ifs with hzero
  · exact h
  · push Not at hzero
    intro e he
    rcases mem_insertEntry he with rfl | he
    · exact hzero
    · exact h e he

private theorem nonzero_next (s : Store) (saved : Dates) (r : Refresh) : (s.next saved r).Nonzero := by
  suffices hfold : ∀ (ids : List AppId) (dates : Dates), dates.Nonzero →
      (ids.foldl (s.addDate saved r) dates).Nonzero from hfold r.appIds .empty (List.forall_mem_nil _)
  intro ids
  induction ids with
  | nil => exact fun _ h => h
  | cons id ids ih => exact fun dates h => ih _ (nonzero_addDate h id)

/-- The date an app of the set gets, if it gets one. -/
def given (s : Store) (saved : Dates) (r : Refresh) (ids : List AppId) (id : AppId) : Option UInt32 :=
  if id ∈ ids ∧ id ≠ 0 ∧ s.dateOf saved r id ≠ 0 then some (s.dateOf saved r id) else none

private theorem find_addDate (s : Store) (saved : Dates) (r : Refresh) (dates : Dates) (first id : AppId) :
    (s.addDate saved r dates first).find id = (dates.find id).or (s.given saved r [first] id) := by
  rw [addDate, given]
  by_cases hid : id = first
  · subst hid
    split_ifs with hzero hgiven hgiven
    · tauto
    · rw [Option.or_none]
    · rw [Dates.find_emplace, if_pos rfl]
      cases dates.find id <;> rfl
    · simp only [List.mem_singleton, true_and] at hgiven
      tauto
  · have hother : ¬(id ∈ [first] ∧ id ≠ 0 ∧ s.dateOf saved r id ≠ 0) := fun h => hid (List.mem_singleton.mp h.1)
    rw [if_neg hother, Option.or_none]
    split_ifs
    · rfl
    · rw [Dates.find_emplace, if_neg hid]

private theorem find_next (s : Store) (saved : Dates) (r : Refresh) (id : AppId) :
    (s.next saved r).find id = s.given saved r r.appIds id := by
  suffices hfold : ∀ (ids : List AppId) (dates : Dates),
      (ids.foldl (s.addDate saved r) dates).find id = (dates.find id).or (s.given saved r ids id) from
    hfold r.appIds .empty
  intro ids
  induction ids with
  | nil => intro dates; simp [given]
  | cons first ids ih =>
    intro dates
    rw [List.foldl_cons, ih, find_addDate, Option.or_assoc]
    congr 1
    simp only [given, List.mem_cons, List.not_mem_nil, or_false]
    by_cases hfirst : id = first ∧ id ≠ 0 ∧ s.dateOf saved r id ≠ 0
    · have hall : (id = first ∨ id ∈ ids) ∧ id ≠ 0 ∧ s.dateOf saved r id ≠ 0 := ⟨.inl hfirst.1, hfirst.2⟩
      rw [if_pos hfirst, if_pos hall, Option.some_or]
    · rw [if_neg hfirst, Option.none_or]
      have hsame : (id ∈ ids ∧ id ≠ 0 ∧ s.dateOf saved r id ≠ 0) ↔
          ((id = first ∨ id ∈ ids) ∧ id ≠ 0 ∧ s.dateOf saved r id ≠ 0) := by tauto
      simp only [hsame]

/-- What the call has read of the file. -/
def saved (r : Refresh) (file : Option Bytes) : Dates := (r.persisted file).2.1

private theorem refresh_store (s : Store) (file : Option Bytes) (r : Refresh) :
    (s.refresh file r).store = ⟨(s.opened r.path).next (saved r file) r, (s.opened r.path).path, true⟩ := by
  rw [refresh]
  dsimp only
  split_ifs
  · rfl
  · rfl
  · rfl
  · cases r.writing <;> rfl

/-- The file is left as it is or holds what the process remembers, and it does hold that after a call
that answered yes. -/
theorem refresh_file (s : Store) (file : Option Bytes) (r : Refresh) :
    ((s.refresh file r).file = file ∨ (s.refresh file r).file = some (render (s.refresh file r).store.times)) ∧
      ((s.refresh file r).answer = true →
        (s.refresh file r).file = some (render (s.refresh file r).store.times) ∨
          (s.refresh file r).file = file ∧ (r.persisted file).1 = .ready ∧
            (s.refresh file r).store.times = saved r file) := by
  rw [refresh]
  dsimp only
  split_ifs with hfailed hsame hlarge
  · exact ⟨.inl rfl, nofun⟩
  · exact ⟨.inl rfl, fun _ => .inr ⟨rfl, hsame⟩⟩
  · exact ⟨.inl rfl, nofun⟩
  · cases r.writing with
    | none => exact ⟨.inr rfl, fun _ => .inl rfl⟩
    | some error => exact ⟨.inl rfl, nofun⟩

end Store

private theorem dateOn_render {dates : Dates} (h : dates.Nonzero) (id : AppId) :
    dateOn (some (render dates)) id = dates.find id := by
  simp only [dateOn, parseDates_render h]

private theorem readDates_cases (file : Option Bytes) (reading : Reading) :
    ((readDates file reading).1 ≠ .ready ∧ (readDates file reading).2.1 = .empty) ∨
      ∃ text, file = some text ∧ parseDates text = .ok (readDates file reading).2.1 := by
  by_cases hopen : reading = .cannotOpen
  · simp [readDates, hopen]
  · cases file with
    | none => simp [readDates, hopen]
    | some text =>
      by_cases htype : reading = .notRegular ∨ maxFileSize < text.length
      · simp [readDates, hopen, htype]
      · by_cases hshort : reading = .incomplete
        · have hsmall : ¬maxFileSize < text.length := fun h => htype (.inr h)
          simp [readDates, hshort, hsmall]
        · cases hparse : parseDates text with
          | ok dates => simp [readDates, hopen, htype, hshort, hparse]
          | error error => simp [readDates, hopen, htype, hshort, hparse]

private theorem persisted_cases (r : Refresh) (file : Option Bytes) :
    ((r.persisted file).1 ≠ .ready ∧ Store.saved r file = .empty) ∨
      ∃ text, file = some text ∧ parseDates text = .ok (Store.saved r file) := by
  unfold Store.saved Refresh.persisted
  split_ifs
  · exact readDates_cases file r.reading
  · exact .inl ⟨nofun, rfl⟩

/-- A call reads what is on file or nothing. -/
theorem find_saved (r : Refresh) (file : Option Bytes) (id : AppId) :
    (Store.saved r file).find id = dateOn file id ∨ (Store.saved r file).find id = none := by
  obtain ⟨-, hempty⟩ | ⟨text, rfl, hparse⟩ := persisted_cases r file
  · exact .inr (by rw [hempty, Dates.find_empty])
  · exact .inl (by simp only [dateOn, hparse])

private theorem find_saved_of_ready {r : Refresh} {file : Option Bytes} (h : (r.persisted file).1 = .ready)
    (id : AppId) : (Store.saved r file).find id = dateOn file id := by
  obtain ⟨hnot, -⟩ | ⟨text, rfl, hparse⟩ := persisted_cases r file
  · exact absurd h hnot
  · simp only [dateOn, hparse]

private theorem find_saved_of_clear {r : Refresh} {w : World} (h : ¬r.Blocked w) (id : AppId) :
    (Store.saved r (w.files r.path)).find id = w.stored r.path id := by
  rw [Refresh.Blocked] at h
  push Not at h
  obtain ⟨hlock, hreading, hsize⟩ := h
  have hheld : r.lockAcquired = true := by simpa using hlock
  unfold Store.saved Refresh.persisted World.stored readDates
  rw [if_pos hheld, hreading]
  cases hfile : w.files r.path with
  | none => rfl
  | some text =>
    have hsmall : ¬maxFileSize < text.length := Nat.not_lt.mpr (hsize text hfile)
    simp only [hsmall, reduceCtorEq, or_self, if_false, dateOn]
    cases parseDates text with
    | ok dates => rfl
    | error error => rfl

namespace World

/-- Until its first call the process knows no date. -/
def Blank (w : World) : Prop := w.store.initialized = false → w.store.times = .empty

private theorem blank_step (w : World) (e : Event) : (w.step e).Blank := by
  cases e with
  | restart => exact fun _ => rfl
  | refresh r =>
    intro huninitialized
    simp [step, outcome, Store.refresh_store] at huninitialized

private theorem opened_path (w : World) (path : String) : (w.store.opened path).path = path := by
  rw [Store.opened]
  split_ifs with h
  · rfl
  · exact not_not.mp h

/-- The date a call gives an app of its set, by what the process remembers. -/
theorem dateOf_cases {w : World} (hblank : w.Blank) (r : Refresh) (saved : Dates) (id : AppId) :
    (w.Remembers r.path → (w.store.opened r.path).dateOf saved r id = ((w.store.times.find id).getD r.now)) ∧
      (¬w.Remembers r.path → (w.store.opened r.path).dateOf saved r id = (saved.find id).getD (r.initialDate id)) := by
  constructor
  · rintro ⟨hpath, hinitialized⟩
    have hopened : w.store.opened r.path = w.store := by rw [Store.opened, if_neg (not_not_intro hpath)]
    rw [hopened, Store.dateOf]
    cases w.store.times.find id with
    | some date => rfl
    | none => simp [hinitialized]
  · intro hforgets
    have hopened : (w.store.opened r.path).times = .empty ∧ (w.store.opened r.path).initialized = false := by
      rw [Store.opened]
      split_ifs with hpath
      · exact ⟨rfl, rfl⟩
      · have hfirst : w.store.initialized = false :=
          Bool.eq_false_iff.mpr fun h => hforgets ⟨not_not.mp hpath, h⟩
        exact ⟨hblank hfirst, hfirst⟩
    rw [Store.dateOf, hopened.1, hopened.2, Dates.find_empty]
    cases saved.find id <;> rfl

/-- The file and the memory of a process that has refreshed agree on the date of the app. -/
structure Holds (path : String) (id : AppId) (date : Option UInt32) (w : World) : Prop where
  blank : w.Blank
  file : w.stored path id = date
  memory : w.Remembers path → w.store.times.find id = date

private theorem nonzero_refresh (s : Store) (file : Option Bytes) (r : Refresh) :
    (s.refresh file r).store.times.Nonzero := by
  rw [Store.refresh_store]
  exact Store.nonzero_next _ _ _

private theorem files_step_self (w : World) (r : Refresh) : (w.step (.refresh r)).files r.path = (w.outcome r).file :=
  Function.update_self r.path _ w.files

/-- A call whose memory and whose file have the date keeps it on file. -/
theorem Holds.of_outcome {w : World} {r : Refresh} {id : AppId} {date : Option UInt32}
    (hfile : w.stored r.path id = date) (hmemory : (w.outcome r).store.times.find id = date) :
    (w.step (.refresh r)).Holds r.path id date := by
  refine ⟨blank_step w _, ?_, fun _ => hmemory⟩
  rw [stored, files_step_self]
  obtain hsame | hwritten := (Store.refresh_file w.store (w.files r.path) r).1
  · rw [outcome, hsame]
    exact hfile
  · rw [outcome, hwritten, dateOn_render (nonzero_refresh _ _ r)]
    exact hmemory

/-- A call that answered yes leaves on file what it remembers. -/
theorem Holds.of_answer {w : World} {r : Refresh} (hanswer : (w.outcome r).answer = true)
    (id : AppId) : (w.step (.refresh r)).Holds r.path id ((w.outcome r).store.times.find id) := by
  refine ⟨blank_step w _, ?_, fun _ => rfl⟩
  rw [stored, files_step_self]
  obtain hwritten | ⟨hsame, hready, htimes⟩ := (Store.refresh_file w.store (w.files r.path) r).2 hanswer
  · rw [outcome, hwritten, dateOn_render (nonzero_refresh _ _ r)]
  · rw [outcome, hsame, htimes, find_saved_of_ready hready]

theorem Holds.restart {w : World} {path : String} {id : AppId} {date : Option UInt32} (h : w.Holds path id date) :
    (w.step .restart).Holds path id date :=
  ⟨blank_step w .restart, h.file, fun hremembers => nomatch hremembers.2⟩

theorem Holds.elsewhere {w : World} {path : String} {id : AppId} {date : Option UInt32} (h : w.Holds path id date)
    {r : Refresh} (hpath : r.path ≠ path) : (w.step (.refresh r)).Holds path id date := by
  refine ⟨blank_step w _, ?_, ?_⟩
  · have hfiles : (w.step (.refresh r)).files path = w.files path := Function.update_of_ne hpath.symm _ _
    rw [stored, hfiles]
    exact h.file
  · rintro ⟨hstore, -⟩
    rw [step, outcome, Store.refresh_store] at hstore
    exact absurd ((opened_path w r.path).symm.trans hstore) hpath

private theorem find_outcome (w : World) (r : Refresh) (id : AppId) :
    (w.outcome r).store.times.find id =
      (w.store.opened r.path).given (Store.saved r (w.files r.path)) r r.appIds id := by
  rw [outcome, Store.refresh_store, Store.find_next]

/-- A steady call with the app in its set keeps the date. -/
theorem Holds.refresh {w : World} {r : Refresh} {id : AppId} {date : UInt32} (h : w.Holds r.path id (some date))
    (hnonzero : id ≠ 0 ∧ date ≠ 0) (hmember : id ∈ r.appIds) (hsteady : Steady w (.refresh r)) :
    (w.step (.refresh r)).Holds r.path id (some date) := by
  have hdate : (w.store.opened r.path).dateOf (Store.saved r (w.files r.path)) r id = date := by
    obtain ⟨hold, hnew⟩ := dateOf_cases h.blank r (Store.saved r (w.files r.path)) id
    by_cases hremembers : w.Remembers r.path
    · rw [hold hremembers, h.memory hremembers, Option.getD_some]
    · rw [hnew hremembers]
      by_cases hblocked : r.Blocked w
      · have hinitial := hsteady hremembers hblocked id hmember date h.file
        obtain hread | hnone := find_saved r (w.files r.path) id
        · rw [hread]
          exact congrArg (fun found => found.getD (r.initialDate id)) h.file
        · rw [hnone, Option.getD_none, hinitial]
      · rw [find_saved_of_clear hblocked, h.file, Option.getD_some]
  apply Holds.of_outcome h.file
  rw [find_outcome, Store.given, hdate, if_pos ⟨hmember, hnonzero⟩]

/-- A call without the app leaves it without a date. -/
theorem Holds.absent {w : World} {r : Refresh} {id : AppId} (h : w.Holds r.path id none) (hmember : id ∉ r.appIds) :
    (w.step (.refresh r)).Holds r.path id none := by
  apply Holds.of_outcome h.file
  rw [find_outcome, Store.given, if_neg fun hgiven => hmember hgiven.1]

end World

private theorem keeps_dates {files : String → Option Bytes} {events : List Event}
    (h : Along World.step Steady { files } events) : KeepsDates { files } events := by
  rintro before r later id date rfl hanswer hmember hstored hstays
  have hheld := World.Holds.of_answer hanswer id
  have hafter : run World.step { files } (before ++ [.refresh r]) =
      (run World.step { files } before).step (.refresh r) := run_concat _ _ _ _
  have hdate : ((run World.step { files } before).outcome r).store.times.find id = some date := by
    rw [← hheld.file, ← hafter]
    exact hstored
  have hnonzero : id ≠ 0 ∧ date ≠ 0 := by
    rw [World.find_outcome, Store.given, Option.ite_none_right_eq_some] at hdate
    obtain ⟨⟨-, hid, hgiven⟩, hsame⟩ := hdate
    cases hsame
    exact ⟨hid, hgiven⟩
  rw [hdate, ← hafter] at hheld
  rw [List.append_cons] at h ⊢
  rw [run_append]
  have hlater : Along World.step (fun w e => Steady w e ∧ e ∈ later)
      (run World.step { files } (before ++ [.refresh r])) later := by
    intro first e rest heq
    exact ⟨h.behind first e rest heq, by simp [heq]⟩
  refine (run_invariant ?_ hheld hlater).file
  rintro w e hw ⟨hsteady, he⟩
  cases e with
  | restart => exact hw.restart
  | refresh r' =>
    by_cases hpath : r'.path = r.path
    · rw [← hpath] at hw ⊢
      exact hw.refresh hnonzero (hstays r' he hpath) hsteady
    · exact hw.elsewhere hpath

private theorem renews_dates (files : String → Option Bytes) (events : List Event) : RenewsDates { files } events := by
  rintro before r between back id rfl hanswer hid hgone habsent hpath hback
  have hheld := World.Holds.of_answer hanswer id
  have hnone : ((run World.step { files } before).outcome r).store.times.find id = none := by
    rw [World.find_outcome, Store.given, if_neg fun hgiven => hgone hgiven.1]
  rw [hnone] at hheld
  have hbetween : Along World.step (fun _ e => e ∈ between)
      ((run World.step { files } before).step (.refresh r)) between := along_of_forall fun e he _ => he
  have hlast : (run World.step { files } (before ++ .refresh r :: between)).Holds r.path id none := by
    rw [List.append_cons, run_append, run_concat]
    refine run_invariant ?_ hheld hbetween
    intro w e hw he
    cases e with
    | restart => exact hw.restart
    | refresh r' =>
      by_cases hsame : r'.path = r.path
      · rw [← hsame] at hw ⊢
        exact hw.absent (habsent r' he hsame)
      · exact hw.elsewhere hsame
  have hevents : before ++ .refresh r :: (between ++ [.refresh back]) =
      (before ++ .refresh r :: between) ++ [.refresh back] := by simp
  rw [hevents, run_concat]
  generalize run World.step { files } (before ++ .refresh r :: between) = w at hlast
  rw [← hpath] at hlast ⊢
  have hget : ∀ date, (w.store.opened back.path).dateOf (Store.saved back (w.files back.path)) back id = date →
      (w.step (.refresh back)).store.get id = date := by
    rintro date rfl
    change ((w.outcome back).store.times.find id).getD 0 = _
    rw [World.find_outcome, Store.given]
    split_ifs with hgiven
    · rfl
    · have hzero : (w.store.opened back.path).dateOf (Store.saved back (w.files back.path)) back id = 0 := by
        by_contra hdate
        exact hgiven ⟨hback, hid, hdate⟩
      rw [hzero, Option.getD_none]
  obtain ⟨hold, hnew⟩ := World.dateOf_cases hlast.blank back (Store.saved back (w.files back.path)) id
  constructor
  · intro hremembers
    apply hget
    rw [hold hremembers, hlast.memory hremembers, Option.getD_none]
  · intro hforgets
    apply hget
    rw [hnew hforgets]
    obtain hread | hread := find_saved back (w.files back.path) id
    · rw [hread]
      exact congrArg (fun found => found.getD (back.initialDate id)) hlast.file
    · rw [hread, Option.getD_none]

/-- Over any calls and restarts whose steps are steady, a persisted date stays on file while the app
stays, and an app whose removal was persisted is dated anew when it comes back. -/
theorem dates_stable {files : String → Option Bytes} {events : List Event}
    (h : Along World.step Steady { files } events) :
    KeepsDates { files } events ∧ RenewsDates { files } events :=
  ⟨keeps_dates h, renews_dates files events⟩

/-- A call for app 10 at a time, with or without the lock. -/
def callAt (now : UInt32) (lockAcquired : Bool) : Refresh :=
  { configDir := "", scriptDir := "", appIds := [10], now, lockAcquired, reading := .whole,
    scriptTime := fun _ => none, writing := none }

private theorem steady_of_clear {w : World} {now : UInt32}
    (h : (w.files (callAt now true).path).all (fun text => text.length ≤ maxFileSize) = true) :
    Steady w (.refresh (callAt now true)) := by
  rintro - (hlock | hreading | ⟨text, hfile, hlarge⟩)
  · cases hlock
  · exact absurd rfl hreading
  · rw [hfile] at h
    exact absurd hlarge (Nat.not_lt.mpr (of_decide_eq_true h))

theorem dates_stable_restart :
    KeepsDates { files := fun _ => none } [.refresh (callAt 100 true), .restart, .refresh (callAt 500 true)] ∧
      RenewsDates { files := fun _ => none } [.refresh (callAt 100 true), .restart, .refresh (callAt 500 true)] := by
  apply dates_stable
  refine along_cons (steady_of_clear rfl) (along_cons ?_ (along_cons (steady_of_clear ?_) along_nil))
  · exact trivial
  · decide +kernel

/-- The lock was taken by somebody else during the first call after a restart, and the second call
writes the date of the first over the stored one. -/
theorem contended_start_overwrites_date :
    ¬∀ (files : String → Option Bytes) (events : List Event),
      KeepsDates { files } events ∧ RenewsDates { files } events := by
  intro h
  have hkeeps := (h (fun _ => none) [.refresh (callAt 100 true), .restart, .refresh (callAt 500 false),
    .refresh (callAt 600 true)]).1
  have hstays : Stays (callAt 100 true).path 10 [.restart, .refresh (callAt 500 false), .refresh (callAt 600 true)] := by
    intro r hr _
    simp only [List.mem_cons, List.not_mem_nil, reduceCtorEq, Event.refresh.injEq, false_or, or_false] at hr
    obtain rfl | rfl := hr
    · exact List.mem_cons_self
    · exact List.mem_cons_self
  have hdate := hkeeps [] (callAt 100 true) _ 10 100 rfl (by decide +kernel) (by decide) (by decide +kernel) hstays
  exact absurd hdate (by decide +kernel)

end SlsteamMoon.LibraryDates
