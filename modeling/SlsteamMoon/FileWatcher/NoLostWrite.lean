import SlsteamMoon.Runs

/-! The watcher thread over an inotify instance that watches inodes: writers change the watched paths at any moment, in
place or by a rename over them, and the loop drains the events, watches every path anew and runs the callback. -/
namespace SlsteamMoon.FileWatcher
open Runs

/-- A watched path: the file it names, how often what it names changed, and the count that the callback read last. -/
structure Path where
  inode : Option Nat
  version : Nat := 0
  seen : Nat := 0
  deriving DecidableEq, Repr

/-- What the kernel queues: a change of a watched inode, and the end of a watch with its inode. -/
inductive Note where
  | changed (inode : Nat)
  | ignored (inode : Nat)
  deriving DecidableEq, Repr

/-- Where watchLoop stands. -/
inductive Loop where
  /-- In front of the look at the flag, or in poll. -/
  | polling
  /-- A batch was read; drainAdditionalReadable goes on. -/
  | draining
  /-- Inside rearm, in front of the path of this index. -/
  | rearming (next : Nat)
  /-- Inside onModify, which has read the first paths. -/
  | loading (next : Nat)
  | returned
  deriving DecidableEq, Repr

/-- Inodes are numbered; `nextInode` is fresh. -/
structure Watcher where
  paths : List Path
  watches : List Nat := []
  queue : List Note := []
  nextInode : Nat := 0
  loop : Loop := .polling
  stopping : Bool := false
  joined : Bool := false
  deriving DecidableEq, Repr

inductive Event where
  /-- A write in place, or a change of an entry of a directory. -/
  | modify (i : Nat)
  /-- An atomic rename over the path. -/
  | replace (i : Nat)
  | unlink (i : Nat)
  | create (i : Nat)
  /-- The timeout of poll. -/
  | tick
  /-- A read takes some of the queue, at least one event. -/
  | read (count : Nat)
  | drain (count : Nat)
  /-- The end of the drain and the second look at the flag. -/
  | proceed
  | rearm
  | onModify
  | load
  | done
  | stop
  | leave
  | join
  deriving DecidableEq, Repr

namespace Watcher

def setPath (w : Watcher) (i : Nat) (p : Path) : Watcher := { w with paths := w.paths.set i p }

/-- The inode loses its last link: its watch goes, and says so. Each path is taken to be the only link, with nobody else
keeping the file open; another link or an open handle would keep the watch on the old inode. -/
def release (w : Watcher) (inode : Nat) : Watcher :=
  if inode ∈ w.watches then
    { w with watches := w.watches.filter (· ≠ inode), queue := w.queue ++ [.ignored inode] }
  else w

/-- A change of what a path names. -/
def change (w : Watcher) (i : Nat) (p : Path) : Event → Option Watcher
  | .modify _ =>
    p.inode.map fun inode =>
      let w := w.setPath i { p with version := p.version + 1 }
      if inode ∈ w.watches then { w with queue := w.queue ++ [.changed inode] } else w
  | .replace _ =>
    p.inode.map fun inode =>
      let w := w.setPath i { p with inode := some w.nextInode, version := p.version + 1 }
      { w with nextInode := w.nextInode + 1 }.release inode
  | .unlink _ =>
    p.inode.map fun inode => (w.setPath i { p with inode := none, version := p.version + 1 }).release inode
  | .create _ =>
    if p.inode = none then
      let w := w.setPath i { p with inode := some w.nextInode, version := p.version + 1 }
      some { w with nextInode := w.nextInode + 1 }
    else none
  | _ => none

/-- inotify_add_watch: it fails where there is no file, and adds nothing to a live watch. -/
def addWatch (w : Watcher) (p : Path) : Watcher :=
  match p.inode with
  | none => w
  | some inode => if inode ∈ w.watches then w else { w with watches := inode :: w.watches }

end Watcher

open Watcher

def step : Step Watcher Event
  | w, .modify i => w.paths[i]?.bind fun p => w.change i p (.modify i)
  | w, .replace i => w.paths[i]?.bind fun p => w.change i p (.replace i)
  | w, .unlink i => w.paths[i]?.bind fun p => w.change i p (.unlink i)
  | w, .create i => w.paths[i]?.bind fun p => w.change i p (.create i)
  | w, .tick => if w.loop = .polling then some w else none
  | w, .read count =>
    if w.loop = .polling ∧ count < w.queue.length then some { w with loop := .draining, queue := w.queue.drop (count + 1) }
    else none
  | w, .drain count =>
    if w.loop = .draining ∧ count < w.queue.length then some { w with queue := w.queue.drop (count + 1) } else none
  | w, .proceed =>
    if w.loop = .draining then some { w with loop := if w.stopping then .returned else .rearming 0 } else none
  | w, .rearm =>
    match w.loop with
    | .rearming next => w.paths[next]?.map fun p => { w.addWatch p with loop := .rearming (next + 1) }
    | _ => none
  | w, .onModify => if w.loop = .rearming w.paths.length then some { w with loop := .loading 0 } else none
  | w, .load =>
    match w.loop with
    | .loading next =>
      w.paths[next]?.map fun p => { w.setPath next { p with seen := p.version } with loop := .loading (next + 1) }
    | _ => none
  | w, .done => if w.loop = .loading w.paths.length then some { w with loop := .polling } else none
  | w, .stop => some { w with stopping := true }
  | w, .leave => if w.loop = .polling ∧ w.stopping then some { w with loop := .returned } else none
  | w, .join => if w.loop = .returned ∧ w.stopping then some { w with joined := true } else none

end SlsteamMoon.FileWatcher

/-! No change of a watched path is lost: whatever the callback has not read is announced in the queue, or the callback is
still to run. -/
namespace SlsteamMoon.FileWatcher
open Runs

def Watcher.Armed (w : Watcher) (p : Path) : Prop := ∃ inode, p.inode = some inode ∧ inode ∈ w.watches

/-- The loop is still to watch this path anew before it waits again. -/
def Loop.RearmDue (l : Loop) (i : Nat) : Prop :=
  match l with
  | draining | returned => True
  | rearming next => next ≤ i
  | polling | loading _ => False

/-- The callback is still to read this path before the loop waits again. -/
def Loop.LoadDue (l : Loop) (i : Nat) : Prop :=
  match l with
  | draining | rearming _ | returned => True
  | loading next => next ≤ i
  | polling => False

private theorem Loop.loadDue_of_rearmDue {l : Loop} {i : Nat} (h : l.RearmDue i) : l.LoadDue i := by
  cases l with
  | draining | returned => trivial
  | rearming next => trivial
  | polling => exact h.elim
  | loading next => exact h.elim

/-- Every path is watched and read, or the queue or the loop will see to it. -/
structure Covered (w : Watcher) : Prop where
  distinct : ∀ (i j : Nat) (p q : Path) (inode : Nat), w.paths[i]? = some p → w.paths[j]? = some q →
    p.inode = some inode → q.inode = some inode → i = j
  fresh : ∀ p ∈ w.paths, ∀ inode, p.inode = some inode → inode < w.nextInode
  watched : ∀ inode ∈ w.watches, inode < w.nextInode
  armed : ∀ (i : Nat) (p : Path), w.paths[i]? = some p → w.Armed p ∨ w.queue ≠ [] ∨ w.loop.RearmDue i
  read : ∀ (i : Nat) (p : Path), w.paths[i]? = some p → p.seen = p.version ∨ w.queue ≠ [] ∨ w.loop.LoadDue i

/-- Where rearm stands, its path has a file. -/
def Watcher.finds (w : Watcher) (e : Event) : Bool :=
  match w.loop, e with
  | .rearming next, .rearm => (w.paths[next]?.bind Path.inode).isSome
  | _, _ => true

/-- No rearm finds its path without a file. -/
def Rearms (w : Watcher) (e : Event) : Prop := w.finds e = true

instance (w : Watcher) (e : Event) : Decidable (Rearms w e) := inferInstanceAs (Decidable (w.finds e = true))

variable {w w' : Watcher}

/-- The watched paths at the start of the thread. -/
def started (count : Nat) : Watcher where
  paths := (List.range count).map fun i => { inode := some i }
  watches := List.range count
  nextInode := count

private theorem paths_started {count i : Nat} {p : Path} (h : (started count).paths[i]? = some p) :
    p = { inode := some i } ∧ i < count := by
  simp only [started, List.getElem?_map, Option.map_eq_some_iff] at h
  obtain ⟨a, ha, rfl⟩ := h
  obtain ⟨hlt, hget⟩ := List.getElem?_eq_some_iff.mp ha
  rw [List.getElem_range] at hget
  subst hget
  exact ⟨rfl, by simpa using hlt⟩

theorem covered_started (count : Nat) : Covered (started count) where
  distinct := by
    intro i j p q inode hi hj hp hq
    rw [(paths_started hi).1] at hp
    rw [(paths_started hj).1] at hq
    exact Option.some.inj (hp.trans hq.symm)
  fresh := by
    intro p hp inode hinode
    obtain ⟨i, hi⟩ := List.mem_iff_getElem?.mp hp
    obtain ⟨rfl, hlt⟩ := paths_started hi
    cases hinode
    exact hlt
  watched := fun inode h => List.mem_range.mp h
  armed := by
    intro i p hi
    obtain ⟨rfl, hlt⟩ := paths_started hi
    exact .inl ⟨i, rfl, List.mem_range.mpr hlt⟩
  read := by
    intro i p hi
    obtain ⟨rfl, -⟩ := paths_started hi
    exact .inl rfl

namespace Covered

/-- A path that changes in any way, with what its old inode's watch announces. -/
theorem change (h : Covered w) {i : Nat} {p p' : Path} {watches : List Nat} {queue : List Note} {nextInode : Nat}
    (hp : w.paths[i]? = some p) (hinode : ∀ inode, p'.inode = some inode → p.inode = some inode ∨ inode = w.nextInode)
    (hnext : w.nextInode ≤ nextInode) (hfresh : ∀ inode, p'.inode = some inode → inode < nextInode)
    (hwatches : ∀ inode ∈ watches, inode ∈ w.watches)
    (hkept : ∀ inode ∈ w.watches, p.inode ≠ some inode → inode ∈ watches)
    (hqueue : w.queue <+: queue) (hannounced : w.Armed p → queue ≠ []) :
    Covered { w with paths := w.paths.set i p', watches, queue, nextInode } := by
  have hnonempty (hne : w.queue ≠ []) : queue ≠ [] := by
    intro hnil
    rw [hnil] at hqueue
    exact hne (List.prefix_nil.mp hqueue)
  have hset {j : Nat} {q : Path} (hj : (w.paths.set i p')[j]? = some q) :
      i = j ∧ q = p' ∨ i ≠ j ∧ w.paths[j]? = some q := part_set_cases hj
  -- the path itself is announced if it was watched, and due if it was not
  have hself : queue ≠ [] ∨ w.loop.RearmDue i := by
    rcases h.armed i p hp with harmed | hne | hdue
    · exact .inl (hannounced harmed)
    · exact .inl (hnonempty hne)
    · exact .inr hdue
  have hold {j : Nat} {q : Path} (hj : w.paths[j]? = some q) {inode : Nat} (hq : q.inode = some inode) : inode < w.nextInode :=
    h.fresh q (List.mem_of_getElem? hj) inode hq
  refine ⟨?_, ?_, ?_, ?_, ?_⟩
  · intro j k q r inode hj hk hq hr
    rcases hset hj with ⟨rfl, rfl⟩ | ⟨-, hj'⟩ <;> rcases hset hk with ⟨rfl, rfl⟩ | ⟨-, hk'⟩
    · rfl
    · rcases hinode inode hq with hsame | rfl
      · exact h.distinct i k p r inode hp hk' hsame hr
      · exact absurd (hold hk' hr) (Nat.lt_irrefl _)
    · rcases hinode inode hr with hsame | rfl
      · exact h.distinct j i q p inode hj' hp hq hsame
      · exact absurd (hold hj' hq) (Nat.lt_irrefl _)
    · exact h.distinct j k q r inode hj' hk' hq hr
  · intro q hq inode hqi
    rcases List.mem_or_eq_of_mem_set hq with hq | rfl
    · exact Nat.lt_of_lt_of_le (h.fresh q hq inode hqi) hnext
    · exact hfresh inode hqi
  · intro inode hmem
    exact Nat.lt_of_lt_of_le (h.watched inode (hwatches inode hmem)) hnext
  · intro j q hj
    rcases hset hj with ⟨rfl, rfl⟩ | ⟨hij, hj⟩
    · exact .inr hself
    · rcases h.armed j q hj with ⟨inode, hq, hmem⟩ | hne | hdue
      · refine .inl ⟨inode, hq, hkept inode hmem fun hpi => hij ?_⟩
        exact h.distinct i j p q inode hp hj hpi hq
      · exact .inr (.inl (hnonempty hne))
      · exact .inr (.inr hdue)
  · intro j q hj
    rcases hset hj with ⟨rfl, rfl⟩ | ⟨-, hj⟩
    · exact .inr (hself.imp_right Loop.loadDue_of_rearmDue)
    · rcases h.read j q hj with hseen | hne | hdue
      · exact .inl hseen
      · exact .inr (.inl (hnonempty hne))
      · exact .inr (.inr hdue)

/-- A step of the loop, which changes no path. -/
theorem turn (h : Covered w) {watches : List Nat} {queue : List Note} {loop : Loop} {stopping joined : Bool}
    (hkept : ∀ inode ∈ w.watches, inode ∈ watches)
    (hwatches : ∀ inode ∈ watches, inode ∈ w.watches ∨ ∃ p ∈ w.paths, p.inode = some inode)
    (hrearm : ∀ i p, w.paths[i]? = some p → w.queue ≠ [] ∨ w.loop.RearmDue i →
      (∃ inode, p.inode = some inode ∧ inode ∈ watches) ∨ queue ≠ [] ∨ loop.RearmDue i)
    (hload : ∀ i p, w.paths[i]? = some p → w.queue ≠ [] ∨ w.loop.LoadDue i →
      p.seen = p.version ∨ queue ≠ [] ∨ loop.LoadDue i) :
    Covered { w with watches, queue, loop, stopping, joined } where
  distinct := h.distinct
  fresh := h.fresh
  watched := by
    intro inode hmem
    rcases hwatches inode hmem with hold | ⟨p, hp, hinode⟩
    · exact h.watched inode hold
    · exact h.fresh p hp inode hinode
  armed := by
    intro i p hp
    rcases h.armed i p hp with ⟨inode, hinode, hmem⟩ | hdue
    · exact .inl ⟨inode, hinode, hkept inode hmem⟩
    · exact hrearm i p hp hdue
  read := by
    intro i p hp
    rcases h.read i p hp with hseen | hdue
    · exact .inl hseen
    · exact hload i p hp hdue

/-- Every path is due, so nothing has to be shown. -/
theorem turn_due (h : Covered w) {queue : List Note} {loop : Loop} {stopping joined : Bool} (hloop : ∀ i, loop.RearmDue i) :
    Covered { w with queue, loop, stopping, joined } :=
  h.turn (fun _ hmem => hmem) (fun _ hmem => .inl hmem) (fun i _ _ _ => .inr (.inr (hloop i)))
    fun i _ _ _ => .inr (.inr (Loop.loadDue_of_rearmDue (hloop i)))

end Covered

theorem release_eq (w : Watcher) (inode : Nat) :
    w.release inode = { w with
      watches := w.watches.filter (· ≠ inode)
      queue := if inode ∈ w.watches then w.queue ++ [.ignored inode] else w.queue } := by
  unfold Watcher.release
  split
  · rfl
  · next h =>
    have hall : w.watches.filter (· ≠ inode) = w.watches := by
      rw [List.filter_eq_self]
      intro other hmem
      exact decide_eq_true fun heq => h (heq ▸ hmem)
    rw [hall]

namespace Covered

/-- A path leaves its inode: the watch of it goes and says so. -/
theorem leaveInode (h : Covered w) {i : Nat} {p p' : Path} {nextInode inode : Nat} (hp : w.paths[i]? = some p)
    (hinode : p.inode = some inode) (hnew : ∀ inode, p'.inode = some inode → inode = w.nextInode)
    (hnext : w.nextInode ≤ nextInode) (hfresh : ∀ inode, p'.inode = some inode → inode < nextInode) :
    Covered (({ w.setPath i p' with nextInode } : Watcher).release inode) := by
  have hgrows : w.queue <+: (if inode ∈ w.watches then w.queue ++ [.ignored inode] else w.queue) := by
    split
    · exact List.prefix_append w.queue _
    · exact List.prefix_refl w.queue
  rw [release_eq]
  apply h.change hp (fun inode hp' => .inr (hnew inode hp')) hnext hfresh
  · intro other hmem
    exact List.mem_of_mem_filter hmem
  · intro other hmem hne
    exact List.mem_filter.mpr ⟨hmem, decide_eq_true fun heq => hne (heq ▸ hinode)⟩
  · exact hgrows
  · rintro ⟨other, hother, hmem⟩
    obtain rfl := Option.some.inj (hinode.symm.trans hother)
    simp [Watcher.setPath, hmem]

/-- A path changes and keeps its watch. -/
theorem modify (h : Covered w) {i : Nat} {p : Path} {inode : Nat} (hp : w.paths[i]? = some p) (hinode : p.inode = some inode)
    {queue : List Note} (hqueue : w.queue <+: queue) (hannounced : inode ∈ w.watches → queue ≠ []) :
    Covered { w with paths := w.paths.set i { p with version := p.version + 1 }, queue } := by
  have hsame (inode : Nat) (hp' : ({ p with version := p.version + 1 } : Path).inode = some inode) : p.inode = some inode := hp'
  apply h.change hp (fun inode hp' => .inl (hsame inode hp')) (Nat.le_refl _)
    (fun inode hp' => h.fresh p (List.mem_of_getElem? hp) inode (hsame inode hp')) (fun _ hmem => hmem) (fun _ hmem _ => hmem)
    hqueue
  rintro ⟨other, hother, hmem⟩
  obtain rfl := Option.some.inj (hinode.symm.trans hother)
  exact hannounced hmem

/-- The four changes of a path. -/
theorem changed (h : Covered w) {i : Nat} {p : Path} {e : Event} (hp : w.paths[i]? = some p) (hstep : w.change i p e = some w') :
    Covered w' := by
  cases e with
  | modify j =>
    obtain ⟨inode, hinode, rfl⟩ := Option.map_eq_some_iff.mp hstep
    by_cases hmem : inode ∈ (w.setPath i { p with version := p.version + 1 }).watches
    · simp only [if_pos hmem]
      exact h.modify hp hinode (List.prefix_append w.queue _) fun _ => List.append_ne_nil_of_right_ne_nil _ (by simp)
    · simp only [if_neg hmem]
      exact h.modify hp hinode (List.prefix_refl w.queue) fun hwatched => absurd hwatched hmem
  | replace j =>
    obtain ⟨inode, hinode, rfl⟩ := Option.map_eq_some_iff.mp hstep
    exact h.leaveInode hp hinode (fun _ hnew => (Option.some.inj hnew).symm) (Nat.le_succ _) fun _ hnew =>
      Nat.lt_succ_of_le (Nat.le_of_eq (Option.some.inj hnew).symm)
  | unlink j =>
    obtain ⟨inode, hinode, rfl⟩ := Option.map_eq_some_iff.mp hstep
    have hgone (inode : Nat) (hnew : (none : Option Nat) = some inode) : False := by cases hnew
    exact h.leaveInode hp hinode (fun inode hnew => (hgone inode hnew).elim) (Nat.le_refl _) fun inode hnew => (hgone inode hnew).elim
  | create j =>
    simp only [Watcher.change, Option.ite_none_right_eq_some, Option.some.injEq] at hstep
    obtain ⟨hnone, rfl⟩ := hstep
    apply h.change hp (fun _ hnew => .inr (Option.some.inj hnew).symm) (Nat.le_succ _)
      (fun _ hnew => Nat.lt_succ_of_le (Nat.le_of_eq (Option.some.inj hnew).symm)) (fun _ hmem => hmem) (fun _ hmem _ => hmem)
      (List.prefix_refl w.queue)
    rintro ⟨inode, hinode, -⟩
    rw [hnone] at hinode
    cases hinode
  | _ => simp only [Watcher.change, reduceCtorEq] at hstep

/-- The callback reads one path. -/
theorem loaded (h : Covered w) {next : Nat} {p : Path} (hloop : w.loop = .loading next) (hp : w.paths[next]? = some p) :
    Covered { w.setPath next { p with seen := p.version } with loop := .loading (next + 1) } := by
  have hset {j : Nat} {q : Path} (hj : (w.paths.set next { p with seen := p.version })[j]? = some q) :
      next = j ∧ q = { p with seen := p.version } ∨ next ≠ j ∧ w.paths[j]? = some q := part_set_cases hj
  -- the files of the paths are those from before
  have hfiles {j : Nat} {q : Path} (hj : (w.paths.set next { p with seen := p.version })[j]? = some q) :
      ∃ old, w.paths[j]? = some old ∧ old.inode = q.inode := by
    rcases hset hj with ⟨rfl, rfl⟩ | ⟨-, hold⟩
    · exact ⟨p, hp, rfl⟩
    · exact ⟨q, hold, rfl⟩
  refine ⟨?_, ?_, h.watched, ?_, ?_⟩
  · intro j k q r inode hj hk hq hr
    obtain ⟨q', hj', hq'⟩ := hfiles hj
    obtain ⟨r', hk', hr'⟩ := hfiles hk
    exact h.distinct j k q' r' inode hj' hk' (hq'.trans hq) (hr'.trans hr)
  · intro q hq inode hinode
    obtain ⟨j, hj⟩ := List.mem_iff_getElem?.mp hq
    obtain ⟨q', hj', hq'⟩ := hfiles hj
    exact h.fresh q' (List.mem_of_getElem? hj') inode (hq'.trans hinode)
  · intro j q hj
    obtain ⟨q', hj', hq'⟩ := hfiles hj
    rcases h.armed j q' hj' with ⟨inode, hinode, hmem⟩ | hne | hdue
    · exact .inl ⟨inode, hq' ▸ hinode, hmem⟩
    · exact .inr (.inl hne)
    · rw [hloop] at hdue
      exact hdue.elim
  · intro j q hj
    rcases hset hj with ⟨rfl, rfl⟩ | ⟨hne, hold⟩
    · exact .inl rfl
    · rcases h.read j q hold with hseen | hqueue | hdue
      · exact .inl hseen
      · exact .inr (.inl hqueue)
      · rw [hloop] at hdue
        exact .inr (.inr (Nat.lt_of_le_of_ne hdue hne))

/-- rearm adds the watch of one path. -/
theorem rearmed (h : Covered w) {next : Nat} {p : Path} (hloop : w.loop = .rearming next) (hp : w.paths[next]? = some p)
    (hok : Rearms w .rearm) : Covered { w.addWatch p with loop := .rearming (next + 1) } := by
  have hfile : p.inode.isSome := by
    simpa only [Rearms, Watcher.finds, hloop, hp, Option.bind_some] using hok
  obtain ⟨inode, hinode⟩ := Option.isSome_iff_exists.mp hfile
  have hadd : w.addWatch p = { w with watches := if inode ∈ w.watches then w.watches else inode :: w.watches } := by
    simp only [Watcher.addWatch, hinode]
    split <;> rfl
  rw [hadd]
  apply h.turn
  · intro other hmem
    split
    · exact hmem
    · exact List.mem_cons_of_mem _ hmem
  · intro other hmem
    split at hmem
    · exact .inl hmem
    · rcases List.mem_cons.mp hmem with rfl | hold
      · exact .inr ⟨p, List.mem_of_getElem? hp, hinode⟩
      · exact .inl hold
  · intro i q hq hdue
    rcases hdue with hqueue | hdue
    · exact .inr (.inl hqueue)
    rw [hloop] at hdue
    rcases Nat.eq_or_lt_of_le hdue with rfl | hlt
    · obtain rfl := Option.some.inj (hp.symm.trans hq)
      refine .inl ⟨inode, hinode, ?_⟩
      split
      · next hmem => exact hmem
      · exact List.mem_cons_self
    · exact .inr (.inr hlt)
  · intro i q _ _
    exact .inr (.inr trivial)

/-- Every event keeps all that is unread announced or due. -/
theorem step (h : Covered w) {e : Event} (hok : Rearms w e) (hs : FileWatcher.step w e = some w') : Covered w' := by
  cases e with
  | modify i | replace i | unlink i | create i =>
    obtain ⟨p, hp, hchange⟩ := Option.bind_eq_some_iff.mp hs
    exact h.changed hp hchange
  | tick =>
    obtain ⟨-, hsame⟩ := Option.ite_none_right_eq_some.mp hs
    cases hsame
    exact h
  | read count =>
    obtain ⟨-, hread⟩ := Option.ite_none_right_eq_some.mp hs
    cases hread
    exact h.turn_due fun _ => trivial
  | drain count =>
    obtain ⟨⟨hloop, -⟩, hread⟩ := Option.ite_none_right_eq_some.mp hs
    cases hread
    exact h.turn_due fun i => by rw [hloop]; trivial
  | proceed =>
    obtain ⟨-, hleft⟩ := Option.ite_none_right_eq_some.mp hs
    cases hleft
    apply h.turn_due
    intro i
    split
    · trivial
    · exact Nat.zero_le i
  | rearm =>
    simp only [FileWatcher.step] at hs
    split at hs
    · next next hloop =>
      obtain ⟨p, hp, rfl⟩ := Option.map_eq_some_iff.mp hs
      exact h.rearmed hloop hp hok
    · cases hs
  | onModify =>
    obtain ⟨hloop, hcall⟩ := Option.ite_none_right_eq_some.mp hs
    cases hcall
    -- every path has been watched anew
    refine h.turn (fun _ hmem => hmem) (fun _ hmem => .inl hmem) ?_ fun i _ _ _ => .inr (.inr (Nat.zero_le i))
    intro i p hp hdue
    rcases hdue with hqueue | hdue
    · exact .inr (.inl hqueue)
    · rw [hloop] at hdue
      exact absurd (List.getElem?_eq_some_iff.mp hp).1 (Nat.not_lt_of_le hdue)
  | load =>
    simp only [FileWatcher.step] at hs
    split at hs
    · next next hloop =>
      obtain ⟨p, hp, rfl⟩ := Option.map_eq_some_iff.mp hs
      exact h.loaded hloop hp
    · cases hs
  | done =>
    obtain ⟨hloop, hback⟩ := Option.ite_none_right_eq_some.mp hs
    cases hback
    refine h.turn (fun _ hmem => hmem) (fun _ hmem => .inl hmem) ?_ ?_
    · intro i p hp hdue
      rcases hdue with hqueue | hdue
      · exact .inr (.inl hqueue)
      · rw [hloop] at hdue
        exact hdue.elim
    · intro i p hp hdue
      rcases hdue with hqueue | hdue
      · exact .inr (.inl hqueue)
      · rw [hloop] at hdue
        exact absurd (List.getElem?_eq_some_iff.mp hp).1 (Nat.not_lt_of_le hdue)
  | stop =>
    cases hs
    exact h.turn (fun _ hmem => hmem) (fun _ hmem => .inl hmem) (fun _ _ _ hdue => .inr hdue) fun _ _ _ hdue => .inr hdue
  | leave =>
    obtain ⟨-, hgone⟩ := Option.ite_none_right_eq_some.mp hs
    cases hgone
    exact h.turn_due fun _ => trivial
  | join =>
    obtain ⟨⟨hloop, -⟩, hjoined⟩ := Option.ite_none_right_eq_some.mp hs
    cases hjoined
    exact h.turn_due fun i => by rw [hloop]; trivial

/-- A loop that waits with nothing queued has read every path and watches it. -/
theorem at_rest (h : Covered w) (hloop : w.loop = .polling) (hqueue : w.queue = []) (p : Path) (hp : p ∈ w.paths) :
    p.seen = p.version ∧ w.Armed p := by
  obtain ⟨i, hi⟩ := List.mem_iff_getElem?.mp hp
  have hread := h.read i p hi
  have harmed := h.armed i p hi
  rw [hloop] at hread harmed
  constructor
  · rcases hread with hseen | hne | hdue
    · exact hseen
    · exact absurd hqueue hne
    · exact hdue.elim
  · rcases harmed with harmed | hne | hdue
    · exact harmed
    · exact absurd hqueue hne
    · exact hdue.elim

end Covered

/-- In every run whose rearms find their files, whatever the callback has not read is announced or still to be read; and a loop
that waits with nothing queued has read and watches every path as it stands. -/
theorem no_write_lost {count : Nat} {es : List Event} (hes : Meets step Rearms (started count) es)
    (hrun : exec step (started count) es = some w) :
    (∀ (i : Nat) (p : Path), w.paths[i]? = some p → p.seen = p.version ∨ w.queue ≠ [] ∨ w.loop.LoadDue i) ∧
      (w.loop = .polling → w.queue = [] → ∀ p ∈ w.paths, p.seen = p.version ∧ w.Armed p) := by
  have hc : Covered w := exec_invariant (fun _ _ _ hc hok hs => hc.step hok hs) (covered_started count) hes hrun
  exact ⟨hc.read, hc.at_rest⟩

/-- Two renames over the path, the second while the callback runs. -/
def renames : List Event :=
  [.replace 0, .read 0, .proceed, .rearm, .onModify, .replace 0, .load, .done, .read 0, .proceed, .rearm, .onModify, .load, .done]

theorem no_write_lost_renamed : ∃ w, exec step (started 1) renames = some w ∧ ∀ p ∈ w.paths, p.seen = p.version ∧ w.Armed p := by
  have hrun : exec step (started 1) renames = some { paths := [⟨some 2, 2, 2⟩], watches := [2], nextInode := 3 } := by decide
  exact ⟨_, hrun, (no_write_lost (by decide) hrun).2 rfl rfl⟩

/-- A path that has no file when rearm comes to it is watched no more: the file that takes its place goes unread. -/
example : ∃ w, exec step (started 1) [.unlink 0, .read 0, .proceed, .rearm, .onModify, .load, .done, .create 0] = some w ∧
    w.queue = [] ∧ w.loop = .polling ∧ ∃ p ∈ w.paths, p.seen ≠ p.version :=
  ⟨{ paths := [⟨some 1, 2, 1⟩], nextInode := 2 }, by decide, rfl, rfl, by decide⟩

end SlsteamMoon.FileWatcher
