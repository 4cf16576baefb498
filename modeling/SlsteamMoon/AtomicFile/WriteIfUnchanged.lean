import SlsteamMoon.AppInfo.Splice

/-! writeIfUnchanged call by call, with other writers on the path between any two of
its system calls. Only the path is shared: the temporary name and the conflict names
are this call's own. -/
namespace SlsteamMoon.AtomicFile
open AppInfo KeyValues

/-- The arguments of the call beside the path. -/
structure Call where
  expected : FileIdentity
  content : Bytes

/-- The system call that comes next. `prepared` is the identity read off the temporary
file. -/
inductive Phase where
  | identify
  | prepareTemp
  | identifyTemp
  | exchange (prepared : FileIdentity)
  | displaced (prepared : FileIdentity)
  | visible (prepared : FileIdentity) (displacedMatches : Bool)
  | rollback (prepared : FileIdentity)
  | rolledBack (prepared : FileIdentity)
  | restore
  | preserveConflict (attempts : Nat)
  | unlinkTemp (result : Bool)
  | returned (result preserved : Bool)
  deriving DecidableEq

/-- The three names, and as history the identities seen so far, the own inode, the ones
that other writers made, those that they replaced or removed, those that this call
unlinked, and what the first exchange took from the path and showed there. -/
structure State where
  path : Option Inode
  temp : Option Inode := none
  conflicts : List Inode := []
  phase : Phase := .identify
  used : List FileIdentity
  own : Option FileIdentity := none
  foreign : List Inode
  dropped : List Inode := []
  unlinked : List Inode := []
  taken : Option Inode := none
  shown : Option Inode := none

/-- `ok` is the outcome of a system call where it can fail. -/
inductive Event where
  | readPath (ok : Bool)
  | prepareTemp (identity : FileIdentity) (opened written : Bool)
  | readTemp (ok : Bool)
  | renameExchange (ok : Bool)
  | renameNoReplace (moved taken : Bool)
  | unlinkTemp (ok : Bool)
  | replacePath (file : Inode)
  | unlinkPath
  deriving DecidableEq

def kConflictAttempts : Nat := 16

namespace State

/-- The file at the path is there before the call, made by another writer. -/
def start (c : Call) (path : Option Inode) : State :=
  { path, used := c.expected :: path.toList.map Inode.identity, foreign := path.toList }

def goto (s : State) (phase : Phase) : State := { s with phase }

def readIdentity (ok : Bool) (file : Option Inode) : Option FileIdentity :=
  if ok then identityOf file else none

/-- An identity that was read is that of the file there. -/
theorem readIdentity_eq_some {ok : Bool} {file : Option Inode} {identity : FileIdentity}
    (h : readIdentity ok file = some identity) : ∃ inode, file = some inode ∧ inode.identity = identity := by
  unfold readIdentity at h
  split at h
  · exact Option.map_eq_some_iff.mp h
  · cases h

/-- Both names must exist. -/
def exchanged (s : State) (ok : Bool) : Option State :=
  if ok ∧ s.path.isSome ∧ s.temp.isSome then some { s with path := s.temp, temp := s.path } else none

def step (c : Call) (s : State) : Event → Option State
  | .readPath ok =>
    match s.phase with
    | .identify =>
      some (s.goto (if readIdentity ok s.path = some c.expected then .prepareTemp else .returned false true))
    | .visible prepared displacedMatches =>
      some (s.goto (
        if readIdentity ok s.path ≠ some prepared then .preserveConflict kConflictAttempts
        else if displacedMatches then .unlinkTemp true
        else .rollback prepared))
    | _ => none
  | .prepareTemp identity opened written =>
    if s.phase = .prepareTemp ∧ identity ∉ s.used then
      if ¬ opened then some (s.goto (.returned false true))
      else
        some { s with
          temp := some ⟨identity, c.content⟩
          used := identity :: s.used
          own := some identity
          phase := if written then .identifyTemp else .unlinkTemp false }
    else none
  | .readTemp ok =>
    match s.phase with
    | .identifyTemp =>
      some (s.goto (match readIdentity ok s.temp with
        | none => .unlinkTemp false
        | some prepared => .exchange prepared))
    | .displaced prepared =>
      some (s.goto (.visible prepared (readIdentity ok s.temp = some c.expected)))
    | .rolledBack prepared =>
      some (s.goto (if readIdentity ok s.temp = some prepared then .unlinkTemp false else .restore))
    | _ => none
  | .renameExchange ok =>
    match s.phase with
    | .exchange prepared =>
      some (match s.exchanged ok with
        | none => s.goto (.unlinkTemp false)
        | some next => { next with phase := .displaced prepared, taken := s.path, shown := s.temp })
    | .rollback prepared =>
      some (match s.exchanged ok with
        | none => s.goto (.preserveConflict kConflictAttempts)
        | some next => next.goto (.rolledBack prepared))
    | .restore =>
      some (match s.exchanged ok with
        | none => s.goto (.preserveConflict kConflictAttempts)
        | some next => next.goto (.preserveConflict kConflictAttempts))
    | _ => none
  | .renameNoReplace moved taken =>
    match s.phase with
    | .preserveConflict (attempts + 1) =>
      some (if moved then
          { s with temp := none, conflicts := s.temp.toList ++ s.conflicts, phase := .returned false true }
        -- the next serial is tried only when the name is taken
        else if taken ∧ 0 < attempts then s.goto (.preserveConflict attempts)
        else s.goto (.returned false false))
    | _ => none
  | .unlinkTemp ok =>
    match s.phase with
    | .unlinkTemp result =>
      some (if ok then
          { s with temp := none, unlinked := s.temp.toList ++ s.unlinked, phase := .returned result true }
        else s.goto (.returned result true))
    | _ => none
  | .replacePath file =>
    if file.identity ∈ s.used then none
    else some { s with
      path := some file
      used := file.identity :: s.used
      foreign := file :: s.foreign
      dropped := s.path.toList ++ s.dropped }
  | .unlinkPath => some { s with path := none, dropped := s.path.toList ++ s.dropped }

/-- The file is this call's own. -/
def Owns (s : State) (file : Inode) : Prop := s.own = some file.identity

/-- The exchange took the expected file and showed the new content. -/
def Swapped (c : Call) (s : State) : Prop :=
  ∃ old new, s.taken = some old ∧ old.identity = c.expected ∧ s.shown = some new ∧ new.content = c.content

/-- What is known before each system call. -/
def Knows (c : Call) (s : State) : Phase → Prop
  | .identify | .prepareTemp => s.temp = none ∧ s.unlinked = []
  | .identifyTemp => ∃ file, s.temp = some file ∧ s.Owns file ∧ file.content = c.content
  | .exchange prepared =>
    s.own = some prepared ∧ ∃ file, s.temp = some file ∧ s.Owns file ∧ file.content = c.content
  | .displaced prepared =>
    s.own = some prepared ∧ ∃ new, s.taken = s.temp ∧ s.shown = some new ∧ new.content = c.content
  | .visible prepared displacedMatches =>
    s.own = some prepared ∧
      (displacedMatches = true → ∃ old, s.temp = some old ∧ old.identity = c.expected ∧ s.Swapped c)
  | .rollback prepared | .rolledBack prepared => s.own = some prepared
  | .restore | .preserveConflict _ => True
  | .unlinkTemp true => ∃ old, s.temp = some old ∧ old.identity = c.expected ∧ s.Swapped c
  | .unlinkTemp false => ∃ file, s.temp = some file ∧ s.Owns file
  | .returned true _ => s.Swapped c ∧ ∀ file, s.temp = some file → file.identity = c.expected
  | .returned false true => ∀ file, s.temp = some file → s.Owns file
  | .returned false false => True

/-- Every inode of another writer is somewhere, and only own inodes have been unlinked,
but for the expected one on success. -/
structure Sound (c : Call) (s : State) : Prop where
  used : ∀ file ∈ s.foreign, file.identity ∈ s.used
  ownUsed : ∀ identity, s.own = some identity → identity ∈ s.used
  ownApart : ∀ file ∈ s.foreign, ¬ s.Owns file
  located : ∀ file ∈ s.foreign, file ∈ s.dropped ∨ s.path = some file ∨ s.temp = some file ∨
    file ∈ s.conflicts ∨ file ∈ s.unlinked
  unlinked : ∀ file ∈ s.unlinked, s.Owns file ∨
    file.identity = c.expected ∧ ∃ preserved, s.phase = .returned true preserved
  known : s.Knows c s.phase

private theorem sound_start (c : Call) (path : Option Inode) : (start c path).Sound c where
  used file hfile := List.mem_cons_of_mem _ (List.mem_map_of_mem hfile)
  ownUsed _ h := by cases h
  ownApart _ _ h := by cases h
  located file hfile := .inr (.inl (Option.mem_toList.mp hfile))
  unlinked _ h := by cases h
  known := ⟨rfl, rfl⟩

/-- A step that only moves on. -/
theorem Sound.goto {c : Call} {s : State} {phase : Phase} (h : s.Sound c)
    (hrunning : ∀ preserved, s.phase ≠ .returned true preserved) (hknown : s.Knows c phase) :
    (s.goto phase).Sound c where
  used := h.used
  ownUsed := h.ownUsed
  ownApart := h.ownApart
  located := h.located
  unlinked file hfile := .inl ((h.unlinked file hfile).resolve_right fun ⟨_, preserved, hp⟩ => hrunning preserved hp)
  known := by
    cases phase with
    | unlinkTemp result => cases result <;> exact hknown
    | returned result preserved => cases result <;> cases preserved <;> exact hknown
    | _ => exact hknown

private theorem exchanged_some {s n : State} {ok : Bool} (h : s.exchanged ok = some n) : ∃ shown taken,
    s.temp = some shown ∧ s.path = some taken ∧ n = { s with path := some shown, temp := some taken } := by
  unfold exchanged at h
  split at h
  · rename_i hboth
    obtain ⟨-, hpath, htemp⟩ := hboth
    obtain ⟨taken, htaken⟩ := Option.isSome_iff_exists.mp hpath
    obtain ⟨shown, hshown⟩ := Option.isSome_iff_exists.mp htemp
    cases h
    exact ⟨shown, taken, hshown, htaken, by rw [hshown, htaken]⟩
  · cases h

/-- An exchange moves both files and loses neither. -/
theorem Sound.exchange {c : Call} {s n : State} {ok : Bool} {phase : Phase} (h : s.Sound c)
    (taken shown : Option Inode) (hrunning : ∀ preserved, s.phase ≠ .returned true preserved)
    (hn : s.exchanged ok = some n) (hknown : { n with taken, shown, phase }.Knows c phase) :
    { n with taken, shown, phase }.Sound c := by
  obtain ⟨new, old, htemp, hpath, rfl⟩ := exchanged_some hn
  refine ⟨h.used, h.ownUsed, h.ownApart, fun file hfile => ?_, fun file hfile => .inl ?_, hknown⟩
  · rcases h.located file hfile with hd | hp | ht | hrest
    · exact .inl hd
    · exact .inr (.inr (.inl (hpath.symm.trans hp)))
    · exact .inr (.inl (htemp.symm.trans ht))
    · exact .inr (.inr (.inr hrest))
  · exact (h.unlinked file hfile).resolve_right fun ⟨_, preserved, hp⟩ => hrunning preserved hp

/-- One lemma for each system call and for each act of another writer. -/
private theorem readPath_sound {c : Call} {s n : State} {ok : Bool} (h : s.Sound c)
    (hstep : s.step c (.readPath ok) = some n) : n.Sound c := by
  have hknown := h.known
  simp only [step] at hstep
  split at hstep
  · rename_i hphase
    rw [hphase] at hknown
    cases hstep
    refine h.goto (by simp [hphase]) ?_
    split
    · exact hknown
    · intro file hfile
      rw [hknown.1] at hfile
      cases hfile
  · rename_i prepared displacedMatches hphase
    rw [hphase] at hknown
    cases hstep
    refine h.goto (by simp [hphase]) ?_
    split
    · trivial
    · split
      · exact hknown.2 ‹_›
      · exact hknown.1
  · cases hstep

private theorem prepareTemp_sound {c : Call} {s n : State} {identity : FileIdentity} {opened written : Bool}
    (h : s.Sound c) (hstep : s.step c (.prepareTemp identity opened written) = some n) : n.Sound c := by
  have hknown := h.known
  simp only [step] at hstep
  split at hstep
  · rename_i hguard
    obtain ⟨hphase, hfresh⟩ := hguard
    rw [hphase] at hknown
    obtain ⟨htemp, hunlinked⟩ : s.temp = none ∧ s.unlinked = [] := hknown
    split at hstep
    · cases hstep
      refine h.goto (by simp [hphase]) fun file hfile => ?_
      rw [htemp] at hfile
      cases hfile
    · cases hstep
      refine ⟨fun file hfile => List.mem_cons_of_mem _ (h.used file hfile), ?_, ?_, ?_, ?_, ?_⟩
      · intro own hown
        cases hown
        exact List.mem_cons_self
      · intro file hfile hown
        -- the identity of the new file has not been seen before
        have hsame : identity = file.identity := Option.some.inj hown
        exact hfresh (hsame ▸ h.used file hfile)
      · intro file hfile
        rcases h.located file hfile with hd | hp | ht | hrest
        · exact .inl hd
        · exact .inr (.inl hp)
        · rw [htemp] at ht
          cases ht
        · exact .inr (.inr (.inr hrest))
      · intro file hfile
        have hnone : file ∈ s.unlinked := hfile
        rw [hunlinked] at hnone
        cases hnone
      · cases written with
        | true => exact ⟨_, rfl, rfl, rfl⟩
        | false => exact ⟨_, rfl, rfl⟩
  · cases hstep

private theorem readTemp_sound {c : Call} {s n : State} {ok : Bool} (h : s.Sound c)
    (hstep : s.step c (.readTemp ok) = some n) : n.Sound c := by
  have hknown := h.known
  simp only [step] at hstep
  split at hstep
  · rename_i hphase
    rw [hphase] at hknown
    obtain ⟨file, htemp, hown, hcontent⟩ := hknown
    cases hstep
    refine h.goto (by simp [hphase]) ?_
    split
    · exact ⟨file, htemp, hown⟩
    · rename_i prepared hread
      obtain ⟨inode, hinode, hprepared⟩ := readIdentity_eq_some hread
      obtain rfl : inode = file := Option.some.inj (hinode.symm.trans htemp)
      exact ⟨hprepared ▸ hown, inode, htemp, hown, hcontent⟩
  · rename_i prepared hphase
    rw [hphase] at hknown
    obtain ⟨hown, new, htaken, hshown, hcontent⟩ := hknown
    cases hstep
    refine h.goto (by simp [hphase]) ⟨hown, fun hmatches => ?_⟩
    obtain ⟨old, hold, hexpected⟩ := readIdentity_eq_some (of_decide_eq_true hmatches)
    exact ⟨old, hold, hexpected, old, new, htaken.trans hold, hexpected, hshown, hcontent⟩
  · rename_i prepared hphase
    rw [hphase] at hknown
    cases hstep
    refine h.goto (by simp [hphase]) ?_
    split
    · rename_i hread
      obtain ⟨file, htemp, hprepared⟩ := readIdentity_eq_some hread
      exact ⟨file, htemp, show s.own = some file.identity from hprepared.symm ▸ hknown⟩
    · trivial
  · cases hstep

private theorem renameExchange_sound {c : Call} {s n : State} {ok : Bool} (h : s.Sound c)
    (hstep : s.step c (.renameExchange ok) = some n) : n.Sound c := by
  have hknown := h.known
  simp only [step] at hstep
  split at hstep
  · rename_i prepared hphase
    rw [hphase] at hknown
    obtain ⟨hown, file, htemp, howns, hcontent⟩ := hknown
    split at hstep
    · cases hstep
      exact h.goto (by simp [hphase]) ⟨file, htemp, howns⟩
    · rename_i next hnext
      cases hstep
      refine h.exchange s.path s.temp (by simp [hphase]) hnext ?_
      obtain ⟨new, old, htemp', hpath, rfl⟩ := exchanged_some hnext
      obtain rfl : file = new := Option.some.inj (htemp.symm.trans htemp')
      exact ⟨hown, file, hpath, htemp, hcontent⟩
  · rename_i prepared hphase
    rw [hphase] at hknown
    split at hstep
    · cases hstep
      exact h.goto (by simp [hphase]) trivial
    · rename_i next hnext
      cases hstep
      refine h.exchange next.taken next.shown (by simp [hphase]) hnext ?_
      obtain ⟨new, old, -, -, rfl⟩ := exchanged_some hnext
      exact hknown
  · rename_i hphase
    split at hstep
    · cases hstep
      exact h.goto (by simp [hphase]) trivial
    · rename_i next hnext
      cases hstep
      exact h.exchange next.taken next.shown (by simp [hphase]) hnext trivial
  · cases hstep

private theorem renameNoReplace_sound {c : Call} {s n : State} {moved taken : Bool} (h : s.Sound c)
    (hstep : s.step c (.renameNoReplace moved taken) = some n) : n.Sound c := by
  simp only [step] at hstep
  split at hstep
  · rename_i attempts hphase
    split at hstep
    · cases hstep
      refine ⟨h.used, h.ownUsed, h.ownApart, fun file hfile => ?_, fun file hfile => .inl ?_, fun file hfile => ?_⟩
      · rcases h.located file hfile with hd | hp | ht | hc | hu
        · exact .inl hd
        · exact .inr (.inl hp)
        · exact .inr (.inr (.inr (.inl (List.mem_append_left _ (Option.mem_toList.mpr ht)))))
        · exact .inr (.inr (.inr (.inl (List.mem_append_right _ hc))))
        · exact .inr (.inr (.inr (.inr hu)))
      · exact (h.unlinked file hfile).resolve_right fun ⟨_, preserved, hp⟩ => by simp [hphase] at hp
      · cases hfile
    · split at hstep
      · cases hstep
        exact h.goto (by simp [hphase]) trivial
      · cases hstep
        exact h.goto (by simp [hphase]) trivial
  · cases hstep

private theorem unlinkTemp_sound {c : Call} {s n : State} {ok : Bool} (h : s.Sound c)
    (hstep : s.step c (.unlinkTemp ok) = some n) : n.Sound c := by
  have hknown := h.known
  simp only [step] at hstep
  split at hstep
  · rename_i result hphase
    rw [hphase] at hknown
    have hearlier : ∀ file ∈ s.unlinked, s.Owns file := fun file hfile =>
      (h.unlinked file hfile).resolve_right fun ⟨_, preserved, hp⟩ => by simp [hphase] at hp
    split at hstep
    · cases hstep
      refine ⟨h.used, h.ownUsed, h.ownApart, fun file hfile => ?_, fun file hfile => ?_, ?_⟩
      · rcases h.located file hfile with hd | hp | ht | hc | hu
        · exact .inl hd
        · exact .inr (.inl hp)
        · exact .inr (.inr (.inr (.inr (List.mem_append_left _ (Option.mem_toList.mpr ht)))))
        · exact .inr (.inr (.inr (.inl hc)))
        · exact .inr (.inr (.inr (.inr (List.mem_append_right _ hu))))
      · rcases List.mem_append.mp hfile with hfile | hfile
        · have htemp := Option.mem_toList.mp hfile
          cases result with
          | true =>
            obtain ⟨old, hold, hexpected, -⟩ := hknown
            obtain rfl : file = old := Option.some.inj (htemp.symm.trans hold)
            exact .inr ⟨hexpected, true, rfl⟩
          | false =>
            obtain ⟨own, hown, howns⟩ := hknown
            obtain rfl : file = own := Option.some.inj (htemp.symm.trans hown)
            exact .inl howns
        · exact .inl (hearlier file hfile)
      · cases result with
        | true =>
          obtain ⟨-, -, -, hswapped⟩ := hknown
          exact ⟨hswapped, fun file hfile => by cases hfile⟩
        | false => exact fun file hfile => by cases hfile
    · cases hstep
      refine h.goto (by simp [hphase]) ?_
      cases result with
      | true =>
        obtain ⟨old, hold, hexpected, hswapped⟩ := hknown
        exact ⟨hswapped, fun file hfile => by rwa [← Option.some.inj (hold.symm.trans hfile)]⟩
      | false =>
        obtain ⟨own, hown, howns⟩ := hknown
        exact fun file hfile => by rwa [← Option.some.inj (hown.symm.trans hfile)]
  · cases hstep

/-- Another writer takes only what is at the path, and brings an inode not seen before. -/
private theorem replacePath_sound {c : Call} {s n : State} {file : Inode} (h : s.Sound c)
    (hstep : s.step c (.replacePath file) = some n) : n.Sound c := by
  simp only [step] at hstep
  split at hstep
  · cases hstep
  · rename_i hfresh
    cases hstep
    refine ⟨?_, fun own hown => List.mem_cons_of_mem _ (h.ownUsed own hown), ?_, ?_, h.unlinked, h.known⟩
    · intro other hother
      rcases List.mem_cons.mp hother with rfl | hother
      · exact List.mem_cons_self
      · exact List.mem_cons_of_mem _ (h.used other hother)
    · intro other hother hown
      rcases List.mem_cons.mp hother with rfl | hother
      · exact hfresh (h.ownUsed _ hown)
      · exact h.ownApart other hother hown
    · intro other hother
      rcases List.mem_cons.mp hother with rfl | hother
      · exact .inr (.inl rfl)
      · rcases h.located other hother with hd | hp | hrest
        · exact .inl (List.mem_append_right _ hd)
        · exact .inl (List.mem_append_left _ (Option.mem_toList.mpr hp))
        · exact .inr (.inr hrest)

private theorem unlinkPath_sound {c : Call} {s n : State} (h : s.Sound c)
    (hstep : s.step c .unlinkPath = some n) : n.Sound c := by
  cases hstep
  refine ⟨h.used, h.ownUsed, h.ownApart, fun other hother => ?_, h.unlinked, h.known⟩
  rcases h.located other hother with hd | hp | hrest
  · exact .inl (List.mem_append_right _ hd)
  · exact .inl (List.mem_append_left _ (Option.mem_toList.mpr hp))
  · exact .inr (.inr hrest)

theorem step_sound {c : Call} {s n : State} {e : Event} (h : s.Sound c) (hstep : s.step c e = some n) :
    n.Sound c := by
  cases e with
  | readPath ok => exact readPath_sound h hstep
  | prepareTemp identity opened written => exact prepareTemp_sound h hstep
  | readTemp ok => exact readTemp_sound h hstep
  | renameExchange ok => exact renameExchange_sound h hstep
  | renameNoReplace moved taken => exact renameNoReplace_sound h hstep
  | unlinkTemp ok => exact unlinkTemp_sound h hstep
  | replacePath file => exact replacePath_sound h hstep
  | unlinkPath => exact unlinkPath_sound h hstep

theorem run_sound {c : Call} {path : Option Inode} {es : List Event} {s : State}
    (hrun : Runs.exec (step c) (start c path) es = some s) : s.Sound c :=
  Runs.exec_preserves (fun _ _ _ h hstep => step_sound h hstep) (sound_start c path) hrun

/-- In every interleaving with other writers a true result means that the exchange took
the expected file from the path and showed the new content there. No inode of another
writer is unlinked but the expected one at a true result: when the call has returned,
each of the others is at the path or under a conflict name, or another writer has taken it
from the path, or every conflict rename has failed and it is under the temporary name. -/
theorem write_if_unchanged_keeps_foreign (c : Call) (path : Option Inode) (es : List Event) (s : State)
    (hrun : Runs.exec (step c) (start c path) es = some s) :
    (∀ preserved, s.phase = .returned true preserved → s.Swapped c) ∧
      (∀ file ∈ s.foreign, file ∈ s.unlinked →
        file.identity = c.expected ∧ ∃ preserved, s.phase = .returned true preserved) ∧
      ∀ result preserved, s.phase = .returned result preserved →
        ∀ file ∈ s.foreign, (result = true → file.identity ≠ c.expected) →
          s.path = some file ∨ file ∈ s.conflicts ∨ file ∈ s.dropped ∨
            result = false ∧ preserved = false ∧ s.temp = some file := by
  have h := run_sound hrun
  have hforeign : ∀ file ∈ s.foreign, file ∈ s.unlinked →
      file.identity = c.expected ∧ ∃ preserved, s.phase = .returned true preserved :=
    fun file hfile hgone => (h.unlinked file hgone).resolve_left (h.ownApart file hfile)
  have hknown := h.known
  refine ⟨fun preserved hphase => ?_, hforeign, fun result preserved hphase file hfile hother => ?_⟩
  · rw [hphase] at hknown
    exact hknown.1
  · rw [hphase] at hknown
    rcases h.located file hfile with hd | hp | ht | hc | hu
    · exact .inr (.inr (.inl hd))
    · exact .inl hp
    · cases result with
      | true => exact absurd (hknown.2 file ht) (hother rfl)
      | false =>
        cases preserved with
        | true => exact absurd (hknown file ht) (h.ownApart file hfile)
        | false => exact .inr (.inr (.inr ⟨rfl, rfl, ht⟩))
    · exact .inr (.inl hc)
    · obtain ⟨hexpected, preserved', hreturned⟩ := hforeign file hfile hu
      obtain ⟨rfl, -⟩ := Phase.returned.inj (hphase.symm.trans hreturned)
      exact absurd hexpected (hother rfl)

/-- A file on one device, told apart by its inode number. -/
def numbered (inode : Nat) : Inode := ⟨⟨1, inode, 0, 0, 0⟩, []⟩

def replaceTen : Call := ⟨(numbered 10).identity, [1]⟩

def quietSchedule : List Event :=
  [.readPath true, .prepareTemp (numbered 11).identity true true, .readTemp true, .renameExchange true,
    .readTemp true, .readPath true, .unlinkTemp true]

/-- Nobody interferes: the expected file is replaced by the new content. -/
theorem write_if_unchanged_keeps_foreign_quiet :
    ∃ s, Runs.exec (step replaceTen) (start replaceTen (some (numbered 10))) quietSchedule = some s ∧
      s.phase = .returned true true ∧ s.Swapped replaceTen := by
  refine ⟨_, rfl, rfl, ?_⟩
  exact (write_if_unchanged_keeps_foreign replaceTen (some (numbered 10)) quietSchedule _ rfl).1 true rfl

/-- Another writer replaces the path before the exchange and again after it, and the
conflict rename fails. -/
def strandedSchedule : List Event :=
  [.readPath true, .prepareTemp (numbered 11).identity true true, .readTemp true, .replacePath (numbered 12),
    .renameExchange true, .replacePath (numbered 13), .readTemp true, .readPath true,
    .renameNoReplace false false]

/-- The first of its files is then neither at the path nor under a conflict name, and
nobody took it from the path. -/
theorem displaced_file_stranded :
    ∃ s, Runs.exec (step replaceTen) (start replaceTen (some (numbered 10))) strandedSchedule = some s ∧
      s.phase = .returned false false ∧ numbered 12 ∈ s.foreign ∧ s.path ≠ some (numbered 12) ∧
      numbered 12 ∉ s.conflicts ∧ numbered 12 ∉ s.dropped ∧ s.temp = some (numbered 12) :=
  ⟨_, rfl, rfl, by decide, by decide, by decide, by decide, rfl⟩

end State
end SlsteamMoon.AtomicFile
