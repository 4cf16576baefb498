import SlsteamMoon.Provisioning.Moves

/-! A removed app: once every process has dropped it, none of them writes a file of it any more, and what a cleanup takes
away does not come back. -/
namespace SlsteamMoon.Provisioning
open KeyValues PendingProton Runs
open ProvisionTerminal (Record)

/-- The event has the app managed in the process. -/
def Event.ManagesIn (i : Nat) (a : AppId) : Event → Prop
  | .restart p managed _ => p = i ∧ a ∈ managed
  | .reload p managed _ => p = i ∧ a ∈ managed
  | .diesPublishing p _ _ managed _ => p = i ∧ a ∈ managed
  | _ => False

def Event.Manages (a : AppId) : Event → Prop
  | .start managed _ => a ∈ managed
  | e => ∃ i, e.ManagesIn i a

namespace Process
variable {P P' : Process} {p : Nat} {e : Event} {a : AppId}

/-- No token is ahead of its app, and no process manages the id zero. -/
structure Sound (P : Process) : Prop where
  behind : ∀ h ∈ P.tokens, h.token.generation ≤ P.generations h.appId
  positive : 0 ∉ P.managed

/-- The process has dropped the app: no token that it holds for it opens the gate any more. -/
structure Fenced (P : Process) (a : AppId) : Prop where
  unmanaged : a ∉ P.managed
  unneeded : a ∉ P.needProton
  stale : ∀ h ∈ P.tokens, h.appId = a → h.token.managed = false ∨ h.token.generation < P.generations a

theorem Fenced.refused (h : P.Fenced a) {held : Held} (hheld : held ∈ P.tokens) (ha : held.appId = a) :
    P.allowed held = false := by
  rw [allowed, cachePublicationAllowed, ha]
  rcases h.stale held hheld ha with hmanaged | hold
  · rw [hmanaged, Bool.false_and]
  · rw [beq_eq_false_iff_ne.mpr (Nat.ne_of_lt hold), Bool.and_false]

private theorem zero_notMem_filter (managed : Finset AppId) : 0 ∉ managed.filter (0 < ·) := fun h =>
  absurd (Finset.mem_filter.mp h).2 (by decide)

private theorem sound_fresh (managed added : Finset AppId) : (fresh managed added).Sound :=
  ⟨fun _ h => absurd h List.not_mem_nil, zero_notMem_filter managed⟩

private theorem fenced_fresh {managed : Finset AppId} (added : Finset AppId) (h : a ∉ managed) :
    (fresh managed added).Fenced a where
  unmanaged hin := h (Finset.mem_filter.mp hin).1
  unneeded := Finset.notMem_empty a
  stale _ h := absurd h List.not_mem_nil

private theorem flushInject_eq {file : ProtonMapping.ConfigFile} (h : P.flushInject file = some P') :
    ∃ flush, P' = { P with flush } := by
  rw [flushInject] at h
  split at h
  · exact ⟨_, (Option.some.inj h).symm⟩
  · exact ⟨_, (Option.some.inj h).symm⟩
  · cases h

private theorem flushLoad_eq (P : Process) (required : Finset AppId) (answers : Answers) (file : Option Bytes) :
    ∃ needProton flush, P.flushLoad required answers file = { P with needProton, flush } ∧
      ∀ a ∈ needProton, a ∈ P.needProton ∨ a ∈ P.managed := by
  have hown : ∀ a ∈ P.needProton ∪ P.managed ∩ required, a ∈ P.needProton ∨ a ∈ P.managed := fun a ha =>
    (Finset.mem_union.mp ha).imp_right fun h => (Finset.mem_inter.mp h).1
  unfold flushLoad
  dsimp only
  split
  · exact ⟨_, _, rfl, hown⟩
  split
  · refine ⟨_, _, rfl, fun a ha => ?_⟩
    rcases Finset.mem_union.mp ha with ha | ha
    · exact hown a ha
    · exact .inr (Finset.mem_inter.mp ha).2
  · exact ⟨_, _, rfl, hown⟩

private theorem markProtonNeeded_eq (P : Process) (h : Held) :
    P.markProtonNeeded h = P ∨ h.appId ∈ P.managed ∧ P.markProtonNeeded h =
      { P with pendingRemovals := P.pendingRemovals.erase h.appId, needProton := insert h.appId P.needProton } := by
  unfold markProtonNeeded
  split
  · exact .inl rfl
  · next hmanaged =>
    split
    · exact .inl rfl
    · simp only [Bool.or_eq_true, decide_eq_true_eq, not_or, not_not] at hmanaged
      exact .inr ⟨hmanaged.2, rfl⟩

theorem Sound.moves (h : P.Sound) (hmoves : P.Moves p e P') : P'.Sound := by
  obtain ⟨hbehind, hpositive⟩ := h
  cases hmoves with
  | terminal => exact ⟨hbehind, hpositive⟩
  | restart managed added => exact sound_fresh managed added
  | dies i call managed added => exact sound_fresh managed added
  | reload managed added => exact ⟨hbehind, zero_notMem_filter managed⟩
  | snapshot appId =>
    refine ⟨fun held hheld => ?_, hpositive⟩
    rcases List.mem_append.mp hheld with hheld | hheld
    · exact hbehind held hheld
    · obtain rfl := List.mem_singleton.mp hheld
      exact Nat.le_refl _
  | mark i held idle =>
    rcases P.markProtonNeeded_eq held with heq | ⟨-, heq⟩
    · rw [heq]
      exact ⟨hbehind, hpositive⟩
    · rw [heq]
      exact ⟨hbehind, hpositive⟩
  | persisted answers idle => exact ⟨hbehind, hpositive⟩
  | flushLoad required answers file idle =>
    obtain ⟨needProton, flush, heq, -⟩ := P.flushLoad_eq required answers file
    exact heq ▸ ⟨hbehind, hpositive⟩
  | flushInject file P' hinject =>
    obtain ⟨flush, rfl⟩ := flushInject_eq hinject
    exact ⟨hbehind, hpositive⟩
  | flushClear answers fileIds applied => exact ⟨hbehind, hpositive⟩
  | forgetBegin appId preserve idle =>
    refine ⟨fun held hheld => ?_, hpositive⟩
    have hold := hbehind held hheld
    show held.token.generation ≤ Function.update P.generations appId (P.generations appId + 1) held.appId
    by_cases happ : held.appId = appId
    · rw [happ, Function.update_self]
      rw [happ] at hold
      exact Nat.le_succ_of_le hold
    · rwa [Function.update_of_ne happ]
  | forgetClean cleanup forgetting hidle => exact ⟨hbehind, hpositive⟩
  | forgetEnd appId idle => exact ⟨hbehind, hpositive⟩

theorem Fenced.moves (h : P.Fenced a) (hmoves : P.Moves p e P') (hout : ¬e.ManagesIn p a) : P'.Fenced a := by
  obtain ⟨hunmanaged, hunneeded, hstale⟩ := h
  cases hmoves with
  | terminal => exact ⟨hunmanaged, hunneeded, hstale⟩
  | restart managed added => exact fenced_fresh added fun hin => hout ⟨rfl, hin⟩
  | dies i call managed added => exact fenced_fresh added fun hin => hout ⟨rfl, hin⟩
  | reload managed added =>
    exact ⟨fun hin => hout ⟨rfl, (Finset.mem_filter.mp hin).1⟩, hunneeded, hstale⟩
  | snapshot appId =>
    refine ⟨hunmanaged, hunneeded, fun held hheld happ => ?_⟩
    rcases List.mem_append.mp hheld with hheld | hheld
    · exact hstale held hheld happ
    · obtain rfl := List.mem_singleton.mp hheld
      obtain rfl : appId = a := happ
      exact .inl (decide_eq_false hunmanaged)
  | mark i held idle =>
    rcases P.markProtonNeeded_eq held with heq | ⟨hmanaged, heq⟩
    · rw [heq]
      exact ⟨hunmanaged, hunneeded, hstale⟩
    · rw [heq]
      refine ⟨hunmanaged, fun hin => ?_, hstale⟩
      rcases Finset.mem_insert.mp hin with rfl | hin
      · exact hunmanaged hmanaged
      · exact hunneeded hin
  | persisted answers idle => exact ⟨hunmanaged, hunneeded, hstale⟩
  | flushLoad required answers file idle =>
    obtain ⟨needProton, flush, heq, hneed⟩ := P.flushLoad_eq required answers file
    exact heq ▸ ⟨hunmanaged, fun hin => (hneed a hin).elim hunneeded hunmanaged, hstale⟩
  | flushInject file P' hinject =>
    obtain ⟨flush, rfl⟩ := flushInject_eq hinject
    exact ⟨hunmanaged, hunneeded, hstale⟩
  | flushClear answers fileIds applied => exact ⟨hunmanaged, hunneeded, hstale⟩
  | forgetBegin appId preserve idle =>
    refine ⟨hunmanaged, fun hin => hunneeded (Finset.mem_of_mem_erase hin), fun held hheld happ => ?_⟩
    refine (hstale held hheld happ).imp_right fun hold => Nat.lt_of_lt_of_le hold ?_
    show P.generations a ≤ Function.update P.generations appId (P.generations appId + 1) a
    by_cases hsame : a = appId
    · rw [hsame, Function.update_self]
      exact Nat.le_succ _
    · rw [Function.update_of_ne hsame]
  | forgetClean cleanup forgetting hidle => exact ⟨hunmanaged, hunneeded, hstale⟩
  | forgetEnd appId idle => exact ⟨hunmanaged, hunneeded, hstale⟩

/-- The first section of a removal puts the fence up. -/
theorem Sound.fenced_forgetBegin (h : P.Sound) (hout : a ∉ P.managed) (preserve : Bool) :
    (P.forgetBegin a preserve).Fenced a where
  unmanaged := hout
  unneeded := Finset.notMem_erase a _
  stale held hheld happ := by
    refine .inr ?_
    show held.token.generation < Function.update P.generations a (P.generations a + 1) a
    rw [Function.update_self]
    exact Nat.lt_succ_of_le (happ ▸ h.behind held hheld)

end Process

/-- The cleanup has had the lock, and no artifact is left but a marker that is to stay. What forgetAppImpl answers is true in
fewer cases: its test of a file that is missing ends in an error, and that counts as left. -/
def Cleanup.Complete (cleanup : Cleanup) (preserve : Bool) (c : AppCache) : Prop :=
  cleanup.lockAcquired = true ∧ ∀ x, c.has x = true → x = .marker ∧ preserve = true ∧ cleanup.synthesized = true

namespace System
variable {s t : System} {e : Event} {a : AppId}

/-- No process has the app, or a token that opens the gate for it. -/
def Dropped (s : System) (a : AppId) : Prop := ∀ P ∈ s.processes, P.Fenced a

def Sound (s : System) : Prop := ∀ P ∈ s.processes, P.Sound

private theorem Dropped.not_mayWrite (h : s.Dropped a) : ¬s.MayWrite a := by
  rintro ⟨P, hP, hmanaged | ⟨held, hheld, ha, hallowed⟩⟩
  · exact (h P hP).unmanaged hmanaged
  · exact absurd ((h P hP).refused hheld ha) (ne_false_of_eq_true hallowed)

theorem Sound.stepped (h : s.Sound) (hs : step s e = some t) : t.Sound := by
  refine (step_steps hs).processes.preserves h (fun managed added _ => Process.sound_fresh managed added) ?_
  intro p P P' hP hmoves
  exact (h P (List.mem_of_getElem? hP)).moves hmoves

private theorem not_managesIn (h : ¬e.Manages a) (p : Nat) : ¬e.ManagesIn p a := by
  cases e with
  | start managed added => exact id
  | _ => exact fun hin => h ⟨p, hin⟩

theorem Dropped.stepped (h : s.Dropped a) (hs : step s e = some t) (hout : ¬e.Manages a) : t.Dropped a := by
  refine (step_steps hs).processes.preserves h (fun managed added he => ?_) fun p P P' hP hmoves => ?_
  · subst he
    exact Process.fenced_fresh added hout
  · exact (h P (List.mem_of_getElem? hP)).moves hmoves (not_managesIn hout p)

/-- One process alone: what it dropped stays dropped until it has the app again. -/
theorem fencedAt_step {i : Nat} (h : ∃ P, s.processes[i]? = some P ∧ P.Fenced a) (hs : step s e = some t)
    (hout : ¬e.ManagesIn i a) : ∃ P, t.processes[i]? = some P ∧ P.Fenced a := by
  obtain ⟨Q, hQ, hfenced⟩ := h
  cases (step_steps hs).processes with
  | starts managed added he hprocesses =>
    refine ⟨Q, ?_, hfenced⟩
    rw [hprocesses, List.getElem?_append_left (List.getElem?_eq_some_iff.mp hQ).1]
    exact hQ
  | moves p P P' hP hmoves hprocesses =>
    rw [hprocesses]
    by_cases hsame : p = i
    · subst hsame
      obtain rfl := Option.some.inj (hQ.symm.trans hP)
      exact ⟨P', List.getElem?_set_self (List.getElem?_eq_some_iff.mp hQ).1, hfenced.moves hmoves hout⟩
    · exact ⟨Q, (List.getElem?_set_ne hsame).trans hQ, hfenced⟩

/-- The event takes the process away from the app: the first section of a removal, where the app is no longer managed, or
a start without it. -/
def Leaves (s : System) (i : Nat) (a : AppId) : Event → Prop
  | .forgetBegin p appId _ => p = i ∧ appId = a ∧ ∃ P, s.processes[i]? = some P ∧ a ∉ P.managed
  | .restart p managed _ => p = i ∧ a ∉ managed
  | .diesPublishing p _ _ managed _ => p = i ∧ a ∉ managed
  | .start managed _ => i = s.processes.length ∧ a ∉ managed
  | _ => False

private theorem fencedAt_of_leaves {i : Nat} (h : s.Sound) (hleaves : s.Leaves i a e) (hs : step s e = some t) :
    ∃ P, t.processes[i]? = some P ∧ P.Fenced a := by
  cases e with
  | forgetBegin p appId preserve =>
    obtain ⟨rfl, rfl, P, hP, hout⟩ := hleaves
    obtain ⟨P', hP', hs⟩ := Option.bind_eq_some_iff.mp hs
    obtain rfl := Option.some.inj (hP.symm.trans hP')
    obtain ⟨-, hs⟩ := Option.ite_none_left_eq_some.mp hs
    cases hs
    exact ⟨_, List.getElem?_set_self (List.getElem?_eq_some_iff.mp hP).1,
      (h P (List.mem_of_getElem? hP)).fenced_forgetBegin hout preserve⟩
  | restart p managed added =>
    obtain ⟨rfl, hout⟩ := hleaves
    obtain ⟨hp, hs⟩ := Option.ite_none_right_eq_some.mp hs
    cases hs
    exact ⟨_, List.getElem?_set_self hp, Process.fenced_fresh added hout⟩
  | diesPublishing p j call managed added =>
    obtain ⟨rfl, hout⟩ := hleaves
    obtain ⟨P, hP, hs⟩ := Option.bind_eq_some_iff.mp hs
    obtain ⟨held, -, hs⟩ := Option.bind_eq_some_iff.mp hs
    obtain ⟨-, hs⟩ := Option.ite_none_left_eq_some.mp hs
    obtain ⟨made, -, rfl⟩ := Option.map_eq_some_iff.mp hs
    exact ⟨_, List.getElem?_set_self (List.getElem?_eq_some_iff.mp hP).1, Process.fenced_fresh added hout⟩
  | start managed added =>
    obtain ⟨rfl, hout⟩ := hleaves
    cases hs
    exact ⟨_, List.getElem?_concat_length, Process.fenced_fresh added hout⟩
  | _ => exact hleaves.elim

/-- The last word of the run on the app in the process: it leaves it and does not have it again. -/
def LeavesIn (s : System) (i : Nat) (a : AppId) (events : List Event) : Prop :=
  ∃ before e after u, events = before ++ e :: after ∧ exec step s before = some u ∧ u.Leaves i a e ∧
    ∀ f ∈ after, ¬f.ManagesIn i a

theorem Sound.run {events : List Event} (h : s.Sound) (hrun : exec step s events = some t) : t.Sound :=
  exec_preserves (fun _ _ _ h hs => h.stepped hs) h hrun

private theorem fencedAt_of_leavesIn {i : Nat} {events : List Event} (h : s.Sound) (hleaves : s.LeavesIn i a events)
    (hrun : exec step s events = some t) : ∃ P, t.processes[i]? = some P ∧ P.Fenced a := by
  obtain ⟨before, e, after, u, rfl, hu, hleaves, hout⟩ := hleaves
  rw [exec_append, hu, Option.bind_some, exec_cons] at hrun
  obtain ⟨v, hv, hrun⟩ := Option.bind_eq_some_iff.mp hrun
  have hkeeps : Meets step (fun _ f => ¬f.ManagesIn i a) v after := meets_of_forall (fun f hf _ => hout f hf) v
  exact exec_invariant (fun _ _ _ h hok hs => fencedAt_step h hs hok) (fencedAt_of_leaves (h.run hu) hleaves hv) hkeeps hrun

private theorem dropped_of_leavesIn {events : List Event} (h : s.Sound) (hrun : exec step s events = some t)
    (hleaves : ∀ i < t.processes.length, s.LeavesIn i a events) : t.Dropped a := by
  intro P hP
  obtain ⟨i, hi, rfl⟩ := List.getElem_of_mem hP
  obtain ⟨Q, hQ, hfenced⟩ := fencedAt_of_leavesIn h (hleaves i hi) hrun
  obtain rfl := Option.some.inj ((List.getElem?_eq_getElem hi).symm.trans hQ)
  exact hfenced

/-- No process that has dropped the app puts a file of it in place. -/
theorem Dropped.has_step (h : s.Dropped a) (hs : step s e = some t) {x : Artifact} (hx : (t.cache a).has x = true) :
    (s.cache a).has x = true := by
  cases (step_steps hs).cache with
  | same hcache => exact hcache ▸ hx
  | writes appId c hmay hcache =>
    have hne : a ≠ appId := fun hsame => h.not_mayWrite (hsame ▸ hmay)
    rw [hcache, Function.update_of_ne hne] at hx
    exact hx
  | takes appId c hless hcache =>
    rw [hcache] at hx
    by_cases hsame : a = appId
    · subst hsame
      rw [Function.update_self] at hx
      exact hless x hx
    · rw [Function.update_of_ne hsame] at hx
      exact hx

/-- No process that has dropped the app puts it back on the list. -/
theorem Dropped.listed_step (h : s.Dropped a) (hsound : s.Sound) (hs : step s e = some t) (ha : a ∈ listed t.pending) :
    a ∈ listed s.pending := by
  cases (step_steps hs).pending with
  | same hpending => exact hpending ▸ ha
  | persists P answers hP hpending =>
    rw [hpending] at ha
    rcases listed_persist (hsound P hP).positive answers s.pending with hlisted | hlisted
    · exact hlisted ▸ ha
    · rw [hlisted] at ha
      have hmanaged : a ∈ P.managed := by
        rcases Finset.mem_union.mp (Finset.mem_sdiff.mp ha).1 with hin | hin
        · exact (Finset.mem_inter.mp hin).2
        · exact (Finset.mem_inter.mp hin).2
      exact absurd hmanaged (h P hP).unmanaged
  | clears P answers fileIds hP applied hpending =>
    rw [hpending] at ha
    rcases listed_clear fileIds answers s.pending with hlisted | ⟨-, hlisted⟩
    · exact hlisted ▸ ha
    · exact absurd (hlisted ▸ ha) (Finset.notMem_empty a)
  | removes P answers appId preserve hP begun hpending =>
    rw [hpending] at ha
    rcases (listed_remove appId answers s.pending).1 with hlisted | hlisted
    · exact hlisted ▸ ha
    · exact Finset.mem_of_mem_erase (hlisted ▸ ha)

/-- Nothing is left of an app that has been dropped, where nothing was left before. -/
structure Lasts (a : AppId) (m s : System) : Prop where
  sound : s.Sound
  dropped : s.Dropped a
  has : ∀ x, (s.cache a).has x = true → (m.cache a).has x = true
  listed : a ∈ listed s.pending → a ∈ listed m.pending

theorem Lasts.run {m : System} {later : List Event} (hsound : m.Sound) (hdropped : m.Dropped a)
    (hlater : exec step m later = some t) (hout : ∀ e ∈ later, ¬e.Manages a) : Lasts a m t := by
  have hkeeps : Meets step (fun _ e => ¬e.Manages a) m later := meets_of_forall (fun e he _ => hout e he) m
  have hstart : Lasts a m m := ⟨hsound, hdropped, fun _ hx => hx, fun h => h⟩
  refine exec_invariant (fun s e t h hok hs => ?_) hstart hkeeps hlater
  exact ⟨h.sound.stepped hs, h.dropped.stepped hs hok, fun x hx => h.has x (h.dropped.has_step hs hx),
    fun hin => h.listed (h.dropped.listed_step h.sound hs hin)⟩

private theorem notMem_listed_forgetClean {p : Nat} {P : Process} {preserve : Bool} {cleanup : Cleanup}
    (hlock : cleanup.lockAcquired = true) (h : (removePendingProtonMappingLocked a cleanup.pending s.pending).2 = true) :
    a ∉ listed (s.forgetClean p P a preserve cleanup).pending := by
  rw [forgetClean, hlock]
  exact (listed_remove a cleanup.pending s.pending).2 h

/-- Once every process has dropped an app and a cleanup has left nothing of it, none of its files is there again, nor is its
pending mapping once it is out, whatever the threads with tokens of before still publish. -/
theorem forgotten_app_stays_gone {m c : System} {events later : List Event} {p : Nat} {P : Process} {preserve : Bool}
    {cleanup : Cleanup} (hsound : s.Sound) (hrun : exec step s events = some m)
    (hleft : ∀ i < m.processes.length, s.LeavesIn i a events) (hP : m.processes[p]? = some P)
    (hbegun : P.forgetting = .begun a preserve) (hclean : step m (.forgetClean p cleanup) = some c)
    (hcomplete : cleanup.Complete preserve (c.cache a)) (hlater : exec step c later = some t)
    (hnot : ∀ e ∈ later, ¬e.Manages a) :
    (∀ x, (t.cache a).has x = true → x = .marker ∧ preserve = true ∧ cleanup.synthesized = true) ∧
      ((removePendingProtonMappingLocked a cleanup.pending m.pending).2 = true → a ∉ listed t.pending) ∧
      ∀ Q ∈ t.processes, a ∉ Q.needProton ∧ ∀ h ∈ Q.tokens, h.appId = a → Q.allowed h = false := by
  have hmdropped := dropped_of_leavesIn hsound hrun hleft
  have hkeeps : ¬(Event.forgetClean p cleanup).Manages a := fun ⟨_, h⟩ => h
  have hlasts := Lasts.run ((hsound.run hrun).stepped hclean) (hmdropped.stepped hclean hkeeps) hlater hnot
  obtain ⟨P', hP', hc⟩ := Option.bind_eq_some_iff.mp hclean
  obtain rfl := Option.some.inj (hP.symm.trans hP')
  rw [hbegun] at hc
  obtain rfl := Option.some.inj hc
  obtain ⟨hlock, hgone⟩ := hcomplete
  refine ⟨fun x hx => hgone x (hlasts.has x hx), fun hremoved hin => ?_, fun Q hQ => ?_⟩
  · exact notMem_listed_forgetClean hlock hremoved (hlasts.listed hin)
  · have hfenced := hlasts.dropped Q hQ
    exact ⟨hfenced.unneeded, fun h hh ha => hfenced.refused hh ha⟩

/-- A cached app whose worker still has its token when the app goes. -/
def cachedApp : System where
  processes := [.fresh {5} {5}]
  cache _ := ⟨⟨fun _ => some [], fun _ => none, false, false, false⟩, none⟩
  pending := none

def removalRun : List Event := [.snapshotCachePublication 0 5, .reload 0 ∅ ∅, .forgetBegin 0 5 false]

def wholeCleanup : Cleanup where
  lockAcquired := true
  terminalErased := true
  synthesized := false
  pending := ⟨true, true, true⟩
  moved _ := true

def latePublication : List Event := [.persistBuffer 0 0 ⟨true, List.replicate 20 0, [1], [2], false, []⟩]

def ran (s : System) (events : List Event) : System := (exec step s events).getD s

theorem late_publication_refused :
    ((((cachedApp.ran removalRun).ran [.forgetClean 0 wholeCleanup]).ran latePublication).cache 5).has (.member .buffer) =
        false ∧
      5 ∉ listed (((cachedApp.ran removalRun).ran [.forgetClean 0 wholeCleanup]).ran latePublication).pending := by
  have hsound : cachedApp.Sound := fun P hP => by
    obtain rfl := List.mem_singleton.mp hP
    exact Process.sound_fresh {5} {5}
  have hrun : exec step cachedApp removalRun = some (cachedApp.ran removalRun) := rfl
  have hleft : ∀ i < (cachedApp.ran removalRun).processes.length, cachedApp.LeavesIn i 5 removalRun := by
    intro i hi
    obtain rfl : i = 0 := Nat.lt_one_iff.mp hi
    exact ⟨[.snapshotCachePublication 0 5, .reload 0 ∅ ∅], .forgetBegin 0 5 false, [], _, rfl, rfl,
      ⟨rfl, rfl, _, rfl, Finset.notMem_empty 5⟩, fun _ h => absurd h List.not_mem_nil⟩
  have hclean : step (cachedApp.ran removalRun) (.forgetClean 0 wholeCleanup) =
      some ((cachedApp.ran removalRun).ran [.forgetClean 0 wholeCleanup]) := rfl
  have hlater : exec step ((cachedApp.ran removalRun).ran [.forgetClean 0 wholeCleanup]) latePublication =
      some (((cachedApp.ran removalRun).ran [.forgetClean 0 wholeCleanup]).ran latePublication) := rfl
  have hnot : ∀ e ∈ latePublication, ¬e.Manages 5 := by
    intro e he
    obtain rfl := List.mem_singleton.mp he
    exact fun ⟨_, h⟩ => h
  have hcomplete :
      wholeCleanup.Complete false (((cachedApp.ran removalRun).ran [.forgetClean 0 wholeCleanup]).cache 5) := by
    refine ⟨rfl, fun x hx => ?_⟩
    cases x <;> cases hx
  obtain ⟨hfiles, hpending, -⟩ := forgotten_app_stays_gone hsound hrun hleft rfl rfl hclean hcomplete hlater hnot
  exact ⟨Bool.eq_false_iff.mpr fun h => absurd (hfiles _ h).1 (by decide), hpending rfl⟩

end System
end SlsteamMoon.Provisioning
