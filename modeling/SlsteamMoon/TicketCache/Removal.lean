import SlsteamMoon.TicketCache.Machine

/-! Removed apps keep no ticket. All that is shared changes under the mutex, and what a
thread is about to write or to return it has looked for among the tombstones under the same
hold of the mutex. -/
namespace SlsteamMoon.TicketCache
open Runs

/-- The thread has found no tombstone for the app since it took the mutex, and goes on with
it. -/
def Phase.Cleared (a : AppId) : Phase → Prop
  | .passed call | .missed call | .loaded call _ | .opened call _ | .written call _ => call.appId = a
  | .leaving call (.ticket ticket) => call.appId = a ∧ ticket ≠ {}
  | _ => False

theorem Phase.Cleared.inside {a : AppId} {phase : Phase} (h : phase.Cleared a) : phase.inside = true := by
  cases phase <;> first | rfl | cases h

/-- The effect on the tombstones has taken place. -/
def Stage.applied : Stage → Bool
  | .next | .locked => false
  | _ => true

namespace Watch

def inside : Watch → Bool
  | .forgetting _ _ _ stage | .restoring _ _ _ stage => decide (stage ≠ .next)
  | _ => false

/-- What the maps have lost for the app that is being forgotten. -/
def Cleaned (T : Finset AppId) (maps : Cache → AppId → Option SavedTicket) : Watch → Prop
  | .forgetting _ _ (appId :: _) .inserted => appId ∈ T
  | .forgetting _ _ (appId :: _) .erased => appId ∈ T ∧ maps .plain appId = none
  | .forgetting _ _ (appId :: _) .done => appId ∈ T ∧ ∀ cache, maps cache appId = none
  | _ => True

/-- The tombstones at each point of a reload. -/
def Tombs (T : Finset AppId) (ever added : List AppId) : Watch → Prop
  | .idle => added ⊆ ever ∧ ∀ a, a ∈ T ↔ a ≠ 0 ∧ a ∈ ever ∧ a ∉ added
  | .loading before => before = added ∧ added ⊆ ever ∧ ∀ a, a ∈ T ↔ a ≠ 0 ∧ a ∈ ever ∧ a ∉ added
  | .forgetting before after todo stage => after = added ∧ before ⊆ ever ∧
      ∃ done, removedAppIds before after = done ++ todo ∧
        ∀ a, a ∈ T ↔ a ≠ 0 ∧
          ((a ∈ ever ∧ a ∉ before) ∨ a ∈ done ∨ (stage.applied = true ∧ todo.head? = some a))
  | .restoring before after todo stage => after = added ∧ before ⊆ ever ∧
      ∃ done, (after.filter fun appId => appId ∉ before) = done ++ todo ∧
        ∀ a, a ∈ T ↔ a ≠ 0 ∧ ((a ∈ ever ∧ a ∉ before) ∨ (a ∈ before ∧ a ∉ after)) ∧ a ∉ done ∧
          ¬(stage.applied = true ∧ todo.head? = some a)

/-- Only other apps than 0 are forgotten and restored under the mutex. -/
def Proper : Watch → Prop
  | .forgetting _ _ todo stage | .restoring _ _ todo stage => stage ≠ .next → ∃ appId ∈ todo.head?, appId ≠ 0
  | _ => True

/-- Nothing has to be clean between two calls. -/
theorem cleaned_next {T : Finset AppId} {maps : Cache → AppId → Option SavedTicket} (before after todo : List AppId) :
    (forgetting before after todo .next).Cleaned T maps := by
  cases todo <;> trivial

/-- The maps may change for apps without a tombstone. -/
theorem Cleaned.mono {T : Finset AppId} {maps maps' : Cache → AppId → Option SavedTicket} {watch : Watch}
    (h : watch.Cleaned T maps) (hsame : ∀ cache, ∀ a ∈ T, maps' cache a = maps cache a) : watch.Cleaned T maps' := by
  cases watch with
  | forgetting before after todo stage =>
    cases todo with
    | nil => trivial
    | cons appId todo =>
      cases stage with
      | next => trivial
      | locked => trivial
      | inserted => exact h
      | erased => exact ⟨h.1, (hsame .plain appId h.1).trans h.2⟩
      | done => exact ⟨h.1, fun cache => (hsame cache appId h.1).trans (h.2 cache)⟩
  | _ => trivial

end Watch

namespace Machine

/-- What holds between two steps. -/
structure Sound (m : Machine) : Prop where
  threads : ∀ n, (m.threads n).inside = true ↔ m.cacheMutex = some (.thread n)
  watcher : m.watch.inside = true ↔ m.cacheMutex = some .watcher
  cleared : ∀ n a, (m.threads n).Cleared a → a ∉ m.invalidatedApps
  cleaned : m.watch.Cleaned m.invalidatedApps m.maps
  proper : m.watch.Proper
  tombs : m.watch.Tombs m.invalidatedApps m.ever m.addedAppIds
  gone : ∀ a ≠ 0, Gone m.trace a → a ∈ m.invalidatedApps ∧ ∀ cache, m.maps cache a = none
  never : ∀ a ≠ 0, Never Takes m.trace a

/-- What a step of a thread can do: the mutex is kept, taken or given back; a map changes
only for an app that the thread has cleared, and so does what is seen. -/
structure Acts (m : Machine) (n : Nat) (t : Machine) : Prop where
  tombstones : t.invalidatedApps = m.invalidatedApps
  watch : t.watch = m.watch
  ever : t.ever = m.ever
  added : t.addedAppIds = m.addedAppIds
  phase : ∃ phase, t.threads = Function.update m.threads n phase ∧
    (((m.threads n).inside = phase.inside ∧ t.cacheMutex = m.cacheMutex) ∨
      (phase.inside = true ∧ m.cacheMutex = none ∧ t.cacheMutex = some (.thread n)) ∨
      ((m.threads n).inside = true ∧ phase.inside = false ∧ t.cacheMutex = none)) ∧
    ∀ a, phase.Cleared a → (m.threads n).Cleared a ∨ a ∉ m.invalidatedApps
  maps : ∀ cache a, t.maps cache a = m.maps cache a ∨ (m.threads n).Cleared a
  trace : t.trace = m.trace ∨ ∃ action, t.trace = action :: m.trace ∧
    (∀ older a, Gone (action :: older) a = Gone older a) ∧ ∀ a, Takes a action → (m.threads n).Cleared a

section
variable {m t : Machine} {n : Nat}

/-- A step that only moves the thread, inside the mutex or outside. -/
theorem acts_of_goes {phase : Phase} (hinside : (m.threads n).inside = phase.inside)
    (hcleared : ∀ a, phase.Cleared a → (m.threads n).Cleared a ∨ a ∉ m.invalidatedApps) :
    m.Acts n (m.goes n phase) where
  tombstones := rfl
  watch := rfl
  ever := rfl
  added := rfl
  phase := ⟨phase, rfl, .inl ⟨hinside, rfl⟩, hcleared⟩
  maps _ _ := .inl rfl
  trace := .inl rfl

/-- The publication of a ticket. -/
theorem acts_of_publish {phase : Phase} {call : Call} {ticket : SavedTicket}
    (hcall : (m.threads n).Cleared call.appId) (hinside : phase.inside = true)
    (hcleared : ∀ a, phase.Cleared a → (m.threads n).Cleared a) :
    m.Acts n ((m.setMap call.cache call.appId (some ticket)).goes n phase) where
  tombstones := rfl
  watch := rfl
  ever := rfl
  added := rfl
  phase := ⟨phase, rfl, .inl ⟨hcall.inside.trans hinside.symm, rfl⟩, fun a ha => .inl (hcleared a ha)⟩
  maps cache a := by
    by_cases ha : a = call.appId
    · exact .inr (ha ▸ hcall)
    · left
      show Function.update m.maps call.cache _ cache a = m.maps cache a
      by_cases hcache : cache = call.cache
      · rw [hcache, Function.update_self, Function.update_of_ne ha]
      · rw [Function.update_of_ne hcache]
  trace := .inl rfl

theorem act_acts {act : Act} (h : m.act n (m.threads n) act = some t) : m.Acts n t := by
  unfold Machine.act at h
  split at h
  · next call hphase =>
    cases h
    exact acts_of_goes (by rw [hphase]; rfl) (fun a ha => ha.elim)
  · next appId hphase =>
    cases h
    exact acts_of_goes (by rw [hphase]; rfl) (fun a ha => ha.elim)
  · next call hphase =>
    obtain ⟨hfree, h⟩ := Option.ite_none_right_eq_some.mp h
    cases h
    exact ⟨rfl, rfl, rfl, rfl, ⟨_, rfl, .inr (.inl ⟨rfl, hfree, rfl⟩), fun a ha => ha.elim⟩, fun _ _ => .inl rfl, .inl rfl⟩
  · next call hphase =>
    cases h
    split_ifs with hgone
    · refine acts_of_goes (by rw [hphase]; rfl) (fun a ha => ?_)
      cases hjob : call.job with
      | get =>
        rw [hjob] at ha
        exact absurd rfl ha.2
      | save bytes =>
        rw [hjob] at ha
        exact ha.elim
    · refine acts_of_goes (by rw [hphase]; rfl) (fun a ha => .inr ?_)
      rwa [← show call.appId = a from ha]
  · next cache appId hphase =>
    split at h <;> cases h
    · exact acts_of_goes (by rw [hphase]; rfl) (fun a ha => .inl (by rw [hphase]; exact ha.1))
    · exact acts_of_goes (by rw [hphase]; rfl) (fun a ha => .inl (by rw [hphase]; exact ha))
  · next call hphase =>
    cases h
    exact acts_of_goes (by rw [hphase]; rfl) (fun a ha => absurd rfl ha.2)
  · next call ticket hphase =>
    cases h
    exact acts_of_goes (by rw [hphase]; rfl) (fun a ha => .inl (by rw [hphase]; exact ha))
  · next call ticket steamId hphase =>
    cases h
    exact acts_of_publish (by rw [hphase]; rfl) rfl (fun a ha => by rw [hphase]; exact ha.1)
  · next cache appId bytes opened hphase =>
    split_ifs at h <;> cases h
    · refine ⟨rfl, rfl, rfl, rfl, ⟨_, rfl, .inl ⟨by rw [hphase]; rfl, rfl⟩, fun a ha => .inl (by rw [hphase]; exact ha)⟩,
        fun _ _ => .inl rfl, .inr ⟨.wrote cache appId, rfl, fun _ _ => rfl, fun a ha => ?_⟩⟩
      rw [hphase]
      exact ha
    · exact acts_of_goes (by rw [hphase]; rfl) (fun a ha => ha.elim)
  · next call bytes good hphase =>
    cases h
    cases good
    · exact acts_of_goes (by rw [hphase]; rfl) (fun a ha => ha.elim)
    · exact acts_of_goes (by rw [hphase]; rfl) (fun a ha => .inl (by rw [hphase]; exact ha))
  · next call bytes steamId hphase =>
    cases h
    exact acts_of_publish (by rw [hphase]; rfl) rfl (fun a ha => ha.elim)
  · next call result hphase =>
    cases h
    refine ⟨rfl, rfl, rfl, rfl, ⟨_, rfl, .inr (.inr ⟨by rw [hphase]; rfl, rfl, rfl⟩), fun a ha => ha.elim⟩,
      fun _ _ => .inl rfl, .inr ⟨.left call result, rfl, fun _ _ => rfl, fun a ha => ?_⟩⟩
    rw [hphase]
    cases result with
    | ticket ticket => exact ha
    | saved done => exact ha.elim
  · next call result hphase =>
    cases h
    exact ⟨rfl, rfl, rfl, rfl, ⟨_, rfl, .inl ⟨by rw [hphase]; rfl, rfl⟩, fun a ha => ha.elim⟩, fun _ _ => .inl rfl,
      .inr ⟨.returned call result, rfl, fun _ _ => rfl, fun a ha => ha.elim⟩⟩
  · next phase _ =>
    obtain ⟨hinside, h⟩ := Option.ite_none_right_eq_some.mp h
    cases h
    exact ⟨rfl, rfl, rfl, rfl, ⟨_, rfl, .inr (.inr ⟨hinside, rfl, rfl⟩), fun a ha => ha.elim⟩, fun _ _ => .inl rfl,
      .inl rfl⟩
  · cases h

private theorem thread_sound (h : m.Sound) (hacts : m.Acts n t) : t.Sound := by
  obtain ⟨htombstones, hwatch, hever, hadded, ⟨phase, hthreads, hmutex, hcleared⟩, hmaps, htrace⟩ := hacts
  have hfresh {a : AppId} (ha : a ∈ m.invalidatedApps) (cache : Cache) : t.maps cache a = m.maps cache a :=
    (hmaps cache a).resolve_right fun hc => h.cleared n a hc ha
  have hmine := h.threads n
  exact
    { threads := fun k => by
        rw [hthreads]
        by_cases hk : k = n
        · subst hk
          rw [Function.update_self]
          obtain ⟨hinside, hkept⟩ | ⟨hinside, -, htaken⟩ | ⟨-, hinside, hfree⟩ := hmutex
          · rw [← hinside, hkept]
            exact hmine
          · simp [hinside, htaken]
          · simp [hinside, hfree]
        · have hother := h.threads k
          rw [Function.update_of_ne hk]
          obtain ⟨-, hkept⟩ | ⟨-, hbefore, htaken⟩ | ⟨hheld, -, hfree⟩ := hmutex
          · rw [hkept]
            exact hother
          · rw [hother, hbefore, htaken]
            simp [Ne.symm hk]
          · rw [hother, hmine.mp hheld, hfree]
            simp [Ne.symm hk]
      watcher := by
        rw [hwatch, h.watcher]
        obtain ⟨-, hkept⟩ | ⟨-, hbefore, htaken⟩ | ⟨hheld, -, hfree⟩ := hmutex
        · rw [hkept]
        · simp [hbefore, htaken]
        · simp [hmine.mp hheld, hfree]
      cleared := fun k a hk => by
        rw [htombstones]
        rw [hthreads] at hk
        by_cases hkn : k = n
        · rw [hkn, Function.update_self] at hk
          exact (hcleared a hk).elim (h.cleared n a) id
        · rw [Function.update_of_ne hkn] at hk
          exact h.cleared k a hk
      cleaned := by
        rw [hwatch, htombstones]
        exact h.cleaned.mono fun cache a ha => hfresh ha cache
      proper := hwatch ▸ h.proper
      tombs := by
        rw [hwatch, htombstones, hever, hadded]
        exact h.tombs
      gone := fun a ha hgone => by
        have hbefore : Gone m.trace a := by
          obtain htrace | ⟨action, htrace, hsame, -⟩ := htrace
          · rwa [← htrace]
          · rwa [← hsame, ← htrace]
        obtain ⟨hmem, hnone⟩ := h.gone a ha hbefore
        rw [htombstones]
        exact ⟨hmem, fun cache => (hfresh hmem cache).trans (hnone cache)⟩
      never := fun a ha => by
        obtain htrace | ⟨action, htrace, -, htakes⟩ := htrace
        · rw [htrace]
          exact h.never a ha
        · rw [htrace]
          exact ⟨fun hgone hkind => h.cleared n a (htakes a hkind) (h.gone a ha hgone).1, h.never a ha⟩ }

/-- The mutex is free or the watcher has it. -/
def Unheld (m : Machine) : Prop := ∀ n, m.cacheMutex ≠ some (.thread n)

private theorem unheld_of_none (h : m.cacheMutex = none) : m.Unheld := fun n hn => by
  rw [h] at hn
  cases hn

private theorem unheld_of_watcher (h : m.cacheMutex = some .watcher) : m.Unheld := fun n hn => by
  cases h.symm.trans hn

private theorem inside_of_unheld (h : m.Sound) (hunheld : m.Unheld) (n : Nat) : (m.threads n).inside = false :=
  eq_false_of_ne_true fun hinside => hunheld n ((h.threads n).mp hinside)

private theorem setMap_none (m : Machine) (cache : Cache) (appId : AppId) :
    (m.setMap cache appId none).maps cache appId = none := by
  simp only [setMap, Function.update_self]

/-- What is erased leaves no new entry. -/
theorem setMap_keeps_none (m : Machine) (cache : Cache) (appId : AppId) {other : Cache} {a : AppId}
    (h : m.maps other a = none) : (m.setMap cache appId none).maps other a = none := by
  simp only [setMap]
  by_cases hcache : other = cache
  · rw [hcache, Function.update_self]
    by_cases ha : a = appId
    · rw [ha, Function.update_self]
    · rw [Function.update_of_ne ha, ← hcache]
      exact h
  · rw [Function.update_of_ne hcache]
    exact h

/-- What the watcher does beside the threads. -/
theorem Sound.watched (h : m.Sound) (hthreads : t.threads = m.threads)
    (hmutex : t.cacheMutex = m.cacheMutex ∨ (m.Unheld ∧ t.Unheld))
    (htombstones : t.invalidatedApps = m.invalidatedApps ∨ m.Unheld)
    (hwatcher : t.watch.inside = true ↔ t.cacheMutex = some .watcher)
    (hcleaned : t.watch.Cleaned t.invalidatedApps t.maps) (hproper : t.watch.Proper)
    (htombs : t.watch.Tombs t.invalidatedApps t.ever t.addedAppIds)
    (hgone : ∀ a ≠ 0, Gone t.trace a → a ∈ t.invalidatedApps ∧ ∀ cache, t.maps cache a = none)
    (hnever : ∀ a ≠ 0, Never Takes t.trace a) : t.Sound where
  threads n := by
    rw [hthreads]
    obtain hmutex | ⟨hbefore, hafter⟩ := hmutex
    · rw [hmutex]
      exact h.threads n
    · rw [inside_of_unheld h hbefore n]
      exact iff_of_false Bool.false_ne_true (hafter n)
  watcher := hwatcher
  cleared n a hn := by
    rw [hthreads] at hn
    obtain htombstones | hunheld := htombstones
    · rw [htombstones]
      exact h.cleared n a hn
    · have hinside := hn.inside
      rw [inside_of_unheld h hunheld n] at hinside
      cases hinside
  cleaned := hcleaned
  proper := hproper
  tombs := htombs
  gone := hgone
  never := hnever

private theorem mem_removedAppIds {before after : List AppId} {a : AppId} :
    a ∈ removedAppIds before after ↔ a ∈ before ∧ a ∉ after := by
  simp [removedAppIds, List.mem_filter]

variable {before after todo : List AppId} {appId : AppId} {stage : Stage}

private theorem forget_sound (h : m.Sound) (hwatch : m.watch = .forgetting before after (appId :: todo) stage)
    (hstep : m.forget before after appId todo stage = some t) : t.Sound := by
  have hwatcher := h.watcher
  have hcleaned := h.cleaned
  have hproper := h.proper
  have htombs := h.tombs
  have hheld (hnext : stage ≠ .next) : m.cacheMutex = some .watcher :=
    hwatcher.mp (by rw [hwatch]; exact decide_eq_true hnext)
  rw [hwatch] at hcleaned hproper htombs hwatcher
  obtain ⟨hafter, hbefore, done, hdone, hmem⟩ := htombs
  have hdone' : removedAppIds before after = (done ++ [appId]) ++ todo := by rw [hdone, List.append_assoc]; rfl
  cases stage with
  | next =>
    rw [forget] at hstep
    split_ifs at hstep with hzero hfree
    · cases hstep
      refine h.watched rfl (.inl rfl) (.inl rfl) hwatcher (Watch.cleaned_next _ _ _) (fun hnext => absurd rfl hnext)
        ⟨hafter, hbefore, done ++ [appId], hdone', fun a => ?_⟩ (fun a ha hgone => ?_)
        (fun a ha => ⟨fun _ => id, h.never a ha⟩)
      · show a ∈ m.invalidatedApps ↔ _
        rw [hmem a, hzero]
        refine and_congr_right fun ha => ?_
        simp [ha, Stage.applied, sees]
      · exact h.gone a ha (hgone.resolve_left ha)
    · cases hstep
      refine h.watched rfl (.inr ⟨unheld_of_none hfree, unheld_of_watcher rfl⟩) (.inl rfl)
        (iff_of_true rfl rfl) trivial (fun _ => ⟨appId, rfl, hzero⟩) ⟨hafter, hbefore, done, hdone, ?_⟩ h.gone h.never
      exact hmem
  | locked =>
    have hunheld := unheld_of_watcher (hheld (by decide))
    obtain ⟨_, hhead, hzero⟩ := hproper (by decide)
    cases hhead
    cases hstep
    refine h.watched rfl (.inl rfl) (.inr hunheld) hwatcher (Finset.mem_insert_self _ _) (fun _ => ⟨appId, rfl, hzero⟩)
      ⟨hafter, hbefore, done, hdone, fun a => ?_⟩ (fun a ha hgone => ?_) h.never
    · show a ∈ insert appId m.invalidatedApps ↔ _
      rw [Finset.mem_insert, hmem a]
      simp only [Stage.applied, Bool.false_eq_true, false_and, or_false, true_and, List.head?_cons, Option.some.injEq]
      constructor
      · rintro (rfl | ⟨ha, hcases⟩)
        · exact ⟨hzero, .inr (.inr rfl)⟩
        · exact ⟨ha, hcases.imp_right .inl⟩
      · rintro ⟨ha, hever | hmem | rfl⟩
        · exact .inr ⟨ha, .inl hever⟩
        · exact .inr ⟨ha, .inr hmem⟩
        · exact .inl rfl
    · obtain ⟨hin, hnone⟩ := h.gone a ha hgone
      exact ⟨Finset.mem_insert_of_mem hin, hnone⟩
  | inserted =>
    cases hstep
    refine h.watched rfl (.inl rfl) (.inl rfl) hwatcher ⟨hcleaned, ?_⟩ (fun _ => hproper (by decide))
      ⟨hafter, hbefore, done, hdone, hmem⟩ (fun a ha hgone => ?_) h.never
    · exact setMap_none m .plain appId
    · obtain ⟨hin, hnone⟩ := h.gone a ha hgone
      exact ⟨hin, fun cache => setMap_keeps_none m .plain appId (hnone cache)⟩
  | erased =>
    cases hstep
    refine h.watched rfl (.inl rfl) (.inl rfl) hwatcher ⟨hcleaned.1, fun cache => ?_⟩ (fun _ => hproper (by decide))
      ⟨hafter, hbefore, done, hdone, hmem⟩ (fun a ha hgone => ?_) h.never
    · cases cache with
      | plain => exact setMap_keeps_none m .encrypted appId hcleaned.2
      | encrypted => exact setMap_none m .encrypted appId
    · obtain ⟨hin, hnone⟩ := h.gone a ha hgone
      exact ⟨hin, fun cache => setMap_keeps_none m .encrypted appId (hnone cache)⟩
  | done =>
    have hunheld := unheld_of_watcher (hheld (by decide))
    cases hstep
    refine h.watched rfl (.inr ⟨hunheld, unheld_of_none rfl⟩) (.inl rfl)
      (iff_of_false Bool.false_ne_true (fun hn => by cases hn)) (Watch.cleaned_next _ _ _) (fun hnext => absurd rfl hnext)
      ⟨hafter, hbefore, done ++ [appId], hdone', fun a => ?_⟩ (fun a ha hgone => ?_)
      (fun a ha => ⟨fun _ => id, h.never a ha⟩)
    · show a ∈ m.invalidatedApps ↔ _
      rw [hmem a]
      simp only [Stage.applied, true_and, List.head?_cons, Option.some.injEq, List.mem_append, List.mem_singleton,
        Bool.false_eq_true, false_and, or_false, eq_comm (a := appId), sees]
    · obtain rfl | hgone := hgone
      · exact hcleaned
      · exact h.gone a ha hgone

private theorem restore_sound (h : m.Sound) (hwatch : m.watch = .restoring before after (appId :: todo) stage)
    (hstep : m.restore before after appId todo stage = some t) : t.Sound := by
  have hwatcher := h.watcher
  have hproper := h.proper
  have htombs := h.tombs
  have hheld (hnext : stage ≠ .next) : m.cacheMutex = some .watcher :=
    hwatcher.mp (by rw [hwatch]; exact decide_eq_true hnext)
  rw [hwatch] at hproper htombs hwatcher
  obtain ⟨hafter, hbefore, done, hdone, hmem⟩ := htombs
  have hdone' : (after.filter fun appId => appId ∉ before) = (done ++ [appId]) ++ todo := by
    rw [hdone, List.append_assoc]
    rfl
  cases stage with
  | next =>
    rw [restore] at hstep
    split_ifs at hstep with hzero hfree
    · cases hstep
      refine h.watched rfl (.inl rfl) (.inl rfl) hwatcher trivial (fun hnext => absurd rfl hnext)
        ⟨hafter, hbefore, done ++ [appId], hdone', fun a => ?_⟩ (fun a ha hgone => h.gone a ha hgone.2)
        (fun a ha => ⟨fun _ => id, h.never a ha⟩)
      show a ∈ m.invalidatedApps ↔ _
      rw [hmem a, hzero]
      refine and_congr_right fun ha => ?_
      simp [ha, Stage.applied, sees]
    · cases hstep
      refine h.watched rfl (.inr ⟨unheld_of_none hfree, unheld_of_watcher rfl⟩) (.inl rfl)
        (iff_of_true rfl rfl) trivial (fun _ => ⟨appId, rfl, hzero⟩) ⟨hafter, hbefore, done, hdone, ?_⟩ h.gone h.never
      exact hmem
  | locked =>
    have hunheld := unheld_of_watcher (hheld (by decide))
    cases hstep
    refine h.watched rfl (.inl rfl) (.inr hunheld) hwatcher trivial (fun _ => hproper (by decide))
      ⟨hafter, hbefore, done, hdone, fun a => ?_⟩ (fun a ha hgone => ?_) (fun a ha => ⟨fun _ => id, h.never a ha⟩)
    · show a ∈ m.invalidatedApps.erase appId ↔ _
      rw [Finset.mem_erase, hmem a]
      simp only [Stage.applied, sees, Bool.false_eq_true, false_and, not_false_eq_true, and_true, true_and,
        List.head?_cons, Option.some.injEq, eq_comm (a := appId)]
      tauto
    · obtain ⟨hin, hnone⟩ := h.gone a ha hgone.2
      exact ⟨Finset.mem_erase.mpr ⟨hgone.1, hin⟩, hnone⟩
  | done =>
    have hunheld := unheld_of_watcher (hheld (by decide))
    cases hstep
    refine h.watched rfl (.inr ⟨hunheld, unheld_of_none rfl⟩) (.inl rfl)
      (iff_of_false Bool.false_ne_true (fun hn => by cases hn)) trivial (fun hnext => absurd rfl hnext)
      ⟨hafter, hbefore, done ++ [appId], hdone', fun a => ?_⟩ h.gone h.never
    show a ∈ m.invalidatedApps ↔ _
    rw [hmem a]
    simp only [Stage.applied, true_and, List.head?_cons, Option.some.injEq, List.mem_append, List.mem_singleton,
      Bool.false_eq_true, false_and, not_false_eq_true, and_true, not_or, eq_comm (a := appId)]
  | inserted => cases hstep
  | erased => cases hstep

/-- The apps that have left are all forgotten. -/
theorem forgotten_sound (h : m.Sound) (hwatch : m.watch = .forgetting before after [] stage) :
    Sound { m with watch := .restoring before after (after.filter fun appId => appId ∉ before) .next } := by
  have hwatcher := h.watcher
  have hproper := h.proper
  have htombs := h.tombs
  rw [hwatch] at hproper htombs hwatcher
  have hstage : stage = .next := by
    by_contra hnext
    obtain ⟨_, hhead, -⟩ := hproper hnext
    cases hhead
  rw [hstage] at hwatcher htombs
  obtain ⟨hafter, hbefore, done, hdone, hmem⟩ := htombs
  refine h.watched rfl (.inl rfl) (.inl rfl) hwatcher trivial (fun hnext => absurd rfl hnext)
    ⟨hafter, hbefore, [], rfl, fun a => ?_⟩ h.gone h.never
  rw [List.append_nil] at hdone
  show a ∈ m.invalidatedApps ↔ _
  rw [hmem a, ← hdone, mem_removedAppIds]
  simp [Stage.applied]

/-- With the new apps restored the tombstones are exact again. -/
theorem restored_sound (h : m.Sound) (hwatch : m.watch = .restoring before after [] stage) :
    Sound { m with watch := .idle, ever := m.ever ++ after } := by
  have hwatcher := h.watcher
  have hproper := h.proper
  have htombs := h.tombs
  rw [hwatch] at hproper htombs hwatcher
  have hstage : stage = .next := by
    by_contra hnext
    obtain ⟨_, hhead, -⟩ := hproper hnext
    cases hhead
  rw [hstage] at hwatcher htombs
  obtain ⟨hafter, hbefore, done, hdone, hmem⟩ := htombs
  refine h.watched rfl (.inl rfl) (.inl rfl) hwatcher trivial trivial ⟨?_, fun a => ?_⟩ h.gone h.never
  · show m.addedAppIds ⊆ m.ever ++ after
    rw [← hafter]
    exact List.subset_append_right m.ever after
  · rw [List.append_nil] at hdone
    show a ∈ m.invalidatedApps ↔ a ≠ 0 ∧ a ∈ m.ever ++ after ∧ a ∉ m.addedAppIds
    have hin : a ∈ before → a ∈ m.ever := fun ha => hbefore ha
    rw [hmem a, ← hdone, ← hafter]
    simp only [List.mem_filter, decide_eq_true_eq, Stage.applied, Bool.false_eq_true, false_and, not_false_eq_true,
      and_true, List.mem_append]
    tauto

theorem step_sound (h : m.Sound) {e : Event} (hstep : m.step e = some t) : t.Sound := by
  cases e with
  | thread n act => exact thread_sound h (act_acts hstep)
  | beginReload =>
    obtain ⟨hidle, hstep⟩ := Option.ite_none_right_eq_some.mp hstep
    cases hstep
    have hwatcher := h.watcher
    have htombs := h.tombs
    rw [hidle] at hwatcher htombs
    exact h.watched rfl (.inl rfl) (.inl rfl) hwatcher trivial trivial ⟨rfl, htombs⟩ h.gone h.never
  | loadSettings after =>
    simp only [step] at hstep
    split at hstep
    · next before hloading =>
      cases hstep
      have hwatcher := h.watcher
      have htombs := h.tombs
      rw [hloading] at hwatcher htombs
      obtain ⟨hbefore, hadded, hmem⟩ := htombs
      refine h.watched rfl (.inl rfl) (.inl rfl) hwatcher (Watch.cleaned_next _ _ _) (fun hnext => absurd rfl hnext)
        ⟨rfl, hbefore ▸ hadded, [], rfl, fun a => ?_⟩ h.gone h.never
      show a ∈ m.invalidatedApps ↔ _
      rw [hmem a, hbefore]
      simp [Stage.applied]
    · cases hstep
  | watcher =>
    simp only [step, watcher] at hstep
    split at hstep
    · next hwatch => exact forget_sound h hwatch hstep
    · next hwatch =>
      cases hstep
      exact forgotten_sound h hwatch
    · next hwatch => exact restore_sound h hwatch hstep
    · next hwatch =>
      cases hstep
      exact restored_sound h hwatch
    · cases hstep

theorem start_sound (added : List AppId) : (start added).Sound where
  threads n := iff_of_false Bool.false_ne_true (fun h => by cases h)
  watcher := iff_of_false Bool.false_ne_true (fun h => by cases h)
  cleared _ _ h := h.elim
  cleaned := trivial
  proper := trivial
  tombs := ⟨fun _ h => h, fun a => by simp [start]⟩
  gone _ _ h := h.elim
  never _ _ := trivial

/-- After each reload the tombstones are exact; and from the end of forgetApp until restoreApp
no save opens a file of the app, no get ends its transaction with a ticket for it, and the
maps have no entry. -/
theorem removed_apps_keep_no_ticket (added : List AppId) (events : List Event)
    (hrun : exec step (start added) events = some m) :
    m.TombstonesExact ∧ ∀ a ≠ 0, Never Takes m.trace a ∧ m.MapsClear a := by
  have hsound : m.Sound := exec_preserves (fun _ _ _ hs he => step_sound hs he) (start_sound added) hrun
  refine ⟨fun hidle => ?_, fun a ha => ⟨hsound.never a ha, fun hgone => (hsound.gone a ha hgone).2⟩⟩
  have htombs := hsound.tombs
  rw [hidle] at htombs
  exact htombs.2

/-- A save that goes through. -/
def saving (appId : AppId) : List Event :=
  [.call ⟨.plain, appId, .save [1]⟩, .lock, .check, .openFile true, .write true, .publish 9, .unlock, .ret].map
    (Event.thread 0)

/-- A get that finds its ticket in the map, up to its return. -/
def getting (appId : AppId) : List Event :=
  [.call ⟨.plain, appId, .get⟩, .lock, .check, .look, .unlock].map (Event.thread 0)

/-- A reload with no apps left, as far as the call of forgetApp. -/
def removing (steps : Nat) : List Event := .beginReload :: .loadSettings [] :: List.replicate steps .watcher

/-- The load begins before the removal and finds the tombstone. -/
theorem removed_apps_keep_no_ticket_once :
    let events := saving 7 ++ [.thread 1 (.call ⟨.plain, 7, .get⟩)] ++ removing 7 ++
      [.thread 1 .lock, .thread 1 .check, .thread 1 .unlock]
    (exec step (start [7]) events).isSome = true ∧
      ∀ m, exec step (start [7]) events = some m → m.TombstonesExact ∧ ∀ a ≠ 0, Never Takes m.trace a ∧ m.MapsClear a :=
  ⟨by decide +kernel, fun _ hrun => removed_apps_keep_no_ticket _ _ hrun⟩

/-- App 0 is refused by forgetApp, and its ticket stays. -/
theorem zero_keeps_its_ticket : ¬ ∀ (added : List AppId) (events : List Event) (m : Machine),
    exec step (start added) events = some m → m.MapsClear 0 := by
  intro hclaim
  have hrun : (exec step (start [0]) (saving 0 ++ removing 1)).map (fun m => (m.trace.head?, m.maps .plain 0)) =
      some (some (.forgot 0), some ⟨9, [1]⟩) := by decide +kernel
  obtain ⟨m, hm, hboth⟩ := Option.map_eq_some_iff.mp hrun
  obtain ⟨hhead, hmaps⟩ := Prod.mk.inj hboth
  obtain ⟨older, htrace⟩ := List.head?_eq_some_iff.mp hhead
  have hgone : Gone m.trace 0 := by
    rw [htrace]
    exact .inl rfl
  cases hmaps.symm.trans (hclaim _ _ m hm hgone .plain)

/-- A get that has given the mutex back returns its ticket after the removal. -/
theorem removed_app_ticket_returned :
    (¬ ∀ (added : List AppId) (events : List Event) (m : Machine), exec step (start added) events = some m →
      m.TombstonesExact ∧ ∀ a ≠ 0, Never Uses m.trace a ∧ m.MapsClear a) ∧
    ¬ ∀ (added : List AppId) (events : List Event) (m : Machine),
      exec step (start added) events = some m → m.MapsClear 0 := by
  refine ⟨fun hclaim => ?_, zero_keeps_its_ticket⟩
  have hrun : (exec step (start [7]) (saving 7 ++ getting 7 ++ removing 5 ++ [.thread 0 .ret])).map
      (fun m => m.trace.take 2) =
        some [.returned ⟨.plain, 7, .get⟩ (.ticket ⟨9, [1]⟩), .forgot 7] := by decide +kernel
  obtain ⟨m, hm, htake⟩ := Option.map_eq_some_iff.mp hrun
  have htrace : m.trace = .returned ⟨.plain, 7, .get⟩ (.ticket ⟨9, [1]⟩) :: .forgot 7 :: m.trace.drop 2 := by
    rw [← List.take_append_drop 2 m.trace, htake]
    rfl
  have hnever := ((hclaim _ _ m hm).2 7 (by decide)).1
  rw [htrace] at hnever
  exact hnever.1 (.inl rfl) ⟨rfl, by decide⟩

end

end Machine
end SlsteamMoon.TicketCache
