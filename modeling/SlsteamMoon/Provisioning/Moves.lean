import SlsteamMoon.Provisioning.Machine

/-! What a step does: to the process it is about, to the files of the apps and to the file of the pending mappings. -/
namespace SlsteamMoon.Provisioning
open KeyValues PendingProton
open ProvisionTerminal (Record)

/-- What a step does to the process it is about. -/
inductive Process.Moves (P : Process) (p : Nat) : Event → Process → Prop
  | terminal (e : Event) (terminalResults : AppId → Option TerminalMemoryEntry) (invalidated : Finset AppId) :
      P.Moves p e { P with terminalResults, invalidated }
  | restart (managed added : Finset AppId) : P.Moves p (.restart p managed added) (.fresh managed added)
  | dies (i : Nat) (call : Call) (managed added : Finset AppId) :
      P.Moves p (.diesPublishing p i call managed added) (.fresh managed added)
  | reload (managed added : Finset AppId) :
      P.Moves p (.reload p managed added) { P with managed := managed.filter (0 < ·), added }
  | snapshot (appId : AppId) : P.Moves p (.snapshotCachePublication p appId) (P.snapshotCachePublication appId)
  | mark (i : Nat) (h : Held) (idle : P.flush = .idle) : P.Moves p (.markProtonNeeded p i) (P.markProtonNeeded h)
  | persisted (answers : Answers) (idle : P.flush = .idle) :
      P.Moves p (.persistPendingProtonMappings p answers) { P with pendingRemovals := ∅ }
  | flushLoad (required : Finset AppId) (answers : Answers) (file : Option Bytes) (idle : P.flush = .idle) :
      P.Moves p (.flushLoad p required answers) (P.flushLoad required answers file)
  | flushInject (file : ProtonMapping.ConfigFile) (P' : Process) (h : P.flushInject file = some P') :
      P.Moves p (.flushInject p file) P'
  | flushClear (answers : Answers) (fileIds : Finset AppId) (applied : P.flush = .applied fileIds) :
      P.Moves p (.flushClear p answers) { P with flush := .idle }
  | forgetBegin (appId : AppId) (preserveTicketArtifacts : Bool) (idle : P.flush = .idle) :
      P.Moves p (.forgetBegin p appId preserveTicketArtifacts) (P.forgetBegin appId preserveTicketArtifacts)
  | forgetClean (cleanup : Cleanup) (forgetting : Forgetting) (h : ∀ appId preserve, forgetting ≠ .begun appId preserve) :
      P.Moves p (.forgetClean p cleanup) { P with forgetting }
  | forgetEnd (appId : AppId) (idle : P.flush = .idle) :
      P.Moves p (.forgetEnd p) { P with pendingRemovals := P.pendingRemovals.erase appId, forgetting := .idle }

namespace AppCache
variable {c : AppCache} {x : Artifact}

private theorem has_eraseTerminal {erased : Bool} (h : (c.eraseTerminal erased).has x = true) : c.has x = true := by
  cases erased with
  | false => exact h
  | true =>
    cases x with
    | terminal => cases h
    | member m => exact h
    | dlcMetadata => exact h
    | marker => exact h

private theorem has_quarantine {moved : Artifact → Bool} (h : (c.quarantine moved).has x = true) : c.has x = true := by
  cases x with
  | member m =>
    simp only [has, quarantine] at h ⊢
    split at h
    · cases h
    · exact h
  | terminal =>
    simp only [has, quarantine] at h ⊢
    split at h
    · cases h
    · exact h
  | dlcMetadata => exact (Bool.and_eq_true_iff.mp h).1
  | marker => exact (Bool.and_eq_true_iff.mp h).1

end AppCache

namespace System
variable {s t : System} {e : Event} {a : AppId} {p i : Nat} {P P' : Process} {h : Held}

/-- Some process may put files of the app in place. -/
def MayWrite (s : System) (a : AppId) : Prop :=
  ∃ P ∈ s.processes, a ∈ P.managed ∨ ∃ h ∈ P.tokens, h.appId = a ∧ P.allowed h = true

private theorem mayWrite_of_token (hP : s.processes[p]? = some P) (hh : P.tokens[i]? = some h)
    (hallowed : P.allowed h = true) : s.MayWrite h.appId :=
  ⟨P, List.mem_of_getElem? hP, .inr ⟨h, List.mem_of_getElem? hh, rfl, hallowed⟩⟩

inductive ProcessStep (s : System) (e : Event) (t : System) : Prop
  | starts (managed added : Finset AppId) (he : e = .start managed added)
      (h : t.processes = s.processes ++ [.fresh managed added])
  | moves (p : Nat) (P P' : Process) (hP : s.processes[p]? = some P) (hmoves : P.Moves p e P')
      (h : t.processes = s.processes.set p P')

inductive CacheStep (s t : System) : Prop
  | same (h : t.cache = s.cache)
  | writes (appId : AppId) (c : AppCache) (hmay : s.MayWrite appId) (h : t.cache = Function.update s.cache appId c)
  | takes (appId : AppId) (c : AppCache) (hless : ∀ x, c.has x = true → (s.cache appId).has x = true)
      (h : t.cache = Function.update s.cache appId c)

inductive PendingStep (s t : System) : Prop
  | same (h : t.pending = s.pending)
  | persists (P : Process) (answers : Answers) (hP : P ∈ s.processes)
      (h : t.pending = (persistPendingProtonMappings P.needProton P.pendingRemovals P.managed answers s.pending).1)
  | clears (P : Process) (answers : Answers) (fileIds : Finset AppId) (hP : P ∈ s.processes)
      (applied : P.flush = .applied fileIds)
      (h : t.pending = clearPendingProtonMappingsIfUnchanged fileIds answers s.pending)
  | removes (P : Process) (answers : Answers) (appId : AppId) (preserve : Bool) (hP : P ∈ s.processes)
      (begun : P.forgetting = .begun appId preserve)
      (h : t.pending = (removePendingProtonMappingLocked appId answers s.pending).1)

/-- All that a step can do. -/
structure Steps (s : System) (e : Event) (t : System) : Prop where
  processes : ProcessStep s e t
  cache : CacheStep s t
  pending : PendingStep s t

private theorem set_self (h : s.processes[p]? = some P) : s.processes.set p P = s.processes := by
  obtain ⟨hp, rfl⟩ := List.getElem?_eq_some_iff.mp h
  exact List.set_getElem_self hp

theorem ProcessStep.same (hP : s.processes[p]? = some P) (h : t.processes = s.processes) : ProcessStep s e t :=
  .moves p P P hP (.terminal e P.terminalResults P.invalidated) (h.trans (set_self hP).symm)

/-- What the processes of the state have, what a start gives and what a move leaves, the processes afterwards have. -/
theorem ProcessStep.preserves {K : Process → Prop} (hs : ProcessStep s e t) (h : ∀ P ∈ s.processes, K P)
    (hstart : ∀ managed added, e = .start managed added → K (.fresh managed added))
    (hmoves : ∀ (p : Nat) (P P' : Process), s.processes[p]? = some P → P.Moves p e P' → K P') : ∀ P ∈ t.processes, K P := by
  intro Q hQ
  cases hs with
  | starts managed added he hprocesses =>
    rw [hprocesses] at hQ
    rcases List.mem_append.mp hQ with hQ | hQ
    · exact h Q hQ
    · obtain rfl := List.mem_singleton.mp hQ
      exact hstart managed added he
  | moves p P P' hP hmove hprocesses =>
    rw [hprocesses] at hQ
    rcases List.mem_or_eq_of_mem_set hQ with hQ | rfl
    · exact h Q hQ
    · exact hmoves p P Q hP hmove

theorem Steps.same (hP : s.processes[p]? = some P) : Steps s e s := ⟨.same hP rfl, .same rfl, .same rfl⟩

/-- The step is the process's own. -/
theorem Steps.own (hP : s.processes[p]? = some P) (hmoves : P.Moves p e P') : Steps s e (s.setProcess p P') :=
  ⟨.moves p P P' hP hmoves rfl, .same rfl, .same rfl⟩

private theorem publish_steps {call : Call} {checks : Bool} (hP : s.processes[p]? = some P) (hh : P.tokens[i]? = some h)
    (hs : s.publish p P h call checks = some t) : Steps s e t := by
  rw [publish] at hs
  split at hs
  · cases hs
    exact .same hP
  · next hgate =>
    simp only [Bool.or_eq_true, Bool.not_eq_true', not_or, Bool.not_eq_false] at hgate
    have hmay := mayWrite_of_token hP hh hgate.1.2
    split at hs
    · cases hs
      exact ⟨.moves p P _ hP (.terminal e _ _) rfl, .writes h.appId _ hmay rfl, .same rfl⟩
    · cases hs
      exact ⟨.moves p P _ hP (.terminal e _ _) rfl, .writes h.appId _ hmay rfl, .same rfl⟩
    · cases hs

private theorem noteRecord_steps {record : Record} {erased written : Bool} (hP : s.processes[p]? = some P)
    (hmay : s.MayWrite h.appId) : Steps s e (s.noteRecord p P h record erased written) := by
  unfold noteRecord
  dsimp only
  split
  · exact .own hP (.terminal e _ _)
  split
  · exact ⟨.moves p P _ hP (.terminal e _ _) rfl, .writes h.appId _ hmay rfl, .same rfl⟩
  · refine ⟨?_, .writes h.appId _ hmay rfl, .same rfl⟩
    cases (publishRecord record written none).2 <;> exact .moves p P _ hP (.terminal e _ _) rfl

private theorem noteTerminal_steps {result : SourceResult} {changeNumber : UInt32} {fingerprint : Bytes}
    {lockAcquired erased written : Bool} (hP : s.processes[p]? = some P) (hh : P.tokens[i]? = some h) :
    Steps s e (s.noteTerminalProvisionResult p P h result changeNumber fingerprint lockAcquired erased written) := by
  unfold noteTerminalProvisionResult
  split
  · exact .same hP
  split
  · exact .same hP
  · next hgate =>
    simp only [Bool.or_eq_true, Bool.not_eq_true', not_or, Bool.not_eq_false] at hgate
    exact noteRecord_steps hP (mayWrite_of_token hP hh hgate.2)

private theorem loadTerminal_steps {appId : AppId} {readable : Bool} {fits : Record → Bool}
    (hP : s.processes[p]? = some P) : Steps s e (s.loadTerminal p P appId readable fits) := by
  unfold loadTerminal
  split
  · exact .same hP
  · split
    · exact .own hP (.terminal e _ _)
    · exact .same hP

private theorem cleaned_ne_begun {removed preserve : Bool} {b : AppId} :
    (if removed then Forgetting.cleaned b else .idle) ≠ .begun a preserve := by
  cases removed <;> exact Forgetting.noConfusion

private theorem forgetClean_steps {appId : AppId} {preserve : Bool} {cleanup : Cleanup} (hP : s.processes[p]? = some P)
    (hbegun : P.forgetting = .begun appId preserve) :
    Steps s (.forgetClean p cleanup) (s.forgetClean p P appId preserve cleanup) := by
  unfold forgetClean
  split
  · exact .own hP (.forgetClean cleanup .idle fun _ _ => Forgetting.noConfusion)
  · refine ⟨.moves p P _ hP (.forgetClean cleanup _ fun _ _ => cleaned_ne_begun) rfl, .takes appId _ (fun x hx => ?_) rfl,
      .removes P cleanup.pending appId preserve (List.mem_of_getElem? hP) hbegun rfl⟩
    exact AppCache.has_eraseTerminal (AppCache.has_quarantine hx)

theorem step_steps (hs : step s e = some t) : Steps s e t := by
  cases e with
  | start managed added =>
    cases hs
    exact ⟨.starts managed added rfl rfl, .same rfl, .same rfl⟩
  | restart p managed added =>
    obtain ⟨hp, hs⟩ := Option.ite_none_right_eq_some.mp hs
    cases hs
    exact .own (List.getElem?_eq_getElem hp) (.restart managed added)
  | reload p managed added =>
    obtain ⟨P, hP, hs⟩ := Option.bind_eq_some_iff.mp hs
    cases hs
    exact .own hP (.reload managed added)
  | snapshotCachePublication p appId =>
    obtain ⟨P, hP, hs⟩ := Option.bind_eq_some_iff.mp hs
    obtain ⟨-, hs⟩ := Option.ite_none_left_eq_some.mp hs
    cases hs
    exact .own hP (.snapshot appId)
  | persistBuffer p i call =>
    obtain ⟨P, hP, hs⟩ := Option.bind_eq_some_iff.mp hs
    obtain ⟨h, hh, hs⟩ := Option.bind_eq_some_iff.mp hs
    exact publish_steps hP hh hs
  | persistAppBuffer p i call normalizedCache =>
    obtain ⟨P, hP, hs⟩ := Option.bind_eq_some_iff.mp hs
    obtain ⟨h, hh, hs⟩ := Option.bind_eq_some_iff.mp hs
    rw [persistAppBuffer] at hs
    split at hs
    · cases hs
      exact .same hP
    · exact publish_steps hP hh hs
  | diesPublishing p i call managed added =>
    obtain ⟨P, hP, hs⟩ := Option.bind_eq_some_iff.mp hs
    obtain ⟨h, hh, hs⟩ := Option.bind_eq_some_iff.mp hs
    obtain ⟨hgate, hs⟩ := Option.ite_none_left_eq_some.mp hs
    obtain ⟨made, -, rfl⟩ := Option.map_eq_some_iff.mp hs
    have hmay := mayWrite_of_token hP hh (by simpa using hgate)
    exact ⟨.moves p P _ hP (.dies i call managed added) rfl, .writes h.appId _ hmay rfl, .same rfl⟩
  | enrichAndPublishDlcMetadata p appId lockAcquired matchesBase written =>
    obtain ⟨P, hP, hs⟩ := Option.bind_eq_some_iff.mp hs
    obtain ⟨-, hs⟩ := Option.ite_none_left_eq_some.mp hs
    cases hs
    rw [enrichAndPublishDlcMetadata]
    split
    · next hgate =>
      simp only [Bool.and_eq_true, decide_eq_true_eq] at hgate
      have hmay : s.MayWrite appId := ⟨P, List.mem_of_getElem? hP, .inl hgate.1.1.2⟩
      exact ⟨.same hP rfl, .writes appId _ hmay rfl, .same rfl⟩
    · exact .same hP
  | noteTerminalProvisionResult p i result changeNumber fingerprint lockAcquired erased written =>
    obtain ⟨P, hP, hs⟩ := Option.bind_eq_some_iff.mp hs
    obtain ⟨h, hh, hs⟩ := Option.bind_eq_some_iff.mp hs
    cases hs
    exact noteTerminal_steps hP hh
  | terminalProvisionResultKnown p appId observedChangeNumber memoized fingerprint lockAcquired readable =>
    obtain ⟨P, hP, hs⟩ := Option.bind_eq_some_iff.mp hs
    cases hs
    unfold terminalProvisionResultKnown
    split
    · exact .same hP
    split
    · exact .same hP
    · exact loadTerminal_steps hP
  | primeTerminalMemo p appId fingerprint lockAcquired readable =>
    obtain ⟨P, hP, hs⟩ := Option.bind_eq_some_iff.mp hs
    cases hs
    unfold primeTerminalMemo
    split
    · exact .same hP
    · exact loadTerminal_steps hP
  | clearTerminalProvisionResult p appId erased =>
    obtain ⟨P, hP, hs⟩ := Option.bind_eq_some_iff.mp hs
    cases hs
    exact ⟨.moves p P _ hP (.terminal _ _ _) rfl, .takes appId _ (fun _ => AppCache.has_eraseTerminal) rfl, .same rfl⟩
  | markProtonNeeded p i =>
    obtain ⟨P, hP, hs⟩ := Option.bind_eq_some_iff.mp hs
    obtain ⟨h, -, hs⟩ := Option.bind_eq_some_iff.mp hs
    obtain ⟨hidle, hs⟩ := Option.ite_none_left_eq_some.mp hs
    cases hs
    exact .own hP (.mark i h (not_not.mp hidle))
  | persistPendingProtonMappings p answers =>
    obtain ⟨P, hP, hs⟩ := Option.bind_eq_some_iff.mp hs
    obtain ⟨hidle, hs⟩ := Option.ite_none_left_eq_some.mp hs
    have hmem := List.mem_of_getElem? hP
    dsimp only at hs
    split at hs
    · cases hs
      exact ⟨.moves p P _ hP (.persisted answers (not_not.mp hidle)) rfl, .same rfl, .persists P answers hmem rfl⟩
    · cases hs
      exact ⟨.same hP rfl, .same rfl, .persists P answers hmem rfl⟩
  | injectProtonMappings p file =>
    obtain ⟨P, hP, hs⟩ := Option.bind_eq_some_iff.mp hs
    obtain ⟨-, hs⟩ := Option.ite_none_left_eq_some.mp hs
    cases hs
    exact .same hP
  | flushLoad p required answers =>
    obtain ⟨P, hP, hs⟩ := Option.bind_eq_some_iff.mp hs
    obtain ⟨hidle, hs⟩ := Option.ite_none_left_eq_some.mp hs
    cases hs
    exact .own hP (.flushLoad required answers s.pending (not_not.mp hidle))
  | flushInject p file =>
    obtain ⟨P, hP, hs⟩ := Option.bind_eq_some_iff.mp hs
    obtain ⟨P', hP', hs⟩ := Option.bind_eq_some_iff.mp hs
    cases hs
    exact .own hP (.flushInject file P' hP')
  | flushClear p answers =>
    obtain ⟨P, hP, hs⟩ := Option.bind_eq_some_iff.mp hs
    split at hs
    · next fileIds happlied =>
      cases hs
      exact ⟨.moves p P _ hP (.flushClear answers fileIds happlied) rfl, .same rfl,
        .clears P answers fileIds (List.mem_of_getElem? hP) happlied rfl⟩
    · cases hs
  | forgetBegin p appId preserveTicketArtifacts =>
    obtain ⟨P, hP, hs⟩ := Option.bind_eq_some_iff.mp hs
    obtain ⟨hready, hs⟩ := Option.ite_none_left_eq_some.mp hs
    cases hs
    simp only [not_or, ne_eq, not_not] at hready
    exact .own hP (.forgetBegin appId preserveTicketArtifacts hready.2.1)
  | forgetClean p cleanup =>
    obtain ⟨P, hP, hs⟩ := Option.bind_eq_some_iff.mp hs
    split at hs
    · next appId preserve hbegun =>
      cases hs
      exact forgetClean_steps hP hbegun
    · cases hs
  | forgetEnd p =>
    obtain ⟨P, hP, hs⟩ := Option.bind_eq_some_iff.mp hs
    split at hs
    · next appId hcleaned =>
      obtain ⟨hidle, hs⟩ := Option.ite_none_left_eq_some.mp hs
      cases hs
      exact .own hP (.forgetEnd appId (not_not.mp hidle))
    · cases hs

end System
end SlsteamMoon.Provisioning
