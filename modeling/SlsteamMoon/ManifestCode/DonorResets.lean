import SlsteamMoon.ManifestCode.DonorFutures

/-! What a reset keeps out: hooks that have read an older generation, and sends over a
connection that was captured before it. -/
namespace SlsteamMoon.ManifestCode
open Runs

namespace DonorState

/-- A hook with a generation has read it outside of a reset; as long as no reset has
started since, none was asked for either. -/
structure Reads (s : DonorState) (hook : SendHook) : Prop where
  generation : hook.generation = 1 + UInt64.ofNat hook.increments
  earlier : hook.increments ≤ s.increments
  quiet : hook.increments = s.increments → s.resetting = false ∧ hook.resetCalls = s.resetCalls

/-- What a frame may rely on. -/
def Allows (s : DonorState) : Frame → Prop
  | .hooked hook => hook.generation ≠ 0 → s.Reads hook
  | .resetDrains n => n ≤ s.increments
  | .resetDone n => n ≤ s.increments ∧ (s.connection.isSome = true → n ≤ s.capturedAt) ∧
      ∀ j job connection capturedAt, (j, .sending job connection capturedAt) ∈ s.frames → n ≤ capturedAt
  | _ => True

structure Session (s : DonorState) : Prop where
  active : s.activeSends = s.frames.countP fun f => f.2.isActive
  generation : s.contextGeneration = 1 + UInt64.ofNat s.increments
  frame : ∀ i f, (i, f) ∈ s.frames → s.Allows f

theorem session_start : Session {} where
  active := rfl
  generation := rfl
  frame i f hf := by cases hf

/-- A step starts no reset or at least one, captures no connection but the newest, and
sends over the captured one. -/
structure Onward (s t : DonorState) : Prop where
  increments : s.increments ≤ t.increments
  quiet : t.increments = s.increments → s.resetting = false → t.resetting = false ∧ t.resetCalls = s.resetCalls
  connection : t.connection.isSome = true →
    s.connection.isSome = true ∧ t.capturedAt = s.capturedAt ∨ s.increments ≤ t.capturedAt
  sends : ∀ j job connection capturedAt, (j, .sending job connection capturedAt) ∈ t.frames →
    (j, .sending job connection capturedAt) ∈ s.frames ∨ s.connection.isSome = true ∧ capturedAt = s.capturedAt

section
variable {s t : DonorState} {i : Nat} {f : Frame}

/-- A step that resets nothing and captures no connection. -/
theorem Onward.kept (hincrements : t.increments = s.increments) (hresetting : t.resetting = s.resetting)
    (hcalls : t.resetCalls = s.resetCalls) (hconnection : t.connection = s.connection)
    (hcaptured : t.capturedAt = s.capturedAt)
    (hsends : ∀ j job connection capturedAt, (j, .sending job connection capturedAt) ∈ t.frames →
      (j, .sending job connection capturedAt) ∈ s.frames ∨ s.connection.isSome = true ∧ capturedAt = s.capturedAt) :
    s.Onward t where
  increments := Nat.le_of_eq hincrements.symm
  quiet _ hidle := ⟨hresetting.trans hidle, hcalls⟩
  connection hsome := .inl ⟨hconnection ▸ hsome, hcaptured⟩
  sends := hsends

private theorem Onward.allows (ho : s.Onward t) (h : s.Allows f) : t.Allows f := by
  cases f with
  | hooked hook =>
    intro hgeneration
    obtain ⟨hread, hearlier, hquiet⟩ := h hgeneration
    refine ⟨hread, Nat.le_trans hearlier ho.increments, fun hsame => ?_⟩
    have hlast : t.increments = s.increments := Nat.le_antisymm (hsame ▸ hearlier) ho.increments
    obtain ⟨hresetting, hcalls⟩ := hquiet (hsame.trans hlast)
    obtain ⟨hstill, hnone⟩ := ho.quiet hlast hresetting
    exact ⟨hstill, hcalls.trans hnone.symm⟩
  | resetDrains n => exact Nat.le_trans h ho.increments
  | resetDone n =>
    obtain ⟨hnumber, hcaptured, hsends⟩ := h
    refine ⟨Nat.le_trans hnumber ho.increments, fun hsome => ?_, fun j job connection capturedAt hsend => ?_⟩
    · rcases ho.connection hsome with ⟨hold, hsame⟩ | hnew
      · exact hsame ▸ hcaptured hold
      · exact Nat.le_trans hnumber hnew
    · rcases ho.sends j job connection capturedAt hsend with hold | ⟨hold, rfl⟩
      · exact hsends j job connection capturedAt hold
      · exact hcaptured hold
  | sending => trivial
  | sent => trivial
  | rejected => trivial
  | resolving => trivial
  | resetWaits => trivial

theorem Session.onward (h : s.Session) (ho : s.Onward t)
    (hactive : t.activeSends = t.frames.countP fun f => f.2.isActive)
    (hgeneration : t.contextGeneration = 1 + UInt64.ofNat t.increments)
    (hframes : ∀ i f, (i, f) ∈ t.frames → (i, f) ∈ s.frames ∨ t.Allows f) : t.Session where
  active := hactive
  generation := hgeneration
  frame i f hf := by
    rcases hframes i f hf with hold | hnew
    · exact ho.allows (h.frame i f hold)
    · exact hnew

/-- Only requests, futures, entries and the captured codes differ. -/
structure SameSession (s t : DonorState) : Prop where
  active : t.activeSends = s.activeSends
  resetting : t.resetting = s.resetting
  generation : t.contextGeneration = s.contextGeneration
  connection : t.connection = s.connection
  capturedAt : t.capturedAt = s.capturedAt
  frames : t.frames = s.frames
  increments : t.increments = s.increments
  resetCalls : t.resetCalls = s.resetCalls

theorem SameSession.trans {u : DonorState} (h : s.SameSession t) (h' : t.SameSession u) : s.SameSession u :=
  ⟨h'.active.trans h.active, h'.resetting.trans h.resetting, h'.generation.trans h.generation,
    h'.connection.trans h.connection, h'.capturedAt.trans h.capturedAt, h'.frames.trans h.frames,
    h'.increments.trans h.increments, h'.resetCalls.trans h.resetCalls⟩

theorem SameSession.onward (h : s.SameSession t) : s.Onward t :=
  .kept h.increments h.resetting h.resetCalls h.connection h.capturedAt fun _ _ _ _ hsend => .inl (h.frames ▸ hsend)

theorem SameSession.session (hs : s.SameSession t) (h : s.Session) : t.Session := by
  refine h.onward hs.onward ?_ ?_ fun i f hf => .inl (hs.frames ▸ hf)
  · rw [hs.active, hs.frames]
    exact h.active
  · rw [hs.generation, hs.increments]
    exact h.generation

private theorem mem_pop {g : Nat × Frame} (hg : g ∈ (s.pop i).frames) : g ∈ s.frames := List.mem_of_mem_eraseP hg

/-- A frame on the stack of a thread. -/
theorem mem_top (htop : s.top i = some f) : (i, f) ∈ s.frames := List.mem_of_find?_eq_some (find?_top htop)

private theorem pop_onward (s : DonorState) (i : Nat) : s.Onward (s.pop i) :=
  .kept rfl rfl rfl rfl rfl fun _ _ _ _ hsend => .inl (mem_pop hsend)

/-- A frame goes that is not counted. -/
theorem pop_session (h : s.Session) (htop : s.top i = some f) (hidle : f.isActive = false) : (s.pop i).Session := by
  refine h.onward (pop_onward s i) ?_ h.generation fun j g hg => .inl (mem_pop hg)
  have hcount := countP_pop htop fun f => f.2.isActive
  rw [hidle] at hcount
  exact h.active.trans hcount

/-- A frame comes that is not counted and may rely on what it needs. -/
theorem push_session (h : s.Session) (i : Nat) (hidle : f.isActive = false) (hallows : s.Allows f) :
    (s.push i f).Session := by
  have honward : s.Onward (s.push i f) := by
    refine .kept rfl rfl rfl rfl rfl ?_
    intro j job connection capturedAt hsend
    rcases List.mem_cons.mp hsend with hnew | hold
    · rw [← (Prod.mk.inj hnew).2] at hidle
      cases hidle
    · exact .inl hold
  refine h.onward honward ?_ h.generation fun j g hg => ?_
  · show s.activeSends = ((i, f) :: s.frames).countP fun f => f.2.isActive
    rw [List.countP_cons, hidle, h.active]
    rfl
  · rcases List.mem_cons.mp hg with hnew | hold
    · rw [(Prod.mk.inj hnew).2]
      exact .inr (honward.allows hallows)
    · exact .inl hold

private theorem failPending_same (s : DonorState) (job : UInt64) : s.SameSession (s.failPending job) := by
  unfold failPending
  split <;> exact ⟨rfl, rfl, rfl, rfl, rfl, rfl, rfl, rfl⟩

private theorem completeResolved_same (s : DonorState) (promise : Option Nat) (sent : Option PassiveRequest)
    (code : UInt64) : s.SameSession (s.completeResolved promise sent code) := by
  obtain ⟨submitted, hcompleted⟩ := completeResolved_eq s promise sent code
  rw [hcompleted]
  cases promise <;> exact ⟨rfl, rfl, rfl, rfl, rfl, rfl, rfl, rfl⟩

/-- The session is forgotten, in a reset or at its end. -/
theorem clear_session (h : s.Session) : s.clearDonorSessionLocked.Session := by
  obtain ⟨futures, hclear, -⟩ := clearDonorSessionLocked_eq s
  rw [hclear]
  exact h.onward ⟨Nat.le_refl _, fun _ hresetting => ⟨hresetting, rfl⟩, by rintro ⟨⟩, fun _ _ _ _ => .inl⟩ h.active
    h.generation fun _ _ => .inl

private theorem emplacePending_same (s : DonorState) (job : UInt64) (r : Nat) :
    s.SameSession (s.emplacePending job r) := by
  unfold emplacePending
  split <;> exact ⟨rfl, rfl, rfl, rfl, rfl, rfl, rfl, rfl⟩

/-- A send begins over the captured connection. -/
theorem sending_session (h : s.Session) (hconnection : s.connection.isSome = true) {active captured : Nat}
    (hactive : active = s.activeSends + 1) (hcaptured : captured = s.capturedAt) (i : Nat) (job : UInt64)
    (connection : Nat) : ({ s with activeSends := active }.push i (.sending job connection captured)).Session := by
  refine h.onward (.kept rfl rfl rfl rfl rfl ?_) ?_ h.generation ?_
  · intro j job' connection' capturedAt hsend
    rcases List.mem_cons.mp hsend with hnew | hold
    · have hframe := (Prod.mk.inj hnew).2
      simp only [Frame.sending.injEq] at hframe
      exact .inr ⟨hconnection, hframe.2.2.trans hcaptured⟩
    · exact .inl hold
  · show active = ((i, .sending job connection captured) :: s.frames).countP fun f => f.2.isActive
    rw [List.countP_cons, hactive, h.active]
    rfl
  · intro j g hg
    rcases List.mem_cons.mp hg with hnew | hold
    · rw [(Prod.mk.inj hnew).2]
      exact .inr trivial
    · exact .inl hold

private theorem failRequest_same (s : DonorState) : s.SameSession s.failRequest :=
  ⟨rfl, rfl, rfl, rfl, rfl, rfl, rfl, rfl⟩

private theorem requestCode_session (h : s.Session) (i : Nat) (depotId : UInt32) (gid : UInt64) (encoding : Encoding) :
    (s.requestCode i depotId gid encoding).Session := by
  unfold requestCode
  split
  · exact (failRequest_same s).session h
  · split
    · exact (failRequest_same s).session h
    · rename_i connection hconnection
      split
      · exact (failRequest_same s).session h
      · split
        · exact (failRequest_same s).session h
        · dsimp only
          split
          · have hnumbered : s.SameSession { s with nextDonorJob := s.nextDonorJob + 1 } :=
              ⟨rfl, rfl, rfl, rfl, rfl, rfl, rfl, rfl⟩
            exact (hnumbered.trans (failRequest_same _)).session h
          · have hnumbered :
                s.SameSession { s with nextDonorJob := s.nextDonorJob + 1, requests := s.requests + 1 } :=
              ⟨rfl, rfl, rfl, rfl, rfl, rfl, rfl, rfl⟩
            have hentered := hnumbered.trans (emplacePending_same _ (s.nextDonorJob + 1) s.requests)
            have hconnected : DonorState.connection _ = s.connection := hentered.connection
            refine sending_session (hentered.session h) ?_ ?_ hentered.capturedAt.symm i _ connection
            · rw [hconnected, hconnection]
              rfl
            · rw [hentered.active]

private theorem sendSection_session (h : s.Session) {job : UInt64} {accepted : Bool}
    (htop : s.top i = some (.sent job accepted)) : (s.pop i).sendSection.Session := by
  have hcount := countP_pop htop fun f => f.2.isActive
  have hleft : Session { s.pop i with activeSends := (s.pop i).activeSends - 1 } := by
    have honward : s.Onward { s.pop i with activeSends := (s.pop i).activeSends - 1 } :=
      .kept rfl rfl rfl rfl rfl fun _ _ _ _ hsend => .inl (mem_pop hsend)
    refine h.onward honward ?_ h.generation fun j g hg => .inl (mem_pop hg)
    show s.activeSends - 1 = _
    rw [h.active, hcount]
    rfl
  unfold sendSection
  dsimp only
  split
  · have hcleared := clear_session hleft
    refine hcleared.onward ⟨Nat.le_refl _, fun _ _ => ⟨rfl, rfl⟩, fun hsome => .inl ⟨hsome, rfl⟩, fun _ _ _ _ => .inl⟩
      hcleared.active hcleared.generation fun _ _ => .inl
  · exact hleft

private theorem defer_same (s : DonorState) : s.SameSession { s with deferredReset := true } :=
  ⟨rfl, rfl, rfl, rfl, rfl, rfl, rfl, rfl⟩

/-- The section that starts a reset. -/
theorem beginReset_session (h : s.Session) (i : Nat) : (s.beginReset i).Session := by
  have hbegun : Session { s with
      resetting := true
      contextGeneration := s.contextGeneration + 1
      increments := s.increments + 1
      resetCalls := s.resetCalls + 1 } := by
    refine h.onward ⟨Nat.le_succ _, fun hsame => absurd hsame (Nat.succ_ne_self _), fun hsome => .inl ⟨hsome, rfl⟩,
      fun _ _ _ _ => .inl⟩ h.active ?_ fun _ _ => .inl
    show s.contextGeneration + 1 = 1 + UInt64.ofNat (s.increments + 1)
    rw [h.generation, UInt64.ofNat_add]
    exact UInt64.add_assoc ..
  have hcleared := clear_session hbegun
  unfold beginReset
  dsimp only
  split
  · exact (defer_same _).session hcleared
  · refine push_session hcleared i rfl ?_
    obtain ⟨futures, hclear, -⟩ := clearDonorSessionLocked_eq
      { s with
        resetting := true
        contextGeneration := s.contextGeneration + 1
        increments := s.increments + 1
        resetCalls := s.resetCalls + 1 }
    rw [hclear]
    exact Nat.le_refl _

/-- When the reset has drained, no donor send is under way. -/
theorem resetDrained_session (h : s.Session) {n : Nat} (htop : s.top i = some (.resetDrains n))
    (hdrained : s.activeSends = 0) :
    ({ s.pop i with resetting := false }.clearDonorSessionLocked.push i (.resetDone n)).Session := by
  have hpop := pop_session h htop rfl
  have hleft : Session { s.pop i with resetting := false } :=
    hpop.onward ⟨Nat.le_refl _, fun _ _ => ⟨rfl, rfl⟩, fun hsome => .inl ⟨hsome, rfl⟩, fun _ _ _ _ => .inl⟩ hpop.active
      hpop.generation fun _ _ => .inl
  refine push_session (clear_session hleft) i rfl ?_
  obtain ⟨futures, hclear, -⟩ := clearDonorSessionLocked_eq { s.pop i with resetting := false }
  rw [hclear]
  refine ⟨h.frame i _ (mem_top htop), by rintro ⟨⟩, fun j job connection capturedAt hsend => ?_⟩
  have hnone := List.countP_eq_zero.mp (h.active.symm.trans hdrained) _ (mem_pop hsend)
  exact absurd rfl hnone

/-- The hook that installs its context does so after every reset so far. -/
theorem hookCaptures_session (h : s.Session) (hook : SendHook) : (s.hookCaptures i hook).Session := by
  unfold hookCaptures
  split
  · exact h.onward ⟨Nat.le_refl _, fun _ hresetting => ⟨hresetting, rfl⟩, fun _ => .inr (Nat.le_refl _),
      fun _ _ _ _ => .inl⟩ h.active h.generation fun _ _ => .inl
  · exact h

private theorem hookReads_allows (h : s.Session) (connection : Option Nat) (header : List UInt8) :
    s.Allows (.hooked (s.hookReads connection header)) := by
  intro hgeneration
  unfold hookReads at hgeneration ⊢
  cases hresetting : s.resetting with
  | true => simp [hresetting] at hgeneration
  | false => exact ⟨by simpa using h.generation, Nat.le_refl _, fun _ => ⟨hresetting, rfl⟩⟩

/-- The return of a send stays counted until its section. -/
theorem sendReturns_session (h : s.Session) {job : UInt64} {connection captured : Nat}
    (htop : s.top i = some (.sending job connection captured)) (accepted : Bool) :
    ((s.pop i).push i (.sent job accepted)).Session := by
  refine h.onward (.kept rfl rfl rfl rfl rfl ?_) ?_ h.generation ?_
  · intro j job' connection' capturedAt hsend
    rcases List.mem_cons.mp hsend with hnew | hold
    · cases (Prod.mk.inj hnew).2
    · exact .inl (mem_pop hold)
  · have hcount := countP_pop htop fun f => f.2.isActive
    show s.activeSends = ((i, .sent job accepted) :: (s.pop i).frames).countP fun f => f.2.isActive
    rw [List.countP_cons, h.active, hcount]
    rfl
  · intro j g hg
    rcases List.mem_cons.mp hg with hnew | hold
    · rw [(Prod.mk.inj hnew).2]
      exact .inr trivial
    · exact .inl (mem_pop hold)

private theorem resolveDonorResponse_session (h : s.Session) (i : Nat) (job code : UInt64) :
    (s.resolveDonorResponse i job code).Session := by
  unfold resolveDonorResponse
  dsimp only
  split
  · exact h
  · have htaken : s.SameSession { s with
        pending := s.pending.eraseP fun p => p.1 = job
        passive := s.passive.eraseP fun p => p.1 = job } := ⟨rfl, rfl, rfl, rfl, rfl, rfl, rfl, rfl⟩
    exact push_session (htaken.session h) i rfl trivial

private theorem observe_same (s : DonorState) (job : UInt64) (request : PassiveRequest) (expired : List UInt64) :
    s.SameSession (s.observe job request expired) := by
  unfold observe
  dsimp only
  split <;> exact ⟨rfl, rfl, rfl, rfl, rfl, rfl, rfl, rfl⟩

/-- A reset that finds another one waits for it, or leaves it to it inside a send. -/
theorem resetSession_session (h : s.Session) (i : Nat) : (s.resetSession i).Session := by
  unfold resetSession
  split
  · rename_i hresetting
    split
    · refine h.onward ⟨Nat.le_refl _, fun _ hidle => ?_, fun hsome => .inl ⟨hsome, rfl⟩, fun _ _ _ _ => .inl⟩ h.active
        h.generation fun _ _ => .inl
      rw [hresetting] at hidle
      cases hidle
    · exact push_session h i rfl trivial
  · exact beginReset_session h i

theorem Moves.session (hmoves : s.Moves t) (h : s.Session) : t.Session := by
  cases hmoves with
  | stays => exact h
  | requestCode i depotId gid encoding => exact requestCode_session h i depotId gid encoding
  | sendReturns htop => exact sendReturns_session h htop _
  | sendSection htop => exact sendSection_session h htop
  | sendRefused htop => exact push_session (sendSection_session h htop) _ rfl trivial
  | rejectSection htop => exact (failPending_same _ _).session (pop_session h htop rfl)
  | discardRequest job => exact (failPending_same s job).session h
  | resolveDonorResponse i job code => exact resolveDonorResponse_session h i job code
  | complete htop => exact (completeResolved_same _ _ _ _).session (pop_session h htop rfl)
  | observe job request expired => exact (observe_same s job request expired).session h
  | hookReads i connection header => exact push_session h i rfl (hookReads_allows h connection header)
  | hookCaptures htop => exact hookCaptures_session (pop_session h htop rfl) _
  | resetSession i => exact resetSession_session h i
  | resetWakes htop => exact beginReset_session (pop_session h htop rfl) _
  | resetDrained htop hdrained => exact resetDrained_session h htop hdrained
  | resetReturns htop => exact pop_session h htop rfl

end

end DonorState
end SlsteamMoon.ManifestCode
