import SlsteamMoon.Runs
import SlsteamMoon.LastWriter
import Mathlib.Logic.Function.Basic

/-! The availability circuit of the manifest archive and the calls that feed it: each decides under the lock and
publishes what it decided afterwards, in a flag and in a marker file. -/
namespace SlsteamMoon.ProviderCircuit
open Runs

abbrev Token := UInt64

structure Circuit where
  threshold : Int := 2
  cooldownMs : Int := 30000
  consecutiveTransportFailures : Int := 0
  retryAtMs : Int := 0
  isOpen : Bool := false
  halfOpenInFlight : Bool := false
  halfOpenToken : Token := 0
  nextToken : Token := 0

namespace Circuit

/-- Zero is no token. -/
def followingToken (token : Token) : Token := if token + 1 = 0 then token + 1 + 1 else token + 1

/-- The token of the attempt, zero when it is not admitted. -/
def beginAttempt (c : Circuit) (nowMs : Int) : Token × Circuit :=
  let token := followingToken c.nextToken
  if c.isOpen = false then (token, { c with nextToken := token })
  else if nowMs < c.retryAtMs ∨ c.halfOpenInFlight = true then (0, c)
  else (token, { c with halfOpenInFlight := true, halfOpenToken := token, nextToken := token })

def openAt (c : Circuit) (nowMs : Int) : Circuit :=
  { c with isOpen := true, halfOpenInFlight := false, halfOpenToken := 0, retryAtMs := nowMs + c.cooldownMs }

def finishAttempt (c : Circuit) (token : Token) (nowMs : Int) (success rateLimited transportFailure : Bool) : Circuit :=
  if token = 0 ∨ (c.halfOpenInFlight = true ∧ token ≠ c.halfOpenToken) then c
  else if success then
    { c with
      isOpen := false, halfOpenInFlight := false, halfOpenToken := 0, consecutiveTransportFailures := 0,
      retryAtMs := 0 }
  else if c.isOpen = true ∧ c.halfOpenInFlight = true then
    { c with halfOpenInFlight := false, halfOpenToken := 0, retryAtMs := nowMs + c.cooldownMs }
  else if rateLimited then c.openAt nowMs
  else if transportFailure then
    let c := { c with consecutiveTransportFailures := c.consecutiveTransportFailures + 1 }
    if c.threshold ≤ c.consecutiveTransportFailures then c.openAt nowMs else c
  else { c with consecutiveTransportFailures := 0 }

def cancelCurrentAttempt (c : Circuit) : Circuit := { c with halfOpenInFlight := false, halfOpenToken := 0 }

def cancelAttempt (c : Circuit) (token : Token) : Circuit :=
  if token = 0 ∨ token ≠ c.halfOpenToken then c else c.cancelCurrentAttempt

@[simp] theorem beginAttempt_isOpen (c : Circuit) (nowMs : Int) : (c.beginAttempt nowMs).2.isOpen = c.isOpen := by
  rw [beginAttempt]
  split_ifs
  · rfl
  · rfl
  · rfl

@[simp] theorem cancelAttempt_isOpen (c : Circuit) (token : Token) : (c.cancelAttempt token).isOpen = c.isOpen := by
  rw [cancelAttempt]
  split_ifs
  · rfl
  · rfl

end Circuit

/-! ### The calls -/

abbrev CallId := Nat

/-- Where a call is. Behind the locked section it carries what it decided there. -/
inductive Phase
  | idle
  | attempting (sessionEpoch : UInt64) (token : Token)
  | decided (nowOffline : Bool)
  | stored (nowOffline : Bool)
  | returned

structure State where
  circuit : Circuit := {}
  sessionEpoch : UInt64 := 1
  providersOffline : Bool := false
  marker : Bool := false
  calls : CallId → Phase := fun _ => .idle

/-- A step of the threads: the two locked sections of an attempt, the two publications behind the second, and a reset
of the session. The file operation of a publication may come to nothing. -/
inductive Event
  | beginProviderAttempt (call : CallId) (sessionEpoch : UInt64) (nowMs : Int)
  | decide (call : CallId) (nowMs : Int) (success rateLimited transportFailure : Bool)
  | store (call : CallId)
  | setOfflineStatus (call : CallId) (done : Bool)
  | resetSessionState

def State.at (s : State) (call : CallId) (phase : Phase) : State :=
  { s with calls := Function.update s.calls call phase }

def step : Step State Event
  | s, .beginProviderAttempt call sessionEpoch nowMs =>
    match s.calls call with
    | .idle =>
      if sessionEpoch ≠ s.sessionEpoch then some s
      else
        let (token, circuit) := s.circuit.beginAttempt nowMs
        let s := { s with circuit }
        some (if token = 0 then s else s.at call (.attempting sessionEpoch token))
    | _ => none
  | s, .decide call nowMs success rateLimited transportFailure =>
    match s.calls call with
    | .attempting sessionEpoch token =>
      if sessionEpoch ≠ s.sessionEpoch then
        some ({ s with circuit := s.circuit.cancelAttempt token }.at call .returned)
      else
        let circuit := s.circuit.finishAttempt token nowMs success rateLimited transportFailure
        some ({ s with circuit }.at call (.decided circuit.isOpen))
    | _ => none
  | s, .store call =>
    match s.calls call with
    | .decided nowOffline => some ({ s with providersOffline := nowOffline }.at call (.stored nowOffline))
    | _ => none
  | s, .setOfflineStatus call done =>
    match s.calls call with
    | .stored nowOffline => some ({ s with marker := if done then nowOffline else s.marker }.at call .returned)
    | _ => none
  | s, .resetSessionState =>
    some { s with sessionEpoch := s.sessionEpoch + 1, circuit := s.circuit.cancelCurrentAttempt }

/-- What a call has yet to store in the flag. -/
def Phase.toStore : Phase → Option Bool
  | .decided nowOffline => some nowOffline
  | _ => none

/-- What a call has yet to do to the marker. -/
def Phase.toMark : Phase → Option Bool
  | .decided nowOffline | .stored nowOffline => some nowOffline
  | _ => none

def State.toStore (s : State) : CallId → Option Bool := Phase.toStore ∘ s.calls

def State.toMark (s : State) : CallId → Option Bool := Phase.toMark ∘ s.calls

/-- No call is behind its locked section and before its return. -/
def Quiet (s : State) : Prop := ∀ call, s.toMark call = none

/-- The flag and the marker follow the circuit. -/
structure Follows (s : State) : Prop where
  flag : s.providersOffline = s.circuit.isOpen
  marker : s.marker = s.circuit.isOpen

@[simp] theorem State.toStore_at (s : State) (call : CallId) (phase : Phase) :
    (s.at call phase).toStore = Function.update s.toStore call phase.toStore := Function.comp_update _ _ _ _

@[simp] theorem State.toMark_at (s : State) (call : CallId) (phase : Phase) :
    (s.at call phase).toMark = Function.update s.toMark call phase.toMark := Function.comp_update _ _ _ _

end SlsteamMoon.ProviderCircuit

/-! When the flag and the marker end as the circuit is: no call may publish late, unless another is still to follow that
knows better. -/
namespace SlsteamMoon.ProviderCircuit
open Runs LastWriter

/-- A step that neither decides nor publishes. -/
structure Silent (s t : State) : Prop where
  circuit : t.circuit.isOpen = s.circuit.isOpen
  flag : t.providersOffline = s.providersOffline
  marker : t.marker = s.marker
  toStore : t.toStore = s.toStore
  toMark : t.toMark = s.toMark

/-- The locked section of a call, with what it decided left to publish. -/
structure Decided (call : CallId) (s t : State) : Prop where
  flag : t.providersOffline = s.providersOffline
  marker : t.marker = s.marker
  toStore : t.toStore = Function.update s.toStore call (some t.circuit.isOpen)
  toMark : t.toMark = Function.update s.toMark call (some t.circuit.isOpen)

structure Stored (call : CallId) (s t : State) : Prop where
  circuit : t.circuit.isOpen = s.circuit.isOpen
  flag : s.toStore call = some t.providersOffline
  marker : t.marker = s.marker
  toStore : t.toStore = Function.update s.toStore call none
  toMark : t.toMark = s.toMark

structure Marked (call : CallId) (done : Bool) (s t : State) : Prop where
  circuit : t.circuit.isOpen = s.circuit.isOpen
  flag : t.providersOffline = s.providersOffline
  marker : ∃ nowOffline, s.toMark call = some nowOffline ∧ t.marker = if done then nowOffline else s.marker
  toStore : t.toStore = s.toStore
  toMark : t.toMark = Function.update s.toMark call none

private theorem update_same {pending : CallId → Option Bool} {call : CallId} {now : Option Bool}
    (h : pending call = now) : Function.update pending call now = pending := by
  rw [← h, Function.update_eq_self]

private theorem toStore_of {s : State} {call : CallId} {phase : Phase} (h : s.calls call = phase) :
    s.toStore call = phase.toStore := congrArg Phase.toStore h

private theorem toMark_of {s : State} {call : CallId} {phase : Phase} (h : s.calls call = phase) :
    s.toMark call = phase.toMark := congrArg Phase.toMark h

/-- A call goes from one phase to another in which it has the same to publish. -/
theorem silent_at {s s' : State} {call : CallId} {phase next : Phase} (h : s.calls call = phase)
    (hcalls : s'.calls = s.calls) (hcircuit : s'.circuit.isOpen = s.circuit.isOpen)
    (hflag : s'.providersOffline = s.providersOffline) (hmarker : s'.marker = s.marker)
    (hstore : next.toStore = phase.toStore) (hmark : next.toMark = phase.toMark) : Silent s (s'.at call next) := by
  refine ⟨hcircuit, hflag, hmarker, ?_, ?_⟩
  · rw [State.toStore_at, State.toStore, hcalls, hstore]
    exact update_same (toStore_of h)
  · rw [State.toMark_at, State.toMark, hcalls, hmark]
    exact update_same (toMark_of h)

private theorem begin_silent {s t : State} {call : CallId} {sessionEpoch : UInt64} {nowMs : Int}
    (h : step s (.beginProviderAttempt call sessionEpoch nowMs) = some t) : Silent s t := by
  rw [step] at h
  cases hphase : s.calls call with
  | idle =>
    rw [hphase] at h
    dsimp only at h
    split_ifs at h
    · obtain rfl := Option.some.inj h
      exact ⟨rfl, rfl, rfl, rfl, rfl⟩
    · obtain rfl := Option.some.inj h
      exact ⟨Circuit.beginAttempt_isOpen _ _, rfl, rfl, rfl, rfl⟩
    · obtain rfl := Option.some.inj h
      exact silent_at hphase rfl (Circuit.beginAttempt_isOpen _ _) rfl rfl rfl rfl
  | _ =>
    rw [hphase] at h
    cases h

/-- A call of an older session only gives its probe back. -/
theorem decide_cases {s t : State} {call : CallId} {nowMs : Int} {success rateLimited transportFailure : Bool}
    (h : step s (.decide call nowMs success rateLimited transportFailure) = some t) :
    Silent s t ∨ Decided call s t := by
  rw [step] at h
  cases hphase : s.calls call with
  | attempting sessionEpoch token =>
    rw [hphase] at h
    dsimp only at h
    split_ifs at h
    · obtain rfl := Option.some.inj h
      exact .inl (silent_at hphase rfl (Circuit.cancelAttempt_isOpen _ _) rfl rfl rfl rfl)
    · obtain rfl := Option.some.inj h
      exact .inr ⟨rfl, rfl, State.toStore_at _ _ _, State.toMark_at _ _ _⟩
  | _ =>
    rw [hphase] at h
    cases h

private theorem store_stored {s t : State} {call : CallId} (h : step s (.store call) = some t) : Stored call s t := by
  rw [step] at h
  cases hphase : s.calls call with
  | decided nowOffline =>
    rw [hphase] at h
    obtain rfl := Option.some.inj h
    refine ⟨rfl, toStore_of hphase, rfl, State.toStore_at _ _ _, ?_⟩
    have hsame : s.toMark call = (Phase.stored nowOffline).toMark := by rw [toMark_of hphase]; rfl
    rw [State.toMark_at]
    exact update_same hsame
  | _ =>
    rw [hphase] at h
    cases h

private theorem mark_marked {s t : State} {call : CallId} {done : Bool}
    (h : step s (.setOfflineStatus call done) = some t) : Marked call done s t := by
  rw [step] at h
  cases hphase : s.calls call with
  | stored nowOffline =>
    rw [hphase] at h
    obtain rfl := Option.some.inj h
    refine ⟨rfl, rfl, ⟨nowOffline, toMark_of hphase, rfl⟩, ?_, State.toMark_at _ _ _⟩
    have hsame : s.toStore call = Phase.returned.toStore := by rw [toStore_of hphase]; rfl
    rw [State.toStore_at]
    exact update_same hsame
  | _ =>
    rw [hphase] at h
    cases h

/-- What a step can do. -/
theorem step_cases {s t : State} {e : Event} (h : step s e = some t) :
    Silent s t ∨ (∃ call, Decided call s t) ∨ (∃ call, e = .store call ∧ Stored call s t) ∨
      ∃ call done, e = .setOfflineStatus call done ∧ Marked call done s t := by
  cases e with
  | beginProviderAttempt call sessionEpoch nowMs => exact .inl (begin_silent h)
  | decide call nowMs success rateLimited transportFailure =>
    exact (decide_cases h).imp_right fun hdecided => .inl ⟨call, hdecided⟩
  | store call => exact .inr (.inr (.inl ⟨call, rfl, store_stored h⟩))
  | setOfflineStatus call done => exact .inr (.inr (.inr ⟨call, done, rfl, mark_marked h⟩))
  | resetSessionState =>
    obtain rfl := Option.some.inj h
    exact .inl ⟨rfl, rfl, rfl, rfl, rfl⟩

/-- What a publication leaves in its place is the circuit's state, or another call that decided this state has yet to
make the same publication. -/
def Timely (s : State) : Event → Prop
  | .store call => ∀ nowOffline, s.toStore call = some nowOffline →
    nowOffline = s.circuit.isOpen ∨ ∃ other, other ≠ call ∧ s.toStore other = some s.circuit.isOpen
  | .setOfflineStatus call done => ∀ nowOffline, s.toMark call = some nowOffline →
    (if done then nowOffline else s.marker) = s.circuit.isOpen ∨
      ∃ other, other ≠ call ∧ s.toMark other = some s.circuit.isOpen
  | _ => True

/-- Both places are right or are about to be put right. -/
structure Kept (s : State) : Prop where
  flag : Covered s.circuit.isOpen s.providersOffline s.toStore
  marker : Covered s.circuit.isOpen s.marker s.toMark

private theorem kept_step {s t : State} {e : Event} (hkept : Kept s) (htimely : Timely s e) (h : step s e = some t) :
    Kept t := by
  obtain hsilent | ⟨call, hdecided⟩ | ⟨call, rfl, hstored⟩ | ⟨call, done, rfl, hmarked⟩ := step_cases h
  · constructor
    · rw [hsilent.circuit, hsilent.flag, hsilent.toStore]
      exact hkept.flag
    · rw [hsilent.circuit, hsilent.marker, hsilent.toMark]
      exact hkept.marker
  · constructor
    · rw [hdecided.toStore]
      exact covered_learn _ _ _ _
    · rw [hdecided.toMark]
      exact covered_learn _ _ _ _
  · constructor
    · rw [hstored.circuit, hstored.toStore]
      exact covered_write (htimely t.providersOffline hstored.flag)
    · rw [hstored.circuit, hstored.marker, hstored.toMark]
      exact hkept.marker
  · obtain ⟨nowOffline, hmark, hmarker⟩ := hmarked.marker
    constructor
    · rw [hmarked.circuit, hmarked.flag, hmarked.toStore]
      exact hkept.flag
    · rw [hmarked.circuit, hmarker, hmarked.toMark]
      exact covered_write (htimely nowOffline hmark)

def start : State := {}

private theorem kept_start : Kept start := ⟨.inl rfl, .inl rfl⟩

theorem Kept.follows {s : State} (h : Kept s) (hquiet : Quiet s) : Follows s := by
  have hstore : ∀ call, s.toStore call = none := by
    intro call
    have hmark := hquiet call
    cases hphase : s.calls call with
    | decided nowOffline =>
      rw [toMark_of hphase] at hmark
      cases hmark
    | _ => exact toStore_of hphase
  exact ⟨h.flag.settled hstore, h.marker.settled hquiet⟩

/-- In a run whose publications are all timely the flag and the marker follow the circuit whenever all calls have
returned. -/
theorem offline_follows_circuit {es first rest : List Event} {t : State} (htimely : Meets step Timely start es)
    (hsplit : es = first ++ rest) (hrun : exec step start first = some t) (hquiet : Quiet t) : Follows t := by
  rw [hsplit, meets_append] at htimely
  exact (exec_invariant (fun _ _ _ => kept_step) kept_start htimely.1 hrun).follows hquiet

/-- Two calls in turn: the second failure opens the circuit. -/
def outage : List Event :=
  [.beginProviderAttempt 0 1 0, .decide 0 10 false false true, .store 0, .setOfflineStatus 0 true,
    .beginProviderAttempt 1 1 20, .decide 1 30 false false true, .store 1, .setOfflineStatus 1 true]

/-- The state that a schedule from the start ends in. -/
def after (es : List Event) : State := (exec step start es).getD start

theorem offline_follows_outage : Follows (after outage) := by
  have hrun : exec step start outage = some (after outage) := rfl
  have htimely : Meets step Timely start outage :=
    .step rfl trivial <| .step rfl trivial <| .step rfl (fun _ hb => .inl (by cases hb; rfl)) <|
      .step rfl (fun _ hb => .inl (by cases hb; rfl)) <| .step rfl trivial <| .step rfl trivial <|
      .step rfl (fun _ hb => .inl (by cases hb; rfl)) <| .step rfl (fun _ hb => .inl (by cases hb; rfl)) trivial
  have hquiet : Quiet (after outage)
    | 0 | 1 | _ + 2 => rfl
  exact offline_follows_circuit htimely (List.append_nil outage).symm hrun hquiet

/-! ### The condition is exact -/

/-- The two publications of a call. -/
def Publishes : Event → Prop
  | .store _ | .setOfflineStatus _ _ => True
  | _ => False

/-- One of the two places is wrong, and no call that is still to publish there knows it. -/
def Astray (s : State) : Prop :=
  Stuck s.circuit.isOpen s.providersOffline s.toStore ∨ Stuck s.circuit.isOpen s.marker s.toMark

private theorem astray_step {s t : State} {e : Event} (hastray : Astray s) (hpublishes : Publishes e)
    (h : step s e = some t) : Astray t := by
  cases e with
  | store call =>
    have hstored := store_stored h
    rw [Astray, hstored.circuit, hstored.marker, hstored.toStore, hstored.toMark]
    exact hastray.imp_left fun hflag => hflag.write (.inr hstored.flag)
  | setOfflineStatus call done =>
    have hmarked := mark_marked h
    obtain ⟨nowOffline, hmark, hmarker⟩ := hmarked.marker
    rw [Astray, hmarked.circuit, hmarked.flag, hmarker, hmarked.toStore, hmarked.toMark]
    refine hastray.imp_right fun hplace => hplace.write ?_
    cases done with
    | true => exact .inr hmark
    | false => exact .inl rfl
  | beginProviderAttempt _ _ _ => cases hpublishes
  | decide _ _ _ _ _ => cases hpublishes
  | resetSessionState => cases hpublishes

private theorem stuck_of_late {pending : CallId → Option Bool} {call : CallId} {truth written : Bool}
    (hwritten : written ≠ truth) (hlate : ¬∃ other, other ≠ call ∧ pending other = some truth) :
    Stuck truth written (Function.update pending call none) := by
  refine ⟨hwritten, fun other hother => ?_⟩
  by_cases hcall : other = call
  · rw [hcall, Function.update_self] at hother
    cases hother
  · rw [Function.update_of_ne hcall] at hother
    exact hlate ⟨other, hcall, hother⟩

private theorem astray_of_untimely {s t : State} {e : Event} (huntimely : ¬Timely s e) (h : step s e = some t) :
    Astray t := by
  cases e with
  | store call =>
    have hstored := store_stored h
    simp only [Timely, hstored.flag, Option.some.injEq, forall_eq', not_or] at huntimely
    refine .inl ?_
    rw [hstored.circuit, hstored.toStore]
    exact stuck_of_late huntimely.1 huntimely.2
  | setOfflineStatus call done =>
    have hmarked := mark_marked h
    obtain ⟨nowOffline, hmark, hmarker⟩ := hmarked.marker
    simp only [Timely, hmark, Option.some.injEq, forall_eq', not_or] at huntimely
    refine .inr ?_
    rw [hmarked.circuit, hmarker, hmarked.toMark]
    exact stuck_of_late huntimely.1 huntimely.2
  | beginProviderAttempt _ _ _ => exact absurd trivial huntimely
  | decide _ _ _ _ _ => exact absurd trivial huntimely
  | resetSessionState => exact absurd trivial huntimely

/-- What one untimely publication leaves, the publications that are still to come do not put right. -/
theorem untimely_lasts {s t u : State} {e : Event} {es : List Event} (huntimely : ¬Timely s e) (h : step s e = some t)
    (hes : ∀ e ∈ es, Publishes e) (hrun : exec step t es = some u) : ¬Follows u := by
  have hall : Meets step (fun _ e => Publishes e) t es := meets_of_forall (fun e he _ => hes e he) t
  intro hfollows
  obtain hflag | hmarker := exec_invariant (fun _ _ _ => astray_step) (astray_of_untimely huntimely h) hall hrun
  · exact hflag.1 hfollows.flag
  · exact hmarker.1 hfollows.marker

/-- A rate limit and a success that are decided in one order and published in the other. -/
def latePublication : List Event :=
  [.beginProviderAttempt 0 1 0, .beginProviderAttempt 1 1 0, .decide 0 10 false true false, .decide 1 20 true false false,
    .store 1, .setOfflineStatus 1 true, .store 0, .setOfflineStatus 0 true]

/-- The flag and the marker say that the providers are offline, the circuit is closed. -/
theorem latePublication_lasts :
    ¬∀ (es : List Event) (t : State), exec step start es = some t → Quiet t → Follows t := by
  intro h
  have hrun : exec step start latePublication = some (after latePublication) := rfl
  have hquiet : Quiet (after latePublication)
    | 0 | 1 | _ + 2 => rfl
  have hflag := (h latePublication _ hrun hquiet).flag
  exact absurd hflag (by decide)

end SlsteamMoon.ProviderCircuit
