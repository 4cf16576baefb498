import Mathlib.Logic.Function.Basic
import Mathlib.Data.List.Basic
import SlsteamMoon.Runs

/-! Donor requests over Steam's own connection. A step is a section under the donor lock
or the return of a foreign call; each thread has a stack, since a send may re-enter. -/
namespace SlsteamMoon.ManifestCode
open Runs

structure PassiveRequest where
  depotId : UInt32
  gid : UInt64
  generation : UInt64
  deriving DecidableEq, Repr

/-- A promise that is destroyed unsatisfied leaves a broken future. -/
inductive Outcome where
  | value (code : UInt64)
  | broken
  deriving DecidableEq, Repr

/-- A send hook that has read the context generation, zero during a reset. The counts at
that time are history. -/
structure SendHook where
  generation : UInt64
  connection : Option Nat
  header : List UInt8
  increments : Nat
  resetCalls : Nat
  deriving DecidableEq, Repr

/-- What a thread is in the middle of. A drain and what follows it carry the number of
their reset, and a send the number of resets before its connection was captured. -/
inductive Frame where
  | sending (job : UInt64) (connection : Nat) (capturedAt : Nat)
  | sent (job : UInt64) (accepted : Bool)
  | rejected (job : UInt64)
  | resolving (promise : Option Nat) (sent : Option PassiveRequest) (code : UInt64)
  | hooked (hook : SendHook)
  | resetWaits
  | resetDrains (n : Nat)
  | resetDone (n : Nat)
  deriving DecidableEq, Repr

namespace Frame

def isSending : Frame → Bool
  | .sending _ _ _ => true
  | _ => false

/-- Counted in g_DonorActiveSends. -/
def isActive : Frame → Bool
  | .sending _ _ _ => true
  | .sent _ _ => true
  | _ => false

def holds (r : Nat) : Frame → Bool
  | .resolving (some p) _ _ => p = r
  | _ => false

end Frame

def donorJobBase : UInt64 := 0x7e51000000000000

/-- Requests have numbers; the outcomes of a request's future are listed. The first frame
of a thread is the top of its stack. -/
structure DonorState where
  activeSends : Nat := 0
  resetting : Bool := false
  deferredReset : Bool := false
  contextGeneration : UInt64 := 1
  connection : Option Nat := none
  header : List UInt8 := []
  nextDonorJob : UInt64 := donorJobBase
  pending : List (UInt64 × Nat) := []
  passive : List (UInt64 × PassiveRequest) := []
  frames : List (Nat × Frame) := []
  requests : Nat := 0
  futures : Nat → List Outcome := fun _ => []
  submitted : List (PassiveRequest × UInt64) := []
  capturedAt : Nat := 0
  increments : Nat := 0
  resetCalls : Nat := 0

/-- What the environment decides about a request: the trampoline is there, the captured
header parses and the frame can be encoded. -/
structure Encoding where
  tramp : Bool := true
  headerParses : Bool := true
  encodes : Bool := true
  deriving DecidableEq, Repr

inductive DonorEvent where
  | requestCode (i : Nat) (depotId : UInt32) (gid : UInt64) (encoding : Encoding)
  | sendReturns (i : Nat) (accepted : Bool)
  | sendSection (i : Nat)
  | rejectSection (i : Nat)
  | discardRequest (i : Nat) (job : UInt64)
  | resolveDonorResponse (i : Nat) (job code : UInt64)
  | complete (i : Nat)
  | observe (i : Nat) (job : UInt64) (request : PassiveRequest) (expired : List UInt64)
  | hookReads (i : Nat) (connection : Option Nat) (header : List UInt8)
  | hookCaptures (i : Nat)
  | resetSession (i : Nat)
  | resetWakes (i : Nat)
  | resetDrained (i : Nat)
  | resetReturns (i : Nat)
  deriving DecidableEq, Repr

namespace DonorState

def top (s : DonorState) (i : Nat) : Option Frame := (s.frames.find? fun f => f.1 = i).map Prod.snd

/-- t_DonorSendDepth. -/
def sendDepth (s : DonorState) (i : Nat) : Nat := s.frames.countP fun f => f.1 = i ∧ f.2.isSending

/-- The thread is outside of these functions, or in a foreign send. -/
def canCall (s : DonorState) (i : Nat) : Bool := (s.top i).all Frame.isSending

def push (s : DonorState) (i : Nat) (f : Frame) : DonorState := { s with frames := (i, f) :: s.frames }

def pop (s : DonorState) (i : Nat) : DonorState := { s with frames := s.frames.eraseP fun f => f.1 = i }

def completePromise (s : DonorState) (r : Nat) (o : Outcome) : DonorState :=
  { s with futures := Function.update s.futures r (s.futures r ++ [o]) }

/-- The entry of a job is completed with zero and erased. -/
def failPending (s : DonorState) (job : UInt64) : DonorState :=
  match s.pending.find? fun p => p.1 = job with
  | some p => { s with pending := s.pending.eraseP fun p => p.1 = job }.completePromise p.2 (.value 0)
  | none => s

def clearDonorSessionLocked (s : DonorState) : DonorState :=
  let completed := s.pending.foldl (fun s p => s.completePromise p.2 (.value 0)) s
  { completed with pending := [], passive := [], connection := none, header := [] }

/-- A new request fails at once. -/
def failRequest (s : DonorState) : DonorState :=
  { s with requests := s.requests + 1 }.completePromise s.requests (.value 0)

/-- The promise goes under its job; an entry that is there stays, and the promise is destroyed. -/
def emplacePending (s : DonorState) (job : UInt64) (r : Nat) : DonorState :=
  if s.pending.any fun p => p.1 = job then s.completePromise r .broken
  else { s with pending := (job, r) :: s.pending }

def requestCode (s : DonorState) (i : Nat) (depotId : UInt32) (gid : UInt64) (encoding : Encoding) : DonorState :=
  if depotId = 0 ∨ gid = 0 then s.failRequest
  else match s.connection with
    | none => s.failRequest
    | some connection =>
      if s.resetting ∨ s.header = [] ∨ ¬ encoding.tramp ∨ 128 ≤ s.pending.length then s.failRequest
      else if ¬ encoding.headerParses then s.failRequest
      else
        let job := s.nextDonorJob + 1
        let numbered := { s with nextDonorJob := job }
        if ¬ encoding.encodes then numbered.failRequest
        else
          { { numbered with requests := s.requests + 1 }.emplacePending job s.requests with
            activeSends := s.activeSends + 1 }.push i (.sending job connection s.capturedAt)

/-- The last active send carries out a deferred reset. -/
def sendSection (s : DonorState) : DonorState :=
  let left := { s with activeSends := s.activeSends - 1 }
  if left.activeSends = 0 ∧ s.deferredReset then
    { left.clearDonorSessionLocked with deferredReset := false, resetting := false }
  else left

def resolveDonorResponse (s : DonorState) (i : Nat) (job code : UInt64) : DonorState :=
  let originated := s.pending.find? fun p => p.1 = job
  let passive := s.passive.find? fun p => p.1 = job
  if originated.isNone ∧ passive.isNone then s
  else
    { s with
      pending := s.pending.eraseP fun p => p.1 = job
      passive := s.passive.eraseP fun p => p.1 = job }.push i
        (.resolving (originated.map Prod.snd) (passive.map Prod.snd) code)

def completeOriginated (s : DonorState) (promise : Option Nat) (code : UInt64) : DonorState :=
  match promise with
  | some r => s.completePromise r (.value code)
  | none => s

/-- Outside the lock the promise is completed and a captured code handed on. -/
def completeResolved (s : DonorState) (promise : Option Nat) (sent : Option PassiveRequest) (code : UInt64) :
    DonorState :=
  let completed := s.completeOriginated promise code
  match sent with
  | some request =>
    if code ≠ 0 then { completed with submitted := completed.submitted ++ [(request, code)] } else completed
  | none => completed

def observe (s : DonorState) (job : UInt64) (request : PassiveRequest) (expired : List UInt64) : DonorState :=
  let kept := s.passive.filter fun p => p.1 ∉ expired
  if ¬ s.resetting ∧ kept.length < 4096 then { s with passive := (job, request) :: kept.filter fun p => p.1 ≠ job }
  else { s with passive := kept }

def hookReads (s : DonorState) (connection : Option Nat) (header : List UInt8) : SendHook :=
  { generation := if s.resetting then 0 else s.contextGeneration
    connection
    header
    increments := s.increments
    resetCalls := s.resetCalls }

/-- What the hook waits for. -/
def hookGoesOn (s : DonorState) (i : Nat) (hook : SendHook) : Bool :=
  s.sendDepth i ≠ 0 ∨ s.activeSends = 0 ∨ s.resetting ∨ hook.generation ≠ s.contextGeneration

def installs (s : DonorState) (i : Nat) (hook : SendHook) : Bool :=
  s.sendDepth i = 0 ∧ hook.connection.isSome ∧ hook.generation ≠ 0 ∧ ¬ s.resetting ∧
    hook.generation = s.contextGeneration

def hookCaptures (s : DonorState) (i : Nat) (hook : SendHook) : DonorState :=
  if s.installs i hook then
    { s with connection := hook.connection, header := hook.header, capturedAt := s.increments }
  else s

/-- The section that starts a reset. Inside a send it is left to the last active sender. -/
def beginReset (s : DonorState) (i : Nat) : DonorState :=
  let cleared :=
    { s with
      resetting := true
      contextGeneration := s.contextGeneration + 1
      increments := s.increments + 1
      resetCalls := s.resetCalls + 1 }.clearDonorSessionLocked
  if s.sendDepth i ≠ 0 then { cleared with deferredReset := true } else cleared.push i (.resetDrains (s.increments + 1))

def resetSession (s : DonorState) (i : Nat) : DonorState :=
  if s.resetting then
    if s.sendDepth i ≠ 0 then { s with resetCalls := s.resetCalls + 1 } else s.push i .resetWaits
  else s.beginReset i

def step (s : DonorState) : DonorEvent → Option DonorState
  | .requestCode i depotId gid encoding => if s.canCall i then some (s.requestCode i depotId gid encoding) else none
  | .sendReturns i accepted =>
    match s.top i with
    | some (.sending job _ _) => some ((s.pop i).push i (.sent job accepted))
    | _ => none
  | .sendSection i =>
    match s.top i with
    | some (.sent job accepted) =>
      some (if accepted then (s.pop i).sendSection else (s.pop i).sendSection.push i (.rejected job))
    | _ => none
  | .rejectSection i =>
    match s.top i with
    | some (.rejected job) => some ((s.pop i).failPending job)
    | _ => none
  | .discardRequest i job =>
    if s.canCall i then some (if job = 0 then s else s.failPending job) else none
  | .resolveDonorResponse i job code => if s.canCall i then some (s.resolveDonorResponse i job code) else none
  | .complete i =>
    match s.top i with
    | some (.resolving promise sent code) => some ((s.pop i).completeResolved promise sent code)
    | _ => none
  | .observe i job request expired => if s.canCall i then some (s.observe job request expired) else none
  | .hookReads i connection header =>
    if s.canCall i then some (s.push i (.hooked (s.hookReads connection header))) else none
  | .hookCaptures i =>
    match s.top i with
    | some (.hooked hook) => if s.hookGoesOn i hook then some ((s.pop i).hookCaptures i hook) else none
    | _ => none
  | .resetSession i => if s.canCall i then some (s.resetSession i) else none
  | .resetWakes i =>
    match s.top i with
    | some .resetWaits => if s.resetting then none else some ((s.pop i).beginReset i)
    | _ => none
  | .resetDrained i =>
    match s.top i with
    | some (.resetDrains n) =>
      if s.activeSends = 0 then
        some ({ s.pop i with resetting := false }.clearDonorSessionLocked.push i (.resetDone n))
      else none
    | _ => none
  | .resetReturns i =>
    match s.top i with
    | some (.resetDone _) => some (s.pop i)
    | _ => none

/-- What a step can do to the state. -/
inductive Moves (s : DonorState) : DonorState → Prop
  | stays : Moves s s
  | requestCode (i : Nat) (depotId : UInt32) (gid : UInt64) (encoding : Encoding) :
      Moves s (s.requestCode i depotId gid encoding)
  | sendReturns {i : Nat} {job : UInt64} {connection capturedAt : Nat} {accepted : Bool}
      (htop : s.top i = some (.sending job connection capturedAt)) : Moves s ((s.pop i).push i (.sent job accepted))
  | sendSection {i : Nat} {job : UInt64} {accepted : Bool} (htop : s.top i = some (.sent job accepted)) :
      Moves s (s.pop i).sendSection
  | sendRefused {i : Nat} {job : UInt64} {accepted : Bool} (htop : s.top i = some (.sent job accepted)) :
      Moves s ((s.pop i).sendSection.push i (.rejected job))
  | rejectSection {i : Nat} {job : UInt64} (htop : s.top i = some (.rejected job)) : Moves s ((s.pop i).failPending job)
  | discardRequest (job : UInt64) : Moves s (s.failPending job)
  | resolveDonorResponse (i : Nat) (job code : UInt64) : Moves s (s.resolveDonorResponse i job code)
  | complete {i : Nat} {promise : Option Nat} {sent : Option PassiveRequest} {code : UInt64}
      (htop : s.top i = some (.resolving promise sent code)) : Moves s ((s.pop i).completeResolved promise sent code)
  | observe (job : UInt64) (request : PassiveRequest) (expired : List UInt64) : Moves s (s.observe job request expired)
  | hookReads (i : Nat) (connection : Option Nat) (header : List UInt8) :
      Moves s (s.push i (.hooked (s.hookReads connection header)))
  | hookCaptures {i : Nat} {hook : SendHook} (htop : s.top i = some (.hooked hook)) :
      Moves s ((s.pop i).hookCaptures i hook)
  | resetSession (i : Nat) : Moves s (s.resetSession i)
  | resetWakes {i : Nat} (htop : s.top i = some .resetWaits) : Moves s ((s.pop i).beginReset i)
  | resetDrained {i n : Nat} (htop : s.top i = some (.resetDrains n)) (hdrained : s.activeSends = 0) :
      Moves s ({ s.pop i with resetting := false }.clearDonorSessionLocked.push i (.resetDone n))
  | resetReturns {i n : Nat} (htop : s.top i = some (.resetDone n)) : Moves s (s.pop i)

theorem step_moves {s t : DonorState} {e : DonorEvent} (hstep : s.step e = some t) : s.Moves t := by
  cases e with
  | requestCode i depotId gid encoding =>
    simp only [step, Option.ite_none_right_eq_some] at hstep
    obtain ⟨-, ⟨⟩⟩ := hstep
    exact .requestCode i depotId gid encoding
  | sendReturns i accepted =>
    simp only [step] at hstep
    split at hstep
    · rename_i htop
      obtain rfl := Option.some.inj hstep
      exact .sendReturns htop
    · cases hstep
  | sendSection i =>
    simp only [step] at hstep
    split at hstep
    · rename_i htop
      obtain rfl := Option.some.inj hstep
      split
      · exact .sendSection htop
      · exact .sendRefused htop
    · cases hstep
  | rejectSection i =>
    simp only [step] at hstep
    split at hstep
    · rename_i htop
      obtain rfl := Option.some.inj hstep
      exact .rejectSection htop
    · cases hstep
  | discardRequest i job =>
    simp only [step, Option.ite_none_right_eq_some] at hstep
    obtain ⟨-, hstep⟩ := hstep
    obtain rfl := Option.some.inj hstep
    split
    · exact .stays
    · exact .discardRequest job
  | resolveDonorResponse i job code =>
    simp only [step, Option.ite_none_right_eq_some] at hstep
    obtain ⟨-, ⟨⟩⟩ := hstep
    exact .resolveDonorResponse i job code
  | complete i =>
    simp only [step] at hstep
    split at hstep
    · rename_i htop
      obtain rfl := Option.some.inj hstep
      exact .complete htop
    · cases hstep
  | observe i job request expired =>
    simp only [step, Option.ite_none_right_eq_some] at hstep
    obtain ⟨-, ⟨⟩⟩ := hstep
    exact .observe job request expired
  | hookReads i connection header =>
    simp only [step, Option.ite_none_right_eq_some] at hstep
    obtain ⟨-, ⟨⟩⟩ := hstep
    exact .hookReads i connection header
  | hookCaptures i =>
    simp only [step] at hstep
    split at hstep
    · rename_i htop
      simp only [Option.ite_none_right_eq_some] at hstep
      obtain ⟨-, ⟨⟩⟩ := hstep
      exact .hookCaptures htop
    · cases hstep
  | resetSession i =>
    simp only [step, Option.ite_none_right_eq_some] at hstep
    obtain ⟨-, ⟨⟩⟩ := hstep
    exact .resetSession i
  | resetWakes i =>
    simp only [step] at hstep
    split at hstep
    · rename_i htop
      simp only [Option.ite_none_left_eq_some] at hstep
      obtain ⟨-, ⟨⟩⟩ := hstep
      exact .resetWakes htop
    · cases hstep
  | resetDrained i =>
    simp only [step] at hstep
    split at hstep
    · rename_i htop
      simp only [Option.ite_none_right_eq_some] at hstep
      obtain ⟨hdrained, ⟨⟩⟩ := hstep
      exact .resetDrained htop hdrained
    · cases hstep
  | resetReturns i =>
    simp only [step] at hstep
    split at hstep
    · rename_i htop
      obtain rfl := Option.some.inj hstep
      exact .resetReturns htop
    · cases hstep

end DonorState
end SlsteamMoon.ManifestCode
