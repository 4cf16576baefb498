import Mathlib.Data.Nat.Notation
import Mathlib.Tactic.SplitIfs

/-! Five bytes of code in Steam and the retried write to them. What the callbacks answer, and what a write leaves,
depends on a context of which nothing is known. -/
namespace SlsteamMoon.AppInfoState

def kDetourBytes : Nat := 5

abbrev Bytes := Vector UInt8 kDetourBytes

structure ProtectionBaseline where
  value : UInt32 := 0
  valid : Bool := false
  deriving DecidableEq

structure WriteOutcome where
  attempted : Bool := false
  writeReportedComplete : Bool := false
  desiredBytesVerified : Bool := false
  originalProtectionVerified : Bool := false
  deriving DecidableEq

/-- The bytes in memory with the context. The two flags say whether a write was ever attempted, and whether the
baseline protection was restored and verified after the last attempt. -/
structure Target (σ : Type*) where
  bytes : Bytes
  context : σ
  attempted : Bool := false
  verified : Bool := false

/-- A write reports a count and leaves any bytes; a read yields the bytes that are there, or fails. -/
structure TargetWriteCallbacks (σ : Type*) where
  makeWritable : σ → Bool × σ
  write : Bytes → Bytes → σ → (Nat × Bytes) × σ
  read : σ → Bool × σ
  restoreBaseline : ProtectionBaseline → σ → Bool × σ

variable {σ : Type*}

namespace Target

def read (t : Target σ) (read : σ → Bool × σ) : Option Bytes × Target σ :=
  (if (read t.context).1 then some t.bytes else none, { t with context := (read t.context).2 })

/-- One turn of the loop on a page that was made writable. -/
def attemptWrite (callbacks : TargetWriteCallbacks σ) (bytes : Bytes) (baseline : ProtectionBaseline)
    (t : Target σ) : WriteOutcome × Target σ :=
  let wrote := callbacks.write t.bytes bytes t.context
  let written : Target σ := { bytes := wrote.1.2, context := wrote.2, attempted := true, verified := false }
  let observed := written.read callbacks.read
  let restored := callbacks.restoreBaseline baseline observed.2.context
  ({ attempted := true
     writeReportedComplete := wrote.1.1 = kDetourBytes
     desiredBytesVerified := observed.1 = some bytes
     originalProtectionVerified := restored.1 },
    { observed.2 with context := restored.2, verified := restored.1 })

def writeAttempts (callbacks : TargetWriteCallbacks σ) (bytes : Bytes) (baseline : ProtectionBaseline) :
    Nat → WriteOutcome → Target σ → WriteOutcome × Target σ
  | 0, outcome, t => (outcome, t)
  | n + 1, outcome, t =>
    let writable := callbacks.makeWritable t.context
    let t := { t with context := writable.2 }
    if ¬writable.1 then
      if outcome.attempted then (outcome, t) else writeAttempts callbacks bytes baseline n outcome t
    else
      let attempt := t.attemptWrite callbacks bytes baseline
      if attempt.1.originalProtectionVerified then attempt
      else writeAttempts callbacks bytes baseline n attempt.1 attempt.2

/-- There are no callbacks when the context or one of them is null. -/
def writeWithRetainedBaseline (t : Target σ) (callbacks : Option (TargetWriteCallbacks σ)) (bytes : Bytes)
    (baseline : ProtectionBaseline) (retryCount : Nat) : WriteOutcome × Target σ :=
  match callbacks with
  | none => ({}, t)
  | some callbacks =>
    if ¬baseline.valid ∨ retryCount = 0 then ({}, t)
    else t.writeAttempts callbacks bytes baseline retryCount {}

/-- The same bytes and the same history of writes. -/
structure Unwritten (t next : Target σ) : Prop where
  bytes : next.bytes = t.bytes
  attempted : next.attempted = t.attempted
  verified : next.verified = t.verified

theorem Unwritten.refl (t : Target σ) : Unwritten t t := ⟨rfl, rfl, rfl⟩

theorem Unwritten.trans {t next last : Target σ} (h : Unwritten t next) (h' : Unwritten next last) :
    Unwritten t last :=
  ⟨h'.bytes.trans h.bytes, h'.attempted.trans h.attempted, h'.verified.trans h.verified⟩

theorem read_some {t : Target σ} {read : σ → Bool × σ} {current : Bytes} (h : (t.read read).1 = some current) :
    current = t.bytes := by
  simp only [Target.read] at h
  split_ifs at h
  exact (Option.some.inj h).symm

/-- An outcome tells whether anything was written, and then whether the baseline holds again. -/
structure Reports (start : Target σ) (outcome : WriteOutcome) (t : Target σ) : Prop where
  unattempted : outcome.attempted = false → start.Unwritten t
  attempted : outcome.attempted = true → t.attempted = true ∧ t.verified = outcome.originalProtectionVerified

private theorem attemptWrite_reports (start t : Target σ) (callbacks : TargetWriteCallbacks σ) (bytes : Bytes)
    (baseline : ProtectionBaseline) :
    Reports start (t.attemptWrite callbacks bytes baseline).1 (t.attemptWrite callbacks bytes baseline).2 :=
  ⟨fun h => Bool.noConfusion h, fun _ => ⟨rfl, rfl⟩⟩

private theorem writeAttempts_reports (callbacks : TargetWriteCallbacks σ) (bytes : Bytes)
    (baseline : ProtectionBaseline)
    (n : Nat) {start t : Target σ} {outcome : WriteOutcome} (h : start.Reports outcome t) :
    start.Reports (t.writeAttempts callbacks bytes baseline n outcome).1
      (t.writeAttempts callbacks bytes baseline n outcome).2 := by
  induction n generalizing t outcome with
  | zero => exact h
  | succ n ih =>
    have hasked : start.Reports outcome { t with context := (callbacks.makeWritable t.context).2 } :=
      ⟨fun hnone => (h.unattempted hnone).trans ⟨rfl, rfl, rfl⟩, h.attempted⟩
    simp only [writeAttempts]
    split_ifs
    · exact attemptWrite_reports ..
    · exact ih (attemptWrite_reports ..)
    · exact hasked
    · exact ih hasked

theorem writeWithRetainedBaseline_reports (t : Target σ) (callbacks : Option (TargetWriteCallbacks σ))
    (bytes : Bytes) (baseline : ProtectionBaseline) (retryCount : Nat) :
    t.Reports (t.writeWithRetainedBaseline callbacks bytes baseline retryCount).1
      (t.writeWithRetainedBaseline callbacks bytes baseline retryCount).2 := by
  have hnothing : t.Reports {} t := ⟨fun _ => .refl t, fun h => Bool.noConfusion h⟩
  cases callbacks with
  | none => exact hnothing
  | some callbacks =>
    simp only [writeWithRetainedBaseline]
    split_ifs
    · exact hnothing
    · exact writeAttempts_reports callbacks bytes baseline retryCount hnothing

end Target

end SlsteamMoon.AppInfoState

/-! The state of a detour over its calls. Memory is released only where the state is eligible. -/
namespace SlsteamMoon.AppInfoState

variable {σ : Type*}

structure TargetWrite (σ : Type*) where
  callbacks : Option (TargetWriteCallbacks σ)
  retryCount : Nat

/-- A function that is null is none. -/
structure ByteAccess (σ : Type*) where
  read : Option (σ → Bool × σ)
  write : Option (TargetWrite σ)

inductive PatchResult where
  | applied | untouched | restored | retained | catastrophic
  deriving DecidableEq

structure PatchState where
  original : Bytes
  hook : Bytes
  baseline : ProtectionBaseline
  configured : Bool := false
  installed : Bool := false
  freeEligible_ : Bool := false
  catastrophic : Bool := false
  writeAttempted : Bool := false
  protectionVerified : Bool := false
  deriving DecidableEq

namespace PatchState

def configure (original hook : Bytes) (baseline : ProtectionBaseline) : PatchState :=
  { original, hook, baseline, configured := true }

def freeEligible (p : PatchState) : Bool := p.freeEligible_ && !p.catastrophic

/-- The two functions of an access that can be used. -/
def usable (p : PatchState) (access : ByteAccess σ) : Option ((σ → Bool × σ) × TargetWrite σ) :=
  match access.read, access.write with
  | some read, some write => if p.configured ∧ p.baseline.valid then some (read, write) else none
  | _, _ => none

/-- Nothing was attempted, or the protection is back. -/
def settled (p : PatchState) : Bool := !p.writeAttempted || p.protectionVerified

end PatchState

/-- The state together with the memory that it patches. -/
structure Site (σ : Type*) where
  state : PatchState
  target : Target σ

namespace Site

def read (s : Site σ) (read : σ → Bool × σ) : Option Bytes × Site σ :=
  ((s.target.read read).1, { s with target := (s.target.read read).2 })

def write (s : Site σ) (write : TargetWrite σ) (bytes : Bytes) : WriteOutcome × Site σ :=
  let wrote := s.target.writeWithRetainedBaseline write.callbacks bytes s.state.baseline write.retryCount
  (wrote.1,
    { state :=
        if wrote.1.attempted then
          { s.state with writeAttempted := true, protectionVerified := wrote.1.originalProtectionVerified }
        else s.state
      target := wrote.2 })

def untouched (s : Site σ) : PatchResult × Site σ :=
  (.untouched, { s with state := { s.state with installed := false, freeEligible_ := true } })

def retained (s : Site σ) : PatchResult × Site σ :=
  (.retained, { s with state := { s.state with installed := true, freeEligible_ := false } })

def restored (s : Site σ) : PatchResult × Site σ :=
  if s.state.writeAttempted ∧ ¬s.state.protectionVerified then s.retained
  else (.restored, { s with state := { s.state with installed := false, freeEligible_ := true } })

def markCatastrophic (s : Site σ) : PatchResult × Site σ :=
  (.catastrophic,
    { s with state := { s.state with catastrophic := true, installed := true, freeEligible_ := false } })

def classifyOriginal (s : Site σ) : PatchResult × Site σ :=
  if ¬s.state.writeAttempted then s.untouched
  else if s.state.protectionVerified then s.restored
  else s.retained

/-- The hook is there: installed, and not eligible. -/
def hooked (s : Site σ) (result : PatchResult) : PatchResult × Site σ :=
  (result, { s with state := { s.state with installed := true, freeEligible_ := false } })

/-- The one checked rollback of a write that failed or cannot be verified. -/
def rollback (s : Site σ) (read : σ → Bool × σ) (write : TargetWrite σ) : PatchResult × Site σ :=
  let wrote := (s.write write s.state.original).2
  let first := wrote.read read
  if first.1 = some first.2.state.original then first.2.classifyOriginal
  else
    let second := first.2.read read
    if second.1 = some second.2.state.hook then second.2.hooked .retained else second.2.markCatastrophic

def patchWrite (s : Site σ) (read : σ → Bool × σ) (write : TargetWrite σ) : PatchResult × Site σ :=
  let wrote := s.write write s.state.hook
  let current := wrote.2.read read
  if current.1 = some current.2.state.hook then
    current.2.hooked
      (if wrote.1.writeReportedComplete ∧ wrote.1.desiredBytesVerified ∧ wrote.1.originalProtectionVerified then
        .applied
      else .retained)
  else if current.1 = some current.2.state.original then current.2.classifyOriginal
  else current.2.rollback read write

def patch (s : Site σ) (access : ByteAccess σ) : PatchResult × Site σ :=
  match s.state.usable access with
  | none => (.catastrophic, s)
  | some (read, write) =>
    if s.state.catastrophic then (.catastrophic, s)
    else
      let current := s.read read
      match current.1 with
      | none => current.2.markCatastrophic
      | some bytes =>
        if bytes = s.state.hook then current.2.hooked .applied
        else if bytes ≠ s.state.original then current.2.markCatastrophic
        else current.2.patchWrite read write

/-- A turn of the loop of restore, with what comes after it. -/
def restoreTurn (read : σ → Bool × σ) (write : TargetWrite σ) (next : Site σ → PatchResult × Site σ) (s : Site σ) :
    PatchResult × Site σ :=
  let before := s.read read
  match before.1 with
  | none => before.2.markCatastrophic
  | some bytes =>
    if bytes = s.state.original ∧ before.2.state.settled then
      if before.2.state.writeAttempted then before.2.restored else before.2.untouched
    else if bytes ≠ s.state.original ∧ bytes ≠ s.state.hook then before.2.markCatastrophic
    else
      let after := (before.2.write write s.state.original).2.read read
      match after.1 with
      | none => after.2.markCatastrophic
      | some bytes =>
        if bytes = s.state.original then
          if after.2.state.settled then
            if after.2.state.writeAttempted then after.2.restored else after.2.untouched
          else next after.2
        else if bytes ≠ s.state.hook then after.2.markCatastrophic
        else next after.2

def restoreAttempts (read : σ → Bool × σ) (write : TargetWrite σ) : Nat → Site σ → PatchResult × Site σ
  | 0, s => s.hooked .retained
  | n + 1, s => s.restoreTurn read write (restoreAttempts read write n)

def restore (s : Site σ) (access : ByteAccess σ) : PatchResult × Site σ :=
  match s.state.usable access with
  | none => (.catastrophic, s)
  | some (read, write) =>
    if s.state.catastrophic then (.catastrophic, s) else restoreAttempts read write 3 s

end Site

end SlsteamMoon.AppInfoState
