import SlsteamMoon.AppInfoState.TargetWrite

/-! Runs of patch and restore calls on one detour. -/
namespace SlsteamMoon.AppInfoState

variable {σ : Type*}

namespace Site

/-- The original bytes, never written to or under the baseline protection again. -/
structure OverOriginal (s : Site σ) : Prop where
  bytes : s.target.bytes = s.state.original
  protection : s.target.attempted = false ∨ s.target.verified = true

/-- The two flags of the state agree with what was done to the memory. -/
structure Tracks (s : Site σ) : Prop where
  attempted : s.state.writeAttempted = s.target.attempted
  verified : s.target.attempted = true → s.state.protectionVerified = s.target.verified

structure SameSetup (p next : PatchState) : Prop where
  original : next.original = p.original
  hook : next.hook = p.hook
  baseline : next.baseline = p.baseline
  configured : next.configured = p.configured

/-- Where a call stands before its result. -/
structure Steady (start s : Site σ) : Prop where
  setup : SameSetup start.state s.state
  tracks : s.Tracks
  alive : s.state.catastrophic = false

/-- A result with what the state says then. -/
structure Ends (start : Site σ) (answer : PatchResult × Site σ) : Prop where
  setup : SameSetup start.state answer.2.state
  tracks : answer.2.Tracks
  released : answer.1 = .untouched ∨ answer.1 = .restored →
    answer.2.state.freeEligible = true ∧ answer.2.OverOriginal
  kept : answer.1 ≠ .untouched → answer.1 ≠ .restored →
    answer.2.state.installed = true ∧ answer.2.state.freeEligible = false
  catastrophic : answer.2.state.catastrophic = true ↔ answer.1 = .catastrophic

theorem Tracks.settled_iff {s : Site σ} (h : s.Tracks) :
    s.state.settled = true ↔ s.target.attempted = false ∨ s.target.verified = true := by
  rw [PatchState.settled, Bool.or_eq_true, Bool.not_eq_true', h.attempted]
  cases hattempted : s.target.attempted with
  | false => simp
  | true => rw [h.verified hattempted]

variable {start s : Site σ}

theorem Steady.read (h : Steady start s) (read : σ → Bool × σ) : Steady start (s.read read).2 :=
  ⟨h.setup, ⟨h.tracks.attempted, h.tracks.verified⟩, h.alive⟩

private theorem read_bytes {read : σ → Bool × σ} {bytes : Bytes} (hread : (s.read read).1 = some bytes) :
    (s.read read).2.target.bytes = bytes := (Target.read_some hread).symm

theorem Steady.write (h : Steady start s) (write : TargetWrite σ) (bytes : Bytes) :
    Steady start (s.write write bytes).2 := by
  have hreports := s.target.writeWithRetainedBaseline_reports write.callbacks bytes s.state.baseline write.retryCount
  simp only [Site.write]
  split_ifs with hattempted
  · obtain ⟨hwritten, hverified⟩ := hreports.attempted hattempted
    exact ⟨⟨h.setup.original, h.setup.hook, h.setup.baseline, h.setup.configured⟩,
      ⟨hwritten.symm, fun _ => hverified.symm⟩, h.alive⟩
  · have hunwritten := hreports.unattempted (eq_false_of_ne_true hattempted)
    refine ⟨h.setup, ⟨h.tracks.attempted.trans hunwritten.attempted.symm, fun hwritten => ?_⟩, h.alive⟩
    rw [hunwritten.attempted] at hwritten
    exact (h.tracks.verified hwritten).trans hunwritten.verified.symm

theorem Steady.markCatastrophic (h : Steady start s) : Ends start s.markCatastrophic where
  setup := ⟨h.setup.original, h.setup.hook, h.setup.baseline, h.setup.configured⟩
  tracks := ⟨h.tracks.attempted, h.tracks.verified⟩
  released := by rintro (hresult | hresult) <;> cases hresult
  kept := fun _ _ => ⟨rfl, rfl⟩
  catastrophic := ⟨fun _ => rfl, fun _ => rfl⟩

theorem Steady.hooked (h : Steady start s) {result : PatchResult} (hresult : result = .applied ∨ result = .retained) :
    Ends start (s.hooked result) where
  setup := ⟨h.setup.original, h.setup.hook, h.setup.baseline, h.setup.configured⟩
  tracks := ⟨h.tracks.attempted, h.tracks.verified⟩
  released := by
    rintro (hreleased | hreleased)
    · obtain rfl : result = .untouched := hreleased
      simp at hresult
    · obtain rfl : result = .restored := hreleased
      simp at hresult
  kept := fun _ _ => ⟨rfl, rfl⟩
  catastrophic := by
    refine ⟨fun hdead => absurd (hdead.symm.trans h.alive) (by decide), fun hdead => ?_⟩
    obtain rfl : result = .catastrophic := hdead
    simp at hresult

/-- A release over the original bytes. -/
theorem Steady.released (h : Steady start s) {result : PatchResult}
    (hresult : result = .untouched ∨ result = .restored) (hbytes : s.target.bytes = s.state.original)
    (hsettled : s.state.settled = true) :
    Ends start (result, { s with state := { s.state with installed := false, freeEligible_ := true } }) where
  setup := ⟨h.setup.original, h.setup.hook, h.setup.baseline, h.setup.configured⟩
  tracks := ⟨h.tracks.attempted, h.tracks.verified⟩
  released := by
    refine fun _ => ⟨?_, hbytes, h.tracks.settled_iff.mp hsettled⟩
    simp only [PatchState.freeEligible, h.alive, Bool.not_false, Bool.and_true]
  kept := fun huntouched hrestored => (hresult.elim huntouched hrestored).elim
  catastrophic := by
    refine ⟨fun hdead => absurd (hdead.symm.trans h.alive) (by decide), fun hdead => ?_⟩
    obtain rfl : result = .catastrophic := hdead
    simp at hresult

/-- Original bytes and a settled protection release the detour, as untouched or as restored. -/
theorem Steady.settled (h : Steady start s) (hbytes : s.target.bytes = s.state.original)
    (hsettled : s.state.settled = true) :
    Ends start (if s.state.writeAttempted then s.restored else s.untouched) := by
  split_ifs with hattempted
  · have hverified : s.state.protectionVerified = true := by
      simpa only [PatchState.settled, hattempted, Bool.not_true, Bool.false_or] using hsettled
    rw [restored, if_neg (by simp [hverified])]
    exact h.released (.inr rfl) hbytes hsettled
  · exact h.released (.inl rfl) hbytes hsettled

theorem Steady.classifyOriginal (h : Steady start s) (hbytes : s.target.bytes = s.state.original) :
    Ends start s.classifyOriginal := by
  by_cases hsettled : s.state.settled = true
  · have hfinal := h.settled hbytes hsettled
    simp only [Site.classifyOriginal]
    cases hattempted : s.state.writeAttempted with
    | false =>
      rw [hattempted] at hfinal
      exact hfinal
    | true =>
      have hverified : s.state.protectionVerified = true := by
        simpa only [PatchState.settled, hattempted, Bool.not_true, Bool.false_or] using hsettled
      rw [hattempted] at hfinal
      rw [hverified]
      exact hfinal
  · have hflags : s.state.writeAttempted = true ∧ s.state.protectionVerified = false := by
      simpa [PatchState.settled] using hsettled
    simp only [Site.classifyOriginal, hflags, not_true_eq_false, if_false, Bool.false_eq_true]
    exact h.hooked (.inr rfl)

theorem Steady.rollback (h : Steady start s) (read : σ → Bool × σ) (write : TargetWrite σ) :
    Ends start (s.rollback read write) := by
  have hwrote := h.write write s.state.original
  have hfirst := hwrote.read read
  simp only [Site.rollback]
  split_ifs with horiginal hhook
  · exact hfirst.classifyOriginal (read_bytes horiginal)
  · exact (hfirst.read read).hooked (.inr rfl)
  · exact (hfirst.read read).markCatastrophic

theorem Steady.patchWrite (h : Steady start s) (read : σ → Bool × σ) (write : TargetWrite σ) :
    Ends start (s.patchWrite read write) := by
  have hcurrent := (h.write write s.state.hook).read read
  simp only [Site.patchWrite]
  split_ifs with hhook hreported horiginal
  · exact hcurrent.hooked (.inl rfl)
  · exact hcurrent.hooked (.inr rfl)
  · exact hcurrent.classifyOriginal (read_bytes horiginal)
  · exact hcurrent.rollback read write

theorem Steady.restoreTurn (h : Steady start s) (read : σ → Bool × σ) (write : TargetWrite σ)
    {next : Site σ → PatchResult × Site σ} (hnext : ∀ s, Steady start s → Ends start (next s)) :
    Ends start (s.restoreTurn read write next) := by
  have hbefore := h.read read
  simp only [Site.restoreTurn]
  cases hread : (s.read read).1 with
  | none => exact hbefore.markCatastrophic
  | some bytes =>
    have hbytes := read_bytes hread
    dsimp only
    by_cases hdone : bytes = s.state.original ∧ (s.read read).2.state.settled = true
    · rw [if_pos hdone]
      exact hbefore.settled (hbytes.trans hdone.1) hdone.2
    · rw [if_neg hdone]
      by_cases hforeign : bytes ≠ s.state.original ∧ bytes ≠ s.state.hook
      · rw [if_pos hforeign]
        exact hbefore.markCatastrophic
      · rw [if_neg hforeign]
        have hafter := (hbefore.write write s.state.original).read read
        cases hagain : (((s.read read).2.write write s.state.original).2.read read).1 with
        | none => exact hafter.markCatastrophic
        | some now =>
          have hnow := read_bytes hagain
          dsimp only
          by_cases horiginal : now = s.state.original
          · rw [if_pos horiginal]
            by_cases hsettled : (((s.read read).2.write write s.state.original).2.read read).2.state.settled = true
            · rw [if_pos hsettled]
              refine hafter.settled ?_ hsettled
              rw [hnow, horiginal, hafter.setup.original, h.setup.original]
            · rw [if_neg hsettled]
              exact hnext _ hafter
          · rw [if_neg horiginal]
            by_cases hother : now ≠ s.state.hook
            · rw [if_pos hother]
              exact hafter.markCatastrophic
            · rw [if_neg hother]
              exact hnext _ hafter

theorem Steady.restoreAttempts (read : σ → Bool × σ) (write : TargetWrite σ) (n : Nat) (h : Steady start s) :
    Ends start (restoreAttempts read write n s) := by
  induction n generalizing s with
  | zero => exact h.hooked (.inr rfl)
  | succ n ih => exact h.restoreTurn read write fun _ => ih

end Site

inductive Op where
  | patch | restore
  deriving DecidableEq

structure Call (σ : Type*) where
  op : Op
  access : ByteAccess σ

namespace Site

def call (s : Site σ) (c : Call σ) : PatchResult × Site σ :=
  match c.op with
  | .patch => s.patch c.access
  | .restore => s.restore c.access

def run (s : Site σ) (calls : List (Call σ)) : Site σ := calls.foldl (fun s c => (s.call c).2) s

variable {s : Site σ} {c : Call σ}

/-- An access that cannot be used changes nothing. -/
theorem call_unusable (h : s.state.usable c.access = none) : s.call c = (.catastrophic, s) := by
  obtain ⟨op, access⟩ := c
  cases op with
  | patch => simp only [call, patch, h]
  | restore => simp only [call, restore, h]

private theorem call_catastrophic (h : s.state.catastrophic = true) (c : Call σ) : s.call c = (.catastrophic, s) := by
  obtain ⟨op, access⟩ := c
  cases husable : s.state.usable access with
  | none => exact call_unusable husable
  | some fns =>
    cases op with
    | patch => simp only [call, patch, husable, h, if_true]
    | restore => simp only [call, restore, husable, h, if_true]

private theorem run_catastrophic (h : s.state.catastrophic = true) (calls : List (Call σ)) : s.run calls = s := by
  induction calls with
  | nil => rfl
  | cons c calls ih =>
    rw [run, List.foldl_cons, call_catastrophic h]
    exact ih

/-- A call that can be made ends as it must. -/
theorem call_ends (htracks : s.Tracks) (halive : s.state.catastrophic = false)
    (husable : (s.state.usable c.access).isSome = true) : Ends s (s.call c) := by
  have hsteady : Steady s s := ⟨⟨rfl, rfl, rfl, rfl⟩, htracks, halive⟩
  obtain ⟨op, access⟩ := c
  obtain ⟨⟨read, write⟩, hfns⟩ := Option.isSome_iff_exists.mp husable
  have hread := hsteady.read read
  cases op with
  | restore =>
    simp only [call, restore, hfns, halive, Bool.false_eq_true, if_false]
    exact hsteady.restoreAttempts read write 3
  | patch =>
    simp only [call, patch, hfns, halive, Bool.false_eq_true, if_false]
    split
    · exact hread.markCatastrophic
    · split_ifs
      · exact hread.hooked (.inl rfl)
      · exact hread.markCatastrophic
      · exact hread.patchWrite read write

/-- What holds between the calls. -/
structure Sound (original : Bytes) (s : Site σ) : Prop where
  original : s.state.original = original
  tracks : s.Tracks
  free : s.state.freeEligible = true → s.OverOriginal
  dead : s.state.catastrophic = true → s.state.installed = true

theorem Sound.call {original : Bytes} (h : s.Sound original) (c : Call σ) : (s.call c).2.Sound original := by
  cases husable : s.state.usable c.access with
  | none =>
    rw [call_unusable husable]
    exact h
  | some fns =>
    cases halive : s.state.catastrophic with
    | true =>
      rw [call_catastrophic halive]
      exact h
    | false =>
      have hends := call_ends h.tracks halive (c := c) (by rw [husable]; rfl)
      refine ⟨hends.setup.original.trans h.original, hends.tracks, fun hfree => ?_, fun hdead => ?_⟩
      · by_cases hreleased : (s.call c).1 = .untouched ∨ (s.call c).1 = .restored
        · exact (hends.released hreleased).2
        · obtain ⟨huntouched, hrestored⟩ := not_or.mp hreleased
          rw [(hends.kept huntouched hrestored).2] at hfree
          cases hfree
      · have hresult := hends.catastrophic.mp hdead
        exact (hends.kept (by rw [hresult]; decide) (by rw [hresult]; decide)).1

theorem Sound.run {original : Bytes} (h : s.Sound original) (calls : List (Call σ)) :
    (s.run calls).Sound original := by
  induction calls generalizing s with
  | nil => exact h
  | cons c calls ih => exact ih (h.call c)

/-- A detour that was just configured over memory that nothing was written to. -/
def configured (original hook : Bytes) (baseline : ProtectionBaseline) (bytes : Bytes) (context : σ) : Site σ :=
  ⟨.configure original hook baseline, { bytes, context }⟩

private theorem configured_sound (original hook : Bytes) (baseline : ProtectionBaseline) (bytes : Bytes) (context : σ) :
    (configured original hook baseline bytes context).Sound original :=
  ⟨rfl, ⟨rfl, fun h => Bool.noConfusion h⟩, fun h => Bool.noConfusion h, fun h => Bool.noConfusion h⟩

/-- What a call answers and leaves. An access without a function, or an invalid baseline, is no use. -/
structure Answers (original : Bytes) (s : Site σ) (c : Call σ) : Prop where
  original : (s.call c).2.state.original = original
  eligible : (s.call c).2.state.freeEligible = true → (s.call c).2.OverOriginal
  unusable : s.state.usable c.access = none → s.call c = (.catastrophic, s)
  released : (s.state.usable c.access).isSome → (s.call c).1 = .untouched ∨ (s.call c).1 = .restored →
    (s.call c).2.state.freeEligible = true ∧ (s.call c).2.OverOriginal
  kept : (s.state.usable c.access).isSome → (s.call c).1 ≠ .untouched → (s.call c).1 ≠ .restored →
    (s.call c).2.state.installed = true ∧ (s.call c).2.state.freeEligible = false
  absorbing : (s.state.usable c.access).isSome → (s.call c).1 = .catastrophic → ∀ later next,
    ((s.call c).2.run later).call next = (.catastrophic, (s.call c).2)

theorem Sound.answers {original : Bytes} (h : s.Sound original) (c : Call σ) : s.Answers original c := by
  have hnext := h.call c
  cases halive : s.state.catastrophic with
  | true =>
    have hcall := call_catastrophic halive c
    refine ⟨hnext.original, hnext.free, fun _ => hcall, fun _ hreleased => ?_, fun _ _ _ => ?_, fun _ _ later next => ?_⟩
    · rw [hcall] at hreleased
      obtain hresult | hresult := hreleased <;> cases hresult
    · rw [hcall]
      refine ⟨h.dead halive, ?_⟩
      simp only [PatchState.freeEligible, halive, Bool.not_true, Bool.and_false]
    · rw [hcall, run_catastrophic halive, call_catastrophic halive]
  | false =>
    have hends := fun husable => call_ends (c := c) h.tracks halive husable
    refine ⟨hnext.original, hnext.free, call_unusable, fun husable => (hends husable).released,
      fun husable => (hends husable).kept, fun husable hresult later next => ?_⟩
    have hdead := (hends husable).catastrophic.mpr hresult
    rw [run_catastrophic hdead, call_catastrophic hdead]

/-- A detour is released only over the original bytes, never written to or under the baseline protection again; every
other result of an access that can be used keeps it installed, and a catastrophe is final. -/
theorem released_over_original (original hook : Bytes) (baseline : ProtectionBaseline) (bytes : Bytes) (context : σ)
    (calls : List (Call σ)) (c : Call σ) :
    ((configured original hook baseline bytes context).run calls).Answers original c :=
  ((configured_sound original hook baseline bytes context).run calls).answers c

/-- Callbacks that all do what they are asked to. -/
def obedient : TargetWriteCallbacks Unit :=
  ⟨fun u => (true, u), fun _ bytes u => ((kDetourBytes, bytes), u), fun u => (true, u), fun _ u => (true, u)⟩

def obedientAccess : ByteAccess Unit := ⟨some fun u => (true, u), some ⟨some obedient, 3⟩⟩

def prologue : Bytes := #v[0x55, 0x89, 0xe5, 0x57, 0x56]

def jump : Bytes := #v[0xe9, 0x01, 0x02, 0x03, 0x04]

example : (((configured prologue jump ⟨5, true⟩ prologue ()).call ⟨.patch, obedientAccess⟩).2.call
    ⟨.restore, obedientAccess⟩).1 = .restored := by decide +kernel

/-- Under an invalid baseline a patch is refused before anything is installed. -/
theorem invalid_baseline_not_installed :
    ((configured prologue jump ⟨5, false⟩ prologue ()).call ⟨.patch, obedientAccess⟩).1 = .catastrophic ∧
      ((configured prologue jump ⟨5, false⟩ prologue ()).call ⟨.patch, obedientAccess⟩).2.state.installed = false := by
  decide +kernel

end Site

end SlsteamMoon.AppInfoState
