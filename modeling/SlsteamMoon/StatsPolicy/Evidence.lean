import Mathlib.Algebra.GroupWithZero.Nat
import SlsteamMoon.StatsPolicy.Store

/-! The answers of the store after any sequence of calls, told by what the calls were. -/
namespace SlsteamMoon.StatsPolicy
open History

namespace Store

/-- The loads that count, before the login or after it. -/
def Holds (s : Store) (app : AppId) : Prop :=
  if s.account = 0 then app ∈ s.pendingPackageApps else app ∈ s.nativePackageApps

private theorem context_eq_iff {s : Store} {c : Context} :
    s.context = c ↔ c.account = s.account ∧ c.epoch = s.epoch := by
  obtain ⟨account, epoch⟩ := c
  simp [context, eq_comm]

private theorem holds_step (app : AppId) (s : Store) (op : Op) :
    (s.step op).Holds app ↔ Loads app s op ∨ s.Holds app ∧ ¬Discards s op := by
  cases op with
  | setAccount account =>
    by_cases hsame : s.account = account
    · simp [step, setAccount, Loads, Discards, hsame]
    · by_cases hout : s.account = 0
      · have hin : account ≠ 0 := fun hzero => hsame (hout.trans hzero.symm)
        simp [step, setAccount, Holds, Loads, Discards, hout, hin, hin.symm]
      · simp [step, setAccount, Holds, Loads, Discards, hsame, hout]
  | invalidate =>
    by_cases hout : s.account = 0
    · simp [step, invalidate, Holds, Loads, Discards, hout]
    · simp [step, invalidate, Holds, Loads, Discards, hout]
  | observe account observed success package owns expired expectedEpoch =>
    simp only [step, observe, Loads, Discards, not_false_eq_true, and_true, false_or]
    split_ifs
    · rfl
    · rfl
  | observePackage package loaded =>
    simp only [step, observePackage, Loads, Discards, not_false_eq_true, and_true]
    split_ifs with hrefused hout
    · have hno : ¬(package ≠ 0 ∧ app ≠ 0 ∧ loaded = app) := by
        rintro ⟨hpackage, happ, rfl⟩
        exact hrefused.elim hpackage happ
      simp only [hno, false_or]
    · push Not at hrefused
      simp only [Holds, hout, if_true, Finset.mem_insert]
      grind
    · push Not at hrefused
      simp only [Holds, hout, if_false, Finset.mem_insert]
      grind
  | observePackageIn expected package loaded =>
    simp only [step, observePackageIn, Loads, Discards, not_false_eq_true, and_true, context_eq_iff]
    split_ifs with hrefused
    · have hno : ¬(package ≠ 0 ∧ app ≠ 0 ∧ loaded = app ∧ expected.account ≠ 0 ∧
          expected.account = s.account ∧ expected.epoch = s.epoch) := by
        rintro ⟨hpackage, happ, rfl, hin, haccount, hepoch⟩
        exact hrefused.elim hpackage fun h => h.elim happ fun h => h.elim hin fun h => h.elim (· haccount) (· hepoch)
      simp only [hno, false_or]
    · push Not at hrefused
      obtain ⟨hpackage, hloaded, hin, haccount, hepoch⟩ := hrefused
      have hlogged : s.account ≠ 0 := haccount ▸ hin
      simp only [Holds, hlogged, if_false, Finset.mem_insert]
      grind
  | replacePackageApps expected apps =>
    simp only [step, replacePackageApps, Loads, Discards, context_eq_iff]
    split_ifs with hstale hout
    · have hno : ¬(expected.account = s.account ∧ expected.epoch = s.epoch) := by tauto
      simp only [hno, and_false, false_or, not_false_eq_true, and_true]
    · push Not at hstale
      simp [Holds, hout, hstale, and_comm]
    · push Not at hstale
      simp [Holds, hout, hstale, and_comm]

private theorem entry_step_of_bumps (app : AppId) {s : Store} {op : Op} (h : Bumps s op) :
    (s.step op).entry app = {} := by
  cases op with
  | setAccount account =>
    have hother : s.account ≠ account := h
    simp [step, setAccount, if_neg hother, entry]
  | invalidate => simp [step, invalidate, entry]
  | observe account observed success package owns expired expectedEpoch => cases h
  | observePackage package loaded => cases h
  | observePackageIn expected package loaded => cases h
  | replacePackageApps expected apps => cases h

/-- Beside a new epoch only an observation that is taken touches the entry of an app. -/
theorem entry_step_of_quiet {app : AppId} {s : Store} {op : Op} (hbumps : ¬Bumps s op) (h : ¬Observes app s op) :
    (s.step op).entry app = s.entry app := by
  cases op with
  | setAccount account =>
    have hsame : s.account = account := not_not.mp hbumps
    simp only [step, setAccount, if_pos hsame]
  | invalidate => exact absurd trivial hbumps
  | observe account observed success package owns expired expectedEpoch =>
    simp only [step, observe]
    split_ifs with hrefused
    · rfl
    · push Not at hrefused
      obtain ⟨hin, haccount, hepoch, hobserved⟩ := hrefused
      have hother : app ≠ observed := by
        rintro rfl
        exact h ⟨hin, hobserved, rfl, context_eq_iff.mpr ⟨haccount, hepoch⟩⟩
      simp only [entry, AList.lookup_insert_ne hother]
  | observePackage package loaded =>
    simp only [step, observePackage]
    split_ifs
    · rfl
    · rfl
    · rfl
  | observePackageIn expected package loaded =>
    simp only [step, observePackageIn]
    split_ifs
    · rfl
    · rfl
  | replacePackageApps expected apps =>
    simp only [step, replacePackageApps]
    split_ifs
    · rfl
    · rfl
    · rfl

private theorem entry_observe {s : Store} {account : Account} {app : AppId} {success : Bool} {package : Int32}
    {owns expired : Bool} {expectedEpoch : UInt64}
    (h : ¬(account = 0 ∨ account ≠ s.account ∨ expectedEpoch ≠ s.epoch ∨ app = 0)) :
    (s.observe account app success package owns expired expectedEpoch).entry app =
      ⟨(s.entry app).native || (success && 0 < package),
        !((s.entry app).native || (success && 0 < package)) && success && package == 0 && owns && !expired⟩ := by
  rw [observe, if_neg h]
  simp only [entry, AList.lookup_insert, Option.getD_some]

/-- What an observation that is taken makes of the entry. -/
theorem entry_step_of_observes {app : AppId} {s : Store} {op : Op} (h : Observes app s op) :
    (((s.step op).entry app).native = true ↔ ObservesNative app s op ∨ (s.entry app).native = true) ∧
      (((s.step op).entry app).isLocal = true ↔ ObservesLocal app s op ∧ (s.entry app).native = false) ∧
      ¬Bumps s op := by
  cases op with
  | observe account observed success package owns expired expectedEpoch =>
    obtain ⟨hin, hobserved, rfl, hcontext⟩ := id h
    obtain ⟨haccount, hepoch⟩ := context_eq_iff.mp hcontext
    have htaken : ¬(account = 0 ∨ account ≠ s.account ∨ expectedEpoch ≠ s.epoch ∨ observed = 0) := by
      push Not
      exact ⟨hin, haccount, hepoch, hobserved⟩
    have hzero : package = 0 → ¬0 < package := by
      rintro rfl
      decide
    simp only [step, entry_observe htaken, ObservesNative, ObservesLocal, h, true_and, Bumps, not_false_eq_true, and_true]
    generalize (s.entry observed).native = held
    constructor
    · simp [or_comm]
    · simp only [Bool.and_eq_true, Bool.not_eq_true', Bool.or_eq_false_iff, beq_iff_eq]
      constructor
      · rintro ⟨⟨⟨⟨⟨hheld, -⟩, hsuccess⟩, hpackage⟩, howns⟩, hexpired⟩
        exact ⟨⟨hsuccess, hpackage, howns, hexpired⟩, hheld⟩
      · rintro ⟨⟨hsuccess, hpackage, howns, hexpired⟩, hheld⟩
        exact ⟨⟨⟨⟨⟨hheld, by simp [hzero hpackage]⟩, hsuccess⟩, hpackage⟩, howns⟩, hexpired⟩
  | setAccount account => cases h
  | invalidate => cases h
  | observePackage package loaded => cases h
  | observePackageIn expected package loaded => cases h
  | replacePackageApps expected apps => cases h

private theorem observes_of_native {app : AppId} {s : Store} {op : Op} (h : ObservesNative app s op) :
    Observes app s op := by
  cases op with
  | observe account observed success package owns expired expectedEpoch => exact h.1
  | _ => cases h

private theorem observes_of_local {app : AppId} {s : Store} {op : Op} (h : ObservesLocal app s op) :
    Observes app s op := by
  cases op with
  | observe account observed success package owns expired expectedEpoch => exact h.1
  | _ => cases h

private theorem not_native_of_local {app : AppId} {s : Store} {op : Op} (h : ObservesLocal app s op) :
    ¬ObservesNative app s op := by
  cases op with
  | observe account observed success package owns expired expectedEpoch =>
    obtain ⟨-, -, rfl, -⟩ := h
    rintro ⟨-, -, hpositive⟩
    exact absurd hpositive (by decide)
  | _ => cases h

private theorem native_step (app : AppId) (s : Store) (op : Op) :
    ((s.step op).entry app).native = true ↔
      ObservesNative app s op ∨ (s.entry app).native = true ∧ ¬Bumps s op := by
  by_cases hobserves : Observes app s op
  · obtain ⟨hnative, -, hsame⟩ := entry_step_of_observes hobserves
    simp only [hnative, hsame, not_false_eq_true, and_true]
  · have hno : ¬ObservesNative app s op := fun h => hobserves (observes_of_native h)
    by_cases hbumps : Bumps s op
    · simp [entry_step_of_bumps app hbumps, hno, hbumps]
    · simp [entry_step_of_quiet hbumps hobserves, hno, hbumps]

end Store

/-! Along a run. -/

private theorem loadInForce_iff (ops : List Op) (app : AppId) : LoadInForce ops app ↔ (after ops).Holds app := by
  let P := fun s : Store => s.Holds app
  have hfirst : ¬P {} := by simp [P, Store.Holds]
  exact since_iff hfirst (Store.holds_step app) ops

private theorem nativeObserved_iff (ops : List Op) (app : AppId) :
    NativeObserved ops app ↔ ((after ops).entry app).native = true := by
  let P := fun s : Store => (s.entry app).native = true
  have hfirst : ¬P {} := by simp [P, Store.entry]
  exact since_iff hfirst (Store.native_step app) ops

/-- The local flag is that of the latest observation, unless a real package came before it. -/
theorem isLocal_iff (ops : List Op) (app : AppId) :
    ((after ops).entry app).isLocal = true ↔ LatestLocal ops app ∧ ¬NativeObserved ops app := by
  induction ops using List.reverseRecOn with
  | nil => simp [after, Store.entry, LatestLocal, not_since_nil]
  | append_singleton ops op ih =>
    rw [LatestLocal, NativeObserved, since_concat, since_concat, ← LatestLocal, ← NativeObserved, after, run_concat,
      ← after]
    by_cases hobserves : Observes app (after ops) op
    · obtain ⟨-, hlocal, hsame⟩ := Store.entry_step_of_observes hobserves
      have hnative := nativeObserved_iff ops app
      have hexcl := @Store.not_native_of_local app (after ops) op
      rw [hlocal]
      change _ ↔ (ObservesLocal app (after ops) op ∨ LatestLocal ops app ∧ ¬(Bumps (after ops) op ∨
        Observes app (after ops) op)) ∧ ¬(ObservesNative app (after ops) op ∨ NativeObserved ops app ∧
        ¬Bumps (after ops) op)
      rw [hnative, Bool.eq_false_iff]
      tauto
    · have hlocal : ¬ObservesLocal app (after ops) op := fun h => hobserves (Store.observes_of_local h)
      have hnative : ¬ObservesNative app (after ops) op := fun h => hobserves (Store.observes_of_native h)
      change _ ↔ (ObservesLocal app (after ops) op ∨ LatestLocal ops app ∧ ¬(Bumps (after ops) op ∨
        Observes app (after ops) op)) ∧ ¬(ObservesNative app (after ops) op ∨ NativeObserved ops app ∧
        ¬Bumps (after ops) op)
      by_cases hbumps : Bumps (after ops) op
      · simp [Store.entry_step_of_bumps app hbumps, hlocal, hbumps]
      · rw [Store.entry_step_of_quiet hbumps hobserves, ih]
        tauto

/-- The epoch is answered exactly when everything that was seen speaks for a local license. -/
theorem localEpoch_ne_zero_iff (ops : List Op) (account : Account) (app : AppId) :
    (after ops).localEpoch account app ≠ 0 ↔
      account ≠ 0 ∧ account = (after ops).account ∧ (after ops).epoch ≠ 0 ∧
        LatestLocal ops app ∧ ¬NativeObserved ops app ∧ ¬LoadInForce ops app := by
  rw [loadInForce_iff, ← and_assoc (a := LatestLocal ops app), ← isLocal_iff, Store.localEpoch]
  split_ifs with haccount hevidence
  · simp only [ne_eq, not_true_eq_false, false_iff]
    tauto
  · push Not at haccount
    obtain ⟨hin, rfl⟩ := haccount
    simp only [Store.Holds, if_neg hin]
    grind
  · push Not at haccount hevidence
    obtain ⟨hin, rfl⟩ := haccount
    simp only [Store.Holds, if_neg hin]
    grind

private theorem localEpoch_eq_zero_or_epoch (s : Store) (account : Account) (app : AppId) :
    s.localEpoch account app = 0 ∨ s.localEpoch account app = s.epoch := by
  rw [Store.localEpoch]
  split_ifs
  · exact .inl rfl
  · exact .inl rfl
  · exact .inr rfl

private theorem hasNativeLicense_iff (ops : List Op) (account : Account) (app : AppId) :
    (after ops).hasNativeLicense account app = true ↔
      account ≠ 0 ∧ account = (after ops).account ∧ (NativeObserved ops app ∨ LoadInForce ops app) := by
  rw [loadInForce_iff, nativeObserved_iff, Store.hasNativeLicense]
  split_ifs with haccount
  · simp only [false_iff]
    tauto
  · push Not at haccount
    obtain ⟨hin, rfl⟩ := haccount
    simp [Store.Holds, hin]

private theorem answer_of_ne_zero {config : Config} {s : Store} {app : AppId} {id : Account}
    (h : answer config s app id ≠ 0) : answer config s app id = s.localEpoch id app := by
  unfold answer at h ⊢
  split_ifs at h ⊢
  · rfl
  · exact absurd rfl h

/-- At most one observation for the current context follows the calls. -/
def Follows (ops ops' : List Op) : Prop := ops' = ops ∨ ∃ op, Carries (after ops).context op ∧ ops' = ops ++ [op]

/-- The module answers an epoch only where the store does, after at most an observation it has made
for the current context. -/
theorem localEpoch_answer {config : Config} {s : Store} {app : AppId} {id : Account}
    {refresh : Option (Option (Bool × OwnershipInfo))} (h : (localEpoch config s app id refresh).2 ≠ 0) :
    ∃ t, (t = s ∨ ∃ op, Carries s.context op ∧ t = s.step op) ∧
      localEpoch config s app id refresh = (t, t.localEpoch id app) := by
  unfold localEpoch at h ⊢
  by_cases hasked : id = 0 ∨ id ≠ s.account ∨ config.isAddedAppId app = false ∨ config.shouldExcludeAppId app = true
  · rw [if_pos hasked] at h
    exact absurd rfl h
  · rw [if_neg hasked] at h ⊢
    cases refresh with
    | none => exact ⟨s, .inl rfl, by rw [answer_of_ne_zero h]⟩
    | some user =>
      by_cases hcontext : s.context.account ≠ id
      · simp only [if_pos hcontext] at h
        exact absurd rfl h
      · simp only [if_neg hcontext] at h ⊢
        cases user with
        | none => exact absurd rfl h
        | some found =>
          have hcarries : s.context = ⟨id, s.epoch⟩ := Store.context_eq_iff.mpr ⟨(not_not.mp hcontext).symm, rfl⟩
          exact ⟨_, .inr ⟨.observe id app found.1 found.2.subId found.2.ownsLicense found.2.licenseExpired s.epoch,
            hcarries, rfl⟩, congrArg (Prod.mk _) (answer_of_ne_zero h)⟩

/-! Contexts of an earlier epoch. -/

private theorem epoch_step (s : Store) (op : Op) : (s.step op).epoch = s.epoch + if Bumps s op then 1 else 0 := by
  cases op with
  | setAccount account =>
    by_cases hsame : s.account = account
    · have hquiet : ¬Bumps s (.setAccount account) := not_not_intro hsame
      simp [Store.step, Store.setAccount, hsame, hquiet]
    · have hbumps : Bumps s (.setAccount account) := hsame
      simp [Store.step, Store.setAccount, hsame, hbumps]
  | invalidate =>
    have hbumps : Bumps s .invalidate := trivial
    simp [Store.step, Store.invalidate, hbumps]
  | observe account observed success package owns expired expectedEpoch =>
    have hquiet : ¬Bumps s (.observe account observed success package owns expired expectedEpoch) := id
    rw [if_neg hquiet, UInt64.add_zero, Store.step, Store.observe]
    split_ifs <;> rfl
  | observePackage package loaded =>
    have hquiet : ¬Bumps s (.observePackage package loaded) := id
    rw [if_neg hquiet, UInt64.add_zero, Store.step, Store.observePackage]
    split_ifs <;> rfl
  | observePackageIn expected package loaded =>
    have hquiet : ¬Bumps s (.observePackageIn expected package loaded) := id
    rw [if_neg hquiet, UInt64.add_zero, Store.step, Store.observePackageIn]
    split_ifs <;> rfl
  | replacePackageApps expected apps =>
    have hquiet : ¬Bumps s (.replacePackageApps expected apps) := id
    rw [if_neg hquiet, UInt64.add_zero, Store.step, Store.replacePackageApps]
    split_ifs <;> rfl

private theorem epoch_run (s : Store) (ops : List Op) :
    (run Store.step s ops).epoch = s.epoch + UInt64.ofNat (bumps s ops) := by
  induction ops generalizing s with
  | nil => simp [bumps]
  | cons op ops ih =>
    change (run Store.step (s.step op) ops).epoch = _
    rw [ih, epoch_step, bumps]
    split_ifs
    · rw [UInt64.ofNat_add, UInt64.add_assoc]
      rfl
    · rw [Nat.zero_add, UInt64.add_zero]

/-- The epoch comes round after 2^64 changes only. -/
theorem epoch_run_ne {s : Store} {ops : List Op} (hsome : 0 < bumps s ops) (hfew : bumps s ops < 2 ^ 64) :
    (run Store.step s ops).epoch ≠ s.epoch := by
  intro heq
  rw [epoch_run] at heq
  have hzero : UInt64.ofNat (bumps s ops) = 0 := by simpa using heq
  have hnat := congrArg UInt64.toNat hzero
  rw [UInt64.toNat_ofNat', Nat.mod_eq_of_lt hfew] at hnat
  exact absurd hnat (Nat.ne_of_gt hsome)

private theorem step_of_stale {s : Store} {context : Context} {op : Op} (hcarries : Carries context op)
    (hstale : s.epoch ≠ context.epoch) : s.step op = s := by
  cases op with
  | setAccount account => cases hcarries
  | invalidate => cases hcarries
  | observe account observed success package owns expired expectedEpoch =>
    obtain rfl := hcarries
    rw [Store.step, Store.observe, if_pos (.inr (.inr (.inl hstale.symm)))]
  | observePackage package loaded => cases hcarries
  | observePackageIn expected package loaded =>
    obtain rfl := hcarries
    rw [Store.step, Store.observePackageIn, if_pos (.inr (.inr (.inr (.inr hstale.symm))))]
  | replacePackageApps expected apps =>
    obtain rfl := hcarries
    rw [Store.step, Store.replacePackageApps, if_pos (.inr hstale.symm)]

/-- After any calls an epoch is answered for the current account and for apps whose evidence of this
epoch is all local, by the store and by the module over it, never beside a native license, and a
context from before the last change is no good. -/
theorem local_evidence_sound :
    (∀ (ops : List Op) (account : Account) (app : AppId), (after ops).localEpoch account app ≠ 0 →
      account = (after ops).account ∧ (after ops).localEpoch account app = (after ops).epoch ∧
        LatestLocal ops app ∧ ¬NativeObserved ops app ∧ ¬LoadInForce ops app) ∧
    (∀ (config : Config) (ops : List Op) (app : AppId) (id : Account) (refresh : Option (Option (Bool × OwnershipInfo))),
      (localEpoch config (after ops) app id refresh).2 ≠ 0 →
        ∃ ops', Follows ops ops' ∧ (localEpoch config (after ops) app id refresh).1 = after ops' ∧
          id = (after ops').account ∧ (localEpoch config (after ops) app id refresh).2 = (after ops').epoch ∧
          LatestLocal ops' app ∧ ¬NativeObserved ops' app ∧ ¬LoadInForce ops' app) ∧
    (∀ (ops : List Op) (account : Account) (app : AppId),
      ¬((after ops).localEpoch account app ≠ 0 ∧ (after ops).hasNativeLicense account app = true)) ∧
    ∀ (before later : List Op) (op : Op), Carries (after before).context op →
      0 < bumps (after before) later → bumps (after before) later < 2 ^ 64 →
        (after (before ++ later)).step op = after (before ++ later) := by
  have hsound : ∀ (ops : List Op) (account : Account) (app : AppId), (after ops).localEpoch account app ≠ 0 →
      account = (after ops).account ∧ (after ops).localEpoch account app = (after ops).epoch ∧
        LatestLocal ops app ∧ ¬NativeObserved ops app ∧ ¬LoadInForce ops app := by
    intro ops account app hlocal
    obtain ⟨-, haccount, -, hevidence⟩ := (localEpoch_ne_zero_iff ops account app).mp hlocal
    exact ⟨haccount, (localEpoch_eq_zero_or_epoch _ _ _).resolve_left hlocal, hevidence⟩
  refine ⟨hsound, ?_, ?_, ?_⟩
  · intro config ops app id refresh hlocal
    obtain ⟨t, ht, hanswer⟩ := localEpoch_answer hlocal
    obtain ⟨ops', hfollows, rfl⟩ : ∃ ops', Follows ops ops' ∧ t = after ops' := by
      obtain rfl | ⟨op, hcarries, rfl⟩ := ht
      · exact ⟨ops, .inl rfl, rfl⟩
      · exact ⟨ops ++ [op], .inr ⟨op, hcarries, rfl⟩, by rw [after, after, run_append]; rfl⟩
    rw [hanswer] at hlocal ⊢
    exact ⟨ops', hfollows, rfl, hsound ops' id app hlocal⟩
  · rintro ops account app ⟨hlocal, hnative⟩
    obtain ⟨-, -, -, -, hobserved, hload⟩ := (localEpoch_ne_zero_iff ops account app).mp hlocal
    obtain ⟨-, -, hsome⟩ := (hasNativeLicense_iff ops account app).mp hnative
    exact hsome.elim hobserved hload
  · intro before later op hcarries hsome hfew
    apply step_of_stale hcarries
    rw [after, run_append]
    exact epoch_run_ne hsome hfew

/-- An observation of a real package whose call may have failed. -/
def ObservesPositive (app : AppId) (s : Store) : Op → Prop
  | .observe account observed success package owns expired expectedEpoch =>
    Observes app s (.observe account observed success package owns expired expectedEpoch) ∧ 0 < package
  | _ => False

private theorem bumps_invalidates (s : Store) (n : Nat) : bumps s (List.replicate n .invalidate) = n := by
  induction n generalizing s with
  | zero => rfl
  | succ n ih =>
    have hbumps : Bumps s .invalidate := trivial
    rw [List.replicate_succ, bumps, if_pos hbumps, ih, Nat.add_comm]

private theorem account_invalidates (s : Store) (n : Nat) :
    (run Store.step s (List.replicate n .invalidate)).account = s.account := by
  induction n generalizing s with
  | zero => rfl
  | succ n ih => exact ih s.invalidate

/-- Once the epoch is round, an observation with the old context is taken. -/
theorem observe_after_round {s : Store} {n : Nat} (hin : s.account ≠ 0) (hepoch : s.epoch ≠ 0) (hpos : 0 < n)
    (hround : UInt64.ofNat n = 0) (app : AppId) (happ : app ≠ 0) :
    (run Store.step s (List.replicate n .invalidate)).localEpoch s.account app = 0 ∧
      ((run Store.step s (List.replicate n .invalidate)).step
        (.observe s.account app true 0 true false s.epoch)).localEpoch s.account app ≠ 0 := by
  obtain ⟨n, rfl⟩ := Nat.exists_eq_succ_of_ne_zero (Nat.ne_of_gt hpos)
  have haccount := account_invalidates s (n + 1)
  have hsame : (run Store.step s (List.replicate (n + 1) .invalidate)).epoch = s.epoch := by
    rw [epoch_run, bumps_invalidates, hround, UInt64.add_zero]
  have hentry : (run Store.step s (List.replicate (n + 1) .invalidate)).entry app = {} := by
    rw [List.replicate_succ', run_concat]
    exact Store.entry_step_of_bumps app trivial
  have hpackages : (run Store.step s (List.replicate (n + 1) .invalidate)).nativePackageApps = ∅ := by
    rw [List.replicate_succ', run_concat]
    rfl
  generalize run Store.step s (List.replicate (n + 1) .invalidate) = t at *
  have htaken : ¬(s.account = 0 ∨ s.account ≠ t.account ∨ s.epoch ≠ t.epoch ∨ app = 0) := by
    push Not
    exact ⟨hin, haccount.symm, hsame.symm, happ⟩
  constructor
  · simp [Store.localEpoch, hentry]
  · have hafter := @Store.entry_observe t s.account app true 0 true false s.epoch htaken
    simp only [Store.step]
    have hrest : (t.observe s.account app true 0 true false s.epoch).nativePackageApps = ∅ ∧
        (t.observe s.account app true 0 true false s.epoch).account = s.account ∧
        (t.observe s.account app true 0 true false s.epoch).epoch = s.epoch := by
      rw [Store.observe, if_neg htaken]
      exact ⟨hpackages, haccount, hsame⟩
    rw [Store.localEpoch, hafter, hentry, hrest.1, hrest.2.1, hrest.2.2]
    simpa [hin] using hepoch

/-- A real package that a failed call reports is no evidence, and after 2^64 invalidations a context
is good again. -/
theorem failed_call_is_no_evidence_and_epoch_comes_round :
    (∃ ops, (after ops).localEpoch 7 480 ≠ 0 ∧ Since Store.step (ObservesPositive 480) Bumps {} ops) ∧
    ∃ before later op, Carries (after before).context op ∧ 0 < bumps (after before) later ∧
      (after (before ++ later)).localEpoch 7 480 ≠ ((after (before ++ later)).step op).localEpoch 7 480 := by
  constructor
  · refine ⟨[.setAccount 7, .observe 7 480 false 5 false false 2, .observe 7 480 true 0 true false 2], by decide,
      [.setAccount 7], .observe 7 480 false 5 false false 2, [.observe 7 480 true 0 true false 2], rfl, ?_, ?_⟩
    · exact ⟨⟨by decide, by decide, rfl, rfl⟩, by decide⟩
    · intro first op rest hsplit
      cases first with
      | nil =>
        obtain ⟨rfl, -⟩ := List.cons.inj hsplit
        exact id
      | cons first others =>
        obtain ⟨-, hrest⟩ := List.cons.inj hsplit
        exact absurd hrest.symm (List.append_ne_nil_of_right_ne_nil others (List.cons_ne_nil op rest))
  · let s := after [.setAccount 7]
    have hmany : UInt64.ofNat (2 ^ 64) = 0 := rfl
    obtain ⟨hzero, hround⟩ := observe_after_round (s := s) (by decide) (by decide) (Nat.two_pow_pos 64) hmany 480 (by decide)
    refine ⟨[.setAccount 7], List.replicate (2 ^ 64) .invalidate, .observe 7 480 true 0 true false 2, rfl, ?_, ?_⟩
    · rw [bumps_invalidates]
      exact Nat.two_pow_pos 64
    · rw [after, run_append]
      intro heq
      exact hround (heq.symm.trans hzero)

end SlsteamMoon.StatsPolicy
