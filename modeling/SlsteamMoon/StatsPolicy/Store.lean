import Mathlib.Data.Finset.Insert
import Mathlib.Data.List.AList
import SlsteamMoon.History

/-! The evidence about the apps of an account: what Steam's ownership routine answered and which apps
real packages brought. Each call holds the mutex from its first line to its last, so the calls of all
threads form one sequence. -/
namespace SlsteamMoon.StatsPolicy
open History

abbrev Account := UInt32
abbrev AppId := UInt32

structure Context where
  account : Account
  epoch : UInt64
  deriving DecidableEq

structure Entry where
  native : Bool := false
  isLocal : Bool := false
  deriving DecidableEq

structure Store where
  account : Account := 0
  epoch : UInt64 := 1
  apps : AList fun _ : AppId => Entry := ∅
  nativePackageApps : Finset AppId := ∅
  pendingPackageApps : Finset AppId := ∅

namespace Store

def context (s : Store) : Context := ⟨s.account, s.epoch⟩

/-- An app without an entry reads as one without evidence. -/
def entry (s : Store) (app : AppId) : Entry := (s.apps.lookup app).getD {}

def setAccount (s : Store) (account : Account) : Store :=
  if s.account = account then s
  else
    { account
      epoch := s.epoch + 1
      apps := ∅
      nativePackageApps := if s.account = 0 ∧ account ≠ 0 then s.pendingPackageApps else ∅
      pendingPackageApps := ∅ }

def invalidate (s : Store) : Store :=
  { s with
    epoch := s.epoch + 1
    apps := ∅
    nativePackageApps := ∅
    pendingPackageApps := if s.account ≠ 0 then ∅ else s.pendingPackageApps }

/-- A real package always wins, including an expired or borrowed license. -/
def observe (s : Store) (account : Account) (app : AppId) (success : Bool) (package : Int32)
    (owns expired : Bool) (expectedEpoch : UInt64) : Store :=
  if account = 0 ∨ account ≠ s.account ∨ expectedEpoch ≠ s.epoch ∨ app = 0 then s
  else
    let native := (s.entry app).native || (success && 0 < package)
    { s with apps := s.apps.insert app ⟨native, !native && success && package == 0 && owns && !expired⟩ }

def observePackage (s : Store) (package : UInt32) (app : AppId) : Store :=
  if package = 0 ∨ app = 0 then s
  else if s.account = 0 then { s with pendingPackageApps := insert app s.pendingPackageApps }
  else { s with nativePackageApps := insert app s.nativePackageApps }

/-- The second form of observePackage. -/
def observePackageIn (s : Store) (expected : Context) (package : UInt32) (app : AppId) : Store :=
  if package = 0 ∨ app = 0 ∨ expected.account = 0 ∨ expected.account ≠ s.account ∨ expected.epoch ≠ s.epoch then s
  else { s with nativePackageApps := insert app s.nativePackageApps }

def replacePackageApps (s : Store) (expected : Context) (apps : List AppId) : Store :=
  if expected.account ≠ s.account ∨ expected.epoch ≠ s.epoch then s
  else if s.account = 0 then { s with pendingPackageApps := (apps.filter (· ≠ 0)).toFinset }
  else { s with nativePackageApps := (apps.filter (· ≠ 0)).toFinset }

def localEpoch (s : Store) (account : Account) (app : AppId) : UInt64 :=
  if account = 0 ∨ account ≠ s.account then 0
  else if app ∈ s.nativePackageApps ∨ (s.entry app).isLocal = false then 0
  else s.epoch

def hasNativeLicense (s : Store) (account : Account) (app : AppId) : Bool :=
  if account = 0 ∨ account ≠ s.account then false
  else (s.entry app).native || app ∈ s.nativePackageApps

end Store

/-- The calls that change the store. -/
inductive Op where
  | setAccount (account : Account)
  | invalidate
  | observe (account : Account) (app : AppId) (success : Bool) (package : Int32) (owns expired : Bool)
      (expectedEpoch : UInt64)
  | observePackage (package : UInt32) (app : AppId)
  | observePackageIn (expected : Context) (package : UInt32) (app : AppId)
  | replacePackageApps (expected : Context) (apps : List AppId)

def Store.step (s : Store) : Op → Store
  | .setAccount account => s.setAccount account
  | .invalidate => s.invalidate
  | .observe account app success package owns expired expectedEpoch =>
    s.observe account app success package owns expired expectedEpoch
  | .observePackage package app => s.observePackage package app
  | .observePackageIn expected package app => s.observePackageIn expected package app
  | .replacePackageApps expected apps => s.replacePackageApps expected apps

/-- The store after the calls of a process. -/
def after (ops : List Op) : Store := run Store.step {} ops

/-! The functions of the module over its one store. -/

structure OwnershipInfo where
  subId : Int32
  ownsLicense : Bool
  licenseExpired : Bool

structure Config where
  isAddedAppId : AppId → Bool
  shouldExcludeAppId : AppId → Bool
  isInjectedAppId : AppId → Bool

def observe (config : Config) (s : Store) (context : Context) (app : AppId) (success : Bool) :
    Option OwnershipInfo → Store
  | none => s
  | some info =>
    if config.isAddedAppId app then
      s.observe context.account app success info.subId info.ownsLicense info.licenseExpired context.epoch
    else s

/-- Package zero may hold real free games, so the app must be one that was injected. -/
def answer (config : Config) (s : Store) (app : AppId) (id : Account) : UInt64 :=
  if config.isInjectedAppId app then s.localEpoch id app else 0

/-- StatsPolicy::localEpoch. A refresh asks the user object, which may be missing, for its answer. -/
def localEpoch (config : Config) (s : Store) (app : AppId) (id : Account)
    (refresh : Option (Option (Bool × OwnershipInfo))) : Store × UInt64 :=
  if id = 0 ∨ id ≠ s.account ∨ config.isAddedAppId app = false ∨ config.shouldExcludeAppId app = true then (s, 0)
  else
    match refresh with
    | none => (s, answer config s app id)
    | some user =>
      let context := s.context
      if context.account ≠ id then (s, 0)
      else
        match user with
        | none => (s, 0)
        | some (success, info) =>
          let s := s.observe id app success info.subId info.ownsLicense info.licenseExpired context.epoch
          (s, answer config s app id)

/-! What the calls mean, one at a time. -/

/-- A change of the account, or an invalidation. -/
def Bumps (s : Store) : Op → Prop
  | .setAccount account => s.account ≠ account
  | .invalidate => True
  | _ => False

instance (s : Store) : DecidablePred (Bumps s)
  | .setAccount account => inferInstanceAs (Decidable (s.account ≠ account))
  | .invalidate => inferInstanceAs (Decidable True)
  | .observe .. | .observePackage .. | .observePackageIn .. | .replacePackageApps .. =>
    inferInstanceAs (Decidable False)

/-- An observation of the app that the store takes: the account and the epoch are the current ones. -/
def Observes (app : AppId) (s : Store) : Op → Prop
  | .observe account observed _ _ _ _ expectedEpoch =>
    account ≠ 0 ∧ app ≠ 0 ∧ observed = app ∧ s.context = ⟨account, expectedEpoch⟩
  | _ => False

/-- Such an observation of an owned, unexpired license of package zero. -/
def ObservesLocal (app : AppId) (s : Store) : Op → Prop
  | .observe account observed success package owns expired expectedEpoch =>
    Observes app s (.observe account observed success package owns expired expectedEpoch) ∧
      success = true ∧ package = 0 ∧ owns = true ∧ expired = false
  | _ => False

/-- Such an observation of a real package, by a call that succeeded. -/
def ObservesNative (app : AppId) (s : Store) : Op → Prop
  | .observe account observed success package owns expired expectedEpoch =>
    Observes app s (.observe account observed success package owns expired expectedEpoch) ∧
      success = true ∧ 0 < package
  | _ => False

/-- A package load of the app that the store takes. -/
def Loads (app : AppId) (s : Store) : Op → Prop
  | .observePackage package loaded => package ≠ 0 ∧ app ≠ 0 ∧ loaded = app
  | .observePackageIn expected package loaded =>
    package ≠ 0 ∧ app ≠ 0 ∧ loaded = app ∧ expected.account ≠ 0 ∧ s.context = expected
  | .replacePackageApps expected apps => app ≠ 0 ∧ app ∈ apps ∧ s.context = expected
  | _ => False

/-- The loads before are void: the account changes from one that was logged in, such an account's
licenses are invalidated, or a list of the loaded apps replaces them. -/
def Discards (s : Store) : Op → Prop
  | .setAccount account => s.account ≠ account ∧ s.account ≠ 0
  | .invalidate => s.account ≠ 0
  | .replacePackageApps expected _ => s.context = expected
  | _ => False

/-- The latest observation of the app in this epoch is of a local license. -/
def LatestLocal (ops : List Op) (app : AppId) : Prop :=
  Since Store.step (ObservesLocal app) (fun s op => Bumps s op ∨ Observes app s op) {} ops

/-- A real package was observed for the app in this epoch. -/
def NativeObserved (ops : List Op) (app : AppId) : Prop :=
  Since Store.step (ObservesNative app) Bumps {} ops

/-- A package load of the app is still in force. Loads before the login count for the account that
logs in. -/
def LoadInForce (ops : List Op) (app : AppId) : Prop :=
  Since Store.step (Loads app) Discards {} ops

/-- The call carries the context. -/
def Carries (context : Context) : Op → Prop
  | .observe account _ _ _ _ _ expectedEpoch => context = ⟨account, expectedEpoch⟩
  | .observePackageIn expected _ _ => context = expected
  | .replacePackageApps expected _ => context = expected
  | _ => False

/-- How often a run changes the account or invalidates. -/
def bumps : Store → List Op → Nat
  | _, [] => 0
  | s, op :: ops => (if Bumps s op then 1 else 0) + bumps (s.step op) ops

end SlsteamMoon.StatsPolicy
