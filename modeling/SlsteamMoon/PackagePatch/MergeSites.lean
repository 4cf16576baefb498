import SlsteamMoon.PackagePatch.Carry
import SlsteamMoon.PackagePatch.Native

/-! The two places where snapshots meet: a pending record of the owner queue and the
desired state of package 0. The owner thread runs one claimed batch at a time. -/
namespace SlsteamMoon.PackagePatch
open OwnerQueue

theorem toNat_max (a b : UInt64) : (max a b).toNat = max a.toNat b.toNat := by
  show (if a ≤ b then b else a).toNat = _
  split_ifs with hle
  · exact (max_eq_right (UInt64.le_iff_toNat_le.mp hle)).symm
  · exact (max_eq_left (UInt64.lt_iff_toNat_lt.mp (UInt64.not_le.mp hle)).le).symm

/-- A generation without an accepted set reads as one with an empty set. -/
structure AppInfoRequestState where
  highestGeneration : UInt64 := 0
  accepted : UInt64 → List AppId := fun _ => []
  inFlight : List (UInt64 × AppId) := []

namespace AppInfoRequestState

def pruneAccepted (r : AppInfoRequestState) : AppInfoRequestState :=
  { r with
    accepted := fun generation =>
      if generation < r.highestGeneration ∧ 1 < r.highestGeneration - generation then []
      else r.accepted generation }

def reserveOne (generation : UInt64) (out : AppInfoRequestState × List AppId) (appId : AppId) :
    AppInfoRequestState × List AppId :=
  if appId = 0 ∨ appId ∈ out.1.accepted generation ∨ (generation, appId) ∈ out.1.inFlight then out
  else ({ out.1 with inFlight := (generation, appId) :: out.1.inFlight }, out.2 ++ [appId])

def reserve (r : AppInfoRequestState) (generation : UInt64) (appIds : List AppId) :
    AppInfoRequestState × List AppId :=
  let raised := { r with highestGeneration := max r.highestGeneration generation }
  appIds.foldl (reserveOne generation) (raised.pruneAccepted, [])

def finish (r : AppInfoRequestState) (generation : UInt64) (appIds : List AppId) (accepted : Bool) :
    AppInfoRequestState :=
  let landed := { r with inFlight := r.inFlight.filter fun e => ¬ (e.1 = generation ∧ e.2 ∈ appIds) }
  if ¬ accepted ∨ generation < r.highestGeneration ∧ 1 < r.highestGeneration - generation then landed
  else
    { landed with
      accepted := fun g => if g = generation then r.accepted g ++ appIds else r.accepted g }.pruneAccepted

def allAccepted (r : AppInfoRequestState) (generation : UInt64) (appIds : List AppId) : Bool :=
  appIds.isEmpty || appIds.all (· ∈ r.accepted generation)

private theorem foldl_reserveOne (generation : UInt64) (appIds : List AppId) (out : AppInfoRequestState × List AppId) :
    (appIds.foldl (reserveOne generation) out).1.highestGeneration = out.1.highestGeneration ∧
      (appIds.foldl (reserveOne generation) out).1.accepted = out.1.accepted := by
  induction appIds generalizing out with
  | nil => exact ⟨rfl, rfl⟩
  | cons appId appIds ih =>
    rw [List.foldl_cons, (ih _).1, (ih _).2]
    unfold reserveOne
    split <;> exact ⟨rfl, rfl⟩

theorem reserve_highest (r : AppInfoRequestState) (generation : UInt64) (appIds : List AppId) :
    (r.reserve generation appIds).1.highestGeneration = max r.highestGeneration generation :=
  (foldl_reserveOne generation appIds _).1

theorem reserve_accepted (r : AppInfoRequestState) (generation : UInt64) (appIds : List AppId) (g : UInt64) :
    (r.reserve generation appIds).1.accepted g =
      if g < max r.highestGeneration generation ∧ 1 < max r.highestGeneration generation - g then []
      else r.accepted g :=
  congrFun (foldl_reserveOne generation appIds _).2 g

@[simp] theorem finish_highest (r : AppInfoRequestState) (generation : UInt64) (appIds : List AppId)
    (accepted : Bool) : (r.finish generation appIds accepted).highestGeneration = r.highestGeneration := by
  unfold finish
  dsimp only
  split <;> rfl

/-- An answer adds to the accepted ids of its own generation. -/
theorem finish_accepted_other {r : AppInfoRequestState} {generation g : UInt64} {appIds : List AppId}
    {accepted : Bool} (h : r.accepted g = []) (hother : accepted = false ∨ g ≠ generation) :
    (r.finish generation appIds accepted).accepted g = [] := by
  unfold finish
  dsimp only
  split
  · exact h
  · rename_i hkept
    simp only [pruneAccepted]
    split
    · rfl
    · have hne : g ≠ generation := by
        rcases hother with rfl | hne
        · simp at hkept
        · exact hne
      rw [if_neg hne, h]

/-- The newest generation asked for, and any after it, loses nothing. -/
theorem finish_accepted_newest {r : AppInfoRequestState} {generation g : UInt64} {appIds : List AppId}
    {accepted : Bool} (hnewest : r.highestGeneration ≤ g) :
    r.accepted g ⊆ (r.finish generation appIds accepted).accepted g := by
  have hkeeps : ¬ (g < r.highestGeneration ∧ 1 < r.highestGeneration - g) :=
    fun hprune => absurd hprune.1 (UInt64.not_lt.mpr hnewest)
  intro id hid
  unfold finish
  dsimp only
  split
  · exact hid
  · simp only [pruneAccepted, if_neg hkeeps]
    split
    · exact List.mem_append_left _ hid
    · exact hid

theorem allAccepted_iff {r : AppInfoRequestState} {generation : UInt64} {appIds : List AppId} :
    r.allAccepted generation appIds = true ↔ appIds ⊆ r.accepted generation := by
  unfold allAccepted
  cases appIds with
  | nil => simp
  | cons id rest => simp [List.subset_def]

end AppInfoRequestState

namespace Globals

/-- The two fields that the next merge reads. -/
def Keeps (g next : Globals) : Prop :=
  next.desired = g.desired ∧ next.processedGeneration = g.processedGeneration

private theorem applySnapshotLocked_keeps (g : Globals) (snapshot : PackageSnapshot) (excluded : List UInt32)
    (grow : Option Grow) : g.Keeps (g.applySnapshotLocked snapshot excluded grow).1 := by
  unfold applySnapshotLocked
  split
  · exact ⟨rfl, rfl⟩
  · split
    · exact ⟨rfl, rfl⟩
    · split
      · exact ⟨rfl, rfl⟩
      · dsimp only
        split
        · exact ⟨rfl, rfl⟩
        · unfold commitSnapshot
          dsimp only
          split <;> exact ⟨rfl, rfl⟩

private theorem noteApplied_keeps (g : Globals) (changed : Bool) (generation : UInt64) :
    g.Keeps (g.noteApplied changed generation) := by
  unfold noteApplied
  split
  · exact ⟨rfl, rfl⟩
  · split <;> exact ⟨rfl, rfl⟩

theorem injectFullSetLocked_keeps (g : Globals) (appIds cachedDepots excluded : List UInt32) (grow : Option Grow) :
    g.Keeps (g.injectFullSetLocked appIds cachedDepots excluded grow).1 := by
  unfold injectFullSetLocked
  split
  · exact ⟨rfl, rfl⟩
  · dsimp only
    split <;> exact ⟨rfl, rfl⟩

theorem Keeps.trans {g next last : Globals} (h : g.Keeps next) (h' : next.Keeps last) : g.Keeps last :=
  ⟨h'.1.trans h.1, h'.2.trans h.2⟩

/-- A reload works with the desired state that it finds. -/
theorem hkLoadPackage_keeps (g : Globals) (info : PackageInfo) (managed cachedDepots excluded : List UInt32)
    (grow : Option Grow) : g.Keeps (g.hkLoadPackage info managed cachedDepots excluded grow) := by
  unfold hkLoadPackage
  split
  · exact ⟨rfl, rfl⟩
  · dsimp only
    have hloaded : g.Keeps { g with package := some info } := ⟨rfl, rfl⟩
    split
    · exact hloaded
    · split
      · rename_i desired _
        have happlied := hloaded.trans (applySnapshotLocked_keeps _ desired excluded grow)
        split
        · exact happlied.trans (noteApplied_keeps ..)
        · exact happlied
      · split
        · exact hloaded
        · exact hloaded.trans (injectFullSetLocked_keeps ..)

/-- The desired state becomes what was adopted. -/
theorem synchronizePackage0_desired {g : Globals} {snapshot desired : PackageSnapshot} {requested : Bool}
    (excluded : List UInt32) (grow : Option Grow) (h : g.adopt snapshot requested = some desired) :
    (g.synchronizePackage0 snapshot requested excluded grow).desired = some desired ∧
      (g.synchronizePackage0 snapshot requested excluded grow).processedGeneration = g.processedGeneration := by
  have happlied := applySnapshotLocked_keeps { g with desired := some desired } desired excluded grow
  unfold synchronizePackage0
  rw [h]
  dsimp only
  split
  · exact happlied.trans (noteApplied_keeps ..)
  · exact happlied

theorem adopt_newer {g : Globals} {snapshot desired : PackageSnapshot} {requested : Bool}
    (h : g.adopt snapshot requested = some desired) : desired.generation = snapshot.generation ∧
      ∀ previous, g.desired = some previous → previous.generation ≤ snapshot.generation := by
  unfold adopt at h
  split at h
  · rename_i hnone
    obtain rfl := Option.some.inj h
    refine ⟨rfl, fun previous hprevious => ?_⟩
    rw [hnone] at hprevious
    cases hprevious
  · rename_i found hfound
    split at h
    · cases h
    · rename_i hnew
      split at h
      · cases h
      · obtain rfl := Option.some.inj h
        refine ⟨rfl, fun previous hprevious => ?_⟩
        obtain rfl := Option.some.inj (hfound.symm.trans hprevious)
        exact UInt64.not_lt.mp hnew

theorem synchronizePackage0_refused {g : Globals} {snapshot : PackageSnapshot} {requested : Bool}
    (excluded : List UInt32) (grow : Option Grow) (h : g.adopt snapshot requested = none) :
    g.synchronizePackage0 snapshot requested excluded grow = g := by
  unfold synchronizePackage0
  rw [h]

end Globals

/-- The queue, the batch that the owner thread has claimed, and package 0. -/
structure Sites where
  bounds : Bounds
  queue : List Entry := []
  batch : List Command := []
  globals : Globals := {}
  requests : AppInfoRequestState := {}

/-- An inline run claims what is pending and adds its own commands behind it. -/
inductive SiteEvent where
  | push (cmd : Command) (nowUs : Nat)
  | claim (extra : List Command)
  | run (excluded : List UInt32) (grow : Option Grow)
  | package (e : Event)
  | reserve (generation : UInt64) (appIds : List AppId)
  | finish (generation : UInt64) (appIds : List AppId) (accepted : Bool)
  deriving DecidableEq

def packageSnapshot? : Command → Option PackageSnapshot
  | .syncPackage0 snapshot => some snapshot
  | _ => none

/-- The snapshots of a queue's records. -/
def pendingSnapshots (queue : List Entry) : List PackageSnapshot :=
  queue.filterMap fun e => packageSnapshot? e.cmd

namespace SiteEvent

/-- The snapshots that the event brings in. -/
def arrives : SiteEvent → List PackageSnapshot
  | .push cmd _ => (packageSnapshot? cmd).toList
  | .claim extra => extra.filterMap packageSnapshot?
  | _ => []

/-- A completed refresh, or an accepted request, of a generation from the first one on. -/
def processes (first : UInt64) : SiteEvent → Bool
  | .package (.completeRefresh generation) => first ≤ generation
  | .finish generation _ accepted => accepted ∧ first ≤ generation
  | _ => false

end SiteEvent

namespace Sites

def start (b : Bounds) : Sites := { bounds := b }

/-- What synchronizePackage0 reads of the requests; without a desired state nobody asks. -/
def requested (s : Sites) : Bool :=
  match s.globals.desired with
  | none => true
  | some desired => s.requests.allAccepted desired.generation desired.appInfoRequestIds

/-- What another command does to package 0 is a package event. A request names a
generation that has been desired. -/
def step (s : Sites) : SiteEvent → Option Sites
  | .push cmd nowUs => (applyPush s.bounds s.queue cmd nowUs).map fun out => { s with queue := out.1 }
  | .claim extra =>
    if s.batch = [] then some { s with queue := [], batch := s.queue.map Entry.cmd ++ extra } else none
  | .run excluded grow =>
    match s.batch with
    | [] => none
    | cmd :: rest =>
      match packageSnapshot? cmd with
      | none => some { s with batch := rest }
      | some snapshot =>
        some
          { s with
            batch := rest
            globals := s.globals.synchronizePackage0 snapshot s.requested excluded grow }
  | .package (.synchronizePackage0 _ _ _ _) => none
  | .package e => some { s with globals := s.globals.next e }
  | .reserve generation appIds =>
    match s.globals.desired with
    | none => none
    | some desired =>
      if generation ≤ desired.generation then
        some { s with requests := (s.requests.reserve generation appIds).1 }
      else none
  | .finish generation appIds accepted =>
    some { s with requests := s.requests.finish generation appIds accepted }

/-- The snapshots under way, the oldest first. -/
def line (s : Sites) : List PackageSnapshot :=
  s.globals.desired.toList ++ s.batch.filterMap packageSnapshot? ++ pendingSnapshots s.queue

end Sites
end SlsteamMoon.PackagePatch
