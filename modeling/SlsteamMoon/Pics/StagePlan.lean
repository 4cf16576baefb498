import SlsteamMoon.FirstSeen
import SlsteamMoon.ManifestPlan.Planner

/-! The manifests that are staged before Steam plans an install. A pair of depot and gid is remembered by a 64-bit mix
of the two, so that the plan is complete just when the mix tells apart the pairs it meets. -/
namespace SlsteamMoon.Pics
open ManifestPlan FirstSeen

structure AppDepots where
  appId : AppId
  depots : List (DepotId × Gid)

structure StageTarget where
  appId : AppId
  depotId : DepotId
  gid : Gid
  deriving DecidableEq

def StageTarget.depotGid (t : StageTarget) : DepotId × Gid := (t.depotId, t.gid)

def mix (depotGid : DepotId × Gid) : UInt64 := depotGid.2 ^^^ (depotGid.1.toUInt64 * 0x9e3779b97f4a7c15)

/-- The plan so far and the mixes it has met. -/
structure Planning where
  out : List StageTarget := []
  seen : List UInt64 := []

/-- One depot of one app; without a predicate every key is held. -/
def stageDepot (hasKey : Option (DepotId → Bool)) (appId : AppId) (s : Planning) (depot : DepotId × Gid) : Planning :=
  if depot.2 = 0 then s
  else if hasKey.any fun held => !held depot.1 then s
  else if mix depot ∈ s.seen then s
  else ⟨s.out ++ [⟨appId, depot.1, depot.2⟩], mix depot :: s.seen⟩

def stageApp (hasKey : Option (DepotId → Bool)) (s : Planning) (app : AppDepots) : Planning :=
  app.depots.foldl (stageDepot hasKey app.appId) s

def buildSyncStagePlan (apps : List AppDepots) (hasKey : Option (DepotId → Bool)) : List StageTarget :=
  (apps.foldl (stageApp hasKey) {}).out

/-- A real gid and a key that is held. -/
def isUsable (hasKey : Option (DepotId → Bool)) (depot : DepotId × Gid) : Bool :=
  depot.2 ≠ 0 && !hasKey.any fun held => !held depot.1

/-- Every usable target that some app lists, in the order of the lists. -/
def usable (apps : List AppDepots) (hasKey : Option (DepotId → Bool)) : List StageTarget :=
  apps.flatMap fun app => (app.depots.filter (isUsable hasKey)).map fun depot => ⟨app.appId, depot.1, depot.2⟩

/-- The plan holds each usable pair once, for the first app that lists it and in first-seen order, and nothing else. -/
abbrev Complete (apps : List AppDepots) (hasKey : Option (DepotId → Bool)) (plan : List StageTarget) : Prop :=
  TakesFirsts StageTarget.depotGid (usable apps hasKey) plan

def Planning.after (s : Planning) (taken : List StageTarget × List UInt64) : Planning := ⟨s.out ++ taken.1, taken.2⟩

private theorem stageDepots_eq (hasKey : Option (DepotId → Bool)) (appId : AppId) (depots : List (DepotId × Gid))
    (s : Planning) :
    depots.foldl (stageDepot hasKey appId) s =
      s.after (pass (fun t => mix t.depotGid) s.seen
        ((depots.filter (isUsable hasKey)).map fun depot => ⟨appId, depot.1, depot.2⟩)) := by
  induction depots generalizing s with
  | nil => rw [List.foldl_nil, List.filter_nil, List.map_nil, FirstSeen.pass, Planning.after, List.append_nil]
  | cons depot depots ih =>
    rw [List.foldl_cons, ih, stageDepot]
    by_cases hgid : depot.2 = 0
    · have hnot : isUsable hasKey depot = false := by simp [isUsable, hgid]
      rw [if_pos hgid, List.filter_cons_of_neg (by rw [hnot]; decide)]
    by_cases hkey : (hasKey.any fun held => !held depot.1) = true
    · have hnot : isUsable hasKey depot = false := by simp [isUsable, hkey]
      rw [if_neg hgid, if_pos hkey, List.filter_cons_of_neg (by rw [hnot]; decide)]
    have husable : isUsable hasKey depot = true := by simp [isUsable, hgid, hkey]
    rw [if_neg hgid, if_neg hkey, List.filter_cons_of_pos husable, List.map_cons, FirstSeen.pass]
    have hmix : mix (StageTarget.mk appId depot.1 depot.2).depotGid = mix depot := rfl
    rw [hmix]
    split_ifs with hseen
    · rfl
    · simp only [Planning.after, List.append_assoc, List.singleton_append]

private theorem buildSyncStagePlan_eq (apps : List AppDepots) (hasKey : Option (DepotId → Bool)) :
    buildSyncStagePlan apps hasKey = (pass (fun t => mix t.depotGid) [] (usable apps hasKey)).1 := by
  have hall : ∀ (apps : List AppDepots) (s : Planning), apps.foldl (stageApp hasKey) s =
        s.after (pass (fun t => mix t.depotGid) s.seen (usable apps hasKey)) := by
    intro apps
    induction apps with
    | nil => exact fun s => congrArg (Planning.mk · s.seen) (List.append_nil s.out).symm
    | cons app apps ih =>
      intro s
      have husable : usable (app :: apps) hasKey =
          ((app.depots.filter (isUsable hasKey)).map fun depot => ⟨app.appId, depot.1, depot.2⟩) ++ usable apps hasKey :=
        List.flatMap_cons ..
      rw [List.foldl_cons, stageApp, stageDepots_eq, ih, husable, pass_append]
      simp only [Planning.after, List.append_assoc]
  rw [buildSyncStagePlan, hall]
  exact List.nil_append _

/-- The plan is complete and free of duplicates just when no two usable pairs have the same mix. -/
theorem stage_plan_complete_iff (apps : List AppDepots) (hasKey : Option (DepotId → Bool)) :
    Complete apps hasKey (buildSyncStagePlan apps hasKey) ↔
      ∀ s ∈ usable apps hasKey, ∀ t ∈ usable apps hasKey, mix s.depotGid = mix t.depotGid →
        s.depotGid = t.depotGid := by
  rw [buildSyncStagePlan_eq]
  exact pass_mixed_iff StageTarget.depotGid mix (usable apps hasKey)

/-- Two depots of one app whose pairs have the same mix. -/
def collidingDepots : List AppDepots := [⟨480, [(1, 0x3c6ef372fe94f82a), (2, 0x9e3779b97f4a7c15)]⟩]

/-- The second depot is never staged. -/
theorem colliding_depot_dropped :
    buildSyncStagePlan collidingDepots none = [⟨480, 1, 0x3c6ef372fe94f82a⟩] ∧
      ¬Complete collidingDepots none (buildSyncStagePlan collidingDepots none) := by
  have hplan : buildSyncStagePlan collidingDepots none = [⟨480, 1, 0x3c6ef372fe94f82a⟩] := by decide +kernel
  refine ⟨hplan, fun h => ?_⟩
  have hlisted : (usable collidingDepots none).find?
      (fun t => t.depotGid = (StageTarget.mk 480 2 0x9e3779b97f4a7c15).depotGid) =
        some ⟨480, 2, 0x9e3779b97f4a7c15⟩ := by decide +kernel
  have hmem := (h.each ⟨480, 2, 0x9e3779b97f4a7c15⟩).mpr hlisted
  rw [hplan] at hmem
  exact absurd hmem (by decide)

end SlsteamMoon.Pics
