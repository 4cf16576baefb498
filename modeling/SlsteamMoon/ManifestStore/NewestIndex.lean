import Mathlib
import SlsteamMoon.HotReload.Memo
import SlsteamMoon.ManifestStore.Fallback

/-! The index of the newest valid manifest of each depot, and the fingerprint of an app's local content that is taken
from it: when neither depends on the order in which the store is listed. -/
namespace SlsteamMoon.ManifestStore
open KeyValues ProvisionCache ManifestPlan HotReload

structure Observation where
  gid : Gid
  mtime : Int

abbrev ArchivedGidIndex := DepotId → Option Gid

/-- The status of a file that is no regular one, or that fails, makes it invalid. -/
def Listed.regular (e : Listed) : Option Bytes := if e.statusFails then none else e.contents

/-- One turn of the loop: a strictly newer artifact of the depot takes the place of the one observed. -/
def observe (observations : DepotId → Option Observation) (e : Listed) : DepotId → Option Observation :=
  match parseManifestName e.name with
  | none => observations
  | some (depotId, gid) =>
    if isValidManifest e.regular = false then observations
    else
      match e.mtime with
      | none => observations
      | some mtime =>
        match observations depotId with
        | none => Function.update observations depotId (some ⟨gid, mtime⟩)
        | some found =>
          if found.mtime < mtime then Function.update observations depotId (some ⟨gid, mtime⟩) else observations

/-- No listing is a store that is not a directory. -/
def newestValidManifestGids (listing : Option (List Listed)) : ArchivedGidIndex :=
  match listing with
  | none => fun _ => none
  | some entries => fun depotId => (entries.foldl observe (fun _ => none) depotId).map Observation.gid

/-- A depot without a gid in the index enters the fingerprint with zero. -/
def fingerprintOf (w : HotReload.World) (archivedGids : ArchivedGidIndex) (appId : AppId) : UInt64 :=
  { w with archivedGids := fun depotId => (archivedGids depotId).getD 0 }.localContentFingerprint appId

/-- What an entry is to one depot. -/
def observation (depotId : DepotId) (e : Listed) : Option Observation :=
  match parseManifestName e.name with
  | none => none
  | some (depot, gid) =>
    if depot = depotId ∧ isValidManifest e.regular = true then e.mtime.map fun mtime => ⟨gid, mtime⟩ else none

/-- The turn, seen by one depot. -/
theorem observe_apply (observations : DepotId → Option Observation) (e : Listed) (depotId : DepotId) :
    observe observations e depotId =
      match observation depotId e with
      | none => observations depotId
      | some new =>
        match observations depotId with
        | none => some new
        | some found => if found.mtime < new.mtime then some new else some found := by
  rw [observe, observation]
  cases hname : parseManifestName e.name with
  | none => rfl
  | some parsed =>
    obtain ⟨depot, gid⟩ := parsed
    dsimp only
    cases hvalid : isValidManifest e.regular with
    | false => rw [if_pos rfl, if_neg (by rintro ⟨-, h⟩; cases h)]
    | true =>
      rw [if_neg Bool.noConfusion]
      by_cases hdepot : depot = depotId
      · subst hdepot
        rw [if_pos ⟨rfl, rfl⟩]
        cases e.mtime with
        | none => rfl
        | some mtime =>
          dsimp only [Option.map_some]
          cases hfound : observations depot with
          | none => exact Function.update_self ..
          | some found =>
            dsimp only
            split_ifs
            · exact Function.update_self ..
            · exact hfound
      · rw [if_neg fun h => hdepot h.1]
        cases e.mtime with
        | none => rfl
        | some mtime =>
          dsimp only
          cases observations depot with
          | none => exact Function.update_of_ne (Ne.symm hdepot) ..
          | some found =>
            dsimp only
            split_ifs
            · exact Function.update_of_ne (Ne.symm hdepot) ..
            · rfl

/-- The loop keeps for each depot the first of its newest observations. -/
theorem foldl_observe (entries : List Listed) (depotId : DepotId) :
    entries.foldl observe (fun _ => none) depotId =
      (entries.filterMap (observation depotId)).argmax Observation.mtime := by
  induction entries using List.reverseRecOn with
  | nil => rfl
  | append_singleton entries e ih =>
    rw [List.foldl_append, List.foldl_cons, List.foldl_nil, observe_apply, ih, List.filterMap_append]
    cases hnew : observation depotId e with
    | none => rw [List.filterMap_cons_none hnew, List.filterMap_nil, List.append_nil]
    | some new =>
      rw [List.filterMap_cons_some hnew, List.filterMap_nil, List.argmax_concat]
      cases (entries.filterMap (observation depotId)).argmax Observation.mtime <;> rfl

/-- A newest observation that comes first is kept. -/
theorem argmax_of_first {o : Observation} {l : List Observation} (h : ∀ p ∈ l, p.mtime ≤ o.mtime) :
    (o :: l).argmax Observation.mtime = some o := by
  rw [List.argmax_cons]
  cases hrest : l.argmax Observation.mtime with
  | none => rfl
  | some p => exact if_neg (not_lt.mpr (h p (List.argmax_mem hrest)))

/-- An archive directory: its entries, with their times. -/
structure Archive where
  files : List Listed
  distinct : (files.map Listed.name).Nodup

namespace Archive

/-- The observation is one of the depot's newest. -/
def Newest (dir : Archive) (depotId : DepotId) (o : Observation) : Prop :=
  o ∈ dir.files.filterMap (observation depotId) ∧
    ∀ p ∈ dir.files.filterMap (observation depotId), p.mtime ≤ o.mtime

/-- Valid manifests that share the newest time of their depot name the same gid. -/
def TimesTell (dir : Archive) : Prop :=
  ∀ depotId o o', dir.Newest depotId o → dir.Newest depotId o' → o.gid = o'.gid

/-- Neither the index nor a fingerprint taken from it depends on the order of the listing. -/
structure OrderFree (dir : Archive) : Prop where
  index : ∀ listing listing', listing.Perm dir.files → listing'.Perm dir.files →
    newestValidManifestGids (some listing) = newestValidManifestGids (some listing')
  fingerprint : ∀ listing listing', listing.Perm dir.files → listing'.Perm dir.files → ∀ w appId,
    fingerprintOf w (newestValidManifestGids (some listing)) appId =
      fingerprintOf w (newestValidManifestGids (some listing')) appId

private theorem index_eq (entries : List Listed) (depotId : DepotId) :
    newestValidManifestGids (some entries) depotId =
      ((entries.filterMap (observation depotId)).argmax Observation.mtime).map Observation.gid :=
  congrArg (Option.map Observation.gid) (foldl_observe entries depotId)

/-- The gid of a listing is that of one of the newest. -/
theorem index_newest (dir : Archive) {listing : List Listed} (h : listing.Perm dir.files) (depotId : DepotId) :
    (dir.files.filterMap (observation depotId) = [] ∧ newestValidManifestGids (some listing) depotId = none) ∨
      ∃ o, dir.Newest depotId o ∧ newestValidManifestGids (some listing) depotId = some o.gid := by
  have hperm := h.filterMap (observation depotId)
  rw [index_eq]
  cases hnewest : (listing.filterMap (observation depotId)).argmax Observation.mtime with
  | none =>
    rw [List.argmax_eq_none] at hnewest
    rw [hnewest] at hperm
    exact .inl ⟨hperm.symm.eq_nil, rfl⟩
  | some o =>
    refine .inr ⟨o, ⟨hperm.subset (List.argmax_mem hnewest), ?_⟩, rfl⟩
    intro p hp
    exact List.le_of_mem_argmax (hperm.symm.subset hp) hnewest

theorem TimesTell.index {dir : Archive} (h : dir.TimesTell) {listing listing' : List Listed}
    (hlisting : listing.Perm dir.files) (hlisting' : listing'.Perm dir.files) :
    newestValidManifestGids (some listing) = newestValidManifestGids (some listing') := by
  funext depotId
  obtain ⟨hnil, hnone⟩ | ⟨o, ho, hsome⟩ := dir.index_newest hlisting depotId
  · obtain ⟨-, hnone'⟩ | ⟨o', ho', -⟩ := dir.index_newest hlisting' depotId
    · rw [hnone, hnone']
    · exact absurd ho'.1 (by rw [hnil]; exact List.not_mem_nil)
  · obtain ⟨hnil, -⟩ | ⟨o', ho', hsome'⟩ := dir.index_newest hlisting' depotId
    · exact absurd ho.1 (by rw [hnil]; exact List.not_mem_nil)
    · rw [hsome, hsome', h depotId o o' ho ho']

/-- Each of the newest is the depot's entry in some listing. -/
theorem Newest.listed {dir : Archive} {depotId : DepotId} {o : Observation} (h : dir.Newest depotId o) :
    ∃ listing : List Listed, listing.Perm dir.files ∧ newestValidManifestGids (some listing) depotId = some o.gid := by
  obtain ⟨hmem, hmax⟩ := h
  obtain ⟨e, he, hobserved⟩ := List.mem_filterMap.mp hmem
  obtain ⟨before, rest, hfiles⟩ := List.append_of_mem he
  have hperm : (e :: (before ++ rest)).Perm dir.files := by
    rw [hfiles]
    exact List.perm_middle.symm
  refine ⟨e :: (before ++ rest), hperm, ?_⟩
  have hothers : ∀ p ∈ (before ++ rest).filterMap (observation depotId), p.mtime ≤ o.mtime := by
    intro p hp
    apply hmax
    apply (hperm.filterMap (observation depotId)).subset
    rw [List.filterMap_cons_some hobserved]
    exact List.mem_cons_of_mem o hp
  rw [index_eq, List.filterMap_cons_some hobserved, argmax_of_first hothers]
  rfl

/-- The index is a function of the directory's content just when the times tell the newest. -/
theorem index_order_free_iff (dir : Archive) : dir.OrderFree ↔ dir.TimesTell := by
  constructor
  · intro h depotId o o' ho ho'
    obtain ⟨listing, hperm, hgid⟩ := ho.listed
    obtain ⟨listing', hperm', hgid'⟩ := ho'.listed
    have hsame := congrFun (h.index listing listing' hperm hperm') depotId
    rw [hgid, hgid'] at hsame
    exact Option.some.inj hsame
  · intro h
    constructor
    · intro listing listing' hperm hperm'
      exact h.index hperm hperm'
    · intro listing listing' hperm hperm' w appId
      rw [h.index hperm hperm']

/-- Two manifests of depot 5 that were copied in the same tick. -/
def bulkCopy : Archive where
  files := [⟨utf8 "5_12.manifest", some manifestMagic, false, some 7⟩,
    ⟨utf8 "5_13.manifest", some manifestMagic, false, some 7⟩]
  distinct := by decide +kernel

/-- The depot's gid is the one that is listed first. -/
theorem bulkCopy_order_decides :
    newestValidManifestGids (some bulkCopy.files) 5 = some 12 ∧
      newestValidManifestGids (some bulkCopy.files.reverse) 5 = some 13 ∧ ¬bulkCopy.OrderFree := by
  have hfirst : newestValidManifestGids (some bulkCopy.files) 5 = some 12 := by decide +kernel
  have hsecond : newestValidManifestGids (some bulkCopy.files.reverse) 5 = some 13 := by decide +kernel
  refine ⟨hfirst, hsecond, fun h => ?_⟩
  have hsame := congrFun (h.index bulkCopy.files bulkCopy.files.reverse (List.Perm.refl _) (List.reverse_perm _)) 5
  rw [hfirst, hsecond] at hsame
  exact absurd hsame (by decide)

end Archive

end SlsteamMoon.ManifestStore
