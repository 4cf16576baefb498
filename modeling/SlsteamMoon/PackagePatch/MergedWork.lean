import SlsteamMoon.PackagePatch.Coalesce

/-! What a chain of snapshots leaves when its merges are over, whatever run they were part of. -/
namespace SlsteamMoon.PackagePatch
open OwnerQueue Runs

/-- A run that merges the chain into one snapshot, at either site and with any split
between them, and processes nothing of it. -/
def MergesInto (b : Bounds) (chain : List PackageSnapshot) (final : PackageSnapshot) : Prop :=
  ∃ (before events : List SiteEvent) (s t : Sites) (first : UInt64),
    exec Sites.step (.start b) before = some s ∧ s.Settled first ∧ (∀ x ∈ chain, first ≤ x.generation) ∧
      Sites.arrivals events = chain ∧ (∀ e ∈ events, e.processes first = false) ∧
      exec Sites.step s events = some t ∧ t.line.filter (first ≤ ·.generation) = [final]

/-- An id that a snapshot lists and the last one has is listed by a snapshot after which
it never leaves. -/
def Relisted (chain : List PackageSnapshot) : Prop :=
  ∀ (w : Work) (id : AppId), (∃ x ∈ chain, id ∈ w.ids x) → (∀ last, chain.getLast? = some last → id ∈ last.appIds) →
    ∃ front x back, chain = front ++ x :: back ∧ id ∈ w.ids x ∧ ∀ y ∈ x :: back, id ∈ y.appIds

/-- What the merged snapshot keeps of its chain. -/
structure Merged (chain : List PackageSnapshot) (final : PackageSnapshot) : Prop where
  kept : ∀ (w : Work) (id : AppId) (front back : List PackageSnapshot) (x : PackageSnapshot),
    chain = front ++ x :: back → id ∈ w.ids x → (∀ y ∈ x :: back, id ∈ y.appIds) → id ∈ w.ids final
  listed : ∀ (w : Work) (id : AppId), id ∈ w.ids final → ∃ x ∈ chain, id ∈ w.ids x
  last : ∃ last, chain.getLast? = some last ∧ SameTopology last final ∧ ∀ w : Work, w.Proper last → w.Proper final

section
variable {first : UInt64} {line merged : List PackageSnapshot}

private theorem ascends_of_merges (h : Relation.ReflTransGen (Merges first) line merged) (hline : Ascends line) :
    Ascends merged := by
  induction h with
  | refl => exact hline
  | tail _ hstep ih => exact hstep.ascends ih

private theorem tracked_of_merges {w : Work} {id : AppId} (h : Relation.ReflTransGen (Merges first) line merged)
    (hline : Ascends line) (htracked : Tracked w id first line) : Tracked w id first merged := by
  induction h with
  | refl => exact htracked
  | tail hmerges hstep ih => exact hstep.tracked (ascends_of_merges hmerges hline) ih

private theorem origins_of_merges {chain : List PackageSnapshot} (h : Relation.ReflTransGen (Merges first) line merged)
    (hline : ∀ x ∈ line, first ≤ x.generation → Origin chain x) :
    ∀ x ∈ merged, first ≤ x.generation → Origin chain x := by
  induction h with
  | refl => exact hline
  | tail _ hstep ih => exact hstep.origins ih

private theorem newest_of_merges (h : Relation.ReflTransGen (Merges first) line merged) (hline : Ascends line)
    {x : PackageSnapshot} (hx : x ∈ line) : ∃ y ∈ merged, x.generation ≤ y.generation := by
  induction h with
  | refl => exact ⟨x, hx, UInt64.le_refl _⟩
  | tail hmerges hstep ih =>
    obtain ⟨y, hy, hle⟩ := ih
    obtain ⟨z, hz, hle'⟩ := hstep.newest (ascends_of_merges hmerges hline) hy
    exact ⟨z, hz, UInt64.le_trans hle hle'⟩

/-- The last snapshot of an ascending chain is the newest. -/
theorem Ascends.le_last {chain : List PackageSnapshot} (h : Ascends chain) {last x : PackageSnapshot}
    (hlast : chain.getLast? = some last) (hx : x ∈ chain) : x = last ∨ x.generation < last.generation := by
  obtain ⟨front, rfl⟩ := List.getLast?_eq_some_iff.mp hlast
  rcases List.mem_append.mp hx with hx | hx
  · exact .inr ((List.pairwise_append.mp h).2.2 x hx last (by simp))
  · exact .inl (List.mem_singleton.mp hx)

/-- A line whose older part is done with, merged down to one snapshot of the chain. -/
theorem merged_of_merges {older chain : List PackageSnapshot} {final : PackageSnapshot}
    (h : Relation.ReflTransGen (Merges first) (older ++ chain) merged) (hline : Ascends (older ++ chain))
    (holder : ∀ x ∈ older, x.generation < first) (hfirst : ∀ x ∈ chain, first ≤ x.generation)
    (hfinal : merged.filter (first ≤ ·.generation) = [final]) : Merged chain final := by
  have honly : ∀ x, x ∈ merged ∧ first ≤ x.generation ↔ x = final := by
    intro x
    have hmem : x ∈ merged.filter (first ≤ ·.generation) ↔ x = final := by rw [hfinal, List.mem_singleton]
    simpa using hmem
  obtain ⟨hmem, hopen⟩ := (honly final).mpr rfl
  have horigin : Origin chain final := by
    apply origins_of_merges h _ final hmem hopen
    intro x hx hle
    rcases List.mem_append.mp hx with hx | hx
    · exact absurd (holder x hx) (UInt64.not_lt.mpr hle)
    · exact .self hx
  constructor
  · rintro w id front back x rfl hid hall
    have htracked : Tracked w id first (x :: back) := .inl ⟨hfirst x (by simp), hid, hall⟩
    have hstart := (htracked.append_left front).append_left older
    obtain ⟨y, hy, hle, hwork⟩ := (tracked_of_merges h hline hstart).exists
    rwa [(honly y).mp ⟨hy, hle⟩] at hwork
  · exact horigin.listed
  · have hchain : Ascends chain := (List.pairwise_append.mp hline).2.1
    obtain ⟨s, hs, hsame, hproper⟩ := horigin.source
    obtain ⟨last, hlast⟩ := Option.isSome_iff_exists.mp (List.getLast?_isSome.mpr (List.ne_nil_of_mem hs))
    have hlastmem : last ∈ chain := List.mem_of_getLast? hlast
    refine ⟨last, hlast, ?_⟩
    obtain ⟨y, hy, hle⟩ := newest_of_merges h hline (List.mem_append_right older hlastmem)
    have hy : y = final := (honly y).mp ⟨hy, UInt64.le_trans (hfirst last hlastmem) hle⟩
    rcases hchain.le_last hlast hs with rfl | hlt
    · exact ⟨hsame, hproper⟩
    · rw [hy, hsame.1] at hle
      exact absurd hlt (UInt64.not_lt.mpr hle)

end

theorem MergesInto.merged {b : Bounds} {chain : List PackageSnapshot} {final : PackageSnapshot}
    (h : MergesInto b chain final) (hchain : Ascends chain) : Merged chain final := by
  obtain ⟨before, events, s, t, first, hbefore, hsettled, hfirst, rfl, hidle, hrun, hfinal⟩ := h
  have hsound := Sites.exec_sound (Sites.start_sound b) hbefore
  have hcarrying := hsettled.carrying hsound hchain hfirst
  apply merged_of_merges (Sites.run_merges hcarrying hidle hrun) hcarrying.ascends _ hfirst hfinal
  intro x hx
  rw [hsettled.idle] at hx
  exact (hsettled.done x (by simpa using hx)).1

/-- Two merges of a chain whose lists are in order and whose ids are relisted agree. -/
theorem Merged.unique {chain : List PackageSnapshot} {final other : PackageSnapshot} (h : Merged chain final)
    (hother : Merged chain other) (hproper : ∀ x ∈ chain, ∀ w : Work, w.Proper x) (hrelisted : Relisted chain) :
    final = other := by
  obtain ⟨last, hlast, hsame, hfinal⟩ := h.last
  obtain ⟨last', hlast', hsame', hother'⟩ := hother.last
  obtain rfl := Option.some.inj (hlast.symm.trans hlast')
  have hmem : last ∈ chain := List.mem_of_getLast? hlast
  apply hsame.eq hsame'
  intro w
  have hproper := hproper last hmem w
  -- both hold the ids that some snapshot lists and the last one has
  have hids : ∀ {one : PackageSnapshot}, Merged chain one → SameTopology last one → w.Proper one →
      ∀ id, id ∈ w.ids one ↔ (∃ x ∈ chain, id ∈ w.ids x) ∧ id ∈ last.appIds := by
    intro one hone hsame hin id
    constructor
    · intro hid
      exact ⟨hone.listed w id hid, hsame.2.1 ▸ hin.within hid⟩
    · rintro ⟨hlisted, hlastid⟩
      obtain ⟨front, x, back, hchain, hid, hall⟩ := hrelisted w id hlisted (by simpa [hlast] using hlastid)
      exact hone.kept w id front back x hchain hid hall
  apply ascending_ext (hfinal w hproper).ascending (hother' w hproper).ascending
  intro id
  rw [hids h hsame (hfinal w hproper), hids hother hsame' (hother' w hproper)]

/-- Before the first snapshot nothing is pending. -/
theorem Sites.start_settled (b : Bounds) : (Sites.start b).Settled 1 :=
  ⟨rfl, UInt64.zero_lt_one, fun _ _ => rfl, fun _ h => by cases h⟩

/-- A run from the start that processes nothing at all. -/
theorem MergesInto.of_start {b : Bounds} {chain : List PackageSnapshot} {final : PackageSnapshot} {t : Sites}
    (events : List SiteEvent) (hrun : exec Sites.step (.start b) events = some t)
    (hchain : Sites.arrivals events = chain) (hfirst : ∀ x ∈ chain, 1 ≤ x.generation)
    (hidle : ∀ e ∈ events, e.processes 1 = false) (hfinal : t.line.filter (1 ≤ ·.generation) = [final]) :
    MergesInto b chain final :=
  ⟨[], events, .start b, t, 1, rfl, Sites.start_settled b, hfirst, hchain, hidle, hrun, hfinal⟩

/-- The work of a chain of snapshots survives its merges: a listed id that no later
snapshot lost is listed at the end, the lists are in order, and where the chain was
split between the two sites makes no difference. -/
theorem coalesced_snapshots_keep_work (b : Bounds) (chain : List PackageSnapshot) (final : PackageSnapshot)
    (hchain : Ascends chain) (hmerges : MergesInto b chain final) :
    (∀ (w : Work) (id : AppId) (front back : List PackageSnapshot) (x : PackageSnapshot),
      chain = front ++ x :: back → id ∈ w.ids x → (∀ y ∈ x :: back, id ∈ y.appIds) → id ∈ w.ids final) ∧
    (∃ last, chain.getLast? = some last ∧ final.appIds = last.appIds ∧
      ∀ w : Work, w.Proper last → (w.ids final).Pairwise (· < ·) ∧ w.ids final ⊆ last.appIds) ∧
    ((∀ x ∈ chain, ∀ w : Work, w.Proper x) → Relisted chain →
      ∀ (b' : Bounds) (other : PackageSnapshot), MergesInto b' chain other → other = final) := by
  have hmerged := hmerges.merged hchain
  refine ⟨hmerged.kept, ?_, ?_⟩
  · obtain ⟨last, hlast, hsame, hproper⟩ := hmerged.last
    refine ⟨last, hlast, hsame.2.1, fun w hw => ⟨(hproper w hw).ascending, ?_⟩⟩
    rw [← hsame.2.1]
    exact (hproper w hw).within
  · intro hproper hrelisted b' other hother
    exact (hother.merged hchain).unique hmerged hproper hrelisted

/-- An app that leaves and comes back unlisted, beside one that stays. -/
def returning : List PackageSnapshot :=
  [{ generation := 1, appIds := [5, 7], addedAppIds := [5, 7] }, { generation := 2, appIds := [7] },
    { generation := 3, appIds := [5, 7] }]

def pushOf (snapshot : PackageSnapshot) : SiteEvent := .push (.syncPackage0 snapshot) 0

/-- The three meet in the queue. -/
theorem returning_in_queue : MergesInto .default returning
    { generation := 3, appIds := [5, 7], addedAppIds := [7] } :=
  .of_start (returning.map pushOf ++ [.claim [], .run [] none]) rfl rfl (by decide) (by decide) (by decide +kernel)

/-- The first has reached package 0 before the others come. -/
theorem returning_at_both_sites : MergesInto .default returning
    { generation := 3, appIds := [5, 7], addedAppIds := [5, 7] } :=
  .of_start ((returning.take 1).map pushOf ++ [.claim [], .run [] none] ++ (returning.drop 1).map pushOf ++
    [.claim [], .run [] none]) rfl rfl (by decide) (by decide) (by decide +kernel)

theorem coalesced_snapshots_keep_staying_app :
    Ascends returning ∧ 7 ∈ Work.ownership.ids { generation := 3, appIds := [5, 7], addedAppIds := [7] } := by
  have hascends : Ascends returning := by unfold Ascends; decide
  refine ⟨hascends, ?_⟩
  exact (coalesced_snapshots_keep_work .default returning _ hascends returning_in_queue).1 .ownership 7 []
    (returning.drop 1) (returning.head (by decide)) rfl (by decide) (by decide)

/-- A list that is neither in order nor within its snapshot's ids. -/
def misordered : PackageSnapshot := { generation := 1, appIds := [5], addedAppIds := [9, 5] }

private theorem misordered_in_queue : MergesInto .default [misordered] misordered :=
  .of_start [pushOf misordered] rfl rfl (by decide) (by decide) (by decide +kernel)

/-- The second lists an app that only the third has. -/
def listedEarly : List PackageSnapshot :=
  [{ generation := 1, appIds := [5] }, { generation := 2, appIds := [5], addedAppIds := [9] },
    { generation := 3, appIds := [5, 9] }]

private theorem listedEarly_in_queue : MergesInto .default listedEarly { generation := 3, appIds := [5, 9] } :=
  .of_start (listedEarly.map pushOf ++ [.claim [], .run [] none]) rfl rfl (by decide) (by decide) (by decide +kernel)

/-- Two splits of one chain differ, with every list in order; a snapshot that meets
no other keeps its lists as they are; and an id that is listed by a snapshot without it
is dropped, though every later snapshot has it. -/
theorem split_decides_merged_work :
    (Ascends returning ∧ (∀ x ∈ returning, ∀ w : Work, w.Proper x) ∧
      ∃ one other, MergesInto .default returning one ∧ MergesInto .default returning other ∧
        one.addedAppIds = [7] ∧ other.addedAppIds = [5, 7]) ∧
    (∃ final, MergesInto .default [misordered] final ∧ ¬ final.addedAppIds.Pairwise (· ≤ ·) ∧
      ¬ final.addedAppIds ⊆ misordered.appIds) ∧
    Ascends listedEarly ∧ ∃ first second third final, listedEarly = [first, second, third] ∧
      MergesInto .default listedEarly final ∧ 9 ∈ second.addedAppIds ∧ 9 ∈ third.appIds ∧ 9 ∉ final.addedAppIds := by
  refine ⟨⟨by unfold Ascends; decide, ?_, _, _, returning_in_queue, returning_at_both_sites, rfl, rfl⟩,
    ⟨_, misordered_in_queue, by decide, by decide⟩, by unfold Ascends; decide, _, _, _, _, rfl, listedEarly_in_queue,
    by decide, by decide, by decide⟩
  simp only [returning, List.forall_mem_cons]
  refine ⟨?_, ?_, ?_, by simp⟩
  · intro w
    cases w <;> exact ⟨by decide, by decide⟩
  · intro w
    cases w <;> exact ⟨by decide, by decide⟩
  · intro w
    cases w <;> exact ⟨by decide, by decide⟩

end SlsteamMoon.PackagePatch
