import Mathlib.Logic.Relation
import SlsteamMoon.PackagePatch.MergeSites

/-! Snapshots that nobody processed in between keep their work. Every step of the two
sites merges at most two neighbours of the line of snapshots under way. -/
namespace SlsteamMoon.PackagePatch
open OwnerQueue Runs

private theorem pendingSnapshots_append (front back : List Entry) :
    pendingSnapshots (front ++ back) = pendingSnapshots front ++ pendingSnapshots back :=
  List.filterMap_append ..

private theorem packageSnapshot?_eq_some {cmd : Command} {snapshot : PackageSnapshot} :
    packageSnapshot? cmd = some snapshot ↔ cmd = .syncPackage0 snapshot := by
  cases cmd <;> simp [packageSnapshot?]

/-- A pending snapshot never lets another one pass. -/
theorem snapshot_of_passes {maxIds : Nat} {p : Entry} {next : PackageSnapshot}
    (h : meet maxIds p (.syncPackage0 next) = .passes) : packageSnapshot? p.cmd = none := by
  cases hcmd : p.cmd with
  | syncPackage0 previous =>
    unfold meet at h
    rw [hcmd] at h
    simp only [Command.kind, ne_eq, not_true_eq_false, if_false] at h
    split at h
    · cases h
    · split at h
      · cases h
      · split at h <;> cases h
  | _ => rfl

private theorem pendingSnapshots_of_passes {maxIds : Nat} {queue : List Entry} {next : PackageSnapshot}
    (h : ∀ p ∈ queue, meet maxIds p (.syncPackage0 next) = .passes) : pendingSnapshots queue = [] :=
  List.filterMap_eq_nil_iff.mpr fun p hp => snapshot_of_passes (h p hp)

/-- A snapshot becomes pending alone, is covered by the pending one or takes over its work. -/
inductive SnapshotPush (next : PackageSnapshot) : List PackageSnapshot → List PackageSnapshot → Prop
  | alone : SnapshotPush next [] [next]
  | covered (previous : PackageSnapshot) (rest : List PackageSnapshot)
      (hold : next.generation ≤ previous.generation) :
      SnapshotPush next (previous :: rest) (previous :: rest)
  | takesOver (previous : PackageSnapshot) (rest : List PackageSnapshot)
      (hnew : previous.generation < next.generation) :
      SnapshotPush next (previous :: rest) (carryPendingSnapshotWork previous next false false :: rest)

private theorem applyPush_snapshot {b : Bounds} {queue out : List Entry} {next : PackageSnapshot} {nowUs : Nat}
    {result : PushResult} (h : applyPush b queue (.syncPackage0 next) nowUs = some (out, result)) :
    SnapshotPush next (pendingSnapshots queue) (pendingSnapshots out) := by
  cases applyPush_accepts h with
  | appended hroom hpass =>
    rw [pendingSnapshots_append, pendingSnapshots_of_passes hpass]
    exact .alone
  | met before p entry rest result hinto hpass hmet =>
    have hbefore := pendingSnapshots_of_passes hpass
    rw [hinto, pendingSnapshots_append, pendingSnapshots_append, hbefore]
    cases hmet with
    | same hsame =>
      obtain ⟨previous, hp⟩ : ∃ previous, p.cmd = .syncPackage0 previous := by
        cases hcmd : p.cmd <;> simp [hcmd, Command.sameWork] at hsame ⊢
      rw [hp] at hsame
      have heq : previous = next := by simpa [Command.sameWork] using hsame
      simp only [pendingSnapshots, List.filterMap_cons, packageSnapshot?_eq_some.mpr hp, List.nil_append]
      exact .covered previous _ (heq ▸ UInt64.le_refl _)
    | covered base extra hp hcmd => cases hcmd
    | merged base extra hp hcmd => cases hcmd
    | older previous next' hp hcmd hold =>
      cases hcmd
      simp only [pendingSnapshots, List.filterMap_cons, packageSnapshot?_eq_some.mpr hp, List.nil_append]
      exact .covered previous _ hold
    | replaced previous next' hp hcmd hnew =>
      cases hcmd
      simp only [pendingSnapshots, List.filterMap_cons, packageSnapshot?_eq_some.mpr hp, List.nil_append]
      exact .takesOver previous _ hnew

/-- Another command leaves the pending snapshots alone. -/
theorem applyPush_other {b : Bounds} {queue out : List Entry} {cmd : Command} {nowUs : Nat} {result : PushResult}
    (h : applyPush b queue cmd nowUs = some (out, result)) (hcmd : packageSnapshot? cmd = none) :
    pendingSnapshots out = pendingSnapshots queue := by
  cases applyPush_accepts h with
  | appended =>
    rw [pendingSnapshots_append]
    simp [pendingSnapshots, hcmd]
  | met before p entry rest result hinto hpass hmet =>
    rw [hinto, pendingSnapshots_append, pendingSnapshots_append]
    cases hmet with
    | same => rfl
    | covered => rfl
    | merged base extra hp hmerged =>
      simp [pendingSnapshots, hp, packageSnapshot?]
    | older => rfl
    | replaced previous next hp hsync =>
      rw [hsync] at hcmd
      cases hcmd

theorem SnapshotPush.length {next : PackageSnapshot} {pending out : List PackageSnapshot}
    (h : SnapshotPush next pending out) (hone : pending.length ≤ 1) : out.length ≤ 1 := by
  cases h <;> simp_all

namespace Sites

/-- The queue holds one snapshot at most, and requests were made for desired generations. -/
structure Sound (s : Sites) : Prop where
  one : (pendingSnapshots s.queue).length ≤ 1
  asked : s.requests.highestGeneration = 0 ∨
    ∃ d, s.globals.desired = some d ∧ s.requests.highestGeneration ≤ d.generation

theorem start_sound (b : Bounds) : (start b).Sound := ⟨by simp [start, pendingSnapshots], .inl rfl⟩

/-- What a package event leaves to the next merge. -/
theorem package_keeps {s t : Sites} {e : Event} (h : s.step (.package e) = some t) :
    t = { s with globals := s.globals.next e } ∧ (s.globals.next e).desired = s.globals.desired ∧
      ((s.globals.next e).processedGeneration = s.globals.processedGeneration ∨
        ∃ generation, e = .completeRefresh generation ∧
          (s.globals.next e).processedGeneration = max s.globals.processedGeneration generation) := by
  cases e with
  | loadPackage info managed cachedDepots excluded grow =>
    have hkeeps := Globals.hkLoadPackage_keeps s.globals info managed cachedDepots excluded grow
    exact ⟨(Option.some.inj h).symm, hkeeps.1, .inl hkeeps.2⟩
  | synchronizePackage0 => cases h
  | injectIntoPackage0 appIds cachedDepots excluded grow =>
    have hkeeps := Globals.injectFullSetLocked_keeps s.globals appIds cachedDepots excluded grow
    exact ⟨(Option.some.inj h).symm, hkeeps.1, .inl hkeeps.2⟩
  | setExtraAppIds appIds => exact ⟨(Option.some.inj h).symm, rfl, .inl rfl⟩
  | completeRefresh generation =>
    refine ⟨(Option.some.inj h).symm, ?_⟩
    simp only [Globals.next, Globals.completeRefresh]
    split <;> exact ⟨rfl, .inr ⟨generation, rfl, rfl⟩⟩
  | settleStatus available => exact ⟨(Option.some.inj h).symm, rfl, .inl rfl⟩

/-- What a step of the sites can do. -/
inductive Moves (s : Sites) : SiteEvent → Sites → Prop
  | pushes (next : PackageSnapshot) (nowUs : Nat) (queue : List Entry)
      (hpush : SnapshotPush next (pendingSnapshots s.queue) (pendingSnapshots queue)) :
      Moves s (.push (.syncPackage0 next) nowUs) { s with queue }
  | pushesOther (cmd : Command) (nowUs : Nat) (queue : List Entry) (hcmd : packageSnapshot? cmd = none)
      (hqueue : pendingSnapshots queue = pendingSnapshots s.queue) : Moves s (.push cmd nowUs) { s with queue }
  | claims (extra : List Command) (hbatch : s.batch = []) :
      Moves s (.claim extra) { s with queue := [], batch := s.queue.map Entry.cmd ++ extra }
  | runsOther (excluded : List UInt32) (grow : Option Grow) (cmd : Command) (rest : List Command)
      (hbatch : s.batch = cmd :: rest) (hcmd : packageSnapshot? cmd = none) :
      Moves s (.run excluded grow) { s with batch := rest }
  | synchronizes (excluded : List UInt32) (grow : Option Grow) (snapshot : PackageSnapshot) (rest : List Command)
      (hbatch : s.batch = .syncPackage0 snapshot :: rest) :
      Moves s (.run excluded grow)
        { s with
          batch := rest
          globals := s.globals.synchronizePackage0 snapshot s.requested excluded grow }
  | package (e : Event) (hdesired : (s.globals.next e).desired = s.globals.desired)
      (hprocessed : (s.globals.next e).processedGeneration = s.globals.processedGeneration ∨
        ∃ generation, e = .completeRefresh generation ∧
          (s.globals.next e).processedGeneration = max s.globals.processedGeneration generation) :
      Moves s (.package e) { s with globals := s.globals.next e }
  | reserves (generation : UInt64) (appIds : List AppId) (desired : PackageSnapshot)
      (hdesired : s.globals.desired = some desired) (hle : generation ≤ desired.generation) :
      Moves s (.reserve generation appIds) { s with requests := (s.requests.reserve generation appIds).1 }
  | finishes (generation : UInt64) (appIds : List AppId) (accepted : Bool) :
      Moves s (.finish generation appIds accepted)
        { s with requests := s.requests.finish generation appIds accepted }

theorem step_moves {s t : Sites} {e : SiteEvent} (h : s.step e = some t) : Moves s e t := by
  cases e with
  | push cmd nowUs =>
    obtain ⟨⟨queue, result⟩, hpush, rfl⟩ := Option.map_eq_some_iff.mp h
    cases hcmd : packageSnapshot? cmd with
    | none => exact .pushesOther cmd nowUs queue hcmd (applyPush_other hpush hcmd)
    | some next =>
      obtain rfl := packageSnapshot?_eq_some.mp hcmd
      exact .pushes next nowUs queue (applyPush_snapshot hpush)
  | claim extra =>
    simp only [step] at h
    split at h
    · obtain rfl := Option.some.inj h
      exact .claims extra ‹_›
    · cases h
  | run excluded grow =>
    simp only [step] at h
    split at h
    · cases h
    · rename_i cmd rest hbatch
      split at h
      · obtain rfl := Option.some.inj h
        exact .runsOther excluded grow cmd rest hbatch ‹_›
      · rename_i snapshot hcmd
        obtain rfl := Option.some.inj h
        obtain rfl := packageSnapshot?_eq_some.mp hcmd
        exact .synchronizes excluded grow snapshot rest hbatch
  | package e =>
    obtain ⟨rfl, hdesired, hprocessed⟩ := package_keeps h
    exact .package e hdesired hprocessed
  | reserve generation appIds =>
    simp only [step] at h
    split at h
    · cases h
    · split at h
      · obtain rfl := Option.some.inj h
        exact .reserves generation appIds _ ‹_› ‹_›
      · cases h
  | finish generation appIds accepted =>
    obtain rfl := Option.some.inj h
    exact .finishes generation appIds accepted

/-- Whether a snapshot's work was done before the chain came. -/
structure Done (s : Sites) (x : PackageSnapshot) : Prop where
  desired : s.globals.desired = some x
  processed : x.generation ≤ s.globals.processedGeneration
  requested : x.appInfoRequestIds ⊆ s.requests.accepted x.generation

/-- A state on the way: nothing from the first generation on has been processed, and
what is older is the desired state and done with. -/
structure Carrying (first : UInt64) (s : Sites) (future : List PackageSnapshot) : Prop where
  sound : s.Sound
  ascends : Ascends (s.line ++ future)
  arriving : ∀ x ∈ future, first ≤ x.generation
  unprocessed : s.globals.processedGeneration < first
  unaccepted : ∀ g, first ≤ g → s.requests.accepted g = []
  settled : ∀ x ∈ s.line, x.generation < first → s.Done x

private theorem uint64_max_le {a b c : UInt64} (ha : a ≤ c) (hb : b ≤ c) : max a b ≤ c := by
  rw [UInt64.le_iff_toNat_le, toNat_max]
  exact max_le ha hb

theorem Moves.sound {s t : Sites} {e : SiteEvent} (h : Moves s e t) (hs : s.Sound) : t.Sound := by
  obtain ⟨hone, hasked⟩ := hs
  cases h with
  | pushes next nowUs queue hpush => exact ⟨hpush.length hone, hasked⟩
  | pushesOther cmd nowUs queue hcmd hqueue => exact ⟨hqueue ▸ hone, hasked⟩
  | claims extra hbatch => exact ⟨by simp [pendingSnapshots], hasked⟩
  | runsOther => exact ⟨hone, hasked⟩
  | synchronizes excluded grow snapshot rest hbatch =>
    refine ⟨hone, ?_⟩
    cases hadopt : s.globals.adopt snapshot s.requested with
    | none =>
      rw [Globals.synchronizePackage0_refused excluded grow hadopt]
      exact hasked
    | some desired =>
      obtain ⟨hdesired, -⟩ := Globals.synchronizePackage0_desired excluded grow hadopt
      obtain ⟨hgeneration, hnewer⟩ := Globals.adopt_newer hadopt
      rcases hasked with hzero | ⟨d, hd, hle⟩
      · exact .inl hzero
      · exact .inr ⟨desired, hdesired, hgeneration ▸ UInt64.le_trans hle (hnewer d hd)⟩
  | package e hdesired =>
    refine ⟨hone, ?_⟩
    rw [hdesired]
    exact hasked
  | reserves generation appIds desired hdesired hle =>
    refine ⟨hone, .inr ⟨desired, hdesired, ?_⟩⟩
    rw [AppInfoRequestState.reserve_highest]
    refine uint64_max_le ?_ hle
    rcases hasked with hzero | ⟨d, hd, hle⟩
    · rw [hzero]
      exact UInt64.zero_le
    · obtain rfl := Option.some.inj (hdesired.symm.trans hd)
      exact hle
  | finishes generation appIds accepted =>
    refine ⟨hone, ?_⟩
    rw [AppInfoRequestState.finish_highest]
    exact hasked

theorem exec_sound {s t : Sites} {events : List SiteEvent} (hs : s.Sound) (h : exec step s events = some t) :
    t.Sound :=
  exec_preserves (fun _ _ _ hs hstep => (step_moves hstep).sound hs) hs h

section
variable {first : UInt64} {future : List PackageSnapshot} {s t : Sites} {e : SiteEvent}

/-- A snapshot that is not at the head of the line is not done with. -/
theorem Carrying.open_of_older {d x : PackageSnapshot} {rest : List PackageSnapshot}
    (h : Carrying first s future) (hline : s.line = d :: rest) (hx : x ∈ rest) : ¬ x.generation < first := by
  intro hlt
  have hdone := h.settled x (by simp [hline, hx]) hlt
  have hhead : x = d := by
    have hstart := congrArg List.head? hline
    simpa [line, hdone.desired] using hstart
  have hascends := h.ascends
  rw [hline] at hascends
  have hnewer := (List.pairwise_cons.mp hascends).1 x (by simp [hx])
  rw [hhead] at hnewer
  exact UInt64.lt_irrefl _ hnewer

/-- What the queue holds is not done with. -/
theorem Carrying.pending_open {p : PackageSnapshot} (h : Carrying first s future)
    (hp : p ∈ pendingSnapshots s.queue) : ¬ p.generation < first := by
  intro hlt
  have hdone := h.settled p (by simp [line, hp]) hlt
  have hline : s.line = p :: (s.batch.filterMap packageSnapshot? ++ pendingSnapshots s.queue) := by
    simp [line, hdone.desired]
  exact h.open_of_older hline (by simp [hp]) hlt

private theorem adopts_first (snapshot : PackageSnapshot) (hdesired : s.globals.desired = none) :
    s.globals.adopt snapshot s.requested = some snapshot := by
  unfold Globals.adopt
  rw [hdesired]

/-- The newer snapshot takes over the desired one's open work. -/
theorem adopts_newer {snapshot previous : PackageSnapshot} (hdesired : s.globals.desired = some previous)
    (hnewer : previous.generation < snapshot.generation) :
    s.globals.adopt snapshot s.requested = some (carryPendingSnapshotWork previous snapshot
      (previous.generation ≤ s.globals.processedGeneration)
      (s.requests.allAccepted previous.generation previous.appInfoRequestIds)) := by
  unfold Globals.adopt requested
  rw [hdesired]
  dsimp only
  rw [if_neg (UInt64.lt_asymm hnewer), if_neg]
  rintro ⟨heq, -⟩
  exact UInt64.ne_of_lt hnewer heq.symm

/-- The desired state's lists are done with exactly as the chain requires. -/
theorem Carrying.desired_done {previous : PackageSnapshot} (h : Carrying first s future)
    (hdesired : s.globals.desired = some previous) (w : Work) :
    (first ≤ previous.generation →
      w.done (previous.generation ≤ s.globals.processedGeneration)
        (s.requests.allAccepted previous.generation previous.appInfoRequestIds) = true → w.ids previous = []) ∧
    (previous.generation < first →
      w.done (previous.generation ≤ s.globals.processedGeneration)
        (s.requests.allAccepted previous.generation previous.appInfoRequestIds) = true) := by
  constructor
  · intro hopen hdone
    cases w with
    | ownership =>
      have hle : previous.generation ≤ s.globals.processedGeneration := by simpa [Work.done] using hdone
      have hlt := UInt64.lt_of_le_of_lt (UInt64.le_trans hopen hle) h.unprocessed
      exact absurd hlt (UInt64.lt_irrefl _)
    | appInfo =>
      have hall := AppInfoRequestState.allAccepted_iff.mp hdone
      rw [h.unaccepted _ hopen] at hall
      exact List.subset_nil.mp hall
  · intro hlt
    have hdone := h.settled previous (by simp [line, hdesired]) hlt
    cases w with
    | ownership => simpa [Work.done] using hdone.processed
    | appInfo => exact AppInfoRequestState.allAccepted_iff.mpr hdone.requested

/-- Each step changes the line by one merge at most. -/
theorem Moves.merges (h : Moves s e t) (hc : Carrying first s (e.arrives ++ future)) :
    Merges first (s.line ++ e.arrives) t.line := by
  cases h with
  | pushes next nowUs queue hpush =>
    generalize hpending : pendingSnapshots s.queue = pending at hpush
    generalize hout : pendingSnapshots queue = out at hpush
    have harrives : (SiteEvent.push (.syncPackage0 next) nowUs).arrives = [next] := rfl
    rw [harrives] at hc ⊢
    have hone := hc.sound.one
    rw [hpending] at hone
    cases hpush with
    | alone =>
      simp only [line, hpending, hout, List.append_nil]
      exact .stays _
    | covered previous rest hold =>
      obtain rfl : rest = [] := by simpa using hone
      have hascends := hc.ascends
      simp only [line, hpending, List.append_assoc, List.cons_append, List.nil_append] at hascends
      rw [← List.append_assoc] at hascends
      exact absurd hascends.neighbours (UInt64.not_lt.mpr hold)
    | takesOver previous rest hnew =>
      obtain rfl : rest = [] := by simpa using hone
      have hopen := hc.pending_open (p := previous) (by simp [hpending])
      simp only [line, hpending, hout, List.append_assoc, List.cons_append, List.nil_append]
      rw [← List.append_assoc, ← List.append_assoc]
      refine .carries _ [] previous next false false (fun _ w hdone => ?_) (fun hlt => absurd hlt hopen)
      cases w <;> cases hdone
  | pushesOther cmd nowUs queue hcmd hqueue =>
    have harrives : (SiteEvent.push cmd nowUs).arrives = [] := by simp [SiteEvent.arrives, hcmd]
    rw [harrives, List.append_nil]
    simp only [line, hqueue]
    exact .stays _
  | claims extra hbatch =>
    have hqueue : (s.queue.map Entry.cmd).filterMap packageSnapshot? = pendingSnapshots s.queue :=
      List.filterMap_map ..
    simp only [line, hbatch, SiteEvent.arrives, List.filterMap_append, hqueue, pendingSnapshots, List.filterMap_nil,
      List.append_nil, List.append_assoc]
    exact .stays _
  | runsOther excluded grow cmd rest hbatch hcmd =>
    simp only [SiteEvent.arrives, List.append_nil, line, hbatch, List.filterMap_cons, hcmd]
    exact .stays _
  | synchronizes excluded grow snapshot rest hbatch =>
    have hsnapshot : packageSnapshot? (.syncPackage0 snapshot) = some snapshot := rfl
    simp only [SiteEvent.arrives, List.append_nil]
    cases hdesired : s.globals.desired with
    | none =>
      obtain ⟨hadopted, -⟩ := Globals.synchronizePackage0_desired excluded grow (adopts_first snapshot hdesired)
      simp only [line, hadopted, hdesired, hbatch, List.filterMap_cons, hsnapshot]
      exact .stays _
    | some previous =>
      have hnewer : previous.generation < snapshot.generation := by
        have hascends := hc.ascends
        simp only [line, hdesired, hbatch, List.filterMap_cons, hsnapshot] at hascends
        exact (List.pairwise_cons.mp hascends).1 snapshot (by simp)
      obtain ⟨hadopted, -⟩ := Globals.synchronizePackage0_desired excluded grow (adopts_newer hdesired hnewer)
      simp only [line, hadopted, hdesired, hbatch, List.filterMap_cons, hsnapshot]
      exact .carries [] _ previous snapshot _ _ (fun hopen w => (hc.desired_done hdesired w).1 hopen)
        (fun hlt w => (hc.desired_done hdesired w).2 hlt)
  | package e hdesired =>
    simp only [SiteEvent.arrives, List.append_nil, line, hdesired]
    exact .stays _
  | reserves =>
    simp only [SiteEvent.arrives, List.append_nil]
    exact .stays _
  | finishes =>
    simp only [SiteEvent.arrives, List.append_nil]
    exact .stays _

/-- What is done with heads the line. -/
theorem Carrying.least {x y : PackageSnapshot} (h : Carrying first s future) (hx : s.Done x)
    (hy : y ∈ s.line ++ future) : x.generation ≤ y.generation := by
  have hascends := h.ascends
  have hline : s.line ++ future =
      x :: (s.batch.filterMap packageSnapshot? ++ pendingSnapshots s.queue ++ future) := by
    simp [line, hx.desired]
  rw [hline] at hascends hy
  rcases List.mem_cons.mp hy with rfl | hy
  · exact UInt64.le_refl _
  · exact UInt64.le_of_lt ((List.pairwise_cons.mp hascends).1 y hy)

/-- A merge makes no snapshot that is older than the chain. -/
theorem Carrying.older_stays {merged : List PackageSnapshot} {x : PackageSnapshot} (h : Carrying first s future)
    (hmerges : Merges first (s.line ++ future) merged) (hx : x ∈ merged) (hlt : x.generation < first) :
    x ∈ s.line := by
  have hof : ∀ y ∈ s.line ++ future, y.generation < first → y ∈ s.line := by
    intro y hy hlt
    rcases List.mem_append.mp hy with hy | hy
    · exact hy
    · exact absurd hlt (UInt64.not_lt.mpr (h.arriving y hy))
  generalize hline : s.line ++ future = line at hmerges
  cases hmerges with
  | stays => exact hof x (hline ▸ hx) hlt
  | carries front back previous next =>
    simp only [List.mem_append, List.mem_cons] at hx
    rcases hx with hx | rfl | hx
    · exact hof x (by simp [hline, hx]) hlt
    · have hnext := hof next (by simp [hline]) hlt
      have hle := h.least (y := previous) (h.settled next hnext hlt) (by simp [hline])
      have hascends := h.ascends
      rw [hline] at hascends
      exact absurd hascends.neighbours (UInt64.not_lt.mpr hle)
    · exact hof x (by simp [hline, hx]) hlt

private theorem uint64_le_max (a b : UInt64) : a ≤ max a b := by
  rw [UInt64.le_iff_toNat_le, toNat_max]
  exact le_max_left _ _

private theorem uint64_max_lt {a b c : UInt64} (ha : a < c) (hb : b < c) : max a b < c := by
  rw [UInt64.lt_iff_toNat_lt, toNat_max]
  exact max_lt ha hb

/-- Steps that process nothing of the chain leave its generations open. -/
theorem Moves.unprocessed (h : Moves s e t) (hc : Carrying first s (e.arrives ++ future))
    (hidle : e.processes first = false) : t.globals.processedGeneration < first := by
  have hopen := hc.unprocessed
  cases h with
  | synchronizes excluded grow snapshot rest hbatch =>
    cases hadopt : s.globals.adopt snapshot s.requested with
    | none =>
      rw [Globals.synchronizePackage0_refused excluded grow hadopt]
      exact hopen
    | some desired =>
      rw [(Globals.synchronizePackage0_desired excluded grow hadopt).2]
      exact hopen
  | package e hdesired hprocessed =>
    rcases hprocessed with hsame | ⟨generation, rfl, hmax⟩
    · rw [hsame]
      exact hopen
    · rw [hmax]
      exact uint64_max_lt hopen (UInt64.not_le.mp (by simpa [SiteEvent.processes] using hidle))
  | _ => exact hopen

private theorem Moves.unaccepted (h : Moves s e t) (hc : Carrying first s (e.arrives ++ future))
    (hidle : e.processes first = false) (g : UInt64) (hg : first ≤ g) : t.requests.accepted g = [] := by
  have hopen := hc.unaccepted g hg
  cases h with
  | reserves generation appIds desired =>
    rw [AppInfoRequestState.reserve_accepted, hopen]
    split <;> rfl
  | finishes generation appIds accepted =>
    apply AppInfoRequestState.finish_accepted_other hopen
    cases accepted with
    | false => exact .inl rfl
    | true =>
      right
      rintro rfl
      simp [SiteEvent.processes, hg] at hidle
  | _ => exact hopen

/-- The requests of the desired generation are the newest. -/
theorem Done.newest {x : PackageSnapshot} (hx : s.Done x) (hs : s.Sound) :
    s.requests.highestGeneration ≤ x.generation := by
  rcases hs.asked with hzero | ⟨d, hd, hle⟩
  · rw [hzero]
    exact UInt64.zero_le
  · obtain rfl := Option.some.inj (hd.symm.trans hx.desired)
    exact hle

/-- What was done with stays so until a snapshot of the chain replaces it. -/
theorem Moves.done (h : Moves s e t) (hc : Carrying first s (e.arrives ++ future)) {x : PackageSnapshot}
    (hx : s.Done x) (hmem : x ∈ t.line) (hascends : Ascends t.line) : t.Done x := by
  cases h with
  | synchronizes excluded grow snapshot rest hbatch =>
    have hnewer : x.generation < snapshot.generation := by
      have hascends := hc.ascends
      simp only [line, hx.desired, hbatch, List.filterMap_cons, packageSnapshot?] at hascends
      exact (List.pairwise_cons.mp hascends).1 snapshot (by simp)
    obtain ⟨hadopted, -⟩ := Globals.synchronizePackage0_desired excluded grow (adopts_newer hx.desired hnewer)
    simp only [line, hadopted] at hmem hascends
    rcases List.mem_cons.mp hmem with hsame | hmem
    · have hgeneration := congrArg PackageSnapshot.generation hsame
      rw [carry_generation] at hgeneration
      exact absurd hgeneration (UInt64.ne_of_lt hnewer)
    · exact absurd ((List.pairwise_cons.mp hascends).1 x hmem) (UInt64.lt_asymm hnewer)
  | package e hdesired hprocessed =>
    refine ⟨hdesired.trans hx.desired, ?_, hx.requested⟩
    rcases hprocessed with hsame | ⟨generation, -, hmax⟩
    · rw [hsame]
      exact hx.processed
    · rw [hmax]
      exact UInt64.le_trans hx.processed (uint64_le_max ..)
  | reserves generation appIds desired hdesired hle =>
    obtain rfl := Option.some.inj (hdesired.symm.trans hx.desired)
    refine ⟨hx.desired, hx.processed, ?_⟩
    rw [AppInfoRequestState.reserve_accepted, if_neg]
    · exact hx.requested
    · rintro ⟨hlt, -⟩
      exact absurd hlt (UInt64.not_lt.mpr (uint64_max_le (hx.newest hc.sound) hle))
  | finishes generation appIds accepted =>
    refine ⟨hx.desired, hx.processed, ?_⟩
    exact List.Subset.trans hx.requested
      (AppInfoRequestState.finish_accepted_newest (hx.newest hc.sound))
  | _ => exact ⟨hx.desired, hx.processed, hx.requested⟩

theorem Moves.carrying (h : Moves s e t) (hc : Carrying first s (e.arrives ++ future))
    (hidle : e.processes first = false) : Carrying first t future := by
  have hmerges := (h.merges hc).append future
  rw [List.append_assoc] at hmerges
  have hascends := hmerges.ascends hc.ascends
  refine ⟨h.sound hc.sound, hascends, ?_, h.unprocessed hc hidle, h.unaccepted hc hidle, ?_⟩
  · intro x hx
    exact hc.arriving x (List.mem_append_right _ hx)
  · intro x hx hlt
    have hold := hc.older_stays hmerges (List.mem_append_left _ hx) hlt
    exact h.done hc (hc.settled x hold hlt) hx (List.pairwise_append.mp hascends).1

end

/-- The snapshots that a schedule brings in, in order. -/
def arrivals (events : List SiteEvent) : List PackageSnapshot := events.flatMap SiteEvent.arrives

/-- A whole run without processing merges neighbours one pair after another. -/
theorem run_merges {first : UInt64} {s t : Sites} {events : List SiteEvent}
    (hc : Carrying first s (arrivals events)) (hidle : ∀ e ∈ events, e.processes first = false)
    (h : exec step s events = some t) :
    Relation.ReflTransGen (Merges first) (s.line ++ arrivals events) t.line := by
  induction events generalizing s with
  | nil =>
    obtain rfl := Option.some.inj h
    simpa [arrivals] using Relation.ReflTransGen.refl
  | cons e events ih =>
    obtain ⟨u, hu, ht⟩ := Option.bind_eq_some_iff.mp h
    have hmoves := step_moves hu
    have hfirst := (hmoves.merges hc).append (arrivals events)
    rw [List.append_assoc] at hfirst
    have hnext := hmoves.carrying hc (hidle e (by simp))
    exact .head hfirst (ih hnext (fun e' he' => hidle e' (by simp [he'])) ht)

/-- Nothing is pending, and the desired state, if there is one, is processed and all its
requests were accepted. -/
structure Settled (first : UInt64) (s : Sites) : Prop where
  idle : s.line = s.globals.desired.toList
  unprocessed : s.globals.processedGeneration < first
  unaccepted : ∀ g, first ≤ g → s.requests.accepted g = []
  done : ∀ d, s.globals.desired = some d → d.generation < first ∧
    d.generation ≤ s.globals.processedGeneration ∧
      s.requests.allAccepted d.generation d.appInfoRequestIds = true

theorem Settled.carrying {first : UInt64} {s : Sites} {chain : List PackageSnapshot} (h : s.Settled first)
    (hsound : s.Sound) (hchain : Ascends chain) (hfirst : ∀ x ∈ chain, first ≤ x.generation) :
    s.Carrying first chain := by
  refine ⟨hsound, ?_, hfirst, h.unprocessed, h.unaccepted, ?_⟩
  · rw [h.idle]
    cases hdesired : s.globals.desired with
    | none => exact hchain
    | some d =>
      apply List.pairwise_cons.mpr
      exact ⟨fun x hx => UInt64.lt_of_lt_of_le (h.done d hdesired).1 (hfirst x hx), hchain⟩
  · intro x hx _
    rw [h.idle] at hx
    have hdesired : s.globals.desired = some x := by simpa using hx
    obtain ⟨-, hprocessed, hrequested⟩ := h.done x hdesired
    exact ⟨hdesired, hprocessed, AppInfoRequestState.allAccepted_iff.mp hrequested⟩

end Sites

end SlsteamMoon.PackagePatch
