import SlsteamMoon.Runs
import Mathlib.Data.Finset.Card
import Mathlib.Logic.Function.Basic

/-! Readers of the managed-membership store against publications: a reader counts
itself in before it loads the snapshot pointer, and the publisher drops the retired
snapshots when it sees nobody counted in. -/
namespace SlsteamMoon.HotReloadStore.Reclaim

open Runs

/-- Snapshots by allocation; zero is the empty snapshot inside the store. -/
abbrev SnapshotId := Nat

abbrev ReaderId := Nat

/-- How far a read handle has come: counted in, with its snapshot, and inside
noteResolved with the snapshot it loaded there. -/
inductive Reader
  | idle
  | entered
  | holding (snapshot : SnapshotId)
  | noting (snapshot current : SnapshotId)
  deriving DecidableEq, Repr

/-- How far the publication under the mutex has come. -/
inductive Publisher
  | idle
  | locked
  | retired (next : SnapshotId)
  | owned (next : SnapshotId)
  | stored
  | observed (readers : UInt32)
  deriving DecidableEq, Repr

/-- The readers counted in and the snapshots dropped are history. -/
structure Store where
  activeReaders : UInt32 := 0
  currentRaw : SnapshotId := 0
  currentOwner : Option SnapshotId := none
  retired : List SnapshotId := []
  allocated : Nat := 1
  publisher : Publisher := .idle
  readers : ReaderId → Reader := fun _ => .idle
  inside : Finset ReaderId := ∅
  reclaimed : List SnapshotId := []

inductive Event
  | enter (t : ReaderId)
  | load (t : ReaderId)
  | contains (t : ReaderId)
  | loadCurrent (t : ReaderId)
  | findCurrent (t : ReaderId)
  | release (t : ReaderId)
  | lock
  | unchanged
  | retire
  | own
  | store
  | observe
  | reclaim
  deriving DecidableEq, Repr

def Store.setReader (s : Store) (t : ReaderId) (reader : Reader) : Store :=
  { s with readers := Function.update s.readers t reader }

/-- One shared access. -/
def step (s : Store) : Event → Option Store
  | .enter t =>
    match s.readers t with
    | .idle => some ({ s with activeReaders := s.activeReaders + 1, inside := insert t s.inside }.setReader t .entered)
    | _ => none
  | .load t =>
    match s.readers t with
    | .entered => some (s.setReader t (.holding s.currentRaw))
    | _ => none
  | .contains t =>
    match s.readers t with
    | .holding _ => some s
    | _ => none
  | .loadCurrent t =>
    match s.readers t with
    | .holding snapshot => some (s.setReader t (.noting snapshot s.currentRaw))
    | _ => none
  | .findCurrent t =>
    match s.readers t with
    | .noting snapshot _ => some (s.setReader t (.holding snapshot))
    | _ => none
  | .release t =>
    match s.readers t with
    | .holding _ => some ({ s with activeReaders := s.activeReaders - 1, inside := s.inside.erase t }.setReader t .idle)
    | _ => none
  | .lock => if s.publisher = .idle then some { s with publisher := .locked } else none
  | .unchanged => if s.publisher = .locked then some { s with publisher := .idle } else none
  | .retire =>
    if s.publisher = .locked then
      some { s with retired := s.retired ++ s.currentOwner.toList, allocated := s.allocated + 1
                    publisher := .retired s.allocated }
    else none
  | .own =>
    match s.publisher with
    | .retired next => some { s with currentOwner := some next, publisher := .owned next }
    | _ => none
  | .store =>
    match s.publisher with
    | .owned next => some { s with currentRaw := next, publisher := .stored }
    | _ => none
  | .observe => if s.publisher = .stored then some { s with publisher := .observed s.activeReaders } else none
  | .reclaim =>
    match s.publisher with
    | .observed readers =>
      if readers = 0 then
        some { s with reclaimed := s.reclaimed ++ s.retired, retired := [], publisher := .idle }
      else some { s with publisher := .idle }
    | _ => none

/-- The snapshots a reader has a pointer to. -/
def Reader.snapshots : Reader → List SnapshotId
  | .idle | .entered => []
  | .holding snapshot => [snapshot]
  | .noting snapshot current => [snapshot, current]

/-- The snapshots an access reads through. -/
def used (s : Store) : Event → List SnapshotId
  | .contains t | .findCurrent t => (s.readers t).snapshots
  | .unchanged | .retire => [s.currentRaw]
  | _ => []

/-- No access reads through a dropped snapshot. -/
def Safe (s : Store) (e : Event) : Prop := ∀ snapshot ∈ used s e, snapshot ∉ s.reclaimed

/-- A reader that counts itself in is counted: the counter has room for it. -/
def Counted (s : Store) : Event → Prop
  | .enter _ => s.inside.card + 1 < 4294967296
  | _ => True

instance (s : Store) (e : Event) : Decidable (Counted s e) := by
  unfold Counted
  split <;> infer_instance

/-! What every access keeps. -/

/-- The store still refers to the snapshot. -/
def Store.Kept (s : Store) (snapshot : SnapshotId) : Prop :=
  snapshot = 0 ∨ snapshot ∈ s.retired ∨ s.currentOwner = some snapshot

/-- What is known between the accesses of a publication. A publisher that saw no
reader knows that whoever came in since has the snapshot it published. -/
def Store.Progress (s : Store) : Publisher → Prop
  | .idle | .locked => ∀ owner, s.currentOwner = some owner → owner ∉ s.retired
  | .retired next => (∀ owner, s.currentOwner = some owner → owner ∈ s.retired) ∧
      0 < next ∧ next < s.allocated ∧ next ∉ s.retired ∧ next ∉ s.reclaimed
  | .owned next => s.currentOwner = some next ∧ next ∉ s.retired
  | .stored => s.currentOwner = some s.currentRaw ∧ s.currentRaw ∉ s.retired
  | .observed readers => s.currentOwner = some s.currentRaw ∧ s.currentRaw ∉ s.retired ∧
      (readers = 0 → ∀ t, ∀ snapshot ∈ (s.readers t).snapshots, snapshot = s.currentRaw)

structure Store.Sound (s : Store) : Prop where
  counted : s.activeReaders = UInt32.ofNat s.inside.card
  small : s.inside.card < 4294967296
  inside : ∀ t, t ∈ s.inside ↔ s.readers t ≠ .idle
  positive : ∀ snapshot, snapshot ∈ s.retired ∨ s.currentOwner = some snapshot → 0 < snapshot
  known : ∀ snapshot, s.Kept snapshot ∨ snapshot ∈ s.reclaimed → snapshot < s.allocated
  dropped : ∀ snapshot ∈ s.reclaimed, ¬s.Kept snapshot
  held : ∀ t, ∀ snapshot ∈ (s.readers t).snapshots, s.Kept snapshot
  current : s.Kept s.currentRaw
  progress : s.Progress s.publisher

theorem sound_init : Store.Sound {} where
  counted := rfl
  small := by decide
  inside t := by simp
  positive snapshot h := by simp at h
  known snapshot h := by simp_all [Store.Kept]
  dropped snapshot h := absurd h List.not_mem_nil
  held t snapshot h := absurd h List.not_mem_nil
  current := .inl rfl
  progress owner h := absurd h (Option.some_ne_none owner).symm

private theorem setReader_snapshots {s : Store} {t : ReaderId} {reader : Reader} {P : SnapshotId → Prop}
    (hnew : ∀ snapshot ∈ reader.snapshots, P snapshot) (hold : ∀ t, ∀ snapshot ∈ (s.readers t).snapshots, P snapshot) :
    ∀ t', ∀ snapshot ∈ ((s.setReader t reader).readers t').snapshots, P snapshot := by
  intro t' snapshot hin
  by_cases ht : t' = t
  · subst ht
    exact hnew snapshot (by simpa [Store.setReader] using hin)
  · exact hold t' snapshot (by simpa [Store.setReader, ht] using hin)

/-- A reader gets its snapshots from the current pointer or has them already. -/
theorem Store.Sound.setReader {s : Store} (h : s.Sound) {t : ReaderId} {reader : Reader} {activeReaders : UInt32}
    {inside : Finset ReaderId} (hcounted : activeReaders = UInt32.ofNat inside.card)
    (hsmall : inside.card < 4294967296)
    (hinside : ∀ t', t' ∈ inside ↔ (s.setReader t reader).readers t' ≠ .idle)
    (hsnapshots : ∀ snapshot ∈ reader.snapshots, snapshot = s.currentRaw ∨ snapshot ∈ (s.readers t).snapshots) :
    ({ s with activeReaders, inside }.setReader t reader).Sound where
  counted := hcounted
  small := hsmall
  inside := hinside
  positive := h.positive
  known := h.known
  dropped := h.dropped
  current := h.current
  held := setReader_snapshots (fun snapshot hin => by
    rcases hsnapshots snapshot hin with rfl | hold
    · exact h.current
    · exact h.held t snapshot hold) h.held
  progress := by
    have hprogress := h.progress
    change Store.Progress _ s.publisher
    cases hpublisher : s.publisher with
    | observed readers =>
      rw [hpublisher] at hprogress
      refine ⟨hprogress.1, hprogress.2.1, fun hzero => ?_⟩
      have hall := hprogress.2.2 hzero
      exact setReader_snapshots (fun snapshot hin => (hsnapshots snapshot hin).elim id (hall t snapshot)) hall
    | idle | locked | retired next | owned next | stored =>
      rw [hpublisher] at hprogress
      exact hprogress

/-- A reader that stays counted in moves on. -/
theorem Store.Sound.moves {s : Store} (h : s.Sound) {t : ReaderId} {reader : Reader} (hin : s.readers t ≠ .idle)
    (hreader : reader ≠ .idle)
    (hsnapshots : ∀ snapshot ∈ reader.snapshots, snapshot = s.currentRaw ∨ snapshot ∈ (s.readers t).snapshots) :
    (s.setReader t reader).Sound := by
  refine h.setReader h.counted h.small (fun t' => ?_) hsnapshots
  by_cases ht : t' = t
  · subst ht
    simp [Store.setReader, hreader, h.inside, hin]
  · simp [Store.setReader, ht, h.inside]

theorem Store.Sound.enter {s : Store} (h : s.Sound) {t : ReaderId} (hidle : s.readers t = .idle)
    (hroom : s.inside.card + 1 < 4294967296) :
    ({ s with activeReaders := s.activeReaders + 1, inside := insert t s.inside }.setReader t .entered).Sound := by
  have hout : t ∉ s.inside := fun hin => (h.inside t).mp hin hidle
  have hcard : (insert t s.inside).card = s.inside.card + 1 := Finset.card_insert_of_notMem hout
  refine h.setReader ?_ (hcard ▸ hroom) (fun t' => ?_) (fun snapshot hin => absurd hin List.not_mem_nil)
  · rw [h.counted, hcard, UInt32.ofNat_add]
    rfl
  · by_cases ht : t' = t
    · subst ht
      simp [Store.setReader]
    · simp [Store.setReader, ht, h.inside]

theorem Store.Sound.release {s : Store} (h : s.Sound) {t : ReaderId} (hin : s.readers t ≠ .idle) :
    ({ s with activeReaders := s.activeReaders - 1, inside := s.inside.erase t }.setReader t .idle).Sound := by
  have hmem : t ∈ s.inside := (h.inside t).mpr hin
  have hcard : (s.inside.erase t).card + 1 = s.inside.card := Finset.card_erase_add_one hmem
  have hsmall := h.small
  refine h.setReader ?_ (by omega) (fun t' => ?_) (fun snapshot hin => absurd hin List.not_mem_nil)
  · rw [h.counted, ← hcard, UInt32.ofNat_add]
    exact UInt32.add_sub_cancel _ _
  · by_cases ht : t' = t
    · subst ht
      simp [Store.setReader]
    · simp [Store.setReader, ht, h.inside]

/-- Nobody is counted in when the counter reads zero. -/
theorem Store.Sound.nobody {s : Store} (h : s.Sound) (hzero : s.activeReaders = 0) (t : ReaderId) :
    s.readers t = .idle := by
  have hnat := congrArg UInt32.toNat (h.counted.symm.trans hzero)
  rw [UInt32.toNat_ofNat_of_lt' h.small] at hnat
  have hempty : s.inside = ∅ := Finset.card_eq_zero.mp hnat
  by_contra hbusy
  have hin := (h.inside t).mpr hbusy
  rw [hempty] at hin
  exact absurd hin (Finset.notMem_empty t)

/-- The old snapshot goes to the retired ones before anything else changes. -/
theorem Store.Sound.retire {s : Store} (h : s.Sound) :
    Store.Sound { s with retired := s.retired ++ s.currentOwner.toList, allocated := s.allocated + 1
                         publisher := .retired s.allocated } := by
  have hkept (snapshot : SnapshotId) : Store.Kept { s with
      retired := s.retired ++ s.currentOwner.toList, allocated := s.allocated + 1
      publisher := .retired s.allocated } snapshot ↔ s.Kept snapshot := by
    simp only [Store.Kept, List.mem_append, Option.mem_toList]
    tauto
  have hunknown : ¬(s.Kept s.allocated ∨ s.allocated ∈ s.reclaimed) :=
    fun hin => Nat.lt_irrefl _ (h.known s.allocated hin)
  have hpositive : 0 < s.allocated := h.known 0 (.inl (.inl rfl))
  exact {
    counted := h.counted
    small := h.small
    inside := h.inside
    positive := fun snapshot hin => h.positive snapshot (by
      simp only [List.mem_append, Option.mem_toList] at hin
      tauto)
    known := fun snapshot hin => Nat.lt_succ_of_lt (h.known snapshot (hin.imp (hkept snapshot).mp id))
    dropped := fun snapshot hin hk => h.dropped snapshot hin ((hkept snapshot).mp hk)
    held := fun t snapshot hin => (hkept snapshot).mpr (h.held t snapshot hin)
    current := (hkept _).mpr h.current
    progress := by
      refine ⟨fun owner howner => ?_, hpositive, Nat.lt_succ_self _, fun hin => ?_, fun hin => hunknown (.inr hin)⟩
      · exact List.mem_append_right _ (Option.mem_toList.mpr howner)
      · rcases List.mem_append.mp hin with hin | hin
        · exact hunknown (.inl (.inr (.inl hin)))
        · exact hunknown (.inl (.inr (.inr (Option.mem_toList.mp hin)))) }

/-- The new owner takes over; the old one is retired already. -/
theorem Store.Sound.own {s : Store} (h : s.Sound) {next : SnapshotId} (hretired : s.publisher = .retired next) :
    Store.Sound { s with currentOwner := some next, publisher := .owned next } := by
  have hprogress := h.progress
  rw [hretired] at hprogress
  obtain ⟨hold, hpositive, hlt, hnew, hfresh⟩ := hprogress
  have hgrows (snapshot : SnapshotId) (hk : s.Kept snapshot) :
      Store.Kept { s with currentOwner := some next, publisher := .owned next } snapshot := by
    rcases hk with hzero | hin | howner
    · exact .inl hzero
    · exact .inr (.inl hin)
    · exact .inr (.inl (hold snapshot howner))
  exact {
    counted := h.counted
    small := h.small
    inside := h.inside
    positive := by
      rintro snapshot (hin | hnext)
      · exact h.positive snapshot (.inl hin)
      · exact Option.some.inj hnext ▸ hpositive
    known := by
      rintro snapshot ((hzero | hin | hnext) | hin)
      · exact h.known snapshot (.inl (.inl hzero))
      · exact h.known snapshot (.inl (.inr (.inl hin)))
      · exact Option.some.inj hnext ▸ hlt
      · exact h.known snapshot (.inr hin)
    dropped := by
      rintro snapshot hin (hzero | hin' | hnext)
      · exact h.dropped snapshot hin (.inl hzero)
      · exact h.dropped snapshot hin (.inr (.inl hin'))
      · exact hfresh (Option.some.inj hnext ▸ hin)
    held := fun t snapshot hin => hgrows snapshot (h.held t snapshot hin)
    current := hgrows _ h.current
    progress := ⟨rfl, hnew⟩ }

/-- Nobody has a retired snapshot when the publisher saw no reader. -/
theorem Store.Sound.reclaim {s : Store} (h : s.Sound) (hobserved : s.publisher = .observed 0) :
    Store.Sound { s with reclaimed := s.reclaimed ++ s.retired, retired := [], publisher := .idle } := by
  have hprogress := h.progress
  rw [hobserved] at hprogress
  obtain ⟨howner, hnot, hall⟩ := hprogress
  have hshrinks (snapshot : SnapshotId) (hk : Store.Kept { s with
      reclaimed := s.reclaimed ++ s.retired, retired := [], publisher := .idle } snapshot) :
      s.Kept snapshot ∧ snapshot ∉ s.retired := by
    rcases hk with rfl | hin | hcurrent
    · exact ⟨.inl rfl, fun hin => Nat.lt_irrefl _ (h.positive 0 (.inl hin))⟩
    · exact absurd hin List.not_mem_nil
    · obtain rfl := Option.some.inj (howner.symm.trans hcurrent)
      exact ⟨.inr (.inr hcurrent), hnot⟩
  exact {
    counted := h.counted
    small := h.small
    inside := h.inside
    positive := by
      rintro snapshot (hin | hcurrent)
      · exact absurd hin List.not_mem_nil
      · exact h.positive snapshot (.inr hcurrent)
    known := by
      rintro snapshot (hk | hin)
      · exact h.known snapshot (.inl (hshrinks snapshot hk).1)
      · rcases List.mem_append.mp hin with hin | hin
        · exact h.known snapshot (.inr hin)
        · exact h.known snapshot (.inl (.inr (.inl hin)))
    dropped := by
      intro snapshot hin hk
      rcases List.mem_append.mp hin with hin | hin
      · exact h.dropped snapshot hin (hshrinks snapshot hk).1
      · exact (hshrinks snapshot hk).2 hin
    held := fun t snapshot hin => by
      obtain rfl := hall rfl t snapshot hin
      exact .inr (.inr howner)
    current := .inr (.inr howner)
    progress := fun owner _ => List.not_mem_nil }

/-- Only what is known between its accesses changes with the publisher. -/
theorem Store.Sound.publishes {s : Store} (h : s.Sound) {publisher : Publisher} (hprogress : s.Progress publisher) :
    Store.Sound { s with publisher } :=
  ⟨h.counted, h.small, h.inside, h.positive, h.known, h.dropped, h.held, h.current, by
    cases publisher <;> exact hprogress⟩

/-- The pointer moves to the owner. -/
theorem Store.Sound.store {s : Store} (h : s.Sound) {next : SnapshotId} (howned : s.publisher = .owned next) :
    Store.Sound { s with currentRaw := next, publisher := .stored } := by
  have hprogress := h.progress
  rw [howned] at hprogress
  exact {
    counted := h.counted
    small := h.small
    inside := h.inside
    positive := h.positive
    known := h.known
    dropped := h.dropped
    held := h.held
    current := .inr (.inr hprogress.1)
    progress := hprogress }

theorem step_sound {s s' : Store} {e : Event} (h : s.Sound) (hcounted : Counted s e) (hstep : step s e = some s') :
    s'.Sound := by
  have hprogress := h.progress
  cases e with
  | enter t =>
    simp only [step] at hstep
    split at hstep
    · next hidle =>
      obtain rfl := Option.some.inj hstep
      exact h.enter hidle hcounted
    · cases hstep
  | load t =>
    simp only [step] at hstep
    split at hstep
    · next hentered =>
      obtain rfl := Option.some.inj hstep
      refine h.moves (by simp [hentered]) (by simp) fun snapshot hin => .inl ?_
      simpa [Reader.snapshots] using hin
    · cases hstep
  | contains t =>
    simp only [step] at hstep
    split at hstep
    · exact Option.some.inj hstep ▸ h
    · cases hstep
  | loadCurrent t =>
    simp only [step] at hstep
    split at hstep
    · next snapshot hholding =>
      obtain rfl := Option.some.inj hstep
      refine h.moves (by simp [hholding]) (by simp) fun other hin => ?_
      simpa [Reader.snapshots, hholding, or_comm] using hin
    · cases hstep
  | findCurrent t =>
    simp only [step] at hstep
    split at hstep
    · next snapshot current hnoting =>
      obtain rfl := Option.some.inj hstep
      refine h.moves (by simp [hnoting]) (by simp) fun other hin => .inr ?_
      obtain rfl := List.mem_singleton.mp hin
      simp [hnoting, Reader.snapshots]
    · cases hstep
  | release t =>
    simp only [step] at hstep
    split at hstep
    · next snapshot hholding =>
      obtain rfl := Option.some.inj hstep
      exact h.release (by simp [hholding])
    · cases hstep
  | lock =>
    simp only [step] at hstep
    split at hstep
    · next hidle =>
      obtain rfl := Option.some.inj hstep
      rw [hidle] at hprogress
      exact h.publishes hprogress
    · cases hstep
  | unchanged =>
    simp only [step] at hstep
    split at hstep
    · next hlocked =>
      obtain rfl := Option.some.inj hstep
      rw [hlocked] at hprogress
      exact h.publishes hprogress
    · cases hstep
  | retire =>
    simp only [step] at hstep
    split at hstep
    · obtain rfl := Option.some.inj hstep
      exact h.retire
    · cases hstep
  | own =>
    simp only [step] at hstep
    split at hstep
    · next next hretired =>
      obtain rfl := Option.some.inj hstep
      exact h.own hretired
    · cases hstep
  | store =>
    simp only [step] at hstep
    split at hstep
    · next next howned =>
      obtain rfl := Option.some.inj hstep
      exact h.store howned
    · cases hstep
  | observe =>
    simp only [step] at hstep
    split at hstep
    · next hstored =>
      obtain rfl := Option.some.inj hstep
      rw [hstored] at hprogress
      -- a reader that is not counted in has no snapshot
      refine h.publishes ⟨hprogress.1, hprogress.2, fun hzero t snapshot hin => ?_⟩
      rw [h.nobody hzero t] at hin
      exact absurd hin List.not_mem_nil
    · cases hstep
  | reclaim =>
    simp only [step] at hstep
    split at hstep
    · next readers hobserved =>
      split at hstep
      · next hzero =>
        obtain rfl := Option.some.inj hstep
        exact h.reclaim (hzero ▸ hobserved)
      · obtain rfl := Option.some.inj hstep
        rw [hobserved] at hprogress
        exact h.publishes fun owner howner =>
          Option.some.inj (hprogress.1.symm.trans howner) ▸ hprogress.2.1
    · cases hstep

theorem Store.Sound.safe {s : Store} (h : s.Sound) (e : Event) : Safe s e := by
  intro snapshot hin hdropped
  refine h.dropped snapshot hdropped ?_
  cases e with
  | contains t | findCurrent t => exact h.held t snapshot hin
  | unchanged | retire => exact List.mem_singleton.mp hin ▸ h.current
  | enter t | load t | loadCurrent t | release t | lock | own | store | observe | reclaim =>
    exact absurd hin List.not_mem_nil

/-- While the counter has room for every reader that comes in, no access of any
interleaving reads through a dropped snapshot. -/
theorem no_reader_uses_reclaimed_snapshot {events : List Event} (hcounted : Meets step Counted {} events) :
    Meets step Safe {} events :=
  hcounted.of_invariant (fun _ _ _ => step_sound) (fun _ e h _ => h.safe e) sound_init

/-- A publication: one that retires and drops its predecessor if nobody is seen. -/
def publication : List Event := [.lock, .retire, .own, .store, .observe, .reclaim]

/-- A snapshot replaced under a reader is dropped by a publication after it. -/
theorem reader_outlives_publication :
    (exec step {} (publication ++ [.enter 7, .load 7] ++ publication ++ [.loadCurrent 7, .findCurrent 7, .release 7] ++
        publication)).map Store.reclaimed = some [1, 2] ∧
      Meets step Safe {} (publication ++ [.enter 7, .load 7] ++ publication ++
        [.loadCurrent 7, .findCurrent 7, .release 7] ++ publication) :=
  ⟨by decide +kernel, no_reader_uses_reclaimed_snapshot (by decide +kernel)⟩

/-- A reader with the snapshot of one publication, and n more that come in before
the next. -/
def crowd (n : Nat) : List Event :=
  (publication ++ [.enter 0, .load 0]) ++ (List.range' 1 n).map .enter ++ publication

private theorem exec_enter_range (n : Nat) {s : Store} {first : Nat}
    (hidle : ∀ t : Nat, first ≤ t → s.readers t = .idle) :
    ∃ s', exec step s ((List.range' first n).map .enter) = some s' ∧
      s'.activeReaders = s.activeReaders + UInt32.ofNat n ∧ s'.currentOwner = s.currentOwner ∧
      s'.retired = s.retired ∧ s'.publisher = s.publisher ∧ s'.reclaimed = s.reclaimed ∧
      ∀ t : Nat, t < first → s'.readers t = s.readers t := by
  induction n generalizing s first with
  | zero => exact ⟨s, rfl, by simp, rfl, rfl, rfl, rfl, fun _ _ => rfl⟩
  | succ n ih =>
    let entered : Store :=
      { s with activeReaders := s.activeReaders + 1, inside := insert first s.inside }.setReader first .entered
    have henter : step s (.enter first) = some entered := by simp only [step, hidle first (Nat.le_refl _), entered]
    have hrest : ∀ t : Nat, first + 1 ≤ t → entered.readers t = .idle := by
      intro t ht
      have hne : t ≠ first := by omega
      simpa [entered, Store.setReader, hne] using hidle t (by omega)
    obtain ⟨s', hrun, hactive, howner, hretired, hpublisher, hreclaimed, hreaders⟩ := ih hrest
    refine ⟨s', ?_, ?_, howner, hretired, hpublisher, hreclaimed, fun t ht => ?_⟩
    · simpa [List.range'_succ, henter] using hrun
    · rw [hactive, Nat.add_comm n 1, UInt32.ofNat_add, ← UInt32.add_assoc]
      rfl
    · have hne : t ≠ first := by omega
      rw [hreaders t (by omega)]
      simp [entered, Store.setReader, hne]

/-- A publisher that reads zero drops the snapshot it replaced. -/
theorem exec_publication {s : Store} (hidle : s.publisher = .idle) (hactive : s.activeReaders = 0) :
    ∃ s', exec step s publication = some s' ∧
      s'.reclaimed = s.reclaimed ++ (s.retired ++ s.currentOwner.toList) ∧ s'.readers = s.readers := by
  simp [publication, step, hidle, hactive]

/-- The reader that fills the counter hides all of them. -/
theorem full_counter_hides_readers : ¬Meets step Safe {} (crowd 4294967295 ++ [.contains 0]) := by
  intro hsafe
  obtain ⟨s, hfirst, hactive, howner, hretired, hpublisher, hreclaimed, hholding, hidle⟩ :
      ∃ s, exec step {} (publication ++ [.enter 0, .load 0]) = some s ∧ s.activeReaders = 1 ∧
        s.currentOwner = some 1 ∧ s.retired = [] ∧ s.publisher = .idle ∧ s.reclaimed = [] ∧
        s.readers 0 = .holding 1 ∧ ∀ t : Nat, 1 ≤ t → s.readers t = .idle := by
    refine ⟨_, rfl, rfl, rfl, rfl, rfl, rfl, rfl, fun t ht => ?_⟩
    have hne : t ≠ 0 := by omega
    simp [Store.setReader, hne]
  obtain ⟨s₁, henters, hactive₁, howner₁, hretired₁, hpublisher₁, hreclaimed₁, hreaders₁⟩ :=
    exec_enter_range 4294967295 hidle
  have hzero : s₁.activeReaders = 0 := by
    rw [hactive₁, hactive]
    rfl
  obtain ⟨s₂, hpublication, hreclaimed₂, hreaders₂⟩ := exec_publication (hpublisher₁.trans hpublisher) hzero
  have hrun : exec step {} (crowd 4294967295) = some s₂ := by
    rw [crowd, exec_append, exec_append, hfirst, Option.bind_some, henters, Option.bind_some, hpublication]
  have hread := (meets_iff_splits step Safe {} _).mp hsafe (crowd 4294967295) (.contains 0) [] rfl s₂ hrun
  refine hread 1 ?_ ?_
  · simp [used, hreaders₂, hreaders₁ 0 (by decide), hholding, Reader.snapshots]
  · rw [hreclaimed₂, hreclaimed₁, hreclaimed, hretired₁, hretired, howner₁, howner]
    decide

end SlsteamMoon.HotReloadStore.Reclaim
