import SlsteamMoon.RawCache.Queue

/-! No item disappears on the way from a caller to a worker: it is in the map or at a
worker, or the log says what became of it. -/
namespace SlsteamMoon.RawCache
open NewestWins Runs

/-- The item is in the worker's batch or among the items it deferred. -/
def Worker.Holds (w : Worker) (x : Enqueued) : Prop :=
  match w.phase with
  | .processing batch _ deferred => x ∈ batch ∨ newest.Has deferred x
  | _ => False

/-- The worker will come to the top of its loop. -/
def Worker.Live (w : Worker) : Prop :=
  match w.phase with
  | .starting | .taking | .processing _ _ _ => True
  | .joining | .ended => False

/-- A batch has one item of an app, and none of an app that is deferred already. -/
def Worker.Sound (w : Worker) : Prop :=
  match w.phase with
  | .processing batch _ deferred =>
    (batch.map newest.key).Nodup ∧ ∀ x ∈ batch, deferred[newest.key x]? = none
  | _ => True

instance (w : Worker) (x : Enqueued) : Decidable (w.Holds x) :=
  match w with
  | ⟨.processing batch _ deferred, _⟩ => inferInstanceAs (Decidable (x ∈ batch ∨ newest.Has deferred x))
  | ⟨.starting, _⟩ | ⟨.taking, _⟩ | ⟨.joining, _⟩ | ⟨.ended, _⟩ => inferInstanceAs (Decidable False)

namespace Record

def subject : Record → Enqueued
  | .replaced loser _ => loser
  | .persisted x | .probedUsable x _ | .refreshInBackground x _ _ => x

def Proper : Record → Prop
  | .replaced loser winner => newest.Fair (loser, winner)
  | .persisted _ => True
  | .probedUsable _ readiness => readiness = .fresh ∨ readiness = .validStale
  | .refreshInBackground x path requests => path = x.item.appinfoVdfPath ∧ requests = [x.item.repairRequest]

end Record

private theorem processItem_record {x : Enqueued} {a : Answers} {r : Record} (h : processItem x a = some r) :
    r.subject = x ∧ r.Proper := by
  obtain heq | heq | ⟨readiness, hreadiness, heq⟩ | heq := processItem_cases x a <;> rw [heq] at h <;> cases h
  · exact ⟨rfl, trivial⟩
  · exact ⟨rfl, hreadiness⟩
  · exact ⟨rfl, rfl, rfl⟩

namespace Machine

def InBatch (m : Machine) (x : Enqueued) : Prop := ∃ w ∈ m.workers, w.Holds x

instance (m : Machine) (x : Enqueued) : Decidable (m.InBatch x) :=
  inferInstanceAs (Decidable (∃ w ∈ m.workers, w.Holds x))

/-- In the map, or with a record. -/
def Placed (m : Machine) (x : Enqueued) : Prop := newest.Has m.pending x ∨ ∃ r ∈ m.log, r.subject = x

structure Sound (m : Machine) : Prop where
  keyed : newest.Keyed m.pending
  proper : ∀ r ∈ m.log, r.Proper
  workers : ∀ w ∈ m.workers, w.Sound
  kept : ∀ x ∈ m.enqueued, m.Placed x ∨ m.InBatch x

/-- What the flag says of the workers and of the map. -/
structure Flagged (m : Machine) : Prop where
  live : m.active = true → ∃ w ∈ m.workers, w.Live
  stranded : m.active = false → m.pending.isEmpty = false →
    m.lastEnd = some .deferral ∨ m.lastEnd = some .startFailed

section
variable {m t : Machine} {w : Nat} {old new : Worker} {x : Enqueued} {xs : List Enqueued}

theorem InBatch.set (h : m.InBatch x) (hw : m.workers[w]? = some old) (new : Worker) :
    old.Holds x ∨ (m.set w new).InBatch x := by
  obtain ⟨holder, hholder, hholds⟩ := h
  obtain ⟨i, hi⟩ := List.mem_iff_getElem?.mp hholder
  by_cases heq : w = i
  · subst heq
    rw [hw] at hi
    cases hi
    exact .inl hholds
  · refine .inr ⟨holder, List.mem_iff_getElem?.mpr ⟨i, ?_⟩, hholds⟩
    simp only [Machine.set, List.getElem?_set_ne heq, hi]

theorem mem_set (hw : m.workers[w]? = some old) (new : Worker) : new ∈ (m.set w new).workers :=
  List.mem_set (List.getElem?_eq_some_iff.mp hw).1 new

private theorem placed_offer (h : m.Placed x ∨ x ∈ xs) : (m.offer xs).Placed x := by
  obtain (hhas | ⟨r, hr, hsubject⟩) | hx := h
  · exact (hhas.offerAll xs).imp_right fun ⟨winner, hlost⟩ =>
      ⟨.replaced x winner, List.mem_append_right _ (List.mem_map_of_mem hlost), rfl⟩
  · exact .inr ⟨r, List.mem_append_left _ hr, hsubject⟩
  · exact (Rule.has_offerAll m.pending hx).imp_right fun ⟨winner, hlost⟩ =>
      ⟨.replaced x winner, List.mem_append_right _ (List.mem_map_of_mem hlost), rfl⟩

theorem Sound.offer (h : m.Sound) (xs : List Enqueued) : (m.offer xs).Sound where
  keyed := Rule.offerAll_keyed h.keyed xs
  proper := by
    intro r hr
    obtain hr | hr := List.mem_append.mp hr
    · exact h.proper r hr
    · obtain ⟨loss, hloss, rfl⟩ := List.mem_map.mp hr
      exact Rule.offerAll_fair h.keyed xs loss hloss
  workers := h.workers
  kept x hx := (h.kept x hx).imp_left fun hplaced => placed_offer (.inl hplaced)

/-- A worker changes; what it held has to be somewhere. -/
theorem Sound.set (h : m.Sound) (hw : m.workers[w]? = some old) (hnew : new.Sound)
    (hheld : ∀ x, old.Holds x → m.Placed x ∨ new.Holds x) : (m.set w new).Sound where
  keyed := h.keyed
  proper := h.proper
  workers := by
    intro worker hworker
    obtain hworker | rfl := List.mem_or_eq_of_mem_set hworker
    · exact h.workers worker hworker
    · exact hnew
  kept := by
    intro x hx
    obtain hplaced | hbatch := h.kept x hx
    · exact .inl hplaced
    · obtain hold | hstill := hbatch.set hw new
      · exact (hheld x hold).imp_right fun hnew => ⟨new, mem_set hw new, hnew⟩
      · exact .inr hstill

theorem Sound.clear (h : m.Sound) (hw : m.workers[w]? = some old) (hheld : ∀ x, old.Holds x → m.Placed x)
    {phase : Phase} (hphase : Worker.Sound ⟨phase, false⟩) (why : End) : (m.clear w phase why).Sound :=
  have hcleared : { m with active := false, lastEnd := some why }.Sound := ⟨h.keyed, h.proper, h.workers, h.kept⟩
  hcleared.set hw hphase fun x hx => .inl (hheld x hx)

theorem Sound.leave (h : m.Sound) (hw : m.workers[w]? = some old) (hheld : ∀ x, old.Holds x → m.Placed x)
    (joined : Bool) (why : End) : (m.leave w joined why).Sound := by
  refine h.clear hw hheld ?_ why
  cases joined <;> trivial

/-- Arrivals are offered to the map; a worker may be started for them. -/
theorem Sound.enqueueRawCacheItems (h : m.Sound) (items : List RawCacheItem) :
    (m.enqueueRawCacheItems items).Sound := by
  have harrived : ({ m with enqueued := m.enqueued ++ m.ticketed items }.offer (m.ticketed items)).Sound := by
    have hoffer := h.offer (m.ticketed items)
    refine ⟨hoffer.keyed, hoffer.proper, hoffer.workers, fun x hx => ?_⟩
    obtain hx | hx := List.mem_append.mp hx
    · exact hoffer.kept x hx
    · exact .inl (placed_offer (.inr hx))
  simp only [Machine.enqueueRawCacheItems]
  split_ifs
  · exact ⟨h.keyed, h.proper, h.workers, h.kept⟩
  · exact ⟨harrived.keyed, harrived.proper, harrived.workers, harrived.kept⟩
  · refine ⟨harrived.keyed, harrived.proper, fun worker hworker => ?_, fun x hx => ?_⟩
    · obtain hworker | hworker := List.mem_append.mp hworker
      · exact harrived.workers worker hworker
      · cases List.mem_singleton.mp hworker
        trivial
    · exact (harrived.kept x hx).imp_right fun ⟨holder, hholder, hholds⟩ =>
        ⟨holder, List.mem_append_left _ hholder, hholds⟩

theorem Sound.startDetached (h : m.Sound) {joined : Bool} (hw : m.workers[w]? = some ⟨.starting, joined⟩)
    (outcome : Start) : (m.startDetached w outcome).Sound := by
  have hbegun : ∀ joined', (m.set w ⟨.taking, joined'⟩).Sound := fun joined' =>
    h.set hw trivial fun x hx => hx.elim
  cases outcome with
  | threw =>
    have hcleared := h.clear hw (fun _ hx => hx.elim) (show Worker.Sound ⟨.ended, false⟩ from trivial) .startFailed
    exact ⟨hcleared.keyed, hcleared.proper, hcleared.workers, hcleared.kept⟩
  | detached => exact ⟨(hbegun false).keyed, (hbegun false).proper, (hbegun false).workers, (hbegun false).kept⟩
  | joined => exact hbegun true
  | abandoned => exact ⟨(hbegun false).keyed, (hbegun false).proper, (hbegun false).workers, (hbegun false).kept⟩

/-- The batch is the whole map, and its apps are the keys of the map. -/
theorem Sound.take (h : m.Sound) {joined : Bool} (hw : m.workers[w]? = some ⟨.taking, joined⟩) :
    (m.take w joined).Sound := by
  rw [Machine.take]
  split_ifs with hempty
  · exact h.leave hw (fun _ hx => hx.elim) joined .drained
  · have hkeys : (m.pending.toList.map Prod.snd).map newest.key = m.pending.toList.map Prod.fst := by
      rw [List.map_map]
      refine List.map_congr_left fun entry hentry => ?_
      exact h.keyed _ _ (Std.TreeMap.mem_toList_iff_getElem?_eq_some.mp hentry)
    have hnodup : (m.pending.toList.map Prod.fst).Nodup := by
      rw [Std.TreeMap.map_fst_toList_eq_keys]
      exact Std.TreeMap.nodup_keys
    refine ⟨Rule.keyed_empty, h.proper, fun worker hworker => ?_, fun x hx => ?_⟩
    · obtain hworker | rfl := List.mem_or_eq_of_mem_set hworker
      · exact h.workers worker hworker
      · exact ⟨hkeys ▸ hnodup, fun x _ => Std.TreeMap.getElem?_emptyc⟩
    · obtain (hhas | hrecord) | hbatch := h.kept x hx
      · refine .inr ⟨_, mem_set hw _, .inl (List.mem_map.mpr ⟨(newest.key x, x), ?_, rfl⟩)⟩
        exact Std.TreeMap.mem_toList_iff_getElem?_eq_some.mpr hhas
      · exact .inl (.inr hrecord)
      · obtain hold | hstill := hbatch.set hw
          ⟨.processing (m.pending.toList.map Prod.snd) false ∅, joined⟩
        · exact hold.elim
        · exact .inr hstill

/-- The first item of the batch gets a record or goes to the deferred ones, where no
item of its app is. -/
theorem Sound.process (h : m.Sound) {joined publishedAny : Bool} {batch : List Enqueued} {deferred : ItemMap}
    (hw : m.workers[w]? = some ⟨.processing (x :: batch) publishedAny deferred, joined⟩) (a : Answers) :
    (m.process w joined x batch publishedAny deferred a).Sound := by
  obtain ⟨hnodup, hfresh⟩ : Worker.Sound ⟨.processing (x :: batch) publishedAny deferred, joined⟩ :=
    h.workers _ (List.mem_of_getElem? hw)
  obtain ⟨hnotin, hnodup⟩ := List.nodup_cons.mp hnodup
  rw [Machine.process]
  cases hrecord : processItem x a with
  | some record =>
    obtain ⟨hsubject, hproper⟩ := processItem_record hrecord
    have hlogged : { m with log := m.log ++ [record] }.Sound := by
      refine ⟨h.keyed, fun r hr => ?_, h.workers, fun y hy => ?_⟩
      · obtain hr | hr := List.mem_append.mp hr
        · exact h.proper r hr
        · exact List.mem_singleton.mp hr ▸ hproper
      · exact (h.kept y hy).imp_left fun hplaced => hplaced.imp_right fun ⟨r, hr, heq⟩ =>
          ⟨r, List.mem_append_left _ hr, heq⟩
    refine hlogged.set hw ⟨hnodup, fun y hy => hfresh y (List.mem_cons_of_mem _ hy)⟩ fun y hy => ?_
    obtain hy | hdeferred := hy
    · obtain rfl | hy := List.mem_cons.mp hy
      · exact .inl (.inr ⟨record, List.mem_append_right _ (List.mem_singleton_self _), hsubject⟩)
      · exact .inr (.inl hy)
    · exact .inr (.inr hdeferred)
  | none =>
    refine h.set hw ⟨hnodup, fun y hy => ?_⟩ fun y hy => ?_
    · have hne : newest.key x ≠ newest.key y := fun heq => hnotin (heq ▸ List.mem_map_of_mem hy)
      change (deferred.insert (newest.key x) x)[newest.key y]? = none
      rw [Std.TreeMap.getElem?_insert, if_neg (by simpa using hne)]
      exact hfresh y (List.mem_cons_of_mem _ hy)
    · obtain hy | hdeferred := hy
      · obtain rfl | hy := List.mem_cons.mp hy
        · exact .inr (.inr Rule.has_insert)
        · exact .inr (.inl hy)
      · have hne : newest.key x ≠ newest.key y := by
          intro heq
          have habsent := hfresh x List.mem_cons_self
          rw [heq, hdeferred] at habsent
          cases habsent
        exact .inr (.inr (hdeferred.insert hne))

theorem Sound.finish (h : m.Sound) {joined publishedAny : Bool} {deferred : ItemMap}
    (hw : m.workers[w]? = some ⟨.processing [] publishedAny deferred, joined⟩) :
    (m.finish w joined publishedAny deferred).Sound := by
  have hrefreshed : ∀ n, { m with refreshes := n }.Sound := fun _ => ⟨h.keyed, h.proper, h.workers, h.kept⟩
  have hback : ∀ x, Worker.Holds ⟨.processing [] publishedAny deferred, joined⟩ x →
      ({ m with refreshes := m.refreshes + publishedAny.toNat }.offer (deferred.toList.map Prod.snd)).Placed x := by
    intro x hx
    obtain hx | hdeferred := hx
    · cases hx
    · refine placed_offer (.inr (List.mem_map.mpr ⟨(newest.key x, x), ?_, rfl⟩))
      exact Std.TreeMap.mem_toList_iff_getElem?_eq_some.mpr hdeferred
  simp only [Machine.finish]
  split_ifs with hempty
  · refine (hrefreshed _).set hw trivial fun x hx => ?_
    obtain hx | hdeferred := hx
    · cases hx
    · rw [Rule.Has, Std.TreeMap.getElem?_of_isEmpty hempty] at hdeferred
      cases hdeferred
  · exact ((hrefreshed _).offer _).set hw trivial fun x hx => .inl (hback x hx)
  · exact ((hrefreshed _).offer _).leave hw hback joined .deferral

theorem Sound.joinReturns (h : m.Sound) {joined : Bool} (hw : m.workers[w]? = some ⟨.joining, joined⟩)
    (answers : List Bool) : { m.clear w .ended .startFailed with answers }.Sound :=
  have hcleared := h.clear hw (fun _ hx => hx.elim) (show Worker.Sound ⟨.ended, false⟩ from trivial) .startFailed
  ⟨hcleared.keyed, hcleared.proper, hcleared.workers, hcleared.kept⟩

/-- What a step needs of the worker that takes it. -/
inductive Moves (m : Machine) : Machine → Prop
  | enqueue (items) : Moves m (m.enqueueRawCacheItems items)
  | start {w joined} (hw : m.workers[w]? = some ⟨.starting, joined⟩) (outcome) : Moves m (m.startDetached w outcome)
  | take {w joined} (hw : m.workers[w]? = some ⟨.taking, joined⟩) : Moves m (m.take w joined)
  | process {w x batch publishedAny deferred joined}
      (hw : m.workers[w]? = some ⟨.processing (x :: batch) publishedAny deferred, joined⟩) (a) :
      Moves m (m.process w joined x batch publishedAny deferred a)
  | finish {w publishedAny deferred joined}
      (hw : m.workers[w]? = some ⟨.processing [] publishedAny deferred, joined⟩) :
      Moves m (m.finish w joined publishedAny deferred)
  | joinReturns {w joined} (hw : m.workers[w]? = some ⟨.joining, joined⟩) (answers) :
      Moves m { m.clear w .ended .startFailed with answers }

theorem step_moves {e : Event} (h : m.step e = some t) : m.Moves t := by
  cases e with
  | enqueue items =>
    cases h
    exact .enqueue items
  | start w outcome =>
    simp only [step] at h
    split at h <;> cases h
    exact .start (by assumption) outcome
  | take w =>
    simp only [step] at h
    split at h <;> cases h
    exact .take (by assumption)
  | process w a =>
    simp only [step] at h
    split at h <;> cases h
    exact .process (by assumption) a
  | finish w =>
    simp only [step] at h
    split at h <;> cases h
    exact .finish (by assumption)
  | joinReturns w =>
    simp only [step] at h
    split at h <;> cases h
    exact .joinReturns (by assumption) _

theorem Moves.sound (hmove : m.Moves t) (h : m.Sound) : t.Sound := by
  cases hmove with
  | enqueue items => exact h.enqueueRawCacheItems items
  | start hw outcome => exact h.startDetached hw outcome
  | take hw => exact h.take hw
  | process hw a => exact h.process hw a
  | finish hw => exact h.finish hw
  | joinReturns hw answers => exact h.joinReturns hw answers

private theorem flagged_of_cleared (hactive : t.active = false)
    (hwhy : t.pending.isEmpty = false → t.lastEnd = some .deferral ∨ t.lastEnd = some .startFailed) : t.Flagged where
  live hset := Bool.noConfusion (hactive.symm.trans hset)
  stranded _ := hwhy

/-- A live worker goes on, and the map is as it was or empty. -/
theorem Flagged.set (h : m.Flagged) (hw : m.workers[w]? = some old)
    (hworkers : t.workers = (m.set w new).workers) (hnew : new.Live) (hactive : t.active = m.active)
    (hlast : t.lastEnd = m.lastEnd) (hpending : t.pending.isEmpty = false → m.pending.isEmpty = false) : t.Flagged where
  live _ := ⟨new, hworkers ▸ mem_set hw new, hnew⟩
  stranded hidle hpend := hlast ▸ h.stranded (hactive ▸ hidle) (hpending hpend)

theorem Moves.flagged (hmove : m.Moves t) (h : m.Flagged) : t.Flagged := by
  cases hmove with
  | enqueue items =>
    simp only [Machine.enqueueRawCacheItems]
    split_ifs with hnone hactive
    · exact ⟨h.live, h.stranded⟩
    · refine ⟨fun _ => h.live hactive, fun hidle => ?_⟩
      exact Bool.noConfusion (hactive.symm.trans hidle)
    · exact ⟨fun _ => ⟨⟨.starting, false⟩, List.mem_append_right _ (List.mem_singleton_self _), trivial⟩,
        fun hidle => nomatch hidle⟩
  | start hw outcome =>
    cases outcome with
    | threw => exact flagged_of_cleared rfl fun _ => .inr rfl
    | detached => exact h.set hw rfl trivial rfl rfl id
    | joined => exact h.set hw rfl trivial rfl rfl id
    | abandoned => exact h.set hw rfl trivial rfl rfl id
  | take hw =>
    simp only [Machine.take]
    split_ifs with hempty
    · refine flagged_of_cleared rfl fun hpending => ?_
      exact Bool.noConfusion (hempty.symm.trans hpending)
    · refine h.set hw rfl trivial rfl rfl fun hpending => ?_
      exact Bool.noConfusion (Std.TreeMap.isEmpty_emptyc.symm.trans hpending)
  | process hw a =>
    simp only [Machine.process]
    split
    · exact h.set hw rfl trivial rfl rfl id
    · exact h.set hw rfl trivial rfl rfl id
  | finish hw =>
    simp only [Machine.finish]
    split_ifs with hempty hcontinue
    · exact h.set hw rfl trivial rfl rfl id
    · refine h.set hw rfl trivial rfl rfl fun _ => ?_
      simpa [rawCacheWorkerShouldContinueAfterDeferral] using hcontinue
    · exact flagged_of_cleared rfl fun _ => .inl rfl
  | joinReturns hw answers => exact flagged_of_cleared rfl fun _ => .inr rfl

end

theorem start_sound : ({} : Machine).Sound :=
  ⟨Rule.keyed_empty, fun _ hr => (List.not_mem_nil hr).elim, fun _ hw => (List.not_mem_nil hw).elim,
    fun _ hx => (List.not_mem_nil hx).elim⟩

private theorem start_flagged : ({} : Machine).Flagged := by
  refine flagged_of_cleared rfl fun hpending => ?_
  exact Bool.noConfusion (Std.TreeMap.isEmpty_emptyc.symm.trans hpending)

/-! What became of an item that is neither in the map nor in a batch. -/

/-- Another item of its app took its place, or kept the place it came for. -/
def Superseded (m : Machine) (x : Enqueued) : Prop :=
  ∃ winner, .replaced x winner ∈ m.log ∧ winner.item.appId = x.item.appId ∧
    rawCacheItemShouldReplace x.item.publication.generation x.item.changeNumber
      winner.item.publication.generation winner.item.changeNumber = true

def Persisted (m : Machine) (x : Enqueued) : Prop := .persisted x ∈ m.log

def HandedToRepair (m : Machine) (x : Enqueued) : Prop :=
  .refreshInBackground x x.item.appinfoVdfPath [x.item.repairRequest] ∈ m.log

/-- It could not be persisted, and the pair in the cache was found to be usable. -/
def FoundUsable (m : Machine) (x : Enqueued) : Prop :=
  .probedUsable x .fresh ∈ m.log ∨ .probedUsable x .validStale ∈ m.log

private theorem Sound.fate {m : Machine} (h : m.Sound) {x : Enqueued} (hx : x ∈ m.enqueued) :
    newest.Has m.pending x ∨ m.InBatch x ∨ m.Superseded x ∨ m.Persisted x ∨ m.HandedToRepair x ∨
      m.FoundUsable x := by
  obtain (hpending | ⟨r, hr, rfl⟩) | hbatch := h.kept x hx
  · exact .inl hpending
  · have hproper := h.proper r hr
    refine .inr (.inr ?_)
    cases r with
    | replaced loser winner => exact .inl ⟨winner, hr, hproper⟩
    | persisted x => exact .inr (.inl hr)
    | probedUsable x readiness =>
      refine .inr (.inr (.inr ?_))
      obtain rfl | rfl := hproper
      · exact .inl hr
      · exact .inr hr
    | refreshInBackground x path requests =>
      obtain ⟨rfl, rfl⟩ := hproper
      exact .inr (.inr (.inl hr))
  · exact .inr (.inl hbatch)

private theorem Moves.enqueued_eq {m t : Machine} (hmove : m.Moves t) :
    t.enqueued = m.enqueued ∨ ∃ items, t.enqueued = m.enqueued ++ m.ticketed items := by
  cases hmove with
  | enqueue items =>
    simp only [Machine.enqueueRawCacheItems]
    split_ifs
    · exact .inl rfl
    · exact .inr ⟨items, rfl⟩
    · exact .inr ⟨items, rfl⟩
  | start hw outcome => cases outcome <;> exact .inl rfl
  | take hw =>
    rw [Machine.take]
    split <;> exact .inl rfl
  | process hw a =>
    rw [Machine.process]
    split <;> exact .inl rfl
  | finish hw =>
    simp only [Machine.finish]
    split_ifs <;> exact .inl rfl
  | joinReturns hw answers => exact .inl rfl

private theorem ticket_ticketed (m : Machine) (items : List RawCacheItem) :
    (m.ticketed items).map Enqueued.ticket = List.range' m.enqueued.length items.length := by
  apply List.ext_getElem
  · simp [ticketed]
  · intro i hi hi'
    simp [ticketed]

/-- No two arrivals share a number. -/
theorem tickets_exec {m : Machine} {events : List Event} (hrun : exec step {} events = some m) :
    m.enqueued.map Enqueued.ticket = List.range m.enqueued.length := by
  refine exec_preserves (P := fun m => m.enqueued.map Enqueued.ticket = List.range m.enqueued.length) ?_ rfl hrun
  intro s e t hs hstep
  obtain heq | ⟨items, heq⟩ := (step_moves hstep).enqueued_eq
  · rw [heq, hs]
  · rw [heq, List.map_append, hs, ticket_ticketed, List.length_append, List.range_eq_range', List.range_eq_range']
    have happend : List.range' 0 s.enqueued.length ++ List.range' (0 + s.enqueued.length) items.length =
        List.range' 0 (s.enqueued.length + items.length) := List.range'_append_1
    simpa [ticketed] using happend

/-- Whatever the schedule, each item that a caller handed over is in the map or at a worker,
gave way to one at least as new, was persisted, went to the repair path or met a usable
pair; and with the flag cleared, items wait only after a deferral or a failed start. -/
theorem enqueued_items_accounted {events : List Event} {m : Machine} (hrun : exec step {} events = some m) :
    (m.enqueued.map Enqueued.ticket).Nodup ∧
    (∀ x ∈ m.enqueued, newest.Has m.pending x ∨ m.InBatch x ∨ m.Superseded x ∨ m.Persisted x ∨
      m.HandedToRepair x ∨ m.FoundUsable x) ∧
    (m.active = true → ∃ w ∈ m.workers, w.Live) ∧
    (m.active = false → m.pending.isEmpty = false →
      m.lastEnd = some .deferral ∨ m.lastEnd = some .startFailed) := by
  have hsound : m.Sound := exec_preserves (fun _ _ _ hs hstep => (step_moves hstep).sound hs) start_sound hrun
  have hflagged : m.Flagged :=
    exec_preserves (fun _ _ _ hs hstep => (step_moves hstep).flagged hs) start_flagged hrun
  have htickets : (m.enqueued.map Enqueued.ticket).Nodup := by
    rw [tickets_exec hrun]
    exact List.nodup_range
  exact ⟨htickets, fun x hx => hsound.fate hx, hflagged.live, hflagged.stranded⟩

/-- Two items of one app, the older one last, and a start that fails. -/
def olderBehindNewer : List Event :=
  [.enqueue [⟨480, 8, [], [], [], ⟨true, 3⟩⟩, ⟨480, 7, [], [], [], ⟨true, 3⟩⟩], .start 0 .threw]

theorem olderBehindNewer_accounted :
    ∃ m, exec step {} olderBehindNewer = some m ∧ m.enqueued.length = 2 ∧
      (∀ x ∈ m.enqueued, newest.Has m.pending x ∨ m.InBatch x ∨ m.Superseded x ∨ m.Persisted x ∨
        m.HandedToRepair x ∨ m.FoundUsable x) ∧
      (m.active = false → m.pending.isEmpty = false →
        m.lastEnd = some .deferral ∨ m.lastEnd = some .startFailed) := by
  have hran : ((exec step {} olderBehindNewer).map fun m => m.enqueued.length) = some 2 := by decide +kernel
  obtain ⟨m, hm, hlength⟩ := Option.map_eq_some_iff.mp hran
  obtain ⟨-, haccounted, -, hstranded⟩ := enqueued_items_accounted hm
  exact ⟨m, hm, hlength, haccounted, hstranded⟩

/-- An item that cannot be persisted beside a pair that is valid but stale. -/
def staleBesideUsable : List Event :=
  [.enqueue [⟨480, 8, [], [], [], ⟨true, 3⟩⟩], .start 0 .detached, .take 0,
    .process 0 ⟨some false, some .validStale, some ()⟩]

/-- The worker drops the item: it is neither persisted nor handed to the repair path. -/
theorem usable_pair_drops_item :
    ¬∀ (events : List Event) (m : Machine), exec step {} events = some m →
      (∀ x ∈ m.enqueued, newest.Has m.pending x ∨ m.InBatch x ∨ m.Superseded x ∨ m.Persisted x ∨
        m.HandedToRepair x) ∧
      (m.active = false → m.pending.isEmpty = false →
        m.lastEnd = some .deferral ∨ m.lastEnd = some .startFailed) := by
  intro hclaim
  let x : Enqueued := ⟨0, ⟨480, 8, [], [], [], ⟨true, 3⟩⟩⟩
  have hran : ((exec step {} staleBesideUsable).map fun m =>
      (m.log, m.enqueued, decide (newest.Has m.pending x ∨ m.InBatch x))) =
        some ([.probedUsable x .validStale], [x], false) := by decide +kernel
  obtain ⟨m, hm, hends⟩ := Option.map_eq_some_iff.mp hran
  simp only [Prod.mk.injEq, decide_eq_false_iff_not, not_or] at hends
  obtain ⟨hlog, henqueued, hpending, hbatch⟩ := hends
  obtain h | h | ⟨winner, h, -⟩ | h | h := (hclaim _ m hm).1 x (henqueued ▸ List.mem_singleton_self x)
  · exact hpending h
  · exact hbatch h
  · simp [hlog] at h
  · simp [Persisted, hlog] at h
  · simp [HandedToRepair, hlog] at h

end Machine
end SlsteamMoon.RawCache
