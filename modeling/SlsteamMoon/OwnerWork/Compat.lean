import SlsteamMoon.OwnerWork.Submit

/-! What becomes of an accepted compatibility request. -/
namespace SlsteamMoon.OwnerWork
open OwnerQueue

private theorem sameWork_compat_iff (c : Command) (app : AppId) (generation : UInt64) (attempt : UInt32) :
    c.sameWork (.ensureCompat app generation attempt) = true ↔ compatKey c = some (app, generation) := by
  cases c <;> simp [Command.sameWork, compatKey]

/-- A record for the request is pending. -/
def Pends (entries : List Entry) (k : CompatKey) : Prop := ∃ p ∈ entries, compatKey p.cmd = some k

instance (entries : List Entry) (k : CompatKey) : Decidable (Pends entries k) :=
  inferInstanceAs (Decidable (∃ p ∈ entries, _))

private theorem pends_append {before after : List Entry} {k : CompatKey} :
    Pends (before ++ after) k ↔ Pends before k ∨ Pends after k := by
  simp [Pends, or_and_right, exists_or]

private theorem pends_cons {p : Entry} {rest : List Entry} {k : CompatKey} :
    Pends (p :: rest) k ↔ compatKey p.cmd = some k ∨ Pends rest k := by
  simp [Pends]

private theorem pends_nil (k : CompatKey) : ¬ Pends [] k := by simp [Pends]

/-- A met entry stands for the same request as before. -/
theorem met_compatKey {maxIds : Nat} {p entry : Entry} {cmd : Command} {result : PushResult} {k : CompatKey}
    (h : Met maxIds p cmd entry result) (hp : compatKey p.cmd = some k) : compatKey entry.cmd = some k := by
  cases h with
  | merged base extra hbase => simp [hbase, compatKey] at hp
  | replaced previous next hprevious => simp [hprevious, compatKey] at hp
  | _ => exact hp

private theorem accepts_pends {b : Bounds} {cmd : Command} {nowUs : Nat} {into out : List Entry} {result : PushResult}
    {k : CompatKey} (h : Accepts b cmd nowUs into out result) (hinto : Pends into k) : Pends out k := by
  cases h with
  | appended => exact pends_append.mpr (.inl hinto)
  | met before p entry rest _ heq hpass hmet =>
    rw [heq, pends_append, pends_cons] at hinto
    rw [pends_append, pends_cons]
    exact hinto.imp_right (Or.imp_left (met_compatKey hmet))

/-- An accepted request is pending afterwards. -/
theorem accepts_pends_self {b : Bounds} {cmd : Command} {nowUs : Nat} {into out : List Entry}
    {result : PushResult} {k : CompatKey} (h : Accepts b cmd nowUs into out result) (hk : compatKey cmd = some k) :
    Pends out k := by
  cases h with
  | appended => exact pends_append.mpr (.inr (pends_cons.mpr (.inl hk)))
  | met before p entry rest _ heq hpass hmet =>
    rw [pends_append, pends_cons]
    refine .inr (.inl ?_)
    cases hmet with
    | same hsame =>
      cases cmd with
      | ensureCompat app generation attempt => exact ((sameWork_compat_iff ..).mp hsame).trans hk
      | _ => cases hk
    | covered base extra hp hcmd => simp [hcmd, compatKey] at hk
    | merged base extra hp hcmd => simp [hcmd, compatKey] at hk
    | older previous next hp hcmd => simp [hcmd, compatKey] at hk
    | replaced previous next hp hcmd => simp [hcmd, compatKey] at hk

private theorem pushes_pends {b : Bounds} {pending last : List Entry} {results : List PushResult} {k : CompatKey}
    (h : Queue.Pushes b pending results last) (hk : Pends pending k) : Pends last k := by
  induction h with
  | done => exact hk
  | refused result hresult hrest ih => exact ih hk
  | accepted cmd nowUs result hnext hrest ih => exact ih (accepts_pends hnext hk)

/-- A compatibility command is turned away only by a full queue that holds none like it. -/
theorem room_of_go_none {b : Bounds} {app : AppId} {generation : UInt64} {attempt : UInt32} {nowUs : Nat}
    (rest before : List Entry)
    (h : applyPush.go b (.ensureCompat app generation attempt) nowUs before rest = none) :
    b.capacity ≤ (before ++ rest).length ∧ ¬ Pends rest (app, generation) := by
  induction rest generalizing before with
  | nil =>
    simp only [applyPush.go] at h
    split at h
    · exact ⟨by simpa using ‹_›, pends_nil _⟩
    · cases h
  | cons p rest ih =>
    simp only [applyPush.go] at h
    split at h
    · rename_i hpass
      obtain ⟨hroom, hrest⟩ := ih _ h
      refine ⟨by simpa using hroom, fun hpends => ?_⟩
      rcases pends_cons.mp hpends with hp | hp
      · have hsame := (sameWork_compat_iff p.cmd app generation attempt).mpr hp
        simp [meet, Command.kind_eq_of_sameWork hsame, hsame] at hpass
      · exact hrest hp
    · rename_i hrefuses
      unfold meet at hrefuses
      split at hrefuses
      · cases hrefuses
      · split at hrefuses
        · cases hrefuses
        · cases hrefuses
    · cases h

/-- On an open queue the push of a request leaves it pending exactly when there is room
or one like it pends. -/
theorem push_pends_iff {q : Queue} (hopen : q.shuttingDown = false) (app : AppId) (generation : UInt64)
    (attempt : UInt32) (nowUs : Nat) :
    Pends (q.push (.ensureCompat app generation attempt) nowUs).1.pending (app, generation) ↔
      q.pending.length < q.bounds.capacity ∨ Pends q.pending (app, generation) := by
  have hclosed : ¬ q.shuttingDown = true := by simp [hopen]
  rw [Queue.push, Queue.pushLocked, if_neg hclosed]
  cases happly : applyPush q.bounds q.pending (.ensureCompat app generation attempt) nowUs with
  | none =>
    obtain ⟨hroom, hnone⟩ := room_of_go_none q.pending [] (by simpa [applyPush, Command.withinIds] using happly)
    simp only [List.nil_append] at hroom
    exact ⟨.inr, fun h => h.resolve_left (by omega)⟩
  | some pair =>
    obtain ⟨out, result⟩ := pair
    have haccepts := applyPush_accepts happly
    refine ⟨fun _ => ?_, fun _ => accepts_pends_self haccepts rfl⟩
    cases haccepts with
    | appended hroom => exact .inl hroom
    | met before p entry rest _ heq hpass hmet =>
      have hp : compatKey p.cmd = some (app, generation) := by
        cases hmet with
        | same hsame => exact (sameWork_compat_iff ..).mp hsame
        | covered base extra hp hcmd => cases hcmd
        | merged base extra hp hcmd => cases hcmd
        | older previous next hp hcmd => cases hcmd
        | replaced previous next hp hcmd => cases hcmd
      rw [heq]
      exact .inr (pends_append.mpr (.inr (pends_cons.mpr (.inl hp))))

private theorem push_accepted_pends {q : Queue} {app : AppId} {generation : UInt64} {attempt : UInt32} {nowUs : Nat}
    (h : accepted (q.push (.ensureCompat app generation attempt) nowUs).2 = true) :
    Pends (q.push (.ensureCompat app generation attempt) nowUs).1.pending (app, generation) := by
  unfold Queue.push Queue.pushLocked at h ⊢
  split
  · rename_i hshut
    rw [if_pos hshut] at h
    cases h
  · rename_i hopen
    rw [if_neg hopen] at h
    split
    · rename_i hnone
      rw [hnone] at h
      cases h
    · exact accepts_pends_self (applyPush_accepts ‹_›) rfl

private theorem dryRun_pends {b : Bounds} {nowUs : Nat} {k : CompatKey} (batch : List Command)
    {scratch last : List Entry} (h : Queue.dryRun b nowUs scratch batch = some last)
    (hk : Pends scratch k ∨ ∃ c ∈ batch, compatKey c = some k) : Pends last k := by
  induction batch generalizing scratch with
  | nil =>
    cases h
    simpa using hk
  | cons cmd rest ih =>
    simp only [Queue.dryRun] at h
    split at h
    · cases h
    · have haccepts := applyPush_accepts ‹_›
      refine ih h ?_
      rcases hk with hk | ⟨c, hc, hk⟩
      · exact .inl (accepts_pends haccepts hk)
      · rcases List.mem_cons.mp hc with rfl | hc
        · exact .inl (accepts_pends_self haccepts hk)
        · exact .inr ⟨c, hc, hk⟩

/-- The pushes of an accepted batch do what its dry run did. -/
theorem pushAll_eq_dryRun {nowUs : Nat} (batch : List Command) {q : Queue} {last : List Entry}
    (hopen : ¬ q.shuttingDown = true) (h : Queue.dryRun q.bounds nowUs q.pending batch = some last) :
    (Queue.pushAll nowUs q batch).1.pending = last := by
  induction batch generalizing q with
  | nil => exact Option.some.inj h
  | cons cmd rest ih =>
    simp only [Queue.dryRun] at h
    split at h
    · cases h
    · rename_i next result happly
      have hpush : q.pushLocked cmd nowUs =
          ({ q with pending := next, stats := Queue.countPush q.stats result }, result) := by
        rw [Queue.pushLocked, if_neg hopen, happly]
      simp only [Queue.pushAll, hpush]
      exact ih hopen h

private theorem pushBatch_pends {q : Queue} {batch : List Command} {nowUs : Nat} {c : Command} {k : CompatKey}
    (h : (q.pushBatch batch nowUs).2.1 = true) (hc : c ∈ batch) (hk : compatKey c = some k) :
    Pends (q.pushBatch batch nowUs).1.pending k := by
  unfold Queue.pushBatch at h ⊢
  split at h
  · cases h
  · rename_i hopen
    split at h
    · cases h
    · rename_i hdry
      rw [if_neg hopen, if_neg hdry]
      obtain ⟨last, hlast⟩ := Option.ne_none_iff_exists'.mp (by simpa using hdry)
      simp only [pushAll_eq_dryRun batch hopen hlast]
      exact dryRun_pends batch hlast (.inr ⟨c, hc, hk⟩)

/-- The request is in the batch of a queue call that is still open. -/
def Claimed (m : Machine) (k : CompatKey) : Prop :=
  ∃ u, ∃ g ∈ m.threads u, ∃ i ∈ g.batch, compatKey i.cmd = some k

def Waits (m : Machine) (k : CompatKey) : Prop := Pends m.queue.pending k ∨ Claimed m k

private theorem claimed_top {m : Machine} {t : ThreadId} {f : Frame} {rest : List Frame} {i : Item} {k : CompatKey}
    (hi : i ∈ f.batch) (hk : compatKey i.cmd = some k) : Claimed (m.stack t (f :: rest)) k :=
  ⟨t, f, by simp, i, hi, hk⟩

/-- The calls of the other threads stay, and those of this one are covered by its new
calls. -/
theorem claimed_stack {m x : Machine} {t : ThreadId} {frames : List Frame} {k : CompatKey}
    (hx : x.threads = m.threads)
    (hcover : ∀ g ∈ m.threads t, ∀ i ∈ g.batch, compatKey i.cmd = some k →
      ∃ g' ∈ frames, ∃ i' ∈ g'.batch, compatKey i'.cmd = some k)
    (h : Claimed m k) : Claimed (x.stack t frames) k := by
  obtain ⟨u, g, hg, i, hi, hk⟩ := h
  by_cases hut : u = t
  · obtain ⟨g', hg', i', hi', hk'⟩ := hcover g (hut ▸ hg) i hi hk
    exact ⟨t, g', by simpa using hg', i', hi', hk'⟩
  · exact ⟨u, g, (Machine.mem_stack ..).mpr (.inr ⟨hut, hx ▸ hg⟩), i, hi, hk⟩

/-- A claim moves every pending request into its batch. -/
theorem pends_items {m : Machine} {k : CompatKey} (h : m.tickets.length = m.queue.pending.length)
    (hk : Pends m.queue.pending k) : ∃ i ∈ m.items, compatKey i.cmd = some k := by
  obtain ⟨p, hp, hk⟩ := hk
  have hmem : p.cmd ∈ m.items.map Item.cmd := Machine.items_cmds h ▸ List.mem_map_of_mem hp
  obtain ⟨i, hi, hcmd⟩ := List.mem_map.mp hmem
  exact ⟨i, hi, hcmd ▸ hk⟩

/-- The top call keeps its batch. -/
theorem claimed_retop {m x : Machine} {k : CompatKey} {t : ThreadId} {f f' : Frame} {rest : List Frame}
    (hstack : m.threads t = f :: rest) (hx : x.threads = m.threads) (hbatch : f'.batch = f.batch)
    (h : Claimed m k) : Claimed (x.stack t (f' :: rest)) k := by
  refine claimed_stack hx (fun g hg i hi hik => ?_) h
  rw [hstack] at hg
  rcases List.mem_cons.mp hg with rfl | hg
  · exact ⟨f', by simp, i, hbatch ▸ hi, hik⟩
  · exact ⟨g, by simp [hg], i, hi, hik⟩

/-- A waiting request goes on waiting, but where the command that ends is its own and
no other record for it pends. -/
theorem moves_waits {m n : Machine} {e : OwnerQueue.Event} {k : CompatKey} (h : m.Accounted)
    (hopen : e ≠ .shutdown)
    (hends : ∀ t threw, e = .finish t threw → (running m t).bind compatKey = some k → Pends m.queue.pending k)
    (hmove : Machine.Moves m e n) (hk : Waits m k) : Waits n k := by
  cases hmove with
  | shuts => exact absurd rfl hopen
  | refused => exact hk
  | pushed _ q results hcontrol hpushes => exact hk.imp_left (pushes_pends hpushes)
  | claims _ t q hcall hclaims =>
    refine .inr ?_
    rcases hk with hk | hk
    · obtain ⟨i, hi, hik⟩ := pends_items h.aligned hk
      exact claimed_top hi hik
    · exact claimed_stack rfl (fun g hg i hi hik => ⟨g, by simp [hg], i, hi, hik⟩) hk
  | calls t extra hcall =>
    exact hk.imp_right (claimed_stack rfl fun g hg i hi hik => ⟨g, by simp [hg], i, hi, hik⟩)
  | claimsInline t f rest q hstack hphase hclaims =>
    refine .inr ?_
    rcases hk with hk | hk
    · obtain ⟨i, hi, hik⟩ := pends_items h.aligned hk
      exact claimed_top (List.mem_append_left _ hi) hik
    · refine claimed_stack rfl (fun g hg i hi hik => ?_) hk
      rw [hstack] at hg
      rcases List.mem_cons.mp hg with rfl | hg
      · exact ⟨_, List.mem_cons_self, i, List.mem_append_right _ hi, hik⟩
      · exact ⟨g, by simp [hg], i, hi, hik⟩
  | refusedInline t f rest hstack => exact hk.imp_right (claimed_retop hstack rfl rfl)
  | counts t f rest hstack => exact hk.imp_right (claimed_retop hstack rfl rfl)
  | skips t f rest hstack => exact hk.imp_right (claimed_retop hstack rfl rfl)
  | enters t f rest d hstack => exact hk.imp_right (claimed_retop hstack rfl rfl)
  | starts t f rest hstack => exact hk.imp_right (claimed_retop hstack rfl rfl)
  | leaves t u d f rest hstack => exact hk.imp_right (claimed_retop hstack rfl rfl)
  | finishes t threw f rest i tail hstack hphase hbatch =>
    have hrunning : running m t = some i.cmd := by simp [running, hstack, hphase, hbatch]
    by_cases hown : compatKey i.cmd = some k
    · exact .inl (hends t threw rfl (by rw [hrunning]; exact hown))
    · refine hk.imp_right (claimed_stack rfl fun g hg j hj hjk => ?_)
      rw [hstack] at hg
      rcases List.mem_cons.mp hg with rfl | hg
      · rw [hbatch] at hj
        rcases List.mem_cons.mp hj with rfl | hj
        · exact absurd hjk hown
        · exact ⟨_, List.mem_cons_self, j, hj, hjk⟩
      · exact ⟨g, by simp [hg], j, hj, hjk⟩
  | releases t f rest hstack hphase =>
    have hqueue : (if f.claimed then m.queue.releaseExecuting else m.queue).pending = m.queue.pending := by
      split <;> rfl
    refine hk.imp (fun hp => hqueue.symm ▸ hp) (claimed_stack rfl fun g hg i hi hik => ?_)
    rw [hstack] at hg
    rcases List.mem_cons.mp hg with rfl | hg
    · rw [(h.sound t g (by simp [hstack])).left hphase] at hi
      cases hi
    · exact ⟨g, hg, i, hi, hik⟩

private theorem finish_pending {m n : Machine} {t : ThreadId} {threw : Bool} (h : m.step (.finish t threw) = some n) :
    n.queue.pending = m.queue.pending := by
  simp only [Machine.step] at h
  split at h
  · split at h
    · cases h
      rfl
    · cases h
  · cases h

private theorem finish_enabled {m : Machine} {t : ThreadId} {cmd : Command} (h : running m t = some cmd)
    (threw : Bool) : ∃ n, m.step (.finish t threw) = some n := by
  unfold running at h
  split at h
  · rename_i f rest hstack
    split at h
    · rename_i hphase
      cases hbatch : f.batch with
      | nil => simp [hbatch] at h
      | cons i tail => simp [Machine.step, hstack, hphase, hbatch]
    · cases h
  · cases h

/-- A command is running from the batch of the thread's innermost call. -/
theorem claimed_of_running {m : Machine} {t : ThreadId} {k : CompatKey}
    (h : (running m t).bind compatKey = some k) : Claimed m k := by
  obtain ⟨cmd, hrunning, hk⟩ := Option.bind_eq_some_iff.mp h
  unfold running at hrunning
  split at hrunning
  · rename_i f rest hstack
    split at hrunning
    · obtain ⟨i, hi, rfl⟩ := Option.map_eq_some_iff.mp hrunning
      exact ⟨t, f, by simp [hstack], i, List.mem_of_head? hi, hk⟩
    · cases hrunning
  · cases hrunning

namespace Work

/-- The request that the event sends back to the queue: it ends a run of its command
off the owner thread. -/
def returned (w : Work) : Event → Option CompatKey
  | .finish t _ _ _ =>
    if (w.active t).isNone ∧ w.owner ≠ some t then (running w.machine t).bind compatKey else none
  | _ => none

/-- Every accepted request that the owner has not run is pending or claimed after the
step, and one that the step sends back is pending. -/
def Kept (w : Work) (e : Event) : Prop :=
  ∀ n, w.step e = some n →
    (∀ k ∈ n.owed, Waits n.machine k) ∧ ∀ k, w.returned e = some k → Pends n.machine.queue.pending k

/-- A request that is sent back finds room, or one like it pending. -/
def HasRoom (w : Work) (e : Event) : Prop :=
  ∀ k, w.returned e = some k →
    w.machine.queue.pending.length < w.machine.queue.bounds.capacity ∨ Pends w.machine.queue.pending k

/-- What holds on an open queue while requests find room. -/
structure Keeping (w : Work) : Prop where
  consistent : w.machine.Consistent
  isOpen : w.machine.queue.shuttingDown = false
  waits : ∀ k ∈ w.owed, Waits w.machine k

private theorem keeping_start (b : Bounds) (queueEnabled : Bool) (maxStaleMs : Nat) :
    (start b queueEnabled maxStaleMs).Keeping where
  consistent := Machine.consistent_start b
  isOpen := rfl
  waits k hk := by cases hk

theorem Keeping.alike {w x : Work} (h : w.Keeping) (halike : Alike w x) : x.Keeping where
  consistent := halike.machine ▸ h.consistent
  isOpen := halike.machine ▸ h.isOpen
  waits := by
    rw [halike.machine, halike.owed]
    exact h.waits

theorem Keeping.owing {w : Work} (h : w.Keeping) (owed : List CompatKey) (howed : ∀ k ∈ owed, Waits w.machine k) :
    { w with owed }.Keeping :=
  ⟨h.consistent, h.isOpen, howed⟩

/-- One queue event, where every request that it ends is pending or settled. -/
theorem Keeping.advance {w : Work} {m : Machine} {q : OwnerQueue.Event} (h : w.Keeping) (hopen : q ≠ .shutdown)
    (hends : ∀ k ∈ w.owed, ∀ t threw, q = .finish t threw → (running w.machine t).bind compatKey = some k →
      Pends w.machine.queue.pending k)
    (hstep : w.machine.step q = some m) : (w.advance m).Keeping where
  consistent := Machine.step_consistent h.consistent hopen hstep
  isOpen := Machine.step_open h.isOpen hopen hstep
  waits k hk := moves_waits h.consistent.accounted hopen (hends k hk) (Machine.step_moves hstep) (h.waits k hk)

/-- The push of a command that puts its request back decides what is pending after it. -/
theorem requeue_pending {w x : Work} {t : ThreadId} {app : AppId} {generation : UInt64} {attempt : UInt32}
    {now : Nat} {threw : Bool} (hstep : w.requeue t app generation attempt now threw = some x) :
    x.machine.queue.pending = (w.machine.queue.push (.ensureCompat app generation attempt) now).1.pending := by
  obtain ⟨owed, y, -, hpush, hfinish⟩ := requeue_acts hstep
  obtain ⟨pushed, hpushed, rfl⟩ := Option.map_eq_some_iff.mp hpush
  obtain ⟨finished, hfinished, rfl⟩ := Option.map_eq_some_iff.mp hfinish
  refine (finish_pending hfinished).trans ?_
  show pushed.queue.pending = _
  rw [← Option.some.inj hpushed]
  rfl

private theorem requeue_enabled {w : Work} {t : ThreadId} {cmd : Command} (hrunning : running w.machine t = some cmd)
    (app : AppId) (generation : UInt64) (attempt : UInt32) (now : Nat) (threw : Bool) :
    ∃ x, w.requeue t app generation attempt now threw = some x := by
  let result := w.machine.queue.push (.ensureCompat app generation attempt) now
  let pushed := w.machine.accept result.1 [result.2]
  let y := { w with owed := if accepted result.2 then (app, generation) :: w.owed else w.owed }.advance pushed
  obtain ⟨finished, hfinished⟩ := finish_enabled (show running pushed t = some cmd from hrunning) threw
  exact ⟨y.advance finished, congrArg (Option.map y.advance) hfinished⟩

/-- A command that puts its request back keeps every other one, and its own where the
push finds room. -/
theorem Keeping.requeue {w x : Work} {t : ThreadId} {app : AppId} {generation : UInt64} {attempt : UInt32}
    {now : Nat} {threw : Bool} (h : w.Keeping)
    (hrunning : (running w.machine t).bind compatKey = some (app, generation))
    (hroom : (app, generation) ∈ w.owed → w.machine.queue.pending.length < w.machine.queue.bounds.capacity ∨
      Pends w.machine.queue.pending (app, generation))
    (hstep : w.requeue t app generation attempt now threw = some x) : x.Keeping := by
  obtain ⟨owed, y, howed, hpush, hfinish⟩ := requeue_acts hstep
  obtain ⟨pushed, hpushed, rfl⟩ := Option.map_eq_some_iff.mp hpush
  obtain ⟨finished, hfinished, rfl⟩ := Option.map_eq_some_iff.mp hfinish
  have hwaits : ∀ k ∈ owed, Waits w.machine k := by
    intro k hk
    rcases howed k hk with hk | ⟨rfl, -⟩
    · exact h.waits k hk
    · exact .inr (claimed_of_running hrunning)
  have hkeeping := (h.owing owed hwaits).advance (by simp) (fun k _ u _ hq => by cases hq) hpushed
  have hsame : running pushed t = running w.machine t := by
    rw [← Option.some.inj hpushed]
    rfl
  refine hkeeping.advance (by simp) (fun k hk u _ hq hrun => ?_) hfinished
  cases hq
  have hrun : (running pushed t).bind compatKey = some k := hrun
  rw [hsame, hrunning] at hrun
  have hk' : k = (app, generation) := (Option.some.inj hrun).symm
  show Pends pushed.queue.pending k
  rw [← Option.some.inj hpushed, hk']
  rcases howed k hk with hk | ⟨-, htaken⟩
  · exact (push_pends_iff h.isOpen ..).mpr (hroom (hk' ▸ hk))
  · exact push_accepted_pends htaken

private theorem step_keeping {w n : Work} {e : Event} (h : w.Keeping) (hopen : e ≠ .shutdown) (hroom : w.HasRoom e)
    (hnext : w.step e = some n) : n.Keeping := by
  cases step_moves hnext with
  | keeps _ x halike => exact h.alike halike
  | submits t batch calls => exact ⟨h.consistent, h.isOpen, h.waits⟩
  | acts _ x q m halike hplain hstep =>
    refine (h.alike halike).advance (fun hq => ?_) (fun k _ t threw hq hrun => ?_) (by rw [halike.machine]; exact hstep)
    · rw [hq] at hplain
      exact hplain
    · rw [hq] at hplain
      rw [halike.machine] at hrun
      obtain ⟨cmd, hrunning, hk⟩ := Option.bind_eq_some_iff.mp hrun
      exact absurd (hplain cmd hrunning) (by simp [hk])
  | queues t now s m hactive haccepted hstep =>
    have hold := (Keeping.advance h (by simp) (fun k _ u _ hq => by cases hq) hstep)
    refine ⟨hold.consistent, hold.isOpen, fun k hk => ?_⟩
    rcases List.mem_append.mp hk with hk | hk
    · obtain ⟨c, hc, hck⟩ := List.mem_filterMap.mp hk
      have hm : m = w.machine.accept _ _ := (Option.some.inj hstep).symm
      refine .inl ?_
      show Pends m.queue.pending k
      rw [hm]
      exact pushBatch_pends haccepted hc hck
    · exact hold.waits k hk
  | inlines t s m hactive hstep =>
    have hold := (Keeping.advance h (by simp) (fun k _ u _ hq => by cases hq) hstep)
    refine ⟨hold.consistent, hold.isOpen, fun k hk => ?_⟩
    rcases List.mem_append.mp hk with hk | hk
    · obtain ⟨c, hc, hck⟩ := List.mem_filterMap.mp hk
      simp only [Machine.step] at hstep
      split at hstep
      · refine .inr ?_
        show Claimed m k
        rw [← Option.some.inj hstep]
        exact claimed_top (List.mem_map_of_mem hc) hck
      · cases hstep
    · exact hold.waits k hk
  | returns t threw unavailable now app generation attempt x hactive howner hrunning hstep =>
    have hkey : (running w.machine t).bind compatKey = some (app, generation) := by rw [hrunning]; rfl
    refine h.requeue hkey (fun _ => hroom _ ?_) hstep
    rw [returned, if_pos ⟨hactive, howner⟩, hkey]
  | retries t threw unavailable now app generation attempt retry x howner hrunning hstep =>
    have hkey : (running w.machine t).bind compatKey = some (app, generation) := by rw [hrunning]; rfl
    have hfiltered := h.owing (w.owed.filter (· ≠ (app, generation)))
      fun k hk => h.waits k (List.mem_of_mem_filter hk)
    refine hfiltered.requeue hkey (fun hmem => ?_) hstep
    simp at hmem
  | settles t threw unavailable now app generation attempt m howner hrunning hstep =>
    have hfiltered := h.owing (w.owed.filter (· ≠ (app, generation)))
      fun k hk => h.waits k (List.mem_of_mem_filter hk)
    refine hfiltered.advance (by simp) (fun k hk u _ hq hrun => ?_) hstep
    cases hq
    have hrun : (running w.machine t).bind compatKey = some k := hrun
    rw [hrunning] at hrun
    cases hrun
    simp at hk
  | shuts => exact absurd rfl hopen

/-- An off-owner end of a compatibility command always has its step: the push and the
end of the run. -/
theorem step_of_returned {w : Work} {e : Event} {k : CompatKey} (h : w.returned e = some k) :
    ∃ attempt now n, w.step e = some n ∧ n.machine.queue.pending =
      (w.machine.queue.push (.ensureCompat k.1 k.2 attempt) now).1.pending := by
  cases e with
  | finish t threw unavailable now =>
    simp only [returned] at h
    split at h
    · rename_i hguard
      obtain ⟨cmd, hrunning, hkey⟩ := Option.bind_eq_some_iff.mp h
      cases cmd with
      | ensureCompat app generation attempt =>
        cases hkey
        have hstep : w.step (.finish t threw unavailable now) = w.requeue t app generation attempt now threw := by
          simp only [step, if_pos hguard.1, finish, hrunning, if_pos hguard.2]
        obtain ⟨x, hx⟩ := requeue_enabled hrunning app generation attempt now threw
        exact ⟨attempt, now, x, hstep.trans hx, requeue_pending hx⟩
      | _ => cases hkey
    · cases h
  | _ => cases h

/-- The request that a step sends back is pending after it exactly when it finds room. -/
theorem returned_pends_iff {w n : Work} {e : Event} {k : CompatKey} (h : w.Keeping) (hk : w.returned e = some k)
    (hnext : w.step e = some n) : Pends n.machine.queue.pending k ↔
      w.machine.queue.pending.length < w.machine.queue.bounds.capacity ∨ Pends w.machine.queue.pending k := by
  obtain ⟨attempt, now, x, hx, hpending⟩ := step_of_returned hk
  obtain rfl : n = x := Option.some.inj (hnext.symm.trans hx)
  rw [hpending]
  exact push_pends_iff h.isOpen ..

private theorem kept_of_hasRoom {w : Work} {e : Event} (h : w.Keeping) (hopen : e ≠ .shutdown) (hroom : w.HasRoom e) :
    w.Kept e :=
  fun _ hnext => ⟨(step_keeping h hopen hroom hnext).waits,
    fun k hk => (returned_pends_iff h hk hnext).mpr (hroom k hk)⟩

private theorem hasRoom_of_kept {w : Work} {e : Event} (h : w.Keeping) (hkept : w.Kept e) : w.HasRoom e := by
  intro k hk
  obtain ⟨attempt, now, n, hnext, -⟩ := step_of_returned hk
  exact (returned_pends_iff h hk hnext).mp ((hkept n hnext).2 k hk)

/-- On every run without a shutdown the accepted compatibility requests are kept at each
step exactly when each request that is sent back finds room or one like it pending. -/
theorem compat_requests_kept_iff (b : Bounds) (queueEnabled : Bool) (maxStaleMs : Nat) (es : List Event)
    (hopen : ∀ e ∈ es, e ≠ .shutdown) :
    Runs.Meets step Kept (start b queueEnabled maxStaleMs) es ↔
      Runs.Meets step HasRoom (start b queueEnabled maxStaleMs) es := by
  have hstart := keeping_start b queueEnabled maxStaleMs
  have hevents : Runs.Meets step (fun _ e => e ≠ .shutdown) (start b queueEnabled maxStaleMs) es :=
    Runs.meets_of_forall (fun e he _ => hopen e he) _
  constructor
  · intro h
    refine Runs.Meets.of_invariant (P := Keeping) ?_ (fun w e hw he => hasRoom_of_kept hw he.2) hstart (hevents.and h)
    exact fun w e n hw he hnext => step_keeping hw he.1 (hasRoom_of_kept hw he.2) hnext
  · intro h
    refine Runs.Meets.of_invariant (P := Keeping) ?_ (fun w e hw he => kept_of_hasRoom hw he.1 he.2) hstart (hevents.and h)
    exact fun w e n hw he hnext => step_keeping hw he.1 he.2 hnext

/-- Thread 1 runs the overdue request off the owner, which puts it back, and the owner
runs it on its next frame. -/
def returnedSchedule : List Event :=
  [.latchOwnerThread 0, .submitBatch 1 (submitCompatReadiness 7 1), .idleTick 1 0, .pushBatch 1 5,
    .idleTick 1 2000000, .enter 1, .start 1, .finish 1 false false 2000001, .leave 1, .release 1,
    .drainOnOwnerFrame 0, .enter 0, .start 0, .finish 0 false false 2000002]

theorem compat_requests_kept_returned :
    (∃ n, Runs.exec step (start .default true 1500) returnedSchedule = some n ∧ n.owed = []) ∧
      Runs.Meets step Kept (start .default true 1500) returnedSchedule := by
  have hrun : (Runs.exec step (start .default true 1500) returnedSchedule).map Work.owed = some [] := by
    decide +kernel
  have hroom : Runs.Meets step
      (fun w _ => w.machine.queue.pending.length < w.machine.queue.bounds.capacity)
      (start .default true 1500) returnedSchedule := by decide +kernel
  refine ⟨Option.map_eq_some_iff.mp hrun, ?_⟩
  exact (compat_requests_kept_iff .default true 1500 returnedSchedule (by decide)).mpr
    (hroom.mono fun w e h k _ => .inl h)

/-- Thread 1 is running the overdue request while thread 2 fills the queue with installs. -/
def filledSchedule : List Event :=
  [.latchOwnerThread 0, .submitBatch 1 (submitCompatReadiness 7 1), .idleTick 1 0, .pushBatch 1 5,
    .idleTick 1 2000000, .enter 1, .start 1] ++
  (List.range 32).flatMap fun i =>
    [.submitBatch 2 [.installApp (.ofNat (100 + i)) 0], .idleTick 2 2000000, .pushBatch 2 2000000]

/-- The refused push ends the run: the accepted request is not pending, no call of the
three threads holds it, and the owner has not run it. -/
theorem compat_request_dropped_when_full :
    (∃ n, Runs.exec step (start .default true 1500) (filledSchedule ++ [.finish 1 false false 2000001]) = some n ∧
      (7, 1) ∈ n.owed ∧ ¬ Pends n.machine.queue.pending (7, 1) ∧ ∀ t ∈ ([0, 1, 2] : List ThreadId), ∀ f ∈ n.machine.threads t, f.batch = []) ∧
      ¬ Runs.Meets step Kept (start .default true 1500) (filledSchedule ++ [.finish 1 false false 2000001]) := by
  have hrun : ((Runs.exec step (start .default true 1500) filledSchedule).bind fun w : Work =>
      (w.step (.finish 1 false false 2000001)).map fun n : Work => decide (
        w.returned (.finish 1 false false 2000001) = some (7, 1) ∧ (7, 1) ∈ n.owed ∧
          ¬ Pends n.machine.queue.pending (7, 1) ∧ ∀ t ∈ ([0, 1, 2] : List ThreadId), ∀ f ∈ n.machine.threads t, f.batch = [])) =
      some true := by decide +kernel
  obtain ⟨w, hw, hrun⟩ := Option.bind_eq_some_iff.mp hrun
  obtain ⟨n, hn, hlost⟩ := Option.map_eq_some_iff.mp hrun
  obtain ⟨hreturned, howed, hpends, hcalls⟩ := of_decide_eq_true hlost
  refine ⟨⟨n, ?_, howed, hpends, hcalls⟩, fun h => ?_⟩
  · rw [Runs.exec_append, hw]
    exact Option.bind_eq_some_iff.mpr ⟨w, rfl, Option.bind_eq_some_iff.mpr ⟨n, hn, rfl⟩⟩
  · have hkept := (Runs.meets_iff_splits ..).mp h filledSchedule _ [] rfl w hw
    exact hpends ((hkept n hn).2 (7, 1) hreturned)

end Work
end SlsteamMoon.OwnerWork
