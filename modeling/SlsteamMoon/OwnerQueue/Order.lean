import SlsteamMoon.OwnerQueue.Locks

/-! The total order of the owner work: where every accepted record is until it has been
executed, and what the extra commands of runPendingThen wait for. -/
namespace SlsteamMoon.OwnerQueue

/-- The frame still has the record of this ticket to run. -/
def Frame.Holds (f : Frame) (k : Nat) : Prop := ∃ i ∈ f.batch, i.ticket = some k

/-- What is true of one call's frame on its own. -/
structure Frame.Sound (issued : Nat) (f : Frame) : Prop where
  bound_le : f.bound ≤ issued
  claimed_of_holds : ∀ k, f.Holds k → f.claimed = true
  extras_last : f.batch.Pairwise fun i j => i.ticket = none → j.ticket = none
  left : f.phase = .left → f.batch = []

theorem Frame.Sound.mono {issued later : Nat} {f : Frame} (h : f.Sound issued) (hle : issued ≤ later) :
    f.Sound later :=
  ⟨h.bound_le.trans hle, h.claimed_of_holds, h.extras_last, h.left⟩

/-- A frame that leads with an extra command has no record left. -/
theorem Frame.Sound.not_holds {issued k : Nat} {f : Frame} {i : Item} {tail : List Item}
    (h : f.Sound issued) (hbatch : f.batch = i :: tail) (hextra : i.ticket = none) : ¬ f.Holds k := by
  rintro ⟨j, hj, hk⟩
  have hpair := h.extras_last
  rw [hbatch] at hj hpair
  rcases List.mem_cons.mp hj with rfl | hj
  · rw [hextra] at hk
    cases hk
  · rw [(List.pairwise_cons.mp hpair).1 j hj hextra] at hk
    cases hk

/-- Moving on to the next item leaves the rest of the batch to run. -/
theorem Frame.Holds.tail {f : Frame} {k : Nat} {i : Item} {tail : List Item} (h : f.Holds k)
    (hbatch : f.batch = i :: tail) : i.ticket = some k ∨ ∃ j ∈ tail, j.ticket = some k := by
  obtain ⟨j, hj, hk⟩ := h
  rw [hbatch] at hj
  rcases List.mem_cons.mp hj with rfl | hj
  · exact .inl hk
  · exact .inr ⟨j, hj, hk⟩

namespace Machine

/-- The thread still has the record of this ticket to run. -/
def Held (m : Machine) (u : ThreadId) (k : Nat) : Prop := ∃ g ∈ m.threads u, g.Holds k

def Owns (m : Machine) (u : ThreadId) : Prop := ∃ d, m.exec = some (u, d)

/-- An accepted record is executed, pending or held, and every frame is sound. -/
structure Accounted (m : Machine) : Prop where
  aligned : m.tickets.length = m.queue.pending.length
  cover : ∀ k < m.issued, k ∈ m.executed ∨ k ∈ m.tickets ∨ ∃ u, m.Held u k
  sound : ∀ u, ∀ g ∈ m.threads u, g.Sound m.issued

private theorem accounted_start (b : Bounds) : (start b).Accounted where
  aligned := rfl
  cover k hk := by cases hk
  sound u g hg := by cases hg

theorem items_tickets {m : Machine} (h : m.tickets.length = m.queue.pending.length) :
    m.items.map Item.ticket = m.tickets.map some := by
  unfold items
  generalize m.queue.pending = entries at h
  generalize m.tickets = tickets at h
  induction tickets generalizing entries with
  | nil => rfl
  | cons k ks ih =>
    cases entries with
    | nil => cases h
    | cons e es => simpa using ih es (by simpa using h)

private theorem mem_items_iff {m : Machine} (h : m.tickets.length = m.queue.pending.length) (k : Nat) :
    (∃ i ∈ m.items, i.ticket = some k) ↔ k ∈ m.tickets := by
  have hmap : some k ∈ m.items.map Item.ticket ↔ some k ∈ m.tickets.map some := by
    rw [items_tickets h]
  simpa using hmap

private theorem items_pairwise {m : Machine} (h : m.tickets.length = m.queue.pending.length) :
    m.items.Pairwise fun i j => i.ticket = none → j.ticket = none := by
  rw [List.pairwise_iff_forall_sublist]
  intro i j hij hi
  have hmem : i.ticket ∈ m.items.map Item.ticket := List.mem_map_of_mem (hij.subset (by simp))
  rw [items_tickets h, hi] at hmem
  simp at hmem

private theorem held_top {m : Machine} {t : ThreadId} {f : Frame} {rest : List Frame} {k : Nat} (h : f.Holds k) :
    (m.stack t (f :: rest)).Held t k :=
  ⟨f, by simp, h⟩

private theorem executed_append (m : Machine) (i : Item) (k : Nat) :
    k ∈ Machine.executed { m with ran := m.ran ++ [i] } ↔
      k ∈ m.executed ∨ i.ticket = some k := by
  simp [executed]

private theorem moves_executed {m n : Machine} {e : Event} (hmove : Moves m e n) {k : Nat}
    (hk : k ∈ m.executed) : k ∈ n.executed := by
  cases hmove with
  | finishes t threw f rest i tail => exact (executed_append m i k).mpr (.inl hk)
  | _ => exact hk

/-- The frames of the other threads and those below the top are not touched. -/
theorem Held.retop {m x : Machine} {v t : ThreadId} {k : Nat} (h : m.Held v k) {f f' : Frame} {rest : List Frame}
    (hstack : m.threads t = f :: rest) (hx : x.threads = m.threads) (hf : f.Holds k → f'.Holds k) :
    (x.stack t (f' :: rest)).Held v k := by
  obtain ⟨g, hg, hk⟩ := h
  by_cases hvt : v = t
  · rw [hvt, hstack] at hg
    rcases List.mem_cons.mp hg with rfl | hg
    · exact ⟨f', (mem_stack ..).mpr (.inl ⟨hvt, by simp⟩), hf hk⟩
    · exact ⟨g, (mem_stack ..).mpr (.inl ⟨hvt, by simp [hg]⟩), hk⟩
  · exact ⟨g, (mem_stack ..).mpr (.inr ⟨hvt, hx ▸ hg⟩), hk⟩

theorem Held.called {m x : Machine} {v : ThreadId} {k : Nat} (h : m.Held v k) (t : ThreadId) (f : Frame)
    (hx : x.threads = m.threads) : (x.stack t (f :: m.threads t)).Held v k := by
  obtain ⟨g, hg, hk⟩ := h
  by_cases hvt : v = t
  · exact ⟨g, (mem_stack ..).mpr (.inl ⟨hvt, by simp [hvt ▸ hg]⟩), hk⟩
  · exact ⟨g, (mem_stack ..).mpr (.inr ⟨hvt, hx ▸ hg⟩), hk⟩

/-- What a thread holds it keeps until it has executed it. -/
theorem moves_held {m n : Machine} {e : Event} (h : m.Accounted) (hmove : Moves m e n) {v : ThreadId}
    {k : Nat} (hheld : m.Held v k) : k ∈ n.executed ∨ n.Held v k := by
  cases hmove with
  | pushed => exact .inr hheld
  | refused => exact .inr hheld
  | shuts => exact .inr hheld
  | claims _ t q => exact .inr (hheld.called t _ rfl)
  | calls t extra => exact .inr (hheld.called t _ rfl)
  | claimsInline t f rest q hstack =>
    refine .inr (hheld.retop hstack rfl ?_)
    rintro ⟨i, hi, hik⟩
    exact ⟨i, List.mem_append_right _ hi, hik⟩
  | refusedInline t f rest hstack => exact .inr (hheld.retop hstack rfl id)
  | counts t f rest hstack => exact .inr (hheld.retop hstack rfl id)
  | skips t f rest hstack => exact .inr (hheld.retop hstack rfl id)
  | enters t f rest d hstack => exact .inr (hheld.retop hstack rfl id)
  | starts t f rest hstack => exact .inr (hheld.retop hstack rfl id)
  | leaves t u d f rest hstack => exact .inr (hheld.retop hstack rfl id)
  | finishes t threw f rest i tail hstack hphase hbatch =>
    by_cases hi : i.ticket = some k
    · exact .inl ((executed_append m i k).mpr (.inr hi))
    · exact .inr (hheld.retop hstack rfl fun hf => (hf.tail hbatch).resolve_left hi)
  | releases t f rest hstack hphase =>
    obtain ⟨g, hg, hk⟩ := hheld
    refine .inr ⟨g, (mem_stack ..).mpr ?_, hk⟩
    by_cases hvt : v = t
    · rw [hvt, hstack] at hg
      rcases List.mem_cons.mp hg with rfl | hg
      · obtain ⟨i, hi, -⟩ := hk
        rw [(h.sound t g (by simp [hstack])).left hphase] at hi
        cases hi
      · exact .inl ⟨hvt, hg⟩
    · exact .inr ⟨hvt, hg⟩

/-- While the tickets stay, so does the account of every record. -/
theorem Accounted.cover_moves {m n : Machine} {e : Event} (h : m.Accounted) (hmove : Moves m e n)
    (hissued : n.issued = m.issued) (htickets : ∀ k ∈ m.tickets, k ∈ n.tickets ∨ ∃ u, n.Held u k) :
    ∀ k < n.issued, k ∈ n.executed ∨ k ∈ n.tickets ∨ ∃ u, n.Held u k := by
  intro k hk
  rcases h.cover k (hissued ▸ hk) with hx | ht | ⟨u, hu⟩
  · exact .inl (moves_executed hmove hx)
  · exact .inr (htickets k ht)
  · rcases moves_held h hmove hu with hx | hu
    · exact .inl hx
    · exact .inr (.inr ⟨u, hu⟩)

private theorem Accounted.sound_stack {m k : Machine} (h : m.Accounted) {t : ThreadId} {frames : List Frame}
    (hk : k.threads = m.threads) (hissued : k.issued = m.issued) (hframes : ∀ f ∈ frames, f.Sound m.issued) :
    ∀ u, ∀ g ∈ (k.stack t frames).threads u, g.Sound (k.stack t frames).issued := by
  intro u g hg
  rw [issued_stack, hissued]
  rcases (mem_stack ..).mp hg with ⟨-, hg⟩ | ⟨-, hg⟩
  · exact hframes g hg
  · exact h.sound u g (hk ▸ hg)

private theorem Accounted.sound_top {m : Machine} (h : m.Accounted) {t : ThreadId} {f f' : Frame} {rest : List Frame}
    (hstack : m.threads t = f :: rest) (hf : f'.Sound m.issued) : ∀ g ∈ f' :: rest, g.Sound m.issued := by
  intro g hg
  rcases List.mem_cons.mp hg with rfl | hg
  · exact hf
  · exact h.sound t g (by simp [hstack, hg])

/-- A move that replaces the top frame by a sound one and leaves the records pending. -/
theorem Accounted.retop {m k : Machine} {e : Event} {t : ThreadId} {f f' : Frame} {rest : List Frame}
    (h : m.Accounted) (hmove : Moves m e (k.stack t (f' :: rest))) (hstack : m.threads t = f :: rest)
    (hk : k.threads = m.threads) (hissued : k.issued = m.issued) (htickets : k.tickets = m.tickets)
    (hpending : k.queue.pending = m.queue.pending) (hf : f'.Sound m.issued) : (k.stack t (f' :: rest)).Accounted where
  aligned := by
    rw [tickets_stack, queue_stack, htickets, hpending]
    exact h.aligned
  cover := h.cover_moves hmove hissued fun r hr => .inl (by rwa [tickets_stack, htickets])
  sound := h.sound_stack hk hissued (h.sound_top hstack hf)

private theorem moves_accounted {m n : Machine} {e : Event} (h : m.Accounted) (hopen : e ≠ .shutdown)
    (hmove : Moves m e n) : n.Accounted := by
  have hmoved := hmove
  cases hmove with
  | shuts => exact absurd rfl hopen
  | refused => exact h
  | pushed _ q results hcontrol hpushes =>
    refine ⟨?_, fun k hk => ?_, fun u g hg => (h.sound u g hg).mono (Nat.le_add_right _ _)⟩
    · simp only [accept, List.length_append, List.length_range', h.aligned, hpushes.length]
    · by_cases hnew : k < m.issued
      · rcases h.cover k hnew with hx | ht | hu
        · exact .inl hx
        · exact .inr (.inl (List.mem_append_left _ ht))
        · exact .inr (.inr hu)
      · have hk : k < m.issued + results.count .queued := hk
        refine .inr (.inl (List.mem_append_right _ ?_))
        rw [List.mem_range'_1]
        omega
  | claims _ t q hcall hclaims =>
    refine ⟨by simp [hclaims.pending], h.cover_moves hmoved rfl fun k hk => .inr ⟨t, held_top ?_⟩,
      h.sound_stack rfl rfl fun g hg => ?_⟩
    · exact (mem_items_iff h.aligned k).mpr hk
    · rcases List.mem_cons.mp hg with rfl | hg
      · exact ⟨Nat.zero_le _, fun _ _ => rfl, items_pairwise h.aligned, by simp⟩
      · exact h.sound t g hg
  | calls t extra hcall =>
    refine ⟨h.aligned, h.cover_moves hmoved rfl fun k hk => .inl hk, h.sound_stack rfl rfl ?_⟩
    intro g hg
    rcases List.mem_cons.mp hg with rfl | hg
    · refine ⟨le_rfl, ?_, ?_, by simp⟩
      · rintro k ⟨i, hi, hk⟩
        obtain ⟨c, -, rfl⟩ := List.mem_map.mp hi
        cases hk
      · rw [List.pairwise_map]
        exact List.pairwise_of_forall fun _ _ _ => rfl
    · exact h.sound t g hg
  | claimsInline t f rest q hstack hphase hclaims =>
    have hf := h.sound t f (by simp [hstack])
    refine ⟨by simp [hclaims.pending], h.cover_moves hmoved rfl fun k hk => .inr ⟨t, held_top ?_⟩,
      h.sound_stack rfl rfl (h.sound_top hstack ?_)⟩
    · obtain ⟨i, hi, hik⟩ := (mem_items_iff h.aligned k).mpr hk
      exact ⟨i, List.mem_append_left _ hi, hik⟩
    · refine ⟨hf.bound_le, fun _ _ => rfl, ?_, by simp⟩
      refine List.pairwise_append.mpr ⟨items_pairwise h.aligned, hf.extras_last, fun i hi j hj hnone => ?_⟩
      have hmem : i.ticket ∈ m.items.map Item.ticket := List.mem_map_of_mem hi
      rw [items_tickets h.aligned, hnone] at hmem
      simp at hmem
  | refusedInline t f rest hstack hphase =>
    have hf := h.sound t f (by simp [hstack])
    exact h.retop hmoved hstack rfl rfl rfl rfl ⟨hf.bound_le, hf.claimed_of_holds, hf.extras_last, by simp⟩
  | counts t f rest hstack hphase =>
    have hf := h.sound t f (by simp [hstack])
    exact h.retop hmoved hstack rfl rfl rfl rfl ⟨hf.bound_le, hf.claimed_of_holds, hf.extras_last, by simp⟩
  | skips t f rest hstack hphase hbatch =>
    have hf := h.sound t f (by simp [hstack])
    exact h.retop hmoved hstack rfl rfl rfl rfl ⟨hf.bound_le, hf.claimed_of_holds, hf.extras_last, fun _ => hbatch⟩
  | enters t f rest d hstack hphase =>
    have hf := h.sound t f (by simp [hstack])
    exact h.retop hmoved hstack rfl rfl rfl rfl ⟨hf.bound_le, hf.claimed_of_holds, hf.extras_last, by simp⟩
  | starts t f rest hstack hphase =>
    have hf := h.sound t f (by simp [hstack])
    exact h.retop hmoved hstack rfl rfl rfl rfl ⟨hf.bound_le, hf.claimed_of_holds, hf.extras_last, by simp⟩
  | finishes t threw f rest i tail hstack hphase hbatch =>
    have hf := h.sound t f (by simp [hstack])
    have htail := hf.extras_last
    rw [hbatch] at htail
    refine h.retop hmoved hstack rfl rfl rfl rfl
      ⟨hf.bound_le, fun k hk => hf.claimed_of_holds k ?_, (List.pairwise_cons.mp htail).2, by simp⟩
    obtain ⟨j, hj, hjk⟩ := hk
    exact ⟨j, by rw [hbatch]; exact List.mem_cons_of_mem i hj, hjk⟩
  | leaves t u d f rest hstack hphase hbatch =>
    have hf := h.sound t f (by simp [hstack])
    exact h.retop hmoved hstack rfl rfl rfl rfl ⟨hf.bound_le, hf.claimed_of_holds, hf.extras_last, fun _ => hbatch⟩
  | releases t f rest hstack hphase =>
    refine ⟨?_, h.cover_moves hmoved rfl fun k hk => .inl hk, h.sound_stack rfl rfl ?_⟩
    · simp only [queue_stack, tickets_stack]
      split <;> exact h.aligned
    · exact fun g hg => h.sound t g (by simp [hstack, hg])

/-- The record has been executed, is in this frame's own batch, or belongs to another
thread that is inside its execution window. -/
def Awaits (m : Machine) (u : ThreadId) (g : Frame) (k : Nat) : Prop :=
  k ∈ m.executed ∨ g.Holds k ∨ ∃ v, v ≠ u ∧ m.Owns v ∧ m.Held v k

/-- Every call past its claim section has an account of what was accepted before it. -/
def Awaited (m : Machine) : Prop :=
  ∀ u, ∀ g ∈ m.threads u, g.phase ≠ .called → ∀ k < g.bound, m.Awaits u g k

/-- A thread inside its window keeps the execution mutex while it holds a record. -/
theorem moves_owner {m n : Machine} {e : Event} (hacc : m.Accounted) (hex : m.ExecHeld)
    (hmove : Moves m e n) {v : ThreadId} {k : Nat} (howns : m.Owns v) (hheld : m.Held v k) :
    k ∈ n.executed ∨ n.Owns v ∧ n.Held v k := by
  refine (moves_held hacc hmove hheld).imp id fun hn => ⟨?_, hn⟩
  obtain ⟨d, hd⟩ := howns
  cases hmove with
  | enters t f rest d' hstack hphase hexec =>
    rcases hexec with ⟨hnone, -⟩ | hsome
    · rw [hnone] at hd
      cases hd
    · rw [hsome] at hd
      obtain ⟨rfl, -⟩ := Prod.mk.inj (Option.some.inj hd)
      exact ⟨d' + 1, rfl⟩
  | leaves t u d' f rest hstack hphase hbatch hexec =>
    have howner := hex.owner (g := f) (u := t) (by simp [hstack]) (by simp [Frame.inside, hphase])
    rw [hexec] at hd howner
    obtain ⟨rfl, rfl⟩ := Prod.mk.inj (Option.some.inj hd)
    obtain ⟨rfl, -⟩ := Prod.mk.inj (Option.some.inj howner)
    -- its empty top frame is not the one that holds the record, so it is nested
    obtain ⟨g, hg, i, hi, -⟩ := hheld
    have hrest : g ∈ rest := by
      rw [hstack] at hg
      rcases List.mem_cons.mp hg with rfl | hg
      · rw [hbatch] at hi
        cases hi
      · exact hg
    have hin : g.inside = true := by
      simp [Frame.inside, hex.nested u g (by rw [hstack]; exact hrest)]
    have hcount := hex.count u
    rw [hstack, List.countP_cons, hexec, depthOf_some, if_pos rfl] at hcount
    have hpos : 0 < rest.countP Frame.inside := List.countP_pos_iff.mpr ⟨g, hrest, hin⟩
    have htop : f.inside = true := by simp [Frame.inside, hphase]
    rw [if_pos htop] at hcount
    refine ⟨d' - 1, ?_⟩
    simp only [exec_stack]
    rw [if_neg (by omega)]
  | _ => exact ⟨d, hd⟩

/-- Where a frame past its claim section comes from: a call that promises nothing, the
frame it was before the step, or the claim section itself. -/
inductive Origin (m n : Machine) (e : Event) (u : ThreadId) (g : Frame) : Prop
  | fresh (hbound : g.bound = 0)
  | kept (f : Frame) (hf : f ∈ m.threads u) (hphase : f.phase ≠ .called) (hbound : f.bound = g.bound)
      (hholds : ∀ k, f.Holds k → k ∈ n.executed ∨ g.Holds k)
  | refused (f : Frame) (rest : List Frame) (he : e = .claimInline u) (hstack : m.threads u = f :: rest)
      (hbound : f.bound = g.bound) (hexecuting : m.queue.executing = true)
  | taken (f : Frame) (rest : List Frame) (hstack : m.threads u = f :: rest)
      (hbound : f.bound = g.bound) (hidle : m.queue.executing = false) (hbatch : g.batch = m.items ++ f.batch)

private theorem moves_origin {m n : Machine} {e : Event} (hmove : Moves m e n) {u : ThreadId} {g : Frame}
    (hg : g ∈ n.threads u) (hphase : g.phase ≠ .called) : Origin m n e u g := by
  have hold : g ∈ m.threads u → Origin m n e u g := fun hgm => .kept g hgm hphase rfl fun _ => .inr
  have htop : ∀ (x : Machine) (t : ThreadId) (f f' : Frame) (rest : List Frame),
      g ∈ (x.stack t (f' :: rest)).threads u → x.threads = m.threads → m.threads t = f :: rest →
      (u = t → g = f' → Origin m n e u g) → Origin m n e u g := by
    intro x t f f' rest hmem hx hstack hf
    rcases (mem_stack ..).mp hmem with ⟨hu, hmem⟩ | ⟨-, hmem⟩
    · rcases List.mem_cons.mp hmem with hgf | hmem
      · exact hf hu hgf
      · exact hold (by simp [hu, hstack, hmem])
    · exact hold (hx ▸ hmem)
  cases hmove with
  | pushed => exact hold hg
  | refused => exact hold hg
  | shuts => exact hold hg
  | claims _ t q =>
    rcases (mem_stack ..).mp hg with ⟨rfl, hg⟩ | ⟨-, hg⟩
    · rcases List.mem_cons.mp hg with rfl | hg
      · exact .fresh rfl
      · exact hold hg
    · exact hold hg
  | calls t extra =>
    rcases (mem_stack ..).mp hg with ⟨rfl, hg⟩ | ⟨-, hg⟩
    · rcases List.mem_cons.mp hg with rfl | hg
      · exact absurd rfl hphase
      · exact hold hg
    · exact hold hg
  | claimsInline t f rest q hstack hcalled hclaims =>
    refine htop _ t f _ rest hg rfl hstack ?_
    rintro rfl rfl
    exact .taken f rest hstack rfl hclaims.idle rfl
  | refusedInline t f rest hstack hcalled hexecuting =>
    refine htop m t f _ rest hg rfl hstack ?_
    rintro rfl rfl
    exact .refused f rest rfl hstack rfl hexecuting
  | counts t f rest hstack hf =>
    refine htop _ t f _ rest hg rfl hstack ?_
    rintro rfl rfl
    exact .kept f (by simp [hstack]) (by simp [hf]) rfl fun _ => .inr
  | skips t f rest hstack hf =>
    refine htop m t f _ rest hg rfl hstack ?_
    rintro rfl rfl
    exact .kept f (by simp [hstack]) (by simp [hf]) rfl fun _ => .inr
  | enters t f rest d hstack hf =>
    refine htop _ t f _ rest hg rfl hstack ?_
    rintro rfl rfl
    exact .kept f (by simp [hstack]) (by simp [hf]) rfl fun _ => .inr
  | starts t f rest hstack hf =>
    refine htop m t f _ rest hg rfl hstack ?_
    rintro rfl rfl
    exact .kept f (by simp [hstack]) (by simp [hf]) rfl fun _ => .inr
  | leaves t v d f rest hstack hf =>
    refine htop _ t f _ rest hg rfl hstack ?_
    rintro rfl rfl
    exact .kept f (by simp [hstack]) (by simp [hf]) rfl fun _ => .inr
  | finishes t threw f rest i tail hstack hf hbatch =>
    refine htop _ t f _ rest hg rfl hstack ?_
    rintro rfl rfl
    refine .kept f (by simp [hstack]) (by simp [hf]) rfl fun k hk => ?_
    exact (hk.tail hbatch).imp (fun hi => (executed_append m i k).mpr (.inr hi)) fun ht => ht
  | releases t f rest hstack =>
    rcases (mem_stack ..).mp hg with ⟨hu, hg⟩ | ⟨-, hg⟩
    · exact hold (by simp [hu, hstack, hg])
    · exact hold hg

/-- A runPendingThen call takes the claim, or finds what was accepted before it neither
pending nor held by anyone but another thread inside its execution window. -/
def ClaimsInOrder (m : Machine) : Event → Prop
  | .claimInline t => m.queue.executing = true → ∀ f rest, m.threads t = f :: rest →
      ∀ k < f.bound, k ∉ m.tickets ∧ ∀ u, m.Held u k → u ≠ t ∧ m.Owns u
  | _ => True

private theorem moves_awaited {m n : Machine} {e : Event} (hacc : m.Accounted) (hex : m.ExecHeld)
    (hclaim : m.ClaimHeld) (h : m.Awaited) (horder : m.ClaimsInOrder e) (hmove : Moves m e n) :
    n.Awaited := by
  intro u g hg hphase k hk
  have hcover : ∀ f rest, m.threads u = f :: rest → f.bound = g.bound →
      k ∈ m.executed ∨ k ∈ m.tickets ∨ ∃ v, m.Held v k := by
    intro f rest hstack hbound
    have hle := (hacc.sound u f (by simp [hstack])).bound_le
    exact hacc.cover k (by omega)
  cases moves_origin hmove hg hphase with
  | fresh hzero => omega
  | kept f hf hcalled hbound hholds =>
    rcases h u f hf hcalled k (hbound ▸ hk) with hx | hfk | ⟨v, hvu, howns, hheld⟩
    · exact .inl (moves_executed hmove hx)
    · exact (hholds k hfk).imp id .inl
    · exact (moves_owner hacc hex hmove howns hheld).imp id fun hv => .inr ⟨v, hvu, hv⟩
  | refused f rest he hstack hbound hexecuting =>
    subst he
    obtain ⟨hpending, hheld⟩ := horder hexecuting f rest hstack k (hbound ▸ hk)
    rcases hcover f rest hstack hbound with hx | ht | ⟨v, hv⟩
    · exact .inl (moves_executed hmove hx)
    · exact absurd ht hpending
    · obtain ⟨hvu, howns⟩ := hheld v hv
      exact (moves_owner hacc hex hmove howns hv).imp id fun hn => .inr ⟨v, hvu, hn⟩
  | taken f rest hstack hbound hidle hbatch =>
    rcases hcover f rest hstack hbound with hx | ht | ⟨v, x, hx, hxk⟩
    · exact .inl (moves_executed hmove hx)
    · obtain ⟨i, hi, hik⟩ := (mem_items_iff hacc.aligned k).mpr ht
      exact .inr (.inl ⟨i, by rw [hbatch]; exact List.mem_append_left _ hi, hik⟩)
    · have hclaimed := (hacc.sound v x hx).claimed_of_holds k hxk
      rw [hclaim.unclaimed hidle hx] at hclaimed
      cases hclaimed

/-- What is true of the queue and its threads on every open run. -/
structure Consistent (m : Machine) : Prop where
  claim : m.ClaimHeld
  exec : m.ExecHeld
  accounted : m.Accounted

theorem consistent_start (b : Bounds) : (start b).Consistent :=
  ⟨claimHeld_start b, execHeld_start b, accounted_start b⟩

theorem step_consistent {m n : Machine} {e : Event} (h : m.Consistent) (hopen : e ≠ .shutdown)
    (hstep : m.step e = some n) : n.Consistent := by
  have hmove := step_moves hstep
  exact ⟨moves_claimHeld h.claim hmove, moves_execHeld h.exec hmove,
    moves_accounted h.accounted hopen hmove⟩

theorem run_consistent {m n : Machine} {es : List Event} (h : m.Consistent)
    (hopen : ∀ e ∈ es, e ≠ .shutdown) (hrun : Runs.exec step m es = some n) : n.Consistent := by
  have hmeets : Runs.Meets step (fun _ e => e ≠ .shutdown) m es :=
    Runs.meets_of_forall (fun e he _ => hopen e he) m
  exact Runs.exec_invariant (fun _ _ _ hs hok hstep => step_consistent hs hok hstep) h hmeets hrun

/-- What holds besides on the runs whose refused claims come in order. -/
structure Ordered (m : Machine) : Prop extends Consistent m where
  awaited : m.Awaited

private theorem ordered_start (b : Bounds) : (start b).Ordered :=
  ⟨consistent_start b, fun _ _ hg => by cases hg⟩

private theorem step_ordered {m n : Machine} {e : Event} (h : m.Ordered)
    (hok : e ≠ .shutdown ∧ m.ClaimsInOrder e) (hstep : m.step e = some n) : n.Ordered :=
  ⟨step_consistent h.toConsistent hok.1 hstep,
    moves_awaited h.accounted h.exec h.claim h.awaited hok.2 (step_moves hstep)⟩

/-- A command that runs as an extra of runPendingThen has waited for every record that
was accepted before its call. -/
def StartsInOrder (m : Machine) : Prop :=
  ∀ t, ∀ f ∈ m.threads t, f.phase = .running → ∀ i tail, f.batch = i :: tail → i.ticket = none →
    ∀ k < f.bound, k ∈ m.executed

private theorem Ordered.startsInOrder {m : Machine} (h : m.Ordered) : m.StartsInOrder := by
  intro t f hf hrunning i tail hbatch hextra k hk
  rcases h.awaited t f hf (by simp [hrunning]) k hk with hx | hholds | ⟨v, hvt, ⟨d, hd⟩, -⟩
  · exact hx
  · exact absurd hholds ((h.accounted.sound t f hf).not_holds hbatch hextra)
  · have howner := h.exec.owner hf (by simp [Frame.inside, hrunning])
    rw [hd] at howner
    exact absurd (Prod.mk.inj (Option.some.inj howner)).1 hvt

/-- On an open queue whose refused inline claims come after the execution window they
rely on, no extra command starts before the records accepted ahead of its call. -/
theorem run_pending_then_in_order (b : Bounds) (es : List Event) (m : Machine)
    (hok : Runs.Meets step (fun m e => e ≠ .shutdown ∧ ClaimsInOrder m e) (start b) es)
    (hrun : Runs.exec step (start b) es = some m) : m.StartsInOrder :=
  (Runs.exec_invariant (P := Ordered) (fun _ _ _ h hok hstep => step_ordered h hok hstep)
    (ordered_start b) hok hrun).startsInOrder

def takenSchedule : List Event :=
  [.push .reconcileLicenses 1, .runPendingThen 1 [.installApp 8 0], .claimInline 1, .countInline 1,
    .enter 1, .start 1, .finish 1 false, .start 1]

/-- The pending record runs first, then the extra one starts. -/
theorem run_pending_then_in_order_when_taken :
    ∃ m, Runs.exec step (start .default) takenSchedule = some m ∧ m.StartsInOrder ∧ m.executed = [0] := by
  refine ⟨_, rfl, run_pending_then_in_order .default takenSchedule _ ?_ rfl, rfl⟩
  refine .step rfl ⟨by decide, trivial⟩ (.step rfl ⟨by decide, trivial⟩ (.step rfl ⟨by decide, ?_⟩ ?_))
  · exact fun hexecuting => by cases hexecuting
  · exact .step rfl ⟨by decide, trivial⟩ (.step rfl ⟨by decide, trivial⟩ (.step rfl ⟨by decide, trivial⟩
      (.step rfl ⟨by decide, trivial⟩ (.step rfl ⟨by decide, trivial⟩ trivial))))

/-- Thread 0 has claimed a record and is not in its window yet, another record is
pending, and thread 1 starts its extra command before both. -/
def raceSchedule : List Event :=
  [.push .reconcileLicenses 1, .drain 0, .push (.installApp 7 0) 2, .runPendingThen 1 [.installApp 8 0],
    .claimInline 1, .countInline 1, .enter 1, .start 1]

theorem run_pending_then_overtakes :
    (∀ e ∈ raceSchedule, e ≠ .shutdown) ∧
      ∃ m, Runs.exec step (start .default) raceSchedule = some m ∧ m.executed = [] ∧ ¬ m.StartsInOrder := by
  refine ⟨by decide, _, rfl, rfl, fun h => ?_⟩
  have hzero := h 1 ⟨.running, [⟨none, .installApp 8 0⟩], false, 2⟩ (by decide) rfl _ _ rfl rfl 0 (by decide)
  exact absurd hzero (by decide)

end Machine
end SlsteamMoon.OwnerQueue
