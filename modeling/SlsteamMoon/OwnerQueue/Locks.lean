import SlsteamMoon.OwnerQueue.Machine

/-! What the two locks mean on every reachable state: the executing flag is held by
the one frame that claimed, and the execution mutex by the thread inside runBatch. -/
namespace SlsteamMoon.OwnerQueue

/-- Between the acquisition of the execution mutex and its release. -/
def Frame.inside (f : Frame) : Bool := f.phase = .window ∨ f.phase = .running

/-- How often a thread holds what one thread at a time can hold. -/
def depthOf : Option (ThreadId × Nat) → ThreadId → Nat
  | some (t, d), u => if t = u then d else 0
  | none, _ => 0

@[simp] theorem depthOf_none (u : ThreadId) : depthOf none u = 0 := rfl

@[simp] theorem depthOf_some (t u : ThreadId) (d : Nat) :
    depthOf (some (t, d)) u = if t = u then d else 0 := rfl

private theorem eq_of_depthOf_pos {held : Option (ThreadId × Nat)} {u : ThreadId} (h : 0 < depthOf held u) :
    held = some (u, depthOf held u) := by
  match held with
  | none => simp at h
  | some (t, d) =>
    by_cases htu : t = u
    · simp [htu]
    · simp [htu] at h

namespace Machine

theorem threads_stack (m : Machine) (t u : ThreadId) (frames : List Frame) :
    (m.stack t frames).threads u = if u = t then frames else m.threads u := by
  simp [stack, Function.update_apply]

@[simp] theorem threads_stack_self (m : Machine) (t : ThreadId) (frames : List Frame) :
    (m.stack t frames).threads t = frames := by
  simp [threads_stack]

@[simp] theorem queue_stack (m : Machine) (t : ThreadId) (frames : List Frame) :
    (m.stack t frames).queue = m.queue := rfl

@[simp] theorem tickets_stack (m : Machine) (t : ThreadId) (frames : List Frame) :
    (m.stack t frames).tickets = m.tickets := rfl

@[simp] theorem issued_stack (m : Machine) (t : ThreadId) (frames : List Frame) :
    (m.stack t frames).issued = m.issued := rfl

@[simp] theorem exec_stack (m : Machine) (t : ThreadId) (frames : List Frame) :
    (m.stack t frames).exec = m.exec := rfl

@[simp] theorem executed_stack (m : Machine) (t : ThreadId) (frames : List Frame) :
    (m.stack t frames).executed = m.executed := rfl

theorem mem_stack (m : Machine) (t u : ThreadId) (frames : List Frame) (g : Frame) :
    g ∈ (m.stack t frames).threads u ↔ u = t ∧ g ∈ frames ∨ u ≠ t ∧ g ∈ m.threads u := by
  rw [threads_stack]
  split <;> simp [*]

private theorem countP_stack (m : Machine) (p : Frame → Bool) (t u : ThreadId) (frames : List Frame) :
    ((m.stack t frames).threads u).countP p = if u = t then frames.countP p else (m.threads u).countP p := by
  rw [threads_stack]
  split <;> rfl

/-- The executing flag is up exactly while one frame, of one thread, holds a claim. -/
def ClaimHeld (m : Machine) : Prop :=
  ∃ holder : Option ThreadId, m.queue.executing = holder.isSome ∧
    ∀ u, (m.threads u).countP Frame.claimed = depthOf (holder.map (·, 1)) u

theorem claimHeld_start (b : Bounds) : (start b).ClaimHeld := ⟨none, rfl, fun _ => rfl⟩

/-- With the flag down no frame holds a claim. -/
theorem ClaimHeld.unclaimed {m : Machine} (h : m.ClaimHeld) (hidle : m.queue.executing = false)
    {u : ThreadId} {g : Frame} (hg : g ∈ m.threads u) : g.claimed = false := by
  obtain ⟨holder, hflag, hcount⟩ := h
  rw [hidle] at hflag
  have hnone : holder = none := by simpa using hflag.symm
  have hzero := hcount u
  rw [hnone] at hzero
  have := List.countP_eq_zero.mp hzero g hg
  simpa using this

private theorem eq_of_countP_one {α : Type*} {p : α → Bool} {l : List α} (h : l.countP p = 1) {a b : α}
    (ha : a ∈ l) (hb : b ∈ l) (hpa : p a = true) (hpb : p b = true) : a = b := by
  rw [List.countP_eq_length_filter] at h
  obtain ⟨c, hc⟩ := List.length_eq_one_iff.mp h
  have hac : a ∈ l.filter p := List.mem_filter.mpr ⟨ha, hpa⟩
  have hbc : b ∈ l.filter p := List.mem_filter.mpr ⟨hb, hpb⟩
  rw [hc, List.mem_singleton] at hac hbc
  exact hac.trans hbc.symm

/-- There is one claim. -/
theorem ClaimHeld.unique {m : Machine} (h : m.ClaimHeld) {u v : ThreadId} {f g : Frame}
    (hf : f ∈ m.threads u) (hg : g ∈ m.threads v) (hfc : f.claimed = true) (hgc : g.claimed = true) :
    u = v ∧ f = g := by
  obtain ⟨holder, -, hcount⟩ := h
  have howner : ∀ w x, x ∈ m.threads w → x.claimed = true → holder = some w := by
    intro w x hx hxc
    have hpos : 0 < (m.threads w).countP Frame.claimed := List.countP_pos_iff.mpr ⟨x, hx, hxc⟩
    rw [hcount w] at hpos
    have hsome := eq_of_depthOf_pos hpos
    cases hholder : holder with
    | none => simp [hholder] at hsome
    | some t => simpa [hholder] using (Prod.mk.inj (Option.some.inj (hholder ▸ hsome))).1
  have hu := howner u f hf hfc
  have hv := howner v g hg hgc
  obtain rfl : u = v := Option.some.inj (hu.symm.trans hv)
  have hone : (m.threads u).countP Frame.claimed = 1 := by
    rw [hcount u, hu]
    simp
  exact ⟨rfl, eq_of_countP_one hone hf hg hfc hgc⟩

/-- A new top of the same kind keeps every thread's count of that kind. -/
theorem countP_replaced {m k : Machine} {p : Frame → Bool} {t : ThreadId} {f g : Frame} {rest : List Frame}
    (hstack : m.threads t = f :: rest) (hp : p g = p f) (hk : k.threads = m.threads) (u : ThreadId) :
    ((k.stack t (g :: rest)).threads u).countP p = (m.threads u).countP p := by
  rw [countP_stack, hk]
  split
  · rename_i hu
    rw [hu, hstack, List.countP_cons, List.countP_cons, hp]
  · rfl

theorem moves_claimHeld {m n : Machine} {e : Event} (h : m.ClaimHeld) (hmove : Moves m e n) :
    n.ClaimHeld := by
  obtain ⟨holder, hflag, hcount⟩ := h
  -- a frame that replaces the top one with the same claim keeps every count
  have hkeep : ∀ (k : Machine) (t : ThreadId) (f g : Frame) (rest : List Frame),
      m.threads t = f :: rest → g.claimed = f.claimed → k.threads = m.threads →
      ∀ u, ((k.stack t (g :: rest)).threads u).countP Frame.claimed = depthOf (holder.map (·, 1)) u := by
    intro k t f g rest hstack hg hk u
    rw [countP_replaced hstack hg hk, hcount u]
  cases hmove with
  | pushed _ q results hcontrol => exact ⟨holder, hcontrol.executing.trans hflag, hcount⟩
  | refused => exact ⟨holder, hflag, hcount⟩
  | claims _ t q hcall hclaims =>
    have hnone : holder = none := by simpa [hclaims.idle] using hflag.symm
    refine ⟨some t, hclaims.executing, fun u => ?_⟩
    rw [countP_stack]
    have hu := hcount u
    have ht := hcount t
    split <;> grind [depthOf]
  | calls t extra hcall =>
    refine ⟨holder, hflag, fun u => ?_⟩
    rw [countP_stack]
    split
    · rename_i hu
      rw [List.countP_cons, ← hu, hcount u]
      simp
    · exact hcount u
  | claimsInline t f rest q hstack hphase hclaims =>
    have hnone : holder = none := by simpa [hclaims.idle] using hflag.symm
    refine ⟨some t, hclaims.executing, fun u => ?_⟩
    rw [countP_stack]
    have hu := hcount u
    have ht := hcount t
    rw [hstack] at ht
    split <;> grind [depthOf]
  | refusedInline t f rest hstack => exact ⟨holder, hflag, hkeep m t f _ rest hstack rfl rfl⟩
  | counts t f rest hstack => exact ⟨holder, hflag, hkeep _ t f _ rest hstack rfl rfl⟩
  | skips t f rest hstack => exact ⟨holder, hflag, hkeep m t f _ rest hstack rfl rfl⟩
  | enters t f rest d hstack => exact ⟨holder, hflag, hkeep _ t f _ rest hstack rfl rfl⟩
  | starts t f rest hstack => exact ⟨holder, hflag, hkeep m t f _ rest hstack rfl rfl⟩
  | finishes t threw f rest i tail hstack => exact ⟨holder, hflag, hkeep _ t f _ rest hstack rfl rfl⟩
  | leaves t u d f rest hstack => exact ⟨holder, hflag, hkeep _ t f _ rest hstack rfl rfl⟩
  | releases t f rest hstack hphase =>
    have ht := hcount t
    rw [hstack, List.countP_cons] at ht
    cases hf : f.claimed with
    | false =>
      refine ⟨holder, by simpa [hf] using hflag, fun u => ?_⟩
      rw [countP_stack]
      have hu := hcount u
      split <;> simp_all
    | true =>
      refine ⟨none, by simp [Queue.releaseExecuting], fun u => ?_⟩
      rw [countP_stack]
      have hu := hcount u
      cases holder <;> grind [depthOf]
  | shuts =>
    refine ⟨holder, ?_, hcount⟩
    simp only [Queue.shutdown]
    split <;> exact hflag

/-- The execution mutex is held by exactly the thread that is inside, as deep as it
is nested; below the top of a stack every call waits inside a command's run. -/
structure ExecHeld (m : Machine) : Prop where
  count : ∀ u, (m.threads u).countP Frame.inside = depthOf m.exec u
  pos : ∀ t d, m.exec = some (t, d) → 0 < d
  nested : ∀ u, ∀ g ∈ (m.threads u).tail, g.phase = .running

theorem execHeld_start (b : Bounds) : (start b).ExecHeld where
  count _ := rfl
  pos _ _ h := by cases h
  nested _ g hg := by cases hg

/-- Whoever has a frame inside owns the execution mutex. -/
theorem ExecHeld.owner {m : Machine} (h : m.ExecHeld) {u : ThreadId} {g : Frame}
    (hg : g ∈ m.threads u) (hin : g.inside = true) : m.exec = some (u, depthOf m.exec u) := by
  apply eq_of_depthOf_pos
  rw [← h.count u]
  exact List.countP_pos_iff.mpr ⟨g, hg, hin⟩

/-- A call that is not inside yet, on top of the stack. -/
theorem ExecHeld.called {m k : Machine} (h : m.ExecHeld) {t : ThreadId} {g : Frame} (hmay : m.mayCall t)
    (hg : g.inside = false) (hk : k.threads = m.threads) (he : k.exec = m.exec) :
    (k.stack t (g :: m.threads t)).ExecHeld := by
  refine ⟨fun u => ?_, fun u d hd => h.pos u d (he ▸ hd), fun u f hf => ?_⟩
  · rw [countP_stack, hk, exec_stack, he, ← h.count u]
    split
    · rename_i hu
      rw [List.countP_cons, hu, hg]
      simp
    · rfl
  · rw [threads_stack, hk] at hf
    split at hf
    · rw [List.tail_cons] at hf
      unfold mayCall at hmay
      split at hmay
      · rename_i hnil
        rw [hnil] at hf
        cases hf
      · rename_i top rest hstack
        rw [hstack] at hf
        rcases List.mem_cons.mp hf with rfl | hf
        · simpa using hmay
        · exact h.nested t f (by rw [hstack]; exact hf)
    · exact h.nested u f hf

/-- A new top leaves the frames below it as they are. -/
theorem ExecHeld.nested_top {m k : Machine} (h : m.ExecHeld) {t : ThreadId} {f g : Frame} {rest : List Frame}
    (hstack : m.threads t = f :: rest) (hk : k.threads = m.threads) :
    ∀ u, ∀ x ∈ ((k.stack t (g :: rest)).threads u).tail, x.phase = .running := by
  intro u x hx
  rw [threads_stack, hk] at hx
  split at hx
  · exact h.nested t x (by rw [hstack]; exact hx)
  · exact h.nested u x hx

/-- A top frame replaced by one that is inside exactly when it was. -/
theorem ExecHeld.replaced {m k : Machine} (h : m.ExecHeld) {t : ThreadId} {f g : Frame} {rest : List Frame}
    (hstack : m.threads t = f :: rest) (hg : g.inside = f.inside) (hk : k.threads = m.threads)
    (he : k.exec = m.exec) : (k.stack t (g :: rest)).ExecHeld := by
  refine ⟨fun u => ?_, fun u d hd => h.pos u d (he ▸ hd), h.nested_top hstack hk⟩
  rw [countP_replaced hstack hg hk, exec_stack, he, h.count u]

/-- The mutex is free or this thread's own, one level deeper now. -/
theorem ExecHeld.entered {m : Machine} (h : m.ExecHeld) {t : ThreadId} {f : Frame} {rest : List Frame} {d : Nat}
    (hstack : m.threads t = f :: rest) (hphase : f.phase = .waiting)
    (hexec : m.exec = none ∧ d = 0 ∨ m.exec = some (t, d)) :
    ({ m with exec := some (t, d + 1) }.stack t ({ f with phase := .window } :: rest)).ExecHeld := by
  refine ⟨fun u => ?_, fun u k hk => ?_, h.nested_top hstack rfl⟩
  · rw [countP_stack]
    have hu := h.count u
    have ht := h.count t
    rw [hstack, List.countP_cons] at ht
    have hf : f.inside = false := by simp [Frame.inside, hphase]
    rcases hexec with ⟨hnone, rfl⟩ | hsome
    · rw [hnone] at hu ht
      by_cases hut : u = t
      · simp_all [Frame.inside]
      · simp_all [Ne.symm hut]
    · rw [hsome] at hu ht
      by_cases hut : u = t
      · simp_all [Frame.inside]
      · simp_all [Ne.symm hut]
  · obtain ⟨-, rfl⟩ := Prod.mk.inj (Option.some.inj hk)
    omega

/-- The thread that leaves owns the mutex, and gives up one level of it. -/
theorem ExecHeld.left {m : Machine} (h : m.ExecHeld) {t u : ThreadId} {d : Nat} {f : Frame} {rest : List Frame}
    (hstack : m.threads t = f :: rest) (hphase : f.phase = .window) (hexec : m.exec = some (u, d)) :
    ({ m with exec := if d ≤ 1 then none else some (t, d - 1) }.stack t
      ({ f with phase := .left } :: rest)).ExecHeld := by
  have howner := h.owner (g := f) (u := t) (by simp [hstack]) (by simp [Frame.inside, hphase])
  rw [hexec] at howner
  obtain ⟨rfl, -⟩ := Prod.mk.inj (Option.some.inj howner)
  have ht := h.count u
  rw [hstack, List.countP_cons, hexec] at ht
  have hf : f.inside = true := by simp [Frame.inside, hphase]
  refine ⟨fun v => ?_, fun v k hk => ?_, h.nested_top hstack rfl⟩
  · have hv := h.count v
    rw [hexec, depthOf_some] at hv
    rw [countP_stack, exec_stack]
    by_cases hvu : v = u
    · subst hvu
      have hleft : Frame.inside { f with phase := .left } = false := by simp [Frame.inside]
      rw [hf, if_pos rfl, depthOf_some, if_pos rfl] at ht
      rw [if_pos rfl, List.countP_cons, hleft]
      by_cases hd : d ≤ 1
      · rw [if_pos hd, depthOf_none]
        simp only [Bool.false_eq_true, if_false]
        omega
      · rw [if_neg hd, depthOf_some, if_pos rfl]
        simp only [Bool.false_eq_true, if_false]
        omega
    · rw [if_neg (Ne.symm hvu)] at hv
      rw [if_neg hvu, hv]
      by_cases hd : d ≤ 1 <;> simp [hd, Ne.symm hvu]
  · simp only [exec_stack] at hk
    split at hk
    · cases hk
    · obtain ⟨-, rfl⟩ := Prod.mk.inj (Option.some.inj hk)
      omega

/-- A frame that is no longer inside is dropped. -/
theorem ExecHeld.popped {m k : Machine} (h : m.ExecHeld) {t : ThreadId} {f : Frame} {rest : List Frame}
    (hstack : m.threads t = f :: rest) (hf : f.inside = false) (hk : k.threads = m.threads)
    (he : k.exec = m.exec) : (k.stack t rest).ExecHeld := by
  refine ⟨fun u => ?_, fun u d hd => h.pos u d (he ▸ hd), fun u x hx => ?_⟩
  · rw [countP_stack, hk, exec_stack, he, ← h.count u]
    split
    · rename_i hu
      rw [hu, hstack, List.countP_cons, hf]
      simp
    · rfl
  · rw [threads_stack, hk] at hx
    split at hx
    · exact h.nested t x (by rw [hstack]; exact List.mem_of_mem_tail hx)
    · exact h.nested u x hx

theorem moves_execHeld {m n : Machine} {e : Event} (h : m.ExecHeld) (hmove : Moves m e n) :
    n.ExecHeld := by
  cases hmove with
  | pushed => exact ⟨h.count, h.pos, h.nested⟩
  | refused => exact h
  | claims _ t q hmay => exact h.called hmay rfl rfl rfl
  | calls t extra hmay => exact h.called hmay rfl rfl rfl
  | claimsInline t f rest q hstack hphase => exact h.replaced hstack (by simp [Frame.inside, hphase]) rfl rfl
  | refusedInline t f rest hstack hphase => exact h.replaced hstack (by simp [Frame.inside, hphase]) rfl rfl
  | counts t f rest hstack hphase => exact h.replaced hstack (by simp [Frame.inside, hphase]) rfl rfl
  | skips t f rest hstack hphase => exact h.replaced hstack (by simp [Frame.inside, hphase]) rfl rfl
  | starts t f rest hstack hphase => exact h.replaced hstack (by simp [Frame.inside, hphase]) rfl rfl
  | finishes t threw f rest i tail hstack hphase =>
    exact h.replaced hstack (by simp [Frame.inside, hphase]) rfl rfl
  | enters t f rest d hstack hphase hexec => exact h.entered hstack hphase hexec
  | leaves t u d f rest hstack hphase hbatch hexec => exact h.left hstack hphase hexec
  | releases t f rest hstack hphase => exact h.popped hstack (by simp [Frame.inside, hphase]) rfl rfl
  | shuts => exact ⟨h.count, h.pos, h.nested⟩

end Machine
end SlsteamMoon.OwnerQueue
