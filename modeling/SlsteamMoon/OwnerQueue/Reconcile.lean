import SlsteamMoon.OwnerQueue.Order

/-! A hot add pushes an injection and then a license reconcile; the line of work
(what has run, the claimed batch, the pending set) says whether it stays in that order. -/
namespace SlsteamMoon.OwnerQueue

/-- The injection whose record holds every one of the ids. -/
def Command.carries (ids : List AppId) : Command → Bool
  | .injectPackage0 held => ids.all (· ∈ held)
  | _ => false

/-- With no ids there is nothing to inject. -/
def submitHotAdd (appIds : List AppId) : List Command :=
  if appIds = [] then [.reconcileLicenses] else [.injectPackage0 appIds, .reconcileLicenses]

/-- Somewhere after an injection that carries the ids stands a reconcile. -/
def Followed (ids : List AppId) : List Command → Bool
  | [] => false
  | c :: rest => c.carries ids && decide (.reconcileLicenses ∈ rest) || Followed ids rest

theorem Followed.append_left {ids : List AppId} (before : List Command) {line : List Command}
    (h : Followed ids line = true) : Followed ids (before ++ line) = true := by
  induction before with
  | nil => exact h
  | cons c rest ih => simp [Followed, ih]

theorem Followed.sublist {ids : List AppId} {line longer : List Command} (hsub : line.Sublist longer)
    (h : Followed ids line = true) : Followed ids longer = true := by
  induction hsub with
  | slnil => exact h
  | cons c _ ih => simp [Followed, ih h]
  | cons_cons c hrest ih =>
    simp only [Followed, Bool.or_eq_true, Bool.and_eq_true, decide_eq_true_eq] at h ⊢
    exact h.imp (fun ⟨hc, hmem⟩ => ⟨hc, hrest.subset hmem⟩) ih

/-- The record may take over the other's place in the line. -/
def Command.standsFor (ids : List AppId) (c d : Command) : Prop :=
  (d.carries ids = true → c.carries ids = true) ∧ (d = .reconcileLicenses → c = .reconcileLicenses)

theorem Followed.replace {ids : List AppId} {c d : Command} (before rest : List Command)
    (hstands : c.standsFor ids d) (h : Followed ids (before ++ d :: rest) = true) :
    Followed ids (before ++ c :: rest) = true := by
  induction before with
  | nil =>
    simp only [List.nil_append, Followed, Bool.or_eq_true, Bool.and_eq_true] at h ⊢
    exact h.imp (fun ⟨hd, hmem⟩ => ⟨hstands.1 hd, hmem⟩) id
  | cons x xs ih =>
    simp only [List.cons_append, Followed, Bool.or_eq_true, Bool.and_eq_true, decide_eq_true_eq,
      List.mem_append, List.mem_cons] at h ⊢
    refine h.imp (fun ⟨hx, hmem⟩ => ⟨hx, ?_⟩) ih
    rcases hmem with hmem | hmem | hmem
    · exact .inl hmem
    · exact .inr (.inl (hstands.2 hmem.symm).symm)
    · exact .inr (.inr hmem)

private theorem carries_mergeIds (ids base extra : List AppId)
    (h : (Command.injectPackage0 base).carries ids = true) :
    (Command.injectPackage0 (mergeIds base extra)).carries ids = true := by
  simp only [Command.carries, List.all_eq_true, decide_eq_true_eq, mem_mergeIds] at h ⊢
  exact fun id hid => .inl (h id hid)

/-- A record that met a push still carries the ids it carried. -/
theorem Met.standsFor {maxIds : Nat} {p entry : Entry} {cmd : Command} {result : PushResult}
    (h : Met maxIds p cmd entry result) (ids : List AppId) : entry.cmd.standsFor ids p.cmd := by
  cases h with
  | same | covered | older => exact ⟨id, id⟩
  | merged base extra hp =>
    rw [hp]
    exact ⟨carries_mergeIds ids base extra, by simp⟩
  | replaced previous next hp =>
    rw [hp]
    exact ⟨by simp [Command.carries], by simp⟩

/-- The injection that was pushed is carried by the record it met. -/
theorem Met.carries {maxIds : Nat} {p entry : Entry} {ids : List AppId} {result : PushResult}
    (h : Met maxIds p (.injectPackage0 ids) entry result) : entry.cmd.carries ids = true := by
  have hsubset : ∀ base : List AppId, ids ⊆ base → (Command.injectPackage0 base).carries ids = true := by
    intro base hsub
    simpa [Command.carries] using fun id hid => hsub hid
  cases h with
  | same hsame =>
    cases hp : p.cmd with
    | injectPackage0 base =>
      have hids : base = ids := by simpa [hp, Command.sameWork] using hsame
      exact hids ▸ hsubset base (hids ▸ List.Subset.refl ids)
    | _ => simp [hp, Command.sameWork] at hsame
  | covered base extra hp hcmd hsub =>
    rw [hp]
    exact hsubset base (Command.injectPackage0.inj hcmd ▸ hsub)
  | merged base extra hp hcmd =>
    obtain rfl := Command.injectPackage0.inj hcmd
    exact hsubset _ fun id hid => (mem_mergeIds base _ id).mpr (.inr hid)
  | older previous next hp hcmd => cases hcmd
  | replaced previous next hp hcmd => cases hcmd

private theorem Accepts.followed {b : Bounds} {cmd : Command} {nowUs : Nat} {into out : List Entry}
    {result : PushResult} (h : Accepts b cmd nowUs into out result) {ids : List AppId}
    (before : List Command) (hline : Followed ids (before ++ into.map Entry.cmd) = true) :
    Followed ids (before ++ out.map Entry.cmd) = true := by
  cases h with
  | appended =>
    rw [List.map_append, ← List.append_assoc]
    exact Followed.sublist (List.sublist_append_left _ _) hline
  | met front p entry rest result hinto hpass hmet =>
    rw [hinto, List.map_append, List.map_cons, ← List.append_assoc] at hline
    rw [List.map_append, List.map_cons, ← List.append_assoc]
    exact Followed.replace _ _ (hmet.standsFor ids) hline

private theorem Queue.Pushes.followed {b : Bounds} {pending last : List Entry} {results : List PushResult}
    (h : Queue.Pushes b pending results last) {ids : List AppId} (before : List Command)
    (hline : Followed ids (before ++ pending.map Entry.cmd) = true) :
    Followed ids (before ++ last.map Entry.cmd) = true := by
  induction h with
  | done => exact hline
  | refused _ _ _ ih => exact ih hline
  | accepted _ _ _ hnext _ ih => exact ih (hnext.followed before hline)

namespace Machine

/-- The items that the claim still has to run. -/
inductive Holding (m : Machine) : List Item → Prop
  | idle (hidle : m.queue.executing = false) : Holding m []
  | claimed (u : ThreadId) (g : Frame) (hexecuting : m.queue.executing = true) (hg : g ∈ m.threads u)
      (hclaimed : g.claimed = true) : Holding m g.batch

private theorem holding_top {m : Machine} {t : ThreadId} {f : Frame} {rest : List Frame}
    (hexecuting : m.queue.executing = true) (hclaimed : f.claimed = true) :
    (m.stack t (f :: rest)).Holding f.batch :=
  .claimed t f hexecuting (by simp) hclaimed

/-- The work in the order it is run: finished since the k-th, claimed, pending. -/
def line (m : Machine) (k : Nat) (held : List Item) : List Command :=
  (m.ran.drop k ++ held).map Item.cmd ++ m.queue.pending.map Entry.cmd

theorem items_cmds {m : Machine} (h : m.tickets.length = m.queue.pending.length) :
    m.items.map Item.cmd = m.queue.pending.map Entry.cmd := by
  unfold items
  generalize m.queue.pending = entries at h
  generalize m.tickets = tickets at h
  induction tickets generalizing entries with
  | nil => rw [List.eq_nil_of_length_eq_zero h.symm]; rfl
  | cons k ks ih =>
    cases entries with
    | nil => cases h
    | cons e es => simpa using ih es (by simpa using h)

private theorem Holding.nil_of_idle {m : Machine} {held : List Item} (h : m.Holding held)
    (hidle : m.queue.executing = false) : held = [] := by
  cases h with
  | idle => rfl
  | claimed u g hexecuting => exact absurd (hexecuting.symm.trans hidle) (by simp)

/-- The claim is in one frame, so what is held is that frame's batch. -/
theorem Holding.eq_batch {m : Machine} {held : List Item} (h : m.Holding held) (hm : m.Consistent) {t : ThreadId}
    {f : Frame} (hf : f ∈ m.threads t) (hclaimed : f.claimed = true) :
    m.queue.executing = true ∧ held = f.batch := by
  cases h with
  | idle hidle => exact absurd hclaimed (by simp [hm.claim.unclaimed hidle hf])
  | claimed u g hexecuting hg hgc => exact ⟨hexecuting, by rw [(hm.claim.unique hg hf hgc hclaimed).2]⟩

/-- The claim is not touched where the top frame keeps its claim and its batch. -/
theorem Holding.retop {m k : Machine} {held : List Item} (h : m.Holding held) {t : ThreadId} {f f' : Frame}
    {rest : List Frame} (hstack : m.threads t = f :: rest) (hk : k.threads = m.threads)
    (hq : k.queue.executing = m.queue.executing) (hclaimed : f'.claimed = f.claimed)
    (hbatch : f.claimed = true → f'.batch = f.batch) : (k.stack t (f' :: rest)).Holding held := by
  cases h with
  | idle hidle => exact .idle (hq.trans hidle)
  | claimed u g hexecuting hg hgc =>
    by_cases hut : u = t
    · rw [hut, hstack] at hg
      rcases List.mem_cons.mp hg with rfl | hg
      · rw [← hbatch hgc]
        exact .claimed t f' (hq.trans hexecuting) (by simp) (hclaimed.trans hgc)
      · exact .claimed t g (hq.trans hexecuting) (by simp [hg]) hgc
    · exact .claimed u g (hq.trans hexecuting) ((mem_stack ..).mpr (.inr ⟨hut, hk ▸ hg⟩)) hgc

theorem Holding.called {m : Machine} {held : List Item} (h : m.Holding held) (t : ThreadId) (f : Frame) :
    (m.stack t (f :: m.threads t)).Holding held := by
  cases h with
  | idle hidle => exact .idle hidle
  | claimed u g hexecuting hg hgc =>
    refine .claimed u g hexecuting ((mem_stack ..).mpr ?_) hgc
    by_cases hut : u = t
    · exact .inl ⟨hut, by simp [hut ▸ hg]⟩
    · exact .inr ⟨hut, hg⟩

/-- A frame without the claim is dropped. -/
theorem Holding.popped {m : Machine} {held : List Item} (h : m.Holding held) {t : ThreadId} {f : Frame}
    {rest : List Frame} (hstack : m.threads t = f :: rest) (hf : ¬ f.claimed = true) :
    (m.stack t rest).Holding held := by
  cases h with
  | idle hidle => exact .idle hidle
  | claimed u g hexecuting hg hgc =>
    refine .claimed u g hexecuting ((mem_stack ..).mpr ?_) hgc
    by_cases hut : u = t
    · rw [hut, hstack] at hg
      rcases List.mem_cons.mp hg with rfl | hg
      · exact absurd hgc hf
      · exact .inl ⟨hut, hg⟩
    · exact .inr ⟨hut, hg⟩

/-- A step other than shutdown keeps every promise that the line of work makes. -/
theorem moves_line {m n : Machine} {e : Event} (h : m.Consistent) (hopen : e ≠ .shutdown)
    (hmove : Moves m e n) {held : List Item} (hheld : m.Holding held) :
    ∃ next, n.Holding next ∧ m.ran.length ≤ n.ran.length ∧ ∀ ids, ∀ k ≤ m.ran.length,
      Followed ids (m.line k held) = true → Followed ids (n.line k next) = true := by
  cases hmove with
  | shuts => exact absurd rfl hopen
  | refused => exact ⟨held, hheld, le_rfl, fun _ _ _ hf => hf⟩
  | pushed _ q results hcontrol hpushes =>
    refine ⟨held, ?_, le_rfl, fun ids k _ hf => hpushes.followed _ hf⟩
    cases hheld with
    | idle hidle => exact .idle (hcontrol.executing.trans hidle)
    | claimed u g hexecuting hg hgc => exact .claimed u g (hcontrol.executing.trans hexecuting) hg hgc
  | claims _ t q hcall hclaims =>
    refine ⟨m.items, holding_top hclaims.executing rfl, le_rfl, fun ids k _ hf => ?_⟩
    rw [hheld.nil_of_idle hclaims.idle, line, List.append_nil, ← items_cmds h.accounted.aligned] at hf
    simpa [line, stack, hclaims.pending] using hf
  | calls t extra =>
    exact ⟨held, hheld.called t _, le_rfl, fun _ _ _ hf => hf⟩
  | claimsInline t f rest q hstack hphase hclaims =>
    refine ⟨m.items ++ f.batch, holding_top hclaims.executing rfl, le_rfl, fun ids k _ hf => ?_⟩
    rw [hheld.nil_of_idle hclaims.idle, line, List.append_nil, ← items_cmds h.accounted.aligned] at hf
    refine Followed.sublist ?_ hf
    simp only [line, stack, hclaims.pending, List.map_append, List.map_nil, List.append_nil]
    rw [← List.append_assoc]
    exact List.sublist_append_left _ _
  | refusedInline t f rest hstack =>
    exact ⟨held, hheld.retop hstack rfl rfl rfl fun _ => rfl, le_rfl, fun _ _ _ hf => hf⟩
  | counts t f rest hstack =>
    exact ⟨held, hheld.retop hstack rfl rfl rfl fun _ => rfl, le_rfl, fun _ _ _ hf => hf⟩
  | skips t f rest hstack =>
    exact ⟨held, hheld.retop hstack rfl rfl rfl fun _ => rfl, le_rfl, fun _ _ _ hf => hf⟩
  | enters t f rest d hstack =>
    exact ⟨held, hheld.retop hstack rfl rfl rfl fun _ => rfl, le_rfl, fun _ _ _ hf => hf⟩
  | starts t f rest hstack =>
    exact ⟨held, hheld.retop hstack rfl rfl rfl fun _ => rfl, le_rfl, fun _ _ _ hf => hf⟩
  | leaves t u d f rest hstack =>
    exact ⟨held, hheld.retop hstack rfl rfl rfl fun _ => rfl, le_rfl, fun _ _ _ hf => hf⟩
  | finishes t threw f rest i tail hstack hphase hbatch =>
    by_cases hf : f.claimed = true
    · -- the finished item leaves the claimed batch at its head
      have htop : f ∈ m.threads t := by simp [hstack]
      obtain ⟨hexecuting, hown⟩ := hheld.eq_batch h htop hf
      refine ⟨tail, holding_top hexecuting hf, by simp [stack], fun ids k hk hline => ?_⟩
      rw [line, hown, hbatch] at hline
      simpa [line, stack, Queue.countRun, List.drop_append_of_le_length hk] using hline
    · refine ⟨held, hheld.retop hstack rfl rfl rfl (fun hc => absurd hc hf), by simp [stack],
        fun ids k hk hline => Followed.sublist ?_ hline⟩
      have hran : (m.ran.drop k ++ held).Sublist ((m.ran ++ [i]).drop k ++ held) := by
        rw [List.drop_append_of_le_length hk]
        exact (List.sublist_append_left _ _).append_right held
      exact (hran.map Item.cmd).append_right _
  | releases t f rest hstack hphase =>
    have htop : f ∈ m.threads t := by simp [hstack]
    by_cases hf : f.claimed = true
    · have hnil : held = [] := by
        cases hheld with
        | idle => rfl
        | claimed u g hexecuting hg hgc =>
          rw [(h.claim.unique hg htop hgc hf).2]
          exact (h.accounted.sound t f htop).left hphase
      refine ⟨[], .idle (by simp [hf, Queue.releaseExecuting]), le_rfl, fun _ _ _ hline => ?_⟩
      simpa [line, stack, hf, Queue.releaseExecuting, hnil] using hline
    · simp only [hf]
      exact ⟨held, hheld.popped hstack hf, le_rfl, fun _ _ _ hline => hline⟩

private theorem run_line {m n : Machine} {es : List Event} (h : m.Consistent) (hopen : ∀ e ∈ es, e ≠ .shutdown)
    (hrun : Runs.exec step m es = some n) {held : List Item} (hheld : m.Holding held) {ids : List AppId}
    {k : Nat} (hk : k ≤ m.ran.length) (hline : Followed ids (m.line k held) = true) :
    ∃ next, n.Holding next ∧ Followed ids (n.line k next) = true := by
  let P (x : Machine) : Prop := x.Consistent ∧ k ≤ x.ran.length ∧
    ∃ held, x.Holding held ∧ Followed ids (x.line k held) = true
  have hstep : ∀ x e y, P x → e ≠ Event.shutdown → x.step e = some y → P y := by
    rintro x e y ⟨hx, hkx, held, hheld, hline⟩ hok hstep
    obtain ⟨next, hnext, hran, hkeeps⟩ := moves_line hx hok (step_moves hstep) hheld
    exact ⟨step_consistent hx hok hstep, hkx.trans hran, next, hnext, hkeeps ids k hkx hline⟩
  exact (Runs.exec_invariant (P := P) hstep ⟨h, hk, held, hheld, hline⟩
    (Runs.meets_of_forall (fun e he _ => hopen e he) m) hrun).2.2

/-- The claim's own items, or none when no claim is out. -/
theorem exists_holding {m : Machine} (h : m.ClaimHeld) : ∃ held, m.Holding held := by
  cases hexecuting : m.queue.executing with
  | false => exact ⟨[], .idle hexecuting⟩
  | true =>
    obtain ⟨holder, hflag, hcount⟩ := h
    rw [hexecuting] at hflag
    obtain ⟨u, hu⟩ := Option.isSome_iff_exists.mp hflag.symm
    have hpos : 0 < (m.threads u).countP Frame.claimed := by simp [hcount u, hu]
    obtain ⟨g, hg, hgc⟩ := List.countP_pos_iff.mp hpos
    exact ⟨g.batch, .claimed u g hexecuting hg hgc⟩

end Machine

/-- No pending reconcile stands before the pending injection, and none is pending
when no injection is. -/
def reconcileBehind : List Command → Bool
  | [] => true
  | .injectPackage0 _ :: _ => true
  | .reconcileLicenses :: _ => false
  | _ :: rest => reconcileBehind rest

private theorem not_mem_of_reconcileBehind {front rest : List Command}
    (hfront : ∀ c ∈ front, c.kind ≠ .injectPackage0) (h : reconcileBehind (front ++ rest) = true) :
    .reconcileLicenses ∉ front := by
  induction front with
  | nil => simp
  | cons c cs ih =>
    have hc := hfront c (by simp)
    cases c with
    | injectPackage0 => simp [Command.kind] at hc
    | reconcileLicenses => simp [reconcileBehind] at h
    | _ => simpa using ih (fun d hd => hfront d (by simp [hd])) h

private theorem followed_of_split {ids : List AppId} (front : List Command) {c : Command} {rest : List Command}
    (hc : c.carries ids = true) (hrest : .reconcileLicenses ∈ rest) :
    Followed ids (front ++ c :: rest) = true :=
  Followed.append_left front (by simp [Followed, hc, hrest])

private theorem kind_ne_of_passes {maxIds : Nat} {p : Entry} {ids : List AppId}
    (h : meet maxIds p (.injectPackage0 ids) = .passes) : p.cmd.kind ≠ .injectPackage0 := by
  intro hkind
  unfold meet at h
  cases hcmd : p.cmd with
  | injectPackage0 base =>
    rw [hcmd] at h
    simp only [Command.kind, ne_eq, not_true_eq_false, if_false] at h
    split at h
    · cases h
    · split at h
      · cases h
      · split at h <;> cases h
  | _ => simp [hcmd, Command.kind] at hkind

/-- A pending reconcile takes the pushed one in, as it is. -/
theorem Met.reconcile {maxIds : Nat} {p entry : Entry} {result : PushResult}
    (h : Met maxIds p .reconcileLicenses entry result) : entry = p ∧ p.cmd = .reconcileLicenses := by
  cases h with
  | same hsame => cases hp : p.cmd <;> simp_all [Command.sameWork]
  | covered base extra hp hcmd => cases hcmd
  | merged base extra hp hcmd => cases hcmd
  | older previous next hp hcmd => cases hcmd
  | replaced previous next hp hcmd => cases hcmd

/-- Where no reconcile stands before the injection's record, the pushed reconcile ends
up behind it, queued or taken in by one that is. -/
theorem followed_of_accepts {b : Bounds} {ids : List AppId} {nowUs : Nat} {pending mid out : List Entry}
    {first second : PushResult} (hbehind : reconcileBehind (pending.map Entry.cmd) = true)
    (hinject : Accepts b (.injectPackage0 ids) nowUs pending mid first)
    (hreconcile : Accepts b .reconcileLicenses nowUs mid out second) :
    Followed ids (out.map Entry.cmd) = true := by
  -- the record that holds the injection, and no reconcile before it
  obtain ⟨front, entry, rest, rfl, hcarries, hfront⟩ : ∃ front entry rest, mid = front ++ entry :: rest ∧
      entry.cmd.carries ids = true ∧ .reconcileLicenses ∉ front.map Entry.cmd := by
    cases hinject with
    | appended hroom hpass =>
      refine ⟨pending, _, [], rfl, by simp [Command.carries], ?_⟩
      rw [← List.append_nil (pending.map Entry.cmd)] at hbehind
      refine not_mem_of_reconcileBehind (fun c hc => ?_) hbehind
      obtain ⟨p, hp, rfl⟩ := List.mem_map.mp hc
      exact kind_ne_of_passes (hpass p hp)
    | met front p entry rest _ hinto hpass hmet =>
      refine ⟨front, entry, rest, rfl, hmet.carries, ?_⟩
      rw [hinto, List.map_append] at hbehind
      refine not_mem_of_reconcileBehind (fun c hc => ?_) hbehind
      obtain ⟨q, hq, rfl⟩ := List.mem_map.mp hc
      exact kind_ne_of_passes (hpass q hq)
  cases hreconcile with
  | appended =>
    simp only [List.map_append, List.map_cons, List.append_assoc, List.cons_append]
    exact followed_of_split _ hcarries (by simp)
  | met before p entry' rest' _ hinto hpass hmet =>
    obtain ⟨rfl, hp⟩ := hmet.reconcile
    rw [← hinto, List.map_append, List.map_cons]
    refine followed_of_split _ hcarries ?_
    have hmem : entry' ∈ front ++ entry :: rest := by simp [hinto]
    rcases List.mem_append.mp hmem with hmem | hmem
    · exact absurd (hp ▸ List.mem_map_of_mem hmem) hfront
    · rcases List.mem_cons.mp hmem with rfl | hmem
      · simp [hp, Command.carries] at hcarries
      · exact hp ▸ List.mem_map_of_mem hmem

/-- An accepted pair applies both commands to the pending set. -/
theorem pushBatch_pair {q : Queue} {c d : Command} {nowUs : Nat}
    (h : (q.pushBatch [c, d] nowUs).2.1 = true) : ∃ mid first second,
      Accepts q.bounds c nowUs q.pending mid first ∧
        Accepts q.bounds d nowUs mid (q.pushBatch [c, d] nowUs).1.pending second := by
  unfold Queue.pushBatch at h ⊢
  split at h
  · cases h
  · rename_i hshut
    split at h
    · cases h
    · rename_i hdry
      rw [if_neg hshut, if_neg hdry]
      simp only [Queue.dryRun] at hdry
      cases hfirst : applyPush q.bounds q.pending c nowUs with
      | none => simp [hfirst] at hdry
      | some out =>
        obtain ⟨mid, first⟩ := out
        cases hsecond : applyPush q.bounds mid d nowUs with
        | none => simp [hfirst, hsecond] at hdry
        | some out =>
          obtain ⟨last, second⟩ := out
          refine ⟨mid, first, second, applyPush_accepts hfirst, ?_⟩
          simpa [Queue.pushAll, Queue.pushLocked, hshut, hfirst, hsecond] using applyPush_accepts hsecond

namespace Machine

/-- An accepted hot add that found no reconcile standing before the injection's record
keeps its injection and a later reconcile in the line of work, and once nothing is
pending or claimed both have run, in that order. -/
theorem hot_add_reconciled (b : Bounds) (before after : List Event) (m n : Machine) (ids : List AppId)
    (nowUs : Nat) (hopen : ∀ e ∈ before ++ after, e ≠ .shutdown)
    (hbefore : Runs.exec step (start b) before = some m)
    (haccepted : (m.queue.pushBatch [.injectPackage0 ids, .reconcileLicenses] nowUs).2.1 = true)
    (hbehind : reconcileBehind (m.queue.pending.map Entry.cmd) = true)
    (hafter : Runs.exec step m (.pushBatch [.injectPackage0 ids, .reconcileLicenses] nowUs :: after) = some n) :
    (∃ held, n.Holding held ∧ Followed ids (n.line m.ran.length held) = true) ∧
      (n.queue.pending = [] → n.queue.executing = false →
        Followed ids ((n.ran.drop m.ran.length).map Item.cmd) = true) := by
  have hm := run_consistent (consistent_start b) (fun e he => hopen e (by simp [he])) hbefore
  obtain ⟨x, hstep, hrest⟩ := Option.bind_eq_some_iff.mp hafter
  have hx := step_consistent hm (by simp) hstep
  obtain ⟨mid, first, second, hinject, hreconcile⟩ := pushBatch_pair haccepted
  have hpending := followed_of_accepts hbehind hinject hreconcile
  obtain ⟨held, hheld⟩ := exists_holding hx.claim
  have hxm : x = m.accept _ _ := (Option.some.inj hstep).symm
  have hran : x.ran = m.ran := by rw [hxm]; rfl
  have hline : Followed ids (x.line m.ran.length held) = true := by
    refine Followed.append_left _ ?_
    rw [hxm]
    exact hpending
  obtain ⟨last, hlast, hfollowed⟩ :=
    run_line hx (fun e he => hopen e (by simp [he])) hrest hheld (by rw [hran]) hline
  refine ⟨⟨last, hlast, hfollowed⟩, fun hnil hidle => ?_⟩
  cases hlast with
  | idle => simpa [line, hnil] using hfollowed
  | claimed u g hexecuting => exact absurd (hexecuting.symm.trans hidle) (by simp)

/-- A hot add on an empty queue, drained by the owner. -/
def drainSchedule : List Event :=
  [.drain 0, .enter 0, .start 0, .finish 0 false, .start 0, .finish 0 false, .leave 0, .release 0]

theorem hot_add_reconciled_when_empty :
    ∃ n, Runs.exec step (start .default)
        (.pushBatch [.injectPackage0 [7], .reconcileLicenses] 1 :: drainSchedule) = some n ∧
      Followed [7] (n.ran.map Item.cmd) = true := by
  refine ⟨_, rfl, ?_⟩
  exact (hot_add_reconciled .default [] drainSchedule _ _ [7] 1 (by decide) rfl rfl rfl rfl).2 rfl rfl

/-- A reconcile was pending alone: the accepted hot add leaves none behind its injection. -/
theorem hot_add_reconcile_swallowed :
    (∀ e ∈ drainSchedule, e ≠ .shutdown) ∧
    ∃ m n, Runs.exec step (start .default) [.pushBatch (submitHotAdd []) 1] = some m ∧
      (m.queue.pushBatch (submitHotAdd [7]) 2).2.1 = true ∧
      Runs.exec step m (.pushBatch (submitHotAdd [7]) 2 :: drainSchedule) = some n ∧
      n.queue.pending = [] ∧ n.queue.executing = false ∧
      n.ran.map Item.cmd = [.reconcileLicenses, .injectPackage0 [7]] ∧
      Followed [7] (n.ran.map Item.cmd) = false :=
  ⟨by decide, _, _, rfl, rfl, rfl, rfl, rfl, rfl, rfl⟩

end Machine
end SlsteamMoon.OwnerQueue
