import Mathlib.Data.List.Flatten
import SlsteamMoon.Stats.Correlation

/-! Two exchanges whose replies differ in the owner's progress only: when the
filter gives Steam the same frames in both. -/
namespace SlsteamMoon.Stats

open KeyValues AppInfo Runs

/-- Bodies that differ in the owner's stats, achievement blocks and CRC only. -/
def BodyAlike (w : Codec) (modern : Bool) (body body' : Bytes) : Prop :=
  if modern then (walk body').complete = (walk body).complete ∧ keptFields body' = keptFields body
  else (w.parseResponse body').map GetUserStatsResponse.stripped =
    (w.parseResponse body).map GetUserStatsResponse.stripped

private theorem fieldBytes_kept (data : Bytes) :
    fieldBytes data 3 = (((keptFields data).find? fun f => f.number = 3 ∧ f.wireType = 2).map Field.value).getD [] := by
  have hkept : (fun f : Field => decide (f.number = 3 ∧ f.wireType = 2)) =
      fun f => decide (decide (f.number ≠ 2 ∧ f.number ≠ 4) = true ∧
        decide (f.number = 3 ∧ f.wireType = 2) = true) := by
    funext f
    simp only [decide_eq_true_eq, decide_eq_decide]
    omega
  rw [fieldBytes, keptFields, List.find?_filter, hkept]

private theorem acceptModern_alike {body body' : Bytes} (hcomplete : (walk body').complete = (walk body).complete)
    (hkept : keptFields body' = keptFields body) : acceptModern body' = acceptModern body := by
  simp only [acceptModern, fieldBytes_kept, hcomplete, hkept]

/-- A legacy reply is answered from what is left of it without the progress. -/
theorem acceptLegacy_stripped (w : Codec) (app : UInt32) (data : Bytes) :
    acceptLegacy w app data = ((w.parseResponse data).map GetUserStatsResponse.stripped).bind fun body =>
      if body.gameId.getD 0 ≠ app.toUInt64 ∨ body.schema.getD [] = [] then none
      else some (w.response { body with eresult := some 1 }) := by
  rw [acceptLegacy]
  cases w.parseResponse data <;> rfl

private theorem accept_alike {w : Codec} {policy : Policy} {request : Pending} {modern : Bool} {body body' : Bytes}
    {header : Header} (halike : BodyAlike w modern body body')
    (hside : maxReplyBytes < body'.length ↔ maxReplyBytes < body.length) :
    accept w policy request modern body' header = accept w policy request modern body header := by
  have hrest : (if modern then acceptModern body' else acceptLegacy w request.app body') =
      if modern then acceptModern body else acceptLegacy w request.app body := by
    cases modern with
    | true =>
      obtain ⟨hcomplete, hkept⟩ := halike
      exact acceptModern_alike hcomplete hkept
    | false =>
      simp only [Bool.false_eq_true, if_false, acceptLegacy_stripped]
      rw [show _ = _ from halike]
  simp only [accept, hside, hrest]

private theorem rewriteResponse_alike {w : Codec} {policy : Policy} {pending : PendingJobs} {modern : Bool}
    {body body' : Bytes} {header : Header} (halike : BodyAlike w modern body body')
    (hside : maxReplyBytes < body'.length ↔ maxReplyBytes < body.length) :
    rewriteResponse w policy pending modern body' header = rewriteResponse w policy pending modern body header := by
  rw [rewriteResponse, rewriteResponse]
  cases correlated pending modern header with
  | none => rfl
  | some found => simp only [accept_alike halike hside]

/-- An accepted unified reply is no longer than what it was taken from. -/
theorem acceptModern_length {body out : Bytes} (h : acceptModern body = some out) : out.length ≤ body.length := by
  simp only [acceptModern, Option.ite_none_left_eq_some, Option.some.injEq] at h
  obtain ⟨-, rfl⟩ := h
  have hsub : ((keptFields body).flatMap Field.raw).Sublist ((walk body).fields.flatMap Field.raw) :=
    List.filter_sublist.flatMap Field.raw
  exact hsub.length_le.trans (walk_raw_length body)

/-- The limits of the receiving side leave room for the answer: a refused reply
has space for its result, and an accepted legacy reply encodes within the body
limit once its result is set. -/
structure Fits (w : Codec) (policy : Policy) (request : Pending) (r : Reply) : Prop where
  refused : accept w policy request r.modern r.body r.header = none → (w.header r.header).length ≤ maxHeaderBytes →
    (w.header { r.header with eresult := some 2 }).length ≤ kMaxHdrSize
  accepted : accept w policy request r.modern r.body r.header ≠ none → r.modern = false →
    ∀ body ∈ w.parseResponse r.body, (w.response { body.stripped with eresult := some 1 }).length ≤ kMaxBodySize

private theorem acceptLegacy_eq_some {w : Codec} {app : UInt32} {data out : Bytes}
    (h : acceptLegacy w app data = some out) :
    ∃ body, w.parseResponse data = some body ∧ w.response { body.stripped with eresult := some 1 } = out := by
  obtain ⟨body, hparsed, hrest⟩ := Option.bind_eq_some_iff.mp h
  obtain ⟨-, hout⟩ := Option.ite_none_left_eq_some.mp hrest
  exact ⟨body, hparsed, Option.some.inj hout⟩

private theorem failureBody_length {w : Codec} (hw : w.Bounded) (request : Pending) (modern : Bool) :
    (failureBody w request modern).length ≤ kMaxBodySize := by
  cases modern with
  | true => exact Nat.zero_le _
  | false => exact hw.failure _ _

private theorem failureHeader_length {w : Codec} (hw : w.Bounded) (header : Header) :
    (w.header (failureHeader w header)).length ≤ kMaxHdrSize ↔
      ((w.header header).length ≤ maxHeaderBytes →
        (w.header { header with eresult := some 2 }).length ≤ kMaxHdrSize) := by
  by_cases hlong : maxHeaderBytes < (w.header header).length
  · have hcleared : (w.header (failureHeader w header)).length ≤ kMaxHdrSize := by
      simp only [failureHeader, if_pos hlong]
      exact hw.cleared _ _ _ _
    exact iff_of_true hcleared fun hle => absurd hlong (Nat.not_lt.mpr hle)
  · simp only [failureHeader, if_neg hlong, Nat.not_lt.mp hlong, true_imp_iff]

/-- The checks an accepted reply has passed. -/
theorem accept_eq_some {w : Codec} {policy : Policy} {request : Pending} {modern : Bool} {body out : Bytes}
    {header : Header} (h : accept w policy request modern body header = some out) :
    body.length ≤ maxReplyBytes ∧ (w.header header).length ≤ maxHeaderBytes ∧
      (if modern then acceptModern body else acceptLegacy w request.app body) = some out := by
  simp only [accept, Option.ite_none_left_eq_some, not_or, Nat.not_lt] at h
  obtain ⟨⟨-, -, hbody, hheader, -⟩, hout⟩ := h
  exact ⟨hbody, hheader, hout⟩

/-- A correlated reply is rewritten exactly when its answer fits. -/
theorem rewritten_iff_fits {w : Codec} (hw : w.Bounded) {policy : Policy} {pending : PendingJobs} {data : Bytes}
    {r : Reply} {request : Pending} (hr : readReply w data = some r)
    (hc : correlated pending r.modern r.header = some (r.job, request)) :
    (hkRecvPkt w policy pending data).1.isSome ↔ Fits w policy request r := by
  rw [hkRecvPkt_reply hr]
  cases ha : accept w policy request r.modern r.body r.header with
  | none =>
    rw [rewriteResponse_refused hc ha, answer_some, failureHeader_length hw]
    constructor
    · intro hroom
      exact ⟨fun _ => hroom.2, fun hsome => absurd ha hsome⟩
    · intro hfits
      exact ⟨failureBody_length hw request r.modern, hfits.refused ha⟩
  | some out =>
    obtain ⟨hbody, hheader, hout⟩ := accept_eq_some ha
    have hrefused : accept w policy request r.modern r.body r.header ≠ none := by
      rw [ha]
      exact Option.some_ne_none out
    have hroom : (w.header r.header).length ≤ kMaxHdrSize := hheader
    rw [rewriteResponse_accepted hc ha, answer_some, and_iff_left hroom]
    cases hm : r.modern with
    | true =>
      have hlength : out.length ≤ kMaxBodySize := by
        rw [hm] at hout
        exact (acceptModern_length hout).trans hbody
      refine iff_of_true hlength ⟨fun hnone => absurd hnone hrefused, fun _ hlegacy => ?_⟩
      rw [hm] at hlegacy
      cases hlegacy
    | false =>
      obtain ⟨body, hparsed, rfl⟩ := acceptLegacy_eq_some (by rwa [hm] at hout)
      constructor
      · intro hlength
        refine ⟨fun hnone => absurd hnone hrefused, fun _ _ other hother => ?_⟩
        obtain rfl := Option.some.inj (hparsed.symm.trans hother)
        exact hlength
      · intro hfits
        exact hfits.accepted hrefused hm body hparsed

/-- A borrowed reply is the first one of its job and kind since its request, and
its answer fits. -/
def Answerable (w : Codec) (s : State) : Event → Prop
  | .send _ _ => True
  | .recv policy data borrowed => borrowed = true → ∀ r ∈ readReply w data,
      r.key ∈ s.owed ∧ ∀ request ∈ s.pending.lookup r.job, Fits w policy request r

/-- Equal events, or borrowed replies that differ in the owner's progress only. -/
inductive Alike (w : Codec) : Event → Event → Prop
  | same (e : Event) : Alike w e e
  | reply {policy : Policy} {data data' : Bytes} {r : Reply} {body' : Bytes} (h : readReply w data = some r)
      (h' : readReply w data' = some { r with body := body' }) (hbody : BodyAlike w r.modern r.body body') :
      Alike w (.recv policy data true) (.recv policy data' true)

/-- Borrowed replies are both within the reply limit or both over it. -/
def SameSide (w : Codec) : Event → Event → Prop
  | .recv _ data true, .recv _ data' true => ∀ r ∈ readReply w data, ∀ r' ∈ readReply w data',
      (maxReplyBytes < r'.body.length ↔ maxReplyBytes < r.body.length)
  | _, _ => True

/-- No borrowed reply has passed as it was. -/
def Concealing (s : State) : Prop := ∀ d ∈ s.delivered, d.borrowed = true → d.rewritten = true

private theorem borrowed_rewritten {w : Codec} (hw : w.Bounded) {s : State} {policy : Policy} {data : Bytes} {r : Reply}
    (h : Outstanding s) (hok : Answerable w s (.recv policy data true)) (hr : readReply w data = some r) :
    (hkRecvPkt w policy s.pending data).1.isSome := by
  obtain ⟨howed, hfits⟩ := hok rfl r hr
  obtain ⟨hvalid, request, hlookup, hmodern⟩ := h r.key howed
  obtain ⟨-, -, -, -, -, hjob, -⟩ := readReply_eq_some hr
  have hc : correlated s.pending r.modern r.header = some (r.job, request) :=
    correlated_eq_some hjob hvalid hlookup hmodern
  exact (rewritten_iff_fits hw hr hc).mpr (hfits request hlookup)

private theorem recv_concealing {w : Codec} {s : State} {policy : Policy} {data : Bytes} {borrowed : Bool}
    (h : Concealing s) (hout : borrowed = true → (hkRecvPkt w policy s.pending data).1.isSome) :
    Concealing (s.recv w policy data borrowed) := by
  intro d hd
  obtain hold | hnew := List.mem_append.mp hd
  · exact h d hold
  · obtain rfl := List.mem_singleton.mp hnew
    exact hout

/-- Alike replies leave the same state. -/
theorem recv_alike {w : Codec} {s : State} {policy : Policy} {data data' : Bytes} {r : Reply} {body' : Bytes}
    (hr : readReply w data = some r) (hr' : readReply w data' = some { r with body := body' })
    (hbody : BodyAlike w r.modern r.body body') (hside : maxReplyBytes < body'.length ↔ maxReplyBytes < r.body.length)
    (hout : (hkRecvPkt w policy s.pending data).1.isSome) :
    s.recv w policy data' true = s.recv w policy data true := by
  have hsame : hkRecvPkt w policy s.pending data' = hkRecvPkt w policy s.pending data := by
    rw [hkRecvPkt_reply hr, hkRecvPkt_reply hr']
    simp only [rewriteResponse_alike hbody hside]
  have howed : owedAfter w s.owed data' = owedAfter w s.owed data := by
    rw [owedAfter, owedAfter, hr, hr']
    rfl
  obtain ⟨frame, hframe⟩ := Option.isSome_iff_exists.mp hout
  simp only [State.recv, hsame, howed, hframe, Option.getD_some]

/-- Every request still owed is pending, and no borrowed reply has passed as it
was. -/
def Guarded (s : State) : Prop := Outstanding s ∧ Concealing s

private theorem step_recv {w : Codec} {s t : State} {policy : Policy} {data : Bytes} {borrowed : Bool}
    (h : step w s (.recv policy data borrowed) = some t) :
    (borrowed = true → ∃ r ∈ readReply w data, r.key ∈ s.lent) ∧ t = s.recv w policy data borrowed := by
  obtain ⟨henabled, ht⟩ := Option.ite_none_right_eq_some.mp h
  exact ⟨henabled, (Option.some.inj ht).symm⟩

theorem step_guarded {w : Codec} (hw : w.Bounded) {s t : State} {e : Event} (h : Guarded s)
    (hok : Answerable w s e) (he : step w s e = some t) : Guarded t := by
  cases e with
  | send policy data =>
    obtain rfl := Option.some.inj he
    refine ⟨send_outstanding h.1, fun d hd => ?_⟩
    rw [State.send] at hd
    split at hd <;> exact h.2 d hd
  | recv policy data borrowed =>
    obtain ⟨henabled, rfl⟩ := step_recv he
    refine ⟨recv_outstanding h.1, recv_concealing h.2 ?_⟩
    rintro rfl
    obtain ⟨r, hr, -⟩ := henabled rfl
    exact borrowed_rewritten hw h.1 hok hr

private theorem step_alike {w : Codec} (hw : w.Bounded) {s t t' : State} {e e' : Event} (h : Guarded s)
    (hok : Answerable w s e) (halike : Alike w e e') (hside : SameSide w e e') (he : step w s e = some t)
    (he' : step w s e' = some t') : t' = t := by
  cases halike with
  | same => exact Option.some.inj (he'.symm.trans he)
  | reply hr hr' hbody =>
    obtain ⟨-, rfl⟩ := step_recv he
    obtain ⟨-, rfl⟩ := step_recv he'
    exact recv_alike hr hr' hbody (hside _ hr _ hr') (borrowed_rewritten hw h.1 hok hr)

theorem guarded_start : Guarded {} := by
  refine ⟨outstanding_start, ?_⟩
  intro d hd
  cases hd

/-- Runs whose replies differ in the owner's progress only give Steam the same
frames, and none of the borrowed replies as the server sent it. -/
theorem borrowed_progress_concealed (w : Codec) (hw : w.Bounded) {first second : List Event} {s t : State}
    (hfirst : exec (step w) {} first = some s) (hsecond : exec (step w) {} second = some t)
    (halike : List.Forall₂ (Alike w) first second) (hside : List.Forall₂ (SameSide w) first second)
    (hok : Meets (step w) (Answerable w) {} first) :
    t.delivered = s.delivered ∧ ∀ d ∈ s.delivered, d.borrowed = true → d.rewritten = true := by
  have hpairs : List.Forall₂ (fun e e' => Alike w e e' ∧ SameSide w e e') first second :=
    List.Forall₂.mp (fun _ _ => And.intro) halike hside
  have hstep : ∀ s e t, Guarded s → Answerable w s e → step w s e = some t → Guarded t :=
    fun _ _ _ h hok he => step_guarded hw h hok he
  have hsame : t = s := by
    apply exec_unwinding hstep _ guarded_start hok hpairs hfirst hsecond
    intro s e e' t t' h hok hpair he he'
    exact step_alike hw h hok hpair.1 hpair.2 he he'
  have hguarded : Guarded s := exec_invariant hstep guarded_start hok hfirst
  exact ⟨congrArg State.delivered hsame, hguarded.2⟩

/-- Account 1 plays an app whose stats another account lends. -/
def lending : Policy where
  achievements := true
  account := 1
  localEpoch _ _ := 5
  achievementOwners _ := none
  achievementOwnerId := 0x0110000100000002

def frameOf (eMsg : Nat) (header : Header) (body : Bytes) : Bytes :=
  (encodeFrame (eMsg + kMsgHdrProtoFlag) (proto.header header) body).getD []

def requestHeader : Header where
  steamid := some 0x0110000100000001
  jobidSource := some 7
  targetJobName := some playerGetUserStats

def replyHeader : Header where
  steamid := some 0x0110000100000001
  jobidTarget := some 7
  eresult := some 1

/-- Job 7 asks for the account's own stats of the app. -/
def ask : Event :=
  .send lending (frameOf kEMsgServiceMethodCallFromClient requestHeader (buildSpoofedRequest 0x0110000100000001 12345))

/-- A CRC, a stat and a schema. -/
def ownerBody (stat : UInt8) : Bytes := [0x10, 123, 0x22, 2, 8, stat, 0x1a, 1, 0x42]

def ownerReply (stat : UInt8) : Event :=
  .recv lending (frameOf kEMsgServiceMethodResponse replyHeader (ownerBody stat)) true

/-- The reply to a request that kept the account's own id. -/
def ownReply : Event := .recv lending (frameOf kEMsgServiceMethodResponse replyHeader [0x1a, 1, 0x42]) false

private theorem ownerReply_read {stat : UInt8} (h : stat = 1 ∨ stat = 2) :
    readReply proto (frameOf kEMsgServiceMethodResponse replyHeader (ownerBody stat)) =
      some ⟨7, true, replyHeader, ownerBody stat⟩ := by
  obtain rfl | rfl := h
  · rfl
  · rfl

private theorem ownerReply_alike : Alike proto (ownerReply 1) (ownerReply 2) := by
  apply Alike.reply (ownerReply_read (.inl rfl)) (ownerReply_read (.inr rfl))
  exact ⟨rfl, rfl⟩

private theorem ownerReply_sameSide : SameSide proto (ownerReply 1) (ownerReply 2) := by
  intro r hr r' hr'
  obtain rfl := Option.some.inj ((ownerReply_read (.inl rfl)).symm.trans hr)
  obtain rfl := Option.some.inj ((ownerReply_read (.inr rfl)).symm.trans hr')
  exact Iff.rfl

private theorem ask_lends {s : State} (hs : step proto {} ask = some s) :
    s.pending.lookup 7 = some ⟨12345, 1, 5, true⟩ ∧ (7, true) ∈ s.owed := by
  obtain rfl := Option.some.inj hs
  decide

private theorem ask_answerable {s : State} (hs : step proto {} ask = some s) : Answerable proto s (ownerReply 1) := by
  obtain ⟨hpending, howed⟩ := ask_lends hs
  intro _ r hr
  obtain rfl := Option.some.inj ((ownerReply_read (.inl rfl)).symm.trans hr)
  refine ⟨howed, fun request hrequest => ?_⟩
  obtain rfl := Option.some.inj (hpending.symm.trans hrequest)
  have haccepted : accept proto lending ⟨12345, 1, 5, true⟩ true (ownerBody 1) replyHeader ≠ none := by decide
  exact ⟨fun hnone => absurd hnone haccepted, fun _ hlegacy => by cases hlegacy⟩

theorem borrowed_progress_concealed_one_job : ∃ s t, exec (step proto) {} [ask, ownerReply 1] = some s ∧
    exec (step proto) {} [ask, ownerReply 2] = some t ∧ t.delivered = s.delivered ∧
    ∀ d ∈ s.delivered, d.borrowed = true → d.rewritten = true := by
  have hfirst : ∃ s, exec (step proto) {} [ask, ownerReply 1] = some s := ⟨_, rfl⟩
  have hsecond : ∃ t, exec (step proto) {} [ask, ownerReply 2] = some t := ⟨_, rfl⟩
  have hok : Meets (step proto) (Answerable proto) {} [ask, ownerReply 1] :=
    ⟨trivial, fun s hs => ⟨ask_answerable hs, fun _ _ => trivial⟩⟩
  obtain ⟨s, hs⟩ := hfirst
  obtain ⟨t, ht⟩ := hsecond
  have halike : List.Forall₂ (Alike proto) [ask, ownerReply 1] [ask, ownerReply 2] :=
    .cons (.same ask) (.cons ownerReply_alike .nil)
  have hside : List.Forall₂ (SameSide proto) [ask, ownerReply 1] [ask, ownerReply 2] :=
    .cons trivial (.cons ownerReply_sameSide .nil)
  exact ⟨s, t, hs, ht, borrowed_progress_concealed proto proto_bounded hs ht halike hside hok⟩

/-- Job 7 is asked for twice; the reply to the second request, which kept the
account's own id, takes the job, and the owner's reply passes with its stats. -/
theorem borrowed_progress_delivered_after_duplicate :
    List.Forall₂ (Alike proto) [ask, ask, ownReply, ownerReply 1] [ask, ask, ownReply, ownerReply 2] ∧
    ∃ s t, exec (step proto) {} [ask, ask, ownReply, ownerReply 1] = some s ∧
      exec (step proto) {} [ask, ask, ownReply, ownerReply 2] = some t ∧ t.delivered ≠ s.delivered ∧
      ∃ d ∈ s.delivered, d.borrowed = true ∧ d.rewritten = false := by
  refine ⟨.cons (.same ask) (.cons (.same ask) (.cons (.same ownReply) (.cons ownerReply_alike .nil))), ?_⟩
  refine ⟨_, _, rfl, rfl, by decide, _, List.mem_cons_of_mem _ List.mem_cons_self, rfl, rfl⟩

end SlsteamMoon.Stats
