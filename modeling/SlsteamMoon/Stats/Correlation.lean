import SlsteamMoon.Runs
import SlsteamMoon.Stats.Messages

/-! The two hooks a stats exchange passes: the frames Steam sends and the frames
it is given. A run interleaves them in any order, each with the configuration
and the licences it finds. -/
namespace SlsteamMoon.Stats

open KeyValues AppInfo Runs

def emsgRequestUserStats : Nat := 818
def emsgRequestUserStatsResponse : Nat := 819
def kEMsgServiceMethodCallFromClient : Nat := 151
def kEMsgServiceMethodResponse : Nat := 147

/-- `sizeof(MsgHdr)`. -/
def msgHdrSize : Nat := 8
def kMaxBodySize : Nat := 262144
def kMaxHdrSize : Nat := 1024
def kMaxPacketSize : Nat := msgHdrSize + kMaxHdrSize + kMaxBodySize

/-- What `hkRecvPkt` takes a length to be plausible up to. -/
def maxFrameSize : Nat := 64 * 1024 * 1024

/-- A frame without its protobuf flag, bit 31. -/
structure Frame where
  eMsg : Nat
  hdr : Bytes
  body : Bytes
deriving DecidableEq

def kMsgHdrProtoFlag : Nat := 0x80000000

def decodeFrame (data : Bytes) : Option Frame :=
  if data.length < msgHdrSize then none
  else
    let raw := le32 data
    let cbHdr := le32 (data.drop 4)
    if raw.testBit 31 = false then none
    else if data.length - msgHdrSize < cbHdr ∨ data.length < msgHdrSize + cbHdr then none
    else some {
      eMsg := raw % kMsgHdrProtoFlag
      hdr := (data.drop msgHdrSize).take cbHdr
      body := data.drop (msgHdrSize + cbHdr) }

/-- The frame put together again around a header and a body. -/
def encodeFrame (rawEMsg : Nat) (hdr body : Bytes) : Option Bytes :=
  if kMaxPacketSize < msgHdrSize + hdr.length + body.length then none
  else some (writeLE32 rawEMsg ++ writeLE32 hdr.length ++ hdr ++ body)

def buildReplacementFrame (rawEMsg : Nat) (hdr body : Bytes) : Option Bytes := encodeFrame rawEMsg hdr body

def patchRecvFrame (data hdr body : Bytes) : Option Bytes := encodeFrame (le32 data) hdr body

/-- The name ends at its first zero byte. -/
def fnvHash (name : Bytes) : Nat :=
  (name.takeWhile (· ≠ 0)).foldl (fun h c => (h ^^^ c.toNat) * 0x01000193 % 0x100000000) 0x811c9dc5

def playerGetUserStats : Bytes :=
  ascii ['P', 'l', 'a', 'y', 'e', 'r', '.', 'G', 'e', 't', 'U', 's', 'e', 'r', 'S', 't', 'a', 't', 's', '#', '1']

def kHashPlayerGetUserStats : Nat := fnvHash playerGetUserStats

/-- The frame sent in place of a stats request, if any. -/
def handleSendStats (w : Codec) (modern : Bool) (policy : Policy) (pending : PendingJobs) (f : Frame) :
    Option Bytes × PendingJobs :=
  if kMaxHdrSize < f.hdr.length then (none, pending)
  else match w.parseHeader f.hdr with
    | none => (none, pending)
    | some header =>
      match rewriteRequest w policy pending modern f.body header with
      | ([], pending) => (none, pending)
      | (body, pending) => (buildReplacementFrame (f.eMsg ||| kMsgHdrProtoFlag) f.hdr body, pending)

def handleSendPlayerGetUserStats (w : Codec) : Policy → PendingJobs → Frame → Option Bytes × PendingJobs :=
  handleSendStats w true

def dispatchSend (w : Codec) (policy : Policy) (pending : PendingJobs) (f : Frame) : Option Bytes × PendingJobs :=
  if f.eMsg = emsgRequestUserStats then handleSendStats w false policy pending f
  else if f.eMsg ≠ kEMsgServiceMethodCallFromClient then (none, pending)
  else match (w.parseHeader f.hdr).bind Header.targetJobName with
    | none => (none, pending)
    | some name =>
      if fnvHash name = kHashPlayerGetUserStats then handleSendPlayerGetUserStats w policy pending f
      else (none, pending)

def hkBBuildAndAsyncSendFrame (w : Codec) (policy : Policy) (pending : PendingJobs) (data : Bytes) :
    Option Bytes × PendingJobs :=
  match decodeFrame data with
  | none => (none, pending)
  | some f => dispatchSend w policy pending f

/-- The header and the body to patch in, when both fit their buffers. -/
def dispatchRecv (w : Codec) (policy : Policy) (pending : PendingJobs) (f : Frame) :
    Option (Bytes × Bytes) × PendingJobs :=
  if f.eMsg = emsgRequestUserStatsResponse ∨ f.eMsg = kEMsgServiceMethodResponse then
    match w.parseHeader f.hdr with
    | none => (none, pending)
    | some header =>
      match rewriteResponse w policy pending (f.eMsg = kEMsgServiceMethodResponse) f.body header with
      | (none, _, pending) => (none, pending)
      | (some body, header, pending) =>
        if body.length ≤ kMaxBodySize ∧ (w.header header).length ≤ kMaxHdrSize then
          (some (w.header header, body), pending)
        else (none, pending)
  else (none, pending)

/-- The frame Steam is given in place of the received one, if any. -/
def hkRecvPkt (w : Codec) (policy : Policy) (pending : PendingJobs) (data : Bytes) : Option Bytes × PendingJobs :=
  if data = [] ∨ maxFrameSize < data.length then (none, pending)
  else match decodeFrame data with
    | none => (none, pending)
    | some f =>
      match dispatchRecv w policy pending f with
      | (none, pending) => (none, pending)
      | (some (hdr, body), pending) => (patchRecvFrame data hdr body, pending)

/-- The kind of a stats request, true for the unified one. -/
def requestKind (eMsg : Nat) : Option Bool :=
  if eMsg = emsgRequestUserStats then some false
  else if eMsg = kEMsgServiceMethodCallFromClient then some true
  else none

def replyKind (eMsg : Nat) : Option Bool :=
  if eMsg = emsgRequestUserStatsResponse then some false
  else if eMsg = kEMsgServiceMethodResponse then some true
  else none

/-- A job and the kind of its messages. -/
abbrev Key := UInt64 × Bool

/-- The key of a request. -/
def requestKey (w : Codec) (data : Bytes) : Option Key :=
  (decodeFrame data).bind fun f => (requestKind f.eMsg).bind fun modern =>
    ((w.parseHeader f.hdr).bind Header.jobidSource).map fun job => (job, modern)

/-- A reply to a job, in a frame of an accepted size. -/
structure Reply where
  job : UInt64
  modern : Bool
  header : Header
  body : Bytes
deriving DecidableEq

def Reply.key (r : Reply) : Key := (r.job, r.modern)

def readReply (w : Codec) (data : Bytes) : Option Reply :=
  if data = [] ∨ maxFrameSize < data.length then none
  else (decodeFrame data).bind fun f => (replyKind f.eMsg).bind fun modern =>
    (w.parseHeader f.hdr).bind fun header => header.jobidTarget.map fun job => ⟨job, modern, header, f.body⟩

/-- A frame as Steam is given it: whether it answers a request sent under an
owner's id, and whether it was rewritten. -/
structure Delivery where
  frame : Bytes
  borrowed : Bool
  rewritten : Bool
deriving DecidableEq

/-- `lent` holds the requests that went out under an owner's id, `owed` those of
them that no reply of their kind and job has followed. -/
structure State where
  pending : PendingJobs := ∅
  sent : List Bytes := []
  delivered : List Delivery := []
  lent : List Key := []
  owed : List Key := []

inductive Event
  | send (policy : Policy) (data : Bytes)
  /-- A frame arrives; it is borrowed when the server made it for a request under
  an owner's id. -/
  | recv (policy : Policy) (data : Bytes) (borrowed : Bool)

def State.send (w : Codec) (s : State) (policy : Policy) (data : Bytes) : State :=
  match hkBBuildAndAsyncSendFrame w policy s.pending data with
  | (none, pending) => { s with pending, sent := s.sent ++ [data] }
  | (some frame, pending) => { s with
      pending
      sent := s.sent ++ [frame]
      lent := (requestKey w data).toList ++ s.lent
      owed := (requestKey w data).toList ++ s.owed }

/-- The requests still owed after a frame. -/
def owedAfter (w : Codec) (owed : List Key) (data : Bytes) : List Key :=
  match readReply w data with
  | none => owed
  | some r => owed.filter (· ≠ r.key)

def State.recv (w : Codec) (s : State) (policy : Policy) (data : Bytes) (borrowed : Bool) : State :=
  { s with
    pending := (hkRecvPkt w policy s.pending data).2
    owed := owedAfter w s.owed data
    delivered := s.delivered ++ [⟨(hkRecvPkt w policy s.pending data).1.getD data, borrowed,
      (hkRecvPkt w policy s.pending data).1.isSome⟩] }

/-- The server answers what it was asked. -/
def step (w : Codec) : Step State Event
  | s, .send policy data => some (s.send w policy data)
  | s, .recv policy data borrowed =>
    if borrowed = true → ∃ r ∈ readReply w data, r.key ∈ s.lent then some (s.recv w policy data borrowed) else none

end SlsteamMoon.Stats

/-! What the two hooks do to the pending jobs: a request that goes out under an
owner's id stays pending until a reply of its job and kind arrives. -/
namespace SlsteamMoon.Stats

open KeyValues AppInfo Runs

/-- The raw message type of a decoded frame carries the flag. -/
theorem le32_of_decodeFrame {data : Bytes} {f : Frame} (h : decodeFrame data = some f) :
    le32 data = f.eMsg + kMsgHdrProtoFlag := by
  simp only [decodeFrame, Option.ite_none_left_eq_some, Option.some.injEq] at h
  obtain ⟨-, hflag, -, rfl⟩ := h
  have hlt := le32_lt data
  have hbit : le32 data / 0x80000000 % 2 = 1 := by
    simpa [Nat.testBit_eq_decide_div_mod_eq] using hflag
  simp only [kMsgHdrProtoFlag]
  omega

/-- The message type of the replies of a kind. -/
def replyEMsg (modern : Bool) : Nat := if modern then kEMsgServiceMethodResponse else emsgRequestUserStatsResponse

private theorem replyKind_eq_some {eMsg : Nat} {modern : Bool} (h : replyKind eMsg = some modern) :
    eMsg = replyEMsg modern := by
  rw [replyKind] at h
  split_ifs at h with hlegacy hmodern
  · obtain rfl := Option.some.inj h
    exact hlegacy
  · obtain rfl := Option.some.inj h
    exact hmodern

theorem readReply_eq_some {w : Codec} {data : Bytes} {r : Reply} (h : readReply w data = some r) :
    ¬(data = [] ∨ maxFrameSize < data.length) ∧ ∃ f, decodeFrame data = some f ∧ f.eMsg = replyEMsg r.modern ∧
      w.parseHeader f.hdr = some r.header ∧ r.header.jobidTarget = some r.job ∧ f.body = r.body := by
  simp only [readReply, Option.ite_none_left_eq_some, Option.bind_eq_some_iff, Option.map_eq_some_iff] at h
  obtain ⟨hsize, f, hf, modern, hkind, header, hheader, job, hjob, rfl⟩ := h
  exact ⟨hsize, f, hf, replyKind_eq_some hkind, hheader, hjob, rfl⟩

/-- What `dispatchRecv` and the patching make of an answered reply. -/
def answer (w : Codec) (modern : Bool) : Option Bytes × Header × PendingJobs → Option Bytes × PendingJobs
  | (none, _, pending) => (none, pending)
  | (some body, header, pending) =>
    if body.length ≤ kMaxBodySize ∧ (w.header header).length ≤ kMaxHdrSize then
      (encodeFrame (replyEMsg modern + kMsgHdrProtoFlag) (w.header header) body, pending)
    else (none, pending)

/-- The hook looks at nothing of a reply but its kind, its header and its body. -/
theorem hkRecvPkt_reply {w : Codec} {data : Bytes} {r : Reply} (h : readReply w data = some r) (policy : Policy)
    (pending : PendingJobs) :
    hkRecvPkt w policy pending data = answer w r.modern (rewriteResponse w policy pending r.modern r.body r.header) := by
  obtain ⟨hsize, f, hf, hkind, hheader, -, hbody⟩ := readReply_eq_some h
  have hraw : le32 data = replyEMsg r.modern + kMsgHdrProtoFlag := by
    rw [le32_of_decodeFrame hf, hkind]
  have hmodern : decide (f.eMsg = kEMsgServiceMethodResponse) = r.modern := by
    rw [hkind]
    cases r.modern <;> rfl
  have hkinds : f.eMsg = emsgRequestUserStatsResponse ∨ f.eMsg = kEMsgServiceMethodResponse := by
    rw [hkind]
    cases r.modern
    · exact .inl rfl
    · exact .inr rfl
  rw [hkRecvPkt, if_neg hsize, hf]
  simp only [dispatchRecv, if_pos hkinds, hheader, hmodern, hbody]
  rcases rewriteResponse w policy pending r.modern r.body r.header with ⟨_ | body, header, rest⟩
  · rfl
  · simp only [answer]
    split_ifs
    · simp only [patchRecvFrame, hraw]
    · rfl

/-- The answer is patched in exactly when both parts fit; they then fit the packet. -/
theorem answer_some {w : Codec} (modern : Bool) (body : Bytes) (header : Header) (pending : PendingJobs) :
    (answer w modern (some body, header, pending)).1.isSome ↔
      body.length ≤ kMaxBodySize ∧ (w.header header).length ≤ kMaxHdrSize := by
  simp only [answer]
  split_ifs with hfits
  · have hsize : ¬kMaxPacketSize < msgHdrSize + (w.header header).length + body.length := by
      simp only [kMaxPacketSize] at *
      omega
    simp only [encodeFrame, if_neg hsize, Option.isSome_some, true_iff]
    exact hfits
  · simp only [Option.isSome_none, Bool.false_eq_true, false_iff]
    exact hfits

private theorem answer_pending (w : Codec) (modern : Bool) (out : Option Bytes × Header × PendingJobs) :
    (answer w modern out).2 = out.2.2 := by
  rcases out with ⟨_ | body, header, pending⟩
  · rfl
  · simp only [answer]
    split_ifs <;> rfl

/-- A pending job that a reply of the key is correlated with. -/
def Holds (pending : PendingJobs) (key : Key) : Prop :=
  validJob key.1 = true ∧ ∃ request, pending.lookup key.1 = some request ∧ request.modern = key.2

private theorem holds_insert {pending : PendingJobs} {job : UInt64} {request : Pending} (hvalid : validJob job = true) :
    Holds (pending.insert job request) (job, request.modern) :=
  ⟨hvalid, request, AList.lookup_insert pending, rfl⟩

/-- A job that is set again keeps its kind. -/
theorem Holds.insert {pending : PendingJobs} {key : Key} {job : UInt64} {request : Pending} (h : Holds pending key)
    (hkind : ∀ earlier, pending.lookup job = some earlier → earlier.modern = request.modern) :
    Holds (pending.insert job request) key := by
  obtain ⟨hvalid, held, hlookup, hmodern⟩ := h
  by_cases hjob : key.1 = job
  · subst hjob
    exact ⟨hvalid, request, AList.lookup_insert pending, (hkind held hlookup).symm.trans hmodern⟩
  · exact ⟨hvalid, held, (AList.lookup_insert_ne hjob).trans hlookup, hmodern⟩

private theorem rewriteRequest_keeps {w : Codec} {policy : Policy} {pending : PendingJobs} {modern : Bool}
    {data : Bytes} {header : Header} {key : Key} (h : Holds pending key) :
    Holds (rewriteRequest w policy pending modern data header).2 key := by
  rcases hout : rewriteRequest w policy pending modern data header with ⟨out, after⟩
  obtain ⟨-, rfl⟩ | ⟨job, earlier, -, hlookup, rfl⟩ | ⟨job, request, -, -, -, hlookup, rfl⟩ :=
    rewriteRequest_cases hout
  · exact h
  · apply h.insert
    intro other hother
    obtain rfl := Option.some.inj (hlookup.symm.trans hother)
    rfl
  · apply h.insert
    intro other hother
    cases hlookup.symm.trans hother

private theorem rewriteRequest_lends {w : Codec} {policy : Policy} {pending : PendingJobs} {modern : Bool}
    {data : Bytes} {header : Header} (h : (rewriteRequest w policy pending modern data header).1 ≠ []) :
    ∃ job, header.jobidSource = some job ∧
      Holds (rewriteRequest w policy pending modern data header).2 (job, modern) := by
  rcases hout : rewriteRequest w policy pending modern data header with ⟨out, after⟩
  rw [hout] at h
  obtain ⟨rfl, -⟩ | ⟨job, earlier, rfl, -⟩ | ⟨job, request, hjob, hvalid, rfl, -, rfl⟩ := rewriteRequest_cases hout
  · exact absurd rfl h
  · exact absurd rfl h
  · exact ⟨job, hjob, holds_insert hvalid⟩

/-- What the send hook does to the pending jobs. -/
structure Sends (w : Codec) (pending : PendingJobs) (data : Bytes) (out : Option Bytes × PendingJobs) : Prop where
  keeps : ∀ key, Holds pending key → Holds out.2 key
  lends : out.1.isSome → ∀ key ∈ requestKey w data, Holds out.2 key

private theorem sends_nothing (w : Codec) (pending : PendingJobs) (data : Bytes) :
    Sends w pending data (none, pending) :=
  ⟨fun _ h => h, fun h => by cases h⟩

private theorem handleSendStats_sends {w : Codec} {policy : Policy} {pending : PendingJobs} {modern : Bool}
    {data : Bytes} {f : Frame} (hf : decodeFrame data = some f) (hkind : requestKind f.eMsg = some modern) :
    Sends w pending data (handleSendStats w modern policy pending f) := by
  rw [handleSendStats]
  split_ifs with hlong
  · exact sends_nothing w pending data
  · cases hheader : w.parseHeader f.hdr with
    | none => exact sends_nothing w pending data
    | some header =>
      have hkeeps := fun key => @rewriteRequest_keeps w policy pending modern f.body header key
      have hlends := @rewriteRequest_lends w policy pending modern f.body header
      rcases hout : rewriteRequest w policy pending modern f.body header with ⟨_ | ⟨b, rest⟩, after⟩
      · rw [hout] at hkeeps
        simp only [hout]
        exact ⟨hkeeps, fun h => by cases h⟩
      · rw [hout] at hkeeps hlends
        simp only [hout]
        refine ⟨hkeeps, fun _ key hkey => ?_⟩
        obtain ⟨job, hjob, hholds⟩ := hlends (List.cons_ne_nil b rest)
        have hreq : requestKey w data = some (job, modern) := by
          simp only [requestKey, hf, hkind, hheader, hjob, Option.bind_some, Option.map_some]
        obtain rfl := Option.some.inj (hreq.symm.trans hkey)
        exact hholds

private theorem hkBBuildAndAsyncSendFrame_sends (w : Codec) (policy : Policy) (pending : PendingJobs) (data : Bytes) :
    Sends w pending data (hkBBuildAndAsyncSendFrame w policy pending data) := by
  rw [hkBBuildAndAsyncSendFrame]
  cases hf : decodeFrame data with
  | none => exact sends_nothing w pending data
  | some f =>
    simp only [dispatchSend]
    split_ifs with hlegacy hother
    · exact handleSendStats_sends hf (by rw [requestKind, if_pos hlegacy])
    · exact sends_nothing w pending data
    · have hmodern : requestKind f.eMsg = some true := by
        rw [requestKind, if_neg hlegacy, if_pos (not_not.mp hother)]
      split
      · exact sends_nothing w pending data
      · split_ifs
        · exact handleSendStats_sends hf hmodern
        · exact sends_nothing w pending data

/-- A frame that replies to no job leaves the pending jobs alone. -/
theorem hkRecvPkt_other {w : Codec} {data : Bytes} (h : readReply w data = none) (policy : Policy)
    (pending : PendingJobs) : (hkRecvPkt w policy pending data).2 = pending := by
  rw [hkRecvPkt]
  split_ifs with hsize
  · rfl
  · cases hf : decodeFrame data with
    | none => rfl
    | some f =>
      simp only [dispatchRecv]
      split_ifs with hkinds
      · cases hheader : w.parseHeader f.hdr with
        | none => rfl
        | some header =>
          obtain ⟨modern, hkind⟩ : ∃ modern, replyKind f.eMsg = some modern := by
            rw [replyKind]
            rcases hkinds with hkind | hkind
            · exact ⟨false, if_pos hkind⟩
            · exact ⟨true, by rw [hkind]; rfl⟩
          have hjob : header.jobidTarget = none := by
            simpa [readReply, hsize, hf, hkind, hheader] using h
          have hc : ∀ kind, correlated pending kind header = none := by
            intro kind
            rw [correlated, hjob, Option.filter_none, Option.bind_none]
          simp only [rewriteResponse, hc]
      · rfl

/-- A reply takes its own job at most. -/
theorem hkRecvPkt_keeps {w : Codec} {data : Bytes} {r : Reply} (hr : readReply w data = some r) (policy : Policy)
    {pending : PendingJobs} {key : Key} (h : Holds pending key) (hne : key ≠ r.key) :
    Holds (hkRecvPkt w policy pending data).2 key := by
  rw [hkRecvPkt_reply hr, answer_pending]
  cases hc : correlated pending r.modern r.header with
  | none =>
    rw [rewriteResponse, hc]
    exact h
  | some found =>
    obtain ⟨job, request⟩ := found
    obtain ⟨hjob, hlookup, hmodern⟩ := correlated_job hc
    obtain ⟨-, -, -, -, -, htarget, -⟩ := readReply_eq_some hr
    obtain rfl := Option.some.inj (hjob.symm.trans htarget)
    have hother : key.1 ≠ r.job := by
      intro hsame
      obtain ⟨-, held, hheld, hkind⟩ := h
      rw [hsame] at hheld
      obtain rfl := Option.some.inj (hlookup.symm.trans hheld)
      exact hne (Prod.ext hsame (hkind.symm.trans hmodern))
    have herase : Holds (pending.erase r.job) key := by
      obtain ⟨hvalid, held, hheld, hkind⟩ := h
      exact ⟨hvalid, held, (AList.lookup_erase_ne hother).trans hheld, hkind⟩
    cases ha : accept w policy request r.modern r.body r.header with
    | none =>
      rw [rewriteResponse_refused hc ha]
      exact herase
    | some out =>
      rw [rewriteResponse_accepted hc ha]
      exact herase

/-- Every request still owed is pending. -/
def Outstanding (s : State) : Prop := ∀ key ∈ s.owed, Holds s.pending key

theorem outstanding_start : Outstanding {} := by
  intro key hkey
  cases hkey

theorem send_outstanding {w : Codec} {s : State} {policy : Policy} {data : Bytes} (h : Outstanding s) :
    Outstanding (s.send w policy data) := by
  have hsends := hkBBuildAndAsyncSendFrame_sends w policy s.pending data
  rw [State.send]
  rcases hout : hkBBuildAndAsyncSendFrame w policy s.pending data with ⟨_ | frame, pending⟩
  · rw [hout] at hsends
    intro key hkey
    exact hsends.keeps key (h key hkey)
  · rw [hout] at hsends
    intro key hkey
    obtain hnew | hold := List.mem_append.mp hkey
    · exact hsends.lends rfl key (Option.mem_toList.mp hnew)
    · exact hsends.keeps key (h key hold)

theorem recv_outstanding {w : Codec} {s : State} {policy : Policy} {data : Bytes} {borrowed : Bool}
    (h : Outstanding s) : Outstanding (s.recv w policy data borrowed) := by
  intro key hkey
  simp only [State.recv, owedAfter] at hkey ⊢
  cases hr : readReply w data with
  | none =>
    rw [hr] at hkey
    rw [hkRecvPkt_other hr]
    exact h key hkey
  | some r =>
    simp only [hr, List.mem_filter, decide_eq_true_eq] at hkey
    exact hkRecvPkt_keeps hr policy (h key hkey.1) hkey.2

end SlsteamMoon.Stats
