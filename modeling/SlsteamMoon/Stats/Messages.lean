import SlsteamMoon.AppInfo.Splice
import SlsteamMoon.Stats.PlayerStats
import Mathlib.Data.List.AList

/-! The protobuf messages the stats filter works on. The code generated for them
is a parameter; `proto` is an instance that covers the fields below. -/
namespace SlsteamMoon.Stats

open KeyValues AppInfo

/-- `CMsgProtoBufHeader`: the fields that are read or set, and the bytes of the
others. -/
structure Header where
  steamid : Option UInt64 := none
  clientSessionid : Option Int32 := none
  jobidSource : Option UInt64 := none
  jobidTarget : Option UInt64 := none
  targetJobName : Option Bytes := none
  eresult : Option Int32 := none
  rest : Bytes := []
deriving DecidableEq

/-- `CMsgClientGetUserStats`. -/
structure GetUserStats where
  gameId : Option UInt64 := none
  crcStats : Option UInt32 := none
  schemaLocalVersion : Option Int32 := none
  steamIdForUser : Option UInt64 := none
  rest : Bytes := []
deriving DecidableEq

/-- `CMsgClientGetUserStatsResponse`; the nested messages as they are encoded. -/
structure GetUserStatsResponse where
  gameId : Option UInt64 := none
  eresult : Option Int32 := none
  crcStats : Option UInt32 := none
  schema : Option Bytes := none
  stats : List Bytes := []
  achievementBlocks : List Bytes := []
  rest : Bytes := []
deriving DecidableEq

/-- `ParseFromArray` and `SerializeToArray` of the three messages. None of them
has a required field, so that serialising succeeds. -/
structure Codec where
  parseHeader : Bytes → Option Header
  header : Header → Bytes
  parseRequest : Bytes → Option GetUserStats
  request : GetUserStats → Bytes
  parseResponse : Bytes → Option GetUserStatsResponse
  response : GetUserStatsResponse → Bytes

def maxReplyBytes : Nat := 262144
def maxHeaderBytes : Nat := 1024

/-- The header after `Clear` with the three fields set again. -/
def clearedHeader (steamid : UInt64) (session : Int32) (job : UInt64) : Header where
  steamid := some steamid
  clientSessionid := some session
  jobidTarget := some job

/-- The sizes of the messages with fixed fields only. -/
structure Codec.Bounded (w : Codec) : Prop where
  cleared : ∀ steamid session job result,
    (w.header { clearedHeader steamid session job with eresult := some result }).length ≤ maxHeaderBytes
  failure : ∀ game result,
    (w.response { gameId := some game, eresult := some result }).length ≤ maxReplyBytes

/-- A key is the field number and the wire type. -/
def putKey (number wireType : Nat) : Bytes := putVarint (UInt64.ofNat (number <<< 3 + wireType))

def putFixed64 (number : Nat) : Option UInt64 → Bytes
  | none => []
  | some v => putKey number 1 ++ writeLE64 v.toNat

def putUInt32 (number : Nat) : Option UInt32 → Bytes
  | none => []
  | some v => putKey number 0 ++ putVarint v.toUInt64

/-- A negative value takes its ten bytes. -/
def putInt32 (number : Nat) : Option Int32 → Bytes
  | none => []
  | some v => putKey number 0 ++ putVarint v.toInt64.toUInt64

def putBytes (number : Nat) (value : Bytes) : Bytes :=
  putKey number 2 ++ putVarint (UInt64.ofNat value.length) ++ value

def putOptionalBytes (number : Nat) : Option Bytes → Bytes
  | none => []
  | some value => putBytes number value

private theorem putFixed64_length (number : Nat) (v : Option UInt64) : (putFixed64 number v).length ≤ 18 := by
  cases v with
  | none => exact Nat.zero_le _
  | some v =>
    have hkey : (putKey number 1).length ≤ 10 := putVarint_length _
    simp only [putFixed64, writeLE64, writeLE32, List.length_append, List.length_cons, List.length_nil]
    omega

private theorem putInt32_length (number : Nat) (v : Option Int32) : (putInt32 number v).length ≤ 20 := by
  cases v with
  | none => exact Nat.zero_le _
  | some v =>
    have hkey : (putKey number 0).length ≤ 10 := putVarint_length _
    have hvalue := putVarint_length v.toInt64.toUInt64
    simp only [putInt32, List.length_append]
    omega

def Field.fixed64 (f : Field) : UInt64 := UInt64.ofNat (le64 f.value)

def Field.varint (f : Field) : UInt64 := UInt64.ofNat (((readVarint f.value).map Prod.fst).getD 0)

def Field.int32 (f : Field) : Int32 := f.varint.toUInt32.toInt32

def Header.read (h : Header) (f : Field) : Header :=
  match f.number, f.wireType with
  | 1, 1 => { h with steamid := some f.fixed64 }
  | 2, 0 => { h with clientSessionid := some f.int32 }
  | 10, 1 => { h with jobidSource := some f.fixed64 }
  | 11, 1 => { h with jobidTarget := some f.fixed64 }
  | 12, 2 => { h with targetJobName := some f.value }
  | 13, 0 => { h with eresult := some f.int32 }
  | _, _ => { h with rest := h.rest ++ f.raw }

def Header.write (h : Header) : Bytes :=
  putFixed64 1 h.steamid ++ putInt32 2 h.clientSessionid ++ putFixed64 10 h.jobidSource ++
    putFixed64 11 h.jobidTarget ++ putOptionalBytes 12 h.targetJobName ++ putInt32 13 h.eresult ++ h.rest

def GetUserStats.read (m : GetUserStats) (f : Field) : GetUserStats :=
  match f.number, f.wireType with
  | 1, 1 => { m with gameId := some f.fixed64 }
  | 2, 0 => { m with crcStats := some f.varint.toUInt32 }
  | 3, 0 => { m with schemaLocalVersion := some f.int32 }
  | 4, 1 => { m with steamIdForUser := some f.fixed64 }
  | _, _ => { m with rest := m.rest ++ f.raw }

def GetUserStats.write (m : GetUserStats) : Bytes :=
  putFixed64 1 m.gameId ++ putUInt32 2 m.crcStats ++ putInt32 3 m.schemaLocalVersion ++
    putFixed64 4 m.steamIdForUser ++ m.rest

def GetUserStatsResponse.read (m : GetUserStatsResponse) (f : Field) : GetUserStatsResponse :=
  match f.number, f.wireType with
  | 1, 1 => { m with gameId := some f.fixed64 }
  | 2, 0 => { m with eresult := some f.int32 }
  | 3, 0 => { m with crcStats := some f.varint.toUInt32 }
  | 4, 2 => { m with schema := some f.value }
  | 5, 2 => { m with stats := m.stats ++ [f.value] }
  | 6, 2 => { m with achievementBlocks := m.achievementBlocks ++ [f.value] }
  | _, _ => { m with rest := m.rest ++ f.raw }

def GetUserStatsResponse.write (m : GetUserStatsResponse) : Bytes :=
  putFixed64 1 m.gameId ++ putInt32 2 m.eresult ++ putUInt32 3 m.crcStats ++ putOptionalBytes 4 m.schema ++
    m.stats.flatMap (putBytes 5) ++ m.achievementBlocks.flatMap (putBytes 6) ++ m.rest

/-- A message is what its fields make of the empty one. -/
def parseFields {α : Type} (read : α → Field → α) (empty : α) (d : Bytes) : Option α :=
  if (walk d).complete then some ((walk d).fields.foldl read empty) else none

def proto : Codec where
  parseHeader := parseFields Header.read {}
  header := Header.write
  parseRequest := parseFields GetUserStats.read {}
  request := GetUserStats.write
  parseResponse := parseFields GetUserStatsResponse.read {}
  response := GetUserStatsResponse.write

theorem proto_bounded : proto.Bounded where
  cleared steamid session job result := by
    have hsteamid := putFixed64_length 1 (some steamid)
    have hsession := putInt32_length 2 (some session)
    have hjob := putFixed64_length 11 (some job)
    have hresult := putInt32_length 13 (some result)
    simp only [proto, Header.write, clearedHeader, putFixed64, putInt32, putOptionalBytes, maxHeaderBytes,
      List.length_append, List.length_nil] at *
    omega
  failure game result := by
    have hgame := putFixed64_length 1 (some game)
    have hresult := putInt32_length 2 (some result)
    simp only [proto, GetUserStatsResponse.write, putFixed64, putInt32, putUInt32, putOptionalBytes, maxReplyBytes,
      List.flatMap_nil, List.length_append, List.length_nil] at *
    omega

end SlsteamMoon.Stats

/-! The stats of a game the account does not own are asked for under an owner's
steam id. `rewriteRequest` keeps the job of each such request and
`rewriteResponse` takes the owner's progress out of the reply to it. -/
namespace SlsteamMoon.Stats

open KeyValues

def isSelf (target : UInt64) (account : UInt32) : Bool :=
  account ≠ 0 && (target == 0 || target == (0x0110000100000000 ||| account.toUInt64))

/-- The configuration and the answers of `StatsPolicy` as one call finds them. -/
structure Policy where
  achievements : Bool
  account : UInt32
  localEpoch : UInt32 → UInt32 → UInt64
  achievementOwners : UInt32 → Option UInt64
  achievementOwnerId : UInt64

def resolveOwnerSteamId (app : UInt32) (perApp : UInt32 → Option UInt64) (defaultOwner : UInt64) : UInt64 :=
  match perApp app with
  | some owner => if owner ≠ 0 then owner else defaultOwner
  | none => defaultOwner

structure Pending where
  app : UInt32
  account : UInt32
  epoch : UInt64
  modern : Bool
deriving DecidableEq

abbrev PendingJobs := AList fun _ : UInt64 => Pending

def maxPending : Nat := 4096

def validJob (job : UInt64) : Bool := job ≠ 0 && job ≠ 0xffffffffffffffff

/-- The flags of the walk over a unified request. -/
structure Scan where
  appSeen : Bool := false
  targetSeen : Bool := false
  valid : Bool := true

def Scan.field (s : Scan) (f : Field) : Scan :=
  if f.number ≠ 1 ∧ f.number ≠ 2 then s
  else if (if f.number = 1 then s.targetSeen else s.appSeen) ∨ f.wireType ≠ 0 then { s with valid := false }
  else
    let s := if f.number = 1 then { s with targetSeen := true } else { s with appSeen := true }
    match readVarint f.value with
    | none => { s with valid := false }
    | some (value, _) => if f.number = 2 ∧ (value = 0 ∨ 0xffffffff < value) then { s with valid := false } else s

/-- The app and the user of a unified request. -/
def modernTarget (data : Bytes) : Option (UInt32 × UInt64) :=
  if (walk data).complete ∧ ((walk data).fields.foldl Scan.field {}).valid then
    (parseRequestAppId data).map fun app => (app, (parseRequestSteamId data).getD 0)
  else none

/-- The app and the user of a legacy request. -/
def legacyTarget (legacy : GetUserStats) : Option (UInt32 × UInt64) :=
  legacy.gameId.bind fun game =>
    if 0xffffffff < game then none else some (game.toUInt32, legacy.steamIdForUser.getD 0)

/-- The app and the user a request asks for, and the request for an owner. -/
def readRequest (w : Codec) (modern : Bool) (data : Bytes) : Option (UInt32 × UInt64 × (UInt64 → Bytes)) :=
  if modern then
    (modernTarget data).map fun (app, target) => (app, target, fun owner => buildSpoofedRequest owner app)
  else
    (w.parseRequest data).bind fun legacy =>
      (legacyTarget legacy).map fun (app, target) => (app, target, fun owner =>
        w.request { legacy with crcStats := none, schemaLocalVersion := some (-1), steamIdForUser := some owner })

/-- `rewriteRequest` up to its lock: the job, what is remembered of the request
and the rewritten body. -/
def spoof (w : Codec) (policy : Policy) (modern : Bool) (data : Bytes) (header : Header) :
    Option (UInt64 × Pending × Bytes) :=
  if policy.achievements = false ∨ maxReplyBytes < data.length ∨ maxHeaderBytes < (w.header header).length then none
  else (header.jobidSource.filter validJob).bind fun job =>
    if policy.account = 0 ∨ ∃ id ∈ header.steamid, isSelf id policy.account = false then none
    else (readRequest w modern data).bind fun (app, target, forOwner) =>
      let epoch := policy.localEpoch app policy.account
      let owner := resolveOwnerSteamId app policy.achievementOwners policy.achievementOwnerId
      if isSelf target policy.account = false ∨ epoch = 0 ∨ owner = 0 ∨ isSelf owner policy.account then none
      else some (job, { app, account := policy.account, epoch, modern }, forOwner owner)

/-- `rewriteRequest`; an empty body leaves the request as it is. -/
def rewriteRequest (w : Codec) (policy : Policy) (pending : PendingJobs) (modern : Bool) (data : Bytes)
    (header : Header) : Bytes × PendingJobs :=
  match spoof w policy modern data header with
  | none => ([], pending)
  | some (job, request, out) =>
    match pending.lookup job with
    -- An ambiguous duplicate: the reply is to fail.
    | some earlier => ([], pending.insert job { earlier with epoch := 0 })
    | none =>
      if maxPending ≤ pending.entries.length ∨ maxReplyBytes < out.length then ([], pending)
      else (out, pending.insert job request)

/-- The pending request a reply is correlated with. -/
def correlated (pending : PendingJobs) (modern : Bool) (header : Header) : Option (UInt64 × Pending) :=
  (header.jobidTarget.filter validJob).bind fun job =>
    (pending.lookup job).bind fun request => if request.modern = modern then some (job, request) else none

/-- The header of a reply that is answered as a failure. -/
def failureHeader (w : Codec) (header : Header) : Header :=
  let kept := if maxHeaderBytes < (w.header header).length then
      clearedHeader (header.steamid.getD 0) (header.clientSessionid.getD 0)
        (header.jobidTarget.getD 0xffffffffffffffff)
    else header
  { kept with eresult := some 2 }

def failureBody (w : Codec) (request : Pending) (modern : Bool) : Bytes :=
  if modern then [] else w.response { gameId := some request.app.toUInt64, eresult := some 2 }

/-- The fields of a unified reply other than the CRC and the stats. -/
def keptFields (data : Bytes) : List Field := (walk data).fields.filter fun f => f.number ≠ 2 ∧ f.number ≠ 4

def acceptModern (data : Bytes) : Option Bytes :=
  if (walk data).complete = false ∨ fieldBytes data 3 = [] then none
  else some ((keptFields data).flatMap Field.raw)

/-- A legacy reply without the owner's progress. -/
def GetUserStatsResponse.stripped (body : GetUserStatsResponse) : GetUserStatsResponse :=
  { body with stats := [], achievementBlocks := [], crcStats := none }

def acceptLegacy (w : Codec) (app : UInt32) (data : Bytes) : Option Bytes :=
  (w.parseResponse data).bind fun body =>
    if body.gameId.getD 0 ≠ app.toUInt64 ∨ body.schema.getD [] = [] then none
    else some (w.response { body.stripped with eresult := some 1 })

/-- The body of a reply that passes every check. -/
def accept (w : Codec) (policy : Policy) (request : Pending) (modern : Bool) (data : Bytes) (header : Header) :
    Option Bytes :=
  if policy.achievements = false ∨ request.epoch = 0 ∨ maxReplyBytes < data.length ∨
      maxHeaderBytes < (w.header header).length ∨
      policy.localEpoch request.app request.account ≠ request.epoch ∨
      ∃ id ∈ header.steamid, isSelf id request.account = false then none
  else if modern then acceptModern data else acceptLegacy w request.app data

/-- `rewriteResponse`: the body when the reply is answered, the header after it
and the jobs that remain. -/
def rewriteResponse (w : Codec) (policy : Policy) (pending : PendingJobs) (modern : Bool) (data : Bytes)
    (header : Header) : Option Bytes × Header × PendingJobs :=
  match correlated pending modern header with
  | none => (none, header, pending)
  | some (job, request) =>
    match accept w policy request modern data header with
    | none => (some (failureBody w request modern), failureHeader w header, pending.erase job)
    | some out => (some out, header, pending.erase job)

/-- What `rewriteRequest` does to the pending jobs, whatever the request. -/
theorem rewriteRequest_cases {w : Codec} {policy : Policy} {pending : PendingJobs} {modern : Bool} {data : Bytes}
    {header : Header} {out : Bytes} {pending' : PendingJobs}
    (h : rewriteRequest w policy pending modern data header = (out, pending')) :
    out = [] ∧ pending' = pending ∨
    (∃ job earlier, out = [] ∧ pending.lookup job = some earlier ∧
      pending' = pending.insert job { earlier with epoch := 0 }) ∨
    ∃ job request, header.jobidSource = some job ∧ validJob job = true ∧ request.modern = modern ∧
      pending.lookup job = none ∧ pending' = pending.insert job request := by
  rw [rewriteRequest] at h
  cases hs : spoof w policy modern data header with
  | none =>
    rw [hs] at h
    obtain ⟨rfl, rfl⟩ := Prod.mk.inj h
    exact .inl ⟨rfl, rfl⟩
  | some spoofed =>
    obtain ⟨job, request, body⟩ := spoofed
    have hjob : header.jobidSource = some job ∧ validJob job = true ∧ request.modern = modern := by
      simp only [spoof, Option.ite_none_left_eq_some, Option.bind_eq_some_iff, Option.filter_eq_some_iff] at hs
      obtain ⟨-, found, hfound, -, target, -, -, heq⟩ := hs
      simp only [Option.some.injEq, Prod.mk.injEq] at heq
      obtain ⟨rfl, rfl, -⟩ := heq
      exact ⟨hfound.1, hfound.2, rfl⟩
    simp only [hs] at h
    cases hl : pending.lookup job with
    | some earlier =>
      rw [hl] at h
      obtain ⟨rfl, rfl⟩ := Prod.mk.inj h
      exact .inr (.inl ⟨job, earlier, rfl, hl, rfl⟩)
    | none =>
      simp only [hl] at h
      split_ifs at h
      · obtain ⟨rfl, rfl⟩ := Prod.mk.inj h
        exact .inl ⟨rfl, rfl⟩
      · obtain ⟨rfl, rfl⟩ := Prod.mk.inj h
        exact .inr (.inr ⟨job, request, hjob.1, hjob.2.1, hjob.2.2, hl, rfl⟩)

theorem correlated_eq_some {pending : PendingJobs} {modern : Bool} {header : Header} {job : UInt64}
    {request : Pending} (hjob : header.jobidTarget = some job) (hvalid : validJob job = true)
    (hl : pending.lookup job = some request) (hmodern : request.modern = modern) :
    correlated pending modern header = some (job, request) := by
  rw [correlated, hjob, Option.filter_some, if_pos hvalid, Option.bind_some, hl, Option.bind_some, if_pos hmodern]

theorem rewriteResponse_refused {w : Codec} {policy : Policy} {pending : PendingJobs} {modern : Bool} {data : Bytes}
    {header : Header} {job : UInt64} {request : Pending}
    (hc : correlated pending modern header = some (job, request))
    (ha : accept w policy request modern data header = none) :
    rewriteResponse w policy pending modern data header =
      (some (failureBody w request modern), failureHeader w header, pending.erase job) := by
  simp only [rewriteResponse, hc, ha]

theorem rewriteResponse_accepted {w : Codec} {policy : Policy} {pending : PendingJobs} {modern : Bool} {data : Bytes}
    {header : Header} {job : UInt64} {request : Pending} {out : Bytes}
    (hc : correlated pending modern header = some (job, request))
    (ha : accept w policy request modern data header = some out) :
    rewriteResponse w policy pending modern data header = (some out, header, pending.erase job) := by
  simp only [rewriteResponse, hc, ha]

theorem correlated_job {pending : PendingJobs} {modern : Bool} {header : Header} {job : UInt64} {request : Pending}
    (h : correlated pending modern header = some (job, request)) :
    header.jobidTarget = some job ∧ pending.lookup job = some request ∧ request.modern = modern := by
  obtain ⟨found, hfound, hrest⟩ := Option.bind_eq_some_iff.mp h
  obtain ⟨earlier, hl, heq⟩ := Option.bind_eq_some_iff.mp hrest
  obtain ⟨hmodern, heq⟩ := Option.ite_none_right_eq_some.mp heq
  obtain ⟨rfl, rfl⟩ := Prod.mk.inj (Option.some.inj heq)
  exact ⟨(Option.filter_eq_some_iff.mp hfound).1, hl, hmodern⟩

end SlsteamMoon.Stats
