import SlsteamMoon.KeyValues.Text

/-! Websocket frames of the CM connection: what the server writes, how a frame is taken from the
front of the receive buffer and the loop that drains the buffer between two receives. -/
namespace SlsteamMoon.CmClient

open KeyValues

/-- What one attempt to take a frame from the front of the buffer answers. -/
inductive Read
  | frame (payload : Bytes) (opcode : UInt8) (rest : Bytes)
  | incomplete
  | error
  deriving DecidableEq

/-- The largest payload, 128 MiB. -/
def maxPayload : Nat := 128 * 1024 * 1024

/-- Bytes of a number, the most significant first. -/
def bigEndian (bytes : Bytes) : Nat := bytes.foldl (fun n b => n * 256 + b.toNat) 0

/-- The payload of `len` bytes that starts at `pos`. -/
def takePayload (buf : Bytes) (opcode : UInt8) (pos len : Nat) : Read :=
  if maxPayload < len then .error
  else if buf.length < pos + len then .incomplete
  else .frame ((buf.drop pos).take len) opcode (buf.drop (pos + len))

def wsTryReadFrame (buf : Bytes) : Read :=
  match buf with
  | b0 :: b1 :: _ =>
    let opcode := b0 &&& 0x0f
    let skip := if b1 &&& 0x80 ≠ 0 then 4 else 0
    let len := (b1 &&& 0x7f).toNat
    if len = 126 then
      if buf.length < 4 then .incomplete else takePayload buf opcode (4 + skip) (bigEndian ((buf.drop 2).take 2))
    else if len = 127 then
      if buf.length < 10 then .incomplete else takePayload buf opcode (10 + skip) (bigEndian ((buf.drop 2).take 8))
    else takePayload buf opcode (2 + skip) len
  | _ => .incomplete

/-- What is left of the buffer, the packets handled so far, and whether the connection is given up. -/
structure Drained where
  rx : Bytes
  handled : List Bytes
  failed : Bool
  deriving DecidableEq

/-- The inner loop; a frame takes two bytes at least, so the buffer's length bounds its turns. -/
def drainFrames : Nat → Bytes → List Bytes → Drained
  | 0, rx, handled => ⟨rx, handled, false⟩
  | fuel + 1, rx, handled =>
    match wsTryReadFrame rx with
    | .incomplete => ⟨rx, handled, false⟩
    | .error => ⟨rx, handled, true⟩
    | .frame payload opcode rest =>
      if opcode = 0x8 then ⟨rest, handled, true⟩
      else if opcode = 0x9 ∨ opcode = 0xa then drainFrames fuel rest handled
      else if opcode = 0x2 ∨ opcode = 0x0 then drainFrames fuel rest (handled ++ [payload])
      else drainFrames fuel rest handled

def drain (rx : Bytes) (handled : List Bytes) : Drained := drainFrames rx.length rx handled

/-- What `recvSome` meets: bytes, nothing yet, or an error. -/
inductive Recv
  | data (bytes : Bytes)
  | again
  | failed
  deriving DecidableEq

/-- One turn's clock and receive. -/
structure Turn where
  expired : Bool
  recv : Recv
  deriving DecidableEq

/-- Where the loop stands: its answer if it has returned, the turns whose receive it has not made. -/
structure Pumped where
  answer : Option Bool
  rx : Bytes
  handled : List Bytes
  turns : List Turn
  deriving DecidableEq

/-- `handled` are the calls of `handlePacket`; the predicate reads what they have set. -/
def pumpUntil (predicate : List Bytes → Bool) : List Turn → Bytes → List Bytes → Pumped
  | [], rx, handled =>
    let d := drain rx handled
    if d.failed = true then ⟨some false, d.rx, d.handled, []⟩
    else if predicate d.handled = true then ⟨some true, d.rx, d.handled, []⟩
    else ⟨none, d.rx, d.handled, []⟩
  | turn :: turns, rx, handled =>
    let d := drain rx handled
    if d.failed = true then ⟨some false, d.rx, d.handled, turn :: turns⟩
    else if predicate d.handled = true then ⟨some true, d.rx, d.handled, turn :: turns⟩
    else if turn.expired = true then ⟨some false, d.rx, d.handled, turn :: turns⟩
    else match turn.recv with
      | .data bytes =>
        if bytes = [] then ⟨some false, d.rx, d.handled, turns⟩
        else pumpUntil predicate turns (d.rx ++ bytes) d.handled
      | .again => pumpUntil predicate turns d.rx d.handled
      | .failed => ⟨some false, d.rx, d.handled, turns⟩

def Recv.bytes : Recv → Bytes
  | .data bytes => bytes
  | _ => []

/-- The bytes that turns bring. -/
def received (turns : List Turn) : Bytes := turns.flatMap fun turn => turn.recv.bytes

/-! ### The server's side -/

inductive Opcode
  | continuation
  | binary
  | ping
  | pong
  deriving DecidableEq

def Opcode.code : Opcode → UInt8
  | .continuation => 0x0
  | .binary => 0x2
  | .ping => 0x9
  | .pong => 0xa

def Opcode.isControl : Opcode → Bool
  | .ping | .pong => true
  | _ => false

/-- An unmasked frame. A control frame is short and is not fragmented. -/
structure ServerFrame where
  fin : Bool
  opcode : Opcode
  payload : Bytes
  bounded : payload.length ≤ maxPayload
  control : opcode.isControl = true → fin = true ∧ payload.length ≤ 125

/-- The payload's length: seven bits, or 126 and two bytes, or 127 and eight. -/
def lengthBytes (n : Nat) : Bytes :=
  if n ≤ 125 then [UInt8.ofNat n]
  else if n ≤ 0xffff then [126, UInt8.ofNat (n / 256), UInt8.ofNat n]
  else [127, UInt8.ofNat (n / 0x100000000000000), UInt8.ofNat (n / 0x1000000000000), UInt8.ofNat (n / 0x10000000000),
    UInt8.ofNat (n / 0x100000000), UInt8.ofNat (n / 0x1000000), UInt8.ofNat (n / 0x10000), UInt8.ofNat (n / 0x100),
    UInt8.ofNat n]

/-- FIN and the opcode. -/
def ServerFrame.firstByte (f : ServerFrame) : UInt8 := if f.fin then f.opcode.code ||| 0x80 else f.opcode.code

def ServerFrame.encode (f : ServerFrame) : Bytes := f.firstByte :: (lengthBytes f.payload.length ++ f.payload)

def encodeAll (frames : List ServerFrame) : Bytes := frames.flatMap ServerFrame.encode

/-- The messages of a sequence of frames, given the part of a fragmented message that is open. None when a
continuation has nothing to continue, a message starts inside another or the last one is unfinished. -/
def reassemble : Option Bytes → List ServerFrame → Option (List Bytes)
  | opened, [] => if opened.isSome then none else some []
  | opened, f :: frames =>
    match f.opcode with
    | .ping => reassemble opened frames
    | .pong => reassemble opened frames
    | .binary =>
      match opened with
      | none => if f.fin then (reassemble none frames).map (f.payload :: ·) else reassemble (some f.payload) frames
      | some _ => none
    | .continuation =>
      match opened with
      | none => none
      | some part =>
        if f.fin then (reassemble none frames).map ((part ++ f.payload) :: ·)
        else reassemble (some (part ++ f.payload)) frames

/-- The frames of a sequence of messages, with control frames between them. -/
structure Stream where
  frames : List ServerFrame
  messages : List Bytes
  reassembled : reassemble none frames = some messages

/-- A message that is sent in one frame. -/
def ServerFrame.whole (f : ServerFrame) : Bool := f.opcode.isControl || f.fin

end SlsteamMoon.CmClient
