import SlsteamMoon.CmClient.WebSocket

/-! Which packets the loop handles: one for each data frame, wherever the stream is cut. A message
that is sent in several frames is handled in as many pieces. -/
namespace SlsteamMoon.CmClient

open KeyValues

/-! ### One frame -/

private theorem bigEndian_two {n : Nat} (h : n ≤ 0xffff) : bigEndian [UInt8.ofNat (n / 256), UInt8.ofNat n] = n := by
  simp only [bigEndian, List.foldl_cons, List.foldl_nil, UInt8.toNat_ofNat']
  omega

private theorem bigEndian_eight {n : Nat} (h : n ≤ maxPayload) :
    bigEndian [UInt8.ofNat (n / 0x100000000000000), UInt8.ofNat (n / 0x1000000000000), UInt8.ofNat (n / 0x10000000000),
      UInt8.ofNat (n / 0x100000000), UInt8.ofNat (n / 0x1000000), UInt8.ofNat (n / 0x10000), UInt8.ofNat (n / 0x100),
      UInt8.ofNat n] = n := by
  simp only [maxPayload] at h
  simp only [bigEndian, List.foldl_cons, List.foldl_nil, UInt8.toNat_ofNat']
  omega

namespace ServerFrame

/-- The bytes in front of the payload. -/
def header (f : ServerFrame) : Bytes := f.firstByte :: lengthBytes f.payload.length

private theorem encode_eq (f : ServerFrame) : f.encode = f.header ++ f.payload := rfl

private theorem firstByte_opcode (f : ServerFrame) : f.firstByte &&& 0x0f = f.opcode.code := by
  rw [firstByte]
  cases f.fin <;> cases f.opcode <;> rfl

end ServerFrame

private theorem short_length {n : Nat} (h : n ≤ 125) :
    UInt8.ofNat n &&& 0x80 = 0 ∧ (UInt8.ofNat n &&& 0x7f).toNat = n := by
  have hall : ∀ k : Fin 126, UInt8.ofNat k.val &&& 0x80 = 0 ∧ (UInt8.ofNat k.val &&& 0x7f).toNat = k.val := by
    decide +kernel
  exact hall ⟨n, Nat.lt_succ_of_le h⟩

/-- Behind a whole header the payload is looked for, in each of the three length encodings. -/
theorem wsTryReadFrame_header (f : ServerFrame) (after : Bytes) :
    wsTryReadFrame (f.header ++ after) =
      takePayload (f.header ++ after) f.opcode.code f.header.length f.payload.length := by
  have hopcode := f.firstByte_opcode
  rw [ServerFrame.header, lengthBytes]
  split_ifs with h125 h16
  · obtain ⟨hmask, hlen⟩ := short_length h125
    simp only [List.cons_append, List.nil_append, wsTryReadFrame, hopcode, hmask, hlen, ne_eq, not_true_eq_false,
      if_false, List.length_cons, List.length_nil]
    rw [if_neg (by omega), if_neg (by omega)]
  · simp only [List.cons_append, List.nil_append, wsTryReadFrame, hopcode, List.drop_succ_cons, List.drop_zero,
      List.take_succ_cons, List.take_zero, bigEndian_two h16, List.length_cons, List.length_nil]
    rw [if_pos (by decide), if_neg (by omega)]
    rfl
  · simp only [List.cons_append, List.nil_append, wsTryReadFrame, hopcode, List.drop_succ_cons, List.drop_zero,
      List.take_succ_cons, List.take_zero, bigEndian_eight f.bounded, List.length_cons, List.length_nil]
    rw [if_neg (by decide), if_pos (by decide), if_neg (by omega)]
    rfl

private theorem wsTryReadFrame_encode (f : ServerFrame) (rest : Bytes) :
    wsTryReadFrame (f.encode ++ rest) = .frame f.payload f.opcode.code rest := by
  rw [f.encode_eq, List.append_assoc, wsTryReadFrame_header, takePayload, if_neg (Nat.not_lt.mpr f.bounded),
    if_neg (by simp only [List.length_append]; omega), List.drop_left, List.take_left, ← List.append_assoc,
    ← List.length_append, List.drop_left]

/-- Part of a header: the length is not known yet. -/
theorem wsTryReadFrame_part_of_header (f : ServerFrame) {rx more : Bytes} (h : rx ++ more = f.header)
    (hmore : more ≠ []) : wsTryReadFrame rx = .incomplete := by
  have hpos : 0 < more.length := List.length_pos_iff.mpr hmore
  have hlength : rx.length + more.length = f.header.length := by rw [← List.length_append, h]
  match rx with
  | [] => rfl
  | [_] => rfl
  | b0 :: b1 :: rest =>
    rw [ServerFrame.header, lengthBytes] at h hlength
    simp only [wsTryReadFrame]
    split_ifs at h hlength with h125 h16
    · simp only [List.length_cons, List.length_nil] at hlength
      omega
    · obtain rfl : b1 = 126 := (List.cons.inj (List.cons.inj h).2).1
      simp only [List.length_cons, List.length_nil] at hlength
      rw [if_pos (by decide), if_pos (by simp only [List.length_cons]; omega)]
    · obtain rfl : b1 = 127 := (List.cons.inj (List.cons.inj h).2).1
      simp only [List.length_cons, List.length_nil] at hlength
      rw [if_neg (by decide), if_pos (by decide), if_pos (by simp only [List.length_cons]; omega)]

/-- Part of a frame, wherever it is cut. -/
theorem wsTryReadFrame_part (f : ServerFrame) {rx more : Bytes} (h : rx ++ more = f.encode) (hmore : more ≠ []) :
    wsTryReadFrame rx = .incomplete := by
  rw [f.encode_eq] at h
  obtain ⟨part, hheader, hrest⟩ | ⟨part, hrx, hpayload⟩ := List.append_eq_append_iff.mp h
  · by_cases hpart : part = []
    · subst hpart
      rw [List.append_nil] at hheader
      have := wsTryReadFrame_header f []
      rw [List.append_nil, hheader] at this
      rw [this, takePayload, if_neg (Nat.not_lt.mpr f.bounded), if_pos]
      have hpos : 0 < more.length := List.length_pos_iff.mpr hmore
      rw [List.nil_append] at hrest
      rw [← hrest]
      omega
    · exact wsTryReadFrame_part_of_header f hheader.symm hpart
  · have hpos : 0 < more.length := List.length_pos_iff.mpr hmore
    rw [hrx, wsTryReadFrame_header, takePayload, if_neg (Nat.not_lt.mpr f.bounded), if_pos]
    rw [hpayload, List.length_append, List.length_append]
    omega

/-! ### The loop -/

/-- The payloads of the data frames. -/
def deliveries : List ServerFrame → List Bytes
  | [] => []
  | f :: frames => (if f.opcode.isControl then [] else [f.payload]) ++ deliveries frames

private theorem deliveries_append (frames more : List ServerFrame) :
    deliveries (frames ++ more) = deliveries frames ++ deliveries more := by
  induction frames with
  | nil => rfl
  | cons f frames ih => rw [List.cons_append, deliveries, deliveries, ih, List.append_assoc]

private theorem encodeAll_cons (f : ServerFrame) (frames : List ServerFrame) :
    encodeAll (f :: frames) = f.encode ++ encodeAll frames := rfl

/-- A whole frame in front of the buffer is taken off, and handled when it carries data. -/
theorem drainFrames_frame (f : ServerFrame) (fuel : Nat) (rest : Bytes) (handled : List Bytes) :
    drainFrames (fuel + 1) (f.encode ++ rest) handled =
      drainFrames fuel rest (handled ++ if f.opcode.isControl then [] else [f.payload]) := by
  rw [drainFrames, wsTryReadFrame_encode]
  cases f.opcode with
  | continuation => rfl
  | binary => rfl
  | ping => rw [Opcode.isControl, if_pos rfl, List.append_nil]; rfl
  | pong => rw [Opcode.isControl, if_pos rfl, List.append_nil]; rfl

private theorem drainFrames_incomplete {rx : Bytes} (h : wsTryReadFrame rx = .incomplete) (fuel : Nat)
    (handled : List Bytes) : drainFrames fuel rx handled = ⟨rx, handled, false⟩ := by
  cases fuel with
  | zero => rfl
  | succ fuel => rw [drainFrames, h]

/-- Draining handles the frames that have arrived whole and keeps the front of the next one. -/
theorem drainFrames_spec (frames : List ServerFrame) {fuel : Nat} {rx future : Bytes} (handled : List Bytes)
    (hfuel : rx.length ≤ fuel) (h : rx ++ future = encodeAll frames) :
    ∃ done rest rx', frames = done ++ rest ∧
      drainFrames fuel rx handled = ⟨rx', handled ++ deliveries done, false⟩ ∧
      rx' ++ future = encodeAll rest ∧ (future = [] → rest = []) := by
  induction frames generalizing fuel rx handled with
  | nil =>
    obtain ⟨rfl, rfl⟩ := List.append_eq_nil_iff.mp h
    refine ⟨[], [], [], rfl, ?_, rfl, fun _ => rfl⟩
    rw [drainFrames_incomplete rfl, deliveries, List.append_nil]
  | cons f frames ih =>
    rw [encodeAll_cons] at h
    -- either the frame has arrived whole or some of it is still to come
    have hcut : (∃ more, rx = f.encode ++ more ∧ more ++ future = encodeAll frames) ∨
        ∃ missing, missing ≠ [] ∧ rx ++ missing = f.encode ∧ future ≠ [] := by
      obtain ⟨missing, hframe, hfuture⟩ | ⟨more, hrx, hmore⟩ := List.append_eq_append_iff.mp h
      · by_cases hnil : missing = []
        · subst hnil
          rw [List.append_nil] at hframe
          exact .inl ⟨[], by rw [List.append_nil, hframe], hfuture⟩
        · refine .inr ⟨missing, hnil, hframe.symm, ?_⟩
          rw [hfuture]
          exact List.append_ne_nil_of_left_ne_nil hnil _
      · exact .inl ⟨more, hrx, hmore.symm⟩
    obtain ⟨more, rfl, hmore⟩ | ⟨missing, hnil, hframe, hfuture⟩ := hcut
    · cases fuel with
      | zero =>
        rw [List.length_append, f.encode_eq, ServerFrame.header, List.cons_append, List.length_cons] at hfuel
        omega
      | succ fuel =>
        have hless : more.length ≤ fuel := by
          rw [List.length_append, f.encode_eq, ServerFrame.header, List.cons_append, List.length_cons] at hfuel
          omega
        obtain ⟨done, rest, rx', rfl, hdrain, hrest, hall⟩ :=
          ih (handled ++ if f.opcode.isControl then [] else [f.payload]) hless hmore
        refine ⟨f :: done, rest, rx', rfl, ?_, hrest, hall⟩
        rw [drainFrames_frame, hdrain, deliveries, List.append_assoc]
    · refine ⟨[], f :: frames, rx, rfl, ?_, by rw [encodeAll_cons]; exact h, fun hnone => absurd hnone hfuture⟩
      rw [drainFrames_incomplete (wsTryReadFrame_part f hframe hnil), deliveries, List.append_nil]

private theorem received_cons (turn : Turn) (turns : List Turn) :
    received (turn :: turns) = turn.recv.bytes ++ received turns := rfl

/-- A loop that has made every receive has handled a packet for each data frame. -/
theorem pumpUntil_handled (predicate : List Bytes → Bool) {turns : List Turn} {frames : List ServerFrame} {rx : Bytes}
    (handled : List Bytes) (hbytes : rx ++ received turns = encodeAll frames)
    (hall : (pumpUntil predicate turns rx handled).turns = []) :
    (pumpUntil predicate turns rx handled).handled = handled ++ deliveries frames := by
  induction turns generalizing frames rx handled with
  | nil =>
    obtain ⟨done, rest, rx', rfl, hdrain, -, hnone⟩ := drainFrames_spec frames handled (Nat.le_refl rx.length) hbytes
    obtain rfl := hnone rfl
    rw [pumpUntil, drain, hdrain, List.append_nil]
    dsimp only
    rw [if_neg (by decide)]
    split_ifs <;> rfl
  | cons turn turns ih =>
    obtain ⟨done, rest, rx', rfl, hdrain, hrest, hnone⟩ :=
      drainFrames_spec frames handled (Nat.le_refl rx.length) hbytes
    rw [deliveries_append, ← List.append_assoc]
    rw [received_cons] at hrest hnone
    rw [pumpUntil, drain, hdrain] at hall ⊢
    dsimp only at hall ⊢
    rw [if_neg (by decide)] at hall ⊢
    split_ifs at hall ⊢
    -- a receive that brings nothing is the last, and nothing was to come
    have hclosed (hrecv : turn.recv.bytes = []) (hturns : turns = []) : deliveries rest = [] := by
      rw [hnone (by rw [hrecv, hturns]; rfl)]
      rfl
    obtain ⟨expired, recv⟩ := turn
    cases recv with
    | data bytes =>
      dsimp only at hall ⊢
      split_ifs at hall ⊢ with hempty
      · rw [hclosed hempty hall, List.append_nil]
      · rw [← List.append_assoc] at hrest
        exact ih _ hrest hall
    | again => exact ih _ hrest hall
    | failed => rw [hclosed rfl hall, List.append_nil]

/-! ### Messages -/

/-- The last fragment of a message, or one before it. -/
theorem deliveries_length_data {frames : List ServerFrame} {messages : List Bytes} {payload content : Bytes}
    (fin : Bool)
    (ih : ∀ {opened : Option Bytes} {messages : List Bytes}, reassemble opened frames = some messages →
      (deliveries frames).length = messages.length + frames.countP (fun f => !f.whole))
    (h : (if fin then (reassemble none frames).map (content :: ·) else reassemble (some content) frames) = some messages) :
    [payload].length + (deliveries frames).length =
      messages.length + (frames.countP (fun f => !f.whole) + if !fin then 1 else 0) := by
  cases fin with
  | true =>
    obtain ⟨more, hmore, rfl⟩ := Option.map_eq_some_iff.mp h
    rw [ih hmore]
    simp only [List.length_cons, List.length_nil, Bool.not_true, Bool.false_eq_true, if_false]
    omega
  | false =>
    rw [ih h]
    simp only [List.length_cons, List.length_nil, Bool.not_false, if_true]
    omega

/-- A frame is handled for each message, and one more for each fragment before its last. -/
theorem deliveries_length {frames : List ServerFrame} {opened : Option Bytes} {messages : List Bytes}
    (h : reassemble opened frames = some messages) :
    (deliveries frames).length = messages.length + frames.countP (fun f => !f.whole) := by
  induction frames generalizing opened messages with
  | nil =>
    cases opened with
    | none =>
      obtain rfl := Option.some.inj h
      rfl
    | some part => cases h
  | cons f frames ih =>
    rw [deliveries, List.length_append, List.countP_cons, ServerFrame.whole]
    cases opened with
    | none =>
      rw [reassemble] at h
      cases hopcode : f.opcode with
      | ping =>
        rw [hopcode] at h
        rw [ih h]
        simp [Opcode.isControl]
      | pong =>
        rw [hopcode] at h
        rw [ih h]
        simp [Opcode.isControl]
      | binary =>
        rw [hopcode] at h
        exact deliveries_length_data f.fin ih h
      | continuation =>
        rw [hopcode] at h
        cases h
    | some part =>
      rw [reassemble] at h
      cases hopcode : f.opcode with
      | ping =>
        rw [hopcode] at h
        rw [ih h]
        simp [Opcode.isControl]
      | pong =>
        rw [hopcode] at h
        rw [ih h]
        simp [Opcode.isControl]
      | binary =>
        rw [hopcode] at h
        cases h
      | continuation =>
        rw [hopcode] at h
        exact deliveries_length_data f.fin ih h

/-- Without fragments every message is one delivery. -/
theorem deliveries_eq_of_whole {frames : List ServerFrame} {messages : List Bytes}
    (h : reassemble none frames = some messages) (hwhole : ∀ f ∈ frames, f.whole = true) :
    deliveries frames = messages := by
  induction frames generalizing messages with
  | nil => exact Option.some.inj h
  | cons f frames ih =>
    have hrest : ∀ g ∈ frames, g.whole = true := fun g hg => hwhole g (List.mem_cons_of_mem f hg)
    have hf : f.whole = true := hwhole f List.mem_cons_self
    rw [ServerFrame.whole] at hf
    rw [deliveries]
    rw [reassemble] at h
    cases hopcode : f.opcode with
    | continuation =>
      rw [hopcode] at h
      cases h
    | binary =>
      rw [hopcode] at h hf
      rw [if_pos (show f.fin = true from hf)] at h
      obtain ⟨more, hmore, rfl⟩ := Option.map_eq_some_iff.mp h
      rw [ih hmore hrest]
      rfl
    | ping =>
      rw [hopcode] at h
      exact ih h hrest
    | pong =>
      rw [hopcode] at h
      exact ih h hrest

/-- A loop that receives all of a stream calls `handlePacket` once for each message, with the message,
just when every message is sent in one frame. -/
theorem pumpUntil_delivers_iff (predicate : List Bytes → Bool) (s : Stream) (rx : Bytes) (turns : List Turn)
    (hbytes : rx ++ received turns = encodeAll s.frames) (hall : (pumpUntil predicate turns rx []).turns = []) :
    (pumpUntil predicate turns rx []).handled = s.messages ↔ ∀ f ∈ s.frames, f.whole = true := by
  rw [pumpUntil_handled predicate [] hbytes hall, List.nil_append]
  constructor
  · intro h
    have hlength := deliveries_length s.reassembled
    rw [h] at hlength
    have hnone : s.frames.countP (fun f => !f.whole) = 0 := by omega
    intro f hf
    simpa using List.countP_eq_zero.mp hnone f hf
  · exact deliveries_eq_of_whole s.reassembled

/-- A frame of a data message with a payload of two bytes. -/
def smallFrame (fin : Bool) (opcode : Opcode) (a b : UInt8) (h : opcode.isControl = false) : ServerFrame where
  fin
  opcode
  payload := [a, b]
  bounded := by simp [maxPayload]
  control := by rw [h]; intro hcontrol; cases hcontrol

def pingFrame : ServerFrame where
  fin := true
  opcode := .ping
  payload := [7]
  bounded := by decide
  control := by decide

/-- Two messages and a ping between them, received in three pieces with nothing to receive in between. -/
def wholeStream : Stream where
  frames := [smallFrame true .binary 1 2 rfl, pingFrame, smallFrame true .binary 3 4 rfl]
  messages := [[1, 2], [3, 4]]
  reassembled := by decide +kernel

theorem wholeStream_delivered :
    ∃ turns : List Turn, received turns = encodeAll wholeStream.frames ∧
      (pumpUntil (fun _ => false) turns [] []).handled = wholeStream.messages := by
  obtain ⟨turns, hbytes, hall⟩ : ∃ turns : List Turn, [] ++ received turns = encodeAll wholeStream.frames ∧
      (pumpUntil (fun _ => false) turns [] []).turns = [] :=
    ⟨[⟨false, .data [0x82]⟩, ⟨false, .again⟩, ⟨false, .data [2, 1, 2, 0x89, 1, 7, 0x82, 2, 3]⟩, ⟨false, .data [4]⟩],
      by decide +kernel, by decide +kernel⟩
  exact ⟨turns, hbytes, (pumpUntil_delivers_iff _ wholeStream [] turns hbytes hall).mpr (by decide +kernel)⟩

/-- One message in two fragments. -/
def fragmentedStream : Stream where
  frames := [smallFrame false .binary 1 2 rfl, smallFrame true .continuation 3 4 rfl]
  messages := [[1, 2, 3, 4]]
  reassembled := by decide +kernel

/-- `handlePacket` is called for each half. -/
theorem fragmentedStream_split :
    ∃ turns : List Turn, received turns = encodeAll fragmentedStream.frames ∧
      (pumpUntil (fun _ => false) turns [] []).turns = [] ∧
      (pumpUntil (fun _ => false) turns [] []).handled = [[1, 2], [3, 4]] ∧
      (pumpUntil (fun _ => false) turns [] []).handled ≠ fragmentedStream.messages :=
  ⟨[⟨false, .data [2, 2, 1, 2, 0x80, 2, 3, 4]⟩], by decide +kernel, by decide +kernel, by decide +kernel,
    by decide +kernel⟩

end SlsteamMoon.CmClient
