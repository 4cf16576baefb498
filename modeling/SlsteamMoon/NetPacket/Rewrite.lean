import SlsteamMoon.AppInfo.RoundTrip
import SlsteamMoon.OwnedBlocks

/-! CNetPacket: the packet that overlays Steam's own, how its body is read and how it is rewritten. -/
namespace SlsteamMoon.NetPacket
open KeyValues AppInfo CheckedReads OwnedBlocks

abbrev EMsg := UInt32

abbrev Address := UInt32

abbrev Memory := Heap Address UInt8

abbrev Blocks := Address → Option Bytes

/-- A message class that is generated: its encoding, and the object that parsing some bytes leaves. -/
structure Codec (M : Type) where
  byteSizeLong : M → UInt32
  /-- None is an encoding that fails; whatever it wrote is in a buffer that is freed. -/
  serializeToArray : M → Option Bytes
  parseFromArray : Bytes → M
  empty : M

/-- The fields, at the shift that the layout of the client has. -/
structure CNetPacket where
  body : Address
  size : UInt32
  originalBody : Address

def invalidMessageType : EMsg := 0xffffffff

/-- 100 MiB. -/
def maxPlausibleSize : UInt32 := 104857600

/-- The size of CNetPacketBody: a type and the size of the header behind it. -/
def headerOffset : UInt32 := 8

def intMax : UInt32 := 0x7fffffff

def plausibleBody (body : Address) : Bool := 0x10000 ≤ body && body < 0xfffff000

def load32 (a : Address) (off : Nat) : Prog Address UInt8 UInt32 := do
  return UInt32.ofNat (le32 (← load a off 4))

namespace CNetPacket
variable (packet : CNetPacket)

def getType : Prog Address UInt8 EMsg :=
  if plausibleBody packet.body = false then pure invalidMessageType
  else if packet.size < headerOffset ∨ maxPlausibleSize < packet.size then pure invalidMessageType
  else load32 packet.body 0

def isValid : Prog Address UInt8 Bool := do
  return (← packet.getType) != invalidMessageType

def deserializeBody {M : Type} (messages : Codec M) : Prog Address UInt8 M := do
  if ← packet.isValid then
    let headerSize ← load32 packet.body 4
    let available := packet.size - headerOffset
    if available < headerSize then pure messages.empty
    else
      let messageOffset := headerOffset + headerSize
      let messageSize := packet.size - messageOffset
      if intMax < messageSize then pure messages.empty
      else return messages.parseFromArray (← load packet.body messageOffset.toNat messageSize.toNat)
  else pure messages.empty

variable {M H : Type} (messages : Codec M) (headers : Codec H) (platAlloc : Blocks → Nat → Option (Address × Bytes))

/-- The header behind the two fields, false if it cannot be encoded. -/
def writeHeader (memory : Address) (header : Option H) (headerSize : UInt32) : Prog Address UInt8 Bool := do
  match header with
  | some header =>
    match headers.serializeToArray header with
    | none => pure false
    | some bytes => do
      store memory headerOffset.toNat bytes
      pure true
  | none =>
    store memory headerOffset.toNat (← load packet.body headerOffset.toNat headerSize.toNat)
    pure true

/-- The two fields and the header. -/
def writeFront (memory : Address) (header : Option H) (headerSize : UInt32) : Prog Address UInt8 Bool := do
  store memory 0 (writeLE32 (← load32 packet.body 0).toNat)
  store memory 4 (writeLE32 headerSize.toNat)
  packet.writeHeader headers memory header headerSize

/-- The new body once it is allocated: filled, or freed again. -/
def fill (message : M) (memory : Address) (header : Option H) (headerSize newSize : UInt32) :
    Prog Address UInt8 CNetPacket := do
  if ← packet.writeFront headers memory header headerSize then
    match messages.serializeToArray message with
    | none => do
      free memory
      pure packet
    | some bytes => do
      store memory (headerOffset + headerSize).toNat bytes
      free packet.body
      pure ⟨memory, newSize, memory⟩
  else do
    free memory
    pure packet

def headerSizeFor : Option H → Prog Address UInt8 UInt32
  | some header => pure (headers.byteSizeLong header)
  | none => load32 packet.body 4

def serialize (message : M) (header : Option H) : Prog Address UInt8 CNetPacket := do
  if ← packet.isValid then
    let headerSize ← packet.headerSizeFor headers header
    let messageSize := messages.byteSizeLong message
    if intMax - headerOffset < headerSize ∨ intMax - headerOffset - headerSize < messageSize ∨
        (header.isNone = true ∧ packet.size - headerOffset < headerSize) then pure packet
    else
      let messageOffset := headerOffset + headerSize
      let newSize := messageSize + messageOffset
      match ← alloc platAlloc newSize.toNat with
      | none => pure packet
      | some memory => packet.fill messages headers message memory header headerSize newSize
  else pure packet

end CNetPacket
end SlsteamMoon.NetPacket

/-! What rewriting a packet leaves: the packet as it was, or a new one that reads back. -/
namespace SlsteamMoon.NetPacket
open KeyValues AppInfo CheckedReads OwnedBlocks

private theorem le32_take (data : Bytes) : le32 (data.take 4) = le32 data := by
  match data with
  | [] | [_] | [_, _] | [_, _, _] => rfl
  | a :: b :: c :: d :: rest => rfl

def typeIn (content : Bytes) : EMsg := UInt32.ofNat (le32 content)

def headerSizeIn (content : Bytes) : UInt32 := UInt32.ofNat (le32 (content.drop 4))

def headerIn (content : Bytes) : Bytes := slice content 8 (headerSizeIn content).toNat

/-- The packet's body stands in a block that is as long as the packet says, and that is not too long. -/
structure Stands (blocks : Blocks) (packet : CNetPacket) (content : Bytes) : Prop where
  placed : plausibleBody packet.body = true
  least : 8 ≤ packet.size.toNat
  most : packet.size ≤ maxPlausibleSize
  block : blocks packet.body = some content
  inside : packet.size.toNat ≤ content.length

/-- A valid packet whose header fits its size. -/
structure Valid (blocks : Blocks) (packet : CNetPacket) (content : Bytes) : Prop extends Stands blocks packet content where
  typed : typeIn content ≠ invalidMessageType
  header : 8 + (headerSizeIn content).toNat ≤ packet.size.toNat

section
variable {packet : CNetPacket} {content : Bytes} {h : Memory}

private theorem run_load32 {a : Address} {off : Nat} (hblock : h.blocks a = some content)
    (hinside : off + 4 ≤ content.length) :
    (load32 a off).run h = some (UInt32.ofNat (le32 (content.drop off)), h.note (.read a off 4)) := by
  rw [load32, run_bind (run_load hblock hinside), run_pure, slice, le32_take]

namespace CNetPacket

theorem run_getType (hs : Stands h.blocks packet content) :
    packet.getType.run h = some (typeIn content, h.note (.read packet.body 0 4)) := by
  have hlong : 0 + 4 ≤ content.length := by
    have hleast := hs.least
    have hinside := hs.inside
    omega
  have hsized : ¬(packet.size < headerOffset ∨ maxPlausibleSize < packet.size) :=
    not_or.mpr ⟨Nat.not_lt.mpr hs.least, UInt32.not_lt.mpr hs.most⟩
  rw [getType, if_neg (by rw [hs.placed]; decide), if_neg hsized, run_load32 hs.block hlong]
  rfl

/-- A packet that is too long, or whose body is at no plausible address, has no type. -/
theorem getType_refused (hrefused : plausibleBody packet.body = false ∨ maxPlausibleSize < packet.size) :
    packet.getType.run h = some (invalidMessageType, h) := by
  rw [getType]
  obtain hbody | hsize := hrefused
  · rw [if_pos hbody, run_pure]
  · rw [if_pos (Or.inr hsize : packet.size < headerOffset ∨ maxPlausibleSize < packet.size), ite_self, run_pure]

private theorem run_isValid (hs : Stands h.blocks packet content) :
    packet.isValid.run h = some (typeIn content != invalidMessageType, h.note (.read packet.body 0 4)) := by
  rw [isValid, run_bind (run_getType hs), run_pure]

variable {M H : Type} (messages : Codec M) (headers : Codec H)

/-- The message behind the header, read from a packet that is as long as its block. -/
theorem deserializeBody_apply (hv : Valid h.blocks packet content) (hwhole : packet.size.toNat = content.length) :
    ((packet.deserializeBody messages).run h).map Prod.fst =
      some (messages.parseFromArray (content.drop (8 + (headerSizeIn content).toNat))) := by
  have hleast := hv.least
  have hheader := hv.header
  have hmost : packet.size.toNat ≤ 104857600 := hv.most
  have hvalid : (typeIn content != invalidMessageType) = true := bne_iff_ne.mpr hv.typed
  have hoffset : headerOffset.toNat = 8 := rfl
  have hmessageOffset : (headerOffset + headerSizeIn content).toNat = 8 + (headerSizeIn content).toNat := by
    rw [UInt32.toNat_add, hoffset]
    omega
  have hmessageSize : (packet.size - (headerOffset + headerSizeIn content)).toNat =
      content.length - (8 + (headerSizeIn content).toNat) := by
    rw [UInt32.toNat_sub_of_le _ _ (by rw [UInt32.le_iff_toNat_le]; omega), hmessageOffset, hwhole]
  have hfits : ¬packet.size - headerOffset < headerSizeIn content := by
    rw [UInt32.not_lt, UInt32.le_iff_toNat_le, UInt32.toNat_sub_of_le _ _ hv.least, hoffset]
    omega
  have hshort : ¬intMax < packet.size - (headerOffset + headerSizeIn content) := by
    have hmax : intMax.toNat = 0x7fffffff := rfl
    rw [UInt32.not_lt, UInt32.le_iff_toNat_le, hmessageSize]
    omega
  have hheaderSize : (load32 packet.body 4).run (h.note (.read packet.body 0 4)) = some (headerSizeIn content, _) :=
    run_load32 hv.block (by omega)
  have hbody : (load packet.body (headerOffset + headerSizeIn content).toNat
      (packet.size - (headerOffset + headerSizeIn content)).toNat).run
        ((h.note (.read packet.body 0 4)).note (.read packet.body 4 4)) = some (_, _) := run_load hv.block (by omega)
  rw [deserializeBody, run_bind (run_isValid hv.toStands), if_pos hvalid, run_bind hheaderSize]
  dsimp only
  rw [if_neg hfits, if_neg hshort, run_bind hbody, run_pure, Option.map_some, hmessageOffset,
    hmessageSize, slice, ← List.length_drop, List.take_length]

/-- The size of the header that the new packet is to have. -/
def newHeaderSize (content : Bytes) : Option H → UInt32
  | some header => headers.byteSizeLong header
  | none => headerSizeIn content

/-- The bytes of that header, if it can be encoded. -/
def newHeader (content : Bytes) : Option H → Option Bytes
  | some header => headers.serializeToArray header
  | none => some (headerIn content)

/-- What encoding is relied on for: the bytes are as many as announced. -/
def Measures {M : Type} (messages : Codec M) : Prop :=
  ∀ message bytes, messages.serializeToArray message = some bytes → bytes.length = (messages.byteSizeLong message).toNat

variable {headers}

theorem length_newHeader (hmeasures : Measures headers) {blocks : Blocks} (hv : Valid blocks packet content)
    {header : Option H} {bytes : Bytes} (hbytes : newHeader headers content header = some bytes) :
    bytes.length = (newHeaderSize headers content header).toNat := by
  cases header with
  | some header => exact hmeasures header bytes hbytes
  | none =>
    obtain rfl := Option.some.inj hbytes
    have hheader := hv.header
    have hinside := hv.inside
    exact length_slice (by omega)

/-- Reads within the packet's declared size, and writes. -/
def Quiet (packet : CNetPacket) : Access Address → Prop
  | .read a off n => a = packet.body ∧ off + n ≤ packet.size.toNat
  | .write .. => True
  | .alloc .. | .free .. => False

/-- What is appended to the trace of a heap while one block is filled. -/
structure Fills (packet : CNetPacket) (h h' : Memory) (memory : Address) (block : Bytes) : Prop where
  blocks : h'.blocks = Function.update h.blocks memory (some block)
  quiet : ∃ accesses, h'.trace = h.trace ++ accesses ∧ ∀ access ∈ accesses, packet.Quiet access

private theorem fills_note {a : Address} {off n : Nat} (hread : packet.Quiet (.read a off n)) {memory : Address}
    {block : Bytes} (hblock : h.blocks memory = some block) : packet.Fills h (h.note (.read a off n)) memory block := by
  refine ⟨?_, [.read a off n], rfl, List.forall_mem_singleton.mpr hread⟩
  rw [Heap.note, ← hblock, Function.update_eq_self]

/-- What is written next stands behind what has been written. -/
theorem run_store_next (packet : CNetPacket) {memory : Address} {off : Nat} {written ys rest : Bytes}
    (hblock : h.blocks memory = some (written ++ rest)) (hoff : written.length = off) (hroom : ys.length ≤ rest.length) :
    ∃ h', (store memory off ys).run h = some ((), h') ∧
      packet.Fills h h' memory (written ++ ys ++ rest.drop ys.length) := by
  have hinside : off + ys.length ≤ (written ++ rest).length := by
    rw [List.length_append, hoff]
    omega
  refine ⟨_, run_store hblock hinside, ?_, [.write memory off ys.length], rfl, List.forall_mem_singleton.mpr trivial⟩
  rw [overwrite_append hoff]
  rfl

theorem Fills.trans {h h' h'' : Memory} {memory : Address} {block block' : Bytes} (hfills : packet.Fills h h' memory block)
    (hfills' : packet.Fills h' h'' memory block') : packet.Fills h h'' memory block' := by
  obtain ⟨hblocks, accesses, htrace, hquiet⟩ := hfills
  obtain ⟨hblocks', accesses', htrace', hquiet'⟩ := hfills'
  refine ⟨?_, accesses ++ accesses', ?_, List.forall_mem_append.mpr ⟨hquiet, hquiet'⟩⟩
  · rw [hblocks', hblocks, Function.update_idem]
  · rw [htrace', htrace, List.append_assoc]

private theorem valid_congr {blocks blocks' : Blocks} (hv : Valid blocks packet content)
    (hsame : blocks' packet.body = blocks packet.body) : Valid blocks' packet content where
  placed := hv.placed
  least := hv.least
  most := hv.most
  block := hsame.trans hv.block
  inside := hv.inside
  typed := hv.typed
  header := hv.header

/-- A block elsewhere does not matter. -/
theorem valid_apart (hv : Valid h.blocks packet content) {h' : Memory} {memory : Address} {block : Bytes}
    (hapart : packet.body ≠ memory) (hfills : packet.Fills h h' memory block) : Valid h'.blocks packet content :=
  valid_congr hv (by rw [hfills.blocks, Function.update_of_ne hapart])

theorem Fills.self {h' : Memory} {memory : Address} {block : Bytes} (hfills : packet.Fills h h' memory block) :
    h'.blocks memory = some block := by
  rw [hfills.blocks, Function.update_self]

/-- The header is written where the two fields end, or it cannot be encoded and nothing is. -/
theorem run_writeHeader (hmeasures : Measures headers) (hv : Valid h.blocks packet content) (header : Option H)
    {memory : Address} {written rest : Bytes} (hmemory : h.blocks memory = some (written ++ rest))
    (hwritten : written.length = headerOffset.toNat)
    (hroom : (newHeaderSize headers content header).toNat ≤ rest.length) :
    (newHeader headers content header = none ∧
        (packet.writeHeader headers memory header (newHeaderSize headers content header)).run h = some (false, h)) ∨
      ∃ bytes h', newHeader headers content header = some bytes ∧
        (packet.writeHeader headers memory header (newHeaderSize headers content header)).run h = some (true, h') ∧
        packet.Fills h h' memory (written ++ bytes ++ rest.drop bytes.length) := by
  cases header with
  | some header =>
    cases hbytes : headers.serializeToArray header with
    | none =>
      refine .inl ⟨hbytes, ?_⟩
      rw [writeHeader, hbytes, run_pure]
    | some bytes =>
      have hlength := hmeasures header bytes hbytes
      obtain ⟨h', hstore, hfills⟩ := run_store_next packet hmemory hwritten (by rw [hlength]; exact hroom)
      refine .inr ⟨bytes, h', hbytes, ?_, hfills⟩
      rw [writeHeader, hbytes]
      dsimp only
      rw [run_bind hstore, run_pure]
  | none =>
    have hheader := hv.header
    have hlength : (headerIn content).length = (headerSizeIn content).toNat :=
      length_slice (Nat.le_trans hheader hv.inside)
    have hload : (load packet.body headerOffset.toNat (headerSizeIn content).toNat).run h = some (headerIn content, _) :=
      run_load hv.block (Nat.le_trans hheader hv.inside)
    have hnote := fills_note (⟨rfl, hheader⟩ : packet.Quiet (.read packet.body headerOffset.toNat _)) hmemory
    obtain ⟨h', hstore, hfills⟩ := run_store_next packet hnote.self hwritten (by rw [hlength]; exact hroom)
    refine .inr ⟨headerIn content, h', rfl, ?_, hnote.trans hfills⟩
    rw [writeHeader, newHeaderSize, run_bind hload, run_bind hstore, run_pure]

/-- The two fields of the new block. -/
def fields (content : Bytes) (headerSize : UInt32) : Bytes :=
  writeLE32 (typeIn content).toNat ++ writeLE32 headerSize.toNat

private theorem run_writeFront (hmeasures : Measures headers) (hv : Valid h.blocks packet content) (header : Option H)
    {memory : Address} {xs : Bytes} (hmemory : h.blocks memory = some xs) (hapart : packet.body ≠ memory)
    (hroom : 8 + (newHeaderSize headers content header).toNat ≤ xs.length) :
    ∃ h', (newHeader headers content header = none ∧ ∃ block,
        (packet.writeFront headers memory header (newHeaderSize headers content header)).run h = some (false, h') ∧
          packet.Fills h h' memory block) ∨
      ∃ bytes, newHeader headers content header = some bytes ∧
        (packet.writeFront headers memory header (newHeaderSize headers content header)).run h = some (true, h') ∧
        packet.Fills h h' memory
          (fields content (newHeaderSize headers content header) ++ bytes ++ xs.drop (8 + bytes.length)) := by
  have hleast := hv.least
  have hinside := hv.inside
  have htype : (load32 packet.body 0).run h = some (typeIn content, _) := run_load32 hv.block (by omega)
  have hnote := fills_note (⟨rfl, by omega⟩ : packet.Quiet (.read packet.body 0 4)) hmemory
  have hempty : (h.note (.read packet.body 0 4)).blocks memory = some ([] ++ xs) := hnote.self
  obtain ⟨h₁, hfirst, hfills₁⟩ : ∃ h₁, (store memory 0 (writeLE32 (typeIn content).toNat)).run
        (h.note (.read packet.body 0 4)) = some ((), h₁) ∧
      packet.Fills (h.note (.read packet.body 0 4)) h₁ memory (writeLE32 (typeIn content).toNat ++ xs.drop 4) :=
    run_store_next packet hempty rfl (by rw [KeyValues.length_writeLE32]; omega)
  obtain ⟨h₂, hsecond, hfills₂⟩ : ∃ h₂, (store memory 4 (writeLE32 (newHeaderSize headers content header).toNat)).run h₁ =
        some ((), h₂) ∧
      packet.Fills h₁ h₂ memory (fields content (newHeaderSize headers content header) ++ (xs.drop 4).drop 4) :=
    run_store_next packet hfills₁.self rfl (by rw [KeyValues.length_writeLE32, List.length_drop]; omega)
  have hfills := (hnote.trans hfills₁).trans hfills₂
  have hroom₃ : (newHeaderSize headers content header).toNat ≤ ((xs.drop 4).drop 4).length := by
    rw [List.length_drop, List.length_drop]
    omega
  rw [writeFront, run_bind htype, run_bind hfirst, run_bind hsecond]
  obtain ⟨hnone, hrun⟩ | ⟨bytes, h', hbytes, hrun, hfills₃⟩ :=
    run_writeHeader hmeasures (valid_apart hv hapart hfills) header hfills.self rfl hroom₃
  · exact ⟨h₂, .inl ⟨hnone, _, hrun, hfills⟩⟩
  · refine ⟨h', .inr ⟨bytes, hbytes, hrun, ?_⟩⟩
    have hall := hfills.trans hfills₃
    rwa [List.drop_drop, List.drop_drop, ← Nat.add_assoc] at hall

variable (headers)

/-- The size of the packet that the rewriting aims at. -/
def newSize (content : Bytes) (message : M) (header : Option H) : Nat :=
  8 + (newHeaderSize headers content header).toNat + (messages.byteSizeLong message).toNat

variable {messages headers}

/-- The three comparisons that refuse a size. -/
theorem refused_iff {blocks : Blocks} (hv : Valid blocks packet content) (message : M) (header : Option H) :
    (intMax - headerOffset < newHeaderSize headers content header ∨
        intMax - headerOffset - newHeaderSize headers content header < messages.byteSizeLong message ∨
        (header.isNone = true ∧ packet.size - headerOffset < newHeaderSize headers content header)) ↔
      0x7fffffff < newSize messages headers content message header := by
  have hroom : (intMax - headerOffset).toNat = 0x7ffffff7 := rfl
  have hold : ¬(header.isNone = true ∧ packet.size - headerOffset < newHeaderSize headers content header) := by
    rintro ⟨hnone, hlt⟩
    obtain rfl := Option.isNone_iff_eq_none.mp hnone
    have hheader := hv.header
    rw [UInt32.lt_iff_toNat_lt, UInt32.toNat_sub_of_le _ _ hv.least] at hlt
    have hoffset : headerOffset.toNat = 8 := rfl
    rw [newHeaderSize] at hlt
    omega
  rw [newSize, or_iff_left hold]
  generalize newHeaderSize headers content header = headerSize
  by_cases hlarge : intMax - headerOffset < headerSize
  · have hlt := UInt32.lt_iff_toNat_lt.mp hlarge
    exact iff_of_true (.inl hlarge) (by omega)
  · have hle := UInt32.le_iff_toNat_le.mp (UInt32.not_lt.mp hlarge)
    rw [or_iff_right hlarge, UInt32.lt_iff_toNat_lt, UInt32.toNat_sub_of_le _ _ (UInt32.not_lt.mp hlarge)]
    omega

private theorem toNat_newSize (message : M) (header : Option H)
    (hfits : newSize messages headers content message header ≤ 0x7fffffff) :
    (headerOffset + newHeaderSize headers content header).toNat = 8 + (newHeaderSize headers content header).toNat ∧
      (messages.byteSizeLong message + (headerOffset + newHeaderSize headers content header)).toNat =
        newSize messages headers content message header := by
  have hoffset : headerOffset.toNat = 8 := rfl
  rw [newSize] at hfits ⊢
  have hfront : (headerOffset + newHeaderSize headers content header).toNat =
      8 + (newHeaderSize headers content header).toNat := by
    rw [UInt32.toNat_add, hoffset]
    omega
  refine ⟨hfront, ?_⟩
  rw [UInt32.toNat_add, hfront]
  omega

/-- What the allocator is relied on for: the block is new and as long as asked. -/
structure Allocates (platAlloc : Blocks → Nat → Option (Address × Bytes)) : Prop where
  fresh : ∀ blocks n a xs, platAlloc blocks n = some (a, xs) → blocks a = none
  sized : ∀ blocks n a xs, platAlloc blocks n = some (a, xs) → xs.length = n

/-- The rewriting goes through: the size is accepted, the block allocated, and header and message encode. -/
structure Goes (messages : Codec M) (headers : Codec H) (platAlloc : Blocks → Nat → Option (Address × Bytes))
    (blocks : Blocks) (content : Bytes) (message : M) (header : Option H) (a : Address) (headerBytes bytes : Bytes) :
    Prop where
  fits : newSize messages headers content message header ≤ 0x7fffffff
  allocated : ∃ xs, platAlloc blocks (newSize messages headers content message header) = some (a, xs)
  header : newHeader headers content header = some headerBytes
  message : messages.serializeToArray message = some bytes

/-- No byte outside of the packet's declared size is read. -/
def ReadsInside (packet : CNetPacket) (trace : List (Access Address)) : Prop :=
  ∀ a off n, .read a off n ∈ trace → a = packet.body ∧ off + n ≤ packet.size.toNat

private theorem readsInside_of_forall {trace : List (Access Address)}
    (htrace : ∀ access ∈ trace, packet.Quiet access ∨ (∃ a n, access = .alloc a n) ∨ ∃ a, access = .free a) :
    packet.ReadsInside trace := by
  intro a off n hread
  obtain hquiet | ⟨b, m, halloc⟩ | ⟨b, hfree⟩ := htrace _ hread
  · exact hquiet
  · cases halloc
  · cases hfree

private theorem not_free_of_quiet {accesses : List (Access Address)} (hquiet : ∀ access ∈ accesses, packet.Quiet access)
    (a : Address) : .free a ∉ accesses := hquiet (.free a)

/-- Only what was allocated on the way is freed. -/
def FreesOwn (trace : List (Access Address)) : Prop := ∀ a, .free a ∈ trace → ∃ n, .alloc a n ∈ trace

/-- The trace of a rewriting that allocates: at the end it frees the new block or the old one, and nothing else. -/
theorem trace_of_fill {before filling : List (Access Address)} (hbefore : ∀ access ∈ before, packet.Quiet access)
    (hfilling : ∀ access ∈ filling, packet.Quiet access) (a : Address) (n : Nat) (c : Address) :
    packet.ReadsInside (before ++ [.alloc a n] ++ filling ++ [.free c]) ∧
      ∀ b, .free b ∈ before ++ [.alloc a n] ++ filling ++ [.free c] → b = c := by
  constructor
  · refine readsInside_of_forall fun access haccess => ?_
    simp only [List.mem_append, List.mem_singleton] at haccess
    obtain ((haccess | haccess) | haccess) | haccess := haccess
    · exact .inl (hbefore access haccess)
    · exact .inr (.inl ⟨a, n, haccess⟩)
    · exact .inl (hfilling access haccess)
    · exact .inr (.inr ⟨c, haccess⟩)
  · intro b hfree
    simp only [List.mem_append, List.mem_singleton, Access.free.injEq, reduceCtorEq, or_false] at hfree
    obtain (hfree | hfree) | rfl := hfree
    · exact absurd hfree (not_free_of_quiet hbefore b)
    · exact absurd hfree (not_free_of_quiet hfilling b)
    · rfl

/-- What a rewriting comes to: the packet as it was, or a packet with a new block in the place of the old one. -/
structure Unchanged (packet : CNetPacket) (blocks : Blocks) (result : CNetPacket) (h' : Memory) : Prop where
  packet : result = packet
  blocks : h'.blocks = blocks
  frees : FreesOwn h'.trace

structure Replaced (packet : CNetPacket) (blocks : Blocks) (result : CNetPacket) (h' : Memory) (a : Address)
    (block : Bytes) :
    Prop where
  body : result.body = a
  size : result.size.toNat = block.length
  blocks : h'.blocks = Function.update (Function.update blocks a (some block)) packet.body none
  frees : ∀ b, .free b ∈ h'.trace → b = packet.body

private theorem run_headerSizeFor (hv : Valid h.blocks packet content) (header : Option H) :
    ∃ h', (packet.headerSizeFor headers header).run h = some (newHeaderSize headers content header, h') ∧
      h'.blocks = h.blocks ∧ ∃ accesses, h'.trace = h.trace ++ accesses ∧ ∀ access ∈ accesses, packet.Quiet access := by
  cases header with
  | some header => exact ⟨h, run_pure _ h, rfl, [], (List.append_nil _).symm, List.forall_mem_nil _⟩
  | none =>
    have hleast := hv.least
    have hinside := hv.inside
    exact ⟨_, run_load32 hv.block (by omega), rfl, [.read packet.body 4 4], rfl,
      List.forall_mem_singleton.mpr ⟨rfl, hleast⟩⟩

/-- From the allocated block on: a block that is freed again, or one that takes the place of the old body. -/
theorem run_fill (hmessages : Measures messages) (hheaders : Measures headers) (hv : Valid h.blocks packet content)
    (message : M) (header : Option H) {a : Address} {xs : Bytes} (hblock : h.blocks a = some xs) (hapart : packet.body ≠ a)
    (hfits : newSize messages headers content message header ≤ 0x7fffffff)
    (hsized : xs.length = newSize messages headers content message header) (size : UInt32) :
    ∃ result h' accesses, (packet.fill messages headers message a header (newHeaderSize headers content header)
        size).run h = some (result, h') ∧
      (∀ access ∈ accesses, packet.Quiet access) ∧
      (((newHeader headers content header = none ∨ messages.serializeToArray message = none) ∧ result = packet ∧
          h'.blocks = Function.update h.blocks a none ∧
          h'.trace = h.trace ++ accesses ++ [.free a]) ∨
        ∃ headerBytes bytes, newHeader headers content header = some headerBytes ∧
          messages.serializeToArray message = some bytes ∧ result = ⟨a, size, a⟩ ∧
          h'.blocks = Function.update (Function.update h.blocks a
            (some (fields content (newHeaderSize headers content header) ++ headerBytes ++ bytes))) packet.body none ∧
          h'.trace = h.trace ++ accesses ++ [.free packet.body]) := by
  have hnewSize : newSize messages headers content message header =
    8 + (newHeaderSize headers content header).toNat + (messages.byteSizeLong message).toNat := rfl
  obtain ⟨h₁, ⟨hnone, block, hrun, hfills⟩ | ⟨headerBytes, hheader, hrun, hfills⟩⟩ :=
    run_writeFront hheaders hv header hblock hapart (by omega)
  · obtain ⟨accesses, htrace, hquiet⟩ := hfills.quiet
    refine ⟨packet, h₁.put a none (.free a), accesses, ?_, hquiet, .inl ⟨.inl hnone, rfl, ?_, ?_⟩⟩
    · rw [fill, run_bind hrun, if_neg Bool.false_ne_true, run_bind (run_free hfills.self), run_pure]
    · rw [Heap.put, hfills.blocks, Function.update_idem]
    · rw [Heap.put, htrace]
  · cases hbytes : messages.serializeToArray message with
    | none =>
      obtain ⟨accesses, htrace, hquiet⟩ := hfills.quiet
      refine ⟨packet, h₁.put a none (.free a), accesses, ?_, hquiet, .inl ⟨.inr rfl, rfl, ?_, ?_⟩⟩
      · rw [fill, run_bind hrun, if_pos rfl, hbytes]
        dsimp only
        rw [run_bind (run_free hfills.self), run_pure]
      · rw [Heap.put, hfills.blocks, Function.update_idem]
      · rw [Heap.put, htrace]
    | some bytes =>
      have hlength := length_newHeader hheaders hv hheader
      have hmessage := hmessages message bytes hbytes
      have hwritten : (fields content (newHeaderSize headers content header) ++ headerBytes).length =
          (headerOffset + newHeaderSize headers content header).toNat := by
        rw [(toNat_newSize message header hfits).1, List.length_append, hlength]
        rfl
      have hroom : bytes.length ≤ (xs.drop (8 + headerBytes.length)).length := by
        rw [List.length_drop]
        omega
      obtain ⟨h₂, hstore, hfills₂⟩ := run_store_next packet hfills.self hwritten hroom
      have hall := hfills.trans hfills₂
      rw [List.drop_drop, List.drop_eq_nil_of_le (by omega), List.append_nil] at hall
      obtain ⟨accesses, htrace, hquiet⟩ := hall.quiet
      refine ⟨⟨a, size, a⟩, h₂.put packet.body none (.free packet.body), accesses, ?_, hquiet,
        .inr ⟨headerBytes, bytes, hheader, rfl, rfl, ?_, ?_⟩⟩
      · rw [fill, run_bind hrun, if_pos rfl, hbytes]
        dsimp only
        rw [run_bind hstore, run_bind (run_free (valid_apart hv hapart hall).block), run_pure]
      · rw [Heap.put, hall.blocks]
      · rw [Heap.put, htrace]

theorem run_serialize {platAlloc : Blocks → Nat → Option (Address × Bytes)} (hallocates : Allocates platAlloc)
    (hmessages : Measures messages) (hheaders : Measures headers) {blocks : Blocks} (hv : Valid blocks packet content)
    (message : M) (header : Option H) :
    ∃ result h', (packet.serialize messages headers platAlloc message header).run ⟨blocks, []⟩ = some (result, h') ∧
      ReadsInside packet h'.trace ∧
      ((Unchanged packet blocks result h' ∧
          ∀ a headerBytes bytes, ¬Goes messages headers platAlloc blocks content message header a headerBytes bytes) ∨
        ∃ a headerBytes bytes, Goes messages headers platAlloc blocks content message header a headerBytes bytes ∧
          Replaced packet blocks result h' a
            (fields content (newHeaderSize headers content header) ++ headerBytes ++ bytes)) := by
  have hvalid : (typeIn content != invalidMessageType) = true := bne_iff_ne.mpr hv.typed
  have hstart : packet.isValid.run ⟨blocks, []⟩ = some (true, ⟨blocks, [.read packet.body 0 4]⟩) := by
    rw [run_isValid hv.toStands, hvalid]
    rfl
  obtain ⟨h₁, hsize, hblocks, reads, htrace, hreads⟩ :=
    @run_headerSizeFor _ _ ⟨blocks, [.read packet.body 0 4]⟩ _ headers hv header
  have hquiet : ∀ access ∈ h₁.trace, packet.Quiet access := by
    rw [htrace]
    exact List.forall_mem_append.mpr ⟨List.forall_mem_singleton.mpr ⟨rfl, by have := hv.least; omega⟩, hreads⟩
  have hunchanged : packet.Unchanged blocks packet h₁ :=
    ⟨rfl, hblocks, fun a hfree => absurd hfree (not_free_of_quiet hquiet a)⟩
  have hinside : packet.ReadsInside h₁.trace := readsInside_of_forall fun access haccess => .inl (hquiet access haccess)
  rw [serialize, run_bind hstart, if_pos rfl, run_bind hsize]
  dsimp only
  by_cases hlarge : 0x7fffffff < newSize messages headers content message header
  · rw [if_pos ((refused_iff hv message header).mpr hlarge), run_pure]
    refine ⟨packet, h₁, rfl, hinside, .inl ⟨hunchanged, fun a headerBytes bytes hgoes => ?_⟩⟩
    exact absurd hgoes.fits (Nat.not_le.mpr hlarge)
  · have hfits := Nat.le_of_not_lt hlarge
    obtain ⟨-, hnewSize⟩ := toNat_newSize message header hfits
    rw [if_neg fun hrefused => hlarge ((refused_iff hv message header).mp hrefused), hnewSize]
    cases halloc : platAlloc blocks (newSize messages headers content message header) with
    | none =>
      rw [run_bind (run_alloc_none (by rw [hblocks]; exact halloc)), run_pure]
      refine ⟨packet, h₁, rfl, hinside, .inl ⟨hunchanged, fun a headerBytes bytes hgoes => ?_⟩⟩
      obtain ⟨xs, hsome⟩ := hgoes.allocated
      exact Option.some_ne_none _ (hsome.symm.trans halloc)
    | some answer =>
      obtain ⟨a, xs⟩ := answer
      have hfresh := hallocates.fresh blocks _ a xs halloc
      have hapart : packet.body ≠ a := by
        rintro rfl
        exact Option.some_ne_none _ (hv.block.symm.trans hfresh)
      rw [run_bind (run_alloc_some (by rw [hblocks]; exact halloc))]
      dsimp only
      have hv₂ : Valid (h₁.put a (some xs) (.alloc a (newSize messages headers content message header))).blocks packet
          content := valid_congr hv ((Function.update_of_ne hapart _ _).trans (by rw [hblocks]))
      obtain ⟨result, h', accesses, hrun, hfilling, hcases⟩ := run_fill hmessages hheaders hv₂ message header
        (Function.update_self ..) hapart hfits (hallocates.sized blocks _ a xs halloc)
        (messages.byteSizeLong message + (headerOffset + newHeaderSize headers content header))
      refine ⟨result, h', hrun, ?_⟩
      obtain ⟨hfail, hresult, hblocks', htrace'⟩ | ⟨headerBytes, bytes, hheader, hbytes, hresult, hblocks', htrace'⟩ :=
        hcases
      · rw [htrace']
        obtain ⟨hreadsInside, hfrees⟩ := trace_of_fill hquiet hfilling a
          (newSize messages headers content message header) a
        refine ⟨hreadsInside, .inl ⟨⟨hresult, ?_, ?_⟩, ?_⟩⟩
        · rw [hblocks', Heap.put, Function.update_idem, hblocks]
          exact Function.update_eq_self_iff.mpr hfresh.symm
        · intro b hfree
          rw [htrace'] at hfree ⊢
          obtain rfl := hfrees b hfree
          exact ⟨newSize messages headers content message header, by simp [Heap.put]⟩
        · intro a' headerBytes bytes hgoes
          obtain hnone | hnone := hfail
          · exact Option.some_ne_none _ (hgoes.header.symm.trans hnone)
          · exact Option.some_ne_none _ (hgoes.message.symm.trans hnone)
      · rw [htrace']
        obtain ⟨hreadsInside, hfrees⟩ := trace_of_fill hquiet hfilling a
          (newSize messages headers content message header) packet.body
        refine ⟨hreadsInside, .inr ⟨a, headerBytes, bytes, ⟨hfits, ⟨xs, halloc⟩, hheader, hbytes⟩, ?_, ?_, ?_, ?_⟩⟩
        · rw [hresult]
        · have hlength := length_newHeader hheaders hv hheader
          have hmessage := hmessages message bytes hbytes
          rw [hresult, hnewSize, newSize, List.length_append, List.length_append, hlength, hmessage]
          rfl
        · rw [hblocks', Heap.put, Function.update_idem, hblocks]
        · intro b hfree
          rw [htrace'] at hfree
          exact hfrees b hfree

end CNetPacket
end
end SlsteamMoon.NetPacket
