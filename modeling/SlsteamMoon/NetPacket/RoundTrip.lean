import SlsteamMoon.NetPacket.Rewrite

/-! When a rewritten packet reads back: its writer allows more bytes than its readers believe. -/
namespace SlsteamMoon.NetPacket
open KeyValues AppInfo CheckedReads OwnedBlocks

namespace CNetPacket
variable {packet : CNetPacket} {content : Bytes} {M H : Type} {messages : Codec M} {headers : Codec H}

/-- The bytes of the header behind a packet's two fields. -/
def headerOf (packet : CNetPacket) (blocks : Blocks) : Option Bytes := (blocks packet.body).map headerIn

/-- The packet that is left has the old type and the header asked for, and its body reads back as the message. -/
structure Rewritten (packet : CNetPacket) (messages : Codec M) (headers : Codec H) (blocks : Blocks) (content : Bytes)
    (message : M) (header : Option H) (result : CNetPacket) (h' : Memory) : Prop where
  type : (result.getType.run h').map Prod.fst = (packet.getType.run ⟨blocks, []⟩).map Prod.fst
  header : result.headerOf h'.blocks = newHeader headers content header
  message : ((result.deserializeBody messages).run h').map Prod.fst = some message
  frees : ∀ b, .free b ∈ h'.trace → b = packet.body

/-- The rewriting makes no access outside of a block, reads nothing outside of the packet, and leaves one of the two. -/
def RewritesWell (packet : CNetPacket) (messages : Codec M) (headers : Codec H)
    (platAlloc : Blocks → Nat → Option (Address × Bytes)) (blocks : Blocks) (content : Bytes) (message : M)
    (header : Option H) : Prop :=
  ∃ result h', (packet.serialize messages headers platAlloc message header).run ⟨blocks, []⟩ = some (result, h') ∧
    ReadsInside packet h'.trace ∧
      (Unchanged packet blocks result h' ∨ Rewritten packet messages headers blocks content message header result h')

/-- Parsing what was encoded gives the message back. -/
def RoundTrips (messages : Codec M) : Prop :=
  ∀ message bytes, messages.serializeToArray message = some bytes → messages.parseFromArray bytes = message

private theorem le32_fields (content rest : Bytes) (headerSize : UInt32) :
    typeIn (fields content headerSize ++ rest) = typeIn content ∧
      headerSizeIn (fields content headerSize ++ rest) = headerSize := by
  have htype : le32 (fields content headerSize ++ rest) = (typeIn content).toNat := by
    rw [fields, List.append_assoc]
    exact le32_write (typeIn content).toNat_lt _
  have hsize : le32 ((fields content headerSize ++ rest).drop 4) = headerSize.toNat := by
    have hdrop : (fields content headerSize ++ rest).drop 4 = writeLE32 headerSize.toNat ++ rest := rfl
    rw [hdrop]
    exact le32_write headerSize.toNat_lt _
  rw [typeIn, headerSizeIn, htype, hsize]
  exact ⟨UInt32.ofNat_toNat, UInt32.ofNat_toNat⟩

section
variable {blocks : Blocks} {result : CNetPacket} {h' : Memory} {a : Address} {headerSize : UInt32}
  {headerBytes bytes : Bytes}

private theorem length_fields (content : Bytes) (headerSize : UInt32) : (fields content headerSize).length = 8 := rfl

private theorem headerIn_new (hlength : headerBytes.length = headerSize.toNat) :
    headerIn (fields content headerSize ++ headerBytes ++ bytes) = headerBytes := by
  rw [List.append_assoc, headerIn, (le32_fields content _ headerSize).2, slice,
    List.drop_left' (length_fields content headerSize), ← hlength, List.take_left]

theorem Replaced.block (hreplaced : Replaced packet blocks result h' a bytes) (hapart : packet.body ≠ a) :
    h'.blocks result.body = some bytes := by
  rw [hreplaced.blocks, hreplaced.body, Function.update_of_ne hapart.symm, Function.update_self]

/-- A new packet that is not too long, at an address that is plausible. -/
theorem Replaced.valid (hv : Valid blocks packet content) (hlength : headerBytes.length = headerSize.toNat)
    (hreplaced : Replaced packet blocks result h' a (fields content headerSize ++ headerBytes ++ bytes))
    (hapart : packet.body ≠ a) (hshort : result.size.toNat ≤ maxPlausibleSize.toNat) (hplaced : plausibleBody a = true) :
    Valid h'.blocks result (fields content headerSize ++ headerBytes ++ bytes) := by
  have hsize := hreplaced.size
  rw [List.length_append, List.length_append, length_fields, hlength] at hsize
  refine ⟨⟨by rw [hreplaced.body]; exact hplaced, by omega, hshort, hreplaced.block hapart, hreplaced.size.le⟩, ?_, ?_⟩
  · rw [List.append_assoc, (le32_fields content _ headerSize).1]
    exact hv.typed
  · rw [List.append_assoc, (le32_fields content _ headerSize).2]
    omega

end

section
variable {platAlloc : Blocks → Nat → Option (Address × Bytes)} {blocks : Blocks} {message : M} {header : Option H}
  {result : CNetPacket} {h' : Memory} {a : Address} {headerBytes bytes : Bytes}

/-- A rewriting has one outcome. -/
theorem rewritesWell_iff (hinside : ReadsInside packet h'.trace)
    (hrun : (packet.serialize messages headers platAlloc message header).run ⟨blocks, []⟩ = some (result, h')) :
    RewritesWell packet messages headers platAlloc blocks content message header ↔
      (Unchanged packet blocks result h' ∨ Rewritten packet messages headers blocks content message header result h') := by
  constructor
  · rintro ⟨result', h'', hrun', -, hleft⟩
    obtain ⟨rfl, rfl⟩ := Prod.mk.inj (Option.some.inj (hrun.symm.trans hrun'))
    exact hleft
  · intro hleft
    exact ⟨result, h', hrun, hinside, hleft⟩

theorem Goes.apart (hallocates : Allocates platAlloc) (hv : Valid blocks packet content)
    (hgoes : Goes messages headers platAlloc blocks content message header a headerBytes bytes) : packet.body ≠ a := by
  obtain ⟨xs, halloc⟩ := hgoes.allocated
  rintro rfl
  exact Option.some_ne_none _ (hv.block.symm.trans (hallocates.fresh blocks _ _ xs halloc))

private theorem Replaced.size_eq (hmessages : Measures messages) (hheaders : Measures headers)
    (hv : Valid blocks packet content)
    (hgoes : Goes messages headers platAlloc blocks content message header a headerBytes bytes)
    (hreplaced : Replaced packet blocks result h' a
      (fields content (newHeaderSize headers content header) ++ headerBytes ++ bytes)) :
    result.size.toNat = newSize messages headers content message header := by
  rw [hreplaced.size, List.length_append, List.length_append, length_newHeader hheaders hv hgoes.header,
    hmessages message bytes hgoes.message]
  rfl

/-- A packet that its own readers refuse has lost its type. -/
theorem Rewritten.accepted (hv : Valid blocks packet content)
    (hrewritten : Rewritten packet messages headers blocks content message header result h') :
    plausibleBody result.body = true ∧ result.size ≤ maxPlausibleSize := by
  have htype := hrewritten.type
  rw [run_getType (h := ⟨blocks, []⟩) hv.toStands] at htype
  by_contra hnot
  have hrefused : plausibleBody result.body = false ∨ maxPlausibleSize < result.size := by
    rw [← UInt32.not_le, ← Bool.not_eq_true]
    exact not_and_or.mp hnot
  rw [getType_refused hrefused] at htype
  exact hv.typed (Option.some.inj htype).symm

/-- Every rewriting that goes through has to end where the readers accept the packet. -/
theorem accepted_of_rewritesWell (hallocates : Allocates platAlloc) (hmessages : Measures messages)
    (hheaders : Measures headers) (hv : Valid blocks packet content)
    (hwell : RewritesWell packet messages headers platAlloc blocks content message header)
    (hgoes : Goes messages headers platAlloc blocks content message header a headerBytes bytes) :
    newSize messages headers content message header ≤ maxPlausibleSize.toNat ∧ plausibleBody a = true := by
  obtain ⟨result, h', hrun, hinside, hcases⟩ := run_serialize hallocates hmessages hheaders hv message header
  obtain ⟨-, hstays⟩ | ⟨a', headerBytes', bytes', hgoes', hreplaced⟩ := hcases
  · exact absurd hgoes (hstays a headerBytes bytes)
  · obtain ⟨xs, halloc⟩ := hgoes.allocated
    obtain ⟨xs', halloc'⟩ := hgoes'.allocated
    obtain ⟨rfl, -⟩ := Prod.mk.inj (Option.some.inj (halloc.symm.trans halloc'))
    obtain hunchanged | hrewritten := (rewritesWell_iff hinside hrun).mp hwell
    · exact absurd ((congrArg body hunchanged.packet).symm.trans hreplaced.body) (hgoes.apart hallocates hv)
    · obtain ⟨hplaced, hshort⟩ := hrewritten.accepted hv
      rw [UInt32.le_iff_toNat_le, hreplaced.size_eq hmessages hheaders hv hgoes'] at hshort
      exact ⟨hshort, hreplaced.body ▸ hplaced⟩

/-- A new packet that the readers accept has the type, the header and the message it should have. -/
theorem Replaced.rewritten (hallocates : Allocates platAlloc) (hmessages : Measures messages) (hheaders : Measures headers)
    (hround : RoundTrips messages) (hv : Valid blocks packet content)
    (hgoes : Goes messages headers platAlloc blocks content message header a headerBytes bytes)
    (hreplaced : Replaced packet blocks result h' a
      (fields content (newHeaderSize headers content header) ++ headerBytes ++ bytes))
    (hshort : newSize messages headers content message header ≤ maxPlausibleSize.toNat)
    (hplaced : plausibleBody a = true) :
    Rewritten packet messages headers blocks content message header result h' := by
  have hapart := hgoes.apart hallocates hv
  have hlength := length_newHeader hheaders hv hgoes.header
  have hsize := hreplaced.size_eq hmessages hheaders hv hgoes
  have hnew := hreplaced.valid hv hlength hapart (by rw [hsize]; exact hshort) hplaced
  refine ⟨?_, ?_, ?_, hreplaced.frees⟩
  · rw [run_getType hnew.toStands, run_getType (h := ⟨blocks, []⟩) hv.toStands, Option.map_some, Option.map_some,
      List.append_assoc, (le32_fields content _ _).1]
  · rw [headerOf, hreplaced.block hapart, Option.map_some, headerIn_new hlength, hgoes.header]
  · have hbehind : (fields content (newHeaderSize headers content header) ++ headerBytes).length =
        8 + (newHeaderSize headers content header).toNat := by
      rw [List.length_append, length_fields, hlength]
    rw [deserializeBody_apply messages hnew hreplaced.size, List.append_assoc, (le32_fields content _ _).2,
      ← List.append_assoc, List.drop_left' hbehind, hround message bytes hgoes.message]

end

/-- Rewriting leaves a packet as it was or leaves one that reads back, exactly when no rewriting that goes through ends
above the size, or at an address, that the readers take for a mistake. -/
theorem serialize_rewrites_iff {platAlloc : Blocks → Nat → Option (Address × Bytes)} (hallocates : Allocates platAlloc)
    (hmessages : Measures messages) (hheaders : Measures headers) (hround : RoundTrips messages) {blocks : Blocks}
    (hv : Valid blocks packet content) (message : M) (header : Option H) :
    RewritesWell packet messages headers platAlloc blocks content message header ↔
      ∀ a headerBytes bytes, Goes messages headers platAlloc blocks content message header a headerBytes bytes →
        newSize messages headers content message header ≤ maxPlausibleSize.toNat ∧ plausibleBody a = true := by
  constructor
  · intro hwell a headerBytes bytes hgoes
    exact accepted_of_rewritesWell hallocates hmessages hheaders hv hwell hgoes
  · intro haccepted
    obtain ⟨result, h', hrun, hinside, hcases⟩ := run_serialize hallocates hmessages hheaders hv message header
    rw [rewritesWell_iff hinside hrun]
    obtain ⟨hunchanged, -⟩ | ⟨a, headerBytes, bytes, hgoes, hreplaced⟩ := hcases
    · exact .inl hunchanged
    · obtain ⟨hshort, hplaced⟩ := haccepted a headerBytes bytes hgoes
      exact .inr (hreplaced.rewritten hallocates hmessages hheaders hround hv hgoes hshort hplaced)

/-- Bytes that encode as they are. -/
def plain : Codec Bytes where
  byteSizeLong message := UInt32.ofNat message.length
  serializeToArray message := if message.length < 0x100000000 then some message else none
  parseFromArray := id
  empty := []

private theorem plain_measures : Measures plain := by
  intro message bytes hbytes
  obtain ⟨hlength, hsame⟩ := Option.ite_none_right_eq_some.mp hbytes
  obtain rfl := Option.some.inj hsame
  exact (UInt32.toNat_ofNat_of_lt' hlength).symm

private theorem plain_roundTrips : RoundTrips plain := by
  intro message bytes hbytes
  exact (Option.some.inj (Option.ite_none_right_eq_some.mp hbytes).2).symm

/-- One address, as long as it is free. -/
def oneBlock (blocks : Blocks) (n : Nat) : Option (Address × Bytes) :=
  if blocks 0x20000 = none then some (0x20000, List.replicate n 0) else none

private theorem oneBlock_allocates : Allocates oneBlock := by
  refine ⟨fun blocks n a xs h => ?_, fun blocks n a xs h => ?_⟩
  · obtain ⟨hfree, hsame⟩ := Option.ite_none_right_eq_some.mp h
    obtain ⟨rfl, -⟩ := Prod.mk.inj (Option.some.inj hsame)
    exact hfree
  · obtain ⟨-, rfl⟩ := Prod.mk.inj (Option.some.inj (Option.ite_none_right_eq_some.mp h).2)
    exact List.length_replicate

/-- A packet of type one with three bytes of header and one of message. -/
def headedPacket : CNetPacket := ⟨0x10000, 12, 0x10000⟩

def headedContent : Bytes := [1, 0, 0, 0, 3, 0, 0, 0, 4, 5, 6, 9]

def headedBlocks : Blocks := fun a => if a = 0x10000 then some headedContent else none

private theorem headedPacket_valid : Valid headedBlocks headedPacket headedContent where
  placed := by decide
  least := by decide
  most := by decide
  block := rfl
  inside := by decide
  typed := by decide
  header := by decide

/-- The header is copied, and a message that is longer than the old one goes behind it. -/
theorem headedPacket_rewritten :
    RewritesWell headedPacket plain plain oneBlock headedBlocks headedContent [7, 7] none := by
  refine (serialize_rewrites_iff oneBlock_allocates plain_measures plain_measures plain_roundTrips headedPacket_valid
    [7, 7] none).mpr fun a headerBytes bytes hgoes => ⟨by decide, ?_⟩
  obtain ⟨xs, halloc⟩ := hgoes.allocated
  obtain ⟨rfl, -⟩ := Prod.mk.inj (Option.some.inj (Option.ite_none_right_eq_some.mp halloc).2)
  decide

/-- A packet of type one, without a header and a message. -/
def emptyPacket : CNetPacket := ⟨0x10000, 8, 0x10000⟩

def emptyContent : Bytes := [1, 0, 0, 0, 0, 0, 0, 0]

def emptyBlocks : Blocks := fun a => if a = 0x10000 then some emptyContent else none

private theorem emptyPacket_valid : Valid emptyBlocks emptyPacket emptyContent where
  placed := by decide
  least := by decide
  most := by decide
  block := rfl
  inside := by decide
  typed := by decide
  header := by decide

/-- A message of 100 MiB less seven bytes makes a packet that is one byte longer than the readers allow. -/
theorem not_rewritesWell_of_length {message : Bytes} (hlength : message.length = 104857593) :
    ¬RewritesWell emptyPacket plain plain oneBlock emptyBlocks emptyContent message none := by
  have hmeasure : (plain.byteSizeLong message).toNat = 104857593 := by
    simp only [plain, hlength]
    rfl
  have hsize : newSize plain plain emptyContent message (none : Option Bytes) = 104857601 := by
    have hheader : (newHeaderSize plain emptyContent none).toNat = 0 := by decide
    rw [newSize, hheader, hmeasure]
  have hencodes : plain.serializeToArray message = some message := if_pos (by omega)
  have hgoes : Goes plain plain oneBlock emptyBlocks emptyContent message none 0x20000 [] message :=
    ⟨by omega, ⟨_, if_pos rfl⟩, rfl, hencodes⟩
  intro hwell
  obtain ⟨hshort, -⟩ := accepted_of_rewritesWell oneBlock_allocates plain_measures plain_measures emptyPacket_valid hwell
    hgoes
  have hmax : maxPlausibleSize.toNat = 104857600 := rfl
  omega

/-- Such a message is written, and neither it nor the packet's type is read back. -/
theorem long_message_lost :
    ¬RewritesWell emptyPacket plain plain oneBlock emptyBlocks emptyContent (List.replicate 104857593 0) none :=
  not_rewritesWell_of_length List.length_replicate

end CNetPacket
end SlsteamMoon.NetPacket
