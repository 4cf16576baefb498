import SlsteamMoon.KeyValues.Decode

/-! Packets of the CM connection: the header and the body of one message, and the messages in the
body of a message of many. -/
namespace SlsteamMoon.CmWire
open KeyValues

/-- A `std::string`: in 32 bits its size is below `2 ^ 31`. -/
abbrev StdString := { bytes : Bytes // bytes.length < 0x80000000 }

/-- High bit of the emsg field. -/
def PROTO_MASK : UInt32 := 0x80000000

/-- None is an exception: the packet would be too long for a string. -/
def packPacket (emsg : UInt32) (hdr body : StdString) : Option StdString :=
  let e := emsg ||| PROTO_MASK
  let out := writeLE32 e.toNat ++ writeLE32 (hdr.val.length % 0x100000000) ++ hdr.val ++ body.val
  if h : out.length < 0x80000000 then some ⟨out, h⟩ else none

def parsePacket (d : Bytes) : Option (UInt32 × Bytes × Bytes) := do
  let (e, rest) ← readLE32 d
  let (hl, rest) ← readLE32 rest
  if 8 + hl > d.length then none
  else some (UInt32.ofNat e &&& ~~~PROTO_MASK, rest.take hl, rest.drop hl)

/-- The loop over the records that are left. A record that runs past the end drops all of them. -/
def expandFrom : Nat → Bytes → List Bytes → List Bytes
  | 0, _, out => out
  | fuel + 1, blob, out =>
    match readLE32 blob with
    | none => out
    | some (sz, rest) => if sz > rest.length then [] else expandFrom fuel (rest.drop sz) (out ++ [rest.take sz])

/-- Each round takes four bytes or more. -/
def expandMultiBody (blob : Bytes) : List Bytes := expandFrom (blob.length / 4 + 1) blob []

/-- A record of a message of many: its length and its bytes. -/
def frame (record : Bytes) : Bytes := writeLE32 record.length ++ record

def frames (records : List Bytes) : Bytes := records.flatMap frame

/-- Lengths that the four bytes can hold. -/
def Framed (records : List Bytes) : Prop := ∀ record ∈ records, record.length < 0x100000000

theorem packPacket_eq_none_iff {emsg : UInt32} {hdr body : StdString} :
    packPacket emsg hdr body = none ↔ 0x80000000 ≤ 8 + hdr.val.length + body.val.length := by
  rw [packPacket]
  simp only [List.length_append, length_writeLE32]
  rw [dite_eq_right_iff]
  simp only [reduceCtorEq, imp_false]
  omega

/-- Stripping the mask gives back a message type below it. -/
theorem strip_mask {emsg : UInt32} (h : emsg < 0x80000000) : (emsg ||| PROTO_MASK) &&& ~~~PROTO_MASK = emsg := by
  have hlt : emsg.toNat < 2 ^ 31 := UInt32.lt_iff_toNat_lt.mp h
  rw [← UInt32.toNat_inj, UInt32.toNat_and, UInt32.toNat_or]
  have hmask : (~~~PROTO_MASK).toNat = 2 ^ 31 - 1 := by decide
  have hbit : PROTO_MASK.toNat % 2 ^ 31 = 0 := by decide
  rw [hmask, Nat.and_two_pow_sub_one_eq_mod, Nat.or_mod_two_pow, hbit, Nat.or_zero, Nat.mod_eq_of_lt hlt]

private theorem parsePacket_packPacket {emsg : UInt32} (hemsg : emsg < 0x80000000) {hdr body packet : StdString}
    (h : packPacket emsg hdr body = some packet) : parsePacket packet.val = some (emsg, hdr.val, body.val) := by
  have hfits : hdr.val.length % 0x100000000 = hdr.val.length := Nat.mod_eq_of_lt (hdr.property.trans (by decide))
  simp only [packPacket, hfits] at h
  split_ifs at h with hlength
  cases h
  have hread : readLE32 (writeLE32 (emsg ||| PROTO_MASK).toNat ++ (writeLE32 hdr.val.length ++ (hdr.val ++ body.val))) =
      some ((emsg ||| PROTO_MASK).toNat, writeLE32 hdr.val.length ++ (hdr.val ++ body.val)) :=
    readLE32_write (UInt32.toNat_lt _) _
  have hread' : readLE32 (writeLE32 hdr.val.length ++ (hdr.val ++ body.val)) = some (hdr.val.length, hdr.val ++ body.val) :=
    readLE32_write (hdr.property.trans (by decide)) _
  have hroom : ¬8 + hdr.val.length > (writeLE32 (emsg ||| PROTO_MASK).toNat ++
      (writeLE32 hdr.val.length ++ (hdr.val ++ body.val))).length := by
    simp only [List.length_append, length_writeLE32]
    omega
  simp only [List.append_assoc, parsePacket, hread, hread', Option.bind_eq_bind, Option.bind_some, if_neg hroom,
    UInt32.ofNat_toNat, strip_mask hemsg, List.take_left, List.drop_left]

variable {records : List Bytes} {fragment out : Bytes}

private theorem frames_cons (record : Bytes) (records : List Bytes) :
    frames (record :: records) = writeLE32 record.length ++ (record ++ frames records) := by
  rw [frames, List.flatMap_cons, frame, List.append_assoc]
  rfl

/-- The loop takes the records one by one. -/
theorem expandFrom_frames (hrecords : Framed records) {fuel : Nat} {rest : Bytes}
    (hfuel : (frames records ++ rest).length < 4 * fuel) (out : List Bytes) :
    ∃ fuel', rest.length < 4 * fuel' ∧
      expandFrom fuel (frames records ++ rest) out = expandFrom fuel' rest (out ++ records) := by
  induction records generalizing fuel out with
  | nil => exact ⟨fuel, hfuel, by rw [List.append_nil]; rfl⟩
  | cons record records ih =>
    rw [frames_cons, List.append_assoc, List.length_append, length_writeLE32, List.append_assoc] at hfuel
    obtain ⟨fuel, rfl⟩ := Nat.exists_eq_add_one.mpr (by omega : 0 < fuel)
    obtain ⟨hrecord, hothers⟩ := List.forall_mem_cons.mp hrecords
    rw [List.length_append] at hfuel
    obtain ⟨fuel', hfuel', hrun⟩ := ih hothers (by omega : (frames records ++ rest).length < 4 * fuel) (out ++ [record])
    refine ⟨fuel', hfuel', ?_⟩
    have hread : readLE32 (writeLE32 record.length ++ (record ++ (frames records ++ rest))) =
        some (record.length, record ++ (frames records ++ rest)) := readLE32_write hrecord _
    rw [frames_cons, List.append_assoc, List.append_assoc, expandFrom, hread]
    simp only [List.drop_left, List.take_left]
    rw [if_neg (by rw [List.length_append]; omega), hrun, List.append_assoc, List.singleton_append]

/-- Whole records are taken, and less than a length behind them is passed over. -/
theorem expandMultiBody_frames (hrecords : Framed records) (hfragment : fragment.length < 4) :
    expandMultiBody (frames records ++ fragment) = records := by
  have hfuel : (frames records ++ fragment).length < 4 * ((frames records ++ fragment).length / 4 + 1) := by omega
  obtain ⟨fuel, hleft, hrun⟩ := expandFrom_frames hrecords hfuel []
  rw [expandMultiBody, hrun, List.nil_append]
  cases fuel with
  | zero => rfl
  | succ fuel => rw [expandFrom, readLE32_eq_none_iff.mpr hfragment]

private theorem expandMultiBody_cut (hrecords : Framed records) {n : Nat} (hn : n < 0x100000000) {rest : Bytes}
    (hcut : rest.length < n) :
    expandMultiBody (frames records ++ (writeLE32 n ++ rest)) = [] := by
  have hfuel : (frames records ++ (writeLE32 n ++ rest)).length <
      4 * ((frames records ++ (writeLE32 n ++ rest)).length / 4 + 1) := by omega
  obtain ⟨fuel, hleft, hrun⟩ := expandFrom_frames hrecords hfuel []
  obtain ⟨fuel, rfl⟩ := Nat.exists_eq_add_one.mpr (by omega : 0 < fuel)
  rw [expandMultiBody, hrun, expandFrom, readLE32_write hn]
  exact if_pos hcut

/-- A message of many is a row of records and then too little for a length, or a record of it is cut off. -/
theorem framed_or_cut (blob : Bytes) :
    (∃ records fragment, Framed records ∧ fragment.length < 4 ∧ blob = frames records ++ fragment) ∨
      ∃ records n rest, Framed records ∧ n < 0x100000000 ∧ rest.length < n ∧
        blob = frames records ++ (writeLE32 n ++ rest) := by
  induction hlength : blob.length using Nat.strongRecOn generalizing blob with
  | ind length ih =>
    cases hread : readLE32 blob with
    | none => exact .inl ⟨[], blob, List.forall_mem_nil _, readLE32_eq_none_iff.mp hread, rfl⟩
    | some read =>
      obtain ⟨n, rest⟩ := read
      obtain ⟨hn, rfl⟩ := writeLE32_of_read hread
      rw [List.length_append, length_writeLE32] at hlength
      obtain hcut | hroom := Nat.lt_or_ge rest.length n
      · exact .inr ⟨[], n, rest, List.forall_mem_nil _, hn, hcut, rfl⟩
      · have htake : (rest.take n).length = n := List.length_take_of_le hroom
        have hframes : ∀ records tail, rest.drop n = frames records ++ tail →
            writeLE32 n ++ rest = frames (rest.take n :: records) ++ tail := by
          intro records tail hdrop
          rw [frames_cons, htake, List.append_assoc, List.append_assoc, ← hdrop, List.take_append_drop]
        have hframed : ∀ records, Framed records → Framed (rest.take n :: records) := fun records hrecords =>
          List.forall_mem_cons.mpr ⟨htake.trans_lt hn, hrecords⟩
        obtain ⟨records, fragment, hrecords, hfragment, hdrop⟩ | ⟨records, m, tail, hrecords, hm, hcut, hdrop⟩ :=
          ih (rest.drop n).length (by rw [List.length_drop]; omega) (rest.drop n) rfl
        · exact .inl ⟨_, fragment, hframed records hrecords, hfragment, hframes records fragment hdrop⟩
        · exact .inr ⟨_, m, tail, hframed records hrecords, hm, hcut, hframes records _ hdrop⟩

/-- One record or more, and nothing else. -/
def IsFramed (blob : Bytes) : Prop := ∃ records, records ≠ [] ∧ Framed records ∧ blob = frames records

/-- One record or more, and then one to three bytes. -/
def HasFragment (blob : Bytes) : Prop :=
  ∃ records fragment, records ≠ [] ∧ Framed records ∧ 0 < fragment.length ∧ fragment.length < 4 ∧
    blob = frames records ++ fragment

private theorem expandMultiBody_of_isFramed {blob : Bytes} (h : IsFramed blob) :
    expandMultiBody blob ≠ [] ∧ frames (expandMultiBody blob) = blob := by
  obtain ⟨records, hne, hrecords, rfl⟩ := h
  have hexpand : expandMultiBody (frames records) = records := by
    rw [← List.append_nil (frames records)]
    exact expandMultiBody_frames hrecords (by decide)
  rw [hexpand]
  exact ⟨hne, rfl⟩

/-- What is taken from a row of records with a fragment behind it does not make up the whole. -/
theorem not_isFramed_of_hasFragment {blob : Bytes} (h : HasFragment blob) :
    expandMultiBody blob ≠ [] ∧ ¬IsFramed blob := by
  obtain ⟨records, fragment, hne, hrecords, hpos, hfragment, rfl⟩ := h
  have hexpand := expandMultiBody_frames hrecords hfragment
  refine ⟨by rwa [hexpand], fun hframed => ?_⟩
  have hwhole := (expandMultiBody_of_isFramed hframed).2
  rw [hexpand] at hwhole
  exact absurd (List.self_eq_append_right.mp hwhole) (List.ne_nil_of_length_pos hpos)

/-- The body of a message of many is taken as a whole or not at all, unless a fragment stands behind its records. -/
theorem packet_codec (blob : Bytes) :
    (∀ (emsg : UInt32) (hdr body packet : StdString), emsg < 0x80000000 → packPacket emsg hdr body = some packet →
      parsePacket packet.val = some (emsg, hdr.val, body.val)) ∧
    (((expandMultiBody blob ≠ [] ↔ IsFramed blob) ∧ (IsFramed blob → frames (expandMultiBody blob) = blob) ∧
        (¬IsFramed blob → expandMultiBody blob = [])) ↔
      ¬HasFragment blob) := by
  refine ⟨fun emsg hdr body packet hemsg hpack => parsePacket_packPacket hemsg hpack, ?_, fun hwhole => ?_⟩
  · rintro ⟨hiff, -, -⟩ hfragment
    obtain ⟨hne, hnot⟩ := not_isFramed_of_hasFragment hfragment
    exact hnot (hiff.mp hne)
  · have hempty : ¬IsFramed blob → expandMultiBody blob = [] := by
      intro hnot
      obtain ⟨records, fragment, hrecords, hfragment, rfl⟩ | ⟨records, n, rest, hrecords, hn, hcut, rfl⟩ :=
        framed_or_cut blob
      · rw [expandMultiBody_frames hrecords hfragment]
        by_contra hne
        obtain hzero | hpos := Nat.eq_zero_or_pos fragment.length
        · rw [List.length_eq_zero_iff.mp hzero, List.append_nil] at hnot
          exact hnot ⟨records, hne, hrecords, rfl⟩
        · exact hwhole ⟨records, fragment, hne, hrecords, hpos, hfragment, rfl⟩
      · exact expandMultiBody_cut hrecords hn hcut
    refine ⟨⟨fun hne => ?_, fun hframed => (expandMultiBody_of_isFramed hframed).1⟩,
      fun hframed => (expandMultiBody_of_isFramed hframed).2, hempty⟩
    by_contra hnot
    exact hne (hempty hnot)

/-- One record of one byte, and one byte behind it. -/
theorem packet_codec_fragment :
    ¬((expandMultiBody [1, 0, 0, 0, 7, 9] ≠ [] ↔ IsFramed [1, 0, 0, 0, 7, 9]) ∧
      (IsFramed [1, 0, 0, 0, 7, 9] → frames (expandMultiBody [1, 0, 0, 0, 7, 9]) = [1, 0, 0, 0, 7, 9]) ∧
      (¬IsFramed [1, 0, 0, 0, 7, 9] → expandMultiBody [1, 0, 0, 0, 7, 9] = [])) := by
  have hfragment : HasFragment [1, 0, 0, 0, 7, 9] :=
    ⟨[[7]], [9], by decide, List.forall_mem_singleton.mpr (by decide), by decide, by decide, by decide⟩
  obtain ⟨hne, hnot⟩ := not_isFramed_of_hasFragment hfragment
  rintro ⟨-, -, hempty⟩
  exact hne (hempty hnot)

end SlsteamMoon.CmWire
