import Mathlib.Tactic.Ring
import SlsteamMoon.Stats.PlayerStats

/-! The wire format in its own terms: varints, fields and rows of fields. The walker takes a row from
the front of any bytes, and what is cut out of a row is a row. -/
namespace SlsteamMoon.Stats
open KeyValues

/-- The number of seven bits a byte, the lowest first. -/
def base128 (bytes : Bytes) : Nat := bytes.foldr (fun b n => b.toNat % 0x80 + 0x80 * n) 0

/-- All bytes but the last announce another one. -/
def Ends (bytes : Bytes) : Prop :=
  ∃ more last, bytes = more ++ [last] ∧ (∀ b ∈ more, 0x80 ≤ b.toNat) ∧ last.toNat < 0x80

/-- Ten bytes at most, and 64 bits. -/
structure IsVarint (bytes : Bytes) (value : Nat) : Prop where
  ends : Ends bytes
  short : bytes.length ≤ 10
  fits : value < 2 ^ 64
  value_eq : value = base128 bytes

/-- The bytes behind a tag: a varint, eight bytes, four bytes, or a length and as many bytes. -/
inductive IsBody : Nat → Bytes → Bytes → Prop where
  | varint {bytes : Bytes} {value : Nat} (h : IsVarint bytes value) : IsBody 0 bytes bytes
  | fixed64 {bytes : Bytes} (h : bytes.length = 8) : IsBody 1 bytes bytes
  | fixed32 {bytes : Bytes} (h : bytes.length = 4) : IsBody 5 bytes bytes
  | delimited {length value : Bytes} (h : IsVarint length value.length) : IsBody 2 (length ++ value) value

/-- A field: a tag with its number and its wire type, and its body. -/
def IsField (field : Field) : Prop :=
  ∃ tag n body, IsVarint tag n ∧ field.number = n / 8 % 0x100000000 ∧ field.number ≠ 0 ∧ field.wireType = n % 8 ∧
    IsBody field.wireType body field.value ∧ field.raw = tag ++ body

private theorem base128_nil : base128 [] = 0 := rfl

private theorem base128_cons (b : UInt8) (bytes : Bytes) :
    base128 (b :: bytes) = b.toNat % 0x80 + 0x80 * base128 bytes := rfl

theorem not_ends_nil : ¬Ends [] := by
  rintro ⟨more, last, hnil, -⟩
  exact List.append_ne_nil_of_right_ne_nil more (List.cons_ne_nil last []) hnil.symm

private theorem ends_cons_iff {b : UInt8} {bytes : Bytes} :
    Ends (b :: bytes) ↔ (b.toNat < 0x80 ∧ bytes = []) ∨ (0x80 ≤ b.toNat ∧ Ends bytes) := by
  constructor
  · rintro ⟨more, last, hbytes, hmore, hlast⟩
    cases more with
    | nil =>
      obtain ⟨rfl, rfl⟩ := List.cons.inj hbytes
      exact .inl ⟨hlast, rfl⟩
    | cons c more =>
      obtain ⟨rfl, rfl⟩ := List.cons.inj hbytes
      obtain ⟨hc, hmore⟩ := List.forall_mem_cons.mp hmore
      exact .inr ⟨hc, more, last, rfl, hmore, hlast⟩
  · rintro (⟨hb, rfl⟩ | ⟨hb, more, last, rfl, hmore, hlast⟩)
    · exact ⟨[], b, rfl, List.forall_mem_nil _, hb⟩
    · exact ⟨b :: more, last, rfl, List.forall_mem_cons.mpr ⟨hb, hmore⟩, hlast⟩

/-- A digit below a number that fits leaves it fitting. -/
theorem fits_cons {k digit n : Nat} (hk : 7 * k + 7 ≤ 64) (hdigit : digit < 0x80) (hn : 2 ^ (7 * (k + 1)) * n < 2 ^ 64) :
    2 ^ (7 * k) * (digit + 0x80 * n) < 2 ^ 64 := by
  have hpow : 2 ^ (7 * (k + 1)) = 2 ^ (7 * k) * 0x80 := by rw [Nat.mul_add, Nat.pow_add]
  have hroom : 2 ^ 64 = 2 ^ (7 * (k + 1)) * 2 ^ (64 - (7 * k + 7)) := by
    rw [← Nat.pow_add]
    congr 1
    omega
  have hlt : n < 2 ^ (64 - (7 * k + 7)) := by
    rw [hroom] at hn
    exact Nat.lt_of_mul_lt_mul_left hn
  calc
    2 ^ (7 * k) * (digit + 0x80 * n) < 2 ^ (7 * k) * (0x80 * (n + 1)) := by
      refine Nat.mul_lt_mul_of_pos_left ?_ (Nat.two_pow_pos _)
      omega
    _ = 2 ^ (7 * (k + 1)) * (n + 1) := by rw [hpow, Nat.mul_assoc]
    _ ≤ 2 ^ 64 := by
      rw [hroom]
      exact Nat.mul_le_mul_left _ hlt

/-- What a byte and the bytes behind it add from a place on. -/
theorem shifted_cons (k : Nat) (b : UInt8) (bytes : Bytes) :
    2 ^ (7 * k) * base128 (b :: bytes) = 2 ^ (7 * k) * (b.toNat % 0x80) + 2 ^ (7 * (k + 1)) * base128 bytes := by
  rw [base128_cons, Nat.mul_add 7, Nat.pow_add]
  ring

/-- Read from the middle of a varint: the bytes that are left, and what they add. -/
theorem readVarintFrom_eq_some_iff {k result : Nat} {d rest : Bytes} {value : Nat} :
    readVarintFrom (7 * k) result d = some (value, rest) ↔
      ∃ bytes, d = bytes ++ rest ∧ Ends bytes ∧ k + bytes.length ≤ 10 ∧ 2 ^ (7 * k) * base128 bytes < 2 ^ 64 ∧
        value = result + 2 ^ (7 * k) * base128 bytes := by
  induction d generalizing k result with
  | nil =>
    simp only [readVarintFrom, reduceCtorEq, false_iff, not_exists]
    rintro bytes ⟨hnil, hends, -⟩
    rw [(List.append_eq_nil_iff.mp hnil.symm).1] at hends
    exact not_ends_nil hends
  | cons b tail ih =>
    rw [readVarintFrom]
    have hb := b.toNat_lt
    split_ifs with hguard hlast
    · simp only [false_iff, not_exists]
      rintro (_ | ⟨c, bytes⟩) ⟨hd, hends, hlength, hfits, -⟩
      · exact not_ends_nil hends
      · obtain ⟨rfl, -⟩ := List.cons.inj hd
        rw [List.length_cons] at hlength
        obtain rfl : k = 9 := by omega
        obtain rfl : bytes = [] := List.eq_nil_of_length_eq_zero (by omega)
        obtain ⟨hsmall, -⟩ | ⟨-, hnil⟩ := ends_cons_iff.mp hends
        · rw [base128_cons, base128_nil] at hfits
          omega
        · exact not_ends_nil hnil
    · -- The last byte.
      obtain ⟨hk, hone⟩ := not_or.mp hguard
      have hvalue : (b.toNat % 0x80) <<< (7 * k) = 2 ^ (7 * k) * base128 [b] := by
        rw [base128_cons, base128_nil, Nat.shiftLeft_eq, Nat.mul_zero, Nat.add_zero, Nat.mul_comm]
      rw [hvalue, Option.some.injEq, Prod.mk.injEq]
      constructor
      · rintro ⟨rfl, rfl⟩
        refine ⟨[b], rfl, ends_cons_iff.mpr (.inl ⟨hlast, rfl⟩), by rw [List.length_singleton]; omega, ?_, rfl⟩
        rw [base128_cons, base128_nil]
        obtain hlow | rfl := Nat.lt_or_eq_of_le (by omega : k ≤ 9)
        · exact fits_cons (by omega) (Nat.mod_lt _ (by decide)) (by rw [Nat.mul_zero]; exact Nat.two_pow_pos 64)
        · omega
      · rintro ⟨_ | ⟨c, bytes⟩, hd, hends, -, -, rfl⟩
        · exact absurd hends not_ends_nil
        · obtain ⟨rfl, rfl⟩ := List.cons.inj hd
          obtain ⟨-, rfl⟩ | ⟨hmore, -⟩ := ends_cons_iff.mp hends
          · exact ⟨rfl, rfl⟩
          · exact absurd hlast (Nat.not_lt.mpr hmore)
    · -- A byte that announces another one.
      obtain ⟨hk, hone⟩ := not_or.mp hguard
      have hvalue : (b.toNat % 0x80) <<< (7 * k) = 2 ^ (7 * k) * (b.toNat % 0x80) := by
        rw [Nat.shiftLeft_eq, Nat.mul_comm]
      have hshift : 7 * k + 7 = 7 * (k + 1) := by omega
      rw [hshift, ih, hvalue]
      constructor
      · rintro ⟨bytes, rfl, hends, hlength, hfits, rfl⟩
        have hpos : bytes ≠ [] := fun hnil => not_ends_nil (hnil ▸ hends)
        have hposlength := List.length_pos_of_ne_nil hpos
        refine ⟨b :: bytes, rfl, ends_cons_iff.mpr (.inr ⟨Nat.not_lt.mp hlast, hends⟩), ?_, ?_, ?_⟩
        · rw [List.length_cons]
          omega
        · rw [base128_cons]
          exact fits_cons (by omega) (Nat.mod_lt _ (by decide)) hfits
        · rw [shifted_cons, Nat.add_assoc]
      · rintro ⟨_ | ⟨c, bytes⟩, hd, hends, hlength, hfits, rfl⟩
        · exact absurd hends not_ends_nil
        · obtain ⟨rfl, rfl⟩ := List.cons.inj hd
          obtain ⟨hsmall, -⟩ | ⟨-, hends⟩ := ends_cons_iff.mp hends
          · exact absurd hsmall hlast
          · rw [List.length_cons] at hlength
            rw [shifted_cons] at hfits
            exact ⟨bytes, rfl, hends, by omega, by omega, by rw [shifted_cons, Nat.add_assoc]⟩

theorem readVarint_eq_some_iff {d rest : Bytes} {value : Nat} :
    readVarint d = some (value, rest) ↔ ∃ bytes, d = bytes ++ rest ∧ IsVarint bytes value := by
  have hread := @readVarintFrom_eq_some_iff 0 0 d rest value
  rw [Nat.mul_zero, Nat.pow_zero] at hread
  simp only [Nat.one_mul, Nat.zero_add] at hread
  rw [readVarint, hread]
  constructor
  · rintro ⟨bytes, hd, hends, hlength, hfits, hvalue⟩
    exact ⟨bytes, hd, hends, hlength, hvalue ▸ hfits, hvalue⟩
  · rintro ⟨bytes, hd, hends, hlength, hfits, hvalue⟩
    exact ⟨bytes, hd, hends, hlength, hvalue ▸ hfits, hvalue⟩

theorem take_front (front rest : Bytes) : (front ++ rest).take ((front ++ rest).length - rest.length) = front := by
  rw [List.length_append, Nat.add_sub_cancel, List.take_left]

theorem readValue_eq_some_iff {wireType : Nat} {d value rest : Bytes} :
    readValue wireType d = some (value, rest) ↔ ∃ body, d = body ++ rest ∧ IsBody wireType body value := by
  constructor
  · intro h
    match wireType with
    | 0 =>
      obtain ⟨⟨v, after⟩, hv, heq⟩ := Option.map_eq_some_iff.mp h
      obtain ⟨bytes, rfl, hbytes⟩ := readVarint_eq_some_iff.mp hv
      dsimp only at heq
      rw [take_front] at heq
      cases heq
      exact ⟨_, rfl, .varint hbytes⟩
    | 1 =>
      rw [readValue] at h
      split_ifs at h with hlength
      cases h
      exact ⟨d.take 8, (List.take_append_drop 8 d).symm, .fixed64 (List.length_take_of_le (Nat.not_lt.mp hlength))⟩
    | 5 =>
      rw [readValue] at h
      split_ifs at h with hlength
      cases h
      exact ⟨d.take 4, (List.take_append_drop 4 d).symm, .fixed32 (List.length_take_of_le (Nat.not_lt.mp hlength))⟩
    | 2 =>
      obtain ⟨⟨l, after⟩, hv, hvalue⟩ := Option.bind_eq_some_iff.mp h
      obtain ⟨length, rfl, hlength⟩ := readVarint_eq_some_iff.mp hv
      dsimp only at hvalue
      split_ifs at hvalue with hroom
      cases hvalue
      have htake : (after.take l).length = l := List.length_take_of_le (Nat.not_lt.mp hroom)
      refine ⟨length ++ after.take l, ?_, .delimited (by rwa [htake])⟩
      rw [List.append_assoc, List.take_append_drop]
    | 3 | 4 | _ + 6 => cases h
  · rintro ⟨body, rfl, hbody⟩
    cases hbody with
    | varint hbytes =>
      rw [readValue, readVarint_eq_some_iff.mpr ⟨_, rfl, hbytes⟩, Option.map_some]
      dsimp only
      rw [take_front]
    | fixed64 hlength =>
      have hroom : ¬(value ++ rest).length < 8 := by rw [List.length_append]; omega
      rw [readValue, if_neg hroom, ← hlength, List.take_left, List.drop_left]
    | fixed32 hlength =>
      have hroom : ¬(value ++ rest).length < 4 := by rw [List.length_append]; omega
      rw [readValue, if_neg hroom, ← hlength, List.take_left, List.drop_left]
    | @delimited length _ hlength =>
      have hroom : ¬(value ++ rest).length < value.length := by rw [List.length_append]; omega
      rw [List.append_assoc, readValue, readVarint_eq_some_iff.mpr ⟨_, rfl, hlength⟩, Option.bind_some]
      simp only [if_neg hroom, List.take_left, List.drop_left]

/-- A field is taken from the front of what begins with it, and nothing else is. -/
theorem readField_eq_some_iff {d rest : Bytes} {field : Field} :
    readField d = some (field, rest) ↔ d = field.raw ++ rest ∧ IsField field := by
  constructor
  · intro h
    obtain ⟨⟨n, after⟩, hv, hafter⟩ := Option.bind_eq_some_iff.mp h
    obtain ⟨tag, rfl, htag⟩ := readVarint_eq_some_iff.mp hv
    dsimp only at hafter
    split_ifs at hafter with hnumber
    obtain ⟨⟨value, tail⟩, hvalue, heq⟩ := Option.map_eq_some_iff.mp hafter
    obtain ⟨body, rfl, hbody⟩ := readValue_eq_some_iff.mp hvalue
    rw [← List.append_assoc, take_front] at heq
    cases heq
    refine ⟨(List.append_assoc tag body tail).symm, tag, n, body, htag, ?_, hnumber, rfl, hbody, rfl⟩
    rw [Nat.shiftRight_eq_div_pow]
  · rintro ⟨rfl, tag, n, body, htag, hnumber, hne, hwireType, hbody, hraw⟩
    rw [hraw, List.append_assoc, readField, readVarint_eq_some_iff.mpr ⟨_, rfl, htag⟩, Option.bind_some]
    have hshift : (n >>> 3) % 0x100000000 = field.number := by rw [hnumber, Nat.shiftRight_eq_div_pow]
    have hvalue : readValue field.wireType (body ++ rest) = some (field.value, rest) :=
      readValue_eq_some_iff.mpr ⟨body, rfl, hbody⟩
    simp only [hshift, if_neg hne, ← hwireType, hvalue, Option.map_some, ← List.append_assoc, ← hraw, take_front]

/-- A row of fields and what stands behind it are walked one after the other. -/
theorem walk_append {fields : List Field} (hfields : ∀ f ∈ fields, IsField f) (rest : Bytes) :
    walk (fields.flatMap Field.raw ++ rest) = ⟨fields ++ (walk rest).fields, (walk rest).complete⟩ := by
  induction fields with
  | nil => rfl
  | cons field fields ih =>
    obtain ⟨hfield, hothers⟩ := List.forall_mem_cons.mp hfields
    have hread : readField (field.raw ++ (fields.flatMap Field.raw ++ rest)) =
        some (field, fields.flatMap Field.raw ++ rest) := readField_eq_some_iff.mpr ⟨rfl, hfield⟩
    rw [List.flatMap_cons, List.append_assoc]
    cases hraw : field.raw ++ (fields.flatMap Field.raw ++ rest) with
    | nil =>
      rw [hraw] at hread
      cases hread
    | cons b d =>
      rw [hraw] at hread
      rw [walk_cons, hread]
      dsimp only
      rw [ih hothers, List.cons_append]

/-- Where the walk stops, no field begins. -/
def Stuck (rest : Bytes) : Prop := ∀ field tail, IsField field → rest ≠ field.raw ++ tail

private theorem walk_split (d : Bytes) :
    ∃ rest, d = (walk d).fields.flatMap Field.raw ++ rest ∧ (∀ f ∈ (walk d).fields, IsField f) ∧ Stuck rest ∧
      ((walk d).complete = true ↔ rest = []) := by
  induction hlength : d.length using Nat.strongRecOn generalizing d with
  | ind length ih =>
    have hstuck : ∀ rest, readField rest = none → Stuck rest := by
      rintro _ hread field tail hfield rfl
      rw [readField_eq_some_iff.mpr ⟨rfl, hfield⟩] at hread
      cases hread
    cases d with
    | nil => exact ⟨[], rfl, List.forall_mem_nil _, hstuck [] rfl, iff_of_true rfl rfl⟩
    | cons b d =>
      rw [walk_cons]
      cases hread : readField (b :: d) with
      | none =>
        exact ⟨b :: d, rfl, List.forall_mem_nil _, hstuck (b :: d) hread,
          iff_of_false Bool.false_ne_true (List.cons_ne_nil b d)⟩
      | some read =>
        obtain ⟨field, after⟩ := read
        obtain ⟨hd, hfield⟩ := readField_eq_some_iff.mp hread
        have hshorter : after.length < length := hlength ▸ (readField_length hread).1
        obtain ⟨rest, hafter, hfields, hrest, hcomplete⟩ := ih after.length hshorter after rfl
        refine ⟨rest, ?_, List.forall_mem_cons.mpr ⟨hfield, hfields⟩, hrest, hcomplete⟩
        rw [hd, List.flatMap_cons, List.append_assoc, ← hafter]

private theorem putVarintFrom_spec {fuel n : Nat} (h : n < 2 ^ (7 * (fuel + 1))) :
    Ends (putVarintFrom (fuel + 1) n) ∧ base128 (putVarintFrom (fuel + 1) n) = n := by
  induction fuel generalizing n with
  | zero =>
    have hlast : n < 0x80 := h
    have hbyte : (UInt8.ofNat n).toNat = n := by rw [UInt8.toNat_ofNat']; omega
    rw [putVarintFrom, if_pos hlast, base128_cons, base128_nil, hbyte]
    exact ⟨ends_cons_iff.mpr (.inl ⟨hbyte.trans_lt hlast, rfl⟩), by omega⟩
  | succ fuel ih =>
    rw [putVarintFrom]
    split_ifs with hlast
    · have hbyte : (UInt8.ofNat n).toNat = n := by rw [UInt8.toNat_ofNat']; omega
      rw [base128_cons, base128_nil, hbyte]
      exact ⟨ends_cons_iff.mpr (.inl ⟨hbyte.trans_lt hlast, rfl⟩), by omega⟩
    · have hbyte : (UInt8.ofNat (n % 0x80 + 0x80)).toNat = n % 0x80 + 0x80 := by rw [UInt8.toNat_ofNat']; omega
      have hrest : n / 0x80 < 2 ^ (7 * (fuel + 1)) := by
        rw [Nat.mul_succ, Nat.pow_add] at h
        exact Nat.div_lt_of_lt_mul (by rwa [Nat.mul_comm] at h)
      obtain ⟨hends, hvalue⟩ := ih hrest
      rw [base128_cons, hvalue, hbyte]
      exact ⟨ends_cons_iff.mpr (.inr ⟨by omega, hends⟩), by omega⟩

theorem isVarint_putVarint (v : UInt64) : IsVarint (putVarint v) v.toNat := by
  have hfuel : v.toNat < 2 ^ (7 * 10) := v.toNat_lt.trans (by decide)
  obtain ⟨hends, hvalue⟩ := putVarintFrom_spec hfuel
  exact ⟨hends, putVarint_length v, v.toNat_lt, hvalue.symm⟩

/-- A varint field of a number below 16 has a tag of one byte. -/
theorem isField_varint {number : Nat} (hpos : 0 < number) (hlow : number < 16) (v : UInt64) :
    IsField ⟨number, 0, UInt8.ofNat (8 * number) :: putVarint v, putVarint v⟩ := by
  have hbyte : (UInt8.ofNat (8 * number)).toNat = 8 * number := by rw [UInt8.toNat_ofNat']; omega
  have htag : IsVarint [UInt8.ofNat (8 * number)] (8 * number) := by
    refine ⟨ends_cons_iff.mpr (.inl ⟨by omega, rfl⟩), by rw [List.length_singleton]; omega, by omega, ?_⟩
    rw [base128_cons, base128_nil, hbyte]
    omega
  refine ⟨[UInt8.ofNat (8 * number)], 8 * number, putVarint v, htag, ?_, Nat.ne_of_gt hpos, ?_,
    .varint (isVarint_putVarint v), rfl⟩
  · dsimp only
    omega
  · dsimp only
    omega

private theorem walk_buildSpoofedRequest (steamid : UInt64) (appid : UInt32) :
    walk (buildSpoofedRequest steamid appid) =
      ⟨[⟨1, 0, 0x08 :: putVarint steamid, putVarint steamid⟩,
        ⟨2, 0, 0x10 :: putVarint appid.toUInt64, putVarint appid.toUInt64⟩], true⟩ := by
  have hfields : ∀ f ∈ [(⟨1, 0, 0x08 :: putVarint steamid, putVarint steamid⟩ : Field),
      ⟨2, 0, 0x10 :: putVarint appid.toUInt64, putVarint appid.toUInt64⟩], IsField f :=
    List.forall_mem_cons.mpr ⟨isField_varint (by decide) (by decide) steamid,
      List.forall_mem_singleton.mpr (isField_varint (by decide) (by decide) appid.toUInt64)⟩
  have hwalk := walk_append hfields []
  have hrequest : buildSpoofedRequest steamid appid = [(⟨1, 0, 0x08 :: putVarint steamid, putVarint steamid⟩ : Field),
      ⟨2, 0, 0x10 :: putVarint appid.toUInt64, putVarint appid.toUInt64⟩].flatMap Field.raw ++ [] := by
    simp [buildSpoofedRequest]
  rw [hrequest, hwalk]
  rfl

private theorem readVarint_putVarint (v : UInt64) : readVarint (putVarint v) = some (v.toNat, []) :=
  readVarint_eq_some_iff.mpr ⟨putVarint v, (List.append_nil _).symm, isVarint_putVarint v⟩

/-- What the response strippers and the request builder send is a row of whole fields. -/
theorem stripped_and_spoofed :
    (∀ d : Bytes, ∃ (fields : List Field) (rest : Bytes),
      d = fields.flatMap Field.raw ++ rest ∧ (∀ f ∈ fields, IsField f) ∧ Stuck rest ∧
      stripResponseStats d = (fields.filter fun f => f.number ≠ 4).flatMap Field.raw ∧
      walk (stripResponseStats d) = ⟨fields.filter fun f => f.number ≠ 4, true⟩) ∧
    ∀ (steamid : UInt64) (appid : UInt32),
      (walk (buildSpoofedRequest steamid appid)).complete = true ∧
      (walk (buildSpoofedRequest steamid appid)).fields.map Field.number = [1, 2] ∧
      parseRequestSteamId (buildSpoofedRequest steamid appid) = some steamid ∧
      parseRequestAppId (buildSpoofedRequest steamid appid) = some appid := by
  constructor
  · intro d
    obtain ⟨rest, hd, hfields, hrest, -⟩ := walk_split d
    refine ⟨(walk d).fields, rest, hd, hfields, hrest, rfl, ?_⟩
    have hkept : ∀ f ∈ (walk d).fields.filter fun f => f.number ≠ 4, IsField f := fun f hf =>
      hfields f (List.mem_of_mem_filter hf)
    have hwalk := walk_append hkept []
    rwa [List.append_nil, ← stripResponseStats, show walk [] = ⟨[], true⟩ from rfl, List.append_nil] at hwalk
  · intro steamid appid
    have hid : (readVarint (putVarint steamid)).map Prod.fst = some steamid.toNat := by rw [readVarint_putVarint]; rfl
    have happ : (readVarint (putVarint appid.toUInt64)).map Prod.fst = some appid.toNat := by
      rw [readVarint_putVarint, UInt32.toNat_toUInt64]
      rfl
    rw [parseRequestSteamId, parseRequestAppId, lastVarint, lastVarint, walk_buildSpoofedRequest]
    refine ⟨rfl, rfl, ?_, ?_⟩
    · simp [hid]
    · simp [happ]

end SlsteamMoon.Stats
