import SlsteamMoon.Sha256.Standard
import SlsteamMoon.ElfIdentity.LayoutFor
import SlsteamMoon.IpcFrame.TrailingRoot

/-! The digest of a file that is read piece by piece, and that it is the one of the standard. -/
namespace SlsteamMoon.Sha256
open IteratedHash
open Standard (Working)

/-- The buffer is never full between two bytes. -/
structure Sha256Ctx where
  state : Vector UInt32 8
  bitlen : UInt64
  data : Vector UInt8 64
  datalen : Nat
  room : datalen < 64

def rotr (x n : UInt32) : UInt32 := (x >>> n) ||| (x <<< (32 - n))

def k : List UInt32 :=
  [0x428a2f98, 0x71374491, 0xb5c0fbcf, 0xe9b5dba5, 0x3956c25b, 0x59f111f1, 0x923f82a4, 0xab1c5ed5,
    0xd807aa98, 0x12835b01, 0x243185be, 0x550c7dc3, 0x72be5d74, 0x80deb1fe, 0x9bdc06a7, 0xc19bf174,
    0xe49b69c1, 0xefbe4786, 0x0fc19dc6, 0x240ca1cc, 0x2de92c6f, 0x4a7484aa, 0x5cb0a9dc, 0x76f988da,
    0x983e5152, 0xa831c66d, 0xb00327c8, 0xbf597fc7, 0xc6e00bf3, 0xd5a79147, 0x06ca6351, 0x14292967,
    0x27b70a85, 0x2e1b2138, 0x4d2c6dfc, 0x53380d13, 0x650a7354, 0x766a0abb, 0x81c2c92e, 0x92722c85,
    0xa2bfe8a1, 0xa81a664b, 0xc24b8b70, 0xc76c51a3, 0xd192e819, 0xd6990624, 0xf40e3585, 0x106aa070,
    0x19a4c116, 0x1e376c08, 0x2748774c, 0x34b0bcb5, 0x391c0cb3, 0x4ed8aa4a, 0x5b9cca4f, 0x682e6ff3,
    0x748f82ee, 0x78a5636f, 0x84c87814, 0x8cc70208, 0x90befffa, 0xa4506ceb, 0xbef9a3f7, 0xc67178f2]

/-- The words of the block, as the first loop over m puts them together. -/
def words (data : Vector UInt8 64) : List UInt32 :=
  (List.range 16).map fun i =>
    let byte (j : Nat) : UInt32 := (data.toList.getD (4 * i + j) 0).toUInt32
    (byte 0 <<< 24) ||| (byte 1 <<< 16) ||| (byte 2 <<< 8) ||| byte 3

/-- One turn of the second loop over m. -/
def extend (m : List UInt32) (i : Nat) : List UInt32 :=
  let back (distance : Nat) : UInt32 := m.getD (i - distance) 0
  let s0 := rotr (back 15) 7 ^^^ rotr (back 15) 18 ^^^ (back 15 >>> 3)
  let s1 := rotr (back 2) 17 ^^^ rotr (back 2) 19 ^^^ (back 2 >>> 10)
  m ++ [back 16 + s0 + back 7 + s1]

def m (data : Vector UInt8 64) : List UInt32 := (List.range' 16 48).foldl extend (words data)

/-- One turn of the loop over the eight variables. -/
def round (m : List UInt32) (v : Working) (i : Nat) : Working :=
  let S1 := rotr v.e 6 ^^^ rotr v.e 11 ^^^ rotr v.e 25
  let ch := (v.e &&& v.f) ^^^ (~~~v.e &&& v.g)
  let t1 := v.h + S1 + ch + k.getD i 0 + m.getD i 0
  let S0 := rotr v.a 2 ^^^ rotr v.a 13 ^^^ rotr v.a 22
  let maj := (v.a &&& v.b) ^^^ (v.a &&& v.c) ^^^ (v.b &&& v.c)
  let t2 := S0 + maj
  { h := v.g, g := v.f, f := v.e, e := v.d + t1, d := v.c, c := v.b, b := v.a, a := t1 + t2 }

def sha256Transform (s : Vector UInt32 8) (data : Vector UInt8 64) : Vector UInt32 8 :=
  Standard.addTo s ((List.range 64).foldl (round (m data)) (Standard.ofState s))

/-- The bytes of the buffer are those that were there. -/
def sha256Init (data : Vector UInt8 64) : Sha256Ctx where
  state := #v[0x6a09e667, 0xbb67ae85, 0x3c6ef372, 0xa54ff53a, 0x510e527f, 0x9b05688c, 0x1f83d9ab, 0x5be0cd19]
  bitlen := 0
  data
  datalen := 0
  room := by decide

/-- One turn of the loop of sha256Update. -/
def updateByte (ctx : Sha256Ctx) (byte : UInt8) : Sha256Ctx :=
  let data := ctx.data.set ctx.datalen byte ctx.room
  if h : ctx.datalen + 1 = 64 then
    { state := sha256Transform ctx.state data, bitlen := ctx.bitlen + 512, data, datalen := 0, room := by decide }
  else { ctx with data, datalen := ctx.datalen + 1, room := Nat.lt_of_le_of_ne ctx.room h }

def sha256Update (ctx : Sha256Ctx) (data : List UInt8) : Sha256Ctx := data.foldl updateByte ctx

/-- The zeros from an index on, as many as given. -/
def zeros (data : Vector UInt8 64) (i : Nat) : (count : Nat) → i + count ≤ 64 → Vector UInt8 64
  | 0, _ => data
  | count + 1, h => zeros (data.set i 0 (by omega)) (i + 1) count (by omega)

/-- The first turns of the loop that puts the length in, from the last byte of the buffer on. -/
def putLength (data : Vector UInt8 64) (bitlen : UInt64) : (turns : Nat) → Vector UInt8 64
  | 0 => data
  | j + 1 => (putLength data bitlen j).set (63 - j) (bitlen >>> UInt64.ofNat (8 * j)).toUInt8 (Nat.sub_lt_succ 63 j)

/-- The mark and the zeros up to the place of the length, through a block of their own where it does not fit. -/
def closed (ctx : Sha256Ctx) : Vector UInt32 8 × Vector UInt8 64 :=
  let marked := ctx.data.set ctx.datalen 0x80 ctx.room
  if h : ctx.datalen < 56 then (ctx.state, zeros marked (ctx.datalen + 1) (56 - (ctx.datalen + 1)) (by omega))
  else
    let filled := zeros marked (ctx.datalen + 1) (64 - (ctx.datalen + 1)) (by have := ctx.room; omega)
    (sha256Transform ctx.state filled, zeros filled 0 56 (by decide))

def sha256Final (ctx : Sha256Ctx) : List UInt8 :=
  let bitlen := ctx.bitlen + UInt64.ofNat ctx.datalen * 8
  let state := sha256Transform (closed ctx).1 (putLength (closed ctx).2 bitlen 8)
  state.toList.flatMap fun word => (List.range 4).map fun i => (word >>> UInt32.ofNat (24 - 8 * i)).toUInt8

/-- The hexadecimal digest of what the reads give; of a file that does not open, nothing. -/
def getFileSHA256 (garbage : Vector UInt8 64) : Option (List (List UInt8)) → List UInt8
  | none => []
  | some reads => ElfIdentity.hexadecimal (sha256Final (reads.foldl sha256Update (sha256Init garbage)))

section Transform

private theorem rotr_eq (x : UInt32) {n : UInt32} (hpos : 0 < n.toNat) (h : n.toNat < 32) :
    rotr x n = Standard.ROTR n.toNat x := by
  have hless : (n.toBitVec % 32).toNat = n.toNat := by
    rw [BitVec.toNat_umod, UInt32.toNat_toBitVec]
    exact Nat.mod_eq_of_lt h
  have hback : ((32 - n).toBitVec % 32).toNat = 32 - n.toNat := by
    have hle : n ≤ 32 := UInt32.le_iff_toNat_le.mpr (Nat.le_of_lt h)
    rw [BitVec.toNat_umod, UInt32.toNat_toBitVec, UInt32.toNat_sub_of_le _ _ hle]
    exact Nat.mod_eq_of_lt (Nat.sub_lt (by decide) hpos)
  apply UInt32.eq_of_toBitVec_eq
  rw [rotr, UInt32.toBitVec_or, UInt32.toBitVec_shiftRight, UInt32.toBitVec_shiftLeft, Standard.ROTR, BitVec.rotateRight_def,
    Nat.mod_eq_of_lt h, BitVec.ushiftRight_eq', BitVec.shiftLeft_eq', hless, hback]

private theorem or_reverse (a b c d : UInt32) : a ||| b ||| c ||| d = d ||| c ||| b ||| a := by ac_rfl

/-- The four bytes of a word. -/
theorem bigEndian_eq (b0 b1 b2 b3 : UInt8) :
    (b0.toUInt32 <<< 24 ||| b1.toUInt32 <<< 16 ||| b2.toUInt32 <<< 8 ||| b3.toUInt32).toNat = Standard.ofBytes [b0, b1, b2, b3] := by
  have hvalue : Standard.ofBytes [b0, b1, b2, b3] =
    256 * (256 * (256 * (256 * 0 + b0.toNat) + b1.toNat) + b2.toNat) + b3.toNat := rfl
  rw [or_reverse, hvalue]
  have h := IpcFrame.toNat_littleEndian b3 b2 b1 b0
  rw [IpcFrame.littleEndian] at h
  rw [h]
  omega

theorem words_eq (data : Vector UInt8 64) : words data = (List.range 16).map (Standard.W data.toList) := by
  refine List.map_congr_left fun t ht => ?_
  have ht : t < 16 := List.mem_range.mp ht
  have hlength : data.toList.length = 64 := Vector.length_toList
  have hbyte (j : Nat) (hj : 4 * t + j < data.toList.length) : data.toList.getD (4 * t + j) 0 = data.toList[4 * t + j] :=
    List.getD_eq_getElem _ _ hj
  have hfour : (data.toList.drop (4 * t)).take 4 =
      [data.toList.getD (4 * t + 0) 0, data.toList.getD (4 * t + 1) 0, data.toList.getD (4 * t + 2) 0,
        data.toList.getD (4 * t + 3) 0] := by
    rw [hbyte 0 (by omega), hbyte 1 (by omega), hbyte 2 (by omega), hbyte 3 (by omega)]
    rw [List.drop_eq_getElem_cons (by omega), List.drop_eq_getElem_cons (by omega), List.drop_eq_getElem_cons (by omega),
      List.drop_eq_getElem_cons (by omega)]
    rfl
  rw [Standard.W, if_pos ht, Standard.M, hfour, ← bigEndian_eq, UInt32.ofNat_toNat]

/-- The schedule up to here, by one word. -/
theorem extend_eq (block : List UInt8) {i : Nat} (hi : 16 ≤ i) :
    extend ((List.range i).map (Standard.W block)) i = (List.range (i + 1)).map (Standard.W block) := by
  have hback {distance : Nat} (hpos : 0 < distance) (hle : distance ≤ 16) :
      ((List.range i).map (Standard.W block)).getD (i - distance) 0 = Standard.W block (i - distance) := by
    rw [List.getD_eq_getElem _ _ (by simp; omega)]
    simp
  have hword : Standard.W block i = Standard.W block (i - 16) + Standard.sigma0 (Standard.W block (i - 15)) +
      Standard.W block (i - 7) + Standard.sigma1 (Standard.W block (i - 2)) := by
    rw [Standard.W, if_neg (by omega)]
    ac_rfl
  rw [List.range_succ, List.map_append, List.map_singleton, hword]
  simp only [extend, hback (by decide : 0 < 16) (by decide), hback (by decide : 0 < 15) (by decide),
    hback (by decide : 0 < 7) (by decide), hback (by decide : 0 < 2) (by decide)]
  simp only [Standard.sigma0, Standard.sigma1, rotr_eq _ (by decide : 0 < (7 : UInt32).toNat) (by decide),
    rotr_eq _ (by decide : 0 < (18 : UInt32).toNat) (by decide), rotr_eq _ (by decide : 0 < (17 : UInt32).toNat) (by decide),
    rotr_eq _ (by decide : 0 < (19 : UInt32).toNat) (by decide)]
  rfl

private theorem m_eq (data : Vector UInt8 64) : m data = (List.range 64).map (Standard.W data.toList) := by
  have hrun (count : Nat) : (List.range' 16 count).foldl extend ((List.range 16).map (Standard.W data.toList)) =
      (List.range (16 + count)).map (Standard.W data.toList) := by
    induction count with
    | zero => rfl
    | succ count ih =>
      rw [List.range'_concat, List.foldl_append, ih, Nat.one_mul]
      exact extend_eq data.toList (Nat.le_add_right 16 count)
  rw [m, words_eq, hrun 48]

/-- The table of the source holds what the standard asks for. -/
theorem k_eq {t : Nat} (ht : t < 64) : k.getD t 0 = Standard.K t := by
  have htable : ∀ t < 64, k.getD t 0 = UInt32.ofNat (Nat.nthRoot 3 (Standard.primes.getD t 0 * 2 ^ 96)) := by decide +kernel
  rw [Standard.K, Standard.nth_prime ht, htable t ht]

private theorem round_eq (data : Vector UInt8 64) (v : Working) {t : Nat} (ht : t < 64) :
    round (m data) v t = Standard.round data.toList v t := by
  have hword : (m data).getD t 0 = Standard.W data.toList t := by
    rw [m_eq, List.getD_eq_getElem _ _ (by simpa using ht)]
    simp
  simp only [round, Standard.round, hword, k_eq ht, Standard.Sum0, Standard.Sum1, Standard.Ch, Standard.Maj,
    rotr_eq _ (by decide : 0 < (6 : UInt32).toNat) (by decide), rotr_eq _ (by decide : 0 < (11 : UInt32).toNat) (by decide),
    rotr_eq _ (by decide : 0 < (25 : UInt32).toNat) (by decide), rotr_eq _ (by decide : 0 < (2 : UInt32).toNat) (by decide),
    rotr_eq _ (by decide : 0 < (13 : UInt32).toNat) (by decide), rotr_eq _ (by decide : 0 < (22 : UInt32).toNat) (by decide)]
  rfl

private theorem sha256Transform_eq (s : Vector UInt32 8) (data : Vector UInt8 64) :
    sha256Transform s data = Standard.compress s data.toList := by
  have hrounds : (List.range 64).foldl (round (m data)) (Standard.ofState s) =
      (List.range 64).foldl (Standard.round data.toList) (Standard.ofState s) := by
    apply List.foldl_ext
    intro v t ht
    exact round_eq data v (List.mem_range.mp ht)
  rw [sha256Transform, hrounds, Standard.compress]

private theorem state_init (garbage : Vector UInt8 64) : (sha256Init garbage).state = Standard.H0 := by
  have htable : ∀ j : Fin 8, (sha256Init (.replicate 64 0)).state.get j =
      UInt32.ofNat (Nat.nthRoot 2 (Standard.primes.getD j 0 * 2 ^ 64)) := by decide +kernel
  apply Vector.ext
  intro j hj
  rw [Standard.H0, Vector.getElem_ofFn, Standard.nth_prime (by omega)]
  exact htable ⟨j, hj⟩

end Transform

namespace Sha256Ctx

/-- What the context stands for: the chaining value and the bytes that wait. -/
def pending (ctx : Sha256Ctx) : Pending (Vector UInt32 8) UInt8 := ⟨ctx.state, ctx.data.toList.take ctx.datalen⟩

/-- The bits taken in so far, up to the width of their counter. -/
def bits (ctx : Sha256Ctx) : UInt64 := ctx.bitlen + UInt64.ofNat ctx.datalen * 8

private theorem length_pending (ctx : Sha256Ctx) : ctx.pending.letters.length = ctx.datalen := by
  rw [pending, List.length_take, Vector.length_toList]
  exact Nat.min_eq_left (Nat.le_of_lt ctx.room)

end Sha256Ctx

/-- Writing behind what is kept. -/
theorem take_set (data : Vector UInt8 64) {i : Nat} (hi : i < 64) (x : UInt8) :
    (data.set i x hi).toList.take (i + 1) = data.toList.take i ++ [x] := by
  have hlength : data.toList.length = 64 := Vector.length_toList
  rw [Vector.toList_set, List.take_succ_eq_append_getElem (by rw [List.length_set]; omega), List.getElem_set_self,
    List.take_set_of_le (Nat.le_refl i)]

private theorem pending_updateByte (ctx : Sha256Ctx) (byte : UInt8) :
    (updateByte ctx byte).pending = ctx.pending.push Standard.compress 64 byte := by
  have htaken := take_set ctx.data ctx.room byte
  rw [Pending.push, ctx.length_pending, updateByte]
  split
  · next hfull =>
    have hall : (ctx.data.set ctx.datalen byte ctx.room).toList = ctx.pending.letters ++ [byte] := by
      rw [List.take_of_length_le (by rw [Vector.length_toList, hfull])] at htaken
      exact htaken
    rw [Sha256Ctx.pending, sha256Transform_eq, hall]
    rfl
  · rw [Sha256Ctx.pending, htaken]
    rfl

private theorem bits_updateByte (ctx : Sha256Ctx) (byte : UInt8) : (updateByte ctx byte).bits = ctx.bits + 8 := by
  rw [updateByte]
  split
  · next hfull =>
    have hwas : ctx.datalen = 63 := by omega
    simp only [Sha256Ctx.bits, hwas]
    rw [UInt64.add_assoc, UInt64.add_assoc]
    rfl
  · simp only [Sha256Ctx.bits, UInt64.ofNat_add, UInt64.add_mul]
    rw [UInt64.add_assoc]
    rfl

private theorem sha256Update_cons (ctx : Sha256Ctx) (byte : UInt8) (data : List UInt8) :
    sha256Update ctx (byte :: data) = sha256Update (updateByte ctx byte) data := rfl

/-- However the bytes come in, they are taken in one after the other. -/
theorem pending_sha256Update (ctx : Sha256Ctx) (data : List UInt8) :
    (sha256Update ctx data).pending = data.foldl (Pending.push Standard.compress 64) ctx.pending := by
  induction data generalizing ctx with
  | nil => rfl
  | cons byte data ih => rw [sha256Update_cons, ih, pending_updateByte, List.foldl_cons]

private theorem bits_sha256Update (ctx : Sha256Ctx) (data : List UInt8) :
    (sha256Update ctx data).bits = ctx.bits + UInt64.ofNat (8 * data.length) := by
  induction data generalizing ctx with
  | nil => simp [sha256Update]
  | cons byte data ih =>
    rw [sha256Update_cons, ih, bits_updateByte, List.length_cons, Nat.mul_succ, Nat.add_comm, UInt64.ofNat_add, UInt64.add_assoc]
    rfl

private theorem sha256Update_append (ctx : Sha256Ctx) (front more : List UInt8) :
    sha256Update (sha256Update ctx front) more = sha256Update ctx (front ++ more) :=
  List.foldl_append.symm

private theorem take_zeros (data : Vector UInt8 64) (i count : Nat) (h : i + count ≤ 64) :
    (zeros data i count h).toList.take (i + count) = data.toList.take i ++ List.replicate count 0 := by
  induction count generalizing data i with
  | zero => simp [zeros]
  | succ count ih =>
    have hi : i < 64 := by omega
    have hshift : i + (count + 1) = i + 1 + count := by omega
    rw [zeros, hshift, ih, take_set data hi, List.append_assoc, List.replicate_succ, List.singleton_append]

private theorem lengthByte_eq (n : Nat) {j : Nat} (hj : j < 8) :
    (UInt64.ofNat n >>> UInt64.ofNat (8 * j)).toUInt8 = UInt8.ofNat (n / 256 ^ j) := by
  have hshift : (UInt64.ofNat (8 * j)).toNat % 64 = 8 * j := by
    rw [UInt64.toNat_ofNat', Nat.mod_eq_of_lt (by omega), Nat.mod_eq_of_lt (by omega)]
  have hpow : 256 ^ j = 2 ^ (8 * j) := by rw [Nat.pow_mul]
  apply UInt8.toNat_inj.mp
  have hsplit : 2 ^ 64 = 2 ^ (8 * j) * 2 ^ (64 - 8 * j) := by
    rw [← Nat.pow_add]
    congr 1
    omega
  rw [UInt64.toNat_toUInt8, UInt64.toNat_shiftRight, hshift, UInt64.toNat_ofNat', UInt8.toNat_ofNat', Nat.shiftRight_eq_div_pow,
    hpow, hsplit, Nat.mod_mul_right_div_self]
  exact Nat.mod_mod_of_dvd _ (Nat.pow_dvd_pow 2 (by omega))

/-- The length behind the bytes that it leaves. -/
theorem toList_putLength (data : Vector UInt8 64) (n : Nat) {turns : Nat} (h : turns ≤ 8) :
    (putLength data (UInt64.ofNat n) turns).toList = data.toList.take (64 - turns) ++ Standard.toBytes turns n := by
  induction turns with
  | zero =>
    rw [putLength, Nat.sub_zero, List.take_of_length_le (Nat.le_of_eq Vector.length_toList)]
    exact (List.append_nil _).symm
  | succ j ih =>
    have hplace : 64 - j = 63 - j + 1 := by omega
    have hfront : 64 - (j + 1) = 63 - j := by omega
    have hlength : data.toList.length = 64 := Vector.length_toList
    have htake : (data.toList.take (64 - j)).length = 64 - j := by
      rw [List.length_take]
      omega
    have hset (x : UInt8) : (data.toList.take (64 - j)).set (63 - j) x = data.toList.take (63 - j) ++ [x] := by
      rw [hplace, List.take_succ_eq_append_getElem (by omega), List.set_append_right _ _ (by rw [List.length_take]; omega)]
      have hzero : 63 - j - (data.toList.take (63 - j)).length = 0 := by
        rw [List.length_take]
        omega
      rw [hzero]
      rfl
    rw [putLength, Vector.toList_set, ih (by omega), List.set_append_left _ _ (by omega), hset, lengthByte_eq n (by omega),
      Standard.toBytes_succ, hfront, List.append_assoc, List.singleton_append]

/-- The mark and the zeros behind what waits. -/
theorem take_marked (ctx : Sha256Ctx) {stop : Nat} (hfits : ctx.datalen < stop) (hstop : ctx.datalen + 1 + (stop - (ctx.datalen + 1)) ≤ 64) :
    (zeros (ctx.data.set ctx.datalen 0x80 ctx.room) (ctx.datalen + 1) (stop - (ctx.datalen + 1)) hstop).toList.take stop =
      ctx.pending.letters ++ 0x80 :: List.replicate (stop - (ctx.datalen + 1)) 0 := by
  have hzeros := take_zeros (ctx.data.set ctx.datalen 0x80 ctx.room) (ctx.datalen + 1) (stop - (ctx.datalen + 1)) hstop
  have hend : ctx.datalen + 1 + (stop - (ctx.datalen + 1)) = stop := by omega
  simp only [hend] at hzeros
  rw [hzeros, take_set ctx.data ctx.room, List.append_assoc, Sha256Ctx.pending]
  rfl

/-- What closed leaves takes the chaining value to that of the padded rest. -/
theorem closed_eq (ctx : Sha256Ctx) (n : Nat) :
    Standard.compress (closed ctx).1 ((closed ctx).2.toList.take 56 ++ Standard.toBytes 8 n) =
      (blocks 64 (ctx.pending.letters ++ (0x80 :: List.replicate ((119 - ctx.datalen) % 64) 0 ++
        Standard.toBytes 8 n))).foldl Standard.compress ctx.state := by
  have hroom := ctx.room
  have hlength := ctx.length_pending
  by_cases hfits : ctx.datalen < 56
  · have hcount : (119 - ctx.datalen) % 64 = 56 - (ctx.datalen + 1) := by omega
    have hblock : (closed ctx).2.toList.take 56 = ctx.pending.letters ++ 0x80 :: List.replicate (56 - (ctx.datalen + 1)) 0 := by
      simp only [closed, dif_pos hfits]
      exact take_marked ctx hfits _
    have hstate : (closed ctx).1 = ctx.state := by simp only [closed, dif_pos hfits]
    rw [hblock, hstate, hcount, ← List.append_assoc, blocks_of_length (by decide)]
    · rfl
    · simp only [List.length_append, List.length_cons, List.length_replicate, Standard.length_toBytes]
      omega
  · have hcount : (119 - ctx.datalen) % 64 = 64 - (ctx.datalen + 1) + 56 := by omega
    let filled := zeros (ctx.data.set ctx.datalen 0x80 ctx.room) (ctx.datalen + 1) (64 - (ctx.datalen + 1)) (by omega)
    have hfilled : filled.toList = ctx.pending.letters ++ 0x80 :: List.replicate (64 - (ctx.datalen + 1)) 0 := by
      have h := take_marked ctx ctx.room (by omega)
      rwa [List.take_of_length_le (by rw [Vector.length_toList])] at h
    have hstate : (closed ctx).1 = Standard.compress ctx.state filled.toList := by
      simp only [closed, dif_neg hfits]
      exact sha256Transform_eq ctx.state filled
    have hblock : (closed ctx).2.toList.take 56 = List.replicate 56 0 := by
      simp only [closed, dif_neg hfits]
      have h := take_zeros filled 0 56 (by decide)
      rwa [List.take_zero, List.nil_append] at h
    have hwhole : ctx.pending.letters ++ (0x80 :: List.replicate (64 - (ctx.datalen + 1) + 56) 0 ++ Standard.toBytes 8 n) =
        filled.toList ++ (List.replicate 56 0 ++ Standard.toBytes 8 n) := by
      rw [hfilled, List.replicate_add]
      simp only [List.append_assoc, List.cons_append]
    rw [hstate, hblock, hcount, hwhole, blocks_block (by decide) Vector.length_toList, blocks_of_length (by decide), List.foldl_cons]
    · rfl
    · simp only [List.length_append, List.length_replicate, Standard.length_toBytes]

/-- The bytes of a word, the most significant first. -/
theorem wordBytes_eq (word : UInt32) :
    ((List.range 4).map fun i => (word >>> UInt32.ofNat (24 - 8 * i)).toUInt8) = Standard.toBytes 4 word.toNat := by
  refine List.map_congr_left fun i hi => ?_
  have hi : i < 4 := List.mem_range.mp hi
  have hshift : (UInt32.ofNat (24 - 8 * i)).toNat % 32 = 8 * (4 - 1 - i) := by
    rw [UInt32.toNat_ofNat', Nat.mod_eq_of_lt (by omega)]
    omega
  have hpow : 256 ^ (4 - 1 - i) = 2 ^ (8 * (4 - 1 - i)) := by rw [Nat.pow_mul]
  apply UInt8.toNat_inj.mp
  rw [UInt32.toNat_toUInt8, UInt32.toNat_shiftRight, hshift, UInt8.toNat_ofNat', Nat.shiftRight_eq_div_pow, hpow]

/-- The end of a message whose bytes have all been taken in. -/
theorem sha256Final_eq (ctx : Sha256Ctx) (n : Nat) (hbits : ctx.bits = UInt64.ofNat n) :
    sha256Final ctx = ((blocks 64 (ctx.pending.letters ++ (0x80 :: List.replicate ((119 - ctx.datalen) % 64) 0 ++
      Standard.toBytes 8 n))).foldl Standard.compress ctx.state).toList.flatMap fun word => Standard.toBytes 4 word.toNat := by
  have hlength : ctx.bitlen + UInt64.ofNat ctx.datalen * 8 = UInt64.ofNat n := hbits
  have hfront : 64 - 8 = 56 := rfl
  rw [← closed_eq ctx n, sha256Final, hlength, sha256Transform_eq, toList_putLength _ _ (Nat.le_refl 8), hfront]
  exact List.flatMap_congr fun word _ => wordBytes_eq word

/-- However the reads cut a file, its digest is the one of the standard, in lower case hexadecimal digits; what was in the
buffer before does not matter, and the length counts modulo its 64 bits. -/
theorem getFileSHA256_standard (garbage : Vector UInt8 64) (reads : List (List UInt8)) :
    getFileSHA256 garbage (some reads) = ElfIdentity.hexadecimal (Standard.sha256 reads.flatten) := by
  let message := reads.flatten
  have hreads (ctx : Sha256Ctx) : reads.foldl sha256Update ctx = sha256Update ctx reads.flatten := by
    induction reads generalizing ctx with
    | nil => rfl
    | cons front more ih => rw [List.foldl_cons, ih, sha256Update_append, List.flatten_cons]
  have hpending : (sha256Update (sha256Init garbage) message).pending =
      ⟨(blocks 64 message).foldl Standard.compress Standard.H0, rest 64 message⟩ := by
    rw [pending_sha256Update, Sha256Ctx.pending, state_init]
    exact Pending.foldl_push (by decide) Standard.H0 message
  have hbits : (sha256Update (sha256Init garbage) message).bits = UInt64.ofNat (8 * message.length) := by
    rw [bits_sha256Update]
    exact UInt64.zero_add _
  have hstate : (sha256Update (sha256Init garbage) message).state = (blocks 64 message).foldl Standard.compress Standard.H0 :=
    congrArg Pending.chain hpending
  have hletters := congrArg Pending.letters hpending
  have hdatalen : (sha256Update (sha256Init garbage) message).datalen = message.length % 64 := by
    rw [← Sha256Ctx.length_pending, hletters, length_rest]
  have hwhole := @foldl_blocks_append _ _ _ Standard.compress (by decide : 0 < 64) Standard.H0 message
    (Standard.padding message.length)
  rw [Standard.padding] at hwhole
  rw [getFileSHA256, hreads, sha256Final_eq _ _ hbits, hletters, hdatalen, hstate, ← hwhole, Standard.sha256, Standard.padding]

/-- The digest of "abc". -/
example : (sha256Final (sha256Update (sha256Init (.replicate 64 7)) [0x61, 0x62, 0x63])).take 4 = [0xba, 0x78, 0x16, 0xbf] := by
  decide +kernel

end SlsteamMoon.Sha256
