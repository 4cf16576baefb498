import SlsteamMoon.IteratedHash
import Mathlib.Data.Nat.NthRoot.Defs
import Mathlib.Data.Nat.Prime.Nth

/-! SHA-256 as FIPS 180-4 defines it: the constants from the roots of the first primes, the padding, the schedule by its
recurrence and the blocks one after the other. -/
namespace SlsteamMoon.Sha256.Standard
open IteratedHash

abbrev Word := UInt32

def ROTR (n : Nat) (x : Word) : Word := ⟨x.toBitVec.rotateRight n⟩

def Ch (x y z : Word) : Word := (x &&& y) ^^^ (~~~x &&& z)
def Maj (x y z : Word) : Word := (x &&& y) ^^^ (x &&& z) ^^^ (y &&& z)

/-- The capital sigmas. -/
def Sum0 (x : Word) : Word := ROTR 2 x ^^^ ROTR 13 x ^^^ ROTR 22 x
def Sum1 (x : Word) : Word := ROTR 6 x ^^^ ROTR 11 x ^^^ ROTR 25 x

def sigma0 (x : Word) : Word := ROTR 7 x ^^^ ROTR 18 x ^^^ (x >>> 3)
def sigma1 (x : Word) : Word := ROTR 17 x ^^^ ROTR 19 x ^^^ (x >>> 10)

/-- The first 32 bits of the fractional part of the cube root of the prime of this index. -/
noncomputable def K (t : Nat) : Word := UInt32.ofNat (Nat.nthRoot 3 (Nat.nth Nat.Prime t * 2 ^ 96))

/-- And those of its square root, which a message starts from. -/
noncomputable def H0 : Vector Word 8 := .ofFn fun j => UInt32.ofNat (Nat.nthRoot 2 (Nat.nth Nat.Prime j * 2 ^ 64))

/-- A number from its bytes, the most significant first. -/
def ofBytes (bytes : List UInt8) : Nat := bytes.foldl (fun value b => 256 * value + b.toNat) 0

/-- Its bytes, as many as asked for. -/
def toBytes (count n : Nat) : List UInt8 := (List.range count).map fun i => UInt8.ofNat (n / 256 ^ (count - 1 - i))

/-- The word of this index in a block. -/
def M (block : List UInt8) (t : Nat) : Word := UInt32.ofNat (ofBytes ((block.drop (4 * t)).take 4))

/-- The message schedule. -/
def W (block : List UInt8) (t : Nat) : Word :=
  if t < 16 then M block t
  else sigma1 (W block (t - 2)) + W block (t - 7) + sigma0 (W block (t - 15)) + W block (t - 16)
termination_by t

/-- The working variables. -/
structure Working where
  a : Word
  b : Word
  c : Word
  d : Word
  e : Word
  f : Word
  g : Word
  h : Word
  deriving DecidableEq, Repr

def ofState (s : Vector Word 8) : Working := ⟨s[0], s[1], s[2], s[3], s[4], s[5], s[6], s[7]⟩

/-- The eight additions behind the rounds. -/
def addTo (s : Vector Word 8) (v : Working) : Vector Word 8 :=
  #v[s[0] + v.a, s[1] + v.b, s[2] + v.c, s[3] + v.d, s[4] + v.e, s[5] + v.f, s[6] + v.g, s[7] + v.h]

noncomputable def round (block : List UInt8) (v : Working) (t : Nat) : Working :=
  let T1 := v.h + Sum1 v.e + Ch v.e v.f v.g + K t + W block t
  let T2 := Sum0 v.a + Maj v.a v.b v.c
  ⟨T1 + T2, v.a, v.b, v.c, v.d + T1, v.e, v.f, v.g⟩

/-- One block into the hash value. -/
noncomputable def compress (H : Vector Word 8) (block : List UInt8) : Vector Word 8 :=
  addTo H ((List.range 64).foldl (round block) (ofState H))

/-- A one bit, the least number of zero bits up to 448 of the last 512, and the length in bits. -/
def padding (length : Nat) : List UInt8 :=
  0x80 :: List.replicate ((119 - length % 64) % 64) 0 ++ toBytes 8 (8 * length)

/-- The digest of a message. -/
noncomputable def sha256 (message : List UInt8) : List UInt8 :=
  let H := (blocks 64 (message ++ padding message.length)).foldl compress H0
  H.toList.flatMap fun word => toBytes 4 word.toNat

theorem length_toBytes (count n : Nat) : (toBytes count n).length = count := by
  rw [toBytes, List.length_map, List.length_range]

theorem toBytes_succ (count n : Nat) : toBytes (count + 1) n = UInt8.ofNat (n / 256 ^ count) :: toBytes count n := by
  rw [toBytes, List.range_succ_eq_map, List.map_cons, List.map_map]
  congr 1
  refine List.map_congr_left fun i _ => ?_
  have hplace : count + 1 - 1 - (i + 1) = count - 1 - i := by omega
  rw [Function.comp_apply, Nat.succ_eq_add_one, hplace]

/-- The padding completes the last block. -/
theorem length_padded (message : List UInt8) : (message ++ padding message.length).length % 64 = 0 := by
  simp only [padding, List.length_append, List.length_cons, List.length_replicate, length_toBytes]
  omega

/-- With as few zeros as that takes. -/
theorem padding_least {length zeros : Nat} (h : (length + 1 + zeros) % 64 = 56) : (119 - length % 64) % 64 ≤ zeros := by
  omega

/-- The first 64 primes. -/
def primes : List Nat :=
  [2, 3, 5, 7, 11, 13, 17, 19, 23, 29, 31, 37, 41, 43, 47, 53, 59, 61, 67, 71, 73, 79, 83, 89, 97, 101, 103, 107, 109, 113, 127,
    131, 137, 139, 149, 151, 157, 163, 167, 173, 179, 181, 191, 193, 197, 199, 211, 223, 227, 229, 233, 239, 241, 251, 257, 263,
    269, 271, 277, 281, 283, 293, 307, 311]

private theorem count_primes : ∀ t < 64, Nat.Prime (primes.getD t 0) ∧ Nat.count Nat.Prime (primes.getD t 0) = t := by
  decide +kernel

theorem nth_prime {t : Nat} (ht : t < 64) : Nat.nth Nat.Prime t = primes.getD t 0 := by
  obtain ⟨hprime, hcount⟩ := count_primes t ht
  conv_lhs => rw [← hcount]
  exact Nat.nth_count hprime

end SlsteamMoon.Sha256.Standard
