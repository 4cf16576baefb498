import SlsteamMoon.CheckedReads

/-! Little-endian numbers in a record, each at its offset and of its own number of bytes. -/
namespace SlsteamMoon.NumberFields
open CheckedReads (slice)

def number : List UInt8 → Nat
  | [] => 0
  | b :: rest => b.toNat + 256 * number rest

theorem number_lt (bytes : List UInt8) : number bytes < 256 ^ bytes.length := by
  induction bytes with
  | nil => exact Nat.one_pos
  | cons b rest ih =>
    have hb : b.toNat < 256 := b.toNat_lt
    calc number (b :: rest) < 256 * (number rest + 1) := by
          rw [number]
          omega
      _ ≤ 256 * 256 ^ rest.length := Nat.mul_le_mul_left 256 ih
      _ = 256 ^ (b :: rest).length := by rw [List.length_cons, Nat.pow_succ, Nat.mul_comm]

/-- The number of `n` bytes from the offset on. -/
def field (record : List UInt8) (off n : Nat) : Nat := number (slice record off n)

theorem field_lt (record : List UInt8) (off n : Nat) : field record off n < 256 ^ n := by
  have hlength : (slice record off n).length ≤ n := List.length_take_le n _
  exact Nat.lt_of_lt_of_le (number_lt _) (Nat.pow_le_pow_right (by decide) hlength)

end SlsteamMoon.NumberFields
