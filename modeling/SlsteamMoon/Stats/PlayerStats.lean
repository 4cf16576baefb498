import SlsteamMoon.KeyValues.Text
import Mathlib.Data.List.Basic

/-! Raw wire editing of the unified stats method: the varint reader, the walk
over the top-level fields and the request sent under another steam id. -/
namespace SlsteamMoon.Stats

open KeyValues

/-- `readVarint` from the position after some bytes of it: ten bytes at most,
the tenth at most 1. -/
def readVarintFrom : Nat → Nat → Bytes → Option (Nat × Bytes)
  | _, _, [] => none
  | shift, result, b :: rest =>
    if 63 < shift ∨ shift = 63 ∧ 1 < b.toNat then none
    else if b.toNat < 0x80 then some (result + (b.toNat % 0x80) <<< shift, rest)
    else readVarintFrom (shift + 7) (result + (b.toNat % 0x80) <<< shift) rest

def readVarint : Bytes → Option (Nat × Bytes) := readVarintFrom 0 0

private theorem readVarintFrom_length {shift result : Nat} {d : Bytes} {out : Nat × Bytes}
    (h : readVarintFrom shift result d = some out) : out.2.length < d.length := by
  induction d generalizing shift result with
  | nil => cases h
  | cons b rest ih =>
    rw [readVarintFrom] at h
    split_ifs at h
    · obtain rfl := Option.some.inj h
      exact Nat.lt_succ_self _
    · exact (ih h).trans (Nat.lt_succ_self _)

private theorem readVarint_length {d : Bytes} {out : Nat × Bytes} (h : readVarint d = some out) :
    out.2.length < d.length :=
  readVarintFrom_length h

/-- A top-level field, with its bytes on the wire in place of their offsets. -/
structure Field where
  number : Nat
  wireType : Nat
  raw : Bytes
  value : Bytes
deriving DecidableEq, Repr

/-- The value after the tag; groups and unknown wire types are refused. -/
def readValue : Nat → Bytes → Option (Bytes × Bytes)
  | 0, d => (readVarint d).map fun (_, after) => (d.take (d.length - after.length), after)
  | 1, d => if d.length < 8 then none else some (d.take 8, d.drop 8)
  | 5, d => if d.length < 4 then none else some (d.take 4, d.drop 4)
  | 2, d => (readVarint d).bind fun (l, after) =>
      if after.length < l then none else some (after.take l, after.drop l)
  | _, _ => none

def readField (d : Bytes) : Option (Field × Bytes) :=
  (readVarint d).bind fun (tag, rest) =>
    let number := (tag >>> 3) % 0x100000000
    if number = 0 then none
    else (readValue (tag % 8) rest).map fun (value, after) =>
      ({ number, wireType := tag % 8, raw := d.take (d.length - after.length), value }, after)

private theorem readValue_length {wireType : Nat} {d : Bytes} {out : Bytes × Bytes}
    (h : readValue wireType d = some out) : out.2.length ≤ d.length := by
  match wireType with
  | 0 =>
    obtain ⟨v, hv, rfl⟩ := Option.map_eq_some_iff.mp h
    exact (readVarint_length hv).le
  | 1 | 5 =>
    simp only [readValue] at h
    split_ifs at h
    obtain rfl := Option.some.inj h
    simp
  | 2 =>
    obtain ⟨⟨l, after⟩, hv, hout⟩ := Option.bind_eq_some_iff.mp h
    simp only [Option.ite_none_left_eq_some, Option.some.injEq] at hout
    obtain ⟨-, rfl⟩ := hout
    have hlt : after.length < d.length := readVarint_length hv
    simp only [List.length_drop]
    omega
  | 3 | 4 | _ + 6 => cases h

theorem readField_length {d : Bytes} {out : Field × Bytes} (h : readField d = some out) :
    out.2.length < d.length ∧ out.1.raw.length + out.2.length = d.length := by
  obtain ⟨⟨tag, rest⟩, hv, hrest⟩ := Option.bind_eq_some_iff.mp h
  simp only [Option.ite_none_left_eq_some, Option.map_eq_some_iff] at hrest
  obtain ⟨-, value, hvalue, rfl⟩ := hrest
  have hlt : rest.length < d.length := readVarint_length hv
  have hle := readValue_length hvalue
  simp only [List.length_take]
  omega

/-- What `walk` has shown its callback, and its answer. -/
structure Walk where
  fields : List Field
  complete : Bool
deriving DecidableEq, Repr

/-- The walk, with a bound on the number of fields. -/
def walkFuel : Nat → Bytes → Walk
  | _, [] => ⟨[], true⟩
  | 0, _ :: _ => ⟨[], false⟩
  | fuel + 1, b :: d =>
    match readField (b :: d) with
    | none => ⟨[], false⟩
    | some (field, after) => ⟨field :: (walkFuel fuel after).fields, (walkFuel fuel after).complete⟩

/-- A field takes a byte, so the length bounds their number. -/
def walk (d : Bytes) : Walk := walkFuel d.length d

private theorem walkFuel_eq_walk {fuel : Nat} {d : Bytes} (h : d.length ≤ fuel) : walkFuel fuel d = walk d := by
  suffices hfuels : ∀ n m (d : Bytes), d.length ≤ n → d.length ≤ m → walkFuel n d = walkFuel m d from
    hfuels fuel d.length d h le_rfl
  intro n
  induction n with
  | zero =>
    intro m d hn _
    obtain rfl := List.eq_nil_of_length_eq_zero (Nat.le_zero.mp hn)
    cases m <;> rfl
  | succ n ih =>
    intro m d hn hm
    cases d with
    | nil => cases m <;> rfl
    | cons b d =>
      obtain ⟨m, rfl⟩ : ∃ k, m = k + 1 := ⟨m - 1, by simp at hm; omega⟩
      cases hf : readField (b :: d) with
      | none => simp only [walkFuel, hf]
      | some out =>
        have hlt := (readField_length hf).1
        have hafter : walkFuel n out.2 = walkFuel m out.2 := by
          apply ih
          · omega
          · omega
        simp only [walkFuel, hf, hafter]

/-- The walk without its bound. -/
theorem walk_cons (b : UInt8) (d : Bytes) :
    walk (b :: d) = match readField (b :: d) with
      | none => ⟨[], false⟩
      | some (field, after) => ⟨field :: (walk after).fields, (walk after).complete⟩ := by
  cases hf : readField (b :: d) with
  | none => simp only [walk, List.length_cons, walkFuel, hf]
  | some out =>
    have hlt := (readField_length hf).1
    have hafter : walkFuel d.length out.2 = walk out.2 := walkFuel_eq_walk (Nat.lt_succ_iff.mp hlt)
    simp only [walk, List.length_cons, walkFuel, hf]
    rw [hafter, walk]

/-- The fields of a walk lie side by side in the message. -/
theorem walk_raw_length (d : Bytes) : ((walk d).fields.flatMap Field.raw).length ≤ d.length := by
  induction hn : d.length using Nat.strong_induction_on generalizing d with
  | _ n ih =>
    cases d with
    | nil => simp [walk, walkFuel]
    | cons b d =>
      rw [walk_cons]
      cases hf : readField (b :: d) with
      | none => simp
      | some out =>
        obtain ⟨hlt, hraw⟩ := readField_length hf
        have hrest := ih out.2.length (by omega) out.2 rfl
        simp only [List.flatMap_cons, List.length_append]
        omega

/-- The fields of a number, as the request parsers read them: the last varint
wins. -/
def lastVarint (d : Bytes) (number : Nat) : Option Nat :=
  (walk d).fields.foldl
    (fun found f =>
      if f.number = number ∧ f.wireType = 0 then ((readVarint f.value).map Prod.fst).or found else found)
    none

def parseRequestAppId (d : Bytes) : Option UInt32 := (lastVarint d 2).map UInt32.ofNat

def parseRequestSteamId (d : Bytes) : Option UInt64 := (lastVarint d 1).map UInt64.ofNat

/-- The first length-delimited field of a number. -/
def fieldBytes (d : Bytes) (number : Nat) : Bytes :=
  (((walk d).fields.find? fun f => f.number = number ∧ f.wireType = 2).map Field.value).getD []

/-- The fields but the progress, as they stand in the message. -/
def stripResponseStats (d : Bytes) : Bytes := ((walk d).fields.filter fun f => f.number ≠ 4).flatMap Field.raw

/-- A 64-bit value takes at most ten bytes. -/
def putVarintFrom : Nat → Nat → Bytes
  | 0, _ => []
  | fuel + 1, v =>
    if v < 0x80 then [UInt8.ofNat v] else UInt8.ofNat (v % 0x80 + 0x80) :: putVarintFrom fuel (v / 0x80)

def putVarint (v : UInt64) : Bytes := putVarintFrom 10 v.toNat

theorem putVarint_length (v : UInt64) : (putVarint v).length ≤ 10 := by
  have hfuel : ∀ fuel n, (putVarintFrom fuel n).length ≤ fuel := by
    intro fuel
    induction fuel with
    | zero => intro n; exact le_rfl
    | succ fuel ih =>
      intro n
      rw [putVarintFrom]
      split_ifs
      · simp
      · exact Nat.succ_le_succ (ih _)
  exact hfuel 10 v.toNat

/-- The steam id and the app id, and neither the schema digest nor the CRC, so
that the server sends the whole schema. -/
def buildSpoofedRequest (steamid : UInt64) (appid : UInt32) : Bytes :=
  0x08 :: putVarint steamid ++ 0x10 :: putVarint appid.toUInt64

end SlsteamMoon.Stats
