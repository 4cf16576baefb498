import Mathlib.Data.Nat.Bitwise
import SlsteamMoon.Stats.Correlation

/-! The two places that split a service frame into its protobuf header and body, in the
word arithmetic of the 32-bit client. -/
namespace SlsteamMoon.ManifestCode

open KeyValues AppInfo

/-- The bytes found at an address. They end inside the address space. -/
structure Buffer where
  data : UInt32
  bytes : Bytes
  fits : data.toNat + bytes.length < 0x100000000

namespace Buffer

def size (b : Buffer) : UInt32 := UInt32.ofNat b.bytes.length
/-- The two words of the `MsgHdr` at the front. -/
def eMsg (b : Buffer) : UInt32 := UInt32.ofNat (le32 b.bytes)
def headerLength (b : Buffer) : UInt32 := UInt32.ofNat (le32 (b.bytes.drop 4))

end Buffer

def sizeofMsgHdr : UInt32 := 8
def kMsgHdrProtoFlag : UInt32 := 0x80000000

/-- The two ranges a splitter hands on, each an address and a length. -/
structure Split where
  pHdr : UInt32
  cbHdr : UInt32
  pBody : UInt32
  cbBody : UInt32
  deriving DecidableEq, Repr

def decodeFrame (b : Buffer) : Option (UInt32 × Split) :=
  if b.data = 0 ∨ b.size < sizeofMsgHdr then none
  else if b.eMsg &&& kMsgHdrProtoFlag = 0 then none
  else
    let cbHdr := b.headerLength
    if b.size - sizeofMsgHdr < cbHdr then none
    else
      let off := sizeofMsgHdr + cbHdr
      if b.size < off then none
      else some (b.eMsg &&& ~~~kMsgHdrProtoFlag,
        { pHdr := b.data + sizeofMsgHdr, cbHdr, pBody := b.data + off, cbBody := b.size - off })

def isPlausible (p : UInt32) : Bool := 0x10000 ≤ p && p < 0xfffff000

/-- What `hkBRouteMsgToJob` asks of a buffer before it looks inside. -/
def routable (b : Buffer) : Bool :=
  isPlausible b.data && sizeofMsgHdr + 1 ≤ b.size && b.size ≤ 64 * 1024 * 1024

/-- The splitter written out in `hkBRouteMsgToJob`. -/
def hkBRouteMsgToJobSplit (b : Buffer) : Option Split :=
  if routable b = false then none
  else
    let cbProtoHdr := b.headerLength
    if cbProtoHdr = 0 ∨ b.size < sizeofMsgHdr + cbProtoHdr then none
    else
      let bodyOffset := sizeofMsgHdr + cbProtoHdr
      some { pHdr := b.data + sizeofMsgHdr, cbHdr := cbProtoHdr, pBody := b.data + bodyOffset,
             cbBody := b.size - bodyOffset }

/-- The header follows the `MsgHdr`, the body follows the header, and the buffer ends with the body. -/
structure Split.Inside (s : Split) (b : Buffer) : Prop where
  fits : sizeofMsgHdr.toNat + b.headerLength.toNat ≤ b.bytes.length
  cbHdr : s.cbHdr = b.headerLength
  pHdr : s.pHdr.toNat = b.data.toNat + sizeofMsgHdr.toNat
  adjacent : s.pHdr.toNat + s.cbHdr.toNat = s.pBody.toNat
  ends : s.pBody.toNat + s.cbBody.toNat = b.data.toNat + b.bytes.length

/-- Both splitters stay inside the buffer, and they accept the same non-empty headers. -/
def SplitAlike (b : Buffer) : Prop :=
  (∀ eMsg s, decodeFrame b = some (eMsg, s) → s.Inside b) ∧
  (∀ s, hkBRouteMsgToJobSplit b = some s → s.Inside b) ∧
  (b.headerLength ≠ 0 → ((decodeFrame b).isSome = true ↔ (hkBRouteMsgToJobSplit b).isSome = true))

/-- The header length does not wrap around when the `MsgHdr` is added. -/
def headerFits (b : Buffer) : Bool := b.headerLength < 0xfffffff8

@[simp] theorem sizeofMsgHdr_toNat : sizeofMsgHdr.toNat = 8 := rfl

@[simp] theorem Buffer.size_toNat (b : Buffer) : b.size.toNat = b.bytes.length :=
  UInt32.toNat_ofNat_of_lt' (Nat.lt_of_le_of_lt (Nat.le_add_left ..) b.fits)

private theorem headerFits_iff (b : Buffer) : headerFits b = true ↔ 8 + b.headerLength.toNat < 0x100000000 := by
  simp only [headerFits, decide_eq_true_eq, UInt32.lt_iff_toNat_lt]
  have : (0xfffffff8 : UInt32).toNat = 0x100000000 - 8 := rfl
  omega

/-- Where the sum of the two lengths stands in the address space. -/
theorem header_end_toNat (b : Buffer) :
    (sizeofMsgHdr + b.headerLength).toNat = (8 + b.headerLength.toNat) % 0x100000000 := by
  rw [UInt32.toNat_add, sizeofMsgHdr_toNat]

/-- A split at the header's end lies inside the buffer when the header does. -/
theorem split_inside {b : Buffer} (h : 8 + b.headerLength.toNat ≤ b.bytes.length) :
    ({ pHdr := b.data + sizeofMsgHdr, cbHdr := b.headerLength
       pBody := b.data + (sizeofMsgHdr + b.headerLength)
       cbBody := b.size - (sizeofMsgHdr + b.headerLength) } : Split).Inside b := by
  have hfits := b.fits
  have hend : (sizeofMsgHdr + b.headerLength).toNat = 8 + b.headerLength.toNat := by
    rw [header_end_toNat]
    apply Nat.mod_eq_of_lt
    omega
  have hpHdr : (b.data + sizeofMsgHdr).toNat = b.data.toNat + 8 := by
    rw [UInt32.toNat_add, sizeofMsgHdr_toNat]
    apply Nat.mod_eq_of_lt
    omega
  have hpBody : (b.data + (sizeofMsgHdr + b.headerLength)).toNat = b.data.toNat + (8 + b.headerLength.toNat) := by
    rw [UInt32.toNat_add, hend]
    apply Nat.mod_eq_of_lt
    omega
  have hcbBody : (b.size - (sizeofMsgHdr + b.headerLength)).toNat = b.bytes.length - (8 + b.headerLength.toNat) := by
    rw [UInt32.toNat_sub_of_le, hend, Buffer.size_toNat]
    rw [UInt32.le_iff_toNat_le, hend, Buffer.size_toNat]
    exact h
  exact {
    fits := h
    cbHdr := rfl
    pHdr := hpHdr
    adjacent := by rw [hpHdr, hpBody, Nat.add_assoc]
    ends := by rw [hpBody, hcbBody]; omega }

/-- `decodeFrame` subtracts before it adds, so that no length wraps around. -/
theorem decodeFrame_isSome_iff (b : Buffer) :
    (decodeFrame b).isSome = true ↔ b.data ≠ 0 ∧ b.eMsg &&& kMsgHdrProtoFlag ≠ 0 ∧
      8 + b.headerLength.toNat ≤ b.bytes.length := by
  have hfits := b.fits
  have hsize : b.size < sizeofMsgHdr ↔ b.bytes.length < 8 := by
    rw [UInt32.lt_iff_toNat_lt, Buffer.size_toNat, sizeofMsgHdr_toNat]
  rw [decodeFrame]
  split
  case isTrue h =>
    refine iff_of_false (by simp) ?_
    rintro ⟨hdata, -, hlen⟩
    rcases h with h | h
    · exact hdata h
    · rw [hsize] at h
      omega
  case isFalse h =>
    rw [not_or, hsize, Nat.not_lt] at h
    have hsub : (b.size - sizeofMsgHdr).toNat = b.bytes.length - 8 := by
      rw [UInt32.toNat_sub_of_le, Buffer.size_toNat, sizeofMsgHdr_toNat]
      rw [UInt32.le_iff_toNat_le, Buffer.size_toNat]
      exact h.2
    have hlong : b.size - sizeofMsgHdr < b.headerLength ↔ b.bytes.length < 8 + b.headerLength.toNat := by
      rw [UInt32.lt_iff_toNat_lt, hsub]
      omega
    split
    case isTrue hflag => simp [hflag]
    case isFalse hflag =>
      dsimp only
      split
      case isTrue hcb =>
        rw [hlong] at hcb
        refine iff_of_false (by simp) ?_
        rintro ⟨-, -, hlen⟩
        omega
      case isFalse hcb =>
        rw [hlong, Nat.not_lt] at hcb
        have hoff : ¬b.size < sizeofMsgHdr + b.headerLength := by
          rw [UInt32.lt_iff_toNat_lt, header_end_toNat, Buffer.size_toNat, Nat.mod_eq_of_lt (by omega)]
          omega
        rw [if_neg hoff]
        exact iff_of_true rfl ⟨h.1, hflag, hcb⟩

private theorem decodeFrame_inside {b : Buffer} {eMsg : UInt32} {s : Split} (h : decodeFrame b = some (eMsg, s)) :
    s.Inside b := by
  have hlen := ((decodeFrame_isSome_iff b).mp (by rw [h]; rfl)).2.2
  simp only [decodeFrame, Option.ite_none_left_eq_some, Option.some.injEq, Prod.mk.injEq] at h
  obtain ⟨-, -, -, -, -, rfl⟩ := h
  exact split_inside hlen

/-- The masked and the unmasked half of the first word. -/
theorem eMsg_flag (b : Buffer) : b.eMsg &&& kMsgHdrProtoFlag = 0 ↔ (le32 b.bytes).testBit 31 = false := by
  have hword : b.eMsg.toNat = le32 b.bytes := UInt32.toNat_ofNat_of_lt' (AppInfo.le32_lt b.bytes)
  rw [← UInt32.toNat_inj, UInt32.toNat_and, hword, show kMsgHdrProtoFlag.toNat = 2 ^ 31 from rfl, Nat.and_two_pow]
  cases (le32 b.bytes).testBit 31 <;> simp

private theorem eMsg_unflagged (b : Buffer) : (b.eMsg &&& ~~~kMsgHdrProtoFlag).toNat = le32 b.bytes % 0x80000000 := by
  have hword : b.eMsg.toNat = le32 b.bytes := UInt32.toNat_ofNat_of_lt' (AppInfo.le32_lt b.bytes)
  rw [UInt32.toNat_and, hword, show (~~~kMsgHdrProtoFlag).toNat = 2 ^ 31 - 1 from rfl, Nat.and_two_pow_sub_one_eq_mod]

/-- The frame that the stats hooks read is the one these ranges hold. -/
theorem stats_decodeFrame (b : Buffer) (hdata : b.data ≠ 0) :
    Stats.decodeFrame b.bytes = (decodeFrame b).map fun (eMsg, s) =>
      { eMsg := eMsg.toNat, hdr := (b.bytes.drop 8).take s.cbHdr.toNat, body := b.bytes.drop (8 + s.cbHdr.toNat) } := by
  have hlen : b.headerLength.toNat = le32 (b.bytes.drop 4) := UInt32.toNat_ofNat_of_lt' (AppInfo.le32_lt _)
  have hsome := decodeFrame_isSome_iff b
  rw [hlen, Ne, Ne, eMsg_flag, Bool.not_eq_false] at hsome
  cases hd : decodeFrame b with
  | none =>
    rw [hd] at hsome
    simp only [Option.isSome_none, Bool.false_eq_true, false_iff, not_and] at hsome
    have hnone := hsome hdata
    rw [Stats.decodeFrame, Option.map_none, Stats.msgHdrSize]
    dsimp only
    split_ifs with hshort hflag hcb
    · rfl
    · rfl
    · rfl
    · have := hnone (by simpa using hflag)
      omega
  | some r =>
    rw [hd] at hsome
    obtain ⟨-, hflag, hroom⟩ := hsome.mp rfl
    simp only [decodeFrame, Option.ite_none_left_eq_some, Option.some.injEq] at hd
    obtain ⟨-, -, -, -, rfl⟩ := hd
    rw [Stats.decodeFrame, Stats.msgHdrSize, if_neg (by omega)]
    dsimp only
    rw [if_neg (by simp [hflag]), if_neg (by omega), Option.map_some, hlen, eMsg_unflagged, Stats.kMsgHdrProtoFlag]

/-- The other splitter compares the sum, which is small again from 2^32 - 8 on. -/
theorem hkBRouteMsgToJobSplit_isSome_iff (b : Buffer) :
    (hkBRouteMsgToJobSplit b).isSome = true ↔ routable b = true ∧ b.headerLength ≠ 0 ∧
      (headerFits b = true → 8 + b.headerLength.toNat ≤ b.bytes.length) := by
  have hfits := b.fits
  have hend := header_end_toNat b
  have hbound := b.headerLength.toNat_lt
  rw [hkBRouteMsgToJobSplit]
  cases hr : routable b with
  | false => simp
  | true =>
    have hsum : b.size < sizeofMsgHdr + b.headerLength ↔
        ¬(headerFits b = true → 8 + b.headerLength.toNat ≤ b.bytes.length) := by
      have hroom : 8 ≤ b.bytes.length := by
        simp only [routable, Bool.and_eq_true, decide_eq_true_eq, UInt32.le_iff_toNat_le, Buffer.size_toNat] at hr
        have : (sizeofMsgHdr + 1).toNat = 9 := rfl
        omega
      rw [UInt32.lt_iff_toNat_lt, hend, Buffer.size_toNat, headerFits_iff]
      omega
    rw [if_neg (by decide)]
    dsimp only
    split
    case isTrue h =>
      rw [hsum] at h
      refine iff_of_false (by simp) ?_
      rintro ⟨-, hne, hlen⟩
      exact h.elim hne fun h => h hlen
    case isFalse h =>
      rw [not_or, hsum, not_not] at h
      exact iff_of_true rfl ⟨rfl, h⟩

private theorem hkBRouteMsgToJobSplit_inside {b : Buffer} {s : Split} (hfit : headerFits b = true)
    (h : hkBRouteMsgToJobSplit b = some s) : s.Inside b := by
  have hlen := ((hkBRouteMsgToJobSplit_isSome_iff b).mp (by rw [h]; rfl)).2.2 hfit
  simp only [hkBRouteMsgToJobSplit, Option.ite_none_left_eq_some, Option.some.injEq] at h
  obtain ⟨-, -, rfl⟩ := h
  exact split_inside hlen

/-- No header that wraps around fits its buffer. -/
theorem header_outside {b : Buffer} (h : headerFits b = false) : b.bytes.length < 8 + b.headerLength.toNat := by
  have hfits := b.fits
  have := mt (headerFits_iff b).mpr (by simp [h])
  omega

/-- The splitters do the same for the same buffers just when no accepted buffer has a header length
from 2^32 - 8 on, and the gate of the one and the flag of the other say the same of a header that fits. -/
theorem splitAlike_iff (b : Buffer) :
    SplitAlike b ↔ (routable b = true → headerFits b = true) ∧
      (b.headerLength ≠ 0 → 8 + b.headerLength.toNat ≤ b.bytes.length →
        (routable b = true ↔ b.data ≠ 0 ∧ b.eMsg &&& kMsgHdrProtoFlag ≠ 0)) := by
  constructor
  · rintro ⟨-, hinside, hagree⟩
    constructor
    · intro hr
      by_contra hfit
      rw [Bool.not_eq_true] at hfit
      have hout := header_outside hfit
      have hne : b.headerLength ≠ 0 := by
        intro h
        rw [headerFits, h] at hfit
        exact absurd hfit (by decide)
      obtain ⟨s, hs⟩ := Option.isSome_iff_exists.mp ((hkBRouteMsgToJobSplit_isSome_iff b).mpr
        ⟨hr, hne, fun h => absurd h (by simp [hfit])⟩)
      have := (hinside s hs).fits
      rw [sizeofMsgHdr_toNat] at this
      omega
    · intro hne hlen
      have := hagree hne
      rw [decodeFrame_isSome_iff, hkBRouteMsgToJobSplit_isSome_iff] at this
      tauto
  · rintro ⟨hfit, hgate⟩
    refine ⟨fun eMsg s => decodeFrame_inside, ?_, ?_⟩
    · intro s hs
      have hr := ((hkBRouteMsgToJobSplit_isSome_iff b).mp (by rw [hs]; rfl)).1
      exact hkBRouteMsgToJobSplit_inside (hfit hr) hs
    · intro hne
      rw [decodeFrame_isSome_iff, hkBRouteMsgToJobSplit_isSome_iff]
      constructor
      · rintro ⟨hdata, hflag, hlen⟩
        exact ⟨(hgate hne hlen).mpr ⟨hdata, hflag⟩, hne, fun _ => hlen⟩
      · rintro ⟨hr, -, hlen⟩
        have hlen := hlen (hfit hr)
        have := (hgate hne hlen).mp hr
        exact ⟨this.1, this.2, hlen⟩

/-- A service response whose header length is 2^32 - 4. -/
def wrappedHeader : Buffer where
  data := 0x20000
  bytes := [0x93, 0, 0, 0x80, 0xfc, 0xff, 0xff, 0xff, 0, 0, 0, 0]
  fits := by decide

/-- The header is said to be 2^32 - 4 bytes long and the body to start before it. -/
theorem wrappedHeader_split :
    decodeFrame wrappedHeader = none ∧
    hkBRouteMsgToJobSplit wrappedHeader =
      some { pHdr := 0x20008, cbHdr := 0xfffffffc, pBody := 0x20004, cbBody := 8 } ∧
    ¬SplitAlike wrappedHeader := by
  refine ⟨by decide +kernel, by decide +kernel, ?_⟩
  rintro ⟨-, -, hagree⟩
  exact absurd hagree (by decide +kernel)

end SlsteamMoon.ManifestCode
