import SlsteamMoon.AppInfo.Splice
import SlsteamMoon.CursorLoop

/-! What `parseManifestSizes` and `extractManifestFilenames` read out of a depot manifest: sections
of a magic, a length and a payload, and in a payload protobuf fields. Cursors are `size_t` words of
the 32-bit build, declared lengths are 64-bit words. -/
namespace SlsteamMoon.ManifestSynth

open KeyValues AppInfo CursorLoop

/-- A `std::string` of the 32-bit build. -/
structure Manifest where
  bytes : Bytes
  fits : bytes.length < 0x80000000

namespace Manifest

def size (m : Manifest) : UInt32 := UInt32.ofNat m.bytes.length
def byte (m : Manifest) (p : UInt32) : UInt8 := (m.bytes[p.toNat]?).getD 0

@[simp] theorem size_toNat (m : Manifest) : m.size.toNat = m.bytes.length :=
  UInt32.toNat_ofNat_of_lt' (Nat.lt_trans m.fits (by decide))

end Manifest

def kMetadataMagic : UInt32 := 0x1f4812be
def kPayloadMagic : UInt32 := 0x71f617d0

def readU32le (m : Manifest) (off : UInt32) : Option UInt32 :=
  if m.size < off + 4 then none else some (UInt32.ofNat (le32 (m.bytes.drop off.toNat)))

/-- One turn of the walk over the section framing: where the wanted payload begins and its length. -/
def sectionTurn (m : Manifest) (wanted : UInt32) (i : UInt32) : Turn UInt32 (Option (UInt32 × UInt32)) :=
  if m.size < i + 8 then .leave none
  else match readU32le m i, readU32le m (i + 4) with
    | some magic, some len =>
      if m.size.toUInt64 < i.toUInt64 + 8 + len.toUInt64 then .leave none
      else if magic = wanted then .leave (some (i + 8, len))
      else .again (i + (8 + len))
    | _, _ => .leave none

/-- The bytes of a varint from `p` on, `left` of them before the end. The eleventh must be the last. -/
def readVarintFrom (m : Manifest) : Nat → UInt32 → Nat → UInt64 → Option (UInt64 × UInt32)
  | 0, _, _, _ => none
  | left + 1, p, shift, r =>
    let b := m.byte p
    let r := if shift ≤ 63 then r ||| ((b &&& 0x7f).toUInt64 <<< UInt64.ofNat shift) else r
    let shift := shift + 7
    if b &&& 0x80 = 0 then some (r, p + 1)
    else if 70 < shift then none
    else readVarintFrom m left (p + 1) shift r

/-- The value and the cursor behind it. -/
def readVarint (m : Manifest) (p stop : UInt32) : Option (UInt64 × UInt32) :=
  readVarintFrom m (stop.toNat - p.toNat) p 0 0

/-- `p + len`, added in 64 bits. -/
def fieldEnd (p : UInt32) (len : UInt64) : UInt64 := p.toUInt64 + len

/-- The outputs and the cursor of `parseManifestSizes`. -/
structure Sizes where
  p : UInt32
  sizeOut : UInt64
  downloadOut : UInt64
  gotSize : Bool := false
  gotDownload : Bool := false
  deriving DecidableEq

def Sizes.store (s : Sizes) (field : UInt32) (v : UInt64) : Sizes :=
  if field = 5 then { s with sizeOut := v, gotSize := true }
  else if field = 6 then { s with downloadOut := v, gotDownload := true }
  else s

def sizesTurn (m : Manifest) (stop : UInt32) (s : Sizes) : Turn Sizes Sizes :=
  if ¬s.p < stop then .leave s
  else match readVarint m s.p stop with
    | none => .leave s
    | some (tag, p) =>
      let field := (tag >>> 3).toUInt32
      let wire := (tag &&& 7).toUInt32
      if wire = 0 then
        match readVarint m p stop with
        | none => .leave s
        | some (v, p) => .again ({ s with p }.store field v)
      else if wire = 2 then
        match readVarint m p stop with
        | none => .leave s
        | some (len, p) =>
          if stop.toUInt64 < fieldEnd p len then .leave s else .again { s with p := (fieldEnd p len).toUInt32 }
      else if wire = 5 then .again { s with p := p + 4 }
      else if wire = 1 then .again { s with p := p + 8 }
      else .leave s

/-- None when the fuel runs out, else the answer and the two outputs. -/
def parseManifestSizes (fuel : Nat) (m : Manifest) (sizeOut downloadOut : UInt64) :
    Option (Bool × UInt64 × UInt64) :=
  match run (sectionTurn m kMetadataMagic) fuel 0 with
  | none => none
  | some none => some (false, sizeOut, downloadOut)
  | some (some (start, len)) =>
    (run (sizesTurn m (start + len)) fuel { p := start, sizeOut, downloadOut }).map fun s =>
      (s.gotSize || s.gotDownload, s.sizeOut, s.downloadOut)

/-- The cursor of `extractManifestFilenames` and the names so far. -/
structure Names where
  p : UInt32
  out : List Bytes := []
  deriving DecidableEq

def substr (m : Manifest) (q : UInt32) (n : UInt64) : Bytes := (m.bytes.drop q.toNat).take n.toUInt32.toNat

/-- The name in a FileMapping that lies between `p` and `p + len`. -/
def fileName (m : Manifest) (p : UInt32) (len : UInt64) : List Bytes :=
  let qEnd := (fieldEnd p len).toUInt32
  match readVarint m p qEnd with
  | none => []
  | some (ftag, q) =>
    if ftag >>> 3 = 1 ∧ ftag &&& 7 = 2 then
      match readVarint m q qEnd with
      | none => []
      | some (flen, q) => if fieldEnd q flen ≤ qEnd.toUInt64 then [substr m q flen] else []
    else []

def namesTurn (m : Manifest) (plEnd : UInt32) (s : Names) : Turn Names Names :=
  if ¬s.p < plEnd then .leave s
  else match readVarint m s.p plEnd with
    | none => .leave s
    | some (tag, p) =>
      let field := (tag >>> 3).toUInt32
      let wire := (tag &&& 7).toUInt32
      if wire = 2 then
        match readVarint m p plEnd with
        | none => .leave s
        | some (len, p) =>
          if plEnd.toUInt64 < fieldEnd p len then .leave s
          else .again {
            p := (fieldEnd p len).toUInt32
            out := s.out ++ if field = 1 then fileName m p len else [] }
      else if wire = 0 then
        match readVarint m p plEnd with
        | none => .leave s
        | some (_, p) => .again { s with p }
      else if wire = 5 then .again { s with p := p + 4 }
      else if wire = 1 then .again { s with p := p + 8 }
      else .leave s

def extractManifestFilenames (fuel : Nat) (m : Manifest) : Option (List Bytes) :=
  match run (sectionTurn m kPayloadMagic) fuel 0 with
  | none => none
  | some none => some []
  | some (some (start, len)) => (run (namesTurn m (start + len)) fuel { p := start }).map Names.out

end SlsteamMoon.ManifestSynth
