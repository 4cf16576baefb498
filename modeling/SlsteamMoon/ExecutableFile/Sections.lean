import SlsteamMoon.NumberFields
import SlsteamMoon.KeyValues.Decode

/-! The sections of an executable, as its headers of either class tell them, where a `size_t` and a `long` have
32 bits. A file is its bytes. -/
namespace SlsteamMoon.ExecutableFile
open CheckedReads Check NumberFields
open KeyValues (readCString)

inductive ElfClass where
  | elf32
  | elf64
  deriving DecidableEq

/-- The bytes of an address or an offset. -/
def ElfClass.word : ElfClass → Nat
  | elf32 => 4
  | elf64 => 8

/-- The size of `Elf32_Shdr` or of `Elf64_Shdr`. -/
def ElfClass.shdrSize : ElfClass → Nat
  | elf32 => 40
  | elf64 => 64

/-- What the parsers use of `Elf32_Ehdr` or of `Elf64_Ehdr`. -/
structure Ehdr (c : ElfClass) where
  e_shoff : BitVec (8 * c.word)
  e_shentsize : UInt16
  e_shnum : UInt16
  e_shstrndx : UInt16

/-- The header at the beginning of a file. -/
def ehdrOf (c : ElfClass) (file : List UInt8) : Ehdr c where
  e_shoff := BitVec.ofNat _ (field file (24 + 2 * c.word) c.word)
  e_shentsize := UInt16.ofNat (field file (34 + 3 * c.word) 2)
  e_shnum := UInt16.ofNat (field file (36 + 3 * c.word) 2)
  e_shstrndx := UInt16.ofNat (field file (38 + 3 * c.word) 2)

/-- What they use of a section header, the words of the smaller class widened. -/
structure Shdr where
  sh_name : UInt32
  sh_addr : UInt64
  sh_offset : UInt64
  sh_size : UInt64
  deriving DecidableEq

structure SectionHdr where
  name : List UInt8
  rva : UInt64
  offset : UInt64
  size : UInt64
  deriving DecidableEq

/-- What ends a parser or a reader before its end: a logged failure with the arguments of its text, or the
exception of a vector that would grow past its largest size. -/
inductive Failure where
  | logFailure (format : String) (names : List (List UInt8)) (numbers : List Nat)
  | length_error
  deriving DecidableEq

def failed (format : String) : Failure := .logFailure format [] []

def sizeBits : Nat := 0x100000000

def maxSize : Nat := 0x7fffffff

/-- The largest position that a `long` can name. -/
def maxPosition : Nat := 0x7fffffff

/-- A position is converted to `long`, and a negative one is refused. -/
def fseek (diagnostic : Failure) (offset : Nat) : Check Failure Nat := do
  refuseIf diagnostic (return maxPosition < offset % sizeBits)
  return offset % sizeBits

/-- A size is converted to `size_t`. -/
def resize (size : Nat) : Check Failure Nat := do
  refuseIf .length_error (return maxSize < size % sizeBits)
  return size % sizeBits

/-- The bytes from the position on, all of them or a failure. -/
def fread (diagnostic : Failure) (file : List UInt8) (position size : Nat) : Check Failure (List UInt8) := do
  refuseIf diagnostic (return file.length < position + size)
  return slice file position size

/-- The range does not lie in the file, in the order of the source's comparisons. -/
def outOfBounds (file : List UInt8) (offset size : Nat) : Bool :=
  file.length < offset || file.length - offset < size

/-- The section header at a place of the table. -/
def shdrAt (c : ElfClass) (table : List UInt8) (place : Nat) : Shdr where
  sh_name := UInt32.ofNat (field table place 4)
  sh_addr := UInt64.ofNat (field table (place + 8 + c.word) c.word)
  sh_offset := UInt64.ofNat (field table (place + 8 + 2 * c.word) c.word)
  sh_size := UInt64.ofNat (field table (place + 8 + 3 * c.word) c.word)

/-- The vector that the bytes of the table are read into. -/
def shdrsOf (c : ElfClass) (count : Nat) (table : List UInt8) : List Shdr :=
  (List.range count).map fun i => shdrAt c table (i * c.shdrSize)

def readShdrs (c : ElfClass) (file : List UInt8) (hdr : Ehdr c) : Check Failure (List Shdr) := do
  refuseIf (failed "hdr.e_shentsize < sizeof(Elf_Shdr)!\n") (return c.shdrSize < hdr.e_shentsize.toNat)
  refuseIf (failed "ELF has no usable section header string table\n")
    (return hdr.e_shnum = 0 || hdr.e_shnum ≤ hdr.e_shstrndx)
  let shTableBytes := hdr.e_shnum.toNat * c.shdrSize
  refuseIf (failed "ELF section header table out of bounds\n")
    (return file.length = 0 || outOfBounds file hdr.e_shoff.toNat shTableBytes)
  let position ← fseek (failed "Failed to seek to section headers\n") hdr.e_shoff.toNat
  let table ← fread (failed "Failed to read section headers\n") file position shTableBytes
  return shdrsOf c hdr.e_shnum.toNat table

def readStrSec (file : List UInt8) (strHdr : Shdr) : Check Failure (List UInt8) := do
  refuseIf (failed "ELF section string table out of bounds\n")
    (return outOfBounds file strHdr.sh_offset.toNat strHdr.sh_size.toNat)
  let size ← resize strHdr.sh_size.toNat
  let position ← fseek (failed "Failed to seek to strHdr.sh_offset!\n") strHdr.sh_offset.toNat
  fread (failed "Failed to read strHdr!\n") file position size

/-- A string that starts at the place. The scan that meets no terminator leaves the string section. -/
def nameAt (strSec : List UInt8) (place : Nat) : Check Failure (List UInt8) := do
  let _ ← readAt strSec place
  match readCString (strSec.drop place) with
  | some (name, _) => return name
  | none => .outside

/-- A header without a name, or with one outside of the strings, is skipped. -/
def skipped (strSec : List UInt8) (shdr : Shdr) : Bool := shdr.sh_name = 0 || strSec.length ≤ shdr.sh_name.toNat

def nameSections (strSec : List UInt8) : List Shdr → Check Failure (List SectionHdr)
  | [] => return []
  | shdr :: shdrs =>
    if skipped strSec shdr then nameSections strSec shdrs
    else do
      let name ← nameAt strSec shdr.sh_name.toNat
      let sections ← nameSections strSec shdrs
      return ⟨name, shdr.sh_addr, shdr.sh_offset, shdr.sh_size⟩ :: sections

def loadTables (c : ElfClass) (file : List UInt8) (hdr : Ehdr c) : Check Failure (List Shdr × List UInt8) := do
  let shdrs ← readShdrs c file hdr
  let strHdr ← readAt shdrs hdr.e_shstrndx.toNat
  let strSec ← readStrSec file strHdr
  return (shdrs, strSec)

def parseHeaders (c : ElfClass) (file : List UInt8) (hdr : Ehdr c) : Check Failure (List SectionHdr) := do
  let (shdrs, strSec) ← loadTables c file hdr
  nameSections strSec shdrs

def parseElf32Headers (file : List UInt8) (hdr : Ehdr .elf32) : Check Failure (List SectionHdr) :=
  parseHeaders .elf32 file hdr

def parseElf64Headers (file : List UInt8) (hdr : Ehdr .elf64) : Check Failure (List SectionHdr) :=
  parseHeaders .elf64 file hdr

/-- One item of no bytes counts as not read. -/
def readSection (file : List UInt8) (sectionHdr : SectionHdr) : Check Failure (List UInt8) := do
  refuseIf (.logFailure "Section %s out of bounds (offset %llu size %llu file %llu)!\n" [sectionHdr.name]
      [sectionHdr.offset.toNat, sectionHdr.size.toNat, file.length])
    (return file.length = 0 || outOfBounds file sectionHdr.offset.toNat sectionHdr.size.toNat)
  let position ← fseek (.logFailure "Failed to seek to section %s!\n" [sectionHdr.name] []) sectionHdr.offset.toNat
  let size ← resize sectionHdr.size.toNat
  refuseIf (.logFailure "Failed to read section %s!\n" [sectionHdr.name] []) (return size = 0)
  fread (.logFailure "Failed to read section %s!\n" [sectionHdr.name] []) file position size

end SlsteamMoon.ExecutableFile
