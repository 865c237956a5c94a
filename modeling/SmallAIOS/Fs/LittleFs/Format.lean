import SmallAIOS.Lib.Bytes
import Mathlib.Data.List.Basic

/-!
# The on-disk format of a metadata half

A metadata pair is a pair of erase blocks, its halves. A half holds a revision, the
tags of the entries of a directory, each word XORed with the previous one, and a tag with
the CRC32C of everything before it. `buildMetadataHalf` makes a half of entries and
`parseMetadataHalf` reads the tags up to the last CRC that is right; a half without one
is not valid.

Words of 32 bits are natural numbers. Their fields do not overlap, so a word is written
as a sum.
-/

namespace SmallAIOS.Fs.LittleFs

open Lib

/-- The bytes `littlefs`. -/
def superblockMagic : List UInt8 := [0x6C, 0x69, 0x74, 0x74, 0x6C, 0x65, 0x66, 0x73]

def majorVersion : ℕ := 2

/-- The longest payload a tag may have for the reader. -/
def nameMax : ℕ := 1024

def maxTagsPerHalf : ℕ := 4096

def tagType3Name : ℕ := 0x0
def tagType3Struct : ℕ := 0x2
def tagType3Crc : ℕ := 0x5
def tagType3Tail : ℕ := 0x6

/-- The type of the name of a file. -/
def tagNameReg : ℕ := 0x001
/-- The type of the name of a directory. -/
def tagNameDir : ℕ := 0x002
def tagNameSuperblock : ℕ := 0x0FF

/-- A directory, by its pair of blocks. -/
def tagStructDir : ℕ := 0x200
/-- A file whose contents are in the tag. -/
def tagStructInline : ℕ := 0x201
/-- A file in a chain of blocks. -/
def tagStructCtz : ℕ := 0x202

def tagCrcNormal : ℕ := 0x500

/-! ## CRC32C -/

def crc32cPolyReflected : ℕ := 0x82F63B78

/-- A bit leaves the register. -/
def crcBit (crc : ℕ) : ℕ :=
  if crc % 2 = 1 then crc / 2 ^^^ crc32cPolyReflected else crc / 2

def crcByte (crc : ℕ) (b : UInt8) : ℕ := crcBit^[8] (crc ^^^ b.toNat)

/-- The register after the data, from the register `crc`. -/
def crc32cUpdate (crc : ℕ) (data : List UInt8) : ℕ := data.foldl crcByte crc

/-- The register before anything. -/
def crcInit : ℕ := 0xFFFFFFFF

/-- The final value of a register: all its bits inverted. -/
def crcFinal (crc : ℕ) : ℕ := 0xFFFFFFFF - crc

/-! ## Tags -/

/-- A tag word: the valid bit, which is clear, 11 bits of type, 10 of id and 10 of length. -/
def packTagWord (typ id len : ℕ) : ℕ :=
  typ % 2 ^ 11 * 2 ^ 20 + id % 2 ^ 10 * 2 ^ 10 + len % 2 ^ 10

structure Tag where
  typ : ℕ
  id : ℕ
  data : List UInt8
  deriving DecidableEq

namespace Tag

variable (t : Tag)

def isName : Bool := t.typ / 2 ^ 8 = tagType3Name

def isStruct : Bool := t.typ / 2 ^ 8 = tagType3Struct

def word : ℕ := packTagWord t.typ t.id t.data.length

end Tag

/-- An entry of a directory: a name tag and a struct tag of the same id. -/
structure PairEntry where
  id : ℕ
  typName : ℕ
  name : List UInt8
  typStruct : ℕ
  structPayload : List UInt8
  deriving DecidableEq

/-- The tags of an entry, in the order they are written. -/
def PairEntry.tags (e : PairEntry) : List Tag :=
  [⟨e.typName, e.id, e.name⟩, ⟨e.typStruct, e.id, e.structPayload⟩]

/-- The blocks of the two halves of a metadata pair. -/
abbrev BlockPair := ℕ × ℕ

/-- A block pair as the payload of a tag. -/
def BlockPair.toBytes (p : BlockPair) : List UInt8 := leBytes 4 p.1 ++ leBytes 4 p.2

def readU32Le (bs : List UInt8) : ℕ := leVal (bs.take 4)

/-- The block pair in a payload. -/
def BlockPair.ofBytes (bs : List UInt8) : BlockPair := (readU32Le bs, readU32Le (bs.drop 4))

/-- The tag of a tail pointer. -/
def tailTag (p : BlockPair) : Tag := ⟨tagType3Tail * 2 ^ 8, 0, p.toBytes⟩

/-! ## Writing a half -/

structure HalfBuilder where
  buf : List UInt8
  prevTagWord : ℕ
  runningCrc : ℕ

namespace HalfBuilder

def start (revision : ℕ) : HalfBuilder :=
  ⟨leBytes 4 revision, 0, crc32cUpdate crcInit (leBytes 4 revision)⟩

variable (b : HalfBuilder)

/-- Append bytes that the CRC covers. -/
def append (bs : List UInt8) : HalfBuilder :=
  { b with buf := b.buf ++ bs, runningCrc := crc32cUpdate b.runningCrc bs }

/-- Append a tag word. -/
def word (w : ℕ) : HalfBuilder :=
  { b.append (beBytes 4 (w ^^^ b.prevTagWord)) with prevTagWord := w }

def tag (t : Tag) : HalfBuilder := (b.word t.word).append t.data

/-- The word of the CRC tag, and the CRC of everything up to it. -/
def finish : List UInt8 :=
  let b := b.word (packTagWord tagCrcNormal 0 4)
  b.buf ++ leBytes 4 (crcFinal b.runningCrc)

end HalfBuilder

/-- The tags of a half. -/
def halfTags (entries : List PairEntry) (tail : Option BlockPair) : List Tag :=
  entries.flatMap PairEntry.tags ++ (tail.map tailTag).toList

/-- A half with these entries, unless the payload of a tag is too long for its length field. -/
def buildMetadataHalf (revision : ℕ) (entries : List PairEntry) (tail : Option BlockPair) :
    Option (List UInt8) :=
  if ∀ t ∈ halfTags entries tail, t.data.length ≤ 0x3FF then
    some ((halfTags entries tail).foldl HalfBuilder.tag (.start revision)).finish
  else none

/-! ## Reading a half -/

/-- What one half holds. -/
structure MetadataPairView where
  revision : ℕ := 0
  valid : Bool := false
  tags : List Tag := []
  tail : Option BlockPair := none
  deriving DecidableEq

/-- The reader of a half, after some of its tags. -/
structure HalfReader where
  view : MetadataPairView
  runningCrc : ℕ
  prevTagWord : ℕ
  /-- How many tags a CRC that is right covers. -/
  lastCommittedIdx : ℕ

namespace HalfReader

variable (r : HalfReader)

/-- A tag has been read, whose word is `raw` in the half. -/
def tag (t : Tag) (word : ℕ) (raw : List UInt8) : HalfReader :=
  { r with
    view :=
      { r.view with
        tags := r.view.tags ++ [t]
        tail := if t.typ / 2 ^ 8 = tagType3Tail ∧ t.data.length = 8 then some (.ofBytes t.data)
          else r.view.tail }
    runningCrc := crc32cUpdate (crc32cUpdate r.runningCrc raw) t.data
    prevTagWord := word }

/-- A CRC has been read that is right. -/
def commit (word : ℕ) (crc : List UInt8) : HalfReader where
  view := { r.view with valid := true }
  runningCrc := crc32cUpdate crcInit crc
  prevTagWord := word
  lastCommittedIdx := r.view.tags.length

/-- Read the tags in the rest of the half, at most `fuel` of them. -/
def scan : ℕ → List UInt8 → HalfReader → HalfReader
  | 0, _, r => r
  | fuel + 1, rest, r =>
    if rest.length < 4 then r
    else
      let raw := rest.take 4
      let word := beVal raw ^^^ r.prevTagWord
      let len := word % 2 ^ 10
      let data := rest.drop 4
      -- The valid bit is set in erased flash: the end of what has been written.
      if word / 2 ^ 31 % 2 ≠ 0 then r
      else if word / 2 ^ 20 % 2 ^ 11 / 2 ^ 8 = tagType3Crc then
        if data.length < 4 then r
        else if crcFinal (crc32cUpdate r.runningCrc raw) = readU32Le data then
          scan fuel (data.drop len) (r.commit word (data.take 4))
        else r
      else if nameMax < len ∨ data.length < len then r
      else
        let t := ⟨word / 2 ^ 20 % 2 ^ 11, word / 2 ^ 10 % 2 ^ 10, data.take len⟩
        scan fuel (data.drop len) (r.tag t word raw)

/-- What was read, without the tags that no CRC covers. -/
def finish : MetadataPairView := { r.view with tags := r.view.tags.take r.lastCommittedIdx }

end HalfReader

def parseMetadataHalf (buf : List UInt8) : MetadataPairView :=
  if buf.length < 8 then {}
  else
    (HalfReader.scan maxTagsPerHalf (buf.drop 4)
      ⟨{ revision := readU32Le buf }, crc32cUpdate crcInit (buf.take 4), 0, 0⟩).finish

/-- The id of the tag of the given type with the given name. -/
def findNamedId (tags : List Tag) (name : List UInt8) (wantType : ℕ) : Option ℕ :=
  (tags.find? fun t => t.isName && t.typ = wantType && t.data = name).map Tag.id

end SmallAIOS.Fs.LittleFs
