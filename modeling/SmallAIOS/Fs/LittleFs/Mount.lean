import SmallAIOS.Fs.LittleFs.Chain
import SmallAIOS.Fs.LittleFs.Codec
import SmallAIOS.Lib.SortedMap
import SmallAIOS.Lib.TwoSlot

/-!
# Mounting and reading

The read path works on what is on the medium. A metadata pair is read by its valid half of
the higher revision. The root pair is in the blocks 0 and 1, and names a superblock;
directories are one level deep.

Paths and names are lists of bytes.

* `readMetadataPair_of_holds`: what is read of a pair is the half that the two halves, as slots
  written in turn, hold;
* `readMetadataPair_congr`: it depends on the two blocks only.
-/

namespace SmallAIOS.Fs.LittleFs

open Lib Flash

variable {cfg : Config}

/-! ## Metadata pairs -/

namespace BlockPair

/-- The block of a half: the first one, or the second one if `h`. -/
def half (p : BlockPair) (h : Bool) : ℕ := if h then p.2 else p.1

/-- The pair with another block for a half. -/
def set (p : BlockPair) (h : Bool) (b : ℕ) : BlockPair := if h then (p.1, b) else (b, p.2)

end BlockPair

/-- What a half holds. -/
def viewOf (img : Image cfg.toGeometry) (b : ℕ) : MetadataPairView :=
  parseMetadataHalf (img b).bytes

/-- The half to read, the valid one of the higher revision, with its revision. -/
def selectActiveHalf (a b : MetadataPairView) : Bool × ℕ :=
  match a.valid, b.valid with
  | true, true => if a.revision < b.revision then (true, b.revision) else (false, a.revision)
  | true, false => (false, a.revision)
  | false, true => (true, b.revision)
  | false, false => (false, 0)

/-- The half to read. -/
def newestHalf (a b : MetadataPairView) : Except LittleFsError MetadataPairView :=
  match a.valid, b.valid with
  | true, true => if a.revision < b.revision then .ok b else .ok a
  | true, false => .ok a
  | false, true => .ok b
  | false, false => .error .corrupted

def readMetadataPair (img : Image cfg.toGeometry) (p : BlockPair) :
    Except LittleFsError MetadataPairView :=
  if cfg.blockCount ≤ p.1 ∨ cfg.blockCount ≤ p.2 then .error .io
  else newestHalf (viewOf img p.1) (viewOf img p.2)

/-- The halves of a pair, as slots that are written in turn. -/
def slots (img : Image cfg.toGeometry) (p : BlockPair) : TwoSlot.Slots MetadataPairView := fun h =>
  let v := viewOf img (p.half h)
  if v.valid then some (v.revision, v) else none

variable {img img' : Image cfg.toGeometry} {p : BlockPair} {h : Bool} {r : ℕ} {v : MetadataPairView}

theorem slots_eq_some (hs : slots img p h = some (r, v)) :
    viewOf img (p.half h) = v ∧ v.valid = true ∧ v.revision = r := by
  rw [slots] at hs
  split_ifs at hs with hv
  cases hs
  exact ⟨rfl, hv, rfl⟩

/-- What is read of a pair is what its halves hold. -/
theorem newestHalf_of_holds (hh : TwoSlot.Holds (slots img p) h r v) :
    newestHalf (viewOf img p.1) (viewOf img p.2) = .ok v ∧
      selectActiveHalf (viewOf img p.1) (viewOf img p.2) = (h, r) := by
  obtain ⟨hview, -, rfl⟩ := slots_eq_some hh.slot_eq
  have hlatest := hh.latest_eq
  subst hview
  simp only [TwoSlot.latest, slots, BlockPair.half] at hlatest
  rw [newestHalf, selectActiveHalf]
  cases ha : (viewOf img p.1).valid <;> cases hb : (viewOf img p.2).valid
  · simp [ha, hb] at hlatest
  · simp [ha, hb] at hlatest
    subst hlatest
    exact ⟨rfl, rfl⟩
  · simp [ha, hb] at hlatest
    subst hlatest
    exact ⟨rfl, rfl⟩
  · by_cases hlt : (viewOf img p.1).revision < (viewOf img p.2).revision
    · simp [ha, hb, hlt] at hlatest
      subst hlatest
      exact ⟨if_pos hlt, if_pos hlt⟩
    · simp [ha, hb, hlt] at hlatest
      subst hlatest
      exact ⟨if_neg hlt, if_neg hlt⟩

theorem readMetadataPair_of_holds (hh : TwoSlot.Holds (slots img p) h r v)
    (h1 : p.1 < cfg.blockCount) (h2 : p.2 < cfg.blockCount) :
    readMetadataPair img p = .ok v := by
  rw [readMetadataPair, if_neg (by omega), (newestHalf_of_holds hh).1]

/-- What is read of a pair depends on its two blocks only. -/
theorem readMetadataPair_congr (h1 : img' p.1 = img p.1) (h2 : img' p.2 = img p.2) :
    readMetadataPair img' p = readMetadataPair img p := by
  rw [readMetadataPair, viewOf, viewOf, h1, h2]
  rfl

theorem slots_congr (h1 : img' p.1 = img p.1) (h2 : img' p.2 = img p.2) :
    slots img' p = slots img p := by
  funext h
  cases h <;> simp [slots, viewOf, BlockPair.half, h1, h2]

/-! ## Mounting -/

/-- The root pair. -/
def root : BlockPair := (0, 1)

/-- The checks of the superblock in the root. -/
def checkSuperblock (tags : List Tag) : Except LittleFsError Unit :=
  match (tags.filter fun t =>
    t.isName && t.typ = tagNameSuperblock && t.id = 0 && 8 ≤ t.data.length).getLast? with
  | none => .error .badMagic
  | some t =>
    if t.data.take 8 ≠ superblockMagic then .error .badMagic
    else
      match (tags.filter fun t => t.isStruct && t.typ = tagStructInline && t.id = 0).getLast? with
      | none => .error .corrupted
      | some t =>
        if t.data.length < 24 then .error .outOfBounds
        else
          let major := readU32Le t.data / 2 ^ 16 % 2 ^ 16
          if major ≠ majorVersion then .error (.unsupportedMajorVersion major) else .ok ()

/-- Whether the image mounts. -/
def mount (img : Image cfg.toGeometry) : Except LittleFsError Unit := do
  let view ← readMetadataPair img root
  checkSuperblock view.tags

/-! ## Paths -/

/-- The byte `/`. -/
def slash : UInt8 := 0x2F

/-- What is before and after the last slash. -/
def rsplitOnce (body : List UInt8) : Option (List UInt8 × List UInt8) :=
  let name := (body.reverse.takeWhile (· ≠ slash)).reverse
  if name.length = body.length then none
  else some (body.take (body.length - name.length - 1), name)

/-- The struct tag of an id. -/
def structOf (tags : List Tag) (id : ℕ) : Option Tag :=
  tags.find? fun t => t.isStruct && t.id = id

/-- The pair of the directory of the given name. -/
def lookupDirPair (img : Image cfg.toGeometry) (pair : BlockPair) (name : List UInt8) :
    Except LittleFsError BlockPair := do
  let view ← readMetadataPair img pair
  match findNamedId view.tags name tagNameDir with
  | none => .error .notFound
  | some id =>
    match structOf view.tags id with
    | none => .error .corrupted
    | some t =>
      if t.typ ≠ tagStructDir then .error .badType
      else if t.data.length < 8 then .error .corrupted
      else .ok (.ofBytes t.data)

/-- The pair of the directory in which a path is, and its last component. -/
def resolveParent (img : Image cfg.toGeometry) (path : List UInt8) :
    Except LittleFsError (BlockPair × List UInt8) :=
  if path.head? ≠ some slash ∨ path.length < 2 then .error .badPath
  else
    match rsplitOnce (path.drop 1) with
    | some (dir, name) =>
      if dir = [] ∨ name = [] then .error .badPath
      else (lookupDirPair img root dir).map fun pair => (pair, name)
    | none => .ok (root, path.drop 1)

/-- The pair of a directory. A path of two or more slashes panics (`none`). -/
def resolveDir (img : Image cfg.toGeometry) (path : List UInt8) :
    Except (Option LittleFsError) BlockPair :=
  if path = [slash] then .ok root
  else if path.head? ≠ some slash then .error (some .badPath)
  else
    match (path.reverse.dropWhile (· = slash)).reverse with
    | [] => .error none
    | _ :: body =>
      if body = [] then .ok root
      else if slash ∈ body then .error (some .unsupported)
      else (lookupDirPair img root body).mapError some

/-! ## Reading -/

/-- An open file, with the position in it. -/
inductive File
  | inline (data : List UInt8) (pos : ℕ)
  | ctz (head size pos : ℕ)
  deriving DecidableEq

/-- The file of a name in a directory. -/
def openIn (tags : List Tag) (name : List UInt8) : Except LittleFsError File :=
  match findNamedId tags name tagNameReg with
  | none => .error .notFound
  | some id =>
    match structOf tags id with
    | none => .error .corrupted
    | some t =>
      if t.typ = tagStructInline then .ok (.inline t.data 0)
      else if t.typ = tagStructCtz then
        if t.data.length < 8 then .error .corrupted
        else .ok (.ctz (readU32Le t.data) (readU32Le (t.data.drop 4)) 0)
      else .error .badType

def openRead (img : Image cfg.toGeometry) (path : List UInt8) : Except LittleFsError File := do
  let (pair, name) ← resolveParent img path
  let view ← readMetadataPair img pair
  openIn view.tags name

def File.size : File → ℕ
  | .inline data _ => data.length % 2 ^ 32
  | .ctz _ size _ => size

/-- Read at most `len` bytes more. -/
def readFile (img : Image cfg.toGeometry) (len : ℕ) :
    File → Except LittleFsError (List UInt8 × File)
  | .inline data pos =>
    let n := min (data.length - pos) len
    .ok ((data.drop pos).take n, .inline data (pos + n))
  | .ctz head size pos =>
    let n := min (size - pos) len
    if n = 0 then .ok ([], .ctz head size pos)
    else (readCtzAt img head size pos n).map fun bytes => (bytes, .ctz head size (pos + n))

inductive DirEntryKind
  | file
  | dir
  deriving DecidableEq

/-- The names in a directory, with what they name. -/
def listing (tags : List Tag) : List (List UInt8 × DirEntryKind) :=
  tags.filterMap fun t =>
    if !t.isName then none
    else if t.typ = tagNameReg then some (t.data, .file)
    else if t.typ = tagNameDir then some (t.data, .dir)
    else none

def readDir (img : Image cfg.toGeometry) (path : List UInt8) :
    Except (Option LittleFsError) (List (List UInt8 × DirEntryKind)) := do
  let pair ← resolveDir img path
  let view ← (readMetadataPair img pair).mapError some
  return listing view.tags

end SmallAIOS.Fs.LittleFs
