import SmallAIOS.Fs.LittleFs.Format

/-!
# Checkpoints

F2FS keeps two checkpoint packs, and reads the one of the higher version whose CRC is right. A block
says itself where its CRC is. One that says nowhere, such as a block of zeros, passes for right.

* `sound_iff`: the choice is `Sound` unless such a block is in its way.
-/

namespace SmallAIOS.Fs.F2fs

open Lib List

inductive F2fsError where
  | checkpointCrcMismatch
  | inodeCorrupt
  deriving DecidableEq

def checkpointHeaderBytes : ℕ := 192

/-- The register of CRC32C after the data, which is not inverted. -/
def f2fsCrc32 (seed : ℕ) (data : List UInt8) : ℕ := LittleFs.crc32cUpdate seed data

structure Checkpoint where
  checkpointVer : ℕ
  userBlockCount : ℕ
  validBlockCount : ℕ
  rsvdSegmentCount : ℕ
  overprovSegmentCount : ℕ
  freeSegmentCount : ℕ
  curNodeSegno : List ℕ
  curNodeBlkoff : List ℕ
  curDataSegno : List ℕ
  curDataBlkoff : List ℕ
  validNodeCount : ℕ
  validInodeCount : ℕ
  nextFreeNid : ℕ
  sitVerBitmapBytesize : ℕ
  natVerBitmapBytesize : ℕ
  checksumOffset : ℕ
  elapsedTime : ℕ
  storedCrc : ℕ
  deriving DecidableEq

/-- The number in `k` bytes of a block. -/
def word (block : List UInt8) (o k : ℕ) : ℕ := leVal ((block.drop o).take k)

/-- The numbers of the eight streams. -/
def words (block : List UInt8) (o k : ℕ) : List ℕ := (range 8).map fun i => word block (o + i * k) k

namespace Checkpoint

/-- The fields of a block that is long enough for them. -/
def ofBlock (block : List UInt8) : Checkpoint :=
  let checksumOffset := word block 152 4
  { checkpointVer := word block 0 8
    userBlockCount := word block 8 8
    validBlockCount := word block 16 8
    rsvdSegmentCount := word block 24 4
    overprovSegmentCount := word block 28 4
    freeSegmentCount := word block 32 4
    curNodeSegno := words block 36 4
    curNodeBlkoff := words block 68 2
    curDataSegno := words block 84 4
    curDataBlkoff := words block 116 2
    validNodeCount := word block 132 4
    validInodeCount := word block 136 4
    nextFreeNid := word block 140 4
    sitVerBitmapBytesize := word block 144 4
    natVerBitmapBytesize := word block 148 4
    checksumOffset := checksumOffset
    elapsedTime := word block 156 8
    storedCrc := if checksumOffset ≠ 0 ∧ checksumOffset + 4 ≤ block.length then
      word block checksumOffset 4 else 0 }

def parse (block : List UInt8) : Except F2fsError Checkpoint :=
  if block.length < checkpointHeaderBytes then .error .inodeCorrupt else .ok (ofBlock block)

/-- The CRC is that of the bytes before it. It is not looked at if its offset is 0. -/
def verifyCrc (cp : Checkpoint) (rawBlock : List UInt8) : Except F2fsError Unit :=
  if cp.checksumOffset = 0 then .ok ()
  else if cp.checksumOffset + 4 > rawBlock.length then .error .checkpointCrcMismatch
  else if f2fsCrc32 0 (rawBlock.take cp.checksumOffset) ≠ cp.storedCrc then
    .error .checkpointCrcMismatch
  else .ok ()

end Checkpoint

open Checkpoint

def selectCheckpoint (cp1Block cp2Block : List UInt8) : Except F2fsError Checkpoint :=
  let cp1 := (parse cp1Block).toOption
  let cp2 := (parse cp2Block).toOption
  let cp1Ok := cp1.any fun c => (c.verifyCrc cp1Block).isOk
  let cp2Ok := cp2.any fun c => (c.verifyCrc cp2Block).isOk
  match cp1Ok, cp2Ok, cp1, cp2 with
  | true, true, some c1, some c2 => if c2.checkpointVer > c1.checkpointVer then .ok c2 else .ok c1
  | true, false, some c1, _ => .ok c1
  | false, true, _, some c2 => .ok c2
  | _, _, _, _ => .error .checkpointCrcMismatch

/-- A block of 4 KiB. -/
abbrev Block := { block : List UInt8 // block.length = 4096 }

namespace Block

variable (b : Block)

def version : ℕ := word b 0 8

/-- Where the block says its CRC is. -/
def crcOffset : ℕ := word b 152 4

/-- The block has a CRC, of the bytes before it. -/
def Matches : Prop :=
  b.crcOffset ≠ 0 ∧ b.crcOffset + 4 ≤ 4096 ∧
    word b b.crcOffset 4 = f2fsCrc32 0 (b.1.take b.crcOffset)

theorem parse_eq : parse b = .ok (ofBlock b) := by
  rw [parse, b.2]
  rfl

/-- A block passes if its CRC matches, or if it says that it has none. -/
theorem isOk_verifyCrc : ((ofBlock b).verifyCrc b).isOk = true ↔ b.crcOffset = 0 ∨ b.Matches := by
  have hoff : (ofBlock b).checksumOffset = b.crcOffset := rfl
  have hstored : (ofBlock b).storedCrc =
      if b.crcOffset ≠ 0 ∧ b.crcOffset + 4 ≤ b.1.length then word b b.crcOffset 4 else 0 := rfl
  rw [verifyCrc, hoff, Matches]
  split_ifs <;> simp only [Except.isOk, Except.toBool] <;> grind

end Block

variable {b₁ b₂ : Block}

/-- A checkpoint that is chosen is of a block whose CRC matches, and no such block has a higher
    version. -/
def Sound (b₁ b₂ : Block) : Prop :=
  ∀ cp, selectCheckpoint b₁ b₂ = .ok cp → ∃ b ∈ [b₁, b₂], parse b = .ok cp ∧ b.Matches ∧
    ∀ b' ∈ [b₁, b₂], b'.Matches → b'.version ≤ cp.checkpointVer

theorem selectCheckpoint_eq (b₁ b₂ : Block) : selectCheckpoint b₁ b₂ =
    match ((ofBlock b₁).verifyCrc b₁).isOk, ((ofBlock b₂).verifyCrc b₂).isOk with
    | true, true => .ok (ofBlock (if b₁.version < b₂.version then b₂ else b₁))
    | true, false => .ok (ofBlock b₁)
    | false, true => .ok (ofBlock b₂)
    | false, false => .error .checkpointCrcMismatch := by
  rw [selectCheckpoint, b₁.parse_eq, b₂.parse_eq]
  dsimp only [Except.toOption, Option.any]
  cases ((ofBlock b₁).verifyCrc b₁).isOk <;> cases ((ofBlock b₂).verifyCrc b₂).isOk <;>
    dsimp only
  split_ifs <;> first | rfl | contradiction

/-- The block that is chosen passes, so it has a CRC that matches if it has one. -/
theorem sound_iff_of_select {b : Block} (hsel : selectCheckpoint b₁ b₂ = .ok (ofBlock b))
    (hb : b ∈ [b₁, b₂]) (hpass : b.crcOffset = 0 ∨ b.Matches)
    (hmax : ∀ b' ∈ [b₁, b₂], b'.Matches → b'.version ≤ b.version) :
    Sound b₁ b₂ ↔ b.crcOffset ≠ 0 := by
  constructor
  · intro h hzero
    obtain ⟨b', -, hparse, hm, -⟩ := h _ hsel
    have hcp := Except.ok.inj (b'.parse_eq.symm.trans hparse)
    exact hm.1 ((congrArg checksumOffset hcp).trans hzero)
  · intro hne cp hcp
    obtain rfl := Except.ok.inj (hsel.symm.trans hcp)
    exact ⟨b, hb, b.parse_eq, hpass.resolve_left hne, hmax⟩

/-- The choice is sound if a block that says it has no CRC is not the one that is chosen. -/
theorem sound_iff (b₁ b₂ : Block) : Sound b₁ b₂ ↔
    (b₁.crcOffset = 0 → b₂.Matches ∧ b₁.version < b₂.version) ∧
      (b₂.crcOffset = 0 → b₁.Matches ∧ b₂.version ≤ b₁.version) := by
  have hsel := selectCheckpoint_eq b₁ b₂
  have hok₁ := b₁.isOk_verifyCrc
  have hok₂ := b₂.isOk_verifyCrc
  have hm₁ : b₁.Matches → b₁.crcOffset ≠ 0 := And.left
  split at hsel <;> rename_i h₁ h₂ <;> rw [h₁] at hok₁ <;> rw [h₂] at hok₂
  · by_cases hlt : b₁.version < b₂.version
    · rw [if_pos hlt] at hsel
      rw [sound_iff_of_select hsel (by simp) (hok₂.1 rfl) (by simp [hlt.le])]
      grind
    · rw [if_neg hlt] at hsel
      rw [sound_iff_of_select hsel (by simp) (hok₁.1 rfl) (by simp [not_lt.1 hlt])]
      grind
  · rw [sound_iff_of_select hsel (by simp) (hok₁.1 rfl) (by simp; grind)]
    grind
  · rw [sound_iff_of_select hsel (by simp) (hok₂.1 rfl) (by simp; grind)]
    grind
  · refine iff_of_true (fun cp hcp => ?_) (by grind)
    rw [hsel] at hcp
    cases hcp

/-- Of two blocks of zeros, the first one is chosen. -/
theorem zeros_chosen : ∃ b : Block, b.1 = replicate 4096 0 ∧ ¬b.Matches ∧
    selectCheckpoint b b = .ok (ofBlock b) := by
  have hzero : Block.crcOffset ⟨replicate 4096 0, length_replicate⟩ = 0 := by
    rw [Block.crcOffset, word, drop_replicate]
    decide
  have hok := (Block.isOk_verifyCrc ⟨replicate 4096 0, length_replicate⟩).2 (.inl hzero)
  refine ⟨_, rfl, fun hm => hm.1 hzero, ?_⟩
  rw [selectCheckpoint_eq, hok, ite_self]

end SmallAIOS.Fs.F2fs
