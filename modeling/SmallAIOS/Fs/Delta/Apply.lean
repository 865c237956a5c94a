import SmallAIOS.Lib.Bytes
import SmallAIOS.Lib.Checked
import SmallAIOS.Lib.Word

/-!
# Applying delta updates

The applier of binary patches in the format of bsdiff: a header, a block of control
entries, a block of differences and a block of extra bytes. An entry says how many
bytes of the reference to add differences to, how many extra bytes to copy, and how
far to move in the reference. The numbers of an entry are signed words of 64 bits
that whoever wrote the patch has chosen.

The format is documented by the recurrence that the bytes of the result satisfy
(`Recurrence`), which determines them (`Recurrence.unique`). An entry is applied if
its numbers stay within range, and is an error otherwise (`applyControl_spec`). So a
control block is an error, or gives the bytes of the recurrence
(`applyEntries_sound`).
-/

namespace SmallAIOS.Fs.Delta

open Lib Checked List Option Nat

/-- The size of the largest buffer, `isize::MAX`. -/
def isizeMax : ℕ := 2 ^ 63 - 1

/-- How large a buffer the allocator serves. -/
abbrev Heap := {n : ℕ // n ≤ isizeMax}

/-- Bytes in memory. -/
abbrev Blob := {l : List UInt8 // l.length ≤ isizeMax}

def patchMagic : List UInt8 :=
  [83, 109, 97, 108, 108, 65, 73, 79, 83, 66, 83, 68, 1, 0, 0, 0]

def patchHeaderLen : ℕ := 16 + 32 + 8 * 4

def ctrlEntryLen : ℕ := 24

/-- The errors of the applier. -/
inductive DeltaError
  | headerTruncated
  | badMagic
  | headerInconsistent
  | patchTruncated
  | badCtrlLength
  | badControlEntry
  | offsetOutOfRange
  | referencePastEof
  | extraTruncated
  | diffTruncated
  | newSizeMismatch
  deriving DecidableEq

structure PatchHeader where
  referenceHash : List UInt8
  newSize : ℕ
  ctrlLen : ℕ
  diffLen : ℕ
  extraLen : ℕ
  deriving DecidableEq

/-- The length of the header and of the three blocks. -/
def PatchHeader.totalLen (h : PatchHeader) : Except DeltaError ℕ :=
  match ((Word.add 64 patchHeaderLen h.ctrlLen).bind (Word.add 64 · h.diffLen)).bind
      (Word.add 64 · h.extraLen) with
  | some total => .ok total
  | none => .error .headerInconsistent

def parseHeader (patch : List UInt8) : Checked DeltaError PatchHeader := do
  ensure (patchHeaderLen ≤ patch.length) .headerTruncated
  let magic ← need (slice patch 0 16)
  ensure (magic = patchMagic) .badMagic
  let referenceHash ← need (slice patch 16 48)
  let newSize ← need (slice patch 48 56)
  let ctrlLen ← need (slice patch 56 64)
  let diffLen ← need (slice patch 64 72)
  let extraLen ← need (slice patch 72 80)
  let header : PatchHeader :=
    ⟨referenceHash, leVal newSize, leVal ctrlLen, leVal diffLen, leVal extraLen⟩
  let total ← lift header.totalLen
  ensure (patch.length = total) .patchTruncated
  ensure (header.ctrlLen % ctrlEntryLen = 0) .badCtrlLength
  pure header

/-- A signed word, the least significant byte first. -/
def readI64 (b : List UInt8) : ℤ :=
  if leVal b < 2 ^ 63 then leVal b else (leVal b : ℤ) - 2 ^ 64

structure ControlEntry where
  diffLen : ℤ
  extraLen : ℤ
  seek : ℤ
  deriving DecidableEq

/-- The entry with the number `i` of the control block. -/
def readEntry (ctrl : List UInt8) (i : ℕ) : Option ControlEntry := do
  let off := i * ctrlEntryLen
  let dlen ← slice ctrl off (off + 8)
  let elen ← slice ctrl (off + 8) (off + 16)
  let seek ← slice ctrl (off + 16) (off + 24)
  pure ⟨readI64 dlen, readI64 elen, readI64 seek⟩

/-- The output and the position in each block. -/
structure Cursors where
  out : List UInt8
  newPtr : ℕ
  oldPtr : ℤ
  diffPtr : ℕ
  extraPtr : ℕ

/-- Addition of unsigned words, which fails if it overflows. -/
def checkedAdd (a b : ℕ) (e : DeltaError) : Checked DeltaError ℕ := do
  ensure (a + b < 2 ^ 64) e
  pure (a + b)

/-- Addition of signed words, which fails if it overflows. -/
def checkedAddI64 (a b : ℤ) (e : DeltaError) : Checked DeltaError ℤ := do
  ensure (-2 ^ 63 ≤ a + b ∧ a + b < 2 ^ 63) e
  pure (a + b)

/-- Add the differences to the bytes of the reference, one after the other. -/
def addDiff (reference diff : List UInt8) (oldStart diffPtr newPtr dlen : ℕ)
    (out : List UInt8) : Option (List UInt8) :=
  (range dlen).foldlM (fun out j =>
    (reference[oldStart + j]?.bind fun r => diff[diffPtr + j]?.map (r + ·)).bind
      (setAt out (newPtr + j))) out

variable (reference diff extra : List UInt8) (newSize : ℕ)

/-- What the applier does for one control entry. -/
def applyControl (e : ControlEntry) (c : Cursors) : Checked DeltaError Cursors := do
  ensure (0 ≤ e.diffLen ∧ 0 ≤ e.extraLen) .badControlEntry
  let dlen := e.diffLen.toNat
  let elen := e.extraLen.toNat
  let diffEnd ← checkedAdd c.diffPtr dlen .diffTruncated
  ensure (diffEnd ≤ diff.length) .diffTruncated
  let extraEnd ← checkedAdd c.extraPtr elen .extraTruncated
  ensure (extraEnd ≤ extra.length) .extraTruncated
  let newMid ← checkedAdd c.newPtr dlen .newSizeMismatch
  let newEnd ← checkedAdd newMid elen .newSizeMismatch
  ensure (newEnd ≤ newSize) .newSizeMismatch
  ensure (0 ≤ c.oldPtr) .offsetOutOfRange
  let oldStart := c.oldPtr.toNat
  let oldEnd ← checkedAdd oldStart dlen .referencePastEof
  ensure (oldEnd ≤ reference.length) .referencePastEof
  let summed ← need (addDiff reference diff oldStart c.diffPtr c.newPtr dlen c.out)
  let copied ← need (slice extra c.extraPtr (c.extraPtr + elen))
  let out ← need (overwrite summed (c.newPtr + dlen) copied)
  let advance ← checkedAddI64 e.diffLen e.seek .offsetOutOfRange
  let oldPtr ← checkedAddI64 c.oldPtr advance .offsetOutOfRange
  ensure (0 ≤ oldPtr ∧ oldPtr ≤ reference.length) .offsetOutOfRange
  pure ⟨out, c.newPtr + dlen + elen, oldPtr, c.diffPtr + dlen, c.extraPtr + elen⟩

/-- The `n` control entries from the one with the number `i` on. -/
def applyEntries (ctrl : List UInt8) : ℕ → ℕ → Cursors → Checked DeltaError Cursors
  | 0, _, c => pure c
  | n + 1, i, c => do
    let e ← need (readEntry ctrl i)
    let c ← applyControl reference diff extra newSize e c
    applyEntries ctrl n (i + 1) c

/-- A buffer of zeros. The process aborts if the allocator does not serve one that large. -/
def zeroed (heap : Heap) (n : ℕ) : Option (List UInt8) :=
  if n ≤ heap.1 then some (replicate n 0) else none

/-- Apply a patch in memory. -/
def applyDelta (heap : Heap) (reference patch : List UInt8) :
    Checked DeltaError (List UInt8) := do
  let header ← parseHeader patch
  let ctrl ← need (slice patch patchHeaderLen (patchHeaderLen + header.ctrlLen))
  let diffOff := patchHeaderLen + header.ctrlLen
  let diff ← need (slice patch diffOff (diffOff + header.diffLen))
  let extraOff := diffOff + header.diffLen
  let extra ← need (slice patch extraOff (extraOff + header.extraLen))
  let out ← need (zeroed heap header.newSize)
  let c ← applyEntries reference diff extra header.newSize ctrl (ctrl.length / ctrlEntryLen) 0
    ⟨out, 0, 0, 0, 0⟩
  ensure (c.newPtr = header.newSize) .newSizeMismatch
  ensure (c.diffPtr = diff.length) .diffTruncated
  ensure (c.extraPtr = extra.length) .extraTruncated
  pure c.out

/-! ## The documented recurrence -/

/-- The control entry at the beginning of a block. -/
def firstEntry (ctrl : List UInt8) : ControlEntry where
  diffLen := readI64 (ctrl.take 8)
  extraLen := readI64 ((ctrl.drop 8).take 8)
  seek := readI64 ((ctrl.drop 16).take 8)

/-- The control entries of a block, one after the other. -/
def controlEntries : ℕ → List UInt8 → List ControlEntry
  | 0, _ => []
  | n + 1, ctrl => firstEntry ctrl :: controlEntries n (ctrl.drop ctrlEntryLen)

/-- The bytes of the result `new`, from the position `newPtr` on, are those that the control entries
    ask for, and end where the blocks end. -/
def Recurrence (new : List UInt8) : ℕ → ℤ → ℕ → ℕ → List ControlEntry → Prop
  | newPtr, _, diffPtr, extraPtr, [] =>
    newPtr = new.length ∧ diffPtr = diff.length ∧ extraPtr = extra.length
  | newPtr, oldPtr, diffPtr, extraPtr, e :: es =>
    (0 ≤ e.diffLen ∧ 0 ≤ e.extraLen ∧ 0 ≤ oldPtr) ∧
    (∀ j < e.diffLen.toNat, ∃ r d, reference[oldPtr.toNat + j]? = some r ∧
      diff[diffPtr + j]? = some d ∧ new[newPtr + j]? = some (r + d)) ∧
    (∀ j < e.extraLen.toNat, ∃ x, extra[extraPtr + j]? = some x ∧
      new[newPtr + e.diffLen.toNat + j]? = some x) ∧
    Recurrence new (newPtr + e.diffLen.toNat + e.extraLen.toNat) (oldPtr + e.diffLen + e.seek)
      (diffPtr + e.diffLen.toNat) (extraPtr + e.extraLen.toNat) es

variable {diff extra newSize} {ref : List UInt8}

variable {es : List ControlEntry}

/-- The recurrence determines the bytes. -/
theorem Recurrence.unique {new new' : List UInt8} {p : ℕ} {o : ℤ} {d x : ℕ}
    (h : Recurrence ref diff extra new p o d x es)
    (h' : Recurrence ref diff extra new' p o d x es) :
    ∀ k, p ≤ k → new[k]? = new'[k]? := by
  induction es generalizing p o d x with
  | nil =>
    intro k hk
    rw [getElem?_eq_none (h.1 ▸ hk), getElem?_eq_none (h'.1 ▸ hk)]
  | cons e es ih =>
    obtain ⟨-, hd, hx, hrest⟩ := h
    obtain ⟨-, hd', hx', hrest'⟩ := h'
    intro k hk
    obtain hlt | hge := lt_or_ge k (p + e.diffLen.toNat)
    · obtain ⟨j, rfl⟩ := Nat.exists_eq_add_of_le hk
      obtain ⟨r, y, hr, hy, hnew⟩ := hd j (by omega)
      obtain ⟨r', y', hr', hy', hnew'⟩ := hd' j (by omega)
      rw [hnew, hnew', some.inj (hr.symm.trans hr'), some.inj (hy.symm.trans hy')]
    · obtain ⟨j, rfl⟩ := Nat.exists_eq_add_of_le hge
      obtain hlt | hge' := lt_or_ge j e.extraLen.toNat
      · obtain ⟨y, hy, hnew⟩ := hx j hlt
        obtain ⟨y', hy', hnew'⟩ := hx' j hlt
        rw [hnew, hnew', some.inj (hy.symm.trans hy')]
      · exact ih hrest hrest' _ (by omega)

/-! ## One control entry -/

/-- The lengths of an entry stay within the blocks, the output and the reference. -/
structure InBlocks (reference diff extra : List UInt8) (newSize : ℕ) (e : ControlEntry)
    (c : Cursors) : Prop where
  diffLen : 0 ≤ e.diffLen
  extraLen : 0 ≤ e.extraLen
  diffEnd : c.diffPtr + e.diffLen.toNat ≤ diff.length
  extraEnd : c.extraPtr + e.extraLen.toNat ≤ extra.length
  newEnd : c.newPtr + e.diffLen.toNat + e.extraLen.toNat ≤ newSize
  oldPtr : 0 ≤ c.oldPtr
  oldEnd : c.oldPtr.toNat + e.diffLen.toNat ≤ reference.length

/-- So does the position it moves to in the reference. -/
structure Fits (reference diff extra : List UInt8) (newSize : ℕ) (e : ControlEntry)
    (c : Cursors) : Prop extends InBlocks reference diff extra newSize e c where
  seek : 0 ≤ c.oldPtr + e.diffLen + e.seek
  seekEnd : c.oldPtr + e.diffLen + e.seek ≤ reference.length

/-- The bytes that an entry adds to the output. -/
def piece (reference diff extra : List UInt8) (e : ControlEntry) (c : Cursors) : List UInt8 :=
  zipWith (· + ·) ((reference.drop c.oldPtr.toNat).take e.diffLen.toNat)
      ((diff.drop c.diffPtr).take e.diffLen.toNat) ++
    (extra.drop c.extraPtr).take e.extraLen.toNat

/-- The cursors after an entry. -/
def Cursors.advance (reference diff extra : List UInt8) (e : ControlEntry) (c : Cursors) :
    Cursors where
  out := c.out.take c.newPtr ++ piece reference diff extra e c ++
    c.out.drop (c.newPtr + e.diffLen.toNat + e.extraLen.toNat)
  newPtr := c.newPtr + e.diffLen.toNat + e.extraLen.toNat
  oldPtr := c.oldPtr + e.diffLen + e.seek
  diffPtr := c.diffPtr + e.diffLen.toNat
  extraPtr := c.extraPtr + e.extraLen.toNat

variable {e : ControlEntry} {c : Cursors}

theorem InBlocks.length_piece (h : InBlocks ref diff extra newSize e c) :
    (piece ref diff extra e c).length = e.diffLen.toNat + e.extraLen.toNat := by
  have hd := h.diffEnd
  have hx := h.extraEnd
  have ho := h.oldEnd
  simp only [piece, length_append, length_zipWith, length_take, length_drop]
  omega

/-- Adding the differences byte by byte writes their sums over what comes next. -/
theorem addDiff_eq {oldStart diffPtr dlen : ℕ} (done rest : List UInt8)
    (ho : oldStart + dlen ≤ ref.length) (hd : diffPtr + dlen ≤ diff.length)
    (hr : dlen ≤ rest.length) :
    addDiff ref diff oldStart diffPtr done.length dlen (done ++ rest) =
      some (done ++ zipWith (· + ·) ((ref.drop oldStart).take dlen)
        ((diff.drop diffPtr).take dlen) ++ rest.drop dlen) := by
  have hlen : (zipWith (· + ·) ((ref.drop oldStart).take dlen)
      ((diff.drop diffPtr).take dlen)).length = dlen := by
    simp only [length_zipWith, length_take, length_drop]
    omega
  have hset := set_foldlM
    (fun j => ref[oldStart + j]?.bind fun r => diff[diffPtr + j]?.map (r + ·)) done rest
    (zipWith (· + ·) ((ref.drop oldStart).take dlen) ((diff.drop diffPtr).take dlen))
    (fun j hj => by
      rw [hlen] at hj
      have hoj : oldStart + j < ref.length := by omega
      have hdj : diffPtr + j < diff.length := by omega
      simp only [getElem?_zipWith, getElem?_take, getElem?_drop, hj, if_true,
        getElem?_eq_getElem hoj, getElem?_eq_getElem hdj, bind_some,
        map_some])
    (hlen.symm ▸ hr)
  rwa [hlen] at hset

/-- The bytes of an entry are written over what comes next. -/
theorem InBlocks.write (h : InBlocks ref diff extra newSize e c) (hout : c.out.length = newSize) :
    ∃ summed copied, addDiff ref diff c.oldPtr.toNat c.diffPtr c.newPtr e.diffLen.toNat
        c.out = some summed ∧
      slice extra c.extraPtr (c.extraPtr + e.extraLen.toNat) = some copied ∧
      overwrite summed (c.newPtr + e.diffLen.toNat) copied =
        some (c.advance ref diff extra e).out := by
  have hend := h.newEnd
  have hdone : (c.out.take c.newPtr).length = c.newPtr := by
    rw [length_take]
    omega
  have hrest : (c.out.drop c.newPtr).length = newSize - c.newPtr := by
    rw [length_drop, hout]
  have hadd := addDiff_eq (c.out.take c.newPtr) (c.out.drop c.newPtr) h.oldEnd h.diffEnd (by omega)
  rw [hdone, take_append_drop] at hadd
  have hcopy := slice_eq (le_add_right c.extraPtr e.extraLen.toNat) h.extraEnd
  rw [Nat.add_sub_cancel_left] at hcopy
  have hcopied : ((extra.drop c.extraPtr).take e.extraLen.toNat).length = e.extraLen.toNat := by
    have := h.extraEnd
    rw [length_take, length_drop]
    omega
  have hsummed : (c.out.take c.newPtr ++ zipWith (· + ·)
      ((ref.drop c.oldPtr.toNat).take e.diffLen.toNat)
      ((diff.drop c.diffPtr).take e.diffLen.toNat)).length = c.newPtr + e.diffLen.toNat := by
    have hd := h.diffEnd
    have ho := h.oldEnd
    simp only [length_append, length_zipWith, length_take, length_drop]
    omega
  refine ⟨_, _, hadd, hcopy, ?_⟩
  rw [← hsummed, overwrite_append (by rw [length_drop]; omega), hcopied,
    drop_drop, drop_drop, Cursors.advance, piece]
  simp only [append_assoc, add_assoc]

/-- An entry whose numbers stay within range is applied. Any other one is an error, and not a panic.
    -/
theorem applyControl_spec (hout : c.out.length = newSize) (hnew : newSize ≤ isizeMax)
    (hdiff : diff.length < 2 ^ 64) (hextra : extra.length < 2 ^ 64)
    (href : ref.length ≤ isizeMax) :
    Decides (applyControl ref diff extra newSize e c)
      (Fits ref diff extra newSize e c) (c.advance ref diff extra e) := by
  have hmax : isizeMax = 2 ^ 63 - 1 := rfl
  refine .ensure (fun h => ⟨h.diffLen, h.extraLen⟩) fun h1 => ?_
  refine .checked (fun h => h.diffEnd.trans_lt hdiff) fun _ => ?_
  refine .ensure (fun h => h.diffEnd) fun h2 => ?_
  refine .checked (fun h => h.extraEnd.trans_lt hextra) fun _ => ?_
  refine .ensure (fun h => h.extraEnd) fun h3 => ?_
  have hword (h : Fits ref diff extra newSize e c) :
      c.newPtr + e.diffLen.toNat + e.extraLen.toNat < 2 ^ 64 := by
    have := h.newEnd
    omega
  refine .checked (fun h => (Nat.le_add_right _ _).trans_lt (hword h)) fun _ => ?_
  refine .checked hword fun _ => .ensure (fun h => h.newEnd) fun h4 => ?_
  refine .ensure (fun h => h.oldPtr) fun h5 => ?_
  refine .checked (fun h => ?_) fun _ => .ensure (fun h => h.oldEnd) fun h6 => ?_
  · have := h.oldEnd
    omega
  have hin : InBlocks ref diff extra newSize e c := ⟨h1.1, h1.2, h2, h3, h4, h5, h6⟩
  obtain ⟨summed, copied, hsummed, hcopied, hwritten⟩ := hin.write hout
  rw [need_bind hsummed, need_bind hcopied, need_bind hwritten]
  -- The ref is in memory, so a sum that overflows is not a position in it.
  have hseek : c.oldPtr + (e.diffLen + e.seek) = c.oldPtr + e.diffLen + e.seek := by ring
  refine .checked (fun h => ?_) fun _ => .checked (fun h => ?_) fun _ => ?_
  · have hs := h.seek
    have hse := h.seekEnd
    omega
  · have hse := h.seekEnd
    omega
  rw [hseek]
  exact .ensure (fun h => ⟨h.seek, h.seekEnd⟩) fun h7 => .inl ⟨⟨hin, h7.1, h7.2⟩, rfl⟩

/-! ## The control block -/

variable {ctrl : List UInt8}

theorem readEntry_eq {i : ℕ} (h : (i + 1) * ctrlEntryLen ≤ ctrl.length) :
    readEntry ctrl i = some (firstEntry (ctrl.drop (i * ctrlEntryLen))) := by
  have hlen : i * ctrlEntryLen + 24 ≤ ctrl.length := by
    rw [add_mul] at h
    exact h
  have hslice (k : ℕ) (hk : k ≤ 16) : slice ctrl (i * ctrlEntryLen + k) (i * ctrlEntryLen + k + 8) =
      some (((ctrl.drop (i * ctrlEntryLen)).drop k).take 8) := by
    rw [slice_eq (by omega) (by omega), drop_drop, Nat.add_sub_cancel_left]
  have h0 : slice ctrl (i * ctrlEntryLen) (i * ctrlEntryLen + 8) = _ := hslice 0 (by omega)
  have h8 : slice ctrl (i * ctrlEntryLen + 8) (i * ctrlEntryLen + 16) = _ := hslice 8 (by omega)
  have h16 : slice ctrl (i * ctrlEntryLen + 16) (i * ctrlEntryLen + 24) = _ := hslice 16 (by omega)
  rw [readEntry, h0, h8, h16]
  rfl

/-- The blocks are those of a patch in memory, and the output has its final size. -/
structure Ready (reference diff extra : List UInt8) (newSize : ℕ) (c : Cursors) : Prop where
  out : c.out.length = newSize
  newPtr : c.newPtr ≤ newSize
  newSize : newSize ≤ isizeMax
  diff : diff.length < 2 ^ 64
  extra : extra.length < 2 ^ 64
  reference : reference.length ≤ isizeMax

/-- Applying an entry that fits leaves the cursors ready for the next one. -/
theorem Ready.advance (h : Ready ref diff extra newSize c)
    (hfits : Fits ref diff extra newSize e c) :
    Ready ref diff extra newSize (c.advance ref diff extra e) where
  out := by
    have hend := hfits.newEnd
    have hout := h.out
    simp only [Cursors.advance, length_append, hfits.length_piece, length_take, length_drop]
    omega
  newPtr := hfits.newEnd
  newSize := h.newSize
  diff := h.diff
  extra := h.extra
  reference := h.reference

/-- The output up to the next position: what was there, and the bytes of the entry. -/
theorem Fits.take_advance (h : Fits ref diff extra newSize e c)
    (hready : Ready ref diff extra newSize c) :
    (c.advance ref diff extra e).out.take (c.advance ref diff extra e).newPtr =
      c.out.take c.newPtr ++ piece ref diff extra e c := by
  refine take_left' ?_
  have hout := hready.out
  have hptr := hready.newPtr
  simp only [Cursors.advance, length_append, h.length_piece, length_take]
  omega

/-- What an entry that fits writes is what the recurrence asks for, in any output that agrees with
    it up to the next position. -/
theorem Fits.recurrence {new : List UInt8} {c' : Cursors}
    (h : Fits ref diff extra newSize e c) (hready : Ready ref diff extra newSize c)
    (hc : c.advance ref diff extra e = c') (hnew : new.take c'.newPtr = c'.out.take c'.newPtr)
    (hes : Recurrence ref diff extra new c'.newPtr c'.oldPtr c'.diffPtr c'.extraPtr es) :
    Recurrence ref diff extra new c.newPtr c.oldPtr c.diffPtr c.extraPtr (e :: es) := by
  subst hc
  have hd := h.diffEnd
  have hx := h.extraEnd
  have ho := h.oldEnd
  have hout := hready.out
  have hptr := hready.newPtr
  have hat (j : ℕ) (hj : j < e.diffLen.toNat + e.extraLen.toNat) :
      new[c.newPtr + j]? = (piece ref diff extra e c)[j]? := by
    have hlt : c.newPtr + j < (c.advance ref diff extra e).newPtr := by
      simp only [Cursors.advance]
      omega
    rw [← getElem?_take_of_lt hlt, hnew, h.take_advance hready, getElem?_append_right, length_take]
    · congr 1
      omega
    · rw [length_take]
      omega
  refine ⟨⟨h.diffLen, h.extraLen, h.oldPtr⟩, fun j hj => ?_, fun j hj => ?_, hes⟩
  · have hr : c.oldPtr.toNat + j < ref.length := by omega
    have hdj : c.diffPtr + j < diff.length := by omega
    refine ⟨_, _, getElem?_eq_getElem hr, getElem?_eq_getElem hdj, ?_⟩
    rw [hat j (by omega), piece, getElem?_append_left]
    · simp only [getElem?_zipWith, getElem?_take, getElem?_drop, hj, if_true,
        getElem?_eq_getElem hr, getElem?_eq_getElem hdj]
    · simp only [length_zipWith, length_take, length_drop]
      omega
  · have hxj : c.extraPtr + j < extra.length := by omega
    refine ⟨_, getElem?_eq_getElem hxj, ?_⟩
    have hlen : (zipWith (· + ·) ((ref.drop c.oldPtr.toNat).take e.diffLen.toNat)
        ((diff.drop c.diffPtr).take e.diffLen.toNat)).length = e.diffLen.toNat := by
      simp only [length_zipWith, length_take, length_drop]
      omega
    rw [add_assoc, hat _ (by omega), piece, getElem?_append_right (by omega), hlen,
      Nat.add_sub_cancel_left, getElem?_take_of_lt hj, getElem?_drop,
      getElem?_eq_getElem hxj]

/-- A control block of any entries is an error, or gives the bytes of the recurrence. -/
theorem applyEntries_sound {n i : ℕ} (hctrl : (i + n) * ctrlEntryLen ≤ ctrl.length)
    (h : Ready ref diff extra newSize c) :
    Fails (applyEntries ref diff extra newSize ctrl n i c) ∨
      ∃ c', applyEntries ref diff extra newSize ctrl n i c = some (.ok c') ∧
        c'.out.length = newSize ∧ c.newPtr ≤ c'.newPtr ∧
        c'.out.take c.newPtr = c.out.take c.newPtr ∧
        (c'.newPtr = newSize → c'.diffPtr = diff.length → c'.extraPtr = extra.length →
          Recurrence ref diff extra c'.out c.newPtr c.oldPtr c.diffPtr c.extraPtr
            (controlEntries n (ctrl.drop (i * ctrlEntryLen)))) := by
  induction n generalizing i c with
  | zero =>
    refine .inr ⟨c, rfl, h.out, le_rfl, rfl, fun hn hd hx => ⟨?_, hd, hx⟩⟩
    rw [hn, h.out]
  | succ n ih =>
    have hlast : (i + 1) * ctrlEntryLen ≤ ctrl.length :=
      (Nat.mul_le_mul_right _ (by omega)).trans hctrl
    rw [applyEntries, need_bind (readEntry_eq hlast)]
    obtain ⟨hfits, happly⟩ | ⟨-, hfails⟩ :=
      applyControl_spec h.out h.newSize h.diff h.extra h.reference
    · rw [bind_of_ok happly]
      have hnext : (i + 1 + n) * ctrlEntryLen ≤ ctrl.length := by
        rwa [add_right_comm, add_assoc]
      refine (ih hnext (h.advance hfits)).imp_right ?_
      rintro ⟨c', hc', hout, hle, htake, hrec⟩
      refine ⟨c', hc', hout, ?_, ?_, fun hn hd hx => ?_⟩
      · refine le_trans ?_ hle
        simp only [Cursors.advance]
        omega
      · -- The bytes before this entry are bytes before the next one.
        have hptr := h.newPtr
        have hout := h.out
        have hmin : min c.newPtr (c.advance ref diff extra
            (firstEntry (ctrl.drop (i * ctrlEntryLen)))).newPtr = c.newPtr := by
          simp only [Cursors.advance]
          omega
        have hlen : (c.out.take c.newPtr).length = c.newPtr := by
          rw [length_take]
          omega
        have hcut := congrArg (take c.newPtr) (htake.trans (hfits.take_advance h))
        rwa [take_take, hmin, take_left' hlen] at hcut
      · refine hfits.recurrence h rfl htake ?_
        have := hrec hn hd hx
        rwa [add_mul, ← drop_drop] at this
    · exact .inl hfails.bind

end SmallAIOS.Fs.Delta
