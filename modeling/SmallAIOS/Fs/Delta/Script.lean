import SmallAIOS.Fs.Delta.Patch
import Mathlib.Data.Vector.Defs

/-!
# Patches that encode an edit script

An edit script makes a target out of a reference, piece by piece, and moves back and
forth in the reference in between. The patch of a script is its pieces as control
entries, the differences between the target and the reference, and the rest of the
target. Applying it gives the target back, and applying any other patch gives an
error or what the documentation asks for, unless the result is larger than what the
allocator serves (`applyDelta_correct`).
-/

namespace SmallAIOS.Fs.Delta

open Lib Checked Nat
open List hiding Vector

variable {ref diff extra ctrl : List UInt8} {z : ℤ}

/-- A piece of an edit script. -/
structure Segment where
  diffLen : ℕ
  extraLen : ℕ
  seek : ℤ

open Segment

/-- The positions in a reference of `len` bytes, from `p` on, stay within it. -/
def StaysWithin (len : ℕ) : ℤ → List Segment → Prop
  | _, [] => True
  | p, s :: ss => p + s.diffLen ≤ len ∧ 0 ≤ p + s.diffLen + s.seek ∧
    p + s.diffLen + s.seek ≤ len ∧ StaysWithin len (p + s.diffLen + s.seek) ss

instance decidableStaysWithin (len : ℕ) : ∀ p ss, Decidable (StaysWithin len p ss)
  | _, [] => isTrue trivial
  | p, s :: ss =>
    have := decidableStaysWithin len (p + s.diffLen + s.seek) ss
    inferInstanceAs (Decidable (_ ∧ _ ∧ _ ∧ _))

/-- The number of bytes that the pieces produce. -/
def produced (ss : List Segment) : ℕ := (ss.map fun s => s.diffLen + s.extraLen).sum

/-- A script that makes `target` out of `reference`. -/
structure EditScript (reference target : List UInt8) where
  segments : List Segment
  staysWithin : StaysWithin reference.length 0 segments
  produces : produced segments = target.length

/-- A signed word as bytes, the least significant one first. -/
def writeI64 (z : ℤ) : List UInt8 := leBytes 8 (z % 2 ^ 64).toNat

def Segment.encode (s : Segment) : List UInt8 :=
  writeI64 s.diffLen ++ writeI64 s.extraLen ++ writeI64 s.seek

/-- The differences between the target and the reference that the pieces use. -/
def diffBytes (reference target : List UInt8) : ℕ → ℤ → List Segment → List UInt8
  | _, _, [] => []
  | newPtr, oldPtr, s :: ss =>
    zipWith (· - ·) ((target.drop newPtr).take s.diffLen)
        ((reference.drop oldPtr.toNat).take s.diffLen) ++
      diffBytes reference target (newPtr + s.diffLen + s.extraLen) (oldPtr + s.diffLen + s.seek) ss

/-- The bytes of the target that the pieces copy. -/
def extraBytes (target : List UInt8) : ℕ → List Segment → List UInt8
  | _, [] => []
  | newPtr, s :: ss => (target.drop (newPtr + s.diffLen)).take s.extraLen ++
    extraBytes target (newPtr + s.diffLen + s.extraLen) ss

/-- The patch of a script, with the digest of the reference in its header. -/
def encodePatch {reference target : List UInt8} (hash : Vector UInt8 32)
    (script : EditScript reference target) : List UInt8 :=
  let ctrl := script.segments.flatMap encode
  let diff := diffBytes reference target 0 0 script.segments
  let extra := extraBytes target 0 script.segments
  patchMagic ++ hash.toList ++ leBytes 8 target.length ++ leBytes 8 ctrl.length ++
    leBytes 8 diff.length ++ leBytes 8 extra.length ++ ctrl ++ diff ++ extra

theorem readI64_writeI64 (hlo : -2 ^ 63 ≤ z) (hhi : z < 2 ^ 63) : readI64 (writeI64 z) = z := by
  rw [readI64, writeI64, leVal_leBytes (by omega)]
  split <;> omega

@[simp] theorem length_writeI64 : (writeI64 z).length = 8 := length_leBytes

/-- The control entry of a piece. -/
def Segment.toEntry (s : Segment) : ControlEntry := ⟨s.diffLen, s.extraLen, s.seek⟩

/-- The entry of a piece is read back from its encoding. -/
theorem firstEntry_encode {s : Segment} {rest : List UInt8} (hd : s.diffLen < 2 ^ 63)
    (hx : s.extraLen < 2 ^ 63) (hlo : -2 ^ 63 ≤ s.seek) (hhi : s.seek < 2 ^ 63) :
    firstEntry (s.encode ++ rest) = s.toEntry := by
  have h0 : (s.encode ++ rest).take 8 = writeI64 s.diffLen := by
    rw [encode, append_assoc, append_assoc, take_left' length_writeI64]
  have h8 : ((s.encode ++ rest).drop 8).take 8 = writeI64 s.extraLen := by
    rw [encode, append_assoc, append_assoc, drop_left' length_writeI64, take_left' length_writeI64]
  have h16 : ((s.encode ++ rest).drop 16).take 8 = writeI64 s.seek := by
    rw [encode, append_assoc, drop_left' (by simp), take_left' length_writeI64]
  rw [firstEntry, h0, h8, h16, readI64_writeI64 (by omega) (by omega),
    readI64_writeI64 (by omega) (by omega), readI64_writeI64 hlo hhi, toEntry]

variable {target dpre epre : List UInt8} {s : Segment} {ss : List Segment} {newPtr i : ℕ}
  {oldPtr : ℤ}

/-- Adding the difference to the reference gives the target back. -/
theorem zipWith_add_zipWith_sub {t r : List UInt8} (h : t.length = r.length) :
    zipWith (· + ·) r (zipWith (· - ·) t r) = t := by
  induction t generalizing r with
  | nil => rw [zipWith_nil_left, zipWith_nil_right]
  | cons b t ih =>
    obtain ⟨a, r, rfl⟩ := exists_cons_of_length_eq_add_one h.symm
    rw [zipWith_cons_cons, zipWith_cons_cons, ih (succ.inj h), UInt8.add_comm, UInt8.sub_add_cancel]

/-- The cursors when the target is produced up to `newPtr`, and the blocks are read up to the
    lengths given. -/
def scriptCursors (target : List UInt8) (newPtr : ℕ) (oldPtr : ℤ) (diffPtr extraPtr : ℕ) :
    Cursors where
  out := target.take newPtr ++ replicate (target.length - newPtr) 0
  newPtr := newPtr
  oldPtr := oldPtr
  diffPtr := diffPtr
  extraPtr := extraPtr

/-- The piece of a script, where the blocks of the patch hold its bytes. -/
structure AtSegment (reference target diff extra dpre epre : List UInt8) (newPtr : ℕ) (oldPtr : ℤ)
    (s : Segment) (ss : List Segment) : Prop where
  nonneg : 0 ≤ oldPtr
  staysWithin : StaysWithin reference.length oldPtr (s :: ss)
  produces : newPtr + produced (s :: ss) = target.length
  diff : diff = dpre ++ diffBytes reference target newPtr oldPtr (s :: ss)
  extra : extra = epre ++ extraBytes target newPtr (s :: ss)

namespace AtSegment

variable (h : AtSegment ref target diff extra dpre epre newPtr oldPtr s ss)

include h

theorem length_target : newPtr + (s.diffLen + s.extraLen) + produced ss = target.length := by
  rw [add_assoc]
  exact h.produces

theorem fits : Fits ref diff extra target.length s.toEntry
    (scriptCursors target newPtr oldPtr dpre.length epre.length) := by
  have hp := h.nonneg
  have hlen := h.length_target
  obtain ⟨hold, hseek, hseekEnd, -⟩ := h.staysWithin
  have hd := congrArg length h.diff
  have hx := congrArg length h.extra
  simp only [diffBytes, extraBytes, length_append, length_zipWith, length_take,
    length_drop] at hd hx
  refine ⟨⟨Int.natCast_nonneg _, Int.natCast_nonneg _, ?_, ?_, ?_, hp, ?_⟩, hseek, hseekEnd⟩
  all_goals
    simp only [scriptCursors, toEntry]
    omega

theorem length_differences : (zipWith (· - ·) ((target.drop newPtr).take s.diffLen)
    ((ref.drop oldPtr.toNat).take s.diffLen)).length = s.diffLen := by
  have hp := h.nonneg
  have hlen := h.length_target
  obtain ⟨hold, -⟩ := h.staysWithin
  simp only [length_zipWith, length_take, length_drop]
  omega

theorem length_copied : ((target.drop (newPtr + s.diffLen)).take s.extraLen).length =
    s.extraLen := by
  have hlen := h.length_target
  rw [length_take, length_drop]
  omega

theorem piece_eq : piece ref diff extra s.toEntry
    (scriptCursors target newPtr oldPtr dpre.length epre.length) =
      (target.drop newPtr).take (s.diffLen + s.extraLen) := by
  have hp := h.nonneg
  have hlen := h.length_target
  obtain ⟨hold, -⟩ := h.staysWithin
  have hd : (diff.drop dpre.length).take s.diffLen =
      zipWith (· - ·) ((target.drop newPtr).take s.diffLen)
        ((ref.drop oldPtr.toNat).take s.diffLen) := by
    rw [h.diff, drop_left, diffBytes, take_left' h.length_differences]
  have hx : (extra.drop epre.length).take s.extraLen =
      (target.drop (newPtr + s.diffLen)).take s.extraLen := by
    rw [h.extra, drop_left, extraBytes, take_left' h.length_copied]
  have hsame : ((target.drop newPtr).take s.diffLen).length =
      ((ref.drop oldPtr.toNat).take s.diffLen).length := by
    simp only [length_take, length_drop]
    omega
  simp only [piece, scriptCursors, toEntry, Int.toNat_natCast]
  rw [hd, hx, zipWith_add_zipWith_sub hsame, take_add, drop_drop]

theorem advance_eq : (scriptCursors target newPtr oldPtr dpre.length epre.length).advance ref
    diff extra s.toEntry = scriptCursors target (newPtr + s.diffLen + s.extraLen)
      (oldPtr + s.diffLen + s.seek) (dpre.length + s.diffLen) (epre.length + s.extraLen) := by
  have hlen := h.length_target
  have htake : (target.take newPtr).length = newPtr := by
    rw [length_take]
    omega
  have hdrop : (target.take newPtr ++ replicate (target.length - newPtr) (0 : UInt8)).drop
      (newPtr + s.diffLen + s.extraLen) =
        replicate (target.length - (newPtr + s.diffLen + s.extraLen)) 0 := by
    rw [drop_append, drop_of_length_le (by omega), drop_replicate, nil_append]
    congr 1
    omega
  rw [Cursors.advance, h.piece_eq]
  simp only [scriptCursors, toEntry, Int.toNat_natCast, take_left' htake, hdrop]
  rw [← take_add, add_assoc]

end AtSegment

@[simp] theorem Segment.length_encode : s.encode.length = ctrlEntryLen := by
  rfl

theorem length_flatMap_encode : (ss.flatMap encode).length = ss.length * ctrlEntryLen := by
  induction ss with
  | nil => rfl
  | cons s ss ih => rw [flatMap_cons, length_append, ih, length_encode,
      length_cons, add_mul, one_mul, add_comm]

/-- The control entries of a script produce the target, from wherever the applier has got to. -/
theorem applyEntries_script (hp : 0 ≤ oldPtr) (hstay : StaysWithin ref.length oldPtr ss)
    (hprod : newPtr + produced ss = target.length)
    (hdiff : diff = dpre ++ diffBytes ref target newPtr oldPtr ss)
    (hextra : extra = epre ++ extraBytes target newPtr ss)
    (hctrl : ctrl.drop (i * ctrlEntryLen) = ss.flatMap encode)
    (href : ref.length ≤ isizeMax) (htarget : target.length ≤ isizeMax)
    (hd : diff.length < 2 ^ 64) (hx : extra.length < 2 ^ 64) :
    ∃ p, applyEntries ref diff extra target.length ctrl ss.length i
      (scriptCursors target newPtr oldPtr dpre.length epre.length) =
        some (.ok (scriptCursors target target.length p diff.length extra.length)) := by
  have hmax : isizeMax = 2 ^ 63 - 1 := rfl
  induction ss generalizing newPtr oldPtr dpre epre i with
  | nil =>
    obtain rfl : newPtr = target.length := hprod
    obtain rfl : diff = dpre := hdiff.trans (append_nil _)
    obtain rfl : extra = epre := hextra.trans (append_nil _)
    exact ⟨oldPtr, rfl⟩
  | cons s ss ih =>
    have hat : AtSegment ref target diff extra dpre epre newPtr oldPtr s ss :=
      ⟨hp, hstay, hprod, hdiff, hextra⟩
    have hlen := hat.length_target
    obtain ⟨hold, hseek, hseekEnd, hrest⟩ := hstay
    have hlong : (i + 1) * ctrlEntryLen ≤ ctrl.length := by
      have := congrArg length hctrl
      rw [length_drop, flatMap_cons, length_append, length_encode] at this
      rw [add_mul]
      have hpos : 0 < ctrlEntryLen := by decide
      omega
    have hfirst : firstEntry (ctrl.drop (i * ctrlEntryLen)) = s.toEntry := by
      rw [hctrl]
      exact firstEntry_encode (by omega) (by omega) (by omega) (by omega)
    rw [length_cons, applyEntries, need_bind (readEntry_eq hlong), hfirst]
    have hout : (scriptCursors target newPtr oldPtr dpre.length epre.length).out.length =
        target.length := by
      simp only [scriptCursors, length_append, length_take, length_replicate]
      omega
    have happly := (applyControl_spec hout htarget hd hx href).eq_ok hat.fits
    rw [bind_of_ok happly, hat.advance_eq]
    have hnext := ih (i := i + 1) hseek hrest (by rw [← hlen]; omega)
      (hdiff.trans (append_assoc _ _ _).symm) (hextra.trans (append_assoc _ _ _).symm)
      (by
        rw [add_mul, one_mul, ← drop_drop, hctrl, flatMap_cons, drop_left' length_encode])
    rwa [length_append, length_append, hat.length_differences, hat.length_copied] at hnext

/-- The header of the patch of a script. -/
def scriptHeader {reference target : List UInt8} (hash : Vector UInt8 32)
    (script : EditScript reference target) : PatchHeader where
  referenceHash := hash.toList
  newSize := target.length
  ctrlLen := (script.segments.flatMap encode).length
  diffLen := (diffBytes reference target 0 0 script.segments).length
  extraLen := (extraBytes target 0 script.segments).length

variable {hash : Vector UInt8 32} {script : EditScript ref target}

theorem length_encodePatch : (encodePatch hash script).length = patchHeaderLen +
    (scriptHeader hash script).ctrlLen + (scriptHeader hash script).diffLen +
      (scriptHeader hash script).extraLen := by
  have hmagic : patchMagic.length = 16 := rfl
  have hheader : patchHeaderLen = 80 := rfl
  simp only [encodePatch, scriptHeader, length_append, length_leBytes, Vector.length_toList]
  omega

/-- The parts of the patch of a script, by where they start. -/
theorem drop_encodePatch (hash : Vector UInt8 32) (script : EditScript ref target) :
    (encodePatch hash script).take 16 = patchMagic ∧
    ((encodePatch hash script).drop 16).take 32 = hash.toList ∧
    ((encodePatch hash script).drop 48).take 8 = leBytes 8 target.length ∧
    ((encodePatch hash script).drop 56).take 8 = leBytes 8 (scriptHeader hash script).ctrlLen ∧
    ((encodePatch hash script).drop 64).take 8 = leBytes 8 (scriptHeader hash script).diffLen ∧
    ((encodePatch hash script).drop 72).take 8 = leBytes 8 (scriptHeader hash script).extraLen ∧
    (encodePatch hash script).drop patchHeaderLen = script.segments.flatMap encode ++
      (diffBytes ref target 0 0 script.segments ++ extraBytes target 0 script.segments) := by
  have hmagic : patchMagic.length = 16 := rfl
  have hhash : hash.toList.length = 32 := Vector.length_toList
  have hall := encodePatch.eq_1 hash script
  simp only [append_assoc] at hall
  -- Each part is read and dropped in turn.
  have hskip {a b l : List UInt8} {m n : ℕ} (hl : l.drop m = a ++ b) (ha : a.length = n) :
      (l.drop m).take n = a ∧ l.drop (m + n) = b := by
    rw [← drop_drop, hl]
    exact ⟨take_left' ha, drop_left' ha⟩
  obtain ⟨h0, h16⟩ := hskip (m := 0) hall hmagic
  obtain ⟨hh, h48⟩ := hskip h16 hhash
  obtain ⟨hn, h56⟩ := hskip h48 length_leBytes
  obtain ⟨hc, h64⟩ := hskip h56 length_leBytes
  obtain ⟨hd, h72⟩ := hskip h64 length_leBytes
  obtain ⟨hx, h80⟩ := hskip h72 length_leBytes
  exact ⟨h0, hh, hn, hc, hd, hx, h80⟩

theorem wellFormed_encodePatch (hlen : (encodePatch hash script).length ≤ isizeMax)
    (htarget : target.length ≤ isizeMax) :
    WellFormed (encodePatch hash script) (scriptHeader hash script) := by
  have hmax : isizeMax = 2 ^ 63 - 1 := rfl
  have htotal : (encodePatch hash script).length = _ := length_encodePatch
  obtain ⟨hmagic, hhash, hnew, hctrl, hdiff, hextra, -⟩ := drop_encodePatch hash script
  refine ⟨by omega, hmagic, ?_, htotal.symm, ?_⟩
  · rw [rawHeader, hhash, hnew, hctrl, hdiff, hextra, leVal_leBytes (by omega),
      leVal_leBytes (by omega), leVal_leBytes (by omega), leVal_leBytes (by omega)]
    rfl
  · rw [scriptHeader, length_flatMap_encode, mul_mod_left]

/-- The blocks of the patch of a script. -/
theorem blocks_encodePatch (hash : Vector UInt8 32) (script : EditScript ref target) :
    ctrlBlock (encodePatch hash script) (scriptHeader hash script) =
        script.segments.flatMap encode ∧
      diffBlock (encodePatch hash script) (scriptHeader hash script) =
        diffBytes ref target 0 0 script.segments ∧
      extraBlock (encodePatch hash script) (scriptHeader hash script) =
        extraBytes target 0 script.segments := by
  obtain ⟨-, -, -, -, -, -, hdrop⟩ := drop_encodePatch hash script
  refine ⟨?_, ?_, ?_⟩
  · rw [ctrlBlock, hdrop]
    exact take_left' rfl
  · rw [diffBlock, ← drop_drop, hdrop, scriptHeader, drop_left]
    exact take_left' rfl
  · rw [extraBlock, ← drop_drop, ← drop_drop, hdrop, scriptHeader, drop_left,
      drop_left, take_length]

/-- The patch of a script turns the reference into the target, if there is room for it. -/
theorem applyDelta_encodePatch {heap : Heap} (href : ref.length ≤ isizeMax)
    (htarget : target.length ≤ isizeMax) (hlen : (encodePatch hash script).length ≤ isizeMax) :
    applyDelta heap ref (encodePatch hash script) =
      if target.length ≤ heap.1 then some (.ok target) else none := by
  have hmax : isizeMax = 2 ^ 63 - 1 := rfl
  have hw := wellFormed_encodePatch hlen htarget
  obtain ⟨hctrl, hdiff, hextra⟩ := blocks_encodePatch hash script
  have htotal := hw.total
  have hparse : parseHeader (encodePatch hash script) = some (.ok (scriptHeader hash script)) := by
    rw [hw.eq_rawHeader]
    exact (parseHeader_spec hlen).eq_ok (hw.eq_rawHeader ▸ hw)
  have hcount : (scriptHeader hash script).ctrlLen / ctrlEntryLen = script.segments.length := by
    rw [scriptHeader, length_flatMap_encode]
    exact Nat.mul_div_cancel _ (by decide)
  split_ifs with hroom
  swap
  · exact applyDelta_eq_none hw hparse hroom
  have hzero : zeroed heap (scriptHeader hash script).newSize =
      some (replicate target.length 0) := if_pos hroom
  obtain ⟨-, hlenDiff, hlenExtra⟩ := hw.length_blocks
  obtain ⟨p, happly⟩ := applyEntries_script (i := 0) le_rfl script.staysWithin
    ((zero_add _).trans script.produces) (nil_append _).symm (nil_append _).symm drop_zero
    href htarget (by rw [← hdiff]; omega) (by rw [← hextra]; omega)
  rw [applyDelta_eq hw hparse, hctrl, hdiff, hextra, hcount, need_bind hzero]
  refine (bind_of_ok happly).trans ?_
  have hout : (scriptCursors target target.length p
      (diffBytes ref target 0 0 script.segments).length
      (extraBytes target 0 script.segments).length).out = target := by
    rw [scriptCursors, take_length, Nat.sub_self, replicate_zero, append_nil]
  refine (ensure_bind (by rfl)).trans ((ensure_bind (by rfl)).trans ?_)
  refine (ensure_bind (by rfl)).trans ?_
  rw [hout]
  rfl

/-- A patch that encodes an edit script gives the target back if and only if the allocator serves a
    buffer for it. A patch of any bytes gives an error or the bytes that the documentation asks for,
    with no access out of range, if and only if its header does not ask for more bytes than the
    allocator serves. -/
theorem applyDelta_correct (heap : Heap) (reference : Blob) :
    (∀ (target patch : Blob) (hash : Vector UInt8 32) (script : EditScript reference.1 target.1),
      patch.1 = encodePatch hash script →
        (applyDelta heap reference.1 patch.1 = some (.ok target.1) ↔
          target.1.length ≤ heap.1)) ∧
    ∀ patch : Blob, Documented heap reference.1 patch.1 ↔
      ∀ h, parseHeader patch.1 = some (.ok h) → h.newSize ≤ heap.1 := by
  refine ⟨fun target patch hash script hpatch => ?_, fun patch =>
    documented_iff reference.2 patch.2⟩
  have hlen := patch.2
  rw [hpatch] at hlen ⊢
  rw [applyDelta_encodePatch reference.2 target.2 hlen]
  split_ifs with hroom
  · exact iff_of_true rfl hroom
  · exact iff_of_false (by rintro ⟨⟩) hroom

/-- A script with two pieces, the second one further back in the reference. -/
def swapScript : EditScript [1, 2, 3, 4] [3, 5, 9, 1] where
  segments := [⟨0, 0, 2⟩, ⟨2, 1, -4⟩, ⟨1, 0, 0⟩]
  staysWithin := by decide
  produces := rfl

theorem applyDelta_swapScript :
    applyDelta ⟨4096, by decide⟩ [1, 2, 3, 4] (encodePatch (Vector.replicate 32 0) swapScript) =
      some (.ok [3, 5, 9, 1]) :=
  ((applyDelta_correct ⟨4096, by decide⟩ ⟨[1, 2, 3, 4], by decide⟩).1 ⟨[3, 5, 9, 1], by decide⟩
    ⟨_, by decide +kernel⟩ (Vector.replicate 32 0) swapScript rfl).2 (by decide)

/-- A patch without control entries whose header asks for `2 ^ 63` bytes. -/
def oversized : List UInt8 :=
  patchMagic ++ replicate 32 0 ++ leBytes 8 (2 ^ 63) ++ leBytes 8 0 ++ leBytes 8 0 ++ leBytes 8 0

/-- No allocator serves it, and the applier aborts. -/
theorem not_documented_oversized : ¬∃ heap : Heap, Documented heap [] oversized := by
  have hsize : ∃ h, parseHeader oversized = some (.ok h) ∧ isizeMax < h.newSize :=
    exists_ok (by decide +kernel)
  rintro ⟨heap, hdoc⟩
  obtain ⟨h, hparse, hlarge⟩ := hsize
  have hle := (documented_iff (by decide) (by decide +kernel)).1 hdoc h hparse
  exact absurd (hlarge.trans_le hle) (Nat.not_lt.2 heap.2)

end SmallAIOS.Fs.Delta
