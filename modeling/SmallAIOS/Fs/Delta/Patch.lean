import SmallAIOS.Fs.Delta.Apply

/-!
# Patches of any bytes

The header of a patch is parsed if its lengths are those of the blocks that follow
(`parseHeader_spec`). Then applying the patch is an error, or gives the bytes that
the documentation of the format asks for, and never reads or writes out of range,
if and only if the header does not ask for a result that is too large for the allocator
(`documented_iff`): in that case the applier aborts.
-/

namespace SmallAIOS.Fs.Delta

open Lib Checked List Word

variable {heap : Heap} {ref : List UInt8}

/-- The header that the first bytes of a patch stand for. -/
def rawHeader (patch : List UInt8) : PatchHeader where
  referenceHash := (patch.drop 16).take 32
  newSize := leVal ((patch.drop 48).take 8)
  ctrlLen := leVal ((patch.drop 56).take 8)
  diffLen := leVal ((patch.drop 64).take 8)
  extraLen := leVal ((patch.drop 72).take 8)

/-- The bytes start with a header whose lengths are those of the blocks that follow. -/
structure WellFormed (patch : List UInt8) (h : PatchHeader) : Prop where
  header : patchHeaderLen ≤ patch.length
  magic : patch.take 16 = patchMagic
  eq_rawHeader : h = rawHeader patch
  total : patchHeaderLen + h.ctrlLen + h.diffLen + h.extraLen = patch.length
  ctrl : h.ctrlLen % ctrlEntryLen = 0

variable {patch : List UInt8} {h : PatchHeader}

/-- The length of a patch is a word. -/
theorem PatchHeader.totalLen_eq : lift h.totalLen = (do
    ensure (patchHeaderLen + h.ctrlLen + h.diffLen + h.extraLen < 2 ^ 64) .headerInconsistent
    pure (patchHeaderLen + h.ctrlLen + h.diffLen + h.extraLen)) := by
  rw [totalLen, add_bind_add, add_bind_add, add, ensure]
  split_ifs
  · rfl
  · rfl

/-- The header is parsed if the patch is well formed. If not this is an error. -/
theorem parseHeader_spec (hpatch : patch.length ≤ isizeMax) :
    Decides (parseHeader patch) (WellFormed patch (rawHeader patch)) (rawHeader patch) := by
  have hmax : isizeMax = 2 ^ 63 - 1 := rfl
  refine .ensure (fun hw => hw.header) fun h1 => ?_
  have hslice (a b : ℕ) (hab : a ≤ b) (hb : b ≤ patchHeaderLen) :
      slice patch a b = some ((patch.drop a).take (b - a)) := slice_eq hab (hb.trans h1)
  rw [need_bind (hslice 0 16 (by decide) (by decide))]
  refine .ensure (fun hw => hw.magic) fun h2 => ?_
  rw [need_bind (hslice 16 48 (by decide) (by decide)),
    need_bind (hslice 48 56 (by decide) (by decide)),
    need_bind (hslice 56 64 (by decide) (by decide)),
    need_bind (hslice 64 72 (by decide) (by decide)),
    need_bind (hslice 72 80 (by decide) (by decide))]
  change Decides (lift (rawHeader patch).totalLen >>= _) _ _
  rw [PatchHeader.totalLen_eq]
  refine .checked (fun hw => ?_) fun _ => .ensure (fun hw => hw.total.symm) fun h3 => ?_
  · have := hw.total
    omega
  exact .ensure (fun hw => hw.ctrl) fun h4 => .inl ⟨⟨h1, h2, rfl, h3.symm, h4⟩, rfl⟩

/-- The control block of a patch. -/
def ctrlBlock (patch : List UInt8) (h : PatchHeader) : List UInt8 :=
  (patch.drop patchHeaderLen).take h.ctrlLen

/-- The block of differences. -/
def diffBlock (patch : List UInt8) (h : PatchHeader) : List UInt8 :=
  (patch.drop (patchHeaderLen + h.ctrlLen)).take h.diffLen

/-- The block of extra bytes. -/
def extraBlock (patch : List UInt8) (h : PatchHeader) : List UInt8 :=
  (patch.drop (patchHeaderLen + h.ctrlLen + h.diffLen)).take h.extraLen

/-- The bytes that the documentation of the format asks for. -/
def Bspatch (reference patch : List UInt8) (h : PatchHeader) (new : List UInt8) : Prop :=
  Recurrence reference (diffBlock patch h) (extraBlock patch h) new 0 0 0 0
    (controlEntries (h.ctrlLen / ctrlEntryLen) (ctrlBlock patch h))

theorem WellFormed.length_blocks (hw : WellFormed patch h) :
    (ctrlBlock patch h).length = h.ctrlLen ∧ (diffBlock patch h).length = h.diffLen ∧
      (extraBlock patch h).length = h.extraLen := by
  have htotal := hw.total
  simp only [ctrlBlock, diffBlock, extraBlock, length_take, length_drop]
  omega

/-- Once the header is parsed, the control block is applied to a buffer of zeros. -/
theorem applyDelta_eq (hw : WellFormed patch h) (hparse : parseHeader patch = some (.ok h)) :
    applyDelta heap ref patch = (do
      let out ← need (zeroed heap h.newSize)
      let c ← applyEntries ref (diffBlock patch h) (extraBlock patch h) h.newSize
        (ctrlBlock patch h) (h.ctrlLen / ctrlEntryLen) 0 ⟨out, 0, 0, 0, 0⟩
      ensure (c.newPtr = h.newSize) .newSizeMismatch
      ensure (c.diffPtr = (diffBlock patch h).length) .diffTruncated
      ensure (c.extraPtr = (extraBlock patch h).length) .extraTruncated
      pure c.out) := by
  have htotal := hw.total
  have hslice (a n : ℕ) (hn : a + n ≤ patch.length) :
      slice patch a (a + n) = some ((patch.drop a).take n) := by
    rw [slice_eq (Nat.le_add_right a n) hn, Nat.add_sub_cancel_left]
  rw [applyDelta, bind_of_ok hparse, need_bind (hslice _ _ (by omega)),
    need_bind (hslice _ _ (by omega)), need_bind (hslice _ _ (by omega))]
  change (need (zeroed heap h.newSize) >>= fun out => applyEntries ref (diffBlock patch h)
    (extraBlock patch h) h.newSize (ctrlBlock patch h)
    ((ctrlBlock patch h).length / ctrlEntryLen) 0 ⟨out, 0, 0, 0, 0⟩ >>= _) = _
  rw [hw.length_blocks.1]
  rfl

/-- The allocator does not serve what the header asks for. -/
theorem applyDelta_eq_none (hw : WellFormed patch h) (hparse : parseHeader patch = some (.ok h))
    (hlarge : ¬h.newSize ≤ heap.1) : applyDelta heap ref patch = none := by
  rw [applyDelta_eq hw hparse, zeroed, if_neg hlarge]
  rfl

/-- The result is an error, or the bytes that the documentation asks for, as many as the header
    says. -/
def Documented (heap : Heap) (reference patch : List UInt8) : Prop :=
  Fails (applyDelta heap reference patch) ∨
    ∃ h out, parseHeader patch = some (.ok h) ∧ applyDelta heap reference patch = some (.ok out) ∧
      out.length = h.newSize ∧ ∀ new, Bspatch reference patch h new ↔ new = out

section

variable (href : ref.length ≤ isizeMax) (hpatch : patch.length ≤ isizeMax)
include href hpatch

/-- The cursors at the beginning. -/
theorem WellFormed.ready (hw : WellFormed patch h) (hsize : h.newSize ≤ isizeMax) :
    Ready ref (diffBlock patch h) (extraBlock patch h) h.newSize
      ⟨replicate h.newSize 0, 0, 0, 0, 0⟩ := by
  have hmax : isizeMax = 2 ^ 63 - 1 := rfl
  have htotal := hw.total
  obtain ⟨-, hdiff, hextra⟩ := hw.length_blocks
  exact ⟨length_replicate, Nat.zero_le _, hsize, by omega, by omega, href⟩

theorem documented_of_newSize_le (hw : WellFormed patch h)
    (hparse : parseHeader patch = some (.ok h)) (hsize : h.newSize ≤ heap.1) :
    Documented heap ref patch := by
  have hctrl : (0 + h.ctrlLen / ctrlEntryLen) * ctrlEntryLen ≤ (ctrlBlock patch h).length := by
    rw [hw.length_blocks.1, Nat.zero_add]
    exact Nat.div_mul_le_self _ _
  have heq : applyDelta heap ref patch = _ := applyDelta_eq hw hparse
  have hzero : zeroed heap h.newSize = some (replicate h.newSize 0) := if_pos hsize
  rw [need_bind hzero] at heq
  obtain hfails | ⟨c, hc, hout, -, -, hrec⟩ := applyEntries_sound hctrl
    (hw.ready href hpatch (hsize.trans heap.2))
  · exact .inl (heq ▸ hfails.bind)
  have hends : Decides (applyDelta heap ref patch) (c.newPtr = h.newSize ∧
      c.diffPtr = (diffBlock patch h).length ∧ c.extraPtr = (extraBlock patch h).length) c.out := by
    rw [heq, bind_of_ok hc]
    exact .ensure (fun hc => hc.1) fun h1 => .ensure (fun hc => hc.2.1) fun h2 =>
      .ensure (fun hc => hc.2.2) fun h3 => .inl ⟨⟨h1, h2, h3⟩, rfl⟩
  obtain ⟨⟨h1, h2, h3⟩, hok⟩ | ⟨-, hfails⟩ := hends
  · have hpatched := hrec h1 h2 h3
    exact .inr ⟨h, c.out, hparse, hok, hout, fun new =>
      ⟨fun hnew => ext_getElem? fun k => hnew.unique hpatched k (Nat.zero_le k),
        fun hnew => hnew ▸ hpatched⟩⟩
  · exact .inl hfails

/-- A patch gives an error or what the documentation asks for unless its header asks for a result
    that is too large. -/
theorem documented_iff :
    Documented heap ref patch ↔ ∀ h, parseHeader patch = some (.ok h) → h.newSize ≤ heap.1 := by
  obtain ⟨hw, hparse⟩ | ⟨-, hfails⟩ := parseHeader_spec hpatch
  · refine ⟨fun hdoc h hparse' => ?_, fun hsize =>
      documented_of_newSize_le href hpatch hw hparse (hsize _ hparse)⟩
    obtain rfl : rawHeader patch = h := Except.ok.inj (Option.some.inj (hparse.symm.trans hparse'))
    by_contra hlarge
    have hnone : applyDelta heap ref patch = none := applyDelta_eq_none hw hparse hlarge
    obtain ⟨e, he⟩ | ⟨_, _, -, he, -⟩ := hdoc
    · rw [hnone] at he
      cases he
    · rw [hnone] at he
      cases he
  · refine ⟨fun _ h hparse => ?_, fun _ => .inl hfails.bind⟩
    obtain ⟨e, he⟩ := hfails
    rw [he] at hparse
    cases hparse

end

end SmallAIOS.Fs.Delta
