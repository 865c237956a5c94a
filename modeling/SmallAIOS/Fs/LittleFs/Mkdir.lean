import SmallAIOS.Fs.LittleFs.Update

/-!
# Making a directory

`mkdir` takes two free blocks, writes an empty half to the first one, and then enters the directory
in the root. The second block is not erased: what it holds must not be newer than the half in the
first one (`Superseded`), or it is read in its place.

* `Layout.addDir`: the layout with a directory in two blocks that were free;
* `mkdir_keeps`: on a device that does not fail, the invariant is kept if what the free blocks
  hold is superseded.
-/

namespace SmallAIOS.Fs.LittleFs

open Lib Flash List Function Fallible BlockAllocator Mounted

variable {cfg : Config} {s s' s1 s2 : Mounted cfg} {img img' : Image cfg.toGeometry}
  {r p : PairState} {ps : List PairState} {T : ℕ → Prop} {a b id idx : ℕ}
  {name path half : List UInt8}

/-- From `s` to `s'`, no block with the property was handed out. -/
def HandsOut (T : ℕ → Prop) (s s' : Mounted cfg) : Prop :=
  ∃ l, s'.mem.handed = s.mem.handed ++ l ∧ ∀ b ∈ l, ¬T b

theorem HandsOut.of_eq (h : s'.mem.handed = s.mem.handed) : HandsOut T s s' :=
  ⟨[], h.trans (append_nil _).symm, fun _ hb => absurd hb not_mem_nil⟩

theorem HandsOut.trans_eq (h : HandsOut T s s') (heq : s1.mem.handed = s'.mem.handed) :
    HandsOut T s s1 := by
  obtain ⟨l, hl, hfree⟩ := h
  exact ⟨l, heq.trans hl, hfree⟩

/-! ## The medium -/

/-- The entry of a directory. -/
def dirEntry (id : ℕ) (name : List UInt8) (blocks : BlockPair) : PairEntry :=
  ⟨id, tagNameDir, name, tagStructDir, blocks.toBytes⟩

/-- The pair of a directory that has not been written yet. -/
def emptyDir (blocks : BlockPair) : PairState := ⟨blocks, 0, true, [], none, true⟩

/-- What the block holds is not newer than the first half of a pair. -/
def Superseded (img : Image cfg.toGeometry) (b : ℕ) : Prop :=
  (viewOf img b).valid = true → (viewOf img b).revision ≤ 1
  deriving Decidable

theorem entriesOk_nil : EntriesOk cfg [] :=
  ⟨nodup_nil, nodup_nil, fun _ h => absurd h not_mem_nil, fun _ h => absurd h not_mem_nil⟩

/-- An empty half fits in a block. -/
theorem exists_empty_half (hwide : 12 ≤ cfg.blockSize) :
    ∃ half, buildMetadataHalf 1 [] none = some half ∧ half.length ≤ cfg.blockSize := by
  have hbuild : ∃ half, buildMetadataHalf 1 [] none = some half := by
    have htags : ∀ t ∈ halfTags [] none, t.data.length ≤ 0x3FF := fun t ht =>
      absurd ht not_mem_nil
    exact ⟨_, if_pos htags⟩
  obtain ⟨half, hhalf⟩ := hbuild
  exact ⟨half, hhalf, (length_build hhalf).le.trans hwide⟩

/-- An empty half in the first block is what the pair stores. -/
theorem stores_emptyDir (hne : a ≠ b) (hb : Superseded img b)
    (hhalf : buildMetadataHalf 1 [] none = some half) (hlen : half.length ≤ cfg.blockSize) :
    (emptyDir (a, b)).committed.Stores (update img a (.ofBytes _ half)) [] := by
  have hview := view_ofBytes hhalf hlen (Nat.one_lt_two_pow (by decide)) entriesOk_nil
  refine TwoSlot.Holds.of_first ?_ fun q hq => ?_
  · change slots _ (a, b) false = _
    rw [slots, viewOf, show BlockPair.half (a, b) false = a from rfl, update_self, hview]
    rfl
  · -- The second block is as it was.
    change slots _ (a, b) true = _ at hq
    obtain ⟨hq, hvalid, hrev⟩ := slots_eq_some (r := q.1) hq
    rw [viewOf, show BlockPair.half (a, b) true = b from rfl, update_of_ne hne.symm, ← viewOf] at hq
    rw [← hrev, ← hq]
    exact hb (hq ▸ hvalid)

theorem dirBlocks_dirEntry (ha : a < cfg.blockCount) (hb : b < cfg.blockCount) :
    (dirEntry id name (a, b)).dirBlocks = some (a, b) := by
  have hle : cfg.blockCount ≤ 2 ^ 32 := cfg.blockCount_le.trans (by decide)
  have hlen : (BlockPair.toBytes (a, b)).length = 8 := by simp [BlockPair.toBytes]
  have hbytes := ofBytes_toBytes (p := (a, b)) ⟨ha.trans_le hle, hb.trans_le hle⟩
  exact (if_pos ⟨rfl, hlen⟩).trans (congrArg some hbytes)

/-- A directory in two blocks that were free, of which the first one has been written. -/
theorem Layout.addDir (hl : Layout img (r :: ps))
    (hok : EntriesOk cfg (r.entries ++ [dirEntry id name (a, b)])) (hne : a ≠ b)
    (ha : a < cfg.blockCount) (hb : b < cfg.blockCount) (ha' : a ∉ owned img (r :: ps))
    (hb' : b ∉ owned img (r :: ps)) (hi : ∀ x ∈ owned img (r :: ps), img' x = img x)
    (hnew : (emptyDir (a, b)).committed.Stores img' []) :
    Layout img' (r.edited (r.entries ++ [dirEntry id name (a, b)]) ::
        (ps ++ [(emptyDir (a, b)).committed])) ∧
      (owned img' (r.edited (r.entries ++ [dirEntry id name (a, b)]) ::
        (ps ++ [(emptyDir (a, b)).committed]))).Perm ([a, b] ++ owned img (r :: ps)) := by
  have hl' := hl.congr hi
  have hown : (r.edited (r.entries ++ [dirEntry id name (a, b)])).owned img' = r.owned img' := by
    rw [owned_edited, chains_append]
    exact congrArg (fun l => r.blocks.1 :: r.blocks.2 :: l) (append_nil _)
  have hperm : (owned img' (r.edited (r.entries ++ [dirEntry id name (a, b)]) ::
      (ps ++ [(emptyDir (a, b)).committed]))).Perm ([a, b] ++ owned img (r :: ps)) := by
    rw [← owned_congr hi, owned, flatMap_cons, hown, flatMap_append, ← append_assoc]
    exact perm_append_comm
  have hpairs : ∀ x ∈ [a, b], x ∉ owned img (r :: ps) := by
    intro x hx
    rcases mem_pair.1 hx with rfl | rfl
    · exact ha'
    · exact hb'
  refine ⟨⟨?_, fun q hq => ?_, hperm.nodup_iff.2 (nodup_append.2 ⟨?_, hl.nodup, ?_⟩),
    fun x hx => ?_, hl'.mounts, hl.wide⟩, hperm⟩
  · obtain ⟨r', ps', heq, hroot, hsuper, hdirs, hsub⟩ := hl.shape
    obtain ⟨rfl, rfl⟩ := cons.inj heq
    refine ⟨_, _, rfl, hroot, mem_append_left _ hsuper, ?_, fun q hq => ?_⟩
    · change filterMap _ (r.entries ++ [dirEntry id name (a, b)]) = _
      rw [filterMap_append, hdirs, map_append, filterMap_cons, dirBlocks_dirEntry ha hb]
      rfl
    · rcases mem_append.1 hq with hq | hq
      · exact hsub q hq
      · rw [mem_singleton.1 hq]
        rfl
  · rcases mem_cons.1 hq with rfl | hq
    · exact (hl'.pairOk r mem_cons_self).edited hok
    · rcases mem_append.1 hq with hq | hq
      · exact hl'.pairOk q (mem_cons_of_mem _ hq)
      · rw [mem_singleton.1 hq]
        exact ⟨entriesOk_nil, rfl, Nat.one_lt_two_pow (by decide), [], hnew, fun _ => .refl _⟩
  · exact nodup_cons.2 ⟨fun h => hne (mem_singleton.1 h), nodup_singleton _⟩
  · rintro x hx _ hx' rfl
    exact hpairs x hx hx'
  · rcases mem_append.1 (hperm.mem_iff.1 hx) with hx | hx
    · rcases mem_pair.1 hx with rfl | rfl
      · exact ha
      · exact hb
    · exact hl.lt x hx

/-! ## The operation -/

/-- Two blocks are handed out, or nothing has happened but that blocks were handed out. -/
theorem allocTwo_cases {α : Type} (hinv : Inv s) (k : ℕ → ℕ → M cfg α) :
    (∃ err s', (M.allocBlock >>= fun a => M.allocBlock >>= fun b => k a b) s = (.error err, s') ∧
      Apart (fun b => s.mem.allocator.taken b = true) s s' ∧ s'.mem.pairs = s.mem.pairs) ∨
    ∃ a b s', (M.allocBlock >>= fun a => M.allocBlock >>= fun b => k a b) s = k a b s' ∧
      Apart (fun b => s.mem.allocator.taken b = true) s s' ∧ s'.mem.pairs = s.mem.pairs ∧
      s'.dev = s.dev ∧ Held s' [a, b] ∧ s.mem.allocator.taken a = false ∧
      s.mem.allocator.taken b = false := by
  rcases ha : M.allocBlock s with ⟨err | a, s1⟩
  all_goals
    obtain ⟨hap, hpairs, hdev, hkeep, hok, -⟩ := allocBlock_spec hinv.sound (fun _ h => h) ha
  · exact .inl ⟨err, s1, bind_of_error ha, hap, hpairs⟩
  rw [bind_of_ok ha]
  obtain ⟨hfree, hheld⟩ := hok a rfl
  rcases hb : M.allocBlock s1 with ⟨err | b, s2⟩
  all_goals
    obtain ⟨hap2, hpairs2, hdev2, hkeep2, hok2, -⟩ := allocBlock_spec hap.sound (fun _ h => h) hb
    have htrans := hap.trans (hap2.mono hap.taken)
  · exact .inl ⟨err, s2, bind_of_error hb, htrans, hpairs2.trans hpairs⟩
  obtain ⟨hfree2, hheld2⟩ := hok2 b rfl
  have hataken := hheld.taken a mem_cons_self
  have hne : a ≠ b := by
    rintro rfl
    rw [hfree2] at hataken
    cases hataken
  refine .inr ⟨a, b, s2, bind_of_ok hb, htrans, hpairs2.trans hpairs, hdev2.trans hdev,
    ⟨?_, ?_, ?_, ?_⟩, hfree, ?_⟩
  · exact nodup_cons.2 ⟨fun h => hne (mem_singleton.1 h), nodup_singleton _⟩
  · exact forall_mem_cons.2 ⟨hheld.lt a mem_cons_self, hheld2.lt⟩
  · exact forall_mem_cons.2 ⟨(hkeep2 a hataken).1, hheld2.taken⟩
  · refine forall_mem_cons.2 ⟨?_, hheld2.good⟩
    exact (hkeep2 a hataken).2.trans (hheld.good a mem_cons_self)
  · by_contra hne
    have := (hkeep b (by simpa using hne)).1
    rw [hfree2] at this
    cases this

/-- The directory in the two blocks is in memory, but not on the medium. -/
def Mounted.entered (s : Mounted cfg) (id : ℕ) (name : List UInt8) (blocks : BlockPair) :
    Mounted cfg :=
  let s := s.editEntries 0 (· ++ [dirEntry id name blocks])
  { s with mem := { s.mem with pairs := s.mem.pairs ++ [emptyDir blocks] } }

theorem pairs_entered (hpairs : s.mem.pairs = r :: ps) (id : ℕ) (name : List UInt8)
    (blocks : BlockPair) : (s.entered id name blocks).mem.pairs =
      r.edited (r.entries ++ [dirEntry id name blocks]) :: (ps ++ [emptyDir blocks]) := by
  change s.mem.pairs.modify 0 _ ++ _ = _
  rw [hpairs]
  rfl

theorem modify_concat {α : Type*} (l : List α) (x : α) (f : α → α) :
    (l ++ [x]).modify l.length f = l ++ [f x] := by
  induction l with
  | nil => rfl
  | cons y l ih => rw [cons_append, length_cons, modify_succ_cons, ih]; rfl

section

variable (hok : EntriesOk cfg (r.entries ++ [dirEntry id name (a, b)]))
include hok

/-- The invariant holds once the pair of the directory is on the medium. -/
theorem Calm.addDir (h : Calm s) (hpairs : s.mem.pairs = r :: ps) (hheld : Held s [a, b])
    (hfree : ∀ x ∈ [a, b], x ∉ owned s.dev.image s.mem.pairs)
    (himg : ∀ x ≠ a, s1.dev.image x = s.dev.image x)
    (hnew : (emptyDir (a, b)).committed.Stores s1.dev.image [])
    (hpairs1 : s1.mem.pairs = r.edited (r.entries ++ [dirEntry id name (a, b)]) ::
      (ps ++ [(emptyDir (a, b)).committed]))
    (halloc : s1.mem.allocator = s.mem.allocator.noteErase a) (hbad : s1.dev.bad = s.dev.bad)
    (hbbt : s1.mem.bbt = s.mem.bbt) (hf : NoFaults s1) : Steady s1 := by
  have ha := hfree a mem_cons_self
  have hb := hfree b (mem_cons_of_mem _ mem_cons_self)
  have hne : a ≠ b := fun heq => (nodup_cons.1 hheld.nodup).1 (heq ▸ mem_singleton_self _)
  rw [hpairs] at ha hb
  obtain ⟨hlayout, hperm⟩ := (hpairs ▸ h.inv.toLayout).addDir hok hne
    (hheld.lt a mem_cons_self) (hheld.lt b (mem_cons_of_mem _ mem_cons_self)) ha hb
    (fun x hx => himg x fun heq => ha (heq ▸ hx)) hnew
  -- Every pair but the new one was there before.
  have hmem : ∀ q ∈ s1.mem.pairs, q = (emptyDir (a, b)).committed ∨
      ∃ q' ∈ s.mem.pairs, q'.blocks = q.blocks ∧ q'.revision = q.revision := by
    intro q hq
    rw [hpairs1, mem_cons, mem_append, mem_singleton] at hq
    rw [hpairs]
    rcases hq with rfl | hq | rfl
    · exact .inr ⟨r, mem_cons_self, rfl, rfl⟩
    · exact .inr ⟨q, mem_cons_of_mem _ hq, rfl, rfl⟩
    · exact .inl rfl
  have hinv : Inv s1 := by
    refine ⟨hpairs1 ▸ hlayout, fun x hx => ?_, fun q hq i => ?_, ?_, ?_⟩
    · rw [hpairs1] at hx
      rw [halloc, taken_noteErase]
      rcases mem_append.1 (hperm.mem_iff.1 hx) with hx | hx
      · exact hheld.taken x hx
      · exact h.inv.taken x (hpairs ▸ hx)
    · rw [halloc, bad_noteErase]
      rcases hmem q hq with rfl | ⟨q', hq', hblocks, -⟩
      · cases i
        · exact hheld.good a mem_cons_self
        · exact hheld.good b (mem_cons_of_mem _ mem_cons_self)
      · exact hblocks ▸ h.inv.good q' hq' i
    · rw [halloc, bad_noteErase, hbad, hbbt]
      exact h.inv.bad
    · rw [halloc, blockCount_noteErase]
      exact h.inv.blockCount_eq
  refine ⟨hinv, fun q hq i => hf _ (half_lt hinv.lt hq i), fun q hq hd => ?_⟩
  rcases hmem q hq with rfl | ⟨q', hq', -, hrev⟩
  · cases hd
  · have := h.low q' hq'
    omega

/-- The pair of the directory is written, and the invariant holds. -/
theorem Calm.entered (h : Calm s) (hf : NoFaults s) (hpairs : s.mem.pairs = r :: ps)
    (hheld : Held s [a, b]) (hfree : ∀ x ∈ [a, b], x ∉ owned s.dev.image s.mem.pairs)
    (hold : Superseded s.dev.image b) :
    ∃ s1, commitPair (ps.length + 1) (s.entered id name (a, b)) = (.ok ⟨⟩, s1) ∧ Steady s1 ∧
      s1.mem.handed = s.mem.handed ∧
      s1.mem.pairs[0]? = some (r.edited (r.entries ++ [dirEntry id name (a, b)])) := by
  obtain ⟨half, hhalf, hlen⟩ := exists_empty_half h.inv.wide
  have hne : a ≠ b := fun heq => (nodup_cons.1 hheld.nodup).1 (heq ▸ mem_singleton_self _)
  have hlt := hheld.lt a mem_cons_self
  have hgood := h.inv.not_bad hlt (hheld.good a mem_cons_self)
  have hent := pairs_entered hpairs id name (a, b)
  have hget : (s.entered id name (a, b)).mem.pairs[ps.length + 1]? = some (emptyDir (a, b)) := by
    rw [hent, getElem?_cons_succ, getElem?_append_right le_rfl, Nat.sub_self]
    rfl
  have hready : Ready (s.entered id name (a, b)) (emptyDir (a, b)) :=
    ⟨hlt, hgood.1, hgood.2, hf a hlt, fun _ => Nat.one_lt_two_pow (by decide)⟩
  have hbuild : buildMetadataHalf ((emptyDir (a, b)).revision + 1) (emptyDir (a, b)).entries
      (emptyDir (a, b)).tail = some half := hhalf
  have hpairs1 : ((s.entered id name (a, b)).committed (ps.length + 1) (emptyDir (a, b))
      half).mem.pairs = r.edited (r.entries ++ [dirEntry id name (a, b)]) ::
        (ps ++ [(emptyDir (a, b)).committed]) := by
    change (s.entered id name (a, b)).mem.pairs.modify _ _ = _
    rw [hent, modify_succ_cons, modify_concat]
  refine ⟨(s.entered id name (a, b)).committed (ps.length + 1) (emptyDir (a, b)) half, ?_, ?_, rfl,
    by rw [hpairs1]; rfl⟩
  · rw [commitPair_eq hget hready rfl, hbuild]
    exact if_neg (Nat.not_lt.2 hlen)
  · have himg : ((s.entered id name (a, b)).committed (ps.length + 1) (emptyDir (a, b))
        half).dev.image = update s.dev.image a (.ofBytes _ half) := image_written
    refine h.addDir hok hpairs hheld hfree (fun x hx => ?_) ?_ hpairs1 rfl rfl rfl fun x hx => ?_
    · rw [himg, update_of_ne hx]
    · rw [himg]
      exact stores_emptyDir hne hold hhalf hlen
    · exact faults_written (hf x hx)

end

/-- The blocks that are handed out are not in use, and the invariant is kept. -/
theorem mkdir_keeps (h : Calm s) (hf : NoFaults s)
    (hold : ∀ b < cfg.blockCount, s.mem.allocator.taken b = false → Superseded s.dev.image b)
    (path : List UInt8) :
    Inv (mkdir path s).2 ∧
      HandsOut (fun b => s.mem.allocator.taken b = true) s (mkdir path s).2 := by
  have hstay : ∀ e : Option LittleFsError, Inv ((.error e, s) : Except _ PUnit × Mounted cfg).2 ∧
      HandsOut (fun b => s.mem.allocator.taken b = true) s s := fun _ => ⟨h.inv, .of_eq rfl⟩
  obtain ⟨r, ps, hpairs, hroot, -⟩ := h.inv.shape
  rw [mkdir]
  obtain ⟨err, heq⟩ | ⟨addr, name, -, heq⟩ := atPath_cases path _ s <;> rw [heq]
  · exact hstay _
  split_ifs with haddr
  · exact hstay _
  rw [not_not.1 haddr, atPair_root hpairs hroot]
  cases htaken : nameTaken r.entries name with
  | true => exact hstay (some .badType)
  | false =>
    rw [if_neg Bool.false_ne_true]
    obtain ⟨err, s1, heq, hap, hpairs1⟩ | ⟨a, b, s1, heq, hap, hpairs1, hdev, hheld, ha, hb⟩ :=
      allocTwo_cases h.inv fun a b => _ <;> rw [heq]
    · exact ⟨h.inv.of_apart hap hpairs1 h.inv.taken, hap.handed⟩
    have hinv1 := h.inv.of_apart hap hpairs1 h.inv.taken
    cases hid : freshId r.entries with
    | none => exact ⟨hinv1, hap.handed⟩
    | some id =>
      obtain ⟨hpos, hlt, hne⟩ := freshId_eq_some hid
      have hpairs' := hpairs1.trans hpairs
      have hquiet : Quiet s1 := by
        rw [Quiet, hpairs1, hdev]
        exact h.quiet
      have hcalm : Calm s1 := ⟨hinv1, hquiet, hpairs1 ▸ h.low⟩
      have hfree : ∀ x ∈ [a, b], x ∉ owned s1.dev.image s1.mem.pairs := by
        rw [hdev, hpairs1]
        intro x hx hmem
        have htaken := h.inv.taken x hmem
        rcases mem_pair.1 hx with rfl | rfl
        · rw [ha] at htaken
          cases htaken
        · rw [hb] at htaken
          cases htaken
      have hentries := (h.inv.pairOk r (hpairs ▸ mem_cons_self)).entries
      have hok : EntriesOk cfg (r.entries ++ [dirEntry id name (a, b)]) := hentries.concat hne hlt
        (nameTaken_eq_false htaken).2 (.dir hpos rfl rfl (by simp [dirEntry, BlockPair.toBytes]))
      have hf1 : NoFaults s1 := fun x hx => by
        rw [hdev]
        exact hf x hx
      obtain ⟨s2, hcommit, hsteady, hhanded, hget⟩ := hcalm.entered hok hf1 hpairs' hheld hfree
        (hdev ▸ hold b (hheld.lt b (mem_cons_of_mem _ mem_cons_self)) hb)
      have hlen : (s1.entered id name (a, b)).mem.pairs.length - 1 = ps.length + 1 := by
        rw [pairs_entered hpairs' id name, length_cons, length_append]
        rfl
      change Inv ((commitPair ((s1.entered id name (a, b)).mem.pairs.length - 1) >>= fun _ =>
          commitPair 0) (s1.entered id name (a, b))).2 ∧
        HandsOut _ s ((commitPair ((s1.entered id name (a, b)).mem.pairs.length - 1) >>= fun _ =>
          commitPair 0) (s1.entered id name (a, b))).2
      rw [hlen, bind_of_ok hcommit]
      have hc := hsteady.committing hget
      refine ⟨(hsteady.of_committing hget hc).inv, HandsOut.trans_eq hap.handed ?_⟩
      exact hc.handed_eq.trans hhanded

end SmallAIOS.Fs.LittleFs
