import SmallAIOS.Fs.LittleFs.Flush
import Mathlib.Data.List.Flatten

/-!
# Operations that change a directory

`create`, `remove`, `rename` and `rmdir` check what they need, change the entries of the directory
in memory, and commit it. `Updating` says this of how they end: they are refused and nothing has
changed, or the device is as before up to the commit, and the invariant holds at that point
(`create_updating`, `remove_updating`, `rename_updating`, `rmdir_updating`).
-/

namespace SmallAIOS.Fs.LittleFs

open Lib Flash List PairEntry BlockAllocator Mounted M PairState

variable {cfg : Config} {s s' s₁ : Mounted cfg} {p : PairState} {e e' : PairEntry}
  {es l1 l2 : List PairEntry} {idx b : ℕ} {name path : List UInt8}

/-- What holds at the start of a call: the invariant, with metadata pairs that do not fail and whose
    revisions are not about to wrap around. -/
structure Calm (s : Mounted cfg) : Prop where
  inv : Inv s
  quiet : Quiet s
  low : ∀ p ∈ s.mem.pairs, p.revision + 2 < 2 ^ 32

theorem Calm.steady (h : Calm s) : Steady s :=
  ⟨h.inv, h.quiet, fun p hp _ => (Nat.lt_succ_self _).trans (h.low p hp)⟩

/-- How an operation on the path ends that changes the directory of the path. -/
inductive Updating (s : Mounted cfg) (path : List UInt8) :
    Except (Option LittleFsError) PUnit × Mounted cfg → Prop
  | refused (err : Option LittleFsError) : Updating s path (.error err, s)
  | commits (s₁ : Mounted cfg) (idx : ℕ) (p : PairState) (name : List UInt8)
    (hdir : resolveParent s.dev.image path = .ok (p.blocks, name)) (hdev : s₁.dev = s.dev)
    (hhanded : s₁.mem.handed = s.mem.handed) (hs : Steady s₁) (hp : s₁.mem.pairs[idx]? = some p) :
    Updating s path (commitPair idx s₁)

/-! ## Changing entries -/

variable {α : Type}

/-- The pair is found by its blocks, or the operation is refused. -/
theorem atPair_cases (addr : BlockPair) (k : ℕ → PairState → M cfg α) (s : Mounted cfg) :
    atPair addr k s = (.error (some .notFound), s) ∨ ∃ idx p, s.mem.pairs[idx]? = some p ∧
      p.blocks = addr ∧ atPair addr k s = k idx p s := by
  rw [atPair]
  cases hf : s.mem.pairs.zipIdx.find? fun q => q.1.blocks = addr with
  | none => exact .inl rfl
  | some q =>
    refine .inr ⟨q.2, q.1, ?_, by simpa using find?_some hf, rfl⟩
    exact mem_zipIdx_iff_getElem?.1 (mem_of_find?_eq_some hf)

theorem atPath_cases (path : List UInt8) (k : BlockPair → List UInt8 → M cfg α)
    (s : Mounted cfg) : (∃ err, atPath path k s = (.error (some err), s)) ∨
      ∃ addr name, resolveParent s.dev.image path = .ok (addr, name) ∧
        atPath path k s = k addr name s := by
  rw [atPath]
  rcases resolveParent s.dev.image path with err | ⟨addr, name⟩
  · exact .inl ⟨err, rfl⟩
  · exact .inr ⟨addr, name, rfl, rfl⟩

/-- The directory of the path is found, or the operation is refused. -/
theorem inParent_cases (path : List UInt8) (k : ℕ → PairState → List UInt8 → M cfg α)
    (s : Mounted cfg) : (∃ err, inParent path k s = (.error (some err), s)) ∨
      ∃ idx p name, resolveParent s.dev.image path = .ok (p.blocks, name) ∧
        s.mem.pairs[idx]? = some p ∧ inParent path k s = k idx p name s := by
  rw [inParent]
  obtain ⟨err, heq⟩ | ⟨addr, name, hdir, heq⟩ := atPath_cases path _ s <;> rw [heq]
  · exact .inl ⟨err, rfl⟩
  · obtain heq | ⟨idx, p, hp, rfl, heq⟩ := atPair_cases addr _ s <;> rw [heq]
    · exact .inl ⟨_, rfl⟩
    · exact .inr ⟨idx, p, name, hdir, hp, rfl⟩

variable {f : List PairEntry → List PairEntry} {typ : ℕ}

section

variable (hp : s.mem.pairs[idx]? = some p)
include hp

/-- The entries of a pair change, and no file is put in a chain. -/
theorem Inv.editEntries (hinv : Inv s) (hes : EntriesOk cfg (f p.entries))
    (hsb : superblockEntry cfg ∈ p.entries → superblockEntry cfg ∈ f p.entries)
    (hdirs : (f p.entries).filterMap dirBlocks = p.entries.filterMap dirBlocks)
    (hs : (chains s.dev.image (f p.entries)).Sublist (chains s.dev.image p.entries)) :
    Inv (s.editEntries idx f) := by
  obtain ⟨pairs1, pairs2, hl, hedit⟩ := pairs_editEntries hp
  have hlayout : Layout s.dev.image (pairs1 ++ p :: pairs2) := hl ▸ hinv.toLayout
  have hnew := hlayout.editEntries hes hsb hdirs hs
  refine ⟨hedit ▸ hnew, fun b hb => ?_, fun x hx i => ?_, hinv.bad, hinv.blockCount_eq⟩
  · rw [hedit] at hb
    exact hinv.taken b (hl ▸ (owned_edited_sublist hs).subset hb)
  · have hsame : (p.edited (f p.entries)).blocks = p.blocks := rfl
    obtain ⟨y, hy, heq⟩ := exists_blocks_eq hsame (hedit ▸ hx)
    exact heq ▸ hinv.good y (hl ▸ hy) i

/-- The pairs are where they were, with the same revisions. -/
theorem mem_editEntries {q : PairState} (hq : q ∈ (s.editEntries idx f).mem.pairs) :
    ∃ q' ∈ s.mem.pairs, q'.blocks = q.blocks ∧ q'.revision = q.revision := by
  obtain ⟨pairs1, pairs2, hl, hedit⟩ := pairs_editEntries hp
  rw [hedit] at hq
  rw [hl]
  rcases mem_middle.1 hq with rfl | hq
  · exact ⟨p, mem_append_cons_self, rfl, rfl⟩
  · exact ⟨q, mem_middle.2 (.inr hq), rfl, rfl⟩

theorem Calm.editEntries (h : Calm s) (hinv : Inv (s.editEntries idx f)) :
    Calm (s.editEntries idx f) := by
  refine ⟨hinv, fun q hq i => ?_, fun q hq => ?_⟩
  · obtain ⟨q', hq', hblocks, -⟩ := mem_editEntries hp hq
    exact hblocks ▸ h.quiet q' hq' i
  · obtain ⟨q', hq', -, hrev⟩ := mem_editEntries hp hq
    exact hrev ▸ h.low q' hq'

theorem getElem?_editEntries :
    (s.editEntries idx f).mem.pairs[idx]? = some (p.edited (f p.entries)) := by
  change (s.mem.pairs.modify idx _)[idx]? = _
  rw [getElem?_modify_eq, hp]
  rfl

/-- The directory of the path is changed in memory, and committed. -/
theorem Updating.edit (h : Calm s) (hdir : resolveParent s.dev.image path = .ok (p.blocks, name))
    (hinv : Inv (s.editEntries idx f)) : Updating s path (commitPair idx (s.editEntries idx f)) :=
  .commits _ _ _ name (by exact hdir) rfl rfl (h.editEntries hp hinv).steady
    (getElem?_editEntries hp)

end

/-! ## create -/

/-- An empty file is added to a directory. -/
theorem Inv.newFile {id : ℕ} (hinv : Inv s) (hp : s.mem.pairs[idx]? = some p)
    (hid : freshId p.entries = some id) (hname : p.entries.find? (named name tagNameReg) = none) :
    Inv (s.editEntries idx (· ++ [newFile id name])) := by
  obtain ⟨hpos, hlt, hne⟩ := freshId_eq_some hid
  have hok := (hinv.pairOk p (mem_of_getElem? hp)).entries
  have hnone : (LittleFs.newFile id name).dirBlocks = none :=
    (.inline hpos rfl rfl : PairEntry.Formed cfg _).dirBlocks_eq_none
      (by decide : tagNameReg ≠ _)
  refine hinv.editEntries hp (hok.concat hne hlt hname (.inline hpos rfl rfl))
    ((mem_append_left _)) ?_ ?_
  · rw [filterMap_append, filterMap_cons]
    exact append_nil _
  · rw [chains_append]
    change _ ++ [] <+ _
    rw [append_nil]

theorem create_updating (h : Calm s) (path : List UInt8) : Updating s path (create path s) := by
  rw [create]
  obtain ⟨err, heq⟩ | ⟨idx, p, name, hdir, hp, heq⟩ := inParent_cases path _ s <;> rw [heq]
  · exact .refused _
  · cases htaken : nameTaken p.entries name with
    | true => exact .refused _
    | false =>
      cases hid : freshId p.entries with
      | none => exact .refused _
      | some id => exact .edit hp h hdir (h.inv.newFile hp hid (nameTaken_eq_false htaken).1)

/-! ## remove -/

/-- An entry is taken out of a directory, and its blocks are not in use any more. -/
theorem Inv.eraseP {q : PairEntry → Bool} (hinv : Inv s) (hp : s.mem.pairs[idx]? = some p)
    (he : p.entries.find? q = some e) (hsb : e.typName ≠ tagNameSuperblock)
    (hdir : e.dirBlocks = none) :
    Inv (s.editEntries idx (List.eraseP q)) ∧
      ∀ b ∈ owned s.dev.image (s.editEntries idx (List.eraseP q)).mem.pairs,
        b ∉ e.chain s.dev.image := by
  obtain ⟨l1, l2, hentries, herase, -⟩ := find?_split he
  obtain ⟨pairs1, pairs2, hl, hedit⟩ := pairs_editEntries hp
  have hok := (hinv.pairOk p (mem_of_getElem? hp)).entries
  have hsub : (l1 ++ l2).Sublist p.entries := hentries ▸
    (List.Sublist.refl l1).append (sublist_cons_self e l2)
  constructor
  · refine hinv.editEntries hp (herase ▸ hok.sublist hsub) (fun h => ?_) ?_ ?_ <;> rw [herase]
    · rw [hentries] at h
      exact (mem_middle.1 h).resolve_left fun heq => hsb (heq ▸ rfl)
    · rw [hentries, filterMap_append, filterMap_append, filterMap_cons, hdir]
    · exact hsub.flatMap _
  · have hperm : (owned s.dev.image (pairs1 ++ p :: pairs2)).Perm (e.chain s.dev.image ++
        owned s.dev.image (pairs1 ++ p.edited (l1 ++ l2) :: pairs2)) := by
      refine owned_perm rfl ?_
      change (chains _ p.entries).Perm (_ ++ chains _ (l1 ++ l2))
      rw [hentries, chains_append]
      refine (perm_append_comm_assoc ..).trans ?_
      rw [chains, chains, chains, flatMap_append]
    intro b hb hb'
    rw [hedit, herase] at hb
    exact (nodup_append.1 (hperm.nodup_iff.1 (hl ▸ hinv.nodup))).2.2 b hb' b hb rfl

theorem remove_updating (h : Calm s) (path : List UInt8) : Updating s path (remove path s) := by
  rw [remove]
  obtain ⟨err, heq⟩ | ⟨idx, p, name, hdir, hp, heq⟩ := inParent_cases path _ s <;> rw [heq]
  · exact .refused _
  · cases he : p.entries.find? (named name tagNameReg) with
    | none => exact .refused _
    | some e =>
      have hp' := mem_of_getElem? hp
      have he' := mem_of_find?_eq_some he
      have hreg := (named_iff.1 (find?_some he)).1
      have hnone := ((h.inv.pairOk p hp').entries.formed e he').dirBlocks_eq_none
        (by rw [hreg]; decide)
      obtain ⟨hinv, hfree⟩ := h.inv.eraseP hp he (by rw [hreg]; decide) hnone
      rw [ofOption_some_bind, Fallible.bind_of_ok (releaseChain_eq (h.inv.chain_lt hp' he'))]
      have hcalm := h.editEntries hp hinv
      refine .commits _ idx (p.edited _) name hdir rfl rfl ?_ (getElem?_editEntries hp)
      exact Calm.steady ⟨hcalm.inv.of_apart (.released hcalm.inv.sound hcalm.inv.taken hfree) rfl
        fun _ hb => hb, hcalm.quiet, hcalm.low⟩

/-! ## rename -/

theorem typeOf_eq_some (h : typeOf es name = some typ) :
    (typ = tagNameReg ∨ typ = tagNameDir) ∧ ∃ e, es.find? (named name typ) = some e := by
  have hex : ∀ t, es.any (named name t) = true → ∃ e, es.find? (named name t) = some e := by
    intro t ht
    obtain ⟨e, he, hn⟩ := any_eq_true.1 ht
    exact Option.isSome_iff_exists.1 (find?_isSome.2 ⟨e, he, hn⟩)
  rw [typeOf] at h
  split_ifs at h with hreg hdir
  · cases h
    exact ⟨.inl rfl, hex _ hreg⟩
  · cases h
    exact ⟨.inr rfl, hex _ hdir⟩

theorem PairEntry.Formed.rename (h : e.Formed cfg) (hsb : e.typName ≠ tagNameSuperblock)
    (name : List UInt8) : PairEntry.Formed cfg { e with name := name } := by
  rcases h with rfl | ⟨hid, hn, hs⟩ | ⟨hid, hn, hs, hlen⟩ | ⟨hid, hn, hs, hlen⟩
  · exact absurd rfl hsb
  · exact .inline hid hn hs
  · exact .chain hid hn hs hlen
  · exact .dir hid hn hs hlen

/-- An entry gets another name, that is not taken. -/
theorem Inv.rename {dst : List UInt8} (hinv : Inv s) (hp : s.mem.pairs[idx]? = some p)
    (he : p.entries.find? (named name typ) = some e) (htyp : typ = tagNameReg ∨ typ = tagNameDir)
    (hdst : nameTaken p.entries dst = false) :
    Inv (s.editEntries idx (updateFirst (named name typ) fun e => { e with name := dst })) := by
  obtain ⟨l1, l2, hentries, -, hupd⟩ := find?_split he
  have hok := (hinv.pairOk p (mem_of_getElem? hp)).entries
  have hetyp : e.typName = typ := (named_iff.1 (find?_some he)).1
  have hsb : e.typName ≠ tagNameSuperblock := by
    rw [hetyp]
    rcases htyp with rfl | rfl <;> decide
  have hformed := hok.formed e (mem_of_find?_eq_some he)
  have hs : Swaps cfg e { e with name := dst } := ⟨rfl, rfl, hsb, rfl, hformed.rename hsb dst⟩
  have hnone : p.entries.find? (named dst typ) = none := by
    rcases htyp with rfl | rfl
    · exact (nameTaken_eq_false hdst).1
    · exact (nameTaken_eq_false hdst).2
  have hes : EntriesOk cfg (l1 ++ { e with name := dst } :: l2) := by
    refine (hentries ▸ hok).replace rfl (fun x hx heq => ?_) hs.formed
    obtain ⟨hxt, hxn⟩ := Prod.mk.inj heq
    exact find?_eq_none.1 hnone x (hentries ▸ mem_middle.2 (.inr hx))
      (named_iff.2 ⟨hxt.trans hetyp, hxn⟩)
  refine hinv.editEntries hp (hupd _ ▸ hes) (fun h => ?_) ?_ ?_ <;> rw [hupd]
  · exact hs.super (hentries ▸ h)
  · rw [hentries]
    exact hs.dirs
  · rw [hentries, chains_append, chains_append]
    exact List.Sublist.refl _

theorem rename_updating (h : Calm s) (src dst : List UInt8) :
    Updating s src (rename src dst s) := by
  rw [rename]
  obtain ⟨err, heq⟩ | ⟨srcAddr, srcName, hsrc, heq⟩ := atPath_cases src _ s <;> rw [heq]
  · exact .refused _
  obtain ⟨err, heq⟩ | ⟨dstAddr, dstName, -, heq⟩ := atPath_cases dst _ s <;> rw [heq]
  · exact .refused _
  split_ifs with hne
  · exact .refused _
  obtain heq | ⟨idx, p, hp, rfl, heq⟩ := atPair_cases srcAddr _ s <;> rw [heq]
  · exact .refused _
  cases htyp : typeOf p.entries srcName with
  | none => exact .refused _
  | some typ =>
    cases htaken : nameTaken p.entries dstName with
    | true => exact .refused _
    | false =>
      obtain ⟨hkind, e, he⟩ := typeOf_eq_some htyp
      exact .edit hp h hsrc (h.inv.rename hp he hkind htaken)

/-! ## rmdir -/

variable {img : Image cfg.toGeometry}

theorem blocks_nodup {pairs : List PairState}
    (h : (owned img pairs).Nodup) : (pairs.map blocks).Nodup := by
  induction pairs with
  | nil => exact nodup_nil
  | cons q pairs ih =>
    have hsplit : (q.owned img ++ owned img pairs).Nodup := h
    rw [nodup_append] at hsplit
    refine nodup_cons.2 ⟨fun hmem => ?_, ih hsplit.2.1⟩
    obtain ⟨q', hq', heq⟩ := mem_map.1 hmem
    exact hsplit.2.2 _ (half_mem_owned q false) _ (heq ▸ mem_owned hq' (half_mem_owned q' false))
      rfl

variable {ps1 ps2 : List PairState} {r dir : PairState}

/-- An empty directory is taken out of the root. -/
theorem Layout.dropDir
    (h : Layout img (r :: (ps1 ++ dir :: ps2))) (hentries : r.entries = l1 ++ e :: l2)
    (hdir : e.typName = tagNameDir) (hblocks : e.dirBlocks = some dir.blocks)
    (hnil : dir.entries = []) :
    Layout img (r.edited (l1 ++ l2) :: (ps1 ++ ps2)) ∧
      (owned img (r :: (ps1 ++ dir :: ps2))).Perm
        ([dir.blocks.1, dir.blocks.2] ++ owned img (r.edited (l1 ++ l2) :: (ps1 ++ ps2))) := by
  have hr := h.pairOk r mem_cons_self
  have he : e ∈ r.entries := hentries ▸ mem_append_cons_self
  have hchain : e.chain img = [] := chain_of_not_isCtz <|
    (hr.entries.formed e he).isCtz_eq_false (by rw [hdir]; decide)
  have hsub : (l1 ++ l2).Sublist r.entries := hentries ▸
    (List.Sublist.refl l1).append (sublist_cons_self e l2)
  have hperm : (owned img (r :: (ps1 ++ dir :: ps2))).Perm
      ([dir.blocks.1, dir.blocks.2] ++ owned img (r.edited (l1 ++ l2) :: (ps1 ++ ps2))) := by
    have hown : r.owned img = (r.edited (l1 ++ l2)).owned img := by
      rw [PairState.owned, owned_edited, hentries, chains_append, hchain, chains, chains, chains,
        flatMap_append, nil_append]
    have hdown : dir.owned img = [dir.blocks.1, dir.blocks.2] := by
      rw [PairState.owned, hnil]
      rfl
    rw [← cons_append, ← hdown]
    refine owned_perm_middle.trans (.append_left _ ?_)
    rw [owned, cons_append, flatMap_cons, hown]
    exact .refl _
  have hnodup := nodup_append.1 (hperm.nodup_iff.1 h.nodup)
  refine ⟨⟨?_, fun q hq => ?_, hnodup.2.1, fun b hb => ?_, h.mounts, h.wide⟩, hperm⟩
  · -- The entry and the pair are at the same place.
    obtain ⟨r', ps, heq, hroot, hsuper, hdirs, hempty⟩ := h.shape
    obtain ⟨rfl, rfl⟩ := cons.inj heq
    refine ⟨_, _, rfl, hroot, ?_, ?_, fun q hq => hempty q (mem_middle.2 (.inr hq))⟩
    · refine (mem_middle.1 (hentries ▸ hsuper)).resolve_left fun heq => ?_
      rw [← heq] at hdir
      exact absurd hdir (by decide : tagNameSuperblock ≠ tagNameDir)
    · have hnd := (nodup_cons.1 (blocks_nodup h.nodup)).2
      have hat :
          l1.filterMap dirBlocks ++ dir.blocks :: l2.filterMap dirBlocks =
          ps1.map blocks ++ dir.blocks :: ps2.map blocks := by
        rw [← map_cons, ← map_append, ← hdirs, hentries, filterMap_append, filterMap_cons, hblocks]
      rw [map_append, map_cons, ← hat] at hnd
      have hnd' := nodup_middle.1 hnd
      rw [nodup_cons, mem_append, not_or] at hnd'
      obtain ⟨h1, -, h2⟩ := (append_cons_inj_of_notMem hnd'.1.1 hnd'.1.2).1 hat
      change filterMap _ (l1 ++ l2) = _
      rw [filterMap_append, map_append, h1, h2]
  · rcases mem_cons.1 hq with rfl | hq
    · exact hr.edited (hr.entries.sublist hsub)
    · exact h.pairOk q (mem_cons_of_mem _ (mem_middle.2 (.inr hq)))
  · exact h.lt b (hperm.mem_iff.2 (mem_append_right _ hb))

variable {ps : List PairState}

/-- The root is the first pair. -/
theorem atPair_root {r : PairState} (hp : s.mem.pairs = r :: ps)
    (hr : r.blocks = root) (k : ℕ → PairState → M cfg α) : atPair root k s = k 0 r s := by
  have hf : (s.mem.pairs.zipIdx.find? fun q => q.1.blocks = root) = some (r, 0) := by
    rw [hp]
    exact find?_cons_of_pos (decide_eq_true hr)
  rw [atPair, hf]

/-- The pair of a directory is not the root. -/
theorem exists_split_of_dir {dir r : PairState} {i : ℕ}
    (hget : (r :: ps)[i]? = some dir) (hne : r ≠ dir) :
    ∃ ps1 ps2, ps = ps1 ++ dir :: ps2 ∧ (r :: ps).eraseIdx i = r :: (ps1 ++ ps2) := by
  cases i with
  | zero => exact absurd (Option.some.inj hget) hne
  | succ i =>
    rw [getElem?_cons_succ] at hget
    obtain ⟨ps1, ps2, rfl, rfl, -⟩ := modify_split hget
    refine ⟨ps1, ps2, rfl, ?_⟩
    rw [eraseIdx_cons_succ, eraseIdx_append_of_length_le le_rfl, Nat.sub_self, eraseIdx_cons_zero]

/-- An empty directory has been taken out of the root, and its blocks returned. -/
theorem Calm.dropDir (h : Calm s)
    (hpairs : s.mem.pairs = r :: (ps1 ++ dir :: ps2)) (hentries : r.entries = l1 ++ e :: l2)
    (hdir : e.typName = tagNameDir) (hblocks : e.dirBlocks = some dir.blocks)
    (hnil : dir.entries = []) (hdev : s'.dev = s.dev)
    (halloc : s'.mem.allocator =
      (s.mem.allocator.markFree dir.blocks.1).markFree dir.blocks.2)
    (hbbt : s'.mem.bbt = s.mem.bbt)
    (hpairs' : s'.mem.pairs = r.edited (l1 ++ l2) :: (ps1 ++ ps2)) : Calm s' := by
  obtain ⟨hlayout, hperm⟩ := (hpairs ▸ h.inv.toLayout).dropDir hentries hdir hblocks hnil
  have hnodup := nodup_append.1 (hperm.nodup_iff.1 (hpairs ▸ h.inv.nodup))
  have hbad : s'.mem.allocator.bad = s.mem.allocator.bad := by
    rw [halloc, bad_markFree, bad_markFree]
  -- The pairs that are left were there before.
  have hmem : ∀ q ∈ s'.mem.pairs, ∃ q' ∈ s.mem.pairs, q'.blocks = q.blocks ∧
      q'.revision = q.revision := by
    intro q hq
    rw [hpairs', mem_cons] at hq
    rw [hpairs]
    rcases hq with rfl | hq
    · exact ⟨r, mem_cons_self, rfl, rfl⟩
    · exact ⟨q, mem_cons_of_mem _ (mem_middle.2 (.inr hq)), rfl, rfl⟩
  refine ⟨⟨hdev ▸ hpairs' ▸ hlayout, fun b hb => ?_, fun q hq i => ?_, ?_, ?_⟩, fun q hq i => ?_,
    fun q hq => ?_⟩
  · rw [hdev, hpairs'] at hb
    have hne : b ≠ dir.blocks.1 ∧ b ≠ dir.blocks.2 :=
      ⟨fun heq => hnodup.2.2 _ mem_cons_self b hb heq.symm,
        fun heq => hnodup.2.2 _ (mem_cons_of_mem _ mem_cons_self) b hb heq.symm⟩
    rw [halloc, taken_markFree_of_ne hne.2, taken_markFree_of_ne hne.1]
    exact h.inv.taken b (hpairs ▸ hperm.mem_iff.2 (mem_append_right _ hb))
  · obtain ⟨q', hq', heq, -⟩ := hmem q hq
    rw [hbad, ← heq]
    exact h.inv.good q' hq' i
  · rw [hbad, hdev, hbbt]
    exact h.inv.bad
  · rw [halloc, blockCount_markFree, blockCount_markFree]
    exact h.inv.blockCount_eq
  · obtain ⟨q', hq', heq, -⟩ := hmem q hq
    rw [hdev, ← heq]
    exact h.quiet q' hq' i
  · obtain ⟨q', hq', -, heq⟩ := hmem q hq
    exact heq ▸ h.low q' hq'

theorem rmdir_updating (h : Calm s) (path : List UInt8) : Updating s path (rmdir path s) := by
  obtain ⟨r, ps, hpairs, hroot, hsuper, -⟩ := h.inv.shape
  rw [rmdir]
  obtain ⟨err, heq⟩ | ⟨addr, name, hdir, heq⟩ := atPath_cases path _ s <;> rw [heq]
  · exact .refused _
  split_ifs with haddr
  · exact .refused _
  obtain rfl := not_not.1 haddr
  rw [atPair_root hpairs hroot]
  cases he : r.entries.find? (named name tagNameDir) with
  | none => exact .refused _
  | some e =>
    obtain ⟨hetyp, -⟩ := named_iff.1 (find?_some he)
    have hr : r ∈ s.mem.pairs := hpairs ▸ mem_cons_self
    have hok := (h.inv.pairOk r hr).entries
    obtain ⟨hlen, hblocks⟩ := dirBlocks_eq hok (mem_of_find?_eq_some he) hetyp
    rw [ofOption_some_bind]
    rw [if_neg (by omega)]
    obtain heq | ⟨i, dir, hget, hdb, heq⟩ := atPair_cases (.ofBytes e.structPayload) _ s <;>
      rw [heq]
    · exact .refused _
    split_ifs with hne
    · exact .refused _
    rw [modify_bind]
    have hnil := not_not.1 hne
    have hrd : r ≠ dir := by
      rintro rfl
      rw [hnil] at hsuper
      exact nomatch hsuper
    obtain ⟨ps1, ps2, rfl, herase⟩ := exists_split_of_dir (hpairs ▸ hget) hrd
    obtain ⟨l1, l2, hentries, hdrop, -⟩ := find?_split he
    rw [← hdb]
    rw [atPair_root (herase ▸ congrArg (eraseIdx · i) hpairs) hroot, he]
    refine .commits _ 0 (r.edited (l1 ++ l2)) name (hroot ▸ hdir) rfl rfl (Calm.steady ?_) ?_
    · refine h.dropDir hpairs hentries hetyp (hdb ▸ hblocks) hnil rfl rfl rfl ?_
      change modify (s.mem.pairs.eraseIdx i) 0 _ = _
      rw [hpairs, herase, modify_zero_cons, hdrop]
      rfl
    · change (modify (s.mem.pairs.eraseIdx i) 0 _)[0]? = _
      rw [hpairs, herase, modify_zero_cons, hdrop]
      rfl

end SmallAIOS.Fs.LittleFs
