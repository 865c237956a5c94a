import SmallAIOS.Fs.LittleFs.Run

/-!
# What holds in careful runs

The invariant of careful runs says what the file system promises:

* `allocBlock_not_in_use`: a block that is handed out is not in use;
* `listing_after_cut`: when the power is lost during `create`, `remove` or `rename`, the directory
  lists what it listed before the call or what it lists after it.

Each of them has a run that is not careful in which it fails.
-/

namespace SmallAIOS.Fs.LittleFs

open Lib Flash List Function Option Prod

variable {cfg : Config}

/-- The steps of a run, with what they returned. -/
abbrev Trace (cfg : Config) := List (Step cfg × Except LittleFsError (Option FileMut))

/-! ## A small device -/

/-- Eight blocks of 128 bytes. -/
def smallConfig : Config where
  blockSize := 128
  pageSize := 16
  blockCount := 8
  pageSize_pos := by decide
  pageSize_dvd := by decide
  blockCycles := 1000
  cacheSize := 0
  blockSize_ge := by decide
  blockSize_lt := by decide
  blockCount_le := by decide

/-- A device on which nothing has been written. -/
def blankDevice (cfg : Config) : Device cfg.toGeometry :=
  ⟨fun _ => .erased _, fun _ => false, fun _ => [], []⟩

/-- A blank device, formatted and mounted. -/
def newFileSystem (cfg : Config) : FileSystem cfg := ⟨(format (blankDevice cfg)).2, none⟩

theorem formatted_newFileSystem (h : (format (blankDevice cfg)).1 = .ok ()) :
    (newFileSystem cfg).Formatted := ⟨_, _, Prod.ext h rfl, rfl⟩

theorem formatted_smallConfig : (newFileSystem smallConfig).Formatted :=
  formatted_newFileSystem (by decide +kernel)

/-- A call of a run in which nothing fails. -/
def Step.quiet (c : Call) : Step cfg := ⟨c, fun _ => []⟩

/-- The path of a name in the root. -/
def inRoot (c : Char) : List UInt8 := [slash, c.toUInt8]

/-- The path of a name in a directory. -/
def inDir (d c : Char) : List UInt8 := [slash, d.toUInt8, slash, c.toUInt8]

/-! ## Blocks that are handed out -/

section Blocks

variable {s₀ s : FileSystem cfg} {t : Trace cfg}

/-- In a careful run, the block that is handed out next is not in use, and no block was that a
    careful call hands out, if it does not rewrite a file in a chain. -/
theorem allocBlock_not_in_use (h₀ : s₀.Formatted) (h : ReachesBy Careful FileSystem.step s₀ t s) :
    ∃ m, s.loaded = some m ∧
      (∀ b a, m.mem.allocator.allocBlock = (some b, a) → b ∉ owned m.dev.image m.mem.pairs) ∧
      ∀ a r s' mem, Careful s a → ¬a.call.Rewrites m → s.step a = some (r, s') →
        s'.mem = some mem → ∀ b ∈ mem.handed, b ∉ owned m.dev.image m.mem.pairs := by
  obtain ⟨m, hs, hinv⟩ := FileSystem.inv_of_reachesBy h₀ h
  refine ⟨m, hs, fun b a hb hown => ?_, fun a r s' mem hc hrw hstep hmem b hb =>
    FileSystem.handed_step hs hinv hc hrw hstep hmem hb⟩
  have hfree := ((BlockAllocator.allocBlock_spec hb).free b rfl).2.1
  rw [hinv.taken b hown] at hfree
  cases hfree

/-- A directory is made, a file in the root is stored in a chain, and the device is mounted
    again. -/
theorem allocBlock_not_in_use_small : ∃ (t : Trace smallConfig) (s : FileSystem smallConfig),
    ReachesBy Careful FileSystem.step (newFileSystem smallConfig) t s ∧ t.length = 4 ∧
      ∃ m, s.loaded = some m ∧
      (∀ b a, m.mem.allocator.allocBlock = (some b, a) → b ∉ owned m.dev.image m.mem.pairs) ∧
      ∀ a r s' mem, Careful s a → ¬a.call.Rewrites m → s.step a = some (r, s') →
        s'.mem = some mem → ∀ b ∈ mem.handed, b ∉ owned m.dev.image m.mem.pairs := by
  have hr := ReachesBy.of_exec Careful FileSystem.step (newFileSystem smallConfig)
    [.quiet (.mkdir (inRoot 'd')), .quiet (.openWrite (inRoot 'f') ⟨true, true, false⟩),
      .quiet (.close ⟨0, 2, replicate 100 0x61, false, false⟩), .quiet .mount] (by decide +kernel)
  exact ⟨_, _, hr, by decide +kernel, allocBlock_not_in_use formatted_smallConfig hr⟩

/-- The blocks of a file in a chain that is in a directory are handed out after the device has
    been mounted again. -/
theorem allocBlock_in_use_small : ∃ (t : Trace smallConfig) (s : FileSystem smallConfig)
    (m : Mounted smallConfig) (b : ℕ),
    Reaches FileSystem.step (newFileSystem smallConfig) t s ∧ s.loaded = some m ∧
      m.mem.allocator.allocBlock.1 = some b ∧ b ∈ owned m.dev.image m.mem.pairs := by
  have he : ∃ r ∈ exec FileSystem.step [] (newFileSystem smallConfig)
      [.quiet (.mkdir (inRoot 'd')), .quiet (.openWrite (inDir 'd' 'f') ⟨true, true, false⟩),
        .quiet (.close ⟨1, 1, replicate 100 0x61, false, false⟩), .quiet .mount,
        .quiet (.create (inRoot 'g'))], ∃ m ∈ r.2.loaded,
      m.mem.allocator.allocBlock.1 = some 4 ∧ 4 ∈ owned m.dev.image m.mem.pairs := by
    decide +kernel
  obtain ⟨⟨t, s⟩, he, m, hm, hb, howned⟩ := he
  exact ⟨t, s, m, 4, Reaches.nil.exec he, hm, hb, howned⟩

end Blocks

/-! ## Losing the power while a directory changes -/

section Cuts

variable {img img' cut : Image cfg.toGeometry} {p q : PairState} {l1 l2 : List PairState}
  {s₀ s s' : FileSystem cfg} {m : Mounted cfg} {t : Trace cfg} {path : List UInt8}

/-- While the half of a pair that is not read is erased, all pairs are read as before. -/
theorem Layout.read_clear (hl : Layout img (l1 ++ p :: l2)) (hq : q ∈ l1 ++ p :: l2) :
    readMetadataPair (update img p.alternate (.erased _)) q.blocks =
      readMetadataPair img q.blocks := by
  by_cases heq : q = p
  · subst heq
    obtain ⟨es, hes, -⟩ := hl.pairOk_middle.stores
    have h1 := half_lt hl.lt hq false
    have h2 := half_lt hl.lt hq true
    rw [hes.read h1 h2, (hes.clear (owned_nodup_self hl.nodup)).read h1 h2]
  · have hmem : q ∈ l1 ++ l2 := (mem_middle.1 hq).resolve_left heq
    have hne : ∀ i, q.blocks.half i ≠ p.alternate := fun i heq =>
      not_mem_owned hl.nodup (half_mem_owned p _) (heq ▸ mem_owned hmem (half_mem_owned q i))
    exact readMetadataPair_congr (update_of_ne (hne false) ..) (update_of_ne (hne true) ..)

/-- A directory is found by what is read of the root. -/
theorem resolveDir_congr (h : readMetadataPair img' root = readMetadataPair img root)
    (path : List UInt8) : resolveDir img' path = resolveDir img path := by
  have hlookup : ∀ name, lookupDirPair img' root name = lookupDirPair img root name := by
    intro name
    rw [lookupDirPair, lookupDirPair, h]
  rw [resolveDir, resolveDir]
  simp only [hlookup]

/-- So the directories list what they listed before. -/
theorem Layout.readDir_clear (hl : Layout img (l1 ++ p :: l2))
    (hdir : resolveDir img path = .ok p.blocks) :
    readDir (update img p.alternate (.erased _)) path = readDir img path := by
  obtain ⟨r, hr, hroot⟩ := hl.exists_root
  have hread := hl.read_clear hr
  rw [hroot] at hread
  rw [readDir, readDir, resolveDir_congr hread, hdir]
  change ((readMetadataPair _ p.blocks).mapError some >>= _) = _
  rw [hl.read_clear mem_append_cons_self]
  rfl

variable {o : Except (Option LittleFsError) PUnit × Mounted cfg}

/-- The power is lost in a commit before the erase, or before the program. -/
theorem Committing.cut_cases {idx : ℕ}
    (hc : Committing m idx p o) (hcut : cut ∈ o.2.dev.cuts) : cut ∈ m.dev.cuts ∨
      cut = m.dev.image ∨ cut = update m.dev.image p.alternate (.erased _) := by
  cases hc with
  | clean hd => exact .inl hcut
  | unfit hd => exact .inl hcut
  | done half =>
    have hcuts : cut ∈ m.dev.cuts ++
        [m.dev.image, update m.dev.image p.alternate (.erased _)] :=
      Mounted.cuts_written ▸ hcut
    exact (mem_append.1 hcuts).imp id mem_pair.1

/-- What a loss of power leaves of a call that changes a directory. -/
theorem Updating.cut_cases
    (hu : Updating m path o) (hnil : m.dev.cuts = []) (hcut : cut ∈ o.2.dev.cuts) :
    cut = m.dev.image ∨ ∃ l1 p l2 name, Layout m.dev.image (l1 ++ p :: l2) ∧
      resolveParent m.dev.image path = .ok (p.blocks, name) ∧
      cut = update m.dev.image p.alternate (.erased _) := by
  cases hu with
  | refused err =>
    rw [hnil] at hcut
    cases hcut
  | commits s₁ idx p name hdir hdev hhanded hs hp =>
    obtain ⟨l1, l2, hl, -⟩ := modify_split hp
    have hlayout : Layout s₁.dev.image (l1 ++ p :: l2) := hl ▸ hs.inv.toLayout
    have hcases := (hs.committing hp).cut_cases hcut
    rw [hdev] at hlayout hcases
    obtain hcut | heq | heq := hcases
    · rw [hnil] at hcut
      cases hcut
    · exact .inl heq
    · exact .inr ⟨l1, p, l2, name, hlayout, hdir, heq⟩

/-- The call creates or removes the file of the path, or renames what the path names. -/
def Call.Updates (path : List UInt8) (c : Call) : Prop :=
  c = .create path ∨ c = .remove path ∨ ∃ dst, c = .rename path dst

theorem Call.Updates.updating {c : Call} (hc : c.Updates path) (h : Calm m) :
    ∃ o, Updating m path o ∧ o.2 = c.after m := by
  rcases hc with rfl | rfl | ⟨dst, rfl⟩
  · exact ⟨_, create_updating h path, rfl⟩
  · exact ⟨_, remove_updating h path, rfl⟩
  · exact ⟨_, rename_updating h path dst, rfl⟩

/-- When the power is lost during a call that changes a directory, after a careful run, the device
    mounts, and the directory lists what it listed before the call, or what it lists after
    it. -/
theorem listing_after_cut (h₀ : s₀.Formatted) (h : ReachesBy Careful FileSystem.step s₀ t s)
    {a : Step cfg} (hc : Sturdy s a) (hcall : a.call.Updates path)
    {r : Except LittleFsError (Option FileMut)} (hstep : s.step a = some (r, s')) :
    ∀ cut ∈ s'.dev.cuts, mount cut = .ok () ∧ ∀ addr name dir,
      resolveParent s.dev.image path = .ok (addr, name) → resolveDir s.dev.image dir = .ok addr →
        readDir cut dir = readDir s.dev.image dir ∨ readDir cut dir = readDir s'.dev.image dir := by
  obtain ⟨m, hs, hinv⟩ := FileSystem.inv_of_reachesBy h₀ h
  have hcalm := FileSystem.Sturdy.calm hs hinv hc
  rw [← FileSystem.dev_of_loaded hs]
  intro cut hcut
  obtain rfl | ⟨-, rfl⟩ | rfl := FileSystem.step_cases hs hstep
  · cases hcut
  · cases hcut
  · obtain ⟨o, hu, ho⟩ := hcall.updating hcalm
    rw [← ho] at hcut
    obtain rfl | ⟨l1, p, l2, name, hl, hdir, rfl⟩ := hu.cut_cases rfl hcut
    · exact ⟨hinv.mounts, fun _ _ _ _ _ => .inl rfl⟩
    · refine ⟨hl.clear.mounts, fun addr name' dir haddr hd => .inl (hl.readDir_clear ?_)⟩
      cases haddr.symm.trans hdir
      exact hd

/-- The directory has been changed before, so that both of its blocks are in use. -/
theorem listing_after_cut_small : ∃ s s' : FileSystem smallConfig, s'.dev.cuts.length = 2 ∧
    readDir s.dev.image (inRoot 'd') = .ok [(['x'.toUInt8], .file)] ∧
    ∀ cut ∈ s'.dev.cuts, mount cut = .ok () ∧ ∀ addr name dir,
      resolveParent s.dev.image (inDir 'd' 'y') = .ok (addr, name) →
        resolveDir s.dev.image dir = .ok addr →
        readDir cut dir = readDir s.dev.image dir ∨ readDir cut dir = readDir s'.dev.image dir := by
  have he : ∃ r ∈ execBy Careful FileSystem.step [] (newFileSystem smallConfig)
      [.quiet (.mkdir (inRoot 'd')), .quiet (.create (inDir 'd' 'x'))],
      Sturdy r.2 (.quiet (.create (inDir 'd' 'y'))) ∧
      readDir r.2.dev.image (inRoot 'd') = .ok [(['x'.toUInt8], .file)] ∧
      ∃ q ∈ r.2.step (.quiet (.create (inDir 'd' 'y'))), q.2.dev.cuts.length = 2 := by
    decide +kernel
  obtain ⟨⟨t, s⟩, he, hc, hread, ⟨o, s'⟩, hstep, hlen⟩ := he
  exact ⟨s, s', hlen, hread, listing_after_cut formatted_smallConfig (ReachesBy.nil.exec he) hc
    (.inl rfl) hstep⟩

/-- Four blocks, so that the blocks of a directory that is removed are those of the next one. -/
def tinyConfig : Config := { smallConfig with blockCount := 4, blockCount_le := by decide }

/-- A new directory has the blocks of one that was removed, and what was in it is still read in
    place of the new one. When a file is made there, the power is lost while the listing is empty;
    it is not before, nor after. -/
theorem listing_after_cut_tiny : ∃ (t : Trace tinyConfig) (s s' : FileSystem tinyConfig)
    (r : Except LittleFsError (Option FileMut)), (newFileSystem tinyConfig).Formatted ∧
    Reaches FileSystem.step (newFileSystem tinyConfig) t s ∧
    s.step (.quiet (.create (inDir 'b' 'y'))) = some (r, s') ∧ ∃ cut ∈ s'.dev.cuts,
      readDir cut (inRoot 'b') = .ok [] ∧
      readDir s.dev.image (inRoot 'b') = .ok [(['x'.toUInt8], .file)] ∧
      readDir s'.dev.image (inRoot 'b') = .ok [(['y'.toUInt8], .file)] := by
  have he : ((exec FileSystem.step [] (newFileSystem tinyConfig)
      [.quiet (.mkdir (inRoot 'a')), .quiet (.create (inDir 'a' 'x')),
        .quiet (.remove (inDir 'a' 'x')), .quiet (.rmdir (inRoot 'a')),
        .quiet (.mkdir (inRoot 'b'))]).bind fun r =>
      (r.2.step (.quiet (.create (inDir 'b' 'y')))).map fun q => decide
        ((∃ cut ∈ q.2.dev.cuts, readDir cut (inRoot 'b') = .ok []) ∧
          readDir r.2.dev.image (inRoot 'b') = .ok [(['x'.toUInt8], .file)] ∧
          readDir q.2.dev.image (inRoot 'b') = .ok [(['y'.toUInt8], .file)])) = some true := by
    decide +kernel
  obtain ⟨⟨t, s⟩, he, hrest⟩ := bind_eq_some_iff.1 he
  obtain ⟨⟨r, s'⟩, hstep, heq⟩ := map_eq_some_iff.1 hrest
  obtain ⟨⟨cut, hcut, hread⟩, hbefore, hafter⟩ := of_decide_eq_true heq
  exact ⟨t, s, s', r, formatted_newFileSystem (by decide +kernel), Reaches.nil.exec he, hstep, cut,
    hcut, hread, hbefore, hafter⟩

end Cuts

end SmallAIOS.Fs.LittleFs
