import SmallAIOS.Fs.LittleFs.Commit

/-!
# Writing data apart from what is in use

Data is written to blocks that are free. `Apart T s₀ s` says that from `s₀` to `s` no block of a
set `T` was handed out, erased or programmed, and that all of them are still taken: not even what
a loss of power leaves differs on them. This holds of each part of storing a file in a chain:

* `allocBlocks_spec`: the blocks handed out are free, and different;
* `writeBlock_spec`, `writeRemapped_spec`: a block is written, or another one in its place;
* `writeChain_spec`: a chain is written, whatever fails; `writeChain_ok`: nothing else happens
  if nothing fails;
* `releaseChain_eq`: a chain is returned to the allocator.
-/

namespace SmallAIOS.Fs.LittleFs

open Lib Flash List Fallible BlockAllocator Device

variable {cfg : Config} {s : Mounted cfg}

/-- The allocator knows all blocks, and which of them are bad. -/
structure Sound (s : Mounted cfg) : Prop where
  bad : ∀ b < cfg.blockCount, s.dev.bad b = true ∨ s.mem.bbt b = true → s.mem.allocator.bad b = true
  blockCount_eq : s.mem.allocator.blockCount = cfg.blockCount

theorem Inv.sound (h : Inv s) : Sound s := ⟨h.bad, h.blockCount_eq⟩

theorem Sound.not_bad (h : Sound s) {b : ℕ} (hb : b < cfg.blockCount)
    (hgood : s.mem.allocator.bad b = false) : s.dev.bad b = false := by
  by_contra hne
  have := h.bad b hb (.inl (by simpa using hne))
  rw [hgood] at this
  exact Bool.false_ne_true this

/-- From `s₀` to `s`, nothing happened to the blocks in `T`, which are taken. -/
structure Apart (T : ℕ → Prop) (s₀ s : Mounted cfg) : Prop where
  sound : Sound s
  taken : ∀ b, T b → s.mem.allocator.taken b = true
  image : ∀ b, T b → s.dev.image b = s₀.dev.image b
  bad_eq : ∀ b, T b → s.mem.allocator.bad b = s₀.mem.allocator.bad b
  faults : ∀ b, s₀.dev.faults b = [] → s.dev.faults b = []
  cuts : ∃ l, s.dev.cuts = s₀.dev.cuts ++ l ∧ ∀ c ∈ l, ∀ b, T b → c b = s₀.dev.image b
  handed : ∃ l, s.mem.handed = s₀.mem.handed ++ l ∧ ∀ b ∈ l, ¬T b

variable {T T' : ℕ → Prop} {s1 s2 s' : Mounted cfg} {b : ℕ} {bs : List UInt8} {blocks : List ℕ}
  (hs : Sound s) (hT : ∀ b, T b → s.mem.allocator.taken b = true) {d : Device cfg.toGeometry}

theorem nothing_more {α : Type*} {l : List α} {P : α → Prop} : ∃ k, l = l ++ k ∧ ∀ x ∈ k, P x :=
  ⟨[], (append_nil _).symm, by simp⟩

namespace Apart

theorem trans (h : Apart T s s1) (h' : Apart T s1 s2) : Apart T s s2 := by
  obtain ⟨l, hl, hmem⟩ := h.cuts
  obtain ⟨l', hl', hmem'⟩ := h'.cuts
  obtain ⟨k, hk, hfree⟩ := h.handed
  obtain ⟨k', hk', hfree'⟩ := h'.handed
  refine ⟨h'.sound, h'.taken, fun b hb => (h'.image b hb).trans (h.image b hb),
    fun b hb => (h'.bad_eq b hb).trans (h.bad_eq b hb), fun b hb => h'.faults b (h.faults b hb),
    ⟨l ++ l', by rw [hl', hl, append_assoc], fun c hc b hb => ?_⟩,
    ⟨k ++ k', by rw [hk', hk, append_assoc], fun b hb => ?_⟩⟩
  · rcases mem_append.1 hc with hc | hc
    · exact hmem c hc b hb
    · exact (hmem' c hc b hb).trans (h.image b hb)
  · rcases mem_append.1 hb with hb | hb
    · exact hfree b hb
    · exact hfree' b hb

theorem mono (h : Apart T s s') (hT : ∀ b, T' b → T b) : Apart T' s s' := by
  obtain ⟨l, hl, hmem⟩ := h.cuts
  obtain ⟨k, hk, hfree⟩ := h.handed
  exact ⟨h.sound, fun b hb => h.taken b (hT b hb), fun b hb => h.image b (hT b hb),
    fun b hb => h.bad_eq b (hT b hb), h.faults, ⟨l, hl, fun c hc b hb => hmem c hc b (hT b hb)⟩,
    ⟨k, hk, fun b hb hb' => hfree b hb (hT b hb')⟩⟩

include hs hT

theorem refl : Apart T s s :=
  ⟨hs, hT, fun _ _ => rfl, fun _ _ => rfl, fun _ h => h, nothing_more, nothing_more⟩

/-- An operation of the device on another block. -/
theorem onDevice (hb : ¬T b) (ht : Device.Touches b s.dev d) (hbad : d.bad = s.dev.bad) :
    Apart T s { s with dev := d } := by
  have hne : ∀ x, T x → x ≠ b := fun x hx heq => hb (heq ▸ hx)
  obtain ⟨l, hl, hmem⟩ := ht.cuts
  exact ⟨⟨hbad ▸ hs.bad, hs.blockCount_eq⟩, hT, fun x hx => ht.image x (hne x hx), fun _ _ => rfl,
    ht.faults, ⟨l, hl, fun c hc x hx => hmem c hc x (hne x hx)⟩, nothing_more⟩

theorem noteErase (b : ℕ) : Apart T s (s.setAllocator (s.mem.allocator.noteErase b)) := by
  have hbad : (s.mem.allocator.noteErase b).bad = s.mem.allocator.bad := bad_noteErase
  exact ⟨⟨fun x hx h => by rw [Mounted.setAllocator, hbad]; exact hs.bad x hx h,
      blockCount_noteErase.trans hs.blockCount_eq⟩,
    fun x hx => taken_noteErase.trans (hT x hx), fun _ _ => rfl,
    fun x _ => congrFun hbad x, fun _ h => h, nothing_more, nothing_more⟩

theorem noteBad (hb : ¬T b) : Apart T s (s.noteBad b) := by
  have hne : ∀ x, T x → x ≠ b := fun x hx heq => hb (heq ▸ hx)
  have ht := Device.Touches.markBad b s.dev
  obtain ⟨l, hl, hmem⟩ := ht.cuts
  refine ⟨⟨fun x hx h => ?_, blockCount_markBad.trans hs.blockCount_eq⟩,
    fun x hx => taken_markBad (hT x hx), fun x hx => ht.image x (hne x hx),
    fun x hx => bad_markBad_of_ne (hne x hx), ht.faults,
    ⟨l, hl, fun c hc x hx => hmem c hc x (hne x hx)⟩, nothing_more⟩
  -- Where the device and the table find a block bad, the allocator does too.
  by_cases hxb : x = b
  · rw [hxb]
    exact bad_markBad_self (hs.blockCount_eq ▸ hxb ▸ hx)
  · refine (bad_markBad_of_ne hxb).trans (hs.bad x hx (h.imp ?_ ?_))
    · exact ((ht.bad x hxb).symm.trans)
    · intro h
      change (if b < cfg.blockCount then Function.update s.mem.bbt b true else s.mem.bbt) x = _ at h
      split_ifs at h with hlt
      · rwa [Function.update_of_ne hxb] at h
      · exact h

end Apart

/-! ## Allocating blocks -/

theorem bad_of_allocated {a a' : BlockAllocator} {o : Option ℕ} (h : a.Allocated o a')
    (hb : a.taken b = true) : a'.bad b = a.bad b := by
  have hworn : a.worn b = false := by simp [worn, hb]
  have := h.bad_iff b
  rw [hworn] at this
  exact Bool.eq_iff_iff.2 (by simpa using this)

/-- The blocks are held by this computation: they are different, taken and good. -/
structure Held (s : Mounted cfg) (blocks : List ℕ) : Prop where
  nodup : blocks.Nodup
  lt : ∀ b ∈ blocks, b < cfg.blockCount
  taken : ∀ b ∈ blocks, s.mem.allocator.taken b = true
  good : ∀ b ∈ blocks, s.mem.allocator.bad b = false

/-- What is left of the blocks is still held. -/
theorem Held.tail (h : Held s (b :: blocks)) (hap : Apart T s s') (hsub : ∀ x ∈ blocks, T x) :
    Held s' blocks :=
  ⟨(nodup_cons.1 h.nodup).2, fun x hx => h.lt x (mem_cons_of_mem _ hx),
    fun x hx => hap.taken x (hsub x hx),
    fun x hx => (hap.bad_eq x (hsub x hx)).trans (h.good x (mem_cons_of_mem _ hx))⟩

/-- The blocks do not fail. -/
def NoFaults (s : Mounted cfg) : Prop := ∀ b < cfg.blockCount, s.dev.faults b = []

theorem NoFaults.apart (h : NoFaults s) (hap : Apart T s s') : NoFaults s' := fun b hb =>
  hap.faults b (h b hb)

variable {r : Except (Option LittleFsError) ℕ} {data : List UInt8} {idx : ℕ} {prev : Option ℕ}

section

include hs hT

/-- An allocation hands out a free block, or all blocks are taken. -/
theorem allocBlock_spec (h : M.allocBlock s = (r, s')) :
    Apart T s s' ∧ s'.mem.pairs = s.mem.pairs ∧ s'.dev = s.dev ∧
      (∀ x, s.mem.allocator.taken x = true → s'.mem.allocator.taken x = true ∧
        s'.mem.allocator.bad x = s.mem.allocator.bad x) ∧
      (∀ b, r = .ok b → s.mem.allocator.taken b = false ∧ Held s' [b]) ∧
      (∀ e, r = .error e → ∀ b < cfg.blockCount, s'.mem.allocator.taken b = true) := by
  rw [M.allocBlock] at h
  rcases heq : s.mem.allocator.allocBlock with ⟨_ | b, a⟩
  all_goals
    have ha := BlockAllocator.allocBlock_spec heq
    rw [heq] at h
    cases h
    refine ⟨⟨⟨fun x hx hbad => (ha.bad_iff x).2 (.inl (hs.bad x hx hbad)),
        ha.blockCount_eq.trans hs.blockCount_eq⟩,
      fun x hx => ha.mono (hT x hx), fun _ _ => rfl, fun x hx => bad_of_allocated ha (hT x hx),
      fun _ h => h, nothing_more, ?_⟩, rfl, rfl,
      fun x hx => ⟨ha.mono hx, bad_of_allocated ha hx⟩, ?_, ?_⟩
  · exact nothing_more
  · exact fun _ hb => (nomatch hb)
  · exact fun _ _ x hx => ha.full rfl x (hs.blockCount_eq ▸ hx)
  · refine ⟨[b], rfl, fun x hx hTx => ?_⟩
    have := (ha.free b rfl).2.1
    rw [← mem_singleton.1 hx, hT x hTx] at this
    exact nomatch this
  · intro x hx
    cases hx
    obtain ⟨hlt, hfree, -⟩ := ha.free b rfl
    refine ⟨hfree, nodup_singleton _, fun x hx => ?_, fun x hx => ?_, fun x hx => ?_⟩
    all_goals rw [mem_singleton.1 hx]
    · exact hs.blockCount_eq ▸ hlt
    · exact (ha.taken_iff b).2 (.inr (.inr rfl))
    · exact ha.bad_self
  · exact fun _ he => (nomatch he)

/-- Blocks are handed out one after the other, or all blocks are taken. -/
theorem allocBlocks_spec {k : ℕ} {r : Except (Option LittleFsError) (List ℕ)}
    (h : allocBlocks k s = (r, s')) :
    Apart T s s' ∧ s'.mem.pairs = s.mem.pairs ∧ s'.dev = s.dev ∧
      (∀ bs, r = .ok bs → bs.length = k ∧ Held s' bs ∧
        ∀ b ∈ bs, s.mem.allocator.taken b = false) ∧
      (∀ e, r = .error e → ∀ b < cfg.blockCount, s'.mem.allocator.taken b = true) := by
  induction k generalizing s s' T r with
  | zero =>
    cases h
    refine ⟨.refl hs hT, rfl, rfl, fun bs hbs => ?_, fun e he => (nomatch he)⟩
    cases hbs
    exact ⟨rfl, ⟨nodup_nil, by simp, by simp, by simp⟩, by simp⟩
  | succ k ih =>
    obtain ⟨e, ha, rfl⟩ | ⟨b, s1, ha, h⟩ := bind_cases h
    all_goals obtain ⟨hap, hpairs, hdev, hkeep, hok, hfull⟩ := allocBlock_spec hs hT ha
    · exact ⟨hap, hpairs, hdev, fun _ hb => (nomatch hb), fun e _ => hfull _ rfl⟩
    · obtain ⟨hfree, hheld⟩ := hok b rfl
      -- What is taken by now stays so while the rest is handed out.
      obtain ⟨e, hr, rfl⟩ | ⟨bs, s2, hr, h⟩ := bind_cases h
      all_goals
        obtain ⟨hap', hpairs', hdev', hok', hfull⟩ := ih hap.sound (fun _ h => h) hr
        have htrans := hap.trans (hap'.mono hap.taken)
      · exact ⟨htrans, hpairs'.trans hpairs, hdev'.trans hdev, fun _ hb => (nomatch hb),
          fun e _ => hfull _ rfl⟩
      · cases h
        refine ⟨htrans, hpairs'.trans hpairs, hdev'.trans hdev, fun bs' hbs => ?_,
          fun e he => (nomatch he)⟩
        cases hbs
        obtain ⟨hlen, hheld', hfree'⟩ := hok' bs rfl
        have hb := hheld.taken b mem_cons_self
        refine ⟨by rw [length_cons, hlen], ⟨nodup_cons.2 ⟨fun hmem => ?_, hheld'.nodup⟩,
          forall_mem_cons.2 ⟨hheld.lt b mem_cons_self, hheld'.lt⟩,
          forall_mem_cons.2 ⟨hap'.taken b hb, hheld'.taken⟩,
          forall_mem_cons.2 ⟨?_, hheld'.good⟩⟩, forall_mem_cons.2 ⟨hfree, fun x hx => ?_⟩⟩
        · rw [hfree' b hmem] at hb
          exact nomatch hb
        · exact (hap'.bad_eq b hb).trans (hheld.good b mem_cons_self)
        · by_contra hne
          have := (hkeep x (by simpa using hne)).1
          rw [hfree' x hx] at this
          exact nomatch this

/-! ## Writing blocks -/

/-- The block is marked bad, after an operation on it. -/
theorem Apart.fail (hb : ¬T b) (ht : Device.Touches b s.dev d) (hbad : d.bad = s.dev.bad) :
    Apart T s (Mounted.noteBad { s with dev := d } b) :=
  have hdev := Apart.onDevice hs hT hb ht hbad
  hdev.trans (.noteBad hdev.sound hdev.taken hb)

theorem programBlock_spec (hb : ¬T b) (hk : s.dev.image b = .erased _)
    {r : Except (Option LittleFsError) WriteOutcome} (h : programBlock b bs s = (r, s')) :
    Apart T s s' ∧ s'.mem.pairs = s.mem.pairs ∧ ∃ o, r = .ok o ∧
      (o = .done → s'.dev.image b = .ofBytes _ bs ∧ s'.mem = s.mem) := by
  have ht := Device.Touches.program b (padToPage cfg bs) s.dev
  have hbad : (program b (padToPage cfg bs) s.dev).2.bad = s.dev.bad := bad_program
  have hdev := Apart.onDevice hs hT hb ht hbad
  have hfail := Apart.fail hs hT hb ht hbad
  rw [programBlock, M.onDevice_bind] at h
  rcases hp : (program b (padToPage cfg bs) s.dev).1 with e | u
  · rw [hp] at h
    cases e
    case programFailed | programOnDirty =>
      cases h
      exact ⟨hfail, rfl, .wentBad, rfl, by rintro ⟨⟩⟩
    all_goals
      cases h
      exact ⟨hdev, rfl, .failed, rfl, by rintro ⟨⟩⟩
  · rw [hp] at h
    cases h
    refine ⟨hdev, rfl, .done, rfl, fun _ => ⟨?_, rfl⟩⟩
    have := program_of_ok hp
    rw [hk, Block.program_erased, ofBytes_padToPage] at this
    exact this

/-- A block is written, or it has failed. -/
theorem writeBlock_spec (hb : ¬T b)
    {r : Except (Option LittleFsError) WriteOutcome} (h : writeBlock b bs s = (r, s')) :
    Apart T s s' ∧ s'.mem.pairs = s.mem.pairs ∧ ∃ o, r = .ok o ∧
      (o = .done → s'.dev.image b = .ofBytes _ bs ∧
        s'.mem.allocator = s.mem.allocator.noteErase b) := by
  have ht := Device.Touches.erase b s.dev
  have hbad : (erase b s.dev).2.bad = s.dev.bad := bad_erase
  have hdev := Apart.onDevice hs hT hb ht hbad
  have hfail := Apart.fail hs hT hb ht hbad
  rw [writeBlock, M.onDevice_bind] at h
  rcases hp : (erase b s.dev).1 with e | u
  · rw [hp] at h
    cases e
    case eraseFailure | programFailed =>
      cases h
      exact ⟨hfail, rfl, .wentBad, rfl, by rintro ⟨⟩⟩
    all_goals
      cases h
      exact ⟨hdev, rfl, .failed, rfl, by rintro ⟨⟩⟩
  · rw [hp] at h
    have hcount := hdev.trans (.noteErase hdev.sound hdev.taken b)
    obtain ⟨hap, hpairs, o, ho, hdone⟩ :=
      programBlock_spec hcount.sound hcount.taken hb (erase_of_ok hp) h
    refine ⟨hcount.trans hap, hpairs, o, ho, fun h => ⟨(hdone h).1, ?_⟩⟩
    rw [(hdone h).2]
    rfl

/-- Write a free block. -/
def writeFree (bs : List UInt8) : M cfg ℕ := do
  let r ← M.allocBlock
  match ← writeBlock r bs with
  | .done => pure r
  | _ => fail (some .io)

theorem writeFree_spec (h : writeFree bs s = (r, s')) :
    Apart T s s' ∧ s'.mem.pairs = s.mem.pairs ∧ ∀ x, r = .ok x →
      s'.dev.image x = .ofBytes _ bs ∧ x < cfg.blockCount ∧ s'.mem.allocator.taken x = true ∧
        s.mem.allocator.taken x = false := by
  obtain ⟨e, ha, rfl⟩ | ⟨x, s1, ha, h⟩ := bind_cases h
  all_goals obtain ⟨hap, hpairs, -, -, hok, -⟩ := allocBlock_spec hs hT ha
  · exact ⟨hap, hpairs, by rintro x ⟨⟩⟩
  · obtain ⟨hfree, hheld⟩ := hok x rfl
    have hx : ¬T x := by
      intro hx
      rw [hT x hx] at hfree
      cases hfree
    rcases hw : writeBlock x bs s1 with ⟨r2, s2⟩
    obtain ⟨hap2, hpairs2, o, rfl, hdone⟩ := writeBlock_spec hap.sound hap.taken hx hw
    rw [bind_of_ok hw] at h
    cases o with
    | done =>
      cases h
      obtain ⟨himg, halloc⟩ := hdone rfl
      refine ⟨hap.trans hap2, hpairs2.trans hpairs, ?_⟩
      rintro y ⟨⟩
      refine ⟨himg, hheld.lt x mem_cons_self, ?_, hfree⟩
      rw [halloc, taken_noteErase, hheld.taken x mem_cons_self]
    | wentBad | failed =>
      cases h
      exact ⟨hap.trans hap2, hpairs2.trans hpairs, by rintro y ⟨⟩⟩

/-- A block of a chain is written, or a free one in its place. -/
theorem writeRemapped_spec (hb : ¬T b) (hlt : b < cfg.blockCount)
    (htaken : s.mem.allocator.taken b = true) (h : writeRemapped b bs s = (r, s')) :
    Apart T s s' ∧ s'.mem.pairs = s.mem.pairs ∧ ∀ x, r = .ok x →
      s'.dev.image x = .ofBytes _ bs ∧ x < cfg.blockCount ∧ s'.mem.allocator.taken x = true ∧
        (x = b ∨ s.mem.allocator.taken x = false) ∧ ¬T x := by
  rw [writeRemapped] at h
  rcases hw : writeBlock b bs s with ⟨r1, s1⟩
  obtain ⟨hap, hpairs, o, rfl, hdone⟩ := writeBlock_spec hs hT hb hw
  rw [bind_of_ok hw] at h
  by_cases ho : o = .done
  · obtain ⟨himg, halloc⟩ := hdone ho
    subst ho
    cases h
    refine ⟨hap, hpairs, ?_⟩
    rintro x ⟨⟩
    refine ⟨himg, hlt, ?_, .inl rfl, hb⟩
    rw [halloc, taken_noteErase, htaken]
  · have h : writeFree bs s1 = (r, s') := by
      cases o
      · exact absurd rfl ho
      · exact h
      · exact h
    -- The block in its place was free before the failed write as well.
    have hT1 : ∀ x, T x ∨ s.mem.allocator.taken x = true ∧ x ≠ b →
        s.mem.allocator.taken x = true := fun x hx => hx.elim (hT x) And.left
    obtain ⟨hap1, -⟩ := writeBlock_spec hs hT1 (by simp [hb]) hw
    obtain ⟨hap2, hpairs2, hok⟩ := writeFree_spec hap.sound hap.taken h
    refine ⟨hap.trans hap2, hpairs2.trans hpairs, fun x hx => ?_⟩
    obtain ⟨himg, hxlt, hxtaken, hfree⟩ := hok x hx
    refine ⟨himg, hxlt, hxtaken, ?_, fun hx => ?_⟩
    · by_cases hxb : x = b
      · exact .inl hxb
      · refine .inr ?_
        by_contra hne
        rw [hap1.taken x (.inr ⟨by simpa using hne, hxb⟩)] at hfree
        cases hfree
    · rw [hap.taken x hx] at hfree
      cases hfree

/-! ## Writing a chain -/

/-- The blocks of a chain that has been written. -/
structure Chained (T : ℕ → Prop) (s : Mounted cfg) (data : List UInt8) (idx : ℕ) (prev : Option ℕ)
    (blocks : List ℕ) : Prop where
  laid : Laid s.dev.image data idx prev blocks
  nodup : blocks.Nodup
  lt : ∀ b ∈ blocks, b < cfg.blockCount
  taken : ∀ b ∈ blocks, s.mem.allocator.taken b = true
  free : ∀ b ∈ blocks, ¬T b

/-- A chain is written to the blocks, or to free ones in their place. -/
theorem writeChain_spec (hheld : Held s blocks) (hfree : ∀ b ∈ blocks, ¬T b)
    {r : Except (Option LittleFsError) (List ℕ)} (h : writeChain data idx prev blocks s = (r, s')) :
    Apart T s s' ∧ s'.mem.pairs = s.mem.pairs ∧ ∀ bs, r = .ok bs →
      bs.length = blocks.length ∧ Chained T s' data idx prev bs := by
  induction blocks generalizing s s' T idx prev r with
  | nil =>
    cases h
    refine ⟨.refl hs hT, rfl, fun bs hbs => ?_⟩
    cases hbs
    exact ⟨rfl, trivial, nodup_nil, by simp, by simp, by simp⟩
  | cons b rest ih =>
    have hb := (nodup_cons.1 hheld.nodup).1
    -- The rest of the blocks is still held after the first one has been written.
    have hT1 : ∀ x, T x ∨ x ∈ rest → s.mem.allocator.taken x = true := fun x hx =>
      hx.elim (hT x) fun hx => hheld.taken x (mem_cons_of_mem _ hx)
    have hb1 : ¬(T b ∨ b ∈ rest) := fun h => h.elim (hfree b mem_cons_self) hb
    obtain ⟨e, hw, rfl⟩ | ⟨x, s1, hw, h⟩ := bind_cases h
    all_goals
      obtain ⟨hap, hpairs, hok⟩ := writeRemapped_spec hs hT1 hb1 (hheld.lt b mem_cons_self)
        (hheld.taken b mem_cons_self) hw
    · exact ⟨hap.mono fun x hx => .inl hx, hpairs, fun bs hbs => (nomatch hbs)⟩
    · obtain ⟨himg, hlt, htaken, -, hx⟩ := hok x rfl
      -- The block that was written is left alone from now on.
      have hT2 : ∀ y, T y ∨ y = x → s1.mem.allocator.taken y = true := by
        rintro y (hy | rfl)
        · exact hap.taken y (.inl hy)
        · exact htaken
      have hheld1 : Held s1 rest := hheld.tail hap fun _ => .inr
      have hfree1 : ∀ y ∈ rest, ¬(T y ∨ y = x) := by
        rintro y hy (hTy | rfl)
        · exact hfree y (mem_cons_of_mem _ hy) hTy
        · exact hx (.inr hy)
      obtain ⟨e, hr, rfl⟩ | ⟨bs, s2, hr, h⟩ := bind_cases h
      all_goals
        obtain ⟨hap2, hpairs2, hok2⟩ := ih hap.sound hT2 hheld1 hfree1 hr
        have htrans : Apart T s _ := (hap.mono fun y hy => .inl hy).trans
          (hap2.mono fun y hy => .inl hy)
      · exact ⟨htrans, hpairs2.trans hpairs, fun bs hbs => (nomatch hbs)⟩
      · cases h
        refine ⟨htrans, hpairs2.trans hpairs, fun bs' hbs => ?_⟩
        cases hbs
        obtain ⟨hlen, hch⟩ := hok2 bs rfl
        refine ⟨by rw [length_cons, length_cons, hlen],
          ⟨(hap2.image x (.inr rfl)).trans himg, hch.laid⟩,
          nodup_cons.2 ⟨fun hmem => hch.free x hmem (.inr rfl), hch.nodup⟩,
          forall_mem_cons.2 ⟨hlt, hch.lt⟩,
          forall_mem_cons.2 ⟨hap2.taken x (.inr rfl), hch.taken⟩,
          forall_mem_cons.2 ⟨fun h => hx (.inl h), fun y hy h => hch.free y hy (.inl h)⟩⟩

end

theorem writeRemapped_eq (hs : Sound s) (hf : NoFaults s) (hlt : b < cfg.blockCount)
    (hgood : s.mem.allocator.bad b = false) : writeRemapped b bs s = (.ok b, s.written b bs) := by
  rw [writeRemapped, bind_of_ok (writeBlock_eq hlt (hs.not_bad hlt hgood) (hf b hlt))]
  rfl

/-- If nothing fails, the chain is written. -/
theorem writeChain_ok (hs : Sound s) (hf : NoFaults s) (hheld : Held s blocks) :
    ∃ bs s', writeChain data idx prev blocks s = (.ok bs, s') := by
  induction blocks generalizing s idx prev with
  | nil => exact ⟨[], s, rfl⟩
  | cons b rest ih =>
    have hlt := hheld.lt b mem_cons_self
    have hgood := hheld.good b mem_cons_self
    have hb := (nodup_cons.1 hheld.nodup).1
    rw [writeChain, bind_of_ok (writeRemapped_eq hs hf hlt hgood)]
    generalize ctzBuf cfg _ prev = buf
    have hap : Apart (fun x => x ∈ rest) s (s.written b buf) :=
      (writeBlock_spec hs (fun x hx => hheld.taken x (mem_cons_of_mem _ hx)) hb
        (writeBlock_eq hlt (hs.not_bad hlt hgood) (hf b hlt))).1
    obtain ⟨bs, s', hr⟩ := ih hap.sound (hf.apart hap) (hheld.tail hap fun _ hx => hx)
    refine ⟨b :: bs, s', ?_⟩
    rw [bind_of_ok hr]
    rfl

/-! ## Returning a chain -/

namespace BlockAllocator

variable {a : BlockAllocator} {x : ℕ}

theorem taken_foldl_markFree (h : x ∉ blocks) : (blocks.foldl markFree a).taken x = a.taken x := by
  induction blocks generalizing a with
  | nil => rfl
  | cons b rest ih =>
    rw [mem_cons, not_or] at h
    rw [foldl_cons, ih h.2, taken_markFree_of_ne h.1]

theorem bad_foldl_markFree : (blocks.foldl markFree a).bad = a.bad := by
  induction blocks generalizing a with
  | nil => rfl
  | cons b rest ih => rw [foldl_cons, ih, bad_markFree]

theorem blockCount_foldl_markFree : (blocks.foldl markFree a).blockCount = a.blockCount := by
  induction blocks generalizing a with
  | nil => rfl
  | cons b rest ih => rw [foldl_cons, ih, blockCount_markFree]

end BlockAllocator

/-- The blocks have been returned to the allocator. -/
def Mounted.released (s : Mounted cfg) (blocks : List ℕ) : Mounted cfg :=
  s.setAllocator (blocks.foldl .markFree s.mem.allocator)

theorem Apart.released (hs : Sound s) (hT : ∀ b, T b → s.mem.allocator.taken b = true)
    (hfree : ∀ b, T b → b ∉ blocks) : Apart T s (s.released blocks) := by
  have hbad : (s.released blocks).mem.allocator.bad = s.mem.allocator.bad := bad_foldl_markFree
  exact ⟨⟨fun b hb h => by rw [hbad]; exact hs.bad b hb h,
      blockCount_foldl_markFree.trans hs.blockCount_eq⟩,
    fun b hb => (taken_foldl_markFree (hfree b hb)).trans (hT b hb), fun _ _ => rfl,
    fun b _ => congrFun hbad b, fun _ h => h, nothing_more, nothing_more⟩

/-- A file's chain is returned. -/
theorem releaseChain_eq {e : PairEntry} (h : ∀ b ∈ e.chain s.dev.image, b < cfg.blockCount) :
    releaseChain e s = (.ok ⟨⟩, s.released (e.chain s.dev.image)) := by
  rw [releaseChain, M.get_bind, PairEntry.chain] at *
  split_ifs at h ⊢ with hctz
  · rw [walkBlocks_eq h]
    rfl
  · rfl

end SmallAIOS.Fs.LittleFs
