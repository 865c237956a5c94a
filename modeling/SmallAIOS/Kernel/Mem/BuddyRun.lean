import SmallAIOS.Kernel.Mem.BuddyTiling

/-!
# Runs of the buddy allocator

The allocator starts with one region, which is broken into blocks from its
start on, each as large as possible: this leaves no two buddies free. In every
run from there, in which only outstanding blocks are freed:

* the blocks tile the region, the page bitmap and the counters agree with them,
  and no call panics (`run_tiles`);
* `allocate` runs out of memory exactly if no block of its order has all its
  pages unallocated (`run_allocate_complete`).
-/

namespace SmallAIOS.Mem.BuddyAllocator

open Lib List Nat Block

variable {maxPages base N : ℕ} {b b' : BuddyAllocator maxPages}

/-! ## Adding the region -/

/-- The order chosen for a block is the largest one at which it is aligned and fits. -/
theorem growOrder_spec {q r k : ℕ} (hk : k ≤ maxOrder) (hq : 2 ^ k ∣ q) (hr : 2 ^ k ≤ r) :
    growOrder q r k ≤ maxOrder ∧ 2 ^ growOrder q r k ∣ q ∧ 2 ^ growOrder q r k ≤ r ∧
      (growOrder q r k < maxOrder → 2 ^ (growOrder q r k + 1) ∣ q →
        r < 2 ^ (growOrder q r k + 1)) := by
  fun_induction growOrder q r k with
  | case1 k hlt hstop =>
    refine ⟨hk, hq, hr, fun _ hdvd => ?_⟩
    exact hstop.resolve_left (not_not.2 (mod_eq_zero_of_dvd hdvd))
  | case2 k hlt hgo ih =>
    rw [not_or, not_not, not_lt] at hgo
    exact ih hlt (dvd_of_mod_eq_zero hgo.1) hgo.2
  | case3 k hge => exact ⟨hk, hq, hr, fun h => absurd h hge⟩

/-- The first `q` of the `N` pages have been added, each block as large as possible. -/
structure Region (base N q : ℕ) (b : BuddyAllocator maxPages) : Prop where
  base_eq : b.base = base
  totalPages : b.totalPages = N
  numBlocks : ∀ k, (b.orders k).numBlocks = N / 2 ^ k
  allocMap : ∀ p, b.allocMap.mem p = false
  freePages : b.freePages = q
  tiling : Tiling q b.freeBlocks []
  largest : ∀ x ∈ b.freeBlocks, x.order < maxOrder → x.index % 2 = 0 →
    N < (x.index + 2) * 2 ^ x.order

theorem Region.coalesced (h : Region base N N b) : Coalesced maxOrder b.freeBlocks := by
  -- Of two buddies, the left one would have been chosen with the next order.
  have key (x : Block) (hx : x ∈ b.freeBlocks) (hk : x.order < maxOrder) (heven : x.index % 2 = 0) :
      x.buddy ∉ b.freeBlocks := by
    intro hbud
    have h1 := h.largest x hx hk heven
    have h2 : ((x.index ^^^ 1) + 1) * 2 ^ x.order ≤ N := h.tiling.end_le hbud
    rw [xor_one_eq, if_pos heven] at h2
    exact h1.not_ge h2
  intro x hx hk hbud
  by_cases heven : x.index % 2 = 0
  · exact key x hx hk heven hbud
  · refine key x.buddy hbud hk ?_ (by rwa [buddy_buddy])
    rw [buddy, xor_one_eq, if_neg heven]
    dsimp only
    omega

theorem Region.inv (h : Region base N N b) (hal : base % pageSize4K = 0)
    (hfits : 0 < N → base + N * pageSize4K < 2 ^ 64) : Inv base N [] b where
  base_eq := h.base_eq
  aligned := hal
  fits := hfits
  totalPages := h.totalPages
  numBlocks := h.numBlocks
  tiling := h.tiling
  coalesced := h.coalesced
  order_le := by simp
  allocMap p := by simp [h.allocMap]
  freePages := by simp [h.freePages]

/-- One more block. -/
theorem Region.extend {q k : ℕ} (h : Region base N q b) (hdvd : 2 ^ k ∣ q)
    (hfits : 2 ^ k ≤ N - q) (hlarge : k < maxOrder → 2 ^ (k + 1) ∣ q → N - q < 2 ^ (k + 1))
    (hfr : Frame b b') (hfree : b'.freeBlocks = insert ⟨k, q / 2 ^ k⟩ b.freeBlocks) :
    Region base N (q + 2 ^ k) { b' with freePages := b'.freePages + 2 ^ k } := by
  have hq := Nat.div_mul_cancel hdvd
  refine ⟨hfr.base.trans h.base_eq, hfr.totalPages.trans h.totalPages,
    fun k => (hfr.numBlocks k).trans (h.numBlocks k), (hfr.allocMap ▸ h.allocMap),
    by rw [hfr.freePages, h.freePages], ?_, ?_⟩
  · have ht : Tiling ((⟨k, q / 2 ^ k⟩ : Block).index * 2 ^ k) b.freeBlocks [] := by
      rw [hq]
      exact h.tiling
    have := ht.extend
    rw [add_mul, hq, one_mul, ← hfree] at this
    exact this
  · intro x hx hlt heven
    rcases Finset.mem_insert.1 (hfree ▸ hx) with rfl | hx
    · -- An even block is aligned at the next order, so it did not fit there.
      have hdvd' : 2 ^ (k + 1) ∣ q := by
        rw [← hq, pow_succ, mul_comm]
        exact mul_dvd_mul_right (dvd_of_mod_eq_zero heven) _
      have := hlarge hlt hdvd'
      change N < (q / 2 ^ k + 2) * 2 ^ k
      rw [add_mul]
      omega
    · exact h.largest x hx hlt heven

theorem addBlocks_spec {q : ℕ} (hq : q ≤ N) (h : Region base N q b) :
    Returns (N ≤ maxPages) (b.addBlocks (base + q * pageSize4K) (base + N * pageSize4K))
      (Region base N N) := by
  induction hgap : N - q using Nat.strong_induction_on generalizing q b with
  | _ gap ih =>
    rw [addBlocks]
    by_cases hlt : q < N
    · have hlt' : base + q * pageSize4K < base + N * pageSize4K :=
        Nat.add_lt_add_left (Nat.mul_lt_mul_of_pos_right hlt (by decide)) _
      have hpage : (base + q * pageSize4K - b.base) / pageSize4K = q := by
        rw [h.base_eq, Nat.add_sub_cancel_left, Nat.mul_div_cancel _ (by decide)]
      have hrem : (base + N * pageSize4K - (base + q * pageSize4K)) / pageSize4K = N - q := by
        rw [Nat.add_sub_add_left, ← Nat.sub_mul, Nat.mul_div_cancel _ (by decide)]
      have hord : b.regionOrder (base + q * pageSize4K) (base + N * pageSize4K) =
          growOrder q (N - q) 0 := by
        rw [regionOrder, hpage, hrem]
      obtain ⟨hk, hdvd, hfits, hlarge⟩ := growOrder_spec (r := N - q)
        (zero_le _) (one_dvd q) (by omega)
      have hset := (b.setFree_spec
        (x := ⟨growOrder q (N - q) 0, q / 2 ^ growOrder q (N - q) 0⟩) hk).weaken fun hN =>
          (div_le_self ..).trans_lt (hlt.trans_le hN)
      rw [if_pos hlt', if_neg (by rw [h.base_eq]; omega), hord, hpage]
      split
      · next hnone => exact .none fun hN => by simpa [hnone] using hset.exists_some hN
      · next b1 hb1 =>
        obtain ⟨hfr, hfree⟩ := hset.post b1 hb1
        have hnext := ih _ (by omega) (by omega) (h.extend hdvd hfits hlarge hfr hfree) rfl
        rwa [add_mul, ← add_assoc] at hnext
    · obtain rfl : q = N := by omega
      rw [if_neg (lt_irrefl _)]
      exact .some h

/-! ## Runs -/

/-- The allocator over one region. -/
def boot (maxPages base size : ℕ) : Option (BuddyAllocator maxPages) :=
  ((new : BuddyAllocator maxPages).init base size).bind (·.addFreeRegion base size)

/-- The allocator `b` over a region is reached by calls of `allocate` and `free`; `out` are the
    blocks allocated and not freed since, by their addresses and orders. Only those are freed. -/
inductive Run (maxPages base size : ℕ) : List (ℕ × ℕ) → BuddyAllocator maxPages → Prop
  | boot {b : BuddyAllocator maxPages} : boot maxPages base size = some b →
    Run maxPages base size [] b
  | allocate {b b' : BuddyAllocator maxPages} {out : List (ℕ × ℕ)} {addr order : ℕ} :
    Run maxPages base size out b → b.allocate order = some (.ok addr, b') →
      Run maxPages base size ((addr, order) :: out) b'
  | fail {b b' : BuddyAllocator maxPages} {out : List (ℕ × ℕ)} {e : MemError} {order : ℕ} :
    Run maxPages base size out b → b.allocate order = some (.error e, b') →
      Run maxPages base size out b'
  | free {b b' : BuddyAllocator maxPages} {out : List (ℕ × ℕ)} {r : Except MemError Unit}
      {addr order : ℕ} :
    Run maxPages base size out b → (addr, order) ∈ out → b.free addr order = some (r, b') →
      Run maxPages base size (out.erase (addr, order)) b'

/-- The block of a region at an address. -/
def blockAt (base : ℕ) (y : ℕ × ℕ) : Block := ⟨y.2, (y.1 - base) / pageSize4K / 2 ^ y.2⟩

theorem blockAt_blockAddr (base : ℕ) (x : Block) :
    blockAt base (blockAddr base x, x.order) = x := by
  rw [blockAt, blockAddr, Nat.add_sub_cancel_left, Nat.mul_div_cancel _ (by decide),
    Nat.mul_div_cancel _ (Nat.two_pow_pos _)]

variable {size : ℕ}

theorem region_init (h : (new : BuddyAllocator maxPages).init base size = some b) :
    base % pageSize4K = 0 ∧ Region base (size / pageSize4K) 0 b := by
  rw [init] at h
  split at h
  · cases h
  · next hal =>
    cases h
    refine ⟨isAligned_page.1 (by simpa using hal), rfl, rfl, fun _ => rfl, Bitmap.mem_empty, rfl,
      ?_, ?_⟩
    · convert Tiling.empty
      rw [Finset.eq_empty_iff_forall_notMem]
      intro x hx
      exact Bool.false_ne_true ((Bitmap.mem_empty _).symm.trans (mem_freeBlocks.1 hx).2)
    · intro x hx
      exact absurd ((Bitmap.mem_empty _).symm.trans (mem_freeBlocks.1 hx).2) Bool.false_ne_true

/-- Adding the region to the allocator initialised for it. -/
theorem Region.addFreeRegion (h : Region base (size / pageSize4K) 0 b)
    (hal : base % pageSize4K = 0) :
    Returns (size / pageSize4K ≤ maxPages ∧ base + size / pageSize4K * pageSize4K < 2 ^ 64)
      (b.addFreeRegion base size) (Inv base (size / pageSize4K) []) := by
  have hal' := isAligned_page.2 hal
  rw [BuddyAllocator.addFreeRegion, alignDown_page, hal']
  by_cases h0 : size = 0
  · subst h0
    exact .some (h.inv hal fun h => absurd h (by decide))
  rw [if_neg (by simpa using h0)]
  by_cases hfits : base + size / pageSize4K * pageSize4K < 2 ^ 64
  · have hadd := addBlocks_spec (zero_le _) h
    rw [checkedAdd_eq_some.2 ⟨hfits, rfl⟩]
    exact (hadd.weaken And.left).mono fun b' hreg => hreg.inv hal fun _ => hfits
  · rw [checkedAdd, if_neg hfits]
    exact .none fun hsafe => hfits hsafe.2

/-- A region within the address space can be managed, if the bitmaps have room for its pages. -/
theorem boot_spec (maxPages base size : ℕ) :
    Returns (base % pageSize4K = 0 ∧ size / pageSize4K ≤ maxPages ∧
        base + size / pageSize4K * pageSize4K < 2 ^ 64)
      (boot maxPages base size) (Inv base (size / pageSize4K) []) := by
  cases h₀ : (new : BuddyAllocator maxPages).init base size with
  | none =>
    rw [boot, h₀]
    refine .none fun hsafe => ?_
    rw [init, isAligned_page.2 hsafe.1] at h₀
    cases h₀
  | some b0 =>
    obtain ⟨hal, hreg⟩ := region_init h₀
    rw [boot, h₀]
    exact (hreg.addFreeRegion hal).weaken And.right

variable {out : List (ℕ × ℕ)}

theorem Run.inv (h : Run maxPages base size out b) :
    Inv base (size / pageSize4K) (out.map (blockAt base)) b ∧
      ∀ y ∈ out, blockAddr base (blockAt base y) = y.1 := by
  induction h with
  | boot h => exact ⟨(boot_spec maxPages base size).post _ h, by simp⟩
  | @allocate b b' out addr order _ h ih =>
    obtain ⟨hinv, haddr⟩ := ih
    rcases hinv.allocate order with ⟨-, h'⟩ | ⟨-, -, h'⟩ | ⟨-, -, h'⟩
    · rw [h] at h'; cases h'
    · rw [h] at h'; cases h'
    · obtain ⟨i, hok, hinv'⟩ := h'.post _ h
      cases hok
      have hat := blockAt_blockAddr base ⟨order, i⟩
      refine ⟨by rw [map_cons]; exact hat.symm ▸ hinv', fun y hy => ?_⟩
      rcases mem_cons.1 hy with rfl | hy
      · exact congrArg _ hat
      · exact haddr y hy
  | @fail b b' out e order _ h ih =>
    rcases ih.1.allocate order with ⟨-, h'⟩ | ⟨-, -, h'⟩ | ⟨-, -, h'⟩
    · rw [h] at h'; cases h'; exact ih
    · rw [h] at h'; cases h'; exact ih
    · obtain ⟨i, hok, -⟩ := h'.post _ h
      cases hok
  | @free b b' out r addr order _ hmem h ih =>
    obtain ⟨hinv, haddr⟩ := ih
    have hperm := (perm_cons_erase hmem).map (blockAt base)
    have h' := (hinv.perm hperm).free
    rw [haddr _ hmem] at h'
    exact ⟨(h'.post _ h).2, fun y hy => haddr y (mem_of_mem_erase hy)⟩

/-- The pages of an outstanding block. -/
def outPages (base : ℕ) (y : ℕ × ℕ) : Finset ℕ :=
  Finset.Ico ((y.1 - base) / pageSize4K) ((y.1 - base) / pageSize4K + 2 ^ y.2)

theorem outPages_eq {y : ℕ × ℕ} (h : blockAddr base (blockAt base y) = y.1) :
    outPages base y = (blockAt base y).pages := by
  have hpage : (y.1 - base) / pageSize4K = (blockAt base y).index * 2 ^ y.2 := by
    rw [← h, blockAddr, Nat.add_sub_cancel_left, Nat.mul_div_cancel _ (by decide)]
    rfl
  rw [outPages, hpage, pages, add_mul, one_mul]
  rfl

/-- What holds of an allocator over `N` pages with the blocks `out` outstanding. -/
structure Tiled (base N : ℕ) (out : List (ℕ × ℕ)) (b : BuddyAllocator maxPages) : Prop where
  disjoint_free : ∀ x ∈ b.freeBlocks, ∀ y ∈ b.freeBlocks, x ≠ y → Disjoint x.pages y.pages
  disjoint_out : out.Pairwise fun y z => Disjoint (outPages base y) (outPages base z)
  disjoint : ∀ x ∈ b.freeBlocks, ∀ y ∈ out, Disjoint x.pages (outPages base y)
  cover : ∀ p, ((∃ x ∈ b.freeBlocks, p ∈ x.pages) ∨ ∃ y ∈ out, p ∈ outPages base y) ↔ p < N
  aligned : ∀ y ∈ out, ∃ i, y.1 = base + i * 2 ^ y.2 * pageSize4K
  allocMap : ∀ p, b.allocMap.mem p = true ↔ ∃ y ∈ out, p ∈ outPages base y
  freeCount : ∀ k, (b.orders k).freeCount = (b.orders k).bits.toFinset.card
  totalPages : b.totalPages = N
  freePages : b.freePages + (out.map (2 ^ ·.2)).sum = b.totalPages
  allocate_total : N ≤ maxPages → ∀ k, ∃ r, b.allocate k = some r
  free_ok : N ≤ maxPages → ∀ y ∈ out, ∃ b', b.free y.1 y.2 = some (.ok (), b')

theorem Inv.tiled (h : Inv base N (out.map (blockAt base)) b)
    (haddr : ∀ y ∈ out, blockAddr base (blockAt base y) = y.1) : Tiled base N out b := by
  have hpages (y : ℕ × ℕ) (hy : y ∈ out) := outPages_eq (haddr y hy)
  have hmem (p : ℕ) : (∃ x ∈ out.map (blockAt base), p ∈ x.pages) ↔
      ∃ y ∈ out, p ∈ outPages base y := by
    constructor
    · rintro ⟨x, hx, hp⟩
      obtain ⟨y, hy, rfl⟩ := mem_map.1 hx
      exact ⟨y, hy, by rwa [hpages y hy]⟩
    · rintro ⟨y, hy, hp⟩
      exact ⟨_, mem_map_of_mem hy, by rwa [← hpages y hy]⟩
  refine ⟨fun x hx y hy => h.tiling.disjoint_free hx hy, ?_, fun x hx y hy => ?_, fun p => ?_,
    fun y hy => ⟨_, (haddr y hy).symm⟩, fun p => (h.allocMap p).trans (hmem p),
    fun k => (b.orders k).freeCount_eq, h.totalPages, ?_, fun hN k => ?_, fun hN y hy => ?_⟩
  · refine (pairwise_map.1 h.tiling.pairwise).imp_of_mem fun hy hz hyz => ?_
    rwa [hpages _ hy, hpages _ hz]
  · rw [hpages y hy]
    exact h.tiling.disjoint_taken hx (mem_map_of_mem hy)
  · rw [← hmem]
    exact h.tiling.exists_iff
  · have := h.freePages
    rw [map_map] at this
    exact this.trans h.totalPages.symm
  · rcases h.allocate k with ⟨-, h'⟩ | ⟨-, -, h'⟩ | ⟨-, -, h'⟩
    · exact ⟨_, h'⟩
    · exact ⟨_, h'⟩
    · exact h'.exists_some hN
  · have hfree := (h.perm ((perm_cons_erase hy).map (blockAt base))).free
    rw [haddr y hy] at hfree
    obtain ⟨⟨r, b'⟩, hb', rfl, -⟩ := hfree.get hN
    exact ⟨b', hb'⟩

/-- Over every region of at most `maxPages` pages the allocator starts, unless the region ends past
    the address space, and in every run the free and the outstanding blocks tile it. -/
theorem run_tiles {maxPages base size : ℕ} (hsize : size / pageSize4K ≤ maxPages) :
    (base % pageSize4K = 0 → base + size / pageSize4K * pageSize4K < 2 ^ 64 →
      ∃ b, Run maxPages base size [] b) ∧
    ∀ out (b : BuddyAllocator maxPages), Run maxPages base size out b →
      Tiled base (size / pageSize4K) out b := by
  refine ⟨fun hal hfits => ?_, fun out b h => h.inv.1.tiled h.inv.2⟩
  obtain ⟨b, hb⟩ := (boot_spec maxPages base size).exists_some ⟨hal, hsize, hfits⟩
  exact ⟨b, .boot hb⟩

/-- One page of 16 is outstanding after it was allocated. -/
theorem run_tiles_page : ∃ addr b, Run 1024 0x100000 0x10000 [(addr, 0)] b ∧ b.freePages = 15 := by
  have hsize : 0x10000 / pageSize4K ≤ 1024 := by decide
  have htiles := @run_tiles 1024 0x100000 0x10000 hsize
  obtain ⟨b, hb⟩ := htiles.1 (by decide) (by decide)
  -- Page 0 is in a free block, so the allocation cannot fail.
  rcases hb.inv.1.allocate 0 with ⟨hlt, -⟩ | ⟨-, hnone, -⟩ | ⟨-, -, h⟩
  · exact absurd hlt (by decide)
  · rcases ((htiles.2 _ _ hb).cover 0).2 (by decide) with ⟨x, hx, -⟩ | ⟨y, hy, -⟩
    · exact absurd (hnone x hx) (not_lt_zero _)
    · cases hy
  · obtain ⟨⟨r, b'⟩, h, i, rfl, -⟩ := h.get hsize
    have hb' := Run.allocate hb h
    have hpages := (htiles.2 _ _ hb').freePages
    rw [(htiles.2 _ _ hb').totalPages] at hpages
    refine ⟨_, b', hb', ?_⟩
    have : 0x10000 / pageSize4K = 16 := by decide
    simp at hpages
    omega

/-! ## Completeness of allocation -/

/-- In every run no block below the largest order and its buddy are both free, and an allocation
    runs out of memory exactly if no run of pages of its size, aligned to its size, is unallocated.
    -/
theorem run_allocate_complete {size : ℕ} {out : List (ℕ × ℕ)} (h : Run maxPages base size out b) :
    (∀ x ∈ b.freeBlocks, x.order < maxOrder → x.buddy ∉ b.freeBlocks) ∧
    ∀ k ≤ maxOrder, (∃ b', b.allocate k = some (.error .outOfMemory, b')) ↔
      ¬ ∃ i, (i + 1) * 2 ^ k ≤ size / pageSize4K ∧
        ∀ p ∈ pages ⟨k, i⟩, ∀ y ∈ out, p ∉ outPages base y := by
  obtain ⟨hinv, haddr⟩ := h.inv
  have htiled := hinv.tiled haddr
  refine ⟨hinv.coalesced, fun k hk => ⟨?_, fun hno => ?_⟩⟩
  · rintro ⟨b', hb'⟩ ⟨i, hend, hfree⟩
    -- The run would be within a free block.
    obtain ⟨x, hx, hle⟩ := hinv.tiling.exists_free_of_coalesced hinv.coalesced (r := ⟨k, i⟩) hk
      fun p hp => by
        have hlt := (Finset.mem_Ico.1 hp).2.trans_le hend
        refine ((htiled.cover p).2 hlt).resolve_right ?_
        rintro ⟨y, hy, hpy⟩
        exact hfree p hp y hy hpy
    rcases hinv.allocate k with ⟨hgt, -⟩ | ⟨-, hnone, -⟩ | ⟨-, -, h'⟩
    · omega
    · exact absurd (hnone x hx) (not_lt.2 hle)
    · obtain ⟨j, hok, -⟩ := h'.post _ hb'
      cases hok
  · rcases hinv.allocate k with ⟨hgt, -⟩ | ⟨-, -, h'⟩ | ⟨-, ⟨x, hx, hle⟩, -⟩
    · omega
    · exact ⟨b, h'⟩
    · -- The first pages of a free block are such a run.
      have hfirst : x.index * 2 ^ x.order ∈ pages ⟨k, x.index * 2 ^ x.order / 2 ^ k⟩ :=
        mem_pages.2 rfl
      have hsub := pages_subset hle hfirst x.first_mem_pages
      refine (hno ⟨x.index * 2 ^ x.order / 2 ^ k, ?_, fun p hp y hy => ?_⟩).elim
      · exact Tiling.end_le_of_forall_lt
          fun p hp => hinv.tiling.lt_of_mem hx (hsub hp)
      · exact Finset.disjoint_left.1 (htiled.disjoint x hx y hy) (hsub hp)

theorem run_allocate_complete_boot : ∃ b, Run 1024 0x100000 0x10000 [] b ∧
    ¬ ∃ b', b.allocate 4 = some (.error .outOfMemory, b') := by
  have hsize : 0x10000 / pageSize4K ≤ 1024 := by decide
  obtain ⟨b, hb⟩ := (boot_spec 1024 0x100000 0x10000).exists_some ⟨by decide, hsize, by decide⟩
  refine ⟨b, .boot hb, ?_⟩
  rw [(run_allocate_complete (.boot hb)).2 4 (by decide), not_not]
  exact ⟨0, by decide, by simp⟩

end SmallAIOS.Mem.BuddyAllocator
