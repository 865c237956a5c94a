import SmallAIOS.Kernel.Mem.Buddy
import SmallAIOS.Lib.Dyadic
import SmallAIOS.Lib.Panic

/-!
# The blocks of the buddy allocator

The bits set in the bitmaps of the orders are the free blocks (`freeBlocks`).
Together with the blocks outstanding they tile the region: `setFree` and
`setAllocated` are the insertion and the removal of a free block, `splitDown`
and `mergeUp` are moves of tilings, and the allocator keeps a tiling that is
coalesced (`Inv`). What `allocate` and `free` do is said in these terms
(`Inv.allocate`, `Inv.free`).
-/

namespace SmallAIOS.Mem

open Lib List Option Nat Block

variable {maxPages base N : ℕ} {x : Block} {O O' : List Block}

theorem le_bitmapWords (n : ℕ) : n ≤ 64 * bitmapWords n := by
  rw [bitmapWords]
  omega

/-! ## The bitmaps -/

namespace OrderBitmap

variable (m : OrderBitmap maxPages) {idx : ℕ}

theorem mem?_returns (m : Bitmap (bitmapWords maxPages)) (idx : ℕ) :
    Returns (idx < maxPages) (m.mem? idx) fun r => r = m.mem idx where
  exists_some h := ⟨_, Bitmap.mem?_eq_some.2 ⟨h.trans_le (le_bitmapWords _), rfl⟩⟩
  post _ hr := (Bitmap.mem?_eq_some.1 hr).2.symm

theorem setFree_spec (idx : ℕ) : Returns (idx < maxPages) (m.setFree idx) fun m' =>
    m'.numBlocks = m.numBlocks ∧ ∀ j, m'.bits.mem j = (decide (j = idx) || m.bits.mem j) := by
  rw [setFree]
  split
  · next hm => exact .none fun h => by simpa [hm] using (mem?_returns m.bits idx).exists_some h
  · next hm =>
    refine .some ⟨rfl, fun j => ?_⟩
    by_cases hj : j = idx
    · simp [hj, (Bitmap.mem?_eq_some.1 hm).2]
    · simp [hj]
  · next hm => exact .some ⟨rfl, Bitmap.mem_insert _ (Bitmap.mem?_eq_some.1 hm).1⟩

theorem setAllocated_spec (idx : ℕ) : Returns (idx < maxPages) (m.setAllocated idx) fun m' =>
    m'.numBlocks = m.numBlocks ∧ ∀ j, m'.bits.mem j = (!decide (j = idx) && m.bits.mem j) := by
  rw [setAllocated]
  split
  · next hm => exact .none fun h => by simpa [hm] using (mem?_returns m.bits idx).exists_some h
  · next hm =>
    refine .some ⟨rfl, fun j => ?_⟩
    by_cases hj : j = idx
    · simp [hj, (Bitmap.mem?_eq_some.1 hm).2]
    · simp [hj]
  · exact .some ⟨rfl, Bitmap.mem_erase _ _⟩

end OrderBitmap

section

variable (m : Bitmap (bitmapWords maxPages)) (page count : ℕ)
include m

theorem insert?_returns (idx : ℕ) :
    Returns (idx < maxPages) (m.insert? idx) fun m' =>
      ∀ j, m'.mem j = (decide (j = idx) || m.mem j) where
  exists_some h := ⟨_, Bitmap.insert?_eq_some.2 ⟨h.trans_le (le_bitmapWords _), rfl⟩⟩
  post m' hm := by
    obtain ⟨h, rfl⟩ := Bitmap.insert?_eq_some.1 hm
    exact Bitmap.mem_insert _ h

theorem erase?_returns (idx : ℕ) :
    Returns (idx < maxPages) (m.erase? idx) fun m' =>
      ∀ j, m'.mem j = (!decide (j = idx) && m.mem j) where
  exists_some h := ⟨_, Bitmap.erase?_eq_some.2 ⟨h.trans_le (le_bitmapWords _), rfl⟩⟩
  post m' hm := by
    obtain ⟨-, rfl⟩ := Bitmap.erase?_eq_some.1 hm
    exact Bitmap.mem_erase _ _

theorem markAllocated_spec :
    Returns (page + count ≤ maxPages) (markAllocated m page count) fun m' =>
      ∀ j, m'.mem j = (decide (page ≤ j ∧ j < page + count) || m.mem j) := by
  induction count generalizing page m with
  | zero => exact .some fun j => by simp
  | succ count ih =>
    refine ((insert?_returns m page).weaken (by omega)).bind fun m1 hm1 => ?_
    refine ((ih m1 (page + 1)).weaken (by omega)).mono fun m' hm' j => ?_
    grind

theorem markFree_spec :
    Returns (page + count ≤ maxPages) (markFree m page count) fun m' =>
      ∀ j, m'.mem j = (!decide (page ≤ j ∧ j < page + count) && m.mem j) := by
  induction count generalizing page m with
  | zero => exact .some fun j => by grind
  | succ count ih =>
    refine ((erase?_returns m page).weaken (by omega)).bind fun m1 hm1 => ?_
    refine ((ih m1 (page + 1)).weaken (by omega)).mono fun m' hm' j => ?_
    grind

end

namespace BuddyAllocator

variable {b b' b'' : BuddyAllocator maxPages}

/-- The blocks marked free. -/
def freeBlocks (b : BuddyAllocator maxPages) : Finset Block :=
  (Finset.range numOrders).biUnion fun k => (b.orders k).bits.toFinset.image (Block.mk k)

theorem mem_freeBlocks :
    x ∈ b.freeBlocks ↔ x.order ≤ maxOrder ∧ (b.orders x.order).bits.mem x.index = true := by
  simp only [freeBlocks, Finset.mem_biUnion, Finset.mem_range, Finset.mem_image,
    Bitmap.mem_toFinset, numOrders, Nat.lt_succ_iff]
  constructor
  · rintro ⟨k, hk, i, hi, rfl⟩
    exact ⟨hk, hi⟩
  · rintro ⟨hk, hi⟩
    exact ⟨x.order, hk, x.index, hi, rfl⟩

/-- Everything but the free blocks is as it was. -/
structure Frame (b b' : BuddyAllocator maxPages) : Prop where
  base : b'.base = b.base
  totalPages : b'.totalPages = b.totalPages
  allocMap : b'.allocMap = b.allocMap
  freePages : b'.freePages = b.freePages
  numBlocks : ∀ k, (b'.orders k).numBlocks = (b.orders k).numBlocks

theorem Frame.refl (b : BuddyAllocator maxPages) : Frame b b := ⟨rfl, rfl, rfl, rfl, fun _ => rfl⟩

theorem Frame.trans (h : Frame b b') (h' : Frame b' b'') : Frame b b'' where
  base := h'.base.trans h.base
  totalPages := h'.totalPages.trans h.totalPages
  allocMap := h'.allocMap.trans h.allocMap
  freePages := h'.freePages.trans h.freePages
  numBlocks k := (h'.numBlocks k).trans (h.numBlocks k)

theorem orders_setOrder (k : ℕ) (m : OrderBitmap maxPages) :
    (b.setOrder k m).orders = Function.update b.orders k m := rfl

variable {m : OrderBitmap maxPages} {k : ℕ}

theorem frame_setOrder (hn : m.numBlocks = (b.orders k).numBlocks) : Frame b (b.setOrder k m) := by
  refine ⟨rfl, rfl, rfl, rfl, fun j => ?_⟩
  rw [orders_setOrder]
  by_cases h : j = k
  · rw [h, Function.update_self, hn]
  · rw [Function.update_of_ne h]

theorem mem_freeBlocks_setOrder (hk : k ≤ maxOrder) :
    x ∈ (b.setOrder k m).freeBlocks ↔
      if x.order = k then m.bits.mem x.index = true else x ∈ b.freeBlocks := by
  rw [mem_freeBlocks, orders_setOrder]
  split
  · next h => simp [h, hk]
  · next h => simp [h, mem_freeBlocks]

theorem setFree_spec (b : BuddyAllocator maxPages) (hk : x.order ≤ maxOrder) :
    Returns (x.index < maxPages) (b.setFree x.order x.index) fun b' =>
      Frame b b' ∧ b'.freeBlocks = insert x b.freeBlocks := by
  refine ((b.orders x.order).setFree_spec x.index).map fun m ⟨hn, hmem⟩ =>
    ⟨frame_setOrder hn, ?_⟩
  ext ⟨k, i⟩
  rw [mem_freeBlocks_setOrder hk, Finset.mem_insert, mem_freeBlocks]
  obtain ⟨k', i'⟩ := x
  by_cases h : k = k'
  · simp_all
  · simp [h]

theorem setAllocated_spec (b : BuddyAllocator maxPages) (hk : x.order ≤ maxOrder) :
    Returns (x.index < maxPages) (b.setAllocated x.order x.index) fun b' =>
      Frame b b' ∧ b'.freeBlocks = b.freeBlocks.erase x := by
  refine ((b.orders x.order).setAllocated_spec x.index).map fun m ⟨hn, hmem⟩ =>
    ⟨frame_setOrder hn, ?_⟩
  ext ⟨k, i⟩
  rw [mem_freeBlocks_setOrder hk, Finset.mem_erase, mem_freeBlocks]
  obtain ⟨k', i'⟩ := x
  by_cases h : k = k'
  · simp_all
  · simp [h]

/-! ## Splitting and merging -/

/-- The order found is the first one that has a free block. -/
theorem searchOrder_spec (b : BuddyAllocator maxPages) (k : ℕ) :
    (b.searchOrder k ≤ maxOrder →
      k ≤ b.searchOrder k ∧ (b.orders (b.searchOrder k)).findFree.isSome) ∧
    ∀ j, k ≤ j → j < b.searchOrder k → (b.orders j).findFree = none := by
  fun_induction searchOrder b k with
  | case1 k hk hf => exact ⟨fun _ => ⟨le_rfl, hf⟩, fun j h1 h2 => by omega⟩
  | case2 k hk hf ih =>
    refine ⟨fun h => ⟨(le_succ k).trans (ih.1 h).1, (ih.1 h).2⟩, fun j h1 h2 => ?_⟩
    rcases h1.eq_or_lt with rfl | h1
    · simpa using hf
    · exact ih.2 j h1 h2
  | case3 k hk => exact ⟨fun h => absurd h hk, fun j h1 h2 => by omega⟩

theorem splitDown_spec {order current idx : ℕ} (hle : order ≤ current) (hcur : current ≤ maxOrder)
    (ht : Tiling N b.freeBlocks (⟨current, idx⟩ :: O)) (hc : Coalesced maxOrder b.freeBlocks) :
    Returns (N ≤ maxPages) (splitDown order current idx b) fun r =>
      r.1 * 2 ^ order = idx * 2 ^ current ∧ Frame b r.2 ∧
      Tiling N r.2.freeBlocks (⟨order, r.1⟩ :: O) ∧ Coalesced maxOrder r.2.freeBlocks := by
  induction current generalizing idx b with
  | zero =>
    obtain rfl := le_zero.1 hle
    exact .some ⟨rfl, .refl b, ht, hc⟩
  | succ current ih =>
    rw [splitDown]
    split
    · next hlt =>
      -- The halves of the block are `⟨current, idx * 2⟩` and its buddy.
      have hparent : (⟨current + 1, idx⟩ : Block) = parent ⟨current, idx * 2⟩ := by
        simp [parent]
      have hbuddy : buddy ⟨current, idx * 2⟩ = ⟨current, idx * 2 + 1⟩ := by
        simp [buddy]
      rw [hparent] at ht
      have hleft := ht.not_mem_of_cons (mem_parent (first_mem_pages _)) (first_mem_pages _)
      have ht' := ht.split
      have hidx : N ≤ maxPages → idx * 2 + 1 < maxPages := fun hN =>
        index_lt_of_end_le ((hbuddy ▸ ht'.end_le (Finset.mem_insert_self ..)).trans hN)
      have hset := b.setFree_spec (x := ⟨current, idx * 2 + 1⟩) (show current ≤ maxOrder by omega)
      refine (hset.weaken hidx).bind fun b1 hb1 => ?_
      obtain ⟨hfr, hfree⟩ := hb1
      rw [hbuddy, ← hfree] at ht'
      have hc' : Coalesced maxOrder b1.freeBlocks := by
        rw [hfree, ← hbuddy]
        exact hc.insert fun _ => by rwa [buddy_buddy]
      refine (ih (by omega) (by omega) ht' hc').mono fun r hr => ?_
      obtain ⟨hidx, hfr', h⟩ := hr
      refine ⟨?_, hfr.trans hfr', h⟩
      rw [hidx, pow_succ, mul_assoc, mul_comm 2]
    · next hge =>
      obtain rfl : order = current + 1 := by omega
      exact .some ⟨rfl, .refl b, ht, hc⟩

theorem mergeUp_spec {order idx : ℕ} (hle : order ≤ maxOrder)
    (hn : ∀ k, (b.orders k).numBlocks = N / 2 ^ k)
    (ht : Tiling N b.freeBlocks (⟨order, idx⟩ :: O)) (hc : Coalesced maxOrder b.freeBlocks) :
    Returns (N ≤ maxPages) (mergeUp order idx b) fun r =>
      Frame b r.2.2 ∧ r.1 ≤ maxOrder ∧ Tiling N r.2.2.freeBlocks (⟨r.1, r.2.1⟩ :: O) ∧
      Coalesced maxOrder r.2.2.freeBlocks ∧
      (r.1 < maxOrder → buddy ⟨r.1, r.2.1⟩ ∉ r.2.2.freeBlocks) := by
  induction hgap : maxOrder - order generalizing order idx b with
  | zero =>
    rw [mergeUp, if_neg (by omega)]
    exact .some ⟨.refl b, hle, ht, hc, fun h => absurd h (by omega)⟩
  | succ gap ih =>
    have hlt : order < maxOrder := by omega
    rw [mergeUp, if_pos hlt]
    split
    · next hout =>
      -- A buddy out of the region is not free.
      refine .some ⟨.refl b, hle, ht, hc, fun _ hmem => ?_⟩
      have hend := ht.end_le hmem
      rw [hn, ← not_lt] at hout
      exact hout ((Nat.le_div_iff_mul_le (Nat.two_pow_pos _)).2 hend)
    · next hin =>
      have hidx : N ≤ maxPages → idx ^^^ 1 < maxPages := by
        rw [hn, not_le] at hin
        exact ((hin.trans_le (div_le_self ..)).trans_le)
      have hfree := OrderBitmap.mem?_returns (b.orders order).bits (idx ^^^ 1)
      split
      · next h =>
        refine .none fun hN => ?_
        obtain ⟨r, hr⟩ := hfree.exists_some (hidx hN)
        exact some_ne_none r (hr.symm.trans h)
      · next h =>
        refine .some ⟨.refl b, hle, ht, hc, fun _ hbud => ?_⟩
        exact Bool.false_ne_true ((hfree.post _ h).trans (mem_freeBlocks.1 hbud).2)
      · next h =>
        have hbud : buddy ⟨order, idx⟩ ∈ b.freeBlocks :=
          mem_freeBlocks.2 ⟨hle, (hfree.post _ h).symm⟩
        have hset := b.setAllocated_spec (x := buddy ⟨order, idx⟩) hle
        refine (hset.weaken hidx).bind fun b1 hb1 => ?_
        obtain ⟨hfr, hfree⟩ := hb1
        have ht' := ht.merge hbud
        rw [← hfree] at ht'
        exact (ih hlt (fun k => (hfr.numBlocks k).trans (hn k)) ht'
          (hfree ▸ hc.erase _) (by omega)).mono fun r hr => ⟨hfr.trans hr.1, hr.2⟩

/-! ## The invariant -/

/-- The allocator manages the `N` pages from `base` on, of which the blocks `O` are taken. -/
structure Inv (base N : ℕ) (O : List Block) (b : BuddyAllocator maxPages) : Prop where
  base_eq : b.base = base
  aligned : base % pageSize4K = 0
  fits : 0 < N → base + N * pageSize4K < 2 ^ 64
  totalPages : b.totalPages = N
  numBlocks : ∀ k, (b.orders k).numBlocks = N / 2 ^ k
  tiling : Tiling N b.freeBlocks O
  coalesced : Coalesced maxOrder b.freeBlocks
  order_le : ∀ x ∈ O, x.order ≤ maxOrder
  allocMap : ∀ p, b.allocMap.mem p = true ↔ ∃ x ∈ O, p ∈ x.pages
  freePages : b.freePages + (O.map (2 ^ ·.order)).sum = N

/-- The address of a block of a region. -/
def blockAddr (base : ℕ) (x : Block) : ℕ := base + x.index * 2 ^ x.order * pageSize4K

theorem Inv.perm (h : Inv base N O b) (hO : O.Perm O') : Inv base N O' b where
  __ := h
  tiling := h.tiling.perm hO
  order_le x hx := h.order_le x (hO.mem_iff.2 hx)
  allocMap p := by simp only [h.allocMap, hO.mem_iff]
  freePages := by rw [← (hO.map _).sum_eq, h.freePages]

/-- The scan of an order finds its free blocks. -/
theorem findFree_some {k i : ℕ} (hk : k ≤ maxOrder) (hi : (b.orders k).findFree = some i) :
    ⟨k, i⟩ ∈ b.freeBlocks :=
  mem_freeBlocks.2 ⟨hk, (Bitmap.firstBelow_some hi).1⟩

section

variable (h : Inv base N O b)
include h

theorem Inv.findFree_none (hx : (b.orders x.order).findFree = none) : x ∉ b.freeBlocks := by
  intro hmem
  have hlt : x.index < (b.orders x.order).numBlocks := by
    rw [h.numBlocks]
    exact (Nat.le_div_iff_mul_le (Nat.two_pow_pos _)).2 (h.tiling.end_le hmem)
  have hfalse := Bitmap.firstBelow_none hx hlt
  exact Bool.false_ne_true (hfalse.symm.trans (mem_freeBlocks.1 hmem).2)

theorem Inv.blockAddr_lt (hx : (x.index + 1) * 2 ^ x.order ≤ N) : blockAddr base x < 2 ^ 64 := by
  have hle := (mul_le_mul_right _ (le_succ _)).trans hx
  have hpos : 0 < N := (zero_le _).trans_lt (index_lt_of_end_le hx)
  have := mul_le_mul_right pageSize4K hle
  exact (Nat.add_le_add_left this base).trans_lt (h.fits hpos)

/-- Blocks start at pages. -/
theorem Inv.blockAddr_mod (x : Block) : blockAddr base x % pageSize4K = 0 := by
  rw [blockAddr, add_mul_mod_self_right]
  exact h.aligned

theorem Inv.alignDown_blockAddr (x : Block) :
    alignDown (blockAddr base x) pageSize4K = blockAddr base x := by
  rw [alignDown_page]
  exact Nat.div_mul_cancel (Nat.dvd_of_mod_eq_zero (h.blockAddr_mod x))

/-- The pages of a free block are counted as free. -/
theorem Inv.le_freePages (hx : x ∈ b.freeBlocks) : 2 ^ x.order ≤ b.freePages := by
  have hsum := (h.tiling.take hx).sum_pages_le
  have hfp := h.freePages
  rw [map_cons, sum_cons] at hsum
  omega

/-- Without free pages there is no block to find. -/
theorem Inv.searchOrder_of_freePages (h0 : b.freePages = 0) (k : ℕ) :
    maxOrder < b.searchOrder k := by
  by_contra hs
  rw [not_lt] at hs
  obtain ⟨j, hj⟩ := isSome_iff_exists.1 ((b.searchOrder_spec k).1 hs).2
  have hpos := Nat.two_pow_pos (b.searchOrder k)
  have hle : 2 ^ b.searchOrder k ≤ b.freePages := h.le_freePages (findFree_some hs hj)
  omega

end

/-- If there is no block of one order or a larger one, there is none of a larger order. -/
theorem searchOrder_mono (b : BuddyAllocator maxPages) {k k' : ℕ} (hle : k ≤ k')
    (hs : maxOrder < b.searchOrder k) : maxOrder < b.searchOrder k' := by
  by_contra hs'
  rw [not_lt] at hs'
  obtain ⟨hle', hsome⟩ := (b.searchOrder_spec k').1 hs'
  rw [(b.searchOrder_spec k).2 _ (hle.trans hle') (hs'.trans_lt hs)] at hsome
  exact Bool.false_ne_true hsome

/-- What `allocate` and `free` need of a block: its pages can be marked. -/
theorem index_lt_of_end_le (hN : N ≤ maxPages) (hx : (x.index + 1) * 2 ^ x.order ≤ N) :
    x.index < maxPages :=
  Block.index_lt_of_end_le (hx.trans hN)

/-- The block found is taken, and split down to the order asked for. -/
theorem Inv.allocate_found (h : Inv base N O b) {k j : ℕ} (hk : k ≤ maxOrder)
    (hle : k ≤ b.searchOrder k) (hs : b.searchOrder k ≤ maxOrder)
    (hj : (b.orders (b.searchOrder k)).findFree = some j) :
    Returns (N ≤ maxPages) (b.allocate k) fun r => ∃ i,
      i * 2 ^ k = j * 2 ^ b.searchOrder k ∧
      r.1 = .ok (blockAddr base ⟨k, i⟩) ∧ Inv base N (⟨k, i⟩ :: O) r.2 := by
  have hmem := findFree_some hs hj
  rw [BuddyAllocator.allocate, if_neg (by omega), if_neg (by omega)]
  dsimp only
  rw [hj]
  have hset := b.setAllocated_spec (x := ⟨b.searchOrder k, j⟩) hs
  refine (hset.weaken fun hN => index_lt_of_end_le hN (h.tiling.end_le hmem)).bind
    fun b1 ⟨hfr1, hfree1⟩ => ?_
  refine (splitDown_spec hle hs (hfree1 ▸ h.tiling.take hmem)
    (hfree1 ▸ h.coalesced.erase _)).bind fun ⟨i, b2⟩ ⟨hi, hfr2, ht, hc⟩ => ?_
  have hfr := hfr1.trans hfr2
  have hend := ht.end_le_taken mem_cons_self
  have hadd : checkedAdd b2.base (i * 2 ^ k * pageSize4K) = some (blockAddr base ⟨k, i⟩) :=
    checkedAdd_eq_some.2 ⟨by rw [hfr.base, h.base_eq]; exact h.blockAddr_lt (x := ⟨k, i⟩) hend,
      by rw [hfr.base, h.base_eq, blockAddr]⟩
  have hpages : 2 ^ k + (O.map (2 ^ ·.order)).sum ≤ N := ht.sum_pages_le
  have hfp := h.freePages
  rw [hadd, bind_eq_bind, bind_some, if_neg (by rw [hfr.freePages]; omega)]
  have hmark := markAllocated_spec b2.allocMap (i * 2 ^ k) (2 ^ k)
  refine (hmark.weaken fun hN => ?_).bind fun m hm => .some ⟨i, hi, rfl, ?_⟩
  · rw [add_mul, one_mul] at hend
    exact hend.trans hN
  refine ⟨hfr.base.trans h.base_eq, h.aligned, h.fits, hfr.totalPages.trans h.totalPages,
    fun k => (hfr.numBlocks k).trans (h.numBlocks k), ht, hc, ?_, ?_, ?_⟩
  · rintro x hx
    rcases mem_cons.1 hx with rfl | hx
    · exact hk
    · exact h.order_le x hx
  · intro p
    rw [hm, Bool.or_eq_true, decide_eq_true_iff, hfr.allocMap, h.allocMap]
    simp only [mem_cons, exists_eq_or_imp, pages, Finset.mem_Ico, add_mul, one_mul]
  · rw [map_cons, sum_cons, hfr.freePages]
    dsimp only
    omega

/-- `allocate` takes a block out of a free one that is no smaller, and fails if there is none. -/
theorem Inv.allocate (h : Inv base N O b) (k : ℕ) :
    (maxOrder < k ∧ b.allocate k = some (.error .orderTooLarge, b)) ∨
    (k ≤ maxOrder ∧ (∀ x ∈ b.freeBlocks, x.order < k) ∧
      b.allocate k = some (.error .outOfMemory, b)) ∨
    (k ≤ maxOrder ∧ (∃ x ∈ b.freeBlocks, k ≤ x.order) ∧
      Returns (N ≤ maxPages) (b.allocate k) fun r => ∃ i,
        r.1 = .ok (blockAddr base ⟨k, i⟩) ∧ Inv base N (⟨k, i⟩ :: O) r.2) := by
  by_cases hk : maxOrder < k
  · exact .inl ⟨hk, by rw [BuddyAllocator.allocate, if_pos hk]⟩
  have hk' : k ≤ maxOrder := by omega
  obtain ⟨hfound, hnone⟩ := b.searchOrder_spec k
  by_cases hs : maxOrder < b.searchOrder k
  · refine .inr (.inl ⟨hk', fun x hx => ?_, ?_⟩)
    · by_contra hle
      have := (mem_freeBlocks.1 hx).1
      exact h.findFree_none (hnone x.order (by omega) (by omega)) hx
    · rw [BuddyAllocator.allocate, if_neg hk, if_pos hs]
  · rw [not_lt] at hs
    obtain ⟨hle, hsome⟩ := hfound hs
    obtain ⟨j, hj⟩ := isSome_iff_exists.1 hsome
    refine .inr (.inr ⟨hk', ⟨_, findFree_some hs hj, hle⟩, ?_⟩)
    exact (h.allocate_found hk' hle hs hj).mono fun r ⟨i, _, hr⟩ => ⟨i, hr⟩

/-- Without the pages of a block, those of the other blocks taken are allocated. -/
theorem Inv.allocMap_tail (h : Inv base N (x :: O) b) (p : ℕ) :
    p ∉ x.pages ∧ b.allocMap.mem p = true ↔ ∃ y ∈ O, p ∈ y.pages := by
  simp only [h.allocMap, mem_cons, exists_eq_or_imp]
  constructor
  · exact fun ⟨hnx, hO⟩ => hO.resolve_left hnx
  · -- The pages of the other blocks are not those of this one.
    rintro ⟨y, hy, hpy⟩
    refine ⟨fun hpx => ?_, .inr ⟨y, hy, hpy⟩⟩
    exact Finset.disjoint_left.1 (rel_of_pairwise_cons h.tiling.pairwise hy) hpx hpy

/-- `free` gives back a block taken. -/
theorem Inv.free (h : Inv base N (x :: O) b) :
    Returns (N ≤ maxPages) (b.free (blockAddr base x) x.order) fun r =>
      r.1 = .ok () ∧ Inv base N O r.2 := by
  have hk := h.order_le x mem_cons_self
  have hend := h.tiling.end_le_taken mem_cons_self
  have hal := isAligned_page.2 (h.blockAddr_mod x)
  have hpage : (blockAddr base x - b.base) / pageSize4K = x.index * 2 ^ x.order := by
    rw [h.base_eq, blockAddr, Nat.add_sub_cancel_left, Nat.mul_div_cancel _ (by decide)]
  have hpages (hN : N ≤ maxPages) : x.index * 2 ^ x.order + 2 ^ x.order ≤ maxPages := by
    rw [add_mul, one_mul] at hend
    exact hend.trans hN
  have hpos := Nat.two_pow_pos x.order
  rw [BuddyAllocator.free, if_neg (by omega), if_neg (by simp [hal]),
    if_neg (by rw [h.base_eq, blockAddr]; omega), if_neg (by rw [hpage, not_not, mul_mod_left])]
  dsimp only
  rw [hpage, Nat.mul_div_cancel _ hpos]
  refine ((OrderBitmap.mem?_returns _ _).weaken fun hN => by have := hpages hN; omega).bind
    fun r hr => ?_
  rw [hr, (h.allocMap _).2 ⟨x, mem_cons_self, x.first_mem_pages⟩]
  refine ((markFree_spec _ _ _).weaken hpages).bind fun m hm => ?_
  -- Merge the block, and mark what it was merged into as free.
  refine (mergeUp_spec (b := { b with allocMap := m, freePages := b.freePages + 2 ^ x.order })
    hk h.numBlocks h.tiling h.coalesced).bind fun ⟨k, i, b1⟩ ⟨hfr1, hk1, ht, hc, hbud⟩ => ?_
  have hset := b1.setFree_spec (x := ⟨k, i⟩) hk1
  refine (hset.weaken fun hN => index_lt_of_end_le hN (ht.end_le_taken mem_cons_self)).bind
    fun b2 ⟨hfr2, hfree⟩ => .some ⟨rfl, ?_⟩
  have hfr := hfr1.trans hfr2
  refine ⟨hfr.base.trans h.base_eq, h.aligned, h.fits, hfr.totalPages.trans h.totalPages,
    fun k => (hfr.numBlocks k).trans (h.numBlocks k), hfree ▸ ht.give,
    hfree ▸ hc.insert hbud, fun y hy => h.order_le y (mem_cons_of_mem _ hy), ?_, ?_⟩
  · intro p
    have hx : p ∈ x.pages ↔ x.index * 2 ^ x.order ≤ p ∧
        p < x.index * 2 ^ x.order + 2 ^ x.order := by
      rw [pages, Finset.mem_Ico, add_mul, one_mul]
    rw [hfr.allocMap, hm, Bool.and_eq_true, Bool.not_eq_true', decide_eq_false_iff_not, ← hx]
    exact h.allocMap_tail p
  · have := h.freePages
    rw [map_cons, sum_cons] at this
    rw [hfr.freePages]
    dsimp only
    omega

end BuddyAllocator

end SmallAIOS.Mem
