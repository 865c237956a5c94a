import SmallAIOS.Fs.Flash.Device
import SmallAIOS.Fs.LittleFs.Format
import SmallAIOS.Lib.Chunks

/-!
# Chains of blocks

A file that does not fit in a tag is kept in a chain of blocks. The first block is full of
data. Every other one ends with the number of the block before it, and leaves room for as
many words as the trailing zeros of its index ask for, plus one; the file is given by the
last block, the head, and its size.

* `le_capacity`: the blocks of a chain hold the file;
* `walkChain_eq`, `readCtzAt_eq`: what is read from a chain in range;
* `Laid.chainFrom_eq`, `Laid.ctzContent_eq`: a chain that was written block by block is
  the one that is walked, and gives its data back.
-/

namespace SmallAIOS.Fs.LittleFs

open Lib Flash List Nat Chunks

/-- The configuration of a mount. It is that of the device: `prog_size` is the size of its pages. -/
structure Config extends Geometry where
  blockCycles : ℤ
  cacheSize : ℕ
  blockSize_ge : 8 ≤ blockSize
  blockSize_lt : blockSize < 2 ^ 32
  /-- The cursor of the allocator does not overflow. -/
  blockCount_le : blockCount ≤ 2 ^ 31

inductive LittleFsError
  | badMagic
  | unsupportedMajorVersion (version : ℕ)
  | corrupted
  | outOfBounds
  | notFound
  | badType
  | badPath
  | io
  | unsupported
  deriving DecidableEq

/-! ## The size of a chain -/

/-- The trailing zeros of a word of 64 bits. -/
def trailingZeros (n : ℕ) : ℕ := ((range 64).takeWhile fun k => n % 2 ^ (k + 1) = 0).length

/-- The data that the block with this index holds. -/
def ctzPayload (blockSize idx : ℕ) : ℕ :=
  if idx = 0 then blockSize else blockSize - 4 * (trailingZeros idx + 1)

/-- The loop that adds blocks until they hold `size` bytes. -/
def chainLengthLoop (blockSize size : ℕ) : ℕ → ℕ → ℕ → ℕ
  | 0, _, idx => idx + 1
  | fuel + 1, total, idx =>
    if size ≤ total + ctzPayload blockSize idx then idx + 1
    else chainLengthLoop blockSize size fuel (total + ctzPayload blockSize idx) (idx + 1)

/-- The number of blocks of a file of `size` bytes. -/
def ctzChainLength (blockSize size : ℕ) : ℕ :=
  if size = 0 then 1 else chainLengthLoop blockSize size size 0 0

variable {bs size n : ℕ}

theorem ctzPayload_le (bs idx : ℕ) : ctzPayload bs idx ≤ bs := by
  rw [ctzPayload]
  split_ifs <;> omega

theorem trailingZeros_odd (h : n % 2 = 1) : trailingZeros n = 0 := by
  rw [trailingZeros, show range 64 = 0 :: (range 63).map succ from
    range_succ_eq_map]
  simp [h]

/-- Two blocks in a row hold something. -/
theorem le_capacity_two_mul (hbs : 8 ≤ bs) (k : ℕ) : 4 * k ≤ capacity (ctzPayload bs) (2 * k) := by
  induction k with
  | zero => exact Nat.zero_le _
  | succ k ih =>
    have hodd : ctzPayload bs (2 * k + 1) = bs - 4 := by
      rw [ctzPayload, if_neg (succ_ne_zero _), trailingZeros_odd (by omega)]
    rw [show 2 * (k + 1) = 2 * k + 1 + 1 by omega, capacity, capacity]
    omega

theorem le_capacity_self (hbs : 8 ≤ bs) (k : ℕ) : k ≤ capacity (ctzPayload bs) (k + 1) := by
  have heven := le_capacity_two_mul hbs ((k + 1) / 2)
  rcases mod_two_eq_zero_or_one (k + 1) with h | h
  · rw [show k + 1 = 2 * ((k + 1) / 2) by omega]
    omega
  · rw [show k + 1 = 2 * ((k + 1) / 2) + 1 by omega, capacity]
    omega

theorem chainLengthLoop_pos (fuel total idx : ℕ) : 0 < chainLengthLoop bs size fuel total idx := by
  induction fuel generalizing total idx with
  | zero => exact succ_pos idx
  | succ fuel ih =>
    rw [chainLengthLoop]
    split_ifs
    · exact succ_pos idx
    · exact ih _ _

theorem ctzChainLength_pos (bs size : ℕ) : 0 < ctzChainLength bs size := by
  rw [ctzChainLength]
  split_ifs
  · exact one_pos
  · exact chainLengthLoop_pos _ _ _

theorem le_capacity_loop (hbs : 8 ≤ bs) (fuel idx : ℕ) (h : size ≤ fuel + idx) :
    size ≤ capacity (ctzPayload bs)
      (chainLengthLoop bs size fuel (capacity (ctzPayload bs) idx) idx) := by
  induction fuel generalizing idx with
  | zero =>
    exact le_trans (by omega) (le_capacity_self hbs idx)
  | succ fuel ih =>
    rw [chainLengthLoop]
    split_ifs with hle
    · exact hle
    · exact ih (idx + 1) (by omega)

/-- The blocks of a chain hold the file. -/
theorem le_capacity (hbs : 8 ≤ bs) (size : ℕ) :
    size ≤ capacity (ctzPayload bs) (ctzChainLength bs size) := by
  rw [ctzChainLength]
  split_ifs with h
  · omega
  · exact le_capacity_loop hbs size 0 (le_refl _)

/-! ## Walking and reading a chain -/

variable {cfg : Config} (img : Image cfg.toGeometry)

/-- The number of the block before, at the end of a block. -/
def prevBlock (b : ℕ) : ℕ := readU32Le ((img b).bytes.drop (cfg.blockSize - 4))

/-- The block and the `k` ones before it, from the last one on. -/
def chainFrom : ℕ → ℕ → List ℕ
  | 0, b => [b]
  | k + 1, b => b :: chainFrom k (prevBlock img b)

/-- The blocks of a file, from the last one on. -/
def chainBlocks (head size : ℕ) : List ℕ :=
  chainFrom img (ctzChainLength cfg.blockSize size - 1) head

/-- Walk back from a block. A block is read before it is left. -/
def walkChain : ℕ → ℕ → Except LittleFsError (List ℕ)
  | 0, b => .ok [b]
  | k + 1, b =>
    if cfg.blockCount ≤ b then .error .io
    else (walkChain k (prevBlock img b)).map (b :: ·)

/-- Walk over all blocks of a file. -/
def walkBlocks (head size : ℕ) : Except LittleFsError (List ℕ) :=
  walkChain img (ctzChainLength cfg.blockSize size - 1) head

/-- Read from the blocks of a file, given in order from the index `idx` and the position `pos` of
    the file on. -/
def streamOut : List ℕ → ℕ → ℕ → ℕ → ℕ → Except LittleFsError (List UInt8)
  | [], _, _, _, _ => .ok []
  | b :: rest, idx, pos, off, len =>
    let blockEnd := pos + ctzPayload cfg.blockSize idx
    if len = 0 then .ok []
    else if blockEnd ≤ off then streamOut rest (idx + 1) blockEnd off len
    else if cfg.blockCount ≤ b then .error .io
    else
      let n := min (blockEnd - off) len
      (streamOut rest (idx + 1) blockEnd (off + n) (len - n)).map
        (((img b).bytes.drop (off - pos)).take n ++ ·)

/-- Read `len` bytes of a file from an offset on. -/
def readCtzAt (head size off len : ℕ) : Except LittleFsError (List UInt8) :=
  if len = 0 then .ok []
  else do
    let chain ← walkBlocks img head size
    let out ← streamOut img chain.reverse 0 0 off len
    if out.length < len then .error .outOfBounds else .ok out

/-- The data in the blocks, given in order from the index `idx` on. -/
def blocksData : ℕ → List ℕ → List (List UInt8)
  | _, [] => []
  | idx, b :: rest => (img b).bytes.take (ctzPayload cfg.blockSize idx) :: blocksData (idx + 1) rest

/-- The contents of a file in a chain. -/
def ctzContent (head size : ℕ) : List UInt8 :=
  (blocksData img 0 (chainBlocks img head size).reverse).flatten.take size

variable {img} {head k b idx pos off len : ℕ} {blocks : List ℕ}

@[simp] theorem length_chainFrom : (chainFrom img k b).length = k + 1 := by
  induction k generalizing b with
  | zero => rfl
  | succ k ih => rw [chainFrom, length_cons, ih]

theorem walkChain_eq (h : ∀ x ∈ chainFrom img k b, x < cfg.blockCount) :
    walkChain img k b = .ok (chainFrom img k b) := by
  induction k generalizing b with
  | zero => rfl
  | succ k ih =>
    rw [chainFrom, forall_mem_cons] at h
    rw [walkChain, if_neg (not_le.2 h.1), ih h.2]
    rfl

theorem walkBlocks_eq (h : ∀ x ∈ chainBlocks img head size, x < cfg.blockCount) :
    walkBlocks img head size = .ok (chainBlocks img head size) := walkChain_eq h

/-- A chain is the same on images that agree on its blocks. -/
theorem chainFrom_congr {img' : Image cfg.toGeometry}
    (h : ∀ x ∈ chainFrom img k b, img' x = img x) : chainFrom img' k b = chainFrom img k b := by
  induction k generalizing b with
  | zero => rfl
  | succ k ih =>
    rw [chainFrom, forall_mem_cons] at h
    have hprev : prevBlock img' b = prevBlock img b := by rw [prevBlock, h.1, prevBlock]
    rw [chainFrom, chainFrom, hprev, ih h.2]

theorem length_blocksData : (blocksData img idx blocks).length = blocks.length := by
  induction blocks generalizing idx with
  | nil => rfl
  | cons b rest ih => rw [blocksData, length_cons, length_cons, ih]

theorem streamOut_zero : streamOut img blocks idx pos off 0 = .ok [] := by
  cases blocks <;> rfl

theorem length_flatten_blocksData (img : Image cfg.toGeometry) (idx : ℕ) (blocks : List ℕ) :
    (capacity (ctzPayload cfg.blockSize) idx) + (blocksData img idx blocks).flatten.length =
      capacity (ctzPayload cfg.blockSize) (idx + blocks.length) := by
  induction blocks generalizing idx with
  | nil => rfl
  | cons b rest ih =>
    have := ih (idx + 1)
    rw [capacity] at this
    rw [blocksData, flatten_cons, length_append, length_take, Block.length_eq,
      min_eq_left (ctzPayload_le ..), length_cons, ← add_assoc, this, add_right_comm,
      add_assoc]

/-- The bytes read are those of the data in the blocks. -/
theorem streamOut_eq (h : ∀ x ∈ blocks, x < cfg.blockCount) (hpos : pos ≤ off) :
    streamOut img blocks idx pos off len =
      .ok (((blocksData img idx blocks).flatten.drop (off - pos)).take len) := by
  induction blocks generalizing idx pos off len with
  | nil => simp [streamOut, blocksData]
  | cons b rest ih =>
    rw [forall_mem_cons] at h
    have hlen : ((img b).bytes.take (ctzPayload cfg.blockSize idx)).length =
        ctzPayload cfg.blockSize idx := by
      rw [length_take, Block.length_eq, min_eq_left (ctzPayload_le ..)]
    rw [streamOut]
    dsimp only
    by_cases h0 : len = 0
    · rw [if_pos h0, h0, take_zero]
    rw [if_neg h0, blocksData, flatten_cons]
    by_cases hend : pos + ctzPayload cfg.blockSize idx ≤ off
    · have hnil : ((img b).bytes.take (ctzPayload cfg.blockSize idx)).drop (off - pos) = [] :=
        drop_eq_nil_of_le (by omega)
      rw [if_pos hend, ih h.2 hend, drop_append, hlen, hnil, nil_append, Nat.sub_sub]
    · rw [if_neg hend, if_neg (not_le.2 h.1), drop_append_of_le_length (by omega),
        take_append, length_drop, hlen]
      have hdrop : ((img b).bytes.take (ctzPayload cfg.blockSize idx)).drop (off - pos) =
          ((img b).bytes.drop (off - pos)).take (pos + ctzPayload cfg.blockSize idx - off) := by
        rw [drop_take]
        congr 1
        omega
      rw [hdrop, take_take, min_comm]
      rcases le_total len (pos + ctzPayload cfg.blockSize idx - off) with hle | hle
      · rw [min_eq_left hle, Nat.sub_self, streamOut_zero,
          show len - (ctzPayload cfg.blockSize idx - (off - pos)) = 0 by omega]
        rfl
      · rw [min_eq_right hle, ih h.2 (by omega), show off + (pos + ctzPayload cfg.blockSize idx -
          off) - (pos + ctzPayload cfg.blockSize idx) = 0 by omega,
          show len - (ctzPayload cfg.blockSize idx - (off - pos)) =
            len - (pos + ctzPayload cfg.blockSize idx - off) by omega]
        rfl

theorem length_chainBlocks :
    (chainBlocks img head size).length = ctzChainLength cfg.blockSize size := by
  have := ctzChainLength_pos cfg.blockSize size
  rw [chainBlocks, length_chainFrom]
  omega

theorem le_length_data (img : Image cfg.toGeometry) (head size : ℕ) :
    size ≤ (blocksData img 0 (chainBlocks img head size).reverse).flatten.length := by
  have hlen := length_flatten_blocksData img 0 (chainBlocks img head size).reverse
  rw [capacity, zero_add, zero_add, length_reverse, length_chainBlocks] at hlen
  rw [hlen]
  exact le_capacity cfg.blockSize_ge size

@[simp] theorem length_ctzContent : (ctzContent img head size).length = size := by
  rw [ctzContent, length_take, min_eq_left (le_length_data ..)]

/-- What is read from a chain in range is a part of the contents of the file. -/
theorem readCtzAt_eq (h : ∀ x ∈ chainBlocks img head size, x < cfg.blockCount)
    (hle : off + len ≤ size) :
    readCtzAt img head size off len = .ok (((ctzContent img head size).drop off).take len) := by
  rw [readCtzAt]
  split_ifs with h0
  · rw [h0, take_zero]
  have hdata := le_length_data img head size
  have hout : ∀ l : List UInt8, size ≤ l.length →
      ((l.take size).drop off).take len = (l.drop off).take len := by
    intro l _
    rw [drop_take, take_take, min_eq_left (by omega)]
  rw [walkBlocks_eq h]
  change (streamOut img _ 0 0 off len >>= _) = _
  rw [streamOut_eq (fun x hx => h x (mem_reverse.1 hx)) (Nat.zero_le off), ctzContent, hout _ hdata]
  refine if_neg ?_
  rw [length_take, length_drop]
  omega

/-! ## Writing a chain -/

/-- A block of a chain: the data, and at the end the number of the block before. -/
def ctzBuf (cfg : Config) (data : List UInt8) (prev : Option ℕ) : List UInt8 :=
  let buf := data ++ replicate (cfg.blockSize - data.length) 0xFF
  match prev with
  | none => buf
  | some p => buf.take (cfg.blockSize - 4) ++ leBytes 4 p

variable {data : List UInt8} {prev : Option ℕ}

theorem length_ctzBuf (h : data.length ≤ cfg.blockSize) :
    (ctzBuf cfg data prev).length = cfg.blockSize := by
  have hbs := cfg.blockSize_ge
  cases prev with
  | none =>
    rw [ctzBuf, length_append, length_replicate]
    omega
  | some p =>
    rw [ctzBuf, length_append, length_take, length_append, length_replicate, length_leBytes]
    omega

theorem bytes_ctzBuf (h : data.length ≤ cfg.blockSize) :
    (Block.ofBytes cfg.toGeometry (ctzBuf cfg data prev)).bytes = ctzBuf cfg data prev := by
  rw [Block.bytes_ofBytes _ (length_ctzBuf h).le, length_ctzBuf h, Nat.sub_self,
    replicate_zero, append_nil]

/-- A block starts with its data. -/
theorem prefix_ctzBuf (hdata : data.length ≤ n) (hn : n ≤ cfg.blockSize)
    (hprev : prev = none ∨ n ≤ cfg.blockSize - 4) : data <+: (ctzBuf cfg data prev).take n := by
  have hpre : data <+: (data ++ replicate (cfg.blockSize - data.length) 0xFF).take n := by
    rw [take_append, take_of_length_le hdata]
    exact prefix_append ..
  cases prev with
  | none => exact hpre
  | some p =>
    have hle : n ≤ cfg.blockSize - 4 := by simpa using hprev
    rw [ctzBuf, take_append_of_le_length, take_take, min_eq_left hle]
    · exact hpre
    · rw [length_take, length_append, length_replicate]
      omega

/-- A block ends with the number of the one before. -/
theorem drop_ctzBuf {p : ℕ} (h : data.length ≤ cfg.blockSize) :
    (ctzBuf cfg data (some p)).drop (cfg.blockSize - 4) = leBytes 4 p := by
  refine drop_left' ?_
  rw [length_take, length_append, length_replicate]
  omega

/-- The blocks were written with the data, in order from the index `idx` on, after the block `prev`.
    -/
def Laid (img : Image cfg.toGeometry) (data : List UInt8) : ℕ → Option ℕ → List ℕ → Prop
  | _, _, [] => True
  | idx, prev, b :: rest =>
    img b = .ofBytes _ (ctzBuf cfg (chunk (ctzPayload cfg.blockSize) data idx) prev) ∧
      Laid img data (idx + 1) (some b) rest

theorem length_chunk_le (idx : ℕ) :
    (chunk (ctzPayload cfg.blockSize) data idx).length ≤ ctzPayload cfg.blockSize idx := by
  rw [length_chunk]
  exact min_le_left ..

theorem length_chunk_le_blockSize (idx : ℕ) :
    (chunk (ctzPayload cfg.blockSize) data idx).length ≤ cfg.blockSize :=
  (length_chunk_le idx).trans (ctzPayload_le ..)

theorem Laid.filled (h : Laid img data idx prev blocks) (hprev : idx = 0 → prev = none) :
    Chunks.Filled (ctzPayload cfg.blockSize) data idx (blocksData img idx blocks) := by
  induction blocks generalizing idx prev with
  | nil => exact trivial
  | cons b rest ih =>
    refine ⟨?_, ?_, ih h.2 fun h0 => absurd h0 (succ_ne_zero idx)⟩
    · rw [length_take, Block.length_eq, min_eq_left (ctzPayload_le ..)]
    · rw [h.1, bytes_ctzBuf (length_chunk_le_blockSize idx)]
      refine prefix_ctzBuf (length_chunk_le idx) (ctzPayload_le ..) ?_
      cases idx with
      | zero => exact .inl (hprev rfl)
      | succ idx =>
        rw [ctzPayload, if_neg (succ_ne_zero idx)]
        exact .inr (by omega)

theorem Laid.of_concat {x : ℕ} (h : Laid img data idx prev (blocks ++ [x])) :
    Laid img data idx prev blocks ∧ ∃ i, img x = .ofBytes _
      (ctzBuf cfg (chunk (ctzPayload cfg.blockSize) data i) (blocks.getLast?.or prev)) := by
  induction blocks generalizing idx prev with
  | nil => exact ⟨trivial, idx, h.1⟩
  | cons b rest ih =>
    obtain ⟨hrest, i, hi⟩ := ih h.2
    refine ⟨⟨h.1, hrest⟩, i, ?_⟩
    rw [hi, getLast?_cons]
    cases rest.getLast? <;> rfl

/-- The chain that is walked from the last block. -/
theorem Laid.chainFrom_eq (h : Laid img data 0 none blocks) (hlast : blocks.getLast? = some head)
    (hlt : ∀ x ∈ blocks, x < 2 ^ 32) : chainFrom img (blocks.length - 1) head = blocks.reverse := by
  induction blocks using reverseRecOn generalizing head with
  | nil => exact nomatch hlast
  | append_singleton blocks x ih =>
    rw [getLast?_concat, Option.some.injEq] at hlast
    subst hlast
    obtain ⟨hlaid, i, hx⟩ := h.of_concat
    rw [length_append, length_singleton, Nat.add_sub_cancel, reverse_append]
    rcases hl : blocks.getLast? with _ | p
    · rw [getLast?_eq_none_iff.1 hl]
      rfl
    · have hmem : p ∈ blocks := mem_of_getLast? hl
      have hp : p < 2 ^ 32 := hlt p (mem_append_left _ hmem)
      have hlen := (Nat.sub_add_cancel (length_pos_of_mem hmem)).symm
      have hprev : prevBlock img x = p := by
        rw [prevBlock, hx, hl, Option.some_or, bytes_ctzBuf (length_chunk_le_blockSize i),
          drop_ctzBuf (length_chunk_le_blockSize i), readU32Le,
          take_of_length_le length_leBytes.le, leVal_leBytes (by omega)]
      rw [hlen, chainFrom, hprev, ih hlaid hl fun y hy => hlt y (mem_append_left _ hy)]
      rfl

/-- A chain that was written holds its data. -/
theorem Laid.ctzContent_eq (h : Laid img data 0 none blocks)
    (hlen : blocks.length = ctzChainLength cfg.blockSize data.length)
    (hlast : blocks.getLast? = some head) (hlt : ∀ x ∈ blocks, x < 2 ^ 32) :
    chainBlocks img head data.length = blocks.reverse ∧ ctzContent img head data.length = data := by
  have hchain : chainBlocks img head data.length = blocks.reverse := by
    rw [chainBlocks, ← hlen, h.chainFrom_eq hlast hlt]
  refine ⟨hchain, ?_⟩
  have hdata : (blocksData img 0 blocks).length = blocks.length := length_blocksData
  rw [ctzContent, hchain, reverse_reverse]
  refine (h.filled fun _ => rfl).take_flatten_of_le ?_
  rw [hdata, hlen]
  exact le_capacity cfg.blockSize_ge _

end SmallAIOS.Fs.LittleFs
