import SmallAIOS.Lib.Fallible
import Mathlib.Data.UInt

/-!
# Raw flash devices

A raw-flash device is made of erase blocks. A block is erased as a whole, to all ones,
and programmed by whole pages, which can only turn ones into zeros. The device keeps a
table of the blocks that are bad, and an erase or a program may fail.

The model has the contents of each block (`Block`, of the right length), the table of
bad blocks, and for each block the failures that its next operations meet (`faults`). It
also records what was on the medium before each erase or program (`cuts`), which is what
a loss of power at that point leaves.

* `erase_eq`, `program_erased`: a block without pending failures that is erased and then
  programmed holds the bytes it was programmed with;
* `Touches`: an operation on a block changes no other one.
-/

namespace SmallAIOS.Fs.Flash

open Lib List Function

inductive FlashError
  | mediaError
  | eccUncorrectable
  | notPresent
  | programOnDirty
  | eraseFailure
  | programFailed
  | badBlock
  | deviceBusy
  | timeout
  | outOfRange
  | unaligned
  deriving DecidableEq

/-- The geometry of a device: an erase block is a whole number of pages. -/
structure Geometry where
  blockSize : ℕ
  pageSize : ℕ
  blockCount : ℕ
  pageSize_pos : 0 < pageSize
  pageSize_dvd : pageSize ∣ blockSize

variable {g : Geometry}

/-- The contents of an erase block. -/
@[ext]
structure Block (g : Geometry) where
  bytes : List UInt8
  length_eq : bytes.length = g.blockSize

namespace Block

attribute [simp] length_eq

/-- The block that starts with these bytes and is erased after them. -/
def ofBytes (g : Geometry) (bs : List UInt8) : Block g where
  bytes := (bs ++ replicate g.blockSize 0xFF).take g.blockSize
  length_eq := by simp

def erased (g : Geometry) : Block g := ofBytes g []

variable (k : Block g) (bs : List UInt8)

/-- Programming these bytes would turn a zero into a one. -/
def dirty : Bool := (bs.zip k.bytes).any fun p => p.1 &&& ~~~p.2 != 0

/-- Program these bytes at the start of the block. -/
def program : Block g where
  bytes := zipWith (· &&& ·) k.bytes (bs ++ replicate g.blockSize 0xFF)
  length_eq := by simp

theorem and_ones (b : UInt8) : 0xFF &&& b = b := by
  rw [UInt8.and_comm]
  exact UInt8.and_neg_one

theorem bytes_erased : (erased g).bytes = replicate g.blockSize 0xFF := by
  change take g.blockSize ([] ++ _) = _
  rw [nil_append, take_replicate, min_self]

theorem bytes_ofBytes (h : bs.length ≤ g.blockSize) :
    (ofBytes g bs).bytes = bs ++ replicate (g.blockSize - bs.length) 0xFF := by
  change take g.blockSize (bs ++ _) = _
  rw [take_append, take_of_length_le h, take_replicate, min_eq_left (Nat.sub_le ..)]

theorem zipWith_ones (n : ℕ) (l : List UInt8) :
    zipWith (· &&& ·) (replicate n (0xFF : UInt8)) l = l.take n := by
  induction n generalizing l with
  | zero => rfl
  | succ n ih =>
    cases l with
    | nil => rfl
    | cons b l => rw [replicate_succ, zipWith_cons_cons, ih, and_ones,
      take_succ_cons]

theorem program_erased : (erased g).program bs = ofBytes g bs := by
  ext1
  change zipWith (· &&& ·) (erased g).bytes _ = take _ _
  rw [bytes_erased, zipWith_ones]

theorem dirty_erased : (erased g).dirty bs = false := by
  rw [dirty, any_eq_false]
  rintro ⟨b, c⟩ hmem
  have hc : c = 0xFF := by
    have := (of_mem_zip hmem).2
    rw [bytes_erased] at this
    exact eq_of_mem_replicate this
  have hzero : b &&& ~~~0xFF = 0 := UInt8.and_zero
  simp [hc, hzero]

end Block

/-- A failure of an operation: the error, and what it leaves of the block. -/
structure Fault (g : Geometry) where
  error : FlashError
  residue : Block g → Block g

/-- What is on the medium. -/
abbrev Image (g : Geometry) := ℕ → Block g

structure Device (g : Geometry) where
  image : Image g
  bad : ℕ → Bool
  /-- The failures that the next operations on a block meet, one after the other; none
      from the end of the list on. -/
  faults : ℕ → List (Option (Fault g))
  /-- What was on the medium before each erase and program. -/
  cuts : List (Image g)

namespace Device

variable (d : Device g) (b : ℕ)

/-- The failure that the next operation on the block meets. -/
def fault : Option (Fault g) := (d.faults b).head?.join

/-- An operation on the block begins. -/
def start : Device g :=
  { d with
    faults := update d.faults b (d.faults b).tail
    cuts := d.cuts ++ [d.image] }

/-- Change the contents of a block. -/
def put (k : Block g) : Device g := { d with image := update d.image b k }

/-- Erase a block. -/
def erase : Fallible (Device g) FlashError Unit := fun d =>
  if g.blockCount ≤ b then (.error .outOfRange, d)
  else if d.bad b then (.error .badBlock, d)
  else match d.fault b with
    | some f => (.error f.error, (d.start b).put b (f.residue (d.image b)))
    | none => (.ok (), (d.start b).put b (.erased g))

/-- Program bytes at the start of a block. -/
def program (bs : List UInt8) : Fallible (Device g) FlashError Unit := fun d =>
  if g.blockCount ≤ b then (.error .outOfRange, d)
  else if bs.length % g.pageSize ≠ 0 then (.error .unaligned, d)
  else if d.bad b then (.error .badBlock, d)
  else match d.fault b with
    | some f => (.error f.error, (d.start b).put b (f.residue (d.image b)))
    | none =>
      if (d.image b).dirty bs then (.error .programOnDirty, d.start b)
      else (.ok (), (d.start b).put b ((d.image b).program bs))

def markBad : Fallible (Device g) FlashError Unit := fun d =>
  if g.blockCount ≤ b then (.error .outOfRange, d)
  else (.ok (), { d with bad := update d.bad b true })

variable {d b} {bs : List UInt8} {x : ℕ} (k : Block g)

theorem image_put_self : (d.put b k).image b = k := update_self ..

/-- A block without pending failures still has none. -/
theorem faults_start (h : d.faults x = []) : (d.start b).faults x = [] := by
  change update d.faults b (d.faults b).tail x = []
  by_cases hx : x = b
  · rw [hx, update_self, ← hx, h, tail_nil]
  · rw [update_of_ne hx, h]

theorem erase_eq (hb : b < g.blockCount) (hbad : d.bad b = false) (hf : d.faults b = []) :
    erase b d = (.ok (), (d.start b).put b (.erased g)) := by
  rw [erase, if_neg (Nat.not_le.2 hb), hbad, fault, hf]
  rfl

theorem program_erased (hb : b < g.blockCount) (hbs : g.pageSize ∣ bs.length)
    (hbad : d.bad b = false) (hf : d.faults b = []) (hk : d.image b = .erased g) :
    program b bs d = (.ok (), (d.start b).put b (.ofBytes g bs)) := by
  rw [program, if_neg (Nat.not_le.2 hb), if_neg (not_not.2 (Nat.mod_eq_zero_of_dvd hbs)), hbad,
    fault, hf, hk, Block.dirty_erased, Block.program_erased]
  rfl

theorem erase_of_ok (h : (erase b d).1 = .ok ()) : (erase b d).2.image b = .erased g := by
  rw [erase] at h ⊢
  split_ifs at h ⊢ with hb hbad
  cases hf : d.fault b with
  | none => exact image_put_self _
  | some f => rw [hf] at h; exact nomatch h

theorem lt_of_erase (h : (erase b d).1 = .ok ()) : b < g.blockCount ∧ d.bad b = false := by
  rw [erase] at h
  split_ifs at h with hb hbad
  exact ⟨Nat.not_le.1 hb, by simpa using hbad⟩

theorem program_of_ok (h : (program b bs d).1 = .ok ()) :
    (program b bs d).2.image b = (d.image b).program bs := by
  rw [program] at h ⊢
  split_ifs at h ⊢ with hb hbs hbad hdirty
  · cases hf : d.fault b <;> rw [hf] at h <;> exact nomatch h
  · cases hf : d.fault b with
    | none => exact image_put_self _
    | some f => rw [hf] at h; exact nomatch h

/-- Only `markBad` finds a block bad. -/
theorem bad_erase : (erase b d).2.bad = d.bad := by
  rw [erase]
  split_ifs
  · rfl
  · rfl
  · cases d.fault b <;> rfl

theorem bad_program : (program b bs d).2.bad = d.bad := by
  rw [program]
  split_ifs
  · rfl
  · rfl
  · rfl
  all_goals cases d.fault b <;> rfl

/-- From `d` to `d'`, operations were made on the block `b` only. -/
structure Touches (b : ℕ) (d d' : Device g) : Prop where
  image : ∀ x ≠ b, d'.image x = d.image x
  bad : ∀ x ≠ b, d'.bad x = d.bad x
  faults : ∀ x, d.faults x = [] → d'.faults x = []
  cuts : ∃ l, d'.cuts = d.cuts ++ l ∧ ∀ c ∈ l, ∀ x ≠ b, c x = d.image x

namespace Touches

variable {d1 d2 d3 : Device g}

theorem refl (b : ℕ) (d : Device g) : Touches b d d :=
  ⟨fun _ _ => rfl, fun _ _ => rfl, fun _ h => h, [], (append_nil _).symm, by simp⟩

theorem trans (h : Touches b d1 d2) (h' : Touches b d2 d3) : Touches b d1 d3 := by
  obtain ⟨l, hl, hmem⟩ := h.cuts
  obtain ⟨l', hl', hmem'⟩ := h'.cuts
  refine ⟨fun x hx => (h'.image x hx).trans (h.image x hx),
    fun x hx => (h'.bad x hx).trans (h.bad x hx), fun x hx => h'.faults x (h.faults x hx),
    l ++ l', by rw [hl', hl, append_assoc], fun c hc x hx => ?_⟩
  rcases mem_append.1 hc with hc | hc
  · exact hmem c hc x hx
  · exact (hmem' c hc x hx).trans (h.image x hx)

section

variable (b : ℕ)

theorem start (d : Device g) : Touches b d (d.start b) := by
  refine ⟨fun _ _ => rfl, fun _ _ => rfl, fun x hx => faults_start hx, [d.image], rfl, ?_⟩
  rintro c hc x -
  rw [mem_singleton.1 hc]

theorem put (d : Device g) : Touches b d (d.put b k) :=
  ⟨fun _ hx => update_of_ne hx .., fun _ _ => rfl, fun _ h => h, [], (append_nil _).symm, by simp⟩

theorem erase (d : Device g) : Touches b d (erase b d).2 := by
  rw [Device.erase]
  split_ifs
  · exact refl b d
  · exact refl b d
  · cases d.fault b with
    | none | some f => exact (start b d).trans (put _ b _)

theorem program (bs : List UInt8) (d : Device g) : Touches b d (program b bs d).2 := by
  rw [Device.program]
  split_ifs
  · exact refl b d
  · exact refl b d
  · exact refl b d
  all_goals
    cases d.fault b with
    | none => exact (start b d).trans <| by first | exact put _ b _ | exact refl b _
    | some f => exact (start b d).trans (put _ b _)

theorem markBad (d : Device g) : Touches b d (markBad b d).2 := by
  rw [Device.markBad]
  split_ifs
  · exact refl b d
  · exact ⟨fun _ _ => rfl, fun x hx => update_of_ne hx .., fun _ h => h, [],
      (append_nil _).symm, by simp⟩

end

end Touches

end Device

end SmallAIOS.Fs.Flash
