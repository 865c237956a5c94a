import SmallAIOS.Lib.Run
import SmallAIOS.Lib.Word
import Mathlib.Data.List.Chain

/-!
# Redundancy management of AFDX

Every frame of a virtual link is sent on two networks, with a sequence number of 8 bits. The
receiver hands the numbers of the frames that arrive to a `RedundancyManager`, which keeps the
number of the last frame it accepted and takes every other number to be new.

* Frames are counted from `0` in the order of sending. A run is an interleaving of what happens
  on the networks (`Event`): the next frame of a network arrives or is lost. `InStep` keeps the
  networks less than 128 frames apart.
* What a manager is for is `Correct`: frames are delivered in order and at most once, a frame is
  delivered if it arrives before a later one was delivered, and the frames counted as lost are
  those skipped.
* A number of a frame before the last one delivered is not recognised as old, so the frame is
  delivered again. A run is correct exactly if the arrivals never go back, and never go forth
  by 256 frames (`correct_iff_orderly`).
-/

namespace SmallAIOS.Bus.Arinc664

open Lib List Function Option Prod Word Nat

/-- Network identifier for dual-redundant AFDX. -/
inductive Network
  | A
  | B
  deriving DecidableEq

/-- Per-VL redundancy state. The counters are words of 64 bits. -/
structure RedundancyManager where
  lastAcceptedSeq : Option UInt8
  lastAcceptedNetwork : Option Network
  duplicateCount : ℕ
  lostCount : ℕ
  deriving DecidableEq

open RedundancyManager

namespace RedundancyManager

/-- A new redundancy manager for a VL. -/
def new : RedundancyManager := ⟨none, none, 0, 0⟩

/-- The frames lost when `seq` follows `lastSeq`, added to those lost before. -/
def countLost (m : RedundancyManager) (lastSeq seq : UInt8) : Option ℕ :=
  let expected := lastSeq + 1
  if seq ≠ expected then add 64 m.lostCount (seq - expected).toNat
  else some m.lostCount

/-- Process a received frame, and say whether it is delivered to the application. -/
def accept (m : RedundancyManager) (seq : UInt8) (network : Network) :
    Option (Bool × RedundancyManager) :=
  match m.lastAcceptedSeq with
  | none =>
    some (true, { m with lastAcceptedSeq := some seq, lastAcceptedNetwork := some network })
  | some lastSeq =>
    if seq = lastSeq then do
      let duplicateCount ← add 64 m.duplicateCount 1
      some (false, { m with duplicateCount })
    else do
      let lostCount ← m.countLost lastSeq seq
      some (true, { m with
        lostCount, lastAcceptedSeq := some seq, lastAcceptedNetwork := some network })

end RedundancyManager

/-! ## The networks -/

/-- What happens next on a network: the next frame arrives, or it is lost. -/
structure Event where
  network : Network
  arrives : Bool
  deriving DecidableEq

/-- A frame that arrives, by its place in the order of sending. -/
structure Arrival where
  frame : ℕ
  network : Network
  deriving DecidableEq

/-- The arrivals, if the next frame of a network is `next` of it. -/
def arrivals (next : Network → ℕ) : List Event → List Arrival
  | [] => []
  | e :: es =>
    let rest := arrivals (update next e.network (next e.network + 1)) es
    if e.arrives then ⟨next e.network, e.network⟩ :: rest else rest

/-- No network is ever 128 frames or more behind the other one. -/
def InStep (next : Network → ℕ) : List Event → Prop
  | [] => True
  | e :: es =>
    let next' := update next e.network (next e.network + 1)
    next' .A < next' .B + 128 ∧ next' .B < next' .A + 128 ∧ InStep next' es

/-- The sequence number of a frame. -/
def seqOf (start : UInt8) (frame : ℕ) : UInt8 := start + UInt8.ofNat frame

/-- The manager is handed a frame that arrives. -/
def receive (start : UInt8) (m : RedundancyManager) (x : Arrival) :
    Option (Bool × RedundancyManager) :=
  m.accept (seqOf start x.frame) x.network

/-! ## What a manager is for -/

/-- The frames delivered, the last one first. -/
def delivered (t : List (Arrival × Bool)) : List ℕ :=
  (t.filter fun x => x.2).map fun x => x.1.frame

/-- The frames left out between frames that follow each other, the last one first. -/
def skipped : List ℕ → ℕ
  | f :: d :: ds => (f - d - 1) + skipped (d :: ds)
  | _ => 0

structure Correct (t : List (Arrival × Bool)) (m : RedundancyManager) : Prop where
  /-- Frames are delivered at most once, and in order. -/
  increasing : (delivered t).Pairwise (· > ·)
  /-- A frame that arrives before a later one was delivered has been delivered then. -/
  timely : ∀ x t', (x :: t') <:+ t → (∀ d ∈ delivered t', d ≤ x.1.frame) →
    x.1.frame ∈ delivered (x :: t')
  lost : m.lostCount = skipped (delivered t)

/-- Every frame that arrives is the last one that arrived or one of the 255 after it. -/
def Orderly (xs : List Arrival) : Prop :=
  xs.IsChain fun x y => x.frame ≤ y.frame ∧ y.frame < x.frame + 256

/-! ## Sequence numbers -/

variable {start : UInt8} {f d : ℕ}

theorem seqOf_eq_iff : seqOf start f = seqOf start d ↔ f % 256 = d % 256 := by
  rw [seqOf, seqOf, UInt8.add_right_inj, ← UInt8.toNat_inj, UInt8.toNat_ofNat', UInt8.toNat_ofNat']

/-! ## Single arrivals -/

variable {m m' : RedundancyManager} {x : Arrival} {ok : Bool} {t : List (Arrival × Bool)}

theorem countLost_eq_some {lastSeq seq : UInt8} {n : ℕ} (h : m.countLost lastSeq seq = some n) :
    n = m.lostCount + (seq - (lastSeq + 1)).toNat := by
  rw [countLost] at h
  split at h
  · exact (add_eq_some.1 h).2.symm
  · next heq =>
    -- No frame is missing, and the gap is `0`.
    rw [not_ne_iff.1 heq, UInt8.sub_self]
    exact (some.inj h).symm

/-- What the manager does with a frame, after the first one. -/
theorem receive_cases {last : UInt8} (hlast : m.lastAcceptedSeq = some last)
    (h : receive start m x = some (ok, m')) :
    (seqOf start x.frame = last ∧ ok = false ∧ m'.lastAcceptedSeq = some last ∧
      m'.lostCount = m.lostCount ∧ m'.duplicateCount = m.duplicateCount + 1) ∨
    (seqOf start x.frame ≠ last ∧ ok = true ∧
      m'.lastAcceptedSeq = some (seqOf start x.frame) ∧
      m'.lostCount = m.lostCount + (seqOf start x.frame - (last + 1)).toNat ∧
      m'.duplicateCount = m.duplicateCount) := by
  simp only [receive, accept, hlast] at h
  split at h
  · next hseq =>
    obtain ⟨n, hn, h⟩ := bind_eq_some_iff.1 h
    cases h
    exact .inl ⟨hseq, rfl, rfl, rfl, (add_eq_some.1 hn).2.symm⟩
  · next hseq =>
    obtain ⟨n, hn, h⟩ := bind_eq_some_iff.1 h
    cases h
    exact .inr ⟨hseq, rfl, rfl, countLost_eq_some hn, rfl⟩

/-- The manager has the number of the last frame that arrived, and this is also the last one
    that was delivered. -/
def Synced (start : UInt8) (t : List (Arrival × Bool)) (m : RedundancyManager) : Prop :=
  m.lastAcceptedSeq = t.head?.map (fun x => seqOf start x.1.frame) ∧
    (delivered t).head? = t.head?.map fun x => x.1.frame

/-- What can follow the frame `d`: the same frame, an earlier one, or a later one, which is
    discarded if it has the same number. -/
inductive Follows (start : UInt8) (d : ℕ) (t : List (Arrival × Bool)) (m : RedundancyManager)
    (x : Arrival) : Bool → RedundancyManager → Prop
  | copy {m' : RedundancyManager} : x.frame = d → m'.lostCount = m.lostCount →
    Synced start ((x, false) :: t) m' → Follows start d t m x false m'
  | late {m' : RedundancyManager} : x.frame < d → Follows start d t m x true m'
  | next {m' : RedundancyManager} : d < x.frame → (x.frame - d) % 256 ≠ 0 →
    m'.lostCount = m.lostCount + (x.frame - d - 1) % 256 →
    Synced start ((x, true) :: t) m' → Follows start d t m x true m'
  | masked {m' : RedundancyManager} : d < x.frame → (x.frame - d) % 256 = 0 →
    Follows start d t m x false m'

theorem delivered_cons_true : delivered ((x, true) :: t) = x.frame :: delivered t := rfl

theorem delivered_cons_false : delivered ((x, false) :: t) = delivered t := rfl

variable {y : Arrival × Bool}

/-- The networks are close enough that an earlier frame never has the number of the last one. -/
theorem Synced.follows (hs : Synced start (y :: t) m)
    (hlag : y.1.frame < x.frame + 128) (h : receive start m x = some (ok, m')) :
    Follows start y.1.frame (y :: t) m x ok m' := by
  obtain ⟨hlast, hhead⟩ := hs
  obtain ⟨hseq, rfl, hlast', hlost, -⟩ | ⟨hseq, rfl, hlast', hlost, -⟩ := receive_cases hlast h
  · rw [seqOf_eq_iff] at hseq
    rcases lt_trichotomy x.frame y.1.frame with hlt | heq | hgt
    · omega
    · refine .copy heq hlost ⟨?_, ?_⟩
      · rw [hlast', head?_cons, map_some, heq]
      · rw [delivered_cons_false, hhead, head?_cons, head?_cons, map_some,
          map_some, heq]
    · exact .masked hgt (by omega)
  · rw [Ne, seqOf_eq_iff] at hseq
    rcases lt_trichotomy x.frame y.1.frame with hlt | heq | hgt
    · exact .late hlt
    · exact absurd (congrArg (· % 256) heq) hseq
    · refine .next hgt (by omega) ?_ ⟨hlast', rfl⟩
      simp only [hlost, seqOf, UInt8.toNat_sub, UInt8.toNat_add, UInt8.toNat_ofNat',
        UInt8.toNat_one]
      omega

/-! ## Runs -/

/-- No frame arrives 128 frames or more after a later one. The last arrival is the first of the
    list. -/
def Close (t : List (Arrival × Bool)) : Prop :=
  t.Pairwise fun x y => y.1.frame < x.1.frame + 128

/-- `Orderly`, with the last arrival first. -/
def Advancing (t : List (Arrival × Bool)) : Prop :=
  t.IsChain fun x y => y.1.frame ≤ x.1.frame ∧ x.1.frame < y.1.frame + 256

theorem receive_new (h : receive start .new x = some (ok, m')) :
    ok = true ∧ m'.lastAcceptedSeq = some (seqOf start x.frame) ∧ m'.lostCount = 0 := by
  cases h
  exact ⟨rfl, rfl, rfl⟩

/-- A manager that has received nothing is new. -/
theorem Reaches.eq_new (h : Reaches (receive start) .new [] m) : m = .new := by
  cases h
  rfl

theorem delivered_eq_cons (hs : Synced start (y :: t) m) :
    ∃ ds, delivered (y :: t) = y.1.frame :: ds :=
  head?_eq_some_iff.1 hs.2

/-- Frames delivered in order are not later than the last one. -/
theorem le_of_mem_delivered (hs : Synced start (y :: t) m)
    (hinc : (delivered (y :: t)).Pairwise (· > ·)) : ∀ e ∈ delivered (y :: t), e ≤ y.1.frame := by
  obtain ⟨ds, hds⟩ := delivered_eq_cons hs
  rw [hds] at hinc ⊢
  intro e he
  rcases mem_cons.1 he with rfl | he
  · exact le_rfl
  · exact (rel_of_pairwise_cons hinc he).le

namespace Correct

theorem nil : Correct [] .new where
  increasing := List.Pairwise.nil
  timely _ _ h := absurd (suffix_nil.1 h) (cons_ne_nil _ _)
  lost := rfl

theorem single (hlost : m'.lostCount = 0) : Correct [(x, true)] m' where
  increasing := pairwise_singleton _ _
  timely y t' hsuf _ := by
    obtain hy | hsuf := suffix_cons_iff.1 hsuf
    · obtain ⟨rfl, rfl⟩ := cons.inj hy
      exact mem_cons_self
    · exact absurd (suffix_nil.1 hsuf) (cons_ne_nil _ _)
  lost := hlost

theorem cons_copy (h : Correct (y :: t) m) (hs : Synced start (y :: t) m)
    (heq : x.frame = y.1.frame) (hlost : m'.lostCount = m.lostCount) :
    Correct ((x, false) :: y :: t) m' where
  increasing := h.increasing
  timely z t' hsuf hle := by
    obtain hz | hsuf := suffix_cons_iff.1 hsuf
    · obtain ⟨rfl, rfl⟩ := cons.inj hz
      rw [heq]
      exact mem_of_mem_head? hs.2
    · exact h.timely z t' hsuf hle
  lost := hlost.trans h.lost

theorem cons_next (h : Correct (y :: t) m) (hs : Synced start (y :: t) m)
    (hlt : y.1.frame < x.frame) (hlost : m'.lostCount = m.lostCount + (x.frame - y.1.frame - 1)) :
    Correct ((x, true) :: y :: t) m' where
  increasing := List.Pairwise.cons
    (fun e he => (le_of_mem_delivered hs h.increasing e he).trans_lt hlt) h.increasing
  timely z t' hsuf hle := by
    obtain hz | hsuf := suffix_cons_iff.1 hsuf
    · obtain ⟨rfl, rfl⟩ := cons.inj hz
      exact mem_cons_self
    · exact h.timely z t' hsuf hle
  lost := by
    obtain ⟨ds, hds⟩ := delivered_eq_cons hs
    rw [hlost, h.lost, delivered_cons_true, hds, skipped, add_comm]

end Correct

section

variable (hr : Reaches (receive start) .new t m)
include hr

/-- If the arrivals advance, the run is correct. -/
theorem Advancing.correct (hclose : Close t)
    (hadv : Advancing t) : Synced start t m ∧ Correct t m := by
  induction hr with
  | nil => exact ⟨⟨rfl, rfl⟩, .nil⟩
  | @cons t m m' x ok hr hs ih =>
    cases t with
    | nil =>
      rw [Reaches.eq_new hr] at hs
      obtain ⟨rfl, hlast, hlost⟩ := receive_new hs
      exact ⟨⟨hlast, rfl⟩, .single hlost⟩
    | cons y t =>
      obtain ⟨hsync, hcor⟩ := ih hclose.of_cons hadv.of_cons
      obtain ⟨hle, hlt⟩ : y.1.frame ≤ x.frame ∧ x.frame < y.1.frame + 256 :=
        (isChain_cons_cons.1 hadv).1
      have hlag : y.1.frame < x.frame + 128 := rel_of_pairwise_cons hclose mem_cons_self
      cases hsync.follows hlag hs with
      | copy heq hlost hsync' => exact ⟨hsync', hcor.cons_copy hsync heq hlost⟩
      | late hlt' => exact absurd hle (not_le.2 hlt')
      | next hgt _ hlost hsync' =>
        rw [mod_eq_of_lt (by omega)] at hlost
        exact ⟨hsync', hcor.cons_next hsync hgt hlost⟩
      | masked hgt hmod => omega

/-- If frames are delivered as they should, then at most the skipped ones are counted as lost,
    and all of them only if the arrivals advance. -/
theorem advancing_of_delivered (hclose : Close t) (hinc : (delivered t).Pairwise (· > ·))
    (htimely : ∀ x t', (x :: t') <:+ t → (∀ d ∈ delivered t', d ≤ x.1.frame) →
      x.1.frame ∈ delivered (x :: t')) :
    Synced start t m ∧ m.lostCount ≤ skipped (delivered t) ∧
      (m.lostCount = skipped (delivered t) → Advancing t) := by
  induction hr with
  | nil => exact ⟨⟨rfl, rfl⟩, le_rfl, fun _ => isChain_nil⟩
  | @cons t m m' x ok hr hs ih =>
    cases t with
    | nil =>
      rw [Reaches.eq_new hr] at hs
      obtain ⟨rfl, hlast, hlost⟩ := receive_new hs
      exact ⟨⟨hlast, rfl⟩, hlost.le, fun _ => isChain_singleton _⟩
    | cons y t =>
      have hlag : y.1.frame < x.frame + 128 := rel_of_pairwise_cons hclose mem_cons_self
      have hinc' : (delivered (y :: t)).Pairwise (· > ·) := by
        cases ok with
        | false => exact hinc
        | true => exact hinc.of_cons
      obtain ⟨hsync, hle, hadv⟩ := ih hclose.of_cons hinc'
        fun z t' hsuf => htimely z t' (hsuf.trans (suffix_cons _ _))
      obtain ⟨ds, hds⟩ := delivered_eq_cons hsync
      cases hsync.follows hlag hs with
      | copy heq hlost hsync' =>
        refine ⟨hsync', hlost.le.trans hle, fun h => ?_⟩
        refine isChain_cons_cons.2 ⟨⟨heq.ge, ?_⟩, hadv (hlost.symm.trans h)⟩
        change x.frame < _
        omega
      | late hlt =>
        -- An earlier frame is delivered after `y`, so the frames are not in order.
        rw [delivered_cons_true, hds] at hinc
        exact absurd (rel_of_pairwise_cons hinc mem_cons_self) (not_lt.2 hlt.le)
      | next hgt hmod hlost hsync' =>
        have hskip : skipped (delivered ((x, true) :: y :: t)) =
            (x.frame - y.1.frame - 1) + skipped (delivered (y :: t)) := by
          rw [delivered_cons_true, hds, skipped]
        refine ⟨hsync', by omega, fun h => ?_⟩
        refine isChain_cons_cons.2 ⟨⟨hgt.le, ?_⟩, hadv (by omega)⟩
        change x.frame < _
        omega
      | masked hgt _ =>
        -- The frame is later than all those delivered, and is discarded.
        have hmem := htimely (x, false) (y :: t) suffix_rfl
          fun e he => (le_of_mem_delivered hsync hinc' e he).trans hgt.le
        exact absurd (le_of_mem_delivered hsync hinc' _ hmem) (not_le.2 hgt)

theorem correct_iff_advancing (hclose : Close t) : Correct t m ↔ Advancing t :=
  ⟨fun h => (advancing_of_delivered hr hclose h.increasing h.timely).2.2 h.lost,
    fun h => (h.correct hr hclose).2⟩

end

/-! ## Runs of the networks -/

variable {next : Network → ℕ} {es : List Event}

theorem next_le_of_mem_arrivals {y : Arrival} (hy : y ∈ arrivals next es) :
    next y.network ≤ y.frame := by
  induction es generalizing next with
  | nil => cases hy
  | cons e es ih =>
    rw [arrivals] at hy
    have hnext : next y.network ≤ update next e.network (next e.network + 1) y.network := by
      rw [update_apply]
      split
      · next heq => rw [heq]; exact le_succ _
      · exact le_rfl
    split at hy
    · rcases mem_cons.1 hy with rfl | hy
      · exact le_rfl
      · exact hnext.trans (ih hy)
    · exact hnext.trans (ih hy)

/-- Networks that are in step bring no frame 128 frames or more after a later one. -/
theorem InStep.pairwise_arrivals (h : InStep next es) :
    (arrivals next es).Pairwise fun x y => x.frame < y.frame + 128 := by
  induction es generalizing next with
  | nil => exact List.Pairwise.nil
  | cons e es ih =>
    obtain ⟨hab, hba, h⟩ := h
    rw [arrivals]
    split
    · refine List.Pairwise.cons (fun y hy => ?_) (ih h)
      have hself : update next e.network (next e.network + 1) e.network =
          next e.network + 1 := update_self ..
      have hle := next_le_of_mem_arrivals hy
      -- The network of `e` is now one frame further, and the one of `y` is not far from it.
      generalize update next e.network (next e.network + 1) = next' at hab hba hself hle
      cases he : e.network <;> cases hy : y.network <;> simp only [he, hy] at hself hle ⊢ <;> omega
    · exact ih h

variable {xs : List Arrival}

/-- Every arrival adds less than 256 to the counters. -/
theorem count_le (hr : Reaches (receive start) .new t m) :
    m.duplicateCount + m.lostCount ≤ 255 * t.length := by
  induction hr with
  | nil => exact le_rfl
  | @cons t m m' x ok hr hs ih =>
    rw [length_cons]
    cases hlast : m.lastAcceptedSeq with
    | none =>
      rw [receive, accept, hlast] at hs
      cases hs
      exact ih.trans (mul_le_mul_left _ (le_succ _))
    | some last =>
      have hgap := (seqOf start x.frame - (last + 1)).toNat_lt
      obtain ⟨-, -, -, hlost, hdup⟩ | ⟨-, -, -, hlost, hdup⟩ := receive_cases hlast hs <;> omega

/-- The counters of a manager do not overflow before it has received `2 ^ 56` frames. -/
theorem exists_receive (start : UInt8) (x : Arrival)
    (h : m.duplicateCount + m.lostCount + 255 < 2 ^ 64) :
    ∃ r, receive start m x = some r := by
  rw [receive, accept]
  split
  · exact ⟨_, rfl⟩
  · next last _ =>
    split
    · rw [add_eq_some.2 ⟨by omega, rfl⟩]
      exact ⟨_, rfl⟩
    · have hlt := (seqOf start x.frame - (last + 1)).toNat_lt
      have hlost : ∃ n, m.countLost last (seqOf start x.frame) = some n := by
        rw [countLost]
        split
        · exact ⟨_, add_eq_some.2 ⟨by omega, rfl⟩⟩
        · exact ⟨_, rfl⟩
      obtain ⟨n, hn⟩ := hlost
      rw [hn]
      exact ⟨_, rfl⟩

theorem exists_reaches (start : UInt8) (xs : List Arrival) (h : xs.length ≤ 2 ^ 56) :
    ∃ t m, Reaches (receive start) .new t m ∧ t.map fst = xs.reverse := by
  induction xs using reverseRecOn with
  | nil => exact ⟨[], .new, .nil, rfl⟩
  | append_singleton xs x ih =>
    rw [length_append] at h
    obtain ⟨t, m, hr, ht⟩ := ih (by omega)
    have hlen : t.length = xs.length := by
      rw [← length_map fst, ht, length_reverse]
    have hcount := count_le hr
    obtain ⟨⟨ok, m'⟩, hs⟩ := exists_receive (m := m) start x (by omega)
    exact ⟨(x, ok) :: t, m', hr.cons hs, by rw [map_cons, ht, reverse_concat]⟩

/-- A run in which the networks are in step is correct exactly if the arrivals never go back,
    and never go forth by 256 frames. -/
theorem correct_iff_orderly (start : UInt8) (events : List Event) (h : InStep (fun _ => 0) events) :
    ((arrivals (fun _ => 0) events).length ≤ 2 ^ 56 →
      ∃ t m, Reaches (receive start) .new t m ∧
        t.map fst = (arrivals (fun _ => 0) events).reverse) ∧
    ∀ t m, Reaches (receive start) .new t m →
      t.map fst = (arrivals (fun _ => 0) events).reverse →
      (Correct t m ↔ Orderly (arrivals (fun _ => 0) events)) := by
  refine ⟨exists_reaches start _, fun t m hr ht => ?_⟩
  rw [Orderly, ← isChain_reverse, ← ht, isChain_map]
  have hclose := h.pairwise_arrivals
  rw [← pairwise_reverse, ← ht, pairwise_map] at hclose
  exact correct_iff_advancing hr hclose

/-- Two frames on the network `A`, of which the first has its copy in time. -/
theorem correct_copy_in_time :
    ∃ t m, Reaches (receive 255) .new t m ∧
      t.map fst = [⟨1, .A⟩, ⟨0, .B⟩, ⟨0, .A⟩] ∧ Correct t m := by
  have h : InStep (fun _ => 0) [⟨.A, true⟩, ⟨.B, true⟩, ⟨.A, true⟩] := by
    refine ⟨?_, ?_, ?_, ?_, ?_, ?_, trivial⟩ <;> decide
  obtain ⟨hex, hiff⟩ := correct_iff_orderly 255 _ h
  obtain ⟨t, m, hr, ht⟩ := hex (by decide)
  refine ⟨t, m, hr, ht, (hiff t m hr ht).2 ?_⟩
  unfold Orderly
  decide

/-- The copy of a frame comes one frame late, is delivered again, and 254 frames are counted as
    lost. -/
theorem late_copy_delivered_again :
    InStep (fun _ => 0) [⟨.A, true⟩, ⟨.A, true⟩, ⟨.B, true⟩] ∧
      ∃ t m, Reaches (receive 0) .new t m ∧
        t.map fst =
          (arrivals (fun _ => 0) [⟨.A, true⟩, ⟨.A, true⟩, ⟨.B, true⟩]).reverse ∧
        delivered t = [0, 1, 0] ∧ m.lostCount = 254 ∧ ¬ Correct t m := by
  have he : exec (receive 0) [] .new [⟨0, .A⟩, ⟨1, .A⟩, ⟨0, .B⟩] =
      some ([(⟨0, .B⟩, true), (⟨1, .A⟩, true), (⟨0, .A⟩, true)],
        ⟨some 0, some .B, 0, 254⟩) := by decide
  refine ⟨by refine ⟨?_, ?_, ?_, ?_, ?_, ?_, trivial⟩ <;> decide, _, _, Reaches.nil.exec he,
    by decide, by decide, rfl, fun h => ?_⟩
  exact absurd h.increasing (by decide)

end SmallAIOS.Bus.Arinc664
