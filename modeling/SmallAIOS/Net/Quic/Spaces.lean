import SmallAIOS.Lib.Run
import SmallAIOS.Lib.SortedSet
import SmallAIOS.Lib.Word

/-!
# Packet number spaces

A packet number space tracks the numbers of the packets it received, to acknowledge them, and
the packets it sent that are not acknowledged yet. An acknowledgement is the largest number that
was received, and the received numbers below it as ranges: for each range the gap before it
and its length minus one (`generateAckRanges`). The other side walks the ranges back and takes the
packets in them out of those in flight (`onAckReceived`).

* `mem_walk_ackRanges`: walking the ranges of numbers gives the numbers back;
* `onAckReceived_generateAckRanges`: an acknowledgement acknowledges what its sender tracks.

The numbers in an acknowledgement can be far apart, so the set that is built of them is kept as
its intervals. Overflow panics (`none`).
-/

namespace SmallAIOS.Net.Quic

open Lib List Option Word Nat
open SortedSet hiding max?

structure SentPacket where
  pn : ℕ
  timeSentUs : ℕ
  ackEliciting : Bool
  inFlight : Bool
  sentBytes : ℕ
  deriving DecidableEq

structure PacketNumberSpaceState where
  nextPn : ℕ := 0
  largestReceivedPn : Option ℕ := none
  largestReceivedTimeUs : ℕ := 0
  receivedPns : SortedSet ℕ := .empty
  ackNeeded : Bool := false
  /-- The packets that are sent and not acknowledged. -/
  sentPackets : List SentPacket := []
  largestAckedPn : Option ℕ := none
  lossTimeUs : Option ℕ := none
  deriving DecidableEq

/-- How many received numbers are tracked. -/
def maxReceivedPns : ℕ := 256

/-! ## Generating ranges -/

/-- The end of the run of consecutive numbers that goes down from `e`, and what is below it. -/
def takeRun : ℕ → List ℕ → ℕ × List ℕ
  | e, [] => (e, [])
  | e, pn :: pns => if pn + 1 = e then takeRun pn pns else (e, pn :: pns)

/-- The ranges of numbers in descending order, after the range that ends in `current`. At most
    `fuel` numbers are looked at. -/
def ackRanges : ℕ → Option ℕ → List ℕ → Option (List (ℕ × ℕ))
  | 0, _, _ => some []
  | _, _, [] => some []
  | fuel + 1, current, start :: pns => do
    let (e, rest) := takeRun start pns
    let gap ← match current with
      | none => some 0
      | some current => (sub current start).bind (sub · 1)
    let len ← sub start e
    let ranges ← ackRanges fuel (some e) rest
    return (gap, len) :: ranges

/-! ## Walking ranges -/

/-- The numbers of a range that goes down from `current`, and where the next one can start. -/
def walkRange (current len : ℕ) : Option ((ℕ × ℕ) × ℕ) := do
  let lo ← sub current len
  let skip ← add 64 len 1
  return ((lo, current), current - skip)

/-- The ranges after the first one, from `current` on. -/
def walkRest : ℕ → List (ℕ × ℕ) → Option (List (ℕ × ℕ))
  | _, [] => some []
  | current, (gap, len) :: ranges => do
    -- The subtraction of the gap stops at zero.
    let (range, current) ← walkRange (current - gap) len
    let acked ← walkRest current ranges
    return range :: acked

/-- The intervals of the acknowledged numbers. The gap of the first range is ignored. -/
def walk (largestAcked : ℕ) : List (ℕ × ℕ) → Option (List (ℕ × ℕ))
  | [] => some []
  | (_, len) :: ranges => do
    let (range, current) ← walkRange largestAcked len
    let acked ← walkRest current ranges
    return range :: acked

/-- The number is in one of the intervals. -/
def covers (intervals : List (ℕ × ℕ)) (pn : ℕ) : Bool :=
  intervals.any fun i => i.1 ≤ pn && pn ≤ i.2

/-! ## The space -/

namespace PacketNumberSpaceState

variable (s : PacketNumberSpaceState)

def allocatePn : Option (ℕ × PacketNumberSpaceState) :=
  (add 64 s.nextPn 1).map fun next => (s.nextPn, { s with nextPn := next })

def onPacketSent (packet : SentPacket) : PacketNumberSpaceState :=
  { s with sentPackets := s.sentPackets ++ [packet] }

def onPacketReceived (pn timeUs : ℕ) : PacketNumberSpaceState :=
  let newer := s.largestReceivedPn.all (· < pn)
  let pns := s.receivedPns.insert pn
  { s with
    largestReceivedPn := if newer then some pn else s.largestReceivedPn
    largestReceivedTimeUs := if newer then timeUs else s.largestReceivedTimeUs
    -- The oldest numbers are forgotten until there are not too many.
    receivedPns := .removeMin^[pns.size - maxReceivedPns] pns
    ackNeeded := true }

def clearAckNeeded : PacketNumberSpaceState := { s with ackNeeded := false }

/-- The largest number and the ranges of an acknowledgement, if there is one to make. -/
def generateAckRanges : Option (Option (ℕ × List (ℕ × ℕ))) :=
  match s.largestReceivedPn with
  | none => some none
  | some largest =>
    if s.receivedPns.toList.isEmpty then some none
    else
      let pns := s.receivedPns.toList.reverse
      (ackRanges pns.length none pns).map fun ranges => some (largest, ranges)

/-- The packets that are acknowledged by now. -/
def onAckReceived (largestAcked : ℕ) (ackedRanges : List (ℕ × ℕ)) :
    Option (List SentPacket × PacketNumberSpaceState) := do
  let acked ← walk largestAcked ackedRanges
  return (s.sentPackets.filter fun p => covers acked p.pn,
    { s with
      largestAckedPn :=
        if s.largestAckedPn.all (· < largestAcked) then some largestAcked else s.largestAckedPn
      sentPackets := s.sentPackets.filter fun p => !covers acked p.pn })

/-- Whether a packet is lost, or else when it will be. -/
def lossOf (largestAcked lossDelayUs nowUs : ℕ) (p : SentPacket) : Option (Bool × Option ℕ) :=
  if largestAcked < p.pn then some (false, none)
  else do
    let lossTime ← add 64 p.timeSentUs lossDelayUs
    if lossTime ≤ nowUs then return (true, none)
    else
      let threshold ← add 64 p.pn 3
      if threshold ≤ largestAcked then return (true, none) else return (false, some lossTime)

/-- The earlier one of two times. -/
def earlier : Option ℕ → Option ℕ → Option ℕ
  | some t, some t' => if t' < t then some t' else some t
  | none, t => t
  | t, none => t

/-- The packets that are lost, those that are not, and the earliest time one of them will be. -/
def sieve (largestAcked lossDelayUs nowUs : ℕ) :
    List SentPacket → Option (List SentPacket × List SentPacket × Option ℕ)
  | [] => some ([], [], none)
  | p :: ps => do
    let (lost, time) ← lossOf largestAcked lossDelayUs nowUs p
    let (lostRest, kept, earliest) ← sieve largestAcked lossDelayUs nowUs ps
    if lost then return (p :: lostRest, kept, earliest)
    else return (lostRest, p :: kept, earlier time earliest)

def detectLostPackets (lossDelayUs nowUs : ℕ) : Option (List SentPacket × PacketNumberSpaceState) :=
  match s.largestAckedPn with
  | none => some ([], s)
  | some largestAcked =>
    (sieve largestAcked lossDelayUs nowUs s.sentPackets).map fun r =>
      (r.1, { s with sentPackets := r.2.1, lossTimeUs := r.2.2 })

def discard : PacketNumberSpaceState :=
  { s with sentPackets := [], receivedPns := .empty, ackNeeded := false, lossTimeUs := none }

inductive Call where
  | allocatePn
  | onPacketSent (packet : SentPacket)
  | onPacketReceived (pn timeUs : ℕ)
  | clearAckNeeded
  | onAckReceived (largestAcked : ℕ) (ackedRanges : List (ℕ × ℕ))
  | detectLostPackets (lossDelayUs nowUs : ℕ)
  | discard
  deriving DecidableEq

inductive Answer where
  | done
  | pn (pn : ℕ)
  | packets (packets : List SentPacket)
  deriving DecidableEq

def step : Call → Option (Answer × PacketNumberSpaceState)
  | .allocatePn => s.allocatePn.map (Prod.map .pn id)
  | .onPacketSent packet => some (.done, s.onPacketSent packet)
  | .onPacketReceived pn timeUs => some (.done, s.onPacketReceived pn timeUs)
  | .clearAckNeeded => some (.done, s.clearAckNeeded)
  | .onAckReceived largestAcked ackedRanges =>
    (s.onAckReceived largestAcked ackedRanges).map (Prod.map .packets id)
  | .detectLostPackets lossDelayUs nowUs =>
    (s.detectLostPackets lossDelayUs nowUs).map (Prod.map .packets id)
  | .discard => some (.done, s.discard)

end PacketNumberSpaceState

namespace PacketNumberSpaceState

variable {s s' : PacketNumberSpaceState}

/-- What a call does to the record of what is received and acknowledged. -/
theorem step_cases {a : Call} {b : Answer} (h : s.step a = some (b, s')) :
    (∃ pn timeUs, a = .onPacketReceived pn timeUs ∧ s' = s.onPacketReceived pn timeUs) ∨
    (∃ largest ranges intervals, a = .onAckReceived largest ranges ∧
      s' = { s with
        largestAckedPn :=
          if s.largestAckedPn.all (· < largest) then some largest else s.largestAckedPn
        sentPackets := s.sentPackets.filter fun p => !covers intervals p.pn }) ∨
    (a = .discard ∧ s' = s.discard) ∨
    (s'.receivedPns = s.receivedPns ∧ s'.largestReceivedPn = s.largestReceivedPn ∧
      s'.largestAckedPn = s.largestAckedPn) := by
  cases a with
  | allocatePn =>
    obtain ⟨r, hr, h⟩ := map_eq_some_iff.1 h
    obtain ⟨next, -, hr⟩ := map_eq_some_iff.1 hr
    cases hr
    cases h
    exact .inr (.inr (.inr ⟨rfl, rfl, rfl⟩))
  | onPacketSent packet | clearAckNeeded =>
    cases h
    exact .inr (.inr (.inr ⟨rfl, rfl, rfl⟩))
  | onPacketReceived pn timeUs =>
    cases h
    exact .inl ⟨pn, timeUs, rfl, rfl⟩
  | onAckReceived largest ranges =>
    obtain ⟨r, hr, h⟩ := map_eq_some_iff.1 h
    obtain ⟨intervals, -, hr⟩ := bind_eq_some_iff.1 hr
    cases hr
    cases h
    exact .inr (.inl ⟨largest, ranges, intervals, rfl, rfl⟩)
  | detectLostPackets lossDelayUs nowUs =>
    obtain ⟨r, hr, h⟩ := map_eq_some_iff.1 h
    cases h
    rw [detectLostPackets] at hr
    split at hr
    · cases hr
      exact .inr (.inr (.inr ⟨rfl, rfl, rfl⟩))
    · obtain ⟨q, -, hr⟩ := map_eq_some_iff.1 hr
      cases hr
      exact .inr (.inr (.inr ⟨rfl, rfl, rfl⟩))
  | discard =>
    cases h
    exact .inr (.inr (.inl ⟨rfl, rfl⟩))

end PacketNumberSpaceState

/-! ## Walking the ranges of numbers -/

/-- A range that does not reach below zero is walked to the number below it. -/
theorem walkRange_eq {current len : ℕ} (hle : len ≤ current) (hlen : len + 1 < 2 ^ 64) :
    walkRange current len = some ((current - len, current), current - len - 1) := by
  have hsub := sub_eq_some.2 (add_sub_of_le hle)
  rw [walkRange, hsub, add_eq_some.2 ⟨hlen, rfl⟩]
  rfl

variable {ranges intervals : List (ℕ × ℕ)}

theorem walkRest_cons {current gap len : ℕ} (hle : len ≤ current - gap) (hlen : len + 1 < 2 ^ 64)
    (h : walkRest (current - gap - len - 1) ranges = some intervals) :
    walkRest current ((gap, len) :: ranges) =
      some ((current - gap - len, current - gap) :: intervals) := by
  simp only [walkRest, walkRange_eq hle hlen, h, bind_eq_bind, bind_some]
  rfl

theorem walk_cons {largest gap len : ℕ} (hle : len ≤ largest) (hlen : len + 1 < 2 ^ 64)
    (h : walkRest (largest - len - 1) ranges = some intervals) :
    walk largest ((gap, len) :: ranges) = some ((largest - len, largest) :: intervals) := by
  simp only [walk, walkRange_eq hle hlen, h, bind_eq_bind, bind_some]
  rfl

/-- The numbers in `e :: pns`, from the largest one down, are those from `e` to `lo` and, after
    a hole, the rest. -/
structure RunOf (e : ℕ) (pns : List ℕ) (lo : ℕ) (rest : List ℕ) : Prop where
  le : lo ≤ e
  length : e - lo + rest.length = pns.length
  mem : ∀ n, n ∈ e :: pns ↔ (lo ≤ n ∧ n ≤ e) ∨ n ∈ rest
  below : ∀ n ∈ rest, n + 1 < lo
  sorted : rest.Pairwise (· > ·)

variable {pns : List ℕ}

theorem runOf_takeRun {e : ℕ} (h : (e :: pns).Pairwise (· > ·)) :
    RunOf e pns (takeRun e pns).1 (takeRun e pns).2 := by
  fun_induction takeRun e pns with
  | case1 e =>
    refine ⟨le_rfl, by simp, fun n => ?_, by simp, .nil⟩
    simp only [mem_singleton, not_mem_nil, or_false]
    omega
  | case2 pn pns ih =>
    -- The run goes on.
    have hr := ih (pairwise_cons.1 h).2
    refine ⟨hr.le.trans (by omega), ?_, fun n => ?_, hr.below, hr.sorted⟩
    · have hlen := hr.length
      have hle := hr.le
      rw [length_cons]
      omega
    · rw [mem_cons, hr.mem]
      have hle := hr.le
      constructor
      · rintro (rfl | hn | hn)
        · exact .inl ⟨by omega, le_rfl⟩
        · exact .inl ⟨hn.1, by omega⟩
        · exact .inr hn
      · rintro (hn | hn)
        · rcases hn.2.eq_or_lt with heq | hlt
          · exact .inl heq
          · exact .inr (.inl ⟨hn.1, by omega⟩)
        · exact .inr (.inr hn)
  | case3 e pn pns hne =>
    have hgt : pn < e := (pairwise_cons.1 h).1 pn mem_cons_self
    have hs := (pairwise_cons.1 h).2
    refine ⟨le_rfl, by simp, fun n => ?_, fun n hn => ?_, hs⟩
    · rw [mem_cons, le_antisymm_iff, and_comm]
    · rcases mem_cons.1 hn with rfl | hn
      · omega
      · have hlt : n < pn := (pairwise_cons.1 hs).1 n hn
        omega

theorem covers_cons {lo hi n : ℕ} {intervals : List (ℕ × ℕ)} :
    covers ((lo, hi) :: intervals) n ↔ (lo ≤ n ∧ n ≤ hi) ∨ covers intervals n := by
  simp [covers]

/-- The ranges of the numbers below a range, walked from the number below it, give the numbers
    back. -/
theorem walkRest_ackRanges (fuel : ℕ) {current : ℕ} (hfuel : pns.length ≤ fuel)
    (hlen : pns.length + 1 < 2 ^ 64) (hs : pns.Pairwise (· > ·))
    (hbelow : ∀ n ∈ pns, n + 1 < current) :
    ∃ ranges intervals, ackRanges fuel (some current) pns = some ranges ∧
      walkRest (current - 1) ranges = some intervals ∧ ∀ n, covers intervals n ↔ n ∈ pns := by
  induction fuel generalizing current pns with
  | zero =>
    obtain rfl := length_eq_zero_iff.1 (le_zero.1 hfuel)
    exact ⟨[], [], rfl, rfl, by simp [covers]⟩
  | succ fuel ih =>
    cases pns with
    | nil => exact ⟨[], [], rfl, rfl, by simp [covers]⟩
    | cons start pns =>
      have hr := runOf_takeRun hs
      have hl := hr.length
      have hle := hr.le
      rw [length_cons] at hfuel hlen
      obtain ⟨ranges, intervals, hranges, hwalk, hmem⟩ :=
        ih (by omega) (by omega) hr.sorted hr.below
      have hstart := hbelow start mem_cons_self
      have hgap : (sub current start).bind (sub · 1) = some (current - start - 1) := by
        rw [sub_eq_some.2 (add_sub_of_le (by omega : start ≤ current))]
        exact sub_eq_some.2 (by omega)
      have hsub := sub_eq_some.2 (add_sub_of_le hle)
      refine ⟨(current - start - 1, start - (takeRun start pns).1) :: ranges,
        ((takeRun start pns).1, start) :: intervals, ?_, ?_, fun n => ?_⟩
      · simp only [ackRanges, hgap, hsub, hranges, bind_eq_bind, bind_some]
        rfl
      · -- The gap leads from below the last range to the start of this one.
        have hcur : current - 1 - (current - start - 1) = start := by omega
        have hlo := Nat.sub_sub_self hle
        have hrest : walkRest (current - 1 - (current - start - 1) -
            (start - (takeRun start pns).1) - 1) ranges = some intervals := by
          rw [hcur, hlo, hwalk]
        rw [walkRest_cons (by omega) (by omega) hrest, hcur, hlo]
      · rw [covers_cons, hmem, ← hr.mem]

/-- Walking the ranges of numbers gives the numbers back. -/
theorem mem_walk_ackRanges {fuel largest : ℕ} (hfuel : pns.length < fuel)
    (hlen : pns.length + 1 < 2 ^ 64) (hs : (largest :: pns).Pairwise (· > ·)) :
    ∃ ranges intervals, ackRanges fuel none (largest :: pns) = some ranges ∧
      walk largest ranges = some intervals ∧ ∀ n, covers intervals n ↔ n ∈ largest :: pns := by
  obtain ⟨fuel, rfl⟩ := exists_eq_succ_of_ne_zero (ne_zero_of_lt hfuel)
  have hr := runOf_takeRun hs
  have hl := hr.length
  obtain ⟨ranges, intervals, hranges, hwalk, hmem⟩ :=
    walkRest_ackRanges fuel (by omega) (by omega) hr.sorted hr.below
  have hsub := sub_eq_some.2 (add_sub_of_le hr.le)
  refine ⟨(0, largest - (takeRun largest pns).1) :: ranges,
    ((takeRun largest pns).1, largest) :: intervals, ?_, ?_, fun n => ?_⟩
  · simp only [ackRanges, hsub, hranges, bind_eq_bind, bind_some]
    rfl
  · have hlo := Nat.sub_sub_self hr.le
    rw [walk_cons (sub_le _ _) (by omega) (hlo.symm ▸ hwalk), hlo]
  · rw [covers_cons, hmem, ← hr.mem]

/-! ## What a space tracks -/

namespace PacketNumberSpaceState

variable {s s' : PacketNumberSpaceState} {largest : ℕ}

/-- The greatest tracked number is the largest one received, and the tracked numbers are not too
    many. -/
structure Tracks (s : PacketNumberSpaceState) : Prop where
  size_le : s.receivedPns.size ≤ maxReceivedPns
  max : s.receivedPns.max? = s.largestReceivedPn

section

variable (h : s.Tracks) (pn timeUs : ℕ)
include h

/-- Before numbers are forgotten, the new number is the greatest one or the old greatest one
    still is. -/
theorem Tracks.max_insert :
    (s.receivedPns.insert pn).max? = (s.onPacketReceived pn timeUs).largestReceivedPn := by
  rw [onPacketReceived]
  have hmax := h.max
  cases hl : s.largestReceivedPn with
  | none =>
    rw [hl, max?_eq_none] at hmax
    rw [all_none, if_pos rfl, max?_eq_some]
    refine ⟨mem_insert.2 (.inl rfl), fun b hb => ?_⟩
    rw [SortedSet.mem_insert, ← SortedSet.mem_toList, hmax] at hb
    exact (hb.resolve_right not_mem_nil).le
  | some largest =>
    rw [hl, max?_eq_some] at hmax
    split_ifs with hlt
    · have hlt : largest < pn := of_decide_eq_true hlt
      refine max?_eq_some.2 ⟨mem_insert.2 (.inl rfl), fun b hb => ?_⟩
      rcases mem_insert.1 hb with rfl | hb
      · exact le_rfl
      · exact (hmax.2 b hb).trans hlt.le
    · have hge : pn ≤ largest := not_lt.1 fun h => hlt (decide_eq_true h)
      refine max?_eq_some.2 ⟨mem_insert.2 (.inr hmax.1), fun b hb => ?_⟩
      rcases mem_insert.1 hb with rfl | hb
      · exact hge
      · exact hmax.2 b hb

theorem Tracks.onPacketReceived : (s.onPacketReceived pn timeUs).Tracks := by
  have hpos : 0 < (s.receivedPns.insert pn).size :=
    length_pos_of_mem (mem_insert.2 (.inl rfl))
  have hlt : (s.receivedPns.insert pn).size - maxReceivedPns < (s.receivedPns.insert pn).size :=
    sub_lt hpos (by decide)
  have hmax := h.max_insert pn timeUs
  rw [PacketNumberSpaceState.onPacketReceived] at hmax ⊢
  refine ⟨?_, ?_⟩
  · rw [SortedSet.size, SortedSet.toList_iterate_removeMin, length_drop, ← SortedSet.size]
    omega
  · rw [SortedSet.max?, SortedSet.toList_iterate_removeMin, getLast?_drop]
    exact (if_neg (not_le.2 hlt)).trans hmax

theorem Tracks.congr (hpns : s'.receivedPns = s.receivedPns)
    (hl : s'.largestReceivedPn = s.largestReceivedPn) : s'.Tracks :=
  ⟨hpns ▸ h.size_le, by rw [hpns, hl, h.max]⟩

theorem Tracks.step {a : Call} {b : Answer} (ha : a ≠ .discard) (hs : s.step a = some (b, s')) :
    s'.Tracks := by
  rcases step_cases hs with ⟨pn, timeUs, -, rfl⟩ | ⟨_, _, _, -, rfl⟩ | ⟨rfl, -⟩ | ⟨hpns, hl, -⟩
  · exact h.onPacketReceived pn timeUs
  · exact h.congr rfl rfl
  · exact absurd rfl ha
  · exact h.congr hpns hl

/-- The ranges of a space that tracks numbers, walked back, give these numbers. -/
theorem Tracks.walk_generateAckRanges (hl : s.largestReceivedPn = some largest) :
    ∃ ranges intervals, s.generateAckRanges = some (some (largest, ranges)) ∧
      walk largest ranges = some intervals ∧ ∀ n, covers intervals n ↔ n ∈ s.receivedPns := by
  have hmax := h.max
  rw [hl, SortedSet.max?, getLast?_eq_some_iff] at hmax
  obtain ⟨pns, hpns⟩ := hmax
  have hrev : s.receivedPns.toList.reverse = largest :: pns.reverse := by
    rw [hpns, reverse_append, reverse_singleton, singleton_append]
  have hlen : (largest :: pns.reverse).length ≤ 256 := by
    rw [← hrev, length_reverse]
    exact h.size_le
  rw [length_cons] at hlen
  have hsorted : (largest :: pns.reverse).Pairwise (· > ·) :=
    hrev ▸ pairwise_reverse.2 s.receivedPns.sorted
  obtain ⟨ranges, intervals, hranges, hwalk, hmem⟩ :=
    mem_walk_ackRanges (lt_succ_self _) (by omega) hsorted
  refine ⟨ranges, intervals, ?_, hwalk, fun n => ?_⟩
  · have hne : s.receivedPns.toList.isEmpty = false := by
      rw [hpns, isEmpty_eq_false_iff]
      exact append_ne_nil_of_right_ne_nil _ (cons_ne_nil _ _)
    simp only [generateAckRanges, hl, hne, Bool.false_eq_true, if_false, hrev, length_cons,
      hranges, map_some]
  · rw [hmem, ← hrev, mem_reverse, SortedSet.mem_toList]

end

/-- The packets in the intervals are taken out of those in flight. -/
theorem onAckReceived_of_walk {ranges intervals : List (ℕ × ℕ)}
    (h : walk largest ranges = some intervals) :
    ∃ s', s.onAckReceived largest ranges =
        some (s.sentPackets.filter (covers intervals ·.pn), s') ∧
      s'.sentPackets = s.sentPackets.filter (!covers intervals ·.pn) := by
  rw [onAckReceived, h]
  exact ⟨_, rfl, rfl⟩

/-- An acknowledgement acknowledges what its sender tracks: the packets in flight with these
    numbers are taken out and reported, and the others stay. A space whose keys are discarded
    makes no acknowledgements any more. -/
theorem onAckReceived_generateAckRanges {t : List (Call × Answer)} {rx : PacketNumberSpaceState}
    (h : ReachesBy (fun _ a => a ≠ .discard) step {} t rx) (tx : PacketNumberSpaceState) :
    (rx.receivedPns = .empty ∧ rx.generateAckRanges = some none) ∨
      ∃ largest ranges tx', rx.generateAckRanges = some (some (largest, ranges)) ∧
        tx.onAckReceived largest ranges =
          some (tx.sentPackets.filter (·.pn ∈ rx.receivedPns), tx') ∧
        tx'.sentPackets = tx.sentPackets.filter (·.pn ∉ rx.receivedPns) := by
  have htracks : rx.Tracks :=
    h.invariant ⟨zero_le _, rfl⟩ fun _ _ _ _ hi hok hs => hi.step hok hs
  cases hl : rx.largestReceivedPn with
  | none =>
    have hmax := htracks.max
    rw [hl, max?_eq_none] at hmax
    refine .inl ⟨?_, by rw [generateAckRanges, hl]⟩
    cases hpns : rx.receivedPns
    rw [hpns] at hmax
    subst hmax
    rfl
  | some largest =>
    obtain ⟨ranges, intervals, hgen, hwalk, hmem⟩ := htracks.walk_generateAckRanges hl
    have hcov : ∀ p : SentPacket, covers intervals p.pn = decide (p.pn ∈ rx.receivedPns) :=
      fun p => Bool.eq_iff_iff.2 ((hmem p.pn).trans decide_eq_true_iff.symm)
    obtain ⟨tx', hack, hsent⟩ := onAckReceived_of_walk hwalk
    simp only [hcov] at hack hsent
    refine .inr ⟨largest, ranges, tx', hgen, hack, hsent.trans ?_⟩
    simp only [decide_not]

theorem onAckReceived_generateAckRanges_of_gap :
    ∃ t rx, ReachesBy (fun _ a => a ≠ .discard) step {} t rx ∧
      rx.receivedPns = ⟨[0, 3, 5], by decide⟩ ∧
      ((rx.receivedPns = .empty ∧ rx.generateAckRanges = some none) ∨
        ∃ largest ranges tx', rx.generateAckRanges = some (some (largest, ranges)) ∧
          onAckReceived { sentPackets := [⟨3, 10, true, true, 9⟩, ⟨4, 10, true, true, 9⟩] }
            largest ranges = some ([⟨3, 10, true, true, 9⟩], tx') ∧
          tx'.sentPackets = [⟨4, 10, true, true, 9⟩]) := by
  have hrx := ReachesBy.of_exec (fun _ a => a ≠ .discard) step {} [.onPacketReceived 5 0,
    .onPacketReceived 0 1, .onPacketReceived 3 2, .onPacketReceived 5 3] (by decide +kernel)
  exact ⟨_, _, hrx, by decide +kernel, onAckReceived_generateAckRanges hrx
    { sentPackets := [⟨3, 10, true, true, 9⟩, ⟨4, 10, true, true, 9⟩] }⟩

end PacketNumberSpaceState

end SmallAIOS.Net.Quic
