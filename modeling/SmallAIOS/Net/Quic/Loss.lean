import SmallAIOS.Net.Quic.Spaces

/-!
# Acknowledgements from the other side

The numbers in an acknowledgement are chosen by the other side. They are not checked against
the packets that were sent: the largest number is recorded as it comes, and decides which packets
are lost; a range that reaches below zero panics, or stops at zero and acknowledges packet zero.

`Honest` says which acknowledgements these things do not happen for. In the runs where all of
them are honest the recorded number is that of a packet that was sent, an acknowledgement takes
out the packets in its ranges before one reaches below zero (`acked`), and a packet is lost only
because of a packet that was sent (`ack_safety`).
-/

namespace SmallAIOS.Net.Quic

open Lib List

/-- The intervals of the ranges below `lo`, before the first one that reaches below zero. -/
def ackedRest : ℕ → List (ℕ × ℕ) → List (ℕ × ℕ)
  | _, [] => []
  | lo, (gap, len) :: ranges =>
    if gap + 1 + len ≤ lo then
      (lo - 1 - gap - len, lo - 1 - gap) :: ackedRest (lo - 1 - gap - len) ranges
    else []

/-- The intervals of the ranges, before the first one that reaches below zero. -/
def acked (largest : ℕ) : List (ℕ × ℕ) → List (ℕ × ℕ)
  | [] => []
  | (_, len) :: ranges =>
    if len ≤ largest then (largest - len, largest) :: ackedRest (largest - len) ranges else []

/-- No range below `lo` reaches below zero, or those that do are of one number and packet zero
    is acknowledged already or not in flight. -/
def fitsRest (flight : List ℕ) : ℕ → List (ℕ × ℕ) → Bool
  | _, [] => true
  | lo, (gap, len) :: ranges =>
    if gap + 1 + len ≤ lo then fitsRest flight (lo - 1 - gap - len) ranges
    else ((gap, len) :: ranges).all (·.2 = 0) && (lo = 0 || 0 ∉ flight)

/-- The first range does not reach below zero, and the others do no harm. -/
def fits (flight : List ℕ) (largest : ℕ) (ranges : List (ℕ × ℕ)) : Bool :=
  ranges.all (·.2 + 1 < 2 ^ 64) &&
    match ranges with
    | [] => true
    | (_, len) :: ranges => len ≤ largest && fitsRest flight (largest - len) ranges

variable {ranges : List (ℕ × ℕ)}

/-- Ranges at zero acknowledge packet zero only. -/
theorem walkRest_zero (h : ∀ r ∈ ranges, r.2 = 0) :
    ∃ intervals, walkRest 0 ranges = some intervals ∧ ∀ n, covers intervals n → n = 0 := by
  induction ranges with
  | nil => exact ⟨[], rfl, by simp [covers]⟩
  | cons r ranges ih =>
    obtain ⟨gap, len⟩ := r
    obtain rfl : len = 0 := h _ mem_cons_self
    obtain ⟨intervals, hwalk, hmem⟩ := ih fun r hr => h r (mem_cons_of_mem _ hr)
    refine ⟨(0, 0) :: intervals, ?_, fun n hn => ?_⟩
    · have hrest : walkRest (0 - gap - 0 - 1) ranges = some intervals := by
        rw [Nat.zero_sub, hwalk]
      rw [walkRest_cons (Nat.zero_le _) (by decide) hrest, Nat.zero_sub]
    · rcases covers_cons.1 hn with hn | hn
      · exact Nat.le_zero.1 hn.2
      · exact hmem n hn

variable {flight : List ℕ}

/-- The walk of fitting ranges acknowledges the packets in flight that are in them. -/
theorem walkRest_of_fitsRest {lo : ℕ}
    (hlen : ∀ r ∈ ranges, r.2 + 1 < 2 ^ 64) (hfits : fitsRest flight lo ranges) :
    ∃ intervals, walkRest (lo - 1) ranges = some intervals ∧
      ∀ n ∈ flight, n ≠ lo → (covers intervals n ↔ covers (ackedRest lo ranges) n) := by
  induction ranges generalizing lo with
  | nil => exact ⟨[], rfl, fun _ _ _ => Iff.rfl⟩
  | cons r ranges ih =>
    obtain ⟨gap, len⟩ := r
    rw [fitsRest] at hfits
    rw [ackedRest]
    split_ifs at hfits with hle
    · rw [if_pos hle]
      obtain ⟨intervals, hwalk, hmem⟩ :=
        ih (fun r hr => hlen r (mem_cons_of_mem _ hr)) hfits
      refine ⟨(lo - 1 - gap - len, lo - 1 - gap) :: intervals, ?_, fun n hn _ => ?_⟩
      · exact walkRest_cons (by omega) (hlen _ mem_cons_self) hwalk
      · rw [covers_cons, covers_cons]
        by_cases heq : n = lo - 1 - gap - len
        · have hin : lo - 1 - gap - len ≤ n ∧ n ≤ lo - 1 - gap := by omega
          exact ⟨fun _ => .inl hin, fun _ => .inl hin⟩
        · exact or_congr_right (hmem n hn heq)
    · -- The range stops at zero, and so do all that follow.
      rw [if_neg hle]
      rw [Bool.and_eq_true, all_eq_true, Bool.or_eq_true, decide_eq_true_iff,
        decide_eq_true_iff] at hfits
      have hzero : ∀ r ∈ (gap, len) :: ranges, r.2 = 0 := fun r hr =>
        of_decide_eq_true (hfits.1 r hr)
      obtain rfl : len = 0 := hzero _ mem_cons_self
      obtain ⟨intervals, hwalk, hmem⟩ := walkRest_zero hzero
      refine ⟨intervals, ?_, fun n hn hne => iff_of_false (fun hcov => ?_) (by simp [covers])⟩
      · rw [walkRest, Nat.zero_sub] at hwalk
        rw [walkRest, (by omega : lo - 1 - gap = 0), hwalk]
      · obtain rfl := hmem n hcov
        rcases hfits.2 with rfl | hflight
        · exact hne rfl
        · exact hflight hn

theorem walk_of_fits {largest : ℕ} (h : fits flight largest ranges) :
    ∃ intervals, walk largest ranges = some intervals ∧
      ∀ n ∈ flight, (covers intervals n ↔ covers (acked largest ranges) n) := by
  obtain ⟨h, hfits⟩ := Bool.and_eq_true_iff.1 h
  rw [all_eq_true] at h
  have hlen : ∀ r ∈ ranges, r.2 + 1 < 2 ^ 64 := fun r hr => of_decide_eq_true (h r hr)
  cases ranges with
  | nil => exact ⟨[], rfl, fun _ _ => Iff.rfl⟩
  | cons r ranges =>
    obtain ⟨gap, len⟩ := r
    obtain ⟨hle, hfits⟩ := Bool.and_eq_true_iff.1 hfits
    have hle : len ≤ largest := of_decide_eq_true hle
    obtain ⟨intervals, hwalk, hmem⟩ :=
      walkRest_of_fitsRest (fun r hr => hlen r (mem_cons_of_mem _ hr)) hfits
    refine ⟨(largest - len, largest) :: intervals, ?_, fun n hn => ?_⟩
    · exact walk_cons hle (hlen _ mem_cons_self) hwalk
    · rw [acked, if_pos hle, covers_cons, covers_cons]
      by_cases heq : n = largest - len
      · have hin : largest - len ≤ n ∧ n ≤ largest := by omega
        exact ⟨fun _ => .inl hin, fun _ => .inl hin⟩
      · exact or_congr_right (hmem n hn heq)

namespace PacketNumberSpaceState

variable {s s' : PacketNumberSpaceState}

/-- The numbers of the packets that were sent in a run. -/
def sentPns (t : List (Call × Answer)) : List ℕ :=
  t.filterMap fun c => match c.1 with
    | .onPacketSent packet => some packet.pn
    | _ => none

/-- After the calls that were made, the largest number of an acknowledgement is that of a packet
    that was sent or is not larger than the recorded one, and the ranges fit. -/
def Honest (s : List (Call × Answer) × PacketNumberSpaceState) : Call → Prop
  | .onAckReceived largest ranges =>
    (largest ∈ sentPns s.1 ∨ s.2.largestAckedPn.any (largest ≤ ·)) ∧
      fits (s.2.sentPackets.map (·.pn)) largest ranges
  | _ => True

instance (s : List (Call × Answer) × PacketNumberSpaceState) : ∀ a, Decidable (Honest s a)
  | .onAckReceived _ _ => inferInstanceAs (Decidable (_ ∧ _))
  | .allocatePn | .onPacketSent _ | .onPacketReceived _ _ | .clearAckNeeded
  | .detectLostPackets _ _ | .discard => .isTrue trivial

/-- The recorded largest acknowledged number is that of a packet that was sent. -/
def Grounded (s : List (Call × Answer) × PacketNumberSpaceState) : Prop :=
  ∀ largest, s.2.largestAckedPn = some largest → largest ∈ sentPns s.1

theorem Grounded.step {v v' : List (Call × Answer) × PacketNumberSpaceState} {a : Call} {b : Answer}
    (h : Grounded v) (ha : Honest v a) (ht : traced step v a = some (b, v')) : Grounded v' := by
  obtain ⟨s', hs, rfl⟩ := traced_eq_some.1 ht
  intro n hn
  rw [sentPns, filterMap_cons_toList]
  refine mem_append_right _ ?_
  rcases step_cases hs with ⟨_, _, -, rfl⟩ | ⟨largest, ranges, _, rfl, rfl⟩ | ⟨-, rfl⟩ | ⟨-, -, hl⟩
  · exact h n hn
  · -- The number is recorded if it is larger.
    split_ifs at hn with hlt
    · cases hn
      refine ha.1.resolve_right fun hle => ?_
      cases hrec : v.2.largestAckedPn with
      | none =>
        rw [hrec] at hle
        cases hle
      | some recorded =>
        rw [hrec] at hle hlt
        exact (of_decide_eq_true hle).not_gt (of_decide_eq_true hlt)
    · exact h n hn
  · exact h n hn
  · exact h n (hl ▸ hn)

variable {largest delay now : ℕ}

/-- A lost packet is not after the acknowledged one, and is old or three packets behind. -/
theorem lossOf_eq_true {p : SentPacket} {time : Option ℕ}
    (h : lossOf largest delay now p = some (true, time)) :
    p.pn ≤ largest ∧ (p.timeSentUs + delay ≤ now ∨ p.pn + 3 ≤ largest) := by
  rw [lossOf] at h
  split_ifs at h with hlt
  · cases h
  obtain ⟨lossTime, hadd, h⟩ := Option.bind_eq_some_iff.1 h
  obtain ⟨-, rfl⟩ := Word.add_eq_some.1 hadd
  refine ⟨not_lt.1 hlt, ?_⟩
  split_ifs at h with hold
  · exact .inl hold
  · obtain ⟨threshold, hadd, h⟩ := Option.bind_eq_some_iff.1 h
    obtain ⟨-, rfl⟩ := Word.add_eq_some.1 hadd
    split_ifs at h with hbehind
    · exact .inr hbehind
    · cases h

theorem sieve_lost {ps : List SentPacket}
    {r : List SentPacket × List SentPacket × Option ℕ} (h : sieve largest delay now ps = some r) :
    ∀ p ∈ r.1, p.pn ≤ largest ∧ (p.timeSentUs + delay ≤ now ∨ p.pn + 3 ≤ largest) := by
  induction ps generalizing r with
  | nil =>
    cases h
    exact fun p hp => absurd hp not_mem_nil
  | cons q ps ih =>
    obtain ⟨⟨lost, time⟩, hloss, h⟩ := Option.bind_eq_some_iff.1 h
    obtain ⟨rest, hrest, h⟩ := Option.bind_eq_some_iff.1 h
    cases lost with
    | true =>
      cases h
      intro p hp
      rcases mem_cons.1 hp with rfl | hp
      · exact lossOf_eq_true hloss
      · exact ih hrest p hp
    | false =>
      cases h
      exact fun p hp => ih hrest p hp

/-- In the runs whose acknowledgements are honest, the recorded largest acknowledged number is
    that of a packet that was sent; an honest acknowledgement returns and takes out the packets
    in its ranges, of which one that reaches below zero has none; and a packet is lost because
    of a packet that was sent and acknowledged. -/
theorem ack_safety {tr t : List (Call × Answer)}
    (h : ReachesBy Honest (traced step) ([], {}) tr (t, s)) :
    (∀ largest, s.largestAckedPn = some largest → largest ∈ sentPns t) ∧
    (∀ largest ranges, Honest (t, s) (.onAckReceived largest ranges) → ∃ s',
      s.onAckReceived largest ranges =
        some (s.sentPackets.filter (covers (acked largest ranges) ·.pn), s') ∧
      s'.sentPackets = s.sentPackets.filter (!covers (acked largest ranges) ·.pn)) ∧
    (∀ delay now lost s', s.detectLostPackets delay now = some (lost, s') → ∀ p ∈ lost,
      ∃ largest ∈ sentPns t, s.largestAckedPn = some largest ∧ p.pn ≤ largest ∧
        (p.timeSentUs + delay ≤ now ∨ p.pn + 3 ≤ largest)) := by
  have hground : Grounded (t, s) :=
    h.invariant (fun _ hn => nomatch hn) fun _ _ _ _ hi hok hs => hi.step hok hs
  refine ⟨hground, fun largest ranges hok => ?_, fun delay now lost s' hdet p hp => ?_⟩
  · obtain ⟨intervals, hwalk, hmem⟩ := walk_of_fits hok.2
    obtain ⟨s', hack, hsent⟩ := onAckReceived_of_walk hwalk
    have hcov : ∀ p ∈ s.sentPackets,
        covers intervals p.pn = covers (acked largest ranges) p.pn := fun p hp =>
      Bool.eq_iff_iff.2 (hmem p.pn (mem_map_of_mem hp))
    refine ⟨s', ?_, ?_⟩
    · rw [hack, filter_congr hcov]
    · rw [hsent]
      exact filter_congr fun p hp => by rw [hcov p hp]
  · rw [detectLostPackets] at hdet
    cases hl : s.largestAckedPn with
    | none =>
      rw [hl] at hdet
      cases hdet
      exact absurd hp not_mem_nil
    | some largest =>
      rw [hl] at hdet
      obtain ⟨r, hsieve, hr⟩ := Option.map_eq_some_iff.1 hdet
      cases hr
      exact ⟨largest, hground largest hl, rfl, sieve_lost hsieve p hp⟩

theorem ack_safety_of_two_ranges : ∃ tr t s,
    ReachesBy Honest (traced step) ([], {}) tr (t, s) ∧ s.sentPackets = [⟨1, 20, true, true, 9⟩] ∧
      s.largestAckedPn = some 2 ∧ 2 ∈ sentPns t := by
  have hr := ReachesBy.of_exec Honest (traced step) ([], {})
    [.onPacketSent ⟨0, 10, true, true, 9⟩, .onPacketSent ⟨1, 20, true, true, 9⟩,
      .onPacketSent ⟨2, 30, true, true, 9⟩, .onAckReceived 2 [(0, 0), (1, 0)],
      .detectLostPackets 100 50] (by decide +kernel)
  exact ⟨_, _, _, hr, by decide +kernel, by decide +kernel, (ack_safety hr).1 2 (by decide +kernel)⟩

/-- An acknowledgement of packet 100, when only packet 0 was sent, is recorded, and packet 0 is
    lost because of it. A range that reaches below zero acknowledges packet 0, or panics. -/
theorem packet_lost_by_ack_of_unsent :
    (∃ t s, Reaches step {} t s ∧ sentPns t = [0] ∧ s.largestAckedPn = some 100 ∧
      (s.detectLostPackets 1000 0).map Prod.fst = some [⟨0, 0, true, true, 9⟩]) ∧
    (onAckReceived { sentPackets := [⟨0, 0, true, true, 9⟩] } 100 [(0, 0), (100, 0)]).map Prod.fst =
      some [⟨0, 0, true, true, 9⟩] ∧
    onAckReceived { sentPackets := [⟨0, 0, true, true, 9⟩] } 0 [(0, 5)] = none :=
  ⟨⟨_, _, .of_exec _ _ [.onPacketSent ⟨0, 0, true, true, 9⟩, .onAckReceived 100 [(0, 0)]]
    (by decide +kernel), by decide +kernel, by decide +kernel, by decide +kernel⟩,
    by decide +kernel, by decide +kernel⟩

end PacketNumberSpaceState

end SmallAIOS.Net.Quic
