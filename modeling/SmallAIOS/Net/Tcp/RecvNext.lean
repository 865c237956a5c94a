import SmallAIOS.Net.Tcp.Connection

/-!
# What a connection acknowledges

The other side sends its SYN, and its bytes cut into segments with their sequence numbers. They
come in any order, twice or not at all. Nothing is checked when they come: any segment with data
moves the next number that is expected, by the length of the data, and a FIN after the close of
this side moves it behind the FIN, wherever that is. So bytes are acknowledged that did not come.

`InOrder` says that the segments that move the number come in order. In the runs where they do,
the number is at most that of the first byte that did not come, or of what follows the FIN
(`recvNext_le`).
-/

namespace SmallAIOS.Net.Tcp

open Lib TcpFlags List Nat TcpConnection ReachesBy

/-- The initial sequence number of the other side, and its bytes. -/
structure Peer where
  isn : UInt32
  bytes : List UInt8

/-- The calls, where a segment is a SYN or one with the bytes from an offset on. -/
inductive Event where
  | listen
  | connect (remotePort : UInt16)
  | close
  | syn (h : TcpHeader)
  | segment (offset : ℕ) (h : TcpHeader) (payload : List UInt8)
  deriving DecidableEq

namespace Event

def call : Event → TcpConnection.Call
  | listen => .listen
  | connect remotePort => .connect remotePort
  | close => .close
  | syn h => .onSegment h []
  | segment _ h payload => .onSegment h payload

/-- The other side sent the segment. -/
def Genuine (p : Peer) : Event → Prop
  | syn h => h.seqNum = p.isn ∧ h.has SYN ∧ ¬h.has FIN
  | segment offset h payload => h.seqNum = p.isn + 1 + .ofNat offset ∧ ¬h.has SYN ∧
    payload <+: p.bytes.drop offset ∧ offset + payload.length ≤ p.bytes.length ∧
    (h.has FIN → offset + payload.length = p.bytes.length)
  | _ => True

instance (p : Peer) : ∀ e, Decidable (Genuine p e)
  | syn _ | segment _ _ _ => inferInstanceAs (Decidable (_ ∧ _))
  | listen | connect _ | close => .isTrue trivial

/-- The byte is in the segment. -/
def hasByte (i : ℕ) : Event → Bool
  | segment offset _ payload => offset ≤ i && i < offset + payload.length
  | _ => false

def hasFin : Event → Bool
  | segment _ h _ => h.has FIN
  | _ => false

end Event

/-- A connection, after the events so far. -/
abbrev History := List (Event × Answer) × TcpConnection

def stepEvent (s : TcpConnection) (e : Event) : Option (Answer × TcpConnection) := s.step e.call

variable (p : Peer) (t : List (Event × Answer))

/-- The length of the longest prefix of the bytes of the other side that came. -/
def prefixLen : ℕ :=
  findGreatest (fun n => ∀ i < n, t.any (·.1.hasByte i)) p.bytes.length

def finDelivered : Bool := t.any (·.1.hasFin)

/-- A segment that moves the next number that is expected starts there, and not behind the first
    byte that did not come. -/
def InOrder (v : History) : Event → Prop
  | .segment offset h payload =>
    (v.2.state = .established → ¬h.has RST → payload ≠ [] →
      h.seqNum = v.2.recvNext ∧ offset ≤ prefixLen p v.1) ∧
    (v.2.state = .finWait1 ∨ v.2.state = .finWait2 → h.has FIN → offset ≤ prefixLen p v.1)
  | _ => True

instance (v : History) : ∀ e, Decidable (InOrder p v e)
  | .segment _ _ _ => inferInstanceAs (Decidable (_ ∧ _))
  | .listen | .connect _ | .close | .syn _ => .isTrue trivial

/-! ## Prefixes -/

variable {p t} {e : Event} {r : Answer} {n : ℕ}

theorem le_prefixLen : n ≤ prefixLen p t ↔ n ≤ p.bytes.length ∧ ∀ i < n, t.any (·.1.hasByte i) := by
  have hspec : ∀ i < prefixLen p t, t.any (·.1.hasByte i) := by
    refine findGreatest_spec (P := fun n => ∀ i < n, t.any (·.1.hasByte i))
      (zero_le p.bytes.length) ?_
    intro i hi
    exact absurd hi (not_lt_zero i)
  constructor
  · intro hn
    exact ⟨hn.trans (findGreatest_le _), fun i hi => hspec i (hi.trans_le hn)⟩
  · rintro ⟨hn, h⟩
    exact le_findGreatest hn h

theorem prefixLen_cons : prefixLen p t ≤ prefixLen p ((e, r) :: t) := by
  obtain ⟨hle, hall⟩ := le_prefixLen.1 (le_refl (prefixLen p t))
  refine le_prefixLen.2 ⟨hle, ?_⟩
  intro i hi
  rw [any_cons, hall i hi, Bool.or_true]

theorem finDelivered_cons (h : finDelivered t) : finDelivered ((e, r) :: t) := by
  rw [finDelivered, any_cons, ← finDelivered, h, Bool.or_true]

variable {payload : List UInt8} {h : TcpHeader}

/-- A segment that starts in the prefix makes it as long as the segment reaches. -/
theorem prefixLen_segment {offset : ℕ}
    (hle : offset ≤ prefixLen p t) (hend : offset + payload.length ≤ p.bytes.length) :
    offset + payload.length ≤ prefixLen p ((.segment offset h payload, r) :: t) := by
  refine le_prefixLen.2 ⟨hend, ?_⟩
  intro i hi
  rw [any_cons]
  rcases lt_or_ge i offset with hlt | hge
  · rw [(le_prefixLen.1 hle).2 i hlt, Bool.or_true]
  · simp [Event.hasByte, hge, hi]

/-! ## The bound -/

/-- How far the next number that is expected is from that of the first byte. -/
def advance (p : Peer) (s : TcpConnection) : ℕ := (s.recvNext - (p.isn + 1)).toNat

/-- The bytes before the next number that is expected came. -/
def Low (p : Peer) (v : History) : Prop := advance p v.2 ≤ prefixLen p v.1

/-- The bytes before the next number that is expected, or the FIN, came. -/
def Bound (p : Peer) (v : History) : Prop :=
  advance p v.2 ≤ prefixLen p v.1 + if finDelivered v.1 then 1 else 0

/-- What holds in the states of a connection: there is no bound before the SYN of the other side,
    and the FIN does not count before it is handled. -/
def Within (p : Peer) (v : History) : Prop :=
  match v.2.state with
  | .closed | .listen | .synSent => True
  | .synReceived | .established | .finWait1 | .finWait2 => Low p v
  | .closeWait | .closing | .lastAck | .timeWait => Bound p v

variable {v v' : History} {s s' : TcpConnection}

theorem Low.bound (h : Low p v) : Bound p v := h.trans (le_add_right _ _)

/-- The lower bound is enough in every state. -/
theorem Low.within (h : Low p v) : Within p v := by
  unfold Within
  cases v.2.state with
  | closed | listen | synSent => trivial
  | synReceived | established | finWait1 | finWait2 => exact h
  | closeWait | closing | lastAck | timeWait => exact h.bound

section

variable (hnext : s'.recvNext = s.recvNext)
include hnext

/-- The bounds stay when the number does. -/
theorem Low.cons (h : Low p (t, s)) : Low p ((e, r) :: t, s') := by
  rw [Low, advance, hnext]
  exact h.trans prefixLen_cons

theorem Bound.cons (h : Bound p (t, s)) : Bound p ((e, r) :: t, s') := by
  rw [Bound, advance, hnext]
  refine h.trans (Nat.add_le_add prefixLen_cons ?_)
  by_cases hfin : finDelivered t
  · rw [if_pos hfin, if_pos (finDelivered_cons hfin)]
  · rw [if_neg hfin]
    exact zero_le _

theorem Within.cons (h : Within p (t, s)) (hst : s'.state = s.state) :
    Within p ((e, r) :: t, s') := by
  unfold Within at h ⊢
  rw [hst]
  cases hs : s.state with
  | closed | listen | synSent => trivial
  | synReceived | established | finWait1 | finWait2 =>
    rw [hs] at h
    exact Low.cons hnext h
  | closeWait | closing | lastAck | timeWait =>
    rw [hs] at h
    exact Bound.cons hnext h

end

theorem advance_le (h : s.recvNext = p.isn + 1 + .ofNat n) : advance p s ≤ n := by
  have hsub : p.isn + 1 + UInt32.ofNat n - (p.isn + 1) = .ofNat n := by
    rw [UInt32.add_comm, UInt32.add_sub_cancel]
  rw [advance, h, hsub]
  exact mod_le _ _

theorem advance_add_one (h : s'.recvNext = s.recvNext + 1) : advance p s' ≤ advance p s + 1 := by
  have hsub : s.recvNext + 1 - (p.isn + 1) = s.recvNext - (p.isn + 1) + 1 := by
    rw [UInt32.sub_eq_add_neg, UInt32.sub_eq_add_neg, UInt32.add_assoc, UInt32.add_comm 1,
      ← UInt32.add_assoc]
  rw [advance, h, hsub]
  exact mod_le _ _

/-- A segment of the other side is its SYN, or has the bytes from an offset on. -/
theorem Event.eq_of_call (hc : .onSegment h payload = e.call) :
    (e = .syn h ∧ payload = []) ∨ ∃ offset, e = .segment offset h payload := by
  cases e with
  | syn h' =>
    cases hc
    exact .inl ⟨rfl, rfl⟩
  | segment offset h' payload' =>
    cases hc
    exact .inr ⟨offset, rfl⟩
  | listen => cases hc
  | connect _ => cases hc
  | close => cases hc

section

variable (hg : e.Genuine p) (hc : .onSegment h payload = e.call)
include hg hc

theorem finDelivered_of_fin (hfin : h.has FIN) : finDelivered ((e, r) :: t) := by
  rcases Event.eq_of_call hc with ⟨rfl, -⟩ | ⟨-, rfl⟩
  · exact absurd hfin hg.2.2
  · rw [finDelivered, any_cons, Event.hasFin, hfin, Bool.true_or]

/-- After a FIN that starts in the prefix, the next number that is expected is at most behind it. -/
theorem bound_of_fin (hfin : h.has FIN)
    (ho : ∀ offset, e = .segment offset h payload → offset ≤ prefixLen p t)
    (hnext : s'.recvNext = h.seqNum + 1) : Bound p ((e, r) :: t, s') := by
  rw [Bound, if_pos (finDelivered_of_fin hg hc hfin)]
  rcases Event.eq_of_call hc with ⟨rfl, -⟩ | ⟨offset, rfl⟩
  · exact absurd hfin hg.2.2
  · have hadv : advance p s' ≤ offset + 1 := by
      refine advance_le ?_
      rw [hnext, hg.1, UInt32.add_assoc, UInt32.ofNat_add]
      rfl
    exact hadv.trans (Nat.add_le_add_right ((ho offset rfl).trans prefixLen_cons) 1)

theorem low_of_syn (hsyn : h.has SYN) (hnext : s'.recvNext = h.seqNum + 1) :
    Low p ((e, r) :: t, s') := by
  have hseq : h.seqNum = p.isn := by
    rcases Event.eq_of_call hc with ⟨rfl, -⟩ | ⟨offset, rfl⟩
    · exact hg.1
    · exact absurd hsyn hg.2.1
  have hadv : advance p s' ≤ 0 := by
    refine advance_le ?_
    rw [hnext, hseq]
    exact (UInt32.add_zero _).symm
  exact hadv.trans (zero_le _)

/-- Data in order is acknowledged as far as it reaches. -/
theorem low_of_data (hlen : 0 < UInt32.ofNat payload.length)
    (ho : ∀ offset, e = .segment offset h payload → payload ≠ [] →
      h.seqNum = s.recvNext ∧ offset ≤ prefixLen p t)
    (hnext : s'.recvNext = s.recvNext + .ofNat payload.length) : Low p ((e, r) :: t, s') := by
  have hne : payload ≠ [] := by
    rintro rfl
    exact absurd hlen (by decide)
  rcases Event.eq_of_call hc with ⟨-, rfl⟩ | ⟨offset, rfl⟩
  · exact absurd rfl hne
  · obtain ⟨hseq, hle⟩ := ho offset rfl hne
    have hadv : advance p s' ≤ offset + payload.length := by
      refine advance_le ?_
      rw [hnext, ← hseq, hg.1, UInt32.add_assoc, UInt32.ofNat_add]
    exact hadv.trans (prefixLen_segment hle hg.2.2.2.1)

/-- A FIN that comes while the connection is open moves the number by one. -/
theorem Low.bound_of_fin (hlow : Low p (t, s)) (hfin : h.has FIN)
    (hnext : s'.recvNext = s.recvNext + 1) : Bound p ((e, r) :: t, s') := by
  rw [Bound, if_pos (finDelivered_of_fin hg hc hfin)]
  exact (advance_add_one hnext).trans (Nat.add_le_add_right (hlow.trans prefixLen_cons) 1)

end

/-- The bounds of the states are kept, and so is the bound on the number. -/
theorem Within.step (hw : Within p (t, s)) (hg : e.Genuine p) (ho : InOrder p (t, s) e)
    (hs : stepEvent s e = some (r, s')) :
    Within p ((e, r) :: t, s') ∧ (Bound p (t, s) → Bound p ((e, r) :: t, s')) := by
  have hm := moved_of_step hs
  generalize hc : e.call = a at hm
  have hseg : ∀ {h payload offset}, e = .segment offset h payload →
      (s.state = .established → ¬h.has RST → payload ≠ [] →
        h.seqNum = s.recvNext ∧ offset ≤ prefixLen p t) ∧
      (s.state = .finWait1 ∨ s.state = .finWait2 → h.has FIN → offset ≤ prefixLen p t) := by
    rintro h payload offset rfl
    exact ho
  -- A FIN after the close of this side.
  have hclosed : ∀ {h payload r} {s' : TcpConnection}, e.call = .onSegment h payload →
      s.state = .finWait1 ∨ s.state = .finWait2 → h.has FIN → s'.recvNext = h.seqNum + 1 →
      Bound p ((e, r) :: t, s') := by
    intro h payload r s' hc hst hfin hnext
    exact bound_of_fin hg hc.symm hfin (fun offset he => (hseg he).2 hst hfin) hnext
  cases hm with
  | stay _ => exact ⟨hw.cons rfl rfl, fun hb => hb.cons rfl⟩
  | listen hst => exact ⟨trivial, fun hb => hb.cons rfl⟩
  | connect hst => exact ⟨trivial, fun hb => hb.cons rfl⟩
  | close hst | closeWait hst | synReceived hst hack | finWait1 hst hack | closing hst hack =>
    rw [Within, hst] at hw
    exact ⟨hw.cons rfl, fun hb => hb.cons rfl⟩
  | syn hst hsyn | synAck hst hsyn hack =>
    suffices hlow : Low p _ from ⟨hlow.within, fun _ => hlow.bound⟩
    exact low_of_syn hg hc.symm hsyn rfl
  | reset hst hrst => exact ⟨trivial, fun hb => hb.cons rfl⟩
  | data hst hrst hlen =>
    suffices hlow : Low p _ from ⟨hlow.within, fun _ => hlow.bound⟩
    exact low_of_data hg hc.symm hlen (fun offset he => (hseg he).1 hst hrst) rfl
  | fin hst hrst hfin =>
    rw [Within, hst] at hw
    exact ⟨hw.bound_of_fin hg hc.symm hfin rfl, fun _ => hw.bound_of_fin hg hc.symm hfin rfl⟩
  | @ack h _ hst hrst =>
    have hnext := recvNext_noteAck (s := s) h
    exact ⟨hw.cons hnext (state_noteAck h), fun hb => hb.cons hnext⟩
  | finAck hst hack hfin | bothFin hst hfin =>
    exact ⟨hclosed hc (.inl hst) hfin rfl, fun _ => hclosed hc (.inl hst) hfin rfl⟩
  | finWait2 hst hfin =>
    exact ⟨hclosed hc (.inr hst) hfin rfl, fun _ => hclosed hc (.inr hst) hfin rfl⟩
  | lastAck hst hack => exact ⟨trivial, fun hb => hb.cons rfl⟩

/-- The last acknowledgement that was sent, if it was sent by the last event, is the next number
    that is expected. -/
def Acknowledged (v : History) : Prop :=
  ∀ e b t h rest, v.1 = (e, .ok (some (.send b))) :: t → TcpHeader.parse b = .ok (h, rest) →
    h.has ACK → h.ackNum = v.2.recvNext

theorem acknowledged_step (hs : stepEvent s e = some (r, s')) : Acknowledged ((e, r) :: t, s') := by
  intro e' b t' h rest heq hb hack
  have hr : r = .ok (some (.send b)) := (Prod.mk.inj (cons.inj heq).1).2
  obtain ⟨h', rfl, ho, hnum⟩ := (moved_of_step hs).exists_header hr
  rw [TcpHeader.parse_serialize_of_no_options ho] at hb
  cases hb
  exact hnum hack

/-- After a connection is established, in a run of segments of the other side that are in order
    where they move the next number that is expected, that number, and so the number of an
    acknowledgement that is sent, is at most that of the first byte that did not come, and one more
    if the FIN came. -/
theorem recvNext_le {port : UInt16} {t₁ t₂ : List (Event × Answer)} {v₁ v : History}
    (h₁ : ReachesBy (fun v e => e.Genuine p ∧ InOrder p v e) (traced stepEvent) ([], .new port)
      t₁ v₁) (hest : v₁.2.state = .established)
    (h₂ : ReachesBy (fun v e => e.Genuine p ∧ InOrder p v e) (traced stepEvent) v₁ t₂ v) :
    (v.2.recvNext - (p.isn + 1)).toNat ≤ prefixLen p v.1 + (if finDelivered v.1 then 1 else 0) ∧
    ∀ e b t' h rest, v.1 = (e, .ok (some (.send b))) :: t' → TcpHeader.parse b = .ok (h, rest) →
      h.has ACK →
      (h.ackNum - (p.isn + 1)).toNat ≤ prefixLen p v.1 + if finDelivered v.1 then 1 else 0 := by
  have hw : Within p v₁ ∧ Acknowledged v₁ := by
    refine h₁.invariant (I := fun v => Within p v ∧ Acknowledged v) ⟨trivial, ?_⟩ ?_
    · intro e b t h rest heq
      cases heq
    · rintro ⟨t, s⟩ e r v' ⟨hw, -⟩ ⟨hg, ho⟩ ht
      obtain ⟨s', hs, rfl⟩ := traced_eq_some.1 ht
      exact ⟨(hw.step hg ho hs).1, acknowledged_step hs⟩
  have hb : Bound p v₁ := by
    have hlow := hw.1
    rw [Within, hest] at hlow
    exact Low.bound hlow
  have hall : Within p v ∧ Bound p v ∧ Acknowledged v := by
    refine h₂.invariant (I := fun v => Within p v ∧ Bound p v ∧ Acknowledged v) ⟨hw.1, hb, hw.2⟩ ?_
    rintro ⟨t, s⟩ e r v' ⟨hw, hb, -⟩ ⟨hg, ho⟩ ht
    obtain ⟨s', hs, rfl⟩ := traced_eq_some.1 ht
    have hstep := hw.step hg ho hs
    exact ⟨hstep.1, hstep.2 hb, acknowledged_step hs⟩
  refine ⟨hall.2.1, ?_⟩
  intro e b t' h rest heq hparse hack
  rw [hall.2.2 e b t' h rest heq hparse hack]
  exact hall.2.1

/-- The connection is opened by the other side, which sends three bytes in two segments and then its
    FIN. -/
theorem recvNext_le_of_two_segments :
    ∃ t₁ t₂ v₁ v, ReachesBy (fun v e => e.Genuine ⟨100, [1, 2, 3]⟩ ∧ InOrder ⟨100, [1, 2, 3]⟩ v e)
        (traced stepEvent) ([], .new 80) t₁ v₁ ∧ v₁.2.state = .established ∧
      ReachesBy (fun v e => e.Genuine ⟨100, [1, 2, 3]⟩ ∧ InOrder ⟨100, [1, 2, 3]⟩ v e)
        (traced stepEvent) v₁ t₂ v ∧ v.2.recvNext = 105 ∧
      (v.2.recvNext - 101).toNat ≤
        prefixLen ⟨100, [1, 2, 3]⟩ v.1 + if finDelivered v.1 then 1 else 0 := by
  have hr1 := of_exec
    (fun v e => e.Genuine ⟨100, [1, 2, 3]⟩ ∧ InOrder ⟨100, [1, 2, 3]⟩ v e) (traced stepEvent)
    ([], .new 80) [.listen, .syn ⟨5000, 80, 100, 0, 5, SYN, 9, 0, 0⟩,
      .segment 0 ⟨5000, 80, 101, 2001, 5, ACK, 9, 0, 0⟩ []] (by decide +kernel)
  refine ⟨_, _, _, _, hr1, by decide +kernel, of_exec _ _ _
    [.segment 0 ⟨5000, 80, 101, 2001, 5, ACK, 9, 0, 0⟩ [1, 2],
      .segment 2 ⟨5000, 80, 103, 2001, 5, ACK, 9, 0, 0⟩ [3],
      .segment 3 ⟨5000, 80, 104, 2001, 5, ACK ||| FIN, 9, 0, 0⟩ []] (by decide +kernel),
    by decide +kernel, ?_⟩
  exact (recvNext_le hr1 (by decide +kernel) (of_exec _ _ _ _ (by decide +kernel))).1

/-- A segment that comes twice is acknowledged twice. -/
theorem recvNext_beyond_delivered :
    ∃ t₁ t₂ v₁ v, ReachesBy (fun _ e => e.Genuine ⟨100, [1, 2, 3]⟩) (traced stepEvent)
        ([], .new 80) t₁ v₁ ∧ v₁.2.state = .established ∧
      ReachesBy (fun _ e => e.Genuine ⟨100, [1, 2, 3]⟩) (traced stepEvent) v₁ t₂ v ∧
      (v.2.recvNext - 101).toNat = 6 ∧ prefixLen ⟨100, [1, 2, 3]⟩ v.1 = 3 ∧
      finDelivered v.1 = false :=
  ⟨_, _, _, _, of_exec (fun _ e => e.Genuine ⟨100, [1, 2, 3]⟩) (traced stepEvent) ([], .new 80)
      [.listen, .syn ⟨5000, 80, 100, 0, 5, SYN, 9, 0, 0⟩,
        .segment 0 ⟨5000, 80, 101, 2001, 5, ACK, 9, 0, 0⟩ []] (by decide +kernel),
    by decide +kernel, of_exec (fun _ e => e.Genuine ⟨100, [1, 2, 3]⟩) (traced stepEvent) _
      [.segment 0 ⟨5000, 80, 101, 2001, 5, ACK, 9, 0, 0⟩ [1, 2, 3],
        .segment 0 ⟨5000, 80, 101, 2001, 5, ACK, 9, 0, 0⟩ [1, 2, 3]] (by decide +kernel),
    by decide +kernel, by decide +kernel, by decide +kernel⟩

end SmallAIOS.Net.Tcp
