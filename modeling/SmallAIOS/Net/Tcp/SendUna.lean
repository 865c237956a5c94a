import SmallAIOS.Net.Tcp.Connection

/-!
# What a connection takes for acknowledged

The initial sequence number of this side is that of the SYN it sent last, and the number of its FIN
that of the FIN it sent last. An acknowledgement is not compared with them: any segment with the
ACK flag sets the oldest number that is not acknowledged, and moves the machine on from the states
that wait for an acknowledgement of the SYN or the FIN.

`Acks` says that acknowledgements are of what was sent. In the runs where they are, the oldest
number that is not acknowledged is between the initial one and the next one, and the machine moves
on from these states with an acknowledgement of the SYN or the FIN (`sendUna_spec`).
-/

namespace SmallAIOS.Net.Tcp

open Lib TcpFlags Option

/-- The sequence number of a segment with the flag, if the answer sends one. -/
def sentWith (flag : UInt8) : Answer → Option UInt32
  | .ok (some (.send b)) =>
    match TcpHeader.parse b with
    | .ok (h, _) => if h.has flag then some h.seqNum else none
    | .error _ => none
  | _ => none

namespace TcpConnection

variable (t : List (Call × Answer))

/-- The initial sequence number: that of the last SYN that was sent. -/
def isn : Option UInt32 := t.findSome? fun c => sentWith SYN c.2

/-- The sequence number of the last FIN that was sent. -/
def finSeq : Option UInt32 := t.findSome? fun c => sentWith FIN c.2

/-- `b` is not before `a` and not behind `c`, in the order of sequence numbers from `a` on. -/
def Between (a b c : UInt32) : Prop := (b - a).toNat ≤ (c - a).toNat
  deriving Decidable

/-- An acknowledgement that is taken is of what was sent: of everything in the states that wait for
    one of the SYN or the FIN. -/
def Acks (s : TcpConnection) : Call → Prop
  | .onSegment h _ => h.has ACK →
    (s.state = .synSent → h.has SYN → h.ackNum = s.sendNext) ∧
    (s.state = .synReceived ∨ s.state = .finWait1 ∨ s.state = .lastAck →
      h.ackNum = s.sendNext) ∧
    ((s.state = .established ∧ ¬h.has RST) ∨ s.state = .closing →
      Between s.sendUna h.ackNum s.sendNext)
  | _ => True

instance (s : TcpConnection) : ∀ a, Decidable (Acks s a)
  | .onSegment _ _ => inferInstanceAs (Decidable (_ → _))
  | .listen | .connect _ | .close => .isTrue trivial

/-! ## What is sent -/

variable {t} {s s' : TcpConnection} {a : Call} {r : Answer}

theorem isn_cons : isn ((a, r) :: t) = (sentWith SYN r).or (isn t) := by
  rw [isn, List.findSome?_cons]
  cases sentWith SYN r <;> rfl

theorem finSeq_cons : finSeq ((a, r) :: t) = (sentWith FIN r).or (finSeq t) := by
  rw [finSeq, List.findSome?_cons]
  cases sentWith FIN r <;> rfl

variable {h : TcpHeader} {flag : UInt8}

theorem sentWith_sent (ho : h.dataOffset = 5) :
    sentWith flag (sent h) = if h.has flag then some h.seqNum else none := by
  rw [sent, sentWith, TcpHeader.parse_serialize_of_no_options ho]

theorem sentWith_of_ne (h : ∀ b, r ≠ .ok (some (.send b))) : sentWith flag r = none := by
  rcases r with e | (_ | (b | _ | _))
  · rfl
  · rfl
  · exact absurd rfl (h b)
  · rfl
  · rfl

/-- The answer sends neither a SYN nor a FIN. -/
structure Mute (r : Answer) : Prop where
  syn : sentWith SYN r = none
  fin : sentWith FIN r = none

theorem sentWith_makeHeader {flags flag : UInt8} :
    sentWith flag (sent (s.makeHeader flags)) =
      if flags &&& flag ≠ 0 then some s.sendNext else none := by
  rw [sentWith_sent rfl]
  exact if_congr decide_eq_true_iff rfl rfl

theorem mute_ack (s : TcpConnection) : Mute (sent (s.makeHeader ACK)) := by
  constructor
  · rw [sentWith_makeHeader, if_neg (by decide)]
  · rw [sentWith_makeHeader, if_neg (by decide)]

theorem Mute.isn_cons (h : Mute r) : isn ((a, r) :: t) = isn t := by
  rw [TcpConnection.isn_cons, h.syn, none_or]

theorem Mute.finSeq_cons (h : Mute r) : finSeq ((a, r) :: t) = finSeq t := by
  rw [TcpConnection.finSeq_cons, h.fin, none_or]

theorem isn_cons_close : isn ((a, sent (s.makeHeader (FIN ||| ACK))) :: t) = isn t := by
  rw [isn_cons, sentWith_makeHeader, if_neg (by decide), none_or]

theorem finSeq_cons_close :
    finSeq ((a, sent (s.makeHeader (FIN ||| ACK))) :: t) = some s.sendNext := by
  rw [finSeq_cons, sentWith_makeHeader, if_pos (by decide), some_or]

/-! ## The order of sequence numbers -/

theorem between_self (a c : UInt32) : Between a c c := le_rfl

theorem between_left (a c : UInt32) : Between a a c := by
  rw [Between, UInt32.sub_self]
  exact Nat.zero_le _

theorem Between.trans {a b b' c : UInt32} (h : Between a b c) (h' : Between b b' c) :
    Between a b' c := by
  rw [Between, UInt32.toNat_sub, UInt32.toNat_sub] at h h' ⊢
  have hb := b.toNat_lt
  omega

/-- One more number can be sent after the SYN. -/
theorem Between.add_one {a b : UInt32} (h : Between a b (a + 1)) : Between a b (a + 1 + 1) := by
  have hone : a + 1 - a = 1 := by rw [UInt32.add_comm, UInt32.add_sub_cancel]
  have htwo : a + 1 + 1 - a = 2 := by
    rw [UInt32.add_assoc, UInt32.add_comm, UInt32.add_sub_cancel]
    rfl
  rw [Between, hone] at h
  rw [Between, htwo]
  exact h.trans (by decide)

/-! ## The invariant -/

/-- The next number to send is that behind the SYN, and behind the FIN once it is sent. -/
def NextSent (t : List (Call × Answer)) (s : TcpConnection) : Prop :=
  match s.state with
  | .closed | .listen => True
  | .synSent | .synReceived | .established | .closeWait =>
    ∃ iss, isn t = some iss ∧ s.sendNext = iss + 1
  | .finWait1 | .finWait2 | .closing | .lastAck | .timeWait =>
    ∃ iss fin, isn t = some iss ∧ finSeq t = some fin ∧ s.sendNext = fin + 1

structure Numbered (t : List (Call × Answer)) (s : TcpConnection) : Prop where
  una : ∀ iss, isn t = some iss → Between iss s.sendUna s.sendNext
  next : NextSent t s

theorem NextSent.congr {t' : List (Call × Answer)} (h : NextSent t s) (hst : s'.state = s.state)
    (hnext : s'.sendNext = s.sendNext) (hisn : isn t' = isn t) (hfin : finSeq t' = finSeq t) :
    NextSent t' s' := by
  unfold NextSent at h ⊢
  rwa [hst, hnext, hisn, hfin]

/-- Where neither a SYN nor a FIN is sent, it is enough that an acknowledgement that is taken is of
    what was sent. -/
theorem Numbered.mute (h : Numbered t s) (hr : Mute r) (hnext : s'.sendNext = s.sendNext)
    (huna : Between s.sendUna s'.sendUna s.sendNext) (hsent : NextSent t s → NextSent t s') :
    Numbered ((a, r) :: t) s' := by
  constructor
  · intro iss hiss
    rw [hr.isn_cons] at hiss
    rw [hnext]
    exact (h.una iss hiss).trans huna
  · exact (hsent h.next).congr rfl rfl hr.isn_cons hr.finSeq_cons

/-- After a SYN is sent, none of its numbers is acknowledged. -/
theorem numbered_of_syn (ho : h.dataOffset = 5) (hsyn : h.flags &&& SYN ≠ 0)
    (hst : s'.state = .synSent ∨ s'.state = .synReceived) (huna : s'.sendUna = h.seqNum)
    (hnext : s'.sendNext = h.seqNum + 1) : Numbered ((a, sent h) :: t) s' := by
  have hisn : isn ((a, sent h) :: t) = some h.seqNum := by
    have hhas : h.has SYN := decide_eq_true hsyn
    rw [isn_cons, sentWith_sent ho, if_pos hhas, some_or]
  constructor
  · intro iss hiss
    rw [hisn] at hiss
    cases hiss
    rw [huna]
    exact between_left _ _
  · unfold NextSent
    rcases hst with hst | hst <;> rw [hst] <;> exact ⟨_, hisn, hnext⟩

/-- A FIN is sent after the SYN. -/
theorem Numbered.close (h : Numbered t s)
    (hst : s.state = .established ∧ s'.state = .finWait1 ∨
      s.state = .closeWait ∧ s'.state = .lastAck)
    (huna : s'.sendUna = s.sendUna) (hnext : s'.sendNext = s.sendNext + 1) :
    Numbered ((a, sent (s.makeHeader (FIN ||| ACK))) :: t) s' := by
  obtain ⟨iss, hiss, hsent⟩ : ∃ iss, isn t = some iss ∧ s.sendNext = iss + 1 := by
    have hs := h.next
    unfold NextSent at hs
    rcases hst with ⟨hst, -⟩ | ⟨hst, -⟩ <;> rwa [hst] at hs
  constructor
  · intro iss' hiss'
    rw [isn_cons_close, hiss] at hiss'
    cases hiss'
    have hb := h.una iss hiss
    rw [hsent] at hb
    rw [huna, hnext, hsent]
    exact hb.add_one
  · unfold NextSent
    have hall : ∃ iss fin, isn ((a, sent (s.makeHeader (FIN ||| ACK))) :: t) = some iss ∧
        finSeq ((a, sent (s.makeHeader (FIN ||| ACK))) :: t) = some fin ∧
        s'.sendNext = fin + 1 :=
      ⟨iss, s.sendNext, isn_cons_close.trans hiss, finSeq_cons_close, hnext⟩
    rcases hst with ⟨-, hst⟩ | ⟨-, hst⟩ <;> rwa [hst]

theorem sendNext_noteAck (h : TcpHeader) : (s.noteAck h).sendNext = s.sendNext := by
  rw [noteAck]
  split <;> rfl

/-- An acknowledgement of what was sent is noted. -/
theorem between_noteAck (hack : h.has ACK → Between s.sendUna h.ackNum s.sendNext) :
    Between s.sendUna (s.noteAck h).sendUna s.sendNext := by
  rw [noteAck]
  split
  · next h => exact hack h
  · exact between_left _ _

theorem Numbered.step (hn : Numbered t s) (hacks : Acks s a) (hs : s.step a = some (r, s')) :
    Numbered ((a, r) :: t) s' := by
  have hm := moved_of_step hs
  have hkept := between_left s.sendUna s.sendNext
  cases hm with
  | stay hne => exact hn.mute ⟨sentWith_of_ne hne, sentWith_of_ne hne⟩ rfl hkept fun h => h
  | listen hst => exact hn.mute ⟨rfl, rfl⟩ rfl hkept fun _ => trivial
  | connect hst =>
    have hsyn : SYN &&& SYN ≠ 0 := by decide
    exact numbered_of_syn rfl hsyn (.inl rfl) rfl rfl
  | close hst => exact hn.close (.inl ⟨hst, rfl⟩) rfl rfl
  | closeWait hst => exact hn.close (.inr ⟨hst, rfl⟩) rfl rfl
  | syn hst _ =>
    have hsyn : (SYN ||| ACK) &&& SYN ≠ 0 := by decide
    exact numbered_of_syn rfl hsyn (.inr rfl) rfl rfl
  | synAck hst hsyn hack =>
    have hnum := (hacks hack).1 hst hsyn
    refine hn.mute (mute_ack _) rfl ?_ fun h => ?_
    · rw [hnum]
      exact between_self _ _
    · rwa [NextSent, hst] at h
  | synReceived hst hack =>
    have hnum := (hacks hack).2.1 (.inl hst)
    refine hn.mute ⟨rfl, rfl⟩ rfl ?_ fun h => ?_
    · rw [hnum]
      exact between_self _ _
    · rwa [NextSent, hst] at h
  | reset hst hrst => exact hn.mute ⟨rfl, rfl⟩ rfl hkept fun _ => trivial
  | data hst hrst hlen =>
    refine hn.mute (mute_ack _) (sendNext_noteAck _) ?_ fun h => ?_
    · exact between_noteAck fun hack => (hacks hack).2.2 (.inl ⟨hst, hrst⟩)
    · exact h.congr (state_noteAck _) (sendNext_noteAck _) rfl rfl
  | fin hst hrst hfin =>
    refine hn.mute (mute_ack _) (sendNext_noteAck _) ?_ fun h => ?_
    · exact between_noteAck fun hack => (hacks hack).2.2 (.inl ⟨hst, hrst⟩)
    · rw [NextSent, hst] at h
      rw [NextSent, sendNext_noteAck]
      exact h
  | ack hst hrst =>
    refine hn.mute ⟨rfl, rfl⟩ (sendNext_noteAck _) ?_ fun h => ?_
    · exact between_noteAck fun hack => (hacks hack).2.2 (.inl ⟨hst, hrst⟩)
    · exact h.congr (state_noteAck _) (sendNext_noteAck _) rfl rfl
  | finAck hst hack hfin | bothFin hst hfin | finWait2 hst hfin =>
    refine hn.mute (mute_ack _) rfl hkept fun h => ?_
    rwa [NextSent, hst] at h
  | finWait1 hst hack =>
    have hnum := (hacks hack).2.1 (.inr (.inl hst))
    refine hn.mute ⟨rfl, rfl⟩ rfl ?_ fun h => ?_
    · rw [hnum]
      exact between_self _ _
    · rwa [NextSent, hst] at h
  | closing hst hack =>
    refine hn.mute ⟨rfl, rfl⟩ rfl ((hacks hack).2.2 (.inr hst)) fun h => ?_
    rwa [NextSent, hst] at h
  | lastAck hst hack => exact hn.mute ⟨rfl, rfl⟩ rfl hkept fun _ => trivial

theorem numbered_of_reaches {port : UInt16} (h : ReachesBy Acks step (new port) t s) :
    Numbered t s := by
  induction h with
  | nil => exact ⟨fun _ => nofun, trivial⟩
  | cons _ hok hs ih => exact ih.step hok hs

/-- The call is a segment that acknowledges the number. -/
def IsAckOf (seq : Option UInt32) (a : Call) : Prop :=
  ∃ h payload n, a = .onSegment h payload ∧ h.has ACK ∧ seq = some n ∧ h.ackNum = n + 1

/-- The machine is established by an acknowledgement of the SYN. -/
theorem Numbered.isAckOf_syn (hn : Numbered t s) (hacks : Acks s a) (hs : s.step a = some (r, s'))
    (hst : s.state = .synSent ∨ s.state = .synReceived) (hst' : s'.state = .established) :
    IsAckOf (isn t) a := by
  obtain ⟨iss, hiss, hnext⟩ : ∃ iss, isn t = some iss ∧ s.sendNext = iss + 1 := by
    have hs := hn.next
    unfold NextSent at hs
    rcases hst with hst | hst <;> rwa [hst] at hs
  have hm := moved_of_step hs
  cases hm with
  | synAck hsent hsyn hack =>
    exact ⟨_, _, iss, rfl, hack, hiss, ((hacks hack).1 hsent hsyn).trans hnext⟩
  | synReceived hrecv hack =>
    exact ⟨_, _, iss, rfl, hack, hiss, ((hacks hack).2.1 (.inl hrecv)).trans hnext⟩
  | stay _ => rcases hst with hst | hst <;> rw [hst] at hst' <;> cases hst'
  | data hest _ _ | ack hest _ => rcases hst with hst | hst <;> rw [hst] at hest <;> cases hest
  | listen _ | connect _ | close _ | closeWait _ | syn _ _ | reset _ _ | fin _ _ _ | finAck _ _ _
  | finWait1 _ _ | bothFin _ _ | finWait2 _ _ | closing _ _ | lastAck _ _ => cases hst'

/-- The machine moves on from the states that wait for an acknowledgement of the FIN with one. -/
theorem Numbered.isAckOf_fin (hn : Numbered t s) (hacks : Acks s a) (hs : s.step a = some (r, s'))
    (hst : s.state = .finWait1 ∧ (s'.state = .finWait2 ∨ s'.state = .timeWait) ∨
      s.state = .lastAck ∧ s'.state = .closed) : IsAckOf (finSeq t) a := by
  obtain ⟨-, fin, -, hfin, hnext⟩ : ∃ iss fin, isn t = some iss ∧ finSeq t = some fin ∧
      s.sendNext = fin + 1 := by
    have hs := hn.next
    unfold NextSent at hs
    rcases hst with ⟨hst, -⟩ | ⟨hst, -⟩ <;> rwa [hst] at hs
  have hm := moved_of_step hs
  -- The moves that are not listed start in other states, or do not end in these ones.
  cases hm with
  | finAck hwait hack _ | finWait1 hwait hack =>
    exact ⟨_, _, fin, rfl, hack, hfin, ((hacks hack).2.1 (.inr (.inl hwait))).trans hnext⟩
  | lastAck hwait hack =>
    exact ⟨_, _, fin, rfl, hack, hfin, ((hacks hack).2.1 (.inr (.inr hwait))).trans hnext⟩
  | _ => grind

/-- In a run whose acknowledgements are of what was sent, once the SYN is sent the oldest number
    that is not acknowledged is between the initial one and the next one. The machine is established
    by an acknowledgement of the SYN, and moves on with one of the FIN where it waits for it. -/
theorem sendUna_spec {port : UInt16} (h : ReachesBy Acks step (new port) t s) :
    (∀ iss, isn t = some iss → Between iss s.sendUna s.sendNext) ∧
    (s.state ≠ .closed → s.state ≠ .listen → (isn t).isSome) ∧
    ∀ a r s', Acks s a → s.step a = some (r, s') →
      (s.state = .synReceived → s'.state = .established → IsAckOf (isn t) a) ∧
      (s.state = .synSent → s'.state = .established → IsAckOf (isn t) a) ∧
      (s.state = .finWait1 → s'.state = .finWait2 ∨ s'.state = .timeWait →
        IsAckOf (finSeq t) a) ∧
      (s.state = .lastAck → s'.state = .closed → IsAckOf (finSeq t) a) := by
  have hn := numbered_of_reaches h
  refine ⟨hn.una, ?_, ?_⟩
  · intro hclosed hlisten
    have hnext := hn.next
    unfold NextSent at hnext
    cases hst : s.state with
    | closed => exact absurd hst hclosed
    | listen => exact absurd hst hlisten
    | synSent | synReceived | established | closeWait =>
      rw [hst] at hnext
      obtain ⟨iss, hiss, -⟩ := hnext
      rw [hiss, isSome_some]
    | finWait1 | finWait2 | closing | lastAck | timeWait =>
      rw [hst] at hnext
      obtain ⟨iss, -, hiss, -⟩ := hnext
      rw [hiss, isSome_some]
  · intro a r s' hacks hs
    refine ⟨?_, ?_, ?_, ?_⟩
    · intro hst hst'
      exact hn.isAckOf_syn hacks hs (.inr hst) hst'
    · intro hst hst'
      exact hn.isAckOf_syn hacks hs (.inl hst) hst'
    · intro hst hst'
      exact hn.isAckOf_fin hacks hs (.inl ⟨hst, hst'⟩)
    · intro hst hst'
      exact hn.isAckOf_fin hacks hs (.inr ⟨hst, hst'⟩)

/-- The connection is opened by the other side, is closed on both sides, and the FIN of this side
    is acknowledged. -/
theorem sendUna_spec_of_fin :
    ∃ t s r s', ReachesBy Acks step (new 80) t s ∧ s.state = .finWait1 ∧
      Acks s (.onSegment ⟨5000, 80, 101, 2002, 5, ACK, 9, 0, 0⟩ []) ∧
      s.step (.onSegment ⟨5000, 80, 101, 2002, 5, ACK, 9, 0, 0⟩ []) = some (r, s') ∧
      s'.state = .finWait2 ∧ (∀ iss, isn t = some iss → Between iss s.sendUna s.sendNext) ∧
      IsAckOf (finSeq t) (.onSegment ⟨5000, 80, 101, 2002, 5, ACK, 9, 0, 0⟩ []) := by
  have hr := ReachesBy.of_exec Acks step (new 80)
    [.listen, .onSegment ⟨5000, 80, 100, 0, 5, SYN, 9, 0, 0⟩ [],
      .onSegment ⟨5000, 80, 101, 2001, 5, ACK, 9, 0, 0⟩ [], .close] (by decide +kernel)
  have hspec := sendUna_spec hr
  refine ⟨_, _, _, _, hr, by decide +kernel, by decide +kernel, rfl, by decide +kernel, hspec.1, ?_⟩
  exact (hspec.2.2 (.onSegment ⟨5000, 80, 101, 2002, 5, ACK, 9, 0, 0⟩ []) _ _ (by decide +kernel)
    rfl).2.2.1 (by decide +kernel) (.inl (by decide +kernel))

/-- A segment that acknowledges a number that was never sent establishes the connection. -/
theorem established_by_ack_of_unsent :
    ∃ t s r s', Reaches step (new 80) t s ∧ s.state = .synReceived ∧ isn t = some 2000 ∧
      s.step (.onSegment ⟨5000, 80, 101, 7, 5, ACK, 9, 0, 0⟩ []) = some (r, s') ∧
      s'.state = .established ∧ ¬Between 2000 s'.sendUna s'.sendNext :=
  ⟨_, _, _, _, .of_exec step (new 80)
      [.listen, .onSegment ⟨5000, 80, 100, 0, 5, SYN, 9, 0, 0⟩ []] (by decide +kernel),
    by decide +kernel, by decide +kernel, rfl, by decide +kernel, by decide +kernel⟩

end TcpConnection

end SmallAIOS.Net.Tcp
