import SmallAIOS.Net.Quic.Stream

/-!
# Reassembly

The frames of a stream come in any order, twice, and cut in other ways when they are sent again.
What is delivered is always the start of the stream.

A chunk is kept by its offset, and a frame that starts where a chunk does takes its place, also
if it is shorter: then bytes that were received are not there any more. `NoShrink` says that this
does not happen. In the runs where it does not, reading until nothing comes delivers all the bytes
up to the first one that was not received (`reassembly`).
-/

namespace SmallAIOS.Net.Quic.Stream

open Lib List SortedMap

variable {bytes : List UInt8} {s s' : Stream} {t : List (Call × Except NetError Answer)}

/-- The frame is what the stream `bytes` has at its offset, and the last one ends where the stream
    does. The stream is not reset. -/
def Truthful (bytes : List UInt8) : Call → Prop
  | .recvData offset data fin =>
    data <+: bytes.drop offset ∧ (fin → offset + data.length = bytes.length)
  | .recvReset _ => False
  | _ => True

/-- The frame does not take the place of a longer chunk. -/
def NoShrink (s : Stream) : Call → Prop
  | .recvData offset data _ =>
    s.Accepts offset data → data ≠ [] → (s.recvBuf.get? offset).all (·.length ≤ data.length)
  | _ => True

instance : ∀ a, Decidable (Truthful bytes a)
  | .recvData _ _ _ => inferInstanceAs (Decidable (_ ∧ _))
  | .recvReset _ => .isFalse fun h => h
  | .write _ | .finish | .onDataSent _ _ | .onDataAcked | .read _ | .resetSend
  | .updateMaxSendData _ | .updateMaxRecvData _ => .isTrue trivial

instance : ∀ a, Decidable (NoShrink s a)
  | .recvData _ _ _ => inferInstanceAs (Decidable (_ → _ → _))
  | .write _ | .finish | .onDataSent _ _ | .onDataAcked | .read _ | .resetSend | .recvReset _
  | .updateMaxSendData _ | .updateMaxRecvData _ => .isTrue trivial

/-- The byte is in a frame that was accepted. -/
def Received (t : List (Call × Except NetError Answer)) (i : ℕ) : Prop :=
  ∃ offset data fin, (.recvData offset data fin, .ok .done) ∈ t ∧
    offset ≤ i ∧ i < offset + data.length

/-- The byte is in a chunk. -/
def Buffered (s : Stream) (i : ℕ) : Prop :=
  ∃ c ∈ s.recvBuf.entries, c.1 ≤ i ∧ i < c.1 + c.2.length

/-- The chunks are slices of the stream, the bytes before the offset are delivered, and a byte that
    was received is delivered or in a chunk, if all of them were kept. -/
structure Assembled (kept : Prop) (bytes : List UInt8) (t : List (Call × Except NetError Answer))
    (s : Stream) : Prop where
  slices : ∀ c ∈ s.recvBuf.entries, c.2 <+: bytes.drop c.1
  delivered : delivered t = bytes.take s.recvOffset
  offset_le : s.recvOffset ≤ bytes.length
  received : kept → ∀ i, Received t i → i < bytes.length ∧ (i < s.recvOffset ∨ s.Buffered i)
  finalSize : s.recvFin → s.finalSize = some bytes.length
  /-- A stream that receives nothing any more has delivered everything, or never received. -/
  state : s.canRecv ∨ (s.recvOffset = bytes.length) ∨ ∀ i, ¬Received t i

theorem received_cons {c : Call × Except NetError Answer} {i : ℕ} (h : Received (c :: t) i) :
    Received t i ∨ ∃ offset data fin, c = (.recvData offset data fin, .ok .done) ∧
      offset ≤ i ∧ i < offset + data.length := by
  obtain ⟨offset, data, fin, hmem, hi⟩ := h
  rcases mem_cons.1 hmem with rfl | hmem
  · exact .inr ⟨offset, data, fin, rfl, hi⟩
  · exact .inl ⟨offset, data, fin, hmem, hi⟩

variable {kept : Prop} {data : List UInt8} {offset : ℕ}

theorem length_le_of_isPrefix_drop (h : data <+: bytes.drop offset) (hne : data ≠ []) :
    offset + data.length ≤ bytes.length := by
  have hle := h.length_le
  have hpos := length_pos_of_ne_nil hne
  rw [length_drop] at hle
  omega

/-- A byte in a chunk stays in one when a frame is kept that does not take the place of a longer
    one. -/
theorem Buffered.keep {offset e i : ℕ} {fin : Bool} (h : s.Buffered i)
    (hns : data ≠ [] → (s.recvBuf.get? offset).all (·.length ≤ data.length)) :
    (s.keep offset e data fin).Buffered i := by
  obtain ⟨⟨key, chunk⟩, hc, hi⟩ := h
  by_cases hd : data = []
  · refine ⟨(key, chunk), ?_, hi⟩
    simpa [Stream.keep, hd] using hc
  · have hbuf : (s.keep offset e data fin).recvBuf = s.recvBuf.insert offset data := by
      simp [Stream.keep, hd]
    rw [Buffered, hbuf]
    by_cases hkey : key = offset
    · subst hkey
      have hle := hns hd
      rw [get?_eq_some.2 hc] at hle
      exact ⟨(key, data), mem_insert.2 (.inl rfl), hi.1, hi.2.trans_le (by simpa using hle)⟩
    · exact ⟨(key, chunk), mem_insert.2 (.inr ⟨hkey, hc⟩), hi⟩

theorem Assembled.keep {fin : Bool} (h : Assembled kept bytes t s)
    (htrue : Truthful bytes (.recvData offset data fin))
    (hns : kept → data ≠ [] → (s.recvBuf.get? offset).all (·.length ≤ data.length))
    (hcan : s.canRecv) : Assembled kept bytes ((.recvData offset data fin, .ok .done) :: t)
      (s.keep offset (offset + data.length) data fin) where
  slices c hc := by
    by_cases hd : data = []
    · exact h.slices c (by simpa [Stream.keep, hd] using hc)
    · have hc : c ∈ (s.recvBuf.insert offset data).entries := by simpa [Stream.keep, hd] using hc
      rcases mem_insert.1 hc with rfl | ⟨-, hc⟩
      · exact htrue.1
      · exact h.slices c hc
  delivered := (append_nil _).trans h.delivered
  offset_le := h.offset_le
  received hkept i hi := by
    rcases received_cons hi with hi | ⟨_, _, _, heq, hi⟩
    · obtain ⟨hlt, hi⟩ := h.received hkept i hi
      exact ⟨hlt, hi.imp_right fun hb => hb.keep (hns hkept)⟩
    · cases heq
      have hd : data ≠ [] := by
        rintro rfl
        simp at hi
        omega
      refine ⟨hi.2.trans_le (length_le_of_isPrefix_drop htrue.1 hd), .inr ⟨(offset, data), ?_, hi⟩⟩
      simpa [Stream.keep, hd] using mem_insert.2 (.inl rfl)
  finalSize hfin := by
    cases fin with
    | true => exact congrArg some (htrue.2 rfl)
    | false => exact h.finalSize (by simpa [Stream.keep] using hfin)
  state := by
    refine .inl ?_
    cases fin with
    | true =>
      cases hs : s.recvState with
      | none => simp [canRecv, hs] at hcan
      | some state => simp [canRecv, Stream.keep, hs]
    | false => exact hcan

theorem Assembled.consume {bufLen : ℕ} (h : Assembled kept bytes t s) (hcan : s.canRecv) :
    Assembled kept bytes
      ((.read bufLen, .ok (.data (readLoop bufLen s.recvBuf.entries s.recvOffset).1)) :: t)
      (s.consume (readLoop bufLen s.recvBuf.entries s.recvOffset).2) := by
  have hread := readLoop_spec bufLen s.recvBuf.entries s.recvOffset
  generalize (readLoop bufLen s.recvBuf.entries s.recvOffset).1 = out at hread ⊢
  generalize (readLoop bufLen s.recvBuf.entries s.recvOffset).2 = off at hread ⊢
  obtain rfl := hread.offset
  have hslice := hread.slice bytes h.slices
  have hrec : ∀ {i}, Received ((.read bufLen, .ok (.data out)) :: t) i → Received t i := fun hi =>
    (received_cons hi).resolve_right fun ⟨_, _, _, heq, _⟩ => nomatch heq
  refine ⟨fun c hc => h.slices c (mem_filter.1 hc).1, ?_, ?_, fun hkept i hi => ?_, h.finalSize, ?_⟩
  · rw [Stream.delivered, h.delivered]
    change _ ++ out = bytes.take (s.recvOffset + out.length)
    rw [take_add, ← prefix_iff_eq_take.1 hslice]
  · have hle := hslice.length_le
    have hoff := h.offset_le
    rw [length_drop] at hle
    change s.recvOffset + out.length ≤ bytes.length
    omega
  · obtain ⟨hlt, hi⟩ := h.received hkept i (hrec hi)
    refine ⟨hlt, ?_⟩
    -- A chunk that is dropped is read to its end.
    rcases hi with hi | ⟨c, hc, hi⟩
    · exact .inl (hi.trans_le (Nat.le_add_right _ _))
    · by_cases hend : s.recvOffset + out.length < c.1 + c.2.length
      · exact .inr ⟨c, mem_filter.2 ⟨hc, decide_eq_true hend⟩, hi⟩
      · exact .inl (hi.2.trans_le (not_lt.1 hend))
  · by_cases hfin : s.recvFin && some (s.recvOffset + out.length) = s.finalSize
    · refine .inr (.inl ?_)
      rw [Bool.and_eq_true, decide_eq_true_iff] at hfin
      exact Option.some.inj (hfin.2.trans (h.finalSize hfin.1))
    · refine .inl ?_
      rwa [Stream.consume, if_neg hfin]

variable {r : Except NetError Answer} {a : Call}

theorem Assembled.idle (h : Assembled kept bytes t s) (hi : Idle s a r s') :
    Assembled kept bytes ((a, r) :: t) s' := by
  have hrec : ∀ {i}, Received ((a, r) :: t) i → Received t i := fun hr =>
    (received_cons hr).resolve_right fun ⟨_, _, _, heq, _⟩ =>
      hi.not_kept _ _ _ (Prod.mk.inj heq).1 (Prod.mk.inj heq).2
  refine ⟨?_, ?_, ?_, fun hkept i hr => ?_, ?_, ?_⟩
  · rw [hi.recvBuf]
    exact h.slices
  · rw [Stream.delivered, hi.output_eq, append_nil, hi.recvOffset, h.delivered]
  · rw [hi.recvOffset]
    exact h.offset_le
  · rw [Buffered, hi.recvBuf, hi.recvOffset]
    exact h.received hkept i (hrec hr)
  · rw [hi.recvFin, hi.finalSize]
    exact h.finalSize
  · rw [canRecv, hi.recvState, hi.recvOffset]
    exact h.state.imp_right (Or.imp_right fun hn i hr => hn i (hrec hr))

theorem Assembled.step (h : Assembled kept bytes t s)
    (hok : Truthful bytes a ∧ (kept → NoShrink s a)) (hs : s.step a = some (r, s')) :
    Assembled kept bytes ((a, r) :: t) s' := by
  rcases step_cases hs with ⟨offset, data, fin, rfl, rfl, hacc, rfl⟩ |
    ⟨bufLen, rfl, hcan, rfl, rfl⟩ | ⟨_, rfl, -, -⟩ | hi
  · exact h.keep hok.1 (fun hkept => hok.2 hkept hacc) hacc.1
  · exact h.consume hcan
  · exact hok.1.elim
  · exact h.idle hi

theorem assembled_of_reachesBy {id maxSend maxRecv : ℕ} {streamType : StreamType} {isLocal : Bool}
    (h : ReachesBy (fun s a => Truthful bytes a ∧ (kept → NoShrink s a)) step
      (new id streamType isLocal maxSend maxRecv) t s) : Assembled kept bytes t s := by
  induction h with
  | nil =>
    refine ⟨fun c hc => absurd hc not_mem_nil, rfl, Nat.zero_le _, fun _ => ?_, nofun,
      .inr (.inr ?_)⟩
    all_goals
      rintro i ⟨_, _, _, hmem, -⟩
      exact absurd hmem not_mem_nil
  | cons _ hok hs ih => exact ih.step hok hs

/-- In the runs whose frames are slices of a stream, what is delivered is the start of the stream.
    If none of them takes the place of a longer chunk, the bytes are delivered up to the first one
    that was not received when a read into a buffer with room gives nothing. -/
theorem reassembly {id maxSend maxRecv : ℕ} {streamType : StreamType} {isLocal : Bool}
    (h : ReachesBy (fun _ a => Truthful bytes a) step
      (new id streamType isLocal maxSend maxRecv) t s) :
    delivered t <+: bytes ∧
    (ReachesBy (fun s a => Truthful bytes a ∧ NoShrink s a) step
        (new id streamType isLocal maxSend maxRecv) t s →
      ∀ bufLen r t' n, t = (.read bufLen, r) :: t' → 0 < bufLen →
        output r = [] → (∀ i < n, Received t' i) → n ≤ (delivered t).length) := by
  have hstart := assembled_of_reachesBy (h.mono fun _ _ ha => ⟨ha, fun h : False => h.elim⟩)
  refine ⟨hstart.delivered ▸ take_prefix _ _, fun h bufLen r t' n ht hroom hout hrec => ?_⟩
  subst ht
  cases h with
  | @cons _ s1 _ _ _ h hok hs =>
    have h := assembled_of_reachesBy (h.mono fun _ _ ha => ⟨ha.1, fun _ : True => ha.2⟩)
    have hlen : (delivered ((.read bufLen, r) :: t')).length = s1.recvOffset := by
      rw [delivered, hout, append_nil, h.delivered, length_take_of_le h.offset_le]
    rw [hlen]
    by_contra hlt
    have hr := hrec _ (not_le.1 hlt)
    obtain ⟨hmax, hb⟩ := h.received trivial _ hr
    obtain ⟨c, hc, hi⟩ := hb.resolve_left (lt_irrefl _)
    rcases step_cases hs with ⟨_, _, _, heq, -⟩ | ⟨_, heq, hcan, rfl, rfl⟩ | ⟨_, heq, -⟩ | hi
    · cases heq
    · cases heq
      -- The read stopped before the byte, which is in a chunk.
      have hread := readLoop_spec bufLen s1.recvBuf.entries s1.recvOffset
      have hoff := hread.offset
      rw [show (readLoop bufLen s1.recvBuf.entries s1.recvOffset).1 = [] from hout] at hread hoff
      have hstop := hread.stop hroom s1.recvBuf.sorted c hc
      rw [length_nil] at hoff
      omega
    · cases heq
    · rcases h.state with hcan | hfull | hnone
      · exact hi.not_read bufLen rfl hcan
      · omega
      · exact hnone _ hr

/-- The frames of five bytes, the last one first and another one cut anew. -/
theorem reassembly_of_recut :
    ∃ t s, ReachesBy (fun s a => Truthful [1, 2, 3, 4, 5] a ∧ NoShrink s a) step
        (new 0 .bidirectional false 99 99) t s ∧
      delivered t <+: [1, 2, 3, 4, 5] ∧ 5 ≤ (delivered t).length := by
  have hr := ReachesBy.of_exec (fun s a => Truthful [1, 2, 3, 4, 5] a ∧ NoShrink s a) step
    (new 0 .bidirectional false 99 99) [.recvData 3 [4, 5] true, .recvData 0 [1, 2] false, .read 9,
      .recvData 1 [2, 3, 4] false, .read 9, .read 9] (by decide +kernel)
  obtain ⟨hstart, hall⟩ := reassembly (hr.mono fun _ _ ha => ha.1)
  refine ⟨_, _, hr, hstart, hall hr 9 _ _ 5 rfl (by decide) rfl ?_⟩
  intro i hi
  rcases Nat.lt_or_ge i 2 with h2 | h2
  · exact ⟨0, [1, 2], false, by decide +kernel, Nat.zero_le _, h2⟩
  · rcases Nat.lt_or_ge i 4 with h4 | h4
    · exact ⟨1, [2, 3, 4], false, by decide +kernel, by omega, h4⟩
    · exact ⟨3, [4, 5], true, by decide +kernel, by omega, hi⟩

/-- Of the bytes that were received, three are lost when the first two of them come again. -/
theorem bytes_lost_by_shorter_frame :
    ∃ t s, ReachesBy (fun _ a => Truthful [1, 2, 3, 4, 5] a) step
        (new 0 .bidirectional false 99 99) ((.read 9, .ok (.data [])) :: t) s ∧
      (∀ i < 5, Received t i) ∧ delivered t = [1, 2] := by
  refine ⟨_, _, ReachesBy.of_exec (fun _ a => Truthful [1, 2, 3, 4, 5] a) step
    (new 0 .bidirectional false 99 99) [.recvData 0 [1, 2, 3, 4, 5] false,
      .recvData 0 [1, 2] false, .read 9, .read 9] (by decide +kernel), fun i hi => ?_, rfl⟩
  exact ⟨0, [1, 2, 3, 4, 5], false, by decide +kernel, Nat.zero_le _, hi⟩

end SmallAIOS.Net.Quic.Stream
