import SmallAIOS.Net.Quic.Stream

/-!
# The final size of a stream

The last frame of a stream says where the stream ends. Nothing is checked against the size that is
known from it: another last frame or a reset sets another size, and data beyond the size is kept
and delivered.

`Consistent` says that the other side does not contradict itself: frames end within the size that
is known, and the size is not below what came. In the runs where all calls are consistent, the
size is fixed by the first frame that ends the stream (`finalSize_fixed`).
-/

namespace SmallAIOS.Net.Quic.Stream

open Lib List Option

variable {s s' : Stream} {t : List (Call × Except NetError Answer)}

/-- An accepted frame ends within the size that is known, and at it if it is a last one; a last
    one ends after all that came; and a reset has the size that is known. -/
def Consistent (s : Stream) : Call → Prop
  | .recvData offset data fin => s.Accepts offset data →
    (s.recvFin → s.finalSize.all fun size =>
      offset + data.length ≤ size ∧ (fin → offset + data.length = size)) ∧
    (fin → s.totalRecv ≤ offset + data.length)
  | .recvReset finalSize => s.recvFin → s.finalSize = some finalSize
  | _ => True

instance : ∀ a, Decidable (Consistent s a)
  | .recvData _ _ _ | .recvReset _ => inferInstanceAs (Decidable (_ → _))
  | .write _ | .finish | .onDataSent _ _ | .onDataAcked | .read _ | .resetSend
  | .updateMaxSendData _ | .updateMaxRecvData _ => .isTrue trivial

/-- What came, and so what is in chunks and what is delivered, is within the size that is known. -/
structure Sized (t : List (Call × Except NetError Answer)) (s : Stream) : Prop where
  chunks : ∀ c ∈ s.recvBuf.entries, c.1 + c.2.length ≤ s.totalRecv
  offset_le : s.recvOffset ≤ s.totalRecv
  length : (delivered t).length = s.recvOffset
  fixed : s.recvFin → ∃ size, s.finalSize = some size ∧ s.totalRecv ≤ size

variable {data : List UInt8} {offset : ℕ}

theorem Sized.keep {fin : Bool} (h : Sized t s) (hacc : s.Accepts offset data)
    (hok : Consistent s (.recvData offset data fin)) :
    Sized ((.recvData offset data fin, .ok .done) :: t)
      (s.keep offset (offset + data.length) data fin) := by
  have htotal : s.totalRecv ≤ (s.keep offset (offset + data.length) data fin).totalRecv := by
    simp only [Stream.keep]
    split
    · exact le_rfl
    · exact le_max_left _ _
  -- What came is now within any size that the old chunks and the new one are within.
  have hmax : ∀ {size}, s.totalRecv ≤ size → offset + data.length ≤ size →
      (s.keep offset (offset + data.length) data fin).totalRecv ≤ size := fun h1 h2 => by
    simp only [Stream.keep]
    split
    · exact h1
    · exact max_le h1 h2
  refine ⟨fun c hc => ?_, h.offset_le.trans htotal, ?_, fun hfin => ?_⟩
  · by_cases hd : data = []
    · exact (h.chunks c (by simpa [Stream.keep, hd] using hc)).trans htotal
    · have hc : c ∈ (s.recvBuf.insert offset data).entries := by simpa [Stream.keep, hd] using hc
      rcases SortedMap.mem_insert.1 hc with rfl | ⟨-, hc⟩
      · simp [Stream.keep, hd]
      · exact (h.chunks c hc).trans htotal
  · rw [delivered, length_append, h.length]
    rfl
  · cases fin with
    | true => exact ⟨_, rfl, hmax ((hok hacc).2 rfl) le_rfl⟩
    | false =>
      have hfin : s.recvFin := by simpa [Stream.keep] using hfin
      obtain ⟨size, hsize, hle⟩ := h.fixed hfin
      have hend := (hok hacc).1 hfin
      rw [hsize, all_some, decide_eq_true_iff] at hend
      exact ⟨size, hsize, hmax hle hend.1⟩

theorem Sized.consume {bufLen : ℕ} (h : Sized t s) :
    Sized ((.read bufLen, .ok (.data (readLoop bufLen s.recvBuf.entries s.recvOffset).1)) :: t)
      (s.consume (readLoop bufLen s.recvBuf.entries s.recvOffset).2) := by
  have hread := readLoop_spec bufLen s.recvBuf.entries s.recvOffset
  refine ⟨fun c hc => h.chunks c (mem_filter.1 hc).1, ?_, ?_, h.fixed⟩
  · rcases hread.bounded with heq | ⟨c, hc, hle⟩
    · exact heq.trans_le h.offset_le
    · exact hle.trans (h.chunks c hc)
  · rw [delivered, length_append, h.length]
    exact hread.offset.symm

variable {r : Except NetError Answer} {a : Call}

theorem Sized.idle (h : Sized t s) (hi : Idle s a r s') : Sized ((a, r) :: t) s' := by
  refine ⟨?_, ?_, ?_, ?_⟩
  · rw [hi.recvBuf, hi.totalRecv]
    exact h.chunks
  · rw [hi.recvOffset, hi.totalRecv]
    exact h.offset_le
  · rw [delivered, hi.output_eq, append_nil, hi.recvOffset, h.length]
  · rw [hi.recvFin, hi.finalSize, hi.totalRecv]
    exact h.fixed

theorem Sized.recvReset {finalSize : ℕ} (h : Sized t s)
    (hok : Consistent s (.recvReset finalSize)) :
    Sized ((.recvReset finalSize, .ok .done) :: t) (s.recvReset finalSize) := by
  refine ⟨h.chunks, h.offset_le, ?_, fun hfin => ?_⟩
  · rw [delivered, length_append, h.length]
    rfl
  · obtain ⟨size, hsize, hle⟩ := h.fixed hfin
    obtain rfl := some.inj (hsize.symm.trans (hok hfin))
    exact ⟨size, rfl, hle⟩

theorem Sized.step (h : Sized t s) (hok : Consistent s a)
    (hs : s.step a = some (r, s')) : Sized ((a, r) :: t) s' := by
  rcases step_cases hs with ⟨offset, data, fin, rfl, rfl, hacc, rfl⟩ |
    ⟨bufLen, rfl, -, rfl, rfl⟩ | ⟨finalSize, rfl, rfl, rfl⟩ | hi
  · exact h.keep hacc hok
  · exact h.consume
  · exact h.recvReset hok
  · exact h.idle hi

variable {id maxSend maxRecv : ℕ} {streamType : StreamType} {isLocal : Bool}

theorem sized_of_reachesBy
    (h : ReachesBy Consistent step (new id streamType isLocal maxSend maxRecv) t s) :
    Sized t s := by
  induction h with
  | nil => exact ⟨fun c hc => absurd hc not_mem_nil, le_rfl, rfl, nofun⟩
  | cons _ hok hs ih => exact ih.step hok hs

/-- A consistent call does not change the size that is known, and keeps frames within it. -/
theorem finalSize_step {size : ℕ} (hok : Consistent s a)
    (hs : s.step a = some (r, s')) (hfin : s.recvFin) (hsize : s.finalSize = some size) :
    s'.recvFin ∧ s'.finalSize = some size ∧
      ∀ offset data fin, (a, r) = (.recvData offset data fin, .ok .done) →
        offset + data.length ≤ size ∧ (fin → offset + data.length = size) := by
  rcases step_cases hs with ⟨offset, data, fin, rfl, rfl, hacc, rfl⟩ |
    ⟨bufLen, rfl, -, rfl, rfl⟩ | ⟨finalSize, rfl, rfl, rfl⟩ | hi
  · have hend := (hok hacc).1 hfin
    rw [hsize, all_some, decide_eq_true_iff] at hend
    refine ⟨by simp [Stream.keep, hfin], ?_, ?_⟩
    · cases fin with
      | true => exact congrArg some (hend.2 rfl)
      | false => exact hsize
    · rintro _ _ _ heq
      cases heq
      exact hend
  · exact ⟨hfin, hsize, nofun⟩
  · exact ⟨hfin, (hok hfin).symm.trans hsize, nofun⟩
  · refine ⟨hi.recvFin ▸ hfin, hi.finalSize ▸ hsize, fun _ _ _ heq => ?_⟩
    exact absurd (Prod.mk.inj heq).2 (hi.not_kept _ _ _ (Prod.mk.inj heq).1)

/-- The size that a last frame gives is known from then on, and the frames accepted later are
    within it. -/
theorem finalSize_kept {t₁ t₂ : List (Call × Except NetError Answer)}
    (h : ReachesBy Consistent step (new id streamType isLocal maxSend maxRecv)
      (t₂ ++ (.recvData offset data true, .ok .done) :: t₁) s) :
    s.recvFin ∧ s.finalSize = some (offset + data.length) ∧
      ∀ offset' data' (fin : Bool), (.recvData offset' data' fin, .ok .done) ∈ t₂ →
        offset' + data'.length ≤ offset + data.length ∧
          (fin → offset' + data'.length = offset + data.length) := by
  induction t₂ generalizing s with
  | nil =>
    cases h with
    | cons _ _ hs =>
      rcases step_cases hs with ⟨_, _, _, heq, -, -, rfl⟩ | ⟨_, heq, -⟩ | ⟨_, heq, -⟩ | hi
      · cases heq
        exact ⟨Bool.or_true _, rfl, fun _ _ _ h => absurd h not_mem_nil⟩
      · cases heq
      · cases heq
      · exact absurd rfl (hi.not_kept _ _ _ rfl)
  | cons c t₂ ih =>
    cases h with
    | cons h hok hs =>
      obtain ⟨hfin, hsize, hlater⟩ := ih h
      obtain ⟨hfin', hsize', hlast⟩ := finalSize_step hok hs hfin hsize
      refine ⟨hfin', hsize', fun offset' data' fin hmem => ?_⟩
      rcases mem_cons.1 hmem with heq | hmem
      · exact hlast _ _ _ heq.symm
      · exact hlater _ _ _ hmem

/-- In the runs whose calls are consistent, once a last frame is accepted the final size stays
    where it ends, the frames accepted later end within it, the last ones at it, and no byte is
    delivered from there on. -/
theorem finalSize_fixed {t₁ t₂ : List (Call × Except NetError Answer)} {offset : ℕ}
    {data : List UInt8}
    (h : ReachesBy Consistent step (new id streamType isLocal maxSend maxRecv)
      (t₂ ++ (.recvData offset data true, .ok .done) :: t₁) s) :
    s.finalSize = some (offset + data.length) ∧
      (∀ offset' data' (fin : Bool), (.recvData offset' data' fin, .ok .done) ∈ t₂ →
        offset' + data'.length ≤ offset + data.length ∧
          (fin → offset' + data'.length = offset + data.length)) ∧
      (delivered (t₂ ++ (.recvData offset data true, .ok .done) :: t₁)).length ≤
        offset + data.length := by
  obtain ⟨hfin, hsize, hlater⟩ := finalSize_kept h
  have hsized := sized_of_reachesBy h
  obtain ⟨size, hsize', hle⟩ := hsized.fixed hfin
  obtain rfl := some.inj (hsize'.symm.trans hsize)
  exact ⟨hsize, hlater, hsized.length.trans_le (hsized.offset_le.trans hle)⟩

/-- The last frame comes first, then the data before it, and the last frame again. -/
theorem finalSize_fixed_of_repeated :
    ∃ t₂ t₁ s, ReachesBy Consistent step (new 0 .bidirectional false 99 99)
        (t₂ ++ (.recvData 2 [3] true, .ok .done) :: t₁) s ∧
      s.finalSize = some 3 ∧
      (delivered (t₂ ++ (.recvData 2 [3] true, .ok .done) :: t₁)).length ≤ 3 := by
  have hr : ReachesBy Consistent step (new 0 .bidirectional false 99 99)
      ([(.read 9, .ok (.data [1, 2, 3])), (.recvData 2 [3] true, .ok .done),
        (.recvData 0 [1, 2] false, .ok .done)] ++ (.recvData 2 [3] true, .ok .done) :: []) _ :=
    .of_exec Consistent step (new 0 .bidirectional false 99 99)
      [.recvData 2 [3] true, .recvData 0 [1, 2] false, .recvData 2 [3] true, .read 9]
      (by decide +kernel)
  have h := finalSize_fixed hr
  exact ⟨_, _, _, hr, h.1, h.2.2⟩

/-- After a last frame that ends at 1, one that ends at 3 is accepted: the final size is 3 then, and
    the bytes up to it are delivered. -/
theorem finalSize_moved :
    ∃ t s, Reaches step (new 0 .bidirectional false 99 99)
        ([(.read 9, .ok (.data [1, 2, 3])), (.recvData 1 [2, 3] true, .ok .done)] ++
          (.recvData 0 [1] true, .ok .done) :: t) s ∧ s.finalSize = some 3 :=
  ⟨[], _, .of_exec step _ [.recvData 0 [1] true, .recvData 1 [2, 3] true, .read 9]
    (by decide +kernel), by decide +kernel⟩

end SmallAIOS.Net.Quic.Stream
