import SmallAIOS.Mgmt.Audit.RingRun

/-!
# Appends that fail

An append may make several writes: a burst record, the record itself, a checkpoint
after each. It changes the rate limiter before the first of them. A failure ends
it, and takes nothing back.

It leaves the ring unchanged exactly if all its writes are taken, or the first one
is refused and no pending denials are given up (`run_append_unchanged_iff`). In
particular, a checkpoint whose line does not fit the budget, as is the case with a
signature of 3309 bytes, makes an append fail whose record is in the log
(`append_login_not_unchanged`).
-/

namespace SmallAIOS.Mgmt.Audit.Ring

open Lib List DenialRateLimiter

variable {F : Type} {ring ring' : Ring F} {record : AuditRecord}

/-- Nothing to be seen of the ring has changed: its chain, the lines written, and
    the denials pending for each user. -/
structure Unchanged [LoggingFlusher F] (ring ring' : Ring F) : Prop where
  chainHead : ring'.chainHead = ring.chainHead
  recordCount : ring'.recordCount = ring.recordCount
  records : ring'.records = ring.records
  lines : ring'.lines = ring.lines
  pending : ∀ user, ring'.denial.pending user = ring.denial.pending user

/-- A denial gives up no pending denials: those of its user are not about to be
    reported, and a user evicted for it has none. -/
def KeepsPending (ring : Ring F) (record : AuditRecord) : Prop :=
  match record.action with
  | .deny _ => (∀ count, ring.decision record ≠ .flushBurst count) ∧
      ∀ user, ring.denial.evicted record.who = some user → ring.denial.pending user = 0
  | _ => True

/-- The flusher takes all the records of an append, or none, and then no pending
    denials are given up. -/
def Atomic [Flusher F] (sha3 : List UInt8 → ChainHead) (ring : Ring F) (record : AuditRecord) :
    Prop :=
  taken ring.flusher (ring.writes sha3 record) = ring.writes sha3 record ∨
    taken ring.flusher (ring.writes sha3 record) = [] ∧ ring.KeepsPending record

/-- What a denial does to the pending ones, unless it is swallowed. -/
theorem pending_observed_deny_iff {syscall : String} (hdeny : record.action = .deny syscall)
    (h : ring.decision record ≠ .drop) :
    (∀ user, (ring.observed record).pending user = ring.denial.pending user) ↔
      ring.KeepsPending record := by
  simp only [observed, KeepsPending, hdeny, pending_observe]
  constructor
  · intro hp
    refine ⟨fun count hc => ?_, fun user hu => ?_⟩
    · obtain ⟨hpos, hzero⟩ := swallowed_of_flushBurst hc
      have hwho := hp record.who
      rw [if_pos rfl, ← userState_swallowed _ _ record.tsNs.toNat] at hwho
      omega
    · by_cases hwho : user = record.who
      · rw [hwho, pending, get?_of_evicted hu]
        rfl
      · have := hp user
        rw [if_neg hwho, if_pos hu] at this
        exact this.symm
  · rintro ⟨hburst, hevict⟩ user
    have hallow : ring.decision record = .allow := by
      cases hd : ring.decision record with
      | allow => rfl
      | drop => exact absurd hd h
      | flushBurst count => exact absurd hd (hburst count)
    split_ifs with hwho hu
    · rw [swallowed_of_allow hallow, userState_swallowed, hwho]
    · exact (hevict user hu).symm
    · rfl

variable {sha3 : List UInt8 → ChainHead}

/-- The limiter keeps what is pending if the append has something to write and
    gives up no pending denials. -/
theorem pending_observed_iff (h : ring.writes sha3 record ≠ []) :
    (∀ user, (ring.observed record).pending user = ring.denial.pending user) ↔
      ring.KeepsPending record := by
  by_cases hdeny : ∃ syscall, record.action = .deny syscall
  · obtain ⟨syscall, hdeny⟩ := hdeny
    refine pending_observed_deny_iff hdeny fun hdrop => h ?_
    rw [writes, hdeny, hdrop]
  · have hne : ∀ syscall, record.action ≠ .deny syscall := fun syscall h => hdeny ⟨syscall, h⟩
    rw [observed, KeepsPending]
    cases ha : record.action
    case deny syscall => exact absurd ha (hne _)
    all_goals exact iff_of_true (fun _ => rfl) trivial

/-- A checkpoint is due at the end of an interval, if the signer gives a signature. -/
theorem exists_dueCheckpoint {signature : List UInt8} (hi : ring.checkpointInterval ≠ 0)
    (hc : 0 < ring.recordCount ∧ ring.recordCount % ring.checkpointInterval.toUInt64 = 0)
    (hs : ring.signer ring.chainHead = .ok signature) (hne : ¬ signature.isEmpty) :
    ∃ cp, ring.dueCheckpoint sha3 = some cp ∧ cp.signature = signature := by
  rw [dueCheckpoint, if_neg hi]
  rw [if_pos hc, hs]
  exact ⟨_, if_neg hne, rfl⟩

variable [LoggingFlusher F] {sha3 : List UInt8 → ChainHead}

/-- An append that fails leaves the ring unchanged exactly if it is atomic: the
    records that were taken before the failure are in the log. -/
theorem append_unchanged_iff (ring : Ring F) (record : AuditRecord) :
    (∀ e ring', append sha3 record ring = (.error e, ring') → Unchanged ring ring') ↔
      Atomic sha3 ring record := by
  obtain ⟨head, happ⟩ := append_eq sha3 record ring
  obtain ⟨res, f, d, heach, hlines, hok⟩ :=
    each_writeRecord (ring.writes sha3 record) (ring.withDenial (ring.observed record))
  have hflusher : (ring.withDenial (ring.observed record)).flusher = ring.flusher := rfl
  rw [hflusher] at heach hlines hok
  rw [happ]
  cases res with
  | ok u =>
    rw [Fallible.bind_of_ok heach]
    exact iff_of_true nofun (.inl (hok.1 ⟨u, rfl⟩))
  | error e =>
    have hnot : taken ring.flusher (ring.writes sha3 record) ≠ ring.writes sha3 record :=
      fun h => nomatch (hok.2 h).choose_spec
    have hne : ring.writes sha3 record ≠ [] := by
      intro hnil
      exact hnot (by rw [hnil, taken])
    rw [Fallible.bind_of_error heach]
    constructor
    · intro h
      have hu := h e _ rfl
      have hnil : taken ring.flusher (ring.writes sha3 record) = [] :=
        map_eq_nil_iff.1 (append_right_eq_self.1 (hlines.symm.trans hu.lines))
      rw [hnil] at hu
      exact .inr ⟨hnil, (pending_observed_iff hne).1 hu.pending⟩
    · rintro (htaken | ⟨hnil, hkeeps⟩) e' ring' h
      · exact absurd htaken hnot
      · obtain rfl := (Prod.mk.inj h).2
        -- Nothing was committed, only the limiter and the flusher have changed.
        rw [hnil] at hlines ⊢
        exact ⟨rfl, rfl, rfl, hlines.trans (append_nil _), (pending_observed_iff hne).2 hkeeps⟩

/-- A signer with signatures of the length of ML-DSA-65. -/
def longSigner : CheckpointSigner := fun _ => .ok (.replicate 3309 0)

/-- In every state reached, an append that fails leaves the ring unchanged exactly if
    it is atomic. -/
theorem run_append_unchanged_iff (flusher : F) (signer : CheckpointSigner) (interval : UInt32)
    (ops : List Op) (record : AuditRecord) :
    (∀ e ring', append sha3 record (run (step sha3) (new flusher signer interval) ops).2 =
        (.error e, ring') →
      Unchanged (run (step sha3) (new flusher signer interval) ops).2 ring') ↔
    Atomic sha3 (run (step sha3) (new flusher signer interval) ops).2 record :=
  append_unchanged_iff _ record

/-- A login is in the log, and then the checkpoint after it is over budget. -/
theorem append_login_not_unchanged : ¬ ∃ sha3 : List UInt8 → ChainHead, ∀ e ring',
    append sha3 login (new MemoryFlusher.new longSigner 1) = (.error e, ring') →
      Unchanged (new MemoryFlusher.new longSigner 1) ring' := by
  rintro ⟨sha3, h⟩
  set ring := new MemoryFlusher.new longSigner 1 with hring
  set r := ring.chained sha3 login with hr
  obtain ⟨cp, hcp, hsig⟩ : ∃ cp, (ring.commitInMemory r).dueCheckpoint sha3 = some cp ∧
      cp.signature = .replicate 3309 0 :=
    exists_dueCheckpoint (by decide : (1 : UInt32) ≠ 0)
      (by decide : 0 < saturatingSucc 0 ∧ saturatingSucc 0 % (1 : UInt32).toUInt64 = 0) rfl nofun
  have hwrites : ring.writes sha3 login = [r, cp] := by
    rw [(append_of_ne_deny sha3 login_ne_deny ring).2.1, writesOf, hcp]
    rfl
  have hfits : Fits r := fits_login _ _
  have hw : Flusher.writeLine ring.flusher r.toJsonl r.action.isAuthEvent =
      (.ok (), ⟨[r.toJsonl], none⟩) := rfl
  have hover : ¬ Fits cp := by
    intro hcp
    have := cp.length_signature_le.trans hcp
    rw [hsig, length_replicate] at this
    exact absurd this (by decide)
  have htaken : taken ring.flusher [r, cp] = [r] := by
    rw [taken_of_ok [cp] hfits hw, taken_of_not_fits _ [] hover]
  have hatomic := (append_unchanged_iff ring login).1 h
  rw [Atomic, hwrites, htaken] at hatomic
  rcases hatomic with hall | ⟨hnone, -⟩
  · exact cons_ne_nil _ _ (cons.inj hall).2.symm
  · exact cons_ne_nil _ _ hnone

end SmallAIOS.Mgmt.Audit.Ring
