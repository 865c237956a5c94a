import SmallAIOS.Mgmt.Audit.Ring

/-!
# Runs of the audit ring

An append is the change of the rate limiter, and then the writes of `Ring.writes`
one after the other, up to one that is refused (`append_eq`). The records taken by
the flusher are committed, and no others (`each_writeRecord`).

So the lines of the log are one hash chain that ends in the chain head, in every
run and whatever the flusher refuses (`run_lines_linked`).
-/

namespace SmallAIOS.Mgmt.Audit.Ring

open Lib List Fallible Nat JsonValue Flusher AuditRecord LoggingFlusher

variable {F : Type} (recs : List AuditRecord)

/-! ## Writes -/

/-- The ring with another flusher. -/
def withSink (ring : Ring F) (flusher : F) (dirty : Bool) : Ring F := { ring with flusher, dirty }

/-- The ring with another limiter. -/
def withDenial (ring : Ring F) (denial : DenialRateLimiter) : Ring F := { ring with denial }

/-- The records are committed whatever the flusher is. -/
theorem committed_withSink (ring : Ring F) (f : F) (d : Bool) :
    (ring.withSink f d).committed recs = (ring.committed recs).withSink f d :=
  foldl_hom (withSink · f d) fun _ _ => rfl

theorem committed_withDenial (ring : Ring F) (l : DenialRateLimiter) :
    (ring.withDenial l).committed recs = (ring.committed recs).withDenial l :=
  foldl_hom (withDenial · l) fun _ _ => rfl

section WriteRecord

variable [Flusher F] {record : AuditRecord} {ring ring' : Ring F} {f : F} {e : FlusherError}

theorem writeRecord_of_not_fits (h : ¬ Fits record) :
    writeRecord record ring = (.error .overBudget, ring) :=
  bind_of_error (if_pos (not_le.1 h))

theorem writeRecord_of_error (h : Fits record)
    (hw : writeLine ring.flusher record.toJsonl record.action.isAuthEvent = (.error e, f)) :
    writeRecord record ring = (.error (.flush e), ring.withSink f ring.dirty) := by
  refine bind_of_error ((if_neg (not_lt.2 h)).trans ?_)
  rw [hw]
  rfl

theorem writeRecord_of_ok (h : Fits record)
    (hw : writeLine ring.flusher record.toJsonl record.action.isAuthEvent = (.ok (), f)) :
    writeRecord record ring =
      (.ok ⟨⟩, (ring.commitInMemory record).withSink f (!record.action.isAuthEvent)) := by
  have hflush : flushRecord record ring =
      (.ok ⟨⟩, ring.withSink f (!record.action.isAuthEvent)) := by
    refine (if_neg (not_lt.2 h)).trans ?_
    rw [hw]
    rfl
  exact bind_of_ok hflush

/-- A record that is written is committed. -/
theorem eq_of_writeRecord {u : PUnit} (h : writeRecord record ring = (.ok u, ring')) :
    ∃ f d, ring' = (ring.commitInMemory record).withSink f d := by
  by_cases hfits : Fits record
  · rcases hw : writeLine ring.flusher record.toJsonl record.action.isAuthEvent
      with ⟨_ | _, f⟩
    · rw [writeRecord_of_error hfits hw] at h
      cases h
    · rw [writeRecord_of_ok hfits hw] at h
      exact ⟨_, _, (Prod.mk.inj h).2.symm⟩
  · rw [writeRecord_of_not_fits hfits] at h
    cases h

end WriteRecord

/-- The records taken by the flusher are written and committed, and no others; there is an error if
    these are not all. -/
theorem each_writeRecord [LoggingFlusher F] (ring : Ring F) :
    ∃ res f d, each writeRecord recs ring =
      (res, (ring.committed (taken ring.flusher recs)).withSink f d) ∧
    lines f = lines ring.flusher ++
      (taken ring.flusher recs).map toJsonl ∧
    ((∃ u, res = .ok u) ↔ taken ring.flusher recs = recs) := by
  induction recs generalizing ring with
  | nil => exact ⟨.ok ⟨⟩, ring.flusher, ring.dirty, rfl, (append_nil _).symm, by simp [taken]⟩
  | cons r rs ih =>
    by_cases hfits : Fits r
    swap
    · rw [taken_of_not_fits ring.flusher rs hfits]
      exact ⟨_, ring.flusher, ring.dirty, bind_of_error (writeRecord_of_not_fits hfits),
        (append_nil _).symm, by simp⟩
    rcases hw : writeLine ring.flusher r.toJsonl r.action.isAuthEvent with ⟨e | _, f⟩
    · have hlines := lines_of_error (congrArg Prod.fst hw)
      rw [hw] at hlines
      rw [taken, hw, ite_self]
      exact ⟨_, f, ring.dirty, bind_of_error (writeRecord_of_error hfits hw),
        hlines.trans (append_nil _).symm, by simp⟩
    · have ht := taken_of_ok rs hfits hw
      have hlines := lines_of_ok (congrArg Prod.fst hw)
      rw [hw] at hlines
      obtain ⟨res, f', d, heq, hl, hok⟩ :=
        ih ((ring.commitInMemory r).withSink f (!r.action.isAuthEvent))
      refine ⟨res, f', d, ?_, ?_, ?_⟩
      · rw [ht]
        refine (bind_of_ok (writeRecord_of_ok hfits hw)).trans (heq.trans ?_)
        rw [committed_withSink]
        rfl
      · rw [hl, ht, map_cons, ← singleton_append, ← append_assoc, ← hlines]
        rfl
      · rw [hok, ht, cons.injEq]
        exact (and_iff_right rfl).symm

/-! ## Appends -/

section Append

variable (sha3 : List UInt8 → ChainHead) (record : AuditRecord) (ring : Ring F)

theorem maybeEmitCheckpoint_eq [Flusher F] :
    maybeEmitCheckpoint sha3 ring = each writeRecord (ring.dueCheckpoint sha3).toList ring := by
  rw [maybeEmitCheckpoint, bind_of_ok (x := get) rfl]
  cases ring.dueCheckpoint sha3 with
  | none => rfl
  | some cp => exact (each_singleton writeRecord cp ring).symm

/-- An append that bypasses the limiter writes the record and a checkpoint that is then due. -/
theorem appendUncoalesced_eq [Flusher F] :
    appendUncoalesced sha3 record ring = (do
      each writeRecord (ring.writesOf sha3 record)
      pure (ring.chained sha3 record).hash : Fallible (Ring F) RingError ChainHead) ring := by
  set r := ring.chained sha3 record with hr
  change (do
    writeRecord r
    maybeEmitCheckpoint sha3
    pure r.hash : Fallible (Ring F) RingError ChainHead) ring = _
  rcases hw : writeRecord r ring with ⟨e | u, ring'⟩
  · rw [bind_of_error hw]
    have : each writeRecord (ring.writesOf sha3 record) ring = (.error e, ring') :=
      bind_of_error hw
    rw [bind_of_error this]
  · rw [bind_of_ok hw]
    obtain ⟨f, d, rfl⟩ := eq_of_writeRecord hw
    have : each writeRecord (ring.writesOf sha3 record) ring =
        each writeRecord ((ring.commitInMemory r).dueCheckpoint sha3).toList
          ((ring.commitInMemory r).withSink f d) := bind_of_ok hw
    rw [bind_congr_left this]
    refine bind_congr_left ?_
    -- The checkpoint that is due does not depend on the flusher.
    exact maybeEmitCheckpoint_eq sha3 ((ring.commitInMemory r).withSink f d)

/-- After a record and its checkpoint are written, another one goes on from there. -/
theorem append_two_eq [LoggingFlusher F] (r1 r2 : AuditRecord) (ring : Ring F) :
    ∃ head, (do
      let _ ← appendUncoalesced sha3 r1
      appendUncoalesced sha3 r2 : Fallible (Ring F) RingError ChainHead) ring = (do
        each writeRecord (ring.writesOf sha3 r1 ++
          (ring.committed (ring.writesOf sha3 r1)).writesOf sha3 r2)
        pure head : Fallible (Ring F) RingError ChainHead) ring := by
  set first := ring.writesOf sha3 r1 with hfirst
  refine ⟨((ring.committed first).chained sha3 r2).hash, ?_⟩
  rw [each_append_bind]
  have happ := appendUncoalesced_eq sha3 r1 ring
  obtain ⟨res, f, d, heach, -, hok⟩ := each_writeRecord first ring
  cases res with
  | error e =>
    rw [bind_of_error heach] at happ
    rw [bind_of_error happ, bind_of_error heach]
  | ok u =>
    rw [hok.1 ⟨u, rfl⟩] at heach
    rw [bind_of_ok heach] at happ
    rw [bind_of_ok happ, bind_of_ok heach, appendUncoalesced_eq]
    rfl

theorem writesOf_withDenial (l : DenialRateLimiter) :
    (ring.withDenial l).writesOf sha3 record = ring.writesOf sha3 record := rfl

variable {record}

/-- A denial changes the limiter first. -/
theorem append_of_deny [Flusher F] {syscall : String}
    (h : record.action = .deny syscall) (ring : Ring F) :
    append sha3 record ring = (match ring.decision record with
      | .allow => appendUncoalesced sha3 record
      | .drop => pure ring.chainHead
      | .flushBurst n => do
        let _ ← appendUncoalesced sha3 (burstRecord record n)
        appendUncoalesced sha3 record : Fallible (Ring F) RingError ChainHead)
        (ring.withDenial (ring.observed record)) := by
  have hdec : (ring.denial.observe record.who record.tsNs.toNat).1 = ring.decision record :=
    DenialRateLimiter.observe_fst _
  rw [append, observed, ← hdec]
  simp only [appendDenial, h]
  rfl

/-- Other records do not go through the limiter. -/
theorem append_of_ne_deny [Flusher F]
    (h : ∀ syscall, record.action ≠ .deny syscall) (ring : Ring F) :
    append sha3 record ring = appendUncoalesced sha3 record ring ∧
      ring.writes sha3 record = ring.writesOf sha3 record ∧ ring.observed record = ring.denial := by
  rw [append, appendDenial, writes, observed]
  cases ha : record.action <;> first | exact ⟨rfl, rfl, rfl⟩ | exact absurd ha (h _)

/-- An append changes the limiter and then makes its writes, up to one that is refused. -/
theorem append_eq [LoggingFlusher F] (record : AuditRecord) (ring : Ring F) :
    ∃ head, append sha3 record ring = (do
      each writeRecord (ring.writes sha3 record)
      pure head : Fallible (Ring F) RingError ChainHead)
        (ring.withDenial (ring.observed record)) := by
  by_cases hdeny : ∃ syscall, record.action = .deny syscall
  · obtain ⟨syscall, hdeny⟩ := hdeny
    rw [append_of_deny sha3 hdeny, writes, hdeny]
    cases ring.decision record with
    | allow => exact ⟨_, appendUncoalesced_eq sha3 record _⟩
    | drop => exact ⟨_, rfl⟩
    | flushBurst count =>
      obtain ⟨head, h⟩ := append_two_eq sha3 (burstRecord record count) record
        (ring.withDenial (ring.observed record))
      rw [committed_withDenial, writesOf_withDenial, writesOf_withDenial] at h
      dsimp only
      exact ⟨head, h⟩
  · obtain ⟨happ, hwrites, hobs⟩ :=
      append_of_ne_deny sha3 (fun syscall h => hdeny ⟨syscall, h⟩) ring
    rw [happ, hwrites, hobs]
    exact ⟨_, appendUncoalesced_eq sha3 record ring⟩

end Append

/-! ## The hash chain -/

section Linked

variable {sha3 : List UInt8 → ChainHead} {ring : Ring F}

section

variable (ring)

theorem chainHead_committed :
    (ring.committed recs).chainHead = (chain sha3).head ring.chainHead recs := by
  induction recs generalizing ring with
  | nil => rfl
  | cons r rs ih => exact ih (ring.commitInMemory r)

theorem recordCount_committed :
    (ring.committed recs).recordCount.toNat =
      min (ring.recordCount.toNat + recs.length) (2 ^ 64 - 1) := by
  induction recs generalizing ring with
  | nil =>
    have := ring.recordCount.toNat_lt
    exact (min_eq_left (le_sub_one_of_lt this)).symm
  | cons r rs ih =>
    have hr : (ring.commitInMemory r).recordCount.toNat =
        min (ring.recordCount.toNat + 1) (2 ^ 64 - 1) := toNat_saturatingSucc _
    refine (ih (ring.commitInMemory r)).trans ?_
    rw [length_cons]
    omega

theorem linked_dueCheckpoint :
    (chain sha3).Linked ring.chainHead (ring.dueCheckpoint sha3).toList := by
  rw [dueCheckpoint]
  split_ifs
  · trivial
  · dsimp only
    split_ifs
    · split
      · trivial
      · split_ifs
        · trivial
        · exact ⟨rfl, rfl, trivial⟩
    · trivial

end

theorem linked_writesOf (record : AuditRecord) (ring : Ring F) :
    (chain sha3).Linked ring.chainHead (ring.writesOf sha3 record) :=
  ⟨rfl, rfl, linked_dueCheckpoint (ring.commitInMemory _)⟩

theorem linked_writes (record : AuditRecord) (ring : Ring F) :
    (chain sha3).Linked ring.chainHead (ring.writes sha3 record) := by
  rw [writes]
  split
  · split
    · exact linked_writesOf record ring
    · trivial
    · refine HashChain.linked_append.2 ⟨linked_writesOf _ ring, ?_⟩
      rw [← chainHead_committed]
      exact linked_writesOf record _
  · exact linked_writesOf record ring

end Linked

/-! ## A login -/

/-- A login by `root`. -/
def login : AuditRecord := rootRecord .authLogin emptyChainHead []

theorem login_ne_deny (syscall : String) : login.action ≠ .deny syscall := nofun

/-- The line of a login fits the budget, whatever its hashes are. -/
theorem fits_login (prev hash : ChainHead) :
    Fits { login with prevHash := prev, hash := hash } := by
  let fixed : List (String × JsonValue) := [("ts", .uint 1), ("who", .string "root@tty"),
    ("surface", .string "tty"), ("action", .string "auth_login"), ("before", .null),
    ("after", .null), ("code", .int 0)]
  have hfixed : (fixed.map fieldLength).sum ≤ 280 := by decide +kernel
  have hprev := fieldLength_fingerprintHex_le "prev_hash" prev
  have hhash := fieldLength_fingerprintHex_le "hash" hash
  have hsum := sum_fieldLength_foldl_insert_le (fixed ++
    [("prev_hash", .string (fingerprintHex prev)), ("hash", .string (fingerprintHex hash))]) .empty
  simp only [map_append, sum_append_nat, map_cons, map_nil, sum_cons, sum_nil] at hsum
  set r : AuditRecord := { login with prevHash := prev, hash := hash } with hr
  have hlen : (utf8 (renderFields 0 r.jsonFields.entries)).length ≤ _ :=
    (length_renderFields_le _ 0).trans hsum
  have hempty : ((SortedMap.empty : SortedMap String JsonValue).entries.map fieldLength).sum = 0 :=
    rfl
  have hkeys : (utf8 (quote "prev_hash")).length + (utf8 (quote "hash")).length ≤ 40 := by
    decide +kernel
  have hopen : (utf8 "\x7b").length = 1 := by decide
  have hclose : (utf8 "\x7d").length = 1 := by decide
  rw [Fits, toJsonl, render, utf8_append, utf8_append, length_append,
    length_append, auditRingRecordBudgetBytes]
  omega

/-! ## Runs -/

/-- A call on the ring. -/
inductive Op
  | append (record : AuditRecord)
  | appendDenialEvent (tsNs : UInt64) (who : String) (surface : AuditSurface) (syscall : String)
  | tick
  | flushNow
  | setCheckpointInterval (interval : UInt32)

/-- What a call returns. -/
inductive Ret
  | appended (res : Except RingError ChainHead)
  | flushed (res : Except RingError PUnit)
  | done

section Runs

variable (sha3 : List UInt8 → ChainHead)

def step [Flusher F] (ring : Ring F) : Op → Ret × Ring F
  | .append record => (append sha3 record ring).map .appended id
  | .appendDenialEvent tsNs who surface syscall =>
    (appendDenialEvent sha3 tsNs who surface syscall ring).map .appended id
  | .tick => (tick ring).map .flushed id
  | .flushNow => (flushNow ring).map .flushed id
  | .setCheckpointInterval interval => (.done, ring.setCheckpointInterval interval)

variable [LoggingFlusher F]

/-- The lines written. -/
def lines (ring : Ring F) : List String := LoggingFlusher.lines ring.flusher

/-- The second ring is the first one after the records were written to the log. -/
structure Extends (ring ring' : Ring F) (recs : List AuditRecord) : Prop where
  lines_eq : ring'.lines = ring.lines ++ recs.map toJsonl
  linked : (chain sha3).Linked ring.chainHead recs
  chainHead_eq : ring'.chainHead = (chain sha3).head ring.chainHead recs
  recordCount_eq : ring'.recordCount.toNat = min (ring.recordCount.toNat + recs.length) (2 ^ 64 - 1)

/-- Some records were written to the log, or none. -/
def Grows (ring ring' : Ring F) : Prop := ∃ recs, Extends sha3 ring ring' recs

variable {sha3} {ring ring' : Ring F}

/-- Nothing is written if the lines and the chain are the same. -/
theorem Grows.of_eq (hlines : ring'.lines = ring.lines) (hhead : ring'.chainHead = ring.chainHead)
    (hcount : ring'.recordCount = ring.recordCount) : Grows sha3 ring ring' := by
  refine ⟨[], ⟨hlines.trans (append_nil _).symm, trivial, hhead, ?_⟩⟩
  have := ring.recordCount.toNat_lt
  rw [hcount, length_nil]
  omega

instance : Std.Refl (Grows sha3 : Ring F → Ring F → Prop) := ⟨fun _ => .of_eq rfl rfl rfl⟩

instance : IsTrans (Ring F) (Grows sha3) where
  trans := by
    rintro a b c ⟨rs, h⟩ ⟨rs', h'⟩
    refine ⟨rs ++ rs', ⟨?_, ?_, ?_, ?_⟩⟩
    · rw [h'.lines_eq, h.lines_eq, map_append, append_assoc]
    · exact HashChain.linked_append.2 ⟨h.linked, h.chainHead_eq ▸ h'.linked⟩
    · rw [h'.chainHead_eq, h.chainHead_eq, HashChain.head_append]
    · rw [h'.recordCount_eq, h.recordCount_eq, length_append]
      omega

/-- Records that are linked extend the log as far as they are taken. -/
theorem grows_each {recs : List AuditRecord} (h : (chain sha3).Linked ring.chainHead recs) :
    Grows sha3 ring (each writeRecord recs ring).2 := by
  obtain ⟨res, f, d, heq, hlines, -⟩ := each_writeRecord recs ring
  obtain ⟨rest, hrest⟩ := taken_isPrefix ring.flusher recs
  rw [← hrest] at h
  rw [heq]
  exact ⟨taken ring.flusher recs, ⟨hlines, (HashChain.linked_append.1 h).1,
    chainHead_committed _ ring, recordCount_committed _ ring⟩⟩

theorem grows_append (record : AuditRecord) (ring : Ring F) :
    Grows sha3 ring (append sha3 record ring).2 := by
  obtain ⟨head, happ⟩ := append_eq sha3 record ring
  have hgrows : Grows sha3 (ring.withDenial (ring.observed record))
      (each writeRecord (ring.writes sha3 record)
        (ring.withDenial (ring.observed record))).2 := grows_each (linked_writes record ring)
  have hdenial : Grows sha3 ring (ring.withDenial (ring.observed record)) := .of_eq rfl rfl rfl
  rw [happ, snd_bind_pure]
  exact IsTrans.trans _ _ _ hdenial hgrows

theorem grows_flushNow (ring : Ring F) : Grows sha3 ring (flushNow ring).2 := by
  have hlines : LoggingFlusher.lines (flush ring.flusher).2 = ring.lines :=
    lines_flush
  rcases hf : flush ring.flusher with ⟨e | u, f⟩ <;> rw [hf] at hlines <;>
    rw [flushNow, hf] <;> exact .of_eq hlines rfl rfl

theorem grows_step (ring : Ring F) (op : Op) : Grows sha3 ring (step sha3 ring op).2 := by
  cases op with
  | append record => exact grows_append record ring
  | appendDenialEvent tsNs who surface syscall =>
    rw [step, Prod.map_snd]
    exact grows_append _ ring
  | tick =>
    rw [step, tick]
    split_ifs
    · exact grows_flushNow ring
    · exact refl ring
  | flushNow => exact grows_flushNow ring
  | setCheckpointInterval interval => exact .of_eq rfl rfl rfl

/-- A login without a checkpoint writes one line. -/
theorem step_login {ring : Ring MemoryFlusher} (sha3 : List UInt8 → ChainHead)
    (herr : ring.flusher.pendingError = none) (hint : ring.checkpointInterval = 0) :
    (step sha3 ring (.append login)).2.flusher.pendingError = none ∧
      (step sha3 ring (.append login)).2.checkpointInterval = 0 ∧
      (step sha3 ring (.append login)).2.lines.length = ring.lines.length + 1 := by
  have hdue : (ring.commitInMemory (ring.chained sha3 login)).dueCheckpoint sha3 = none :=
    if_pos hint
  have happ : (step sha3 ring (.append login)).2 =
      (writeRecord (ring.chained sha3 login) ring).2 := by
    rw [step, Prod.map_snd, id, (append_of_ne_deny sha3 login_ne_deny ring).1, appendUncoalesced_eq,
      snd_bind_pure, writesOf, hdue, Option.toList_none, each_singleton]
  -- The flusher has no error to report, and takes the line.
  have hwrite (line : String) (immediate : Bool) : writeLine ring.flusher line immediate =
      (.ok (), ⟨ring.flusher.lines ++ [line], none⟩) := by
    change MemoryFlusher.writeLine _ _ _ = _
    rw [MemoryFlusher.writeLine, herr]
  have hrec : writeRecord (ring.chained sha3 login) ring = _ :=
    writeRecord_of_ok (fits_login _ _) (hwrite _ _)
  rw [happ, hrec]
  exact ⟨rfl, hint, length_append⟩

theorem run_logins (sha3 : List UInt8 → ChainHead) (n : ℕ) (ring : Ring MemoryFlusher)
    (herr : ring.flusher.pendingError = none) (hint : ring.checkpointInterval = 0) :
    (run (step sha3) ring (.replicate n (.append login))).2.lines.length =
      ring.lines.length + n := by
  induction n generalizing ring with
  | zero => rfl
  | succ n ih =>
    obtain ⟨herr', hint', hlen⟩ := step_login sha3 herr hint
    rw [replicate_succ, run]
    refine (ih _ herr' hint').trans ?_
    omega

/-- In every run, whatever the flusher refuses, the lines written are those of one hash chain from
    the empty chain head to the one of the ring, and the count is their number up to the size of a
    word. -/
theorem run_lines_linked (flusher : F) (signer : CheckpointSigner) (interval : UInt32)
    (ops : List Op) : ∃ recs : List AuditRecord,
      (run (step sha3) (new flusher signer interval) ops).2.lines =
        LoggingFlusher.lines flusher ++ recs.map toJsonl ∧
      (chain sha3).Linked emptyChainHead recs ∧
      (run (step sha3) (new flusher signer interval) ops).2.chainHead =
        (chain sha3).head emptyChainHead recs ∧
      (run (step sha3) (new flusher signer interval) ops).2.recordCount.toNat =
        min recs.length (2 ^ 64 - 1) := by
  obtain ⟨recs, h⟩ := run_within grows_step (new flusher signer interval) ops
  refine ⟨recs, h.lines_eq, h.linked, h.chainHead_eq, h.recordCount_eq.trans ?_⟩
  rw [show (new flusher signer interval).recordCount.toNat = 0 from rfl, zero_add]

/-- With a line more than the count can hold, it is not their number. -/
theorem run_count_saturates : ¬ ∃ sha3 : List UInt8 → ChainHead, ∀ ops : List Op,
    (run (step sha3) (new MemoryFlusher.new noopSigner 0) ops).2.recordCount.toNat =
      (run (step sha3) (new MemoryFlusher.new noopSigner 0) ops).2.lines.length := by
  rintro ⟨sha3, h⟩
  have hlen := run_logins sha3 (2 ^ 64) (new MemoryFlusher.new noopSigner 0) rfl rfl
  have hcount := h (.replicate (2 ^ 64) (.append login))
  have := UInt64.toNat_lt
    (run (step sha3) (new MemoryFlusher.new noopSigner 0) (.replicate (2 ^ 64) (.append login))
      ).2.recordCount
  omega

end Runs

end SmallAIOS.Mgmt.Audit.Ring
