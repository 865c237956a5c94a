import SmallAIOS.Kernel.Auth.SessionArena
import SmallAIOS.Lib.Run
import SmallAIOS.Lib.Utf8

/-!
# Login rounds

A round of the login reads a name and a password and checks the password against the record of the
user. Failures are counted by their source, and a source is locked out for a minute after five of
them. A login clears the count (`loginRound`, with the check of a password as a predicate).

A round does not look at the lockout and the second factor of the record, clears the count before
there is a session, and at the end of time no source is locked. The rounds where this makes no
difference are `Round.Careful`. In the runs of such rounds a login is one of a user that may log in,
and in every minute without one, five rounds of a source at most fail to verify a password
(`logins_of_careful`).
-/

namespace SmallAIOS

/-! ## Records -/

namespace Shadow

inductive Role
  | root
  | operator
  | viewer
  deriving DecidableEq

/-- What a login reads of a record. A text is the list of its characters. -/
structure ShadowEntry where
  username : List Char
  phc : List Char
  role : Role
  flags : BitVec 32
  /-- Lockout deadline, or zero. -/
  lockoutUntilUnix : BitVec 64
  totpRequired : Bool

end Shadow

namespace ConsoleLogin

open Lib Auth Shadow List Option

/-! ## Lockouts -/

inductive LockoutSource
  | tty
  | zenohPeer (id : List Char)
  deriving DecidableEq

structure LockoutEntry where
  failures : ℕ
  lockedUntilUnix : ℕ
  deriving DecidableEq

def lockoutThreshold : ℕ := 5

def lockoutDurationSecs : ℕ := 60

/-- The counters of the sources, which are looked up in their order. -/
abbrev LockoutMap := List (LockoutSource × LockoutEntry)

namespace LockoutMap

variable (m : LockoutMap) (src : LockoutSource) (nowUnix : ℕ)

/-- The first entry of a source. -/
def entry : Option LockoutEntry := (m.find? (·.1 = src)).map Prod.snd

def isLocked : Bool := (m.entry src).any fun e => nowUnix < e.lockedUntilUnix

/-- `entry_mut`: change the entry of a source, which is added if there is none. -/
def modifyEntry (f : LockoutEntry → LockoutEntry) : LockoutMap → LockoutMap
  | [] => [(src, f ⟨0, 0⟩)]
  | (s, e) :: m => if s = src then (s, f e) :: m else (s, e) :: modifyEntry f m

/-- The failure is counted, and locks the source if it is not locked and has enough of them. -/
def recordFailure : LockoutMap :=
  modifyEntry src (fun e =>
    let failures := min (e.failures + 1) (2 ^ 32 - 1)
    if ¬nowUnix < e.lockedUntilUnix ∧ lockoutThreshold ≤ failures then
      ⟨failures, min (nowUnix + lockoutDurationSecs) (2 ^ 64 - 1)⟩
    else { e with failures }) m

def recordSuccess : LockoutMap := m.eraseP (·.1 = src)

end LockoutMap

/-! ## Rounds -/

inductive ReadError
  | aborted
  | eof
  | io
  deriving DecidableEq

inductive LoginOutcome
  | authenticated (sessionId : ℕ) (username : List Char) (role : Shadow.Role)
    (mustChangePassword : Bool)
  | lockedOut
  | failed
  | aborted
  | eof
  | sessionTableFull
  deriving DecidableEq

def ReadError.outcome : ReadError → LoginOutcome
  | aborted => .aborted
  | eof => .eof
  | io => .failed

/-- What a round is given: where and when it is, the session table, and the two lines that are
    read. -/
structure Round where
  source : LockoutSource
  nowUnix : ℕ
  table : SessionTable
  username : Except ReadError (List UInt8)
  password : Except ReadError (List UInt8)

/-- The bytes of the name of a user. -/
def nameBytes (u : ShadowEntry) : List UInt8 := utf8 (String.ofList u.username)

def toKernelRole : Shadow.Role → Auth.Role
  | .root => .root
  | .operator => .operator
  | .viewer => .viewer

def flagMustChangePassword : BitVec 32 := 1

/-- The session of a user whose password was verified. -/
def openSession (r : Round) (u : ShadowEntry) : LoginOutcome × SessionTable :=
  let mustChange := u.flags &&& flagMustChangePassword ≠ 0
  match Session.new 0 (nameBytes u) (toKernelRole u.role) r.nowUnix mustChange with
  | none => (.failed, r.table)
  | some session =>
    match r.table.acquire session with
    | (.ok id, table) => (.authenticated id u.username u.role mustChange, table)
    | (.error _, table) => (.sessionTableFull, table)

variable (verify : List UInt8 → List Char → Bool) (users : List ShadowEntry) (dummyPhc : List Char)

def lookupUser (name : List UInt8) : Option ShadowEntry := users.find? fun u => nameBytes u = name

/-- `run_login_round`. The password of a user that is not known is checked too, against a hash that
    is not used otherwise. -/
def loginRound (m : LockoutMap) (r : Round) : LoginOutcome × SessionTable × LockoutMap :=
  if m.isLocked r.source r.nowUnix then (.lockedOut, r.table, m)
  else
    match r.username with
    | .error e => (e.outcome, r.table, m)
    | .ok name =>
      match r.password with
      | .error e => (e.outcome, r.table, m)
      | .ok pw =>
        let user := lookupUser users name
        let ok := verify pw (user.elim dummyPhc ShadowEntry.phc)
        match user, ok with
        | some u, true =>
          ((openSession r u).1, (openSession r u).2, m.recordSuccess r.source)
        | _, _ => (.failed, r.table, m.recordFailure r.source r.nowUnix)

/-- A round, as a step of the lockouts. -/
def step (m : LockoutMap) (r : Round) : Option (LoginOutcome × LockoutMap) :=
  some ((loginRound verify users dummyPhc m r).1, (loginRound verify users dummyPhc m r).2.2)

namespace Round

variable (r : Round)

/-- Both lines were read. -/
def answered : Bool := r.username.isOk && r.password.isOk

/-- The user whose name and password were typed. -/
def user : Option ShadowEntry :=
  match r.username, r.password with
  | .ok name, .ok pw => (lookupUser users name).filter fun u => verify pw u.phc
  | _, _ => none

/-- The clock is not at its end, and a user whose name and password were typed may log in: the
    record asks for no second factor and is not locked, and there is room for a session with that
    name. -/
def Careful : Prop :=
  r.nowUnix < 2 ^ 64 - 1 ∧ ∀ u, r.user verify users = some u →
    u.totpRequired = false ∧ u.lockoutUntilUnix.toNat ≤ r.nowUnix ∧
      (nameBytes u).length ≤ maxUsernameLen ∧ ∃ i, (r.table.slots i).session = none

/-- The minute from `t₀` on. -/
def Within (t₀ : ℕ) : Prop := t₀ ≤ r.nowUnix ∧ r.nowUnix < t₀ + lockoutDurationSecs
  deriving Decidable

end Round

/-- The rounds of a source in the minute from `t₀` on in which a password was not verified. -/
def failures (src : LockoutSource) (t₀ : ℕ) (t : List (Round × LoginOutcome)) : ℕ :=
  t.countP fun x => x.1.source = src ∧ x.1.Within t₀ ∧ x.2 ≠ .lockedOut ∧ x.1.answered = true ∧
    x.1.user verify users = none

/-! ## What a round does -/

variable {verify users dummyPhc} {m m' : LockoutMap} {r : Round} {o : LoginOutcome}
  {src src' : LockoutSource} {nowUnix t₀ n : ℕ} {t : List (Round × LoginOutcome)} {u : ShadowEntry}

/-- What a round does: the source is locked, a line is not read, the name or the password is not
    right, or a session is opened. -/
theorem step_cases (h : step verify users dummyPhc m r = some (o, m')) :
    m.isLocked r.source r.nowUnix = true ∧ o = .lockedOut ∧ m' = m ∨
    m.isLocked r.source r.nowUnix = false ∧
      (r.answered = false ∧ (∃ e, o = ReadError.outcome e) ∧ m' = m ∨
        r.answered = true ∧ r.user verify users = none ∧ o = .failed ∧
          m' = m.recordFailure r.source r.nowUnix ∨
        ∃ u, r.user verify users = some u ∧ o = (openSession r u).1 ∧
          m' = m.recordSuccess r.source) := by
  obtain ⟨rfl, rfl⟩ := Prod.mk.inj (some.inj h)
  rw [loginRound]
  split
  · next hlocked => exact .inl ⟨hlocked, rfl, rfl⟩
  next hlocked =>
  refine .inr ⟨Bool.eq_false_iff.2 hlocked, ?_⟩
  rw [Round.answered, Round.user]
  cases r.username with
  | error e => exact .inl ⟨rfl, ⟨e, rfl⟩, rfl⟩
  | ok name =>
    cases r.password with
    | error e => exact .inl ⟨rfl, ⟨e, rfl⟩, rfl⟩
    | ok pw =>
      dsimp only
      cases lookupUser users name with
      | none => exact .inr (.inl ⟨rfl, rfl, rfl, rfl⟩)
      | some u =>
        rw [elim_some, filter_some]
        cases verify pw u.phc with
        | false => exact .inr (.inl ⟨rfl, rfl, rfl, rfl⟩)
        | true => exact .inr (.inr ⟨u, rfl, rfl, rfl⟩)

/-- The user is one of the list, whose name and password were typed. -/
theorem Round.user_eq_some (h : r.user verify users = some u) :
    u ∈ users ∧ r.username = .ok (nameBytes u) ∧ ∃ pw, r.password = .ok pw ∧ verify pw u.phc := by
  rw [Round.user] at h
  split at h
  · next name pw hname hpw =>
    obtain ⟨hfind, hverify⟩ := filter_eq_some_iff.1 h
    have heq := find?_some hfind
    rw [hname, ← of_decide_eq_true heq]
    exact ⟨mem_of_find?_eq_some hfind, rfl, pw, hpw, hverify⟩
  · cases h

/-- A login is one of the user whose name and password were typed. -/
theorem openSession_eq (hlen : (nameBytes u).length ≤ maxUsernameLen)
    (hfree : ∃ i, (r.table.slots i).session = none) :
    ∃ id must, (openSession r u).1 = .authenticated id u.username u.role must := by
  obtain ⟨i, hi⟩ := hfree
  rw [openSession, Session.new, if_neg (not_lt.2 hlen)]
  dsimp only
  rcases SessionTable.acquire_eq r.table _ with hfull | ⟨j, -, hj⟩
  · rw [SessionTable.acquire] at hfull
    split at hfull
    · cases hfull
    · next hnone =>
      have := find?_eq_none.1 hnone i (mem_finRange i)
      rw [hi] at this
      exact absurd rfl this
  · rw [hj]
    exact ⟨_, _, rfl⟩

/-! ## The counters -/

theorem entry_cons (x : LockoutSource × LockoutEntry) (m : LockoutMap) :
    LockoutMap.entry (x :: m) src = if x.1 = src then some x.2 else m.entry src := by
  by_cases h : x.1 = src <;> simp [LockoutMap.entry, h]

theorem entry_modifyEntry (f : LockoutEntry → LockoutEntry) (m : LockoutMap) :
    (m.modifyEntry src f).entry src' =
      if src = src' then some (f ((m.entry src).getD ⟨0, 0⟩)) else m.entry src' := by
  induction m with
  | nil => exact entry_cons ..
  | cons x m ih =>
    rw [LockoutMap.modifyEntry]
    split
    · next hs =>
      subst hs
      simp only [entry_cons]
      split
      · rfl
      · rfl
    · next hs =>
      simp only [entry_cons, ih]
      split
      · next heq => rw [if_neg (heq ▸ Ne.symm hs)]
      · rfl

theorem entry_recordSuccess (h : src ≠ src') (m : LockoutMap) :
    (m.recordSuccess src).entry src' = m.entry src' := by
  induction m with
  | nil => rfl
  | cons x m ih =>
    rw [LockoutMap.recordSuccess] at ih ⊢
    by_cases hx : x.1 = src
    · rw [eraseP_cons_of_pos (by simpa using hx), entry_cons, if_neg (hx ▸ h)]
    · rw [eraseP_cons_of_neg (by simpa using hx), entry_cons, entry_cons, ih]

theorem entry_step (h : step verify users dummyPhc m r = some (o, m')) (hsrc : r.source ≠ src) :
    m'.entry src = m.entry src := by
  rcases step_cases h with ⟨-, -, rfl⟩ | ⟨-, ⟨-, -, rfl⟩ | ⟨-, -, -, rfl⟩ | ⟨u, -, -, rfl⟩⟩
  · rfl
  · rfl
  · rw [LockoutMap.recordFailure, entry_modifyEntry, if_neg hsrc]
  · exact entry_recordSuccess hsrc m

/-! ## Runs -/

/-- The failures in the minute from `t₀` on are counted, and the source is locked for the rest of it
    when there are enough. -/
structure Bounded (src : LockoutSource) (t₀ n : ℕ) (t : List (Round × LoginOutcome))
    (m : LockoutMap) : Prop where
  le : n ≤ lockoutThreshold
  entry : (∀ x ∈ t, x.1.nowUnix < t₀ + lockoutDurationSecs) → 0 < n →
    ∃ e, m.entry src = some e ∧ n ≤ e.failures ∧ (lockoutThreshold ≤ e.failures →
      min (t₀ + lockoutDurationSecs) (2 ^ 64 - 1) ≤ e.lockedUntilUnix)

/-- A round that does not change the entry of the source. -/
theorem Bounded.skip (h : Bounded src t₀ n t m) (hm : m'.entry src = m.entry src)
    (x : Round × LoginOutcome) : Bounded src t₀ n (x :: t) m' :=
  ⟨h.le, fun hall hn => hm ▸ h.entry (fun y hy => hall y (mem_cons_of_mem _ hy)) hn⟩

/-- A password was not verified, in the minute from `t₀` on. -/
theorem Bounded.fail (h : Bounded src t₀ n t m) (hin : r.Within t₀)
    (hclock : r.nowUnix < 2 ^ 64 - 1) (hlocked : m.isLocked src r.nowUnix = false)
    (hall : ∀ x ∈ t, x.1.nowUnix ≤ r.nowUnix) :
    Bounded src t₀ (n + 1) ((r, o) :: t) (m.recordFailure src r.nowUnix) := by
  have hentry : ∀ e, m.entry src = some e → ¬r.nowUnix < e.lockedUntilUnix := by
    intro e he
    rw [LockoutMap.isLocked, he] at hlocked
    exact of_decide_eq_false hlocked
  have hcount : n < lockoutThreshold ∧ n ≤ ((m.entry src).getD ⟨0, 0⟩).failures := by
    rcases Nat.eq_zero_or_pos n with rfl | hn
    · exact ⟨by decide, Nat.zero_le _⟩
    · obtain ⟨e, he, hle, hlock⟩ := h.entry (fun x hx => (hall x hx).trans_lt hin.2) hn
      have := hentry e he
      have := hin.2
      rw [he, getD_some]
      omega
  have hopen : ¬r.nowUnix < ((m.entry src).getD ⟨0, 0⟩).lockedUntilUnix := by
    cases he : m.entry src with
    | none => exact Nat.not_lt_zero _
    | some e => exact hentry e he
  refine ⟨hcount.1, fun _ _ => ⟨_, (entry_modifyEntry _ m).trans (if_pos rfl), ?_⟩⟩
  · have hthreshold : lockoutThreshold = 5 := rfl
    have := hin.1
    dsimp only
    split
    · dsimp only
      omega
    · next hfew =>
      dsimp only at hfew ⊢
      omega

theorem failures_eq_zero (h : ∀ x ∈ t, x.1.nowUnix < t₀) : failures verify users src t₀ t = 0 := by
  refine countP_eq_zero.2 fun x hx => ?_
  simp only [decide_eq_true_eq, not_and]
  exact fun _ hin => absurd hin.1 (not_le.2 (h x hx))

/-- The rounds of a run, the last one first. -/
abbrev CarefulRun (verify : List UInt8 → List Char → Bool) (users : List ShadowEntry)
    (dummyPhc : List Char) : List (Round × LoginOutcome) → LockoutMap → Prop :=
  ReachesBy (fun _ r => r.Careful verify users) (step verify users dummyPhc) []

/-- No round of the source in the minute from `t₀` on is a login. -/
def NoLogin (src : LockoutSource) (t₀ : ℕ) (t : List (Round × LoginOutcome)) : Prop :=
  ∀ x ∈ t, x.1.source = src → x.1.Within t₀ → ∀ id name role must,
    x.2 ≠ .authenticated id name role must

theorem CarefulRun.bounded (h : CarefulRun verify users dummyPhc t m)
    (htime : t.Pairwise fun x y => y.1.nowUnix ≤ x.1.nowUnix) (hno : NoLogin src t₀ t) :
    Bounded src t₀ (failures verify users src t₀ t) t m := by
  induction h with
  | nil => exact ⟨Nat.zero_le _, fun _ hn => absurd hn (Nat.lt_irrefl 0)⟩
  | @cons t m m' r o _ hcareful hstep ih =>
    rw [pairwise_cons] at htime
    have hbounded := ih htime.2 fun x hx => hno x (mem_cons_of_mem _ hx)
    rw [failures, countP_cons, ← failures]
    simp only [decide_eq_true_eq]
    by_cases hsrc : r.source = src
    · by_cases hin : r.Within t₀
      · rcases step_cases hstep with ⟨-, rfl, rfl⟩ |
          ⟨hlocked, ⟨hans, -, rfl⟩ | ⟨hans, hwrong, rfl, rfl⟩ | ⟨u, hu, rfl, -⟩⟩
        · rw [if_neg (by simp)]
          exact hbounded.skip rfl _
        · rw [if_neg (by simp [hans])]
          exact hbounded.skip rfl _
        · rw [if_pos ⟨hsrc, hin, by simp, hans, hwrong⟩]
          subst hsrc
          exact hbounded.fail hin hcareful.1 hlocked htime.1
        · obtain ⟨-, -, hlen, hfree⟩ := hcareful.2 u hu
          obtain ⟨id, must, heq⟩ := openSession_eq hlen hfree
          exact absurd heq (hno _ mem_cons_self hsrc hin _ _ _ _)
      · rw [if_neg fun hx => hin hx.2.1]
        rcases lt_or_ge r.nowUnix t₀ with hlt | hge
        · -- The minute has not begun.
          have hzero : failures verify users src t₀ t = 0 :=
            failures_eq_zero fun x hx => (htime.1 x hx).trans_lt hlt
          rw [hzero]
          exact ⟨Nat.zero_le _, fun _ hn => absurd hn (Nat.lt_irrefl 0)⟩
        · refine ⟨hbounded.le, fun hall _ => absurd ⟨hge, hall _ mem_cons_self⟩ hin⟩
    · rw [if_neg fun hx => hsrc hx.1]
      exact hbounded.skip (entry_step hstep hsrc) _

/-- Any hash is that of the password `[1]`. -/
def sampleVerify (pw : List UInt8) (_ : List Char) : Bool := pw = [1]

/-- A user. -/
def sampleUser (totpRequired : Bool) (lockoutUntil : BitVec 64) : ShadowEntry :=
  ⟨['a'], [], .root, 0, lockoutUntil, totpRequired⟩

/-- A round of this user at the console. -/
def sampleRound (pw : List UInt8) : Round := ⟨.tty, 0, .new, .ok [97], .ok pw⟩

/-- In a run of careful rounds, a login is one of a user whose name and password were typed, whose
    record is not locked and asks for no second factor, and of a source that is not locked. In every
    minute without a login, as many rounds of a source as lock it fail to verify a password at
    most. -/
theorem logins_of_careful (h : CarefulRun verify users dummyPhc t m)
    (htime : t.Pairwise fun x y => y.1.nowUnix ≤ x.1.nowUnix) :
    (∀ r id name role must table m', r.Careful verify users →
      loginRound verify users dummyPhc m r = (.authenticated id name role must, table, m') →
      m.isLocked r.source r.nowUnix = false ∧ ∃ u ∈ users, name = u.username ∧
        r.username = .ok (nameBytes u) ∧ (∃ pw, r.password = .ok pw ∧ verify pw u.phc) ∧
        u.lockoutUntilUnix.toNat ≤ r.nowUnix ∧ u.totpRequired = false) ∧
    ∀ src t₀, NoLogin src t₀ t → failures verify users src t₀ t ≤ lockoutThreshold := by
  refine ⟨?_, fun src t₀ hno => (h.bounded htime hno).le⟩
  intro r id name role must table m' hcareful hround
  have hstep : step verify users dummyPhc m r = some (.authenticated id name role must, m') := by
    rw [step, hround]
  rcases step_cases hstep with ⟨-, ho, -⟩ |
    ⟨hlocked, ⟨-, ⟨e, ho⟩, -⟩ | ⟨-, -, ho, -⟩ | ⟨u, hu, ho, -⟩⟩
  · cases ho
  · cases e <;> cases ho
  · cases ho
  · obtain ⟨htotp, huntil, hlen, hfree⟩ := hcareful.2 u hu
    obtain ⟨id', must', heq⟩ := openSession_eq hlen hfree
    rw [heq] at ho
    cases ho
    obtain ⟨hmem, hname, hpw⟩ := Round.user_eq_some hu
    exact ⟨hlocked, u, hmem, rfl, hname, hpw, huntil, htotp⟩

/-- A login after a round with another password. -/
theorem logins_after_failure :
    ∃ t m id role must table m', CarefulRun sampleVerify [sampleUser false 0] [] t m ∧
      loginRound sampleVerify [sampleUser false 0] [] m (sampleRound [1]) =
        (.authenticated id ['a'] role must, table, m') ∧
      (∃ u ∈ [sampleUser false 0], u.totpRequired = false) ∧
      failures sampleVerify [sampleUser false 0] .tty 0 t = 1 ∧
      failures sampleVerify [sampleUser false 0] .tty 0 t ≤ lockoutThreshold := by
  have hcareful : ∀ pw, (sampleRound pw).Careful sampleVerify [sampleUser false 0] := by
    intro pw
    refine ⟨(by decide : 0 < 2 ^ 64 - 1), fun u hu => ?_⟩
    obtain ⟨hmem, -⟩ := Round.user_eq_some hu
    rw [mem_singleton.1 hmem]
    exact ⟨rfl, Nat.le_refl 0, by decide +kernel, ⟨0, by decide⟩, rfl⟩
  have hrun : CarefulRun sampleVerify [sampleUser false 0] [] [(sampleRound [2], .failed)]
      [(.tty, ⟨1, 0⟩)] := ReachesBy.nil.cons (hcareful [2]) rfl
  obtain ⟨hlogin, hle⟩ := logins_of_careful hrun (pairwise_singleton _ _)
  have hround : loginRound sampleVerify [sampleUser false 0] [] [(.tty, ⟨1, 0⟩)]
      (sampleRound [1]) = (.authenticated _ ['a'] _ _, _, _) := rfl
  obtain ⟨-, u, hu, -, -, -, -, htotp⟩ := hlogin _ _ _ _ _ _ _ (hcareful [1]) hround
  refine ⟨_, _, _, _, _, _, _, hrun, hround, ⟨u, hu, htotp⟩, by decide +kernel, hle _ _ ?_⟩
  intro x hx _ _ id name role must
  rw [mem_singleton.1 hx]
  rintro ⟨⟩

/-- A user whose record is locked and asks for a second factor logs in with the password. -/
theorem login_of_locked_record :
    ∃ id role must table m', loginRound sampleVerify [sampleUser true 100] [] []
      (sampleRound [1]) = (.authenticated id ['a'] role must, table, m') :=
  ⟨_, _, _, _, _, rfl⟩

end ConsoleLogin

end SmallAIOS
