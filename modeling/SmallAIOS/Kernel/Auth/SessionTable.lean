import Mathlib.Data.Fintype.Card
import Mathlib.Algebra.Group.Nat.Defs

/-!
# The session table and its idle sweeper

The kernel keeps the logged-in sessions in a table of 32 slots. A session is
named by an id: the index of its slot in the upper byte, and the 24-bit
generation of the slot, advanced whenever the slot is freed, in the rest. A
session ends by a logout (`release`), with all the others of its user
(`invalidateUser`), or by the sweeper, once it has been idle for longer than
its role allows (`Sweeper.tick`).

All three free a slot in the same way (`Slot.free`). An operation that would
take the count of live sessions below zero panics: it is `none`.
-/

namespace SmallAIOS.Auth

open Nat

/-- `SESSION_TABLE_CAP`. -/
def sessionTableCap : ℕ := 32

/-- `MAX_USERNAME_LEN`. -/
def maxUsernameLen : ℕ := 64

/-- `GEN_MASK`: the bits of an id that hold the generation. -/
def genMask : ℕ := 0x00FFFFFF

/-! ## Ids -/

namespace SessionId

/-- `SessionId::NONE`. -/
def none : ℕ := 0xFFFFFFFF

/-- The id of a slot at a generation. -/
def encode (slot : Fin sessionTableCap) (generation : ℕ) : ℕ :=
  (slot.val <<< 24) ||| (generation &&& genMask)

/-- The slot of an id, if there is one of that index. -/
def slot (id : ℕ) : Option (Fin sessionTableCap) :=
  if h : id >>> 24 < sessionTableCap then some ⟨id >>> 24, h⟩ else Option.none

/-- The generation of an id. -/
def generation (id : ℕ) : ℕ :=
  id &&& genMask

variable {i j : Fin sessionTableCap} {g id : ℕ}

theorem and_genMask (g : ℕ) : g &&& genMask = g % 2 ^ 24 :=
  and_two_pow_sub_one_eq_mod g 24

section

variable (i)

theorem encode_eq (g : ℕ) : encode i g = i.val * 2 ^ 24 + g % 2 ^ 24 := by
  rw [encode, and_genMask, ← Nat.shiftLeft_add_eq_or_of_lt (Nat.mod_lt _ (Nat.two_pow_pos 24)),
    shiftLeft_eq]

@[simp]
theorem slot_encode (g : ℕ) : slot (encode i g) = some i := by
  have h : encode i g >>> 24 = i.val := by
    rw [encode_eq]
    omega
  simp only [slot, h, i.isLt, dif_pos]

@[simp]
theorem generation_encode (g : ℕ) : generation (encode i g) = g % 2 ^ 24 := by
  rw [generation, and_genMask, encode_eq]
  omega

end

theorem encode_of_slot (h : slot id = some i) : encode i (generation id) = id := by
  have hi : id >>> 24 = i.val := by
    by_cases hlt : id >>> 24 < sessionTableCap
    · rw [slot, dif_pos hlt] at h
      exact congrArg Fin.val (Option.some.inj h)
    · rw [slot, dif_neg hlt] at h
      cases h
  rw [encode_eq, generation, and_genMask]
  omega

theorem encode_ne_none : encode i g ≠ none := by
  intro h
  have := slot_encode i g
  rw [h] at this
  cases this

/-- The slot and the generation an id is made of. -/
def key (id : ℕ) : Option (Fin sessionTableCap × ℕ) :=
  (slot id).map (·, generation id)

theorem key_encode (hg : g < 2 ^ 24) : key (encode i g) = some (i, g) := by
  rw [key, slot_encode, generation_encode, mod_eq_of_lt hg, Option.map_some]

theorem key_eq_some : key id = some (i, g) → encode i g = id := by
  intro h
  obtain ⟨i', hi, hk⟩ := Option.map_eq_some_iff.1 h
  obtain ⟨rfl, rfl⟩ := Prod.mk.inj hk
  exact encode_of_slot hi

end SessionId

/-! ## Sessions -/

inductive Role
  | root
  | operator
  | viewer
  deriving DecidableEq

structure Session where
  userId : ℕ
  username : Vector UInt8 maxUsernameLen
  usernameLen : UInt8
  role : Role
  loginUnixTime : ℕ
  lastActivityUnixTime : ℕ
  peerIdentity : Option (Vector UInt8 32)
  flags : ℕ
  mustChangePassword : Bool
  deriving DecidableEq

namespace Session

/-- The buffer of a name, filled up with zeros. -/
def usernameBuf (name : List UInt8) : Vector UInt8 maxUsernameLen :=
  Vector.ofFn fun i => name.getD i.val 0

/-- A new session, unless the name is too long to be stored. -/
def new (userId : ℕ) (name : List UInt8) (role : Role) (nowUnix : ℕ)
    (mustChangePassword : Bool) : Option Session :=
  if name.length > maxUsernameLen then none
  else some {
    userId, role, mustChangePassword
    username := usernameBuf name
    usernameLen := UInt8.ofNat name.length
    loginUnixTime := nowUnix
    lastActivityUnixTime := nowUnix
    peerIdentity := none
    flags := 0 }

end Session

inductive SessionError
  | tableFull
  | stale
  | usernameTooLong
  deriving DecidableEq

/-! ## The table -/

structure Slot where
  session : Option Session
  generation : ℕ
  deriving DecidableEq

namespace Slot

def empty : Slot :=
  ⟨none, 0⟩

/-- The slot with its session gone, at the next generation. -/
def free (slot : Slot) : Slot :=
  ⟨none, ((slot.generation + 1) % 2 ^ 32) &&& genMask⟩

end Slot

structure SessionTable where
  slots : Fin sessionTableCap → Slot
  liveCount : ℕ

namespace SessionTable

def new : SessionTable where
  slots _ := .empty
  liveCount := 0

/-- Put a session into the first slot without one. -/
def acquire (t : SessionTable) (session : Session) : Except SessionError ℕ × SessionTable :=
  match (List.finRange sessionTableCap).find? fun i => (t.slots i).session.isNone with
  | some i =>
    (.ok (SessionId.encode i (t.slots i).generation),
      { slots := Function.update t.slots i { t.slots i with session := some session }
        liveCount := t.liveCount + 1 })
  | none => (.error .tableFull, t)

/-- End the session of an id. -/
def release (t : SessionTable) (id : ℕ) : Option (Except SessionError Session × SessionTable) :=
  match SessionId.slot id with
  | none => some (.error .stale, t)
  | some i =>
    if (t.slots i).generation ≠ SessionId.generation id then some (.error .stale, t)
    else match (t.slots i).session with
      | none => some (.error .stale, t)
      | some session =>
        if t.liveCount < 1 then none
        else some (.ok session,
          { slots := Function.update t.slots i (t.slots i).free
            liveCount := t.liveCount - 1 })

/-- The session of an id. -/
def lookup (t : SessionTable) (id : ℕ) : Except SessionError Session :=
  match SessionId.slot id with
  | none => .error .stale
  | some i =>
    if (t.slots i).generation ≠ SessionId.generation id then .error .stale
    else match (t.slots i).session with
      | none => .error .stale
      | some session => .ok session

/-- The session of an id, borrowed to be changed by `f`. -/
def lookupMut (t : SessionTable) (id : ℕ) (f : Session → Session) :
    Except SessionError SessionTable :=
  match SessionId.slot id with
  | none => .error .stale
  | some i =>
    if (t.slots i).generation ≠ SessionId.generation id then .error .stale
    else match (t.slots i).session with
      | none => .error .stale
      | some session =>
        .ok { t with slots :=
          Function.update t.slots i { t.slots i with session := some (f session) } }

/-- Note that the session of an id is active. -/
def resetIdle (t : SessionTable) (id nowUnix : ℕ) : Except SessionError Unit × SessionTable :=
  match t.lookupMut id ({ · with lastActivityUnixTime := nowUnix }) with
  | .error e => (.error e, t)
  | .ok t' => (.ok (), t')

/-- The live sessions with their ids, in the order of the slots. -/
def iter (t : SessionTable) : List (ℕ × Session) :=
  (List.finRange sessionTableCap).filterMap fun i =>
    (t.slots i).session.map (SessionId.encode i (t.slots i).generation, ·)

/-- The slots with a session that satisfies `p`. -/
def holding (t : SessionTable) (p : Fin sessionTableCap → Session → Bool) :
    Finset (Fin sessionTableCap) :=
  Finset.univ.filter fun i => (t.slots i).session.any (p i)

/-- Free the slots whose session satisfies `p`. -/
def vacate (t : SessionTable) (p : Fin sessionTableCap → Session → Bool) : SessionTable where
  slots i := if (t.slots i).session.any (p i) then (t.slots i).free else t.slots i
  liveCount := t.liveCount - (t.holding p).card

/-- End all the sessions of a user. -/
def invalidateUser (t : SessionTable) (userId : ℕ) : Option (ℕ × SessionTable) :=
  let count := (t.holding fun _ s => s.userId == userId).card
  if t.liveCount < count then none else some (count, t.vacate fun _ s => s.userId == userId)

end SessionTable

/-! ## The sweeper -/

structure IdlePolicy where
  rootSecs : ℕ
  operatorSecs : ℕ
  viewerSecs : ℕ
  deriving DecidableEq

namespace IdlePolicy

/-- Fifteen minutes for root, an hour for the others. -/
def defaults : IdlePolicy :=
  ⟨15 * 60, 60 * 60, 60 * 60⟩

def forRole (policy : IdlePolicy) : Role → ℕ
  | .root => policy.rootSecs
  | .operator => policy.operatorSecs
  | .viewer => policy.viewerSecs

end IdlePolicy

inductive SweepReason
  | idleTimeout
  deriving DecidableEq

/-- What is told of the sessions swept. -/
structure AuditSink (σ : Type*) where
  onSessionInvalidated : σ → ℕ → Session → SweepReason → σ

/-- `NoopAuditSink`, the one of production builds. -/
def AuditSink.noop : AuditSink Unit :=
  ⟨fun _ _ _ _ => ()⟩

structure Sweeper where
  policy : IdlePolicy
  deriving DecidableEq

namespace Sweeper

variable {σ : Type*}

def new : Sweeper :=
  ⟨.defaults⟩

/-- The session has been idle for longer than its role allows. -/
def isIdle (sw : Sweeper) (now : ℕ) (session : Session) : Bool :=
  -- A saturating subtraction: a clock that was set back leaves every session.
  now - session.lastActivityUnixTime > sw.policy.forRole session.role

/-- Sweep one session: look it up, audit it and release it. -/
def sweep (sink : AuditSink σ) : ℕ × SessionTable × σ → ℕ → Option (ℕ × SessionTable × σ)
  | (killed, t, audit), id =>
    match t.lookup id with
    | .error _ => some (killed, t, audit)
    | .ok snapshot =>
      (t.release id).map fun
        | (.ok _, t') => (killed + 1, t', sink.onSessionInvalidated audit id snapshot .idleTimeout)
        | (.error _, t') => (killed, t', sink.onSessionInvalidated audit id snapshot .idleTimeout)

/-- Collect the ids of the idle sessions, then sweep them one by one. -/
def tick (sw : Sweeper) (sink : AuditSink σ) (now : ℕ) (t : SessionTable) (audit : σ) :
    Option (ℕ × SessionTable × σ) :=
  ((t.iter.filter fun p => sw.isIdle now p.2).map Prod.fst).foldlM (sweep sink) (0, t, audit)

end Sweeper

end SmallAIOS.Auth
