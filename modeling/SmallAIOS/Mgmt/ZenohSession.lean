import Mathlib.Data.List.Lex
import SmallAIOS.Kernel.Auth.SessionRun
import SmallAIOS.Lib.SortedMap
import Mathlib.Data.Vector.Defs

/-!
# The sessions of peers

The management surface hands out tokens for sessions of the kernel. A side table keeps for each
token the id of the session and the peer that logged in, and the number of tokens of each peer, of
which there may only be so many. The kernel ends sessions on its own, so that a token may be left
whose session is gone, until it is reaped.

In every run a token resolves only for the peer it was admitted for, to the session it was admitted
with, unless it was logged out, evicted or reaped since (`run_binds`). The role is that of this
session as long as no slot of the kernel has been freed `2 ^ 24` times. Then the ids of the kernel
begin again, and an old token gets the role of another session (`role_after_rollover`).
-/

namespace SmallAIOS.Mgmt.Zenoh

open Lib Auth SortedMap Function
open SessionId hiding none
open SessionTable hiding resolve
open Option hiding filter_map getD
open List hiding Vector

/-- Arrays of bytes, which are compared byte by byte. -/
def Bytes (n : ℕ) := Vector UInt8 n

instance {n : ℕ} : LinearOrder (Bytes n) :=
  LinearOrder.lift' (fun b : Bytes n => (Vector.toList b).map UInt8.toNat)
    ((map_injective_iff.2 fun _ _ h => UInt8.toNat_inj.1 h).comp fun _ _ h => Vector.toList_inj.1 h)

abbrev Token := Bytes 16

abbrev PeerIdentity := Bytes 32

def maxTrackedIdentities : ℕ := 256

inductive SideTableError
  | perIdentityCapReached
  | totalCapReached
  | kernelTableFull
  | unknownToken
  | peerMismatch
  | idleExpired
  | kernelStale
  deriving DecidableEq

structure ZenohSessionEntry where
  sessionId : ℕ
  peer : PeerIdentity
  /-- The requests that are being executed. -/
  inFlight : ℕ
  loginUnixTime : ℕ

structure CapsConfig where
  perIdentityMax : UInt32
  totalMax : UInt32
  idle : IdlePolicy

structure ZenohSessionTable where
  entries : SortedMap Token ZenohSessionEntry
  /-- The number of entries of each peer. -/
  perIdentity : SortedMap PeerIdentity ℕ
  config : CapsConfig

/-- The count of a peer. -/
def count (m : SortedMap PeerIdentity ℕ) (peer : PeerIdentity) : ℕ := (m.get? peer).getD 0

def decPeer (m : SortedMap PeerIdentity ℕ) (peer : PeerIdentity) : SortedMap PeerIdentity ℕ :=
  match m.get? peer with
  | none => m
  | some n => if n - 1 = 0 then m.erase peer else m.insert peer (n - 1)

namespace ZenohSessionTable

def new (config : CapsConfig) : ZenohSessionTable := ⟨.empty, .empty, config⟩

variable (z : ZenohSessionTable) (k : SessionTable) (token : Token) (peer : PeerIdentity)
  (nowUnix : ℕ)

def countFor : ℕ := count z.perIdentity peer

/-- The number of entries bound to the peer. -/
def boundTo : ℕ := z.entries.entries.countP fun x => x.2.peer = peer

/-- The count of the peer is below its limit when it is increased, so that this cannot overflow. -/
def tryAdmitLogin (session : Session) :
    Except SideTableError (Token × ℕ) × ZenohSessionTable × SessionTable :=
  if z.config.totalMax.toNat ≤ z.entries.size % 2 ^ 32 then (.error .totalCapReached, z, k)
  else if z.config.perIdentityMax.toNat ≤ z.countFor peer then
    (.error .perIdentityCapReached, z, k)
  else if maxTrackedIdentities ≤ z.perIdentity.size ∧ z.perIdentity.get? peer = none then
    (.error .totalCapReached, z, k)
  else
    match k.acquire { session with
      peerIdentity := some peer, loginUnixTime := nowUnix, lastActivityUnixTime := nowUnix } with
    | (.error _, k) => (.error .kernelTableFull, z, k)
    | (.ok id, k) =>
      (.ok (token, id),
        { z with
          entries := z.entries.insert token ⟨id, peer, 0, nowUnix⟩
          perIdentity := z.perIdentity.insert peer (z.countFor peer + 1) }, k)

def resolve : Except SideTableError (ℕ × Role) × SessionTable :=
  match z.entries.get? token with
  | none => (.error .unknownToken, k)
  | some e =>
    if e.peer ≠ peer then (.error .peerMismatch, k)
    else
      match k.lookup e.sessionId with
      | .error _ => (.error .kernelStale, k)
      | .ok session =>
        if e.inFlight = 0 ∧
            z.config.idle.forRole session.role < nowUnix - session.lastActivityUnixTime then
          (.error .idleExpired, k)
        else (.ok (e.sessionId, session.role), (k.resetIdle e.sessionId nowUnix).2)

/-- Set the number of requests of a token. -/
def setInFlight (f : ℕ → ℕ) : ZenohSessionTable :=
  match z.entries.get? token with
  | none => z
  | some e => { z with entries := z.entries.insert token { e with inFlight := f e.inFlight } }

def enterCall : ZenohSessionTable := z.setInFlight token fun n => min (n + 1) (2 ^ 32 - 1)

def leaveCall : ZenohSessionTable := z.setInFlight token fun n => n - 1

def logout : Option (Except SideTableError Unit × ZenohSessionTable × SessionTable) :=
  match z.entries.get? token with
  | none => some (.error .unknownToken, z, k)
  | some e => (k.release e.sessionId).map fun r =>
    (.ok (), { z with
      entries := z.entries.erase token, perIdentity := decPeer z.perIdentity e.peer }, r.2)

/-- The kernel still has the session of the entry. -/
def live (x : Token × ZenohSessionEntry) : Bool := (k.lookup x.2.sessionId).isOk

/-- The tokens to remove are collected first. -/
def reap : ℕ × ZenohSessionTable :=
  let stale := z.entries.entries.filter fun x => !live k x
  (stale.length, { z with
    entries := z.entries.filter (live k)
    perIdentity := stale.foldl (fun m x => decPeer m x.2.peer) z.perIdentity })

def evictPeer : Option (ℕ × ZenohSessionTable × SessionTable) :=
  let tokens := z.entries.entries.filter fun x => x.2.peer = peer
  (tokens.foldlM (fun k x => (release k x.2.sessionId).map Prod.snd) k).map fun k =>
    (tokens.length, { z with
      entries := z.entries.filter fun x => x.2.peer ≠ peer
      perIdentity := z.perIdentity.erase peer }, k)

end ZenohSessionTable

/-! ## Runs -/

inductive Op
  | tryAdmitLogin (token : Token) (peer : PeerIdentity) (nowUnix : ℕ) (session : Session)
  | resolve (token : Token) (peer : PeerIdentity) (nowUnix : ℕ)
  | enterCall (token : Token)
  | leaveCall (token : Token)
  | logout (token : Token)
  | reap
  | evictPeer (peer : PeerIdentity)
  | setConfig (config : CapsConfig)
  /-- A call to the kernel's table that is not made by this one. -/
  | kernel (call : Call)

inductive Ret
  | unit
  | admitted (r : Except SideTableError (Token × ℕ))
  | resolved (r : Except SideTableError (ℕ × Role))
  | loggedOut (r : Except SideTableError Unit)
  | count (n : ℕ)
  | kernel (r : Auth.Ret)

abbrev State := ZenohSessionTable × SessionTable

def step (s : State) : Op → Option (Ret × State)
  | .tryAdmitLogin token peer nowUnix session =>
    some (.admitted (s.1.tryAdmitLogin s.2 token peer nowUnix session).1,
      (s.1.tryAdmitLogin s.2 token peer nowUnix session).2)
  | .resolve token peer nowUnix =>
    some (.resolved (s.1.resolve s.2 token peer nowUnix).1, s.1,
      (s.1.resolve s.2 token peer nowUnix).2)
  | .enterCall token => some (.unit, s.1.enterCall token, s.2)
  | .leaveCall token => some (.unit, s.1.leaveCall token, s.2)
  | .logout token => (s.1.logout s.2 token).map fun r => (.loggedOut r.1, r.2)
  | .reap => some (.count (s.1.reap s.2).1, (s.1.reap s.2).2, s.2)
  | .evictPeer peer => (s.1.evictPeer s.2 peer).map fun r => (.count r.1, r.2)
  | .setConfig config => some (.unit, { s.1 with config }, s.2)
  | .kernel call => (s.2.step call).map fun r => (.kernel r.1, s.1, r.2)

/-- No token is admitted while it is in the table. -/
def Fresh (s : State) : Op → Prop
  | .tryAdmitLogin token _ _ _ => s.1.entries.get? token = none
  | _ => True

/-- An operation and what it returned, with the kernel's table before it. -/
abbrev Event := SessionTable × Op × Ret

/-- How often each slot has been freed, if it was `n i` times before. -/
def freed (n : Fin sessionTableCap → ℕ) (k k' : SessionTable) (i : Fin sessionTableCap) : ℕ :=
  n i + (frees k k' i).toNat

/-- The runs from the empty tables, with the operations made, the last one first, and how often they
    have freed each slot of the kernel. -/
inductive Run (config : CapsConfig) : List Event → (Fin sessionTableCap → ℕ) → State → Prop
  | new : Run config [] (fun _ => 0) (.new config, .new)
  | step {h : List Event} {n : Fin sessionTableCap → ℕ} {s s' : State} {op : Op} {r : Ret} :
    Run config h n s → step s op = some (r, s') → Fresh s op →
      Run config ((s.2, op, r) :: h) (freed n s.2 s'.2) s'

/-- What a token was admitted for: the peer, the id acquired, and the role of the session. -/
structure Admission where
  peer : PeerIdentity
  sessionId : ℕ
  role : Role

/-- What an operation does to the admission of a token. A reaping ends it if the kernel no longer
    has the session. -/
def effect (token : Token) : Event → Option Admission → Option Admission
  | (_, .tryAdmitLogin token' peer _ session, .admitted (.ok (_, id))), a =>
    if token' = token then some ⟨peer, id, session.role⟩ else a
  | (_, .logout token', .loggedOut (.ok _)), a => a.filter fun _ => token ≠ token'
  | (k, .reap, _), a => a.filter fun a => (k.lookup a.sessionId).isOk
  | (_, .evictPeer peer, _), a => a.filter fun a => a.peer ≠ peer
  | _, a => a

/-- The last admission of the token, if the token was neither logged out, evicted nor reaped
    since. -/
def admission (h : List Event) (token : Token) : Option Admission :=
  h.foldr (effect token) none

theorem admission_cons (e : Event) (h : List Event) (token : Token) :
    admission (e :: h) token = effect token e (admission h token) := rfl

/-! ## The kernel's table -/

section Kernel

variable {k k' k'' : SessionTable} {kh : List (Call × Auth.Ret)} {r : Except SessionError Session}
  {s : Session}

/-- Calls lead from one table of the kernel to the other, and free a slot at most once. -/
def Extends (k k' : SessionTable) : Prop :=
  ∀ kh n, SessionTable.Run kh n k → ∃ es, SessionTable.Run (es ++ kh) (freed n k k') k'

theorem Extends.refl (k : SessionTable) : Extends k k := fun kh n hr => by
  have hn : freed n k k = n := funext fun i => by rw [freed, frees_self]; rfl
  exact ⟨[], hn.symm ▸ hr⟩

theorem Extends.of_step {c : Call} {r : Auth.Ret} (h : k.step c = some (r, k')) : Extends k k' :=
  fun _ _ hr => ⟨[(c, r)], hr.step h⟩

theorem step_acquire {r : Except SessionError ℕ} (h : k.acquire s = (r, k')) :
    k.step (.acquire s) = some (.acquired r, k') := by
  rw [SessionTable.step, h]

/-- No session appears. -/
def Shrinks (k k' : SessionTable) : Prop :=
  ∀ i, (k.slots i).session = none → (k'.slots i).session = none

theorem Extends.trans (h : Extends k k') (h' : Extends k' k'') (hk : Shrinks k k')
    (hk' : Shrinks k' k'') : Extends k k'' := by
  intro kh n hr
  obtain ⟨es, hr⟩ := h kh n hr
  obtain ⟨es', hr⟩ := h' _ _ hr
  -- A slot that is freed by the first calls is not freed by the others.
  have hn : freed (freed n k k') k' k'' = freed n k k'' := by
    funext i
    have h1 := hk i
    have h2 := hk' i
    simp only [freed, frees]
    revert h1 h2
    cases (k.slots i).session <;> cases (k'.slots i).session <;> cases (k''.slots i).session <;>
      simp
  rw [hn] at hr
  exact ⟨es' ++ es, by rwa [append_assoc]⟩

theorem shrinks_release {id : ℕ} (h : k.release id = some (r, k')) : Shrinks k k' := by
  intro j hj
  rw [release] at h
  split at h
  · cases h
    exact hj
  split at h
  · cases h
    exact hj
  split at h
  · cases h
    exact hj
  split at h
  · cases h
  · cases h
    dsimp only
    rw [update_apply]
    split
    · rfl
    · exact hj

theorem extends_release {id : ℕ} (h : k.release id = some (r, k')) : Extends k k' :=
  .of_step (c := .release id) (congrArg (Option.map _) h)

theorem extends_foldlM {l : List (Token × ZenohSessionEntry)}
    (h : l.foldlM (fun k x => (release k x.2.sessionId).map Prod.snd) k = some k') :
    Extends k k' ∧ Shrinks k k' := by
  induction l generalizing k with
  | nil =>
    cases h
    exact ⟨.refl _, fun _ hi => hi⟩
  | cons x l ih =>
    obtain ⟨k1, hx, h⟩ := bind_eq_some_iff.1 h
    obtain ⟨⟨r, k1'⟩, hrel, rfl⟩ := map_eq_some_iff.1 hx
    obtain ⟨hext, hshr⟩ := ih h
    have hfirst := shrinks_release hrel
    exact ⟨(extends_release hrel).trans hext hfirst hshr, fun i hi => hshr i (hfirst i hi)⟩

/-- The id was given out, and if none is given out twice, it stands for no session of another
    role. -/
def Stands (kh : List (Call × Auth.Ret)) (a : Admission) : Prop :=
  a.sessionId ∈ issued kh ∧
    ((issued kh).Nodup → ∀ s, expected kh a.sessionId = some s → s.role = a.role)

/-- A call does not change the role of a session. -/
theorem role_effect {id : ℕ} {e : Call × Auth.Ret} {o : Option Session} (he : e.2.id? ≠ some id)
    (h : Auth.effect id e o = some s) : ∃ s0, o = some s0 ∧ s.role = s0.role := by
  cases o with
  | none =>
    rw [effect_none he] at h
    cases h
  | some s0 =>
    refine ⟨s0, rfl, ?_⟩
    rw [Auth.effect.eq_def] at h
    split at h
    · rw [if_neg] at h
      · cases h
        rfl
      · rintro rfl
        exact he rfl
    · split at h <;> cases h
      rfl
    · split at h <;> cases h <;> rfl
    · cases (filter_eq_some_iff.1 h).1
      rfl
    · cases (filter_eq_some_iff.1 h).1
      rfl
    · cases h
      rfl

variable {a : Admission}

theorem Stands.append (h : Stands kh a) (es : List (Call × Auth.Ret)) : Stands (es ++ kh) a := by
  induction es with
  | nil => exact h
  | cons e es ih =>
    obtain ⟨hmem, hrole⟩ := ih
    refine ⟨((sublist_cons_self e _).filterMap _).subset hmem, fun hnd s hs => ?_⟩
    have hne : e.2.id? ≠ some a.sessionId := by
      intro he
      rw [cons_append, issued_cons_of_some he, nodup_cons] at hnd
      exact hnd.1 hmem
    obtain ⟨s0, hs0, heq⟩ := role_effect hne hs
    exact heq.trans (hrole (hnd.sublist ((sublist_cons_self _ _).filterMap _)) s0 hs0)

end Kernel

/-! ## One operation -/

open ZenohSessionTable

section Step

variable {z z' : ZenohSessionTable} {k k' : SessionTable} {token : Token} {peer : PeerIdentity}
  {nowUnix : ℕ} {session : Session}
  {f : Token × ZenohSessionEntry → Bool} (m : SortedMap PeerIdentity ℕ) (p : PeerIdentity)

/-- An admission is refused, or it is within the limits. -/
theorem tryAdmitLogin_cases {r : Except SideTableError (Token × ℕ)}
    (h : z.tryAdmitLogin k token peer nowUnix session = (r, z', k')) :
    (∃ e, r = .error e) ∧ z' = z ∧ Extends k k' ∨
    ∃ id s, r = .ok (token, id) ∧ k.acquire s = (.ok id, k') ∧ s.role = session.role ∧
      z.entries.size % 2 ^ 32 < z.config.totalMax.toNat ∧
      z.countFor peer < z.config.perIdentityMax.toNat ∧
      z' = { z with
        entries := z.entries.insert token ⟨id, peer, 0, nowUnix⟩
        perIdentity := z.perIdentity.insert peer (z.countFor peer + 1) } := by
  rw [tryAdmitLogin] at h
  split_ifs at h with htotal hpeer htracked
  · cases h
    exact .inl ⟨⟨_, rfl⟩, rfl, .refl _⟩
  · cases h
    exact .inl ⟨⟨_, rfl⟩, rfl, .refl _⟩
  · cases h
    exact .inl ⟨⟨_, rfl⟩, rfl, .refl _⟩
  · split at h
    · next hacq =>
      cases h
      exact .inl ⟨⟨_, rfl⟩, rfl, .of_step (step_acquire hacq)⟩
    · next hacq =>
      cases h
      exact .inr ⟨_, _, rfl, hacq, rfl, not_le.1 htotal, not_le.1 hpeer, rfl⟩

/-- A token is resolved for its peer, to its session. -/
theorem resolve_eq_ok {id : ℕ} {role : Role}
    (h : (z.resolve k token peer nowUnix).1 = .ok (id, role)) :
    ∃ e s, z.entries.get? token = some e ∧ e.peer = peer ∧ e.sessionId = id ∧
      k.resolve id = some s ∧ s.role = role := by
  rw [resolve] at h
  split at h
  · cases h
  next e he =>
  split at h
  · cases h
  next hpeer =>
  split at h
  · cases h
  next s hs =>
  split at h
  · cases h
  · cases h
    refine ⟨e, s, he, not_not.1 hpeer, rfl, ?_, rfl⟩
    rw [lookup_eq] at hs
    cases hres : k.resolve e.sessionId with
    | none =>
      rw [hres] at hs
      cases hs
    | some s' =>
      rw [hres] at hs
      cases hs
      rfl

theorem extends_resolve : Extends k (z.resolve k token peer nowUnix).2 := by
  rw [resolve]
  split
  · exact .refl k
  split
  · exact .refl k
  split
  · exact .refl k
  split
  · exact .refl k
  · exact .of_step (c := .resetIdle _ _) rfl

theorem count_erase : count (m.erase peer) p = if p = peer then 0 else count m p := by
  rw [count, count]
  split
  · next hp => rw [hp, get?_erase_self, getD_none]
  · next hp => rw [get?_erase_of_ne hp]

theorem count_insert (n : ℕ) (p : PeerIdentity) :
    count (m.insert peer n) p = if p = peer then n else count m p := by
  rw [count, count]
  split
  · next hp => rw [hp, get?_insert_self, getD_some]
  · next hp => rw [get?_insert_of_ne hp]

theorem count_decPeer : count (decPeer m peer) p = count m p - if p = peer then 1 else 0 := by
  rw [decPeer]
  cases hm : m.get? peer with
  | none =>
    dsimp only
    split
    · next hp =>
      rw [hp, count, hm]
      rfl
    · rfl
  | some n =>
    have hn : count m peer = n := congrArg (Option.getD · 0) hm
    dsimp only
    split
    · rw [count_erase]
      split
      · next hp =>
        rw [hp]
        omega
      · rfl
    · rw [count_insert]
      split
      · next hp => rw [hp, hn]
      · rfl

theorem count_foldl (l : List (Token × ZenohSessionEntry)) (m : SortedMap PeerIdentity ℕ)
    (p : PeerIdentity) : count (l.foldl (fun m x => decPeer m x.2.peer) m) p =
      count m p - l.countP fun x => x.2.peer = p := by
  induction l generalizing m with
  | nil => rfl
  | cons x l ih =>
    rw [foldl_cons, ih, count_decPeer, countP_cons, Nat.sub_sub, Nat.add_comm]
    simp only [decide_eq_true_eq, @eq_comm _ p]

variable {h : List Event} {n : Fin sessionTableCap → ℕ} {s s' : State} {op : Op} {r : Ret}

/-- The counts are right, tokens are bound to what they were admitted for, and their ids stand for
    sessions of the role they were admitted with. -/
structure Inv (h : List Event) (n : Fin sessionTableCap → ℕ) (s : State) : Prop where
  counts : ∀ p, s.1.countFor p = s.1.boundTo p
  small : s.1.entries.size < 2 ^ 32
  bound : ∀ token, (s.1.entries.get? token).map (fun e => (e.peer, e.sessionId)) =
    (admission h token).map fun a => (a.peer, a.sessionId)
  stands : ∃ kh, SessionTable.Run kh n s.2 ∧ ∀ token a, admission h token = some a → Stands kh a

section

variable (hI : Inv h n (z, k))
include hI

/-- An operation that admits no token: it keeps those whose binding satisfies `q`. -/
theorem Inv.keep {q : Token → PeerIdentity × ℕ → Bool} (hcounts : ∀ p, z'.countFor p = z'.boundTo p)
    (hsize : z'.entries.size ≤ z.entries.size)
    (hget : ∀ token, (z'.entries.get? token).map (fun e => (e.peer, e.sessionId)) =
      ((z.entries.get? token).map fun e => (e.peer, e.sessionId)).filter (q token))
    (heff : ∀ token a, effect token (k, op, r) a =
      a.filter fun a => q token (a.peer, a.sessionId))
    (hk : Extends k k') :
    Inv ((k, op, r) :: h) (freed n k k') (z', k') := by
  obtain ⟨kh, hrun, hstands⟩ := hI.stands
  obtain ⟨es, hrun⟩ := hk kh n hrun
  refine ⟨hcounts, hsize.trans_lt hI.small, fun token => ?_, es ++ kh, hrun, fun token a ha => ?_⟩
  · rw [hget, hI.bound, Option.filter_map]
    exact congrArg (Option.map _) (heff token _).symm
  · rw [admission_cons, heff] at ha
    exact (hstands token a (filter_eq_some_iff.1 ha).1).append es

/-- An operation that changes no binding. -/
theorem Inv.same (hcounts : ∀ p, z'.countFor p = z'.boundTo p)
    (hsize : z'.entries.size ≤ z.entries.size)
    (hget : ∀ token, (z'.entries.get? token).map (fun e => (e.peer, e.sessionId)) =
      (z.entries.get? token).map fun e => (e.peer, e.sessionId))
    (heff : ∀ token a, effect token (k, op, r) a = a) (hk : Extends k k') :
    Inv ((k, op, r) :: h) (freed n k k') (z', k') :=
  hI.keep (q := fun _ _ => true) hcounts hsize
    (fun token => (hget token).trans (by cases z.entries.get? token <;> rfl))
    (fun token a => (heff token a).trans (by cases a <;> rfl)) hk

theorem Inv.admit {id : ℕ} {session' : Session} (hnew : z.entries.get? token = none)
    (hacq : k.acquire session' = (.ok id, k')) (hrole : session'.role = session.role)
    (htotal : z.entries.size < z.config.totalMax.toNat)
    (hz : z' = { z with
      entries := z.entries.insert token ⟨id, peer, 0, nowUnix⟩
      perIdentity := z.perIdentity.insert peer (z.countFor peer + 1) }) :
    Inv ((k, .tryAdmitLogin token peer nowUnix session, .admitted (.ok (token, id))) :: h)
      (freed n k k') (z', k') := by
  subst hz
  obtain ⟨kh, hrun, hstands⟩ := hI.stands
  have hrun' := hrun.step (step_acquire hacq)
  refine ⟨fun p => ?_, ?_, fun t => ?_, _, hrun', fun t a ha => ?_⟩
  · have hp := hI.counts p
    rw [countFor, boundTo] at hp ⊢
    rw [count_insert, countP_insert_of_none hnew, countP_singleton]
    split
    · next heq => rw [if_pos (decide_eq_true heq.symm), countFor, ← heq, hp]
    · next hne => rw [if_neg (by simpa using Ne.symm hne), hp, Nat.add_zero]
  · rw [size_insert_of_none hnew]
    exact Nat.lt_of_le_of_lt htotal z.config.totalMax.toNat_lt
  · change _ = Option.map _ (if token = t then some ⟨peer, id, session.role⟩ else admission h t)
    split
    · next heq =>
      subst heq
      rw [get?_insert_self]
      rfl
    · next hne =>
      rw [get?_insert_of_ne (Ne.symm hne)]
      exact hI.bound t
  · change (if token = t then some ⟨peer, id, session.role⟩ else admission h t) = some a at ha
    split at ha
    · cases ha
      refine ⟨mem_cons_self, fun _ s hs => ?_⟩
      change (if id = id then some session' else expected kh id) = some s at hs
      rw [if_pos rfl] at hs
      cases hs
      exact hrole
    · exact (hstands t a ha).append [_]

theorem Inv.setInFlight (g : ℕ → ℕ) (heff : ∀ token a, effect token (k, op, r) a = a) :
    Inv ((k, op, r) :: h) (freed n k k) (z.setInFlight token g, k) := by
  rw [ZenohSessionTable.setInFlight]
  cases he : z.entries.get? token with
  | none => exact hI.same hI.counts le_rfl (fun _ => rfl) heff (.refl k)
  | some e =>
    refine hI.same (fun p => (hI.counts p).trans ?_) ?_ (fun t => ?_) heff (.refl k)
    · rw [boundTo, boundTo, countP_insert_of_some he]
      rfl
    · exact (size_insert_of_some he).le
    · by_cases ht : t = token
      · rw [ht, get?_insert_self, he]
        rfl
      · rw [get?_insert_of_ne ht]

/-- The entries are removed whose binding does not satisfy `q`. -/
theorem Inv.remove (q : Token → PeerIdentity × ℕ → Bool)
    (hz : z'.entries = z.entries.filter fun x => q x.1 (x.2.peer, x.2.sessionId))
    (hcounts : ∀ p, z'.countFor p = z'.boundTo p)
    (heff : ∀ token a, effect token (k, op, r) a =
      a.filter fun a => q token (a.peer, a.sessionId))
    (hk : Extends k k') :
    Inv ((k, op, r) :: h) (freed n k k') (z', k') := by
  refine hI.keep hcounts ?_ (fun t => ?_) heff hk
  · rw [hz]
    exact length_filter_le _ _
  · rw [hz, get?_filter, Option.filter_map]
    rfl

theorem Inv.logout {r : Except SideTableError Unit} (hstep : z.logout k token = some (r, z', k')) :
    Inv ((k, .logout token, .loggedOut r) :: h) (freed n k k') (z', k') := by
  rw [ZenohSessionTable.logout] at hstep
  split at hstep
  · cases hstep
    exact hI.same hI.counts le_rfl (fun _ => rfl) (fun _ _ => rfl) (.refl k)
  next e he =>
  obtain ⟨⟨ret, k1⟩, hrel, heq⟩ := map_eq_some_iff.1 hstep
  cases heq
  refine hI.remove (fun t _ => t ≠ token) rfl (fun p => ?_) (fun _ _ => rfl) (extends_release hrel)
  have hp := hI.counts p
  rw [countFor, boundTo] at hp ⊢
  rw [count_decPeer, hp, countP_eq _ token, he]
  simp [eq_comm]

theorem Inv.reap : Inv ((k, .reap, .count (z.reap k).1) :: h) (freed n k k) ((z.reap k).2, k) := by
  refine hI.remove (fun _ b => (k.lookup b.2).isOk) rfl (fun p => ?_) (fun _ _ => rfl) (.refl k)
  have hp := hI.counts p
  rw [countFor, boundTo] at hp ⊢
  refine (count_foldl _ _ p).trans ?_
  rw [hp, countP_eq_countP_filter_add _ _ (live k)]
  exact Nat.add_sub_cancel ..

theorem Inv.evictPeer {c : ℕ} (hstep : z.evictPeer k peer = some (c, z', k')) :
    Inv ((k, .evictPeer peer, .count c) :: h) (freed n k k') (z', k') := by
  obtain ⟨k1, hrel, heq⟩ := map_eq_some_iff.1 hstep
  cases heq
  refine hI.remove (fun _ b => b.1 ≠ peer) rfl (fun p => ?_) (fun _ _ => rfl)
    (extends_foldlM hrel).1
  have hp := hI.counts p
  rw [countFor] at hp ⊢
  refine (count_erase _ p).trans ?_
  refine .trans ?_ countP_filter.symm
  split
  · next heq => simp [heq]
  · next hne =>
    rw [hp]
    refine countP_congr fun x _ => ?_
    simpa using fun hx : x.2.peer = p => hx ▸ hne

end

theorem Inv.step (hI : Inv h n s) (hfresh : Fresh s op) (hs : step s op = some (r, s')) :
    Inv ((s.2, op, r) :: h) (freed n s.2 s'.2) s' := by
  obtain ⟨z, k⟩ := s
  cases op with
  | tryAdmitLogin token peer nowUnix session =>
    cases hs
    rcases hz : z.tryAdmitLogin k token peer nowUnix session with ⟨r, z', k'⟩
    rcases tryAdmitLogin_cases hz with ⟨⟨e, rfl⟩, rfl, hk⟩ |
      ⟨id, session', rfl, hacq, hrole, htotal, -, hz'⟩
    · exact hI.same hI.counts le_rfl (fun _ => rfl) (fun _ _ => rfl) hk
    · rw [Nat.mod_eq_of_lt hI.small] at htotal
      exact hI.admit hfresh hacq hrole htotal hz'
  | resolve token peer nowUnix =>
    cases hs
    exact hI.same hI.counts le_rfl (fun _ => rfl) (fun _ _ => rfl) extends_resolve
  | enterCall token | leaveCall token =>
    cases hs
    exact hI.setInFlight _ fun _ _ => rfl
  | logout token =>
    obtain ⟨⟨r, z', k'⟩, hlog, heq⟩ := map_eq_some_iff.1 hs
    cases heq
    exact hI.logout hlog
  | reap =>
    cases hs
    exact hI.reap
  | evictPeer peer =>
    obtain ⟨⟨c, z', k'⟩, hev, heq⟩ := map_eq_some_iff.1 hs
    cases heq
    exact hI.evictPeer hev
  | setConfig config =>
    cases hs
    exact hI.same hI.counts le_rfl (fun _ => rfl) (fun _ _ => rfl) (.refl k)
  | kernel call =>
    obtain ⟨⟨ret, k'⟩, hcall, heq⟩ := map_eq_some_iff.1 hs
    cases heq
    exact hI.same hI.counts le_rfl (fun _ => rfl) (fun _ _ => rfl) (.of_step hcall)

end Step

variable {config : CapsConfig} {h : List Event} {n : Fin sessionTableCap → ℕ} {s : State} {g : ℕ}

theorem Run.inv (hr : Run config h n s) : Inv h n s := by
  induction hr with
  | new =>
    exact ⟨fun _ => rfl, Nat.two_pow_pos 32, fun _ => rfl, [], .new, fun _ _ ha => by cases ha⟩
  | step _ hs hfresh ih => exact ih.step hfresh hs

/-- Two tokens, a peer, and a session of a role. -/
def sampleToken (b : UInt8) : Token := Vector.replicate 16 b

def samplePeer : PeerIdentity := Vector.replicate 32 0

def sampleSession (role : Role) : Session :=
  ⟨0, Vector.replicate _ 0, 0, role, 0, 0, some samplePeer, 0, false⟩

def sampleConfig : CapsConfig := ⟨4, 16, .defaults⟩

/-- The side table with the first token. -/
def sampleTable : ZenohSessionTable :=
  ⟨SortedMap.empty.insert (sampleToken 0) ⟨0, samplePeer, 0, 0⟩,
    SortedMap.empty.insert samplePeer 1, sampleConfig⟩

def firstSlot : Fin sessionTableCap := ⟨0, by decide⟩

/-- The kernel's table without sessions, the first slot at the given generation. -/
def emptied (g : ℕ) : SessionTable := ⟨update (fun _ => .empty) firstSlot ⟨none, g⟩, 0⟩

/-- The tables after an admission of the second token. -/
def occupied (role : Role) (g : ℕ) : State :=
  ({ sampleTable with
      entries := sampleTable.entries.insert (sampleToken 1) ⟨encode firstSlot g, samplePeer, 0, 0⟩
      perIdentity := sampleTable.perIdentity.insert samplePeer 2 },
    ⟨update (emptied g).slots firstSlot ⟨some (sampleSession role), g⟩, 1⟩)

theorem fresh_sample (k : SessionTable) (role : Role) : Fresh (sampleTable, k)
    (.tryAdmitLogin (sampleToken 1) samplePeer 0 (sampleSession role)) := rfl

theorem step_emptied (role : Role) (g : ℕ) : step (sampleTable, emptied g)
    (.tryAdmitLogin (sampleToken 1) samplePeer 0 (sampleSession role)) =
      some (.admitted (.ok (sampleToken 1, encode firstSlot g)), occupied role g) := rfl

theorem release_first (slots : Fin sessionTableCap → Slot) (session : Session) (hg : g < 2 ^ 24) :
    release ⟨update slots firstSlot ⟨some session, g⟩, 1⟩
      (encode firstSlot g) =
        some (.ok session, ⟨update slots firstSlot ⟨none, (g + 1) % 2 ^ 24⟩, 0⟩) := by
  have hgen : generation (encode firstSlot g) = g := by
    rw [generation_encode, Nat.mod_eq_of_lt hg]
  simp [release, hgen, Slot.free, and_genMask]

theorem step_occupied {role : Role} (hg : g < 2 ^ 24) :
    step (occupied role g) (.logout (sampleToken 1)) =
      some (.loggedOut (.ok ()), sampleTable, emptied ((g + 1) % 2 ^ 24)) := by
  have hrel := release_first (emptied g).slots (sampleSession role) hg
  have hslots : update (emptied g).slots firstSlot ⟨none, (g + 1) % 2 ^ 24⟩ =
      (emptied ((g + 1) % 2 ^ 24)).slots := update_idem ..
  rw [hslots] at hrel
  exact congrArg (Option.map _) (congrArg (Option.map _) hrel)

/-- The first token stays in the side table while the first slot of the kernel is used again and
    again. -/
theorem exists_run_emptied (g : ℕ) : ∃ h n,
    Run sampleConfig h n (sampleTable, emptied ((g + 1) % 2 ^ 24)) ∧
      admission h (sampleToken 0) = some ⟨samplePeer, 0, .viewer⟩ := by
  induction g with
  | zero =>
    have hadmit : Run sampleConfig [(_, .tryAdmitLogin (sampleToken 0) samplePeer 0
      (sampleSession .viewer), _)] _ _ := Run.new.step rfl rfl
    have hrel := release_first (fun _ => .empty) (sampleSession .viewer) (Nat.two_pow_pos 24)
    have hstep : step (sampleTable, _) (.kernel (.release 0)) = _ :=
      congrArg (Option.map _) (congrArg (Option.map _) hrel)
    exact ⟨_, _, hadmit.step hstep trivial, rfl⟩
  | succ g ih =>
    obtain ⟨h, n, hrun, hadm⟩ := ih
    have hcycle := (hrun.step (step_emptied .viewer _) (fresh_sample _ _)).step
      (step_occupied (Nat.mod_lt _ (Nat.two_pow_pos 24))) trivial
    rw [Nat.mod_add_mod] at hcycle
    refine ⟨_, _, hcycle, ?_⟩
    rw [admission_cons, admission_cons, hadm]
    rfl

/-- In every run: the count of a peer is that of its entries, an admission leaves no more entries
    than the configuration allows, and a token resolves only for the peer it was admitted for, if it
    was neither logged out, evicted nor reaped since, to the id acquired then. As long as no slot of
    the kernel has been freed `2 ^ 24` times, the role is that of the session admitted. -/
theorem run_binds (hr : Run config h n s) :
    (∀ peer, s.1.countFor peer = s.1.boundTo peer) ∧
    (∀ token peer nowUnix session r s', Fresh s (.tryAdmitLogin token peer nowUnix session) →
      step s (.tryAdmitLogin token peer nowUnix session) = some (.admitted (.ok r), s') →
      s'.1.entries.size ≤ s.1.config.totalMax.toNat ∧
        s'.1.boundTo peer ≤ s.1.config.perIdentityMax.toNat) ∧
    ∀ token peer nowUnix id role s',
      step s (.resolve token peer nowUnix) = some (.resolved (.ok (id, role)), s') →
      ∃ a, admission h token = some a ∧ a.peer = peer ∧ a.sessionId = id ∧
        ((∀ i, n i < 2 ^ 24) → role = a.role) := by
  have hI := hr.inv
  refine ⟨hI.counts, ?_, ?_⟩
  · intro token peer nowUnix session r s' hfresh hs
    have hcounts := (hr.step hs hfresh).inv.counts peer
    rw [← hcounts]
    rcases hz : s.1.tryAdmitLogin s.2 token peer nowUnix session with ⟨r', z', k'⟩
    rw [step, hz] at hs
    cases hs
    rcases tryAdmitLogin_cases hz with ⟨⟨e, he⟩, -, -⟩ | ⟨id, _, -, -, -, htotal, hpeer, rfl⟩
    · cases he
    · rw [Nat.mod_eq_of_lt hI.small] at htotal
      rw [size_insert_of_none hfresh, countFor, count_insert, if_pos rfl]
      exact ⟨htotal, hpeer⟩
  · intro token peer nowUnix id role s' hs
    obtain ⟨hret, -⟩ := Prod.mk.inj (some.inj hs)
    obtain ⟨e, session, he, rfl, rfl, hses, rfl⟩ := resolve_eq_ok (Ret.resolved.inj hret)
    have hbound := hI.bound token
    rw [he] at hbound
    obtain ⟨a, ha, heq⟩ := map_eq_some_iff.1 hbound.symm
    obtain ⟨hpeer, hid⟩ := Prod.mk.inj heq
    refine ⟨a, ha, hpeer, hid, fun hn => ?_⟩
    obtain ⟨kh, hrun, hstands⟩ := hI.stands
    have hK := hrun.inv hn
    rw [hK.agree, ← hid] at hses
    exact (hstands token a ha).2 hK.nodup session hses

/-- A token resolves after its admission. -/
theorem binds_after_admission : ∃ h n s id s', Run sampleConfig h n s ∧
    step s (.resolve (sampleToken 0) samplePeer 0) = some (.resolved (.ok (id, .viewer)), s') ∧
    ∃ a, admission h (sampleToken 0) = some a ∧ a.peer = samplePeer ∧ a.sessionId = id ∧
      a.role = .viewer := by
  have hrun : Run sampleConfig [(_, .tryAdmitLogin (sampleToken 0) samplePeer 0
      (sampleSession .viewer), _)] _ _ := Run.new.step rfl rfl
  refine ⟨_, _, _, _, _, hrun, rfl, ?_⟩
  obtain ⟨a, ha, hpeer, hid, hrole⟩ := (run_binds hrun).2.2 (sampleToken 0) samplePeer 0 _ _ _ rfl
  refine ⟨a, ha, hpeer, hid, (hrole fun i => ?_).symm⟩
  rw [freed, Nat.zero_add]
  exact (Bool.toNat_le _).trans_lt (by decide)

/-- After `2 ^ 24` uses of its slot, a token of a viewer has the role of another session. -/
theorem role_after_rollover : ∃ h n s s', Run sampleConfig h n s ∧
    step s (.resolve (sampleToken 0) samplePeer 0) = some (.resolved (.ok (0, .root)), s') ∧
    admission h (sampleToken 0) = some ⟨samplePeer, 0, .viewer⟩ := by
  obtain ⟨h, n, hrun, hadm⟩ := exists_run_emptied (2 ^ 24 - 1)
  exact ⟨_, _, _, _, hrun.step (step_emptied .root _) (fresh_sample _ _), rfl, hadm⟩

end SmallAIOS.Mgmt.Zenoh
