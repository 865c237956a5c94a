import SmallAIOS.Lib.Keyed
import SmallAIOS.Lib.Slots
import Mathlib.Algebra.Group.Nat.Defs
import Mathlib.Data.Vector.Defs

/-!
# Verified message types and runtime invariant checking

Each message type crossing a trust boundary has an identifier and a list of
invariants to be checked at runtime. Two of them depend on the messages that
passed before: `monotonicTimestamp` and `rateLimit`. `InvariantChecker` tracks
what they need in a table of `maxMessageTypes` states, found by the identifier of
the type. A new type takes the first state not in use, or, if there is none, the
first one.

As long as there is a state for every type, the table stands for one state for
each type (`InvariantChecker.state`), a fresh one to begin with, which checking a
message reads and updates at the type of the message (`check_spec`).

The counter of messages is a machine word of 32 bits: the addition panics when
it overflows, and the call has no outcome (`none`).
-/

namespace SmallAIOS.Security

open Lib Function Keyed
open List hiding Vector

/-- Maximum number of registered message types. -/
def maxMessageTypes : ℕ := 64

/-- Tensor element data type. -/
inductive TensorDtype
  | float32
  | float16
  | int8
  | int32
  | int64
  | uint8
  deriving DecidableEq

/-- The number of a data type. -/
def TensorDtype.toU8 : TensorDtype → ℕ
  | float32 => 1
  | float16 => 2
  | int8 => 3
  | int32 => 4
  | int64 => 5
  | uint8 => 6

/-- Runtime-checkable invariant derived from formal proofs. -/
inductive Invariant
  /-- Tensor rank must be at most this value. -/
  | maxRank (max : ℕ)
  /-- Tensor rank must be at least this value. -/
  | minRank (min : ℕ)
  /-- Tensor element type must equal this one. -/
  | allowedDtype (dtype : TensorDtype)
  /-- Total element count must be at most this value. -/
  | maxElements (max : ℕ)
  /-- Wire-level payload size must be at most this value. -/
  | maxPayloadBytes (max : ℕ)
  /-- Element values must be in the range. -/
  | valueRange (min max : ℤ)
  /-- Value must be a valid variant of an enum with this many variants. -/
  | enumMembership (maxVariant : ℕ)
  /-- No dimension in the tensor shape may be zero. -/
  | nonZeroDimensions
  /-- Timestamp must be strictly greater than the last seen. -/
  | monotonicTimestamp
  /-- Messages must not exceed this rate. -/
  | rateLimit (maxPerSec : ℕ)
  deriving DecidableEq

/-- Metadata about a message being checked against invariants. -/
structure MessageMetadata where
  rank : ℕ
  dtype : ℕ
  elementCount : ℕ
  payloadBytes : ℕ
  dimensions : Vector ℕ 8
  /-- Number of valid entries in `dimensions`. -/
  numDimensions : ℕ
  enumValue : ℕ
  timestamp : ℕ
  /-- Element value for range checking (representative sample). -/
  sampleValue : ℤ
  deriving DecidableEq

/-- Metadata with every field zero. -/
def MessageMetadata.empty : MessageMetadata :=
  ⟨0, 0, 0, 0, .replicate 8 0, 0, 0, 0, 0⟩

/-- Enforcement mode for the security gate. -/
inductive EnforcementMode
  /-- Hard reject on verification failure. -/
  | enforcing
  /-- Log the violation but allow data to flow through. -/
  | permissive
  deriving DecidableEq

/-- A formally verified message type. -/
structure VerifiedMessageType where
  typeId : ℕ
  /-- Enforcement mode for this specific type. -/
  mode : EnforcementMode
  /-- Runtime-checkable invariants. -/
  invariants : List Invariant
  deriving DecidableEq

/-! ## The registry -/

/-- Fixed-size registry of verified message types. -/
structure MessageTypeRegistry where
  types : Slots VerifiedMessageType maxMessageTypes
  count : ℕ

namespace MessageTypeRegistry

def new : MessageTypeRegistry where
  types := .empty _ _
  count := 0

variable (r : MessageTypeRegistry)

/-- Register a new message type; false if the registry is full or the identifier exists already. -/
def register (msgType : VerifiedMessageType) : Bool × MessageTypeRegistry :=
  if r.types.entries.any (·.typeId == msgType.typeId) then (false, r)
  else match r.types.fill? msgType with
    | some types => (true, { types, count := r.count + 1 })
    | none => (false, r)

/-- Look up a message type by its identifier. -/
def lookup (typeId : ℕ) : Option VerifiedMessageType :=
  r.types.entries.find? (·.typeId == typeId)

/-- The identifiers of the registered types. -/
def ids : List ℕ := r.types.entries.map (·.typeId)

variable {r} {m m' : VerifiedMessageType} {typeId : ℕ}

theorem length_ids_le (r : MessageTypeRegistry) : r.ids.length ≤ maxMessageTypes := by
  rw [ids, length_map]
  exact r.types.length_entries_le

theorem mem_ids_iff : typeId ∈ r.ids ↔ ∃ m, r.lookup typeId = some m := by
  rw [← Option.isSome_iff_exists, lookup, find?_isSome, ids, mem_map]
  simp only [beq_iff_eq]

theorem typeId_of_lookup (h : r.lookup typeId = some m) : m.typeId = typeId := by
  have := find?_some h
  exact beq_iff_eq.1 this

/-- A registered type stays as it is, and a new one was not registered before. -/
theorem lookup_register (r : MessageTypeRegistry) (m : VerifiedMessageType) (typeId : ℕ) :
    (r.register m).2.lookup typeId = r.lookup typeId ∨
      r.lookup typeId = none ∧ (r.register m).2.lookup typeId = some m := by
  rw [register]
  split_ifs with hany
  · exact .inl rfl
  split
  · next types hf =>
    obtain ⟨l1, l2, hr, hr'⟩ := Slots.entries_fill?_eq hf
    simp only [lookup, hr, hr', find?_append, find?_cons]
    by_cases hm : m.typeId = typeId
    · have hnone : ∀ x ∈ r.types.entries, ¬ (x.typeId == typeId) = true := by
        simpa [hm] using hany
      rw [hr] at hnone
      have h1 := find?_eq_none.2 fun x hx => hnone x (mem_append_left _ hx)
      have h2 := find?_eq_none.2 fun x hx => hnone x (mem_append_right _ hx)
      exact .inr (by simp [h1, h2, hm])
    · rw [beq_eq_false_iff_ne.2 hm]
      exact .inl rfl
  · exact .inl rfl

end MessageTypeRegistry

/-! ## The checker -/

/-- Per-type stateful invariant tracking. -/
structure TypeState where
  typeId : ℕ
  lastTimestamp : ℕ
  messageCountInWindow : ℕ
  active : Bool
  deriving DecidableEq

open TypeState

namespace TypeState

def empty : TypeState := ⟨0, 0, 0, false⟩

/-- The state of a type before its first message. -/
def fresh (typeId : ℕ) : TypeState := ⟨typeId, 0, 0, true⟩

/-- The type the state is in use for. -/
def key (s : TypeState) : Option ℕ := if s.active then some s.typeId else none

/-- The state after a message has passed. -/
def advance (s : TypeState) (metadata : MessageMetadata) : TypeState :=
  { s with
    lastTimestamp := if metadata.timestamp > 0 then metadata.timestamp else s.lastTimestamp
    messageCountInWindow := s.messageCountInWindow + 1 }

end TypeState

/-- Invariant checker with per-type stateful tracking. -/
structure InvariantChecker where
  states : Vector TypeState maxMessageTypes

namespace InvariantChecker

def new : InvariantChecker := ⟨.replicate _ .empty⟩

/-- Whether the message satisfies the invariant in the state of its type. -/
def checkSingle (invariant : Invariant) (metadata : MessageMetadata) (state : TypeState) : Bool :=
  match invariant with
  | .maxRank max => metadata.rank ≤ max
  | .minRank min => min ≤ metadata.rank
  | .allowedDtype dtype => metadata.dtype == dtype.toU8
  | .maxElements max => metadata.elementCount ≤ max
  | .maxPayloadBytes max => metadata.payloadBytes ≤ max
  | .valueRange min max => min ≤ metadata.sampleValue && metadata.sampleValue ≤ max
  | .enumMembership maxVariant => metadata.enumValue < maxVariant
  | .nonZeroDimensions => (metadata.dimensions.toList.take metadata.numDimensions).all (· != 0)
  | .monotonicTimestamp =>
    -- Zero stands for no message before.
    if state.lastTimestamp == 0 then true else metadata.timestamp > state.lastTimestamp
  | .rateLimit maxPerSec => state.messageCountInWindow < maxPerSec

variable (c : InvariantChecker)

/-- The state in use for the type. -/
def stateIndex (typeId : ℕ) : Option (Fin maxMessageTypes) :=
  Fin.find? fun i => (c.states.get i).active && (c.states.get i).typeId == typeId

/-- The first state not in use, or the first of all if there is none. -/
def freeIndex : Fin maxMessageTypes :=
  (Fin.find? fun i => !(c.states.get i).active).getD ⟨0, by decide⟩

/-- The state in use for the type, or a new one. -/
def getOrCreateStateIndex (typeId : ℕ) : Fin maxMessageTypes × InvariantChecker :=
  match c.stateIndex typeId with
  | some idx => (idx, c)
  | none => (c.freeIndex, ⟨c.states.set c.freeIndex (.fresh typeId)⟩)

/-- Check all invariants for a message type against the given metadata: the index of the first
    failing invariant, as a byte, or nothing if all pass. -/
def check (msgType : VerifiedMessageType) (metadata : MessageMetadata) :
    Option (Option ℕ × InvariantChecker) :=
  let (idx, c) := c.getOrCreateStateIndex msgType.typeId
  let state := c.states.get idx
  match msgType.invariants.findIdx? fun inv => !checkSingle inv metadata state with
  | some i => some (some (i % 256), c)
  | none =>
    -- The increment of the counter overflows.
    if 2 ^ 32 ≤ state.messageCountInWindow + 1 then none
    else some (none, ⟨c.states.set idx (state.advance metadata)⟩)

/-- Reset rate limit window for a type. -/
def resetRateWindow (typeId : ℕ) : InvariantChecker :=
  match c.stateIndex typeId with
  | some idx => ⟨c.states.set idx { c.states.get idx with messageCountInWindow := 0 }⟩
  | none => c

/-! ### One state for each type -/

/-- No two states are in use for one type. -/
def Distinct : Prop := Keyed.Distinct key c.states

/-- The types with a state. -/
def Tracks (typeId : ℕ) : Prop := ∃ i, (c.states.get i).key = some typeId

/-- The state of a type, whether it is in the table or not yet. -/
def state (typeId : ℕ) : TypeState :=
  (entry key c.states typeId).getD (.fresh typeId)

variable {c} {c' : InvariantChecker} {typeId : ℕ} {m : VerifiedMessageType}
  {metadata : MessageMetadata} {res : Option ℕ} {i : Fin maxMessageTypes} {s : TypeState}

theorem stateIndex_eq : c.stateIndex = find key c.states := by
  funext typeId
  rw [stateIndex]
  congr 1
  funext i
  rw [key]
  cases (c.states.get i).active <;> simp

theorem stateIndex_eq_none : c.stateIndex typeId = none ↔ ¬ c.Tracks typeId := by
  rw [stateIndex_eq, find_eq_none, Tracks, not_exists]

theorem key_of_stateIndex (h : c.stateIndex typeId = some i) :
    (c.states.get i).key = some typeId := by
  rw [stateIndex_eq] at h
  exact key_of_find h

theorem state_of_key (hd : c.Distinct) (hi : (c.states.get i).key = some typeId) :
    c.state typeId = c.states.get i := by
  rw [state, hd.entry_eq_some.2 ⟨i, hi, rfl⟩, Option.getD_some]

theorem state_of_not_tracks (h : ¬ c.Tracks typeId) : c.state typeId = .fresh typeId := by
  rw [← stateIndex_eq_none, stateIndex_eq] at h
  rw [state, entry, h]
  rfl

/-- Between `c` and `c'`, the state of one type has been set to `s`. -/
structure Updates (c c' : InvariantChecker) (typeId : ℕ) (s : TypeState) : Prop where
  distinct : c'.Distinct
  state_eq : c'.state = update c.state typeId s
  tracks_iff : ∀ k, c'.Tracks k ↔ c.Tracks k ∨ k = typeId

/-- Write the state of a type where it is, or to one not in use if there is none. -/
theorem updates_set (hd : c.Distinct) (hs : s.key = some typeId)
    (hi : ∀ j, (c.states.get j).key = some typeId → j = i)
    (hk : ∀ k, (c.states.get i).key = some k → k = typeId) :
    Updates c ⟨c.states.set i s i.isLt⟩ typeId s where
  distinct := hd.set hs hi
  state_eq := by
    funext k
    rw [state, hd.entry_set hs hi hk]
    by_cases hkt : k = typeId
    · subst hkt
      rw [update_self, update_self, Option.getD_some]
    · rw [update_of_ne hkt, update_of_ne hkt, state]
  tracks_iff k := by
    simp only [Tracks, get_set]
    constructor
    · rintro ⟨j, hj⟩
      split_ifs at hj
      · exact .inr (Option.some_inj.1 (hj.symm.trans hs))
      · exact .inl ⟨j, hj⟩
    · rintro (⟨j, hj⟩ | rfl)
      · by_cases hji : j = i
        · subst hji
          exact ⟨j, by rw [if_pos rfl, hs, hk k hj]⟩
        · exact ⟨j, by rw [if_neg hji, hj]⟩
      · exact ⟨i, by rw [if_pos rfl, hs]⟩

/-- A state in use is written in place. -/
theorem updates_set_self (hd : c.Distinct) (hs : s.key = some typeId)
    (hi : (c.states.get i).key = some typeId) : Updates c ⟨c.states.set i s i.isLt⟩ typeId s :=
  updates_set hd hs (fun j hj => hd j i typeId hj hi)
    fun _ hk => Option.some_inj.1 (hk.symm.trans hi)

theorem key_freeIndex (h : ∃ i, (c.states.get i).key = none) :
    (c.states.get c.freeIndex).key = none := by
  obtain ⟨i, hi⟩ := h
  have hactive : (c.states.get i).active = false := by
    rw [key] at hi
    split_ifs at hi with h
    exact Bool.not_eq_true _ ▸ h
  cases hf : Fin.find? fun i => !(c.states.get i).active with
  | none =>
    have := Fin.find?_eq_none_iff.1 hf i
    rw [hactive] at this
    cases this
  | some j =>
    have := (Fin.find?_eq_some_iff.1 hf).1
    rw [freeIndex, hf, key, if_neg (by simpa using this)]

/-- The state found is that of the type, and no state changes. -/
theorem getOrCreateStateIndex_spec (hd : c.Distinct)
    (hroom : ¬ c.Tracks typeId → ∃ i, (c.states.get i).key = none)
    (h : c.getOrCreateStateIndex typeId = (i, c')) :
    c'.states.get i = c.state typeId ∧ (c'.states.get i).key = some typeId ∧
      Updates c c' typeId (c.state typeId) := by
  unfold getOrCreateStateIndex at h
  split at h
  · next idx hidx =>
    cases h
    have hi := key_of_stateIndex hidx
    have hst := state_of_key hd hi
    refine ⟨hst.symm, hi, hd, (update_eq_self ..).symm, fun k => ?_⟩
    exact ⟨.inl, fun hk => hk.elim id fun hk => hk ▸ ⟨i, hi⟩⟩
  · next hidx =>
    have hnot := stateIndex_eq_none.1 hidx
    rw [state_of_not_tracks hnot]
    cases h
    refine ⟨get_set_self .., by rw [get_set_self]; rfl, ?_⟩
    refine updates_set hd rfl (fun j hj => absurd ⟨j, hj⟩ hnot) fun k hk => ?_
    rw [key_freeIndex (hroom hnot)] at hk
    cases hk

/-- A message passes if it satisfies the invariants in the state of its type, which then advances.
    Otherwise no state changes. -/
theorem check_spec (hd : c.Distinct)
    (hroom : ¬ c.Tracks m.typeId → ∃ i, (c.states.get i).key = none)
    (h : c.check m metadata = some (res, c')) :
    (res = none ∧ (∀ inv ∈ m.invariants, checkSingle inv metadata (c.state m.typeId)) ∧
      Updates c c' m.typeId ((c.state m.typeId).advance metadata)) ∨
    (res ≠ none ∧ Updates c c' m.typeId (c.state m.typeId)) := by
  unfold check at h
  rcases hg : c.getOrCreateStateIndex m.typeId with ⟨i, c1⟩
  obtain ⟨hst, hkey, hup⟩ := getOrCreateStateIndex_spec hd hroom hg
  simp only [hg, hst] at h
  split at h
  · cases h
    exact .inr ⟨Option.some_ne_none _, hup⟩
  · next hall =>
    split_ifs at h
    cases h
    refine .inl ⟨rfl, ?_, ?_⟩
    · simpa using findIdx?_eq_none_iff.1 hall
    · have hk : ((c.state m.typeId).advance metadata).key = some m.typeId := by
        rw [← hst]
        exact hkey
      have := updates_set_self hup.distinct hk hkey
      refine ⟨this.distinct, ?_, fun k => ?_⟩
      · rw [this.state_eq, hup.state_eq, update_idem]
      · rw [this.tracks_iff, hup.tracks_iff, or_assoc, or_self]

/-- Resetting the window clears the counter of the type. -/
theorem resetRateWindow_spec (hd : c.Distinct) (typeId : ℕ) :
    (c.resetRateWindow typeId).Distinct ∧ (∀ k, (c.resetRateWindow typeId).Tracks k ↔ c.Tracks k) ∧
      (c.resetRateWindow typeId).state = update c.state typeId
        { c.state typeId with messageCountInWindow := 0 } := by
  unfold resetRateWindow
  split
  · next i hi =>
    have hkey := key_of_stateIndex hi
    have := updates_set_self (s := { c.states.get i with messageCountInWindow := 0 }) hd hkey hkey
    refine ⟨this.distinct, fun k => ?_, ?_⟩
    · rw [this.tracks_iff, or_iff_left_iff_imp]
      rintro rfl
      exact ⟨i, hkey⟩
    · rw [this.state_eq, state_of_key hd hkey]
  · next hn =>
    refine ⟨hd, fun _ => .rfl, ?_⟩
    rw [state_of_not_tracks (stateIndex_eq_none.1 hn), eq_comm, update_eq_self_iff]
    exact (state_of_not_tracks (stateIndex_eq_none.1 hn)).symm

theorem not_tracks_new : ¬ new.Tracks typeId := by
  rintro ⟨i, hi⟩
  rw [new, show (Vector.replicate maxMessageTypes empty).get i = .empty from
    Vector.getElem_replicate _] at hi
  cases hi

theorem distinct_new : new.Distinct := fun i _ _ hi _ => absurd ⟨i, hi⟩ not_tracks_new

end InvariantChecker

end SmallAIOS.Security
