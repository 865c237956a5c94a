import SmallAIOS.Security.Capability
import SmallAIOS.Security.MessageTypes

/-!
# The security gate

Every message crossing a trust boundary passes through the gate. It checks the
capability of the task, the classification and the integrity of the data, and the
invariants of the type of the message. A failure is a denial or, in permissive
mode, a pass that is recorded as such.

A `Firewall` is a gate with the registry of types its messages are checked
against, which grows by `register`. Along a run, the timestamps of the messages
of a type that carries `monotonicTimestamp` and passed the gate increase, and no
more messages of a type that carries `rateLimit` pass without a reset of its
window than the limit allows (`Firewall.run_obeys`). For the timestamps, a message
with timestamp zero must be the first of its type: the checker takes zero for no
message before (`Firewall.check_zero_twice`).

The counters of the gate are machine words of 64 bits: an addition that overflows
panics, and the call has no outcome (`none`).
-/

namespace SmallAIOS.Security

open Lib Function Option InvariantChecker MessageTypeRegistry
open List hiding Vector

/-! ## Labels and verdicts -/

/-- Integrity levels following the Biba integrity model. -/
inductive IntegrityLevel
  | low
  | medium
  | high
  deriving DecidableEq

namespace IntegrityLevel

def toNat : IntegrityLevel → ℕ
  | low => 0
  | medium => 1
  | high => 2

/-- Whether data of this level may flow to a destination requiring `dest`. -/
def mayFlowTo (l dest : IntegrityLevel) : Bool := dest.toNat ≤ l.toNat

end IntegrityLevel

/-- Data classification levels, from lowest to highest sensitivity. -/
inductive ClassificationLevel
  | «public»
  | internal
  | restricted
  deriving DecidableEq

def ClassificationLevel.toNat : ClassificationLevel → ℕ
  | «public» => 0
  | internal => 1
  | restricted => 2

/-- Security label attached to data crossing trust boundaries. -/
structure SecurityLabel where
  classification : ClassificationLevel
  integrity : IntegrityLevel
  /-- Verified message type (none = untyped). -/
  messageType : Option ℕ
  deriving DecidableEq

/-- Trust boundary types. -/
inductive TrustBoundary
  | kernel
  | kubernetes
  | network
  | busProtocol
  | gpu
  deriving DecidableEq

/-- Number of trust boundaries. -/
def numBoundaries : ℕ := 5

/-- The place of a boundary in the array of modes. -/
def TrustBoundary.index : TrustBoundary → Fin numBoundaries
  | kernel => ⟨0, by decide⟩
  | kubernetes => ⟨1, by decide⟩
  | network => ⟨2, by decide⟩
  | busProtocol => ⟨3, by decide⟩
  | gpu => ⟨4, by decide⟩

/-- Reason a gate check denied (or would deny) a crossing. -/
inductive DenyReason
  | missingCapability
  | classificationViolation
  | integrityViolation
  | unknownMessageType
  /-- A specific invariant failed (index into the invariants of the type). -/
  | invariantFailed (index : ℕ)
  | modelNotWhitelisted
  | policySignatureInvalid
  deriving DecidableEq

/-- Verdict from a gate check. -/
inductive GateVerdict
  /-- All verification layers passed. -/
  | allowed
  /-- A verification layer failed and the mode is enforcing. -/
  | denied (layer : ℕ) (reason : DenyReason)
  /-- A verification layer failed but the mode is permissive. -/
  | permissivePass (layer : ℕ) (reason : DenyReason)
  deriving DecidableEq

/-- Resolve the enforcement mode: that of the type, or else that of the boundary. -/
def resolveMode (typeMode : Option EnforcementMode) (boundaryMode _globalMode : EnforcementMode) :
    EnforcementMode :=
  typeMode.getD boundaryMode

/-! ## The gate -/

/-- A data crossing at a trust boundary, to be checked by the gate. -/
structure BoundaryCrossing where
  boundary : TrustBoundary
  taskId : ℕ
  label : SecurityLabel
  resource : ResourceRef
  requiredPermissions : Permissions
  metadata : MessageMetadata
  destIntegrity : IntegrityLevel
  destMaxClassification : ClassificationLevel
  /-- Current time (for capability expiry checks). -/
  now : ℕ

/-- The formal methods firewall gate. -/
structure SecurityGate where
  /-- Per-boundary enforcement modes. -/
  boundaryModes : Vector EnforcementMode numBoundaries
  globalMode : EnforcementMode
  invariantChecker : InvariantChecker
  totalChecks : ℕ
  totalAllowed : ℕ
  totalDenied : ℕ
  totalPermissivePasses : ℕ

/-- Count one more; the addition overflows at the size of a word. -/
def countOne (n : ℕ) : Option ℕ := if 2 ^ 64 ≤ n + 1 then none else some (n + 1)

namespace SecurityGate

def new (globalMode : EnforcementMode) : SecurityGate where
  boundaryModes := .replicate _ globalMode
  globalMode
  invariantChecker := .new
  totalChecks := 0
  totalAllowed := 0
  totalDenied := 0
  totalPermissivePasses := 0

variable (g : SecurityGate)

def setBoundaryMode (boundary : TrustBoundary) (mode : EnforcementMode) : SecurityGate :=
  { g with boundaryModes := g.boundaryModes.set boundary.index mode }

def boundaryMode (boundary : TrustBoundary) : EnforcementMode :=
  g.boundaryModes.get boundary.index

/-- Resolve enforcement mode and produce verdict for a failure. -/
def makeVerdict (crossing : BoundaryCrossing) (layer : ℕ) (reason : DenyReason)
    (types : MessageTypeRegistry) : Option (GateVerdict × SecurityGate) :=
  let typeMode := (crossing.label.messageType.bind types.lookup).map (·.mode)
  match resolveMode typeMode (g.boundaryMode crossing.boundary) g.globalMode with
  | .enforcing => (countOne g.totalDenied).map fun n =>
      (.denied layer reason, { g with totalDenied := n })
  | .permissive => (countOne g.totalPermissivePasses).map fun n =>
      (.permissivePass layer reason, { g with totalPermissivePasses := n })

/-- All layers passed. -/
def allow : Option (GateVerdict × SecurityGate) :=
  (countOne g.totalAllowed).map fun n => (.allowed, { g with totalAllowed := n })

/-- The last layer: the message type and its invariants. Untyped messages skip it. -/
def checkType (crossing : BoundaryCrossing) (types : MessageTypeRegistry) :
    Option (GateVerdict × SecurityGate) :=
  match crossing.label.messageType with
  | none => g.allow
  | some typeId =>
    match types.lookup typeId with
    | none => g.makeVerdict crossing 4 .unknownMessageType types
    | some msgType => do
      let (failed, invariantChecker) ← g.invariantChecker.check msgType crossing.metadata
      let g := { g with invariantChecker }
      match failed with
      | some index => g.makeVerdict crossing 4 (.invariantFailed index) types
      | none => g.allow

/-- Run the verification pipeline. -/
def check (crossing : BoundaryCrossing) (caps : CapRegistry) (types : MessageTypeRegistry) :
    Option (GateVerdict × SecurityGate) := do
  let totalChecks ← countOne g.totalChecks
  let g := { g with totalChecks }
  if !(caps.check crossing.taskId crossing.resource crossing.requiredPermissions
      crossing.now).isOk then
    g.makeVerdict crossing 1 .missingCapability types
  else if crossing.destMaxClassification.toNat < crossing.label.classification.toNat then
    g.makeVerdict crossing 2 .classificationViolation types
  else if !crossing.label.integrity.mayFlowTo crossing.destIntegrity then
    g.makeVerdict crossing 3 .integrityViolation types
  else g.checkType crossing types

/-- Reset rate limit window for a message type. -/
def resetRateWindow (typeId : ℕ) : SecurityGate :=
  { g with invariantChecker := g.invariantChecker.resetRateWindow typeId }

variable {g} {g' : SecurityGate} {crossing : BoundaryCrossing} {caps : CapRegistry}
  {types : MessageTypeRegistry} {v : GateVerdict} {layer : ℕ} {reason : DenyReason}

theorem makeVerdict_some (h : g.makeVerdict crossing layer reason types = some (v, g')) :
    v ≠ .allowed ∧ g'.invariantChecker = g.invariantChecker := by
  unfold makeVerdict at h
  dsimp only at h
  split at h <;> obtain ⟨n, -, h⟩ := map_eq_some_iff.1 h <;> cases h <;> simp

theorem allow_some (h : g.allow = some (v, g')) :
    v = .allowed ∧ g'.invariantChecker = g.invariantChecker := by
  obtain ⟨n, -, h⟩ := map_eq_some_iff.1 h
  cases h
  exact ⟨rfl, rfl⟩

/-- What a check does to the states of the types: nothing, and then no typed message is allowed, or
    the check of the invariants of the type of the message, which decides. -/
inductive CheckStep (checker : InvariantChecker) (crossing : BoundaryCrossing)
    (types : MessageTypeRegistry) : GateVerdict → InvariantChecker → Prop
  | untouched {v : GateVerdict} : (v = .allowed → crossing.label.messageType = none) →
    CheckStep checker crossing types v checker
  | checked {v : GateVerdict} {checker' : InvariantChecker} {typeId : ℕ}
      {msgType : VerifiedMessageType} {failed : Option ℕ} :
    crossing.label.messageType = some typeId → types.lookup typeId = some msgType →
    checker.check msgType crossing.metadata = some (failed, checker') →
    (v = .allowed ↔ failed = none) → CheckStep checker crossing types v checker'

theorem makeVerdict_step (h : g.makeVerdict crossing layer reason types = some (v, g')) :
    CheckStep g.invariantChecker crossing types v g'.invariantChecker := by
  obtain ⟨hv, hg⟩ := makeVerdict_some h
  exact hg ▸ .untouched fun ha => absurd ha hv

theorem checkType_step (h : g.checkType crossing types = some (v, g')) :
    CheckStep g.invariantChecker crossing types v g'.invariantChecker := by
  unfold checkType at h
  split at h
  · next hn => exact (allow_some h).2 ▸ .untouched fun _ => hn
  next typeId ht =>
  split at h
  · exact makeVerdict_step h
  next msgType hm =>
  obtain ⟨⟨failed, checker'⟩, hc, h⟩ := bind_eq_some_iff.1 h
  dsimp only at h
  split at h
  · obtain ⟨hv, hg⟩ := makeVerdict_some h
    rw [hg]
    exact .checked ht hm hc (iff_of_false hv (some_ne_none _))
  · obtain ⟨hv, hg⟩ := allow_some h
    rw [hg]
    exact .checked ht hm hc (iff_of_true hv rfl)

theorem check_step (h : g.check crossing caps types = some (v, g')) :
    CheckStep g.invariantChecker crossing types v g'.invariantChecker := by
  obtain ⟨n, -, h⟩ := bind_eq_some_iff.1 h
  change CheckStep { g with totalChecks := n }.invariantChecker crossing types v _
  split_ifs at h
  · exact makeVerdict_step h
  · exact makeVerdict_step h
  · exact makeVerdict_step h
  · exact checkType_step h

end SecurityGate

/-! ## Runs -/

/-- A gate with the registry of types its messages are checked against. -/
structure Firewall where
  gate : SecurityGate
  types : MessageTypeRegistry

namespace Firewall

/-- A call on the gate or on its registry. -/
inductive Call
  | register (msgType : VerifiedMessageType)
  | check (crossing : BoundaryCrossing) (caps : CapRegistry)
  | resetRateWindow (typeId : ℕ)
  | setBoundaryMode (boundary : TrustBoundary) (mode : EnforcementMode)

/-- What a call returns. -/
inductive Ret
  | registered (ok : Bool)
  | verdict (v : GateVerdict)
  | unit
  deriving DecidableEq

def new (globalMode : EnforcementMode) : Firewall := ⟨.new globalMode, .new⟩

variable (s : Firewall)

/-- The states of the types. -/
abbrev checker : InvariantChecker := s.gate.invariantChecker

def step : Call → Option (Ret × Firewall)
  | .register m =>
    let (ok, types) := s.types.register m
    some (.registered ok, { s with types })
  | .check crossing caps => (s.gate.check crossing caps s.types).map fun r =>
      (.verdict r.1, { s with gate := r.2 })
  | .resetRateWindow typeId => some (.unit, { s with gate := s.gate.resetRateWindow typeId })
  | .setBoundaryMode b mode => some (.unit, { s with gate := s.gate.setBoundaryMode b mode })

/-- The timestamp of the message of the type that a call checks. -/
def stamp (typeId : ℕ) : Call → Option ℕ
  | .check crossing _ =>
    if crossing.label.messageType = some typeId then some crossing.metadata.timestamp else none
  | _ => none

/-- The timestamp of the message of the type that passed the check. -/
def passed (typeId : ℕ) (e : Call × Ret) : Option ℕ :=
  if e.2 = .verdict .allowed then stamp typeId e.1 else none

/-- The call resets the window of the type. -/
def isReset (typeId : ℕ) : Call × Ret → Bool
  | (.resetRateWindow k, _) => k == typeId
  | _ => false

/-- A message with timestamp zero of a type that carries `monotonicTimestamp` is checked only if
    none of its type has been checked before. -/
def Timed (s : Firewall) (a : Call) : Prop :=
  ∀ typeId m, s.types.lookup typeId = some m → .monotonicTimestamp ∈ m.invariants →
    stamp typeId a = some 0 → s.checker.stateIndex typeId = none

/-- What a call does to the state of one type. -/
inductive TypeStep (typeId : ℕ) (types : MessageTypeRegistry) (st : TypeState) (e : Call × Ret) :
    TypeState → Prop
  | skip : passed typeId e = none → isReset typeId e = false → TypeStep typeId types st e st
  | pass {m : VerifiedMessageType} {metadata : MessageMetadata} :
    passed typeId e = some metadata.timestamp → isReset typeId e = false →
    types.lookup typeId = some m →
    (∀ inv ∈ m.invariants, checkSingle inv metadata st) →
    TypeStep typeId types st e (st.advance metadata)
  | reset : passed typeId e = none → isReset typeId e = true →
    TypeStep typeId types st e { st with messageCountInWindow := 0 }

/-- The number of messages of the type that passed since the last reset of its window. -/
def window (typeId : ℕ) (t : List (Call × Ret)) : ℕ :=
  ((t.takeWhile (!isReset typeId ·)).filterMap (passed typeId)).length

section TypeStep

variable {typeId : ℕ} {types : MessageTypeRegistry} {st st' : TypeState} {e : Call × Ret}
  {t : List (Call × Ret)} {m : VerifiedMessageType}

theorem window_cons : window typeId (e :: t) =
    if isReset typeId e then 0 else (passed typeId e).toList.length + window typeId t := by
  rw [window, takeWhile_cons]
  cases isReset typeId e
  · simp only [Bool.not_false, if_true, filterMap_cons_toList, length_append]
    rfl
  · rfl

/-- A stretch without a reset has no more passes than the window it ends. -/
theorem length_passed_le {w b : List (Call × Ret)} (hw : ∀ e ∈ w, isReset typeId e = false) :
    (w.filterMap (passed typeId)).length ≤ window typeId (w ++ b) := by
  have hw' : ∀ e ∈ w, (!isReset typeId e) = true := fun e he => by rw [hw e he]; rfl
  rw [window, takeWhile_append_of_pos hw', filterMap_append, length_append]
  exact Nat.le_add_right _ _

/-- The counter of the state is the number of passes in the window. -/
theorem TypeStep.window_eq (h : TypeStep typeId types st e st')
    (hc : window typeId t = st.messageCountInWindow) :
    window typeId (e :: t) = st'.messageCountInWindow := by
  rw [window_cons, hc]
  cases h with
  | skip hp hr => simp [hp, hr]
  | pass hp hr _ _ => simp [hp, hr, TypeState.advance, Nat.add_comm]
  | reset hp hr => simp [hr]

/-- In no window so far have more messages of the type passed than it allows. -/
def Limited (typeId : ℕ) (m : VerifiedMessageType) (t : List (Call × Ret)) : Prop :=
  ∀ n, .rateLimit n ∈ m.invariants → ∀ t', t' <:+ t → window typeId t' ≤ n

/-- The timestamps of the messages of the type that passed so far increase, if they have to, and the
    one kept bounds them. -/
def Increasing (typeId : ℕ) (m : VerifiedMessageType) (t : List (Call × Ret)) (st : TypeState) :
    Prop :=
  .monotonicTimestamp ∈ m.invariants → (t.filterMap (passed typeId)).Pairwise (· > ·) ∧
    ∀ ts ∈ t.filterMap (passed typeId), ts ≤ st.lastTimestamp

theorem Limited.of_nil (h : t.filterMap (passed typeId) = []) : Limited typeId m t := by
  intro n _ t' ht'
  have hsub := (( takeWhile_prefix (!isReset typeId ·)).sublist.trans ht'.sublist).filterMap
    (passed typeId)
  rw [h, sublist_nil] at hsub
  rw [window, hsub]
  exact Nat.zero_le n

theorem Increasing.of_nil (h : t.filterMap (passed typeId) = []) : Increasing typeId m t st := by
  intro _
  rw [h]
  exact ⟨.nil, fun _ hts => absurd hts not_mem_nil⟩

theorem Limited.step (ho : Limited typeId m t) (h : TypeStep typeId types st e st')
    (hm : types.lookup typeId = some m) (hc : window typeId t = st.messageCountInWindow) :
    Limited typeId m (e :: t) := by
  intro n hn t' ht'
  rcases suffix_cons_iff.1 ht' with rfl | ht'
  · have hold := ho n hn t suffix_rfl
    rw [h.window_eq hc]
    cases h with
    | skip _ _ => exact hc ▸ hold
    | reset _ _ => exact Nat.zero_le n
    | pass _ _ hm' hall =>
      cases hm.symm.trans hm'
      exact of_decide_eq_true (hall _ hn)
  · exact ho n hn t' ht'

theorem Increasing.step (ho : Increasing typeId m t st) (h : TypeStep typeId types st e st')
    (hm : types.lookup typeId = some m)
    (hzero : .monotonicTimestamp ∈ m.invariants → passed typeId e = some 0 →
      t.filterMap (passed typeId) = []) : Increasing typeId m (e :: t) st' := by
  intro hmono
  obtain ⟨hpw, hle⟩ := ho hmono
  rw [filterMap_cons_toList]
  cases h with
  | skip hp _ | reset hp _ =>
    rw [hp]
    exact ⟨hpw, hle⟩
  | @pass m' metadata hp _ hm' hall =>
    cases hm.symm.trans hm'
    have hsingle := hall _ hmono
    rw [hp]
    by_cases hts : metadata.timestamp = 0
    · rw [hzero hmono (hts ▸ hp), hts]
      simp
    -- The timestamp is above the last one kept, which is zero before the first.
    have hgt : ∀ ts ∈ t.filterMap (passed typeId), ts < metadata.timestamp := by
      intro ts hmem
      have := hle ts hmem
      simp only [checkSingle, beq_iff_eq] at hsingle
      split_ifs at hsingle with hlast
      · omega
      · simp only [decide_eq_true_eq] at hsingle
        omega
    refine ⟨pairwise_cons.2 ⟨hgt, hpw⟩, fun ts hmem => ?_⟩
    rw [TypeState.advance, if_pos (Nat.pos_of_ne_zero hts)]
    rcases mem_cons.1 hmem with rfl | hmem
    · exact Nat.le_refl _
    · exact Nat.le_of_lt (hgt ts hmem)

end TypeStep

variable {s s' : Firewall} {t : List (Call × Ret)} {a : Call} {r : Ret} {k : ℕ}
  {m : VerifiedMessageType} {mode : EnforcementMode}

/-- Every state in use is that of a registered type, and of one only. -/
structure Sound (s : Firewall) : Prop where
  distinct : s.checker.Distinct
  registered : ∀ k, s.checker.Tracks k → k ∈ s.types.ids

/-- There is a state for every registered type. -/
theorem Sound.room (hs : Sound s) (hm : s.types.lookup k = some m)
    (hk : ¬ s.checker.Tracks k) : ∃ i, (s.checker.states.get i).key = none := by
  refine hs.distinct.exists_free s.types.length_ids_le (fun i k' hi => hs.registered k' ⟨i, hi⟩)
    (mem_ids_iff.2 ⟨m, hm⟩) ?_
  rwa [← stateIndex_eq, stateIndex_eq_none]

/-- What a call does: to each type, and to the table. -/
structure Steps (s : Firewall) (e : Call × Ret) (s' : Firewall) : Prop where
  sound : Sound s'
  type : ∀ k, TypeStep k s.types (s.checker.state k) e (s'.checker.state k)
  tracks : ∀ k, s.checker.Tracks k ∨ passed k e ≠ none → s'.checker.Tracks k
  lookup : ∀ k, s'.types.lookup k = s.types.lookup k ∨
    s.types.lookup k = none ∧ ∀ k, passed k e = none

/-- A check that leaves the states alone. -/
theorem Steps.of_checker_eq {e : Call × Ret} (hs : Sound s) (hc : s'.checker = s.checker)
    (hids : ∀ k, k ∈ s.types.ids → k ∈ s'.types.ids) (hp : ∀ k, passed k e = none)
    (hr : ∀ k, isReset k e = false)
    (hl : ∀ k, s'.types.lookup k = s.types.lookup k ∨ s.types.lookup k = none) : Steps s e s' where
  sound := ⟨hc ▸ hs.distinct, fun k hk => hids k (hs.registered k (hc ▸ hk))⟩
  type k := hc ▸ .skip (hp k) (hr k)
  tracks k h := hc ▸ h.resolve_right fun h => h (hp k)
  lookup k := (hl k).imp_right fun h => ⟨h, hp⟩

variable {crossing : BoundaryCrossing} {caps : CapRegistry} {v : GateVerdict}

/-- A check is of one message type, and no other one passes. -/
theorem passed_check_of_ne {typeId k : ℕ} (ht : crossing.label.messageType = some typeId)
    (hk : k ≠ typeId) : passed k (.check crossing caps, .verdict v) = none := by
  have : ¬ crossing.label.messageType = some k := fun h =>
    hk (some_inj.1 (h.symm.trans ht))
  rw [passed, stamp, if_neg this, ite_self]

theorem steps_check {gate : SecurityGate} (hs : Sound s)
    (h : s.gate.check crossing caps s.types = some (v, gate)) :
    Steps s (.check crossing caps, .verdict v) { s with gate } := by
  have hcs := SecurityGate.check_step h
  generalize hc' : gate.invariantChecker = checker' at hcs
  cases hcs with
  | untouched hv =>
    refine .of_checker_eq hs hc' (fun _ => id) (fun k => ?_) (fun _ => rfl) fun _ => .inl rfl
    rw [passed, stamp]
    split_ifs with hva hk
    · cases hva
      rw [hv rfl] at hk
      cases hk
    · rfl
    · rfl
  | @checked _ typeId m failed ht hm hc hv =>
    subst hc'
    obtain rfl := typeId_of_lookup hm
    have hreg := mem_ids_iff.2 ⟨m, hm⟩
    -- The type of the message advances or stays, and the others stay.
    obtain ⟨st, hup, hst⟩ : ∃ st, s.checker.Updates gate.invariantChecker m.typeId st ∧
        TypeStep m.typeId s.types (s.checker.state m.typeId) (.check crossing caps, .verdict v)
          st := by
      rcases check_spec hs.distinct (hs.room hm) hc with
        ⟨hf, hall, hup⟩ | ⟨hf, hup⟩
      · refine ⟨_, hup, .pass ?_ rfl hm hall⟩
        rw [passed, if_pos (congrArg Ret.verdict (hv.2 hf)), stamp, if_pos ht]
      · refine ⟨_, hup, .skip ?_ rfl⟩
        rw [passed, if_neg fun h => hf (hv.1 (Ret.verdict.inj h))]
    refine ⟨⟨hup.distinct, fun k hk => ?_⟩, fun k => ?_, fun k hk => ?_, fun _ => .inl rfl⟩
    · rcases (hup.tracks_iff k).1 hk with hk | rfl
      · exact hs.registered k hk
      · exact hreg
    · rw [hup.state_eq]
      by_cases hk : k = m.typeId
      · rw [hk, update_self]
        exact hst
      · rw [update_of_ne hk]
        exact .skip (passed_check_of_ne ht hk) rfl
    · refine (hup.tracks_iff k).2 ?_
      exact hk.imp_right fun h => by_contra fun hne => h (passed_check_of_ne ht hne)

/-- What a call does. -/
theorem steps_of_step (hs : Sound s) (h : s.step a = some (r, s')) : Steps s (a, r) s' := by
  cases a with
  | register m =>
    cases h
    have hlookup := s.types.lookup_register m
    refine .of_checker_eq hs rfl (fun k hk => ?_) (fun _ => rfl) (fun _ => rfl) fun k =>
      (hlookup k).imp_right And.left
    obtain ⟨m', hm'⟩ := mem_ids_iff.1 hk
    refine mem_ids_iff.2 ?_
    rcases hlookup k with h | h
    · exact ⟨m', h.trans hm'⟩
    · exact ⟨m, h.2⟩
  | check crossing caps =>
    obtain ⟨⟨v, gate⟩, hv, h⟩ := map_eq_some_iff.1 h
    cases h
    exact steps_check hs hv
  | resetRateWindow typeId =>
    cases h
    obtain ⟨hd, ht, hst⟩ := resetRateWindow_spec hs.distinct typeId
    refine ⟨⟨hd, fun k hk => hs.registered k ((ht k).1 hk)⟩, fun k => ?_, fun k hk => ?_,
      fun _ => .inl rfl⟩
    · change TypeStep k s.types _ _ ((s.checker.resetRateWindow typeId).state k)
      rw [hst]
      by_cases hk : k = typeId
      · rw [hk, update_self]
        exact .reset rfl (beq_self_eq_true typeId)
      · rw [update_of_ne hk]
        exact .skip rfl (beq_eq_false_iff_ne.2 (Ne.symm hk))
    · exact (ht k).2 (hk.resolve_right fun h => h rfl)
  | setBoundaryMode b mode =>
    cases h
    exact .of_checker_eq hs rfl (fun _ => id) (fun _ => rfl) (fun _ => rfl) fun _ => .inl rfl

/-- The states of the types after a run, against its messages. -/
structure Inv (t : List (Call × Ret)) (s : Firewall) : Prop where
  sound : Sound s
  passed_tracked : ∀ k, ¬ s.checker.Tracks k → t.filterMap (passed k) = []
  window_eq : ∀ k, window k t = (s.checker.state k).messageCountInWindow
  limited : ∀ k m, s.types.lookup k = some m → Limited k m t

theorem inv_new : Inv [] (new mode) where
  sound := ⟨distinct_new, fun _ hk => absurd hk not_tracks_new⟩
  passed_tracked _ _ := rfl
  window_eq k := by
    rfl
  limited _ _ _ := .of_nil rfl

/-- A type is the same before and after a step, or nothing of it has passed. -/
theorem Inv.lookup_step (hi : Inv t s) (hst : Steps s (a, r) s') (hm : s'.types.lookup k = some m) :
    s.types.lookup k = some m ∨ ((a, r) :: t).filterMap (passed k) = [] := by
  rcases hst.lookup k with heq | ⟨hnone, hp⟩
  · exact .inl (heq.symm.trans hm)
  · -- Nothing of a type passes before it is registered.
    have hnot : ¬s.checker.Tracks k := fun ht => by
      obtain ⟨m, hm⟩ := mem_ids_iff.1 (hi.sound.registered k ht)
      cases hnone.symm.trans hm
    refine .inr ?_
    rw [filterMap_cons_toList, hp k, hi.passed_tracked k hnot]
    rfl

theorem Inv.step (hi : Inv t s) (h : s.step a = some (r, s')) : Inv ((a, r) :: t) s' := by
  have hst := steps_of_step hi.sound h
  refine ⟨hst.sound, fun k hk => ?_, fun k => (hst.type k).window_eq (hi.window_eq k),
    fun k m hm => ?_⟩
  · have hp : passed k (a, r) = none := by_contra fun h => hk (hst.tracks k (.inr h))
    rw [filterMap_cons_toList, hp, hi.passed_tracked k fun h => hk (hst.tracks k (.inl h))]
    rfl
  · rcases hi.lookup_step hst hm with hm' | hnil
    · exact (hi.limited k m hm').step (hst.type k) hm' (hi.window_eq k)
    · exact .of_nil hnil

theorem run_inv (hr : Reaches step (new mode) t s) : Inv t s := by
  induction hr with
  | nil => exact inv_new
  | cons _ h ih => exact ih.step h

theorem run_increasing (hr : ReachesBy Timed step (new mode) t s)
    (hm : s.types.lookup k = some m) : Increasing k m t (s.checker.state k) := by
  induction hr generalizing m with
  | nil => exact .of_nil rfl
  | cons hr ha h ih =>
    have hi := run_inv hr.reaches
    have hst := steps_of_step hi.sound h
    rcases hi.lookup_step hst hm with hm' | hnil
    · refine (ih hm').step (hst.type k) hm' fun hmono hzero => ?_
      -- Timestamp zero: nothing of the type was checked before.
      refine hi.passed_tracked k (stateIndex_eq_none.1 ?_)
      rw [passed] at hzero
      split_ifs at hzero
      exact ha k m hm' hmono hzero
    · exact .of_nil hnil

/-- A sensor frame by a task that may read the socket it comes from. -/
def reading (timestamp : ℕ) : Call :=
  .check
    { boundary := .busProtocol
      taskId := 1
      label := ⟨.public, .low, some 0x0010⟩
      resource := ⟨.networkSocket, 1⟩
      requiredPermissions := .read
      metadata := { MessageMetadata.empty with timestamp }
      destIntegrity := .low
      destMaxClassification := .restricted
      now := 0 }
    { CapRegistry.new with
      caps := .ofList [⟨1, ⟨.networkSocket, 1⟩, .read, 0, 1, 0⟩] (by decide)
      nextId := 2 }

/-- The type of sensor frames in the default registry. -/
def busSensorFrame : VerifiedMessageType :=
  ⟨0x0010, .permissive, [.maxPayloadBytes 8, .monotonicTimestamp]⟩

/-- The firewall with that type registered. -/
def sensors : Firewall :=
  { new .enforcing with types := (MessageTypeRegistry.new.register busSensorFrame).2 }

/-- In every run, no more messages of a type that carries `rateLimit` than the limit pass in a
    stretch of calls that do not reset its window. If a message with timestamp zero of a type that
    carries `monotonicTimestamp` is always the first one of its type, the timestamps of the messages
    of such a type that passed increase (the last call is first in `t`). -/
theorem run_obeys (hr : Reaches step (new mode) t s) (hm : s.types.lookup k = some m) :
    (ReachesBy Timed step (new mode) t s → .monotonicTimestamp ∈ m.invariants →
      (t.filterMap (passed k)).Pairwise (· > ·)) ∧
    ∀ n, .rateLimit n ∈ m.invariants → ∀ after stretch before, t = after ++ stretch ++ before →
      (∀ e ∈ stretch, isReset k e = false) → (stretch.filterMap (passed k)).length ≤ n := by
  refine ⟨fun ht hmono => (run_increasing ht hm hmono).1, fun n hn after w before ht hw => ?_⟩
  refine (length_passed_le hw).trans ((run_inv hr).limited k m hm n hn (w ++ before) ⟨after, ?_⟩)
  rw [ht, append_assoc]

/-- A run in which two sensor frames pass. -/
theorem run_obeys_frame : ∃ t s, ReachesBy Timed step (new .enforcing) t s ∧
    t.filterMap (passed 0x0010) = [6, 5] ∧ (t.filterMap (passed 0x0010)).Pairwise (· > ·) := by
  have hreg : (new .enforcing).step (.register busSensorFrame) =
      some (.registered true, sensors) := rfl
  have hsteps : ((sensors.step (reading 5)).bind fun x => (x.2.step (reading 6)).map fun y =>
      (x.1, y.1, y.2.types.lookup 0x0010)) =
        some (.verdict .allowed, .verdict .allowed, some busSensorFrame) := by decide +kernel
  obtain ⟨⟨r, s⟩, hs, hmap⟩ := bind_eq_some_iff.1 hsteps
  obtain ⟨⟨r', s'⟩, hs', heq⟩ := map_eq_some_iff.1 hmap
  obtain ⟨rfl, hrest⟩ := Prod.mk.inj heq
  obtain ⟨rfl, hm⟩ := Prod.mk.inj hrest
  have htimed {s : Firewall} {n : ℕ} : Timed s (reading (n + 1)) := by
    intro k m _ _ h
    simp [reading, stamp] at h
  have hr : ReachesBy Timed step (new .enforcing) [(reading 6, .verdict .allowed),
      (reading 5, .verdict .allowed), (.register busSensorFrame, .registered true)] s' :=
    .cons (.cons (.cons .nil (fun _ _ _ _ h => nomatch h) hreg) htimed hs) htimed hs'
  exact ⟨_, s', hr, rfl, (run_obeys hr.reaches hm).1 hr (by decide)⟩

/-- Two sensor frames with timestamp zero both pass. -/
theorem check_zero_twice :
    .monotonicTimestamp ∈ busSensorFrame.invariants ∧
    (do
      let (r₁, s) ← (new .enforcing).step (.register busSensorFrame)
      let (r₂, s) ← s.step (reading 0)
      let (r₃, _) ← s.step (reading 0)
      pure [r₁, r₂, r₃]) =
      some [.registered true, .verdict .allowed, .verdict .allowed] := by
  decide +kernel

end Firewall

end SmallAIOS.Security
