import SmallAIOS.Net.Quic.Stream

/-!
# The streams of a connection

The manager keeps the streams that are not collected yet, by their numbers, of which the low bits
say who opened the stream and of which type it is. For each type there is a next number, and there
are counts of the open streams and limits on these counts. Collecting takes out the streams that
are finished and counts them down.

The limits are on the streams that are open at one time. The manager does not know the streams it
collected: the number of a stream can be at or above the limit, and a frame of the other side for
a stream that was collected opens it again. What holds in every run is `streams_spec`: no number
is opened twice by this side, no stream is opened in place of one that is there, and the streams
opened by this side are within the limit.
-/

namespace SmallAIOS.Net.Quic

open Lib List Function SortedMap Nat
open Option hiding mem_map

inductive StreamInitiator where
  | client
  | server
  deriving DecidableEq

/-- Who opened the stream, and its type. -/
def streamIdType (id : ℕ) : StreamInitiator × StreamType :=
  (if id &&& 0x01 = 0 then .client else .server,
    if id &&& 0x02 = 0 then .bidirectional else .unidirectional)

/-- The numbers and counts there is one of for each type are functions of the type. -/
structure StreamManager where
  streams : SortedMap ℕ Stream := .empty
  isClient : Bool
  /-- The number of the next stream this side opens. -/
  nextId : StreamType → ℕ
  /-- How many streams the other side allows this side to open. -/
  maxLocal : StreamType → ℕ := fun _ => 0
  /-- How many streams the other side may open. -/
  maxRemote : StreamType → ℕ
  openLocal : StreamType → ℕ := fun _ => 0
  openRemote : StreamType → ℕ := fun _ => 0
  initialMaxStreamDataBidiLocal : ℕ := 262144
  initialMaxStreamDataBidiRemote : ℕ := 262144
  initialMaxStreamDataUni : ℕ := 262144

namespace StreamManager

/-- The number of the first stream a side opens. -/
def firstId (isClient : Bool) : StreamType → ℕ
  | .bidirectional => if isClient then 0 else 1
  | .unidirectional => if isClient then 2 else 3

def new (isClient : Bool) (maxRemoteBidi maxRemoteUni : ℕ) : StreamManager where
  isClient := isClient
  nextId := firstId isClient
  maxRemote
    | .bidirectional => maxRemoteBidi
    | .unidirectional => maxRemoteUni

variable (m : StreamManager)

def setPeerMaxStreams (bidi uni : ℕ) : StreamManager :=
  { m with
    maxLocal := fun
      | .bidirectional => bidi
      | .unidirectional => uni }

def setInitialMaxStreamData (bidiLocal bidiRemote uni : ℕ) : StreamManager :=
  { m with
    initialMaxStreamDataBidiLocal := bidiLocal
    initialMaxStreamDataBidiRemote := bidiRemote
    initialMaxStreamDataUni := uni }

/-- Open a stream of the type. -/
def openStream (type : StreamType) (maxSend maxRecv : ℕ) :
    Option (Except NetError ℕ × StreamManager) :=
  if m.maxLocal type ≤ m.openLocal type then some (.error .tableFull, m)
  else do
    let id := m.nextId type
    let next ← Word.add 64 id 4
    let count ← Word.add 64 (m.openLocal type) 1
    return (.ok id,
      { m with
        nextId := update m.nextId type next
        streams := m.streams.insert id (Stream.new id type true maxSend maxRecv)
        openLocal := update m.openLocal type count })

def openBidi : Option (Except NetError ℕ × StreamManager) :=
  m.openStream .bidirectional m.initialMaxStreamDataBidiRemote m.initialMaxStreamDataBidiLocal

def openUni : Option (Except NetError ℕ × StreamManager) :=
  m.openStream .unidirectional m.initialMaxStreamDataUni 0

/-- The side that opened the stream is this one. -/
def isLocal (id : ℕ) : Bool :=
  (streamIdType id).1 = if m.isClient then StreamInitiator.client else .server

/-- The limits on the data of a stream of the other side: what this side sends and receives. -/
def remoteMaxData : StreamType → ℕ × ℕ
  | .bidirectional => (m.initialMaxStreamDataBidiLocal, m.initialMaxStreamDataBidiRemote)
  | .unidirectional => (0, m.initialMaxStreamDataUni)

/-- The stream with the number, which is opened if it is not there. -/
def acceptStream (id : ℕ) : Option (Except NetError Unit × StreamManager) :=
  if (m.streams.get? id).isSome then some (.ok (), m)
  else if m.isLocal id then some (.error .invalidProtocol, m)
  else
    let type := (streamIdType id).2
    if m.maxRemote type ≤ m.openRemote type then some (.error .tableFull, m)
    else do
      let count ← Word.add 64 (m.openRemote type) 1
      let (maxSend, maxRecv) := m.remoteMaxData type
      return (.ok (),
        { m with
          streams := m.streams.insert id (Stream.new id type false maxSend maxRecv)
          openRemote := update m.openRemote type count })

def updateMaxStreams (type : StreamType) (limit : ℕ) : StreamManager :=
  { m with maxLocal := update m.maxLocal type (max (m.maxLocal type) limit) }

def updateMaxStreamsBidi (limit : ℕ) : StreamManager := m.updateMaxStreams .bidirectional limit

def updateMaxStreamsUni (limit : ℕ) : StreamManager := m.updateMaxStreams .unidirectional limit

/-- Take out a stream and count it down. -/
def collect (id : ℕ) : StreamManager :=
  match m.streams.get? id with
  | none => m
  | some _ =>
    let type := (streamIdType id).2
    if m.isLocal id then
      { m with
        streams := m.streams.erase id
        openLocal := update m.openLocal type (m.openLocal type - 1) }
    else
      { m with
        streams := m.streams.erase id
        openRemote := update m.openRemote type (m.openRemote type - 1) }

def garbageCollect : StreamManager :=
  ((m.streams.entries.filter (·.2.isFinished)).map Prod.fst).foldl collect m

inductive Call where
  | setPeerMaxStreams (bidi uni : ℕ)
  | setInitialMaxStreamData (bidiLocal bidiRemote uni : ℕ)
  | openBidi
  | openUni
  | acceptStream (id : ℕ)
  | updateMaxStreamsBidi (limit : ℕ)
  | updateMaxStreamsUni (limit : ℕ)
  | garbageCollect
  /-- A call on the stream with the number. -/
  | onStream (id : ℕ) (call : Stream.Call)
  deriving DecidableEq

inductive Answer where
  | done
  | error (e : NetError)
  | id (id : ℕ)
  | missing
  | stream (r : Except NetError Stream.Answer)
  deriving DecidableEq

/-- What opening a stream answers. -/
def opening (r : Except NetError ℕ × StreamManager) : Answer × StreamManager :=
  match r.1 with
  | .ok id => (.id id, r.2)
  | .error e => (.error e, r.2)

/-- What accepting a stream answers. -/
def accepting (r : Except NetError Unit × StreamManager) : Answer × StreamManager :=
  match r.1 with
  | .ok _ => (.done, r.2)
  | .error e => (.error e, r.2)

def step : Call → Option (Answer × StreamManager)
  | .setPeerMaxStreams bidi uni => some (.done, m.setPeerMaxStreams bidi uni)
  | .setInitialMaxStreamData bidiLocal bidiRemote uni =>
    some (.done, m.setInitialMaxStreamData bidiLocal bidiRemote uni)
  | .openBidi => m.openBidi.map opening
  | .openUni => m.openUni.map opening
  | .acceptStream id => (m.acceptStream id).map accepting
  | .updateMaxStreamsBidi limit => some (.done, m.updateMaxStreamsBidi limit)
  | .updateMaxStreamsUni limit => some (.done, m.updateMaxStreamsUni limit)
  | .garbageCollect => some (.done, m.garbageCollect)
  | .onStream id call =>
    match m.streams.get? id with
    | none => some (.missing, m)
    | some stream => (stream.step call).map fun r =>
        (.stream r.1, { m with streams := m.streams.insert id r.2 })

/-! ## Runs -/

/-- The numbers of the streams that were opened by this side in a run. -/
def opened (t : List (Call × Answer)) : List ℕ :=
  t.filterMap fun c => match c.2 with
    | .id id => some id
    | _ => none

/-- The limit that a call of the other side grants. -/
def grant (type : StreamType) : Call → ℕ
  | .setPeerMaxStreams bidi uni => if type = .bidirectional then bidi else uni
  | .updateMaxStreamsBidi limit => if type = .bidirectional then limit else 0
  | .updateMaxStreamsUni limit => if type = .unidirectional then limit else 0
  | _ => 0

/-- The largest limit that was granted in a run. -/
def granted (type : StreamType) : List (Call × Answer) → ℕ
  | [] => 0
  | c :: t => max (grant type c.1) (granted type t)

/-- The stream is one of the type that this side opened. -/
def isOwn (type : StreamType) (id : ℕ) : Bool := m.isLocal id && (streamIdType id).2 = type

/-- How many streams of the type this side has open. -/
def liveLocal (type : StreamType) : ℕ := m.streams.entries.countP fun e => m.isOwn type e.1

variable {m} {m' : StreamManager} {t : List (Call × Answer)}

/-- Who opened a stream and its type are in the low two bits. -/
theorem streamIdType_add_four (id : ℕ) : streamIdType (id + 4) = streamIdType id := by
  have hone : (id + 4) &&& 1 = id &&& 1 := by
    rw [and_one_is_mod, and_one_is_mod]
    omega
  have htwo : (id + 4) &&& 2 = id &&& 2 := by
    have hdiv : (id + 4) / 2 ^ 1 % 2 = id / 2 ^ 1 % 2 := by omega
    have hbit := and_two_pow (id + 4) 1
    rw [testBit_eq_decide_div_mod_eq, hdiv, ← testBit_eq_decide_div_mod_eq, ← and_two_pow] at hbit
    exact hbit
  rw [streamIdType, hone, htwo]
  rfl

theorem isOwn_congr (h : m'.isClient = m.isClient) (type : StreamType) (id : ℕ) :
    m'.isOwn type id = m.isOwn type id := by
  rw [isOwn, isLocal, h]
  rfl

variable {id : ℕ} {type : StreamType}

theorem isOwn_iff : m.isOwn type id ↔ m.isLocal id ∧ (streamIdType id).2 = type := by
  rw [isOwn, Bool.and_eq_true, decide_eq_true_iff]

theorem isOwn_unique {type type' : StreamType} (h : m.isOwn type id)
    (h' : m.isOwn type' id) : type = type' :=
  (isOwn_iff.1 h).2.symm.trans (isOwn_iff.1 h').2

/-! ## What calls do -/

/-- What calls do: they open a stream of this side or of the other one, collect, change a stream,
    or change limits. -/
inductive Stepped (m : StreamManager) (a : Call) : Answer → StreamManager → Prop
  | opened {type : StreamType} {stream : Stream} : m.openLocal type < m.maxLocal type →
    Stepped m a (.id (m.nextId type))
      { m with
        nextId := update m.nextId type (m.nextId type + 4)
        streams := m.streams.insert (m.nextId type) stream
        openLocal := update m.openLocal type (m.openLocal type + 1) }
  | accepted {id count : ℕ} {stream : Stream} : m.streams.get? id = none → ¬m.isLocal id →
    Stepped m a .done
      { m with
        streams := m.streams.insert id stream
        openRemote := update m.openRemote (streamIdType id).2 count }
  | collected : a = .garbageCollect → Stepped m a .done m.garbageCollect
  | changed {id : ℕ} {call : Stream.Call} {stream stream' : Stream}
      {r : Except NetError Stream.Answer} : a = .onStream id call →
    m.streams.get? id = some stream →
    Stepped m a (.stream r) { m with streams := m.streams.insert id stream' }
  | limited {r : Answer} {m' : StreamManager} : (∀ id, r ≠ .id id) → m'.streams = m.streams →
    m'.isClient = m.isClient → m'.nextId = m.nextId → m'.openLocal = m.openLocal →
    (∀ type, m'.maxLocal type ≤ max (grant type a) (m.maxLocal type)) → Stepped m a r m'

variable {r : Answer} {a : Call}

/-- A call that leaves the manager as it is. -/
theorem Stepped.same (h : ∀ id, r ≠ .id id) : Stepped m a r m :=
  .limited h rfl rfl rfl rfl fun _ => le_max_right _ _

theorem stepped_of_openStream {maxSend maxRecv : ℕ}
    (h : (m.openStream type maxSend maxRecv).map opening = some (r, m')) : Stepped m a r m' := by
  obtain ⟨⟨q, m1⟩, hq, h⟩ := map_eq_some_iff.1 h
  rw [openStream] at hq
  split_ifs at hq with hfull
  · cases hq
    cases h
    exact .same nofun
  · obtain ⟨next, hnext, hq⟩ := bind_eq_some_iff.1 hq
    obtain ⟨count, hcount, hq⟩ := bind_eq_some_iff.1 hq
    obtain ⟨-, rfl⟩ := Word.add_eq_some.1 hnext
    obtain ⟨-, rfl⟩ := Word.add_eq_some.1 hcount
    cases hq
    cases h
    exact .opened (not_le.1 hfull)

theorem stepped_of_acceptStream
    (h : (m.acceptStream id).map accepting = some (r, m')) : Stepped m a r m' := by
  obtain ⟨⟨q, m1⟩, hq, h⟩ := map_eq_some_iff.1 h
  rw [acceptStream] at hq
  dsimp only at hq
  split_ifs at hq with hsome hlocal
  · cases hq
    cases h
    exact .same nofun
  · cases hq
    cases h
    exact .same nofun
  · cases hq
    cases h
    exact .same nofun
  · obtain ⟨count, -, hq⟩ := bind_eq_some_iff.1 hq
    cases hq
    cases h
    exact .accepted (not_isSome_iff_eq_none.1 hsome) hlocal

theorem stepped_of_step (h : m.step a = some (r, m')) : Stepped m a r m' := by
  cases a with
  | openBidi | openUni => exact stepped_of_openStream h
  | acceptStream id => exact stepped_of_acceptStream h
  | garbageCollect =>
    cases h
    exact .collected rfl
  | onStream id call =>
    rw [step] at h
    split at h
    · cases h
      exact .same nofun
    · next stream hget =>
      obtain ⟨q, -, h⟩ := map_eq_some_iff.1 h
      cases h
      exact .changed rfl hget
  | setInitialMaxStreamData bidiLocal bidiRemote uni =>
    cases h
    exact .limited nofun rfl rfl rfl rfl fun _ => le_max_right _ _
  | setPeerMaxStreams bidi uni =>
    cases h
    refine .limited nofun rfl rfl rfl rfl fun type => ?_
    cases type <;> exact le_max_left _ _
  | updateMaxStreamsBidi limit =>
    cases h
    refine .limited nofun rfl rfl rfl rfl fun type => ?_
    cases type with
    | bidirectional => exact (max_comm _ _).le
    | unidirectional => exact le_max_right _ _
  | updateMaxStreamsUni limit =>
    cases h
    refine .limited nofun rfl rfl rfl rfl fun type => ?_
    cases type with
    | bidirectional => exact le_max_right _ _
    | unidirectional => exact (max_comm _ _).le

/-! ## The streams of this side -/

/-- The streams opened by this side are counted, have other numbers than the next ones, and are
    within the limit. -/
structure Managed (t : List (Call × Answer)) (m : StreamManager) : Prop where
  count : ∀ type, m.openLocal type = m.liveLocal type
  own : ∀ type, m.isOwn type (m.nextId type)
  live_lt : ∀ type, ∀ e ∈ m.streams.entries, m.isOwn type e.1 → e.1 < m.nextId type
  opened_lt : ∀ id ∈ opened t, ∃ type, m.isOwn type id ∧ id < m.nextId type
  nodup : (opened t).Nodup
  limit : ∀ type, m.maxLocal type ≤ granted type t
  within : ∀ type, m.openLocal type ≤ granted type t

theorem opened_cons_of_ne (h : ∀ id, r ≠ .id id) : opened ((a, r) :: t) = opened t := by
  cases r with
  | id id => exact absurd rfl (h id)
  | _ => rfl

/-- The next number is not one of a stream that is there. -/
theorem Managed.get?_nextId (h : Managed t m) (type : StreamType) :
    m.streams.get? (m.nextId type) = none :=
  get?_eq_none.2 fun e he heq =>
    absurd (h.live_lt type e he (heq ▸ h.own type)) (heq ▸ lt_irrefl _)

variable {stream : Stream}

/-- A stream that takes the place of none is counted if it is of the type and this side. -/
theorem liveLocal_insert (type : StreamType) (h : m.streams.get? id = none) :
    (m.streams.insert id stream).entries.countP (fun e => m.isOwn type e.1) =
      m.liveLocal type + if m.isOwn type id then 1 else 0 := by
  rw [liveLocal, countP_insert, countP_eq m.streams id, h, countP_singleton]
  rfl

section

variable (h : Managed t m)
include h

theorem Managed.opened (hlt : m.openLocal type < m.maxLocal type) :
    Managed ((a, .id (m.nextId type)) :: t)
      { m with
        nextId := update m.nextId type (m.nextId type + 4)
        streams := m.streams.insert (m.nextId type) stream
        openLocal := update m.openLocal type (m.openLocal type + 1) } := by
  have hown := h.own type
  have hself : m.nextId type < update m.nextId type (m.nextId type + 4) type := by
    rw [update_self]
    omega
  have hnext : m.nextId ≤ update m.nextId type (m.nextId type + 4) :=
    le_update_self_iff.2 (by omega)
  have hwithin : update m.openLocal type (m.openLocal type + 1) ≤ fun type => granted type t :=
    update_le_iff.2 ⟨(succ_le_of_lt hlt).trans (h.limit type), fun type' _ => h.within type'⟩
  refine ⟨fun type' => ?_, ?_, fun type' e he ho => ?_, fun id hid => ?_, ?_,
    fun type' => (h.limit type').trans (le_max_right _ _),
    fun type' => (hwithin type').trans (le_max_right _ _)⟩
  · refine Eq.trans ?_ (liveLocal_insert type' (h.get?_nextId type)).symm
    rcases eq_or_ne type' type with rfl | hne
    · rw [if_pos hown, ← h.count]
      exact update_self ..
    · rw [if_neg fun ho => hne (isOwn_unique ho hown), ← h.count]
      exact update_of_ne hne ..
  · refine (forall_update_iff _ fun type' id => m.isOwn type' id).2 ⟨?_, fun _ _ => h.own _⟩
    rw [isOwn, isLocal, streamIdType_add_four]
    exact hown
  · rcases mem_insert.1 he with rfl | ⟨-, he⟩
    · obtain rfl := isOwn_unique ho hown
      exact hself
    · exact (h.live_lt type' e he ho).trans_le (hnext type')
  · rcases mem_cons.1 hid with rfl | hid
    · exact ⟨type, hown, hself⟩
    · obtain ⟨type', ho, hlt⟩ := h.opened_lt id hid
      exact ⟨type', ho, hlt.trans_le (hnext type')⟩
  · refine nodup_cons.2 ⟨fun hid => ?_, h.nodup⟩
    obtain ⟨type', ho, hlt⟩ := h.opened_lt _ hid
    obtain rfl := isOwn_unique ho hown
    exact lt_irrefl _ hlt

/-- A stream of the other side, or a change of a stream, does not matter to those of this one. -/
theorem Managed.insert {openRemote : StreamType → ℕ}
    (hid : m.streams.get? id = none → ¬m.isLocal id) :
    Managed t { m with streams := m.streams.insert id stream, openRemote := openRemote } := by
  refine ⟨fun type => (h.count type).trans ?_, h.own, fun type e he ho => ?_, h.opened_lt, h.nodup,
    h.limit, h.within⟩
  · cases hget : m.streams.get? id with
    | none =>
      refine Eq.trans ?_ (liveLocal_insert type hget).symm
      rw [if_neg fun ho => hid hget (isOwn_iff.1 ho).1, add_zero]
    | some old =>
      change _ = (m.streams.insert id stream).entries.countP fun e => m.isOwn type e.1
      rw [liveLocal, countP_insert, countP_eq m.streams id, hget]
      rfl
  · rcases mem_insert.1 he with rfl | ⟨-, he⟩
    · cases hget : m.streams.get? id with
      | none => exact absurd (isOwn_iff.1 ho).1 (hid hget)
      | some old => exact h.live_lt type (id, old) (get?_eq_some.1 hget) ho
    · exact h.live_lt type e he ho

/-- Counting down the streams of a type by those that are taken out keeps the count. -/
theorem Managed.collect (id : ℕ) : Managed t (m.collect id) := by
  have hlive : ∀ type, ∀ e ∈ (m.streams.erase id).entries, m.isOwn type e.1 →
      e.1 < m.nextId type := fun type e he => h.live_lt type e (mem_erase.1 he).2
  cases hget : m.streams.get? id with
  | none =>
    rw [StreamManager.collect, hget]
    exact h
  | some stream =>
    have hcount : ∀ type, m.openLocal type = (m.streams.erase id).entries.countP
        (fun e => m.isOwn type e.1) + if m.isOwn type id then 1 else 0 := fun type => by
      rw [h.count, liveLocal, countP_eq m.streams id, hget]
      exact congrArg _ (countP_singleton ..)
    simp only [StreamManager.collect, hget]
    split_ifs with hlocal
    · refine ⟨fun type => ?_, h.own, hlive, h.opened_lt, h.nodup, h.limit, ?_⟩
      · change update m.openLocal _ _ type =
          (m.streams.erase id).entries.countP fun e => m.isOwn type e.1
        have hc := hcount type
        rcases eq_or_ne type (streamIdType id).2 with rfl | hne
        · rw [if_pos (isOwn_iff.2 ⟨hlocal, rfl⟩)] at hc
          rw [update_self]
          omega
        · rw [if_neg fun ho => hne (isOwn_iff.1 ho).2.symm] at hc
          rw [update_of_ne hne, hc, add_zero]
      · exact update_le_iff.2 ⟨(sub_le _ _).trans (h.within _), fun type _ => h.within type⟩
    · refine ⟨fun type => ?_, h.own, hlive, h.opened_lt, h.nodup, h.limit, h.within⟩
      have hc := hcount type
      rw [if_neg fun ho => hlocal (isOwn_iff.1 ho).1] at hc
      exact hc

theorem Managed.garbageCollect : Managed t m.garbageCollect := by
  have hfold : ∀ (ids : List ℕ) {m : StreamManager}, Managed t m →
      Managed t (ids.foldl StreamManager.collect m) := fun ids => by
    induction ids with
    | nil => exact fun h => h
    | cons id ids ih => exact fun h => ih (h.collect id)
  exact hfold _ h

/-- A call that does not open a stream of this side, and keeps the rest. -/
theorem Managed.cons (hr : ∀ id, r ≠ .id id) : Managed ((a, r) :: t) m :=
  ⟨h.count, h.own, h.live_lt, (opened_cons_of_ne hr).symm ▸ h.opened_lt,
    (opened_cons_of_ne hr).symm ▸ h.nodup, fun type => (h.limit type).trans (le_max_right _ _),
    fun type => (h.within type).trans (le_max_right _ _)⟩

theorem Managed.step (hs : m.step a = some (r, m')) : Managed ((a, r) :: t) m' := by
  cases stepped_of_step hs with
  | opened hlt => exact h.opened hlt
  | accepted _ hlocal => exact (h.insert fun _ => hlocal).cons nofun
  | collected _ => exact h.garbageCollect.cons nofun
  | changed _ hget => exact (h.insert fun hnone => nomatch hnone.symm.trans hget).cons nofun
  | limited hr hstreams hclient hnext hopen hmax =>
    have hown := isOwn_congr hclient
    have hc := h.cons (a := a) hr
    refine ⟨fun type => ?_, fun type => ?_, fun type e he ho => ?_, fun id hid => ?_, hc.nodup,
      fun type => ?_, fun type => ?_⟩
    · simp only [liveLocal, hopen, hstreams, hown]
      exact hc.count type
    · rw [hown, hnext]
      exact hc.own type
    · rw [hnext]
      exact hc.live_lt type e (hstreams ▸ he) ((hown ..).symm.trans ho)
    · obtain ⟨type, ho, hlt⟩ := hc.opened_lt id hid
      exact ⟨type, (hown ..).trans ho, hnext ▸ hlt⟩
    · exact (hmax type).trans (max_le_max_left _ (h.limit type))
    · rw [hopen]
      exact hc.within type

end

theorem managed_new (isClient : Bool) (maxRemoteBidi maxRemoteUni : ℕ) :
    Managed [] (new isClient maxRemoteBidi maxRemoteUni) := by
  refine ⟨fun _ => rfl, fun type => ?_, fun _ _ he => absurd he not_mem_nil,
    fun _ hid => absurd hid not_mem_nil, nodup_nil, fun _ => le_rfl, fun _ => le_rfl⟩
  have hown : ∀ isClient, (new isClient 0 0).isOwn type (firstId isClient type) := by
    cases type <;> decide
  exact (isOwn_congr rfl ..).trans (hown isClient)

theorem get?_collect (m : StreamManager) (id k : ℕ) :
    (m.collect id).streams.get? k = if k = id then none else m.streams.get? k := by
  have herase : (m.streams.erase id).get? k = if k = id then none else m.streams.get? k := by
    split_ifs with hk
    · rw [hk, get?_erase_self]
    · exact get?_erase_of_ne hk
  cases hget : m.streams.get? id with
  | none =>
    simp only [collect, hget]
    split_ifs with hk
    · rw [hk, hget]
    · rfl
  | some stream =>
    simp only [collect, hget]
    split_ifs at herase ⊢ <;> exact herase

/-- Collecting takes out the streams that are finished, and no others. -/
theorem get?_garbageCollect (h : m.streams.get? id = some stream) :
    m.garbageCollect.streams.get? id = if stream.isFinished then none else some stream := by
  have hfold : ∀ (ids : List ℕ) (m : StreamManager),
      (ids.foldl collect m).streams.get? id = if id ∈ ids then none else m.streams.get? id :=
    fun ids => by
      induction ids with
      | nil => exact fun _ => (if_neg not_mem_nil).symm
      | cons k ids ih =>
        intro m
        rw [foldl_cons, ih, get?_collect]
        by_cases hk : id = k
        · simp [hk]
        · simp [hk]
  have hmem : id ∈ (m.streams.entries.filter (·.2.isFinished)).map Prod.fst ↔
      stream.isFinished := by
    rw [mem_map]
    constructor
    · rintro ⟨⟨k, s⟩, hs, rfl⟩
      obtain ⟨hs, hfin⟩ := mem_filter.1 hs
      rwa [value_eq (get?_eq_some.1 h) hs]
    · exact fun hfin => ⟨(id, stream), mem_filter.2 ⟨get?_eq_some.1 h, hfin⟩, rfl⟩
  rw [garbageCollect, hfold, h]
  simp only [hmem]

/-- In every run, no number is opened twice by this side, a stream that is there stays unless it
    is changed by a call on it or collected when it is finished, and this side has no more streams
    of a type open than the largest limit that was granted. -/
theorem streams_spec {isClient : Bool} {maxRemoteBidi maxRemoteUni : ℕ}
    (h : Reaches step (new isClient maxRemoteBidi maxRemoteUni) t m) :
    (opened t).Nodup ∧
    (∀ a r m' id stream, m.step a = some (r, m') → m.streams.get? id = some stream →
      m'.streams.get? id = some stream ∨ (∃ call, a = .onStream id call) ∨
        (a = .garbageCollect ∧ stream.isFinished)) ∧
    ∀ type, m.liveLocal type ≤ granted type t := by
  have hm : Managed t m := by
    induction h with
    | nil => exact managed_new isClient maxRemoteBidi maxRemoteUni
    | cons _ hs ih => exact ih.step hs
  refine ⟨hm.nodup, fun a r m' id stream hs hget => ?_, fun type => ?_⟩
  · -- A stream that is opened has another number.
    have hother : ∀ {k new}, m.streams.get? k = none →
        (m.streams.insert k new).get? id = some stream := fun {k new} hnone => by
      rw [get?_insert_of_ne, hget]
      rintro rfl
      exact nomatch hnone.symm.trans hget
    cases stepped_of_step hs with
    | opened _ => exact .inl (hother (hm.get?_nextId _))
    | accepted hnone _ => exact .inl (hother hnone)
    | collected ha =>
      rw [get?_garbageCollect hget]
      split_ifs with hfin
      · exact .inr (.inr ⟨ha, hfin⟩)
      · exact .inl rfl
    | @changed k call _ _ _ ha _ =>
      by_cases heq : id = k
      · exact .inr (.inl ⟨call, heq ▸ ha⟩)
      · exact .inl ((get?_insert_of_ne heq).trans hget)
    | limited _ hstreams => exact .inl (hstreams ▸ hget)
  · exact (hm.count type).symm.trans_le (hm.within type)

theorem streams_spec_of_collected :
    ∃ t m, Reaches step (new true 9 9) t m ∧ opened t = [4, 0] ∧ (opened t).Nodup ∧
      m.liveLocal .bidirectional ≤ granted .bidirectional t := by
  have hr := Reaches.of_exec step (new true 9 9) [.setPeerMaxStreams 1 0, .openBidi,
    .onStream 0 .resetSend, .onStream 0 (.recvReset 0), .garbageCollect, .openBidi]
    (by decide +kernel)
  have h := streams_spec hr
  exact ⟨_, _, hr, by decide +kernel, h.1, h.2.2 .bidirectional⟩

/-- With a limit of one stream, after the first one is collected the second one is opened, with
    index one. A stream of the other side that was collected is opened again. -/
theorem opened_beyond_limit :
    (∃ t m, Reaches step (new true 9 9) t m ∧ 4 ∈ opened t ∧
      granted .bidirectional t = 1 ∧ ¬4 / 4 < granted .bidirectional t) ∧
    ∃ t m, Reaches step (new true 9 9) t m ∧ (.acceptStream 1, .done) ∈ t ∧
      m.streams.get? 1 = none ∧
      ∃ m', m.step (.acceptStream 1) = some (.done, m') ∧ (m'.streams.get? 1).isSome := by
  constructor
  · exact ⟨_, _, .of_exec _ _ [.setPeerMaxStreams 1 0, .openBidi, .onStream 0 .resetSend,
      .onStream 0 (.recvReset 0), .garbageCollect, .openBidi] (by decide +kernel),
      by decide +kernel, by decide +kernel, by decide +kernel⟩
  · refine ⟨_, _, .of_exec _ _ [.acceptStream 1, .onStream 1 .resetSend, .onStream 1 (.recvReset 0),
      .garbageCollect] (by decide +kernel), by decide +kernel, by decide +kernel, _, rfl, ?_⟩
    decide +kernel

end StreamManager

end SmallAIOS.Net.Quic
