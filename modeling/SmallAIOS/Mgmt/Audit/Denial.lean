import Mathlib.Data.String.Basic
import SmallAIOS.Lib.Run
import SmallAIOS.Lib.SortedMap

/-!
# Per-user denial rate limiter

Each user is allowed `denialRatePerSecond` individual records of denials in a
window of one second. Further denials are swallowed, and counted until they are
reported as one burst: with the first denial after the window, or when the
pending counts are drained. The limiter keeps a state for at most
`maxTrackedUsers` users and then evicts the one seen least recently, whose count
is forfeited.

As long as there are no more users than that, and a count does not reach the
size of a word, every denial is reported individually, or in one burst, or is
still pending (`run_conserves_denials`).

A window begins with a denial, and the next one with the first denial a second or more later, even
if there were others just before. So the individual records of a user in a second that begins
anywhere can be more than `denialRatePerSecond`, though they are fewer than twice as many. They are
not more if every window begins after a second without a denial (`reported_in_second_lt`).
-/

namespace SmallAIOS.Mgmt.Audit

open Lib List Option SortedMap

/-- Individual denials per user per second. -/
def denialRatePerSecond : ℕ := 10

/-- Maximum number of distinct users the limiter holds state for. -/
def maxTrackedUsers : ℕ := 256

/-- Window length in nanoseconds. -/
def windowNs : ℕ := 1000000000

/-- Decision returned by `observe`. -/
inductive DenialDecision
  /-- Append the denial as an individual record. -/
  | allow
  /-- Swallow the denial. -/
  | drop
  /-- The window closed with swallowed denials: emit a burst record before recording the current
      denial individually. -/
  | flushBurst (count : ℕ)
  deriving DecidableEq

/-- Per-user denial rate-limit state. -/
structure UserState where
  windowStartNs : ℕ
  emitted : ℕ
  swallowed : ℕ
  lastSeenNs : ℕ
  deriving DecidableEq

/-- Rate limiter of denials. -/
structure DenialRateLimiter where
  users : SortedMap String UserState

namespace DenialRateLimiter

def new : DenialRateLimiter := ⟨.empty⟩

variable (l : DenialRateLimiter)

/-- The user seen least recently, with the time; none before the end of time. -/
def oldest : Option String × ℕ :=
  l.users.entries.foldl
    (fun acc p => if p.2.lastSeenNs < acc.2 then (some p.1, p.2.lastSeenNs) else acc)
    (none, 2 ^ 64 - 1)

def evictOldest : DenialRateLimiter :=
  match l.oldest.1 with
  | some k => ⟨l.users.erase k⟩
  | none => l

/-- The limiter with a place for the user. -/
def makeRoom (user : String) : DenialRateLimiter :=
  if (l.users.get? user).isNone && decide (maxTrackedUsers ≤ l.users.size) then l.evictOldest
  else l

/-- The state of the user, which begins with the first denial. -/
def userState (user : String) (tsNs : ℕ) : UserState :=
  (l.users.get? user).getD ⟨tsNs, 0, 0, tsNs⟩

/-- The decision on a denial, and the state of the user after it. -/
def decideFor (state : UserState) (tsNs : ℕ) : DenialDecision × UserState :=
  -- The time elapsed is zero if the time goes backwards.
  if windowNs ≤ tsNs - state.windowStartNs then
    (if state.swallowed > 0 then .flushBurst state.swallowed else .allow, ⟨tsNs, 1, 0, tsNs⟩)
  else if state.emitted < denialRatePerSecond then
    (.allow, { state with emitted := state.emitted + 1, lastSeenNs := tsNs })
  else
    (.drop, { state with
      swallowed := min (state.swallowed + 1) (2 ^ 32 - 1)
      lastSeenNs := tsNs })

/-- Observe a denial from the user. -/
def observe (user : String) (tsNs : ℕ) : DenialDecision × DenialRateLimiter :=
  let l := l.makeRoom user
  let (decision, state) := decideFor (l.userState user tsNs) tsNs
  (decision, ⟨l.users.insert user state⟩)

/-- Pull pending swallowed counts and clear them. -/
def drainPending : List (String × ℕ) × DenialRateLimiter :=
  (l.users.entries.filterMap fun p =>
      if p.2.swallowed > 0 then some (p.1, p.2.swallowed) else none,
    ⟨l.users.map fun s => if s.swallowed > 0 then { s with swallowed := 0 } else s⟩)

/-- The denials of the user swallowed and not yet reported. -/
def pending (user : String) : ℕ := ((l.users.get? user).map (·.swallowed)).getD 0

end DenialRateLimiter

namespace DenialDecision

/-- Whether the denial itself is reported individually. -/
def individual : DenialDecision → ℕ
  | allow => 1
  | drop => 0
  | flushBurst _ => 1

/-- The denials reported as a burst. -/
def burst : DenialDecision → ℕ
  | flushBurst count => count
  | _ => 0

end DenialDecision

namespace DenialRateLimiter

variable {l l' : DenialRateLimiter} {user u : String}

theorem userState_swallowed (l : DenialRateLimiter) (user : String) (tsNs : ℕ) :
    (l.userState user tsNs).swallowed = l.pending user := by
  rw [userState, pending]
  cases l.users.get? user <;> rfl

variable {state : UserState} (tsNs : ℕ)

/-- A denial is reported individually or joins the pending ones, which are reported all at once. -/
theorem decideFor_conserves (h : state.swallowed + 1 < 2 ^ 32) (tsNs : ℕ) :
    1 + state.swallowed = (decideFor state tsNs).1.individual + (decideFor state tsNs).1.burst +
      (decideFor state tsNs).2.swallowed := by
  rw [decideFor]
  split_ifs with hwindow hpending hemitted
  · rfl
  · rw [Nat.eq_zero_of_not_pos hpending]
    rfl
  · exact congrArg (· + state.swallowed) rfl
  · simp only [DenialDecision.individual, DenialDecision.burst]
    omega

theorem swallowed_of_allow {tsNs : ℕ} (h : (decideFor state tsNs).1 = .allow) :
    (decideFor state tsNs).2.swallowed = state.swallowed := by
  rw [decideFor] at h ⊢
  split_ifs at h ⊢ with hwindow hpending hemitted
  · exact (Nat.eq_zero_of_not_pos hpending).symm
  · rfl

/-- A burst reports what is pending, which then is nothing. -/
theorem swallowed_of_flushBurst {tsNs count : ℕ}
    (h : (decideFor state tsNs).1 = .flushBurst count) :
    0 < state.swallowed ∧ (decideFor state tsNs).2.swallowed = 0 := by
  rw [decideFor] at h ⊢
  split_ifs at h ⊢ with hwindow hpending hemitted
  exact ⟨hpending, rfl⟩

/-- The user to be evicted for the denial of another one. -/
def evicted (l : DenialRateLimiter) (user : String) : Option String :=
  if (l.users.get? user).isNone && decide (maxTrackedUsers ≤ l.users.size) then l.oldest.1 else none

/-- Users are evicted for one that is not tracked. -/
theorem get?_of_evicted (h : l.evicted user = some u) : l.users.get? user = none := by
  rw [evicted] at h
  split_ifs at h with hfull
  exact isNone_iff_eq_none.1 (Bool.and_eq_true_iff.1 hfull).1

/-- A user that is evicted is not tracked any more. -/
theorem get?_makeRoom : (l.makeRoom user).users.get? u =
    if l.evicted user = some u then none else l.users.get? u := by
  rw [makeRoom, evicted]
  split_ifs with hfull hold hold
  · rw [evictOldest, hold, get?_erase_self]
  · rw [evictOldest]
    split
    · next k hk =>
      have hu : u ≠ k := by
        rintro rfl
        exact hold hk
      exact get?_erase_of_ne hu
    · rfl
  · cases hold
  · rfl

/-- Making room adds no user. -/
theorem mem_makeRoom {p : String × UserState} (h : p ∈ (l.makeRoom user).users.entries) :
    p ∈ l.users.entries := by
  have hget := get?_eq_some.2 h
  rw [get?_makeRoom] at hget
  split_ifs at hget
  exact get?_eq_some.1 hget

theorem userState_makeRoom : (l.makeRoom user).userState user tsNs = l.userState user tsNs := by
  rw [userState, userState, get?_makeRoom]
  split_ifs with hevicted
  · rw [get?_of_evicted hevicted]
  · rfl

/-- The decision on a denial depends on the state of the user. -/
theorem observe_fst : (l.observe user tsNs).1 = (decideFor (l.userState user tsNs) tsNs).1 := by
  rw [← userState_makeRoom]
  rfl

theorem get?_observe : (l.observe user tsNs).2.users.get? u =
    if u = user then some (decideFor (l.userState user tsNs) tsNs).2
    else if l.evicted user = some u then none else l.users.get? u := by
  rw [← userState_makeRoom, ← get?_makeRoom]
  split_ifs with hu
  · rw [hu]
    exact get?_insert_self
  · exact get?_insert_of_ne hu

/-- The pending denials of a user that is evicted are lost. -/
theorem pending_observe : (l.observe user tsNs).2.pending u =
    if u = user then (decideFor (l.userState user tsNs) tsNs).2.swallowed
    else if l.evicted user = some u then 0 else l.pending u := by
  rw [pending, get?_observe]
  split_ifs <;> rfl

@[simp] theorem pending_drainPending : l.drainPending.2.pending u = 0 := by
  rw [pending, drainPending, get?_map]
  cases l.users.get? u with
  | none => rfl
  | some s =>
    simp only [map_some]
    split_ifs with hs
    · rfl
    · exact Nat.eq_zero_of_not_pos hs

/-- The count drained for a user is what was pending. -/
theorem sum_drainPending (u : String) :
    ((l.drainPending.1.filter (·.1 = u)).map (·.2)).sum = l.pending u := by
  let report (p : String × UserState) : Option (String × ℕ) :=
    if p.2.swallowed > 0 then some (p.1, p.2.swallowed) else none
  -- The reports of the user are those on its entry.
  have hfilter : l.drainPending.1.filter (·.1 = u) =
      (l.users.entries.filter (·.1 = u)).filterMap report := by
    rw [drainPending, filter_filterMap, filterMap_filter]
    refine filterMap_congr fun p _ => ?_
    by_cases hs : p.2.swallowed > 0 <;> by_cases hp : p.1 = u <;> simp [report, hs, hp]
  rw [hfilter, filter_entries, pending]
  cases l.users.get? u with
  | none => rfl
  | some s => by_cases hs : s.swallowed > 0 <;> simp_all [report]

/-! ## Runs -/

/-- A call on the limiter. -/
inductive Op
  | observe (user : String) (tsNs : ℕ)
  | drainPending

/-- What a call returns. -/
inductive Ret
  | decision (d : DenialDecision)
  | drained (out : List (String × ℕ))

def step (l : DenialRateLimiter) : Op → Option (Ret × DenialRateLimiter)
  | .observe user tsNs => some (.decision (l.observe user tsNs).1, (l.observe user tsNs).2)
  | .drainPending => some (.drained l.drainPending.1, l.drainPending.2)

/-- The users whose denials were observed. -/
def observedUsers (t : List (Op × Ret)) : List String :=
  t.filterMap fun e => match e.1 with
    | .observe user _ => some user
    | .drainPending => none

/-- The denials of the user reported individually by a call. -/
def individual (u : String) : Op × Ret → ℕ
  | (.observe user _, .decision d) => if user = u then d.individual else 0
  | _ => 0

/-- The denials of the user reported as a burst by a call. -/
def burst (u : String) : Op × Ret → ℕ
  | (.observe user _, .decision d) => if user = u then d.burst else 0
  | (.drainPending, .drained out) => ((out.filter (·.1 = u)).map (·.2)).sum
  | _ => 0

variable {t : List (Op × Ret)} (e : Op × Ret) {b : Ret}

/-- The users tracked are users observed. -/
theorem key_mem_observedUsers (hr : Reaches step new t l) :
    ∀ p ∈ l.users.entries, p.1 ∈ observedUsers t := by
  induction hr with
  | nil => exact fun _ hp => absurd hp not_mem_nil
  | @cons t l l' a b _ hs ih =>
    cases a with
    | observe user tsNs =>
      cases hs
      intro p hp
      rcases mem_insert.1 hp with rfl | ⟨-, hp⟩
      · exact mem_cons_self
      · exact mem_cons_of_mem _ (ih p (mem_makeRoom hp))
    | drainPending =>
      cases hs
      intro p hp
      obtain ⟨q, hq, rfl⟩ := mem_map.1 hp
      exact ih q hq

theorem observedUsers_cons : observedUsers (e :: t) = observedUsers [e] ++ observedUsers t := by
  rw [observedUsers, filterMap_cons_toList]
  rfl

/-- A call conserves the denials, if it evicts no user and the count fits a word. -/
theorem step_conserves {a : Op} (hs : l.step a = some (b, l'))
    (hroom : ∀ user ts, a = .observe user ts → l.evicted user = none)
    (hfits : ∀ ts, a = .observe u ts → l.pending u + 1 < 2 ^ 32) :
    (observedUsers [(a, b)]).count u + l.pending u =
      individual u (a, b) + burst u (a, b) + l'.pending u := by
  cases a with
  | observe user ts =>
    cases hs
    rw [pending_observe, hroom user ts rfl, observe_fst]
    by_cases hu : user = u
    · subst hu
      have hstate := userState_swallowed l user ts
      have := decideFor_conserves (hstate.symm ▸ hfits ts rfl) ts
      rw [hstate] at this
      simpa [observedUsers, individual, burst] using this
    · simp [observedUsers, individual, burst, hu, Ne.symm hu]
  | drainPending =>
    cases hs
    simp [observedUsers, individual, burst, sum_drainPending]

/-- There is a place for a user if all users observed fit the table. -/
theorem evicted_of_reaches (hr : Reaches step new t l) {ts : ℕ}
    (husers : (observedUsers ((.observe user ts, b) :: t)).toFinset.card ≤ maxTrackedUsers) :
    l.evicted user = none := by
  refine if_neg fun hc => ?_
  obtain ⟨hnone, hfull⟩ := Bool.and_eq_true_iff.1 hc
  rw [isNone_iff_eq_none] at hnone
  have hmem : user ∈ (observedUsers ((.observe user ts, b) :: t)).toFinset :=
    mem_toFinset.2 mem_cons_self
  -- The users tracked are among those observed, without this one.
  have hsize : l.users.size ≤
      ((observedUsers ((.observe user ts, b) :: t)).toFinset.erase user).card := by
    refine size_le_card fun p hp => Finset.mem_erase.2 ⟨?_, ?_⟩
    · exact get?_eq_none.1 hnone p hp
    · exact mem_toFinset.2 (mem_cons_of_mem _ (key_mem_observedUsers hr p hp))
  rw [Finset.card_erase_of_mem hmem] at hsize
  have := Finset.card_pos.2 ⟨user, hmem⟩
  have := of_decide_eq_true hfull
  omega

/-- The denials observed for each user are those reported individually, those reported in bursts and
    those pending, as long as the table can hold the users and the counts fit a word. -/
theorem run_conserves_denials (hr : Reaches step new t l)
    (husers : (observedUsers t).toFinset.card ≤ maxTrackedUsers)
    (hcount : ∀ u, (observedUsers t).count u ≤ 2 ^ 32 - 1) (u : String) :
    (observedUsers t).count u =
      (t.map (individual u)).sum + (t.map (burst u)).sum + l.pending u := by
  induction hr with
  | nil => rfl
  | @cons t l l' a b hr hs ih =>
    have hcons : ∀ u, (observedUsers ((a, b) :: t)).count u =
        (observedUsers [(a, b)]).count u + (observedUsers t).count u := fun u => by
      rw [observedUsers_cons, count_append]
    have hsub : (observedUsers t).toFinset ⊆ (observedUsers ((a, b) :: t)).toFinset := by
      rw [observedUsers_cons, toFinset_append]
      exact Finset.subset_union_right
    have ih := ih ((Finset.card_le_card hsub).trans husers) fun u =>
      (Nat.le_add_left ..).trans (hcons u ▸ hcount u)
    have hfits : ∀ ts, a = .observe u ts → l.pending u + 1 < 2 ^ 32 := by
      rintro ts rfl
      have hone : (observedUsers [(.observe u ts, b)]).count u = 1 := count_singleton_self
      have := hcount u
      rw [hcons] at this
      omega
    have hroom : ∀ user ts, a = .observe user ts → l.evicted user = none := by
      rintro user ts rfl
      exact evicted_of_reaches hr husers
    have hstep := step_conserves hs hroom hfits
    rw [map_cons, map_cons, sum_cons, sum_cons, hcons]
    omega

/-- Of eleven denials in a second, ten are reported and one is pending. -/
theorem run_conserves_denials_eleven : ∃ t l, Reaches step new t l ∧ l.pending "alice" = 1 ∧
    (observedUsers t).count "alice" =
      (t.map (individual "alice")).sum + (t.map (burst "alice")).sum + l.pending "alice" := by
  have hr := Reaches.of_exec step new (.replicate 11 (.observe "alice" 0)) (by decide +kernel)
  exact ⟨_, _, hr, by decide +kernel, run_conserves_denials hr (by decide +kernel)
    (fun u => count_le_length.trans (by decide +kernel)) "alice"⟩

/-! ## Reports in a second -/

/-- The time of the denial that a call observes. -/
def observedAt : Op → Option ℕ
  | .observe _ tsNs => some tsNs
  | .drainPending => none

/-- The times of the denials observed, the last one first. -/
def times (t : List (Op × Ret)) : List ℕ := t.filterMap (observedAt ·.1)

/-- The time of the denial of the user that a call reports individually. -/
def reportedAt (u : String) (e : Op × Ret) : Option ℕ :=
  match individual u e with
  | 0 => none
  | _ + 1 => observedAt e.1

/-- The times of the denials of the user reported individually. -/
def reported (u : String) (t : List (Op × Ret)) : List ℕ := t.filterMap (reportedAt u)

/-- The number of times in the second that begins at `a`. -/
def inSecond (a : ℕ) (ds : List ℕ) : ℕ := ds.countP fun d => a ≤ d ∧ d < a + windowNs

/-- The user that a call evicts. -/
def evictedBy (l : DenialRateLimiter) : Op → Option String
  | .observe user _ => l.evicted user
  | .drainPending => none

/-- A denial that begins another window of the user comes a second or more after the last one. -/
def Rested (l : DenialRateLimiter) (u : String) : Op → Prop
  | .observe user tsNs => user = u → ∀ s ∈ l.users.get? u,
    windowNs ≤ tsNs - s.windowStartNs → windowNs ≤ tsNs - s.lastSeenNs
  | .drainPending => True

instance : (a : Op) → Decidable (l.Rested u a)
  | .observe _ _ => inferInstanceAs (Decidable (_ → ∀ s ∈ l.users.get? u, _ → _))
  | .drainPending => inferInstanceAs (Decidable True)

/-- How the reports of a user at the times `ds` are spread, given the state of the user, when less
    than `carry` of them may be in the second before the window begins. -/
structure Spread (carry : ℕ) (ds : List ℕ) (state : UserState) : Prop where
  start_mem : state.windowStartNs ∈ ds
  seen : ∀ d ∈ ds, d ≤ state.lastSeenNs
  emitted_le : state.emitted ≤ denialRatePerSecond
  /-- The reports of earlier windows are before the start. -/
  late : ∀ a, state.windowStartNs < a → ds.countP (a ≤ ·) < state.emitted
  early : ∀ a, state.windowStartNs < a + windowNs → ds.countP (a ≤ ·) < carry + state.emitted
  inSecond_lt : ∀ a, inSecond a ds < carry + denialRatePerSecond

variable {carry start emitted tsNs : ℕ} {ds : List ℕ}

theorem countP_cons_lt {p : ℕ → Bool} {n : ℕ} (h : ds.countP p < n) :
    (tsNs :: ds).countP p < n + 1 := by
  rw [countP_cons]
  split_ifs <;> omega

/-- In a second that has the last report, no report is too early. -/
theorem inSecond_cons_lt (hstart : start ≤ tsNs) (hle : emitted ≤ denialRatePerSecond)
    (hearly : ∀ a, start < a + windowNs → (tsNs :: ds).countP (a ≤ ·) < carry + emitted)
    (h : ∀ a, inSecond a ds < carry + denialRatePerSecond) (a : ℕ) :
    inSecond a (tsNs :: ds) < carry + denialRatePerSecond := by
  by_cases hin : a ≤ tsNs ∧ tsNs < a + windowNs
  · have hmono : inSecond a (tsNs :: ds) ≤ (tsNs :: ds).countP (a ≤ ·) :=
      countP_mono_left fun d _ hd => decide_eq_true (of_decide_eq_true hd).1
    have := hearly a (hstart.trans_lt hin.2)
    omega
  · rw [inSecond, countP_cons_of_neg (by simpa using hin)]
    exact h a

section

variable (hle : ∀ d ∈ ds, d ≤ tsNs)
include hle

/-- A window begins with a report. -/
theorem Spread.begin (hold : ∀ a, tsNs < a + windowNs → ds.countP (a ≤ ·) < carry)
    (h : ∀ a, inSecond a ds < carry + denialRatePerSecond) :
    Spread carry (tsNs :: ds) ⟨tsNs, 1, 0, tsNs⟩ := by
  have hseen : ∀ d ∈ tsNs :: ds, d ≤ tsNs := forall_mem_cons.2 ⟨le_rfl, hle⟩
  have hone : 1 ≤ denialRatePerSecond := by decide
  refine ⟨mem_cons_self, hseen, hone, fun a ha => ?_, fun a ha => countP_cons_lt (hold a ha),
    inSecond_cons_lt le_rfl hone (fun a ha => countP_cons_lt (hold a ha)) h⟩
  rw [countP_eq_zero.2 fun d hd => by simpa using (hseen d hd).trans_lt ha]
  exact one_pos

/-- A report is added to a window. -/
theorem Spread.more (h : Spread carry ds state) (hlt : state.emitted < denialRatePerSecond) :
    Spread carry (tsNs :: ds)
      { state with emitted := state.emitted + 1, lastSeenNs := tsNs } :=
  ⟨mem_cons_of_mem _ h.start_mem, forall_mem_cons.2 ⟨le_rfl, hle⟩, hlt,
    fun a ha => countP_cons_lt (h.late a ha), fun a ha => countP_cons_lt (h.early a ha),
    inSecond_cons_lt (hle _ h.start_mem) hlt (fun a ha => countP_cons_lt (h.early a ha))
      h.inSecond_lt⟩

/-- What a window that begins carries over: less than a window holds, or nothing. -/
theorem Spread.carried (h : Spread carry ds state) (hcarry : 0 < carry)
    (hwindow : windowNs ≤ tsNs - state.windowStartNs)
    (hok : denialRatePerSecond ≤ carry ∨ windowNs ≤ tsNs - state.lastSeenNs) (a : ℕ)
    (ha : tsNs < a + windowNs) : ds.countP (a ≤ ·) < carry := by
  rcases hok with hrate | hrest
  · have hstart := hle _ h.start_mem
    exact (h.late a (by omega)).trans_le (h.emitted_le.trans hrate)
  · have hpos : 0 < windowNs := by decide
    rw [countP_eq_zero.2]
    · exact hcarry
    · intro d hd
      have := h.seen d hd
      simp only [decide_eq_true_eq]
      omega

/-- A denial is reported in the window, or begins another one, or is swallowed. -/
theorem Spread.decideFor (h : Spread carry ds state) (hcarry : 0 < carry)
    (hok : windowNs ≤ tsNs - state.windowStartNs →
      denialRatePerSecond ≤ carry ∨ windowNs ≤ tsNs - state.lastSeenNs) :
    Spread carry ((reportedAt u (.observe u tsNs, .decision (decideFor state tsNs).1)).toList ++ ds)
      (decideFor state tsNs).2 := by
  have hbegin (hwindow : windowNs ≤ tsNs - state.windowStartNs) :=
    begin hle (h.carried hle hcarry hwindow (hok hwindow)) h.inSecond_lt
  simp only [reportedAt, individual, if_true]
  rw [DenialRateLimiter.decideFor]
  split_ifs with hwindow hpending hemitted
  · exact hbegin hwindow
  · exact hbegin hwindow
  · exact h.more hle hemitted
  · exact { h with seen := hle }

end

theorem reported_cons : reported u (e :: t) = (reportedAt u e).toList ++ reported u t :=
  filterMap_cons_toList ..

/-- Denials are reported when they are observed. -/
theorem reported_subset_times : reported u t ⊆ times t := by
  intro d hd
  obtain ⟨e, he, hat⟩ := mem_filterMap.1 hd
  refine mem_filterMap.2 ⟨e, he, ?_⟩
  rw [reportedAt] at hat
  split at hat
  · cases hat
  · exact hat

/-- The state of a user says how its reports are spread. Windows carry over less than what one of
    them holds, and nothing if they begin after a second without denials. -/
theorem spread_of_reachesBy (h : ReachesBy (fun l a => l.evictedBy a ≠ some u ∧
      (denialRatePerSecond ≤ carry ∨ l.Rested u a)) step new t l) (hcarry : 0 < carry)
    (htimes : (times t).Pairwise (· ≥ ·)) : match l.users.get? u with
      | none => reported u t = []
      | some s => Spread carry (reported u t) s := by
  induction h with
  | nil => rfl
  | @cons t l l' a b _ hok hs ih =>
    cases a with
    | drainPending =>
      cases hs
      have ih := ih htimes
      rw [drainPending, get?_map]
      cases hget : l.users.get? u with
      | none => exact (hget ▸ ih :)
      | some s =>
        rw [hget] at ih
        dsimp only [Option.map_some]
        split_ifs
        · exact { ih with }
        · exact ih
    | observe user tsNs =>
      cases hs
      obtain ⟨hlast, htimes⟩ := pairwise_cons.1 htimes
      have ih := ih htimes
      have hle : ∀ d ∈ reported u t, d ≤ tsNs := fun d hd => hlast d (reported_subset_times hd)
      rw [get?_observe, reported_cons, observe_fst]
      by_cases hu : u = user
      · subst hu
        rw [if_pos rfl, userState]
        cases hget : l.users.get? u with
        | none =>
          have ih : reported u t = [] := (hget ▸ ih :)
          have hfirst : decideFor ⟨tsNs, 0, 0, tsNs⟩ tsNs = (.allow, ⟨tsNs, 1, 0, tsNs⟩) := by
            rw [decideFor, Nat.sub_self]
            rfl
          simp only [getD_none, hfirst, reportedAt, individual, if_true, ih]
          exact .begin (fun _ hd => absurd hd not_mem_nil) (fun _ _ => hcarry)
            fun _ => Nat.add_pos_left hcarry _
        | some s =>
          have ih : Spread carry (reported u t) s := (hget ▸ ih :)
          rw [getD_some]
          exact ih.decideFor hle hcarry fun hwindow =>
            hok.2.imp_right fun hrest => hrest rfl s hget hwindow
      · have hother : ∀ b, reportedAt u (.observe user tsNs, b) = none := fun b => by
          cases b <;> simp [reportedAt, individual, Ne.symm hu]
        rw [if_neg hu, if_neg (by exact hok.1), hother]
        exact ih

/-- A denial, then nine at the end of the second that it begins, and then ten. -/
def twenty : List Op :=
  .observe "alice" 0 :: .replicate 9 (.observe "alice" 999999999) ++
    .replicate 10 (.observe "alice" 1000000000)

theorem inSecond_lt_of_reachesBy (h : ReachesBy (fun l a => l.evictedBy a ≠ some u ∧
      (denialRatePerSecond ≤ carry ∨ l.Rested u a)) step new t l) (hcarry : 0 < carry)
    (htimes : (times t).Pairwise (· ≥ ·)) (a : ℕ) :
    inSecond a (reported u t) < carry + denialRatePerSecond := by
  have hspread := spread_of_reachesBy h hcarry htimes
  split at hspread
  · rw [hspread]
    exact Nat.succ_pos _
  · exact hspread.inSecond_lt a

/-- In any second, fewer denials of a user are reported individually than twice the rate, if the
    times do not decrease and the user is not evicted. They are at most the rate if every window of
    the user begins after a second without a denial. -/
theorem reported_in_second_lt (h : ReachesBy (fun l a => l.evictedBy a ≠ some u) step new t l)
    (htimes : (times t).Pairwise (· ≥ ·)) (a : ℕ) :
    inSecond a (reported u t) < 2 * denialRatePerSecond ∧
    (ReachesBy (fun l a => l.evictedBy a ≠ some u ∧ l.Rested u a) step new t l →
      inSecond a (reported u t) ≤ denialRatePerSecond) := by
  refine ⟨?_, fun hrest => ?_⟩
  · rw [two_mul]
    exact inSecond_lt_of_reachesBy (h.mono fun _ _ hok => ⟨hok, .inl le_rfl⟩) (by decide) htimes a
  · exact Nat.le_of_lt_succ ((inSecond_lt_of_reachesBy (hrest.mono fun _ _ hok =>
      ⟨hok.1, .inr hok.2⟩) one_pos htimes a).trans_eq (Nat.add_comm _ _))

/-- The twenty denials above, and twelve of which ten are reported, with three more after a
    second. -/
theorem reported_in_second_lt_twenty : (∃ t l,
    ReachesBy (fun l a => l.evictedBy a ≠ some "alice") step new t l ∧ (times t).length = 20 ∧
      inSecond 999999999 (reported "alice" t) < 2 * denialRatePerSecond) ∧
    ∃ t l, ReachesBy (fun l a => l.evictedBy a ≠ some "alice" ∧ l.Rested "alice" a) step new t l ∧
      (reported "alice" t).length = 13 ∧
      inSecond 5 (reported "alice" t) ≤ denialRatePerSecond := by
  have hr := ReachesBy.of_exec (fun l a => l.evictedBy a ≠ some "alice") step new twenty
    (by decide +kernel)
  have hr' := ReachesBy.of_exec (fun l a => l.evictedBy a ≠ some "alice" ∧ l.Rested "alice" a) step
    new (.replicate 12 (.observe "alice" 5) ++ .replicate 3 (.observe "alice" 1000000005))
    (by decide +kernel)
  exact ⟨⟨_, _, hr, by decide +kernel, (reported_in_second_lt hr (by decide +kernel) _).1⟩,
    _, _, hr', by decide +kernel, (reported_in_second_lt (hr'.mono fun _ _ hok => hok.1)
      (by decide +kernel) _).2 hr'⟩

/-- The last nineteen of the twenty are all reported. -/
theorem nineteen_in_second : ∃ t l, Reaches step new t l ∧ (times t).Pairwise (· ≥ ·) ∧
    denialRatePerSecond < inSecond 999999999 (reported "alice" t) :=
  ⟨_, _, Reaches.of_exec step new twenty (by decide +kernel), by decide +kernel,
    by decide +kernel⟩

end DenialRateLimiter

end SmallAIOS.Mgmt.Audit
