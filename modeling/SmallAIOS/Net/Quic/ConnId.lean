import Mathlib.Data.List.MinMax
import Mathlib.Data.List.Nodup
import SmallAIOS.Lib.Run
import SmallAIOS.Net.Quic.PktNum

/-!
# Connection ids of the peer

A peer gives out connection ids with sequence numbers, and says below which number they are no
longer to be used. The manager uses the one of the least number that is not retired, and forgets
the retired ones when it cleans up. It keeps the last bound, but does not look at it: an id that
was forgotten is used again if its frame comes again (`active_again`). In runs in which no frame
of a retired id comes, none is used (`active_not_dead`).
-/

namespace SmallAIOS.Net.Quic

def maxActiveCids : ℕ := 8

structure ConnectionId where
  id : List UInt8
  sequence : ℕ
  resetToken : Vector UInt8 16
  retired : Bool

open Lib List

def ConnectionId.retire (c : ConnectionId) : ConnectionId := { c with retired := true }

/-- Retiring an id changes no number, and puts no id in use. -/
theorem modify_retire (i : ℕ) (l : List ConnectionId) :
    (l.modify i .retire).map (·.sequence) = l.map (·.sequence) ∧
      ∀ c ∈ l.modify i .retire, c.retired = false → c ∈ l := by
  induction l generalizing i with
  | nil => cases i <;> exact ⟨rfl, fun _ h _ => h⟩
  | cons d l ih =>
    cases i with
    | zero =>
      refine ⟨rfl, fun c h hc => ?_⟩
      rcases mem_cons.1 h with rfl | h
      · cases hc
      · exact mem_cons_of_mem _ h
    | succ i =>
      refine ⟨congrArg (_ :: ·) (ih i).1, fun c h hc => ?_⟩
      exact mem_cons.2 ((mem_cons.1 h).imp_right fun h => (ih i).2 c h hc)

/-- What the manager knows of the peer's ids. -/
structure ConnectionIdManager where
  remoteCids : List ConnectionId
  retirePriorTo : ℕ

namespace ConnectionIdManager

variable (m : ConnectionIdManager)

def remoteCidCount : ℕ := m.remoteCids.countP (!·.retired)

def addRemoteCid (cid : ConnectionId) : Except NetError Unit × ConnectionIdManager :=
  if m.remoteCids.any (·.sequence = cid.sequence) then (.ok (), m)
  else if m.remoteCidCount ≥ maxActiveCids then (.error .tableFull, m)
  else (.ok (), { m with remoteCids := m.remoteCids ++ [cid] })

def activeRemoteCid : Option ConnectionId :=
  (m.remoteCids.filter (!·.retired)).argmin (·.sequence)

def retireRemoteCidsPriorTo (retirePriorTo : ℕ) : ℕ × ConnectionIdManager :=
  (m.remoteCids.countP fun c => c.sequence < retirePriorTo && !c.retired,
    ⟨m.remoteCids.map fun c => if c.sequence < retirePriorTo && !c.retired then c.retire else c,
      retirePriorTo⟩)

def rotateRemoteCid : Option ConnectionId × ConnectionIdManager :=
  match m.activeRemoteCid with
  | none => (none, m)
  | some current =>
    let i := m.remoteCids.findIdx (·.sequence = current.sequence)
    let m := { m with remoteCids := m.remoteCids.modify i .retire }
    (m.activeRemoteCid, m)

def garbageCollect : ConnectionIdManager :=
  { m with remoteCids := m.remoteCids.filter (!·.retired) }

/-! ## Runs -/

inductive Call
  | addRemoteCid (cid : ConnectionId)
  | retireRemoteCidsPriorTo (retirePriorTo : ℕ)
  | rotateRemoteCid
  | garbageCollect

/-- The manager, with the numbers of the ids that were retired and the bounds received. -/
structure Monitored where
  manager : ConnectionIdManager
  retired : List ℕ
  bounds : List ℕ

namespace Monitored

variable {s s' : Monitored} {a : Call}

def new : Monitored := ⟨⟨[], 0⟩, [], []⟩

/-- The id of the number was retired, or is below a bound. -/
def Dead (s : Monitored) (n : ℕ) : Prop := n ∈ s.retired ∨ ∃ b ∈ s.bounds, n < b
  deriving Decidable

/-- The manager after a call, of which the ids that are retired are noted. -/
def note (s : Monitored) (m : ConnectionIdManager) (bounds : List ℕ) : Monitored :=
  ⟨m, s.retired ++ (m.remoteCids.filter (·.retired)).map (·.sequence), bounds⟩

def step (s : Monitored) : Call → Option (Unit × Monitored)
  | .addRemoteCid cid => some ((), s.note (s.manager.addRemoteCid cid).2 s.bounds)
  | .retireRemoteCidsPriorTo n =>
    some ((), s.note (s.manager.retireRemoteCidsPriorTo n).2 (n :: s.bounds))
  | .rotateRemoteCid => some ((), s.note s.manager.rotateRemoteCid.2 s.bounds)
  | .garbageCollect => some ((), s.note s.manager.garbageCollect s.bounds)

/-- An id that is new to the manager is not dead. -/
def Fresh (s : Monitored) : Call → Prop
  | .addRemoteCid cid =>
    s.manager.remoteCids.any (·.sequence = cid.sequence) ∨ ¬s.Dead cid.sequence
  | _ => True

/-- Ids in use have different numbers, and are not dead. -/
structure Inv (s : Monitored) : Prop where
  nodup : (s.manager.remoteCids.map (·.sequence)).Nodup
  alive : ∀ c ∈ s.manager.remoteCids, c.retired = false → ¬s.Dead c.sequence

/-- An id that is in use does not have the number of one that is retired. -/
theorem Inv.note {m : ConnectionIdManager} {bounds : List ℕ}
    (hn : (m.remoteCids.map (·.sequence)).Nodup)
    (hc : ∀ c ∈ m.remoteCids, c.retired = false → ¬Dead ⟨m, s.retired, bounds⟩ c.sequence) :
    Inv (s.note m bounds) := by
  refine ⟨hn, fun c hmem hret hdead => hc c hmem hret (hdead.imp_left fun hd => ?_)⟩
  refine (mem_append.1 hd).resolve_right fun hd => ?_
  obtain ⟨d, hd, heq⟩ := mem_map.1 hd
  obtain ⟨hd, hdret⟩ := mem_filter.1 hd
  rw [inj_on_of_nodup_map hn hd hmem heq, hret] at hdret
  cases hdret

/-- The ids in use after a call were in use before, or one is added. -/
theorem Inv.step (h : Inv s) (hok : Fresh s a) (hs : s.step a = some ((), s')) : Inv s' := by
  cases a with
  | addRemoteCid cid =>
    cases hs
    rw [addRemoteCid]
    split_ifs with hknown
    · exact .note h.nodup h.alive
    · exact .note h.nodup h.alive
    · refine .note ?_ fun c hmem hret => ?_
      · rw [map_append]
        refine nodup_append_comm.1 (nodup_cons.2 ⟨fun hmem => hknown ?_, h.nodup⟩)
        obtain ⟨c, hc, heq⟩ := mem_map.1 hmem
        exact any_eq_true.2 ⟨c, hc, decide_eq_true heq⟩
      · rcases mem_append.1 hmem with hmem | hmem
        · exact h.alive c hmem hret
        · cases mem_singleton.1 hmem
          exact hok.resolve_left hknown
  | retireRemoteCidsPriorTo n =>
    cases hs
    refine .note ?_ fun c hmem hret hdead => ?_
    · convert h.nodup using 1
      refine map_map.trans (map_congr_left fun c _ => ?_)
      dsimp only [Function.comp]
      split <;> rfl
    · obtain ⟨d, hd, rfl⟩ := mem_map.1 hmem
      split_ifs at hret hdead with hnot
      · cases hret
      · have hle : n ≤ d.sequence := by simpa [hret] using hnot
        refine h.alive d hd hret (hdead.imp_right ?_)
        rintro ⟨b, hb, hlt⟩
        rcases mem_cons.1 hb with rfl | hb
        · exact absurd hlt hle.not_gt
        · exact ⟨b, hb, hlt⟩
  | rotateRemoteCid =>
    cases hs
    rw [rotateRemoteCid]
    split
    · exact .note h.nodup h.alive
    · obtain ⟨hseq, hmem⟩ := modify_retire _ s.manager.remoteCids
      exact .note (hseq ▸ h.nodup) fun c hc hret => h.alive c (hmem c hc hret) hret
  | garbageCollect =>
    cases hs
    exact .note (h.nodup.sublist (filter_sublist.map _)) fun c hc => h.alive c (mem_filter.1 hc).1

/-- Until the frame of a dead id comes, no dead id is used. -/
theorem active_not_dead {t : List (Call × Unit)} (hr : ReachesBy Fresh step new t s) :
    ∀ c ∈ s.manager.activeRemoteCid, ¬s.Dead c.sequence := by
  intro c hc
  have hinv := hr.invariant ⟨nodup_nil, by rintro c ⟨⟩⟩ fun _ _ _ _ => Inv.step
  obtain ⟨hmem, hret⟩ := mem_filter.1 (argmin_mem hc)
  exact hinv.alive c hmem (by simpa using hret)

/-- The frame of the id with the number. -/
def frame (n : ℕ) : Call := .addRemoteCid ⟨[], n, .replicate 16 0, false⟩

/-- Two ids, of which the first one is below a bound. -/
theorem active_after_bound : ∃ t s, ReachesBy Fresh step new t s ∧ s.Dead 0 ∧
    ∃ c ∈ s.manager.activeRemoteCid, ¬s.Dead c.sequence := by
  have hr : ReachesBy Fresh step new [(.retireRemoteCidsPriorTo 1, ()), (frame 1, ()),
      (frame 0, ())] _ := .cons (.cons (.cons .nil (.inr (by decide)) rfl)
        (.inr (by decide +kernel)) rfl) trivial rfl
  exact ⟨_, _, hr, by decide +kernel, _, rfl, active_not_dead hr _ rfl⟩

/-- An id that was rotated away and forgotten is used again if its frame comes again. -/
theorem active_again : ∃ t s, Reaches step new t s ∧
    ∃ c ∈ s.manager.activeRemoteCid, s.Dead c.sequence :=
  ⟨_, _, Reaches.of_exec step new
    [frame 0, frame 1, .rotateRemoteCid, .garbageCollect, frame 0] (by decide +kernel),
    by decide +kernel⟩

end Monitored

end ConnectionIdManager

end SmallAIOS.Net.Quic
