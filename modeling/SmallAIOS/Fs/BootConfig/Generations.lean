import SmallAIOS.Fs.BootConfig.Active

/-!
# Generations

`updateAtomic` refuses a generation that is not higher than those of both slots. If
no slot is valid, `stageNewActiveSlot` does not look at them, and starts again with
1, whatever was written before (`not_pairwise_lt_of_rollback`).

Other than that the generations of the records that are written increase along
every run, whether its calls succeed, fail or are interrupted
(`Written.pairwise_lt`): the slots keep a generation at least as high as all that
were written (`Slots.Covers`). This needs reads that do not fail, and writes that do
not garble a block.
-/

namespace SmallAIOS.Fs.BootConfig

open Lib List BootConfigRecord Function

/-- The generations of the new records that a call has written, if it succeeded. -/
def newGenerations (c : Call) (ws : List Block) (o : Option Ret) : List UInt64 :=
  match c with
  | .markInvalid _ => []
  | _ => if o.any Ret.isOk then ws.map generationAt else []

/-- From `d₀`, calls that are all allowed where they are made may lead to the disk `d`, and those
    that succeeded have written new records of these generations, in order. -/
inductive Written (f : Faults Block) (sha3 : List UInt8 → Digest) (P : Partition)
    (ok : Slots → Call → Prop) (d₀ : Disk Block) : List UInt64 → Disk Block → Prop
  | nil : Written f sha3 P ok d₀ [] d₀
  | call {gens : List UInt64} {d d' : Disk Block} {c : Call} {ws : List Block} {o : Option Ret} :
    Written f sha3 P ok d₀ gens d → ok (slots sha3 P d) c → (c.prog sha3 P).Runs f d ws o d' →
      Written f sha3 P ok d₀ (gens ++ newGenerations c ws o) d'

namespace Slots

/-- The call does not use a generation again: what is written decodes, and if no record is valid,
    the first update is staged only if none can be read (but for generation 0). -/
def KeepsCount (v : Slots) : Call → Prop
  | .updateAtomic newRecord => newRecord.Current
  | .stageNewActiveSlot _ => (∃ r, pickActive v = .ok r) ∨ v.Below 1
  | _ => True

/-- The generations increase, and those in the slots are at least as high. -/
structure Covers (v : Slots) (gens : List UInt64) : Prop where
  pairwise : gens.Pairwise (· < ·)
  le : ∀ g ∈ gens, ∃ s, ∃ r ∈ v s, g ≤ r.generation

variable {v : Slots} {gens : List UInt64} {rec : BootConfigRecord} {s t : SlotPosition} {c : Call}
  {sha3 : List UInt8 → Digest}

/-- What is written decodes, and is a new record of a higher generation than all others, or the same
    record again. -/
theorem KeepsCount.writes (h : v.KeepsCount c) (hcurrent : ∀ s, ∀ r ∈ v s, r.Current)
    (hw : v.Writes c t rec) : rec.Current ∧ (v.Below rec.generation ∨
      ¬ c.Updates ∧ ∀ r ∈ v t, r.generation = rec.generation) := by
  cases hw with
  | update hbelow => exact ⟨h, .inl hbelow⟩
  | stage hactive hbelow | confirm hactive hbelow =>
    have ha := hcurrent _ _ (pickActive_eq_ok hactive).1
    exact ⟨⟨ha.1, ha.2⟩, .inl hbelow⟩
  | first hnone =>
    exact ⟨⟨rfl, rfl⟩, .inl (h.resolve_left fun ⟨r, hr⟩ => nomatch hr.symm.trans hnone)⟩
  | mark hr =>
    have ha := hcurrent _ _ hr
    refine ⟨⟨ha.1, ha.2⟩, .inr ⟨id, fun r hr' => ?_⟩⟩
    cases hr.symm.trans hr'
    rfl

namespace Covers

/-- A record may be replaced by one that is not of a lower generation. -/
theorem update (h : v.Covers gens) (hle : ∀ r ∈ v s, r.generation ≤ rec.generation) :
    Covers (update v s (some (sealed sha3 rec))) gens where
  pairwise := h.pairwise
  le g hg := by
    obtain ⟨t, r, hr, hgr⟩ := h.le g hg
    by_cases ht : t = s
    · exact ⟨s, _, update_self .., UInt64.le_trans hgr (hle r (ht ▸ hr))⟩
    · exact ⟨t, r, by rwa [update_of_ne ht], hgr⟩

/-- A higher generation may be added. -/
theorem append (h : v.Covers gens) (hbelow : v.Below rec.generation) :
    Covers (Function.update v s (some (sealed sha3 rec))) (gens ++ [rec.generation]) where
  pairwise := by
    refine pairwise_append.2 ⟨h.pairwise, pairwise_singleton .., fun g hg g' hg' => ?_⟩
    obtain ⟨t, r, hr, hgr⟩ := h.le g hg
    rw [mem_singleton.1 hg']
    exact UInt64.lt_of_le_of_lt hgr (hbelow t r hr)
  le g hg := by
    rcases mem_append.1 hg with hg | hg
    · exact (h.update fun r hr => UInt64.le_of_lt (hbelow s r hr)).le g hg
    · rw [mem_singleton.1 hg]
      exact ⟨s, _, Function.update_self .., UInt64.le_refl _⟩

end Covers

end Slots

section Generations

variable {f : Faults Block} {sha3 : List UInt8 → Digest} {P : Partition} {d₀ d d' : Disk Block}
  {c : Call} {gens : List UInt64} {ws : List Block} {o : Option Ret} {s : SlotPosition}

theorem newGenerations_nil : newGenerations c [] o = [] := by
  cases c <;> simp [newGenerations]

theorem newGenerations_of_not_ok (h : ∀ r ∈ o, r.isOk = false) : newGenerations c ws o = [] := by
  have hany : o.any Ret.isOk = false := by cases o <;> simp_all
  cases c <;> simp [newGenerations, hany]

/-- A call that writes one record has written its generation, or none that counts. -/
theorem newGenerations_singleton {b : Block} : newGenerations c [b] o = [] ∨
    c.Updates ∧ newGenerations c [b] o = [generationAt b] := by
  cases hany : o.any Ret.isOk <;> cases c <;> simp [newGenerations, Call.Updates]

/-- On a device with other blocks nothing is done. -/
theorem prog_of_blockSize_ne (sha3 : List UInt8 → Digest)
    (hsize : P.blockSize ≠ bootConfigRecordSize) (c : Call) :
    ∃ ret, c.prog sha3 P = .pure ret := by
  cases c with
  | updateAtomic newRecord =>
    rw [Call.prog, updateAtomic, if_pos hsize]
    exact ⟨_, rfl⟩
  | stageNewActiveSlot newActive =>
    rw [Call.prog, stageNewActiveSlot, readActive, if_pos hsize]
    exact ⟨_, rfl⟩
  | bootSuccess disarm =>
    rw [Call.prog, bootSuccess, readActive, if_pos hsize]
    exact ⟨_, rfl⟩
  | markInvalid slot =>
    rw [Call.prog, markInvalid, if_pos hsize]
    exact ⟨_, rfl⟩

theorem current_of_slots {r : BootConfigRecord} (h : r ∈ slots sha3 P d s) : r.Current := by
  rw [slots] at h
  cases hdecode : decodeRecord sha3 (d (P.lba + s.lbaDelta)) with
  | error e =>
    rw [hdecode] at h
    cases h
  | ok r' =>
    rw [hdecode] at h
    cases h
    exact current_of_decodeRecord hdecode

variable {rec : BootConfigRecord}

/-- However a write ends, the generations go on to increase. -/
theorem Slots.Covers.write {v v' : Slots} {t : SlotPosition}
    (h : v.Covers gens) (hgen : v.Below rec.generation ∨
      ¬ c.Updates ∧ ∀ r ∈ v t, r.generation = rec.generation)
    (hv' : v' = Function.update v t (some (sealed sha3 rec)) ∨ v' = v)
    (hnew : newGenerations c ws o = [] ∨ c.Updates ∧
      newGenerations c ws o = [rec.generation] ∧
        v' = Function.update v t (some (sealed sha3 rec))) :
    v'.Covers (gens ++ newGenerations c ws o) := by
  have hle : ∀ r ∈ v t, r.generation ≤ rec.generation := by
    intro r hr
    rcases hgen with hbelow | ⟨-, heq⟩
    · exact UInt64.le_of_lt (hbelow t r hr)
    · exact heq r hr ▸ UInt64.le_refl _
  rcases hnew with hnew | ⟨hupdates, hnew, rfl⟩
  · rw [hnew, append_nil]
    rcases hv' with rfl | rfl
    · exact h.update hle
    · exact h
  · rw [hnew]
    exact h.append (hgen.resolve_right fun hmark => hmark.1 hupdates)

/-- However a call ends, the generations go on to increase. -/
theorem Slots.Covers.call (hf : ¬ f.readFails)
    (hleaves : ∀ old new, ∀ b ∈ f.leaves old new, b = old ∨ b = new)
    (hsize : P.blockSize = bootConfigRecordSize) (h : (slots sha3 P d).Covers gens)
    (hkeeps : (slots sha3 P d).KeepsCount c) (hr : (c.prog sha3 P).Runs f d ws o d') :
    (slots sha3 P d').Covers (gens ++ newGenerations c ws o) := by
  rcases runs_prog hsize hf hr with ⟨-, -, rfl, rfl, -⟩ | ⟨t, rec, k, b, hplan, rfl, hb, ho⟩
  · rwa [newGenerations_nil, append_nil]
  obtain ⟨hw, herror⟩ := plan_eq_write hplan
  obtain ⟨hcurrent, hgen⟩ := hkeeps.writes (fun _ _ => current_of_slots) hw
  have hslots : slots sha3 P (Function.update d (P.lba + t.lbaDelta) (encodeRecord sha3 rec)) =
      Function.update (slots sha3 P d) t (some (sealed sha3 rec)) := by
    rw [slots_update_encodeRecord, readBack, if_pos hcurrent]
  -- Whatever happened, the slot holds the new record or the old one.
  have hd' : slots sha3 P (Function.update d (P.lba + t.lbaDelta) b) =
        Function.update (slots sha3 P d) t (some (sealed sha3 rec)) ∨
      slots sha3 P (Function.update d (P.lba + t.lbaDelta) b) = slots sha3 P d := by
    have hb' : b = encodeRecord sha3 rec ∨ b = d (P.lba + t.lbaDelta) := by
      rcases hb with hb | hb | hb
      · exact .inl hb
      · exact .inr hb
      · exact (hleaves _ _ b hb).symm
    rcases hb' with rfl | rfl
    · exact .inl hslots
    · exact .inr (by rw [update_eq_self])
  refine h.write hgen hd' ?_
  -- Only what a call that succeeded has written counts, and then the write is complete.
  by_cases hok : ∃ r ∈ o, r.isOk = true
  · obtain ⟨r, hro, hrok⟩ := hok
    rcases ho r hro with ⟨e, rfl⟩ | ⟨-, rfl, rfl⟩
    · cases (herror e).symm.trans hrok
    · refine newGenerations_singleton.imp_right fun ⟨hupdates, hnew⟩ => ⟨hupdates, ?_, hslots⟩
      rw [hnew, generationAt_encodeRecord]
  · refine .inl (newGenerations_of_not_ok fun r hro => ?_)
    exact Bool.eq_false_iff.2 fun hrok => hok ⟨r, hro, hrok⟩

/-- The generations of the new records that successful calls write increase. -/
theorem Written.pairwise_lt (hf : ¬ f.readFails)
    (hleaves : ∀ old new, ∀ b ∈ f.leaves old new, b = old ∨ b = new)
    (h : Written f sha3 P Slots.KeepsCount d₀ gens d) : gens.Pairwise (· < ·) := by
  suffices hcovers : (slots sha3 P d).Covers gens from hcovers.pairwise
  induction h with
  | nil => exact ⟨.nil, nofun⟩
  | @call _ _ _ c _ _ _ hkeeps hr ih =>
    by_cases hsize : P.blockSize = bootConfigRecordSize
    · exact ih.call hf hleaves hsize hkeeps hr
    · obtain ⟨ret, hret⟩ := prog_of_blockSize_ne sha3 hsize c
      rw [hret] at hr
      obtain ⟨rfl, rfl, -⟩ := Prog.runs_pure hr
      rwa [newGenerations_nil, append_nil]

theorem newGenerations_of_ok {r : Ret} (hc : c.Updates) (hr : r.isOk = true) :
    newGenerations c [encodeRecord sha3 rec] (some r) = [rec.generation] := by
  have hgen := generationAt_encodeRecord sha3 rec
  cases c with
  | markInvalid slot => exact hc.elim
  | updateAtomic newRecord => simp [newGenerations, hr, hgen]
  | stageNewActiveSlot newActive => simp [newGenerations, hr, hgen]
  | bootSuccess disarm => simp [newGenerations, hr, hgen]

variable {ok : Slots → Call → Prop}

/-- A call in which nothing goes wrong. -/
theorem Written.exec {k : Except BlockError Unit → Ret} {new : List UInt64}
    (h : Written f sha3 P ok d₀ gens d) (hsize : P.blockSize = bootConfigRecordSize)
    (hok : ok (slots sha3 P d) c) (hplan : (slots sha3 P d).plan c = .write s rec k)
    (hnew : newGenerations c [encodeRecord sha3 rec] (some (k (.ok ()))) = new) :
    Written f sha3 P ok d₀ (gens ++ new)
      (update d (P.lba + s.lbaDelta) (encodeRecord sha3 rec)) := by
  have hr := Prog.runs_exec (f := f) (c.prog sha3 P) d
  rw [exec_prog hsize, hplan] at hr
  exact hnew ▸ h.call hok hr

theorem written_oneRecord (hok : ok (fun _ => none) (.updateAtomic (.new .a 1))) :
    Written f zeroDigest firstBlocks ok blank [1] oneRecord := by
  have hplan : (slots zeroDigest firstBlocks blank).plan (.updateAtomic (.new .a 1)) =
      .write .slotX (.new .a 1) fun r => .updated (stored .slotX r) := by
    rfl
  exact Written.nil.exec rfl (slots_blank ▸ hok) hplan (newGenerations_of_ok trivial rfl)

end Generations

/-- A record is written and another one staged. -/
theorem Written.pairwise_lt_stage : ∃ d,
    Written Faults.none zeroDigest firstBlocks Slots.KeepsCount blank [1, 2] d ∧
      [(1 : UInt64), 2].Pairwise (· < ·) := by
  have hplan : (slots zeroDigest firstBlocks oneRecord).plan (.stageNewActiveSlot .b) =
      .write .slotY (staging (.new .a 1) .b 2) fun r =>
        .staged ((stored .slotY r).map fun pos => (staging (.new .a 1) .b 2, pos)) := by
    rw [slots_oneRecord]
    rfl
  have hkeeps : (slots zeroDigest firstBlocks oneRecord).KeepsCount (.stageNewActiveSlot .b) := by
    rw [slots_oneRecord]
    exact .inl ⟨(.new .a 1, .slotX), rfl⟩
  have hone : Written Faults.none zeroDigest firstBlocks Slots.KeepsCount blank [1] oneRecord :=
    written_oneRecord ⟨rfl, rfl⟩
  have h := hone.exec rfl hkeeps hplan (newGenerations_of_ok trivial rfl)
  exact ⟨_, h, h.pairwise_lt id fun _ _ _ => False.elim⟩

/-- The disk after its only record is invalidated. -/
def invalidated : Disk Block :=
  update oneRecord (firstBlocks.lba + SlotPosition.slotX.lbaDelta)
    (encodeRecord zeroDigest { new .a 1 with valid := false })

/-- After the only record is invalidated, its generation is used again. -/
theorem not_pairwise_lt_of_rollback : ∃ gens d,
    Written Faults.none zeroDigest firstBlocks (fun _ _ => True) blank gens d ∧
      ¬ gens.Pairwise (· < ·) := by
  have hmark : (slots zeroDigest firstBlocks oneRecord).plan (.markInvalid .slotX) =
      .write .slotX { new .a 1 with valid := false } fun r =>
        .marked (stored () r) := by
    rw [slots_oneRecord]
    rfl
  have hstage : (slots zeroDigest firstBlocks invalidated).plan (.stageNewActiveSlot .b) =
      .write .slotX (firstStaging .b) fun r => .staged (stored (firstStaging .b, .slotX) r) := by
    rw [invalidated, slots_update_encodeRecord, slots_oneRecord]
    rfl
  have hone : Written Faults.none zeroDigest firstBlocks (fun _ _ => True) blank [1] oneRecord :=
    written_oneRecord trivial
  have hinvalid := hone.exec rfl trivial hmark rfl
  exact ⟨[1, 1], _, hinvalid.exec rfl trivial hstage (newGenerations_of_ok trivial rfl), by decide⟩

end SmallAIOS.Fs.BootConfig
