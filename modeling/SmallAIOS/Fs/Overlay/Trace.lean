import SmallAIOS.Fs.Overlay.Write

/-!
# The states of the upper layer while a model is added

Adding a model touches four files, one after the other: the staging file, the two
sidecars and, by the rename, the model itself. The state of the upper layer at each
point of `add` is described by the state before it (`At`): by the files that have been
touched and the directories that have been made.

* `at_of_mem_cuts`: if no operation of the upper layer fails, every state in which a loss
  of power leaves it is as described;
* `add_eq_ok`: `add` gets to its end, unless it is rejected, the source fails or the cap
  is exceeded.
-/

namespace SmallAIOS.Fs.Overlay

open Lib Fallible MockWritableUpperLayer List SortedMap

/-! ## The files of a model -/

def stagingKey (name : Path) : Path := stem name ++ stagingSuffix
def sha3Key (name : Path) : Path := stem name ++ ".sha3".toList
def sigKey (name : Path) : Path := stem name ++ ".sig".toList

theorem normalize_staging (name : Path) : normalize (name ++ stagingSuffix) = stagingKey name :=
  normalize_append (by decide)

theorem normalize_sha3SidecarPath (name : Path) : normalize (sha3SidecarPath name) = sha3Key name :=
  normalize_append (by decide)

theorem normalize_sigSidecarPath (name : Path) : normalize (sigSidecarPath name) = sigKey name :=
  normalize_append (by decide)

variable {name : Path}

theorem stagingKey_ne_nil : stagingKey name ≠ [] := by
  simp [stagingKey, stagingSuffix]
theorem sha3Key_ne_nil {name : Path} : sha3Key name ≠ [] := by simp [sha3Key]
theorem sigKey_ne_nil {name : Path} : sigKey name ≠ [] := by simp [sigKey]

variable {a b : Path}

theorem stagingKey_ne_sha3Key : stagingKey a ≠ sha3Key b :=
  append_ne_append (by decide) (by decide) (by decide)

theorem stagingKey_ne_sigKey : stagingKey a ≠ sigKey b :=
  append_ne_append (by decide) (by decide) (by decide)

theorem sha3Key_ne_sigKey : sha3Key a ≠ sigKey b :=
  append_ne_append (by decide) (by decide) (by decide)

theorem normalize_ne_stagingKey : normalize name ≠ stagingKey name :=
  normalize_ne_append (by decide)

theorem normalize_ne_sha3Key : normalize name ≠ sha3Key name :=
  normalize_ne_append (by decide)

theorem normalize_ne_sigKey : normalize name ≠ sigKey name :=
  normalize_ne_append (by decide)

/-! ## The state at a point -/

/-- The files that have been touched. -/
def touched (name : Path) : Point → List Path
  | .cleared | .staging => [stagingKey name]
  | .sidecarOpen => [stagingKey name, sha3Key name]
  | .sidecar | .signed => [stagingKey name, sha3Key name, sigKey name]
  | .renamed => [stagingKey name, sha3Key name, sigKey name, normalize name]

/-- The directories that have been made, up to the rename. -/
def made (name : Path) : Point → List Path
  | .cleared => []
  | .staging => parents (stagingKey name)
  | .sidecarOpen | .sidecar => parents (stagingKey name) ++ parents (sha3Key name)
  | .signed | .renamed =>
    parents (stagingKey name) ++ parents (sha3Key name) ++ parents (sigKey name)

variable (u : MockWritableUpperLayer) (name : Path) (digest : Digest) (content : List UInt8)

/-- The upper layer at a point of adding a model, where it was `u` before. -/
structure At (point : Point) (now : MockWritableUpperLayer) : Prop where
  files : ∀ key, key ∉ touched name point → now.files.get? key = u.files.get? key
  dirs : point ≠ .renamed → ∀ dir, now.dirs.get? dir = none ↔
    u.dirs.get? dir = none ∧ dir ∉ made name point
  opened : point = .sidecarOpen → now.files.get? (sha3Key name) = some []
  written : point = .sidecar ∨ point = .signed ∨ point = .renamed →
    now.files.get? (sha3Key name) = some (encodeHex digest)
  model : point = .renamed → now.files.get? (normalize name) = some content

variable {u name digest content} {now now' : MockWritableUpperLayer} {point : Point}
  {data bytes : List UInt8}

theorem at_cleared : At u name digest content .cleared (u.unlink (name ++ stagingSuffix)) where
  files key hk := by
    rw [touched, mem_singleton] at hk
    exact get?_erase_of_ne (normalize_staging name ▸ hk)
  dirs _ dir := by simp [made, MockWritableUpperLayer.unlink]
  opened h := by cases h
  written h := by simp at h
  model h := by cases h

/-- Writing to the staging file. -/
theorem At.of_staging (h : At u name digest content .staging now)
    (hfiles : ∀ key, key ≠ stagingKey name → now'.files.get? key = now.files.get? key)
    (hdirs : now'.dirs = now.dirs) : At u name digest content .staging now' where
  files key hk := by rw [hfiles key (by simpa [touched] using hk), h.files key hk]
  dirs hp := by
    rw [hdirs]
    exact h.dirs hp
  opened h := by cases h
  written h := by simp at h
  model h := by cases h

/-- Touching the signature sidecar. -/
theorem At.of_signature (now' : MockWritableUpperLayer) (point' : Point)
    (h : At u name digest content point now)
    (hp : point = .sidecar ∨ point = .signed) (hp' : point' = .sidecar ∨ point' = .signed)
    (hfiles : ∀ key, key ≠ sigKey name → now'.files.get? key = now.files.get? key)
    (hdirs : ∀ dir, now'.dirs.get? dir = none ↔
      u.dirs.get? dir = none ∧ dir ∉ made name point') :
    At u name digest content point' now' ∧
      now'.files.get? (stagingKey name) = now.files.get? (stagingKey name) := by
  have ht : ∀ p, p = .sidecar ∨ p = .signed →
      touched name p = [stagingKey name, sha3Key name, sigKey name] := by
    rintro p (rfl | rfl) <;> rfl
  refine ⟨⟨fun key hk => ?_, fun _ => hdirs, fun h => ?_, fun _ => ?_, fun h => ?_⟩, ?_⟩
  · rw [ht _ hp'] at hk
    have hsig : key ≠ sigKey name := by
      rintro rfl
      simp at hk
    rw [hfiles key hsig, h.files key (by rwa [ht _ hp])]
  · rcases hp' with rfl | rfl <;> cases h
  · rw [hfiles _ sha3Key_ne_sigKey]
    exact h.written (hp.imp id .inl)
  · rcases hp' with rfl | rfl <;> cases h
  · exact hfiles _ stagingKey_ne_sigKey

/-! ## The run of `add` -/

/-- What the source delivers up to its end, or up to an error. -/
def delivered : List Read → List UInt8
  | [] => []
  | none :: _ => []
  | some chunk :: reads => if chunk.1 = [] then [] else chunk.1 ++ delivered reads

variable (u name digest content) (cap : OverlayCap)

/-- No failure is planned, the states passed so far are as described, and `P` holds of the upper
    layer. -/
structure Quiet (P : MockWritableUpperLayer → Prop) (w : OverlayWriter) : Prop where
  faults : w.faults = []
  cap : w.cap = cap
  cuts : ∀ cut ∈ w.cuts, At u name digest content cut.1 cut.2
  now : P w.upper

/-- The point of `add`, with the given bytes in the staging file. -/
def Staged (point : Point) (bytes : List UInt8) (now : MockWritableUpperLayer) : Prop :=
  At u name digest content point now ∧ now.files.get? (stagingKey name) = some bytes

/-- The model is in place, with its sidecars. -/
structure Added (signature : Option (List UInt8)) (now : MockWritableUpperLayer) : Prop where
  renamed : At u name digest content .renamed now
  staging : now.files.get? (stagingKey name) = none
  signature : now.files.get? (sigKey name) = signature

/-- The model that is added, and where. -/
structure Adding where
  u : MockWritableUpperLayer
  name : Path
  digest : Digest
  content : List UInt8
  cap : OverlayCap

namespace Adding

variable (j : Adding)

abbrev At := Overlay.At j.u j.name j.digest j.content
abbrev Quiet := Overlay.Quiet j.u j.name j.digest j.content j.cap
abbrev Staged := Overlay.Staged j.u j.name j.digest j.content
abbrev Added := Overlay.Added j.u j.name j.digest j.content

end Adding

variable {u name digest content cap} {j : Adding} {P Q : MockWritableUpperLayer → Prop}
  {E : OverlayWriter → Prop} {w : OverlayWriter}
  {f : MockWritableUpperLayer → Except UpperError (Unit × MockWritableUpperLayer)}

theorem Quiet.imp (h : j.Quiet P w) (hPQ : ∀ now, P now → Q now) : j.Quiet Q w :=
  ⟨h.faults, h.cap, h.cuts, hPQ _ h.now⟩

/-- An operation that does not fail, where no failure is planned. -/
theorem onUpper_quiet {α : Type} {P E : OverlayWriter → Prop} {Q : α → OverlayWriter → Prop}
    {f : MockWritableUpperLayer → Except UpperError (α × MockWritableUpperLayer)}
    (h : ∀ w, P w → w.faults = [] ∧ ∃ a u, f w.upper = .ok (a, u) ∧ Q a { w with upper := u }) :
    Triple P (onUpper f) Q E := by
  intro w hw
  obtain ⟨hfaults, a, u, hf, hQ⟩ := h w hw
  have hx : onUpper f w = (.ok a, { w with upper := u }) := by
    simp only [onUpper, hfaults, head?_nil, hf, tail_nil]
  rw [hx]
  exact hQ

/-- An operation that does not fail on its own goes to the next point. -/
theorem step_triple
    (hf : ∀ now, P now → ∃ now', f now = .ok ((), now') ∧ j.At point now' ∧ Q now') :
    Triple (j.Quiet P) (io (step point (onUpper f))) (fun _ => j.Quiet Q) E := by
  refine Triple.mapError (Triple.bind (Q := fun _ w => w.faults = [] ∧ w.cap = j.cap ∧
    (∀ cut ∈ w.cuts, j.At cut.1 cut.2) ∧
    j.At point w.upper ∧ Q w.upper) (onUpper_quiet fun w hq => ?_)
    fun _ => Triple.modify ?_)
  · obtain ⟨now', hnow, hat, hQ⟩ := hf w.upper hq.now
    exact ⟨hq.faults, (), now', hnow, hq.faults, hq.cap, hq.cuts, hat, hQ⟩
  · rintro w ⟨hfaults, hcap, hcuts, hat, hQ⟩
    refine ⟨hfaults, hcap, fun cut hcut => ?_, hQ⟩
    rcases mem_append.1 hcut with hcut | hcut
    · exact hcuts cut hcut
    · rw [mem_singleton.1 hcut]
      exact hat

/-- Giving up removes the staging file. -/
theorem abort_triple :
    Triple (j.Quiet (j.Staged .staging bytes))
      (attempt (io (step .staging (unlink (j.name ++ stagingSuffix)))))
      (fun _ => j.Quiet fun _ => True) E := by
  refine Triple.attempt (E := E) (step_triple fun now h => ?_)
  refine ⟨_, rfl, h.1.of_staging (fun key hk => ?_) rfl, trivial⟩
  exact get?_erase_of_ne (normalize_staging j.name ▸ hk)

theorem append_staging_triple :
    Triple (j.Quiet (j.Staged .staging bytes))
      (io (step .staging (append (j.name ++ stagingSuffix) data))) (fun _ => j.Quiet
        (j.Staged .staging (bytes ++ data))) E := by
  refine step_triple fun now h => ?_
  obtain ⟨now', hnow, hfiles, hdirs⟩ := exists_append (normalize_staging j.name ▸ h.2) data
  rw [normalize_staging] at hfiles
  have hat := h.1.of_staging (fun key hk => by rw [hfiles, get?_insert_of_ne hk]) hdirs
  exact ⟨now', by rw [hnow]; rfl, hat, hat, by rw [hfiles, get?_insert_self]⟩

/-- Copying ends with the bytes of the source in the staging file, unless the source fails or the
    cap is below the largest size there is. -/
theorem copySource_triple {reads : List Read} {copied : List UInt8} {used : ℕ} :
    Triple (j.Quiet (j.Staged .staging copied))
      (copySource (j.name ++ stagingSuffix) used reads copied)
      (fun all w => all = copied ++ delivered reads ∧ j.Quiet (j.Staged .staging all) w)
      (fun w => j.Quiet (fun _ => True) w ∧ (none ∈ reads ∨ j.cap.upperMaxBytes < 2 ^ 64 - 1)) := by
  induction reads generalizing copied with
  | nil =>
    refine Triple.pure fun w h => ⟨?_, h⟩
    rw [delivered, append_nil]
  | cons read reads ih =>
    cases read with
    | none =>
      exact abort_triple.bind fun _ => Triple.fail fun _ h => ⟨h, .inl mem_cons_self⟩
    | some chunk =>
      rw [copySource, delivered]
      split_ifs with hchunk
      · refine Triple.pure fun w h => ⟨?_, h⟩
        rw [append_nil]
      · refine (Triple.get (Q := fun w w' => w.cap = j.cap ∧ j.Quiet
          (j.Staged .staging copied) w') fun w h => ⟨h.cap, h⟩).bind fun w => ?_
        dsimp only
        split_ifs with hcap
        · refine Triple.extract (fun _ h => h.1) fun hw => ?_
          have hlt : j.cap.upperMaxBytes < 2 ^ 64 - 1 := by
            rw [hw] at hcap
            exact hcap.trans_le (min_le_right _ _)
          exact Triple.bind (abort_triple.weaken (fun _ h => h.2) (fun _ _ h => h) fun _ h => h)
            fun _ => Triple.fail fun _ h => ⟨h, .inr hlt⟩
        · refine Triple.bind (append_staging_triple.weaken (fun _ h => h.2) (fun _ _ h => h)
            fun _ h => h) fun _ => ?_
          refine ih.weaken (fun _ h => h) (fun all w h => ?_) fun w h => ?_
          · rw [← append_assoc]
            exact h
          · exact ⟨h.1, h.2.imp_left (mem_cons_of_mem _)⟩

/-- Counting the bytes in use changes nothing. -/
theorem totalBytes_triple {total : MockWritableUpperLayer → ℕ} :
    Triple (j.Quiet P) (io (totalBytes total)) (fun _ => j.Quiet P) E := by
  refine Triple.mapError (onUpper_quiet fun w hq => ?_)
  exact ⟨hq.faults, total w.upper, w.upper, rfl, hq⟩

theorem fsync_triple (hP : ∀ now, P now → j.At point now) :
    Triple (j.Quiet P) (io (step point fsync)) (fun _ => j.Quiet P) E :=
  step_triple fun now h => ⟨now, rfl, hP now h, h⟩

theorem clear_staging_triple :
    Triple (j.Quiet (· = j.u)) (io (step .cleared (unlink (j.name ++ stagingSuffix))))
      (fun _ => j.Quiet (j.At .cleared)) E := by
  refine step_triple fun now h => ?_
  rw [h]
  exact ⟨_, rfl, at_cleared, at_cleared⟩

theorem create_staging_triple :
    Triple (j.Quiet (j.At .cleared))
      (io (step .staging (createOrReplace (j.name ++ stagingSuffix))))
      (fun _ => j.Quiet (j.Staged .staging [])) E := by
  refine step_triple fun now h => ?_
  obtain ⟨now', hnow, hfiles, hdirs⟩ :=
    exists_createOrReplace (normalize_staging j.name ▸ stagingKey_ne_nil)
  rw [normalize_staging] at hfiles hdirs
  have hat : j.At .staging now' := by
    refine ⟨fun key hk => ?_, fun _ dir => ?_, by rintro ⟨⟩, by simp, by rintro ⟨⟩⟩
    · rw [hfiles, get?_insert_of_ne (by simpa [touched] using hk), h.files key hk]
    · rw [hdirs, get?_dirs_ensureParents, h.dirs (by decide)]
      simp [made]
  exact ⟨now', by rw [hnow]; rfl, hat, hat, by rw [hfiles, get?_insert_self]⟩

theorem create_sidecar_triple :
    Triple (j.Quiet (j.Staged .staging bytes))
      (io (step .sidecarOpen (createOrReplace (sha3SidecarPath j.name)))) (fun _ => j.Quiet
        (j.Staged .sidecarOpen bytes)) E := by
  refine step_triple fun now h => ?_
  obtain ⟨now', hnow, hfiles, hdirs⟩ :=
    exists_createOrReplace (normalize_sha3SidecarPath j.name ▸ sha3Key_ne_nil)
  rw [normalize_sha3SidecarPath] at hfiles hdirs
  have hat : j.At .sidecarOpen now' := by
    refine ⟨fun key hk => ?_, fun _ dir => ?_, fun _ => ?_, by simp, by rintro ⟨⟩⟩
    · simp only [touched, mem_cons, not_mem_nil, or_false, not_or] at hk
      rw [hfiles, get?_insert_of_ne hk.2, h.1.files key (by simpa [touched] using hk.1)]
    · rw [hdirs, get?_dirs_ensureParents, h.1.dirs (by decide)]
      simp only [made, mem_append, not_or, and_assoc]
    · rw [hfiles, get?_insert_self]
  refine ⟨now', by rw [hnow]; rfl, hat, hat, ?_⟩
  rw [hfiles, get?_insert_of_ne stagingKey_ne_sha3Key, h.2]

theorem append_sidecar_triple :
    Triple (j.Quiet (j.Staged .sidecarOpen bytes))
      (io (step .sidecar (append (sha3SidecarPath j.name) (encodeHex j.digest))))
      (fun _ => j.Quiet (j.Staged .sidecar bytes)) E := by
  refine step_triple fun now h => ?_
  obtain ⟨now', hnow, hfiles, hdirs⟩ :=
    exists_append (normalize_sha3SidecarPath j.name ▸ h.1.opened rfl) (encodeHex j.digest)
  rw [normalize_sha3SidecarPath] at hfiles
  have hat : j.At .sidecar now' := by
    refine ⟨fun key hk => ?_, fun _ dir => ?_, by rintro ⟨⟩, fun _ => ?_, by rintro ⟨⟩⟩
    · simp only [touched, mem_cons, not_mem_nil, or_false, not_or] at hk
      rw [hfiles, get?_insert_of_ne hk.2.1, h.1.files key (by simpa [touched] using ⟨hk.1, hk.2.1⟩)]
    · rw [hdirs, h.1.dirs (by decide), made, made]
    · rw [hfiles, get?_insert_self, nil_append]
  refine ⟨now', by rw [hnow]; rfl, hat, hat, ?_⟩
  rw [hfiles, get?_insert_of_ne stagingKey_ne_sha3Key, h.2]

variable {signature : Option (List UInt8)}

/-- The signature sidecar is written or removed, and the staging file is left alone. -/
theorem writeSignature_triple :
    Triple (j.Quiet (j.Staged .sidecar bytes)) (writeSignature j.name signature)
      (fun point w => (point = .sidecar ∨ point = .signed) ∧ j.Quiet
        (fun now => j.Staged point bytes now ∧
          now.files.get? (sigKey j.name) = signature) w) E := by
  cases signature with
  | none =>
    refine Triple.bind (step_triple fun now h => ?_)
      fun _ => Triple.pure fun _ h => ⟨.inl rfl, h⟩
    obtain ⟨hat, hs⟩ := h.1.of_signature (now.unlink (sigSidecarPath j.name)) .sidecar (.inl rfl)
      (.inl rfl)
      (fun key hk => get?_erase_of_ne (normalize_sigSidecarPath j.name ▸ hk))
      (h.1.dirs (by decide))
    refine ⟨_, rfl, hat, ⟨hat, hs.trans h.2⟩, ?_⟩
    rw [← normalize_sigSidecarPath]
    exact get?_erase_self
  | some sig =>
    refine Triple.bind (step_triple (Q := fun now => j.Staged .signed bytes
      now ∧ now.files.get? (sigKey j.name) = some []) fun now h => ?_) fun _ =>
      Triple.bind (step_triple fun now h => ?_)
        fun _ => Triple.pure fun _ h => ⟨.inr rfl, h⟩
    · obtain ⟨now', hnow, hfiles, hdirs⟩ :=
        exists_createOrReplace (normalize_sigSidecarPath j.name ▸ sigKey_ne_nil)
      rw [normalize_sigSidecarPath] at hfiles hdirs
      obtain ⟨hat, hs⟩ := h.1.of_signature now' .signed (.inl rfl) (.inr rfl)
        (fun key hk => by rw [hfiles, get?_insert_of_ne hk]) fun dir => by
          rw [hdirs, get?_dirs_ensureParents, h.1.dirs (by decide)]
          simp only [made, mem_append, not_or, and_assoc]
      refine ⟨now', by rw [hnow]; rfl, hat, ⟨hat, hs.trans h.2⟩, ?_⟩
      rw [hfiles, get?_insert_self]
    · obtain ⟨now', hnow, hfiles, hdirs⟩ :=
        exists_append (normalize_sigSidecarPath j.name ▸ h.2) sig
      rw [normalize_sigSidecarPath] at hfiles
      obtain ⟨hat, hs⟩ := h.1.1.of_signature now' .signed
        (.inr rfl) (.inr rfl) (fun key hk => by rw [hfiles, get?_insert_of_ne hk])
        (hdirs ▸ h.1.1.dirs (by decide))
      refine ⟨now', by rw [hnow]; rfl, hat, ⟨hat, hs.trans h.1.2⟩, ?_⟩
      rw [hfiles, get?_insert_self, nil_append]

theorem rename_triple (hp : point = .sidecar ∨ point = .signed) :
    Triple (j.Quiet fun now => j.Staged point j.content now ∧
          now.files.get? (sigKey j.name) = signature)
      (io (step .renamed (rename (j.name ++ stagingSuffix) j.name)))
      (fun _ => j.Quiet (j.Added signature)) E := by
  refine step_triple fun now ⟨⟨h, hs⟩, hsig⟩ => ?_
  have hne : normalize (j.name ++ stagingSuffix) ≠ normalize j.name := by
    rw [normalize_staging]
    exact normalize_ne_stagingKey.symm
  obtain ⟨now', hnow, hfiles⟩ := exists_rename hne (normalize_staging j.name ▸ hs)
  rw [normalize_staging] at hfiles
  have hother : ∀ key, key ≠ normalize j.name → key ≠ stagingKey j.name →
      now'.files.get? key = now.files.get? key := by
    intro key hn ht
    rw [hfiles, get?_insert_of_ne hn, get?_erase_of_ne ht]
  have ht : touched j.name point = [stagingKey j.name, sha3Key j.name, sigKey j.name] := by
    rcases hp with rfl | rfl <;> rfl
  have hat : j.At .renamed now' := by
    refine ⟨fun key hk => ?_, (absurd rfl), by rintro ⟨⟩, fun _ => ?_, fun _ => ?_⟩
    · simp only [touched, mem_cons, not_mem_nil, or_false, not_or] at hk
      rw [hother key hk.2.2.2 hk.1, h.files key (by simp [ht, hk])]
    · rw [hother _ normalize_ne_sha3Key.symm stagingKey_ne_sha3Key.symm]
      exact h.written (hp.imp id .inl)
    · rw [hfiles, get?_insert_self]
  refine ⟨now', by rw [hnow]; rfl, hat, hat, ?_, ?_⟩
  · rw [hfiles, get?_insert_of_ne normalize_ne_stagingKey.symm, get?_erase_self]
  · rw [hother _ normalize_ne_sigKey.symm stagingKey_ne_sigKey.symm, hsig]

section Run

variable {total : MockWritableUpperLayer → ℕ} {sha3 : List UInt8 → Digest} {source : List Read}
  {expectedSize : ℕ}

/-- The part of `add` that writes gets to its end, unless the source fails or the cap is below the
    largest size there is. -/
theorem stream_triple (hc : delivered source = j.content) (hd : sha3 j.content = j.digest) :
    Triple (j.Quiet (· = j.u)) (stream total sha3 j.name source signature)
      (fun _ => j.Quiet (j.Added signature)) (fun w => j.Quiet (fun _ => True) w ∧
        (none ∈ source ∨ j.cap.upperMaxBytes < 2 ^ 64 - 1)) := by
  refine clear_staging_triple.bind fun _ => create_staging_triple.bind fun _ => ?_
  refine totalBytes_triple.bind fun used => ?_
  refine copySource_triple.bind fun copied => Triple.extract (fun _ h => h.1) fun hcopied => ?_
  rw [hc, nil_append] at hcopied
  rw [hcopied, hd]
  refine Triple.bind (create_sidecar_triple.weaken (fun _ h => h.2) (fun _ _ h => h)
    fun _ h => h) fun _ => append_sidecar_triple.bind fun _ => ?_
  refine writeSignature_triple.bind fun point => Triple.extract (fun _ h => h.1) fun hp => ?_
  refine Triple.bind ((fsync_triple fun now h => h.1.1).weaken (fun _ h => h.2) (fun _ _ h => h)
    fun _ h => h) fun _ => (rename_triple hp).bind fun _ => ?_
  exact (fsync_triple fun now h => h.renamed).bind fun _ => Triple.pure fun _ h => h

theorem Quiet.locks (h : j.Quiet P w) (locks : List Path) : j.Quiet P { w with locks := locks } :=
  ⟨h.faults, h.cap, h.cuts, h.now⟩

theorem overCap_triple :
    Triple (j.Quiet P) (overCap total expectedSize) (fun _ => j.Quiet P) E := by
  rw [overCap]
  split_ifs
  · exact totalBytes_triple.bind fun used => Triple.bind (Triple.get fun _ h => h)
      fun w => Triple.pure fun _ h => h
  · exact Triple.pure fun _ h => h

/-- If no operation of the upper layer fails, the states `add` goes through are as described. -/
theorem add_triple (hc : delivered source = j.content) (hd : sha3 j.content = j.digest) :
    Triple (j.Quiet (· = j.u)) (add total sha3 j.name source expectedSize signature)
      (fun _ => j.Quiet (j.Added signature)) (j.Quiet fun _ => True) := by
  have hfail (e : OverlayWriteError) : Triple (j.Quiet (· = j.u))
      (fail e : WriteM AddResult)
      (fun _ => j.Quiet (j.Added signature))
      (j.Quiet fun _ => True) :=
    Triple.fail fun _ h => h.imp fun _ _ => trivial
  rw [add]
  split_ifs
  · exact hfail _
  split
  · exact hfail _
  refine Triple.bind (Triple.get fun _ h => h) fun w => ?_
  split_ifs
  · exact hfail _
  · exact hfail _
  refine Triple.bind
    (Triple.modify fun _ h => h.locks _) fun _ => overCap_triple.bind fun isOver => ?_
  split_ifs
  · exact Triple.bind
      (Triple.modify fun _ h => h.locks _) fun _ => hfail _
  · exact Triple.ending ((stream_triple hc hd).weaken (fun _ h => h) (fun _ _ h => h.locks _)
      fun _ h => h.1.locks _)

/-- The states in which a loss of power leaves the upper layer. -/
theorem at_of_mem_cuts {locks : List Path} {cut : Point × MockWritableUpperLayer}
    (h : cut ∈ (add total sha3 name source expectedSize signature ⟨u, cap, locks, [], []⟩).2.cuts) :
    At u name (sha3 (delivered source)) (delivered source) cut.1 cut.2 := by
  have hquiet : Quiet u name (sha3 (delivered source)) (delivered source) cap (fun _ => True)
      (add total sha3 name source expectedSize signature ⟨u, cap, locks, [], []⟩).2 :=
    (add_triple (j := ⟨u, name, _, _, cap⟩) rfl rfl).snd (fun _ _ h => h.imp fun _ _ => trivial)
      (fun _ h => h) ⟨rfl, rfl, by simp, rfl⟩
  exact hquiet.cuts cut h

/-- The run has passed the point at which the sidecar is empty. -/
def Passed (w : OverlayWriter) : Prop := ∃ cut ∈ w.cuts, cut.1 = .sidecarOpen

theorem keeps_passed_step : Keeps Passed (io (step point (onUpper f))) := by
  refine Triple.mapError (Triple.bind (Q := fun _ => Passed) ?_ fun _ => Triple.modify ?_)
  · refine Triple.of_snd fun w h => ?_
    rw [onUpper]
    split
    · exact h
    · split <;> exact h
  · rintro w ⟨cut, hcut, hp⟩
    exact ⟨cut, mem_append_left _ hcut, hp⟩

/-- Every model that is added passes the point at which its sidecar is empty. -/
theorem stream_passed :
    Triple (fun _ => True) (stream total sha3 name source signature) (fun _ => Passed)
      fun _ => True := by
  have hkeep {point : Point}
      {f : MockWritableUpperLayer → Except UpperError (Unit × MockWritableUpperLayer)} :
      Triple Passed (io (step point (onUpper f))) (fun _ => Passed) fun _ => True :=
    keeps_passed_step.weaken (fun _ h => h) (fun _ _ h => h) fun _ _ => trivial
  refine Triple.trivial.bind fun _ => Triple.trivial.bind fun _ => Triple.trivial.bind fun _ =>
    Triple.trivial.bind fun copied => ?_
  refine Triple.bind (Q := fun _ => Passed) ?_ fun _ => ?_
  · refine Triple.mapError (Triple.bind Triple.trivial fun _ => Triple.modify fun w _ => ?_)
    exact ⟨_, mem_append_right _ mem_cons_self, rfl⟩
  refine hkeep.bind fun _ => ?_
  refine Triple.bind (Q := fun _ => Passed) ?_ fun point => ?_
  · cases signature with
    | none => exact hkeep.bind fun _ => Triple.pure fun _ h => h
    | some sig => exact hkeep.bind fun _ => hkeep.bind fun _ => Triple.pure fun _ h => h
  · exact hkeep.bind fun _ => hkeep.bind fun _ => hkeep.bind fun _ => Triple.pure fun _ h => h

/-- A name that is not rejected is added, if the source does not fail and there is no cap. -/
theorem add_eq_ok (hname : name ≠ []) (hres : matchedReservedSuffix name = none)
    (hcap : cap.requireSigned = false) (hmax : 2 ^ 64 - 1 ≤ cap.upperMaxBytes)
    (hsource : none ∉ source) :
    ∃ r w, add total sha3 name source 0 signature ⟨u, cap, [], [], []⟩ = (.ok r, w) ∧
      Added u name (sha3 (delivered source)) (delivered source) signature w.upper ∧ Passed w := by
  have hadd : add total sha3 name source 0 signature ⟨u, cap, [], [], []⟩ =
      ending (stream total sha3 name source signature) (release name) ⟨u, cap, [name], [], []⟩ := by
    simp only [add, if_neg hname, hres]
    simp only [bind, Fallible.get, hcap]
    rfl
  have htriple : Triple (Quiet u name (sha3 (delivered source)) (delivered source) cap (· = u))
      (stream total sha3 name source signature) _ _ :=
    stream_triple (j := ⟨u, name, _, _, cap⟩) rfl rfl
  rcases hs : stream total sha3 name source signature ⟨u, cap, [name], [], []⟩ with ⟨e | r, w⟩
  · rcases (htriple.of_error ⟨rfl, rfl, by simp, rfl⟩ hs).2 with h | h
    · exact absurd h hsource
    · exact absurd h (not_lt.2 hmax)
  · have hpassed : Passed w := stream_passed.of_ok trivial hs
    refine ⟨r, release name w, ?_, (htriple.of_ok ⟨rfl, rfl, by simp, rfl⟩ hs).now, hpassed⟩
    rw [hadd, ending, hs]

end Run

end SmallAIOS.Fs.Overlay
