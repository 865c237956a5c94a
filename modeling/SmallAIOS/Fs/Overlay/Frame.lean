import SmallAIOS.Fs.Overlay.Crash

/-!
# Models that do not disturb each other

Adding a model touches its own four files and cleaning up at boot removes the files in
the root that are named like staging files, whether their operations fail or not. So a
stored model is left alone as long as none of its files is one of these.

* `undisturbed_iff`: adding `a`, and cleaning up after it, leaves the model `b` alone in
  every case if no file of `b` is touched by adding `a`, and `b` itself is not named like
  a staging file.
-/

namespace SmallAIOS.Fs.Overlay

open Lib Fallible MockWritableUpperLayer List SortedMap Triple Except

/-- The files of a model: its content, its fingerprint and its signature. -/
def modelKeys (name : Path) : List Path := [normalize name, sha3Key name, sigKey name]

/-- The file is in the root and named like a staging file. -/
def IsOrphan (key : Path) : Prop := '/' ∉ key ∧ stagingSuffix <:+ key
  deriving Decidable

variable (total : MockWritableUpperLayer → ℕ) (sha3 : List UInt8 → Digest)
  (u : MockWritableUpperLayer)

/-- A model that was added. -/
structure IsStored (name : Path) : Prop where
  accepted : name ≠ [] ∧ matchedReservedSuffix name = none
  content : (u.files.get? (normalize name)).isSome
  fingerprint : (u.files.get? (sha3Key name)).isSome

/-- The files of the model are as they were in `u`. -/
def Keeping (name : Path) (w : OverlayWriter) : Prop :=
  ∀ key ∈ modelKeys name, w.upper.files.get? key = u.files.get? key

/-- However adding `a` ends, and however a later cleanup at boot ends, the model `b` is left
    alone. -/
def Undisturbed (a b : Path) : Prop :=
  ∀ (cap : OverlayCap) (locks : List Path) (faults faults' : List (Option UpperError))
    (source : List Read) (expectedSize : ℕ) (signature : Option (List UInt8)),
    let w := (add total sha3 a source expectedSize signature ⟨u, cap, locks, faults, []⟩).2
    Keeping u b w ∧ Keeping u b (cleanupOrphanTmp { w with faults := faults' }).2 ∧
      Keeping u b (runBootCleanup { w with faults := faults' }).2

variable {total sha3 u} {key path src dst a b name : Path} {data : List UInt8}
  {value : Option (List UInt8)} {α : Type}

/-! ## What the operations leave alone -/

/-- The file has the given content, if any. -/
def Holds (key : Path) (value : Option (List UInt8)) (w : OverlayWriter) : Prop :=
  w.upper.files.get? key = value

/-- An operation of the upper layer fails and leaves it as it is, or returns. -/
theorem onUpper_triple {P E : OverlayWriter → Prop} {Q : α → OverlayWriter → Prop}
    {f : MockWritableUpperLayer → Except UpperError (α × MockWritableUpperLayer)}
    (hE : ∀ w, P w → E { w with faults := w.faults.tail })
    (hQ : ∀ w a u, P w → f w.upper = .ok (a, u) →
      Q a { w with upper := u, faults := w.faults.tail }) : Triple P (onUpper f) Q E := by
  intro w hw
  rw [onUpper]
  rcases hf : f w.upper with e | ⟨a, u⟩
  · rcases w.faults.head? with _ | _ | e' <;> exact hE w hw
  · rcases w.faults.head? with _ | _ | e'
    · exact hQ w a u hw hf
    · exact hQ w a u hw hf
    · exact hE w hw

theorem keeps_onUpper {f : MockWritableUpperLayer → Except UpperError (α × MockWritableUpperLayer)}
    (hf : ∀ u r, f u = .ok r → r.2.files.get? key = u.files.get? key) :
    Keeps (Holds key value) (onUpper f) :=
  onUpper_triple (fun _ hw => hw) fun _ _ _ hw h => (hf _ _ h).trans hw

theorem keeps_unlink (h : normalize path ≠ key) : Keeps (Holds key value) (unlink path) := by
  refine keeps_onUpper fun u r hr => ?_
  rw [← ok.inj hr]
  exact get?_erase_of_ne h.symm

/-- An operation that returns nothing but the upper layer. -/
theorem keeps_onUpper_map {f : MockWritableUpperLayer → Except UpperError MockWritableUpperLayer}
    (hf : ∀ u u', f u = .ok u' → u'.files.get? key = u.files.get? key) :
    Keeps (Holds key value) (onUpper fun u => (f u).map ((), ·)) := by
  refine keeps_onUpper fun u r hr => ?_
  cases hu : f u with
  | error e => simp [hu, Except.map] at hr
  | ok u' =>
    rw [hu] at hr
    rw [← ok.inj hr, hf u u' hu]

theorem keeps_createOrReplace (h : normalize path ≠ key) :
    Keeps (Holds key value) (createOrReplace path) := by
  refine keeps_onUpper_map fun u u' hc => ?_
  rw [MockWritableUpperLayer.createOrReplace] at hc
  split at hc <;> cases hc
  exact get?_insert_of_ne h.symm

theorem keeps_append (h : normalize path ≠ key) : Keeps (Holds key value) (append path data) := by
  refine keeps_onUpper_map fun u u' ha => ?_
  rw [MockWritableUpperLayer.append] at ha
  split at ha <;> cases ha
  exact get?_insert_of_ne h.symm

theorem keeps_rename (hs : normalize src ≠ key) (hd : normalize dst ≠ key) :
    Keeps (Holds key value) (rename src dst) := by
  refine keeps_onUpper_map fun u u' hm => ?_
  rw [MockWritableUpperLayer.rename] at hm
  split_ifs at hm with hne
  · rw [ok.inj hm]
  · split at hm <;> cases hm
    exact (get?_insert_of_ne hd.symm).trans (get?_erase_of_ne hs.symm)

theorem keeps_fsync : Keeps (Holds key value) fsync := by
  refine keeps_onUpper fun u r hr => ?_
  rw [← ok.inj hr]

theorem keeps_totalBytes : Keeps (Holds key value) (totalBytes total) := by
  refine keeps_onUpper fun u r hr => ?_
  rw [← ok.inj hr]

theorem keeps_step {point : Point} {x : UpperM Unit} (h : Keeps (Holds key value) x) :
    Keeps (Holds key value) (io (step point x)) :=
  mapError (h.bind fun _ => modify fun _ h => h)

/-! ## Adding another model -/

section Add

variable (h : key ∉ touched a .renamed)
include h

theorem ne_of_notMem_touched :
    normalize (a ++ stagingSuffix) ≠ key ∧ normalize (sha3SidecarPath a) ≠ key ∧
      normalize (sigSidecarPath a) ≠ key ∧ normalize a ≠ key := by
  simp only [touched, mem_cons, not_mem_nil, or_false, not_or] at h
  rw [normalize_staging, normalize_sha3SidecarPath, normalize_sigSidecarPath]
  exact ⟨Ne.symm h.1, Ne.symm h.2.1, Ne.symm h.2.2.1, Ne.symm h.2.2.2⟩

theorem keeps_copySource {used : ℕ} {reads : List Read} {copied : List UInt8} :
    Keeps (Holds key value) (copySource (a ++ stagingSuffix) used reads copied) := by
  have hstaging := (ne_of_notMem_touched h).1
  have habort : Triple (Holds key value) 
      (attempt (io (step .staging (unlink (a ++ stagingSuffix)))))
      (fun _ => Holds key value) (Holds key value) :=
    attempt (keeps_step (keeps_unlink hstaging))
  induction reads generalizing copied with
  | nil => exact pure fun _ h => h
  | cons read reads ih =>
    cases read with
    | none => exact habort.bind fun _ => fail fun _ h => h
    | some chunk =>
      rw [copySource]
      split_ifs
      · exact pure fun _ h => h
      · refine bind (get fun _ h => h) fun w => ?_
        dsimp only
        split_ifs
        · exact habort.bind fun _ => fail fun _ h => h
        · exact (keeps_step (keeps_append hstaging)).bind fun _ => ih

variable {signature : Option (List UInt8)}

variable {source : List Read}

theorem keeps_stream : Keeps (Holds key value) (stream total sha3 a source signature) := by
  obtain ⟨hstaging, hsha3, hsig, hname⟩ := ne_of_notMem_touched h
  refine (keeps_step (keeps_unlink hstaging)).bind fun _ =>
    (keeps_step (keeps_createOrReplace hstaging)).bind fun _ =>
    (mapError keeps_totalBytes).bind fun _ => (keeps_copySource h).bind fun copied => ?_
  refine (keeps_step (keeps_createOrReplace hsha3)).bind fun _ =>
    (keeps_step (keeps_append hsha3)).bind fun _ => ?_
  refine bind (Q := fun _ => Holds key value) ?_ fun point => ?_
  · cases signature with
    | none => exact (keeps_step (keeps_unlink hsig)).bind fun _ => pure fun _ h => h
    | some sig =>
      exact (keeps_step (keeps_createOrReplace hsig)).bind fun _ =>
        (keeps_step (keeps_append hsig)).bind fun _ => pure fun _ h => h
  · exact (keeps_step keeps_fsync).bind fun _ =>
      (keeps_step (keeps_rename hstaging hname)).bind fun _ =>
      (keeps_step keeps_fsync).bind fun _ => pure fun _ h => h

/-- Adding a model leaves the files it does not touch alone. -/
theorem keeps_add {expectedSize : ℕ} :
    Keeps (Holds key value) (add total sha3 a source expectedSize signature) := by
  rw [add]
  split_ifs
  · exact fail fun _ h => h
  split
  · exact fail fun _ h => h
  refine bind (get fun _ h => h) fun w => ?_
  split_ifs
  · exact fail fun _ h => h
  · exact fail fun _ h => h
  refine bind (Q := fun _ => Holds key value) (modify fun _ h => h) fun _ => ?_
  refine bind (Q := fun _ => Holds key value) ?_ fun isOver => ?_
  · rw [overCap]
    split_ifs
    · exact (mapError keeps_totalBytes).bind fun _ =>
        bind (get fun _ h => h) fun _ => pure fun _ h => h
    · exact pure fun _ h => h
  · split_ifs
    · exact bind (modify fun _ h => h)
        fun _ => fail fun _ h => h
    · exact ending (keeps_stream h)

end Add

/-! ## Cleaning up -/

theorem IsOrphan.ne_nil (h : IsOrphan key) : key ≠ [] := by
  rintro rfl
  exact absurd (suffix_nil.1 h.2) (by decide)

theorem IsOrphan.getLast? (h : IsOrphan key) : key.getLast? = some 'p' := by
  obtain ⟨t, rfl⟩ := h.2
  rw [getLast?_append_of_ne_nil _ (by decide)]
  rfl

theorem IsOrphan.normalize_eq (h : IsOrphan key) : normalize key = key :=
  Path.trim_eq_self (Path.IsName.relative ⟨h.ne_nil, h.1⟩)

theorem IsOrphan.normalize_ne (h : IsOrphan name) (hk : ¬ IsOrphan key) : normalize name ≠ key := by
  rw [h.normalize_eq]
  rintro rfl
  exact hk h

theorem listedFile_root (file : Path × List UInt8) :
    listedFile [] file =
      if file.1 = [] ∨ '/' ∈ file.1 then none
      else if file.1 = ".opaque".toList then none
      else if ".whiteout".toList.isSuffixOf file.1 then
        some ⟨file.1.take (file.1.length - ".whiteout".toList.length), .whiteout, 0, 0o644⟩
      else some ⟨file.1, .regularFile, file.2.length, 0o644⟩ := rfl

theorem iterDir_root :
    u.iterDir [] = .ok (u.files.entries.filterMap (listedFile []) ++
      u.dirs.entries.filterMap fun d => u.listedDir [] d.1) := rfl

theorem kind_listedDir {dirPrefix dir : Path} {e : UpperEntry}
    (h : u.listedDir dirPrefix dir = some e) : e.kind ≠ .regularFile := by
  simp only [listedDir] at h
  split_ifs at h with _ _ ho
  · rw [← Option.some.inj h]
    exact fun h => nomatch h
  · rw [← Option.some.inj h]
    exact fun h => nomatch h

/-- What is removed at boot: the files in the root that are named like staging files. -/
theorem mem_orphans {entries : List UpperEntry} (h : u.iterDir [] = .ok entries) :
    name ∈ orphans entries ↔ IsOrphan name ∧ (u.files.get? name).isSome := by
  rw [iterDir_root] at h
  simp only [← ok.inj h, orphans, mem_map, mem_filter, mem_append, mem_filterMap, decide_eq_true_eq]
  constructor
  · rintro ⟨e, ⟨⟨⟨key, bytes⟩, hfile, hlisted⟩ | ⟨d, -, hlisted⟩, hk, htmp⟩, rfl⟩
    · rw [listedFile_root] at hlisted
      split_ifs at hlisted with hslash hop hw
      · rw [← Option.some.inj hlisted] at hk
        cases hk
      · rw [← Option.some.inj hlisted] at htmp ⊢
        rw [not_or] at hslash
        refine ⟨⟨hslash.2, isSuffixOf_iff_suffix.1 htmp⟩, ?_⟩
        rw [get?_eq_some.2 hfile]
        rfl
    · exact absurd hk (kind_listedDir hlisted)
  · rintro ⟨horphan, hsome⟩
    obtain ⟨bytes, hbytes⟩ := Option.isSome_iff_exists.1 hsome
    have hop : name ≠ ".opaque".toList := by
      rintro rfl
      exact absurd horphan.getLast? (by decide)
    have hw : ¬ ".whiteout".toList.isSuffixOf name := by
      intro hw
      obtain ⟨t, rfl⟩ := isSuffixOf_iff_suffix.1 hw
      have := horphan.getLast?
      rw [getLast?_append_of_ne_nil _ (by decide)] at this
      exact absurd this (by decide)
    refine ⟨⟨name, .regularFile, bytes.length, 0o644⟩,
      ⟨.inl ⟨(name, bytes), get?_eq_some.1 hbytes, ?_⟩, rfl,
        isSuffixOf_iff_suffix.2 horphan.2⟩, rfl⟩
    rw [listedFile_root, if_neg (not_or.2 ⟨horphan.ne_nil, horphan.1⟩), if_neg hop, if_neg hw]

/-- Listing the root finds only such files to remove. -/
theorem iterDir_triple :
    Triple (Holds key value) (iterDir [])
      (fun entries w => Holds key value w ∧ ∀ name ∈ orphans entries, IsOrphan name)
      (Holds key value) := by
  refine onUpper_triple (fun _ hw => hw) fun w entries u hw h => ?_
  obtain ⟨rfl, rfl⟩ := Prod.mk.inj (ok.inj h)
  exact ⟨hw, fun name hn => ((mem_orphans iterDir_root).1 hn).1⟩

variable {names : List Path}

section

variable (h : ¬ IsOrphan key)
include h

theorem keeps_each_unlink (hn : ∀ name ∈ names, IsOrphan name) :
    Keeps (Holds key value) (each (fun name => io (unlink name)) names) := by
  induction names with
  | nil => exact pure fun _ h => h
  | cons name names ih =>
    exact (mapError (keeps_unlink ((hn name mem_cons_self).normalize_ne h))).bind fun _ =>
      ih fun n hm => hn n (mem_cons_of_mem _ hm)

theorem keeps_cleanupOrphanTmp : Keeps (Holds key value) cleanupOrphanTmp := by
  refine (mapError iterDir_triple).bind fun entries =>
    extract (fun _ h => h.2) fun hn => ?_
  refine bind ((keeps_each_unlink h hn).weaken (fun _ h => h.1) (fun _ _ h => h)
    fun _ h => h) fun _ => ?_
  split_ifs
  · exact (mapError keeps_fsync).bind fun _ => pure fun _ h => h
  · exact pure fun _ h => h

theorem keeps_sweep (hn : ∀ name ∈ names, IsOrphan name) {report : BootCleanupReport} :
    Keeps (Holds key value) (sweep names report) := by
  induction names generalizing report with
  | nil => exact pure fun _ h => h
  | cons name names ih =>
    refine (outcome (keeps_unlink ((hn name mem_cons_self).normalize_ne h))).bind fun result => ?_
    rcases result with e | _ <;> exact ih fun n hm => hn n (mem_cons_of_mem _ hm)

theorem keeps_runBootCleanup : Keeps (Holds key value) runBootCleanup := by
  have hlist : Triple (Holds key value)
      (outcome (iterDir []) : UpperM (Except UpperError (List UpperEntry)))
      (fun result w => Holds key value w ∧ ∀ entries, result = .ok entries →
        ∀ name ∈ orphans entries, IsOrphan name) (Holds key value) := by
    intro w hw
    change Holds key value (iterDir [] w).2 ∧ _
    rcases hx : iterDir [] w with ⟨e | entries, w'⟩
    · exact ⟨iterDir_triple.of_error hw hx, fun _ h => nomatch h⟩
    · obtain ⟨hw', hn⟩ := iterDir_triple.of_ok hw hx
      refine ⟨hw', fun entries' h => ?_⟩
      cases h
      exact hn
  refine hlist.bind fun result => extract (fun _ h => h.2) fun hn => ?_
  rcases result with e | entries
  · cases e <;> exact pure fun _ h => h.1
  · refine bind ((keeps_sweep h (hn entries rfl)).weaken (fun _ h => h.1)
      (fun _ _ h => h) fun _ h => h) fun report => ?_
    split_ifs
    · refine (outcome keeps_fsync).bind fun result => ?_
      rcases result with e | _ <;> exact pure fun _ h => h
    · exact pure fun _ h => h

end

/-! ## When a model is left alone -/

/-- Adding `a` touches no file of `b`, and `b` is not removed at boot. -/
def Apart (a b : Path) : Prop :=
  (∀ key ∈ touched a .renamed, key ∉ modelKeys b) ∧ ¬ IsOrphan (normalize b)
  deriving Decidable

/-- The sidecars are not removed at boot. -/
theorem not_isOrphan_of_mem_modelKeys (hb : ¬ IsOrphan (normalize b)) (hk : key ∈ modelKeys b) :
    ¬ IsOrphan key := by
  have hend {suf : Path} (hs : suf ≠ []) (hl : suf.getLast? ≠ some 'p') :
      ¬ IsOrphan (stem b ++ suf) := by
    intro h
    have := h.getLast?
    rw [getLast?_append_of_ne_nil _ hs] at this
    exact hl this
  simp only [modelKeys, mem_cons, not_mem_nil, or_false] at hk
  rcases hk with rfl | rfl | rfl
  · exact hb
  · exact hend (by decide) (by decide)
  · exact hend (by decide) (by decide)

theorem Apart.undisturbed (h : Apart a b) : Undisturbed total sha3 u a b := by
  intro cap locks faults faults' source expectedSize signature
  have hadd : ∀ key ∈ modelKeys b, Holds key (u.files.get? key)
      (add total sha3 a source expectedSize signature ⟨u, cap, locks, faults, []⟩).2 := by
    intro key hk
    exact (keeps_add fun ht => h.1 key ht hk).keeps_apply rfl
  refine ⟨hadd, fun key hk => ?_, fun key hk => ?_⟩
  · exact (keeps_cleanupOrphanTmp (not_isOrphan_of_mem_modelKeys h.2 hk)).keeps_apply
      (hadd key hk)
  · exact (keeps_runBootCleanup (not_isOrphan_of_mem_modelKeys h.2 hk)).keeps_apply (hadd key hk)

/-- A file named like a staging file is removed at boot. -/
theorem cleanupOrphanTmp_removes (hkey : IsOrphan key) :
    Triple (fun w => w.faults = []) cleanupOrphanTmp (fun _ => Holds key none) fun _ => False := by
  have heach (names : List Path) :
      Triple (fun w => w.faults = [] ∧ (key ∈ names ∨ Holds key none w))
        (each (fun name => io (unlink name)) names)
        (fun _ w => w.faults = [] ∧ Holds key none w) fun _ => False := by
    induction names with
    | nil => exact pure fun w h => ⟨h.1, h.2.resolve_left not_mem_nil⟩
    | cons name names ih =>
      refine bind (mapError (onUpper_quiet fun w h => ?_)) fun _ => ih
      refine ⟨h.1, (), _, rfl, h.1, ?_⟩
      by_cases hk : key = normalize name
      · rw [hk]
        exact .inr get?_erase_self
      · have herase : (w.upper.unlink name).files.get? key = w.upper.files.get? key :=
          get?_erase_of_ne hk
        rcases h.2 with hmem | hnone
        · rcases mem_cons.1 hmem with rfl | hmem
          · exact absurd hkey.normalize_eq.symm hk
          · exact .inl hmem
        · exact .inr (herase.trans hnone)
  refine bind (mapError (onUpper_quiet fun w h => ?_))
    fun entries => (heach _).bind fun _ => ?_
  · refine ⟨h, _, w.upper, by rw [iterDir_root]; rfl, h, ?_⟩
    rw [mem_orphans iterDir_root]
    cases hf : w.upper.files.get? key with
    | none => exact .inr hf
    | some bytes => exact .inl ⟨hkey, rfl⟩
  · have hsync : Triple (fun w => w.faults = [] ∧ Holds key none w) (io fsync)
        (fun _ => Holds key none) fun _ => False :=
      mapError (onUpper_quiet fun w h => ⟨h.1, (), w.upper, rfl, h.2⟩)
    split_ifs
    · exact hsync.bind fun _ => pure fun _ h => h
    · exact pure fun _ h => h.2

/-- A source that delivers the bytes one by one. -/
def bytewise (bytes : List UInt8) : List Read :=
  bytes.map fun b => some ⟨[b], by simp⟩

theorem delivered_bytewise (bytes : List UInt8) : delivered (bytewise bytes) = bytes := by
  induction bytes with
  | nil => rfl
  | cons b bytes ih =>
    have hcons : delivered (bytewise (b :: bytes)) = b :: delivered (bytewise bytes) := rfl
    rw [hcons, ih]

/-- The model is added, and the file has the same content before and after. -/
theorem Undisturbed.exists_added (h : Undisturbed total sha3 u a b)
    (ha : a ≠ [] ∧ matchedReservedSuffix a = none) (hkey : key ∈ modelKeys b)
    (content : List UInt8) (signature : Option (List UInt8)) :
    ∃ now, Added u a (sha3 content) content signature now ∧
      now.files.get? key = u.files.get? key := by
  have hok : ∃ r w, add total sha3 a (bytewise content) 0 signature
      ⟨u, ⟨2 ^ 64 - 1, false⟩, [], [], []⟩ = (.ok r, w) ∧ _ ∧ _ :=
    add_eq_ok ha.1 ha.2 rfl le_rfl (by simp [bytewise])
  obtain ⟨r, w, hadd, hadded, -⟩ := hok
  rw [delivered_bytewise] at hadded
  have hkeep := (h ⟨2 ^ 64 - 1, false⟩ [] [] [] (bytewise content) 0 signature).1 key hkey
  rw [hadd] at hkeep
  exact ⟨w.upper, hadded, hkeep⟩

theorem Undisturbed.apart (h : Undisturbed total sha3 u a b) (hsha3 : ∃ x y, sha3 x ≠ sha3 y)
    (ha : a ≠ [] ∧ matchedReservedSuffix a = none) (hb : IsStored u b) : Apart a b := by
  refine ⟨fun key ht hk => ?_, fun horphan => ?_⟩
  · have hrun := h.exists_added ha hk
    simp only [touched, mem_cons, not_mem_nil, or_false] at ht
    rcases ht with rfl | rfl | rfl | rfl
    · -- The staging file is gone in the end, and so is what was there before.
      obtain ⟨now, hadded, hkeep⟩ := hrun [] none
      rw [hadded.staging] at hkeep
      simp only [modelKeys, mem_cons, not_mem_nil, or_false] at hk
      rcases hk with hk | hk | hk
      · have := hb.content
        rw [← hk, ← hkeep] at this
        cases this
      · exact stagingKey_ne_sha3Key hk
      · exact stagingKey_ne_sigKey hk
    · -- Two contents with different digests leave different sidecars.
      obtain ⟨x, y, hxy⟩ := hsha3
      obtain ⟨now, hadded, hkeep⟩ := hrun x none
      obtain ⟨now', hadded', hkeep'⟩ := hrun y none
      rw [hadded.renamed.written (.inr (.inr rfl))] at hkeep
      rw [hadded'.renamed.written (.inr (.inr rfl)), ← hkeep] at hkeep'
      exact hxy (encodeHex_injective (Option.some.inj hkeep').symm)
    · obtain ⟨now, hadded, hkeep⟩ := hrun [] none
      obtain ⟨now', hadded', hkeep'⟩ := hrun [] (some [])
      rw [hadded.signature] at hkeep
      rw [hadded'.signature, ← hkeep] at hkeep'
      cases hkeep'
    · obtain ⟨now, hadded, hkeep⟩ := hrun [] none
      obtain ⟨now', hadded', hkeep'⟩ := hrun [0] none
      rw [hadded.renamed.model rfl] at hkeep
      rw [hadded'.renamed.model rfl, ← hkeep] at hkeep'
      cases hkeep'
  · -- Cleaning up removes the model.
    have hgone := (h ⟨0, false⟩ [] [] [] [] 0 none).2.1 (normalize b) mem_cons_self
    have hnone := (cleanupOrphanTmp_removes horphan).snd
      (fun _ _ h => h) (fun _ h => h.elim) (s := { (add total sha3 a [] 0 none
        ⟨u, ⟨0, false⟩, [], [], []⟩).2 with faults := [] }) rfl
    have := hb.content
    rw [← hgone, hnone] at this
    cases this

/-- An upper layer with a model named like a staging file. -/
def tmpModel : MockWritableUpperLayer where
  files := (empty.insert "x.tmp".toList [1]).insert "x.tmp.sha3".toList (encodeHex (firstByte [1]))
  dirs := .empty

theorem exists_firstByte_ne : ∃ x y, firstByte x ≠ firstByte y := ⟨[0], [1], by decide⟩

/-- Adding `a`, and cleaning up after it, leaves the stored model `b` alone in every case if
    none of the files of `b` is touched and `b` is not named like a staging file. -/
theorem undisturbed_iff (hsha3 : ∃ x y, sha3 x ≠ sha3 y)
    (ha : a ≠ [] ∧ matchedReservedSuffix a = none) (hb : IsStored u b) :
    Undisturbed total sha3 u a b ↔ Apart a b :=
  ⟨fun h => h.apart hsha3 ha hb, Apart.undisturbed⟩

/-- Two models with unrelated names. -/
theorem undisturbed_oneModel :
    Undisturbed (fun _ => 0) firstByte (oneModel firstByte) "n".toList "m".toList :=
  (undisturbed_iff exists_firstByte_ne (by decide) ⟨by decide, by decide, by decide⟩).2 (by decide)

/-- A model named like the staging file of another one is lost. -/
theorem not_undisturbed_tmp :
    ¬ ∀ (total : MockWritableUpperLayer → ℕ) (sha3 : List UInt8 → Digest)
      (u : MockWritableUpperLayer) (a b : Path), a ≠ b →
      a ≠ [] ∧ matchedReservedSuffix a = none → IsStored u b → Undisturbed total sha3 u a b := by
  intro h
  have hu := h (fun _ => 0) firstByte tmpModel "x".toList "x.tmp".toList (by decide) (by decide)
    ⟨by decide, by decide, by decide⟩
  have hapart := hu.apart exists_firstByte_ne (by decide) ⟨by decide, by decide, by decide⟩
  exact absurd hapart (by decide)

end SmallAIOS.Fs.Overlay
