import SmallAIOS.Fs.Overlay.Trace

/-!
# Losing power while a model is added

A model that is looked at after power was lost should verify with its old or its new
content, or be missing if it did not exist before (`Recovers`). While the fingerprint
sidecar of the old content is replaced in place, neither content verifies.

* `add_recovers_iff`: at which points of `add` a model recovers (`Survives`).
-/

namespace SmallAIOS.Fs.Overlay

open Lib Fallible MockWritableUpperLayer
open List hiding Vector

/-- The model is reported missing. -/
def Missing (result : Except IntegrityError (List UInt8)) : Prop :=
  result = .error .sidecarMissing ∨ result = .error (.io .notFound)

variable (u : MockWritableUpperLayer) (sha3 : List UInt8 → Digest) (name : Path)
  (content : List UInt8)

/-- Where the upper layer was `u`, the model verifies with its complete old content or its complete
    new one, or it is missing and did not exist. -/
def Recovers (result : Except IntegrityError (List UInt8)) : Prop :=
  (∃ old, u.files.get? (normalize name) = some old ∧ result = .ok old) ∨ result = .ok content ∨
    u.files.get? (normalize name) = none ∧ Missing result

/-- Every model verifies against its sidecar. -/
def Verified : Prop :=
  ∀ name, Path.Relative '/' name → isReservedName name = false → u.files.get? name ≠ none →
    ∃ bytes, verifyFingerprint u.toUpperLayer sha3 name = .ok bytes

/-- The name is that of a file, and neither it nor its sidecar is under a whiteout. -/
def Unmarked : Prop :=
  normalize name ≠ [] ∧ u.files.get? (normalize name ++ ".whiteout".toList) = none ∧
    u.files.get? (sha3Key name ++ ".whiteout".toList) = none

/-- The upper layer with the directories made. -/
def withDirs (dirs : List Path) : MockWritableUpperLayer :=
  { u with dirs := dirs.foldl (fun dirs dir => dirs.insert dir ()) u.dirs }

/-- The points at which a loss of power is survived. Before the sidecar is touched it matters how
    the model verified before, with the directories made by then. While the sidecar is empty nothing
    is survived. With the new sidecar in place it takes a model with the new content's digest, or
    none at all, and after the rename a model that no whiteout hides. -/
def Survives (digest : Digest) (point : Point) : Prop :=
  match point with
  | .cleared | .staging => Recovers u name content
      (verifyFingerprint (withDirs u (made name point)).toUpperLayer sha3 name)
  | .sidecarOpen => False
  | .sidecar | .signed => Unmarked u name ∧
      match u.files.get? (normalize name) with
      | some old => sha3 old = digest
      | none => u.dirs.get? (normalize name) = none ∧ normalize name ∉ made name point
  | .renamed => Unmarked u name

variable {u sha3 name content} {now v : MockWritableUpperLayer} {digest : Digest} {point : Point}
  {bytes : List UInt8}

/-! ## What verifying depends on -/

/-- Verifying depends on what is found under the keys of the model and of its sidecar. -/
theorem verifyFingerprint_congr (hs : u.fileAt (sha3Key name) = v.fileAt (sha3Key name))
    (hs' : v.fileAt (sha3Key name) = none →
      (u.NothingAt (sha3Key name) ↔ v.NothingAt (sha3Key name)))
    (hn : u.fileAt (normalize name) = v.fileAt (normalize name))
    (hn' : v.fileAt (normalize name) = none →
      (u.NothingAt (normalize name) ↔ v.NothingAt (normalize name))) :
    verifyFingerprint u.toUpperLayer sha3 name = verifyFingerprint v.toUpperLayer sha3 name := by
  have hside : readSidecarDigest u.toUpperLayer (sha3SidecarPath name) =
      readSidecarDigest v.toUpperLayer (sha3SidecarPath name) := by
    rw [readSidecarDigest_eq, readSidecarDigest_eq, normalize_sha3SidecarPath, hs]
    cases hf : v.fileAt (sha3Key name) with
    | some raw => rfl
    | none => simp only [hs' hf]
  cases hr : readSidecarDigest v.toUpperLayer (sha3SidecarPath name) with
  | error e =>
    rw [verifyFingerprint_of_error (hside.trans hr), verifyFingerprint_of_error hr]
  | ok digest =>
    rw [verifyFingerprint_of_digest (hside.trans hr), verifyFingerprint_of_digest hr, hn]
    cases hf : v.fileAt (normalize name) with
    | some bytes => rfl
    | none => simp only [hn' hf]

variable {key : Path}

theorem fileAt_of_unmarked (hne : key ≠ [])
    (hw : u.files.get? (key ++ ".whiteout".toList) = none) : u.fileAt key = u.files.get? key := by
  rw [fileAt, if_neg]
  rintro (h | h)
  · exact hne h
  · rw [hw] at h
    cases h

/-- What a whiteout stands over is found, and not as a file. -/
theorem fileAt_of_marked (h : key = [] ∨ u.files.get? (key ++ ".whiteout".toList) ≠ none) :
    u.fileAt key = none ∧ ¬ u.NothingAt key := by
  constructor
  · rw [fileAt, if_pos]
    exact h.imp_right Option.isSome_iff_ne_none.2
  · rintro ⟨hne, hw, -⟩
    rcases h with h | h
    · exact hne h
    · exact h hw

/-! ## The points of `add` -/

theorem length_normalize_lt_sha3Key : (normalize name).length < (sha3Key name).length := by
  refine (length_normalize_le name).trans_lt ?_
  rw [sha3Key, length_append]
  exact Nat.lt_add_of_pos_right (by decide)

/-- No whiteout is touched. -/
theorem whiteout_notMem_touched (h : (normalize name).length ≤ key.length) :
    key ++ ".whiteout".toList ∉ touched name point := by
  have hmem : ∀ k ∈ touched name point, k ∈ touched name .renamed := by
    cases point <;> simp +contextual [touched]
  intro hk
  have hne : key ++ ".whiteout".toList ≠ normalize name := by
    intro he
    have hlen := congrArg length he
    rw [length_append] at hlen
    have : ".whiteout".toList.length = 9 := by decide
    omega
  have hend (suf : Path) (hs : suf ≠ []) (hl : ".whiteout".toList.getLast? ≠ suf.getLast?) :
      key ++ ".whiteout".toList ≠ stem name ++ suf :=
    append_ne_append (by decide) hs hl
  rcases mem_cons.1 (hmem _ hk) with h | h
  · exact hend stagingSuffix (by decide) (by decide) h
  rcases mem_cons.1 h with h | h
  · exact hend ".sha3".toList (by decide) (by decide) h
  rcases mem_cons.1 h with h | h
  · exact hend ".sig".toList (by decide) (by decide) h
  · exact hne (mem_singleton.1 h)

theorem normalize_notMem_touched (hp : point ≠ .renamed) : normalize name ∉ touched name point := by
  have h1 : normalize name ≠ stagingKey name := normalize_ne_stagingKey
  have h2 : normalize name ≠ sha3Key name := normalize_ne_sha3Key
  have h3 : normalize name ≠ sigKey name := normalize_ne_sigKey
  cases point with
  | renamed => exact absurd rfl hp
  | _ => simp [touched, h1, h2, h3]

section Point

variable (h : At u name digest content point now)
include h

theorem At.whiteout_model :
    now.files.get? (normalize name ++ ".whiteout".toList) =
      u.files.get? (normalize name ++ ".whiteout".toList) :=
  h.files _ (whiteout_notMem_touched le_rfl)

theorem At.whiteout_sidecar :
    now.files.get? (sha3Key name ++ ".whiteout".toList) =
      u.files.get? (sha3Key name ++ ".whiteout".toList) :=
  h.files _ (whiteout_notMem_touched length_normalize_lt_sha3Key.le)

/-- Up to the sidecar, the model verifies as it did, but for the directories made. -/
theorem At.verify_staging (hp : point = .cleared ∨ point = .staging) :
    verifyFingerprint now.toUpperLayer sha3 name =
      verifyFingerprint (withDirs u (made name point)).toUpperLayer sha3 name := by
  have hr : point ≠ .renamed := by rcases hp with rfl | rfl <;> decide
  have ht : touched name point = [stagingKey name] := by rcases hp with rfl | rfl <;> rfl
  have hmodel := h.files _ (normalize_notMem_touched hr)
  have hside : now.files.get? (sha3Key name) = u.files.get? (sha3Key name) := by
    refine h.files _ ?_
    rw [ht, mem_singleton]
    exact stagingKey_ne_sha3Key.symm
  have hdir (dir : Path) := (h.dirs hr dir).trans (get?_foldl_insert _).symm
  have hfile {key : Path} (hk : now.files.get? key = u.files.get? key)
      (hw : now.files.get? (key ++ ".whiteout".toList) = u.files.get? (key ++ ".whiteout".toList)) :
      now.fileAt key = (withDirs u (made name point)).fileAt key ∧
        (now.NothingAt key ↔ (withDirs u (made name point)).NothingAt key) := by
    constructor
    · rw [fileAt, hk, hw]
      rfl
    · rw [NothingAt, hk, hw, hdir]
      rfl
  obtain ⟨hs, hs'⟩ := hfile hside h.whiteout_sidecar
  obtain ⟨hn, hn'⟩ := hfile hmodel h.whiteout_model
  exact verifyFingerprint_congr hs (fun _ => hs') hn fun _ => hn'

/-- While the sidecar is empty the model does not verify. -/
theorem At.verify_sidecarOpen (hp : point = .sidecarOpen) :
    verifyFingerprint now.toUpperLayer sha3 name = .error .sidecarMalformed := by
  refine verifyFingerprint_of_error ?_
  rw [readSidecarDigest_eq, normalize_sha3SidecarPath]
  by_cases hw : now.files.get? (sha3Key name ++ ".whiteout".toList) = none
  · rw [fileAt_of_unmarked sha3Key_ne_nil hw, h.opened hp]
    rfl
  · obtain ⟨hf, hn⟩ := fileAt_of_marked (.inr hw)
    rw [hf]
    exact if_neg hn

end Point

theorem not_recovers_error {e : IntegrityError} (hm : e ≠ .sidecarMissing)
    (hn : e ≠ .io .notFound) : ¬ Recovers u name content (.error e) := by
  rintro (⟨old, -, h⟩ | h | ⟨-, h | h⟩)
  · cases h
  · cases h
  · exact hm (Except.error.inj h)
  · exact hn (Except.error.inj h)

section Written

variable (h : At u name digest content point now)
  (hp : point = .sidecar ∨ point = .signed ∨ point = .renamed)
include h hp

/-- The new digest is read from its sidecar. -/
theorem At.readSidecarDigest (hs : now.files.get? (sha3Key name ++ ".whiteout".toList) = none) :
    readSidecarDigest now.toUpperLayer (sha3SidecarPath name) = .ok digest.toList := by
  rw [readSidecarDigest_eq, normalize_sha3SidecarPath, fileAt_of_unmarked sha3Key_ne_nil hs,
    h.written hp]
  dsimp only
  rw [decodeHex_encodeHex]
  rfl

/-- With the new sidecar in place, a model that no whiteout hides verifies if it has the new digest.
    -/
theorem At.verify_written (hun : Unmarked u name) :
    verifyFingerprint now.toUpperLayer sha3 name =
      match now.files.get? (normalize name) with
      | some bytes => if sha3 bytes = digest then .ok bytes else .error .hashMismatch
      | none => if now.dirs.get? (normalize name) = none then .error (.io .notFound)
          else .error (.io .notARegularFile) := by
  obtain ⟨hne, hw, hs⟩ := hun
  rw [← h.whiteout_model] at hw
  rw [← h.whiteout_sidecar] at hs
  rw [verifyFingerprint_of_digest (h.readSidecarDigest hp hs), fileAt_of_unmarked hne hw]
  cases hf : now.files.get? (normalize name) with
  | some bytes => simp only [Vector.toList_inj]
  | none => simp only [NothingAt, hne, hw, hf, ne_eq, not_false_eq_true, true_and]

/-- Where a whiteout hides the model or its sidecar, the model does not recover. -/
theorem At.not_recovers (hun : ¬ Unmarked u name) :
    ¬ Recovers u name content (verifyFingerprint now.toUpperLayer sha3 name) := by
  by_cases hs : now.files.get? (sha3Key name ++ ".whiteout".toList) = none
  · have hn : normalize name = [] ∨
        now.files.get? (normalize name ++ ".whiteout".toList) ≠ none := by
      by_contra hn
      rw [not_or, not_not] at hn
      exact hun ⟨hn.1, h.whiteout_model ▸ hn.2, h.whiteout_sidecar ▸ hs⟩
    obtain ⟨hf, hnothing⟩ := fileAt_of_marked hn
    rw [verifyFingerprint_of_digest (h.readSidecarDigest hp hs), hf]
    simp only [if_neg hnothing]
    exact not_recovers_error (by decide) (by decide)
  · obtain ⟨hf, hnothing⟩ := fileAt_of_marked (.inr hs)
    rw [verifyFingerprint_of_error (e := .sidecarMalformed)]
    · exact not_recovers_error (by decide) (by decide)
    · rw [readSidecarDigest_eq, normalize_sha3SidecarPath, hf]
      exact if_neg hnothing

end Written

/-- Between writing the new sidecar and the rename. -/
theorem At.recovers_sidecar (h : At u name digest content point now)
    (hp : point = .sidecar ∨ point = .signed) :
    Recovers u name content (verifyFingerprint now.toUpperLayer sha3 name) ↔ Unmarked u name ∧
      match u.files.get? (normalize name) with
      | some old => sha3 old = digest
      | none => u.dirs.get? (normalize name) = none ∧ normalize name ∉ made name point := by
  have hr : point ≠ .renamed := by rcases hp with rfl | rfl <;> decide
  by_cases hun : Unmarked u name
  · rw [h.verify_written (hp.imp_right .inl) hun, h.files _ (normalize_notMem_touched hr)]
    cases hold : u.files.get? (normalize name) with
    | some old =>
      by_cases hd : sha3 old = digest
      · simp only [if_pos hd]
        exact iff_of_true (.inl ⟨old, hold, rfl⟩) ⟨hun, hd⟩
      · simp only [if_neg hd]
        exact iff_of_false (not_recovers_error (by decide) (by decide)) fun h => hd h.2
    | none =>
      simp only [h.dirs hr (normalize name)]
      split_ifs with hd
      · exact iff_of_true (.inr (.inr ⟨hold, .inr rfl⟩)) ⟨hun, hd⟩
      · exact iff_of_false (not_recovers_error (by decide) (by decide)) fun h => hd h.2
  · exact iff_of_false (h.not_recovers (hp.imp_right .inl) hun) fun h => hun h.1

/-- After the rename. -/
theorem At.recovers_renamed (h : At u name digest content .renamed now)
    (hd : sha3 content = digest) :
    Recovers u name content (verifyFingerprint now.toUpperLayer sha3 name) ↔ Unmarked u name := by
  refine ⟨fun hrec => ?_, fun hun => ?_⟩
  · by_contra hun
    exact h.not_recovers (.inr (.inr rfl)) hun hrec
  · rw [h.verify_written (.inr (.inr rfl)) hun, h.model rfl]
    simp only [if_pos hd]
    exact .inr (.inl rfl)

variable {total : MockWritableUpperLayer → ℕ} {cap : OverlayCap} {locks : List Path}
  {source : List Read} {expectedSize : ℕ} {signature : Option (List UInt8)}

/-- An upper layer with one model and its sidecar. -/
def oneModel (sha3 : List UInt8 → Digest) : MockWritableUpperLayer where
  files := (SortedMap.empty.insert "m".toList [1]).insert "m.sha3".toList (encodeHex (sha3 [1]))
  dirs := .empty

/-- A digest for examples: the first byte, all over. -/
def firstByte (bytes : List UInt8) : Digest := Vector.replicate 32 (bytes.headD 0)

theorem verified_oneModel : Verified (oneModel sha3) sha3 := by
  intro name hrel hres hname
  have hm : name = "m".toList := by
    by_contra hm
    by_cases hs : name = "m.sha3".toList
    · rw [hs] at hres
      exact absurd hres (by decide)
    · refine hname ?_
      rw [oneModel, SortedMap.get?_insert_of_ne hs, SortedMap.get?_insert_of_ne hm]
      rfl
  subst hm
  have hd : readSidecarDigest (oneModel sha3).toUpperLayer (sha3SidecarPath "m".toList) =
      .ok (sha3 [1]).toList := by
    have hf : (oneModel sha3).fileAt (normalize (sha3SidecarPath "m".toList)) =
        some (encodeHex (sha3 [1])) := rfl
    rw [readSidecarDigest_eq, hf]
    dsimp only
    rw [decodeHex_encodeHex]
    rfl
  refine ⟨[1], ?_⟩
  rw [verifyFingerprint_of_digest hd]
  exact if_pos rfl

/-- After a loss of power at any point of `add`, the model recovers at exactly the points that are
    survived. -/
theorem add_recovers_iff :
    ∀ cut ∈ (add total sha3 name source expectedSize signature ⟨u, cap, locks, [], []⟩).2.cuts,
      Recovers u name (delivered source) (verifyFingerprint cut.2.toUpperLayer sha3 name) ↔
        Survives u sha3 name (delivered source) (sha3 (delivered source)) cut.1 := by
  intro cut hcut
  have hat := at_of_mem_cuts hcut
  obtain ⟨point, now⟩ := cut
  cases point with
  | cleared => exact iff_of_eq (congrArg _ (hat.verify_staging (.inl rfl)))
  | staging => exact iff_of_eq (congrArg _ (hat.verify_staging (.inr rfl)))
  | sidecarOpen =>
    refine iff_of_false ?_ id
    rw [hat.verify_sidecarOpen rfl]
    exact not_recovers_error (by decide) (by decide)
  | sidecar => exact hat.recovers_sidecar (.inl rfl)
  | signed => exact hat.recovers_sidecar (.inr rfl)
  | renamed => exact hat.recovers_renamed rfl

/-- A model that is replaced recovers if power is lost after the rename. -/
theorem add_recovers_renamed :
    ∃ cut ∈ (add (fun _ => 0) firstByte "m".toList [some ⟨[2], by decide⟩] 0 none
        ⟨oneModel firstByte, ⟨100, false⟩, [], [], []⟩).2.cuts, cut.1 = .renamed ∧
      Recovers (oneModel firstByte) "m".toList [2]
        (verifyFingerprint cut.2.toUpperLayer firstByte "m".toList) := by
  have hpoint : ∃ cut ∈ (add (fun _ => 0) firstByte "m".toList [some ⟨[2], by decide⟩] 0 none
      ⟨oneModel firstByte, ⟨100, false⟩, [], [], []⟩).2.cuts, cut.1 = .renamed := by
    decide +kernel
  obtain ⟨cut, hcut, hp⟩ := hpoint
  refine ⟨cut, hcut, hp, (add_recovers_iff cut hcut).2 ?_⟩
  rw [hp]
  exact ⟨by decide, rfl, rfl⟩

/-- If power is lost when the sidecar of a model that is replaced has been created, the model does
    not verify, whatever the digest is. -/
theorem not_add_recovers :
    ¬ ∃ sha3 : List UInt8 → Digest, ∀ (total : MockWritableUpperLayer → ℕ)
      (u : MockWritableUpperLayer) (cap : OverlayCap) (locks : List Path) (name : Path)
      (source : List Read) (expectedSize : ℕ) (signature : Option (List UInt8)),
      Verified u sha3 →
        ∀ cut ∈ (add total sha3 name source expectedSize signature ⟨u, cap, locks, [], []⟩).2.cuts,
          Recovers u name (delivered source) (verifyFingerprint cut.2.toUpperLayer sha3 name) := by
  rintro ⟨sha3, h⟩
  have hadd : ∃ r w, add (fun _ => 0) sha3 "m".toList [some ⟨[2], by decide⟩] 0 none
      ⟨oneModel sha3, ⟨2 ^ 64 - 1, false⟩, [], [], []⟩ = (.ok r, w) ∧ _ ∧ Passed w :=
    add_eq_ok (by decide) (by decide) rfl le_rfl (by decide)
  obtain ⟨r, w, hadd, -, cut, hcut, hp⟩ := hadd
  have hmem : cut ∈ (add (fun _ => 0) sha3 "m".toList [some ⟨[2], by decide⟩] 0 none
      ⟨oneModel sha3, ⟨2 ^ 64 - 1, false⟩, [], [], []⟩).2.cuts := by rwa [hadd]
  have hrec := h _ _ _ _ _ _ _ _ verified_oneModel cut hmem
  rw [(at_of_mem_cuts hmem).verify_sidecarOpen hp] at hrec
  exact not_recovers_error (by decide) (by decide) hrec

end SmallAIOS.Fs.Overlay
