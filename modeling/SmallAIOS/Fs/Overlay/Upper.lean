import SmallAIOS.Fs.Overlay.Layer
import SmallAIOS.Lib.SortedMap

/-!
# The writable upper layer

The upper layer as its in-memory implementation has it: files and directories by
their normalised paths. A whiteout of a path is a file with the suffix `.whiteout`,
an opaque directory one with a file `.opaque` in it.

* `lookup_of_fileAt`, `lookup_of_nothingAt`, `lookup_of_fileAt_eq_none`: a lookup finds a
  file (`fileAt`), nothing at all (`NothingAt`) or something else;
* `exists_createOrReplace`, `exists_append`, `exists_rename`: what the operations do.
-/

namespace SmallAIOS.Fs.Overlay

open Lib List

/-- The path without slashes at its ends, under which a file is kept. -/
def normalize (path : Path) : Path := Path.trim '/' path

structure MockWritableUpperLayer where
  files : SortedMap Path (List UInt8)
  dirs : SortedMap Path Unit

namespace MockWritableUpperLayer

variable (u : MockWritableUpperLayer)

/-- The directories above a key, up to the key itself. -/
def parents (key : Path) : List Path :=
  (Path.walk '/' [] ((key.splitOn '/').filter (· ≠ []))).takeWhile (· ≠ key)

/-- Make the directories above a key. -/
def ensureParents (key : Path) : MockWritableUpperLayer :=
  { u with dirs := (parents key).foldl (fun dirs dir => dirs.insert dir ()) u.dirs }

/-- The final component. -/
def bareName (key : Path) : Path := (key.splitOn '/').getLast?.getD []

def lookup (path : Path) : Option UpperEntry :=
  let key := normalize path
  if key = [] then some ⟨[], .directory, 0, 0o755⟩
  else if (u.files.get? (key ++ ".whiteout".toList)).isSome then
    some ⟨bareName key, .whiteout, 0, 0o644⟩
  else
    match u.files.get? key with
    | some bytes => some ⟨bareName key, .regularFile, bytes.length, 0o644⟩
    | none =>
      if (u.dirs.get? key).isSome then
        let kind := if (u.files.get? (key ++ "/.opaque".toList)).isSome then .opaqueDir
          else .directory
        some ⟨bareName key, kind, 0, 0o755⟩
      else none

def readFile (path : Path) (offset len : ℕ) : Except UpperError (List UInt8) :=
  match u.files.get? (normalize path) with
  | none => .error .notFound
  | some bytes =>
    if bytes.length < offset then .error .outOfRange
    else .ok ((bytes.drop offset).take len)

/-- What a file is listed as in the directory with the given prefix, if it is in it. -/
def listedFile (dirPrefix : Path) (file : Path × List UInt8) : Option UpperEntry :=
  if dirPrefix.isPrefixOf file.1 then
    let suffix := file.1.drop dirPrefix.length
    if suffix = [] ∨ '/' ∈ suffix then none
    else if suffix = ".opaque".toList then none
    else if ".whiteout".toList.isSuffixOf suffix then
      some ⟨suffix.take (suffix.length - ".whiteout".toList.length), .whiteout, 0, 0o644⟩
    else some ⟨suffix, .regularFile, file.2.length, 0o644⟩
  else none

/-- What a directory is listed as in the directory with the given prefix, if it is in it. -/
def listedDir (dirPrefix dir : Path) : Option UpperEntry :=
  if dirPrefix.isPrefixOf dir then
    let suffix := dir.drop dirPrefix.length
    if suffix = [] ∨ '/' ∈ suffix then none
    else
      let kind := if (u.files.get? (dir ++ "/.opaque".toList)).isSome then .opaqueDir
        else .directory
      some ⟨suffix, kind, 0, 0o755⟩
  else none

def iterDir (path : Path) : Except UpperError (List UpperEntry) :=
  let key := normalize path
  if key ≠ [] ∧ (u.dirs.get? key).isNone then
    if (u.files.get? key).isSome then .error .notADirectory else .error .notFound
  else
    let dirPrefix := if key = [] then [] else key ++ ['/']
    .ok (u.files.entries.filterMap (listedFile dirPrefix) ++
      u.dirs.entries.filterMap fun d => u.listedDir dirPrefix d.1)

/-- The operations that read, as those of an upper layer. -/
def toUpperLayer : UpperLayer where
  lookup path := .ok (u.lookup path)
  readFile := u.readFile
  iterDir := u.iterDir

theorem toUpperLayer_lookup (path : Path) :
    u.toUpperLayer.lookup path = .ok (u.lookup path) := rfl

/-! ## The operations that write -/

def createOrReplace (path : Path) : Except UpperError MockWritableUpperLayer :=
  let key := normalize path
  if key = [] then .error .notARegularFile
  else .ok { u.ensureParents key with files := u.files.insert key [] }

def append (path : Path) (data : List UInt8) : Except UpperError MockWritableUpperLayer :=
  let key := normalize path
  match u.files.get? key with
  | none => .error .notFound
  | some bytes => .ok { u with files := u.files.insert key (bytes ++ data) }

def rename (src dst : Path) : Except UpperError MockWritableUpperLayer :=
  let srcKey := normalize src
  let dstKey := normalize dst
  if srcKey = dstKey then .ok u
  else
    match u.files.get? srcKey with
    | none => .error .notFound
    | some bytes =>
      .ok { u.ensureParents dstKey with files := (u.files.erase srcKey).insert dstKey bytes }

def unlink (path : Path) : MockWritableUpperLayer :=
  { u with files := u.files.erase (normalize path) }

end MockWritableUpperLayer

/-! ## The keys of a name -/

/-- The name without the slashes it starts with. -/
def stem (name : Path) : Path := name.dropWhile (· = '/')

variable {name suf suf' key : Path}

/-- A name with a suffix is kept under its stem with the suffix. -/
theorem normalize_append (hs : Path.IsName '/' suf) :
    normalize (name ++ suf) = stem name ++ suf := by
  have hd : suf.dropWhile (· = '/') = suf := by
    cases suf with
    | nil => rfl
    | cons c suf =>
      have hc : c ≠ '/' := fun e => hs.2 (e ▸ mem_cons_self)
      exact dropWhile_cons_of_neg (by simpa using hc)
  have hstem : (name ++ suf).dropWhile (· = '/') = stem name ++ suf := by
    rw [dropWhile_append, hd, stem]
    split
    · next h => rw [isEmpty_iff.1 h, nil_append]
    · rfl
  rw [normalize, Path.trim, hstem, rdropWhile_eq_self_iff]
  intro hne hlast
  have hmem : (stem name ++ suf).getLast hne ∈ suf := by
    rw [getLast_append_of_ne_nil _ hs.1]
    exact getLast_mem _
  rw [of_decide_eq_true hlast] at hmem
  exact hs.2 hmem

theorem length_normalize_le (name : Path) : (normalize name).length ≤ (stem name).length :=
  ( rdropWhile_prefix _ _).length_le

theorem normalize_ne_append (hs : suf ≠ []) : normalize name ≠ stem name ++ suf := by
  intro h
  have hlen := length_normalize_le name
  rw [h, length_append] at hlen
  exact hs (length_eq_zero_iff.1 (by omega))

/-- Paths that end in different characters are different. -/
theorem append_ne_append {a b : Path} (hs : suf ≠ []) (hs' : suf' ≠ [])
    (h : suf.getLast? ≠ suf'.getLast?) : a ++ suf ≠ b ++ suf' := by
  intro he
  have := congrArg getLast? he
  rw [getLast?_append_of_ne_nil _ hs, getLast?_append_of_ne_nil _ hs'] at this
  exact h this

/-! ## What a lookup finds -/

namespace MockWritableUpperLayer

/-- The content of the file a lookup of the key finds, if it finds one. -/
def fileAt (u : MockWritableUpperLayer) (key : Path) : Option (List UInt8) :=
  if key = [] ∨ (u.files.get? (key ++ ".whiteout".toList)).isSome then none else u.files.get? key

/-- A lookup of the key finds nothing. -/
def NothingAt (u : MockWritableUpperLayer) (key : Path) : Prop :=
  key ≠ [] ∧ u.files.get? (key ++ ".whiteout".toList) = none ∧ u.files.get? key = none ∧
    u.dirs.get? key = none
  deriving Decidable

variable {u u' : MockWritableUpperLayer} {path src dst : Path} {bytes data : List UInt8}

theorem lookup_of_fileAt (h : u.fileAt (normalize path) = some bytes) :
    u.lookup path = some ⟨bareName (normalize path), .regularFile, bytes.length, 0o644⟩ := by
  rw [fileAt] at h
  split_ifs at h with hc
  rw [not_or] at hc
  simp only [lookup, if_neg hc.1, if_neg hc.2, h]

theorem lookup_of_nothingAt (h : u.NothingAt (normalize path)) : u.lookup path = none := by
  obtain ⟨hne, hw, hf, hd⟩ := h
  simp only [lookup, if_neg hne, hw, hf, hd, Option.isSome_none, Bool.false_eq_true, if_false]

/-- What is found, but not as a file. -/
theorem lookup_of_fileAt_eq_none (hf : u.fileAt (normalize path) = none)
    (hn : ¬ u.NothingAt (normalize path)) :
    ∃ e, u.lookup path = some e ∧ e.kind ≠ .regularFile := by
  simp only [lookup]
  rw [fileAt] at hf
  split_ifs at hf with hc
  · rcases hc with hc | hc
    · exact ⟨_, if_pos hc, by decide⟩
    · split_ifs
      · exact ⟨_, rfl, by decide⟩
      · exact ⟨_, rfl, fun h => nomatch h⟩
  · rw [not_or] at hc
    have hw : u.files.get? (normalize path ++ ".whiteout".toList) = none := by
      simpa using hc.2
    rw [if_neg hc.1, if_neg hc.2, hf]
    have hd : (u.dirs.get? (normalize path)).isSome := by
      rw [Option.isSome_iff_ne_none]
      exact fun hd => hn ⟨hc.1, hw, hf, hd⟩
    refine ⟨_, if_pos hd, ?_⟩
    dsimp only
    split_ifs <;> decide

/-! ## What the operations do to the files and the directories -/

theorem get?_foldl_insert {dirs : SortedMap Path Unit} {key : Path} (made : List Path) :
    (made.foldl (fun dirs dir => dirs.insert dir ()) dirs).get? key = none ↔
      dirs.get? key = none ∧ key ∉ made := by
  induction made generalizing dirs with
  | nil => simp
  | cons dir made ih =>
    rw [foldl_cons, ih]
    by_cases hk : key = dir
    · subst hk
      simp
    · simp [SortedMap.get?_insert_of_ne hk, hk]

/-- A directory is missing after the parents of a key are made if it was missing and is none
    of them. -/
theorem get?_dirs_ensureParents {key dir : Path} :
    (u.ensureParents key).dirs.get? dir = none ↔ u.dirs.get? dir = none ∧ dir ∉ parents key :=
  get?_foldl_insert _

theorem exists_createOrReplace (h : normalize path ≠ []) :
    ∃ u', u.createOrReplace path = .ok u' ∧ u'.files = u.files.insert (normalize path) [] ∧
      u'.dirs = (u.ensureParents (normalize path)).dirs :=
  ⟨_, if_neg h, rfl, rfl⟩

theorem exists_append (h : u.files.get? (normalize path) = some bytes) (data : List UInt8) :
    ∃ u', u.append path data = .ok u' ∧
      u'.files = u.files.insert (normalize path) (bytes ++ data) ∧ u'.dirs = u.dirs := by
  simp only [append, h]
  exact ⟨_, rfl, rfl, rfl⟩

theorem exists_rename (hne : normalize src ≠ normalize dst)
    (h : u.files.get? (normalize src) = some bytes) :
    ∃ u', u.rename src dst = .ok u' ∧
      u'.files = (u.files.erase (normalize src)).insert (normalize dst) bytes := by
  simp only [rename, if_neg hne, h]
  exact ⟨_, rfl, rfl⟩

end MockWritableUpperLayer

end SmallAIOS.Fs.Overlay
