import Mathlib.Data.String.Basic
import SmallAIOS.Lib.Path

/-!
# The layers of the model overlay

The models are seen through two layers: an upper one that is written to, whose
entries may also be marks that hide what is below, and a lower one that is only
read. Either answers lookups of paths and lists directories. A path is looked up
in the upper layer first and then, if no directory above it is opaque, in the
lower one (`lookup`).

* `lookup_eq_lower`: when a lookup ends in the lower layer;
* `UpperLayer.Agrees`, `LowerLayer.Agrees`: a layer lists what its lookups find.
-/

namespace SmallAIOS.Fs.Overlay

open Lib Path Except

/-- A path, or a name: a string of characters. -/
abbrev Path := List Char

instance : LawfulBEq Path := inferInstance

/-- What an operation of the upper layer fails with. -/
inductive UpperError
  | notFound
  | notADirectory
  | notARegularFile
  | outOfRange
  | io
  deriving DecidableEq

/-- What an operation of the lower layer fails with. -/
inductive LowerError
  | notFound
  | notADirectory
  | notARegularFile
  | outOfRange
  | io
  deriving DecidableEq

inductive UpperEntryKind
  | regularFile
  | directory
  | whiteout
  | opaqueDir
  deriving DecidableEq

inductive LowerEntryKind
  | regularFile
  | directory
  | other
  deriving DecidableEq

/-- An entry of the upper layer, under its final component. -/
structure UpperEntry where
  name : Path
  kind : UpperEntryKind
  size : ℕ
  mode : UInt16
  deriving DecidableEq

/-- An entry of the lower layer, under its final component. -/
structure LowerEntry where
  name : Path
  kind : LowerEntryKind
  size : ℕ
  mode : UInt16
  deriving DecidableEq

/-- The operations of the upper layer that read. -/
structure UpperLayer where
  lookup : Path → Except UpperError (Option UpperEntry)
  /-- The bytes of a file from an offset, as many as fit the buffer. -/
  readFile : Path → ℕ → ℕ → Except UpperError (List UInt8)
  iterDir : Path → Except UpperError (List UpperEntry)

/-- The operations of the lower layer. -/
structure LowerLayer where
  lookup : Path → Except LowerError (Option LowerEntry)
  iterDir : Path → Except LowerError (List LowerEntry)

/-- What the overlay fails with. -/
inductive OverlayError
  | upper (e : UpperError)
  | lower (e : LowerError)
  deriving DecidableEq

/-- The outcomes of a lookup through both layers. -/
inductive LookupResult
  | upper (entry : UpperEntry)
  | whiteoutHidesLower
  | opaqueHidesLowerSubtree
  | lower (entry : LowerEntry)
  | notFound
  deriving DecidableEq

/-! ## Reserved names -/

def reservedSuffixes : List Path :=
  [".whiteout".toList, ".opaque".toList, ".sha3".toList, ".sig".toList]

/-- The reserved suffix of the name, if it has one. -/
def matchedReservedSuffix (name : Path) : Option Path :=
  reservedSuffixes.find? (·.isSuffixOf name)

def isReservedName (name : Path) : Bool := (matchedReservedSuffix name).isSome

/-! ## Lookup -/

variable (upper : UpperLayer) (lower : LowerLayer)

/-- Look the parts up one below the other, until one is an opaque directory. -/
def walkAncestors (walked : Path) : List Path → Except UpperError Bool
  | [] => .ok false
  | part :: parts => do
    let walked := join '/' walked part
    match ← upper.lookup walked with
    | some entry => if entry.kind = .opaqueDir then return true else walkAncestors walked parts
    | none => walkAncestors walked parts

/-- Whether a directory above the path is opaque. -/
def anyAncestorOpaque (path : Path) : Except UpperError Bool :=
  let trimmed := trim '/' path
  if trimmed = [] then .ok false
  else
    let parts := trimmed.splitOn '/'
    walkAncestors upper [] (parts.take (parts.length - 1))

/-- Look a path up through both layers. -/
def lookup (path : Path) : Except OverlayError LookupResult :=
  match upper.lookup path with
  | .error e => .error (.upper e)
  | .ok (some entry) =>
    .ok (match entry.kind with
      | .whiteout => .whiteoutHidesLower
      | _ => .upper entry)
  | .ok none =>
    match anyAncestorOpaque upper path with
    | .error e => .error (.upper e)
    | .ok true => .ok .opaqueHidesLowerSubtree
    | .ok false =>
      match lower.lookup path with
      | .ok (some entry) => .ok (.lower entry)
      | .ok none => .ok .notFound
      | .error .notFound => .ok .notFound
      | .error e => .error (.lower e)

/-! ## When a lookup ends in which layer -/

variable {upper lower} {path dir name q : Path}

/-- The upper layer answers for the path, and not with an opaque directory. -/
def UpperLayer.Clear (upper : UpperLayer) (path : Path) : Prop :=
  ∃ found, upper.lookup path = .ok found ∧ ∀ entry ∈ found, entry.kind ≠ .opaqueDir

/-- The upper layer holds an opaque directory at the path. -/
def UpperLayer.HasOpaque (upper : UpperLayer) (path : Path) : Prop :=
  ∃ entry, upper.lookup path = .ok (some entry) ∧ entry.kind = .opaqueDir

theorem UpperLayer.Clear.not_hasOpaque (h : upper.Clear path) : ¬ upper.HasOpaque path := by
  rintro ⟨entry, hentry, hkind⟩
  obtain ⟨found, hfound, hclear⟩ := h
  rw [hentry] at hfound
  cases hfound
  exact hclear entry rfl hkind

theorem walkAncestors_eq_false {walked : Path} {parts : List Path} :
    walkAncestors upper walked parts = .ok false ↔ ∀ a ∈ walk '/' walked parts, upper.Clear a := by
  induction parts generalizing walked with
  | nil => simp [walkAncestors]
  | cons part parts ih =>
    rw [walk_cons, List.forall_mem_cons, ← ih, walkAncestors, UpperLayer.Clear]
    rcases upper.lookup (join '/' walked part) with e | _ | entry
    · simp [bind, Except.bind]
    · simp [bind, Except.bind]
    · by_cases hk : entry.kind = .opaqueDir
      · simp [bind, Except.bind, pure, Except.pure, hk]
      · simp [bind, Except.bind, hk]

/-- No directory above the path is opaque if each of them is clear. -/
theorem anyAncestorOpaque_eq_false (h : Path.Relative '/' path) :
    anyAncestorOpaque upper path = .ok false ↔ ∀ a, Path.Above '/' a path → upper.Clear a := by
  rw [anyAncestorOpaque, trim_eq_self h]
  by_cases hp : path = []
  · rw [hp]
    refine iff_of_true rfl ?_
    rintro a ⟨r, hr⟩
    exact absurd hr.symm (by simp)
  · simp only [if_neg hp, ← List.dropLast_eq_take, walkAncestors_eq_false, mem_walk h hp]

theorem lookup_eq_upper {entry : UpperEntry} :
    lookup upper lower path = .ok (.upper entry) ↔
      upper.lookup path = .ok (some entry) ∧ entry.kind ≠ .whiteout := by
  rw [lookup]
  rcases upper.lookup path with e | _ | found
  · simp
  · simp only [ok.injEq, reduceCtorEq, false_and, iff_false]
    split
    · simp
    · simp
    · split <;> simp
  · dsimp only
    cases hk : found.kind with
    | whiteout =>
      simp only [ok.injEq, reduceCtorEq, Option.some.injEq, false_iff, not_and, not_not]
      rintro rfl
      exact hk
    | _ =>
      simp only [ok.injEq, LookupResult.upper.injEq, Option.some.injEq]
      refine ⟨fun e => ⟨e, ?_⟩, And.left⟩
      rw [← e, hk]
      decide

/-- A lookup ends in the lower layer if the upper one has nothing at the path and no opaque
    directory above it. -/
theorem lookup_eq_lower (h : Path.Relative '/' path) {entry : LowerEntry} :
    lookup upper lower path = .ok (.lower entry) ↔
      upper.lookup path = .ok none ∧ (∀ a, Path.Above '/' a path → upper.Clear a) ∧
        lower.lookup path = .ok (some entry) := by
  rw [← anyAncestorOpaque_eq_false h, lookup]
  rcases upper.lookup path with e | _ | found
  · simp
  · rcases anyAncestorOpaque upper path with e | _ | _
    · simp
    · rcases lower.lookup path with e | _ | found
      · cases e <;> simp
      · simp
      · simp
    · simp
  · dsimp only
    cases found.kind <;> simp

/-! ## Layers whose listings agree with their lookups -/

/-- A directory lists the entries that looking its names up finds, and there is nothing to
    find in what is no directory. -/
structure UpperLayer.Agrees (upper : UpperLayer) : Prop where
  listed : ∀ dir entries name, Path.Relative '/' dir → Path.IsName '/' name →
    upper.iterDir dir = .ok entries → ∃ found, upper.lookup (join '/' dir name) = .ok found ∧
      ∀ entry, entry ∈ entries ∧ entry.name = name ↔ found = some entry
  absent : ∀ dir e name, Path.Relative '/' dir → Path.IsName '/' name →
    upper.iterDir dir = .error e → e = .notFound ∨ e = .notADirectory →
      upper.lookup (join '/' dir name) = .ok none

/-- As `UpperLayer.Agrees`; the lower layer may also report a missing path by an error. -/
structure LowerLayer.Agrees (lower : LowerLayer) : Prop where
  listed : ∀ dir entries name, Path.Relative '/' dir → Path.IsName '/' name →
    lower.iterDir dir = .ok entries → ∀ entry, entry ∈ entries ∧ entry.name = name ↔
      lower.lookup (join '/' dir name) = .ok (some entry)
  absent : ∀ dir e name, Path.Relative '/' dir → Path.IsName '/' name →
    lower.iterDir dir = .error e → e = .notFound ∨ e = .notADirectory →
      ∀ entry, lower.lookup (join '/' dir name) ≠ .ok (some entry)

/-- The upper layer with the given entries of its directories. -/
def UpperLayer.ofEntries (entries : List (Path × UpperEntry)) : UpperLayer where
  lookup path :=
    if path = [] then .ok (some ⟨[], .directory, 0, 0o755⟩)
    else .ok (find '/' UpperEntry.name entries path)
  readFile _ _ _ := .error .notFound
  iterDir dir := .ok (list entries dir)

/-- The lower layer with the given entries of its directories. -/
def LowerLayer.ofEntries (entries : List (Path × LowerEntry)) : LowerLayer where
  lookup path :=
    if path = [] then .ok (some ⟨[], .directory, 0, 0o755⟩)
    else .ok (find '/' LowerEntry.name entries path)
  iterDir dir := .ok (list entries dir)

theorem UpperLayer.agrees_ofEntries {entries : List (Path × UpperEntry)}
    (hname : ∀ p ∈ entries, Path.IsName '/' p.2.name)
    (hd : (entries.map fun p => (p.1, p.2.name)).Nodup) :
    (UpperLayer.ofEntries entries).Agrees where
  listed dir _ name _ hn h := by
    rw [← ok.inj h]
    refine ⟨_, if_neg (join_ne_nil hn.1), fun entry => ?_⟩
    exact mem_list_iff hname hd hn
  absent _ _ _ _ _ h := nomatch h

theorem LowerLayer.agrees_ofEntries {entries : List (Path × LowerEntry)}
    (hname : ∀ p ∈ entries, Path.IsName '/' p.2.name)
    (hd : (entries.map fun p => (p.1, p.2.name)).Nodup) :
    (LowerLayer.ofEntries entries).Agrees where
  listed dir _ name _ hn h entry := by
    rw [← ok.inj h]
    have hl : (LowerLayer.ofEntries entries).lookup (join '/' dir name) =
        .ok (find '/' LowerEntry.name entries (join '/' dir name)) :=
      if_neg (join_ne_nil hn.1)
    rw [hl, ok.injEq]
    exact mem_list_iff hname hd hn
  absent _ _ _ _ _ h := nomatch h

end SmallAIOS.Fs.Overlay
