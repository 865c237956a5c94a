import SmallAIOS.Lib.Glob

/-!
# Key expressions

A key expression is a path of segments separated by slashes, each a literal,
`*` or `**`. `KeyExpr.new` accepts the well-formed ones, and `KeyExpr.matches`
walks along the segments of two of them.

A key expression stands for a language of segments (`KeyExpr.lang`): `*` for any
one segment, and `**` for any sequence of them. Two expressions match exactly if
some key without wildcards, itself an accepted expression, is in both languages
(`matches_iff`).
-/

namespace SmallAIOS.Ipc

open Lib List Glob

/-- The errors of the IPC layer. -/
inductive IpcError
  /-- Key expression is syntactically invalid. -/
  | invalidKeyExpression
  /-- Subscription or routing table is full. -/
  | tableFull
  /-- Requested resource was not found. -/
  | notFound
  /-- Message buffer is at capacity. -/
  | bufferFull
  /-- Invalid state for this operation. -/
  | invalidState
  /-- Message exceeds maximum allowed size. -/
  | messageTooLarge
  /-- Packet too short to decode. -/
  | packetTooShort
  /-- Destination buffer too small. -/
  | bufferTooSmall
  /-- Invalid or malformed header. -/
  | invalidHeader
  /-- Protocol magic or version mismatch. -/
  | invalidProtocol
  deriving DecidableEq

/-- The single-level wildcard `*`. -/
def star : List Char := ['*']

/-- The multi-level wildcard `**`. -/
def doubleStar : List Char := ['*', '*']

/-- The characters of a literal segment. -/
def isLiteralChar (c : Char) : Bool := c.isAlphanum || c == '_' || c == '-'

/-- Check whether a single segment is valid. -/
def isValidSegment (seg : List Char) : Bool :=
  if seg.isEmpty then false
  else if seg == star || seg == doubleStar then true
  else seg.all isLiteralChar

/-- A key expression. -/
structure KeyExpr where
  expr : List Char
  deriving DecidableEq

/-- Recursive wildcard matching between two segment lists. -/
def segmentsMatch : List (List Char) → List (List Char) → Bool
  | [], [] => true
  | sa :: a, [] => if sa == doubleStar then segmentsMatch a [] else false
  | [], sb :: b => if sb == doubleStar then segmentsMatch [] b else false
  | sa :: a, sb :: b =>
    if sa == doubleStar then segmentsMatch a (sb :: b) || segmentsMatch (sa :: a) b
    else if sb == doubleStar then segmentsMatch (sa :: a) b || segmentsMatch a (sb :: b)
    else if sa == star || sb == star then segmentsMatch a b
    else if sa == sb then segmentsMatch a b
    else false
termination_by a b => a.length + b.length

namespace KeyExpr

/-- Create a key expression after validating the expression string. -/
def new (expr : List Char) : Except IpcError KeyExpr :=
  if expr.isEmpty then .error .invalidKeyExpression
  else if expr = ['/'] then .ok ⟨expr⟩
  else if ['/', '/'] <:+: expr then .error .invalidKeyExpression
  else if expr.getLast? = some '/' then .error .invalidKeyExpression
  else
    let toValidate := if expr.head? = some '/' then expr.tail else expr
    if (toValidate.splitOn '/').all isValidSegment then .ok ⟨expr⟩
    else .error .invalidKeyExpression

variable (k : KeyExpr)

/-- Split the key expression into its `/`-separated segments. -/
def segments : List (List Char) :=
  if k.expr = ['/'] then []
  else if k.expr.head? = some '/' then k.expr.tail.splitOn '/'
  else k.expr.splitOn '/'

/-- The key expression contains a wildcard. -/
def isWild : Bool := k.segments.any fun s => s == star || s == doubleStar

/-- Test whether this key expression matches another. -/
def «matches» (other : KeyExpr) : Bool := segmentsMatch k.segments other.segments

end KeyExpr

/-! ## Segments as parts of a pattern -/

/-- The part of a pattern a segment is. -/
def part (seg : List Char) : Glob.Part (List Char) :=
  if seg == doubleStar then .many else if seg == star then .one else .lit seg

/-- The literal segments. -/
def Literal : Set (List Char) := {seg | seg ≠ [] ∧ seg.all isLiteralChar}

theorem star_notMem_literal : star ∉ Literal := by
  rintro ⟨-, h⟩
  exact absurd h (by decide)

theorem doubleStar_notMem_literal : doubleStar ∉ Literal := by
  rintro ⟨-, h⟩
  exact absurd h (by decide)

variable {seg : List Char}

theorem isValidSegment_iff :
    isValidSegment seg = true ↔ seg ∈ Literal ∨ seg = star ∨ seg = doubleStar := by
  have hs : star ≠ [] := by simp [star]
  have hd : doubleStar ≠ [] := by simp [doubleStar]
  rw [isValidSegment, Literal]
  by_cases h : seg = star ∨ seg = doubleStar
  · rcases h with rfl | rfl <;> simp [hs, hd]
  · simp [h]

theorem part_ne_many (h : seg ≠ doubleStar) : part seg ≠ .many := by
  rw [part, if_neg (by simpa using h)]
  split <;> simp

theorem part_accepts {seg a : List Char} (h : seg ≠ doubleStar) :
    (part seg).Accepts a ↔ seg = star ∨ a = seg := by
  rw [part, if_neg (by simpa using h)]
  by_cases hs : seg = star
  · simp [hs, Glob.Part.Accepts]
  · simp [hs, Glob.Part.Accepts]

/-- A segment other than `**` stands for some literal. -/
theorem exists_accepts (hv : isValidSegment seg) :
    part seg = .many ∨ ∃ a ∈ Literal, (part seg).Accepts a := by
  rcases isValidSegment_iff.1 hv with hl | rfl | rfl
  · have hd : seg ≠ doubleStar := fun h => doubleStar_notMem_literal (h ▸ hl)
    exact .inr ⟨seg, hl, (part_accepts hd).2 (.inr rfl)⟩
  · obtain ⟨a, ha⟩ : Literal.Nonempty := ⟨['a'], by decide, by decide⟩
    exact .inr ⟨a, ha, (part_accepts (by decide)).2 (.inl rfl)⟩
  · exact .inl rfl

variable {sa sb : List Char}

/-- Two segments other than `**` stand for a common literal if one is `*`, or if they are equal. -/
theorem exists_accepts_both (hva : isValidSegment sa) (hvb : isValidSegment sb)
    (hsa : sa ≠ doubleStar) (hsb : sb ≠ doubleStar) :
    (∃ a ∈ Literal, (part sa).Accepts a ∧ (part sb).Accepts a) ↔
      (sa = star ∨ sb = star) ∨ sa = sb := by
  simp only [part_accepts hsa, part_accepts hsb]
  constructor
  · rintro ⟨a, -, ha | ha, hb | hb⟩
    · exact .inl (.inl ha)
    · exact .inl (.inl ha)
    · exact .inl (.inr hb)
    · exact .inr (ha.symm.trans hb)
  · obtain ⟨a, ha, hxa⟩ := (exists_accepts hva).resolve_left (part_ne_many hsa)
    obtain ⟨b, hb, hxb⟩ := (exists_accepts hvb).resolve_left (part_ne_many hsb)
    rw [part_accepts hsa] at hxa
    rw [part_accepts hsb] at hxb
    rintro ((h | h) | rfl)
    · exact ⟨b, hb, .inl h, hxb⟩
    · exact ⟨a, ha, hxa, .inl h⟩
    · exact ⟨a, ha, hxa, hxa⟩

theorem common_cons_cons {p q : List (Glob.Part (List Char))}
    (hva : isValidSegment sa) (hvb : isValidSegment sb) (hsa : sa ≠ doubleStar)
    (hsb : sb ≠ doubleStar) :
    Glob.Common Literal (part sa :: p) (part sb :: q) ↔
      ((sa = star ∨ sb = star) ∨ sa = sb) ∧ Glob.Common Literal p q := by
  rw [Glob.common_cons_cons (part_ne_many hsa) (part_ne_many hsb),
    exists_accepts_both hva hvb hsa hsb]

/-- The walk finds out whether two lists of valid segments have a key in common. -/
theorem segmentsMatch_iff {a b : List (List Char)} (ha : ∀ seg ∈ a, isValidSegment seg)
    (hb : ∀ seg ∈ b, isValidSegment seg) :
    segmentsMatch a b = true ↔ Glob.Common Literal (a.map part) (b.map part) := by
  fun_induction segmentsMatch a b with
  | case1 => exact iff_of_true rfl common_nil_nil
  | case2 sa a hsa ih =>
    rw [ih (forall_mem_cons.1 ha).2 hb, eq_of_beq hsa]
    exact common_many_nil.symm
  | case3 sa a hsa =>
    refine iff_of_false Bool.false_ne_true fun h => ?_
    exact not_common_nil_cons (part_ne_many (by simpa using hsa)) h.symm
  | case4 sb b hsb ih =>
    rw [ih ha (forall_mem_cons.1 hb).2, eq_of_beq hsb]
    exact common_nil_many.symm
  | case5 sb b hsb =>
    exact iff_of_false Bool.false_ne_true (not_common_nil_cons (part_ne_many (by simpa using hsb)))
  | case6 sa a sb b hsa ih1 ih2 =>
    obtain ⟨hv, hb'⟩ := forall_mem_cons.1 hb
    rw [Bool.or_eq_true, ih1 (forall_mem_cons.1 ha).2 hb, ih2 ha hb', eq_of_beq hsa]
    exact (common_many_cons (exists_accepts hv)).symm
  | case7 sa a sb b hsa hsb ih1 ih2 =>
    obtain ⟨hv, ha'⟩ := forall_mem_cons.1 ha
    rw [Bool.or_eq_true, ih1 ha (forall_mem_cons.1 hb).2, ih2 ha' hb, eq_of_beq hsb]
    exact (common_cons_many (exists_accepts hv)).symm
  | case8 sa a sb b hsa hsb hs ih =>
    obtain ⟨hva, ha'⟩ := forall_mem_cons.1 ha
    obtain ⟨hvb, hb'⟩ := forall_mem_cons.1 hb
    rw [ih ha' hb', map_cons, map_cons,
      common_cons_cons hva hvb (by simpa using hsa) (by simpa using hsb)]
    exact (and_iff_right (.inl (by simpa using hs))).symm
  | case9 sa a sb b hsa hsb _ hs ih =>
    obtain ⟨hva, ha'⟩ := forall_mem_cons.1 ha
    obtain ⟨hvb, hb'⟩ := forall_mem_cons.1 hb
    rw [ih ha' hb', map_cons, map_cons,
      common_cons_cons hva hvb (by simpa using hsa) (by simpa using hsb)]
    exact (and_iff_right (.inr (by simpa using hs))).symm
  | case10 sa a sb b hsa hsb hs hne =>
    obtain ⟨hva, -⟩ := forall_mem_cons.1 ha
    obtain ⟨hvb, -⟩ := forall_mem_cons.1 hb
    refine iff_of_false Bool.false_ne_true fun h => ?_
    rw [map_cons, map_cons, common_cons_cons hva hvb (by simpa using hsa) (by simpa using hsb)] at h
    exact h.1.elim (by simpa using hs) (by simpa using hne)

/-! ## Accepted expressions -/

namespace KeyExpr

variable {s t : List Char} {a b k : KeyExpr}

/-- The segments of an accepted expression are valid. -/
theorem isValidSegment_of_new (h : new s = .ok k) : ∀ seg ∈ k.segments, isValidSegment seg := by
  simp only [new] at h
  split_ifs at h with h1 hs h3 h4 hh hall hall
  · cases h
    simp [segments, hs]
  · cases h
    rw [segments, if_neg hs, if_pos hh]
    exact all_eq_true.1 hall
  · cases h
    rw [segments, if_neg hs, if_neg hh]
    exact all_eq_true.1 hall

theorem splitOn_append_slash (xs ys : List Char) :
    (xs ++ '/' :: ys).splitOn '/' = xs.splitOn '/' ++ ys.splitOn '/' :=
  splitOnP_append_cons xs ys rfl

/-- An expression whose segments are valid as they stand, with no slash in front, is accepted. -/
theorem new_of_splitOn (h : ∀ seg ∈ s.splitOn '/', isValidSegment seg) :
    new s = .ok ⟨s⟩ ∧ segments ⟨s⟩ = s.splitOn '/' := by
  -- A slash at either end, or two in a row, would leave an empty segment.
  have hn : [] ∉ s.splitOn '/' := fun hs => absurd (h [] hs) (by decide)
  have h1 : s ≠ [] := by
    rintro rfl
    exact hn mem_cons_self
  have h2 : s.head? ≠ some '/' := by
    intro hh
    obtain ⟨ys, rfl⟩ := head?_eq_some_iff.1 hh
    exact hn (splitOn_append_slash [] ys ▸ mem_cons_self)
  have h3 : s ≠ ['/'] := by
    rintro rfl
    exact h2 rfl
  have h4 : ¬ ['/', '/'] <:+: s := by
    rintro ⟨xs, ys, rfl⟩
    refine hn ?_
    rw [append_assoc, cons_append, splitOn_append_slash]
    exact mem_append_right _ (splitOn_append_slash [] ys ▸ mem_cons_self)
  have h5 : s.getLast? ≠ some '/' := by
    intro hl
    obtain ⟨ys, rfl⟩ := getLast?_eq_some_iff.1 hl
    refine hn ?_
    rw [splitOn_append_slash]
    simp
  constructor
  · simp [new, h1, h2, h3, h4, h5, all_eq_true.2 h]
  · simp [segments, h2, h3]

/-- Every list of literals is a key without wildcards. -/
theorem exists_new {w : List (List Char)} (hw : ∀ seg ∈ w, seg ∈ Literal) :
    ∃ key k, new key = .ok k ∧ k.isWild = false ∧ k.segments = w := by
  have hwild : w.any (fun seg => seg == star || seg == doubleStar) = false := by
    rw [any_eq_false]
    intro seg hseg hs
    rcases (by simpa using hs : seg = star ∨ seg = doubleStar) with rfl | rfl
    · exact star_notMem_literal (hw _ hseg)
    · exact doubleStar_notMem_literal (hw _ hseg)
  by_cases hnil : w = []
  · subst hnil
    exact ⟨['/'], ⟨['/']⟩, rfl, rfl, rfl⟩
  · have hsplit := splitOn_intercalate '/'
        (fun seg hseg hs => absurd (all_eq_true.1 (hw seg hseg).2 _ hs) (by decide)) hnil
    obtain ⟨hnew, hsegs⟩ := new_of_splitOn fun seg hseg =>
      isValidSegment_iff.2 (.inl (hw seg (hsplit ▸ hseg)))
    rw [hsplit] at hsegs
    exact ⟨_, _, hnew, by rw [isWild, hsegs, hwild], hsegs⟩

theorem mem_literal_of_isWild (h : new s = .ok k) (hw : k.isWild = false) :
    ∀ seg ∈ k.segments, seg ∈ Literal := by
  intro seg hseg
  rw [isWild, any_eq_false] at hw
  have hvalid := isValidSegment_iff.1 (isValidSegment_of_new h seg hseg)
  exact hvalid.resolve_right (by simpa using hw seg hseg)

/-- The language of a key expression. -/
def lang (k : KeyExpr) : Language (List Char) := Glob.lang (k.segments.map part)

theorem matches_iff_common (ha : new s = .ok a) (hb : new t = .ok b) :
    a.matches b = true ↔ Glob.Common Literal (a.segments.map part) (b.segments.map part) :=
  segmentsMatch_iff (isValidSegment_of_new ha) (isValidSegment_of_new hb)

/-- Two accepted key expressions match if there is a key without wildcards in the languages of both;
    in particular it does not matter which comes first. -/
theorem matches_iff (ha : new s = .ok a) (hb : new t = .ok b) :
    (a.matches b = true ↔ ∃ key k, new key = .ok k ∧ k.isWild = false ∧
      k.segments ∈ a.lang ∧ k.segments ∈ b.lang) ∧
    a.matches b = b.matches a := by
  constructor
  · rw [matches_iff_common ha hb]
    constructor
    · rintro ⟨w, hw, hwa, hwb⟩
      obtain ⟨key, k, hk, hwild, rfl⟩ := exists_new hw
      exact ⟨key, k, hk, hwild, hwa, hwb⟩
    · rintro ⟨key, k, hk, hwild, hka, hkb⟩
      exact ⟨k.segments, mem_literal_of_isWild hk hwild, hka, hkb⟩
  · rw [Bool.eq_iff_iff, matches_iff_common ha hb, matches_iff_common hb ha, Glob.common_comm]

/-- `a/**` and `*/b` have the key `a/b` in common. -/
theorem matches_iff_wild :
    KeyExpr.matches ⟨"a/**".toList⟩ ⟨"*/b".toList⟩ = true ∧
      ∃ key k, new key = .ok k ∧ k.isWild = false ∧
        k.segments ∈ lang ⟨"a/**".toList⟩ ∧ k.segments ∈ lang ⟨"*/b".toList⟩ := by
  have ha : new "a/**".toList = .ok ⟨"a/**".toList⟩ := by decide
  have hb : new "*/b".toList = .ok ⟨"*/b".toList⟩ := by decide
  have hsa : segments ⟨"a/**".toList⟩ = [['a'], ['*', '*']] := by decide
  have hsb : segments ⟨"*/b".toList⟩ = [['*'], ['b']] := by decide
  have hm : KeyExpr.matches ⟨"a/**".toList⟩ ⟨"*/b".toList⟩ = true := by
    rw [KeyExpr.matches, hsa, hsb]
    simp [segmentsMatch, star, doubleStar]
  exact ⟨hm, (matches_iff ha hb).1.1 hm⟩

end KeyExpr

end SmallAIOS.Ipc
