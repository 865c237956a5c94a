import SmallAIOS.Lib.Bytes
import SmallAIOS.Lib.Merkle
import SmallAIOS.Lib.Utf8
import Mathlib.Data.Vector.Defs

/-!
# Immudb proof verifier: inclusion proofs and signed states

`verifyInclusion` walks from a leaf hash up sibling terms to the root of a Merkle
tree. It takes one term at every level of the tree, on the side that the bit of
the leaf index says.

* `verifyInclusion_path_iff`: an RFC 6962 audit path is accepted exactly if the
  leaf has a sibling on every level. On a level whose last node has none, the
  audit path has no term, and the walk expects one;
* `verifyInclusion_unique`: at most one leaf hash, with one path, is accepted for a
  position, unless the branch hash collides.

`verifySignedState` checks the signature of a state of the server. What is signed
has the transaction hash padded with zeros, or cut, to the length of a digest, so
that it determines the state only up to that (`signedStatePayload_covers_iff`).

SHA-256 and Ed25519 are parameters.
-/

namespace SmallAIOS.AuditExport.Immudb

open Lib Nat Merkle
open Vector hiding map_inj_right size_toArray
open List hiding Vector

/-- A SHA-256 digest. -/
abbrev Digest := Vector UInt8 32

/-- The bytes as a digest, if there are as many as it has. -/
def Digest.ofList? (bytes : List UInt8) : Option Digest :=
  if h : bytes.length = 32 then some ⟨bytes.toArray, by rw [size_toArray, h]⟩ else none

/-- Errors surfaced by every verifier function. -/
inductive VerifyError
  | mismatch
  | malformed
  | badSignatureFormat
  | badSignature
  | pubkeyFingerprintMismatch
  | missingField
  | alhWirePending
  deriving DecidableEq

section

variable (sha256 : List UInt8 → Digest)

/-- Leaf hash: `SHA-256(0x00 || data)`. -/
def merkleLeaf (data : List UInt8) : Digest := sha256 (0x00 :: data)

/-- Internal node hash: `SHA-256(0x01 || left || right)`. -/
def merkleBranch (left right : Digest) : Digest := sha256 (0x01 :: (left.toList ++ right.toList))

/-- The loop of `verifyInclusion`: the hash of the top level, and the terms left. -/
def walk (h : Digest) (i w : ℕ) (terms : List (List UInt8)) :
    Except VerifyError (Digest × List (List UInt8)) :=
  if 1 < w then
    match terms with
    | [] => .error .malformed
    | termBytes :: terms =>
      match Digest.ofList? termBytes with
      | none => .error .malformed
      | some term =>
        let h := if i % 2 = 0 then merkleBranch sha256 h term else merkleBranch sha256 term h
        -- The width of the next level, `w.div_ceil(2)`.
        walk h (i / 2) ((w + 1) / 2) terms
  else .ok (h, terms)

/-- Walk an inclusion proof and assert that the recomputed root is the expected one. -/
def verifyInclusion (leafHash : Digest) (leafIndex treeWidth : ℕ) (terms : List (List UInt8))
    (expectedRoot : Digest) : Except VerifyError Unit :=
  if treeWidth ≤ leafIndex then .error .malformed
  else if treeWidth = 0 then .error .malformed
  else if treeWidth = 1 then
    if !terms.isEmpty then .error .malformed
    else if leafHash = expectedRoot then .ok ()
    else .error .mismatch
  else do
    let (h, rest) ← walk sha256 leafHash leafIndex treeWidth terms
    if !rest.isEmpty then .error .malformed
    else if h = expectedRoot then .ok ()
    else .error .mismatch

/-- The tree of RFC 6962. -/
def rfc6962 : Merkle.Hasher (List UInt8) Digest where
  empty := sha256 []
  leaf := merkleLeaf sha256
  branch := merkleBranch sha256

/-- The pairs that `merkleBranch` is computed of on a walk. -/
def branches (h : Digest) (i : ℕ) (terms : List (List UInt8)) : List (Digest × Digest) :=
  hashed (merkleBranch sha256) h i (terms.filterMap Digest.ofList?)

end

theorem Digest.ofList?_eq_some {bytes : List UInt8} {x : Digest} :
    ofList? bytes = some x ↔ bytes = x.toList := by
  rw [ofList?]
  refine ⟨fun h => ?_, fun h => ?_⟩
  · split_ifs at h
    cases h
    rfl
  · subst h
    rw [dif_pos x.length_toList]
    rfl

variable {sha256 : List UInt8 → Digest} {h h' : Digest} {i w : ℕ} {terms : List (List UInt8)}

theorem walk_of_le_one (hw : w ≤ 1) : walk sha256 h i w terms = .ok (h, terms) := by
  rw [walk.eq_def, if_neg (not_lt.2 hw)]

variable {termBytes : List UInt8}

/-- At the root no digest is left. -/
theorem walk_eq_ok_nil_of_le_one (hw : w ≤ 1) : walk sha256 h i w terms = .ok (h', []) ↔
    ∃ xs : List Digest, terms = xs.map toList ∧ xs.length = clog 2 w ∧
      climb (merkleBranch sha256) h i xs = h' := by
  rw [walk_of_le_one hw, clog_of_right_le_one hw]
  refine ⟨fun he => ?_, ?_⟩
  · cases he
    exact ⟨[], rfl, rfl, rfl⟩
  · rintro ⟨xs, rfl, hlen, rfl⟩
    obtain rfl := length_eq_zero_iff.1 hlen
    rfl

/-- The walk takes a digest for each level. -/
theorem walk_eq_ok_nil : walk sha256 h i w terms = .ok (h', []) ↔
    ∃ xs : List Digest, terms = xs.map toList ∧ xs.length = clog 2 w ∧
      climb (merkleBranch sha256) h i xs = h' := by
  induction terms generalizing h i w with
  | nil =>
    rcases lt_or_ge 1 w with hw | hw
    · rw [walk, if_pos hw]
      refine iff_of_false nofun ?_
      rintro ⟨xs, hxs, hlen, -⟩
      obtain rfl := map_eq_nil_iff.1 hxs.symm
      exact (clog_pos one_lt_two hw).ne hlen
    · exact walk_eq_ok_nil_of_le_one hw
  | cons termBytes terms ih =>
    rcases lt_or_ge 1 w with hw | hw
    · have hclog := clog_of_one_lt one_lt_two hw
      rw [hclog]
      cases ht : Digest.ofList? termBytes with
      | none =>
        simp only [walk, if_pos hw, ht]
        refine iff_of_false nofun ?_
        rintro ⟨_ | ⟨x, xs⟩, hxs, -⟩
        · cases hxs
        · rw [Digest.ofList?_eq_some.2 (cons.inj hxs).1] at ht
          cases ht
      | some term =>
        simp only [walk, if_pos hw, ht]
        rw [ih]
        obtain rfl := Digest.ofList?_eq_some.1 ht
        refine ⟨?_, ?_⟩
        · rintro ⟨xs, rfl, hlen, hclimb⟩
          exact ⟨term :: xs, rfl, congrArg (· + 1) hlen, hclimb⟩
        · rintro ⟨_ | ⟨x, xs⟩, hxs, hlen, hclimb⟩
          · cases hxs
          · obtain ⟨hx, rfl⟩ := cons.inj hxs
            obtain rfl := toList_inj.1 hx
            exact ⟨xs, rfl, succ.inj hlen, hclimb⟩
    · exact walk_eq_ok_nil_of_le_one hw

variable {leafHash root : Digest} {leafIndex treeWidth : ℕ}

/-- What is left to check after the walk. -/
theorem finish_eq_ok {r : Digest × List (List UInt8)} :
    (if !r.2.isEmpty then .error .malformed
      else if r.1 = root then .ok ()
      else .error .mismatch : Except VerifyError Unit) = .ok () ↔ r = (root, []) := by
  obtain ⟨h, _ | ⟨-, -⟩⟩ := r
  · by_cases hroot : h = root <;> simp [hroot]
  · simp

/-- A proof is accepted if it has one digest for each level of the tree, and the climb along them
    reaches the root. -/
theorem verifyInclusion_eq_ok :
    verifyInclusion sha256 leafHash leafIndex treeWidth terms root = .ok () ↔
      leafIndex < treeWidth ∧ ∃ xs : List Digest, terms = xs.map toList ∧
        xs.length = clog 2 treeWidth ∧
        climb (merkleBranch sha256) leafHash leafIndex xs = root := by
  rw [← walk_eq_ok_nil, verifyInclusion]
  rcases lt_or_ge leafIndex treeWidth with hlt | hle
  · rw [if_neg (not_le.2 hlt), if_neg (ne_zero_of_lt hlt), and_iff_right hlt]
    by_cases hone : treeWidth = 1
    · rw [if_pos hone, walk_of_le_one hone.le, Except.ok.injEq]
      exact finish_eq_ok (r := (leafHash, terms))
    · rw [if_neg hone]
      cases hwalk : walk sha256 leafHash leafIndex treeWidth terms with
      | error e => exact iff_of_false nofun nofun
      | ok r => exact finish_eq_ok.trans ⟨congrArg Except.ok, Except.ok.inj⟩
  · rw [if_pos hle]
    exact iff_of_false nofun fun h => absurd h.1 (not_lt.2 hle)

/-- An audit path is accepted if it has a digest for each level. -/
theorem verifyInclusion_path_iff_length {leaves : List (List UInt8)} (i : Fin leaves.length) :
    verifyInclusion sha256 (merkleLeaf sha256 (leaves.get i)) i leaves.length
        ((path (rfc6962 sha256) leaves i).map toList)
        (Merkle.root (rfc6962 sha256) leaves) = .ok () ↔
      (path (rfc6962 sha256) leaves i).length = clog 2 leaves.length := by
  rw [verifyInclusion_eq_ok, and_iff_right i.isLt]
  refine ⟨?_, fun hlen => ?_⟩
  · rintro ⟨xs, hxs, hlen, -⟩
    rwa [(map_inj_right fun _ _ => toList_inj.1).1 hxs]
  · have hn := le_pow_clog one_lt_two leaves.length
    exact ⟨_, rfl, hlen, climb_path i.isLt (hlen ▸ hn)⟩

/-- The RFC 6962 audit path of a leaf is accepted exactly if, on every level below the root, the
    node over the leaf is a right child or has a right sibling. -/
theorem verifyInclusion_path_iff (sha256 : List UInt8 → Digest) (leaves : List (List UInt8))
    (i : Fin leaves.length) :
    verifyInclusion sha256 (merkleLeaf sha256 (leaves.get i)) i leaves.length
        ((path (rfc6962 sha256) leaves i).map toList)
        (Merkle.root (rfc6962 sha256) leaves) = .ok () ↔
      ∀ j, 2 ^ j < leaves.length →
        Odd (i.val / 2 ^ j) ∨ (i.val / 2 ^ j + 1) * 2 ^ j < leaves.length := by
  have hn := le_pow_clog one_lt_two leaves.length
  rw [verifyInclusion_path_iff_length, length_path_eq_iff hn i.isLt]
  exact forall_congr' fun j => imp_congr_left (lt_clog_iff_pow_lt one_lt_two)

/-- The path of the last one of three leaves has one term, and the walk expects two. -/
theorem verifyInclusion_three_leaves : ¬ ∀ (sha256 : List UInt8 → Digest)
    (leaves : List (List UInt8)) (i : Fin leaves.length),
    verifyInclusion sha256 (merkleLeaf sha256 (leaves.get i)) i leaves.length
      ((path (rfc6962 sha256) leaves i).map toList)
      (Merkle.root (rfc6962 sha256) leaves) = .ok () := by
  intro h
  let i : Fin [[97], [98], [(99 : UInt8)]].length := ⟨2, by decide⟩
  have hlen := (verifyInclusion_path_iff_length i).1 (h (fun _ => replicate 32 0) _ i)
  have hn := le_pow_clog one_lt_two [[97], [98], [(99 : UInt8)]].length
  exact absurd ((length_path_eq_iff hn i.isLt).1 hlen 0 (by decide)) (by decide)

theorem filterMap_ofList?_map_toList (xs : List Digest) :
    (xs.map toList).filterMap Digest.ofList? = xs := by
  induction xs with
  | nil => rfl
  | cons x xs ih => rw [map_cons, filterMap_cons, Digest.ofList?_eq_some.2 rfl, ih]

/-- At most one leaf hash with one path is accepted for a position, if `merkleBranch` does not
    collide on the pairs it is computed of. -/
theorem verifyInclusion_unique {sha256 : List UInt8 → Digest} {h₁ h₂ root : Digest}
    {p₁ p₂ : List (List UInt8)} {i w : ℕ}
    (hinj : {x | x ∈ branches sha256 h₁ i p₁ ∨ x ∈ branches sha256 h₂ i p₂}.InjOn
      fun x => merkleBranch sha256 x.1 x.2)
    (hv₁ : verifyInclusion sha256 h₁ i w p₁ root = .ok ())
    (hv₂ : verifyInclusion sha256 h₂ i w p₂ root = .ok ()) : h₁ = h₂ ∧ p₁ = p₂ := by
  obtain ⟨-, xs, rfl, hxs, hclimb1⟩ := verifyInclusion_eq_ok.1 hv₁
  obtain ⟨-, ys, rfl, hys, hclimb2⟩ := verifyInclusion_eq_ok.1 hv₂
  rw [branches, branches, filterMap_ofList?_map_toList, filterMap_ofList?_map_toList] at hinj
  obtain ⟨hh, rfl⟩ := climb_inj hinj (fun _ => .inl) (fun _ => .inr)
    (hxs.trans hys.symm) (hclimb1.trans hclimb2.symm)
  exact ⟨hh, rfl⟩

/-- A digest that repeats the last byte. -/
def lastByte (bytes : List UInt8) : Digest := replicate 32 (bytes.getLast?.getD 0)

/-- The digest with one byte repeated. -/
abbrev repeated (b : UInt8) : Digest := replicate 32 b

theorem verifyInclusion_unique_lastByte :
    verifyInclusion lastByte (repeated 7) 1 3 [(repeated 1).toList, (repeated 2).toList]
        (repeated 2) = .ok () ∧
      repeated 7 = repeated 7 ∧ [(repeated 1).toList, (repeated 2).toList] =
        [(repeated 1).toList, (repeated 2).toList] := by
  have hv : verifyInclusion lastByte (repeated 7) 1 3 [(repeated 1).toList, (repeated 2).toList]
      (repeated 2) = .ok () := by decide +kernel
  have hinj : ∀ x ∈ branches lastByte (repeated 7) 1 [(repeated 1).toList, (repeated 2).toList],
      ∀ y ∈ branches lastByte (repeated 7) 1 [(repeated 1).toList, (repeated 2).toList],
        merkleBranch lastByte x.1 x.2 = merkleBranch lastByte y.1 y.2 → x = y := by decide +kernel
  exact ⟨hv, verifyInclusion_unique
    (fun x hx y hy => hinj x (or_self_iff.1 hx) y (or_self_iff.1 hy)) hv hv⟩

/-! ## Signed states -/

/-- The public key that a server presents, and its signature. -/
structure Signature where
  publicKey : List UInt8
  signature : List UInt8
  deriving DecidableEq

/-- The state of a database of the server. -/
structure ImmutableState where
  db : String
  txId : UInt64
  txHash : List UInt8
  signature : Option Signature
  deriving DecidableEq

/-- The hash, padded with zeros or cut to the length of a digest. -/
def hashFixed (txHash : List UInt8) : List UInt8 :=
  txHash.take 32 ++ List.replicate (32 - txHash.length) 0

/-- Canonical byte layout of the payload that the server signs. -/
def encodeSignedStatePayload (state : ImmutableState) : List UInt8 :=
  beBytes 4 (utf8 state.db).length ++ utf8 state.db ++ beBytes 8 state.txId.toNat ++
    hashFixed state.txHash

/-- Verify a signed state against the fingerprint of the public key of the server. -/
def verifySignedState (sha256 : List UInt8 → Digest)
    (ed25519Verify : List UInt8 → List UInt8 → List UInt8 → Bool) (state : ImmutableState)
    (expectedPubkeyFingerprint : Digest) : Except VerifyError Unit :=
  match state.signature with
  | none => .error .missingField
  | some sig =>
    if sig.publicKey.isEmpty || sig.signature.isEmpty then .error .missingField
    else if sha256 sig.publicKey ≠ expectedPubkeyFingerprint then .error .pubkeyFingerprintMismatch
    else if sig.publicKey.length ≠ 32 then .error .badSignatureFormat
    else if sig.signature.length ≠ 64 then .error .badSignatureFormat
    else if ed25519Verify sig.publicKey (encodeSignedStatePayload state) sig.signature then .ok ()
    else .error .badSignature

theorem length_hashFixed (txHash : List UInt8) : (hashFixed txHash).length = 32 := by
  rw [hashFixed, length_append, length_take, List.length_replicate]
  omega

theorem hashFixed_of_length {txHash : List UInt8} (h : txHash.length = 32) :
    hashFixed txHash = txHash := by
  rw [hashFixed, ← h, take_length, Nat.sub_self, List.replicate_zero, append_nil]

/-- The length of the payload is that of the name and a constant, so that the payload is cut at the
    same places even where the number in front of the name has overflowed. -/
theorem encodeSignedStatePayload_inj {s s' : ImmutableState} :
    encodeSignedStatePayload s = encodeSignedStatePayload s' ↔
      s.db = s'.db ∧ s.txId = s'.txId ∧ hashFixed s.txHash = hashFixed s'.txHash := by
  refine ⟨fun h => ?_, fun ⟨hdb, htx, hhash⟩ => ?_⟩
  · have hlen := congrArg length h
    simp only [encodeSignedStatePayload, length_append, length_beBytes, length_hashFixed] at hlen
    obtain ⟨h, hhash⟩ := append_inj' h (by rw [length_hashFixed, length_hashFixed])
    obtain ⟨h, htx⟩ := append_inj' h (by rw [length_beBytes, length_beBytes])
    obtain ⟨-, hdb⟩ := append_inj' h (by omega)
    have hlt (n : UInt64) : n.toNat < 256 ^ 8 := n.toNat_lt
    exact ⟨utf8_injective hdb, UInt64.toNat_inj.1 ((beBytes_inj (hlt _) (hlt _)).1 htx), hhash⟩
  · rw [encodeSignedStatePayload, hdb, htx, hhash, encodeSignedStatePayload]

/-- Hashes have the same padded bytes if they have the same first ones, where a missing one counts
    as zero. -/
theorem hashFixed_eq_iff {h h' : List UInt8} :
    hashFixed h = hashFixed h' ↔ ∀ i < 32, h.getD i 0 = h'.getD i 0 := by
  have hget (l : List UInt8) (i : ℕ) :
      (hashFixed l)[i]? = if i < 32 then some (l.getD i 0) else none := by
    rw [hashFixed]
    grind
  refine List.ext_getElem?_iff.trans (forall_congr' fun i => ?_)
  rw [hget, hget]
  split_ifs with hi
  · rw [Option.some_inj, forall_prop_of_true hi]
  · exact iff_of_true rfl (absurd · hi)

/-- The payload determines the name, the transaction and its hash exactly if the two hashes are
    equal, or differ in one of the first 32 bytes, where a missing one counts as zero. Hashes of the
    length of a digest do. -/
theorem signedStatePayload_covers_iff (hash hash' : List UInt8) :
    ((∀ s s' : ImmutableState, s.txHash = hash → s'.txHash = hash' →
        encodeSignedStatePayload s = encodeSignedStatePayload s' →
          s.db = s'.db ∧ s.txId = s'.txId ∧ s.txHash = s'.txHash) ↔
      hash = hash' ∨ ∃ i < 32, hash.getD i 0 ≠ hash'.getD i 0) ∧
    (hash.length = 32 → hash'.length = 32 →
      hash = hash' ∨ ∃ i < 32, hash.getD i 0 ≠ hash'.getD i 0) := by
  have hfixed : (∃ i < 32, hash.getD i 0 ≠ hash'.getD i 0) ↔ hashFixed hash ≠ hashFixed hash' := by
    rw [Ne, hashFixed_eq_iff]
    push Not
    rfl
  rw [hfixed]
  refine ⟨⟨fun hcov => ?_, ?_⟩, fun hlen hlen' => ?_⟩
  · by_cases heq : hashFixed hash = hashFixed hash'
    · exact .inl (hcov ⟨"", 0, hash, none⟩ ⟨"", 0, hash', none⟩ rfl rfl
        (encodeSignedStatePayload_inj.2 ⟨rfl, rfl, heq⟩)).2.2
    · exact .inr heq
  · rintro hor s s' rfl rfl hp
    obtain ⟨hdb, htx, hhash⟩ := encodeSignedStatePayload_inj.1 hp
    exact ⟨hdb, htx, hor.resolve_right (not_not_intro hhash)⟩
  · rw [hashFixed_of_length hlen, hashFixed_of_length hlen']
    exact em _

/-- The signature of a state without a hash is one of the state whose hash is a zero. -/
theorem signedState_with_other_hash : ∃ s s' : ImmutableState,
    verifySignedState (fun _ => repeated 0) (fun _ _ _ => true) s (repeated 0) = .ok () ∧
    verifySignedState (fun _ => repeated 0) (fun _ _ _ => true) s' (repeated 0) = .ok () ∧
    encodeSignedStatePayload s = encodeSignedStatePayload s' ∧ s.txHash ≠ s'.txHash :=
  ⟨⟨"a", 1, [], some ⟨List.replicate 32 1, List.replicate 64 1⟩⟩,
    ⟨"a", 1, [0], some ⟨List.replicate 32 1, List.replicate 64 1⟩⟩, by decide +kernel,
    by decide +kernel, encodeSignedStatePayload_inj.2 ⟨rfl, rfl, rfl⟩, by decide⟩

end SmallAIOS.AuditExport.Immudb
