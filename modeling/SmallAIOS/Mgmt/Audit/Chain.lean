import SmallAIOS.Lib.Bytes
import SmallAIOS.Lib.HashChain
import SmallAIOS.Mgmt.Audit.Record

/-!
# The hash chain of the audit log

Each record carries the hash of the record before and its own, a digest of the
bytes `serializeForHash`. These are the fields of the record one after the other,
most of them after their length; some actions add bytes of their own, and a verb
supplied by a caller may be that of such an action.

Still, records with the same bytes have the same line up to the signature
(`toJsonl_of_serializeForHash_eq`): a burst count would have to be read as the
length of a value, and then the length of the next value as its text, which has
no zero bytes. So two logs that verify and end in the same hash have the same
lines up to the signatures (`verifyChain_inj`).

The digest `sha3` is a parameter. What is assumed of it is that it has no
collisions on the bytes of the records at hand, and does not map them to the
empty chain head.
-/

namespace SmallAIOS.Mgmt.Audit

open Lib Nat AuditRecord
open List hiding Vector

/-- All-zeros chain head, the previous hash of the first record. -/
def emptyChainHead : ChainHead := .replicate 32 0

/-! ## Serialization -/

/-- A text after its length, which is truncated to 32 bits. -/
def pushStr (s : String) : List UInt8 := leBytes 4 ((utf8 s).length % 2 ^ 32) ++ utf8 s

/-- The bytes that only some actions have. -/
def actionExtras : AuditAction → List UInt8
  | .denyBurst n => leBytes 4 n.toNat
  | .configWrite path => pushStr path
  | .modelLoad name => pushStr name
  | _ => []

/-- Serialize a record into the canonical byte sequence the chain hashes over. -/
def serializeForHash (r : AuditRecord) : List UInt8 :=
  leBytes 8 r.tsNs.toNat ++ pushStr r.who ++ pushStr r.surface.asStr ++
    pushStr r.action.render ++ actionExtras r.action ++
    pushStr r.before.render ++ pushStr r.after.render ++
    leBytes 4 r.code.toUInt32.toNat ++ r.prevHash.toList

theorem pushStr_append_inj {s t : String} {a b : List UInt8} (hs : (utf8 s).length < 2 ^ 32)
    (ht : (utf8 t).length < 2 ^ 32) (h : pushStr s ++ a = pushStr t ++ b) : s = t ∧ a = b := by
  rw [pushStr, pushStr, mod_eq_of_lt hs, mod_eq_of_lt ht, append_assoc] at h
  obtain ⟨hlen, h⟩ := leBytes_append_inj hs ht h
  obtain ⟨hst, hab⟩ := append_inj h hlen
  exact ⟨utf8_injective hst, hab⟩

/-- The length of a text that is not long ends in two zero bytes. -/
theorem leBytes_four {n : ℕ} (h : n < 2 ^ 16) : ∃ x y, leBytes 4 n = [x, y, 0, 0] := by
  refine ⟨UInt8.ofNat n, UInt8.ofNat (n / 256), ?_⟩
  have h2 : n / 256 / 256 = 0 := by omega
  simp only [leBytes, h2]
  rfl

/-- A length and then a text is not a text and then a length, if the texts are not empty and have no
    zero byte. -/
theorem length_text_ne_text_length {n m : ℕ} {b b' X Y : List UInt8} (hn : n < 2 ^ 16)
    (hm : m < 2 ^ 16) (hb : b ≠ []) (hb0 : 0 ∉ b) (hb' : b' ≠ []) (hb0' : 0 ∉ b') :
    leBytes 4 n ++ (b ++ X) ≠ b' ++ (leBytes 4 m ++ Y) := by
  obtain ⟨x, y, hxy⟩ := leBytes_four hn
  obtain ⟨z, w, hzw⟩ := leBytes_four hm
  obtain ⟨c, b, rfl⟩ := exists_cons_of_ne_nil hb
  intro h
  -- The zero bytes of the first length are in the text `b'`, or those of the
  -- second length are in `b`.
  match b', hb' with
  | [_], _ => simp_all
  | [_, _], _ => simp_all
  | _ :: _ :: _ :: _, _ => simp_all

/-- The bytes after those of the action. -/
def valueBytes (r : AuditRecord) : List UInt8 :=
  pushStr r.before.render ++
    (pushStr r.after.render ++ (leBytes 4 r.code.toUInt32.toNat ++ r.prevHash.toList))

/-- The line of the record fits the budget. -/
def Fits (r : AuditRecord) : Prop := (utf8 r.toJsonl).length ≤ auditRingRecordBudgetBytes

section Fits

variable {r r' : AuditRecord} {k s : String} {v : JsonValue}

section

variable (h : Fits r)
include h

theorem Fits.render (hv : r.jsonFields.get? k = some v) : (utf8 v.render).length < 2 ^ 16 :=
  lt_of_le_of_lt ((length_render_le hv).trans h) (by decide)

theorem Fits.string (hs : r.jsonFields.get? k = some (.string s)) : (utf8 s).length < 2 ^ 32 :=
  lt_of_le_of_lt ((length_string_le hs).trans h) (by decide)

theorem Fits.before : (utf8 r.before.render).length < 2 ^ 16 :=
  h.render r.get?_jsonFields_common.2.2.1

theorem Fits.after : (utf8 r.after.render).length < 2 ^ 16 :=
  h.render r.get?_jsonFields_common.2.2.2

theorem valueBytes_inj (h' : Fits r') (hv : valueBytes r = valueBytes r') :
    r.before.render = r'.before.render ∧ r.after.render = r'.after.render ∧ r.code = r'.code ∧
      r.prevHash = r'.prevHash := by
  have hlt : 2 ^ 16 < 2 ^ 32 := by decide
  obtain ⟨hb, hv⟩ := pushStr_append_inj (h.before.trans hlt) (h'.before.trans hlt) hv
  obtain ⟨ha, hv⟩ := pushStr_append_inj (h.after.trans hlt) (h'.after.trans hlt) hv
  obtain ⟨hc, hp⟩ := leBytes_append_inj (UInt32.toNat_lt _) (UInt32.toNat_lt _) hv
  have hcode := congrArg UInt32.toBitVec (UInt32.toNat_inj.1 hc)
  exact ⟨hb, ha, Int32.toBitVec_inj.1 hcode, Vector.toList_inj.1 hp⟩

/-- The bytes of a burst count are not read as those of a value. -/
theorem burst_ne_valueBytes (h' : Fits r') (count : UInt32) :
    leBytes 4 count.toNat ++ valueBytes r ≠ valueBytes r' := by
  intro hv
  have hlt : 2 ^ 16 < 2 ^ 32 := by decide
  have hb := mod_eq_of_lt (h.before.trans hlt)
  have hb' := h'.before.trans hlt
  have ha' := mod_eq_of_lt (h'.after.trans hlt)
  simp only [valueBytes, pushStr, hb, mod_eq_of_lt hb', ha'] at hv
  obtain ⟨-, hv⟩ := leBytes_append_inj count.toNat_lt hb' hv
  refine length_text_ne_text_length h.before h'.after ?_ ?_ ?_ ?_ hv
  · exact utf8_ne_nil r.before.render_ne_empty
  · exact zero_notMem_utf8 r.before.nul_notMem_render
  · exact utf8_ne_nil r'.before.render_ne_empty
  · exact zero_notMem_utf8 r'.before.nul_notMem_render

/-- A text more is too many bytes. -/
theorem text_ne_valueBytes (h' : Fits r') (hs : (utf8 s).length < 2 ^ 32) :
    pushStr s ++ valueBytes r ≠ valueBytes r' := by
  intro hv
  have hlt : 2 ^ 16 < 2 ^ 32 := by decide
  obtain ⟨-, hv⟩ := pushStr_append_inj hs (h'.before.trans hlt) hv
  obtain ⟨-, hv⟩ := pushStr_append_inj (h.before.trans hlt) (h'.after.trans hlt) hv
  have hlen := congrArg length hv
  simp only [pushStr, length_append, length_leBytes, Vector.length_toList] at hlen
  omega

end

/-- The actions with bytes of their own. -/
theorem action_cases (a : AuditAction) : actionExtras a = [] ∨ (∃ count, a = .denyBurst count) ∨
    (∃ path, a = .configWrite path) ∨ ∃ name, a = .modelLoad name := by
  cases a <;> simp [actionExtras]

/-- An action without bytes of its own has no field of its own. -/
theorem insertActionField_eq_id {a : AuditAction} (h : actionExtras a = []) :
    insertActionField a = id := by
  cases a <;> first | rfl | simp [actionExtras, pushStr, leBytes] at h

/-- The bytes of an action with bytes of its own are not read as those of a value. -/
theorem extras_ne_valueBytes (h : Fits r) (h' : Fits r') (hne : actionExtras r.action ≠ []) :
    actionExtras r.action ++ valueBytes r ≠ valueBytes r' := by
  rcases action_cases r.action with he | ⟨count, hc⟩ | ⟨path, hp⟩ | ⟨name, hn⟩
  · exact absurd he hne
  · rw [hc]
    exact burst_ne_valueBytes h h' count
  · rw [hp]
    exact text_ne_valueBytes h h' (h.string (get?_jsonFields_path hp))
  · rw [hn]
    exact text_ne_valueBytes h h' (h.string (get?_jsonFields_model hn))

section

variable (hv : actionExtras r.action ++ valueBytes r = actionExtras r'.action ++ valueBytes r')
include hv

/-- Actions with the same verb and bytes of their own are the same. -/
theorem action_eq_of_extras (h : Fits r) (h' : Fits r') (hne : actionExtras r.action ≠ [])
    (hne' : actionExtras r'.action ≠ []) (hrender : r.action.render = r'.action.render) :
    r.action = r'.action ∧ valueBytes r = valueBytes r' := by
  rcases action_cases r.action with he | ⟨c, hc⟩ | ⟨p, hp⟩ | ⟨n, hn⟩
  · exact absurd he hne
  all_goals rcases action_cases r'.action with he' | ⟨c', hc'⟩ | ⟨p', hp'⟩ | ⟨n', hn'⟩
  -- The verbs of different such actions differ.
  all_goals first
    | exact absurd he' hne'
    | (exfalso; revert hrender; simp only [*, AuditAction.render]; decide)
    | skip
  · rw [hc, hc'] at hv ⊢
    obtain ⟨hcc, hv⟩ := leBytes_append_inj c.toNat_lt c'.toNat_lt hv
    exact ⟨congrArg _ (UInt32.toNat_inj.1 hcc), hv⟩
  · have hs := h.string (get?_jsonFields_path hp)
    have hs' := h'.string (get?_jsonFields_path hp')
    rw [hp, hp'] at hv ⊢
    exact (pushStr_append_inj hs hs' hv).imp_left (congrArg _)
  · have hs := h.string (get?_jsonFields_model hn)
    have hs' := h'.string (get?_jsonFields_model hn')
    rw [hn, hn'] at hv ⊢
    exact (pushStr_append_inj hs hs' hv).imp_left (congrArg _)

/-- The bytes of an action are not mistaken for those of another one with the same verb. -/
theorem sameAction (h : Fits r) (h' : Fits r') (hrender : r.action.render = r'.action.render) :
    AuditRecord.SameAction r.action r'.action ∧ valueBytes r = valueBytes r' := by
  by_cases hne : actionExtras r.action = [] <;> by_cases hne' : actionExtras r'.action = []
  · rw [hne, hne'] at hv
    exact ⟨⟨hrender, (insertActionField_eq_id hne).trans (insertActionField_eq_id hne').symm⟩, hv⟩
  · rw [hne] at hv
    exact absurd hv.symm (extras_ne_valueBytes h' h hne')
  · rw [hne'] at hv
    exact absurd hv (extras_ne_valueBytes h h' hne)
  · obtain ⟨ha, hv⟩ := action_eq_of_extras hv h h' hne hne' hrender
    exact ⟨ha ▸ ⟨rfl, rfl⟩, hv⟩

end

/-- Records with the same bytes and the same hash have the same line, up to the signature. -/
theorem toJsonl_of_serializeForHash_eq (h : Fits r) (h' : Fits r')
    (hbytes : serializeForHash r = serializeForHash r') (hhash : r.hash = r'.hash) :
    { r with signature := [] }.toJsonl = { r' with signature := [] }.toJsonl ∧
      r.prevHash = r'.prevHash := by
  simp only [serializeForHash, append_assoc] at hbytes
  have hsurface : ∀ s : AuditSurface, (utf8 s.asStr).length < 2 ^ 32 := fun s => by
    cases s <;> decide
  have hcommon := r.get?_jsonFields_common
  have hcommon' := r'.get?_jsonFields_common
  obtain ⟨hts, hbytes⟩ := leBytes_append_inj (UInt64.toNat_lt _) (UInt64.toNat_lt _) hbytes
  obtain ⟨hwho, hbytes⟩ := pushStr_append_inj (h.string hcommon.1) (h'.string hcommon'.1) hbytes
  obtain ⟨hsf, hbytes⟩ := pushStr_append_inj (hsurface _) (hsurface _) hbytes
  obtain ⟨hrender, hbytes⟩ :=
    pushStr_append_inj (h.string hcommon.2.1) (h'.string hcommon'.2.1) hbytes
  obtain ⟨haction, hbytes⟩ := sameAction hbytes h h' hrender
  obtain ⟨hb, ha, hcode, hprev⟩ := valueBytes_inj h h' hbytes
  exact ⟨toJsonl_congr (UInt64.toNat_inj.1 hts) hwho hsf haction hb ha hcode hprev hhash rfl, hprev⟩

end Fits

/-! ## Verification -/

section Verify

variable (sha3 : List UInt8 → ChainHead)

/-- The hash of a record. -/
def computeHash (r : AuditRecord) : ChainHead := sha3 (serializeForHash r)

/-- The loop of `verifyChain`, from the `i`-th record on. -/
def verifyFrom : ChainHead → ℕ → List AuditRecord → Except ℕ Unit
  | _, _, [] => .ok ()
  | prev, i, r :: rs =>
    if r.prevHash ≠ prev then .error i
    else if computeHash sha3 r ≠ r.hash then .error i
    else verifyFrom r.hash (i + 1) rs

/-- Confirm that each record chains to the previous one and its hash matches; the index of the first
    invalid record on failure. -/
def verifyChain (records : List AuditRecord) : Except ℕ Unit :=
  verifyFrom sha3 emptyChainHead 0 records

/-- The records as a hash chain. -/
def chain : HashChain AuditRecord ChainHead where
  prev := prevHash
  hash := hash
  digest := computeHash sha3

variable {sha3} {records records' : List AuditRecord}

theorem verifyFrom_eq_ok {prev : ChainHead} {i : ℕ} :
    verifyFrom sha3 prev i records = .ok () ↔ (chain sha3).Linked prev records := by
  induction records generalizing prev i with
  | nil => simp [verifyFrom, HashChain.Linked]
  | cons r rs ih =>
    rw [verifyFrom]
    split_ifs with h1 h2
    · exact iff_of_false (by rintro ⟨⟩) fun h => h1 h.1
    · exact iff_of_false (by rintro ⟨⟩) fun h => h2 h.2.1
    · rw [ih]
      exact ⟨fun h => ⟨not_not.1 h1, not_not.1 h2, h⟩, fun h => h.2.2⟩

/-- A digest that tells records of different lengths apart. -/
def lengthDigest (bytes : List UInt8) : ChainHead := .replicate 32 (UInt8.ofNat bytes.length)

/-- A record of the action by `root`, to be chained to `prev`. -/
def rootRecord (action : AuditAction) (prev : ChainHead) (signature : List UInt8) : AuditRecord :=
  let r : AuditRecord :=
    ⟨1, "root@tty", .tty, action, .null, .null, 0, prev, emptyChainHead, signature⟩
  { r with hash := computeHash lengthDigest r }

/-- A log of a login and a logout, of which the last record may carry a signature. -/
def sessionLog (signature : List UInt8) : List AuditRecord :=
  let login := rootRecord .authLogin emptyChainHead []
  [login, rootRecord .authLogout login.hash signature]

/-- Two logs within the budget that verify and end in the same hash have the same lines, up to the
    signatures, if the digest has no collisions on their records and never yields the empty chain
    head. -/
theorem verifyChain_inj
    (hinj : Set.InjOn sha3 {b | ∃ r ∈ records ++ records', serializeForHash r = b})
    (hzero : ∀ r ∈ records ++ records', sha3 (serializeForHash r) ≠ emptyChainHead)
    (hfits : ∀ r ∈ records ++ records',
      (utf8 r.toJsonl).length ≤ auditRingRecordBudgetBytes)
    (h : verifyChain sha3 records = .ok ()) (h' : verifyChain sha3 records' = .ok ())
    (hlast : records.getLast?.map (·.hash) = records'.getLast?.map (·.hash)) :
    (records.map fun r => { r with signature := [] }.toJsonl) =
      records'.map fun r => { r with signature := [] }.toJsonl := by
  rw [verifyChain, verifyFrom_eq_ok] at h h'
  have hhead : (chain sha3).head emptyChainHead records =
      (chain sha3).head emptyChainHead records' := by
    rw [HashChain.head_eq_getLast?, HashChain.head_eq_getLast?]
    exact congrArg (Option.getD · emptyChainHead) hlast
  have hrel : List.Forall₂ (fun r r' : AuditRecord =>
      { r with signature := [] }.toJsonl = { r' with signature := [] }.toJsonl)
      records records' := by
    refine h.forall₂ h' (fun r hr r' hr' hd => ?_)
      (fun r hr => hzero r (mem_append_left _ hr))
      (fun r hr => hzero r (mem_append_right _ hr)) hhead
    have hmem : r ∈ records ++ records' := mem_append_left _ hr
    have hmem' : r' ∈ records ++ records' := mem_append_right _ hr'
    have hhash : r.hash = r'.hash := (h.digest_eq hr).symm.trans (hd.trans (h'.digest_eq hr'))
    exact toJsonl_of_serializeForHash_eq (hfits r hmem) (hfits r' hmem')
      (hinj ⟨r, hmem, rfl⟩ ⟨r', hmem', rfl⟩ hd) hhash
  rw [← forall₂_eq_eq_eq, forall₂_map_left_iff, forall₂_map_right_iff]
  exact hrel

/-- A short log, and the same with a signature. -/
theorem verifyChain_inj_session :
    ((sessionLog []).map fun r => { r with signature := [] }.toJsonl) =
      (sessionLog [1]).map fun r => { r with signature := [] }.toJsonl := by
  have hdigest : ∀ b ∈ (sessionLog [] ++ sessionLog [1]).map serializeForHash,
      ∀ b' ∈ (sessionLog [] ++ sessionLog [1]).map serializeForHash,
        lengthDigest b = lengthDigest b' → b = b' := by decide +kernel
  have hinj : Set.InjOn lengthDigest
      {b | ∃ r ∈ sessionLog [] ++ sessionLog [1], serializeForHash r = b} := by
    rintro _ ⟨r, hr, rfl⟩ _ ⟨r', hr', rfl⟩ h
    exact hdigest _ (mem_map_of_mem hr) _ (mem_map_of_mem hr') h
  exact verifyChain_inj hinj (by decide +kernel) (by decide +kernel) (by decide +kernel)
    (by decide +kernel) (by decide +kernel)

end Verify

end SmallAIOS.Mgmt.Audit
