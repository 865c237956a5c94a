import Mathlib.Algebra.Group.Action.Defs
import Mathlib.Data.String.Basic
import SmallAIOS.Lib.SortedMap
import SmallAIOS.Lib.Utf8
import Mathlib.Data.Vector.Defs

/-!
# Audit records and their JSONL lines

A record of the management audit log is written as one line of JSON, an object
with the fields of the record in the order of their names
(`AuditRecord.toJsonl`). The old and the new value of a configuration write are
JSON values themselves.

A value renders to a text that is not empty and has no zero character, since
control characters are escaped (`JsonValue.nul_notMem_render`). No field of a
record is longer than its line (`AuditRecord.length_render_le`), and the line is
determined by what its fields render to (`AuditRecord.toJsonl_congr`).
-/

namespace SmallAIOS.Mgmt.Audit

open Lib SortedMap Nat
open String hiding length_append length_map length_singleton
open List hiding Vector

/-- A SHA-3-256 digest. -/
abbrev ChainHead := Vector UInt8 32

/-- Per-record budget: 4 KiB of serialized JSONL. -/
def auditRingRecordBudgetBytes : ℕ := 4 * 1024

/-! ## Surfaces and actions -/

/-- Originating surface for an audit record. -/
inductive AuditSurface
  | tty
  | zenoh
  | toml
  | kernel
  deriving DecidableEq

/-- Lower-case canonical name used on the JSONL wire. -/
def AuditSurface.asStr : AuditSurface → String
  | tty => "tty"
  | zenoh => "zenoh"
  | toml => "toml"
  | kernel => "kernel"

/-- Canonical action verbs. -/
inductive AuditAction
  | authLogin
  | authLogout
  | autoLogout
  | authCreateUser
  | authChangePassword
  | firstbootComplete
  | auditChainCommitted
  | checkpoint
  /-- Denial of a syscall. -/
  | deny (syscall : String)
  /-- Coalesced denial burst. -/
  | denyBurst (count : UInt32)
  | configWrite (path : String)
  | modelLoad (name : String)
  /-- Caller-supplied verb. -/
  | custom (verb : String)
  deriving DecidableEq

namespace AuditAction

/-- Render this action to its canonical wire form. -/
def render : AuditAction → String
  | authLogin => "auth_login"
  | authLogout => "auth_logout"
  | autoLogout => "auto_logout"
  | authCreateUser => "auth_create_user"
  | authChangePassword => "auth_change_password"
  | firstbootComplete => "firstboot_complete"
  | auditChainCommitted => "audit_chain_committed"
  | checkpoint => "checkpoint"
  | deny syscall => "DENY:" ++ syscall
  | denyBurst _ => "DENY_BURST"
  | configWrite _ => "config_write"
  | modelLoad _ => "model_load"
  | custom verb => verb

/-- Whether this action is one of the immediate-flush auth events. -/
def isAuthEvent : AuditAction → Bool
  | authLogin | authLogout | autoLogout | authCreateUser | authChangePassword => true
  | _ => false

/-- Whether this action is a denial. -/
def isDenial : AuditAction → Bool
  | deny _ | denyBurst _ => true
  | _ => false

end AuditAction

/-! ## JSON values -/

/-- Minimal JSON value. The fields of an object are listed in the order they are iterated over. -/
inductive JsonValue
  | null
  | bool (b : Bool)
  | int (n : Int64)
  | uint (n : UInt64)
  | string (s : String)
  | array (items : List JsonValue)
  | object (fields : List (String × JsonValue))

open JsonValue

/-- The decimal digits of a number, the least significant one first, in a buffer of the given size.
    -/
def digits : ℕ → ℕ → List Char
  | 0, _ => []
  | k + 1, n => if n = 0 then [] else digitChar (n % 10) :: digits k (n / 10)

def u64ToStr (n : UInt64) : String :=
  if n = 0 then "0" else ofList (digits 24 n.toNat).reverse

def i64ToStr (n : Int64) : String :=
  if n = 0 then "0"
  else ofList (digits 24 n.toInt.natAbs ++ if n < 0 then ['-'] else []).reverse

/-- A character of a JSON string. -/
def escapeChar (ch : Char) : String :=
  if ch = '"' then "\\\""
  else if ch = '\\' then "\\\\"
  else if ch = '\n' then "\\n"
  else if ch = '\r' then "\\r"
  else if ch = '\t' then "\\t"
  else if ch = '\x08' then "\\b"
  else if ch = '\x0c' then "\\f"
  else if ch.toNat < 0x20 then
    "\\u00" ++ ofList [digitChar (ch.toNat / 16), digitChar (ch.toNat % 16)]
  else singleton ch

def escapeString (s : String) : String := join (s.toList.map escapeChar)

/-- A string in quotes. -/
def quote (s : String) : String := "\"" ++ escapeString s ++ "\""

namespace JsonValue

mutual

/-- Render to canonical form. -/
def render : JsonValue → String
  | null => "null"
  | bool b => if b then "true" else "false"
  | int n => i64ToStr n
  | uint n => u64ToStr n
  | string s => quote s
  | array items => "[" ++ renderItems 0 items ++ "]"
  | object fields => "\x7b" ++ renderFields 0 fields ++ "\x7d"

/-- The items of an array, from the `i`-th one on. -/
def renderItems : ℕ → List JsonValue → String
  | _, [] => ""
  | i, v :: items => (if i > 0 then "," else "") ++ render v ++ renderItems (i + 1) items

/-- The fields of an object, from the `i`-th one on. -/
def renderFields : ℕ → List (String × JsonValue) → String
  | _, [] => ""
  | i, (k, v) :: fields =>
    (if i > 0 then "," else "") ++ quote k ++ ":" ++ render v ++ renderFields (i + 1) fields

end

end JsonValue

/-! ### Zero characters -/

theorem digitChar_ne_nul {n : ℕ} (h : n < 16) : '\x00' ≠ digitChar n :=
  (by decide : ∀ i : Fin 16, '\x00' ≠ digitChar i) ⟨n, h⟩

theorem nul_notMem_digits (size n : ℕ) : '\x00' ∉ digits size n := by
  induction size generalizing n with
  | zero => exact not_mem_nil
  | succ size ih =>
    rw [digits]
    split_ifs
    · exact not_mem_nil
    · exact not_mem_cons_of_ne_of_not_mem (digitChar_ne_nul (by omega)) (ih _)

theorem digits_ne_nil {size n : ℕ} (h : n ≠ 0) : digits (size + 1) n ≠ [] := by
  rw [digits, if_neg h]
  exact cons_ne_nil _ _

theorem u64ToStr_ne_empty (n : UInt64) : (u64ToStr n).toList ≠ [] := by
  rw [u64ToStr]
  split_ifs with hn
  · decide
  · have hn : n.toNat ≠ 0 := fun h => hn (UInt64.toNat_inj.1 h)
    simpa using digits_ne_nil hn

theorem i64ToStr_ne_empty (n : Int64) : (i64ToStr n).toList ≠ [] := by
  rw [i64ToStr]
  by_cases hn : n = 0
  · rw [if_pos hn]
    decide
  · have h0 : n.toInt.natAbs ≠ 0 := fun h => hn (Int64.toInt_inj.1 (Int.natAbs_eq_zero.1 h))
    have hd : digits 24 n.toInt.natAbs ≠ [] := digits_ne_nil h0
    simp [hn, hd]

theorem nul_notMem_u64ToStr (n : UInt64) : '\x00' ∉ (u64ToStr n).toList := by
  rw [u64ToStr]
  split_ifs
  · decide
  · simpa using nul_notMem_digits 24 n.toNat

theorem nul_notMem_i64ToStr (n : Int64) : '\x00' ∉ (i64ToStr n).toList := by
  rw [i64ToStr]
  split_ifs
  · decide
  · simpa using nul_notMem_digits 24 n.toInt.natAbs
  · simpa using nul_notMem_digits 24 n.toInt.natAbs

variable (ch : Char)

theorem nul_notMem_escapeChar : '\x00' ∉ (escapeChar ch).toList := by
  unfold escapeChar
  split_ifs with h1 h2 h3 h4 h5 h6 h7 h8
  iterate 7 decide
  · have h16 : ch.toNat / 16 < 16 := by omega
    simp [digitChar_ne_nul h16, digitChar_ne_nul (mod_lt ch.toNat (by decide))]
  · rw [toList_singleton, mem_singleton]
    rintro rfl
    exact h8 (by decide)

variable (s : String)

theorem nul_notMem_quote : '\x00' ∉ (quote s).toList := by
  simp [quote, escapeString, nul_notMem_escapeChar]

namespace JsonValue

mutual

theorem nul_notMem_render : ∀ v : JsonValue, '\x00' ∉ (render v).toList
  | null => by rw [render]; decide
  | bool b => by rw [render]; cases b <;> decide
  | int n => by rw [render]; exact nul_notMem_i64ToStr n
  | uint n => by rw [render]; exact nul_notMem_u64ToStr n
  | string s => by rw [render]; exact nul_notMem_quote s
  | array items => by simp [render, nul_notMem_renderItems 0 items]
  | object fields => by simp [render, nul_notMem_renderFields 0 fields]

theorem nul_notMem_renderItems : ∀ (i : ℕ) (items : List JsonValue),
    '\x00' ∉ (renderItems i items).toList
  | _, [] => by rw [renderItems]; decide
  | i, v :: items => by
    have hv := nul_notMem_render v
    have hrest := nul_notMem_renderItems (i + 1) items
    rw [renderItems]
    split_ifs <;> simp [hv, hrest]

theorem nul_notMem_renderFields : ∀ (i : ℕ) (fields : List (String × JsonValue)),
    '\x00' ∉ (renderFields i fields).toList
  | _, [] => by rw [renderFields]; decide
  | i, (k, v) :: fields => by
    have hk := nul_notMem_quote k
    have hv := nul_notMem_render v
    have hrest := nul_notMem_renderFields (i + 1) fields
    rw [renderFields]
    split_ifs <;> simp [hk, hv, hrest]

end

theorem render_ne_empty (v : JsonValue) : render v ≠ "" := by
  refine fun h => absurd (congrArg toList h) ?_
  cases v with
  | null => rw [render]; decide
  | bool b => rw [render]; cases b <;> decide
  | int n => rw [render]; exact i64ToStr_ne_empty n
  | uint n => rw [render]; exact u64ToStr_ne_empty n
  | string s => simp [render, quote]
  | array items => simp [render]
  | object fields => simp [render]

/-! ### Lengths -/

/-- Escaping makes no character shorter. -/
theorem length_utf8EncodeChar_le : (utf8EncodeChar ch).length ≤ (utf8 (escapeChar ch)).length := by
  unfold escapeChar
  split_ifs with h1 h2 h3 h4 h5 h6 h7 h8
  iterate 7 subst ch; decide
  · have hlen : (utf8EncodeChar ch).length = 1 := by
      rw [utf8EncodeChar, if_pos (by change ch.toNat ≤ 127; omega), length_singleton]
    rw [utf8_append, length_append, hlen]
    exact le_add_right_of_le (by decide)
  · rw [utf8_singleton]

theorem length_utf8_le_quote : (utf8 s).length ≤ (utf8 (quote s)).length := by
  have hescape : (utf8 s).length ≤ (utf8 (escapeString s)).length := by
    rw [utf8_eq_flatMap, escapeString, utf8_join, flatMap_map, length_flatMap, length_flatMap]
    exact sum_le_sum fun ch _ => length_utf8EncodeChar_le ch
  rw [quote, utf8_append, utf8_append, length_append, length_append]
  omega

/-- A field is no longer than the object. -/
theorem length_render_le_renderFields {k : String} {v : JsonValue}
    {fields : List (String × JsonValue)} (h : (k, v) ∈ fields) (i : ℕ) :
    (utf8 (render v)).length ≤ (utf8 (renderFields i fields)).length := by
  induction fields generalizing i with
  | nil => exact absurd h not_mem_nil
  | cons p fields ih =>
    rw [renderFields]
    simp only [utf8_append, length_append]
    rcases mem_cons.1 h with rfl | h
    · dsimp only
      omega
    · have := ih h (i + 1)
      omega

/-- A character is escaped with a few bytes. -/
theorem length_escapeChar_le : (utf8 (escapeChar ch)).length ≤ 12 := by
  have hchar : ∀ c : Char, (utf8EncodeChar c).length ≤ 4 := fun c => by
    rw [length_utf8EncodeChar]
    exact c.utf8Size_le_four
  unfold escapeChar
  split_ifs
  iterate 7 decide
  · have hhex : ∀ c d : Char, (utf8 (ofList [c, d])).length ≤ 8 := fun c d => by
      have hc := hchar c
      have hd := hchar d
      rw [utf8_eq_flatMap, toList_ofList]
      simp only [flatMap_cons, flatMap_nil, append_nil, length_append]
      omega
    rw [utf8_append, length_append]
    exact Nat.add_le_add (by decide : _ ≤ 4) (hhex _ _)
  · rw [utf8_singleton]
    exact (hchar ch).trans (by decide)

theorem length_quote_le : (utf8 (quote s)).length ≤ 12 * s.toList.length + 2 := by
  have hescape : (utf8 (escapeString s)).length ≤ s.toList.length * 12 := by
    rw [escapeString, utf8_join, flatMap_map, length_flatMap, ← smul_eq_mul]
    refine (sum_le_card_nsmul _ 12 fun n hn => ?_).trans_eq (by rw [length_map])
    obtain ⟨ch, -, rfl⟩ := mem_map.1 hn
    exact length_escapeChar_le ch
  have hquote : (utf8 "\"").length = 1 := by decide
  rw [quote, utf8_append, utf8_append, length_append, length_append]
  omega

/-- The bytes of a field, with the signs around it. -/
def fieldLength (p : String × JsonValue) : ℕ :=
  (utf8 (quote p.1)).length + (utf8 p.2.render).length + 2

variable (fields : List (String × JsonValue))

theorem length_renderFields_le (i : ℕ) :
    (utf8 (renderFields i fields)).length ≤ (fields.map fieldLength).sum := by
  induction fields generalizing i with
  | nil =>
    rw [renderFields]
    decide
  | cons p fields ih =>
    have hrest := ih (i + 1)
    have hcomma : (utf8 (if i > 0 then "," else "")).length ≤ 1 := by split_ifs <;> decide
    have hcolon : (utf8 ":").length = 1 := by decide
    rw [renderFields]
    simp only [utf8_append, length_append, map_cons, sum_cons, fieldLength]
    omega

theorem sum_fieldLength_foldl_insert_le (obj : SortedMap String JsonValue) :
    ((fields.foldl (fun obj p => obj.insert p.1 p.2) obj).entries.map fieldLength).sum ≤
      (obj.entries.map fieldLength).sum + (fields.map fieldLength).sum := by
  induction fields generalizing obj with
  | nil => exact Nat.le_refl _
  | cons p fields ih =>
    have hinsert : _ ≤ _ + fieldLength p := sum_insert_le fieldLength obj p.1 p.2
    have hrest := ih (obj.insert p.1 p.2)
    rw [foldl_cons, map_cons, sum_cons]
    omega

/-- An object is determined by what its fields render to. -/
theorem renderFields_congr {fields fields' : List (String × JsonValue)}
    (h : (fields.map fun p => (p.1, render p.2)) = fields'.map fun p => (p.1, render p.2))
    (i : ℕ) : renderFields i fields = renderFields i fields' := by
  induction fields generalizing i fields' with
  | nil =>
    rw [map_nil, eq_comm, map_eq_nil_iff] at h
    rw [h]
  | cons p fields ih =>
    obtain ⟨p', fields', rfl, hp, hf⟩ := map_eq_cons_iff.1 h.symm
    obtain ⟨hk, hv⟩ := Prod.mk.inj hp
    rw [renderFields, renderFields, hk, hv, ih hf.symm]

end JsonValue

/-! ## Records -/

/-- One immutable entry in the audit chain. -/
structure AuditRecord where
  /-- UNIX timestamp in nanoseconds. -/
  tsNs : UInt64
  /-- Identity rendering. -/
  who : String
  surface : AuditSurface
  action : AuditAction
  before : JsonValue
  after : JsonValue
  /-- Result code: zero on success, negative on failure. -/
  code : Int32
  /-- Hash of the previous record. -/
  prevHash : ChainHead
  /-- Hash of this record. -/
  hash : ChainHead
  /-- Signature of a checkpoint; empty for every other record. -/
  signature : List UInt8

/-- Lowercase hex encoding. -/
def hexLower (bytes : List UInt8) : String :=
  ofList (bytes.flatMap fun b => [digitChar (b.toNat / 16), digitChar (b.toNat % 16)])

/-- Lowercase hex encoding of a chain head. -/
def fingerprintHex (head : ChainHead) : String := hexLower head.toList

theorem length_hexLower (bytes : List UInt8) :
    (hexLower bytes).toList.length = 2 * bytes.length := by
  rw [hexLower, toList_ofList]
  induction bytes with
  | nil => rfl
  | cons b bytes ih =>
    rw [flatMap_cons, length_append]
    simp only [length_cons, length_nil]
    omega

theorem fieldLength_fingerprintHex_le (k : String) (head : ChainHead) :
    fieldLength (k, .string (fingerprintHex head)) ≤ (utf8 (quote k)).length + 772 := by
  have hlen := length_quote_le (fingerprintHex head)
  rw [fingerprintHex, length_hexLower, Vector.length_toList] at hlen
  rw [fieldLength, render, fingerprintHex]
  dsimp only
  omega

namespace AuditRecord

/-- The field that only some actions have. -/
def insertActionField (action : AuditAction) (obj : SortedMap String JsonValue) :
    SortedMap String JsonValue :=
  match action with
  | .denyBurst n => obj.insert "count" (.uint n.toUInt64)
  | .configWrite path => obj.insert "path" (.string path)
  | .modelLoad name => obj.insert "model" (.string name)
  | _ => obj

/-- The fields of the JSON object. -/
def jsonFields (r : AuditRecord) : SortedMap String JsonValue :=
  let obj := empty
  let obj := obj.insert "ts" (.uint r.tsNs)
  let obj := obj.insert "who" (.string r.who)
  let obj := obj.insert "surface" (.string r.surface.asStr)
  let obj := obj.insert "action" (.string r.action.render)
  let obj := insertActionField r.action obj
  let obj := obj.insert "before" r.before
  let obj := obj.insert "after" r.after
  let obj := obj.insert "code" (.int r.code.toInt64)
  let obj := obj.insert "prev_hash" (.string (fingerprintHex r.prevHash))
  let obj := obj.insert "hash" (.string (fingerprintHex r.hash))
  if r.signature.isEmpty then obj else obj.insert "signature" (.string (hexLower r.signature))

/-- Render the canonical JSONL line. -/
def toJsonl (r : AuditRecord) : String := (object r.jsonFields.entries).render

variable {r r' : AuditRecord} {k : String} {v : JsonValue}

/-- No field is longer than the line. -/
theorem length_render_le (h : r.jsonFields.get? k = some v) :
    (utf8 v.render).length ≤ (utf8 r.toJsonl).length := by
  have := length_render_le_renderFields (get?_eq_some.1 h) 0
  rw [toJsonl, render]
  simp only [utf8_append, length_append]
  omega

theorem get?_insertActionField {action : AuditAction} {obj : SortedMap String JsonValue}
    (hc : k ≠ "count") (hp : k ≠ "path") (hm : k ≠ "model") :
    (insertActionField action obj).get? k = obj.get? k := by
  cases action <;> simp [insertActionField, hc, hp, hm]

/-- The signature comes last, and leaves the other fields alone. -/
theorem get?_jsonFields (h : k ≠ "signature") :
    r.jsonFields.get? k = { r with signature := [] }.jsonFields.get? k := by
  simp only [jsonFields, isEmpty_nil]
  split_ifs
  · rfl
  · rw [get?_insert_of_ne h]

/-- The fields every record has. -/
theorem get?_jsonFields_common (r : AuditRecord) :
    r.jsonFields.get? "who" = some (.string r.who) ∧
    r.jsonFields.get? "action" = some (.string r.action.render) ∧
    r.jsonFields.get? "before" = some r.before ∧ r.jsonFields.get? "after" = some r.after := by
  refine ⟨?_, ?_, ?_, ?_⟩ <;> rw [get?_jsonFields (by decide)] <;>
    simp [jsonFields, get?_insertActionField]

theorem get?_jsonFields_path {path : String} (h : r.action = .configWrite path) :
    r.jsonFields.get? "path" = some (.string path) := by
  rw [get?_jsonFields (by decide)]
  simp [jsonFields, insertActionField, h]

theorem get?_jsonFields_model {name : String} (h : r.action = .modelLoad name) :
    r.jsonFields.get? "model" = some (.string name) := by
  rw [get?_jsonFields (by decide)]
  simp [jsonFields, insertActionField, h]

/-- A text of the record is no longer than its line. -/
theorem length_string_le {s : String} (h : r.jsonFields.get? k = some (.string s)) :
    (utf8 s).length ≤ (utf8 r.toJsonl).length := by
  refine (length_utf8_le_quote s).trans ?_
  have := length_render_le h
  rwa [render] at this

/-- A line is no shorter than the digits of the signature. -/
theorem length_signature_le (r : AuditRecord) :
    2 * r.signature.length ≤ (utf8 r.toJsonl).length := by
  by_cases h : r.signature.isEmpty
  · rw [isEmpty_iff.1 h]
    exact zero_le _
  · have hfield : r.jsonFields.get? "signature" = some (.string (hexLower r.signature)) := by
      rw [jsonFields, if_neg h, get?_insert_self]
    rw [← length_hexLower]
    exact (length_toList_le_utf8 _).trans (length_string_le hfield)

/-- The two actions render to the same text, and add the same field to a line. -/
structure SameAction (a a' : AuditAction) : Prop where
  render_eq : a.render = a'.render
  insert_eq : insertActionField a = insertActionField a'

/-- Records that agree on their fields, and on what their values render to, have the same line. -/
theorem toJsonl_congr (hts : r.tsNs = r'.tsNs) (hwho : r.who = r'.who)
    (hsurface : r.surface.asStr = r'.surface.asStr) (haction : SameAction r.action r'.action)
    (hbefore : r.before.render = r'.before.render) (hafter : r.after.render = r'.after.render)
    (hcode : r.code = r'.code) (hprev : r.prevHash = r'.prevHash) (hhash : r.hash = r'.hash)
    (hsig : r.signature = r'.signature) : r.toJsonl = r'.toJsonl := by
  have hfields : r.jsonFields.map render = r'.jsonFields.map render := by
    simp only [jsonFields, hts, hwho, hsurface, haction.render_eq, haction.insert_eq, hcode, hprev,
      hhash, hsig]
    split_ifs <;> simp only [map_insert, hbefore, hafter]
  rw [toJsonl, toJsonl, render, render, renderFields_congr (congrArg entries hfields)]

end AuditRecord

end SmallAIOS.Mgmt.Audit
