import SmallAIOS.Lib.Bytes
import SmallAIOS.Lib.SortedMap
import SmallAIOS.Lib.Utf8
import SmallAIOS.Lib.Word
import SmallAIOS.OnnxRt.Json
import Mathlib

/-!
# Weights files

A weights file is the length of its header, the header, and the bytes of the tensors. The header
has, for each tensor, its type, its shape, and where its bytes are. Only the last of the three is
checked, against the length of the file: dimensions may be negative, the bytes may be more or fewer
than the shape needs, and tensors may have bytes in common.

`Sound` says of what a header declares that it is none of this. A file that is accepted is as it
should be if, and only if, its header is (`wellFormed_iff`).
-/

namespace SmallAIOS.OnnxRt

open Lib Json List Option Word Checked

inductive DataType where
  | float
  | uint8
  | int8
  | uint16
  | int16
  | int32
  | int64
  | string
  | bool
  | float16
  | double
  | uint32
  | uint64
  | bfloat16
  | float8E4M3
  | float8E5M2
  | uint4
  | int4
  | float4E2M1
  deriving DecidableEq

/-- The number of bytes of an element. It is zero where it is not a fixed number of bytes. -/
def DataType.elementSize : DataType → ℕ
  | bool | int8 | uint8 | float8E4M3 | float8E5M2 => 1
  | float16 | bfloat16 | int16 | uint16 => 2
  | float | int32 | uint32 => 4
  | double | int64 | uint64 => 8
  | string | int4 | uint4 | float4E2M1 => 0

namespace Safetensors

/-- What the reader depends on: how many calls the stack has room for, and what the standard library
    says of bytes that are not UTF-8. -/
structure Host where
  stack : ℕ
  utf8Error : List UInt8 → String

/-- A tensor, with the positions of its bytes in the file. -/
structure TensorEntry where
  dtype : DataType
  shape : List ℤ
  dataOffsetStart : ℕ
  dataOffsetEnd : ℕ
  deriving DecidableEq

def dtypeFromStr : String → Option DataType
  | "BF16" => some .bfloat16
  | "F16" => some .float16
  | "F32" => some .float
  | "I8" => some .int8
  | "I32" => some .int32
  | "I64" => some .int64
  | "U8" => some .uint8
  | _ => none

def invalidHeader {α : Type} (msg : String) : Except LoaderError α := .error (.invalidHeader msg)

/-- The bytes of the header, and where those of the tensors start. -/
def splitHeaderRegion (host : Host) (bytes : List UInt8) : Except LoaderError (List UInt8 × ℕ) :=
  if bytes.length < 8 then invalidHeader "file smaller than 8-byte length prefix"
  else
    let headerLen := leVal (bytes.take 8)
    match add 64 8 headerLen with
    | none => invalidHeader "header length overflows usize"
    | some headerEnd =>
      if headerEnd > bytes.length then
        invalidHeader s!"header length {headerLen} exceeds file size {bytes.length}"
      else
        let header := (bytes.drop 8).take headerLen
        match ofUtf8 header with
        | none => invalidHeader s!"header not valid UTF-8: {host.utf8Error header}"
        | some _ => .ok (header, headerEnd)

/-- The first field with the key. -/
def findObjField (obj : List (String × JsonValue)) (key name : String) :
    Except LoaderError JsonValue :=
  match obj.find? (·.1 = key) with
  | some (_, v) => .ok v
  | none => invalidHeader s!"{name}: missing {key}"

def decodeEntryDtype (name : String) (obj : List (String × JsonValue)) :
    Except LoaderError DataType := do
  match ← findObjField obj "dtype" name with
  | .string s =>
    match dtypeFromStr s with
    | some dtype => .ok dtype
    | none => .error (.unsupportedDtype s)
  | _ => invalidHeader s!"{name}: dtype must be a string"

def decodeEntryShape (name : String) (obj : List (String × JsonValue)) :
    Except LoaderError (List ℤ) := do
  match ← findObjField obj "shape" name with
  | .array arr =>
    arr.mapM fun
      | .number n => .ok n
      | _ => invalidHeader s!"{name}: shape element not a number"
  | _ => invalidHeader s!"{name}: shape must be an array"

def offsetElement (name : String) (value : JsonValue) (idx : ℕ) : Except LoaderError ℤ :=
  match value with
  | .number n => .ok n
  | _ => invalidHeader s!"{name}: data_offsets[{idx}] not a number"

def decodeEntryOffsets (name : String) (obj : List (String × JsonValue)) :
    Except LoaderError (ℤ × ℤ) := do
  match ← findObjField obj "data_offsets" name with
  | .array [a, b] =>
    let a ← offsetElement name a 0
    let b ← offsetElement name b 1
    pure (a, b)
  | _ => invalidHeader s!"{name}: data_offsets must be a 2-element array"

/-- The positions in the file, from those in the part with the tensors. -/
def resolveAbsoluteOffsets (name : String) (payloadStart fileLen : ℕ) (relStart relEnd : ℤ) :
    Except LoaderError (ℕ × ℕ) :=
  if relStart < 0 ∨ relEnd < relStart then
    invalidHeader s!"{name}: invalid data_offsets [{relStart}, {relEnd}]"
  else
    match add 64 payloadStart relStart.toNat, add 64 payloadStart relEnd.toNat with
    | some absStart, some absEnd =>
      if absEnd > fileLen then
        invalidHeader s!"{name}: data_offsets end {absEnd} exceeds file size {fileLen}"
      else .ok (absStart, absEnd)
    | _, _ => invalidHeader s!"{name}: offset overflow"

def buildTensorEntry (name : String) (value : JsonValue) (payloadStart fileLen : ℕ) :
    Except LoaderError TensorEntry :=
  match value with
  | .object obj => do
    let dtype ← decodeEntryDtype name obj
    let shape ← decodeEntryShape name obj
    let (relStart, relEnd) ← decodeEntryOffsets name obj
    let (absStart, absEnd) ← resolveAbsoluteOffsets name payloadStart fileLen relStart relEnd
    pure {
      dtype := dtype
      shape := shape
      dataOffsetStart := absStart
      dataOffsetEnd := absEnd }
  | _ => invalidHeader s!"tensor entry {name} is not a JSON object"

/-- A tensor is added under its name, where it takes the place of one that came before. -/
def addEntry (payloadStart fileLen : ℕ) (out : SortedMap String TensorEntry)
    (field : String × JsonValue) : Except LoaderError (SortedMap String TensorEntry) :=
  if field.1 = "__metadata__" then .ok out
  else do
    let entry ← buildTensorEntry field.1 field.2 payloadStart fileLen
    pure (out.insert field.1 entry)

def parseHeader (host : Host) (bytes : List UInt8) :
    Checked LoaderError (SortedMap String TensorEntry) := do
  let (headerJson, payloadStart) ← lift (splitHeaderRegion host bytes)
  let raw ← parseJsonObject host.stack headerJson
  lift (raw.foldlM (addEntry payloadStart bytes.length) .empty)

variable {host : Host} {bytes : List UInt8}

theorem splitHeaderRegion_ok {header : List UInt8} {payloadStart : ℕ}
    (h : splitHeaderRegion host bytes = .ok (header, payloadStart)) :
    payloadStart = 8 + leVal (bytes.take 8) ∧
      header = (bytes.drop 8).take (leVal (bytes.take 8)) := by
  rw [splitHeaderRegion] at h
  by_cases hshort : bytes.length < 8
  · rw [if_pos hshort] at h
    cases h
  · rw [if_neg hshort] at h
    dsimp only at h
    split at h
    · cases h
    · next headerEnd hadd =>
      split at h
      · cases h
      · split at h
        · cases h
        · cases h
          exact ⟨(add_eq_some.1 hadd).2.symm, rfl⟩

/-- A file with the header and the bytes of the tensors. -/
def buildSafetensors (header : String) (payload : List UInt8) : List UInt8 :=
  leBytes 8 (utf8 header).length ++ utf8 header ++ payload

/-- Two tensors. -/
def pairFile : List UInt8 := buildSafetensors
  ("\x7b\"a\":\x7b\"dtype\":\"F32\",\"shape\":[2],\"data_offsets\":[0,8]\x7d," ++
    "\"b\":\x7b\"dtype\":\"U8\",\"shape\":[3],\"data_offsets\":[8,11]\x7d\x7d")
  [0, 0, 0x80, 0x3f, 0, 0, 0, 0x40, 1, 2, 3]

/-- The reader returns for every file whose header is not nested as deep as the stack is. -/
theorem parseHeader_ne_none
    (h : nesting .outside ((bytes.drop 8).take (leVal (bytes.take 8))) < host.stack) :
    parseHeader host bytes ≠ none := by
  intro hnone
  rcases bind_eq_none hnone with hnone | ⟨⟨headerJson, payloadStart⟩, hsplit, hnone⟩
  · cases hnone
  rcases bind_eq_none hnone with hnone | ⟨raw, -, hnone⟩
  · obtain ⟨-, rfl⟩ := splitHeaderRegion_ok (some.inj hsplit)
    exact parseJsonObject_ne_none h hnone
  · cases hnone

/-- The header of the two tensors is nested three deep. -/
theorem parseHeader_pairFile_ne_none : parseHeader ⟨4, fun _ => ""⟩ pairFile ≠ none :=
  parseHeader_ne_none (by decide +kernel)

/-! ## What a header declares -/

/-- The fields of the header. -/
def headerFields (host : Host) (bytes : List UInt8) :
    Checked LoaderError (List (String × JsonValue)) := do
  let (headerJson, _) ← lift (splitHeaderRegion host bytes)
  parseJsonObject host.stack headerJson

/-- What a field declares: the type and the shape of a tensor, and where its bytes are in the part
    with the tensors. -/
structure Declaration where
  dtype : DataType
  shape : List ℤ
  relStart : ℤ
  relEnd : ℤ

/-- The value is the last one of the name. -/
def IsLast (raw : List (String × JsonValue)) (name : String) (value : JsonValue) : Prop :=
  ∃ before after, raw = before ++ (name, value) :: after ∧ ∀ field ∈ after, field.1 ≠ name

/-- The object declares a tensor. -/
def ReadsAs (name : String) (value : JsonValue) (d : Declaration) : Prop :=
  ∃ obj, value = .object obj ∧ decodeEntryDtype name obj = .ok d.dtype ∧
    decodeEntryShape name obj = .ok d.shape ∧
    decodeEntryOffsets name obj = .ok (d.relStart, d.relEnd)

/-- The header declares a tensor. -/
def Declares (raw : List (String × JsonValue)) (name : String) (d : Declaration) : Prop :=
  name ≠ "__metadata__" ∧ ∃ value, IsLast raw name value ∧ ReadsAs name value d

/-- The header declares tensors without negative dimensions, with as many bytes as they need, and
    none in common. -/
structure Sound (raw : List (String × JsonValue)) : Prop where
  nonneg : ∀ name d, Declares raw name d → ∀ n ∈ d.shape, 0 ≤ n
  size : ∀ name d, Declares raw name d → d.relEnd - d.relStart = d.shape.prod * d.dtype.elementSize
  disjoint : ∀ name name' d d', Declares raw name d → Declares raw name' d' → name ≠ name' →
    Disjoint (Set.Ico d.relStart d.relEnd) (Set.Ico d'.relStart d'.relEnd)

/-- The tensors have no negative dimensions, as many bytes as they need, which are behind the
    header and in the file, and none in common. -/
structure WellFormed (bytes : List UInt8) (entries : SortedMap String TensorEntry) : Prop where
  nonneg : ∀ name e, entries.get? name = some e → ∀ n ∈ e.shape, 0 ≤ n
  size : ∀ name e, entries.get? name = some e →
    ((e.dataOffsetEnd - e.dataOffsetStart : ℕ) : ℤ) = e.shape.prod * e.dtype.elementSize
  within : ∀ name e, entries.get? name = some e → 8 + leVal (bytes.take 8) ≤ e.dataOffsetStart ∧
    e.dataOffsetStart ≤ e.dataOffsetEnd ∧ e.dataOffsetEnd ≤ bytes.length
  disjoint : ∀ name name' e e', entries.get? name = some e → entries.get? name' = some e' →
    name ≠ name' → Disjoint (Set.Ico e.dataOffsetStart e.dataOffsetEnd)
      (Set.Ico e'.dataOffsetStart e'.dataOffsetEnd)

variable {raw : List (String × JsonValue)} {name : String} {value : JsonValue}
  {payloadStart fileLen : ℕ} {e : TensorEntry} {entries out : SortedMap String TensorEntry}
  {d d' : Declaration}

/-- The entry that comes of a declaration. -/
structure Placed (payloadStart fileLen : ℕ) (d : Declaration) (e : TensorEntry) : Prop where
  dtype : e.dtype = d.dtype
  shape : e.shape = d.shape
  start : (e.dataOffsetStart : ℤ) = payloadStart + d.relStart
  stop : (e.dataOffsetEnd : ℤ) = payloadStart + d.relEnd
  nonneg : 0 ≤ d.relStart
  le : d.relStart ≤ d.relEnd
  within : e.dataOffsetEnd ≤ fileLen

/-- The bytes of an entry are as many as were declared. -/
theorem Placed.size_iff {d : Declaration} (hp : Placed payloadStart fileLen d e) :
    ((e.dataOffsetEnd - e.dataOffsetStart : ℕ) : ℤ) = e.shape.prod * e.dtype.elementSize ↔
      d.relEnd - d.relStart = d.shape.prod * d.dtype.elementSize := by
  obtain ⟨hdtype, hshape, hstart, hstop, -, hle, -⟩ := hp
  rw [hdtype, hshape]
  omega

theorem Placed.disjoint_iff {e' : TensorEntry} (hp : Placed payloadStart fileLen d e)
    (hp' : Placed payloadStart fileLen d' e') :
    Disjoint (Set.Ico e.dataOffsetStart e.dataOffsetEnd)
        (Set.Ico e'.dataOffsetStart e'.dataOffsetEnd) ↔
      Disjoint (Set.Ico d.relStart d.relEnd) (Set.Ico d'.relStart d'.relEnd) := by
  obtain ⟨-, -, hstart, hstop, -⟩ := hp
  obtain ⟨-, -, hstart', hstop', -⟩ := hp'
  rw [Set.Ico_disjoint_Ico, Set.Ico_disjoint_Ico]
  omega

theorem resolveAbsoluteOffsets_ok {relStart relEnd : ℤ} {absStart absEnd : ℕ}
    (h : resolveAbsoluteOffsets name payloadStart fileLen relStart relEnd =
      .ok (absStart, absEnd)) :
    0 ≤ relStart ∧ relStart ≤ relEnd ∧ (absStart : ℤ) = payloadStart + relStart ∧
      (absEnd : ℤ) = payloadStart + relEnd ∧ absEnd ≤ fileLen := by
  rw [resolveAbsoluteOffsets] at h
  by_cases hneg : relStart < 0 ∨ relEnd < relStart
  · rw [if_pos hneg] at h
    cases h
  · rw [if_neg hneg] at h
    split at h
    · next s t hs ht =>
      split at h
      · cases h
      · next hle =>
        cases h
        obtain ⟨-, hs⟩ := add_eq_some.1 hs
        obtain ⟨-, ht⟩ := add_eq_some.1 ht
        omega
    · cases h

/-- An entry is built from what the object declares. -/
theorem buildTensorEntry_ok (h : buildTensorEntry name value payloadStart fileLen = .ok e) :
    ∃ d, ReadsAs name value d ∧ Placed payloadStart fileLen d e := by
  unfold buildTensorEntry at h
  split at h
  · next obj =>
    obtain ⟨dtype, hdtype, h⟩ := bind_eq_ok h
    obtain ⟨shape, hshape, h⟩ := bind_eq_ok h
    obtain ⟨⟨relStart, relEnd⟩, hoffsets, h⟩ := bind_eq_ok h
    obtain ⟨⟨absStart, absEnd⟩, habs, h⟩ := bind_eq_ok h
    cases h
    obtain ⟨hnonneg, hle, hstart, hend, hwithin⟩ := resolveAbsoluteOffsets_ok habs
    exact ⟨⟨dtype, shape, relStart, relEnd⟩, ⟨obj, rfl, hdtype, hshape, hoffsets⟩,
      ⟨rfl, rfl, hstart, hend, hnonneg, hle, hwithin⟩⟩
  · cases h

/-- An object declares one tensor. -/
theorem ReadsAs.unique (h : ReadsAs name value d) (h' : ReadsAs name value d') : d = d' := by
  obtain ⟨obj, rfl, hdtype, hshape, hoffsets⟩ := h
  obtain ⟨obj', ⟨⟩, hdtype', hshape', hoffsets'⟩ := h'
  cases d
  cases hdtype.symm.trans hdtype'
  cases hshape.symm.trans hshape'
  cases hoffsets.symm.trans hoffsets'
  rfl

/-! ## The entries of a file -/

theorem isLast_cons {field : String × JsonValue} :
    IsLast (field :: raw) name value ↔
      IsLast raw name value ∨ field = (name, value) ∧ ∀ f ∈ raw, f.1 ≠ name := by
  constructor
  · rintro ⟨before, after, heq, hafter⟩
    cases before with
    | nil =>
      obtain ⟨rfl, rfl⟩ := cons.inj heq
      exact .inr ⟨rfl, hafter⟩
    | cons x before =>
      obtain ⟨rfl, rfl⟩ := cons.inj heq
      exact .inl ⟨before, after, rfl, hafter⟩
  · rintro (⟨before, after, rfl, hafter⟩ | ⟨rfl, hafter⟩)
    · exact ⟨field :: before, after, rfl, hafter⟩
    · exact ⟨[], raw, rfl, hafter⟩

theorem IsLast.mem (h : IsLast raw name value) : (name, value) ∈ raw := by
  obtain ⟨-, -, rfl, -⟩ := h
  exact mem_append_right _ mem_cons_self

/-- The entries are those of the last fields of their names, and those that were there before. -/
theorem foldlM_addEntry_ok (h : raw.foldlM (addEntry payloadStart fileLen) out = .ok entries) :
    (∀ name, name ≠ "__metadata__" → ∀ value, IsLast raw name value →
      ∃ e, buildTensorEntry name value payloadStart fileLen = .ok e ∧ entries.get? name = some e) ∧
    ∀ name, (name = "__metadata__" ∨ ∀ f ∈ raw, f.1 ≠ name) →
      entries.get? name = out.get? name := by
  induction raw generalizing out with
  | nil =>
    cases h
    refine ⟨?_, fun name _ => rfl⟩
    intro name _ value hlast
    exact absurd hlast.mem not_mem_nil
  | cons field raw ih =>
    obtain ⟨out1, hone, h⟩ := bind_eq_ok h
    obtain ⟨hlast, hother⟩ := ih h
    rw [addEntry] at hone
    by_cases hmeta : field.1 = "__metadata__"
    · rw [if_pos hmeta] at hone
      cases hone
      constructor
      · intro name hname value hl
        rcases isLast_cons.1 hl with hl | ⟨rfl, -⟩
        · exact hlast name hname value hl
        · exact absurd hmeta hname
      · intro name hname
        exact hother name (hname.imp_right fun hall f hf => hall f (mem_cons_of_mem _ hf))
    · rw [if_neg hmeta] at hone
      obtain ⟨e, he, hone⟩ := bind_eq_ok hone
      cases hone
      constructor
      · intro name hname value hl
        rcases isLast_cons.1 hl with hl | ⟨rfl, hall⟩
        · exact hlast name hname value hl
        · refine ⟨e, he, ?_⟩
          rw [hother name (.inr hall), SortedMap.get?_insert_self]
      · intro name hname
        have hne : name ≠ field.1 := by
          rcases hname with rfl | hall
          · exact fun heq => hmeta heq.symm
          · exact fun heq => hall field mem_cons_self heq.symm
        rw [hother name (hname.imp_right fun hall f hf => hall f (mem_cons_of_mem _ hf)),
          SortedMap.get?_insert_of_ne hne]

/-- A name that comes in the header has a last value. -/
theorem exists_isLast (h : ∃ f ∈ raw, f.1 = name) : ∃ value, IsLast raw name value := by
  induction raw with
  | nil =>
    obtain ⟨f, hf, -⟩ := h
    exact absurd hf not_mem_nil
  | cons field raw ih =>
    by_cases hlater : ∃ f ∈ raw, f.1 = name
    · obtain ⟨value, hl⟩ := ih hlater
      exact ⟨value, isLast_cons.2 (.inl hl)⟩
    · obtain ⟨f, hf, rfl⟩ := h
      rcases mem_cons.1 hf with rfl | hf
      · refine ⟨f.2, isLast_cons.2 (.inr ⟨rfl, ?_⟩)⟩
        intro f' hf' heq
        exact hlater ⟨f', hf', heq⟩
      · exact absurd ⟨f, hf, rfl⟩ hlater

/-- The entries of a file are what its header declares. -/
theorem foldlM_addEntry_empty
    (h : raw.foldlM (addEntry payloadStart fileLen) .empty = .ok entries) :
    (∀ name e, entries.get? name = some e →
      ∃ d, Declares raw name d ∧ Placed payloadStart fileLen d e) ∧
    ∀ name d, Declares raw name d →
      ∃ e, entries.get? name = some e ∧ Placed payloadStart fileLen d e := by
  obtain ⟨hlast, hother⟩ := foldlM_addEntry_ok h
  constructor
  · intro name e he
    have hname : name ≠ "__metadata__" ∧ ∃ f ∈ raw, f.1 = name := by
      by_contra hno
      have hnone := hother name (by
        by_contra hcon
        push Not at hcon
        exact hno hcon)
      rw [he] at hnone
      cases hnone
    obtain ⟨value, hl⟩ := exists_isLast hname.2
    obtain ⟨e', hbuild, he'⟩ := hlast name hname.1 value hl
    rw [he] at he'
    cases he'
    obtain ⟨d, hreads, hplaced⟩ := buildTensorEntry_ok hbuild
    exact ⟨d, ⟨hname.1, value, hl, hreads⟩, hplaced⟩
  · rintro name d ⟨hname, value, hl, hreads⟩
    obtain ⟨e, hbuild, he⟩ := hlast name hname value hl
    obtain ⟨d', hreads', hplaced⟩ := buildTensorEntry_ok hbuild
    rw [hreads.unique hreads']
    exact ⟨e, he, hplaced⟩

/-- The header of a file that was accepted, and its entries. -/
theorem parseHeader_ok (h : parseHeader host bytes = some (.ok entries)) :
    ∃ raw, headerFields host bytes = some (.ok raw) ∧
      (∀ name e, entries.get? name = some e →
        ∃ d, Declares raw name d ∧ Placed (8 + leVal (bytes.take 8)) bytes.length d e) ∧
      ∀ name d, Declares raw name d →
        ∃ e, entries.get? name = some e ∧ Placed (8 + leVal (bytes.take 8)) bytes.length d e := by
  obtain ⟨⟨header, payloadStart⟩, hsplit, h⟩ := bind_eq_ok h
  obtain ⟨raw, hraw, h⟩ := bind_eq_ok h
  obtain ⟨hstart, -⟩ := splitHeaderRegion_ok (some.inj hsplit)
  have hfold := foldlM_addEntry_empty (some.inj h)
  rw [hstart] at hfold
  refine ⟨raw, ?_, hfold⟩
  exact (bind_of_ok hsplit).trans hraw

/-- A file that is accepted has well formed tensors if, and only if, its header declares such. -/
theorem wellFormed_iff (h : parseHeader host bytes = some (.ok entries)) :
    ∃ raw, headerFields host bytes = some (.ok raw) ∧ (WellFormed bytes entries ↔ Sound raw) := by
  obtain ⟨raw, hraw, hentry, hdecl⟩ := parseHeader_ok h
  refine ⟨raw, hraw, ?_, ?_⟩
  · intro hw
    constructor
    · intro name d hd n hn
      obtain ⟨e, he, hp⟩ := hdecl name d hd
      exact hw.nonneg name e he n (hp.shape ▸ hn)
    · intro name d hd
      obtain ⟨e, he, hp⟩ := hdecl name d hd
      exact hp.size_iff.1 (hw.size name e he)
    · intro name name' d d' hd hd' hne
      obtain ⟨e, he, hp⟩ := hdecl name d hd
      obtain ⟨e', he', hp'⟩ := hdecl name' d' hd'
      exact (hp.disjoint_iff hp').1 (hw.disjoint name name' e e' he he' hne)
  · intro hs
    constructor
    · intro name e he n hn
      obtain ⟨d, hd, hp⟩ := hentry name e he
      exact hs.nonneg name d hd n (hp.shape ▸ hn)
    · intro name e he
      obtain ⟨d, hd, hp⟩ := hentry name e he
      exact hp.size_iff.2 (hs.size name d hd)
    · intro name e he
      obtain ⟨d, -, -, -, hstart, hstop, hnonneg, hle, hwithin⟩ := hentry name e he
      omega
    · intro name name' e e' he he' hne
      obtain ⟨d, hd, hp⟩ := hentry name e he
      obtain ⟨d', hd', hp'⟩ := hentry name' e' he'
      exact (hp.disjoint_iff hp').2 (hs.disjoint name name' d d' hd hd' hne)

/-- The two tensors are well formed, and so their header is sound. -/
theorem wellFormed_iff_of_pair : ∃ entries raw,
    parseHeader ⟨4, fun _ => ""⟩ pairFile = some (.ok entries) ∧
    entries.entries = [("a", ⟨.float, [2], 115, 123⟩), ("b", ⟨.uint8, [3], 123, 126⟩)] ∧
    headerFields ⟨4, fun _ => ""⟩ pairFile = some (.ok raw) ∧ Sound raw := by
  obtain ⟨entries, hr, hlist⟩ : ∃ entries,
      parseHeader ⟨4, fun _ => ""⟩ pairFile = some (.ok entries) ∧
      entries.entries = [("a", ⟨.float, [2], 115, 123⟩), ("b", ⟨.uint8, [3], 123, 126⟩)] :=
    exists_ok (by decide +kernel)
  have hmem {name : String} {e : TensorEntry} (h : entries.get? name = some e) :
      (name, e) ∈ [("a", ⟨.float, [2], 115, 123⟩), ("b", ⟨.uint8, [3], 123, 126⟩)] :=
    hlist ▸ SortedMap.get?_eq_some.1 h
  obtain ⟨raw, hraw, hiff⟩ := wellFormed_iff hr
  refine ⟨entries, raw, hr, hlist, hraw, hiff.1 ⟨fun name e he => ?_, fun name e he => ?_,
    fun name e he => ?_, fun name name' e e' he he' hne => ?_⟩⟩
  · rcases mem_pair.1 (hmem he) with h | h <;> cases h <;> decide
  · rcases mem_pair.1 (hmem he) with h | h <;> cases h <;> decide
  · rcases mem_pair.1 (hmem he) with h | h <;> cases h <;> decide +kernel
  · rw [Set.Ico_disjoint_Ico]
    rcases mem_pair.1 (hmem he) with h | h <;> rcases mem_pair.1 (hmem he') with h' | h' <;>
      cases h <;> cases h'
    · exact absurd rfl hne
    · decide
    · decide
    · exact absurd rfl hne

/-- A tensor with a negative dimension, whose bytes are those of another one, is accepted. -/
theorem accepts_overlapping :
    ∃ entries, parseHeader ⟨4, fun _ => ""⟩ (buildSafetensors
        ("\x7b\"a\":\x7b\"dtype\":\"F32\",\"shape\":[-2],\"data_offsets\":[0,4]\x7d," ++
          "\"b\":\x7b\"dtype\":\"U8\",\"shape\":[4],\"data_offsets\":[0,4]\x7d\x7d")
        [1, 2, 3, 4]) = some (.ok entries) ∧
      entries.get? "a" = some ⟨.float, [-2], 115, 119⟩ ∧
      entries.get? "b" = some ⟨.uint8, [4], 115, 119⟩ :=
  exists_ok (by decide +kernel)

end Safetensors

end SmallAIOS.OnnxRt
