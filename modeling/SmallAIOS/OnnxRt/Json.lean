import SmallAIOS.Lib.Scanner

/-!
# The headers' JSON

The header of a weights file is a JSON text. The parser goes through its bytes, and knows objects,
arrays, strings, the constants, and numbers that are integers of 64 bits. The fields of an object
are kept in the order they come, also when a name comes twice. A byte of a string that is not an
escape is a character by itself.

The parser calls itself for the values in a value, as deep as they are nested, and has no limit for
it: where the stack ends, so does the process. It comes to an end for every text whose brackets are
nested less deep than that (`parseJsonObject_ne_none`).
-/

namespace SmallAIOS.OnnxRt

open Lib Scanner

inductive LoaderError where
  | invalidHeader (msg : String)
  | unsupportedDtype (dtype : String)
  deriving DecidableEq

inductive JsonValue where
  | null
  | bool (b : Bool)
  | number (n : ℤ)
  | string (s : String)
  | array (values : List JsonValue)
  | object (fields : List (String × JsonValue))

namespace Json

/-- Scanners of the bytes of a text. -/
abbrev JsonParser := Scanner LoaderError UInt8

/-- The byte as a character. -/
def asChar (b : UInt8) : Char := Char.ofNat b.toNat

def isDigit (b : UInt8) : Bool := 0x30 ≤ b && b ≤ 0x39

/-- The space, the tabulator and the ends of lines. -/
def isWhitespace (b : UInt8) : Bool := b = 0x20 || b = 0x09 || b = 0x0a || b = 0x0d

def invalid {α : Type} (msg : String) : JsonParser α := fail (.invalidHeader msg)

def skipWs : JsonParser Unit := do
  let _ ← takeWhile isWhitespace

def expect (b : UInt8) : JsonParser Unit := do
  match ← bump with
  | some c =>
    if c = b then pure () else do
      let pos ← pos
      invalid s!"expected '{asChar b}' got '{asChar c}' at {pos}"
  | none => invalid s!"expected '{asChar b}' at EOF"

/-! ## Strings -/

def hexDigitValue (d : UInt8) : Option ℕ :=
  if 0x30 ≤ d && d ≤ 0x39 then some (d.toNat - 0x30)
  else if 0x61 ≤ d && d ≤ 0x66 then some (d.toNat - 0x61 + 10)
  else if 0x41 ≤ d && d ≤ 0x46 then some (d.toNat - 0x41 + 10)
  else none

/-- The number in four hexadecimal digits. -/
def upperHex4 (n : ℕ) : String :=
  String.ofList ([n / 4096 % 16, n / 256 % 16, n / 16 % 16, n % 16].map fun d =>
    Char.ofNat (if d < 10 then 0x30 + d else 0x37 + d))

def hexDigit (code : ℕ) : JsonParser ℕ := do
  match ← bump with
  | some d =>
    match hexDigitValue d with
    | some hv => pure (code * 16 + hv)
    | none => invalid s!"bad hex digit '{asChar d}' in \\u escape"
  | none => invalid "truncated \\u escape"

/-- The character of a code, if it is one. -/
def charFromU32 (code : ℕ) : Option Char :=
  if h : code.isValidChar then some (Char.ofNatAux code h) else none

def consumeUnicodeEscape (out : String) : JsonParser String := do
  let code ← hexDigit 0
  let code ← hexDigit code
  let code ← hexDigit code
  let code ← hexDigit code
  match charFromU32 code with
  | some c => pure (out.push c)
  | none => invalid ("invalid unicode codepoint U+" ++ upperHex4 code)

def consumeEscape (out : String) : JsonParser String := do
  match ← bump with
  | some 0x22 => pure (out.push '"')
  | some 0x5c => pure (out.push '\\')
  | some 0x2f => pure (out.push '/')
  | some 0x6e => pure (out.push '\n')
  | some 0x72 => pure (out.push '\r')
  | some 0x74 => pure (out.push '\t')
  | some 0x62 => pure (out.push '\x08')
  | some 0x66 => pure (out.push '\x0c')
  | some 0x75 => consumeUnicodeEscape out
  | some c => invalid s!"bad escape '\\{asChar c}'"
  | none => invalid "unterminated escape"

/-- One turn of the loop over the bytes of a string. -/
def stringTurn (out : String) : JsonParser (String ⊕ String) := do
  match ← bump with
  | some 0x22 => pure (.inr out)
  | some 0x5c => do
    let out ← consumeEscape out
    pure (.inl out)
  | some b => pure (.inl (out.push (asChar b)))
  | none => invalid "unterminated string"

def parseString : JsonParser String := do
  skipWs
  expect 0x22
  loop stringTurn ""

/-! ## Numbers and constants -/

/-- The value of a list of decimal digits. -/
def decimalValue (digits : List UInt8) : ℕ :=
  digits.foldl (fun n d => n * 10 + (d.toNat - 0x30)) 0

/-- The integer of 64 bits with the sign and the digits. -/
def parseI64 (negative : Bool) (digits : List UInt8) : Option ℤ :=
  if digits = [] then none
  else
    let n : ℤ := if negative then -decimalValue digits else decimalValue digits
    if -2 ^ 63 ≤ n ∧ n < 2 ^ 63 then some n else none

def parseNumber : JsonParser JsonValue := do
  let negative ← literal [0x2d]
  let digits ← takeWhile isDigit
  match parseI64 negative digits with
  | some n => pure (.number n)
  | none =>
    let text := String.ofList ((if negative then [0x2d] else []) ++ digits |>.map asChar)
    invalid s!"bad number '{text}'"

def parseBool : JsonParser JsonValue := do
  if ← literal [0x74, 0x72, 0x75, 0x65] then pure (.bool true)
  else if ← literal [0x66, 0x61, 0x6c, 0x73, 0x65] then pure (.bool false)
  else invalid "expected true/false"

def parseNull : JsonParser JsonValue := do
  if ← literal [0x6e, 0x75, 0x6c, 0x6c] then pure .null else invalid "expected null"

/-! ## Objects and arrays -/

/-- After an item comes a comma, or the end. -/
def itemEnd {α : Type} (close : UInt8) (kind : String) (items : α) : JsonParser (α ⊕ α) := do
  skipWs
  match ← bump with
  | some c =>
    if c = 0x2c then pure (.inl items)
    else if c = close then pure (.inr items)
    else do
      let pos ← pos
      invalid s!"expected ',' or '{asChar close}' got '{asChar c}' at {pos}"
  | none => invalid s!"unexpected EOF in {kind}"

/-- The items between the brackets, if there are any. -/
def parseItems {α : Type} (openByte close : UInt8) (turn : List α → JsonParser (List α ⊕ List α)) :
    JsonParser (List α) := do
  expect openByte
  skipWs
  match ← peek with
  | some c =>
    if c = close then do
      let _ ← bump
      pure []
    else loop turn []
  | none => loop turn []

/-- One turn of the loop over the fields of an object. -/
def objectTurn (value : JsonParser JsonValue) (out : List (String × JsonValue)) :
    JsonParser (List (String × JsonValue) ⊕ List (String × JsonValue)) := do
  skipWs
  let key ← parseString
  skipWs
  expect 0x3a
  let v ← value
  itemEnd 0x7d "object" (out ++ [(key, v)])

def parseObject (value : JsonParser JsonValue) : JsonParser JsonValue := do
  let fields ← parseItems 0x7b 0x7d (objectTurn value)
  pure (.object fields)

/-- One turn of the loop over the values of an array. -/
def arrayTurn (value : JsonParser JsonValue) (out : List JsonValue) :
    JsonParser (List JsonValue ⊕ List JsonValue) := do
  let v ← value
  itemEnd 0x5d "array" (out ++ [v])

def parseArray (value : JsonParser JsonValue) : JsonParser JsonValue := do
  let values ← parseItems 0x5b 0x5d (arrayTurn value)
  pure (.array values)

/-- A value, where the stack has room for so many calls. -/
def parseValue : ℕ → JsonParser JsonValue
  | 0 => fun _ => none
  | stack + 1 => do
    skipWs
    match ← peek with
    | some 0x7b => parseObject (parseValue stack)
    | some 0x5b => parseArray (parseValue stack)
    | some 0x22 => do
      let s ← parseString
      pure (.string s)
    | some 0x74 | some 0x66 => parseBool
    | some 0x6e => parseNull
    | some c =>
      if c = 0x2d || isDigit c then parseNumber
      else do
        let pos ← pos
        invalid s!"unexpected byte '{asChar c}' at {pos}"
    | none => invalid "unexpected EOF in JSON value"

def parseJsonObject (stack : ℕ) (input : List UInt8) :
    Checked LoaderError (List (String × JsonValue)) := do
  let (v, c) ← (do
    skipWs
    let v ← parseValue stack
    skipWs
    pure v : JsonParser JsonValue) ⟨input, 0⟩
  if c.rest ≠ [] then
    Checked.lift (.error (.invalidHeader s!"trailing data after JSON at byte {c.pos}"))
  else match v with
    | .object fields => pure fields
    | _ => Checked.lift (.error (.invalidHeader "top-level JSON is not an object"))

/-! ## The parser comes to an end -/

/-- Where a byte of a text is. -/
inductive Place
  | outside
  | string
  /-- After a backslash in a string. -/
  | escape
  deriving DecidableEq

open Place

/-- How deep the brackets of a text are nested; those in strings do not count. -/
def nesting : Place → List UInt8 → ℕ
  | _, [] => 0
  | escape, _ :: l => nesting string l
  | string, b :: l =>
    if b = 0x22 then nesting outside l else if b = 0x5c then nesting escape l else nesting string l
  | outside, b :: l =>
    if b = 0x22 then nesting string l
    else if b = 0x7b ∨ b = 0x5b then nesting outside l + 1
    else if b = 0x7d ∨ b = 0x5d then nesting outside l - 1
    else nesting outside l

/-- The brackets are nested at most `n` deep. -/
def Nests (p : Place) (n : ℕ) (l : List UInt8) : Prop := nesting p l ≤ n

/-- The parser of a value comes to an end, and closes the brackets that it opens. -/
def Reads {α : Type} (n : ℕ) (x : JsonParser α) : Prop :=
  Ends (Nests .outside n) 1 x fun _ => Nests .outside n

/-- A turn of a loop comes to an end, and closes no bracket, or the one around the items. -/
def Turns {α : Type} (n : ℕ) (x : JsonParser (α ⊕ α)) : Prop :=
  Ends (Nests .outside n) 1 x
    fun r => r.elim (fun _ => Nests .outside n) fun _ => Nests .outside (n + 1)

/-- Quotes, backslashes and brackets. -/
def marks : List UInt8 := [0x22, 0x5c, 0x7b, 0x5b, 0x7d, 0x5d]

section Ends

variable {n : ℕ} {p : Place} {l t : List UInt8}

theorem nests_cons {b : UInt8} (hb : b ∉ marks) (hp : p ≠ escape) :
    Nests p n (b :: l) ↔ Nests p n l := by
  simp only [marks, List.mem_cons, List.not_mem_nil, or_false, not_or] at hb
  cases p with
  | escape => exact absurd rfl hp
  | _ => simp [Nests, nesting, hb]

theorem nests_append (ht : ∀ b ∈ t, b ∉ marks) (hp : p ≠ escape) :
    Nests p n (t ++ l) ↔ Nests p n l := by
  induction t with
  | nil => rfl
  | cons b t ih =>
    rw [List.forall_mem_cons] at ht
    exact (nests_cons ht.1 hp).trans (ih ht.2)

/-- Bytes of a kind that the marks are not of. -/
theorem notMem_marks {q : UInt8 → Bool} {b : UInt8} (hq : marks.any q = false)
    (hb : q b = true) : b ∉ marks :=
  fun hmem => List.any_eq_false.1 hq b hmem hb

theorem nests_close {close : UInt8} (hclose : close = 0x7d ∨ close = 0x5d)
    (h : Nests outside n (close :: l)) : Nests outside (n + 1) l := by
  rcases hclose with rfl | rfl <;> exact Nat.sub_le_iff_le_add.1 h

variable (out : String) {α : Type}

theorem ends_skipWs : Ends (Nests outside n) 0 skipWs fun _ => Nests outside n := by
  refine Ends.takeWhile_bind fun t ht => ?_
  rw [Nat.zero_sub]
  exact Ends.pure fun l => (nests_append (fun b hb => notMem_marks (by decide) (ht b hb))
    (by decide)).1

theorem ends_expect {P : List UInt8 → Prop} (b : UInt8) :
    Ends P 1 (expect b) fun _ l => P (b :: l) := by
  refine Ends.bump_bind (fun c => ?_) (Ends.fail _)
  dsimp only
  split
  · next hc => exact Ends.pure fun l hl => hc ▸ hl
  · exact Ends.pos.bind_right fun _ => Ends.fail _

theorem ends_hexDigit (code : ℕ) :
    Ends (Nests string n) 1 (hexDigit code) fun _ => Nests string n := by
  refine Ends.bump_bind (fun d => ?_) (Ends.fail _)
  dsimp only
  split
  · next hv =>
    have hd : d ∉ marks := notMem_marks (q := fun d => (hexDigitValue d).isSome) (by decide)
      (Option.isSome_of_eq_some hv)
    exact Ends.pure fun l => (nests_cons hd (by decide)).1
  · exact Ends.fail _

theorem ends_consumeUnicodeEscape :
    Ends (Nests string n) 0 (consumeUnicodeEscape out) fun _ => Nests string n := by
  have hdigit {code : ℕ} : Ends (Nests string n) 0 (hexDigit code) fun _ => Nests string n :=
    (ends_hexDigit code).zero
  refine hdigit.bind_right fun code => hdigit.bind_right fun code => hdigit.bind_right fun code =>
    hdigit.bind_right fun code => ?_
  split
  · exact Ends.pure fun _ hl => hl
  · exact Ends.fail _

theorem ends_consumeEscape :
    Ends (Nests escape n) 1 (consumeEscape out) fun _ => Nests string n := by
  refine Ends.bump_bind (fun c => ?_) (Ends.fail _)
  split
  all_goals first
    | exact Ends.pure fun _ hl => hl
    | exact ends_consumeUnicodeEscape out
    | exact Ends.fail _

/-- The string goes on, or ends. -/
theorem ends_stringTurn : Ends (Nests string n) 1 (stringTurn out)
    fun r => r.elim (fun _ => Nests string n) fun _ => Nests outside n := by
  refine Ends.bump_bind (fun c => ?_) (Ends.fail _)
  split
  · next heq =>
    cases heq
    exact Ends.pure fun _ hl => hl
  · next heq =>
    cases heq
    exact (ends_consumeEscape out).zero.bind_right fun out => Ends.pure fun _ hl => hl
  · next b hquote hslash heq =>
    cases heq
    refine Ends.pure fun l hl => ?_
    rwa [Nests, nesting, if_neg hquote, if_neg hslash] at hl
  · exact Ends.fail _

theorem reads_parseString : Reads n parseString :=
  ends_skipWs.bind_right fun _ => (ends_expect 0x22).bind_left fun _ =>
    (Ends.loop ends_stringTurn "").zero

/-- A number has a digit. -/
theorem reads_parseNumber : Reads n parseNumber := by
  refine Ends.literal_bind le_rfl (Ends.zero (k := 1) (Ends.weaken (P := Nests outside n) ?_
    fun l => (nests_cons (by decide) (by decide)).1)) ?_
  all_goals
    refine Ends.takeWhile_bind fun digits hd => ?_
    cases digits with
    | nil => exact Ends.fail _
    | cons d digits =>
      rw [List.length_cons, Nat.sub_eq_zero_of_le (Nat.le_add_left 1 _)]
      split
      · exact Ends.pure fun l => (nests_append (fun b hb => notMem_marks (by decide) (hd b hb))
          (by decide)).1
      · exact Ends.fail _

/-- A literal of bytes that are no brackets. -/
theorem reads_literal {t : List UInt8} {f : Bool → JsonParser JsonValue} {v : JsonValue}
    (hlen : 1 ≤ t.length) (ht : marks.any t.contains = false) (hv : f true = pure v)
    (hfalse : Reads n (f false)) : Reads n (literal t >>= f) :=
  Ends.literal_bind hlen (hv ▸ Ends.pure fun _ => (nests_append (fun b hb =>
    notMem_marks ht (List.contains_iff_mem.2 hb)) (by decide)).1) hfalse

theorem reads_parseBool : Reads n parseBool :=
  reads_literal (by decide) (by decide) rfl
    (reads_literal (by decide) (by decide) rfl (Ends.fail _))

theorem reads_parseNull : Reads n parseNull :=
  reads_literal (by decide) (by decide) rfl (Ends.fail _)

theorem turns_itemEnd {close : UInt8} (hclose : close = 0x7d ∨ close = 0x5d) (kind : String)
    (items : α) : Turns n (itemEnd close kind items) := by
  refine ends_skipWs.bind_right fun _ => Ends.bump_bind (fun c => ?_) (Ends.fail _)
  dsimp only
  split
  · next hc => exact Ends.pure fun l => (nests_cons (hc ▸ by decide) (by decide)).1
  · split
    · next hc => exact Ends.pure fun l => nests_close (hc ▸ hclose)
    · exact Ends.pos.bind_right fun _ => Ends.fail _

theorem reads_parseItems {openByte close : UInt8} {turn : List α → JsonParser (List α ⊕ List α)}
    (hopen : openByte = 0x7b ∨ openByte = 0x5b) (hclose : close = 0x7d ∨ close = 0x5d)
    (h : ∀ n', n' + 1 = n → ∀ items, Turns n' (turn items)) :
    Reads n (parseItems openByte close turn) := by
  refine (ends_expect openByte).bind_left fun _ => ?_
  cases n with
  | zero =>
    intro c hc
    rcases hopen with rfl | rfl <;> exact absurd hc (Nat.not_succ_le_zero _)
  | succ n =>
    have hloop := (Ends.loop (h n rfl) []).zero
    refine Ends.weaken (P := Nests outside n) ?_ fun l hl => ?_
    · refine ends_skipWs.bind_right fun _ => Ends.peek_bind fun o => ?_
      split
      · split
        · next hc =>
          refine Ends.bump_bind (fun b => Ends.pure fun l hl => ?_)
            (Ends.pure fun l hl => hl.1.trans (Nat.le_succ n))
          obtain rfl : b = close := (Option.some.inj hl.2).trans hc
          exact nests_close hclose hl.1
        · exact hloop.weaken fun _ hl => hl.1
      · exact hloop.weaken fun _ hl => hl.1
    · rcases hopen with rfl | rfl <;> exact Nat.le_of_succ_le_succ hl

variable {value : JsonParser JsonValue}

theorem turns_objectTurn (h : Reads n value) (fields : List (String × JsonValue)) :
    Turns n (objectTurn value fields) := by
  refine ends_skipWs.bind_right fun _ => reads_parseString.zero.bind_right fun _ =>
    ends_skipWs.bind_right fun _ => (ends_expect 0x3a).zero.bind_right fun _ => ?_
  exact (h.zero.bind_right fun _ => turns_itemEnd (.inl rfl) _ _).weaken
    fun l => (nests_cons (by decide) (by decide)).1

/-- A bracket is taken before the values in a value, which are nested less deep. -/
theorem reads_parseValue {stack : ℕ} (hn : n < stack) : Reads n (parseValue stack) := by
  induction stack generalizing n with
  | zero => exact absurd hn (Nat.not_lt_zero n)
  | succ stack ih =>
    refine ends_skipWs.bind_right fun _ => Ends.peek_bind fun o => Ends.weaken ?_ fun _ hl => hl.1
    split
    · refine Ends.bind_left ?_ fun fields => Ends.pure fun _ hl => hl
      exact reads_parseItems (.inl rfl) (.inl rfl) fun n' hn' => turns_objectTurn (ih (by omega))
    · refine Ends.bind_left ?_ fun values => Ends.pure fun _ hl => hl
      exact reads_parseItems (.inr rfl) (.inr rfl) fun n' hn' _ =>
        (ih (by omega)).zero.bind_right fun _ => turns_itemEnd (.inr rfl) _ _
    · exact reads_parseString.bind_left fun s => Ends.pure fun _ hl => hl
    · exact reads_parseBool
    · exact reads_parseBool
    · exact reads_parseNull
    · split
      · exact reads_parseNumber
      · exact Ends.pos.bind_right fun _ => Ends.fail _
    · exact Ends.fail _

end Ends

/-- The parser comes to an end for a text whose brackets are not nested as deep as the stack is. -/
theorem parseJsonObject_ne_none {stack : ℕ} {input : List UInt8}
    (h : nesting outside input < stack) : parseJsonObject stack input ≠ none := by
  have hends := ends_skipWs.bind_right fun _ => (reads_parseValue h).zero.bind_right fun v =>
    ends_skipWs.bind_right fun _ => Ends.pure (a := v) (R := fun _ _ => True) fun _ _ => trivial
  intro hnone
  rcases Checked.bind_eq_none hnone with hnone | ⟨⟨v, c⟩, -, hnone⟩
  · exact (hends ⟨input, 0⟩ le_rfl).1 hnone
  · dsimp only at hnone
    split at hnone
    · cases hnone
    · split at hnone <;> cases hnone

end Json

end SmallAIOS.OnnxRt
