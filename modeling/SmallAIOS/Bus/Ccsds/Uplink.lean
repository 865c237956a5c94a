import SmallAIOS.Bus.Dds.Reliable
import SmallAIOS.Lib.Checked

/-!
# The telecommand uplink

A telecommand frame (`TcFrame`) is encoded with a checksum at its end, and the bytes are sent as a
communications link transmission unit: a start sequence, code blocks of seven bytes each with a
parity byte, and a tail sequence. The last code block is filled up.

Decoding a unit gives back the bytes with the fill (`cltuDecode_cltuEncode`), and a frame finds
its checksum from the end of the bytes. So a frame comes back exactly if nothing had to be filled
up, that is, if the length of its data is a multiple of seven (`uplink_iff`).

Two code blocks that pass the parity check differ in three bits or more (`three_le_bitDistance`).
-/

namespace SmallAIOS.Bus.Ccsds

open Lib List Nat

/-! ## Telecommand frames -/

/-- Header size of a frame. -/
def tcHeaderLen : ℕ := 5

/-- Size of the checksum. -/
def fecfLen : ℕ := 2

def crc16Poly : UInt16 := 0x1021

/-- One bit of the checksum. -/
def crc16Step (crc : UInt16) : UInt16 :=
  if crc &&& 0x8000 ≠ 0 then (crc <<< 1) ^^^ crc16Poly else crc <<< 1

/-- One byte of the checksum. -/
def crc16Byte (crc : UInt16) (byte : UInt8) : UInt16 :=
  crc16Step^[8] (crc ^^^ (byte.toUInt16 <<< (8 : UInt16)))

/-- CRC-16/CCITT. -/
def crc16Ccitt (data : List UInt8) : UInt16 := data.foldl crc16Byte 0xFFFF

/-- The high byte of a word and its low byte. -/
def toBytes (w : UInt16) : List UInt8 := [(w >>> 8).toUInt8, w.toUInt8]

/-- The word of a high byte and a low byte. -/
def ofBytes (hi lo : UInt8) : UInt16 := (hi.toUInt16 <<< 8) ||| lo.toUInt16

/-- TC Transfer Frame. -/
structure TcFrame where
  version : UInt8
  bypass : Bool
  controlCmd : Bool
  scid : UInt16
  vcid : UInt8
  frameSeq : UInt8
  data : List UInt8
  deriving DecidableEq

open TcFrame

namespace TcFrame

/-- A new TC frame. -/
def new (bypass controlCmd : Bool) (scid : UInt16) (vcid frameSeq : UInt8) (data : List UInt8) :
    Except BusError TcFrame :=
  if 0x3FF < scid then .error .outOfRange
  else if 63 < vcid then .error .outOfRange
  else .ok ⟨0, bypass, controlCmd, scid, vcid, frameSeq, data⟩

/-- Version, flags and spacecraft. -/
def word0 (f : TcFrame) : UInt16 :=
  let bypassBit : UInt16 := if f.bypass then 1 else 0
  let ctrlBit : UInt16 := if f.controlCmd then 1 else 0
  ((f.version.toUInt16 &&& 0x03) <<< 14) ||| (bypassBit <<< 13) ||| (ctrlBit <<< 12) |||
    (f.scid &&& 0x3FF)

def header (f : TcFrame) : List UInt8 :=
  toBytes f.word0 ++ [(f.vcid &&& 0x3F) <<< 2, UInt8.ofNat (f.data.length + fecfLen), f.frameSeq]

/-- The bytes of a frame: the header, the data, and the checksum of both. -/
def bytes (f : TcFrame) : List UInt8 :=
  f.header ++ f.data ++ toBytes (crc16Ccitt (f.header ++ f.data))

/-- Encode the frame into a buffer. -/
def encode (f : TcFrame) (buf : List UInt8) : Except BusError (ℕ × List UInt8) :=
  let total := tcHeaderLen + f.data.length + fecfLen
  if buf.length < total then .error .bufferTooSmall
  else .ok (total, f.bytes ++ buf.drop total)

/-- Decode a frame, and verify its checksum. -/
def decode (data : List UInt8) : Except BusError TcFrame :=
  match data with
  | b₀ :: b₁ :: b₂ :: _ :: b₄ :: rest =>
    match rest.drop (rest.length - fecfLen) with
    | [c₀, c₁] =>
      if crc16Ccitt (data.take (data.length - fecfLen)) ≠ ofBytes c₀ c₁ then .error .crcMismatch
      else
        let w := ofBytes b₀ b₁
        .ok
          { version := ((w >>> 14) &&& 0x03).toUInt8
            bypass := (w >>> 13) &&& 1 = 1
            controlCmd := (w >>> 12) &&& 1 = 1
            scid := w &&& 0x3FF
            vcid := (b₂ >>> 2) &&& 0x3F
            frameSeq := b₄
            data := rest.take (rest.length - fecfLen) }
    | _ => .error .frameTooShort
  | _ => .error .frameTooShort

end TcFrame

/-! ## Link transmission units -/

def cltuStart : List UInt8 := [0xEB, 0x90]

def cltuTail : List UInt8 := [0xC5, 0xC5, 0xC5, 0xC5, 0xC5, 0xC5, 0xC5, 0x79]

/-- Number of information bytes of a code block. -/
def codeBlockInfoLen : ℕ := 7

/-- Length of a code block. -/
def codeBlockLen : ℕ := 8

def fillByte : UInt8 := 0x55

/-- The length of a unit of one code block. -/
def cltuMinLen : ℕ := cltuStart.length + codeBlockLen + cltuTail.length

def bchStep (crc : UInt8) : UInt8 :=
  if crc &&& 0x80 ≠ 0 then (crc <<< 1) ^^^ 0xC5 else crc <<< 1

/-- The entry of the lookup table for a byte. -/
def bchTable (i : UInt8) : UInt8 := bchStep^[8] i

/-- The parity byte of an information block. -/
def bchParity (info : List UInt8) : UInt8 :=
  ~~~ info.foldl (fun reg byte => bchTable (reg ^^^ byte)) 0

/-- Verify a code block. -/
def bchVerify (block : List UInt8) : Bool :=
  block[codeBlockInfoLen]? = some (bchParity (block.take codeBlockInfoLen))

/-- The next information block, filled up if the data end in it. -/
def infoBlock (rest : List UInt8) : List UInt8 :=
  rest.take codeBlockInfoLen ++ replicate (codeBlockInfoLen - rest.length) fillByte

/-- The next `n` code blocks of the data. -/
def codeBlocks : ℕ → List UInt8 → List UInt8
  | 0, _ => []
  | n + 1, rest =>
    infoBlock rest ++ bchParity (infoBlock rest) :: codeBlocks n (rest.drop codeBlockInfoLen)

/-- Encode TC frame data into a CLTU. Empty data get one block of fill. -/
def cltuEncode (tcData : List UInt8) : List UInt8 :=
  if tcData = [] then cltuStart ++ codeBlocks 1 [] ++ cltuTail
  else
    let numBlocks := (tcData.length + codeBlockInfoLen - 1) / codeBlockInfoLen
    cltuStart ++ codeBlocks numBlocks tcData ++ cltuTail

/-- The information bytes of the next `n` code blocks. -/
def decodeBlocks : ℕ → List UInt8 → Except BusError (List UInt8)
  | 0, _ => .ok []
  | n + 1, bs =>
    if !bchVerify (bs.take codeBlockLen) then .error .crcMismatch
    else do
      let rest ← decodeBlocks n (bs.drop codeBlockLen)
      .ok (bs.take codeBlockInfoLen ++ rest)

/-- Decode a CLTU back into TC frame data. -/
def cltuDecode (cltu : List UInt8) : Except BusError (List UInt8) :=
  if cltu.length < cltuMinLen then .error .frameTooShort
  else if cltu.take 2 ≠ cltuStart then .error .invalidHeader
  else
    let tailStart := cltu.length - cltuTail.length
    if cltu.drop tailStart ≠ cltuTail then .error .invalidHeader
    else
      let blocks := (cltu.take tailStart).drop cltuStart.length
      if blocks.length % codeBlockLen ≠ 0 then .error .invalidFrame
      else decodeBlocks (blocks.length / codeBlockLen) blocks

/-! ## Units -/

theorem length_infoBlock (rest : List UInt8) : (infoBlock rest).length = 7 := by
  rw [infoBlock, length_append, length_take, length_replicate, codeBlockInfoLen]
  omega

theorem length_codeBlocks (n : ℕ) (rest : List UInt8) : (codeBlocks n rest).length = 8 * n := by
  induction n generalizing rest with
  | zero => rfl
  | succ n ih =>
    rw [codeBlocks, length_append, length_cons, ih, length_infoBlock]
    omega

variable {n : ℕ} {rest : List UInt8}

/-- Information blocks put together are the data, filled up. -/
theorem infoBlock_append_drop (h : rest.length ≤ 7 * (n + 1)) :
    infoBlock rest ++ (rest.drop 7 ++ replicate (7 * n - (rest.drop 7).length) fillByte) =
      rest ++ replicate (7 * (n + 1) - rest.length) fillByte := by
  rw [infoBlock, codeBlockInfoLen, length_drop]
  by_cases hlen : 7 ≤ rest.length
  · rw [Nat.sub_eq_zero_of_le hlen, replicate_zero, append_nil, ← append_assoc,
      take_append_drop, sub_sub_right _ hlen]
    rfl
  · have hle : rest.length ≤ 7 := by omega
    rw [take_of_length_le hle, drop_eq_nil_of_le hle, nil_append, append_assoc,
      replicate_append_replicate]
    congr 2
    omega

theorem decodeBlocks_codeBlocks (h : rest.length ≤ 7 * n) :
    decodeBlocks n (codeBlocks n rest) =
      .ok (rest ++ replicate (7 * n - rest.length) fillByte) := by
  induction n generalizing rest with
  | zero =>
    obtain rfl := length_eq_zero_iff.1 (le_zero.1 h)
    rfl
  | succ n ih =>
    have hlen := length_infoBlock rest
    have htake : ∀ l : List UInt8, (infoBlock rest ++ l).take 7 = infoBlock rest := fun l =>
      take_left' hlen
    have hblock : (codeBlocks (n + 1) rest).take 8 =
        infoBlock rest ++ [bchParity (infoBlock rest)] := by
      rw [codeBlocks, append_cons]
      exact take_left' (by rw [length_append, hlen]; rfl)
    have hdrop : (codeBlocks (n + 1) rest).drop 8 = codeBlocks n (rest.drop 7) := by
      rw [codeBlocks, append_cons]
      exact drop_left' (by rw [length_append, hlen]; rfl)
    have hverify : bchVerify (infoBlock rest ++ [bchParity (infoBlock rest)]) = true := by
      rw [bchVerify, codeBlockInfoLen, htake, getElem?_append_right hlen.le, hlen]
      simp
    have hdrop7 : (rest.drop 7).length ≤ 7 * n := by rw [length_drop]; omega
    have hdec := ih hdrop7
    rw [decodeBlocks, codeBlockLen, codeBlockInfoLen, hblock, hdrop, hverify, hdec]
    rw [← infoBlock_append_drop h, codeBlocks, htake]
    rfl

variable {data : List UInt8}

/-- Decoding the blocks between the start and the tail sequence. -/
theorem cltuDecode_codeBlocks (hn : 0 < n) (h : data.length ≤ 7 * n) :
    cltuDecode (cltuStart ++ codeBlocks n data ++ cltuTail) =
      .ok (data ++ replicate (7 * n - data.length) fillByte) := by
  have hlen := length_codeBlocks n data
  have hstart : (cltuStart ++ codeBlocks n data).length = 2 + 8 * n := by
    rw [length_append, hlen]
    rfl
  have htotal : (cltuStart ++ codeBlocks n data ++ cltuTail).length - cltuTail.length =
      (cltuStart ++ codeBlocks n data).length := by
    rw [length_append, Nat.add_sub_cancel]
  rw [cltuDecode, if_neg, if_neg]
  · dsimp only
    rw [htotal, drop_left, if_neg (not_not.2 rfl), take_left, drop_left, hlen,
      if_neg (by rw [codeBlockLen, mul_mod_right]; exact not_not.2 rfl), codeBlockLen,
      Nat.mul_div_cancel_left _ (by decide)]
    exact decodeBlocks_codeBlocks h
  · rw [append_assoc]
    exact not_not.2 (take_left' rfl)
  · rw [length_append, hstart]
    simp only [cltuMinLen, cltuStart, codeBlockLen, length_cons, length_nil]
    omega

/-- The number of fill bytes of a unit. -/
def fillLen (n : ℕ) : ℕ := 7 * ((n + 6) / 7) - n

/-- Decoding a unit gives back the data with the fill of the last block. -/
theorem cltuDecode_cltuEncode (h : data ≠ []) :
    cltuDecode (cltuEncode data) = .ok (data ++ replicate (fillLen data.length) fillByte) := by
  have hpos := length_pos_iff.2 h
  rw [cltuEncode, if_neg h]
  exact cltuDecode_codeBlocks (by simp only [codeBlockInfoLen]; omega)
    (by simp only [codeBlockInfoLen]; omega)

/-! ## Frames -/

theorem ofBytes_toBytes (w : UInt16) : ofBytes (w >>> 8).toUInt8 w.toUInt8 = w := by
  have hlt : w.toNat < 2 ^ 16 := w.toNat_lt
  have hhi : w.toNat / 256 % 256 = w.toNat / 256 := mod_eq_of_lt (by omega)
  refine UInt16.toNat_inj.1 ?_
  simp only [ofBytes, UInt16.toNat_or, UInt16.toNat_shiftLeft, UInt16.toNat_shiftRight,
    UInt8.toNat_toUInt16, UInt16.toNat_toUInt8, UInt16.reduceToNat, reduceMod,
    shiftRight_eq_div_pow, shiftLeft_eq, hhi]
  rw [mod_eq_of_lt (by omega), mul_comm, ← two_pow_add_eq_or_of_lt (mod_lt _ (by decide))]
  exact div_add_mod _ _

namespace TcFrame

variable {f : TcFrame}

/-- The first word as a number. -/
theorem toNat_word0 (hv : f.version = 0) (hs : f.scid.toNat < 1024) :
    f.word0.toNat = 4096 * (2 * f.bypass.toNat + f.controlCmd.toNat) + f.scid.toNat := by
  have hand : f.scid.toNat &&& 1023 = f.scid.toNat := by
    rw [and_two_pow_sub_one_eq_mod _ 10]
    exact mod_eq_of_lt hs
  have hor : ∀ k, 4096 * k ||| f.scid.toNat = 4096 * k + f.scid.toNat := fun k =>
    (two_pow_add_eq_or_of_lt (i := 12) (by omega) k).symm
  -- The flags give a multiple of 4096, and the spacecraft is below.
  have hflags : ∀ bypass controlCmd : Bool,
      ((((0 : UInt8).toUInt16 &&& 0x03) <<< 14) ||| ((if bypass then 1 else 0 : UInt16) <<< 13) |||
        ((if controlCmd then 1 else 0 : UInt16) <<< 12)).toNat =
        4096 * (2 * bypass.toNat + controlCmd.toNat) := by
    decide
  rw [word0, hv, UInt16.toNat_or, hflags, ← hor]
  exact congrArg _ hand

/-- What `decode` reads off the first word. -/
theorem fields_word0 (hv : f.version = 0) (hs : f.scid.toNat < 1024) :
    ((f.word0 >>> 14) &&& 0x03).toUInt8 = 0 ∧
      decide ((f.word0 >>> 13) &&& 1 = 1) = f.bypass ∧
      decide ((f.word0 >>> 12) &&& 1 = 1) = f.controlCmd ∧ f.word0 &&& 0x3FF = f.scid := by
  have hw := toNat_word0 hv hs
  have hb := Bool.toNat_lt f.bypass
  have hc := Bool.toNat_lt f.controlCmd
  have hbit : ∀ b : Bool, b = decide (b.toNat = 1) := by decide
  refine ⟨?_, ?_, ?_, ?_⟩
  · refine UInt8.toNat_inj.1 ?_
    simp only [UInt16.toNat_toUInt8, UInt16.toNat_and, UInt16.toNat_shiftRight, hw,
      UInt16.reduceToNat, shiftRight_eq_div_pow]
    rw [show (4096 * (2 * f.bypass.toNat + f.controlCmd.toNat) + f.scid.toNat) / 2 ^ 14 = 0 by
      omega]
    rfl
  · rw [hbit f.bypass, decide_eq_decide, ← UInt16.toNat_inj]
    simp only [UInt16.toNat_and, UInt16.toNat_shiftRight, UInt16.reduceToNat, reduceMod]
    rw [and_two_pow_sub_one_eq_mod _ 1]
    omega
  · rw [hbit f.controlCmd, decide_eq_decide, ← UInt16.toNat_inj]
    simp only [UInt16.toNat_and, UInt16.toNat_shiftRight, UInt16.reduceToNat, reduceMod]
    rw [and_two_pow_sub_one_eq_mod _ 1]
    omega
  · refine UInt16.toNat_inj.1 ?_
    simp only [UInt16.toNat_and, UInt16.reduceToNat]
    rw [and_two_pow_sub_one_eq_mod _ 10]
    omega

/-- The virtual channel is kept in the upper bits of a byte. -/
theorem vcid_shift {vcid : UInt8} (h : vcid.toNat < 64) :
    (((vcid &&& 0x3F) <<< 2) >>> 2) &&& 0x3F = vcid := by
  refine UInt8.toNat_inj.1 ?_
  simp only [UInt8.toNat_and, UInt8.toNat_shiftRight, UInt8.toNat_shiftLeft, UInt8.reduceToNat,
    reduceMod]
  rw [and_two_pow_sub_one_eq_mod _ 6, and_two_pow_sub_one_eq_mod _ 6]
  omega

/-- A frame that `new` accepts. -/
structure Valid (f : TcFrame) : Prop where
  version : f.version = 0
  scid : f.scid.toNat < 1024
  vcid : f.vcid.toNat < 64

theorem valid_of_new {bypass controlCmd : Bool} {scid : UInt16} {vcid frameSeq : UInt8}
    {data : List UInt8} (h : new bypass controlCmd scid vcid frameSeq data = .ok f) :
    f.Valid ∧ f.data = data := by
  rw [new] at h
  split_ifs at h with hs hv
  cases h
  exact ⟨⟨rfl, lt_succ_of_le (not_lt.1 hs), lt_succ_of_le (not_lt.1 hv)⟩, rfl⟩

theorem length_bytes (f : TcFrame) : f.bytes.length = 7 + f.data.length := by
  simp only [bytes, header, toBytes, length_append, length_cons, length_nil]
  omega

/-- `decode` on the parts of a frame. -/
theorem decode_append (b₀ b₁ b₂ b3 b₄ c₀ c₁ : UInt8) (data : List UInt8) :
    decode (b₀ :: b₁ :: b₂ :: b3 :: b₄ :: (data ++ [c₀, c₁])) =
      if crc16Ccitt (b₀ :: b₁ :: b₂ :: b3 :: b₄ :: data) ≠ ofBytes c₀ c₁ then .error .crcMismatch
      else .ok
        { version := ((ofBytes b₀ b₁ >>> 14) &&& 0x03).toUInt8
          bypass := (ofBytes b₀ b₁ >>> 13) &&& 1 = 1
          controlCmd := (ofBytes b₀ b₁ >>> 12) &&& 1 = 1
          scid := ofBytes b₀ b₁ &&& 0x3FF
          vcid := (b₂ >>> 2) &&& 0x3F
          frameSeq := b₄
          data } := by
  have hlen : (data ++ [c₀, c₁]).length - fecfLen = data.length := by
    rw [length_append]
    exact Nat.add_sub_cancel ..
  have htotal : (b₀ :: b₁ :: b₂ :: b3 :: b₄ :: (data ++ [c₀, c₁])).length - fecfLen =
      data.length + 5 := by
    simp only [length_cons, length_append, length_nil, fecfLen]
    omega
  simp only [decode, hlen, htotal, drop_left, take_succ_cons, take_left]

/-- A frame that is decoded has all the bytes but the header and the checksum as its data. -/
theorem length_of_decode {bs : List UInt8} (h : decode bs = .ok f) :
    f.data.length + 7 = bs.length := by
  unfold decode at h
  split at h
  · next b₀ b₁ b₂ b3 b₄ rest =>
    split at h
    · next c₀ c₁ hlast =>
      split_ifs at h
      cases h
      have := congrArg length hlast
      simp only [length_drop, length_cons] at this
      simp only [length_take, length_cons, fecfLen]
      omega
    · cases h
  · cases h

/-- Decoding undoes encoding. -/
theorem decode_bytes (h : f.Valid) : decode f.bytes = .ok f := by
  obtain ⟨hver, hbyp, hctl, hscid⟩ := fields_word0 h.version h.scid
  refine (decode_append _ _ _ _ _ _ _ f.data).trans ?_
  rw [ofBytes_toBytes, ofBytes_toBytes, hver, hbyp, hctl, hscid, vcid_shift h.vcid, ← h.version]
  exact if_neg (not_not.2 rfl)

end TcFrame

/-- A frame comes back from the uplink exactly if the length of its data is a multiple of seven. -/
theorem uplink_iff (bypass controlCmd : Bool) (scid : UInt16) (vcid frameSeq : UInt8)
    (data : List UInt8) (f : TcFrame)
    (hf : new bypass controlCmd scid vcid frameSeq data = .ok f) (buf : List UInt8)
    (hbuf : tcHeaderLen + data.length + fecfLen ≤ buf.length) :
    ∃ n out, f.encode buf = .ok (n, out) ∧
      ((cltuDecode (cltuEncode (out.take n))).bind decode = .ok f ↔ data.length % 7 = 0) := by
  obtain ⟨hvalid, rfl⟩ := valid_of_new hf
  refine ⟨_, _, if_neg (not_lt.2 hbuf), ?_⟩
  have hlen : tcHeaderLen + f.data.length + fecfLen = f.bytes.length := by
    rw [f.length_bytes, tcHeaderLen, fecfLen]
    omega
  have hne : f.bytes ≠ [] := cons_ne_nil _ _
  have hfill : fillLen f.bytes.length = 0 ↔ f.data.length % 7 = 0 := by
    rw [f.length_bytes, fillLen]
    omega
  rw [hlen, take_left, cltuDecode_cltuEncode hne, ← hfill]
  constructor
  · -- With fill, the frame that is decoded has more data.
    intro h
    have hdec := @length_of_decode _ (f.bytes ++ _) h
    have hbytes := f.length_bytes
    rw [length_append, length_replicate] at hdec
    omega
  · intro h
    rw [h, replicate_zero, append_nil]
    exact decode_bytes hvalid

/-- A frame with seven bytes of data. -/
theorem uplink_seven :
    ∃ n out, encode ⟨0, true, false, 0x2A, 3, 9, [1, 2, 3, 4, 5, 6, 7]⟩
        (replicate 64 0) = .ok (n, out) ∧
      (cltuDecode (cltuEncode (out.take n))).bind decode =
        .ok ⟨0, true, false, 0x2A, 3, 9, [1, 2, 3, 4, 5, 6, 7]⟩ := by
  obtain ⟨n, out, henc, hiff⟩ := uplink_iff true false 0x2A 3 9 [1, 2, 3, 4, 5, 6, 7] _ rfl
    (replicate 64 0) (by decide)
  exact ⟨n, out, henc, hiff.2 rfl⟩

/-- A frame with one byte of data does not come back: six bytes of fill follow its checksum. -/
theorem uplink_one :
    new true false 0x2A 3 9 [1] = .ok ⟨0, true, false, 0x2A, 3, 9, [1]⟩ ∧
      (cltuDecode (cltuEncode (bytes ⟨0, true, false, 0x2A, 3, 9, [1]⟩))).bind
        decode = .error .crcMismatch := by
  decide +kernel

/-! ## The distance of the code -/

/-- The bits of a byte, the highest first. -/
def bits (byte : UInt8) : List Bool := ofFn fun k : Fin 8 => byte.toBitVec.getMsbD k

/-- The number of bit positions in which two blocks differ. -/
def bitDistance (a b : List UInt8) : ℕ :=
  (zipWith (· != ·) (a.flatMap bits) (b.flatMap bits)).count true

/-- The register after one more bit of a block. -/
def bchBit (reg : UInt8) (bit : Bool) : UInt8 := bchStep reg ^^^ bit.toUInt8

theorem bchBit_false (reg : UInt8) : bchBit reg false = bchStep reg := UInt8.xor_zero

theorem bchStep_eq (c : UInt8) : bchStep c = c <<< 1 ^^^ if c.toBitVec.msb then 0xC5 else 0 := by
  obtain ⟨⟨n⟩⟩ := c
  decide +kernel +revert

theorem bchStep_xor (x y : UInt8) : bchStep (x ^^^ y) = bchStep x ^^^ bchStep y := by
  have h (a b : Bool) : (if a ^^ b then (0xC5 : UInt8) else 0) =
      (if a then 0xC5 else 0) ^^^ if b then 0xC5 else 0 := by decide +revert
  simp only [bchStep_eq, UInt8.shiftLeft_xor, UInt8.toBitVec_xor, BitVec.msb_xor, h]
  ac_rfl

/-- The register is linear in the bits. -/
theorem foldl_bchBit_zipWith {r r' : UInt8} {l l' : List Bool} (h : l.length = l'.length) :
    (zipWith (· != ·) l l').foldl bchBit (r ^^^ r') = l.foldl bchBit r ^^^ l'.foldl bchBit r' := by
  induction l generalizing l' r r' with
  | nil =>
    rw [length_eq_zero_iff.1 h.symm]
    rfl
  | cons b l ih =>
    obtain ⟨b', l', rfl⟩ := exists_cons_of_length_eq_add_one h.symm
    have hb (b b' : Bool) : (b != b').toUInt8 = b.toUInt8 ^^^ b'.toUInt8 := by decide +revert
    have hbit : bchBit (r ^^^ r') (b != b') = bchBit r b ^^^ bchBit r' b' := by
      rw [bchBit, bchStep_xor, hb, bchBit, bchBit]
      ac_rfl
    rw [zipWith_cons_cons, foldl_cons, hbit, ih (Nat.succ.inj h), foldl_cons, foldl_cons]

theorem foldl_bits (reg byte : UInt8) : (bits byte).foldl bchBit reg = bchTable reg ^^^ byte := by
  have h : zipWith (· != ·) (bits 0) (bits byte) = bits byte ∧
      (bits byte).foldl bchBit 0 = byte := by
    obtain ⟨⟨n⟩⟩ := byte
    decide +kernel +revert
  have hzero : (bits 0).foldl bchBit reg = bchTable reg := by simp [bits, bchBit_false, bchTable]
  rw [← h.1, ← UInt8.xor_zero (a := reg), foldl_bchBit_zipWith (by rfl), h.2, hzero, UInt8.xor_zero]

/-- The bits of a valid block fill the register. -/
theorem foldl_bchBit_of_verify {block : List UInt8} (hl : block.length = codeBlockLen)
    (h : bchVerify block) : (block.flatMap bits).foldl bchBit 0 = 0xFF := by
  obtain ⟨hlt, hget⟩ := List.getElem?_eq_some_iff.1 (of_decide_eq_true h)
  have hblock := (take_append_drop codeBlockInfoLen block).symm
  rw [drop_eq_getElem_cons hlt, hget, drop_eq_nil_of_le (i := codeBlockInfoLen + 1) hl.le] at hblock
  rw [hblock]
  simp only [foldl_flatMap, foldl_bits, foldl_append, foldl_cons, foldl_nil, bchParity]
  rw [UInt8.xor_not, UInt8.xor_eq_zero_iff.2]
  · rfl
  · exact (foldl_hom bchTable fun _ _ => rfl).symm

theorem iterate_bchStep_ne : ∀ k < 64, bchStep^[k] 1 ≠ 0 ∧ bchStep^[k + 1] 1 ≠ 1 := by
  decide +kernel

/-- One bit or two do not leave the register empty: within a block, the register does not come
    back to the first before the second comes. -/
theorem foldl_bchBit_of_count {l : List Bool} (hl : l.length ≤ 64) :
    (l.count true = 0 → l.foldl bchBit 0 = 0) ∧
      (l.count true = 1 → ∃ k < l.length, l.foldl bchBit 0 = bchStep^[k] 1) ∧
      (l.count true = 2 → l.foldl bchBit 0 ≠ 0) := by
  have hstep (c : UInt8) : bchStep c = 0 → c = 0 := by
    obtain ⟨⟨n⟩⟩ := c
    decide +kernel +revert
  induction l using reverseRecOn with
  | nil => simp
  | append_singleton l b ih =>
    rw [length_append, length_singleton] at hl
    obtain ⟨h0, h1, h2⟩ := ih (by omega)
    rw [foldl_append, count_append, foldl_cons, foldl_nil, length_append]
    cases b with
    | false =>
      rw [bchBit_false]
      refine ⟨fun h => ?_, fun h => ?_, fun h hz => h2 h (hstep _ hz)⟩
      · rw [h0 h]
        rfl
      · obtain ⟨k, hk, he⟩ := h1 h
        exact ⟨k + 1, by simpa, by rw [he, ← Function.iterate_succ_apply' bchStep]⟩
    | true =>
      refine ⟨by simp, fun h => ⟨0, by simp, ?_⟩, fun h hz => ?_⟩
      · rw [h0 (Nat.succ.inj h)]
        rfl
      · obtain ⟨k, hk, he⟩ := h1 (Nat.succ.inj h)
        rw [bchBit, he, ← Function.iterate_succ_apply' bchStep] at hz
        exact (iterate_bchStep_ne k (by omega)).2 (UInt8.xor_eq_zero_iff.1 hz)

theorem bits_injective : Function.Injective bits := by
  intro x y h
  have := congrArg (foldl bchBit 0) h
  rwa [foldl_bits, foldl_bits, UInt8.xor_right_inj] at this

/-- Two valid code blocks differ in at least three bits. -/
theorem three_le_bitDistance {a b : List UInt8} (ha : a.length = codeBlockLen)
    (hb : b.length = codeBlockLen) (hva : bchVerify a) (hvb : bchVerify b) (hne : a ≠ b) :
    3 ≤ bitDistance a b := by
  have hbits {l : List UInt8} (hl : l.length = codeBlockLen) : (l.flatMap bits).length = 64 := by
    simp [bits, map_const', hl, codeBlockLen]
  have hsame := (hbits ha).trans (hbits hb).symm
  have hlen : (zipWith (· != ·) (a.flatMap bits) (b.flatMap bits)).length = 64 := by
    rw [length_zipWith, hbits ha, hbits hb, Nat.min_self]
  have hzero : (zipWith (· != ·) (a.flatMap bits) (b.flatMap bits)).foldl bchBit 0 = 0 := by
    rw [← UInt8.xor_self (a := 0), foldl_bchBit_zipWith hsame, foldl_bchBit_of_verify ha hva,
      foldl_bchBit_of_verify hb hvb]
    rfl
  obtain ⟨-, hone, htwo⟩ := foldl_bchBit_of_count hlen.le
  have h0 : bitDistance a b ≠ 0 := fun h => by
    have hinj := flatMap_injective (k := 8) (by decide) (fun _ => rfl) bits_injective
    refine hne (hinj (List.ext_getElem hsame fun i hi hi' => ?_))
    by_contra hi
    exact count_eq_zero.1 h (mem_iff_getElem.2 ⟨i, by rwa [hlen, ← hbits ha], by simpa⟩)
  have h1 : bitDistance a b ≠ 1 := fun h => by
    obtain ⟨k, hk, he⟩ := hone h
    exact (iterate_bchStep_ne k (hlen ▸ hk)).1 (he ▸ hzero)
  have h2 : bitDistance a b ≠ 2 := fun h => htwo h hzero
  omega

/-- The blocks of seven zeros, and of six zeros and a one. -/
theorem three_le_bitDistance_one :
    3 ≤ bitDistance [0, 0, 0, 0, 0, 0, 0, 0xFF] [0, 0, 0, 0, 0, 0, 1, 0x3A] :=
  three_le_bitDistance rfl rfl (by decide +kernel) (by decide +kernel) (by decide)

end SmallAIOS.Bus.Ccsds
