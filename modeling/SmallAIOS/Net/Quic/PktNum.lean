import SmallAIOS.Lib.Bytes
import SmallAIOS.Lib.Word

/-!
# Packet numbers

A packet carries the low bytes of its number, one to four of them. The sender takes more of
them the further the number is from the largest one acknowledged. The receiver takes the
number with these bytes that is closest to the one it expects, which is therefore the number
that was sent (`decode_encodePacketNumber`).
-/

namespace SmallAIOS.Net

/-- The kinds of failure that the protocols of the network share. -/
inductive NetError where
  | packetTooShort
  | invalidHeader
  | checksumMismatch
  | bufferTooSmall
  | invalidProtocol
  | invalidAddress
  | tableFull
  | notFound
  | notImplemented
  | timeout
  | deviceNotReady
  | ringFull
  | noData
  deriving DecidableEq

end SmallAIOS.Net

namespace SmallAIOS.Net.Quic

open Lib List

/-- Determine the minimum packet number encoding length. -/
def packetNumberLength (pn largestAcked : ℕ) : Option ℕ := do
  -- The number of packets that are not acknowledged, twice.
  let numUnacked := if largestAcked < pn then pn - largestAcked else 1
  let range ← Word.add 64 numUnacked numUnacked
  return if range ≤ 0x80 then 1 else if range ≤ 0x8000 then 2 else if range ≤ 0x800000 then 3 else 4

/-- Encode a packet number: the bytes written and the length, and the buffer. -/
def encodePacketNumber (pn largestAcked : ℕ) (buf : List UInt8) :
    Option (Except NetError (ℕ × ℕ) × List UInt8) := do
  let pnLen ← packetNumberLength pn largestAcked
  if buf.length < pnLen then return (.error .bufferTooSmall, buf)
  let truncated := pn &&& 2 ^ (pnLen * 8) - 1
  return (.ok (pnLen, pnLen), beBytes pnLen truncated ++ buf.drop pnLen)

/-- Read a truncated packet number; bits above a word are shifted out. -/
def readPacketNumber (data : List UInt8) (pnLength : ℕ) : Except NetError ℕ :=
  if data.length < pnLength then .error .packetTooShort
  else .ok (beVal (data.take pnLength) % 2 ^ 64)

/-- Decode a truncated packet number, given the largest one received. -/
def decodePacketNumber (truncatedPn pnLength largestPn : ℕ) : Option ℕ := do
  let pnNbits := pnLength * 8
  -- A shift by the size of a word overflows.
  guard (pnNbits < 64)
  let pnWin := 2 ^ pnNbits
  let pnHwin := pnWin / 2
  let pnMask := pnWin - 1
  let expectedPn ← Word.add 64 largestPn 1
  let candidate := expectedPn &&& Word.complement 64 pnMask ||| truncatedPn
  let wraps ← if (← Word.add 64 candidate pnHwin) ≤ expectedPn then
    (Word.add 64 candidate pnWin).map fun next => decide (next < 2 ^ 62) else some false
  if wraps then return candidate + pnWin
  let high ← Word.add 64 expectedPn pnHwin
  return if high < candidate ∧ pnWin ≤ candidate then candidate - pnWin else candidate

variable {pn largestAcked largestPn n : ℕ}

/-- The window of the length is four times as wide as what is not acknowledged. -/
theorem packetNumberLength_spec (hlt : largestAcked < pn) (hd : pn - largestAcked ≤ 2 ^ 30) :
    ∃ n ≤ 4, packetNumberLength pn largestAcked = some n ∧
      4 * (pn - largestAcked) ≤ 2 ^ (n * 8) := by
  have hadd : Word.add 64 (pn - largestAcked) (pn - largestAcked) = some _ :=
    Word.add_eq_some.2 ⟨by omega, rfl⟩
  rw [packetNumberLength, if_pos hlt, hadd]
  refine ⟨_, ?_, rfl, ?_⟩ <;> split_ifs <;> omega

/-- The number is found if it is at most a quarter of the window after the one expected. -/
theorem decodePacketNumber_eq (hn : n ≤ 4) (hpn : pn < 2 ^ 62) (hlt : largestPn < pn)
    (hwin : 4 * (pn - largestPn) ≤ 2 ^ (n * 8)) :
    decodePacketNumber (pn % 2 ^ (n * 8)) n largestPn = some pn := by
  have hle : 2 ^ (n * 8) ≤ 2 ^ 32 := Nat.pow_le_pow_right (by decide) (by omega)
  have hadd (a b : ℕ) (h : a + b ≤ 2 ^ 63) : Word.add 64 a b = some (a + b) :=
    Word.add_eq_some.2 ⟨by omega, rfl⟩
  have hmask := Word.and_complement (w := 64) (k := n * 8) (x := largestPn + 1) (by omega)
    (by omega)
  have hor := Nat.two_pow_add_eq_or_of_lt (Nat.mod_lt pn (Nat.two_pow_pos (n * 8)))
    ((largestPn + 1) / 2 ^ (n * 8))
  rw [decodePacketNumber, guard, if_pos (by omega), hadd _ _ (by omega)]
  simp only [Option.bind_eq_bind, Option.pure_def, Option.bind_some]
  rw [hmask, Nat.mul_comm, ← hor]
  generalize 2 ^ (n * 8) = win at *
  -- The number is in the window of the one expected, or in the next one.
  have hnum := Nat.div_add_mod pn win
  have hge := Nat.div_le_div_right (c := win) (show largestPn + 1 ≤ pn from hlt)
  have hnext : pn / win ≤ (largestPn + 1) / win + 1 := by
    rw [← Nat.add_div_right _ (by omega)]
    exact Nat.div_le_div_right (by omega)
  obtain hq | hq : pn / win = (largestPn + 1) / win ∨ pn / win = (largestPn + 1) / win + 1 := by
    omega
  · have hbelow : ¬ pn + win / 2 ≤ largestPn + 1 := by omega
    have hhigh : ¬ (largestPn + 1 + win / 2 < pn ∧ win ≤ pn) := by omega
    rw [← hq, hnum, hadd pn _ (by omega), Option.bind_some, if_neg hbelow, hadd _ _ (by omega)]
    exact congrArg some (if_neg hhigh)
  · rw [hq, Nat.mul_succ] at hnum
    generalize win * ((largestPn + 1) / win) = low at *
    have hbelow : low + pn % win + win / 2 ≤ largestPn + 1 := by omega
    rw [hadd _ _ (by omega), Option.bind_some, if_pos hbelow, hadd _ _ (by omega)]
    refine (if_pos (decide_eq_true ?_)).trans (congrArg some ?_) <;> omega

/-- The number that was sent is found by a receiver whose largest one is not before the largest
    one acknowledged. -/
theorem decode_encodePacketNumber (hpn : pn < 2 ^ 62) (hlt : largestAcked < pn)
    (hd : pn - largestAcked ≤ 2 ^ 30) (hge : largestAcked ≤ largestPn) (hle : largestPn ≤ pn - 1)
    (buf : List UInt8) :
    ∃ res buf', encodePacketNumber pn largestAcked buf = some (res, buf') ∧
      (res = .error .bufferTooSmall ∧ buf.length < 4 ∨ ∃ n truncated, res = .ok (n, n) ∧
        readPacketNumber buf' n = .ok truncated ∧
        decodePacketNumber truncated n largestPn = some pn) := by
  obtain ⟨n, hn, hlen, hwin⟩ := packetNumberLength_spec hlt hd
  rw [encodePacketNumber, hlen]
  by_cases hbuf : buf.length < n
  · exact ⟨_, _, if_pos hbuf, .inl ⟨rfl, hbuf.trans_le hn⟩⟩
  · refine ⟨_, _, if_neg hbuf, .inr ⟨n, pn % 2 ^ (n * 8), rfl, ?_,
      decodePacketNumber_eq hn hpn (by omega) (by omega)⟩⟩
    have hpow : 2 ^ (n * 8) ≤ 2 ^ 32 := Nat.pow_le_pow_right (by decide) (by omega)
    have hmod := Nat.mod_lt pn (Nat.two_pow_pos (n * 8))
    have hbytes : pn % 2 ^ (n * 8) < 256 ^ n := by
      rwa [show 256 = 2 ^ 8 from rfl, ← pow_mul, Nat.mul_comm 8]
    rw [readPacketNumber, if_neg (by simp), take_left' length_beBytes,
      Nat.and_two_pow_sub_one_eq_mod, beVal_beBytes hbytes, Nat.mod_eq_of_lt (by omega)]

/-- The low byte has wrapped around. -/
theorem decode_encodePacketNumber_wrapped :
    ∃ buf' n truncated, encodePacketNumber 0x102 0xFE [0, 0, 0, 0] = some (.ok (n, n), buf') ∧
      readPacketNumber buf' n = .ok truncated ∧
      decodePacketNumber truncated n 0xFF = some 0x102 := by
  obtain ⟨res, buf', henc, ⟨-, hshort⟩ | ⟨n, truncated, rfl, hread⟩⟩ :=
    decode_encodePacketNumber (show 0x102 < 2 ^ 62 by decide) (show 0xFE < 0x102 by decide)
      (by decide) (show 0xFE ≤ 0xFF by decide) (by decide) [0, 0, 0, 0]
  · exact absurd hshort (by decide)
  · exact ⟨buf', n, truncated, henc, hread⟩

end SmallAIOS.Net.Quic
