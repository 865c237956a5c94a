import SmallAIOS.Fs.LittleFs.Format
import Mathlib.Data.Nat.Bitwise

/-!
# A half is read back as it was written

`parse_build`: the reader finds in a half the revision, the entries and the tail it was
written with; a half can be written of any entries that fit (`parse_build_writable`). What
follows the half in its block is erased; an erased block has no valid half (`parse_erased`).
`length_build` is the length of a half.

The reader is followed tag by tag: what one tag adds to the half, the reader takes
from it (`scan_tag`), and its running CRC is the one of the writer.
-/

namespace SmallAIOS.Fs.LittleFs

open Lib List PairEntry Nat BlockPair HalfReader

/-- The tag fits in its word, and is not taken for a CRC. -/
structure Tag.Fits (t : Tag) : Prop where
  typ_lt : t.typ < 2 ^ 11
  id_lt : t.id < 2 ^ 10
  length_lt : t.data.length < 2 ^ 10
  not_crc : t.typ / 2 ^ 8 ≠ tagType3Crc

theorem packTagWord_lt (typ id len : ℕ) : packTagWord typ id len < 2 ^ 31 := by
  rw [packTagWord]
  omega

theorem Tag.word_lt (t : Tag) : t.word < 2 ^ 31 := packTagWord_lt ..

/-- A word of a half, XORed with the previous one again. -/
theorem beVal_xor_word {w prev : ℕ} (hw : w < 2 ^ 31) (hp : prev < 2 ^ 31) :
    beVal (beBytes 4 (w ^^^ prev)) ^^^ prev = w := by
  have hlt : w ^^^ prev < 256 ^ 4 := lt_trans (xor_lt_two_pow hw hp) (by decide)
  rw [beVal_beBytes hlt, xor_xor_cancel_right]

/-! ## The reader follows the writer -/

namespace HalfReader

variable {r : HalfReader} {t : Tag} {fuel : ℕ} {rest : List UInt8}

/-- The reader after a tag that was written next. -/
def follow (r : HalfReader) (t : Tag) : HalfReader :=
  r.tag t t.word (beBytes 4 (t.word ^^^ r.prevTagWord))

theorem scan_tag (ht : t.Fits) (hp : r.prevTagWord < 2 ^ 31) :
    scan (fuel + 1) (beBytes 4 (t.word ^^^ r.prevTagWord) ++ (t.data ++ rest)) r =
      scan fuel rest (r.follow t) := by
  have htake : (beBytes 4 (t.word ^^^ r.prevTagWord) ++ (t.data ++ rest)).take 4 =
      beBytes 4 (t.word ^^^ r.prevTagWord) := take_left' length_beBytes
  have hdrop : (beBytes 4 (t.word ^^^ r.prevTagWord) ++ (t.data ++ rest)).drop 4 =
      t.data ++ rest := drop_left' length_beBytes
  have hvalid : t.word / 2 ^ 31 % 2 = 0 := by
    rw [div_eq_of_lt t.word_lt]
  have hfit : ¬(nameMax < t.data.length ∨ (t.data ++ rest).length < t.data.length) := by
    have := ht.length_lt
    rw [length_append, nameMax]
    omega
  obtain ⟨htyp, hid, hword⟩ : t.word / 2 ^ 20 % 2 ^ 11 = t.typ ∧
      t.word / 2 ^ 10 % 2 ^ 10 = t.id ∧ t.word % 2 ^ 10 = t.data.length := by
    have ⟨htyp, hid, hlen, _⟩ := ht
    rw [Tag.word, packTagWord]
    omega
  rw [scan, htake, hdrop]
  dsimp only
  rw [beVal_xor_word t.word_lt hp, if_neg (not_not.2 hvalid), htyp,
    if_neg ht.not_crc, hword, if_neg hfit, hid, take_left, drop_left]
  rfl

/-- The reader stops where the half is erased. -/
theorem scan_erased (hp : r.prevTagWord < 2 ^ 31) (n : ℕ) : scan fuel (replicate n 0xFF) r = r := by
  cases fuel with
  | zero => rfl
  | succ fuel =>
    by_cases hn : n < 4
    · rw [scan, if_pos (by rwa [length_replicate])]
    · have htake : (replicate n (0xFF : UInt8)).take 4 = replicate 4 0xFF := by
        rw [take_replicate, min_eq_left (not_lt.1 hn)]
      have hones : beVal (replicate 4 (0xFF : UInt8)) = 2 ^ 32 - 1 := by decide
      have hbit : ((2 ^ 32 - 1) ^^^ r.prevTagWord) / 2 ^ 31 % 2 ≠ 0 := by
        have htest : ((2 ^ 32 - 1) ^^^ r.prevTagWord).testBit 31 = true := by
          rw [testBit_xor, testBit_lt_two_pow hp]
          rfl
        rw [testBit_eq_decide_div_mod_eq, decide_eq_true_eq] at htest
        rw [htest]
        decide
      rw [scan, if_neg (by rwa [length_replicate]), htake]
      dsimp only
      rw [hones, if_pos hbit]

/-- The reader takes the CRC of everything before it. -/
theorem scan_crc {w crc : ℕ} (hw : w = packTagWord tagCrcNormal 0 4) (hp : r.prevTagWord < 2 ^ 31)
    (hc : crc = crc32cUpdate r.runningCrc (beBytes 4 (w ^^^ r.prevTagWord))) :
    scan (fuel + 1) (beBytes 4 (w ^^^ r.prevTagWord) ++ (leBytes 4 (crcFinal crc) ++ rest)) r =
      scan fuel rest (r.commit w (leBytes 4 (crcFinal crc))) := by
  have hlen : ¬(beBytes 4 (w ^^^ r.prevTagWord) ++ (leBytes 4 (crcFinal crc) ++ rest)).length < 4 :=
    by rw [length_append, length_beBytes]; omega
  have hlen' : ¬(leBytes 4 (crcFinal crc) ++ rest).length < 4 := by
    rw [length_append, length_leBytes]
    omega
  have hfinal : readU32Le (leBytes 4 (crcFinal crc) ++ rest) = crcFinal crc := by
    have hlt : crcFinal crc < 256 ^ 4 := lt_of_le_of_lt (sub_le ..) (by decide)
    rw [readU32Le, take_left' length_leBytes, leVal_leBytes hlt]
  have hword : beVal (beBytes 4 (w ^^^ r.prevTagWord)) ^^^ r.prevTagWord = w := by
    rw [hw]
    exact beVal_xor_word (packTagWord_lt ..) hp
  have hvalid : w / 2 ^ 31 % 2 = 0 := by rw [hw]; decide
  have htyp : w / 2 ^ 20 % 2 ^ 11 / 2 ^ 8 = tagType3Crc := by rw [hw]; decide
  have hmod : w % 2 ^ 10 = 4 := by rw [hw]; decide
  rw [scan, if_neg hlen, take_left' length_beBytes, drop_left' length_beBytes]
  dsimp only
  rw [hword, if_neg (not_not.2 hvalid), if_pos htyp, if_neg hlen', ← hc, hfinal, if_pos rfl, hmod,
    take_left' length_leBytes, drop_left' length_leBytes]

end HalfReader

/-- The bytes of tags, after a tag with the word `prev`. -/
def encodeTags : ℕ → List Tag → List UInt8
  | _, [] => []
  | prev, t :: ts => beBytes 4 (t.word ^^^ prev) ++ (t.data ++ encodeTags t.word ts)

variable {b : HalfBuilder} {r : HalfReader} {t : Tag} {ts : List Tag} {fuel : ℕ} {rest : List UInt8}
  {e : PairEntry}

theorem buf_foldl_tag (b : HalfBuilder) (ts : List Tag) :
    (ts.foldl HalfBuilder.tag b).buf = b.buf ++ encodeTags b.prevTagWord ts := by
  induction ts generalizing b with
  | nil => exact (append_nil _).symm
  | cons t ts ih =>
    rw [foldl_cons, ih, encodeTags]
    simp only [HalfBuilder.tag, HalfBuilder.word, HalfBuilder.append, append_assoc]

/-- The reader is where the writer is. -/
structure Follows (b : HalfBuilder) (r : HalfReader) : Prop where
  prev_eq : r.prevTagWord = b.prevTagWord
  crc_eq : r.runningCrc = b.runningCrc
  prev_lt : b.prevTagWord < 2 ^ 31

theorem Follows.tag (h : Follows b r) (t : Tag) : Follows (b.tag t) (r.follow t) where
  prev_eq := rfl
  crc_eq := by
    simp only [HalfBuilder.tag, HalfBuilder.word, HalfBuilder.append, HalfReader.follow,
      HalfReader.tag, h.prev_eq, h.crc_eq]
  prev_lt := t.word_lt

theorem Follows.tags (h : Follows b r) (ts : List Tag) :
    Follows (ts.foldl HalfBuilder.tag b) (ts.foldl follow r) := by
  induction ts generalizing b r with
  | nil => exact h
  | cons t ts ih => exact ih (h.tag t)

theorem scan_encodeTags (h : Follows b r) (hts : ∀ t ∈ ts, t.Fits) :
    scan (fuel + ts.length) (encodeTags b.prevTagWord ts ++ rest) r =
      scan fuel rest (ts.foldl follow r) := by
  induction ts generalizing b r with
  | nil => rfl
  | cons t ts ih =>
    have hlt : r.prevTagWord < 2 ^ 31 := h.prev_eq ▸ h.prev_lt
    rw [encodeTags, append_assoc, append_assoc, ← h.prev_eq, length_cons,
      ← add_assoc, scan_tag (hts t mem_cons_self) hlt]
    exact ih (h.tag t) fun t' ht' => hts t' (mem_cons_of_mem _ ht')

theorem view_foldl_follow (r : HalfReader) (ts : List Tag) :
    (ts.foldl follow r).view.tags = r.view.tags ++ ts ∧
      (ts.foldl follow r).view.revision = r.view.revision := by
  induction ts generalizing r with
  | nil => exact ⟨(append_nil _).symm, rfl⟩
  | cons t ts ih =>
    refine ⟨(ih _).1.trans ?_, (ih _).2⟩
    exact append_assoc ..

theorem tail_foldl_follow (r : HalfReader) (h : ∀ t ∈ ts, t.typ / 2 ^ 8 ≠ tagType3Tail) :
    (ts.foldl follow r).view.tail = r.view.tail := by
  induction ts generalizing r with
  | nil => rfl
  | cons t ts ih =>
    rw [foldl_cons, ih _ fun t' ht' => h t' (mem_cons_of_mem _ ht')]
    exact if_neg fun hc => h t mem_cons_self hc.1

/-! ## The round trip -/

/-- The entry has a name tag and a struct tag, with an id that fits in them. -/
structure PairEntry.Fits (e : PairEntry) : Prop where
  id_lt : e.id < 2 ^ 10
  typName_lt : e.typName < 2 ^ 8
  typStruct_div : e.typStruct / 2 ^ 8 = tagType3Struct

theorem PairEntry.Fits.typ_div (h : e.Fits) {t : Tag} (ht : t ∈ e.tags) :
    t.typ / 2 ^ 8 = tagType3Name ∨ t.typ / 2 ^ 8 = tagType3Struct := by
  rw [tags, mem_pair] at ht
  rcases ht with rfl | rfl
  · exact .inl (div_eq_of_lt h.typName_lt)
  · exact .inr h.typStruct_div

theorem PairEntry.Fits.tag (h : e.Fits) {t : Tag} (ht : t ∈ e.tags) (hlen : t.data.length ≤ 0x3FF) :
    t.Fits := by
  have hdiv := h.typ_div ht
  have hid : t.id = e.id := by
    rw [tags, mem_pair] at ht
    rcases ht with rfl | rfl <;> rfl
  simp only [tagType3Name, tagType3Struct] at hdiv
  refine ⟨by omega, hid ▸ h.id_lt, by omega, ?_⟩
  rw [tagType3Crc]
  omega

variable {revision : ℕ} {entries : List PairEntry} {tail : Option BlockPair} {bs : List UInt8}

theorem length_encodeTags (prev : ℕ) (ts : List Tag) :
    (encodeTags prev ts).length = (ts.map fun t => 4 + t.data.length).sum := by
  induction ts generalizing prev with
  | nil => rfl
  | cons t ts ih =>
    rw [encodeTags, length_append, length_append, length_beBytes, ih, map_cons, sum_cons, add_assoc]

/-- The word of the CRC tag after the tags that the builder has written. -/
def HalfBuilder.crcWord (b : HalfBuilder) : List UInt8 :=
  beBytes 4 (packTagWord tagCrcNormal 0 4 ^^^ b.prevTagWord)

theorem finish_eq (b : HalfBuilder) : b.finish =
    b.buf ++ (b.crcWord ++ leBytes 4 (crcFinal (crc32cUpdate b.runningCrc b.crcWord))) :=
  append_assoc ..

/-- The bytes of a half: the revision, the tags, and the CRC of all of it. -/
theorem build_eq_some (h : buildMetadataHalf revision entries tail = some bs) :
    (∀ t ∈ halfTags entries tail, t.data.length ≤ 0x3FF) ∧
      bs = ((halfTags entries tail).foldl HalfBuilder.tag (.start revision)).finish := by
  rw [buildMetadataHalf] at h
  split_ifs at h with hlen
  exact ⟨hlen, (Option.some.inj h).symm⟩

/-- A half is as long as its tags, with a revision and a CRC. -/
theorem length_build (h : buildMetadataHalf revision entries tail = some bs) :
    bs.length = 12 + ((halfTags entries tail).map fun t => 4 + t.data.length).sum := by
  rw [(build_eq_some h).2, finish_eq, buf_foldl_tag]
  simp only [length_append, length_leBytes, HalfBuilder.crcWord, length_beBytes,
    length_encodeTags, HalfBuilder.start]
  omega

theorem halfTags_fits (hentries : ∀ e ∈ entries, e.Fits)
    (hlen : ∀ t ∈ halfTags entries tail, t.data.length ≤ 0x3FF) :
    ∀ t ∈ halfTags entries tail, t.Fits := by
  intro t ht
  have hle := hlen t ht
  rcases mem_append.1 ht with ht | ht
  · obtain ⟨e, he, ht⟩ := mem_flatMap.1 ht
    exact (hentries e he).tag ht hle
  · obtain ⟨p, -, rfl⟩ := Option.map_eq_some_iff.1 (Option.mem_toList.1 ht)
    have htyp : (tailTag p).typ = 0x600 := rfl
    exact ⟨by rw [htyp]; decide, Nat.two_pow_pos 10, by omega, by rw [htyp]; decide⟩

theorem length_halfTags_le (entries : List PairEntry) (tail : Option BlockPair) :
    (halfTags entries tail).length ≤ 2 * entries.length + 1 := by
  have hflat : (entries.flatMap tags).length = 2 * entries.length := by
    simp [tags, mul_comm]
  rw [halfTags, length_append, hflat]
  cases tail <;> simp

/-- The reader takes the CRC that ends the half, and stops after it. -/
theorem scan_finish (hf : Follows b r) (n : ℕ) : scan (fuel + 1) (b.crcWord ++
      (leBytes 4 (crcFinal (crc32cUpdate b.runningCrc b.crcWord)) ++ replicate n 0xFF)) r =
    r.commit (packTagWord tagCrcNormal 0 4)
      (leBytes 4 (crcFinal (crc32cUpdate b.runningCrc b.crcWord))) := by
  have hprev : r.prevTagWord < 2 ^ 31 := hf.prev_eq ▸ hf.prev_lt
  have hword : b.crcWord = beBytes 4 (packTagWord tagCrcNormal 0 4 ^^^ r.prevTagWord) := by
    rw [hf.prev_eq]
    rfl
  rw [hword, scan_crc rfl hprev (by rw [hf.crc_eq]), scan_erased (packTagWord_lt ..)]

theorem ofBytes_toBytes {p : BlockPair} (h : p.1 < 2 ^ 32 ∧ p.2 < 2 ^ 32) :
    ofBytes p.toBytes = p := by
  simp only [ofBytes, toBytes, readU32Le, take_left' length_leBytes,
    drop_left' length_leBytes, take_of_length_le length_leBytes.le]
  rw [leVal_leBytes (by omega), leVal_leBytes (by omega)]

/-- The tail the reader has found after the tags of a half. -/
theorem tail_halfTags (hentries : ∀ e ∈ entries, e.Fits)
    (htail : ∀ p ∈ tail, p.1 < 2 ^ 32 ∧ p.2 < 2 ^ 32) (hr : r.view.tail = none) :
    ((halfTags entries tail).foldl follow r).view.tail = tail := by
  have hflat : ((entries.flatMap tags).foldl follow r).view.tail = none := by
    rw [tail_foldl_follow, hr]
    intro t ht
    obtain ⟨e, he, ht⟩ := mem_flatMap.1 ht
    rcases (hentries e he).typ_div ht with hdiv | hdiv <;> rw [hdiv] <;> decide
  rw [halfTags, foldl_append]
  cases tail with
  | none => exact hflat
  | some p =>
    have htyp : (tailTag p).typ / 2 ^ 8 = tagType3Tail := by
      rw [show (tailTag p).typ = 0x600 from rfl]
      decide
    have hlen : (tailTag p).data.length = 8 := by simp [tailTag, toBytes]
    exact (if_pos ⟨htyp, hlen⟩).trans (congrArg some (ofBytes_toBytes (htail p rfl)))

/-- The reader finds in a half what it was written with. -/
theorem parse_build (h : buildMetadataHalf revision entries tail = some bs)
    (hrev : revision < 2 ^ 32) (hentries : ∀ e ∈ entries, e.Fits)
    (hcount : 2 * entries.length + 2 ≤ maxTagsPerHalf)
    (htail : ∀ p ∈ tail, p.1 < 2 ^ 32 ∧ p.2 < 2 ^ 32) (n : ℕ) :
    parseMetadataHalf (bs ++ replicate n 0xFF) = ⟨revision, true, halfTags entries tail, tail⟩ := by
  obtain ⟨hlen, rfl⟩ := build_eq_some h
  have hnum := length_halfTags_le entries tail
  obtain ⟨k, hk⟩ : ∃ k, maxTagsPerHalf = k + 1 + (halfTags entries tail).length :=
    ⟨maxTagsPerHalf - 1 - (halfTags entries tail).length, by omega⟩
  -- The reader starts after the revision, where the writer did.
  let r0 : HalfReader :=
    ⟨{ revision := revision }, crc32cUpdate crcInit (leBytes 4 revision), 0, 0⟩
  have hfollows : Follows (.start revision) r0 := ⟨rfl, rfl, Nat.two_pow_pos 31⟩
  generalize hb : (halfTags entries tail).foldl HalfBuilder.tag (.start revision) = b
  have hf : Follows b ((halfTags entries tail).foldl follow r0) :=
    hb ▸ hfollows.tags _
  have hbuf : b.buf = leBytes 4 revision ++ encodeTags 0 (halfTags entries tail) := by
    rw [← hb]
    exact buf_foldl_tag ..
  have hlong : ¬(b.finish ++ replicate n 0xFF).length < 8 := by
    rw [finish_eq, hbuf]
    simp only [length_append, length_leBytes]
    omega
  rw [parseMetadataHalf, if_neg hlong, finish_eq, hbuf, readU32Le]
  simp only [append_assoc, take_left' length_leBytes]
  rw [leVal_leBytes (by omega), hk]
  have hfits := halfTags_fits hentries hlen
  refine (congrArg finish ((scan_encodeTags hfollows hfits).trans (scan_finish hf n))).trans ?_
  have hview := view_foldl_follow r0 (halfTags entries tail)
  have htags : ((halfTags entries tail).foldl follow r0).view.tags =
      halfTags entries tail := hview.1
  have hrevision : ((halfTags entries tail).foldl follow r0).view.revision =
      revision := hview.2
  simp only [finish, commit, take_length, htags, hrevision,
    tail_halfTags hentries htail (r := r0) rfl]

/-- An entry with type codes of the writer, whose id and payloads fit in its tags. -/
structure PairEntry.Writable (e : PairEntry) : Prop where
  typName : e.typName = tagNameReg ∨ e.typName = tagNameDir ∨ e.typName = tagNameSuperblock
  typStruct : e.typStruct = tagStructDir ∨ e.typStruct = tagStructInline ∨
    e.typStruct = tagStructCtz
  id_lt : e.id < 2 ^ 10
  length_name : e.name.length ≤ 1023
  length_payload : e.structPayload.length ≤ 1023

theorem PairEntry.Writable.fits (h : e.Writable) : e.Fits where
  id_lt := h.id_lt
  typName_lt := by
    rcases h.typName with h | h | h <;> rw [h] <;> decide
  typStruct_div := by
    rcases h.typStruct with h | h | h <;> rw [h] <;> decide

/-- Whatever the entries and the tail, a half is written, and read back as it was written. -/
theorem parse_build_writable (hrev : revision < 2 ^ 32) (hcount : entries.length ≤ 2000)
    (hentries : ∀ e ∈ entries, e.Writable) (htail : ∀ p ∈ tail, p.1 < 2 ^ 32 ∧ p.2 < 2 ^ 32) :
    ∃ bs, buildMetadataHalf revision entries tail = some bs ∧
      ∀ n, parseMetadataHalf (bs ++ replicate n 0xFF) =
        ⟨revision, true, entries.flatMap tags ++ (tail.map tailTag).toList, tail⟩ := by
  have hlen : ∀ t ∈ halfTags entries tail, t.data.length ≤ 0x3FF := by
    intro t ht
    rcases mem_append.1 ht with ht | ht
    · obtain ⟨e, he, ht⟩ := mem_flatMap.1 ht
      rw [tags, mem_pair] at ht
      rcases ht with rfl | rfl
      · exact (hentries e he).length_name
      · exact (hentries e he).length_payload
    · obtain ⟨p, -, rfl⟩ := Option.map_eq_some_iff.1 (Option.mem_toList.1 ht)
      simp [tailTag, toBytes]
  have hbuild : buildMetadataHalf revision entries tail = some _ := if_pos hlen
  refine ⟨_, hbuild, parse_build hbuild hrev (fun e he => (hentries e he).fits) ?_ htail⟩
  rw [maxTagsPerHalf]
  omega

theorem parse_build_writable_file : ∃ bs,
    buildMetadataHalf 7 [⟨3, tagNameReg, [97], tagStructInline, [1, 2]⟩] (some (4, 5)) = some bs ∧
      ∀ n, parseMetadataHalf (bs ++ replicate n 0xFF) = ⟨7, true,
        [⟨tagNameReg, 3, [97]⟩, ⟨tagStructInline, 3, [1, 2]⟩, tailTag (4, 5)], some (4, 5)⟩ :=
  parse_build_writable (by decide) (by decide)
    (forall_mem_singleton.2 ⟨by decide, by decide, by decide, by decide, by decide⟩) (by decide)

/-- An erased block has no valid half. -/
theorem parse_erased (n : ℕ) : (parseMetadataHalf (replicate n 0xFF)).valid = false := by
  rw [parseMetadataHalf]
  split_ifs
  · rfl
  · rw [drop_replicate, scan_erased (Nat.two_pow_pos 31)]
    rfl

end SmallAIOS.Fs.LittleFs
