import LineairDB.Library.ReflectedCrc
import LineairDB.Recovery.Frame

/-!
# The checksum of the log

`Crc32c` of `recovery/crc32c.cpp`: the table, the hardware path, and the bit-serial division
both are meant to compute.

* `crcUpdate_eq`, `updateWithSse42_eq` — both are the bit-serial checksum.
* `crc32c_detects` — with pieces fed one after another, and bursts of at most 32 bits told apart.
-/

namespace LineairDB.Recovery

open ByteFile ReflectedCrc

variable {state : UInt32} {crc : UInt64} {b : UInt8} {bytes as bs : Bytes}

/-! ## The checksum, bit by bit -/

/-- The bits of a byte, lowest first. -/
def bitsOfByte (b : UInt8) : List Bool := (List.range 8).map b.toBitVec.getLsbD

/-- A message in the order of the checksum: each byte with its lowest bit first. -/
def bitsOf (bytes : Bytes) : List Bool := bytes.flatMap bitsOfByte

/-- The reflected checksum as a division, one bit at a time. -/
def bitSerial (state : UInt32) (bytes : Bytes) : UInt32 :=
  .ofBitVec (feed kReflectedPolynomial.toBitVec state.toBitVec (bitsOf bytes))

/-! ## The hardware path -/

/-- `_mm_crc32_u8`: one byte is divided. -/
def mmCrc32U8 (crc : UInt32) (v : UInt8) : UInt32 := bitSerial crc [v]

/-- `_mm_crc32_u64`: eight bytes, the lowest first, with the upper half of the word ignored. -/
def mmCrc32U64 (crc v : UInt64) : UInt64 := (bitSerial crc.toUInt32 (putLe 8 v.toNat)).toUInt64

/-- The first loop of `UpdateWithSse42`, with the bytes it leaves. -/
def sse42Chunks (crc : UInt64) (bytes : Bytes) : UInt64 × Bytes :=
  if 8 ≤ bytes.length then
    let chunk := UInt64.ofNat (getLe (bytes.take 8))
    sse42Chunks (mmCrc32U64 crc chunk) (bytes.drop 8)
  else (crc, bytes)
termination_by bytes.length

/-- Eight bytes at a time, then the rest. -/
def updateWithSse42 (state : UInt32) (bytes : Bytes) : UInt32 :=
  let (crc, rest) := sse42Chunks state.toUInt64 bytes
  (rest.foldl (fun crc b => (mmCrc32U8 crc.toUInt32 b).toUInt64) crc).toUInt32

/-- `Crc32c::Update` on a processor with or without the instruction. -/
def Crc32c.update (hasSse42 : Bool) (state : UInt32) (bytes : Bytes) : UInt32 :=
  if hasSse42 then updateWithSse42 state bytes else crcUpdate state bytes

/-- The checksum of some bytes. -/
def computeCrc32c (hasSse42 : Bool) (bytes : Bytes) : UInt32 :=
  crcFinish (Crc32c.update hasSse42 crcInit bytes)

/-! ## The table -/

theorem toBitVec_tableBit (entry : UInt32) :
    (tableBit entry).toBitVec = shift kReflectedPolynomial.toBitVec entry.toBitVec := by
  have hbit : entry &&& 1 = 0 ↔ entry.toBitVec.getLsbD 0 = false := by
    simp [← UInt32.toNat_inj, BitVec.getLsbD, Nat.and_one_is_mod]
  by_cases h : entry &&& 1 = 0
  · rw [tableBit, shift, if_pos h, hbit.mp h]
    rfl
  · rw [tableBit, shift, if_neg h, Bool.of_not_eq_false (mt hbit.mpr h)]
    rfl

theorem toBitVec_kTable (i : UInt32) :
    (kTable i).toBitVec = (shift kReflectedPolynomial.toBitVec)^[8] i.toBitVec := by
  simp only [kTable, Nat.repeat, toBitVec_tableBit, Function.iterate_succ_apply',
    Function.iterate_zero_apply]

theorem word_bitsOfByte : word 32 (bitsOfByte b) = b.toUInt32.toBitVec := by
  refine BitVec.eq_of_getLsbD_eq fun i hi => ?_
  rw [getLsbD_word hi, bitsOfByte]
  by_cases h : i < 8
  · simp [h, hi]
  · simp [h, hi, BitVec.getLsbD_of_ge b.toBitVec i (by omega)]

/-- One look into the table is eight places of the register. -/
theorem toBitVec_updateByte : (updateByte state b).toBitVec =
    feed kReflectedPolynomial.toBitVec state.toBitVec (bitsOfByte b) := by
  have hmask (i : ℕ) : (255#32).getLsbD i = decide (i < 8) := by
    by_cases h : i < 32
    · decide +revert
    · rw [BitVec.getLsbD_of_ge _ _ (by omega), decide_eq_false (by omega)]
  -- The byte reaches only the lowest eight places.
  have hshift : state.toBitVec >>> 8 = (state.toBitVec ^^^ b.toUInt32.toBitVec) >>> 8 := by
    refine BitVec.eq_of_getLsbD_eq fun i hi => ?_
    simp
  rw [feed_eq_iterate (by simp [bitsOfByte]), word_bitsOfByte, updateByte, UInt32.toBitVec_xor,
    toBitVec_kTable]
  refine .trans (congrArg _ hshift) (iterate_shift_eq (fun i hi => ?_) fun i hi => ?_).symm <;>
    simp [hmask, hi, -BitVec.getLsbD_eq_getElem]

theorem crcUpdate_eq (state : UInt32) (bytes : Bytes) :
    crcUpdate state bytes = bitSerial state bytes := by
  induction bytes generalizing state with
  | nil => rfl
  | cons b bytes ih =>
    calc crcUpdate state (b :: bytes) = bitSerial (updateByte state b) bytes := ih _
      _ = bitSerial state (b :: bytes) := by
        rw [bitSerial, toBitVec_updateByte, ← feed_append]; rfl

/-! ## The words -/

theorem putLe_chunk (h : bs.length = 8) : putLe 8 (UInt64.ofNat (getLe bs)).toNat = bs := by
  have hlt : getLe bs < 256 ^ 8 := h ▸ getLe_lt bs
  rw [UInt64.toNat_ofNat_of_lt' hlt, ← h, putLe_getLe]

theorem crcUpdate_sse42Chunks (crc : UInt64) (bytes : Bytes) :
    crcUpdate (sse42Chunks crc bytes).1.toUInt32 (sse42Chunks crc bytes).2 =
      crcUpdate crc.toUInt32 bytes := by
  fun_induction sse42Chunks crc bytes with
  | case1 crc bytes hlen chunk ih =>
    have hchunk : putLe 8 chunk.toNat = bytes.take 8 := putLe_chunk (by simpa using hlen)
    rw [ih, mmCrc32U64, hchunk, ← crcUpdate_eq, UInt32.toUInt32_toUInt64, ← crcUpdate_append,
      List.take_append_drop]
  | case2 => rfl

theorem crcUpdate_sse42Bytes (crc : UInt64) (bytes : Bytes) :
    (bytes.foldl (fun crc b => (mmCrc32U8 crc.toUInt32 b).toUInt64) crc).toUInt32 =
      crcUpdate crc.toUInt32 bytes := by
  induction bytes generalizing crc with
  | nil => rfl
  | cons b bytes ih =>
    rw [List.foldl_cons, ih, mmCrc32U8, ← crcUpdate_eq, UInt32.toUInt32_toUInt64,
      ← crcUpdate_append, List.singleton_append]

theorem updateWithSse42_eq (state : UInt32) (bytes : Bytes) :
    updateWithSse42 state bytes = bitSerial state bytes := by
  refine (crcUpdate_sse42Bytes ..).trans ?_
  rw [crcUpdate_sse42Chunks, UInt32.toUInt32_toUInt64, crcUpdate_eq]

theorem Crc32c.update_eq (hasSse42 : Bool) : Crc32c.update hasSse42 = crcUpdate := by
  funext state bytes
  cases hasSse42 <;> simp [Crc32c.update, updateWithSse42_eq, crcUpdate_eq]

/-! ## Bursts -/

theorem length_bitsOf : (bitsOf bytes).length = bytes.length * 8 := by
  simp [bitsOf, bitsOfByte]

theorem bitsOfByte_injective : Function.Injective bitsOfByte := fun a b h => by
  refine UInt8.toBitVec_inj.mp (BitVec.eq_of_getLsbD_eq fun i hi => ?_)
  simpa [bitsOfByte, hi] using congrArg (·[i]?) h

theorem bitsOf_injective (hlen : as.length = bs.length) (h : bitsOf as = bitsOf bs) : as = bs := by
  induction as generalizing bs with
  | nil => exact (List.eq_nil_of_length_eq_zero hlen.symm).symm
  | cons a as ih =>
    cases bs with
    | nil => cases hlen
    | cons b bs =>
      obtain ⟨hbyte, hrest⟩ := List.append_inj h (by simp [bitsOfByte])
      rw [bitsOfByte_injective hbyte, ih (by simpa using hlen) hrest]

theorem crc32c_detects :
    (∀ state bytes, crcUpdate state bytes = bitSerial state bytes) ∧
    (∀ state bytes, updateWithSse42 state bytes = bitSerial state bytes) ∧
    (∀ hasSse42 state (pieces : List Bytes),
      pieces.foldl (Crc32c.update hasSse42) state = Crc32c.update hasSse42 state pieces.flatten) ∧
    ∀ hasSse42 (as bs : Bytes) k, as.length = bs.length → as ≠ bs →
      (∀ i, i < k ∨ k + 32 ≤ i → (bitsOf as)[i]? = (bitsOf bs)[i]?) →
      computeCrc32c hasSse42 as ≠ computeCrc32c hasSse42 bs := by
  refine ⟨crcUpdate_eq, updateWithSse42_eq, fun hasSse42 state pieces => ?_,
    fun hasSse42 as bs k hlen hne hout h => hne ?_⟩
  · rw [Crc32c.update_eq]
    induction pieces generalizing state with
    | nil => rfl
    | cons piece pieces ih => simp [ih]
  · rw [computeCrc32c, computeCrc32c, Crc32c.update_eq, crcUpdate_eq, crcUpdate_eq] at h
    have hfeed : bitSerial crcInit as = bitSerial crcInit bs := by simpa [crcFinish] using h
    exact bitsOf_injective hlen (feed_window (by decide) (by simp [length_bitsOf, hlen]) hout
      (congrArg UInt32.toBitVec hfeed))

/-- Two messages of one byte, a burst of two bits apart. -/
theorem crc32c_detects_one_two : computeCrc32c true [1] ≠ computeCrc32c true [2] :=
  crc32c_detects.2.2.2 true [1] [2] 0 rfl (by decide) fun i hi => by
    have hlong (b : UInt8) : (bitsOf [b])[i]? = none := by
      rw [List.getElem?_eq_none_iff, length_bitsOf]
      simp; omega
    rw [hlong, hlong]

end LineairDB.Recovery
