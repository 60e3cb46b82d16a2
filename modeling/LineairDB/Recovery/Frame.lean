import LineairDB.Library.ByteFile
import LineairDB.Types

/-!
# WAL frames

The records the log holds, the checksum that guards a frame, and the bytes a
frame is made of: a twenty-byte header (magic, version, flags, payload
length, epoch, checksum) and the packed records of one epoch.

* `parseHeader_frameHeader` — the header of a frame is read back.
* `frameCrc_frameHeader` — a frame satisfies its own checksum.
-/

namespace LineairDB.Recovery

open ByteFile

/-! ## Records -/

/-- One key-value write, as it is persisted. -/
structure KeyValuePair where
  key : Bytes
  buffer : Bytes
  tid : TransactionId
  tableName : Bytes
  indexName : Bytes
  indexType : UInt32
  primaryKeys : List Bytes
  secondaryOp : UInt8
  secondaryPrimaryKey : Bytes
  deriving Repr, DecidableEq

/-- An epoch-tagged group of key-value writes. -/
structure LogRecord where
  epoch : EpochNumber
  keyValuePairs : List KeyValuePair
  deriving Repr, DecidableEq

/-- The records of a log. -/
abbrev LogRecords := List LogRecord

/-- What unpacking may throw: an exception with a message, or anything else. -/
inductive DecodeError where
  | exception (what : String)
  | unknown
  deriving Repr, DecidableEq

/-- The serialiser the log relies on. Unpacking reports the records and the
number of bytes it consumed. -/
structure Msgpack where
  pack : LogRecords → Bytes
  unpack : Bytes → Except DecodeError (LogRecords × ℕ)

/-- Unpacking what was packed returns the same records and consumes exactly
the packed bytes. -/
def Msgpack.RoundTrips (mp : Msgpack) (records : LogRecords) : Prop :=
  mp.unpack (mp.pack records) = .ok (records, (mp.pack records).length)

instance (mp : Msgpack) (records : LogRecords) : Decidable (mp.RoundTrips records) :=
  match h : mp.unpack (mp.pack records) with
  | .error _ => isFalse (by simp [Msgpack.RoundTrips, h])
  | .ok r =>
    decidable_of_iff (r = (records, (mp.pack records).length)) (by simp [Msgpack.RoundTrips, h])

/-! ## CRC-32C -/

/-- The polynomial of CRC32C, lowest bit first. -/
def kReflectedPolynomial : UInt32 := 0x82f63b78

/-- One bit of a table entry. -/
def tableBit (entry : UInt32) : UInt32 :=
  (entry >>> 1) ^^^ (if entry &&& 1 = 0 then 0 else kReflectedPolynomial)

/-- Entry `i` of the checksum table. -/
def kTable (i : UInt32) : UInt32 := Nat.repeat tableBit 8 i

/-- One byte, by the table. -/
def updateByte (state : UInt32) (b : UInt8) : UInt32 :=
  kTable ((state ^^^ b.toUInt32) &&& 0xff) ^^^ (state >>> 8)

/-- Feed `bytes` to a running checksum. -/
def crcUpdate (state : UInt32) (bytes : Bytes) : UInt32 := bytes.foldl updateByte state

/-- The register at the start. -/
def crcInit : UInt32 := 0xffffffff

/-- The register at the end. -/
def crcFinish (state : UInt32) : UInt32 := state ^^^ 0xffffffff

@[simp] theorem crcUpdate_append (state : UInt32) (as bs : Bytes) :
    crcUpdate state (as ++ bs) = crcUpdate (crcUpdate state as) bs := by
  simp [crcUpdate]

/-! ## Constants of the format -/

/-- What every frame starts with. -/
def kMagic : ℕ := 0x4c57414c
/-- The version of the format. -/
def kVersion : ℕ := 1
/-- No flag is defined. -/
def kFlags : ℕ := 0
/-- The bytes of a header. -/
def kHeaderSize : ℕ := 20
/-- The bytes a payload may have. -/
def kMaxPayloadSize : ℕ := 256 * 1024 * 1024

/-- The constant fields that open every frame. -/
def frameConstants : Bytes := putLe 4 kMagic ++ putLe 2 kVersion ++ putLe 2 kFlags

/-! ## Headers -/

/-- The fields of a header, as the scan reads them. -/
structure Header where
  magic : ℕ
  version : ℕ
  flags : ℕ
  payloadSize : ℕ
  epoch : EpochNumber
  storedCrc : UInt32
  deriving Repr, DecidableEq

/-- The little-endian number in `width` bytes of `header` from `i` on. -/
def getLeAt (header : Bytes) (i width : ℕ) : ℕ := getLe (slice header i width)

/-- The fields of a header. -/
def parseHeader (header : Bytes) : Header where
  magic := getLeAt header 0 4
  version := getLeAt header 4 2
  flags := getLeAt header 6 2
  payloadSize := getLeAt header 8 4
  epoch := UInt32.ofNat (getLeAt header 12 4)
  storedCrc := UInt32.ofNat (getLeAt header 16 4)

/-- The checksum of a frame covers the first sixteen bytes of its header and
its payload. -/
def frameCrc (header payload : Bytes) : UInt32 :=
  crcFinish (crcUpdate (crcUpdate crcInit (header.take 16)) payload)

/-- The part of a header the checksum covers. -/
def frameHead (epoch : EpochNumber) (payload : Bytes) : Bytes :=
  frameConstants ++ putLe 4 payload.length ++ putLe 4 epoch.toNat

/-- The header of a frame. -/
def frameHeader (epoch : EpochNumber) (payload : Bytes) : Bytes :=
  frameHead epoch payload ++ putLe 4 (frameCrc (frameHead epoch payload) payload).toNat

/-- A whole frame, as `AppendGroup` lays it out. -/
def encodeFrame (epoch : EpochNumber) (payload : Bytes) : Bytes :=
  frameHeader epoch payload ++ payload

@[simp] theorem length_frameConstants : frameConstants.length = 8 := rfl

section

variable (epoch : EpochNumber) (payload : Bytes)

include epoch payload

@[simp] theorem length_frameHead : (frameHead epoch payload).length = 16 := by
  simp [frameHead]

@[simp] theorem length_frameHeader : (frameHeader epoch payload).length = kHeaderSize := by
  simp [frameHeader, kHeaderSize]

@[simp] theorem length_encodeFrame :
    (encodeFrame epoch payload).length = kHeaderSize + payload.length := by
  simp [encodeFrame]

theorem slice_encodeFrame_header :
    slice (encodeFrame epoch payload) 0 kHeaderSize = frameHeader epoch payload := by
  rw [encodeFrame, slice_append_left (by simp), ← length_frameHeader epoch payload,
    slice_zero_length]

theorem slice_encodeFrame_payload :
    slice (encodeFrame epoch payload) kHeaderSize payload.length = payload := by
  rw [encodeFrame, ← List.append_nil (frameHeader epoch payload ++ payload)]
  exact slice_middle (length_frameHeader epoch payload) rfl

theorem take_frameHeader : (frameHeader epoch payload).take 16 = frameHead epoch payload := by
  rw [frameHeader, ← length_frameHead epoch payload, List.take_left]

/-- **An encoded frame satisfies its own checksum.** -/
theorem frameCrc_frameHeader :
    frameCrc (frameHeader epoch payload) payload = frameCrc (frameHead epoch payload) payload := by
  unfold frameCrc
  rw [take_frameHeader, ← length_frameHead epoch payload, List.take_length]

end

/-- **The header of an encoded frame** reads back as the format's constants,
the length and epoch it was written with, and the frame's checksum. -/
theorem parseHeader_frameHeader (epoch : EpochNumber) {payload : Bytes}
    (h : payload.length ≤ kMaxPayloadSize) :
    parseHeader (frameHeader epoch payload) =
      { magic := kMagic, version := kVersion, flags := kFlags, payloadSize := payload.length
        epoch := epoch, storedCrc := frameCrc (frameHeader epoch payload) payload } := by
  have hlen : payload.length < 256 ^ 4 := Nat.lt_of_le_of_lt h (by decide)
  have hepoch : epoch.toNat < 256 ^ 4 := epoch.toNat_lt
  have hcrc := (frameCrc (frameHead epoch payload) payload).toNat_lt
  -- the header as one list, so that every field is a literal slice of it
  obtain ⟨l, hl⟩ : ∃ l, l = putLe 4 payload.length := ⟨_, rfl⟩
  obtain ⟨e, he⟩ : ∃ e, e = putLe 4 epoch.toNat := ⟨_, rfl⟩
  obtain ⟨c, hc⟩ : ∃ c, c = putLe 4 (frameCrc (frameHead epoch payload) payload).toNat :=
    ⟨_, rfl⟩
  have hll : l.length = 4 := by rw [hl]; simp
  have hle : e.length = 4 := by rw [he]; simp
  have hlc : c.length = 4 := by rw [hc]; simp
  have hform : frameHeader epoch payload = frameConstants ++ l ++ e ++ c := by
    rw [frameHeader, frameHead, hl, he, hc, frameHead]
  have s8 : slice (frameConstants ++ l ++ e ++ c) 8 4 = l := by
    rw [List.append_assoc]
    exact slice_middle length_frameConstants hll
  have s12 : slice (frameConstants ++ l ++ e ++ c) 12 4 = e :=
    slice_middle (by simp [hll]) hle
  have s16 : slice (frameConstants ++ l ++ e ++ c) 16 4 = c := by
    rw [← List.append_nil (frameConstants ++ l ++ e ++ c)]
    exact slice_middle (by simp [hll, hle]) hlc
  have s0 : ∀ i n, i + n ≤ 8 →
      slice (frameConstants ++ l ++ e ++ c) i n = slice frameConstants i n := by
    intro i n hin
    rw [List.append_assoc, List.append_assoc, slice_append_left (by simpa using hin)]
  rw [frameCrc_frameHeader]
  simp only [parseHeader, getLeAt, hform, s8, s12, s16, s0 0 4 (by omega), s0 4 2 (by omega),
    s0 6 2 (by omega), Header.mk.injEq]
  refine ⟨by decide, by decide, by decide, ?_, ?_, ?_⟩
  · rw [hl, getLe_putLe hlen]
  · rw [he, getLe_putLe hepoch, UInt32.ofNat_toNat]
  · rw [hc, getLe_putLe hcrc, UInt32.ofNat_toNat]
/-- A field of a header is the numeral of the number it reads as. -/
theorem slice_eq_putLe {header : Bytes} {i width : ℕ} (h : i + width ≤ header.length) :
    slice header i width = putLe width (getLeAt header i width) := by
  have hlen := length_slice_of_le h
  rw [getLeAt]
  conv_lhs => rw [← putLe_getLe (slice header i width), hlen]

/-- **A header with the format's constants and a checksum that holds is the
header of a frame.** -/
theorem eq_frameHeader_of_parse {header payload : Bytes} (hlen : header.length = kHeaderSize)
    (hmagic : (parseHeader header).magic = kMagic)
    (hversion : (parseHeader header).version = kVersion)
    (hflags : (parseHeader header).flags = kFlags)
    (hsize : (parseHeader header).payloadSize = payload.length)
    (hcrc : frameCrc header payload = (parseHeader header).storedCrc) :
    header = frameHeader (parseHeader header).epoch payload := by
  have hlen20 : header.length = 20 := hlen
  have field : ∀ i width, i + width ≤ 20 →
      slice header i width = putLe width (getLeAt header i width) := fun i width h =>
    slice_eq_putLe (by omega)
  have hword : ∀ i, i + 4 ≤ 20 → (UInt32.ofNat (getLeAt header i 4)).toNat
      = getLeAt header i 4 := by
    intro i hi
    have := getLe_lt (slice header i 4)
    rw [length_slice_of_le (by omega)] at this
    exact UInt32.toNat_ofNat_of_lt this
  -- the checksummed part, field by field
  have hhead : header.take 16 = frameHead (parseHeader header).epoch payload := by
    have hsplit : header.take 16 = slice header 0 4 ++ slice header 4 2 ++ slice header 6 2
        ++ slice header 8 4 ++ slice header 12 4 := by
      rw [slice_add header 0 4 2, slice_add header 0 6 2, slice_add header 0 8 4,
        slice_add header 0 12 4]
      rfl
    rw [hsplit, field 0 4 (by omega), field 4 2 (by omega), field 6 2 (by omega),
      field 8 4 (by omega), field 12 4 (by omega), frameHead, frameConstants, ← hsize,
      ← hmagic, ← hversion, ← hflags]
    simp only [parseHeader, hword 12 (by omega)]
  have hstored : slice header 16 4
      = putLe 4 (frameCrc (frameHead (parseHeader header).epoch payload) payload).toNat := by
    have hcover : frameCrc (frameHead (parseHeader header).epoch payload) payload
        = frameCrc header payload := by
      unfold frameCrc
      rw [hhead, List.take_of_length_le (by simp)]
    rw [field 16 4 (by omega), hcover, hcrc]
    simp only [parseHeader, hword 16 (by omega)]
  calc header = slice header 0 16 ++ slice header 16 4 := by
        rw [slice_add header 0 16 4, slice, List.drop_zero, List.take_of_length_le (by omega)]
    _ = frameHeader (parseHeader header).epoch payload := by
        rw [hstored, frameHeader, ← hhead]
        rfl

end LineairDB.Recovery
