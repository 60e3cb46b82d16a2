import Mathlib.Data.Fintype.BigOperators
import Mathlib.Data.Nat.Bitwise
import Mathlib.Tactic.Ring

/-!
# Byte files

The contents of a file as a list of bytes, with the two operations a
positioned read and a positioned write perform on it, and little-endian
numerals of a fixed width.

* `getLe_putLe` — a numeral that fits its width is read back unchanged.
* `take_writeAt` — a write leaves every byte below its offset in place.
* `writeAt_writeAt` — two writes, one behind the other, are one.
-/

namespace ByteFile

/-- A file, or a part of one. -/
abbrev Bytes := List UInt8

variable {as bs file : Bytes} {len n off : ℕ}

/-! ## Slices -/

/-- The `len` bytes from `off` on, fewer where the file ends first. -/
def slice (bs : Bytes) (off len : ℕ) : Bytes := (bs.drop off).take len

/-- A run of `n` zero bytes. -/
def zeros (n : ℕ) : Bytes := List.replicate n 0

@[simp] theorem length_zeros (n : ℕ) : (zeros n).length = n := by simp [zeros]

@[simp] theorem length_slice (bs : Bytes) (off len : ℕ) :
    (slice bs off len).length = min len (bs.length - off) := by
  simp [slice]

theorem length_slice_of_le (h : off + len ≤ bs.length) : (slice bs off len).length = len := by
  rw [length_slice]; omega

theorem getElem?_slice (bs : Bytes) (off len i : ℕ) :
    (slice bs off len)[i]? = if i < len then bs[off + i]? else none := by
  simp [slice, List.getElem?_take]

theorem slice_append_left (h : off + len ≤ as.length) :
    slice (as ++ bs) off len = slice as off len := by
  rw [slice, List.drop_append_of_le_length (by omega),
    List.take_append_of_le_length (by simp; omega), slice]

theorem slice_append_right (as bs : Bytes) (off len : ℕ) :
    slice (as ++ bs) (as.length + off) len = slice bs off len := by
  rw [slice, slice, ← List.drop_drop, List.drop_left]

/-- The middle of three pieces is the slice at the first one's length. -/
theorem slice_middle {cs : Bytes} (ha : as.length = off) (hb : bs.length = len) :
    slice (as ++ bs ++ cs) off len = bs := by
  subst ha hb
  rw [slice, List.append_assoc, List.drop_left, List.take_left]

theorem slice_zero_length (bs : Bytes) : slice bs 0 bs.length = bs := by
  simp [slice]

/-- A slice of a prefix that lies inside it is the slice of the whole file. -/
theorem slice_take (h : off + len ≤ n) : slice (bs.take n) off len = slice bs off len := by
  simp only [slice, List.drop_take, List.take_take]
  congr 1
  omega

theorem slice_slice {a : ℕ} (h : a + n ≤ len) :
    slice (slice bs off len) a n = slice bs (off + a) n := by
  simp only [slice, List.drop_take, List.drop_drop, List.take_take]
  congr 1
  omega

/-- Reading on from where a first read stopped. -/
theorem slice_add (bs : Bytes) (off m n : ℕ) :
    slice bs off m ++ slice bs (off + m) n = slice bs off (m + n) := by
  simp only [slice, ← List.drop_drop]
  rw [List.take_add]

/-- Reading on from where a read of at most `m` bytes came to stop. -/
theorem slice_append_rest (bs : Bytes) (off : ℕ) {m size : ℕ} (h : m ≤ size) :
    slice bs off m ++ slice bs (off + (slice bs off m).length) (size - (slice bs off m).length)
      = slice bs off size := by
  have hlen := length_slice bs off m
  by_cases hm : off + m ≤ bs.length
  · rw [length_slice_of_le hm, slice_add, Nat.add_sub_cancel' h]
  · have hall : ∀ len, m ≤ len → slice bs off len = bs.drop off := fun len hle =>
      List.take_of_length_le (by simp; omega)
    have hrest : bs.drop (off + (slice bs off m).length) = [] :=
      List.drop_of_length_le (by omega)
    rw [hall size h, slice.eq_1 bs (off + _), hrest, hall m (Nat.le_refl m)]
    simp

/-- The bytes `bs` stand in the file at `off`. -/
def StandsAt (file : Bytes) (off : ℕ) (bs : Bytes) : Prop := slice file off bs.length = bs

theorem StandsAt.length_le (h : StandsAt file off bs) (hoff : off ≤ file.length) :
    off + bs.length ≤ file.length := by
  have hlen := congrArg List.length h
  rw [length_slice] at hlen
  omega

/-- A piece of what stands in the file is the piece of the file there. -/
theorem StandsAt.slice_eq {a : ℕ} (h : StandsAt file off bs) (hn : a + n ≤ bs.length) :
    slice file (off + a) n = slice bs a n := by
  rw [← slice_slice hn, h]

theorem standsAt_append :
    StandsAt file off (as ++ bs) ↔ StandsAt file off as ∧ StandsAt file (off + as.length) bs := by
  unfold StandsAt
  rw [List.length_append, ← slice_add]
  constructor
  · intro h
    have hlen : (slice file off as.length).length = as.length := by
      have hall := congrArg List.length h
      simp only [List.length_append, length_slice] at hall
      rw [length_slice]
      omega
    exact List.append_inj h hlen
  · rintro ⟨has, hbs⟩
    rw [has, hbs]

theorem standsAt_of_append (as bs cs : Bytes) : StandsAt (as ++ bs ++ cs) as.length bs :=
  slice_middle rfl rfl

/-! ## Positioned writes -/

/-- The file after `data` has been written at `off`. A write beyond the end
leaves a gap, which reads as zeroes. -/
def writeAt (bs : Bytes) (off : ℕ) (data : Bytes) : Bytes :=
  bs.take off ++ zeros (off - bs.length) ++ data ++ bs.drop (off + data.length)

theorem length_writeAt (bs : Bytes) (off : ℕ) (data : Bytes) :
    (writeAt bs off data).length = max bs.length (off + data.length) := by
  simp [writeAt]; omega

/-- **A write touches nothing below its offset.** -/
theorem take_writeAt (data : Bytes) (hn : n ≤ off) (hlen : n ≤ bs.length) :
    (writeAt bs off data).take n = bs.take n := by
  rw [writeAt, List.append_assoc, List.append_assoc,
    List.take_append_of_le_length (by simp; omega), List.take_take]
  congr 1
  omega

theorem writeAt_of_le (data : Bytes) (h : off ≤ bs.length) :
    writeAt bs off data = bs.take off ++ data ++ bs.drop (off + data.length) := by
  have h0 : off - bs.length = 0 := by omega
  simp [writeAt, h0, zeros]

theorem writeAt_nil (h : off ≤ bs.length) : writeAt bs off [] = bs := by
  rw [writeAt_of_le [] h]
  simp

/-- Consecutive writes are one write of the concatenation. -/
theorem writeAt_writeAt (bs : Bytes) (off : ℕ) (d e : Bytes) :
    writeAt (writeAt bs off d) (off + d.length) e = writeAt bs off (d ++ e) := by
  have hin : off + d.length ≤ (writeAt bs off d).length := by rw [length_writeAt]; omega
  have hl : (bs.take off ++ zeros (off - bs.length) ++ d).length = off + d.length := by
    simp; omega
  rw [writeAt_of_le e hin, writeAt, writeAt, ← hl, List.take_left, List.drop_append,
    List.drop_of_length_le (by omega), hl]
  simp [Nat.add_assoc]

/-! ## Zero bytes -/

/-- Every byte is zero. -/
def AllZero (bs : Bytes) : Prop := ∀ b ∈ bs, b = 0

instance (bs : Bytes) : Decidable (AllZero bs) := List.decidableBAll (· = 0) bs

theorem allZero_iff_eq_zeros : AllZero bs ↔ bs = zeros bs.length :=
  List.eq_replicate_length.symm

theorem allZero_zeros (n : ℕ) : AllZero (zeros n) := fun _ h => List.eq_of_mem_replicate h

theorem AllZero.take (h : AllZero bs) (n : ℕ) : AllZero (bs.take n) :=
  fun b hb => h b (List.mem_of_mem_take hb)

theorem zeros_append (m n : ℕ) : zeros m ++ zeros n = zeros (m + n) :=
  List.replicate_append_replicate

/-- Writing where the zeroes begin uses up as many of them as were written. -/
theorem writeAt_append_zeros (as data : Bytes) (z : ℕ) :
    writeAt (as ++ zeros z) as.length data = as ++ data ++ zeros (z - data.length) := by
  rw [writeAt_of_le data (by simp), List.take_left, ← List.drop_drop, List.drop_left]
  simp [zeros]

/-! ## Little-endian numerals -/

/-- The low `w` bytes of `v`, least significant first. -/
def putLe : ℕ → ℕ → Bytes
  | 0, _ => []
  | w + 1, v => UInt8.ofNat v :: putLe w (v / 256)

/-- The number whose bytes, least significant first, are `bs`. -/
def getLe : Bytes → ℕ
  | [] => 0
  | b :: bs => b.toNat + 256 * getLe bs

@[simp] theorem length_putLe (w v : ℕ) : (putLe w v).length = w := by
  induction w generalizing v with
  | zero => rfl
  | succ w ih => simp [putLe, ih]

theorem getLe_putLe_mod (w v : ℕ) : getLe (putLe w v) = v % 256 ^ w := by
  induction w generalizing v with
  | zero => simp [putLe, getLe, Nat.mod_one]
  | succ w ih =>
    rw [putLe, getLe, ih, Nat.pow_succ, Nat.mul_comm _ 256, Nat.mod_mul]
    simp

theorem getLe_putLe {w v : ℕ} (h : v < 256 ^ w) : getLe (putLe w v) = v := by
  rw [getLe_putLe_mod, Nat.mod_eq_of_lt h]

theorem getLe_lt (bs : Bytes) : getLe bs < 256 ^ bs.length := by
  induction bs with
  | nil => simp [getLe]
  | cons b =>
    have hb := b.toNat_lt
    rw [getLe, List.length_cons, Nat.pow_succ]
    omega

theorem getLe_eq_zero_of_allZero (h : AllZero bs) : getLe bs = 0 := by
  induction bs with
  | nil => rfl
  | cons b bs ih =>
    have hb : b = 0 := h b (by simp)
    have hbs : getLe bs = 0 := ih fun c hc => h c (by simp [hc])
    simp [getLe, hb, hbs]

/-- The numeral of the number a byte string reads as is that string. -/
theorem putLe_getLe (bs : Bytes) : putLe bs.length (getLe bs) = bs := by
  induction bs with
  | nil => rfl
  | cons b bs ih =>
    have hb := b.toNat_lt
    have hdiv : (b.toNat + 256 * getLe bs) / 256 = getLe bs := by omega
    rw [getLe, List.length_cons, putLe, hdiv, ih]
    congr 1
    apply UInt8.toNat_inj.mp
    simp

end ByteFile
