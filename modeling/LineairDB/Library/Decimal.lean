import Mathlib.Data.Nat.Digits.Lemmas
import LineairDB.Library.ByteFile

/-!
# Decimal numerals

Numbers written as ASCII decimal digits, most significant first.

* `value_numeral` — the numeral printed for a number reads back as it.
* `numeral_value` — a digit string without a superfluous leading zero is the
  numeral printed for its value.
* `zeroFill_numeral_value` — any digit string is its value's numeral, filled
  with zeroes to the string's length.
-/

namespace Decimal

open ByteFile

variable {b : UInt8} {ds : Bytes}

/-- The ASCII digit zero. -/
def zero : UInt8 := 48

/-- An ASCII decimal digit. -/
def isDigit (b : UInt8) : Bool := 48 ≤ b.toNat && b.toNat ≤ 57

/-- The number a digit stands for. -/
def digitValue (b : UInt8) : ℕ := b.toNat - 48

/-- The digit that stands for a number below ten. -/
def digitByte (d : ℕ) : UInt8 := UInt8.ofNat (48 + d)

/-- Every byte is a digit. -/
def Digits (ds : Bytes) : Prop := ∀ b ∈ ds, isDigit b = true

instance (ds : Bytes) : Decidable (Digits ds) := List.decidableBAll (fun b => isDigit b = true) ds

/-- The number a digit string spells. -/
def value (ds : Bytes) : ℕ := ds.foldl (fun n b => n * 10 + digitValue b) 0

/-- The digits printed for a number. -/
def numeral (n : ℕ) : Bytes :=
  if n = 0 then [zero] else ((Nat.digits 10 n).map digitByte).reverse

/-- A digit string a number is printed as: a lone zero, or no zero in front. -/
def Plain (ds : Bytes) : Prop := ds ≠ [] ∧ Digits ds ∧ (ds.head? = some zero → ds = [zero])

instance (ds : Bytes) : Decidable (Plain ds) := by
  unfold Plain
  infer_instance

/-- The digits of a string, filled with zeroes in front to `n` of them. -/
def zeroFill (n : ℕ) (ds : Bytes) : Bytes := List.replicate (n - ds.length) zero ++ ds

/-! ## Single digits -/

theorem isDigit_digitByte {d : ℕ} (h : d < 10) : isDigit (digitByte d) = true := by
  have hmod : (48 + d) % 2 ^ 8 = 48 + d := by omega
  simp only [isDigit, digitByte, UInt8.toNat_ofNat', hmod, Bool.and_eq_true, decide_eq_true_eq]
  omega

theorem digitValue_digitByte {d : ℕ} (h : d < 10) : digitValue (digitByte d) = d := by
  have hmod : (48 + d) % 2 ^ 8 = 48 + d := by omega
  simp only [digitValue, digitByte, UInt8.toNat_ofNat', hmod]
  omega

theorem digitValue_lt (h : isDigit b = true) : digitValue b < 10 := by
  simp only [isDigit, Bool.and_eq_true, decide_eq_true_eq] at h
  unfold digitValue
  omega

theorem digitByte_digitValue (h : isDigit b = true) : digitByte (digitValue b) = b := by
  simp only [isDigit, Bool.and_eq_true, decide_eq_true_eq] at h
  apply UInt8.toNat_inj.mp
  have hb : 48 + digitValue b = b.toNat := by
    unfold digitValue
    omega
  rw [digitByte, hb, UInt8.ofNat_toNat]

theorem digitValue_eq_zero (h : isDigit b = true) : digitValue b = 0 ↔ b = zero := by
  constructor
  · intro hzero
    rw [← digitByte_digitValue h, hzero]
    rfl
  · rintro rfl
    rfl

/-! ## Values -/

theorem Digits.append {as bs : Bytes} (ha : Digits as) (hb : Digits bs) : Digits (as ++ bs) := by
  intro b h
  exact (List.mem_append.mp h).elim (ha b) (hb b)

theorem digits_zeroes (n : ℕ) : Digits (List.replicate n zero) := by
  intro b h
  rw [List.eq_of_mem_replicate h]
  rfl

theorem foldl_value (ds : Bytes) (n : ℕ) :
    ds.foldl (fun n b => n * 10 + digitValue b) n = n * 10 ^ ds.length + value ds := by
  induction ds generalizing n with
  | nil => simp [value]
  | cons b bs ih =>
    have hwhole : value (b :: bs) = (0 * 10 + digitValue b) * 10 ^ bs.length + value bs := ih _
    rw [List.foldl_cons, ih, hwhole, List.length_cons, pow_succ]
    ring

theorem value_append (as bs : Bytes) : value (as ++ bs) = value as * 10 ^ bs.length + value bs := by
  have hfold := foldl_value bs (value as)
  rwa [value, ← List.foldl_append] at hfold

theorem value_zeroes (n : ℕ) : value (List.replicate n zero) = 0 := by
  induction n with
  | zero => rfl
  | succ n ih =>
    rw [List.replicate_succ', value_append, ih]
    rfl

/-- The value is that of the digits' numbers, least significant first. -/
theorem value_eq_ofDigits (ds : Bytes) :
    value ds = Nat.ofDigits 10 (ds.map digitValue).reverse := by
  induction ds with
  | nil => rfl
  | cons b bs ih =>
    have hsplit := value_append [b] bs
    have hhead : value [b] = digitValue b := by simp [value]
    rw [List.singleton_append, hhead] at hsplit
    rw [hsplit, ih, List.map_cons, List.reverse_cons, Nat.ofDigits_append, Nat.ofDigits_singleton,
      List.length_reverse, List.length_map]
    ring

theorem digitValues_lt (h : Digits ds) : ∀ d ∈ (ds.map digitValue).reverse, d < 10 := by
  intro d hd
  obtain ⟨b, hb, rfl⟩ := List.mem_map.mp (List.mem_reverse.mp hd)
  exact digitValue_lt (h b hb)

theorem map_digitByte (h : Digits ds) : ((ds.map digitValue).map digitByte) = ds := by
  rw [List.map_map]
  exact (List.map_congr_left fun b hb => digitByte_digitValue (h b hb)).trans (List.map_id ds)

theorem value_lt (h : Digits ds) : value ds < 10 ^ ds.length := by
  have hlt := Nat.ofDigits_lt_base_pow_length (by norm_num) (digitValues_lt h)
  rwa [List.length_reverse, List.length_map, ← value_eq_ofDigits] at hlt

/-- Digit strings of one length and one value are one string. -/
theorem eq_of_value_eq {as bs : Bytes} (ha : Digits as) (hb : Digits bs)
    (hlength : as.length = bs.length) (hvalue : value as = value bs) : as = bs := by
  have hdigits : (as.map digitValue).reverse = (bs.map digitValue).reverse := by
    apply Nat.ofDigits_inj_of_len_eq (b := 10) (by norm_num) (by simpa using hlength)
      (digitValues_lt ha) (digitValues_lt hb)
    rw [← value_eq_ofDigits, ← value_eq_ofDigits, hvalue]
  rw [← map_digitByte ha, ← map_digitByte hb, List.reverse_injective hdigits]

/-! ## Numerals -/

theorem digits_numeral (n : ℕ) : Digits (numeral n) := by
  intro b hb
  rw [numeral] at hb
  split_ifs at hb with hn
  · rw [List.mem_singleton.mp hb]
    rfl
  · obtain ⟨d, hd, rfl⟩ := List.mem_map.mp (List.mem_reverse.mp hb)
    exact isDigit_digitByte (Nat.digits_lt_base (by norm_num) hd)

theorem value_numeral (n : ℕ) : value (numeral n) = n := by
  rw [numeral]
  split_ifs with hn
  · rw [hn]
    rfl
  · have hvalues : (Nat.digits 10 n).map (digitValue ∘ digitByte) = Nat.digits 10 n := by
      refine (List.map_congr_left fun d hd => ?_).trans (List.map_id _)
      exact digitValue_digitByte (Nat.digits_lt_base (by norm_num) hd)
    rw [value_eq_ofDigits, List.map_reverse, List.reverse_reverse, List.map_map, hvalues,
      Nat.ofDigits_digits]

theorem numeral_ne_nil (n : ℕ) : numeral n ≠ [] := by
  rw [numeral]
  split_ifs with hn
  · exact List.cons_ne_nil _ _
  · simpa using Nat.digits_ne_nil_iff_ne_zero.mpr hn

/-- A digit string with no zero in front is the numeral of its value. -/
theorem numeral_value (h : Plain ds) : numeral (value ds) = ds := by
  obtain ⟨hne, hdigits, hhead⟩ := h
  by_cases hlone : ds = [zero]
  · rw [hlone]
    rfl
  · obtain ⟨b, bs, rfl⟩ := List.exists_cons_of_ne_nil hne
    have hb : digitValue b ≠ 0 := by
      rw [Ne, digitValue_eq_zero (hdigits b (.head _))]
      rintro rfl
      exact hlone (hhead rfl)
    have hreverse : Nat.digits 10 (value (b :: bs)) = ((b :: bs).map digitValue).reverse := by
      rw [value_eq_ofDigits]
      refine Nat.digits_ofDigits 10 (by norm_num) _ (digitValues_lt hdigits) fun hnil => ?_
      simpa using hb
    have hnonzero : value (b :: bs) ≠ 0 := by
      intro hzero
      rw [hzero] at hreverse
      simp at hreverse
    rw [numeral, if_neg hnonzero, hreverse, List.map_reverse, List.reverse_reverse,
      map_digitByte hdigits]

theorem plain_numeral (n : ℕ) : Plain (numeral n) := by
  refine ⟨numeral_ne_nil n, digits_numeral n, fun hhead => ?_⟩
  by_cases hn : n = 0
  · rw [numeral, if_pos hn]
  · rw [numeral, if_neg hn, List.head?_reverse, List.getLast?_map] at hhead
    have hlast := Nat.getLast_digit_ne_zero 10 hn
    rw [List.getLast?_eq_some_getLast (Nat.digits_ne_nil_iff_ne_zero.mpr hn), Option.map_some]
      at hhead
    have hlt := Nat.digits_lt_base (b := 10) (by norm_num)
      (List.getLast_mem (Nat.digits_ne_nil_iff_ne_zero.mpr hn))
    have hvalue := digitValue_digitByte hlt
    rw [Option.some.inj hhead] at hvalue
    exact absurd hvalue.symm hlast

/-- A number below `10 ^ k` has at most `k` digits. -/
theorem length_numeral_le {n k : ℕ} (hn : n < 10 ^ k) (hk : k ≠ 0) : (numeral n).length ≤ k := by
  rw [numeral]
  split_ifs with hzero
  · exact Nat.one_le_iff_ne_zero.mpr hk
  · rw [List.length_reverse, List.length_map]
    exact (Nat.digits_length_le_iff (by norm_num) n).mpr hn

/-! ## Zero filling -/

theorem digits_zeroFill (h : Digits ds) (n : ℕ) : Digits (zeroFill n ds) :=
  (digits_zeroes _).append h

theorem value_zeroFill (n : ℕ) (ds : Bytes) : value (zeroFill n ds) = value ds := by
  rw [zeroFill, value_append, value_zeroes, Nat.zero_mul, Nat.zero_add]

theorem length_zeroFill (n : ℕ) (ds : Bytes) : (zeroFill n ds).length = max n ds.length := by
  rw [zeroFill, List.length_append, List.length_replicate]
  omega

/-- Digits are their value's numeral, with the zeroes in front put back. -/
theorem zeroFill_numeral_value (h : Digits ds) (hne : ds ≠ []) :
    zeroFill ds.length (numeral (value ds)) = ds := by
  have hlength := length_numeral_le (value_lt h) (by simpa using hne)
  refine eq_of_value_eq (digits_zeroFill (digits_numeral _) _) h ?_ ?_
  · rw [length_zeroFill]
    omega
  · rw [value_zeroFill, value_numeral]

end Decimal
