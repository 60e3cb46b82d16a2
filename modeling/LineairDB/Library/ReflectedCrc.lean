import Mathlib.Order.Iterate

/-!
# Reflected checksums

A register of any width into which a message is shifted bit by bit, the least bit first. The
bit that falls out feeds the polynomial back.

* `feed_eq_iterate` — a message no longer than the register can be added to it at once.
* `feed_window` — two messages of one length that differ only in a window as wide as the
  register leave it in different states, if the polynomial has its highest bit.
-/

namespace ReflectedCrc

variable {w n : ℕ} {poly s s' x y : BitVec w} {as bs : List Bool}

/-- One place down. -/
def shift (poly s : BitVec w) : BitVec w := (s >>> 1) ^^^ (if s.getLsbD 0 then poly else 0)

/-- The register after a message. -/
def feed (poly s : BitVec w) (bits : List Bool) : BitVec w :=
  bits.foldl (fun s b => shift poly (s ^^^ (BitVec.ofBool b).setWidth w)) s

/-- A message in a register, its first bit lowest. -/
def word (w : ℕ) (bits : List Bool) : BitVec w := (BitVec.ofBoolListLE bits).setWidth w

theorem feed_append : feed poly s (as ++ bs) = feed poly (feed poly s as) bs :=
  List.foldl_append

/-! ## The shift -/

theorem shift_xor : shift poly (x ^^^ y) = shift poly x ^^^ shift poly y := by
  rw [shift, shift, shift, BitVec.getLsbD_xor, BitVec.ushiftRight_xor_distrib]
  cases x.getLsbD 0 <;> cases y.getLsbD 0 <;> ext i hi <;>
    simp [Bool.xor_left_comm, Bool.xor_comm]

theorem iterate_shift_xor :
    (shift poly)^[n] (x ^^^ y) = (shift poly)^[n] x ^^^ (shift poly)^[n] y := by
  induction n generalizing x y with
  | zero => rfl
  | succ n ih => simp only [Function.iterate_succ_apply, shift_xor, ih]

/-- Bits that are clear fall out without a trace. -/
theorem iterate_shift_of_low (h : ∀ i < n, x.getLsbD i = false) : (shift poly)^[n] x = x >>> n := by
  induction n with
  | zero => simp
  | succ n ih =>
    have hlow : (x >>> n).getLsbD 0 = false := by simpa using h n (by omega)
    rw [Function.iterate_succ_apply', ih fun i hi => h i (by omega), shift, hlow]
    simp [BitVec.shiftRight_add]

/-- The places above the lowest `n` only come down; a table of the lowest does the rest. -/
theorem iterate_shift_eq (hlow : ∀ i < n, y.getLsbD i = x.getLsbD i)
    (hhigh : ∀ i ≥ n, y.getLsbD i = false) :
    (shift poly)^[n] x = (shift poly)^[n] y ^^^ (x >>> n) := by
  have hrest : (x ^^^ y) >>> n = x >>> n := by
    refine BitVec.eq_of_getLsbD_eq fun i hi => ?_
    simp [hhigh (n + i) (by omega)]
  have hsplit : y ^^^ (x ^^^ y) = x := by
    rw [BitVec.xor_comm x, ← BitVec.xor_assoc, BitVec.xor_self, BitVec.zero_xor]
  rw [← hrest, ← iterate_shift_of_low fun i hi => by simp [hlow i hi], ← iterate_shift_xor, hsplit]

/-- The highest bit of the polynomial remembers what fell out. -/
theorem shift_injective (hpoly : poly.msb = true) : Function.Injective (shift poly) := by
  intro x y h
  have hzero : shift poly (x ^^^ y) = 0 := by rw [shift_xor, h, BitVec.xor_self]; rfl
  cases hlow : (x ^^^ y).getLsbD 0 with
  | true =>
    have hmsb := congrArg BitVec.msb hzero
    simp [shift, hlow, hpoly, BitVec.msb_ushiftRight] at hmsb
  | false =>
    rw [shift, hlow] at hzero
    refine BitVec.xor_eq_zero_iff.mp (BitVec.eq_of_getLsbD_eq fun i hi => ?_)
    cases i with
    | zero => simpa using hlow
    | succ i => simpa [Nat.add_comm] using congrArg (·.getLsbD i) hzero

/-! ## Messages -/

theorem getLsbD_word {i : ℕ} (hi : i < w) : (word w as).getLsbD i = as.getD i false := by
  simp [word, hi]

/-- A message that is not longer than the register can be added to it at once. -/
theorem feed_eq_iterate (hlen : as.length ≤ w) :
    feed poly s as = (shift poly)^[as.length] (s ^^^ word w as) := by
  induction as generalizing s with
  | nil =>
    refine BitVec.eq_of_getLsbD_eq fun i hi => ?_
    simp [feed, getLsbD_word hi]
  | cons b as ih =>
    -- The rest of the message waits one place higher: nothing falls out as it comes down.
    have hword : word w (b :: as) = (BitVec.ofBool b).setWidth w ^^^ word w as <<< 1 := by
      refine BitVec.eq_of_getLsbD_eq fun i hi => ?_
      rw [getLsbD_word hi, BitVec.getLsbD_xor, BitVec.getLsbD_shiftLeft, BitVec.getLsbD_setWidth]
      cases i with
      | zero => simp [hi]
      | succ i => simp [hi, getLsbD_word (Nat.lt_of_succ_lt hi)]
    have hshift : shift poly (word w as <<< 1) = word w as := by
      refine BitVec.eq_of_getLsbD_eq fun i hi => ?_
      have htop : as.getD i false = true → i + 1 < w := by grind
      simpa [shift, getLsbD_word hi, Nat.add_comm 1] using htop
    calc feed poly s (b :: as)
        = (shift poly)^[as.length]
            (shift poly (s ^^^ (BitVec.ofBool b).setWidth w) ^^^ word w as) :=
          ih (Nat.le_of_succ_le hlen)
      _ = (shift poly)^[as.length] (shift poly (s ^^^ word w (b :: as))) := by
          rw [hword, ← BitVec.xor_assoc, shift_xor (y := word w as <<< 1), hshift]
      _ = (shift poly)^[(b :: as).length] (s ^^^ word w (b :: as)) := rfl

/-- What follows two states keeps them apart. -/
theorem feed_injective (hpoly : poly.msb = true) : Function.Injective (feed poly · as) := by
  induction as with
  | nil => exact Function.injective_id
  | cons b as ih => exact fun s s' h => BitVec.xor_left_inj _ |>.mp (shift_injective hpoly (ih h))

theorem word_injective (has : as.length ≤ w) (hlen : as.length = bs.length)
    (h : word w as = word w bs) : as = bs := by
  refine List.ext_getElem hlen fun i hi hi' => ?_
  have hbit := congrArg (·.getLsbD i) h
  simpa [getLsbD_word (hi.trans_le has), hi, hi'] using hbit

/-- From one state, messages that fit into the register are kept apart. -/
theorem eq_of_feed_eq (hpoly : poly.msb = true) (has : as.length ≤ w)
    (hlen : as.length = bs.length) (h : feed poly s as = feed poly s bs) : as = bs := by
  rw [feed_eq_iterate has, feed_eq_iterate (hlen ▸ has), hlen] at h
  have hxor := (shift_injective hpoly).iterate _ h
  exact word_injective has hlen (BitVec.xor_right_inj _ |>.mp hxor)

/-- Messages that differ only in a window as wide as the register are told apart. -/
theorem feed_window (hpoly : poly.msb = true) (hlen : as.length = bs.length) {k : ℕ}
    (hout : ∀ i, i < k ∨ k + w ≤ i → as[i]? = bs[i]?)
    (h : feed poly s as = feed poly s bs) : as = bs := by
  have hhead : as.take k = bs.take k := List.ext_getElem? fun i => by
    grind [hout i]
  have htail : (as.drop k).drop w = (bs.drop k).drop w := List.ext_getElem? fun i => by
    simpa [Nat.add_assoc] using hout (k + (w + i)) (by omega)
  rw [← as.take_append_drop k, ← bs.take_append_drop k, ← (as.drop k).take_append_drop w,
    ← (bs.drop k).take_append_drop w, hhead, htail] at h ⊢
  -- Before the window the states are one state, and after it they stay apart.
  simp only [feed_append] at h
  rw [eq_of_feed_eq hpoly (List.length_take_le ..) (by simp [hlen]) (feed_injective hpoly h)]

end ReflectedCrc
