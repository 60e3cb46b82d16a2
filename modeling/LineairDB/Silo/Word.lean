import LineairDB.Types

/-!
# Version words

The 64-bit word of an item: the epoch and the sequence number of the version
it holds, and in the lowest bit the lock. Committers set the bit, clear it
again when they abort, and step to the next word when they publish; the
reaper steps past the word of a slot it retires.

* `val_lt_next` — publishing goes up, as long as the sequence number has room.
* `val_lt_retired` — so does retiring.
-/

namespace LineairDB.TransactionId

variable {w : TransactionId}

/-- The word of an item nothing was published to. -/
def empty : TransactionId := ⟨0, 0⟩

/-- `tid & 1u` -/
def isLocked (w : TransactionId) : Bool := w.tid &&& 1 != 0

/-- `tid |= 1u` -/
def locked (w : TransactionId) : TransactionId := { w with tid := w.tid ||| 1 }

/-- `tid--` -/
def unlocked (w : TransactionId) : TransactionId := { w with tid := w.tid - 1 }

/-- The word a committer in `epoch` stores over a word it has locked. -/
def next (w : TransactionId) (epoch : EpochNumber) : TransactionId :=
  if w.epoch = epoch then ⟨epoch, w.tid + 1⟩ else ⟨epoch, 2⟩

/-- The word the reaper leaves on a slot it has unlinked. -/
def retired (w : TransactionId) : TransactionId := { w with tid := (w.tid + 2) &&& ~~~1 }

/-- The word without its lock. -/
def base (w : TransactionId) : TransactionId := if w.isLocked then w.unlocked else w

/-- The order of versions. -/
def val (w : TransactionId) : ℕ := w.epoch.toNat * 2 ^ 32 + w.tid.toNat

theorem isLocked_iff : w.isLocked = true ↔ w.tid.toNat % 2 = 1 := by
  unfold isLocked
  have hand : (w.tid &&& 1).toNat = w.tid.toNat % 2 := by
    rw [UInt32.toNat_and]
    exact Nat.and_one_is_mod _
  rw [bne_iff_ne, ne_eq, ← UInt32.toNat_inj, hand]
  show ¬ w.tid.toNat % 2 = 0 ↔ _
  omega

theorem not_isLocked_iff : w.isLocked = false ↔ w.tid.toNat % 2 = 0 := by
  rw [← Bool.not_eq_true, isLocked_iff]
  omega

theorem or_one_of_even {n : ℕ} (h : n % 2 = 0) : n ||| 1 = n + 1 := by
  have hdiv : (n ||| 1) / 2 = n / 2 := by
    rw [Nat.or_div_two]
    simp
  have hmod : (n ||| 1) % 2 = 1 := Nat.or_mod_two_eq_one.mpr (.inr rfl)
  omega

theorem toNat_tid_locked (h : w.isLocked = false) : w.locked.tid.toNat = w.tid.toNat + 1 := by
  rw [not_isLocked_iff] at h
  show (w.tid ||| 1).toNat = _
  rw [UInt32.toNat_or]
  exact or_one_of_even h

@[simp] theorem epoch_locked (w : TransactionId) : w.locked.epoch = w.epoch := rfl

theorem isLocked_locked (w : TransactionId) : w.locked.isLocked = true := by
  rw [isLocked_iff]
  show (w.tid ||| 1).toNat % 2 = 1
  rw [UInt32.toNat_or]
  exact Nat.or_mod_two_eq_one.mpr (.inr rfl)

/-- Clearing the lock bit gives back the word it was set in. -/
theorem unlocked_locked (h : w.isLocked = false) : w.locked.unlocked = w := by
  have htid := toNat_tid_locked h
  have hlt := w.locked.tid.toNat_lt
  have hone : (1 : UInt32) ≤ w.locked.tid := by
    rw [UInt32.le_iff_toNat_le, htid]
    exact Nat.le_add_left 1 _
  have hback : w.locked.tid - 1 = w.tid := by
    rw [← UInt32.toNat_inj, UInt32.toNat_sub_of_le _ _ hone, htid]
    rfl
  show { w.locked with tid := w.locked.tid - 1 } = w
  rw [hback]
  rfl

@[simp] theorem base_locked (h : w.isLocked = false) : w.locked.base = w := by
  rw [base, if_pos (isLocked_locked w), unlocked_locked h]

theorem base_of_not_isLocked (h : w.isLocked = false) : w.base = w := by
  rw [base, h]
  rfl

theorem toNat_tid_unlocked (h : w.isLocked = true) : w.unlocked.tid.toNat = w.tid.toNat - 1 := by
  rw [isLocked_iff] at h
  have hone : (1 : UInt32) ≤ w.tid := by
    rw [UInt32.le_iff_toNat_le]
    show 1 ≤ w.tid.toNat
    omega
  exact UInt32.toNat_sub_of_le _ _ hone

@[simp] theorem isLocked_empty : empty.isLocked = false := by decide

@[simp] theorem base_empty : empty.base = empty := by decide

theorem isLocked_base (w : TransactionId) : w.base.isLocked = false := by
  unfold base
  by_cases h : w.isLocked = true
  · rw [if_pos h, not_isLocked_iff, toNat_tid_unlocked h]
    rw [isLocked_iff] at h
    omega
  · rw [if_neg h]
    simpa using h

@[simp] theorem epoch_base (w : TransactionId) : w.base.epoch = w.epoch := by
  unfold base
  split <;> rfl

/-- A locked word is its own base, locked. -/
theorem locked_base (h : w.isLocked = true) : w.base.locked = w := by
  have hback : w.base.locked.tid = w.tid := by
    rw [← UInt32.toNat_inj, toNat_tid_locked (isLocked_base w), base, if_pos h,
      toNat_tid_unlocked h]
    rw [isLocked_iff] at h
    omega
  show TransactionId.mk w.base.epoch w.base.locked.tid = w
  rw [hback, epoch_base]

/-- Setting the lock bit changes nothing else, whether it was set or not. -/
theorem base_locked_eq (w : TransactionId) : w.locked.base = w.base := by
  by_cases h : w.isLocked = true
  · have htwice : w.base.locked.locked = w.base.locked := by
      show TransactionId.mk w.base.epoch (w.base.tid ||| 1 ||| 1) = ⟨_, w.base.tid ||| 1⟩
      rw [UInt32.or_assoc, UInt32.or_self]
    rw [locked_base h] at htwice
    rw [htwice]
  · rw [Bool.not_eq_true] at h
    rw [base_locked h, base_of_not_isLocked h]

/-! ## The order -/

theorem val_inj {v : TransactionId} (h : v.val = w.val) : v = w := by
  have hv := v.tid.toNat_lt
  have hw := w.tid.toNat_lt
  unfold val at h
  have hepoch : v.epoch.toNat = w.epoch.toNat := by omega
  have htid : v.tid.toNat = w.tid.toNat := by omega
  cases v
  cases w
  congr 1
  · exact UInt32.toNat_inj.mp hepoch
  · exact UInt32.toNat_inj.mp htid

/-- Publishing goes up, in an epoch that is not behind the word and as long as the
sequence number has room. -/
theorem val_lt_next {epoch : EpochNumber} (hw : w.isLocked = false)
    (hepoch : w.epoch.toNat ≤ epoch.toNat) (hroom : w.tid.toNat < 2 ^ 32 - 2) :
    w.val < (w.locked.next epoch).val := by
  have heven := not_isLocked_iff.mp hw
  have hlocked := toNat_tid_locked hw
  unfold next
  rw [epoch_locked]
  by_cases heq : w.epoch = epoch
  · rw [if_pos heq]
    have hsucc : (w.locked.tid + 1).toNat = w.tid.toNat + 2 := by
      rw [UInt32.toNat_add, hlocked]
      show (w.tid.toNat + 1 + 1) % 2 ^ 32 = _
      omega
    show w.epoch.toNat * 2 ^ 32 + w.tid.toNat < epoch.toNat * 2 ^ 32 + (w.locked.tid + 1).toNat
    rw [heq]
    omega
  · rw [if_neg heq]
    have hlt : w.epoch.toNat < epoch.toNat :=
      Nat.lt_of_le_of_ne hepoch fun h => heq (UInt32.toNat_inj.mp h)
    show w.epoch.toNat * 2 ^ 32 + w.tid.toNat < epoch.toNat * 2 ^ 32 + 2
    have htid := w.tid.toNat_lt
    omega

@[simp] theorem epoch_next (w : TransactionId) (epoch : EpochNumber) :
    (w.next epoch).epoch = epoch := by
  unfold next
  split <;> rfl

/-- What is published over a locked word is not locked, even where the sequence number
wraps around. -/
theorem isLocked_next (h : w.isLocked = true) (epoch : EpochNumber) :
    (w.next epoch).isLocked = false := by
  unfold next
  split
  · rw [not_isLocked_iff]
    rw [isLocked_iff] at h
    rw [UInt32.toNat_add]
    show (w.tid.toNat + 1) % 2 ^ 32 % 2 = 0
    omega
  · have htwo : (2 : UInt32).toNat = 2 := by decide
    rw [not_isLocked_iff]
    rw [htwo]

theorem val_lt_of_epoch_lt {v : TransactionId} (h : v.epoch.toNat < w.epoch.toNat) :
    v.val < w.val := by
  have hv := v.tid.toNat_lt
  unfold val
  omega

/-- Retiring clears the lock bit. -/
theorem isLocked_retired (w : TransactionId) : w.retired.isLocked = false := by
  have hmask : (~~~1 : UInt32) &&& 1 = 0 := by decide
  show ((w.tid + 2) &&& ~~~1 &&& 1 != 0) = false
  rw [UInt32.and_assoc, hmask, UInt32.and_zero]
  rfl

/-- Clearing the lowest bit of a word that does not have it. -/
theorem and_not_one_of_even {x : UInt32} (h : x &&& 1 = 0) : x &&& ~~~1 = x := by
  apply UInt32.eq_of_toBitVec_eq
  apply BitVec.eq_of_getLsbD_eq
  intro i hi
  have hbit := congrArg (fun y : UInt32 => y.toBitVec.getLsbD i) h
  have hmask : ∀ j < 32, j ≠ 0 → BitVec.getLsbD (4294967294 : BitVec 32) j = true := by decide
  show (x.toBitVec &&& (4294967294 : BitVec 32)).getLsbD i = x.toBitVec.getLsbD i
  rw [BitVec.getLsbD_and]
  by_cases hzero : i = 0
  · subst hzero
    simpa using hbit
  · rw [hmask i hi hzero, Bool.and_true]

/-- Retiring goes up, as long as the sequence number has room. -/
theorem val_lt_retired (hw : w.isLocked = false) (hroom : w.tid.toNat < 2 ^ 32 - 2) :
    w.val < w.retired.val := by
  have heven := not_isLocked_iff.mp hw
  have hsum : (w.tid + 2).toNat = w.tid.toNat + 2 := by
    rw [UInt32.toNat_add]
    show (w.tid.toNat + 2) % 2 ^ 32 = _
    omega
  have hclear : (w.tid + 2) &&& ~~~1 = w.tid + 2 := by
    refine and_not_one_of_even ?_
    rw [← UInt32.toNat_inj, UInt32.toNat_and, hsum]
    show (w.tid.toNat + 2) &&& 1 = 0
    rw [Nat.and_one_is_mod]
    omega
  show w.epoch.toNat * 2 ^ 32 + w.tid.toNat < w.epoch.toNat * 2 ^ 32 + ((w.tid + 2) &&& ~~~1).toNat
  rw [hclear, hsum]
  omega

end LineairDB.TransactionId
