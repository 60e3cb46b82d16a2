import Mathlib.Data.Fintype.BigOperators
import Mathlib.Data.Nat.Bitwise
import Mathlib.Tactic.Ring

/-!
# Epochs and transaction identifiers

The identifier a committed version carries: the epoch it committed in and a
sequence word within that epoch, whose low bit is the lock. Read sets, write
sets and logs grow at their end: `mem_concat` and `forall_mem_concat` say what
such a list holds after one entry more.
-/

namespace LineairDB

/-- Epoch numbers are 32-bit words. -/
abbrev EpochNumber := UInt32

/-- A transaction identifier: the epoch a version committed in and its sequence
word. -/
structure TransactionId where
  epoch : EpochNumber
  tid : UInt32
  deriving Repr, DecidableEq, Inhabited

variable {α : Type*} {l : List α} {a b : α}

theorem mem_concat : a ∈ l ++ [b] ↔ a ∈ l ∨ a = b := by
  rw [List.mem_append, List.mem_singleton]

theorem forall_mem_concat {p : α → Prop} : (∀ x ∈ l ++ [b], p x) ↔ (∀ x ∈ l, p x) ∧ p b := by
  rw [List.forall_mem_append, List.forall_mem_singleton]

end LineairDB
