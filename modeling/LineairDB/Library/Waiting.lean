import Mathlib.Data.Finset.Max
import Mathlib.Data.Fintype.BigOperators

/-!
# Waiting for locks

Parties hold locks and wait for one at a time. A set of parties is deadlocked
when each of them waits for a lock another one of them holds.

* `Ranked.not_deadlocked` — when every party waits for a lock that comes after
  all it holds, in one order of the locks, no set is deadlocked.
-/

namespace Waiting

variable {T I α : Type}

/-- Who holds the locks, and what each party waits for. -/
structure Locks (T I : Type) where
  holder : I → Option T
  wanted : T → Option I

/-- The party waits for a lock the other one holds. -/
def Locks.Waits (l : Locks T I) (t u : T) : Prop :=
  ∃ i, l.wanted t = some i ∧ l.holder i = some u

/-- Every member of the set waits for another one. -/
def Locks.Deadlocked (l : Locks T I) (ts : Set T) : Prop :=
  ts.Nonempty ∧ ∀ t ∈ ts, ∃ u ∈ ts, u ≠ t ∧ l.Waits t u

/-- What a party waits for comes after everything it holds. -/
def Locks.Ranked [LT α] (l : Locks T I) (rank : I → α) : Prop :=
  ∀ t i j, l.wanted t = some i → l.holder j = some t → rank j < rank i

/-- **One order of the locks excludes deadlock**: the member that waits for the last lock
would wait for one that waits for a later one. -/
theorem Locks.Ranked.not_deadlocked [LinearOrder α] {l : Locks T I} {rank : I → α}
    (h : l.Ranked rank) {known : Finset I} (hknown : ∀ i t, l.holder i = some t → i ∈ known)
    (ts : Set T) : ¬ l.Deadlocked ts := by
  classical
  rintro ⟨⟨t₀, ht₀⟩, hwaits⟩
  -- the locks the members wait for
  let contended := known.filter fun i => ∃ t ∈ ts, l.wanted t = some i
  have hmem : ∀ t ∈ ts, ∃ i ∈ contended, l.wanted t = some i := by
    intro t ht
    obtain ⟨u, -, -, i, hwanted, hholder⟩ := hwaits t ht
    exact ⟨i, Finset.mem_filter.mpr ⟨hknown i u hholder, t, ht, hwanted⟩, hwanted⟩
  obtain ⟨i₀, hi₀, -⟩ := hmem t₀ ht₀
  obtain ⟨i, hi, hlast⟩ := contended.exists_max_image rank ⟨i₀, hi₀⟩
  obtain ⟨t, ht, hwanted⟩ := (Finset.mem_filter.mp hi).2
  obtain ⟨u, hu, -, j, hwanted', hholder⟩ := hwaits t ht
  obtain rfl : i = j := Option.some.inj (hwanted.symm.trans hwanted')
  obtain ⟨k, hk, hnext⟩ := hmem u hu
  exact absurd (h u k i hnext hholder) (not_lt.mpr (hlast k hk))

end Waiting
