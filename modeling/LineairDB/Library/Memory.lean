import LineairDB.Library.ByteFile

/-!
# Byte memory

An address space of bytes with block copies into and out of it.

* `load_store` — the bytes copied in are the bytes read back.
* `store_of_outside` — a copy leaves every byte it does not reach.
-/

namespace ByteFile

/-- The byte at every address. -/
abbrev Memory := ℕ → UInt8

/-- The `n` bytes from `off` on. -/
def load (mem : Memory) (off n : ℕ) : Bytes := (List.range n).map fun i => mem (off + i)

/-- The memory after `data` has been copied to `off`. -/
def store (mem : Memory) (off : ℕ) (data : Bytes) : Memory := fun i =>
  if off ≤ i then (data[i - off]?).getD (mem i) else mem i

@[simp] theorem length_load (mem : Memory) (off n : ℕ) : (load mem off n).length = n := by
  simp [load]

theorem getElem?_load (mem : Memory) (off n i : ℕ) :
    (load mem off n)[i]? = if i < n then some (mem (off + i)) else none := by
  rw [load, List.getElem?_map]
  split_ifs with hi
  · rw [List.getElem?_range hi]
    rfl
  · rw [List.getElem?_eq_none (by simpa using hi)]
    rfl

theorem load_add (mem : Memory) (off m n : ℕ) :
    load mem off (m + n) = load mem off m ++ load mem (off + m) n := by
  simp only [load, List.range_add, List.map_append, List.map_map, Function.comp_def, Nat.add_assoc]

theorem load_congr {mem mem' : Memory} {off n : ℕ}
    (h : ∀ i, off ≤ i → i < off + n → mem i = mem' i) : load mem off n = load mem' off n := by
  refine List.map_congr_left fun i hi => ?_
  exact h _ (Nat.le_add_right _ _) (Nat.add_lt_add_left (List.mem_range.mp hi) _)

theorem store_of_outside {off i : ℕ} {data : Bytes} (mem : Memory)
    (h : i < off ∨ off + data.length ≤ i) : store mem off data i = mem i := by
  rw [store]
  split_ifs with hle
  · rw [List.getElem?_eq_none (by omega)]
    rfl
  · rfl

theorem load_store (mem : Memory) (off : ℕ) (data : Bytes) :
    load (store mem off data) off data.length = data := by
  refine List.ext_getElem? fun i => ?_
  rw [getElem?_load]
  split_ifs with hi
  · rw [store, if_pos (Nat.le_add_right _ _), Nat.add_sub_cancel_left,
      List.getElem?_eq_getElem hi]
    rfl
  · rw [List.getElem?_eq_none (by omega)]

end ByteFile
