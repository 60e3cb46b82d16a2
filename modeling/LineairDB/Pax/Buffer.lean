import LineairDB.Pax.Group

/-!
# Data buffers

A `DataBuffer` of a PAX table keeps its payload in one of three places. A blank
one points to the table's store until its first row, then to a slot of a group,
and for good to an array of its own once the table is full or a row does not fit
its cells. A payload that is taken away leaves the slot to the buffer.

* `Inv` — what every sequence of `Reset` calls keeps: where each payload is, that
  no slot has two owners, and which slots are visible.
* `buffers_are_registers` — every buffer reads as the payload it was last given.
-/

namespace LineairDB.Pax

open ByteFile
open Function (update update_apply update_self update_of_ne update_eq_self forall_update_iff)

/-! ## The store -/

/-- The groups a table can have. -/
def kMaxGroups : ℕ := 2 ^ 18

/-- The groups of a table, as far as they have been created, and the number of
slots handed out. -/
structure PaxStore where
  dir : ℕ → Option PaxGroup
  nextSlot : UInt64

namespace PaxStore

/-- No group yet. -/
def empty : PaxStore := ⟨fun _ => none, 0⟩

/-- A group's strips; before it is created they are blank. -/
def group (store : PaxStore) (g : ℕ) : PaxGroup := (store.dir g).getD .blank

/-- A group is replaced. -/
def setGroup (store : PaxStore) (g : ℕ) (group : PaxGroup) : PaxStore :=
  { store with dir := update store.dir g (some group) }

/-- The next slot, or none where the directory is exhausted. -/
def allocateSlot (store : PaxStore) : Option (ℕ × Slot) × PaxStore :=
  let idx := store.nextSlot.toNat
  let store := { store with nextSlot := store.nextSlot + 1 }
  if kMaxGroups ≤ idx / kRows then (none, store)
  else
    (some (idx / kRows, ⟨idx % kRows, Nat.mod_lt _ (by decide)⟩),
      store.setGroup (idx / kRows) (store.group (idx / kRows)))

end PaxStore

/-! ## Buffers -/

/-- What the tagged word of a buffer points to: nothing or an array of its own
without the tag, the table's store, or the group that holds its slot. -/
inductive Pointer where
  | null
  | array (bytes : Bytes)
  | store
  | group (g : ℕ)
  deriving Repr, DecidableEq

/-- `capacity` is the size of the array, and the slot once there is one. -/
structure DataBuffer where
  value : Pointer
  size : ℕ
  capacity : ℕ
  deriving Repr, DecidableEq

namespace DataBuffer

/-- A buffer outside of any table. -/
def new : DataBuffer := ⟨.null, 0, 0⟩

/-- A blank buffer of a PAX table. -/
def paxBlank : DataBuffer := ⟨.store, 0, 0⟩

/-- The payload is in strips, or will be. -/
def isPax (b : DataBuffer) : Bool :=
  match b.value with
  | .null => false
  | .array _ => false
  | .store => true
  | .group _ => true

/-- The bytes of the array. -/
def bytes (b : DataBuffer) : Bytes :=
  match b.value with
  | .array bytes => bytes
  | _ => []

/-- The slot, kept in the capacity. -/
def paxSlot (b : DataBuffer) : Slot := ⟨b.capacity % kRows, Nat.mod_lt _ (by decide)⟩

/-- The buffer is bound to this slot. -/
def At (b : DataBuffer) (g : ℕ) (slot : Slot) : Prop := b.value = .group g ∧ b.capacity = slot

/-- `Reset` of a buffer with an array: it only grows. -/
def resetHeap (b : DataBuffer) (v : Option Bytes) : DataBuffer :=
  let payload := v.getD []
  if payload = [] then { b with size := 0 }
  else if b.capacity < payload.length then
    { value := .array payload, size := payload.length, capacity := payload.length }
  else
    { b with value := .array (payload ++ b.bytes.drop payload.length), size := payload.length }

end DataBuffer

/-- Buffers are told apart by where they are in memory. -/
abbrev Address := UInt64

variable {b : DataBuffer} {g : ℕ} {a a' : Address} {payload : Bytes}

/-- A table's store, the buffers of its rows and of the copies made of them, and
the vector through which one row is copied to another. -/
structure Table where
  store : PaxStore
  buffers : Address → DataBuffer
  tmp : Bytes

/-- A payload is a null pointer or some bytes. -/
inductive Call where
  | reset (a : Address) (v : Option Bytes)
  | copy (a rhs : Address)
  deriving Repr, DecidableEq

namespace Table

variable (schema : TableSchema)

/-- A buffer is replaced. -/
def put (t : Table) (a : Address) (b : DataBuffer) : Table :=
  { t with buffers := update t.buffers a b }

/-- A group of the store is replaced. -/
def setGroup (t : Table) (g : ℕ) (group : PaxGroup) : Table :=
  { t with store := t.store.setGroup g group }

/-- The row of a buffer with a slot, put together from the strips. -/
def gatherInto (t : Table) (b : DataBuffer) : Bytes :=
  match b.value with
  | .group g => gatherRow schema (t.store.group g) b.paxSlot b.size
  | _ => []

/-- The payload of a buffer. -/
def toString (t : Table) (a : Address) : Bytes :=
  let b := t.buffers a
  match b.value with
  | .null => []
  | .array bytes => bytes.take b.size
  | _ =>
    if b.size = 0 then []
    else
      let row := gatherInto schema t b
      row ++ zeros (b.size - row.length)

/-- The part of `ResetPax` behind the slot: the row is scattered, and a row that
does not fit leaves the slot for an array for good. -/
def install (t : Table) (a : Address) (g : ℕ) (payload : Bytes) : Table :=
  let b := t.buffers a
  match scatterRow schema (t.store.group g) b.paxSlot payload with
  | (true, group) => (t.setGroup g group).put a { b with size := payload.length }
  | (false, group) =>
    (t.setGroup g (group.retireSlot b.paxSlot)).put a
      (DataBuffer.resetHeap { b with value := .null, capacity := 0 } (some payload))

/-- Without a payload the slot is hidden, and kept for the next row. -/
def clear (t : Table) (a : Address) : Table :=
  let b := t.buffers a
  match b.value with
  | .group g =>
    if b.size ≠ 0 then
      (t.setGroup g ((t.store.group g).retireSlot b.paxSlot)).put a { b with size := 0 }
    else t.put a { b with size := 0 }
  | _ => t.put a { b with size := 0 }

/-- `ResetPax`: a slot is taken for the first row. -/
def resetPax (t : Table) (a : Address) (v : Option Bytes) : Table :=
  let b := t.buffers a
  let payload := v.getD []
  if payload = [] then t.clear a
  else
    match b.value with
    | .group g => install schema t a g payload
    | _ =>
      match t.store.allocateSlot with
      | (none, store) =>
        put { t with store } a
          (DataBuffer.resetHeap { b with value := .null, capacity := 0 } (some payload))
      | (some (g, slot), store) =>
        install schema (put { t with store } a { b with value := .group g, capacity := slot }) a g
          payload

/-- `Reset` -/
def reset (t : Table) (a : Address) (v : Option Bytes) : Table :=
  if (t.buffers a).isPax then resetPax schema t a v
  else t.put a ((t.buffers a).resetHeap v)

/-- The vector after `resize`. -/
def resize (tmp : Bytes) (n : ℕ) : Bytes := tmp.take n ++ zeros (n - tmp.length)

/-- `Reset` with another buffer's payload, which is gathered where it is in
strips. -/
def resetFrom (t : Table) (a rhs : Address) : Table :=
  let src := t.buffers rhs
  match src.value with
  | .null => reset schema t a none
  | .array bytes => reset schema t a (some (bytes.take src.size))
  | _ =>
    if src.size = 0 then reset schema t a none
    else
      let row := gatherInto schema t src
      if (t.buffers a).isPax then
        let tmp := row ++ (resize t.tmp src.size).drop row.length
        reset schema { t with tmp } a (some tmp)
      else
        let b := t.buffers a
        let b := if b.capacity < src.size then
            { b with value := .array (zeros src.size), capacity := src.size }
          else b
        t.put a { b with value := .array (row ++ b.bytes.drop row.length), size := row.length }

/-- One call. -/
def step (t : Table) : Call → Table
  | .reset a v => reset schema t a v
  | .copy a rhs => resetFrom schema t a rhs

/-- All of them. -/
def run (t : Table) (calls : List Call) : Table := calls.foldl (step schema) t

/-- The buffers before the first call: blank rows of the table, and buffers that
have no part in it. -/
def initial (inTable : Address → Bool) : Table where
  store := .empty
  buffers a := if inTable a then .paxBlank else .new
  tmp := []

end Table

/-! ## Registers -/

/-- A payload each, as the calls give them. -/
abbrev Registers := Address → Bytes

/-- One call. -/
def Registers.step (contents : Registers) : Call → Registers
  | .reset a v => update contents a (v.getD [])
  | .copy a rhs => update contents a (contents rhs)

/-- All of them, from empty registers. -/
def Registers.run (calls : List Call) : Registers := calls.foldl Registers.step fun _ => []

/-- The payloads that are given are rows in canonical form. -/
def Call.Canonical (schema : TableSchema) : Call → Prop
  | .reset _ v => ∀ row, v = some row → row ≠ [] → CanonicalRow schema row
  | .copy _ _ => True

/-! ## The invariant -/

section Invariant

variable {schema : FittingSchema} {t t' : Table} {contents : Registers} {used : Finset Address}

/-- A buffer's payload is where its pointer says. -/
def Holds (schema : TableSchema) (store : PaxStore) (b : DataBuffer) (payload : Bytes) : Prop :=
  match b.value with
  | .null => b.capacity = 0 ∧ payload = []
  | .array bytes => bytes.length = b.capacity ∧ b.size ≤ b.capacity ∧ bytes.take b.size = payload
  | .store => b.size = 0 ∧ payload = []
  | .group g =>
    payload.length = b.size ∧
      (b.size ≠ 0 → gatherRow schema (store.group g) b.paxSlot b.size = payload)

/-- What the calls keep. `used` are the buffers that have asked for a slot; as each
asks once, the counter does not come round to a slot handed out before. -/
structure Inv (schema : TableSchema) (t : Table) (contents : Registers) (used : Finset Address) :
    Prop where
  holds : ∀ a, Holds schema t.store (t.buffers a) (contents a)
  canonical : ∀ a, contents a ≠ [] → CanonicalRow schema (contents a)
  nextSlot : t.store.nextSlot.toNat = used.card % 2 ^ 64
  asked : ∀ a ∈ used, (t.buffers a).value ≠ .store
  bound : ∀ a g, (t.buffers a).value = .group g →
    (t.buffers a).capacity < kRows ∧ g * kRows + (t.buffers a).capacity < used.card
  distinct : ∀ a a' g slot, (t.buffers a).At g slot → (t.buffers a').At g slot → a = a'
  visible : ∀ g slot, (t.store.group g).isVisible slot = true ↔
    ∃ a, (t.buffers a).At g slot ∧ (t.buffers a).size ≠ 0

/-- The strips of every slot but one buffer's, old and new, are as they were. -/
def Frame (schema : TableSchema) (t t' : Table) (a : Address) : Prop :=
  ∀ g slot, ¬ (t.buffers a).At g slot → ¬ (t'.buffers a).At g slot →
    (t'.store.group g).isVisible slot = (t.store.group g).isVisible slot ∧
      ∀ n, gatherRow schema (t'.store.group g) slot n = gatherRow schema (t.store.group g) slot n

theorem at_paxSlot (hvalue : b.value = .group g) (hcapacity : b.capacity < kRows) :
    b.At g b.paxSlot :=
  ⟨hvalue, (Nat.mod_eq_of_lt hcapacity).symm⟩

theorem paxSlot_of_at {slot : Slot} (h : b.At g slot) : b.paxSlot = slot := by
  apply Fin.ext
  calc b.capacity % kRows = slot.val % kRows := by rw [h.2]
    _ = slot.val := Nat.mod_eq_of_lt slot.isLt

section Update

variable (h : Inv schema t contents used)
  (hfresh : ∀ g slot, (t'.buffers a).At g slot →
    (t.buffers a).At g slot ∨ used.card ≤ g * kRows + slot)
  (hothers : ∀ a', a' ≠ a → t'.buffers a' = t.buffers a')

include h hfresh

/-- A slot of another buffer is neither this one's old slot nor its new one. -/
theorem Inv.free {a' : Address} {g : ℕ} {slot : Slot} (hne : a' ≠ a)
    (hat : (t.buffers a').At g slot) :
    ¬ (t.buffers a).At g slot ∧ ¬ (t'.buffers a).At g slot := by
  have hold : ¬ (t.buffers a).At g slot := fun hown => hne (h.distinct a' a g slot hat hown)
  refine ⟨hold, fun hown => ?_⟩
  rcases hfresh g slot hown with hsame | hlater
  · exact hold hsame
  · have hlt := (h.bound a' g hat.1).2
    rw [hat.2] at hlt
    omega

include hothers

theorem Inv.holds_of_ne (hframe : Frame schema t t' a) {a' : Address} (hne : a' ≠ a) :
    Holds schema t'.store (t'.buffers a') (contents a') := by
  rw [hothers a' hne]
  have hheld := h.holds a'
  unfold Holds at hheld ⊢
  cases hvalue : (t.buffers a').value with
  | null | array | store => rwa [hvalue] at hheld
  | group g =>
    rw [hvalue] at hheld
    obtain ⟨hold, hown⟩ := h.free hfresh hne (at_paxSlot hvalue (h.bound a' g hvalue).1)
    exact ⟨hheld.1, fun hsize => ((hframe g _ hold hown).2 _).trans (hheld.2 hsize)⟩

theorem Inv.distinct_update (a₁ a₂ : Address) (g : ℕ) (slot : Slot)
    (h₁ : (t'.buffers a₁).At g slot) (h₂ : (t'.buffers a₂).At g slot) : a₁ = a₂ := by
  by_cases hne₁ : a₁ = a
  · by_cases hne₂ : a₂ = a
    · rw [hne₁, hne₂]
    · subst hne₁
      rw [hothers a₂ hne₂] at h₂
      exact absurd h₁ (h.free hfresh hne₂ h₂).2
  · rw [hothers a₁ hne₁] at h₁
    by_cases hne₂ : a₂ = a
    · subst hne₂
      exact absurd h₂ (h.free hfresh hne₁ h₁).2
    · rw [hothers a₂ hne₂] at h₂
      exact h.distinct a₁ a₂ g slot h₁ h₂

theorem Inv.visible_update (hframe : Frame schema t t' a)
    (hvisible : ∀ g slot, (t.buffers a).At g slot ∨ (t'.buffers a).At g slot →
      ((t'.store.group g).isVisible slot = true ↔
        (t'.buffers a).At g slot ∧ (t'.buffers a).size ≠ 0)) (g : ℕ) (slot : Slot) :
    (t'.store.group g).isVisible slot = true ↔
      ∃ a', (t'.buffers a').At g slot ∧ (t'.buffers a').size ≠ 0 := by
  by_cases hmine : (t.buffers a).At g slot ∨ (t'.buffers a).At g slot
  · rw [hvisible g slot hmine]
    refine ⟨fun hown => ⟨a, hown⟩, ?_⟩
    rintro ⟨a', hat, hsize⟩
    by_cases hne : a' = a
    · subst hne
      exact ⟨hat, hsize⟩
    · rw [hothers a' hne] at hat
      exact absurd hmine (not_or.mpr (h.free hfresh hne hat))
  · obtain ⟨hold, hown⟩ := not_or.mp hmine
    rw [(hframe g slot hold hown).1, h.visible g slot]
    refine exists_congr fun a' => ?_
    by_cases hne : a' = a
    · rw [hne]
      exact iff_of_false (fun hat => hold hat.1) fun hat => hown hat.1
    · rw [hothers a' hne]

/-- One buffer's payload moves, the others' stay. -/
theorem Inv.move {used' : Finset Address} (hframe : Frame schema t t' a)
    (hholds : Holds schema t'.store (t'.buffers a) payload)
    (hcanonical : payload ≠ [] → CanonicalRow schema payload)
    (hnext : t'.store.nextSlot.toNat = used'.card % 2 ^ 64) (hused : used.card ≤ used'.card)
    (hasked : ∀ a' ∈ used', a' ∈ used ∨ a' = a) (hnew : a ∈ used' → (t'.buffers a).value ≠ .store)
    (hbound : ∀ g, (t'.buffers a).value = .group g →
      (t'.buffers a).capacity < kRows ∧ g * kRows + (t'.buffers a).capacity < used'.card)
    (hvisible : ∀ g slot, (t.buffers a).At g slot ∨ (t'.buffers a).At g slot →
      ((t'.store.group g).isVisible slot = true ↔
        (t'.buffers a).At g slot ∧ (t'.buffers a).size ≠ 0)) :
    Inv schema t' (update contents a payload) used' where
  holds := by
    refine (forall_update_iff contents fun a' c => Holds _ _ (t'.buffers a') c).mpr ⟨hholds, ?_⟩
    exact fun a' => h.holds_of_ne hfresh hothers hframe
  canonical := by
    refine (forall_update_iff contents fun _ c => c ≠ [] → CanonicalRow schema c).mpr ?_
    exact ⟨hcanonical, fun a' _ => h.canonical a'⟩
  nextSlot := hnext
  asked a' ha' := by
    by_cases hne : a' = a
    · subst hne
      exact hnew ha'
    · rw [hothers a' hne]
      exact h.asked a' ((hasked a' ha').resolve_right hne)
  bound a' g hvalue := by
    by_cases hne : a' = a
    · subst hne
      exact hbound g hvalue
    · rw [hothers a' hne] at hvalue ⊢
      have hold := h.bound a' g hvalue
      exact ⟨hold.1, by omega⟩
  distinct := h.distinct_update hfresh hothers
  visible := h.visible_update hfresh hothers hframe hvisible

end Update

/-! ## Steps -/

theorem group_setGroup (store : PaxStore) (g g' : ℕ) (group : PaxGroup) :
    (store.setGroup g group).group g' = if g' = g then group else store.group g' := by
  simp only [PaxStore.group, PaxStore.setGroup, update_apply]
  split_ifs <;> rfl

theorem not_at_of_heap (h : b.isPax = false) (g : ℕ) (slot : Slot) : ¬ b.At g slot := by
  rintro ⟨hvalue, -⟩
  simp [DataBuffer.isPax, hvalue] at h

theorem not_at_of_store (h : b.value = .store) (g : ℕ) (slot : Slot) : ¬ b.At g slot := by
  rintro ⟨hvalue, -⟩
  rw [h] at hvalue
  cases hvalue

theorem value_of_heap (h : b.isPax = false) : b.value ≠ .store ∧ ∀ g, b.value ≠ .group g := by
  constructor
  · intro hvalue
    simp [DataBuffer.isPax, hvalue] at h
  · intro g hvalue
    simp [DataBuffer.isPax, hvalue] at h

/-- An array holds the payload it is given. -/
theorem holds_resetHeap (schema : TableSchema) (store : PaxStore) (v : Option Bytes)
    (hheap : b.isPax = false) (hlength : b.bytes.length = b.capacity) :
    Holds schema store (b.resetHeap v) (v.getD []) ∧ (b.resetHeap v).isPax = false := by
  rw [DataBuffer.resetHeap]
  generalize v.getD [] = payload
  split_ifs with hempty hsmall
  · cases hvalue : b.value with
    | null | array => simp_all [Holds, DataBuffer.isPax, DataBuffer.bytes]
    | store | group => simp [DataBuffer.isPax, hvalue] at hheap
  · simp [Holds, DataBuffer.isPax]
  · have hle : payload.length ≤ b.capacity := Nat.not_lt.mp hsmall
    simp only [Holds, DataBuffer.isPax, List.length_append, List.length_drop, List.take_left,
      and_true]
    omega

theorem bytes_of_holds {store : PaxStore} (h : Holds schema store b payload)
    (hheap : b.isPax = false) : b.bytes.length = b.capacity := by
  cases hvalue : b.value with
  | null | array =>
    simp only [Holds, hvalue] at h
    simp [DataBuffer.bytes, hvalue, h.1]
  | store | group => simp [DataBuffer.isPax, hvalue] at hheap

theorem put_others (t : Table) (b : DataBuffer) (h : a' ≠ a) :
    (t.put a b).buffers a' = t.buffers a' := update_of_ne h _ _

theorem put_self (t : Table) (a : Address) (b : DataBuffer) : (t.put a b).buffers a = b :=
  update_self _ _ _

section

variable (h : Inv schema t contents used)

include h

/-- A buffer without a slot gets an array of its own. -/
theorem Inv.put_array {store : PaxStore} {used' : Finset Address}
    (hgroups : ∀ g, store.group g = t.store.group g)
    (hold : ∀ g slot, ¬ (t.buffers a).At g slot) (hnew : b.isPax = false)
    (hholds : Holds schema store b payload)
    (hcanonical : payload ≠ [] → CanonicalRow schema payload)
    (hnext : store.nextSlot.toNat = used'.card % 2 ^ 64) (hused : used.card ≤ used'.card)
    (hasked : ∀ a' ∈ used', a' ∈ used ∨ a' = a) :
    Inv schema (Table.put { t with store := store } a b) (update contents a payload)
      used' := by
  have hself := put_self { t with store := store } a b
  refine h.move (a := a) ?_ ?_ ?_ ?_ hcanonical hnext hused hasked ?_ ?_ ?_
  · rw [hself]
    exact fun g slot hat => absurd hat (not_at_of_heap hnew g slot)
  · exact fun a' hne => put_others _ b hne
  · intro g slot _ _
    rw [show (Table.put { t with store := store } a b).store.group g
      = t.store.group g from hgroups g]
    exact ⟨rfl, fun n => rfl⟩
  · rwa [hself]
  · rw [hself]
    exact fun _ => (value_of_heap hnew).1
  · rw [hself]
    exact fun g hvalue => absurd hvalue ((value_of_heap hnew).2 g)
  · rw [hself]
    exact fun g slot hat => hat.elim (fun hat => absurd hat (hold g slot))
      fun hat => absurd hat (not_at_of_heap hnew g slot)

/-- A payload put into an array of the buffer's own. -/
theorem Inv.put_heap (hold : (t.buffers a).isPax = false)
    (hnew : b.isPax = false) (hholds : Holds schema t.store b payload)
    (hcanonical : payload ≠ [] → CanonicalRow schema payload) :
    Inv schema (t.put a b) (update contents a payload) used :=
  h.put_array (fun _ => rfl) (not_at_of_heap hold) hnew hholds hcanonical h.nextSlot le_rfl
    fun _ => .inl

/-- The strips change at one slot, which a buffer keeps or leaves. -/
theorem Inv.put_slot {group : PaxGroup}
    (hvalue : (t.buffers a).value = .group g) (hothers : ∀ slot, slot ≠ (t.buffers a).paxSlot →
      group.isVisible slot = (t.store.group g).isVisible slot ∧
        ∀ n, gatherRow schema group slot n = gatherRow schema (t.store.group g) slot n)
    (hnew : b.isPax = false ∧ group.isVisible (t.buffers a).paxSlot = false ∨
      b.value = .group g ∧ b.capacity = (t.buffers a).capacity ∧
        (group.isVisible (t.buffers a).paxSlot = true ↔ b.size ≠ 0))
    (hholds : Holds schema (t.store.setGroup g group) b payload)
    (hcanonical : payload ≠ [] → CanonicalRow schema payload) :
    Inv schema ((t.setGroup g group).put a b) (update contents a payload) used := by
  have hself := put_self (t.setGroup g group) a b
  have hslot := (h.bound a g hvalue).1
  have hat := at_paxSlot hvalue hslot
  have hown {g' : ℕ} {slot : Slot} (hat' : (t.buffers a).At g' slot) :
      g' = g ∧ slot = (t.buffers a).paxSlot := by
    refine ⟨?_, (paxSlot_of_at hat').symm⟩
    have hg := hat'.1
    rw [hvalue] at hg
    exact (Pointer.group.inj hg).symm
  have hkept {g' : ℕ} {slot : Slot} (hat' : b.At g' slot) : (t.buffers a).At g' slot := by
    rcases hnew with ⟨hheap, -⟩ | ⟨hb, hcapacity, -⟩
    · exact absurd hat' (not_at_of_heap hheap g' slot)
    · exact ⟨by rw [hvalue, ← hb]; exact hat'.1, by rw [← hcapacity]; exact hat'.2⟩
  have hgroup (g' : ℕ) : ((t.setGroup g group).put a b).store.group g' =
      if g' = g then group else t.store.group g' := group_setGroup t.store g g' group
  have hrest : ∀ a', a' ≠ a → ((t.setGroup g group).put a b).buffers a' = t.buffers a' :=
    fun a' hne => put_others _ b hne
  refine h.move ?_ hrest ?_ ?_ hcanonical h.nextSlot le_rfl (fun a' ha' => .inl ha') ?_ ?_ ?_
  · rw [hself]
    exact fun g' slot hat' => .inl (hkept hat')
  · intro g' slot hfree _
    rw [hgroup]
    split_ifs with hg
    · subst hg
      refine hothers slot fun hsame => hfree ?_
      rwa [hsame]
    · exact ⟨rfl, fun n => rfl⟩
  · rwa [hself]
  · rw [hself]
    intro _ hb
    rcases hnew with ⟨hheap, -⟩ | ⟨hb', -⟩
    · exact (value_of_heap hheap).1 hb
    · rw [hb] at hb'
      cases hb'
  · rw [hself]
    intro g' hb
    rcases hnew with ⟨hheap, -⟩ | ⟨hb', hcapacity, -⟩
    · exact absurd hb ((value_of_heap hheap).2 g')
    · rw [hb'] at hb
      obtain rfl := Pointer.group.inj hb
      rw [hcapacity]
      exact h.bound a g hvalue
  · rw [hself]
    intro g' slot hat'
    obtain ⟨rfl, rfl⟩ := hown (hat'.elim id hkept)
    rw [hgroup, if_pos rfl]
    rcases hnew with ⟨hheap, hhidden⟩ | ⟨hb, hcapacity, hshown⟩
    · rw [hhidden]
      simp only [Bool.false_eq_true, false_iff, not_and]
      exact fun hb => absurd hb (not_at_of_heap hheap _ _)
    · rw [hshown]
      exact ⟨fun hsize => ⟨⟨hb, hcapacity.trans hat.2⟩, hsize⟩, fun hown => hown.2⟩

omit h in
/-- A buffer without a payload is left as it is. -/
theorem clear_of_size_eq_zero (hsize : (t.buffers a).size = 0) : t.clear a = t := by
  have hsame : t.put a (t.buffers a) = t := by
    rw [Table.put, update_eq_self]
  have hbuffer : { t.buffers a with size := 0 } = t.buffers a := by rw [← hsize]
  rw [Table.clear, hbuffer, hsame]
  split
  · rw [if_neg (not_not.mpr hsize)]
  · rfl

/-- Taking a payload away hides the slot and keeps it. -/
theorem Inv.clear (hpax : (t.buffers a).isPax = true) :
    Inv schema (t.clear a) (update contents a []) used := by
  have hheld := h.holds a
  have hunchanged (hsize : (t.buffers a).size = 0) (hnil : contents a = []) :
      Inv schema (t.clear a) (update contents a []) used := by
    rw [clear_of_size_eq_zero hsize, ← hnil, update_eq_self]
    exact h
  cases hvalue : (t.buffers a).value with
  | null | array => simp [DataBuffer.isPax, hvalue] at hpax
  | store =>
    simp only [Holds, hvalue] at hheld
    exact hunchanged hheld.1 hheld.2
  | group g =>
    simp only [Holds, hvalue] at hheld
    by_cases hsize : (t.buffers a).size = 0
    · exact hunchanged hsize (List.length_eq_zero_iff.mp (hheld.1.trans hsize))
    · have hclear : t.clear a = (t.setGroup g
          ((t.store.group g).retireSlot (t.buffers a).paxSlot)).put a
            { t.buffers a with size := 0 } := by
        simp [Table.clear, hvalue, hsize]
      rw [hclear]
      refine h.put_slot hvalue (fun slot hne => ?_) (.inr ⟨hvalue, rfl, ?_⟩) ?_ (absurd rfl)
      · rw [PaxGroup.isVisible_retireSlot]
        exact ⟨by simp [hne], fun n => rfl⟩
      · rw [PaxGroup.isVisible_retireSlot]
        simp
      · simp [Holds, hvalue]

/-- A row is scattered into the buffer's slot, or put into an array for good. -/
theorem Inv.install (hvalue : (t.buffers a).value = .group g)
    (hne : payload ≠ []) (hcanonical : CanonicalRow schema payload) :
    Inv schema (Table.install schema t a g payload) (update contents a payload) used := by
  have hpos : payload.length ≠ 0 := by simpa using hne
  generalize hslot : (t.buffers a).paxSlot = slot
  have hothers {slot' : Slot} (hne' : slot' ≠ slot) (n : ℕ) :
      gatherRow schema (scatterRow schema (t.store.group g) slot payload).2 slot' n =
        gatherRow schema (t.store.group g) slot' n :=
    gatherRow_scatterRow_of_ne (Ne.symm hne') payload n
  rw [Table.install, hslot]
  cases hscatter : scatterRow schema (t.store.group g) slot payload with
  | mk accepted group =>
    cases accepted with
    | true =>
      have haccepted : (scatterRow schema (t.store.group g) slot payload).1 = true := by
        rw [hscatter]
      have hvisible := isVisible_scatterRow haccepted
      have hgather := (gatherRow_scatterRow_iff haccepted).mpr hcanonical
      simp only [hscatter] at hothers hvisible hgather
      refine h.put_slot hvalue (fun slot' hne' => ?_) (.inr ⟨hvalue, rfl, ?_⟩) ?_
        fun _ => hcanonical
      · rw [hslot] at hne'
        rw [hvisible]
        exact ⟨by simp [hne'], hothers hne'⟩
      · rw [hslot, hvisible]
        simp [hne]
      · have hgroup : (t.store.setGroup g group).group g = group := by
          rw [group_setGroup, if_pos rfl]
        have hplace : { t.buffers a with size := payload.length }.paxSlot = slot := hslot
        simp only [Holds, hvalue, hgroup, true_and]
        intro _
        rw [← hvalue, hplace]
        exact hgather
    | false =>
      have hsame : (scatterRow schema (t.store.group g) slot payload).2 = t.store.group g :=
        scatterRow_refused (by rw [hscatter])
      simp only [hscatter] at hsame
      subst hsame
      obtain ⟨hholds, hheap⟩ := holds_resetHeap schema
        (b := { t.buffers a with value := .null, capacity := 0 })
        (t.store.setGroup g ((t.store.group g).retireSlot slot)) (some payload) rfl rfl
      refine h.put_slot hvalue (fun slot' hne' => ?_) (.inl ⟨hheap, ?_⟩) hholds fun _ => hcanonical
      · rw [hslot] at hne'
        rw [PaxGroup.isVisible_retireSlot]
        exact ⟨by simp [hne'], fun n => rfl⟩
      · rw [hslot, PaxGroup.isVisible_retireSlot]
        simp

omit h in
/-- There are not more buffers than addresses. -/
theorem card_lt_of_not_mem (h : a ∉ used) : used.card < 2 ^ 64 := by
  have hle : (insert a used).card ≤ (Finset.range (2 ^ 64)).card := by
    apply Finset.card_le_card_of_injOn UInt64.toNat
    · intro b _
      simpa using b.toNat_lt
    · intro b _ c _ hbc
      exact UInt64.toNat_inj.mp hbc
  rw [Finset.card_insert_of_notMem h, Finset.card_range] at hle
  omega

/-- What a blank buffer gets when it asks for a slot. -/
theorem Inv.allocateSlot (hvalue : (t.buffers a).value = .store) :
    a ∉ used ∧ t.store.allocateSlot.2.nextSlot.toNat = (insert a used).card % 2 ^ 64 ∧
      (∀ g, t.store.allocateSlot.2.group g = t.store.group g) ∧
      ∀ g slot, t.store.allocateSlot.1 = some (g, slot) → g * kRows + slot = used.card := by
  have hfresh : a ∉ used := fun hmem => h.asked a hmem hvalue
  have hcard := card_lt_of_not_mem hfresh
  have hnext : t.store.nextSlot.toNat = used.card := by
    rw [h.nextSlot, Nat.mod_eq_of_lt hcard]
  have hlater : (t.store.nextSlot + 1).toNat = (insert a used).card % 2 ^ 64 := by
    rw [UInt64.toNat_add, hnext, Finset.card_insert_of_notMem hfresh]
    rfl
  refine ⟨hfresh, ?_, ?_, ?_⟩
  · rw [PaxStore.allocateSlot]
    split_ifs
    · exact hlater
    · exact hlater
  · intro g
    rw [PaxStore.allocateSlot]
    split_ifs
    · rfl
    · rw [group_setGroup]
      split_ifs with hg
      · rw [hg]
        rfl
      · rfl
  · intro g slot hslot
    rw [PaxStore.allocateSlot] at hslot
    split_ifs at hslot
    obtain ⟨rfl, rfl⟩ := Prod.mk.inj (Option.some.inj hslot)
    rw [← hnext]
    exact Nat.div_add_mod' _ _

omit h in
theorem asked_insert (h : a' ∈ insert a used) : a' ∈ used ∨ a' = a :=
  (Finset.mem_insert.mp h).symm

/-- A blank buffer is bound to a slot no buffer has had. -/
theorem Inv.bind {slot : Slot}
    (hvalue : (t.buffers a).value = .store) (hslot : t.store.allocateSlot.1 = some (g, slot)) :
    Inv schema (Table.put { t with store := t.store.allocateSlot.2 } a
      { t.buffers a with value := .group g, capacity := slot }) contents (insert a used) := by
  obtain ⟨hfresh, hnext, hgroups, hindex⟩ := h.allocateSlot hvalue
  have hplace := hindex g slot hslot
  have hheld := h.holds a
  simp only [Holds, hvalue] at hheld
  have hcontents : contents = update contents a [] := by
    rw [← hheld.2, update_eq_self]
  have hcard := Finset.card_insert_of_notMem hfresh
  -- nobody has the slot, so it is not visible
  have hhidden : (t.store.group g).isVisible slot = false := by
    rw [Bool.eq_false_iff, Ne, h.visible]
    rintro ⟨a', hat, -⟩
    have hlt := (h.bound a' g hat.1).2
    rw [hat.2] at hlt
    omega
  rw [hcontents]
  refine h.move (a := a) ?_ ?_ ?_ ?_ (absurd rfl) hnext (by omega)
    (fun a' ha' => asked_insert ha') ?_ ?_ ?_
  · rw [put_self]
    rintro g' slot' ⟨hb, hc⟩
    obtain rfl := Pointer.group.inj hb
    rw [← hc]
    exact .inr hplace.ge
  · exact fun a' hne => put_others _ _ hne
  · intro g' slot' _ _
    have hsame : (Table.put { t with store := t.store.allocateSlot.2 } a
        { t.buffers a with value := .group g, capacity := slot }).store.group g' =
          t.store.group g' := hgroups g'
    rw [hsame]
    exact ⟨rfl, fun n => rfl⟩
  · rw [put_self]
    simp [Holds, hheld.1]
  · rw [put_self]
    intro _ hb
    cases hb
  · rw [put_self]
    intro g' hb
    obtain rfl := Pointer.group.inj hb
    exact ⟨slot.isLt, by dsimp only; omega⟩
  · rw [put_self]
    rintro g' slot' (hat | ⟨hb, hc⟩)
    · exact absurd hat (not_at_of_store hvalue g' slot')
    · obtain rfl := Pointer.group.inj hb
      obtain rfl : slot = slot' := Fin.ext hc
      have hsame : (Table.put { t with store := t.store.allocateSlot.2 } a
          { t.buffers a with value := .group g, capacity := slot }).store.group g =
            t.store.group g := hgroups g
      rw [hsame, hhidden]
      simp [hheld.1]

/-- A blank buffer of a full table gets an array for good. -/
theorem Inv.full (hvalue : (t.buffers a).value = .store)
    (hcanonical : CanonicalRow schema payload) :
    Inv schema (Table.put { t with store := t.store.allocateSlot.2 } a
      (DataBuffer.resetHeap { t.buffers a with value := .null, capacity := 0 } (some payload)))
      (update contents a payload) (insert a used) := by
  obtain ⟨hfresh, hnext, hgroups, -⟩ := h.allocateSlot hvalue
  obtain ⟨hholds, hheap⟩ := holds_resetHeap schema
    (b := { t.buffers a with value := .null, capacity := 0 }) t.store.allocateSlot.2
    (some payload) rfl rfl
  have hcard := Finset.card_insert_of_notMem hfresh
  exact h.put_array hgroups (not_at_of_store hvalue) hheap hholds (fun _ => hcanonical) hnext
    (by omega) fun _ => asked_insert

/-- **`Reset` keeps the invariant and gives the buffer its payload.** -/
theorem Inv.reset (a : Address) (v : Option Bytes)
    (hcanonical : v.getD [] ≠ [] → CanonicalRow schema (v.getD [])) :
    ∃ used', Inv schema (Table.reset schema t a v) (update contents a (v.getD []))
      used' := by
  rw [Table.reset]
  split_ifs with hpax
  · rw [Table.resetPax]
    generalize v.getD [] = payload at hcanonical ⊢
    split_ifs with hempty
    · subst hempty
      exact ⟨used, h.clear hpax⟩
    · have hrow := hcanonical hempty
      cases hvalue : (t.buffers a).value with
      | null | array => simp [DataBuffer.isPax, hvalue] at hpax
      | group => exact ⟨used, h.install hvalue hempty hrow⟩
      | store =>
        cases hslot : t.store.allocateSlot with
        | mk found store =>
          have hstore : t.store.allocateSlot.2 = store := by rw [hslot]
          cases found with
          | none =>
            have hfull := h.full hvalue hrow
            rw [hstore] at hfull
            exact ⟨_, hfull⟩
          | some place =>
            obtain ⟨g, slot⟩ := place
            have hfound : t.store.allocateSlot.1 = some (g, slot) := by rw [hslot]
            have hbound := h.bind hvalue hfound
            rw [hstore] at hbound
            exact ⟨_, hbound.install (by rw [put_self]) hempty hrow⟩
  · have hheap := Bool.eq_false_iff.mpr hpax
    obtain ⟨hholds, hheap'⟩ := holds_resetHeap schema t.store v hheap
      (bytes_of_holds (h.holds a) hheap)
    exact ⟨used, h.put_heap hheap hheap' hholds hcanonical⟩

theorem Inv.withTmp (tmp : Bytes) : Inv schema { t with tmp } contents used := { h with }

omit h in
theorem length_resize (tmp : Bytes) (n : ℕ) : (Table.resize tmp n).length = n := by
  rw [Table.resize, List.length_append, List.length_take, length_zeros]
  omega

omit h in
/-- A row gathered into an array, which is made longer first where it is too short. -/
theorem holds_gathered (schema : TableSchema) (store : PaxStore) (row : Bytes)
    (hlength : b.bytes.length = b.capacity) : let b := if b.capacity < row.length then
        { b with value := .array (zeros row.length), capacity := row.length }
      else b
    Holds schema store
      { b with value := .array (row ++ b.bytes.drop row.length), size := row.length } row := by
  split_ifs with hsmall
  · simp [Holds, DataBuffer.bytes]
  · simp only [Holds, List.length_append, List.length_drop, List.take_left, and_true]
    omega

/-- **`Reset` with another buffer's payload** gives the buffer that payload. -/
theorem Inv.resetFrom (a rhs : Address) :
    ∃ used', Inv schema (Table.resetFrom schema t a rhs)
      (update contents a (contents rhs)) used' := by
  have hheld := h.holds rhs
  have hcanonical := h.canonical rhs
  have hempty (hnil : contents rhs = []) : ∃ used', Inv schema (Table.reset schema t a none)
      (update contents a (contents rhs)) used' := by
    rw [hnil]
    exact h.reset a none (absurd rfl)
  cases hvalue : (t.buffers rhs).value with
  | null =>
    simp only [Holds, hvalue] at hheld
    simp only [Table.resetFrom, hvalue]
    exact hempty hheld.2
  | array =>
    simp only [Holds, hvalue] at hheld
    simp only [Table.resetFrom, hvalue, hheld.2.2]
    exact h.reset a (some (contents rhs)) hcanonical
  | store =>
    simp only [Holds, hvalue] at hheld
    simp only [Table.resetFrom, hvalue, hheld.1, if_true]
    exact hempty hheld.2
  | group =>
    simp only [Holds, hvalue] at hheld
    by_cases hsize : (t.buffers rhs).size = 0
    · simp only [Table.resetFrom, hvalue, hsize, if_true]
      exact hempty (List.length_eq_zero_iff.mp (hheld.1.trans hsize))
    · have hrow : Table.gatherInto schema t (t.buffers rhs) = contents rhs := by
        simp only [Table.gatherInto, hvalue]
        exact hheld.2 hsize
      have hdrop : (Table.resize t.tmp (t.buffers rhs).size).drop (contents rhs).length = [] :=
        List.drop_eq_nil_of_le (by rw [length_resize, hheld.1])
      simp only [Table.resetFrom, hvalue, if_neg hsize, hrow, hdrop, List.append_nil]
      split_ifs with hpax hsmall
      · exact (h.withTmp _).reset a (some (contents rhs)) hcanonical
      all_goals
        have hheap := Bool.eq_false_iff.mpr hpax
        have hgathered := holds_gathered schema t.store (contents rhs)
          (bytes_of_holds (h.holds a) hheap)
        rw [← hheld.1] at hsmall
        simp only [hsmall, if_true, if_false] at hgathered
        refine ⟨used, h.put_heap hheap rfl ?_ hcanonical⟩
      · rw [← hheld.1]
        exact hgathered
      · exact hgathered

theorem Inv.step {call : Call} (hcall : call.Canonical schema) :
    ∃ used', Inv schema (t.step schema call) (contents.step call) used' := by
  cases call with
  | reset a v =>
    refine h.reset a v fun hne => ?_
    cases v with
    | none => exact absurd rfl hne
    | some row => exact hcall row rfl hne
  | copy a rhs => exact h.resetFrom a rhs

theorem Inv.run {calls : List Call} (hcalls : ∀ call ∈ calls, call.Canonical schema) :
    ∃ used', Inv schema (t.run schema calls) (calls.foldl Registers.step contents) used' := by
  induction calls generalizing t contents used with
  | nil => exact ⟨used, h⟩
  | cons call calls ih =>
    obtain ⟨used₁, hnext⟩ := h.step (hcalls call (.head _))
    exact ih hnext fun c hc => hcalls c (.tail _ hc)

omit h in
theorem inv_initial (schema : TableSchema) (inTable : Address → Bool) :
    Inv schema (Table.initial inTable) (fun _ => []) ∅ := by
  have hvalue (a : Address) (g : ℕ) : ((Table.initial inTable).buffers a).value ≠ .group g := by
    simp only [Table.initial]
    intro h
    split_ifs at h <;> cases h
  constructor
  case holds =>
    intro a
    simp only [Table.initial]
    split_ifs <;> exact ⟨rfl, rfl⟩
  case canonical => exact fun a hne => absurd rfl hne
  case nextSlot => rfl
  case asked => exact fun a ha => absurd ha (Finset.notMem_empty a)
  case bound => exact fun a g h => absurd h (hvalue a g)
  case distinct => exact fun a a' g slot h _ => absurd h.1 (hvalue a g)
  case visible =>
    intro g slot
    constructor
    · intro hvisible
      have hnone : ((Table.initial inTable).store.group g).isVisible slot = false :=
        BitVec.getLsbD_zero
      rw [hnone] at hvisible
      cases hvisible
    · rintro ⟨a, hat, -⟩
      exact absurd hat.1 (hvalue a g)

/-- A buffer reads as its payload, wherever that is. -/
theorem Inv.toString_eq (a : Address) : t.toString schema a = contents a := by
  have hheld := h.holds a
  cases hvalue : (t.buffers a).value with
  | null =>
    simp only [Holds, hvalue] at hheld
    simp only [Table.toString, hvalue, hheld.2]
  | array =>
    simp only [Holds, hvalue] at hheld
    simp only [Table.toString, hvalue, hheld.2.2]
  | store =>
    simp only [Holds, hvalue] at hheld
    simp only [Table.toString, hvalue, hheld.1, hheld.2, if_true]
  | group =>
    simp only [Holds, hvalue] at hheld
    simp only [Table.toString, hvalue]
    split_ifs with hsize
    · exact (List.length_eq_zero_iff.mp (hheld.1.trans hsize)).symm
    · have hrow : Table.gatherInto schema t (t.buffers a) = contents a := by
        simp only [Table.gatherInto, hvalue]
        exact hheld.2 hsize
      rw [hrow, hheld.1, Nat.sub_self]
      exact List.append_nil _

end

end Invariant

/-! ## Heap buffers stay heap buffers -/

section Fallback

variable {schema : TableSchema} {t : Table}

theorem isPax_resetHeap (v : Option Bytes) (h : b.isPax = false) :
    (b.resetHeap v).isPax = false := by
  rw [DataBuffer.resetHeap]
  split_ifs
  · exact h
  · rfl
  · rfl

theorem install_others (g : ℕ) (payload : Bytes) (hne : a' ≠ a) :
    (Table.install schema t a g payload).buffers a' = t.buffers a' := by
  rw [Table.install]
  split <;> exact put_others _ _ hne

theorem clear_others (hne : a' ≠ a) : (t.clear a).buffers a' = t.buffers a' := by
  rw [Table.clear]
  split
  · split_ifs
    · exact put_others _ _ hne
    · exact put_others _ _ hne
  · exact put_others _ _ hne

/-- An operation on one buffer does not touch the others. -/
theorem reset_others (v : Option Bytes) (hne : a' ≠ a) :
    (Table.reset schema t a v).buffers a' = t.buffers a' := by
  rw [Table.reset]
  split_ifs
  · rw [Table.resetPax]
    split_ifs
    · exact clear_others hne
    · split
      · exact install_others _ _ hne
      · split
        · exact put_others _ _ hne
        · rw [install_others _ _ hne]
          exact put_others _ _ hne
  · exact put_others _ _ hne

theorem heap_reset (a' : Address) (v : Option Bytes) (h : (t.buffers a).isPax = false) :
    ((Table.reset schema t a' v).buffers a).isPax = false := by
  by_cases hne : a = a'
  · subst hne
    rw [Table.reset, if_neg (by rw [h]; exact Bool.false_ne_true), put_self]
    exact isPax_resetHeap v h
  · rwa [reset_others v hne]

theorem heap_step (call : Call) (h : (t.buffers a).isPax = false) :
    ((t.step schema call).buffers a).isPax = false := by
  cases call with
  | reset a' v => exact heap_reset a' v h
  | copy a' =>
    rw [Table.step, Table.resetFrom]
    split
    · exact heap_reset a' none h
    · exact heap_reset a' _ h
    · split_ifs with hsize hpax
      · exact heap_reset a' none h
      · exact heap_reset (t := { t with tmp := _ }) a' _ h
      all_goals
        by_cases hne : a = a'
        · subst hne
          rw [put_self]
          rfl
        · rwa [put_others _ _ hne]

/-- **A buffer with an array never goes back to the strips.** -/
theorem heap_run (calls : List Call) (h : (t.buffers a).isPax = false) :
    ((t.run schema calls).buffers a).isPax = false := by
  induction calls generalizing t with
  | nil => exact h
  | cons call calls ih => exact ih (heap_step call h)

end Fallback

/-! ## Buffers as registers -/

/-- **Buffers are byte registers.** After any calls with canonical rows, every
buffer reads as the payload it was last given, no two buffers have one slot, the
visible slots are those of buffers with a payload, and a buffer that had an array
at some time has one still. -/
theorem buffers_are_registers (schema : FittingSchema) (inTable : Address → Bool)
    {calls : List Call} (hcalls : ∀ call ∈ calls, call.Canonical schema) :
    let t := (Table.initial inTable).run schema calls
    (∀ a, t.toString schema a = Registers.run calls a) ∧
      (∀ a a' g slot, (t.buffers a).At g slot → (t.buffers a').At g slot → a = a') ∧
      (∀ g slot, (t.store.group g).isVisible slot = true ↔
        ∃ a, (t.buffers a).At g slot ∧ (t.buffers a).size ≠ 0) ∧
      ∀ earlier later a, calls = earlier ++ later →
        (((Table.initial inTable).run schema earlier).buffers a).isPax = false →
          (t.buffers a).isPax = false := by
  obtain ⟨used, hinv⟩ := (inv_initial schema inTable).run hcalls
  refine ⟨hinv.toString_eq, hinv.distinct, hinv.visible, ?_⟩
  rintro earlier later a rfl hheap
  rw [Table.run, List.foldl_append]
  exact heap_run later hheap

/-- No flags, and the integer seven. -/
def sevenRow : Bytes := [0xFF, 1, 1, 55]

theorem canonical_sevenRow : CanonicalRow integerTable sevenRow := by
  refine ⟨[[], [55]], by decide, fun f v hv => ?_⟩
  rcases f with _ | _ | f
  · obtain rfl := Option.some.inj hv
    exact ⟨by decide, absurd rfl⟩
  · obtain rfl := Option.some.inj hv
    exact ⟨by decide, fun _ => .inl (by decide)⟩
  · cases hv

/-- A row is given to one buffer, copied to another and taken away from the first. -/
def moveCalls : List Call := [.reset 1 (some sevenRow), .copy 2 1, .reset 1 none]

theorem buffers_are_registers_moved :
    (∀ call ∈ moveCalls, call.Canonical integerTable) ∧
      ((Table.initial fun _ => true).run integerTable moveCalls).toString integerTable 1 = [] ∧
      ((Table.initial fun _ => true).run integerTable moveCalls).toString integerTable 2 =
        sevenRow := by
  have hcalls : ∀ call ∈ moveCalls, call.Canonical integerTable := by
    intro call hcall
    simp only [moveCalls, List.mem_cons, List.not_mem_nil, or_false] at hcall
    rcases hcall with rfl | rfl | rfl
    · intro row hrow _
      obtain rfl := Option.some.inj hrow
      exact canonical_sevenRow
    · trivial
    · intro row hrow
      cases hrow
  have hreads := (buffers_are_registers integerTable (fun _ => true) hcalls).1
  exact ⟨hcalls, (hreads 1).trans (by decide), (hreads 2).trans (by decide)⟩

theorem canonical_wideRow (b : UInt8) : CanonicalRow wideTable (wideRow b) := by
  refine ⟨[[], [b]], rfl, fun f v hv => ?_⟩
  rcases f with _ | _ | f
  · obtain rfl := Option.some.inj hv
    exact ⟨by decide, absurd rfl⟩
  · obtain rfl := Option.some.inj hv
    exact ⟨by simp, fun _ => trivial⟩
  · cases hv

/-- Two buffers of the table with the wide column are given a row each. -/
def wideCalls : List Call := [.reset 1 (some (wideRow 65)), .reset 2 (some (wideRow 66))]

/-- Where the stride wraps, the second buffer's row replaces the column of the first
buffer's. -/
theorem wide_buffer_overwritten :
    (∀ call ∈ wideCalls, call.Canonical wideTable) ∧
      Registers.run wideCalls 1 = wideRow 65 ∧
      ((Table.initial fun _ => true).run wideTable wideCalls).toString wideTable 1 =
        wideRow 66 := by
  refine ⟨fun call hcall => ?_, by decide, by decide +kernel⟩
  simp only [wideCalls, List.mem_cons, List.not_mem_nil, or_false] at hcall
  rcases hcall with rfl | rfl
  all_goals
    intro row hrow _
    obtain rfl := Option.some.inj hrow
    exact canonical_wideRow _

end LineairDB.Pax
