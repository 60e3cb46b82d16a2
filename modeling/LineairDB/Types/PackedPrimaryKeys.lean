import LineairDB.Recovery.History

/-!
# Packed primary-key lists

A secondary-index slot keeps its primary keys in one immutable block: a count, a
byte length and length-prefixed records in lexicographic order. An edit builds a
new block by splicing one record in or out; a view walks the records. A pointer
into a block is here the bytes from it to the end of the payload.

The level above is the sorted list that `insertKey` and `eraseKey` edit, and above
that the set of its members.

* `readLength_writeVarint` — a length is read back from its varint.
* `seek_encode` — where the search loop of an edit stops.
* `insert_eq`, `erase_eq` — an edit packs the edited list, or throws.
* `refines_sorted_set` — every list that can be built behaves as a sorted set.
-/

namespace LineairDB.PackedPrimaryKeys

open ByteFile Stateless Recovery

/-! ## Records -/

/-- The bytes of a length. -/
def varintSize (value : Nat) : Nat :=
  if 0x80 ≤ value then varintSize (value >>> 7) + 1 else 1
termination_by value
decreasing_by rw [Nat.shiftRight_eq_div_pow]; omega

/-- The bytes of a key with its length. -/
def encodedRecordSize (key : Bytes) : Nat :=
  varintSize key.length + key.length

/-- A length in groups of seven bits, lowest first. -/
def writeVarint (value : Nat) : Bytes :=
  if 0x80 ≤ value then UInt8.ofNat (value &&& 0x7f ||| 0x80) :: writeVarint (value >>> 7)
  else [UInt8.ofNat value]
termination_by value
decreasing_by rw [Nat.shiftRight_eq_div_pow]; omega

/-- A key with its length in front. -/
def writeRecord (key : Bytes) : Bytes :=
  writeVarint key.length ++ key

/-- The loop of `DecodeRecord` over the bytes of the length. -/
def readLength : Bytes → Nat → Nat → Option (Nat × Bytes)
  | [], _, _ => none
  | byte :: cursor, length, shift =>
    let length := length ||| (byte &&& 0x7f).toNat <<< shift
    if byte &&& 0x80 = 0 then some (length, cursor) else readLength cursor length (shift + 7)

/-- A record and what is behind it. -/
structure Record where
  value : Bytes
  next : Bytes

/-- The record at the front. -/
def decodeRecord (start : Bytes) : Record :=
  match readLength start 0 0 with
  | some (length, cursor) => ⟨cursor.take length, cursor.drop length⟩
  | none => ⟨[], []⟩

theorem length_readLength {cursor rest : Bytes} {length shift n : Nat}
    (h : readLength cursor length shift = some (n, rest)) : rest.length < cursor.length := by
  induction cursor generalizing length shift with
  | nil => cases h
  | cons byte cursor ih =>
    rw [readLength] at h
    split at h
    · cases h
      exact Nat.lt_succ_self _
    · exact Nat.lt_succ_of_lt (ih h)

/-- Decoding moves the cursor on, so a walk over the records ends. -/
theorem length_next_lt {start : Bytes} (h : start ≠ []) :
    (decodeRecord start).next.length < start.length := by
  rw [decodeRecord]
  split
  · rename_i heq
    exact lt_of_le_of_lt (by simp) (length_readLength heq)
  · exact List.length_pos_of_ne_nil h

theorem length_writeVarint (value : Nat) : (writeVarint value).length = varintSize value := by
  induction value using writeVarint.induct with
  | case1 value h ih => rw [writeVarint, varintSize, if_pos h, if_pos h, List.length_cons, ih]
  | case2 value h => rw [writeVarint, varintSize, if_neg h, if_neg h, List.length_singleton]

theorem length_writeRecord (key : Bytes) : (writeRecord key).length = encodedRecordSize key := by
  rw [writeRecord, List.length_append, length_writeVarint, encodedRecordSize]

theorem writeVarint_ne_nil (value : Nat) : writeVarint value ≠ [] := by
  rw [writeVarint]
  split <;> simp

theorem more_byte : ∀ x < 0x80, (UInt8.ofNat (x ||| 0x80) &&& 0x7f).toNat = x ∧
    UInt8.ofNat (x ||| 0x80) &&& 0x80 ≠ 0 := by
  decide +kernel

theorem last_byte : ∀ x < 0x80, (UInt8.ofNat x &&& 0x7f).toNat = x ∧
    UInt8.ofNat x &&& 0x80 = 0 := by
  decide +kernel

theorem low_or_high (value shift : Nat) :
    (value &&& 0x7f) <<< shift ||| (value >>> 7) <<< (shift + 7) = value <<< shift := by
  rw [Nat.add_comm shift, Nat.shiftLeft_add, ← Nat.shiftLeft_or_distrib]
  congr 1
  refine Nat.eq_of_testBit_eq fun i => ?_
  rw [show 0x7f = 2 ^ 7 - 1 from rfl, Nat.testBit_or, Nat.testBit_and, Nat.testBit_two_pow_sub_one,
    Nat.testBit_shiftLeft, Nat.testBit_shiftRight]
  by_cases hi : i < 7
  · simp [hi]
  · simp [hi, Nat.add_sub_cancel' (not_lt.mp hi), not_lt.mp hi]

theorem readLength_writeVarint (value length shift : Nat) (rest : Bytes) :
    readLength (writeVarint value ++ rest) length shift
      = some (length ||| value <<< shift, rest) := by
  induction value using writeVarint.induct generalizing length shift with
  | case1 value h ih =>
    obtain ⟨hlow, hmore⟩ :=
      more_byte (value &&& 0x7f) (Nat.and_le_right.trans_lt (by decide))
    rw [writeVarint, if_pos h, List.cons_append, readLength, if_neg hmore, ih, hlow, Nat.or_assoc,
      low_or_high]
  | case2 value h =>
    obtain ⟨hlow, hlast⟩ := last_byte value (not_le.mp h)
    rw [writeVarint, if_neg h, List.cons_append, List.nil_append, readLength, if_pos hlast, hlow]

theorem decodeRecord_writeRecord (key rest : Bytes) :
    decodeRecord (writeRecord key ++ rest) = ⟨key, rest⟩ := by
  rw [decodeRecord, writeRecord, List.append_assoc, readLength_writeVarint]
  simp

/-! ## Blocks -/

/-- A list on the heap. -/
structure Packed where
  count : Nat
  bytes : Nat
  records : Bytes
  deriving Repr, DecidableEq

/-- The blocks allocated so far; a block stays in place while a caller holds it. -/
abbrev Heap := List Packed

/-- A pointer to a list, or null. -/
abbrev Ptr := Option Nat

variable {q : Ptr} {ks : List Bytes}

/-- `CheckFitsUint32`, with the field in its error. -/
def checkFitsUint32 (value : Nat) (field : String) : Except String Nat :=
  if 2 ^ 32 - 1 < value then .error field else .ok (value % 2 ^ 32)

/-- A new list on the heap. -/
def allocateMutable (heap : Heap) (count bytes : Nat) (records : Bytes) : Heap × Ptr :=
  (heap ++ [⟨count, bytes, records⟩], some heap.length)

/-- `FromSortedDeduped` -/
def fromSortedDeduped (heap : Heap) (keys : List Bytes) : Except String (Heap × Ptr) := do
  let payloadBytes ← keys.foldlM (fun bytes key =>
    checkFitsUint32 (bytes + encodedRecordSize key) "packed primary-key list bytes") 0
  let count ← checkFitsUint32 keys.length "packed primary-key list count"
  pure (allocateMutable heap count (payloadBytes % 2 ^ 32) (keys.flatMap writeRecord))

/-- The list of one key. -/
def fromOne (heap : Heap) (key : Bytes) : Except String (Heap × Ptr) := do
  let bytes ← checkFitsUint32 (encodedRecordSize key) "packed primary-key list bytes"
  pure (allocateMutable heap 1 bytes (writeRecord key))

/-- The records of a block, up to `src_end`. -/
def Packed.payload (keys : Packed) : Bytes := keys.records.take keys.bytes

/-- The loop of `Insert` and `Erase`: the first record not below the key, and
whether it is the key. -/
def seek (key cursor : Bytes) : Bytes × Bool :=
  if cursor = [] then ([], false)
  else
    let record := decodeRecord cursor
    if record.value = key then (cursor, true)
    else if ¬ record.value < key then (cursor, false)
    else seek key record.next
termination_by cursor.length
decreasing_by exact length_next_lt ‹_›

/-- `Insert`; the order of its two size checks is left open by the source. -/
def insert (heap : Heap) (keys : Ptr) (key : Bytes) : Except String (Heap × Ptr) :=
  match keys.bind (heap[·]?) with
  | none => fromOne heap key
  | some src =>
    let (insertPos, present) := seek key src.payload
    if present then .ok (heap, keys)
    else do
      let count ← checkFitsUint32 (src.count + 1) "packed primary-key list count"
      let bytes ← checkFitsUint32 (src.bytes + encodedRecordSize key)
        "packed primary-key list bytes"
      let prefixBytes := src.payload.length - insertPos.length
      pure (allocateMutable heap count bytes
        (src.payload.take prefixBytes ++ writeRecord key ++ insertPos))

/-- `Erase` -/
def erase (heap : Heap) (keys : Ptr) (key : Bytes) : Except String (Heap × Ptr) :=
  match keys.bind (heap[·]?) with
  | none => .ok (heap, keys)
  | some src =>
    if src.count = 0 then .ok (heap, keys)
    else
      let (start, present) := seek key src.payload
      if present then do
        let next := (decodeRecord start).next
        let removedBytes := start.length - next.length
        let count ← checkFitsUint32 (src.count - 1) "packed primary-key list count"
        let prefixBytes := src.payload.length - start.length
        pure (allocateMutable heap count ((src.bytes - removedBytes) % 2 ^ 32)
          (src.payload.take prefixBytes ++ next))
      else .ok (heap, keys)

/-! ## The view -/

/-- A forward iterator of a view; equality of iterators is equality of both
fields. -/
structure Iterator where
  cursor : Bytes
  remaining : Nat
  deriving Repr, DecidableEq

/-- Behind the last key. -/
def Iterator.pastEnd : Iterator := ⟨[], 0⟩

/-- `operator*` -/
def Iterator.key (it : Iterator) : Bytes := (decodeRecord it.cursor).value

/-- `operator++`, whose assertion is that keys remain. -/
def Iterator.next (it : Iterator) : Iterator :=
  ⟨(decodeRecord it.cursor).next, it.remaining - 1⟩

/-- A measure that goes down with every step. -/
def Iterator.size (it : Iterator) : Nat := it.cursor.length + it.remaining

theorem Iterator.size_next_lt {it : Iterator} (h : it ≠ .pastEnd) : it.next.size < it.size := by
  obtain ⟨cursor, remaining⟩ := it
  by_cases hc : cursor = []
  · subst hc
    have hr : remaining ≠ 0 := fun hr => h (by rw [hr]; rfl)
    simp only [size, next, decodeRecord, readLength, List.length_nil]
    omega
  · have hlt := length_next_lt hc
    simp only [size, next]
    omega

/-- A range-based loop over a view, from an iterator on. -/
def Iterator.toList (it : Iterator) : List Bytes :=
  if it = .pastEnd then [] else it.key :: it.next.toList
termination_by it.size
decreasing_by exact it.size_next_lt ‹_›

/-- The first key that is not below the given one. -/
def Iterator.lowerBound (key : Bytes) (it : Iterator) : Iterator :=
  if it = .pastEnd then .pastEnd
  else if ¬ it.key < key then it else it.next.lowerBound key
termination_by it.size
decreasing_by exact it.size_next_lt ‹_›

/-- The keys that are left are the same. -/
def Iterator.equals (lhs rhs : Iterator) : Bool :=
  if lhs = .pastEnd then true
  else if lhs.key ≠ rhs.key then false else lhs.next.equals rhs.next
termination_by lhs.size
decreasing_by exact lhs.size_next_lt ‹_›

/-- A `PackedPrimaryKeysView`: the block behind a pointer, if any. -/
abbrev View := Option Packed

/-- What a pointer leads to. -/
def view (heap : Heap) (keys : Ptr) : View := keys.bind (heap[·]?)

namespace View

variable (v : View)

/-- The number of keys. -/
def size : Nat := v.elim 0 Packed.count
/-- No key. -/
def empty : Bool := v.size = 0
/-- The first key. -/
def begin : Iterator := v.elim .pastEnd fun keys => ⟨keys.payload, keys.count⟩
/-- The first key that is not below the given one. -/
def lowerBound (key : Bytes) : Iterator := v.begin.lowerBound key
/-- The key is in the list. -/
def contains (key : Bytes) : Bool :=
  let it := v.lowerBound key
  it ≠ .pastEnd && it.key = key
/-- The same keys, in the same order. -/
def equals (rhs : View) : Bool :=
  if v.size ≠ rhs.size then false else v.begin.equals rhs.begin
/-- The bytes of the records. -/
def bytes : Nat := v.elim 0 Packed.bytes

end View

/-! ## The packed list and the sorted list -/

variable {heap heap' : Heap} {ptrs : List Ptr} {p p' : Ptr} {key : Bytes} {keys : List Bytes}

/-- The records of the keys. -/
def encode (keys : List Bytes) : Bytes := keys.flatMap writeRecord

/-- The list of the keys. -/
def pack (keys : List Bytes) : Packed := ⟨keys.length, (encode keys).length, encode keys⟩

@[simp] theorem count_pack : (pack keys).count = keys.length := rfl
@[simp] theorem bytes_pack : (pack keys).bytes = (encode keys).length := rfl
@[simp] theorem payload_pack : (pack keys).payload = encode keys := List.take_length

theorem encode_cons_ne_nil : encode (key :: keys) ≠ [] := by
  rw [encode, List.flatMap_cons, writeRecord]
  simp [writeVarint_ne_nil]

theorem decodeRecord_encode : decodeRecord (encode (key :: keys)) = ⟨key, encode keys⟩ :=
  decodeRecord_writeRecord key _

theorem encode_append (before after : List Bytes) :
    encode (before ++ after) = encode before ++ encode after := List.flatMap_append

theorem length_encode (keys : List Bytes) :
    (encode keys).length = (keys.map encodedRecordSize).sum := by
  rw [encode, List.length_flatMap]
  simp only [length_writeRecord]

theorem length_encode_cons :
    (encode (key :: keys)).length = encodedRecordSize key + (encode keys).length := by
  rw [length_encode, length_encode, List.map_cons, List.sum_cons]

theorem encodedRecordSize_pos (key : Bytes) : 0 < encodedRecordSize key := by
  rw [← length_writeRecord, writeRecord, List.length_append]
  exact Nat.add_pos_left (List.length_pos_of_ne_nil (writeVarint_ne_nil _)) _

theorem length_le_encode (keys : List Bytes) : keys.length ≤ (encode keys).length := by
  induction keys with
  | nil => exact Nat.le_refl 0
  | cons key =>
    have hpos := encodedRecordSize_pos key
    rw [length_encode_cons, List.length_cons]
    omega

/-- The loop stops between the keys below and the others. If it found the key,
the list without that record is the erased one; if not, the list with a record
there is the inserted one. -/
theorem seek_encode (key : Bytes) (h : keys.Pairwise (· < ·)) :
    ∃ before after, keys = before ++ after ∧
      ((seek key (encode keys) = (encode after, true) ∧ insertKey key keys = keys ∧
          ∃ rest, after = key :: rest ∧ eraseKey key keys = before ++ rest) ∨
        (seek key (encode keys) = (encode after, false) ∧ eraseKey key keys = keys ∧
          key ∉ keys ∧ insertKey key keys = before ++ key :: after)) := by
  induction keys with
  | nil =>
    refine ⟨[], [], rfl, .inr ⟨?_, rfl, List.not_mem_nil, rfl⟩⟩
    rw [seek]
    rfl
  | cons k keys ih =>
    obtain ⟨hhead, htail⟩ := List.pairwise_cons.mp h
    rw [seek, if_neg encode_cons_ne_nil, decodeRecord_encode, insertKey, eraseKey]
    by_cases hk : k = key
    · subst hk
      exact ⟨[], k :: keys, rfl, .inl ⟨by simp, by simp, keys, rfl, by simp⟩⟩
    · by_cases hlt : k < key
      · obtain ⟨before, after, heq, hcases⟩ := ih htail
        refine ⟨k :: before, after, by rw [heq]; rfl, ?_⟩
        simp only [hk, hlt, not_true_eq_false, if_false, if_true, List.cons_append,
          List.cons.injEq, true_and, List.mem_cons, Ne.symm hk, false_or]
        exact hcases
      · -- the list is past the key
        refine ⟨[], k :: keys, rfl, .inr ⟨by simp [hk, hlt], by simp [hk, hlt], ?_,
          by simp [hk, hlt]⟩⟩
        rintro (_ | ⟨_, hmem⟩)
        · exact hk rfl
        · exact hlt (hhead key hmem)

/-- A pointer to the packed form of a sorted list. -/
structure Holds (heap : Heap) (p : Ptr) (keys : List Bytes) : Prop where
  sorted : keys.Pairwise (· < ·)
  fits : (encode keys).length < 2 ^ 32
  block : p = none ∧ keys = [] ∨ ∃ a, p = some a ∧ heap[a]? = some (pack keys)

theorem Holds.view_append (h : Holds heap p keys) (block : Packed) :
    view (heap ++ [block]) p = view heap p := by
  rcases h.block with ⟨rfl, -⟩ | ⟨a, rfl, ha⟩
  · rfl
  · exact List.getElem?_append_left (List.getElem?_eq_some_iff.mp ha).1

/-- What an edit of a list returns: the pointer it was given if the list stays
the same, and else a new block. -/
inductive Edited (heap : Heap) (p : Ptr) (keys : List Bytes) : List Bytes → Heap × Ptr → Prop
  | same : Edited heap p keys keys (heap, p)
  | block {keys' : List Bytes} (hne : keys' ≠ keys) (hfits : (encode keys').length < 2 ^ 32) :
      Edited heap p keys keys' (heap ++ [pack keys'], some heap.length)

theorem checkFitsUint32_ok {value : Nat} (field : String) (h : value < 2 ^ 32) :
    checkFitsUint32 value field = .ok value := by
  rw [checkFitsUint32, if_neg (by omega), Nat.mod_eq_of_lt h]

theorem checkFitsUint32_error {value : Nat} (field : String) (h : ¬ value < 2 ^ 32) :
    checkFitsUint32 value field = .error field :=
  if_pos (by omega)

theorem fromSortedDeduped_eq (keys : List Bytes) : fromSortedDeduped heap keys =
    if (encode keys).length < 2 ^ 32 then .ok (heap ++ [pack keys], some heap.length)
    else .error "packed primary-key list bytes" := by
  have hfold : ∀ (keys : List Bytes) (bytes : Nat), bytes < 2 ^ 32 →
      keys.foldlM (fun bytes key =>
          checkFitsUint32 (bytes + encodedRecordSize key) "packed primary-key list bytes") bytes
        = if bytes + (encode keys).length < 2 ^ 32 then .ok (bytes + (encode keys).length)
          else .error "packed primary-key list bytes" := by
    intro keys
    induction keys with
    | nil =>
      intro bytes h
      rw [if_pos (by simpa [encode] using h)]
      rfl
    | cons key keys ih =>
      intro bytes h
      rw [List.foldlM_cons, length_encode_cons]
      by_cases hfit : bytes + encodedRecordSize key < 2 ^ 32
      · rw [checkFitsUint32_ok _ hfit, ← Nat.add_assoc]
        exact ih _ hfit
      · rw [checkFitsUint32_error _ hfit, if_neg (by omega)]
        rfl
  rw [fromSortedDeduped, hfold keys 0 (by decide), Nat.zero_add]
  by_cases hfit : (encode keys).length < 2 ^ 32
  · have hcount := lt_of_le_of_lt (length_le_encode keys) hfit
    rw [if_pos hfit, if_pos hfit]
    simp only [checkFitsUint32_ok _ hcount, Nat.mod_eq_of_lt hfit, bind, Except.bind]
    rfl
  · rw [if_neg hfit, if_neg hfit]
    rfl

theorem take_before (before after : List Bytes) : (encode (before ++ after)).take
    ((encode (before ++ after)).length - (encode after).length) = encode before := by
  rw [encode_append, List.length_append, Nat.add_sub_cancel, List.take_left]

theorem pack_splice (before after : List Bytes) (key : Bytes) : pack (before ++ key :: after) =
    ⟨(before ++ after).length + 1, (encode (before ++ after)).length + encodedRecordSize key,
      encode before ++ writeRecord key ++ encode after⟩ := by
  have hbytes : (encode (before ++ key :: after)).length
      = (encode (before ++ after)).length + encodedRecordSize key := by
    rw [encode_append, encode_append, List.length_append, List.length_append, length_encode_cons]
    omega
  rw [pack, hbytes, List.length_append, List.length_cons, List.length_append]
  simp [encode]
  omega

/-- `Insert` adds the key, or throws when the list with it is too long. -/
theorem insert_eq (h : Holds heap p keys) (key : Bytes) :
    (key ∈ keys ∨ (encode keys).length + encodedRecordSize key < 2 ^ 32) ∧
      (∃ r, insert heap p key = .ok r ∧ Edited heap p keys (insertKey key keys) r) ∨
    (key ∉ keys ∧ ¬ (encode keys).length + encodedRecordSize key < 2 ^ 32) ∧
      ∃ field, insert heap p key = .error field := by
  obtain ⟨before, after, rfl, ⟨hseek, hins, rest, rfl, -⟩ | ⟨hseek, -, hmem, hins⟩⟩ :=
    seek_encode key h.sorted
  · rw [hins]
    refine .inl ⟨.inl (by simp), (heap, p), ?_, .same⟩
    rcases h.block with ⟨-, habs⟩ | ⟨a, rfl, ha⟩
    · simp at habs
    · simp [insert, ha, hseek]
  · have hpack := pack_splice before after key
    have hbytes : (encode (before ++ key :: after)).length
        = (encode (before ++ after)).length + encodedRecordSize key :=
      congrArg Packed.bytes hpack
    have hcount := length_le_encode (before ++ key :: after)
    simp only [List.length_append, List.length_cons, ← Nat.add_assoc, hbytes] at hcount
    by_cases hfit : (encode (before ++ after)).length + encodedRecordSize key < 2 ^ 32
    · have hne : before ++ key :: after ≠ before ++ after := by simp
      rw [hins]
      refine .inl ⟨.inr hfit, _, ?_, .block hne (hbytes ▸ hfit)⟩
      rw [hpack]
      rcases h.block with ⟨rfl, hnil⟩ | ⟨a, rfl, ha⟩
      · obtain ⟨rfl, rfl⟩ := List.append_eq_nil_iff.mp hnil
        simp only [insert, Option.bind_none, fromOne, encode, List.append_nil, List.flatMap_nil,
          List.length_nil, Nat.zero_add, List.nil_append] at hfit ⊢
        rw [checkFitsUint32_ok _ hfit]
        rfl
      · simp only [insert, Option.bind_some, ha, payload_pack, hseek, take_before, count_pack,
          bytes_pack, List.length_append]
        rw [checkFitsUint32_ok _ (hcount.trans_lt hfit), checkFitsUint32_ok _ hfit]
        rfl
    · refine .inr ⟨⟨hmem, hfit⟩, ?_⟩
      rcases h.block with ⟨rfl, hnil⟩ | ⟨a, rfl, ha⟩
      · rw [hnil, encode, List.flatMap_nil, List.length_nil, Nat.zero_add] at hfit
        simp only [insert, Option.bind_none, fromOne, checkFitsUint32_error _ hfit]
        exact ⟨_, rfl⟩
      · simp only [insert, Option.bind_some, ha, payload_pack, hseek, count_pack, bytes_pack,
          checkFitsUint32_error _ hfit]
        by_cases hc : (before ++ after).length + 1 < 2 ^ 32
        · exact ⟨_, by rw [checkFitsUint32_ok _ hc]; rfl⟩
        · exact ⟨_, by rw [checkFitsUint32_error _ hc]; rfl⟩

/-- `Erase` removes the key. -/
theorem erase_eq (h : Holds heap p keys) (key : Bytes) :
    ∃ r, erase heap p key = .ok r ∧ Edited heap p keys (eraseKey key keys) r := by
  rcases h.block with ⟨rfl, rfl⟩ | ⟨a, rfl, ha⟩
  · exact ⟨(heap, none), rfl, .same⟩
  · obtain ⟨before, after, rfl, ⟨hseek, -, rest, rfl, herase⟩ | ⟨hseek, herase, -⟩⟩ :=
      seek_encode key h.sorted
    · have hfits := h.fits
      have hcount := length_le_encode (before ++ rest)
      have hpack := pack_splice before rest key
      have hbytes : (encode (before ++ key :: rest)).length
          = (encode (before ++ rest)).length + encodedRecordSize key :=
        congrArg Packed.bytes hpack
      have hlength : (before ++ key :: rest).length = (before ++ rest).length + 1 :=
        congrArg Packed.count hpack
      have hne : before ++ rest ≠ before ++ key :: rest := by simp
      rw [herase]
      refine ⟨_, ?_, .block hne (by omega)⟩
      simp only [erase, Option.bind_some, ha, payload_pack, hseek, take_before,
        decodeRecord_encode, count_pack, bytes_pack]
      simp only [length_encode_cons, hbytes, hlength, Nat.add_sub_cancel, Nat.succ_ne_zero,
        if_false]
      rw [checkFitsUint32_ok _ (by omega), Nat.mod_eq_of_lt (by omega), pack, encode_append]
      rfl
    · rw [herase]
      exact ⟨(heap, some a), by simp [erase, ha, hseek], .same⟩

/-! ## What a view shows -/

/-- The iterator before the given keys. -/
def Iterator.before (keys : List Bytes) : Iterator := ⟨encode keys, keys.length⟩

@[simp] theorem before_nil : Iterator.before [] = .pastEnd := rfl

theorem before_cons_ne : Iterator.before (key :: keys) ≠ .pastEnd :=
  fun h => encode_cons_ne_nil (congrArg Iterator.cursor h)

@[simp] theorem key_before : (Iterator.before (key :: keys)).key = key :=
  congrArg Record.value decodeRecord_encode

@[simp] theorem next_before : (Iterator.before (key :: keys)).next = .before keys :=
  congrArg (Iterator.mk · keys.length) (congrArg Record.next decodeRecord_encode)

@[simp] theorem toList_before (keys : List Bytes) : (Iterator.before keys).toList = keys := by
  induction keys with
  | nil => rw [before_nil, Iterator.toList, if_pos rfl]
  | cons key keys ih =>
    rw [Iterator.toList, if_neg before_cons_ne, key_before, next_before, ih]

theorem lowerBound_before (key : Bytes) (h : keys.Pairwise (· < ·)) :
    (Iterator.before keys).lowerBound key = .before (keys.filter (key ≤ ·)) := by
  induction keys with
  | nil => rw [before_nil, Iterator.lowerBound, if_pos rfl, List.filter_nil, before_nil]
  | cons k keys ih =>
    obtain ⟨hhead, htail⟩ := List.pairwise_cons.mp h
    rw [Iterator.lowerBound, if_neg before_cons_ne, key_before, next_before]
    by_cases hlt : k < key
    · rw [if_neg (not_not_intro hlt), ih htail, List.filter_cons_of_neg (by simpa using hlt)]
    · rw [if_pos hlt, List.filter_eq_self.mpr]
      intro q hq
      rcases List.mem_cons.mp hq with rfl | hq
      · simpa using hlt
      · simpa using le_trans (not_lt.mp hlt) (hhead q hq).le

theorem equals_before {keys' : List Bytes} (h : keys.length = keys'.length) :
    (Iterator.before keys).equals (.before keys') = decide (keys = keys') := by
  induction keys generalizing keys' with
  | nil =>
    rw [before_nil, Iterator.equals, if_pos rfl, List.length_eq_zero_iff.mp h.symm]
    rfl
  | cons key keys ih =>
    obtain ⟨key', keys', rfl⟩ := List.exists_cons_of_length_eq_add_one h.symm
    rw [Iterator.equals, if_neg before_cons_ne, key_before, key_before, next_before, next_before,
      ih (Nat.succ.inj h)]
    by_cases hk : key = key' <;> simp [hk]

/-- A view agrees with a set of keys. -/
structure Shows (v : View) (s : Finset Bytes) : Prop where
  sorted : v.begin.toList.Pairwise (· < ·)
  members : v.begin.toList.toFinset = s
  size : v.size = v.begin.toList.length
  bytes : v.bytes = (v.begin.toList.map encodedRecordSize).sum
  empty : v.empty = decide (s = ∅)
  contains : ∀ key, v.contains key = decide (key ∈ s)
  lowerBound_eq : ∀ key, v.lowerBound key = .pastEnd ↔ ∀ k ∈ s, k < key
  lowerBound_key : ∀ key, v.lowerBound key ≠ .pastEnd →
    IsLeast {k | k ∈ s ∧ key ≤ k} (v.lowerBound key).key

section

variable (h : Holds heap p keys)

include h

theorem Holds.view_eq : (view heap p).begin = .before keys ∧
    (view heap p).size = keys.length ∧ (view heap p).bytes = (encode keys).length := by
  rcases h.block with ⟨rfl, rfl⟩ | ⟨a, rfl, ha⟩
  · exact ⟨rfl, rfl, rfl⟩
  · simp [view, ha, View.begin, View.size, View.bytes, Iterator.before]

theorem Holds.lowerBound (key : Bytes) :
    (view heap p).lowerBound key = .pastEnd ∧ (∀ k ∈ keys, k < key) ∨
    (view heap p).lowerBound key ≠ .pastEnd ∧
      IsLeast {k | k ∈ keys ∧ key ≤ k} ((view heap p).lowerBound key).key := by
  have hmem : ∀ k, k ∈ keys.filter (key ≤ ·) ↔ k ∈ keys ∧ key ≤ k := fun k => by simp
  rw [View.lowerBound, h.view_eq.1, lowerBound_before key h.sorted]
  cases habove : keys.filter (key ≤ ·) with
  | nil =>
    rw [habove] at hmem
    exact .inl ⟨rfl, fun k hk => not_le.mp fun hle => List.not_mem_nil ((hmem k).mpr ⟨hk, hle⟩)⟩
  | cons k =>
    have hsorted := habove ▸ h.sorted.filter (key ≤ ·)
    rw [habove] at hmem
    refine .inr ⟨before_cons_ne, ?_⟩
    rw [key_before]
    refine ⟨(hmem k).mp (.head _), fun q hq => ?_⟩
    rcases List.mem_cons.mp ((hmem q).mpr hq) with rfl | hq
    · exact le_refl q
    · exact (List.rel_of_pairwise_cons hsorted hq).le

theorem Holds.shows : Shows (view heap p) keys.toFinset := by
  obtain ⟨hbegin, hsize, hbytes⟩ := h.view_eq
  have hlist : (view heap p).begin.toList = keys := by rw [hbegin, toList_before]
  refine ⟨hlist.symm ▸ h.sorted, by rw [hlist], by rw [hlist, hsize],
    by rw [hlist, hbytes, length_encode], ?_, fun key => ?_, fun key => ?_, fun key hne => ?_⟩
  · simp [View.empty, hsize]
  · rcases h.lowerBound key with ⟨heq, hall⟩ | ⟨hne, hleast⟩
    · have hno : key ∉ keys := fun hk => lt_irrefl key (hall key hk)
      simp [View.contains, heq, hno]
    · have hiff : ((view heap p).lowerBound key).key = key ↔ key ∈ keys :=
        ⟨fun heq => heq ▸ hleast.1.1, fun hk => le_antisymm (hleast.2 ⟨hk, le_refl key⟩) hleast.1.2⟩
      simp [View.contains, hne, hiff]
  · rcases h.lowerBound key with ⟨heq, hall⟩ | ⟨hne, hleast⟩
    · exact iff_of_true heq (by simpa using hall)
    · refine iff_of_false hne fun hall => ?_
      exact absurd (hall _ (List.mem_toFinset.mpr hleast.1.1)) (not_lt.mpr hleast.1.2)
  · rcases h.lowerBound key with ⟨heq, -⟩ | ⟨-, hleast⟩
    · exact absurd heq hne
    · simpa using hleast

theorem Holds.toFinset_eq_iff (hq : Holds heap' q ks) :
    keys.toFinset = ks.toFinset ↔ keys = ks := by
  refine ⟨fun heq => h.sorted.eq_of_mem_iff hq.sorted fun {k} => ?_, fun heq => by rw [heq]⟩
  rw [← List.mem_toFinset, heq, List.mem_toFinset]

theorem Holds.equals (hq : Holds heap q ks) :
    (view heap p).equals (view heap q) = decide (keys.toFinset = ks.toFinset) := by
  obtain ⟨hbegin, hsize, -⟩ := h.view_eq
  obtain ⟨hbegin', hsize', -⟩ := hq.view_eq
  rw [View.equals, hbegin, hbegin', hsize, hsize', decide_eq_decide.mpr (h.toFinset_eq_iff hq)]
  by_cases hlen : keys.length = ks.length
  · rw [if_neg (not_not_intro hlen), equals_before hlen]
  · rw [if_pos hlen, decide_eq_false fun heq => hlen (by rw [heq])]

/-! ## Lists built by calls -/

/-- The pointers that callers can hold: null, and what the three calls return on
sorted keys and on pointers held before. A call that throws returns nothing. -/
inductive Reached : Heap → List Ptr → Prop
  | start : Reached [] [none]
  | fromSortedDeduped {heap : Heap} {ptrs : List Ptr} {r : Heap × Ptr} (keys : List Bytes)
      (h : Reached heap ptrs) (hsorted : keys.Pairwise (· < ·))
      (hcall : fromSortedDeduped heap keys = .ok r) : Reached r.1 (r.2 :: ptrs)
  | insert {heap : Heap} {ptrs : List Ptr} {p : Ptr} {r : Heap × Ptr} (key : Bytes)
      (h : Reached heap ptrs) (hp : p ∈ ptrs) (hcall : insert heap p key = .ok r) :
      Reached r.1 (r.2 :: ptrs)
  | erase {heap : Heap} {ptrs : List Ptr} {p : Ptr} {r : Heap × Ptr} (key : Bytes)
      (h : Reached heap ptrs) (hp : p ∈ ptrs) (hcall : erase heap p key = .ok r) :
      Reached r.1 (r.2 :: ptrs)

/-- A call returns a pointer to the set `t`, and what callers hold stays as it is. -/
def Returns (heap : Heap) (ptrs : List Ptr) (call : Except String (Heap × Ptr))
    (t : Finset Bytes) (same : Ptr → Prop) : Prop :=
  ∃ r, call = .ok r ∧ Shows (view r.1 r.2) t ∧ same r.2 ∧ ∀ q ∈ ptrs, view r.1 q = view heap q

omit h in
theorem holds_pack (hsorted : keys.Pairwise (· < ·)) (hfits : (encode keys).length < 2 ^ 32) :
    Holds (heap ++ [pack keys]) (some heap.length) keys :=
  ⟨hsorted, hfits, .inr ⟨_, rfl, List.getElem?_concat_length⟩⟩

theorem Holds.append (block : Packed) : Holds (heap ++ [block]) p keys := by
  refine ⟨h.sorted, h.fits, h.block.imp_right ?_⟩
  rintro ⟨a, rfl, ha⟩
  exact ⟨a, rfl, (h.view_append block).trans ha⟩

end

variable {keys' : List Bytes} {r : Heap × Ptr}

theorem Edited.holds (h : Edited heap p keys keys' r) (hp : Holds heap p keys)
    (hsorted : keys'.Pairwise (· < ·)) : Holds r.1 r.2 keys' := by
  cases h with
  | same => exact hp
  | block _ hfits => exact holds_pack hsorted hfits

theorem Edited.keeps (h : Edited heap p keys keys' r) (hq : Holds heap q ks) :
    Holds r.1 q ks ∧ view r.1 q = view heap q := by
  cases h with
  | same => exact ⟨hq, rfl⟩
  | block => exact ⟨hq.append _, hq.view_append _⟩

theorem Edited.same_iff (h : Edited heap p keys keys' r) (hp : Holds heap p keys) :
    r.2 = p ↔ keys' = keys := by
  cases h with
  | same => exact iff_of_true rfl rfl
  | block hne =>
    refine iff_of_false (fun heq => ?_) hne
    rcases hp.block with ⟨rfl, -⟩ | ⟨a, rfl, ha⟩
    · cases heq
    · cases heq
      exact absurd (List.getElem?_eq_some_iff.mp ha).1 (lt_irrefl _)

/-- Every pointer a caller holds points to a packed sorted list. -/
theorem holds_of_reached (h : Reached heap ptrs) : ∀ p ∈ ptrs, ∃ keys, Holds heap p keys := by
  induction h with
  | start =>
    intro p hp
    rw [List.mem_singleton] at hp
    exact ⟨[], List.Pairwise.nil, by decide, .inl ⟨hp, rfl⟩⟩
  | fromSortedDeduped keys _ hsorted hcall ih =>
    rw [fromSortedDeduped_eq] at hcall
    split at hcall
    · cases hcall
      refine List.forall_mem_cons.mpr ⟨⟨keys, holds_pack hsorted ‹_›⟩, fun q hq => ?_⟩
      exact (ih q hq).imp fun ks hks => hks.append _
    · cases hcall
  | insert key _ hp hcall ih =>
    obtain ⟨keys, hkeys⟩ := ih _ hp
    obtain ⟨-, r, hr, hedit⟩ | ⟨-, field, herror⟩ := insert_eq hkeys key
    · cases hr.symm.trans hcall
      refine List.forall_mem_cons.mpr
        ⟨⟨_, hedit.holds hkeys (pairwise_insertKey hkeys.sorted)⟩, fun q hq => ?_⟩
      exact (ih q hq).imp fun ks hks => (hedit.keeps hks).1
    · cases herror.symm.trans hcall
  | erase key _ hp hcall ih =>
    obtain ⟨keys, hkeys⟩ := ih _ hp
    obtain ⟨r, hr, hedit⟩ := erase_eq hkeys key
    cases hr.symm.trans hcall
    refine List.forall_mem_cons.mpr
      ⟨⟨_, hedit.holds hkeys (pairwise_eraseKey hkeys.sorted)⟩, fun q hq => ?_⟩
    exact (ih q hq).imp fun ks hks => (hedit.keeps hks).1

theorem Edited.returns (h : Edited heap p keys keys' r) (hp : Holds heap p keys)
    (hsorted : keys'.Pairwise (· < ·)) (hall : ∀ q ∈ ptrs, ∃ ks, Holds heap q ks)
    {call : Except String (Heap × Ptr)} (hcall : call = .ok r) {t : Finset Bytes}
    (ht : keys'.toFinset = t) : Returns heap ptrs call t fun p' => p' = p ↔ t = keys.toFinset := by
  subst ht
  have hr := h.holds hp hsorted
  refine ⟨r, hcall, hr.shows, (h.same_iff hp).trans (hr.toFinset_eq_iff hp).symm, fun q hq => ?_⟩
  obtain ⟨ks, hks⟩ := hall q hq
  exact (h.keeps hks).2

/-- Every list that can be built shows a set of keys in order; insertion and
removal are those of the set, with the same pointer exactly when the set stays the
same; and a list too long for its 32-bit header is refused. -/
theorem refines_sorted_set (h : Reached heap ptrs) :
    (∀ p ∈ ptrs, ∃ s, Shows (view heap p) s ∧
      (∀ key, if key ∉ s ∧ (2 ^ 32 ≤ s.card + 1 ∨
            2 ^ 32 ≤ (view heap p).bytes + encodedRecordSize key)
          then ∃ field, insert heap p key = .error field
          else Returns heap ptrs (insert heap p key) (Insert.insert key s) fun p' =>
            p' = p ↔ Insert.insert key s = s) ∧
      (∀ key, Returns heap ptrs (erase heap p key) (s.erase key) fun p' =>
        p' = p ↔ s.erase key = s) ∧
      ∀ q ∈ ptrs, ∀ t, Shows (view heap q) t →
        (view heap p).equals (view heap q) = decide (s = t)) ∧
    ∀ keys : List Bytes, keys.Pairwise (· < ·) →
      if 2 ^ 32 ≤ keys.length ∨ 2 ^ 32 ≤ (keys.map encodedRecordSize).sum
        then ∃ field, fromSortedDeduped heap keys = .error field
        else Returns heap ptrs (fromSortedDeduped heap keys) keys.toFinset fun _ => True := by
  have hall := holds_of_reached h
  refine ⟨fun p hp => ?_, fun keys hsorted => ?_⟩
  · obtain ⟨keys, hkeys⟩ := hall p hp
    refine ⟨keys.toFinset, hkeys.shows, fun key => ?_, fun key => ?_, fun q hq t ht => ?_⟩
    · have hcard : keys.toFinset.card = keys.length :=
        List.toFinset_card_of_nodup (hkeys.sorted.imp ne_of_lt)
      have hcount := length_le_encode keys
      have hpos := encodedRecordSize_pos key
      rw [hkeys.view_eq.2.2, hcard]
      obtain ⟨hfit, r, hr, hedit⟩ | ⟨⟨hmem, hfit⟩, herror⟩ := insert_eq hkeys key
      · rw [if_neg]
        · refine hedit.returns hkeys (pairwise_insertKey hkeys.sorted) hall hr ?_
          ext k
          simp [mem_insertKey]
        · rintro ⟨hmem, hlong⟩
          have hfit := hfit.resolve_left (hmem ∘ List.mem_toFinset.mpr)
          omega
      · rw [if_pos ⟨hmem ∘ List.mem_toFinset.mp, .inr (not_lt.mp hfit)⟩]
        exact herror
    · obtain ⟨r, hr, hedit⟩ := erase_eq hkeys key
      refine hedit.returns hkeys (pairwise_eraseKey hkeys.sorted) hall hr ?_
      ext k
      simp [mem_eraseKey hkeys.sorted]
    · obtain ⟨ks, hks⟩ := hall q hq
      rw [hkeys.equals hks, ← ht.members.symm.trans hks.shows.members]
  · have hcount := length_le_encode keys
    rw [← length_encode, fromSortedDeduped_eq]
    by_cases hfit : (encode keys).length < 2 ^ 32
    · rw [if_neg (by omega), if_pos hfit]
      refine ⟨_, rfl, (holds_pack hsorted hfit).shows, trivial, fun q hq => ?_⟩
      obtain ⟨ks, hks⟩ := hall q hq
      exact hks.view_append _
    · rw [if_pos (by omega), if_neg hfit]
      exact ⟨_, rfl⟩

/-- A list of the empty key and another, with `refines_sorted_set` at it. -/
theorem refines_sorted_set_two :
    Reached [pack [[], [0x61]]] [some 0, none] ∧
      ∃ s, Shows (view [pack [[], [0x61]]] (some 0)) s := by
  have h : Reached [pack [[], [0x61]]] [some 0, none] :=
    .fromSortedDeduped (r := ([pack [[], [0x61]]], some 0)) [[], [0x61]] .start (by decide)
      ((fromSortedDeduped_eq _).trans (if_pos (by simp [encode, writeRecord, writeVarint])))
  exact ⟨h, ((refines_sorted_set h).1 _ (.head _)).imp fun _ hs => hs.1⟩

end LineairDB.PackedPrimaryKeys
