import LineairDB.Stateless.Commit

/-!
# Histories of commits: what memory holds and what the log says

Committed transactions change the slots of memory and enqueue one log record
each. Both committers are here: the stateless one logs every operation of the
request with the list edits made in request order, the native one keeps one
write-set entry per slot and one delta per primary key. Between the commits the
epoch advances and empty slots are purged.

* `History.step` — a history, step by step.
* `mem_secondaryIndexDeltas` — the deltas of the native write set are the last
  operations.
* `Transaction.mem_install` — what either commit makes of a primary-key list.
-/

namespace LineairDB.Recovery

open ByteFile NewestWins Silo Stateless Transition

variable {o : SecondaryIndexOp} {primaryKey : Bytes} {deltas : List SecondaryIndexDelta}

/-! ## Primary-key lists -/

section PrimaryKeys

variable {key p : Bytes} {keys : List Bytes}

theorem mem_insertKey : p ∈ insertKey key keys ↔ p = key ∨ p ∈ keys := by
  induction keys with
  | nil => simp [insertKey]
  | cons k keys ih =>
    rw [insertKey]
    by_cases hk : k = key
    · rw [if_pos hk, hk]
      simp
    · rw [if_neg hk]
      by_cases hlt : k < key
      · rw [if_pos hlt, List.mem_cons, ih, List.mem_cons]
        exact or_left_comm
      · rw [if_neg hlt, List.mem_cons]

theorem pairwise_insertKey (h : keys.Pairwise (· < ·)) : (insertKey key keys).Pairwise (· < ·) := by
  induction keys with
  | nil => simp [insertKey]
  | cons k keys ih =>
    rw [insertKey]
    obtain ⟨hhead, htail⟩ := List.pairwise_cons.mp h
    by_cases hk : k = key
    · rw [if_pos hk]
      exact h
    · rw [if_neg hk]
      by_cases hlt : k < key
      · rw [if_pos hlt, List.pairwise_cons]
        refine ⟨fun q hq => ?_, ih htail⟩
        rcases mem_insertKey.mp hq with rfl | hq
        · exact hlt
        · exact hhead q hq
      · rw [if_neg hlt, List.pairwise_cons]
        have hgt : key < k := lt_of_le_of_ne (not_lt.mp hlt) (Ne.symm hk)
        exact ⟨List.forall_mem_cons.mpr ⟨hgt, fun q hq => lt_trans hgt (hhead q hq)⟩, h⟩

theorem eraseKey_sublist : (eraseKey key keys).Sublist keys := by
  induction keys with
  | nil => exact List.Sublist.slnil
  | cons k keys ih =>
    rw [eraseKey]
    by_cases hk : k = key
    · rw [if_pos hk]
      exact List.sublist_cons_self k keys
    · rw [if_neg hk]
      by_cases hlt : k < key
      · rw [if_pos hlt]
        exact ih.cons_cons k
      · rw [if_neg hlt]

theorem pairwise_eraseKey (h : keys.Pairwise (· < ·)) : (eraseKey key keys).Pairwise (· < ·) :=
  h.sublist eraseKey_sublist

theorem mem_eraseKey (h : keys.Pairwise (· < ·)) : p ∈ eraseKey key keys ↔ p ≠ key ∧ p ∈ keys := by
  induction keys with
  | nil => simp [eraseKey]
  | cons k keys ih =>
    obtain ⟨hhead, htail⟩ := List.pairwise_cons.mp h
    rw [eraseKey]
    by_cases hk : k = key
    · rw [if_pos hk, List.mem_cons]
      constructor
      · intro hp
        exact ⟨fun heq => absurd (hhead p hp) (by rw [heq, hk]; exact lt_irrefl key), .inr hp⟩
      · rintro ⟨hne, hp⟩
        exact hp.resolve_left fun heq => hne (heq.trans hk)
    · rw [if_neg hk]
      by_cases hlt : k < key
      · rw [if_pos hlt, List.mem_cons, ih htail, List.mem_cons]
        constructor
        · rintro (rfl | ⟨hne, hp⟩)
          · exact ⟨hk, .inl rfl⟩
          · exact ⟨hne, .inr hp⟩
        · rintro ⟨hne, hp⟩
          exact hp.imp_right fun hp => ⟨hne, hp⟩
      · -- the list is past the key
        rw [if_neg hlt]
        refine ⟨fun hp => ⟨?_, hp⟩, fun h => h.2⟩
        rintro rfl
        rcases List.mem_cons.mp hp with heq | hp
        · exact hk heq.symm
        · exact hlt (hhead p hp)

end PrimaryKeys

/-! ## The writes of a transaction -/

/-- An operation of a transaction: a row written or deleted, a primary key added or removed. -/
inductive WriteOp where
  | row (table key value : Bytes)
  | entry (table index key primaryKey : Bytes) (isDelete : Bool)
  deriving Repr, DecidableEq

namespace WriteOp

/-- The slot it goes to. -/
def slot : WriteOp → Slot
  | row table key _ => .row table key
  | entry table index key _ _ => .entry table index key

/-- It is one on a row. -/
def isRow : WriteOp → Bool
  | row _ _ _ => true
  | entry _ _ _ _ _ => false

/-- Install one write. -/
def apply (c : Content) : WriteOp → Content
  | row _ _ value => { c with buffer := value }
  | entry _ _ _ primaryKey isDelete =>
    { c with
      primaryKeys :=
        if isDelete then eraseKey primaryKey c.primaryKeys
        else insertKey primaryKey c.primaryKeys }

/-- The kind of delta. -/
def op (isDelete : Bool) : SecondaryIndexOp := if isDelete then .remove else .add

/-- The operation on the primary key `p` under the slot `k`. -/
def on (k : Slot) (p : Bytes) : WriteOp → Option SecondaryIndexOp
  | row _ _ _ => none
  | entry table index key primaryKey isDelete =>
    if Slot.entry table index key = k ∧ primaryKey = p then some (op isDelete) else none

end WriteOp

/-- The writes to a slot, in program order. -/
def writesTo (k : Slot) (ops : List WriteOp) : List WriteOp := ops.filter fun op => op.slot = k

/-- The operations on one primary key, in program order. -/
def opsOn (k : Slot) (p : Bytes) (ops : List WriteOp) : List SecondaryIndexOp :=
  ops.filterMap (WriteOp.on k p)

/-- `Snapshot::RecordSecondaryIndexDelta` -/
def recordSecondaryIndexDelta (primaryKey : Bytes) (op : SecondaryIndexOp) :
    List SecondaryIndexDelta → List SecondaryIndexDelta
  | [] => [⟨primaryKey, op⟩]
  | delta :: deltas =>
    if delta.primaryKey = primaryKey then { delta with op := op } :: deltas
    else delta :: recordSecondaryIndexDelta primaryKey op deltas

/-- What an operation adds to the deltas of its slot. -/
def WriteOp.record (deltas : List SecondaryIndexDelta) : WriteOp → List SecondaryIndexDelta
  | .row _ _ _ => deltas
  | .entry _ _ _ primaryKey isDelete => recordSecondaryIndexDelta primaryKey (op isDelete) deltas

/-- The deltas the native write set keeps for a slot: the last operation per primary
key. -/
def secondaryIndexDeltas (k : Slot) (ops : List WriteOp) : List SecondaryIndexDelta :=
  (writesTo k ops).foldl WriteOp.record []

/-- `ApplySecondaryIndexDeltas`, for one delta. -/
def applySecondaryIndexDelta (c : Content) (delta : SecondaryIndexDelta) : Content :=
  match delta.op with
  | .add => { c with primaryKeys := insertKey delta.primaryKey c.primaryKeys }
  | .remove => { c with primaryKeys := eraseKey delta.primaryKey c.primaryKeys }
  | .none | .full => c

/-- `SecondaryIndexType::IsUnique` -/
def isUnique (indexType : UInt32) : Bool := indexType &&& 1 != 0

/-- A transaction that commits: which committer ran it, the epoch it read with its locks
held, and its writes. -/
structure Transaction where
  stateless : Bool
  epoch : EpochNumber
  ops : List WriteOp
  deriving Repr, DecidableEq

/-- What memory holds of a slot. -/
structure Held where
  word : TransactionId
  content : Content
  deriving Repr, DecidableEq

section Commit

variable (indexType : Bytes → Bytes → UInt32)

namespace Transaction

/-- The slots a transaction writes. -/
def slots (tx : Transaction) : List Slot := (tx.ops.map WriteOp.slot).dedup

/-- What the commit makes of a slot's content. The native committer merges the deltas of
an entry that is not unique into the locked list, and overwrites the rest with the copy
its operations were applied to. -/
def install (tx : Transaction) (k : Slot) (c : Content) : Content :=
  match k with
  | .row _ _ => (writesTo k tx.ops).foldl WriteOp.apply c
  | .entry table index _ =>
    if tx.stateless ∨ index = [] ∨ isUnique (indexType table index) then
      (writesTo k tx.ops).foldl WriteOp.apply c
    else (secondaryIndexDeltas k tx.ops).foldl applySecondaryIndexDelta c

end Transaction

/-! ## What it logs -/

/-- The write-set entry of a slot, with the identifier it was unlocked under. -/
def slotSnapshot (held : Slot → Held) (k : Slot) (deltas : List SecondaryIndexDelta) : Snapshot :=
  let x := held k
  match k with
  | .row table key =>
    ⟨key, x.content.buffer, x.word, table, [], 0, x.content.primaryKeys, deltas⟩
  | .entry table index key =>
    ⟨key, x.content.buffer, x.word, table, index, indexType table index, x.content.primaryKeys,
      deltas⟩

/-- `Snapshot::Compare` -/
def Snapshot.compare (left right : Snapshot) : Bool :=
  if left.tableName ≠ right.tableName then left.tableName < right.tableName
  else if left.indexName ≠ right.indexName then left.indexName < right.indexName
  else left.key < right.key

/-- The write set that is logged: one entry per write in the stateless path, one per slot
and sorted in the native one. -/
def Transaction.writeSet (tx : Transaction) (held : Slot → Held) : List Snapshot :=
  if tx.stateless then
    (tx.ops.filter WriteOp.isRow ++ tx.ops.filter fun op => !op.isRow).map fun op =>
      slotSnapshot indexType held op.slot (op.record [])
  else
    (tx.slots.map fun k => slotSnapshot indexType held k
      (secondaryIndexDeltas k tx.ops)).insertionSort fun a b => !b.compare a

/-! ## Histories -/

/-- The epoch, memory and the log. -/
structure History where
  epoch : EpochNumber
  held : Slot → Held
  log : LogRecords

/-- An empty database. -/
def History.start : History := ⟨1, fun _ => ⟨.empty, .blank⟩, []⟩

/-- What can happen in a history. -/
inductive HistoryStep where
  | advance (epoch : EpochNumber)
  | commit (tx : Transaction)
  | purge (k : Slot)
  deriving Repr, DecidableEq

/-- Every slot of the transaction as it leaves it. -/
def Transaction.heldAfter (tx : Transaction) (held : Slot → Held) (k : Slot) : Held :=
  if k ∈ tx.slots then
    ⟨(held k).word.locked.next tx.epoch, tx.install indexType k (held k).content⟩
  else held k

/-- The record of the commit. -/
def Transaction.record (tx : Transaction) (held : Slot → Held) : LogRecord :=
  logRecord (tx.writeSet indexType (tx.heldAfter indexType held)) tx.epoch

/-- Install, unlock, and enqueue the record unless it says nothing. -/
def History.commit (h : History) (tx : Transaction) : History :=
  { h with
    held := tx.heldAfter indexType h.held
    log :=
      if (tx.record indexType h.held).keyValuePairs = [] then h.log
      else h.log ++ [tx.record indexType h.held] }

/-- A transaction joins an epoch at most one behind and reads it with its locks held, so
no slot it writes is ahead of it; a slot is purged two epochs after it became empty. -/
def History.step (h : History) : HistoryStep → Option History
  | .advance epoch => if h.epoch < epoch then some { h with epoch := epoch } else none
  | .commit tx =>
    if tx.epoch ≤ h.epoch ∧ h.epoch.toNat ≤ tx.epoch.toNat + 1 ∧
        ∀ k ∈ tx.slots, (h.held k).word.epoch ≤ tx.epoch then
      some (h.commit indexType tx)
    else none
  | .purge k =>
    if Content.initializedAt k (h.held k).content = false ∧
        (h.held k).word.epoch.toNat + 2 ≤ h.epoch.toNat then
      some { h with held := Function.update h.held k ⟨.empty, .blank⟩ }
    else none

end Commit

/-! ## Transactions recovery can follow -/

/-- Recovery can tell what the transaction did: its indexes have names, it adds no empty
primary key, and where a stateless request has several operations on one primary key, the
first and the last of them agree. -/
structure Transaction.Recoverable (tx : Transaction) : Prop where
  named : ∀ table index key primaryKey isDelete,
    WriteOp.entry table index key primaryKey isDelete ∈ tx.ops → index ≠ []
  keyed : ∀ table index key, WriteOp.entry table index key [] false ∉ tx.ops
  settled : tx.stateless = true → ∀ k p, (opsOn k p tx.ops).head? = (opsOn k p tx.ops).getLast?

/-- The slot can be published to once more before its sequence number wraps around. -/
def Room (h : History) (tx : Transaction) : Prop :=
  ∀ k ∈ tx.slots, (h.held k).word.tid.toNat < 2 ^ 32 - 2

/-- The commits that are recovered. -/
def Followed (h : History) : HistoryStep → Prop
  | .commit tx => tx.Recoverable ∧ Room h tx
  | .advance _ | .purge _ => True

/-! ## What a commit makes of a list -/

section Lists

variable {k : Slot} {p : Bytes} {ops : List WriteOp} {c : Content}

theorem writesTo_concat (k : Slot) (ops : List WriteOp) (op : WriteOp) :
    writesTo k (ops ++ [op]) = writesTo k ops ++ if op.slot = k then [op] else [] := by
  by_cases h : op.slot = k <;> simp [writesTo, h]

theorem opsOn_concat (k : Slot) (p : Bytes) (ops : List WriteOp) (op : WriteOp) :
    opsOn k p (ops ++ [op]) = opsOn k p ops ++ (op.on k p).toList := by
  cases h : op.on k p <;> simp [opsOn, h]

theorem opsOn_cons (k : Slot) (p : Bytes) (op : WriteOp) (ops : List WriteOp) :
    opsOn k p (op :: ops) = (op.on k p).toList ++ opsOn k p ops := by
  cases h : op.on k p <;> simp [opsOn, h]

/-- Writing the rows first keeps the operations on a primary key in order. -/
theorem opsOn_rows_first (k : Slot) (p : Bytes) (ops : List WriteOp) :
    opsOn k p (ops.filter WriteOp.isRow ++ ops.filter fun op => !op.isRow) = opsOn k p ops := by
  have hrows : opsOn k p (ops.filter WriteOp.isRow) = [] := by
    refine List.filterMap_eq_nil_iff.mpr fun op hop => ?_
    cases op with
    | row => rfl
    | entry => exact absurd (List.mem_filter.mp hop).2 Bool.false_ne_true
  rw [opsOn, List.filterMap_append, ← opsOn, hrows, List.nil_append]
  clear hrows
  induction ops with
  | nil => rfl
  | cons op ops ih =>
    rw [opsOn_cons, ← ih]
    cases op with
    | row => rfl
    | entry => exact opsOn_cons k p _ _

/-- An operation on a primary key under `k` writes to `k`. -/
theorem slot_of_on {op : WriteOp} (h : op.on k p = some o) : op.slot = k := by
  cases op with
  | row => cases h
  | entry =>
    simp only [WriteOp.on] at h
    split at h
    · rename_i hk
      exact hk.1
    · cases h

theorem on_of_ne {op : WriteOp} (h : op.slot ≠ k) : op.on k p = none :=
  Option.eq_none_iff_forall_ne_some.mpr fun _ hon => h (slot_of_on hon)

theorem pairwise_apply (op : WriteOp) (h : c.Ordered) :
    (op.apply c).Ordered := by
  cases op with
  | row => exact h
  | entry table index key primaryKey isDelete =>
    cases isDelete
    · exact pairwise_insertKey h
    · exact pairwise_eraseKey h

/-- One write to the slot, as far as `p` is concerned. -/
theorem mem_apply {op : WriteOp} (hslot : op.slot = k) (h : c.Ordered) :
    p ∈ (op.apply c).primaryKeys ↔
      match op.on k p with
      | some o => o = .add
      | none => p ∈ c.primaryKeys := by
  cases op with
  | row => exact Iff.rfl
  | entry table index key primaryKey isDelete =>
    obtain rfl : Slot.entry table index key = k := hslot
    by_cases hp : primaryKey = p
    · cases isDelete
      · simp [WriteOp.apply, WriteOp.on, WriteOp.op, hp, mem_insertKey]
      · simp [WriteOp.apply, WriteOp.on, WriteOp.op, hp, mem_eraseKey h]
    · cases isDelete
      · simp [WriteOp.apply, WriteOp.on, hp, mem_insertKey, Ne.symm hp]
      · simp [WriteOp.apply, WriteOp.on, hp, mem_eraseKey h, Ne.symm hp]

theorem pairwise_foldl_apply (ops : List WriteOp) (h : c.Ordered) :
    (ops.foldl WriteOp.apply c).Ordered := by
  induction ops generalizing c with
  | nil => exact h
  | cons op ops ih => exact ih (pairwise_apply op h)

/-- Writing in program order, the last operation on a primary key decides. -/
theorem mem_foldl_apply (k : Slot) (p : Bytes) (ops : List WriteOp)
    (h : c.Ordered) :
    p ∈ ((writesTo k ops).foldl WriteOp.apply c).primaryKeys ↔
      match (opsOn k p ops).getLast? with
      | some o => o = .add
      | none => p ∈ c.primaryKeys := by
  induction ops using List.reverseRecOn with
  | nil => exact Iff.rfl
  | append_singleton ops op ih =>
    rw [writesTo_concat, opsOn_concat, List.foldl_append]
    by_cases hslot : op.slot = k
    · rw [if_pos hslot, List.foldl_cons, List.foldl_nil,
        mem_apply hslot (pairwise_foldl_apply _ h)]
      cases hon : op.on k p with
      | none => simpa using ih
      | some => simp
    · rw [if_neg hslot, on_of_ne hslot]
      simpa using ih

theorem recordSecondaryIndexDelta_ne_nil :
    recordSecondaryIndexDelta primaryKey o deltas ≠ [] := by
  cases deltas with
  | nil => exact List.cons_ne_nil _ _
  | cons =>
    rw [recordSecondaryIndexDelta]
    split <;> exact List.cons_ne_nil _ _

theorem mem_recordSecondaryIndexDelta {o' : SecondaryIndexOp}
    (h : (deltas.map (·.primaryKey)).Nodup) :
    ⟨p, o'⟩ ∈ recordSecondaryIndexDelta primaryKey o deltas ↔
      if primaryKey = p then o' = o else ⟨p, o'⟩ ∈ deltas := by
  induction deltas with
  | nil =>
    by_cases hp : primaryKey = p
    · simp [recordSecondaryIndexDelta, hp]
    · simp [recordSecondaryIndexDelta, hp, Ne.symm hp]
  | cons delta deltas ih =>
    rw [List.map_cons, List.nodup_cons] at h
    rw [recordSecondaryIndexDelta]
    by_cases hd : delta.primaryKey = primaryKey
    · rw [if_pos hd, List.mem_cons]
      by_cases hp : primaryKey = p
      · have hnot : (⟨p, o'⟩ : SecondaryIndexDelta) ∉ deltas := fun hmem =>
          h.1 (List.mem_map.mpr ⟨_, hmem, by rw [hd, hp]⟩)
        simp [hp, hd, hnot]
      · have hne : p ≠ delta.primaryKey := fun heq => hp (hd.symm.trans heq.symm)
        cases delta
        simp_all
    · rw [if_neg hd, List.mem_cons, ih h.2, List.mem_cons]
      by_cases hp : primaryKey = p
      · have hne : (⟨p, o'⟩ : SecondaryIndexDelta) ≠ delta := by
          rintro rfl
          exact hd hp.symm
        simp [hp, hne]
      · simp [hp]

theorem keys_recordSecondaryIndexDelta :
    p ∈ (recordSecondaryIndexDelta primaryKey o deltas).map (·.primaryKey) ↔
      p = primaryKey ∨ p ∈ deltas.map (·.primaryKey) := by
  induction deltas with
  | nil => simp [recordSecondaryIndexDelta]
  | cons delta deltas ih =>
    rw [recordSecondaryIndexDelta]
    by_cases hd : delta.primaryKey = primaryKey
    · simp [hd]
    · rw [if_neg hd, List.map_cons, List.mem_cons, ih, List.map_cons, List.mem_cons]
      exact or_left_comm

theorem nodup_recordSecondaryIndexDelta (h : (deltas.map (·.primaryKey)).Nodup) :
    ((recordSecondaryIndexDelta primaryKey o deltas).map (·.primaryKey)).Nodup := by
  induction deltas with
  | nil => simp [recordSecondaryIndexDelta]
  | cons delta deltas ih =>
    rw [List.map_cons, List.nodup_cons] at h
    rw [recordSecondaryIndexDelta]
    by_cases hd : delta.primaryKey = primaryKey
    · rw [if_pos hd, List.map_cons, List.nodup_cons]
      exact h
    · rw [if_neg hd, List.map_cons, List.nodup_cons, keys_recordSecondaryIndexDelta, not_or]
      exact ⟨⟨hd, h.1⟩, ih h.2⟩

theorem secondaryIndexDeltas_concat (k : Slot) (ops : List WriteOp) (op : WriteOp) :
    secondaryIndexDeltas k (ops ++ [op])
      = if op.slot = k then op.record (secondaryIndexDeltas k ops)
        else secondaryIndexDeltas k ops := by
  rw [secondaryIndexDeltas, writesTo_concat, List.foldl_append]
  by_cases h : op.slot = k
  · rw [if_pos h, if_pos h]
    rfl
  · rw [if_neg h, if_neg h]
    rfl

theorem nodup_secondaryIndexDeltas (k : Slot) (ops : List WriteOp) :
    ((secondaryIndexDeltas k ops).map (·.primaryKey)).Nodup := by
  induction ops using List.reverseRecOn with
  | nil => exact List.nodup_nil
  | append_singleton ops op ih =>
    rw [secondaryIndexDeltas_concat]
    split
    · cases op with
      | row => exact ih
      | entry => exact nodup_recordSecondaryIndexDelta ih
    · exact ih

/-- **A delta is the last operation on its primary key.** -/
theorem mem_secondaryIndexDeltas :
    ⟨p, o⟩ ∈ secondaryIndexDeltas k ops ↔ (opsOn k p ops).getLast? = some o := by
  induction ops using List.reverseRecOn with
  | nil => simp [secondaryIndexDeltas, writesTo, opsOn]
  | append_singleton ops op ih =>
    rw [secondaryIndexDeltas_concat, opsOn_concat]
    by_cases hslot : op.slot = k
    · rw [if_pos hslot]
      cases op with
      | row => simpa [WriteOp.record, WriteOp.on] using ih
      | entry table index key primaryKey =>
        have hslot : Slot.entry table index key = k := hslot
        rw [WriteOp.record, mem_recordSecondaryIndexDelta (nodup_secondaryIndexDeltas k ops)]
        by_cases hp : primaryKey = p
        · simp [WriteOp.on, hslot, hp, eq_comm]
        · simpa [WriteOp.on, hslot, hp] using ih
    · rw [if_neg hslot, on_of_ne hslot]
      simpa using ih

theorem opsOn_add_or_remove (h : o ∈ opsOn k p ops) : o = .add ∨ o = .remove := by
  obtain ⟨op, -, hop⟩ := List.mem_filterMap.mp h
  cases op with
  | row => cases hop
  | entry table index key primaryKey isDelete =>
    simp only [WriteOp.on] at hop
    split at hop
    · cases hop
      cases isDelete
      · exact .inl rfl
      · exact .inr rfl
    · cases hop

theorem pairwise_applySecondaryIndexDelta (delta : SecondaryIndexDelta)
    (h : c.Ordered) :
    (applySecondaryIndexDelta c delta).Ordered := by
  unfold applySecondaryIndexDelta
  split
  · exact pairwise_insertKey h
  · exact pairwise_eraseKey h
  · exact h
  · exact h

theorem pairwise_foldl_applySecondaryIndexDelta (deltas : List SecondaryIndexDelta)
    (h : c.Ordered) :
    (deltas.foldl applySecondaryIndexDelta c).Ordered := by
  induction deltas generalizing c with
  | nil => exact h
  | cons delta deltas ih => exact ih (pairwise_applySecondaryIndexDelta delta h)

/-- Merging deltas that name every primary key once. -/
theorem mem_foldl_applySecondaryIndexDelta (hnodup : (deltas.map (·.primaryKey)).Nodup)
    (h : c.Ordered) :
    p ∈ (deltas.foldl applySecondaryIndexDelta c).primaryKeys ↔
      ⟨p, .add⟩ ∈ deltas ∨ (p ∈ c.primaryKeys ∧ ⟨p, .remove⟩ ∉ deltas) := by
  induction deltas generalizing c with
  | nil => simp
  | cons delta deltas ih =>
    rw [List.map_cons, List.nodup_cons] at hnodup
    rw [List.foldl_cons, ih hnodup.2 (pairwise_applySecondaryIndexDelta delta h), List.mem_cons,
      List.mem_cons]
    obtain ⟨primaryKey, o⟩ := delta
    by_cases hp : p = primaryKey
    · have hnot : ∀ o' : SecondaryIndexOp, (⟨p, o'⟩ : SecondaryIndexDelta) ∉ deltas := by
        intro o' hmem
        exact hnodup.1 (List.mem_map.mpr ⟨_, hmem, hp⟩)
      cases o <;>
        simp [applySecondaryIndexDelta, hp, mem_insertKey, mem_eraseKey h, hp ▸ hnot _]
    · cases o <;> simp [applySecondaryIndexDelta, hp, mem_insertKey, mem_eraseKey h]

/-- Merging the deltas of a slot, the last operation on a primary key decides. -/
theorem mem_merge_secondaryIndexDeltas (h : c.Ordered) :
    p ∈ ((secondaryIndexDeltas k ops).foldl applySecondaryIndexDelta c).primaryKeys ↔
      match (opsOn k p ops).getLast? with
      | some o => o = .add
      | none => p ∈ c.primaryKeys := by
  rw [mem_foldl_applySecondaryIndexDelta (nodup_secondaryIndexDeltas _ _) h,
    mem_secondaryIndexDeltas, mem_secondaryIndexDeltas]
  cases hlast : (opsOn k p ops).getLast? with
  | none => simp
  | some => rcases opsOn_add_or_remove (List.mem_of_getLast? hlast) with rfl | rfl <;> simp

/-- **Merging the deltas of a sequence of operations is the sequence**, on a list in order. -/
theorem primaryKeys_merge_secondaryIndexDeltas (h : c.Ordered) :
    ((secondaryIndexDeltas k ops).foldl applySecondaryIndexDelta c).primaryKeys =
      ((writesTo k ops).foldl WriteOp.apply c).primaryKeys := by
  refine List.Pairwise.eq_of_mem_iff (pairwise_foldl_applySecondaryIndexDelta _ h)
    (pairwise_foldl_apply _ h) fun p => ?_
  rw [mem_merge_secondaryIndexDeltas h, mem_foldl_apply k p ops h]

/-- **The deltas that are kept stand for the operations they were recorded from.** Merging
them makes of a primary-key list what the operations make of it in their order, each
primary key has at most one of them, and which they are depends on the last operation on
every primary key alone. -/
theorem secondaryIndexDeltas_equivalent (k : Slot) (ops : List WriteOp)
    (base : { keys : List Bytes // keys.Pairwise (· < ·) }) :
    ((secondaryIndexDeltas k ops).foldl applySecondaryIndexDelta ⟨[], base⟩).primaryKeys =
        ((writesTo k ops).foldl WriteOp.apply ⟨[], base⟩).primaryKeys ∧
      ((secondaryIndexDeltas k ops).map (·.primaryKey)).Nodup ∧
      ∀ ops', (∀ p, (opsOn k p ops).getLast? = (opsOn k p ops').getLast?) →
        ∀ delta, delta ∈ secondaryIndexDeltas k ops ↔ delta ∈ secondaryIndexDeltas k ops' := by
  refine ⟨primaryKeys_merge_secondaryIndexDeltas base.2, nodup_secondaryIndexDeltas k ops,
    fun ops' hlast delta => ?_⟩
  rw [mem_secondaryIndexDeltas, mem_secondaryIndexDeltas, hlast]

end Lists

namespace Transaction

variable {indexType : Bytes → Bytes → UInt32} {tx : Transaction} {k : Slot} {p : Bytes}
  {c : Content}

theorem pairwise_install (h : c.Ordered) :
    (tx.install indexType k c).Ordered := by
  unfold install
  split
  · exact pairwise_foldl_apply _ h
  · split
    · exact pairwise_foldl_apply _ h
    · exact pairwise_foldl_applySecondaryIndexDelta _ h

/-- **Either committer leaves a primary key as the last operation on it says.** -/
theorem mem_install (h : c.Ordered) :
    p ∈ (tx.install indexType k c).primaryKeys ↔
      match (opsOn k p tx.ops).getLast? with
      | some o => o = .add
      | none => p ∈ c.primaryKeys := by
  unfold install
  split
  · exact mem_foldl_apply _ p tx.ops h
  · split
    · exact mem_foldl_apply _ p tx.ops h
    · exact mem_merge_secondaryIndexDeltas h

/-- Row writes leave the primary keys alone. -/
theorem primaryKeys_install_row (table key : Bytes) (c : Content) :
    (tx.install indexType (.row table key) c).primaryKeys = c.primaryKeys := by
  have hrows : ∀ op ∈ writesTo (.row table key) tx.ops, op.isRow = true := by
    intro op hop
    have hslot : op.slot = .row table key := by simpa using (List.mem_filter.mp hop).2
    cases op with
    | row => rfl
    | entry => cases hslot
  show ((writesTo (.row table key) tx.ops).foldl WriteOp.apply c).primaryKeys = _
  generalize writesTo (.row table key) tx.ops = ops at hrows
  induction ops generalizing c with
  | nil => rfl
  | cons op ops ih =>
    rw [List.foldl_cons, ih _ fun op hop => hrows op (.tail _ hop)]
    cases op with
    | row => rfl
    | entry => cases hrows _ (.head _)

end Transaction

end LineairDB.Recovery
