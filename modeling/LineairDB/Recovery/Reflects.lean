import LineairDB.Recovery.History

/-!
# Memory is what the log shows

What a commit's record says of the rows and primary keys it wrote, why its
versions are newer than anything their slots have seen before, through a purge
as well, and what follows for a whole history: the newest version of every row
in the log is the one memory holds, and the primary keys of a secondary entry are
those whose newest operation added them.

* `Transaction.newest_ops`, `Transaction.newest_rows` — what one record says.
* `Overtaken.lt_next` — versions go up.
* `Reflects.step`, `Reflects.run` — memory and log agree after every step.
-/

namespace LineairDB.Recovery

open ByteFile NewestWins Silo Stateless Transition
open Function (update_of_ne update update_apply)

variable {index key p table : Bytes} {deltas : List SecondaryIndexDelta} {a : HistoryStep}

/-! ## What a record says -/

/-- The row versions among pairs. -/
def pairRows (pairs : List KeyValuePair) : List (Entry (Bytes × Bytes) TransactionId Bytes) :=
  (rowPairs pairs).map KeyValuePair.row

/-- The secondary-index operations among pairs. -/
def pairOps (pairs : List KeyValuePair) : List (Entry SecondaryOpKey TransactionId UInt8) :=
  (pairs.filter KeyValuePair.isSecondaryIndex).flatMap KeyValuePair.secondaryOps

/-- The rows of a record. -/
def LogRecord.rows (r : LogRecord) : List (Entry (Bytes × Bytes) TransactionId Bytes) :=
  pairRows r.keyValuePairs

/-- The secondary operations of a record. -/
def LogRecord.ops (r : LogRecord) : List (Entry SecondaryOpKey TransactionId UInt8) :=
  pairOps r.keyValuePairs

theorem pairRows_flatMap {α : Type} (l : List α) (f : α → List KeyValuePair) :
    pairRows (l.flatMap f) = l.flatMap fun a => pairRows (f a) := by
  simp only [pairRows, rowPairs, List.filter_flatMap, List.map_flatMap]

theorem pairOps_flatMap {α : Type} (l : List α) (f : α → List KeyValuePair) :
    pairOps (l.flatMap f) = l.flatMap fun a => pairOps (f a) := by
  simp only [pairOps, List.filter_flatMap, List.flatMap_assoc]

theorem pairRows_recordPairs (records : LogRecords) :
    pairRows (recordPairs records) = (records.map LogRecord.rows).flatten := by
  rw [recordPairs, pairRows_flatMap]
  rfl

theorem pairOps_recordPairs (records : LogRecords) :
    pairOps (recordPairs records) = (records.map LogRecord.ops).flatten := by
  rw [recordPairs, pairOps_flatMap]
  rfl

variable {k : Slot}

section Record

variable {indexType : Bytes → Bytes → UInt32} {held : Slot → Held}

/-- A row is logged as it is. -/
theorem pairRows_row (deltas : List SecondaryIndexDelta)
    (hplain : (held (.row table key)).content.primaryKeys = []) :
    pairRows (slotSnapshot indexType held (.row table key) deltas).keyValuePairs
      = [⟨(table, key), (held (.row table key)).word, (held (.row table key)).content.buffer⟩] := by
  simp [slotSnapshot, Snapshot.keyValuePairs, pairRows, rowPairs, KeyValuePair.isSecondaryIndex,
    KeyValuePair.row, hplain]

theorem pairOps_row (deltas : List SecondaryIndexDelta)
    (hplain : (held (.row table key)).content.primaryKeys = []) :
    pairOps (slotSnapshot indexType held (.row table key) deltas).keyValuePairs = [] := by
  simp [slotSnapshot, Snapshot.keyValuePairs, pairOps, KeyValuePair.isSecondaryIndex, hplain]

/-- An entry is logged by its deltas. -/
theorem pairRows_entry (deltas : List SecondaryIndexDelta) (hnamed : index ≠ []) :
    pairRows (slotSnapshot indexType held (.entry table index key) deltas).keyValuePairs = [] := by
  simp [slotSnapshot, Snapshot.keyValuePairs, pairRows, rowPairs, KeyValuePair.isSecondaryIndex,
    hnamed]

theorem pairOps_entry (hnamed : index ≠ [])
    (hop : ∀ delta ∈ deltas, delta.op = .add ∨ delta.op = .remove) :
    pairOps (slotSnapshot indexType held (.entry table index key) deltas).keyValuePairs
      = (deltas.filter fun delta => delta.primaryKey ≠ []).map fun delta =>
          ⟨⟨table, index, indexType table index, key, delta.primaryKey⟩,
            (held (.entry table index key)).word, delta.op.raw⟩ := by
  have hpairs : (slotSnapshot indexType held (.entry table index key) deltas).keyValuePairs
      = deltas.map fun delta =>
        ⟨key, (held (.entry table index key)).content.buffer,
          (held (.entry table index key)).word, table, index, indexType table index, [],
          delta.op.raw, delta.primaryKey⟩ := by
    simp [slotSnapshot, Snapshot.keyValuePairs, hnamed]
  rw [hpairs]
  clear hpairs
  induction deltas with
  | nil => rfl
  | cons delta deltas ih =>
    have hraw : delta.op.raw ≠ SecondaryIndexOp.full.raw := by
      rcases hop delta (.head _) with h | h <;> rw [h] <;> decide
    have ih := ih fun d hd => hop d (.tail _ hd)
    simp only [pairOps, List.map_cons, List.filter_cons, KeyValuePair.isSecondaryIndex] at ih ⊢
    by_cases hp : delta.primaryKey = []
    · simp [hnamed, hp, hraw, KeyValuePair.secondaryOps, ih]
    · simp [hnamed, hp, hraw, KeyValuePair.secondaryOps, KeyValuePair.opKey, ih]

namespace Transaction

variable {tx : Transaction}

/-- A slot the transaction logs an entry for, and the deltas of that entry. -/
def Logs (tx : Transaction) (k : Slot) (deltas : List SecondaryIndexDelta) : Prop :=
  if tx.stateless then ∃ op ∈ tx.ops, op.slot = k ∧ deltas = op.record []
  else k ∈ tx.slots ∧ deltas = secondaryIndexDeltas k tx.ops

theorem mem_slots : k ∈ tx.slots ↔ ∃ op ∈ tx.ops, op.slot = k := by
  rw [slots, List.mem_dedup, List.mem_map]

theorem mem_writeSet {s : Snapshot} : s ∈ tx.writeSet indexType held ↔
    ∃ k deltas, tx.Logs k deltas ∧ s = slotSnapshot indexType held k deltas := by
  unfold writeSet Logs
  split
  · simp only [List.mem_map, List.mem_append, List.mem_filter]
    constructor
    · rintro ⟨op, hop, rfl⟩
      exact ⟨op.slot, op.record [], ⟨op, hop.elim And.left And.left, rfl, rfl⟩, rfl⟩
    · rintro ⟨k, deltas, ⟨op, hop, rfl, rfl⟩, rfl⟩
      refine ⟨op, ?_, rfl⟩
      cases hrow : op.isRow
      · exact .inr ⟨hop, rfl⟩
      · exact .inl ⟨hop, rfl⟩
  · rw [(List.perm_insertionSort _ _).mem_iff, List.mem_map]
    constructor
    · rintro ⟨k, hk, rfl⟩
      exact ⟨k, _, ⟨hk, rfl⟩, rfl⟩
    · rintro ⟨k, deltas, ⟨hk, rfl⟩, rfl⟩
      exact ⟨k, hk, rfl⟩

theorem Logs.mem_slots (h : tx.Logs k deltas) : k ∈ tx.slots := by
  unfold Logs at h
  split at h
  · obtain ⟨op, hop, hk, -⟩ := h
    exact Transaction.mem_slots.mpr ⟨op, hop, hk⟩
  · exact h.1

theorem exists_logs (h : k ∈ tx.slots) : ∃ deltas, tx.Logs k deltas := by
  unfold Logs
  split
  · obtain ⟨op, hop, hk⟩ := Transaction.mem_slots.mp h
    exact ⟨_, op, hop, hk, rfl⟩
  · exact ⟨_, h, rfl⟩

/-- A logged delta is an operation of the transaction. -/
theorem Logs.mem_opsOn (h : tx.Logs k deltas) {delta : SecondaryIndexDelta}
    (hdelta : delta ∈ deltas) : delta.op ∈ opsOn k delta.primaryKey tx.ops := by
  unfold Logs at h
  split at h
  · obtain ⟨op, hop, hk, rfl⟩ := h
    refine List.mem_filterMap.mpr ⟨op, hop, ?_⟩
    cases op with
    | row => cases hdelta
    | entry table index key primaryKey isDelete =>
      have hk : Slot.entry table index key = k := hk
      have hdelta : delta = ⟨primaryKey, WriteOp.op isDelete⟩ := List.mem_singleton.mp hdelta
      rw [hdelta, WriteOp.on, if_pos ⟨hk, rfl⟩]
  · obtain ⟨-, rfl⟩ := h
    exact List.mem_of_getLast? (mem_secondaryIndexDeltas.mp hdelta)

theorem Recoverable.named_of_mem (h : tx.Recoverable) (hk : Slot.entry table index key ∈ tx.slots) :
    index ≠ [] := by
  obtain ⟨op, hop, hslot⟩ := Transaction.mem_slots.mp hk
  cases op with
  | row => cases hslot
  | entry =>
    cases hslot
    exact h.named _ _ _ _ _ hop

theorem Logs.add_or_remove (h : tx.Logs k deltas) :
    ∀ delta ∈ deltas, delta.op = .add ∨ delta.op = .remove :=
  fun _ hdelta => opsOn_add_or_remove (h.mem_opsOn hdelta)

section

variable (htx : tx.Recoverable)
  (hplain : ∀ table key, (held (.row table key)).content.primaryKeys = [])

include htx hplain

/-- The pairs of the record, slot by slot. -/
theorem mem_pairRows_writeSet {e : Entry (Bytes × Bytes) TransactionId Bytes} :
    e ∈ pairRows ((tx.writeSet indexType held).flatMap Snapshot.keyValuePairs) ↔
      ∃ table key, Slot.row table key ∈ tx.slots ∧
        e = ⟨(table, key), (held (.row table key)).word,
          (held (.row table key)).content.buffer⟩ := by
  rw [pairRows_flatMap, List.mem_flatMap]
  constructor
  · rintro ⟨s, hs, he⟩
    obtain ⟨k, deltas, hlogs, rfl⟩ := mem_writeSet.mp hs
    cases k with
    | row table key =>
      rw [pairRows_row deltas (hplain table key), List.mem_singleton] at he
      exact ⟨table, key, hlogs.mem_slots, he⟩
    | entry =>
      rw [pairRows_entry deltas (htx.named_of_mem hlogs.mem_slots)] at he
      cases he
  · rintro ⟨table, key, hk, rfl⟩
    obtain ⟨deltas, hlogs⟩ := exists_logs hk
    refine ⟨_, mem_writeSet.mpr ⟨_, deltas, hlogs, rfl⟩, ?_⟩
    rw [pairRows_row deltas (hplain table key)]
    exact List.mem_singleton_self _

theorem mem_pairOps_writeSet {e : Entry SecondaryOpKey TransactionId UInt8} :
    e ∈ pairOps ((tx.writeSet indexType held).flatMap Snapshot.keyValuePairs) ↔
      ∃ table index key deltas delta, tx.Logs (.entry table index key) deltas ∧ delta ∈ deltas ∧
        delta.primaryKey ≠ [] ∧
        e = ⟨⟨table, index, indexType table index, key, delta.primaryKey⟩,
          (held (.entry table index key)).word, delta.op.raw⟩ := by
  rw [pairOps_flatMap, List.mem_flatMap]
  constructor
  · rintro ⟨s, hs, he⟩
    obtain ⟨k, deltas, hlogs, rfl⟩ := mem_writeSet.mp hs
    cases k with
    | row table key =>
      rw [pairOps_row deltas (hplain table key)] at he
      cases he
    | entry table index key =>
      rw [pairOps_entry (htx.named_of_mem hlogs.mem_slots) hlogs.add_or_remove, List.mem_map] at he
      obtain ⟨delta, hdelta, rfl⟩ := he
      obtain ⟨hdelta, hp⟩ := List.mem_filter.mp hdelta
      exact ⟨table, index, key, deltas, delta, hlogs, hdelta, by simpa using hp, rfl⟩
  · rintro ⟨table, index, key, deltas, delta, hlogs, hdelta, hp, rfl⟩
    refine ⟨_, mem_writeSet.mpr ⟨_, deltas, hlogs, rfl⟩, ?_⟩
    rw [pairOps_entry (htx.named_of_mem hlogs.mem_slots) hlogs.add_or_remove]
    exact List.mem_map.mpr ⟨delta, List.mem_filter.mpr ⟨hdelta, by simpa using hp⟩, rfl⟩

omit htx hplain in
/-- What one write of a stateless request logs on one primary key. -/
theorem filter_pairOps_write (htx : tx.Recoverable) {op : WriteOp} (hop : op ∈ tx.ops)
    (hplain : ∀ table key, (held (.row table key)).content.primaryKeys = [])
    (table index key : Bytes) (hp : p ≠ []) :
    (pairOps (slotSnapshot indexType held op.slot (op.record [])).keyValuePairs).filter
        (fun e => e.key = ⟨table, index, indexType table index, key, p⟩)
      = (op.on (.entry table index key) p).toList.map fun o =>
          ⟨⟨table, index, indexType table index, key, p⟩, (held (.entry table index key)).word,
            o.raw⟩ := by
  cases op with
  | row table' key' =>
    rw [WriteOp.slot, pairOps_row _ (hplain table' key')]
    rfl
  | entry table' index' key' primaryKey isDelete =>
    have hops : ∀ delta ∈ WriteOp.record [] (.entry table' index' key' primaryKey isDelete),
        delta.op = .add ∨ delta.op = .remove := by
      intro delta hdelta
      rw [List.mem_singleton.mp hdelta]
      cases isDelete
      · exact .inl rfl
      · exact .inr rfl
    rw [WriteOp.slot, pairOps_entry (htx.named _ _ _ _ _ hop) hops]
    by_cases heq : Slot.entry table' index' key' = .entry table index key ∧ primaryKey = p
    · obtain ⟨hslot, rfl⟩ := heq
      cases hslot
      simp [WriteOp.record, recordSecondaryIndexDelta, WriteOp.on, hp]
    · rw [WriteOp.on, if_neg heq]
      simp only [WriteOp.record, recordSecondaryIndexDelta, Option.toList_none, List.map_nil,
        List.filter_eq_nil_iff, List.mem_map, List.mem_filter, List.mem_singleton,
        decide_eq_true_eq]
      rintro e ⟨delta, ⟨rfl, -⟩, rfl⟩ hkey
      obtain ⟨rfl, rfl, -, rfl, rfl⟩ := SecondaryOpKey.mk.inj hkey
      exact heq ⟨rfl, rfl⟩

omit htx hplain in
/-- The entries of a stateless record on one primary key, in the order of the request. -/
theorem filter_pairOps_stateless (htx : tx.Recoverable) (hstateless : tx.stateless = true)
    (hplain : ∀ table key, (held (.row table key)).content.primaryKeys = [])
    (table index key : Bytes) (hp : p ≠ []) :
    (pairOps ((tx.writeSet indexType held).flatMap Snapshot.keyValuePairs)).filter
        (fun e => e.key = ⟨table, index, indexType table index, key, p⟩)
      = (opsOn (.entry table index key) p tx.ops).map fun o =>
          ⟨⟨table, index, indexType table index, key, p⟩, (held (.entry table index key)).word,
            o.raw⟩ := by
  have hall : ∀ ops : List WriteOp, (∀ op ∈ ops, op ∈ tx.ops) →
      (ops.flatMap fun op =>
          pairOps (slotSnapshot indexType held op.slot (op.record [])).keyValuePairs).filter
          (fun e => e.key = ⟨table, index, indexType table index, key, p⟩)
        = (opsOn (.entry table index key) p ops).map fun o =>
            ⟨⟨table, index, indexType table index, key, p⟩, (held (.entry table index key)).word,
              o.raw⟩ := by
    intro ops hops
    induction ops with
    | nil => rfl
    | cons op ops ih =>
      rw [List.flatMap_cons, List.filter_append,
        filter_pairOps_write htx (hops op (.head _)) hplain table index key hp,
        ih fun op hop => hops op (.tail _ hop), opsOn_cons, List.map_append]
  rw [writeSet, if_pos hstateless, List.flatMap_map, pairOps_flatMap, hall, opsOn_rows_first]
  intro op hop
  rcases List.mem_append.mp hop with hop | hop <;> exact (List.mem_filter.mp hop).1

/-- **What the record says of a primary key**: the last operation of the transaction on
it, under the identifier its slot was unlocked with. -/
theorem newest_ops (hp : p ≠ [])
    {o : SecondaryIndexOp} (hlast : (opsOn (.entry table index key) p tx.ops).getLast? = some o) :
    newest ⟨table, index, indexType table index, key, p⟩
        (pairOps ((tx.writeSet indexType held).flatMap Snapshot.keyValuePairs))
      = some ⟨⟨table, index, indexType table index, key, p⟩,
          (held (.entry table index key)).word, o.raw⟩ := by
  have hsame : ∀ e ∈ pairOps ((tx.writeSet indexType held).flatMap Snapshot.keyValuePairs),
      e.key = ⟨table, index, indexType table index, key, p⟩ →
        e.version = (held (.entry table index key)).word := by
    intro e he hkey
    obtain ⟨table', index', key', deltas, delta, -, -, -, rfl⟩ :=
      (mem_pairOps_writeSet htx hplain).mp he
    obtain ⟨rfl, rfl, -, rfl, -⟩ := SecondaryOpKey.mk.inj hkey
    rfl
  cases hstateless : tx.stateless with
  | true =>
    have hfirst := htx.settled hstateless (.entry table index key) p
    rw [hlast] at hfirst
    obtain ⟨rest, hops⟩ := List.head?_eq_some_iff.mp hfirst
    have hfilter := @filter_pairOps_stateless p indexType held tx htx hstateless hplain table index
      key hp
    rw [hops, List.map_cons] at hfilter
    exact newest_of_same_version hsame hfilter
  | false =>
    -- one delta per primary key
    have hlogs : ∀ {k : Slot} {deltas}, tx.Logs k deltas →
        k ∈ tx.slots ∧ deltas = secondaryIndexDeltas k tx.ops := by
      intro k deltas h
      simpa [Logs, hstateless] using h
    have honly : ∀ e ∈ pairOps ((tx.writeSet indexType held).flatMap Snapshot.keyValuePairs),
        e.key = ⟨table, index, indexType table index, key, p⟩ →
        e = ⟨⟨table, index, indexType table index, key, p⟩,
          (held (.entry table index key)).word, o.raw⟩ := by
      intro e he hkey
      obtain ⟨table', index', key', deltas, delta, hlog, hdelta, -, rfl⟩ :=
        (mem_pairOps_writeSet htx hplain).mp he
      obtain ⟨rfl, rfl, -, rfl, rfl⟩ := SecondaryOpKey.mk.inj hkey
      obtain ⟨-, rfl⟩ := hlogs hlog
      have hop : some delta.op = some o := (mem_secondaryIndexDeltas.mp hdelta).symm.trans hlast
      rw [Option.some.inj hop]
    have hmem : (⟨⟨table, index, indexType table index, key, p⟩,
        (held (.entry table index key)).word, o.raw⟩ : Entry SecondaryOpKey TransactionId UInt8)
        ∈ pairOps ((tx.writeSet indexType held).flatMap Snapshot.keyValuePairs) := by
      obtain ⟨op, hop, hon⟩ := List.mem_filterMap.mp (List.mem_of_getLast? hlast)
      have hslot : Slot.entry table index key ∈ tx.slots :=
        Transaction.mem_slots.mpr ⟨op, hop, slot_of_on hon⟩
      obtain ⟨deltas, hlog⟩ := exists_logs hslot
      obtain ⟨-, rfl⟩ := hlogs hlog
      exact (mem_pairOps_writeSet htx hplain).mpr
        ⟨table, index, key, _, ⟨p, o⟩, hlog, mem_secondaryIndexDeltas.mpr hlast, hp, rfl⟩
    exact newest_of_forall_eq hmem rfl honly

/-- A record says nothing of a primary key the transaction has no operation on. -/
theorem ne_of_opsOn_eq_nil {type : UInt32} (hnone : opsOn (.entry table index key) p tx.ops = []) :
    ∀ e ∈ pairOps ((tx.writeSet indexType held).flatMap Snapshot.keyValuePairs),
      e.key ≠ ⟨table, index, type, key, p⟩ := by
  intro e he hkey
  obtain ⟨table', index', key', deltas, delta, hlog, hdelta, -, rfl⟩ :=
    (mem_pairOps_writeSet htx hplain).mp he
  obtain ⟨rfl, rfl, -, rfl, rfl⟩ := SecondaryOpKey.mk.inj hkey
  have hop := hlog.mem_opsOn hdelta
  rw [hnone] at hop
  cases hop

/-- **What the record says of a row.** -/
theorem newest_rows (hk : Slot.row table key ∈ tx.slots) :
    newest (table, key) (pairRows ((tx.writeSet indexType held).flatMap Snapshot.keyValuePairs))
      = some ⟨(table, key), (held (.row table key)).word,
          (held (.row table key)).content.buffer⟩ := by
  refine newest_of_forall_eq ((mem_pairRows_writeSet htx hplain).mpr ⟨table, key, hk, rfl⟩) rfl ?_
  intro e he hkey
  obtain ⟨table', key', -, rfl⟩ := (mem_pairRows_writeSet htx hplain).mp he
  cases hkey
  rfl

end

end Transaction

end Record

/-! ## Versions go up -/

/-- The slot has gone past the version: it holds a later one, or the version is two epochs
back, so that the slot may have been purged since. -/
def Overtaken (h : History) (k : Slot) (v : TransactionId) : Prop :=
  v ≤ (h.held k).word ∨ v.epoch.toNat + 2 ≤ h.epoch.toNat

theorem TransactionId.epoch_le_of_le {v w : TransactionId} (h : v ≤ w) :
    v.epoch.toNat ≤ w.epoch.toNat := by
  have hval : v.val ≤ w.val := h
  have hw := w.tid.toNat_lt
  unfold TransactionId.val at hval
  omega

section Steps

variable {indexType : Bytes → Bytes → UInt32} {h h' : History} {tx : Transaction} {k : Slot}
  {v : TransactionId}

/-- What a step does, and when it can be taken. -/
theorem History.step_cases (hstep : h.step indexType a = some h') :
    (∃ epoch, a = .advance epoch ∧ h.epoch.toNat < epoch.toNat ∧ h' = { h with epoch := epoch }) ∨
    (∃ tx, a = .commit tx ∧ h.epoch.toNat ≤ tx.epoch.toNat + 1 ∧
      (∀ k ∈ tx.slots, (h.held k).word.epoch.toNat ≤ tx.epoch.toNat) ∧
      h' = h.commit indexType tx) ∨
    (∃ k, a = .purge k ∧ Content.initializedAt k (h.held k).content = false ∧
      (h.held k).word.epoch.toNat + 2 ≤ h.epoch.toNat ∧
      h' = { h with held := update h.held k ⟨.empty, .blank⟩ }) := by
  revert hstep
  fun_cases History.step indexType h a with
  | case1 epoch hlt =>
    rintro ⟨⟩
    exact .inl ⟨epoch, rfl, UInt32.lt_iff_toNat_lt.mp hlt, rfl⟩
  | case3 tx hguard =>
    rintro ⟨⟩
    refine .inr (.inl ⟨tx, rfl, hguard.2.1, fun k hk => ?_, rfl⟩)
    exact UInt32.le_iff_toNat_le.mp (hguard.2.2 k hk)
  | case5 k hguard =>
    rintro ⟨⟩
    exact .inr (.inr ⟨k, rfl, hguard.1, hguard.2, rfl⟩)
  | _ => nofun

/-- **A commit's version is newer than all its slot has gone past.** -/
theorem Overtaken.lt_next (hv : Overtaken h k v) (hunlocked : (h.held k).word.isLocked = false)
    (hlag : h.epoch.toNat ≤ tx.epoch.toNat + 1)
    (hepoch : (h.held k).word.epoch.toNat ≤ tx.epoch.toNat)
    (hroom : (h.held k).word.tid.toNat < 2 ^ 32 - 2) :
    v < (h.held k).word.locked.next tx.epoch := by
  have hlt := TransactionId.val_lt_next hunlocked hepoch hroom
  rw [TransactionId.lt_iff_val]
  rcases hv with hv | hv
  · exact Nat.lt_of_le_of_lt hv hlt
  · refine TransactionId.val_lt_of_epoch_lt ?_
    rw [TransactionId.epoch_next]
    omega

theorem heldAfter_of_mem (hk : k ∈ tx.slots) (held : Slot → Held) :
    tx.heldAfter indexType held k
      = ⟨(held k).word.locked.next tx.epoch, tx.install indexType k (held k).content⟩ := by
  rw [Transaction.heldAfter, if_pos hk]

theorem heldAfter_of_not_mem (hk : k ∉ tx.slots) (held : Slot → Held) :
    tx.heldAfter indexType held k = held k := by
  rw [Transaction.heldAfter, if_neg hk]

/-- What a slot has gone past stays behind it. -/
theorem Overtaken.step (hv : Overtaken h k v) (hunlocked : ∀ k, (h.held k).word.isLocked = false)
    (hfollowed : Followed h a) (hstep : h.step indexType a = some h') : Overtaken h' k v := by
  rcases History.step_cases hstep with ⟨epoch, rfl, hlt, rfl⟩ | ⟨tx, rfl, hlag, hepoch, rfl⟩ |
    ⟨k', rfl, -, hold, rfl⟩
  · exact hv.imp_right fun h2 => le_of_lt (h2.trans_lt hlt)
  · by_cases hk : k ∈ tx.slots
    · have hlt := hv.lt_next (hunlocked k) hlag (hepoch k hk) (hfollowed.2 k hk)
      refine .inl ?_
      show v ≤ (tx.heldAfter indexType h.held k).word
      rw [heldAfter_of_mem hk]
      exact hlt.le
    · show v ≤ (tx.heldAfter indexType h.held k).word ∨ _
      rw [heldAfter_of_not_mem hk]
      exact hv
  · by_cases hk : k = k'
    · subst hk
      refine .inr ?_
      rcases hv with hv | hv
      · have hle := TransactionId.epoch_le_of_le hv
        show v.epoch.toNat + 2 ≤ h.epoch.toNat
        omega
      · exact hv
    · unfold Overtaken
      dsimp only
      rw [update_of_ne hk]
      exact hv

end Steps

/-! ## Memory is what the log shows -/

/-- The slot of an operation. -/
def SecondaryOpKey.slot (key : SecondaryOpKey) : Slot :=
  .entry key.tableName key.indexName key.secondaryKey

/-- What is held of a row agrees with the version that was last logged of it. -/
def RowShown (table key : Bytes) (x : Held)
    (o : Option (Entry (Bytes × Bytes) TransactionId Bytes)) : Prop :=
  (x.content.buffer ≠ [] → o = some ⟨(table, key), x.word, x.content.buffer⟩) ∧
    (x.content.buffer = [] → ∀ e, o = some e → e.value = [])

/-- What is held agrees with the log: a live row is its newest version, and an entry's
primary keys are those whose newest operation added them. -/
structure Reflects (indexType : Bytes → Bytes → UInt32) (h : History) : Prop where
  unlocked : ∀ k, (h.held k).word.isLocked = false
  sorted : ∀ k, (h.held k).content.Ordered
  plain : ∀ table key, (h.held (.row table key)).content.primaryKeys = []
  typed : ∀ r ∈ h.log, ∀ e ∈ r.ops, e.key.indexName ≠ [] ∧ e.key.primaryKey ≠ [] ∧
    e.key.indexType = indexType e.key.tableName e.key.indexName
  rowsOvertaken : ∀ r ∈ h.log, ∀ e ∈ r.rows, Overtaken h (.row e.key.1 e.key.2) e.version
  opsOvertaken : ∀ r ∈ h.log, ∀ e ∈ r.ops, Overtaken h e.key.slot e.version
  rows : ∀ table key, ∃ o, Peak (table, key) (h.log.map LogRecord.rows) o ∧
    RowShown table key (h.held (.row table key)) o
  ops : ∀ table index key p, ∃ o,
    Peak ⟨table, index, indexType table index, key, p⟩ (h.log.map LogRecord.ops) o ∧
      (p ∈ (h.held (.entry table index key)).content.primaryKeys ↔
        ∃ e, o = some e ∧ e.value = SecondaryIndexOp.add.raw)

theorem Reflects.start (indexType : Bytes → Bytes → UInt32) : Reflects indexType .start where
  unlocked _ := TransactionId.isLocked_empty
  sorted _ := List.Pairwise.nil
  plain _ _ := rfl
  typed := by simp [History.start]
  rowsOvertaken := by simp [History.start]
  opsOvertaken := by simp [History.start]
  rows table key := ⟨none, .nil, fun hne => absurd rfl hne, by simp⟩
  ops table index key p := ⟨none, .nil, by simp [History.start, Content.blank]⟩

section Steps

variable {indexType : Bytes → Bytes → UInt32} {h h' : History} {tx : Transaction}

theorem mem_log_commit {r : LogRecord} (hr : r ∈ (h.commit indexType tx).log) :
    r ∈ h.log ∨ r = tx.record indexType h.held := by
  simp only [History.commit] at hr
  split at hr
  · exact .inl hr
  · exact (List.mem_append.mp hr).imp_right List.mem_singleton.mp

/-- A commit that says nothing of a key leaves what the log shows of it. -/
theorem peak_commit_of_forall_ne {κ β : Type} [DecidableEq κ] {k : κ}
    {f : LogRecord → List (Entry κ TransactionId β)} {o : Option (Entry κ TransactionId β)}
    (hpeak : Peak k (h.log.map f) o) (hne : ∀ e ∈ f (tx.record indexType h.held), e.key ≠ k) :
    Peak k ((h.commit indexType tx).log.map f) o := by
  simp only [History.commit]
  split
  · exact hpeak
  · rw [List.map_append]
    exact hpeak.concat_of_forall_ne hne

/-- A commit that says something newer of a key decides what the log shows of it. -/
theorem peak_commit_of_newest {κ β : Type} [DecidableEq κ] {k : κ}
    {f : LogRecord → List (Entry κ TransactionId β)} {x : Entry κ TransactionId β}
    (hnil : ∀ r : LogRecord, r.keyValuePairs = [] → f r = [])
    (hx : newest k (f (tx.record indexType h.held)) = some x)
    (hlt : ∀ r ∈ h.log, ∀ e ∈ f r, e.key = k → e.version < x.version) :
    Peak k ((h.commit indexType tx).log.map f) (some x) := by
  simp only [History.commit]
  split
  · rename_i hempty
    rw [hnil _ hempty] at hx
    cases hx
  · rw [List.map_append]
    refine .concat_of_newest hx fun b hb => ?_
    obtain ⟨r, hr, rfl⟩ := List.mem_map.mp hb
    exact hlt r hr

namespace Reflects

/-- The rows stay rows. -/
theorem plain_heldAfter (hr : Reflects indexType h) (tx : Transaction) (table key : Bytes) :
    (tx.heldAfter indexType h.held (.row table key)).content.primaryKeys = [] := by
  by_cases hk : Slot.row table key ∈ tx.slots
  · rw [heldAfter_of_mem hk]
    rw [Transaction.primaryKeys_install_row]
    exact hr.plain table key
  · rw [heldAfter_of_not_mem hk]
    exact hr.plain table key

theorem sorted_heldAfter (hr : Reflects indexType h) (tx : Transaction) (k : Slot) :
    (tx.heldAfter indexType h.held k).content.Ordered := by
  by_cases hk : k ∈ tx.slots
  · rw [heldAfter_of_mem hk]
    exact Transaction.pairwise_install (hr.sorted k)
  · rw [heldAfter_of_not_mem hk]
    exact hr.sorted k

section Committing

variable (hr : Reflects indexType h) (htx : tx.Recoverable) (hroom : Room h tx)
  (hlag : h.epoch.toNat ≤ tx.epoch.toNat + 1)
  (hepoch : ∀ k ∈ tx.slots, (h.held k).word.epoch.toNat ≤ tx.epoch.toNat)

include hr htx in
/-- A row version of the record is the row as it is left. -/
theorem mem_rows_record {e : Entry (Bytes × Bytes) TransactionId Bytes}
    (he : e ∈ (tx.record indexType h.held).rows) :
    ∃ table key, Slot.row table key ∈ tx.slots ∧
      e = ⟨(table, key), (tx.heldAfter indexType h.held (.row table key)).word,
        (tx.heldAfter indexType h.held (.row table key)).content.buffer⟩ :=
  (Transaction.mem_pairRows_writeSet htx (hr.plain_heldAfter tx)).mp he

include hr htx in
/-- An operation of the record is one of the transaction. -/
theorem mem_ops_record {e : Entry SecondaryOpKey TransactionId UInt8}
    (he : e ∈ (tx.record indexType h.held).ops) :
    e.key.slot ∈ tx.slots ∧ e.version = (tx.heldAfter indexType h.held e.key.slot).word ∧
      e.key.primaryKey ≠ [] ∧ e.key.indexType = indexType e.key.tableName e.key.indexName ∧
      ∃ o ∈ opsOn e.key.slot e.key.primaryKey tx.ops, e.value = o.raw := by
  obtain ⟨table, index, key, deltas, delta, hlog, hdelta, hp, rfl⟩ :=
    (Transaction.mem_pairOps_writeSet htx (hr.plain_heldAfter tx)).mp he
  exact ⟨hlog.mem_slots, rfl, hp, rfl, delta.op, hlog.mem_opsOn hdelta, rfl⟩

include hr hroom hlag hepoch in
theorem lt_heldAfter {v : TransactionId} (hk : k ∈ tx.slots)
    (hv : Overtaken h k v) : v < (tx.heldAfter indexType h.held k).word := by
  rw [heldAfter_of_mem hk]
  exact hv.lt_next (hr.unlocked k) hlag (hepoch k hk) (hroom k hk)

include hr htx hroom hlag hepoch in
theorem rows_commit (table key : Bytes) : ∃ o,
    Peak (table, key) ((h.commit indexType tx).log.map LogRecord.rows) o ∧
      RowShown table key (tx.heldAfter indexType h.held (.row table key)) o := by
  by_cases hk : Slot.row table key ∈ tx.slots
  · refine ⟨some _, peak_commit_of_newest (fun r hnil => by rw [LogRecord.rows, hnil]; rfl)
      (Transaction.newest_rows htx (hr.plain_heldAfter tx) hk) fun r hmem e he hkey => ?_,
      fun _ => rfl, ?_⟩
    · have hpast := hr.rowsOvertaken r hmem e he
      rw [hkey] at hpast
      exact hr.lt_heldAfter hroom hlag hepoch hk hpast
    · rintro hdead e ⟨⟩
      exact hdead
  · obtain ⟨o, hpeak, hshown⟩ := hr.rows table key
    refine ⟨o, peak_commit_of_forall_ne hpeak fun e he hkey => ?_, ?_⟩
    · obtain ⟨table', key', hk', rfl⟩ := hr.mem_rows_record htx he
      cases hkey
      exact hk hk'
    · rw [heldAfter_of_not_mem hk]
      exact hshown

include hr htx hroom hlag hepoch in
theorem ops_commit (table index key p : Bytes) : ∃ o,
    Peak ⟨table, index, indexType table index, key, p⟩
      ((h.commit indexType tx).log.map LogRecord.ops) o ∧
    (p ∈ (tx.heldAfter indexType h.held (.entry table index key)).content.primaryKeys ↔
      ∃ e, o = some e ∧ e.value = SecondaryIndexOp.add.raw) := by
  obtain ⟨o, hpeak, hheld⟩ := hr.ops table index key p
  have hinstall : p ∈ (tx.heldAfter indexType h.held (.entry table index key)).content.primaryKeys ↔
      (opsOn (.entry table index key) p tx.ops).getLast?.elim
        (p ∈ (h.held (.entry table index key)).content.primaryKeys) (· = .add) := by
    by_cases hk : Slot.entry table index key ∈ tx.slots
    · rw [heldAfter_of_mem hk]
      refine (Transaction.mem_install (hr.sorted _)).trans ?_
      cases (opsOn (.entry table index key) p tx.ops).getLast? with
      | none | some => exact Iff.rfl
    · have hnone : opsOn (.entry table index key) p tx.ops = [] := by
        refine List.filterMap_eq_nil_iff.mpr fun op hop => on_of_ne fun hslot => hk ?_
        exact Transaction.mem_slots.mpr ⟨op, hop, hslot⟩
      rw [heldAfter_of_not_mem hk, hnone]
      exact Iff.rfl
  rw [hinstall]
  cases hlast : (opsOn (.entry table index key) p tx.ops).getLast? with
  | none =>
    refine ⟨o, peak_commit_of_forall_ne hpeak ?_, hheld⟩
    exact Transaction.ne_of_opsOn_eq_nil htx (hr.plain_heldAfter tx)
      (List.getLast?_eq_none_iff.mp hlast)
  | some last =>
    obtain ⟨op, hop, hon⟩ := List.mem_filterMap.mp (List.mem_of_getLast? hlast)
    have hk : Slot.entry table index key ∈ tx.slots :=
      Transaction.mem_slots.mpr ⟨op, hop, slot_of_on hon⟩
    by_cases hp : p = []
    · -- an empty primary key is only ever removed, and never logged
      subst hp
      have hremove : last ≠ .add := by
        rintro rfl
        cases op with
        | row => cases hon
        | entry table' index' key' primaryKey isDelete =>
          simp only [WriteOp.on] at hon
          split at hon
          · rename_i heq
            obtain ⟨hslot, rfl⟩ := heq
            cases hslot
            cases isDelete
            · exact htx.keyed _ _ _ hop
            · cases hon
          · cases hon
      refine ⟨o, peak_commit_of_forall_ne hpeak fun e he hkey => ?_, ?_⟩
      · obtain ⟨-, -, hp, -⟩ := hr.mem_ops_record htx he
        exact hp (by rw [hkey])
      · refine ⟨fun h => absurd h hremove, ?_⟩
        rintro ⟨e, rfl, -⟩
        obtain ⟨hkey, b, hb, he⟩ := hpeak.mem
        obtain ⟨r, hmem, rfl⟩ := List.mem_map.mp hb
        exact absurd (by rw [hkey]) (hr.typed r hmem e he).2.1
    · refine ⟨some _, peak_commit_of_newest (fun r hnil => by rw [LogRecord.ops, hnil]; rfl)
        (Transaction.newest_ops htx (hr.plain_heldAfter tx) hp hlast)
          fun r hmem e he hkey => ?_, ?_⟩
      · have hpast := hr.opsOvertaken r hmem e he
        rw [hkey] at hpast
        exact hr.lt_heldAfter hroom hlag hepoch hk hpast
      · rcases opsOn_add_or_remove (List.mem_of_getLast? hlast) with rfl | rfl
        · simp
        · simp [SecondaryIndexOp.raw]

end Committing

/-- **One step.** -/
theorem step (hr : Reflects indexType h) (hfollowed : Followed h a)
    (hstep : h.step indexType a = some h') : Reflects indexType h' := by
  have hpast : ∀ {k v}, Overtaken h k v → Overtaken h' k v := fun hv =>
    hv.step hr.unlocked hfollowed hstep
  rcases History.step_cases hstep with ⟨epoch, rfl, hlt, rfl⟩ | ⟨tx, rfl, hlag, hepoch, rfl⟩ |
    ⟨k, rfl, hdead, hold, rfl⟩
  · exact { hr with
      rowsOvertaken := fun r hmem e he => hpast (hr.rowsOvertaken r hmem e he)
      opsOvertaken := fun r hmem e he => hpast (hr.opsOvertaken r hmem e he) }
  · obtain ⟨htx, hroom⟩ := hfollowed
    refine ⟨fun k => ?_, hr.sorted_heldAfter tx, hr.plain_heldAfter tx, fun r hmem e he => ?_,
      fun r hmem e he => ?_, fun r hmem e he => ?_, hr.rows_commit htx hroom hlag hepoch,
      hr.ops_commit htx hroom hlag hepoch⟩
    · show (tx.heldAfter indexType h.held k).word.isLocked = false
      by_cases hk : k ∈ tx.slots
      · rw [heldAfter_of_mem hk]
        exact TransactionId.isLocked_next (TransactionId.isLocked_locked _) _
      · rw [heldAfter_of_not_mem hk]
        exact hr.unlocked k
    · rcases mem_log_commit hmem with hmem | rfl
      · exact hr.typed r hmem e he
      · obtain ⟨hk, -, hp, htype, -⟩ := hr.mem_ops_record htx he
        exact ⟨htx.named_of_mem hk, hp, htype⟩
    · rcases mem_log_commit hmem with hmem | rfl
      · exact hpast (hr.rowsOvertaken r hmem e he)
      · obtain ⟨table, key, -, rfl⟩ := hr.mem_rows_record htx he
        exact .inl le_rfl
    · rcases mem_log_commit hmem with hmem | rfl
      · exact hpast (hr.opsOvertaken r hmem e he)
      · obtain ⟨-, hversion, -⟩ := hr.mem_ops_record htx he
        exact .inl (le_of_eq hversion)
  · -- a purged slot was empty already
    refine ⟨fun k' => ?_, fun k' => ?_, fun table key => ?_, hr.typed,
      fun r hmem e he => hpast (hr.rowsOvertaken r hmem e he),
      fun r hmem e he => hpast (hr.opsOvertaken r hmem e he), fun table key => ?_,
      fun table index key p => ?_⟩
    · dsimp only
      rw [update_apply]
      split_ifs with hk
      · exact TransactionId.isLocked_empty
      · exact hr.unlocked k'
    · dsimp only
      rw [update_apply]
      split_ifs with hk
      · exact List.Pairwise.nil
      · exact hr.sorted k'
    · dsimp only
      rw [update_apply]
      split_ifs with hk
      · rfl
      · exact hr.plain table key
    · obtain ⟨o, hpeak, hshown⟩ := hr.rows table key
      refine ⟨o, hpeak, ?_⟩
      dsimp only
      rw [update_apply]
      split_ifs with hk
      · subst hk
        have hempty : (h.held (.row table key)).content.buffer = [] := by
          simpa [Content.initializedAt, Content.isPrimaryInitialized] using hdead
        exact ⟨fun hne => absurd rfl hne, fun _ => hshown.2 hempty⟩
      · exact hshown
    · obtain ⟨o, hpeak, hheld⟩ := hr.ops table index key p
      refine ⟨o, hpeak, ?_⟩
      dsimp only
      rw [update_apply]
      split_ifs with hk
      · subst hk
        have hempty : (h.held (.entry table index key)).content.buffer = [] ∧
            (h.held (.entry table index key)).content.primaryKeys = [] := by
          simpa [Content.initializedAt, Content.isInitialized] using hdead
        rw [← hheld, hempty.2]
        exact Iff.rfl
      · exact hheld

/-- **Every history.** -/
theorem run {steps : List HistoryStep}
    (hfollowed : Along (History.step indexType) Followed .start steps)
    (hrun : Transition.run (History.step indexType) .start steps = some h) : Reflects indexType h :=
  hfollowed.invariant (fun hr hf hstep => hr.step hf hstep) (.start indexType) hrun

end Reflects

end Steps

end LineairDB.Recovery
