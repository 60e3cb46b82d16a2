import Mathlib.Data.List.Destutter
import LineairDB.Library.NewestWins
import LineairDB.Recovery.Frame
import LineairDB.Silo.Word

/-!
# What the log says, and the write set it is folded into

A committed write set is persisted as one log record. Recovery folds the
records of a checkpoint image and of the log behind it into one write set again:
the newest version of every row, and the primary keys of every secondary entry,
regrouped from one operation per primary key.

* `folded_foldRecords` — the rows are a table in which the newest version wins,
  whichever way the vector and the hash table beside it are filled.
* `recovered_rows_newest` — what recovery makes of the rows, for every order of
  the records.
-/

namespace LineairDB

/-! ## The order of versions -/

namespace TransactionId

/-- `TransactionId::operator<` -/
instance : LT TransactionId :=
  ⟨fun a b => if a.epoch = b.epoch then a.tid < b.tid else a.epoch < b.epoch⟩

instance (a b : TransactionId) : Decidable (a < b) :=
  inferInstanceAs (Decidable (if a.epoch = b.epoch then a.tid < b.tid else a.epoch < b.epoch))

theorem lt_iff_val {a b : TransactionId} : a < b ↔ a.val < b.val := by
  have ha := a.tid.toNat_lt
  have hb := b.tid.toNat_lt
  show (if a.epoch = b.epoch then a.tid < b.tid else a.epoch < b.epoch) ↔ _
  unfold val
  split
  · rename_i heq
    rw [heq, UInt32.lt_iff_toNat_lt]
    omega
  · rename_i hne
    have hne' : a.epoch.toNat ≠ b.epoch.toNat := fun h => hne (UInt32.toNat_inj.mp h)
    rw [UInt32.lt_iff_toNat_lt]
    omega

instance : LinearOrder TransactionId where
  le a b := a.val ≤ b.val
  le_refl a := Nat.le_refl a.val
  le_trans _ _ _ := Nat.le_trans
  le_antisymm _ _ hab hba := val_inj (Nat.le_antisymm hab hba)
  le_total a b := Nat.le_total a.val b.val
  lt_iff_le_not_ge a b := by
    rw [lt_iff_val]
    omega
  toDecidableLE a b := inferInstanceAs (Decidable (a.val ≤ b.val))
  toDecidableLT := inferInstance

end TransactionId

namespace Recovery

open ByteFile NewestWins

/-- Bytes compare as unsigned characters, and strings by their first difference. -/
instance linearOrderUInt8 : LinearOrder UInt8 where
  le_refl := UInt8.le_refl
  le_trans _ _ _ := UInt8.le_trans
  le_antisymm _ _ := UInt8.le_antisymm
  le_total := UInt8.le_total
  lt_iff_le_not_ge a b := by
    rw [UInt8.not_le]
    exact ⟨fun h => ⟨UInt8.le_of_lt h, h⟩, fun h => h.2⟩
  toDecidableLE := inferInstance
  toDecidableLT := inferInstance

/-! ## Log records of a write set -/

/-- `SecondaryIndexOp` -/
inductive SecondaryIndexOp where
  | none
  | add
  | remove
  | full
  deriving Repr, DecidableEq

/-- The byte it is logged as. -/
def SecondaryIndexOp.raw : SecondaryIndexOp → UInt8
  | .none => 0
  | .add => 1
  | .remove => 2
  | .full => 3

/-- An operation on one primary key. -/
structure SecondaryIndexDelta where
  primaryKey : Bytes
  op : SecondaryIndexOp
  deriving Repr, DecidableEq

/-- One entry of a write set, as far as the logger reads it. -/
structure Snapshot where
  key : Bytes
  buffer : Bytes
  tid : TransactionId
  tableName : Bytes
  indexName : Bytes
  indexType : UInt32
  primaryKeys : List Bytes
  secondaryIndexDeltas : List SecondaryIndexDelta
  deriving Repr, DecidableEq

/-- What an entry persists: a row as it is, a secondary entry by its deltas. -/
def Snapshot.keyValuePairs (snapshot : Snapshot) : List KeyValuePair :=
  if snapshot.indexName = [] then
    [{ key := snapshot.key
       buffer := snapshot.buffer
       tid := snapshot.tid
       tableName := snapshot.tableName
       indexName := snapshot.indexName
       indexType := snapshot.indexType
       primaryKeys := snapshot.primaryKeys
       secondaryOp := SecondaryIndexOp.none.raw
       secondaryPrimaryKey := [] }]
  else
    snapshot.secondaryIndexDeltas.map fun delta =>
      { key := snapshot.key
        buffer := snapshot.buffer
        tid := snapshot.tid
        tableName := snapshot.tableName
        indexName := snapshot.indexName
        indexType := snapshot.indexType
        primaryKeys := []
        secondaryOp := delta.op.raw
        secondaryPrimaryKey := delta.primaryKey }

/-- The record `Enqueue` builds. -/
def logRecord (ws : List Snapshot) (epoch : EpochNumber) : LogRecord :=
  ⟨epoch, ws.flatMap Snapshot.keyValuePairs⟩

/-! ## Folding records -/

/-- One primary key under one secondary key. -/
structure SecondaryOpKey where
  tableName : Bytes
  indexName : Bytes
  indexType : UInt32
  secondaryKey : Bytes
  primaryKey : Bytes
  deriving Repr, DecidableEq

/-- One secondary entry. -/
structure SecondaryGroupKey where
  tableName : Bytes
  indexName : Bytes
  indexType : UInt32
  secondaryKey : Bytes
  deriving Repr, DecidableEq

/-- What is recovered of it. -/
structure SecondaryGroupValue where
  maxTid : TransactionId
  primaryKeys : List Bytes
  deriving Repr, DecidableEq

/-- `DataItem::Reset`: an empty identifier leaves the one that is there. -/
def Snapshot.reset (s : Snapshot) (buffer : Bytes) (tid : TransactionId) : Snapshot :=
  { s with buffer := buffer, tid := if tid = .empty then s.tid else tid }

/-- What `BuildRecoverySet` keeps while it folds: the rows in the order of their first
appearance, where each of them stands, and the latest operation per primary key. -/
structure RecoveryFold where
  recoverySet : List Snapshot
  primaryPosition : Bytes × Bytes → Option ℕ
  secondaryLatest : List (Entry SecondaryOpKey TransactionId UInt8)

/-- Before the first record. -/
def RecoveryFold.empty : RecoveryFold := ⟨[], fun _ => none, []⟩

/-- Any trace of a secondary index makes a pair a secondary one. -/
def KeyValuePair.isSecondaryIndex (kvp : KeyValuePair) : Bool :=
  kvp.indexName ≠ [] ∨ kvp.secondaryOp ≠ SecondaryIndexOp.none.raw ∨ kvp.primaryKeys ≠ [] ∨
    kvp.secondaryPrimaryKey ≠ [] ∨ kvp.indexType ≠ 0

/-- The key under which an operation is kept. -/
def KeyValuePair.opKey (kvp : KeyValuePair) (primaryKey : Bytes) : SecondaryOpKey :=
  ⟨kvp.tableName, kvp.indexName, kvp.indexType, kvp.key, primaryKey⟩

/-- The operations a secondary pair stands for: a whole entry adds its primary keys, a
delta is one operation unless it names no primary key. -/
def KeyValuePair.secondaryOps (kvp : KeyValuePair) :
    List (Entry SecondaryOpKey TransactionId UInt8) :=
  if kvp.secondaryOp = SecondaryIndexOp.full.raw then
    kvp.primaryKeys.map fun pk => ⟨kvp.opKey pk, kvp.tid, SecondaryIndexOp.add.raw⟩
  else if kvp.secondaryPrimaryKey ≠ [] then
    [⟨kvp.opKey kvp.secondaryPrimaryKey, kvp.tid, kvp.secondaryOp⟩]
  else []

/-- The entry a row is added as. -/
def KeyValuePair.snapshot (kvp : KeyValuePair) : Snapshot :=
  Snapshot.reset ⟨kvp.key, [], .empty, kvp.tableName, kvp.indexName, kvp.indexType, [], []⟩
    kvp.buffer kvp.tid

/-- An entry that is there, once a further version of its row has been seen. -/
def Snapshot.merge (kvp : KeyValuePair) (item : Snapshot) : Snapshot :=
  if item.tid < kvp.tid then
    { item.reset kvp.buffer kvp.tid with
      tableName := kvp.tableName
      indexName := kvp.indexName
      indexType := kvp.indexType }
  else item

namespace RecoveryFold

/-- The operations of a logged entry. -/
def secondary (f : RecoveryFold) (kvp : KeyValuePair) : RecoveryFold :=
  { f with secondaryLatest := kvp.secondaryOps.foldl put f.secondaryLatest }

/-- Fold a row in through the position of its key. -/
def primary (f : RecoveryFold) (kvp : KeyValuePair) : RecoveryFold :=
  match f.primaryPosition (kvp.tableName, kvp.key) with
  | some i => { f with recoverySet := f.recoverySet.modify i (Snapshot.merge kvp) }
  | none =>
    { f with
      recoverySet := f.recoverySet ++ [kvp.snapshot]
      primaryPosition :=
        Function.update f.primaryPosition (kvp.tableName, kvp.key) (some f.recoverySet.length) }

/-- One logged pair. -/
def step (f : RecoveryFold) (kvp : KeyValuePair) : RecoveryFold :=
  if kvp.isSecondaryIndex then f.secondary kvp else f.primary kvp

end RecoveryFold

/-! ## Regrouping -/

/-- An order in which a hash table is walked: any. -/
structure HashOrder (α : Type) where
  order : List α → List α
  perm : ∀ l, (order l).Perm l

/-- The order of insertion. -/
def HashOrder.insertion (α : Type) : HashOrder α := ⟨id, fun _ => List.Perm.refl _⟩

/-- `grouped_secondary[group_key]` with one more primary key. -/
def addToGroup (key : SecondaryGroupKey) (primaryKey : Bytes) (tid : TransactionId) :
    List (SecondaryGroupKey × SecondaryGroupValue) → List (SecondaryGroupKey × SecondaryGroupValue)
  | [] => [(key, ⟨if TransactionId.empty < tid then tid else .empty, [primaryKey]⟩)]
  | (k, entry) :: rest =>
    if k = key then
      (k, ⟨if entry.maxTid < tid then tid else entry.maxTid, entry.primaryKeys ++ [primaryKey]⟩)
        :: rest
    else (k, entry) :: addToGroup key primaryKey tid rest

/-- The entry an operation belongs to. -/
def SecondaryOpKey.group (key : SecondaryOpKey) : SecondaryGroupKey :=
  ⟨key.tableName, key.indexName, key.indexType, key.secondaryKey⟩

/-- An operation joins its entry, if it is an `Add`. -/
def groupOp (groups : List (SecondaryGroupKey × SecondaryGroupValue))
    (e : Entry SecondaryOpKey TransactionId UInt8) :
    List (SecondaryGroupKey × SecondaryGroupValue) :=
  if e.value ≠ SecondaryIndexOp.add.raw then groups
  else addToGroup e.key.group e.key.primaryKey e.version groups

/-- `std::sort` and `std::unique` -/
def sortUnique (keys : List Bytes) : List Bytes :=
  (keys.insertionSort (· ≤ ·)).destutter (· ≠ ·)

/-- The entry a group is recovered as. -/
def groupSnapshot (group : SecondaryGroupKey × SecondaryGroupValue) : Option Snapshot :=
  if group.2.primaryKeys = [] then none
  else
    let snapshot : Snapshot :=
      ⟨group.1.secondaryKey, [], .empty, group.1.tableName, group.1.indexName,
        group.1.indexType, sortUnique group.2.primaryKeys, []⟩
    some (snapshot.reset [] group.2.maxTid)

/-- Fold the records of an image and of the log behind it. -/
def foldRecords (image tail : LogRecords) : RecoveryFold :=
  (image ++ tail).foldl (fun f record => record.keyValuePairs.foldl RecoveryFold.step f) .empty

/-- The write set the database replays. -/
def buildRecoverySet (ops : HashOrder (Entry SecondaryOpKey TransactionId UInt8))
    (groups : HashOrder (SecondaryGroupKey × SecondaryGroupValue)) (image tail : LogRecords) :
    List Snapshot :=
  let f := foldRecords image tail
  f.recoverySet ++
    (groups.order ((ops.order f.secondaryLatest).foldl groupOp [])).filterMap groupSnapshot

/-! ## Live rows -/

/-- What `Recovery` asks of an entry before it installs it. -/
def Snapshot.live (s : Snapshot) : Bool :=
  if s.indexName = [] then s.buffer ≠ [] else s.buffer ≠ [] ∨ s.primaryKeys ≠ []

/-- The entries recovery installs into primary indexes. -/
def recoveredRows (recoverySet : List Snapshot) : List Snapshot :=
  recoverySet.filter fun s => s.live ∧ s.indexName = []

/-- The entries recovery installs into secondary indexes. -/
def recoveredEntries (recoverySet : List Snapshot) : List Snapshot :=
  recoverySet.filter fun s => s.live ∧ s.indexName ≠ []

/-! ## The fold is a table of rows -/

/-- The pairs of records, in order. -/
def recordPairs (records : LogRecords) : List KeyValuePair := records.flatMap (·.keyValuePairs)

/-- A pair as a version of a row. -/
def KeyValuePair.row (kvp : KeyValuePair) : Entry (Bytes × Bytes) TransactionId Bytes :=
  ⟨(kvp.tableName, kvp.key), kvp.tid, kvp.buffer⟩

/-- The row of a snapshot. -/
def Snapshot.row (s : Snapshot) : Entry (Bytes × Bytes) TransactionId Bytes :=
  ⟨(s.tableName, s.key), s.tid, s.buffer⟩

/-- The row versions among the pairs. -/
def rowPairs (pairs : List KeyValuePair) : List KeyValuePair :=
  pairs.filter fun kvp => !kvp.isSecondaryIndex

theorem Snapshot.reset_tid (s : Snapshot) (buffer : Bytes) {tid : TransactionId}
    (h : s.tid < tid ∨ s.tid = .empty) : (s.reset buffer tid).tid = tid := by
  unfold reset
  split
  · rename_i hempty
    rcases h with h | h
    · rw [hempty, TransactionId.lt_iff_val] at h
      exact absurd h (by simp [TransactionId.val, TransactionId.empty])
    · rw [h, hempty]
  · rfl

@[simp] theorem KeyValuePair.row_snapshot (kvp : KeyValuePair) : kvp.snapshot.row = kvp.row := by
  show Entry.mk _ kvp.snapshot.tid kvp.buffer = Entry.mk _ kvp.tid kvp.buffer
  rw [snapshot, Snapshot.reset_tid _ _ (.inr rfl)]
  rfl

/-- Merging is what the table does with the row. -/
theorem Snapshot.row_merge {kvp : KeyValuePair} {s : Snapshot} (hkey : s.row.key = kvp.row.key) :
    (s.merge kvp).row = if s.row.version < kvp.row.version then kvp.row else s.row := by
  have hkey : s.key = kvp.key := congrArg Prod.snd hkey
  unfold merge
  by_cases hlt : s.tid < kvp.tid
  · have hlt' : s.row.version < kvp.row.version := hlt
    rw [if_pos hlt, if_pos hlt']
    show Entry.mk (kvp.tableName, s.key) (s.reset kvp.buffer kvp.tid).tid kvp.buffer = kvp.row
    rw [s.reset_tid kvp.buffer (.inl hlt), hkey]
    rfl
  · have hlt' : ¬ s.row.version < kvp.row.version := hlt
    rw [if_neg hlt, if_neg hlt']

/-- A pair without a trace of an index has no index name. -/
theorem indexName_of_row {kvp : KeyValuePair} (h : kvp.isSecondaryIndex = false) :
    kvp.indexName = [] := by
  simp only [KeyValuePair.isSecondaryIndex, decide_eq_false_iff_not, not_or, not_not] at h
  exact h.1

/-- The rows of a fold, and their keys. -/
def RecoveryFold.rows (f : RecoveryFold) : List (Entry (Bytes × Bytes) TransactionId Bytes) :=
  f.recoverySet.map Snapshot.row

/-- What the fold has made of the pairs so far. -/
structure Folded (f : RecoveryFold) (pairs : List KeyValuePair) : Prop where
  rows : f.rows = ((rowPairs pairs).map KeyValuePair.row).foldl put []
  position : ∀ k i, f.primaryPosition k = some i ↔ (f.rows.map Entry.key)[i]? = some k
  plain : ∀ s ∈ f.recoverySet, s.indexName = []
  ops : f.secondaryLatest
    = ((pairs.filter KeyValuePair.isSecondaryIndex).flatMap KeyValuePair.secondaryOps).foldl put []

namespace Folded

variable {f : RecoveryFold} {pairs : List KeyValuePair} {kvp : KeyValuePair}

theorem empty : Folded .empty [] where
  rows := rfl
  position := by simp [RecoveryFold.empty, RecoveryFold.rows]
  plain := by simp [RecoveryFold.empty]
  ops := rfl

section

variable (h : Folded f pairs)

include h

/-- The rows so far have one entry per key. -/
theorem nodup : (f.rows.map Entry.key).Nodup := by
  rw [h.rows]
  exact nodup_keys_foldl_put _ (by simp)

/-- A row that is there already is merged with. -/
theorem rows_merge {i : ℕ} (hpos : f.primaryPosition (kvp.tableName, kvp.key) = some i) :
    (f.recoverySet.modify i (Snapshot.merge kvp)).map Snapshot.row = put f.rows kvp.row := by
  have hkey := (h.position _ i).mp hpos
  rw [RecoveryFold.rows, List.getElem?_map, List.getElem?_map, Option.map_map] at hkey
  obtain ⟨item, hitem, hkey⟩ := Option.map_eq_some_iff.mp hkey
  have hkey : item.row.key = kvp.row.key := hkey
  have hrow : f.rows[i]? = some item.row := by
    rw [RecoveryFold.rows, List.getElem?_map, hitem]
    rfl
  rw [put_eq_modify h.nodup hrow hkey]
  apply List.ext_getElem?
  intro n
  rw [List.getElem?_map, List.getElem?_modify, List.getElem?_modify, RecoveryFold.rows,
    List.getElem?_map]
  by_cases hn : i = n
  · subst hn
    rw [hitem]
    simp [Snapshot.row_merge hkey]
  · simp [hn]

/-- A row that is not there is added. -/
theorem rows_push (hpos : f.primaryPosition (kvp.tableName, kvp.key) = none) :
    (f.recoverySet ++ [kvp.snapshot]).map Snapshot.row = put f.rows kvp.row := by
  rw [put_of_not_mem, List.map_append, List.map_singleton, KeyValuePair.row_snapshot]
  · rfl
  · intro hmem
    obtain ⟨i, hi⟩ := List.mem_iff_getElem?.mp hmem
    have hsome := (h.position _ i).mpr hi
    rw [show kvp.row.key = (kvp.tableName, kvp.key) from rfl, hpos] at hsome
    cases hsome

omit h in
theorem rowPairs_concat (hkvp : kvp.isSecondaryIndex = false) :
    (rowPairs (pairs ++ [kvp])).map KeyValuePair.row
      = (rowPairs pairs).map KeyValuePair.row ++ [kvp.row] := by
  simp [rowPairs, hkvp]

theorem primary (hkvp : kvp.isSecondaryIndex = false) :
    Folded (f.primary kvp) (pairs ++ [kvp]) := by
  have hops : (pairs ++ [kvp]).filter KeyValuePair.isSecondaryIndex
      = pairs.filter KeyValuePair.isSecondaryIndex := by
    simp [hkvp]
  unfold RecoveryFold.primary
  cases hpos : f.primaryPosition (kvp.tableName, kvp.key) with
  | some i =>
    have hrows := h.rows_merge hpos
    have hkeys : (put f.rows kvp.row).map Entry.key = f.rows.map Entry.key :=
      keys_put_of_mem (List.mem_of_getElem? ((h.position _ i).mp hpos))
    refine ⟨?_, fun k j => ?_, fun s hs => ?_, ?_⟩
    · rw [rowPairs_concat hkvp, List.foldl_append, ← h.rows]
      exact hrows
    · rw [RecoveryFold.rows, hrows, hkeys]
      exact h.position k j
    · obtain ⟨n, hn⟩ := List.mem_iff_getElem?.mp hs
      rw [List.getElem?_modify] at hn
      obtain ⟨s₀, hs₀, rfl⟩ := Option.map_eq_some_iff.mp hn
      have hplain := h.plain s₀ (List.mem_of_getElem? hs₀)
      split
      · unfold Snapshot.merge
        split
        · exact indexName_of_row hkvp
        · exact hplain
      · exact hplain
    · rw [hops]
      exact h.ops
  | none =>
    have hrows := h.rows_push hpos
    have hlen : (f.rows.map Entry.key).length = f.recoverySet.length := by
      simp [RecoveryFold.rows]
    have hpush : (RecoveryFold.rows ⟨f.recoverySet ++ [kvp.snapshot], f.primaryPosition,
        f.secondaryLatest⟩).map Entry.key = f.rows.map Entry.key ++ [kvp.row.key] := by
      simp [RecoveryFold.rows]
    refine ⟨?_, fun k j => ?_, fun s hs => ?_, ?_⟩
    · rw [rowPairs_concat hkvp, List.foldl_append, ← h.rows]
      exact hrows
    · show Function.update f.primaryPosition (kvp.tableName, kvp.key) _ k = some j ↔
        (RecoveryFold.rows ⟨f.recoverySet ++ [kvp.snapshot], f.primaryPosition,
          f.secondaryLatest⟩ |>.map Entry.key)[j]? = some k
      rw [hpush, List.getElem?_append, hlen]
      by_cases hk : k = (kvp.tableName, kvp.key)
      · subst hk
        rw [Function.update_self]
        by_cases hj : j < f.recoverySet.length
        · rw [if_pos hj, ← h.position, hpos]
          simp
          omega
        · rw [if_neg hj]
          constructor
          · rintro ⟨⟩
            rw [Nat.sub_self]
            rfl
          · intro hget
            have hzero : j - f.recoverySet.length < 1 := (List.getElem?_eq_some_iff.mp hget).1
            rw [show f.recoverySet.length = j by omega]
      · rw [Function.update_of_ne hk]
        by_cases hj : j < f.recoverySet.length
        · rw [if_pos hj]
          exact h.position k j
        · rw [if_neg hj, h.position, List.getElem?_eq_none (by omega)]
          constructor
          · intro hnone
            cases hnone
          · intro hget
            have hmem := List.mem_of_getElem? hget
            exact absurd (List.mem_singleton.mp hmem) hk
    · rcases mem_concat.mp hs with hs | rfl
      · exact h.plain s hs
      · exact indexName_of_row hkvp
    · rw [hops]
      exact h.ops

theorem secondary (hkvp : kvp.isSecondaryIndex = true) :
    Folded (f.secondary kvp) (pairs ++ [kvp]) := by
  have hrows : rowPairs (pairs ++ [kvp]) = rowPairs pairs := by
    simp [rowPairs, hkvp]
  refine ⟨?_, h.position, h.plain, ?_⟩
  · rw [hrows]
    exact h.rows
  · rw [List.filter_append, List.filter_singleton, hkvp, List.flatMap_append, List.foldl_append,
      ← h.ops]
    simp [RecoveryFold.secondary]

/-- **One pair.** -/
theorem step (kvp : KeyValuePair) : Folded (f.step kvp) (pairs ++ [kvp]) := by
  unfold RecoveryFold.step
  split
  · rename_i hkvp
    exact h.secondary hkvp
  · rename_i hkvp
    exact h.primary (by simpa using hkvp)

theorem foldl (more : List KeyValuePair) :
    Folded (more.foldl RecoveryFold.step f) (pairs ++ more) := by
  induction more generalizing f pairs with
  | nil => simpa using h
  | cons kvp more ih => simpa using ih (h.step kvp)

end

end Folded

/-- **All records.** -/
theorem folded_foldRecords (image tail : LogRecords) :
    Folded (foldRecords image tail) (recordPairs (image ++ tail)) := by
  have hflat : foldRecords image tail
      = (recordPairs (image ++ tail)).foldl RecoveryFold.step .empty := by
    rw [foldRecords, recordPairs, List.foldl_flatMap]
  rw [hflat]
  simpa using Folded.empty.foldl (recordPairs (image ++ tail))

/-! ## What recovery makes of the rows -/

/-- No regrouped entry is taken for a row. -/
theorem groupSnapshot_not_row {group : SecondaryGroupKey × SecondaryGroupValue} {s : Snapshot}
    (h : groupSnapshot group = some s) : ¬ (s.live = true ∧ s.indexName = []) := by
  unfold groupSnapshot at h
  split at h
  · cases h
  · cases h
    rintro ⟨hlive, hname⟩
    rw [Snapshot.live, if_pos hname] at hlive
    simp [Snapshot.reset] at hlive

theorem recoveredRows_buildRecoverySet (ops : HashOrder (Entry SecondaryOpKey TransactionId UInt8))
    (groups : HashOrder (SecondaryGroupKey × SecondaryGroupValue)) (image tail : LogRecords) :
    recoveredRows (buildRecoverySet ops groups image tail)
      = (foldRecords image tail).recoverySet.filter fun s => s.buffer ≠ [] := by
  have hgroups : ∀ l : List (SecondaryGroupKey × SecondaryGroupValue),
      (l.filterMap groupSnapshot).filter (fun s => s.live ∧ s.indexName = []) = [] := by
    intro l
    rw [List.filter_eq_nil_iff]
    intro s hs
    obtain ⟨group, -, hgroup⟩ := List.mem_filterMap.mp hs
    simpa using groupSnapshot_not_row hgroup
  rw [recoveredRows, buildRecoverySet, List.filter_append, hgroups, List.append_nil]
  refine List.filter_congr fun s hs => ?_
  have hname := (folded_foldRecords image tail).plain s hs
  simp [Snapshot.live, hname]

/-- The rows recovery installs are the live ones of the table. -/
theorem mem_recoveredRows {ops : HashOrder (Entry SecondaryOpKey TransactionId UInt8)}
    {groups : HashOrder (SecondaryGroupKey × SecondaryGroupValue)} {image tail : LogRecords}
    {x : Entry (Bytes × Bytes) TransactionId Bytes} :
    (∃ s ∈ recoveredRows (buildRecoverySet ops groups image tail), s.row = x) ↔
      x.value ≠ [] ∧
        newest x.key ((rowPairs (recordPairs (image ++ tail))).map KeyValuePair.row) = some x := by
  rw [recoveredRows_buildRecoverySet, ← mem_foldl_put_iff, ← (folded_foldRecords image tail).rows,
    RecoveryFold.rows, List.mem_map]
  constructor
  · rintro ⟨s, hs, rfl⟩
    obtain ⟨hs, hlive⟩ := List.mem_filter.mp hs
    exact ⟨by simpa [Snapshot.row] using hlive, s, hs, rfl⟩
  · rintro ⟨hlive, s, hs, rfl⟩
    exact ⟨s, List.mem_filter.mpr ⟨hs, by simpa [Snapshot.row] using hlive⟩, rfl⟩

/-- **The newest version of every row.** In whatever order the versions are logged and
however they are split between image and log, recovery installs, for every row, the
value of its greatest version with that version's identifier, unless that value is
empty; every row at most once; and no locked identifier if none was logged. -/
theorem recovered_rows_newest (ops : HashOrder (Entry SecondaryOpKey TransactionId UInt8))
    (groups : HashOrder (SecondaryGroupKey × SecondaryGroupValue)) (image tail : LogRecords)
    (pairs : List KeyValuePair) (hperm : (recordPairs (image ++ tail)).Perm pairs)
    (hagree : ∀ a ∈ rowPairs pairs, ∀ b ∈ rowPairs pairs, a.tableName = b.tableName →
      a.key = b.key → a.tid = b.tid → a.buffer = b.buffer) :
    (∀ table key value tid,
      (∃ s ∈ recoveredRows (buildRecoverySet ops groups image tail),
        s.tableName = table ∧ s.key = key ∧ s.buffer = value ∧ s.tid = tid) ↔
      value ≠ [] ∧ ∃ e ∈ rowPairs pairs,
        e.tableName = table ∧ e.key = key ∧ e.buffer = value ∧ e.tid = tid ∧
        ∀ e' ∈ rowPairs pairs, e'.tableName = table → e'.key = key → e'.tid ≤ tid) ∧
    ((recoveredRows (buildRecoverySet ops groups image tail)).map
      fun s => (s.tableName, s.key)).Nodup ∧
    ((∀ e ∈ rowPairs pairs, e.tid.isLocked = false) →
      ∀ s ∈ recoveredRows (buildRecoverySet ops groups image tail), s.tid.isLocked = false) := by
  have hrows : ((rowPairs (recordPairs (image ++ tail))).map KeyValuePair.row).Perm
      ((rowPairs pairs).map KeyValuePair.row) := (hperm.filter _).map _
  have hcons : Consistent ((rowPairs pairs).map KeyValuePair.row) := by
    intro x hx y hy hkey hver
    obtain ⟨a, ha, rfl⟩ := List.mem_map.mp hx
    obtain ⟨b, hb, rfl⟩ := List.mem_map.mp hy
    have hvalue : a.buffer = b.buffer :=
      hagree a ha b hb (congrArg Prod.fst hkey) (congrArg Prod.snd hkey) hver
    show Entry.mk _ _ _ = Entry.mk _ _ _
    rw [hvalue]
    exact congrArg₂ (fun k v => Entry.mk k v b.buffer) hkey hver
  have hnewest : ∀ k, newest k ((rowPairs (recordPairs (image ++ tail))).map KeyValuePair.row)
      = newest k ((rowPairs pairs).map KeyValuePair.row) :=
    newest_perm (hcons.perm hrows.symm) hrows
  refine ⟨fun table key value tid => ?_, ?_, fun heven s hs => ?_⟩
  · have hrow : (∃ s ∈ recoveredRows (buildRecoverySet ops groups image tail),
          s.tableName = table ∧ s.key = key ∧ s.buffer = value ∧ s.tid = tid) ↔
        ∃ s ∈ recoveredRows (buildRecoverySet ops groups image tail),
          s.row = ⟨(table, key), tid, value⟩ := by
      refine exists_congr fun s => and_congr_right fun _ => ?_
      rw [Snapshot.row, Entry.mk.injEq, Prod.mk.injEq]
      tauto
    rw [hrow, mem_recoveredRows, hnewest]
    refine and_congr_right fun _ => ?_
    constructor
    · intro hsome
      obtain ⟨-, hx⟩ := isNewest_of_newest hsome
      obtain ⟨e, he, heq⟩ := List.mem_map.mp hx.mem
      obtain ⟨hkey, htid, hvalue⟩ := Entry.mk.inj heq
      obtain ⟨htable, hkey⟩ := Prod.mk.inj hkey
      refine ⟨e, he, htable, hkey, hvalue, htid, fun e' he' htable' hkey' => ?_⟩
      have hmem : e'.row ∈ (rowPairs pairs).map KeyValuePair.row := List.mem_map_of_mem he'
      have hsame : e'.row.key = (table, key) := Prod.ext htable' hkey'
      have hle := hx.le hmem hsame
      exact hle
    · rintro ⟨e, he, rfl, rfl, rfl, rfl, hle⟩
      refine newest_of_forall_le hcons (List.mem_map_of_mem he) rfl fun x hx hkey => ?_
      obtain ⟨e', he', rfl⟩ := List.mem_map.mp hx
      exact hle e' he' (congrArg Prod.fst hkey) (congrArg Prod.snd hkey)
  · rw [recoveredRows_buildRecoverySet]
    have hnodup := (folded_foldRecords image tail).nodup
    rw [RecoveryFold.rows, List.map_map] at hnodup
    exact hnodup.sublist ((List.filter_sublist).map _)
  · obtain ⟨-, hsome⟩ := mem_recoveredRows.mp ⟨s, hs, rfl⟩
    rw [hnewest] at hsome
    obtain ⟨e, he, heq⟩ := List.mem_map.mp (isNewest_of_newest hsome).2.mem
    have htid : e.tid = s.tid := congrArg Entry.version heq
    rw [← htid]
    exact heven e he

/-- A row that was written, deleted and written again, and one that was deleted last. -/
def rewrittenImage : LogRecords :=
  [⟨2, [⟨[0x6b], [0x76], ⟨2, 2⟩, [0x74], [], 0, [], 0, []⟩]⟩]

/-- A row rewritten after its deletion, and one deleted. -/
def rewrittenTail : LogRecords :=
  [⟨4, [⟨[0x6b], [0x77], ⟨4, 2⟩, [0x74], [], 0, [], 0, []⟩]⟩,
    ⟨3, [⟨[0x6b], [], ⟨3, 2⟩, [0x74], [], 0, [], 0, []⟩,
      ⟨[0x6c], [], ⟨3, 2⟩, [0x74], [], 0, [], 0, []⟩]⟩,
    ⟨1, [⟨[0x6c], [0x78], ⟨1, 2⟩, [0x74], [], 0, [], 0, []⟩]⟩]

/-- The versions arrive out of order, and the greatest one is recovered. -/
theorem recovered_rows_newest_rewritten :
    ∃ s ∈ recoveredRows
      (buildRecoverySet (.insertion _) (.insertion _) rewrittenImage rewrittenTail),
      s.tableName = [0x74] ∧ s.key = [0x6b] ∧ s.buffer = [0x77] ∧ s.tid = ⟨4, 2⟩ := by
  have hagree : ∀ a ∈ rowPairs (recordPairs (rewrittenImage ++ rewrittenTail)),
      ∀ b ∈ rowPairs (recordPairs (rewrittenImage ++ rewrittenTail)), a.tableName = b.tableName →
        a.key = b.key → a.tid = b.tid → a.buffer = b.buffer := by decide
  have hrows := (recovered_rows_newest (.insertion _) (.insertion _) rewrittenImage rewrittenTail
    (recordPairs (rewrittenImage ++ rewrittenTail)) (List.Perm.refl _) hagree).1 [0x74] [0x6b]
    [0x77] ⟨4, 2⟩
  exact hrows.mpr (by decide)

end Recovery

end LineairDB
