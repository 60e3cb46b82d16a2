import LineairDB.Precision.Range
import LineairDB.Recovery.History

/-!
# Transactions on the precision-locking backend

One index of a database: the hash table with its entries, the range index beside it,
and the transactions that work on them under Silo. An operation of a transaction is a
step, and so is its commit, whose locks keep everybody else out; what a scan has come
across the transaction reads in steps of their own. The version word of an entry is
different for every version: here it is the number of versions published.

Beside what the program keeps, a write remembers the last event it has queued for its
key, a scan how many versions each key had, and the state all published versions. No
step depends on them.
-/

namespace LineairDB.Precision

open ByteFile Silo
open Durability (kEpochHighWater)
open Recovery (SecondaryIndexOp SecondaryIndexDelta recordSecondaryIndexDelta
  applySecondaryIndexDelta)

/-! ## The hash table and the range index -/

/-- The answers of `GetEntryState`. -/
inductive EntryState where
  | present
  | notExists
  | deleted
  | inconsistent
  deriving Repr, DecidableEq

/-- `PrecisionLockingIndex`: a hash table and a range index. -/
structure Index where
  point : Bytes → Option Content
  range : RangeIndex

namespace Index

/-- The index of a new table. -/
def empty : Index := ⟨fun _ => none, .empty⟩

/-- `point_index_.Put` of a blank entry, which fails where there is one. -/
def putBlank (ix : Index) (key : Bytes) : Index :=
  { ix with point := Function.update ix.point key (some ((ix.point key).getD .blank)) }

/-- Whether there is an entry, from both sides. -/
def getEntryState (ix : Index) (key : Bytes) : EntryState :=
  let inPoint := (ix.point key).isSome
  let inRange := ix.range.contains key
  let deleted := (ix.point key).any fun c => !c.isInitialized
  if inRange && inPoint && !deleted then .present
  else if !inRange && !inPoint then .notExists
  else if deleted then .deleted
  else .inconsistent

/-- Whether the range index has gone along. -/
def withRange (ix : Index) : Option RangeIndex → Bool × Index
  | some range => (true, { ix with range := range })
  | none => (false, ix)

/-- `Insert`, which refuses a key that is present. -/
def insert (ix : Index) (epoch : EpochNumber) (txContext : ℕ) (key : Bytes) : Bool × Index :=
  match ix.getEntryState key with
  | .present => (false, ix)
  | .notExists => (ix.putBlank key).withRange (ix.range.insert epoch txContext key)
  | .deleted => ix.withRange (ix.range.insert epoch txContext key)
  | .inconsistent => (false, ix)

/-- A blank entry, shown without a look at the predicates. -/
def forcePutBlankEntry (ix : Index) (epoch : EpochNumber) (txContext : ℕ) (key : Bytes) : Index :=
  { ix.putBlank key with range := ix.range.forceInsert epoch txContext key }

/-- The entry is shown again, or made. -/
def ensureVisibleForSecondaryWrite (ix : Index) (epoch : EpochNumber) (txContext : ℕ)
    (key : Bytes) : Bool × Index :=
  match ix.point key with
  | none =>
    if ix.range.contains key then (true, ix.putBlank key)
    else (ix.putBlank key).withRange (ix.range.insert epoch txContext key)
  | some c =>
    if !c.isInitialized || !ix.range.contains key then
      ix.withRange (ix.range.insert epoch txContext key)
    else (true, ix)

/-- The key leaves the range index only. -/
def delete (ix : Index) (epoch : EpochNumber) (txContext : ℕ) (key : Bytes) : Bool × Index :=
  ix.withRange (ix.range.delete epoch txContext key)

/-- `GetOrInsert` -/
def getOrInsert (ix : Index) (epoch : EpochNumber) (txContext : ℕ) (key : Bytes) : Index :=
  if ix.point key = none then ix.forcePutBlankEntry epoch txContext key else ix

/-- `GetOrInsertForWrite` of a secondary index. -/
def getOrInsertForWrite (ix : Index) (epoch : EpochNumber) (txContext : ℕ) (key : Bytes) :
    Bool × Index :=
  if (ix.point key).all fun c => c.primaryKeys.isEmpty then
    ix.ensureVisibleForSecondaryWrite epoch txContext key
  else (true, ix)

end Index

/-! ## Transactions -/

/-- Which operations an index has. -/
inductive IndexKind where
  | primary
  | secondary (unique : Bool)
  deriving Repr, DecidableEq

/-- Where a transaction is. -/
inductive TxStatus where
  | idle
  | running
  | committed
  | aborted
  deriving Repr, DecidableEq

/-- An entry of the write set. -/
structure Staged where
  key : Bytes
  copy : Content
  isInsert : Bool
  deltas : List SecondaryIndexDelta
  /-- The last event queued for the key: whether it was a deletion. -/
  event : Option Bool
  deriving Repr, DecidableEq

/-- What a scan has gone through. -/
structure Scanned where
  beginKey : Bytes
  endKey : Option Bytes
  /-- The keys of the range the container showed. -/
  shown : List Bytes
  /-- The first of them, up to the one the callback cancelled at. -/
  visited : List Bytes
  /-- The keys the transaction had written. -/
  own : List Bytes
  /-- How many versions each key had. -/
  position : Bytes → ℕ

/-- A transaction. What it has read it keeps as it was; the validation set has the keys
whose versions a commit compares, each with the number of versions there were. -/
structure Tx where
  status : TxStatus
  epoch : EpochNumber
  readSet : List (Bytes × Content)
  validationSet : List (Bytes × ℕ)
  writeSet : List Staged
  scans : List Scanned

namespace Staged

/-- Add or remove a primary key, in the copy and in the deltas. -/
def edit (op : SecondaryIndexOp) (primaryKey : Bytes) (w : Staged) : Staged :=
  { w with
    copy := applySecondaryIndexDelta w.copy ⟨primaryKey, op⟩
    deltas := recordSecondaryIndexDelta primaryKey op w.deltas }

/-- Note an event, if there was one. -/
def note (event : Option Bool) (w : Staged) : Staged :=
  { w with event := event <|> w.event }

/-- `IsNonUniqueSecondaryIndexDeltaWrite` -/
abbrev IsDeltaWrite (kind : IndexKind) (w : Staged) : Prop :=
  kind = .secondary false ∧ w.deltas ≠ []

/-- The content with the deltas applied to it. -/
def merge (w : Staged) (current : Content) : Content :=
  w.deltas.foldl applySecondaryIndexDelta current

/-- The copy is made again, from the current content. -/
def refresh (current : Content) (w : Staged) : Staged := { w with copy := w.merge current }

/-- What is installed over the current content: an entry of an index that is not unique
merges its deltas, everything else overwrites. -/
def installed (kind : IndexKind) (w : Staged) (current : Content) : Content :=
  if w.IsDeltaWrite kind then w.merge current else w.copy

end Staged

namespace Tx

/-- A transaction before its start. -/
def idle : Tx := ⟨.idle, 0, [], [], [], []⟩

/-- `Abort` takes nothing back. -/
def abort (tx : Tx) : Tx := { tx with status := .aborted }

/-- `FindInSet`, in the write set. -/
def findWrite (tx : Tx) (key : Bytes) : Option Staged := tx.writeSet.find? fun w => w.key = key

/-- `FindInSet`, in the read set: the copy. -/
def findRead (tx : Tx) (key : Bytes) : Option Content :=
  (tx.readSet.find? fun entry => entry.1 = key).map Prod.snd

/-- A new entry of the write set. -/
def stage (tx : Tx) (w : Staged) : Tx := { tx with writeSet := tx.writeSet ++ [w] }

/-- The entry of a key in the write set is changed. -/
def modify (tx : Tx) (key : Bytes) (f : Staged → Staged) : Tx :=
  { tx with writeSet := tx.writeSet.map fun w => if w.key = key then f w else w }

/-- The entry of a key becomes one of the validation set. Of several, the first is the
one that decides. -/
def register (position : Bytes → ℕ) (tx : Tx) (key : Bytes) : Tx :=
  if tx.validationSet.any fun entry => entry.1 = key then tx
  else { tx with validationSet := tx.validationSet ++ [(key, position key)] }

/-- A copy of an entry goes into the read set. -/
def remember (tx : Tx) (key : Bytes) (copy : Content) : Tx :=
  { tx with readSet := tx.readSet ++ [(key, copy)] }

/-- `RefreshSecondaryIndexWriteSnapshot`: the entry is read again, and what the transaction
has done to it is applied to what it holds now. -/
def refresh (position : Bytes → ℕ) (ix : Index) (tx : Tx) (key : Bytes) : Tx :=
  (tx.register position key).modify key (Staged.refresh ((ix.point key).getD .blank))

/-- `Read` and `ReadSecondaryIndex`. A key without an entry is not found, and nothing is
registered. The rows a scan comes across are read the same way. -/
def read (kind : IndexKind) (position : Bytes → ℕ) (ix : Index) (tx : Tx) (key : Bytes) : Tx :=
  match tx.findWrite key with
  | some own => if own.IsDeltaWrite kind then tx.refresh position ix key else tx
  | none =>
    if (tx.findRead key).isSome then tx
    else
      match ix.point key with
      | none => tx
      | some copy => (tx.register position key).remember key copy

/-- `Scan` and `ScanReverse`, whose callback cancels after `accepted` keys. -/
def scan (position : Bytes → ℕ) (ix : Index) (t : ℕ) (tx : Tx) (beginKey : Bytes)
    (endKey : Option Bytes) (reverse : Bool) (accepted : ℕ) : Index × Tx :=
  match ix.range.scan tx.epoch t beginKey endKey reverse with
  | none => (ix, tx.abort)
  | some (keys, range) =>
    ({ ix with range := range },
      { tx with
        scans := tx.scans ++
          [⟨beginKey, endKey, keys, keys.take accepted, tx.writeSet.map Staged.key, position⟩] })

/-- The scans have returned: what they came across has been read, or written before that. -/
def hasReturned (tx : Tx) : Bool :=
  tx.scans.all fun sc => sc.visited.all fun key =>
    (tx.validationSet.any fun entry => entry.1 = key) || (tx.findWrite key).isSome

/-- `Write`, after an event that has been queued for the key. -/
def write (ix : Index) (t : ℕ) (tx : Tx) (key value : Bytes) (isInsert : Bool)
    (event : Option Bool) : Index × Tx :=
  if (tx.findWrite key).isSome then
    (ix, tx.modify key fun w =>
      Staged.note event
        { w with copy := { w.copy with buffer := value }, isInsert := isInsert || w.isInsert })
  else
    let event := if ix.point key = none then some false else event
    (ix.getOrInsert tx.epoch t key, tx.stage ⟨key, ⟨value, []⟩, isInsert, [], event⟩)

/-- `Insert`: a key the transaction has written is decided by its own copy. -/
def insert (ix : Index) (t : ℕ) (tx : Tx) (key value : Bytes) : Index × Tx :=
  match tx.findWrite key with
  | some own =>
    if own.copy.isPrimaryInitialized then (ix, tx.abort)
    else
      let (visible, ix') := ix.ensureVisibleForSecondaryWrite tx.epoch t key
      if visible then write ix' t tx key value false none else (ix', tx.abort)
  | none =>
    let (inserted, ix') := ix.insert tx.epoch t key
    if inserted then write ix' t tx key value true (some false) else (ix', tx.abort)

/-- `Update` of a row that is there, in the write set or else in the index. -/
def update (ix : Index) (t : ℕ) (tx : Tx) (key value : Bytes) (event : Option Bool) : Index × Tx :=
  match tx.findWrite key with
  | some own =>
    if own.copy.isPrimaryInitialized then write ix t tx key value false event else (ix, tx.abort)
  | none =>
    if (ix.point key).any fun c => c.isPrimaryInitialized then write ix t tx key value false event
    else (ix, tx.abort)

/-- `Delete`: out of the range index, then the row. -/
def delete (ix : Index) (t : ℕ) (tx : Tx) (key : Bytes) : Index × Tx :=
  let (deleted, ix') := ix.delete tx.epoch t key
  if deleted then update ix' t tx key [] (some true) else (ix', tx.abort)

/-- What the copy of a secondary entry starts from: what the transaction has read, or
else `SeedSecondaryIndexForWrite`, which validates only what it reads of a unique entry. -/
def seed (position : Bytes → ℕ) (unique : Bool) (ix : Index) (tx : Tx) (key : Bytes) :
    Content × Tx :=
  match tx.findRead key with
  | some copy => (copy, tx)
  | none =>
    let copy := (ix.point key).getD .blank
    (copy, (if unique then tx.register position key else tx).remember key copy)

/-- Whether an operation of the index has queued an insertion. -/
def insertion (ix ix' : Index) : Option Bool :=
  if ix'.range.insertOrDeleteKeySet.length = ix.range.insertOrDeleteKeySet.length then none
  else some false

/-- `WriteSecondaryIndex` with the entry it has found, for which `event` was queued. -/
def addPrimaryKey (position : Bytes → ℕ) (unique : Bool) (ix : Index) (tx : Tx)
    (key primaryKey : Bytes) (event : Option Bool) : Index × Tx :=
  match tx.findWrite key with
  | some _ =>
    if unique then (ix, tx.abort)
    else (ix, tx.modify key fun w => (w.edit .add primaryKey).note event)
  | none =>
    let (base, tx) := tx.seed position unique ix key
    if unique && base.isInitialized then (ix, tx.abort)
    else (ix, tx.stage (Staged.edit .add primaryKey ⟨key, base, false, [], event⟩))

/-- `WriteSecondaryIndex` -/
def writeSecondaryIndex (position : Bytes → ℕ) (unique : Bool) (ix : Index) (t : ℕ) (tx : Tx)
    (key primaryKey : Bytes) : Index × Tx :=
  let (found, ix') := ix.getOrInsertForWrite tx.epoch t key
  if found then addPrimaryKey position unique ix' tx key primaryKey (insertion ix ix')
  else (ix', tx.abort)

/-- `MaybeDeleteEmptyUniqueSecondaryIndex` -/
def maybeDelete (unique : Bool) (ix : Index) (t : ℕ) (tx : Tx) (key : Bytes) (copy : Content) :
    Index × Tx :=
  if unique && copy.primaryKeys.isEmpty then
    let (deleted, ix') := ix.delete tx.epoch t key
    if deleted then (ix', tx.modify key (Staged.note (some true))) else (ix', tx.abort)
  else (ix, tx)

/-- `DeleteSecondaryIndex`, which makes the entry if there is none. -/
def deleteSecondaryIndex (position : Bytes → ℕ) (unique : Bool) (ix : Index) (t : ℕ) (tx : Tx)
    (key primaryKey : Bytes) : Index × Tx :=
  let ix' := ix.getOrInsert tx.epoch t key
  let event := if ix.point key = none then some false else none
  match tx.findWrite key with
  | some own =>
    let tx := tx.modify key fun w => (w.edit .remove primaryKey).note event
    maybeDelete unique ix' t tx key (own.edit .remove primaryKey).copy
  | none =>
    let (base, tx) := tx.seed position unique ix' key
    let w := Staged.edit .remove primaryKey ⟨key, base, false, [], event⟩
    maybeDelete unique ix' t (tx.stage w) key w.copy

end Tx

/-! ## The system -/

/-- The calls of a transaction. -/
inductive Op where
  | read (key : Bytes)
  | scan (beginKey : Bytes) (endKey : Option Bytes) (reverse : Bool) (accepted : ℕ)
  | write (key value : Bytes)
  | insert (key value : Bytes)
  | update (key value : Bytes)
  | delete (key : Bytes)
  | writeSecondaryIndex (key primaryKey : Bytes)
  | deleteSecondaryIndex (key primaryKey : Bytes)
  deriving Repr, DecidableEq

/-- The index, the clocks, the transactions and the versions published. -/
structure State where
  index : Index
  globalEpoch : EpochNumber
  /-- The global epoch the manager has read. -/
  manager : Option EpochNumber
  /-- The transactions that have begun. -/
  begun : List ℕ
  tx : ℕ → Tx
  versions : Bytes → List (ℕ × Content)

/-- An empty database in its first epoch. -/
def initial : State := ⟨.empty, 1, none, [], fun _ => .idle, fun _ => []⟩

namespace State

/-- The number of versions of a key. -/
def position (s : State) (key : Bytes) : ℕ := (s.versions key).length

/-- An operation, if the index is of the kind it is for. -/
def op (kind : IndexKind) (s : State) (t : ℕ) : Op → Option (Index × Tx)
  | .read key => some (s.index, (s.tx t).read kind s.position s.index key)
  | .scan beginKey endKey reverse accepted =>
    some ((s.tx t).scan s.position s.index t beginKey endKey reverse accepted)
  | .write key value =>
    if kind = .primary then some ((s.tx t).write s.index t key value false none) else none
  | .insert key value =>
    if kind = .primary then some ((s.tx t).insert s.index t key value) else none
  | .update key value =>
    if kind = .primary then some ((s.tx t).update s.index t key value none) else none
  | .delete key => if kind = .primary then some ((s.tx t).delete s.index t key) else none
  | .writeSecondaryIndex key primaryKey =>
    match kind with
    | .primary => none
    | .secondary unique =>
      some ((s.tx t).writeSecondaryIndex s.position unique s.index t key primaryKey)
  | .deleteSecondaryIndex key primaryKey =>
    match kind with
    | .primary => none
    | .secondary unique =>
      some ((s.tx t).deleteSecondaryIndex s.position unique s.index t key primaryKey)

/-- Install and publish one write. -/
def publish (kind : IndexKind) (t : ℕ) (s : State) (w : Staged) : State :=
  let content := w.installed kind ((s.index.point w.key).getD .blank)
  { s with
    index := { s.index with point := Function.update s.index.point w.key (some content) }
    versions := Function.update s.versions w.key (s.versions w.key ++ [(t, content)]) }

/-- What was read is still current, and what was claimed as new holds no row. -/
def valid (s : State) (tx : Tx) : Bool :=
  (tx.validationSet.all fun entry => s.position entry.1 = entry.2) &&
    tx.writeSet.all fun w =>
      !w.isInsert || !(s.index.point w.key).any fun c => c.isPrimaryInitialized

/-- One transaction is replaced. -/
def setTx (s : State) (t : ℕ) (tx : Tx) : State := { s with tx := Function.update s.tx t tx }

/-- A transaction starts in the global epoch. -/
def start (s : State) (t : ℕ) : State :=
  { s.setTx t { s.tx t with status := .running, epoch := s.globalEpoch } with
    begun := t :: s.begun }

/-- `Precommit` and `PostProcessing` -/
def commit (kind : IndexKind) (s : State) (t : ℕ) : State :=
  let tx := s.tx t
  if s.valid tx then
    (tx.writeSet.foldl (publish kind t) s).setTx t { tx with status := .committed }
  else s.setTx t tx.abort

end State

/-- Steps of transactions, of the clock and of the manager. -/
inductive Action where
  | start (t : ℕ)
  | op (t : ℕ) (op : Op)
  | commit (t : ℕ)
  | abort (t : ℕ)
  | advanceEpoch
  | sync
  | manage
  deriving Repr, DecidableEq

/-- One step. The epoch advances when nobody is left behind in the one before; the manager
waits for two advances before it reads the epoch. -/
def step (kind : IndexKind) (s : State) : Action → Option State
  | .start t => if (s.tx t).status = .idle then some (s.start t) else none
  | .op t op =>
    if (s.tx t).status = .running then
      (s.op kind t op).map fun result => { s with index := result.1 }.setTx t result.2
    else none
  | .commit t =>
    if (s.tx t).status = .running ∧ (s.tx t).hasReturned then some (s.commit kind t) else none
  | .abort t =>
    if (s.tx t).status = .running then some (s.setTx t (s.tx t).abort) else none
  | .advanceEpoch =>
    if s.globalEpoch < kEpochHighWater ∧
        ∀ t ∈ s.begun, (s.tx t).status = .running → s.globalEpoch ≤ (s.tx t).epoch then
      some { s with globalEpoch := s.globalEpoch + 1 }
    else none
  | .sync => if 3 ≤ s.globalEpoch then some { s with manager := some s.globalEpoch } else none
  | .manage =>
    s.manager.map fun global =>
      { s with index := { s.index with range := s.index.range.manage global }, manager := none }

end LineairDB.Precision
