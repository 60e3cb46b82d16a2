import LineairDB.Recovery.History

/-!
# Native transactions

The transactions of the embedded API under plain Silo. A transaction reads rows
and secondary entries through a copy under a double load of the version word,
which it registers for validation, keeps its writes to itself, and in
`Precommit` locks them in one order, re-joins the epoch, validates what it has
read and installs; `PostProcessing` publishes. Every step is one access to the
store.

Two things are recorded beside what the program keeps: with every read the
number of versions its slot had when the copy was current, and whether the item
was attached when the copy was confirmed. No step depends on them.
-/

namespace LineairDB.Native

open Silo ByteFile
open Stateless (Schema getOrInsert freeSlots)
open Recovery (SecondaryIndexOp SecondaryIndexDelta recordSecondaryIndexDelta
  applySecondaryIndexDelta)

/-! ## The sets of a transaction -/

/-- An entry of the read set. -/
structure ReadSnapshot where
  slot : Slot
  copy : Content
  position : ℕ
  deriving Repr, DecidableEq

/-- An entry of the write set; `tid` is the version word of the copy, which the lock
loop sets. -/
structure WriteSnapshot where
  slot : Slot
  item : ItemId
  copy : Content
  tid : TransactionId
  isInsert : Bool
  unique : Bool
  deltas : List SecondaryIndexDelta
  deriving Repr, DecidableEq

/-- An entry of the validation set. -/
structure ValidationItem where
  item : ItemId
  tid : TransactionId
  slot : Slot
  position : ℕ
  attached : Bool
  deriving Repr, DecidableEq

/-- Whom a stable copy is for. -/
inductive Purpose where
  /-- `Read` and `ReadSecondaryIndex` -/
  | read (slot : Slot)
  /-- `ReadDirect`, for a row a scan has come across -/
  | direct (slot : Slot)
  /-- `RefreshSecondaryIndexWriteSnapshot` -/
  | refresh (slot : Slot)
  /-- `SeedSecondaryIndexForWrite` -/
  | seed (tableName indexName key : Bytes) (unique : Bool) (op : SecondaryIndexOp)
      (primaryKey : Bytes)
  deriving Repr, DecidableEq

namespace Purpose

/-- The slot that is read. -/
def slot : Purpose → Slot
  | read k => k
  | direct k => k
  | refresh k => k
  | seed tableName indexName key _ _ _ => .entry tableName indexName key

/-- The copy goes through `Read` or `ReadDirect`, not through `ReadUnvalidated`. -/
def validated : Purpose → Bool
  | seed _ _ _ unique _ _ => unique
  | _ => true

end Purpose

/-- A copy under way: the first load, the size, the bytes, the primary keys, and the
load that confirms it. -/
inductive Copying where
  | load
  | size (tid : TransactionId)
  | bytes (tid : TransactionId) (size : ℕ) (value : Bytes)
  | primaryKeys (tid : TransactionId) (value : Bytes)
  | reload (tid : TransactionId) (copy : Content)
  deriving Repr, DecidableEq

/-- Where a transaction stands, with what its loop has still to go through. -/
inductive Stage where
  | running
  | reading (purpose : Purpose) (item : ItemId) (copying : Copying)
  /-- `Update` between `Get` and the look at the row -/
  | checking (slot : Slot) (item : ItemId) (value : Bytes)
  /-- `Insert` and `Update` before the `Write` they end with -/
  | writing (slot : Slot) (value : Bytes) (isInsert : Bool)
  | lock (locked todo : List WriteSnapshot)
  | attached (locked : List WriteSnapshot) (snapshot : WriteSnapshot) (todo : List WriteSnapshot)
  | validate (todo : List ValidationItem)
  | phantoms
  | inserts (todo : List WriteSnapshot)
  | install (installed todo : List WriteSnapshot)
  | publish (todo : List WriteSnapshot)
  | register (snapshot : WriteSnapshot) (unlocked : TransactionId) (todo : List WriteSnapshot)
  /-- Giving the locks back; the lock loop looks at the lock bit before it does. -/
  | unlock (checked : Bool) (todo : List WriteSnapshot)
  | committed
  | aborted
  deriving Repr, DecidableEq

/-- A native transaction. -/
structure Transaction where
  readSet : List ReadSnapshot
  writeSet : List WriteSnapshot
  validationSet : List ValidationItem
  /-- The keys that had no slot when they were read, which nothing registers. -/
  missing : List (Slot × ℕ)
  stage : Stage
  deriving Repr, DecidableEq

namespace WriteSnapshot

/-- `IsNonUniqueSecondaryIndexDeltaWrite` -/
def isDeltaWrite (snapshot : WriteSnapshot) : Bool :=
  match snapshot.slot with
  | .row _ _ => false
  | .entry _ indexName _ => !indexName.isEmpty && !snapshot.unique && !snapshot.deltas.isEmpty

/-- Add or remove a primary key, in the copy and in the deltas. -/
def edit (op : SecondaryIndexOp) (primaryKey : Bytes) (snapshot : WriteSnapshot) : WriteSnapshot :=
  { snapshot with
    copy := applySecondaryIndexDelta snapshot.copy ⟨primaryKey, op⟩
    deltas := recordSecondaryIndexDelta primaryKey op snapshot.deltas }

/-- What is installed over the content of the locked item: an entry that is not unique
merges its deltas, everything else overwrites. -/
def installed (snapshot : WriteSnapshot) (current : Content) : Content :=
  if snapshot.isDeltaWrite then snapshot.deltas.foldl applySecondaryIndexDelta current
  else snapshot.copy

/-- The copy is a tombstone. -/
def isDelete (snapshot : WriteSnapshot) : Bool :=
  match snapshot.slot with
  | .row _ _ => !snapshot.copy.isPrimaryInitialized
  | .entry _ _ _ => snapshot.copy.primaryKeys.isEmpty

/-- What `Reaper::Enqueue` makes of a snapshot. -/
def enqueue (snapshot : WriteSnapshot) (deleteCommitTid : TransactionId) : List Candidate :=
  if snapshot.isDelete then Candidate.enqueue ⟨snapshot.slot, snapshot.item, deleteCommitTid⟩
  else []

/-- `Snapshot::Compare`; a row counts as an entry of the index without a name. -/
def compare (left right : WriteSnapshot) : Bool :=
  let names : Slot → Bytes × Bytes × Bytes
    | .row table key => (table, [], key)
    | .entry table index key => (table, index, key)
  let (leftTable, leftIndex, leftKey) := names left.slot
  let (rightTable, rightIndex, rightKey) := names right.slot
  if leftTable ≠ rightTable then leftTable < rightTable
  else if leftIndex ≠ rightIndex then leftIndex < rightIndex
  else leftKey < rightKey

end WriteSnapshot

namespace Transaction

/-- `FindInSet` -/
def findRead (tx : Transaction) (slot : Slot) : Option ReadSnapshot :=
  tx.readSet.find? fun snapshot => snapshot.slot = slot

/-- `FindInSet`, in the write set. -/
def findWrite (tx : Transaction) (slot : Slot) : Option WriteSnapshot :=
  tx.writeSet.find? fun snapshot => snapshot.slot = slot

/-- Change the entry of a slot the transaction has already written. -/
def modifyWrite (tx : Transaction) (slot : Slot) (f : WriteSnapshot → WriteSnapshot) :
    Transaction :=
  { tx with
    writeSet := tx.writeSet.map fun snapshot =>
      if snapshot.slot = slot then f snapshot else snapshot
    stage := .running }

/-- The transaction gives up. -/
def abort (tx : Transaction) : Transaction := { tx with stage := .aborted }

/-! ## Reads -/

/-- Read a slot the transaction has not touched yet. A key without a slot is reported as
not found, and nothing is registered. -/
def readSlot (s : Store) (tx : Transaction) (slot : Slot) : Access × Transaction :=
  match s.index slot with
  | none =>
    let position := (s.versions slot).length
    (.observe slot position, { tx with missing := tx.missing ++ [(slot, position)] })
  | some item => (.idle, { tx with stage := .reading (.read slot) item .load })

/-- `Read` -/
def read (s : Store) (tx : Transaction) (slot : Slot) : Access × Transaction :=
  if (tx.findWrite slot).isSome ∨ (tx.findRead slot).isSome then (.idle, tx)
  else readSlot s tx slot

/-- `ReadSecondaryIndex` -/
def readSecondaryIndex (s : Store) (tx : Transaction) (slot : Slot) : Access × Transaction :=
  match tx.findWrite slot with
  | some ownWrite =>
    if ownWrite.isDeltaWrite then
      (.idle, { tx with stage := .reading (.refresh slot) ownWrite.item .load })
    else (.idle, tx)
  | none => if (tx.findRead slot).isSome then (.idle, tx) else readSlot s tx slot

/-- A row a scan has come across. -/
def scanRow (s : Store) (tx : Transaction) (slot : Slot) : Access × Transaction :=
  if (tx.findWrite slot).isSome ∨ (tx.findRead slot).isSome then (.idle, tx)
  else
    let (item, access) := getOrInsert s slot
    (access, { tx with stage := .reading (.direct slot) item .load })

/-! ## Writes -/

/-- `Write` -/
def write (s : Store) (tx : Transaction) (slot : Slot) (value : Bytes) (isInsert : Bool) :
    Access × Transaction :=
  if (tx.findWrite slot).isSome then
    (.idle, tx.modifyWrite slot fun ownWrite =>
      { ownWrite with
        copy := { ownWrite.copy with buffer := value }
        isInsert := isInsert || ownWrite.isInsert })
  else
    let (item, access) := getOrInsert s slot
    (access,
      { tx with
        writeSet := tx.writeSet ++ [⟨slot, item, ⟨value, []⟩, .empty, isInsert, false, []⟩]
        stage := .running })

/-- `Insert` up to the claim of the key. -/
def insert (s : Store) (tx : Transaction) (slot : Slot) (value : Bytes) : Access × Transaction :=
  match tx.findWrite slot with
  | some ownWrite =>
    if ownWrite.copy.isPrimaryInitialized then (.idle, tx.abort) else write s tx slot value false
  | none =>
    match s.index slot with
    | some item =>
      if (s.item item).content.isPrimaryInitialized then (.idle, tx.abort)
      else (.idle, { tx with stage := .writing slot value true })
    | none => (.insertBlank slot, { tx with stage := .writing slot value true })

/-- `Update` up to the item of the row. -/
def update (s : Store) (tx : Transaction) (slot : Slot) (value : Bytes) : Access × Transaction :=
  match tx.findWrite slot with
  | some ownWrite =>
    if ownWrite.copy.isPrimaryInitialized then write s tx slot value false else (.idle, tx.abort)
  | none =>
    match s.index slot with
    | some item => (.idle, { tx with stage := .checking slot item value })
    | none => (.idle, tx.abort)

/-- The write of a secondary entry, on the copy it starts from. -/
def putSecondaryIndex (tx : Transaction) (slot : Slot) (item : ItemId) (unique : Bool)
    (base : Content) (op : SecondaryIndexOp) (primaryKey : Bytes) : Transaction :=
  if op = .add ∧ unique ∧ base.isInitialized then tx.abort
  else
    { tx with
      writeSet := tx.writeSet ++
        [WriteSnapshot.edit op primaryKey ⟨slot, item, base, .empty, false, unique, []⟩]
      stage := .running }

/-- `WriteSecondaryIndex` and `DeleteSecondaryIndex` up to the copy they start from. -/
def editSecondaryIndex (s : Store) (tx : Transaction) (tableName indexName key : Bytes)
    (unique : Bool) (op : SecondaryIndexOp) (primaryKey : Bytes) : Access × Transaction :=
  let slot := .entry tableName indexName key
  let (item, access) := getOrInsert s slot
  if (tx.findWrite slot).isSome then
    if op = .add ∧ unique then (access, tx.abort)
    else (access, tx.modifyWrite slot (WriteSnapshot.edit op primaryKey))
  else
    match tx.findRead slot with
    | some ownRead => (access, tx.putSecondaryIndex slot item unique ownRead.copy op primaryKey)
    | none =>
      (access,
        { tx with
          stage := .reading (.seed tableName indexName key unique op primaryKey) item .load })

/-! ## Stable copies -/

/-- `validation_set_.push_back`, unless the copy is an unvalidated one. -/
def register (tx : Transaction) (purpose : Purpose) (item : ItemId) (tid : TransactionId)
    (position : ℕ) (attached : Bool) : Transaction :=
  if purpose.validated then
    { tx with
      validationSet := tx.validationSet ++ [⟨item, tid, purpose.slot, position, attached⟩] }
  else tx

/-- What becomes of a copy the second load has confirmed. -/
def copied (tx : Transaction) (purpose : Purpose) (item : ItemId) (copy : Content)
    (position : ℕ) : Transaction :=
  match purpose with
  | .read slot =>
    { tx with readSet := tx.readSet ++ [⟨slot, copy, position⟩], stage := .running }
  | .direct _ => { tx with stage := .running }
  | .refresh slot =>
    tx.modifyWrite slot fun ownWrite =>
      { ownWrite with copy := ownWrite.deltas.foldl applySecondaryIndexDelta copy }
  | .seed tableName indexName key unique op primaryKey =>
    let slot := .entry tableName indexName key
    let tx : Transaction := { tx with readSet := tx.readSet ++ [⟨slot, copy, position⟩] }
    tx.putSecondaryIndex slot item unique copy op primaryKey

/-- One access of the loop of `Read`, `ReadUnvalidated` and `ReadDirect`; `byte` is what a
copy finds past the end of a row that shrank under it. -/
def copyStep (s : Store) (tx : Transaction) (purpose : Purpose) (item : ItemId) (byte : UInt8) :
    Copying → Access × Transaction
  | .load =>
    let tid := (s.item item).word
    if tid.isLocked then (.idle, tx)
    else (.idle, { tx with stage := .reading purpose item (.size tid) })
  | .size tid =>
    let size := (s.item item).content.buffer.length
    (.idle, { tx with stage := .reading purpose item (.bytes tid size []) })
  | .bytes tid size value =>
    if value.length < size then
      let next := ((s.item item).content.buffer[value.length]?).getD byte
      (.idle, { tx with stage := .reading purpose item (.bytes tid size (value ++ [next])) })
    else (.idle, { tx with stage := .reading purpose item (.primaryKeys tid value) })
  | .primaryKeys tid value =>
    let copy : Content := ⟨value, (s.item item).content.primaryKeys⟩
    (.idle, { tx with stage := .reading purpose item (.reload tid copy) })
  | .reload tid copy =>
    let x := s.item item
    if x.word = tid then
      (if purpose.validated then .observe purpose.slot x.seen else .idle,
        (tx.register purpose item tid x.seen (s.Attached item)).copied purpose item copy x.seen)
    else (.idle, { tx with stage := .reading purpose item .load })

/-! ## `Precommit` and `PostProcessing` -/

/-- Validate what the transaction has locked itself with the lock bit set. -/
def patch (tx : Transaction) (item : ItemId) : List ValidationItem :=
  tx.validationSet.map fun entry =>
    if entry.item = item then { entry with tid := entry.tid.locked } else entry

/-- One access of `Precommit` and `PostProcessing`; `valid` is what the phantom
validation of the scanned ranges says. -/
def commitStep (s : Store) (t : ℕ) (tx : Transaction) (valid : Bool) :
    Stage → Access × Transaction × List Candidate
  -- with every lock held, leave and re-join the epoch
  | .lock locked [] =>
    (.serialize, { tx with writeSet := locked, stage := .validate tx.validationSet }, [])
  | .lock locked (snapshot :: todo) =>
    let current := (s.item snapshot.item).word
    if current.isLocked then (.idle, tx, [])
    else
      (.lock snapshot.item,
        { tx with stage := .attached locked { snapshot with tid := current.locked } todo }, [])
  | .attached locked snapshot todo =>
    if s.index snapshot.slot = some snapshot.item then
      (.idle,
        { tx with
          validationSet := tx.patch snapshot.item
          stage := .lock (locked ++ [snapshot]) todo }, [])
    else (.idle, { tx with stage := .unlock true (locked ++ [snapshot]) }, [])
  -- `AntiDependencyValidation`
  | .validate [] => (.fix (freeSlots s t), { tx with stage := .phantoms }, [])
  | .validate (entry :: todo) =>
    if (s.item entry.item).word = entry.tid then
      (.fix (freeSlots s t), { tx with stage := .validate todo }, [])
    else (.idle, { tx with stage := .unlock false tx.writeSet }, [])
  | .phantoms =>
    if valid then (.idle, { tx with stage := .inserts tx.writeSet }, [])
    else (.idle, { tx with stage := .unlock false tx.writeSet }, [])
  | .inserts [] => (.idle, { tx with stage := .install [] tx.writeSet }, [])
  | .inserts (snapshot :: todo) =>
    if snapshot.isInsert ∧ (s.item snapshot.item).content.isPrimaryInitialized then
      (.idle, { tx with stage := .unlock false tx.writeSet }, [])
    else (.idle, { tx with stage := .inserts todo }, [])
  | .install installed [] =>
    (.idle, { tx with writeSet := installed, stage := .publish installed }, [])
  | .install installed (snapshot :: todo) =>
    let content := snapshot.installed (s.item snapshot.item).content
    (.install snapshot.item content,
      { tx with stage := .install (installed ++ [{ snapshot with copy := content }]) todo }, [])
  | .publish [] => (.idle, { tx with stage := .committed }, [])
  | .publish (snapshot :: todo) =>
    let unlocked := snapshot.tid.next (s.commitEpoch (.tx t))
    (.publish snapshot.item unlocked, { tx with stage := .register snapshot unlocked todo }, [])
  | .register snapshot unlocked todo =>
    (.idle, { tx with stage := .publish todo }, snapshot.enqueue unlocked)
  | .unlock _ [] => (.idle, tx.abort, [])
  | .unlock checked (snapshot :: todo) =>
    let current := (s.item snapshot.item).word
    if checked ∧ !current.isLocked then (.idle, { tx with stage := .unlock checked todo }, [])
    else
      (.storeWord snapshot.item current.unlocked, { tx with stage := .unlock checked todo }, [])
  | _ => (.idle, tx, [])

end Transaction

/-! ## The steps -/

/-- What the user, or the scheduler, decides. -/
inductive Choice where
  | read (tableName key : Bytes)
  | readSecondaryIndex (tableName indexName key : Bytes)
  | scanRow (tableName key : Bytes)
  | write (tableName key value : Bytes)
  | insert (tableName key value : Bytes)
  | update (tableName key value : Bytes)
  | delete (tableName key : Bytes)
  | writeSecondaryIndex (tableName indexName key primaryKey : Bytes)
  | deleteSecondaryIndex (tableName indexName key primaryKey : Bytes)
  | abort
  | precommit
  | next (byte : UInt8) (valid : Bool)
  deriving Repr, DecidableEq

/-- `GetSecondaryIndex`, for a table that exists. In a `Snapshot` the empty index name marks a
row, so the calls on an index that has this name are left out. -/
def secondaryIndex (schema : Schema) (tableName indexName : Bytes) : Option (Option Bool) :=
  if indexName = [] then none else (schema tableName).map fun indexes => indexes indexName

/-- A call of the user. -/
def call (schema : Schema) (s : Store) (tx : Transaction) : Choice → Option (Access × Transaction)
  | .read tableName key => (schema tableName).map fun _ => tx.read s (.row tableName key)
  | .readSecondaryIndex tableName indexName key =>
    (secondaryIndex schema tableName indexName).map fun
      | none => (.idle, tx.abort)
      | some _ => tx.readSecondaryIndex s (.entry tableName indexName key)
  | .scanRow tableName key => (schema tableName).map fun _ => tx.scanRow s (.row tableName key)
  | .write tableName key value =>
    (schema tableName).map fun _ => tx.write s (.row tableName key) value false
  | .insert tableName key value =>
    (schema tableName).map fun _ => tx.insert s (.row tableName key) value
  | .update tableName key value =>
    (schema tableName).map fun _ => tx.update s (.row tableName key) value
  | .delete tableName key => (schema tableName).map fun _ => tx.update s (.row tableName key) []
  | .writeSecondaryIndex tableName indexName key primaryKey =>
    (secondaryIndex schema tableName indexName).map fun
      | none => (.idle, tx.abort)
      | some unique =>
        tx.editSecondaryIndex s tableName indexName key unique .add primaryKey
  | .deleteSecondaryIndex tableName indexName key primaryKey =>
    (secondaryIndex schema tableName indexName).map fun
      | none => (.idle, tx.abort)
      | some unique =>
        tx.editSecondaryIndex s tableName indexName key unique .remove primaryKey
  | .abort => some (.idle, tx.abort)
  | .precommit =>
    let writeSet := tx.writeSet.insertionSort fun a b => !b.compare a
    some (.idle, { tx with stage := .lock [] writeSet })
  | .next _ _ => none

/-- One step of the transaction `t`. -/
def step (schema : Schema) (s : Store) (t : ℕ) (tx : Transaction) :
    Choice → Option (Access × Transaction × List Candidate)
  | .next byte valid =>
    match tx.stage with
    | .running | .committed | .aborted => none
    | .reading purpose item copying =>
      let (access, tx) := tx.copyStep s purpose item byte copying
      some (access, tx, [])
    | .checking slot item value =>
      if (s.item item).content.isPrimaryInitialized then
        some (.idle, { tx with stage := .writing slot value false }, [])
      else some (.idle, tx.abort, [])
    | .writing slot value isInsert =>
      let (access, tx) := tx.write s slot value isInsert
      some (access, tx, [])
    | stage => some (tx.commitStep s t valid stage)
  | choice =>
    match tx.stage with
    | .running => (call schema s tx choice).map fun (access, tx) => (access, tx, [])
    | _ => none

/-- A user of the native API. -/
def user (schema : Schema) : Party Transaction Choice := ⟨⟨[], [], [], [], .running⟩, step schema⟩

end LineairDB.Native
