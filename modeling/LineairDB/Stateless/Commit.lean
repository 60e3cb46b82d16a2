import LineairDB.Stateless.Replay

/-!
# The stateless commit protocol

A request reads rows through `StatelessRead`, which copies a row under a double
load of its version word, and then hands the versions it observed, its writes,
its secondary-index operations and its range evidence to `Commit`. Every step
is one access to the store.

The position of an observation, the number of versions its slot had when the
value was current, is recorded beside it; no step depends on it.
-/

namespace LineairDB.Stateless

open Silo ByteFile

/-! ## What a request hands in -/

/-- What a `StatelessRead` returned, which becomes an `ExternalReadEntry`. -/
structure Observation where
  tableName : Bytes
  key : Bytes
  found : Bool
  value : Bytes
  tid : TransactionId
  position : ℕ
  deriving Repr, DecidableEq

/-- The row that was read. -/
def Observation.slot (o : Observation) : Slot := .row o.tableName o.key

/-- A write as the client hands it over. -/
structure ExternalWriteEntry where
  tableName : Bytes
  key : Bytes
  value : Bytes
  isDelete : Bool
  isInsert : Bool
  deriving Repr, DecidableEq

/-- A secondary-index operation as the client hands it over. -/
structure ExternalSecondaryIndexEntry where
  tableName : Bytes
  indexName : Bytes
  secondaryKey : Bytes
  primaryKey : Bytes
  isDelete : Bool
  deriving Repr, DecidableEq

/-! ## What `Commit` makes of it -/

/-- A write with the item it goes to. -/
structure ResolvedWrite where
  tableName : Bytes
  key : Bytes
  value : Bytes
  isDelete : Bool
  item : ItemId
  checkCommittedRow : Bool
  deriving Repr, DecidableEq

/-- The row that is written. -/
def ResolvedWrite.slot (w : ResolvedWrite) : Slot := .row w.tableName w.key

/-- A secondary-index operation with the item it goes to. -/
structure ResolvedSecondaryIndexOp where
  tableName : Bytes
  indexName : Bytes
  secondaryKey : Bytes
  primaryKey : Bytes
  isDelete : Bool
  item : ItemId
  unique : Bool
  deriving Repr, DecidableEq

/-- The entry that is changed. -/
def ResolvedSecondaryIndexOp.slot (op : ResolvedSecondaryIndexOp) : Slot :=
  .entry op.tableName op.indexName op.secondaryKey

/-- An item to be locked, and the slot it was found in. -/
structure LockTarget where
  item : ItemId
  slot : Slot
  deriving Repr, DecidableEq

/-- A lock that is held, with the word before it and since. -/
structure LockedTid where
  item : ItemId
  beforeLock : TransactionId
  locked : TransactionId
  deriving Repr, DecidableEq

/-- Why a commit returned false. -/
inductive AbortReason where
  | rangeEndKeyMissing
  | readTableMissing
  | writeTableMissing
  | duplicatePrimaryKey
  | siTableMissing
  | siIndexMissing
  | uniqueSiDuplicateInRequest
  | writeTargetDetached
  | exactReadDisappeared (tableName key : Bytes)
  | exactReadAppeared (tableName key : Bytes)
  | exactReadTidMoved (tableName key : Bytes)
  | exactReadDeleted (tableName key : Bytes)
  | primaryRangeResultChanged
  | secondaryRangeResultChanged
  | uniqueSiExistsAfterLock
  deriving Repr, DecidableEq

/-- The variables of one `Commit`. -/
structure Commit where
  reads : List Observation
  writes : List ExternalWriteEntry
  secondaryIndexOps : List ExternalSecondaryIndexEntry
  rangeReads : List ExternalRangeReadEntry
  validationEntries : List Observation := []
  resolvedWrites : List ResolvedWrite := []
  resolvedSiOps : List ResolvedSecondaryIndexOp := []
  lockTargets : List LockTarget := []
  uniqueSiAdds : List Bytes := []
  liveInRequest : List (Bytes × Bool) := []
  lockItems : List ItemId := []
  lockedTids : List LockedTid := []
  siEmptyAfterInstall : List (ItemId × Bool) := []
  unlockedTids : List (ItemId × TransactionId) := []
  deriving Repr, DecidableEq

/-- The items a commit has locked. -/
def Commit.own (c : Commit) : List ItemId := c.lockedTids.map LockedTid.item

/-! ## Where a request stands -/

/-- A `StableReadValue` under way. -/
inductive Reading where
  | load (item : ItemId)
  | found (item : ItemId) (tid : TransactionId)
  | size (item : ItemId) (tid : TransactionId)
  | copy (item : ItemId) (tid : TransactionId) (size : ℕ) (value : Bytes)
  | reload (item : ItemId) (tid : TransactionId) (found : Bool) (value : Bytes)
  deriving Repr, DecidableEq

/-- The next statement of `Commit`, with what its loop has still to go through. -/
inductive Pc where
  | resolveReads (todo : List Observation)
  | resolveWrites (todo : List ExternalWriteEntry)
  | resolveSecondary (todo : List ExternalSecondaryIndexEntry)
  | lock (todo : List ItemId)
  | attached (item : ItemId) (todo : List ItemId)
  | exactRead (todo : List Observation)
  | exactAbsent (item : ItemId) (read : Observation) (todo : List Observation)
  | exactWord (item : ItemId) (expected : TransactionId) (read : Observation)
      (todo : List Observation)
  | exactLive (item : ItemId) (read : Observation) (todo : List Observation)
  | ranges (todo : List ExternalRangeReadEntry)
  | inserts (todo : List ResolvedWrite)
  | unique
  | installRows (todo : List ResolvedWrite)
  | installSecondary (todo : List ResolvedSecondaryIndexOp)
  | unlock (todo : List ItemId)
  | enqueue (todo : List Candidate)
  | abort (reason : AbortReason) (todo : List LockedTid)
  deriving Repr, DecidableEq

/-- Where a request is. -/
inductive Stage where
  | staging
  | reading (tableName key : Bytes) (r : Reading)
  | committing (c : Commit) (pc : Pc)
  | aborted (reason : AbortReason)
  | committed (c : Commit)
  deriving Repr, DecidableEq

/-- A request: what it has read, and where it is. -/
structure Request where
  observations : List Observation
  stage : Stage
  deriving Repr, DecidableEq

/-! ## Primary-key lists -/

/-- `PackedPrimaryKeys::Insert` -/
def insertKey (key : Bytes) : List Bytes → List Bytes
  | [] => [key]
  | k :: keys =>
    if k = key then k :: keys
    else if k < key then k :: insertKey key keys
    else key :: k :: keys

/-- `PackedPrimaryKeys::Erase` -/
def eraseKey (key : Bytes) : List Bytes → List Bytes
  | [] => []
  | k :: keys =>
    if k = key then keys
    else if k < key then k :: eraseKey key keys
    else k :: keys

/-! ## `StatelessRead` -/

/-- One access of `StableReadValue`; `byte` is what a copy finds past the end of a
row that shrank under it. -/
def readStep (s : Store) (observations : List Observation) (tableName key : Bytes)
    (byte : UInt8) : Reading → Access × Request
  | .load item =>
    let tid := (s.item item).word
    if tid.isLocked then (.idle, ⟨observations, .reading tableName key (.load item)⟩)
    else (.idle, ⟨observations, .reading tableName key (.found item tid)⟩)
  | .found item tid =>
    if (s.item item).content.isPrimaryInitialized then
      (.idle, ⟨observations, .reading tableName key (.size item tid)⟩)
    else (.idle, ⟨observations, .reading tableName key (.reload item tid false [])⟩)
  | .size item tid =>
    let size := (s.item item).content.buffer.length
    (.idle, ⟨observations, .reading tableName key (.copy item tid size [])⟩)
  | .copy item tid size value =>
    if value.length < size then
      let next := ((s.item item).content.buffer[value.length]?).getD byte
      (.idle, ⟨observations, .reading tableName key (.copy item tid size (value ++ [next]))⟩)
    else (.idle, ⟨observations, .reading tableName key (.reload item tid true value)⟩)
  | .reload item tid found value =>
    let x := s.item item
    if x.word = tid then
      (.observe (.row tableName key) x.seen,
        ⟨observations ++ [⟨tableName, key, found, value, tid, x.seen⟩], .staging⟩)
    else (.idle, ⟨observations, .reading tableName key (.load item)⟩)

/-- `Read` up to the item: a missing table or slot is reported as not found. -/
def readStart (schema : Schema) (s : Store) (observations : List Observation)
    (tableName key : Bytes) : Access × Request :=
  let absent : Access × Request :=
    let position := (s.versions (.row tableName key)).length
    (.observe (.row tableName key) position,
      ⟨observations ++ [⟨tableName, key, false, [], .empty, position⟩], .staging⟩)
  match schema tableName with
  | none => absent
  | some _ =>
    match s.index (.row tableName key) with
    | none => absent
    | some item => (.idle, ⟨observations, .reading tableName key (.load item)⟩)

/-! ## Resolve -/

/-- `GetOrInsert`: the slot's item, and the access that creates it when there is
none. -/
def getOrInsert (s : Store) (k : Slot) : ItemId × Access :=
  match s.index k with
  | some item => (item, .idle)
  | none => (s.allocated, .insertBlank k)

/-- Reads of tables that are missing must have found nothing. -/
def resolveRead (schema : Schema) (c : Commit) (read : Observation) (todo : List Observation) :
    Stage :=
  match schema read.tableName with
  | none =>
    if read.found ∨ read.tid ≠ .empty then .aborted .readTableMissing
    else .committing c (.resolveReads todo)
  | some _ =>
    .committing { c with validationEntries := c.validationEntries ++ [read] } (.resolveReads todo)

/-- A slot for the row is found or made. -/
def resolveWrite (schema : Schema) (s : Store) (c : Commit) (write : ExternalWriteEntry)
    (todo : List ExternalWriteEntry) : Access × Stage :=
  match schema write.tableName with
  | none => (.idle, .aborted .writeTableMissing)
  | some _ =>
    let slot := .row write.tableName write.key
    let (item, access) := getOrInsert s slot
    let hasInsertEntry := c.writes.any fun entry => entry.isInsert
    let requestKey := write.tableName ++ [0] ++ write.key
    let live := c.liveInRequest.lookup requestKey
    -- an insert onto a key the request itself has made live
    if hasInsertEntry ∧ write.isInsert ∧ live = some true then
      (access, .aborted .duplicatePrimaryKey)
    else
      let checkCommittedRow := hasInsertEntry && write.isInsert && live.isNone
      (access, .committing
        { c with
          liveInRequest :=
            if hasInsertEntry then (requestKey, !write.isDelete) :: c.liveInRequest
            else c.liveInRequest
          resolvedWrites := c.resolvedWrites ++
            [⟨write.tableName, write.key, write.value, write.isDelete, item, checkCommittedRow⟩]
          lockItems := c.lockItems ++ [item]
          lockTargets := c.lockTargets ++ [⟨item, slot⟩] }
        (.resolveWrites todo))

/-- A slot for the entry is found or made. -/
def resolveSecondary (schema : Schema) (s : Store) (c : Commit)
    (op : ExternalSecondaryIndexEntry) (todo : List ExternalSecondaryIndexEntry) :
    Access × Stage :=
  match schema op.tableName with
  | none => (.idle, .aborted .siTableMissing)
  | some indexes =>
    match indexes op.indexName with
    | none => (.idle, .aborted .siIndexMissing)
    | some unique =>
      let uniqueKey := op.tableName ++ [0] ++ op.indexName ++ [0] ++ op.secondaryKey
      let uniqueAdd := !op.isDelete && unique
      if uniqueAdd ∧ uniqueKey ∈ c.uniqueSiAdds then
        (.idle, .aborted .uniqueSiDuplicateInRequest)
      else
        let slot := .entry op.tableName op.indexName op.secondaryKey
        let (item, access) := getOrInsert s slot
        (access, .committing
          { c with
            uniqueSiAdds := if uniqueAdd then uniqueKey :: c.uniqueSiAdds else c.uniqueSiAdds
            resolvedSiOps := c.resolvedSiOps ++
              [⟨op.tableName, op.indexName, op.secondaryKey, op.primaryKey, op.isDelete, item,
                unique⟩]
            lockItems := c.lockItems ++ [item]
            lockTargets := c.lockTargets ++ [⟨item, slot⟩] }
          (.resolveSecondary todo))

/-- `std::sort` and `std::unique`: in the order of the addresses, each item once. -/
def sortedUnique (schema : Schema) (items : List ItemId) : List ItemId :=
  items.dedup.insertionSort fun i j => schema.address i ≤ schema.address j

/-! ## Lock and validate -/

/-- The index still leads to the item. -/
def lockTargetAttached (s : Store) (c : Commit) (item : ItemId) : Bool :=
  c.lockTargets.all fun target => target.item != item || s.index target.slot = some item

/-- The slots nobody else holds, which the committer notes as unmoved. -/
def freeSlots (s : Store) (t : ℕ) : Set Slot := {k | s.Free (.tx t) k}

/-- Phase 2.1 up to the item the key leads to now. -/
def exactRead (s : Store) (t : ℕ) (c : Commit) (read : Observation) (todo : List Observation) :
    Access × Pc :=
  match s.index read.slot with
  | none =>
    if read.found then
      (.idle, .abort (.exactReadDisappeared read.tableName read.key) c.lockedTids)
    else (.fix (freeSlots s t), .exactRead todo)
  | some item =>
    if !read.found then (.idle, .exactAbsent item read todo)
    else
      match c.lockedTids.find? fun locked => locked.item = item with
      | some locked =>
        if locked.beforeLock ≠ read.tid then
          (.idle, .abort (.exactReadTidMoved read.tableName read.key) c.lockedTids)
        else (.idle, .exactWord item locked.locked read todo)
      | none => (.idle, .exactWord item read.tid read todo)

/-- Phase 2.4: the lists the unique adds and removes of the request go through,
starting from what the locked entries hold. -/
def uniqueRecheck (s : Store) (siPrimaryKeys : List (ItemId × List Bytes)) :
    List ResolvedSecondaryIndexOp → Bool
  | [] => true
  | op :: ops =>
    if !op.unique then uniqueRecheck s siPrimaryKeys ops
    else
      let keys := (siPrimaryKeys.lookup op.item).getD (s.item op.item).content.primaryKeys
      if op.isDelete then
        uniqueRecheck s ((op.item, eraseKey op.primaryKey keys) :: siPrimaryKeys) ops
      else if keys ≠ [] then false
      else uniqueRecheck s ((op.item, insertKey op.primaryKey keys) :: siPrimaryKeys) ops

/-! ## Install, publish, purge -/

/-- The row with the write installed. -/
def installedRow (x : Item) (write : ResolvedWrite) : Content :=
  { x.content with buffer := if write.isDelete then [] else write.value }

/-- The list with the operation installed. -/
def installedEntry (x : Item) (op : ResolvedSecondaryIndexOp) : Content :=
  { x.content with
    primaryKeys :=
      if op.isDelete then eraseKey op.primaryKey x.content.primaryKeys
      else insertKey op.primaryKey x.content.primaryKeys }

/-- The tombstones of the removes, captured under the locks. -/
def siEmptyAfterInstall (s : Store) (c : Commit) : List (ItemId × Bool) :=
  (c.resolvedSiOps.filter fun op => op.isDelete).map fun op =>
    (op.item, (s.item op.item).content.primaryKeys.isEmpty)

/-- Phase 3.4: the slots the request leaves empty. -/
def purgeCandidates (c : Commit) : List Candidate :=
  let rows := (c.resolvedWrites.filter fun write => write.isDelete).filterMap fun write =>
    (c.unlockedTids.lookup write.item).map fun tid => ⟨write.slot, write.item, tid⟩
  let entries := c.resolvedSiOps.filter fun op =>
    op.isDelete && c.siEmptyAfterInstall.lookup op.item == some true
  -- each entry once
  let entries := entries.foldl (fun seen op =>
    if seen.any fun other => other.item = op.item then seen else seen ++ [op])
    ([] : List ResolvedSecondaryIndexOp)
  rows ++ entries.filterMap fun op =>
    (c.unlockedTids.lookup op.item).map fun tid => ⟨op.slot, op.item, tid⟩

/-! ## The steps -/

/-- Phases 2.1 to 2.4, one access at a time, with every lock held. -/
def validateStep (schema : Schema) (s : Store) (t : ℕ) (c : Commit) : Pc → Access × Pc
  | .exactRead [] => (.idle, .ranges c.rangeReads)
  | .exactRead (read :: todo) => exactRead s t c read todo
  | .exactAbsent item read todo =>
    if (s.item item).content.isPrimaryInitialized then
      (.idle, .abort (.exactReadAppeared read.tableName read.key) c.lockedTids)
    else (.fix (freeSlots s t), .exactRead todo)
  | .exactWord item expected read todo =>
    if (s.item item).word ≠ expected then
      (.idle, .abort (.exactReadTidMoved read.tableName read.key) c.lockedTids)
    else (.fix (freeSlots s t), .exactLive item read todo)
  | .exactLive item read todo =>
    if !(s.item item).content.isPrimaryInitialized then
      (.idle, .abort (.exactReadDeleted read.tableName read.key) c.lockedTids)
    else (.idle, .exactRead todo)
  | .ranges [] => (.idle, .inserts c.resolvedWrites)
  | .ranges (range :: todo) =>
    if validateRange schema s c.own range then (.fix (freeSlots s t), .ranges todo)
    else if range.indexName = [] then (.idle, .abort .primaryRangeResultChanged c.lockedTids)
    else (.idle, .abort .secondaryRangeResultChanged c.lockedTids)
  | .inserts [] => (.idle, .unique)
  | .inserts (write :: todo) =>
    if write.checkCommittedRow ∧ (s.item write.item).content.isPrimaryInitialized then
      (.idle, .abort .duplicatePrimaryKey c.lockedTids)
    else (.idle, .inserts todo)
  | .unique =>
    if uniqueRecheck s [] c.resolvedSiOps then (.idle, .installRows c.resolvedWrites)
    else (.idle, .abort .uniqueSiExistsAfterLock c.lockedTids)
  | pc => (.idle, pc)

/-- One access of `Commit`. -/
def commitStep (schema : Schema) (s : Store) (t : ℕ) (c : Commit) :
    Pc → Access × Stage × List Candidate
  | .resolveReads [] => (.idle, .committing c (.resolveWrites c.writes), [])
  | .resolveReads (read :: todo) => (.idle, resolveRead schema c read todo, [])
  | .resolveWrites [] => (.idle, .committing c (.resolveSecondary c.secondaryIndexOps), [])
  | .resolveWrites (write :: todo) =>
    let (access, stage) := resolveWrite schema s c write todo
    (access, stage, [])
  | .resolveSecondary [] =>
    let lockItems := sortedUnique schema c.lockItems
    (.idle, .committing { c with lockItems := lockItems } (.lock lockItems), [])
  | .resolveSecondary (op :: todo) =>
    let (access, stage) := resolveSecondary schema s c op todo
    (access, stage, [])
  -- Phase 1.2: with every lock held, leave and re-join the epoch
  | .lock [] => (.serialize, .committing c (.exactRead c.validationEntries), [])
  | .lock (item :: todo) =>
    let current := (s.item item).word
    if current.isLocked then (.idle, .committing c (.lock (item :: todo)), [])
    else
      (.lock item, .committing
        { c with lockedTids := c.lockedTids ++ [⟨item, current, current.locked⟩] }
        (.attached item todo), [])
  | .attached item todo =>
    if lockTargetAttached s c item then (.idle, .committing c (.lock todo), [])
    else (.idle, .committing c (.abort .writeTargetDetached c.lockedTids), [])
  | .installRows [] => (.idle, .committing c (.installSecondary c.resolvedSiOps), [])
  | .installRows (write :: todo) =>
    (.install write.item (installedRow (s.item write.item) write),
      .committing c (.installRows todo), [])
  | .installSecondary [] =>
    (.idle, .committing { c with siEmptyAfterInstall := siEmptyAfterInstall s c }
      (.unlock c.lockItems), [])
  | .installSecondary (op :: todo) =>
    (.install op.item (installedEntry (s.item op.item) op),
      .committing c (.installSecondary todo), [])
  | .unlock [] => (.idle, .committing c (.enqueue (purgeCandidates c)), [])
  | .unlock (item :: todo) =>
    let unlocked := (s.item item).word.next (s.commitEpoch (.tx t))
    (.publish item unlocked, .committing
      { c with unlockedTids := c.unlockedTids ++ [(item, unlocked)] } (.unlock todo), [])
  | .enqueue [] => (.idle, .committed c, [])
  | .enqueue (candidate :: todo) =>
    (.idle, .committing c (.enqueue todo), candidate.enqueue)
  | .abort reason [] => (.idle, .aborted reason, [])
  | .abort reason (locked :: todo) =>
    let current := (s.item locked.item).word
    if current.isLocked then
      (.storeWord locked.item current.unlocked, .committing c (.abort reason todo), [])
    else (.idle, .committing c (.abort reason todo), [])
  | pc =>
    let (access, pc) := validateStep schema s t c pc
    (access, .committing c pc, [])

/-- What the caller, or the scheduler, decides. -/
inductive Choice where
  | read (tableName key : Bytes)
  | submit (reads : List Observation) (writes : List ExternalWriteEntry)
      (secondaryIndexOps : List ExternalSecondaryIndexEntry)
      (rangeReads : List ExternalRangeReadEntry)
  | next (byte : UInt8)
  deriving Repr, DecidableEq

/-- One step of the request `t`: its point reads come from its own observations. -/
def step (schema : Schema) (s : Store) (t : ℕ) (r : Request) :
    Choice → Option (Access × Request × List Candidate)
  | .read tableName key =>
    match r.stage with
    | .staging =>
      let (access, r) := readStart schema s r.observations tableName key
      some (access, r, [])
    | _ => none
  | .submit reads writes secondaryIndexOps rangeReads =>
    match r.stage with
    | .staging =>
      if reads ⊆ r.observations then
        if rangeReads.any fun range => range.endKey.isEmpty then
          some (.idle, ⟨r.observations, .aborted .rangeEndKeyMissing⟩, [])
        else
          let c : Commit :=
            { reads := reads
              writes := writes
              secondaryIndexOps := secondaryIndexOps
              rangeReads := rangeReads }
          some (.idle, ⟨r.observations, .committing c (.resolveReads reads)⟩, [])
      else none
    | _ => none
  | .next byte =>
    match r.stage with
    | .reading tableName key reading =>
      let (access, r) := readStep s r.observations tableName key byte reading
      some (access, r, [])
    | .committing c pc =>
      let (access, stage, candidates) := commitStep schema s t c pc
      some (access, ⟨r.observations, stage⟩, candidates)
    | _ => none

/-- A client of the stateless API. -/
def client (schema : Schema) : Party Request Choice := ⟨⟨[], .staging⟩, step schema⟩

end LineairDB.Stateless
