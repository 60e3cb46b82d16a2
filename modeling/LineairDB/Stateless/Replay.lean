import LineairDB.Silo.System

/-!
# Range evidence

What a caller of the stateless API hands in about a range scan, and the replay
that compares it with the index at commit. A replay happens in one step.
-/

namespace LineairDB.Stateless

open Silo ByteFile

/-! ## Tables and their order -/

/-- What the source leaves to the user, to the allocator and to the configured index. -/
structure Schema where
  /-- The secondary indexes of each table, and which of them are unique. -/
  tables : Bytes → Option (Bytes → Option Bool)
  /-- The address a `DataItem` is allocated at, which a later one may be given again. -/
  address : ItemId → ℕ
  /-- The keys `Scan` or `ScanReverse` visits in an index, out of those the index has;
  `none` where the index refuses the scan. -/
  scan : (Bytes → Slot) → List Bytes → Bytes → Bytes → Bool → Option (List Bytes)

/-- A schema is read as its tables. -/
instance : CoeFun Schema fun _ => Bytes → Option (Bytes → Option Bool) := ⟨Schema.tables⟩

/-- The keys Masstree visits. -/
def scanKeys (keys : List Bytes) (startKey endKey : Bytes) (reverseScan : Bool) : List Bytes :=
  let visited := keys.filter fun key => startKey ≤ key ∧ key < endKey
  if reverseScan then visited.reverse else visited

/-- Tables under Masstree, which refuses no scan, with items at ascending addresses. -/
def masstree (tables : Bytes → Option (Bytes → Option Bool)) : Schema :=
  ⟨tables, id, fun _ keys startKey endKey reverseScan =>
    some (scanKeys keys startKey endKey reverseScan)⟩

/-- A database with one table and no secondary index. -/
def oneTable : Schema := masstree fun name => if name = [1] then some fun _ => none else none

/-- The key within the index a slot belongs to. -/
def slotKey : Slot → Bytes
  | .row _ key => key
  | .entry _ _ key => key

/-- The keys that are in an index, in order. -/
def indexKeys (s : Store) (slot : Bytes → Slot) : List Bytes :=
  ((s.slots.filter fun k => k = slot (slotKey k) ∧ s.index k ≠ none).map slotKey).dedup
    |>.insertionSort (· ≤ ·)

/-- The scan of an index as it stands. -/
def Schema.scanIndex (schema : Schema) (s : Store) (slot : Bytes → Slot)
    (startKey endKey : Bytes) (reverseScan : Bool) : Option (List Bytes) :=
  schema.scan slot (indexKeys s slot) startKey endKey reverseScan

/-! ## The evidence -/

/-- What a caller says a range scan returned. -/
structure ExternalRangeReadEntry where
  tableName : Bytes
  /-- Empty marks a primary-index range. -/
  indexName : Bytes
  startKey : Bytes
  endKey : Bytes
  rowLimit : ℕ
  reverseScan : Bool
  resultKeys : List Bytes
  resultPrimaryKeys : List Bytes
  deriving Repr, DecidableEq

/-! ## The replay -/

section Replay

variable {L : Type} [DecidableEq L]

/-- What a replay comes across: a row under the label the evidence has for it, or an
entry somebody else has locked. -/
inductive Visit (L : Type) where
  | row (item : ItemId) (label : L)
  | blocked
  deriving Repr, DecidableEq

/-- Somebody else has the item locked. -/
def lockedByAnother (s : Store) (own : List ItemId) (item : ItemId) : Bool :=
  (s.item item).word.isLocked && !own.contains item

/-- Compare what is visited with the evidence, position by position: the number of
rows found, unless the scan was aborted or diverged. -/
def replay (s : Store) (own : List ItemId) (rowLimit : ℕ) (expected : List L) :
    ℕ → List (Visit L) → Option ℕ
  | pos, [] => some pos
  | _, .blocked :: _ => none
  | pos, .row item label :: rest =>
    if lockedByAnother s own item then none
    else if (s.item item).content.isPrimaryInitialized then
      if expected[pos]? = some label then
        if rowLimit > 0 ∧ pos + 1 ≥ rowLimit then some (pos + 1)
        else replay s own rowLimit expected (pos + 1) rest
      else none
    else if rowLimit > 0 ∧ pos ≥ rowLimit then some pos
    else replay s own rowLimit expected pos rest

end Replay

/-- The row a key of the primary index leads to. -/
def rowVisit (s : Store) (tableName key : Bytes) : Option (Visit Bytes) :=
  (s.index (.row tableName key)).map fun item => .row item key

/-- The rows `validate_primary_key_list` comes across, unless the index refuses the scan. -/
def primaryVisits (schema : Schema) (s : Store) (r : ExternalRangeReadEntry) :
    Option (List (Visit Bytes)) :=
  (schema.scanIndex s (.row r.tableName) r.startKey r.endKey r.reverseScan).map fun keys =>
    keys.filterMap (rowVisit s r.tableName)

/-- The base rows behind one entry of a secondary index. -/
def entryVisits (s : Store) (own : List ItemId) (r : ExternalRangeReadEntry)
    (secondaryKey : Bytes) : List (Visit (Bytes × Bytes)) :=
  match s.index (.entry r.tableName r.indexName secondaryKey) with
  | none => []
  | some item =>
    if lockedByAnother s own item then [.blocked]
    else (s.item item).content.primaryKeys.filterMap fun primaryKey =>
      (s.index (.row r.tableName primaryKey)).map fun item => .row item (secondaryKey, primaryKey)

/-- The rows `validate_secondary_key_list` comes across, unless the index refuses the scan. -/
def secondaryVisits (schema : Schema) (s : Store) (own : List ItemId)
    (r : ExternalRangeReadEntry) : Option (List (Visit (Bytes × Bytes))) :=
  (schema.scanIndex s (.entry r.tableName r.indexName) r.startKey r.endKey r.reverseScan).map
    fun keys => keys.flatMap (entryVisits s own r)

/-- The replay of a primary scan found the keys of the evidence. -/
def validatePrimaryKeyList (schema : Schema) (s : Store) (own : List ItemId)
    (r : ExternalRangeReadEntry) : Bool :=
  (schema r.tableName).isSome &&
    match primaryVisits schema s r with
    | none => false
    | some visits => replay s own r.rowLimit r.resultKeys 0 visits = some r.resultKeys.length

/-- The replay of a secondary scan found the pairs of the evidence. -/
def validateSecondaryKeyList (schema : Schema) (s : Store) (own : List ItemId)
    (r : ExternalRangeReadEntry) : Bool :=
  ((schema r.tableName).bind fun indexes => indexes r.indexName).isSome &&
    match secondaryVisits schema s own r with
    | none => false
    | some visits =>
      replay s own r.rowLimit (r.resultKeys.zip r.resultPrimaryKeys) 0 visits
          = some r.resultKeys.length &&
        r.resultKeys.length = r.resultPrimaryKeys.length

/-- Phase 2.2 for one range. -/
def validateRange (schema : Schema) (s : Store) (own : List ItemId)
    (r : ExternalRangeReadEntry) : Bool :=
  if r.indexName = [] then validatePrimaryKeyList schema s own r
  else validateSecondaryKeyList schema s own r

/-! ## What an accepted replay has seen -/

section Spec

variable {L : Type} [DecidableEq L] {s : Store} {own : List ItemId}

/-- The labels of the rows found live. -/
def liveLabels (s : Store) (visits : List (Visit L)) : List L :=
  visits.filterMap fun
    | .row item label =>
      if (s.item item).content.isPrimaryInitialized then some label else none
    | .blocked => none

/-- A visit that does not end the replay. -/
def Visit.Clear (s : Store) (own : List ItemId) : Visit L → Prop
  | .row item _ => lockedByAnother s own item = false
  | .blocked => False

end Spec

end LineairDB.Stateless
