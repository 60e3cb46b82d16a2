import LineairDB.Stateless.Replay

/-!
# Stateless scans

`RangeScan` and `SecondaryRangeScan`, and what the replay at commit makes of the
evidence they hand out. A scan waits for a lock it meets; the replay gives up,
unless the lock is its own request's.

* `appendRows_eq` — a scan returns the live rows of its range, cut at the limit:
  blank slots and tombstones do not count.
* `replay_iff` — the replay accepts these rows and nothing else.
* `range_evidence_iff` — both kinds of range evidence are accepted exactly if they
  are what a scan returns now.
-/

namespace LineairDB.Stateless

open Silo ByteFile

/-! ## The scans -/

/-- A row of `RangeScan`. -/
structure ScanRow where
  key : Bytes
  value : Bytes
  tid : TransactionId
  deriving Repr, DecidableEq

/-- A row of `SecondaryRangeScan`. -/
structure SecondaryScanRow where
  secondaryKey : Bytes
  primaryKey : Bytes
  value : Bytes
  tid : TransactionId
  deriving Repr, DecidableEq

/-- `ok` tells an empty result from none. -/
structure ScanResult (R : Type) where
  ok : Bool
  rows : List R
  deriving Repr, DecidableEq

section Rows

variable {L : Type}

/-- The rows a scan appends for what it visits, `returned` of them so far, each as
`select` shows its bytes; nothing while a lock keeps it waiting. -/
def appendRows (s : Store) (select : Bytes → Bytes) (rowLimit : ℕ) :
    ℕ → List (Visit L) → Option (List (L × Bytes × TransactionId))
  | _, [] => some []
  | _, .blocked :: _ => none
  | returned, .row item label :: rest =>
    if (s.item item).word.isLocked then none
    else if (s.item item).content.isPrimaryInitialized then
      let row := (label, select (s.item item).content.buffer, (s.item item).word)
      if rowLimit > 0 ∧ returned + 1 ≥ rowLimit then some [row]
      else (appendRows s select rowLimit (returned + 1) rest).map (row :: ·)
    else if rowLimit > 0 ∧ returned ≥ rowLimit then some []
    else appendRows s select rowLimit returned rest

end Rows

/-- `RangeScan`, with the columns it is asked for; a scan the index refuses has no rows. -/
def rangeScan (schema : Schema) (s : Store) (select : Bytes → Bytes)
    (tableName startKey endKey : Bytes) (rowLimit : ℕ) (reverseScan : Bool) :
    Option (ScanResult ScanRow) :=
  if endKey = [] ∨ schema tableName = none then some ⟨false, []⟩
  else
    match schema.scanIndex s (.row tableName) startKey endKey reverseScan with
    | none => some ⟨false, []⟩
    | some keys =>
      (appendRows s select rowLimit 0 (keys.filterMap (rowVisit s tableName))).map fun rows =>
        ⟨true, rows.map fun row => ⟨row.1, row.2.1, row.2.2⟩⟩

/-- The base rows behind one entry, whose list of primary keys `StableReadPrimaryKeys`
copies once nobody has it locked. -/
def entryRows (s : Store) (tableName indexName secondaryKey : Bytes) :
    List (Visit (Bytes × Bytes)) :=
  match s.index (.entry tableName indexName secondaryKey) with
  | none => []
  | some item =>
    if (s.item item).word.isLocked then [.blocked]
    else (s.item item).content.primaryKeys.filterMap fun primaryKey =>
      (s.index (.row tableName primaryKey)).map fun item => .row item (secondaryKey, primaryKey)

/-- `SecondaryRangeScan`, with the columns it is asked for. -/
def secondaryRangeScan (schema : Schema) (s : Store) (select : Bytes → Bytes)
    (tableName indexName startKey endKey : Bytes) (rowLimit : ℕ) (reverseScan : Bool) :
    Option (ScanResult SecondaryScanRow) :=
  if endKey = [] ∨ (schema tableName).bind (· indexName) = none then some ⟨false, []⟩
  else
    match schema.scanIndex s (.entry tableName indexName) startKey endKey reverseScan with
    | none => some ⟨false, []⟩
    | some keys =>
      let visits := keys.flatMap (entryRows s tableName indexName)
      (appendRows s select rowLimit 0 visits).map fun rows =>
        ⟨true, rows.map fun row => ⟨row.1.1, row.1.2, row.2.1, row.2.2⟩⟩

/-! ## What a scan returns -/

section Append

variable {L : Type} {s : Store} {select : Bytes → Bytes} {rowLimit : ℕ}

/-- At most `rowLimit`, if there is one. -/
def limited {α : Type} (rowLimit : ℕ) (rows : List α) : List α :=
  if rowLimit = 0 then rows else rows.take rowLimit

/-- A visit that keeps nobody waiting. -/
def Visit.Open (s : Store) : Visit L → Prop
  | .row item _ => (s.item item).word.isLocked = false
  | .blocked => False

/-- The rest of a scan that has returned fewer rows than the limit. -/
theorem appendRows_from {visits : List (Visit L)} (hopen : ∀ v ∈ visits, v.Open s) {returned : ℕ}
    (hlimit : rowLimit = 0 ∨ returned < rowLimit) :
    ∃ rows, appendRows s select rowLimit returned visits = some rows ∧
      rows.map Prod.fst = if rowLimit = 0 then liveLabels s visits
        else (liveLabels s visits).take (rowLimit - returned) := by
  induction visits generalizing returned with
  | nil => exact ⟨[], rfl, by simp [liveLabels]⟩
  | cons v rest ih =>
    have hrest : ∀ v ∈ rest, v.Open s := fun v hv => hopen v (.tail _ hv)
    cases v with
    | blocked => exact absurd (hopen _ (.head _)) id
    | row item label =>
      have hitem : (s.item item).word.isLocked = false := hopen _ (.head _)
      by_cases hlive : (s.item item).content.isPrimaryInitialized = true
      · have hlabels : liveLabels s (.row item label :: rest) = label :: liveLabels s rest := by
          simp [liveLabels, hlive]
        rw [hlabels]
        by_cases hstop : rowLimit > 0 ∧ returned + 1 ≥ rowLimit
        · refine ⟨_, by simp only [appendRows, hitem, hlive, hstop]; rfl, ?_⟩
          have hone : rowLimit - returned = 1 := by omega
          rw [if_neg (by omega), hone]
          rfl
        · have hnext : rowLimit = 0 ∨ returned + 1 < rowLimit := by omega
          obtain ⟨rows, hrows, hmap⟩ := ih hrest hnext
          refine ⟨_, by simp only [appendRows, hitem, hlive, hstop, hrows]; rfl, ?_⟩
          rw [List.map_cons, hmap]
          split_ifs with hzero
          · rfl
          · have hsucc : rowLimit - returned = rowLimit - (returned + 1) + 1 := by omega
            rw [hsucc, List.take_succ_cons]
      · have hlabels : liveLabels s (.row item label :: rest) = liveLabels s rest := by
          simp [liveLabels, hlive]
        have hgoes : ¬ (rowLimit > 0 ∧ returned ≥ rowLimit) := by omega
        obtain ⟨rows, hrows, hmap⟩ := ih hrest hlimit
        refine ⟨rows, ?_, ?_⟩
        · simp only [appendRows, hitem, hlive, hgoes]
          exact hrows
        · rw [hlabels]
          exact hmap

/-- **A scan returns the live rows.** It returns where no lock keeps it waiting. -/
theorem appendRows_eq (select : Bytes → Bytes) (rowLimit : ℕ) {visits : List (Visit L)}
    (hopen : ∀ v ∈ visits, v.Open s) :
    ∃ rows, appendRows s select rowLimit 0 visits = some rows ∧
      rows.map Prod.fst = limited rowLimit (liveLabels s visits) :=
  appendRows_from hopen (by omega)

end Append

/-! ## The replay and the scan -/

section Replay

variable {L : Type} [DecidableEq L] {s : Store} {own : List ItemId} {rowLimit : ℕ}

/-- The rest of a replay that has found fewer rows than the limit. -/
theorem replay_iff_from {expected : List L} {visits : List (Visit L)}
    (hclear : ∀ v ∈ visits, v.Clear s own) {pos : ℕ} (hpos : pos ≤ expected.length)
    (hlimit : rowLimit = 0 ∨ pos < rowLimit) :
    replay s own rowLimit expected pos visits = some expected.length ↔
      expected.drop pos = if rowLimit = 0 then liveLabels s visits
        else (liveLabels s visits).take (rowLimit - pos) := by
  induction visits generalizing pos with
  | nil =>
    have hnil : liveLabels s ([] : List (Visit L)) = [] := rfl
    rw [hnil, List.take_nil, ite_self, List.drop_eq_nil_iff, replay, Option.some.injEq]
    omega
  | cons v rest ih =>
    have hrest : ∀ v ∈ rest, v.Clear s own := fun v hv => hclear v (.tail _ hv)
    cases v with
    | blocked => exact absurd (hclear _ (.head _)) id
    | row item label =>
      have hitem : lockedByAnother s own item = false := hclear _ (.head _)
      rw [replay, hitem, if_neg Bool.false_ne_true]
      by_cases hlive : (s.item item).content.isPrimaryInitialized = true
      · have hlabels : liveLabels s (.row item label :: rest) = label :: liveLabels s rest := by
          simp [liveLabels, hlive]
        -- the labels that remain start with this one
        have hfirst : (if rowLimit = 0 then label :: liveLabels s rest
            else (label :: liveLabels s rest).take (rowLimit - pos)) =
            label :: if rowLimit = 0 then liveLabels s rest
              else (liveLabels s rest).take (rowLimit - (pos + 1)) := by
          split_ifs with hzero
          · rfl
          · have hsucc : rowLimit - pos = rowLimit - (pos + 1) + 1 := by omega
            rw [hsucc, List.take_succ_cons]
        rw [if_pos hlive, hlabels, hfirst]
        by_cases hlabel : expected[pos]? = some label
        · obtain ⟨hlt, hget⟩ := List.getElem?_eq_some_iff.mp hlabel
          rw [if_pos hlabel, List.drop_eq_getElem_cons hlt, hget, List.cons.injEq]
          by_cases hstop : rowLimit > 0 ∧ pos + 1 ≥ rowLimit
          · have hnone : rowLimit - (pos + 1) = 0 := by omega
            rw [if_pos hstop, if_neg (by omega), hnone, List.take_zero, List.drop_eq_nil_iff,
              Option.some.injEq]
            simp only [true_and]
            omega
          · rw [if_neg hstop, ih hrest hlt (by omega)]
            simp only [true_and]
        · rw [if_neg hlabel]
          simp only [reduceCtorEq, false_iff]
          intro hdrop
          have hhead := congrArg List.head? hdrop
          rw [List.head?_drop, List.head?_cons] at hhead
          exact hlabel hhead
      · have hlabels : liveLabels s (.row item label :: rest) = liveLabels s rest := by
          simp [liveLabels, hlive]
        have hgoes : ¬ (rowLimit > 0 ∧ pos ≥ rowLimit) := by omega
        rw [if_neg hlive, if_neg hgoes, hlabels]
        exact ih hrest hpos hlimit

/-- A replay that meets no lock of another accepts the live rows cut at the limit. -/
theorem replay_iff {expected : List L} {visits : List (Visit L)}
    (hclear : ∀ v ∈ visits, v.Clear s own) :
    replay s own rowLimit expected 0 visits = some expected.length ↔
      expected = limited rowLimit (liveLabels s visits) :=
  replay_iff_from hclear (Nat.zero_le _) (by omega)

end Replay

/-! ## Range evidence -/

/-- The state once every lock has been given back without publishing. -/
def withoutLocks (s : Store) : Store :=
  { s with item := fun item => { s.item item with word := (s.item item).word.base } }

section Evidence

variable {schema : Schema} {s : Store} {own : List ItemId} {r : ExternalRangeReadEntry}

/-- What keeps the replay from going on keeps no scan waiting once locks are given back. -/
theorem Visit.Clear.open_withoutLocks {L : Type} {v : Visit L} (h : v.Clear s own) :
    v.Open (withoutLocks s) := by
  cases v with
  | row => exact TransactionId.isLocked_base _
  | blocked => exact h

/-- What a scan of a range that visits `visits` returns: the live rows, cut at the limit. -/
def ScanResult.Shows {R L : Type} (s : Store) (rowLimit : ℕ) (label : R → L)
    (result : ScanResult R) : Option (List (Visit L)) → Prop
  | none => result = ⟨false, []⟩
  | some visits => result.ok = true ∧
      result.rows.map label = limited rowLimit (liveLabels s visits)

section

variable (hlocks : ∀ item, lockedByAnother s own item = false)

include hlocks

theorem primaryVisits_clear {visits : List (Visit Bytes)}
    (hvisits : primaryVisits schema s r = some visits) : ∀ v ∈ visits, v.Clear s own := by
  obtain ⟨keys, -, rfl⟩ := Option.map_eq_some_iff.mp hvisits
  intro v hv
  obtain ⟨key, -, hkey⟩ := List.mem_filterMap.mp hv
  obtain ⟨item, -, rfl⟩ := Option.map_eq_some_iff.mp hkey
  exact hlocks item

theorem secondaryVisits_clear {visits : List (Visit (Bytes × Bytes))}
    (hvisits : secondaryVisits schema s own r = some visits) : ∀ v ∈ visits, v.Clear s own := by
  obtain ⟨keys, -, rfl⟩ := Option.map_eq_some_iff.mp hvisits
  intro v hv
  obtain ⟨secondaryKey, -, hentry⟩ := List.mem_flatMap.mp hv
  unfold entryVisits at hentry
  split at hentry
  · cases hentry
  · rw [hlocks, if_neg Bool.false_ne_true] at hentry
    obtain ⟨primaryKey, -, hkey⟩ := List.mem_filterMap.mp hentry
    obtain ⟨item, -, rfl⟩ := Option.map_eq_some_iff.mp hkey
    exact hlocks item

/-- With the locks given back, a scan visits what the replay visits. -/
theorem entryRows_withoutLocks (secondaryKey : Bytes) :
    entryRows (withoutLocks s) r.tableName r.indexName secondaryKey =
      entryVisits s own r secondaryKey := by
  have hindex : (withoutLocks s).index = s.index := rfl
  rw [entryRows, entryVisits, hindex]
  cases s.index (.entry r.tableName r.indexName secondaryKey) with
  | none => rfl
  | some item =>
    have hbase : ((withoutLocks s).item item).word.isLocked = false :=
      TransactionId.isLocked_base _
    simp only [hbase, hlocks, Bool.false_eq_true, if_false]
    rfl

/-- A scan of the primary index, and the evidence its replay accepts. -/
theorem primary_evidence_iff (select : Bytes → Bytes) (hend : r.endKey ≠ [])
    (htable : schema r.tableName ≠ none) :
    ∃ result, rangeScan schema (withoutLocks s) select r.tableName r.startKey r.endKey r.rowLimit
        r.reverseScan = some result ∧
      result.Shows s r.rowLimit ScanRow.key (primaryVisits schema s r) ∧
      (validatePrimaryKeyList schema s own r = true ↔
        result.ok = true ∧ r.resultKeys = result.rows.map ScanRow.key) := by
  have hscan : schema.scanIndex (withoutLocks s) (.row r.tableName) r.startKey r.endKey
      r.reverseScan = schema.scanIndex s (.row r.tableName) r.startKey r.endKey r.reverseScan := rfl
  rw [rangeScan, if_neg (not_or.mpr ⟨hend, htable⟩), hscan, validatePrimaryKeyList,
    Option.isSome_iff_ne_none.mpr htable, Bool.true_and]
  cases hvisits : primaryVisits schema s r with
  | none =>
    rw [Option.map_eq_none_iff.mp hvisits]
    exact ⟨_, rfl, rfl, by simp⟩
  | some visits =>
    have hclear := primaryVisits_clear hlocks hvisits
    obtain ⟨keys, hkeys, rfl⟩ := Option.map_eq_some_iff.mp hvisits
    obtain ⟨rows, hrows, hlabels⟩ := appendRows_eq select r.rowLimit
      fun v hv => (hclear v hv).open_withoutLocks
    have hmap : (rows.map fun row => (⟨row.1, row.2.1, row.2.2⟩ : ScanRow)).map ScanRow.key =
        limited r.rowLimit (liveLabels s (keys.filterMap (rowVisit s r.tableName))) := by
      rw [List.map_map]
      exact hlabels
    rw [hkeys]
    refine ⟨_, congrArg (Option.map _) hrows, ⟨rfl, hmap⟩, ?_⟩
    rw [hmap, decide_eq_true_eq, replay_iff hclear]
    exact (and_iff_right rfl).symm

/-- A scan of a secondary index, and the evidence its replay accepts. -/
theorem secondary_evidence_iff (select : Bytes → Bytes) (hend : r.endKey ≠ [])
    (hindex : (schema r.tableName).bind (· r.indexName) ≠ none) :
    ∃ result, secondaryRangeScan schema (withoutLocks s) select r.tableName r.indexName r.startKey
        r.endKey r.rowLimit r.reverseScan = some result ∧
      result.Shows s r.rowLimit (fun row => (row.secondaryKey, row.primaryKey))
        (secondaryVisits schema s own r) ∧
      (validateSecondaryKeyList schema s own r = true ↔ result.ok = true ∧
        r.resultKeys.length = r.resultPrimaryKeys.length ∧ r.resultKeys.zip r.resultPrimaryKeys =
          result.rows.map fun row => (row.secondaryKey, row.primaryKey)) := by
  have hscan : schema.scanIndex (withoutLocks s) (.entry r.tableName r.indexName) r.startKey
      r.endKey r.reverseScan = schema.scanIndex s (.entry r.tableName r.indexName) r.startKey
      r.endKey r.reverseScan := rfl
  rw [secondaryRangeScan, if_neg (not_or.mpr ⟨hend, hindex⟩), hscan, validateSecondaryKeyList,
    Option.isSome_iff_ne_none.mpr hindex, Bool.true_and]
  cases hvisits : secondaryVisits schema s own r with
  | none =>
    rw [Option.map_eq_none_iff.mp hvisits]
    exact ⟨_, rfl, rfl, by simp⟩
  | some visits =>
    have hclear := secondaryVisits_clear hlocks hvisits
    obtain ⟨keys, hkeys, rfl⟩ := Option.map_eq_some_iff.mp hvisits
    obtain ⟨rows, hrows, hlabels⟩ := appendRows_eq select r.rowLimit
      fun v hv => (hclear v hv).open_withoutLocks
    have hmap : (rows.map fun row =>
        (⟨row.1.1, row.1.2, row.2.1, row.2.2⟩ : SecondaryScanRow)).map
        (fun row => (row.secondaryKey, row.primaryKey)) =
        limited r.rowLimit (liveLabels s (keys.flatMap (entryVisits s own r))) := by
      rw [List.map_map]
      exact hlabels
    have hentries : keys.flatMap (entryRows (withoutLocks s) r.tableName r.indexName) =
        keys.flatMap (entryVisits s own r) :=
      List.flatMap_congr fun secondaryKey _ => entryRows_withoutLocks hlocks secondaryKey
    rw [hkeys]
    dsimp only
    rw [hentries, hrows]
    refine ⟨_, rfl, ⟨rfl, hmap⟩, ?_⟩
    rw [hmap, and_iff_right rfl, Bool.and_eq_true, decide_eq_true_eq, decide_eq_true_eq, and_comm]
    refine and_congr_right fun hlength => ?_
    have hzip : (r.resultKeys.zip r.resultPrimaryKeys).length = r.resultKeys.length := by
      rw [List.length_zip, ← hlength, Nat.min_self]
    rw [← hzip, replay_iff hclear]

end

end Evidence

/-- **Range evidence.** In a state in which nobody but the request holds a lock, each
list of evidence is accepted exactly if the index does not refuse the scan and the list is
what a scan of the same range returns once the request has given its locks back: the live
rows, blank slots and tombstones not counted, cut at the limit. -/
theorem range_evidence_iff (schema : Schema) (s : Store) (own : List ItemId)
    (select : Bytes → Bytes) (r : ExternalRangeReadEntry)
    (hlocks : ∀ item, lockedByAnother s own item = false) (hend : r.endKey ≠ [])
    (htable : schema r.tableName ≠ none) :
    (∃ result, rangeScan schema (withoutLocks s) select r.tableName r.startKey r.endKey r.rowLimit
        r.reverseScan = some result ∧
      result.Shows s r.rowLimit ScanRow.key (primaryVisits schema s r) ∧
      (validatePrimaryKeyList schema s own r = true ↔
        result.ok = true ∧ r.resultKeys = result.rows.map ScanRow.key)) ∧
    ((schema r.tableName).bind (· r.indexName) ≠ none →
      ∃ result, secondaryRangeScan schema (withoutLocks s) select r.tableName r.indexName
          r.startKey r.endKey r.rowLimit r.reverseScan = some result ∧
        result.Shows s r.rowLimit (fun row => (row.secondaryKey, row.primaryKey))
          (secondaryVisits schema s own r) ∧
        (validateSecondaryKeyList schema s own r = true ↔ result.ok = true ∧
          r.resultKeys.length = r.resultPrimaryKeys.length ∧
            r.resultKeys.zip r.resultPrimaryKeys =
              result.rows.map fun row => (row.secondaryKey, row.primaryKey))) :=
  ⟨primary_evidence_iff hlocks select hend htable,
    fun hindex => secondary_evidence_iff hlocks select hend hindex⟩

/-- A blank row and a live one, which the request has locked. -/
def blankAndLive : Store :=
  (((Store.initial.insertBlank (.row [1] [1])).insertBlank (.row [1] [2])).install 1 ⟨[7], []⟩).lock
    (.tx 0) 1

/-- Evidence of the live row under a limit of one. -/
def liveEvidence : ExternalRangeReadEntry :=
  ⟨[1], [], [], [9], 1, false, [[2]], []⟩

theorem range_evidence_iff_live :
    ∃ result, rangeScan oneTable (withoutLocks blankAndLive) id [1] [] [9] 1 false =
        some result ∧
      result.rows.map ScanRow.key = [[2]] ∧
      validatePrimaryKeyList oneTable blankAndLive [1] liveEvidence = true := by
  have hlocks (item : ItemId) : lockedByAnother blankAndLive [1] item = false := by
    by_cases hitem : item = 1
    · rw [hitem]
      rfl
    · have hword : (blankAndLive.item item).word = .empty := by
        simp only [blankAndLive, Store.lock, Store.install, Store.setItem, Store.insertBlank,
          Function.update_apply, hitem, if_false]
        split_ifs <;> rfl
      rw [lockedByAnother, hword, TransactionId.isLocked_empty, Bool.false_and]
  have hvisits : primaryVisits oneTable blankAndLive liveEvidence =
      some [.row 0 [1], .row 1 [2]] := by
    decide +kernel
  have hlive : limited liveEvidence.rowLimit
      (liveLabels blankAndLive [.row 0 ([1] : Bytes), .row 1 [2]]) = [[2]] := by
    decide +kernel
  obtain ⟨⟨result, hresult, hshows, hiff⟩, -⟩ := range_evidence_iff oneTable blankAndLive [1] id
    liveEvidence hlocks (by decide) (by decide)
  rw [hvisits] at hshows
  have hkeys : result.rows.map ScanRow.key = [[2]] := hshows.2.trans hlive
  exact ⟨result, hresult, hkeys, hiff.mpr ⟨hshows.1, hkeys.symm⟩⟩

/-- One table under the default index, which refuses a range that ends before it starts. -/
def refusingTable : Schema :=
  { oneTable with
    scan := fun _ keys startKey endKey reverseScan =>
      if endKey < startKey then none else some (scanKeys keys startKey endKey reverseScan) }

/-- **A refused scan has no evidence.** The rows it returns are none, and no evidence of no rows
is accepted. -/
theorem refused_evidence_rejected :
    ∃ (schema : Schema) (r : ExternalRangeReadEntry),
      (∀ item, lockedByAnother .initial [] item = false) ∧ r.endKey ≠ [] ∧
      schema r.tableName ≠ none ∧
      (rangeScan schema .initial id r.tableName r.startKey r.endKey r.rowLimit r.reverseScan).map
        (fun result => result.rows.map ScanRow.key) = some r.resultKeys ∧
      validatePrimaryKeyList schema .initial [] r = false := by
  refine ⟨refusingTable, ⟨[1], [], [9], [5], 0, false, [], []⟩, fun item => ?_, by decide,
    by decide, by decide +kernel, by decide +kernel⟩
  have hword : (Store.initial.item item).word = .empty := rfl
  rw [lockedByAnother, hword, TransactionId.isLocked_empty, Bool.false_and]

end LineairDB.Stateless
