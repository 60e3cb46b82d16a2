import LineairDB.Silo.Store

/-!
# Two-phase locking

The row lock, the protocol's operations and the transaction layer's `Read` and
`Write` on top of them. A row is changed in place at the first write of a
transaction; what it held is kept to be put back. Later writes of the row only
change the copy in the transaction's write set.

* `values_of_execute` — a committed transaction leaves in every row it wrote
  the value of its first write.
* `last_write_installed_iff` — this is the last value exactly if first and last
  agree; an aborted transaction leaves every row as it was.
-/

namespace LineairDB.TwoPhase

open ByteFile Silo
open Function (update_apply update)

/-! ## The row lock -/

/-- What a transaction asks of a lock. -/
inductive LockType where
  | exclusive
  | shared
  | upgrade
  deriving Repr, DecidableEq

/-- Nobody holds the lock. -/
def unLocked : UInt64 := 0
/-- A writer holds it. -/
def exclusivelyLocked : UInt64 := 1
/-- What each reader adds. -/
def reader : UInt64 := 2
/-- There is no room for another reader. -/
def readersFull : UInt64 := 0xFFFFFFFFFFFFFFFE

/-- The word `TryLock` exchanges the current one for, or nothing where it gives
up. The exchange may fail for no reason that shows in the word. -/
def tryLock : LockType → UInt64 → Option UInt64
  | .shared, w =>
    if w = exclusivelyLocked ∨ ¬ w < readersFull then none else some (w + reader)
  | .exclusive, w => if w ≠ unLocked then none else some exclusivelyLocked
  | .upgrade, w => if w >>> 1 = 1 then some exclusivelyLocked else none

/-- A writer leaves the lock free, a reader takes itself off. -/
def unLock (w : UInt64) : UInt64 := if w = exclusivelyLocked then unLocked else w - reader

/-! ## Rows and transactions -/

/-- A slot's item: whether the index has one, its lock word and its buffer. -/
structure Row where
  present : Bool
  lock : UInt64
  value : Bytes
  deriving Repr, DecidableEq

/-- All rows. -/
abbrev Rows := Slot → Row

/-- The key of a slot. -/
def key : Slot → Bytes
  | .row _ key => key
  | .entry _ _ key => key

/-- Where a transaction is. -/
inductive TxStatus where
  | running
  | committed
  | aborted
  deriving Repr, DecidableEq

/-- The transaction's sets, and those of its protocol: the rows it locked to read
and, with what they held, the rows it changed. -/
structure Tx where
  status : TxStatus
  readSet : List (Slot × Bytes)
  writeSet : List (Slot × Bytes)
  readLockSet : List Slot
  undoSet : List (Slot × Bytes)
  deriving Repr, DecidableEq

/-- A transaction that has done nothing. -/
def Tx.start : Tx := ⟨.running, [], [], [], []⟩

/-- The lock of a row is set. -/
def setLock (rows : Rows) (k : Slot) (w : UInt64) : Rows :=
  update rows k { rows k with lock := w }

/-- The value of a row is set. -/
def setValue (rows : Rows) (k : Slot) (v : Bytes) : Rows :=
  update rows k { rows k with value := v }

/-- The rows with the lock taken. `luck` says whether the exchange succeeds. -/
def acquire (luck : Bool) (type : LockType) (k : Slot) (rows : Rows) : Option Rows :=
  if luck then (tryLock type (rows k).lock).map (setLock rows k) else none

/-! ## The protocol -/

/-- Put back what the changed rows held. -/
def undo (undoSet : List (Slot × Bytes)) (rows : Rows) : Rows :=
  undoSet.foldl (fun rows entry => setValue rows entry.1 entry.2) rows

/-- The locks in the order they are given back. -/
def Tx.locks (tx : Tx) : List Slot := tx.readLockSet ++ tx.undoSet.map Prod.fst

/-- All locks are given back. -/
def unlockAll (tx : Tx) (rows : Rows) : Rows :=
  tx.locks.foldl (fun rows k => setLock rows k (unLock (rows k).lock)) rows

/-- A lock that cannot be had: the changes are undone, and the locks are given
back next. -/
def refuse (rows : Rows) (tx : Tx) : Rows × Tx :=
  (undo tx.undoSet rows, { tx with status := .aborted })

/-- `std::set::emplace` -/
def insertLock (k : Slot) (ks : List Slot) : List Slot := if k ∈ ks then ks else k :: ks

/-- `ReadDirect`: the shared lock, without an entry of the read set. -/
def readDirect (luck : Bool) (k : Slot) (rows : Rows) (tx : Tx) : Rows × Tx :=
  match acquire luck .shared k rows with
  | some rows => (rows, { tx with readLockSet := insertLock k tx.readLockSet })
  | none => refuse rows tx

/-- `Read`, and the entry the transaction layer makes in its read set for the copy;
a refused read has an empty one. -/
def lockRead (luck : Bool) (k : Slot) (rows : Rows) (tx : Tx) : Rows × Tx :=
  match acquire luck .shared k rows with
  | some rows =>
    (rows,
      { tx with
        readLockSet := insertLock k tx.readLockSet
        readSet := tx.readSet ++ [(k, (rows k).value)] })
  | none => refuse rows { tx with readSet := tx.readSet ++ [(k, [])] }

/-- The lock a write asks for: an upgrade if the read set has an entry with the
same key, whatever its table and index. -/
def writeLock (k : Slot) (tx : Tx) : LockType :=
  if tx.readSet.any fun entry => key entry.1 = key k then .upgrade else .exclusive

/-- `Write` of the protocol. -/
def lockWrite (luck : Bool) (k : Slot) (v : Bytes) (rows : Rows) (tx : Tx) : Rows × Tx :=
  match acquire luck (writeLock k tx) k rows with
  | some rows =>
    (setValue rows k v,
      { tx with
        readLockSet := if writeLock k tx = .upgrade then tx.readLockSet.erase k else tx.readLockSet
        undoSet := tx.undoSet ++ [(k, (rows k).value)] })
  | none => refuse rows tx

/-! ## The transaction layer -/

/-- What a transaction asks for, and whether its lock can be exchanged. -/
inductive Op where
  | read (k : Slot) (luck : Bool)
  | write (k : Slot) (v : Bytes) (luck : Bool)
  deriving Repr, DecidableEq

/-- There is an entry for the slot. -/
def hasEntry (k : Slot) (set : List (Slot × Bytes)) : Bool := set.any fun entry => entry.1 = k

/-- The copy of a row written before is overwritten. -/
def bufferWrite (k : Slot) (v : Bytes) (writeSet : List (Slot × Bytes)) : List (Slot × Bytes) :=
  writeSet.map fun entry => if entry.1 = k then (k, v) else entry

/-- Give the locks back where the operation ended the transaction. -/
def settle (result : Rows × Tx) : Rows × Tx :=
  if result.2.status = .aborted then (unlockAll result.2 result.1, result.2) else result

/-- One operation, which does nothing once the transaction is aborted. -/
def Op.apply (state : Rows × Tx) (op : Op) : Rows × Tx :=
  let (rows, tx) := state
  if tx.status = .aborted then state
  else
    match op with
    | .read k luck =>
      -- own writes and earlier reads answer from their copies
      if hasEntry k tx.writeSet ∨ hasEntry k tx.readSet then state
      else if (rows k).present then settle (lockRead luck k rows tx)
      else state
    | .write k v luck =>
      if hasEntry k tx.writeSet then
        (rows, { tx with writeSet := bufferWrite k v tx.writeSet })
      else
        -- GetOrInsert
        let rows := update rows k { rows k with present := true }
        let (rows, tx) := settle (lockWrite luck k v rows tx)
        (rows, { tx with writeSet := tx.writeSet ++ [(k, v)] })

/-- How a transaction ends. -/
inductive Ending where
  | commit
  | abort
  deriving Repr, DecidableEq

/-- The end of a transaction that has not been aborted before. -/
def finish (ending : Ending) (state : Rows × Tx) : Rows × Tx :=
  let (rows, tx) := state
  if tx.status = .aborted then state
  else
    match ending with
    | .commit => (unlockAll tx rows, { tx with status := .committed })
    | .abort => (unlockAll tx (undo tx.undoSet rows), { tx with status := .aborted })

/-- A transaction from its start to its end. -/
def execute (rows : Rows) (ops : List Op) (ending : Ending) : Rows × Tx :=
  finish ending (ops.foldl Op.apply (rows, .start))

/-- The values written to a slot, in order. -/
def writesOf (k : Slot) (ops : List Op) : List Bytes :=
  ops.filterMap fun op =>
    match op with
    | .write k' v _ => if k' = k then some v else none
    | .read _ _ => none

/-! ## Values -/

section Values

variable {rows rows' : Rows} {tx : Tx} {k : Slot}

@[simp] theorem value_setLock (rows : Rows) (k k' : Slot) (w : UInt64) :
    (setLock rows k w k').value = (rows k').value := by
  rw [setLock, update_apply]
  split_ifs with h
  · rw [h]
  · rfl

theorem value_setValue (rows : Rows) (k k' : Slot) (v : Bytes) :
    (setValue rows k v k').value = if k' = k then v else (rows k').value := by
  rw [setValue, update_apply]
  split_ifs <;> rfl

theorem value_unlockAll (tx : Tx) (rows : Rows) (k : Slot) :
    (unlockAll tx rows k).value = (rows k).value := by
  rw [unlockAll]
  generalize tx.locks = locks
  induction locks generalizing rows with
  | nil => rfl
  | cons l locks ih => rw [List.foldl_cons, ih, value_setLock]

theorem value_acquire {luck : Bool} {type : LockType} {k' : Slot}
    (h : acquire luck type k rows = some rows') : (rows' k').value = (rows k').value := by
  unfold acquire at h
  split_ifs at h
  obtain ⟨w, -, rfl⟩ := Option.map_eq_some_iff.mp h
  exact value_setLock rows k k' w

theorem value_undo_of_not_mem {undoSet : List (Slot × Bytes)} (h : k ∉ undoSet.map Prod.fst) :
    (undo undoSet rows k).value = (rows k).value := by
  rw [undo]
  induction undoSet generalizing rows with
  | nil => rfl
  | cons entry rest ih =>
    rw [List.map_cons, List.mem_cons, not_or] at h
    rw [List.foldl_cons, ih h.2, value_setValue, if_neg h.1]

/-- Undoing puts back what the changed rows held. -/
theorem value_undo {undoSet : List (Slot × Bytes)} (old : Slot → Bytes)
    (hold : ∀ entry ∈ undoSet, entry.2 = old entry.1) (h : k ∈ undoSet.map Prod.fst) :
    (undo undoSet rows k).value = old k := by
  induction undoSet generalizing rows with
  | nil => cases h
  | cons entry rest ih =>
    have hrest : ∀ e ∈ rest, e.2 = old e.1 := fun e he => hold e (.tail _ he)
    by_cases hmem : k ∈ rest.map Prod.fst
    · exact ih hrest hmem
    · have hk : k = entry.1 := (List.mem_cons.mp h).resolve_right hmem
      have hlast : undo (entry :: rest) rows = undo rest (setValue rows entry.1 entry.2) := rfl
      rw [hlast, value_undo_of_not_mem hmem, value_setValue, if_pos hk, hk]
      exact hold entry (.head _)

end Values

/-! ## Runs of one transaction -/

section Transaction

variable {rows₀ rows : Rows} {tx : Tx} {ops : List Op}

/-- What the rows hold while a transaction runs: the first value written, or what
they held before. -/
structure Running (rows₀ : Rows) (ops : List Op) (rows : Rows) (tx : Tx) : Prop where
  status : tx.status = .running
  same : tx.writeSet.map Prod.fst = tx.undoSet.map Prod.fst
  old : ∀ entry ∈ tx.undoSet, entry.2 = (rows₀ entry.1).value
  kept : ∀ k, k ∉ tx.undoSet.map Prod.fst →
    (rows k).value = (rows₀ k).value ∧ writesOf k ops = []
  first : ∀ k, k ∈ tx.undoSet.map Prod.fst → (writesOf k ops).head? = some (rows k).value

/-- The transaction runs, or was aborted and has left every row as it was. -/
def Ran (rows₀ : Rows) (ops : List Op) (state : Rows × Tx) : Prop :=
  Running rows₀ ops state.1 state.2 ∨
    state.2.status = .aborted ∧ ∀ k, (state.1 k).value = (rows₀ k).value

theorem writesOf_concat (k : Slot) (ops : List Op) (op : Op) :
    writesOf k (ops ++ [op]) = writesOf k ops ++ writesOf k [op] := List.filterMap_append

theorem hasEntry_eq_true {k : Slot} {set : List (Slot × Bytes)} :
    hasEntry k set = true ↔ k ∈ set.map Prod.fst := by
  simp [hasEntry]

theorem map_fst_bufferWrite (k : Slot) (v : Bytes) (set : List (Slot × Bytes)) :
    (bufferWrite k v set).map Prod.fst = set.map Prod.fst := by
  rw [bufferWrite, List.map_map]
  refine List.map_congr_left fun entry _ => ?_
  simp only [Function.comp_apply]
  split_ifs with h
  · exact h.symm
  · rfl

section

variable (h : Running rows₀ ops rows tx) (k : Slot)

include h k

/-- Undoing a running transaction leaves every row as it was. -/
theorem Running.value_undo : (undo tx.undoSet rows k).value = (rows₀ k).value := by
  by_cases hk : k ∈ tx.undoSet.map Prod.fst
  · exact TwoPhase.value_undo (fun k => (rows₀ k).value) h.old hk
  · rw [value_undo_of_not_mem hk]
    exact (h.kept k hk).1

omit h k in
theorem settle_refuse (rows : Rows) (tx : Tx) :
    settle (refuse rows tx) =
      (unlockAll tx (undo tx.undoSet rows), { tx with status := .aborted }) := by
  rfl

omit h k in
theorem settle_of_running {rows : Rows} {tx : Tx} (h : tx.status = .running) :
    settle (rows, tx) = (rows, tx) := by
  simp [settle, h]

/-- A lock that is refused leaves every row as it was. -/
theorem Running.refused : (unlockAll tx (undo tx.undoSet rows) k).value = (rows₀ k).value := by
  rw [value_unlockAll]
  exact h.value_undo k

theorem Running.read (luck : Bool) :
    Ran rows₀ (ops ++ [.read k luck]) (Op.apply (rows, tx) (.read k luck)) := by
  have hwrites (k' : Slot) : writesOf k' (ops ++ [.read k luck]) = writesOf k' ops := by
    rw [writesOf_concat]
    exact List.append_nil _
  have hstays : Ran rows₀ (ops ++ [.read k luck]) (rows, tx) := by
    refine .inl ⟨h.status, h.same, h.old, ?_, ?_⟩
    · intro k' hk'
      rw [hwrites]
      exact h.kept k' hk'
    · intro k' hk'
      rw [hwrites]
      exact h.first k' hk'
  simp only [Op.apply, h.status, reduceCtorEq, if_false]
  split_ifs with hown hpresent
  · exact hstays
  · rw [lockRead]
    cases hlock : acquire luck .shared k rows with
    | none =>
      rw [settle_refuse]
      exact .inr ⟨rfl, h.refused⟩
    | some =>
      rw [settle_of_running (by exact h.status)]
      refine .inl ⟨h.status, h.same, h.old, ?_, ?_⟩
      · intro k' hk'
        rw [hwrites, value_acquire hlock]
        exact h.kept k' hk'
      · intro k' hk'
        rw [hwrites, value_acquire hlock]
        exact h.first k' hk'
  · exact hstays

theorem Running.write (v : Bytes) (luck : Bool) :
    Ran rows₀ (ops ++ [.write k v luck]) (Op.apply (rows, tx) (.write k v luck)) := by
  have hself : writesOf k (ops ++ [.write k v luck]) = writesOf k ops ++ [v] := by
    rw [writesOf_concat]
    simp [writesOf]
  have hother {k' : Slot} (hne : k' ≠ k) :
      writesOf k' (ops ++ [.write k v luck]) = writesOf k' ops := by
    rw [writesOf_concat]
    simp [writesOf, hne.symm]
  simp only [Op.apply, h.status, reduceCtorEq, if_false]
  split_ifs with hown
  · -- the row keeps the first value, the copy takes the new one
    have hmem : k ∈ tx.undoSet.map Prod.fst := by
      rw [← h.same]
      exact hasEntry_eq_true.mp hown
    refine .inl ⟨rfl, ?_, h.old, ?_, ?_⟩
    · rw [← h.same]
      exact map_fst_bufferWrite k v tx.writeSet
    · intro k' hk'
      rw [hother (ne_of_mem_of_not_mem hmem hk').symm]
      exact h.kept k' hk'
    · intro k' hk'
      have hfirst := h.first k' hk'
      by_cases hk : k' = k
      · subst hk
        rw [hself, List.head?_append, hfirst]
        rfl
      · rwa [hother hk]
  · have hnew : k ∉ tx.undoSet.map Prod.fst := by
      rw [← h.same]
      exact fun hmem => hown (hasEntry_eq_true.mpr hmem)
    -- GetOrInsert changes no value
    generalize hcreated : update rows k { rows k with present := true } = created
    have hvalue (k' : Slot) : (created k').value = (rows k').value := by
      rw [← hcreated, update_apply]
      split_ifs with hk
      · rw [hk]
      · rfl
    have hrunning : Running rows₀ ops created tx := by
      refine ⟨h.status, h.same, h.old, ?_, ?_⟩
      · intro k' hk'
        rw [hvalue]
        exact h.kept k' hk'
      · intro k' hk'
        rw [hvalue]
        exact h.first k' hk'
    rw [lockWrite]
    cases hlock : acquire luck (writeLock k tx) k created with
    | none =>
      rw [settle_refuse]
      exact .inr ⟨rfl, hrunning.refused⟩
    | some =>
      rw [settle_of_running (by exact h.status)]
      refine .inl ⟨h.status, ?_, ?_, ?_, ?_⟩
      · simp only [List.map_append, h.same]
        rfl
      · refine forall_mem_concat.mpr ⟨h.old, ?_⟩
        rw [value_acquire hlock]
        exact (hrunning.kept k hnew).1
      · intro k' hk'
        rw [List.map_append, List.mem_append, not_or] at hk'
        have hne : k' ≠ k := by simpa using hk'.2
        rw [hother hne, value_setValue, if_neg hne, value_acquire hlock]
        exact hrunning.kept k' hk'.1
      · intro k' hk'
        rw [value_setValue]
        by_cases hk : k' = k
        · subst hk
          rw [if_pos rfl, hself, (h.kept k' hnew).2]
          rfl
        · rw [if_neg hk, hother hk, value_acquire hlock]
          refine hrunning.first k' ?_
          simpa [hk] using hk'

end

/-- Every operation keeps the rows as the run so far says. -/
theorem Ran.apply {state : Rows × Tx} (h : Ran rows₀ ops state) (op : Op) :
    Ran rows₀ (ops ++ [op]) (Op.apply state op) := by
  rcases h with h | ⟨haborted, hvalues⟩
  · cases op with
    | read k luck => exact h.read k luck
    | write k v luck => exact h.write k v luck
  · have hstays : Op.apply state op = state := by
      simp only [Op.apply, haborted, if_true]
    rw [hstays]
    exact .inr ⟨haborted, hvalues⟩

theorem ran_run (rows₀ : Rows) (ops : List Op) :
    Ran rows₀ ops (ops.foldl Op.apply (rows₀, .start)) := by
  induction ops using List.reverseRecOn with
  | nil =>
    refine .inl ⟨rfl, rfl, ?_, fun k _ => ⟨rfl, rfl⟩, ?_⟩
    · intro entry hentry
      cases hentry
    · intro k hk
      cases hk
  | append_singleton ops op ih =>
    rw [List.foldl_append]
    exact ih.apply op

/-- A committed transaction has left its first value in every row it wrote, and an
aborted one has changed nothing. -/
theorem values_of_execute (rows₀ : Rows) (ops : List Op) (ending : Ending) :
    (execute rows₀ ops ending).2.status = .committed ∧
        (∀ k, ((execute rows₀ ops ending).1 k).value =
          ((writesOf k ops).head?).getD (rows₀ k).value) ∨
      (execute rows₀ ops ending).2.status = .aborted ∧
        ∀ k, ((execute rows₀ ops ending).1 k).value = (rows₀ k).value := by
  rw [execute]
  rcases ran_run rows₀ ops with hrunning | ⟨haborted, hvalues⟩
  · generalize ops.foldl Op.apply (rows₀, .start) = state at hrunning
    obtain ⟨rows, tx⟩ := state
    have hstatus : ¬ tx.status = .aborted := by
      rw [hrunning.status]
      exact TxStatus.noConfusion
    cases ending with
    | commit =>
      left
      simp only [finish, if_neg hstatus, true_and]
      intro k
      rw [value_unlockAll]
      by_cases hk : k ∈ tx.undoSet.map Prod.fst
      · rw [hrunning.first k hk]
        rfl
      · rw [(hrunning.kept k hk).1, (hrunning.kept k hk).2]
        rfl
    | abort =>
      right
      simp only [finish, if_neg hstatus, true_and]
      exact hrunning.refused
  · right
    have hstays : finish ending (ops.foldl Op.apply (rows₀, .start)) =
        ops.foldl Op.apply (rows₀, .start) := by
      simp only [finish, haborted, if_true]
    rw [hstays]
    exact ⟨haborted, hvalues⟩

/-- **What a transaction leaves behind.** A committed one has left its last value in
every row it wrote exactly if, of every row, its first and its last value are the
same: the row was changed at the first write, and later ones changed the copy in the
write set. An aborted one has left every row as it was. -/
theorem last_write_installed_iff (rows₀ : Rows) (ops : List Op) (ending : Ending) :
    let result := execute rows₀ ops ending
    if result.2.status = .committed then
      (∀ k v, (writesOf k ops).getLast? = some v → (result.1 k).value = v) ↔
        ∀ k, (writesOf k ops).head? = (writesOf k ops).getLast?
    else ∀ k, (result.1 k).value = (rows₀ k).value := by
  intro result
  rcases values_of_execute rows₀ ops ending with ⟨hstatus, hvalues⟩ | ⟨hstatus, hvalues⟩
  · rw [if_pos hstatus]
    constructor
    · intro hlast k
      cases hwrites : (writesOf k ops).getLast? with
      | none =>
        rw [List.getLast?_eq_none_iff.mp hwrites]
        rfl
      | some v =>
        have hvalue := hlast k v hwrites
        obtain ⟨w, hw⟩ : ∃ w, (writesOf k ops).head? = some w := by
          cases hhead : (writesOf k ops).head? with
          | none =>
            rw [List.head?_eq_none_iff.mp hhead] at hwrites
            cases hwrites
          | some w => exact ⟨w, rfl⟩
        rw [hvalues k, hw] at hvalue
        rw [hw]
        exact congrArg some hvalue
    · intro hsame k v hwrites
      rw [hvalues k, hsame k, hwrites]
      rfl
  · have hnot : ¬ result.2.status = .committed := by
      rw [hstatus]
      exact TxStatus.noConfusion
    rw [if_neg hnot]
    exact hvalues

end Transaction

/-! ## A row written twice -/

/-- A row. -/
def anyRow : Slot := .row [1] [1]

/-- One and then two are written to a row, which is then read and committed. -/
def twoWrites : List Op := [.write anyRow [1] true, .write anyRow [2] true, .read anyRow true]

/-- The row holds the first value once the transaction has committed. -/
theorem first_write_committed :
    (execute (fun _ => ⟨true, 0, [0]⟩) twoWrites .commit).2.status = .committed ∧
      (writesOf anyRow twoWrites).getLast? = some [2] ∧
      ((execute (fun _ => ⟨true, 0, [0]⟩) twoWrites .commit).1 anyRow).value = [1] := by
  decide

end LineairDB.TwoPhase
