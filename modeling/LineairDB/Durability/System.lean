import LineairDB.Library.Transition
import LineairDB.Recovery.Append
import LineairDB.Recovery.RecoverySet

/-!
# Group commit

The threads that commit, the epoch writer and the flusher, as one system of
atomic steps over what they share: the global epoch, one epoch slot and one
record buffer per thread, the target handed to the flusher, the write-ahead
log and the durable epoch it publishes.

Beside the program's own variables the state keeps four lists no thread
reads: the records ever enqueued, the buckets of the appends that reported
success, the records a throwing flusher dropped, and the records whose
commits were acknowledged as durable.
-/

namespace LineairDB.Recovery

open ByteFile

/-! ## Carried buckets -/

/-- `carry_[record.epoch].emplace_back(record)` on the ordered entries. -/
def insertRecord (record : LogRecord) :
    List (EpochNumber × LogRecords) → List (EpochNumber × LogRecords)
  | [] => [(record.epoch, [record])]
  | (epoch, records) :: rest =>
    if record.epoch < epoch then (record.epoch, [record]) :: (epoch, records) :: rest
    else if record.epoch = epoch then (epoch, records ++ [record]) :: rest
    else (epoch, records) :: insertRecord record rest

theorem fst_of_mem_insertRecord {record : LogRecord} {entries : List (EpochNumber × LogRecords)}
    {b : EpochNumber × LogRecords} (h : b ∈ insertRecord record entries) :
    b.1 = record.epoch ∨ ∃ c ∈ entries, c.1 = b.1 := by
  induction entries with
  | nil =>
    rw [insertRecord, List.mem_singleton] at h
    exact .inl (h ▸ rfl)
  | cons c rest ih =>
    rw [insertRecord] at h
    split_ifs at h
    · rcases List.mem_cons.mp h with rfl | h
      · exact .inl rfl
      · exact .inr ⟨b, h, rfl⟩
    · rcases List.mem_cons.mp h with rfl | h
      · exact .inr ⟨c, .head _, rfl⟩
      · exact .inr ⟨b, .tail _ h, rfl⟩
    · rcases List.mem_cons.mp h with rfl | h
      · exact .inr ⟨_, .head _, rfl⟩
      · rcases ih h with heq | ⟨d, hd, heq⟩
        · exact .inl heq
        · exact .inr ⟨d, .tail _ hd, heq⟩

theorem insertRecord_ascending (record : LogRecord) {entries : List (EpochNumber × LogRecords)}
    (h : entries.Pairwise (fun a b => a.1 < b.1)) :
    (insertRecord record entries).Pairwise (fun a b => a.1 < b.1) := by
  induction entries with
  | nil => simp [insertRecord]
  | cons c rest ih =>
    obtain ⟨hhead, htail⟩ := List.pairwise_cons.mp h
    rw [insertRecord]
    split_ifs with hlt heq
    · exact List.pairwise_cons.mpr ⟨List.forall_mem_cons.mpr
        ⟨hlt, fun b hb => UInt32.lt_trans hlt (hhead b hb)⟩, h⟩
    · exact List.pairwise_cons.mpr ⟨hhead, htail⟩
    · refine List.pairwise_cons.mpr ⟨fun b hb => ?_, ih htail⟩
      rcases fst_of_mem_insertRecord hb with hb | ⟨d, hd, hb⟩
      · rw [hb]
        exact UInt32.lt_of_le_of_ne (UInt32.not_lt.mp hlt) (Ne.symm heq)
      · rw [← hb]
        exact hhead d hd

namespace Buckets

/-- Bucket one more record. -/
def add (buckets : Buckets) (record : LogRecord) : Buckets :=
  ⟨insertRecord record buckets.entries, insertRecord_ascending record buckets.ascending⟩

/-- Bucket the records of one drained buffer, in order. -/
def addAll (buckets : Buckets) (records : LogRecords) : Buckets := records.foldl add buckets

/-- Drop the buckets at or below `target`. -/
def eraseThrough (buckets : Buckets) (target : EpochNumber) : Buckets :=
  ⟨buckets.entries.dropWhile (fun b => b.1 ≤ target),
    buckets.ascending.sublist (List.dropWhile_sublist _)⟩

/-- No record. -/
def empty : Buckets := ⟨[], List.Pairwise.nil⟩

end Buckets

end LineairDB.Recovery

namespace LineairDB.Durability

open Recovery ByteFile FaultyIo
open Function (update)

/-! ## The shared state -/

/-- The slot value of a thread that takes part in no epoch. -/
def threadOffline : EpochNumber := 4294967295

/-- Where the epoch writer stops the process rather than advance. -/
def kEpochHighWater : EpochNumber := threadOffline - (1 : EpochNumber) <<< 20

/-- Threads are numbered. -/
abbrev ThreadId := ℕ

/-- A committing thread. `loaded` and `stored` are inside the loop of
`MakeMeOnline`; the records are those of the session. -/
inductive Thread where
  | offline
  | loaded (published : EpochNumber)
  | stored (published : EpochNumber)
  | online (epoch : EpochNumber) (records : LogRecords)
  | awaiting (epoch : EpochNumber) (records : LogRecords)
  deriving Repr, DecidableEq

/-- The epoch writer: between two ticks, inside `GetSmallestEpoch` with the
slots still to be read and the minimum so far, or about to hand an advance
to the logger. -/
inductive Writer where
  | idle
  | scanning (forced : Bool) (rest : List ThreadId) (minEpoch : EpochNumber)
  | publishing (updated minEpoch : EpochNumber)
  | exited
  deriving Repr, DecidableEq

/-- The flusher: waiting for work, with a target taken, inside `FlushThrough`
with the buffers still to be drained, after a successful append, after a
failed one, or gone. -/
inductive Flusher where
  | waiting
  | collecting (target : EpochNumber)
  | draining (target durableBefore : EpochNumber) (rest : List ThreadId)
  | publishing (target : EpochNumber)
  | failing (errorNumber : Errno)
  | exited
  deriving Repr, DecidableEq

/-- Whether the logger still takes records. -/
inductive LoggerState where
  | running
  | failed
  | stopped
  deriving Repr, DecidableEq

/-- Why the process stopped. -/
inductive Abort where
  | lateRecord
  | unreadyAppend
  | durableBackwards
  | notDurable
  | epochHighWater
  | failStop
  deriving Repr, DecidableEq

/-- The clock, the threads, the logger and the log. -/
structure State where
  globalEpoch : EpochNumber
  /-- The threads that own an epoch slot, newest first. -/
  slots : List ThreadId
  slot : ThreadId → EpochNumber
  writer : Writer
  epochStop : Bool
  thread : ThreadId → Thread
  /-- The threads that own a record buffer, newest first. -/
  nodes : List ThreadId
  queue : ThreadId → LogRecords
  carry : Buckets
  wal : Wal
  dev : Device
  pendingClosed : EpochNumber
  stopRequested : Bool
  failed : Bool
  flusher : Flusher
  durableEpoch : EpochNumber
  loggerState : LoggerState
  processFailStop : Bool
  aborted : Option Abort
  enqueued : LogRecords
  synced : List (EpochNumber × LogRecords)
  dropped : LogRecords
  acknowledged : LogRecords

/-- The process ends. -/
def State.abort (s : State) (reason : Abort) : State := { s with aborted := some reason }

/-! ## Committing threads -/

/-- Steps of a thread. -/
inductive ThreadAction where
  | registerSlot
  | loadEpoch
  | storeEpoch
  | reloadEpoch
  | registerNode
  | enqueue (ws : List Snapshot)
  | makeMeOffline (sync : Bool)
  | awaitCommitDurability
  deriving Repr, DecidableEq

/-- `MakeMeOnline`, `Enqueue`, `MakeMeOffline` and `AwaitCommitDurability`, one
atomic access at a time. -/
def threadStep (s : State) (t : ThreadId) : ThreadAction → Option State
  | .registerSlot =>
    -- the slot is created offline and pushed in front of the list
    if s.thread t = .offline ∧ t ∉ s.slots then
      some { s with slots := t :: s.slots, slot := update s.slot t threadOffline }
    else none
  | .loadEpoch =>
    if s.thread t = .offline ∧ t ∈ s.slots then
      some { s with thread := update s.thread t (.loaded s.globalEpoch) }
    else none
  | .storeEpoch =>
    match s.thread t with
    | .loaded published =>
      some { s with
        slot := update s.slot t published
        thread := update s.thread t (.stored published) }
    | _ => none
  | .reloadEpoch =>
    match s.thread t with
    | .stored published =>
      some { s with
        thread := update s.thread t
          (if s.globalEpoch = published then .online published [] else .loaded s.globalEpoch) }
    | _ => none
  | .registerNode => if t ∉ s.nodes then some { s with nodes := t :: s.nodes } else none
  | .enqueue ws =>
    match s.thread t with
    | .online epoch records =>
      let record := logRecord ws epoch
      -- a write set that produces nothing to persist is not buffered
      if record.keyValuePairs = [] then some s
      else if t ∈ s.nodes then
        some { s with
          queue := update s.queue t (s.queue t ++ [record])
          thread := update s.thread t (.online epoch (records ++ [record]))
          enqueued := s.enqueued ++ [record] }
      else none
    | _ => none
  | .makeMeOffline sync =>
    match s.thread t with
    | .online epoch records =>
      some { s with
        slot := update s.slot t threadOffline
        thread := update s.thread t
          (if sync = true ∧ records ≠ [] then .awaiting epoch records else .offline) }
    | _ => none
  | .awaitCommitDurability =>
    match s.thread t with
    | .awaiting epoch records =>
      if epoch ≤ s.durableEpoch then
        some { s with
          thread := update s.thread t .offline
          acknowledged := s.acknowledged ++ records }
      else if s.loggerState ≠ .running then some (s.abort .notDurable)
      else none
    | _ => none

/-! ## The epoch writer -/

/-- Steps of the epoch writer. -/
inductive WriterAction where
  | tick (forced : Bool)
  | loadSlot
  | advance
  | eventsOnEpochIsUpdated
  | stop
  deriving Repr, DecidableEq

/-- After stopping, the writer leaves once a scan found every thread offline. -/
def Writer.next (epochStop : Bool) (minEpoch : EpochNumber) : Writer :=
  if epochStop = true ∧ minEpoch = threadOffline then .exited else .idle

/-- Keep the highest closed epoch, unless the flusher is on its way out. -/
def scheduleFlush (s : State) (closed : EpochNumber) : State :=
  if s.stopRequested = true ∨ s.failed = true then s
  else if s.pendingClosed < closed then { s with pendingClosed := closed } else s

/-- `EpochWriterJob`: the scan of `GetSmallestEpoch` reads one slot at a time. -/
def writerStep (s : State) : WriterAction → Option State
  | .tick forced =>
    match s.writer with
    | .idle => some { s with writer := .scanning forced s.slots threadOffline }
    | _ => none
  | .loadSlot =>
    match s.writer with
    | .scanning forced (t :: rest) minEpoch =>
      let e := s.slot t
      some { s with
        writer := .scanning forced rest (if 0 < e ∧ e < minEpoch then e else minEpoch) }
    | _ => none
  | .advance =>
    match s.writer with
    | .scanning forced [] minEpoch =>
      let oldEpoch := s.globalEpoch
      if forced = true ∧ s.epochStop = false ∧ kEpochHighWater ≤ oldEpoch then
        some { s with writer := .idle }
      else if minEpoch = threadOffline ∨ minEpoch = oldEpoch then
        if kEpochHighWater ≤ oldEpoch then some (s.abort .epochHighWater)
        else
          some { s with
            globalEpoch := oldEpoch + 1
            writer := .publishing (oldEpoch + 1) minEpoch }
      else some { s with writer := Writer.next s.epochStop minEpoch }
    | _ => none
  | .eventsOnEpochIsUpdated =>
    match s.writer with
    | .publishing updated minEpoch =>
      -- U-2 is the newest epoch that is certainly closed
      let s' := if 3 ≤ updated then scheduleFlush s (updated - 2) else s
      some { s' with writer := Writer.next s.epochStop minEpoch }
    | _ => none
  | .stop => some { s with epochStop := true }

/-! ## The flusher -/

/-- Steps of the flusher. -/
inductive FlusherAction where
  | beginRound
  | collect
  | drain (throwsAfter : Option ℕ)
  | append (dev : Device)
  | appendThrows
  | publish
  | publishFailure
  | requestStop
  | publishStopped
  deriving Repr, DecidableEq

/-- `FlusherLoop` and `FlushThrough`. An append runs against whatever the
device does from here on: only the file is fixed. -/
def flusherStep (mp : Msgpack) (s : State) : FlusherAction → Option State
  | .beginRound =>
    match s.flusher with
    | .waiting =>
      if s.stopRequested = true ∨ s.failed = true ∨ s.durableEpoch < s.pendingClosed then
        if s.failed = true then some { s with flusher := .exited }
        else if s.durableEpoch < s.pendingClosed then
          some { s with flusher := .collecting s.pendingClosed }
        else some { s with flusher := .exited }
      else none
    | _ => none
  | .collect =>
    match s.flusher with
    | .collecting target => some { s with flusher := .draining target s.durableEpoch s.nodes }
    | _ => none
  | .drain throwsAfter =>
    match s.flusher with
    | .draining target durableBefore (t :: rest) =>
      let swapped := s.queue t
      let bucketed := swapped.take (throwsAfter.getD swapped.length)
      if bucketed.any (fun record => record.epoch ≤ durableBefore) then
        some (s.abort .lateRecord)
      else
        some { s with
          queue := update s.queue t []
          carry := s.carry.addAll bucketed
          dropped := s.dropped ++ swapped.drop (throwsAfter.getD swapped.length)
          flusher :=
            if throwsAfter.isSome then .failing .eio else .draining target durableBefore rest }
    | _ => none
  | .append dev =>
    match s.flusher with
    | .draining target _ [] =>
      if dev.file = s.dev.file then
        let appended := appendGroup mp s.wal dev s.carry target
        let s' := { s with wal := appended.wal, dev := appended.dev }
        match appended.result with
        | .ok =>
          some { s' with
            carry := s.carry.eraseThrough target
            synced := s.synced ++ s.carry.upTo target
            flusher := .publishing target }
        | .error e => some { s' with flusher := .failing e }
        | .abort => some (s'.abort .unreadyAppend)
      else none
    | _ => none
  | .appendThrows =>
    match s.flusher with
    | .draining _ _ [] => some { s with flusher := .failing .eio }
    | _ => none
  | .publish =>
    match s.flusher with
    | .publishing target =>
      if target < s.durableEpoch then some (s.abort .durableBackwards)
      else if s.loggerState ≠ .running then some { s with flusher := .waiting }
      else some { s with durableEpoch := target, flusher := .waiting }
    | _ => none
  | .publishFailure =>
    match s.flusher with
    | .failing _ =>
      let s' := { s with failed := true, loggerState := .failed, flusher := .exited }
      if s.processFailStop = true then some (s'.abort .failStop) else some s'
    | _ => none
  | .requestStop => some { s with stopRequested := true }
  | .publishStopped =>
    if s.flusher = .exited then
      some { s with loggerState := if s.loggerState = .running then .stopped else s.loggerState }
    else none

/-! ## The system -/

/-- One step of anybody. -/
inductive Action where
  | thread (t : ThreadId) (a : ThreadAction)
  | writer (a : WriterAction)
  | flusher (a : FlusherAction)
  deriving Repr, DecidableEq

/-- One atomic step of one of the parties; a stopped process takes none. -/
def step (mp : Msgpack) (s : State) (a : Action) : Option State :=
  if s.aborted.isSome then none
  else
    match a with
    | .thread t a => threadStep s t a
    | .writer a => writerStep s a
    | .flusher a => flusherStep mp s a

/-- The first epoch it is safe to resume at above a recovered frontier;
`none` when the process refuses to start. -/
def resumeEpochAbove (frontier : EpochNumber) : Option EpochNumber :=
  if kEpochHighWater - 1 ≤ frontier then none else some (frontier + 1)

/-- The global epoch a startup may resume at: a log without frames leaves the
counter at one, any other resumes above the highest epoch found. -/
def Resumed (frontier globalEpoch : EpochNumber) : Prop :=
  frontier = 0 ∧ globalEpoch = 1 ∨
    ∃ highest, frontier ≤ highest ∧ resumeEpochAbove highest = some globalEpoch

/-- The system when the flusher and the epoch writer start: the log has been
scanned, its frontier is the durable epoch, and no thread is in an epoch. -/
def boot (wal : Wal) (dev : Device) (globalEpoch : EpochNumber) (slots : List ThreadId)
    (processFailStop : Bool) : State where
  globalEpoch := globalEpoch
  slots := slots
  slot := fun _ => threadOffline
  writer := .idle
  epochStop := false
  thread := fun _ => .offline
  nodes := []
  queue := fun _ => []
  carry := Buckets.empty
  wal := wal
  dev := dev
  pendingClosed := 0
  stopRequested := false
  failed := false
  flusher := .waiting
  durableEpoch := wal.frontier
  loggerState := .running
  processFailStop := processFailStop
  aborted := none
  enqueued := []
  synced := []
  dropped := []
  acknowledged := []

end LineairDB.Durability
