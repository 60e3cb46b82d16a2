import Mathlib.Data.List.TakeWhile
import LineairDB.Library.ByteFile
import LineairDB.Types

/-!
# The range index

The ordered index of the precision-locking backend. A key is not put into the
container, or marked there as deleted, by the transaction that inserts or deletes
it: the transaction queues an event under the epoch it runs in, and a manager
thread applies what is older than two epochs. Scans leave predicates behind, and
insertions, deletions and scans refuse each other as long as the predicate or the
event is there.

* `settled` — what the container will say of a key once every queued event has been
  applied; the manager leaves it alone.
* `settled_push` — an event decides it, if it comes last among the key's.
-/

namespace LineairDB.Precision

open ByteFile

variable {α : Type} {l : List (EpochNumber × α)}

/-! ## Events and predicates -/

/-- A key that appears or vanishes. -/
structure InsertOrDeleteEvent where
  key : Bytes
  isDeleteEvent : Bool
  txContext : ℕ
  deriving Repr, DecidableEq

/-- A range that was scanned. -/
structure Predicate where
  beginKey : Bytes
  endKey : Option Bytes
  txContext : ℕ
  deriving Repr, DecidableEq

/-- The key is in the range, which is open to the right or has no end. -/
def inRange (beginKey : Bytes) (endKey : Option Bytes) (key : Bytes) : Bool :=
  beginKey ≤ key && endKey.all fun e => key < e

/-- Append to the vector of an epoch, in a map that is gone through in the order of its
epochs. -/
def queue {α : Type} (epoch : EpochNumber) (x : α) (l : List (EpochNumber × α)) :
    List (EpochNumber × α) :=
  l.takeWhile (fun y => y.1 ≤ epoch) ++ (epoch, x) :: l.dropWhile fun y => y.1 ≤ epoch

/-- The lists of predicates and of events, and the container with whether each of its keys
is deleted. -/
structure RangeIndex where
  predicateList : List (EpochNumber × Predicate)
  insertOrDeleteKeySet : List (EpochNumber × InsertOrDeleteEvent)
  container : Bytes → Option Bool
  /-- Every key the container has. -/
  keys : List Bytes

namespace RangeIndex

/-- Nothing is shown, and nothing queued. -/
def empty : RangeIndex := ⟨[], [], fun _ => none, []⟩

/-- A predicate of another transaction covers the key. -/
def isInPredicateSet (r : RangeIndex) (txContext : ℕ) (key : Bytes) : Bool :=
  r.predicateList.any fun p =>
    p.2.txContext ≠ txContext && inRange p.2.beginKey p.2.endKey key

/-- An event of another transaction lies in the range. -/
def isOverlapWithInsertOrDelete (r : RangeIndex) (txContext : ℕ) (beginKey : Bytes)
    (endKey : Option Bytes) : Bool :=
  r.insertOrDeleteKeySet.any fun e =>
    e.2.txContext ≠ txContext && inRange beginKey endKey e.2.key

/-- An event is queued. -/
def push (r : RangeIndex) (epoch : EpochNumber) (e : InsertOrDeleteEvent) : RangeIndex :=
  { r with insertOrDeleteKeySet := queue epoch e r.insertOrDeleteKeySet }

/-- `Insert`; nothing where a phantom is detected. -/
def insert (r : RangeIndex) (epoch : EpochNumber) (txContext : ℕ) (key : Bytes) :
    Option RangeIndex :=
  if r.isInPredicateSet txContext key then none else some (r.push epoch ⟨key, false, txContext⟩)

/-- `ForceInsert`, which looks at no predicate. -/
def forceInsert (r : RangeIndex) (epoch : EpochNumber) (txContext : ℕ) (key : Bytes) :
    RangeIndex :=
  r.push epoch ⟨key, false, txContext⟩

/-- `Delete`, refused where a predicate covers the key. -/
def delete (r : RangeIndex) (epoch : EpochNumber) (txContext : ℕ) (key : Bytes) :
    Option RangeIndex :=
  if r.isInPredicateSet txContext key then none else some (r.push epoch ⟨key, true, txContext⟩)

/-- The container shows the key. -/
def contains (r : RangeIndex) (key : Bytes) : Bool := r.container key = some false

/-- The keys a scan visits. -/
def scanKeys (r : RangeIndex) (beginKey : Bytes) (endKey : Option Bytes) (reverse : Bool) :
    List Bytes :=
  let keys := (r.keys.filter fun key =>
    r.contains key && inRange beginKey endKey key).dedup.insertionSort (· ≤ ·)
  if reverse then keys.reverse else keys

/-- `Scan` and `ScanReverse`; nothing where the range is upside down or a phantom is
detected. -/
def scan (r : RangeIndex) (epoch : EpochNumber) (txContext : ℕ) (beginKey : Bytes)
    (endKey : Option Bytes) (reverse : Bool) : Option (List Bytes × RangeIndex) :=
  if endKey.any fun e => e < beginKey then none
  else if r.isOverlapWithInsertOrDelete txContext beginKey endKey then none
  else
    some (r.scanKeys beginKey endKey reverse,
      { r with predicateList := queue epoch ⟨beginKey, endKey, txContext⟩ r.predicateList })

/-- Apply one event to the container. -/
def applyEvent (r : RangeIndex) (e : InsertOrDeleteEvent) : RangeIndex :=
  { r with
    container := Function.update r.container e.key (some e.isDeleteEvent)
    keys := e.key :: r.keys }

/-- One round of the manager, with the global epoch it has read: the predicates and the
events of the stable epochs go, the events into the container. -/
def manage (r : RangeIndex) (global : EpochNumber) : RangeIndex :=
  let stable := global - 2
  let applied := (r.insertOrDeleteKeySet.takeWhile fun e => e.1 ≤ stable).foldl
    (fun r e => r.applyEvent e.2) r
  { applied with
    predicateList := r.predicateList.dropWhile fun p => p.1 ≤ stable
    insertOrDeleteKeySet := r.insertOrDeleteKeySet.dropWhile fun e => e.1 ≤ stable }

end RangeIndex

/-! ## What the container will say -/

/-- What the events, applied in order, make of what the container says of a key. -/
def settle (key : Bytes) (flag : Option Bool) (events : List (EpochNumber × InsertOrDeleteEvent)) :
    Option Bool :=
  events.foldl (fun flag e => if e.2.key = key then some e.2.isDeleteEvent else flag) flag

/-- **What the container will say of a key** once every queued event has been applied. -/
def RangeIndex.settled (r : RangeIndex) (key : Bytes) : Option Bool :=
  settle key (r.container key) r.insertOrDeleteKeySet

section Settled

variable {r : RangeIndex} {key : Bytes} {epoch : EpochNumber} {e : InsertOrDeleteEvent}
  {events : List (EpochNumber × InsertOrDeleteEvent)} {flag : Option Bool}

theorem settle_append (events events' : List (EpochNumber × InsertOrDeleteEvent)) :
    settle key flag (events ++ events') = settle key (settle key flag events) events' :=
  List.foldl_append

theorem settle_of_not_mem (h : ∀ x ∈ events, x.2.key ≠ key) : settle key flag events = flag := by
  induction events with
  | nil => rfl
  | cons x rest ih =>
    have hx := h x (.head _)
    show settle key (if x.2.key = key then some x.2.isDeleteEvent else flag) rest = flag
    rw [if_neg hx]
    exact ih fun y hy => h y (.tail _ hy)

theorem mem_queue {x : α} {y : EpochNumber × α} : y ∈ queue epoch x l ↔ y = (epoch, x) ∨ y ∈ l := by
  have hsplit : y ∈ l ↔ y ∈ l.takeWhile (fun z => z.1 ≤ epoch) ∨
      y ∈ l.dropWhile (fun z => z.1 ≤ epoch) := by
    rw [← List.mem_append, List.takeWhile_append_dropWhile]
  rw [queue, List.mem_append, List.mem_cons, hsplit]
  tauto

/-- The map is in the order of its epochs. -/
def InOrder {α : Type} (l : List (EpochNumber × α)) : Prop := l.Pairwise fun x y => x.1 ≤ y.1

/-- Behind the elements up to an epoch stand only later ones. -/
theorem InOrder.lt_of_mem_dropWhile (h : InOrder l) {x : EpochNumber × α}
    (hx : x ∈ l.dropWhile fun y => y.1 ≤ epoch) : epoch < x.1 := by
  induction l with
  | nil => cases hx
  | cons y rest ih =>
    rw [InOrder, List.pairwise_cons] at h
    by_cases hy : y.1 ≤ epoch
    · rw [List.dropWhile_cons_of_pos (by simpa using hy)] at hx
      exact ih h.2 hx
    · rw [List.dropWhile_cons_of_neg (by simpa using hy)] at hx
      have hlt : epoch < y.1 := UInt32.not_le.mp hy
      rcases List.mem_cons.mp hx with rfl | hx
      · exact hlt
      · exact UInt32.lt_of_lt_of_le hlt (h.1 x hx)

theorem InOrder.queue {x : α} (h : InOrder l) : InOrder (queue epoch x l) := by
  have hsplit : l.takeWhile (fun y => y.1 ≤ epoch) ++ l.dropWhile (fun y => y.1 ≤ epoch) = l :=
    List.takeWhile_append_dropWhile
  have hparts := h
  rw [InOrder, ← hsplit, List.pairwise_append] at hparts
  obtain ⟨hfront, hback, hcross⟩ := hparts
  rw [InOrder, Precision.queue, List.pairwise_append, List.pairwise_cons]
  refine ⟨hfront, ⟨fun y hy => UInt32.le_of_lt (h.lt_of_mem_dropWhile hy), hback⟩, ?_⟩
  intro y hy z hz
  rcases List.mem_cons.mp hz with rfl | hz
  · simpa using List.mem_takeWhile_imp hy
  · exact hcross y hy z hz

/-- An event that comes last among those of its key decides what becomes of the key, and
of no other. -/
theorem RangeIndex.settled_push (horder : InOrder r.insertOrDeleteKeySet)
    (hlast : ∀ x ∈ r.insertOrDeleteKeySet, x.2.key = e.key → x.1 ≤ epoch) (key : Bytes) :
    (r.push epoch e).settled key = if key = e.key then some e.isDeleteEvent else r.settled key := by
  have hpush : (r.push epoch e).settled key = settle key (r.container key)
      (Precision.queue epoch e r.insertOrDeleteKeySet) := rfl
  rw [hpush, Precision.queue, settle_append]
  split_ifs with hkey
  · rw [hkey]
    show settle e.key (if e.key = e.key then some e.isDeleteEvent else _) _ = _
    rw [if_pos rfl]
    refine settle_of_not_mem fun x hx heq => ?_
    have hlt := horder.lt_of_mem_dropWhile hx
    have hmem := (List.dropWhile_suffix fun y : EpochNumber × InsertOrDeleteEvent =>
      decide (y.1 ≤ epoch)).subset hx
    exact absurd (hlast x hmem heq) (UInt32.not_le.mpr hlt)
  · show settle key (if e.key = key then some e.isDeleteEvent else _) _ = _
    rw [if_neg (Ne.symm hkey), ← settle_append, List.takeWhile_append_dropWhile]
    rfl

/-- The events up to an epoch, applied to the container. -/
theorem RangeIndex.container_foldl (r : RangeIndex)
    (events : List (EpochNumber × InsertOrDeleteEvent)) (key : Bytes) :
    (events.foldl (fun r e => r.applyEvent e.2) r).container key =
      settle key (r.container key) events := by
  induction events generalizing r with
  | nil => rfl
  | cons e rest ih =>
    rw [List.foldl_cons, ih]
    show settle key (Function.update r.container e.2.key (some e.2.isDeleteEvent) key) rest =
      settle key (if e.2.key = key then some e.2.isDeleteEvent else r.container key) rest
    congr 1
    rw [Function.update_apply]
    by_cases hkey : key = e.2.key
    · rw [if_pos hkey, if_pos hkey.symm]
    · rw [if_neg hkey, if_neg (Ne.symm hkey)]

theorem RangeIndex.mem_keys_foldl (r : RangeIndex)
    (events : List (EpochNumber × InsertOrDeleteEvent)) (key : Bytes) :
    key ∈ (events.foldl (fun r e => r.applyEvent e.2) r).keys ↔
      key ∈ r.keys ∨ ∃ x ∈ events, x.2.key = key := by
  induction events generalizing r with
  | nil => simp
  | cons e rest ih =>
    rw [List.foldl_cons, ih]
    show (key ∈ e.2.key :: r.keys ∨ _) ↔ _
    rw [List.mem_cons]
    constructor
    · rintro ((rfl | hold) | ⟨x, hx, hkey⟩)
      · exact .inr ⟨e, .head _, rfl⟩
      · exact .inl hold
      · exact .inr ⟨x, .tail _ hx, hkey⟩
    · rintro (hold | ⟨x, hx, hkey⟩)
      · exact .inl (.inr hold)
      · rcases List.mem_cons.mp hx with rfl | hx
        · exact .inl (.inl hkey.symm)
        · exact .inr ⟨x, hx, hkey⟩

/-- What the events say of a key, one of them says, or it was said before. -/
theorem settle_cases {d : Bool} (h : settle key flag events = some d) :
    flag = some d ∨ ∃ x ∈ events, x.2.key = key ∧ x.2.isDeleteEvent = d := by
  induction events generalizing flag with
  | nil => exact .inl h
  | cons e rest ih =>
    have hrest : settle key (if e.2.key = key then some e.2.isDeleteEvent else flag) rest
        = some d := h
    rcases ih hrest with hflag | ⟨x, hx, hkey, hd⟩
    · split_ifs at hflag with hkey
      · exact .inr ⟨e, .head _, hkey, Option.some.inj hflag⟩
      · exact .inl hflag
    · exact .inr ⟨x, .tail _ hx, hkey, hd⟩

/-- **The manager only does what was to be done.** -/
theorem RangeIndex.settled_manage (r : RangeIndex) (global : EpochNumber) (key : Bytes) :
    (r.manage global).settled key = r.settled key := by
  have hmanage : (r.manage global).settled key = settle key
      ((((r.insertOrDeleteKeySet.takeWhile fun e => e.1 ≤ global - 2).foldl
        (fun r e => r.applyEvent e.2) r)).container key)
      (r.insertOrDeleteKeySet.dropWhile fun e => e.1 ≤ global - 2) := rfl
  rw [hmanage, container_foldl, ← settle_append, List.takeWhile_append_dropWhile]
  rfl

/-- With no event of the key queued, the container says it already. -/
theorem RangeIndex.settled_of_quiet (h : ∀ x ∈ r.insertOrDeleteKeySet, x.2.key ≠ key) :
    r.settled key = r.container key :=
  settle_of_not_mem h

end Settled

/-! ## Scans -/

theorem RangeIndex.mem_scanKeys {r : RangeIndex} {beginKey : Bytes} {endKey : Option Bytes}
    {reverse : Bool} {key : Bytes} (hkeys : ∀ k, r.container k ≠ none → k ∈ r.keys) :
    key ∈ r.scanKeys beginKey endKey reverse ↔
      r.container key = some false ∧ inRange beginKey endKey key = true := by
  have hforward : key ∈ (r.keys.filter fun key =>
      r.contains key && inRange beginKey endKey key).dedup.insertionSort (· ≤ ·) ↔
      r.container key = some false ∧ inRange beginKey endKey key = true := by
    rw [List.mem_insertionSort, List.mem_dedup, List.mem_filter, Bool.and_eq_true,
      RangeIndex.contains, decide_eq_true_eq]
    constructor
    · exact And.right
    · intro h
      refine ⟨hkeys key ?_, h⟩
      rw [h.1]
      exact nofun
  rw [RangeIndex.scanKeys]
  cases reverse with
  | false => exact hforward
  | true =>
    show key ∈ List.reverse _ ↔ _
    rw [List.mem_reverse]
    exact hforward

end LineairDB.Precision
