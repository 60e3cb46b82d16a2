import LineairDB.Types

/-!
# The squashed sets of the pivot objects

A transaction squashes the versions it read and wrote into eight four-bit slots and leaves
them in the pivot objects of its items, where others look for a path back to themselves.

* `conservative_iff` — a pivot object shows every path through the transactions merged into it
  exactly if for every version of theirs one of them has nothing above it in the item's slot.
* `publishes_iff` — a lock-based commit publishes its reads exactly if the attempt to omit it
  had put them into its own object before.
-/

namespace LineairDB.Nwr

/-- `HalfWordSet<4>`: eight counters that saturate at 15. -/
abbrev HalfWordSet := Fin 8 → Fin 16

namespace HalfWordSet

variable (s lhs rhs : HalfWordSet) (slot : Fin 8) (version : ℕ)

/-- A version enters its slot, saturated at 15. -/
def put : HalfWordSet := Function.update s slot ⟨min version 15, by omega⟩

/-- The greater version stays. -/
def putHigherside : HalfWordSet := if version ≤ s slot then s else s.put slot version

/-- The lower version stays. -/
def putLowerside : HalfWordSet := if s slot ≤ version then s else s.put slot version

/-- The lower side of two slots, and of one slot if the other is empty. -/
def merge : HalfWordSet := fun i =>
  if lhs i = 0 ∨ rhs i = 0 then max (lhs i) (rhs i) else min (lhs i) (rhs i)

/-- Somewhere the left set is above the right one, or saturated. -/
def isGreaterThan : Bool := decide (∃ i, lhs i ≠ 0 ∧ rhs i ≠ 0 ∧ (lhs i = 15 ∨ rhs i < lhs i))

/-- The same, where equal versions count, too. -/
def isGreaterOrEqualThan : Bool :=
  decide (∃ i, lhs i ≠ 0 ∧ rhs i ≠ 0 ∧ (lhs i = 15 ∨ rhs i ≤ lhs i))

end HalfWordSet

/-- What is known of the accesses to an item: squashed reads and writes. -/
structure MergedSets where
  rset : HalfWordSet := fun _ => 0
  wset : HalfWordSet := fun _ => 0

/-- `Merge`, of both sets. -/
def MergedSets.merge (lhs rhs : MergedSets) : MergedSets :=
  ⟨lhs.rset.merge rhs.rset, lhs.wset.merge rhs.wset⟩

/-- The answers of `IsReachableInto`. -/
inductive NWRValidationResult
  | acyclic
  | rw
  | wr
  deriving DecidableEq

/-- The conflict, if any, that leads from the left accesses to the right ones. -/
def MergedSets.isReachableInto (lhs rhs : MergedSets) : NWRValidationResult :=
  if rhs.rset.isGreaterOrEqualThan lhs.wset then .wr
  else if rhs.wset.isGreaterThan lhs.rset then .rw
  else .acyclic

variable {Item : Type} (slot : Item → Fin 8)

/-- `PutHigherside` of every item with its version. -/
def putAllHigher (s : HalfWordSet) (versions : List (Item × ℕ)) : HalfWordSet :=
  versions.foldl (fun s x => s.putHigherside (slot x.1) x.2) s

/-- `PutLowerside` of every item with its version. -/
def putAllLower (s : HalfWordSet) (versions : List (Item × ℕ)) : HalfWordSet :=
  versions.foldl (fun s x => s.putLowerside (slot x.1) x.2) s

variable {slot} {s : HalfWordSet} {xs : List (Item × ℕ)} {i : Fin 8}

/-- The slot holds the highest version put into it, up to saturation. -/
theorem putAllHigher_le_iff {v : ℕ} : (putAllHigher slot s xs i).val ≤ v ↔
    (s i).val ≤ v ∧ ∀ x ∈ xs, slot x.1 = i → min x.2 15 ≤ v := by
  unfold putAllHigher
  induction xs generalizing s with
  | nil => simp
  | cons x xs ih =>
    have hput : (s.putHigherside (slot x.1) x.2 i).val ≤ v ↔
        (s i).val ≤ v ∧ (slot x.1 = i → min x.2 15 ≤ v) := by
      unfold HalfWordSet.putHigherside HalfWordSet.put
      grind
    rw [List.foldl_cons, ih, hput, List.forall_mem_cons, and_assoc]

theorem putAllHigher_eq_zero : (putAllHigher slot s xs i).val = 0 ↔
    (s i).val = 0 ∧ ∀ x ∈ xs, slot x.1 = i → x.2 = 0 := by
  have hle := @putAllHigher_le_iff Item slot s xs i 0
  grind

theorem le_putAllHigher {x : Item × ℕ} (hx : x ∈ xs) :
    min x.2 15 ≤ (putAllHigher slot s xs (slot x.1)).val :=
  (putAllHigher_le_iff.mp le_rfl).2 x hx rfl

theorem putAllHigher_single (slot : Item → Fin 8) (x : Item × ℕ) (i : Fin 8) :
    (putAllHigher slot (fun _ => 0) [x] i : ℕ) = if i = slot x.1 then min x.2 15 else 0 := by
  rcases Nat.eq_zero_or_pos x.2 with hx | hx
  · simp [putAllHigher, HalfWordSet.putHigherside, hx]
  · simp [putAllHigher, HalfWordSet.putHigherside, HalfWordSet.put, hx.ne', Function.update_apply]
    split <;> rfl

theorem putAllLower_spec : ((putAllLower slot s xs i).val = 0 ↔
      (s i).val = 0 ∨ ∃ x ∈ xs, slot x.1 = i ∧ x.2 = 0) ∧
    (putAllLower slot s xs i).val ≤ s i ∧
    ∀ x ∈ xs, slot x.1 = i → (putAllLower slot s xs i).val ≤ min x.2 15 := by
  unfold putAllLower
  induction xs generalizing s with
  | nil => simp
  | cons x xs ih =>
    have hput : ((s.putLowerside (slot x.1) x.2 i).val = 0 ↔
          (s i).val = 0 ∨ slot x.1 = i ∧ x.2 = 0) ∧
        (s.putLowerside (slot x.1) x.2 i).val ≤ s i ∧
        (slot x.1 = i → (s.putLowerside (slot x.1) x.2 i).val ≤ min x.2 15) := by
      unfold HalfWordSet.putLowerside HalfWordSet.put
      grind
    have hrest := @ih (s.putLowerside (slot x.1) x.2)
    rw [List.foldl_cons]
    grind

theorem merge_spec (lhs rhs : HalfWordSet) (i : Fin 8) :
    ((lhs.merge rhs i).val = 0 ↔ (lhs i).val = 0 ∧ (rhs i).val = 0) ∧
    ((lhs i).val ≠ 0 → (lhs.merge rhs i).val ≤ lhs i) ∧
    ((rhs i).val ≠ 0 → (lhs.merge rhs i).val ≤ rhs i) := by
  unfold HalfWordSet.merge
  grind

/-! ## What the merged sets show -/

/-- The versions a transaction read and wrote. -/
structure Accesses (Item : Type) where
  reads : List (Item × ℕ)
  writes : List (Item × ℕ)
  positive : ∀ x ∈ reads ++ writes, 0 < x.2

variable (slot) in
/-- The sets `IsOmittable` makes of a transaction. -/
def Accesses.squash (t : Accesses Item) : MergedSets :=
  ⟨putAllHigher slot (fun _ => 0) t.reads, putAllHigher slot (fun _ => 0) t.writes⟩

variable (slot) in
/-- The object of an item after the transactions have merged their sets into it. -/
def pivot (ts : List (Accesses Item)) : MergedSets :=
  ts.foldl (fun p t => p.merge (t.squash slot)) {}

/-- The transaction read what one of the others wrote, or something newer, or overwrites
what one of them read. -/
def Follows (ts : List (Accesses Item)) (tj : Accesses Item) : Prop :=
  (∃ x ∈ tj.reads, ∃ t ∈ ts, ∃ w ∈ t.writes, w.1 = x.1 ∧ w.2 ≤ x.2) ∨
  ∃ x ∈ tj.writes, ∃ t ∈ ts, ∃ r ∈ t.reads, r.1 = x.1 ∧ r.2 < x.2

variable (slot) in
/-- One of the transactions has accessed something in the slot of the item, and nothing there
above the version. -/
def Bounded (ts : List (Accesses Item)) (accesses : Accesses Item → List (Item × ℕ))
    (x : Item × ℕ) : Prop :=
  ∃ t ∈ ts, (∃ y ∈ accesses t, slot y.1 = slot x.1) ∧
    ∀ y ∈ accesses t, slot y.1 = slot x.1 → y.2 ≤ x.2

theorem merge_within {lhs rhs : HalfWordSet} {v : ℕ} :
    ((lhs.merge rhs i).val ≠ 0 ∧ (lhs.merge rhs i).val ≤ v) ↔
      ((lhs i).val ≠ 0 ∧ (lhs i).val ≤ v) ∨ (rhs i).val ≠ 0 ∧ (rhs i).val ≤ v := by
  unfold HalfWordSet.merge
  grind

section Merged

variable {f : MergedSets → HalfWordSet} {accesses : Accesses Item → List (Item × ℕ)}
  {ts : List (Accesses Item)}

theorem foldl_merge_within (hf : ∀ a b, f (a.merge b) = (f a).merge (f b)) {p : MergedSets}
    {v : ℕ} :
    ((f (ts.foldl (fun p t => p.merge (t.squash slot)) p) i).val ≠ 0 ∧
      (f (ts.foldl (fun p t => p.merge (t.squash slot)) p) i).val ≤ v) ↔
    ((f p i).val ≠ 0 ∧ (f p i).val ≤ v) ∨
      ∃ t ∈ ts, (f (t.squash slot) i).val ≠ 0 ∧ (f (t.squash slot) i).val ≤ v := by
  induction ts generalizing p with
  | nil => simp
  | cons t ts ih => rw [List.foldl_cons, ih, hf, merge_within, List.exists_mem_cons_iff, or_assoc]

/-- **What the merged slot of an item shows**: the least of what the transactions that accessed
something in the slot have there at most. -/
theorem pivot_within (hf : ∀ a b, f (a.merge b) = (f a).merge (f b)) (hempty : ∀ i, f {} i = 0)
    (hsquash : ∀ t, f (t.squash slot) = putAllHigher slot (fun _ => 0) (accesses t))
    (hpositive : ∀ t, ∀ x ∈ accesses t, 0 < x.2) {v : ℕ} :
    ((f (pivot slot ts) i).val ≠ 0 ∧ (f (pivot slot ts) i).val ≤ v) ↔
      ∃ t ∈ ts, (∃ y ∈ accesses t, slot y.1 = i) ∧
        ∀ y ∈ accesses t, slot y.1 = i → min y.2 15 ≤ v := by
  have hshown : ∀ t, ((f (t.squash slot) i).val ≠ 0 ∧ (f (t.squash slot) i).val ≤ v) ↔
      (∃ y ∈ accesses t, slot y.1 = i) ∧ ∀ y ∈ accesses t, slot y.1 = i → min y.2 15 ≤ v := by
    intro t
    have hpos := hpositive t
    rw [hsquash, Ne, putAllHigher_eq_zero, putAllHigher_le_iff]
    grind
  rw [pivot, foldl_merge_within hf, hempty]
  simp only [hshown, Fin.val_zero, ne_eq, not_true_eq_false, false_and, false_or]

end Merged

theorem reachable_iff {lhs rhs : MergedSets} : lhs.isReachableInto rhs ≠ .acyclic ↔
    (∃ i, (rhs.rset i).val ≠ 0 ∧ (lhs.wset i).val ≠ 0 ∧
      ((rhs.rset i).val = 15 ∨ (lhs.wset i).val ≤ rhs.rset i)) ∨
    ∃ i, (rhs.wset i).val ≠ 0 ∧ (lhs.rset i).val ≠ 0 ∧
      ((rhs.wset i).val = 15 ∨ (lhs.rset i).val < rhs.wset i) := by
  unfold MergedSets.isReachableInto HalfWordSet.isGreaterOrEqualThan HalfWordSet.isGreaterThan
  simp only [Ne, Fin.ext_iff, Fin.le_def, Fin.lt_def, decide_eq_true_eq]
  split_ifs <;> simp_all

section Within

variable (slot) (ts : List (Accesses Item)) {i : Fin 8} {v : ℕ}

theorem wset_within : (((pivot slot ts).wset i).val ≠ 0 ∧ ((pivot slot ts).wset i).val ≤ v) ↔
    ∃ t ∈ ts, (∃ y ∈ t.writes, slot y.1 = i) ∧
      ∀ y ∈ t.writes, slot y.1 = i → min y.2 15 ≤ v :=
  pivot_within (f := MergedSets.wset) (fun _ _ => rfl) (fun _ => rfl) (fun _ => rfl)
    fun t x hx => t.positive x (List.mem_append_right _ hx)

theorem rset_within : (((pivot slot ts).rset i).val ≠ 0 ∧ ((pivot slot ts).rset i).val ≤ v) ↔
    ∃ t ∈ ts, (∃ y ∈ t.reads, slot y.1 = i) ∧
      ∀ y ∈ t.reads, slot y.1 = i → min y.2 15 ≤ v :=
  pivot_within (f := MergedSets.rset) (fun _ _ => rfl) (fun _ => rfl) (fun _ => rfl)
    fun t x hx => t.positive x (List.mem_append_left _ hx)

end Within

/-- **The squashed sets are conservative** exactly if for every version a merged transaction
wrote, unless it saturates, one of them has written something in the slot of the item and
nothing there above that version; and likewise for the versions read, where the next one must
not saturate. -/
theorem conservative_iff (ts : List (Accesses Item)) :
    (∀ tj, Follows ts tj → (pivot slot ts).isReachableInto (tj.squash slot) ≠ .acyclic) ↔
    ∀ t ∈ ts, (∀ w ∈ t.writes, 15 ≤ w.2 ∨ Bounded slot ts Accesses.writes w) ∧
      ∀ r ∈ t.reads, 14 ≤ r.2 ∨ Bounded slot ts Accesses.reads r := by
  simp only [reachable_iff]
  constructor
  · intro h t ht
    constructor
    · -- the transaction that only read this version
      intro w hw
      have hpos := t.positive w (by simp [hw])
      rcases h ⟨[w], [], by simpa using hpos⟩
        (.inl ⟨w, by simp, t, ht, w, hw, rfl, le_rfl⟩) with ⟨i, hmine, hne, hle⟩ | ⟨i, h⟩
      · simp only [Accesses.squash, putAllHigher_single] at hmine hle
        obtain rfl : i = slot w.1 := by grind
        by_cases hsaturated : 15 ≤ w.2
        · exact .inl hsaturated
        · obtain ⟨t', ht', hsome, hall⟩ := (wset_within slot ts).mp ⟨hne, (by grind : _ ≤ w.2)⟩
          exact .inr ⟨t', ht', hsome, fun y hy hslot => by have := hall y hy hslot; omega⟩
      · exact absurd rfl h.1
    · -- the transaction that only writes the next version
      intro r hr
      rcases h ⟨[], [(r.1, r.2 + 1)], by simp⟩
        (.inr ⟨(r.1, r.2 + 1), by simp, t, ht, r, hr, rfl, by simp⟩) with ⟨i, h⟩ |
        ⟨i, hmine, hne, hlt⟩
      · exact absurd rfl h.1
      · simp only [Accesses.squash, putAllHigher_single] at hmine hlt
        obtain rfl : i = slot r.1 := by grind
        by_cases hsaturated : 14 ≤ r.2
        · exact .inl hsaturated
        · obtain ⟨t', ht', hsome, hall⟩ := (rset_within slot ts).mp ⟨hne, (by grind : _ ≤ r.2)⟩
          exact .inr ⟨t', ht', hsome, fun y hy hslot => by have := hall y hy hslot; omega⟩
  · rintro h tj (⟨x, hx, t, ht, w, hw, hitem, hle⟩ | ⟨x, hx, t, ht, r, hr, hitem, hlt⟩)
    · have hmine : min x.2 15 ≤ ((tj.squash slot).rset (slot x.1)).val := le_putAllHigher hx
      have hpos := t.positive w (by simp [hw])
      refine .inl ⟨slot x.1, by omega, ?_⟩
      rcases (h t ht).1 w hw with hsaturated | ⟨t', ht', hsome, hall⟩
      · have hne := ((wset_within slot ts).mpr ⟨t, ht, ⟨w, hw, congrArg slot hitem⟩,
          fun y _ _ => Nat.min_le_right y.2 15⟩).1
        exact ⟨hne, by omega⟩
      · obtain ⟨hne, hshown⟩ := (wset_within slot ts).mpr ⟨t', ht', hsome,
          fun y hy hslot => (Nat.min_le_left y.2 15).trans (hall y hy hslot)⟩
        rw [hitem] at hne hshown
        exact ⟨hne, by omega⟩
    · have hmine : min x.2 15 ≤ ((tj.squash slot).wset (slot x.1)).val := le_putAllHigher hx
      have hpos := t.positive r (by simp [hr])
      refine .inr ⟨slot x.1, by omega, ?_⟩
      rcases (h t ht).2 r hr with hsaturated | ⟨t', ht', hsome, hall⟩
      · have hne := ((rset_within slot ts).mpr ⟨t, ht, ⟨r, hr, congrArg slot hitem⟩,
          fun y _ _ => Nat.min_le_right y.2 15⟩).1
        exact ⟨hne, by omega⟩
      · obtain ⟨hne, hshown⟩ := (rset_within slot ts).mpr ⟨t', ht', hsome,
          fun y hy hslot => (Nat.min_le_left y.2 15).trans (hall y hy hslot)⟩
        rw [hitem] at hne hshown
        exact ⟨hne, by omega⟩

/-- Two items of one transaction share a slot, which then shows the newer version only. -/
theorem conservative_fails : ∃ (slot : ℕ → Fin 8) (ts : List (Accesses ℕ)) (tj : Accesses ℕ),
    Follows ts tj ∧ (pivot slot ts).isReachableInto (tj.squash slot) = .acyclic :=
  ⟨fun _ => 0, [⟨[], [(0, 2), (1, 9)], by decide⟩], ⟨[(0, 4)], [], by decide⟩,
    .inl ⟨(0, 4), by decide, _, List.mem_singleton_self _, (0, 2), by decide⟩, by decide⟩

/-! ## What a lock-based commit publishes -/

/-- An entry of the write set, with the identifier its item was locked at. -/
structure Write (Item : Type) where
  item : Item
  tid : TransactionId
  isReadModifyWrite : Bool

/-- A transaction that commits in `currentEpoch`. -/
structure Committer (Item : Type) where
  currentEpoch : EpochNumber
  reads : List (Item × TransactionId)
  writes : List (Write Item)

/-- The pivot object beside an item. -/
structure NWRPivotObject where
  targetId : ℕ
  epoch : EpochNumber
  msets : MergedSets

/-- What happens to the pivot objects: this transaction updates one (`true` for an item of its
write set), or another one merges its sets into it. -/
inductive Event (Item : Type)
  | mine (snapshot : Item × Bool)
  | other (item : Item) (msets : MergedSets)

/-- The transaction's own update, if the event is one. -/
def Event.mine? : Event Item → Option (Item × Bool)
  | .mine snapshot => some snapshot
  | .other .. => none

namespace Committer

variable (tx : Committer Item)

/-- Versions read in this epoch count, all others are 1. -/
def readVersions : List (Item × ℕ) :=
  tx.reads.map fun r => (r.1, if r.2.epoch = tx.currentEpoch then r.2.tid.toNat else 1)

/-- The next versions of this epoch, or 2. -/
def writeVersions : List (Item × ℕ) :=
  tx.writes.map fun w =>
    (w.item, if w.tid.epoch = tx.currentEpoch then (w.tid.tid + 1).toNat else 2)

/-- The snapshots that `rounds` calls of `IsOmittable` have taken. -/
def snapshots (rounds : ℕ) : List (Item × Bool) :=
  (List.replicate rounds
    (tx.writes.map (fun w => (w.item, true)) ++ tx.reads.map fun r => (r.1, false))).flatten

variable (slot) in
/-- The object that `IsOmittable` leaves behind: it is filled only if all pivot objects of the
write set are of this epoch. -/
def isOmittableLeaves (pivots : Item → NWRPivotObject) (my : MergedSets) : MergedSets :=
  if tx.writes.any fun w => (pivots w.item).epoch ≠ tx.currentEpoch then my
  else ⟨putAllHigher slot my.rset tx.readVersions,
    putAllHigher slot my.wset (tx.writes.map fun w => (w.item, (pivots w.item).targetId))⟩

variable (slot) in
/-- The object a transaction publishes, on top of what it has. -/
def rebuild (my : MergedSets) : MergedSets :=
  ⟨putAllLower slot my.rset tx.readVersions, putAllHigher slot my.wset tx.writeVersions⟩

variable (slot) in
/-- The sets show every read of the transaction, not above its version, and every write. -/
def Shows (sets : MergedSets) : Prop :=
  (∀ r ∈ tx.readVersions, (sets.rset (slot r.1)).val ≠ 0 ∧ sets.rset (slot r.1) ≤ min r.2 15) ∧
  ∀ w ∈ tx.writes, (sets.wset (slot w.item)).val ≠ 0

variable {tx} {my sets : MergedSets} {pivots : Item → NWRPivotObject} {events : List (Event Item)}

theorem Shows.merge (h : tx.Shows slot sets) (other : MergedSets) :
    tx.Shows slot (sets.merge other) ∧ tx.Shows slot (other.merge sets) := by
  have hl := fun i => merge_spec sets.rset other.rset i
  have hr := fun i => merge_spec other.rset sets.rset i
  have hl' := fun i => merge_spec sets.wset other.wset i
  have hr' := fun i => merge_spec other.wset sets.wset i
  unfold Shows MergedSets.merge at *
  grind

theorem shows_rebuild (h : ∀ r ∈ tx.readVersions, (my.rset (slot r.1)).val ≠ 0 ∧ r.2 ≠ 0)
    (hw : ∀ w ∈ tx.writes, (my.wset (slot w.item)).val ≠ 0 ∨
      ∃ v ∈ tx.writeVersions, slot v.1 = slot w.item ∧ v.2 ≠ 0) :
    tx.Shows slot (tx.rebuild slot my) := by
  constructor
  · intro r hr
    have hspec := @putAllLower_spec Item slot my.rset tx.readVersions (slot r.1)
    unfold rebuild
    grind
  · intro w hmem
    have hspec := @putAllHigher_eq_zero Item slot my.wset tx.writeVersions (slot w.item)
    unfold rebuild
    grind

variable (tx) [DecidableEq Item]

/-- The last entry of the item in front of one that reads, modifies and writes. -/
def blindWrite (item : Item) : Option (Write Item) :=
  ((tx.writes.filter (·.item = item)).takeWhile (!·.isReadModifyWrite)).getLast?

/-- What an update makes of the pivot objects. -/
def update (my : MergedSets) (pivots : Item → NWRPivotObject) : Event Item → Item → NWRPivotObject
  | .mine (item, written) =>
    let old := pivots item
    Function.update pivots item <|
      match if old.epoch ≠ tx.currentEpoch ∧ written = true then tx.blindWrite item else none with
      | some w => ⟨w.tid.tid.toNat, tx.currentEpoch, my⟩
      | none => { old with msets := old.msets.merge my }
  | .other item msets =>
    Function.update pivots item { pivots item with msets := (pivots item).msets.merge msets }

variable (slot) in
/-- `UpdatePivotObjects` among the updates of others. -/
def updatePivotObjects (my : MergedSets) (pivots : Item → NWRPivotObject)
    (events : List (Event Item)) : Item → NWRPivotObject :=
  events.foldl (tx.update (tx.rebuild slot my)) pivots

variable {tx}

/-- What is shown once stays so under whatever follows. -/
theorem Shows.foldl (hmy : tx.Shows slot sets) {item : Item}
    (h : tx.Shows slot (pivots item).msets ∨ ∃ written, .mine (item, written) ∈ events) :
    tx.Shows slot (events.foldl (tx.update sets) pivots item).msets := by
  induction events generalizing pivots with
  | nil => simpa using h
  | cons e events ih =>
    refine ih ?_
    rcases e with ⟨item', written⟩ | ⟨item', msets⟩ <;> by_cases hitem : item = item'
    · subst hitem
      left
      simp only [update, Function.update_self]
      split
      · exact hmy
      · exact (hmy.merge _).2
    · simpa [update, hitem] using h
    · subst hitem
      refine h.imp (fun hold => ?_) (by simp)
      simpa [update] using (hold.merge msets).1
    · simpa [update, hitem] using h

/-- An empty slot stays empty while nothing comes into it. -/
theorem slot_empty {f : MergedSets → HalfWordSet} (hf : ∀ a b, f (a.merge b) = (f a).merge (f b))
    (hmy : (f sets i).val = 0) {xs : List (Item × Bool)}
    (h : ∀ item, (pivots item).epoch = tx.currentEpoch ∧ (f (pivots item).msets i).val = 0)
    (item : Item) :
    ((xs.map .mine).foldl (tx.update sets) pivots item).epoch = tx.currentEpoch ∧
      (f ((xs.map .mine).foldl (tx.update sets) pivots item).msets i).val = 0 := by
  induction xs generalizing pivots with
  | nil => exact h item
  | cons x xs ih =>
    refine ih fun item' => ?_
    by_cases hitem : item' = x.1
    · have hmerge := (merge_spec (f (pivots x.1).msets) (f sets) i).1
      simp [update, hitem, h, hf, hmerge, hmy]
    · simpa [update, hitem] using h item'

/-- **A lock-based commit publishes its reads and writes** exactly if `IsOmittable` was called
and had put every read into the object before, with a version that is not zero, and the slot of
no write is left empty by counters that wrap to zero. -/
theorem publishes_iff (slot : Item → Fin 8) (tx : Committer Item) (my : MergedSets) (rounds : ℕ) :
    (∀ pivots events, events.filterMap Event.mine? = tx.snapshots rounds → ∀ w ∈ tx.writes,
      (tx.updatePivotObjects slot my pivots events w.item).epoch = tx.currentEpoch →
      tx.Shows slot (tx.updatePivotObjects slot my pivots events w.item).msets) ↔
    tx.writes = [] ∨ 0 < rounds ∧
      (∀ r ∈ tx.readVersions, (my.rset (slot r.1)).val ≠ 0 ∧ r.2 ≠ 0) ∧
      ∀ w ∈ tx.writes, (my.wset (slot w.item)).val ≠ 0 ∨
        ∃ v ∈ tx.writeVersions, slot v.1 = slot w.item ∧ v.2 ≠ 0 := by
  constructor
  · intro h
    rcases hwrites : tx.writes with _ | ⟨w, ws⟩
    · exact .inl rfl
    have hw : w ∈ tx.writes := by simp [hwrites]
    -- nobody has touched the objects in this epoch
    let blank : Item → NWRPivotObject := fun _ => ⟨0, tx.currentEpoch, {}⟩
    have hblank := h blank ((tx.snapshots rounds).map .mine)
      (by simp [List.filterMap_map, Function.comp_def, Event.mine?]) w hw
    have hempty : ∀ {f : MergedSets → HalfWordSet}, (∀ a b, f (a.merge b) = (f a).merge (f b)) →
        (∀ i, f {} i = 0) → ∀ i, (f (tx.rebuild slot my) i).val = 0 →
        (f (tx.updatePivotObjects slot my blank ((tx.snapshots rounds).map .mine) w.item).msets
          i).val = 0 :=
      fun hf h₀ i hzero => (slot_empty hf hzero (fun _ => ⟨rfl, congrArg Fin.val (h₀ i)⟩) w.item).2
    have hshows := hblank (slot_empty (f := fun _ _ => 0) (i := 0) (fun _ _ => by decide) rfl
      (fun _ => ⟨rfl, rfl⟩) w.item).1
    refine .inr ⟨Nat.pos_of_ne_zero ?_, fun r hr => ?_, fun v hv => ?_⟩
    · rintro rfl
      exact hshows.2 w hw rfl
    · by_contra hnot
      have hzero : ((tx.rebuild slot my).rset (slot r.1)).val = 0 :=
        putAllLower_spec.1.mpr (by grind)
      exact (hshows.1 r hr).1 (hempty (fun _ _ => rfl) (fun _ => rfl) _ hzero)
    · by_contra hnot
      have hzero : ((tx.rebuild slot my).wset (slot v.item)).val = 0 :=
        putAllHigher_eq_zero.mpr (by grind)
      exact hshows.2 v (hwrites ▸ hv) (hempty (fun _ _ => rfl) (fun _ => rfl) _ hzero)
  · rintro (hnone | ⟨hrounds, hreads, hwrites⟩) pivots events hmine w hw -
    · simp [hnone] at hw
    · refine Shows.foldl (shows_rebuild hreads hwrites) (.inr ⟨true, ?_⟩)
      have hmem : (w.item, true) ∈ events.filterMap Event.mine? := by
        rw [hmine]
        simp only [snapshots, List.mem_flatten, List.mem_replicate]
        exact ⟨_, ⟨hrounds.ne', rfl⟩, by simpa using ⟨w, hw, rfl⟩⟩
      obtain ⟨e, he, hsome⟩ := List.mem_filterMap.mp hmem
      cases e with
      | mine => exact Option.some.inj hsome ▸ he
      | other => cases hsome

/-- The pivot object of the item written is of an older epoch, so `IsOmittable` gives up before
it puts the read into the object, and `PutLowerside` leaves the empty slot as it is. -/
theorem publishes_fails : ∃ (tx : Committer ℕ) (pivots : ℕ → NWRPivotObject),
    ∃ w ∈ tx.writes,
      let my := tx.isOmittableLeaves (fun _ => 0) pivots {}
      let object := tx.updatePivotObjects (fun _ => 0) my pivots ((tx.snapshots 1).map .mine) w.item
      object.epoch = tx.currentEpoch ∧ ¬ tx.Shows (fun _ => 0) object.msets := by
  refine ⟨⟨1, [(0, ⟨1, 2⟩)], [⟨1, ⟨0, 3⟩, false⟩]⟩, fun _ => ⟨0, 0, {}⟩, _,
    List.mem_singleton_self _, rfl, fun h => (h.1 (0, 2) (by decide)).1 rfl⟩

end Committer

end LineairDB.Nwr
