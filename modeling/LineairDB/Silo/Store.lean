import LineairDB.Library.ByteFile
import LineairDB.Library.Optimistic
import LineairDB.Silo.Word

/-!
# The shared store

The index from slots to items, the items with their version words and
contents, and the global epoch; and the accesses the committers and the
reaper make to them, one atomic access at a time.

Beside what the program keeps, an item records the slot it was created for,
who holds its lock, whether its content is installed but not yet published,
and how many versions its slot had when its content was current; and the store
keeps the versions of every slot and the stamps of the committers. No access
depends on them: `Store.abs` reads the optimistic protocol off them.
-/

namespace LineairDB.Silo

open ByteFile
open Function (update_self update_of_ne update update_apply)

/-! ## Items -/

/-- A place an item can be attached to: a row of a table, or an entry of a
secondary index. -/
inductive Slot where
  | row (table key : Bytes)
  | entry (table index key : Bytes)
  deriving Repr, DecidableEq

/-- Who may hold an item's lock, or have published a version: what an earlier life of the
database left behind counts as the recovery's. -/
inductive Owner where
  | tx (t : ℕ)
  | reaper
  | recovery
  deriving Repr, DecidableEq

/-- Items are numbered in the order of their allocation. -/
abbrev ItemId := ℕ

/-- A row's bytes, or the primary keys of a secondary entry. -/
structure Content where
  buffer : Bytes
  primaryKeys : List Bytes
  deriving Repr, DecidableEq

namespace Content

/-- No row and no primary key. -/
def blank : Content := ⟨[], []⟩

/-- The primary keys are in order, each of them once. -/
abbrev Ordered (c : Content) : Prop := c.primaryKeys.Pairwise (· < ·)

/-- `buffer.size != 0` -/
def isPrimaryInitialized (c : Content) : Bool := !c.buffer.isEmpty

/-- There is a row or a primary key. -/
def isInitialized (c : Content) : Bool := !c.buffer.isEmpty || !c.primaryKeys.isEmpty

/-- What the reaper asks of a slot before it purges it. -/
def initializedAt : Slot → Content → Bool
  | .row _ _, c => c.isPrimaryInitialized
  | .entry _ _ _, c => c.isInitialized

end Content

/-- A published version: the word it was published under, what it holds, and the item it
was published through. -/
structure Version where
  tid : TransactionId
  content : Content
  item : ItemId
  deriving Repr, DecidableEq

/-- A `DataItem`, with the slot it was made for and who holds its lock. -/
structure Item where
  word : TransactionId
  content : Content
  home : Slot
  holder : Option Owner
  dirty : Bool
  seen : ℕ
  deriving Repr, DecidableEq

/-- An item as `new DataItem()` leaves it. -/
def Item.blank (home : Slot) (seen : ℕ) : Item := ⟨.empty, .blank, home, none, false, seen⟩

/-! ## The store -/

/-- The index, the items and the versions published. -/
structure Store where
  index : Slot → Option ItemId
  item : ItemId → Item
  allocated : ItemId
  /-- Every slot an item was ever attached to. -/
  slots : List Slot
  epoch : EpochNumber
  versions : Slot → List (Owner × Version)
  stamp : Owner → Option ℕ
  commitEpoch : Owner → EpochNumber
  clock : ℕ
  observed : Owner → Set (Slot × ℕ)
  fixed : Owner → Set (Slot × ℕ)

namespace Store

/-- The item is the one its slot leads to. -/
def Attached (s : Store) (i : ItemId) : Prop := s.index (s.item i).home = some i

instance (s : Store) (i : ItemId) : Decidable (s.Attached i) :=
  inferInstanceAs (Decidable (_ = _))

/-- An item is replaced. -/
def setItem (s : Store) (i : ItemId) (x : Item) : Store :=
  { s with item := update s.item i x }

/-- Attach a blank item to a slot that has none. -/
def insertBlank (s : Store) (k : Slot) : Store :=
  { s with
    index := update s.index k (some s.allocated)
    item := update s.item s.allocated (.blank k (s.versions k).length)
    allocated := s.allocated + 1
    slots := k :: s.slots }

/-- A lock CAS that succeeds. -/
def lock (s : Store) (o : Owner) (i : ItemId) : Store :=
  let x := s.item i
  s.setItem i { x with word := x.word.locked, holder := some o }

/-- Give a lock back without publishing. -/
def storeWord (s : Store) (i : ItemId) (word : TransactionId) : Store :=
  let x := s.item i
  s.setItem i { x with word := word, holder := none }

/-- Leave and re-join the epoch with every lock held. -/
def serialize (s : Store) (o : Owner) : Store :=
  { s with
    stamp := update s.stamp o (some s.clock)
    commitEpoch := update s.commitEpoch o s.epoch
    clock := s.clock + 1 }

/-- Write the content of a locked item. -/
def install (s : Store) (i : ItemId) (c : Content) : Store :=
  let x := s.item i
  s.setItem i { x with content := c, dirty := true }

/-- Store the next word over a locked item, which publishes its content. -/
def publish (s : Store) (o : Owner) (i : ItemId) (word : TransactionId) : Store :=
  let x := s.item i
  { s with
    item := update s.item i
      { x with
        word := word
        holder := none
        dirty := false
        seen := (s.versions x.home).length + 1 }
    versions := update s.versions x.home
      (s.versions x.home ++ [(o, ⟨word, x.content, i⟩)]) }

/-- Remove a slot from the index. -/
def unlink (s : Store) (k : Slot) : Store :=
  { s with index := update s.index k none }

/-- The epoch advances. -/
def advanceEpoch (s : Store) : Store := { s with epoch := s.epoch + 1 }

/-- Note what a committer has observed. -/
def observe (s : Store) (o : Owner) (k : Slot) (p : ℕ) : Store :=
  { s with observed := update s.observed o (s.observed o ∪ {(k, p)}) }

/-- The optimistic protocol the store carries out: a slot is locked while the
item attached to it is. -/
def abs (s : Store) : Optimistic.State Slot Owner Version where
  versions := s.versions
  lock := fun k => (s.index k).bind fun i => (s.item i).holder
  stamp := s.stamp
  clock := s.clock
  observed := s.observed
  fixed := s.fixed

/-- Note that a committer has found slots free of other committers. -/
def fix (s : Store) (o : Owner) (D : Set Slot) : Store :=
  { s with fixed := update s.fixed o (s.fixed o ∪ s.abs.positions D) }

/-- Nobody else holds the lock of a slot. -/
def Free (s : Store) (o : Owner) (k : Slot) : Prop := s.abs.lock k = none ∨ s.abs.lock k = some o

instance (s : Store) (o : Owner) (k : Slot) : Decidable (s.Free o k) :=
  inferInstanceAs (Decidable (_ ∨ _))

/-- No version's sequence number has come close to its end. -/
def NoWrap (s : Store) : Prop :=
  ∀ k ∈ s.slots, ∀ v ∈ s.versions k, v.2.tid.tid.toNat < 2 ^ 32 - 2

instance (s : Store) : Decidable s.NoWrap := inferInstanceAs (Decidable (∀ _ ∈ _, _))

end Store

/-! ## Accesses -/

/-- One access to the store. -/
inductive Access where
  | idle
  | insertBlank (k : Slot)
  | lock (i : ItemId)
  | storeWord (i : ItemId) (word : TransactionId)
  | serialize
  | install (i : ItemId) (c : Content)
  | publish (i : ItemId) (word : TransactionId)
  | unlink (k : Slot)
  | advanceEpoch
  | observe (k : Slot) (p : ℕ)
  | fix (D : Set Slot)

variable {a : Access} {s : Store} {o : Owner}

/-- What an access does. -/
def Store.access (s : Store) (o : Owner) : Access → Store
  | .idle => s
  | .insertBlank k => s.insertBlank k
  | .lock i => s.lock o i
  | .storeWord i word => s.storeWord i word
  | .serialize => s.serialize o
  | .install i c => s.install i c
  | .publish i word => s.publish o i word
  | .unlink k => s.unlink k
  | .advanceEpoch => s.advanceEpoch
  | .observe k p => s.observe o k p
  | .fix D => s.fix o D

/-- The access neither installs nor publishes anything. -/
def Access.Quiet : Access → Prop
  | .install _ _ | .publish _ _ => False
  | _ => True

/-- The access locks nothing and changes no item: what a committer does while it collects. -/
def Access.Collecting : Access → Prop
  | .idle | .insertBlank _ | .observe _ _ => True
  | _ => False

theorem Access.Collecting.quiet (h : a.Collecting) : a.Quiet := by
  cases a with
  | install | publish => exact h.elim
  | _ => trivial

/-- The access gives the lock of an item back. -/
def Access.Releases (i : ItemId) : Access → Prop
  | .storeWord j _ | .publish j _ => j = i
  | _ => False

/-- What a party has to know before it makes an access. -/
def Access.Permitted (s : Store) (o : Owner) : Access → Prop
  | .idle => True
  | .insertBlank k => s.index k = none
  | .lock i => i < s.allocated ∧ (s.item i).word.isLocked = false ∧ s.stamp o = none
  | .storeWord i word => (s.item i).holder = some o ∧ (s.item i).dirty = false ∧
      word.isLocked = false ∧ word.epoch = (s.item i).word.epoch ∧
      -- the reaper leaves the word of what it has unlinked behind it
      (word = (s.item i).word.unlocked ∧ (o = .reaper → s.Attached i) ∨
        ¬ s.Attached i ∧ (s.NoWrap → (s.item i).word.base.val < word.val))
  | .serialize => s.stamp o = none
  | .install i _ => (s.item i).holder = some o ∧ s.stamp o ≠ none ∧ s.Attached i
  | .publish i word => (s.item i).holder = some o ∧ s.stamp o ≠ none ∧ s.Attached i ∧
      word = (s.item i).word.next (s.commitEpoch o)
  | .unlink k => o = .reaper ∧ ∃ i, s.index k = some i ∧ (s.item i).holder = some o ∧
      s.stamp o = none ∧ (s.item i).content.initializedAt k = false ∧
      (s.item i).word.epoch ≠ 0 ∧ (s.item i).word.epoch.toNat + 2 ≤ s.epoch.toNat
  | .advanceEpoch => s.epoch.toNat + 1 < 2 ^ 32
  | .observe k p => s.stamp o = none ∧ p ≤ (s.versions k).length
  | .fix D => s.stamp o ≠ none ∧ ∀ k ∈ D, s.Free o k

/-! ## What only ever grows -/

theorem getElem?_of_grown {α : Type} {l l' : List α} {n : ℕ} {a : α} (h : l <+: l')
    (ha : l[n]? = some a) : l'[n]? = some a := by
  obtain ⟨hlt, rfl⟩ := List.getElem?_eq_some_iff.mp ha
  exact List.prefix_iff_getElem?.mp h n hlt

theorem Store.versions_access (s : Store) (o : Owner) (a : Access) (k : Slot) :
    s.versions k <+: (s.access o a).versions k := by
  cases a with
  | publish i =>
    show s.versions k <+: update s.versions (s.item i).home _ k
    by_cases hk : k = (s.item i).home
    · subst hk
      rw [update_self]
      exact List.prefix_append _ _
    · exact ⟨[], (List.append_nil _).trans (update_of_ne hk ..).symm⟩
  | _ => exact List.prefix_refl _

/-- A version was there, or has just been published behind the others. -/
theorem Store.getElem?_versions_access {k : Slot} {n : ℕ} {v : Owner × Version}
    (hv : ((s.access o a).versions k)[n]? = some v) :
    (s.versions k)[n]? = some v ∨ v.1 = o ∧ n = (s.versions k).length ∧
      ∃ i word, a = .publish i word ∧ (s.item i).home = k ∧
        v.2 = ⟨word, (s.item i).content, i⟩ := by
  cases a with
  | publish i word =>
    change (update s.versions (s.item i).home _ k)[n]? = some v at hv
    rw [update_apply] at hv
    split_ifs at hv with hk
    · subst hk
      rcases Nat.lt_trichotomy n (s.versions (s.item i).home).length with hlt | heq | hgt
      · rw [List.getElem?_append_left hlt] at hv
        exact .inl hv
      · subst heq
        rw [List.getElem?_concat_length] at hv
        cases hv
        exact .inr ⟨rfl, rfl, i, word, rfl, rfl, rfl⟩
      · rw [List.getElem?_eq_none (by rw [List.length_append]; exact hgt)] at hv
        cases hv
    · exact .inl hv
  | _ => exact .inl hv

theorem Store.mem_versions_access {k : Slot} {v : Owner × Version}
    (hv : v ∈ (s.access o a).versions k) :
    v ∈ s.versions k ∨ v.1 = o ∧ ∃ i word, a = .publish i word := by
  obtain ⟨n, hn⟩ := List.mem_iff_getElem?.mp hv
  rcases Store.getElem?_versions_access hn with hn | ⟨howner, -, i, word, ha, -⟩
  · exact .inl (List.mem_of_getElem? hn)
  · exact .inr ⟨howner, i, word, ha⟩

theorem Store.slots_access (s : Store) (o : Owner) (a : Access) :
    s.slots ⊆ (s.access o a).slots := by
  cases a with
  | insertBlank => exact List.subset_cons_self _ _
  | _ => exact List.Subset.refl _

theorem Store.allocated_access (s : Store) (o : Owner) (a : Access) :
    s.allocated ≤ (s.access o a).allocated := by
  cases a with
  | insertBlank => exact Nat.le_succ _
  | _ => exact le_rfl

theorem Store.home_access (s : Store) (o : Owner) (a : Access) {j : ItemId}
    (hj : j < s.allocated) : ((s.access o a).item j).home = (s.item j).home := by
  have keep : ∀ (i : ItemId) (x : Item), x.home = (s.item i).home →
      (update s.item i x j).home = (s.item j).home := by
    intro i x hx
    by_cases hji : j = i
    · rw [hji, update_self, hx]
    · rw [update_of_ne hji]
  cases a with
  | insertBlank =>
    show (update s.item s.allocated _ j).home = _
    rw [update_of_ne (Nat.ne_of_lt hj)]
  | lock i | storeWord i | install i | publish i => exact keep i _ rfl
  | _ => rfl

/-- What no access takes back, seen by the party `o`. -/
structure Grows (o : Owner) (s s' : Store) : Prop where
  versions : ∀ k, s.versions k <+: s'.versions k
  slots : s.slots ⊆ s'.slots
  allocated : s.allocated ≤ s'.allocated
  home : ∀ i, i < s.allocated → (s'.item i).home = (s.item i).home
  observed : s.observed o ⊆ s'.observed o
  fixed : s.fixed o ⊆ s'.fixed o

theorem Store.grows_access (s : Store) (o o' : Owner) (a : Access) : Grows o s (s.access o' a) := by
  have add : ∀ {α : Type} (f : Owner → Set α) (A : Set α),
      f o ⊆ update f o' (f o' ∪ A) o := by
    intro α f A
    by_cases ho : o = o'
    · subst ho
      rw [update_self]
      exact Set.subset_union_left
    · rw [update_of_ne ho]
  refine ⟨s.versions_access o' a, s.slots_access o' a, s.allocated_access o' a,
    fun i hi => s.home_access o' a hi, ?_, ?_⟩
  · cases a with
    | observe => exact add s.observed _
    | _ => exact Set.Subset.refl _
  · cases a with
    | fix => exact add s.fixed _
    | _ => exact Set.Subset.refl _

theorem Store.NoWrap.of_grows {s' : Store} (h : s'.NoWrap) (hgrows : Grows o s s') : s.NoWrap :=
  fun k hk v hv => h k (hgrows.slots hk) v ((hgrows.versions k).subset hv)

end LineairDB.Silo
