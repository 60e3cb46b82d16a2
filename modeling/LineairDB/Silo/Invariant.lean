import LineairDB.Silo.Store

/-!
# What holds of the store

The word of an attached item is the word of its slot's last version, up to the
lock bit; a lock bit is set while the protocol has a holder for it; contents
change only between the stamp of the holder and the publication.

* `StoreInv.refines` — every permitted access is a step of the optimistic
  protocol, or no step of it at all.
* `StoreInv.protocol_access` — so it preserves the invariant of the protocol.
-/

namespace LineairDB.Silo

open ByteFile
open Function (update_self update_of_ne update)

/-! ## The invariant -/

/-- What is left behind a slot without an item, or with one nothing was published
to: it has been dead for more than an epoch. -/
structure Vacant (s : Store) (k : Slot) : Prop where
  old : ∀ v ∈ s.versions k, v.2.tid.epoch.toNat + 2 ≤ s.epoch.toNat
  dead : ∀ v, (s.versions k).getLast? = some v → v.2.content.initializedAt k = false

/-- What holds of an item `x` attached to the slot `k`. -/
structure ItemInv (s : Store) (k : Slot) (x : Item) : Prop where
  seen : x.seen = (s.versions k).length
  /-- Nothing was published to the item yet. -/
  fresh : x.word.epoch = 0 →
    x.word.base = .empty ∧ (x.dirty = false → x.content = .blank) ∧ Vacant s k
  /-- The item holds the last version of its slot. -/
  current : x.word.epoch ≠ 0 → ∃ v, (s.versions k).getLast? = some v ∧
    v.2.tid = x.word.base ∧ (x.dirty = false → x.content = v.2.content)
  /-- A stamped holder commits in an epoch the item's version lies in or before. -/
  bound : ∀ o st, x.holder = some o → s.stamp o = some st →
    x.word.epoch.toNat ≤ (s.commitEpoch o).toNat ∧
      (x.word.epoch = 0 → ∀ v ∈ s.versions k, v.2.tid.epoch.toNat < (s.commitEpoch o).toNat)

/-- **What holds of the store.** -/
structure StoreInv (s : Store) : Prop where
  epoch_pos : 0 < s.epoch.toNat
  home : ∀ k i, s.index k = some i → i < s.allocated ∧ (s.item i).home = k
  slots : ∀ k, s.index k ≠ none → k ∈ s.slots
  unused : ∀ i, s.allocated ≤ i → (s.item i).holder = none
  bit : ∀ i, (s.item i).word.isLocked = true ↔ (s.item i).holder ≠ none
  attached : ∀ k i, s.index k = some i → ItemInv s k (s.item i)
  vacant : ∀ k, s.index k = none → Vacant s k
  detached : ∀ i, ¬ s.Attached i →
    (s.item i).content.initializedAt (s.item i).home = false ∧ (s.item i).dirty = false
  seen_le : ∀ i, (s.item i).seen ≤ (s.versions (s.item i).home).length
  dirty : ∀ i, (s.item i).dirty = true → ∃ o st, (s.item i).holder = some o ∧ s.stamp o = some st
  epochs : ∀ k, (s.versions k).Pairwise fun v w => v.2.tid.epoch.toNat ≤ w.2.tid.epoch.toNat
  /-- The words go up as well, as long as no sequence number is used up. -/
  ordered : s.NoWrap → ∀ k, (s.versions k).Pairwise fun v w => v.2.tid.val < w.2.tid.val
  version : ∀ k, ∀ v ∈ s.versions k, v.2.tid.isLocked = false ∧
    0 < v.2.tid.epoch.toNat ∧ v.2.tid.epoch.toNat ≤ s.epoch.toNat
  published : ∀ k, ∀ v ∈ s.versions k, v.2.item < s.allocated ∧
    (s.item v.2.item).word.epoch ≠ 0
  committing : ∀ o st, s.stamp o = some st →
    0 < (s.commitEpoch o).toNat ∧ (s.commitEpoch o).toNat ≤ s.epoch.toNat
  protocol : Optimistic.Inv s.abs

/-! ## Locks of slots -/

section Locks

variable {s : Store} {i : ItemId} {x : Item}

theorem StoreInv.eq_home (h : StoreInv s) {k : Slot} (hk : s.index k = some i) :
    (s.item i).home = k := (h.home k i hk).2

theorem StoreInv.attached_of_index (h : StoreInv s) {k : Slot} (hk : s.index k = some i) :
    s.Attached i := by
  unfold Store.Attached
  rw [h.eq_home hk]
  exact hk

/-- Changing an attached item changes the lock of its slot. -/
theorem StoreInv.abs_setItem_attached (h : StoreInv s) (hatt : s.Attached i) :
    (s.setItem i x).abs
      = { s.abs with lock := update s.abs.lock (s.item i).home x.holder } := by
  have hlock : (s.setItem i x).abs.lock
      = update s.abs.lock (s.item i).home x.holder := by
    funext k
    show (s.index k).bind (fun j => (update s.item i x j).holder) = _
    by_cases hk : k = (s.item i).home
    · subst hk
      rw [update_self, show s.index _ = some i from hatt]
      show (update s.item i x i).holder = x.holder
      rw [update_self]
    · rw [update_of_ne hk]
      show _ = (s.index k).bind fun j => (s.item j).holder
      cases hidx : s.index k with
      | none => rfl
      | some j =>
        have hji : j ≠ i := by
          rintro rfl
          exact hk (h.eq_home hidx).symm
        show (update s.item i x j).holder = (s.item j).holder
        rw [update_of_ne hji]
  exact congrArg (fun l => ({ s.abs with lock := l } : Optimistic.State Slot Owner Version)) hlock

/-- Changing an item that is attached nowhere changes no lock, and neither does a
change that leaves the holder. -/
theorem StoreInv.abs_setItem_same (h : StoreInv s)
    (hsame : s.Attached i → x.holder = (s.item i).holder) : (s.setItem i x).abs = s.abs := by
  have hlock : (s.setItem i x).abs.lock = s.abs.lock := by
    funext k
    show (s.index k).bind (fun j => (update s.item i x j).holder)
      = (s.index k).bind fun j => (s.item j).holder
    cases hidx : s.index k with
    | none => rfl
    | some j =>
      show (update s.item i x j).holder = (s.item j).holder
      by_cases hji : j = i
      · subst hji
        rw [update_self]
        exact hsame (h.attached_of_index hidx)
      · rw [update_of_ne hji]
  exact congrArg (fun l => ({ s.abs with lock := l } : Optimistic.State Slot Owner Version)) hlock

theorem StoreInv.abs_lock_home (_h : StoreInv s) (hatt : s.Attached i) :
    s.abs.lock (s.item i).home = (s.item i).holder := by
  show (s.index _).bind _ = _
  rw [show s.index _ = some i from hatt]
  rfl

end Locks

/-! ## The store refines the protocol -/

section Refinement

variable {s : Store} {o : Owner} {a : Access}

theorem StoreInv.abs_insertBlank (h : StoreInv s) {k : Slot} (hk : s.index k = none) :
    (s.insertBlank k).abs = s.abs := by
  have hlock : (s.insertBlank k).abs.lock = s.abs.lock := by
    funext k'
    show (update s.index k (some s.allocated) k').bind
        (fun j => (update s.item s.allocated (.blank k (s.versions k).length) j).holder)
      = (s.index k').bind fun j => (s.item j).holder
    by_cases hkk : k' = k
    · subst hkk
      rw [update_self, hk]
      show (update s.item s.allocated _ s.allocated).holder = none
      rw [update_self]
      rfl
    · rw [update_of_ne hkk]
      cases hidx : s.index k' with
      | none => rfl
      | some j =>
        have hj : j ≠ s.allocated := Nat.ne_of_lt (h.home k' j hidx).1
        show (update s.item s.allocated _ j).holder = (s.item j).holder
        rw [update_of_ne hj]
  exact congrArg (fun l => ({ s.abs with lock := l } : Optimistic.State Slot Owner Version)) hlock

theorem Store.abs_unlink (s : Store) (k : Slot) :
    (s.unlink k).abs = { s.abs with lock := update s.abs.lock k none } := by
  have hlock : (s.unlink k).abs.lock = update s.abs.lock k none := by
    funext k'
    show (update s.index k none k').bind (fun j => (s.item j).holder) = _
    by_cases hk : k' = k
    · subst hk
      rw [update_self, update_self]
      rfl
    · rw [update_of_ne hk, update_of_ne hk]
      rfl
  exact congrArg (fun l => ({ s.abs with lock := l } : Optimistic.State Slot Owner Version)) hlock

theorem StoreInv.abs_publish (h : StoreInv s) {i : ItemId} {word : TransactionId}
    (hatt : s.Attached i) :
    (s.publish o i word).abs =
      { s.abs with
        versions := update s.abs.versions (s.item i).home
          (s.abs.versions (s.item i).home ++ [(o, ⟨word, (s.item i).content, i⟩)])
        lock := update s.abs.lock (s.item i).home none } := by
  -- the item changes as in any other access, and the versions beside it
  let x : Item :=
    { s.item i with
      word := word
      holder := none
      dirty := false
      seen := (s.versions (s.item i).home).length + 1 }
  show { (s.setItem i x).abs with
    versions := update s.versions (s.item i).home
      (s.versions (s.item i).home ++ [(o, Version.mk word (s.item i).content i)]) } = _
  rw [h.abs_setItem_attached hatt]
  rfl

/-- **Every permitted access is a step of the protocol, or none at all.** -/
theorem StoreInv.refines (h : StoreInv s) (hp : a.Permitted s o) :
    (s.access o a).abs = s.abs ∨ Optimistic.Step s.abs (s.access o a).abs := by
  cases a with
  | idle | advanceEpoch => exact .inl rfl
  | insertBlank => exact .inl (h.abs_insertBlank hp)
  | lock i =>
    obtain ⟨-, hfree, hstamp⟩ := hp
    have hholder : (s.item i).holder = none := by
      by_contra hne
      rw [(h.bit i).mpr hne] at hfree
      cases hfree
    by_cases hatt : s.Attached i
    · refine .inr ?_
      show Optimistic.Step s.abs (s.setItem i _).abs
      rw [h.abs_setItem_attached hatt]
      exact .acquire (by rw [h.abs_lock_home hatt, hholder]) hstamp
    · exact .inl (h.abs_setItem_same fun hatt' => absurd hatt' hatt)
  | storeWord i =>
    by_cases hatt : s.Attached i
    · refine .inr ?_
      show Optimistic.Step s.abs (s.setItem i _).abs
      rw [h.abs_setItem_attached hatt]
      exact .release ((h.abs_lock_home hatt).trans hp.1)
    · exact .inl (h.abs_setItem_same fun hatt' => absurd hatt' hatt)
  | serialize => exact .inr (.serialize hp)
  | install => exact .inl (h.abs_setItem_same fun _ => rfl)
  | publish i word =>
    obtain ⟨hheld, hstamp, hatt, -⟩ := hp
    obtain ⟨st, hst⟩ := Option.ne_none_iff_exists'.mp hstamp
    refine .inr ?_
    show Optimistic.Step s.abs (s.publish o i word).abs
    rw [h.abs_publish hatt]
    exact .publish _ hst ((h.abs_lock_home hatt).trans hheld)
  | unlink k =>
    obtain ⟨-, i, hk, hheld, -⟩ := hp
    refine .inr ?_
    show Optimistic.Step s.abs (s.unlink k).abs
    rw [s.abs_unlink k]
    refine .release (t := o) ?_
    show (s.index k).bind _ = some o
    rw [hk]
    exact hheld
  | observe => exact .inr (.observe hp.1 hp.2)
  | fix =>
    obtain ⟨st, hst⟩ := Option.ne_none_iff_exists'.mp hp.1
    exact .inr (.fix hst hp.2)

theorem StoreInv.protocol_access (h : StoreInv s) (hp : a.Permitted s o) :
    Optimistic.Inv (s.access o a).abs := by
  rcases h.refines hp with heq | hstep
  · rw [heq]
    exact h.protocol
  · exact h.protocol.step hstep

end Refinement

end LineairDB.Silo
