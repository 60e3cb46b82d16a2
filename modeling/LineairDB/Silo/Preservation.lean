import LineairDB.Silo.Invariant

/-!
# The accesses preserve the invariant

One lemma for each access, from what its party has to know before it; the
protocol's part comes from the refinement.

* `StoreInv.access` — every permitted access preserves the invariant of the
  store.
-/

namespace LineairDB.Silo

open Function (update_self update_of_ne update forall_update_iff)

variable {k : Slot} {word : TransactionId}

variable {s s' : Store} {o : Owner} {i : ItemId} {x : Item}

/-! ## What an access elsewhere leaves -/

theorem Vacant.transfer (h : Vacant s k) (hversions : s'.versions k = s.versions k)
    (hepoch : s.epoch.toNat ≤ s'.epoch.toNat) : Vacant s' k := by
  constructor
  · intro v hv
    rw [hversions] at hv
    exact Nat.le_trans (h.old v hv) hepoch
  · rw [hversions]
    exact h.dead

theorem ItemInv.transfer (h : ItemInv s k x) (hversions : s'.versions k = s.versions k)
    (hepoch : s.epoch.toNat ≤ s'.epoch.toNat) (hstamp : s'.stamp = s.stamp)
    (hcommit : s'.commitEpoch = s.commitEpoch) : ItemInv s' k x := by
  constructor
  · rw [hversions]
    exact h.seen
  · intro hzero
    obtain ⟨hempty, hblank, hvacant⟩ := h.fresh hzero
    exact ⟨hempty, hblank, hvacant.transfer hversions hepoch⟩
  · rw [hversions]
    exact h.current
  · rw [hversions, hstamp, hcommit]
    exact h.bound

/-! ## Accesses to one item -/

theorem Store.attached_setItem (hhome : x.home = (s.item i).home) (j : ItemId) :
    (s.setItem i x).Attached j ↔ s.Attached j := by
  have hsame : ((s.setItem i x).item j).home = (s.item j).home := by
    revert j
    exact (forall_update_iff s.item fun j y => y.home = (s.item j).home).mpr ⟨hhome, fun _ _ => rfl⟩
  unfold Store.Attached
  rw [hsame]
  exact Iff.rfl

section

variable (h : StoreInv s)

include h

/-- What an access to one item has to establish. -/
theorem StoreInv.setItem (hi : i < s.allocated)
    (hhome : x.home = (s.item i).home) (hseen : x.seen = (s.item i).seen)
    (hbit : x.word.isLocked = true ↔ x.holder ≠ none)
    (hatt : s.Attached i → ItemInv s (s.item i).home x) (hdet : ¬ s.Attached i →
      x.content.initializedAt (s.item i).home = false ∧ x.dirty = false)
    (hdirty : x.dirty = true → ∃ o st, x.holder = some o ∧ s.stamp o = some st)
    (hepoch : (s.item i).word.epoch ≠ 0 → x.word.epoch ≠ 0)
    (hprotocol : Optimistic.Inv (s.setItem i x).abs) : StoreInv (s.setItem i x) := by
  -- every field about items splits into the changed one and the others
  have split : ∀ {P : ItemId → Item → Prop}, P i x → (∀ j, j ≠ i → P j (s.item j)) →
      ∀ j, P j ((s.setItem i x).item j) := fun hP hother =>
    (forall_update_iff s.item _).mpr ⟨hP, hother⟩
  refine { h with
    home := ?_, unused := ?_, bit := ?_, attached := ?_, vacant := ?_, detached := ?_
    seen_le := ?_, dirty := ?_, published := ?_, protocol := hprotocol }
  · intro k j hk
    refine ⟨(h.home k j hk).1, ?_⟩
    refine split (P := fun j y => s.index k = some j → y.home = k) ?_ ?_ j hk
    · intro hk
      rw [hhome, h.eq_home hk]
    · intro j _ hk
      exact h.eq_home hk
  · refine split (P := fun j y => s.allocated ≤ j → y.holder = none) ?_ ?_
    · intro hle
      exact absurd hi (Nat.not_lt.mpr hle)
    · intro j _ hle
      exact h.unused j hle
  · exact split (P := fun _ y => y.word.isLocked = true ↔ y.holder ≠ none) hbit fun j _ => h.bit j
  · intro k j hk
    have hitem : ItemInv s k ((s.setItem i x).item j) := by
      refine split (P := fun j y => s.index k = some j → ItemInv s k y) ?_ ?_ j hk
      · intro hk
        have hattached := hatt (h.attached_of_index hk)
        rwa [h.eq_home hk] at hattached
      · intro j _ hk
        exact h.attached k j hk
    exact hitem.transfer rfl le_rfl rfl rfl
  · intro k hk
    exact (h.vacant k hk).transfer rfl le_rfl
  · intro j hj
    rw [Store.attached_setItem hhome] at hj
    refine split (P := fun j y => ¬ s.Attached j →
      y.content.initializedAt y.home = false ∧ y.dirty = false) ?_ (fun j _ => h.detached j) j hj
    rw [hhome]
    exact hdet
  · refine split (P := fun _ y => y.seen ≤ (s.versions y.home).length) ?_ fun j _ => h.seen_le j
    rw [hhome, hseen]
    exact h.seen_le i
  · exact split
      (P := fun _ y => y.dirty = true → ∃ o st, y.holder = some o ∧ s.stamp o = some st) hdirty
      fun j _ => h.dirty j
  · intro k v hv
    obtain ⟨hlt, hne⟩ := h.published k v hv
    refine ⟨hlt, ?_⟩
    exact split (P := fun j y => (s.item j).word.epoch ≠ 0 → y.word.epoch ≠ 0) hepoch
      (fun _ _ => id) v.2.item hne

theorem StoreInv.holder_of_not_isLocked (hfree : (s.item i).word.isLocked = false) :
    (s.item i).holder = none := by
  by_contra hne
  rw [(h.bit i).mpr hne] at hfree
  cases hfree

theorem StoreInv.isLocked_of_held (hheld : (s.item i).holder = some o) :
    (s.item i).word.isLocked = true :=
  (h.bit i).mpr (by rw [hheld]; exact nofun)

theorem StoreInv.clean_of_unheld (hfree : (s.item i).holder = none) : (s.item i).dirty = false := by
  by_contra hdirty
  obtain ⟨o, st, hheld, -⟩ := h.dirty i (Bool.eq_true_of_not_eq_false hdirty)
  rw [hfree] at hheld
  cases hheld

/-- Who has no stamp has installed nothing. -/
theorem StoreInv.clean_of_unstamped (hheld : (s.item i).holder = some o)
    (hstamp : s.stamp o = none) : (s.item i).dirty = false := by
  by_contra hdirty
  obtain ⟨o', st, hheld', hst⟩ := h.dirty i (Bool.eq_true_of_not_eq_false hdirty)
  rw [hheld] at hheld'
  cases hheld'
  rw [hstamp] at hst
  cases hst

theorem StoreInv.lt_allocated_of_held (hheld : (s.item i).holder = some o) : i < s.allocated := by
  by_contra hge
  rw [h.unused i (Nat.le_of_not_lt hge)] at hheld
  cases hheld

omit h in
/-- The lock bit is no part of what an item's word says about its versions. -/
theorem ItemInv.reword (h : ItemInv s k x) {holder : Option Owner} (hbase : word.base = x.word.base)
    (hholder : ∀ o st, holder = some o → s.stamp o ≠ some st) :
    ItemInv s k { x with word := word, holder := holder } := by
  have hepoch : word.epoch = x.word.epoch := by
    rw [← TransactionId.epoch_base, hbase, TransactionId.epoch_base]
  refine ⟨h.seen, ?_, ?_, ?_⟩
  · intro hzero
    rw [hepoch] at hzero
    rw [hbase]
    exact h.fresh hzero
  · intro hne
    rw [hepoch] at hne
    rw [hbase]
    exact h.current hne
  · intro o st hheld hst
    exact absurd hst (hholder o st hheld)

theorem StoreInv.lock (hp : (Access.lock i).Permitted s o) : StoreInv (s.lock o i) := by
  have hprotocol := h.protocol_access hp
  obtain ⟨hi, hfree, hstamp⟩ := hp
  have hclean := h.clean_of_unheld (h.holder_of_not_isLocked hfree)
  refine h.setItem hi rfl rfl ?_ ?_ (h.detached i) ?_ id hprotocol
  · simp [TransactionId.isLocked_locked]
  · intro hatt
    refine (h.attached _ _ hatt).reword ?_ ?_
    · rw [TransactionId.base_locked hfree, TransactionId.base_of_not_isLocked hfree]
    · intro o' st heq hst
      cases heq
      rw [hstamp] at hst
      cases hst
  · intro hd
    rw [hclean] at hd
    cases hd

theorem StoreInv.storeWord (hp : (Access.storeWord i word).Permitted s o) :
    StoreInv (s.storeWord i word) := by
  have hprotocol := h.protocol_access hp
  obtain ⟨hheld, hclean, heven, hepoch, hback⟩ := hp
  refine h.setItem (h.lt_allocated_of_held hheld) rfl rfl ?_ ?_ (h.detached i) ?_ ?_ hprotocol
  · simp [heven]
  · intro hatt
    refine (h.attached _ _ hatt).reword ?_ (fun o' st heq => by cases heq)
    rw [TransactionId.base_of_not_isLocked heven, (hback.resolve_right fun hdet => hdet.1 hatt).1,
      TransactionId.base, if_pos (h.isLocked_of_held hheld)]
  · intro hd
    rw [hclean] at hd
    cases hd
  · intro hne
    rw [hepoch]
    exact hne

theorem StoreInv.install {c : Content}
    (hp : (Access.install i c).Permitted s o) : StoreInv (s.install i c) := by
  have hprotocol := h.protocol_access hp
  obtain ⟨hheld, hstamp, hatt⟩ := hp
  obtain ⟨st, hst⟩ := Option.ne_none_iff_exists'.mp hstamp
  refine h.setItem (h.lt_allocated_of_held hheld) rfl rfl (h.bit i) ?_ ?_ ?_ id hprotocol
  · intro _
    have hinv := h.attached _ _ hatt
    refine ⟨hinv.seen, ?_, ?_, hinv.bound⟩
    · intro hzero
      obtain ⟨hempty, -, hvacant⟩ := hinv.fresh hzero
      refine ⟨hempty, ?_, hvacant⟩
      intro hd
      cases (hd : true = false)
    · intro hne
      obtain ⟨v, hlast, htid, -⟩ := hinv.current hne
      refine ⟨v, hlast, htid, ?_⟩
      intro hd
      cases (hd : true = false)
  · intro hdet
    exact absurd hatt hdet
  · intro _
    exact ⟨o, st, hheld, hst⟩

/-! ## Publishing -/

omit h in
/-- What holds of every two neighbours holds of a list's last element and any other. -/
theorem rel_last_of_pairwise {α : Type} {R : α → α → Prop} (hrefl : ∀ a, R a a) {l : List α}
    (hpair : l.Pairwise R) {v w : α} (hlast : l.getLast? = some w) (hv : v ∈ l) : R v w := by
  rw [← List.dropLast_append_getLast? w hlast] at hpair hv
  rcases List.mem_append.mp hv with hv | hv
  · exact (List.pairwise_append.mp hpair).2.2 v hv w (List.mem_singleton.mpr rfl)
  · rw [List.mem_singleton.mp hv]
    exact hrefl w

/-- The last version of a slot is the highest. -/
theorem StoreInv.val_le_last (hwrap : s.NoWrap) {v w : Owner × Version}
    (hlast : (s.versions k).getLast? = some w) (hv : v ∈ s.versions k) :
    v.2.tid.val ≤ w.2.tid.val := by
  refine rel_last_of_pairwise (R := fun v w : Owner × Version => v.2.tid.val ≤ w.2.tid.val)
    (fun _ => le_rfl) ?_ hlast hv
  exact (h.ordered hwrap k).imp Nat.le_of_lt

/-- The last version of a slot lies in its latest epoch. -/
theorem StoreInv.epoch_le_last {v w : Owner × Version}
    (hlast : (s.versions k).getLast? = some w) (hv : v ∈ s.versions k) :
    v.2.tid.epoch.toNat ≤ w.2.tid.epoch.toNat :=
  rel_last_of_pairwise (R := fun v w : Owner × Version => v.2.tid.epoch.toNat ≤ w.2.tid.epoch.toNat)
    (fun _ => le_rfl) (h.epochs k) hlast hv

/-- The word a holder publishes lies in its commit epoch, and no version of the slot
lies in a later one. -/
theorem StoreInv.epoch_le_next (hp : (Access.publish i word).Permitted s o) :
    word.epoch = s.commitEpoch o ∧ word.isLocked = false ∧
      ∀ v ∈ s.versions (s.item i).home, v.2.tid.epoch.toNat ≤ word.epoch.toNat := by
  obtain ⟨hheld, hstamp, hatt, rfl⟩ := hp
  obtain ⟨st, hst⟩ := Option.ne_none_iff_exists'.mp hstamp
  have hinv := h.attached _ _ hatt
  obtain ⟨hle, hnew⟩ := hinv.bound o st hheld hst
  refine ⟨TransactionId.epoch_next _ _,
    TransactionId.isLocked_next (h.isLocked_of_held hheld) _, ?_⟩
  intro v hv
  rw [TransactionId.epoch_next]
  by_cases hzero : (s.item i).word.epoch = 0
  · exact Nat.le_of_lt (hnew hzero v hv)
  · obtain ⟨w, hlast, htid, -⟩ := hinv.current hzero
    refine Nat.le_trans (h.epoch_le_last hlast hv) ?_
    rw [htid, TransactionId.epoch_base]
    exact hle

/-- The word a holder publishes is later than every version of the slot. -/
theorem StoreInv.val_lt_next (hwrap : s.NoWrap) (hp : (Access.publish i word).Permitted s o) :
    (s.item i).word.base.val < word.val ∧
      ∀ v ∈ s.versions (s.item i).home, v.2.tid.val < word.val := by
  obtain ⟨hheld, hstamp, hatt, rfl⟩ := hp
  obtain ⟨st, hst⟩ := Option.ne_none_iff_exists'.mp hstamp
  have hinv := h.attached _ _ hatt
  obtain ⟨hle, hnew⟩ := hinv.bound o st hheld hst
  have hslot : (s.item i).home ∈ s.slots := h.slots _ (by rw [hatt]; exact nofun)
  have hroom : (s.item i).word.base.tid.toNat < 2 ^ 32 - 2 := by
    by_cases hzero : (s.item i).word.epoch = 0
    · rw [(hinv.fresh hzero).1]
      decide
    · obtain ⟨v, hlast, htid, -⟩ := hinv.current hzero
      rw [← htid]
      exact hwrap _ hslot v (List.mem_of_getLast? hlast)
  have hbefore : (s.item i).word.base.epoch.toNat ≤ (s.commitEpoch o).toNat := by
    rw [TransactionId.epoch_base]
    exact hle
  have hlt := TransactionId.val_lt_next (TransactionId.isLocked_base _) hbefore hroom
  rw [TransactionId.locked_base (h.isLocked_of_held hheld)] at hlt
  refine ⟨hlt, ?_⟩
  intro v hv
  by_cases hzero : (s.item i).word.epoch = 0
  · refine TransactionId.val_lt_of_epoch_lt ?_
    rw [TransactionId.epoch_next]
    exact hnew hzero v hv
  · obtain ⟨w, hlast, htid, -⟩ := hinv.current hzero
    rw [← htid] at hlt
    exact Nat.lt_of_le_of_lt (h.val_le_last hwrap hlast hv) hlt

omit h in
/-- The versions of one slot change, by one more at the end. -/
theorem Store.versions_publish (s : Store) (o : Owner) (i : ItemId) (word : TransactionId)
    (k : Slot) : (s.publish o i word).versions k = s.versions k ∨
      k = (s.item i).home ∧ (s.publish o i word).versions k
        = s.versions (s.item i).home ++ [(o, ⟨word, (s.item i).content, i⟩)] := by
  by_cases hk : k = (s.item i).home
  · rw [hk]
    exact .inr ⟨rfl, update_self ..⟩
  · exact .inl (update_of_ne hk ..)

omit h in
theorem Store.mem_versions_publish {v : Owner × Version}
    (hv : v ∈ (s.publish o i word).versions k) :
    v ∈ s.versions k ∨ v = (o, ⟨word, (s.item i).content, i⟩) := by
  rcases s.versions_publish o i word k with heq | ⟨rfl, heq⟩
  · rw [heq] at hv
    exact .inl hv
  · rw [heq] at hv
    exact mem_concat.mp hv

omit h in
/-- What orders the versions of every slot orders them with the new one behind. -/
theorem Store.pairwise_publish {R : Owner × Version → Owner × Version → Prop}
    (hpair : ∀ k, (s.versions k).Pairwise R)
    (hlast : ∀ v ∈ s.versions (s.item i).home, R v (o, ⟨word, (s.item i).content, i⟩)) (k : Slot) :
    ((s.publish o i word).versions k).Pairwise R := by
  rcases s.versions_publish o i word k with heq | ⟨rfl, heq⟩
  · rw [heq]
    exact hpair k
  · rw [heq]
    refine List.pairwise_append.mpr ⟨hpair _, List.pairwise_singleton _ _, fun v hv w hw => ?_⟩
    rw [List.mem_singleton.mp hw]
    exact hlast v hv

omit h in
/-- The slots of the other items keep their versions. -/
theorem Store.versions_publish_of_ne (hatt : s.Attached i) (hk : s.index k ≠ some i) :
    (s.publish o i word).versions k = s.versions k := by
  refine update_of_ne ?_ ..
  rintro rfl
  exact hk hatt

/-- **A published item is current**, and the items of the other slots are as they were. -/
theorem StoreInv.attached_publish (hatt : s.Attached i) (hfresh : word.epoch ≠ 0)
    (heven : word.isLocked = false) (j : ItemId) (hk : s.index k = some j) :
    ItemInv (s.publish o i word) k ((s.publish o i word).item j) := by
  refine (forall_update_iff s.item fun j z =>
    s.index k = some j → ItemInv (s.publish o i word) k z).mpr ⟨?_, ?_⟩ j hk
  · intro hk
    obtain rfl : (s.item i).home = k := h.eq_home hk
    have hself : (s.publish o i word).versions (s.item i).home
        = s.versions (s.item i).home ++ [(o, ⟨word, (s.item i).content, i⟩)] := update_self ..
    constructor
    · rw [hself, List.length_append]
      rfl
    · exact fun hzero => absurd hzero hfresh
    · intro _
      refine ⟨(o, ⟨word, (s.item i).content, i⟩), ?_, ?_, fun _ => rfl⟩
      · rw [hself, List.getLast?_concat]
      · exact (TransactionId.base_of_not_isLocked heven).symm
    · intro o' st' hnone
      cases hnone
  · intro j hji hk
    refine (h.attached k j hk).transfer
      (Store.versions_publish_of_ne hatt fun hi => hji ?_) le_rfl rfl rfl
    rw [hk] at hi
    exact Option.some.inj hi

/-- No item loses its epoch, and the one that publishes has one. -/
theorem StoreInv.published_publish (hi : i < s.allocated) (hfresh : word.epoch ≠ 0)
    {v : Owner × Version} (hv : v ∈ (s.publish o i word).versions k) :
    v.2.item < s.allocated ∧ ((s.publish o i word).item v.2.item).word.epoch ≠ 0 := by
  have hstamped : ∀ j, (s.item j).word.epoch ≠ 0 ∨ j = i →
      ((s.publish o i word).item j).word.epoch ≠ 0 :=
    (forall_update_iff s.item fun j y => (s.item j).word.epoch ≠ 0 ∨ j = i → y.word.epoch ≠ 0).mpr
      ⟨fun _ => hfresh, fun j hji hne => hne.resolve_right hji⟩
  rcases Store.mem_versions_publish hv with hv | rfl
  · exact ⟨(h.published k v hv).1, hstamped _ (.inl (h.published k v hv).2)⟩
  · exact ⟨hi, hstamped _ (.inr rfl)⟩

theorem StoreInv.publish (hp : (Access.publish i word).Permitted s o) :
    StoreInv (s.publish o i word) := by
  have hprotocol := h.protocol_access hp
  obtain ⟨hepoch, heven, hlater⟩ := h.epoch_le_next hp
  have habove := fun hwrap => (h.val_lt_next hwrap hp).2
  obtain ⟨hheld, hstamp, hatt, -⟩ := hp
  obtain ⟨st, hst⟩ := Option.ne_none_iff_exists'.mp hstamp
  obtain ⟨hpos, hbefore⟩ := h.committing o st hst
  have hfresh : word.epoch ≠ 0 := by
    intro hzero
    rw [← hepoch, hzero] at hpos
    exact absurd hpos (Nat.lt_irrefl _)
  have hhome : ∀ j, ((s.publish o i word).item j).home = (s.item j).home :=
    (forall_update_iff s.item fun j y => y.home = (s.item j).home).mpr ⟨rfl, fun _ _ => rfl⟩
  refine { h with
    home := ?_, unused := ?_, bit := ?_, vacant := ?_, detached := ?_, seen_le := ?_, dirty := ?_
    ordered := ?_, version := ?_, protocol := hprotocol
    attached := fun _ j => h.attached_publish hatt hfresh heven j
    epochs := Store.pairwise_publish h.epochs hlater
    published := fun _ _ => h.published_publish (h.lt_allocated_of_held hheld) hfresh }
  · intro k j hk
    rw [hhome]
    exact h.home k j hk
  · exact (forall_update_iff s.item fun j y => s.allocated ≤ j → y.holder = none).mpr
      ⟨fun _ => rfl, fun j _ => h.unused j⟩
  · exact (forall_update_iff s.item fun _ y => y.word.isLocked = true ↔ y.holder ≠ none).mpr
      ⟨by simp [heven], fun j _ => h.bit j⟩
  · intro k hk
    refine (h.vacant k hk).transfer (Store.versions_publish_of_ne hatt ?_) le_rfl
    rw [show s.index k = none from hk]
    exact nofun
  · intro j hj
    unfold Store.Attached at hj
    rw [hhome] at hj
    exact (forall_update_iff s.item fun j y => ¬ s.Attached j →
      y.content.initializedAt y.home = false ∧ y.dirty = false).mpr
      ⟨absurd hatt, fun j _ => h.detached j⟩ j hj
  · refine (forall_update_iff s.item fun _ y =>
      y.seen ≤ ((s.publish o i word).versions y.home).length).mpr ⟨?_, ?_⟩
    · show _ ≤ (update s.versions (s.item i).home _ (s.item i).home).length
      rw [update_self, List.length_append]
      exact le_rfl
    · intro j _
      have hgrown := (s.versions_access o (.publish i word) (s.item j).home).length_le
      exact Nat.le_trans (h.seen_le j) hgrown
  · exact (forall_update_iff s.item fun _ y => y.dirty = true →
      ∃ o st, y.holder = some o ∧ s.stamp o = some st).mpr ⟨nofun, fun j _ => h.dirty j⟩
  · intro hwrap'
    have hwrap := hwrap'.of_grows (s.grows_access o o (.publish i word))
    exact Store.pairwise_publish (h.ordered hwrap) (habove hwrap)
  · intro k v hv
    rcases Store.mem_versions_publish hv with hv | rfl
    · exact h.version k v hv
    · rw [hepoch]
      exact ⟨heven, hpos, hbefore⟩

/-! ## Attaching and unlinking -/

omit h in
theorem Content.buffer_of_not_initializedAt {c : Content} (h : c.initializedAt k = false) :
    c.buffer = [] := by
  cases k <;> simp_all [Content.initializedAt, Content.isPrimaryInitialized, Content.isInitialized]

/-- A detached item holds no row. -/
theorem StoreInv.buffer_detached (hdet : ¬ s.Attached i) : (s.item i).content.buffer = [] :=
  Content.buffer_of_not_initializedAt (h.detached i hdet).1

/-- The new item belongs to its slot, and the others to theirs. -/
theorem StoreInv.index_insertBlank {k' : Slot} {j : ItemId}
    (hidx : (s.insertBlank k).index k' = some j) :
    k' = k ∧ j = s.allocated ∧ (s.insertBlank k).item j = .blank k (s.versions k).length ∨
      s.index k' = some j ∧ (s.insertBlank k).item j = s.item j := by
  change update s.index k (some s.allocated) k' = some j at hidx
  by_cases hkk : k' = k
  · rw [hkk, update_self] at hidx
    cases hidx
    exact .inl ⟨hkk, rfl, update_self ..⟩
  · rw [update_of_ne hkk] at hidx
    exact .inr ⟨hidx, update_of_ne (Nat.ne_of_lt (h.home k' j hidx).1) ..⟩

omit h in
theorem Store.Attached.home_ne (hatt : s.Attached i) (hk : s.index k = none) :
    (s.item i).home ≠ k := by
  rintro rfl
  rw [show s.index _ = some i from hatt] at hk
  cases hk

theorem StoreInv.insertBlank (hk : s.index k = none) : StoreInv (s.insertBlank k) := by
  have hprotocol : Optimistic.Inv (s.insertBlank k).abs := by
    rw [h.abs_insertBlank hk]
    exact h.protocol
  refine { h with
    home := ?_, slots := ?_, unused := ?_, bit := ?_, attached := ?_, vacant := ?_, detached := ?_
    seen_le := ?_, dirty := ?_, ordered := ?_, published := ?_, protocol := hprotocol }
  · intro k' j hidx
    rcases h.index_insertBlank hidx with ⟨rfl, rfl, hitem⟩ | ⟨hidx, hitem⟩
    · rw [hitem]
      exact ⟨Nat.lt_succ_self _, rfl⟩
    · rw [hitem]
      exact (h.home k' j hidx).imp_left Nat.lt_succ_of_lt
  · intro k' hidx
    obtain ⟨j, hj⟩ := Option.ne_none_iff_exists'.mp hidx
    rcases h.index_insertBlank hj with ⟨rfl, -⟩ | ⟨hidx, -⟩
    · exact .head _
    · exact .tail _ (h.slots k' (by rw [hidx]; exact nofun))
  · exact (forall_update_iff s.item fun j y => s.allocated + 1 ≤ j → y.holder = none).mpr
      ⟨fun _ => rfl, fun j _ hj => h.unused j (Nat.le_of_lt hj)⟩
  · exact (forall_update_iff s.item fun _ y => y.word.isLocked = true ↔ y.holder ≠ none).mpr
      ⟨by simp [Item.blank], fun j _ => h.bit j⟩
  · intro k' j hidx
    rcases h.index_insertBlank hidx with ⟨rfl, rfl, hitem⟩ | ⟨hidx, hitem⟩
    · rw [hitem]
      exact ⟨rfl, fun _ => ⟨TransactionId.base_empty, fun _ => rfl,
        (h.vacant k' hk).transfer rfl le_rfl⟩, fun hne => absurd rfl hne, nofun⟩
    · rw [hitem]
      exact (h.attached k' j hidx).transfer rfl le_rfl rfl rfl
  · intro k' hidx
    refine (h.vacant k' ?_).transfer rfl le_rfl
    by_cases hkk : k' = k
    · rw [hkk]
      exact hk
    · change update s.index k _ k' = none at hidx
      rwa [update_of_ne hkk] at hidx
  · refine (forall_update_iff s.item fun j y => (s.insertBlank k).index y.home ≠ some j →
      y.content.initializedAt y.home = false ∧ y.dirty = false).mpr ⟨fun _ => ⟨?_, rfl⟩, ?_⟩
    · cases k <;> rfl
    · intro j _ hj
      refine h.detached j fun hatt => hj ?_
      exact (update_of_ne (hatt.home_ne hk) ..).trans hatt
  · exact (forall_update_iff s.item fun _ y => y.seen ≤ (s.versions y.home).length).mpr
      ⟨le_rfl, fun j _ => h.seen_le j⟩
  · exact (forall_update_iff s.item fun _ y => y.dirty = true →
      ∃ o st, y.holder = some o ∧ s.stamp o = some st).mpr ⟨nofun, fun j _ => h.dirty j⟩
  · exact fun hwrap => h.ordered (hwrap.of_grows (s.grows_access .reaper .reaper (.insertBlank k)))
  · intro k' v hv
    obtain ⟨hlt, hne⟩ := h.published k' v hv
    refine ⟨Nat.lt_succ_of_lt hlt, ?_⟩
    rw [show (s.insertBlank k).item v.2.item = _ from update_of_ne (Nat.ne_of_lt hlt) ..]
    exact hne

theorem StoreInv.unlink (hp : (Access.unlink k).Permitted s o) : StoreInv (s.unlink k) := by
  have hprotocol := h.protocol_access hp
  obtain ⟨-, i, hk, hheld, hstamp, hdead, hne, hgrace⟩ := hp
  have hclean := h.clean_of_unstamped hheld hstamp
  have hinv := h.attached k i hk
  obtain ⟨w, hlast, htid, hcontent⟩ := hinv.current hne
  have hself : (s.unlink k).index k = none := update_self ..
  have hother : ∀ k', k' ≠ k → (s.unlink k).index k' = s.index k' :=
    fun k' hkk => update_of_ne hkk ..
  have hindex : ∀ k' j, (s.unlink k).index k' = some j → s.index k' = some j := by
    intro k' j hidx
    by_cases hkk : k' = k
    · rw [hkk, hself] at hidx
      cases hidx
    · rwa [hother k' hkk] at hidx
  refine { h with
    home := ?_, slots := ?_, attached := ?_, vacant := ?_, detached := ?_, protocol := hprotocol }
  · exact fun k' j hidx => h.home k' j (hindex k' j hidx)
  · intro k' hidx
    obtain ⟨j, hj⟩ := Option.ne_none_iff_exists'.mp hidx
    exact h.slots k' (by rw [hindex k' j hj]; exact nofun)
  · intro k' j hidx
    exact (h.attached k' j (hindex k' j hidx)).transfer rfl le_rfl rfl rfl
  · intro k' hidx
    by_cases hkk : k' = k
    · subst hkk
      constructor
      · -- every version lies at or below the tombstone, which is old enough
        intro v hv
        have hepoch := h.epoch_le_last hlast hv
        rw [htid, TransactionId.epoch_base] at hepoch
        exact Nat.le_trans (Nat.add_le_add_right hepoch 2) hgrace
      · intro v hv
        have hsame : some v = some w := hv.symm.trans hlast
        cases hsame
        rw [← hcontent hclean]
        exact hdead
    · rw [hother k' hkk] at hidx
      exact (h.vacant k' hidx).transfer rfl le_rfl
  · intro j hj
    by_cases hji : j = i
    · subst hji
      refine ⟨?_, hclean⟩
      show (s.item j).content.initializedAt (s.item j).home = false
      rw [h.eq_home hk]
      exact hdead
    · refine h.detached j fun hattj => hj ?_
      show (s.unlink k).index (s.item j).home = some j
      rw [hother _ fun hhome => ?_]
      · exact hattj
      · rw [← hhome, show s.index _ = some j from hattj] at hk
        cases hk
        exact hji rfl

/-- Only unlinking detaches. -/
theorem StoreInv.attached_access {a : Access} (hp : a.Permitted s o)
    (hkeep : ∀ k, a ≠ .unlink k) (hatt : s.Attached i) : (s.access o a).Attached i := by
  have hi : i < s.allocated := (h.home _ _ hatt).1
  unfold Store.Attached
  rw [s.home_access o a hi]
  cases a with
  | insertBlank k => exact (update_of_ne (hatt.home_ne hp) ..).trans hatt
  | unlink k => exact absurd rfl (hkeep k)
  | _ => exact hatt

/-! ## Epochs and stamps -/

theorem StoreInv.epoch_le (hatt : s.Attached i) : (s.item i).word.epoch.toNat ≤ s.epoch.toNat := by
  by_cases hzero : (s.item i).word.epoch = 0
  · rw [hzero]
    exact Nat.zero_le _
  · obtain ⟨v, hlast, htid, -⟩ := (h.attached _ _ hatt).current hzero
    rw [← TransactionId.epoch_base, ← htid]
    exact (h.version _ v (List.mem_of_getLast? hlast)).2.2

theorem StoreInv.serialize (hstamp : s.stamp o = none) : StoreInv (s.serialize o) := by
  have hprotocol : Optimistic.Inv (s.serialize o).abs := h.protocol_access (a := .serialize) hstamp
  have hself : (s.serialize o).commitEpoch o = s.epoch := update_self ..
  have hother : ∀ o', o' ≠ o → (s.serialize o).commitEpoch o' = s.commitEpoch o' :=
    fun o' ho => update_of_ne ho ..
  have hstamps : ∀ o', o' ≠ o → (s.serialize o).stamp o' = s.stamp o' :=
    fun o' ho => update_of_ne ho ..
  refine { h with
    attached := ?_, vacant := ?_, dirty := ?_, committing := ?_, protocol := hprotocol }
  · intro k j hidx
    have hinv := h.attached k j hidx
    refine ⟨hinv.seen, ?_, hinv.current, ?_⟩
    · intro hzero
      obtain ⟨hempty, hblank, hvacant⟩ := hinv.fresh hzero
      exact ⟨hempty, hblank, hvacant.transfer rfl le_rfl⟩
    · intro o' st hheld hst
      by_cases ho : o' = o
      · subst ho
        rw [hself]
        refine ⟨h.epoch_le (h.attached_of_index hidx), ?_⟩
        intro hzero v hv
        have hold := (hinv.fresh hzero).2.2.old v hv
        omega
      · rw [hother o' ho]
        rw [hstamps o' ho] at hst
        exact hinv.bound o' st hheld hst
  · exact fun k hidx => (h.vacant k hidx).transfer rfl le_rfl
  · intro j hd
    obtain ⟨o', st, hheld, hst⟩ := h.dirty j hd
    have ho : o' ≠ o := by
      rintro rfl
      rw [hstamp] at hst
      cases hst
    exact ⟨o', st, hheld, by rw [hstamps o' ho, hst]⟩
  · intro o' st hst
    by_cases ho : o' = o
    · rw [ho, hself]
      exact ⟨h.epoch_pos, le_rfl⟩
    · rw [hother o' ho]
      rw [hstamps o' ho] at hst
      exact h.committing o' st hst

omit h in
theorem Store.toNat_advanceEpoch (hroom : s.epoch.toNat + 1 < 2 ^ 32) :
    s.advanceEpoch.epoch.toNat = s.epoch.toNat + 1 := by
  show (s.epoch + 1).toNat = _
  rw [UInt32.toNat_add]
  exact Nat.mod_eq_of_lt hroom

theorem StoreInv.advanceEpoch (hroom : s.epoch.toNat + 1 < 2 ^ 32) : StoreInv s.advanceEpoch := by
  have hsucc := Store.toNat_advanceEpoch hroom
  have hle : s.epoch.toNat ≤ s.advanceEpoch.epoch.toNat := by omega
  refine { h with
    epoch_pos := Nat.lt_of_lt_of_le h.epoch_pos hle
    attached := fun k j hidx => (h.attached k j hidx).transfer rfl hle rfl rfl
    vacant := fun k hidx => (h.vacant k hidx).transfer rfl hle
    version := ?_, committing := ?_ }
  · intro k v hv
    obtain ⟨heven, hpos, hbefore⟩ := h.version k v hv
    exact ⟨heven, hpos, Nat.le_trans hbefore hle⟩
  · intro o st hst
    obtain ⟨hpos, hbefore⟩ := h.committing o st hst
    exact ⟨hpos, Nat.le_trans hbefore hle⟩

/-- What the protocol alone notes changes nothing else. -/
theorem StoreInv.note {observed fixed : Owner → Set (Slot × ℕ)}
    (hprotocol : Optimistic.Inv { s with observed := observed, fixed := fixed }.abs) :
    StoreInv { s with observed := observed, fixed := fixed } :=
  { h with
    attached := fun k j hidx => (h.attached k j hidx).transfer rfl le_rfl rfl rfl
    vacant := fun k hidx => (h.vacant k hidx).transfer rfl le_rfl
    protocol := hprotocol }

/-- **Every permitted access preserves the invariant of the store.** -/
theorem StoreInv.access {a : Access} (hp : a.Permitted s o) : StoreInv (s.access o a) := by
  cases a with
  | idle => exact h
  | insertBlank => exact h.insertBlank hp
  | lock => exact h.lock hp
  | storeWord => exact h.storeWord hp
  | serialize => exact h.serialize hp
  | install => exact h.install hp
  | publish => exact h.publish hp
  | unlink => exact h.unlink hp
  | advanceEpoch => exact h.advanceEpoch hp
  | observe k p => exact h.note (h.protocol_access (a := .observe k p) hp)
  | fix D => exact h.note (h.protocol_access (a := .fix D) hp)

end

end LineairDB.Silo
