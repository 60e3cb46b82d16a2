import LineairDB.Silo.Preservation

/-!
# What the parties can count on

While one party makes an access, every other one keeps the items it holds, its
stamp and its notes; versions only grow; and as long as no sequence number is
used up, an item whose base word has not moved still has the content it had,
unless somebody is about to publish, and is where it was.

* `StoreInv.steady` — what every permitted access leaves of the items.
* `StoreInv.rely` — every permitted access of one party is what the others
  count on.
-/

namespace LineairDB.Silo

open Function (update_self update_of_ne update update_apply)

variable {k : Slot} {a : Access}

variable {s s' : Store} {o o' : Owner} {i j : ItemId}

/-- The item is attached, or the reaper is about to give it a word that says it is
not. -/
def Store.InPlace (s : Store) (i : ItemId) : Prop :=
  s.Attached i ∨ (s.item i).holder = some .reaper

/-- What every access leaves of the items, whoever makes it. -/
structure Steady (s s' : Store) : Prop where
  epoch : s.epoch.toNat ≤ s'.epoch.toNat
  /-- An item that has been unlinked is never attached again. -/
  attached : ∀ i, i < s.allocated → s'.Attached i → s.Attached i
  base : s.NoWrap → ∀ i, i < s.allocated →
    (s.item i).word.base.val ≤ (s'.item i).word.base.val
  content : s.NoWrap → ∀ i, i < s.allocated →
    (s'.item i).word.base = (s.item i).word.base → (s'.item i).dirty = false →
    (s.item i).dirty = false ∧ (s'.item i).content = (s.item i).content ∧
      (s'.item i).seen = (s.item i).seen
  /-- An item the reaper has let go of with its word as it was is where it was. -/
  purged : s.NoWrap → ∀ i, i < s.allocated → s.InPlace i →
    (s'.item i).word.base = (s.item i).word.base → s'.InPlace i

/-- What the party `o` can count on when the store goes from `s` to `s'` by
somebody else's access. -/
structure Rely (o : Owner) (s s' : Store) : Prop extends Grows o s s', Steady s s' where
  held : ∀ i, (s.item i).holder = some o →
    s'.item i = s.item i ∧ (s.Attached i → s'.Attached i)
  holder : ∀ i, (s'.item i).holder = some o → (s.item i).holder = some o
  stamp : s'.stamp o = s.stamp o
  commitEpoch : s'.commitEpoch o = s.commitEpoch o
  /-- Only the reaper unlinks. -/
  kept : o = .reaper → ∀ i, s.Attached i → s'.Attached i
  /-- Nobody publishes for somebody else. -/
  own : ∀ (k : Slot) (n : ℕ) (v : Owner × Version), (s'.versions k)[n]? = some v → v.1 = o →
    (s.versions k)[n]? = some v

/-! ## The items -/

/-- An access that changes no item and no slot. -/
theorem Steady.of_same (hepoch : s.epoch.toNat ≤ s'.epoch.toNat) (hitem : s'.item = s.item)
    (hindex : s'.index = s.index) : Steady s s' := by
  have hatt : ∀ i, s'.Attached i ↔ s.Attached i := by
    intro i
    unfold Store.Attached
    rw [hitem, hindex]
  refine ⟨hepoch, fun i _ => (hatt i).mp, ?_, ?_, ?_⟩
  · intro _ i _
    rw [hitem]
  · intro _ i _ _ hclean
    rw [hitem] at hclean ⊢
    exact ⟨hclean, rfl, rfl⟩
  · intro _ i _ hplace _
    unfold Store.InPlace at hplace ⊢
    rw [hatt, hitem]
    exact hplace

/-- An access to one item. -/
theorem Steady.of_item {x : Item} (hitem : s'.item = update s.item i x)
    (hhome : x.home = (s.item i).home) (hepoch : s'.epoch = s.epoch) (hindex : s'.index = s.index)
    (hbase : s.NoWrap → (s.item i).word.base.val ≤ x.word.base.val)
    (hcontent : s.NoWrap → x.word.base = (s.item i).word.base → x.dirty = false →
      (s.item i).dirty = false ∧ x.content = (s.item i).content ∧ x.seen = (s.item i).seen)
    (hplace : s.NoWrap → x.word.base = (s.item i).word.base → (s.item i).holder = some .reaper →
      s.Attached i ∨ x.holder = some .reaper) : Steady s s' := by
  have hself : s'.item i = x := by
    rw [hitem, update_self]
  have hother : ∀ j, j ≠ i → s'.item j = s.item j := by
    intro j hji
    rw [hitem, update_of_ne hji]
  have hatt : ∀ j, s'.Attached j ↔ s.Attached j := by
    intro j
    have hhomes : (s'.item j).home = (s.item j).home := by
      by_cases hji : j = i
      · rw [hji, hself, hhome]
      · rw [hother j hji]
    unfold Store.Attached
    rw [hhomes, hindex]
  refine ⟨Nat.le_of_eq (by rw [hepoch]), fun j _ => (hatt j).mp, ?_, ?_, ?_⟩
  · intro hwrap j _
    by_cases hji : j = i
    · subst hji
      rw [hself]
      exact hbase hwrap
    · rw [hother j hji]
  · intro hwrap j _
    by_cases hji : j = i
    · subst hji
      rw [hself]
      exact hcontent hwrap
    · rw [hother j hji]
      exact fun _ hclean => ⟨hclean, rfl, rfl⟩
  · intro hwrap j _ hj hsame
    unfold Store.InPlace at hj ⊢
    rw [hatt]
    by_cases hji : j = i
    · subst hji
      rw [hself] at hsame ⊢
      exact hj.elim .inl (hplace hwrap hsame)
    · rw [hother j hji]
      exact hj

theorem StoreInv.steady_insertBlank (h : StoreInv s) (hk : s.index k = none) :
    Steady s (s.insertBlank k) := by
  have hold : ∀ j, j < s.allocated → (s.insertBlank k).item j = s.item j :=
    fun j hj => update_of_ne (Nat.ne_of_lt hj) ..
  have hatt : ∀ j, j < s.allocated → ((s.insertBlank k).Attached j ↔ s.Attached j) := by
    intro j hj
    refine ⟨fun hattj => ?_, h.attached_access (o := .reaper) (a := .insertBlank k) hk nofun⟩
    unfold Store.Attached at hattj ⊢
    rw [hold j hj] at hattj
    by_cases hhome : (s.item j).home = k
    · rw [hhome, show (s.insertBlank k).index k = some s.allocated from
        update_self ..] at hattj
      cases hattj
      exact absurd hj (Nat.lt_irrefl _)
    · rwa [show (s.insertBlank k).index (s.item j).home = s.index (s.item j).home from
        update_of_ne hhome ..] at hattj
  refine ⟨le_rfl, fun j hj => (hatt j hj).mp, ?_, ?_, ?_⟩
  · intro _ j hj
    rw [hold j hj]
  · intro _ j hj _ hclean
    rw [hold j hj] at hclean ⊢
    exact ⟨hclean, rfl, rfl⟩
  · intro _ j hj hplace _
    unfold Store.InPlace at hplace ⊢
    rw [hatt j hj, hold j hj]
    exact hplace

/-- Unlinking a slot detaches its item and no other one. -/
theorem Store.attached_unlink (j : ItemId) :
    (s.unlink k).Attached j ↔ s.Attached j ∧ (s.item j).home ≠ k := by
  show update s.index k none (s.item j).home = some j ↔ _
  by_cases hhome : (s.item j).home = k
  · rw [hhome, update_self]
    refine ⟨fun heq => ?_, fun hne => absurd rfl hne.2⟩
    cases heq
  · rw [update_of_ne hhome]
    exact ⟨fun hatt => ⟨hatt, hhome⟩, fun hatt => hatt.1⟩

theorem Store.attached_or_held_unlink (hk : s.index k = some i) (hheld : (s.item i).holder = some o)
    (hatt : s.Attached j) : (s.unlink k).Attached j ∨ (s.item j).holder = some o := by
  by_cases hhome : (s.item j).home = k
  · refine .inr ?_
    rw [← hhome, show s.index _ = some j from hatt] at hk
    cases hk
    exact hheld
  · exact .inl ((Store.attached_unlink j).mpr ⟨hatt, hhome⟩)

/-- **Every permitted access leaves the items steady.** -/
theorem StoreInv.steady (h : StoreInv s) (hp : a.Permitted s o) : Steady s (s.access o a) := by
  cases a with
  | idle | serialize | observe | fix => exact .of_same le_rfl rfl rfl
  | insertBlank => exact h.steady_insertBlank hp
  | lock i =>
    obtain ⟨-, hfree, -⟩ := hp
    have hbase : (s.item i).word.locked.base = (s.item i).word.base := by
      rw [TransactionId.base_locked hfree, TransactionId.base_of_not_isLocked hfree]
    refine .of_item rfl rfl rfl rfl ?_ ?_ ?_
    · exact fun _ => Nat.le_of_eq (congrArg TransactionId.val hbase.symm)
    · exact fun _ _ hclean => ⟨hclean, rfl, rfl⟩
    · intro _ _ hreaper
      rw [h.holder_of_not_isLocked hfree] at hreaper
      cases hreaper
  | storeWord i word =>
    obtain ⟨hheld, hclean, heven, -, hback⟩ := hp
    have hbase := TransactionId.base_of_not_isLocked heven
    refine .of_item rfl rfl rfl rfl ?_ ?_ ?_
    · intro hwrap
      rw [hbase]
      rcases hback with ⟨hback, -⟩ | ⟨-, hlt⟩
      · rw [hback, TransactionId.base, if_pos (h.isLocked_of_held hheld)]
      · exact Nat.le_of_lt (hlt hwrap)
    · exact fun _ _ _ => ⟨hclean, rfl, rfl⟩
    · -- the reaper gives back what it has unlinked with a word that has moved
      intro hwrap hsame hreaper
      rw [hheld] at hreaper
      cases hreaper
      rcases hback with ⟨-, hatt⟩ | ⟨-, hlt⟩
      · exact .inl (hatt rfl)
      · have hup := hlt hwrap
        rw [← hsame] at hup
        rw [hbase] at hup
        exact absurd hup (Nat.lt_irrefl _)
  | install =>
    refine .of_item rfl rfl rfl rfl ?_ ?_ ?_
    · exact fun _ => le_rfl
    · intro _ _ hclean
      cases (hclean : true = false)
    · exact fun _ _ _ => .inl hp.2.2
  | publish i word =>
    obtain ⟨-, heven, -⟩ := h.epoch_le_next hp
    have hlt : s.NoWrap → (s.item i).word.base.val < word.base.val := by
      intro hwrap
      rw [TransactionId.base_of_not_isLocked heven]
      exact (h.val_lt_next hwrap hp).1
    refine .of_item rfl rfl rfl rfl ?_ ?_ ?_
    · exact fun hwrap => Nat.le_of_lt (hlt hwrap)
    · -- the base word moves, so nothing is promised about the content
      intro hwrap heq _
      have hup := hlt hwrap
      rw [← heq] at hup
      exact absurd hup (Nat.lt_irrefl _)
    · exact fun _ _ _ => .inl hp.2.2.1
  | unlink =>
    obtain ⟨rfl, i, hk, hheld, -⟩ := hp
    refine ⟨le_rfl, fun j _ hj => ((Store.attached_unlink j).mp hj).1, ?_, ?_, ?_⟩
    · exact fun _ _ _ => le_rfl
    · exact fun _ _ _ _ hclean => ⟨hclean, rfl, rfl⟩
    · exact fun _ j _ hplace _ =>
        hplace.elim (Store.attached_or_held_unlink hk hheld) .inr
  | advanceEpoch =>
    refine .of_same ?_ rfl rfl
    show s.epoch.toNat ≤ s.advanceEpoch.epoch.toNat
    rw [Store.toNat_advanceEpoch hp]
    exact Nat.le_succ _

/-! ## What somebody holds -/

/-- Who holds an item after an access held it before and has not given it back, or has just
locked it. -/
theorem Store.holder_access (h : ((s.access o a).item i).holder = some o') :
    (s.item i).holder = some o' ∧ ¬ a.Releases i ∨ a = .lock i ∧ o' = o := by
  cases a with
  | insertBlank =>
    change (update s.item s.allocated _ i).holder = _ at h
    rw [update_apply] at h
    split_ifs at h with hi
    · cases h
    · exact .inl ⟨h, id⟩
  | lock j =>
    change (update s.item j _ i).holder = _ at h
    rw [update_apply] at h
    split_ifs at h with hi
    · cases h
      exact .inr ⟨by rw [hi], rfl⟩
    · exact .inl ⟨h, id⟩
  | storeWord j | publish j =>
    change (update s.item j _ i).holder = _ at h
    by_cases hi : i = j
    · rw [hi, update_self] at h
      cases h
    · rw [update_of_ne hi] at h
      exact .inl ⟨h, fun heq => hi heq.symm⟩
  | install j =>
    change (update s.item j _ i).holder = _ at h
    rw [update_apply] at h
    split_ifs at h with hi
    · rw [hi]
      exact .inl ⟨h, id⟩
    · exact .inl ⟨h, id⟩
  | _ => exact .inl ⟨h, id⟩

/-- An item somebody else holds stays as it is. -/
theorem StoreInv.item_access_of_held (h : StoreInv s) (hp : a.Permitted s o') (hne : o' ≠ o)
    (hheld : (s.item i).holder = some o) : (s.access o' a).item i = s.item i := by
  -- an access to an item is an access to one its party holds, or to one nobody holds
  have elsewhere : ∀ {j : ItemId} (x : Item), (s.item j).holder = some o' ∨
      (s.item j).holder = none → update s.item j x i = s.item i := by
    intro j x hj
    refine update_of_ne ?_ ..
    rintro rfl
    rw [hheld] at hj
    rcases hj with hj | hj
    · exact hne (Option.some.inj hj).symm
    · cases hj
  cases a with
  | insertBlank =>
    exact update_of_ne (Nat.ne_of_lt (h.lt_allocated_of_held hheld)) ..
  | lock => exact elsewhere _ (.inr (h.holder_of_not_isLocked hp.2.1))
  | storeWord | install | publish => exact elsewhere _ (.inl hp.1)
  | _ => rfl

/-- **Every permitted access of one party is what the others count on.** -/
theorem StoreInv.rely (h : StoreInv s) (hp : a.Permitted s o') (hne : o' ≠ o) :
    Rely o s (s.access o' a) := by
  have other : ∀ {α : Type} (f : Owner → α) (v : α), update f o' v o = f o :=
    fun f v => update_of_ne (Ne.symm hne) v f
  refine ⟨s.grows_access o o' a, h.steady hp, ?_, ?_, ?_, ?_, ?_, ?_⟩
  · intro i hheld
    refine ⟨h.item_access_of_held hp hne hheld, fun hatt => ?_⟩
    by_cases hunlink : ∃ k, a = .unlink k
    · -- only what the reaper holds is unlinked
      obtain ⟨k, rfl⟩ := hunlink
      obtain ⟨rfl, j, hk, hreaper, -⟩ := hp
      refine (Store.attached_or_held_unlink hk hreaper hatt).resolve_right fun heq => ?_
      rw [hheld] at heq
      exact hne (Option.some.inj heq).symm
    · exact h.attached_access hp (fun k heq => hunlink ⟨k, heq⟩) hatt
  · intro i hheld
    rcases Store.holder_access hheld with ⟨hold, -⟩ | ⟨-, heq⟩
    · exact hold
    · exact absurd heq.symm hne
  · cases a with
    | serialize => exact other _ _
    | _ => rfl
  · cases a with
    | serialize => exact other _ _
    | _ => rfl
  · rintro rfl i hatt
    refine h.attached_access hp ?_ hatt
    rintro k rfl
    exact hne hp.1
  · intro k n v hv howner
    refine (Store.getElem?_versions_access hv).resolve_right fun hpublished => ?_
    exact hne (hpublished.1.symm.trans howner)

/-! ## Reading an item under its version word -/

/-- The item holds the last version of its slot. -/
def Store.HoldsLast (s : Store) (i : ItemId) : Prop :=
  ∃ n v, (s.item i).seen = n + 1 ∧ (s.versions (s.item i).home)[n]? = some v ∧
    v.2.tid = (s.item i).word.base ∧ v.2.content = (s.item i).content

/-- What an attached item holds while nobody has installed anything: nothing, or the
last version of its slot. -/
theorem StoreInv.attached_version (h : StoreInv s) (hatt : s.Attached i)
    (hclean : (s.item i).dirty = false) :
    (s.item i).word.epoch = 0 ∧ (s.item i).content = .blank ∨ s.HoldsLast i := by
  have hinv := h.attached _ _ hatt
  by_cases hzero : (s.item i).word.epoch = 0
  · exact .inl ⟨hzero, (hinv.fresh hzero).2.1 hclean⟩
  · obtain ⟨v, hlast, htid, hcontent⟩ := hinv.current hzero
    have hpos : 0 < (s.versions (s.item i).home).length :=
      List.length_pos_of_mem (List.mem_of_getLast? hlast)
    refine .inr ⟨(s.versions (s.item i).home).length - 1, v, ?_, ?_, htid, (hcontent hclean).symm⟩
    · rw [hinv.seen]
      omega
    · rw [← List.getLast?_eq_getElem?]
      exact hlast

/-- An item that is no tombstone is attached, and holds the last version. -/
theorem StoreInv.initialized_version (h : StoreInv s) (hclean : (s.item i).dirty = false)
    (hlive : (s.item i).content.initializedAt (s.item i).home = true) :
    s.Attached i ∧ s.HoldsLast i := by
  have hatt : s.Attached i := by
    by_contra hdet
    rw [(h.detached i hdet).1] at hlive
    cases hlive
  refine ⟨hatt, ?_⟩
  rcases h.attached_version hatt hclean with ⟨-, hblank⟩ | hversion
  · rw [hblank] at hlive
    cases hhome : (s.item i).home <;> rw [hhome] at hlive <;> cases hlive
  · exact hversion

theorem Content.initializedAt_of_isPrimaryInitialized {c : Content} (k : Slot)
    (h : c.isPrimaryInitialized = true) : c.initializedAt k = true := by
  cases k with
  | row => exact h
  | entry =>
    unfold Content.isPrimaryInitialized at h
    simp [Content.initializedAt, Content.isInitialized, h]

/-- An item with a row in it is attached, and the row is the last version. -/
theorem StoreInv.live_version (h : StoreInv s) (hclean : (s.item i).dirty = false)
    (hlive : (s.item i).content.isPrimaryInitialized = true) : s.Attached i ∧ s.HoldsLast i :=
  h.initialized_version hclean (Content.initializedAt_of_isPrimaryInitialized _ hlive)

/-- A party has loaded the unlocked word `tid` of the item `i`. What it has seen
since, `P`, holds of the content for as long as the base word is still `tid` and
nobody has installed anything. -/
structure AtVersion (s : Store) (i : ItemId) (tid : TransactionId) (P : Content → ℕ → Prop) :
    Prop where
  allocated : i < s.allocated
  even : tid.isLocked = false
  le : s.NoWrap → tid.val ≤ (s.item i).word.base.val
  content : s.NoWrap → (s.item i).word.base = tid → (s.item i).dirty = false →
    P (s.item i).content (s.item i).seen

variable {tid : TransactionId} {P Q : Content → ℕ → Prop}

theorem AtVersion.load (hi : i < s.allocated) (heven : (s.item i).word.isLocked = false)
    (hP : P (s.item i).content (s.item i).seen) : AtVersion s i (s.item i).word P := by
  refine ⟨hi, heven, fun _ => ?_, fun _ _ _ => hP⟩
  rw [TransactionId.base_of_not_isLocked heven]

theorem AtVersion.imp (h : AtVersion s i tid P)
    (hPQ : P (s.item i).content (s.item i).seen → Q (s.item i).content (s.item i).seen) :
    AtVersion s i tid Q :=
  ⟨h.allocated, h.even, h.le, fun hwrap hbase hclean => hPQ (h.content hwrap hbase hclean)⟩

/-- **A word that has not moved vouches for everything seen since it was loaded.** -/
theorem AtVersion.steady (h : AtVersion s i tid P) (hgrows : Grows o s s')
    (hsteady : Steady s s') : AtVersion s' i tid P := by
  have hle : s'.NoWrap → (s.item i).word.base.val ≤ (s'.item i).word.base.val :=
    fun hwrap' => hsteady.base (hwrap'.of_grows hgrows) i h.allocated
  refine ⟨Nat.lt_of_lt_of_le h.allocated hgrows.allocated, h.even,
    fun hwrap' => Nat.le_trans (h.le (hwrap'.of_grows hgrows)) (hle hwrap'), ?_⟩
  intro hwrap' hbase hclean
  have hwrap := hwrap'.of_grows hgrows
  -- the base word went up and is back where it was, so it never moved
  have hsame : (s.item i).word.base = tid := by
    refine TransactionId.val_inj (Nat.le_antisymm ?_ (h.le hwrap))
    rw [← hbase]
    exact hle hwrap'
  obtain ⟨hclean', hcontent, hseen⟩ :=
    hsteady.content hwrap i h.allocated (hbase.trans hsame.symm) hclean
  rw [hcontent, hseen]
  exact h.content hwrap hsame hclean'

theorem AtVersion.rely (h : AtVersion s i tid P) (hrely : Rely o s s') : AtVersion s' i tid P :=
  h.steady hrely.toGrows hrely.toSteady

/-- Nobody has installed anything under a word that is loaded again. -/
theorem AtVersion.clean (h : AtVersion s i tid P) (hstore : StoreInv s)
    (hword : (s.item i).word = tid) : (s.item i).dirty = false :=
  hstore.clean_of_unheld (hstore.holder_of_not_isLocked (hword ▸ h.even))

/-- Loading the same word again. -/
theorem AtVersion.reload (h : AtVersion s i tid P) (hstore : StoreInv s) (hwrap : s.NoWrap)
    (hword : (s.item i).word = tid) : P (s.item i).content (s.item i).seen := by
  refine h.content hwrap ?_ (h.clean hstore hword)
  rw [hword, TransactionId.base_of_not_isLocked h.even]

/-- An item still has the word of a version: that version is the last one. -/
theorem StoreInv.length_of_base (h : StoreInv s) (hwrap : s.NoWrap) (hatt : s.Attached i) {n : ℕ}
    {v : Owner × Version} (hv : (s.versions (s.item i).home)[n]? = some v)
    (hbase : (s.item i).word.base = v.2.tid) : (s.versions (s.item i).home).length = n + 1 := by
  have hmem := List.mem_of_getElem? hv
  have hne : (s.item i).word.epoch ≠ 0 := by
    intro hzero
    have hpos := (h.version _ v hmem).2.1
    rw [← hbase, TransactionId.epoch_base, hzero] at hpos
    exact absurd hpos (Nat.lt_irrefl _)
  obtain ⟨w, hlast, htid, -⟩ := (h.attached _ _ hatt).current hne
  obtain ⟨hlt, hvn⟩ := List.getElem?_eq_some_iff.mp hv
  rw [List.getLast?_eq_getElem?] at hlast
  obtain ⟨hlast', hwn⟩ := List.getElem?_eq_some_iff.mp hlast
  -- versions go up strictly, so two with one word are the same
  by_contra hlen
  have hup := List.pairwise_iff_getElem.mp (h.ordered hwrap (s.item i).home) n _ hlt hlast'
    (by omega)
  rw [hvn, hwn, htid, hbase] at hup
  exact absurd hup (Nat.lt_irrefl _)

end LineairDB.Silo
