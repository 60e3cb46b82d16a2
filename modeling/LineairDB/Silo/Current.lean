import LineairDB.Silo.System

/-!
# What a slot holds, and what it held before

The last version of a slot is what a committer that has locked it finds there;
what it publishes comes right behind it. `Wrote` relates every version a party
has published to what its slot held before.

* `StoreInv.attached_current` — an attached item that nobody is installing to
  holds what its slot holds, up to what a purge takes away.
* `Wrote.publish`, `Wrote.rely` — a version stands in its relation once and for
  all.
* `Published.publish` — and the one that is published now stands in it.
* `Publishing.publish` — a party that holds the locks of all it has still to
  publish.
-/

namespace LineairDB.Silo

variable {s s' : Store} {o : Owner} {k : Slot} {i : ItemId}

/-! ## Versions and what was before them -/

/-- What a slot held before its `n`-th version. -/
def Store.before (s : Store) (k : Slot) : ℕ → Content
  | 0 => .blank
  | n + 1 => (((s.versions k)[n]?).map fun v => v.2.content).getD .blank

/-- What a slot holds. -/
def Store.current (s : Store) (k : Slot) : Content := s.before k (s.versions k).length

theorem Store.before_succ {n : ℕ} {v : Owner × Version} (h : (s.versions k)[n]? = some v) :
    s.before k (n + 1) = v.2.content := by
  show (((s.versions k)[n]?).map _).getD _ = _
  rw [h]
  rfl

/-- The version right before a later one. -/
theorem Store.exists_before {n m : ℕ} {w : Owner × Version} (hlt : n < m)
    (hw : (s.versions k)[m]? = some w) : ∃ j x, n ≤ j ∧ j < m ∧ (s.versions k)[j]? = some x ∧
      s.before k m = x.2.content := by
  obtain ⟨j, rfl⟩ : ∃ j, m = j + 1 := ⟨m - 1, by omega⟩
  obtain ⟨hm, -⟩ := List.getElem?_eq_some_iff.mp hw
  have hj := List.getElem?_eq_getElem (Nat.lt_of_succ_lt hm)
  exact ⟨j, _, Nat.le_of_lt_succ hlt, Nat.lt_succ_self j, hj, Store.before_succ hj⟩

theorem Store.current_of_getLast? {v : Owner × Version} (h : (s.versions k).getLast? = some v) :
    s.current k = v.2.content := by
  unfold Store.current
  rw [List.getLast?_eq_getElem?] at h
  cases hlength : (s.versions k).length with
  | zero =>
    rw [List.length_eq_zero_iff.mp hlength] at h
    cases h
  | succ =>
    rw [hlength] at h
    exact Store.before_succ h

theorem Store.current_of_nil (h : (s.versions k).getLast? = none) : s.current k = .blank := by
  unfold Store.current
  rw [List.getLast?_eq_none_iff.mp h]
  rfl

/-- What was there before a version does not change any more. -/
theorem Store.before_of_prefix (h : s.versions k <+: s'.versions k) {n : ℕ}
    (hn : n ≤ (s.versions k).length) : s'.before k n = s.before k n := by
  cases n with
  | zero => rfl
  | succ n =>
    obtain ⟨v, hv⟩ : ∃ v, (s.versions k)[n]? = some v := ⟨_, List.getElem?_eq_getElem hn⟩
    show (((s'.versions k)[n]?).map _).getD _ = (((s.versions k)[n]?).map _).getD _
    rw [getElem?_of_grown h hv, hv]

theorem Store.current_of_versions (h : s'.versions k = s.versions k) :
    s'.current k = s.current k := by
  unfold Store.current
  rw [h]
  exact Store.before_of_prefix (by rw [h]) le_rfl

/-! ## What an item holds -/

section

variable (h : StoreInv s) (hatt : s.Attached i) (hclean : (s.item i).dirty = false)

include h hatt hclean

/-- **An attached item that nobody is installing to holds what its slot holds**, or has been
created behind something that is as good as nothing. -/
theorem StoreInv.attached_current :
    (s.item i).content = s.current (s.item i).home ∨
      (s.item i).content = .blank ∧
        (s.current (s.item i).home).initializedAt (s.item i).home = false := by
  have hinv := h.attached _ _ hatt
  by_cases hzero : (s.item i).word.epoch = 0
  · obtain ⟨-, hblank, hvacant⟩ := hinv.fresh hzero
    refine .inr ⟨hblank hclean, ?_⟩
    cases hlast : (s.versions (s.item i).home).getLast? with
    | none =>
      rw [Store.current_of_nil hlast]
      cases (s.item i).home <;> rfl
    | some v =>
      rw [Store.current_of_getLast? hlast]
      exact hvacant.dead v hlast
  · obtain ⟨v, hlast, -, hcontent⟩ := hinv.current hzero
    rw [Store.current_of_getLast? hlast]
    exact .inl (hcontent hclean)

/-- The row in an item is the row of its slot. -/
theorem StoreInv.attached_row :
    (s.current (s.item i).home).isPrimaryInitialized
      = (s.item i).content.isPrimaryInitialized := by
  rcases h.attached_current hatt hclean with hsame | ⟨hblank, hdead⟩
  · rw [hsame]
  · rw [hblank]
    refine eq_false_of_ne_true fun hlive => ?_
    rw [Content.initializedAt_of_isPrimaryInitialized _ hlive] at hdead
    cases hdead

/-- The primary keys in an item are those of its entry. -/
theorem StoreInv.attached_entry {table index key : ByteFile.Bytes}
    (hhome : (s.item i).home = .entry table index key) :
    s.current (s.item i).home = (s.item i).content := by
  rcases h.attached_current hatt hclean with hsame | ⟨hblank, hdead⟩
  · exact hsame.symm
  · rw [hblank]
    rw [hhome] at hdead ⊢
    obtain ⟨hbuffer, hkeys⟩ := Bool.or_eq_false_iff.mp hdead
    have hbuffer' : (s.current (.entry table index key)).buffer = [] := by simpa using hbuffer
    have hkeys' : (s.current (.entry table index key)).primaryKeys = [] := by simpa using hkeys
    show _ = (⟨[], []⟩ : Content)
    rw [← hbuffer', ← hkeys']

end

/-- Nobody publishes to a slot whose lock somebody else holds. -/
theorem StoreInv.versions_of_held (h : StoreInv s) (h' : StoreInv s') (hrely : Rely o s s')
    (hheld : (s.item i).holder = some o) (hatt : s.Attached i) :
    s'.versions (s.item i).home = s.versions (s.item i).home := by
  obtain ⟨hsame, hkeep⟩ := hrely.held i hheld
  have hseen := (h.attached _ _ hatt).seen
  have hatt' := hkeep hatt
  have hindex : s'.index (s.item i).home = some i := by
    unfold Store.Attached at hatt'
    rw [hsame] at hatt'
    exact hatt'
  have hseen' := (h'.attached _ _ hindex).seen
  rw [hsame] at hseen'
  refine ((hrely.versions _).eq_of_length ?_).symm
  rw [← hseen, ← hseen']

theorem StoreInv.current_of_held (h : StoreInv s) (h' : StoreInv s') (hrely : Rely o s s')
    (hheld : (s.item i).holder = some o) (hatt : s.Attached i) :
    s'.current (s.item i).home = s.current (s.item i).home :=
  Store.current_of_versions (h.versions_of_held h' hrely hheld hatt)

/-! ## What a party has published -/

/-- The party has published nothing to the slot. -/
def Store.Unwritten (s : Store) (o : Owner) (k : Slot) : Prop :=
  ∀ (n : ℕ) (v : Owner × Version), (s.versions k)[n]? = some v → v.1 ≠ o

/-- Everything the party has published to the slot stands in the relation to what the slot
held before. -/
def Store.Wrote (s : Store) (o : Owner) (k : Slot) (R : Content → Content → Prop) : Prop :=
  ∀ (n : ℕ) (v : Owner × Version), (s.versions k)[n]? = some v → v.1 = o →
    R (s.before k n) v.2.content

variable {R : Content → Content → Prop}

theorem Store.Unwritten.wrote (h : s.Unwritten o k) : s.Wrote o k R :=
  fun n v hv howner => absurd howner (h n v hv)

theorem Store.Unwritten.rely (h : s.Unwritten o k) (hrely : Rely o s s') : s'.Unwritten o k :=
  fun n v hv howner => h n v (hrely.own k n v hv howner) howner

theorem Store.Wrote.rely (h : s.Wrote o k R) (hrely : Rely o s s') : s'.Wrote o k R := by
  intro n v hv howner
  have hold := hrely.own k n v hv howner
  obtain ⟨hlt, -⟩ := List.getElem?_eq_some_iff.mp hold
  rw [Store.before_of_prefix (hrely.versions k) hlt.le]
  exact h n v hold howner

/-- An access that publishes nothing to the slot. -/
theorem Store.versions_access_of {a : Access} {o' : Owner}
    (h : ∀ i word, a = .publish i word → (s.item i).home ≠ k) :
    (s.access o' a).versions k = s.versions k := by
  cases a with
  | publish i word => exact Function.update_of_ne (h i word rfl).symm ..
  | _ => rfl

theorem Store.Unwritten.of_versions (h : s.Unwritten o k) (hsame : s'.versions k = s.versions k) :
    s'.Unwritten o k := by
  intro n v hv
  rw [hsame] at hv
  exact h n v hv

theorem Store.Wrote.of_versions (h : s.Wrote o k R) (hsame : s'.versions k = s.versions k) :
    s'.Wrote o k R := by
  intro n v hv howner
  have hold := hv
  rw [hsame] at hold
  obtain ⟨hlt, -⟩ := List.getElem?_eq_some_iff.mp hold
  rw [Store.before_of_prefix (by rw [hsame]) hlt.le]
  exact h n v hold howner

/-- **What is published comes right behind what the slot holds.** -/
theorem Store.Wrote.publish {word : TransactionId} (h : s.Wrote o (s.item i).home R)
    (hR : R (s.current (s.item i).home) (s.item i).content) :
    (s.access o (.publish i word)).Wrote o (s.item i).home R := by
  intro n v hv howner
  have hprefix := s.versions_access o (.publish i word) (s.item i).home
  rcases Store.getElem?_versions_access hv with hold | ⟨-, rfl, j, word', heq, -, hcontent⟩
  · obtain ⟨hlt, -⟩ := List.getElem?_eq_some_iff.mp hold
    rw [Store.before_of_prefix hprefix hlt.le]
    exact h n v hold howner
  · cases heq
    rw [hcontent, Store.before_of_prefix hprefix le_rfl]
    exact hR

/-- A quiet access publishes nothing. -/
theorem versions_quiet {a : Access} (ha : a.Quiet) (k : Slot) :
    (s.access o a).versions k = s.versions k := by
  refine Store.versions_access_of fun i word heq => ?_
  rw [heq] at ha
  exact ha.elim

/-- The party has published to the slot, in the relation to what was there. -/
structure Store.Published (s : Store) (o : Owner) (k : Slot) (R : Content → Content → Prop) :
    Prop where
  version : ∃ (n : ℕ) (v : Owner × Version), (s.versions k)[n]? = some v ∧ v.1 = o
  wrote : s.Wrote o k R

theorem Store.Published.not_unwritten (h : s.Published o k R) : ¬ s.Unwritten o k := by
  obtain ⟨n, v, hv, howner⟩ := h.version
  exact fun hunwritten => hunwritten n v hv howner

theorem Store.Published.rely (h : s.Published o k R) (hrely : Rely o s s') :
    s'.Published o k R := by
  obtain ⟨n, v, hv, howner⟩ := h.version
  exact ⟨⟨n, v, getElem?_of_grown (hrely.versions k) hv, howner⟩, h.wrote.rely hrely⟩

theorem Store.Published.of_versions (h : s.Published o k R)
    (hsame : s'.versions k = s.versions k) : s'.Published o k R := by
  obtain ⟨n, v, hv, howner⟩ := h.version
  exact ⟨⟨n, v, by rw [hsame]; exact hv, howner⟩, h.wrote.of_versions hsame⟩

theorem Store.Published.imp {R' : Content → Content → Prop} (h : s.Published o k R)
    (himp : ∀ before after, R before after → R' before after) : s.Published o k R' :=
  ⟨h.version, fun n v hv howner => himp _ _ (h.wrote n v hv howner)⟩

theorem Store.Published.publish {word : TransactionId} (hunwritten : s.Unwritten o (s.item i).home)
    (hR : R (s.current (s.item i).home) (s.item i).content) :
    (s.access o (.publish i word)).Published o (s.item i).home R := by
  refine ⟨⟨(s.versions (s.item i).home).length, (o, ⟨word, (s.item i).content, i⟩), ?_, rfl⟩,
    hunwritten.wrote.publish hR⟩
  show (Function.update s.versions (s.item i).home _ (s.item i).home)[_]? = _
  rw [Function.update_self, List.getElem?_concat_length]

/-! ## Publishing one item after the other -/

/-- What a party publishes to the slots it aims at, with the items of `todo` still to come. -/
structure Publishing (R : Slot → Content → Content → Prop) (s : Store) (o : Owner)
    (targets : Set Slot) (todo : List ItemId) : Prop where
  pending : ∀ i ∈ todo, (s.item i).home ∈ targets ∧ s.Unwritten o (s.item i).home ∧
    R (s.item i).home (s.current (s.item i).home) (s.item i).content
  published : ∀ k ∈ targets, (∃ i ∈ todo, (s.item i).home = k) ∨ s.Published o k (R k)
  aims : ∀ k ∉ targets, s.Unwritten o k

section

variable {R : Slot → Content → Content → Prop} {targets : Set Slot} {todo : List ItemId}

theorem Publishing.rely (h : Publishing R s o targets todo) (hstore : StoreInv s)
    (hstore' : StoreInv s') (hheld : ∀ i ∈ todo, (s.item i).holder = some o ∧ s.Attached i)
    (hrely : Rely o s s') : Publishing R s' o targets todo := by
  have same : ∀ i ∈ todo, s'.item i = s.item i := fun i hi => (hrely.held i (hheld i hi).1).1
  refine ⟨fun i hi => ?_, fun k hk => ?_, fun k hk => (h.aims k hk).rely hrely⟩
  · obtain ⟨hholder, hatt⟩ := hheld i hi
    obtain ⟨htarget, hunwritten, hR⟩ := h.pending i hi
    rw [same i hi, hstore.current_of_held hstore' hrely hholder hatt]
    exact ⟨htarget, hunwritten.rely hrely, hR⟩
  · refine (h.published k hk).imp ?_ fun hpublished => hpublished.rely hrely
    rintro ⟨i, hi, hhome⟩
    exact ⟨i, hi, by rw [same i hi]; exact hhome⟩

/-- One item is published. -/
theorem Publishing.publish (h : Publishing R s o targets (i :: todo)) (word : TransactionId)
    (hnodup : (i :: todo).Nodup) (hatt : ∀ j ∈ i :: todo, s.Attached j) :
    Publishing R (s.access o (.publish i word)) o targets todo := by
  obtain ⟨htarget, hunwritten, hR⟩ := h.pending i (.head _)
  -- two attached items belong to two slots
  have distinct : ∀ j ∈ todo, j ≠ i ∧ (s.item j).home ≠ (s.item i).home := by
    intro j hj
    have hne : j ≠ i := by
      rintro rfl
      exact (List.nodup_cons.mp hnodup).1 hj
    refine ⟨hne, fun heq => hne ?_⟩
    have hindex : s.index (s.item j).home = some j := hatt j (.tail _ hj)
    rw [heq, show s.index (s.item i).home = some i from hatt i (.head _)] at hindex
    exact (Option.some.inj hindex).symm
  have same : ∀ j ∈ todo, (s.access o (.publish i word)).item j = s.item j :=
    fun j hj => Function.update_of_ne (distinct j hj).1 ..
  have other : ∀ k, k ≠ (s.item i).home →
      (s.access o (.publish i word)).versions k = s.versions k := by
    intro k hk
    refine Store.versions_access_of fun j word' heq => ?_
    cases heq
    exact hk.symm
  refine ⟨fun j hj => ?_, fun k hk => ?_, fun k hk => ?_⟩
  · obtain ⟨-, hhome⟩ := distinct j hj
    obtain ⟨htarget', hunwritten', hR'⟩ := h.pending j (.tail _ hj)
    rw [same j hj, Store.current_of_versions (other _ hhome)]
    exact ⟨htarget', hunwritten'.of_versions (other _ hhome), hR'⟩
  · rcases h.published k hk with ⟨j, hj, rfl⟩ | hpublished
    · rcases List.mem_cons.mp hj with rfl | hj
      · exact .inr (.publish hunwritten hR)
      · exact .inl ⟨j, hj, by rw [same j hj]⟩
    · refine .inr (hpublished.of_versions (other k ?_))
      rintro rfl
      exact hpublished.not_unwritten hunwritten
  · exact (h.aims k hk).of_versions (other k (ne_of_mem_of_not_mem htarget hk).symm)

theorem Publishing.wrote (h : Publishing R s o targets todo) (hk : k ∈ targets) :
    s.Wrote o k (R k) := by
  rcases h.published k hk with ⟨i, hi, rfl⟩ | hpublished
  · exact (h.pending i hi).2.1.wrote
  · exact hpublished.wrote

theorem Publishing.version (h : Publishing R s o targets []) (hk : k ∈ targets) :
    s.Published o k (R k) := by
  refine (h.published k hk).resolve_left ?_
  rintro ⟨i, hi, -⟩
  cases hi

end

end LineairDB.Silo
