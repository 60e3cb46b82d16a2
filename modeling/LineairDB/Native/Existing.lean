import LineairDB.Native.Publishing
import LineairDB.Native.Purged

/-!
# Updates and deletes of rows that exist

`Update` and `Delete` look whether their row is there when they are called, and
register nothing: what they found is not looked at again. A transaction that has
`Read` the row before has registered it, and then the version it publishes comes
right behind the one it read.

* `updated_rows_existed` — a transaction that reads a row before it updates or
  deletes it publishes behind a live row.
* `update_recreates_row` — one that does not may bring a row back that another
  transaction has deleted.
-/

namespace LineairDB.Native

open Silo ByteFile Transition
open Stateless (Schema oneTable)

variable {choice : Choice} {x : Access × Transaction × List Candidate}

variable {schema : Schema} {s s' : Store} {t : ℕ} {tx : Transaction} {k : Slot}

/-! ## Live rows that were read -/

/-- Every live row of the read set has been registered, on an item that was attached. -/
def Backed (s : Store) (tx : Transaction) : Prop :=
  s.NoWrap → ∀ r ∈ tx.readSet, r.copy.isPrimaryInitialized = true →
    (∃ tableName key, r.slot = .row tableName key) →
    ∃ e ∈ tx.validationSet, e.slot = r.slot ∧ e.position = r.position ∧ e.attached = true

/-- A copy with a row in it has been confirmed on an attached item. -/
theorem attached_of_copy {purpose : Purpose} {item : ItemId} {tid : TransactionId}
    {copy : Content} (hstore : StoreInv s) (hinv : TransactionInv s t tx) (hwrap : s.NoWrap)
    (hstage : tx.stage = .reading purpose item (.reload tid copy))
    (hword : (s.item item).word = tid) (hlive : copy.isPrimaryInitialized = true) :
    s.Attached item := by
  have hreading := hinv.stage
  rw [hstage] at hreading
  obtain ⟨-, -, -, -, hat⟩ := hreading
  have hcopy : copy = (s.item item).content := AtVersion.reload hat hstore hwrap hword
  rw [hcopy] at hlive
  exact (hstore.live_version (AtVersion.clean hat hstore hword) hlive).1

theorem Backed.step {tx' : Transaction} {a : Access} {candidates : List Candidate}
    (hstore : StoreInv s) (hinv : TransactionInv s t tx) (h : Backed s tx)
    (hstep : step schema s t tx choice = some (a, tx', candidates)) :
    Backed (s.access (.tx t) a) tx' := by
  intro hwrap' r hr hlive hrow
  have hwrap : s.NoWrap := hwrap'.of_grows (s.grows_access (.tx t) (.tx t) a)
  rcases step_read hstep hr with hr | ⟨purpose, item, tid, copy, hconfirms, rfl⟩
  · obtain ⟨e, he, hslot, hposition, hattached⟩ := h hwrap r hr hlive hrow
    obtain ⟨e', he', hslot', hposition', hattached'⟩ := step_validationSet hstep he
    exact ⟨e', he', hslot'.trans hslot, hposition'.trans hposition, hattached'.trans hattached⟩
  · have hvalidated : purpose.validated = true := by
      cases purpose with
      | seed =>
        obtain ⟨tableName', key', hrow⟩ := hrow
        cases hrow
      | _ => rfl
    refine ⟨_, hconfirms.registered hvalidated, rfl, rfl, decide_eq_true ?_⟩
    exact attached_of_copy hstore hinv hwrap hconfirms.stage hconfirms.word hlive

/-- What is in the read set stays there. -/
theorem readSet_subset (h : step schema s t tx choice = some x) : tx.readSet ⊆ x.2.1.readSet := by
  rcases step_readSet h with heq | ⟨purpose, item, tid, copy, -, heq⟩
  · rw [heq]
    exact .refl _
  · rw [heq]
    exact List.subset_append_left _ _

/-! ## Rows that are about to be written -/

/-- The transaction writes the row, or is about to, unless it gives up. -/
def Aimed (k : Slot) (tx : Transaction) : Prop :=
  tx.stage.failed = true ∨ (∃ item value, tx.stage = .checking k item value) ∨
    (∃ value isInsert, tx.stage = .writing k value isInsert) ∨ ∃ w ∈ tx.writes, w.slot = k

theorem Aimed.step (h : Aimed k tx) (hstep : Native.step schema s t tx choice = some x) :
    Aimed k x.2.1 := by
  rcases h with hfailed | ⟨item, value, hstage⟩ | ⟨value, isInsert, hstage⟩ | ⟨w, hw, hslot⟩
  · exact .inl (failed_keeps hstep hfailed)
  · -- the look at the row
    cases choice with
    | next =>
      simp only [Native.step, hstage] at hstep
      split_ifs at hstep
      · cases hstep
        exact .inr (.inr (.inl ⟨value, false, rfl⟩))
      · cases hstep
        exact .inl rfl
    | _ => simp [Native.step, hstage] at hstep
  · -- the `Write` at the end
    cases choice with
    | next =>
      simp only [Native.step, hstage] at hstep
      cases hstep
      refine .inr (.inr (.inr ?_))
      unfold Transaction.write
      split_ifs with hwrite
      · obtain ⟨w, hw⟩ := Option.isSome_iff_exists.mp hwrite
        obtain ⟨hmem, hslot⟩ := findWrite_spec hw
        refine ⟨_, List.mem_map_of_mem hmem, ?_⟩
        rw [if_pos hslot]
        exact hslot
      · exact ⟨_, List.mem_concat_self, rfl⟩
    | _ => simp [Native.step, hstage] at hstep
  · rcases step_writes hstep hw with hfailed | ⟨w', hw', hchanged⟩
    · exact .inl hfailed
    · exact .inr (.inr (.inr ⟨w', hw', hchanged.slot.trans hslot⟩))

/-- `Update` and `Delete` of a row the transaction has not written aim at it. -/
theorem aimed_update {tableName key value : Bytes} (hupdates : choice.Updates tableName key value)
    (hnone : tx.findWrite (.row tableName key) = none)
    (hstep : step schema s t tx choice = some x) : Aimed (.row tableName key) x.2.1 := by
  have hcall : ∃ y : Access × Transaction, y = tx.update s (.row tableName key) value ∧
      x.2.1 = y.2 := by
    cases hstage : tx.stage with
    | running =>
      rcases hupdates with rfl | ⟨rfl, rfl⟩
      all_goals
        simp only [step, hstage] at hstep
        obtain ⟨y, hy, rfl⟩ := Option.map_eq_some_iff.mp hstep
        obtain ⟨_, -, rfl⟩ := Option.map_eq_some_iff.mp hy
        exact ⟨_, rfl, rfl⟩
    | _ => rcases hupdates with rfl | ⟨rfl, rfl⟩ <;> simp [step, hstage] at hstep
  obtain ⟨y, rfl, hx⟩ := hcall
  rw [hx]
  unfold Transaction.update
  rw [hnone]
  dsimp only
  split
  · exact .inr (.inl ⟨_, _, rfl⟩)
  · exact .inl rfl

/-! ## Updates of a run -/

/-- The transaction `t` has called `Update` or `Delete` for the row, without having written it
before. -/
def Changes (schema : Schema) (actions : List (Action Choice)) (t : ℕ) (k : Slot) : Prop :=
  ∃ earlier later choice tableName key value m,
    actions = earlier ++ .party t choice :: later ∧ choice.Updates tableName key value ∧
      k = .row tableName key ∧
      run (user schema).next (user schema).initial earlier = some m ∧
      (m.phase t).findWrite k = none

/-- The transaction has found the row when it read it. -/
def Transaction.hasRead (tx : Transaction) (slot : Slot) : Bool :=
  tx.readSet.any fun r => r.slot = slot && r.copy.isPrimaryInitialized

/-- A transaction that updates or deletes a row it has not written has read it. -/
def updatesRead (s : State Transaction) : Action Choice → Bool
  | .party t (.update tableName key _) | .party t (.delete tableName key) =>
    ((s.phase t).findWrite (.row tableName key)).isSome ||
      (s.phase t).hasRead (.row tableName key)
  | _ => true

/-- What a transaction that has changed a row comes to. -/
structure Changer (s : State Transaction) (t : ℕ) (k : Slot) : Prop where
  read : ∃ r ∈ (s.phase t).readSet, r.slot = k ∧ r.copy.isPrimaryInitialized = true
  row : ∃ tableName key, k = .row tableName key
  aimed : Aimed k (s.phase t)

theorem changer_run {actions : List (Action Choice)} {s : State Transaction}
    (hrun : run (user schema).next (user schema).initial actions = some s)
    (hG : Along (user schema).next (fun s action => updatesRead s action = true)
      (user schema).initial actions) (hchanges : Changes schema actions t k) : Changer s t k := by
  obtain ⟨earlier, later, choice, tableName, key, value, m, rfl, hupdates, rfl, hm, hnone⟩ :=
    hchanges
  -- the row has been read when the call is made
  obtain ⟨r, hr, hslot, hlive⟩ : ∃ r ∈ (m.phase t).readSet, r.slot = .row tableName key ∧
      r.copy.isPrimaryInitialized = true := by
    have hcond := (hG.split hm).2.1
    have hread : (m.phase t).hasRead (.row tableName key) = true := by
      rcases hupdates with rfl | ⟨rfl, rfl⟩ <;> simpa [updatesRead, hnone] using hcond
    obtain ⟨r, hr, hfound⟩ := List.any_eq_true.mp hread
    rw [Bool.and_eq_true] at hfound
    exact ⟨r, hr, of_decide_eq_true hfound.1, hfound.2⟩
  refine ⟨⟨r, ?_, hslot, hlive⟩, ⟨tableName, key, rfl⟩, ?_⟩
  · refine Party.phase_from (F := fun tx => r ∈ tx.readSet) ?_ ?_ hrun
    · intro m' a phase candidates hm' hstep
      cases hm.symm.trans hm'
      exact readSet_subset hstep hr
    · intro s tx choice a tx' candidates hr hstep
      exact readSet_subset hstep hr
  · refine Party.phase_from (F := Aimed (.row tableName key)) ?_ ?_ hrun
    · intro m' a phase candidates hm' hstep
      cases hm.symm.trans hm'
      exact aimed_update hupdates hnone hstep
    · intro s tx choice a tx' candidates haimed hstep
      exact haimed.step hstep

/-- What a transaction that has read a row publishes comes right behind a live one. -/
theorem Changer.live {s : State Transaction} (hinv : SystemInv (contract schema) s)
    (hwrap : s.store.NoWrap) (hbacked : Backed s.store (s.phase t))
    (hpublishes : Publishes (fun _ _ _ => True) s.store t (s.phase t)) (h : Changer s t k)
    {n : ℕ} {v : Owner × Version} (hv : (s.store.versions k)[n]? = some v) (howner : v.1 = .tx t) :
    (s.store.before k n).isPrimaryInitialized = true := by
  have hparty : TransactionInv s.store t (s.phase t) := hinv.party t
  obtain ⟨r, hr, hslot, hlive⟩ := h.read
  obtain ⟨tableName, key, rfl⟩ := h.row
  obtain ⟨e, he, heslot, hposition, hattached⟩ := hbacked hwrap r hr hlive ⟨tableName, key, hslot⟩
  have hdecided : (s.phase t).stage.decided = true := by
    by_contra hundecided
    exact hpublishes.unwritten (eq_false_of_ne_true hundecided) _ n v hv howner
  have hfixed : (e.slot, e.position) ∈ s.store.fixed (.tx t) := by
    refine (hparty.confirmed hdecided e he hwrap).resolve_right ?_
    rintro ⟨-, hflag⟩
    rw [hattached] at hflag
    cases hflag
  -- its version is the one right behind the version it has read
  have hwriter : s.store.abs.writer e.slot n = some (.tx t) := by
    rw [heslot, hslot, ← howner]
    show ((s.store.versions _)[n]?).map Prod.fst = _
    rw [hv]
    rfl
  have hn : n = e.position :=
    next_of_fixed hinv.store (hparty.validation e he).observed hfixed hwriter
  obtain ⟨n', v', hpos, hv', hcontent⟩ := hparty.read r hr
    (Content.initializedAt_of_isPrimaryInitialized _ hlive) hwrap
  rw [hslot] at hv'
  rw [hn, hposition, hpos, Store.before_succ hv', hcontent]
  exact hlive

/-- **Update and Delete act on rows that exist**, if the transaction has read them: in every
run of native transactions, the reaper and the epoch in which that is so and no sequence
number is used up, what a transaction that has called `Update` or `Delete` for a row
publishes to it comes right behind a live row, and if the transaction is committed it has
published. Behind a deletion by one such transaction the row is there again before another
one changes it. -/
theorem updated_rows_existed {actions : List (Action Choice)} {s : State Transaction}
    (hrun : run (user schema).next (user schema).initial actions = some s)
    (hG : Along (user schema).next (fun s action => updatesRead s action = true)
      (user schema).initial actions) (hwrap : s.store.NoWrap) :
    (∀ t k, Changes schema actions t k →
        (∀ (n : ℕ) (v : Owner × Version), (s.store.versions k)[n]? = some v → v.1 = .tx t →
          (s.store.before k n).isPrimaryInitialized = true) ∧
        ((s.phase t).stage = .committed → ∃ (n : ℕ) (v : Owner × Version),
          (s.store.versions k)[n]? = some v ∧ v.1 = .tx t)) ∧
      ∀ t u k, Changes schema actions t k → Changes schema actions u k →
        ∀ (n m : ℕ) (v w : Owner × Version), n < m →
          (s.store.versions k)[n]? = some v → v.1 = .tx t →
          v.2.content.isPrimaryInitialized = false →
          (s.store.versions k)[m]? = some w → w.1 = .tx u →
          ∃ (j : ℕ) (x : Owner × Version), n < j ∧ j < m ∧ (s.store.versions k)[j]? = some x ∧
            x.2.content.isPrimaryInitialized = true := by
  obtain ⟨hinv, -, hparty⟩ := (contract schema).asserted (G := fun _ _ => True) (S := fun _ => True)
    (Q := fun s t tx => Backed s tx ∧ Publishes (fun _ _ _ => True) s t tx) trivial
    (fun t => ⟨nofun, publishes_start⟩)
    (fun _ _ _ _ => trivial)
    (fun hstore hstore' hinv h hrely =>
      ⟨fun hwrap => h.1 (hwrap.of_grows hrely.toGrows), h.2.rely hstore hstore' hinv hrely⟩)
    (fun hinv _ h _ hstep => ⟨trivial, h.1.step hinv.store (hinv.party _) hstep,
      h.2.step (fun _ _ _ _ _ => trivial) (hinv.party _) (fun _ _ _ => trivial) hstep⟩)
    (.of_forall (fun _ _ => trivial) _ _) hrun
  have hlive : ∀ t k, Changes schema actions t k → ∀ (n : ℕ) (v : Owner × Version),
      (s.store.versions k)[n]? = some v → v.1 = .tx t →
      (s.store.before k n).isPrimaryInitialized = true :=
    fun t k hchanges n v hv howner => (changer_run hrun hG hchanges).live hinv hwrap
      (hparty t).1 (hparty t).2 hv howner
  refine ⟨fun t k hchanges => ⟨hlive t k hchanges, fun hcommitted => ?_⟩, ?_⟩
  · rcases (changer_run hrun hG hchanges).aimed with hfailed | ⟨item, value, hstage⟩ |
      ⟨value, isInsert, hstage⟩ | ⟨w, hw, rfl⟩
    · rw [hcommitted] at hfailed
      cases hfailed
    · rw [hcommitted] at hstage
      cases hstage
    · rw [hcommitted] at hstage
      cases hstage
    · exact ((hparty t).2.version hcommitted hw).version
  · intro t u k _ hchanges n m v w hlt hv _ hdead hw howner
    -- the version right before the later change
    obtain ⟨j, x, hle, hlt, hj, hbefore⟩ := Store.exists_before hlt hw
    have hrow := hlive u k hchanges m w hw howner
    rw [hbefore] at hrow
    refine ⟨j, x, Nat.lt_of_le_of_ne hle ?_, hlt, hj, hrow⟩
    rintro rfl
    rw [hv] at hj
    cases hj
    rw [hdead] at hrow
    cases hrow

/-! ## Runs -/

/-- A row is written. -/
def writtenRow : List (Action Choice) :=
  [.party 0 (.write [1] [1] [7]), .party 0 .precommit] ++ nexts 0 12

/-- One transaction reads the row and updates it, and another one reads it. -/
def readAndUpdated : List (Action Choice) :=
  writtenRow ++ [.party 1 (.read [1] [1])] ++ nexts 1 6 ++ [.party 1 (.update [1] [1] [8])] ++
  nexts 1 2 ++ [.party 1 .precommit] ++ nexts 1 13 ++ [.party 2 (.read [1] [1])] ++ nexts 2 6

/-- The other one deletes it. -/
def readAndChanged : List (Action Choice) :=
  readAndUpdated ++ .party 2 (.delete [1] [1]) ::
    (nexts 2 2 ++ [.party 2 .precommit] ++ nexts 2 13)

/-- The end of the run. -/
def readAndChangedState : State Transaction :=
  (run (user oneTable).next (user oneTable).initial readAndChanged).get (by decide +kernel)

theorem readAndChangedState_versions :
    (readAndChangedState.store.versions (.row [1] [1])).map
        (fun v => (v.1, v.2.content.isPrimaryInitialized))
      = [(.tx 0, true), (.tx 1, true), (.tx 2, false)] := by
  decide +kernel

theorem registered_updates_kept_changed :
    (readAndChangedState.phase 2).stage = .committed ∧
      readAndChangedState.store.abs.writer (.row [1] [1]) 2 = some (.tx 2) ∧
      (readAndChangedState.phase 2).validationSet.map (·.position) = [2] ∧
      ∀ e ∈ (readAndChangedState.phase 2).validationSet, ∀ n,
        readAndChangedState.store.abs.writer e.slot n = some (.tx 2) → n = e.position := by
  refine ⟨by decide +kernel, by decide +kernel, by decide +kernel, ?_⟩
  exact ((registered_updates_kept (Option.some_get _).symm (by decide +kernel)
    (by decide +kernel)).2 2 (by decide +kernel)).2

/-- The end of the run. -/
def readAndUpdatedState : State Transaction :=
  (run (user oneTable).next (user oneTable).initial readAndUpdated).get (by decide +kernel)

theorem readAndChanged_changes : Changes oneTable readAndChanged 2 (.row [1] [1]) := by
  exact ⟨readAndUpdated, _, .delete [1] [1], [1], [1], [], readAndUpdatedState, rfl,
    .inr ⟨rfl, rfl⟩, rfl, (Option.some_get _).symm, by decide +kernel⟩

theorem updated_rows_existed_twice :
    (readAndChangedState.store.versions (.row [1] [1])).map
        (fun v => (v.1, v.2.content.isPrimaryInitialized))
      = [(.tx 0, true), (.tx 1, true), (.tx 2, false)] ∧
      (readAndChangedState.store.before (.row [1] [1]) 2).isPrimaryInitialized = true := by
  refine ⟨readAndChangedState_versions, ?_⟩
  obtain ⟨v, hv, howner⟩ : ∃ v, (readAndChangedState.store.versions (.row [1] [1]))[2]? = some v ∧
      v.1 = .tx 2 := by
    have hwriter : readAndChangedState.store.abs.writer (.row [1] [1]) 2 = some (.tx 2) := by
      decide +kernel
    exact Option.map_eq_some_iff.mp hwriter
  exact ((updated_rows_existed (s := readAndChangedState)
    (Option.some_get _).symm (by decide +kernel) (by decide +kernel)).1 2 _
    readAndChanged_changes).1 2 v hv howner

/-- A transaction calls `Update` and finds the row; another one deletes it and commits; then
the first one commits. -/
def updatedAfterDelete : List (Action Choice) :=
  writtenRow ++ .party 1 (.update [1] [1] [8]) ::
    (nexts 1 2 ++ [.party 2 (.delete [1] [1])] ++ nexts 2 2 ++ [.party 2 .precommit] ++
      nexts 2 12 ++ [.party 1 .precommit] ++ nexts 1 12)

/-- **A row comes back.** The transaction that called `Update` commits, behind the deletion of
the row it found when it was called; no sequence number is used up. -/
theorem update_recreates_row :
    ∃ s, run (user oneTable).next (user oneTable).initial updatedAfterDelete = some s ∧
      s.store.NoWrap ∧ Changes oneTable updatedAfterDelete 1 (.row [1] [1]) ∧
      (s.phase 1).stage = .committed ∧
      (s.store.versions (.row [1] [1])).map (fun v => (v.1, v.2.content.isPrimaryInitialized))
        = [(.tx 0, true), (.tx 2, false), (.tx 1, true)] := by
  refine ⟨(run (user oneTable).next (user oneTable).initial updatedAfterDelete).get
    (by decide +kernel), (Option.some_get _).symm, by decide +kernel, ?_, by decide +kernel,
    by decide +kernel⟩
  exact ⟨writtenRow, _, .update [1] [1] [8], [1], [1], [8],
    (run (user oneTable).next (user oneTable).initial writtenRow).get (by decide +kernel), rfl,
    .inl rfl, rfl, (Option.some_get _).symm, by decide +kernel⟩

end LineairDB.Native
