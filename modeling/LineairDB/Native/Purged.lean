import LineairDB.Native.Serializable

/-!
# Reads of purged tombstones and of missing keys

A transaction that has looked up a deleted key holds on to the tombstone. While
it copies it, the reaper may unlink the tombstone and leave a retired word on it;
a copy that begins after that is confirmed by the retired word, which never moves
again, whoever writes the key from then on.

* `purged_read_cycle` — such a read passes validation behind a write it should
  have seen, and two transactions commit that no order explains.
* `attached_reads_serializable`, `registered_updates_kept` — as long as every read
  that is registered finds its item attached, the conflicts have no cycle and no
  update is lost, whatever the reaper does afterwards.

A transaction that finds no slot for a key registers nothing.

* `missed_update_lost` — two transactions that miss a key and write it both commit.
* `missed_reads_serializable` — such reads are serializable as long as nobody has made
  the key live when their transaction passes its serialization point.
-/

namespace LineairDB.Native

open Silo ByteFile Transition
open Stateless (Schema oneTable)

/-! ## Reads of attached items -/

/-- The step does not register a read of an item that is no longer attached. -/
def readsAttached (s : State Transaction) : Action Choice → Bool
  | .party t _ =>
    match (s.phase t).stage with
    | .reading purpose item (.reload tid _) =>
      !purpose.validated || (s.store.item item).word != tid || s.store.Attached item
    | _ => true
  | _ => true

/-- Everything registered was attached when it was. -/
def AllAttached (tx : Transaction) : Prop := ∀ e ∈ tx.validationSet, e.attached = true

variable {schema : Schema} {s : State Transaction}

theorem AllAttached.step {t : ℕ} {choice : Choice} {x : Access × Transaction × List Candidate}
    (h : AllAttached (s.phase t)) (hG : readsAttached s (.party t choice) = true)
    (hstep : step schema s.store t (s.phase t) choice = some x) : AllAttached x.2.1 := by
  intro e he
  rcases step_registers hstep with heq | ⟨item, heq⟩ |
    ⟨purpose, item, tid, copy, hconfirms, hvalidated, heq⟩
  · exact h e (heq ▸ he)
  · rw [heq] at he
    obtain ⟨e', he', rfl⟩ := List.mem_map.mp he
    split_ifs <;> exact h e' he'
  · rw [heq] at he
    refine forall_mem_concat.mpr ⟨h, ?_⟩ e he
    simpa [readsAttached, hconfirms.stage, hvalidated, hconfirms.word] using hG

theorem allAttached_run {actions : List (Action Choice)}
    (hG : Along (user schema).next (fun s action => readsAttached s action = true)
      (user schema).initial actions)
    (hrun : run (user schema).next (user schema).initial actions = some s) (t : ℕ) :
    AllAttached (s.phase t) := by
  refine Party.phase_along (fun h hG hstep => AllAttached.step h hG hstep) ?_ hG hrun
  intro e he
  cases he

/-- **Registered reads stay validated across a purge**, if their items were attached when
they were registered: in every run of any number of transactions, the reaper and the
epoch, in which that is so and no sequence number is used up, the direct conflicts of the
committed transactions have no cycle. -/
theorem attached_reads_serializable {actions : List (Action Choice)} {s : State Transaction}
    (hrun : run (user schema).next (user schema).initial actions = some s)
    (hG : Along (user schema).next (fun s action => readsAttached s action = true)
      (user schema).initial actions)
    (hwrap : s.store.NoWrap) (o : Owner) : ¬ Relation.TransGen (Conflict s) o o := by
  have hinv : SystemInv (contract schema) s := (contract schema).invariant hrun
  refine acyclic_of_fixed hinv (fun o q hq => ?_) o
  exact registeredReads_fixed hinv hwrap
    (fun t _ e he => .inr (allAttached_run hG hrun t e he)) q hq

/-- **No update is lost.** In every run in which what is registered is attached then and no
sequence number is used up: every live copy in a read set is the content of one version a
committed transaction published; every row of a committed transaction's read set is
registered; and a committed transaction that wrote what it had registered wrote the version
right behind it. -/
theorem registered_updates_kept {actions : List (Action Choice)} {s : State Transaction}
    (hrun : run (user schema).next (user schema).initial actions = some s)
    (hG : Along (user schema).next (fun s action => readsAttached s action = true)
      (user schema).initial actions)
    (hwrap : s.store.NoWrap) :
    (∀ t, ∀ r ∈ (s.phase t).readSet, r.copy.initializedAt r.slot = true →
      ∃ n v, r.position = n + 1 ∧ (s.store.versions r.slot)[n]? = some v ∧
        v.2.content = r.copy ∧ Committed s v.1) ∧
      ∀ t, (s.phase t).stage.decided = true →
        (∀ r ∈ (s.phase t).readSet, ∀ tableName key, r.slot = .row tableName key →
          ∃ e ∈ (s.phase t).validationSet, e.slot = r.slot ∧ e.position = r.position) ∧
        ∀ e ∈ (s.phase t).validationSet, ∀ n,
          s.store.abs.writer e.slot n = some (.tx t) → n = e.position := by
  have hinv : SystemInv (contract schema) s := (contract schema).invariant hrun
  refine ⟨fun t r hr hlive => ?_, fun t hdecided => ⟨?_, ?_⟩⟩
  · have hparty : TransactionInv s.store t (s.phase t) := hinv.party t
    obtain ⟨n, v, hpos, hv, hcontent⟩ := hparty.read r hr hlive hwrap
    refine ⟨n, v, hpos, hv, hcontent, ?_⟩
    exact writer_decided (p := user schema) (fun tx => tx.stage.decided = true) decided_keeps
      decided_of_publish hrun r.slot v (List.mem_of_getElem? hv)
  · intro r hr tableName key hrow
    refine (registered_run hrun t r hr).resolve_right ?_
    rintro ⟨tableName', indexName, key', hentry⟩
    rw [hrow] at hentry
    cases hentry
  · intro e he n hwriter
    obtain ⟨hobserved, hmem⟩ := registeredReads_fixed hinv hwrap
      (fun t _ e he => .inr (allAttached_run hG hrun t e he)) _ ⟨t, e, rfl, hdecided, he, rfl⟩
    exact next_of_fixed hinv.store hobserved hmem hwriter

/-! ## Two runs -/

/-- The transaction `t` makes `n` steps; its scans have found nothing new. -/
def nexts (t n : ℕ) : List (Action Choice) := List.replicate n (.party t (.next 0 true))

/-- A row is written and deleted, and two epochs go by. -/
def deletedRow : List (Action Choice) :=
  [.party 0 (.write [1] [1] [7]), .party 0 .precommit] ++ nexts 0 12 ++
  [.party 1 (.delete [1] [1])] ++ nexts 1 2 ++ [.party 1 .precommit] ++ nexts 1 12 ++
  [.advanceEpoch, .advanceEpoch]

/-- A reaper pass over one candidate. -/
def reaperPass : List (Action Choice) := List.replicate 10 (.reap 3)

/-- The row is written anew, together with another one. -/
def rewrittenRow : List (Action Choice) :=
  [.party 3 (.write [1] [1] [8]), .party 3 (.write [1] [2] [9]), .party 3 .precommit] ++ nexts 3 18

/-- The tombstone is read, and its reader commits, before the reaper takes it away. -/
def readBeforePurge : List (Action Choice) :=
  deletedRow ++ [.party 2 (.read [1] [1])] ++ nexts 2 5 ++ [.party 2 .precommit] ++ nexts 2 7 ++
  reaperPass ++ rewrittenRow

/-- The end of the run. -/
def readBeforePurgeState : State Transaction :=
  (run (user oneTable).next (user oneTable).initial readBeforePurge).get (by decide +kernel)

theorem attached_reads_serializable_tombstone :
    run (user oneTable).next (user oneTable).initial readBeforePurge = some readBeforePurgeState ∧
      (readBeforePurgeState.phase 2).stage = .committed ∧
      (readBeforePurgeState.phase 2).validationSet = [⟨0, ⟨1, 4⟩, .row [1] [1], 2, true⟩] ∧
      readBeforePurgeState.store.index (.row [1] [1]) = some 1 ∧
      ∀ o, ¬ Relation.TransGen (Conflict readBeforePurgeState) o o := by
  have hrun : run (user oneTable).next (user oneTable).initial readBeforePurge
      = some readBeforePurgeState := (Option.some_get _).symm
  refine ⟨hrun, by decide +kernel, by decide +kernel, by decide +kernel, ?_⟩
  exact attached_reads_serializable hrun (by decide +kernel) (by decide +kernel)

/-- The tombstone is looked up before the reaper unlinks it and copied after that; the key
is written anew, and the other row of that write is read. -/
def readAcrossPurge : List (Action Choice) :=
  deletedRow ++ [.party 2 (.read [1] [1])] ++ reaperPass ++ nexts 2 5 ++ rewrittenRow ++
  [.party 2 (.read [1] [2])] ++ nexts 2 6 ++ [.party 2 .precommit] ++ nexts 2 8

/-- The end of the run. -/
def readAcrossPurgeState : State Transaction :=
  (run (user oneTable).next (user oneTable).initial readAcrossPurge).get (by decide +kernel)

/-- **A cycle across a purge.** The reader found the key deleted and saw the other write of
the transaction that created it again: it can be ordered neither after nor before it. Both
have committed, and no sequence number is used up. -/
theorem purged_read_cycle :
    ∃ s, run (user oneTable).next (user oneTable).initial readAcrossPurge = some s ∧
      s.store.NoWrap ∧
      (s.phase 2).readSet.map (fun r => (r.slot, r.copy.buffer))
        = [(.row [1] [1], []), (.row [1] [2], [9])] ∧
      (s.phase 2).stage = .committed ∧ (s.phase 3).stage = .committed ∧
      (s.store.versions (.row [1] [1])).map (fun v => (v.1, v.2.content.buffer))
        = [(.tx 0, [7]), (.tx 1, []), (.tx 3, [8])] ∧
      Conflict s (.tx 2) (.tx 3) ∧ Conflict s (.tx 3) (.tx 2) := by
  have hreader : Committed readAcrossPurgeState (.tx 2) := ⟨2, rfl, by decide +kernel⟩
  have hwriter : Committed readAcrossPurgeState (.tx 3) := ⟨3, rfl, by decide +kernel⟩
  have hreads : (readAcrossPurgeState.phase 2).validationSet
      = [⟨0, ⟨1, 6⟩, .row [1] [1], 2, false⟩, ⟨2, ⟨3, 2⟩, .row [1] [2], 1, true⟩] := by
    decide +kernel
  have hmem : ∀ e ∈ (readAcrossPurgeState.phase 2).validationSet,
      (e.slot, e.position) ∈ registeredReads readAcrossPurgeState (.tx 2) :=
    fun e he => ⟨2, e, rfl, by decide +kernel, he, rfl⟩
  rw [hreads] at hmem
  refine ⟨readAcrossPurgeState, (Option.some_get _).symm,
    by decide +kernel, by decide +kernel, by decide +kernel, by decide +kernel,
    by decide +kernel, ?_, ?_⟩
  · exact .readWrite (k := .row [1] [1]) (i := 2) hreader hwriter nofun
      (hmem _ (.head _)) (by decide +kernel) (Nat.le_refl 2)
  · exact .writeRead (k := .row [1] [2]) (i := 0) hwriter hreader nofun (by decide +kernel)
      (hmem _ (.tail _ (.head _))) Nat.zero_lt_one

/-! ## Keys without a slot -/

/-- The transaction has passed its serialization point and not failed. -/
def Stage.serialized : Stage → Bool
  | .validate _ | .phantoms | .inserts _ | .install _ _ | .publish _ | .register _ _ _
  | .committed => true
  | _ => false

theorem Stage.serialized_of_decided {stage : Stage} (h : stage.decided = true) :
    stage.serialized = true := by
  cases stage with
  | install | publish | register | committed => rfl
  | _ => cases h

theorem Stage.not_serialized_of_collecting {stage : Stage}
    (h : stage.collecting = true ∨ stage = .aborted) : stage.serialized = false := by
  rcases h with h | rfl
  · cases stage with
    | running | reading | checking | writing => rfl
    | _ => cases h
  · rfl

/-- A transaction passes its serialization point when it holds all its locks. -/
theorem serialized_commit {s : Store} {t : ℕ} {tx : Transaction} {valid : Bool}
    (h : (tx.commitStep s t valid tx.stage).2.1.stage.serialized = true) :
    tx.stage.serialized = true ∨
      (∃ locked, tx.stage = .lock locked []) ∧
        (tx.commitStep s t valid tx.stage).1 = .serialize := by
  revert h
  generalize hstage : tx.stage = stage
  fun_cases Transaction.commitStep s t tx valid stage with
  | case1 locked => exact fun _ => .inr ⟨⟨locked, rfl⟩, rfl⟩
  -- the lock is taken, and the loop looks again
  | case2 =>
    intro h
    rw [hstage] at h
    cases h
  | case22 =>
    intro h
    rw [hstage] at h
    exact .inl h
  | _ =>
    intro h
    first | exact .inl rfl | cases h

/-- The keys a committed transaction found no slot for. -/
def missedReads (s : State Transaction) (o : Owner) : Set (Slot × ℕ) :=
  {q | ∃ t, o = .tx t ∧ (s.phase t).stage.decided = true ∧ q ∈ (s.phase t).missing}

/-- The direct conflicts of the committed transactions, and those between a transaction and
whoever makes a key live that it found no slot for. -/
def MissedConflict (s : State Transaction) (a b : Owner) : Prop :=
  Conflict s a b ∨
    Committed s a ∧ Committed s b ∧ a ≠ b ∧ s.store.Revives (missedReads s) a b

/-- When a transaction passes its serialization point, nobody has made a key live that it
found no slot for, and nobody else who has passed it holds the lock of one. -/
def MissedUnmoved (s : State Transaction) : Action Choice → Prop
  | .party t _ =>
    match (s.phase t).stage with
    | .lock _ [] => ∀ q ∈ (s.phase t).missing, s.store.Unmoved t q
    | _ => True
  | .reap _ | .advanceEpoch => True

instance (s : State Transaction) (action : Action Choice) : Decidable (MissedUnmoved s action) := by
  unfold MissedUnmoved
  split
  · split <;> infer_instance
  · infer_instance
  · infer_instance

/-- What a transaction is to be ahead of, it is so from its serialization point on. -/
theorem missed_step {t : ℕ} {choice : Choice} {x : Access × Transaction × List Candidate}
    (hinv : SystemInv (contract schema) s) (hcond : MissedUnmoved s (.party t choice))
    (hstep : step schema s.store t (s.phase t) choice = some x)
    (hserialized : x.2.1.stage.serialized = true) {q : Slot × ℕ} (hq : q ∈ x.2.1.missing) :
    (s.phase t).stage.serialized = true ∧ q ∈ (s.phase t).missing ∨
      (s.store.access (.tx t) x.1).Ahead t q := by
  rcases step_stage hstep with ⟨-, -, hstage⟩ | ⟨-, -, rfl⟩ | ⟨valid, rfl⟩
  · rw [Stage.not_serialized_of_collecting hstage] at hserialized
    cases hserialized
  · cases hserialized
  · rw [(commitStep_sets rfl).2.1] at hq
    rcases serialized_commit hserialized with hold | ⟨⟨locked, hstage⟩, haccess⟩
    · exact .inl ⟨hold, hq⟩
    · rw [haccess]
      have hlocking := TransactionInv.stage (hinv.party t)
      simp only [MissedUnmoved, hstage] at hcond hlocking
      exact .inr ((hcond q hq).serialize hlocking.stamp)

/-- **Reads of missing keys are serializable** along with all others: in every run in which
what is registered is attached then, no sequence number is used up, and every key a
transaction found no slot for is unmoved when it passes its serialization point. -/
theorem missed_reads_serializable {actions : List (Action Choice)} {s : State Transaction}
    (hrun : run (user schema).next (user schema).initial actions = some s)
    (hG : Along (user schema).next (fun s action => readsAttached s action = true)
      (user schema).initial actions)
    (hunmoved : Along (user schema).next MissedUnmoved (user schema).initial actions)
    (hwrap : s.store.NoWrap) (o : Owner) : ¬ Relation.TransGen (MissedConflict s) o o := by
  have hinv : SystemInv (contract schema) s := (contract schema).invariant hrun
  refine Optimistic.acyclic_of_stamps (s := s.store.abs) (fun a b hab => ?_) o
  rcases hab with hconflict | ⟨-, -, hne, q, ⟨t, rfl, hdecided, hq⟩, i, v, hi, hv, hlive⟩
  · exact hinv.store.protocol.stamp_lt_of_conflict (fun o _ q hq => registeredReads_fixed hinv hwrap
      (fun t _ e he => .inr (allAttached_run hG hrun t e he)) q hq) hconflict
  · have hahead := (contract schema).ahead
      (fun tx : Transaction => {q | tx.stage.serialized = true ∧ q ∈ tx.missing})
      (Set.eq_empty_of_forall_notMem fun q hq => by cases hq.1) ?_ hunmoved hrun t q
      ⟨Stage.serialized_of_decided hdecided, hq⟩
    · exact (hahead.writer i b v hi hv hlive).resolve_left hne.symm
    · rintro s t choice a tx' candidates hinv hcond hstep q ⟨hserialized, hq⟩
      exact (missed_step hinv hcond hstep hserialized hq).imp_right .inr

/-- Two transactions write a row that was not there, one after the other; the first has
looked it up before, and the second has looked up the row `key`. -/
def missedRun (key : Bytes) : List (Action Choice) :=
  [.party 0 (.read [1] [1]), .party 1 (.read [1] key)] ++
  [.party 0 (.write [1] [1] [7]), .party 0 .precommit] ++ nexts 0 12 ++
  [.party 1 (.write [1] [1] [8]), .party 1 .precommit] ++ nexts 1 12

/-- The state the run ends in, when the second transaction looks up another row or this
one. -/
def missedState (other : Bool) : State Transaction :=
  (run (user oneTable).next (user oneTable).initial
    (missedRun (if other then [2] else [1]))).get (by cases other <;> decide +kernel)

theorem missedState_run (other : Bool) : run (user oneTable).next (user oneTable).initial
    (missedRun (if other then [2] else [1])) = some (missedState other) :=
  (Option.some_get _).symm

/-- Whoever makes a key live that had no slot conflicts with the transaction that missed it. -/
theorem missedConflict_of_missing {t u i : ℕ} {q : Slot × ℕ} (ht : (s.phase t).stage.decided = true)
    (hu : (s.phase u).stage.decided = true) (hne : t ≠ u) (hq : q ∈ (s.phase t).missing)
    (hi : q.2 ≤ i)
    (hv : ((s.store.versions q.1)[i]?).map (fun v => (v.1, v.2.content.initializedAt q.1))
      = some (.tx u, true)) : MissedConflict s (.tx t) (.tx u) := by
  obtain ⟨⟨o, v⟩, hv, howner⟩ := Option.map_eq_some_iff.mp hv
  obtain ⟨rfl, hlive⟩ := Prod.mk.inj howner
  exact .inr ⟨⟨t, rfl, ht⟩, ⟨u, rfl, hu⟩, fun heq => hne (Owner.tx.inj heq), q, ⟨t, rfl, ht, hq⟩,
    i, v, hi, hv, hlive⟩

theorem missed_reads_serializable_other :
    (missedState true).store.NoWrap ∧ MissedConflict (missedState true) (.tx 0) (.tx 1) ∧
      ∀ o, ¬ Relation.TransGen (MissedConflict (missedState true)) o o := by
  have hwrap : (missedState true).store.NoWrap := by decide +kernel
  refine ⟨hwrap, ?_, missed_reads_serializable (missedState_run true) (by decide +kernel)
    (by decide +kernel) hwrap⟩
  exact missedConflict_of_missing (q := (.row [1] [1], 0)) (i := 1) (by decide +kernel)
    (by decide +kernel) zero_ne_one (by decide +kernel) (Nat.zero_le 1) (by decide +kernel)

/-- **The first update is lost**: two transactions that have both missed a key and then both
write it commit, and the second overwrites what the first has written unseen. -/
theorem missed_update_lost :
    ∃ s, run (user oneTable).next (user oneTable).initial (missedRun [1]) = some s ∧
      s.store.NoWrap ∧
      (s.phase 0).missing = [(.row [1] [1], 0)] ∧ (s.phase 1).missing = [(.row [1] [1], 0)] ∧
      (s.phase 0).stage = .committed ∧ (s.phase 1).stage = .committed ∧
      (s.store.versions (.row [1] [1])).map (fun v => (v.1, v.2.content.buffer))
        = [(.tx 0, [7]), (.tx 1, [8])] ∧
      MissedConflict s (.tx 0) (.tx 1) ∧ MissedConflict s (.tx 1) (.tx 0) := by
  have hcommitted : ∀ t < 2, ((missedState false).phase t).stage.decided = true := by
    decide +kernel
  refine ⟨missedState false, missedState_run false, by decide +kernel, by decide +kernel,
    by decide +kernel, by decide +kernel, by decide +kernel, by decide +kernel, ?_, ?_⟩
  · exact .inl (.writeWrite (k := .row [1] [1]) (i := 0) (j := 1) ⟨0, rfl, hcommitted 0 two_pos⟩
      ⟨1, rfl, hcommitted 1 one_lt_two⟩ nofun (by decide +kernel) (by decide +kernel)
      Nat.zero_lt_one)
  · exact missedConflict_of_missing (q := (.row [1] [1], 0)) (i := 0) (hcommitted 1 one_lt_two)
      (hcommitted 0 two_pos) one_ne_zero (by decide +kernel) le_rfl (by decide +kernel)

end LineairDB.Native
