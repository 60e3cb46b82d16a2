import LineairDB.Native.Precommit

/-!
# Native transactions are serializable on what they resolved

A transaction that has passed its validation can only commit. The conflicts
between such transactions follow the order in which they re-joined the epoch
with their locks held, as far as the items they read are still the ones their
slots lead to; whoever reads a row and overwrites it has read the version before
its own.

* `registeredReads_fixed` — what a committed transaction has registered is where it was.
* `acyclic_of_fixed`, `next_of_fixed` — so the conflicts have no cycle, and no update
  is lost.
-/

namespace LineairDB.Native

open Silo ByteFile Transition
open Stateless (Schema)

variable {stage : Stage} {tx' : Transaction} {choice : Choice} {candidates : List Candidate}
  {x : Access × Transaction × List Candidate}

/-! ## Committed transactions -/

/-- The transaction has passed its validation, and can do nothing but commit. -/
def Stage.decided : Stage → Bool
  | .install _ _ | .publish _ | .register _ _ _ | .committed => true
  | _ => false

/-- The owner is a transaction that commits. -/
def Committed (s : State Transaction) (o : Owner) : Prop :=
  ∃ t, o = .tx t ∧ (s.phase t).stage.decided = true

/-- The reads a committed transaction has registered. -/
def registeredReads (s : State Transaction) (o : Owner) : Set (Slot × ℕ) :=
  {q | ∃ t e, o = .tx t ∧ (s.phase t).stage.decided = true ∧ e ∈ (s.phase t).validationSet ∧
    q = (e.slot, e.position)}

/-- The direct conflicts of the committed transactions over what they wrote and what they
registered. -/
abbrev Conflict (s : State Transaction) : Owner → Owner → Prop :=
  Optimistic.Conflict s.store.abs (Committed s) (registeredReads s)

variable {schema : Schema} {s : Store} {t : ℕ} {tx : Transaction} {slot : Slot} {purpose : Purpose}
  {item : ItemId}

/-! ## Deciding -/

theorem Stage.not_decided_of_failed (h : stage.failed = true) : stage.decided = false := by
  cases stage with
  | unlock | aborted => rfl
  | _ => cases h

theorem Stage.not_decided_of_collecting (h : stage.collecting = true ∨ stage = .aborted) :
    stage.decided = false := by
  rcases h with h | rfl
  · cases stage with
    | running | reading | checking | writing => rfl
    | _ => cases h
  · rfl

/-- `Precommit` installs in its install loop, `PostProcessing` publishes in its loop, and
nothing else does either. -/
theorem commitStep_quiet {valid : Bool}
    (hinstall : ∀ installed w todo, stage ≠ .install installed (w :: todo))
    (hpublish : ∀ w todo, stage ≠ .publish (w :: todo)) :
    (tx.commitStep s t valid stage).1.Quiet := by
  fun_cases Transaction.commitStep s t tx valid stage with
  | case15 installed w todo => exact absurd rfl (hinstall installed w todo)
  | case17 w todo => exact absurd rfl (hpublish w todo)
  | _ => trivial

/-- **What a transaction installs or publishes**, it does so from the loops of its commit. -/
theorem step_loud {x : Access × Transaction × List Candidate}
    (h : step schema s t tx choice = some x) (hloud : ¬ x.1.Quiet) :
    ∃ valid, x = tx.commitStep s t valid tx.stage ∧
      ((∃ installed w todo, tx.stage = .install installed (w :: todo)) ∨
        ∃ w todo, tx.stage = .publish (w :: todo)) := by
  rcases step_stage h with ⟨-, ha, -⟩ | ⟨-, -, rfl⟩ | ⟨valid, rfl⟩
  · exact absurd ha.quiet hloud
  · exact absurd trivial hloud
  · refine ⟨valid, rfl, ?_⟩
    by_contra hnone
    simp only [not_or, not_exists] at hnone
    exact hloud (commitStep_quiet hnone.1 hnone.2)

theorem decided_of_publish {i : ItemId} {word : TransactionId}
    (h : step schema s t tx choice = some (.publish i word, tx', candidates)) :
    tx'.stage.decided = true := by
  obtain ⟨valid, heq, hstage⟩ := step_loud h id
  rcases hstage with ⟨installed, w, todo, hstage⟩ | ⟨w, todo, hstage⟩
  · rw [hstage] at heq
    cases heq
  · rw [hstage] at heq
    cases heq
    rfl

/-- A decision is for good. -/
theorem decided_keeps {x : Access × Transaction × List Candidate}
    (h : step schema s t tx choice = some x) (hdecided : tx.stage.decided = true) :
    x.2.1.stage.decided = true := by
  rcases step_stage h with ⟨hcollecting, -⟩ | ⟨hstage, -⟩ | ⟨valid, rfl⟩
  · rw [Stage.not_decided_of_collecting (.inl hcollecting)] at hdecided
    cases hdecided
  · rw [hstage] at hdecided
    cases hdecided
  · generalize hstage : tx.stage = stage at hdecided ⊢
    fun_cases Transaction.commitStep s t tx valid stage with
    | case14 | case15 | case16 | case17 | case18 => rfl
    | case22 => exact hstage ▸ hdecided
    | _ => cases hdecided

/-- **What a committed transaction has registered is settled.** -/
theorem TransactionInv.confirmed (h : TransactionInv s t tx) (hdecided : tx.stage.decided = true) :
    Confirmed s t tx.validationSet := by
  have hstage := h.stage
  cases heq : tx.stage with
  | install | publish =>
    rw [heq] at hstage
    exact hstage.2
  | register =>
    rw [heq] at hstage
    exact hstage.2.1
  | committed =>
    rw [heq] at hstage
    exact hstage
  | _ =>
    rw [heq] at hdecided
    cases hdecided

/-! ## Rows that were read are registered -/

/-- Every row of the read set has been registered at its position; only secondary entries
are read without. -/
def Registered (tx : Transaction) : Prop :=
  ∀ r ∈ tx.readSet, (∃ e ∈ tx.validationSet, e.slot = r.slot ∧ e.position = r.position) ∨
    ∃ tableName indexName key, r.slot = .entry tableName indexName key

/-- `Precommit` reads nothing more, and sets lock bits in what is registered at most. -/
theorem commitStep_sets {valid : Bool} (hx : x = tx.commitStep s t valid stage) :
    x.2.1.readSet = tx.readSet ∧ x.2.1.missing = tx.missing ∧
      (x.2.1.validationSet = tx.validationSet ∨ ∃ item, x.2.1.validationSet = tx.patch item) := by
  subst hx
  fun_cases Transaction.commitStep s t tx valid stage with
  -- a lock that was taken on an attached item
  | case4 locked w => exact ⟨rfl, rfl, .inr ⟨w.item, rfl⟩⟩
  | _ => exact ⟨rfl, rfl, .inl rfl⟩

/-- What a confirmed copy adds to the sets. -/
theorem copied_sets (tx : Transaction) (purpose : Purpose) (item : ItemId) (copy : Content)
    (position : ℕ) :
    (tx.copied purpose item copy position).validationSet = tx.validationSet ∧
      ((tx.copied purpose item copy position).readSet = tx.readSet ∨
        (tx.copied purpose item copy position).readSet
          = tx.readSet ++ [⟨purpose.slot, copy, position⟩]) := by
  cases purpose with
  | read => exact ⟨rfl, .inr rfl⟩
  | direct | refresh => exact ⟨rfl, .inl rfl⟩
  | seed =>
    obtain ⟨hread, hvalidation⟩ := putSecondaryIndex_sets rfl
    exact ⟨hvalidation, .inr hread⟩

theorem readSet_register {tid : TransactionId} {position : ℕ} {attached : Bool} :
    (tx.register purpose item tid position attached).readSet = tx.readSet := by
  unfold Transaction.register
  split_ifs <;> rfl

/-- A copy that has been confirmed. -/
structure Confirms (s : Store) (tx : Transaction) (purpose : Purpose) (item : ItemId)
    (tid : TransactionId) (copy : Content) (tx' : Transaction) : Prop where
  stage : tx.stage = .reading purpose item (.reload tid copy)
  word : (s.item item).word = tid
  eq : tx' = (tx.register purpose item tid (s.item item).seen (s.Attached item)).copied purpose
    item copy (s.item item).seen

/-- **A copy under way goes on**, or is confirmed. -/
theorem step_reading {copying : Copying} (hstage : tx.stage = .reading purpose item copying)
    (h : step schema s t tx choice = some x) :
    (∃ byte valid, choice = .next byte valid) ∧
      ((∃ copying', x.2.1 = { tx with stage := .reading purpose item copying' }) ∨
        ∃ tid copy, Confirms s tx purpose item tid copy x.2.1) := by
  cases step_move h with
  | copy hcopying =>
    rw [hstage] at hcopying
    cases hcopying
    exact ⟨⟨_, _, rfl⟩, .inl ⟨_, rfl⟩⟩
  | confirm hreload hword =>
    have heq := hreload
    rw [hstage] at heq
    cases heq
    exact ⟨⟨_, _, rfl⟩, .inr ⟨_, _, hreload, hword, rfl⟩⟩
  | refuse hearly =>
    rcases hearly with hstage' | ⟨_, _, _, hstage'⟩
    all_goals
      rw [hstage] at hstage'
      cases hstage'
  | overwrite hearly | append hearly =>
    rcases hearly with ⟨hstage', -⟩ | hstage'
    all_goals
      rw [hstage] at hstage'
      cases hstage'
  | answer hstage' | miss hstage' | look hstage' | check hstage' | checked hstage' | claim hstage'
  | edit hstage' | put hstage' | precommit hstage' | commit hstage' =>
    rw [hstage] at hstage'
    cases hstage'

/-- What a validated copy leaves behind. -/
theorem Confirms.registered {tid : TransactionId} {copy : Content}
    (h : Confirms s tx purpose item tid copy tx') (hvalidated : purpose.validated = true) :
    ⟨item, tid, purpose.slot, (s.item item).seen, s.Attached item⟩ ∈ tx'.validationSet := by
  rw [h.eq, (copied_sets _ purpose item copy _).1]
  unfold Transaction.register
  rw [if_pos hvalidated]
  exact List.mem_concat_self

section

variable (h : step schema s t tx choice = some x)

include h

/-- **What a step does to what is registered.** -/
theorem step_registers :
    x.2.1.validationSet = tx.validationSet ∨ (∃ item, x.2.1.validationSet = tx.patch item) ∨
      ∃ purpose item tid copy, Confirms s tx purpose item tid copy x.2.1 ∧
        purpose.validated = true ∧ x.2.1.validationSet = tx.validationSet ++
          [⟨item, tid, purpose.slot, (s.item item).seen, s.Attached item⟩] := by
  cases step_move h with
  | @confirm _ _ purpose item tid copy hstage hword =>
    rw [(copied_sets _ purpose item copy _).1]
    unfold Transaction.register
    split_ifs with hvalidated
    · refine .inr (.inr ⟨purpose, item, tid, copy, ⟨hstage, hword, ?_⟩, hvalidated, rfl⟩)
      rw [Transaction.register, if_pos hvalidated]
    · exact .inl rfl
  | put => exact .inl (putSecondaryIndex_sets rfl).2
  | commit => exact (commitStep_sets rfl).2.2.imp_right .inl
  | _ => exact .inl rfl

/-- What is registered stays registered, with its lock bit set at most. -/
theorem step_validationSet {e : ValidationItem} (he : e ∈ tx.validationSet) :
    ∃ e' ∈ x.2.1.validationSet,
      e'.slot = e.slot ∧ e'.position = e.position ∧ e'.attached = e.attached := by
  rcases step_registers h with heq | ⟨item, heq⟩ | ⟨purpose, item, tid, copy, -, -, heq⟩
  · exact ⟨e, heq ▸ he, rfl, rfl, rfl⟩
  · rw [heq]
    refine ⟨_, List.mem_map_of_mem he, ?_⟩
    split_ifs <;> exact ⟨rfl, rfl, rfl⟩
  · exact ⟨e, heq ▸ List.mem_append_left _ he, rfl, rfl, rfl⟩

/-- **What a step adds to the read set** it has just confirmed. -/
theorem step_readSet :
    x.2.1.readSet = tx.readSet ∨
    ∃ purpose item tid copy, Confirms s tx purpose item tid copy x.2.1 ∧
      x.2.1.readSet = tx.readSet ++ [⟨purpose.slot, copy, (s.item item).seen⟩] := by
  cases step_move h with
  | @confirm _ _ purpose item tid copy hstage hword =>
    have hread := (copied_sets (tx.register purpose item tid (s.item item).seen
      (s.Attached item)) purpose item copy (s.item item).seen).2
    rw [readSet_register] at hread
    exact hread.imp_right fun hread =>
      ⟨purpose, item, tid, copy, ⟨hstage, hword, rfl⟩, hread⟩
  | put => exact .inl (putSecondaryIndex_sets rfl).1
  | commit => exact .inl (commitStep_sets rfl).1
  | _ => exact .inl rfl

theorem step_read {r : ReadSnapshot} (hr : r ∈ x.2.1.readSet) :
    r ∈ tx.readSet ∨ ∃ purpose item tid copy, Confirms s tx purpose item tid copy x.2.1 ∧
      r = ⟨purpose.slot, copy, (s.item item).seen⟩ := by
  rcases step_readSet h with heq | ⟨purpose, item, tid, copy, hconfirms, heq⟩
  · rw [heq] at hr
    exact .inl hr
  · rw [heq] at hr
    exact (mem_concat.mp hr).imp_right fun hr => ⟨purpose, item, tid, copy, hconfirms, hr⟩

end

theorem Registered.step (h : Registered tx) (hstep : step schema s t tx choice = some x) :
    Registered x.2.1 := by
  intro r hr
  rcases step_read hstep hr with hr | ⟨purpose, item, tid, copy, hconfirms, rfl⟩
  · refine (h r hr).imp_left ?_
    rintro ⟨e, he, hslot, hposition⟩
    obtain ⟨e', he', hslot', hposition', -⟩ := step_validationSet hstep he
    exact ⟨e', he', hslot'.trans hslot, hposition'.trans hposition⟩
  · cases hvalidated : purpose.validated with
    | true => exact .inl ⟨_, hconfirms.registered hvalidated, rfl, rfl⟩
    | false =>
      cases purpose with
      | seed tableName indexName key =>
        exact .inr ⟨tableName, indexName, key, rfl⟩
      | _ => cases hvalidated

variable {s : State Transaction}

theorem registered_run {actions : List (Action Choice)}
    (hrun : run (user schema).next (user schema).initial actions = some s) (t : ℕ) :
    Registered (s.phase t) := by
  refine Party.phase_invariant (fun h hstep => Registered.step h hstep) ?_ hrun
  intro r hr
  cases hr

/-! ## Serializability -/

/-- Registered reads of committed transactions are where they were, if their items are
still in place or were when they were read. -/
theorem registeredReads_fixed (h : SystemInv (contract schema) s) (hwrap : s.store.NoWrap)
    (hplace : ∀ t, (s.phase t).stage.decided = true → ∀ e ∈ (s.phase t).validationSet,
      s.store.Attached e.item ∨ e.attached = true)
    {o : Owner} (q : Slot × ℕ) (hq : q ∈ registeredReads s o) :
    q ∈ s.store.observed o ∧ q ∈ s.store.fixed o := by
  obtain ⟨t, e, rfl, hdecided, he, rfl⟩ := hq
  have hparty : TransactionInv s.store t (s.phase t) := h.party t
  refine ⟨(hparty.validation e he).observed, ?_⟩
  rcases hparty.confirmed hdecided e he hwrap with hfixed | ⟨hdetached, hflag⟩
  · exact hfixed
  · rcases hplace t hdecided e he with hattached | hattached
    · exact absurd hattached hdetached
    · rw [hflag] at hattached
      cases hattached

theorem acyclic_of_fixed (h : SystemInv (contract schema) s) {reads : Owner → Set (Slot × ℕ)}
    (hreads : ∀ o, ∀ q ∈ reads o, q ∈ s.store.observed o ∧ q ∈ s.store.fixed o) (o : Owner) :
    ¬ Relation.TransGen (Optimistic.Conflict s.store.abs (Committed s) reads) o o :=
  Optimistic.acyclic_of_stamps (s := s.store.abs)
    (fun _ _ hab => h.store.protocol.stamp_lt_of_conflict (fun o _ => hreads o) hab) o

/-- A transaction that wrote what it has read wrote the very next version. -/
theorem next_of_fixed {s : Store} (h : StoreInv s) {t n p : ℕ} {k : Slot}
    (hobserved : (k, p) ∈ s.observed (.tx t)) (hfixed : (k, p) ∈ s.fixed (.tx t))
    (hwriter : s.abs.writer k n = some (.tx t)) : n = p := by
  refine h.protocol.position_of_fixed hfixed hwriter ?_
  by_contra hlt
  -- what was observed was published by others, before the transaction had its stamp
  obtain ⟨st, hst⟩ := h.protocol.stamped k n _ hwriter
  exact absurd (h.protocol.stamp_lt_of_observed (Nat.lt_of_not_le hlt) hobserved hwriter hst hst)
    (Nat.lt_irrefl _)

end LineairDB.Native
