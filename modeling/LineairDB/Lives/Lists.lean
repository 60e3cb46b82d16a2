import LineairDB.Lives.Committers
import LineairDB.Native.ListReads
import LineairDB.Recovery.SecondaryRecovery
import LineairDB.Stateless.Lists

/-!
# No update of a secondary index is lost

Native transactions merge the deltas of their calls into the primary-key list
they have locked, stateless requests apply their operations to it one by one.
Either way a list is the fold of all the operations of the transactions that
have published to it, in the order in which they have.

* `versions_folded` — every version of a list is such a fold.
* `secondary_updates_kept` — so is the list in memory, and what a committed
  transaction was told of it are the operations of those that precede it.
* `missed_list_update` — unless the entry had no slot when it was read: then
  nothing is registered, and an update that precedes the reader is missed.
-/

namespace LineairDB.Lives

open Silo ByteFile Transition
open Stateless (Schema Asked Installing)
open Native (IsList Transaction Recorded entry_of_isList)
open Recovery (WriteOp writesTo secondaryIndexDeltas applySecondaryIndexDelta)

/-! ## Deltas and operations -/

variable {k : Slot} {c : Content} {ops : List WriteOp} {tx : Transaction}

theorem buffer_foldl_delta (deltas : List Recovery.SecondaryIndexDelta) (c : Content) :
    (deltas.foldl applySecondaryIndexDelta c).buffer = c.buffer := by
  induction deltas generalizing c with
  | nil => rfl
  | cons delta deltas ih =>
    rw [List.foldl_cons, ih]
    unfold applySecondaryIndexDelta
    split <;> rfl

theorem buffer_foldl_apply {tableName indexName key : Bytes} (ops : List WriteOp) (c : Content)
    (hops : ∀ op ∈ ops, op.slot = .entry tableName indexName key) :
    (ops.foldl WriteOp.apply c).buffer = c.buffer := by
  induction ops generalizing c with
  | nil => rfl
  | cons op ops ih =>
    rw [List.foldl_cons, ih _ fun op' hop' => hops op' (.tail _ hop')]
    cases op with
    | row => cases hops _ (.head _)
    | entry => rfl

theorem slot_of_mem_writesTo {op : WriteOp} (h : op ∈ writesTo k ops) : op.slot = k :=
  of_decide_eq_true (List.mem_filter.mp h).2

/-- Merging the deltas of a sequence of operations is the sequence, of the whole content. -/
theorem foldl_secondaryIndexDeltas {tableName indexName key : Bytes}
    (hsorted : c.Ordered) :
    (secondaryIndexDeltas (.entry tableName indexName key) ops).foldl applySecondaryIndexDelta c
      = (writesTo (.entry tableName indexName key) ops).foldl WriteOp.apply c := by
  have hbuffer : ((secondaryIndexDeltas (.entry tableName indexName key) ops).foldl
      applySecondaryIndexDelta c).buffer
      = ((writesTo (.entry tableName indexName key) ops).foldl WriteOp.apply c).buffer := by
    rw [buffer_foldl_delta, buffer_foldl_apply _ _ fun op hop => slot_of_mem_writesTo hop]
  exact congrArg₂ Content.mk hbuffer (Recovery.primaryKeys_merge_secondaryIndexDeltas hsorted)

/-! ## The operations of a run -/

/-- What a call adds to lists, or removes from them. -/
def secondaryOps : Choice → List WriteOp
  | .inl choice => choice.secondaryOps
  | .inr choice => choice.secondaryOps

/-- The operations of a committer, in the order of its calls. -/
def opsOf (actions : List (Action Choice)) : Owner → List WriteOp
  | .tx t => (choicesOf t actions).flatMap secondaryOps
  | _ => []

/-- The operations of a list of committers, one committer after the other. -/
def folded (ops : Owner → List WriteOp) (k : Slot) (versions : List (Owner × Version)) : Content :=
  versions.foldl (fun c v => (writesTo k (ops v.1)).foldl WriteOp.apply c) .blank

/-- What the calls so far have left of a list in a committer. -/
def Remembers (k : Slot) (choices : List Choice) : Committer → Prop
  | none => choices = []
  | some (.inl tx) => Recorded k (choices.flatMap secondaryOps) tx
  | some (.inr r) => Asked (choices.flatMap secondaryOps) r

theorem Remembers.native {choices : List Choice} {phase : Committer} (h : Remembers k choices phase)
    (htx : IsNative phase tx) : Recorded k (choices.flatMap secondaryOps) tx := by
  rcases htx with rfl | ⟨rfl, rfl⟩
  · exact h
  · rw [show choices = [] from h]
    exact Native.recorded_start k

variable {schema : Schema} {actions : List (Action Choice)} {s : State Committer} {t : ℕ}

section

variable (hlist : IsList schema k)
  (hrun : run (committers schema).next (committers schema).initial actions = some s)

include hlist hrun

theorem remembers_run (t : ℕ) : Remembers k (choicesOf t actions) (s.phase t) := by
  refine Party.phase_history (p := committers schema) rfl ?_ hrun
  intro s choices phase choice a phase' candidates hold hstep
  have hops : (choices ++ [choice]).flatMap secondaryOps
      = choices.flatMap secondaryOps ++ secondaryOps choice := by
    rw [List.flatMap_append, List.flatMap_singleton]
  rcases Party.sum_cases hstep with ⟨x, x', c, rfl, hx, rfl, hleft⟩ |
    ⟨y, y', d, rfl, hy, rfl, hright⟩
  · show Recorded k _ x'
    rw [hops]
    exact (hold.native hx).step hlist hleft
  · have hasked : Asked (choices.flatMap secondaryOps) y := by
      rcases hy with rfl | ⟨rfl, rfl⟩
      · exact hold
      · rw [show choices = [] from hold]
        rfl
    show Asked _ y'
    rw [hops]
    exact hasked.step hright

/-! ## What is published -/

/-- What a transaction publishes to lists. -/
abbrev NativeMerges (s : Store) (t : ℕ) (tx : Transaction) : Prop :=
  Native.Publishes Native.Merges s t tx

/-- What a request installs to lists and publishes. -/
def RequestAppends (s : Store) (t : ℕ) (r : Stateless.Request) : Prop :=
  Installing s r ∧ Stateless.Publishes Stateless.Appends s t r

omit hlist hrun in
theorem merges_run
    (hrun : run (committers schema).next (committers schema).initial actions = some s) :
    SystemInv (contract schema) s ∧
      ∀ t, Either NativeMerges RequestAppends s.store t (s.phase t) := by
  obtain ⟨hinv, -, hparty⟩ := either_asserted schema (S := fun _ => True) (N := NativeMerges)
    (R := RequestAppends) (G := fun _ _ => True) trivial
    (fun t => ⟨Native.publishes_start, trivial, Stateless.publishes_start⟩)
    (fun _ _ _ _ => trivial)
    (fun hstore hstore' hinv hmerges hrely => hmerges.rely hstore hstore' hinv hrely)
    (fun hstore hstore' hinv happends hrely =>
      ⟨happends.1.rely hstore hstore' hinv hrely, happends.2.rely hstore hstore' hinv hrely⟩)
    (fun hstore _ hinv hmerges _ _ hstep => ⟨trivial, hmerges.step Native.respects_merges hinv
      (Native.merges_decide hstore hinv) hstep⟩)
    (fun hstore _ hinv happends _ _ hstep => by
      refine ⟨trivial, happends.1.step hstore hinv hstep, happends.2.step hinv ?_ hstep⟩
      intro c hstage i hi
      have hrequest := hinv.stage
      rw [hstage] at hrequest
      have hinstalling := happends.1
      unfold Installing at hinstalling
      rw [hstage] at hinstalling
      exact Installing.done hrequest.1 hrequest.2.1 hinstalling hi)
    (.of_forall (fun _ _ => trivial) _ _) hrun
  exact ⟨hinv, hparty⟩

/-- **What a committer publishes to a list** are its operations, on top of what was there. -/
theorem wrote_ops (t : ℕ) :
    s.store.Wrote (.tx t) k fun before after => before.Ordered →
      after = (writesTo k (opsOf actions (.tx t))).foldl WriteOp.apply before := by
  obtain ⟨hinv, hmerges⟩ := merges_run hrun
  obtain ⟨tableName, indexName, key, rfl⟩ := entry_of_isList hlist
  have hremembers := remembers_run hlist hrun t
  have hparty := hinv.party t
  have hphase := hmerges t
  intro n v hv howner hsorted
  cases heq : s.phase t with
  | none =>
    rw [heq] at hphase
    exact absurd howner (hphase.1.unwritten rfl _ n v hv)
  | some phase =>
    rw [heq] at hphase hremembers hparty
    cases phase with
    | inl =>
      rw [Recorded.wrote hlist hremembers hphase n v hv howner]
      exact foldl_secondaryIndexDeltas hsorted
    | inr =>
      exact Asked.wrote hparty ⟨_, _, _, rfl⟩ hremembers hphase.2 n v hv howner

/-- **Every version of a list is the fold of the operations** of the committers that have
published up to it. -/
theorem versions_folded {n : ℕ} (hn : n ≤ (s.store.versions k).length) :
    s.store.before k n = folded (opsOf actions) k ((s.store.versions k).take n) ∧
      (s.store.before k n).Ordered := by
  induction n with
  | zero => exact ⟨rfl, List.Pairwise.nil⟩
  | succ n ih =>
    obtain ⟨hfold, hsorted⟩ := ih (Nat.le_of_succ_le hn)
    have hv : (s.store.versions k)[n]? = some (s.store.versions k)[n] :=
      List.getElem?_eq_getElem hn
    obtain ⟨t, howner, -⟩ := commits_of_version hrun (List.mem_of_getElem? hv)
    have hcontent := wrote_ops hlist hrun t n _ hv howner hsorted
    have hnext : s.store.before k (n + 1)
        = (writesTo k (opsOf actions (.tx t))).foldl WriteOp.apply (s.store.before k n) := by
      rw [Store.before_succ hv, hcontent]
    refine ⟨?_, ?_⟩
    · rw [hnext, hfold, List.take_succ_eq_append_getElem hn, folded, folded, List.foldl_append,
        List.foldl_cons, List.foldl_nil, howner]
    · rw [hnext]
      exact Recovery.pairwise_foldl_apply _ hsorted

/-! ## What is read -/

/-- The transaction a committer is, or may become. -/
def transactionOf : Committer → Option Transaction
  | none => some ⟨[], [], [], [], .running⟩
  | some (.inl tx) => some tx
  | some (.inr _) => none

/-- A `ReadSecondaryIndex` of the entry finds a slot for it, and confirms its copy while the
item is attached. -/
def findsList (k : Slot) (s : State Committer) : Action Choice → Bool
  | .party t (.inl choice) =>
    ((transactionOf (s.phase t)).map fun tx => tx.finds s.store k choice).getD true
  | _ => true

omit hlist hrun in
theorem transactionOf_native {phase : Committer} (h : IsNative phase tx) :
    transactionOf phase = some tx := by
  rcases h with rfl | ⟨rfl, rfl⟩ <;> rfl

/-- A `ReadSecondaryIndex` of the entry, called by the transaction `t` after `earlier`, has
answered with this list. -/
def Tells (schema : Schema) (actions : List (Action Choice)) (t : ℕ) (k : Slot)
    (earlier : List (Action Choice)) (list : List Bytes) : Prop :=
  ∃ choice later m m' tx tx', actions = earlier ++ .party t (.inl choice) :: later ∧
    run (committers schema).next (committers schema).initial earlier = some m ∧
    (committers schema).next m (.party t (.inl choice)) = some m' ∧
    IsNative (m.phase t) tx ∧ m'.phase t = some (.inl tx') ∧ Native.Answers k choice tx tx' ∧
    list = tx'.answer k

/-- One committer comes before another in the order they have re-joined the epoch in, with
their locks held. -/
def Precedes (s : Store) (o o' : Owner) : Prop :=
  ∃ st st', s.stamp o = some st ∧ s.stamp o' = some st' ∧ st < st'

omit hlist hrun in
theorem lists_run (hlist : IsList schema k)
    (hG : Along (committers schema).next (fun s action => findsList k s action = true)
      (committers schema).initial actions)
    (hrun : run (committers schema).next (committers schema).initial actions = some s)
    (htx : IsNative (s.phase t) tx) : Native.Lists k s.store tx := by
  obtain ⟨-, -, hparty⟩ := either_asserted schema (S := fun _ => True)
    (N := fun s _ tx => Native.Lists k s tx) (R := fun _ _ _ => True)
    (G := fun s action => findsList k s action = true) trivial
    (fun t => ⟨Native.lists_start k _, trivial⟩)
    (fun _ _ _ _ => trivial) (fun _ _ _ hlists hrely => hlists.rely hrely)
    (fun _ _ _ _ _ => trivial)
    (fun {s t tx tx' c a candidates} hstore _ hinv hlists hnative hfinds hstep => by
      refine ⟨trivial, hlists.step hlist hstore hinv ?_ hstep⟩
      simpa [findsList, transactionOf_native hnative] using hfinds)
    (fun _ _ _ _ _ _ _ => ⟨trivial, trivial⟩) hG hrun
  exact (hparty t).native htx

/-- The answer, from a list that is registered. -/
theorem answer_run {s' : State Committer} {choice : Native.Choice} {tx tx' : Transaction}
    (hG : Along (committers schema).next (fun s action => findsList k s action = true)
      (committers schema).initial actions) (hwrap : s.store.NoWrap)
    (hnext : (committers schema).next s (.party t (.inl choice)) = some s')
    (hfinds : findsList k s (.party t (.inl choice)) = true) (htx : IsNative (s.phase t) tx)
    (htx' : s'.phase t = some (.inl tx')) (hanswers : Native.Answers k choice tx tx') :
    ∃ copy p, Native.Seen s.store tx' k copy p ∧ tx'.answer k
      = ((secondaryIndexDeltas k (opsOf actions (.tx t))).foldl applySecondaryIndexDelta
        copy).primaryKeys := by
  have hinv := (contract schema).invariant hrun
  cases Party.effect hnext with
  | @party _ _ a phase candidates hparty =>
    obtain ⟨tx'', rfl, hcall⟩ := native_call htx hparty
    have hupdate : Function.update s.phase t (some (.inl tx'')) t = some (.inl tx') := htx'
    rw [Function.update_self] at hupdate
    cases hupdate
    exact Native.answer_seen hlist hinv.store (Contract.sumInv_left (hinv.party t) htx) hwrap
      (lists_run hlist hG hrun htx) ((remembers_run hlist hrun t).native htx)
      (by simpa [findsList, transactionOf_native htx] using hfinds) hanswers hcall

omit hlist hrun in
/-- What is registered stays so to the end. -/
theorem registered_run {m : State Committer} {e : Native.ValidationItem}
    (hrun : run (committers schema).next m actions = some s) (htx : m.phase t = some (.inl tx))
    (he : e ∈ tx.validationSet) :
    ∃ final, s.phase t = some (.inl final) ∧ ∃ e' ∈ final.validationSet,
      e'.slot = e.slot ∧ e'.position = e.position ∧ e'.attached = e.attached := by
  refine Party.phase_invariant (F := fun phase => ∃ final, phase = some (.inl final) ∧
    ∃ e' ∈ final.validationSet, e'.slot = e.slot ∧ e'.position = e.position ∧
      e'.attached = e.attached) ?_ ⟨tx, htx, e, he, rfl, rfl, rfl⟩ hrun
  rintro s phase choice a phase' candidates ⟨x, rfl, e', he', hslot, hposition, hattached⟩ hstep
  obtain ⟨x', c, rfl, rfl, hcall⟩ := native_cases hstep
  obtain ⟨e'', he'', hslot', hposition', hattached'⟩ := Native.step_validationSet hcall he'
  exact ⟨x', rfl, e'', he'', hslot'.trans hslot, hposition'.trans hposition,
    hattached'.trans hattached⟩

omit hlist in
/-- What a committed transaction has registered as attached has not moved. -/
theorem registered_fixed (hwrap : s.store.NoWrap) {e : Native.ValidationItem}
    (htx : s.phase t = some (.inl tx)) (hreturned : Returned (s.phase t))
    (he : e ∈ tx.validationSet) (hattached : e.attached = true) :
    (e.slot, e.position) ∈ s.store.observed (.tx t) ∧
      (e.slot, e.position) ∈ s.store.fixed (.tx t) := by
  have hinv : Native.TransactionInv s.store t tx :=
    Contract.sumInv_left (((contract schema).invariant hrun).party t) (.inl htx)
  have hdecided : tx.stage.decided = true := by
    rw [htx] at hreturned
    rw [show tx.stage = .committed from hreturned]
    rfl
  refine ⟨(hinv.validation e he).observed, (hinv.confirmed hdecided e he hwrap).resolve_right ?_⟩
  rintro ⟨-, hflag⟩
  rw [hattached] at hflag
  cases hflag

omit hlist hrun in
/-- **A read that has not moved stands between the versions** of the committers that precede
its reader and those of the others. -/
theorem precedes_of_fixed {s : Store} {t p n : ℕ} {v : Owner × Version} (hstore : StoreInv s)
    (hobserved : (k, p) ∈ s.observed (.tx t)) (hfixed : (k, p) ∈ s.fixed (.tx t))
    (hv : (s.versions k)[n]? = some v) :
    (v.1 = .tx t → n = p) ∧ (v.1 ≠ .tx t → (n < p ↔ Precedes s v.1 (.tx t))) := by
  have hwriter : s.abs.writer k n = some v.1 := by
    show ((s.versions k)[n]?).map Prod.fst = some v.1
    rw [hv]
    rfl
  refine ⟨fun howner => ?_, fun hother => ⟨fun hlt => ?_, ?_⟩⟩
  · rw [howner] at hwriter
    exact Native.next_of_fixed hstore hobserved hfixed hwriter
  · obtain ⟨su, hsu⟩ := hstore.protocol.stamped k n v.1 hwriter
    obtain ⟨-, st, hst⟩ := hstore.protocol.fixed_le (.tx t) k p hfixed
    exact ⟨su, st, hsu, hst, hstore.protocol.stamp_lt_of_observed hlt hobserved hwriter hsu hst⟩
  · rintro ⟨su, st, hsu, hst, hlt⟩
    by_contra hge
    have hafter := hstore.protocol.stamp_lt_of_fixed (Nat.le_of_not_lt hge) hfixed hwriter hst hsu
      hother.symm
    omega

/-- **A committed transaction was told the list as of its place in the order**: its own calls
so far on top of the operations of exactly the committers that precede it. -/
theorem told_list
    (hG : Along (committers schema).next (fun s action => findsList k s action = true)
      (committers schema).initial actions) (hwrap : s.store.NoWrap)
    (hreturned : Returned (s.phase t)) {earlier : List (Action Choice)} {list : List Bytes}
    (htells : Tells schema actions t k earlier list) :
    ∃ p, list = ((writesTo k (opsOf earlier (.tx t))).foldl WriteOp.apply
        (folded (opsOf actions) k ((s.store.versions k).take p))).primaryKeys ∧
      ∀ (n : ℕ) (v : Owner × Version), (s.store.versions k)[n]? = some v →
        (v.1 = .tx t → n = p) ∧ (v.1 ≠ .tx t → (n < p ↔ Precedes s.store v.1 (.tx t))) := by
  obtain ⟨choice, later, m, m', tx, tx', rfl, hm, hnext, htx, htx', hanswers, rfl⟩ := htells
  have hrest : run (committers schema).next m (.party t (.inl choice) :: later) = some s := by
    obtain ⟨m₀, hm₀, hrest⟩ := run_append.mp hrun
    rw [hm] at hm₀
    cases hm₀
    exact hrest
  obtain ⟨m₁, hnext₁, hlater⟩ := run_cons.mp hrest
  rw [hnext] at hnext₁
  cases hnext₁
  obtain ⟨hGearlier, hGrest⟩ := hG.split hm
  obtain ⟨hback, hgrown⟩ := run_grows hrest
  obtain ⟨copy, p, hseen, hanswer⟩ := answer_run hlist hm hGearlier (hback hwrap) hnext hGrest.1
    htx htx' hanswers
  obtain ⟨e, he, rfl, rfl, hattached⟩ := hseen.registered
  obtain ⟨final, hfinal, e', he', hslot, hposition, hattached'⟩ := registered_run hlater htx' he
  obtain ⟨hobserved, hfixed⟩ := registered_fixed hrun hwrap hfinal hreturned he'
    (hattached'.trans hattached)
  rw [hslot, hposition] at hobserved hfixed
  refine ⟨e.position, ?_, fun n v hv => precedes_of_fixed
    ((contract schema).invariant hrun).store hobserved hfixed hv⟩
  obtain ⟨hfold, hsorted⟩ := versions_folded hlist hrun
    (Nat.le_trans hseen.le (hgrown e.slot).length_le)
  have hcopy : copy = s.store.before e.slot e.position := by
    rw [Store.before_of_prefix (hgrown e.slot) hseen.le]
    exact hseen.before
  obtain ⟨tableName, indexName, key, hentry⟩ := entry_of_isList hlist
  rw [hanswer, ← hfold, ← hcopy, hentry,
    foldl_secondaryIndexDeltas (by rw [hcopy]; exact hsorted)]

end

/-! ## Nothing is lost -/

/-- The list memory holds for an entry. -/
def primaryKeysOf (s : Store) (k : Slot) : List Bytes :=
  ((s.index k).map fun i => (s.item i).content.primaryKeys).getD []

/-- As long as nobody is installing, memory holds what the slot holds. -/
theorem primaryKeysOf_eq {s : Store} (hstore : StoreInv s) (hlist : IsList schema k)
    (hclean : ∀ i, s.index k = some i → (s.item i).dirty = false) :
    primaryKeysOf s k = (s.current k).primaryKeys := by
  obtain ⟨tableName, indexName, key, rfl⟩ := entry_of_isList hlist
  unfold primaryKeysOf
  cases hindex : s.index (.entry tableName indexName key) with
  | some i =>
    have hhome := hstore.home _ _ hindex
    have hatt : s.Attached i := by
      unfold Store.Attached
      rw [hhome.2]
      exact hindex
    have hcurrent := hstore.attached_entry hatt (hclean i hindex) hhome.2
    rw [hhome.2] at hcurrent
    rw [hcurrent]
    rfl
  | none =>
    -- a slot that has been taken away held nothing
    cases hlast : (s.versions (.entry tableName indexName key)).getLast? with
    | none =>
      rw [Store.current_of_nil hlast]
      rfl
    | some v =>
      have hdead := (hstore.vacant _ hindex).dead v hlast
      obtain ⟨-, hkeys⟩ := Bool.or_eq_false_iff.mp hdead
      rw [Store.current_of_getLast? hlast]
      have hnil : v.2.content.primaryKeys = [] := by simpa using hkeys
      rw [hnil]
      rfl

/-- **No update of a list is lost.** In every run of native transactions and stateless
requests: as long as nobody is installing to a list, memory holds the fold of the operations of
the committers that have published to it; they commit, and have published in the order they
re-joined the epoch in; and every committed committer with operations on the list is among
them. If moreover every `ReadSecondaryIndex` of the entry finds a slot for it and confirms its
copy while the item is attached, and no sequence number is used up, whatever a committed
transaction was told of the list are its own calls so far on top of the operations of exactly
the committers that precede it. -/
theorem secondary_updates_kept (hlist : IsList schema k)
    (hrun : run (committers schema).next (committers schema).initial actions = some s) :
    ((∀ i, s.store.index k = some i → (s.store.item i).dirty = false) →
        primaryKeysOf s.store k
          = (folded (opsOf actions) k (s.store.versions k)).primaryKeys) ∧
      (∀ v ∈ s.store.versions k, ∃ t, v.1 = .tx t ∧ Commits (s.phase t)) ∧
      (s.store.versions k).Pairwise (fun v w => Precedes s.store v.1 w.1) ∧
      (∀ t, Returned (s.phase t) → writesTo k (opsOf actions (.tx t)) ≠ [] →
        ∃ v ∈ s.store.versions k, v.1 = .tx t) ∧
      (Along (committers schema).next (fun s action => findsList k s action = true)
          (committers schema).initial actions → s.store.NoWrap →
        ∀ t, Returned (s.phase t) → ∀ earlier list, Tells schema actions t k earlier list →
          ∃ p, list = ((writesTo k (opsOf earlier (.tx t))).foldl WriteOp.apply
              (folded (opsOf actions) k ((s.store.versions k).take p))).primaryKeys ∧
            ∀ (n : ℕ) (v : Owner × Version), (s.store.versions k)[n]? = some v →
              (v.1 = .tx t → n = p) ∧
              (v.1 ≠ .tx t → (n < p ↔ Precedes s.store v.1 (.tx t)))) := by
  obtain ⟨hinv, hmerges⟩ := merges_run hrun
  refine ⟨fun hclean => ?_, fun v hv => commits_of_version hrun hv, ?_, fun t hreturned hops => ?_,
    fun hG hwrap t hreturned earlier list htells =>
      told_list hlist hrun hG hwrap hreturned htells⟩
  · obtain ⟨hfold, -⟩ := versions_folded hlist hrun le_rfl
    rw [primaryKeysOf_eq hinv.store hlist hclean]
    unfold Store.current
    rw [hfold, List.take_length]
  · refine List.pairwise_iff_getElem.mpr fun i j hi hj hij => ?_
    have hwriter : ∀ (n : ℕ) (hn : n < (s.store.versions k).length),
        s.store.abs.writer k n = some (s.store.versions k)[n].1 := by
      intro n hn
      show ((s.store.versions k)[n]?).map Prod.fst = _
      rw [List.getElem?_eq_getElem hn]
      rfl
    obtain ⟨st, hst⟩ := hinv.store.protocol.stamped k i _ (hwriter i hi)
    obtain ⟨su, hsu⟩ := hinv.store.protocol.stamped k j _ (hwriter j hj)
    exact ⟨st, su, hst, hsu,
      hinv.store.protocol.stamp_lt_of_before hij (hwriter i hi) (hwriter j hj) hst hsu⟩
  · have hremembers := remembers_run hlist hrun t
    have hphase := hmerges t
    have hversion : ∃ (n : ℕ) (v : Owner × Version),
        (s.store.versions k)[n]? = some v ∧ v.1 = .tx t := by
      cases heq : s.phase t with
      | none =>
        rw [heq] at hreturned
        exact hreturned.elim
      | some phase =>
        rw [heq] at hreturned hremembers hphase
        cases phase with
        | inl => exact Recorded.published hremembers hphase hreturned hops
        | inr =>
          obtain ⟨c, hcommitted⟩ := hreturned
          exact Asked.published hremembers hphase.2 hcommitted hops
    obtain ⟨n, v, hv, howner⟩ := hversion
    exact ⟨v, List.mem_of_getElem? hv, howner⟩

/-! ## Runs -/

/-- One table, with a secondary index that is not UNIQUE. -/
def listTable : Schema := Stateless.masstree fun name =>
  if name = [1] then some fun index => if index = [2] then some false else none else none

theorem isList_listTable (key : Bytes) : IsList listTable (.entry [1] [2] key) :=
  ⟨by decide, fun index => if index = [2] then some false else none, rfl, rfl⟩

/-- A transaction adds a primary key. A second one adds another, and before it reads the list
a request adds a third. -/
def refreshEarlier : List (Action Choice) :=
  nativeCall 0 (.writeSecondaryIndex [1] [2] [5] [10]) ++ nativeNexts 0 5 ++
  nativeCall 0 .precommit ++ nativeNexts 0 12 ++
  nativeCall 1 (.writeSecondaryIndex [1] [2] [5] [11]) ++ nativeNexts 1 5 ++
  statelessCommit 2 [] [⟨[1], [2], [5], [12], false⟩] 17 ++
  nativeCall 1 (.readSecondaryIndex [1] [2] [5]) ++ nativeNexts 1 4

/-- The read is answered, and the second transaction commits. -/
def refreshRun : List (Action Choice) :=
  refreshEarlier ++ .party 1 (.inl (.next 0 true)) ::
    (nativeCall 1 .precommit ++ nativeNexts 1 13)

/-- The state before the read is answered. -/
def refreshMiddle : State Committer :=
  (run (committers listTable).next (committers listTable).initial refreshEarlier).get
    (by decide +kernel)

theorem refreshAnswer_isSome :
    ((committers listTable).next refreshMiddle (.party 1 (.inl (.next 0 true)))).isSome = true := by
  decide +kernel

/-- The end of the run. -/
def refreshState : State Committer :=
  (run (committers listTable).next (committers listTable).initial refreshRun).get
    (by decide +kernel)

/-- The second transaction, with its copy of the list about to be confirmed. -/
def refreshing : Transaction where
  readSet := [⟨.entry [1] [2] [5], ⟨[], [[10]]⟩, 1⟩]
  writeSet := [⟨.entry [1] [2] [5], 0, ⟨[], [[10], [11]]⟩, ⟨0, 0⟩, false, false, [⟨[11], .add⟩]⟩]
  validationSet := []
  missing := []
  stage := .reading (.refresh (.entry [1] [2] [5])) 0 (.reload ⟨1, 4⟩ ⟨[], [[10], [12]]⟩)

/-- And with the copy confirmed. -/
def refreshed : Transaction where
  readSet := [⟨.entry [1] [2] [5], ⟨[], [[10]]⟩, 1⟩]
  writeSet :=
    [⟨.entry [1] [2] [5], 0, ⟨[], [[10], [11], [12]]⟩, ⟨0, 0⟩, false, false, [⟨[11], .add⟩]⟩]
  validationSet := [⟨0, ⟨1, 4⟩, .entry [1] [2] [5], 2, true⟩]
  missing := []
  stage := .running

theorem refreshRun_tells :
    Tells listTable refreshRun 1 (.entry [1] [2] [5]) refreshEarlier [[10], [11], [12]] := by
  refine ⟨.next 0 true, _, refreshMiddle, _, refreshing, refreshed, rfl,
    (Option.some_get _).symm, (Option.some_get refreshAnswer_isSome).symm,
    .inl ?_, ?_, ⟨rfl, .inr ⟨0, .reload ⟨1, 4⟩ ⟨[], [[10], [12]]⟩, .inr rfl⟩⟩, ?_⟩ <;>
    decide +kernel

theorem secondary_updates_kept_refresh :
    primaryKeysOf refreshState.store (.entry [1] [2] [5]) = [[10], [11], [12]] ∧
      primaryKeysOf refreshState.store (.entry [1] [2] [5])
        = (folded (opsOf refreshRun) (.entry [1] [2] [5])
          (refreshState.store.versions (.entry [1] [2] [5]))).primaryKeys ∧
      ∃ p, [[10], [11], [12]] = ((writesTo (.entry [1] [2] [5])
          (opsOf refreshEarlier (.tx 1))).foldl WriteOp.apply
          (folded (opsOf refreshRun) (.entry [1] [2] [5])
            ((refreshState.store.versions (.entry [1] [2] [5])).take p))).primaryKeys := by
  have hreturned : Returned (refreshState.phase 1) := by
    have hphase : (transactionOf (refreshState.phase 1)).map (fun tx => tx.stage)
        = some .committed ∧ refreshState.phase 1 ≠ none := by decide +kernel
    cases heq : refreshState.phase 1 with
    | none => exact absurd heq hphase.2
    | some phase =>
      rw [heq] at hphase
      cases phase with
      | inl => exact Option.some.inj hphase.1
      | inr => cases hphase.1
  have hclean : ∀ i, refreshState.store.index (.entry [1] [2] [5]) = some i →
      (refreshState.store.item i).dirty = false := by
    intro i hi
    have hzero : refreshState.store.index (.entry [1] [2] [5]) = some 0 ∧
        (refreshState.store.item 0).dirty = false := by decide +kernel
    rw [hzero.1] at hi
    cases hi
    exact hzero.2
  obtain ⟨hkeys, -, -, -, htold⟩ := secondary_updates_kept (s := refreshState)
    (isList_listTable [5]) (Option.some_get _).symm
  obtain ⟨p, hlist, -⟩ := htold (by decide +kernel) (by decide +kernel) 1 hreturned _ _
    refreshRun_tells
  exact ⟨by decide +kernel, hkeys hclean, p, hlist⟩

/-- A transaction reads the list of an entry that has no slot; a second one adds a primary key
to it, writes a row and commits; then the first one reads the row. -/
def missRun : List (Action Choice) :=
  [] ++ .party 0 (.inl (.readSecondaryIndex [1] [2] [5])) ::
    (nativeCall 1 (.writeSecondaryIndex [1] [2] [5] [10]) ++ nativeNexts 1 5 ++
    nativeCall 1 (.write [1] [3] [7]) ++ nativeCall 1 .precommit ++ nativeNexts 1 18 ++
    nativeCall 0 (.read [1] [3]) ++ nativeNexts 0 6 ++ nativeCall 0 .precommit ++
    nativeNexts 0 7)

/-- The end of the run. -/
def missState : State Committer :=
  (run (committers listTable).next (committers listTable).initial missRun).get (by decide +kernel)

theorem missAnswer_isSome :
    ((committers listTable).next (committers listTable).initial
      (.party 0 (.inl (.readSecondaryIndex [1] [2] [5])))).isSome = true := by
  decide +kernel

/-- **A read of a list that misses what precedes it.** The first transaction has read the row
of the second one, which precedes it, and was told an empty list that the second one has added
a primary key to. -/
theorem missed_list_update :
    Tells listTable missRun 0 (.entry [1] [2] [5]) [] [] ∧
      ((transactionOf (missState.phase 0)).map fun tx => (tx.stage, tx.readSet))
        = some (.committed, [⟨.row [1] [3], ⟨[7], []⟩, 1⟩]) ∧
      ((transactionOf (missState.phase 1)).map fun tx => tx.stage) = some .committed ∧
      (missState.store.versions (.row [1] [3])).map (fun v => (v.1, v.2.content.buffer))
        = [(.tx 1, [7])] ∧
      (missState.store.versions (.entry [1] [2] [5])).map
          (fun v => (v.1, v.2.content.primaryKeys))
        = [(.tx 1, [[10]])] ∧
      Precedes missState.store (.tx 1) (.tx 0) := by
  refine ⟨⟨.readSecondaryIndex [1] [2] [5], _, _, _, ⟨[], [], [], [], .running⟩,
    ⟨[], [], [], [(.entry [1] [2] [5], 0)], .running⟩, rfl, rfl,
    (Option.some_get missAnswer_isSome).symm, .inr ⟨rfl, rfl⟩, ?_,
    ⟨rfl, .inl ⟨[1], [2], [5], rfl, rfl⟩⟩, rfl⟩, ?_, ?_, ?_, ?_, 0, 1, ?_, ?_, ?_⟩
  all_goals decide +kernel

end LineairDB.Lives
