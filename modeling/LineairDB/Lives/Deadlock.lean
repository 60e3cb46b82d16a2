import Mathlib.Data.Prod.Lex
import LineairDB.Library.Waiting
import LineairDB.Lives.Committers

/-!
# Waiting for each other

A native transaction locks its write set in the order of `Snapshot::Compare`, a
stateless request in the order of the addresses of the items. Each spins on a
lock that is taken, with the locks before it held.

* `no_deadlock_of_rank` — where both orders follow one ranking of the items, no
  set of committers is ever deadlocked.
* `no_item_locked_twice` — a transaction never waits for a lock it holds itself.
* `mixed_committers_deadlock` — the two orders need not agree: a transaction and
  a request that write the same two rows can wait for each other for ever.
-/

namespace LineairDB.Lives

open Silo ByteFile Transition
open Stateless (Schema oneTable Commit Request sortedUnique mem_sortedUnique nodup_sortedUnique)
open Native (Transaction TransactionInv WriteSnapshot)

variable {a : Access} {tx : Transaction} {choice : Stateless.Choice} {c : Commit}
  {pc : Stateless.Pc} {observations : List Stateless.Observation}

/-! ## Who waits for whom -/

/-- The item whose lock a committer spins on, or takes next. -/
def wanted : Committer → Option ItemId
  | some (.inl tx) =>
    match tx.stage with
    | .lock _ (snapshot :: _) => some snapshot.item
    | _ => none
  | some (.inr r) =>
    match r.stage with
    | .committing _ (.lock (item :: _)) => some item
    | _ => none
  | none => none

/-- The committers and the locks of a state. -/
def waiting (s : State Committer) : Waiting.Locks ℕ ItemId where
  holder i :=
    match (s.store.item i).holder with
    | some (.tx t) => some t
    | _ => none
  wanted t := wanted (s.phase t)

theorem holder_of_waiting {s : State Committer} {i : ItemId} {t : ℕ}
    (h : (waiting s).holder i = some t) : (s.store.item i).holder = some (.tx t) := by
  simp only [waiting] at h
  split at h
  · rename_i heq
    rw [heq]
    cases h
    rfl
  · cases h

/-! ## What a committer holds and has still to lock -/

/-- The locks a committer has not given back. -/
def held : Committer → List ItemId
  | some (.inl tx) =>
    match tx.stage with
    | .lock locked _ => locked.map (·.item)
    | .attached locked snapshot _ => (locked ++ [snapshot]).map (·.item)
    | .validate _ | .phantoms | .inserts _ => tx.writeSet.map (·.item)
    | .install installed todo => (installed ++ todo).map (·.item)
    | .publish todo | .register _ _ todo | .unlock _ todo => todo.map (·.item)
    | _ => []
  | some (.inr r) =>
    match r.stage with
    | .committing _ (.unlock todo) => todo
    | .committing _ (.enqueue _) => []
    | .committing _ (.abort _ todo) => todo.map (·.item)
    | .committing c _ => c.own
    | _ => []
  | none => []

/-- The locks the loop has still to take. -/
def pending : Committer → List ItemId
  | some (.inl tx) =>
    match tx.stage with
    | .lock _ todo | .attached _ _ todo => todo.map (·.item)
    | _ => []
  | some (.inr r) =>
    match r.stage with
    | .committing _ (.lock todo) | .committing _ (.attached _ todo) => todo
    | _ => []
  | none => []

theorem pending_of_wanted {phase : Committer} {i : ItemId} (h : wanted phase = some i) :
    ∃ todo, pending phase = i :: todo := by
  unfold wanted at h
  split at h
  · split at h
    · rename_i tx _ locked w todo hstage
      cases h
      exact ⟨todo.map (·.item), by simp only [pending, hstage, List.map_cons]⟩
    · cases h
  · split at h
    · rename_i r _ c item todo hstage
      cases h
      exact ⟨todo, by simp only [pending, hstage]⟩
    · cases h
  · cases h

variable {α : Type} [LinearOrder α] {rank : ItemId → α} {schema : Schema} {s : Store} {t : ℕ}

/-- The access takes a lock. -/
def takesLock : Access → Bool
  | .lock _ => true
  | _ => false

theorem takesLock_of_collecting {a : Access} (ha : a.Collecting) : takesLock a = false := by
  cases a with
  | lock => exact ha.elim
  | _ => rfl

/-- What a step does to the locks a committer holds and those it has still to take. -/
inductive Locking (rank : ItemId → α) (s : Store) (t : ℕ) :
    Access → List ItemId → List ItemId → List ItemId → List ItemId → Prop
  | stay {a : Access} {held pending : List ItemId} (ha : takesLock a = false) :
      Locking rank s t a held pending held pending
  /-- The committer is through with its lock loop. -/
  | leave {a : Access} {held pending held' : List ItemId} (ha : takesLock a = false)
      (hkeep : ∀ i ∈ held, (s.item i).holder = some (.tx t) → ¬ a.Releases i → i ∈ held') :
      Locking rank s t a held pending held' []
  | enter {pending : List ItemId} (horder : pending.Pairwise fun i j => rank i < rank j) :
      Locking rank s t .idle [] [] [] pending
  | take {i : ItemId} {held pending : List ItemId} :
      Locking rank s t (.lock i) held (i :: pending) (held ++ [i]) pending

/-- A committer holds nothing but what it has listed, and takes its locks in the order of
the ranks. -/
structure Ranked (rank : ItemId → α) (s : Store) (t : ℕ) (held pending : List ItemId) : Prop where
  listed : ∀ i, (s.item i).holder = some (.tx t) → i ∈ held
  order : pending ≠ [] → (held ++ pending).Pairwise fun i j => rank i < rank j

/-- A step keeps the list of what is held complete. -/
theorem Locking.listed {held pending held' pending' : List ItemId}
    (h : ∀ i, (s.item i).holder = some (.tx t) → i ∈ held)
    (hlocking : Locking rank s t a held pending held' pending') (i : ItemId)
    (hi : ((s.access (.tx t) a).item i).holder = some (.tx t)) : i ∈ held' := by
  rcases Store.holder_access hi with ⟨hold, hrelease⟩ | ⟨hlock, -⟩
  · cases hlocking with
    | stay | enter => exact h i hold
    | leave ha hkeep => exact hkeep i (h i hold) hold hrelease
    | take => exact List.mem_append_left _ (h i hold)
  · subst hlock
    cases hlocking with
    | stay ha | leave ha => cases ha
    | take => exact List.mem_concat_self

theorem Ranked.step {held pending held' pending' : List ItemId} (h : Ranked rank s t held pending)
    (hlocking : Locking rank s t a held pending held' pending') :
    Ranked rank (s.access (.tx t) a) t held' pending' := by
  refine ⟨hlocking.listed h.listed, ?_⟩
  cases hlocking with
  | stay => exact h.order
  | leave => exact fun hne => absurd rfl hne
  | enter horder => exact fun _ => horder
  | take =>
    have horder := h.order (List.cons_ne_nil _ _)
    exact fun _ => by rwa [List.append_assoc]

theorem Ranked.rely {s' : Store} {held pending : List ItemId} (h : Ranked rank s t held pending)
    (hrely : Rely (.tx t) s s') : Ranked rank s' t held pending :=
  ⟨fun i hi => h.listed i (hrely.holder i hi), h.order⟩

/-! ## The order of the locks -/

/-- The pairs of items a step will have locked one after the other: a transaction that
enters `Precommit` sorts by the names of the slots, a request by the addresses. -/
def lockPairs (schema : Schema) : Committer → Choice → List (ItemId × ItemId)
  | some (.inl tx), .inl .precommit =>
    tx.writeSet.flatMap fun a =>
      (tx.writeSet.filter fun b => a.slot ≠ b.slot && !b.compare a).map fun b => (a.item, b.item)
  | some (.inr r), .inr _ =>
    match r.stage with
    | .committing c (.resolveSecondary []) =>
      c.lockItems.flatMap fun i =>
        (c.lockItems.filter fun j => i ≠ j ∧ schema.address i ≤ schema.address j).map
          fun j => (i, j)
    | _ => []
  | _, _ => []

/-- The order of the locks is the order of the ranks. -/
def Follows (schema : Schema) (rank : ItemId → α) (s : State Committer) : Action Choice → Prop
  | .party t choice => ∀ q ∈ lockPairs schema (s.phase t) choice, rank q.1 < rank q.2
  | .reap _ | .advanceEpoch => True

instance (rank : ItemId → α) (s : State Committer) (action : Action Choice) :
    Decidable (Follows schema rank s action) :=
  match action with
  | .party t choice => inferInstanceAs (Decidable (∀ q ∈ lockPairs schema (s.phase t) choice, _))
  | .reap _ => .isTrue trivial
  | .advanceEpoch => .isTrue trivial

/-- What `Snapshot::Compare` compares. -/
def slotNames : Slot → Lex (Bytes × Lex (Bytes × Bytes))
  | .row table key => toLex (table, toLex ([], key))
  | .entry table index key => toLex (table, toLex (index, key))

theorem compare_eq_true {a b : WriteSnapshot} :
    a.compare b = true ↔ slotNames a.slot < slotNames b.slot := by
  have lex : ∀ (t i k t' i' k' : Bytes),
      (if t ≠ t' then decide (t < t') else if i ≠ i' then decide (i < i') else decide (k < k'))
        = true ↔ toLex (t, toLex (i, k)) < toLex (t', toLex (i', k')) := by
    intro t i k t' i' k'
    rw [Prod.Lex.toLex_lt_toLex, Prod.Lex.toLex_lt_toLex]
    by_cases ht : t = t'
    · subst ht
      by_cases hi : i = i'
      · subst hi
        simp
      · simp [hi]
    · simp [ht]
  unfold WriteSnapshot.compare slotNames
  cases a.slot <;> cases b.slot <;> exact lex ..

/-- The write set as `Precommit` locks it. -/
theorem pairwise_sorted (ws : List WriteSnapshot) :
    (ws.insertionSort fun a b => !b.compare a).Pairwise fun a b => b.compare a = false := by
  have key : ∀ a b : WriteSnapshot,
      (!b.compare a) = true ↔ slotNames a.slot ≤ slotNames b.slot := by
    intro a b
    rw [Bool.not_eq_true', ← Bool.not_eq_true, compare_eq_true, not_lt]
  have htotal : Std.Total fun a b : WriteSnapshot => (!b.compare a) = true :=
    ⟨fun a b => by rw [key, key]; exact le_total _ _⟩
  have htrans : IsTrans WriteSnapshot fun a b => (!b.compare a) = true :=
    ⟨fun a b c => by rw [key, key, key]; exact le_trans⟩
  refine (List.pairwise_insertionSort _ ws).imp fun h => ?_
  simpa using h

/-! ## Native transactions -/

/-- The transaction holds nothing while its user is at work, and nothing when it is gone. -/
theorem native_idle (h : tx.stage.collecting = true ∨ tx.stage = .aborted) :
    held (some (.inl tx)) = [] ∧ pending (some (.inl tx)) = [] := by
  rcases h with h | h
  · cases hstage : tx.stage with
    | running | reading | checking | writing =>
      simp only [held, pending, hstage]
      exact ⟨trivial, trivial⟩
    | _ =>
      rw [hstage] at h
      cases h
  · simp only [held, pending, h]
    exact ⟨trivial, trivial⟩

/-- `Precommit` enters its lock loop in the order of the ranks. -/
theorem native_enter (hinv : TransactionInv s t tx) (hstage : tx.stage = .running)
    (horder : ∀ q ∈ lockPairs schema (some (.inl tx)) (.inl .precommit), rank q.1 < rank q.2) :
    ((tx.writeSet.insertionSort fun a b => !b.compare a).map (·.item)).Pairwise
      fun i j => rank i < rank j := by
  have hentries : Native.Entries s tx.writeSet := by
    have hrunning := hinv.stage
    rw [hstage] at hrunning
    exact hrunning.entries
  have hperm := List.perm_insertionSort (fun a b => (!b.compare a) = true) tx.writeSet
  have hslots : (tx.writeSet.insertionSort fun a b => !b.compare a).Pairwise
      fun a b => a.slot ≠ b.slot :=
    List.pairwise_map.mp ((hperm.map _).nodup_iff.mpr hentries.nodup)
  refine List.pairwise_map.mpr ((hslots.and (pairwise_sorted tx.writeSet)).imp_of_mem ?_)
  rintro a b ha hb ⟨hne, hcompare⟩
  refine horder (a.item, b.item) (List.mem_flatMap.mpr ⟨a, hperm.mem_iff.mp ha, ?_⟩)
  refine List.mem_map.mpr ⟨b, List.mem_filter.mpr ⟨hperm.mem_iff.mp hb, ?_⟩, rfl⟩
  rw [hcompare, Bool.and_eq_true, decide_eq_true_eq]
  exact ⟨hne, rfl⟩

theorem native_commit (rank : ItemId → α) (t : ℕ) (tx : Transaction) (hstore : StoreInv s)
    (valid : Bool) :
    Locking rank s t (tx.commitStep s t valid tx.stage).1
      (held (some (.inl tx))) (pending (some (.inl tx)))
      (held (some (.inl (tx.commitStep s t valid tx.stage).2.1)))
      (pending (some (.inl (tx.commitStep s t valid tx.stage).2.1))) := by
  -- a statement that gives nothing back
  have leave : ∀ {a : Access} {items todo items' : List ItemId}, items = items' →
      takesLock a = false → Locking rank s t a items todo items' [] := by
    rintro a items todo _ rfl ha
    exact .leave ha fun i hi _ _ => hi
  generalize hstage : tx.stage = stage
  fun_cases Transaction.commitStep s t tx valid stage with
  | case2 | case22 => exact .stay rfl
  | case3 =>
    simp only [held, pending, hstage, List.map_append, List.map_cons, List.map_nil]
    exact .take
  | case4 =>
    simp only [held, pending, hstage]
    exact .stay rfl
  | case15 =>
    simp only [held, pending, hstage]
    exact leave (by simp) rfl
  -- an item is published, or its lock given back
  | case17 | case21 =>
    simp only [held, pending, hstage, List.map_cons]
    refine .leave rfl fun i hi _ hrelease => ?_
    exact (List.mem_cons.mp hi).resolve_left fun heq => hrelease heq.symm
  | case20 checked w todo current hskip =>
    simp only [held, pending, hstage, List.map_cons]
    refine .leave rfl fun i hi hholder _ => (List.mem_cons.mp hi).resolve_left ?_
    rintro rfl
    have hlocked : current.isLocked = true := hstore.isLocked_of_held hholder
    rw [hlocked] at hskip
    cases hskip.2
  | _ =>
    simp only [held, pending, hstage, Transaction.abort, List.append_nil]
    exact leave rfl rfl

variable {candidates : List Candidate}

theorem native_locking {tx' : Transaction} {choice : Native.Choice} (hstore : StoreInv s)
    (hinv : TransactionInv s t tx)
    (horder : ∀ q ∈ lockPairs schema (some (.inl tx)) (.inl choice), rank q.1 < rank q.2)
    (hstep : Native.step schema s t tx choice = some (a, tx', candidates)) :
    Locking rank s t a (held (some (.inl tx))) (pending (some (.inl tx)))
      (held (some (.inl tx'))) (pending (some (.inl tx'))) := by
  rcases Native.step_stage hstep with ⟨hearly, ha, hstage'⟩ | ⟨hstage, rfl, hx⟩ | ⟨valid, hx⟩
  · obtain ⟨hheld, hpending⟩ := native_idle (.inl hearly)
    obtain ⟨hheld', hpending'⟩ := native_idle hstage'
    rw [hheld, hpending, hheld', hpending']
    exact .stay (takesLock_of_collecting ha)
  · cases hx
    have hcollecting : tx.stage.collecting = true := by rw [hstage]; rfl
    obtain ⟨hheld, hpending⟩ := native_idle (.inl hcollecting)
    rw [hheld, hpending]
    exact .enter (native_enter hinv hstage horder)
  · have hlocking := native_commit rank t tx hstore valid
    rw [← hx] at hlocking
    exact hlocking

/-- Whatever the order of the ranks, a transaction holds nothing but what it has listed. -/
theorem native_listed {tx' : Transaction} {choice : Native.Choice} (hstore : StoreInv s)
    (hinv : TransactionInv s t tx)
    (h : ∀ i, (s.item i).holder = some (.tx t) → i ∈ held (some (.inl tx)))
    (hstep : Native.step schema s t tx choice = some (a, tx', candidates)) :
    ∀ i, ((s.access (.tx t) a).item i).holder = some (.tx t) → i ∈ held (some (.inl tx')) := by
  by_cases hchoice : choice = .precommit
  · -- the lock loop is entered with nothing held
    subst hchoice
    cases hstage : tx.stage with
    | running =>
      simp only [Native.step, hstage, Native.call, Option.map_some] at hstep
      cases hstep
      simpa [held, hstage, Store.access] using h
    | _ => simp [Native.step, hstage] at hstep
  · have hnone : lockPairs schema (some (.inl tx)) (.inl choice) = [] := by
      cases choice <;> first | rfl | exact absurd rfl hchoice
    have hlocking : Locking (fun i : ItemId => i) s t a _ _ _ _ :=
      native_locking hstore hinv (by simp [hnone]) hstep
    exact hlocking.listed h

/-! ## Stateless requests -/

theorem stateless_idle {r : Request} (h : r.stage.isStaging = true) :
    held (some (.inr r)) = [] ∧ pending (some (.inr r)) = [] := by
  cases hstage : r.stage with
  | staging | reading =>
    simp only [held, pending, hstage]
    exact ⟨trivial, trivial⟩
  | _ =>
    rw [hstage] at h
    cases h

theorem stateless_enter
    (horder : ∀ q ∈ lockPairs schema
      (some (.inr ⟨observations, .committing c (.resolveSecondary [])⟩)) (.inr choice),
      rank q.1 < rank q.2) :
    (sortedUnique schema c.lockItems).Pairwise fun i j => rank i < rank j := by
  have htotal : Std.Total fun i j : ItemId => schema.address i ≤ schema.address j :=
    ⟨fun i j => le_total _ _⟩
  have htrans : IsTrans ItemId fun i j => schema.address i ≤ schema.address j :=
    ⟨fun i j k => le_trans⟩
  have hle : (sortedUnique schema c.lockItems).Pairwise
      fun i j => schema.address i ≤ schema.address j :=
    List.pairwise_insertionSort _ _
  refine (hle.and (nodup_sortedUnique c.lockItems)).imp_of_mem ?_
  rintro i j hi hj ⟨hle, hne⟩
  refine horder (i, j) (List.mem_flatMap.mpr ⟨i, mem_sortedUnique.mp hi, ?_⟩)
  refine List.mem_map.mpr ⟨j, List.mem_filter.mpr ⟨mem_sortedUnique.mp hj, ?_⟩, rfl⟩
  exact decide_eq_true ⟨hne, hle⟩

theorem stateless_commit (hstore : StoreInv s) (hpc : Stateless.PcInv s t c pc)
    (horder : ∀ q ∈ lockPairs schema (some (.inr ⟨observations, .committing c pc⟩)) (.inr choice),
      rank q.1 < rank q.2) {x : Access × Stateless.Stage × List Candidate}
    (hmove : Stateless.CommitMove schema s t c pc x) :
    Locking rank s t x.1 (held (some (.inr ⟨observations, .committing c pc⟩)))
      (pending (some (.inr ⟨observations, .committing c pc⟩)))
      (held (some (.inr ⟨observations, x.2.1⟩))) (pending (some (.inr ⟨observations, x.2.1⟩))) := by
  have own : c.lockedTids = [] → c.own = [] := by
    intro hlocks
    unfold Commit.own
    rw [hlocks]
    rfl
  cases hmove with
  | refuse hresolving =>
    -- nothing is held yet
    cases pc with
    | resolveReads | resolveWrites | resolveSecondary =>
      simp only [held, pending]
      rw [own hpc.2.1]
      exact .stay rfl
    | _ => cases hresolving
  | duplicate hget =>
    simp only [held, pending]
    rw [own hpc.2.1]
    exact .stay (takesLock_of_collecting (Stateless.getOrInsert_collecting hget))
  | resolveWrite _ hget | resolveOp _ hget =>
    exact .stay (takesLock_of_collecting (Stateless.getOrInsert_collecting hget))
  | opsResolved =>
    simp only [held, pending]
    rw [show ({ c with lockItems := sortedUnique schema c.lockItems } :
      Commit).own = c.own from rfl, own hpc.2.1]
    exact .enter (stateless_enter horder)
  | lock =>
    simp only [held, pending, Commit.own, List.map_append, List.map_cons, List.map_nil]
    exact .take
  | detached => exact .leave rfl fun i hi _ _ => hi
  | abort hvalidating =>
    cases pc with
    | exactRead | exactAbsent | exactWord | exactLive | ranges | inserts | unique =>
      exact .leave rfl fun i hi _ _ => hi
    | _ => cases hvalidating
  | opsInstalled =>
    refine .leave rfl fun i hi _ _ => ?_
    change i ∈ c.own at hi
    rw [hpc.1.own] at hi
    exact hi
  | unlock | release =>
    refine .leave rfl fun i hi _ hrelease => ?_
    exact (List.mem_cons.mp hi).resolve_left fun heq => hrelease heq.symm
  | skip hfree =>
    refine .leave rfl fun i hi hholder _ => ?_
    refine (List.mem_cons.mp hi).resolve_left ?_
    rintro rfl
    rw [hstore.isLocked_of_held hholder] at hfree
    cases hfree
  | _ => exact .stay rfl

theorem stateless_locking {r : Request}
    {x : Access × Request × List Candidate} (hstore : StoreInv s)
    (hinv : Stateless.RequestInv s t r)
    (horder : ∀ q ∈ lockPairs schema (some (.inr r)) (.inr choice), rank q.1 < rank q.2)
    (hstep : Stateless.step schema s t r choice = some x) :
    Locking rank s t x.1 (held (some (.inr r))) (pending (some (.inr r)))
      (held (some (.inr x.2.1))) (pending (some (.inr x.2.1))) := by
  cases Stateless.step_cases hstep with
  | read hstage ha =>
    obtain ⟨hheld, hpending⟩ := stateless_idle hstage
    rw [hheld, hpending]
    exact .stay (takesLock_of_collecting ha)
  | reading hstage | refuse hstage | submit hstage =>
    obtain ⟨hheld, hpending⟩ := stateless_idle hstage
    rw [hheld, hpending]
    exact .stay rfl
  | commit hmove => exact stateless_commit hstore hinv.stage.2 horder hmove

/-! ## No deadlock -/

theorem committer_locking {phase phase' : Committer} {choice : Choice} (hstore : StoreInv s)
    (hinv : (contract schema).inv s t phase)
    (horder : ∀ q ∈ lockPairs schema phase choice, rank q.1 < rank q.2)
    (hstep : (committers schema).step s t phase choice = some (a, phase', candidates)) :
    Locking rank s t a (held phase) (pending phase) (held phase') (pending phase') := by
  rcases Party.sum_cases hstep with ⟨tx, tx', c, rfl, hx, rfl, hleft⟩ |
    ⟨r, r', c, rfl, hr, rfl, hright⟩
  · have htx := Contract.sumInv_left hinv hx
    rcases hx with rfl | ⟨rfl, rfl⟩
    · exact native_locking hstore htx horder hleft
    · exact native_locking hstore htx (by cases c <;> exact List.forall_mem_nil _) hleft
  · have hrequest := Contract.sumInv_right hinv hr
    rcases hr with rfl | ⟨rfl, rfl⟩
    · exact stateless_locking hstore hrequest horder hright
    · exact stateless_locking hstore hrequest (by exact List.forall_mem_nil _) hright

/-- Every committer holds what it has listed, and takes its locks in the order of the
ranks. -/
theorem ranked_run {actions : List (Action Choice)} {s : State Committer}
    (hrank : Along (committers schema).next (Follows schema rank) (committers schema).initial
      actions)
    (hrun : run (committers schema).next (committers schema).initial actions = some s) :
    SystemInv (contract schema) s ∧
      ∀ t, Ranked rank s.store t (held (s.phase t)) (pending (s.phase t)) := by
  have hasserted := (contract schema).asserted (G := Follows schema rank) (S := fun _ => True)
    (Q := fun s t phase => Ranked rank s t (held phase) (pending phase)) trivial
    (fun _ => ⟨fun _ hi => (by cases hi), fun hne => absurd rfl hne⟩) (fun _ _ _ _ => trivial)
    (fun _ _ _ h hrely => h.rely hrely)
    (fun hinv _ h hfollows hstep => ⟨trivial, h.step (committer_locking hinv.store
      (hinv.party _) hfollows hstep)⟩) hrank hrun
  exact ⟨hasserted.1, hasserted.2.2⟩

/-- **One ranking of the items excludes deadlock.** In every run in which the transactions
and the requests lock their write sets in the order of one ranking of the items, no set of
committers is deadlocked in the state it ends in. -/
theorem no_deadlock_of_rank (rank : ItemId → α) {actions : List (Action Choice)}
    {s : State Committer}
    (hrank : Along (committers schema).next (Follows schema rank) (committers schema).initial
      actions)
    (hrun : run (committers schema).next (committers schema).initial actions = some s)
    (ts : Set ℕ) : ¬ (waiting s).Deadlocked ts := by
  obtain ⟨hinv, hparty⟩ := ranked_run hrank hrun
  have hlocks : (waiting s).Ranked rank := by
    intro t i j hwanted hholder
    have hmem := (hparty t).listed j (holder_of_waiting hholder)
    obtain ⟨todo, hpending⟩ := pending_of_wanted hwanted
    have horder := (hparty t).order (by rw [hpending]; exact List.cons_ne_nil _ _)
    rw [hpending] at horder
    exact (List.pairwise_append.mp horder).2.2 j hmem i (.head _)
  have hknown : ∀ i t, (waiting s).holder i = some t → i ∈ Finset.range s.store.allocated := by
    intro i t hholder
    exact Finset.mem_range.mpr (hinv.store.lt_allocated_of_held (holder_of_waiting hholder))
  exact hlocks.not_deadlocked hknown ts

/-! ## No lock is taken twice -/

/-- **A transaction never locks one item twice.** In every run, of the write set a transaction
goes through in `Precommit` no two entries have the same table, index and key, nor the same
item, and none that is still to be locked is held by the transaction itself. -/
theorem no_item_locked_twice {actions : List (Action Choice)} {s : State Committer}
    (hrun : run (committers schema).next (committers schema).initial actions = some s) {t : ℕ}
    {tx : Transaction} (htx : s.phase t = some (.inl tx))
    {locked todo : List WriteSnapshot} (hstage : tx.stage = .lock locked todo) :
    ((locked ++ todo).map (·.slot)).Nodup ∧ ((locked ++ todo).map (·.item)).Nodup ∧
      ∀ w ∈ todo, (s.store.item w.item).holder ≠ some (.tx t) := by
  have hasserted := either_asserted schema (G := fun _ _ => True) (S := fun _ => True)
    (N := fun s t tx => ∀ i, (s.item i).holder = some (.tx t) → i ∈ held (some (.inl tx)))
    (R := fun _ _ _ => True) trivial (fun _ => ⟨fun _ hi => (by cases hi), trivial⟩)
    (fun _ _ _ _ => trivial) (fun _ _ _ h hrely i hi => h i (hrely.holder i hi))
    (fun _ _ _ _ _ => trivial) (fun hstore _ hinv h _ _ hstep =>
      ⟨trivial, native_listed hstore hinv h hstep⟩) (fun _ _ _ _ _ _ _ => ⟨trivial, trivial⟩)
    (.of_forall (fun _ _ => trivial) _ _) hrun
  obtain ⟨hinv, -, hlisted⟩ := hasserted
  have hparty := hinv.party t
  have hheld := hlisted t
  rw [htx] at hparty hheld
  have hlocking := TransactionInv.stage hparty
  rw [hstage] at hlocking
  have hitems := hlocking.entries.nodup_items
  refine ⟨hlocking.entries.nodup, hitems, fun w hw hholder => ?_⟩
  have hmem := hheld w.item hholder
  simp only [held, hstage] at hmem
  rw [List.map_append] at hitems
  exact (List.disjoint_of_nodup_append hitems) hmem (List.mem_map_of_mem hw)

/-! ## A transaction and a request with the same write set -/

/-- A transaction writes two rows, in this order, and locks the first of its sorted write
set; a request with the same two writes goes on to its lock loop, and into it. -/
def sharedWrites (key key' : Bytes) : List (Action Choice) :=
  nativeCall 0 (.write [1] key [7]) ++ nativeCall 0 (.write [1] key' [7]) ++
  nativeCall 0 .precommit ++ nativeNexts 0 2 ++
  statelessCommit 1 [⟨[1], key, [8], false, false⟩, ⟨[1], key', [8], false, false⟩] [] 7

/-- The first row was created first: both go for it first. -/
def sameOrderState : State Committer :=
  (run (committers oneTable).next (committers oneTable).initial
    (sharedWrites [1] [2])).get (by decide +kernel)

theorem sameOrder_waits : (waiting sameOrderState).wanted 1 = some 0 ∧
    (waiting sameOrderState).holder 0 = some 0 := by
  decide +kernel

theorem no_deadlock_of_rank_shared :
    (waiting sameOrderState).Waits 1 0 ∧ ∀ ts, ¬ (waiting sameOrderState).Deadlocked ts :=
  ⟨⟨0, sameOrder_waits⟩, no_deadlock_of_rank (fun i : ItemId => i)
    (by decide +kernel : Along _ _ _ (sharedWrites [1] [2]))
    (Option.some_get _).symm⟩

/-- The entry of the write set for a row, before and after it is locked. -/
def rowWrite (key : Bytes) (item : ItemId) (tid : TransactionId) : WriteSnapshot :=
  ⟨.row [1] key, item, ⟨[7], []⟩, tid, false, false, []⟩

/-- The second row of the transaction is still to be locked, and not held by it. -/
theorem no_item_locked_twice_shared :
    (sameOrderState.store.item 0).holder = some (.tx 0) ∧
      (sameOrderState.store.item 1).holder ≠ some (.tx 0) := by
  have htx : sameOrderState.phase 0 = some (.inl
      ⟨[], [rowWrite [1] 0 .empty, rowWrite [2] 1 .empty], [], [],
        .lock [rowWrite [1] 0 ⟨0, 1⟩] [rowWrite [2] 1 .empty]⟩) := by
    decide +kernel
  refine ⟨by decide +kernel, ?_⟩
  exact (no_item_locked_twice (Option.some_get _).symm htx rfl).2.2
    (rowWrite [2] 1 .empty) List.mem_cons_self

/-- The second row was created first: the request goes for it first, the transaction for the
one whose key comes first. -/
def otherOrderState : State Committer :=
  (run (committers oneTable).next (committers oneTable).initial
    (sharedWrites [2] [1])).get (by decide +kernel)

theorem otherOrder_waits :
    (waiting otherOrderState).wanted 0 = some 0 ∧ (waiting otherOrderState).holder 0 = some 1 ∧
      (waiting otherOrderState).wanted 1 = some 1 ∧
      (waiting otherOrderState).holder 1 = some 0 := by
  decide +kernel

/-- **The two lock orders can deadlock**: a transaction and a request that write the same two
rows hold one of them each and wait for the other. -/
theorem mixed_committers_deadlock :
    ∃ (schema : Schema) (actions : List (Action Choice)) (s : State Committer),
      run (committers schema).next (committers schema).initial actions = some s ∧
        (waiting s).Deadlocked {0, 1} := by
  obtain ⟨hwanted, hholder, hwanted', hholder'⟩ := otherOrder_waits
  refine ⟨oneTable, sharedWrites [2] [1], otherOrderState,
    (Option.some_get _).symm, ⟨0, .inl rfl⟩, ?_⟩
  rintro t (rfl | rfl)
  · exact ⟨1, .inr rfl, Nat.one_ne_zero, 0, hwanted, hholder⟩
  · exact ⟨0, .inl rfl, Nat.zero_ne_one, 1, hwanted', hholder'⟩

end LineairDB.Lives
