import LineairDB.Library.Transition
import LineairDB.TwoPhase.RowLock

/-!
# Locks of many transactions

Any number of transactions lock rows and give the locks back, their steps
interleaved. The lock words count; the sets the transactions give back from do not.

* `Accounts` — the sets of a transaction have what it holds, each row once.
* `locks_match_holds` — in every run in which no transaction locks a row shared
  twice, takes a row for another with the same key, or goes on after it has been
  aborted, every word stands for the holds on its row, and a transaction that has
  ended has none.
* `scanned_twice` — two scans over a row leave it locked for ever.
-/

namespace LineairDB.TwoPhase

open ByteFile Silo Transition
open Function (update_self update_of_ne update)

/-! ## Transactions side by side -/

/-- The protocol's calls of one transaction, each with whether the exchange of the
lock word succeeds. -/
inductive Call where
  | read (k : Slot) (luck : Bool)
  | readDirect (k : Slot) (luck : Bool)
  | write (k : Slot) (v : Bytes) (luck : Bool)
  | abort
  | precommit (valid : Bool)
  deriving Repr, DecidableEq

variable {rest : List Slot} {rows : Rows} {luck : Bool} {type : LockType} {w : UInt64} {c : Call}

/-- One call of the protocol. -/
def Call.apply (rows : Rows) (tx : Tx) : Call → Rows × Tx
  | .read k luck => lockRead luck k rows tx
  | .readDirect k luck => TwoPhase.readDirect luck k rows tx
  | .write k v luck => lockWrite luck k v rows tx
  | .abort => refuse rows tx
  | .precommit true => (rows, { tx with status := .committed })
  | .precommit false => refuse rows tx

/-- The lock a call asks for. -/
def Call.asks (tx : Tx) : Call → Option (LockType × Slot × Bool)
  | .read k luck => some (.shared, k, luck)
  | .readDirect k luck => some (.shared, k, luck)
  | .write k _ luck => some (writeLock k tx, k, luck)
  | .abort => none
  | .precommit _ => none

/-- A transaction and where it is in giving its locks back: the rows still to do
and, of the first of them, whether `UnLock` has found it locked exclusively. -/
structure Party where
  tx : Tx
  queue : List Slot
  loaded : Option Bool
  deriving Repr, DecidableEq

/-- The rows, who was granted which lock and has not given it back, and the
transactions. -/
structure State where
  rows : Rows
  holders : Slot → List Hold
  party : ℕ → Party

/-- All rows are free. -/
def initial (rows : Rows) : State :=
  { rows := fun k => { rows k with lock := unLocked }
    holders := fun _ => []
    party := fun _ => ⟨.start, [], none⟩ }

/-- The holders after a call. -/
def holdersAfter (s : State) (t : ℕ) (c : Call) : Slot → List Hold :=
  match c.asks (s.party t).tx with
  | some (type, k, luck) =>
    if (acquire luck type k s.rows).isSome then
      update s.holders k (granted t (s.holders k) type)
    else s.holders
  | none => s.holders

/-- The call of a transaction that is not giving locks back. A transaction that has
been aborted may go on writing: a secondary index entry is written whatever became
of reading it. It gives nothing back a second time. -/
def call (s : State) (t : ℕ) (c : Call) : Option State :=
  let before := (s.party t).tx
  if (s.party t).queue ≠ [] ∨ before.status = .committed then none
  else if c.asks before = none ∧ before.status ≠ .running then none
  else
    let (rows, tx) := c.apply s.rows before
    let queue := if before.status = .running ∧ tx.status ≠ .running then tx.locks else []
    some
      { rows := rows
        holders := holdersAfter s t c
        party := update s.party t ⟨tx, queue, none⟩ }

/-- One step of `UnLock`: the load that decides, then the store or the exchange. -/
def release (s : State) (t : ℕ) : Option State :=
  match (s.party t).queue, (s.party t).loaded with
  | [], _ => none
  | k :: _, none =>
    some
      { s with
        party := update s.party t
          { s.party t with loaded := some ((s.rows k).lock = exclusivelyLocked) } }
  | k :: rest, some stored =>
    some
      { rows := setLock s.rows k (if stored then unLocked else (s.rows k).lock - reader)
        holders := update s.holders k (givenBack t (s.holders k))
        party := update s.party t ⟨(s.party t).tx, rest, none⟩ }

/-- A call, or the release of a lock. -/
inductive Action where
  | call (t : ℕ) (c : Call)
  | release (t : ℕ)
  deriving Repr, DecidableEq

/-- One step. -/
def step (s : State) : Action → Option State
  | .call t c => call s t c
  | .release t => release s t

/-- The transaction has ended and has nothing left to do. -/
def Party.Finished (p : Party) : Prop := p.tx.status ≠ .running ∧ p.queue = []

/-- The action exchanges the word of a row for a writer's in place of a reader's. -/
def Upgrades (s : State) (t : ℕ) (k : Slot) : Action → Prop
  | .call u (.write l _ luck) =>
    u = t ∧ l = k ∧ writeLock k (s.party t).tx = .upgrade ∧
      (acquire luck .upgrade k s.rows).isSome
  | _ => False

/-- What the sets of a transaction can account for: a call is made while it runs; a
row is locked shared once; no row is written after another one with the same key
was read. -/
def Accountable (s : State) : Action → Prop
  | .call t c =>
    (s.party t).tx.status = .running ∧
      match c with
      | .read k _ => k ∉ (s.party t).tx.readLockSet
      | .readDirect k _ => k ∉ (s.party t).tx.readLockSet
      | .write k _ _ => ∀ entry ∈ (s.party t).tx.readSet, key entry.1 = key k → entry.1 = k
      | .abort => True
      | .precommit _ => True
  | .release _ => True

instance Accountable.decidable (s : State) : ∀ a, Decidable (Accountable s a)
  | .call _ (.read _ _) => inferInstanceAs (Decidable (_ ∧ _))
  | .call _ (.readDirect _ _) => inferInstanceAs (Decidable (_ ∧ _))
  | .call _ (.write _ _ _) => inferInstanceAs (Decidable (_ ∧ ∀ entry ∈ _, _))
  | .call _ .abort => inferInstanceAs (Decidable (_ ∧ True))
  | .call _ (.precommit _) => inferInstanceAs (Decidable (_ ∧ True))
  | .release _ => inferInstanceAs (Decidable True)

/-! ## The holds of one transaction -/

/-- The rows a transaction has yet to give back. -/
def Party.locks (p : Party) : List Slot :=
  if p.tx.status = .running then p.tx.locks else p.queue

/-- **A transaction's sets and its holds.** `own` are the modes in which it holds
each row. -/
structure Accounts (own : Slot → Mode → Prop) (p : Party) : Prop where
  nodup : p.locks.Nodup
  held : ∀ k ∈ p.locks, ∃ mode, own k mode
  owned : ∀ k mode, own k mode → k ∈ p.locks
  idle : p.tx.status = .running → p.queue = []
  shared : p.tx.status = .running → ∀ k ∈ p.tx.readLockSet, own k .shared
  exclusive : p.tx.status = .running → ∀ k ∈ p.tx.undoSet.map Prod.fst, own k .exclusive
  read : p.tx.status = .running → ∀ entry ∈ p.tx.readSet, entry.1 ∈ p.tx.locks
  loaded : ∀ stored k rest, p.loaded = some stored → p.queue = k :: rest →
    own k (if stored then .exclusive else .shared)

section Accounts

variable {own : Slot → Mode → Prop} {p : Party} {tx : Tx} {k : Slot}

theorem Party.locks_of_running (h : p.tx.status = .running) : p.locks = p.tx.locks := if_pos h

theorem Party.locks_of_ended (h : p.tx.status ≠ .running) : p.locks = p.queue := if_neg h

/-- One more row is held; the sets have it where its mode says. -/
theorem Accounts.grant (h : Accounts own p) (hrunning : p.tx.status = .running) (mode : Mode)
    (htx : tx.status = .running) (hlocks : tx.locks.Perm (k :: p.tx.locks.erase k))
    (hshared : ∀ l ∈ tx.readLockSet,
      if l = k then mode = .shared else l ∈ p.tx.readLockSet)
    (hexclusive : ∀ l ∈ tx.undoSet.map Prod.fst,
      if l = k then mode = .exclusive else l ∈ p.tx.undoSet.map Prod.fst)
    (hread : ∀ entry ∈ tx.readSet, entry.1 = k ∨ entry ∈ p.tx.readSet) :
    Accounts (fun l m => if l = k then m = mode else own l m) ⟨tx, [], none⟩ := by
  have hnodup : p.tx.locks.Nodup := Party.locks_of_running hrunning ▸ h.nodup
  have hmem (l : Slot) : l ∈ tx.locks ↔ l = k ∨ l ∈ p.tx.locks := by
    rw [hlocks.mem_iff, List.mem_cons, hnodup.mem_erase_iff]
    tauto
  have hlocks' : Party.locks ⟨tx, [], none⟩ = tx.locks := Party.locks_of_running htx
  constructor
  · rw [hlocks', hlocks.nodup_iff, List.nodup_cons]
    exact ⟨hnodup.not_mem_erase, hnodup.erase k⟩
  · intro l hl
    rw [hlocks', hmem] at hl
    split_ifs with hk
    · exact ⟨mode, rfl⟩
    · exact h.held l (Party.locks_of_running hrunning ▸ hl.resolve_left hk)
  · intro l m hown
    rw [hlocks', hmem]
    split_ifs at hown with hk
    · exact .inl hk
    · exact .inr (Party.locks_of_running hrunning ▸ h.owned l m hown)
  · intro _
    rfl
  · intro _ l hl
    have hset := hshared l hl
    split_ifs at hset ⊢ with hk
    · exact hset.symm
    · exact h.shared hrunning l hset
  · intro _ l hl
    have hset := hexclusive l hl
    split_ifs at hset ⊢ with hk
    · exact hset.symm
    · exact h.exclusive hrunning l hset
  · intro _ entry hentry
    rw [hmem]
    exact (hread entry hentry).imp_right (h.read hrunning entry)
  · intro stored l rest hloaded
    cases hloaded

/-- The transaction ends: what its sets have is to be given back. -/
theorem Accounts.ended (h : Accounts own p) (hrunning : p.tx.status = .running)
    (htx : tx.status ≠ .running) (hlocks : tx.locks = p.tx.locks) :
    Accounts own ⟨tx, tx.locks, none⟩ := by
  have hlocks' : Party.locks ⟨tx, tx.locks, none⟩ = p.locks := by
    rw [Party.locks_of_ended htx, Party.locks_of_running hrunning]
    exact hlocks
  refine ⟨?_, ?_, ?_, ?_, ?_, ?_, ?_, ?_⟩
  · rw [hlocks']
    exact h.nodup
  · rw [hlocks']
    exact h.held
  · rw [hlocks']
    exact h.owned
  · exact fun hstill => absurd hstill htx
  · exact fun hstill => absurd hstill htx
  · exact fun hstill => absurd hstill htx
  · exact fun hstill => absurd hstill htx
  · intro stored l rest hloaded
    cases hloaded

section

variable (h : Accounts own p) (hqueue : p.queue = k :: rest)

include h hqueue

theorem Accounts.loads {stored : Bool} (hown : own k (if stored then .exclusive else .shared)) :
    Accounts own { p with loaded := some stored } := by
  refine { h with loaded := ?_ }
  intro stored' l rest' hloaded hqueue'
  cases hloaded
  obtain ⟨rfl, rfl⟩ := List.cons.inj (hqueue.symm.trans hqueue')
  exact hown

theorem Accounts.status_of_queue : p.tx.status ≠ .running := by
  intro hrunning
  rw [h.idle hrunning] at hqueue
  cases hqueue

/-- The first row has been given back. -/
theorem Accounts.released : Accounts (fun l m => l ≠ k ∧ own l m) ⟨p.tx, rest, none⟩ := by
  have hended := h.status_of_queue hqueue
  have hlocks : p.locks = k :: rest := (Party.locks_of_ended hended).trans hqueue
  have hlocks' : Party.locks ⟨p.tx, rest, none⟩ = rest := Party.locks_of_ended hended
  obtain ⟨hfirst, hrest⟩ := List.nodup_cons.mp (hlocks ▸ h.nodup)
  refine ⟨?_, ?_, ?_, ?_, ?_, ?_, ?_, ?_⟩
  · rw [hlocks']
    exact hrest
  · intro l hl
    rw [hlocks'] at hl
    obtain ⟨mode, hown⟩ := h.held l (hlocks ▸ List.mem_cons_of_mem k hl)
    exact ⟨mode, ne_of_mem_of_not_mem hl hfirst, hown⟩
  · rintro l mode ⟨hne, hown⟩
    rw [hlocks']
    exact (List.mem_cons.mp (hlocks ▸ h.owned l mode hown)).resolve_left hne
  · exact fun hstill => absurd hstill hended
  · exact fun hstill => absurd hstill hended
  · exact fun hstill => absurd hstill hended
  · exact fun hstill => absurd hstill hended
  · intro stored l rest' hloaded
    cases hloaded

end

end Accounts

/-! ## The invariant -/

/-- The modes in which a transaction holds the rows. -/
def owns (holders : Slot → List Hold) (t : ℕ) (k : Slot) (mode : Mode) : Prop :=
  ⟨t, mode⟩ ∈ holders k

/-- Locks and holders agree. -/
structure Inv (s : State) : Prop where
  agrees : ∀ k, Agrees (s.rows k).lock (s.holders k)
  accounts : ∀ t, Accounts (owns s.holders t) (s.party t)

section Steps

variable {s s' : State} {t : ℕ} {k : Slot}

theorem inv_initial (rows : Rows) : Inv (initial rows) := by
  refine ⟨fun k => agrees_unLocked, fun t => ?_⟩
  refine ⟨List.nodup_nil, ?_, ?_, fun _ => rfl, ?_, ?_, ?_, ?_⟩
  · intro k hk
    cases hk
  · intro k mode hown
    cases hown
  · intro _ k hk
    cases hk
  · intro _ k hk
    cases hk
  · intro _ entry hentry
    cases hentry
  · intro stored k rest hloaded
    cases hloaded

/-- A step of one transaction on one row. -/
theorem Inv.replace (h : Inv s) {holds : List Hold} {p : Party}
    (hlock : ∀ l, l ≠ k → (rows l).lock = (s.rows l).lock) (hagrees : Agrees (rows k).lock holds)
    (hothers : ∀ hold : Hold, hold.tx ≠ t → (hold ∈ holds ↔ hold ∈ s.holders k))
    (haccounts : Accounts (owns (update s.holders k holds) t) p) :
    Inv ⟨rows, update s.holders k holds, update s.party t p⟩ := by
  constructor
  · intro l
    by_cases hl : l = k
    · subst hl
      simpa only [update_self] using hagrees
    · simpa only [update_of_ne hl, hlock l hl] using h.agrees l
  · intro u
    by_cases hu : u = t
    · subst hu
      simpa only [update_self] using haccounts
    · have hsame : owns (update s.holders k holds) u = owns s.holders u := by
        funext l mode
        by_cases hl : l = k
        · subst hl
          simp only [owns, update_self]
          exact propext (hothers ⟨u, mode⟩ hu)
        · simp only [owns, update_of_ne hl]
      simp only [update_of_ne hu, hsame]
      exact h.accounts u

/-- A step of one transaction on none. -/
theorem Inv.keep (h : Inv s) {p : Party} (hlock : ∀ l, (rows l).lock = (s.rows l).lock)
    (haccounts : Accounts (owns s.holders t) p) : Inv ⟨rows, s.holders, update s.party t p⟩ := by
  constructor
  · intro l
    rw [hlock l]
    exact h.agrees l
  · intro u
    by_cases hu : u = t
    · subst hu
      simpa only [update_self] using haccounts
    · simpa only [update_of_ne hu] using h.accounts u

theorem lock_setLock (rows : Rows) (k l : Slot) (w : UInt64) :
    (setLock rows k w l).lock = if l = k then w else (rows l).lock := by
  rw [setLock, Function.update_apply]
  split_ifs <;> rfl

theorem lock_setValue (rows : Rows) (k l : Slot) (v : Bytes) :
    (setValue rows k v l).lock = (rows l).lock := by
  rw [setValue, Function.update_apply]
  split_ifs with h
  · rw [h]
  · rfl

theorem lock_undo (undoSet : List (Slot × Bytes)) (rows : Rows) (l : Slot) :
    (undo undoSet rows l).lock = (rows l).lock := by
  rw [undo]
  induction undoSet generalizing rows with
  | nil => rfl
  | cons entry rest ih => rw [List.foldl_cons, ih, lock_setValue]

theorem acquire_eq_some {rows' : Rows} (h : acquire luck type k rows = some rows') :
    ∃ w, tryLock type (rows k).lock = some w ∧ rows' = setLock rows k w := by
  unfold acquire at h
  split_ifs at h
  obtain ⟨w, hw, rfl⟩ := Option.map_eq_some_iff.mp h
  exact ⟨w, hw, rfl⟩

/-- A transaction ends, and no lock word changes. -/
theorem Inv.ends (h : Inv s) {tx : Tx} (hrunning : (s.party t).tx.status = .running)
    (hlock : ∀ l, (rows l).lock = (s.rows l).lock) (htx : tx.status ≠ .running)
    (hlocks : tx.locks = (s.party t).tx.locks) :
    Inv ⟨rows, s.holders, update s.party t ⟨tx, tx.locks, none⟩⟩ :=
  h.keep hlock ((h.accounts t).ended hrunning htx hlocks)

/-- A transaction is granted a lock, after which it holds the row in `mode`. -/
theorem Inv.grant (h : Inv s) {tx : Tx} (mode : Mode)
    (hlock : ∀ l, (rows l).lock = if l = k then w else (s.rows l).lock)
    (hagrees : Agrees w (granted t (s.holders k) type))
    (hmodes : ∀ m, ⟨t, m⟩ ∈ granted t (s.holders k) type ↔ m = mode)
    (haccounts : Accounts (fun l m => if l = k then m = mode else owns s.holders t l m)
      ⟨tx, [], none⟩) :
    Inv ⟨rows, update s.holders k (granted t (s.holders k) type),
      update s.party t ⟨tx, [], none⟩⟩ := by
  have howns : owns (update s.holders k (granted t (s.holders k) type)) t =
      fun l m => if l = k then m = mode else owns s.holders t l m := by
    funext l m
    by_cases hl : l = k
    · subst hl
      simp only [owns, update_self, if_true]
      exact propext (hmodes m)
    · simp only [owns, update_of_ne hl, hl, if_false]
  refine h.replace ?_ ?_ ?_ ?_
  · intro l hl
    rw [hlock, if_neg hl]
  · rw [hlock, if_pos rfl]
    exact hagrees
  · intro hold hne
    exact mem_granted hne type
  · rw [howns]
    exact haccounts

section

variable (h : Inv s) (hrunning : (s.party t).tx.status = .running)

include h hrunning

/-- A shared lock on a row that the transaction had not locked shared. -/
theorem Inv.grantShared {readSet : List (Slot × Bytes)} (hnew : k ∉ (s.party t).tx.readLockSet)
    (hlock : tryLock .shared (s.rows k).lock = some w)
    (hread : ∀ entry ∈ readSet, entry.1 = k ∨ entry ∈ (s.party t).tx.readSet) :
    Inv ⟨setLock s.rows k w, update s.holders k (granted t (s.holders k) .shared),
      update s.party t
        ⟨{ (s.party t).tx with
            readLockSet := insertLock k (s.party t).tx.readLockSet
            readSet := readSet }, [], none⟩⟩ := by
  have haccounts := h.accounts t
  have hundo : k ∉ (s.party t).tx.undoSet.map Prod.fst := by
    intro hk
    rw [(h.agrees k).tryLock_of_mem_exclusive (haccounts.exclusive hrunning k hk)] at hlock
    cases hlock
  have hlocks : k ∉ (s.party t).tx.locks := fun hk => (List.mem_append.mp hk).elim hnew hundo
  have hfree : t ∉ (s.holders k).map Hold.tx := by
    intro hmem
    obtain ⟨⟨u, mode⟩, hhold, rfl⟩ := List.mem_map.mp hmem
    exact hlocks (Party.locks_of_running hrunning ▸ haccounts.owned k mode hhold)
  refine h.grant .shared ?_ ((h.agrees k).shared hlock hfree) ?_ ?_
  · exact fun l => lock_setLock s.rows k l w
  · intro m
    rw [granted, List.mem_cons]
    constructor
    · rintro (heq | hhold)
      · exact (Hold.mk.inj heq).2
      · exact absurd (List.mem_map_of_mem hhold) hfree
    · rintro rfl
      exact .inl rfl
  · refine haccounts.grant hrunning .shared hrunning ?_ ?_ ?_ hread
    · rw [List.erase_of_not_mem hlocks, Tx.locks, insertLock, if_neg hnew]
      exact List.Perm.refl _
    · intro l hl
      rw [insertLock, if_neg hnew] at hl
      split_ifs with hk
      · rfl
      · exact (List.mem_cons.mp hl).resolve_left hk
    · intro l hl
      rw [if_neg (ne_of_mem_of_not_mem hl hundo)]
      exact hl

/-- The exclusive lock of a row that nobody holds. -/
theorem Inv.grantExclusive {old : Bytes} (hlock : tryLock .exclusive (s.rows k).lock = some w)
    (hrows : ∀ l, (rows l).lock = if l = k then w else (s.rows l).lock) :
    Inv ⟨rows, update s.holders k (granted t (s.holders k) .exclusive),
      update s.party t
        ⟨{ (s.party t).tx with undoSet := (s.party t).tx.undoSet ++ [(k, old)] }, [], none⟩⟩ := by
  have haccounts := h.accounts t
  obtain ⟨hempty, hagrees⟩ := (h.agrees k).exclusive (t := t) hlock
  have hlocks : k ∉ (s.party t).tx.locks := by
    intro hk
    obtain ⟨mode, hhold⟩ := haccounts.held k (Party.locks_of_running hrunning ▸ hk)
    rw [owns, hempty] at hhold
    cases hhold
  rw [Tx.locks, List.mem_append, not_or] at hlocks
  refine h.grant .exclusive hrows hagrees ?_ ?_
  · intro m
    simp [granted, hempty]
  · refine haccounts.grant hrunning .exclusive hrunning ?_ ?_ ?_ fun entry => .inr
    · rw [List.erase_of_not_mem (by rwa [Tx.locks, List.mem_append, not_or]), Tx.locks, Tx.locks,
        List.map_append, ← List.append_assoc]
      exact List.perm_append_singleton k _
    · intro l hl
      rw [if_neg (ne_of_mem_of_not_mem hl hlocks.1)]
      exact hl
    · intro l hl
      split_ifs with hk
      · rfl
      · simpa [hk] using hl

/-- The shared lock of the only reader becomes the exclusive one. -/
theorem Inv.grantUpgrade {old : Bytes}
    (hheld : k ∈ (s.party t).tx.readLockSet) (hlock : tryLock .upgrade (s.rows k).lock = some w)
    (hrows : ∀ l, (rows l).lock = if l = k then w else (s.rows l).lock) :
    Inv ⟨rows, update s.holders k (granted t (s.holders k) .upgrade),
      update s.party t
        ⟨{ (s.party t).tx with
            readLockSet := (s.party t).tx.readLockSet.erase k
            undoSet := (s.party t).tx.undoSet ++ [(k, old)] }, [], none⟩⟩ := by
  have haccounts := h.accounts t
  obtain ⟨honly, hagrees⟩ := (h.agrees k).upgrade hlock (haccounts.shared hrunning k hheld)
  have hnodup : (s.party t).tx.locks.Nodup := Party.locks_of_running hrunning ▸ haccounts.nodup
  obtain ⟨hreads, -, hdisjoint⟩ := List.nodup_append'.mp hnodup
  refine h.grant .exclusive hrows hagrees ?_ ?_
  · intro m
    simp [granted, honly]
  · refine haccounts.grant hrunning .exclusive hrunning ?_ ?_ ?_ fun entry => .inr
    · rw [Tx.locks, Tx.locks, List.erase_append_left _ hheld, List.map_append, ← List.append_assoc]
      exact List.perm_append_singleton k _
    · intro l hl
      obtain ⟨hne, hl⟩ := (hreads.mem_erase_iff).mp hl
      rw [if_neg hne]
      exact hl
    · intro l hl
      split_ifs with hk
      · rfl
      · simpa [hk] using hl

omit h hrunning in
theorem Inv.release (h : Inv s) (hstep : TwoPhase.release s t = some s') : Inv s' := by
  unfold TwoPhase.release at hstep
  have haccounts := h.accounts t
  split at hstep
  · cases hstep
  · rename_i k rest hqueue hloaded
    cases hstep
    refine h.keep (fun _ => rfl) (haccounts.loads hqueue ?_)
    have hlocks := Party.locks_of_ended (haccounts.status_of_queue hqueue)
    obtain ⟨mode, hown⟩ := haccounts.held k (by rw [hlocks, hqueue]; exact (.head _))
    have hiff := (h.agrees k).stands.loaded hown
    cases mode with
    | exclusive => simpa only [hiff.mpr rfl, decide_true, if_true] using hown
    | shared =>
      have hne : (s.rows k).lock ≠ exclusivelyLocked := fun heq => Mode.noConfusion (hiff.mp heq)
      simpa only [hne, decide_false, Bool.false_eq_true, if_false] using hown
  · rename_i k rest stored hqueue hloaded
    cases hstep
    have hown := haccounts.loaded stored k rest hloaded hqueue
    have hagrees : Agrees (if stored then unLocked else (s.rows k).lock - reader)
        (givenBack t (s.holders k)) := by
      refine (h.agrees k).gaveBack ?_
      cases stored with
      | true => exact (h.agrees k).stands.store hown
      | false => exact (h.agrees k).stands.subReader hown
    have howns : owns (update s.holders k (givenBack t (s.holders k))) t =
        fun l mode => l ≠ k ∧ owns s.holders t l mode := by
      funext l mode
      by_cases hl : l = k
      · subst hl
        simp only [owns, update_self, ne_eq, not_true_eq_false, false_and, eq_iff_iff, iff_false]
        intro hmem
        exact (h.agrees l).not_mem_givenBack (List.mem_map_of_mem hmem)
      · simp only [owns, update_of_ne hl, ne_eq, hl, not_false_eq_true, true_and]
    refine h.replace ?_ ?_ ?_ ?_
    · intro l hl
      rw [lock_setLock, if_neg hl]
    · rw [lock_setLock, if_pos rfl]
      exact hagrees
    · intro hold hne
      exact mem_givenBack hne
    · rw [howns]
      exact haccounts.released hqueue

omit h hrunning in
/-- The call of a running transaction. -/
theorem call_of_running {tx : Tx} (hrunning : (s.party t).tx.status = .running)
    (hidle : (s.party t).queue = []) (happly : c.apply s.rows (s.party t).tx = (rows, tx)) :
    TwoPhase.call s t c = some ⟨rows, holdersAfter s t c, update s.party t
      ⟨tx, if tx.status ≠ .running then tx.locks else [], none⟩⟩ := by
  simp [TwoPhase.call, hrunning, hidle, happly]

omit h hrunning in
/-- The holders after a call that asks for a lock. -/
theorem holdersAfter_of_asks (hasks : c.asks (s.party t).tx = some (type, k, luck)) :
    holdersAfter s t c = if (acquire luck type k s.rows).isSome then
      update s.holders k (granted t (s.holders k) type) else s.holders := by
  rw [holdersAfter, hasks]

/-- A row that is written after it was read, and not after another one with the
same key, is held shared when the upgrade succeeds. -/
theorem Inv.mem_readLockSet
    (hkeys : ∀ entry ∈ (s.party t).tx.readSet, key entry.1 = key k → entry.1 = k)
    (htype : writeLock k (s.party t).tx = .upgrade)
    (hlock : tryLock .upgrade (s.rows k).lock = some w) : k ∈ (s.party t).tx.readLockSet := by
  have hany : (s.party t).tx.readSet.any (fun entry => key entry.1 = key k) = true := by
    by_contra hnone
    rw [writeLock, if_neg hnone] at htype
    cases htype
  obtain ⟨entry, hentry, hkey⟩ := List.any_eq_true.mp hany
  have hlocks := (h.accounts t).read hrunning entry hentry
  rw [hkeys entry hentry (of_decide_eq_true hkey)] at hlocks
  refine (List.mem_append.mp hlocks).resolve_right fun hundo => ?_
  have hheld := (h.accounts t).exclusive hrunning k hundo
  rw [(h.agrees k).tryLock_of_mem_exclusive hheld] at hlock
  cases hlock

omit h hrunning in
theorem Inv.callShared (h : Inv s) (readSet refusedSet : List (Slot × Bytes))
    (hrunning : (s.party t).tx.status = .running) (hnew : k ∉ (s.party t).tx.readLockSet)
    (hasks : c.asks (s.party t).tx = some (.shared, k, luck))
    (hread : ∀ entry ∈ readSet, entry.1 = k ∨ entry ∈ (s.party t).tx.readSet)
    (hgranted : ∀ rows, acquire luck .shared k s.rows = some rows →
      c.apply s.rows (s.party t).tx = (rows,
        { (s.party t).tx with
          readLockSet := insertLock k (s.party t).tx.readLockSet
          readSet := readSet })) (hrefused : acquire luck .shared k s.rows = none →
      c.apply s.rows (s.party t).tx = refuse s.rows { (s.party t).tx with readSet := refusedSet })
    (hstep : TwoPhase.call s t c = some s') : Inv s' := by
  have hidle := (h.accounts t).idle hrunning
  cases hlock : acquire luck .shared k s.rows with
  | some rows =>
    rw [call_of_running hrunning hidle (hgranted rows hlock), holdersAfter_of_asks hasks, hlock]
      at hstep
    obtain ⟨w, hw, rfl⟩ := acquire_eq_some hlock
    simp only [hrunning, ne_eq, not_true_eq_false, if_false, Option.isSome_some, if_true,
      Option.some.injEq] at hstep
    rw [← hstep, ← hrunning]
    exact h.grantShared hrunning hnew hw hread
  | none =>
    rw [call_of_running hrunning hidle (hrefused hlock), holdersAfter_of_asks hasks, hlock] at hstep
    cases hstep
    exact h.ends hrunning (fun l => lock_undo _ _ l) TxStatus.noConfusion rfl

theorem Inv.callWrite {v : Bytes}
    (hkeys : ∀ entry ∈ (s.party t).tx.readSet, key entry.1 = key k → entry.1 = k)
    (hstep : TwoPhase.call s t (.write k v luck) = some s') : Inv s' := by
  have hidle := (h.accounts t).idle hrunning
  have hasks : (Call.write k v luck).asks (s.party t).tx =
      some (writeLock k (s.party t).tx, k, luck) := rfl
  cases hlock : acquire luck (writeLock k (s.party t).tx) k s.rows with
  | some rows =>
    have happly : (Call.write k v luck).apply s.rows (s.party t).tx = (setValue rows k v,
        { (s.party t).tx with
          readLockSet := if writeLock k (s.party t).tx = .upgrade
            then (s.party t).tx.readLockSet.erase k else (s.party t).tx.readLockSet
          undoSet := (s.party t).tx.undoSet ++ [(k, (rows k).value)] }) := by
      simp only [Call.apply, lockWrite, hlock]
    rw [call_of_running hrunning hidle happly, holdersAfter_of_asks hasks, hlock] at hstep
    obtain ⟨w, hw, rfl⟩ := acquire_eq_some hlock
    simp only [hrunning, ne_eq, not_true_eq_false, if_false, Option.isSome_some, if_true,
      Option.some.injEq] at hstep
    have hrows (l : Slot) : (setValue (setLock s.rows k w) k v l).lock =
        if l = k then w else (s.rows l).lock := by
      rw [lock_setValue, lock_setLock]
    rw [← hstep, ← hrunning]
    cases htype : writeLock k (s.party t).tx with
    | shared =>
      rw [writeLock] at htype
      split_ifs at htype
    | exclusive =>
      rw [htype] at hw
      exact h.grantExclusive hrunning hw hrows
    | upgrade =>
      rw [htype] at hw
      exact h.grantUpgrade hrunning (h.mem_readLockSet hrunning hkeys htype hw) hw hrows
  | none =>
    have happly : (Call.write k v luck).apply s.rows (s.party t).tx =
        refuse s.rows (s.party t).tx := by
      simp only [Call.apply, lockWrite, hlock]
    rw [call_of_running hrunning hidle happly, holdersAfter_of_asks hasks, hlock] at hstep
    cases hstep
    exact h.ends hrunning (fun l => lock_undo _ _ l) TxStatus.noConfusion rfl

end

theorem Inv.call (h : Inv s) (hgood : Accountable s (.call t c))
    (hstep : TwoPhase.call s t c = some s') : Inv s' := by
  obtain ⟨hrunning, hgood⟩ := hgood
  have hidle := (h.accounts t).idle hrunning
  cases c with
  | read k =>
    refine h.callShared ((s.party t).tx.readSet ++ [(k, (s.rows k).value)])
      ((s.party t).tx.readSet ++ [(k, [])]) hrunning hgood rfl ?_ ?_ ?_ hstep
    · exact forall_mem_concat.mpr ⟨fun entry => .inr, .inl rfl⟩
    · intro rows hlock
      simp only [Call.apply, lockRead, hlock, value_acquire hlock]
    · intro hlock
      simp only [Call.apply, lockRead, hlock]
  | readDirect =>
    refine h.callShared _ (s.party t).tx.readSet hrunning hgood rfl (fun entry => .inr) ?_ ?_ hstep
    · intro rows hlock
      simp only [Call.apply, TwoPhase.readDirect, hlock]
    · intro hlock
      simp only [Call.apply, TwoPhase.readDirect, hlock]
  | write => exact h.callWrite hrunning hgood hstep
  | abort =>
    rw [call_of_running hrunning hidle rfl] at hstep
    cases hstep
    exact h.ends hrunning (fun l => lock_undo _ _ l) TxStatus.noConfusion rfl
  | precommit valid =>
    cases valid with
    | true =>
      rw [call_of_running hrunning hidle rfl] at hstep
      cases hstep
      exact h.ends hrunning (fun l => rfl) TxStatus.noConfusion rfl
    | false =>
      rw [call_of_running hrunning hidle rfl] at hstep
      cases hstep
      exact h.ends hrunning (fun l => lock_undo _ _ l) TxStatus.noConfusion rfl

theorem Inv.step {a : Action} (h : Inv s) (hgood : Accountable s a)
    (hstep : TwoPhase.step s a = some s') : Inv s' := by
  cases a with
  | call => exact h.call hgood hstep
  | release => exact h.release hstep

end Steps

/-! ## Runs -/

/-- **Locks and holds.** In every run of any number of transactions in which every
call is one its transaction's sets account for, every lock word stands for the holds
on its row, a transaction that has ended holds nothing, and the next upgrade is of
a lock the transaction holds shared. -/
theorem locks_match_holds (rows : Rows) (as : List Action) (s : State)
    (hrun : run step (initial rows) as = some s)
    (hgood : Along step Accountable (initial rows) as) :
    (∀ k, (s.rows k).lock = encode (s.holders k)) ∧
      (∀ t, (s.party t).Finished → ∀ k, ∀ hold ∈ s.holders k, hold.tx ≠ t) ∧
      ∀ a t k, Accountable s a → Upgrades s t k a → ⟨t, .shared⟩ ∈ s.holders k := by
  have hinv : Inv s := Along.invariant Inv.step (inv_initial rows) hgood hrun
  refine ⟨fun k => (hinv.agrees k).word, ?_, ?_⟩
  · rintro t ⟨hended, hdone⟩ k ⟨u, mode⟩ hmem rfl
    have howned := (hinv.accounts u).owned k mode hmem
    rw [Party.locks_of_ended hended, hdone] at howned
    cases howned
  · intro a t k hnext hupgrades
    cases a with
    | release => cases hupgrades
    | call u c =>
      cases c with
      | write l =>
        obtain ⟨rfl, rfl, htype, hlock⟩ := hupgrades
        obtain ⟨hrunning, hkeys⟩ := hnext
        obtain ⟨rows', hrows'⟩ := Option.isSome_iff_exists.mp hlock
        obtain ⟨w, hw, -⟩ := acquire_eq_some hrows'
        exact (hinv.accounts u).shared hrunning l (hinv.mem_readLockSet hrunning hkeys htype hw)
      | _ => cases hupgrades

/-- Two transactions read a row and one of them another; the first commits, and the
second can then write what it has read. -/
def readersThenWriter : List Action :=
  [.call 0 (.read anyRow true), .call 1 (.read anyRow true),
    .call 0 (.readDirect (.row [2] [1]) true), .call 0 (.precommit true),
    .release 0, .release 0, .release 0, .release 0, .call 1 (.write anyRow [2] true)]

theorem locks_match_readersThenWriter :
    ∃ s, run step (initial fun _ => ⟨true, 0, [0]⟩) readersThenWriter = some s ∧
      (s.rows anyRow).lock = encode (s.holders anyRow) ∧
      s.holders anyRow = [⟨1, .exclusive⟩] := by
  have hholders : (run step (initial fun _ => ⟨true, 0, [0]⟩) readersThenWriter).map
      (fun s => s.holders anyRow) = some [⟨1, .exclusive⟩] := by
    decide +kernel
  obtain ⟨s, hrun, hs⟩ := Option.map_eq_some_iff.mp hholders
  exact ⟨s, hrun, (locks_match_holds _ _ s hrun (by decide +kernel)).1 anyRow, hs⟩

/-! ## Rows that stay locked -/

/-- A transaction scans a row twice and commits. -/
def twoScans : List Action :=
  [.call 0 (.readDirect anyRow true), .call 0 (.readDirect anyRow true), .call 0 (.precommit true),
    .release 0, .release 0]

/-- **Scanned twice.** The row is locked once for each scan and given back once. -/
theorem scanned_twice :
    (run step (initial fun _ => ⟨true, 0, [0]⟩) twoScans).map
        (fun s => (s.party 0, s.holders anyRow, (s.rows anyRow).lock)) =
      some (⟨⟨.committed, [], [], [anyRow], []⟩, [], none⟩, [⟨0, .shared⟩], reader) := by
  decide +kernel

end LineairDB.TwoPhase
