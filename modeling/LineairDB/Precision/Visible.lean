import LineairDB.Precision.System

/-!
# Which rows the range index shows

The events of the range index are queued when an operation is made, whatever becomes of
its transaction, and applied in the order of the epochs their transactions run in; rows
are published by commits. The two agree as long as nobody changes a key between an event
and the commit it belongs to.

* `Inv` — what the range index will say of a key that holds a row, or that a running
  transaction has written.
* `Stages`, `Aborts` — what an operation on a key does to the index and to the write set.
* `Inv.stages`, `Inv.aborts` — both keep the invariant, if the transaction that is
  aborted has deleted nothing.
-/

namespace LineairDB.Precision

open ByteFile Silo Transition

variable {u : ℕ} {w : Staged}

/-! ## Rows -/

/-- The content is a row, or an entry that leads to some. -/
def IndexKind.live : IndexKind → Content → Bool
  | .primary, c => c.isPrimaryInitialized
  | .secondary _, c => !c.primaryKeys.isEmpty

/-- Rows have no primary keys, and entries no value. -/
def IndexKind.Plain : IndexKind → Content → Prop
  | .primary, c => c.primaryKeys = []
  | .secondary _, c => c.buffer = []

namespace State

/-- The entry of the key holds a row. -/
def Live (kind : IndexKind) (s : State) (key : Bytes) : Prop :=
  (s.index.point key).any kind.live = true

/-- The container shows the key once every queued event has been applied. -/
def Visible (s : State) (key : Bytes) : Prop := s.index.range.settled key = some false

/-- A running transaction has written a key. -/
def Staging (s : State) (t : ℕ) (w : Staged) : Prop :=
  (s.tx t).status = .running ∧ w ∈ (s.tx t).writeSet

end State

instance (kind : IndexKind) (s : State) (key : Bytes) : Decidable (s.Live kind key) :=
  inferInstanceAs (Decidable (_ = _))

/-! ## Runs in which events and commits agree -/

/-- No other running transaction has written the key; or, for an operation that queues no
event, only ones that have queued none either. -/
def Undisturbed (s : State) (t : ℕ) (key : Bytes) (queues : Bool) : Prop :=
  ∀ u ∈ s.begun, u ≠ t → (s.tx u).status = .running → ∀ w ∈ (s.tx u).writeSet, w.key = key →
    queues = false ∧ w.event = none

/-- No event of the key is queued under a later epoch than the transaction's. -/
def Latest (s : State) (t : ℕ) (key : Bytes) : Prop :=
  ∀ x ∈ s.index.range.insertOrDeleteKeySet, x.2.key = key → x.1 ≤ (s.tx t).epoch

/-- Nobody else is at the key, and its last write is seen. -/
abbrev Alone (s : State) (t : ℕ) (key : Bytes) : Prop :=
  Undisturbed s t key true ∧ Latest s t key

/-- What is asked of an operation on a key. A transaction does not insert or write again
what it has deleted, and `Write` only finds entries that are live. -/
def OrderlyOp (kind : IndexKind) (s : State) (t : ℕ) : Op → Prop
  | .read _ => True
  | .scan _ _ _ _ => True
  | .insert key _ =>
    Undisturbed s t key true ∧ Latest s t key ∧
      ((s.tx t).findWrite key).all (fun own => own.copy.isPrimaryInitialized)
  | .write key _ =>
    ((s.tx t).findWrite key = none → s.index.point key = none →
        Undisturbed s t key true ∧ Latest s t key) ∧
      ((s.tx t).findWrite key = none → s.index.point key ≠ none →
        s.Live kind key ∧ Undisturbed s t key false) ∧
      ((s.tx t).findWrite key).all fun own => own.event ≠ some true
  | .update key _ =>
    ((s.tx t).findWrite key = none → Undisturbed s t key false) ∧
      ((s.tx t).findWrite key).all fun own => own.event ≠ some true
  | .delete key =>
    Undisturbed s t key true ∧ Latest s t key ∧
      ((s.tx t).findWrite key).all fun own => own.copy.isPrimaryInitialized
  | .writeSecondaryIndex key _ => Undisturbed s t key true ∧ Latest s t key
  | .deleteSecondaryIndex key _ =>
    Undisturbed s t key true ∧ Latest s t key ∧
      ((s.tx t).findWrite key = none → s.Live kind key)

/-- The operations that are made are in order. -/
def Orderly (kind : IndexKind) (s : State) : Action → Prop
  | .op t op => OrderlyOp kind s t op
  | _ => True

/-- Only a transaction that has deleted nothing is aborted. -/
def Spares (kind : IndexKind) (s : State) (a : Action) : Prop :=
  ∀ s' ∈ step kind s a, ∀ t ∈ s.begun, (s.tx t).status = .running →
    (s'.tx t).status = .aborted → ∀ w ∈ (s.tx t).writeSet, w.event ≠ some true

instance (s : State) (t : ℕ) (key : Bytes) (queues : Bool) :
    Decidable (Undisturbed s t key queues) :=
  inferInstanceAs (Decidable (∀ u ∈ s.begun, u ≠ t → (s.tx u).status = .running → ∀ w ∈ _, _))

instance (s : State) (t : ℕ) (key : Bytes) : Decidable (Latest s t key) :=
  inferInstanceAs (Decidable (∀ x ∈ s.index.range.insertOrDeleteKeySet, _))

instance OrderlyOp.decidable (kind : IndexKind) (s : State) (t : ℕ) :
    ∀ op, Decidable (OrderlyOp kind s t op)
  | .read _ => inferInstanceAs (Decidable True)
  | .scan _ _ _ _ => inferInstanceAs (Decidable True)
  | .insert _ _ => inferInstanceAs (Decidable (_ ∧ _ ∧ _ = true))
  | .write _ _ => inferInstanceAs (Decidable ((_ → _ → _ ∧ _) ∧ (_ → _ → _ ∧ _) ∧ _ = true))
  | .update _ _ => inferInstanceAs (Decidable ((_ → _) ∧ _ = true))
  | .delete _ => inferInstanceAs (Decidable (_ ∧ _ ∧ _ = true))
  | .writeSecondaryIndex _ _ => inferInstanceAs (Decidable (_ ∧ _))
  | .deleteSecondaryIndex _ _ => inferInstanceAs (Decidable (_ ∧ _ ∧ (_ → _)))

instance (kind : IndexKind) (s : State) (a : Action) : Decidable (Orderly kind s a) :=
  match a with
  | .op t op => OrderlyOp.decidable kind s t op
  | .start _ | .commit _ | .abort _ | .advanceEpoch | .sync | .manage =>
    inferInstanceAs (Decidable True)

instance (kind : IndexKind) (s : State) (a : Action) : Decidable (Spares kind s a) :=
  inferInstanceAs (Decidable (∀ s' ∈ step kind s a, ∀ t ∈ s.begun, (s.tx t).status = .running →
    (s'.tx t).status = .aborted → ∀ w ∈ _, _))

/-! ## The invariant -/

/-- The index, the clocks and the write sets are in order. -/
structure Shape (kind : IndexKind) (s : State) : Prop where
  idle : ∀ t, (s.tx t).status = .idle → s.tx t = .idle
  begun : ∀ t, (s.tx t).status = .running → t ∈ s.begun
  /-- Nobody runs more than one epoch behind. -/
  clock : ∀ t, (s.tx t).status = .running → s.globalEpoch.toNat ≤ (s.tx t).epoch.toNat + 1
  manager : ∀ g, s.manager = some g → 3 ≤ g.toNat ∧ g.toNat ≤ s.globalEpoch.toNat
  order : InOrder s.index.range.insertOrDeleteKeySet
  keys : ∀ k, s.index.range.container k ≠ none → k ∈ s.index.range.keys
  /-- Only keys with an entry are shown. -/
  entry : ∀ k, s.index.range.container k = some false ∨
    (∃ x ∈ s.index.range.insertOrDeleteKeySet, x.2.key = k ∧ x.2.isDeleteEvent = false) →
      s.index.point k ≠ none
  plain : ∀ k c, s.index.point k = some c → kind.Plain c
  content : ∀ k c, s.index.point k = some c →
    c = (((s.versions k).getLast?).map Prod.snd).getD .blank
  absent : ∀ k, s.index.point k = none → s.versions k = []
  writer : ∀ k, ∀ v ∈ s.versions k, (s.tx v.1).status = .committed
  nodup : ∀ t, ((s.tx t).writeSet.map Staged.key).Nodup
  reads : ∀ t, ∀ entry ∈ (s.tx t).readSet, kind.Plain entry.2

/-- **What the range index will say.** -/
structure Inv (kind : IndexKind) (s : State) : Prop extends Shape kind s where
  copy : ∀ t w, s.Staging t w → kind.Plain w.copy
  present : ∀ t w, s.Staging t w → s.index.point w.key ≠ none
  /-- A live key is shown, unless somebody is about to delete it. -/
  live : ∀ k, s.Live kind k → s.Visible k ∨ ∃ t w, s.Staging t w ∧ w.key = k ∧ w.event = some true
  /-- The last event a write has queued is the last of its key, and has not been applied. -/
  event : ∀ t w d, s.Staging t w → w.event = some d → s.index.range.settled w.key = some d ∧
    ∃ x ∈ s.index.range.insertOrDeleteKeySet, x.1 = (s.tx t).epoch ∧ x.2.key = w.key ∧
      x.2.txContext = t
  /-- A write without an event is to a key that is shown. -/
  shown : ∀ t w, s.Staging t w → w.event = none → s.Visible w.key
  alone : ∀ t w, s.Staging t w → w.event ≠ none → ∀ u w', u ≠ t → s.Staging u w' → w'.key ≠ w.key
  dead : ∀ t w, s.Staging t w → w.event = some true →
    kind.live w.copy = false ∧ kind ≠ .secondary false

/-! ## What an operation does -/

/-- The range index after an operation that has queued at most one event. -/
def pushed (r : RangeIndex) (epoch : EpochNumber) (t : ℕ) (key : Bytes) :
    Option Bool → RangeIndex
  | none => r
  | some d => r.push epoch ⟨key, d, t⟩

/-- **What an operation on a key does to the index**: at most a blank entry and an event. An
operation that is not forced asks the predicates first. -/
structure Queues (unforced : Prop) (s : State) (t : ℕ) (key : Bytes) (event : Option Bool)
    (ix : Index) : Prop where
  point : ∀ k, ix.point k = s.index.point k ∨
    k = key ∧ s.index.point k = none ∧ ix.point k = some .blank
  container : ix.range.container = s.index.range.container
  keys : ix.range.keys = s.index.range.keys
  events : ix.range.insertOrDeleteKeySet =
    (pushed s.index.range (s.tx t).epoch t key event).insertOrDeleteKeySet
  predicates : ∀ p ∈ s.index.range.predicateList, p ∈ ix.range.predicateList
  entry : event = some false → ix.point key ≠ none
  orderly : event ≠ none → Alone s t key
  asked : unforced → event ≠ none → s.index.range.isInPredicateSet t key = false

/-- The state after an operation of one transaction. -/
abbrev State.after (s : State) (t : ℕ) (ix : Index) (tx : Tx) : State :=
  { s with index := ix }.setTx t tx

/-- The transaction goes on, and has only read what can be published. -/
structure Going (kind : IndexKind) (s : State) (t : ℕ) (tx : Tx) : Prop where
  running : tx.status = .running
  epoch : tx.epoch = (s.tx t).epoch
  reads : ∀ entry ∈ tx.readSet, kind.Plain entry.2

/-- **What an operation that is carried out does to the write set.** -/
structure Stages (kind : IndexKind) (filled unforced : Prop) (s : State) (t : ℕ) (key : Bytes)
    (event : Option Bool) (ix : Index) (tx : Tx) :
    Prop extends Queues unforced s t key event ix, Going kind s t tx where
  nodup : (tx.writeSet.map Staged.key).Nodup
  others : ∀ w, w.key ≠ key → (w ∈ tx.writeSet ↔ w ∈ (s.tx t).writeSet)
  plain : ∀ w ∈ tx.writeSet, w.key = key → kind.Plain w.copy ∧ ix.point key ≠ none
  /-- The entry of the key has the event that was queued. -/
  noted : event ≠ none → ∀ w ∈ tx.writeSet, w.key = key → w.event = event
  /-- Without one, it was there before or is of a key that is live and shown. -/
  same : event = none → ∀ w ∈ tx.writeSet, w.key = key →
    (∃ v ∈ (s.tx t).writeSet, v.key = key ∧ w.event = v.event) ∨
      w.event = none ∧ s.Live kind key ∧ s.Visible key ∧ Undisturbed s t key false
  kept : event = none → ∀ v ∈ (s.tx t).writeSet, v.key = key →
    ∃ w ∈ tx.writeSet, w.key = key ∧ w.event = v.event
  staged : event ≠ none → ∃ w ∈ tx.writeSet, w.key = key
  dead : ∀ w ∈ tx.writeSet, w.key = key → w.event = some true →
    kind.live w.copy = false ∧ kind ≠ .secondary false
  live : filled → ∀ w ∈ tx.writeSet, w.key = key → w.event ≠ some true →
    kind.live w.copy = true ∨ w ∈ (s.tx t).writeSet

/-- **What an operation that aborts leaves behind.** Of deletions, only one of a key that is
not live. -/
structure Aborts (kind : IndexKind) (unforced : Prop) (s : State) (t : ℕ) (key : Bytes)
    (event : Option Bool) (ix : Index) (tx : Tx) :
    Prop extends Queues unforced s t key event ix where
  aborted : tx.status = .aborted
  epoch : tx.epoch = (s.tx t).epoch
  nodup : (tx.writeSet.map Staged.key).Nodup
  reads : ∀ entry ∈ tx.readSet, kind.Plain entry.2
  dead : event = some true → ¬s.Live kind key

section Effects

variable {kind : IndexKind} {s : State} {t : ℕ} {key : Bytes} {event : Option Bool}
  {ix : Index} {tx : Tx} {filled unforced : Prop}

theorem mem_pushed {r : RangeIndex} {epoch : EpochNumber} {x : EpochNumber × InsertOrDeleteEvent} :
    x ∈ (pushed r epoch t key event).insertOrDeleteKeySet ↔
      x ∈ r.insertOrDeleteKeySet ∨ ∃ d, event = some d ∧ x = (epoch, ⟨key, d, t⟩) := by
  cases event with
  | none => simp [pushed]
  | some d =>
    have hqueue : x ∈ (pushed r epoch t key (some d)).insertOrDeleteKeySet ↔
        x = (epoch, ⟨key, d, t⟩) ∨ x ∈ r.insertOrDeleteKeySet := mem_queue
    rw [hqueue]
    simp [or_comm]

/-- The writes of the running transactions after a step of one of them. -/
theorem staging_setTx : (s.after t ix tx).Staging u w ↔
      if u = t then tx.status = .running ∧ w ∈ tx.writeSet else s.Staging u w := by
  by_cases hu : u = t
  · subst hu
    simp [State.Staging, State.setTx]
  · simp [State.Staging, State.setTx, hu]

/-- Blank entries hold no row. -/
theorem live_blank (kind : IndexKind) : kind.live .blank = false := by
  cases kind <;> rfl

theorem plain_blank (kind : IndexKind) : kind.Plain .blank := by
  cases kind <;> rfl

theorem Undisturbed.not_staging (h : Undisturbed s t key true) (hinv : Shape kind s) (hu : u ≠ t)
    (hw : s.Staging u w) : w.key ≠ key := by
  intro hkey
  have hqueues := (h u (hinv.begun u hw.1) hu hw.1 w hw.2 hkey).1
  cases hqueues

/-- The clocks and the sets after a step of a running transaction. -/
theorem Shape.setTx (hinv : Shape kind s) {s' : State} (htx : s'.tx = s.tx)
    (hrun : (s.tx t).status = .running) (hidle : tx.status ≠ .idle)
    (hepoch : tx.epoch = (s.tx t).epoch) (hnodup : (tx.writeSet.map Staged.key).Nodup)
    (hreads : ∀ entry ∈ tx.readSet, kind.Plain entry.2) (u : ℕ) :
    (((s'.setTx t tx).tx u).status = .idle → (s'.setTx t tx).tx u = .idle) ∧
    (((s'.setTx t tx).tx u).status = .running →
      u ∈ s.begun ∧ s.globalEpoch.toNat ≤ ((s'.setTx t tx).tx u).epoch.toNat + 1) ∧
    (((s'.setTx t tx).tx u).writeSet.map Staged.key).Nodup ∧
    ∀ entry ∈ ((s'.setTx t tx).tx u).readSet, kind.Plain entry.2 := by
  by_cases hut : u = t
  · subst hut
    simp only [State.setTx, Function.update_self, hepoch]
    exact ⟨fun hu => absurd hu hidle, fun _ => ⟨hinv.begun u hrun, hinv.clock u hrun⟩, hnodup,
      hreads⟩
  · simp only [State.setTx, Function.update_of_ne hut, htx]
    exact ⟨hinv.idle u, fun hu => ⟨hinv.begun u hu, hinv.clock u hu⟩, hinv.nodup u,
      hinv.reads u⟩

namespace Queues

variable (h : Queues unforced s t key event ix)

include h

theorem point_ne_none {k : Bytes} (hk : s.index.point k ≠ none) : ix.point k ≠ none := by
  rcases h.point k with hpoint | ⟨-, hnone, -⟩
  · rw [hpoint]
    exact hk
  · exact absurd hnone hk

/-- A blank entry makes no key live. -/
theorem live_iff (k : Bytes) : (ix.point k).any kind.live = true ↔ s.Live kind k := by
  rcases h.point k with hpoint | ⟨-, hnone, hblank⟩
  · rw [hpoint]
    rfl
  · rw [State.Live, hnone, hblank]
    simp [live_blank]

theorem mem_events {x : EpochNumber × InsertOrDeleteEvent}
    (hx : x ∈ s.index.range.insertOrDeleteKeySet) : x ∈ ix.range.insertOrDeleteKeySet := by
  rw [h.events, mem_pushed]
  exact .inl hx

variable (hinv : Shape kind s)

include hinv

theorem settled (k : Bytes) :
    ix.range.settled k = if k = key ∧ event ≠ none then event else s.index.range.settled k := by
  have hsettled : ix.range.settled k =
      (pushed s.index.range (s.tx t).epoch t key event).settled k := by
    rw [RangeIndex.settled, RangeIndex.settled, h.events, h.container]
    cases event <;> rfl
  rw [hsettled]
  cases event with
  | none => simp [pushed]
  | some d =>
    have hlast : ∀ x ∈ s.index.range.insertOrDeleteKeySet,
        x.2.key = (InsertOrDeleteEvent.mk key d t).key → x.1 ≤ (s.tx t).epoch :=
      (h.orderly nofun).2
    rw [pushed, RangeIndex.settled_push hinv.order hlast]
    simp

theorem settled_of_ne {k : Bytes} (hk : k ≠ key ∨ event = none) :
    ix.range.settled k = s.index.range.settled k := by
  rw [h.settled hinv, if_neg]
  rintro ⟨hkey, hevent⟩
  rcases hk with hk | hk
  · exact hk hkey
  · exact hevent hk

/-- Where an event is queued, nobody else has written the key. -/
theorem apart (hu : u ≠ t) (hw : s.Staging u w) : w.key ≠ key ∨ event = none := by
  by_cases hevent : event = none
  · exact .inr hevent
  · exact .inl ((h.orderly hevent).1.not_staging hinv hu hw)

theorem order : InOrder ix.range.insertOrDeleteKeySet := by
  rw [h.events]
  cases event with
  | none => exact hinv.order
  | some => exact hinv.order.queue

/-- The index stays in order, whatever becomes of the transaction. -/
theorem shape (hrun : (s.tx t).status = .running) (hidle : tx.status ≠ .idle)
    (hepoch : tx.epoch = (s.tx t).epoch) (hnodup : (tx.writeSet.map Staged.key).Nodup)
    (hreads : ∀ entry ∈ tx.readSet, kind.Plain entry.2) : Shape kind (s.after t ix tx) := by
  have htx := hinv.setTx (show ({ s with index := ix } : State).tx = s.tx from rfl) hrun hidle
    hepoch hnodup hreads
  refine ⟨fun u => (htx u).1, fun u hu => ((htx u).2.1 hu).1, fun u hu => ((htx u).2.1 hu).2,
    hinv.manager, h.order hinv, ?keys, ?entry, ?plain, ?content, ?absent, ?writer,
    fun u => (htx u).2.2.1, fun u => (htx u).2.2.2⟩
  case keys =>
    intro k hk
    show k ∈ ix.range.keys
    rw [h.keys]
    refine hinv.keys k ?_
    rw [← h.container]
    exact hk
  case entry =>
    rintro k (hcontainer | ⟨x, hx, hkey, hinsert⟩)
    · have hold : ix.range.container k = some false := hcontainer
      rw [h.container] at hold
      exact h.point_ne_none (hinv.entry k (.inl hold))
    · have hold : x ∈ ix.range.insertOrDeleteKeySet := hx
      rw [h.events, mem_pushed] at hold
      rcases hold with hold | ⟨d, hevent, rfl⟩
      · exact h.point_ne_none (hinv.entry k (.inr ⟨x, hold, hkey, hinsert⟩))
      · have hd : d = false := hinsert
        rw [hd] at hevent
        rw [← hkey]
        exact h.entry hevent
  case plain =>
    intro k c hc
    rcases h.point k with hpoint | ⟨-, -, hblank⟩
    · exact hinv.plain k c (hpoint.symm.trans hc)
    · rw [Option.some.inj (hc.symm.trans hblank)]
      exact plain_blank kind
  case content =>
    intro k c hc
    rcases h.point k with hpoint | ⟨-, hnone, hblank⟩
    · exact hinv.content k c (hpoint.symm.trans hc)
    · show c = (((s.versions k).getLast?).map Prod.snd).getD .blank
      rw [hinv.absent k hnone]
      exact Option.some.inj (hc.symm.trans hblank)
  case absent =>
    intro k hk
    refine hinv.absent k ?_
    by_contra hsome
    exact h.point_ne_none hsome hk
  case writer =>
    intro k v hv
    have hcommitted := hinv.writer k v hv
    have hne : v.1 ≠ t := by
      intro hvt
      rw [hvt, hrun] at hcommitted
      cases hcommitted
    simp only [State.setTx, Function.update_of_ne hne]
    exact hcommitted

end Queues

section

variable (h : Stages kind filled unforced s t key event ix tx)

include h

/-- What a running transaction has written, and with which event, is still there. -/
theorem Stages.persists (hw : s.Staging u w) (hkey : ¬(w.key = key ∧ event ≠ none)) :
    ∃ w', (s.after t ix tx).Staging u w' ∧ w'.key = w.key ∧
      w'.event = w.event := by
  by_cases hut : u = t
  · subst hut
    by_cases hwk : w.key = key
    · have hnone : event = none := by
        by_contra hevent
        exact hkey ⟨hwk, hevent⟩
      obtain ⟨w', hw', hkey', hsame⟩ := h.kept hnone w hw.2 hwk
      refine ⟨w', staging_setTx.mpr ?_, hkey'.trans hwk.symm, hsame⟩
      rw [if_pos rfl]
      exact ⟨h.running, hw'⟩
    · refine ⟨w, staging_setTx.mpr ?_, rfl, rfl⟩
      rw [if_pos rfl]
      exact ⟨h.running, (h.others w hwk).mpr hw.2⟩
  · refine ⟨w, staging_setTx.mpr ?_, rfl, rfl⟩
    rw [if_neg hut]
    exact hw

omit h in
/-- The event that is queued is remembered. -/
theorem Stages.remembered {d : Bool} (h : Stages kind filled unforced s t key (some d) ix tx) :
    ∃ w, (s.after t ix tx).Staging t w ∧ w.key = key ∧
      w.event = some d := by
  obtain ⟨w, hw, hkey⟩ := h.staged nofun
  refine ⟨w, staging_setTx.mpr ?_, hkey, h.noted nofun w hw hkey⟩
  rw [if_pos rfl]
  exact ⟨h.running, hw⟩

/-- What is written after an operation was written before, unless it is to the key of the
operation. -/
theorem Stages.staging (hrun : (s.tx t).status = .running)
    (hw : (s.after t ix tx).Staging u w) :
    s.Staging u w ∧ (u = t → w.key ≠ key) ∨ u = t ∧ w ∈ tx.writeSet ∧ w.key = key := by
  rw [staging_setTx] at hw
  split_ifs at hw with hut
  · by_cases hkey : w.key = key
    · exact .inr ⟨hut, hw.2, hkey⟩
    · exact .inl ⟨hut ▸ ⟨hrun, (h.others w hkey).mp hw.2⟩, fun _ => hkey⟩
  · exact .inl ⟨hw, fun heq => absurd heq hut⟩

theorem Stages.epoch_setTx (u : ℕ) :
    ((s.after t ix tx).tx u).epoch = (s.tx u).epoch := by
  by_cases hut : u = t
  · simp only [hut, State.setTx, Function.update_self, h.epoch]
  · simp only [State.setTx, Function.update_of_ne hut]

/-- **Where the event of a write comes from**: an earlier write, the operation, or none is
queued and the key is shown. -/
theorem Stages.origin (hinv : Shape kind s) (hrun : (s.tx t).status = .running)
    (hw : (s.after t ix tx).Staging u w) :
    (∃ v, s.Staging u v ∧ v.key = w.key ∧ v.event = w.event ∧ (w.key ≠ key ∨ event = none)) ∨
    u = t ∧ w.key = key ∧ (w.event = event ∧ event ≠ none ∨
      w.event = none ∧ event = none ∧ s.Visible key ∧ Undisturbed s t key false) := by
  rcases h.staging hrun hw with ⟨hold, hother⟩ | ⟨rfl, hw, hkey⟩
  · refine .inl ⟨w, hold, rfl, rfl, ?_⟩
    by_cases hut : u = t
    · exact .inl (hother hut)
    · exact h.apart hinv hut hold
  · by_cases hevent : event = none
    · rcases h.same hevent w hw hkey with ⟨v, hv, hvk, hvw⟩ | ⟨hnone, -, hvisible, hundisturbed⟩
      · exact .inl ⟨v, ⟨hrun, hv⟩, hvk.trans hkey.symm, hvw.symm, .inr hevent⟩
      · exact .inr ⟨rfl, hkey, .inr ⟨hnone, hevent, hvisible, hundisturbed⟩⟩
    · exact .inr ⟨rfl, hkey, .inl ⟨h.noted hevent w hw hkey, hevent⟩⟩

/-- A live key is shown, or somebody deletes it. -/
theorem Stages.shown_or_deleted (hinv : Inv kind s) {k : Bytes}
    (hlive : (s.after t ix tx).Live kind k) : (s.after t ix tx).Visible k ∨
      ∃ u w, (s.after t ix tx).Staging u w ∧ w.key = k ∧ w.event = some true := by
  by_cases hk : k = key ∧ event ≠ none
  · obtain ⟨rfl, hevent⟩ := hk
    have hsettled := h.settled hinv.toShape k
    rw [if_pos ⟨rfl, hevent⟩] at hsettled
    cases event with
    | none => exact absurd rfl hevent
    | some d =>
      cases d with
      | false => exact .inl hsettled
      | true => exact .inr ⟨t, h.remembered⟩
  · have hsame : ix.range.settled k = s.index.range.settled k := by
      rw [h.settled hinv.toShape, if_neg hk]
    rcases hinv.live k ((h.live_iff k).mp hlive) with hvisible | ⟨u, w, hw, rfl, hdelete⟩
    · exact .inl (hsame.trans hvisible)
    · obtain ⟨w', hw', hkey', hevent'⟩ := h.persists hw hk
      exact .inr ⟨u, w', hw', hkey', hevent'.trans hdelete⟩

/-- Nobody else writes a key an event is queued for. -/
theorem Stages.alone (hinv : Inv kind s) (hrun : (s.tx t).status = .running)
    (hw : (s.after t ix tx).Staging u w) (hevent : w.event ≠ none) :
    ∀ u' w', u' ≠ u → (s.after t ix tx).Staging u' w' → w'.key ≠ w.key := by
  intro u' w' hne hw'
  rcases h.origin hinv.toShape hrun hw with ⟨v, hv, hvk, hve, hapart⟩ |
    ⟨rfl, hkey, ⟨-, hqueued⟩ | ⟨hnone, -⟩⟩
  · rw [← hve] at hevent
    rcases h.origin hinv.toShape hrun hw' with ⟨v', hv', hvk', -⟩ |
      ⟨rfl, hkey', ⟨-, hqueued⟩ | ⟨-, -, -, hundisturbed⟩⟩
    · rw [← hvk, ← hvk']
      exact hinv.alone u v hv hevent u' v' hne hv'
    · exact hkey' ▸ (hapart.resolve_right hqueued).symm
    · intro hsame
      exact hevent (hundisturbed u (hinv.begun u hv.1) hne.symm hv.1 v hv.2
        (hvk.trans (hsame.symm.trans hkey'))).2
  · rcases h.origin hinv.toShape hrun hw' with ⟨-, -, -, -, hapart⟩ | ⟨heq, -⟩
    · exact hkey ▸ hapart.resolve_right hqueued
    · exact absurd heq hne
  · exact absurd hnone hevent

end

/-- **An operation that is carried out keeps the invariant.** -/
theorem Inv.stages (hinv : Inv kind s) (hrun : (s.tx t).status = .running)
    (h : Stages kind filled unforced s t key event ix tx) :
    Inv kind (s.after t ix tx) := by
  refine ⟨h.shape hinv.toShape hrun ?idle h.epoch h.nodup h.reads, ?copy, ?present,
    fun _ => h.shown_or_deleted hinv, ?event, ?shown, fun u w => h.alone hinv hrun, ?dead⟩
  case idle =>
    rw [h.running]
    nofun
  case copy =>
    intro u w hw
    rcases h.staging hrun hw with ⟨hw, -⟩ | ⟨-, hw, hkey⟩
    · exact hinv.copy u w hw
    · exact (h.plain w hw hkey).1
  case present =>
    intro u w hw
    rcases h.staging hrun hw with ⟨hw, -⟩ | ⟨-, hw, hkey⟩
    · exact h.point_ne_none (hinv.present u w hw)
    · exact hkey ▸ (h.plain w hw hkey).2
  case event =>
    intro u w d hw hd
    rw [h.epoch_setTx u]
    rcases h.origin hinv.toShape hrun hw with ⟨v, hv, hvk, hve, hapart⟩ |
      ⟨rfl, hkey, ⟨hflag, hevent⟩ | ⟨hnone, -⟩⟩
    · obtain ⟨hsettled, x, hx, hepoch, hxkey⟩ := hinv.event u v d hv (hve.trans hd)
      rw [hvk] at hsettled hxkey
      exact ⟨(h.settled_of_ne hinv.toShape hapart).trans hsettled, x, h.mem_events hx,
        hepoch, hxkey⟩
    · rw [hd] at hflag
      refine ⟨?_, ((s.tx u).epoch, ⟨key, d, u⟩), ?_, rfl, hkey.symm, rfl⟩
      · exact (h.settled hinv.toShape _).trans ((if_pos ⟨hkey, hevent⟩).trans hflag.symm)
      · show _ ∈ ix.range.insertOrDeleteKeySet
        rw [h.events, mem_pushed]
        exact .inr ⟨d, hflag.symm, rfl⟩
    · rw [hnone] at hd
      cases hd
  case shown =>
    intro u w hw hnone
    rcases h.origin hinv.toShape hrun hw with ⟨v, hv, hvk, hve, hapart⟩ |
      ⟨rfl, hkey, ⟨hflag, hevent⟩ | ⟨-, hevent, hvisible, -⟩⟩
    · have hshown := hinv.shown u v hv (hve.trans hnone)
      rw [hvk] at hshown
      exact (h.settled_of_ne hinv.toShape hapart).trans hshown
    · exact absurd (hflag.symm.trans hnone) hevent
    · rw [← hkey] at hvisible
      exact (h.settled_of_ne hinv.toShape (.inr hevent)).trans hvisible
  case dead =>
    intro u w hw hdelete
    rcases h.staging hrun hw with ⟨hw, -⟩ | ⟨-, hw, hkey⟩
    · exact hinv.dead u w hw hdelete
    · exact h.dead w hw hkey hdelete

/-- What is written after an abort was written by another transaction. -/
theorem Aborts.staging (h : Aborts kind unforced s t key event ix tx)
    (hw : (s.after t ix tx).Staging u w) : u ≠ t ∧ s.Staging u w := by
  rw [staging_setTx] at hw
  split_ifs at hw with hut
  · rw [h.aborted] at hw
    cases hw.1
  · exact ⟨hut, hw⟩

/-- A step after which no write is new keeps the invariant, if what it makes live is shown
and it leaves the keys of the writes alone. -/
theorem Inv.narrow {s' : State} (hinv : Inv kind s) (hshape : Shape kind s')
    (hstaging : ∀ {u w}, s'.Staging u w → s.Staging u w ∧ (s'.tx u).epoch = (s.tx u).epoch ∧
      s'.index.range.settled w.key = s.index.range.settled w.key)
    (hpoint : ∀ k, s.index.point k ≠ none → s'.index.point k ≠ none)
    (hevents : ∀ {u w x}, s'.Staging u w → x ∈ s.index.range.insertOrDeleteKeySet →
      x.1 = (s.tx u).epoch → x ∈ s'.index.range.insertOrDeleteKeySet)
    (hlive : ∀ k, s'.Live kind k → s'.Visible k ∨ s.Live kind k ∧
      s'.index.range.settled k = s.index.range.settled k ∧
      ∀ u w, s.Staging u w → w.key = k → w.event = some true → s'.Staging u w) :
    Inv kind s' where
  toShape := hshape
  copy u w hw := hinv.copy u w (hstaging hw).1
  present u w hw := hpoint w.key (hinv.present u w (hstaging hw).1)
  live k hk := by
    rcases hlive k hk with hvisible | ⟨hold, hsettled, hkeep⟩
    · exact .inl hvisible
    · rcases hinv.live k hold with hvisible | ⟨u, w, hw, hkey, hdelete⟩
      · exact .inl (hsettled.trans hvisible)
      · exact .inr ⟨u, w, hkeep u w hw hkey hdelete, hkey, hdelete⟩
  event u w d hw hd := by
    obtain ⟨hold, hepoch, hsettled⟩ := hstaging hw
    obtain ⟨hlast, x, hx, hxepoch, hxkey⟩ := hinv.event u w d hold hd
    exact ⟨hsettled.trans hlast, x, hevents hw hx hxepoch, hxepoch.trans hepoch.symm, hxkey⟩
  shown u w hw hnone := (hstaging hw).2.2.trans (hinv.shown u w (hstaging hw).1 hnone)
  alone u w hw hevent u' w' hne hw' :=
    hinv.alone u w (hstaging hw).1 hevent u' w' hne (hstaging hw').1
  dead u w hw hdelete := hinv.dead u w (hstaging hw).1 hdelete

/-- **So does one that aborts**, if the transaction has deleted nothing. -/
theorem Inv.aborts (hinv : Inv kind s) (hrun : (s.tx t).status = .running)
    (h : Aborts kind unforced s t key event ix tx)
    (hspares : ∀ w ∈ (s.tx t).writeSet, w.event ≠ some true) :
    Inv kind (s.after t ix tx) := by
  refine hinv.narrow (h.shape hinv.toShape hrun ?idle h.epoch h.nodup h.reads) ?staging
    (fun k => h.point_ne_none) (fun _ hx _ => h.mem_events hx) ?live
  case idle =>
    rw [h.aborted]
    nofun
  case staging =>
    intro u w hw
    obtain ⟨hut, hw⟩ := h.staging hw
    refine ⟨hw, ?_, h.settled_of_ne hinv.toShape (h.apart hinv.toShape hut hw)⟩
    simp only [State.setTx, Function.update_of_ne hut]
  case live =>
    intro k hlive
    have hold := (h.live_iff k).mp hlive
    by_cases hk : k = key ∧ event ≠ none
    · obtain ⟨rfl, hevent⟩ := hk
      left
      show ix.range.settled k = some false
      rw [h.settled hinv.toShape, if_pos ⟨rfl, hevent⟩]
      cases hflag : event with
      | none => exact absurd hflag hevent
      | some d =>
        cases d with
        | false => rfl
        | true => exact absurd hold (h.dead hflag)
    · refine .inr ⟨hold, ?_, fun u w hw _ hdelete => staging_setTx.mpr ?_⟩
      · show ix.range.settled k = _
        rw [h.settled hinv.toShape, if_neg hk]
      · have hut : u ≠ t := by
          rintro rfl
          exact hspares w hw.2 hdelete
        rw [if_neg hut]
        exact hw

end Effects

end LineairDB.Precision
