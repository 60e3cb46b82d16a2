import LineairDB.Native.Publishing

/-!
# The primary-key lists of a transaction

An entry of a secondary index that is not UNIQUE is not overwritten: what a
transaction has added and removed is merged into the list it finds under the
lock. The write set keeps the last operation on every primary key, so what is
merged are the deltas of the whole sequence of calls.

* `Recorded.step` — the deltas of an entry are those of the calls so far.
* `merges_decide` — what is installed over the locked list are these deltas.
* `Recorded.wrote` — and so is what the transaction has published to the entry.
-/

namespace LineairDB.Native

open Silo ByteFile
open Stateless (Schema)
open Recovery (SecondaryIndexOp SecondaryIndexDelta WriteOp writesTo secondaryIndexDeltas
  secondaryIndexDeltas_concat applySecondaryIndexDelta)

variable {indexName key primaryKey tableName : Bytes} {isDelete unique : Bool}
  {x : Access × Transaction × List Candidate}

/-- The slot is an entry of a secondary index that has a name and is not UNIQUE. -/
def IsList (schema : Schema) : Slot → Prop
  | .row _ _ => False
  | .entry tableName indexName _ =>
    indexName ≠ [] ∧ ∃ indexes, schema tableName = some indexes ∧ indexes indexName = some false

/-- What a call adds to a list, or removes from it. -/
def Choice.secondaryOps : Choice → List WriteOp
  | .writeSecondaryIndex tableName indexName key primaryKey =>
    [.entry tableName indexName key primaryKey false]
  | .deleteSecondaryIndex tableName indexName key primaryKey =>
    [.entry tableName indexName key primaryKey true]
  | _ => []

variable {schema : Schema} {s s' : Store} {t : ℕ} {tx : Transaction} {k : Slot}
  {ops : List WriteOp} {choice : Choice}

theorem Choice.Edits.secondaryOps {op : SecondaryIndexOp}
    (h : choice.Edits schema tableName indexName key unique op primaryKey) :
    ∃ isDelete, choice.secondaryOps = [.entry tableName indexName key primaryKey isDelete] ∧
      op = WriteOp.op isDelete := by
  cases h with
  | write => exact ⟨false, rfl, rfl⟩
  | delete => exact ⟨true, rfl, rfl⟩

theorem entry_of_isList (hlist : IsList schema k) :
    ∃ tableName indexName key, k = .entry tableName indexName key := by
  cases k with
  | row => exact hlist.elim
  | entry => exact ⟨_, _, _, rfl⟩

theorem unique_eq_false (hlist : IsList schema (.entry tableName indexName key))
    (hindex : secondaryIndex schema tableName indexName = some (some unique)) : unique = false := by
  obtain ⟨-, indexes, htable, hunique⟩ := hlist
  unfold secondaryIndex at hindex
  split_ifs at hindex
  rw [htable] at hindex
  have heq : indexes indexName = some unique := by simpa using hindex
  rw [hunique] at heq
  cases heq
  rfl

/-! ## The calls so far and the write set -/

/-- The transaction is not about to write the slot. -/
def Stage.Aside (k : Slot) : Stage → Prop
  | .reading (.seed tableName indexName key _ _ _) _ _ => .entry tableName indexName key ≠ k
  | .checking slot _ _ | .writing slot _ _ => slot ≠ k
  | _ => True

/-- What the calls so far have left of a list in the transaction: nothing, or the first
operation in a seed under way, or the deltas of an entry of the write set. -/
inductive Recorded (k : Slot) (ops : List WriteOp) (tx : Transaction) : Prop
  | failed (hfailed : tx.stage.failed = true)
  | nothing (hops : writesTo k ops = []) (hwrites : ∀ w ∈ tx.writes, w.slot ≠ k)
      (hstage : tx.stage.Aside k)
  | seeding {tableName indexName key primaryKey : Bytes} {isDelete : Bool} {item : ItemId}
      {copying : Copying} (hslot : .entry tableName indexName key = k)
      (hops : writesTo k ops = [.entry tableName indexName key primaryKey isDelete])
      (hwrites : ∀ w ∈ tx.writes, w.slot ≠ k)
      (hstage : tx.stage = .reading
        (.seed tableName indexName key false (WriteOp.op isDelete) primaryKey) item copying)
  | entry {w : WriteSnapshot} (hw : w ∈ tx.writes) (hslot : w.slot = k)
      (hunique : w.unique = false) (hdeltas : w.deltas = secondaryIndexDeltas k ops)
      (hsome : w.deltas ≠ [])

theorem secondaryIndexDeltas_of_writesTo (h : writesTo k ops = []) :
    secondaryIndexDeltas k ops = [] := by
  rw [secondaryIndexDeltas, h]
  rfl

theorem findWrite_none (h : ∀ w ∈ tx.writeSet, w.slot ≠ k) : tx.findWrite k = none := by
  refine List.find?_eq_none.mpr fun w hw => ?_
  simpa using h w hw

/-- A call that changes the list. -/
theorem step_edit (hlist : IsList schema (.entry tableName indexName key))
    (hops : choice.secondaryOps = [.entry tableName indexName key primaryKey isDelete])
    (h : step schema s t tx choice = some x) :
    x.2.1.stage.failed = true ∨ tx.stage = .running ∧
      x.2.1 = (tx.editSecondaryIndex s tableName indexName key false (WriteOp.op isDelete)
        primaryKey).2 := by
  cases choice with
  | writeSecondaryIndex
  | deleteSecondaryIndex =>
    cases hops
    cases hstage : tx.stage with
    | running =>
      simp only [step, hstage] at h
      obtain ⟨y, hy, rfl⟩ := Option.map_eq_some_iff.mp h
      obtain ⟨index, hindex, rfl⟩ := Option.map_eq_some_iff.mp hy
      cases index with
      | none => exact .inl rfl
      | some =>
        rw [unique_eq_false hlist hindex]
        exact .inr ⟨rfl, rfl⟩
    | _ => simp [step, hstage] at h
  | _ => cases hops

/-- The first operation of a list, on a copy. -/
theorem Recorded.put {item : ItemId} {base : Content}
    (hops : writesTo (.entry tableName indexName key) ops
      = [.entry tableName indexName key primaryKey isDelete]) :
    Recorded (.entry tableName indexName key) ops
      (tx.putSecondaryIndex (.entry tableName indexName key) item false base
        (WriteOp.op isDelete) primaryKey) := by
  have hdeltas : secondaryIndexDeltas (.entry tableName indexName key) ops
      = [⟨primaryKey, WriteOp.op isDelete⟩] := by
    rw [secondaryIndexDeltas, hops]
    rfl
  unfold Transaction.putSecondaryIndex
  rw [if_neg (fun h => by cases h.2.1)]
  refine .entry (w := WriteSnapshot.edit (WriteOp.op isDelete) primaryKey
    ⟨.entry tableName indexName key, item, base, .empty, false, false, []⟩) ?_ rfl rfl ?_
    Recovery.recordSecondaryIndexDelta_ne_nil
  · rw [writes_of_collecting rfl]
    exact List.mem_concat_self
  · rw [hdeltas]
    rfl

/-- A call on the list is recorded. -/
theorem Recorded.edit (h : Recorded (.entry tableName indexName key) ops tx)
    (hstage : tx.stage = .running) :
    Recorded (.entry tableName indexName key)
      (ops ++ [.entry tableName indexName key primaryKey isDelete])
      (tx.editSecondaryIndex s tableName indexName key false (WriteOp.op isDelete)
        primaryKey).2 := by
  have hcollecting : tx.stage.collecting = true := by
    rw [hstage]
    rfl
  have hself : (WriteOp.entry tableName indexName key primaryKey isDelete).slot
      = .entry tableName indexName key := rfl
  unfold Transaction.editSecondaryIndex
  dsimp only
  cases h with
  | failed hfailed =>
    rw [hstage] at hfailed
    cases hfailed
  | nothing hops hwrites =>
    have hone : writesTo (.entry tableName indexName key)
        (ops ++ [.entry tableName indexName key primaryKey isDelete])
        = [.entry tableName indexName key primaryKey isDelete] := by
      rw [Recovery.writesTo_concat, hops, if_pos hself]
      rfl
    rw [writes_of_collecting hcollecting] at hwrites
    rw [if_neg (by simp [findWrite_none hwrites])]
    split
    · exact .put hone
    · refine .seeding rfl hone ?_ rfl
      rw [writes_of_collecting rfl]
      exact hwrites
  | seeding _ _ _ hseed =>
    rw [hstage] at hseed
    cases hseed
  | @entry w hw hslot hunique hdeltas hsome =>
    rw [writes_of_collecting hcollecting] at hw
    have hfound : (tx.findWrite (.entry tableName indexName key)).isSome = true := by
      rw [Transaction.findWrite, List.find?_isSome]
      exact ⟨w, hw, decide_eq_true hslot⟩
    rw [if_pos hfound, if_neg (fun h => by cases h.2)]
    refine .entry (w := w.edit (WriteOp.op isDelete) primaryKey) ?_ hslot hunique ?_
      Recovery.recordSecondaryIndexDelta_ne_nil
    · rw [writes_of_collecting rfl]
      refine List.mem_map.mpr ⟨w, hw, ?_⟩
      rw [if_pos hslot]
    · rw [secondaryIndexDeltas_concat, if_pos hself, ← hdeltas]
      rfl

/-! ## Calls on other slots -/

theorem Stage.aside_of_not_collecting {stage : Stage} (h : stage.collecting = false) :
    stage.Aside k := by
  cases stage with
  | running | reading | checking | writing => cases h
  | _ => trivial

theorem Choice.Edits.slot_ne {op : SecondaryIndexOp}
    (h : choice.Edits schema tableName indexName key unique op primaryKey)
    (hother : ∀ o ∈ choice.secondaryOps, o.slot ≠ k) : .entry tableName indexName key ≠ k := by
  obtain ⟨isDelete, hops, -⟩ := h.secondaryOps
  exact hother (.entry tableName indexName key primaryKey isDelete)
    (by rw [hops]; exact List.mem_singleton.mpr rfl)

/-! A transaction that has nothing of a list and does not ask for it. -/

section

variable (haside : tx.stage.Aside k) (hother : ∀ o ∈ choice.secondaryOps, o.slot ≠ k)
  (h : step schema s t tx choice = some x)

include haside hother h

theorem writes_aside (hrow : ∀ tableName key, .row tableName key ≠ k)
    (hwrites : ∀ w ∈ tx.writes, w.slot ≠ k) : ∀ w ∈ x.2.1.writes, w.slot ≠ k := by
  intro w hw
  rcases step_origin h hw with ⟨w₀, hw₀, hchanged⟩ | hfresh
  · rw [hchanged.slot]
    exact hwrites w₀ hw₀
  · cases hfresh with
    | row => exact hrow _ _
    | writing hstage | seed hstage =>
      rw [hstage] at haside
      exact haside
    | put hedits => exact hedits.slot_ne hother

theorem stage_aside (hrow : ∀ tableName key, .row tableName key ≠ k) : x.2.1.stage.Aside k := by
  cases step_move h with
  | answer | miss => exact haside
  | look _ hasks =>
    cases hasks with
    | seed hedits => exact hedits.slot_ne hother
    | _ => trivial
  | @copy _ _ purpose _ _ _ hstage =>
    rw [hstage] at haside
    cases purpose with
    | seed => exact haside
    | _ => trivial
  | confirm => rcases copied_stage with hstage | hstage <;> exact hstage ▸ trivial
  | check | claim => exact hrow _ _
  | checked hstage =>
    rw [hstage] at haside
    exact haside
  | put => rcases putSecondaryIndex_stage with hstage | hstage <;> exact hstage ▸ trivial
  | refuse | overwrite | append | edit | precommit => trivial
  | commit hcommitting =>
    exact Stage.aside_of_not_collecting (commitStep_not_collecting hcommitting _)

end

/-- A call on another slot, or a step on the way. -/
theorem Recorded.other (hentry : ∃ tableName indexName key, k = .entry tableName indexName key)
    (h : Recorded k ops tx) (hother : ∀ o ∈ choice.secondaryOps, o.slot ≠ k)
    (hstep : step schema s t tx choice = some x) : Recorded k ops x.2.1 := by
  cases h with
  | failed hfailed => exact .failed (failed_keeps hstep hfailed)
  | nothing hops hwrites hstage =>
    have hrow : ∀ tableName key, .row tableName key ≠ k := by
      obtain ⟨_, _, _, rfl⟩ := hentry
      exact fun tableName key heq => by cases heq
    exact .nothing hops (writes_aside hstage hother hstep hrow hwrites)
      (stage_aside hstage hother hstep hrow)
  | @seeding tableName indexName key primaryKey isDelete item copying hslot hops hwrites hseed =>
    -- the seed goes on until its copy is confirmed
    rcases (step_reading hseed hstep).2 with ⟨copying', hx⟩ | ⟨tid, copy, hconfirms⟩
    · rw [hx]
      rw [writes_of_collecting (by rw [hseed]; rfl)] at hwrites
      exact .seeding hslot hops hwrites rfl
    · rw [hconfirms.eq]
      subst hslot
      exact .put hops
  | @entry w hw hslot hunique hdeltas hsome =>
    rcases step_writes hstep hw with hfailed | ⟨w', hw', hchanged⟩
    · exact .failed hfailed
    · cases hchanged with
      | same | lock | install | refresh | overwrite =>
        exact .entry hw' hslot hunique hdeltas hsome
      | edit hedits hslot' =>
        exact absurd (hslot'.symm.trans hslot) (hedits.slot_ne hother)

/-- **The write set records the calls**: whatever a transaction does, its deltas for a list
are those of all its calls so far. -/
theorem Recorded.step (hlist : IsList schema k) (h : Recorded k ops tx)
    (hstep : step schema s t tx choice = some x) :
    Recorded k (ops ++ choice.secondaryOps) x.2.1 := by
  have hentry := entry_of_isList hlist
  by_cases hon : ∃ o ∈ choice.secondaryOps, o.slot = k
  · obtain ⟨o, ho, rfl⟩ := hon
    have hone : ∃ tableName indexName key primaryKey isDelete,
        o = .entry tableName indexName key primaryKey isDelete ∧ choice.secondaryOps = [o] := by
      cases choice with
      | writeSecondaryIndex | deleteSecondaryIndex =>
        cases List.mem_singleton.mp ho
        exact ⟨_, _, _, _, _, rfl, rfl⟩
      | _ => cases ho
    obtain ⟨tableName, indexName, key, primaryKey, isDelete, rfl, hops⟩ := hone
    rcases step_edit hlist hops hstep with hfailed | ⟨hstage, hx⟩
    · exact .failed hfailed
    · rw [hx, hops]
      exact h.edit hstage
  · have hother : ∀ o ∈ choice.secondaryOps, o.slot ≠ k :=
      fun o ho hslot => hon ⟨o, ho, hslot⟩
    have hnone : writesTo k choice.secondaryOps = [] :=
      List.filter_eq_nil_iff.mpr fun o ho => by simpa using hother o ho
    have hsame : writesTo k (ops ++ choice.secondaryOps) = writesTo k ops := by
      unfold writesTo at hnone ⊢
      rw [List.filter_append, hnone, List.append_nil]
    have hdeltas : secondaryIndexDeltas k (ops ++ choice.secondaryOps)
        = secondaryIndexDeltas k ops := by
      unfold secondaryIndexDeltas
      rw [hsame]
    cases h.other hentry hother hstep with
    | failed hfailed => exact .failed hfailed
    | nothing hops hwrites hstage => exact .nothing (hsame.trans hops) hwrites hstage
    | seeding hslot hops hwrites hstage => exact .seeding hslot (hsame.trans hops) hwrites hstage
    | entry hw hslot hunique hold hsome =>
      exact .entry hw hslot hunique (hold.trans hdeltas.symm) hsome

theorem recorded_start (k : Slot) : Recorded k [] ⟨[], [], [], [], .running⟩ :=
  .nothing rfl (nofun) trivial

/-! ## What is merged -/

/-- An entry of a list merges its deltas into what is there. -/
def Merges (w : WriteSnapshot) (before after : Content) : Prop :=
  w.isDeltaWrite = true → after = w.deltas.foldl applySecondaryIndexDelta before

theorem respects_merges : Respects Merges := fun _ _ _ _ hmerges => hmerges

/-- Under the lock the item holds the list as it is. -/
theorem merges_decide (hstore : StoreInv s) (hinv : TransactionInv s t tx)
    (hstage : tx.stage = .inserts []) (w : WriteSnapshot) (hw : w ∈ tx.writeSet) :
    Merges w (s.current w.slot) (w.installed (s.item w.item).content) := by
  intro hdelta
  have hvalidating := hinv.stage
  rw [hstage] at hvalidating
  have hhome := (hvalidating.1.entries.item w hw).2
  cases hslot : w.slot with
  | row =>
    unfold WriteSnapshot.isDeltaWrite at hdelta
    rw [hslot] at hdelta
    cases hdelta
  | entry =>
    have hcurrent := hstore.attached_entry (hvalidating.1.held w hw).2 (hvalidating.1.clean w hw)
      (hhome.trans hslot)
    rw [hhome, hslot] at hcurrent
    unfold WriteSnapshot.installed
    rw [if_pos hdelta, hcurrent]

/-! ## What is published to a list -/

theorem isDeltaWrite_of_entry {w : WriteSnapshot} (hlist : IsList schema k) (hslot : w.slot = k)
    (hunique : w.unique = false) (hsome : w.deltas ≠ []) : w.isDeltaWrite = true := by
  unfold WriteSnapshot.isDeltaWrite
  rw [hslot]
  cases k with
  | row => exact hlist.elim
  | entry =>
    rw [hunique]
    simpa using ⟨hlist.1, hsome⟩

/-- **What a transaction has published to a list** are the deltas of its calls, merged into
what was there. -/
theorem Recorded.wrote (hlist : IsList schema k) (h : Recorded k ops tx)
    (hpublishes : Publishes Merges s t tx) :
    s.Wrote (.tx t) k fun before after =>
      after = (secondaryIndexDeltas k ops).foldl applySecondaryIndexDelta before := by
  cases h with
  | failed hfailed =>
    exact (hpublishes.unwritten (Stage.not_decided_of_failed hfailed) k).wrote
  | nothing _ hwrites | seeding _ _ hwrites => exact (hpublishes.aims hwrites).wrote
  | @entry w hw hslot hunique hdeltas hsome =>
    have hwrote := hpublishes.wrote hw
    rw [hslot] at hwrote
    intro n v hv howner
    rw [← hdeltas]
    exact hwrote n v hv howner (isDeltaWrite_of_entry hlist hslot hunique hsome)

/-- A committed transaction has published its calls. -/
theorem Recorded.published {R : WriteSnapshot → Content → Content → Prop}
    (h : Recorded k ops tx) (hpublishes : Publishes R s t tx) (hcommitted : tx.stage = .committed)
    (hops : writesTo k ops ≠ []) :
    ∃ (n : ℕ) (v : Owner × Version), (s.versions k)[n]? = some v ∧ v.1 = .tx t := by
  cases h with
  | failed hfailed =>
    rw [hcommitted] at hfailed
    cases hfailed
  | nothing hnone => exact absurd hnone hops
  | seeding _ _ _ hstage =>
    rw [hcommitted] at hstage
    cases hstage
  | entry hw hslot =>
    have hversion := (hpublishes.version hcommitted hw).version
    rw [hslot] at hversion
    exact hversion

end LineairDB.Native
