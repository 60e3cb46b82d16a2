import LineairDB.Native.Lists

/-!
# Reads of primary-key lists

`ReadSecondaryIndex` answers from the transaction's own writes, refreshed by a
new copy of the list, from its own reads, or from a copy it makes now. Every one
of these goes back to a copy that is registered for validation, unless the entry
has no slot: then the answer is empty and nothing is registered.

* `Lists.step` — a list that was read and not written is registered.
* `answer_seen` — what `ReadSecondaryIndex` answers are the transaction's own
  calls on top of a registered list.
-/

namespace LineairDB.Native

open Silo ByteFile
open Stateless (Schema)
open Recovery (WriteOp secondaryIndexDeltas applySecondaryIndexDelta)

variable {copy : Content} {purpose : Purpose} {item : ItemId} {tid : TransactionId}
  {copying : Copying} {x : Access × Transaction × List Candidate} {w : WriteSnapshot}

/-- `SecondaryIndexReadResult`: what `ReadSecondaryIndex` hands back. -/
def Transaction.answer (tx : Transaction) (k : Slot) : List Bytes :=
  match tx.findWrite k with
  | some ownWrite => ownWrite.copy.primaryKeys
  | none => ((tx.findRead k).map fun ownRead => ownRead.copy.primaryKeys).getD []

/-- The step ends a `ReadSecondaryIndex` of the entry `k`. -/
def Answers (k : Slot) (choice : Choice) (tx tx' : Transaction) : Prop :=
  tx'.stage = .running ∧
    ((∃ tableName indexName key, choice = .readSecondaryIndex tableName indexName key ∧
        .entry tableName indexName key = k) ∨
      ∃ item copying, tx.stage = .reading (.read k) item copying ∨
        tx.stage = .reading (.refresh k) item copying)

/-- A `ReadSecondaryIndex` of the entry finds a slot for it, and confirms its copy while the
item is attached. -/
def Transaction.finds (s : Store) (tx : Transaction) (k : Slot) : Choice → Bool
  | .readSecondaryIndex tableName indexName key =>
    .entry tableName indexName key != k || (tx.findWrite k).isSome || (tx.findRead k).isSome ||
      (s.index k).isSome
  | .next _ _ =>
    match tx.stage with
    | .reading purpose item (.reload tid _) =>
      purpose.slot != k || !purpose.validated || (s.item item).word != tid || s.Attached item
    | _ => true
  | _ => true

variable {schema : Schema} {s s' : Store} {t : ℕ} {tx tx' : Transaction} {k : Slot}
  {ops : List WriteOp} {choice : Choice} {a : Access} {candidates : List Candidate}

/-! ## Lists that were read -/

/-- The list was as copied at `position`, and is registered there. -/
structure Seen (s : Store) (tx : Transaction) (k : Slot) (copy : Content) (position : ℕ) :
    Prop where
  before : copy = s.before k position
  le : position ≤ (s.versions k).length
  registered : ∃ e ∈ tx.validationSet, e.slot = k ∧ e.position = position ∧ e.attached = true

theorem Seen.grows {position : ℕ} (h : Seen s tx k copy position)
    (hversions : s.versions k <+: s'.versions k)
    (hvalidation : ∀ e ∈ tx.validationSet, ∃ e' ∈ tx'.validationSet,
      e'.slot = e.slot ∧ e'.position = e.position ∧ e'.attached = e.attached) :
    Seen s' tx' k copy position where
  before := by
    rw [Store.before_of_prefix hversions h.le]
    exact h.before
  le := Nat.le_trans h.le hversions.length_le
  registered := by
    obtain ⟨e, he, hslot, hposition, hattached⟩ := h.registered
    obtain ⟨e', he', hslot', hposition', hattached'⟩ := hvalidation e he
    exact ⟨e', he', hslot'.trans hslot, hposition'.trans hposition, hattached'.trans hattached⟩

/-- A copy that is confirmed on an attached item is the list as it is. -/
theorem Confirms.seen (hlist : IsList schema k) (hstore : StoreInv s) (hinv : TransactionInv s t tx)
    (hwrap : s.NoWrap) (h : Confirms s tx purpose item tid copy tx') (hslot : purpose.slot = k)
    (hvalidated : purpose.validated = true) (hfinds : tx.finds s k (.next 0 true) = true) :
    Seen s tx' k copy (s.item item).seen := by
  have hatt : s.Attached item := by
    unfold Transaction.finds at hfinds
    rw [h.stage] at hfinds
    simpa [hslot, hvalidated, h.word] using hfinds
  have hreading := hinv.stage
  rw [h.stage] at hreading
  obtain ⟨-, -, hhome, -, hat⟩ := hreading
  rw [hslot] at hhome
  have hclean := AtVersion.clean hat hstore h.word
  have hcopy : copy = (s.item item).content := AtVersion.reload hat hstore hwrap h.word
  have hseen := (hstore.attached _ _ hatt).seen
  rw [hhome] at hseen
  refine ⟨?_, Nat.le_of_eq hseen, _, h.registered hvalidated, hslot, rfl, decide_eq_true hatt⟩
  cases k with
  | row => exact hlist.elim
  | entry =>
    have hcurrent := hstore.attached_entry hatt hclean hhome
    rw [hhome] at hcurrent
    rw [hcopy, ← hcurrent, hseen]
    rfl

/-- What a transaction asks for it has not got, and what it refreshes it has. -/
def Asks (k : Slot) (tx : Transaction) : Prop :=
  ∀ item copying,
    (tx.stage = .reading (.read k) item copying →
      (∀ w ∈ tx.writeSet, w.slot ≠ k) ∧ ∀ r ∈ tx.readSet, r.slot ≠ k) ∧
    (tx.stage = .reading (.refresh k) item copying → ∃ w ∈ tx.writeSet, w.slot = k)

/-- A copy is under way because it was, or because the call has just asked for it. -/
theorem reading_of_step (h : step schema s t tx choice = some x)
    (hstage' : x.2.1.stage = .reading purpose item copying) :
    x.2.1.writeSet = tx.writeSet ∧ x.2.1.readSet = tx.readSet ∧
      ((∃ copying, tx.stage = .reading purpose item copying) ∨ choice.Asks schema tx purpose) := by
  cases step_move h with
  | answer | miss => exact ⟨rfl, rfl, .inl ⟨copying, hstage'⟩⟩
  | look hstage hasks =>
    cases hstage'
    exact ⟨rfl, rfl, .inr hasks⟩
  | copy hstage =>
    cases hstage'
    exact ⟨rfl, rfl, .inl ⟨_, hstage⟩⟩
  | confirm => rcases copied_stage with hstage | hstage <;> cases hstage'.symm.trans hstage
  | put => rcases putSecondaryIndex_stage with hstage | hstage <;> cases hstage'.symm.trans hstage
  | @commit _ valid hcommitting =>
    have hcollecting := commitStep_not_collecting (s := s) (t := t) hcommitting valid
    rw [hstage'] at hcollecting
    cases hcollecting
  | _ => cases hstage'

theorem slot_of_findWrite (h : tx.findWrite k = some w) : w.slot = k := by
  simpa using List.find?_some h

theorem ne_of_findWrite_none (h : tx.findWrite k = none) : ∀ w ∈ tx.writeSet, w.slot ≠ k :=
  fun w hw hslot => List.find?_eq_none.mp h w hw (decide_eq_true hslot)

theorem ne_of_findRead_none (h : tx.findRead k = none) : ∀ r ∈ tx.readSet, r.slot ≠ k :=
  fun r hr hslot => List.find?_eq_none.mp h r hr (decide_eq_true hslot)

theorem Asks.step (h : Asks k tx) (hstep : step schema s t tx choice = some x) : Asks k x.2.1 := by
  refine fun item copying => ⟨fun hstage' => ?_, fun hstage' => ?_⟩
  · obtain ⟨hwrites, hreads, hasks⟩ := reading_of_step hstep hstage'
    rw [hwrites, hreads]
    rcases hasks with ⟨copying', hstage⟩ | hasks
    · exact (h item copying').1 hstage
    · cases hasks with
      | read hwrite hread | readSecondaryIndex hwrite hread =>
        exact ⟨ne_of_findWrite_none hwrite, ne_of_findRead_none hread⟩
  · obtain ⟨hwrites, -, hasks⟩ := reading_of_step hstep hstage'
    rw [hwrites]
    rcases hasks with ⟨copying', hstage⟩ | hasks
    · exact (h item copying').2 hstage
    · cases hasks with
      | refresh hwrite =>
        exact ⟨_, List.mem_of_find?_eq_some hwrite, slot_of_findWrite hwrite⟩

/-- What a transaction knows of a list: as long as it has not written it, whatever it has
read of it is registered. -/
structure Lists (k : Slot) (s : Store) (tx : Transaction) : Prop where
  asks : Asks k tx
  read : s.NoWrap → tx.stage.failed = false → (∀ w ∈ tx.writes, w.slot ≠ k) →
    ∀ r ∈ tx.readSet, r.slot = k → Seen s tx k r.copy r.position

theorem lists_start (k : Slot) (s : Store) : Lists k s ⟨[], [], [], [], .running⟩ where
  asks _ _ := ⟨fun hstage => (by cases hstage), fun hstage => (by cases hstage)⟩
  read _ _ _ _ hr := nomatch hr

theorem Lists.rely (h : Lists k s tx) (hrely : Rely (.tx t) s s') : Lists k s' tx where
  asks := h.asks
  read hwrap hfailed hwrites r hr hslot :=
    (h.read (hwrap.of_grows hrely.toGrows) hfailed hwrites r hr hslot).grows (hrely.versions k)
      fun e he => ⟨e, he, rfl, rfl, rfl⟩

/-- A seed writes its entry, or the transaction gives up. -/
theorem Confirms.written {tableName indexName key primaryKey : Bytes} {unique : Bool}
    {op : Recovery.SecondaryIndexOp}
    (h : Confirms s tx (.seed tableName indexName key unique op primaryKey) item tid copy tx') :
    tx'.stage.failed = true ∨ ∃ w ∈ tx'.writes, w.slot = .entry tableName indexName key := by
  rw [h.eq]
  simp only [Transaction.copied, Transaction.putSecondaryIndex]
  split_ifs
  · exact .inl rfl
  · refine .inr ⟨.edit op primaryKey
      ⟨.entry tableName indexName key, item, copy, .empty, false, unique, []⟩, ?_, rfl⟩
    rw [writes_of_collecting rfl]
    exact List.mem_concat_self

/-- **A list that was read and not written is registered**, when the reads of it find it. -/
theorem Lists.step (hlist : IsList schema k) (hstore : StoreInv s) (hinv : TransactionInv s t tx)
    (h : Lists k s tx) (hfinds : tx.finds s k choice = true)
    (hstep : step schema s t tx choice = some (a, tx', candidates)) :
    Lists k (s.access (.tx t) a) tx' where
  asks := h.asks.step hstep
  read hwrap' hfailed' hwrites' r hr hslot := by
    have hversions := s.versions_access (.tx t) a k
    have hwrap : s.NoWrap := hwrap'.of_grows (s.grows_access (.tx t) (.tx t) a)
    rcases step_read hstep hr with hr | ⟨purpose, item, tid, copy, hconfirms, rfl⟩
    · have hfailed : tx.stage.failed = false := by
        refine eq_false_of_ne_true fun hfailed => ?_
        rw [failed_keeps hstep hfailed] at hfailed'
        cases hfailed'
      have hwrites : ∀ w ∈ tx.writes, w.slot ≠ k := by
        intro w hw hslot
        rcases step_writes hstep hw with hfailed | ⟨w', hw', hchanged⟩
        · rw [hfailed] at hfailed'
          cases hfailed'
        · exact hwrites' w' hw' (hchanged.slot.trans hslot)
      exact (h.read hwrap hfailed hwrites r hr hslot).grows hversions
        fun e he => step_validationSet hstep he
    · have hnext : tx.finds s k (.next 0 true) = true := by
        obtain ⟨byte, valid, rfl⟩ := (step_reading hconfirms.stage hstep).1
        exact hfinds
      have hseen : purpose.validated = true → Seen s tx' k copy (s.item item).seen :=
        fun hvalidated => hconfirms.seen hlist hstore hinv hwrap hslot hvalidated hnext
      have hvalidated : purpose.validated = true := by
        cases purpose with
        | seed =>
          -- the seed has written the list
          rcases hconfirms.written with hfailed | ⟨w, hw, hwslot⟩
          · rw [hfailed] at hfailed'
            cases hfailed'
          · exact absurd (hwslot.trans hslot) (hwrites' w hw)
        | _ => rfl
      exact (hseen hvalidated).grows hversions fun e he => ⟨e, he, rfl, rfl, rfl⟩

/-! ## Answers -/

/-- Calls on a list that is not in the write set there have been none. -/
theorem Recorded.deltas_nil (h : Recorded k ops tx) (hcollecting : tx.stage.collecting = true)
    (hseed : ∀ tableName indexName key unique op primaryKey item copying,
      tx.stage ≠ .reading (.seed tableName indexName key unique op primaryKey) item copying)
    (hwrites : ∀ w ∈ tx.writeSet, w.slot ≠ k) : secondaryIndexDeltas k ops = [] := by
  cases h with
  | failed hfailed => exact absurd hfailed (Stage.not_failed hcollecting)
  | nothing hops => exact secondaryIndexDeltas_of_writesTo hops
  | seeding _ _ _ hstage => exact absurd hstage (hseed _ _ _ _ _ _ _ _)
  | entry hw hslot =>
    rw [writes_of_collecting hcollecting] at hw
    exact absurd hslot (hwrites _ hw)

/-- The entry of a list in the write set is the one that records the calls. -/
theorem Recorded.deltas_of_mem (hlist : IsList schema k) (h : Recorded k ops tx)
    (hcollecting : tx.stage.collecting = true) (hentries : Entries s tx.writeSet)
    (hw : w ∈ tx.writeSet) (hslot : w.slot = k) :
    w.isDeltaWrite = true ∧ w.deltas = secondaryIndexDeltas k ops := by
  have hwrites := writes_of_collecting hcollecting
  cases h with
  | failed hfailed => exact absurd hfailed (Stage.not_failed hcollecting)
  | nothing _ hnone | seeding _ _ hnone =>
    rw [hwrites] at hnone
    exact absurd hslot (hnone w hw)
  | @entry w' hw' hslot' hunique hdeltas hsome =>
    rw [hwrites] at hw'
    cases hentries.eq_of_slot hw hw' (hslot.trans hslot'.symm)
    exact ⟨isDeltaWrite_of_entry hlist hslot hunique hsome, hdeltas⟩

theorem answer_of_read {r : ReadSnapshot} (hwrite : tx.findWrite k = none)
    (hread : tx.findRead k = some r) : tx.answer k = r.copy.primaryKeys := by
  unfold Transaction.answer
  rw [hwrite, hread]
  rfl

theorem answer_of_write (hwrite : tx.findWrite k = some w) : tx.answer k = w.copy.primaryKeys := by
  unfold Transaction.answer
  rw [hwrite]

/-- An answer that is given at once comes from the read set. -/
theorem answer_now {tableName indexName key : Bytes}
    (hlist : IsList schema (.entry tableName indexName key)) (hinv : TransactionInv s t tx)
    (hwrap : s.NoWrap) (h : Lists (.entry tableName indexName key) s tx)
    (hrecorded : Recorded (.entry tableName indexName key) ops tx)
    (hfinds : tx.finds s (.entry tableName indexName key)
      (.readSecondaryIndex tableName indexName key) = true)
    (hstep : step schema s t tx (.readSecondaryIndex tableName indexName key)
      = some (a, tx', candidates)) (hstage' : tx'.stage = .running) :
    ∃ copy position, Seen s tx' (.entry tableName indexName key) copy position ∧
      tx'.answer (.entry tableName indexName key)
        = ((secondaryIndexDeltas (.entry tableName indexName key) ops).foldl
          applySecondaryIndexDelta copy).primaryKeys := by
  have hstage : tx.stage = .running := by
    cases hstage : tx.stage with
    | running => rfl
    | _ => simp [step, hstage] at hstep
  have hcollecting : tx.stage.collecting = true := by
    rw [hstage]
    rfl
  have hrunning := hinv.stage
  rw [hstage] at hrunning
  simp only [step, hstage] at hstep
  obtain ⟨y, hy, heq⟩ := Option.map_eq_some_iff.mp hstep
  cases heq
  obtain ⟨index, -, rfl⟩ := Option.map_eq_some_iff.mp hy
  cases index with
  | none => cases hstage'
  | some =>
    unfold Transaction.readSecondaryIndex at hstage' ⊢
    cases hwrite : tx.findWrite (.entry tableName indexName key) with
    | some =>
      -- an entry of the write set is refreshed first
      have hdelta := (hrecorded.deltas_of_mem hlist hcollecting hrunning.entries
        (List.mem_of_find?_eq_some hwrite) (slot_of_findWrite hwrite)).1
      simp only [hwrite, hdelta, if_true] at hstage'
      cases hstage'
    | none =>
      have hnone := ne_of_findWrite_none hwrite
      have hdeltas := hrecorded.deltas_nil hcollecting
        (fun _ _ _ _ _ _ _ _ heq => by rw [hstage] at heq; cases heq) hnone
      cases hread : tx.findRead (.entry tableName indexName key) with
      | some r =>
        have hslot : r.slot = .entry tableName indexName key := by
          simpa using List.find?_some hread
        refine ⟨r.copy, r.position, ?_, ?_⟩
        · refine h.read hwrap (by rw [hstage]; rfl) ?_ r (List.mem_of_find?_eq_some hread) hslot
          rw [writes_of_collecting hcollecting]
          exact hnone
        · rw [hdeltas]
          exact answer_of_read hwrite hread
      | none =>
        -- the entry has a slot, so a copy is made
        have hindex : (s.index (.entry tableName indexName key)).isSome = true := by
          simpa [Transaction.finds, hwrite, hread] using hfinds
        obtain ⟨item, hitem⟩ := Option.isSome_iff_exists.mp hindex
        simp only [hwrite, hread, Transaction.readSlot, hitem] at hstage'
        cases hstage'

/-- A new entry of the read set is found when there was none. -/
theorem findRead_copied (h : Confirms s tx (.read k) item tid copy tx')
    (hreads : ∀ r ∈ tx.readSet, r.slot ≠ k) :
    tx'.findRead k = some ⟨k, copy, (s.item item).seen⟩ := by
  have hset : tx'.readSet = tx.readSet ++ [⟨k, copy, (s.item item).seen⟩] := by
    rw [h.eq]
    rfl
  have hnone : tx.readSet.find? (fun r => decide (r.slot = k)) = none :=
    List.find?_eq_none.mpr fun r hr => by simpa using hreads r hr
  unfold Transaction.findRead
  rw [hset, List.find?_append, hnone]
  simp

/-- The refreshed entry of the write set is found. -/
theorem findWrite_refreshed (h : Confirms s tx (.refresh k) item tid copy tx')
    (hwrites : ∃ w ∈ tx.writeSet, w.slot = k) :
    ∃ w ∈ tx.writeSet, w.slot = k ∧ tx'.findWrite k
      = some { w with copy := w.deltas.foldl applySecondaryIndexDelta copy } := by
  have hset : tx'.writeSet = tx.writeSet.map fun w => if w.slot = k then
      { w with copy := w.deltas.foldl applySecondaryIndexDelta copy } else w := by
    rw [h.eq]
    rfl
  obtain ⟨w, hw, hslot⟩ := hwrites
  cases hfind : tx'.findWrite k with
  | none =>
    refine absurd hslot (ne_of_findWrite_none hfind
      { w with copy := w.deltas.foldl applySecondaryIndexDelta copy } ?_)
    rw [hset]
    refine List.mem_map.mpr ⟨w, hw, ?_⟩
    rw [if_pos hslot]
  | some w' =>
    have hslot' := slot_of_findWrite hfind
    have hmem : w' ∈ tx'.writeSet := List.mem_of_find?_eq_some hfind
    rw [hset] at hmem
    obtain ⟨w₀, hw₀, heq⟩ := List.mem_map.mp hmem
    by_cases hslot₀ : w₀.slot = k
    · rw [if_pos hslot₀] at heq
      exact ⟨w₀, hw₀, hslot₀, by rw [heq]⟩
    · rw [if_neg hslot₀] at heq
      rw [heq] at hslot₀
      exact absurd hslot' hslot₀

/-- **What `ReadSecondaryIndex` answers** are the calls of the transaction so far, on top of a
list that is registered for validation. -/
theorem answer_seen (hlist : IsList schema k) (hstore : StoreInv s) (hinv : TransactionInv s t tx)
    (hwrap : s.NoWrap) (h : Lists k s tx) (hrecorded : Recorded k ops tx)
    (hfinds : tx.finds s k choice = true) (hanswers : Answers k choice tx tx')
    (hstep : step schema s t tx choice = some (a, tx', candidates)) :
    ∃ copy position, Seen s tx' k copy position ∧ tx'.answer k
      = ((secondaryIndexDeltas k ops).foldl applySecondaryIndexDelta copy).primaryKeys := by
  -- a copy that ends the read has been confirmed
  have confirmed : ∀ {purpose item copying}, tx.stage = .reading purpose item copying →
      tx'.stage = .running → ∃ tid copy, Confirms s tx purpose item tid copy tx' := by
    intro purpose item copying hstage hstage'
    rcases (step_reading hstage hstep).2 with ⟨copying', hx⟩ | hconfirms
    · cases (congrArg Transaction.stage hx).symm.trans hstage'
    · exact hconfirms
  obtain ⟨hstage', hread | ⟨item, copying, hstage | hstage⟩⟩ := hanswers
  · obtain ⟨tableName, indexName, key, rfl, rfl⟩ := hread
    exact answer_now hlist hinv hwrap h hrecorded hfinds hstep hstage'
  · obtain ⟨tid, copy, hconfirms⟩ := confirmed hstage hstage'
    obtain ⟨byte, valid, rfl⟩ := (step_reading hstage hstep).1
    obtain ⟨hwrites, hreads⟩ := (h.asks item copying).1 hstage
    have hdeltas := hrecorded.deltas_nil (by rw [hstage]; rfl)
      (fun _ _ _ _ _ _ _ _ heq => by rw [hstage] at heq; cases heq) hwrites
    have hset : tx'.writeSet = tx.writeSet := by
      rw [hconfirms.eq]
      exact writeSet_register
    refine ⟨copy, _, hconfirms.seen hlist hstore hinv hwrap rfl rfl hfinds, ?_⟩
    rw [hdeltas]
    refine answer_of_read (findWrite_none ?_) (findRead_copied hconfirms hreads)
    rw [hset]
    exact hwrites
  · obtain ⟨tid, copy, hconfirms⟩ := confirmed hstage hstage'
    obtain ⟨byte, valid, rfl⟩ := (step_reading hstage hstep).1
    obtain ⟨w, hw, hslot, hfound⟩ := findWrite_refreshed hconfirms ((h.asks item copying).2 hstage)
    have hrunning := hinv.stage
    rw [hstage] at hrunning
    have hdeltas := (hrecorded.deltas_of_mem hlist (by rw [hstage]; rfl) hrunning.1.entries hw
      hslot).2
    refine ⟨copy, _, hconfirms.seen hlist hstore hinv hwrap rfl rfl hfinds, ?_⟩
    rw [answer_of_write hfound, hdeltas]

end LineairDB.Native
