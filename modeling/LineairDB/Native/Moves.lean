import LineairDB.Native.Transaction

/-!
# What a transaction can do

One case for every way a step of a native transaction can end: what a call finds
in the transaction's own sets, which copy it starts, what it makes of the write
set, and when `Precommit` takes over.

* `step_move` — every step is one of these.
* `step_stage` — the user goes on, hands over to `Precommit`, or has.
* `step_rewrites` — what becomes of the write set.
-/

namespace LineairDB.Native

open Silo ByteFile
open Stateless (Schema getOrInsert)
open Recovery (SecondaryIndexOp applySecondaryIndexDelta)

variable {choice : Choice} {key primaryKey tableName value : Bytes} {w w' : WriteSnapshot}
  {unique valid : Bool} {op : SecondaryIndexOp} {x : Access × Transaction × List Candidate}
  {item : ItemId}

/-! ## Calls -/

/-- The call changes the primary keys of a secondary entry. -/
inductive Choice.Edits (schema : Schema) :
    Choice → Bytes → Bytes → Bytes → Bool → SecondaryIndexOp → Bytes → Prop
  | write {tableName indexName key primaryKey : Bytes} {unique : Bool}
      (hindex : secondaryIndex schema tableName indexName = some (some unique)) :
      Edits schema (.writeSecondaryIndex tableName indexName key primaryKey)
        tableName indexName key unique .add primaryKey
  | delete {tableName indexName key primaryKey : Bytes} {unique : Bool}
      (hindex : secondaryIndex schema tableName indexName = some (some unique)) :
      Edits schema (.deleteSecondaryIndex tableName indexName key primaryKey)
        tableName indexName key unique .remove primaryKey

/-- The call needs a copy for this purpose. -/
inductive Choice.Asks (schema : Schema) (tx : Transaction) : Choice → Purpose → Prop
  | read {tableName key : Bytes} (hwrite : tx.findWrite (.row tableName key) = none)
      (hread : tx.findRead (.row tableName key) = none) :
      Asks schema tx (.read tableName key) (.read (.row tableName key))
  | readSecondaryIndex {tableName indexName key : Bytes}
      (hwrite : tx.findWrite (.entry tableName indexName key) = none)
      (hread : tx.findRead (.entry tableName indexName key) = none) :
      Asks schema tx (.readSecondaryIndex tableName indexName key)
        (.read (.entry tableName indexName key))
  | refresh {tableName indexName key : Bytes} {w : WriteSnapshot}
      (hwrite : tx.findWrite (.entry tableName indexName key) = some w)
      (hdelta : w.isDeltaWrite = true) :
      Asks schema tx (.readSecondaryIndex tableName indexName key)
        (.refresh (.entry tableName indexName key))
  | scanRow {tableName key : Bytes} (hwrite : tx.findWrite (.row tableName key) = none)
      (hread : tx.findRead (.row tableName key) = none) :
      Asks schema tx (.scanRow tableName key) (.direct (.row tableName key))
  | seed {choice : Choice} {tableName indexName key primaryKey : Bytes} {unique : Bool}
      {op : SecondaryIndexOp}
      (hedits : choice.Edits schema tableName indexName key unique op primaryKey)
      (hwrite : tx.findWrite (.entry tableName indexName key) = none)
      (hread : tx.findRead (.entry tableName indexName key) = none) :
      Asks schema tx choice (.seed tableName indexName key unique op primaryKey)

/-- The call only reads. -/
def Choice.isRead : Choice → Bool
  | .read _ _ | .readSecondaryIndex _ _ _ | .scanRow _ _ => true
  | _ => false

/-- The call updates a row, or deletes it, which updates it to nothing. -/
def Choice.Updates (choice : Choice) (tableName key value : Bytes) : Prop :=
  choice = .update tableName key value ∨ choice = .delete tableName key ∧ value = []

/-- A row write over the transaction's own. -/
def WriteSnapshot.overwrite (value : Bytes) (isInsert : Bool) (w : WriteSnapshot) : WriteSnapshot :=
  { w with
    copy := { w.copy with buffer := value }
    isInsert := isInsert || w.isInsert }

/-! ## Moves -/

/-- The item of a slot: the one it leads to, the one of the transaction's own write, or a new
one. -/
inductive Finds (s : Store) (tx : Transaction) (slot : Slot) : ItemId → Access → Prop
  | index {item : ItemId} (hindex : s.index slot = some item) : Finds s tx slot item .idle
  | own {w : WriteSnapshot} (hwrite : tx.findWrite slot = some w) : Finds s tx slot w.item .idle
  | create (hindex : s.index slot = none) : Finds s tx slot s.allocated (.insertBlank slot)

/-- One access of a copy, short of the load that confirms it. -/
inductive Copies (s : Store) (item : ItemId) : Copying → Copying → Prop
  | spin (hlocked : (s.item item).word.isLocked = true) : Copies s item .load .load
  | load (hfree : (s.item item).word.isLocked = false) :
      Copies s item .load (.size (s.item item).word)
  | size {tid : TransactionId} :
      Copies s item (.size tid) (.bytes tid (s.item item).content.buffer.length [])
  | byte {tid : TransactionId} {size : ℕ} {value : Bytes} (byte : UInt8)
      (hmore : value.length < size) :
      Copies s item (.bytes tid size value)
        (.bytes tid size (value ++ [((s.item item).content.buffer[value.length]?).getD byte]))
  | bytes {tid : TransactionId} {size : ℕ} {value : Bytes} (hall : ¬ value.length < size) :
      Copies s item (.bytes tid size value) (.primaryKeys tid value)
  | primaryKeys {tid : TransactionId} {value : Bytes} :
      Copies s item (.primaryKeys tid value)
        (.reload tid ⟨value, (s.item item).content.primaryKeys⟩)
  | retry {tid : TransactionId} {copy : Content} (hmoved : (s.item item).word ≠ tid) :
      Copies s item (.reload tid copy) .load

/-- The user is still at work on the transaction. -/
def Stage.collecting : Stage → Bool
  | .running | .reading _ _ _ | .checking _ _ _ | .writing _ _ _ => true
  | _ => false

/-- What a step of a transaction can be. -/
inductive Move (schema : Schema) (s : Store) (t : ℕ) (tx : Transaction) :
    Choice → Access × Transaction × List Candidate → Prop
  /-- A call refuses, and the transaction gives up. -/
  | refuse {choice : Choice} {a : Access} (hearly : tx.stage = .running ∨
      ∃ slot item value, tx.stage = .checking slot item value)
      (ha : a = .idle ∨ ∃ slot item, Finds s tx slot item a) :
      Move schema s t tx choice (a, tx.abort, [])
  /-- A read is answered from the transaction's own sets. -/
  | answer {choice : Choice} (hstage : tx.stage = .running) (hread : choice.isRead = true) :
      Move schema s t tx choice (.idle, tx, [])
  /-- A key without a slot is reported as not found. -/
  | miss {choice : Choice} {slot : Slot} (hstage : tx.stage = .running)
      (hread : choice.isRead = true) (hindex : s.index slot = none) :
      Move schema s t tx choice
        (.observe slot (s.versions slot).length,
          { tx with missing := tx.missing ++ [(slot, (s.versions slot).length)] }, [])
  | look {choice : Choice} {purpose : Purpose} {item : ItemId} {a : Access}
      (hstage : tx.stage = .running) (hasks : choice.Asks schema tx purpose)
      (hfinds : Finds s tx purpose.slot item a) :
      Move schema s t tx choice (a, { tx with stage := .reading purpose item .load }, [])
  | copy {byte : UInt8} {valid : Bool} {purpose : Purpose} {item : ItemId}
      {copying copying' : Copying} (hstage : tx.stage = .reading purpose item copying)
      (hcopies : Copies s item copying copying') :
      Move schema s t tx (.next byte valid)
        (.idle, { tx with stage := .reading purpose item copying' }, [])
  | confirm {byte : UInt8} {valid : Bool} {purpose : Purpose} {item : ItemId}
      {tid : TransactionId} {copy : Content}
      (hstage : tx.stage = .reading purpose item (.reload tid copy))
      (hword : (s.item item).word = tid) :
      Move schema s t tx (.next byte valid)
        (if purpose.validated then .observe purpose.slot (s.item item).seen else .idle,
          (tx.register purpose item tid (s.item item).seen (s.Attached item)).copied purpose item
            copy (s.item item).seen, [])
  /-- `Update` and `Delete` have found an item for the key. -/
  | check {choice : Choice} {tableName key value : Bytes} {item : ItemId}
      (hstage : tx.stage = .running) (hupdates : choice.Updates tableName key value)
      (hwrite : tx.findWrite (.row tableName key) = none)
      (hindex : s.index (.row tableName key) = some item) :
      Move schema s t tx choice
        (.idle, { tx with stage := .checking (.row tableName key) item value }, [])
  | checked {byte : UInt8} {valid : Bool} {slot : Slot} {item : ItemId} {value : Bytes}
      (hstage : tx.stage = .checking slot item value)
      (hlive : (s.item item).content.isPrimaryInitialized = true) :
      Move schema s t tx (.next byte valid)
        (.idle, { tx with stage := .writing slot value false }, [])
  /-- `Insert` has claimed the key. -/
  | claim {tableName key value : Bytes} {item : ItemId} {a : Access}
      (hstage : tx.stage = .running) (hwrite : tx.findWrite (.row tableName key) = none)
      (hfinds : Finds s tx (.row tableName key) item a) :
      Move schema s t tx (.insert tableName key value)
        (a, { tx with stage := .writing (.row tableName key) value true }, [])
  | overwrite {choice : Choice} {slot : Slot} {value : Bytes} {isInsert : Bool}
      (hearly : tx.stage = .running ∧ (∃ tableName key, slot = .row tableName key) ∨
        tx.stage = .writing slot value isInsert)
      (hwrite : (tx.findWrite slot).isSome = true) :
      Move schema s t tx choice
        (.idle, tx.modifyWrite slot (WriteSnapshot.overwrite value isInsert), [])
  | append {choice : Choice} {slot : Slot} {value : Bytes} {isInsert : Bool} {item : ItemId}
      {a : Access}
      (hearly : tx.stage = .running ∧ isInsert = false ∧
          (∃ tableName key, slot = .row tableName key ∧ choice = .write tableName key value) ∨
        tx.stage = .writing slot value isInsert)
      (hwrite : tx.findWrite slot = none) (hfinds : Finds s tx slot item a) :
      Move schema s t tx choice
        (a,
          { tx with
            writeSet := tx.writeSet ++ [⟨slot, item, ⟨value, []⟩, .empty, isInsert, false, []⟩]
            stage := .running }, [])
  /-- An entry the transaction has written already. -/
  | edit {choice : Choice} {tableName indexName key primaryKey : Bytes} {unique : Bool}
      {op : SecondaryIndexOp} {item : ItemId} {a : Access} (hstage : tx.stage = .running)
      (hedits : choice.Edits schema tableName indexName key unique op primaryKey)
      (hwrite : (tx.findWrite (.entry tableName indexName key)).isSome = true)
      (hop : ¬ (op = .add ∧ unique = true))
      (hfinds : Finds s tx (.entry tableName indexName key) item a) :
      Move schema s t tx choice
        (a, tx.modifyWrite (.entry tableName indexName key) (WriteSnapshot.edit op primaryKey), [])
  /-- An entry the transaction has read already. -/
  | put {choice : Choice} {tableName indexName key primaryKey : Bytes} {unique : Bool}
      {op : SecondaryIndexOp} {r : ReadSnapshot} {item : ItemId} {a : Access}
      (hstage : tx.stage = .running)
      (hedits : choice.Edits schema tableName indexName key unique op primaryKey)
      (hwrite : tx.findWrite (.entry tableName indexName key) = none)
      (hread : tx.findRead (.entry tableName indexName key) = some r)
      (hfinds : Finds s tx (.entry tableName indexName key) item a) :
      Move schema s t tx choice
        (a, tx.putSecondaryIndex (.entry tableName indexName key) item unique r.copy op primaryKey,
          [])
  | precommit (hstage : tx.stage = .running) :
      Move schema s t tx .precommit
        (.idle,
          { tx with stage := .lock [] (tx.writeSet.insertionSort fun a b => !b.compare a) }, [])
  | commit {byte : UInt8} {valid : Bool} (hcommitting : tx.stage.collecting = false) :
      Move schema s t tx (.next byte valid) (tx.commitStep s t valid tx.stage)

variable {schema : Schema} {s : Store} {t : ℕ} {tx : Transaction} {purpose : Purpose}
  {base : Content}

theorem Finds.collecting {slot : Slot} {a : Access} (h : Finds s tx slot item a) :
    a.Collecting := by
  cases h <;> trivial

theorem finds_getOrInsert (s : Store) (tx : Transaction) (slot : Slot) :
    Finds s tx slot (getOrInsert s slot).1 (getOrInsert s slot).2 := by
  unfold getOrInsert
  split
  · rename_i hindex
    exact .index hindex
  · rename_i hindex
    exact .create hindex

/-! ## Every step is a move -/

theorem not_isSome {slot : Slot} (h : ¬ (tx.findWrite slot).isSome = true) :
    tx.findWrite slot = none := by
  cases hfind : tx.findWrite slot with
  | none => rfl
  | some => simp [hfind] at h

section

variable (hstage : tx.stage = .running)

include hstage

theorem read_move {slot : Slot} (hread : choice.isRead = true)
    (hasks : tx.findWrite slot = none → tx.findRead slot = none →
      choice.Asks schema tx (.read slot)) :
    Move schema s t tx choice ((tx.read s slot).1, (tx.read s slot).2, []) := by
  unfold Transaction.read
  split_ifs with hown
  · exact .answer hstage hread
  · rw [not_or] at hown
    have hwrite := not_isSome hown.1
    have hnone : tx.findRead slot = none := by simpa using hown.2
    unfold Transaction.readSlot
    split
    · rename_i hindex
      exact .miss hstage hread hindex
    · rename_i hindex
      exact .look hstage (hasks hwrite hnone) (.index hindex)

theorem readSecondaryIndex_move {indexName : Bytes} :
    Move schema s t tx (.readSecondaryIndex tableName indexName key)
      ((tx.readSecondaryIndex s (.entry tableName indexName key)).1,
        (tx.readSecondaryIndex s (.entry tableName indexName key)).2, []) := by
  unfold Transaction.readSecondaryIndex
  split
  · rename_i w hwrite
    split_ifs with hdelta
    · exact .look hstage (.refresh hwrite hdelta) (.own hwrite)
    · exact .answer hstage rfl
  · rename_i hwrite
    split_ifs with hown
    · exact .answer hstage rfl
    · have hnone : tx.findRead (.entry tableName indexName key) = none := by simpa using hown
      unfold Transaction.readSlot
      split
      · rename_i hindex
        exact .miss hstage rfl hindex
      · rename_i hindex
        exact .look hstage (.readSecondaryIndex hwrite hnone) (.index hindex)

theorem scanRow_move :
    Move schema s t tx (.scanRow tableName key)
      ((tx.scanRow s (.row tableName key)).1, (tx.scanRow s (.row tableName key)).2, []) := by
  unfold Transaction.scanRow
  split_ifs with hown
  · exact .answer hstage rfl
  · rw [not_or] at hown
    have hnone : tx.findRead (.row tableName key) = none := by simpa using hown.2
    exact .look hstage (.scanRow (not_isSome hown.1) hnone) (finds_getOrInsert s tx _)

omit hstage in
theorem write_move {slot : Slot} {isInsert : Bool}
    (hearly : tx.stage = .running ∧ isInsert = false ∧
        (∃ tableName key, slot = .row tableName key ∧ choice = .write tableName key value) ∨
      tx.stage = .writing slot value isInsert) :
    Move schema s t tx choice
      ((tx.write s slot value isInsert).1, (tx.write s slot value isInsert).2, []) := by
  unfold Transaction.write
  split_ifs with hwrite
  · refine .overwrite (hearly.imp_left ?_) hwrite
    rintro ⟨hstage, -, tableName, key, hslot, -⟩
    exact ⟨hstage, tableName, key, hslot⟩
  · exact .append hearly (not_isSome hwrite) (finds_getOrInsert s tx slot)

/-- A row write over the transaction's own, for a call that has found it. -/
theorem overwrite_move (hwrite : tx.findWrite (.row tableName key) = some w) :
    Move schema s t tx choice
      ((tx.write s (.row tableName key) value false).1,
        (tx.write s (.row tableName key) value false).2, []) := by
  have hfound : (tx.findWrite (.row tableName key)).isSome = true := by rw [hwrite]; rfl
  unfold Transaction.write
  rw [if_pos hfound]
  exact .overwrite (.inl ⟨hstage, tableName, key, rfl⟩) hfound

theorem insert_move :
    Move schema s t tx (.insert tableName key value) ((tx.insert s (.row tableName key) value).1,
        (tx.insert s (.row tableName key) value).2, []) := by
  unfold Transaction.insert
  split
  · rename_i w hwrite
    split_ifs
    · exact .refuse (.inl hstage) (.inl rfl)
    · exact overwrite_move hstage hwrite
  · rename_i hwrite
    split
    · rename_i hindex
      split_ifs
      · exact .refuse (.inl hstage) (.inl rfl)
      · exact .claim hstage hwrite (.index hindex)
    · rename_i hindex
      exact .claim hstage hwrite (.create hindex)

theorem update_move (hupdates : choice.Updates tableName key value) :
    Move schema s t tx choice
      ((tx.update s (.row tableName key) value).1,
        (tx.update s (.row tableName key) value).2, []) := by
  unfold Transaction.update
  split
  · rename_i w hwrite
    split_ifs
    · exact overwrite_move hstage hwrite
    · exact .refuse (.inl hstage) (.inl rfl)
  · rename_i hwrite
    split
    · rename_i item hindex
      exact .check hstage hupdates hwrite hindex
    · exact .refuse (.inl hstage) (.inl rfl)

theorem editSecondaryIndex_move {indexName : Bytes}
    (hedits : choice.Edits schema tableName indexName key unique op primaryKey) :
    Move schema s t tx choice
      ((tx.editSecondaryIndex s tableName indexName key unique op primaryKey).1,
        (tx.editSecondaryIndex s tableName indexName key unique op primaryKey).2, []) := by
  have hfinds := finds_getOrInsert s tx (.entry tableName indexName key)
  unfold Transaction.editSecondaryIndex
  dsimp only
  split_ifs with hwrite hop
  · exact .refuse (.inl hstage) (.inr ⟨_, _, hfinds⟩)
  · exact .edit hstage hedits hwrite hop hfinds
  · have hnew := not_isSome hwrite
    split
    · rename_i r hread
      exact .put hstage hedits hnew hread hfinds
    · rename_i hread
      exact .look hstage (.seed hedits hnew hread) hfinds

theorem call_move {x : Access × Transaction}
    (hcall : call schema s tx choice = some x) : Move schema s t tx choice (x.1, x.2, []) := by
  have hrefuse : ∀ {choice}, Move schema s t tx choice (.idle, tx.abort, []) :=
    .refuse (.inl hstage) (.inl rfl)
  cases choice with
  | read =>
    obtain ⟨_, -, rfl⟩ := Option.map_eq_some_iff.mp hcall
    exact read_move hstage rfl .read
  | readSecondaryIndex =>
    obtain ⟨index, -, rfl⟩ := Option.map_eq_some_iff.mp hcall
    cases index with
    | none => exact hrefuse
    | some => exact readSecondaryIndex_move hstage
  | scanRow =>
    obtain ⟨_, -, rfl⟩ := Option.map_eq_some_iff.mp hcall
    exact scanRow_move hstage
  | write tableName key =>
    obtain ⟨_, -, rfl⟩ := Option.map_eq_some_iff.mp hcall
    exact write_move (.inl ⟨hstage, rfl, tableName, key, rfl, rfl⟩)
  | insert =>
    obtain ⟨_, -, rfl⟩ := Option.map_eq_some_iff.mp hcall
    exact insert_move hstage
  | update =>
    obtain ⟨_, -, rfl⟩ := Option.map_eq_some_iff.mp hcall
    exact update_move hstage (.inl rfl)
  | delete =>
    obtain ⟨_, -, rfl⟩ := Option.map_eq_some_iff.mp hcall
    exact update_move hstage (.inr ⟨rfl, rfl⟩)
  | writeSecondaryIndex =>
    obtain ⟨index, hindex, rfl⟩ := Option.map_eq_some_iff.mp hcall
    cases index with
    | none => exact hrefuse
    | some => exact editSecondaryIndex_move hstage (.write hindex)
  | deleteSecondaryIndex =>
    obtain ⟨index, hindex, rfl⟩ := Option.map_eq_some_iff.mp hcall
    cases index with
    | none => exact hrefuse
    | some => exact editSecondaryIndex_move hstage (.delete hindex)
  | abort =>
    cases hcall
    exact hrefuse
  | precommit =>
    cases hcall
    exact .precommit hstage
  | next => cases hcall

end

theorem copyStep_move {byte : UInt8} {copying : Copying}
    (hstage : tx.stage = .reading purpose item copying) :
    Move schema s t tx (.next byte valid) ((tx.copyStep s purpose item byte copying).1,
        (tx.copyStep s purpose item byte copying).2, []) := by
  fun_cases Transaction.copyStep s tx purpose item byte copying with
  | case1 tid hlocked =>
    have hmove : Move schema s t tx (.next byte valid) _ := .copy hstage (.spin hlocked)
    rwa [← hstage] at hmove
  | case2 tid hfree => exact .copy hstage (.load (eq_false_of_ne_true hfree))
  | case3 => exact .copy hstage .size
  | case4 tid size value hmore => exact .copy hstage (.byte byte hmore)
  | case5 tid size value hall => exact .copy hstage (.bytes hall)
  | case6 => exact .copy hstage .primaryKeys
  | case7 => exact .confirm hstage rfl
  | case8 tid copy x hword => exact .copy hstage (.retry hword)

/-- **Every step of a transaction is one of its moves.** -/
theorem step_move (h : step schema s t tx choice = some x) : Move schema s t tx choice x := by
  have called : ∀ choice, ((call schema s tx choice).map fun y => (y.1, y.2, []))
      = some x → tx.stage = .running → Move schema s t tx choice x := by
    intro choice hcall hstage
    obtain ⟨y, hy, rfl⟩ := Option.map_eq_some_iff.mp hcall
    exact call_move hstage hy
  cases choice with
  | next =>
    cases hstage : tx.stage with
    | running | committed | aborted => simp [step, hstage] at h
    | reading =>
      simp only [step, hstage] at h
      cases h
      exact copyStep_move hstage
    | checking slot item value =>
      simp only [step, hstage] at h
      split_ifs at h with hlive
      · cases h
        exact .checked hstage hlive
      · cases h
        exact .refuse (.inr ⟨slot, item, value, hstage⟩) (.inl rfl)
    | writing =>
      simp only [step, hstage] at h
      cases h
      exact write_move (.inr hstage)
    | _ =>
      simp only [step, hstage] at h
      cases h
      rw [← hstage]
      exact .commit (by rw [hstage]; rfl)
  | _ =>
    cases hstage : tx.stage with
    | running =>
      simp only [step, hstage] at h
      exact called _ h hstage
    | _ => simp [step, hstage] at h

/-! ## Collecting and committing -/

theorem putSecondaryIndex_stage {slot : Slot} :
    (tx.putSecondaryIndex slot item unique base op primaryKey).stage = .running ∨
      (tx.putSecondaryIndex slot item unique base op primaryKey).stage = .aborted := by
  unfold Transaction.putSecondaryIndex
  split_ifs
  · exact .inr rfl
  · exact .inl rfl

/-- A copy that has been confirmed ends the call. -/
theorem copied_stage {copy : Content} {position : ℕ} :
    (tx.copied purpose item copy position).stage = .running ∨
      (tx.copied purpose item copy position).stage = .aborted := by
  cases purpose with
  | seed => exact putSecondaryIndex_stage
  | _ => exact .inl rfl

/-- **The stages of a step**: the user goes on or gives up, hands the transaction to
`Precommit`, or it is there. -/
theorem step_stage (h : step schema s t tx choice = some x) :
    tx.stage.collecting = true ∧ x.1.Collecting ∧
        (x.2.1.stage.collecting = true ∨ x.2.1.stage = .aborted) ∨
      tx.stage = .running ∧ choice = .precommit ∧
        x = (.idle,
          { tx with stage := .lock [] (tx.writeSet.insertionSort fun a b => !b.compare a) }, []) ∨
      ∃ valid, x = tx.commitStep s t valid tx.stage := by
  have early : ∀ {stage : Stage}, tx.stage = stage → stage.collecting = true →
      tx.stage.collecting = true := by
    intro stage hstage hcollecting
    rw [hstage]
    exact hcollecting
  -- the call is over
  have ended : ∀ {stage : Stage}, stage = .running ∨ stage = .aborted →
      stage.collecting = true ∨ stage = .aborted := by
    rintro stage (rfl | rfl)
    · exact .inl rfl
    · exact .inr rfl
  cases step_move h with
  | @refuse _ a hstage ha =>
    have hcollecting : a.Collecting := by
      rcases ha with rfl | ⟨slot, item, hfinds⟩
      · trivial
      · exact hfinds.collecting
    rcases hstage with hstage | ⟨slot, item, value, hstage⟩ <;>
      exact .inl ⟨early hstage rfl, hcollecting, .inr rfl⟩
  | answer hstage | miss hstage =>
    exact .inl ⟨early hstage rfl, trivial, .inl (early hstage rfl)⟩
  | look hstage _ hfinds | claim hstage _ hfinds | edit hstage _ _ _ hfinds =>
    exact .inl ⟨early hstage rfl, hfinds.collecting, .inl rfl⟩
  | copy hstage | check hstage | checked hstage =>
    exact .inl ⟨early hstage rfl, trivial, .inl rfl⟩
  | confirm hstage =>
    refine .inl ⟨early hstage rfl, ?_, ended copied_stage⟩
    split_ifs <;> trivial
  | overwrite hstage =>
    rcases hstage with ⟨hstage, -⟩ | hstage <;> exact .inl ⟨early hstage rfl, trivial, .inl rfl⟩
  | append hstage _ hfinds =>
    rcases hstage with ⟨hstage, -⟩ | hstage <;>
      exact .inl ⟨early hstage rfl, hfinds.collecting, .inl rfl⟩
  | put hstage _ _ _ hfinds =>
    exact .inl ⟨early hstage rfl, hfinds.collecting, ended putSecondaryIndex_stage⟩
  | precommit hstage => exact .inr (.inl ⟨hstage, rfl, rfl⟩)
  | commit => exact .inr (.inr ⟨_, rfl⟩)

theorem writeSet_register {tid : TransactionId} {position : ℕ} {attached : Bool} :
    (tx.register purpose item tid position attached).writeSet = tx.writeSet := by
  unfold Transaction.register
  split_ifs <;> rfl

theorem putSecondaryIndex_sets {slot : Slot} {tx' : Transaction}
    (h : tx' = tx.putSecondaryIndex slot item unique base op primaryKey) :
    tx'.readSet = tx.readSet ∧ tx'.validationSet = tx.validationSet := by
  subst h
  unfold Transaction.putSecondaryIndex
  split_ifs <;> exact ⟨rfl, rfl⟩

/-- `Precommit` does not go back to collecting. -/
theorem commitStep_not_collecting (hcommitting : tx.stage.collecting = false) (valid : Bool) :
    (tx.commitStep s t valid tx.stage).2.1.stage.collecting = false := by
  revert hcommitting
  generalize hstage : tx.stage = stage
  fun_cases Transaction.commitStep s t tx valid stage with
  | case2 | case22 =>
    rw [hstage]
    exact id
  | _ => exact fun _ => rfl

/-! ## The write set -/

/-- The entries of the write set, as long as the transaction has not given up. -/
def Transaction.writes (tx : Transaction) : List WriteSnapshot :=
  match tx.stage with
  | .lock locked todo => locked ++ todo
  | .attached locked snapshot todo => locked ++ snapshot :: todo
  | .install installed todo => installed ++ todo
  | .unlock _ _ | .aborted => []
  | _ => tx.writeSet

theorem writes_of_collecting (h : tx.stage.collecting = true) : tx.writes = tx.writeSet := by
  unfold Transaction.writes
  cases hstage : tx.stage with
  | running | reading | checking | writing => rfl
  | _ => simp [hstage, Stage.collecting] at h

/-- The transaction is giving its locks back, or has. -/
def Stage.failed : Stage → Bool
  | .unlock _ _ | .aborted => true
  | _ => false

theorem Stage.not_failed {stage : Stage} (h : stage.collecting = true) : ¬ stage.failed = true := by
  cases stage with
  | running | reading | checking | writing => exact Bool.false_ne_true
  | _ => cases h

theorem writes_of_failed (h : tx.stage.failed = true) : tx.writes = [] := by
  unfold Transaction.writes
  cases hstage : tx.stage with
  | unlock | aborted => rfl
  | _ =>
    rw [hstage] at h
    cases h

/-- What a step can make of an entry of the write set. -/
inductive Changed (schema : Schema) (s : Store) (tx : Transaction) (choice : Choice) :
    WriteSnapshot → WriteSnapshot → Prop
  | same {w : WriteSnapshot} : Changed schema s tx choice w w
  /-- `Precommit` gives it the word it was locked under, -/
  | lock {w : WriteSnapshot} (tid : TransactionId) :
      Changed schema s tx choice w { w with tid := tid }
  /-- and the content that was installed. -/
  | install {w : WriteSnapshot} {installed todo : List WriteSnapshot}
      (hstage : tx.stage = .install installed (w :: todo)) :
      Changed schema s tx choice w { w with copy := w.installed (s.item w.item).content }
  | refresh {w : WriteSnapshot} {item : ItemId} {tid : TransactionId} {copy : Content}
      (hstage : tx.stage = .reading (.refresh w.slot) item (.reload tid copy)) :
      Changed schema s tx choice w
        { w with copy := w.deltas.foldl applySecondaryIndexDelta copy }
  | overwrite {w : WriteSnapshot} (value : Bytes) (isInsert : Bool) :
      Changed schema s tx choice w (w.overwrite value isInsert)
  | edit {w : WriteSnapshot} {tableName indexName key primaryKey : Bytes} {unique : Bool}
      {op : SecondaryIndexOp}
      (hedits : choice.Edits schema tableName indexName key unique op primaryKey)
      (hslot : w.slot = .entry tableName indexName key) (hop : ¬ (op = .add ∧ unique = true)) :
      Changed schema s tx choice w (w.edit op primaryKey)

theorem Changed.slot (h : Changed schema s tx choice w w') : w'.slot = w.slot := by
  cases h <;> rfl

/-- What an entry claims it goes on claiming. -/
theorem Changed.isInsert (h : Changed schema s tx choice w w') (hinsert : w.isInsert = true) :
    w'.isInsert = true := by
  cases h with
  | overwrite value isInsert =>
    show (isInsert || w.isInsert) = true
    rw [hinsert, Bool.or_true]
  | _ => exact hinsert

/-- An entry that is new in the write set: a row, or an entry of an index on the copy it
starts from. -/
inductive Fresh (schema : Schema) (tx : Transaction) (choice : Choice) : WriteSnapshot → Prop
  | row {tableName key value : Bytes} {item : ItemId} :
      Fresh schema tx choice ⟨.row tableName key, item, ⟨value, []⟩, .empty, false, false, []⟩
  | writing {slot : Slot} {value : Bytes} {isInsert : Bool} {item : ItemId}
      (hstage : tx.stage = .writing slot value isInsert) :
      Fresh schema tx choice ⟨slot, item, ⟨value, []⟩, .empty, isInsert, false, []⟩
  | put {tableName indexName key primaryKey : Bytes} {unique : Bool} {op : SecondaryIndexOp}
      {r : ReadSnapshot} {item : ItemId}
      (hedits : choice.Edits schema tableName indexName key unique op primaryKey)
      (hread : tx.findRead (.entry tableName indexName key) = some r)
      (hnew : ¬ (op = .add ∧ unique ∧ r.copy.isInitialized)) :
      Fresh schema tx choice (.edit op primaryKey
        ⟨.entry tableName indexName key, item, r.copy, .empty, false, unique, []⟩)
  | seed {tableName indexName key primaryKey : Bytes} {unique : Bool} {op : SecondaryIndexOp}
      {item : ItemId} {tid : TransactionId} {copy : Content}
      (hstage : tx.stage = .reading (.seed tableName indexName key unique op primaryKey) item
        (.reload tid copy)) (hnew : ¬ (op = .add ∧ unique ∧ copy.isInitialized)) :
      Fresh schema tx choice (.edit op primaryKey
        ⟨.entry tableName indexName key, item, copy, .empty, false, unique, []⟩)

/-- What a step does to the write set: the transaction gives up, or entries change, or there
is a new one. -/
inductive Rewrites (schema : Schema) (s : Store) (tx : Transaction) (choice : Choice)
    (tx' : Transaction) : Prop
  | failed (hfailed : tx'.stage.failed = true)
  | changed (hkept : ∀ w ∈ tx.writes, ∃ w' ∈ tx'.writes, Changed schema s tx choice w w')
      (horigin : ∀ w' ∈ tx'.writes, ∃ w ∈ tx.writes, Changed schema s tx choice w w')
  | added {w : WriteSnapshot} (hw : Fresh schema tx choice w)
      (hwrites : tx'.writes = tx.writes ++ [w])

section

variable {tx' : Transaction}

theorem Rewrites.of_perm (h : tx'.writes.Perm tx.writes) : Rewrites schema s tx choice tx' :=
  .changed (fun w hw => ⟨w, h.mem_iff.mpr hw, .same⟩) fun w hw => ⟨w, h.mem_iff.mp hw, .same⟩

theorem Rewrites.of_modify {slot : Slot} {f : WriteSnapshot → WriteSnapshot}
    (hwrites : tx'.writeSet = tx.writes)
    (hf : ∀ w, w.slot = slot → Changed schema s tx choice w (f w)) :
    Rewrites schema s tx choice (tx'.modifyWrite slot f) := by
  have changed : ∀ w, Changed schema s tx choice w (if w.slot = slot then f w else w) := by
    intro w
    split_ifs with hslot
    · exact hf w hslot
    · exact .same
  refine .changed (fun w hw => ⟨_, List.mem_map_of_mem (hwrites ▸ hw), changed w⟩) fun w' hw' => ?_
  obtain ⟨w, hw, rfl⟩ := List.mem_map.mp hw'
  rw [hwrites] at hw
  exact ⟨w, hw, changed w⟩

/-- One entry of the write set is replaced. -/
theorem Rewrites.of_replace {l m : List WriteSnapshot} (htx : tx.writes = l ++ w :: m)
    (htx' : tx'.writes = l ++ w' :: m) (h : Changed schema s tx choice w w') :
    Rewrites schema s tx choice tx' := by
  have other : ∀ {v u u' : WriteSnapshot}, v ∈ l ++ u :: m → v = u ∨ v ∈ l ++ u' :: m := by
    intro v u u' hv
    rcases List.mem_append.mp hv with hv | hv
    · exact .inr (List.mem_append_left _ hv)
    · exact (List.mem_cons.mp hv).imp_right fun hv => List.mem_append_right _ (.tail _ hv)
  refine .changed ?_ ?_
  · rw [htx, htx']
    intro v hv
    rcases other hv with rfl | hv
    · exact ⟨w', List.mem_append_right _ (.head _), h⟩
    · exact ⟨v, hv, .same⟩
  · rw [htx, htx']
    intro v hv
    rcases other hv with rfl | hv
    · exact ⟨w, List.mem_append_right _ (.head _), h⟩
    · exact ⟨v, hv, .same⟩

theorem Rewrites.of_put {slot : Slot} (hwrites : tx'.writeSet = tx.writes)
    (hfresh : ¬ (op = .add ∧ unique ∧ base.isInitialized) → Fresh schema tx choice
      (.edit op primaryKey ⟨slot, item, base, .empty, false, unique, []⟩)) :
    Rewrites schema s tx choice (tx'.putSecondaryIndex slot item unique base op primaryKey) := by
  unfold Transaction.putSecondaryIndex
  split_ifs with hnew
  · exact .failed rfl
  · refine .added (hfresh hnew) ?_
    rw [← hwrites]
    rfl

end

theorem rewrites_commit (valid : Bool) :
    Rewrites schema s tx choice (tx.commitStep s t valid tx.stage).2.1 := by
  generalize hstage : tx.stage = stage
  fun_cases Transaction.commitStep s t tx valid stage with
  | case3 locked w todo =>
    refine .of_replace ?_ rfl (.lock _)
    simp only [Transaction.writes, hstage]
  | case15 installed w todo =>
    refine .of_replace (l := installed) (m := todo) ?_ (List.append_cons ..).symm (.install hstage)
    simp only [Transaction.writes, hstage]
  -- the transaction fails, or has
  | case5 | case8 | case10 | case12 | case19 | case20 | case21 => exact .failed rfl
  | _ =>
    refine .of_perm ?_
    simp [Transaction.writes, hstage]

section

variable (h : step schema s t tx choice = some x)

include h

/-- **What a step does to the write set.** -/
theorem step_rewrites : Rewrites schema s tx choice x.2.1 := by
  have early : ∀ {stage : Stage}, tx.stage = stage → stage.collecting = true →
      tx.writeSet = tx.writes := by
    intro stage hstage hcollecting
    exact (writes_of_collecting (by rw [hstage]; exact hcollecting)).symm
  cases step_move h with
  | refuse => exact .failed rfl
  | answer | miss => exact .of_perm (.refl _)
  | look hstage | copy hstage | check hstage | checked hstage | claim hstage =>
    exact .of_perm (.of_eq (early hstage rfl))
  | @confirm _ _ purpose item tid copy hstage =>
    have hwrites : (tx.register purpose item tid (s.item item).seen (s.Attached item)).writeSet
        = tx.writes := writeSet_register.trans (early hstage rfl)
    cases purpose with
    | read | direct => exact .of_perm (.of_eq hwrites)
    | refresh =>
      refine .of_modify hwrites fun w hslot => ?_
      subst hslot
      exact .refresh hstage
    | seed => exact .of_put hwrites (.seed hstage)
  | overwrite hearly =>
    refine .of_modify ?_ fun _ _ => .overwrite _ _
    rcases hearly with ⟨hstage, -⟩ | hstage <;> exact early hstage rfl
  | append hearly =>
    rcases hearly with ⟨hstage, rfl, tableName, key, rfl, -⟩ | hstage
    · exact .added .row (congrArg (· ++ _) (early hstage rfl))
    · exact .added (.writing hstage) (congrArg (· ++ _) (early hstage rfl))
  | edit hstage hedits _ hop =>
    exact .of_modify (early hstage rfl) fun _ hslot => .edit hedits hslot hop
  | put hstage hedits _ hread => exact .of_put (early hstage rfl) (.put hedits hread)
  | precommit hstage =>
    refine .of_perm ?_
    rw [← early hstage rfl]
    exact List.perm_insertionSort _ _
  | commit => exact rewrites_commit _

/-- **No step loses an entry**, unless the transaction gives up. -/
theorem step_writes (hw : w ∈ tx.writes) :
    x.2.1.stage.failed = true ∨ ∃ w' ∈ x.2.1.writes, Changed schema s tx choice w w' := by
  cases step_rewrites h with
  | failed hfailed => exact .inl hfailed
  | changed hkept => exact .inr (hkept w hw)
  | added _ hwrites =>
    refine .inr ⟨w, ?_, .same⟩
    rw [hwrites]
    exact List.mem_append_left _ hw

/-- **Where an entry comes from.** -/
theorem step_origin (hw : w ∈ x.2.1.writes) :
    (∃ w₀ ∈ tx.writes, Changed schema s tx choice w₀ w) ∨ Fresh schema tx choice w := by
  cases step_rewrites h with
  | failed hfailed =>
    rw [writes_of_failed hfailed] at hw
    cases hw
  | changed _ horigin => exact .inl (horigin w hw)
  | added hfresh hwrites =>
    rw [hwrites] at hw
    rcases mem_concat.mp hw with hw | rfl
    · exact .inl ⟨w, hw, .same⟩
    · exact .inr hfresh

/-- A transaction that has given up stays that way. -/
theorem failed_keeps (hfailed : tx.stage.failed = true) : x.2.1.stage.failed = true := by
  rcases step_stage h with ⟨hearly, -⟩ | ⟨hstage, -⟩ | ⟨valid, rfl⟩
  · revert hfailed hearly
    cases tx.stage <;> simp [Stage.failed, Stage.collecting]
  · rw [hstage] at hfailed
    cases hfailed
  · generalize hstage : tx.stage = stage at hfailed ⊢
    fun_cases Transaction.commitStep s t tx valid stage with
    | case19 | case20 | case21 => rfl
    | case22 => exact hstage ▸ hfailed
    | _ => cases hfailed

end

end LineairDB.Native
