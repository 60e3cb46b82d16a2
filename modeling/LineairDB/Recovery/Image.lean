import LineairDB.Recovery.SecondaryRecovery

/-!
# Recovery from a checkpoint image

A scan captures every slot at a moment of its own while transactions commit:
the image mixes versions from before and after its cut, and says nothing of a
row that was deleted. Folded before the log frames behind the cut, it gives what
the whole log gives, provided the log holds every version a capture reflects, the
deletions included that keep a row or a primary key out of the image.

* `Reflects.later` — what is logged after a moment is newer than what was held
  at it.
* `image_recovery` — image and tail recover what the log does.
* `unlogged_delete_lost` — a delete that the capture saw and the log does not
  have.
-/

namespace LineairDB.Recovery

open ByteFile NewestWins Silo Stateless Transition

variable {records : LogRecords}

/-! ## Captures -/

section Capture

variable (indexType : Bytes → Bytes → UInt32)

/-- `CapturePrimaryRow` and `CaptureSecondaryEntry`, once they found a stable version. -/
def capture (k : Slot) (x : Held) : Option KeyValuePair :=
  match k with
  | .row table key =>
    if x.content.isPrimaryInitialized then
      some ⟨key, x.content.buffer, x.word, table, [], 0, [], SecondaryIndexOp.none.raw, []⟩
    else none
  | .entry table index key =>
    if x.content.primaryKeys = [] then none
    else
      some ⟨key, [], x.word, table, index, indexType table index, x.content.primaryKeys,
        SecondaryIndexOp.full.raw, []⟩

/-- When the scan came past each slot, counted in steps of the history, and the slots it
walked. -/
structure Scan where
  moment : Slot → ℕ
  walked : List Slot

/-- The history after so many steps. -/
def historyAt (steps : List HistoryStep) (n : ℕ) : Option History :=
  run (History.step indexType) .start (steps.take n)

/-- What the scan captures. -/
def Scan.pairs (scan : Scan) (steps : List HistoryStep) : List KeyValuePair :=
  scan.walked.filterMap fun k =>
    (historyAt indexType steps (scan.moment k)).bind fun h => capture indexType k (h.held k)

/-- The log has the version every capture reflects: the newest one of each row and the
newest operation on each primary key, deletions included. -/
structure Backed (steps : List HistoryStep) (scan : Scan) (log : LogRecords) : Prop where
  rows : ∀ table key h, historyAt indexType steps (scan.moment (.row table key)) = some h →
    ∀ e, newest (table, key) (pairRows (recordPairs h.log)) = some e →
      e ∈ pairRows (recordPairs log)
  ops : ∀ table index key h,
    historyAt indexType steps (scan.moment (.entry table index key)) = some h →
    ∀ p e, newest ⟨table, index, indexType table index, key, p⟩ (pairOps (recordPairs h.log))
        = some e → e ∈ pairOps (recordPairs log)

end Capture

/-- At most one operation per primary key. -/
def Transaction.OneOpEach (tx : Transaction) : Prop := ∀ k p, (opsOn k p tx.ops).length ≤ 1

/-- `Followed`, with one operation per primary key. -/
def FollowedOnce (h : History) : HistoryStep → Prop
  | .commit tx => (tx.Recoverable ∧ Room h tx) ∧ tx.OneOpEach
  | .advance _ | .purge _ => True

theorem FollowedOnce.followed {h : History} {a : HistoryStep} (hf : FollowedOnce h a) :
    Followed h a := by
  cases a with
  | commit => exact hf.1
  | advance | purge => trivial

/-! ## Versions that agree -/

theorem mem_pairRows_recordPairs {e : Entry (Bytes × Bytes) TransactionId Bytes} :
    e ∈ pairRows (recordPairs records) ↔ ∃ r ∈ records, e ∈ r.rows := by
  rw [pairRows_recordPairs, List.mem_flatten]
  simp

theorem mem_pairOps_recordPairs {e : Entry SecondaryOpKey TransactionId UInt8} :
    e ∈ pairOps (recordPairs records) ↔ ∃ r ∈ records, e ∈ r.ops := by
  rw [pairOps_recordPairs, List.mem_flatten]
  simp

/-- Every version is logged once, in the frame of its epoch. -/
structure Agrees (h : History) : Prop where
  rows : Consistent (pairRows (recordPairs h.log))
  ops : Consistent (pairOps (recordPairs h.log))
  rowEpochs : ∀ r ∈ h.log, ∀ e ∈ r.rows, e.version.epoch = r.epoch
  opEpochs : ∀ r ∈ h.log, ∀ e ∈ r.ops, e.version.epoch = r.epoch

variable {steps : List HistoryStep} {c : EpochNumber}

section Steps

variable {indexType : Bytes → Bytes → UInt32} {h h' : History} {a : HistoryStep}

theorem epoch_heldAfter {tx : Transaction} {k : Slot} (hk : k ∈ tx.slots) :
    (tx.heldAfter indexType h.held k).word.epoch = tx.epoch := by
  rw [heldAfter_of_mem hk]
  exact TransactionId.epoch_next _ _

/-- A record that is newer than the log keeps it consistent. -/
theorem consistent_commit {κ β : Type} {f : LogRecord → List (Entry κ TransactionId β)}
    {tx : Transaction} (hold : Consistent (h.log.map f).flatten)
    (hlt : ∀ r ∈ h.log, ∀ x ∈ f r, ∀ y ∈ f (tx.record indexType h.held), x.key = y.key →
      x.version < y.version)
    (hnew : Consistent (f (tx.record indexType h.held))) :
    Consistent ((h.commit indexType tx).log.map f).flatten := by
  simp only [Consistent, ← List.flatMap_def, List.mem_flatMap] at hold ⊢
  rintro x ⟨rx, hrx, hx⟩ y ⟨ry, hry, hy⟩ hkey hver
  rcases mem_log_commit hrx with hrx | rfl <;> rcases mem_log_commit hry with hry | rfl
  · exact hold x ⟨rx, hrx, hx⟩ y ⟨ry, hry, hy⟩ hkey hver
  · exact absurd hver (ne_of_lt (hlt rx hrx x hx y hy hkey))
  · exact absurd hver.symm (ne_of_lt (hlt ry hry y hy x hx hkey.symm))
  · exact hnew x hx y hy hkey hver

theorem Agrees.step (hagrees : Agrees h) (hr : Reflects indexType h) (hf : FollowedOnce h a)
    (hstep : h.step indexType a = some h') : Agrees h' := by
  rcases History.step_cases hstep with ⟨epoch, rfl, -, rfl⟩ | ⟨tx, rfl, hlag, hepoch, rfl⟩ |
    ⟨k, rfl, -, -, rfl⟩
  · exact { hagrees with }
  · obtain ⟨⟨htx, hroom⟩, hone⟩ := hf
    obtain ⟨hrows, hops, hrowEpochs, hopEpochs⟩ := hagrees
    rw [pairRows_recordPairs] at hrows
    rw [pairOps_recordPairs] at hops
    constructor
    · rw [pairRows_recordPairs]
      refine consistent_commit hrows (fun r hmem x hx y hy hkey => ?_) fun x hx y hy hkey _ => ?_
      · obtain ⟨table, key, hk, rfl⟩ := hr.mem_rows_record htx hy
        have hpast := hr.rowsOvertaken r hmem x hx
        rw [hkey] at hpast
        exact hr.lt_heldAfter hroom hlag hepoch hk hpast
      · obtain ⟨table, key, -, rfl⟩ := hr.mem_rows_record htx hx
        obtain ⟨table', key', -, rfl⟩ := hr.mem_rows_record htx hy
        cases hkey
        rfl
    · rw [pairOps_recordPairs]
      refine consistent_commit hops (fun r hmem x hx y hy hkey => ?_) fun x hx y hy hkey hver => ?_
      · obtain ⟨hk, hversion, -⟩ := hr.mem_ops_record htx hy
        have hpast := hr.opsOvertaken r hmem x hx
        rw [hkey] at hpast
        rw [hversion]
        exact hr.lt_heldAfter hroom hlag hepoch hk hpast
      · -- the transaction has one operation on the primary key
        obtain ⟨-, -, -, -, o, ho, hvalue⟩ := hr.mem_ops_record htx hx
        obtain ⟨-, -, -, -, o', ho', hvalue'⟩ := hr.mem_ops_record htx hy
        rw [← hkey] at ho'
        have hops := hone x.key.slot x.key.primaryKey
        have heq : o = o' := by
          match hl : opsOn x.key.slot x.key.primaryKey tx.ops with
          | [] => rw [hl] at ho; cases ho
          | [o₀] =>
            rw [hl, List.mem_singleton] at ho ho'
            rw [ho, ho']
          | o₀ :: o₁ :: rest =>
            rw [hl, List.length_cons, List.length_cons] at hops
            omega
        cases x
        cases y
        simp only at hkey hver hvalue hvalue'
        rw [hkey, hver, hvalue, hvalue', heq]
    · intro r hmem e he
      rcases mem_log_commit hmem with hmem | rfl
      · exact hrowEpochs r hmem e he
      · obtain ⟨table, key, hk, rfl⟩ := hr.mem_rows_record htx he
        exact epoch_heldAfter hk
    · intro r hmem e he
      rcases mem_log_commit hmem with hmem | rfl
      · exact hopEpochs r hmem e he
      · obtain ⟨hk, hversion, -⟩ := hr.mem_ops_record htx he
        rw [hversion]
        exact epoch_heldAfter hk
  · exact { hagrees with }

theorem agrees_run (hf : Along (History.step indexType) FollowedOnce .start steps)
    (hrun : run (History.step indexType) .start steps = some h) :
    Reflects indexType h ∧ Agrees h := by
  refine hf.invariant (P := fun h => Reflects indexType h ∧ Agrees h) ?_ ⟨.start indexType, ?_⟩ hrun
  · rintro s a s' ⟨hr, hagrees⟩ hf hstep
    exact ⟨hr.step hf.followed hstep, hagrees.step hr hf hstep⟩
  · constructor <;> simp [History.start, recordPairs, pairRows, pairOps, rowPairs, Consistent]

/-- What was logged after a moment comes from the commits after it, and is newer than
everything its slot had gone past by then. -/
structure LoggedSince (h h' : History) (steps : List HistoryStep) (later : LogRecords) : Prop where
  log : h'.log = h.log ++ later
  commits : ∀ r ∈ later, ∃ tx, .commit tx ∈ steps ∧ r.epoch = tx.epoch
  rows : ∀ r ∈ later, ∀ e ∈ r.rows, ∀ v, Overtaken h (.row e.key.1 e.key.2) v → v < e.version
  ops : ∀ r ∈ later, ∀ e ∈ r.ops, ∀ v, Overtaken h e.key.slot v → v < e.version

theorem LoggedSince.after_cut {later : LogRecords} (hlater : LoggedSince h h' steps later)
    (hcut : ∀ tx, .commit tx ∈ steps → c < tx.epoch) : ∀ r ∈ later, c < r.epoch := by
  intro r hr
  obtain ⟨tx, htx, hepoch⟩ := hlater.commits r hr
  rw [hepoch]
  exact hcut tx htx

theorem Reflects.later (hr : Reflects indexType h)
    (hf : Along (History.step indexType) Followed h steps)
    (hrun : Transition.run (History.step indexType) h steps = some h') :
    ∃ later, LoggedSince h h' steps later := by
  induction steps generalizing h with
  | nil =>
    cases hrun
    exact ⟨[], by simp, by simp, by simp, by simp⟩
  | cons a steps ih =>
    obtain ⟨m, hstep, hrun⟩ := run_cons.mp hrun
    obtain ⟨later, hlog, hcommits, hrows, hops⟩ := ih (hr.step hf.1 hstep) (hf.2 m hstep) hrun
    have hpast : ∀ {k v}, Overtaken h k v → Overtaken m k v := fun hv =>
      hv.step hr.unlocked hf.1 hstep
    have hsame : m.log = h.log → ∃ later, LoggedSince h h' (a :: steps) later := by
      intro hm
      refine ⟨later, by rw [hlog, hm], fun r hr' => ?_, fun r hr' e he v hv => ?_,
        fun r hr' e he v hv => ?_⟩
      · obtain ⟨tx, htx, hepoch⟩ := hcommits r hr'
        exact ⟨tx, .tail _ htx, hepoch⟩
      · exact hrows r hr' e he v (hpast hv)
      · exact hops r hr' e he v (hpast hv)
    rcases History.step_cases hstep with ⟨epoch, rfl, -, rfl⟩ | ⟨tx, rfl, hlag, hepoch, rfl⟩ |
      ⟨k, rfl, -, -, rfl⟩
    · exact hsame rfl
    · by_cases hnil : (tx.record indexType h.held).keyValuePairs = []
      · exact hsame (by simp [History.commit, hnil])
      · obtain ⟨htx, hroom⟩ := hf.1
        have hm : (h.commit indexType tx).log = h.log ++ [tx.record indexType h.held] := by
          simp [History.commit, hnil]
        refine ⟨tx.record indexType h.held :: later, by rw [hlog, hm]; simp, ?_, ?_, ?_⟩
        · rw [List.forall_mem_cons]
          refine ⟨⟨tx, .head _, rfl⟩, fun r hr' => ?_⟩
          obtain ⟨tx', htx', hepoch'⟩ := hcommits r hr'
          exact ⟨tx', .tail _ htx', hepoch'⟩
        · rw [List.forall_mem_cons]
          refine ⟨fun e he v hv => ?_, fun r hr' e he v hv => hrows r hr' e he v (hpast hv)⟩
          obtain ⟨table, key, hk, rfl⟩ := hr.mem_rows_record htx he
          exact hr.lt_heldAfter hroom hlag hepoch hk hv
        · rw [List.forall_mem_cons]
          refine ⟨fun e he v hv => ?_, fun r hr' e he v hv => hops r hr' e he v (hpast hv)⟩
          obtain ⟨hk, hversion, -⟩ := hr.mem_ops_record htx he
          rw [hversion]
          exact hr.lt_heldAfter hroom hlag hepoch hk hv
    · exact hsame rfl

end Steps

/-! ## What an image says -/

section Image

variable {indexType : Bytes → Bytes → UInt32} {steps : List HistoryStep} {scan : Scan}
  {image : LogRecords}

theorem mem_scan_pairs {kvp : KeyValuePair} : kvp ∈ scan.pairs indexType steps ↔
    ∃ k ∈ scan.walked, ∃ h, historyAt indexType steps (scan.moment k) = some h ∧
      capture indexType k (h.held k) = some kvp := by
  simp only [Scan.pairs, List.mem_filterMap, Option.bind_eq_some_iff]

/-- The rows of an image are live rows as their captures found them. -/
theorem mem_pairRows_image (himage : (recordPairs image).Perm (scan.pairs indexType steps))
    {e : Entry (Bytes × Bytes) TransactionId Bytes} :
    e ∈ pairRows (recordPairs image) ↔
      ∃ table key h, Slot.row table key ∈ scan.walked ∧
        historyAt indexType steps (scan.moment (.row table key)) = some h ∧
        (h.held (.row table key)).content.buffer ≠ [] ∧
        e = ⟨(table, key), (h.held (.row table key)).word,
          (h.held (.row table key)).content.buffer⟩ := by
  simp only [pairRows, rowPairs, List.mem_map, List.mem_filter, himage.mem_iff, mem_scan_pairs]
  constructor
  · rintro ⟨kvp, ⟨⟨k, hk, h, hat, hcapture⟩, hplain⟩, rfl⟩
    cases k with
    | row table key =>
      simp only [capture] at hcapture
      split at hcapture
      · rename_i hlive
        cases hcapture
        exact ⟨table, key, h, hk, hat, by simpa [Content.isPrimaryInitialized] using hlive, rfl⟩
      · cases hcapture
    | entry =>
      simp only [capture] at hcapture
      split at hcapture
      · cases hcapture
      · cases hcapture
        simp [KeyValuePair.isSecondaryIndex, SecondaryIndexOp.raw] at hplain
  · rintro ⟨table, key, h, hk, hat, hlive, rfl⟩
    refine ⟨⟨key, (h.held (.row table key)).content.buffer, (h.held (.row table key)).word,
      table, [], 0, [], SecondaryIndexOp.none.raw, []⟩,
      ⟨⟨.row table key, hk, h, hat, ?_⟩, ?_⟩, rfl⟩
    · rw [capture, if_pos (by simpa [Content.isPrimaryInitialized] using hlive)]
    · simp [KeyValuePair.isSecondaryIndex]

/-- The operations of an image add the primary keys its captures found. -/
theorem mem_pairOps_image (himage : (recordPairs image).Perm (scan.pairs indexType steps))
    {e : Entry SecondaryOpKey TransactionId UInt8} :
    e ∈ pairOps (recordPairs image) ↔
      ∃ table index key h p, Slot.entry table index key ∈ scan.walked ∧
        historyAt indexType steps (scan.moment (.entry table index key)) = some h ∧
        p ∈ (h.held (.entry table index key)).content.primaryKeys ∧
        e = ⟨⟨table, index, indexType table index, key, p⟩,
          (h.held (.entry table index key)).word, SecondaryIndexOp.add.raw⟩ := by
  simp only [pairOps, List.mem_flatMap, List.mem_filter, himage.mem_iff, mem_scan_pairs]
  constructor
  · rintro ⟨kvp, ⟨⟨k, hk, h, hat, hcapture⟩, hsecondary⟩, he⟩
    cases k with
    | row =>
      simp only [capture] at hcapture
      split at hcapture
      · cases hcapture
        simp [KeyValuePair.isSecondaryIndex] at hsecondary
      · cases hcapture
    | entry table index key =>
      simp only [capture] at hcapture
      split at hcapture
      · cases hcapture
      · cases hcapture
        rw [KeyValuePair.secondaryOps, if_pos rfl, List.mem_map] at he
        obtain ⟨p, hp, rfl⟩ := he
        exact ⟨table, index, key, h, p, hk, hat, hp, rfl⟩
  · rintro ⟨table, index, key, h, p, hk, hat, hp, rfl⟩
    refine ⟨⟨key, [], (h.held (.entry table index key)).word, table, index,
      indexType table index, (h.held (.entry table index key)).content.primaryKeys,
      SecondaryIndexOp.full.raw, []⟩, ⟨⟨.entry table index key, hk, h, hat, ?_⟩, ?_⟩, ?_⟩
    · rw [capture, if_neg (List.ne_nil_of_mem hp)]
    · simp [KeyValuePair.isSecondaryIndex, SecondaryIndexOp.raw]
    · rw [KeyValuePair.secondaryOps, if_pos rfl]
      exact List.mem_map_of_mem hp

end Image

/-! ## Image and tail -/

theorem pairRows_append (pairs pairs' : List KeyValuePair) :
    pairRows (pairs ++ pairs') = pairRows pairs ++ pairRows pairs' := by
  simp [pairRows, rowPairs]

theorem pairOps_append (pairs pairs' : List KeyValuePair) :
    pairOps (pairs ++ pairs') = pairOps pairs ++ pairOps pairs' := by
  simp [pairOps]

theorem recordPairs_append (records records' : LogRecords) :
    recordPairs (records ++ records') = recordPairs records ++ recordPairs records' := by
  simp [recordPairs]

/-- The frames `ScanAndRepair` keeps behind a cut. -/
def tailAfter (c : EpochNumber) (log : LogRecords) : LogRecords := log.filter fun r => c < r.epoch

theorem keep_of_le (v w : TransactionId) (hv : c < v.epoch) (hle : v ≤ w) : c < w.epoch := by
  have hepoch := TransactionId.epoch_le_of_le hle
  rw [UInt32.lt_iff_toNat_lt] at hv ⊢
  omega

theorem mem_flatten_map {β : Type} {f : LogRecord → List β} {e : β} :
    e ∈ (records.map f).flatten ↔ ∃ r ∈ records, e ∈ f r := by
  simp

/-- What the records say of one key, from an image and the tail of the log or from the log. -/
theorem newest_image_iff {κ β : Type} [DecidableEq κ]
    {f : LogRecord → List (Entry κ TransactionId β)} {k : κ} {all before after : LogRecords}
    (log : LogRecords) (hsplit : all = before ++ after) (snapshot : List (Entry κ TransactionId β))
    (P : Entry κ TransactionId β → Prop) (hcons : Consistent (all.map f).flatten)
    (hepochs : ∀ r ∈ all, ∀ e ∈ f r, e.version.epoch = r.epoch) (hcut : ∀ r ∈ after, c < r.epoch)
    (hlog : log ⊆ all)
    (hsnapshot : ∀ e ∈ snapshot, e.key = k → ∀ r ∈ after, ∀ a ∈ f r, a.key = k →
      e.version < a.version)
    (htaken : ∀ e ∈ snapshot, e.key = k → ∃ x, newest k (before.map f).flatten = some x ∧
      (P e ↔ P x))
    (hbacked : ∀ x, newest k (before.map f).flatten = some x → x ∈ (log.map f).flatten ∧
      (P x → ∃ e ∈ snapshot, e.key = k)) :
    (∃ e, newest k (log.map f).flatten = some e ∧ P e) ↔
      ∃ e, newest k (snapshot ++ ((tailAfter c log).map f).flatten) = some e ∧ P e := by
  subst hsplit
  refine newest_snapshot_iff (before.map f).flatten (after.map f).flatten (fun v => c < v.epoch) P
    ?_ keep_of_le ?_ ?_ ?_ ?_ htaken hbacked
  · rw [List.map_append, List.flatten_append] at hcons
    exact hcons
  · intro e he _
    obtain ⟨r, hr, he⟩ := mem_flatten_map.mp he
    exact (List.mem_append.mp (hlog hr)).imp (fun hr => mem_flatten_map.mpr ⟨r, hr, he⟩)
      fun hr => mem_flatten_map.mpr ⟨r, hr, he⟩
  · intro e _
    rw [mem_flatten_map, mem_flatten_map]
    constructor
    · rintro ⟨r, hr, he⟩
      obtain ⟨hr, hlt⟩ := List.mem_filter.mp hr
      refine ⟨⟨r, hr, he⟩, ?_⟩
      rw [hepochs r (hlog hr) e he]
      simpa using hlt
    · rintro ⟨⟨r, hr, he⟩, hlt⟩
      refine ⟨r, List.mem_filter.mpr ⟨hr, ?_⟩, he⟩
      rw [hepochs r (hlog hr) e he] at hlt
      simpa using hlt
  · intro e he _
    obtain ⟨r, hr, he⟩ := mem_flatten_map.mp he
    rw [hepochs r (List.mem_append_right _ hr) e he]
    exact hcut r hr
  · intro e he hk a ha hak
    obtain ⟨r, hr, ha⟩ := mem_flatten_map.mp ha
    exact hsnapshot e he hk r hr a ha hak

section Recovered

variable {indexType : Bytes → Bytes → UInt32} {steps : List HistoryStep} {h : History}
  {c : EpochNumber} {scan : Scan} {image log : LogRecords}
  (hf : Along (History.step indexType) FollowedOnce .start steps)
  (hrun : run (History.step indexType) .start steps = some h)

include hf hrun

/-- The history as a capture found it, and what was logged since. -/
theorem exists_historyAt (n : ℕ) : ∃ hn later, historyAt indexType steps n = some hn ∧
    Reflects indexType hn ∧ LoggedSince hn h (steps.drop n) later := by
  rw [← List.take_append_drop n steps] at hf hrun
  obtain ⟨hn, hfirst, hrest⟩ := run_append.mp hrun
  obtain ⟨hfn, hfrest⟩ := hf.split hfirst
  have hr := (agrees_run hfn hfirst).1
  obtain ⟨later, hlater⟩ := hr.later (hfrest.imp fun _ _ => FollowedOnce.followed) hrest
  exact ⟨hn, later, hfirst, hr, hlater⟩

variable (hcut : ∀ k tx, .commit tx ∈ steps.drop (scan.moment k) → c < tx.epoch)
  (hwalked : ∀ k hk, historyAt indexType steps (scan.moment k) = some hk →
    capture indexType k (hk.held k) ≠ none → k ∈ scan.walked)
  (himage : (recordPairs image).Perm (scan.pairs indexType steps))
  (hlog : log ⊆ h.log) (hbacked : Backed indexType steps scan log)

include hcut hwalked himage hlog hbacked

/-- Row by row, image and tail keep the live version the log keeps. -/
theorem newest_rows_image (table key : Bytes) {x : Entry (Bytes × Bytes) TransactionId Bytes}
    (hx : x.value ≠ []) :
    newest (table, key) (pairRows (recordPairs log)) = some x ↔
      newest (table, key) (pairRows (recordPairs (image ++ tailAfter c log))) = some x := by
  obtain ⟨hn, later, hat, hr, hlater⟩ := exists_historyAt hf hrun (scan.moment (.row table key))
  have hagrees := (agrees_run hf hrun).2
  -- what the capture found is what was logged last
  obtain ⟨o, hpeak, hshown⟩ := hr.rows table key
  have ho := hpeak.newest_flatten
  have hcaptured : ∀ e ∈ pairRows (recordPairs image), e.key = (table, key) →
      e.version = (hn.held (.row table key)).word ∧ o = some e := by
    intro e he hkey
    obtain ⟨table', key', h', -, hat', hlive, rfl⟩ := (mem_pairRows_image himage).mp he
    cases hkey
    rw [hat] at hat'
    cases hat'
    exact ⟨rfl, hshown.1 hlive⟩
  have hiff := newest_image_iff (f := LogRecord.rows) (k := (table, key)) (c := c) log hlater.log
    (pairRows (recordPairs image)) (fun e => e = x)
    (by rw [← pairRows_recordPairs]; exact hagrees.rows) hagrees.rowEpochs
    (hlater.after_cut fun tx => hcut _ tx) hlog ?_ ?_ ?_
  · rw [recordPairs_append, pairRows_append, pairRows_recordPairs,
      pairRows_recordPairs (tailAfter c log)]
    simpa using hiff
  · intro e he hkey r hmem a ha hak
    obtain ⟨hversion, -⟩ := hcaptured e he hkey
    rw [hversion]
    refine hlater.rows r hmem a ha _ (.inl ?_)
    rw [hak]
  · intro e he hkey
    obtain ⟨-, hsome⟩ := hcaptured e he hkey
    exact ⟨e, ho.trans hsome, Iff.rfl⟩
  · intro e he
    refine ⟨?_, ?_⟩
    · rw [← pairRows_recordPairs] at he ⊢
      exact hbacked.rows table key hn hat e he
    · rintro rfl
      have hsome : o = some e := ho.symm.trans he
      have hlive : (hn.held (.row table key)).content.buffer ≠ [] := fun hdead =>
        hx (hshown.2 hdead e hsome)
      refine ⟨_, (mem_pairRows_image himage).mpr ⟨table, key, hn, ?_, hat, hlive, rfl⟩, rfl⟩
      refine hwalked _ hn hat ?_
      rw [capture, if_pos (by simpa [Content.isPrimaryInitialized] using hlive)]
      simp

/-- Primary key by primary key, image and tail keep an add where the log does. -/
theorem newest_ops_image (table index key p : Bytes) :
    (∃ e, newest ⟨table, index, indexType table index, key, p⟩ (pairOps (recordPairs log))
        = some e ∧ e.value = SecondaryIndexOp.add.raw) ↔
      ∃ e, newest ⟨table, index, indexType table index, key, p⟩
          (pairOps (recordPairs (image ++ tailAfter c log))) = some e ∧
        e.value = SecondaryIndexOp.add.raw := by
  obtain ⟨hn, later, hat, hr, hlater⟩ :=
    exists_historyAt hf hrun (scan.moment (.entry table index key))
  have hagrees := (agrees_run hf hrun).2
  obtain ⟨o, hpeak, hheld⟩ := hr.ops table index key p
  have ho := hpeak.newest_flatten
  have hcaptured : ∀ e ∈ pairOps (recordPairs image),
      e.key = ⟨table, index, indexType table index, key, p⟩ →
      e.version = (hn.held (.entry table index key)).word ∧ e.value = SecondaryIndexOp.add.raw ∧
        p ∈ (hn.held (.entry table index key)).content.primaryKeys := by
    intro e he hkey
    obtain ⟨table', index', key', h', p', -, hat', hp, rfl⟩ := (mem_pairOps_image himage).mp he
    obtain ⟨rfl, rfl, -, rfl, rfl⟩ := SecondaryOpKey.mk.inj hkey
    rw [hat] at hat'
    cases hat'
    exact ⟨rfl, rfl, hp⟩
  have hiff := newest_image_iff (f := LogRecord.ops)
    (k := ⟨table, index, indexType table index, key, p⟩) (c := c) log hlater.log
    (pairOps (recordPairs image)) (fun e => e.value = SecondaryIndexOp.add.raw)
    (by rw [← pairOps_recordPairs]; exact hagrees.ops) hagrees.opEpochs
    (hlater.after_cut fun tx => hcut _ tx) hlog ?_ ?_ ?_
  · rw [recordPairs_append, pairOps_append, pairOps_recordPairs,
      pairOps_recordPairs (tailAfter c log)]
    exact hiff
  · intro e he hkey r hmem a ha hak
    obtain ⟨hversion, -⟩ := hcaptured e he hkey
    rw [hversion]
    refine hlater.ops r hmem a ha _ (.inl ?_)
    rw [hak]
    exact le_rfl
  · intro e he hkey
    obtain ⟨-, hadd, hp⟩ := hcaptured e he hkey
    obtain ⟨x, hsome, hxadd⟩ := hheld.mp hp
    exact ⟨x, ho.trans hsome, iff_of_true hadd hxadd⟩
  · intro e he
    refine ⟨?_, fun hadd => ?_⟩
    · rw [← pairOps_recordPairs] at he ⊢
      exact hbacked.ops table index key hn hat p e he
    · have hp := hheld.mpr ⟨e, ho.symm.trans he, hadd⟩
      refine ⟨_, (mem_pairOps_image himage).mpr ⟨table, index, key, hn, p, ?_, hat, hp, rfl⟩, rfl⟩
      refine hwalked _ hn hat ?_
      rw [capture, if_neg (List.ne_nil_of_mem hp)]
      exact nofun

end Recovered

/-- **Recovery from a checkpoint image is recovery from the log.** For every history, every cut
and every image whose slots were each captured at a moment after the commits of the cut: if
the log, in whatever order and however much of the history it has, holds the versions the
captures reflect, then image and tail give the same live rows, with the same identifiers, and
the same primary-key lists as the whole log. -/
theorem image_recovery (indexType : Bytes → Bytes → UInt32) (steps : List HistoryStep) (h : History)
    (hf : Along (History.step indexType) FollowedOnce .start steps)
    (hrun : run (History.step indexType) .start steps = some h) (c : EpochNumber) (scan : Scan)
    (hcut : ∀ k tx, .commit tx ∈ steps.drop (scan.moment k) → c < tx.epoch)
    (hwalked : ∀ k hk, historyAt indexType steps (scan.moment k) = some hk →
      capture indexType k (hk.held k) ≠ none → k ∈ scan.walked)
    (image : LogRecords) (himage : (recordPairs image).Perm (scan.pairs indexType steps))
    (log : LogRecords) (hlog : log ⊆ h.log) (hbacked : Backed indexType steps scan log)
    (ops ops' : HashOrder (Entry SecondaryOpKey TransactionId UInt8))
    (groups groups' : HashOrder (SecondaryGroupKey × SecondaryGroupValue)) :
    (∀ table key value tid,
      (∃ s ∈ recoveredRows (buildRecoverySet ops groups image (tailAfter c log)),
        s.tableName = table ∧ s.key = key ∧ s.buffer = value ∧ s.tid = tid) ↔
      ∃ s ∈ recoveredRows (buildRecoverySet ops' groups' [] log),
        s.tableName = table ∧ s.key = key ∧ s.buffer = value ∧ s.tid = tid) ∧
    ∀ table index key keys,
      (∃ s ∈ recoveredEntries (buildRecoverySet ops groups image (tailAfter c log)),
        s.tableName = table ∧ s.indexName = index ∧ s.key = key ∧ s.primaryKeys = keys) ↔
      ∃ s ∈ recoveredEntries (buildRecoverySet ops' groups' [] log),
        s.tableName = table ∧ s.indexName = index ∧ s.key = key ∧ s.primaryKeys = keys := by
  refine ⟨fun table key value tid => ?_, fun table index key keys => ?_⟩
  · have hrow : ∀ recoverySet : List Snapshot,
        (∃ s ∈ recoveredRows recoverySet,
          s.tableName = table ∧ s.key = key ∧ s.buffer = value ∧ s.tid = tid) ↔
        ∃ s ∈ recoveredRows recoverySet, s.row = ⟨(table, key), tid, value⟩ := by
      intro recoverySet
      refine exists_congr fun s => and_congr_right fun _ => ?_
      rw [Snapshot.row, Entry.mk.injEq, Prod.mk.injEq]
      tauto
    rw [hrow, hrow, mem_recoveredRows, mem_recoveredRows]
    refine and_congr_right fun hlive => ?_
    exact (newest_rows_image hf hrun hcut hwalked himage hlog hbacked table key hlive).symm
  · -- every operation there is carries the type of its index
    have hlogged : ∀ e ∈ pairOps (recordPairs ([] ++ log)),
        e.key.indexType = indexType e.key.tableName e.key.indexName := by
      intro e he
      obtain ⟨r, hr, he⟩ := mem_pairOps_recordPairs.mp he
      exact ((agrees_run hf hrun).1.typed r (hlog hr) e he).2.2
    have htyped : ∀ e ∈ pairOps (recordPairs (image ++ tailAfter c log)),
        e.key.indexType = indexType e.key.tableName e.key.indexName := by
      intro e he
      rw [recordPairs_append, pairOps_append, List.mem_append] at he
      rcases he with he | he
      · obtain ⟨table', index', key', h', p', -, -, -, rfl⟩ := (mem_pairOps_image himage).mp he
        rfl
      · obtain ⟨r, hr, he⟩ := mem_pairOps_recordPairs.mp he
        exact hlogged e (mem_pairOps_recordPairs.mpr ⟨r, (List.mem_filter.mp hr).1, he⟩)
    rw [mem_recoveredEntries_of_typed htyped, mem_recoveredEntries_of_typed hlogged]
    refine and_congr_right fun _ => and_congr_right fun _ => and_congr_right fun _ => ?_
    refine forall_congr' fun p => iff_congr Iff.rfl ?_
    exact (newest_ops_image hf hrun hcut hwalked himage hlog hbacked table index key p).symm

/-- A log that has the whole history holds every version a capture reflects. -/
theorem backed_of_whole {indexType : Bytes → Bytes → UInt32} {h : History}
    (hf : Along (History.step indexType) FollowedOnce .start steps)
    (hrun : run (History.step indexType) .start steps = some h) (scan : Scan) :
    Backed indexType steps scan h.log := by
  have hsub : ∀ {n hn}, historyAt indexType steps n = some hn → hn.log ⊆ h.log := by
    intro n hn hat
    obtain ⟨hn', later, hat', -, hlater⟩ := exists_historyAt hf hrun n
    rw [hat] at hat'
    cases hat'
    rw [hlater.log]
    exact List.subset_append_left _ _
  constructor
  · intro table key hn hat e he
    obtain ⟨r, hr, he⟩ := mem_pairRows_recordPairs.mp (isNewest_of_newest he).2.mem
    exact mem_pairRows_recordPairs.mpr ⟨r, hsub hat hr, he⟩
  · intro table index key hn hat p e he
    obtain ⟨r, hr, he⟩ := mem_pairOps_recordPairs.mp (isNewest_of_newest he).2.mem
    exact mem_pairOps_recordPairs.mpr ⟨r, hsub hat hr, he⟩

/-- A row is written, and rewritten in a later epoch. -/
def writeRow : Transaction := ⟨false, 1, [.row [0x74] [0x6b] [0x76]]⟩

/-- A row is written again. -/
def rewriteRow : Transaction := ⟨true, 2, [.row [0x74] [0x6b] [0x77]]⟩

/-- The scan came past every slot before the rewrite. -/
def earlyScan : Scan := ⟨fun _ => 2, [.row [0x74] [0x6b]]⟩

/-- The rewritten row is recovered from image and tail. -/
theorem image_recovery_rewritten :
    ∃ h, run (History.step plainIndexes) .start
        [.commit writeRow, .advance 2, .commit rewriteRow] = some h ∧
      ∃ s ∈ recoveredRows (buildRecoverySet (.insertion _) (.insertion _)
          [⟨1, earlyScan.pairs plainIndexes [.commit writeRow, .advance 2, .commit rewriteRow]⟩]
          (tailAfter 1 h.log)),
        s.tableName = [0x74] ∧ s.key = [0x6b] ∧ s.buffer = [0x77] ∧ s.tid = ⟨2, 2⟩ := by
  have hwrite : writeRow.Recoverable :=
    ⟨fun _ _ _ _ _ hmem => by simp [writeRow] at hmem, fun _ _ _ hmem => by simp [writeRow] at hmem,
      nofun⟩
  have hrewrite : rewriteRow.Recoverable :=
    ⟨fun _ _ _ _ _ hmem => by simp [rewriteRow] at hmem,
      fun _ _ _ hmem => by simp [rewriteRow] at hmem, fun _ _ _ => rfl⟩
  have hf : Along (History.step plainIndexes) FollowedOnce .start
      [.commit writeRow, .advance 2, .commit rewriteRow] := by
    refine .cons ⟨⟨hwrite, ?_⟩, fun _ _ => Nat.zero_le 1⟩ rfl (.cons trivial rfl
      (.cons ⟨⟨hrewrite, ?_⟩, fun _ _ => Nat.zero_le 1⟩ rfl trivial))
    all_goals
      unfold Room
      decide
  refine ⟨_, rfl, ?_⟩
  refine ((image_recovery plainIndexes _ _ hf rfl 1 earlyScan ?_ ?_ _ ?_ _ (List.Subset.refl _)
    (backed_of_whole hf rfl earlyScan) (.insertion _) (.insertion _) (.insertion _)
    (.insertion _)).1 [0x74] [0x6b] [0x77] ⟨2, 2⟩).mpr ?_
  · intro k tx hmem
    have hmem : HistoryStep.commit tx ∈ [HistoryStep.commit rewriteRow] := hmem
    cases HistoryStep.commit.inj (List.mem_singleton.mp hmem)
    decide
  · -- only the row that was written is there to capture
    intro k hk hat hcapture
    cases hat
    by_contra hnot
    have hslot : k ∉ writeRow.slots := hnot
    refine hcapture ?_
    show capture plainIndexes k (writeRow.heldAfter plainIndexes History.start.held k) = none
    rw [heldAfter_of_not_mem hslot]
    cases k with
    | row | entry => rfl
  · simp [recordPairs]
  · decide

/-- The row is deleted in the later epoch. -/
def deleteRow : Transaction := ⟨true, 2, [.row [0x74] [0x6b] []]⟩

/-- The scan came past every slot after the delete. -/
def lateScan : Scan := ⟨fun _ => 3, [.row [0x74] [0x6b]]⟩

/-- **A delete that the capture saw and the log lost.** The image is taken after the commits
of its cut and has no version the log does not have; the log has the row, image and tail do
not. -/
theorem unlogged_delete_lost :
    ∃ h, run (History.step plainIndexes) .start
        [.commit writeRow, .advance 2, .commit deleteRow] = some h ∧
      (∀ k tx, HistoryStep.commit tx ∈
        [HistoryStep.commit writeRow, .advance 2, .commit deleteRow].drop (lateScan.moment k) →
          1 < tx.epoch) ∧
      lateScan.pairs plainIndexes [.commit writeRow, .advance 2, .commit deleteRow] = [] ∧
      h.log.take 1 ⊆ h.log ∧
      recoveredRows (buildRecoverySet (.insertion _) (.insertion _) []
        (tailAfter 1 (h.log.take 1))) = [] ∧
      ∃ s ∈ recoveredRows (buildRecoverySet (.insertion _) (.insertion _) [] (h.log.take 1)),
        s.tableName = [0x74] ∧ s.key = [0x6b] ∧ s.buffer = [0x76] := by
  refine ⟨_, rfl, ?_, rfl, List.take_subset _ _, by decide, by decide⟩
  intro k tx hmem
  cases hmem

end LineairDB.Recovery
