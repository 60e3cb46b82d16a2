import LineairDB.Stateless.Publishing
import LineairDB.Recovery.History

/-!
# The primary-key lists of a request

A request installs its secondary-index operations one by one over the lists it
has locked, in the order the caller has given them.

* `Asked.step` — what is installed are the operations that were submitted.
* `Installing.step` — with an operation installed, the list is what it was with
  all the operations up to it.
* `Asked.wrote` — and so is what the request has published to the entry.
-/

namespace LineairDB.Stateless

open Silo ByteFile
open Recovery (WriteOp writesTo writesTo_concat)

/-! ## The operations of a request -/

/-- The operation. -/
def ExternalSecondaryIndexEntry.toOp (op : ExternalSecondaryIndexEntry) : WriteOp :=
  .entry op.tableName op.indexName op.secondaryKey op.primaryKey op.isDelete

/-- The operation. -/
def ResolvedSecondaryIndexOp.toOp (op : ResolvedSecondaryIndexOp) : WriteOp :=
  .entry op.tableName op.indexName op.secondaryKey op.primaryKey op.isDelete

/-- What a call adds to lists, or removes from them. -/
def Choice.secondaryOps : Choice → List WriteOp
  | .submit _ _ ops _ => ops.map ExternalSecondaryIndexEntry.toOp
  | _ => []

/-- The operations a commit has resolved and has still to resolve. -/
def PcAsked (ops : List WriteOp) (c : Commit) : Pc → Prop
  | .resolveReads _ | .resolveWrites _ => c.resolvedSiOps = [] ∧
      c.secondaryIndexOps.map ExternalSecondaryIndexEntry.toOp = ops
  | .resolveSecondary todo => c.resolvedSiOps.map ResolvedSecondaryIndexOp.toOp ++
      todo.map ExternalSecondaryIndexEntry.toOp = ops
  | .abort _ _ => True
  | _ => c.resolvedSiOps.map ResolvedSecondaryIndexOp.toOp = ops

/-- Every list among the targets of a commit is there for an operation. -/
def Commit.Aimed (c : Commit) : Prop :=
  ∀ x ∈ c.lockTargets, ∀ tableName indexName key, x.slot = .entry tableName indexName key →
    ∃ op ∈ c.resolvedSiOps, op.slot = x.slot

/-- What the calls so far have left of lists in the request. -/
def Asked (ops : List WriteOp) (r : Request) : Prop :=
  match r.stage with
  | .staging | .reading _ _ _ => ops = []
  | .committing c pc => PcAsked ops c pc ∧ c.Aimed
  | .committed c => c.resolvedSiOps.map ResolvedSecondaryIndexOp.toOp = ops ∧ c.Aimed
  | .aborted _ => True

variable {r : Request} {schema : Schema} {s s' : Store} {t : ℕ} {c : Commit} {ops : List WriteOp}
  {observations : List Observation}

theorem Commit.Aimed.write (h : c.Aimed) {w : ResolvedWrite} {tableName key : Bytes}
    {live : List (Bytes × Bool)} {item : ItemId} : Commit.Aimed
      { c with
        liveInRequest := live
        resolvedWrites := c.resolvedWrites ++ [w]
        lockItems := c.lockItems ++ [item]
        lockTargets := c.lockTargets ++ [⟨item, .row tableName key⟩] } := by
  refine forall_mem_concat.mpr ⟨h, ?_⟩
  intro tableName' indexName key' hslot
  cases hslot

theorem Commit.Aimed.op (h : c.Aimed) {op : ResolvedSecondaryIndexOp} {adds : List Bytes}
    {slot : Slot} (hslot : op.slot = slot) : Commit.Aimed
      { c with
        uniqueSiAdds := adds
        resolvedSiOps := c.resolvedSiOps ++ [op]
        lockItems := c.lockItems ++ [op.item]
        lockTargets := c.lockTargets ++ [⟨op.item, slot⟩] } := by
  refine forall_mem_concat.mpr ⟨fun x hx tableName indexName key hentry => ?_, ?_⟩
  · obtain ⟨op', hop', hsame⟩ := h x hx _ _ _ hentry
    exact ⟨op', List.mem_append_left _ hop', hsame⟩
  · intro tableName indexName key _
    exact ⟨op, List.mem_concat_self, hslot⟩

/-- One step of `Commit`. -/
theorem Asked.commit {pc : Pc} {x : Access × Stage × List Candidate} (h : PcAsked ops c pc)
    (haimed : c.Aimed) (hmove : CommitMove schema s t c pc x) :
    Asked ops ⟨observations, x.2.1⟩ := by
  cases hmove with
  | refuse | duplicate | aborted => trivial
  | detached | abort => exact ⟨trivial, haimed⟩
  | resolveWrite => exact ⟨h, haimed.write⟩
  | writesResolved =>
    refine ⟨?_, haimed⟩
    show c.resolvedSiOps.map ResolvedSecondaryIndexOp.toOp ++ _ = ops
    rw [h.1]
    exact h.2
  | @resolveOp op todo resolved adds _ hop =>
    have hsame : resolved.toOp = op.toOp := by
      unfold ResolvedSecondaryIndexOp.toOp ExternalSecondaryIndexEntry.toOp
      rw [hop.tableName, hop.indexName, hop.secondaryKey, hop.primaryKey, hop.isDelete]
    refine ⟨?_, haimed.op hop.slot⟩
    show (c.resolvedSiOps ++ [resolved]).map ResolvedSecondaryIndexOp.toOp ++ _ = ops
    rw [List.map_append, List.append_assoc, List.map_cons, List.map_nil, hsame]
    exact h
  | opsResolved =>
    refine ⟨?_, haimed⟩
    have hall : c.resolvedSiOps.map ResolvedSecondaryIndexOp.toOp ++ [] = ops := h
    rw [List.append_nil] at hall
    exact hall
  | _ => exact ⟨h, haimed⟩

theorem readStart_staging (tableName key : Bytes) :
    (readStart schema s observations tableName key).2.stage.isStaging = true := by
  unfold readStart
  split
  · rfl
  · split
    · rfl
    · rfl

theorem readStep_staging (tableName key : Bytes) (byte : UInt8) (reading : Reading) :
    (readStep s observations tableName key byte reading).2.stage.isStaging = true := by
  cases reading with
  | size => rfl
  | _ =>
    simp only [readStep]
    split_ifs <;> rfl

theorem asked_staging (hstage : r.stage.isStaging = true) : Asked ops r ↔ ops = [] := by
  obtain ⟨observations, stage⟩ := r
  cases stage with
  | staging | reading => exact Iff.rfl
  | _ => cases hstage

/-- **The operations of a request are those of its calls.** -/
theorem Asked.step {choice : Choice} {x : Access × Request × List Candidate}
    (h : Asked ops r) (hstep : step schema s t r choice = some x) :
    Asked (ops ++ choice.secondaryOps) x.2.1 := by
  obtain ⟨observations, stage⟩ := r
  cases choice with
  | read tableName key =>
    rw [show ops ++ (Choice.read tableName key).secondaryOps = ops from List.append_nil _]
    cases stage with
    | staging =>
      cases hstep
      exact (asked_staging (readStart_staging tableName key)).mpr ((asked_staging rfl).mp h)
    | _ => cases hstep
  | submit =>
    cases stage with
    | staging =>
      have hnone : ops = [] := h
      simp only [Stateless.step] at hstep
      split_ifs at hstep
      · cases hstep
        trivial
      · cases hstep
        rw [hnone]
        exact ⟨⟨rfl, rfl⟩, fun _ hx => by cases hx⟩
    | _ => cases hstep
  | next byte =>
    rw [show ops ++ (Choice.next byte).secondaryOps = ops from List.append_nil _]
    cases stage with
    | reading tableName key reading =>
      cases hstep
      exact (asked_staging (readStep_staging tableName key byte reading)).mpr
        ((asked_staging rfl).mp h)
    | committing c pc =>
      cases hstep
      exact .commit h.1 h.2 (commitStep_move schema s t c pc)
    | _ => cases hstep

/-! ## Installing -/

/-- The lists of a commit on the way through its install loops. -/
def PcInstalling (s : Store) (c : Commit) : Pc → Prop
  | .installRows _ => ∀ op ∈ c.resolvedSiOps, (s.item op.item).content = s.current op.slot
  | .installSecondary todo => ∃ done, c.resolvedSiOps = done ++ todo ∧
      ∀ op ∈ c.resolvedSiOps, (s.item op.item).content
        = (writesTo op.slot (done.map ResolvedSecondaryIndexOp.toOp)).foldl WriteOp.apply
          (s.current op.slot)
  | _ => True

/-- What the items hold while a commit installs. -/
def Installing (s : Store) (r : Request) : Prop :=
  match r.stage with
  | .committing c pc => PcInstalling s c pc
  | _ => True

theorem Installing.rely (hstore : StoreInv s) (hstore' : StoreInv s')
    (hinv : RequestInv s t r) (h : Installing s r) (hrely : Rely (.tx t) s s') :
    Installing s' r := by
  obtain ⟨observations, stage⟩ := r
  cases stage with
  | committing c pc =>
    obtain ⟨hprepared, hpc⟩ := hinv.stage
    -- the lists of the request are in items it holds
    have held : Locked s t c → ∀ op ∈ c.resolvedSiOps,
        s'.item op.item = s.item op.item ∧ s'.current op.slot = s.current op.slot :=
      fun hlocked op hop => hlocked.target_rely hprepared hstore hstore' hrely (hprepared.op op hop)
    cases pc with
    | installRows =>
      intro op hop
      obtain ⟨hitem, hcurrent⟩ := held hpc.1 op hop
      rw [hitem, hcurrent]
      exact h op hop
    | installSecondary =>
      obtain ⟨done, hdone, hlists⟩ := h
      refine ⟨done, hdone, fun op hop => ?_⟩
      obtain ⟨hitem, hcurrent⟩ := held hpc.1 op hop
      rw [hitem, hcurrent]
      exact hlists op hop
    | _ => trivial
  | _ => trivial

/-- A row and an entry are in two items. -/
theorem Prepared.row_ne (hprepared : Prepared s observations c) {w : ResolvedWrite}
    {op : ResolvedSecondaryIndexOp} (hw : w ∈ c.resolvedWrites) (hop : op ∈ c.resolvedSiOps) :
    op.item ≠ w.item := by
  intro heq
  have hentry := hprepared.op_home hop
  rw [heq, hprepared.write_home hw] at hentry
  cases hentry

/-- Two entries are in one item when they are the same one. -/
theorem Prepared.op_item (hprepared : Prepared s observations c) (hlocked : Locked s t c)
    {op op' : ResolvedSecondaryIndexOp} (hop : op ∈ c.resolvedSiOps)
    (hop' : op' ∈ c.resolvedSiOps) : op'.item = op.item ↔ op.slot = op'.slot := by
  have hhome := hprepared.op_home hop
  have hhome' := hprepared.op_home hop'
  constructor
  · intro heq
    rw [← hhome, ← hhome', heq]
  · intro heq
    refine hlocked.eq_of_home (hprepared.listed _ (hprepared.op op' hop'))
      (hprepared.listed _ (hprepared.op op hop)) ?_
    rw [hhome', ← heq, hhome]

/-- One operation is installed. -/
theorem installing_op {op : ResolvedSecondaryIndexOp} {todo : List ResolvedSecondaryIndexOp}
    (hprepared : Prepared s observations c) (hlocked : Locked s t c)
    (h : PcInstalling s c (.installSecondary (op :: todo))) :
    PcInstalling (s.access (.tx t) (.install op.item (installedEntry (s.item op.item) op))) c
      (.installSecondary todo) := by
  obtain ⟨done, hdone, hlists⟩ := h
  have hop : op ∈ c.resolvedSiOps := by
    rw [hdone]
    exact List.mem_append_right _ (.head _)
  refine ⟨done ++ [op], by rw [hdone, List.append_assoc]; rfl, fun op' hop' => ?_⟩
  have hcurrent : (s.access (.tx t) (.install op.item (installedEntry (s.item op.item) op))).current
      op'.slot = s.current op'.slot := Store.current_of_versions rfl
  rw [List.map_append, List.map_cons, List.map_nil, writesTo_concat, List.foldl_append, hcurrent,
    ← hlists op' hop']
  show (Function.update s.item op.item _ op'.item).content = _
  have hslot : op.toOp.slot = op.slot := rfl
  by_cases hsame : op'.item = op.item
  · rw [if_pos (hslot.trans ((hprepared.op_item hlocked hop hop').mp hsame)), hsame,
      Function.update_self]
    rfl
  · have hne : ¬ op.toOp.slot = op'.slot :=
      fun heq => hsame ((hprepared.op_item hlocked hop hop').mpr heq)
    rw [if_neg hne, Function.update_of_ne hsame]
    rfl

/-- One step of `Commit`. -/
theorem Installing.commit {pc : Pc} {x : Access × Stage × List Candidate} (hstore : StoreInv s)
    (hprepared : Prepared s observations c) (hpc : PcInv s t c pc) (h : PcInstalling s c pc)
    (hmove : CommitMove schema s t c pc x) :
    Installing (s.access (.tx t) x.1) ⟨observations, x.2.1⟩ := by
  cases hmove with
  | unique =>
    -- under the lock the item holds the list as it is
    intro op hop
    have hlisted : op.item ∈ c.lockItems := hprepared.listed _ (hprepared.op op hop)
    have hhome := hprepared.op_home hop
    have hcurrent := hstore.attached_entry (hpc.1.attached _ hlisted)
      (hpc.1.clean_of_mem hlisted) hhome
    rw [hhome] at hcurrent
    exact hcurrent.symm
  | @installRow write todo =>
    intro op hop
    have hne : op.item ≠ write.item := hprepared.row_ne (hpc.2.2 (.head _)) hop
    show (Function.update s.item write.item _ op.item).content = _
    rw [Function.update_of_ne hne]
    exact h op hop
  | rowsInstalled => exact ⟨[], rfl, h⟩
  | installOp => exact installing_op hprepared hpc.1 h
  | _ => trivial

theorem Installing.step {choice : Choice} {x : Access × Request × List Candidate}
    (hstore : StoreInv s) (hinv : RequestInv s t r) (h : Installing s r)
    (hstep : step schema s t r choice = some x) : Installing (s.access (.tx t) x.1) x.2.1 := by
  cases step_cases hstep with
  | commit hmove => exact .commit hstore hinv.stage.1 hinv.stage.2 h hmove
  | _ => trivial

/-! ## What is published to a list -/

/-- A list is published with the operations of the request on top of what was there. -/
def Appends : Publication := fun _ ops k before after =>
  (∃ op ∈ ops, op.slot = k) →
    after = (writesTo k (ops.map ResolvedSecondaryIndexOp.toOp)).foldl WriteOp.apply before

/-- With the install loops through, every list is there. -/
theorem Installing.done (hprepared : Prepared s observations c) (hlocked : Locked s t c)
    (h : PcInstalling s c (.installSecondary [])) {i : ItemId} (hi : i ∈ c.lockItems) :
    Appends.of c (s.item i).home (s.current (s.item i).home) (s.item i).content := by
  rintro ⟨op, hop, hslot⟩
  obtain ⟨done, hdone, hlists⟩ := h
  rw [List.append_nil] at hdone
  have hitem : op.item = i := hlocked.eq_of_home (hprepared.listed _ (hprepared.op op hop)) hi
    ((hprepared.op_home hop).trans hslot)
  rw [← hslot, ← hitem, hdone]
  exact hlists op hop

/-- What a request has asked for, once it has decided. -/
theorem Asked.decided (h : Asked ops r) (hdecided : r.stage.decided = some c) :
    c.resolvedSiOps.map ResolvedSecondaryIndexOp.toOp = ops ∧ c.Aimed := by
  obtain ⟨observations, rfl | ⟨todo, rfl⟩ | ⟨todo, rfl⟩⟩ := decided_cases hdecided <;> exact h

variable {k : Slot}

/-- **What a request has published to a list** are its operations, one after the other, on
top of what was there. -/
theorem Asked.wrote (hinv : RequestInv s t r)
    (hentry : ∃ tableName indexName key, k = .entry tableName indexName key) (h : Asked ops r)
    (hpublishes : Publishes Appends s t r) :
    s.Wrote (.tx t) k fun before after =>
      after = (writesTo k ops).foldl WriteOp.apply before := by
  cases hdecided : r.stage.decided with
  | none => exact (hpublishes.unwritten hdecided k).wrote
  | some c =>
    obtain ⟨hops, haimed⟩ := h.decided hdecided
    by_cases hop : ∃ op ∈ c.resolvedSiOps, op.slot = k
    · obtain ⟨op, hmem, rfl⟩ := hop
      have hwrote := hpublishes.wrote hdecided ((hpublishes.targets hinv hdecided).2 op hmem)
      intro n v hv howner
      rw [← hops]
      exact hwrote n v hv howner ⟨op, hmem, rfl⟩
    · obtain ⟨todo, hpublishing⟩ := hpublishes.publishing hdecided
      refine (hpublishing.aims k ?_).wrote
      rintro ⟨x, hx, hslot⟩
      refine hop ?_
      obtain ⟨tableName, indexName, key, rfl⟩ := hentry
      obtain ⟨op, hmem, hsame⟩ := haimed x hx _ _ _ hslot
      exact ⟨op, hmem, hsame.trans hslot⟩

/-- A committed request has published its operations. -/
theorem Asked.published {R : Publication} (h : Asked ops r)
    (hpublishes : Publishes R s t r) (hcommitted : r.stage = .committed c)
    (hops : writesTo k ops ≠ []) :
    ∃ (n : ℕ) (v : Owner × Version), (s.versions k)[n]? = some v ∧ v.1 = .tx t := by
  have hdecided : r.stage.decided = some c := by
    rw [hcommitted]
    rfl
  obtain ⟨hsame, -⟩ := h.decided hdecided
  obtain ⟨o, ho⟩ := List.exists_mem_of_ne_nil _ hops
  obtain ⟨hmem, hslot⟩ := List.mem_filter.mp ho
  rw [← hsame] at hmem
  obtain ⟨op, hop, rfl⟩ := List.mem_map.mp hmem
  unfold Publishes at hpublishes
  rw [hcommitted] at hpublishes
  have hk : op.slot = k := of_decide_eq_true hslot
  rw [← hk]
  exact (hpublishes.toPublishing.version ⟨_, hpublishes.op op hop, rfl⟩).version

end LineairDB.Stateless
