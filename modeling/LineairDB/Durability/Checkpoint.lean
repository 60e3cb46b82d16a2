import LineairDB.Durability.Frontier
import LineairDB.Durability.Sync
import LineairDB.Recovery.Image

/-!
# The checkpoint pass

`RunOnce` beside the committing threads, the epoch writer and the flusher. A commit
installs its slots one at a time while its thread is online, and enqueues its
record before it goes offline; the pass reads the cut, waits in `Sync`, captures
slots in any order, reads the end epoch, waits until that is durable, reads the
log's frontier and publishes.

A capture takes a slot no writer holds, at the moment its two loads agree.
Beside the program's own variables the state keeps which commit a slot's version
belongs to, the commits that are over, and which of them were over when the
scan began.

* `CheckpointInv.step` — commits under way are online in their epoch, the others
  have their record enqueued, and no step takes back what is `Later`.
* `checkpoint_behind_log` — an image never runs ahead of the log.
-/

namespace LineairDB.Recovery

open ByteFile Silo

variable {indexType : Bytes → Bytes → UInt32}

/-! ## A commit that writes logs something -/

theorem capture_tid {k : Slot} {x : Held} {pair : KeyValuePair}
    (h : capture indexType k x = some pair) : pair.tid = x.word := by
  cases k <;> simp only [capture] at h <;> split at h <;> cases h <;> rfl

namespace Transaction

/-- The deltas logged of an entry are never none. -/
theorem Logs.ne_nil {tx : Transaction} {table index key : Bytes}
    {deltas : List SecondaryIndexDelta} (h : tx.Logs (.entry table index key) deltas) :
    deltas ≠ [] := by
  have hrecord : ∀ op : WriteOp, op.slot = .entry table index key →
      ∀ before, op.record before ≠ [] := by
    intro op hslot before
    cases op with
    | row => cases hslot
    | entry => exact recordSecondaryIndexDelta_ne_nil
  unfold Logs at h
  split at h
  · obtain ⟨op, -, hslot, rfl⟩ := h
    exact hrecord op hslot []
  · obtain ⟨hk, rfl⟩ := h
    obtain ⟨op, hop, hslot⟩ := Transaction.mem_slots.mp hk
    have hmem : op ∈ writesTo (.entry table index key) tx.ops :=
      List.mem_filter.mpr ⟨hop, decide_eq_true hslot⟩
    obtain ⟨init, last, hlast⟩ : ∃ init last,
        writesTo (.entry table index key) tx.ops = init ++ [last] :=
      ⟨_, _, (List.dropLast_append_getLast (List.ne_nil_of_mem hmem)).symm⟩
    have hslot : last.slot = .entry table index key := by
      have hin : last ∈ writesTo (.entry table index key) tx.ops := by simp [hlast]
      exact of_decide_eq_true (List.mem_filter.mp hin).2
    rw [secondaryIndexDeltas, hlast, List.foldl_append]
    exact hrecord last hslot _

theorem writeSet_persists {tx : Transaction} (held : Slot → Held) (h : tx.slots ≠ []) :
    (tx.writeSet indexType held).flatMap Snapshot.keyValuePairs ≠ [] := by
  obtain ⟨k, hk⟩ := List.exists_mem_of_ne_nil _ h
  obtain ⟨deltas, hlog⟩ := exists_logs hk
  have hsome : (slotSnapshot indexType held k deltas).keyValuePairs ≠ [] := by
    cases k with
    | row => exact List.cons_ne_nil _ _
    | entry =>
      unfold Snapshot.keyValuePairs
      split
      · exact List.cons_ne_nil _ _
      · simpa [slotSnapshot] using hlog.ne_nil
  obtain ⟨pair, hpair⟩ := List.exists_mem_of_ne_nil _ hsome
  exact List.ne_nil_of_mem (List.mem_flatMap.mpr
    ⟨_, mem_writeSet.mpr ⟨k, deltas, hlog, rfl⟩, hpair⟩)

end Transaction

end LineairDB.Recovery

namespace LineairDB.Durability

open Recovery ByteFile FaultyIo Silo Transition
open Function (update_self update_of_ne update update_apply)

/-! ## The system -/

/-- A commit that has passed its validation: which one it is, and every slot as it leaves it. -/
structure Commit where
  id : ℕ
  tx : Transaction
  after : Slot → Held

/-- A commit under way, with the slots it has still to install. -/
structure Installing where
  commit : Commit
  todo : List Slot

/-- A captured version, and the commit it belongs to. -/
structure Version where
  slot : Slot
  pair : KeyValuePair
  owner : ℕ
  deriving Repr, DecidableEq

/-- What the pass has gathered since the barrier. `stopped` says that `Sync` gave up because
the framework was being stopped; `installedBefore` are the commits that were over when the
scan began. -/
structure Draft where
  cutEpoch : EpochNumber
  stopped : Bool
  installedBefore : List Commit
  versions : List Version

variable {a : Action} {e : EpochNumber} {records : LogRecords} {d : Draft} {v : Version}

/-- An image on disk. -/
structure Image extends Draft where
  endEpoch : EpochNumber
  walFrontierAtPublish : EpochNumber

/-- Where the pass is. -/
inductive Runner where
  | idle
  | cut (cutEpoch : EpochNumber)
  | syncing (cutEpoch startedAt : EpochNumber) (pc : SyncPc)
  | scanning (draft : Draft)
  | waiting (draft : Draft) (endEpoch : EpochNumber)
  | durable (draft : Draft) (endEpoch : EpochNumber)
  | writing (image : Image)

/-- The logging system with its memory, its commits and the checkpoint runner. -/
structure CheckpointState where
  base : State
  memory : Slot → Held
  locked : Slot → Bool
  installing : ThreadId → Option Installing
  begun : ℕ
  owner : Slot → ℕ
  finished : List Commit
  runner : Runner
  image : Option Image

/-- Steps of the checkpoint runner. -/
inductive RunnerAction where
  | readCut
  | callSync
  | sync
  | beginScan
  | capture (k : Slot)
  | endScan
  | waitUntilDurable
  | readFrontier
  | publish
  | giveUp
  deriving Repr, DecidableEq

/-- Steps of the logging system, of commits and of the runner. -/
inductive CheckpointAction where
  | base (a : Action)
  | lock (t : ThreadId) (stateless : Bool) (ops : List WriteOp)
  | install (t : ThreadId)
  | finish (t : ThreadId)
  | runner (a : RunnerAction)
  deriving Repr, DecidableEq

section Step

variable (mp : Msgpack) (indexType : Bytes → Bytes → UInt32)

/-- `RunOnce`, `CaptureTable` and `Publish`. -/
def runnerStep (s : CheckpointState) : RunnerAction → Option CheckpointState
  | .readCut =>
    match s.runner with
    | .idle => some { s with runner := .cut s.base.globalEpoch }
    | _ => none
  | .callSync =>
    match s.runner with
    | .cut cutEpoch => some { s with runner := .syncing cutEpoch s.base.globalEpoch (.loop 0) }
    | _ => none
  | .sync =>
    match s.runner with
    | .syncing cutEpoch startedAt pc =>
      (pc.step s.base).map fun pc => { s with runner := .syncing cutEpoch startedAt pc }
    | _ => none
  | .beginScan =>
    match s.runner with
    | .syncing cutEpoch _ (.returned _) =>
      some { s with runner := .scanning ⟨cutEpoch, false, s.finished, []⟩ }
    | .syncing cutEpoch _ (.stopped _) =>
      some { s with runner := .scanning ⟨cutEpoch, true, s.finished, []⟩ }
    | _ => none
  | .capture k =>
    match s.runner with
    | .scanning draft =>
      if s.locked k then none
      else
        match Recovery.capture indexType k (s.memory k) with
        -- a tombstone is skipped
        | none => some s
        | some pair =>
          some { s with
            runner := .scanning
              { draft with versions := draft.versions ++ [⟨k, pair, s.owner k⟩] } }
    | _ => none
  | .endScan =>
    match s.runner with
    | .scanning draft => some { s with runner := .waiting draft s.base.globalEpoch }
    | _ => none
  | .waitUntilDurable =>
    match s.runner with
    | .waiting draft endEpoch =>
      if endEpoch ≤ s.base.durableEpoch then some { s with runner := .durable draft endEpoch }
      else none
    | _ => none
  | .readFrontier =>
    match s.runner with
    | .durable draft endEpoch =>
      some { s with runner := .writing ⟨draft, endEpoch, s.base.wal.frontier⟩ }
    | _ => none
  | .publish =>
    match s.runner with
    | .writing image => some { s with runner := .idle, image := some image }
    | _ => none
  -- an unstable row, a log that does not become durable, a file that cannot be written
  | .giveUp => some { s with runner := .idle }

/-- A thread enqueues the record of its commit, and stays online until then. -/
def CheckpointState.permits (s : CheckpointState) : Action → Bool
  | .thread _ (.enqueue _) => false
  | .thread t (.makeMeOffline _) => (s.installing t).isNone
  | _ => true

/-- One step. -/
def checkpointStep (s : CheckpointState) : CheckpointAction → Option CheckpointState
  | .base a =>
    if s.permits a then (step mp s.base a).map fun base => { s with base := base } else none
  | .lock t stateless ops =>
    match s.base.thread t with
    | .online epoch _ =>
      let tx : Transaction := ⟨stateless, epoch, ops⟩
      if s.base.aborted.isNone ∧ (s.installing t).isNone ∧ ∀ k ∈ tx.slots, s.locked k = false then
        some { s with
          locked := fun k => s.locked k || decide (k ∈ tx.slots)
          installing := update s.installing t (some ⟨⟨s.begun, tx, s.memory⟩, tx.slots⟩)
          begun := s.begun + 1 }
      else none
    | _ => none
  | .install t =>
    match s.installing t with
    | some ⟨commit, k :: todo⟩ =>
      let x : Held := ⟨(s.memory k).word.locked.next commit.tx.epoch,
        commit.tx.install indexType k (s.memory k).content⟩
      some { s with
        memory := update s.memory k x
        locked := update s.locked k false
        owner := update s.owner k commit.id
        installing := update s.installing t
          (some ⟨{ commit with after := update commit.after k x }, todo⟩) }
    | _ => none
  | .finish t =>
    match s.installing t with
    | some ⟨commit, []⟩ =>
      (step mp s.base (.thread t (.enqueue (commit.tx.writeSet indexType commit.after)))).map
        fun base =>
          { s with
            base := base
            installing := update s.installing t none
            finished := s.finished ++ [commit] }
    | _ => none
  | .runner a => if s.base.aborted.isSome then none else runnerStep indexType s a

end Step

/-- The record of a commit. -/
def Commit.record (indexType : Bytes → Bytes → UInt32) (c : Commit) : LogRecord :=
  logRecord (c.tx.writeSet indexType c.after) c.tx.epoch

/-- The commit published this version. -/
def Commit.Wrote (c : Commit) (v : Version) : Prop :=
  c.id = v.owner ∧ v.slot ∈ c.tx.slots ∧ v.pair.tid = (c.after v.slot).word

/-- A state right after recovery: what memory holds was written by commits that are over, at
epochs the log reaches, and their records were recovered. -/
structure Recovered (indexType : Bytes → Bytes → UInt32) (frontier : EpochNumber)
    (recovered : LogRecords) (memory : Slot → Held) (owner : Slot → ℕ) (earlier : List Commit) :
    Prop where
  memory_le : ∀ k, (memory k).word.epoch ≤ frontier
  written : ∀ k pair, capture indexType k (memory k) = some pair →
    ∃ c ∈ earlier, c.Wrote ⟨k, pair, owner k⟩
  logged : ∀ c ∈ earlier, c.record indexType ∈ recovered

/-- The system when the checkpoint thread starts. -/
def checkpointBoot (base : State) (memory : Slot → Held) (owner : Slot → ℕ)
    (earlier : List Commit) : CheckpointState where
  base := base
  memory := memory
  locked := fun _ => false
  installing := fun _ => none
  begun := earlier.length
  owner := owner
  finished := earlier
  runner := .idle
  image := none

/-! ## Steps of the base system -/

variable {mp : Msgpack} {bytes : Bytes} {indexType : Bytes → Bytes → UInt32}
  {recovered : LogRecords}

/-- A thread leaves its epoch by `MakeMeOffline` only. -/
theorem online_of_step {s s' : State} {t : ThreadId} (hstep : step mp s a = some s')
    (honline : s.thread t = .online e records)
    (hstays : ∀ sync, a ≠ .thread t (.makeMeOffline sync)) :
    ∃ records', s'.thread t = .online e records' := by
  unfold step at hstep
  split at hstep
  · cases hstep
  cases a with
  | thread u a =>
    by_cases hut : u = t
    · subst hut
      cases a with
      | makeMeOffline sync => exact absurd rfl (hstays sync)
      | enqueue =>
        simp only [threadStep, honline] at hstep
        split at hstep
        · cases hstep
          exact ⟨records, honline⟩
        split at hstep
        · cases hstep
          exact ⟨_, update_self ..⟩
        · cases hstep
      | registerNode =>
        simp only [threadStep] at hstep
        split at hstep
        · cases hstep
          exact ⟨records, honline⟩
        · cases hstep
      | registerSlot | loadEpoch | storeEpoch | reloadEpoch | awaitCommitDurability =>
        simp [threadStep, honline] at hstep
    · have hother : ∀ th, update s.thread u th t = s.thread t := fun th =>
        update_of_ne (Ne.symm hut) th s.thread
      refine ⟨records, ?_⟩
      rw [← honline]
      cases threadStep_effect hstep <;> first | exact hother _ | rfl
  | writer => exact ⟨records, by cases writerStep_effect hstep <;> exact honline⟩
  | flusher => exact ⟨records, by cases flusherStep_effect hstep <;> exact honline⟩

theorem mem_enqueued_of_step {s s' : State} {record : LogRecord} (hstep : step mp s a = some s')
    (h : record ∈ s.enqueued) : record ∈ s'.enqueued := by
  unfold step at hstep
  split at hstep
  · cases hstep
  cases a with
  | thread =>
    cases threadStep_effect hstep with
    | enqueue => exact List.mem_append_left _ h
    | _ => exact h
  | writer => cases writerStep_effect hstep <;> exact h
  | flusher => cases flusherStep_effect hstep <;> exact h

/-- `Enqueue` puts a record that says something into the buffer. -/
theorem mem_enqueued_of_enqueue {s s' : State} {t : ThreadId} {ws : List Snapshot}
    (honline : s.thread t = .online e records)
    (hstep : step mp s (.thread t (.enqueue ws)) = some s')
    (hpersists : ws.flatMap Snapshot.keyValuePairs ≠ []) : logRecord ws e ∈ s'.enqueued := by
  have hrecord : (logRecord ws e).keyValuePairs ≠ [] := hpersists
  simp only [step, threadStep, honline, if_neg hrecord, Option.ite_none_left_eq_some,
    Option.ite_none_right_eq_some] at hstep
  obtain ⟨-, -, ⟨⟩⟩ := hstep
  exact List.mem_concat_self

/-! ## Commits and versions -/

/-- The version belongs to a commit that is over, or to one that has got past its slot. -/
def CheckpointState.Sourced (s : CheckpointState) (v : Version) : Prop :=
  (∃ c ∈ s.finished, c.Wrote v) ∨
    ∃ t o, s.installing t = some o ∧ v.slot ∉ o.todo ∧ o.commit.Wrote v

/-- A commit under way runs in the epoch its thread is online in, and stamps it. -/
structure Installing.Inv (s : State) (t : ThreadId) (o : Installing) : Prop where
  online : ∃ records, s.thread t = .online o.commit.tx.epoch records
  nodup : o.todo.Nodup
  todo : ∀ k ∈ o.todo, k ∈ o.commit.tx.slots
  stamped : ∀ k ∈ o.commit.tx.slots, k ∉ o.todo →
    (o.commit.after k).word.epoch = o.commit.tx.epoch

/-- A commit of this session that is over has stamped its slots and enqueued its record. -/
structure Commit.Enqueued (indexType : Bytes → Bytes → UInt32) (s : State) (c : Commit) :
    Prop where
  stamped : ∀ k ∈ c.tx.slots, (c.after k).word.epoch = c.tx.epoch
  enqueued : c.tx.slots ≠ [] → c.record indexType ∈ s.enqueued

/-- Memory and commits are accounted for by the log. -/
structure CheckpointInv (mp : Msgpack) (bytes : Bytes) (indexType : Bytes → Bytes → UInt32)
    (recovered : LogRecords) (s : CheckpointState) : Prop where
  base : Inv mp bytes s.base
  memory_le : ∀ k, (s.memory k).word.epoch.toNat ≤ s.base.globalEpoch.toNat
  sourced : ∀ k pair, capture indexType k (s.memory k) = some pair →
    s.Sourced ⟨k, pair, s.owner k⟩
  installing : ∀ t o, s.installing t = some o → o.Inv s.base t
  finished : ∀ c ∈ s.finished, c.record indexType ∈ recovered ∨ c.Enqueued indexType s.base

/-- What no step takes back. -/
structure Later (s s' : CheckpointState) : Prop where
  advances : Advances s.base s'.base
  durable : s.base.durableEpoch.toNat ≤ s'.base.durableEpoch.toNat
  sourced : ∀ v, s.Sourced v → s'.Sourced v
  finished : ∀ c ∈ s'.finished,
    c ∈ s.finished ∨ s.base.globalEpoch.toNat ≤ c.tx.epoch.toNat + 1

section Steps

variable {s s' : CheckpointState} {t : ThreadId}

theorem Installing.Inv.epoch_le {s : State} {o : Installing} (h : o.Inv s t)
    (hepochs : EpochsInv s) : o.commit.tx.epoch.toNat ≤ s.globalEpoch.toNat ∧
      s.globalEpoch.toNat ≤ o.commit.tx.epoch.toNat + 1 := by
  obtain ⟨records, honline⟩ := h.online
  exact (hepochs.lag t _ records honline).2

section

variable (h : CheckpointInv mp bytes indexType recovered s)

include h

/-- A step of the threads, the epoch writer or the flusher. -/
theorem CheckpointInv.base_step {base : State}
    (hpermits : s.permits a = true) (hstep : step mp s.base a = some base) :
    CheckpointInv mp bytes indexType recovered { s with base := base } ∧
      Later s { s with base := base } := by
  have hadvances := Advances.of_step hstep
  refine ⟨⟨h.base.step hstep, fun k => Nat.le_trans (h.memory_le k) hadvances.1, h.sourced, ?_, ?_⟩,
    hadvances, (h.base.extends hstep).1, fun v hv => hv, fun c hc => .inl hc⟩
  · intro t o ho
    obtain ⟨⟨records, honline⟩, hnodup, htodo, hstamped⟩ := h.installing t o ho
    refine ⟨online_of_step hstep honline ?_, hnodup, htodo, hstamped⟩
    rintro sync rfl
    have hnone : (s.installing t).isNone = true := hpermits
    rw [ho] at hnone
    cases hnone
  · intro c hc
    refine (h.finished c hc).imp_right fun henqueued => ⟨henqueued.stamped, fun hne => ?_⟩
    exact mem_enqueued_of_step hstep (henqueued.enqueued hne)

theorem CheckpointInv.lock
    (honline : s.base.thread t = .online e records) (hnone : s.installing t = none)
    {tx : Transaction} (hepoch : tx.epoch = e) (locked : Slot → Bool) (begun : ℕ) :
    let s' := { s with
      locked := locked
      installing := update s.installing t (some ⟨⟨s.begun, tx, s.memory⟩, tx.slots⟩)
      begun := begun }
    CheckpointInv mp bytes indexType recovered s' ∧ Later s s' := by
  intro s'
  have hsourced : ∀ v, s.Sourced v → s'.Sourced v := by
    rintro v (hfinished | ⟨u, o, ho, hslot, hwrote⟩)
    · exact .inl hfinished
    · refine .inr ⟨u, o, ?_, hslot, hwrote⟩
      have hut : u ≠ t := by
        rintro rfl
        rw [hnone] at ho
        cases ho
      exact (update_of_ne hut _ _).trans ho
  refine ⟨⟨h.base, h.memory_le, fun k pair hpair => hsourced _ (h.sourced k pair hpair), ?_,
    h.finished⟩, .refl _, le_rfl, hsourced, fun c hc => .inl hc⟩
  intro u o ho
  by_cases hut : u = t
  · subst hut
    change update s.installing u _ u = some o at ho
    rw [update_self] at ho
    cases ho
    refine ⟨⟨records, ?_⟩, List.nodup_dedup _, fun k hk => hk, fun k hk hnot => absurd hk hnot⟩
    rw [hepoch]
    exact honline
  · exact h.installing u o ((update_of_ne hut _ _).symm.trans ho)

/-- Installing a slot passes it to the commit, in the commit's epoch. -/
theorem CheckpointInv.install {commit : Commit} {k : Slot} {todo : List Slot}
    (ho : s.installing t = some ⟨commit, k :: todo⟩) {x : Held}
    (hx : x.word.epoch = commit.tx.epoch) (locked : Slot → Bool) : let s' := { s with
      memory := update s.memory k x
      locked := locked
      owner := update s.owner k commit.id
      installing := update s.installing t
        (some ⟨{ commit with after := update commit.after k x }, todo⟩) }
    CheckpointInv mp bytes indexType recovered s' ∧ Later s s' := by
  intro s'
  have hinv := h.installing t _ ho
  obtain ⟨hhead, htail⟩ := List.nodup_cons.mp hinv.nodup
  have hk : k ∈ commit.tx.slots := hinv.todo k (.head _)
  have hsourced : ∀ v, s.Sourced v → s'.Sourced v := by
    rintro v (hfinished | ⟨u, o, hu, hslot, hwrote⟩)
    · exact .inl hfinished
    by_cases hut : u = t
    · subst hut
      obtain rfl := Option.some.inj (ho.symm.trans hu)
      obtain ⟨hid, hmem, htid⟩ := hwrote
      have hne : v.slot ≠ k := fun heq => hslot (heq ▸ List.mem_cons_self)
      refine .inr ⟨u, _, update_self .., fun hin => hslot (.tail _ hin), hid, hmem, ?_⟩
      rw [htid]
      exact congrArg Held.word (update_of_ne hne x commit.after).symm
    · exact .inr ⟨u, o, (update_of_ne hut _ _).trans hu, hslot, hwrote⟩
  refine ⟨⟨h.base, ?_, ?_, ?_, h.finished⟩, .refl _, le_rfl, hsourced, fun c hc => .inl hc⟩
  · intro k'
    show (update s.memory k x k').word.epoch.toNat ≤ _
    by_cases hkk : k' = k
    · rw [hkk, update_self, hx]
      exact (hinv.epoch_le h.base.epochs).1
    · rw [update_of_ne hkk]
      exact h.memory_le k'
  · intro k' pair hpair
    change capture indexType k' (update s.memory k x k') = some pair at hpair
    show s'.Sourced ⟨k', pair, update s.owner k commit.id k'⟩
    rw [update_apply] at hpair ⊢
    split_ifs at hpair ⊢ with hkk
    · subst hkk
      refine .inr ⟨t, _, update_self .., hhead, rfl, hk, ?_⟩
      rw [capture_tid hpair]
      exact congrArg Held.word (update_self k' x commit.after).symm
    · exact hsourced _ (h.sourced k' pair hpair)
  · intro u o hu
    by_cases hut : u = t
    · subst hut
      change update s.installing u _ u = some o at hu
      rw [update_self] at hu
      cases hu
      refine ⟨hinv.online, htail, fun k' hk' => hinv.todo k' (.tail _ hk'), ?_⟩
      intro k' hk' hnot
      show (update commit.after k x k').word.epoch = _
      rw [update_apply]
      split_ifs with hkk
      · exact hx
      · refine hinv.stamped k' hk' fun hin => ?_
        rcases List.mem_cons.mp hin with heq | hin
        · exact hkk heq
        · exact hnot hin
    · exact h.installing u o ((update_of_ne hut _ _).symm.trans hu)

/-- A commit is over once it has enqueued its record, still online. -/
theorem CheckpointInv.finish {commit : Commit} {base : State}
    (ho : s.installing t = some ⟨commit, []⟩)
    (hstep : step mp s.base (.thread t (.enqueue (commit.tx.writeSet indexType commit.after)))
      = some base) : let s' := { s with
      base := base
      installing := update s.installing t none
      finished := s.finished ++ [commit] }
    CheckpointInv mp bytes indexType recovered s' ∧ Later s s' := by
  intro s'
  have hinv := h.installing t _ ho
  have hadvances := Advances.of_step hstep
  have hsourced : ∀ v, s.Sourced v → s'.Sourced v := by
    rintro v (⟨c, hc, hwrote⟩ | ⟨u, o, hu, hslot, hwrote⟩)
    · exact .inl ⟨c, List.mem_append_left _ hc, hwrote⟩
    by_cases hut : u = t
    · subst hut
      obtain rfl := Option.some.inj (ho.symm.trans hu)
      exact .inl ⟨_, List.mem_concat_self, hwrote⟩
    · exact .inr ⟨u, o, (update_of_ne hut _ _).trans hu, hslot, hwrote⟩
  refine ⟨⟨h.base.step hstep, fun k => Nat.le_trans (h.memory_le k) hadvances.1,
    fun k pair hpair => hsourced _ (h.sourced k pair hpair), ?_, ?_⟩,
    hadvances, (h.base.extends hstep).1, hsourced, ?_⟩
  · intro u o hu
    by_cases hut : u = t
    · subst hut
      change update s.installing u none u = some o at hu
      rw [update_self] at hu
      cases hu
    · obtain ⟨⟨records, honline⟩, hnodup, htodo, hstamped⟩ :=
        h.installing u o ((update_of_ne hut _ _).symm.trans hu)
      refine ⟨online_of_step hstep honline ?_, hnodup, htodo, hstamped⟩
      intro sync heq
      cases heq
  · refine forall_mem_concat.mpr ⟨fun c hc => ?_, ?_⟩
    · refine (h.finished c hc).imp_right fun henqueued => ⟨henqueued.stamped, fun hne => ?_⟩
      exact mem_enqueued_of_step hstep (henqueued.enqueued hne)
    · obtain ⟨records, honline⟩ := hinv.online
      exact .inr ⟨fun k hk => hinv.stamped k hk List.not_mem_nil,
        fun hne => mem_enqueued_of_enqueue honline hstep (Transaction.writeSet_persists _ hne)⟩
  · exact forall_mem_concat.mpr ⟨fun c => .inl, .inr (hinv.epoch_le h.base.epochs).2⟩

omit h in
/-- The pass itself changes nothing it shares. -/
theorem runnerStep_shares {a : RunnerAction} (hstep : runnerStep indexType s a = some s') :
    ∃ runner image, s' = { s with runner := runner, image := image } := by
  revert hstep
  fun_cases runnerStep indexType s a with
  | case5 =>
    intro hstep
    obtain ⟨pc, -, rfl⟩ := Option.map_eq_some_iff.mp hstep
    exact ⟨_, _, rfl⟩
  | case11 =>
    rintro ⟨⟩
    exact ⟨s.runner, s.image, rfl⟩
  | _ => rintro ⟨⟩ <;> exact ⟨_, _, rfl⟩

/-- **One step of any party.** -/
theorem CheckpointInv.step {a : CheckpointAction}
    (hstep : checkpointStep mp indexType s a = some s') :
    CheckpointInv mp bytes indexType recovered s' ∧ Later s s' := by
  revert hstep
  fun_cases checkpointStep mp indexType s a with
  | case1 _ hpermits =>
    intro hstep
    obtain ⟨base, hbase, rfl⟩ := Option.map_eq_some_iff.mp hstep
    exact h.base_step hpermits hbase
  | case3 _ _ _ _ _ honline _ hguard =>
    rintro ⟨⟩
    exact h.lock honline (Option.isNone_iff_eq_none.mp hguard.2.1) rfl _ _
  | case6 _ _ _ _ ho =>
    rintro ⟨⟩
    exact h.install ho (TransactionId.epoch_next _ _) _
  | case8 _ _ ho =>
    intro hstep
    obtain ⟨base, hbase, rfl⟩ := Option.map_eq_some_iff.mp hstep
    exact h.finish ho hbase
  | case11 =>
    intro hstep
    obtain ⟨runner, image, rfl⟩ := runnerStep_shares hstep
    exact ⟨{ h with }, .refl _, le_rfl, fun v hv => hv, fun c hc => .inl hc⟩
  | _ => nofun

end

end Steps

/-! ## What the pass knows -/

/-- From the scan on: unless it was cut short, the barrier has left every commit at or below
the cut behind, and every version taken so far belongs to a commit. -/
structure Draft.Inv (s : CheckpointState) (d : Draft) : Prop where
  barrier : d.stopped = false → d.cutEpoch.toNat + 2 ≤ s.base.globalEpoch.toNat
  before : d.stopped = false → ∀ c ∈ s.finished, c.tx.epoch.toNat ≤ d.cutEpoch.toNat →
    c ∈ d.installedBefore
  versions : ∀ v ∈ d.versions, s.Sourced v

/-- No version is past the epoch. -/
def Draft.Within (d : Draft) (e : EpochNumber) : Prop :=
  ∀ v ∈ d.versions, v.pair.tid.epoch.toNat ≤ e.toNat

/-- What holds of an image that has been written. -/
structure Image.Inv (s : CheckpointState) (image : Image) : Prop where
  draft : image.toDraft.Inv s
  within : image.Within image.endEpoch
  durable : image.endEpoch.toNat ≤ s.base.durableEpoch.toNat

/-- What holds of an image on its way. -/
def Runner.Inv (s : CheckpointState) : Runner → Prop
  | .idle => True
  | .cut cutEpoch => cutEpoch.toNat ≤ s.base.globalEpoch.toNat
  | .syncing cutEpoch startedAt pc => cutEpoch.toNat ≤ startedAt.toNat ∧ pc.Inv s.base startedAt
  | .scanning d => d.Inv s ∧ d.Within s.base.globalEpoch
  | .waiting d endEpoch => d.Inv s ∧ d.Within endEpoch
  | .durable d endEpoch =>
    d.Inv s ∧ d.Within endEpoch ∧ endEpoch.toNat ≤ s.base.durableEpoch.toNat
  | .writing image => image.Inv s

section Pass

variable {s s' : CheckpointState}

/-- Commits that end after the barrier are past the cut. -/
theorem Draft.Inv.later (h : d.Inv s) (hlater : Later s s') : d.Inv s' := by
  refine ⟨fun hd => Nat.le_trans (h.barrier hd) hlater.advances.1, ?_,
    fun v hv => hlater.sourced v (h.versions v hv)⟩
  intro hd c hc hle
  rcases hlater.finished c hc with hold | hnew
  · exact h.before hd c hold hle
  · have hbarrier := h.barrier hd
    omega

theorem Image.Inv.later {image : Image} (h : image.Inv s) (hlater : Later s s') : image.Inv s' :=
  ⟨h.draft.later hlater, h.within, Nat.le_trans h.durable hlater.durable⟩

theorem Runner.Inv.later {runner : Runner} (h : runner.Inv s) (hlater : Later s s') :
    runner.Inv s' := by
  cases runner with
  | idle => trivial
  | cut => exact Nat.le_trans h hlater.advances.1
  | syncing => exact ⟨h.1, h.2.advances hlater.advances⟩
  | scanning =>
    exact ⟨h.1.later hlater, fun v hv => Nat.le_trans (h.2 v hv) hlater.advances.1⟩
  | waiting => exact ⟨h.1.later hlater, h.2⟩
  | durable =>
    exact ⟨h.1.later hlater, h.2.1, Nat.le_trans h.2.2 hlater.durable⟩
  | writing => exact Image.Inv.later h hlater

/-- One more version. -/
theorem Draft.Inv.capture (h : d.Inv s) (hv : s.Sourced v) :
    Draft.Inv s { d with versions := d.versions ++ [v] } := by
  exact ⟨h.barrier, h.before, forall_mem_concat.mpr ⟨h.versions, hv⟩⟩

theorem Draft.Within.capture (h : d.Within e) (hv : v.pair.tid.epoch.toNat ≤ e.toNat) :
    Draft.Within { d with versions := d.versions ++ [v] } e := by
  exact forall_mem_concat.mpr ⟨h, hv⟩

/-- **One step of the pass.** -/
theorem Runner.Inv.step {a : RunnerAction} (hinv : CheckpointInv mp bytes indexType recovered s)
    (h : s.runner.Inv s) (himage : ∀ image, s.image = some image → image.Inv s)
    (hstep : runnerStep indexType s a = some s') :
    s'.runner.Inv s ∧ ∀ image, s'.image = some image → image.Inv s := by
  have known : ∀ {runner : Runner}, s.runner = runner → runner.Inv s := fun hrunner => hrunner ▸ h
  -- the scan begins with no version
  have hnone : ∀ v ∈ ([] : List Version), s.Sourced v := nofun
  have hwithin : ∀ v ∈ ([] : List Version),
      v.pair.tid.epoch.toNat ≤ s.base.globalEpoch.toNat := nofun
  revert hstep
  fun_cases runnerStep indexType s a with
  | case1 =>
    rintro ⟨⟩
    exact ⟨le_rfl, himage⟩
  | case3 _ hrunner =>
    rintro ⟨⟩
    exact ⟨⟨known hrunner, le_rfl⟩, himage⟩
  | case5 _ _ _ hrunner =>
    intro hstep
    obtain ⟨pc', hpc', rfl⟩ := Option.map_eq_some_iff.mp hstep
    exact ⟨⟨(known hrunner).1, (known hrunner).2.step hpc'⟩, himage⟩
  | case7 cutEpoch startedAt _ hrunner =>
    rintro ⟨⟩
    obtain ⟨hcut, htwo⟩ := known hrunner
    change startedAt.toNat + 2 ≤ s.base.globalEpoch.toNat at htwo
    refine ⟨⟨⟨fun _ => ?_, fun _ c hc _ => hc, hnone⟩, hwithin⟩, himage⟩
    show cutEpoch.toNat + 2 ≤ _
    omega
  | case8 =>
    rintro ⟨⟩
    exact ⟨⟨⟨nofun, nofun, hnone⟩, hwithin⟩, himage⟩
  | case11 =>
    rintro ⟨⟩
    exact ⟨h, himage⟩
  | case12 k _ hrunner _ pair hcapture =>
    rintro ⟨⟩
    obtain ⟨hd, hwithin⟩ := known hrunner
    exact ⟨⟨hd.capture (hinv.sourced k pair hcapture),
      hwithin.capture (by rw [capture_tid hcapture]; exact hinv.memory_le k)⟩, himage⟩
  | case14 _ hrunner =>
    rintro ⟨⟩
    exact ⟨⟨(known hrunner).1, (known hrunner).2⟩, himage⟩
  | case16 _ _ hrunner hdurable =>
    rintro ⟨⟩
    exact ⟨⟨(known hrunner).1, (known hrunner).2, UInt32.le_iff_toNat_le.mp hdurable⟩, himage⟩
  | case19 _ _ hrunner =>
    rintro ⟨⟩
    obtain ⟨hd, hwithin, hdurable⟩ := known hrunner
    exact ⟨⟨hd, hwithin, hdurable⟩, himage⟩
  | case21 _ hrunner =>
    rintro ⟨⟩
    refine ⟨trivial, fun image' heq => ?_⟩
    cases heq
    exact known hrunner
  | case23 =>
    rintro ⟨⟩
    exact ⟨trivial, himage⟩
  | _ => nofun

/-! ## The image and the log -/

/-- Everything that holds, the runner and the image among it. -/
structure PassInv (mp : Msgpack) (bytes : Bytes) (indexType : Bytes → Bytes → UInt32)
    (recovered : LogRecords) (s : CheckpointState) : Prop where
  inv : CheckpointInv mp bytes indexType recovered s
  runner : s.runner.Inv s
  image : ∀ image, s.image = some image → image.Inv s

theorem PassInv.step {a : CheckpointAction} (h : PassInv mp bytes indexType recovered s)
    (hstep : checkpointStep mp indexType s a = some s') :
    PassInv mp bytes indexType recovered s' := by
  obtain ⟨hinv, hlater⟩ := h.inv.step hstep
  -- before the step's own change, the pass knows what it knew
  have hknown : s'.runner.Inv s ∧ ∀ image, s'.image = some image → image.Inv s := by
    revert hstep
    fun_cases checkpointStep mp indexType s a with
    | case11 => exact Runner.Inv.step h.inv h.runner h.image
    | case1 | case8 =>
      intro hstep
      obtain ⟨base, -, rfl⟩ := Option.map_eq_some_iff.mp hstep
      exact ⟨h.runner, h.image⟩
    | _ => rintro ⟨⟩ <;> exact ⟨h.runner, h.image⟩
  exact ⟨hinv, hknown.1.later hlater, fun image himage => (hknown.2 image himage).later hlater⟩

/-- Once an epoch is durable no commit at or below it is under way, and the log has the
record of every one that is over. -/
theorem CheckpointInv.logged (h : CheckpointInv mp bytes indexType recovered s) (hv : s.Sourced v)
    (hdurable : v.pair.tid.epoch.toNat ≤ s.base.durableEpoch.toNat) :
    ∃ c ∈ s.finished, c.Wrote v ∧
      (c.record indexType ∈ recovered ∨ c.record indexType ∈ bucketRecords s.base.synced) := by
  have hsettled := State.durable_le_settled h.base.settled
  rcases hv with ⟨c, hc, hwrote⟩ | ⟨t, o, ho, hslot, hwrote⟩
  · refine ⟨c, hc, hwrote, (h.finished c hc).imp_right fun henqueued => ?_⟩
    obtain ⟨-, hk, htid⟩ := hwrote
    rw [htid, henqueued.stamped _ hk] at hdurable
    have hperm := filter_perm_of_settled h.base.settled h.base.accounted (hdurable.trans hsettled)
    have hin : c.record indexType ∈ s.base.enqueued.filter fun r => r.epoch ≤ c.tx.epoch :=
      List.mem_filter.mpr ⟨henqueued.enqueued (List.ne_nil_of_mem hk),
        decide_eq_true (UInt32.le_rfl)⟩
    exact (List.mem_filter.mp (hperm.mem_iff.mp hin)).1
  · exfalso
    have hinv := h.installing t o ho
    obtain ⟨records, honline⟩ := hinv.online
    obtain ⟨-, hk, htid⟩ := hwrote
    have habove := h.base.settled.online t _ records honline
    rw [htid, hinv.stamped _ hk hslot] at hdurable
    omega

end Pass

theorem checkpointBoot_inv {wal : Wal} {dev : Device} (hlog : Behind wal dev.file bytes)
    {globalEpoch : EpochNumber} (hresumed : Resumed wal.frontier globalEpoch)
    (slots : List ThreadId) (processFailStop : Bool) {memory : Slot → Held} {owner : Slot → ℕ}
    {earlier : List Commit}
    (hrecovered : Recovered indexType wal.frontier recovered memory owner earlier) :
    PassInv mp bytes indexType recovered
      (checkpointBoot (boot wal dev globalEpoch slots processFailStop) memory owner earlier) := by
  have hlow := hresumed.bounds.1
  refine ⟨⟨boot_inv hlog hresumed slots processFailStop, fun k => ?_,
    fun k pair hpair => .inl (hrecovered.written k pair hpair), fun t o ho => (by cases ho),
    fun c hc => .inl (hrecovered.logged c hc)⟩, trivial, fun image himage => by cases himage⟩
  have hle := UInt32.le_iff_toNat_le.mp (hrecovered.memory_le k)
  exact hle.trans hlow.le

/-- **A checkpoint image never runs ahead of the log.** In every interleaving of the pass with
the committing threads, the epoch writer and the flusher, once an image is published, and
in every later state: unless its barrier was cut short by a stop of the framework, every
commit at or below its cut was over before the first slot was captured; every version in it
is within its end epoch; and every log that holds what was recovered and all that was synced
has the whole record of every commit with a version in the image. -/
theorem checkpoint_behind_log {wal : Wal} {dev : Device} (hlog : Behind wal dev.file bytes)
    {globalEpoch : EpochNumber} (hresumed : Resumed wal.frontier globalEpoch)
    (slots : List ThreadId) (processFailStop : Bool) {memory : Slot → Held} {owner : Slot → ℕ}
    {earlier : List Commit}
    (hrecovered : Recovered indexType wal.frontier recovered memory owner earlier)
    {actions : List CheckpointAction} {s : CheckpointState} {image : Image}
    (hrun : run (checkpointStep mp indexType)
      (checkpointBoot (boot wal dev globalEpoch slots processFailStop) memory owner earlier)
      actions = some s) (himage : s.image = some image) :
    (image.stopped = false →
      (∀ c ∈ s.finished, c.tx.epoch ≤ image.cutEpoch → c ∈ image.installedBefore) ∧
      ∀ t o, s.installing t = some o → image.cutEpoch < o.commit.tx.epoch) ∧
    (∀ v ∈ image.versions, v.pair.tid.epoch ≤ image.endEpoch) ∧
    ∀ log : LogRecords, (∀ r ∈ recovered, r ∈ log) →
      (∀ r ∈ bucketRecords s.base.synced, r ∈ log) →
      ∀ v ∈ image.versions, ∃ c ∈ s.finished, c.Wrote v ∧ c.record indexType ∈ log := by
  have hinv : PassInv mp bytes indexType recovered s :=
    run_invariant PassInv.step (checkpointBoot_inv hlog hresumed slots processFailStop hrecovered)
      hrun
  have hpass := hinv.image image himage
  refine ⟨fun hbarrier => ⟨?_, ?_⟩, ?_, ?_⟩
  · intro c hc hle
    exact hpass.draft.before hbarrier c hc (UInt32.le_iff_toNat_le.mp hle)
  · intro t o ho
    have htwo := hpass.draft.barrier hbarrier
    have hlag := ((hinv.inv.installing t o ho).epoch_le hinv.inv.base.epochs).2
    rw [UInt32.lt_iff_toNat_lt]
    omega
  · intro v hv
    exact UInt32.le_iff_toNat_le.mpr (hpass.within v hv)
  · intro log hheld hsynced v hv
    have hdurable := Nat.le_trans (hpass.within v hv) hpass.durable
    obtain ⟨c, hc, hwrote, hrecord⟩ := hinv.inv.logged (hpass.draft.versions v hv) hdurable
    exact ⟨c, hc, hwrote, hrecord.elim (hheld _) (hsynced _)⟩

/-- The epoch writer's job from one tick to the next, with one thread registered. -/
def advanceOnce : List CheckpointAction :=
  [.base (.writer (.tick false)), .base (.writer .loadSlot), .base (.writer .advance),
    .base (.writer .eventsOnEpochIsUpdated)]

/-- A thread comes online in epoch 1 and commits one row while the pass waits at its barrier;
the scan ends in epoch 3, which is durable once the epoch has moved twice more. -/
def checkpointedRow : List CheckpointAction :=
  [.base (.thread 0 .registerSlot), .base (.thread 0 .registerNode), .base (.thread 0 .loadEpoch),
      .base (.thread 0 .storeEpoch), .base (.thread 0 .reloadEpoch),
      .lock 0 true [.row [0x74] [0x6b] [0x76]], .runner .readCut, .runner .callSync, .runner .sync,
      .install 0, .finish 0, .base (.thread 0 (.makeMeOffline false))]
    ++ advanceOnce ++ List.replicate 4 (.runner .sync) ++ advanceOnce
    ++ List.replicate 3 (.runner .sync)
    ++ [.runner .beginScan, .runner (.capture (.row [0x74] [0x6b])), .runner .endScan]
    ++ advanceOnce ++ advanceOnce
    ++ [.base (.flusher .beginRound), .base (.flusher .collect), .base (.flusher (.drain none)),
      .base (.flusher (.append (Device.sound []))), .base (.flusher .publish),
      .runner .waitUntilDurable, .runner .readFrontier, .runner .publish]

/-- The image has the row, and its record is in the synced log. -/
theorem checkpoint_behind_log_row :
    ∃ s image v, run (checkpointStep sampleMsgpack fun _ _ => 0)
        (checkpointBoot (boot sampleWal (Device.sound []) 1 [] true)
          (fun _ => ⟨.empty, .blank⟩) (fun _ => 0) []) checkpointedRow = some s ∧
      s.image = some image ∧ image.cutEpoch = 1 ∧ image.stopped = false ∧ image.endEpoch = 3 ∧
      image.versions = [v] ∧ v.slot = .row [0x74] [0x6b] ∧ v.pair.tid = ⟨1, 2⟩ ∧
      ∃ c ∈ s.finished, c.Wrote v ∧ c.record (fun _ _ => 0) ∈ bucketRecords s.base.synced := by
  have hends : (run (checkpointStep sampleMsgpack fun _ _ => 0)
      (checkpointBoot (boot sampleWal (.sound []) 1 [] true)
        (fun _ => ⟨.empty, .blank⟩) (fun _ => 0) []) checkpointedRow).bind
        (fun s => s.image.map fun i => (i.cutEpoch, i.stopped, i.endEpoch, i.versions))
      = some (1, false, 3, [⟨.row [0x74] [0x6b],
          ⟨[0x6b], [0x76], ⟨1, 2⟩, [0x74], [], 0, [], SecondaryIndexOp.none.raw, []⟩, 0⟩]) := by
    decide +kernel
  obtain ⟨s, hrun, himage⟩ := Option.bind_eq_some_iff.mp hends
  obtain ⟨image, himage, heq⟩ := Option.map_eq_some_iff.mp himage
  simp only [Prod.mk.injEq] at heq
  obtain ⟨hcut, hstopped, hend, hversions⟩ := heq
  have hlog : Behind sampleWal (Device.sound []).file [] := ⟨rfl, rfl, rfl, List.nil_prefix⟩
  have hrecovered : Recovered (fun _ _ => 0) sampleWal.frontier [] (fun _ => ⟨.empty, .blank⟩)
      (fun _ => 0) [] := by
    refine ⟨fun _ => by decide, fun k pair hpair => ?_, nofun⟩
    cases k <;> cases hpair
  have hbehind := (checkpoint_behind_log hlog (.inl ⟨rfl, rfl⟩) [] true hrecovered hrun
    himage).2.2 (bucketRecords s.base.synced) (nofun)
    (fun r hr => hr)
  exact ⟨s, image, _, hrun, himage, hcut, hstopped, hend, hversions, rfl, rfl,
    hbehind _ (by rw [hversions]; exact List.mem_singleton_self _)⟩

end LineairDB.Durability
