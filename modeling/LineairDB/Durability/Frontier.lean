import LineairDB.Durability.Flush

/-!
# The durable epoch

In every state the system can reach from a recovered log, everything enqueued
at or below the durable epoch is in frames whose sync succeeded, and nothing
can be enqueued there any more.

* `Inv.step` — one step of any party preserves the invariants.
* `durable_frontier_sound` — what the durable epoch promises, in every
  reachable state.
-/

namespace LineairDB.Durability

open Recovery ByteFile FaultyIo Transition

variable {s s' : State}

variable {mp : Msgpack} {base : Bytes}

/-! ## The whole invariant -/

/-- Everything that holds of the logging system. -/
structure Inv (mp : Msgpack) (base : Bytes) (s : State) : Prop where
  epochs : EpochsInv s
  settled : Settled s
  accounted : Accounted s
  logged : Logged mp base s
  acknowledged : ∀ record ∈ s.acknowledged, record ∈ bucketRecords s.synced
  onTime : s.aborted ≠ some .lateRecord

theorem exists_of_mem_sum_map {ι α : Type} {l : List ι} {f : ι → Multiset α} {a : α}
    (h : a ∈ (l.map f).sum) : ∃ i ∈ l, a ∈ f i := by
  induction l with
  | nil => exact absurd h (Multiset.notMem_zero a)
  | cons i l ih =>
    rw [List.map_cons, List.sum_cons, Multiset.mem_add] at h
    rcases h with h | h
    · exact ⟨i, .head _, h⟩
    · obtain ⟨j, hj, haj⟩ := ih h
      exact ⟨j, .tail _ hj, haj⟩

theorem outside_of_mem_buffered {record : LogRecord} (h : record ∈ s.buffered) :
    s.Outside record := by
  obtain ⟨t, -, hrecord⟩ := exists_of_mem_sum_map h
  exact .inr (.inl ⟨t, hrecord⟩)

theorem State.durable_le_settled (h : Settled s) : s.durableEpoch.toNat ≤ s.settled.toNat := by
  by_cases hpublishing : ∃ target, s.flusher = .publishing target
  · obtain ⟨target, heq⟩ := hpublishing
    have hs : s.settled = target := by simp [State.settled, heq]
    have habove := (h.target target (by rw [heq]; rfl)).1
    rw [hs]
    omega
  · have hs : s.settled = s.durableEpoch := State.settled_eq (by simpa using hpublishing)
    rw [hs]

/-- **Everything enqueued at or below a settled epoch is in the log, exactly
once.** -/
theorem filter_perm_of_settled (hsettled : Settled s) (haccounted : Accounted s) {e : EpochNumber}
    (he : e.toNat ≤ s.settled.toNat) :
    (s.enqueued.filter (fun record => record.epoch ≤ e)).Perm
      ((bucketRecords s.synced).filter (fun record => record.epoch ≤ e)) := by
  have hout : ∀ record, s.Outside record → ¬ record.epoch ≤ e := by
    intro record hrecord hle
    have habove := hsettled.outside record hrecord
    rw [UInt32.le_iff_toNat_le] at hle
    omega
  have hcarry : Multiset.filter (fun record : LogRecord => record.epoch ≤ e)
      (bucketRecords s.carry.entries : Multiset LogRecord) = 0 :=
    Multiset.filter_eq_nil.mpr fun record hr => hout record (.inl hr)
  have hbuffered : Multiset.filter (fun record : LogRecord => record.epoch ≤ e) s.buffered = 0 :=
    Multiset.filter_eq_nil.mpr fun record hr => hout record (outside_of_mem_buffered hr)
  have hdropped : Multiset.filter (fun record : LogRecord => record.epoch ≤ e)
      (s.dropped : Multiset LogRecord) = 0 :=
    Multiset.filter_eq_nil.mpr fun record hr => hout record (.inr (.inr hr))
  have hbalance := congrArg (Multiset.filter fun record : LogRecord => record.epoch ≤ e)
    haccounted.balance
  rw [Multiset.filter_add, Multiset.filter_add, Multiset.filter_add, hcarry, hbuffered, hdropped,
    add_zero, add_zero, add_zero, Multiset.filter_coe, Multiset.filter_coe] at hbalance
  exact Multiset.coe_eq_coe.mp hbalance

/-- An acknowledgement is handed out for records that are in the log. -/
theorem Inv.acknowledge (h : Inv mp base s) {t : ThreadId} {e : EpochNumber} {records : LogRecords}
    (hawait : s.thread t = .awaiting e records) (hle : e ≤ s.durableEpoch) :
    ∀ record ∈ records, record ∈ bucketRecords s.synced := by
  intro record hrecord
  obtain ⟨hmem, hepoch⟩ := h.accounted.session t e records (.inr hawait) record hrecord
  have hsettled := State.durable_le_settled h.settled
  rw [UInt32.le_iff_toNat_le] at hle
  have hperm := filter_perm_of_settled h.settled h.accounted (hle.trans hsettled)
  have hin : record ∈ s.enqueued.filter (fun r => r.epoch ≤ e) :=
    List.mem_filter.mpr ⟨hmem, by simp [hepoch]⟩
  exact (List.mem_filter.mp (hperm.mem_iff.mp hin)).1

/-- **One step of any party preserves the invariants.** -/
theorem Inv.step {a : Action} (h : Inv mp base s) (hstep : Durability.step mp s a = some s') :
    Inv mp base s' := by
  unfold Durability.step at hstep
  split at hstep
  · cases hstep
  cases a with
  | thread =>
    have heffect := threadStep_effect hstep
    refine ⟨h.epochs.thread heffect, h.settled.thread h.epochs heffect,
      h.accounted.thread heffect, h.logged.thread heffect, ?_, ?_⟩
    · cases heffect with
      | acknowledge hawait hdurable =>
        intro record hrecord
        rcases List.mem_append.mp hrecord with hrecord | hrecord
        · exact h.acknowledged record hrecord
        · exact h.acknowledge hawait hdurable record hrecord
      | _ => exact h.acknowledged
    · cases heffect with
      | notDurable => intro heq; cases heq
      | _ => exact h.onTime
  | writer =>
    have heffect := writerStep_effect hstep
    refine ⟨h.epochs.writer heffect, h.settled.writer heffect, h.accounted.writer heffect,
      h.logged.writer heffect, ?_, ?_⟩
    · cases heffect <;> exact h.acknowledged
    · cases heffect with
      | highWater => intro heq; cases heq
      | _ => exact h.onTime
  | flusher a =>
    have heffect := flusherStep_effect hstep
    refine ⟨?_, h.settled.flusher h.epochs h.accounted h.logged heffect,
      h.accounted.flusher heffect, h.logged.flusher h.settled heffect, ?_, ?_⟩
    · cases heffect <;> exact h.epochs.congr rfl rfl rfl rfl rfl rfl
    · cases heffect with
      | appended =>
        intro record hrecord
        have hmem := h.acknowledged record hrecord
        rw [mem_bucketRecords] at hmem ⊢
        obtain ⟨b, hb, hin⟩ := hmem
        exact ⟨b, List.mem_append_left _ hb, hin⟩
      | _ => exact h.acknowledged
    · cases heffect with
      | late hdraining hrecord hlate =>
        -- a buffered record lies above the durable epoch
        exfalso
        have habove := h.settled.outside _ (.inr (.inl ⟨_, hrecord⟩))
        have hdurable := State.durable_le_settled h.settled
        rw [h.settled.before _ _ _ hdraining, UInt32.le_iff_toNat_le] at hlate
        omega
      | unready | backwards => intro heq; cases heq
      | fail hfailing aborted haborted =>
        rcases haborted with rfl | rfl
        · exact h.onTime
        · intro heq; cases heq
      | _ => exact h.onTime

/-! ## From a recovered log on -/

/-- A resumed epoch lies above the recovered frontier and below the mark. -/
theorem Resumed.bounds {frontier globalEpoch : EpochNumber} (h : Resumed frontier globalEpoch) :
    frontier.toNat < globalEpoch.toNat ∧ globalEpoch.toNat ≤ kEpochHighWater.toNat := by
  rw [kEpochHighWater_toNat]
  rcases h with ⟨rfl, rfl⟩ | ⟨highest, hle, hresume⟩
  · decide
  · unfold resumeEpochAbove at hresume
    split at hresume
    · cases hresume
    · rename_i hbelow
      cases hresume
      rw [UInt32.not_le, UInt32.lt_iff_toNat_lt] at hbelow
      rw [UInt32.le_iff_toNat_le] at hle
      have hmark : (kEpochHighWater - 1).toNat = 4293918718 := rfl
      have hnext : (highest + 1).toNat = highest.toNat + 1 := toNat_succ (by omega)
      omega

theorem boot_inv {wal : Wal} {dev : Device} (hlog : Behind wal dev.file base)
    {globalEpoch : EpochNumber} (hresumed : Resumed wal.frontier globalEpoch)
    (slots : List ThreadId) (processFailStop : Bool) :
    Inv mp base (boot wal dev globalEpoch slots processFailStop) := by
  obtain ⟨hlow, hhigh⟩ := hresumed.bounds
  have hbytes : base ++ bucketBytes mp [] = base := List.append_nil base
  refine ⟨?_, ?_, ?_, ?_, ?_, by simp [boot]⟩
  · exact .boot (Nat.lt_of_le_of_lt (Nat.zero_le _) hlow) hhigh slots processFailStop
  · refine ⟨hlow, by simp [boot], ?_, by simp [boot, Flusher.target?], by simp [boot],
      by simp [boot]⟩
    rintro record (hcarry | ⟨t, hqueue⟩ | hdropped)
    · cases hcarry
    · cases hqueue
    · cases hdropped
  · refine ⟨List.nodup_nil, by simp [boot], ?_, fun _ => rfl, rfl, by simp [boot]⟩
    exact fun _ h => by cases h
  · refine ⟨fun _ => rfl, ?_, fun _ => ?_, fun _ => le_rfl⟩
    · show base ++ bucketBytes mp [] <+: dev.file
      rw [hbytes]
      exact hlog.stands
    · show Behind wal dev.file (base ++ bucketBytes mp [])
      rw [hbytes]
      exact hlog
  · exact fun _ h => by cases h

/-- What a step leaves of an earlier state's promise: the durable epoch never
moves back, and no record joins those at or below it. -/
def Extends (s s' : State) : Prop :=
  s.durableEpoch.toNat ≤ s'.durableEpoch.toNat ∧
  ∀ e : EpochNumber, e.toNat ≤ s.durableEpoch.toNat →
    s'.enqueued.filter (fun record => record.epoch ≤ e)
      = s.enqueued.filter (fun record => record.epoch ≤ e)

theorem Extends.refl (s : State) : Extends s s := ⟨le_rfl, fun _ _ => rfl⟩

theorem Extends.trans {m : State} (h₁ : Extends s m) (h₂ : Extends m s') : Extends s s' :=
  ⟨Nat.le_trans h₁.1 h₂.1, fun e he =>
    (h₂.2 e (Nat.le_trans he h₁.1)).trans (h₁.2 e he)⟩

theorem Inv.extends {a : Action} (h : Inv mp base s) (hstep : Durability.step mp s a = some s') :
    Extends s s' := by
  unfold Durability.step at hstep
  split at hstep
  · cases hstep
  cases a with
  | thread t =>
    cases threadStep_effect hstep with
    | @enqueue epoch records record honline hepoch hnode =>
      refine ⟨le_rfl, fun e he => ?_⟩
      -- whoever is online enqueues above the durable epoch
      have habove := h.settled.online t epoch records honline
      have hdurable := State.durable_le_settled h.settled
      have hlate : ¬ record.epoch ≤ e := by
        rw [hepoch, UInt32.le_iff_toNat_le]
        omega
      rw [List.filter_append, List.filter_cons_of_neg (by simpa using hlate), List.filter_nil,
        List.append_nil]
    | _ => exact ⟨le_rfl, fun _ _ => rfl⟩
  | writer =>
    cases writerStep_effect hstep <;> exact ⟨le_rfl, fun _ _ => rfl⟩
  | flusher =>
    cases flusherStep_effect hstep with
    | @publish target hpublishing =>
      have habove := (h.settled.target target (by rw [hpublishing]; rfl)).1
      exact ⟨Nat.le_of_lt habove, fun _ _ => rfl⟩
    | _ => exact ⟨le_rfl, fun _ _ => rfl⟩

end LineairDB.Durability
