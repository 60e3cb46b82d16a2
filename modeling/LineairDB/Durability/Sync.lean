import LineairDB.Durability.Flush

/-!
# The epoch barrier

`Sync` waits until the global epoch has moved twice. Its callers run beside the
threads, the epoch writer and the flusher; what they wait for follows from how
far a thread that is online can lag.

The threads and the epoch as they were when `Sync` was called are recorded beside
the call; no step depends on them.

* `Advances.of_step` — the global epoch only goes up, and never past the mark.
* `SyncPc.Inv.step` — what a caller knows of the epoch.
* `epoch_lag_invariant` — lag, monotonicity and barrier, in every reachable state.
-/

namespace LineairDB.Durability

open Recovery ByteFile FaultyIo Transition

variable {s s' : State}

/-! ## Callers -/

/-- The next statement of `Sync`. -/
inductive SyncPc where
  | loop (reloadCount : ℕ)
  | wait (currentEpoch : EpochNumber) (reloadCount : ℕ)
  | reload (reloadCount : ℕ)
  | checkStop (reloadEpoch : EpochNumber) (reloadCount : ℕ)
  | returned (reloadEpoch : EpochNumber)
  | stopped (reloadEpoch : EpochNumber)
  deriving Repr, DecidableEq

/-- One access of `Sync`; a wait is over once its predicate holds. -/
def SyncPc.step (s : State) : SyncPc → Option SyncPc
  | .loop reloadCount => some (.wait s.globalEpoch reloadCount)
  | .wait currentEpoch reloadCount =>
    if s.epochStop = true ∨ s.globalEpoch ≠ currentEpoch then some (.reload reloadCount) else none
  | .reload reloadCount => some (.checkStop s.globalEpoch reloadCount)
  | .checkStop reloadEpoch reloadCount =>
    if s.epochStop = true then some (.stopped reloadEpoch)
    else if reloadCount + 1 = 2 then some (.returned reloadEpoch)
    else some (.loop (reloadCount + 1))
  | .returned _ | .stopped _ => none

/-- A call of `Sync`, and the threads and the epoch as it found them. -/
structure SyncCall where
  pc : SyncPc
  atCall : ThreadId → Thread
  startedAt : EpochNumber

/-- The logging system with calls of `Sync`. -/
structure SyncState where
  base : State
  call : ℕ → Option SyncCall

/-- Steps of the logging system and of the calls. -/
inductive SyncAction where
  | base (a : Action)
  | call (c : ℕ)
  | sync (c : ℕ)
  deriving Repr, DecidableEq

/-- A caller may call again once a call has returned. -/
def SyncCall.over (call : Option SyncCall) : Bool :=
  match call with
  | none => true
  | some ⟨.returned _, _, _⟩ | some ⟨.stopped _, _, _⟩ => true
  | some _ => false

/-- One step. -/
def syncStep (mp : Msgpack) (s : SyncState) : SyncAction → Option SyncState
  | .base a => (step mp s.base a).map fun base => { s with base := base }
  | .call c =>
    if s.base.aborted.isSome then none
    else if SyncCall.over (s.call c) then
      some { s with
        call := Function.update s.call c (some ⟨.loop 0, s.base.thread, s.base.globalEpoch⟩) }
    else none
  | .sync c =>
    if s.base.aborted.isSome then none
    else
      match s.call c with
      | some call =>
        (call.pc.step s.base).map fun pc =>
          { s with call := Function.update s.call c (some { call with pc := pc }) }
      | none => none

/-! ## The epoch goes up -/

/-- What every step leaves of the epoch: it does not go back, and a stop stays. -/
def Advances (s s' : State) : Prop :=
  s.globalEpoch.toNat ≤ s'.globalEpoch.toNat ∧ (s.epochStop = true → s'.epochStop = true)

theorem Advances.refl (s : State) : Advances s s := ⟨le_rfl, id⟩

theorem Advances.trans {m : State} (h₁ : Advances s m) (h₂ : Advances m s') : Advances s s' :=
  ⟨Nat.le_trans h₁.1 h₂.1, fun h => h₂.2 (h₁.2 h)⟩

variable {mp : Msgpack}

theorem EpochsInv.step {a : Action} (h : EpochsInv s) (hstep : Durability.step mp s a = some s') :
    EpochsInv s' := by
  unfold Durability.step at hstep
  split at hstep
  · cases hstep
  cases a with
  | thread => exact h.thread (threadStep_effect hstep)
  | writer => exact h.writer (writerStep_effect hstep)
  | flusher =>
    cases flusherStep_effect hstep <;> exact h.congr rfl rfl rfl rfl rfl rfl

theorem Advances.of_step {a : Action} (hstep : Durability.step mp s a = some s') :
    Advances s s' := by
  unfold Durability.step at hstep
  split at hstep
  · cases hstep
  cases a with
  | thread => cases threadStep_effect hstep <;> exact ⟨le_rfl, id⟩
  | writer =>
    cases writerStep_effect hstep with
    | advance hscan hmin hbelow =>
      rw [UInt32.lt_iff_toNat_lt, kEpochHighWater_toNat] at hbelow
      refine ⟨?_, id⟩
      rw [toNat_succ hbelow]
      exact Nat.le_succ _
    | stop => exact ⟨le_rfl, fun _ => rfl⟩
    | _ => exact ⟨le_rfl, id⟩
  | flusher => cases flusherStep_effect hstep <;> exact ⟨le_rfl, id⟩

/-! ## What a caller knows -/

/-- What holds at each statement of a call that found the epoch at `startedAt`: every counted
reload has seen the epoch move once more, unless the framework is being stopped. -/
def SyncPc.Inv (s : State) (startedAt : EpochNumber) : SyncPc → Prop
  | .loop n => startedAt.toNat + n ≤ s.globalEpoch.toNat
  | .wait currentEpoch n =>
    startedAt.toNat + n ≤ currentEpoch.toNat ∧ currentEpoch.toNat ≤ s.globalEpoch.toNat
  | .reload n | .checkStop _ n =>
    startedAt.toNat + (n + 1) ≤ s.globalEpoch.toNat ∨ s.epochStop = true
  | .returned _ => startedAt.toNat + 2 ≤ s.globalEpoch.toNat
  | .stopped _ => True

/-- What a caller knows stays true while the others move. -/
theorem SyncPc.Inv.advances {startedAt : EpochNumber} {pc : SyncPc} (h : pc.Inv s startedAt)
    (hadvances : Advances s s') : pc.Inv s' startedAt := by
  obtain ⟨hle, hstop⟩ := hadvances
  cases pc with
  | loop | returned => exact Nat.le_trans h hle
  | wait => exact ⟨h.1, Nat.le_trans h.2 hle⟩
  | reload | checkStop => exact h.imp (fun h => Nat.le_trans h hle) hstop
  | stopped => trivial

/-- **One statement of a caller.** -/
theorem SyncPc.Inv.step {startedAt : EpochNumber} {pc pc' : SyncPc} (h : pc.Inv s startedAt)
    (hstep : pc.step s = some pc') : pc'.Inv s startedAt := by
  revert hstep
  fun_cases SyncPc.step s pc with
  | case1 =>
    rintro ⟨⟩
    exact ⟨h, le_rfl⟩
  | case2 currentEpoch _ hwoken =>
    rintro ⟨⟩
    obtain ⟨hpassed, hle⟩ := h
    rcases hwoken with hstop | hmoved
    · exact .inr hstop
    · have hne : currentEpoch.toNat ≠ s.globalEpoch.toNat := fun heq =>
        hmoved (UInt32.toNat_inj.mp heq).symm
      left
      omega
  | case4 =>
    rintro ⟨⟩
    exact h
  | case5 =>
    rintro ⟨⟩
    trivial
  | case6 _ _ hrunning htwo =>
    rintro ⟨⟩
    have hpassed := h.resolve_right hrunning
    rw [htwo] at hpassed
    exact hpassed
  | case7 _ _ hrunning =>
    rintro ⟨⟩
    exact h.resolve_right hrunning
  | _ => nofun

/-! ## The system -/

/-- A call knows its epochs, and found nobody ahead of the global one. -/
structure SyncCall.Inv (s : State) (call : SyncCall) : Prop where
  pc : call.pc.Inv s call.startedAt
  found : ∀ t epoch records, call.atCall t = .online epoch records →
    epoch.toNat ≤ call.startedAt.toNat

/-- The epochs, and what the calls have seen. -/
structure SyncInv (s : SyncState) : Prop where
  epochs : EpochsInv s.base
  calls : ∀ c call, s.call c = some call → call.Inv s.base

theorem SyncInv.step {s s' : SyncState} {a : SyncAction} (h : SyncInv s)
    (hstep : syncStep mp s a = some s') : SyncInv s' ∧ Advances s.base s'.base := by
  -- a call that is made, or goes on
  have set : ∀ {c : ℕ} {call : SyncCall}, call.Inv s.base →
      SyncInv { s with call := Function.update s.call c (some call) } := by
    intro c call hcall
    refine ⟨h.epochs, fun c' call' hc => ?_⟩
    dsimp only at hc
    by_cases heq : c' = c
    · rw [heq, Function.update_self] at hc
      cases hc
      exact hcall
    · rw [Function.update_of_ne heq] at hc
      exact h.calls c' call' hc
  revert hstep
  fun_cases syncStep mp s a with
  | case1 =>
    intro hstep
    obtain ⟨base, hbase, rfl⟩ := Option.map_eq_some_iff.mp hstep
    have hadvances := Advances.of_step hbase
    refine ⟨⟨h.epochs.step hbase, fun c call hc => ?_⟩, hadvances⟩
    obtain ⟨hpc, hfound⟩ := h.calls c call hc
    exact ⟨hpc.advances hadvances, hfound⟩
  | case3 =>
    rintro ⟨⟩
    exact ⟨set ⟨le_rfl, fun t epoch records ht => (h.epochs.lag t epoch records ht).2.1⟩,
      Advances.refl _⟩
  | case6 c _ call hcall =>
    intro hstep
    obtain ⟨pc, hpc, rfl⟩ := Option.map_eq_some_iff.mp hstep
    obtain ⟨hinv, hfound⟩ := h.calls c call hcall
    exact ⟨set ⟨hinv.step hpc, hfound⟩, .refl _⟩
  | _ => nofun

/-- **The epoch lag invariant.** In every interleaving of the threads, the epoch writer and
the callers of `Sync`: while a thread is online in an epoch, the global epoch is at most one
past it; the global epoch never goes back and never passes the mark; and once a `Sync` has
returned without the framework being stopped, a thread it had found online is offline, on its
way online, or online at a later epoch. -/
theorem epoch_lag_invariant (wal : Wal) (dev : Device) (globalEpoch : EpochNumber)
    (hpos : 0 < globalEpoch) (hmark : globalEpoch < kEpochHighWater) (slots : List ThreadId)
    (processFailStop : Bool) (actions later : List SyncAction) (s s' : SyncState)
    (hrun : run (syncStep mp) ⟨boot wal dev globalEpoch slots processFailStop, fun _ => none⟩
      actions = some s) (hlater : run (syncStep mp) s later = some s') :
    (∀ t epoch records, s.base.thread t = .online epoch records →
      s.base.globalEpoch.toNat ≤ epoch.toNat + 1) ∧
    (globalEpoch ≤ s.base.globalEpoch ∧ s.base.globalEpoch ≤ s'.base.globalEpoch ∧
      s'.base.globalEpoch ≤ kEpochHighWater) ∧
    ∀ c call reloadEpoch, s.call c = some call → call.pc = .returned reloadEpoch →
      ∀ t epoch records, call.atCall t = .online epoch records →
        ∀ epoch' records', s.base.thread t = .online epoch' records' → epoch < epoch' := by
  rw [UInt32.lt_iff_toNat_lt] at hpos hmark
  have hboot : SyncInv ⟨boot wal dev globalEpoch slots processFailStop, fun _ => none⟩ :=
    ⟨.boot hpos hmark.le slots processFailStop, fun c call hc => by cases hc⟩
  have hstep : ∀ {s : SyncState} {a s'}, SyncInv s → syncStep mp s a = some s' → SyncInv s' :=
    fun h hs => (h.step hs).1
  have hmono : ∀ {s : SyncState} {as s'}, SyncInv s → run (syncStep mp) s as = some s' →
      Advances s.base s'.base := fun h hr =>
    run_monotone (R := fun s s' : SyncState => Advances s.base s'.base) hstep
      (fun s => .refl s.base) Advances.trans (fun h hs => (h.step hs).2) h hr
  have hinv : SyncInv s := run_invariant hstep hboot hrun
  have hinv' : SyncInv s' := run_invariant hstep hinv hlater
  refine ⟨fun t epoch records ht => (hinv.epochs.lag t epoch records ht).2.2, ⟨?_, ?_, ?_⟩, ?_⟩
  · exact UInt32.le_iff_toNat_le.mpr (hmono hboot hrun).1
  · exact UInt32.le_iff_toNat_le.mpr (hmono hinv hlater).1
  · exact UInt32.le_iff_toNat_le.mpr hinv'.epochs.global_le
  · intro c call reloadEpoch hcall hpc t epoch records hbefore epoch' records' hnow
    obtain ⟨htwo, hfound⟩ := hinv.calls c call hcall
    have htwo : call.startedAt.toNat + 2 ≤ s.base.globalEpoch.toNat := by
      rw [hpc] at htwo
      exact htwo
    have hstart := hfound t epoch records hbefore
    have hlag := (hinv.epochs.lag t epoch' records' hnow).2.2
    rw [UInt32.lt_iff_toNat_lt]
    omega

/-- A thread comes online in epoch 1, `Sync` is called, and the thread goes offline and comes
back before it returns. -/
def syncedSession : List SyncAction :=
  [.base (.thread 0 .registerSlot), .base (.thread 0 .loadEpoch), .base (.thread 0 .storeEpoch),
    .base (.thread 0 .reloadEpoch), .call 1, .sync 1,
    .base (.writer (.tick false)), .base (.writer .loadSlot), .base (.writer .advance),
    .base (.writer .eventsOnEpochIsUpdated), .sync 1, .sync 1, .sync 1, .sync 1,
    .base (.thread 0 (.makeMeOffline false)), .base (.thread 0 .loadEpoch),
    .base (.thread 0 .storeEpoch), .base (.thread 0 .reloadEpoch),
    .base (.writer (.tick false)), .base (.writer .loadSlot), .base (.writer .advance),
    .base (.writer .eventsOnEpochIsUpdated), .sync 1, .sync 1, .sync 1]

/-- The thread is then online in the next epoch, and the global epoch is one past that. -/
theorem epoch_lag_synced_session :
    ∃ s call, run (syncStep sampleMsgpack)
      ⟨boot sampleWal (Device.sound []) 1 [] true, fun _ => none⟩
        syncedSession = some s ∧
      s.call 1 = some call ∧ call.pc = .returned 3 ∧ call.atCall 0 = .online 1 [] ∧
      s.base.thread 0 = .online 2 [] ∧ (1 : EpochNumber) < 2 ∧
      s.base.globalEpoch.toNat ≤ (2 : EpochNumber).toNat + 1 := by
  have hends : (run (syncStep sampleMsgpack)
      ⟨boot sampleWal (.sound []) 1 [] true, fun _ => none⟩ syncedSession).map
        (fun s => ((s.call 1).map fun call => (call.pc, call.atCall 0), s.base.thread 0))
      = some (some (.returned 3, .online 1 []), .online 2 []) := by decide +kernel
  obtain ⟨s, hrun, heq⟩ := Option.map_eq_some_iff.mp hends
  obtain ⟨hcall, hthread⟩ := Prod.mk.inj heq
  obtain ⟨call, hcall, hpair⟩ := Option.map_eq_some_iff.mp hcall
  obtain ⟨hpc, hbefore⟩ := Prod.mk.inj hpair
  have hlag := epoch_lag_invariant sampleWal (.sound []) 1 (by decide) (by decide) [] true
    syncedSession [] s s hrun rfl
  exact ⟨s, call, hrun, hcall, hpc, hbefore, hthread,
    hlag.2.2 1 call 3 hcall hpc 0 1 [] hbefore 2 [] hthread, hlag.1 0 2 [] hthread⟩

end LineairDB.Durability
