import LineairDB.Lives.Committers

/-!
# Lives of a database

A session of committers, the reaper and the epoch goes on until the process
crashes. What the log holds up to its frontier survives; the next session starts
from the rows and entries that recovery installs one after another, in an epoch
above the frontier.

* `Booted.storeInv` — a store that recovery has filled is one the committers can
  work on.
* `lifeInv_run` — the invariants of the store, the committers and the reaper hold
  in every state of every life.
-/

namespace LineairDB.Lives

open Silo Transition ByteFile
open Stateless (Schema)
open Durability (resumeEpochAbove kEpochHighWater)
open Function (update_self update_of_ne update)

variable {epoch frontier : EpochNumber}

/-! ## Recovery -/

/-- A live entry of the recovery set. -/
structure Recovered where
  slot : Slot
  tid : TransactionId
  content : Content
  deriving Repr, DecidableEq

/-- `Put` a recovered item. -/
def put (s : Store) (r : Recovered) : Store :=
  { s with
    index := update s.index r.slot (some s.allocated)
    item := update s.item s.allocated ⟨r.tid, r.content, r.slot, none, false, 1⟩
    allocated := s.allocated + 1
    slots := r.slot :: s.slots
    versions := update s.versions r.slot [(.recovery, ⟨r.tid, r.content, s.allocated⟩)] }

/-- The database before anything is recovered; what is recovered counts as the first to
have committed. -/
def boot (epoch : EpochNumber) : Store :=
  { Store.initial with
    epoch := epoch
    stamp := fun o => if o = .recovery then some 0 else none
    commitEpoch := fun _ => epoch
    clock := 1 }

/-- `highest_epoch` -/
def highestEpoch (frontier : EpochNumber) (recoverySet : List Recovered) : EpochNumber :=
  recoverySet.foldl (fun highest r => max highest r.tid.epoch) (max 1 frontier)

/-- The epoch a session starts in; `none` when the process refuses to start. Without
recovery the log is scanned for its frontier only. -/
def startEpoch (enableRecovery : Bool) (frontier : EpochNumber) (recoverySet : List Recovered) :
    Option EpochNumber :=
  if enableRecovery then resumeEpochAbove (highestEpoch frontier recoverySet)
  else if frontier ≠ 0 then resumeEpochAbove frontier
  else some 1

/-! ## Lives -/

/-- A database over its sessions. -/
structure Life where
  /-- The identifiers of the versions of earlier sessions that are still in the log. -/
  history : Slot → List TransactionId
  session : State Committer

/-- The identifiers the committers of a session have published. -/
def published (s : Store) (k : Slot) : List TransactionId :=
  ((s.versions k).filter fun v => v.1 ≠ .recovery).map fun v => v.2.tid

/-- The identifiers of the committed versions of a slot, in commit order. -/
def Life.tids (l : Life) (k : Slot) : List TransactionId :=
  l.history k ++ published l.session.store k

/-- What a log with this frontier holds after a crash. -/
def Life.survivors (l : Life) (frontier : EpochNumber) (k : Slot) : List TransactionId :=
  (l.tids k).filter fun tid => tid.epoch ≤ frontier

/-- The recovery set has one entry per slot, and every entry is live and has the identifier
of a version in the log. -/
def Life.Recovers (l : Life) (frontier : EpochNumber) (recoverySet : List Recovered) : Prop :=
  (recoverySet.map Recovered.slot).Nodup ∧
    ∀ r ∈ recoverySet, r.content.initializedAt r.slot = true ∧
      r.tid ∈ l.survivors frontier r.slot

instance (l : Life) (frontier : EpochNumber) (recoverySet : List Recovered) :
    Decidable (l.Recovers frontier recoverySet) :=
  inferInstanceAs (Decidable (_ ∧ ∀ _ ∈ _, _))

/-- A step of the session, or a restart. -/
inductive LifeAction where
  | step (action : Action Choice)
  | restart (enableRecovery : Bool) (frontier : EpochNumber) (recoverySet : List Recovered)
  deriving Repr, DecidableEq

/-- The first session. -/
def Life.initial (schema : Schema) : Life := ⟨fun _ => [], (committers schema).initial⟩

/-- The next session, which knows of the last one what the log does. -/
def Life.restart (l : Life) (schema : Schema) (frontier epoch : EpochNumber)
    (installed : List Recovered) : Life where
  history := l.survivors frontier
  session := { (committers schema).initial with store := installed.foldl put (boot epoch) }

/-- One step. -/
def Life.next (schema : Schema) (l : Life) : LifeAction → Option Life
  | .step action =>
    ((committers schema).next l.session action).map fun session => { l with session := session }
  | .restart enableRecovery frontier recoverySet =>
    if l.Recovers frontier recoverySet then
      (startEpoch enableRecovery frontier recoverySet).map fun epoch =>
        l.restart schema frontier epoch (if enableRecovery then recoverySet else [])
    else none

/-! ## The store recovery fills -/

/-- What is installed has an unlocked identifier of an epoch before the session. -/
structure Earlier (epoch : EpochNumber) (tid : TransactionId) : Prop where
  even : tid.isLocked = false
  pos : 0 < tid.epoch.toNat
  lt : tid.epoch.toNat < epoch.toNat

/-- The store while recovery fills it. -/
structure Booted (epoch : EpochNumber) (s : Store) : Prop where
  epoch_eq : s.epoch = epoch
  stamp : s.stamp = (boot epoch).stamp
  commitEpoch : s.commitEpoch = (boot epoch).commitEpoch
  clock : s.clock = 1
  observed : s.observed = fun _ => ∅
  fixed : s.fixed = fun _ => ∅
  filled : ∀ k i, s.index k = some i → i < s.allocated ∧ k ∈ s.slots ∧
    ∃ tid content, Earlier epoch tid ∧ s.item i = ⟨tid, content, k, none, false, 1⟩ ∧
      s.versions k = [(.recovery, ⟨tid, content, i⟩)]
  empty : ∀ k, s.index k = none → s.versions k = []
  attached : ∀ i, i < s.allocated → s.Attached i
  unused : ∀ i, s.allocated ≤ i → s.item i = .blank (.row [] []) 0

theorem booted_boot (epoch : EpochNumber) : Booted epoch (boot epoch) where
  epoch_eq := rfl
  stamp := rfl
  commitEpoch := rfl
  clock := rfl
  observed := rfl
  fixed := rfl
  filled k i hindex := by cases hindex
  empty _ _ := rfl
  attached i hi := absurd hi (Nat.not_lt_zero i)
  unused _ _ := rfl

/-- One more item, in a slot that has none. -/
theorem Booted.put {s : Store} {r : Recovered} (h : Booted epoch s)
    (hvacant : s.index r.slot = none) (htid : Earlier epoch r.tid) : Booted epoch (put s r) := by
  have hother : ∀ k, k ≠ r.slot → (Lives.put s r).index k = s.index k ∧
      (Lives.put s r).versions k = s.versions k :=
    fun k hk => ⟨update_of_ne hk .., update_of_ne hk ..⟩
  have hold : ∀ i, i ≠ s.allocated → (Lives.put s r).item i = s.item i :=
    fun i hi => update_of_ne hi ..
  have hself : (Lives.put s r).index r.slot = some s.allocated := update_self ..
  have hitem : (Lives.put s r).item s.allocated = ⟨r.tid, r.content, r.slot, none, false, 1⟩ :=
    update_self ..
  refine { h with filled := ?_, empty := ?_, attached := ?_, unused := ?_ }
  · intro k i hindex
    by_cases hk : k = r.slot
    · subst hk
      rw [hself] at hindex
      cases hindex
      exact ⟨Nat.lt_succ_self _, .head _, r.tid, r.content, htid, hitem, update_self ..⟩
    · rw [(hother k hk).1] at hindex
      obtain ⟨hlt, hslots, tid, content, hearlier, hold', hversions⟩ := h.filled k i hindex
      refine ⟨Nat.lt_succ_of_lt hlt, .tail _ hslots, tid, content, hearlier, ?_, ?_⟩
      · rw [hold i (Nat.ne_of_lt hlt)]
        exact hold'
      · rw [(hother k hk).2]
        exact hversions
  · intro k hindex
    by_cases hk : k = r.slot
    · rw [hk, hself] at hindex
      cases hindex
    · rw [(hother k hk).1] at hindex
      rw [(hother k hk).2]
      exact h.empty k hindex
  · intro i hi
    unfold Store.Attached
    rcases Nat.lt_succ_iff_lt_or_eq.mp hi with hi | rfl
    · have hatt := h.attached i hi
      have hne : (s.item i).home ≠ r.slot := by
        intro heq
        unfold Store.Attached at hatt
        rw [heq, hvacant] at hatt
        cases hatt
      rw [hold i (Nat.ne_of_lt hi), (hother _ hne).1]
      exact hatt
    · rw [hitem]
      exact hself
  · intro i hi
    have hlt : s.allocated < i := hi
    rw [hold i (Nat.ne_of_gt hlt)]
    exact h.unused i hlt.le

theorem Booted.foldl {s : Store} {rs : List Recovered} (h : Booted epoch s)
    (hvacant : ∀ r ∈ rs, s.index r.slot = none) (hnodup : (rs.map Recovered.slot).Nodup)
    (htid : ∀ r ∈ rs, Earlier epoch r.tid) : Booted epoch (rs.foldl Lives.put s) := by
  induction rs generalizing s with
  | nil => exact h
  | cons r rs ih =>
    obtain ⟨hnew, hnodup⟩ := List.nodup_cons.mp hnodup
    refine ih (h.put (hvacant r (.head _)) (htid r (.head _))) ?_ hnodup
      fun r' hr' => htid r' (.tail _ hr')
    intro r' hr'
    have hne : r'.slot ≠ r.slot := by
      intro heq
      rw [← heq] at hnew
      exact hnew (List.mem_map_of_mem hr')
    rw [show (Lives.put s r).index r'.slot = s.index r'.slot from update_of_ne hne ..]
    exact hvacant r' (.tail _ hr')

namespace Booted

variable {epoch : EpochNumber} {s : Store}

section

variable (h : Booted epoch s)

include h

/-- Every item is free and clean, and what recovery has not filled is blank. -/
theorem item_cases (i : ItemId) :
    (∃ k tid content, s.index k = some i ∧ k ∈ s.slots ∧ Earlier epoch tid ∧
        s.item i = ⟨tid, content, k, none, false, 1⟩ ∧
        s.versions k = [(.recovery, ⟨tid, content, i⟩)]) ∨
      s.allocated ≤ i ∧ s.item i = .blank (.row [] []) 0 := by
  rcases Nat.lt_or_ge i s.allocated with hi | hi
  · have hatt := h.attached i hi
    obtain ⟨-, hslots, tid, content, hearlier, hitem, hversions⟩ := h.filled _ i hatt
    exact .inl ⟨_, tid, content, hatt, hslots, hearlier, hitem, hversions⟩
  · exact .inr ⟨hi, h.unused i hi⟩

/-- Every version is one that recovery has installed. -/
theorem version_cases {k : Slot} {v : Owner × Version} (hv : v ∈ s.versions k) :
    ∃ i tid content, s.index k = some i ∧ i < s.allocated ∧ Earlier epoch tid ∧
      s.item i = ⟨tid, content, k, none, false, 1⟩ ∧ v = (.recovery, ⟨tid, content, i⟩) ∧
      s.versions k = [v] := by
  cases hindex : s.index k with
  | none =>
    rw [h.empty k hindex] at hv
    cases hv
  | some i =>
    obtain ⟨hlt, -, tid, content, hearlier, hitem, hversions⟩ := h.filled k i hindex
    rw [hversions] at hv
    have heq := List.mem_singleton.mp hv
    refine ⟨i, tid, content, rfl, hlt, hearlier, hitem, heq, ?_⟩
    rw [hversions, heq]

/-- A slot has one version at most. -/
theorem pairwise_versions (R : Owner × Version → Owner × Version → Prop)
    (k : Slot) : (s.versions k).Pairwise R := by
  cases hversions : s.versions k with
  | nil => exact List.Pairwise.nil
  | cons v =>
    have hv : v ∈ s.versions k := by
      rw [hversions]
      exact .head _
    obtain ⟨_, _, _, -, -, -, -, -, hone⟩ := h.version_cases hv
    rw [hversions] at hone
    rw [hone]
    exact List.pairwise_singleton _ _

theorem holder_none (i : ItemId) : (s.item i).holder = none := by
  rcases h.item_cases i with ⟨k, tid, content, -, -, -, hitem, -⟩ | ⟨-, hitem⟩
  · rw [hitem]
  · rw [hitem]
    rfl

theorem lock_none (k : Slot) : s.abs.lock k = none := by
  show (s.index k).bind (fun i => (s.item i).holder) = none
  cases hindex : s.index k with
  | none => rfl
  | some i => exact h.holder_none i

/-- Only recovery has a stamp. -/
theorem stamp_cases {o : Owner} {st : ℕ} (hst : s.stamp o = some st) : o = .recovery ∧ st = 0 := by
  rw [h.stamp] at hst
  change (if o = .recovery then some 0 else none) = some st at hst
  split_ifs at hst with ho
  cases hst
  exact ⟨ho, rfl⟩

theorem stamp_tx (t : ℕ) : s.stamp (.tx t) = none := by
  rw [h.stamp]
  rfl

theorem protocol : Optimistic.Inv s.abs := by
  refine .of_settled h.lock_none (congrFun h.observed) (congrFun h.fixed) ?_ ?_ ?_
  · intro o st hst
    rw [(h.stamp_cases hst).2]
    show 0 < s.clock
    rw [h.clock]
    exact Nat.zero_lt_one
  · intro o o' st hst hst'
    rw [(h.stamp_cases hst).1, (h.stamp_cases hst').1]
  · intro k i o hw
    obtain ⟨v, hv, rfl⟩ := Option.map_eq_some_iff.mp hw
    obtain ⟨j, tid, content, -, -, -, -, rfl, hversions⟩ :=
      h.version_cases (List.mem_of_getElem? hv)
    change (s.versions k)[i]? = _ at hv
    rw [hversions] at hv
    cases i with
    | zero =>
      refine ⟨rfl, 0, ?_⟩
      show s.stamp .recovery = some 0
      rw [h.stamp]
      rfl
    | succ => cases hv

/-- **A store that recovery has filled is one the committers can work on.** -/
theorem storeInv (hpos : 0 < epoch.toNat) : StoreInv s where
  epoch_pos := by
    rw [h.epoch_eq]
    exact hpos
  home k i hindex := by
    obtain ⟨hlt, -, tid, content, -, hitem, -⟩ := h.filled k i hindex
    refine ⟨hlt, ?_⟩
    rw [hitem]
  slots k hindex := by
    obtain ⟨i, hi⟩ := Option.ne_none_iff_exists'.mp hindex
    exact (h.filled k i hi).2.1
  unused i _ := h.holder_none i
  bit i := by
    rw [h.holder_none i]
    rcases h.item_cases i with ⟨k, tid, content, -, -, hearlier, hitem, -⟩ | ⟨-, hitem⟩
    · rw [hitem]
      simp [hearlier.even]
    · rw [hitem]
      simp [Item.blank]
  attached k i hindex := by
    obtain ⟨-, -, tid, content, hearlier, hitem, hversions⟩ := h.filled k i hindex
    rw [hitem]
    refine ⟨by rw [hversions]; rfl, fun hzero => ?_, fun _ => ?_, fun _ _ hheld => by cases hheld⟩
    · have hpos := hearlier.pos
      rw [hzero] at hpos
      exact absurd hpos (Nat.lt_irrefl _)
    · refine ⟨(.recovery, ⟨tid, content, i⟩), by rw [hversions]; rfl, ?_, fun _ => rfl⟩
      exact (TransactionId.base_of_not_isLocked hearlier.even).symm
  vacant k hindex := by
    have hempty := h.empty k hindex
    constructor
    all_goals
      intro v hv
      rw [hempty] at hv
      cases hv
  detached i hdet := by
    rcases Nat.lt_or_ge i s.allocated with hi | hi
    · exact absurd (h.attached i hi) hdet
    · rw [h.unused i hi]
      exact ⟨rfl, rfl⟩
  seen_le i := by
    rcases h.item_cases i with ⟨k, tid, content, -, -, -, hitem, hversions⟩ | ⟨-, hitem⟩
    · rw [hitem]
      rw [hversions]
      exact Nat.le_refl 1
    · rw [hitem]
      exact Nat.zero_le _
  dirty i hdirty := by
    rcases h.item_cases i with ⟨k, tid, content, -, -, -, hitem, -⟩ | ⟨-, hitem⟩
    all_goals
      rw [hitem] at hdirty
      cases hdirty
  epochs k := h.pairwise_versions _ k
  ordered _ k := h.pairwise_versions _ k
  version k v hv := by
    obtain ⟨_, tid, _, -, -, hearlier, -, rfl, -⟩ := h.version_cases hv
    refine ⟨hearlier.even, hearlier.pos, ?_⟩
    rw [h.epoch_eq]
    exact Nat.le_of_lt hearlier.lt
  published k v hv := by
    obtain ⟨i, tid, content, -, hlt, hearlier, hitem, rfl, -⟩ := h.version_cases hv
    refine ⟨hlt, ?_⟩
    rw [hitem]
    intro hzero
    have hpos := hearlier.pos
    rw [hzero] at hpos
    exact absurd hpos (Nat.lt_irrefl _)
  committing o st hst := by
    rw [h.commitEpoch, h.epoch_eq]
    exact ⟨hpos, le_rfl⟩
  protocol := h.protocol

end

end Booted

/-! ## The epoch a session starts in -/

theorem toNat_le_max (a b : EpochNumber) :
    a.toNat ≤ (max a b).toNat ∧ b.toNat ≤ (max a b).toNat := by
  show a.toNat ≤ (if a ≤ b then b else a).toNat ∧ b.toNat ≤ (if a ≤ b then b else a).toNat
  split_ifs with hle
  · exact ⟨UInt32.le_iff_toNat_le.mp hle, le_rfl⟩
  · exact ⟨le_rfl, Nat.le_of_lt (UInt32.lt_iff_toNat_lt.mp (UInt32.not_le.mp hle))⟩

theorem toNat_le_highestEpoch (frontier : EpochNumber) (rs : List Recovered) :
    frontier.toNat ≤ (highestEpoch frontier rs).toNat := by
  have hfold : ∀ (rs : List Recovered) (highest : EpochNumber),
      highest.toNat ≤ (rs.foldl (fun highest r => max highest r.tid.epoch) highest).toNat := by
    intro rs
    induction rs with
    | nil => exact fun highest => le_rfl
    | cons r rs ih => exact fun highest => Nat.le_trans (toNat_le_max highest _).1 (ih _)
  exact Nat.le_trans (toNat_le_max 1 frontier).2 (hfold rs _)

theorem lt_resumeEpochAbove
    (h : resumeEpochAbove frontier = some epoch) : frontier.toNat < epoch.toNat := by
  unfold resumeEpochAbove at h
  split_ifs at h with hhigh
  cases h
  have hlt : frontier.toNat < (kEpochHighWater - 1).toNat :=
    UInt32.lt_iff_toNat_lt.mp (UInt32.not_le.mp hhigh)
  have hbound : (kEpochHighWater - 1).toNat = 4293918718 := rfl
  have hone : (1 : EpochNumber).toNat = 1 := rfl
  rw [UInt32.toNat_add, hone, Nat.mod_eq_of_lt (by omega)]
  exact Nat.lt_succ_self _

/-- **A session starts above the frontier.** -/
theorem lt_startEpoch {enableRecovery : Bool} {recoverySet : List Recovered}
    (h : startEpoch enableRecovery frontier recoverySet = some epoch) :
    frontier.toNat < epoch.toNat := by
  unfold startEpoch at h
  split_ifs at h with hrecovery hzero
  · exact Nat.lt_of_le_of_lt (toNat_le_highestEpoch frontier recoverySet) (lt_resumeEpochAbove h)
  · exact lt_resumeEpochAbove h
  · cases h
    rw [Decidable.not_not.mp hzero]
    exact Nat.zero_lt_one

/-! ## Every life -/

/-- What holds in every state of every life. -/
structure LifeInv (schema : Schema) (l : Life) : Prop where
  system : SystemInv (contract schema) l.session
  history : ∀ k, ∀ tid ∈ l.history k, tid.isLocked = false ∧ 0 < tid.epoch.toNat

variable {schema : Schema} {l l' : Life}

theorem LifeInv.tids (h : LifeInv schema l) {k : Slot} {tid : TransactionId}
    (htid : tid ∈ l.tids k) : tid.isLocked = false ∧ 0 < tid.epoch.toNat := by
  rcases List.mem_append.mp htid with htid | htid
  · exact h.history k tid htid
  · obtain ⟨v, hv, rfl⟩ := List.mem_map.mp htid
    obtain ⟨heven, hpos, -⟩ := h.system.store.version k v (List.mem_filter.mp hv).1
    exact ⟨heven, hpos⟩

/-- What survives belongs to epochs before the next session. -/
theorem LifeInv.survivors (h : LifeInv schema l)
    (hepoch : frontier.toNat < epoch.toNat) {k : Slot} {tid : TransactionId}
    (htid : tid ∈ l.survivors frontier k) : Earlier epoch tid := by
  obtain ⟨htid, hle⟩ := List.mem_filter.mp htid
  obtain ⟨heven, hpos⟩ := h.tids htid
  refine ⟨heven, hpos, Nat.lt_of_le_of_lt ?_ hepoch⟩
  exact UInt32.le_iff_toNat_le.mp (of_decide_eq_true hle)

theorem LifeInv.booted (h : LifeInv schema l)
    {recoverySet : List Recovered} (hrecovers : l.Recovers frontier recoverySet)
    (hepoch : frontier.toNat < epoch.toNat) {installed : List Recovered}
    (hinstalled : installed.Sublist recoverySet) :
    Booted epoch (installed.foldl put (boot epoch)) := by
  refine (booted_boot epoch).foldl (fun _ _ => rfl) (hrecovers.1.sublist (hinstalled.map _)) ?_
  exact fun r hr => h.survivors hepoch (hrecovers.2 r (hinstalled.subset hr)).2

/-- A start after recovery is a start of committers and reaper. -/
theorem Booted.systemInv {s : Store} (h : Booted epoch s) (hpos : 0 < epoch.toNat) :
    SystemInv (contract schema) { (committers schema).initial with store := s } where
  store := h.storeInv hpos
  party t := (contract schema).start (h.stamp_tx t)
  reaper := by
    refine ⟨?_, nofun, trivial, fun i hi => ?_⟩
    · rw [h.stamp]
      rfl
    · rw [h.holder_none i] at hi
      cases hi

/-- A step of the session, or a restart. -/
theorem Life.next_cases {action : LifeAction} (h : l.next schema action = some l') :
    (∃ a session, action = .step a ∧ (committers schema).next l.session a = some session ∧
        l' = { l with session := session }) ∨
      ∃ frontier epoch recoverySet installed, l.Recovers frontier recoverySet ∧
        frontier.toNat < epoch.toNat ∧ List.Sublist installed recoverySet ∧
        l' = l.restart schema frontier epoch installed := by
  cases action with
  | step a =>
    obtain ⟨session, hnext, rfl⟩ := Option.map_eq_some_iff.mp h
    exact .inl ⟨a, session, rfl, hnext, rfl⟩
  | restart enableRecovery frontier recoverySet =>
    by_cases hrecovers : l.Recovers frontier recoverySet
    · rw [Life.next, if_pos hrecovers] at h
      obtain ⟨epoch, hepoch, rfl⟩ := Option.map_eq_some_iff.mp h
      refine .inr ⟨frontier, epoch, recoverySet, _, hrecovers, lt_startEpoch hepoch, ?_, rfl⟩
      split_ifs
      · exact List.Sublist.refl _
      · exact List.nil_sublist _
    · rw [Life.next, if_neg hrecovers] at h
      cases h

theorem LifeInv.next (h : LifeInv schema l) {action : LifeAction}
    (hnext : l.next schema action = some l') : LifeInv schema l' := by
  rcases Life.next_cases hnext with ⟨a, session, -, hstep, rfl⟩ |
    ⟨frontier, epoch, recoverySet, installed, hrecovers, hepoch, hinstalled, rfl⟩
  · exact ⟨h.system.step (Party.effect hstep), h.history⟩
  · refine ⟨(h.booted hrecovers hepoch hinstalled).systemInv ?_, fun k tid htid => ?_⟩
    · exact Nat.lt_of_le_of_lt (Nat.zero_le _) hepoch
    · exact h.tids (List.mem_filter.mp htid).1

/-- **The invariants hold in every life.** -/
theorem lifeInv_run {actions : List LifeAction}
    (hrun : run (Life.next schema) (Life.initial schema) actions = some l) : LifeInv schema l :=
  run_invariant (P := LifeInv schema) (fun h hnext => h.next hnext)
    ⟨systemInv_initial (contract schema), fun _ _ htid => absurd htid List.not_mem_nil⟩ hrun

/-! ## Actions of a session -/

/-- A native transaction writes one row and commits. -/
def nativeWrite (t : ℕ) (tableName key value : Bytes) : List LifeAction :=
  let native := fun choice => LifeAction.step (.party t (.inl choice))
  [native (.write tableName key value), native .precommit] ++
    List.replicate 12 (native (.next 0 true))

/-- A stateless request hands in its writes, and makes `n` steps. -/
def statelessWrites (t : ℕ) (writes : List Stateless.ExternalWriteEntry) (n : ℕ) :
    List LifeAction :=
  let stateless := fun choice => LifeAction.step (.party t (.inr choice))
  stateless (.submit [] writes [] []) :: List.replicate n (stateless (.next 0))

/-- So many epochs pass. -/
def epochs (n : ℕ) : List LifeAction := List.replicate n (.step .advanceEpoch)

/-- The reaper makes `n` steps at a published epoch. -/
def reaps (publishedEpoch : EpochNumber) (n : ℕ) : List LifeAction :=
  List.replicate n (.step (.reap publishedEpoch))

end LineairDB.Lives
