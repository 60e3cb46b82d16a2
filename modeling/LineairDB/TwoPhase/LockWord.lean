import LineairDB.Library.Transition
import LineairDB.TwoPhase.RowLock

/-!
# The steps of the readers-writers lock

`ReadersWritersLockImpl` with every load, exchange and store of the word a step of its own. A
thread may hold the lock shared more than once.

* `Pc.Ok` — what a thread that has loaded the word still holds.
* `lock_excludes` — over every interleaving, the word stands for the holds.
-/

namespace LineairDB.TwoPhase

open Transition
open Function (update)

/-! ## Threads -/

/-- What a thread does next. -/
inductive Pc where
  | idle
  /-- `TryLock` has loaded `current` and will exchange it. -/
  | exchange (type : LockType) (current desired : UInt64)
  /-- `UnLock` has found the lock exclusive. -/
  | store
  /-- `UnLock` is at the head of its loop. -/
  | load
  | subReader (current : UInt64)
  deriving Repr, DecidableEq

/-- A lock with its holders and those who ask. -/
structure LockState where
  word : UInt64
  holds : List Hold
  pc : ℕ → Pc

/-- A call, which loads the word, or the next step of one. -/
inductive Move where
  | tryLock (type : LockType)
  | unLock
  | next (spurious : Bool)
  deriving Repr, DecidableEq

/-- The lock is free. -/
def LockState.initial : LockState := ⟨unLocked, [], fun _ => .idle⟩

/-- The step of a thread. It upgrades only what it holds shared and gives back only what it
holds. -/
def lockStep (s : LockState) : ℕ × Move → Option LockState
  | (t, .tryLock type) =>
    if s.pc t ≠ .idle ∨ type = .upgrade ∧ ⟨t, .shared⟩ ∉ s.holds then none
    else match tryLock type s.word with
      | none => some s
      | some desired => some { s with pc := update s.pc t (.exchange type s.word desired) }
  | (t, .unLock) =>
    if s.pc t ≠ .idle ∨ t ∉ s.holds.map Hold.tx then none
    else
      let pc := if s.word = exclusivelyLocked then .store else .load
      some { s with pc := update s.pc t pc }
  | (t, .next spurious) =>
    match s.pc t with
    | .idle => none
    | .exchange type current desired =>
      if s.word = current ∧ ¬ spurious then
        some ⟨desired, granted t s.holds type, update s.pc t .idle⟩
      else some { s with pc := update s.pc t .idle }
    | .store => some ⟨unLocked, givenBack t s.holds, update s.pc t .idle⟩
    | .load => some { s with pc := update s.pc t (.subReader s.word) }
    | .subReader current =>
      if s.word = current ∧ ¬ spurious then
        some ⟨current - reader, givenBack t s.holds, update s.pc t .idle⟩
      else some { s with pc := update s.pc t .load }

/-! ## What a step leaves -/

/-- A thread in the middle of a call still holds what the call is about. -/
def Pc.Ok (own : Mode → Prop) : Pc → Prop
  | .idle => True
  | .exchange type current desired =>
    tryLock type current = some desired ∧ (type = .upgrade → own .shared)
  | .store => own .exclusive
  | .load => own .shared
  | .subReader _ => own .shared

/-- Word and holders agree. -/
structure LockInv (s : LockState) : Prop where
  stands : Stands s.word s.holds
  pc : ∀ t, (s.pc t).Ok fun mode => ⟨t, mode⟩ ∈ s.holds

/-- A step changes the holds of its own thread only. -/
structure Leaves (t : ℕ) (s s' : LockState) : Prop where
  inv : LockInv s'
  others : ∀ hold : Hold, hold.tx ≠ t → (hold ∈ s'.holds ↔ hold ∈ s.holds)

variable {s s' : LockState} {t : ℕ} {w : UInt64} {holds : List Hold} {pc : Pc}

theorem LockInv.replace (h : LockInv s) (hstands : Stands w holds)
    (hothers : ∀ hold : Hold, hold.tx ≠ t → (hold ∈ holds ↔ hold ∈ s.holds))
    (hpc : pc.Ok fun mode => ⟨t, mode⟩ ∈ holds) : Leaves t s ⟨w, holds, update s.pc t pc⟩ := by
  refine ⟨⟨hstands, ?_⟩, hothers⟩
  refine (Function.forall_update_iff s.pc _).mpr ⟨hpc, fun u hu => ?_⟩
  simp only [fun mode => hothers ⟨u, mode⟩ hu]
  exact h.pc u

theorem LockInv.moves (h : LockInv s) (hpc : pc.Ok fun mode => ⟨t, mode⟩ ∈ s.holds) :
    Leaves t s { s with pc := update s.pc t pc } :=
  h.replace h.stands (fun _ _ => Iff.rfl) hpc

theorem LockInv.exchange {type : LockType} (h : LockInv s)
    (hlock : tryLock type s.word = some w) (hown : type = .upgrade → ⟨t, .shared⟩ ∈ s.holds) :
    Leaves t s ⟨w, granted t s.holds type, update s.pc t .idle⟩ := by
  refine h.replace ?_ (fun hold hne => mem_granted hne type) trivial
  cases type with
  | shared => exact h.stands.shared hlock
  | exclusive => exact (h.stands.exclusive hlock).2
  | upgrade => exact (h.stands.upgrade hlock (hown rfl)).2

theorem LockInv.step {a : ℕ × Move} (h : LockInv s) (hstep : lockStep s a = some s') :
    Leaves a.1 s s' := by
  obtain ⟨t, move⟩ := a
  have hpc := h.pc t
  cases move with
  | tryLock type =>
    simp only [lockStep, Option.ite_none_left_eq_some, not_or, not_and, not_not] at hstep
    obtain ⟨⟨-, hown⟩, hstep⟩ := hstep
    split at hstep <;> cases hstep
    · exact ⟨h, fun _ _ => Iff.rfl⟩
    · exact h.moves ⟨‹_›, hown⟩
  | unLock =>
    simp only [lockStep, Option.ite_none_left_eq_some, not_or, not_not] at hstep
    obtain ⟨⟨-, hmem⟩, hstep⟩ := hstep
    cases hstep
    obtain ⟨⟨u, mode⟩, hhold, rfl⟩ := List.mem_map.mp hmem
    have hloaded := h.stands.loaded hhold
    refine h.moves ?_
    cases mode with
    | shared => rwa [if_neg (by simp [hloaded])]
    | exclusive => rwa [if_pos (by simp [hloaded])]
  | next spurious =>
    rw [lockStep] at hstep
    generalize s.pc t = pc at hpc hstep
    cases pc with
    | idle => cases hstep
    | exchange type current desired =>
      dsimp only at hstep
      split_ifs at hstep with hsame <;> cases hstep
      · exact h.exchange (hsame.1 ▸ hpc.1) hpc.2
      · exact h.moves trivial
    | store =>
      cases hstep
      exact h.replace (h.stands.store hpc) (fun _ => mem_givenBack) trivial
    | load =>
      cases hstep
      exact h.moves hpc
    | subReader current =>
      dsimp only at hstep
      split_ifs at hstep with hsame <;> cases hstep
      · exact hsame.1 ▸ h.replace (h.stands.subReader hpc) (fun _ => mem_givenBack) trivial
      · exact h.moves hpc

/-! ## Runs -/

theorem lockInv_initial : LockInv .initial := ⟨stands_unLocked, fun _ => trivial⟩

/-- **The lock excludes.** The word is a writer's if and only if one thread is the writer, and
counts the readers otherwise. A writer is alone, an upgrade whose exchange can succeed is the
only reader's, a reader never stores, and no step takes the hold of another thread. -/
theorem lock_excludes {as : List (ℕ × Move)} (hrun : run lockStep .initial as = some s) :
    (s.word = exclusivelyLocked ↔ ∃! t, ⟨t, .exclusive⟩ ∈ s.holds) ∧
    (s.word ≠ exclusivelyLocked → s.word.toNat = 2 * s.holds.countP (·.mode = .shared)) ∧
    (∀ hold ∈ s.holds, hold.mode = .exclusive → s.holds = [hold]) ∧
    (∀ t current desired, s.pc t = .exchange .upgrade current desired → s.word = current →
      s.holds = [⟨t, .shared⟩]) ∧
    (∀ t, ⟨t, .shared⟩ ∈ s.holds → s.pc t ≠ .store) ∧
    ∀ a s', lockStep s a = some s' → ∀ hold ∈ s.holds, hold.tx ≠ a.1 → hold ∈ s'.holds := by
  have h := run_invariant (fun h hstep => (h.step hstep).inv) lockInv_initial hrun
  refine ⟨?_, ?_, ?_, ?_, ?_, ?_⟩
  · constructor
    · intro hword
      obtain ⟨t, hholds, -⟩ := h.stands.resolve_right fun hs => ne_exclusivelyLocked hs.2 hword
      exact ⟨t, by simp [hholds], by simp [hholds]⟩
    · rintro ⟨t, hmem, -⟩
      exact (h.stands.eq_of_mem_exclusive hmem).2
  · intro hword
    obtain ⟨hshared, hcount⟩ := h.stands.resolve_left fun ⟨t, _, hw⟩ => hword hw
    rw [hcount, List.countP_eq_length.mpr (by simpa using hshared)]
  · rintro ⟨t, mode⟩ hmem rfl
    exact (h.stands.eq_of_mem_exclusive hmem).1
  · rintro t current desired hat rfl
    obtain ⟨hlock, hown⟩ : Pc.Ok _ _ := hat ▸ h.pc t
    exact (h.stands.upgrade hlock (hown rfl)).1
  · intro t hmem hat
    have hown : Pc.Ok _ _ := hat ▸ h.pc t
    exact Mode.noConfusion ((h.stands.shared_of_mem hmem).1 _ hown)
  · intro a s' hstep hold hmem hne
    exact ((h.step hstep).others hold hne).mpr hmem

/-- A reader upgrades while another comes and goes. -/
def upgradeRun : List (ℕ × Move) :=
  [(0, .tryLock .shared), (0, .next false), (1, .tryLock .shared), (0, .tryLock .upgrade),
    (1, .next false), (0, .next false), (1, .unLock), (1, .next false), (1, .next true),
    (1, .next false), (1, .next false), (0, .tryLock .upgrade), (0, .next false)]

theorem lock_excludes_upgraded : ∃ s, run lockStep .initial upgradeRun = some s ∧
    s.word = exclusivelyLocked ∧ ∃! t, ⟨t, .exclusive⟩ ∈ s.holds :=
  have hrun : run lockStep .initial upgradeRun = some _ := rfl
  ⟨_, hrun, rfl, (lock_excludes hrun).1.mp rfl⟩

end LineairDB.TwoPhase
