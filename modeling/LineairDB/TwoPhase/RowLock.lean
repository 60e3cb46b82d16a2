import LineairDB.TwoPhase.Protocol

/-!
# What the word of a row lock stands for

Beside the word, which the code changes, stands who was granted what and has not
given it back.

* `Stands`, `Agrees` — a word that stands for the holds on its row, and for one hold of
  each transaction at most.
* `Stands.shared`, `Stands.exclusive`, `Stands.upgrade` — kept by every lock that is
  granted, an upgrade if the transaction it is granted to holds the row shared.
* `Stands.store`, `Stands.subReader` — kept by both ways of giving a lock back, each
  for a hold of its mode.
-/

namespace LineairDB.TwoPhase

/-! ## Holds on one row -/

/-- How a row is held. -/
inductive Mode where
  | shared
  | exclusive
  deriving Repr, DecidableEq

/-- Who holds it. -/
structure Hold where
  tx : ℕ
  mode : Mode
  deriving Repr, DecidableEq

/-- The word of a row with these holds. -/
def encode (holds : List Hold) : UInt64 :=
  if ∃ hold ∈ holds, hold.mode = .exclusive then exclusivelyLocked
  else UInt64.ofNat (2 * holds.length)

/-- The holds once transaction `t` has been granted a lock. -/
def granted (t : ℕ) (holds : List Hold) : LockType → List Hold
  | .shared => ⟨t, .shared⟩ :: holds
  | .exclusive => ⟨t, .exclusive⟩ :: holds
  | .upgrade => ⟨t, .exclusive⟩ :: holds.erase ⟨t, .shared⟩

/-- The holds once transaction `t` has given one back. -/
def givenBack (t : ℕ) (holds : List Hold) : List Hold := holds.eraseP fun hold => hold.tx = t

/-- **A word and the holds it stands for.** -/
structure Agrees (w : UInt64) (holds : List Hold) : Prop where
  word : w = encode holds
  once : (holds.map Hold.tx).Nodup
  alone : ∀ hold ∈ holds, hold.mode = .exclusive → holds = [hold]
  room : 2 * holds.length < 2 ^ 64

/-- One writer, or readers that are counted. -/
def Stands (w : UInt64) (holds : List Hold) : Prop :=
  (∃ u, holds = [⟨u, .exclusive⟩] ∧ w = exclusivelyLocked) ∨
    (∀ hold ∈ holds, hold.mode = .shared) ∧ w.toNat = 2 * holds.length

section Word

variable {w w' : UInt64} {holds : List Hold} {t : ℕ}

theorem stands_unLocked : Stands unLocked [] := .inr ⟨by simp, rfl⟩

/-- A word that counts readers is even. -/
theorem ne_exclusivelyLocked {n : ℕ} (h : w.toNat = 2 * n) : w ≠ exclusivelyLocked := by
  rintro rfl
  have hone : exclusivelyLocked.toNat = 1 := rfl
  omega

section

variable (h : Stands w holds)

include h

theorem Stands.agrees (honce : (holds.map Hold.tx).Nodup) : Agrees w holds := by
  rcases h with ⟨u, rfl, rfl⟩ | ⟨hshared, hw⟩
  · exact ⟨by simp [encode], honce, by simp, by simp⟩
  · have hnone : ¬ ∃ hold ∈ holds, hold.mode = .exclusive := by
      rintro ⟨hold, hmem, hmode⟩
      rw [hshared hold hmem] at hmode
      cases hmode
    have hroom : 2 * holds.length < 2 ^ 64 := hw ▸ w.toNat_lt
    refine ⟨?_, honce, fun hold hmem hmode => absurd ⟨hold, hmem, hmode⟩ hnone, hroom⟩
    rw [encode, if_neg hnone]
    apply UInt64.toNat_inj.mp
    rw [hw, UInt64.toNat_ofNat', Nat.mod_eq_of_lt hroom]

theorem Stands.eq_of_mem_exclusive (hmem : ⟨t, .exclusive⟩ ∈ holds) :
    holds = [⟨t, .exclusive⟩] ∧ w = exclusivelyLocked := by
  rcases h with ⟨u, hholds, hw⟩ | ⟨hshared, -⟩
  · rw [hholds] at hmem
    rw [List.mem_singleton.mp hmem]
    exact ⟨hholds, hw⟩
  · exact Mode.noConfusion (hshared _ hmem)

theorem Stands.shared_of_mem (hmem : ⟨t, .shared⟩ ∈ holds) :
    (∀ hold ∈ holds, hold.mode = .shared) ∧ w.toNat = 2 * holds.length := by
  rcases h with ⟨u, hholds, -⟩ | hshared
  · rw [hholds] at hmem
    cases List.mem_singleton.mp hmem
  · exact hshared

/-- Another reader. -/
theorem Stands.shared (hlock : tryLock .shared w = some w') :
    Stands w' (granted t holds .shared) := by
  simp only [tryLock, Option.ite_none_left_eq_some, Option.some.injEq, not_or, not_not] at hlock
  obtain ⟨⟨hfree, hroom⟩, rfl⟩ := hlock
  obtain ⟨hshared, hw⟩ := h.resolve_left fun ⟨u, _, hw⟩ => hfree hw
  have hreader : reader.toNat = 2 := rfl
  have hlt : w.toNat < 2 ^ 64 - 2 := UInt64.lt_iff_toNat_lt.mp hroom
  refine .inr ⟨List.forall_mem_cons.mpr ⟨rfl, hshared⟩, ?_⟩
  rw [UInt64.toNat_add, hreader, Nat.mod_eq_of_lt (by omega), hw, granted, List.length_cons]
  ring

/-- The first and only one. -/
theorem Stands.exclusive (hlock : tryLock .exclusive w = some w') :
    holds = [] ∧ Stands w' (granted t holds .exclusive) := by
  simp only [tryLock, Option.ite_none_left_eq_some, Option.some.injEq, not_not] at hlock
  obtain ⟨rfl, rfl⟩ := hlock
  have hempty : holds = [] := by
    rcases h with ⟨u, -, hw⟩ | ⟨-, hw⟩
    · cases hw
    · have hzero : unLocked.toNat = 0 := rfl
      exact List.length_eq_zero_iff.mp (by omega)
  rw [hempty]
  exact ⟨rfl, .inl ⟨t, rfl, rfl⟩⟩

/-- The only reader becomes the writer. -/
theorem Stands.upgrade (hlock : tryLock .upgrade w = some w') (hmem : ⟨t, .shared⟩ ∈ holds) :
    holds = [⟨t, .shared⟩] ∧ Stands w' (granted t holds .upgrade) := by
  simp only [tryLock, Option.ite_none_right_eq_some, Option.some.injEq] at hlock
  obtain ⟨hone, rfl⟩ := hlock
  have hw := (h.shared_of_mem hmem).2
  have hlength : holds.length = 1 := by
    have hshift : (w >>> 1).toNat = w.toNat / 2 := by
      rw [UInt64.toNat_shiftRight]
      exact Nat.shiftRight_succ w.toNat 0
    rw [hone, hw] at hshift
    have hone : (1 : UInt64).toNat = 1 := rfl
    omega
  obtain ⟨hold, rfl⟩ := List.length_eq_one_iff.mp hlength
  rw [← List.mem_singleton.mp hmem, granted, List.erase_cons_head]
  exact ⟨rfl, .inl ⟨t, rfl, rfl⟩⟩

/-- What `UnLock` finds in the word of a row on which there is a hold. -/
theorem Stands.loaded {mode : Mode} (hmem : ⟨t, mode⟩ ∈ holds) :
    w = exclusivelyLocked ↔ mode = .exclusive := by
  cases mode with
  | exclusive => simp [(h.eq_of_mem_exclusive hmem).2]
  | shared => simp [ne_exclusivelyLocked (h.shared_of_mem hmem).2]

theorem Stands.store (hmem : ⟨t, .exclusive⟩ ∈ holds) : Stands unLocked (givenBack t holds) := by
  rw [(h.eq_of_mem_exclusive hmem).1, givenBack, List.eraseP_cons_of_pos (by simp)]
  exact stands_unLocked

theorem Stands.subReader (hmem : ⟨t, .shared⟩ ∈ holds) :
    Stands (w - reader) (givenBack t holds) := by
  obtain ⟨hshared, hw⟩ := h.shared_of_mem hmem
  have hlength : (givenBack t holds).length = holds.length - 1 :=
    List.length_eraseP_of_mem hmem (by simp)
  have hpos : 0 < holds.length := List.length_pos_of_mem hmem
  have hreader : reader.toNat = 2 := rfl
  have hle : reader ≤ w := UInt64.le_iff_toNat_le.mpr (by omega)
  refine .inr ⟨fun hold hhold => hshared hold (List.mem_of_mem_eraseP hhold), ?_⟩
  rw [UInt64.toNat_sub_of_le _ _ hle, hw, hreader, hlength]
  omega

end

theorem agrees_unLocked : Agrees unLocked [] := stands_unLocked.agrees List.nodup_nil

section

variable (h : Agrees w holds)

include h

theorem Agrees.stands : Stands w holds := by
  by_cases hany : ∃ hold ∈ holds, hold.mode = .exclusive
  · left
    obtain ⟨⟨u, mode⟩, hmem, hmode⟩ := hany
    cases hmode
    refine ⟨u, h.alone _ hmem rfl, ?_⟩
    rw [h.word, encode, if_pos ⟨_, hmem, rfl⟩]
  · right
    constructor
    · intro hold hmem
      cases hmode : hold.mode with
      | shared => rfl
      | exclusive => exact absurd ⟨hold, hmem, hmode⟩ hany
    · rw [h.word, encode, if_neg hany, UInt64.toNat_ofNat', Nat.mod_eq_of_lt h.room]

theorem Agrees.shared (hlock : tryLock .shared w = some w') (hnew : t ∉ holds.map Hold.tx) :
    Agrees w' (granted t holds .shared) :=
  (h.stands.shared hlock).agrees (List.nodup_cons.mpr ⟨hnew, h.once⟩)

theorem Agrees.exclusive (hlock : tryLock .exclusive w = some w') :
    holds = [] ∧ Agrees w' (granted t holds .exclusive) := by
  obtain ⟨rfl, hstands⟩ := h.stands.exclusive (t := t) hlock
  exact ⟨rfl, hstands.agrees (List.nodup_singleton t)⟩

theorem Agrees.upgrade (hlock : tryLock .upgrade w = some w') (hmem : ⟨t, .shared⟩ ∈ holds) :
    holds = [⟨t, .shared⟩] ∧ Agrees w' (granted t holds .upgrade) := by
  obtain ⟨rfl, hstands⟩ := h.stands.upgrade hlock hmem
  exact ⟨rfl, hstands.agrees (by simp [granted])⟩

/-- No lock is granted on a row that is held exclusively. -/
theorem Agrees.tryLock_of_mem_exclusive (hmem : ⟨t, .exclusive⟩ ∈ holds) (type : LockType) :
    tryLock type w = none := by
  rw [(h.stands.eq_of_mem_exclusive hmem).2]
  cases type <;> rfl

theorem Agrees.gaveBack (hstands : Stands w' (givenBack t holds)) : Agrees w' (givenBack t holds) :=
  hstands.agrees (h.once.sublist (List.eraseP_sublist.map Hold.tx))

/-- The hold given back is the only one of its transaction. -/
theorem Agrees.not_mem_givenBack : t ∉ (givenBack t holds).map Hold.tx := by
  have honce := h.once
  clear h
  induction holds with
  | nil => simp [givenBack]
  | cons hold rest ih =>
    rw [List.map_cons, List.nodup_cons] at honce
    by_cases ht : hold.tx = t
    · rw [givenBack, List.eraseP_cons_of_pos (by simpa using ht), ← ht]
      exact honce.1
    · rw [givenBack, List.eraseP_cons_of_neg (by simpa using ht), List.map_cons, List.mem_cons]
      rintro (heq | hmem)
      · exact ht heq.symm
      · exact ih honce.2 hmem

end

theorem mem_givenBack {hold : Hold} (hne : hold.tx ≠ t) : hold ∈ givenBack t holds ↔ hold ∈ holds :=
  List.mem_eraseP_of_neg (by simpa using hne)

theorem mem_granted {hold : Hold} (hne : hold.tx ≠ t) (type : LockType) :
    hold ∈ granted t holds type ↔ hold ∈ holds := by
  have hnot (mode : Mode) : hold ≠ ⟨t, mode⟩ := fun heq => hne (congrArg Hold.tx heq)
  cases type with
  | shared | exclusive => simp [granted, hnot]
  | upgrade => simp [granted, hnot, List.mem_erase_of_ne]

end Word

end LineairDB.TwoPhase
