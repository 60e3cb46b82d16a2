import Mathlib.Data.Fintype.BigOperators

/-!
# Optimistic commitment

A protocol for transactions that observe versions of objects, lock what they
write, take a serialization stamp with every lock held, make sure that what
they observed is still current, and publish one version per lock. Nothing is
said about how an object is represented: the state keeps the versions every
object has had, who holds its lock, and what every transaction has observed
and fixed.

* `Inv.step` — what the stamps say about versions, locks and observations is
  preserved by every step.
* `Inv.stamp_lt_of_conflict` — every conflict between transactions that fixed
  what they read goes up in the stamps.
* `acyclic_of_stamps` — so no graph made of such conflicts has a cycle.
* `Inv.position_of_fixed` — and whoever fixed what it overwrites lost no update.
* `Ahead.step` — a transaction that is stamped before everyone who can overwrite what it
  read stays so, whether it fixed that or not.
-/

namespace Optimistic

open Function (update_self update_of_ne update_apply update)

variable {K T V : Type}

variable {k : K} {i : ℕ}

/-- The versions of the objects `K` the transactions `T` have published, the
locks they hold, their stamps, and the positions (numbers of versions) at
which they observed and fixed objects. -/
structure State (K T V : Type) where
  versions : K → List (T × V)
  lock : K → Option T
  stamp : T → Option ℕ
  clock : ℕ
  observed : T → Set (K × ℕ)
  fixed : T → Set (K × ℕ)

/-- The objects of `D`, each with the number of versions it has now. -/
def State.positions (s : State K T V) (D : Set K) : Set (K × ℕ) :=
  {q | q.1 ∈ D ∧ q.2 = (s.versions q.1).length}

section Steps

variable [DecidableEq K] [DecidableEq T]

/-- What the transactions may do. A transaction acquires locks and observes
before it is stamped, and fixes and publishes afterwards. -/
inductive Step (s : State K T V) : State K T V → Prop
  | acquire {t : T} {k : K} (hfree : s.lock k = none) (hstamp : s.stamp t = none) :
      Step s { s with lock := update s.lock k (some t) }
  | release {t : T} {k : K} (hheld : s.lock k = some t) :
      Step s { s with lock := update s.lock k none }
  | serialize {t : T} (hstamp : s.stamp t = none) :
      Step s { s with stamp := update s.stamp t (some s.clock), clock := s.clock + 1 }
  | observe {t : T} {k : K} {p : ℕ} (hstamp : s.stamp t = none) (hp : p ≤ (s.versions k).length) :
      Step s { s with observed := update s.observed t (s.observed t ∪ {(k, p)}) }
  | fix {t : T} {D : Set K} {st : ℕ} (hstamp : s.stamp t = some st)
      (hfree : ∀ k ∈ D, s.lock k = none ∨ s.lock k = some t) :
      Step s { s with fixed := update s.fixed t (s.fixed t ∪ s.positions D) }
  | publish {t : T} {k : K} {st : ℕ} (v : V) (hstamp : s.stamp t = some st)
      (hheld : s.lock k = some t) :
      Step s
        { s with
          versions := update s.versions k (s.versions k ++ [(t, v)])
          lock := update s.lock k none }

end Steps

variable {t : T}

namespace State

/-- Who published the version at a position. -/
def writer (s : State K T V) (k : K) (i : ℕ) : Option T := ((s.versions k)[i]?).map Prod.fst

theorem lt_length_of_writer {s : State K T V} (h : s.writer k i = some t) :
    i < (s.versions k).length := by
  unfold writer at h
  by_contra hge
  rw [List.getElem?_eq_none (Nat.le_of_not_lt hge)] at h
  cases h

theorem exists_writer {s : State K T V} (h : i < (s.versions k).length) :
    ∃ t, s.writer k i = some t := by
  unfold writer
  rw [List.getElem?_eq_getElem h]
  exact ⟨_, rfl⟩

end State

/-- What the stamps say. -/
structure Inv (s : State K T V) : Prop where
  stamp_lt : ∀ t st, s.stamp t = some st → st < s.clock
  stamp_inj : ∀ t u st, s.stamp t = some st → s.stamp u = some st → t = u
  /-- Only stamped transactions publish. -/
  stamped : ∀ k i t, s.writer k i = some t → ∃ st, s.stamp t = some st
  ascending : ∀ k i j t u st su, i < j → s.writer k i = some t → s.writer k j = some u →
    s.stamp t = some st → s.stamp u = some su → st < su
  /-- A stamped holder comes after every version of what it holds. -/
  holder : ∀ k t st, s.lock k = some t → s.stamp t = some st →
    ∀ i u su, s.writer k i = some u → s.stamp u = some su → su < st
  observed_le : ∀ t k p, (k, p) ∈ s.observed t → p ≤ (s.versions k).length
  /-- What a transaction observed was there before its stamp. -/
  observed : ∀ t st k p, s.stamp t = some st → (k, p) ∈ s.observed t →
    ∀ i u su, i < p → s.writer k i = some u → s.stamp u = some su → su < st
  fixed_le : ∀ t k q, (k, q) ∈ s.fixed t → q ≤ (s.versions k).length ∧ ∃ st, s.stamp t = some st
  /-- Whoever publishes behind a fixed position comes later. -/
  fixed : ∀ t st k q, s.stamp t = some st → (k, q) ∈ s.fixed t →
    ∀ i u su, q ≤ i → s.writer k i = some u → s.stamp u = some su → u = t ∨ st < su
  /-- So does whoever is about to. -/
  fixed_lock : ∀ t st k q, s.stamp t = some st → (k, q) ∈ s.fixed t →
    ∀ u su, s.lock k = some u → s.stamp u = some su → u = t ∨ st < su

/-- Where nobody is on the way and every object has been published once at most, the stamps
say what they should. -/
theorem Inv.of_settled {s : State K T V} (hlock : ∀ k, s.lock k = none)
    (hobserved : ∀ t, s.observed t = ∅) (hfixed : ∀ t, s.fixed t = ∅)
    (hlt : ∀ t st, s.stamp t = some st → st < s.clock)
    (hinj : ∀ t u st, s.stamp t = some st → s.stamp u = some st → t = u)
    (hwriter : ∀ k i t, s.writer k i = some t → i = 0 ∧ ∃ st, s.stamp t = some st) : Inv s := by
  have locked : ∀ {k t}, s.lock k ≠ some t := by simp [hlock]
  have seen : ∀ {t q}, q ∉ s.observed t := by simp [hobserved]
  have settled : ∀ {t q}, q ∉ s.fixed t := by simp [hfixed]
  exact
    { stamp_lt := hlt
      stamp_inj := hinj
      stamped := fun k i t hw => (hwriter k i t hw).2
      ascending := fun k i j t u st su hij _ hj =>
        absurd (hwriter k j u hj).1 (Nat.ne_zero_of_lt hij)
      holder := fun k t st hk => absurd hk locked
      observed_le := fun t k p hq => absurd hq seen
      observed := fun t st k p _ hq => absurd hq seen
      fixed_le := fun t k q hq => absurd hq settled
      fixed := fun t st k q _ hq => absurd hq settled
      fixed_lock := fun t st k q _ hq => absurd hq settled }

/-! ## Every step preserves the stamps' meaning -/

section Preservation

variable {s s' : State K T V}

/-- The locks alone changed, and no stamped transaction got one. -/
theorem Inv.relock (h : Inv s) {lock : K → Option T}
    (hlock : ∀ k t st, lock k = some t → s.stamp t = some st → s.lock k = some t) :
    Inv { s with lock := lock } :=
  { h with
    holder := fun k t st hk ht => h.holder k t st (hlock k t st hk ht) ht
    fixed_lock := fun t st k q ht hq u su hk hu =>
      h.fixed_lock t st k q ht hq u su (hlock k u su hk hu) hu }

theorem Inv.acquire [DecidableEq K] (h : Inv s) (k : K) (hstamp : s.stamp t = none) :
    Inv { s with lock := update s.lock k (some t) } := by
  refine h.relock fun k' u st hk hu => ?_
  rw [update_apply] at hk
  split_ifs at hk
  · cases hk
    rw [hstamp] at hu
    cases hu
  · exact hk

theorem Inv.release [DecidableEq K] (h : Inv s) (k : K) :
    Inv { s with lock := update s.lock k none } := by
  refine h.relock fun k' u st hk _ => ?_
  rw [update_apply] at hk
  split_ifs at hk
  exact hk

/-- A new stamp is later than every other, and nothing was published under it. -/
theorem Inv.serialize [DecidableEq T] (h : Inv s) (hstamp : s.stamp t = none) :
    Inv { s with stamp := update s.stamp t (some s.clock), clock := s.clock + 1 } := by
  -- a stamp after the step is the new one or an old one
  have old : ∀ u su, update s.stamp t (some s.clock) u = some su →
      u = t ∧ su = s.clock ∨ u ≠ t ∧ s.stamp u = some su := by
    intro u su hu
    rw [update_apply] at hu
    split_ifs at hu with hut
    · cases hu
      exact .inl ⟨hut, rfl⟩
    · exact .inr ⟨hut, hu⟩
  have unwritten : ∀ k i, s.writer k i ≠ some t := by
    intro k i hw
    obtain ⟨st, hst⟩ := h.stamped k i t hw
    rw [hstamp] at hst
    cases hst
  have written : ∀ k i u su, s.writer k i = some u →
      update s.stamp t (some s.clock) u = some su → s.stamp u = some su := by
    intro k i u su hw hu
    rcases old u su hu with ⟨rfl, -⟩ | ⟨-, hu⟩
    · exact absurd hw (unwritten k i)
    · exact hu
  constructor
  · intro u su hu
    rcases old u su hu with ⟨-, rfl⟩ | ⟨-, hu⟩
    · exact Nat.lt_succ_self _
    · exact Nat.lt_succ_of_lt (h.stamp_lt u su hu)
  · intro u w st hu hw
    rcases old u st hu with ⟨hut, hst⟩ | ⟨-, hold⟩
    · rcases old w st hw with ⟨hwt, -⟩ | ⟨-, hold⟩
      · rw [hut, hwt]
      · exact absurd (h.stamp_lt w st hold) (hst ▸ Nat.lt_irrefl _)
    · rcases old w st hw with ⟨-, hst⟩ | ⟨-, hold'⟩
      · exact absurd (h.stamp_lt u st hold) (hst ▸ Nat.lt_irrefl _)
      · exact h.stamp_inj u w st hold hold'
  · intro k i u hw
    obtain ⟨su, hsu⟩ := h.stamped k i u hw
    have hut : u ≠ t := by
      rintro rfl
      exact unwritten k i hw
    exact ⟨su, by show update s.stamp t _ u = _; rwa [update_of_ne hut]⟩
  · intro k i j u w su sw hij hu hw hsu hsw
    exact h.ascending k i j u w su sw hij hu hw (written k i u su hu hsu) (written k j w sw hw hsw)
  · intro k u su hk hu i w sw hw hsw
    have hold := written k i w sw hw hsw
    rcases old u su hu with ⟨-, rfl⟩ | ⟨-, hu⟩
    · exact h.stamp_lt w sw hold
    · exact h.holder k u su hk hu i w sw hw hold
  · exact h.observed_le
  · intro u su k p hu hp i w sw hi hw hsw
    have hold := written k i w sw hw hsw
    rcases old u su hu with ⟨-, rfl⟩ | ⟨-, hu⟩
    · exact h.stamp_lt w sw hold
    · exact h.observed u su k p hu hp i w sw hi hw hold
  · intro u k q hq
    obtain ⟨hle, su, hsu⟩ := h.fixed_le u k q hq
    have hut : u ≠ t := by
      rintro rfl
      rw [hstamp] at hsu
      cases hsu
    exact ⟨hle, su, by show update s.stamp t _ u = _; rwa [update_of_ne hut]⟩
  · intro u su k q hu hq i w sw hi hw hsw
    have hold := written k i w sw hw hsw
    rcases old u su hu with ⟨rfl, -⟩ | ⟨-, hu⟩
    · obtain ⟨-, st, hst⟩ := h.fixed_le u k q hq
      rw [hstamp] at hst
      cases hst
    · exact h.fixed u su k q hu hq i w sw hi hw hold
  · intro u su k q hu hq w sw hk hsw
    rcases old u su hu with ⟨rfl, -⟩ | ⟨-, hu⟩
    · obtain ⟨-, st, hst⟩ := h.fixed_le u k q hq
      rw [hstamp] at hst
      cases hst
    · rcases old w sw hsw with ⟨-, rfl⟩ | ⟨-, hw⟩
      · exact .inr (h.stamp_lt u su hu)
      · exact h.fixed_lock u su k q hu hq w sw hk hw

theorem mem_update_union {α : Type} [DecidableEq T] {f : T → Set α} {u : T} {A : Set α} {b : α}
    (h : b ∈ update f t (f t ∪ A) u) : b ∈ f u ∨ u = t ∧ b ∈ A := by
  rw [update_apply] at h
  split_ifs at h with hut
  · subst hut
    exact h.imp_right fun hb => ⟨rfl, hb⟩
  · exact .inl h

/-- Observations are made before the stamp, which is what makes them old. -/
theorem Inv.observeAll [DecidableEq T] (h : Inv s) {A : Set (K × ℕ)}
    (hstamp : s.stamp t = none) (hA : ∀ q ∈ A, q.2 ≤ (s.versions q.1).length) :
    Inv { s with observed := update s.observed t (s.observed t ∪ A) } := by
  refine { h with observed_le := fun u k' p' hmem => ?_, observed := fun u su k' p' hu hmem => ?_ }
  · rcases mem_update_union hmem with hmem | ⟨-, hmem⟩
    · exact h.observed_le u k' p' hmem
    · exact hA _ hmem
  · rcases mem_update_union hmem with hmem | ⟨rfl, -⟩
    · exact h.observed u su k' p' hu hmem
    · rw [hstamp] at hu
      cases hu

theorem Inv.observe [DecidableEq T] (h : Inv s) {p : ℕ} (hstamp : s.stamp t = none)
    (hp : p ≤ (s.versions k).length) :
    Inv { s with observed := update s.observed t (s.observed t ∪ {(k, p)}) } := by
  refine h.observeAll hstamp fun q hq => ?_
  cases Set.mem_singleton_iff.mp hq
  exact hp

/-- A position is fixed while nobody else can publish behind it. -/
theorem Inv.fix [DecidableEq T] (h : Inv s) {D : Set K} {st : ℕ}
    (hstamp : s.stamp t = some st) (hfree : ∀ k ∈ D, s.lock k = none ∨ s.lock k = some t) :
    Inv { s with fixed := update s.fixed t (s.fixed t ∪ s.positions D) } := by
  refine { h with fixed_le := ?_, fixed := ?_, fixed_lock := ?_ }
  · intro u k' q hmem
    rcases mem_update_union hmem with hmem | ⟨rfl, -, heq⟩
    · exact h.fixed_le u k' q hmem
    · exact ⟨Nat.le_of_eq heq, st, hstamp⟩
  · intro u su k' q hu hmem i w sw hi hw hsw
    rcases mem_update_union hmem with hmem | ⟨rfl, -, heq⟩
    · exact h.fixed u su k' q hu hmem i w sw hi hw hsw
    · exact absurd (State.lt_length_of_writer hw) (Nat.not_lt.mpr (heq ▸ hi))
  · intro u su k' q hu hmem w sw hk hsw
    rcases mem_update_union hmem with hmem | ⟨rfl, hD, -⟩
    · exact h.fixed_lock u su k' q hu hmem w sw hk hsw
    · rcases hfree k' hD with hfree | hfree <;> rw [hfree] at hk <;> cases hk
      exact .inl rfl

/-- The versions after a publication: the old ones, and one more at the end. -/
theorem writer_publish [DecidableEq K] {k' : K} {v : V} {u : T} {lock : K → Option T}
    (h : State.writer
      { s with
        versions := update s.versions k (s.versions k ++ [(t, v)])
        lock := lock } k' i = some u) :
    s.writer k' i = some u ∨ k' = k ∧ i = (s.versions k).length ∧ u = t := by
  unfold State.writer at h ⊢
  dsimp only at h
  rw [update_apply] at h
  split_ifs at h with hkk
  · subst hkk
    rcases Nat.lt_trichotomy i (s.versions k').length with hi | hi | hi
    · rw [List.getElem?_append_left hi] at h
      exact .inl h
    · rw [hi, List.getElem?_concat_length] at h
      cases h
      exact .inr ⟨rfl, hi, rfl⟩
    · rw [List.getElem?_eq_none (by rw [List.length_append]; exact hi)] at h
      cases h
  · exact .inl h

/-- A version is published by the stamped holder of the lock, behind everything
that was there and everything that was fixed. -/
theorem Inv.publish [DecidableEq K] (h : Inv s) {st : ℕ} (v : V)
    (hstamp : s.stamp t = some st) (hheld : s.lock k = some t) :
    Inv
      { s with
        versions := update s.versions k (s.versions k ++ [(t, v)])
        lock := update s.lock k none } := by
  have grown : ∀ k', (s.versions k').length
      ≤ (update s.versions k (s.versions k ++ [(t, v)]) k').length := by
    intro k'
    by_cases hkk : k' = k
    · subst hkk
      rw [update_self, List.length_append]
      exact Nat.le_add_right _ _
    · exact Nat.le_of_eq (by rw [update_of_ne hkk])
  have held : ∀ k' u, update s.lock k none k' = some u → k' ≠ k ∧ s.lock k' = some u := by
    intro k' u hk
    rw [update_apply] at hk
    split_ifs at hk with hkk
    exact ⟨hkk, hk⟩
  refine { h with
    stamped := ?_, ascending := ?_, holder := ?_, observed_le := ?_, observed := ?_, fixed_le := ?_
    fixed := ?_, fixed_lock := ?_ }
  · intro k' i u hw
    rcases writer_publish hw with hw | ⟨-, -, rfl⟩
    · exact h.stamped k' i u hw
    · exact ⟨st, hstamp⟩
  · intro k' i j u w su sw hij hu hw hsu hsw
    rcases writer_publish hw with hold | ⟨rfl, rfl, rfl⟩
    · rcases writer_publish hu with hu | ⟨rfl, rfl, -⟩
      · exact h.ascending k' i j u w su sw hij hu hold hsu hsw
      · exact absurd (State.lt_length_of_writer hold) (Nat.not_lt.mpr hij.le)
    · rcases writer_publish hu with hu | ⟨-, rfl, -⟩
      · exact h.holder k' w sw hheld hsw i u su hu hsu
      · exact absurd hij (Nat.lt_irrefl _)
  · intro k' u su hk hu i w sw hw hsw
    obtain ⟨hkk, hk⟩ := held k' u hk
    rcases writer_publish hw with hw | ⟨rfl, -, -⟩
    · exact h.holder k' u su hk hu i w sw hw hsw
    · exact absurd rfl hkk
  · intro u k' p hmem
    exact Nat.le_trans (h.observed_le u k' p hmem) (grown k')
  · intro u su k' p hu hmem i w sw hi hw hsw
    rcases writer_publish hw with hw | ⟨rfl, rfl, -⟩
    · exact h.observed u su k' p hu hmem i w sw hi hw hsw
    · exact absurd (h.observed_le u k' p hmem) (Nat.not_le.mpr hi)
  · intro u k' q hmem
    obtain ⟨hle, hst⟩ := h.fixed_le u k' q hmem
    exact ⟨Nat.le_trans hle (grown k'), hst⟩
  · intro u su k' q hu hmem i w sw hi hw hsw
    rcases writer_publish hw with hw | ⟨rfl, -, rfl⟩
    · exact h.fixed u su k' q hu hmem i w sw hi hw hsw
    · exact h.fixed_lock u su k' q hu hmem w sw hheld hsw
  · intro u su k' q hu hmem w sw hk hsw
    obtain ⟨-, hk⟩ := held k' w hk
    exact h.fixed_lock u su k' q hu hmem w sw hk hsw

/-- **Every step preserves what the stamps say.** -/
theorem Inv.step [DecidableEq K] [DecidableEq T] (h : Inv s) (hstep : Step s s') : Inv s' := by
  cases hstep with
  | acquire hfree hstamp => exact h.acquire _ hstamp
  | release => exact h.release _
  | serialize hstamp => exact h.serialize hstamp
  | observe hstamp hp => exact h.observe hstamp hp
  | fix hstamp hfree => exact h.fix hstamp hfree
  | publish v hstamp hheld => exact h.publish v hstamp hheld

end Preservation

/-! ## Conflicts -/

section Conflicts

variable {s : State K T V} {t u : T} {st su : ℕ}

/-- The first transaction is stamped before the second. -/
def State.Before (s : State K T V) (t u : T) : Prop :=
  ∃ st su, s.stamp t = some st ∧ s.stamp u = some su ∧ st < su

theorem State.Before.trans {v : T} (h : s.Before t u) (h' : s.Before u v) : s.Before t v := by
  obtain ⟨st, su, hst, hsu, htu⟩ := h
  obtain ⟨su', sv, hsu', hsv, huv⟩ := h'
  rw [hsu] at hsu'
  cases hsu'
  exact ⟨st, sv, hst, hsv, Nat.lt_trans htu huv⟩

/-- The versions of an object are published in the order of the stamps. -/
theorem Inv.stamp_lt_of_before (h : Inv s) {j : ℕ} (hij : i < j) (ht : s.writer k i = some t)
    (hu : s.writer k j = some u) (hst : s.stamp t = some st) (hsu : s.stamp u = some su) :
    st < su :=
  h.ascending k i j t u st su hij ht hu hst hsu

/-- Whoever published what was observed comes before the observer. -/
theorem Inv.stamp_lt_of_observed (h : Inv s) {p : ℕ} (hi : i < p) (hmem : (k, p) ∈ s.observed u)
    (ht : s.writer k i = some t) (hst : s.stamp t = some st) (hsu : s.stamp u = some su) :
    st < su :=
  h.observed u su k p hsu hmem i t st hi ht hst

/-- Whoever publishes behind what was fixed comes after the one who fixed it. -/
theorem Inv.stamp_lt_of_fixed (h : Inv s) {q : ℕ} (hi : q ≤ i) (hmem : (k, q) ∈ s.fixed t)
    (hu : s.writer k i = some u) (hst : s.stamp t = some st) (hsu : s.stamp u = some su)
    (hne : t ≠ u) : st < su :=
  (h.fixed t st k q hst hmem i u su hi hu hsu).resolve_left (Ne.symm hne)

/-- **A transaction that fixed an object writes the very next version of it.** -/
theorem Inv.position_of_fixed (h : Inv s) {q : ℕ} (hmem : (k, q) ∈ s.fixed t)
    (ht : s.writer k i = some t) (hi : q ≤ i) : i = q := by
  obtain ⟨st, hst⟩ := h.stamped k i t ht
  rcases Nat.eq_or_lt_of_le hi with heq | hlt
  · exact heq.symm
  · -- the version at `q` would lie before and after the transaction's own
    exfalso
    obtain ⟨u, hu⟩ := State.exists_writer (hlt.trans (State.lt_length_of_writer ht))
    obtain ⟨su, hsu⟩ := h.stamped k q u hu
    have hbefore := h.ascending k q i u t su st hlt hu ht hsu hst
    rcases h.fixed t st k q hst hmem q u su le_rfl hu hsu with rfl | hafter
    · rw [hst] at hsu
      cases hsu
      exact absurd hbefore (Nat.lt_irrefl _)
    · exact absurd hbefore (Nat.lt_asymm hafter)

/-- The conflicts between the transactions that satisfy `committed`, when each has
read the objects in `reads` at the positions given there. -/
inductive Conflict (s : State K T V) (committed : T → Prop) (reads : T → Set (K × ℕ)) :
    T → T → Prop
  | writeWrite {t u : T} {k : K} {i j : ℕ} (ht : committed t) (hu : committed u) (hne : t ≠ u)
      (hi : s.writer k i = some t) (hj : s.writer k j = some u) (hij : i < j) :
      Conflict s committed reads t u
  | writeRead {t u : T} {k : K} {i p : ℕ} (ht : committed t) (hu : committed u) (hne : t ≠ u)
      (hi : s.writer k i = some t) (hp : (k, p) ∈ reads u) (hip : i < p) :
      Conflict s committed reads t u
  | readWrite {t u : T} {k : K} {i p : ℕ} (ht : committed t) (hu : committed u) (hne : t ≠ u)
      (hp : (k, p) ∈ reads t) (hi : s.writer k i = some u) (hpi : p ≤ i) :
      Conflict s committed reads t u

/-- Conflicts are a matter of the versions alone. -/
theorem Conflict.of_versions {s' : State K T V} {committed : T → Prop} {reads : T → Set (K × ℕ)}
    (hversions : s'.versions = s.versions) (h : Conflict s committed reads t u) :
    Conflict s' committed reads t u := by
  have hwriter : ∀ {k i v}, s.writer k i = some v → s'.writer k i = some v := by
    intro k i v hv
    unfold State.writer at hv ⊢
    rw [hversions]
    exact hv
  cases h with
  | writeWrite ht hu hne hi hj hij => exact .writeWrite ht hu hne (hwriter hi) (hwriter hj) hij
  | writeRead ht hu hne hi hp hip => exact .writeRead ht hu hne (hwriter hi) hp hip
  | readWrite ht hu hne hp hi hpi => exact .readWrite ht hu hne hp (hwriter hi) hpi

/-- **Every conflict goes up in the stamps**, when what was read was observed before
the stamp and fixed after it. -/
theorem Inv.stamp_lt_of_conflict (h : Inv s) {committed : T → Prop} {reads : T → Set (K × ℕ)}
    (hreads : ∀ t, committed t → ∀ q ∈ reads t, q ∈ s.observed t ∧ q ∈ s.fixed t)
    (hconflict : Conflict s committed reads t u) : s.Before t u := by
  cases hconflict with
  | writeWrite ht hu hne hi hj hij =>
    obtain ⟨st, hst⟩ := h.stamped _ _ _ hi
    obtain ⟨su, hsu⟩ := h.stamped _ _ _ hj
    exact ⟨st, su, hst, hsu, h.stamp_lt_of_before hij hi hj hst hsu⟩
  | writeRead ht hu hne hi hp hip =>
    obtain ⟨hobserved, hfixed⟩ := hreads u hu _ hp
    obtain ⟨st, hst⟩ := h.stamped _ _ _ hi
    obtain ⟨-, su, hsu⟩ := h.fixed_le _ _ _ hfixed
    exact ⟨st, su, hst, hsu, h.stamp_lt_of_observed hip hobserved hi hst hsu⟩
  | readWrite ht hu hne hp hi hpi =>
    obtain ⟨-, hfixed⟩ := hreads t ht _ hp
    obtain ⟨-, st, hst⟩ := h.fixed_le _ _ _ hfixed
    obtain ⟨su, hsu⟩ := h.stamped _ _ _ hi
    exact ⟨st, su, hst, hsu, h.stamp_lt_of_fixed hpi hfixed hi hst hsu hne⟩

/-- **A relation that goes up in the stamps has no cycle.** -/
theorem acyclic_of_stamps {r : T → T → Prop}
    (h : ∀ a b, r a b → s.Before a b) (a : T) : ¬ Relation.TransGen r a a := by
  have hup : ∀ b, Relation.TransGen r a b → s.Before a b := by
    intro b hab
    induction hab with
    | single hstep => exact h _ _ hstep
    | tail _ hstep ih => exact ih.trans (h _ _ hstep)
  intro hcycle
  obtain ⟨sa, sb, hsa, hsb, hlt⟩ := hup a hcycle
  rw [hsa] at hsb
  cases hsb
  exact Nat.lt_irrefl _ hlt

end Conflicts

/-! ## Reads nobody fixed -/

section Unfixed

variable {s s' : State K T V} {u : T} {matters : V → Prop} {q : K × ℕ}

/-- Whoever else publishes a version that matters behind a position of an object, now or
later, is stamped behind the transaction. -/
structure Ahead (s : State K T V) (matters : V → Prop) (t : T) (q : K × ℕ) : Prop where
  stamped : ∃ st, s.stamp t = some st
  writer : ∀ i u v, q.2 ≤ i → (s.versions q.1)[i]? = some (u, v) → matters v →
    u = t ∨ s.Before t u
  holder : ∀ u, s.lock q.1 = some u → u = t ∨ s.stamp u = none ∨ s.Before t u

/-- A stamp is given once. -/
theorem State.Before.serialize [DecidableEq T] {w : T} (hstamp : s.stamp w = none)
    (h : s.Before t u) :
    State.Before { s with stamp := update s.stamp w (some s.clock), clock := s.clock + 1 } t u := by
  obtain ⟨st, su, hst, hsu, hlt⟩ := h
  have hne : ∀ {x sx}, s.stamp x = some sx → x ≠ w := by
    rintro x sx hx rfl
    rw [hstamp] at hx
    cases hx
  exact ⟨st, su, (update_of_ne (hne hst) ..).trans hst, (update_of_ne (hne hsu) ..).trans hsu, hlt⟩

/-- The locks alone changed, and no stamped transaction got one. -/
theorem Ahead.relock (h : Ahead s matters t q) {lock : K → Option T}
    (hlock : ∀ k u, lock k = some u → s.stamp u = none ∨ s.lock k = some u) :
    Ahead { s with lock := lock } matters t q := by
  refine ⟨h.stamped, h.writer, fun u hu => ?_⟩
  rcases hlock q.1 u hu with hnone | hold
  · exact .inr (.inl hnone)
  · exact h.holder u hold

theorem Ahead.serialize [DecidableEq T] {w : T} (hinv : Inv s) (h : Ahead s matters t q)
    (hstamp : s.stamp w = none) :
    Ahead { s with stamp := update s.stamp w (some s.clock), clock := s.clock + 1 } matters
      t q := by
  obtain ⟨st, hst⟩ := h.stamped
  have hne : t ≠ w := by
    rintro rfl
    rw [hstamp] at hst
    cases hst
  have hst' : update s.stamp w (some s.clock) t = some st := (update_of_ne hne ..).trans hst
  refine ⟨⟨st, hst'⟩, fun i u v hi hv hmatters => ?_, fun u hu => ?_⟩
  · exact (h.writer i u v hi hv hmatters).imp_right fun hbefore => hbefore.serialize hstamp
  · rcases h.holder u hu with heq | hnone | hbefore
    · exact .inl heq
    · by_cases huw : u = w
      · -- the holder takes its stamp now
        subst huw
        exact .inr (.inr ⟨st, s.clock, hst', update_self .., hinv.stamp_lt t st hst⟩)
      · exact .inr (.inl ((update_of_ne huw ..).trans hnone))
    · exact .inr (.inr (hbefore.serialize hstamp))

theorem Ahead.publish [DecidableEq K] {w : T} {st : ℕ} (h : Ahead s matters t q) (v : V)
    (hstamp : s.stamp w = some st) (hheld : s.lock k = some w) :
    Ahead
      { s with
        versions := update s.versions k (s.versions k ++ [(w, v)])
        lock := update s.lock k none } matters t q := by
  refine ⟨h.stamped, fun i u v' hi hv hmatters => ?_, fun u hu => ?_⟩
  · dsimp only at hv
    rw [update_apply] at hv
    split_ifs at hv with hk
    · subst hk
      rcases Nat.lt_or_ge i (s.versions q.1).length with hlt | hge
      · rw [List.getElem?_append_left hlt] at hv
        exact h.writer i u v' hi hv hmatters
      · -- the new version is its holder's
        rw [List.getElem?_append_right hge] at hv
        obtain rfl : u = w := (Prod.mk.inj (List.mem_singleton.mp (List.mem_of_getElem? hv))).1
        rcases h.holder u hheld with heq | hnone | hbefore
        · exact .inl heq
        · rw [hstamp] at hnone
          cases hnone
        · exact .inr hbefore
    · exact h.writer i u v' hi hv hmatters
  · dsimp only at hu
    rw [update_apply] at hu
    split_ifs at hu
    exact h.holder u hu

/-- **Every step keeps a transaction ahead** of those who will overwrite what it read. -/
theorem Ahead.step [DecidableEq K] [DecidableEq T] (hinv : Inv s) (h : Ahead s matters t q)
    (hstep : Step s s') : Ahead s' matters t q := by
  cases hstep with
  | @acquire w k hfree hstamp =>
    refine h.relock fun k' u hu => ?_
    rw [update_apply] at hu
    split_ifs at hu
    · cases hu
      exact .inl hstamp
    · exact .inr hu
  | release =>
    refine h.relock fun k' u hu => ?_
    rw [update_apply] at hu
    split_ifs at hu
    exact .inr hu
  | serialize hstamp => exact h.serialize hinv hstamp
  | observe | fix => exact ⟨h.stamped, h.writer, h.holder⟩
  | publish v hstamp hheld => exact h.publish v hstamp hheld

end Unfixed

end Optimistic
