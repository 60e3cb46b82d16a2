import Mathlib.Data.Fintype.BigOperators

/-!
# The newest version wins

Folding versioned entries into a table that keeps one entry per key: an entry
replaces the one that is there only if its version is greater. What the table
then holds of a key is the first of the entries with the greatest version
(`newest`), and does not depend on the order of the entries where entries of the
same version agree.

* `find_foldl_put` — the table holds the newest entry of every key.
* `newest_eq_some_iff` — which one that is.
* `newest_of_forall_le`, `newest_perm` — where the entries agree, any greatest one.
* `Peak.newest_flatten` — where they come in blocks, what the newest block says first.
* `newest_snapshot_iff` — a snapshot may stand for the entries it reflects.
-/

namespace NewestWins

variable {κ τ β : Type*}

/-- A version of a key, with its value. -/
structure Entry (κ τ β : Type*) where
  key : κ
  version : τ
  value : β
  deriving Repr, DecidableEq

variable {es t : List (Entry κ τ β)} {e : Entry κ τ β}

/-- Entries of one key and one version are the same. -/
def Consistent (es : List (Entry κ τ β)) : Prop :=
  ∀ a ∈ es, ∀ b ∈ es, a.key = b.key → a.version = b.version → a = b

theorem Consistent.perm {es' : List (Entry κ τ β)} (h : Consistent es) (hp : es.Perm es') :
    Consistent es' :=
  fun a ha b hb => h a (hp.mem_iff.mpr ha) b (hp.mem_iff.mpr hb)

variable {x : Entry κ τ β} {k : κ}

section Newest

variable [LinearOrder τ]

/-- `x` is the first of the entries of its key with the greatest version. -/
def IsNewest (es : List (Entry κ τ β)) (x : Entry κ τ β) : Prop :=
  ∃ before after, es = before ++ x :: after ∧
    (∀ e ∈ before, e.key = x.key → e.version < x.version) ∧
    ∀ e ∈ after, e.key = x.key → e.version ≤ x.version

theorem IsNewest.mem (h : IsNewest es x) : x ∈ es := by
  obtain ⟨before, after, rfl, -, -⟩ := h
  simp

theorem IsNewest.le (h : IsNewest es x) (he : e ∈ es) (hk : e.key = x.key) :
    e.version ≤ x.version := by
  obtain ⟨before, after, rfl, hbefore, hafter⟩ := h
  rcases List.mem_append.mp he with he | he
  · exact le_of_lt (hbefore e he hk)
  · rcases List.mem_cons.mp he with rfl | he
    · exact le_rfl
    · exact hafter e he hk

theorem IsNewest.unique {y : Entry κ τ β} (hx : IsNewest es x) (hy : IsNewest es y)
    (hk : x.key = y.key) : x = y := by
  have hxy := hy.le hx.mem hk
  have hyx := hx.le hy.mem hk.symm
  obtain ⟨before, after, rfl, hbefore, -⟩ := hx
  obtain ⟨before', after', heq, hbefore', -⟩ := hy
  -- neither of the two stands before the other
  rcases List.append_eq_append_iff.mp heq with ⟨mid, hmid, hrest⟩ | ⟨mid, hmid, hrest⟩
  · cases mid with
    | nil => exact (List.cons.inj (by simpa using hrest)).1
    | cons =>
      obtain ⟨rfl, -⟩ := List.cons.inj (by simpa using hrest)
      exact absurd hyx (not_le.mpr (hbefore' x (by rw [hmid]; simp) hk))
  · cases mid with
    | nil => exact (List.cons.inj (by simpa using hrest)).1.symm
    | cons =>
      obtain ⟨rfl, -⟩ := List.cons.inj (by simpa using hrest)
      exact absurd hxy (not_le.mpr (hbefore y (by rw [hmid]; simp) hk.symm))

variable [DecidableEq κ]

/-- The entry kept of two with the same key. -/
def supersede (best : Option (Entry κ τ β)) (e : Entry κ τ β) : Option (Entry κ τ β) :=
  match best with
  | none => some e
  | some b => if b.version < e.version then some e else some b

/-- What a fold keeps of the key `k`. -/
def newest (k : κ) (es : List (Entry κ τ β)) : Option (Entry κ τ β) :=
  es.foldl (fun best e => if e.key = k then supersede best e else best) none

@[simp] theorem newest_nil (k : κ) : newest k ([] : List (Entry κ τ β)) = none := rfl

theorem newest_concat (k : κ) (es : List (Entry κ τ β)) (e : Entry κ τ β) :
    newest k (es ++ [e]) = if e.key = k then supersede (newest k es) e else newest k es := by
  rw [newest, List.foldl_append]
  rfl

/-- Only the entries of a key decide what is kept of it. -/
theorem newest_eq_none_iff : newest k es = none ↔ ∀ e ∈ es, e.key ≠ k := by
  induction es using List.reverseRecOn with
  | nil => simp
  | append_singleton es e ih =>
    rw [newest_concat]
    by_cases hk : e.key = k
    · rw [if_pos hk]
      have hsome : supersede (newest k es) e ≠ none := by
        unfold supersede
        cases newest k es with
        | none => simp
        | some => dsimp only; split <;> simp
      constructor
      · exact fun h => absurd h hsome
      · intro h
        exact absurd hk (h e (by simp))
    · rw [if_neg hk, ih]
      simp only [List.forall_mem_append, List.forall_mem_singleton]
      exact ⟨fun h => ⟨h, hk⟩, fun h => h.1⟩

theorem isNewest_of_newest (h : newest k es = some x) : x.key = k ∧ IsNewest es x := by
  induction es using List.reverseRecOn generalizing x with
  | nil => cases h
  | append_singleton es e ih =>
    rw [newest_concat] at h
    have old : newest k es = some x → (e.key = k → e.version ≤ x.version) →
        x.key = k ∧ IsNewest (es ++ [e]) x := by
      intro hx hle
      obtain ⟨hxk, before, after, rfl, hbefore, hafter⟩ := ih hx
      refine ⟨hxk, before, after ++ [e], by simp, hbefore, ?_⟩
      rw [List.forall_mem_append, List.forall_mem_singleton]
      exact ⟨hafter, fun hk => hle (hk.trans hxk)⟩
    by_cases hk : e.key = k
    · rw [if_pos hk] at h
      cases hbest : newest k es with
      | none =>
        rw [hbest] at h
        cases h
        refine ⟨hk, es, [], rfl, fun e' he' hk' => ?_, by simp⟩
        exact absurd (hk'.trans hk) (newest_eq_none_iff.mp hbest e' he')
      | some b =>
        rw [hbest] at h
        by_cases hlt : b.version < e.version
        · -- a greater version than every one before it
          rw [supersede, if_pos hlt] at h
          cases h
          obtain ⟨hbk, hb⟩ := ih hbest
          refine ⟨hk, es, [], rfl, fun e' he' hk' => ?_, by simp⟩
          exact lt_of_le_of_lt (hb.le he' ((hk'.trans hk).trans hbk.symm)) hlt
        · rw [supersede, if_neg hlt] at h
          cases h
          exact old hbest fun _ => not_lt.mp hlt
    · rw [if_neg hk] at h
      exact old h fun hk' => absurd hk' hk

/-- **What the fold keeps**: the first of the entries with the greatest version. -/
theorem newest_eq_some_iff : newest k es = some x ↔ x.key = k ∧ IsNewest es x := by
  refine ⟨isNewest_of_newest, fun ⟨hk, hx⟩ => ?_⟩
  cases hbest : newest k es with
  | none => exact absurd hk (newest_eq_none_iff.mp hbest x hx.mem)
  | some =>
    obtain ⟨hbk, hb⟩ := isNewest_of_newest hbest
    rw [hb.unique hx (hbk.trans hk.symm)]

theorem le_of_newest (h : newest k es = some x) (he : e ∈ es) (hk : e.key = k) :
    e.version ≤ x.version :=
  (isNewest_of_newest h).2.le he (hk.trans (isNewest_of_newest h).1.symm)

/-- Two lists keep the same entry if each has what the other keeps. -/
theorem newest_eq_of_mem {all es' : List (Entry κ τ β)} {y : Entry κ τ β} (hcons : Consistent all)
    (hall : ∀ e ∈ es, e.key = k → e ∈ all) (hx : newest k es = some x) (hy : newest k es' = some y)
    (hxmem : x ∈ es') (hymem : y ∈ es) : x = y := by
  obtain ⟨hxk, hxnew⟩ := isNewest_of_newest hx
  have hyk := (isNewest_of_newest hy).1
  exact hcons x (hall x hxnew.mem hxk) y (hall y hymem hyk) (hxk.trans hyk.symm)
    (le_antisymm (le_of_newest hy hxmem hxk) (le_of_newest hx hymem hyk))

/-- Where the entries agree, any greatest one is kept. -/
theorem newest_of_forall_le (hcons : Consistent es) (hx : x ∈ es)
    (hk : x.key = k) (hle : ∀ e ∈ es, e.key = k → e.version ≤ x.version) :
    newest k es = some x := by
  cases hbest : newest k es with
  | none => exact absurd hk (newest_eq_none_iff.mp hbest x hx)
  | some b =>
    obtain ⟨hbk, hb⟩ := isNewest_of_newest hbest
    have hver : b.version = x.version :=
      le_antisymm (hle b hb.mem hbk) (hb.le hx (hk.trans hbk.symm))
    rw [hcons b hb.mem x hx (hbk.trans hk.symm) hver]

/-- **The order of entries that agree is immaterial.** -/
theorem newest_perm {es' : List (Entry κ τ β)} (hcons : Consistent es) (hp : es.Perm es') (k : κ) :
    newest k es = newest k es' := by
  cases hbest : newest k es' with
  | none =>
    rw [newest_eq_none_iff] at hbest ⊢
    exact fun e he => hbest e (hp.mem_iff.mp he)
  | some =>
    obtain ⟨hk, hx⟩ := isNewest_of_newest hbest
    refine newest_of_forall_le hcons (hp.mem_iff.mpr hx.mem) hk fun e he hek => ?_
    exact hx.le (hp.mem_iff.mp he) (hek.trans hk.symm)

/-- A key with one entry only. -/
theorem newest_of_forall_eq (hx : x ∈ es) (hk : x.key = k)
    (honly : ∀ e ∈ es, e.key = k → e = x) : newest k es = some x := by
  cases hbest : newest k es with
  | none => exact absurd hk (newest_eq_none_iff.mp hbest x hx)
  | some b =>
    obtain ⟨hbk, hb⟩ := isNewest_of_newest hbest
    rw [honly b hb.mem hbk]

/-- Among entries of one version, the first is kept. -/
theorem newest_of_same_version {v : τ} {rest : List (Entry κ τ β)}
    (hsame : ∀ e ∈ es, e.key = k → e.version = v)
    (hfirst : es.filter (fun e => e.key = k) = x :: rest) : newest k es = some x := by
  obtain ⟨before, after, rfl, hbefore, hx, -⟩ := List.filter_eq_cons_iff.mp hfirst
  have hx : x.key = k := by simpa using hx
  refine newest_eq_some_iff.mpr ⟨hx, before, after, rfl, fun e he hk => ?_, fun e he hk => ?_⟩
  · exact absurd (hk.trans hx) (by simpa using hbefore e he)
  · rw [hsame e (by simp [he]) (hk.trans hx), hsame x (by simp) hx]

/-! ### Entries that come in blocks -/

/-- What the blocks show of a key: nothing, or an entry that is the newest of its block and
newer than the other blocks' entries of the key. -/
def Peak (k : κ) (blocks : List (List (Entry κ τ β))) : Option (Entry κ τ β) → Prop
  | none => ∀ b ∈ blocks, ∀ e ∈ b, e.key ≠ k
  | some x => ∃ before b after, blocks = before ++ b :: after ∧ newest k b = some x ∧
      ∀ b' ∈ before ++ after, ∀ e ∈ b', e.key = k → e.version < x.version

namespace Peak

variable {k : κ} {blocks blocks' : List (List (Entry κ τ β))} {o : Option (Entry κ τ β)}
  {b : List (Entry κ τ β)} {x : Entry κ τ β}

theorem nil : Peak k ([] : List (List (Entry κ τ β))) none := by
  simp [Peak]

/-- What is shown is an entry of the key. -/
theorem mem (h : Peak k blocks (some x)) : x.key = k ∧ ∃ b ∈ blocks, x ∈ b := by
  obtain ⟨before, b, after, rfl, hb, -⟩ := h
  obtain ⟨hk, hx⟩ := isNewest_of_newest hb
  exact ⟨hk, b, by simp, hx.mem⟩

/-- The order of the blocks is immaterial. -/
theorem perm (h : Peak k blocks o) (hp : blocks.Perm blocks') : Peak k blocks' o := by
  cases o with
  | none => exact fun b hb => h b (hp.mem_iff.mpr hb)
  | some =>
    obtain ⟨before, b, after, rfl, hb, hothers⟩ := h
    have hmem : b ∈ blocks' := hp.mem_iff.mp (by simp)
    obtain ⟨before', after', rfl⟩ := List.append_of_mem hmem
    refine ⟨before', b, after', rfl, hb, fun b' hb' => hothers b' ?_⟩
    have hrest : (before ++ after).Perm (before' ++ after') := by
      rw [← List.perm_cons b]
      exact (List.perm_middle.symm.trans hp).trans List.perm_middle
    exact hrest.mem_iff.mpr hb'

/-- **A fold over the blocks keeps what they show.** -/
theorem newest_flatten (h : Peak k blocks o) : newest k blocks.flatten = o := by
  cases o with
  | none =>
    refine newest_eq_none_iff.mpr fun e he => ?_
    obtain ⟨b, hb, he⟩ := List.mem_flatten.mp he
    exact h b hb e he
  | some =>
    obtain ⟨before, b, after, rfl, hb, hothers⟩ := h
    obtain ⟨hk, front, back, rfl, hfront, hback⟩ := isNewest_of_newest hb
    refine newest_eq_some_iff.mpr
      ⟨hk, before.flatten ++ front, back ++ after.flatten, by simp, ?_, ?_⟩
    · rw [List.forall_mem_append]
      refine ⟨fun e he hek => ?_, hfront⟩
      obtain ⟨b', hb', he⟩ := List.mem_flatten.mp he
      exact hothers b' (List.mem_append_left _ hb') e he (hek.trans hk)
    · rw [List.forall_mem_append]
      refine ⟨hback, fun e he hek => ?_⟩
      obtain ⟨b', hb', he⟩ := List.mem_flatten.mp he
      exact le_of_lt (hothers b' (List.mem_append_right _ hb') e he (hek.trans hk))

/-- A further block without entries of the key. -/
theorem concat_of_forall_ne (h : Peak k blocks o) (hb : ∀ e ∈ b, e.key ≠ k) :
    Peak k (blocks ++ [b]) o := by
  cases o with
  | none => exact List.forall_mem_append.mpr ⟨h, List.forall_mem_singleton.mpr hb⟩
  | some =>
    obtain ⟨before, c, after, rfl, hc, hothers⟩ := h
    refine ⟨before, c, after ++ [b], by simp, hc, fun b' hb' e he hk => ?_⟩
    rw [← List.append_assoc, List.mem_append, List.mem_singleton] at hb'
    rcases hb' with hb' | rfl
    · exact hothers b' hb' e he hk
    · exact absurd hk (hb e he)

/-- A further block that is newer than all before it. -/
theorem concat_of_newest (hx : newest k b = some x)
    (hlt : ∀ b' ∈ blocks, ∀ e ∈ b', e.key = k → e.version < x.version) :
    Peak k (blocks ++ [b]) (some x) :=
  ⟨blocks, b, [], rfl, hx, by simpa using hlt⟩

end Peak

/-! ### A snapshot and the entries behind it -/

/-- **A snapshot may stand for the entries it reflects.** The log is a part of a history that
splits into what came before the snapshot was taken of the key and what came after; the tail
of the log is what lies above a bound, which everything after does. If the log has the newest
entry from before, and the snapshot has an entry of the key that is worth as much as that
one where it is worth anything, then snapshot and tail keep an entry with the property `P`
exactly if the log does. -/
theorem newest_snapshot_iff {log tail snapshot : List (Entry κ τ β)}
    (before after : List (Entry κ τ β)) (keep : τ → Prop) (P : Entry κ τ β → Prop)
    (hcons : Consistent (before ++ after))
    (hkeep : ∀ v w, keep v → v ≤ w → keep w) (hlog : ∀ e ∈ log, e.key = k → e ∈ before ∨ e ∈ after)
    (htail : ∀ e, e.key = k → (e ∈ tail ↔ e ∈ log ∧ keep e.version))
    (hafter : ∀ e ∈ after, e.key = k → keep e.version)
    (hsnapshot : ∀ e ∈ snapshot, e.key = k → ∀ a ∈ after, a.key = k → e.version < a.version)
    (htaken : ∀ e ∈ snapshot, e.key = k → ∃ x, newest k before = some x ∧ (P e ↔ P x))
    (hbacked : ∀ x, newest k before = some x → x ∈ log ∧ (P x → ∃ e ∈ snapshot, e.key = k)) :
    (∃ e, newest k log = some e ∧ P e) ↔ ∃ e, newest k (snapshot ++ tail) = some e ∧ P e := by
  have same : ∀ {es : List (Entry κ τ β)} {x y}, newest k log = some x → newest k es = some y →
      x ∈ es → y ∈ log → x = y :=
    newest_eq_of_mem hcons fun e he hk => List.mem_append.mpr (hlog e he hk)
  by_cases hnew : ∃ a ∈ log, a ∈ after ∧ a.key = k
  · -- the log goes on after the snapshot: both sides keep its greatest entry
    obtain ⟨a, halog, haafter, hak⟩ := hnew
    have hatail : a ∈ snapshot ++ tail :=
      List.mem_append_right _ ((htail a hak).mpr ⟨halog, hafter a haafter hak⟩)
    suffices h : newest k log = newest k (snapshot ++ tail) by rw [h]
    cases hx : newest k log with
    | none => exact absurd hak (newest_eq_none_iff.mp hx a halog)
    | some x =>
      cases hy : newest k (snapshot ++ tail) with
      | none => exact absurd hak (newest_eq_none_iff.mp hy a hatail)
      | some y =>
        obtain ⟨hxk, hxnew⟩ := isNewest_of_newest hx
        obtain ⟨hyk, hynew⟩ := isNewest_of_newest hy
        have hytail : y ∈ tail := by
          refine (List.mem_append.mp hynew.mem).resolve_left fun hysnap => ?_
          exact absurd (le_of_newest hy hatail hak)
            (not_le.mpr (hsnapshot y hysnap hyk a haafter hak))
        have hxtail : x ∈ tail := by
          refine (htail x hxk).mpr ⟨hxnew.mem, ?_⟩
          exact hkeep a.version x.version (hafter a haafter hak) (le_of_newest hx halog hak)
        rw [same hx hy (List.mem_append_right _ hxtail) ((htail y hyk).mp hytail).1]
  · -- the log of the key ends where the snapshot was taken
    have hold : ∀ e ∈ log, e.key = k → e ∈ before := fun e he hk =>
      (hlog e he hk).resolve_right fun hafter => hnew ⟨e, he, hafter, hk⟩
    cases hx : newest k before with
    | none =>
      have hnone : newest k log = none := newest_eq_none_iff.mpr fun e he hk =>
        newest_eq_none_iff.mp hx e (hold e he hk) hk
      have hnone' : newest k (snapshot ++ tail) = none := by
        refine newest_eq_none_iff.mpr fun e he hk => ?_
        rcases List.mem_append.mp he with he | he
        · obtain ⟨x, hsome, -⟩ := htaken e he hk
          rw [hx] at hsome
          cases hsome
        · exact newest_eq_none_iff.mp hnone e ((htail e hk).mp he).1 hk
      rw [hnone, hnone']
    | some x =>
      have hxk := (isNewest_of_newest hx).1
      obtain ⟨hxlog, hshown⟩ := hbacked x hx
      have hfull : newest k log = some x := by
        cases hy : newest k log with
        | none => exact absurd hxk (newest_eq_none_iff.mp hy x hxlog)
        | some y =>
          obtain ⟨hyk, hynew⟩ := isNewest_of_newest hy
          rw [same hy hx (hold y hynew.mem hyk) hxlog]
      rw [hfull]
      cases hy : newest k (snapshot ++ tail) with
      | none =>
        constructor
        · rintro ⟨e, ⟨⟩, hP⟩
          obtain ⟨e, he, hk⟩ := hshown hP
          exact absurd hk (newest_eq_none_iff.mp hy e (List.mem_append_left _ he))
        · rintro ⟨e, ⟨⟩, -⟩
      | some y =>
        obtain ⟨hyk, hynew⟩ := isNewest_of_newest hy
        suffices h : P x ↔ P y by simpa using h
        rcases List.mem_append.mp hynew.mem with hysnap | hytail
        · obtain ⟨x', hx', hiff⟩ := htaken y hysnap hyk
          rw [hx] at hx'
          cases hx'
          exact hiff.symm
        · obtain ⟨hylog, hykeep⟩ := (htail y hyk).mp hytail
          have hyx := le_of_newest hx (hold y hylog hyk) hyk
          have hxtail : x ∈ tail := (htail x hxk).mpr ⟨hxlog, hkeep _ _ hykeep hyx⟩
          rw [same hfull hy (List.mem_append_right _ hxtail) hylog]

end Newest

/-! ## Tables -/

section Tables

variable [DecidableEq κ]

/-- The entry of a key. -/
def find (k : κ) (t : List (Entry κ τ β)) : Option (Entry κ τ β) := t.find? (fun x => x.key = k)

/-- With one entry per key, an entry is in the table exactly if it is found. -/
theorem find_eq_some_iff (h : (t.map Entry.key).Nodup) : find x.key t = some x ↔ x ∈ t := by
  induction t with
  | nil => simp [find]
  | cons y t ih =>
    rw [List.map_cons, List.nodup_cons] at h
    by_cases hyx : y.key = x.key
    · constructor
      · intro hfind
        have : some y = some x := by simpa [find, hyx] using hfind
        simp [Option.some.inj this]
      · intro hmem
        rcases List.mem_cons.mp hmem with rfl | hmem
        · simp [find]
        · exact absurd (hyx ▸ List.mem_map_of_mem hmem) h.1
    · have hskip : find x.key (y :: t) = find x.key t := by simp [find, hyx]
      rw [hskip, ih h.2, List.mem_cons]
      refine ⟨Or.inr, fun hmem => hmem.resolve_left ?_⟩
      rintro rfl
      exact hyx rfl

variable [LinearOrder τ]

/-- Fold one entry into a table: it replaces an entry of its key with a smaller
version, and is added where there is none. -/
def put (t : List (Entry κ τ β)) (e : Entry κ τ β) : List (Entry κ τ β) :=
  match t with
  | [] => [e]
  | x :: t =>
    if x.key = e.key then (if x.version < e.version then e else x) :: t else x :: put t e

theorem find_put (k : κ) (t : List (Entry κ τ β)) (e : Entry κ τ β) :
    find k (put t e) = if e.key = k then supersede (find k t) e else find k t := by
  induction t with
  | nil =>
    by_cases hk : e.key = k <;> simp [find, put, supersede, hk]
  | cons x t ih =>
    rw [put]
    by_cases hxe : x.key = e.key
    · rw [if_pos hxe]
      by_cases hk : e.key = k
      · have hx : x.key = k := hxe.trans hk
        rw [if_pos hk]
        by_cases hlt : x.version < e.version
        · simp [find, supersede, hlt, hx, hk]
        · simp [find, supersede, hlt, hx]
      · have hx : x.key ≠ k := fun h => hk (hxe ▸ h)
        rw [if_neg hk]
        by_cases hlt : x.version < e.version
        · simp [find, hlt, hx, hk]
        · simp [find, hlt, hx]
    · rw [if_neg hxe]
      by_cases hx : x.key = k
      · have hk : e.key ≠ k := fun h => hxe (hx.trans h.symm)
        simp [find, hx, hk]
      · have hskip : ∀ t', find k (x :: t') = find k t' := fun t' => by simp [find, hx]
        rw [hskip, hskip, ih]

/-- **A table holds the newest entry of every key.** -/
theorem find_foldl_put (k : κ) (es : List (Entry κ τ β)) :
    find k (es.foldl put []) = newest k es := by
  induction es using List.reverseRecOn with
  | nil => rfl
  | append_singleton es e ih =>
    rw [List.foldl_append, newest_concat, ← ih]
    exact find_put k _ e

theorem keys_put_of_mem (h : e.key ∈ t.map Entry.key) :
    (put t e).map Entry.key = t.map Entry.key := by
  induction t with
  | nil => cases h
  | cons x t ih =>
    rw [put]
    by_cases hxe : x.key = e.key
    · rw [if_pos hxe]
      by_cases hlt : x.version < e.version
      · simp [hlt, hxe]
      · simp [hlt]
    · rw [List.map_cons, List.mem_cons] at h
      rw [if_neg hxe, List.map_cons, ih (h.resolve_left (Ne.symm hxe)), List.map_cons]

theorem put_of_not_mem (h : e.key ∉ t.map Entry.key) : put t e = t ++ [e] := by
  induction t with
  | nil => rfl
  | cons x t ih =>
    rw [List.map_cons, List.mem_cons, not_or] at h
    rw [put, if_neg (Ne.symm h.1), ih h.2]
    rfl

/-- A table has one entry per key. -/
theorem nodup_keys_put (e : Entry κ τ β) (h : (t.map Entry.key).Nodup) :
    ((put t e).map Entry.key).Nodup := by
  by_cases hmem : e.key ∈ t.map Entry.key
  · rw [keys_put_of_mem hmem]
    exact h
  · rw [put_of_not_mem hmem, List.map_append, List.map_singleton]
    exact h.append (List.nodup_singleton _) (List.disjoint_singleton.mpr hmem)

theorem nodup_keys_foldl_put (es : List (Entry κ τ β)) (h : (t.map Entry.key).Nodup) :
    ((es.foldl put t).map Entry.key).Nodup := by
  induction es generalizing t with
  | nil => exact h
  | cons e es ih => exact ih (nodup_keys_put e h)

/-- **Membership in a folded table.** -/
theorem mem_foldl_put_iff : x ∈ es.foldl put [] ↔ newest x.key es = some x := by
  rw [← find_foldl_put, find_eq_some_iff (nodup_keys_foldl_put es (by simp))]

/-- Where an entry of the key stands at position `i`, only that one changes. -/
theorem put_eq_modify {i : ℕ} (hnodup : (t.map Entry.key).Nodup)
    (hi : t[i]? = some x) (hk : x.key = e.key) :
    put t e = t.modify i (fun x => if x.version < e.version then e else x) := by
  induction t generalizing i with
  | nil => cases hi
  | cons y t ih =>
    rw [List.map_cons, List.nodup_cons] at hnodup
    cases i with
    | zero =>
      obtain rfl : y = x := by simpa using hi
      rw [put, if_pos hk]
      rfl
    | succ i =>
      have hi' : t[i]? = some x := by simpa using hi
      have hmem : x.key ∈ t.map Entry.key := List.mem_map_of_mem (List.mem_of_getElem? hi')
      have hne : y.key ≠ e.key := fun heq => hnodup.1 (heq.trans hk.symm ▸ hmem)
      rw [put, if_neg hne, ih hnodup.2 hi']
      rfl

end Tables

end NewestWins
