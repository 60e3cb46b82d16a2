import LineairDB.Library.ByteFile
import LineairDB.Library.Transition

/-!
# The table dictionary

`CreateTable` looks the name up, allocates a table, puts it into the set of tables
and returns. The four are steps of their own, and any number of calls are under way
at once; `Get` and `Put` of the set are one step each.

* `created_once` — where no call looks a name up while another is between its lookup
  and its `Put`, one call for the name returns true and its table is the one found.
* `both_calls_told_true` — two calls that look up before either puts both return true.
-/

namespace LineairDB.Dictionary

open ByteFile Transition
open Function (update_of_ne update)

/-- Where a call of `CreateTable` is. -/
inductive Phase where
  | start
  /-- `Get` has found nothing. -/
  | missing
  | allocated (table : ℕ)
  | put (table : ℕ) (inserted : Bool)
  | returned (result : Bool) (table : Option ℕ)
  deriving Repr, DecidableEq

/-- Between the lookup and the `Put`. -/
def Phase.between : Phase → Bool
  | .missing | .allocated _ => true
  | _ => false

/-- The set of tables, the tables allocated and freed, and the calls. -/
structure State where
  tables : Bytes → Option ℕ
  allocated : ℕ
  freed : List ℕ
  call : ℕ → Phase

/-- No table, and nobody has begun. -/
def State.initial : State := ⟨fun _ => none, 0, [], fun _ => .start⟩

/-- `GetTable` -/
def State.getTable (s : State) (name : Bytes) : Option ℕ := s.tables name

/-- The next step of call `c`, which was made with the name `name c`. -/
def step (name : ℕ → Bytes) (s : State) (c : ℕ) : Option State :=
  match s.call c with
  | .start =>
    some { s with
      call := update s.call c
        (if (s.tables (name c)).isSome then .returned false none else .missing) }
  | .missing =>
    some { s with
      allocated := s.allocated + 1
      call := update s.call c (.allocated s.allocated) }
  | .allocated table =>
    match s.tables (name c) with
    | none =>
      some { s with
        tables := update s.tables (name c) (some table)
        call := update s.call c (.put table true) }
    | some _ => some { s with call := update s.call c (.put table false) }
  | .put table inserted =>
    -- the answer does not depend on what `Put` said
    some { s with
      freed := if inserted then s.freed else table :: s.freed
      call := update s.call c (.returned true (some table)) }
  | .returned _ _ => none

/-- A call that looks its name up does so while no other call for the name is between its
lookup and its `Put`. -/
def Apart (name : ℕ → Bytes) (s : State) (c : ℕ) : Prop :=
  s.call c = .start → ∀ c', name c' = name c → (s.call c').between = false

/-! ## One call creates the table -/

variable {name : ℕ → Bytes} {n : Bytes} {s s' : State} {c c' : ℕ}

/-- A name before its table is there: the only call under way for it, if any, is `c`. -/
def Absent (name : ℕ → Bytes) (n : Bytes) (s : State) : Prop :=
  s.tables n = none ∧ ∃ c, ∀ c', name c' = n →
    s.call c' = .start ∨ (c' = c ∧ (s.call c').between = true)

/-- A name with its table: `c` put it there, and the others were told so. -/
def Created (name : ℕ → Bytes) (n : Bytes) (s : State) (c table : ℕ) : Prop :=
  name c = n ∧ s.tables n = some table ∧
    (s.call c = .put table true ∨ s.call c = .returned true (some table)) ∧
    ∀ c', name c' = n → c' ≠ c → s.call c' = .start ∨ s.call c' = .returned false none

/-- The table is absent, or one call has made it. -/
def Inv (name : ℕ → Bytes) (n : Bytes) (s : State) : Prop :=
  Absent name n s ∨ ∃ c table, Created name n s c table

/-- A step of a call leaves other calls and other names. -/
theorem step_frame (hstep : step name s c = some s') :
    (∀ c', c' ≠ c → s'.call c' = s.call c') ∧ (n ≠ name c → s'.tables n = s.tables n) := by
  unfold step at hstep
  split at hstep
  case h_3 =>
    split at hstep <;> obtain rfl := Option.some.inj hstep
    · exact ⟨fun c' hne => update_of_ne hne _ _, fun hne => update_of_ne hne _ _⟩
    · exact ⟨fun c' hne => update_of_ne hne _ _, fun _ => rfl⟩
  case h_5 => cases hstep
  all_goals
    obtain rfl := Option.some.inj hstep
    exact ⟨fun c' hne => update_of_ne hne _ _, fun _ => rfl⟩

theorem Absent.step (h : Absent name n s) (happart : Apart name s c)
    (hstep : step name s c = some s') : Inv name n s' := by
  obtain ⟨hothers, htables⟩ := step_frame (n := n) hstep
  obtain ⟨hnone, c₀, hcalls⟩ := h
  by_cases hn : n = name c
  · subst hn
    rcases hcalls c rfl with hstart | ⟨rfl, hbetween⟩
    · -- the name is looked up, with no other call under way for it
      have hrest : ∀ c', name c' = name c → c' ≠ c → s.call c' = .start := by
        intro c' hc' _
        rcases hcalls c' hc' with h | ⟨-, h⟩
        · exact h
        · rw [happart hstart c' hc'] at h
          cases h
      simp only [step, hstart, hnone, Option.isSome_none, Bool.false_eq_true, if_false,
        Option.some.injEq] at hstep
      subst hstep
      refine .inl ⟨hnone, c, fun c' hc' => ?_⟩
      by_cases hne : c' = c
      · subst hne
        exact .inr ⟨rfl, by simp [Phase.between]⟩
      · exact .inl ((hothers c' hne).trans (hrest c' hc' hne))
    · have hrest : ∀ c', name c' = name c → c' ≠ c → s.call c' = .start := fun c' hc' hne =>
        (hcalls c' hc').resolve_right fun h => hne h.1
      cases hphase : s.call c with
      | missing =>
        simp only [step, hphase, Option.some.injEq] at hstep
        subst hstep
        refine .inl ⟨hnone, c, fun c' hc' => ?_⟩
        by_cases hne : c' = c
        · subst hne
          exact .inr ⟨rfl, by simp [Phase.between]⟩
        · exact .inl ((hothers c' hne).trans (hrest c' hc' hne))
      | allocated table =>
        simp only [step, hphase, hnone, Option.some.injEq] at hstep
        subst hstep
        refine .inr ⟨c, table, rfl, by simp, .inl (by simp), fun c' hc' hne => .inl ?_⟩
        exact (hothers c' hne).trans (hrest c' hc' hne)
      | _ => simp [hphase, Phase.between] at hbetween
  · refine .inl ⟨(htables hn).trans hnone, c₀, fun c' hc' => ?_⟩
    rw [hothers c' fun heq => hn (heq ▸ hc'.symm)]
    exact hcalls c' hc'

theorem Created.step {table : ℕ} (h : Created name n s c' table) (hstep : step name s c = some s') :
    Created name n s' c' table := by
  obtain ⟨hothers, htables⟩ := step_frame (n := n) hstep
  obtain ⟨hname, htable, hcreator, hcalls⟩ := h
  have hmoved : s'.tables n = some table ∧ (c = c' → s'.call c = .returned true (some table)) ∧
      (name c = n → c ≠ c' → s'.call c = .returned false none) := by
    by_cases hn : name c = n
    · subst hn
      by_cases hc : c = c'
      · subst hc
        rcases hcreator with hput | hreturned
        · simp only [Dictionary.step, hput, if_true, Option.some.injEq] at hstep
          subst hstep
          exact ⟨htable, fun _ => by simp, fun _ hne => absurd rfl hne⟩
        · simp [Dictionary.step, hreturned] at hstep
      · rcases hcalls c rfl hc with hstart | hreturned
        · simp only [Dictionary.step, hstart, htable, Option.isSome_some, if_true,
            Option.some.injEq] at hstep
          subst hstep
          exact ⟨htable, fun heq => absurd heq hc, fun _ _ => by simp⟩
        · simp [Dictionary.step, hreturned] at hstep
    · exact ⟨(htables (Ne.symm hn)).trans htable, fun heq => absurd (heq ▸ hname) hn,
        fun hname' => absurd hname' hn⟩
  obtain ⟨htable', hcreator', hother'⟩ := hmoved
  refine ⟨hname, htable', ?_, fun d hd hne => ?_⟩
  · by_cases hc : c = c'
    · exact .inr (hc ▸ hcreator' hc)
    · rw [hothers c' (Ne.symm hc)]
      exact hcreator
  · by_cases hdc : d = c
    · subst hdc
      exact .inr (hother' hd hne)
    · rw [hothers d hdc]
      exact hcalls d hd hne

theorem inv_run {calls : List ℕ} (happart : Along (step name) (Apart name) .initial calls)
    (hrun : run (step name) .initial calls = some s) (n : Bytes) : Inv name n s := by
  refine Along.invariant (fun hinv hG hstep => ?_) ?_ happart hrun
  · rcases hinv with habsent | ⟨c, table, hcreated⟩
    · exact habsent.step hG hstep
    · exact .inr ⟨c, table, hcreated.step hstep⟩
  · exact .inl ⟨rfl, 0, fun _ _ => .inl rfl⟩

/-- **A table name is created once**, where no call looks the name up while another is between
its lookup and its `Put`: at most one call returns true, its table is what `GetTable` returns
from then on, and once the calls that have begun have returned one of them has returned true. -/
theorem created_once {calls : List ℕ} (happart : Along (step name) (Apart name) .initial calls)
    (hrun : run (step name) .initial calls = some s) (n : Bytes) :
    (∀ c c' t t', name c = n → name c' = n → s.call c = .returned true t →
      s.call c' = .returned true t' → c = c') ∧
    (∀ c t, name c = n → s.call c = .returned true t → t ≠ none ∧ s.getTable n = t) ∧
    ((∃ c, name c = n ∧ s.call c ≠ .start) →
      (∀ c, name c = n → s.call c = .start ∨ ∃ result t, s.call c = .returned result t) →
      ∃ c t, name c = n ∧ s.call c = .returned true t) := by
  rcases inv_run happart hrun n with ⟨hnone, c₀, hcalls⟩ | ⟨c₀, table, hname, htable, hc₀, hcalls⟩
  · have hnot : ∀ c result t, name c = n → s.call c ≠ .returned result t := by
      intro c result t hc hreturned
      rcases hcalls c hc with h | ⟨-, h⟩ <;> simp [hreturned, Phase.between] at h
    refine ⟨fun c c' t t' hc _ h => absurd h (hnot c _ _ hc),
      fun c t hc h => absurd h (hnot c _ _ hc), ?_⟩
    rintro ⟨c, hc, hbegun⟩ hdone
    rcases hdone c hc with h | ⟨result, t, h⟩
    · exact absurd h hbegun
    · exact absurd h (hnot c _ _ hc)
  · have honly : ∀ c t, name c = n → s.call c = .returned true t → c = c₀ := by
      intro c t hc h
      by_contra hne
      rcases hcalls c hc hne with h' | h' <;> rw [h] at h' <;> cases h'
    refine ⟨fun c c' t t' hc hc' h h' => (honly c t hc h).trans (honly c' t' hc' h').symm,
      fun c t hc h => ?_, fun _ hdone => ?_⟩
    · obtain rfl := honly c t hc h
      rcases hc₀ with h' | h' <;> rw [h] at h' <;> cases h'
      exact ⟨nofun, htable⟩
    · rcases hdone c₀ hname with h | ⟨result, t, h⟩
      · rcases hc₀ with h' | h' <;> rw [h] at h' <;> cases h'
      · rcases hc₀ with h' | h' <;> rw [h] at h' <;> cases h'
        exact ⟨c₀, _, hname, h⟩

/-- Two calls for one name, one after the other. -/
theorem created_once_sequential :
    ∃ s, run (step fun _ => [116]) .initial [0, 0, 0, 0, 1] = some s ∧
      s.call 1 = .returned false none ∧
      ∃ c t, s.call c = .returned true t ∧ s.getTable [116] = t := by
  have happart : Along (step fun _ => [116]) (Apart fun _ => [116]) .initial [0, 0, 0, 0, 1] := by
    refine .cons (fun _ c' _ => rfl) rfl (.cons ?_ rfl (.cons ?_ rfl
      (.cons ?_ rfl (.cons (fun _ c' _ => ?_) rfl trivial))))
    · intro h
      cases h
    · intro h
      cases h
    · intro h
      cases h
    · by_cases hc : c' = 0
      · subst hc
        rfl
      · simp [update, hc, State.initial, Phase.between]
  obtain ⟨-, htable, hdone⟩ := created_once happart rfl [116]
  obtain ⟨c, t, -, hc⟩ := hdone ⟨0, rfl, by decide⟩ fun c _ => by
    by_cases h0 : c = 0
    · subst h0
      exact .inr ⟨true, some 0, rfl⟩
    · by_cases h1 : c = 1
      · subst h1
        exact .inr ⟨false, none, rfl⟩
      · exact .inl (by simp [update, h0, h1, State.initial])
  exact ⟨_, rfl, rfl, c, t, hc, (htable c t rfl hc).2⟩

/-- Both look the name up before either puts: both return true, and the table of the second
is deleted. -/
theorem both_calls_told_true :
    ∃ s, run (step fun _ => [116]) .initial [0, 1, 0, 1, 0, 1, 0, 1] = some s ∧
      s.call 0 = .returned true (some 0) ∧ s.call 1 = .returned true (some 1) ∧
      s.getTable [116] = some 0 ∧ s.freed = [1] := by
  refine ⟨_, rfl, ?_⟩
  decide

end LineairDB.Dictionary
