import Mathlib.Data.Fintype.BigOperators

/-!
# Runs of a step function

A system is a partial step function over states and actions; a run is a list
of actions that all could be taken. The rules carry what one step preserves
to whole runs.
-/

namespace Transition

variable {σ α : Type} {step : σ → α → Option σ} {s m s' : σ}

variable {as : List α} {P : σ → Prop} {G : σ → α → Prop}

/-- Take the actions in order; `none` when one of them cannot be taken. -/
def run (step : σ → α → Option σ) : σ → List α → Option σ
  | s, [] => some s
  | s, a :: as => (step s a).bind (run step · as)

@[simp] theorem run_nil (s : σ) : run step s [] = some s := rfl

theorem run_cons {a : α} :
    run step s (a :: as) = some s' ↔ ∃ m, step s a = some m ∧ run step m as = some s' :=
  Option.bind_eq_some_iff

theorem run_append {bs : List α} :
    run step s (as ++ bs) = some s' ↔ ∃ m, run step s as = some m ∧ run step m bs = some s' := by
  induction as generalizing s with
  | nil => simp
  | cons a as ih =>
    simp only [List.cons_append, run_cons, ih]
    constructor
    · rintro ⟨m, hstep, n, hrun, hrest⟩
      exact ⟨n, ⟨m, hstep, hrun⟩, hrest⟩
    · rintro ⟨n, ⟨m, hstep, hrun⟩, hrest⟩
      exact ⟨m, hstep, n, hrun, hrest⟩

/-- **The monotonicity rule.** What relates the ends of every step taken under
an invariant relates the ends of every run. -/
theorem run_monotone {R : σ → σ → Prop} (hstep : ∀ {s a s'}, P s → step s a = some s' → P s')
    (refl : ∀ s, R s s) (trans : ∀ {s m s'}, R s m → R m s' → R s s')
    (hrel : ∀ {s a s'}, P s → step s a = some s' → R s s') (h : P s)
    (hrun : run step s as = some s') : R s s' := by
  induction as generalizing s with
  | nil => cases hrun; exact refl _
  | cons a as ih =>
    obtain ⟨m, ha, has⟩ := run_cons.mp hrun
    exact trans (hrel h ha) (ih (hstep h ha) has)

/-! ## Runs under a condition -/

/-- Every action of the run meets the condition `G` in the state it is taken in. -/
def Along (step : σ → α → Option σ) (G : σ → α → Prop) : σ → List α → Prop
  | _, [] => True
  | s, a :: as => G s a ∧ ∀ m, step s a = some m → Along step G m as

theorem Along.cons {a : α} (hG : G s a) (hstep : step s a = some m) (h : Along step G m as) :
    Along step G s (a :: as) := by
  refine ⟨hG, fun m' hm' => ?_⟩
  rw [hstep] at hm'
  cases hm'
  exact h

instance Along.decidable (step : σ → α → Option σ) (G : σ → α → Prop) [∀ s a, Decidable (G s a)] :
    ∀ s as, Decidable (Along step G s as)
  | _, [] => .isTrue trivial
  | s, a :: as =>
    match hstep : step s a with
    | none =>
      decidable_of_iff (G s a)
        ⟨fun hG => ⟨hG, fun m hm => absurd (hstep.symm.trans hm) (Option.some_ne_none m).symm⟩,
          And.left⟩
    | some m =>
      have := Along.decidable step G m as
      decidable_of_iff (G s a ∧ Along step G m as)
        ⟨fun h => .cons h.1 hstep h.2, fun h => ⟨h.1, h.2 m hstep⟩⟩

theorem Along.of_forall (h : ∀ s a, G s a) (s : σ) (as : List α) : Along step G s as := by
  induction as generalizing s with
  | nil => trivial
  | cons a as ih => exact ⟨h s a, fun m _ => ih m⟩

/-- The condition on a run is one on its two parts. -/
theorem Along.split {bs : List α} (h : Along step G s (as ++ bs)) (hrun : run step s as = some m) :
    Along step G s as ∧ Along step G m bs := by
  induction as generalizing s with
  | nil =>
    cases hrun
    exact ⟨trivial, h⟩
  | cons a as ih =>
    obtain ⟨n, ha, has⟩ := run_cons.mp hrun
    obtain ⟨hfirst, hrest⟩ := ih (h.2 n ha) has
    exact ⟨.cons h.1 ha hfirst, hrest⟩

/-- A weaker condition. -/
theorem Along.imp {H : σ → α → Prop} (hGH : ∀ s a, G s a → H s a) (h : Along step G s as) :
    Along step H s as := by
  induction as generalizing s with
  | nil => trivial
  | cons a as ih => exact ⟨hGH s a h.1, fun m hm => ih (h.2 m hm)⟩

/-- **The invariant rule under a condition.** -/
theorem Along.invariant (hstep : ∀ {s a s'}, P s → G s a → step s a = some s' → P s') (h : P s)
    (hG : Along step G s as) (hrun : run step s as = some s') : P s' := by
  induction as generalizing s with
  | nil => cases hrun; exact h
  | cons a as ih =>
    obtain ⟨m, ha, has⟩ := run_cons.mp hrun
    exact ih (hstep h hG.1 ha) (hG.2 m ha) has

/-- **The invariant rule.** What every step preserves, every run preserves. -/
theorem run_invariant (hstep : ∀ {s a s'}, P s → step s a = some s' → P s') (h : P s)
    (hrun : run step s as = some s') : P s' :=
  Along.invariant (G := fun _ _ => True) (fun h _ => hstep h) h
    (.of_forall (fun _ _ => trivial) s as) hrun

end Transition
