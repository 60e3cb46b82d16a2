import LineairDB.Native.Serializable
import LineairDB.Stateless.Serializable

/-!
# Both kinds of committers

Native transactions and stateless requests share one store. A system of parties
of two kinds is a system of parties again, and has a contract when both kinds
have one.

* `Contract.sum` — the contract of two kinds of parties side by side.
* `either_asserted` — what each kind can assert by its own steps holds in every
  reached state of the two together.
* `step_install` — whatever is installed is the write a committer is about to
  install.
* `installing_index` — and goes to the item its slot leads to.
-/

namespace LineairDB.Silo

/-! ## Two kinds of parties -/

variable {P C Q D : Type}

/-- The phase of a party that is of the first kind, or has not moved yet. -/
def Party.asLeft (p : Party P C) : Option (P ⊕ Q) → Option P
  | none => some p.start
  | some (.inl x) => some x
  | some (.inr _) => none

/-- The phase of a party that is of the second kind, or has not moved yet. -/
def Party.asRight (q : Party Q D) : Option (P ⊕ Q) → Option Q
  | none => some q.start
  | some (.inl _) => none
  | some (.inr y) => some y

/-- Parties of two kinds: the first step of a party says which kind it is of. -/
def Party.sum (p : Party P C) (q : Party Q D) : Party (Option (P ⊕ Q)) (C ⊕ D) where
  start := none
  step s t phase
    | .inl choice =>
      (p.asLeft phase).bind fun x =>
        (p.step s t x choice).map fun (a, x, candidates) => (a, some (.inl x), candidates)
    | .inr choice =>
      (q.asRight phase).bind fun y =>
        (q.step s t y choice).map fun (a, y, candidates) => (a, some (.inr y), candidates)

variable {p : Party P C} {q : Party Q D}

/-- A step of one kind or of the other. -/
theorem Party.sum_cases {s : Store} {t : ℕ} {phase phase' : Option (P ⊕ Q)} {choice : C ⊕ D}
    {a : Access} {candidates : List Candidate}
    (h : (p.sum q).step s t phase choice = some (a, phase', candidates)) :
    (∃ x x' c, choice = .inl c ∧ (phase = some (.inl x) ∨ phase = none ∧ x = p.start) ∧
        phase' = some (.inl x') ∧ p.step s t x c = some (a, x', candidates)) ∨
      ∃ y y' d, choice = .inr d ∧ (phase = some (.inr y) ∨ phase = none ∧ y = q.start) ∧
        phase' = some (.inr y') ∧ q.step s t y d = some (a, y', candidates) := by
  cases choice with
  | inl c =>
    obtain ⟨x, hx, hstep⟩ := Option.bind_eq_some_iff.mp h
    obtain ⟨⟨a', x', candidates'⟩, hstep, heq⟩ := Option.map_eq_some_iff.mp hstep
    cases heq
    refine .inl ⟨x, x', c, rfl, ?_, rfl, hstep⟩
    rcases phase with _ | _ | _ <;> cases hx
    · exact .inr ⟨rfl, rfl⟩
    · exact .inl rfl
  | inr d =>
    obtain ⟨y, hy, hstep⟩ := Option.bind_eq_some_iff.mp h
    obtain ⟨⟨a', y', candidates'⟩, hstep, heq⟩ := Option.map_eq_some_iff.mp hstep
    cases heq
    refine .inr ⟨y, y', d, rfl, ?_, rfl, hstep⟩
    rcases phase with _ | _ | _ <;> cases hy
    · exact .inr ⟨rfl, rfl⟩
    · exact .inl rfl

/-- What is known of a party of either kind; one that has not moved has no stamp. -/
def Contract.sumInv (k : Contract p) (l : Contract q) (s : Store) (t : ℕ) :
    Option (P ⊕ Q) → Prop
  | none => s.stamp (.tx t) = none
  | some (.inl x) => k.inv s t x
  | some (.inr y) => l.inv s t y

section

variable {k : Contract p} {l : Contract q} {s : Store} {t : ℕ} {phase : Option (P ⊕ Q)}
  (h : k.sumInv l s t phase)

include h

theorem Contract.sumInv_left {x : P} (hx : phase = some (.inl x) ∨ phase = none ∧ x = p.start) :
    k.inv s t x := by
  rcases hx with rfl | ⟨rfl, rfl⟩
  · exact h
  · exact k.start h

theorem Contract.sumInv_right {y : Q} (hy : phase = some (.inr y) ∨ phase = none ∧ y = q.start) :
    l.inv s t y := by
  rcases hy with rfl | ⟨rfl, rfl⟩
  · exact h
  · exact l.start h

end

/-- **Two kinds of parties have a contract when each of them has.** -/
def Contract.sum (k : Contract p) (l : Contract q) : Contract (p.sum q) where
  inv := k.sumInv l
  start hstamp := hstamp
  rely {s s' t phase} hstore h hrely := by
    rcases phase with _ | _ | _
    · exact hrely.stamp.trans h
    · exact k.rely hstore h hrely
    · exact l.rely hstore h hrely
  step {s t phase choice a phase' candidates} hstore h hstep := by
    rcases Party.sum_cases hstep with ⟨x, x', c, -, hx, rfl, hleft⟩ |
      ⟨y, y', d, -, hy, rfl, hright⟩
    · exact k.step hstore (Contract.sumInv_left h hx) hleft
    · exact l.step hstore (Contract.sumInv_right h hy) hright

end LineairDB.Silo

namespace LineairDB.Lives

open Silo Transition
open Stateless (Schema Request RequestInv)
open Native (Transaction TransactionInv)

/-! ## Native transactions and stateless requests -/

/-- A committer of either kind. -/
abbrev Committer := Option (Transaction ⊕ Request)

/-- What it does next. -/
abbrev Choice := Native.Choice ⊕ Stateless.Choice

/-- Native and stateless committers together. -/
def committers (schema : Schema) : Party Committer Choice :=
  (Native.user schema).sum (Stateless.client schema)

/-- Their contract. -/
def contract (schema : Schema) : Contract (committers schema) :=
  (Native.contract schema).sum (Stateless.contract schema)

/-! ## Assertions about both kinds -/

/-- An assertion about transactions and one about requests, as one about committers: of a
committer that has not moved yet, both. -/
def Either (N : Store → ℕ → Transaction → Prop) (R : Store → ℕ → Request → Prop)
    (s : Store) (t : ℕ) : Committer → Prop
  | none => N s t ⟨[], [], [], [], .running⟩ ∧ R s t ⟨[], .staging⟩
  | some (.inl tx) => N s t tx
  | some (.inr r) => R s t r

/-- The committer is, or may become, this transaction. -/
def IsNative (phase : Committer) (tx : Transaction) : Prop :=
  phase = some (.inl tx) ∨ phase = none ∧ tx = ⟨[], [], [], [], .running⟩

/-- The committer is, or may become, this request. -/
def IsStateless (phase : Committer) (r : Request) : Prop :=
  phase = some (.inr r) ∨ phase = none ∧ r = ⟨[], .staging⟩

theorem Either.native {N : Store → ℕ → Transaction → Prop}
    {R : Store → ℕ → Request → Prop} {s : Store} {t : ℕ} {phase : Committer}
    {tx : Transaction} (h : Either N R s t phase) (htx : IsNative phase tx) : N s t tx := by
  rcases htx with rfl | ⟨rfl, rfl⟩
  · exact h
  · exact h.1

/-- The committer has told its caller that it has committed. -/
def Returned : Committer → Prop
  | some (.inl tx) => tx.stage = .committed
  | some (.inr r) => ∃ c, r.stage = .committed c
  | none => False

variable {phase : Committer} {choice : Choice}

section Steps

variable {schema : Schema} {s : Store} {t : ℕ} {phase' : Committer} {a : Access}
  {candidates : List Candidate}

/-- A call of a transaction is one of its steps. -/
theorem native_call {tx : Transaction} {c : Native.Choice} (hnative : IsNative phase tx)
    (h : (committers schema).step s t phase (.inl c) = some (a, phase', candidates)) :
    ∃ tx', phase' = some (.inl tx') ∧ Native.step schema s t tx c = some (a, tx', candidates) := by
  rcases Party.sum_cases h with ⟨x, x', c', hc, hx, rfl, hstep⟩ | ⟨_, _, _, hc, -⟩
  · cases hc
    refine ⟨x', rfl, ?_⟩
    rcases hnative with rfl | ⟨rfl, rfl⟩ <;> rcases hx with hx | ⟨hx, rfl⟩ <;> cases hx <;>
      exact hstep
  · cases hc

/-- A transaction stays one. -/
theorem native_cases {tx : Transaction}
    (h : (committers schema).step s t (some (.inl tx)) choice = some (a, phase', candidates)) :
    ∃ tx' c, choice = .inl c ∧ phase' = some (.inl tx') ∧
      Native.step schema s t tx c = some (a, tx', candidates) := by
  rcases Party.sum_cases h with ⟨x, x', c, rfl, hx | ⟨hx, -⟩, rfl, hstep⟩ |
    ⟨_, _, _, -, hx | ⟨hx, -⟩, -⟩ <;> cases hx
  exact ⟨x', c, rfl, rfl, hstep⟩

/-- A call of a request is one of its steps. -/
theorem stateless_call {c : Stateless.Choice}
    (h : (committers schema).step s t phase (.inr c) = some (a, phase', candidates)) :
    ∃ r r', phase' = some (.inr r') ∧
      Stateless.step schema s t r c = some (a, r', candidates) := by
  rcases Party.sum_cases h with ⟨_, _, _, hc, -⟩ | ⟨y, y', d, hd, -, rfl, hstep⟩
  · cases hc
  · cases hd
    exact ⟨y, y', rfl, hstep⟩

/-- A request stays one. -/
theorem stateless_cases {r : Request}
    (h : (committers schema).step s t (some (.inr r)) choice = some (a, phase', candidates)) :
    ∃ r' c, choice = .inr c ∧ phase' = some (.inr r') ∧
      Stateless.step schema s t r c = some (a, r', candidates) := by
  rcases Party.sum_cases h with ⟨_, _, _, -, hy | ⟨hy, -⟩, -⟩ |
    ⟨y, y', d, rfl, hy | ⟨hy, -⟩, rfl, hstep⟩ <;> cases hy
  exact ⟨y', d, rfl, rfl, hstep⟩

end Steps

/-- **What transactions and requests can assert of themselves**, each by its own steps,
holds in every reached state of the two together. -/
theorem either_asserted (schema : Schema) {G : State Committer → Action Choice → Prop}
    {S : Store → Prop} {N : Store → ℕ → Transaction → Prop}
    {R : Store → ℕ → Request → Prop} (hinitial : S .initial)
    (hstart : ∀ t, N .initial t ⟨[], [], [], [], .running⟩ ∧ R .initial t ⟨[], .staging⟩)
    (hquiet : ∀ {s a}, StoreInv s → S s → a.Permitted s .reaper → a.Quiet →
      S (s.access .reaper a))
    (hnativeRely : ∀ {s s' t tx}, StoreInv s → StoreInv s' → TransactionInv s t tx →
      N s t tx → Rely (.tx t) s s' → N s' t tx)
    (hstatelessRely : ∀ {s s' t r}, StoreInv s → StoreInv s' → RequestInv s t r →
      R s t r → Rely (.tx t) s s' → R s' t r)
    (hnative : ∀ {s : State Committer} {t tx tx' c a candidates}, StoreInv s.store → S s.store →
      TransactionInv s.store t tx → N s.store t tx → IsNative (s.phase t) tx →
      G s (.party t (.inl c)) → Native.step schema s.store t tx c = some (a, tx', candidates) →
      S (s.store.access (.tx t) a) ∧ N (s.store.access (.tx t) a) t tx')
    (hstateless : ∀ {s : State Committer} {t r r' c a candidates}, StoreInv s.store → S s.store →
      RequestInv s.store t r → R s.store t r → IsStateless (s.phase t) r →
      G s (.party t (.inr c)) → Stateless.step schema s.store t r c = some (a, r', candidates) →
      S (s.store.access (.tx t) a) ∧ R (s.store.access (.tx t) a) t r')
    {actions : List (Action Choice)} {s : State Committer}
    (hG : Along (committers schema).next G (committers schema).initial actions)
    (hrun : run (committers schema).next (committers schema).initial actions = some s) :
    SystemInv (contract schema) s ∧ S s.store ∧ ∀ t, Either N R s.store t (s.phase t) := by
  refine (contract schema).asserted (Q := Either N R) hinitial hstart hquiet ?_ ?_ hG hrun
  · intro s s' t phase hstore hstore' hinv hphase hrely
    rcases phase with _ | _ | _
    · exact ⟨hnativeRely hstore hstore' ((Native.contract schema).start hinv) hphase.1 hrely,
        hstatelessRely hstore hstore' ((Stateless.contract schema).start hinv) hphase.2 hrely⟩
    · exact hnativeRely hstore hstore' hinv hphase hrely
    · exact hstatelessRely hstore hstore' hinv hphase hrely
  · intro s t choice a phase' candidates hinv hS hphase hcond hstep
    have hparty := hinv.party t
    rcases Party.sum_cases hstep with ⟨tx, tx', c, rfl, hx, rfl, hleft⟩ |
      ⟨r, r', c, rfl, hr, rfl, hright⟩
    · exact hnative hinv.store hS (Contract.sumInv_left hparty hx) (hphase.native hx) hx hcond hleft
    · refine hstateless hinv.store hS (Contract.sumInv_right hparty hr) ?_ hr hcond hright
      rcases hr with heq | ⟨heq, rfl⟩ <;> rw [heq] at hphase
      · exact hphase
      · exact hphase.2

/-- The slot and the item of the write a committer is about to install. -/
def installing : Committer → Option (Slot × ItemId)
  | some (.inl tx) =>
    match tx.stage with
    | .install _ (snapshot :: _) => some (snapshot.slot, snapshot.item)
    | _ => none
  | some (.inr r) =>
    match r.stage with
    | .committing _ (.installRows (write :: _)) => some (write.slot, write.item)
    | .committing _ (.installSecondary (op :: _)) => some (op.slot, op.item)
    | _ => none
  | none => none

variable {schema : Schema} {s : Store} {t : ℕ}

/-- **Whatever is installed is the write a committer is about to install.** -/
theorem step_install {phase' : Committer} {choice : Choice} {i : ItemId} {content : Content}
    {candidates : List Candidate} (h : (committers schema).step s t phase choice
      = some (.install i content, phase', candidates)) : ∃ k, installing phase = some (k, i) := by
  rcases Party.sum_cases h with ⟨tx, tx', c, -, hx, -, hstep⟩ | ⟨r, r', c, -, hr, -, hstep⟩
  · obtain ⟨valid, heq, hstage⟩ := Native.step_loud hstep id
    rcases hstage with ⟨installed, w, todo, hstage⟩ | ⟨w, todo, hstage⟩ <;>
      rw [hstage] at heq <;> cases heq
    rcases hx with rfl | ⟨-, rfl⟩
    · simp only [installing, hstage]
      exact ⟨_, rfl⟩
    · cases hstage
  · cases Stateless.step_cases hstep with
    | read _ ha => exact ha.elim
    | commit hmove =>
      rcases hr with rfl | ⟨-, hinitial⟩
      · cases hmove with
        | installRow | installOp => exact ⟨_, rfl⟩
        | duplicate hget | resolveWrite _ hget | resolveOp _ hget =>
          exact (Stateless.getOrInsert_collecting hget).elim
      · cases hinitial

/-- **A write goes to the item its slot leads to.** -/
theorem installing_index {k : Slot} {i : ItemId}
    (h : (contract schema).inv s t phase) (hinstalling : installing phase = some (k, i)) :
    s.index k = some i := by
  -- an attached item of the slot
  have index : ∀ {k i}, s.Attached i → (s.item i).home = k → s.index k = some i := by
    intro k i hatt hhome
    rw [← hhome]
    exact hatt
  revert hinstalling
  fun_cases installing phase with
  | case1 tx installed w todo heq =>
    rintro ⟨⟩
    have hstage := TransactionInv.stage h
    rw [heq] at hstage
    have hw : w ∈ installed ++ w :: todo := List.mem_append_right _ (.head _)
    exact index (hstage.1.held w hw).2 (hstage.1.entries.item w hw).2
  | case3 r c write todo heq =>
    rintro ⟨⟩
    have hstage := RequestInv.stage h
    rw [heq] at hstage
    obtain ⟨hprepared, hlocked, -, htodo⟩ := hstage
    have htarget := hprepared.write write (htodo (.head _))
    exact index (hlocked.attached _ (hprepared.listed _ htarget)) (hprepared.target _ htarget).2
  | case4 r c op todo heq =>
    rintro ⟨⟩
    have hstage := RequestInv.stage h
    rw [heq] at hstage
    obtain ⟨hprepared, hlocked, -, htodo⟩ := hstage
    have htarget := hprepared.op op (htodo (.head _))
    exact index (hlocked.attached _ (hprepared.listed _ htarget)) (hprepared.target _ htarget).2
  | _ => exact fun hinstalling => by cases hinstalling

/-- The committer has made up its mind to commit. -/
def Commits : Committer → Prop
  | some (.inl tx) => tx.stage.decided = true
  | some (.inr r) => ∃ c, r.stage.decided = some c
  | none => False

/-- **Only committers that commit publish.** -/
theorem commits_of_version {actions : List (Action Choice)} {s : State Committer}
    (hrun : run (committers schema).next (committers schema).initial actions = some s) {k : Slot}
    {v : Owner × Version} (hv : v ∈ s.store.versions k) :
    ∃ t, v.1 = .tx t ∧ Commits (s.phase t) := by
  refine writer_decided Commits ?_ ?_ hrun k v hv
  · intro s t phase choice a phase' candidates hstep hcommits
    rcases phase with _ | _ | _
    · exact hcommits.elim
    · obtain ⟨tx', c, rfl, rfl, hcall⟩ := native_cases hstep
      exact Native.decided_keeps hcall hcommits
    · obtain ⟨r', c, rfl, rfl, hcall⟩ := stateless_cases hstep
      exact Stateless.decided_keeps hcall hcommits
  · intro s t phase choice i word phase' candidates hstep
    rcases Party.sum_cases hstep with ⟨_, _, _, -, -, rfl, hcall⟩ | ⟨_, _, _, -, -, rfl, hcall⟩
    · exact Native.decided_of_publish hcall
    · exact Stateless.decided_of_publish hcall

/-! ## Runs -/

/-- A call of the transaction `t`. -/
def nativeCall (t : ℕ) (choice : Native.Choice) : List (Action Choice) := [.party t (.inl choice)]

/-- The transaction `t` makes `n` steps. -/
def nativeNexts (t n : ℕ) : List (Action Choice) :=
  List.replicate n (.party t (.inl (.next 0 true)))

/-- The request `t` is submitted, without reads and ranges, and makes `n` steps. -/
def statelessCommit (t : ℕ) (writes : List Stateless.ExternalWriteEntry)
    (secondaryIndexOps : List Stateless.ExternalSecondaryIndexEntry) (n : ℕ) :
    List (Action Choice) :=
  .party t (.inr (.submit [] writes secondaryIndexOps [])) ::
    List.replicate n (.party t (.inr (.next 0)))

end LineairDB.Lives
