import LineairDB.Durability.System
import LineairDB.Silo.Reaper

/-!
# Committers, the reaper and the epoch

Any number of parties of one kind share the store with the reaper and the
thread that advances the epoch; every step is one access of one of them. What a
kind of party has to bring along is a `Contract`: an assertion about each party
that its own steps keep and the others' accesses leave alone.

* `Contract.reached` — the invariants of the store, the parties and the reaper
  hold in every reached state.
* `Contract.asserted` — and so does whatever each party can assert of itself.
* `writer_decided` — a version is only ever published by a party that has made
  up its mind.
-/

namespace LineairDB.Silo

open Transition
open Function (update_self update_of_ne update update_apply)
open Durability (kEpochHighWater)

/-! ## The system -/

/-- A kind of party: its steps read the store, make one access and may hand
slots to the reaper. -/
structure Party (Phase Choice : Type) where
  start : Phase
  step : Store → ℕ → Phase → Choice → Option (Access × Phase × List Candidate)

/-- The store, the parties, and the reaper with its queue. -/
structure State (Phase : Type) where
  store : Store
  phase : ℕ → Phase
  candidates : List Candidate
  reaper : Reaper

/-- A step of a party or of the reaper, or a new epoch. -/
inductive Action (Choice : Type) where
  | party (t : ℕ) (choice : Choice)
  | reap (publishedEpoch : EpochNumber)
  | advanceEpoch
  deriving Repr, DecidableEq

/-- An empty database in its first epoch. -/
def Store.initial : Store where
  index := fun _ => none
  item := fun _ => .blank (.row [] []) 0
  allocated := 0
  slots := []
  epoch := 1
  versions := fun _ => []
  stamp := fun _ => none
  commitEpoch := fun _ => 0
  clock := 0
  observed := fun _ => ∅
  fixed := fun _ => ∅

variable {Phase Choice : Type}

/-- The system at its start. -/
def Party.initial (p : Party Phase Choice) : State Phase := ⟨.initial, fun _ => p.start, [], .idle⟩

/-- One step. -/
def Party.next (p : Party Phase Choice) (s : State Phase) : Action Choice → Option (State Phase)
  | .party t choice =>
    (p.step s.store t (s.phase t) choice).map fun (a, phase, candidates) =>
      { s with
        store := s.store.access (.tx t) a
        phase := update s.phase t phase
        candidates := s.candidates ++ candidates }
  | .reap publishedEpoch =>
    (reaperStep s.store s.candidates publishedEpoch s.reaper).map fun (a, reaper, candidates) =>
      { s with
        store := s.store.access .reaper a
        candidates := candidates
        reaper := reaper }
  | .advanceEpoch =>
    if s.store.epoch < kEpochHighWater then some { s with store := s.store.advanceEpoch } else none

/-! ## What a step can do -/

variable {p : Party Phase Choice} {s s' : State Phase} {action : Action Choice}

/-- A step of a party, of the reaper, or of the epoch. -/
inductive Effect (p : Party Phase Choice) (s : State Phase) : Action Choice → State Phase → Prop
  | party {t : ℕ} {choice : Choice} {a : Access} {phase : Phase} {candidates : List Candidate}
      (hstep : p.step s.store t (s.phase t) choice = some (a, phase, candidates)) :
      Effect p s (.party t choice)
        { s with
          store := s.store.access (.tx t) a
          phase := update s.phase t phase
          candidates := s.candidates ++ candidates }
  | reap {publishedEpoch : EpochNumber} {a : Access} {reaper : Reaper}
      {candidates : List Candidate}
      (hstep : reaperStep s.store s.candidates publishedEpoch s.reaper
        = some (a, reaper, candidates)) :
      Effect p s (.reap publishedEpoch)
        { s with
          store := s.store.access .reaper a
          candidates := candidates
          reaper := reaper }
  | advanceEpoch (hbelow : s.store.epoch < kEpochHighWater) :
      Effect p s .advanceEpoch { s with store := s.store.access .reaper .advanceEpoch }

theorem Party.effect (h : p.next s action = some s') : Effect p s action s' := by
  cases action with
  | party =>
    obtain ⟨⟨a, phase, candidates⟩, hstep, rfl⟩ := Option.map_eq_some_iff.mp h
    exact .party hstep
  | reap =>
    obtain ⟨⟨a, reaper, candidates⟩, hstep, rfl⟩ := Option.map_eq_some_iff.mp h
    exact .reap hstep
  | advanceEpoch =>
    simp only [Party.next] at h
    split at h
    · rename_i hbelow
      cases h
      exact .advanceEpoch hbelow
    · cases h

/-- Every step is one access to the store. -/
theorem Effect.access (h : Effect p s action s') : ∃ o a, s'.store = s.store.access o a := by
  cases h with
  | party | reap => exact ⟨_, _, rfl⟩
  | advanceEpoch => exact ⟨.reaper, .advanceEpoch, rfl⟩

variable {actions : List (Action Choice)}

/-- **The versions of a store only grow**, and what wraps stays wrapped. -/
theorem run_grows (hrun : run p.next s actions = some s') :
    (s'.store.NoWrap → s.store.NoWrap) ∧ ∀ k, s.store.versions k <+: s'.store.versions k := by
  refine run_monotone (P := fun _ => True)
    (R := fun s s' : State Phase => (s'.store.NoWrap → s.store.NoWrap) ∧
      ∀ k, s.store.versions k <+: s'.store.versions k)
    (fun _ _ => trivial) (fun s => ⟨id, fun k => List.prefix_rfl⟩)
    (fun h h' => ⟨fun hwrap => h.1 (h'.1 hwrap), fun k => (h.2 k).trans (h'.2 k)⟩)
    (fun _ hnext => ?_) trivial hrun
  obtain ⟨o, a, heq⟩ := (Party.effect hnext).access
  rw [heq]
  exact ⟨fun hwrap => hwrap.of_grows (Store.grows_access _ o o a),
    fun k => Store.versions_access _ o a k⟩

theorem room_of_lt {e : EpochNumber} (h : e < kEpochHighWater) : e.toNat + 1 < 2 ^ 32 := by
  rw [UInt32.lt_iff_toNat_lt] at h
  have hhigh : kEpochHighWater.toNat = 4293918719 := rfl
  omega

/-! ## Contracts -/

/-- What a kind of party has to bring along: an assertion about the party `t` that
its own steps keep and everybody else's accesses leave alone. -/
structure Contract (p : Party Phase Choice) where
  inv : Store → ℕ → Phase → Prop
  start : ∀ {s t}, s.stamp (.tx t) = none → inv s t p.start
  rely : ∀ {s s' t phase}, StoreInv s → inv s t phase → Rely (.tx t) s s' → inv s' t phase
  step : ∀ {s t phase choice a phase' candidates}, StoreInv s → inv s t phase →
    p.step s t phase choice = some (a, phase', candidates) →
    a.Permitted s (.tx t) ∧ inv (s.access (.tx t) a) t phase' ∧
      ∀ c ∈ candidates, CandidateInv (s.access (.tx t) a) c

/-- What holds of the whole system. -/
structure SystemInv (k : Contract p) (s : State Phase) : Prop where
  store : StoreInv s.store
  party : ∀ t, k.inv s.store t (s.phase t)
  reaper : ReaperInv s.store s.candidates s.reaper

theorem storeInv_initial : StoreInv .initial where
  epoch_pos := by decide
  home k i hidx := by cases hidx
  slots k hidx := absurd rfl hidx
  unused i _ := rfl
  bit i := by simp [Store.initial, Item.blank]
  attached k i hidx := by cases hidx
  vacant k _ := ⟨nofun, fun v hv => by cases hv⟩
  detached i _ := ⟨rfl, rfl⟩
  seen_le i := le_rfl
  dirty i hd := by cases hd
  epochs k := List.Pairwise.nil
  ordered _ k := List.Pairwise.nil
  version k v hv := nomatch hv
  published k v hv := nomatch hv
  committing o st hst := by cases hst
  protocol := .of_settled (fun _ => rfl) (fun _ => rfl) (fun _ => rfl) (fun _ _ hst => by cases hst)
    (fun _ _ _ hst => by cases hst) fun _ _ _ hw => by cases hw

theorem systemInv_initial (k : Contract p) : SystemInv k p.initial where
  store := storeInv_initial
  party _ := k.start rfl
  reaper := ⟨rfl, nofun, trivial, nofun⟩

/-- **Every step keeps the invariants of all parties.** -/
theorem SystemInv.step {k : Contract p} (h : SystemInv k s)
    (heffect : Effect p s action s') : SystemInv k s' := by
  cases heffect with
  | @party t choice a phase candidates hstep =>
    obtain ⟨hp, hinv, hcand⟩ := k.step h.store (h.party t) hstep
    refine ⟨h.store.access hp, ?_, ?_⟩
    · intro u
      show k.inv _ u (update s.phase t phase u)
      rw [update_apply]
      split_ifs with hut
      · subst hut
        exact hinv
      · refine k.rely h.store (h.party u) (h.store.rely hp fun heq => hut ?_)
        cases heq
        rfl
    · have hreaper := h.reaper.rely (h.store.rely hp nofun)
      exact ⟨hreaper.stamp, List.forall_mem_append.mpr ⟨hreaper.queue, hcand⟩, hreaper.phase,
        hreaper.only⟩
  | @reap publishedEpoch a reaper candidates hstep =>
    obtain ⟨hp, hreaper⟩ := h.reaper.step h.store hstep
    refine ⟨h.store.access hp, fun t => ?_, hreaper⟩
    exact k.rely h.store (h.party t) (h.store.rely hp nofun)
  | advanceEpoch hbelow =>
    have hroom := room_of_lt hbelow
    -- nobody's own access: the epoch's thread is not one of the parties
    have hrely : ∀ o, Rely o s.store s.store.advanceEpoch := fun o =>
      { toGrows := s.store.grows_access o .reaper .advanceEpoch
        toSteady := h.store.steady (o := .reaper) (a := .advanceEpoch) hroom
        held := fun _ _ => ⟨rfl, id⟩
        holder := fun _ => id
        stamp := rfl
        commitEpoch := rfl
        kept := fun _ _ => id
        own := fun _ _ _ hv _ => hv }
    refine ⟨h.store.advanceEpoch hroom, fun t => ?_, ?_⟩
    · exact k.rely h.store (h.party t) (hrely (.tx t))
    · exact h.reaper.rely (hrely .reaper)

variable {start : State Phase} {G : State Phase → Action Choice → Prop} {q : Slot × ℕ} {t : ℕ}
  {F : Phase → Prop}

/-- **The invariants hold in every reached state**, and with them whatever the steps
that meet a condition preserve. -/
theorem Contract.reached (k : Contract p) {P : State Phase → Prop} (hstart : SystemInv k start)
    (hinit : P start)
    (hstep : ∀ {s action s'}, SystemInv k s → P s → G s action → Effect p s action s' → P s')
    (hG : Along p.next G start actions) (hrun : run p.next start actions = some s) :
    SystemInv k s ∧ P s := by
  have hboth : ∀ {s action s'}, SystemInv k s ∧ P s → G s action → p.next s action = some s' →
      SystemInv k s' ∧ P s' := by
    rintro s action s' ⟨hsystem, hP⟩ hG hnext
    have heffect := Party.effect hnext
    exact ⟨hsystem.step heffect, hstep hsystem hP hG heffect⟩
  exact Along.invariant (P := fun s => SystemInv k s ∧ P s) hboth ⟨hstart, hinit⟩ hG hrun

theorem Contract.invariant (k : Contract p)
    (hrun : run p.next p.initial actions = some s) : SystemInv k s :=
  run_invariant (fun hsystem hnext => .step hsystem (Party.effect hnext)) (systemInv_initial k) hrun

/-- **What every party can assert.** A property of the store that everybody keeps, and an
assertion about each party that its own steps keep under a condition and that the others'
accesses leave alone, hold in every reached state. -/
theorem Contract.asserted (k : Contract p) {S : Store → Prop} {Q : Store → ℕ → Phase → Prop}
    (hinitial : S .initial) (hstart : ∀ t, Q .initial t p.start)
    (hquiet : ∀ {s a}, StoreInv s → S s → a.Permitted s .reaper → a.Quiet → S (s.access .reaper a))
    (hrely : ∀ {s s' t phase}, StoreInv s → StoreInv s' → k.inv s t phase → Q s t phase →
      Rely (.tx t) s s' → Q s' t phase)
    (hstep : ∀ {s : State Phase} {t choice a phase' candidates}, SystemInv k s → S s.store →
      Q s.store t (s.phase t) → G s (.party t choice) →
      p.step s.store t (s.phase t) choice = some (a, phase', candidates) →
      S (s.store.access (.tx t) a) ∧ Q (s.store.access (.tx t) a) t phase')
    (hG : Along p.next G p.initial actions) (hrun : run p.next p.initial actions = some s) :
    SystemInv k s ∧ S s.store ∧ ∀ t, Q s.store t (s.phase t) := by
  refine k.reached (P := fun s => S s.store ∧ ∀ t, Q s.store t (s.phase t)) (systemInv_initial k)
    ⟨hinitial, hstart⟩ ?_ hG hrun
  rintro s action s' hinv ⟨hS, hQ⟩ hcond heffect
  have hinv' := hinv.step heffect
  cases heffect with
  | @party t choice a phase candidates hparty =>
    obtain ⟨hp, -, -⟩ := k.step hinv.store (hinv.party t) hparty
    obtain ⟨hS', hQ'⟩ := hstep hinv hS (hQ t) hcond hparty
    refine ⟨hS', fun u => ?_⟩
    show Q _ u (update s.phase t phase u)
    rw [update_apply]
    split_ifs with hut
    · subst hut
      exact hQ'
    · refine hrely hinv.store hinv'.store (hinv.party u) (hQ u)
        (hinv.store.rely hp fun heq => hut ?_)
      cases heq
      rfl
  | @reap publishedEpoch a reaper candidates hreap =>
    obtain ⟨hp, -⟩ := hinv.reaper.step hinv.store hreap
    refine ⟨hquiet hinv.store hS hp (reaperStep_quiet hreap), fun t => ?_⟩
    exact hrely hinv.store hinv'.store (hinv.party t) (hQ t) (hinv.store.rely hp nofun)
  | advanceEpoch hbelow =>
    have hp : Access.advanceEpoch.Permitted s.store .reaper := room_of_lt hbelow
    refine ⟨hquiet hinv.store hS hp trivial, fun t => ?_⟩
    exact hrely hinv.store hinv'.store (hinv.party t) (hQ t) (hinv.store.rely hp nofun)

/-! ## Reads nobody registers -/

/-- Whoever else makes the slot live behind the position is serialized behind the party. -/
abbrev Store.Ahead (s : Store) (t : ℕ) (q : Slot × ℕ) : Prop :=
  Optimistic.Ahead s.abs (fun v => v.content.initializedAt q.1 = true) (.tx t) q

/-- One committer has made a slot live behind the position at which another one saw it. -/
def Store.Revives (s : Store) (seen : Owner → Set (Slot × ℕ)) (a b : Owner) : Prop :=
  ∃ q ∈ seen a, ∃ i v, q.2 ≤ i ∧ (s.versions q.1)[i]? = some (b, v) ∧
    v.content.initializedAt q.1 = true

/-- Nobody has made the slot live since the position, and nobody else holds its lock who is
serialized before the party. -/
def Store.Unmoved (s : Store) (t : ℕ) (q : Slot × ℕ) : Prop :=
  (∀ v ∈ (s.versions q.1).drop q.2, v.2.content.initializedAt q.1 = false) ∧
    ∀ o ∈ s.abs.lock q.1, o = .tx t ∨ ∀ so ∈ s.stamp o, ∃ st ∈ s.stamp (.tx t), st < so

instance (s : Store) (t : ℕ) (q : Slot × ℕ) : Decidable (s.Unmoved t q) :=
  inferInstanceAs (Decidable (_ ∧ _))

theorem Store.Unmoved.not_live {s : Store} {t i : ℕ} {v : Owner × Version} (h : s.Unmoved t q)
    (hi : q.2 ≤ i) (hv : (s.versions q.1)[i]? = some v) :
    v.2.content.initializedAt q.1 = false := by
  refine h.1 v (List.mem_of_getElem? (i := i - q.2) ?_)
  rw [List.getElem?_drop, Nat.add_sub_cancel' hi]
  exact hv

/-- A party that has its stamp. -/
theorem Store.Unmoved.ahead {s : Store} (h : s.Unmoved t q) (hstamp : s.stamp (.tx t) ≠ none) :
    s.Ahead t q := by
  refine ⟨Option.ne_none_iff_exists'.mp hstamp, fun i u v hi hv hlive => ?_, fun o ho => ?_⟩
  · rw [h.not_live hi hv] at hlive
    cases hlive
  · refine (h.2 o ho).imp_right fun hlater => ?_
    cases hso : s.stamp o with
    | none => exact .inl hso
    | some so =>
      obtain ⟨st, hst, hlt⟩ := hlater so hso
      exact .inr ⟨st, so, hst, hso, hlt⟩

/-- A party that takes its stamp. -/
theorem Store.Unmoved.serialize {s : Store} (h : s.Unmoved t q) (hstamp : s.stamp (.tx t) = none) :
    (s.access (.tx t) .serialize).Ahead t q := by
  refine ⟨⟨s.clock, update_self ..⟩, fun i u v hi hv hlive => ?_, fun o ho => ?_⟩
  · rw [h.not_live hi hv] at hlive
    cases hlive
  · by_cases howner : o = .tx t
    · exact .inl howner
    · refine .inr (.inl ((update_of_ne howner ..).trans ?_))
      rcases h.2 o ho with heq | hlater
      · exact absurd heq howner
      · -- the party had no stamp to be later than
        cases hso : s.stamp o with
        | none => rfl
        | some so =>
          obtain ⟨st, hst, -⟩ := hlater so hso
          rw [hstamp] at hst
          cases hst

/-- **What nobody registers.** Slots a party has to be ahead of, which its own steps see to
under a condition, it is ahead of to the end of the run. -/
theorem Contract.ahead (k : Contract p) (awaits : Phase → Set (Slot × ℕ))
    (hstart : awaits p.start = ∅)
    (hstep : ∀ {s : State Phase} {t choice a phase' candidates}, SystemInv k s →
      G s (.party t choice) →
      p.step s.store t (s.phase t) choice = some (a, phase', candidates) →
      ∀ q ∈ awaits phase', q ∈ awaits (s.phase t) ∨ s.store.Ahead t q ∨
        (s.store.access (.tx t) a).Ahead t q) (hG : Along p.next G p.initial actions)
    (hrun : run p.next p.initial actions = some s) (t : ℕ) :
    ∀ q ∈ awaits (s.phase t), s.store.Ahead t q := by
  have kept : ∀ {s : Store} {o : Owner} {a : Access} {t : ℕ} {q : Slot × ℕ}, StoreInv s →
      a.Permitted s o → s.Ahead t q → (s.access o a).Ahead t q := by
    intro s o a t q hstore hp h
    rcases hstore.refines hp with heq | hmove
    · unfold Store.Ahead
      rw [heq]
      exact h
    · exact h.step hstore.protocol hmove
  refine (k.reached (P := fun s => ∀ t, ∀ q ∈ awaits (s.phase t), s.store.Ahead t q)
    (systemInv_initial k) (fun t q hq => ?_) ?_ hG hrun).2 t
  · rw [show awaits (p.initial.phase t) = ∅ from hstart] at hq
    exact hq.elim
  rintro s action s' hinv hahead hcond heffect u q hq
  cases heffect with
  | @party t choice a phase candidates hparty =>
    obtain ⟨hp, -, -⟩ := k.step hinv.store (hinv.party t) hparty
    dsimp only at hq
    rw [update_apply] at hq
    split_ifs at hq with hut
    · subst hut
      rcases hstep hinv hcond hparty q hq with hold | hnow | hthen
      · exact kept hinv.store hp (hahead u q hold)
      · exact kept hinv.store hp hnow
      · exact hthen
    · exact kept hinv.store hp (hahead u q hq)
  | reap hreap => exact kept hinv.store (hinv.reaper.step hinv.store hreap).1 (hahead u q hq)
  | advanceEpoch hbelow =>
    exact kept (o := .reaper) hinv.store (room_of_lt hbelow) (hahead u q hq)

/-- **What a party's own steps keep** under a condition stays, whoever else moves. -/
theorem Party.phase_along
    (hstep : ∀ {s : State Phase} {choice a phase' candidates}, F (s.phase t) →
      G s (.party t choice) →
      p.step s.store t (s.phase t) choice = some (a, phase', candidates) → F phase')
    (h : F (start.phase t)) (hG : Along p.next G start actions)
    (hrun : run p.next start actions = some s) : F (s.phase t) := by
  refine Along.invariant (P := fun s => F (s.phase t)) ?_ h hG hrun
  intro s action s' hs hG hnext
  cases Party.effect hnext with
  | @party u choice a phase candidates hparty =>
    show F (update s.phase u phase t)
    rw [update_apply]
    split_ifs with htu
    · subst htu
      exact hstep hs hG hparty
    · exact hs
  | reap | advanceEpoch => exact hs

theorem Party.phase_invariant
    (hstep : ∀ {s phase choice a phase' candidates}, F phase →
      p.step s t phase choice = some (a, phase', candidates) → F phase') (h : F (start.phase t))
    (hrun : run p.next start actions = some s) : F (s.phase t) :=
  Party.phase_along (G := fun _ _ => True) (fun h _ => hstep h) h
    (.of_forall (fun _ _ => trivial) _ _) hrun

/-- **What a party's call brings about and its own steps keep** holds to the end of the
run. -/
theorem Party.phase_from {choice : Choice} {earlier later : List (Action Choice)}
    (hcall : ∀ {m a phase candidates}, run p.next start earlier = some m →
      p.step m.store t (m.phase t) choice = some (a, phase, candidates) → F phase)
    (hstep : ∀ {s phase choice a phase' candidates}, F phase →
      p.step s t phase choice = some (a, phase', candidates) → F phase')
    (hrun : run p.next start (earlier ++ .party t choice :: later) = some s) : F (s.phase t) := by
  obtain ⟨m, hm, hrest⟩ := run_append.mp hrun
  obtain ⟨m', hnext, hlater⟩ := run_cons.mp hrest
  refine Party.phase_invariant hstep ?_ hlater
  cases Party.effect hnext with
  | party hparty =>
    show F (update m.phase t _ t)
    rw [update_self]
    exact hcall hm hparty

/-- What the action says the party does. -/
def Action.choiceOf (t : ℕ) : Action Choice → Option Choice
  | .party u choice => if u = t then some choice else none
  | _ => none

/-- What a party has done, in order. -/
def choicesOf (t : ℕ) (actions : List (Action Choice)) : List Choice :=
  actions.filterMap (Action.choiceOf t)

/-- **What a party has done and where it stands**: a relation between the two that its own
steps keep. -/
theorem Party.phase_history {F : List Choice → Phase → Prop} (hstart : F [] p.start)
    (hstep : ∀ {s choices phase choice a phase' candidates}, F choices phase →
      p.step s t phase choice = some (a, phase', candidates) → F (choices ++ [choice]) phase')
    (hrun : run p.next p.initial actions = some s) : F (choicesOf t actions) (s.phase t) := by
  induction actions using List.reverseRecOn generalizing s with
  | nil =>
    cases hrun
    exact hstart
  | append_singleton actions action ih =>
    obtain ⟨m, hm, hlast⟩ := run_append.mp hrun
    obtain ⟨m', hnext, hnil⟩ := run_cons.mp hlast
    cases hnil
    have hold := ih hm
    unfold choicesOf at hold ⊢
    rw [List.filterMap_append]
    cases Party.effect hnext with
    | @party u choice a phase candidates hparty =>
      show F _ (update m.phase u phase t)
      by_cases htu : u = t
      · subst htu
        rw [update_self]
        have hchoice : [Action.party u choice].filterMap (Action.choiceOf u) = [choice] := by
          simp [Action.choiceOf]
        rw [hchoice]
        exact hstep hold hparty
      · rw [update_of_ne (Ne.symm htu)]
        have hchoice : [Action.party u choice].filterMap (Action.choiceOf t) = [] := by
          simp [Action.choiceOf, htu]
        rw [hchoice, List.append_nil]
        exact hold
    | reap =>
      rw [show [Action.reap _].filterMap (Action.choiceOf t) = ([] : List Choice) from rfl,
        List.append_nil]
      exact hold
    | advanceEpoch =>
      rw [show [Action.advanceEpoch].filterMap (Action.choiceOf t) = ([] : List Choice) from rfl,
        List.append_nil]
      exact hold

/-- **Whoever has published a version has made up its mind**, when making it up
comes before publishing and is for good. -/
theorem writer_decided (decided : Phase → Prop) (hkeep : ∀ {s t phase choice a phase' candidates},
      p.step s t phase choice = some (a, phase', candidates) → decided phase → decided phase')
    (hpublish : ∀ {s t phase choice i word phase' candidates},
      p.step s t phase choice = some (.publish i word, phase', candidates) → decided phase')
    (hrun : run p.next p.initial actions = some s) :
    ∀ k, ∀ v ∈ s.store.versions k, ∃ t, v.1 = .tx t ∧ decided (s.phase t) := by
  refine run_invariant
    (P := fun s => ∀ k, ∀ v ∈ s.store.versions k, ∃ t, v.1 = .tx t ∧ decided (s.phase t)) ?_ ?_ hrun
  · intro s action s' hinv hnext k v hv
    cases Party.effect hnext with
    | @party t choice a phase candidates hstep =>
      show ∃ u, v.1 = .tx u ∧ decided (update s.phase t phase u)
      rcases Store.mem_versions_access hv with hv | ⟨hwriter, i, word, rfl⟩
      · obtain ⟨u, hwriter, hdecided⟩ := hinv k v hv
        refine ⟨u, hwriter, ?_⟩
        rw [update_apply]
        split_ifs with hut
        · subst hut
          exact hkeep hstep hdecided
        · exact hdecided
      · refine ⟨t, hwriter, ?_⟩
        rw [update_self]
        exact hpublish hstep
    | reap hstep =>
      rcases Store.mem_versions_access hv with hv | ⟨-, i, word, rfl⟩
      · exact hinv k v hv
      · exact (reaperStep_quiet hstep).elim
    | advanceEpoch => exact hinv k v hv
  · intro k v hv
    cases hv

end LineairDB.Silo
