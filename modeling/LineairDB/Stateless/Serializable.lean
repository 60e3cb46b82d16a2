import LineairDB.Stateless.Steps

/-!
# Stateless commits are serializable

A request that has begun to publish can only return true. The conflicts between
such requests follow the order in which they re-joined the epoch with their
locks held, so the found reads of any number of requests are serializable,
whatever the interleaving with each other and with the reaper.

* `found_reads_serializable` — no cycle of conflicts, and every value a found
  read returned is the whole payload of one committed version.
* `absent_reads_serializable`, `absent_reads_skew` — what holds of reads that found
  nothing: a blank slot is accepted whoever has locked it.
-/

namespace LineairDB.Stateless

open Silo ByteFile Transition

variable {r r' : Request} {c : Commit} {choice : Choice} {candidates : List Candidate}

/-! ## Committed requests -/

/-- The commit of a request that returned true or can do nothing else any more. -/
def Stage.decided : Stage → Option Commit
  | .committed c => some c
  | .committing c (.unlock _) => some c
  | .committing c (.enqueue _) => some c
  | _ => none

/-- The owner is a request that commits. -/
def Committed (s : State Request) (o : Owner) : Prop :=
  ∃ t c, o = .tx t ∧ (s.phase t).stage.decided = some c

/-- The found point reads a committed request handed in. -/
def foundReads (s : State Request) (o : Owner) : Set (Slot × ℕ) :=
  {q | ∃ t c r, o = .tx t ∧ (s.phase t).stage.decided = some c ∧ r ∈ c.reads ∧
    r.found = true ∧ q = (r.slot, r.position)}

/-- The direct conflicts of the committed requests over the rows and entries they
wrote and the rows they found. -/
abbrev Conflict (s : State Request) : Owner → Owner → Prop :=
  Optimistic.Conflict s.store.abs (Committed s) (foundReads s)

/-! ## What a commit rests on -/

variable {schema : Schema} {s : Store} {t : ℕ} {read : Observation}

/-- Where a request is once it has decided. -/
theorem decided_cases (h : r.stage.decided = some c) : ∃ observations,
    r = ⟨observations, .committed c⟩ ∨
      (∃ todo, r = ⟨observations, .committing c (.unlock todo)⟩) ∨
      ∃ todo, r = ⟨observations, .committing c (.enqueue todo)⟩ := by
  obtain ⟨observations, stage⟩ := r
  refine ⟨observations, ?_⟩
  cases stage with
  | committed =>
    cases h
    exact .inl rfl
  | committing c' pc =>
    cases pc with
    | unlock todo =>
      cases h
      exact .inr (.inl ⟨todo, rfl⟩)
    | enqueue todo =>
      cases h
      exact .inr (.inr ⟨todo, rfl⟩)
    | _ => cases h
  | _ => cases h

/-- **What a committed request read is where it was.** -/
theorem RequestInv.confirmed (h : RequestInv s t r) (hdecided : r.stage.decided = some c) :
    c.reads ⊆ r.observations ∧ Confirmed s t c := by
  obtain ⟨-, hstage⟩ := h
  obtain ⟨observations, rfl | ⟨todo, rfl⟩ | ⟨todo, rfl⟩⟩ := decided_cases hdecided
  · exact hstage
  · exact ⟨hstage.1.reads, hstage.2.2.1⟩
  · exact ⟨hstage.1.reads, hstage.2.1⟩

theorem foundReads_fixed {s : State Request} (h : SystemInv (contract schema) s)
    (hwrap : s.store.NoWrap) {o : Owner} (q : Slot × ℕ) (hq : q ∈ foundReads s o) :
    q ∈ s.store.observed o ∧ q ∈ s.store.fixed o := by
  obtain ⟨t, c, r, rfl, hdecided, hr, hfound, rfl⟩ := hq
  have hparty : RequestInv s.store t (s.phase t) := h.party t
  obtain ⟨hsub, hconfirmed⟩ := hparty.confirmed hdecided
  exact ⟨(hparty.observation r (hsub hr)).observed, hconfirmed r hr hfound hwrap⟩

/-! ## Only committed requests publish -/

theorem decided_of_publish {i : ItemId} {word : TransactionId}
    (h : step schema s t r choice = some (.publish i word, r', candidates)) :
    ∃ c, r'.stage.decided = some c := by
  cases step_cases h with
  | read _ ha => exact ha.elim
  | commit hmove =>
    cases hmove with
    | unlock => exact ⟨_, rfl⟩
    | duplicate hget | resolveWrite _ hget | resolveOp _ hget =>
      exact (getOrInsert_collecting hget).elim

/-- A decision is for good. -/
theorem decided_keeps {a : Access} (h : step schema s t r choice = some (a, r', candidates))
    (hdecided : ∃ c, r.stage.decided = some c) : ∃ c, r'.stage.decided = some c := by
  obtain ⟨c, hdecided⟩ := hdecided
  obtain ⟨observations, rfl | ⟨todo, rfl⟩ | ⟨todo, rfl⟩⟩ := decided_cases hdecided
  · cases choice <;> cases h
  all_goals
    cases choice with
    | next =>
      simp only [step, Option.some.injEq, Prod.mk.injEq] at h
      rw [← h.2.1]
      cases todo <;> exact ⟨_, rfl⟩
    | _ => cases h

/-! ## Serializability -/

/-- **Found point reads are serializable.** In every run of any number of requests,
the reaper and the epoch, in which no sequence number is used up, the direct
conflicts of the committed requests have no cycle, and every value a found read
returned is the payload of one version a committed request published. -/
theorem found_reads_serializable {actions : List (Action Choice)} {s : State Request}
    (hrun : run (client schema).next (client schema).initial actions = some s)
    (hwrap : s.store.NoWrap) :
    (∀ o, ¬ Relation.TransGen (Conflict s) o o) ∧
      ∀ t, ∀ r ∈ (s.phase t).observations, r.found = true →
        ∃ n v, r.position = n + 1 ∧ (s.store.versions r.slot)[n]? = some v ∧
          v.2.tid = r.tid ∧ v.2.content.buffer = r.value ∧ Committed s v.1 := by
  have hinv : SystemInv (contract schema) s := (contract schema).invariant hrun
  refine ⟨Optimistic.acyclic_of_stamps (s := s.store.abs) fun a b hab => ?_,
    fun t r hr hfound => ?_⟩
  · exact hinv.store.protocol.stamp_lt_of_conflict
      (fun o _ q hq => foundReads_fixed hinv hwrap q hq) hab
  · have hparty : RequestInv s.store t (s.phase t) := hinv.party t
    obtain ⟨n, v, hpos, hv, htid, hvalue⟩ := (hparty.observation r hr).version hfound hwrap
    refine ⟨n, v, hpos, hv, htid, hvalue, ?_⟩
    obtain ⟨u, hwriter, c, hdecided⟩ := writer_decided (p := client schema)
      (fun r => ∃ c, r.stage.decided = some c) decided_keeps decided_of_publish hrun
      r.slot v (List.mem_of_getElem? hv)
    exact ⟨u, c, hwriter, hdecided⟩

/-! ## A run -/

/-- The request `t` makes `n` steps. -/
def nexts (t n : ℕ) : List (Action Choice) := List.replicate n (.party t (.next 0))

/-- A request inserts a row; another one reads it before the first has returned, and
overwrites it. -/
def overwriteRun : List (Action Choice) :=
  [.party 0 (.submit [] [⟨[1], [1], [7], false, true⟩] [] [])] ++ nexts 0 17 ++
  [.party 1 (.read [1] [1])] ++ nexts 1 6 ++
  [.party 1 (.submit [⟨[1], [1], true, [7], ⟨1, 2⟩, 1⟩] [⟨[1], [1], [8], false, false⟩] [] [])] ++
  nexts 0 1 ++ nexts 1 22

/-- The state the run ends in. -/
def overwriteState : State Request :=
  (run (client oneTable).next (client oneTable).initial overwriteRun).get (by decide +kernel)

theorem found_reads_serializable_overwrite :
    run (client oneTable).next (client oneTable).initial overwriteRun = some overwriteState ∧
      overwriteState.store.NoWrap ∧
      (overwriteState.phase 1).stage.decided.map Commit.reads
        = some [⟨[1], [1], true, [7], ⟨1, 2⟩, 1⟩] ∧
      (∀ o, ¬ Relation.TransGen (Conflict overwriteState) o o) ∧
      ∃ v, (overwriteState.store.versions (.row [1] [1]))[0]? = some v ∧
        v.2.content.buffer = [7] ∧ Committed overwriteState v.1 := by
  have hrun : run (client oneTable).next (client oneTable).initial overwriteRun
      = some overwriteState := (Option.some_get _).symm
  have hwrap : overwriteState.store.NoWrap := by decide +kernel
  have hread : (overwriteState.phase 1).observations = [⟨[1], [1], true, [7], ⟨1, 2⟩, 1⟩] := by
    decide +kernel
  obtain ⟨hacyclic, hvalues⟩ := found_reads_serializable hrun hwrap
  obtain ⟨n, v, hpos, hv, -, hvalue, hcommitted⟩ :=
    hvalues 1 ⟨[1], [1], true, [7], ⟨1, 2⟩, 1⟩ (by rw [hread]; exact List.mem_singleton.mpr rfl) rfl
  cases hpos
  exact ⟨hrun, hwrap, by decide +kernel, hacyclic, v, hv, hvalue, hcommitted⟩

/-! ## Keys that were not there -/

/-- The point reads Phase 2.1 has still to go through. -/
def Pc.unread (c : Commit) : Pc → List Observation
  | .exactRead todo => todo
  | .exactAbsent _ read todo | .exactWord _ _ read todo | .exactLive _ read todo => read :: todo
  | .ranges _ | .inserts _ | .unique | .installRows _ | .installSecondary _ | .unlock _
  | .enqueue _ => []
  | _ => c.validationEntries

/-- The point reads Phase 2.1 has accepted. -/
def Stage.accepted : Stage → Set Observation
  | .committing c pc => {read | ∃ done, c.validationEntries = done ++ pc.unread c ∧ read ∈ done}
  | .committed c => {read | read ∈ c.validationEntries}
  | _ => ∅

/-- The point read the next step of Phase 2.1 accepts. -/
def Stage.accepts (s : Store) : Stage → Option Observation
  | .committing _ (.exactRead (read :: _)) =>
    if s.index read.slot = none ∧ read.found = false then some read else none
  | .committing _ (.exactAbsent item read _) =>
    if (s.item item).content.isPrimaryInitialized then none else some read
  | .committing _ (.exactLive item read _) =>
    if (s.item item).content.isPrimaryInitialized then some read else none
  | _ => none

/-- Nothing is accepted while everything is still to be gone through. -/
theorem not_accepted {entries : List Observation} :
    ¬ ∃ done, entries = done ++ entries ∧ read ∈ done := by
  rintro ⟨done, heq, hmem⟩
  rw [List.self_eq_append_left.mp heq] at hmem
  cases hmem

/-- One more read is through. -/
theorem accepted_cons {entries todo : List Observation} {read other : Observation}
    (hentries : ∃ done, entries = done ++ other :: todo)
    (h : ∃ done, entries = done ++ todo ∧ read ∈ done) :
    (∃ done, entries = done ++ other :: todo ∧ read ∈ done) ∨ other = read := by
  obtain ⟨done, rfl⟩ := hentries
  obtain ⟨done', heq, hmem⟩ := h
  rw [List.append_cons] at heq
  rw [← List.append_cancel_right heq] at hmem
  rcases List.mem_append.mp hmem with hmem | hmem
  · exact .inl ⟨done, rfl, hmem⟩
  · exact .inr (List.mem_singleton.mp hmem).symm

/-- The read has been accepted before, or the next step accepts it. -/
def AcceptedBy (read : Observation) (s : Store) (c : Commit) (pc : Pc) : Prop :=
  read ∈ (Stage.committing c pc).accepted ∨ (Stage.committing c pc).accepts s = some read

/-- A read that has been accepted was so before, or is by this step of the commit. -/
theorem accepted_commit {pc : Pc} {x : Access × Stage × List Candidate} (hpc : PcInv s t c pc)
    (hmove : CommitMove schema s t c pc x) (h : read ∈ x.2.1.accepted) :
    AcceptedBy read s c pc := by
  have pending : ∀ {todo}, Validated s t c todo → ∃ done, c.validationEntries = done ++ todo :=
    fun h => ⟨_, h.2.choose_spec.1⟩
  cases hmove with
  | refuse | duplicate | aborted => exact h.elim
  | noSlot hindex hfound =>
    refine (accepted_cons (pending hpc.2) h).imp_right fun heq => ?_
    rw [← heq]
    simp [Stage.accepts, hindex, hfound]
  | absent hdead =>
    refine (accepted_cons (pending hpc.2.1) h).imp_right fun heq => ?_
    rw [← heq]
    simp [Stage.accepts, hdead]
  | live hlive =>
    refine (accepted_cons (pending hpc.2.1) h).imp_right fun heq => ?_
    rw [← heq]
    simp [Stage.accepts, hlive]
  | committed => exact .inl ⟨c.validationEntries, (List.append_nil _).symm, h⟩
  | resolveRead | readsResolved | resolveWrite | writesResolved | resolveOp | opsResolved
  | spin | lock | attached | detached | locked | abort | release | skip =>
    exact absurd h not_accepted
  | _ => exact .inl h

/-- **What Phase 2.1 accepts**, it accepts one read at a time. -/
theorem accepted_step {x : Access × Request × List Candidate} (hinv : RequestInv s t r)
    (hstep : step schema s t r choice = some x) (h : read ∈ x.2.1.stage.accepted) :
    read ∈ r.stage.accepted ∨ r.stage.accepts s = some read := by
  cases step_cases hstep with
  | read | reading | refuse => exact h.elim
  | submit => exact absurd h not_accepted
  | commit hmove => exact accepted_commit hinv.stage.2 hmove h

/-- The keys a committed request handed in as absent, of tables that exist. -/
def absentReads (s : State Request) (o : Owner) : Set (Slot × ℕ) :=
  {q | ∃ t c read, o = .tx t ∧ (s.phase t).stage.decided = some c ∧
    read ∈ c.validationEntries ∧ read.found = false ∧ q = (read.slot, read.position)}

/-- The direct conflicts of the committed requests, and those between a request and the
later inserters of a key it saw absent. -/
def AbsentConflict (s : State Request) (a b : Owner) : Prop :=
  Conflict s a b ∨
    Committed s a ∧ Committed s b ∧ a ≠ b ∧ s.store.Revives (absentReads s) a b

/-- When a step of Phase 2.1 accepts a key as absent, nobody has made it live since it was
read, and no other request has its slot locked that has passed Phase 1.2 before. -/
def AcceptsUnmoved (s : State Request) : Action Choice → Prop
  | .party t _ => ∀ read ∈ (s.phase t).stage.accepts s.store, read.found = false →
      s.store.Unmoved t (read.slot, read.position)
  | .reap _ | .advanceEpoch => True

instance (s : State Request) (action : Action Choice) : Decidable (AcceptsUnmoved s action) :=
  match action with
  | .party t _ => inferInstanceAs (Decidable (∀ read ∈ (s.phase t).stage.accepts s.store, _))
  | .reap _ => .isTrue trivial
  | .advanceEpoch => .isTrue trivial

theorem stamped_of_accepts (hinv : RequestInv s t r) (h : r.stage.accepts s = some read) :
    s.stamp (.tx t) ≠ none := by
  obtain ⟨observations, stage⟩ := r
  cases stage with
  | committing c pc =>
    cases pc with
    | exactRead | exactAbsent | exactLive => exact hinv.stage.2.1.stamp
    | _ => cases h
  | _ => cases h

/-- **Absent reads are serializable** along with the found ones: in every run of any number
of requests, the reaper and the epoch, in which no sequence number is used up and every key
Phase 2.1 accepts as absent is unmoved when it does, the conflicts have no cycle. -/
theorem absent_reads_serializable {actions : List (Action Choice)} {s : State Request}
    (hrun : run (client schema).next (client schema).initial actions = some s)
    (hunmoved : Along (client schema).next AcceptsUnmoved (client schema).initial actions)
    (hwrap : s.store.NoWrap) (o : Owner) : ¬ Relation.TransGen (AbsentConflict s) o o := by
  have hinv : SystemInv (contract schema) s := (contract schema).invariant hrun
  refine Optimistic.acyclic_of_stamps (s := s.store.abs) (fun a b hab => ?_) o
  rcases hab with hconflict | ⟨-, -, hne, q, ⟨t, c, read, rfl, hdecided, hread, hfound, rfl⟩, i, v,
    hi, hv, hlive⟩
  · exact hinv.store.protocol.stamp_lt_of_conflict
      (fun o _ q hq => foundReads_fixed hinv hwrap q hq) hconflict
  · have hahead := (contract schema).ahead (fun r : Request => {q | ∃ read,
      read ∈ r.stage.accepted ∧ read.found = false ∧ q = (read.slot, read.position)})
      (Set.eq_empty_of_forall_notMem fun q hq => hq.choose_spec.1) ?_ hunmoved hrun t
      (read.slot, read.position) ⟨read, ?_, hfound, rfl⟩
    · exact (hahead.writer i b v hi hv hlive).resolve_left hne.symm
    · rintro s t choice a r' candidates hinv hcond hstep _ ⟨read, hread, hfound, rfl⟩
      rcases accepted_step (hinv.party t) hstep hread with hold | hnow
      · exact .inl ⟨read, hold, hfound, rfl⟩
      · exact .inr (.inl ((hcond read hnow hfound).ahead (stamped_of_accepts (hinv.party t) hnow)))
    · have haccepted : ∃ done, c.validationEntries = done ++ [] ∧ read ∈ done :=
        ⟨c.validationEntries, (List.append_nil _).symm, hread⟩
      obtain ⟨observations, hr | ⟨todo, hr⟩ | ⟨todo, hr⟩⟩ := decided_cases hdecided <;> rw [hr]
      · exact hread
      · exact haccepted
      · exact haccepted

/-- Two requests insert a row each, and validate before either installs; the first has read
the row of the second, and the second the row `key`. -/
def absentRun (key : Bytes) : List (Action Choice) :=
  [.party 0 (.read [1] [2]), .party 1 (.read [1] key),
    .party 0 (.submit [⟨[1], [2], false, [], .empty, 0⟩] [⟨[1], [1], [7], false, true⟩] [] []),
    .party 1 (.submit [⟨[1], key, false, [], .empty, 0⟩] [⟨[1], [2], [8], false, true⟩] [] [])] ++
  nexts 0 8 ++ nexts 1 11 ++ nexts 0 13 ++ nexts 1 10

/-- The state the run ends in, when the second request reads its own row or that of the
first. -/
def absentState (own : Bool) : State Request :=
  (run (client oneTable).next (client oneTable).initial
    (absentRun (if own then [2] else [1]))).get (by cases own <;> decide +kernel)

theorem absentState_run (own : Bool) : run (client oneTable).next (client oneTable).initial
    (absentRun (if own then [2] else [1])) = some (absentState own) :=
  (Option.some_get _).symm

/-- Whoever inserts a key that was handed in as absent conflicts with the request. -/
theorem absentConflict_of_reads {s : State Request} {t u : ℕ} (read : Observation)
    (ht : (s.phase t).stage.decided.map Commit.validationEntries = some [read])
    (hu : (s.phase u).stage.decided.isSome = true) (hne : t ≠ u) (hfound : read.found = false)
    (hv : ((s.store.versions read.slot)[read.position]?).map
      (fun v => (v.1, v.2.content.initializedAt read.slot)) = some (.tx u, true)) :
    AbsentConflict s (.tx t) (.tx u) := by
  obtain ⟨c, hc, hreads⟩ := Option.map_eq_some_iff.mp ht
  obtain ⟨⟨o, v⟩, hv, howner⟩ := Option.map_eq_some_iff.mp hv
  obtain ⟨rfl, hlive⟩ := Prod.mk.inj howner
  obtain ⟨c', hc'⟩ := Option.isSome_iff_exists.mp hu
  refine .inr ⟨⟨t, c, rfl, hc⟩, ⟨u, c', rfl, hc'⟩, fun heq => hne (Owner.tx.inj heq),
    (read.slot, read.position), ⟨t, c, read, rfl, hc, ?_, hfound, rfl⟩, read.position, v, le_rfl,
    hv, hlive⟩
  rw [hreads]
  exact .head _

theorem absent_reads_serializable_own :
    (absentState true).store.NoWrap ∧ AbsentConflict (absentState true) (.tx 0) (.tx 1) ∧
      ∀ o, ¬ Relation.TransGen (AbsentConflict (absentState true)) o o := by
  have hwrap : (absentState true).store.NoWrap := by decide +kernel
  refine ⟨hwrap, ?_, absent_reads_serializable (absentState_run true) (by decide +kernel) hwrap⟩
  exact absentConflict_of_reads ⟨[1], [2], false, [], .empty, 0⟩ (by decide +kernel)
    (by decide +kernel) zero_ne_one rfl (by decide +kernel)

/-- **Two requests that each insert the key the other has read as absent** both commit: each
validates before the other installs, and the lock on the blank slot is not looked at. -/
theorem absent_reads_skew :
    ∃ s, run (client oneTable).next (client oneTable).initial (absentRun [1]) = some s ∧
      s.store.NoWrap ∧
      (s.phase 0).observations = [⟨[1], [2], false, [], .empty, 0⟩] ∧
      (s.phase 1).observations = [⟨[1], [1], false, [], .empty, 0⟩] ∧
      (s.store.versions (.row [1] [1])).map (fun v => (v.1, v.2.content.buffer)) = [(.tx 0, [7])] ∧
      (s.store.versions (.row [1] [2])).map (fun v => (v.1, v.2.content.buffer)) = [(.tx 1, [8])] ∧
      AbsentConflict s (.tx 0) (.tx 1) ∧ AbsentConflict s (.tx 1) (.tx 0) := by
  refine ⟨absentState false, absentState_run false, by decide +kernel, by decide +kernel,
    by decide +kernel, by decide +kernel, by decide +kernel, ?_, ?_⟩
  · exact absentConflict_of_reads ⟨[1], [2], false, [], .empty, 0⟩ (by decide +kernel)
      (by decide +kernel) zero_ne_one rfl (by decide +kernel)
  · exact absentConflict_of_reads ⟨[1], [1], false, [], .empty, 0⟩ (by decide +kernel)
      (by decide +kernel) one_ne_zero rfl (by decide +kernel)

end LineairDB.Stateless
