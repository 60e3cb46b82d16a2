import LineairDB.Lives.Restart

/-!
# The reaper loses nothing

Passes of the reaper race with native and stateless committers over the same
slots. A slot is taken out of the index only while it is the tombstone it was
registered as, two epochs back; no committer installs into an item its slot does
not lead to; and a pass leaves locks and identifiers of what it does not remove
as they were.

* `reaper_loses_nothing` — in every state of every life.
* `live_candidate_dropped` — a candidate may also be dropped because the commit
  that registered it has left a row behind.
-/

namespace LineairDB.Lives

open Silo Transition
open Stateless (Schema oneTable)
open Function (update_self update_of_ne update update_apply)

variable {schema : Schema} {s s' : State Committer} {action : Action Choice}

/-! ## What leaves the index -/

/-- A slot keeps its item, unless it is unlinked. -/
theorem index_access {s : Store} {o : Owner} {a : Access} {k : Slot} {i : ItemId}
    (hp : a.Permitted s o) (hindex : s.index k = some i) :
    (s.access o a).index k = some i ∨ a = .unlink k ∧ o = .reaper := by
  cases a with
  | insertBlank k' =>
    have hne : k ≠ k' := by
      rintro rfl
      rw [show s.index k = none from hp] at hindex
      cases hindex
    exact .inl ((update_of_ne hne ..).trans hindex)
  | unlink k' =>
    by_cases hk : k = k'
    · exact .inr ⟨by rw [hk], hp.1⟩
    · exact .inl ((update_of_ne hk ..).trans hindex)
  | _ => exact .inl hindex

section

variable (h : SystemInv (contract schema) s)

include h

/-- **What leaves the index is unlinked by a pass**, as the candidate in hand. -/
theorem unlinked_of_next (heffect : Effect (committers schema) s action s') {k : Slot} {i : ItemId}
    (hindex : s.store.index k = some i) (hgone : s'.store.index k ≠ some i) :
    ∃ publishedEpoch pass c, action = .reap publishedEpoch ∧ s.reaper = .working pass c .purge ∧
      c.slot = k := by
  cases heffect with
  | @party t choice a phase candidates hstep =>
    obtain ⟨hp, -⟩ := (contract schema).step h.store (h.party t) hstep
    rcases index_access hp hindex with hkept | ⟨-, howner⟩
    · exact absurd hkept hgone
    · cases howner
  | @reap publishedEpoch a reaper candidates hstep =>
    obtain ⟨hp, -⟩ := h.reaper.step h.store hstep
    rcases index_access hp hindex with hkept | ⟨hunlink, -⟩
    · exact absurd hkept hgone
    · rcases reaperStep_access hstep with rfl | ⟨_, rfl⟩ | ⟨_, _, rfl⟩ | ⟨pass, c, rfl, hreaper⟩
      · cases hunlink
      · cases hunlink
      · cases hunlink
      · cases hunlink
        exact ⟨publishedEpoch, pass, c, rfl, hreaper, rfl⟩
  | advanceEpoch => exact absurd hindex hgone

/-- What a pass knows of a slot it is about to unlink. -/
theorem purge_spec {pass : Pass} {c : Candidate} (hreaper : s.reaper = .working pass c .purge) :
    s.store.index c.slot = some c.item ∧
      (∃ v ∈ s.store.versions c.slot, v.2.tid = c.deleteCommitTid ∧ v.2.item = c.item) ∧
      (s.store.item c.item).word = c.deleteCommitTid.locked ∧
      (s.store.item c.item).content.initializedAt c.slot = false ∧
      c.deleteCommitTid.epoch.toNat + 2 ≤ pass.publishedEpoch.toNat ∧
      pass.publishedEpoch.toNat ≤ s.store.epoch.toNat := by
  have hphase := h.reaper.phase
  rw [hreaper] at hphase
  obtain ⟨hpass, hcand, hexpired, hheld, hatt, hdead⟩ := hphase
  exact ⟨hcand.attached_iff.mp hatt, hcand.version, hheld.word, hdead, hexpired, hpass.begun⟩

/-! ## What a pass leaves alone -/

/-- A pass changes the identifier of nothing that is still attached. -/
theorem base_of_reap {publishedEpoch : EpochNumber}
    (heffect : Effect (committers schema) s (.reap publishedEpoch) s') {i : ItemId}
    (hmoved : (s'.store.item i).word.base ≠ (s.store.item i).word.base) :
    ¬ s'.store.Attached i := by
  cases heffect with
  | @reap _ a reaper candidates hstep =>
    obtain ⟨hp, -⟩ := h.reaper.step h.store hstep
    rcases reaperStep_access hstep with rfl | ⟨j, rfl⟩ | ⟨j, word, rfl⟩ | ⟨pass, c, rfl, -⟩
    · exact absurd rfl hmoved
    · refine absurd ?_ hmoved
      show (update s.store.item j _ i).word.base = _
      by_cases hij : i = j
      · rw [hij, update_self]
        exact TransactionId.base_locked_eq _
      · rw [update_of_ne hij]
    · change (update s.store.item j _ i).word.base ≠ _ at hmoved
      rw [update_apply] at hmoved
      split_ifs at hmoved with hij
      · subst hij
        obtain ⟨hheld, -, heven, -, hback⟩ := hp
        rcases hback with ⟨hback, -⟩ | ⟨hdet, -⟩
        · refine absurd ?_ hmoved
          rw [TransactionId.base_of_not_isLocked heven, hback, TransactionId.base,
            if_pos (h.store.isLocked_of_held hheld)]
        · intro hatt
          refine hdet ?_
          unfold Store.Attached at hatt ⊢
          rw [show ((s.store.access .reaper (.storeWord i word)).item i).home
            = (s.store.item i).home from s.store.home_access .reaper (.storeWord i word)
              (h.store.lt_allocated_of_held hheld)] at hatt
          exact hatt
      · exact absurd rfl hmoved
    · exact absurd rfl hmoved

theorem droppable_of_dropped {c : Candidate} (hc : c ∈ s.reaper.dropped) : Droppable s.store c := by
  have hphase := h.reaper.phase
  cases hreaper : s.reaper with
  | idle =>
    rw [hreaper] at hc
    cases hc
  | sweeping =>
    rw [hreaper] at hphase hc
    exact (hphase.dropped c hc).2
  | working =>
    rw [hreaper] at hphase hc
    exact (hphase.1.dropped c hc).2

end

/-! ## Every life -/

/-- **The reaper loses nothing.** In every state of every life of the database, with any
number of native transactions and stateless requests:

* a slot leaves the index only in the purge of a pass, while it leads to the item of a
  registered candidate, which still has the word that was registered, no content, and a
  delete epoch at least two behind the published one;
* whatever a committer installs goes to the item its slot leads to;
* between passes no lock bit is the reaper's;
* no step of a pass changes the identifier of an item that stays attached;
* every candidate a pass has dropped is gone from its slot, has been overwritten by a later
  commit, or was registered by a commit that left something in the slot. -/
theorem reaper_loses_nothing {actions : List LifeAction} {l : Life}
    (hrun : run (Life.next schema) (Life.initial schema) actions = some l) :
    (∀ action s' k i, (committers schema).next l.session action = some s' →
      l.session.store.index k = some i → s'.store.index k ≠ some i →
      ∃ publishedEpoch pass c, action = .reap publishedEpoch ∧
        l.session.reaper = .working pass c .purge ∧ c.slot = k ∧ c.item = i ∧
        (∃ v ∈ l.session.store.versions k, v.2.tid = c.deleteCommitTid ∧ v.2.item = i) ∧
        (l.session.store.item i).word = c.deleteCommitTid.locked ∧
        (l.session.store.item i).content.initializedAt k = false ∧
        c.deleteCommitTid.epoch.toNat + 2 ≤ pass.publishedEpoch.toNat ∧
        pass.publishedEpoch.toNat ≤ l.session.store.epoch.toNat) ∧
    (∀ t choice i content phase candidates,
      (committers schema).step l.session.store t (l.session.phase t) choice
        = some (.install i content, phase, candidates) →
      ∃ k, installing (l.session.phase t) = some (k, i) ∧ l.session.store.index k = some i) ∧
    (l.session.reaper = .idle → ∀ i, (l.session.store.item i).word.isLocked = true →
      ∃ o, (l.session.store.item i).holder = some o ∧ o ≠ .reaper) ∧
    (∀ publishedEpoch s' i, (committers schema).next l.session (.reap publishedEpoch) = some s' →
      (s'.store.item i).word.base ≠ (l.session.store.item i).word.base →
      ¬ s'.store.Attached i) ∧
    ∀ c ∈ l.session.reaper.dropped,
      l.session.store.index c.slot ≠ some c.item ∨ Overwritten l.session.store c ∨
        Revived l.session.store c := by
  have hinv : SystemInv (contract schema) l.session := (lifeInv_run hrun).system
  refine ⟨?_, ?_, ?_, ?_, fun c hc => droppable_of_dropped hinv hc⟩
  · intro action s' k i hnext hindex hgone
    obtain ⟨publishedEpoch, pass, c, haction, hreaper, rfl⟩ :=
      unlinked_of_next hinv (Party.effect hnext) hindex hgone
    obtain ⟨hitem, hspec⟩ := purge_spec hinv hreaper
    rw [hindex] at hitem
    cases hitem
    exact ⟨publishedEpoch, pass, c, haction, hreaper, rfl, rfl, hspec⟩
  · intro t choice i content phase candidates hstep
    obtain ⟨k, hinstalling⟩ := step_install hstep
    exact ⟨k, hinstalling, installing_index (hinv.party t) hinstalling⟩
  · intro hidle i hlocked
    obtain ⟨o, ho⟩ := Option.ne_none_iff_exists'.mp ((hinv.store.bit i).mp hlocked)
    refine ⟨o, ho, ?_⟩
    rintro rfl
    have hhand := hinv.reaper.only i ho
    rw [hidle] at hhand
    exact hhand
  · intro publishedEpoch s' i hnext hmoved
    exact base_of_reap hinv (Party.effect hnext) hmoved

/-! ## Two lives -/

/-- A row is written, recovered after a crash and deleted; the reaper stands before its
purge. -/
def purgeLife : List LifeAction :=
  nativeWrite 0 [1] [1] [7] ++ [.restart true 1 [⟨.row [1] [1], ⟨1, 2⟩, ⟨[7], []⟩⟩]] ++
  statelessWrites 0 [⟨[1], [1], [], true, false⟩] 19 ++ epochs 2 ++ reaps 4 7

/-- The end of the run. -/
def purgeLifeState : Life :=
  (run (Life.next oneTable) (Life.initial oneTable) purgeLife).get (by decide +kernel)

/-- The state behind the purge. -/
def purgedState : State Committer :=
  ((committers oneTable).next purgeLifeState.session (.reap 4)).get (by decide +kernel)

theorem reaper_loses_nothing_tombstone :
    run (Life.next oneTable) (Life.initial oneTable) purgeLife = some purgeLifeState ∧
      (committers oneTable).next purgeLifeState.session (.reap 4) = some purgedState ∧
      purgeLifeState.session.store.index (.row [1] [1]) = some 0 ∧
      purgedState.store.index (.row [1] [1]) = none ∧
      (purgeLifeState.session.store.item 0).content.initializedAt (.row [1] [1]) = false ∧
      (purgeLifeState.session.store.item 0).word = TransactionId.locked ⟨2, 2⟩ := by
  have hrun : run (Life.next oneTable) (.initial oneTable) purgeLife = some purgeLifeState :=
    (Option.some_get _).symm
  have hnext : (committers oneTable).next purgeLifeState.session (.reap 4) = some purgedState :=
    (Option.some_get _).symm
  have hindex : purgeLifeState.session.store.index (.row [1] [1]) = some 0 := by decide +kernel
  have hgone : purgedState.store.index (.row [1] [1]) = none := by decide +kernel
  have hhand : purgeLifeState.session.reaper
      = .working ⟨4, [], [], []⟩ ⟨.row [1] [1], 0, ⟨2, 2⟩⟩ .purge := by
    decide +kernel
  obtain ⟨-, pass, c, -, hreaper, -, -, -, hword, hdead, -⟩ := (reaper_loses_nothing hrun).1
    (.reap 4) purgedState (.row [1] [1]) 0 hnext hindex (by rw [hgone]; exact nofun)
  rw [hhand] at hreaper
  cases hreaper
  exact ⟨hrun, hnext, hindex, hgone, hdead, hword⟩

/-- A request deletes a row and writes it again; two epochs later the reaper comes past. -/
def rewriteLife : List LifeAction :=
  statelessWrites 0 [⟨[1], [1], [], true, false⟩, ⟨[1], [1], [7], false, false⟩] 22 ++
  epochs 2 ++ reaps 3 6

/-- The end of the run. -/
def rewriteLifeState : Life :=
  (run (Life.next oneTable) (Life.initial oneTable) rewriteLife).get (by decide +kernel)

/-- **A candidate that is neither gone nor overwritten is dropped**: the commit that
registered it has left a row in the slot itself. -/
theorem live_candidate_dropped :
    ∃ l, run (Life.next oneTable) (Life.initial oneTable) rewriteLife = some l ∧
      ∃ c ∈ l.session.reaper.dropped, l.session.store.index c.slot = some c.item ∧
        ¬ Overwritten l.session.store c := by
  have hversions : rewriteLifeState.session.store.versions (.row [1] [1])
      = [(.tx 0, ⟨⟨1, 2⟩, ⟨[7], []⟩, 0⟩)] := by
    decide +kernel
  refine ⟨rewriteLifeState, (Option.some_get _).symm,
    ⟨.row [1] [1], 0, ⟨1, 2⟩⟩, by decide +kernel, by decide +kernel, ?_⟩
  rintro ⟨n, v, -, -, hlt⟩
  rw [hversions] at hlt
  exact absurd hlt (Nat.not_lt.mpr (Nat.succ_le_succ (Nat.zero_le n)))

end LineairDB.Lives
