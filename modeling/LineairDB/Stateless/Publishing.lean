import LineairDB.Stateless.Serializable
import LineairDB.Silo.Current

/-!
# What a request publishes

From its install loops on a request holds the locks of all its targets, so what
their slots hold cannot change before it publishes. A relation between what a
slot holds and what has been installed over it, once it holds when the install
loops are through, is carried to the versions of the store.

* `Publishes.step` — one step of the request.
* `Publishes.wrote`, `Publishes.version` — what the versions it has published
  say, and that a committed request has published to all its targets.
-/

namespace LineairDB.Stateless

open Silo ByteFile

variable {r : Request}

/-! ## Publications -/

/-- What a request publishes to a slot, by the writes and operations it has resolved. -/
abbrev Publication :=
  List ResolvedWrite → List ResolvedSecondaryIndexOp → Slot → Content → Content → Prop

/-- The relation at the writes and operations of a commit. -/
def Publication.of (R : Publication) (c : Commit) : Slot → Content → Content → Prop :=
  R c.resolvedWrites c.resolvedSiOps

/-- The slots of the targets of a commit. -/
def Commit.slots (c : Commit) : Set Slot := {k | ∃ x ∈ c.lockTargets, x.slot = k}

/-- The publications of a commit that is through with them. -/
structure Unlocked (R : Publication) (s : Store) (t : ℕ) (c : Commit) : Prop
    extends Publishing (R.of c) s (.tx t) c.slots [] where
  write : ∀ w ∈ c.resolvedWrites, ⟨w.item, w.slot⟩ ∈ c.lockTargets
  op : ∀ op ∈ c.resolvedSiOps, ⟨op.item, op.slot⟩ ∈ c.lockTargets

/-- What a request publishes, or will. -/
def Publishes (R : Publication) (s : Store) (t : ℕ) (r : Request) : Prop :=
  match r.stage with
  | .committing c (.unlock todo) => Publishing (R.of c) s (.tx t) c.slots todo
  | .committing c (.enqueue _) => Unlocked R s t c
  | .committed c => Unlocked R s t c
  | _ => ∀ k, s.Unwritten (.tx t) k

variable {schema : Schema} {s s' : Store} {t : ℕ} {c : Commit} {R : Publication}
  {observations : List Observation} {x : LockTarget}

/-! ## What the others leave alone -/

theorem Unlocked.rely (h : Unlocked R s t c) (hstore : StoreInv s) (hstore' : StoreInv s')
    (hrely : Rely (.tx t) s s') : Unlocked R s' t c where
  toPublishing := h.toPublishing.rely hstore hstore' nofun hrely
  write := h.write
  op := h.op

/-- What a commit has locked is left as it is. -/
theorem Locked.target_rely (h : Locked s t c) (hprepared : Prepared s observations c)
    (hstore : StoreInv s) (hstore' : StoreInv s') (hrely : Rely (.tx t) s s')
    (hx : x ∈ c.lockTargets) :
    s'.item x.item = s.item x.item ∧ s'.current x.slot = s.current x.slot := by
  have hlisted := hprepared.listed x hx
  refine ⟨(hrely.held _ (h.holder hlisted)).1, ?_⟩
  rw [← (hprepared.target x hx).2]
  exact hstore.current_of_held hstore' hrely (h.holder hlisted) (h.attached _ hlisted)

theorem Publishes.rely (hstore : StoreInv s) (hstore' : StoreInv s') (hinv : RequestInv s t r)
    (h : Publishes R s t r) (hrely : Rely (.tx t) s s') : Publishes R s' t r := by
  obtain ⟨observations, stage⟩ := r
  have unwritten : (∀ k, s.Unwritten (.tx t) k) → ∀ k, s'.Unwritten (.tx t) k :=
    fun hold k => (hold k).rely hrely
  cases stage with
  | committed => exact .rely h hstore hstore' hrely
  | committing c pc =>
    cases pc with
    | unlock => exact Publishing.rely h hstore hstore' hinv.stage.2.2.2.2 hrely
    | enqueue => exact .rely h hstore hstore' hrely
    | _ => exact unwritten h
  | _ => exact unwritten h

/-! ## The request's own steps -/

/-- The install loops are through. -/
theorem publishing_start (hprepared : Prepared s observations c)
    (hunwritten : ∀ k, s.Unwritten (.tx t) k) (hinstalled : ∀ i ∈ c.lockItems,
      R.of c (s.item i).home (s.current (s.item i).home) (s.item i).content) :
    Publishing (R.of c) s (.tx t) c.slots c.lockItems where
  pending i hi := by
    obtain ⟨x, hx, rfl⟩ := hprepared.targeted i hi
    exact ⟨⟨x, hx, (hprepared.target x hx).2.symm⟩, hunwritten _, hinstalled _ hi⟩
  published k hk := by
    obtain ⟨x, hx, rfl⟩ := hk
    exact .inl ⟨x.item, hprepared.listed x hx, (hprepared.target x hx).2⟩
  aims k _ := hunwritten k

/-- One step of `Commit`. -/
theorem Publishes.commit {pc : Pc} {x : Access × Stage × List Candidate}
    (hprepared : Prepared s observations c) (hpc : PcInv s t c pc)
    (h : Publishes R s t ⟨observations, .committing c pc⟩)
    (hinstalled : pc = .installSecondary [] → ∀ i ∈ c.lockItems,
      R.of c (s.item i).home (s.current (s.item i).home) (s.item i).content)
    (hmove : CommitMove schema s t c pc x) :
    Publishes R (s.access (.tx t) x.1) t ⟨observations, x.2.1⟩ := by
  -- an access that publishes nothing
  have unwritten : ∀ {a : Access}, a.Quiet → (∀ k, s.Unwritten (.tx t) k) →
      ∀ k, (s.access (.tx t) a).Unwritten (.tx t) k :=
    fun ha hold k => (hold k).of_versions (versions_quiet ha k)
  cases hmove with
  | refuse hresolving =>
    cases pc with
    | resolveReads | resolveWrites | resolveSecondary => exact h
    | _ => cases hresolving
  | duplicate hget | resolveWrite _ hget | resolveOp _ hget =>
    exact unwritten (getOrInsert_collecting hget).quiet h
  | abort hvalidating =>
    cases pc with
    | exactRead | exactAbsent | exactWord | exactLive | ranges | inserts | unique => exact h
    | _ => cases hvalidating
  | opsInstalled => exact publishing_start (c := c) hprepared h (hinstalled rfl)
  | unlock => exact Publishing.publish h _ hpc.2.2.1 fun i hi => (hpc.2.2.2 i hi).2
  | unlocked => exact ⟨h, hprepared.write, hprepared.op⟩
  | installRow | installOp | enqueue | committed => exact h
  | _ => exact unwritten trivial h

/-- **What is published, step by step**: a relation that holds when the install loops are
through is carried to the versions of the store. -/
theorem Publishes.step {choice : Choice} {x : Access × Request × List Candidate}
    (hinv : RequestInv s t r) (h : Publishes R s t r)
    (hinstalled : ∀ c, r.stage = .committing c (.installSecondary []) → ∀ i ∈ c.lockItems,
      R.of c (s.item i).home (s.current (s.item i).home) (s.item i).content)
    (hstep : step schema s t r choice = some x) :
    Publishes R (s.access (.tx t) x.1) t x.2.1 := by
  have unwritten : r.stage.isStaging = true → ∀ k, s.Unwritten (.tx t) k := by
    obtain ⟨observations, stage⟩ := r
    intro hstage
    cases stage with
    | staging | reading => exact h
    | _ => cases hstage
  cases step_cases hstep with
  | read hstage ha => exact fun k => (unwritten hstage k).of_versions (versions_quiet ha.quiet k)
  | reading hstage | refuse hstage | submit hstage => exact unwritten hstage
  | commit hmove =>
    refine h.commit hinv.stage.1 hinv.stage.2 (fun hpc => hinstalled _ ?_) hmove
    rw [hpc]

/-- A request that has just begun. -/
theorem publishes_start : Publishes R .initial t ⟨[], .staging⟩ := by
  intro k n v hv
  cases hv

/-! ## What the versions say -/

/-- A request that has decided is publishing to its targets. -/
theorem Publishes.publishing (h : Publishes R s t r) (hdecided : r.stage.decided = some c) :
    ∃ todo, Publishing (R.of c) s (.tx t) c.slots todo := by
  obtain ⟨observations, rfl | ⟨todo, rfl⟩ | ⟨todo, rfl⟩⟩ := decided_cases hdecided
  · exact ⟨[], h.toPublishing⟩
  · exact ⟨todo, h⟩
  · exact ⟨[], h.toPublishing⟩

/-- What a committed request has published to a target stands in the relation. -/
theorem Publishes.wrote (h : Publishes R s t r) (hdecided : r.stage.decided = some c)
    (hx : x ∈ c.lockTargets) : s.Wrote (.tx t) x.slot (R.of c x.slot) := by
  obtain ⟨todo, hpublishing⟩ := h.publishing hdecided
  exact hpublishing.wrote ⟨x, hx, rfl⟩

/-- The rows and the entries of a committed request are targets. -/
theorem Publishes.targets (hinv : RequestInv s t r) (h : Publishes R s t r)
    (hdecided : r.stage.decided = some c) :
    (∀ w ∈ c.resolvedWrites, ⟨w.item, w.slot⟩ ∈ c.lockTargets) ∧
      ∀ op ∈ c.resolvedSiOps, ⟨op.item, op.slot⟩ ∈ c.lockTargets := by
  obtain ⟨observations, rfl | ⟨todo, rfl⟩ | ⟨todo, rfl⟩⟩ := decided_cases hdecided
  · exact ⟨h.write, h.op⟩
  · exact ⟨hinv.stage.1.write, hinv.stage.1.op⟩
  · exact ⟨h.write, h.op⟩

/-- A committed request has published to all its targets. -/
theorem Publishes.version (h : Publishes R s t r) (hstage : r.stage = .committed c)
    (hx : x ∈ c.lockTargets) : s.Published (.tx t) x.slot (R.of c x.slot) := by
  unfold Publishes at h
  rw [hstage] at h
  exact h.toPublishing.version ⟨x, hx, rfl⟩

/-- A request that has not decided has published nothing. -/
theorem Publishes.unwritten (h : Publishes R s t r) (hdecided : r.stage.decided = none) (k : Slot) :
    s.Unwritten (.tx t) k := by
  obtain ⟨observations, stage⟩ := r
  cases stage with
  | committed => cases hdecided
  | committing c pc =>
    cases pc with
    | unlock | enqueue => cases hdecided
    | _ => exact h k
  | _ => exact h k

end LineairDB.Stateless
