import LineairDB.Stateless.Commit

/-!
# What a request knows

One assertion for every point of `StatelessRead` and `Commit`: what the double
load vouches for while a row is copied, which locks a commit holds, and which of
its reads it has found unmoved since its serialization point.

* `RequestInv.rely` — the other parties leave all of it alone.
-/

namespace LineairDB.Stateless

open Silo ByteFile

/-! ## Reads -/

/-- A found observation is a version of its slot, observed at its position; a used-up
sequence number could make another one of it. -/
structure ObservationInv (s : Store) (t : ℕ) (o : Observation) : Prop where
  observed : (o.slot, o.position) ∈ s.observed (.tx t)
  version : o.found = true → s.NoWrap → ∃ n v, o.position = n + 1 ∧
    (s.versions o.slot)[n]? = some v ∧ v.2.tid = o.tid ∧ v.2.content.buffer = o.value

/-- What a copy under way has seen of the item. -/
def ReadingInv (s : Store) (slot : Slot) : Reading → Prop
  | .load item => item < s.allocated ∧ (s.item item).home = slot
  | .found item tid => (s.item item).home = slot ∧ AtVersion s item tid fun _ _ => True
  | .size item tid => (s.item item).home = slot ∧
      AtVersion s item tid fun c _ => c.isPrimaryInitialized = true
  | .copy item tid size value => (s.item item).home = slot ∧
      AtVersion s item tid fun c _ =>
        c.isPrimaryInitialized = true ∧ size = c.buffer.length ∧ value <+: c.buffer
  | .reload item tid found value => (s.item item).home = slot ∧
      AtVersion s item tid fun c _ => c.isPrimaryInitialized = found ∧ value = c.buffer

/-! ## Commits -/

/-- The variables of a commit belong together: every write and every secondary-index
operation is a lock target, and every target is an item of its slot. -/
structure Prepared (s : Store) (observations : List Observation) (c : Commit) : Prop where
  reads : c.reads ⊆ observations
  entries : c.validationEntries ⊆ c.reads
  target : ∀ x ∈ c.lockTargets, x.item < s.allocated ∧ (s.item x.item).home = x.slot
  listed : ∀ x ∈ c.lockTargets, x.item ∈ c.lockItems
  targeted : ∀ i ∈ c.lockItems, ∃ x ∈ c.lockTargets, x.item = i
  write : ∀ w ∈ c.resolvedWrites, ⟨w.item, w.slot⟩ ∈ c.lockTargets
  op : ∀ op ∈ c.resolvedSiOps, ⟨op.item, op.slot⟩ ∈ c.lockTargets
  published : ∀ x ∈ c.unlockedTids, ∃ k, CandidateInv s ⟨k, x.1, x.2⟩

/-- Every found read will be validated. -/
def Covered (c : Commit) : Prop :=
  ∀ r ∈ c.reads, r.found = true → r ∈ c.validationEntries

/-- The lock of an item is held. -/
structure Holds (s : Store) (t : ℕ) (l : LockedTid) : Prop where
  holder : (s.item l.item).holder = some (.tx t)
  word : (s.item l.item).word = l.locked
  locked : l.locked = l.beforeLock.locked
  even : l.beforeLock.isLocked = false

/-- The commit is taking its locks. -/
structure Acquiring (s : Store) (t : ℕ) (c : Commit) (todo : List ItemId) : Prop where
  stamp : s.stamp (.tx t) = none
  covered : Covered c
  order : c.own ++ todo = c.lockItems
  nodup : c.lockItems.Nodup
  holds : ∀ l ∈ c.lockedTids, Holds s t l

/-- The commit has all its locks, on items that are attached, and its stamp. -/
structure Locked (s : Store) (t : ℕ) (c : Commit) : Prop where
  stamp : s.stamp (.tx t) ≠ none
  own : c.own = c.lockItems
  nodup : c.lockItems.Nodup
  holds : ∀ l ∈ c.lockedTids, Holds s t l
  attached : ∀ i ∈ c.lockItems, s.Attached i

/-- Nothing has been installed yet. -/
structure Validating (s : Store) (t : ℕ) (c : Commit) : Prop extends Locked s t c where
  clean : ∀ l ∈ c.lockedTids, (s.item l.item).dirty = false

/-- A read that was found is where it was, and nobody who commits before can move
it any more. -/
def Fixed (s : Store) (t : ℕ) (r : Observation) : Prop :=
  r.found = true → s.NoWrap → (r.slot, r.position) ∈ s.fixed (.tx t)

/-- The exact reads before `todo` have been validated. -/
def Validated (s : Store) (t : ℕ) (c : Commit) (todo : List Observation) : Prop :=
  Covered c ∧ ∃ done, c.validationEntries = done ++ todo ∧ ∀ r ∈ done, Fixed s t r

/-- Every read is fixed. -/
def Confirmed (s : Store) (t : ℕ) (c : Commit) : Prop := ∀ r ∈ c.reads, Fixed s t r

/-- What holds at a point of `Commit`. -/
def PcInv (s : Store) (t : ℕ) (c : Commit) : Pc → Prop
  | .resolveReads todo => s.stamp (.tx t) = none ∧ c.lockedTids = [] ∧ todo ⊆ c.reads ∧
      ∀ r ∈ c.reads, r.found = true → r ∈ todo ∨ r ∈ c.validationEntries
  | .resolveWrites _ | .resolveSecondary _ =>
      s.stamp (.tx t) = none ∧ c.lockedTids = [] ∧ Covered c
  | .lock todo => Acquiring s t c todo ∧ ∀ i ∈ c.own, s.Attached i
  | .attached item todo => Acquiring s t c todo ∧ item ∈ c.own ∧
      ∀ i ∈ c.own, i = item ∨ s.Attached i
  | .exactRead todo => Validating s t c ∧ Validated s t c todo
  | .exactAbsent _ read todo => Validating s t c ∧ Validated s t c (read :: todo) ∧
      read.found = false
  | .exactWord item expected read todo => Validating s t c ∧ Validated s t c (read :: todo) ∧
      read.found = true ∧ item < s.allocated ∧ (s.item item).home = read.slot ∧
      (expected = read.tid ∨
        ∃ l ∈ c.lockedTids, l.item = item ∧ l.beforeLock = read.tid ∧ expected = l.locked)
  | .exactLive item read todo => Validating s t c ∧ Validated s t c (read :: todo) ∧
      item < s.allocated ∧ (Fixed s t read ∨ ¬ s.Attached item)
  | .ranges _ | .inserts _ | .unique => Validating s t c ∧ Confirmed s t c
  | .installRows todo => Locked s t c ∧ Confirmed s t c ∧ todo ⊆ c.resolvedWrites
  | .installSecondary todo => Locked s t c ∧ Confirmed s t c ∧ todo ⊆ c.resolvedSiOps
  | .unlock todo => s.stamp (.tx t) ≠ none ∧ Confirmed s t c ∧ todo.Nodup ∧
      ∀ i ∈ todo, (s.item i).holder = some (.tx t) ∧ s.Attached i
  | .enqueue todo => Confirmed s t c ∧ ∀ x ∈ todo, CandidateInv s x
  | .abort _ todo => (todo.map LockedTid.item).Nodup ∧
      ∀ l ∈ todo, Holds s t l ∧ (s.item l.item).dirty = false

/-- What holds at a stage. -/
def StageInv (s : Store) (t : ℕ) (observations : List Observation) : Stage → Prop
  | .staging => s.stamp (.tx t) = none
  | .reading tableName key r => s.stamp (.tx t) = none ∧ ReadingInv s (.row tableName key) r
  | .committing c pc => Prepared s observations c ∧ PcInv s t c pc
  | .aborted _ => True
  | .committed c => c.reads ⊆ observations ∧ Confirmed s t c

/-- What holds of a request. -/
structure RequestInv (s : Store) (t : ℕ) (r : Request) : Prop where
  observation : ∀ o ∈ r.observations, ObservationInv s t o
  stage : StageInv s t r.observations r.stage

/-! ## What grows with the store -/

variable {s s' : Store} {t : ℕ} {c : Commit} {observations : List Observation}

theorem ObservationInv.grows {o : Observation} (h : ObservationInv s t o)
    (hgrows : Grows (.tx t) s s') : ObservationInv s' t o where
  observed := hgrows.observed h.observed
  version hfound hwrap := by
    obtain ⟨n, v, hpos, hv, htid, hvalue⟩ := h.version hfound (hwrap.of_grows hgrows)
    exact ⟨n, v, hpos, getElem?_of_grown (hgrows.versions _) hv, htid, hvalue⟩

theorem Prepared.grows {o : Owner} (h : Prepared s observations c) (hgrows : Grows o s s') :
    Prepared s' observations c where
  __ := h
  target x hx := by
    obtain ⟨hlt, hhome⟩ := h.target x hx
    exact ⟨Nat.lt_of_lt_of_le hlt hgrows.allocated, (hgrows.home _ hlt).trans hhome⟩
  published x hx := by
    obtain ⟨k, hcand⟩ := h.published x hx
    exact ⟨k, hcand.grows hgrows⟩

theorem Fixed.grows {r : Observation} (h : Fixed s t r) (hgrows : Grows (.tx t) s s') :
    Fixed s' t r := fun hfound hwrap => hgrows.fixed (h hfound (hwrap.of_grows hgrows))

theorem Confirmed.grows (h : Confirmed s t c) (hgrows : Grows (.tx t) s s') : Confirmed s' t c :=
  fun r hr => (h r hr).grows hgrows

theorem Validated.grows {todo : List Observation} (h : Validated s t c todo)
    (hgrows : Grows (.tx t) s s') : Validated s' t c todo := by
  obtain ⟨hcovered, done, hentries, hfixed⟩ := h
  exact ⟨hcovered, done, hentries, fun r hr => (hfixed r hr).grows hgrows⟩

/-! ## What the others leave alone -/

theorem Holds.congr {l : LockedTid} (h : Holds s t l) (hsame : s'.item l.item = s.item l.item) :
    Holds s' t l :=
  ⟨by rw [hsame]; exact h.holder, by rw [hsame]; exact h.word, h.locked, h.even⟩

section

variable (hrely : Rely (.tx t) s s')

include hrely

theorem Holds.rely {l : LockedTid} (h : Holds s t l) : Holds s' t l :=
  h.congr (hrely.held _ h.holder).1

theorem ReadingInv.rely {slot : Slot} {r : Reading} (h : ReadingInv s slot r) :
    ReadingInv s' slot r := by
  cases r with
  | load =>
    exact ⟨Nat.lt_of_lt_of_le h.1 hrely.allocated, (hrely.home _ h.1).trans h.2⟩
  | found | size | copy | reload =>
    exact ⟨(hrely.home _ h.2.allocated).trans h.1, h.2.rely hrely⟩

theorem Acquiring.rely {todo : List ItemId} (h : Acquiring s t c todo) : Acquiring s' t c todo where
  __ := h
  stamp := hrely.stamp.trans h.stamp
  holds l hl := (h.holds l hl).rely hrely

theorem Acquiring.attached_rely {todo : List ItemId} (h : Acquiring s t c todo) {i : ItemId}
    (hi : i ∈ c.own) (hatt : s.Attached i) : s'.Attached i := by
  obtain ⟨l, hl, rfl⟩ := List.mem_map.mp hi
  exact (hrely.held _ (h.holds l hl).holder).2 hatt

theorem Locked.rely (h : Locked s t c) : Locked s' t c where
  stamp := by
    rw [hrely.stamp]
    exact h.stamp
  own := h.own
  nodup := h.nodup
  holds l hl := (h.holds l hl).rely hrely
  attached i hi := by
    have hown := hi
    rw [← h.own] at hown
    obtain ⟨l, hl, rfl⟩ := List.mem_map.mp hown
    exact (hrely.held _ (h.holds l hl).holder).2 (h.attached _ hi)

theorem Validating.rely (h : Validating s t c) : Validating s' t c where
  toLocked := h.toLocked.rely hrely
  clean l hl := by
    rw [(hrely.held _ (h.holds l hl).holder).1]
    exact h.clean l hl

theorem PcInv.rely {pc : Pc} (h : PcInv s t c pc) : PcInv s' t c pc := by
  have hgrows := hrely.toGrows
  cases pc with
  | resolveReads | resolveWrites | resolveSecondary =>
    obtain ⟨hstamp, hrest⟩ := h
    exact ⟨hrely.stamp.trans hstamp, hrest⟩
  | lock =>
    obtain ⟨hacq, hatt⟩ := h
    exact ⟨hacq.rely hrely, fun i hi => hacq.attached_rely hrely hi (hatt i hi)⟩
  | attached =>
    obtain ⟨hacq, hitem, hatt⟩ := h
    exact ⟨hacq.rely hrely, hitem, fun i hi => (hatt i hi).imp_right (hacq.attached_rely hrely hi)⟩
  | exactRead | ranges | inserts | unique => exact ⟨h.1.rely hrely, h.2.grows hgrows⟩
  | exactAbsent | installRows | installSecondary =>
    exact ⟨h.1.rely hrely, h.2.1.grows hgrows, h.2.2⟩
  | exactWord =>
    obtain ⟨hval, hdone, hfound, hlt, hhome, hexpected⟩ := h
    exact ⟨hval.rely hrely, hdone.grows hgrows, hfound, Nat.lt_of_lt_of_le hlt hrely.allocated,
      (hrely.home _ hlt).trans hhome, hexpected⟩
  | exactLive =>
    obtain ⟨hval, hdone, hlt, hfixed⟩ := h
    refine ⟨hval.rely hrely, hdone.grows hgrows, Nat.lt_of_lt_of_le hlt hrely.allocated, ?_⟩
    exact hfixed.imp (fun hfixed => hfixed.grows hgrows)
      (fun hdet hatt => hdet (hrely.attached _ hlt hatt))
  | unlock =>
    obtain ⟨hstamp, hconfirmed, hnodup, hheld⟩ := h
    refine ⟨by rw [hrely.stamp]; exact hstamp, hconfirmed.grows hgrows, hnodup, fun i hi => ?_⟩
    obtain ⟨hholder, hatt⟩ := hheld i hi
    obtain ⟨hsame, hkeep⟩ := hrely.held i hholder
    exact ⟨by rw [hsame]; exact hholder, hkeep hatt⟩
  | enqueue => exact ⟨h.1.grows hgrows, fun x hx => (h.2 x hx).grows hgrows⟩
  | abort =>
    obtain ⟨hnodup, hheld⟩ := h
    refine ⟨hnodup, fun l hl => ?_⟩
    obtain ⟨hholds, hclean⟩ := hheld l hl
    refine ⟨hholds.rely hrely, ?_⟩
    rw [(hrely.held _ hholds.holder).1]
    exact hclean

theorem StageInv.rely {stage : Stage} (h : StageInv s t observations stage) :
    StageInv s' t observations stage := by
  cases stage with
  | staging => exact hrely.stamp.trans h
  | reading => exact ⟨hrely.stamp.trans h.1, h.2.rely hrely⟩
  | committing => exact ⟨h.1.grows hrely.toGrows, h.2.rely hrely⟩
  | aborted => trivial
  | committed => exact ⟨h.1, h.2.grows hrely.toGrows⟩

/-- **The other parties leave what a request knows alone.** -/
theorem RequestInv.rely {r : Request} (h : RequestInv s t r) : RequestInv s' t r where
  observation o ho := (h.observation o ho).grows hrely.toGrows
  stage := h.stage.rely hrely

end

end LineairDB.Stateless
