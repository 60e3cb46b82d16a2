import LineairDB.Stateless.Invariant
import LineairDB.Stateless.Moves

/-!
# The steps of a request

Every access of `StatelessRead` and `Commit` is permitted, and leads to a point
where the request knows what its next statement needs.

* `contract` — so the requests can share the store with each other and with the
  reaper.
-/

namespace LineairDB.Stateless

open Silo ByteFile
open Function (update_self update_of_ne update)

variable {schema : Schema} {read : Observation} {todo : List ItemId} {i item : ItemId}

variable {s : Store} {t : ℕ} {observations : List Observation} {c : Commit}

/-! ## Reading -/

theorem prefix_push {α : Type} {l l' : List α} (h : l <+: l') (hlt : l.length < l'.length)
    (d : α) : l ++ [(l'[l.length]?).getD d] <+: l' := by
  obtain ⟨rest, rfl⟩ := h
  cases rest with
  | nil => simp at hlt
  | cons =>
    rw [List.getElem?_append_right le_rfl]
    simp

theorem observationInv_observe {o : Observation} (h : ObservationInv s t o) (k : Slot) (p : ℕ) :
    ObservationInv (s.observe (.tx t) k p) t o :=
  h.grows (s.grows_access (.tx t) (.tx t) (.observe k p))

section Reading

variable (hobs : ∀ o ∈ observations, ObservationInv s t o) (hstamp : s.stamp (.tx t) = none)

include hobs hstamp

/-- A read that returns adds its observation. -/
theorem requestInv_observe {o : Observation}
    (hversion : o.found = true → s.NoWrap → ∃ n v, o.position = n + 1 ∧
      (s.versions o.slot)[n]? = some v ∧ v.2.tid = o.tid ∧ v.2.content.buffer = o.value) :
    RequestInv (s.observe (.tx t) o.slot o.position) t ⟨observations ++ [o], .staging⟩ where
  observation := by
    refine forall_mem_concat.mpr
      ⟨fun o' ho' => observationInv_observe (hobs o' ho') _ _, ?_, hversion⟩
    show (o.slot, o.position) ∈ update s.observed (.tx t) _ (.tx t)
    rw [update_self]
    exact .inr rfl
  stage := hstamp

theorem readStart_inv {tableName key : Bytes} (hstore : StoreInv s) :
    (readStart schema s observations tableName key).1.Permitted s (.tx t) ∧
      RequestInv (s.access (.tx t) (readStart schema s observations tableName key).1) t
        (readStart schema s observations tableName key).2 := by
  have absent : ∀ position, position ≤ (s.versions (.row tableName key)).length →
      (Access.observe (.row tableName key) position).Permitted s (.tx t) ∧
        RequestInv (s.observe (.tx t) (.row tableName key) position) t
          ⟨observations ++ [⟨tableName, key, false, [], .empty, position⟩], .staging⟩ := by
    intro position hle
    refine ⟨⟨hstamp, hle⟩, ?_⟩
    exact requestInv_observe (o := ⟨tableName, key, false, [], .empty, position⟩) hobs hstamp nofun
  unfold readStart
  split
  · exact absent _ le_rfl
  · split
    · exact absent _ le_rfl
    · rename_i item hindex
      exact ⟨trivial, hobs, hstamp, hstore.home _ _ hindex⟩

theorem readStep_inv {tableName key : Bytes} {byte : UInt8} {r : Reading} (hstore : StoreInv s)
    (h : ReadingInv s (.row tableName key) r) :
    (readStep s observations tableName key byte r).1.Permitted s (.tx t) ∧
      RequestInv (s.access (.tx t) (readStep s observations tableName key byte r).1) t
        (readStep s observations tableName key byte r).2 := by
  cases r with
  | load =>
    obtain ⟨hlt, hhome⟩ := h
    simp only [readStep]
    split_ifs with hlocked
    · exact ⟨trivial, hobs, hstamp, hlt, hhome⟩
    · exact ⟨trivial, hobs, hstamp, hhome, .load hlt (eq_false_of_ne_true hlocked) trivial⟩
  | found =>
    obtain ⟨hhome, hat⟩ := h
    simp only [readStep]
    split_ifs with hlive
    · exact ⟨trivial, hobs, hstamp, hhome, hat.imp fun _ => hlive⟩
    · refine ⟨trivial, hobs, hstamp, hhome, hat.imp fun _ => ⟨?_, ?_⟩⟩
      · exact eq_false_of_ne_true hlive
      · simpa [Content.isPrimaryInitialized] using hlive
  | size =>
    obtain ⟨hhome, hat⟩ := h
    exact ⟨trivial, hobs, hstamp, hhome, hat.imp fun hlive => ⟨hlive, rfl, List.nil_prefix⟩⟩
  | copy =>
    obtain ⟨hhome, hat⟩ := h
    simp only [readStep]
    split_ifs with hmore
    · refine ⟨trivial, hobs, hstamp, hhome, hat.imp ?_⟩
      rintro ⟨hlive, hsize, hcopied⟩
      exact ⟨hlive, hsize, prefix_push hcopied (by rw [← hsize]; exact hmore) byte⟩
    · refine ⟨trivial, hobs, hstamp, hhome, hat.imp ?_⟩
      rintro ⟨hlive, hsize, hcopied⟩
      refine ⟨hlive, hcopied.eq_of_length_le ?_⟩
      rw [← hsize]
      exact Nat.le_of_not_lt hmore
  | reload item tid found value =>
    obtain ⟨hhome, hat⟩ := h
    simp only [readStep]
    split_ifs with hword
    · refine ⟨⟨hstamp, ?_⟩, ?_⟩
      · rw [← hhome]
        exact hstore.seen_le item
      · refine requestInv_observe
          (o := ⟨tableName, key, found, value, tid, (s.item item).seen⟩) hobs hstamp ?_
        rintro rfl hwrap
        obtain ⟨hlive, hvalue⟩ := hat.reload hstore hwrap hword
        obtain ⟨-, n, v, hseen, hv, htid, hcontent⟩ :=
          hstore.live_version (hat.clean hstore hword) hlive
        refine ⟨n, v, hseen, ?_, ?_, ?_⟩
        · rw [hhome] at hv
          exact hv
        · rw [htid, hword, TransactionId.base_of_not_isLocked hat.even]
        · rw [hcontent, hvalue]
    · exact ⟨trivial, hobs, hstamp, hat.allocated, hhome⟩

end Reading

/-! ## What the assertions say -/

/-- The item `GetOrInsert` returns belongs to the slot. -/
theorem getOrInsert_spec {k : Slot} {a : Access} (hstore : StoreInv s) (o : Owner)
    (h : getOrInsert s k = (item, a)) : a.Permitted s o ∧ item < (s.access o a).allocated ∧
      ((s.access o a).item item).home = k ∧ (s.access o a).stamp = s.stamp := by
  unfold getOrInsert at h
  split at h
  · rename_i hindex
    cases h
    obtain ⟨hlt, hhome⟩ := hstore.home k item hindex
    exact ⟨trivial, hlt, hhome, rfl⟩
  · rename_i hindex
    cases h
    refine ⟨hindex, Nat.lt_succ_self _, ?_, rfl⟩
    show (update s.item s.allocated _ s.allocated).home = k
    rw [update_self]
    rfl

theorem mem_sortedUnique {items : List ItemId} : i ∈ sortedUnique schema items ↔ i ∈ items := by
  rw [sortedUnique, List.mem_insertionSort, List.mem_dedup]

theorem nodup_sortedUnique (items : List ItemId) : (sortedUnique schema items).Nodup :=
  (List.perm_insertionSort _ _).nodup_iff.mpr (List.nodup_dedup items)

/-- The locks a commit gives back when it aborts. -/
theorem Validating.abort (h : Validating s t c) (reason : AbortReason) :
    PcInv s t c (.abort reason c.lockedTids) := by
  refine ⟨?_, fun l hl => ⟨h.holds l hl, h.clean l hl⟩⟩
  have hnodup := h.nodup
  rw [← h.own] at hnodup
  exact hnodup

theorem detached_inv {reason : AbortReason} (hstore : StoreInv s)
    (h : PcInv s t c (.attached item todo)) : PcInv s t c (.abort reason c.lockedTids) := by
  obtain ⟨hacq, -, -⟩ := h
  refine ⟨?_, fun l hl => ⟨hacq.holds l hl, ?_⟩⟩
  · have hnodup := hacq.nodup
    rw [← hacq.order] at hnodup
    exact (List.nodup_append.mp hnodup).1
  · exact hstore.clean_of_unstamped (hacq.holds l hl).holder hacq.stamp

theorem Validating.fix (h : Validating s t c) (D : Set Slot) :
    Validating (s.access (.tx t) (.fix D)) t c :=
  { h with holds := fun l hl => (h.holds l hl).congr rfl }

theorem PcInv.validating {pc : Pc} (h : PcInv s t c pc) (hpc : pc.isValidating = true) :
    Validating s t c := by
  cases pc with
  | exactRead | exactAbsent | exactWord | exactLive | ranges | inserts | unique => exact h.1
  | _ => cases hpc

/-- What the fix notes. -/
theorem mem_fixed_of_free {k : Slot} (hfree : s.Free (.tx t) k) :
    (k, (s.versions k).length) ∈ (s.access (.tx t) (.fix (freeSlots s t))).fixed (.tx t) := by
  show _ ∈ update s.fixed (.tx t) _ (.tx t)
  rw [update_self]
  exact .inr ⟨hfree, rfl⟩

theorem Validated.next {todo : List Observation} (h : Validated s t c (read :: todo))
    (hfixed : Fixed s t read) : Validated s t c todo := by
  obtain ⟨hcover, done, hentries, hdone⟩ := h
  exact ⟨hcover, done ++ [read], by rw [hentries, List.append_assoc]; rfl,
    forall_mem_concat.mpr ⟨hdone, hfixed⟩⟩

theorem Validated.confirmed (h : Validated s t c []) : Confirmed s t c := by
  obtain ⟨hcover, done, hentries, hdone⟩ := h
  intro r hr hfound
  have hmem := hcover r hr hfound
  rw [hentries, List.append_nil] at hmem
  exact hdone r hmem hfound

theorem Fixed.of_absent (h : read.found = false) : Fixed s t read := by
  intro hfound
  rw [h] at hfound
  cases hfound

/-- **A word that has not moved fixes the read**: the slot is not locked by anybody
else, and it still has the versions it had when it was read. -/
theorem fixed_of_word {expected : TransactionId} (hstore : StoreInv s) (hval : Validating s t c)
    (hobs : ObservationInv s t read) (hfound : read.found = true)
    (hhome : (s.item item).home = read.slot) (hexpected : expected = read.tid ∨
      ∃ l ∈ c.lockedTids, l.item = item ∧ l.beforeLock = read.tid ∧ expected = l.locked)
    (hword : (s.item item).word = expected) (hatt : s.Attached item) :
    Fixed (s.access (.tx t) (.fix (freeSlots s t))) t read := by
  intro _ hwrap'
  have hwrap := hwrap'.of_grows (s.grows_access (.tx t) (.tx t) (.fix (freeSlots s t)))
  obtain ⟨n, v, hpos, hv, htid, -⟩ := hobs.version hfound hwrap
  have heven : read.tid.isLocked = false := by
    rw [← htid]
    exact (hstore.version _ v (List.mem_of_getElem? hv)).1
  have hlock : s.abs.lock read.slot = (s.item item).holder := by
    rw [← hhome]
    exact hstore.abs_lock_home hatt
  have hspec : s.Free (.tx t) read.slot ∧ (s.item item).word.base = v.2.tid := by
    unfold Store.Free
    rw [hlock, htid]
    rcases hexpected with rfl | ⟨l, hl, rfl, hbefore, rfl⟩
    · rw [← hword] at heven
      refine ⟨.inl (hstore.holder_of_not_isLocked heven), ?_⟩
      rw [TransactionId.base_of_not_isLocked heven, hword]
    · have hholds := hval.holds l hl
      refine ⟨.inr hholds.holder, ?_⟩
      rw [hword, hholds.locked, TransactionId.base_locked hholds.even, hbefore]
  have hlen := hstore.length_of_base hwrap hatt (by rw [hhome]; exact hv) hspec.2
  rw [hhome] at hlen
  rw [hpos, ← hlen]
  exact mem_fixed_of_free hspec.1

theorem Locked.holder (h : Locked s t c) (hi : i ∈ c.lockItems) :
    (s.item i).holder = some (.tx t) := by
  rw [← h.own] at hi
  obtain ⟨l, hl, rfl⟩ := List.mem_map.mp hi
  exact (h.holds l hl).holder

/-- A slot has one locked item. -/
theorem Locked.eq_of_home {j : ItemId} (h : Locked s t c) (hi : i ∈ c.lockItems)
    (hj : j ∈ c.lockItems) (hhome : (s.item i).home = (s.item j).home) : i = j := by
  have hindex : s.index (s.item i).home = some i := h.attached i hi
  rw [hhome, show s.index (s.item j).home = some j from h.attached j hj] at hindex
  exact (Option.some.inj hindex).symm

theorem Validating.clean_of_mem (h : Validating s t c) (hi : i ∈ c.lockItems) :
    (s.item i).dirty = false := by
  rw [← h.own] at hi
  obtain ⟨l, hl, rfl⟩ := List.mem_map.mp hi
  exact h.clean l hl

theorem Locked.install (h : Locked s t c) (hstore : StoreInv s) (hi : i ∈ c.lockItems)
    (content : Content) :
    (Access.install i content).Permitted s (.tx t) ∧
      Locked (s.access (.tx t) (.install i content)) t c := by
  have hpermitted : (Access.install i content).Permitted s (.tx t) :=
    ⟨h.holder hi, h.stamp, h.attached i hi⟩
  refine ⟨hpermitted, h.stamp, h.own, h.nodup, fun l hl => ?_, fun j hj => ?_⟩
  · have hholds := h.holds l hl
    -- the words stay
    have hkeep : ((s.access (.tx t) (.install i content)).item l.item).holder
          = (s.item l.item).holder ∧
        ((s.access (.tx t) (.install i content)).item l.item).word = (s.item l.item).word := by
      show (update s.item i _ l.item).holder = _ ∧ (update s.item i _ l.item).word = _
      by_cases heq : l.item = i
      · rw [heq, update_self]
        exact ⟨rfl, rfl⟩
      · rw [update_of_ne heq]
        exact ⟨rfl, rfl⟩
    exact ⟨hkeep.1.trans hholds.holder, hkeep.2.trans hholds.word, hholds.locked, hholds.even⟩
  · exact hstore.attached_access hpermitted (fun _ => nofun) (h.attached j hj)

theorem foldl_once_subset (ops seen : List ResolvedSecondaryIndexOp) :
    ops.foldl (fun seen op =>
      if seen.any fun other => other.item = op.item then seen else seen ++ [op]) seen
      ⊆ seen ++ ops := by
  induction ops generalizing seen with
  | nil => simp
  | cons op ops ih =>
    rw [List.foldl_cons]
    split_ifs with hany
    · intro x hx
      rcases List.mem_append.mp (ih _ hx) with hx | hx
      · exact List.mem_append_left _ hx
      · exact List.mem_append_right _ (.tail _ hx)
    · intro x hx
      have hx' := ih _ hx
      rwa [List.append_assoc] at hx'

/-! ## The statements of `Commit` -/

/-- A step of `Commit` that is permitted and ends where its assertion holds. -/
def StepOk (s : Store) (t : ℕ) (observations : List Observation)
    (x : Access × Stage × List Candidate) : Prop :=
  x.1.Permitted s (.tx t) ∧ StageInv (s.access (.tx t) x.1) t observations x.2.1 ∧
    ∀ c ∈ x.2.2, CandidateInv (s.access (.tx t) x.1) c

/-- A step that only moves on. -/
theorem StepOk.idle {stage : Stage} (h : StageInv s t observations stage) :
    StepOk s t observations (.idle, stage, []) :=
  ⟨trivial, h, nofun⟩

theorem submit_inv {reads : List Observation} {writes : List ExternalWriteEntry}
    {ops : List ExternalSecondaryIndexEntry} {ranges : List ExternalRangeReadEntry}
    (hsub : reads ⊆ observations) (hstamp : s.stamp (.tx t) = none) :
    StageInv s t observations
      (.committing ⟨reads, writes, ops, ranges, [], [], [], [], [], [], [], [], [], []⟩
        (.resolveReads reads)) :=
  ⟨⟨hsub, List.nil_subset _, nofun, nofun, nofun, nofun, nofun, nofun⟩, hstamp, rfl,
    List.Subset.refl _, fun _ hr _ => .inl hr⟩

section Commit

variable (hprep : Prepared s observations c)

include hprep

theorem resolveRead_inv {todo entries : List Observation}
    (h : PcInv s t c (.resolveReads (read :: todo)))
    (hentries : entries = c.validationEntries ++ [read] ∨
      entries = c.validationEntries ∧ read.found = false) :
    StageInv s t observations
      (.committing { c with validationEntries := entries } (.resolveReads todo)) := by
  obtain ⟨hstamp, hlocks, hsub, hcover⟩ := h
  rcases hentries with rfl | ⟨rfl, habsent⟩
  · have hentries := forall_mem_concat.mpr ⟨fun r hr => hprep.entries hr, hsub (.head _)⟩
    refine ⟨{ hprep with entries := hentries }, hstamp, hlocks, fun r hr => hsub (.tail _ hr), ?_⟩
    intro r hr hfound
    rcases hcover r hr hfound with hr | hr
    · rcases List.mem_cons.mp hr with rfl | hr
      · exact .inr List.mem_concat_self
      · exact .inl hr
    · exact .inr (List.mem_append_left _ hr)
  · refine ⟨hprep, hstamp, hlocks, fun r hr => hsub (.tail _ hr), fun r hr hfound => ?_⟩
    refine (hcover r hr hfound).imp_left fun hr => (List.mem_cons.mp hr).resolve_left ?_
    rintro rfl
    rw [habsent] at hfound
    cases hfound

/-- One more lock target. -/
theorem Prepared.push {c' : Commit} {slot : Slot} (hlt : item < s.allocated)
    (hhome : (s.item item).home = slot) (hreads : c'.reads = c.reads)
    (hentries : c'.validationEntries = c.validationEntries)
    (hitems : c'.lockItems = c.lockItems ++ [item])
    (htargets : c'.lockTargets = c.lockTargets ++ [⟨item, slot⟩])
    (hunlocked : c'.unlockedTids = c.unlockedTids)
    (hwrites : ∀ w ∈ c'.resolvedWrites, w ∈ c.resolvedWrites ∨ w.item = item ∧ w.slot = slot)
    (hops : ∀ op ∈ c'.resolvedSiOps, op ∈ c.resolvedSiOps ∨ op.item = item ∧ op.slot = slot) :
    Prepared s observations c' := by
  have hnew : (⟨item, slot⟩ : LockTarget) ∈ c'.lockTargets := by
    rw [htargets]
    exact List.mem_concat_self
  have hold : ∀ x ∈ c.lockTargets, x ∈ c'.lockTargets := by
    intro x hx
    rw [htargets]
    exact List.mem_append_left _ hx
  constructor
  · rw [hreads]
    exact hprep.reads
  · rw [hreads, hentries]
    exact hprep.entries
  · rw [htargets]
    exact forall_mem_concat.mpr ⟨hprep.target, hlt, hhome⟩
  · intro x hx
    rw [hitems]
    rw [htargets] at hx
    exact forall_mem_concat.mpr
      ⟨fun x hx => List.mem_append_left _ (hprep.listed x hx), List.mem_concat_self⟩ x hx
  · intro i hi
    rw [hitems] at hi
    rcases mem_concat.mp hi with hi | rfl
    · obtain ⟨x, hx, heq⟩ := hprep.targeted i hi
      exact ⟨x, hold x hx, heq⟩
    · exact ⟨⟨_, slot⟩, hnew, rfl⟩
  · intro w hw
    rcases hwrites w hw with hw | ⟨hitem, hslot⟩
    · exact hold _ (hprep.write w hw)
    · rw [hitem, hslot]
      exact hnew
  · intro op hop
    rcases hops op hop with hop | ⟨hitem, hslot⟩
    · exact hold _ (hprep.op op hop)
    · rw [hitem, hslot]
      exact hnew
  · rw [hunlocked]
    exact hprep.published

theorem sort_inv (h : PcInv s t c (.resolveSecondary [])) :
    StageInv s t observations (.committing { c with lockItems := sortedUnique schema c.lockItems }
      (.lock (sortedUnique schema c.lockItems))) := by
  obtain ⟨hstamp, hlocks, hcover⟩ := h
  have hown : Commit.own { c with lockItems := sortedUnique schema c.lockItems } = [] := by
    rw [hlocks]
    rfl
  have hprep' : Prepared s observations { c with lockItems := sortedUnique schema c.lockItems } :=
    { hprep with
      listed := fun x hx => mem_sortedUnique.mpr (hprep.listed x hx)
      targeted := fun i hi => hprep.targeted i (mem_sortedUnique.mp hi) }
  refine ⟨hprep', ⟨hstamp, hcover, ?_, nodup_sortedUnique _, ?_⟩, ?_⟩
  · rw [hown]
    rfl
  · intro l hl
    rw [hlocks] at hl
    cases hl
  · intro i hi
    rw [hown] at hi
    cases hi

theorem Acquiring.lt_allocated (h : Acquiring s t c (item :: todo)) : item < s.allocated := by
  have hitem : item ∈ c.lockItems := by
    rw [← h.order]
    exact List.mem_append_right _ (.head _)
  obtain ⟨x, hx, rfl⟩ := hprep.targeted item hitem
  exact (hprep.target x hx).1

theorem attached_inv (h : PcInv s t c (.attached item todo))
    (hattached : lockTargetAttached s c item = true) : PcInv s t c (.lock todo) := by
  obtain ⟨hacq, hitem, hatt⟩ := h
  refine ⟨hacq, fun i hi => (hatt i hi).elim ?_ id⟩
  rintro rfl
  have hlisted : i ∈ c.lockItems := by
    rw [← hacq.order]
    exact List.mem_append_left _ hitem
  obtain ⟨x, hx, rfl⟩ := hprep.targeted i hlisted
  have hget := List.all_eq_true.mp hattached x hx
  unfold Store.Attached
  rw [(hprep.target x hx).2]
  simpa using hget

/-- A check that notes the slots that have not moved. -/
theorem StepOk.fix {pc : Pc} (hval : Validating s t c)
    (hpc : PcInv (s.access (.tx t) (.fix (freeSlots s t))) t c pc) :
    StepOk s t observations (.fix (freeSlots s t), .committing c pc, []) :=
  ⟨⟨hval.stamp, fun _ hk => hk⟩, ⟨hprep.grows (s.grows_access (.tx t) (.tx t) _), hpc⟩, nofun⟩

theorem Prepared.write_home {w : ResolvedWrite} (hw : w ∈ c.resolvedWrites) :
    (s.item w.item).home = w.slot :=
  (hprep.target _ (hprep.write w hw)).2

theorem Prepared.op_home {op : ResolvedSecondaryIndexOp} (hop : op ∈ c.resolvedSiOps) :
    (s.item op.item).home = op.slot :=
  (hprep.target _ (hprep.op op hop)).2

theorem unlock_start (h : PcInv s t c (.installSecondary [])) :
    StageInv s t observations (.committing
      { c with siEmptyAfterInstall := siEmptyAfterInstall s c } (.unlock c.lockItems)) := by
  obtain ⟨hlocked, hconfirmed, -⟩ := h
  exact ⟨{ hprep with }, hlocked.stamp, hconfirmed, hlocked.nodup,
    fun i hi => ⟨hlocked.holder hi, hlocked.attached i hi⟩⟩

theorem Prepared.candidate {x : LockTarget} {tid : TransactionId} (hx : x ∈ c.lockTargets)
    (hlookup : c.unlockedTids.lookup x.item = some tid) : CandidateInv s ⟨x.slot, x.item, tid⟩ := by
  obtain ⟨l₁, l₂, hsplit, -⟩ := List.lookup_eq_some_iff.mp hlookup
  have hmem : (x.item, tid) ∈ c.unlockedTids := by
    rw [hsplit]
    exact List.mem_append_right _ (.head _)
  obtain ⟨k, hcand⟩ := hprep.published _ hmem
  have hslot : k = x.slot := hcand.home.symm.trans (hprep.target x hx).2
  rw [← hslot]
  exact hcand

theorem purgeCandidates_inv : ∀ x ∈ purgeCandidates c, CandidateInv s x := by
  intro x hx
  rcases List.mem_append.mp hx with hx | hx
  · obtain ⟨write, hwrite, hx⟩ := List.mem_filterMap.mp hx
    obtain ⟨tid, hlookup, rfl⟩ := Option.map_eq_some_iff.mp hx
    exact hprep.candidate (hprep.write write (List.mem_filter.mp hwrite).1) hlookup
  · obtain ⟨op, hop, hx⟩ := List.mem_filterMap.mp hx
    obtain ⟨tid, hlookup, rfl⟩ := Option.map_eq_some_iff.mp hx
    have hop' := foldl_once_subset _ _ hop
    rw [List.nil_append] at hop'
    exact hprep.candidate (hprep.op op (List.mem_filter.mp hop').1) hlookup

theorem abort_inv {reason : AbortReason} {l : LockedTid} {todo : List LockedTid}
    (h : PcInv s t c (.abort reason (l :: todo))) :
    StepOk s t observations (.storeWord l.item (s.item l.item).word.unlocked,
      .committing c (.abort reason todo), []) := by
  obtain ⟨hnodup, hheld⟩ := h
  obtain ⟨hholds, hclean⟩ := hheld l (.head _)
  rw [List.map_cons] at hnodup
  obtain ⟨hnew, hnodup⟩ := List.nodup_cons.mp hnodup
  have heven : (s.item l.item).word.unlocked.isLocked = false := by
    rw [hholds.word, hholds.locked, TransactionId.unlocked_locked hholds.even]
    exact hholds.even
  refine ⟨⟨hholds.holder, hclean, heven, rfl, .inl ⟨rfl, nofun⟩⟩,
    ⟨hprep.grows (s.grows_access (.tx t) (.tx t) _), hnodup, fun l' hl' => ?_⟩,
    nofun⟩
  obtain ⟨hholds', hclean'⟩ := hheld l' (.tail _ hl')
  have hne : l'.item ≠ l.item := fun heq => hnew (heq ▸ List.mem_map_of_mem hl')
  have hsame : (s.access (.tx t) (.storeWord l.item (s.item l.item).word.unlocked)).item l'.item
      = s.item l'.item := update_of_ne hne ..
  refine ⟨hholds'.congr hsame, ?_⟩
  rw [hsame]
  exact hclean'

variable (hstore : StoreInv s)

include hstore

theorem lock_inv (h : PcInv s t c (.lock (item :: todo)))
    (hfree : (s.item item).word.isLocked = false) :
    StepOk s t observations (.lock item, .committing
      { c with
        lockedTids := c.lockedTids ++ [⟨item, (s.item item).word, (s.item item).word.locked⟩] }
      (.attached item todo), []) := by
  obtain ⟨hacq, hatt⟩ := h
  let c' : Commit :=
    { c with
      lockedTids := c.lockedTids ++ [⟨item, (s.item item).word, (s.item item).word.locked⟩] }
  have hown : c'.own = c.own ++ [item] := List.map_append ..
  -- a lock already held is on another item
  have hother : ∀ l ∈ c.lockedTids, l.item ≠ item := by
    rintro l hl rfl
    rw [hstore.isLocked_of_held (hacq.holds l hl).holder] at hfree
    cases hfree
  have hpermitted : (Access.lock item).Permitted s (.tx t) :=
    ⟨hacq.lt_allocated hprep, hfree, hacq.stamp⟩
  refine ⟨hpermitted, ⟨?_, ⟨hacq.stamp, hacq.covered, ?_, hacq.nodup, ?_⟩, ?_, ?_⟩, nofun⟩
  · exact { hprep.grows (s.grows_access (.tx t) (.tx t) (.lock item)) with }
  · rw [hown, List.append_assoc]
    exact hacq.order
  · intro l hl
    rcases mem_concat.mp hl with hl | rfl
    · have hsame : (s.access (.tx t) (.lock item)).item l.item = s.item l.item :=
        update_of_ne (hother l hl) ..
      exact (hacq.holds l hl).congr hsame
    · have hself : (s.access (.tx t) (.lock item)).item item
          = { s.item item with
              word := (s.item item).word.locked
              holder := some (.tx t) } := update_self ..
      exact ⟨by rw [hself], by rw [hself], rfl, hfree⟩
  · rw [hown]
    exact List.mem_concat_self
  · intro i hi
    rw [hown] at hi
    rcases mem_concat.mp hi with hi | heq
    · exact .inr (hstore.attached_access hpermitted (fun _ => nofun) (hatt i hi))
    · exact .inl heq

/-- Phase 1.2 -/
theorem serialize_inv (h : PcInv s t c (.lock [])) : StepOk s t observations
    (.serialize, .committing c (.exactRead c.validationEntries), []) := by
  obtain ⟨hacq, hatt⟩ := h
  have hown : c.own = c.lockItems := by
    rw [← hacq.order, List.append_nil]
  refine ⟨hacq.stamp, ⟨hprep.grows (s.grows_access (.tx t) (.tx t) .serialize), ?_,
    hacq.covered, [], rfl, nofun⟩,
    nofun⟩
  refine ⟨⟨?_, hown, hacq.nodup, fun l hl => ?_, fun i hi => ?_⟩, fun l hl => ?_⟩
  · show update s.stamp (.tx t) (some s.clock) (.tx t) ≠ none
    rw [update_self]
    exact nofun
  · exact (hacq.holds l hl).congr rfl
  · rw [← hown] at hi
    exact hatt i hi
  · exact hstore.clean_of_unstamped (hacq.holds l hl).holder hacq.stamp

/-- A statement that installs into an item the commit has locked. -/
theorem StepOk.install {pc : Pc} (hlocked : Locked s t c) (hi : i ∈ c.lockItems) (content : Content)
    (hpc : ∀ {s'}, Locked s' t c → Grows (.tx t) s s' → PcInv s' t c pc) :
    StepOk s t observations (.install i content, .committing c pc, []) := by
  obtain ⟨hpermitted, hlocked'⟩ := hlocked.install hstore hi content
  have hgrows := s.grows_access (.tx t) (.tx t) (.install i content)
  exact ⟨hpermitted, ⟨hprep.grows hgrows, hpc hlocked' hgrows⟩, nofun⟩

theorem unlock_inv {word : TransactionId} (h : PcInv s t c (.unlock (item :: todo)))
    (hword : word = (s.item item).word.next (s.commitEpoch (.tx t))) :
    StepOk s t observations (.publish item word, .committing
      { c with unlockedTids := c.unlockedTids ++ [(item, word)] } (.unlock todo), []) := by
  obtain ⟨hstamp, hconfirmed, hnodup, hheld⟩ := h
  obtain ⟨hholder, hatt⟩ := hheld item (.head _)
  obtain ⟨hnew, hnodup⟩ := List.nodup_cons.mp hnodup
  have hpermitted : (Access.publish item word).Permitted s (.tx t) :=
    ⟨hholder, hstamp, hatt, hword⟩
  have hgrows := s.grows_access (.tx t) (.tx t) (.publish item word)
  have hgrown := hprep.grows hgrows
  have hpublished := (forall_mem_concat (b := (item, word))).mpr
    ⟨hgrown.published, ⟨_, candidateInv_publish hstore (.tx t) hatt⟩⟩
  refine ⟨hpermitted, ⟨{ hgrown with published := hpublished }, hstamp, hconfirmed.grows hgrows,
    hnodup, fun i hi => ?_⟩, nofun⟩
  obtain ⟨hholder', hatt'⟩ := hheld i (.tail _ hi)
  have hsame : (s.access (.tx t) (.publish item word)).item i = s.item i :=
    update_of_ne (ne_of_mem_of_not_mem hi hnew) ..
  exact ⟨by rw [hsame]; exact hholder', hstore.attached_access hpermitted (fun _ => nofun) hatt'⟩

variable (hobs : ∀ o ∈ observations, ObservationInv s t o)

include hobs

theorem word_inv {todo : List Observation}
    (h : PcInv s t c (.exactWord item (s.item item).word read todo)) :
    PcInv (s.access (.tx t) (.fix (freeSlots s t))) t c (.exactLive item read todo) := by
  obtain ⟨hval, hdone, hfound, hlt, hhome, hexpected⟩ := h
  refine ⟨hval.fix _, hdone.grows (s.grows_access (.tx t) (.tx t) _), hlt, ?_⟩
  by_cases hatt : s.Attached item
  · have hread : ObservationInv s t read := by
      obtain ⟨-, done, hentries, -⟩ := hdone
      refine hobs read (hprep.reads (hprep.entries ?_))
      rw [hentries]
      exact List.mem_append_right _ (.head _)
    exact .inl (fixed_of_word hstore hval hread hfound hhome hexpected rfl hatt)
  · exact .inr hatt

/-- **Every statement of `Commit` is permitted and keeps what the commit knows.** -/
theorem CommitMove.inv {pc : Pc} {x : Access × Stage × List Candidate} (h : PcInv s t c pc)
    (hmove : CommitMove schema s t c pc x) : StepOk s t observations x := by
  have hgrows := fun a => s.grows_access (.tx t) (.tx t) a
  cases hmove with
  | refuse | aborted => exact .idle trivial
  | resolveRead hentries => exact .idle (resolveRead_inv hprep h hentries)
  | readsResolved =>
    obtain ⟨hstamp, hlocks, -, hcover⟩ := h
    exact .idle ⟨hprep, hstamp, hlocks, fun r hr hfound =>
      (hcover r hr hfound).resolve_left List.not_mem_nil⟩
  | duplicate hget => exact ⟨(getOrInsert_spec hstore _ hget).1, trivial, nofun⟩
  | resolveWrite hw hget =>
    obtain ⟨hstamp, hlocks, hcover⟩ := h
    obtain ⟨hpermitted, hlt, hhome, hstamps⟩ := getOrInsert_spec hstore (.tx t) hget
    refine ⟨hpermitted, ⟨?_, by rw [hstamps]; exact hstamp, hlocks, hcover⟩, nofun⟩
    refine (hprep.grows (hgrows _)).push hlt hhome rfl rfl rfl rfl rfl ?_ fun op hop => .inl hop
    exact forall_mem_concat.mpr ⟨fun w hw => .inl hw, .inr ⟨rfl, hw.slot⟩⟩
  | writesResolved | spin => exact .idle ⟨hprep, h⟩
  | resolveOp hop hget =>
    obtain ⟨hstamp, hlocks, hcover⟩ := h
    obtain ⟨hpermitted, hlt, hhome, hstamps⟩ := getOrInsert_spec hstore (.tx t) hget
    refine ⟨hpermitted, ⟨?_, by rw [hstamps]; exact hstamp, hlocks, hcover⟩, nofun⟩
    refine (hprep.grows (hgrows _)).push hlt hhome rfl rfl rfl rfl rfl (fun w hw => .inl hw) ?_
    exact forall_mem_concat.mpr ⟨fun op hop => .inl hop, .inr ⟨rfl, hop.slot⟩⟩
  | opsResolved => exact .idle (sort_inv hprep h)
  | lock hfree => exact lock_inv hprep hstore h hfree
  | attached hatt => exact .idle ⟨hprep, attached_inv hprep h hatt⟩
  | detached => exact .idle ⟨hprep, detached_inv hstore h⟩
  | locked => exact serialize_inv hprep hstore h
  | abort hvalidating => exact .idle ⟨hprep, (h.validating hvalidating).abort _⟩
  | noSlot _ hfound =>
    exact .fix hprep h.1 ⟨h.1.fix _, (h.2.grows (hgrows _)).next (.of_absent hfound)⟩
  | expectAbsent hfound => exact .idle ⟨hprep, h.1, h.2, hfound⟩
  | expectWord hindex hfound hexpected =>
    obtain ⟨hlt, hhome⟩ := hstore.home _ _ hindex
    exact .idle ⟨hprep, h.1, h.2, hfound, hlt, hhome, hexpected⟩
  | absent => exact .fix hprep h.1 ⟨h.1.fix _, (h.2.1.grows (hgrows _)).next (.of_absent h.2.2)⟩
  | word => exact .fix hprep h.1 (word_inv hprep hstore hobs h)
  | live hlive =>
    obtain ⟨hval, hdone, -, hfixed⟩ := h
    refine .idle ⟨hprep, hval, hdone.next (hfixed.resolve_right fun hdet => ?_)⟩
    -- only an attached item has a row in it
    rw [Content.isPrimaryInitialized, hstore.buffer_detached hdet] at hlive
    cases hlive
  | readsChecked => exact .idle ⟨hprep, h.1, h.2.confirmed⟩
  | range => exact .fix hprep h.1 ⟨h.1.fix _, h.2.grows (hgrows _)⟩
  | rangesChecked | insert | insertsChecked => exact .idle ⟨hprep, h⟩
  | unique => exact .idle ⟨hprep, h.1.toLocked, h.2, List.Subset.refl _⟩
  | installRow =>
    obtain ⟨hlocked, hconfirmed, hsub⟩ := h
    exact .install hprep hstore hlocked (hprep.listed _ (hprep.write _ (hsub (.head _)))) _
      fun hlocked hgrows => ⟨hlocked, hconfirmed.grows hgrows, fun w hw => hsub (.tail _ hw)⟩
  | rowsInstalled => exact .idle ⟨hprep, h.1, h.2.1, List.Subset.refl _⟩
  | installOp =>
    obtain ⟨hlocked, hconfirmed, hsub⟩ := h
    exact .install hprep hstore hlocked (hprep.listed _ (hprep.op _ (hsub (.head _)))) _
      fun hlocked hgrows => ⟨hlocked, hconfirmed.grows hgrows, fun op hop => hsub (.tail _ hop)⟩
  | opsInstalled => exact .idle (unlock_start hprep h)
  | unlock hword => exact unlock_inv hprep hstore h hword
  | unlocked => exact .idle ⟨hprep, h.2.1, purgeCandidates_inv hprep⟩
  | @enqueue candidate =>
    obtain ⟨hconfirmed, hcand⟩ := h
    refine ⟨trivial, ⟨hprep, hconfirmed, fun y hy => hcand y (.tail _ hy)⟩, fun y hy => ?_⟩
    unfold Candidate.enqueue at hy
    split_ifs at hy
    · cases hy
    · rw [List.mem_singleton.mp hy]
      exact hcand candidate (.head _)
  | committed => exact .idle ⟨hprep.reads, h.1⟩
  | release => exact abort_inv hprep h
  | skip =>
    obtain ⟨hnodup, hheld⟩ := h
    rw [List.map_cons] at hnodup
    exact .idle ⟨hprep, (List.nodup_cons.mp hnodup).2, fun l' hl' => hheld l' (.tail _ hl')⟩

end Commit

/-! ## The contract -/

/-- **Every step of a request is permitted and keeps what the request knows.** -/
theorem step_inv {r r' : Request} {choice : Choice} {a : Access} {candidates : List Candidate}
    (hstore : StoreInv s) (h : RequestInv s t r)
    (hstep : step schema s t r choice = some (a, r', candidates)) :
    a.Permitted s (.tx t) ∧ RequestInv (s.access (.tx t) a) t r' ∧
      ∀ c ∈ candidates, CandidateInv (s.access (.tx t) a) c := by
  have hnone : ∀ {s : Store}, ∀ c ∈ ([] : List Candidate), CandidateInv s c :=
    nofun
  obtain ⟨observations, stage⟩ := r
  obtain ⟨hobs, hstage⟩ := h
  cases choice with
  | read =>
    cases stage with
    | staging =>
      cases hstep
      obtain ⟨hpermitted, hinv⟩ := readStart_inv hobs hstage hstore
      exact ⟨hpermitted, hinv, hnone⟩
    | _ => cases hstep
  | submit =>
    cases stage with
    | staging =>
      simp only [step] at hstep
      split_ifs at hstep with hsub hend
      · cases hstep
        exact ⟨trivial, ⟨hobs, trivial⟩, hnone⟩
      · cases hstep
        refine ⟨trivial, ⟨hobs, submit_inv hsub hstage⟩, hnone⟩
    | _ => cases hstep
  | next =>
    cases stage with
    | reading =>
      cases hstep
      obtain ⟨hpermitted, hinv⟩ := readStep_inv hobs hstage.1 hstore hstage.2
      exact ⟨hpermitted, hinv, hnone⟩
    | committing =>
      cases hstep
      obtain ⟨hpermitted, hinv, hcand⟩ :=
        (commitStep_move schema s t _ _).inv hstage.1 hstore hobs hstage.2
      exact ⟨hpermitted, ⟨fun o ho => (hobs o ho).grows (s.grows_access (.tx t) (.tx t) _), hinv⟩,
        hcand⟩
    | _ => cases hstep

/-- Requests keep to the rules of the store. -/
def contract (schema : Schema) : Contract (client schema) where
  inv := RequestInv
  start hstamp := ⟨fun _ ho => absurd ho List.not_mem_nil, hstamp⟩
  rely _ h hrely := h.rely hrely
  step hstore h hstep := step_inv hstore h hstep

end LineairDB.Stateless
