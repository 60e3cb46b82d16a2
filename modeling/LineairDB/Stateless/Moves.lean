import LineairDB.Stateless.Commit

/-!
# What a request can do

How a step of a request ends: it is still being staged, is submitted, or takes
one step of `Commit`; and, inside `Commit`, what every statement can come to.

* `commitStep_move` — every statement of `Commit` is one of these.
* `step_cases` — and so is every step of a request.
-/

namespace LineairDB.Stateless

open Silo ByteFile

variable {r : Request} {pc : Pc}

variable {schema : Schema} {s : Store} {t : ℕ} {c : Commit}

/-! ## Resolving -/

theorem getOrInsert_collecting {k : Slot} {item : ItemId} {a : Access}
    (h : getOrInsert s k = (item, a)) : a.Collecting := by
  unfold getOrInsert at h
  split at h <;> cases h <;> trivial

/-- What Phase 0 notes of a write, when the request has an insert in it. -/
def requestKey (tableName key : Bytes) : Bytes := tableName ++ [0] ++ key

/-- A resolved write: the row is checked under its lock when the request inserts it and has
not noted the key before. -/
structure WriteResolved (c : Commit) (write : ExternalWriteEntry) (w : ResolvedWrite)
    (live : List (Bytes × Bool)) : Prop where
  tableName : w.tableName = write.tableName
  key : w.key = write.key
  value : w.value = write.value
  isDelete : w.isDelete = write.isDelete
  check : write ∈ c.writes → write.isInsert = true →
    c.liveInRequest.lookup (requestKey write.tableName write.key) = none →
    w.checkCommittedRow = true
  live : ∀ key ∈ live.map Prod.fst, key = requestKey write.tableName write.key ∨
    key ∈ c.liveInRequest.map Prod.fst

theorem WriteResolved.slot {write : ExternalWriteEntry} {w : ResolvedWrite}
    {live : List (Bytes × Bool)} (h : WriteResolved c write w live) :
    w.slot = .row write.tableName write.key := by
  unfold ResolvedWrite.slot
  rw [h.tableName, h.key]

/-- A resolved secondary-index operation. -/
structure OpResolved (schema : Schema) (op : ExternalSecondaryIndexEntry)
    (resolved : ResolvedSecondaryIndexOp) : Prop where
  tableName : resolved.tableName = op.tableName
  indexName : resolved.indexName = op.indexName
  secondaryKey : resolved.secondaryKey = op.secondaryKey
  primaryKey : resolved.primaryKey = op.primaryKey
  isDelete : resolved.isDelete = op.isDelete
  unique : ∃ indexes, schema op.tableName = some indexes ∧
    indexes op.indexName = some resolved.unique

theorem OpResolved.slot {op : ExternalSecondaryIndexEntry} {resolved : ResolvedSecondaryIndexOp}
    (h : OpResolved schema op resolved) :
    resolved.slot = .entry op.tableName op.indexName op.secondaryKey := by
  unfold ResolvedSecondaryIndexOp.slot
  rw [h.tableName, h.indexName, h.secondaryKey]

/-! ## Every statement of `Commit` -/

/-- The commit is in Phase 0 and holds no lock. -/
def Pc.isResolving : Pc → Bool
  | .resolveReads _ | .resolveWrites _ | .resolveSecondary _ => true
  | _ => false

/-- The commit is in Phase 2. -/
def Pc.isValidating : Pc → Bool
  | .exactRead _ | .exactAbsent _ _ _ | .exactWord _ _ _ _ | .exactLive _ _ _ | .ranges _
  | .inserts _ | .unique => true
  | _ => false

/-- What a statement of `Commit` can come to. -/
inductive CommitMove (schema : Schema) (s : Store) (t : ℕ) (c : Commit) :
    Pc → Access × Stage × List Candidate → Prop
  /-- The request is refused before it has taken a lock. -/
  | refuse {pc : Pc} {reason : AbortReason} (hpc : pc.isResolving = true) :
      CommitMove schema s t c pc (.idle, .aborted reason, [])
  | resolveRead {read : Observation} {todo entries : List Observation}
      (hentries : entries = c.validationEntries ++ [read] ∨
        entries = c.validationEntries ∧ read.found = false) :
      CommitMove schema s t c (.resolveReads (read :: todo))
        (.idle, .committing { c with validationEntries := entries } (.resolveReads todo), [])
  | readsResolved :
      CommitMove schema s t c (.resolveReads [])
        (.idle, .committing c (.resolveWrites c.writes), [])
  | duplicate {write : ExternalWriteEntry} {todo : List ExternalWriteEntry} {item : ItemId}
      {a : Access} (hget : getOrInsert s (.row write.tableName write.key) = (item, a)) :
      CommitMove schema s t c (.resolveWrites (write :: todo))
        (a, .aborted .duplicatePrimaryKey, [])
  | resolveWrite {write : ExternalWriteEntry} {todo : List ExternalWriteEntry}
      {w : ResolvedWrite} {live : List (Bytes × Bool)} {a : Access}
      (hw : WriteResolved c write w live)
      (hget : getOrInsert s (.row write.tableName write.key) = (w.item, a)) :
      CommitMove schema s t c (.resolveWrites (write :: todo))
        (a, .committing
          { c with
            liveInRequest := live
            resolvedWrites := c.resolvedWrites ++ [w]
            lockItems := c.lockItems ++ [w.item]
            lockTargets := c.lockTargets ++ [⟨w.item, .row write.tableName write.key⟩] }
          (.resolveWrites todo), [])
  | writesResolved :
      CommitMove schema s t c (.resolveWrites [])
        (.idle, .committing c (.resolveSecondary c.secondaryIndexOps), [])
  | resolveOp {op : ExternalSecondaryIndexEntry} {todo : List ExternalSecondaryIndexEntry}
      {resolved : ResolvedSecondaryIndexOp} {adds : List Bytes} {a : Access}
      (hop : OpResolved schema op resolved)
      (hget : getOrInsert s (.entry op.tableName op.indexName op.secondaryKey)
        = (resolved.item, a)) :
      CommitMove schema s t c (.resolveSecondary (op :: todo))
        (a, .committing
          { c with
            uniqueSiAdds := adds
            resolvedSiOps := c.resolvedSiOps ++ [resolved]
            lockItems := c.lockItems ++ [resolved.item]
            lockTargets := c.lockTargets ++
              [⟨resolved.item, .entry op.tableName op.indexName op.secondaryKey⟩] }
          (.resolveSecondary todo), [])
  | opsResolved :
      CommitMove schema s t c (.resolveSecondary [])
        (.idle, .committing { c with lockItems := sortedUnique schema c.lockItems }
          (.lock (sortedUnique schema c.lockItems)), [])
  | spin {item : ItemId} {todo : List ItemId} (hlocked : (s.item item).word.isLocked = true) :
      CommitMove schema s t c (.lock (item :: todo))
        (.idle, .committing c (.lock (item :: todo)), [])
  | lock {item : ItemId} {todo : List ItemId} (hfree : (s.item item).word.isLocked = false) :
      CommitMove schema s t c (.lock (item :: todo))
        (.lock item, .committing
          { c with
            lockedTids := c.lockedTids ++ [⟨item, (s.item item).word, (s.item item).word.locked⟩] }
          (.attached item todo), [])
  | attached {item : ItemId} {todo : List ItemId} (hatt : lockTargetAttached s c item = true) :
      CommitMove schema s t c (.attached item todo) (.idle, .committing c (.lock todo), [])
  | detached {item : ItemId} {todo : List ItemId} :
      CommitMove schema s t c (.attached item todo)
        (.idle, .committing c (.abort .writeTargetDetached c.lockedTids), [])
  | locked :
      CommitMove schema s t c (.lock [])
        (.serialize, .committing c (.exactRead c.validationEntries), [])
  /-- A check of Phase 2 has failed. -/
  | abort {pc : Pc} {reason : AbortReason} (hpc : pc.isValidating = true) :
      CommitMove schema s t c pc (.idle, .committing c (.abort reason c.lockedTids), [])
  | noSlot {read : Observation} {todo : List Observation} (hindex : s.index read.slot = none)
      (hfound : read.found = false) :
      CommitMove schema s t c (.exactRead (read :: todo))
        (.fix (freeSlots s t), .committing c (.exactRead todo), [])
  | expectAbsent {read : Observation} {todo : List Observation} {item : ItemId}
      (hfound : read.found = false) :
      CommitMove schema s t c (.exactRead (read :: todo))
        (.idle, .committing c (.exactAbsent item read todo), [])
  | expectWord {read : Observation} {todo : List Observation} {item : ItemId}
      {expected : TransactionId} (hindex : s.index read.slot = some item)
      (hfound : read.found = true) (hexpected : expected = read.tid ∨
        ∃ l ∈ c.lockedTids, l.item = item ∧ l.beforeLock = read.tid ∧ expected = l.locked) :
      CommitMove schema s t c (.exactRead (read :: todo))
        (.idle, .committing c (.exactWord item expected read todo), [])
  | absent {item : ItemId} {read : Observation} {todo : List Observation}
      (hdead : (s.item item).content.isPrimaryInitialized = false) :
      CommitMove schema s t c (.exactAbsent item read todo)
        (.fix (freeSlots s t), .committing c (.exactRead todo), [])
  | word {item : ItemId} {read : Observation} {todo : List Observation} :
      CommitMove schema s t c (.exactWord item (s.item item).word read todo)
        (.fix (freeSlots s t), .committing c (.exactLive item read todo), [])
  | live {item : ItemId} {read : Observation} {todo : List Observation}
      (hlive : (s.item item).content.isPrimaryInitialized = true) :
      CommitMove schema s t c (.exactLive item read todo)
        (.idle, .committing c (.exactRead todo), [])
  | readsChecked :
      CommitMove schema s t c (.exactRead []) (.idle, .committing c (.ranges c.rangeReads), [])
  | range {range : ExternalRangeReadEntry} {todo : List ExternalRangeReadEntry} :
      CommitMove schema s t c (.ranges (range :: todo))
        (.fix (freeSlots s t), .committing c (.ranges todo), [])
  | rangesChecked :
      CommitMove schema s t c (.ranges []) (.idle, .committing c (.inserts c.resolvedWrites), [])
  | insert {write : ResolvedWrite} {todo : List ResolvedWrite}
      (hfree : write.checkCommittedRow = true →
        (s.item write.item).content.isPrimaryInitialized = false) :
      CommitMove schema s t c (.inserts (write :: todo)) (.idle, .committing c (.inserts todo), [])
  | insertsChecked : CommitMove schema s t c (.inserts []) (.idle, .committing c .unique, [])
  | unique (hunique : uniqueRecheck s [] c.resolvedSiOps = true) :
      CommitMove schema s t c .unique (.idle, .committing c (.installRows c.resolvedWrites), [])
  | installRow {write : ResolvedWrite} {todo : List ResolvedWrite} :
      CommitMove schema s t c (.installRows (write :: todo))
        (.install write.item (installedRow (s.item write.item) write),
          .committing c (.installRows todo), [])
  | rowsInstalled :
      CommitMove schema s t c (.installRows [])
        (.idle, .committing c (.installSecondary c.resolvedSiOps), [])
  | installOp {op : ResolvedSecondaryIndexOp} {todo : List ResolvedSecondaryIndexOp} :
      CommitMove schema s t c (.installSecondary (op :: todo))
        (.install op.item (installedEntry (s.item op.item) op),
          .committing c (.installSecondary todo), [])
  | opsInstalled :
      CommitMove schema s t c (.installSecondary [])
        (.idle, .committing { c with siEmptyAfterInstall := siEmptyAfterInstall s c }
          (.unlock c.lockItems), [])
  | unlock {item : ItemId} {todo : List ItemId} {unlocked : TransactionId}
      (hword : unlocked = (s.item item).word.next (s.commitEpoch (.tx t))) :
      CommitMove schema s t c (.unlock (item :: todo))
        (.publish item unlocked, .committing
          { c with unlockedTids := c.unlockedTids ++ [(item, unlocked)] } (.unlock todo), [])
  | unlocked :
      CommitMove schema s t c (.unlock [])
        (.idle, .committing c (.enqueue (purgeCandidates c)), [])
  | enqueue {candidate : Candidate} {todo : List Candidate} :
      CommitMove schema s t c (.enqueue (candidate :: todo))
        (.idle, .committing c (.enqueue todo), candidate.enqueue)
  | committed : CommitMove schema s t c (.enqueue []) (.idle, .committed c, [])
  | release {reason : AbortReason} {l : LockedTid} {todo : List LockedTid} :
      CommitMove schema s t c (.abort reason (l :: todo))
        (.storeWord l.item (s.item l.item).word.unlocked, .committing c (.abort reason todo), [])
  | skip {reason : AbortReason} {l : LockedTid} {todo : List LockedTid}
      (hfree : (s.item l.item).word.isLocked = false) :
      CommitMove schema s t c (.abort reason (l :: todo))
        (.idle, .committing c (.abort reason todo), [])
  | aborted {reason : AbortReason} :
      CommitMove schema s t c (.abort reason []) (.idle, .aborted reason, [])

theorem resolveRead_move (read : Observation) (todo : List Observation) :
    CommitMove schema s t c (.resolveReads (read :: todo))
      (.idle, resolveRead schema c read todo, []) := by
  unfold resolveRead
  split
  · split_ifs with hseen
    · exact .refuse rfl
    · exact .resolveRead (.inr ⟨rfl, eq_false_of_ne_true fun hfound => hseen (.inl hfound)⟩)
  · exact .resolveRead (.inl rfl)

theorem resolveWrite_move (write : ExternalWriteEntry) (todo : List ExternalWriteEntry) :
    CommitMove schema s t c (.resolveWrites (write :: todo))
      ((resolveWrite schema s c write todo).1, (resolveWrite schema s c write todo).2, []) := by
  unfold resolveWrite
  split
  · exact .refuse rfl
  · dsimp only
    split_ifs with hduplicate hany
    · exact .duplicate rfl
    · refine .resolveWrite ⟨rfl, rfl, rfl, rfl, ?_, ?_⟩ rfl
      · intro hmem hinsert hnone
        unfold requestKey at hnone
        rw [hnone, hany, hinsert]
        rfl
      · intro key hkey
        rw [List.map_cons] at hkey
        exact List.mem_cons.mp hkey
    · refine .resolveWrite ⟨rfl, rfl, rfl, rfl, ?_, fun key hkey => .inr hkey⟩ rfl
      intro hmem hinsert _
      exact absurd (List.any_eq_true.mpr ⟨write, hmem, hinsert⟩) hany

theorem resolveSecondary_move (op : ExternalSecondaryIndexEntry)
    (todo : List ExternalSecondaryIndexEntry) :
    CommitMove schema s t c (.resolveSecondary (op :: todo))
      ((resolveSecondary schema s c op todo).1, (resolveSecondary schema s c op todo).2, []) := by
  unfold resolveSecondary
  split
  · exact .refuse rfl
  · rename_i indexes htable
    split
    · exact .refuse rfl
    · rename_i unique hunique
      dsimp only
      split_ifs with hduplicate hadd
      · exact .refuse rfl
      · exact .resolveOp ⟨rfl, rfl, rfl, rfl, rfl, indexes, htable, hunique⟩ rfl
      · exact .resolveOp ⟨rfl, rfl, rfl, rfl, rfl, indexes, htable, hunique⟩ rfl

theorem exactRead_move (read : Observation) (todo : List Observation) :
    CommitMove schema s t c (.exactRead (read :: todo))
      ((exactRead s t c read todo).1, .committing c (exactRead s t c read todo).2, []) := by
  unfold exactRead
  split
  · rename_i hindex
    split_ifs with hfound
    · exact .abort rfl
    · exact .noSlot hindex (eq_false_of_ne_true hfound)
  · rename_i item hindex
    split_ifs with hfound
    · exact .expectAbsent (by simpa using hfound)
    · have hfound' : read.found = true := by simpa using hfound
      split
      · rename_i locked hfind
        split_ifs with hbefore
        · exact .abort rfl
        · have hitem : locked.item = item := by simpa using List.find?_some hfind
          exact .expectWord hindex hfound'
            (.inr ⟨locked, List.mem_of_find?_eq_some hfind, hitem, not_not.mp hbefore, rfl⟩)
      · exact .expectWord hindex hfound' (.inl rfl)

/-- **Every statement of `Commit` is one of these.** -/
theorem commitStep_move (schema : Schema) (s : Store) (t : ℕ) (c : Commit) (pc : Pc) :
    CommitMove schema s t c pc (commitStep schema s t c pc) := by
  cases pc with
  | resolveReads todo =>
    cases todo with
    | nil => exact .readsResolved
    | cons read todo => exact resolveRead_move read todo
  | resolveWrites todo =>
    cases todo with
    | nil => exact .writesResolved
    | cons write todo => exact resolveWrite_move write todo
  | resolveSecondary todo =>
    cases todo with
    | nil => exact .opsResolved
    | cons op todo => exact resolveSecondary_move op todo
  | lock todo =>
    cases todo with
    | nil => exact .locked
    | cons =>
      simp only [commitStep]
      split_ifs with hlocked
      · exact .spin hlocked
      · exact .lock (eq_false_of_ne_true hlocked)
  | attached =>
    simp only [commitStep]
    split_ifs with hatt
    · exact .attached hatt
    · exact .detached
  | exactRead todo =>
    cases todo with
    | nil => exact .readsChecked
    | cons read todo => exact exactRead_move read todo
  | exactAbsent =>
    simp only [commitStep, validateStep]
    split_ifs with hlive
    · exact .abort rfl
    · exact .absent (eq_false_of_ne_true hlive)
  | exactWord =>
    simp only [commitStep, validateStep]
    split_ifs with hword
    · exact .abort rfl
    · rw [← not_not.mp hword]
      exact .word
  | exactLive =>
    simp only [commitStep, validateStep]
    split_ifs with hdead
    · exact .abort rfl
    · exact .live (by simpa using hdead)
  | ranges todo =>
    cases todo with
    | nil => exact .rangesChecked
    | cons =>
      simp only [commitStep, validateStep]
      split_ifs
      · exact .range
      · exact .abort rfl
      · exact .abort rfl
  | inserts todo =>
    cases todo with
    | nil => exact .insertsChecked
    | cons =>
      simp only [commitStep, validateStep]
      split_ifs with hlive
      · exact .abort rfl
      · exact .insert fun hcheck => eq_false_of_ne_true fun hrow => hlive ⟨hcheck, hrow⟩
  | unique =>
    simp only [commitStep, validateStep]
    split_ifs with hunique
    · exact .unique hunique
    · exact .abort rfl
  | installRows todo =>
    cases todo with
    | nil => exact .rowsInstalled
    | cons => exact .installRow
  | installSecondary todo =>
    cases todo with
    | nil => exact .opsInstalled
    | cons => exact .installOp
  | unlock todo =>
    cases todo with
    | nil => exact .unlocked
    | cons => exact .unlock rfl
  | enqueue todo =>
    cases todo with
    | nil => exact .committed
    | cons => exact .enqueue
  | abort reason todo =>
    cases todo with
    | nil => exact .aborted
    | cons =>
      simp only [commitStep]
      split_ifs with hlocked
      · exact .release
      · exact .skip (eq_false_of_ne_true hlocked)

/-! ## Steps -/

/-- The request is not being committed. -/
def Stage.isStaging : Stage → Bool
  | .staging | .reading _ _ _ => true
  | _ => false

/-- A step stages the request, submits it, or is one of its commit. -/
inductive StepCase (schema : Schema) (s : Store) (t : ℕ) :
    Request → Access × Request × List Candidate → Prop
  | read {r : Request} {a : Access} {observations : List Observation}
      (hstage : r.stage.isStaging = true) (ha : a.Collecting) :
      StepCase schema s t r (a, ⟨observations, .staging⟩, [])
  | reading {r : Request} {tableName key : Bytes} {reading : Reading}
      (hstage : r.stage.isStaging = true) :
      StepCase schema s t r (.idle, ⟨r.observations, .reading tableName key reading⟩, [])
  | refuse {r : Request} {reason : AbortReason} (hstage : r.stage.isStaging = true) :
      StepCase schema s t r (.idle, ⟨r.observations, .aborted reason⟩, [])
  | submit {r : Request} {reads : List Observation} {writes : List ExternalWriteEntry}
      {secondaryIndexOps : List ExternalSecondaryIndexEntry}
      {rangeReads : List ExternalRangeReadEntry} (hstage : r.stage.isStaging = true) :
      StepCase schema s t r
        (.idle, ⟨r.observations, .committing
          { reads := reads
            writes := writes
            secondaryIndexOps := secondaryIndexOps
            rangeReads := rangeReads }
          (.resolveReads reads)⟩, [])
  | commit {observations : List Observation} {c : Commit} {pc : Pc} {a : Access} {stage : Stage}
      {candidates : List Candidate} (hmove : CommitMove schema s t c pc (a, stage, candidates)) :
      StepCase schema s t ⟨observations, .committing c pc⟩ (a, ⟨observations, stage⟩, candidates)

theorem readStart_cases {tableName key : Bytes} (hstage : r.stage.isStaging = true) :
    StepCase schema s t r
      ((readStart schema s r.observations tableName key).1,
        (readStart schema s r.observations tableName key).2, []) := by
  unfold readStart
  split
  · exact .read hstage trivial
  · split
    · exact .read hstage trivial
    · exact .reading hstage

theorem readStep_cases {tableName key : Bytes} {byte : UInt8} {reading : Reading}
    (hstage : r.stage.isStaging = true) :
    StepCase schema s t r
      ((readStep s r.observations tableName key byte reading).1,
        (readStep s r.observations tableName key byte reading).2, []) := by
  cases reading with
  | size => exact .reading hstage
  | reload =>
    simp only [readStep]
    split_ifs
    · exact .read hstage trivial
    · exact .reading hstage
  | _ =>
    simp only [readStep]
    split_ifs <;> exact .reading hstage

/-- **Every step of a request** stages it, submits it, or is one of its commit. -/
theorem step_cases {choice : Choice} {x : Access × Request × List Candidate}
    (h : step schema s t r choice = some x) : StepCase schema s t r x := by
  obtain ⟨observations, stage⟩ := r
  cases choice with
  | read =>
    cases stage with
    | staging =>
      cases h
      exact readStart_cases rfl
    | _ => cases h
  | submit =>
    cases stage with
    | staging =>
      simp only [step] at h
      split_ifs at h
      · cases h
        exact .refuse rfl
      · cases h
        exact .submit rfl
    | _ => cases h
  | next =>
    cases stage with
    | reading =>
      cases h
      exact readStep_cases rfl
    | committing =>
      cases h
      exact .commit (commitStep_move ..)
    | _ => cases h

end LineairDB.Stateless
