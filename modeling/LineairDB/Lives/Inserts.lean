import LineairDB.Lives.Committers
import LineairDB.Native.Publishing
import LineairDB.Stateless.Publishing

/-!
# Inserts are exclusive

`Insert` claims a key early and without a lock; what binds is the look at the
locked item before anything is installed. From there on the slot cannot change
until the committer publishes, so the version it publishes comes right behind a
tombstone, or is the first.

* `claims_run` — whatever was looked at under its lock is published behind a
  slot without a row.
* `insert_exclusive` — a committed insert has found its key without a row, and
  between two of them the key has been deleted.
* `colliding_insert_over_row` — a request that names its keys by table and key
  joined by a zero byte takes two keys for one, and inserts over a row.
-/

namespace LineairDB.Lives

open Silo ByteFile Transition
open Stateless (Schema requestKey ExternalWriteEntry Request Commit RequestInv Observation Pc
  CommitMove ResolvedWrite Prepared PcInv)
open Native (Transaction TransactionInv WriteSnapshot)

variable {tx tx' : Transaction} {choice : Native.Choice} {a : Access}
  {candidates : List Candidate} {r r' : Request} {c : Commit}
  {write : ExternalWriteEntry}

/-! ## Native transactions -/

/-- The slot had no live row before. -/
def Free (before _after : Content) : Prop := before.isPrimaryInitialized = false

/-- An entry that inserts finds no live row. -/
def Claims (w : WriteSnapshot) (before after : Content) : Prop :=
  w.isInsert = true → Free before after

theorem respects_claims : Native.Respects Claims := fun _ _ _ _ hclaims => hclaims

variable {schema : Schema} {s s' : Store} {t : ℕ} {k : Slot}

/-- What a transaction has looked at under its locks. -/
def Looked (s : Store) (tx : Transaction) : Prop :=
  ∀ todo, tx.stage = .inserts todo → ∀ w ∈ tx.writeSet, w.isInsert = true →
    w ∈ todo ∨ (s.item w.item).content.isPrimaryInitialized = false

theorem Looked.rely (hinv : TransactionInv s t tx) (h : Looked s tx)
    (hrely : Rely (.tx t) s s') : Looked s' tx := by
  intro todo hstage w hw hinsert
  refine (h todo hstage w hw hinsert).imp_right fun hdead => ?_
  have hvalidating := hinv.stage
  rw [hstage] at hvalidating
  rw [(hrely.held _ (hvalidating.1.held w hw).1.holder).1]
  exact hdead

theorem Looked.of_stage (hstage : ∀ todo, tx.stage ≠ .inserts todo) : Looked s tx :=
  fun todo heq => absurd heq (hstage todo)

theorem Looked.commit (h : Looked s tx) (valid : Bool) :
    Looked (s.access (.tx t) (tx.commitStep s t valid tx.stage).1)
      (tx.commitStep s t valid tx.stage).2.1 := by
  generalize hstage : tx.stage = stage
  fun_cases Transaction.commitStep s t tx valid stage with
  | case2 | case22 => exact h
  -- the loop over the inserts begins, and goes on
  | case9 =>
    intro todo heq w hw _
    cases heq
    exact .inl hw
  | case13 w todo hlive =>
    intro todo' heq w' hw' hinsert
    cases heq
    rcases h _ hstage w' hw' hinsert with hmem | hdead
    · rcases List.mem_cons.mp hmem with rfl | hmem
      · exact .inr (eq_false_of_ne_true fun hrow => hlive ⟨hinsert, hrow⟩)
      · exact .inl hmem
    · exact .inr hdead
  | _ => exact .of_stage fun _ heq => by cases heq

theorem Looked.step (h : Looked s tx)
    (hstep : Native.step schema s t tx choice = some (a, tx', candidates)) :
    Looked (s.access (.tx t) a) tx' := by
  rcases Native.step_stage hstep with ⟨-, -, hstage'⟩ | ⟨-, -, hx⟩ | ⟨valid, hx⟩
  · refine .of_stage fun todo heq => ?_
    rw [heq] at hstage'
    rcases hstage' with hstage' | hstage' <;> cases hstage'
  · cases hx
    exact .of_stage fun _ heq => by cases heq
  · have hcommit := h.commit (t := t) valid
    rw [← hx] at hcommit
    exact hcommit

variable {pc : Pc}

section

variable (hstore : StoreInv s)

include hstore

/-- With the last look every insert has been found free. -/
theorem Looked.decide (hinv : TransactionInv s t tx) (h : Looked s tx)
    (hstage : tx.stage = .inserts []) (w : WriteSnapshot) (hw : w ∈ tx.writeSet) :
    Claims w (s.current w.slot) (w.installed (s.item w.item).content) := by
  intro hinsert
  have hvalidating := hinv.stage
  rw [hstage] at hvalidating
  have hdead := (h [] hstage w hw hinsert).resolve_left List.not_mem_nil
  unfold Free
  rw [← (hvalidating.1.entries.item w hw).2,
    hstore.attached_row (hvalidating.1.held w hw).2 (hvalidating.1.clean w hw)]
  exact hdead

/-- What a transaction has looked at, and what it has published. -/
structure NativeClaims (s : Store) (t : ℕ) (tx : Transaction) : Prop where
  looked : Looked s tx
  publishes : Native.Publishes Claims s t tx

theorem NativeClaims.rely (hstore' : StoreInv s')
    (hinv : TransactionInv s t tx) (h : NativeClaims s t tx) (hrely : Rely (.tx t) s s') :
    NativeClaims s' t tx :=
  ⟨h.looked.rely hinv hrely, h.publishes.rely hstore hstore' hinv hrely⟩

theorem NativeClaims.step (hinv : TransactionInv s t tx)
    (h : NativeClaims s t tx)
    (hstep : Native.step schema s t tx choice = some (a, tx', candidates)) :
    NativeClaims (s.access (.tx t) a) t tx' :=
  ⟨h.looked.step hstep, h.publishes.step respects_claims hinv (h.looked.decide hstore hinv) hstep⟩

/-! ## Stateless requests -/

/-- A row that is looked at under its lock is not there. -/
def ClaimsRow : Stateless.Publication := fun writes _ k before after =>
  (∃ w ∈ writes, w.slot = k ∧ w.checkCommittedRow = true) → Free before after

/-- The rows a commit has looked at: in its items first, and from its install loops on in
what their slots hold. -/
def PcLooked (s : Store) (c : Commit) : Pc → Prop
  | .inserts todo => ∀ w ∈ c.resolvedWrites, w.checkCommittedRow = true →
      w ∈ todo ∨ (s.item w.item).content.isPrimaryInitialized = false
  | .unique => ∀ w ∈ c.resolvedWrites, w.checkCommittedRow = true →
      (s.item w.item).content.isPrimaryInitialized = false
  | .installRows _ | .installSecondary _ => ∀ w ∈ c.resolvedWrites, w.checkCommittedRow = true →
      (s.current w.slot).isPrimaryInitialized = false
  | _ => True

/-- What a request has seen of the keys it inserts. -/
def RequestLooked (s : Store) (r : Request) : Prop :=
  match r.stage with
  | .committing c pc => PcLooked s c pc
  | _ => True

theorem RequestLooked.rely (hstore' : StoreInv s')
    (hinv : RequestInv s t r) (h : RequestLooked s r) (hrely : Rely (.tx t) s s') :
    RequestLooked s' r := by
  obtain ⟨observations, stage⟩ := r
  cases stage with
  | committing c pc =>
    obtain ⟨hprepared, hpc⟩ := hinv.stage
    -- the rows of the request are in items it holds
    have held : Stateless.Locked s t c → ∀ w ∈ c.resolvedWrites,
        s'.item w.item = s.item w.item ∧ s'.current w.slot = s.current w.slot :=
      fun hlocked w hw =>
        hlocked.target_rely hprepared hstore hstore' hrely (hprepared.write w hw)
    cases pc with
    | inserts =>
      refine fun w hw hcheck => (h w hw hcheck).imp_right fun hdead => ?_
      rw [(held hpc.1.toLocked w hw).1]
      exact hdead
    | unique =>
      intro w hw hcheck
      rw [(held hpc.1.toLocked w hw).1]
      exact h w hw hcheck
    | installRows | installSecondary =>
      intro w hw hcheck
      rw [(held hpc.1 w hw).2]
      exact h w hw hcheck
    | _ => trivial
  | _ => trivial

/-- One step of `Commit`. -/
theorem RequestLooked.commit {observations : List Observation}
    {x : Access × Stateless.Stage × List Candidate} (hprepared : Prepared s observations c)
    (hpc : PcInv s t c pc) (h : PcLooked s c pc)
    (hmove : CommitMove schema s t c pc x) :
    RequestLooked (s.access (.tx t) x.1) ⟨observations, x.2.1⟩ := by
  cases hmove with
  | rangesChecked => exact fun w hw _ => .inl hw
  | insert hfree =>
    intro w hw hcheck
    rcases h w hw hcheck with hmem | hdead
    · rcases List.mem_cons.mp hmem with rfl | hmem
      · exact .inr (hfree hcheck)
      · exact .inl hmem
    · exact .inr hdead
  | insertsChecked => exact fun w hw hcheck => (h w hw hcheck).resolve_left List.not_mem_nil
  | unique =>
    intro w hw hcheck
    have hlisted : w.item ∈ c.lockItems := hprepared.listed _ (hprepared.write w hw)
    show (s.current w.slot).isPrimaryInitialized = false
    rw [← hprepared.write_home hw,
      hstore.attached_row (hpc.1.attached _ hlisted) (hpc.1.clean_of_mem hlisted)]
    exact h w hw hcheck
  | installRow | rowsInstalled | installOp => exact h
  | _ => trivial

theorem RequestLooked.step {choice : Stateless.Choice}
    {x : Access × Request × List Candidate} (hinv : RequestInv s t r)
    (h : RequestLooked s r) (hstep : Stateless.step schema s t r choice = some x) :
    RequestLooked (s.access (.tx t) x.1) x.2.1 := by
  cases Stateless.step_cases hstep with
  | commit hmove => exact .commit hstore hinv.stage.1 hinv.stage.2 h hmove
  | _ => trivial

/-- What a request has looked at, and what it has published. -/
structure RequestClaims (s : Store) (t : ℕ) (r : Request) : Prop where
  looked : RequestLooked s r
  publishes : Stateless.Publishes ClaimsRow s t r

theorem RequestClaims.rely (hstore' : StoreInv s')
    (hinv : RequestInv s t r) (h : RequestClaims s t r) (hrely : Rely (.tx t) s s') :
    RequestClaims s' t r :=
  ⟨h.looked.rely hstore hstore' hinv hrely, h.publishes.rely hstore hstore' hinv hrely⟩

theorem RequestClaims.step {choice : Stateless.Choice}
    (hinv : RequestInv s t r) (h : RequestClaims s t r)
    (hstep : Stateless.step schema s t r choice = some (a, r', candidates)) :
    RequestClaims (s.access (.tx t) a) t r' := by
  refine ⟨h.looked.step hstore hinv hstep, h.publishes.step hinv ?_ hstep⟩
  rintro c hstage i hi ⟨w, hw, hslot, hcheck⟩
  have hlooked := h.looked
  unfold RequestLooked at hlooked
  rw [hstage] at hlooked
  rw [← hslot]
  exact hlooked w hw hcheck

end

/-- **Whatever was looked at under its lock is published behind a slot without a row.** -/
theorem claims_run {actions : List (Action Choice)} {s : State Committer}
    (hrun : run (committers schema).next (committers schema).initial actions = some s) (t : ℕ) :
    Either NativeClaims RequestClaims s.store t (s.phase t) :=
  (either_asserted schema (G := fun _ _ => True) (S := fun _ => True) trivial
    (fun _ => ⟨⟨.of_stage fun _ heq => (by cases heq), Native.publishes_start⟩,
      ⟨trivial, Stateless.publishes_start⟩⟩)
    (fun _ _ _ _ => trivial) (fun hstore hstore' hinv h hrely => h.rely hstore hstore' hinv hrely)
    (fun hstore hstore' hinv h hrely => h.rely hstore hstore' hinv hrely)
    (fun hstore _ hinv h _ _ hstep => ⟨trivial, h.step hstore hinv hstep⟩)
    (fun hstore _ hinv h _ _ hstep => ⟨trivial, h.step hstore hinv hstep⟩)
    (.of_forall (fun _ _ => trivial) _ _) hrun).2.2 t

/-! ## Whose first write is an insert -/

/-- The transaction will look at the key under its lock, unless it gives up. -/
def Marked (k : Slot) (tx : Transaction) : Prop :=
  tx.stage.failed = true ∨
    (∃ value, tx.stage = .writing k value true ∧ tx.findWrite k = none) ∨
    ∃ w ∈ tx.writes, w.slot = k ∧ w.isInsert = true

/-- A mark is for good. -/
theorem Marked.step (h : Marked k tx)
    (hstep : Native.step schema s t tx choice = some (a, tx', candidates)) : Marked k tx' := by
  rcases h with hfailed | ⟨value, hstage, hnone⟩ | ⟨w, hw, hslot, hinsert⟩
  · exact .inl (Native.failed_keeps hstep hfailed)
  · -- the `Write` that ends the insert
    cases choice with
    | next =>
      simp only [Native.step, hstage] at hstep
      cases hstep
      unfold Transaction.write
      rw [hnone]
      exact .inr (.inr ⟨_, List.mem_concat_self, rfl, rfl⟩)
    | _ => simp [Native.step, hstage] at hstep
  · rcases Native.step_writes hstep hw with hfailed | ⟨w', hw', hchanged⟩
    · exact .inl hfailed
    · exact .inr (.inr ⟨w', hw', hchanged.slot.trans hslot, hchanged.isInsert hinsert⟩)

/-- `Insert` of a key the transaction has not written marks it. -/
theorem marked_insert {tableName key value : Bytes}
    (hnone : tx.findWrite (.row tableName key) = none)
    (hstep : Native.step schema s t tx (.insert tableName key value)
      = some (a, tx', candidates)) : Marked (.row tableName key) tx' := by
  have hcall : ∃ y : Access × Transaction, Native.call schema s tx
      (.insert tableName key value) = some y ∧ y.2 = tx' := by
    cases hstage : tx.stage with
    | running =>
      simp only [Native.step, hstage] at hstep
      obtain ⟨y, hy, heq⟩ := Option.map_eq_some_iff.mp hstep
      cases heq
      exact ⟨y, hy, rfl⟩
    | _ => simp [Native.step, hstage] at hstep
  obtain ⟨y, hy, rfl⟩ := hcall
  obtain ⟨_, -, rfl⟩ := Option.map_eq_some_iff.mp hy
  have marked : ∀ {tx' : Transaction}, tx'.stage = .writing (.row tableName key) value true →
      tx'.writeSet = tx.writeSet → Marked (.row tableName key) tx' := by
    intro tx' hstage hwrites
    refine .inr (.inl ⟨value, hstage, ?_⟩)
    unfold Transaction.findWrite at hnone ⊢
    rw [hwrites]
    exact hnone
  unfold Transaction.insert
  rw [hnone]
  dsimp only
  split
  · split_ifs
    · exact .inl rfl
    · exact marked rfl rfl
  · exact marked rfl rfl

/-- The entry inserts its key, and no entry before it has written the key. -/
def FirstInsert (writes : List ExternalWriteEntry)
    (write : ExternalWriteEntry) : Prop :=
  write.isInsert = true ∧ ∃ earlier later, writes = earlier ++ write :: later ∧
    ∀ w ∈ earlier, ¬ (w.tableName = write.tableName ∧ w.key = write.key)

/-- The request tells its keys apart by table and key joined by a zero byte. -/
def Distinguished (writes : List ExternalWriteEntry) : Prop :=
  ∀ a ∈ writes, ∀ b ∈ writes,
    requestKey a.tableName a.key = requestKey b.tableName b.key →
      a.tableName = b.tableName ∧ a.key = b.key

/-- The first inserts will be looked at under their locks. -/
def Looks (c : Commit) (writes : List ExternalWriteEntry) : Prop :=
  ∀ write, FirstInsert writes write → ∃ w ∈ c.resolvedWrites,
    w.slot = .row write.tableName write.key ∧ w.checkCommittedRow = true

/-- The keys the request has noted belong to the entries it has resolved. -/
def Noted (c : Commit) (done : List ExternalWriteEntry) : Prop :=
  ∀ key ∈ c.liveInRequest.map Prod.fst, ∃ w ∈ done, key = requestKey w.tableName w.key

theorem firstInsert_concat {writes : List ExternalWriteEntry}
    {write' : ExternalWriteEntry} (h : FirstInsert (writes ++ [write]) write') :
    FirstInsert writes write' ∨ write' = write ∧
      ∀ w ∈ writes, ¬ (w.tableName = write.tableName ∧ w.key = write.key) := by
  obtain ⟨hinsert, earlier, later, heq, hearlier⟩ := h
  rcases List.eq_nil_or_concat later with rfl | ⟨later, last, rfl⟩
  · obtain ⟨rfl, hlast⟩ := List.append_inj' heq rfl
    cases hlast
    exact .inr ⟨rfl, hearlier⟩
  · rw [List.concat_eq_append, ← List.cons_append, ← List.append_assoc] at heq
    obtain ⟨rfl, -⟩ := List.append_inj' heq rfl
    exact .inl ⟨hinsert, earlier, later, rfl, hearlier⟩

/-- Resolving one more write. -/
theorem Looks.resolve {done todo : List ExternalWriteEntry} {w : ResolvedWrite}
    {live : List (Bytes × Bool)} (hkeys : Distinguished c.writes)
    (hwrites : c.writes = done ++ write :: todo) (hnoted : Noted c done) (h : Looks c done)
    (hresolved : Stateless.WriteResolved c write w live) :
    ∀ write', FirstInsert (done ++ [write]) write' → ∃ w' ∈ c.resolvedWrites ++ [w],
      w'.slot = .row write'.tableName write'.key ∧ w'.checkCommittedRow = true := by
  intro write' hfirst
  have hwrite : write ∈ c.writes := by
    rw [hwrites]
    exact List.mem_append_right _ (.head _)
  rcases firstInsert_concat hfirst with hold | ⟨rfl, hnew⟩
  · obtain ⟨w', hw', hslot, hcheck⟩ := h write' hold
    exact ⟨w', List.mem_append_left _ hw', hslot, hcheck⟩
  · refine ⟨w, List.mem_append_right _ (List.mem_singleton.mpr rfl), ?_,
      hresolved.check hwrite hfirst.1 ?_⟩
    · unfold ResolvedWrite.slot
      rw [hresolved.tableName, hresolved.key]
    · -- what has been noted under the same key is an entry for the same row
      rw [List.lookup_eq_none_iff]
      intro p hp
      obtain ⟨w', hw', hkey⟩ := hnoted p.1 (List.mem_map_of_mem hp)
      rw [bne_iff_ne]
      intro hsame
      refine hnew w' hw' (hkeys w' ?_ write' hwrite ?_)
      · rw [hwrites]
        exact List.mem_append_left _ hw'
      · rw [← hkey, ← hsame]

/-- The program counter of a request: how much of its writes will be looked at. -/
def PcMarked (c : Commit) : Pc → Prop
  | .resolveReads _ => c.liveInRequest = []
  | .resolveWrites todo => ∃ done, c.writes = done ++ todo ∧ Noted c done ∧ Looks c done
  | _ => Looks c c.writes

/-- A request that has been submitted with these writes. -/
def RequestMarked (writes : List ExternalWriteEntry) (r : Request) : Prop :=
  match r.stage with
  | .committing c pc => c.writes = writes ∧ PcMarked c pc
  | .committed c => c.writes = writes ∧ Looks c c.writes
  | .aborted _ => True
  | _ => False

variable {writes : List ExternalWriteEntry}

theorem RequestMarked.commit {observations : List Observation}
    {x : Access × Stateless.Stage × List Candidate} (hkeys : Distinguished writes)
    (h : RequestMarked writes ⟨observations, .committing c pc⟩)
    (hmove : CommitMove schema s t c pc x) :
    RequestMarked writes ⟨observations, x.2.1⟩ := by
  obtain ⟨hwrites, h⟩ := h
  cases hmove with
  | refuse | duplicate | aborted => trivial
  | readsResolved =>
    refine ⟨hwrites, [], rfl, fun key hkey => ?_, ?_⟩
    · rw [show c.liveInRequest = [] from h] at hkey
      cases hkey
    · rintro write ⟨-, earlier, later, heq, -⟩
      exact absurd heq.symm (List.append_ne_nil_of_right_ne_nil _ (List.cons_ne_nil _ _))
  | @resolveWrite write todo w live _ hresolved =>
    obtain ⟨done, hdone, hnoted, hlooks⟩ := h
    refine ⟨hwrites, done ++ [write], ?_, fun key hkey => ?_,
      hlooks.resolve (by rw [hwrites]; exact hkeys) hdone hnoted hresolved⟩
    · rw [List.append_assoc]
      exact hdone
    · rcases hresolved.live key hkey with rfl | hkey
      · exact ⟨write, List.mem_concat_self, rfl⟩
      · obtain ⟨w', hw', heq⟩ := hnoted key hkey
        exact ⟨w', List.mem_append_left _ hw', heq⟩
  | writesResolved =>
    obtain ⟨done, hdone, -, hlooks⟩ := h
    refine ⟨hwrites, ?_⟩
    show Looks c c.writes
    rw [hdone, List.append_nil]
    exact hlooks
  | abort hvalidating =>
    refine ⟨hwrites, ?_⟩
    cases pc with
    | resolveReads | resolveWrites => cases hvalidating
    | _ => exact h
  | _ => exact ⟨hwrites, h⟩

theorem RequestMarked.step {choice : Stateless.Choice}
    {x : Access × Request × List Candidate} (hkeys : Distinguished writes)
    (h : RequestMarked writes r) (hstep : Stateless.step schema s t r choice = some x) :
    RequestMarked writes x.2.1 := by
  have submitted : r.stage.isStaging ≠ true := by
    obtain ⟨observations, stage⟩ := r
    intro hstage
    cases stage with
    | staging | reading => exact h
    | _ => cases hstage
  cases Stateless.step_cases hstep with
  | commit hmove => exact h.commit hkeys hmove
  | _ hstage => exact absurd hstage submitted

theorem RequestMarked.decided (h : RequestMarked writes r) (hdecided : r.stage.decided = some c) :
    c.writes = writes ∧ Looks c c.writes := by
  obtain ⟨observations, rfl | ⟨todo, rfl⟩ | ⟨todo, rfl⟩⟩ := Stateless.decided_cases hdecided <;>
    exact h

/-- A request is marked from its submission on. -/
theorem marked_submit {reads : List Observation}
    {secondaryIndexOps : List Stateless.ExternalSecondaryIndexEntry}
    {rangeReads : List Stateless.ExternalRangeReadEntry}
    (hstep : Stateless.step schema s t r (.submit reads writes secondaryIndexOps rangeReads)
      = some (a, r', candidates)) : RequestMarked writes r' := by
  obtain ⟨observations, stage⟩ := r
  cases stage with
  | staging =>
    simp only [Stateless.step] at hstep
    split_ifs at hstep
    · cases hstep
      trivial
    · cases hstep
      exact ⟨rfl, rfl⟩
  | _ => cases hstep

/-! ## Inserts of a run -/

/-- The transaction `t` has called `Insert` for the key, as its first write of the key. -/
def NativeInsert (schema : Schema) (actions : List (Action Choice)) (t : ℕ) (k : Slot) : Prop :=
  ∃ earlier later tableName key value m tx,
    actions = earlier ++ .party t (.inl (.insert tableName key value)) :: later ∧
      k = .row tableName key ∧
      run (committers schema).next (committers schema).initial earlier = some m ∧
      IsNative (m.phase t) tx ∧ tx.findWrite k = none

/-- The request `t` has been submitted with an `is_insert` entry for the key, and no entry
for the key before it. -/
def StatelessInsert (actions : List (Action Choice)) (t : ℕ) (k : Slot) : Prop :=
  ∃ reads writes secondaryIndexOps rangeReads write,
    .party t (.inr (.submit reads writes secondaryIndexOps rangeReads)) ∈ actions ∧
      FirstInsert writes write ∧ k = .row write.tableName write.key

/-- What a first insert comes to: whatever the committer publishes comes behind no live row,
and once it has returned it has published. -/
structure Exclusive (s : Store) (t : ℕ) (k : Slot) (phase : Committer) : Prop where
  free : s.Wrote (.tx t) k Free
  returned : Returned phase → s.Published (.tx t) k Free

theorem exclusive_native (h : NativeClaims s t tx) (hmarked : Marked k tx) :
    Exclusive s t k (some (.inl tx)) := by
  rcases hmarked with hfailed | ⟨value, hwriting, -⟩ | ⟨w, hw, rfl, hinsert⟩
  · refine ⟨(h.publishes.unwritten (Native.Stage.not_decided_of_failed hfailed) k).wrote,
      fun hreturned => ?_⟩
    rw [show tx.stage = .committed from hreturned] at hfailed
    cases hfailed
  · refine ⟨(h.publishes.unwritten (by rw [hwriting]; rfl) k).wrote, fun hreturned => ?_⟩
    rw [show tx.stage = .committed from hreturned] at hwriting
    cases hwriting
  · refine ⟨fun n v hv howner => h.publishes.wrote hw n v hv howner hinsert, fun hreturned => ?_⟩
    exact (h.publishes.version hreturned hw).imp fun _ _ hclaims => hclaims hinsert

theorem exclusive_stateless (hinv : RequestInv s t r) (h : RequestClaims s t r)
    (hmarked : RequestMarked writes r) (hfirst : FirstInsert writes write) :
    Exclusive s t (.row write.tableName write.key) (some (.inr r)) := by
  cases hdecided : r.stage.decided with
  | none =>
    refine ⟨(h.publishes.unwritten hdecided _).wrote, ?_⟩
    rintro ⟨c, hc⟩
    rw [hc] at hdecided
    cases hdecided
  | some c =>
    -- the row is a target, and will be looked at
    obtain ⟨hwrites, hlooks⟩ := RequestMarked.decided hmarked hdecided
    have hfirst' : FirstInsert c.writes write := by
      rw [hwrites]
      exact hfirst
    obtain ⟨w, hw, hslot, hcheck⟩ := hlooks write hfirst'
    have htarget := (h.publishes.targets hinv hdecided).1 w hw
    have hwrote := h.publishes.wrote hdecided htarget
    rw [← hslot]
    refine ⟨fun n v hv howner => hwrote n v hv howner ⟨w, hw, rfl, hcheck⟩, ?_⟩
    rintro ⟨c', hc'⟩
    rw [hc'] at hdecided
    cases hdecided
    exact (h.publishes.version hc' htarget).imp fun _ _ hclaims => hclaims ⟨w, hw, rfl, hcheck⟩

/-- **Every first insert of a run is exclusive.** -/
theorem exclusive_run {actions : List (Action Choice)} {s : State Committer}
    (hrun : run (committers schema).next (committers schema).initial actions = some s)
    (hkeys : ∀ t reads writes secondaryIndexOps rangeReads,
      .party t (.inr (.submit reads writes secondaryIndexOps rangeReads)) ∈ actions →
        Distinguished writes)
    (hinsert : NativeInsert schema actions t k ∨ StatelessInsert actions t k) :
    Exclusive s.store t k (s.phase t) := by
  have hclaims := claims_run hrun t
  have hparty := ((contract schema).invariant hrun).party t
  rcases hinsert with ⟨earlier, later, tableName, key, value, m, tx, rfl, rfl, hm, htx, hnone⟩ |
    ⟨reads, writes, ops, ranges, write, hmem, hfirst, rfl⟩
  · -- the transaction carries the mark from its call on
    obtain ⟨tx', hphase, hmarked⟩ : ∃ tx', s.phase t = some (.inl tx') ∧
        Marked (.row tableName key) tx' := by
      refine Party.phase_from
        (F := fun phase => ∃ tx', phase = some (.inl tx') ∧ Marked (.row tableName key) tx')
        ?_ ?_ hrun
      · intro m' a phase candidates hm' hstep
        cases hm.symm.trans hm'
        obtain ⟨tx', rfl, hcall⟩ := native_call htx hstep
        exact ⟨tx', rfl, marked_insert hnone hcall⟩
      · rintro s phase choice a phase' candidates ⟨tx', rfl, hmarked⟩ hstep
        obtain ⟨tx'', c, rfl, rfl, hcall⟩ := native_cases hstep
        exact ⟨tx'', rfl, hmarked.step hcall⟩
    rw [hphase] at hclaims ⊢
    exact exclusive_native hclaims hmarked
  · have hwrites := hkeys t reads writes ops ranges hmem
    obtain ⟨earlier, later, rfl⟩ := List.append_of_mem hmem
    obtain ⟨r, hphase, hmarked⟩ : ∃ r, s.phase t = some (.inr r) ∧ RequestMarked writes r := by
      refine Party.phase_from
        (F := fun phase => ∃ r, phase = some (.inr r) ∧ RequestMarked writes r) ?_ ?_ hrun
      · intro m a phase candidates _ hstep
        obtain ⟨r, r', rfl, hcall⟩ := stateless_call hstep
        exact ⟨r', rfl, marked_submit hcall⟩
      · rintro s phase choice a phase' candidates ⟨r, rfl, hmarked⟩ hstep
        obtain ⟨r', c, rfl, rfl, hcall⟩ := stateless_cases hstep
        exact ⟨r', rfl, hmarked.step hwrites hcall⟩
    rw [hphase] at hclaims hparty ⊢
    exact exclusive_stateless hparty hclaims hmarked hfirst

/-- **Insert is exclusive.** In every run whose requests tell their keys apart, whatever a
committer with a first insert of a key publishes to it comes right behind no live row, and if
the committer returns it has published. Between two of them some version of the key has no
live row. -/
theorem insert_exclusive {actions : List (Action Choice)} {s : State Committer}
    (hrun : run (committers schema).next (committers schema).initial actions = some s)
    (hkeys : ∀ t reads writes secondaryIndexOps rangeReads,
      .party t (.inr (.submit reads writes secondaryIndexOps rangeReads)) ∈ actions →
        Distinguished writes) :
    (∀ t k, NativeInsert schema actions t k ∨ StatelessInsert actions t k →
        (∀ (n : ℕ) (v : Owner × Version), (s.store.versions k)[n]? = some v → v.1 = .tx t →
          (s.store.before k n).isPrimaryInitialized = false) ∧
        (Returned (s.phase t) → ∃ (n : ℕ) (v : Owner × Version),
          (s.store.versions k)[n]? = some v ∧ v.1 = .tx t)) ∧
      ∀ t u k, NativeInsert schema actions t k ∨ StatelessInsert actions t k →
        NativeInsert schema actions u k ∨ StatelessInsert actions u k →
        ∀ (n m : ℕ) (v w : Owner × Version), n < m →
          (s.store.versions k)[n]? = some v → v.1 = .tx t →
          (s.store.versions k)[m]? = some w → w.1 = .tx u →
          ∃ (j : ℕ) (x : Owner × Version), n ≤ j ∧ j < m ∧ (s.store.versions k)[j]? = some x ∧
            x.2.content.isPrimaryInitialized = false := by
  refine ⟨fun t k hinsert => ?_, ?_⟩
  · obtain ⟨hfree, hreturned⟩ := exclusive_run hrun hkeys hinsert
    exact ⟨hfree, fun h => (hreturned h).version⟩
  · intro t u k _ hinsert n m v w hlt hv _ hw howner
    -- the version right before the later insert
    obtain ⟨j, x, hle, hlt, hj, hbefore⟩ := Store.exists_before hlt hw
    refine ⟨j, x, hle, hlt, hj, ?_⟩
    rw [← hbefore]
    exact (exclusive_run hrun hkeys hinsert).free m w hw howner

/-! ## Runs -/

/-- One table. -/
def rowTable : Schema :=
  Stateless.masstree fun name => if name = [1] then some fun _ => none else none

/-- A transaction inserts a row, a second one deletes it, and a request inserts it again. -/
def insertRun : List (Action Choice) :=
  nativeCall 0 (.insert [1] [5] [7]) ++ nativeNexts 0 1 ++
  nativeCall 0 .precommit ++ nativeNexts 0 12 ++
  nativeCall 1 (.delete [1] [5]) ++ nativeNexts 1 2 ++
  nativeCall 1 .precommit ++ nativeNexts 1 12 ++
  statelessCommit 2 [⟨[1], [5], [8], false, true⟩] [] 18

/-- The end of the run. -/
def insertState : State Committer :=
  (run (committers rowTable).next (committers rowTable).initial insertRun).get (by decide +kernel)

theorem insertState_versions :
    (insertState.store.versions (.row [1] [5])).map
        (fun v => (v.1, v.2.content.isPrimaryInitialized))
      = [(.tx 0, true), (.tx 1, false), (.tx 2, true)] := by
  decide +kernel

theorem insertRun_distinguished (t : ℕ) (reads : List Observation)
    (writes : List ExternalWriteEntry)
    (secondaryIndexOps : List Stateless.ExternalSecondaryIndexEntry)
    (rangeReads : List Stateless.ExternalRangeReadEntry)
    (hmem : .party t (.inr (.submit reads writes secondaryIndexOps rangeReads)) ∈ insertRun) :
    Distinguished writes := by
  simp only [insertRun, nativeCall, nativeNexts, statelessCommit, List.mem_append,
    List.mem_cons, List.mem_replicate, List.not_mem_nil, Action.party.injEq, Sum.inr.injEq,
    Stateless.Choice.submit.injEq, reduceCtorEq, and_false, or_false, false_or] at hmem
  obtain ⟨-, -, rfl, -⟩ := hmem
  intro a ha b hb _
  cases List.mem_singleton.mp ha
  cases List.mem_singleton.mp hb
  exact ⟨rfl, rfl⟩

theorem insert_exclusive_again :
    (insertState.store.versions (.row [1] [5])).map
        (fun v => (v.1, v.2.content.isPrimaryInitialized))
      = [(.tx 0, true), (.tx 1, false), (.tx 2, true)] ∧
      (insertState.store.before (.row [1] [5]) 2).isPrimaryInitialized = false := by
  refine ⟨insertState_versions, ?_⟩
  have hinsert : StatelessInsert insertRun 2 (.row [1] [5]) := by
    refine ⟨[], [⟨[1], [5], [8], false, true⟩], [], [], ⟨[1], [5], [8], false, true⟩, ?_,
      ⟨rfl, [], [], rfl, List.forall_mem_nil _⟩, rfl⟩
    exact List.mem_append_right _ (.head _)
  obtain ⟨v, hv, howner⟩ : ∃ v, (insertState.store.versions (.row [1] [5]))[2]? = some v ∧
      v.1 = .tx 2 := by
    have hwriter : insertState.store.abs.writer (.row [1] [5]) 2 = some (.tx 2) := by
      decide +kernel
    exact Option.map_eq_some_iff.mp hwriter
  exact ((insert_exclusive (s := insertState) (Option.some_get _).symm
    insertRun_distinguished).1 2 _ (Or.inr hinsert)).1 2 v hv howner

/-- Two tables whose names differ by a zero byte. -/
def twoTables : Schema := Stateless.masstree fun name =>
  if name = [97] ∨ name = [97, 0] then some fun _ => none else none

/-- A transaction inserts a row; a request deletes a key of the other table that reads the
same once it is joined with its table, and inserts the row again. -/
def collidingRun : List (Action Choice) :=
  nativeCall 0 (.insert [97, 0] [98] [7]) ++ nativeNexts 0 1 ++
  nativeCall 0 .precommit ++ nativeNexts 0 12 ++
  statelessCommit 1
    [⟨[97], [0, 98], [], true, false⟩, ⟨[97, 0], [98], [8], false, true⟩] [] 25

/-- The end of the run. -/
def collidingState : State Committer :=
  (run (committers twoTables).next (committers twoTables).initial collidingRun).get
    (by decide +kernel)

/-- **An insert over a live row.** Both first inserts of the key are committed, and nobody has
deleted the row in between. -/
theorem colliding_insert_over_row :
    NativeInsert twoTables collidingRun 0 (.row [97, 0] [98]) ∧
      StatelessInsert collidingRun 1 (.row [97, 0] [98]) ∧
      (collidingState.store.versions (.row [97, 0] [98])).map
          (fun v => (v.1, v.2.content.isPrimaryInitialized))
        = [(.tx 0, true), (.tx 1, true)] := by
  refine ⟨⟨[], _, [97, 0], [98], [7], _, _, rfl, rfl, rfl, .inr ⟨rfl, rfl⟩, rfl⟩,
    ⟨[], [⟨[97], [0, 98], [], true, false⟩, ⟨[97, 0], [98], [8], false, true⟩], [], [],
      ⟨[97, 0], [98], [8], false, true⟩, ?_,
      ⟨rfl, [⟨[97], [0, 98], [], true, false⟩], [], rfl, ?_⟩, rfl⟩, ?_⟩
  · exact List.mem_append_right _ (.head _)
  · decide
  · decide +kernel

end LineairDB.Lives
