import LineairDB.Lives.Committers

/-!
# UNIQUE secondary indexes stay unique

A native transaction adds a primary key to an entry of a UNIQUE index only on top
of a copy without one, and only as its first write of the entry; a stateless
request replays its own adds and removes over the locked lists before it installs
the first of them. `UpdateSecondaryIndex` deletes from the old key and then writes
to the new one, as the two calls do.

* `Ones.access` — whoever installs has to answer for the list it installs.
* `unique_entries_hold_one` — in every reached state an entry of a UNIQUE index,
  and every version it ever had, holds at most one primary key.
-/

namespace LineairDB.Lives

open Silo ByteFile Transition
open Stateless (Schema insertKey eraseKey uniqueRecheck installedEntry Request RequestInv Commit
  ResolvedSecondaryIndexOp getOrInsert_collecting)
open Native (Transaction TransactionInv WriteSnapshot)
open Recovery (SecondaryIndexOp applySecondaryIndexDelta eraseKey_sublist)
open Function (update_self update_of_ne update forall_update_iff)

variable {a : Access} {op : SecondaryIndexOp} {indexName key primaryKey tableName : Bytes}
  {unique : Bool} {choice : Native.Choice} {tx tx' : Transaction} {item : ItemId}
  {purpose : Native.Purpose} {candidates : List Candidate} {l : List (ItemId × List Bytes)}
  {ops : List ResolvedSecondaryIndexOp}

/-! ## The store -/

/-- The slot is an entry of a UNIQUE index. -/
def IsUnique (schema : Schema) : Slot → Prop
  | .row _ _ => False
  | .entry tableName indexName _ =>
    ∃ indexes, schema tableName = some indexes ∧ indexes indexName = some true

/-- The slot may hold this content: one primary key at most, in a UNIQUE index. -/
def One (schema : Schema) (k : Slot) (c : Content) : Prop :=
  IsUnique schema k → c.primaryKeys.length ≤ 1

/-- Every slot holds, and has only ever held, what it may. -/
structure Ones (schema : Schema) (s : Store) : Prop where
  item : ∀ i, One schema (s.item i).home (s.item i).content
  version : ∀ k, ∀ v ∈ s.versions k, One schema k v.2.content

variable {schema : Schema} {s s' : Store} {t : ℕ}

theorem Ones.put {i : ItemId} {x : Item} (h : Ones schema s)
    (hx : One schema x.home x.content) (j : ItemId) :
    One schema (update s.item i x j).home (update s.item i x j).content :=
  (forall_update_iff s.item fun _ y => One schema y.home y.content).mpr
    ⟨hx, fun j _ => h.item j⟩ j

/-- **Whoever installs answers for the list it installs**; no other access changes one. -/
theorem Ones.access {o : Owner} (h : Ones schema s)
    (hinstall : ∀ i c, a = .install i c → One schema (s.item i).home c) :
    Ones schema (s.access o a) := by
  cases a with
  | insertBlank => exact ⟨h.put fun _ => Nat.zero_le _, h.version⟩
  | lock i | storeWord i => exact ⟨h.put (h.item i), h.version⟩
  | install i c => exact ⟨h.put (hinstall i c rfl), h.version⟩
  | publish i =>
    refine ⟨h.put (h.item i), fun k v hv => ?_⟩
    change v ∈ update s.versions (s.item i).home _ k at hv
    by_cases hk : k = (s.item i).home
    · subst hk
      rw [update_self] at hv
      exact forall_mem_concat.mpr ⟨h.version _, h.item i⟩ v hv
    · rw [update_of_ne hk] at hv
      exact h.version k v hv
  | _ => exact ⟨h.item, h.version⟩

theorem Ones.quiet {o : Owner} (h : Ones schema s) (ha : a.Quiet) : Ones schema (s.access o a) := by
  refine h.access fun i c heq => ?_
  rw [heq] at ha
  exact ha.elim

/-! ## Lists -/

theorem length_eraseKey_le (key : Bytes) (keys : List Bytes) :
    (eraseKey key keys).length ≤ keys.length := eraseKey_sublist.length_le

/-- An operation on a list that may hold one key: a key is only added to an empty one. -/
theorem One.edit {k : Slot} {c : Content} (h : One schema k c)
    (hadd : op = .add → IsUnique schema k → c.primaryKeys = []) :
    One schema k (applySecondaryIndexDelta c ⟨primaryKey, op⟩) := by
  intro hunique
  cases op with
  | add =>
    show (insertKey primaryKey c.primaryKeys).length ≤ 1
    rw [hadd rfl hunique]
    exact le_rfl
  | remove => exact Nat.le_trans (length_eraseKey_le _ _) (h hunique)
  | none | full => exact h hunique

/-! ## Native transactions -/

/-- A copy that is started over is not of a UNIQUE entry, and a seed knows whether its entry
is. -/
def Suits (schema : Schema) : Native.Purpose → Prop
  | .refresh slot => ¬ IsUnique schema slot
  | .seed tableName indexName key unique _ _ =>
    IsUnique schema (.entry tableName indexName key) → unique = true
  | _ => True

/-- Copies on their way have at most one primary key. -/
def StageOnes (schema : Schema) : Native.Stage → Prop
  | .reading purpose _ (.reload _ copy) => Suits schema purpose ∧ One schema purpose.slot copy
  | .reading purpose _ _ => Suits schema purpose
  | .checking slot _ _ | .writing slot _ _ => ∃ tableName key, slot = .row tableName key
  | _ => True

/-- An entry of the write set overwrites a UNIQUE entry, with one primary key at most. -/
structure EntryOne (schema : Schema) (w : WriteSnapshot) : Prop where
  copy : One schema w.slot w.copy
  unique : IsUnique schema w.slot → w.unique = true

/-- What a transaction has read and what it will install. -/
structure NativeOnes (schema : Schema) (tx : Transaction) : Prop where
  read : ∀ r ∈ tx.readSet, One schema r.slot r.copy
  entry : ∀ w ∈ tx.writes, EntryOne schema w
  stage : StageOnes schema tx.stage

theorem isUnique_of_secondaryIndex
    (hindex : Native.secondaryIndex schema tableName indexName = some (some unique))
    (h : IsUnique schema (.entry tableName indexName key)) : unique = true := by
  obtain ⟨indexes, htable, hunique⟩ := h
  unfold Native.secondaryIndex at hindex
  split_ifs at hindex
  rw [htable] at hindex
  have heq : indexes indexName = some unique := by simpa using hindex
  rw [hunique] at heq
  cases heq
  rfl

theorem unique_of_edits (h : choice.Edits schema tableName indexName key unique op primaryKey)
    (hunique : IsUnique schema (.entry tableName indexName key)) : unique = true := by
  cases h with
  | write hindex | delete hindex => exact isUnique_of_secondaryIndex hindex hunique

theorem StageOnes.of_not_collecting {stage : Native.Stage} (h : stage.collecting = false) :
    StageOnes schema stage := by
  cases stage with
  | running | reading | checking | writing => cases h
  | _ => trivial

/-- What becomes of an entry. -/
theorem EntryOne.changed {w w' : WriteSnapshot} (h : EntryOne schema w)
    (hstage : StageOnes schema tx.stage) (hchanged : Native.Changed schema s tx choice w w') :
    EntryOne schema w' := by
  cases hchanged with
  | same => exact h
  | lock | overwrite => exact ⟨h.copy, h.unique⟩
  | install =>
    refine ⟨fun hunique => ?_, h.unique⟩
    -- an entry of a UNIQUE index is overwritten
    have hdelta : w.isDeltaWrite = false := by
      unfold WriteSnapshot.isDeltaWrite
      split
      · rfl
      · rw [h.unique hunique]
        simp
    unfold WriteSnapshot.installed
    rw [hdelta]
    exact h.copy hunique
  | refresh hreading =>
    rw [hreading] at hstage
    exact ⟨fun hunique => absurd hunique hstage.1, h.unique⟩
  | edit hedits hslot hop =>
    refine ⟨h.copy.edit fun hadd hunique => ?_, h.unique⟩
    rw [hslot] at hunique
    exact absurd ⟨hadd, unique_of_edits hedits hunique⟩ hop

/-- The first write of an entry, on a copy. -/
theorem EntryOne.edit {k : Slot} {base : Content} (hbase : One schema k base)
    (hunique : IsUnique schema k → unique = true)
    (hnew : ¬ (op = .add ∧ unique ∧ base.isInitialized)) :
    EntryOne schema (.edit op primaryKey ⟨k, item, base, .empty, false, unique, []⟩) := by
  refine ⟨hbase.edit fun hadd hslot => ?_, hunique⟩
  -- a copy with a key in it would have stopped the transaction
  by_contra hne
  refine hnew ⟨hadd, hunique hslot, ?_⟩
  unfold Content.isInitialized
  rw [Bool.or_eq_true]
  refine .inr ?_
  cases hkeys : base.primaryKeys with
  | nil => exact absurd hkeys hne
  | cons => rfl

section

variable (h : NativeOnes schema tx)

include h

theorem NativeOnes.fresh {w : WriteSnapshot} (hfresh : Native.Fresh schema tx choice w) :
    EntryOne schema w := by
  have hstage := h.stage
  cases hfresh with
  | row => exact ⟨fun hunique => hunique.elim, fun hunique => hunique.elim⟩
  | writing hwriting =>
    rw [hwriting] at hstage
    obtain ⟨tableName, key, rfl⟩ := hstage
    exact ⟨fun hunique => hunique.elim, fun hunique => hunique.elim⟩
  | @put tableName indexName key _ _ _ r _ hedits hread hnew =>
    have hslot : r.slot = .entry tableName indexName key := by simpa using List.find?_some hread
    have hr := h.read r (List.mem_of_find?_eq_some hread)
    rw [hslot] at hr
    exact .edit hr (unique_of_edits hedits) hnew
  | seed hseed hnew =>
    rw [hseed] at hstage
    exact .edit hstage.2 hstage.1 hnew

omit h in
/-- A copy that is being made. -/
theorem StageOnes.copies {copying copying' : Native.Copying} (hones : Ones schema s)
    (hhome : (s.item item).home = purpose.slot)
    (h : StageOnes schema (.reading purpose item copying))
    (hcopies : Native.Copies s item copying copying') :
    StageOnes schema (.reading purpose item copying') := by
  cases hcopies with
  | primaryKeys =>
    refine ⟨h, ?_⟩
    rw [← hhome]
    exact hones.item item
  | retry => exact h.1
  | _ => exact h

theorem suits_of_asks (hstage : tx.stage = .running)
    (hasks : choice.Asks schema tx purpose) : Suits schema purpose := by
  cases hasks with
  | @refresh tableName indexName key w hwrite hdelta =>
    intro hunique
    have hmem : w ∈ tx.writes := by
      rw [Native.writes_of_collecting (by rw [hstage]; rfl)]
      exact List.mem_of_find?_eq_some hwrite
    have hslot : w.slot = .entry tableName indexName key := by
      simpa using List.find?_some hwrite
    rw [← hslot] at hunique
    unfold WriteSnapshot.isDeltaWrite at hdelta
    rw [(h.entry w hmem).unique hunique] at hdelta
    split at hdelta <;> simp at hdelta
  | seed hedits => exact unique_of_edits hedits
  | _ => trivial

theorem NativeOnes.stage_step (hones : Ones schema s) (hinv : TransactionInv s t tx)
    {x : Access × Transaction × List Candidate}
    (hstep : Native.step schema s t tx choice = some x) : StageOnes schema x.2.1.stage := by
  have hstage := h.stage
  cases Native.step_move hstep with
  | answer | miss => exact hstage
  | look hrunning hasks => exact suits_of_asks h hrunning hasks
  | copy hreading hcopies =>
    have hstageInv := hinv.stage
    rw [hreading] at hstage hstageInv
    exact hstage.copies hones hstageInv.2.2.1 hcopies
  | confirm => rcases Native.copied_stage with heq | heq <;> exact heq ▸ trivial
  | check | claim => exact ⟨_, _, rfl⟩
  | checked hchecking =>
    rw [hchecking] at hstage
    exact hstage
  | put => rcases Native.putSecondaryIndex_stage with heq | heq <;> exact heq ▸ trivial
  | refuse | overwrite | append | edit | precommit => trivial
  | commit hcommitting => exact .of_not_collecting (Native.commitStep_not_collecting hcommitting _)

theorem NativeOnes.step (hones : Ones schema s) (hinv : TransactionInv s t tx)
    {x : Access × Transaction × List Candidate}
    (hstep : Native.step schema s t tx choice = some x) : NativeOnes schema x.2.1 where
  read r hr := by
    rcases Native.step_read hstep hr with hr | ⟨purpose, item, tid, copy, hconfirms, rfl⟩
    · exact h.read r hr
    · have hstage := h.stage
      rw [hconfirms.stage] at hstage
      exact hstage.2
  entry w hw := by
    rcases Native.step_origin hstep hw with ⟨w₀, hw₀, hchanged⟩ | hfresh
    · exact (h.entry w₀ hw₀).changed h.stage hchanged
    · exact h.fresh hfresh
  stage := h.stage_step hones hinv hstep

/-- What a transaction installs. -/
theorem NativeOnes.install (hinv : TransactionInv s t tx)
    (hstep : Native.step schema s t tx choice = some (a, tx', candidates)) (i : ItemId)
    (c : Content) (ha : a = .install i c) : One schema (s.item i).home c := by
  subst ha
  obtain ⟨valid, hx, hstage⟩ := Native.step_loud hstep id
  rcases hstage with ⟨installed, w, todo, hstage⟩ | ⟨w, todo, hstage⟩
  · rw [hstage] at hx
    cases hx
    have hw : w ∈ tx.writes := by
      simp only [Transaction.writes, hstage]
      exact List.mem_append_right _ (.head _)
    have hcommitting := hinv.stage
    rw [hstage] at hcommitting
    rw [(hcommitting.1.entries.item w (List.mem_append_right _ (.head _))).2]
    have hchanged : Native.Changed schema s tx choice w _ := .install hstage
    exact ((h.entry w hw).changed h.stage hchanged).copy
  · rw [hstage] at hx
    cases hx

end

/-! ## Stateless requests -/

/-- The list an operation finds: the one the replay has come to, or the one in place. -/
def replayed (s : Store) (siPrimaryKeys : List (ItemId × List Bytes)) (i : ItemId) : List Bytes :=
  (siPrimaryKeys.lookup i).getD (s.item i).content.primaryKeys

theorem replayed_cons {i j : ItemId} {keys : List Bytes} :
    replayed s ((i, keys) :: l) j = if j = i then keys else replayed s l j := by
  unfold replayed
  rw [List.lookup_cons]
  split_ifs with hji
  · rw [beq_iff_eq.mpr hji]
    rfl
  · rw [beq_eq_false_iff_ne.mpr hji]

variable {op : ResolvedSecondaryIndexOp}

theorem uniqueRecheck_unique (h : op.unique = true) :
    uniqueRecheck s l (op :: ops) =
      if op.isDelete then
        uniqueRecheck s ((op.item, eraseKey op.primaryKey (replayed s l op.item)) :: l) ops
      else if replayed s l op.item ≠ [] then false
      else uniqueRecheck s ((op.item,
        insertKey op.primaryKey (replayed s l op.item)) :: l) ops := by
  rw [uniqueRecheck, h]
  rfl

theorem uniqueRecheck_other (h : op.unique = false) :
    uniqueRecheck s l (op :: ops) = uniqueRecheck s l ops := by
  rw [uniqueRecheck, h]
  rfl

/-- The recheck looks at nothing but the lists of the unique operations. -/
theorem uniqueRecheck_congr {l' : List (ItemId × List Bytes)}
    (h : ∀ op ∈ ops, op.unique = true → replayed s l op.item = replayed s' l' op.item) :
    uniqueRecheck s l ops = uniqueRecheck s' l' ops := by
  induction ops generalizing l l' with
  | nil => rfl
  | cons op ops ih =>
    have tail : ∀ op' ∈ ops, op'.unique = true → replayed s l op'.item = replayed s' l' op'.item :=
      fun op' hop' => h op' (.tail _ hop')
    cases hunique : op.unique with
    | false => rw [uniqueRecheck_other hunique, uniqueRecheck_other hunique, ih tail]
    | true =>
      have push : ∀ keys : List Bytes, uniqueRecheck s ((op.item, keys) :: l) ops
          = uniqueRecheck s' ((op.item, keys) :: l') ops := by
        intro keys
        refine ih fun op' hop' hunique' => ?_
        rw [replayed_cons, replayed_cons, tail op' hop' hunique']
      rw [uniqueRecheck_unique hunique, uniqueRecheck_unique hunique,
        h op (.head _) hunique, push, push]

/-- The operations know whether their entries are UNIQUE, and what is left to install passes
the recheck. -/
def RequestOnes (schema : Schema) (s : Store) (r : Request) : Prop :=
  match r.stage with
  | .committing c pc =>
    (∀ op ∈ c.resolvedSiOps, IsUnique schema op.slot ↔ op.unique = true) ∧
      match pc with
      | .installRows _ => uniqueRecheck s [] c.resolvedSiOps = true
      | .installSecondary todo => uniqueRecheck s [] todo = true
      | _ => True
  | _ => True

/-- Installing an operation that has passed the recheck leaves a list the rest passes it with,
and the list is one the entry may hold. -/
theorem recheck_install (hones : Ones schema s)
    (hhome : (s.item op.item).home = op.slot) (hunique : IsUnique schema op.slot ↔ op.unique = true)
    (hother : op.unique = false → ∀ op' ∈ ops, op'.unique = true → op'.item ≠ op.item)
    (h : uniqueRecheck s [] (op :: ops) = true) :
    One schema (s.item op.item).home (installedEntry (s.item op.item) op) ∧
      uniqueRecheck (s.access (.tx t)
        (.install op.item (installedEntry (s.item op.item) op))) [] ops = true := by
  -- what the others find behind the install
  have found : ∀ j, replayed (s.access (.tx t)
        (.install op.item (installedEntry (s.item op.item) op))) [] j
      = if j = op.item then (installedEntry (s.item op.item) op).primaryKeys
        else replayed s [] j := by
    intro j
    show (update s.item op.item _ j).content.primaryKeys = _
    split_ifs with hj
    · rw [hj, update_self]
    · rw [update_of_ne hj]
      rfl
  have hlist := hones.item op.item
  rw [hhome] at hlist ⊢
  cases hflag : op.unique with
  | false =>
    refine ⟨fun hslot => ?_, ?_⟩
    · rw [hunique, hflag] at hslot
      cases hslot
    · rw [uniqueRecheck_other hflag] at h
      rw [← h]
      refine uniqueRecheck_congr fun op' hop' hunique' => ?_
      rw [found, if_neg (hother hflag op' hop' hunique')]
  | true =>
    rw [uniqueRecheck_unique hflag] at h
    cases hdelete : op.isDelete with
    | true =>
      rw [if_pos hdelete] at h
      refine ⟨fun hslot => ?_, ?_⟩
      · unfold installedEntry
        rw [if_pos hdelete]
        exact Nat.le_trans (length_eraseKey_le _ _) (hlist hslot)
      · rw [← h]
        refine uniqueRecheck_congr fun op' hop' _ => ?_
        rw [found, replayed_cons]
        unfold installedEntry
        rw [if_pos hdelete]
        rfl
    | false =>
      have hadd : ¬ op.isDelete = true := by rw [hdelete]; exact Bool.false_ne_true
      rw [if_neg hadd] at h
      split_ifs at h with hempty
      have hnil : (s.item op.item).content.primaryKeys = [] := not_not.mp hempty
      refine ⟨fun _ => ?_, ?_⟩
      · unfold installedEntry
        rw [if_neg hadd, hnil]
        exact le_rfl
      · rw [← h]
        refine uniqueRecheck_congr fun op' hop' _ => ?_
        rw [found, replayed_cons]
        unfold installedEntry
        rw [if_neg hadd]
        rfl

theorem RequestOnes.rely {r : Request} (h : RequestOnes schema s r)
    (hinv : RequestInv s t r) (hrely : Rely (.tx t) s s') : RequestOnes schema s' r := by
  obtain ⟨observations, stage⟩ := r
  cases stage with
  | committing c pc =>
    obtain ⟨hunique, hpc⟩ := h
    obtain ⟨hprepared, hpcInv⟩ := hinv.stage
    -- the entries of the request are locked
    have keep : Stateless.Locked s t c → ∀ ops ⊆ c.resolvedSiOps,
        uniqueRecheck s [] ops = true → uniqueRecheck s' [] ops = true := by
      intro hlocked ops hops hcheck
      rw [← hcheck]
      refine uniqueRecheck_congr fun op hop _ => ?_
      have hholder := hlocked.holder (hprepared.listed _ (hprepared.op op (hops hop)))
      unfold replayed
      rw [(hrely.held _ hholder).1]
    refine ⟨hunique, ?_⟩
    cases pc with
    | installRows => exact keep hpcInv.1 _ (List.Subset.refl _) hpc
    | installSecondary todo => exact keep hpcInv.1 todo hpcInv.2.2 hpc
    | _ => trivial
  | _ => trivial

theorem RequestOnes.resolve {c : Commit} {op : Stateless.ExternalSecondaryIndexEntry}
    {resolved : ResolvedSecondaryIndexOp}
    (h : ∀ op ∈ c.resolvedSiOps, IsUnique schema op.slot ↔ op.unique = true)
    (hresolved : Stateless.OpResolved schema op resolved) :
    ∀ op ∈ c.resolvedSiOps ++ [resolved], IsUnique schema op.slot ↔ op.unique = true := by
  refine forall_mem_concat.mpr ⟨h, ?_⟩
  obtain ⟨indexes, htable, hindex⟩ := hresolved.unique
  show (∃ indexes, schema resolved.tableName = some indexes ∧
    indexes resolved.indexName = some true) ↔ _
  rw [hresolved.tableName, hresolved.indexName, htable]
  constructor
  · rintro ⟨indexes', hsame, htrue⟩
    cases hsame
    rw [hindex] at htrue
    exact Option.some.inj htrue
  · intro htrue
    rw [htrue] at hindex
    exact ⟨indexes, rfl, hindex⟩

/-- One step of `Commit`: what it installs the entry may hold, and what is left to install
passes the recheck. -/
theorem RequestOnes.commit {observations : List Stateless.Observation} {c : Commit}
    {pc : Stateless.Pc} {x : Access × Stateless.Stage × List Candidate} (hones : Ones schema s)
    (hprepared : Stateless.Prepared s observations c) (hpcInv : Stateless.PcInv s t c pc)
    (h : RequestOnes schema s ⟨observations, .committing c pc⟩)
    (hmove : Stateless.CommitMove schema s t c pc x) : Ones schema (s.access (.tx t) x.1) ∧
      RequestOnes schema (s.access (.tx t) x.1) ⟨observations, x.2.1⟩ := by
  obtain ⟨hunique, hpc⟩ := h
  cases hmove with
  | refuse | committed | aborted => exact ⟨hones, trivial⟩
  | duplicate hget =>
    exact ⟨hones.quiet (getOrInsert_collecting hget).quiet, trivial⟩
  | resolveWrite _ hget =>
    exact ⟨hones.quiet (getOrInsert_collecting hget).quiet, hunique, trivial⟩
  | resolveOp hresolved hget =>
    exact ⟨hones.quiet (getOrInsert_collecting hget).quiet,
      RequestOnes.resolve hunique hresolved, trivial⟩
  | unique hcheck => exact ⟨hones, hunique, hcheck⟩
  | @installRow write =>
    -- a row has no list, and its install leaves the others' alone
    refine ⟨hones.access fun i content heq => ?_, hunique, ?_⟩
    · cases heq
      exact hones.item write.item
    · rw [← hpc]
      refine uniqueRecheck_congr fun op hop _ => ?_
      show (update s.item write.item _ op.item).content.primaryKeys = _
      by_cases hitem : op.item = write.item
      · rw [hitem, update_self]
        rfl
      · rw [update_of_ne hitem]
        rfl
  | rowsInstalled => exact ⟨hones, hunique, hpc⟩
  | @installOp op todo =>
    have hops := hpcInv.2.2
    have home : ∀ op' ∈ op :: todo, (s.item op'.item).home = op'.slot :=
      fun op' hop' => hprepared.op_home (hops hop')
    obtain ⟨hone, hrest⟩ := recheck_install (t := t) hones (home op (.head _))
      (hunique op (hops (.head _))) (fun hflag op' hop' hunique' hitem => by
        -- one item is an entry of one index
        have hslot : op'.slot = op.slot := by
          rw [← home op' (.tail _ hop'), hitem, home op List.mem_cons_self]
        have hop := hunique op (hops (.head _))
        rw [← hslot, hunique op' (hops (.tail _ hop')), hflag] at hop
        cases hop.mp hunique') hpc
    refine ⟨hones.access fun i content heq => ?_, hunique, hrest⟩
    cases heq
    exact hone
  | unlock =>
    refine ⟨hones.access fun i content heq => ?_, hunique, trivial⟩
    cases heq
  | _ => exact ⟨hones.quiet trivial, hunique, trivial⟩

theorem RequestOnes.step {r : Request} {choice : Stateless.Choice}
    {x : Access × Request × List Candidate} (hones : Ones schema s)
    (hinv : RequestInv s t r) (h : RequestOnes schema s r)
    (hstep : Stateless.step schema s t r choice = some x) :
    Ones schema (s.access (.tx t) x.1) ∧ RequestOnes schema (s.access (.tx t) x.1) x.2.1 := by
  cases Stateless.step_cases hstep with
  | read _ ha => exact ⟨hones.quiet ha.quiet, trivial⟩
  | reading | refuse => exact ⟨hones, trivial⟩
  | submit => exact ⟨hones, nofun, trivial⟩
  | commit hmove => exact h.commit hones hinv.stage.1 hinv.stage.2 hmove

/-! ## Every reached state -/

theorem ones_initial : Ones schema .initial :=
  ⟨fun _ hunique => hunique.elim, nofun⟩

/-- **UNIQUE secondary indexes stay unique.** In every run of native transactions, stateless
requests, the reaper and the epoch, an entry of a UNIQUE index holds at most one primary
key in the state the run ends in, and so does every version that was ever committed. -/
theorem unique_entries_hold_one {actions : List (Action Choice)} {s : State Committer}
    (hrun : run (committers schema).next (committers schema).initial actions = some s)
    {tableName indexName : Bytes} {indexes : Bytes → Option Bool}
    (htable : schema tableName = some indexes) (hunique : indexes indexName = some true)
    (key : Bytes) :
    (∀ i, s.store.index (.entry tableName indexName key) = some i →
        (s.store.item i).content.primaryKeys.length ≤ 1) ∧
      ∀ v ∈ s.store.versions (.entry tableName indexName key),
        v.2.content.primaryKeys.length ≤ 1 := by
  obtain ⟨hinv, hones, -⟩ := either_asserted schema (G := fun _ _ => True) (S := Ones schema)
    (N := fun _ _ tx => NativeOnes schema tx) (R := fun s _ r => RequestOnes schema s r)
    ones_initial
    (fun _ => ⟨⟨nofun, nofun, trivial⟩, trivial⟩)
    (fun _ h _ ha => h.quiet ha) (fun _ _ _ h _ => h) (fun _ _ hinv h hrely => h.rely hinv hrely)
    (fun _ hones hinv h _ _ hstep =>
      ⟨hones.access (h.install hinv hstep), h.step hones hinv hstep⟩)
    (fun _ hones hinv h _ _ hstep => h.step hones hinv hstep)
    (.of_forall (fun _ _ => trivial) _ _) hrun
  have hslot : IsUnique schema (.entry tableName indexName key) := ⟨indexes, htable, hunique⟩
  refine ⟨fun i hi => ?_, fun v hv => hones.version _ v hv hslot⟩
  have hhome := (hinv.store.home _ _ hi).2
  refine hones.item i ?_
  rw [hhome]
  exact hslot

/-! ## A run -/

/-- One table, with one index, which is UNIQUE. -/
def uniqueTable : Schema := Stateless.masstree fun name =>
  if name = [1] then some fun index => if index = [9] then some true else none else none

/-- A transaction writes an entry; a request removes its primary key and adds another one; and
a second transaction moves that one to another entry. -/
def moveRun : List (Action Choice) :=
  nativeCall 0 (.writeSecondaryIndex [1] [9] [5] [1]) ++ nativeNexts 0 5 ++
  nativeCall 0 .precommit ++ nativeNexts 0 13 ++
  statelessCommit 1 [] [⟨[1], [9], [5], [1], true⟩, ⟨[1], [9], [5], [2], false⟩] 19 ++
  nativeCall 2 (.deleteSecondaryIndex [1] [9] [5] [2]) ++ nativeNexts 2 5 ++
  nativeCall 2 (.writeSecondaryIndex [1] [9] [6] [2]) ++ nativeNexts 2 5 ++
  nativeCall 2 .precommit ++ nativeNexts 2 20

/-- The end of the run. -/
def moveState : State Committer :=
  (run (committers uniqueTable).next (committers uniqueTable).initial moveRun).get
    (by decide +kernel)

theorem moveState_versions :
    (moveState.store.versions (.entry [1] [9] [5])).map (fun v => v.2.content.primaryKeys)
        = [[[1]], [[2]], []] ∧
      (moveState.store.versions (.entry [1] [9] [6])).map (fun v => v.2.content.primaryKeys)
        = [[[2]]] := by
  decide +kernel

theorem unique_entries_hold_one_moved :
    (moveState.store.versions (.entry [1] [9] [5])).map (fun v => v.2.content.primaryKeys)
        = [[[1]], [[2]], []] ∧
      ∀ key, ∀ v ∈ moveState.store.versions (.entry [1] [9] key),
        v.2.content.primaryKeys.length ≤ 1 :=
  ⟨moveState_versions.1, fun key => (unique_entries_hold_one (s := moveState)
    (Option.some_get _).symm rfl rfl key).2⟩

end LineairDB.Lives
