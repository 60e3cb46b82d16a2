import LineairDB.Precision.Shown

/-!
# Phantoms

A scan leaves a predicate behind and refuses to run over events; insertions and deletions
refuse to run over predicates. As long as every key is made by an operation that asks,
nothing in the range of a scan appears or vanishes before the scanning transaction is done.

* `Guarded` — what the predicate of a running transaction keeps out.
* `Simulated` — commits, as steps of the optimistic protocol.
* `scans_serializable` — the conflicts of the committed transactions, with those between
  scans and the keys they were not shown, have no cycle.
-/

namespace LineairDB.Precision

open ByteFile Silo Transition
open Function (update_self update_of_ne)

/-! ## What a scan has seen -/

/-- A key of the range that the scan was not shown, and the transaction had not written. -/
def Scanned.Hidden (sc : Scanned) (key : Bytes) : Prop :=
  inRange sc.beginKey sc.endKey key = true ∧ key ∉ sc.shown ∧ key ∉ sc.own

instance (sc : Scanned) (key : Bytes) : Decidable (sc.Hidden key) :=
  inferInstanceAs (Decidable (_ ∧ _ ∧ _))

/-- What a transaction has seen, each with the number of versions there were: what it has
read, and that there was no key where its scans were shown none. -/
def State.reads (s : State) (t : ℕ) : Set (Bytes × ℕ) :=
  {q | q ∈ (s.tx t).validationSet ∨ ∃ sc ∈ (s.tx t).scans, sc.Hidden q.1 ∧ q.2 = sc.position q.1}

/-- The transaction has committed. -/
def State.Committed (s : State) (t : ℕ) : Prop := (s.tx t).status = .committed

/-! ## What a predicate keeps out -/

/-- **The key is dead, and nobody else is about to change that.** -/
structure Guards (kind : IndexKind) (s : State) (t n : ℕ) (key : Bytes) : Prop where
  position : s.position key = n
  dead : ¬s.Live kind key
  unwritten : ∀ u w, u ≠ t → s.Staging u w → w.key ≠ key
  predicate : ∃ p ∈ s.index.range.predicateList, p.1 = (s.tx t).epoch ∧ p.2.txContext = t ∧
    inRange p.2.beginKey p.2.endKey key = true

/-- What is scanned stays as it is. -/
structure Guarded (kind : IndexKind) (s : State) : Prop where
  /-- Events are of keys their transactions have written. -/
  mine : ∀ x ∈ s.index.range.insertOrDeleteKeySet, (s.tx x.2.txContext).status ≠ .idle ∧
    ((s.tx x.2.txContext).status = .running →
      ∃ w ∈ (s.tx x.2.txContext).writeSet, w.key = x.2.key)
  hidden : ∀ t, (s.tx t).status = .running → ∀ sc ∈ (s.tx t).scans, ∀ key, sc.Hidden key →
    Guards kind s t (sc.position key) key

section Guard

variable {kind : IndexKind} {s s' : State} {t n : ℕ} {key : Bytes} {event : Option Bool}
  {ix : Index} {tx : Tx} {filled unforced : Prop} {a : Action}

theorem Guards.carry (h : Guards kind s t n key) (hversions : s'.versions key = s.versions key)
    (hlive : s'.Live kind key → s.Live kind key)
    (hstaging : ∀ u w, u ≠ t → s'.Staging u w → w.key = key → ∃ v, s.Staging u v ∧ v.key = key)
    (hpredicate : ∀ p ∈ s.index.range.predicateList, p.1 = (s.tx t).epoch →
      p ∈ s'.index.range.predicateList)
    (hepoch : (s'.tx t).epoch = (s.tx t).epoch) : Guards kind s' t n key where
  position := by
    rw [State.position, hversions]
    exact h.position
  dead hnow := h.dead (hlive hnow)
  unwritten u w hu hw hkey := by
    obtain ⟨v, hv, hvkey⟩ := hstaging u w hu hw hkey
    exact h.unwritten u v hu hv hvkey
  predicate := by
    obtain ⟨p, hp, hpepoch, hcontext, hrange⟩ := h.predicate
    exact ⟨p, hpredicate p hp hpepoch, hpepoch.trans hepoch.symm, hcontext, hrange⟩

/-- The predicate is there for everybody else. -/
theorem Guards.inPredicateSet (h : Guards kind s t n key) {u : ℕ} (hu : u ≠ t) :
    s.index.range.isInPredicateSet u key = true := by
  obtain ⟨p, hp, -, hcontext, hrange⟩ := h.predicate
  refine List.any_eq_true.mpr ⟨p, hp, ?_⟩
  rw [hcontext, hrange]
  simpa using hu.symm

/-- A key is written for the first time where it is live, or where no predicate is. -/
theorem Stages.known (h : Stages kind filled unforced s t key event ix tx) (hunforced : unforced)
    {w : Staged} (hw : w ∈ tx.writeSet) (hkey : w.key = key) :
    (∃ v ∈ (s.tx t).writeSet, v.key = key) ∨ s.Live kind key ∨
      s.index.range.isInPredicateSet t key = false := by
  by_cases hevent : event = none
  · rcases h.same hevent w hw hkey with ⟨v, hv, hvkey, -⟩ | ⟨-, hlive, -⟩
    · exact .inl ⟨v, hv, hvkey⟩
    · exact .inr (.inl hlive)
  · exact .inr (.inr (h.asked hunforced hevent))

/-- What is guarded stays so when a transaction makes a step. -/
theorem Guards.stages (h : Guards kind s t n key) {u : ℕ} {key' : Bytes}
    (hrun : (s.tx u).status = .running) (hunforced : unforced)
    (hx : Stages kind filled unforced s u key' event ix tx) :
    Guards kind (s.after u ix tx) t n key := by
  refine h.carry rfl (fun hlive => (hx.live_iff key).mp hlive) ?_
    (fun p hp _ => hx.predicates p hp) ?_
  · intro v w hv hw hkey
    rcases hx.staging hrun hw with ⟨hw, -⟩ | ⟨rfl, hw, hkey'⟩
    · exact ⟨w, hw, hkey⟩
    · rcases hx.known hunforced hw hkey' with ⟨x, hmem, hxkey⟩ | hlive | hasked
      · exact ⟨x, ⟨hrun, hmem⟩, hxkey.trans (hkey'.symm.trans hkey)⟩
      · rw [← hkey', hkey] at hlive
        exact absurd hlive h.dead
      · rw [← hkey', hkey, h.inPredicateSet hv] at hasked
        cases hasked
  · exact hx.epoch_setTx t

theorem Guards.aborts (h : Guards kind s t n key) {u : ℕ} {key' : Bytes} (htu : t ≠ u)
    (hx : Aborts kind unforced s u key' event ix tx) :
    Guards kind (s.after u ix tx) t n key := by
  refine h.carry rfl (fun hlive => (hx.live_iff key).mp hlive) ?_
    (fun p hp _ => hx.predicates p hp) ?_
  · intro v w hv hw hkey
    exact ⟨w, (hx.staging hw).2, hkey⟩
  · simp only [State.setTx, update_of_ne htu]

/-! ## Scans -/

section Scan

variable {beginKey : Bytes} {endKey : Option Bytes} {reverse : Bool} {keys : List Bytes}
  {range : RangeIndex}

/-- A scan that is not refused finds no event of a key it is not shown. -/
theorem Guarded.no_event (h : Guarded kind s) (hrun : (s.tx t).status = .running)
    (hoverlap : s.index.range.isOverlapWithInsertOrDelete t beginKey endKey = false)
    (hrange : inRange beginKey endKey key = true) (hown : ∀ w ∈ (s.tx t).writeSet, w.key ≠ key) :
    ∀ x ∈ s.index.range.insertOrDeleteKeySet, x.2.key ≠ key := by
  intro x hx hkey
  have hcontext : x.2.txContext = t := by
    by_contra hne
    have hover : s.index.range.isOverlapWithInsertOrDelete t beginKey endKey = true := by
      refine List.any_eq_true.mpr ⟨x, hx, ?_⟩
      rw [hkey, hrange]
      simpa using hne
    rw [hoverlap] at hover
    cases hover
  have hmine := (h.mine x hx).2
  rw [hcontext] at hmine
  obtain ⟨w, hw, hwkey⟩ := hmine hrun
  exact hown w hw (hwkey.trans hkey)

/-- **A scan guards the keys it is not shown.** -/
theorem Guarded.scan (h : Guarded kind s) (hinv : Inv kind s) (hrun : (s.tx t).status = .running)
    (hscan : s.index.range.scan (s.tx t).epoch t beginKey endKey reverse = some (keys, range))
    (hrange : inRange beginKey endKey key = true) (hshown : key ∉ keys)
    (hown : key ∉ (s.tx t).writeSet.map Staged.key) (hepoch : tx.epoch = (s.tx t).epoch) :
    Guards kind (({ s with index := { s.index with range := range } } : State).setTx t tx) t
      (s.position key) key := by
  obtain ⟨hoverlap, rfl, rfl⟩ := RangeIndex.scan_eq_some hscan
  have hquiet := h.no_event hrun hoverlap hrange fun w hw hkey =>
    hown (List.mem_map.mpr ⟨w, hw, hkey⟩)
  have hhidden : ¬s.Visible key := by
    intro hvisible
    rw [State.Visible, RangeIndex.settled_of_quiet hquiet] at hvisible
    exact hshown ((RangeIndex.mem_scanKeys hinv.keys).mpr ⟨hvisible, hrange⟩)
  have hevent : ∀ u w, s.Staging u w → w.key = key → w.event = none := by
    intro u w hw hkey
    cases hd : w.event with
    | none => rfl
    | some d =>
      obtain ⟨-, x, hx, -, hxkey, -⟩ := hinv.event u w d hw hd
      exact absurd (hxkey.trans hkey) (hquiet x hx)
  refine ⟨rfl, fun hlive => ?_, fun u w hu hw hkey => ?_, ?_⟩
  · rcases hinv.live key hlive with hvisible | ⟨u, w, hw, hkey, hdelete⟩
    · exact hhidden hvisible
    · rw [hevent u w hw hkey] at hdelete
      cases hdelete
  · rw [staging_setTx, if_neg hu] at hw
    have hvisible := hinv.shown u w hw (hevent u w hw hkey)
    rw [hkey] at hvisible
    exact hhidden hvisible
  · refine ⟨((s.tx t).epoch, ⟨beginKey, endKey, t⟩), mem_queue.mpr (.inl rfl), ?_, rfl, hrange⟩
    simp only [State.setTx, update_self]
    exact hepoch.symm

end Scan

theorem write_scans (ix : Index) (t : ℕ) (tx : Tx) (key value : Bytes) (isInsert : Bool)
    (event : Option Bool) : (tx.write ix t key value isInsert event).2.scans = tx.scans := by
  rw [Tx.write]
  split_ifs <;> rfl

theorem update_scans (ix : Index) (t : ℕ) (tx : Tx) (key value : Bytes) (event : Option Bool) :
    (tx.update ix t key value event).2.scans = tx.scans := by
  rw [Tx.update]
  cases tx.findWrite key <;> dsimp only <;> split_ifs <;>
    first | rfl | exact write_scans _ _ _ _ _ _ _

theorem register_scans (position : Bytes → ℕ) (tx : Tx) (key : Bytes) :
    (tx.register position key).scans = tx.scans := by
  rw [Tx.register]
  split_ifs <;> rfl

theorem read_scans (position : Bytes → ℕ) (ix : Index) (tx : Tx) (key : Bytes) :
    (tx.read kind position ix key).scans = tx.scans := by
  fun_cases Tx.read kind position ix tx key with
  | case1 | case5 => exact register_scans position tx key
  | case2 | case3 | case4 => rfl

theorem seed_scans {position : Bytes → ℕ} {unique : Bool} {tx' : Tx} {base : Content}
    (h : tx.seed position unique ix key = (base, tx')) : tx'.scans = tx.scans := by
  rw [Tx.seed] at h
  cases hread : tx.findRead key with
  | some =>
    rw [hread] at h
    cases h
    rfl
  | none =>
    rw [hread] at h
    cases h
    cases unique with
    | false => rfl
    | true => exact register_scans position tx key

theorem addPrimaryKey_scans (position : Bytes → ℕ) (unique : Bool) (ix : Index) (tx : Tx)
    (key primaryKey : Bytes) (event : Option Bool) :
    (tx.addPrimaryKey position unique ix key primaryKey event).2.scans = tx.scans := by
  fun_cases Tx.addPrimaryKey position unique ix tx key primaryKey event with
  | case1 | case2 => rfl
  | case3 _ _ seeded hseed | case4 _ _ seeded hseed =>
    have hscans : seeded.scans = tx.scans := seed_scans hseed
    exact hscans

theorem maybeDelete_scans (unique : Bool) (ix : Index) (t : ℕ) (tx : Tx) (key : Bytes)
    (copy : Content) : (tx.maybeDelete unique ix t key copy).2.scans = tx.scans := by
  rw [Tx.maybeDelete]
  dsimp only
  split_ifs <;> rfl

/-- Only a scan that is not refused adds to the scans. -/
theorem op_scans {op : Op} {result : Index × Tx} (hop : s.op kind t op = some result) :
    result.2.scans = (s.tx t).scans ∨
      ∃ beginKey endKey reverse accepted keys range,
        s.index.range.scan (s.tx t).epoch t beginKey endKey reverse = some (keys, range) ∧
          result.1 = { s.index with range := range } ∧
          result.2 = { s.tx t with
            scans := (s.tx t).scans ++ [⟨beginKey, endKey, keys, keys.take accepted,
              (s.tx t).writeSet.map Staged.key, s.position⟩] } := by
  revert hop
  fun_cases State.op kind s t op with
  | case1 _ key =>
    rintro ⟨⟩
    exact .inl (read_scans _ _ _ _)
  | case2 _ beginKey endKey reverse accepted =>
    rintro ⟨⟩
    rw [Tx.scan]
    cases hscan : s.index.range.scan (s.tx t).epoch t beginKey endKey reverse with
    | none => exact .inl rfl
    | some found =>
      exact .inr ⟨beginKey, endKey, reverse, accepted, found.1, found.2, hscan, rfl, rfl⟩
  | case3 =>
    rintro ⟨⟩
    exact .inl (write_scans _ _ _ _ _ _ _)
  | case5 =>
    rintro ⟨⟩
    left
    fun_cases Tx.insert <;> first | rfl | exact write_scans _ _ _ _ _ _ _
  | case7 =>
    rintro ⟨⟩
    exact .inl (update_scans _ _ _ _ _ _)
  | case9 =>
    rintro ⟨⟩
    left
    fun_cases Tx.delete
    · exact update_scans _ _ _ _ _ _
    · rfl
  | case12 =>
    rintro ⟨⟩
    left
    fun_cases Tx.writeSecondaryIndex
    · exact addPrimaryKey_scans _ _ _ _ _ _ _
    · rfl
  | case14 =>
    rintro ⟨⟩
    left
    fun_cases Tx.deleteSecondaryIndex with
    | case1 => exact maybeDelete_scans _ _ _ _ _ _
    | case2 _ _ _ _ seeded hseed =>
      have hscans : seeded.scans = (s.tx t).scans := seed_scans hseed
      exact (maybeDelete_scans _ _ _ _ _ _).trans hscans
  | _ => simp

/-! ## Steps -/

theorem Guarded.initial (kind : IndexKind) : Guarded kind initial where
  mine x hx := by cases hx
  hidden t hrun := by cases hrun

theorem Queues.old_event {x : EpochNumber × InsertOrDeleteEvent}
    (h : Queues unforced s t key event ix) (hx : x ∈ ix.range.insertOrDeleteKeySet)
    (hxt : x.2.txContext ≠ t) : x ∈ s.index.range.insertOrDeleteKeySet := by
  rw [h.events, mem_pushed] at hx
  rcases hx with hold | ⟨d, -, rfl⟩
  · exact hold
  · exact absurd rfl hxt

section

variable (h : Guarded kind s)

include h

/-- One transaction is replaced: its events are of keys it has written, and what the others
guard stays guarded. -/
theorem Guarded.setTx {m : State} (htx : m.tx = s.tx)
    (hmine : ∀ x ∈ m.index.range.insertOrDeleteKeySet, x.2.txContext = t → tx.status ≠ .idle ∧
      (tx.status = .running → ∃ w ∈ tx.writeSet, w.key = x.2.key))
    (hevents : ∀ x ∈ m.index.range.insertOrDeleteKeySet, x.2.txContext ≠ t →
      x ∈ s.index.range.insertOrDeleteKeySet)
    (hself : tx.status = .running → ∀ sc ∈ tx.scans, ∀ k, sc.Hidden k →
      Guards kind (m.setTx t tx) t (sc.position k) k)
    (hothers : ∀ u, u ≠ t → ∀ {n k}, Guards kind s u n k → Guards kind (m.setTx t tx) u n k) :
    Guarded kind (m.setTx t tx) := by
  constructor
  · intro x hx
    by_cases hxt : x.2.txContext = t
    · simp only [State.setTx, hxt, update_self]
      exact hmine x hx hxt
    · simp only [State.setTx, update_of_ne hxt, htx]
      exact h.mine x (hevents x hx hxt)
  · intro u hu sc hsc k hk
    by_cases hut : u = t
    · subst hut
      simp only [State.setTx, update_self] at hu hsc
      exact hself hu sc hsc k hk
    · simp only [State.setTx, update_of_ne hut, htx] at hu hsc
      exact hothers u hut (h.hidden u hu sc hsc k hk)

theorem Guarded.stages (hrun : (s.tx t).status = .running) (hunforced : unforced)
    (hx : Stages kind filled unforced s t key event ix tx)
    (hscans : ∀ sc ∈ tx.scans, sc ∈ (s.tx t).scans ∨ ∀ k, sc.Hidden k →
      Guards kind (s.after t ix tx) t (sc.position k) k) :
    Guarded kind (s.after t ix tx) := by
  refine h.setTx rfl (fun x hmem hxt => ?_) (fun x hmem hxt => hx.old_event hmem hxt)
    (fun _ sc hsc k hk => ?_) fun u _ _ _ hguards => hguards.stages hrun hunforced hx
  · have hevents : x ∈ ix.range.insertOrDeleteKeySet := hmem
    rw [hx.events, mem_pushed] at hevents
    rw [hx.running]
    refine ⟨by simp, fun _ => ?_⟩
    have hnew : event ≠ none → x.2.key = key → ∃ w ∈ tx.writeSet, w.key = x.2.key := by
      intro hevent hkey
      rw [hkey]
      exact hx.staged hevent
    rcases hevents with hold | ⟨d, hevent, rfl⟩
    · have hmine := (h.mine x hold).2
      rw [hxt] at hmine
      obtain ⟨w, hw, hwkey⟩ := hmine hrun
      by_cases hkey : w.key = key
      · by_cases hevent : event = none
        · obtain ⟨w', hw', hkey', -⟩ := hx.kept hevent w hw hkey
          exact ⟨w', hw', hkey'.trans (hkey.symm.trans hwkey)⟩
        · exact hnew hevent (hwkey.symm.trans hkey)
      · exact ⟨w, (hx.others w hkey).mpr hw, hwkey⟩
    · exact hnew (by simp [hevent]) rfl
  · rcases hscans sc hsc with hold | hnew
    · exact (h.hidden t hrun sc hold k hk).stages hrun hunforced hx
    · exact hnew k hk

theorem Guarded.aborts (hx : Aborts kind unforced s t key event ix tx) :
    Guarded kind (s.after t ix tx) := by
  refine h.setTx rfl (fun x _ _ => ?_) (fun x hmem hxt => hx.old_event hmem hxt) (fun hrun => ?_)
    fun u hut _ _ hguards => hguards.aborts hut hx
  · rw [hx.aborted]
    simp
  · rw [hx.aborted] at hrun
    cases hrun

theorem Guarded.commit (hrun : (s.tx t).status = .running)
    (hp : Published kind t (s.tx t).writeSet s s') :
    Guarded kind (s'.setTx t { s.tx t with status := .committed }) := by
  refine h.setTx hp.tx (fun x _ _ => by simp) (fun x hmem _ => ?_) (fun hstatus => by cases hstatus)
    fun u hut n k hguards => ?_
  · rw [hp.range] at hmem
    exact hmem
  · -- whoever commits has not written what is guarded
    have hnot : ∀ w ∈ (s.tx t).writeSet, w.key ≠ k :=
      fun w hw => hguards.unwritten t w (Ne.symm hut) ⟨hrun, hw⟩
    refine hguards.carry (hp.others k hnot).2 ?_ ?_ ?_ ?_
    · intro hlive
      have hany : (s'.index.point k).any kind.live = true := hlive
      rw [(hp.others k hnot).1] at hany
      exact hany
    · intro v w _ hw hkey
      exact ⟨w, (hp.staging.mp hw).2, hkey⟩
    · intro p hmem _
      show p ∈ s'.index.range.predicateList
      rw [hp.range]
      exact hmem
    · simp only [State.setTx, update_of_ne hut, hp.tx]

theorem Guarded.manage (hinv : Inv kind s) {g : EpochNumber} (hg : s.manager = some g) :
    Guarded kind { s with
      index := { s.index with range := s.index.range.manage g }, manager := none } := by
  constructor
  · intro x hx
    exact h.mine x ((List.dropWhile_suffix _).subset hx)
  · intro t hrun sc hsc k hk
    refine (h.hidden t hrun sc hsc k hk).carry rfl id (fun u w _ hw hkey => ⟨w, hw, hkey⟩) ?_ rfl
    intro p hp hepoch
    exact hinv.mem_dropWhile hg hrun hp hepoch

end

/-- No key is made by `Write`. -/
def Unforced (s : State) : Action → Prop
  | .op t op => op.Unforced s t
  | _ => True

instance (s : State) (t : ℕ) : ∀ op : Op, Decidable (op.Unforced s t)
  | .write _ _ => inferInstanceAs (Decidable (_ → _ ≠ _))
  | .read _ | .scan _ _ _ _ | .insert _ _ | .update _ _ | .delete _ | .writeSecondaryIndex _ _
  | .deleteSecondaryIndex _ _ => inferInstanceAs (Decidable True)

instance (s : State) : ∀ a : Action, Decidable (Unforced s a)
  | .op t op => inferInstanceAs (Decidable (op.Unforced s t))
  | .start _ | .commit _ | .abort _ | .advanceEpoch | .sync | .manage =>
    inferInstanceAs (Decidable True)

theorem Guarded.step (h : Guarded kind s) (hinv : Inv kind s)
    (hcond : Orderly kind s a ∧ Unforced s a) (hstep : step kind s a = some s') :
    Guarded kind s' := by
  cases step_effect hinv hcond.1 hstep with
  | @start t hidle =>
    refine h.setTx (m := { s with begun := t :: s.begun }) rfl (fun x hx hxt => ?_)
      (fun x hx _ => hx) (fun _ sc hsc => ?_) fun u hut n k hguards => ?_
    · exact absurd (hxt ▸ hidle) (h.mine x hx).1
    · rw [show _ = _ from hinv.idle t hidle] at hsc
      cases hsc
    · refine hguards.carry rfl id ?_ (fun p hp _ => hp) ?_
      · intro v w _ hw hkey
        exact ⟨w, (hinv.staging_start hidle).mp hw, hkey⟩
      · simp only [State.setTx, update_of_ne hut]
  | carried hrun hop hx =>
    refine h.stages hrun hcond.2 hx fun sc hsc => ?_
    rcases op_scans hop with hsame |
      ⟨beginKey, endKey, reverse, accepted, keys, range, hscan, hix, htx⟩
    · rw [hsame] at hsc
      exact .inl hsc
    · rw [htx, List.mem_append, List.mem_singleton] at hsc
      rcases hsc with hold | rfl
      · exact .inl hold
      · refine .inr fun k hk => ?_
        rw [hix]
        exact h.scan hinv hrun hscan hk.1 hk.2.1 hk.2.2 hx.epoch
  | aborted _ hx => exact h.aborts hx
  | @committed t hrun _ hvalid =>
    simp only [State.commit, hvalid, if_true]
    exact h.commit hrun (published_foldl (hinv.nodup t) s)
  | advanceEpoch | sync =>
    exact ⟨h.mine, fun t hrun sc hsc k hk => (h.hidden t hrun sc hsc k hk).carry rfl id
      (fun u w _ hw hkey => ⟨w, hw, hkey⟩) (fun p hp _ => hp) rfl⟩
  | manage hg => exact h.manage hinv hg

end Guard

/-! ## Commits as steps of the optimistic protocol -/

/-- The versions, with nothing else. -/
def State.abs (s : State) : Optimistic.State Bytes ℕ Content :=
  ⟨s.versions, fun _ => none, fun _ => none, 0, fun _ => ∅, fun _ => ∅⟩

/-- **The conflicts of the committed transactions**: of their reads and writes, and between
scans and whoever makes a key in their range that they were not shown. -/
def Conflict (s : State) : ℕ → ℕ → Prop := Optimistic.Conflict s.abs s.Committed s.reads

/-- The key is live once it has so many versions. -/
def State.liveAt (kind : IndexKind) (s : State) (key : Bytes) (n : ℕ) : Bool :=
  (((s.versions key).take n).getLast?).any fun v => kind.live v.2

/-- A state of the optimistic protocol in which every committed transaction has observed and
fixed what it has seen. -/
structure Simulated (kind : IndexKind) (s : State) (o : Optimistic.State Bytes ℕ Content) :
    Prop where
  inv : Optimistic.Inv o
  versions : o.versions = s.versions
  unlocked : ∀ k, o.lock k = none
  stamped : ∀ t st, o.stamp t = some st → s.Committed t
  seen : ∀ t, s.Committed t → ∀ q ∈ s.reads t, q ∈ o.observed t ∧ q ∈ o.fixed t
  returned : ∀ t, s.Committed t → (s.tx t).hasReturned = true
  /-- There was no row where a scan was shown none. -/
  absent : ∀ t, s.Committed t → ∀ sc ∈ (s.tx t).scans, ∀ key, sc.Hidden key →
    sc.position key ≤ s.position key ∧ s.liveAt kind key (sc.position key) = false

section Simulation

variable {kind : IndexKind} {s s' : State} {t : ℕ} {a : Action}
  {o : Optimistic.State Bytes ℕ Content}

/-- A step that publishes nothing and leaves the committed transactions alone. -/
theorem Simulated.quiet (h : Simulated kind s o) (hversions : s'.versions = s.versions)
    (htx : ∀ t, s.Committed t → s'.tx t = s.tx t)
    (hnew : ∀ t, s'.Committed t → s.Committed t) : Simulated kind s' o := by
  refine ⟨h.inv, h.versions.trans hversions.symm, h.unlocked, fun t st hst => ?_,
    fun t ht q hq => ?_, fun t ht => ?_, fun t ht sc hsc key hkey => ?_⟩
  · have hcommitted := h.stamped t st hst
    rw [State.Committed, htx t hcommitted]
    exact hcommitted
  · have hcommitted := hnew t ht
    refine h.seen t hcommitted q ?_
    rw [State.reads, htx t hcommitted] at hq
    exact hq
  · rw [htx t (hnew t ht)]
    exact h.returned t (hnew t ht)
  · rw [htx t (hnew t ht)] at hsc
    rw [State.position, State.liveAt, hversions]
    exact h.absent t (hnew t ht) sc hsc key hkey

/-- Publishing one write after the other, each under its lock. -/
theorem publish_all (kind : IndexKind) {ws : List Staged} {st : ℕ}
    (hnodup : (ws.map Staged.key).Nodup)
    (hinv : Optimistic.Inv o) (hversions : o.versions = s.versions)
    (hlock : ∀ k, o.lock k = if k ∈ ws.map Staged.key then some t else none)
    (hstamp : o.stamp t = some st) :
    ∃ o', Optimistic.Inv o' ∧ o'.versions = (ws.foldl (State.publish kind t) s).versions ∧
      (∀ k, o'.lock k = none) ∧ o'.stamp = o.stamp ∧ o'.observed = o.observed ∧
      o'.fixed = o.fixed := by
  induction ws generalizing s o with
  | nil => exact ⟨o, hinv, hversions, fun k => by rw [hlock]; rfl, rfl, rfl, rfl⟩
  | cons w rest ih =>
    rw [List.map_cons, List.nodup_cons] at hnodup
    have hheld : o.lock w.key = some t := by
      rw [hlock, if_pos (by simp)]
    have hnext := hinv.publish (w.installed kind ((s.index.point w.key).getD .blank)) hstamp hheld
    have hversions' : Function.update o.versions w.key
        (o.versions w.key ++ [(t, w.installed kind ((s.index.point w.key).getD .blank))]) =
        (s.publish kind t w).versions := by
      rw [hversions]
      rfl
    have hlock' : ∀ k, Function.update o.lock w.key none k =
        if k ∈ rest.map Staged.key then some t else none := by
      intro k
      rw [Function.update_apply]
      by_cases hk : k = w.key
      · rw [if_pos hk, hk, if_neg hnodup.1]
      · rw [if_neg hk, hlock, List.map_cons]
        simp only [List.mem_cons, hk, false_or]
    have hrest := ih hnodup.2 hnext hversions' hlock' hstamp
    exact hrest

/-- What was published before is still there. -/
theorem Published.keeps {ws : List Staged} (hp : Published kind t ws s s') {tx : Tx} {key : Bytes}
    {n : ℕ} (hn : n ≤ s.position key) (hdead : s.liveAt kind key n = false) :
    n ≤ (s'.setTx t tx).position key ∧ (s'.setTx t tx).liveAt kind key n = false := by
  have hversions : s.versions key <+: s'.versions key := by
    rcases hp.cases key with ⟨w, -, -, -, hversions⟩ | ⟨-, -, hversions⟩
    · rw [hversions]
      exact List.prefix_append _ _
    · rw [hversions]
  obtain ⟨rest, hrest⟩ := hversions
  have htake : (s'.versions key).take n = (s.versions key).take n := by
    rw [← hrest, List.take_append_of_le_length hn]
  refine ⟨le_trans hn ?_, ?_⟩
  · show (s.versions key).length ≤ (s'.versions key).length
    rw [← hrest, List.length_append]
    exact Nat.le_add_right _ _
  · show (((s'.versions key).take n).getLast?).any _ = false
    rw [htake]
    exact hdead

/-- **A commit locks, observes, takes its stamp, fixes and publishes.** -/
theorem Simulated.commit (h : Simulated kind s o) (hrun : (s.tx t).status = .running)
    (hnodup : ((s.tx t).writeSet.map Staged.key).Nodup)
    (hcurrent : ∀ q ∈ s.reads t, s.position q.1 = q.2) (hreturned : (s.tx t).hasReturned = true)
    (habsent : ∀ sc ∈ (s.tx t).scans, ∀ key, sc.Hidden key →
      s.liveAt kind key (s.position key) = false) :
    ∃ o', Simulated kind
      (((s.tx t).writeSet.foldl (State.publish kind t) s).setTx t
        { s.tx t with status := .committed }) o' := by
  have hstamp : o.stamp t = none := by
    cases hst : o.stamp t with
    | none => rfl
    | some st =>
      have hcommitted := h.stamped t st hst
      rw [State.Committed, hrun] at hcommitted
      cases hcommitted
  have hlocked : Optimistic.Inv { o with
      lock := fun k => if k ∈ (s.tx t).writeSet.map Staged.key then some t else none } := by
    refine h.inv.relock fun k u st hk hu => ?_
    by_cases hmem : k ∈ (s.tx t).writeSet.map Staged.key
    · rw [if_pos hmem] at hk
      cases hk
      rw [hstamp] at hu
      cases hu
    · rw [if_neg hmem] at hk
      cases hk
  have hobserved := hlocked.observeAll (A := s.reads t) hstamp fun q hq => by
    rw [h.versions, ← hcurrent q hq]
    exact le_rfl
  have hfixed := (hobserved.serialize hstamp).fix (D := Set.univ) (update_self ..) fun k _ => by
    by_cases hmem : k ∈ (s.tx t).writeSet.map Staged.key
    · exact .inr (if_pos hmem)
    · exact .inl (if_neg hmem)
  obtain ⟨o', hinv, hversions, hunlocked, hstamps, hobserves, hfixes⟩ :=
    publish_all kind hnodup hfixed h.versions (fun k => rfl) (update_self ..)
  have hp : Published kind t (s.tx t).writeSet s _ := published_foldl hnodup s
  have htx := hp.tx
  refine ⟨o', hinv, hversions, hunlocked, fun u st hst => ?_, fun u hu q hq => ?_, fun u hu => ?_,
    fun u hu sc hsc key hkey => ?_⟩
  · rw [hstamps] at hst
    by_cases hut : u = t
    · simp only [State.Committed, State.setTx, hut, update_self]
    · simp only [update_of_ne hut] at hst
      simp only [State.Committed, State.setTx, update_of_ne hut, htx]
      exact h.stamped u st hst
  · rw [hobserves, hfixes]
    by_cases hut : u = t
    · subst hut
      simp only [State.reads, State.setTx, update_self] at hq
      simp only [update_self]
      refine ⟨.inr hq, .inr ⟨trivial, ?_⟩⟩
      rw [h.versions]
      exact (hcurrent q hq).symm
    · simp only [State.Committed, State.reads, State.setTx, update_of_ne hut, htx] at hu hq
      simp only [update_of_ne hut]
      exact h.seen u hu q hq
  · by_cases hut : u = t
    · subst hut
      simp only [State.setTx, update_self]
      exact hreturned
    · simp only [State.Committed, State.setTx, update_of_ne hut, htx] at hu ⊢
      exact h.returned u hu
  · by_cases hut : u = t
    · subst hut
      simp only [State.setTx, update_self] at hsc
      have hposition : s.position key = sc.position key :=
        hcurrent (key, sc.position key) (.inr ⟨sc, hsc, hkey, rfl⟩)
      refine hp.keeps (le_of_eq hposition.symm) ?_
      rw [← hposition]
      exact habsent sc hsc key hkey
    · simp only [State.Committed, State.setTx, update_of_ne hut, htx] at hu hsc
      obtain ⟨hle, hdead⟩ := h.absent u hu sc hsc key hkey
      exact hp.keeps hle hdead

/-- What a transaction that commits has seen is current: what it has read, because it is
valid, and what its scans were not shown, because it is guarded. -/
theorem Guarded.current (h : Guarded kind s) (hrun : (s.tx t).status = .running)
    (hvalid : s.valid (s.tx t) = true) : ∀ q ∈ s.reads t, s.position q.1 = q.2 := by
  rintro q (hread | ⟨sc, hsc, hhidden, hposition⟩)
  · rw [State.valid, Bool.and_eq_true, List.all_eq_true] at hvalid
    simpa using hvalid.1 q hread
  · rw [hposition]
    exact (h.hidden t hrun sc hsc q.1 hhidden).position

/-- The last version of a key that is not live is no row. -/
theorem Inv.dead_of_not_live (hinv : Inv kind s) {key : Bytes} (hdead : ¬s.Live kind key) :
    s.liveAt kind key (s.position key) = false := by
  rw [State.liveAt, State.position, List.take_length]
  cases hlast : (s.versions key).getLast? with
  | none => rfl
  | some v =>
    cases hlive : kind.live v.2 with
    | false => simpa using hlive
    | true =>
      refine absurd ?_ hdead
      rw [State.Live, (hinv.last_iff hlive).mpr (by rw [hlast]; rfl)]
      exact hlive

/-- What is done to one transaction that does not commit leaves the committed ones alone. -/
theorem Simulated.setTx (h : Simulated kind s o) {m : State} {tx : Tx}
    (hversions : m.versions = s.versions) (htx : m.tx = s.tx)
    (hold : (s.tx t).status ≠ .committed) (hnew : tx.status ≠ .committed) :
    Simulated kind (m.setTx t tx) o := by
  refine h.quiet hversions (fun u hu => ?_) fun u hu => ?_
  · have hut : u ≠ t := by
      rintro rfl
      exact hold hu
    simp only [State.setTx, update_of_ne hut, htx]
  · have hut : u ≠ t := by
      rintro rfl
      simp only [State.Committed, State.setTx, update_self] at hu
      exact hnew hu
    simpa only [State.Committed, State.setTx, update_of_ne hut, htx] using hu

theorem Simulated.step (h : Simulated kind s o) (hinv : Inv kind s) (hguarded : Guarded kind s)
    (horderly : Orderly kind s a) (hstep : step kind s a = some s') :
    ∃ o', Simulated kind s' o' := by
  have hrunning : ∀ {u}, (s.tx u).status = .running → (s.tx u).status ≠ .committed := by
    intro u hu hcommitted
    rw [hu] at hcommitted
    cases hcommitted
  cases step_effect hinv horderly hstep with
  | @start t hidle =>
    refine ⟨o, h.setTx (m := { s with begun := t :: s.begun }) rfl rfl ?_ (by simp)⟩
    rw [hidle]
    simp
  | carried hrun _ hx =>
    refine ⟨o, h.setTx rfl rfl (hrunning hrun) ?_⟩
    rw [hx.running]
    simp
  | aborted hrun hx =>
    refine ⟨o, h.setTx rfl rfl (hrunning hrun) ?_⟩
    rw [hx.aborted]
    simp
  | @committed t hrun hreturned hvalid =>
    simp only [State.commit, hvalid, if_true]
    refine h.commit hrun (hinv.nodup t) (hguarded.current hrun hvalid) hreturned ?_
    intro sc hsc key hkey
    exact hinv.dead_of_not_live (hguarded.hidden t hrun sc hsc key hkey).dead
  | advanceEpoch | sync | manage => exact ⟨o, h.quiet rfl (fun _ _ => rfl) fun _ hu => hu⟩

end Simulation

end LineairDB.Precision
