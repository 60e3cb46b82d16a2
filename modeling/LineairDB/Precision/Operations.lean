import LineairDB.Precision.Visible

/-!
# What each operation does to the range index

Every operation of a transaction either is carried out, and then is one of the ways of
`Stages`, or aborts its transaction in one of the ways of `Aborts`.

* `Queues.push` — the operations of the index: a blank entry, an event, both.
* `Stages.of_entry` — a write set with one entry more, or one entry changed.
* `op_outcome` — every operation, if it is orderly.
-/

namespace LineairDB.Precision

open ByteFile Silo Transition
open Recovery (SecondaryIndexOp applySecondaryIndexDelta)

variable {r r' : RangeIndex} {epoch : EpochNumber} {f : Staged → Staged} {w : Staged}

/-- What is written is a row. -/
def Op.Filled : Op → Prop
  | .write _ value | .insert _ value | .update _ value => value ≠ []
  | _ => True

/-- `Write` does not make the key. -/
def Op.Unforced (s : State) (t : ℕ) : Op → Prop
  | .write key _ => (s.tx t).findWrite key = none → s.index.point key ≠ none
  | _ => True

/-- **An operation is carried out, or aborts.** -/
inductive Outcome (kind : IndexKind) (filled unforced : Prop) (s : State) (t : ℕ) (ix : Index)
    (tx : Tx) : Prop where
  | carried (key : Bytes) (event : Option Bool)
      (h : Stages kind filled unforced s t key event ix tx)
  | aborted (key : Bytes) (event : Option Bool) (h : Aborts kind unforced s t key event ix tx)

/-- What an operation returns is an outcome. -/
abbrev Ends (kind : IndexKind) (filled unforced : Prop) (s : State) (t : ℕ) (x : Index × Tx) :
    Prop := Outcome kind filled unforced s t x.1 x.2

section

variable {kind : IndexKind} {s : State} {t : ℕ} {key : Bytes} {event : Option Bool}
  {ix : Index} {tx : Tx} {filled unforced : Prop}

/-! ## The index -/

theorem Queues.refl (unforced : Prop) (s : State) (t : ℕ) (key : Bytes) :
    Queues unforced s t key none s.index where
  point _ := .inl rfl
  container := rfl
  keys := rfl
  events := rfl
  predicates _ hp := hp
  entry h := by cases h
  orderly h := absurd rfl h
  asked _ h := absurd rfl h

theorem point_putBlank (ix : Index) (key : Bytes) : (ix.putBlank key).point key ≠ none := by
  simp [Index.putBlank]

theorem Queues.putBlank (s : State) (t : ℕ) (key : Bytes) :
    Queues unforced s t key none (s.index.putBlank key) where
  __ := Queues.refl unforced s t key
  point k := by
    by_cases hk : k = key
    · subst hk
      cases hpoint : s.index.point k with
      | none => exact .inr ⟨rfl, rfl, by simp [Index.putBlank, hpoint]⟩
      | some => exact .inl (by simp [Index.putBlank, hpoint])
    · exact .inl (by simp [Index.putBlank, Function.update_of_ne hk])
  entry h := by cases h

/-- An event on top of what has been done to the hash table. -/
theorem Queues.push {d : Bool} (h : Queues unforced s t key none ix)
    (hr : r = s.index.range.push (s.tx t).epoch ⟨key, d, t⟩)
    (hentry : d = false → ix.point key ≠ none)
    (horderly : Alone s t key)
    (hasked : unforced → s.index.range.isInPredicateSet t key = false) :
    Queues unforced s t key (some d) { ix with range := r } where
  point := h.point
  container := by rw [hr]; rfl
  keys := by rw [hr]; rfl
  events := by rw [hr]; rfl
  predicates p hp := by rw [hr]; exact hp
  entry hd := hentry (Option.some.inj hd)
  orderly _ := horderly
  asked hunforced _ := hasked hunforced

theorem RangeIndex.insert_eq_some (h : r.insert epoch t key = some r') :
    r' = r.push epoch ⟨key, false, t⟩ ∧ r.isInPredicateSet t key = false := by
  rw [RangeIndex.insert] at h
  split_ifs at h with hpredicate
  exact ⟨(Option.some.inj h).symm, Bool.eq_false_iff.mpr hpredicate⟩

theorem RangeIndex.delete_eq_some (h : r.delete epoch t key = some r') :
    r' = r.push epoch ⟨key, true, t⟩ ∧ r.isInPredicateSet t key = false := by
  rw [RangeIndex.delete] at h
  split_ifs at h with hpredicate
  exact ⟨(Option.some.inj h).symm, Bool.eq_false_iff.mpr hpredicate⟩

/-- What an operation of the index says, and the event it has queued. -/
def told (done : Bool) (d : Bool) : Option Bool := if done then some d else none

/-- An insertion into the range index, refused or not. -/
theorem Queues.withInsert (h : Queues unforced s t key none ix) (hentry : ix.point key ≠ none)
    (horderly : Alone s t key) :
    Queues unforced s t key
      (told (ix.withRange (s.index.range.insert (s.tx t).epoch t key)).1 false)
      (ix.withRange (s.index.range.insert (s.tx t).epoch t key)).2 := by
  cases hinsert : s.index.range.insert (s.tx t).epoch t key with
  | none => exact h
  | some =>
    obtain ⟨hpush, hasked⟩ := RangeIndex.insert_eq_some hinsert
    exact h.push hpush (fun _ => hentry) horderly fun _ => hasked

theorem Queues.insert (horderly : Alone s t key) :
    Queues unforced s t key (told (s.index.insert (s.tx t).epoch t key).1 false)
      (s.index.insert (s.tx t).epoch t key).2 := by
  rw [Index.insert]
  cases hstate : s.index.getEntryState key with
  | present | inconsistent => exact .refl unforced s t key
  | notExists =>
    exact (Queues.putBlank s t key).withInsert (point_putBlank _ _) horderly
  | deleted =>
    refine (Queues.refl unforced s t key).withInsert (fun hnone => ?_) horderly
    simp [Index.getEntryState, hnone] at hstate
    split_ifs at hstate

theorem Queues.delete (horderly : Alone s t key)
    (h : Queues unforced s t key none ix) (hrange : ix.range = s.index.range) :
    Queues unforced s t key (told (ix.delete (s.tx t).epoch t key).1 true)
      (ix.delete (s.tx t).epoch t key).2 := by
  rw [Index.delete, hrange]
  cases hdelete : s.index.range.delete (s.tx t).epoch t key with
  | none => exact h
  | some =>
    obtain ⟨hpush, hasked⟩ := RangeIndex.delete_eq_some hdelete
    exact h.push hpush nofun horderly fun _ => hasked

/-! ## The write set -/

theorem findWrite_eq_some {own : Staged} (h : tx.findWrite key = some own) :
    own ∈ tx.writeSet ∧ own.key = key :=
  ⟨List.mem_of_find?_eq_some h, by simpa using List.find?_some h⟩

theorem findWrite_eq_none (h : tx.findWrite key = none) : ∀ w ∈ tx.writeSet, w.key ≠ key := by
  intro w hw
  simpa using List.find?_eq_none.mp h w hw

theorem modify_keys (tx : Tx) (hkey : ∀ w, (f w).key = w.key) :
    (tx.modify key f).writeSet.map Staged.key = tx.writeSet.map Staged.key := by
  rw [Tx.modify, List.map_map]
  refine List.map_congr_left fun w _ => ?_
  show (if w.key = key then f w else w).key = w.key
  split_ifs
  · exact hkey w
  · rfl

/-- A write set with one entry of the key, and the others as they were. -/
theorem Stages.of_entry (hq : Queues unforced s t key event ix) (hgoing : Going kind s t tx)
    (hnodup : (tx.writeSet.map Staged.key).Nodup)
    (hothers : ∀ v, v.key ≠ key → (v ∈ tx.writeSet ↔ v ∈ (s.tx t).writeSet))
    (hw : w ∈ tx.writeSet) (hkey : w.key = key) (hpoint : ix.point key ≠ none)
    (hplain : kind.Plain w.copy) (hevent : event ≠ none → w.event = event)
    (hsame : event = none → (∃ v ∈ (s.tx t).writeSet, v.key = key ∧ w.event = v.event) ∨
      w.event = none ∧ s.Live kind key ∧ s.Visible key ∧ Undisturbed s t key false)
    (hkept : event = none → ∀ v ∈ (s.tx t).writeSet, v.key = key → w.event = v.event)
    (hdead : w.event = some true → kind.live w.copy = false ∧ kind ≠ .secondary false)
    (hlive : filled → w.event ≠ some true → kind.live w.copy = true) :
    Stages kind filled unforced s t key event ix tx := by
  have hmine : ∀ v ∈ tx.writeSet, v.key = key → v = w := fun v hv hvkey =>
    List.inj_on_of_nodup_map hnodup hv hw (hvkey.trans hkey.symm)
  refine ⟨hq, hgoing, hnodup, hothers, ?plain, ?noted, ?same,
    fun hnone v hv hvkey => ⟨w, hw, hkey, hkept hnone v hv hvkey⟩, fun _ => ⟨w, hw, hkey⟩, ?dead,
    ?live⟩
  case plain =>
    intro v hv hvkey
    rw [hmine v hv hvkey]
    exact ⟨hplain, hpoint⟩
  case noted =>
    intro hne v hv hvkey
    rw [hmine v hv hvkey]
    exact hevent hne
  case same =>
    intro hnone v hv hvkey
    rw [hmine v hv hvkey]
    exact hsame hnone
  case dead =>
    intro v hv hvkey
    rw [hmine v hv hvkey]
    exact hdead
  case live =>
    intro hfilled v hv hvkey
    rw [hmine v hv hvkey]
    exact fun hne => .inl (hlive hfilled hne)

theorem nodup_stage (hinv : Shape kind s) (hfind : (s.tx t).findWrite key = none)
    (hkey : w.key = key) : (((s.tx t).writeSet ++ [w]).map Staged.key).Nodup := by
  rw [List.map_append, List.nodup_append]
  refine ⟨hinv.nodup t, by simp, ?_⟩
  intro k hk k' hk' heq
  obtain ⟨v, hv, rfl⟩ := List.mem_map.mp hk
  rw [List.map_singleton, List.mem_singleton] at hk'
  exact findWrite_eq_none hfind v hv (heq.trans (hk'.trans hkey))

theorem Undisturbed.weaken (h : Undisturbed s t key true) : Undisturbed s t key false := by
  intro u hu hut hrun w hw hkey
  exact ⟨rfl, (h u hu hut hrun w hw hkey).2⟩

/-- An operation that goes on if the index did what it was asked, and aborts if it refused. -/
theorem Ends.of_told {done d : Bool} {x : Index × Tx}
    (hq : Queues unforced s t key (told done d) ix)
    (haborted : Queues unforced s t key none ix → Aborts kind unforced s t key none ix tx)
    (hdone : Queues unforced s t key (some d) ix → Ends kind filled unforced s t x) :
    Ends kind filled unforced s t (if done then x else (ix, tx)) := by
  cases done with
  | false => exact .aborted key none (haborted hq)
  | true => exact hdone hq

/-- What has been read is remembered, and nothing else. -/
structure Reads (kind : IndexKind) (s : State) (t : ℕ) (tx : Tx) : Prop
    extends Going kind s t tx where
  writeSet : tx.writeSet = (s.tx t).writeSet

theorem Reads.remember {c : Content} (h : Reads kind s t tx) (hc : kind.Plain c) (key : Bytes) :
    Reads kind s t (tx.remember key c) := by
  refine ⟨⟨h.running, h.epoch, fun entry hentry => ?_⟩, h.writeSet⟩
  rcases List.mem_append.mp hentry with hold | hnew
  · exact h.reads entry hold
  · rw [List.mem_singleton.mp hnew]
    exact hc

section Carried

variable (hinv : Inv kind s)

include hinv

/-- A key is written for the first time. -/
theorem Stages.stage (hq : Queues unforced s t key event ix) (hgoing : Going kind s t tx)
    (hfind : (s.tx t).findWrite key = none) (hset : tx.writeSet = (s.tx t).writeSet ++ [w])
    (hkey : w.key = key) (hevent : w.event = event)
    (hshown : event = none → s.Live kind key ∧ s.Visible key ∧ Undisturbed s t key false)
    (hpoint : ix.point key ≠ none) (hplain : kind.Plain w.copy)
    (hdead : w.event = some true → kind.live w.copy = false ∧ kind ≠ .secondary false)
    (hlive : filled → w.event ≠ some true → kind.live w.copy = true) :
    Stages kind filled unforced s t key event ix tx := by
  have hnew := findWrite_eq_none hfind
  have hmem : ∀ v, v ∈ tx.writeSet ↔ v ∈ (s.tx t).writeSet ∨ v = w := by
    intro v
    rw [hset, List.mem_append, List.mem_singleton]
  refine .of_entry hq hgoing ?nodup ?others ((hmem w).mpr (.inr rfl)) hkey hpoint hplain
    (fun _ => hevent) (fun hnone => .inr ⟨hevent.trans hnone, hshown hnone⟩)
    (fun _ v hv hvkey => absurd hvkey (hnew v hv)) hdead hlive
  case nodup =>
    rw [hset]
    exact nodup_stage hinv.toShape hfind hkey
  case others =>
    intro v hv
    rw [hmem]
    constructor
    · rintro (hold | rfl)
      · exact hold
      · exact absurd hkey hv
    · exact .inl

/-- The transaction aborts as it is. -/
theorem Aborts.abort (hq : Queues unforced s t key event ix)
    (hdead : event = some true → ¬s.Live kind key) :
    Aborts kind unforced s t key event ix (s.tx t).abort where
  toQueues := hq
  aborted := rfl
  epoch := rfl
  nodup := hinv.nodup t
  reads := hinv.reads t
  dead := hdead

/-- A live key that nobody deletes is shown. -/
theorem Inv.visible {queues : Bool} (hlive : s.Live kind key)
    (hundisturbed : Undisturbed s t key queues) (hfind : (s.tx t).findWrite key = none) :
    s.Visible key := by
  rcases hinv.live key hlive with hvisible | ⟨u, w, hw, hkey, hdelete⟩
  · exact hvisible
  · by_cases hut : u = t
    · subst hut
      exact absurd hkey (findWrite_eq_none hfind w hw.2)
    · have hnone := (hundisturbed u (hinv.begun u hw.1) hut hw.1 w hw.2 hkey).2
      rw [hnone] at hdelete
      cases hdelete

theorem Queues.plain (h : Queues unforced s t key event ix) :
    kind.Plain ((ix.point key).getD .blank) := by
  rcases h.point key with hpoint | ⟨-, -, hblank⟩
  · rw [hpoint]
    cases hslot : s.index.point key with
    | none => exact plain_blank kind
    | some c => exact hinv.plain key c hslot
  · rw [hblank]
    exact plain_blank kind

theorem findRead_plain {c : Content} (h : (s.tx t).findRead key = some c) : kind.Plain c := by
  obtain ⟨entry, hentry, rfl⟩ := Option.map_eq_some_iff.mp h
  exact hinv.reads t entry (List.mem_of_find?_eq_some hentry)

variable (hrun : (s.tx t).status = .running)

include hrun

/-- The entry of a key is changed. -/
theorem Stages.modify {own : Staged} (hq : Queues unforced s t key event ix)
    (hgoing : Going kind s t tx) (hfind : (s.tx t).findWrite key = some own)
    (hset : tx.writeSet = ((s.tx t).modify key f).writeSet) (hkey : ∀ w, (f w).key = w.key)
    (hevent : (f own).event = (event <|> own.event)) (hplain : kind.Plain (f own).copy)
    (hdead : (f own).event = some true → kind.live (f own).copy = false ∧ kind ≠ .secondary false)
    (hlive : filled → (f own).event ≠ some true → kind.live (f own).copy = true) :
    Stages kind filled unforced s t key event ix tx := by
  obtain ⟨hown, hownKey⟩ := findWrite_eq_some hfind
  have hmem : ∀ w, w ∈ tx.writeSet ↔
      ∃ v ∈ (s.tx t).writeSet, (if v.key = key then f v else v) = w := by
    intro w
    rw [hset]
    exact List.mem_map
  refine .of_entry hq hgoing ?nodup ?others ((hmem _).mpr ⟨own, hown, if_pos hownKey⟩)
    ((hkey own).trans hownKey) ?point hplain ?noted ?same ?kept hdead hlive
  case nodup =>
    rw [hset, modify_keys _ hkey]
    exact hinv.nodup t
  case point => exact hownKey ▸ hq.point_ne_none (hinv.present t own ⟨hrun, hown⟩)
  case others =>
    intro w hwkey
    rw [hmem]
    constructor
    · rintro ⟨v, hv, rfl⟩
      split_ifs at hwkey ⊢ with hvk
      · exact absurd ((hkey v).trans hvk) hwkey
      · exact hv
    · intro hw
      exact ⟨w, hw, if_neg hwkey⟩
  case noted =>
    intro hne
    rw [hevent]
    cases hflag : event with
    | none => exact absurd hflag hne
    | some => rfl
  case same =>
    intro hnone
    refine .inl ⟨own, hown, hownKey, ?_⟩
    rw [hevent, hnone]
    rfl
  case kept =>
    intro hnone v hv hvkey
    rw [List.inj_on_of_nodup_map (hinv.nodup t) hv hown (hvkey.trans hownKey.symm), hevent, hnone]
    rfl

theorem Reads.refl : Reads kind s t (s.tx t) := ⟨⟨hrun, rfl, hinv.reads t⟩, rfl⟩

theorem Reads.register (key : Bytes) : Reads kind s t ((s.tx t).register s.position key) := by
  rw [Tx.register]
  split_ifs <;> exact ⟨⟨hrun, rfl, hinv.reads t⟩, rfl⟩

/-- The copy a secondary entry starts from may be an old one, but it is an entry. -/
theorem seed_spec (hq : Queues unforced s t key event ix) (unique : Bool) :
    kind.Plain ((s.tx t).seed s.position unique ix key).1 ∧
      Reads kind s t ((s.tx t).seed s.position unique ix key).2 := by
  rw [Tx.seed]
  cases hread : (s.tx t).findRead key with
  | some c => exact ⟨findRead_plain hinv hread, .refl hinv hrun⟩
  | none =>
    have hbase : Reads kind s t (if unique then (s.tx t).register s.position key else s.tx t) := by
      split_ifs
      · exact .register hinv hrun key
      · exact .refl hinv hrun
    exact ⟨hq.plain hinv, hbase.remember (hq.plain hinv) key⟩

/-- An operation that writes nothing. -/
theorem Stages.read (hq : Queues unforced s t key none ix) (h : Reads kind s t tx) :
    Stages kind filled unforced s t key none ix tx where
  toQueues := hq
  toGoing := h.toGoing
  nodup := h.writeSet ▸ hinv.nodup t
  others w _ := by rw [h.writeSet]
  plain w hw hkey := by
    rw [h.writeSet] at hw
    exact ⟨hinv.copy t w ⟨hrun, hw⟩, hkey ▸ hq.point_ne_none (hinv.present t w ⟨hrun, hw⟩)⟩
  noted h := absurd rfl h
  same _ w hw hkey := .inl ⟨w, h.writeSet ▸ hw, hkey, rfl⟩
  kept _ v hv hkey := ⟨v, h.writeSet ▸ hv, hkey, rfl⟩
  staged h := absurd rfl h
  dead w hw _ hdelete := hinv.dead t w ⟨hrun, h.writeSet ▸ hw⟩ hdelete
  live _ w hw _ _ := .inr (h.writeSet ▸ hw)

end Carried

/-! ## Rows -/

section Primary

variable {value : Bytes}

theorem Queues.forcePutBlank (horderly : Alone s t key)
    (hforced : ¬unforced) :
    Queues unforced s t key (some false) (s.index.forcePutBlankEntry (s.tx t).epoch t key) :=
  (Queues.putBlank s t key).push rfl (fun _ => point_putBlank _ _) horderly
    fun hunforced => absurd hunforced hforced

variable (hinv : Inv .primary s) (hrun : (s.tx t).status = .running)

include hinv hrun

/-- `Write`, after an event that has been queued for the key or without one. -/
theorem write_outcome (hq : Queues unforced s t key event ix) (isInsert : Bool)
    (hplain : event = none → ix = s.index) (hpoint : event ≠ none → ix.point key ≠ none)
    (hdelete : event = some true → value = []) (hfilled : filled → event ≠ some true → value ≠ [])
    (hown : event = none → ∀ own, (s.tx t).findWrite key = some own → own.event ≠ some true)
    (hnew : event = none → (s.tx t).findWrite key = none →
      if s.index.point key = none then Alone s t key ∧ ¬unforced
      else s.Live .primary key ∧ s.Visible key ∧ Undisturbed s t key false) :
    Ends .primary filled unforced s t ((s.tx t).write ix t key value isInsert event) := by
  have hrow : value = [] → IndexKind.primary.live ⟨value, []⟩ = false := by
    rintro rfl
    rfl
  have hlive : value ≠ [] → ∀ pks, IndexKind.primary.live ⟨value, pks⟩ = true := by
    intro hne pks
    simpa [IndexKind.live, Content.isPrimaryInitialized] using hne
  rw [Tx.write]
  cases hfind : (s.tx t).findWrite key with
  | some own =>
    obtain ⟨hmem, -⟩ := findWrite_eq_some hfind
    have hempty := hinv.copy t own ⟨hrun, hmem⟩
    refine .carried key event (.modify hinv hrun hq ⟨hrun, rfl, hinv.reads t⟩ hfind rfl
      (fun w => rfl) rfl hempty ?_ ?_)
    · intro hdead
      refine ⟨?_, by simp⟩
      have hevent : event = some true := by
        cases hflag : event with
        | none =>
          rw [hflag] at hdead
          exact absurd hdead (hown hflag own hfind)
        | some =>
          rw [hflag] at hdead
          exact hdead
      have hvalue := hdelete hevent
      subst hvalue
      rfl
    · intro hfull hne
      refine hlive (hfilled hfull fun hevent => hne ?_) _
      rw [hevent]
      rfl
  | none =>
    by_cases hslot : ix.point key = none
    · -- no entry: a blank one is put, and shown without a look at the predicates
      have hevent : event = none := by
        by_contra hne
        exact hpoint hne hslot
      have hindex := hplain hevent
      rw [hindex] at hslot ⊢
      have horderly := hnew hevent hfind
      rw [if_pos hslot] at horderly
      rw [if_pos hslot, Index.getOrInsert, if_pos hslot]
      refine .carried key (some false) (.stage hinv (.forcePutBlank horderly.1 horderly.2)
        ⟨hrun, rfl, hinv.reads t⟩ hfind rfl rfl rfl (by simp) (point_putBlank _ _) rfl
        (by simp) ?_)
      intro hfull _
      refine hlive (hfilled hfull ?_) _
      rw [hevent]
      simp
    · rw [if_neg hslot, Index.getOrInsert, if_neg hslot]
      refine .carried key event (.stage hinv hq ⟨hrun, rfl, hinv.reads t⟩ hfind rfl rfl rfl ?_
        hslot rfl ?_ ?_)
      · intro hevent
        have horderly := hnew hevent hfind
        rw [hplain hevent] at hslot
        rwa [if_neg hslot] at horderly
      · intro hdead
        exact ⟨hrow (hdelete hdead), by simp⟩
      · intro hfull hne
        exact hlive (hfilled hfull hne) _

theorem insert_outcome (horderly : OrderlyOp .primary s t (.insert key value))
    (hfilled : filled → value ≠ []) :
    Ends .primary filled unforced s t ((s.tx t).insert s.index t key value) := by
  obtain ⟨hundisturbed, hlatest, hown⟩ := horderly
  rw [Tx.insert]
  cases hfind : (s.tx t).findWrite key with
  | some own =>
    rw [hfind] at hown
    have hlive : own.copy.isPrimaryInitialized = true := hown
    simp only [hlive, if_true]
    exact .aborted key none (.abort hinv (.refl unforced s t key) nofun)
  | none =>
    exact .of_told (.insert ⟨hundisturbed, hlatest⟩) (.abort hinv · (by simp)) fun hq =>
      write_outcome hinv hrun hq true (by simp) (fun _ => hq.entry rfl) (by simp)
        (fun hfull _ => hfilled hfull) (by simp) (by simp)

/-- `Update`, and what `Delete` does after it has queued its event. -/
theorem update_outcome (hq : Queues unforced s t key event ix)
    (hplain : event = none → ix = s.index) (hdelete : event = some true → value = [] ∧
      ∀ own, (s.tx t).findWrite key = some own → own.copy.isPrimaryInitialized = true)
    (hfilled : filled → event ≠ some true → value ≠ [])
    (hown : event = none → ∀ own, (s.tx t).findWrite key = some own → own.event ≠ some true)
    (hnew : event = none → (s.tx t).findWrite key = none → Undisturbed s t key false) :
    Ends .primary filled unforced s t ((s.tx t).update ix t key value event) := by
  rw [Tx.update]
  cases hfind : (s.tx t).findWrite key with
  | some own =>
    obtain ⟨hmem, hkey⟩ := findWrite_eq_some hfind
    cases hlive : own.copy.isPrimaryInitialized with
    | false =>
      simp only [hlive, Bool.false_eq_true, if_false]
      refine .aborted key event (.abort hinv hq fun hdead => ?_)
      rw [(hdelete hdead).2 own hfind] at hlive
      cases hlive
    | true =>
      simp only [hlive, if_true]
      refine write_outcome hinv hrun hq false hplain (fun _ => ?_) (fun h => (hdelete h).1) hfilled
        hown fun _ hnone => ?_
      · exact hkey ▸ hq.point_ne_none (hinv.present t own ⟨hrun, hmem⟩)
      · rw [hfind] at hnone
        cases hnone
  | none =>
    have hiff : (ix.point key).any IndexKind.primary.live = true ↔ s.Live .primary key :=
      hq.live_iff key
    by_cases hlive : s.Live .primary key
    · have hany : ((ix.point key).any fun c => c.isPrimaryInitialized) = true := hiff.mpr hlive
      have hpoint : ix.point key ≠ none := by
        intro hnone
        rw [hnone] at hany
        cases hany
      simp only [hany, if_true]
      refine write_outcome hinv hrun hq false hplain (fun _ => hpoint) (fun h => (hdelete h).1)
        hfilled hown fun hevent hnone => ?_
      rw [hplain hevent] at hpoint
      rw [if_neg hpoint]
      exact ⟨hlive, hinv.visible hlive (hnew hevent hnone) hnone, hnew hevent hnone⟩
    · have hdead : ¬((ix.point key).any fun c => c.isPrimaryInitialized) = true :=
        fun hany => hlive (hiff.mp hany)
      simp only [if_neg hdead]
      exact .aborted key event (.abort hinv hq fun _ => hlive)

theorem delete_outcome (horderly : OrderlyOp .primary s t (.delete key)) :
    Ends .primary filled unforced s t ((s.tx t).delete s.index t key) := by
  obtain ⟨hundisturbed, hlatest, hown⟩ := horderly
  refine .of_told (.delete ⟨hundisturbed, hlatest⟩ (.refl unforced s t key) rfl)
    (.abort hinv · (by simp)) fun hq => ?_
  refine update_outcome hinv hrun hq (by simp) (fun _ => ⟨rfl, ?_⟩) (fun _ h => absurd rfl h)
    (by simp) (by simp)
  intro own hfind
  rw [hfind] at hown
  exact hown

end Primary

/-! ## Entries of a secondary index -/

section Secondary

variable {unique : Bool} {primaryKey : Bytes}

theorem length_queue {α : Type} (epoch : EpochNumber) (x : α) (l : List (EpochNumber × α)) :
    (queue epoch x l).length = l.length + 1 := by
  have hsplit := congrArg List.length
    (List.takeWhile_append_dropWhile (p := fun y : EpochNumber × α => decide (y.1 ≤ epoch))
      (l := l))
  rw [List.length_append] at hsplit
  rw [queue, List.length_append, List.length_cons]
  omega

/-- The event a write remembers is the one that was queued. -/
theorem Queues.insertion (h : Queues unforced s t key event ix) (hevent : event ≠ some true) :
    Tx.insertion s.index ix = event := by
  rw [Tx.insertion, h.events]
  cases event with
  | none => exact if_pos rfl
  | some d =>
    have hd : d = false := by simpa using hevent
    rw [hd]
    refine if_neg ?_
    have hlength : (queue (s.tx t).epoch (⟨key, false, t⟩ : InsertOrDeleteEvent)
      s.index.range.insertOrDeleteKeySet).length ≠ s.index.range.insertOrDeleteKeySet.length := by
      rw [length_queue]
      omega
    exact hlength

/-- Deltas are applied to primary keys only. -/
theorem plain_merge {c : Content} (h : (IndexKind.secondary unique).Plain c) (w : Staged) :
    (IndexKind.secondary unique).Plain (w.merge c) := by
  rw [Staged.merge]
  induction w.deltas generalizing c with
  | nil => exact h
  | cons delta deltas ih =>
    refine ih ?_
    rw [applySecondaryIndexDelta]
    cases delta.op <;> exact h

theorem plain_edit {op : SecondaryIndexOp} (h : (IndexKind.secondary unique).Plain w.copy) :
    (IndexKind.secondary unique).Plain (w.edit op primaryKey).copy := by
  have hbuffer : w.copy.buffer = [] := h
  cases op <;> exact hbuffer

theorem edit_remove_of_empty (h : w.copy.primaryKeys = []) :
    (w.edit .remove primaryKey).copy.primaryKeys = [] := by
  show Stateless.eraseKey primaryKey w.copy.primaryKeys = []
  rw [h]
  rfl

theorem live_of_primaryKeys (h : w.copy.primaryKeys ≠ []) :
    (IndexKind.secondary unique).live w.copy = true := by
  rw [IndexKind.live, Bool.not_eq_true', List.isEmpty_eq_false_iff]
  exact h

theorem live_edit_add (w : Staged) :
    (IndexKind.secondary unique).live (w.edit .add primaryKey).copy = true := by
  have hmem : primaryKey ∈ (w.edit .add primaryKey).copy.primaryKeys :=
    Recovery.mem_insertKey.mpr (.inl rfl)
  exact live_of_primaryKeys (List.ne_nil_of_mem hmem)

/-- A unique entry without primary keys is a deleted one. -/
theorem dead_of_primaryKeys (hunique : unique = true) (h : w.copy.primaryKeys = []) :
    (IndexKind.secondary unique).live w.copy = false ∧
      IndexKind.secondary unique ≠ .secondary false := by
  rw [IndexKind.live, h, hunique]
  exact ⟨rfl, by simp⟩

theorem modify_modify {g : Staged → Staged} (tx : Tx) (hkey : ∀ w, (f w).key = w.key) :
    (tx.modify key f).modify key g = tx.modify key fun w => g (f w) := by
  rw [Tx.modify, Tx.modify, List.map_map]
  congr 1
  refine List.map_congr_left fun w _ => ?_
  show (if (if w.key = key then f w else w).key = key then g (if w.key = key then f w else w)
    else if w.key = key then f w else w) = if w.key = key then g (f w) else w
  by_cases hw : w.key = key
  · rw [if_pos hw, if_pos ((hkey w).trans hw), if_pos hw]
  · rw [if_neg hw, if_neg hw, if_neg hw]

/-- Only the entry that was staged last is of the key. -/
theorem modify_stage {g : Staged → Staged} (hset : tx.writeSet = (s.tx t).writeSet)
    (hfind : (s.tx t).findWrite key = none) (hkey : w.key = key) :
    ((tx.stage w).modify key g).writeSet = (s.tx t).writeSet ++ [g w] := by
  show (tx.writeSet ++ [w]).map (fun w => if w.key = key then g w else w) = _
  rw [hset, List.map_append, List.map_singleton, if_pos hkey]
  congr 1
  conv_rhs => rw [← List.map_id (s.tx t).writeSet]
  exact List.map_congr_left fun v hv => if_neg (findWrite_eq_none hfind v hv)

/-- `DeleteSecondaryIndex` once the primary key is gone from the copy: a unique entry that has
become empty goes, too. -/
theorem maybeDelete_outcome {copy : Content} (horderly : Alone s t key)
    (hepoch : tx.epoch = (s.tx t).epoch) (hnodup : (tx.writeSet.map Staged.key).Nodup)
    (hreads : ∀ entry ∈ tx.readSet, (IndexKind.secondary unique).Plain entry.2)
    (hgoes : unique = true → copy.primaryKeys = [] → ∀ ix, Queues unforced s t key (some true) ix →
      Stages (.secondary unique) filled unforced s t key (some true) ix
        (tx.modify key (Staged.note (some true))))
    (hstays : (unique = true → copy.primaryKeys ≠ []) →
      Stages (.secondary unique) filled unforced s t key none s.index tx) :
    Ends (.secondary unique) filled unforced s t (Tx.maybeDelete unique s.index t tx key copy) := by
  rw [Tx.maybeDelete]
  by_cases hempty : (unique && copy.primaryKeys.isEmpty) = true
  · rw [if_pos hempty, hepoch]
    rw [Bool.and_eq_true, List.isEmpty_iff] at hempty
    exact .of_told (.delete horderly (.refl unforced s t key) rfl)
      (⟨·, rfl, hepoch, hnodup, hreads, by simp⟩)
      fun hq => .carried key (some true) (hgoes hempty.1 hempty.2 _ hq)
  · rw [if_neg hempty]
    refine .carried key none (hstays fun hunique hkeys => hempty ?_)
    rw [hunique, hkeys]
    rfl

section

variable (hinv : Inv (.secondary unique) s)

include hinv

/-- The entry `WriteSecondaryIndex` finds or makes: a live one, or one for which an insertion
was queued if it was not refused. -/
theorem getOrInsertForWrite_cases (unforced : Prop) (horderly : Alone s t key) :
    let found := s.index.getOrInsertForWrite (s.tx t).epoch t key
    s.Live (.secondary unique) key ∧ found = (true, s.index) ∨
      Queues unforced s t key (told found.1 false) found.2 := by
  intro found
  by_cases hempty : ((s.index.point key).all fun c => c.primaryKeys.isEmpty) = true
  · right
    have hfound : found = s.index.ensureVisibleForSecondaryWrite (s.tx t).epoch t key :=
      if_pos hempty
    rw [hfound, Index.ensureVisibleForSecondaryWrite]
    cases hpoint : s.index.point key with
    | none =>
      have hhidden : s.index.range.contains key = false := by
        rw [RangeIndex.contains, decide_eq_false_iff_not]
        intro hcontainer
        exact hinv.entry key (.inl hcontainer) hpoint
      simp only [hhidden, Bool.false_eq_true, if_false]
      exact (Queues.putBlank s t key).withInsert (point_putBlank _ _) horderly
    | some c =>
      rw [hpoint] at hempty
      have hkeys : c.primaryKeys.isEmpty = true := hempty
      have hbuffer : c.buffer = [] := hinv.plain key c hpoint
      have hdead : c.isInitialized = false := by
        rw [Content.isInitialized, hbuffer, hkeys]
        rfl
      simp only [hdead, Bool.not_false, Bool.true_or, if_true]
      refine (Queues.refl unforced s t key).withInsert ?_ horderly
      rw [hpoint]
      simp
  · left
    refine ⟨?_, if_neg hempty⟩
    rw [State.Live]
    cases hpoint : s.index.point key with
    | none =>
      rw [hpoint] at hempty
      exact absurd rfl hempty
    | some =>
      rw [hpoint] at hempty
      simpa [IndexKind.live] using hempty

variable (hrun : (s.tx t).status = .running) (hfilled : filled → unique = true)

include hrun hfilled

/-- `WriteSecondaryIndex` with the entry it has found. -/
theorem addPrimaryKey_outcome (hq : Queues unforced s t key event ix) (hevent : event ≠ some true)
    (hpoint : ix.point key ≠ none)
    (hshown : event = none → s.Live (.secondary unique) key ∧ Undisturbed s t key true) :
    Ends (.secondary unique) filled unforced s t
      ((s.tx t).addPrimaryKey s.position unique ix key primaryKey event) := by
  rw [Tx.addPrimaryKey]
  cases hfind : (s.tx t).findWrite key with
  | some own =>
    obtain ⟨hmem, -⟩ := findWrite_eq_some hfind
    cases unique with
    | true =>
      exact .aborted key event (.abort hinv hq fun h => absurd h hevent)
    | false =>
      refine .carried key event (.modify hinv hrun hq ⟨hrun, rfl, hinv.reads t⟩ hfind rfl
        (fun w => rfl) rfl (plain_edit (hinv.copy t own ⟨hrun, hmem⟩)) ?_ fun hfull => ?_)
      · intro hdead
        cases hflag : event with
        | none =>
          rw [hflag] at hdead
          exact absurd rfl (hinv.dead t own ⟨hrun, hmem⟩ hdead).2
        | some =>
          rw [hflag] at hdead
          exact absurd (hflag.trans hdead) hevent
      · cases hfilled hfull
  | none =>
    obtain ⟨hplain, hreads⟩ := seed_spec hinv hrun hq unique
    simp only
    split_ifs with htaken
    · exact .aborted key event ⟨hq, rfl, hreads.epoch, hreads.writeSet ▸ hinv.nodup t, hreads.reads,
        fun h => absurd h hevent⟩
    · refine .carried key event (.stage hinv hq ⟨hreads.running, hreads.epoch, hreads.reads⟩ hfind
        (congrArg (· ++ [_]) hreads.writeSet) rfl rfl ?_ hpoint
        (plain_edit hplain) (fun h => absurd h hevent) fun _ _ => live_edit_add _)
      intro hnone
      obtain ⟨hlive, hundisturbed⟩ := hshown hnone
      exact ⟨hlive, hinv.visible hlive hundisturbed hfind, hundisturbed.weaken⟩

theorem writeSecondaryIndex_outcome
    (horderly : OrderlyOp (.secondary unique) s t (.writeSecondaryIndex key primaryKey)) :
    Ends (.secondary unique) filled unforced s t
      ((s.tx t).writeSecondaryIndex s.position unique s.index t key primaryKey) := by
  have hcases := getOrInsertForWrite_cases hinv unforced horderly
  rw [Tx.writeSecondaryIndex]
  generalize s.index.getOrInsertForWrite (s.tx t).epoch t key = found at hcases ⊢
  obtain ⟨done, ix'⟩ := found
  rcases hcases with ⟨hlive, hfound⟩ | hq
  · -- the entry leads to rows, and is left alone
    cases hfound
    have hsome : s.index.point key ≠ none := by
      intro hnone
      rw [State.Live, hnone] at hlive
      cases hlive
    have hnone := (Queues.refl unforced s t key).insertion (by simp)
    simp only [if_true, hnone]
    exact addPrimaryKey_outcome hinv hrun hfilled (.refl unforced s t key) (by simp) hsome
      fun _ => ⟨hlive, horderly.1⟩
  · cases done with
    | false =>
      exact .aborted key none (.abort hinv hq (by simp))
    | true =>
      have hqueued : Queues unforced s t key (some false) ix' := hq
      have hevent := hqueued.insertion (by simp)
      simp only [if_true, hevent]
      exact addPrimaryKey_outcome hinv hrun hfilled hqueued (by simp) (hqueued.entry rfl) (by simp)

theorem deleteSecondaryIndex_outcome
    (horderly : OrderlyOp (.secondary unique) s t (.deleteSecondaryIndex key primaryKey)) :
    Ends (.secondary unique) filled unforced s t
      ((s.tx t).deleteSecondaryIndex s.position unique s.index t key primaryKey) := by
  obtain ⟨hundisturbed, hlatest, hlive⟩ := horderly
  have hpoint : s.index.point key ≠ none := by
    cases hfind : (s.tx t).findWrite key with
    | some own =>
      obtain ⟨hmem, hkey⟩ := findWrite_eq_some hfind
      exact hkey ▸ hinv.present t own ⟨hrun, hmem⟩
    | none =>
      intro hnone
      have hany := hlive hfind
      rw [State.Live, hnone] at hany
      cases hany
  rw [Tx.deleteSecondaryIndex, Index.getOrInsert, if_neg hpoint, if_neg hpoint]
  cases hfind : (s.tx t).findWrite key with
  | some own =>
    obtain ⟨hmem, -⟩ := findWrite_eq_some hfind
    have hown : s.Staging t own := ⟨hrun, hmem⟩
    have hplain := hinv.copy t own hown
    have hkeep : ∀ w : Staged, ((w.edit .remove primaryKey).note none).key = w.key := fun w => rfl
    refine maybeDelete_outcome ⟨hundisturbed, hlatest⟩ rfl ?_ (hinv.reads t) ?_ ?_
    · rw [modify_keys _ hkeep]
      exact hinv.nodup t
    · intro hunique hempty ix hq
      rw [modify_modify _ hkeep]
      exact .modify hinv hrun hq ⟨hrun, rfl, hinv.reads t⟩ hfind rfl (fun w => rfl) rfl
        (plain_edit hplain) (fun _ => dead_of_primaryKeys hunique hempty)
        fun _ hne => absurd rfl hne
    · intro hne
      refine .modify hinv hrun (.refl unforced s t key) ⟨hrun, rfl, hinv.reads t⟩ hfind rfl
        (fun w => rfl) rfl
        (plain_edit hplain) ?_ fun hfull _ => live_of_primaryKeys (hne (hfilled hfull))
      intro hdeleted
      -- what was deleted before is empty, and stays so
      obtain ⟨hdead, hkind⟩ := hinv.dead t own hown hdeleted
      have hunique : unique = true := by
        cases unique with
        | true => rfl
        | false => exact absurd rfl hkind
      have hempty : own.copy.primaryKeys = [] := by
        rw [IndexKind.live, Bool.not_eq_false', List.isEmpty_iff] at hdead
        exact hdead
      exact absurd (edit_remove_of_empty hempty) (hne hunique)
  | none =>
    have hspec := seed_spec hinv hrun (.refl unforced s t key) unique
    generalize (s.tx t).seed s.position unique s.index key = seeded at hspec ⊢
    obtain ⟨base, tx⟩ := seeded
    obtain ⟨hplain, hreads⟩ := hspec
    have hvisible := hinv.visible (hlive hfind) hundisturbed hfind
    refine maybeDelete_outcome ⟨hundisturbed, hlatest⟩ hreads.epoch ?_ hreads.reads ?_ ?_
    · rw [Tx.stage, hreads.writeSet]
      exact nodup_stage hinv.toShape hfind rfl
    · intro hunique hempty ix hq
      exact .stage hinv hq ⟨hreads.running, hreads.epoch, hreads.reads⟩ hfind
        (modify_stage hreads.writeSet hfind rfl) rfl rfl (by simp)
        (hq.point_ne_none hpoint) (plain_edit hplain) (fun _ => dead_of_primaryKeys hunique hempty)
        fun _ hne => absurd rfl hne
    · intro hne
      exact .stage hinv (.refl unforced s t key) ⟨hreads.running, hreads.epoch, hreads.reads⟩ hfind
        (congrArg (· ++ [_]) hreads.writeSet) rfl rfl
        (fun _ => ⟨hlive hfind, hvisible, hundisturbed.weaken⟩) hpoint (plain_edit hplain)
        (fun h => by cases h) fun hfull _ => live_of_primaryKeys (hne (hfilled hfull))

end

end Secondary

/-! ## All operations -/

/-- What a transaction reads of its own entry of an index that is not unique. -/
theorem refresh_outcome {own : Staged} (hinv : Inv (.secondary false) s)
    (hrun : (s.tx t).status = .running) (hfind : (s.tx t).findWrite key = some own)
    (hfilled : ¬filled) :
    Outcome (.secondary false) filled unforced s t s.index
      ((s.tx t).refresh s.position s.index key) := by
  have hreads : Reads (.secondary false) s t ((s.tx t).register s.position key) :=
    .register hinv hrun key
  have hown : s.Staging t own := ⟨hrun, (findWrite_eq_some hfind).1⟩
  have hset : ((s.tx t).refresh s.position s.index key).writeSet =
      ((s.tx t).modify key (Staged.refresh ((s.index.point key).getD .blank))).writeSet := by
    rw [Tx.refresh, Tx.modify, Tx.modify, hreads.writeSet]
  refine .carried key none (.modify hinv hrun (.refl unforced s t key)
    ⟨hreads.running, hreads.epoch, hreads.reads⟩ hfind hset (fun w => rfl) rfl
    (plain_merge ((Queues.refl unforced s t key).plain hinv) own) (fun hdead => ?_)
    fun hfull => absurd hfull hfilled)
  exact absurd rfl (hinv.dead t own hown hdead).2

/-- A scan that is not refused sees what the container shows, and leaves a predicate behind. -/
theorem RangeIndex.scan_eq_some {beginKey : Bytes} {endKey : Option Bytes} {reverse : Bool}
    {keys : List Bytes} (h : r.scan epoch t beginKey endKey reverse = some (keys, r')) :
    r.isOverlapWithInsertOrDelete t beginKey endKey = false ∧
      keys = r.scanKeys beginKey endKey reverse ∧
      r' = { r with predicateList := queue epoch ⟨beginKey, endKey, t⟩ r.predicateList } := by
  rw [RangeIndex.scan] at h
  split_ifs at h with hend hoverlap
  cases h
  exact ⟨Bool.eq_false_iff.mpr hoverlap, rfl, rfl⟩

section

variable (hinv : Inv kind s) (hrun : (s.tx t).status = .running)

include hinv hrun

theorem read_outcome (key : Bytes) (hfilled : filled → kind ≠ .secondary false) :
    Outcome kind filled unforced s t s.index ((s.tx t).read kind s.position s.index key) := by
  have hreads {tx : Tx} (h : Reads kind s t tx) : Outcome kind filled unforced s t s.index tx :=
    .carried key none (.read hinv hrun (.refl unforced s t key) h)
  fun_cases Tx.read kind s.position s.index (s.tx t) key with
  | case1 own hfind hdelta =>
    obtain ⟨rfl, -⟩ := hdelta
    exact refresh_outcome hinv hrun hfind fun hfull => hfilled hfull rfl
  | case2 | case3 | case4 => exact hreads (.refl hinv hrun)
  | case5 _ _ c hpoint =>
    exact hreads ((Reads.register hinv hrun key).remember (hinv.plain key c hpoint) key)

theorem scan_outcome (beginKey : Bytes) (endKey : Option Bytes) (reverse : Bool) (accepted : ℕ) :
    Ends kind filled unforced s t
      ((s.tx t).scan s.position s.index t beginKey endKey reverse accepted) := by
  rw [Tx.scan]
  cases hscan : s.index.range.scan (s.tx t).epoch t beginKey endKey reverse with
  | none =>
    exact .aborted beginKey none (.abort hinv (.refl unforced s t beginKey) nofun)
  | some found =>
    obtain ⟨keys, range⟩ := found
    obtain ⟨-, -, rfl⟩ := RangeIndex.scan_eq_some hscan
    have hq := Queues.refl unforced s t beginKey
    exact .carried beginKey none (.read hinv hrun
      { hq with predicates := fun p hp => mem_queue.mpr (.inr hp) }
      ⟨⟨hrun, rfl, hinv.reads t⟩, rfl⟩)

/-- **Every orderly operation is carried out or aborts.** -/
theorem op_outcome {op : Op} (horderly : OrderlyOp kind s t op) {result : Index × Tx}
    (hop : s.op kind t op = some result) :
    Outcome kind (op.Filled ∧ kind ≠ .secondary false) (op.Unforced s t) s t result.1 result.2 := by
  revert hop
  fun_cases State.op kind s t op with
  | case1 _ key =>
    rintro ⟨⟩
    exact read_outcome hinv hrun key And.right
  | case2 _ beginKey endKey reverse accepted =>
    rintro ⟨⟩
    exact scan_outcome hinv hrun beginKey endKey reverse accepted
  | case3 key =>
    rintro ⟨⟩
    refine write_outcome hinv hrun (.refl _ s t key) false (fun _ => rfl)
      (fun h => absurd rfl h) nofun (fun hfull _ => hfull.1) ?_ ?_
    · intro _ own hfind
      have hown := horderly.2.2
      rw [hfind] at hown
      simpa using hown
    · intro _ hfind
      split_ifs with hpoint
      · exact ⟨horderly.1 hfind hpoint, fun hunforced => hunforced hfind hpoint⟩
      · obtain ⟨hlive, hundisturbed⟩ := horderly.2.1 hfind hpoint
        exact ⟨hlive, hinv.visible hlive hundisturbed hfind, hundisturbed⟩
  | case5 =>
    rintro ⟨⟩
    exact insert_outcome hinv hrun horderly And.left
  | case7 key =>
    rintro ⟨⟩
    refine update_outcome hinv hrun (.refl _ s t key) (fun _ => rfl) nofun
      (fun hfull _ => hfull.1) ?_ ?_
    · intro _ own hfind
      have hown := horderly.2
      rw [hfind] at hown
      simpa using hown
    · intro _ hfind
      exact horderly.1 hfind
  | case9 =>
    rintro ⟨⟩
    exact delete_outcome hinv hrun horderly
  | case12 =>
    rintro ⟨⟩
    refine writeSecondaryIndex_outcome hinv hrun (fun hfull => ?_) horderly
    simpa using hfull.2
  | case14 =>
    rintro ⟨⟩
    refine deleteSecondaryIndex_outcome hinv hrun (fun hfull => ?_) horderly
    simpa using hfull.2
  | _ => nofun

end

end

end LineairDB.Precision
