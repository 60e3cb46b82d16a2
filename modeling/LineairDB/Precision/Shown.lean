import LineairDB.Durability.Epochs
import LineairDB.Precision.Operations

/-!
# What scans return

The rest of the steps, and what follows for whole runs.

* `Inv.step` — what the range index will say, kept by every step that is orderly and
  aborts no transaction with a deletion.
* `aborts_leave_scans` — in such runs a scan returns the committed rows, as if the aborted
  transactions had not been there.
* `shown_iff_live` — where none aborts, the range index shows the live rows and no others.
-/

namespace LineairDB.Precision

open ByteFile Silo Transition
open Function (update_self update_of_ne)

variable {w : Staged} {c : Content}

section Steps

variable {kind : IndexKind} {s s' : State} {t : ℕ} {a : Action} {ws : List Staged}

theorem Inv.initial (kind : IndexKind) : Inv kind initial := by
  have hidle : ∀ {t w}, ¬Precision.initial.Staging t w := fun h => by cases h.1
  refine ⟨⟨fun _ _ => rfl, ?_, ?_, ?_, List.Pairwise.nil, ?_, ?_, ?_, ?_, fun _ _ => rfl, ?_, ?_,
    fun _ _ h => by cases h⟩,
    fun _ _ h => absurd h hidle, fun _ _ h => absurd h hidle, ?_, fun _ _ _ h => absurd h hidle,
    fun _ _ h => absurd h hidle, fun _ _ h => absurd h hidle, fun _ _ h => absurd h hidle⟩
  · intro t h
    cases h
  · intro t h
    cases h
  · intro g h
    cases h
  · intro k h
    exact absurd rfl h
  · rintro k (h | ⟨x, hx, -⟩)
    · cases h
    · cases hx
  · intro k c h
    cases h
  · intro k c h
    cases h
  · intro k v h
    cases h
  · intro t
    exact List.nodup_nil
  · intro k h
    cases h

/-! ## Commits -/

/-- **What publishing a write set does**, if no key is in it twice. -/
structure Published (kind : IndexKind) (t : ℕ) (ws : List Staged) (s s' : State) : Prop where
  range : s'.index.range = s.index.range
  tx : s'.tx = s.tx
  begun : s'.begun = s.begun
  globalEpoch : s'.globalEpoch = s.globalEpoch
  manager : s'.manager = s.manager
  others : ∀ k, (∀ w ∈ ws, w.key ≠ k) →
    s'.index.point k = s.index.point k ∧ s'.versions k = s.versions k
  installed : ∀ w ∈ ws,
    s'.index.point w.key = some (w.installed kind ((s.index.point w.key).getD .blank)) ∧
      s'.versions w.key =
        s.versions w.key ++ [(t, w.installed kind ((s.index.point w.key).getD .blank))]

/-- After the commit, the others go on. -/
theorem Published.staging (hp : Published kind t ws s s') {u : ℕ} :
    (s'.setTx t { s.tx t with status := .committed }).Staging u w ↔ u ≠ t ∧ s.Staging u w := by
  by_cases hut : u = t
  · subst hut
    simp [State.Staging, State.setTx]
  · simp [State.Staging, State.setTx, hut, hp.tx]

theorem published_foldl (hnodup : (ws.map Staged.key).Nodup) (s : State) :
    Published kind t ws s (ws.foldl (State.publish kind t) s) := by
  induction ws generalizing s with
  | nil => exact ⟨rfl, rfl, rfl, rfl, rfl, fun _ _ => ⟨rfl, rfl⟩, fun w hw => by cases hw⟩
  | cons w rest ih =>
    rw [List.map_cons, List.nodup_cons] at hnodup
    have hrest := ih hnodup.2 (s.publish kind t w)
    have hfresh : ∀ v ∈ rest, v.key ≠ w.key := by
      intro v hv hkey
      exact hnodup.1 (hkey ▸ List.mem_map_of_mem hv)
    have hkeep : ∀ k, k ≠ w.key → (s.publish kind t w).index.point k = s.index.point k ∧
        (s.publish kind t w).versions k = s.versions k := by
      intro k hk
      exact ⟨update_of_ne hk _ _, update_of_ne hk _ _⟩
    rw [List.foldl_cons]
    refine { hrest with others := ?_, installed := ?_ }
    · intro k hk
      obtain ⟨hpoint, hversions⟩ := hrest.others k fun v hv => hk v (.tail _ hv)
      obtain ⟨hpoint', hversions'⟩ := hkeep k (hk w (.head _)).symm
      exact ⟨hpoint.trans hpoint', hversions.trans hversions'⟩
    · intro v hv
      rcases List.mem_cons.mp hv with rfl | hv
      · obtain ⟨hpoint, hversions⟩ := hrest.others v.key hfresh
        rw [hpoint, hversions]
        exact ⟨update_self .., update_self ..⟩
      · obtain ⟨hpoint, hversions⟩ := hrest.installed v hv
        obtain ⟨hpoint', hversions'⟩ := hkeep v.key (hfresh v hv)
        rw [hpoint, hversions, hpoint', hversions']
        exact ⟨rfl, rfl⟩

/-- A key after the commit: it has one version more, or is as it was. -/
theorem Published.cases (hp : Published kind t ws s s') (k : Bytes) :
    (∃ w ∈ ws, w.key = k ∧
      s'.index.point k = some (w.installed kind ((s.index.point k).getD .blank)) ∧
      s'.versions k = s.versions k ++ [(t, w.installed kind ((s.index.point k).getD .blank))]) ∨
    (∀ w ∈ ws, w.key ≠ k) ∧ s'.index.point k = s.index.point k ∧
      s'.versions k = s.versions k := by
  by_cases hk : ∃ w ∈ ws, w.key = k
  · obtain ⟨w, hw, rfl⟩ := hk
    exact .inl ⟨w, hw, rfl, hp.installed w hw⟩
  · have hnot : ∀ w ∈ ws, w.key ≠ k := fun w hw hkey => hk ⟨w, hw, hkey⟩
    exact .inr ⟨hnot, hp.others k hnot⟩

theorem Published.point_ne_none (hp : Published kind t ws s s') {k : Bytes}
    (hk : s.index.point k ≠ none) : s'.index.point k ≠ none := by
  rcases hp.cases k with ⟨w, -, -, hpoint, -⟩ | ⟨-, hpoint, -⟩
  · rw [hpoint]
    exact nofun
  · rw [hpoint]
    exact hk

theorem plain_installed (hcopy : kind.Plain w.copy) (hc : kind.Plain c) :
    kind.Plain (w.installed kind c) := by
  rw [Staged.installed]
  split_ifs with hmerge
  · rw [hmerge.1] at hc ⊢
    exact plain_merge hc w
  · exact hcopy

section

variable (hinv : Inv kind s)

include hinv

/-- A write with a deletion publishes nothing that is live. -/
theorem Inv.installed_dead (hw : s.Staging t w) (hdelete : w.event = some true) :
    kind.live (w.installed kind c) = false := by
  obtain ⟨hdead, hkind⟩ := hinv.dead t w hw hdelete
  rw [Staged.installed, if_neg fun h => hkind h.1]
  exact hdead

/-- The index and the write sets are in order after a commit. -/
theorem Inv.shape_commit (hrun : (s.tx t).status = .running)
    (hp : Published kind t (s.tx t).writeSet s s') :
    Shape kind (s'.setTx t { s.tx t with status := .committed }) := by
  have htx := hinv.setTx hp.tx hrun (show ({ s.tx t with status := .committed } : Tx).status ≠ .idle
    by simp) rfl (hinv.nodup t) (hinv.reads t)
  refine ⟨fun u => (htx u).1, ?begun, ?clock, ?manager, ?order, ?keys, ?entry, ?plain, ?content,
    ?absent, ?writer, fun u => (htx u).2.2.1, fun u => (htx u).2.2.2⟩
  case begun =>
    intro u hu
    show u ∈ s'.begun
    rw [hp.begun]
    exact ((htx u).2.1 hu).1
  case clock =>
    intro u hu
    show s'.globalEpoch.toNat ≤ _
    rw [hp.globalEpoch]
    exact ((htx u).2.1 hu).2
  case manager =>
    show ∀ g, s'.manager = some g → 3 ≤ g.toNat ∧ g.toNat ≤ s'.globalEpoch.toNat
    rw [hp.manager, hp.globalEpoch]
    exact hinv.manager
  case order =>
    show InOrder s'.index.range.insertOrDeleteKeySet
    rw [hp.range]
    exact hinv.order
  case keys =>
    show ∀ k, s'.index.range.container k ≠ none → k ∈ s'.index.range.keys
    rw [hp.range]
    exact hinv.keys
  case entry =>
    intro k hk
    refine hp.point_ne_none (hinv.entry k ?_)
    rw [← hp.range]
    exact hk
  case plain =>
    intro k c hc
    rcases hp.cases k with ⟨w, hw, rfl, hpoint, -⟩ | ⟨-, hpoint, -⟩
    · rw [← Option.some.inj (hpoint.symm.trans hc)]
      exact plain_installed (hinv.copy t w ⟨hrun, hw⟩) ((Queues.refl True s t w.key).plain hinv)
    · exact hinv.plain k c (hpoint.symm.trans hc)
  case content =>
    intro k c hc
    show c = (((s'.versions k).getLast?).map Prod.snd).getD .blank
    rcases hp.cases k with ⟨w, -, -, hpoint, hversions⟩ | ⟨-, hpoint, hversions⟩
    · rw [hversions, List.getLast?_concat]
      exact (Option.some.inj (hpoint.symm.trans hc)).symm
    · rw [hversions]
      exact hinv.content k c (hpoint.symm.trans hc)
  case absent =>
    intro k hk
    show s'.versions k = []
    rcases hp.cases k with ⟨w, -, -, hpoint, -⟩ | ⟨-, hpoint, hversions⟩
    · cases hpoint.symm.trans hk
    · rw [hversions]
      exact hinv.absent k (hpoint.symm.trans hk)
  case writer =>
    intro k v hv
    have hnew : v ∈ s'.versions k := hv
    by_cases hvt : v.1 = t
    · simp only [State.setTx, hvt, update_self]
    · simp only [State.setTx, update_of_ne hvt, hp.tx]
      refine hinv.writer k v ?_
      rcases hp.cases k with ⟨w, -, -, -, hversions⟩ | ⟨-, -, hversions⟩
      · rw [hversions, List.mem_append, List.mem_singleton] at hnew
        exact hnew.resolve_right fun heq => hvt (by rw [heq])
      · rwa [hversions] at hnew

/-- What the commit has made live is shown, since no deletion was queued for it. -/
theorem Inv.visible_of_installed (hw : s.Staging t w)
    (hlive : kind.live (w.installed kind c) = true) : s.Visible w.key := by
  cases hevent : w.event with
  | none => exact hinv.shown t w hw hevent
  | some d =>
    cases d with
    | false => exact (hinv.event t w false hw hevent).1
    | true =>
      rw [hinv.installed_dead hw hevent] at hlive
      cases hlive

/-- **A commit keeps the invariant.** -/
theorem Inv.commit (hrun : (s.tx t).status = .running)
    (hp : Published kind t (s.tx t).writeSet s s') :
    Inv kind (s'.setTx t { s.tx t with status := .committed }) := by
  refine hinv.narrow (hinv.shape_commit hrun hp) ?staging (fun k => hp.point_ne_none) ?events ?live
  case staging =>
    intro u w hw
    obtain ⟨hut, hw⟩ := hp.staging.mp hw
    simp only [State.setTx, update_of_ne hut, hp.tx, hp.range]
    exact ⟨hw, trivial, trivial⟩
  case events =>
    intro u w x _ hx _
    show x ∈ s'.index.range.insertOrDeleteKeySet
    rw [hp.range]
    exact hx
  case live =>
    intro k hlive
    have hany : (s'.index.point k).any kind.live = true := hlive
    have hsettled : ∀ k, s'.index.range.settled k = s.index.range.settled k := fun k => by
      rw [hp.range]
    rcases hp.cases k with ⟨w, hw, rfl, hpoint, -⟩ | ⟨hnot, hpoint, -⟩
    · rw [hpoint, Option.any_some] at hany
      exact .inl ((hsettled _).trans (hinv.visible_of_installed ⟨hrun, hw⟩ hany))
    · rw [hpoint] at hany
      refine .inr ⟨hany, hsettled k, fun u w hw hkey _ => hp.staging.mpr ⟨?_, hw⟩⟩
      rintro rfl
      exact hnot w hw.2 hkey

/-! ## The manager and the clock -/

omit hinv in
/-- The epoch of a running transaction is at most one behind, and not stable: what is listed
under it stays. -/
theorem Shape.mem_dropWhile {α : Type} {l : List (EpochNumber × α)} {x : EpochNumber × α}
    (h : Shape kind s) {g : EpochNumber} (hg : s.manager = some g)
    (hrun : (s.tx t).status = .running) (hx : x ∈ l) (hepoch : x.1 = (s.tx t).epoch) :
    x ∈ l.dropWhile fun y => y.1 ≤ g - 2 := by
  obtain ⟨hthree, hglobal⟩ := h.manager g hg
  have hclock := h.clock t hrun
  have hstable : (g - 2).toNat = g.toNat - 2 := by
    refine UInt32.toNat_sub_of_le g 2 (UInt32.le_iff_toNat_le.mpr ?_)
    show 2 ≤ g.toNat
    omega
  rw [← List.takeWhile_append_dropWhile (p := fun y => decide (y.1 ≤ g - 2)) (l := l),
    List.mem_append] at hx
  refine hx.resolve_left fun htake => ?_
  have hle : x.1 ≤ g - 2 := by simpa using List.mem_takeWhile_imp htake
  rw [UInt32.le_iff_toNat_le, hstable, hepoch] at hle
  omega

/-- A round of the manager leaves the events of running transactions alone. -/
theorem Inv.manage {g : EpochNumber} (hg : s.manager = some g) :
    Inv kind { s with
      index := { s.index with range := s.index.range.manage g }, manager := none } := by
  have hevents : (s.index.range.manage g).insertOrDeleteKeySet =
      s.index.range.insertOrDeleteKeySet.dropWhile fun e => e.1 ≤ g - 2 := rfl
  have hsub : ∀ x ∈ (s.index.range.manage g).insertOrDeleteKeySet,
      x ∈ s.index.range.insertOrDeleteKeySet := fun x hx => (List.dropWhile_suffix _).subset hx
  have hcontainer : ∀ k, (s.index.range.manage g).container k = settle k (s.index.range.container k)
      (s.index.range.insertOrDeleteKeySet.takeWhile fun e => e.1 ≤ g - 2) :=
    fun k => RangeIndex.container_foldl _ _ k
  have htaken : ∀ x ∈ s.index.range.insertOrDeleteKeySet.takeWhile (fun e => e.1 ≤ g - 2),
      x ∈ s.index.range.insertOrDeleteKeySet := fun x hx => (List.takeWhile_prefix _).subset hx
  refine hinv.narrow { hinv.toShape with
    manager := nofun, order := ?order, keys := ?keys, entry := ?entry }
    (fun hw => ⟨hw, rfl, RangeIndex.settled_manage _ g _⟩) (fun _ hk => hk)
    (fun hw hx hepoch => hinv.mem_dropWhile hg hw.1 hx hepoch)
    fun k hlive => .inr ⟨hlive, RangeIndex.settled_manage _ g k, fun _ _ hw _ _ => hw⟩
  case order => exact hinv.order.sublist (List.dropWhile_suffix _).sublist
  case keys =>
    intro k hk
    refine (RangeIndex.mem_keys_foldl _ _ k).mpr ?_
    have hsettle : ∃ d, (s.index.range.manage g).container k = some d :=
      Option.ne_none_iff_exists'.mp hk
    obtain ⟨d, hd⟩ := hsettle
    rw [hcontainer] at hd
    rcases settle_cases hd with hflag | ⟨x, hx, hkey, -⟩
    · refine .inl (hinv.keys k ?_)
      rw [hflag]
      exact nofun
    · exact .inr ⟨x, hx, hkey⟩
  case entry =>
    rintro k (hflag | ⟨x, hx, hkey, hd⟩)
    · have hsettle : (s.index.range.manage g).container k = some false := hflag
      rw [hcontainer] at hsettle
      rcases settle_cases hsettle with hflag | ⟨x, hx, hkey, hd⟩
      · exact hinv.entry k (.inl hflag)
      · exact hinv.entry k (.inr ⟨x, htaken x hx, hkey, hd⟩)
    · exact hinv.entry k (.inr ⟨x, hsub x hx, hkey, hd⟩)

omit hinv in
/-- A start leaves the sets of all transactions alone. -/
theorem sets_start (s : State) (t u : ℕ) :
    ((s.start t).tx u).writeSet = (s.tx u).writeSet ∧
      ((s.start t).tx u).readSet = (s.tx u).readSet := by
  by_cases hut : u = t
  · subst hut
    simp only [State.start, State.setTx, update_self, and_self]
  · simp only [State.start, State.setTx, update_of_ne hut, and_self]

/-- A transaction that starts has written nothing. -/
theorem Inv.staging_start (hidle : (s.tx t).status = .idle) {u : ℕ} :
    (s.start t).Staging u w ↔ s.Staging u w := by
  by_cases hut : u = t
  · subst hut
    simp [State.Staging, State.start, State.setTx, hinv.idle u hidle, Tx.idle]
  · simp [State.Staging, State.start, State.setTx, hut]

theorem Inv.start (hidle : (s.tx t).status = .idle) : Inv kind (s.start t) := by
  refine hinv.narrow { hinv.toShape with
    idle := ?idle, begun := ?begun, clock := ?clock, writer := ?writer, nodup := ?nodup
    reads := ?reads }
    ?staging (fun _ hk => hk) (fun _ hx _ => hx)
    fun k hlive => .inr ⟨hlive, rfl, fun u w hw _ _ => (hinv.staging_start hidle).mpr hw⟩
  case idle =>
    intro u hu
    have hut : u ≠ t := by
      rintro rfl
      simp only [State.start, State.setTx, update_self] at hu
      cases hu
    simp only [State.start, State.setTx, update_of_ne hut] at hu ⊢
    exact hinv.idle u hu
  case begun =>
    intro u hu
    by_cases hut : u = t
    · exact hut ▸ List.mem_cons_self
    · simp only [State.start, State.setTx, update_of_ne hut] at hu
      exact .tail _ (hinv.begun u hu)
  case clock =>
    intro u hu
    by_cases hut : u = t
    · subst hut
      simp only [State.start, State.setTx, update_self]
      omega
    · simp only [State.start, State.setTx, update_of_ne hut] at hu ⊢
      exact hinv.clock u hu
  case writer =>
    intro k v hv
    have hcommitted := hinv.writer k v hv
    have hvt : v.1 ≠ t := by
      intro hvt
      rw [hvt, hidle] at hcommitted
      cases hcommitted
    simp only [State.start, State.setTx, update_of_ne hvt]
    exact hcommitted
  case nodup =>
    intro u
    rw [(sets_start s t u).1]
    exact hinv.nodup u
  case reads =>
    intro u
    rw [(sets_start s t u).2]
    exact hinv.reads u
  case staging =>
    intro u w hw
    have hold := (hinv.staging_start hidle).mp hw
    have hut : u ≠ t := by
      rintro rfl
      rw [hold.1] at hidle
      cases hidle
    simp only [State.start, State.setTx, update_of_ne hut]
    exact ⟨hold, trivial, trivial⟩

/-- The clock says nothing about rows. -/
theorem Inv.withClock {globalEpoch : EpochNumber} {manager : Option EpochNumber}
    (hclock : ∀ t, (s.tx t).status = .running → globalEpoch.toNat ≤ (s.tx t).epoch.toNat + 1)
    (hmanager : ∀ g, manager = some g → 3 ≤ g.toNat ∧ g.toNat ≤ globalEpoch.toNat) :
    Inv kind { s with globalEpoch := globalEpoch, manager := manager } :=
  { hinv with clock := hclock, manager := hmanager }

/-- **What a step does.** However a transaction comes to abort, the effect is the same. -/
inductive Effect (kind : IndexKind) (s : State) : Action → State → Prop
  | start {t : ℕ} (hidle : (s.tx t).status = .idle) : Effect kind s (.start t) (s.start t)
  | carried {t : ℕ} {op : Op} {result : Index × Tx} {key : Bytes} {event : Option Bool}
      (hrun : (s.tx t).status = .running) (hop : s.op kind t op = some result)
      (h : Stages kind (op.Filled ∧ kind ≠ .secondary false) (op.Unforced s t) s t key event
        result.1 result.2) :
      Effect kind s (.op t op) (s.after t result.1 result.2)
  | aborted {a : Action} {t : ℕ} {unforced : Prop} {key : Bytes} {event : Option Bool} {ix : Index}
      {tx : Tx} (hrun : (s.tx t).status = .running)
      (h : Aborts kind unforced s t key event ix tx) :
      Effect kind s a (s.after t ix tx)
  | committed {t : ℕ} (hrun : (s.tx t).status = .running) (hreturned : (s.tx t).hasReturned)
      (hvalid : s.valid (s.tx t) = true) : Effect kind s (.commit t) (s.commit kind t)
  | advanceEpoch (hbelow : s.globalEpoch < Durability.kEpochHighWater)
      (hlevel : ∀ t ∈ s.begun, (s.tx t).status = .running → s.globalEpoch ≤ (s.tx t).epoch) :
      Effect kind s .advanceEpoch { s with globalEpoch := s.globalEpoch + 1 }
  | sync (hthree : 3 ≤ s.globalEpoch) :
      Effect kind s .sync { s with manager := some s.globalEpoch }
  | manage {g : EpochNumber} (hg : s.manager = some g) : Effect kind s .manage
      { s with index := { s.index with range := s.index.range.manage g }, manager := none }

theorem step_effect (horderly : Orderly kind s a)
    (hstep : step kind s a = some s') : Effect kind s a s' := by
  have aborts : ∀ t, Aborts kind True s t [] none s.index (s.tx t).abort := fun t =>
    Aborts.abort hinv (.refl True s t []) nofun
  revert hstep
  fun_cases step kind s a with
  | case1 t hidle =>
    rintro ⟨⟩
    exact .start hidle
  | case3 t op hrun =>
    intro hstep
    obtain ⟨result, hop, rfl⟩ := Option.map_eq_some_iff.mp hstep
    cases op_outcome hinv hrun horderly hop with
    | carried key event h => exact .carried hrun hop h
    | aborted key event h => exact .aborted hrun h
  | case5 t hready =>
    rintro ⟨⟩
    by_cases hvalid : s.valid (s.tx t) = true
    · exact .committed hready.1 hready.2 hvalid
    · simp only [State.commit, if_neg hvalid]
      exact .aborted hready.1 (aborts t)
  | case7 t hrun =>
    rintro ⟨⟩
    exact .aborted hrun (aborts t)
  | case9 hready =>
    rintro ⟨⟩
    exact .advanceEpoch hready.1 hready.2
  | case11 hthree =>
    rintro ⟨⟩
    exact .sync hthree
  | case13 =>
    intro hstep
    obtain ⟨g, hg, rfl⟩ := Option.map_eq_some_iff.mp hstep
    exact .manage hg
  | _ => nofun

/-- **The step lemma.** -/
theorem Inv.step (hcond : Orderly kind s a ∧ Spares kind s a)
    (hstep : step kind s a = some s') : Inv kind s' := by
  cases step_effect hinv hcond.1 hstep with
  | start hidle => exact hinv.start hidle
  | carried hrun _ h => exact hinv.stages hrun h
  | aborted hrun h =>
    refine hinv.aborts hrun h (hcond.2 _ hstep _ (hinv.begun _ hrun) hrun ?_)
    simp only [State.setTx, update_self]
    exact h.aborted
  | @committed t hrun _ hvalid =>
    simp only [State.commit, hvalid, if_true]
    exact hinv.commit hrun (published_foldl (hinv.nodup t) s)
  | advanceEpoch hbelow hlevel =>
    rw [UInt32.lt_iff_toNat_lt, Durability.kEpochHighWater_toNat] at hbelow
    have hnext : (s.globalEpoch + 1).toNat = s.globalEpoch.toNat + 1 := Durability.toNat_succ hbelow
    refine hinv.withClock (fun t hrun => ?_) fun g hg => ?_
    · have hlevel := UInt32.le_iff_toNat_le.mp (hlevel t (hinv.begun t hrun) hrun)
      omega
    · obtain ⟨hthree, hle⟩ := hinv.manager g hg
      exact ⟨hthree, by omega⟩
  | sync hthree =>
    refine hinv.withClock hinv.clock fun g hg => ?_
    cases hg
    exact ⟨UInt32.le_iff_toNat_le.mp hthree, le_rfl⟩
  | manage hg => exact hinv.manage hg

end

end Steps

/-! ## Scans -/

/-- What a transaction that has written nothing gets from a scan. -/
def State.scanRows (kind : IndexKind) (s : State) (beginKey : Bytes) (endKey : Option Bytes)
    (reverse : Bool) : List (Bytes × Content) :=
  (s.index.range.scanKeys beginKey endKey reverse).filterMap fun key =>
    ((s.index.point key).filter kind.live).map fun c => (key, c)

section Scans

variable {kind : IndexKind} {s s' : State} {t : ℕ} {a : Action} {beginKey : Bytes}
  {endKey : Option Bytes}

theorem mem_scanRows (hinv : Inv kind s) {reverse : Bool} {key : Bytes} :
    (key, c) ∈ s.scanRows kind beginKey endKey reverse ↔
      (s.index.range.container key = some false ∧ inRange beginKey endKey key = true) ∧
        s.index.point key = some c ∧ kind.live c = true := by
  rw [State.scanRows, List.mem_filterMap, ← RangeIndex.mem_scanKeys hinv.keys]
  constructor
  · rintro ⟨k, hk, hrow⟩
    obtain ⟨d, hd, heq⟩ := Option.map_eq_some_iff.mp hrow
    cases heq
    exact ⟨hk, Option.filter_eq_some_iff.mp hd⟩
  · rintro ⟨hk, hpoint⟩
    refine ⟨key, hk, Option.map_eq_some_iff.mpr ⟨c, ?_, rfl⟩⟩
    exact Option.filter_eq_some_iff.mpr hpoint

/-- The last committed content of a key is what its entry holds, if it is live. -/
theorem Inv.last_iff (hinv : Inv kind s) {key : Bytes} (hlive : kind.live c = true) :
    s.index.point key = some c ↔ ((s.versions key).getLast?).map Prod.snd = some c := by
  cases hpoint : s.index.point key with
  | none =>
    rw [hinv.absent key hpoint]
    simp
  | some d =>
    have hcontent := hinv.content key d hpoint
    cases hlast : ((s.versions key).getLast?).map Prod.snd with
    | none =>
      rw [hlast] at hcontent
      have hblank : d = .blank := hcontent
      simp only [Option.some.injEq, reduceCtorEq, iff_false]
      rintro rfl
      rw [hblank, live_blank] at hlive
      cases hlive
    | some e =>
      rw [hlast] at hcontent
      have heq : d = e := hcontent
      rw [heq]

/-- Where no event is left, nobody is about to delete anything, and all that is live is
shown. -/
theorem Inv.shown_of_live (hinv : Inv kind s) {key : Bytes} (hlive : s.Live kind key)
    (hquiet : ∀ x ∈ s.index.range.insertOrDeleteKeySet, x.2.key ≠ key) :
    s.index.range.container key = some false := by
  rw [← RangeIndex.settled_of_quiet hquiet]
  rcases hinv.live key hlive with hvisible | ⟨u, w, hw, hkey, hdelete⟩
  · exact hvisible
  · obtain ⟨-, x, hx, -, hxkey, -⟩ := hinv.event u w true hw hdelete
    exact absurd (hxkey.trans hkey) (hquiet x hx)

/-- **Aborts leave scans alone** if no transaction aborts that has deleted something: once
the events of a range have been applied, a scan of it returns every row whose last version
by any other transaction is live, and nothing else. -/
theorem aborts_leave_scans {as : List Action} (hrun : run (step kind) initial as = some s)
    (hcond : Along (step kind) (fun s a => Orderly kind s a ∧ Spares kind s a) initial as)
    (haborted : (s.tx t).status = .aborted)
    (hquiet : ∀ x ∈ s.index.range.insertOrDeleteKeySet, inRange beginKey endKey x.2.key = false)
    (reverse : Bool) (key : Bytes) (c : Content) :
    (key, c) ∈ s.scanRows kind beginKey endKey reverse ↔
      inRange beginKey endKey key = true ∧ kind.live c = true ∧
        (((s.versions key).filter fun v => v.1 ≠ t).getLast?).map Prod.snd = some c := by
  have hinv : Inv kind s := Along.invariant Inv.step (Inv.initial kind) hcond hrun
  have hothers : (s.versions key).filter (fun v => v.1 ≠ t) = s.versions key := by
    refine List.filter_eq_self.mpr fun v hv => ?_
    rw [decide_eq_true_eq]
    intro hvt
    have hcommitted := hinv.writer key v hv
    rw [hvt, haborted] at hcommitted
    cases hcommitted
  rw [hothers, mem_scanRows hinv]
  constructor
  · rintro ⟨⟨-, hrange⟩, hpoint, hlive⟩
    exact ⟨hrange, hlive, (hinv.last_iff hlive).mp hpoint⟩
  · rintro ⟨hrange, hlive, hlast⟩
    have hpoint := (hinv.last_iff hlive).mpr hlast
    refine ⟨⟨hinv.shown_of_live ?_ fun x hx hkey => ?_, hrange⟩, hpoint, hlive⟩
    · rw [State.Live, hpoint]
      exact hlive
    · rw [← hkey, hquiet x hx] at hrange
      cases hrange

end Scans

/-- Two epochs pass, and the manager makes a round. -/
def twoEpochs : List Action := [.advanceEpoch, .advanceEpoch, .sync, .manage]

/-- A transaction aborts after an insertion and an update, and another one commits. -/
def abortedInsert : List Action :=
  [.start 0, .op 0 (.insert [1] [7]), .commit 0] ++ twoEpochs ++
    [.start 1, .op 1 (.insert [2] [8]), .op 1 (.update [1] [9]), .abort 1,
      .start 2, .op 2 (.insert [3] [9]), .commit 2] ++ twoEpochs

theorem aborts_leave_scans_abortedInsert :
    ∃ s, run (step .primary) initial abortedInsert = some s ∧
      (s.tx 1).status = .aborted ∧ (([1], ⟨[7], []⟩) : Bytes × Content) ∈
        s.scanRows .primary [] none false := by
  have hend : (run (step .primary) initial abortedInsert).map (fun s =>
      ((s.tx 1).status, s.index.range.insertOrDeleteKeySet, s.versions [1])) =
      some (.aborted, [], [(0, ⟨[7], []⟩)]) := by
    decide +kernel
  obtain ⟨s, hrun, hs⟩ := Option.map_eq_some_iff.mp hend
  rw [Prod.mk.injEq, Prod.mk.injEq] at hs
  obtain ⟨haborted, hevents, hversions⟩ := hs
  refine ⟨s, hrun, haborted, (aborts_leave_scans hrun (by decide +kernel) haborted ?_ false [1]
    ⟨[7], []⟩).mpr ⟨rfl, rfl, ?_⟩⟩
  · rw [hevents]
    exact fun x hx => by cases hx
  · rw [hversions]
    rfl

/-- A transaction aborts after it has deleted a row. -/
def abortedDelete : List Action :=
  [.start 0, .op 0 (.insert [1] [7]), .commit 0] ++ twoEpochs ++
    [.start 1, .op 1 (.delete [1]), .abort 1] ++ twoEpochs

/-- **An aborted deletion.** Its event is applied all the same: the row is there, and no scan
returns it. -/
theorem abortedDelete_hides :
    (run (step .primary) initial abortedDelete).map (fun s =>
        ((s.tx 1).status, s.index.range.insertOrDeleteKeySet.length, s.versions [1],
          (s.scanRows .primary [] none false).length)) =
      some (.aborted, 0, [(0, ⟨[7], []⟩)], 0) := by
  decide +kernel

/-! ## Without aborts -/

/-- No transaction aborts. -/
def Commits (kind : IndexKind) (s : State) (a : Action) : Prop :=
  ∀ s' ∈ step kind s a, ∀ t ∈ s.begun, (s.tx t).status = .running → (s'.tx t).status ≠ .aborted

/-- What is written are rows. -/
def Action.Filled : Action → Prop
  | .op _ made => made.Filled
  | _ => True

instance (kind : IndexKind) (s : State) (a : Action) : Decidable (Commits kind s a) :=
  inferInstanceAs (Decidable (∀ s' ∈ step kind s a, ∀ t ∈ s.begun, (s.tx t).status = .running →
    (s'.tx t).status ≠ .aborted))

instance : ∀ op : Op, Decidable op.Filled
  | .write _ _ | .insert _ _ | .update _ _ => inferInstanceAs (Decidable (_ ≠ _))
  | .read _ | .scan _ _ _ _ | .delete _ | .writeSecondaryIndex _ _ | .deleteSecondaryIndex _ _ =>
    inferInstanceAs (Decidable True)

instance : ∀ a : Action, Decidable a.Filled
  | .op _ op => inferInstanceAs (Decidable op.Filled)
  | .start _ | .commit _ | .abort _ | .advanceEpoch | .sync | .manage =>
    inferInstanceAs (Decidable True)

/-- **The range index will show nothing but rows.** -/
structure Exact (kind : IndexKind) (s : State) : Prop where
  live : ∀ k, s.Visible k → s.Live kind k ∨
    ∃ t w, s.Staging t w ∧ w.key = k ∧ w.event = some false
  /-- What is written without a deletion is live. -/
  filled : ∀ t w, s.Staging t w → w.event ≠ some true → kind.live w.copy = true

section Exact

variable {kind : IndexKind} {s s' : State} {t : ℕ} {a : Action} {key : Bytes}
  {event : Option Bool} {ix : Index} {tx : Tx} {filled unforced : Prop}

theorem Exact.stages (hexact : Exact kind s) (hinv : Inv kind s)
    (hrun : (s.tx t).status = .running) (hfilled : filled)
    (h : Stages kind filled unforced s t key event ix tx) :
    Exact kind (s.after t ix tx) := by
  constructor
  · intro k hvisible
    have hsettled := h.settled hinv.toShape k
    have hfalse : ix.range.settled k = some false := hvisible
    by_cases hk : k = key ∧ event ≠ none
    · obtain ⟨rfl, hevent⟩ := hk
      rw [if_pos ⟨rfl, hevent⟩, hfalse] at hsettled
      subst hsettled
      exact .inr ⟨t, h.remembered⟩
    · rw [if_neg hk, hfalse] at hsettled
      rcases hexact.live k hsettled.symm with hlive | ⟨u, w, hw, rfl, hinsert⟩
      · exact .inl ((h.live_iff k).mpr hlive)
      · obtain ⟨w', hw', hkey', hevent'⟩ := h.persists hw hk
        exact .inr ⟨u, w', hw', hkey', hevent'.trans hinsert⟩
  · intro u w hw hne
    rcases h.staging hrun hw with ⟨hw, -⟩ | ⟨rfl, hw, hkey⟩
    · exact hexact.filled u w hw hne
    · refine (h.live hfilled w hw hkey hne).elim id fun hmem => ?_
      exact hexact.filled u w ⟨hrun, hmem⟩ hne

theorem Exact.commit (hexact : Exact kind s) (hinv : Inv kind s) (hkind : kind ≠ .secondary false)
    (hrun : (s.tx t).status = .running) (hp : Published kind t (s.tx t).writeSet s s') :
    Exact kind (s'.setTx t { s.tx t with status := .committed }) := by
  constructor
  · intro k hvisible
    have hfalse : s'.index.range.settled k = some false := hvisible
    rw [hp.range] at hfalse
    rcases hp.cases k with ⟨w, hw, rfl, hpoint, -⟩ | ⟨hnot, hpoint, -⟩
    · left
      show (s'.index.point w.key).any kind.live = true
      have hne : w.event ≠ some true := by
        intro hdelete
        rw [(hinv.event t w true ⟨hrun, hw⟩ hdelete).1] at hfalse
        cases hfalse
      rw [hpoint, Option.any_some, Staged.installed, if_neg fun h => hkind h.1]
      exact hexact.filled t w ⟨hrun, hw⟩ hne
    · rcases hexact.live k hfalse with hlive | ⟨u, w, hw, hkey, hinsert⟩
      · left
        show (s'.index.point k).any kind.live = true
        rw [hpoint]
        exact hlive
      · have hut : u ≠ t := by
          rintro rfl
          exact hnot w hw.2 hkey
        exact .inr ⟨u, w, hp.staging.mpr ⟨hut, hw⟩, hkey, hinsert⟩
  · intro u w hw
    exact hexact.filled u w (hp.staging.mp hw).2

/-- The step lemma, where nothing is aborted. -/
theorem Exact.step (hkind : kind ≠ .secondary false) (h : Inv kind s ∧ Exact kind s)
    (hcond : Commits kind s a ∧ Orderly kind s a ∧ a.Filled) (hstep : step kind s a = some s') :
    Inv kind s' ∧ Exact kind s' := by
  obtain ⟨hinv, hexact⟩ := h
  obtain ⟨hcommits, horderly, hfilled⟩ := hcond
  refine ⟨hinv.step ⟨horderly, ?_⟩ hstep, ?_⟩
  · intro m hm t ht hrun haborted
    exact absurd haborted (hcommits m hm t ht hrun)
  cases step_effect hinv horderly hstep with
  | start hidle =>
    refine ⟨fun k hvisible => ?_, fun u w hw =>
      hexact.filled u w ((hinv.staging_start hidle).mp hw)⟩
    rcases hexact.live k hvisible with hlive | ⟨u, w, hw, hinsert⟩
    · exact .inl hlive
    · exact .inr ⟨u, w, (hinv.staging_start hidle).mpr hw, hinsert⟩
  | carried hrun _ h => exact hexact.stages hinv hrun ⟨hfilled, hkind⟩ h
  | aborted hrun h =>
    refine absurd ?_ (hcommits _ hstep _ (hinv.begun _ hrun) hrun)
    simp only [State.setTx, update_self]
    exact h.aborted
  | @committed t hrun _ hvalid =>
    simp only [State.commit, hvalid, if_true]
    exact hexact.commit hinv hkind hrun (published_foldl (hinv.nodup t) s)
  | advanceEpoch | sync => exact ⟨hexact.live, hexact.filled⟩
  | @manage g =>
    refine ⟨fun k hvisible => hexact.live k ?_, hexact.filled⟩
    exact (RangeIndex.settled_manage _ g k).symm.trans hvisible

theorem initialized_iff_live (h : kind.Plain c) : c.isInitialized = kind.live c := by
  cases kind with
  | primary =>
    have hkeys : c.primaryKeys = [] := h
    simp [Content.isInitialized, IndexKind.live, Content.isPrimaryInitialized, hkeys]
  | secondary =>
    have hbuffer : c.buffer = [] := h
    simp [Content.isInitialized, IndexKind.live, hbuffer]

/-- **The range index shows the live rows**, and no others, once every event has been applied,
if the transactions that have committed were orderly and wrote rows. -/
theorem shown_iff_live {as : List Action} (hkind : kind ≠ .secondary false)
    (hrun : run (step kind) initial as = some s) (hcond : Along (step kind)
      (fun s a => Commits kind s a ∧ Orderly kind s a ∧ a.Filled) initial as)
    (happlied : s.index.range.insertOrDeleteKeySet = []) (key : Bytes) :
    (s.index.range.container key = some false ↔ s.Live kind key) ∧
      s.index.getEntryState key ≠ .inconsistent := by
  obtain ⟨hinv, hexact⟩ : Inv kind s ∧ Exact kind s := by
    refine Along.invariant (P := fun s => Inv kind s ∧ Exact kind s) (Exact.step hkind)
      ⟨Inv.initial kind, ?_, ?_⟩ hcond hrun
    · intro k h
      cases h
    · intro t w h
      cases h.1
  have hquiet : ∀ x ∈ s.index.range.insertOrDeleteKeySet, x.2.key ≠ key := by
    rw [happlied]
    exact fun x hx => by cases hx
  have hiff : s.index.range.container key = some false ↔ s.Live kind key := by
    constructor
    · intro hshown
      rw [← RangeIndex.settled_of_quiet hquiet] at hshown
      rcases hexact.live key hshown with hlive | ⟨t, w, hw, -, hinsert⟩
      · exact hlive
      · obtain ⟨-, x, hx, -⟩ := hinv.event t w false hw hinsert
        rw [happlied] at hx
        cases hx
    · intro hlive
      exact hinv.shown_of_live hlive hquiet
  refine ⟨hiff, ?_⟩
  rw [State.Live] at hiff
  rw [Index.getEntryState, RangeIndex.contains]
  cases hpoint : s.index.point key with
  | none =>
    rw [hpoint] at hiff
    have hhidden : s.index.range.container key ≠ some false := fun h => by cases hiff.mp h
    simp [hhidden]
  | some c =>
    rw [hpoint, Option.any_some] at hiff
    have hlive := initialized_iff_live (hinv.plain key c hpoint)
    cases hdead : kind.live c with
    | true => simp [hiff.mpr hdead, hlive, hdead]
    | false => simp [hlive, hdead]

end Exact

/-- A row is deleted and inserted again, another one deleted. -/
def deletedAndInserted : List Action :=
  [.start 0, .op 0 (.insert [1] [7]), .op 0 (.write [2] [7]), .commit 0] ++ twoEpochs ++
    [.start 1, .op 1 (.delete [1]), .commit 1, .start 2, .op 2 (.insert [1] [8]),
      .op 2 (.delete [2]), .commit 2] ++ twoEpochs

theorem shown_iff_live_deletedAndInserted :
    ∃ s, run (step .primary) initial deletedAndInserted = some s ∧
      s.index.range.container [1] = some false ∧ s.index.range.container [2] ≠ some false := by
  have hend : (run (step .primary) initial deletedAndInserted).map (fun s =>
      (s.index.range.insertOrDeleteKeySet, s.index.point [1], s.index.point [2])) =
      some ([], some ⟨[8], []⟩, some ⟨[], []⟩) := by
    decide +kernel
  obtain ⟨s, hrun, hs⟩ := Option.map_eq_some_iff.mp hend
  rw [Prod.mk.injEq, Prod.mk.injEq] at hs
  obtain ⟨happlied, hone, htwo⟩ := hs
  have hiff := fun key => (shown_iff_live (by decide) hrun (by decide +kernel) happlied key).1
  refine ⟨s, hrun, (hiff [1]).mpr ?_, fun hshown => ?_⟩
  · rw [State.Live, hone]
    rfl
  · have hlive := (hiff [2]).mp hshown
    rw [State.Live, htwo] at hlive
    cases hlive

/-- A transaction deletes a row, and one that runs in the epoch before inserts it again. -/
def earlierEpochLater : List Action :=
  [.start 0, .op 0 (.insert [1] [7]), .commit 0] ++ twoEpochs ++
    [.start 1, .advanceEpoch, .start 2, .op 2 (.delete [1]), .commit 2,
      .op 1 (.insert [1] [8]), .commit 1] ++ twoEpochs

/-- **Epochs against commits.** Everybody commits, and the deletion is applied last: the row
is there, and the range index says that it is deleted. -/
theorem earlierEpochLater_hides :
    (run (step .primary) initial earlierEpochLater).map (fun s =>
        (s.begun.map fun t => (s.tx t).status, s.index.range.insertOrDeleteKeySet.length,
          s.index.point [1], s.index.range.container [1], s.index.getEntryState [1])) =
      some ([.committed, .committed, .committed], 0, some ⟨[8], []⟩, some true, .inconsistent) := by
  decide +kernel

end LineairDB.Precision
