import LineairDB.Library.Transition

/-!
# The leaves a transaction has scanned

A scan records each leaf it visits with the leaf's version, and the commit compares the
versions again. The transaction's own inserts bump versions too: each reports the leaf it
bumped, and the entries recorded for that leaf are moved along, or the transaction aborts.

* `advance_of_true`, `advance_of_false` — the loop over the entries aborts at the first
  entry that is not at the reported version, and otherwise moves all entries of the leaf.
* `told_run` — an entry is behind its leaf exactly if somebody else has bumped the leaf since.
* `reconcile_tells_foreign_bumps` — own inserts neither cause nor hide an abort.
-/

namespace LineairDB.NodeVersions

open Transition

variable {Index Node : Type}

/-- A leaf that a scan of the index `owner` visited, and its version then. -/
structure NodeVersionEntry (Index Node : Type) where
  owner : Index
  nodePtr : Node
  version : ℕ

/-- What an insert did to the versions of its index. -/
structure NodeVersionUpdate (Index Node : Type) where
  owner : Option Index := none
  nodePtr : Option Node := none
  oldVersion : ℕ := 0
  newVersion : ℕ := 0
  valid : Bool := false

/-- The leaves that were scanned. -/
abbrev NodeVersionSet (Index Node : Type) := List (NodeVersionEntry Index Node)

/-- The leaf of an entry. -/
def NodeVersionEntry.leaf (e : NodeVersionEntry Index Node) : Index × Node := (e.owner, e.nodePtr)

/-- The indexes' leaves, and what the transaction knows of them. Between an insert and its
reconciliation the report is `pending`. -/
structure State (Index Node : Type) where
  version : Index × Node → ℕ
  nodeVersionSet : NodeVersionSet Index Node := []
  pending : Option (NodeVersionUpdate Index Node) := none
  aborted : Bool := false

/-- What happens to a leaf. -/
inductive Action (Index Node : Type)
  /-- A scan of the transaction comes by the leaf. -/
  | visitLeaf (leaf : Index × Node)
  /-- An insert of the transaction that takes a new slot of the leaf. -/
  | insert (leaf : Index × Node) (more : ℕ)
  /-- An insert of the transaction that finds its key. -/
  | find
  /-- `ReconcileOwnInsertWithNodeVersionSet` of the report. -/
  | reconcile
  /-- Somebody else changes the leaf. -/
  | foreign (leaf : Index × Node) (more : ℕ)

variable {set : NodeVersionSet Index Node} {l : Index × Node} {s s' : State Index Node}
  {actions : List (Action Index Node)} {a : Action Index Node} {more : ℕ}
  {version : Index × Node → ℕ}

/-- **Somebody else bumped** a leaf after a scan had recorded it. -/
def Struck (actions : List (Action Index Node)) : Prop :=
  ∃ l more, [.visitLeaf l, .foreign l more].Sublist actions

theorem struck_concat : Struck (actions ++ [a]) ↔
    Struck actions ∨ ∃ l more, a = .foreign l more ∧ .visitLeaf l ∈ actions := by
  constructor
  · rintro ⟨l, more, h⟩
    obtain ⟨before, after, hsplit, hbefore, hafter⟩ := List.sublist_append_iff.mp h
    rcases List.sublist_singleton.mp hafter with rfl | rfl
    · exact .inl ⟨l, more, by simpa [hsplit] using hbefore⟩
    · have hsplit : [.visitLeaf l] ++ [.foreign l more] = before ++ [a] := hsplit
      obtain ⟨rfl, ha⟩ := List.append_inj' hsplit rfl
      exact .inr ⟨l, more, (List.cons.inj ha).1.symm, List.singleton_sublist.mp hbefore⟩
  · rintro (⟨l, more, h⟩ | ⟨l, more, rfl, h⟩)
    · exact ⟨l, more, h.trans (List.sublist_append_left ..)⟩
    · exact ⟨l, more, (List.singleton_sublist.mpr h).append (.refl [_])⟩

/-- What holds once no report is pending: an entry is at its leaf's version, or behind it,
and behind it exactly if the leaf was struck. -/
structure Inv (actions : List (Action Index Node)) (set : NodeVersionSet Index Node)
    (version : Index × Node → ℕ) : Prop where
  recorded : ∀ l, .visitLeaf l ∈ actions ↔ ∃ e ∈ set, e.leaf = l
  behind : ∀ e ∈ set, e.version ≤ version e.leaf
  struck : Struck actions ↔ ∃ e ∈ set, e.version ≠ version e.leaf

/-- The invariant, or the abort and its reason. -/
def Told (actions : List (Action Index Node)) (s : State Index Node) : Prop :=
  if s.aborted = true then Struck actions else Inv actions s.nodeVersionSet s.version

theorem Told.start (version : Index × Node → ℕ) : Told [] { version := version } := by
  constructor <;> simp [Struck]

theorem Inv.visitLeaf (h : Inv actions set version) :
    Inv (actions ++ [.visitLeaf l]) (set ++ [⟨l.1, l.2, version l⟩]) version := by
  obtain ⟨hrecorded, hbehind, hstruck⟩ := h
  constructor
  · simp [hrecorded, NodeVersionEntry.leaf, or_and_right, exists_or, eq_comm]
  · simpa [NodeVersionEntry.leaf, or_imp, forall_and] using hbehind
  · simp [struck_concat, hstruck, NodeVersionEntry.leaf, or_and_right, exists_or]

/-- An action that is no scan and no foreign bump changes nothing. -/
theorem Inv.skip (h : Inv actions set version) (hvisit : ∀ l, a ≠ .visitLeaf l)
    (hforeign : ∀ l more, a ≠ .foreign l more) : Inv (actions ++ [a]) set version := by
  obtain ⟨hrecorded, hbehind, hstruck⟩ := h
  constructor
  · simp [hrecorded, (hvisit _).symm]
  · exact hbehind
  · simp [struck_concat, hstruck, hforeign]

theorem Told.skip (h : Told actions s) (hvisit : ∀ l, a ≠ .visitLeaf l)
    (hforeign : ∀ l more, a ≠ .foreign l more) : Told (actions ++ [a]) s := by
  unfold Told at *
  split at h
  next haborted => simpa [haborted] using struck_concat.mpr (.inl h)
  next haborted => simpa [haborted] using h.skip hvisit hforeign

/-! ## The code -/

variable [DecidableEq Index] [DecidableEq Node]

/-- The loop over the entries: what they are afterwards, and whether it aborts. -/
def advance (u : NodeVersionUpdate Index Node) :
    NodeVersionSet Index Node → NodeVersionSet Index Node × Bool
  | [] => ([], false)
  | e :: es =>
    if some e.owner ≠ u.owner ∨ some e.nodePtr ≠ u.nodePtr then
      (e :: (advance u es).1, (advance u es).2)
    else if e.version = u.oldVersion then
      ({ e with version := u.newVersion } :: (advance u es).1, (advance u es).2)
    else (e :: es, true)

namespace State

/-- The versions of the leaf follow the transaction's own insert. -/
def reconcileOwnInsertWithNodeVersionSet (s : State Index Node)
    (u : NodeVersionUpdate Index Node) : State Index Node :=
  if u.valid = false ∨ u.nodePtr = none then s
  else { s with
    nodeVersionSet := (advance u s.nodeVersionSet).1
    aborted := s.aborted || (advance u s.nodeVersionSet).2 }

/-- No scanned leaf of this index has changed. -/
def validatePhantoms (s : State Index Node) (self : Index)
    (entries : NodeVersionSet Index Node) : Bool :=
  entries.all fun e => e.owner ≠ self || s.version e.leaf = e.version

/-- What `Precommit` asks: every index with an entry checks its entries. -/
def phantomsStillValid (s : State Index Node) : Bool :=
  (s.nodeVersionSet.map (·.owner)).dedup.all (s.validatePhantoms · s.nodeVersionSet)

/-- The leaf has changed. -/
def bump (s : State Index Node) (l : Index × Node) (more : ℕ) : State Index Node :=
  { s with version := Function.update s.version l (s.version l + more + 1) }

/-- The report of an insert that bumps the leaf. -/
def report (s : State Index Node) (l : Index × Node) (more : ℕ) : NodeVersionUpdate Index Node where
  owner := l.1
  nodePtr := l.2
  oldVersion := s.version l
  newVersion := s.version l + more + 1
  valid := true

/-- The transaction is not inside an insert and goes on. -/
def Ready (s : State Index Node) : Prop := s.aborted = false ∧ s.pending.isNone = true

instance (s : State Index Node) : Decidable s.Ready :=
  inferInstanceAs (Decidable (_ ∧ _))

/-- One step. -/
def step (s : State Index Node) : Action Index Node → Option (State Index Node)
  | .visitLeaf l =>
    if s.Ready then
      some { s with nodeVersionSet := s.nodeVersionSet ++ [⟨l.1, l.2, s.version l⟩] }
    else none
  | .insert l more =>
    if s.Ready then some { s.bump l more with pending := some (s.report l more) } else none
  | .find => if s.Ready then some { s with pending := some { } } else none
  | .reconcile =>
    s.pending.map fun u => { s.reconcileOwnInsertWithNodeVersionSet u with pending := none }
  | .foreign l more => some (s.bump l more)

/-- The state once the pending report is reconciled. -/
def settled (s : State Index Node) : State Index Node :=
  match s.pending with
  | none => s
  | some u => { s.reconcileOwnInsertWithNodeVersionSet u with pending := none }

end State

open State

omit [DecidableEq Index] [DecidableEq Node] in
@[simp] theorem newVersion_report : (s.report l more).newVersion = s.version l + more + 1 := rfl

variable {e : NodeVersionEntry Index Node}

/-- The entries of the reported leaf are those the loop does not pass over. -/
theorem reported_iff :
    ¬ (some e.owner ≠ (s.report l more).owner ∨ some e.nodePtr ≠ (s.report l more).nodePtr) ↔
      e.leaf = l := by
  simp [report, NodeVersionEntry.leaf, Prod.ext_iff]

/-- The entry at the version an insert left, if it is of the leaf. -/
def NodeVersionEntry.moved (l : Index × Node) (version : ℕ) (e : NodeVersionEntry Index Node) :
    NodeVersionEntry Index Node :=
  if e.leaf = l then { e with version := version } else e

@[simp, grind =] theorem leaf_moved {v : ℕ} : (e.moved l v).leaf = e.leaf := by
  unfold NodeVersionEntry.moved
  split <;> rfl

@[grind =] theorem version_moved {v : ℕ} :
    (e.moved l v).version = if e.leaf = l then v else e.version := by
  unfold NodeVersionEntry.moved
  split <;> rfl

theorem advance_of_true (h : (advance (s.report l more) set).2 = true) :
    ∃ e ∈ set, e.leaf = l ∧ e.version ≠ s.version l := by
  fun_induction advance (s.report l more) set with
  | case4 e es hsame hold => exact ⟨e, by simp, reported_iff.mp hsame, hold⟩
  | _ => grind

theorem advance_of_false (h : (advance (s.report l more) set).2 = false) :
    (∀ e ∈ set, e.leaf = l → e.version = s.version l) ∧
    (advance (s.report l more) set).1 =
      set.map (·.moved l (s.version l + more + 1)) := by
  fun_induction advance (s.report l more) set with
  | case1 => simp
  | case2 e es hother ih =>
    have hleaf : e.leaf ≠ l := fun h => absurd hother (reported_iff.mpr h)
    simpa [hleaf, (ih h).2, NodeVersionEntry.moved] using (ih h).1
  | case3 e es hsame hold ih =>
    have hleaf := reported_iff.mp hsame
    refine ⟨List.forall_mem_cons.mpr ⟨fun _ => hold, (ih h).1⟩, ?_⟩
    simp [hleaf, (ih h).2, NodeVersionEntry.moved]
  | case4 => simp at h

theorem Inv.foreign (h : Inv actions set version) :
    Inv (actions ++ [.foreign l more]) set
      (Function.update version l (version l + more + 1)) := by
  obtain ⟨hrecorded, hbehind, hstruck⟩ := h
  constructor
  · simp [hrecorded]
  · grind
  · simp only [struck_concat, hstruck, hrecorded]
    grind

/-- An insert whose report is reconciled moves the entries along with the leaf. -/
theorem Inv.insert (h : Inv actions s.nodeVersionSet s.version) (hgo : s.aborted = false) :
    Told (actions ++ [.insert l more])
      ((s.bump l more).reconcileOwnInsertWithNodeVersionSet (s.report l more)) := by
  obtain ⟨hrecorded, hbehind, hstruck⟩ := h.skip (a := .insert l more) nofun nofun
  rw [reconcileOwnInsertWithNodeVersionSet, if_neg (by simp [report])]
  simp only [Told, bump, hgo, Bool.false_or]
  cases hadvance : (advance (s.report l more) s.nodeVersionSet).2 with
  | true =>
    obtain ⟨e, he, rfl, hne⟩ := advance_of_true hadvance
    exact hstruck.mpr ⟨e, he, hne⟩
  | false =>
    obtain ⟨hall, hset⟩ := advance_of_false hadvance
    simp only [hset, Bool.false_eq_true, if_false]
    constructor
    · simp [hrecorded]
    · grind
    · simp only [hstruck, List.mem_map, exists_exists_and_eq_and]
      grind

omit [DecidableEq Node] in
theorem phantomsStillValid_iff :
    s.phantomsStillValid = true ↔ ∀ e ∈ s.nodeVersionSet, s.version e.leaf = e.version := by
  simp only [phantomsStillValid, validatePhantoms, List.all_eq_true, List.mem_dedup,
    List.forall_mem_map]
  constructor
  · intro h e he
    simpa using h e he e he
  · intro h _ _ e he
    simp [h e he]

theorem settled_bump : (s.bump l more).settled = s.settled.bump l more := by
  obtain ⟨version, set, _ | u, aborted⟩ := s
  · rfl
  · simp only [settled, bump, reconcileOwnInsertWithNodeVersionSet]
    split <;> rfl

/-- **One step** keeps what is told about the state behind the pending report. -/
theorem Told.step (h : Told actions s.settled) (hstep : s.step a = some s') :
    Told (actions ++ [a]) s'.settled := by
  have hready : s.Ready → s.settled = s ∧ Inv actions s.nodeVersionSet s.version := by
    rintro ⟨hgo, hnone⟩
    have hsettled : s.settled = s := by simp [settled, Option.isNone_iff_eq_none.mp hnone]
    rw [hsettled] at h
    exact ⟨hsettled, by simpa [Told, hgo] using h⟩
  revert hstep
  fun_cases State.step s a with
  | case1 l hr =>
    rintro ⟨⟩
    simpa [Told, settled, hr.1, Option.isNone_iff_eq_none.mp hr.2] using (hready hr).2.visitLeaf
  | case3 l more hr =>
    rintro ⟨⟩
    exact (hready hr).2.insert hr.1
  | case5 hr =>
    rintro ⟨⟩
    rw [(hready hr).1] at h
    exact h.skip nofun nofun
  | case7 =>
    intro hstep
    obtain ⟨u, hu, rfl⟩ := Option.map_eq_some_iff.mp hstep
    simp only [settled, hu] at h
    exact h.skip nofun nofun
  | case8 l more =>
    rintro ⟨⟩
    rw [settled_bump]
    simp only [Told] at h ⊢
    split at h
    next haborted => simpa [bump, haborted] using struck_concat.mpr (.inl h)
    next haborted => simpa [bump, haborted] using h.foreign
  | _ => exact nofun

/-- **Every run** keeps it. -/
theorem told_run (hrun : run step { version := version } actions = some s) :
    Told actions s.settled := by
  induction actions using List.reverseRecOn generalizing s with
  | nil =>
    cases hrun
    exact .start version
  | append_singleton actions a ih =>
    obtain ⟨m, hm, hlast⟩ := run_append.mp hrun
    obtain ⟨s', hstep, hs'⟩ := run_cons.mp hlast
    cases hs'
    exact (ih hm).step hstep

/-- **Own inserts neither cause nor hide a phantom abort.** A reconciliation that aborts the
transaction does so for a leaf that somebody else bumped after a scan recorded it, and
without such an abort the commit finds the scanned leaves valid exactly if there was no
such bump. -/
theorem reconcile_tells_foreign_bumps (version : Index × Node → ℕ)
    (hrun : run step { version := version } actions = some s) :
    (s.aborted = true → Struck actions) ∧
    (s.aborted = false → s.pending = none → (s.phantomsStillValid = true ↔ ¬ Struck actions)) := by
  have htold := told_run hrun
  constructor
  · intro haborted
    have hsettled : s.settled.aborted = true := by
      obtain ⟨version, set, _ | u, aborted⟩ := s
      · exact haborted
      · simp only [settled, reconcileOwnInsertWithNodeVersionSet]
        split <;> simp_all
    simpa [Told, hsettled] using htold
  · intro hgo hnone
    simp only [Told, settled, hnone, hgo, Bool.false_eq_true, if_false] at htold
    rw [phantomsStillValid_iff, htold.struck]
    simp [eq_comm]

/-- Two scans of a leaf with an own insert between them, and a bump of another leaf. -/
def twoScans : List (Action ℕ ℕ) :=
  [.visitLeaf (0, 0), .insert (0, 0) 1, .foreign (0, 1) 0, .reconcile, .visitLeaf (0, 0)]

theorem reconcile_tells_foreign_bumps_twoScans :
    ∃ s, run step { version := fun _ => 7 } twoScans = some s ∧ s.aborted = false ∧
      ¬ Struck twoScans := by
  have hrun : run step { version := fun _ => 7 } twoScans = some _ := rfl
  exact ⟨_, hrun, rfl, ((reconcile_tells_foreign_bumps _ hrun).2 rfl rfl).mp (by decide)⟩

end LineairDB.NodeVersions
