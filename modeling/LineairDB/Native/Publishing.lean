import LineairDB.Native.Serializable
import LineairDB.Silo.Current

/-!
# What a transaction publishes

Once a transaction has decided to commit it holds the locks of all it has still
to publish, so what their slots hold cannot change before it does. A relation
between an entry of the write set, what its slot holds and what will be
installed over it, once it holds at the decision, is carried through the install
loop and the publications to the versions of the store.

* `Publishes.step` — one step of the transaction.
* `Publishes.wrote`, `Publishes.version`, `Publishes.aims` — what the versions it
  has published say, that a committed transaction has published all of its
  entries, and that it has published nothing else.
-/

namespace LineairDB.Native

open Silo ByteFile
open Stateless (Schema)

variable {w : WriteSnapshot} {ws : List WriteSnapshot}

variable {schema : Schema} {s s' : Store} {t : ℕ} {tx : Transaction}

/-! ## Publications -/

variable {R : WriteSnapshot → Content → Content → Prop}

/-- The relation does not look at the copy of an entry. -/
def Respects (R : WriteSnapshot → Content → Content → Prop) : Prop :=
  ∀ (w : WriteSnapshot) (copy before after : Content), R w before after →
    R { w with copy := copy } before after

/-- The slots of the entries. -/
def slots (ws : List WriteSnapshot) : Set Slot := {k | ∃ w ∈ ws, w.slot = k}

/-- What the entries publish to a slot. -/
def Publication (R : WriteSnapshot → Content → Content → Prop) (ws : List WriteSnapshot)
    (k : Slot) (before after : Content) : Prop :=
  ∀ w ∈ ws, w.slot = k → R w before after

/-- What a transaction publishes, or will. -/
def Publishes (R : WriteSnapshot → Content → Content → Prop) (s : Store) (t : ℕ)
    (tx : Transaction) : Prop :=
  match tx.stage with
  | .install installed todo => (∀ k, s.Unwritten (.tx t) k) ∧
      (∀ w ∈ installed, R w (s.current w.slot) (s.item w.item).content) ∧
      ∀ w ∈ todo, R w (s.current w.slot) (w.installed (s.item w.item).content)
  | .publish todo | .register _ _ todo => Publishing (Publication R tx.writeSet) s (.tx t)
      (slots tx.writeSet) (todo.map WriteSnapshot.item)
  | .committed => Publishing (Publication R tx.writeSet) s (.tx t) (slots tx.writeSet) []
  | _ => ∀ k, s.Unwritten (.tx t) k

theorem publishes_undecided (hundecided : tx.stage.decided = false) :
    Publishes R s t tx ↔ ∀ k, s.Unwritten (.tx t) k := by
  unfold Publishes
  generalize tx.stage = stage at hundecided ⊢
  cases stage with
  | install | publish | register | committed => cases hundecided
  | _ => exact Iff.rfl

theorem Entries.eq_of_slot {w' : WriteSnapshot} (h : Entries s ws) (hw : w ∈ ws) (hw' : w' ∈ ws)
    (hslot : w.slot = w'.slot) : w = w' :=
  List.inj_on_of_nodup_map h.nodup hw hw' hslot

theorem Committing.items_held (h : Committing s t ws) : ∀ i ∈ ws.map WriteSnapshot.item,
    (s.item i).holder = some (.tx t) ∧ s.Attached i := by
  intro i hi
  obtain ⟨w, hw, rfl⟩ := List.mem_map.mp hi
  exact ⟨(h.held w hw).1.holder, (h.held w hw).2⟩

theorem Publishes.rely (hstore : StoreInv s) (hstore' : StoreInv s')
    (hinv : TransactionInv s t tx) (h : Publishes R s t tx) (hrely : Rely (.tx t) s s') :
    Publishes R s' t tx := by
  -- what the transaction holds is left as it is
  have held : ∀ {ws : List WriteSnapshot}, Committing s t ws → ∀ w ∈ ws,
      s'.item w.item = s.item w.item ∧ s'.current w.slot = s.current w.slot := by
    intro ws hws w hw
    obtain ⟨hholds, hatt⟩ := hws.held w hw
    refine ⟨(hrely.held _ hholds.holder).1, ?_⟩
    rw [← (hws.entries.item w hw).2]
    exact hstore.current_of_held hstore' hrely hholds.holder hatt
  have hstage := hinv.stage
  unfold Publishes at h ⊢
  generalize tx.stage = stage at h hstage ⊢
  cases stage with
  | install =>
    obtain ⟨hunwritten, hready, htodo⟩ := h
    refine ⟨fun k => (hunwritten k).rely hrely, fun w hw => ?_, fun w hw => ?_⟩
    · obtain ⟨hitem, hcurrent⟩ := held hstage.1 w (List.mem_append_left _ hw)
      rw [hitem, hcurrent]
      exact hready w hw
    · obtain ⟨hitem, hcurrent⟩ := held hstage.1 w (List.mem_append_right _ hw)
      rw [hitem, hcurrent]
      exact htodo w hw
  | publish | register => exact h.rely hstore hstore' hstage.1.items_held hrely
  | committed => exact h.rely hstore hstore' nofun hrely
  | _ => exact fun k => (h k).rely hrely

/-- With all entries installed, their items are published one after the other. -/
theorem publishing_start (hentries : Entries s ws) (hunwritten : ∀ k, s.Unwritten (.tx t) k)
    (hready : ∀ w ∈ ws, R w (s.current w.slot) (s.item w.item).content) :
    Publishing (Publication R ws) s (.tx t) (slots ws) (ws.map WriteSnapshot.item) where
  pending i hi := by
    obtain ⟨w, hw, rfl⟩ := List.mem_map.mp hi
    have hhome := (hentries.item w hw).2
    refine ⟨⟨w, hw, hhome.symm⟩, hunwritten _, fun w' hw' hslot => ?_⟩
    cases hentries.eq_of_slot hw' hw (hslot.trans hhome)
    rw [hhome]
    exact hready w hw
  published k hk := by
    obtain ⟨w, hw, rfl⟩ := hk
    exact .inl ⟨w.item, List.mem_map_of_mem hw, (hentries.item w hw).2⟩
  aims k _ := hunwritten k

section

variable (hR : Respects R) (hinv : TransactionInv s t tx) (h : Publishes R s t tx)
  (hdecide : tx.stage = .inserts [] → ∀ w ∈ tx.writeSet, R w (s.current w.slot)
    (w.installed (s.item w.item).content))

include hR hinv h hdecide

/-- A step of `Precommit` or `PostProcessing`. -/
theorem Publishes.commit (valid : Bool) :
    Publishes R (s.access (.tx t) (tx.commitStep s t valid tx.stage).1) t
      (tx.commitStep s t valid tx.stage).2.1 := by
  -- an access that publishes nothing
  have quiet : ∀ {a : Access}, a.Quiet → (∀ k, s.Unwritten (.tx t) k) →
      ∀ k, (s.access (.tx t) a).Unwritten (.tx t) k :=
    fun ha hold k => (hold k).of_versions (versions_quiet ha k)
  have hstage := hinv.stage
  unfold Publishes at h
  generalize heq : tx.stage = stage at h hstage hdecide ⊢
  fun_cases Transaction.commitStep s t tx valid stage with
  | case2 | case22 =>
    show Publishes R s t tx
    unfold Publishes
    rw [heq]
    exact h
  | case11 => exact ⟨h, List.forall_mem_nil _, hdecide rfl⟩
  | case14 installed =>
    have hentries := hstage.1.entries
    rw [List.append_nil] at hentries
    exact publishing_start hentries h.1 h.2.1
  | case15 installed w todo =>
    obtain ⟨hunwritten, hready, htodo⟩ := h
    -- the other entries keep their items
    have other : ∀ w', w' ∈ installed ∨ w' ∈ todo →
        (s.access (.tx t) (.install w.item (w.installed (s.item w.item).content))).item w'.item
          = s.item w'.item :=
      fun w' hw' => Function.update_of_ne (hstage.1.entries.item_ne hw') ..
    refine ⟨hunwritten, forall_mem_concat.mpr ⟨fun w' hw' => ?_, ?_⟩, fun w' hw' => ?_⟩
    · rw [other w' (.inl hw')]
      exact hready w' hw'
    · have hself : (s.access (.tx t) (.install w.item
          (w.installed (s.item w.item).content))).item w.item
          = { s.item w.item with content := w.installed (s.item w.item).content, dirty := true } :=
        Function.update_self ..
      rw [hself]
      exact hR w _ _ _ (htodo w (.head _))
    · rw [other w' (.inr hw')]
      exact htodo w' (.tail _ hw')
  | case16 | case18 => exact h
  | case17 =>
    exact h.publish _ hstage.1.entries.nodup_items fun i hi => (hstage.1.items_held i hi).2
  | _ => exact quiet trivial h

/-- **What is published, step by step**: a relation that holds at the decision is carried to
the versions of the store. -/
theorem Publishes.step {tx' : Transaction} {choice : Choice} {a : Access}
    {candidates : List Candidate} (hstep : step schema s t tx choice = some (a, tx', candidates)) :
    Publishes R (s.access (.tx t) a) t tx' := by
  rcases step_stage hstep with ⟨hearly, ha, hstage'⟩ | ⟨hstage, rfl, hx⟩ | ⟨valid, hx⟩
  · have hunwritten := (publishes_undecided (Stage.not_decided_of_collecting (.inl hearly))).mp h
    refine (publishes_undecided (Stage.not_decided_of_collecting hstage')).mpr fun k => ?_
    exact (hunwritten k).of_versions (versions_quiet ha.quiet k)
  · cases hx
    exact (publishes_undecided (by rw [hstage]; rfl)).mp h
  · have hcommit := h.commit hR hinv hdecide valid
    rw [← hx] at hcommit
    exact hcommit

end

/-- A transaction that has just begun. -/
theorem publishes_start : Publishes R .initial t ⟨[], [], [], [], .running⟩ := by
  intro k n v hv
  cases hv

/-! ## What the versions say -/

theorem Publishes.unwritten (h : Publishes R s t tx) (hundecided : tx.stage.decided = false)
    (k : Slot) : s.Unwritten (.tx t) k :=
  (publishes_undecided hundecided).mp h k

/-- A transaction has published nothing yet, or is publishing its write set. -/
theorem Publishes.cases (h : Publishes R s t tx) :
    (∀ k, s.Unwritten (.tx t) k) ∨ tx.writes = tx.writeSet ∧
      ∃ todo, Publishing (Publication R tx.writeSet) s (.tx t) (slots tx.writeSet) todo := by
  unfold Publishes at h
  unfold Transaction.writes
  generalize tx.stage = stage at h ⊢
  cases stage with
  | install => exact .inl h.1
  | publish | register | committed => exact .inr ⟨rfl, _, h⟩
  | _ => exact .inl h

/-- What a transaction has published for an entry stands in the relation. -/
theorem Publishes.wrote (h : Publishes R s t tx) (hw : w ∈ tx.writes) :
    s.Wrote (.tx t) w.slot (R w) := by
  rcases h.cases with hunwritten | ⟨hwrites, todo, hpublishing⟩
  · exact (hunwritten _).wrote
  · rw [hwrites] at hw
    intro n v hv howner
    exact hpublishing.wrote ⟨w, hw, rfl⟩ n v hv howner w hw rfl

/-- A transaction publishes nothing but its entries. -/
theorem Publishes.aims {k : Slot} (h : Publishes R s t tx) (hk : ∀ w ∈ tx.writes, w.slot ≠ k) :
    s.Unwritten (.tx t) k := by
  rcases h.cases with hunwritten | ⟨hwrites, todo, hpublishing⟩
  · exact hunwritten k
  · refine hpublishing.aims k ?_
    rintro ⟨w, hw, hslot⟩
    rw [← hwrites] at hw
    exact hk w hw hslot

/-- A committed transaction has published all of its entries. -/
theorem Publishes.version (h : Publishes R s t tx) (hcommitted : tx.stage = .committed)
    (hw : w ∈ tx.writes) : s.Published (.tx t) w.slot (R w) := by
  unfold Publishes at h
  unfold Transaction.writes at hw
  rw [hcommitted] at h hw
  exact (h.version ⟨w, hw, rfl⟩).imp fun _ _ hpublication => hpublication w hw rfl

end LineairDB.Native
