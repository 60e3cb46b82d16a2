import LineairDB.Native.Steps

/-!
# Precommit and PostProcessing

The locks are taken in one order and on items that are attached; with all of
them held the transaction re-joins the epoch, finds its reads unmoved, installs
and publishes.

* `settled_of_word` — a word that has not moved settles a registered read.
* `step_inv` — every step of a transaction keeps what the transaction knows.
* `contract` — transactions are parties of the store.
-/

namespace LineairDB.Native

open Silo ByteFile
open Function (update_self update_of_ne)
open Stateless (Schema freeSlots mem_fixed_of_free)

variable {stage : Stage} {valid : Bool} {s : Store} {t : ℕ} {tx : Transaction}
  {ws locked todo : List WriteSnapshot} {vs : List ValidationItem} {w : WriteSnapshot} {a : Access}

theorem Entries.sublist {ws' : List WriteSnapshot} (h : Entries s ws) (hsub : ws'.Sublist ws) :
    Entries s ws' :=
  ⟨h.nodup.sublist (hsub.map _), fun w hw => h.item w (hsub.subset hw)⟩

/-- An entry in place of another one of the same slot and item. -/
theorem Entries.replace {w' : WriteSnapshot} (h : Entries s (locked ++ w :: todo))
    (hslot : w'.slot = w.slot) (hitem : w'.item = w.item) : Entries s (locked ++ w' :: todo) := by
  constructor
  · have hnodup := h.nodup
    rw [List.map_append, List.map_cons] at hnodup ⊢
    rw [hslot]
    exact hnodup
  · have hall := h.item
    rw [List.forall_mem_append, List.forall_mem_cons] at hall ⊢
    rw [hslot, hitem]
    exact hall

/-- Different entries have different items. -/
theorem Entries.nodup_items (h : Entries s ws) : (ws.map WriteSnapshot.item).Nodup := by
  refine List.Nodup.of_map (fun i => (s.item i).home) ?_
  have hslots : (ws.map WriteSnapshot.item).map (fun i => (s.item i).home)
      = ws.map WriteSnapshot.slot := by
    rw [List.map_map]
    exact List.map_congr_left fun w hw => (h.item w hw).2
  rw [hslots]
  exact h.nodup

theorem Entries.item_ne {x : WriteSnapshot} (h : Entries s (locked ++ w :: todo))
    (hx : x ∈ locked ∨ x ∈ todo) : x.item ≠ w.item := by
  have hnodup := h.nodup_items
  rw [List.map_append, List.map_cons] at hnodup
  obtain ⟨-, hright, hdisjoint⟩ := List.nodup_append.mp hnodup
  rcases hx with hx | hx
  · exact hdisjoint _ (List.mem_map_of_mem hx) _ (.head _)
  · exact ne_of_mem_of_not_mem (List.mem_map_of_mem hx) (List.nodup_cons.mp hright).1

/-- An access to one item leaves the locks of the others. -/
theorem Holds.elsewhere {x : WriteSnapshot} (h : Holds s t x ∧ s.Attached x.item)
    (hstore : StoreInv s) (hp : a.Permitted s (.tx t)) (hkeep : ∀ k, a ≠ .unlink k)
    (hsame : (s.access (.tx t) a).item x.item = s.item x.item) :
    Holds (s.access (.tx t) a) t x ∧ (s.access (.tx t) a).Attached x.item := by
  refine ⟨⟨?_, ?_⟩, hstore.attached_access hp hkeep h.2⟩
  · rw [hsame]
    exact h.1.holder
  · rw [hsame]
    exact h.1.word

/-! ## The lock loop -/

section

variable (h : Notes s t tx) (hstore : StoreInv s)

include h hstore

theorem lock_inv (hlocking : Locking s t tx.validationSet locked (w :: todo))
    (hfree : (s.item w.item).word.isLocked = false) :
    StepOk s t (.lock w.item,
      { tx with stage := .attached locked { w with tid := (s.item w.item).word.locked } todo },
      []) := by
  have hw : w ∈ locked ++ w :: todo := List.mem_append_right _ (.head _)
  have hp : (Access.lock w.item).Permitted s (.tx t) :=
    ⟨(hlocking.entries.item w hw).1, hfree, hlocking.stamp⟩
  have hgrows := s.grows_access (.tx t) (.tx t) (.lock w.item)
  refine .of_stage h hstore hp rfl rfl rfl ⟨⟨hlocking.stamp, ?_, ?_, hlocking.patched⟩, ?_⟩
  · refine .grows ?_ hgrows
    exact hlocking.entries.replace rfl rfl
  · intro x hx
    exact Holds.elsewhere (hlocking.held x hx) hstore hp nofun
      (update_of_ne (hlocking.entries.item_ne (Or.inl hx)) ..)
  · have hitem : (s.access (.tx t) (.lock w.item)).item w.item
        = { s.item w.item with
            word := (s.item w.item).word.locked
            holder := some (.tx t) } := update_self ..
    constructor
    · rw [hitem]
    · rw [hitem]

omit h hstore in
/-- Reads of what the transaction has just locked are validated with the lock bit. -/
theorem notes_patch (h : Notes s t tx) (item : ItemId) :
    Notes s t { tx with validationSet := tx.patch item, stage := stage } where
  read := h.read
  validation e he := by
    obtain ⟨e', he', rfl⟩ := List.mem_map.mp he
    split_ifs
    · have hinv := h.validation e' he'
      have hbase := TransactionId.base_locked_eq e'.tid
      refine ⟨hinv.observed, hinv.home, ?_, ?_⟩
      · rw [hbase]
        exact hinv.stable
      · rw [hbase]
        exact hinv.place
    · exact h.validation e' he'
  missing := h.missing

omit h hstore in
theorem patched_patch (h : Patched tx.validationSet locked) :
    Patched (tx.patch w.item) (locked ++ [w]) := by
  intro e he hlocked
  obtain ⟨e', he', rfl⟩ := List.mem_map.mp he
  by_cases hitem : e'.item = w.item
  · refine ⟨w, List.mem_concat_self, ?_⟩
    rw [if_pos hitem]
    exact hitem.symm
  · rw [if_neg hitem] at hlocked ⊢
    obtain ⟨x, hx, hxe⟩ := h e' he' hlocked
    exact ⟨x, List.mem_append_left _ hx, hxe⟩

theorem attached_inv
    (hlocking : Locking s t tx.validationSet locked (w :: todo)) (hholds : Holds s t w) :
    StepOk s t (tx.commitStep s t valid (.attached locked w todo)) := by
  have hentries := hlocking.entries
  rw [List.append_cons] at hentries
  have hw := hentries.item w (List.mem_append_left _ (List.mem_append_right _
    (List.mem_singleton.mpr rfl)))
  simp only [Transaction.commitStep]
  split_ifs with hindex
  · have hatt : s.Attached w.item := by
      unfold Store.Attached
      rw [hw.2]
      exact hindex
    exact ⟨trivial, ⟨notes_patch h w.item, hlocking.stamp, hentries,
      forall_mem_concat.mpr ⟨hlocking.held, hholds, hatt⟩,
      patched_patch hlocking.patched⟩, List.forall_mem_nil _⟩
  · refine .idle h ⟨hentries.sublist (List.sublist_append_left _ _), fun x hx => ?_⟩
    have hx' : Holds s t x := by
      rcases mem_concat.mp hx with hx | rfl
      · exact (hlocking.held x hx).1
      · exact hholds
    refine ⟨hx', ?_, hstore.clean_of_unstamped hx'.holder hlocking.stamp⟩
    rw [← hx'.word]
    exact hstore.isLocked_of_held hx'.holder

theorem serialize_inv (hlocking : Locking s t tx.validationSet locked []) :
    StepOk s t (.serialize,
      { tx with writeSet := locked, stage := .validate tx.validationSet }, []) := by
  have hentries := hlocking.entries
  rw [List.append_nil] at hentries
  have hp : Access.serialize.Permitted s (.tx t) := hlocking.stamp
  have hstamp : (s.access (.tx t) .serialize).stamp (.tx t) = some s.clock :=
    update_self ..
  have hcommitting : Committing (s.access (.tx t) .serialize) t locked := by
    refine ⟨?_, hentries.grows (s.grows_access (.tx t) (.tx t) .serialize), fun x hx => ?_⟩
    · rw [hstamp]
      exact nofun
    · exact Holds.elsewhere (hlocking.held x hx) hstore hp nofun rfl
  refine .of_stage h hstore hp rfl rfl rfl ⟨⟨hcommitting, fun x hx => ?_, hlocking.patched⟩,
    [], rfl, List.forall_mem_nil _⟩
  exact hstore.clean_of_unstamped (hlocking.held x hx).1.holder hlocking.stamp

/-! ## Validation -/

omit h hstore in
theorem Validating.unlock (h : Validating s t ws vs) (hstore : StoreInv s) :
    StageInv s t ws vs (.unlock false ws) := by
  refine ⟨h.entries, fun x hx => ⟨(h.held x hx).1, ?_, h.clean x hx⟩⟩
  rw [← (h.held x hx).1.word]
  exact hstore.isLocked_of_held (h.held x hx).1.holder

omit h hstore in
/-- **A word that has not moved settles a registered read**: nobody else holds the item,
and its slot still has the versions it had when it was read. -/
theorem settled_of_word {e : ValidationItem} (hstore : StoreInv s) (hval : Validating s t ws vs)
    (he : e ∈ vs) (hinv : ValidationInv s t e) (hword : (s.item e.item).word = e.tid) :
    Settled (s.access (.tx t) (.fix (freeSlots s t))) t e := by
  intro hwrap'
  have hwrap := hwrap'.of_grows (s.grows_access (.tx t) (.tx t) (.fix (freeSlots s t)))
  have hbase : (s.item e.item).word.base = e.tid.base := by rw [hword]
  -- the item is free, or locked by the transaction itself
  have hmine : ((s.item e.item).holder = none ∨ (s.item e.item).holder = some (.tx t)) ∧
      (s.item e.item).dirty = false := by
    by_cases hlocked : e.tid.isLocked = true
    · obtain ⟨x, hx, heq⟩ := hval.patched e he hlocked
      rw [← heq]
      exact ⟨.inr (hval.held x hx).1.holder, hval.clean x hx⟩
    · have hfree : (s.item e.item).holder = none := by
        refine hstore.holder_of_not_isLocked ?_
        rw [hword]
        exact eq_false_of_ne_true hlocked
      exact ⟨.inl hfree, hstore.clean_of_unheld hfree⟩
  have hseen : (s.item e.item).seen = e.position := hinv.stable.content hwrap hbase hmine.2
  by_cases hatt : s.Attached e.item
  · refine .inl ?_
    have hfree : s.Free (.tx t) e.slot := by
      unfold Store.Free
      rw [← hinv.home, hstore.abs_lock_home hatt]
      exact hmine.1
    have hlen : e.position = (s.versions e.slot).length := by
      rw [← hseen, (hstore.attached _ _ hatt).seen, hinv.home]
    rw [hlen]
    exact mem_fixed_of_free hfree
  · -- the reaper lets go of what it has unlinked under another word
    refine .inr ⟨hatt, eq_false_of_ne_true fun hflag => ?_⟩
    rcases hinv.place hflag hwrap hbase with hplace | hreaper
    · exact hatt hplace
    · rw [hreaper] at hmine
      rcases hmine.1 with heq | heq <;> cases heq

omit h hstore in
theorem Validating.fix (h : Validating s t ws vs) (D : Set Slot) :
    Validating (s.access (.tx t) (.fix D)) t ws vs :=
  ⟨⟨h.stamp, ⟨h.entries.nodup, h.entries.item⟩, fun x hx =>
    ⟨⟨(h.held x hx).1.holder, (h.held x hx).1.word⟩, (h.held x hx).2⟩⟩, h.clean, h.patched⟩

theorem validate_inv {e : ValidationItem} {todo done : List ValidationItem}
    (hval : Validating s t tx.writeSet tx.validationSet)
    (hsplit : tx.validationSet = done ++ e :: todo) (hdone : Confirmed s t done) :
    StepOk s t (tx.commitStep s t valid (.validate (e :: todo))) := by
  simp only [Transaction.commitStep]
  split_ifs with hword
  · have hp : (Access.fix (freeSlots s t)).Permitted s (.tx t) := ⟨hval.stamp, fun _ hk => hk⟩
    have he : e ∈ tx.validationSet := by
      rw [hsplit]
      exact List.mem_append_right _ List.mem_cons_self
    refine .of_stage h hstore hp rfl rfl rfl ⟨hval.fix _, done ++ [e], ?_,
      forall_mem_concat.mpr
        ⟨fun x hx => ?_, settled_of_word hstore hval he (h.validation e he) hword⟩⟩
    · rw [hsplit, List.append_assoc]
      rfl
    · refine (hdone x hx).steady (h.validation x ?_) (s.grows_access (.tx t) (.tx t) _)
        (hstore.steady hp)
      rw [hsplit]
      exact List.mem_append_left _ hx
  · exact .idle h (hval.unlock hstore)

/-! ## Installing and publishing -/

theorem install_inv {content : Content} (hcommitting : Committing s t (locked ++ w :: todo))
    (hconfirmed : Confirmed s t tx.validationSet) :
    StepOk s t (.install w.item content,
      { tx with stage := .install (locked ++ [{ w with copy := content }]) todo }, []) := by
  have hw : w ∈ locked ++ w :: todo := List.mem_append_right _ (.head _)
  obtain ⟨hholds, hatt⟩ := hcommitting.held w hw
  have hp : (Access.install w.item content).Permitted s (.tx t) :=
    ⟨hholds.holder, hcommitting.stamp, hatt⟩
  have hgrows := s.grows_access (.tx t) (.tx t) (.install w.item content)
  have hitem : (s.access (.tx t) (.install w.item content)).item w.item
      = { s.item w.item with content := content, dirty := true } := update_self ..
  have hself : Holds (s.access (.tx t) (.install w.item content)) t { w with copy := content } ∧
      (s.access (.tx t) (.install w.item content)).Attached w.item := by
    refine ⟨⟨?_, ?_⟩, hstore.attached_access hp nofun hatt⟩
    · rw [hitem]
      exact hholds.holder
    · rw [hitem]
      exact hholds.word
  have hother : ∀ x, x ∈ locked ∨ x ∈ todo →
      Holds (s.access (.tx t) (.install w.item content)) t x ∧
        (s.access (.tx t) (.install w.item content)).Attached x.item := by
    intro x hx
    have hmem : x ∈ locked ++ w :: todo := by
      rw [List.mem_append, List.mem_cons]
      exact hx.imp_right .inr
    exact Holds.elsewhere (hcommitting.held x hmem) hstore hp nofun
      (update_of_ne (hcommitting.entries.item_ne hx) ..)
  refine .of_stage h hstore hp rfl rfl rfl
    ⟨⟨hcommitting.stamp, ?_, ?_⟩, hconfirmed.steady h.validation hgrows (hstore.steady hp)⟩
  · rw [← List.append_cons]
    refine .grows ?_ hgrows
    exact hcommitting.entries.replace rfl rfl
  · rw [← List.append_cons]
    rw [List.forall_mem_append, List.forall_mem_cons]
    exact ⟨fun x hx => hother x (.inl hx), hself, fun x hx => hother x (.inr hx)⟩

theorem publish_inv
    (hcommitting : Committing s t (w :: todo)) (hconfirmed : Confirmed s t tx.validationSet) :
    StepOk s t (.publish w.item (w.tid.next (s.commitEpoch (.tx t))),
      { tx with stage := .register w (w.tid.next (s.commitEpoch (.tx t))) todo }, []) := by
  obtain ⟨hholds, hatt⟩ := hcommitting.held w (.head _)
  set word := w.tid.next (s.commitEpoch (.tx t)) with hword
  have hp : (Access.publish w.item word).Permitted s (.tx t) := by
    refine ⟨hholds.holder, hcommitting.stamp, hatt, ?_⟩
    rw [hholds.word]
  have hgrows := s.grows_access (.tx t) (.tx t) (.publish w.item word)
  have hentries : Entries s ([] ++ w :: todo) := hcommitting.entries
  refine .of_stage h hstore hp rfl rfl rfl
    ⟨⟨hcommitting.stamp, ?_, fun x hx => ?_⟩,
      hconfirmed.steady h.validation hgrows (hstore.steady hp), ?_⟩
  · exact (hcommitting.entries.sublist (List.sublist_cons_self _ _)).grows hgrows
  · exact Holds.elsewhere (hcommitting.held x (.tail _ hx)) hstore hp nofun
      (update_of_ne (hentries.item_ne (.inr hx)) ..)
  · have hcand : CandidateInv (s.access (.tx t) (.publish w.item word))
        ⟨(s.item w.item).home, w.item, word⟩ := candidateInv_publish hstore (.tx t) hatt
    rw [(hcommitting.entries.item w (.head _)).2] at hcand
    exact hcand

theorem unlock_inv {checked : Bool} (hinv : StageInv s t ws vs (.unlock checked (w :: todo))) :
    StepOk s t (.storeWord w.item (s.item w.item).word.unlocked,
      { tx with stage := .unlock checked todo }, []) := by
  obtain ⟨hentries, hheld⟩ := hinv
  obtain ⟨hholds, -, hclean⟩ := hheld w (.head _)
  have hbase := TransactionId.isLocked_base (s.item w.item).word
  rw [TransactionId.base, if_pos (hstore.isLocked_of_held hholds.holder)] at hbase
  have hp : (Access.storeWord w.item (s.item w.item).word.unlocked).Permitted s (.tx t) :=
    ⟨hholds.holder, hclean, hbase, rfl, .inl ⟨rfl, by simp⟩⟩
  have hgrows := s.grows_access (.tx t) (.tx t) (.storeWord w.item (s.item w.item).word.unlocked)
  have hsplit : Entries s ([] ++ w :: todo) := hentries
  refine .of_stage h hstore hp rfl rfl rfl
    ⟨(hentries.sublist (List.sublist_cons_self _ _)).grows hgrows, fun x hx => ?_⟩
  obtain ⟨hx', hlocked, hxclean⟩ := hheld x (.tail _ hx)
  have hsame : (s.access (.tx t) (.storeWord w.item (s.item w.item).word.unlocked)).item x.item
      = s.item x.item := update_of_ne (hsplit.item_ne (.inr hx)) ..
  refine ⟨⟨?_, ?_⟩, hlocked, ?_⟩
  · rw [hsame]
    exact hx'.holder
  · rw [hsame]
    exact hx'.word
  · rw [hsame]
    exact hxclean

end

/-! ## The steps -/

theorem commitStep_inv (h : TransactionInv s t tx) (hstore : StoreInv s)
    (hstage : tx.stage = stage) : StepOk s t (tx.commitStep s t valid stage) := by
  have hinv := h.stage
  rw [hstage] at hinv
  have hnotes := h.toNotes
  cases stage with
  | lock locked todo =>
    cases todo with
    | nil => exact serialize_inv hnotes hstore hinv
    | cons =>
      simp only [Transaction.commitStep]
      split_ifs with hlocked
      · exact ⟨trivial, h, List.forall_mem_nil _⟩
      · exact lock_inv hnotes hstore hinv (eq_false_of_ne_true hlocked)
  | attached => exact attached_inv hnotes hstore hinv.1 hinv.2
  | validate todo =>
    obtain ⟨hval, done, hsplit, hdone⟩ := hinv
    cases todo with
    | nil =>
      rw [List.append_nil] at hsplit
      have hp : (Access.fix (freeSlots s t)).Permitted s (.tx t) := ⟨hval.stamp, fun _ hk => hk⟩
      refine .of_stage hnotes hstore hp rfl rfl rfl ⟨hval.fix _, ?_⟩
      refine .steady ?_ hnotes.validation (s.grows_access (.tx t) (.tx t) _) (hstore.steady hp)
      rw [hsplit]
      exact hdone
    | cons => exact validate_inv hnotes hstore hval hsplit hdone
  | phantoms =>
    simp only [Transaction.commitStep]
    split_ifs
    · exact .idle hnotes hinv
    · exact .idle hnotes (hinv.1.unlock hstore)
  | inserts todo =>
    cases todo with
    | nil => exact .idle hnotes ⟨hinv.1.toCommitting, hinv.2⟩
    | cons =>
      simp only [Transaction.commitStep]
      split_ifs
      · exact .idle hnotes (hinv.1.unlock hstore)
      · exact .idle hnotes hinv
  | install installed todo =>
    cases todo with
    | nil =>
      rw [StageInv, List.append_nil] at hinv
      exact .of_stage (a := .idle) hnotes hstore trivial rfl rfl rfl hinv
    | cons => exact install_inv hnotes hstore hinv.1 hinv.2
  | publish todo =>
    cases todo with
    | nil => exact .idle hnotes hinv.2
    | cons => exact publish_inv hnotes hstore hinv.1 hinv.2
  | register w unlocked =>
    obtain ⟨hcommitting, hconfirmed, hcand⟩ := hinv
    refine ⟨trivial, ⟨⟨h.read, h.validation, h.missing⟩, hcommitting, hconfirmed⟩, fun c hc => ?_⟩
    change c ∈ w.enqueue unlocked at hc
    unfold WriteSnapshot.enqueue Candidate.enqueue at hc
    split_ifs at hc
    · cases hc
    · rw [List.mem_singleton.mp hc]
      exact hcand
    · cases hc
  | unlock checked todo =>
    cases todo with
    | nil => exact ⟨trivial, abort_inv hnotes, List.forall_mem_nil _⟩
    | cons w =>
      have hlocked : (s.item w.item).word.isLocked = true :=
        hstore.isLocked_of_held (hinv.2 w (.head _)).1.holder
      simp only [Transaction.commitStep, hlocked, Bool.not_true, Bool.false_eq_true, and_false,
        if_false]
      exact unlock_inv hnotes hstore hinv
  | _ => exact ⟨trivial, h, List.forall_mem_nil _⟩

/-- **Every step of a transaction is permitted and keeps what the transaction knows.** -/
theorem step_inv {schema : Schema} {choice : Choice} {x : Access × Transaction × List Candidate}
    (h : TransactionInv s t tx) (hstore : StoreInv s)
    (hstep : step schema s t tx choice = some x) : StepOk s t x := by
  rcases step_stage hstep with ⟨hcollecting, -⟩ | ⟨hstage, -⟩ | ⟨valid, rfl⟩
  · exact collect_inv h hstore hcollecting (step_move hstep)
  · exact collect_inv h hstore (by rw [hstage]; rfl) (step_move hstep)
  · exact commitStep_inv h hstore rfl

/-- Transactions keep to the rules of the store. -/
def contract (schema : Schema) : Contract (user schema) where
  inv := TransactionInv
  start hstamp := ⟨⟨nofun, nofun, nofun⟩, hstamp, ⟨List.nodup_nil, nofun⟩, nofun⟩
  rely _ h hrely := h.rely hrely
  step hstore h hstep := step_inv h hstore hstep

end LineairDB.Native
