import LineairDB.Native.Invariant
import LineairDB.Native.Moves
import LineairDB.Stateless.Steps

/-!
# The calls of a transaction

The accesses of the calls and of the stable copies are permitted, and lead to
where their assertions hold.

* `confirm_inv` — a confirmed copy is what its item held, and is registered with
  the word that says so.
* `collect_inv` — writes are kept to the transaction, on items of their slots.
-/

namespace LineairDB.Native

open Silo ByteFile
open Stateless (Schema getOrInsert getOrInsert_spec prefix_push)
open Recovery (SecondaryIndexOp)

variable {purpose : Purpose} {item : ItemId} {tid : TransactionId} {stage : Stage}

variable {s : Store} {t : ℕ} {tx : Transaction} {ws : List WriteSnapshot} {vs : List ValidationItem}
  {a : Access} {slot : Slot} {copy : Content}

/-! ## Entries -/

theorem Running.access (h : Running s t ws vs) (hstamp : (s.access (.tx t) a).stamp = s.stamp) :
    Running (s.access (.tx t) a) t ws vs where
  stamp := by
    rw [hstamp]
    exact h.stamp
  entries := h.entries.grows (s.grows_access (.tx t) (.tx t) a)
  patched := h.patched

theorem not_mem_of_findWrite (h : tx.findWrite slot = none) :
    slot ∉ tx.writeSet.map WriteSnapshot.slot := by
  intro hmem
  obtain ⟨w, hw, rfl⟩ := List.mem_map.mp hmem
  exact List.find?_eq_none.mp h w hw (decide_eq_true rfl)

theorem findWrite_spec {w : WriteSnapshot} (hfind : tx.findWrite slot = some w) :
    w ∈ tx.writeSet ∧ w.slot = slot :=
  ⟨List.mem_of_find?_eq_some hfind, by simpa using List.find?_some hfind⟩

theorem Entries.perm {ws' : List WriteSnapshot} (h : Entries s ws) (hperm : ws'.Perm ws) :
    Entries s ws' :=
  ⟨(hperm.map _).nodup_iff.mpr h.nodup, fun w hw => h.item w (hperm.mem_iff.mp hw)⟩

/-- One more entry of the write set. -/
theorem Entries.push {w : WriteSnapshot} (h : Entries s ws)
    (hnew : w.slot ∉ ws.map WriteSnapshot.slot)
    (hitem : w.item < s.allocated ∧ (s.item w.item).home = w.slot) : Entries s (ws ++ [w]) where
  nodup := by
    rw [List.map_append]
    refine List.Nodup.append h.nodup (List.nodup_singleton _) ?_
    intro k hk hsingle
    rw [List.mem_singleton.mp hsingle] at hk
    exact hnew hk
  item := forall_mem_concat.mpr ⟨h.item, hitem⟩

/-- Changing an entry in place. -/
theorem Entries.modify {f : WriteSnapshot → WriteSnapshot} (h : Entries s ws)
    (hslot : ∀ w, (f w).slot = w.slot) (hitem : ∀ w, (f w).item = w.item) :
    Entries s (ws.map fun w => if w.slot = slot then f w else w) := by
  have hsame : ∀ w : WriteSnapshot,
      (if w.slot = slot then f w else w).slot = w.slot ∧
        (if w.slot = slot then f w else w).item = w.item := by
    intro w
    split_ifs
    · exact ⟨hslot w, hitem w⟩
    · exact ⟨rfl, rfl⟩
  constructor
  · have hslots : (ws.map fun w => if w.slot = slot then f w else w).map WriteSnapshot.slot
        = ws.map WriteSnapshot.slot := by
      rw [List.map_map]
      exact List.map_congr_left fun w _ => (hsame w).1
    rw [hslots]
    exact h.nodup
  · intro w hw
    obtain ⟨w', hw', rfl⟩ := List.mem_map.mp hw
    rw [(hsame w').1, (hsame w').2]
    exact h.item w' hw'

/-- The item that is found is one of its slot. -/
theorem Finds.spec (h : Finds s tx slot item a) (hstore : StoreInv s)
    (hentries : Entries s tx.writeSet) (o : Owner) :
    a.Permitted s o ∧ item < (s.access o a).allocated ∧ ((s.access o a).item item).home = slot ∧
      (s.access o a).stamp = s.stamp := by
  cases h with
  | index hindex =>
    obtain ⟨hlt, hhome⟩ := hstore.home _ _ hindex
    exact ⟨trivial, hlt, hhome, rfl⟩
  | own hwrite =>
    obtain ⟨hmem, rfl⟩ := findWrite_spec hwrite
    obtain ⟨hlt, hhome⟩ := hentries.item _ hmem
    exact ⟨trivial, hlt, hhome, rfl⟩
  | create hindex => exact getOrInsert_spec hstore o (by rw [getOrInsert, hindex])

/-! ## Where the calls leave a transaction -/

/-- A step that is permitted, ends where its assertion holds, and hands over candidates. -/
def StepOk (s : Store) (t : ℕ) (x : Access × Transaction × List Candidate) : Prop :=
  x.1.Permitted s (.tx t) ∧ TransactionInv (s.access (.tx t) x.1) t x.2.1 ∧
    ∀ c ∈ x.2.2, CandidateInv (s.access (.tx t) x.1) c

/-- A confirmed copy that is no tombstone is the version its item holds. -/
theorem readInv_of_word (hstore : StoreInv s) (hhome : (s.item item).home = slot)
    (hat : AtVersion s item tid fun c _ => copy = c) (hword : (s.item item).word = tid) :
    ReadInv s ⟨slot, copy, (s.item item).seen⟩ := by
  intro hlive hwrap
  have hcopy : copy = (s.item item).content := hat.reload hstore hwrap hword
  rw [hcopy, ← hhome] at hlive
  obtain ⟨-, n, v, hseen, hv, -, hcontent⟩ :=
    hstore.initialized_version (hat.clean hstore hword) hlive
  refine ⟨n, v, hseen, ?_, hcontent.trans hcopy.symm⟩
  rw [hhome] at hv
  exact hv

/-- What a read that is confirmed says from now on. -/
theorem validationInv_observe (hlt : item < s.allocated) (hhome : (s.item item).home = slot)
    (heven : tid.isLocked = false) (hword : (s.item item).word = tid) :
    ValidationInv (s.access (.tx t) (.observe slot (s.item item).seen)) t
      ⟨item, tid, slot, (s.item item).seen, s.Attached item⟩ where
  observed := by
    show _ ∈ Function.update s.observed (.tx t) _ (.tx t)
    rw [Function.update_self]
    exact .inr rfl
  home := hhome
  stable := by
    rw [TransactionId.base_of_not_isLocked heven, ← hword]
    rw [← hword] at heven
    exact .load hlt heven rfl
  place hatt _ _ := .inl (of_decide_eq_true hatt)

section Notes

variable (h : Notes s t tx)

include h

theorem Notes.access (hstore : StoreInv s) (hp : a.Permitted s (.tx t)) :
    Notes (s.access (.tx t) a) t tx :=
  h.steady (s.grows_access (.tx t) (.tx t) a) (hstore.steady hp)

/-- A step that hands over nothing, of which only the stage has to be shown. -/
theorem StepOk.of_stage {tx' : Transaction} (hstore : StoreInv s)
    (hp : a.Permitted s (.tx t)) (hread : tx'.readSet = tx.readSet)
    (hvalidation : tx'.validationSet = tx.validationSet) (hmissing : tx'.missing = tx.missing)
    (hstage : StageInv (s.access (.tx t) a) t tx'.writeSet tx'.validationSet tx'.stage) :
    StepOk s t (a, tx', []) := by
  have hnotes := h.access hstore hp
  refine ⟨hp, ⟨⟨?_, ?_, ?_⟩, hstage⟩, List.forall_mem_nil _⟩
  · rw [hread]
    exact hnotes.read
  · rw [hvalidation]
    exact hnotes.validation
  · rw [hmissing]
    exact hnotes.missing

theorem StepOk.idle (hstage : StageInv s t tx.writeSet tx.validationSet stage) :
    StepOk s t (.idle, { tx with stage := stage }, []) :=
  ⟨trivial, ⟨⟨h.read, h.validation, h.missing⟩, hstage⟩, List.forall_mem_nil _⟩

theorem abort_inv : TransactionInv s t tx.abort :=
  ⟨⟨h.read, h.validation, h.missing⟩, trivial⟩

variable (hrun : Running s t tx.writeSet tx.validationSet)

include hrun

theorem modifyWrite_inv {f : WriteSnapshot → WriteSnapshot}
    (hslot : ∀ w, (f w).slot = w.slot) (hitem : ∀ w, (f w).item = w.item) :
    TransactionInv s t (tx.modifyWrite slot f) :=
  ⟨⟨h.read, h.validation, h.missing⟩, hrun.stamp, hrun.entries.modify hslot hitem, hrun.patched⟩

theorem putSecondaryIndex_inv {unique : Bool} {base : Content} {op : SecondaryIndexOp}
    {primaryKey : Bytes} (hnew : slot ∉ tx.writeSet.map WriteSnapshot.slot)
    (hlt : item < s.allocated) (hhome : (s.item item).home = slot) :
    TransactionInv s t (tx.putSecondaryIndex slot item unique base op primaryKey) := by
  unfold Transaction.putSecondaryIndex
  split_ifs
  · exact ⟨⟨h.read, h.validation, h.missing⟩, trivial⟩
  · exact ⟨⟨h.read, h.validation, h.missing⟩, hrun.stamp, hrun.entries.push hnew ⟨hlt, hhome⟩,
      hrun.patched⟩

/-! ## Stable copies -/

/-- A confirmed copy is registered, if it is one to be validated. -/
theorem register_inv (hstore : StoreInv s) (hlt : item < s.allocated)
    (hhome : (s.item item).home = purpose.slot)
    (heven : tid.isLocked = false) (hword : (s.item item).word = tid) {access : Access}
    (haccess : access
      = if purpose.validated then .observe purpose.slot (s.item item).seen else .idle)
    {tx' : Transaction}
    (htx : tx' = tx.register purpose item tid (s.item item).seen (s.Attached item)) :
    access.Permitted s (.tx t) ∧ Notes (s.access (.tx t) access) t tx' ∧
      Running (s.access (.tx t) access) t tx'.writeSet tx'.validationSet := by
  subst haccess htx
  unfold Transaction.register
  split_ifs
  · have hp : (Access.observe purpose.slot (s.item item).seen).Permitted s (.tx t) := by
      refine ⟨hrun.stamp, ?_⟩
      rw [← hhome]
      exact hstore.seen_le item
    have hnotes := h.access hstore hp
    refine ⟨hp, ⟨hnotes.read, forall_mem_concat.mpr ⟨hnotes.validation, ?_⟩, hnotes.missing⟩,
      hrun.stamp, hrun.entries.grows (s.grows_access (.tx t) (.tx t) _),
      forall_mem_concat.mpr ⟨hrun.patched, fun hlocked => ?_⟩⟩
    · exact validationInv_observe hlt hhome heven hword
    · rw [heven] at hlocked
      cases hlocked
  · exact ⟨trivial, h, hrun⟩

theorem copied_inv {position : ℕ} (hfits : purpose.Fits tx.writeSet) (hlt : item < s.allocated)
    (hhome : (s.item item).home = purpose.slot) (hread : ReadInv s ⟨purpose.slot, copy, position⟩) :
    TransactionInv s t (tx.copied purpose item copy position) := by
  have hreads : ∀ r ∈ tx.readSet ++ [⟨purpose.slot, copy, position⟩], ReadInv s r := by
    exact forall_mem_concat.mpr ⟨h.read, hread⟩
  cases purpose with
  | read => exact ⟨⟨hreads, h.validation, h.missing⟩, hrun⟩
  | direct => exact ⟨⟨h.read, h.validation, h.missing⟩, hrun⟩
  | refresh => exact modifyWrite_inv h hrun (fun _ => rfl) fun _ => rfl
  | seed tableName indexName key =>
    have hnotes : Notes s t
        { tx with
          readSet := tx.readSet ++ [⟨.entry tableName indexName key, copy, position⟩] } :=
      ⟨hreads, h.validation, h.missing⟩
    exact putSecondaryIndex_inv hnotes hrun hfits hlt hhome

end Notes

theorem CopyingInv.copies {copying copying' : Copying} (h : CopyingInv s item copying)
    (hlt : item < s.allocated) (hcopies : Copies s item copying copying') :
    CopyingInv s item copying' := by
  cases hcopies with
  | spin | retry => trivial
  | load hfree => exact .load hlt hfree trivial
  | size => exact AtVersion.imp h fun _ => ⟨rfl, List.nil_prefix⟩
  | byte byte hmore =>
    refine AtVersion.imp h ?_
    rintro ⟨hsize, hcopied⟩
    exact ⟨hsize, prefix_push hcopied (by rw [← hsize]; exact hmore) byte⟩
  | bytes hall =>
    refine AtVersion.imp h ?_
    rintro ⟨hsize, hcopied⟩
    refine hcopied.eq_of_length_le ?_
    rw [← hsize]
    exact Nat.le_of_not_lt hall
  | primaryKeys =>
    refine AtVersion.imp h fun hvalue => ?_
    rw [hvalue]

/-! ## The steps of a collecting transaction -/

section

variable (h : TransactionInv s t tx) (hstore : StoreInv s)

include h hstore

theorem confirm_inv (hstage : tx.stage = .reading purpose item (.reload tid copy))
    (hword : (s.item item).word = tid) :
    StepOk s t
      (if purpose.validated then .observe purpose.slot (s.item item).seen else .idle,
        (tx.register purpose item tid (s.item item).seen (s.Attached item)).copied purpose item
          copy (s.item item).seen, []) := by
  have hinv := h.stage
  rw [hstage] at hinv
  obtain ⟨hrun, hlt, hhome, hfits, hcopying⟩ := hinv
  obtain ⟨hp, hnotes', hrun'⟩ := register_inv h.toNotes hrun hstore hlt hhome
    (AtVersion.even hcopying) hword rfl rfl
  have hgrows := s.grows_access (.tx t) (.tx t)
    (if purpose.validated then .observe purpose.slot (s.item item).seen else .idle)
  refine ⟨hp, copied_inv hnotes' hrun' ?_ (hlt.trans_le hgrows.allocated)
    ((hgrows.home _ hlt).trans hhome) ((readInv_of_word hstore hhome hcopying hword).grows hgrows),
    List.forall_mem_nil _⟩
  rw [writeSet_register]
  exact hfits

theorem miss_inv (hrun : Running s t tx.writeSet tx.validationSet)
    (hstage : tx.stage = .running) :
    StepOk s t (.observe slot (s.versions slot).length,
      { tx with missing := tx.missing ++ [(slot, (s.versions slot).length)] }, []) := by
  have hp : (Access.observe slot (s.versions slot).length).Permitted s (.tx t) :=
    ⟨hrun.stamp, le_rfl⟩
  have hnotes := h.toNotes.access hstore hp
  refine ⟨hp, ⟨⟨hnotes.read, hnotes.validation, forall_mem_concat.mpr ⟨hnotes.missing, ?_⟩⟩, ?_⟩,
    List.forall_mem_nil _⟩
  · show _ ∈ Function.update s.observed (.tx t) _ (.tx t)
    rw [Function.update_self]
    exact .inr rfl
  · rw [hstage]
    exact ⟨hrun.stamp, hrun.entries.grows (s.grows_access (.tx t) (.tx t) _), hrun.patched⟩

omit hstore in
theorem TransactionInv.running (hcollecting : tx.stage.collecting = true) :
    Running s t tx.writeSet tx.validationSet := by
  have hinv := h.stage
  cases hstage : tx.stage with
  | running | checking | writing =>
    rw [hstage] at hinv
    exact hinv
  | reading =>
    rw [hstage] at hinv
    exact hinv.1
  | _ =>
    rw [hstage] at hcollecting
    cases hcollecting

/-- **What the calls do is permitted, and keeps what the transaction knows.** -/
theorem collect_inv {schema : Schema} {choice : Choice} {x : Access × Transaction × List Candidate}
    (hcollecting : tx.stage.collecting = true) (hmove : Move schema s t tx choice x) :
    StepOk s t x := by
  have hrun := h.running hcollecting
  have hnotes := h.toNotes
  -- an access that finds an item of the slot
  have found : ∀ {slot : Slot} {item : ItemId} {a : Access}, Finds s tx slot item a →
      a.Permitted s (.tx t) ∧ item < (s.access (.tx t) a).allocated ∧
        ((s.access (.tx t) a).item item).home = slot ∧
          Running (s.access (.tx t) a) t tx.writeSet tx.validationSet := by
    intro slot item a hfinds
    obtain ⟨hp, hlt, hhome, hstamp⟩ := hfinds.spec hstore hrun.entries (.tx t)
    exact ⟨hp, hlt, hhome, hrun.access hstamp⟩
  cases hmove with
  | refuse _ ha =>
    refine .of_stage hnotes hstore ?_ rfl rfl rfl trivial
    rcases ha with rfl | ⟨slot, item, hfinds⟩
    · trivial
    · exact (found hfinds).1
  | answer => exact ⟨trivial, h, List.forall_mem_nil _⟩
  | miss hstage => exact miss_inv h hstore hrun hstage
  | look _ hasks hfinds =>
    obtain ⟨hp, hlt, hhome, hrun'⟩ := found hfinds
    refine .of_stage hnotes hstore hp rfl rfl rfl ⟨hrun', hlt, hhome, ?_, trivial⟩
    cases hasks with
    | seed _ hwrite => exact not_mem_of_findWrite hwrite
    | _ => trivial
  | copy hstage hcopies =>
    have hinv := h.stage
    rw [hstage] at hinv
    obtain ⟨-, hlt, hhome, hfits, hcopying⟩ := hinv
    exact .idle hnotes ⟨hrun, hlt, hhome, hfits, hcopying.copies hlt hcopies⟩
  | confirm hstage hword => exact confirm_inv h hstore hstage hword
  | check | checked => exact .idle hnotes hrun
  | claim _ _ hfinds =>
    obtain ⟨hp, -, -, hrun'⟩ := found hfinds
    exact .of_stage hnotes hstore hp rfl rfl rfl hrun'
  | overwrite =>
    exact ⟨trivial, modifyWrite_inv hnotes hrun (fun _ => rfl) fun _ => rfl, List.forall_mem_nil _⟩
  | append _ hwrite hfinds =>
    obtain ⟨hp, hlt, hhome, hrun'⟩ := found hfinds
    exact .of_stage hnotes hstore hp rfl rfl rfl ⟨hrun'.stamp,
      hrun'.entries.push (not_mem_of_findWrite hwrite) ⟨hlt, hhome⟩, hrun'.patched⟩
  | edit _ _ _ _ hfinds =>
    obtain ⟨hp, -, -, hrun'⟩ := found hfinds
    exact ⟨hp, modifyWrite_inv (hnotes.access hstore hp) hrun' (fun _ => rfl) fun _ => rfl,
      List.forall_mem_nil _⟩
  | put _ _ hwrite _ hfinds =>
    obtain ⟨hp, hlt, hhome, hrun'⟩ := found hfinds
    exact ⟨hp, putSecondaryIndex_inv (hnotes.access hstore hp) hrun' (not_mem_of_findWrite hwrite)
      hlt hhome, List.forall_mem_nil _⟩
  | precommit =>
    exact .idle hnotes ⟨hrun.stamp, hrun.entries.perm (List.perm_insertionSort _ _), nofun,
      hrun.patched⟩
  | commit hcommitting =>
    rw [hcollecting] at hcommitting
    cases hcommitting

end

end LineairDB.Native
