import LineairDB.Native.Transaction

/-!
# What a transaction knows

One assertion for every point of a native transaction: what the double load
vouches for while an item is copied, what a registered read says about the
versions of its slot, which locks are held on which items, and which reads have
been validated since the serialization point.

* `ValidationInv.steady` — what a registered read says stays said, whoever moves.
* `TransactionInv.rely` — the other parties leave all of it alone.
-/

namespace LineairDB.Native

open Silo ByteFile

/-! ## Reads -/

/-- A copy that is no tombstone is a version of its slot. -/
def ReadInv (s : Store) (r : ReadSnapshot) : Prop :=
  r.copy.initializedAt r.slot = true → s.NoWrap →
    ∃ n v, r.position = n + 1 ∧ (s.versions r.slot)[n]? = some v ∧ v.2.content = r.copy

/-- What a registered read says. As long as the item has its word, nothing has been
published through it since; and if it was attached when the read was confirmed, the
reaper has not taken it away. -/
structure ValidationInv (s : Store) (t : ℕ) (e : ValidationItem) : Prop where
  observed : (e.slot, e.position) ∈ s.observed (.tx t)
  home : (s.item e.item).home = e.slot
  stable : AtVersion s e.item e.tid.base fun _ seen => seen = e.position
  place : e.attached = true → s.NoWrap → (s.item e.item).word.base = e.tid.base → s.InPlace e.item

/-- What a copy under way has seen of the item. -/
def CopyingInv (s : Store) (item : ItemId) : Copying → Prop
  | .load => True
  | .size tid => AtVersion s item tid fun _ _ => True
  | .bytes tid size value =>
    AtVersion s item tid fun c _ => size = c.buffer.length ∧ value <+: c.buffer
  | .primaryKeys tid value => AtVersion s item tid fun c _ => value = c.buffer
  | .reload tid copy => AtVersion s item tid fun c _ => copy = c

/-! ## Writes -/

/-- One entry per slot, each with an item of its slot. -/
structure Entries (s : Store) (ws : List WriteSnapshot) : Prop where
  nodup : (ws.map WriteSnapshot.slot).Nodup
  item : ∀ w ∈ ws, w.item < s.allocated ∧ (s.item w.item).home = w.slot

/-- The lock of an entry is held. -/
structure Holds (s : Store) (t : ℕ) (w : WriteSnapshot) : Prop where
  holder : (s.item w.item).holder = some (.tx t)
  word : (s.item w.item).word = w.tid

/-- Only what is locked by the transaction is validated with the lock bit set. -/
def Patched (vs : List ValidationItem) (locked : List WriteSnapshot) : Prop :=
  ∀ e ∈ vs, e.tid.isLocked = true → ∃ w ∈ locked, w.item = e.item

/-- The transaction is still collecting its reads and writes. -/
structure Running (s : Store) (t : ℕ) (ws : List WriteSnapshot) (vs : List ValidationItem) :
    Prop where
  stamp : s.stamp (.tx t) = none
  entries : Entries s ws
  patched : Patched vs []

/-- The lock loop has gone through `locked`. -/
structure Locking (s : Store) (t : ℕ) (vs : List ValidationItem)
    (locked todo : List WriteSnapshot) : Prop where
  stamp : s.stamp (.tx t) = none
  entries : Entries s (locked ++ todo)
  held : ∀ w ∈ locked, Holds s t w ∧ s.Attached w.item
  patched : Patched vs locked

/-- The transaction has its stamp, and holds the locks of `ws`. -/
structure Committing (s : Store) (t : ℕ) (ws : List WriteSnapshot) : Prop where
  stamp : s.stamp (.tx t) ≠ none
  entries : Entries s ws
  held : ∀ w ∈ ws, Holds s t w ∧ s.Attached w.item

/-- Nothing has been installed yet. -/
structure Validating (s : Store) (t : ℕ) (ws : List WriteSnapshot) (vs : List ValidationItem) :
    Prop extends Committing s t ws where
  clean : ∀ w ∈ ws, (s.item w.item).dirty = false
  patched : Patched vs ws

/-- A validated read is where it was, and nobody who commits before can move it any
more; unless its item had been unlinked before it was read. -/
def Settled (s : Store) (t : ℕ) (e : ValidationItem) : Prop :=
  s.NoWrap → (e.slot, e.position) ∈ s.fixed (.tx t) ∨ ¬ s.Attached e.item ∧ e.attached = false

/-- Every read is settled. -/
def Confirmed (s : Store) (t : ℕ) (vs : List ValidationItem) : Prop := ∀ e ∈ vs, Settled s t e

/-- The purpose of a copy fits what the transaction has written. -/
def Purpose.Fits (ws : List WriteSnapshot) : Purpose → Prop
  | .seed tableName indexName key _ _ _ =>
    .entry tableName indexName key ∉ ws.map WriteSnapshot.slot
  | _ => True

/-- What holds at a stage. -/
def StageInv (s : Store) (t : ℕ) (ws : List WriteSnapshot) (vs : List ValidationItem) :
    Stage → Prop
  | .running | .checking _ _ _ | .writing _ _ _ => Running s t ws vs
  | .reading purpose item copying => Running s t ws vs ∧ item < s.allocated ∧
      (s.item item).home = purpose.slot ∧ purpose.Fits ws ∧ CopyingInv s item copying
  | .lock locked todo => Locking s t vs locked todo
  | .attached locked w todo => Locking s t vs locked (w :: todo) ∧ Holds s t w
  | .validate todo => Validating s t ws vs ∧ ∃ done, vs = done ++ todo ∧ Confirmed s t done
  | .phantoms | .inserts _ => Validating s t ws vs ∧ Confirmed s t vs
  | .install installed todo => Committing s t (installed ++ todo) ∧ Confirmed s t vs
  | .publish todo => Committing s t todo ∧ Confirmed s t vs
  | .register w unlocked todo => Committing s t todo ∧ Confirmed s t vs ∧
      CandidateInv s ⟨w.slot, w.item, unlocked⟩
  | .unlock _ todo => Entries s todo ∧
      ∀ w ∈ todo, Holds s t w ∧ w.tid.isLocked = true ∧ (s.item w.item).dirty = false
  | .committed => Confirmed s t vs
  | .aborted => True

/-- What a transaction has read. -/
structure Notes (s : Store) (t : ℕ) (tx : Transaction) : Prop where
  read : ∀ r ∈ tx.readSet, ReadInv s r
  validation : ∀ e ∈ tx.validationSet, ValidationInv s t e
  missing : ∀ q ∈ tx.missing, q ∈ s.observed (.tx t)

/-- What holds of a transaction. -/
structure TransactionInv (s : Store) (t : ℕ) (tx : Transaction) : Prop extends Notes s t tx where
  stage : StageInv s t tx.writeSet tx.validationSet tx.stage

/-! ## What stays, whoever moves -/

variable {s s' : Store} {t : ℕ} {tx : Transaction} {ws : List WriteSnapshot}
  {vs : List ValidationItem} {o : Owner}

theorem ReadInv.grows {r : ReadSnapshot} (h : ReadInv s r) (hgrows : Grows o s s') :
    ReadInv s' r := by
  intro hlive hwrap
  obtain ⟨n, v, hpos, hv, hcontent⟩ := h hlive (hwrap.of_grows hgrows)
  exact ⟨n, v, hpos, getElem?_of_grown (hgrows.versions _) hv, hcontent⟩

theorem ValidationInv.steady {e : ValidationItem} (h : ValidationInv s t e)
    (hgrows : Grows (.tx t) s s') (hsteady : Steady s s') : ValidationInv s' t e where
  observed := hgrows.observed h.observed
  home := (hgrows.home _ h.stable.allocated).trans h.home
  stable := h.stable.steady hgrows hsteady
  place hatt hwrap' hbase := by
    have hwrap := hwrap'.of_grows hgrows
    -- the base word went up and is back where it was, so it never moved
    have hsame : (s.item e.item).word.base = e.tid.base := by
      refine TransactionId.val_inj (Nat.le_antisymm ?_ (h.stable.le hwrap))
      rw [← hbase]
      exact hsteady.base hwrap _ h.stable.allocated
    exact hsteady.purged hwrap _ h.stable.allocated (h.place hatt hwrap hsame)
      (hbase.trans hsame.symm)

theorem Entries.grows (h : Entries s ws) (hgrows : Grows o s s') : Entries s' ws where
  nodup := h.nodup
  item w hw := by
    obtain ⟨hlt, hhome⟩ := h.item w hw
    exact ⟨Nat.lt_of_lt_of_le hlt hgrows.allocated, (hgrows.home _ hlt).trans hhome⟩

theorem Settled.steady {e : ValidationItem} (h : Settled s t e) (hinv : ValidationInv s t e)
    (hgrows : Grows (.tx t) s s') (hsteady : Steady s s') : Settled s' t e := by
  intro hwrap'
  refine (h (hwrap'.of_grows hgrows)).imp (fun hmem => hgrows.fixed hmem) ?_
  rintro ⟨hdet, hflag⟩
  exact ⟨fun hatt => hdet (hsteady.attached _ hinv.stable.allocated hatt), hflag⟩

theorem Confirmed.steady (h : Confirmed s t vs) (hinv : ∀ e ∈ vs, ValidationInv s t e)
    (hgrows : Grows (.tx t) s s') (hsteady : Steady s s') : Confirmed s' t vs :=
  fun e he => (h e he).steady (hinv e he) hgrows hsteady

theorem Notes.steady (h : Notes s t tx) (hgrows : Grows (.tx t) s s') (hsteady : Steady s s') :
    Notes s' t tx where
  read r hr := (h.read r hr).grows hgrows
  validation e he := (h.validation e he).steady hgrows hsteady
  missing q hq := hgrows.observed (h.missing q hq)

/-! ## What the others leave alone -/

theorem CopyingInv.steady {item : ItemId} {copying : Copying} (h : CopyingInv s item copying)
    (hgrows : Grows o s s') (hsteady : Steady s s') : CopyingInv s' item copying := by
  cases copying with
  | load => trivial
  | size | bytes | primaryKeys | reload =>
    exact AtVersion.steady h hgrows hsteady

section

variable (hrely : Rely (.tx t) s s')

include hrely

theorem Holds.rely {w : WriteSnapshot} (h : Holds s t w) : Holds s' t w := by
  have hsame := (hrely.held _ h.holder).1
  exact ⟨by rw [hsame]; exact h.holder, by rw [hsame]; exact h.word⟩

theorem Holds.attached_rely {w : WriteSnapshot} (h : Holds s t w ∧ s.Attached w.item) :
    Holds s' t w ∧ s'.Attached w.item :=
  ⟨h.1.rely hrely, (hrely.held _ h.1.holder).2 h.2⟩

theorem Running.rely (h : Running s t ws vs) : Running s' t ws vs where
  stamp := hrely.stamp.trans h.stamp
  entries := h.entries.grows hrely.toGrows
  patched := h.patched

theorem Locking.rely {locked todo : List WriteSnapshot} (h : Locking s t vs locked todo) :
    Locking s' t vs locked todo where
  stamp := hrely.stamp.trans h.stamp
  entries := h.entries.grows hrely.toGrows
  held w hw := Holds.attached_rely hrely (h.held w hw)
  patched := h.patched

theorem Committing.rely (h : Committing s t ws) : Committing s' t ws where
  stamp := by
    rw [hrely.stamp]
    exact h.stamp
  entries := h.entries.grows hrely.toGrows
  held w hw := Holds.attached_rely hrely (h.held w hw)

theorem Validating.rely (h : Validating s t ws vs) : Validating s' t ws vs where
  toCommitting := h.toCommitting.rely hrely
  clean w hw := by
    rw [(hrely.held _ (h.held w hw).1.holder).1]
    exact h.clean w hw
  patched := h.patched

theorem StageInv.rely {stage : Stage} (h : StageInv s t ws vs stage)
    (hinv : ∀ e ∈ vs, ValidationInv s t e) : StageInv s' t ws vs stage := by
  have hgrows := hrely.toGrows
  have confirmed : Confirmed s t vs → Confirmed s' t vs :=
    fun hconfirmed => hconfirmed.steady hinv hgrows hrely.toSteady
  cases stage with
  | running | checking | writing => exact Running.rely hrely h
  | reading =>
    obtain ⟨hrunning, hlt, hhome, hfits, hcopying⟩ := h
    exact ⟨hrunning.rely hrely, Nat.lt_of_lt_of_le hlt hgrows.allocated,
      (hgrows.home _ hlt).trans hhome, hfits, hcopying.steady hgrows hrely.toSteady⟩
  | lock => exact Locking.rely hrely h
  | attached => exact ⟨h.1.rely hrely, h.2.rely hrely⟩
  | validate =>
    obtain ⟨hval, done, hsplit, hdone⟩ := h
    refine ⟨hval.rely hrely, done, hsplit, hdone.steady (fun e he => hinv e ?_) hgrows
      hrely.toSteady⟩
    rw [hsplit]
    exact List.mem_append_left _ he
  | phantoms | inserts | install | publish =>
    exact ⟨h.1.rely hrely, confirmed h.2⟩
  | register => exact ⟨h.1.rely hrely, confirmed h.2.1, h.2.2.grows hgrows⟩
  | unlock =>
    obtain ⟨hentries, hheld⟩ := h
    refine ⟨hentries.grows hgrows, fun w hw => ?_⟩
    obtain ⟨hholds, hlocked, hclean⟩ := hheld w hw
    refine ⟨hholds.rely hrely, hlocked, ?_⟩
    rw [(hrely.held _ hholds.holder).1]
    exact hclean
  | committed => exact confirmed h
  | aborted => trivial

/-- **The other parties leave a transaction alone.** -/
theorem TransactionInv.rely (h : TransactionInv s t tx) : TransactionInv s' t tx :=
  ⟨h.toNotes.steady hrely.toGrows hrely.toSteady, h.stage.rely hrely h.validation⟩

end

end LineairDB.Native
