import LineairDB.Silo.Rely

/-!
# The reaper

A committed delete leaves a tombstone and hands its slot to the reaper. A pass
takes the candidates whose delete lies more than one full epoch back and, one
access at a time, locks each tombstone, makes sure that it is still the one it
was handed and still dead, unlinks its slot and leaves a retired word behind.

* `ReaperInv.step` — every access of a pass is permitted, and what the reaper
  knows about its candidates is preserved.
-/

namespace LineairDB.Silo

/-! ## The pass -/

/-- A tombstone that may be purged. -/
structure Candidate where
  slot : Slot
  item : ItemId
  deleteCommitTid : TransactionId
  deriving Repr, DecidableEq

/-- Where the pass stands with the candidate in hand. -/
inductive Purge where
  | load
  | cas
  | initialized
  | reresolve
  | reload
  | purge
  | retire
  | unlockCandidate
  deriving Repr, DecidableEq

variable {o : Owner} {pc : Purge} {publishedEpoch : EpochNumber}

/-- The local variables of `Reap`. -/
structure Pass where
  publishedEpoch : EpochNumber
  ready : List Candidate
  requeue : List Candidate
  /-- The candidates the counter `dropped` counts. -/
  dropped : List Candidate
  deriving Repr, DecidableEq

/-- A candidate is kept for the next pass. -/
def Pass.put (pass : Pass) (c : Candidate) : Pass := { pass with requeue := pass.requeue ++ [c] }

/-- A candidate is dropped. -/
def Pass.drop (pass : Pass) (c : Candidate) : Pass := { pass with dropped := pass.dropped ++ [c] }

/-- Where the reaper is. -/
inductive Reaper where
  | idle
  | sweeping (pass : Pass)
  | working (pass : Pass) (c : Candidate) (pc : Purge)
  deriving Repr, DecidableEq

/-- What the pass under way has dropped. -/
def Reaper.dropped : Reaper → List Candidate
  | .idle => []
  | .sweeping pass => pass.dropped
  | .working pass _ _ => pass.dropped

/-- `one_full_epoch_elapsed` -/
def oneFullEpochElapsed (publishedEpoch : EpochNumber) (c : Candidate) : Bool :=
  publishedEpoch > c.deleteCommitTid.epoch && publishedEpoch - c.deleteCommitTid.epoch > 1

/-- What `Enqueue` adds to the queue. -/
def Candidate.enqueue (c : Candidate) : List Candidate :=
  if c.deleteCommitTid = .empty then [] else [c]

/-- The next access of the pass, on the candidate in hand. -/
def purgeStep (s : Store) (pass : Pass) (c : Candidate) : Purge → Access × Reaper
  | .load =>
    let observed := (s.item c.item).word
    if observed.isLocked then (.idle, .sweeping (pass.put c))
    else if observed = c.deleteCommitTid then (.idle, .working pass c .cas)
    else (.idle, .sweeping (pass.drop c))
  | .cas =>
    let observed := (s.item c.item).word
    if observed = c.deleteCommitTid then (.lock c.item, .working pass c .initialized)
    else if observed.isLocked then (.idle, .sweeping (pass.put c))
    else (.idle, .sweeping (pass.drop c))
  | .initialized =>
    if (s.item c.item).content.initializedAt c.slot then (.idle, .working pass c .unlockCandidate)
    else (.idle, .working pass c .reresolve)
  | .reresolve =>
    if s.index c.slot = some c.item then (.idle, .working pass c .reload)
    else (.idle, .working pass c .unlockCandidate)
  | .reload =>
    if (s.item c.item).word = c.deleteCommitTid.locked then (.idle, .working pass c .purge)
    else (.idle, .working pass c .unlockCandidate)
  | .purge =>
    if s.index c.slot = some c.item then (.unlink c.slot, .working pass c .retire)
    else (.idle, .working pass c .unlockCandidate)
  | .retire =>
    let retired := c.deleteCommitTid.retired
    if retired = .empty then (.idle, .sweeping pass)
    else (.storeWord c.item retired, .sweeping pass)
  | .unlockCandidate => (.storeWord c.item c.deleteCommitTid, .sweeping (pass.drop c))

/-- `Reap`, one access at a time; a pass starts at an epoch that has been
published. -/
def reaperStep (s : Store) (candidates : List Candidate) (publishedEpoch : EpochNumber) :
    Reaper → Option (Access × Reaper × List Candidate)
  | .idle =>
    if publishedEpoch ≤ s.epoch then
      match candidates.filter (oneFullEpochElapsed publishedEpoch) with
      | [] => some (.idle, .idle, candidates)
      | ready => some (.idle, .sweeping ⟨publishedEpoch, ready, [], []⟩,
          candidates.filter fun c => !oneFullEpochElapsed publishedEpoch c)
    else none
  | .sweeping pass =>
    match pass.ready with
    | [] => some (.idle, .idle, candidates ++ pass.requeue)
    | c :: ready =>
      if s.index c.slot = some c.item then
        some (.idle, .working { pass with ready := ready } c .load, candidates)
      else some (.idle, .sweeping ({ pass with ready := ready }.drop c), candidates)
  | .working pass c pc =>
    let (a, r) := purgeStep s pass c pc
    some (a, r, candidates)

/-! ## What the reaper knows -/

variable {s s' : Store} {candidates candidates' : List Candidate} {c : Candidate} {r r' : Reaper}
  {pass : Pass} {a : Access}

/-- A candidate was published through its item, as a version of the slot the item was
created for. -/
structure CandidateInv (s : Store) (c : Candidate) : Prop where
  allocated : c.item < s.allocated
  home : (s.item c.item).home = c.slot
  listed : c.slot ∈ s.slots
  version : ∃ v ∈ s.versions c.slot, v.2.tid = c.deleteCommitTid ∧ v.2.item = c.item

/-- The delete lies at least two epochs back. -/
def Expired (publishedEpoch : EpochNumber) (c : Candidate) : Prop :=
  c.deleteCommitTid.epoch.toNat + 2 ≤ publishedEpoch.toNat

/-- The registered version of a candidate has been followed by another one. -/
def Overwritten (s : Store) (c : Candidate) : Prop :=
  ∃ n v, (s.versions c.slot)[n]? = some v ∧ v.2.tid = c.deleteCommitTid ∧
    n + 1 < (s.versions c.slot).length

/-- What was published under the registered word is no tombstone. -/
def Revived (s : Store) (c : Candidate) : Prop :=
  ∃ v ∈ s.versions c.slot, v.2.tid = c.deleteCommitTid ∧ v.2.content.initializedAt c.slot = true

/-- Why a pass drops a candidate. -/
def Droppable (s : Store) (c : Candidate) : Prop :=
  s.index c.slot ≠ some c.item ∨ Overwritten s c ∨ Revived s c

/-- The reaper holds the lock of a candidate. -/
structure ReaperHolds (s : Store) (c : Candidate) : Prop where
  holder : (s.item c.item).holder = some .reaper
  word : (s.item c.item).word = c.deleteCommitTid.locked

/-- What holds on the way through a purge. -/
def PurgeInv (s : Store) (c : Candidate) : Purge → Prop
  | .load | .cas => s.Attached c.item
  | .initialized => ReaperHolds s c ∧ s.Attached c.item
  | .reresolve | .reload | .purge =>
    ReaperHolds s c ∧ s.Attached c.item ∧ (s.item c.item).content.initializedAt c.slot = false
  | .retire => ReaperHolds s c ∧ ¬ s.Attached c.item
  | .unlockCandidate =>
    ReaperHolds s c ∧ s.Attached c.item ∧ (s.item c.item).content.initializedAt c.slot = true

/-- The candidates a pass has in hand, with those it will put back and those it has
dropped. -/
structure PassInv (s : Store) (pass : Pass) : Prop where
  begun : pass.publishedEpoch.toNat ≤ s.epoch.toNat
  ready : ∀ c ∈ pass.ready, CandidateInv s c ∧ Expired pass.publishedEpoch c
  requeue : ∀ c ∈ pass.requeue, CandidateInv s c
  dropped : ∀ c ∈ pass.dropped, CandidateInv s c ∧ Droppable s c

/-- What holds of a pass. -/
def PhaseInv (s : Store) : Reaper → Prop
  | .idle => True
  | .sweeping pass => PassInv s pass
  | .working pass c pc =>
    PassInv s pass ∧ CandidateInv s c ∧ Expired pass.publishedEpoch c ∧ PurgeInv s c pc

/-- The item whose lock the reaper holds. -/
def Reaper.InHand (i : ItemId) : Reaper → Prop
  | .working _ c pc => i = c.item ∧ pc ≠ .load ∧ pc ≠ .cas
  | _ => False

/-- What holds of the reaper. -/
structure ReaperInv (s : Store) (candidates : List Candidate) (r : Reaper) : Prop where
  stamp : s.stamp .reaper = none
  queue : ∀ c ∈ candidates, CandidateInv s c
  phase : PhaseInv s r
  only : ∀ i, (s.item i).holder = some .reaper → r.InHand i

/-! ## What a candidate's versions say stays said -/

theorem CandidateInv.grows (h : CandidateInv s c) (hgrows : Grows o s s') : CandidateInv s' c where
  allocated := Nat.lt_of_lt_of_le h.allocated hgrows.allocated
  home := (hgrows.home _ h.allocated).trans h.home
  listed := hgrows.slots h.listed
  version := by
    obtain ⟨v, hv, hspec⟩ := h.version
    exact ⟨v, (hgrows.versions _).subset hv, hspec⟩

theorem CandidateInv.spec (h : CandidateInv s c) (hstore : StoreInv s) :
    c.deleteCommitTid.isLocked = false ∧ c.deleteCommitTid.epoch ≠ 0 ∧
      (s.item c.item).word.epoch ≠ 0 := by
  obtain ⟨v, hv, htid, hitem⟩ := h.version
  obtain ⟨heven, hpos, -⟩ := hstore.version _ v hv
  have hpublished := (hstore.published _ v hv).2
  rw [htid] at heven hpos
  rw [hitem] at hpublished
  refine ⟨heven, fun hzero => ?_, hpublished⟩
  rw [hzero] at hpos
  exact absurd hpos (Nat.lt_irrefl _)

theorem CandidateInv.attached_iff (h : CandidateInv s c) :
    s.Attached c.item ↔ s.index c.slot = some c.item := by
  unfold Store.Attached
  rw [h.home]

theorem Overwritten.grows (h : Overwritten s c) (hgrows : Grows o s s') : Overwritten s' c := by
  obtain ⟨n, v, hv, htid, hlt⟩ := h
  have hprefix := hgrows.versions c.slot
  exact ⟨n, v, getElem?_of_grown hprefix hv, htid, Nat.lt_of_lt_of_le hlt hprefix.length_le⟩

theorem Revived.grows (h : Revived s c) (hgrows : Grows o s s') : Revived s' c := by
  obtain ⟨v, hv, hspec⟩ := h
  exact ⟨v, (hgrows.versions _).subset hv, hspec⟩

theorem Droppable.grows (h : Droppable s c) (hcand : CandidateInv s c) (hgrows : Grows o s s')
    (hatt : s'.Attached c.item → s.Attached c.item) : Droppable s' c := by
  refine h.imp ?_ (Or.imp (·.grows hgrows) (·.grows hgrows))
  intro hgone hidx
  rw [← (hcand.grows hgrows).attached_iff] at hidx
  exact hgone (hcand.attached_iff.mp (hatt hidx))

/-- An attached item whose word is not the registered one has been written again. -/
theorem CandidateInv.overwritten (h : CandidateInv s c) (hstore : StoreInv s)
    (hatt : s.Attached c.item) (hword : (s.item c.item).word.base ≠ c.deleteCommitTid) :
    Overwritten s c := by
  obtain ⟨-, -, hne⟩ := h.spec hstore
  obtain ⟨v, hv, htid, -⟩ := h.version
  obtain ⟨w, hlast, hwtid, -⟩ := (hstore.attached _ _ hatt).current hne
  rw [h.home] at hlast
  obtain ⟨n, hn, hvn⟩ := List.mem_iff_getElem.mp hv
  refine ⟨n, v, List.getElem?_eq_some_iff.mpr ⟨hn, hvn⟩, htid, ?_⟩
  by_contra hlen
  have hlast' : n = (s.versions c.slot).length - 1 := by omega
  rw [List.getLast?_eq_getElem?, ← hlast', List.getElem?_eq_getElem hn, hvn] at hlast
  cases hlast
  exact hword (hwtid.symm.trans htid)

/-- An attached item that still has the registered word holds what was published under
it. -/
theorem CandidateInv.revived (h : CandidateInv s c) (hstore : StoreInv s)
    (hatt : s.Attached c.item) (hclean : (s.item c.item).dirty = false)
    (hword : (s.item c.item).word.base = c.deleteCommitTid)
    (hlive : (s.item c.item).content.initializedAt c.slot = true) : Revived s c := by
  obtain ⟨-, -, hne⟩ := h.spec hstore
  obtain ⟨w, hlast, htid, hcontent⟩ := (hstore.attached _ _ hatt).current hne
  rw [h.home] at hlast
  refine ⟨w, List.mem_of_getLast? hlast, htid.trans hword, ?_⟩
  rw [← hcontent hclean]
  exact hlive

/-- A published item is a candidate for its slot. -/
theorem candidateInv_publish {i : ItemId} {word : TransactionId} (hstore : StoreInv s)
    (o : Owner) (hatt : s.Attached i) :
    CandidateInv (s.access o (.publish i word)) ⟨(s.item i).home, i, word⟩ where
  allocated := (hstore.home _ _ hatt).1
  home := s.home_access o (.publish i word) (hstore.home _ _ hatt).1
  listed := hstore.slots _ (by rw [hatt]; exact nofun)
  version := by
    refine ⟨(o, ⟨word, (s.item i).content, i⟩), ?_, rfl, rfl⟩
    show _ ∈ Function.update s.versions (s.item i).home _ (s.item i).home
    rw [Function.update_self]
    exact List.mem_concat_self

/-! ## The others leave it alone -/

theorem ReaperHolds.rely (h : ReaperHolds s c) (hrely : Rely .reaper s s') : ReaperHolds s' c := by
  have hsame := (hrely.held c.item h.holder).1
  exact ⟨by rw [hsame]; exact h.holder, by rw [hsame]; exact h.word⟩

theorem PurgeInv.rely (h : PurgeInv s c pc) (hcand : CandidateInv s c) (hrely : Rely .reaper s s') :
    PurgeInv s' c pc := by
  have keep := hrely.kept rfl c.item
  have still : ∀ {b : Bool}, ReaperHolds s c ∧ s.Attached c.item ∧
      (s.item c.item).content.initializedAt c.slot = b →
      ReaperHolds s' c ∧ s'.Attached c.item ∧
        (s'.item c.item).content.initializedAt c.slot = b := by
    rintro b ⟨hheld, hatt, hinit⟩
    refine ⟨hheld.rely hrely, keep hatt, ?_⟩
    rw [(hrely.held c.item hheld.holder).1]
    exact hinit
  cases pc with
  | load | cas => exact keep h
  | initialized => exact ⟨h.1.rely hrely, keep h.2⟩
  | unlockCandidate | reresolve | reload | purge => exact still h
  | retire =>
    obtain ⟨hheld, hdet⟩ := h
    exact ⟨hheld.rely hrely, fun hatt => hdet (hrely.attached _ hcand.allocated hatt)⟩

theorem PassInv.grows (h : PassInv s pass) (hgrows : Grows o s s')
    (hepoch : s.epoch.toNat ≤ s'.epoch.toNat)
    (hatt : ∀ i, i < s.allocated → s'.Attached i → s.Attached i) : PassInv s' pass where
  begun := Nat.le_trans h.begun hepoch
  ready c hc := ⟨(h.ready c hc).1.grows hgrows, (h.ready c hc).2⟩
  requeue c hc := (h.requeue c hc).grows hgrows
  dropped c hc := by
    obtain ⟨hcand, hdrop⟩ := h.dropped c hc
    exact ⟨hcand.grows hgrows, hdrop.grows hcand hgrows (hatt _ hcand.allocated)⟩

theorem PassInv.rely (h : PassInv s pass) (hrely : Rely o s s') : PassInv s' pass :=
  h.grows hrely.toGrows hrely.epoch hrely.attached

theorem ReaperInv.rely (h : ReaperInv s candidates r) (hrely : Rely .reaper s s') :
    ReaperInv s' candidates r where
  stamp := hrely.stamp.trans h.stamp
  queue c hc := (h.queue c hc).grows hrely.toGrows
  phase := by
    have hphase := h.phase
    cases r with
    | idle => trivial
    | sweeping => exact .rely hphase hrely
    | working =>
      obtain ⟨hpass, hcand, hexpired, hpc⟩ := hphase
      exact ⟨hpass.rely hrely, hcand.grows hrely.toGrows, hexpired, hpc.rely hcand hrely⟩
  only i hi := h.only i (hrely.holder i hi)

/-! ## Its own accesses -/

theorem PassInv.put (h : PassInv s pass) (hc : CandidateInv s c) : PassInv s (pass.put c) where
  __ := h
  requeue := forall_mem_concat.mpr ⟨h.requeue, hc⟩

theorem PassInv.drop (h : PassInv s pass) (hc : CandidateInv s c) (hdrop : Droppable s c) :
    PassInv s (pass.drop c) where
  __ := h
  dropped := forall_mem_concat.mpr ⟨h.dropped, hc, hdrop⟩

theorem PassInv.access (h : PassInv s pass) (hstore : StoreInv s) (hp : a.Permitted s o) :
    PassInv (s.access o a) pass :=
  h.grows (s.grows_access o o a) (hstore.steady hp).epoch (hstore.steady hp).attached

/-- **What the pass does with a candidate is permitted, and leads to where it knows
what it has to know.** -/
theorem purgeStep_inv (hstore : StoreInv s) (hstamp : s.stamp .reaper = none)
    (hpass : PassInv s pass) (hcand : CandidateInv s c) (hexpired : Expired pass.publishedEpoch c)
    (hpc : PurgeInv s c pc) :
    (purgeStep s pass c pc).1.Permitted s .reaper ∧
      PhaseInv (s.access .reaper (purgeStep s pass c pc).1) (purgeStep s pass c pc).2 := by
  obtain ⟨heven, hepoch, -⟩ := hcand.spec hstore
  -- an unlocked word that is not the registered one
  have moved : (s.item c.item).word.isLocked ≠ true → (s.item c.item).word ≠ c.deleteCommitTid →
      s.Attached c.item → Droppable s c := by
    intro hfree hne hatt
    refine .inr (.inl (hcand.overwritten hstore hatt ?_))
    rw [TransactionId.base_of_not_isLocked (eq_false_of_ne_true hfree)]
    exact hne
  fun_cases purgeStep s pass c pc with
  | case1 | case5 => exact ⟨trivial, hpass.put hcand⟩
  | case2 | case9 | case11 => exact ⟨trivial, hpass, hcand, hexpired, hpc⟩
  | case3 _ hlocked hsame | case6 _ hsame hlocked =>
    exact ⟨trivial, hpass.drop hcand (moved hlocked hsame hpc)⟩
  | case4 _ hsame =>
    change (s.item c.item).word = _ at hsame
    have hpermitted : (Access.lock c.item).Permitted s .reaper :=
      ⟨hcand.allocated, by rw [hsame]; exact heven, hstamp⟩
    refine ⟨hpermitted, hpass.access hstore hpermitted, hcand.grows (s.grows_access .reaper _ _),
      hexpired, ?_, ?_⟩
    · have hitem : (s.access .reaper (.lock c.item)).item c.item
          = { s.item c.item with
              word := (s.item c.item).word.locked
              holder := some .reaper } := Function.update_self ..
      constructor
      · rw [hitem]
      · rw [hitem, hsame]
    · exact hstore.attached_access hpermitted nofun hpc
  | case7 hinit => exact ⟨trivial, hpass, hcand, hexpired, hpc.1, hpc.2, hinit⟩
  | case8 hinit =>
    exact ⟨trivial, hpass, hcand, hexpired, hpc.1, hpc.2, eq_false_of_ne_true hinit⟩
  -- nobody else unlinks, so what the slot led to when the pass resolved it is still there
  | case10 hgone | case14 hgone => exact absurd (hcand.attached_iff.mp hpc.2.1) hgone
  | case12 hword => exact absurd hpc.1.word hword
  | case13 hindex =>
    obtain ⟨hheld, hatt, hdead⟩ := hpc
    have hpermitted : (Access.unlink c.slot).Permitted s .reaper := by
      refine ⟨rfl, c.item, hindex, hheld.holder, hstamp, hdead, ?_, ?_⟩
      · rw [hheld.word]
        exact hepoch
      · rw [hheld.word]
        exact hexpired.trans hpass.begun
    exact ⟨hpermitted, hpass.access hstore hpermitted, hcand.grows (s.grows_access .reaper _ _),
      hexpired, ⟨hheld.holder, hheld.word⟩,
      fun hatt' => ((Store.attached_unlink _).mp hatt').2 hcand.home⟩
  | case15 => exact ⟨trivial, hpass⟩
  | case16 =>
    obtain ⟨hheld, hdet⟩ := hpc
    have hpermitted : (Access.storeWord c.item c.deleteCommitTid.retired).Permitted s .reaper := by
      refine ⟨hheld.holder, (hstore.detached _ hdet).2, TransactionId.isLocked_retired _, ?_,
        .inr ⟨hdet, fun hwrap => ?_⟩⟩
      · rw [hheld.word]
        rfl
      · obtain ⟨v, hv, htid, -⟩ := hcand.version
        rw [hheld.word, TransactionId.base_locked heven]
        refine TransactionId.val_lt_retired heven ?_
        rw [← htid]
        exact hwrap _ hcand.listed v hv
    exact ⟨hpermitted, hpass.access hstore hpermitted⟩
  | case17 =>
    obtain ⟨⟨hholder, hword⟩, hatt, hlive⟩ := hpc
    have hclean := hstore.clean_of_unstamped hholder hstamp
    have hdrop : Droppable s c := by
      refine .inr (.inr (hcand.revived hstore hatt hclean ?_ hlive))
      rw [hword, TransactionId.base_locked heven]
    have hpermitted : (Access.storeWord c.item c.deleteCommitTid).Permitted s .reaper := by
      refine ⟨hholder, hclean, heven, ?_, .inl ⟨?_, fun _ => hatt⟩⟩
      · rw [hword]
        rfl
      · rw [hword, TransactionId.unlocked_locked heven]
    exact ⟨hpermitted, (hpass.drop hcand hdrop).access hstore hpermitted⟩

/-- The reaper gives back every lock it takes, and takes one at a time. -/
theorem purgeStep_only (hstore : StoreInv s) (hcand : CandidateInv s c)
    (honly : ∀ i, (s.item i).holder = some .reaper → (Reaper.working pass c pc).InHand i)
    {i : ItemId}
    (hheld : ((s.access .reaper (purgeStep s pass c pc).1).item i).holder = some .reaper) :
    (purgeStep s pass c pc).2.InHand i := by
  have hretired : c.deleteCommitTid.retired ≠ .empty :=
    fun heq => (hcand.spec hstore).2.1 (congrArg TransactionId.epoch heq)
  rcases Store.holder_access hheld with ⟨hold, hkept⟩ | ⟨hlock, -⟩
  · -- it was in hand before
    obtain ⟨rfl, hload, hcas⟩ := honly i hold
    cases pc with
    | load => exact absurd rfl hload
    | cas => exact absurd rfl hcas
    | retire =>
      simp only [purgeStep, if_neg hretired] at hkept
      exact absurd rfl hkept
    | unlockCandidate => exact absurd rfl hkept
    | _ =>
      simp only [purgeStep]
      split_ifs <;> exact ⟨rfl, nofun, nofun⟩
  · cases pc with
    | cas =>
      simp only [purgeStep] at hlock ⊢
      split_ifs at hlock ⊢
      cases hlock
      exact ⟨rfl, nofun, nofun⟩
    | _ =>
      simp only [purgeStep] at hlock
      (try split_ifs at hlock) <;> cases hlock

/-- The pass takes no stamp. -/
theorem stamp_purgeStep (pc : Purge) :
    (s.access .reaper (purgeStep s pass c pc).1).stamp = s.stamp := by
  cases pc <;> simp only [purgeStep] <;> (try split_ifs) <;> rfl

/-- What the reaper does to the store: it locks, gives locks back, and unlinks the
candidate in hand. -/
theorem reaperStep_access (h : reaperStep s candidates publishedEpoch r
    = some (a, r', candidates')) :
    a = .idle ∨ (∃ i, a = .lock i) ∨ (∃ i word, a = .storeWord i word) ∨
      ∃ pass c, a = .unlink c.slot ∧ r = .working pass c .purge := by
  revert h
  fun_cases reaperStep s candidates publishedEpoch r with
  | case3 => nofun
  | case7 pass c pc a r hpurge =>
    rintro ⟨⟩
    revert hpurge
    fun_cases purgeStep s pass c pc with
    | case4 =>
      rintro ⟨⟩
      exact .inr (.inl ⟨c.item, rfl⟩)
    | case13 =>
      rintro ⟨⟩
      exact .inr (.inr (.inr ⟨pass, c, rfl, rfl⟩))
    | case16 | case17 =>
      rintro ⟨⟩
      exact .inr (.inr (.inl ⟨c.item, _, rfl⟩))
    | _ =>
      rintro ⟨⟩
      exact .inl rfl
  | _ =>
    rintro ⟨⟩
    exact .inl rfl

theorem reaperStep_quiet (h : reaperStep s candidates publishedEpoch r
    = some (a, r', candidates')) : a.Quiet := by
  rcases reaperStep_access h with rfl | ⟨i, rfl⟩ | ⟨i, word, rfl⟩ | ⟨pass, c, rfl, -⟩ <;> trivial

theorem expired_of_elapsed (h : oneFullEpochElapsed publishedEpoch c = true) :
    Expired publishedEpoch c := by
  unfold oneFullEpochElapsed at h
  simp only [Bool.and_eq_true, decide_eq_true_eq, gt_iff_lt] at h
  obtain ⟨hlt, hone⟩ := h
  rw [UInt32.lt_iff_toNat_lt] at hlt hone
  rw [UInt32.toNat_sub_of_le _ _ (UInt32.le_iff_toNat_le.mpr hlt.le)] at hone
  have hval : (1 : UInt32).toNat = 1 := by decide
  unfold Expired
  omega

/-- **The reaper's accesses are permitted, and it keeps what it knows.** -/
theorem ReaperInv.step (h : ReaperInv s candidates r) (hstore : StoreInv s)
    (hstep : reaperStep s candidates publishedEpoch r = some (a, r', candidates')) :
    a.Permitted s .reaper ∧ ReaperInv (s.access .reaper a) candidates' r' := by
  obtain ⟨hstamp, hqueue, hphase, honly⟩ := h
  cases r with
  | idle =>
    simp only [reaperStep] at hstep
    split at hstep
    · rename_i hle
      split at hstep
      · cases hstep
        exact ⟨trivial, hstamp, hqueue, trivial, honly⟩
      · cases hstep
        refine ⟨trivial, hstamp, fun c hc => hqueue c (List.mem_filter.mp hc).1, ?_,
          fun i hi => (honly i hi).elim⟩
        refine ⟨UInt32.le_iff_toNat_le.mp hle, fun c hc => ?_, nofun, nofun⟩
        obtain ⟨hc, helapsed⟩ := List.mem_filter.mp hc
        exact ⟨hqueue c hc, expired_of_elapsed helapsed⟩
    · cases hstep
  | sweeping pass =>
    simp only [reaperStep] at hstep
    split at hstep
    · cases hstep
      exact ⟨trivial, hstamp, List.forall_mem_append.mpr ⟨hqueue, hphase.requeue⟩, trivial, honly⟩
    · rename_i c ready hready
      obtain ⟨hcand, hexpired⟩ := hphase.ready c (by rw [hready]; exact (.head _))
      have hpass : PassInv s { pass with ready := ready } :=
        ⟨hphase.begun, fun c' hc' => hphase.ready c' (by rw [hready]; exact .tail _ hc'),
          hphase.requeue, hphase.dropped⟩
      split at hstep
      · rename_i hindex
        cases hstep
        exact ⟨trivial, hstamp, hqueue, ⟨hpass, hcand, hexpired, hcand.attached_iff.mpr hindex⟩,
          fun i hi => (honly i hi).elim⟩
      · rename_i hgone
        cases hstep
        exact ⟨trivial, hstamp, hqueue, hpass.drop hcand (.inl hgone), honly⟩
  | working pass c pc =>
    obtain ⟨hpass, hcand, hexpired, hpc⟩ := hphase
    obtain ⟨hpermitted, hphase'⟩ := purgeStep_inv hstore hstamp hpass hcand hexpired hpc
    have heq : some ((purgeStep s pass c pc).1, (purgeStep s pass c pc).2, candidates)
        = some (a, r', candidates') := hstep
    obtain ⟨rfl, rfl, rfl⟩ := heq
    refine ⟨hpermitted, ?_, fun c' hc' => (hqueue c' hc').grows (s.grows_access .reaper _ _),
      hphase', fun i hi => purgeStep_only hstore hcand honly hi⟩
    rw [stamp_purgeStep]
    exact hstamp

end LineairDB.Silo
