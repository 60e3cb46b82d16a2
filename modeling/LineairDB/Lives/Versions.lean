import LineairDB.Lives.Restart

/-!
# Identifiers go up for the whole life of the data

The versions of a slot are published under rising identifiers, by whichever
committers, through deletes, purges and slots that are created anew with an empty
word; and a session that starts behind a crash publishes in epochs above
everything the log holds.

* `SessionInv.access` — within a session the sequence number of a version is
  twice the number of commits to its slot in its epoch.
* `tids_ascending` — the identifiers of the committed versions that the log has
  kept rise in commit order, in every life.
* `lost_identifier_reused` — a version that a crash has lost does not count: its
  identifier can be passed by from below.
-/

namespace LineairDB.Lives

open Silo Transition
open Stateless (Schema oneTable)
open Function (update_self update_of_ne update update_apply)

/-! ## Commits to a slot within an epoch -/

/-- How many of the versions committers have published in the epoch. -/
def commitsIn (versions : List (Owner × Version)) (epoch : EpochNumber) : ℕ :=
  versions.countP fun v => v.1 ≠ .recovery ∧ v.2.tid.epoch = epoch

/-- Fewer than `2 ^ 31 - 1` commits to one slot within one epoch. -/
def Within (s : Store) : Prop :=
  ∀ k ∈ s.slots, ∀ v ∈ s.versions k, commitsIn (s.versions k) v.2.tid.epoch < 2 ^ 31 - 1

instance (s : Store) : Decidable (Within s) := inferInstanceAs (Decidable (∀ _ ∈ _, _))

/-- The sequence number of a version counts the commits of its epoch so far. -/
def Counted (versions : List (Owner × Version)) : Prop :=
  ∀ n v, versions[n]? = some v → v.1 ≠ .recovery →
    v.2.tid.tid.toNat = 2 * commitsIn (versions.take (n + 1)) v.2.tid.epoch % 2 ^ 32

variable {versions : List (Owner × Version)} {v : Owner × Version}

theorem Counted.concat (h : Counted versions) (hv : v.1 ≠ .recovery)
    (hnew : v.2.tid.tid.toNat = 2 * (commitsIn versions v.2.tid.epoch + 1) % 2 ^ 32) :
    Counted (versions ++ [v]) := by
  intro n w hw hw'
  rcases Nat.lt_trichotomy n versions.length with hn | rfl | hn
  · rw [List.getElem?_append_left hn] at hw
    rw [List.take_append_of_le_length hn]
    exact h n w hw hw'
  · rw [List.getElem?_concat_length] at hw
    cases hw
    have hall : (versions ++ [v]).take (versions.length + 1) = versions ++ [v] :=
      List.take_of_length_le (by rw [List.length_append]; exact le_rfl)
    have hone : commitsIn [v] v.2.tid.epoch = 1 := by
      simp [commitsIn, hv]
    have hsplit : commitsIn (versions ++ [v]) v.2.tid.epoch
        = commitsIn versions v.2.tid.epoch + commitsIn [v] v.2.tid.epoch := List.countP_append
    rw [hall, hnew, hsplit, hone]
  · rw [List.getElem?_eq_none (by rw [List.length_append]; exact hn)] at hw
    cases hw

/-- The sequence number a version was published under has room behind it. -/
theorem Counted.room (h : Counted versions) (hv : v ∈ versions) (hv' : v.1 ≠ .recovery)
    (hwithin : commitsIn versions v.2.tid.epoch < 2 ^ 31 - 1) : v.2.tid.tid.toNat < 2 ^ 32 - 2 := by
  obtain ⟨n, hn⟩ := List.mem_iff_getElem?.mp hv
  have hcount := h n v hn hv'
  have hle : commitsIn (versions.take (n + 1)) v.2.tid.epoch ≤ commitsIn versions v.2.tid.epoch :=
    List.Sublist.countP_le (List.take_sublist _ _)
  omega

/-! ## A session -/

/-- What a session adds to what it has recovered: it started in the epoch `start`. -/
structure SessionInv (start : EpochNumber) (s : Store) : Prop where
  epoch : start.toNat ≤ s.epoch.toNat
  commitEpoch : ∀ o st, s.stamp o = some st → start.toNat ≤ (s.commitEpoch o).toNat
  listed : ∀ k, s.versions k ≠ [] → k ∈ s.slots
  recovered : ∀ k, ∀ v ∈ s.versions k, v.1 = .recovery →
    v.2.tid.epoch.toNat < start.toNat ∧ v.2.tid.tid.toNat < 2 ^ 32 - 2
  own : ∀ k, ∀ v ∈ s.versions k, v.1 ≠ .recovery → start.toNat ≤ v.2.tid.epoch.toNat
  counted : ∀ k, Counted (s.versions k)

variable {start : EpochNumber} {s : Store} {o : Owner} {i : ItemId} {word : TransactionId}

/-- No version lies in an epoch in which the slot starts to count anew. -/
theorem commitsIn_eq_zero (hstore : StoreInv s) (hp : (Access.publish i word).Permitted s o)
    (hne : (s.item i).word.epoch ≠ s.commitEpoch o) :
    commitsIn (s.versions (s.item i).home) (s.commitEpoch o) = 0 := by
  obtain ⟨hheld, hstamp, hatt, -⟩ := hp
  obtain ⟨st, hst⟩ := Option.ne_none_iff_exists'.mp hstamp
  have hinv := hstore.attached _ _ hatt
  obtain ⟨hle, hnew⟩ := hinv.bound o st hheld hst
  have hbefore : ∀ v ∈ s.versions (s.item i).home,
      v.2.tid.epoch.toNat < (s.commitEpoch o).toNat := by
    intro v hv
    by_cases hzero : (s.item i).word.epoch = 0
    · exact hnew hzero v hv
    · obtain ⟨w, hlast, htid, -⟩ := hinv.current hzero
      have hlast' := hstore.epoch_le_last hlast hv
      rw [htid, TransactionId.epoch_base] at hlast'
      have hne' : (s.item i).word.epoch.toNat ≠ (s.commitEpoch o).toNat :=
        fun heq => hne (UInt32.toNat_inj.mp heq)
      omega
  refine List.countP_eq_zero.mpr fun v hv hcount => ?_
  have hlt := hbefore v hv
  rw [(of_decide_eq_true hcount).2] at hlt
  exact absurd hlt (Nat.lt_irrefl _)

section

variable (h : SessionInv start s) (hstore : StoreInv s)

include h hstore

/-- **The sequence number that is published is twice the number of commits.** -/
theorem SessionInv.next_count (hp : (Access.publish i word).Permitted s o) :
    word.tid.toNat = 2 * (commitsIn (s.versions (s.item i).home) word.epoch + 1) % 2 ^ 32 := by
  have hepoch := (hstore.epoch_le_next hp).1
  have hzero := commitsIn_eq_zero hstore hp
  obtain ⟨hheld, hstamp, hatt, hword⟩ := hp
  obtain ⟨st, hst⟩ := Option.ne_none_iff_exists'.mp hstamp
  rw [hepoch]
  by_cases hsame : (s.item i).word.epoch = s.commitEpoch o
  · -- the item holds the last version of the epoch
    have hpos : (s.item i).word.epoch ≠ 0 := by
      intro heq
      have hcommit := (hstore.committing o st hst).1
      rw [← hsame, heq] at hcommit
      exact absurd hcommit (Nat.lt_irrefl _)
    obtain ⟨v, hlast, htid, -⟩ := (hstore.attached _ _ hatt).current hpos
    have hv := List.mem_of_getLast? hlast
    have hvepoch : v.2.tid.epoch = s.commitEpoch o := by
      rw [htid, TransactionId.epoch_base, hsame]
    have hown : v.1 ≠ .recovery := by
      intro hrecovery
      have hlt := (h.recovered _ v hv hrecovery).1
      rw [hvepoch] at hlt
      exact absurd hlt (Nat.not_lt.mpr (h.commitEpoch o st hst))
    rw [List.getLast?_eq_getElem?] at hlast
    have hcount := h.counted _ _ v hlast hown
    have hlen : 0 < (s.versions (s.item i).home).length := List.length_pos_of_mem hv
    rw [Nat.sub_add_cancel hlen, List.take_length, hvepoch, htid] at hcount
    have hlocked := TransactionId.toNat_tid_locked (TransactionId.isLocked_base (s.item i).word)
    rw [TransactionId.locked_base (hstore.isLocked_of_held hheld)] at hlocked
    have htid' : word.tid.toNat = ((s.item i).word.tid.toNat + 1) % 2 ^ 32 := by
      rw [hword, TransactionId.next, if_pos hsame]
      exact UInt32.toNat_add _ _
    omega
  · have htwo : word.tid.toNat = 2 := by
      rw [hword, TransactionId.next, if_neg hsame]
      rfl
    rw [hzero hsame, htwo]
    decide

theorem SessionInv.publish (hp : (Access.publish i word).Permitted s o) (ho : o ≠ .recovery) :
    SessionInv start (s.access o (.publish i word)) := by
  have hepoch := (hstore.epoch_le_next hp).1
  have hcount := h.next_count hstore hp
  obtain ⟨hheld, hstamp, hatt, -⟩ := hp
  obtain ⟨st, hst⟩ := Option.ne_none_iff_exists'.mp hstamp
  refine ⟨h.epoch, h.commitEpoch, fun k hne => ?_, fun k v hv hrecovery => ?_,
    fun k v hv hown => ?_, fun k => ?_⟩
  · rcases s.versions_publish o i word k with heq | ⟨rfl, -⟩
    · exact h.listed k (heq ▸ hne)
    · exact hstore.slots _ (by rw [hatt]; exact nofun)
  · rcases Store.mem_versions_publish hv with hv | rfl
    · exact h.recovered k v hv hrecovery
    · exact absurd hrecovery ho
  · rcases Store.mem_versions_publish hv with hv | rfl
    · exact h.own k v hv hown
    · rw [hepoch]
      exact h.commitEpoch o st hst
  · show Counted ((s.publish o i word).versions k)
    rcases s.versions_publish o i word k with heq | ⟨rfl, heq⟩
    · rw [heq]
      exact h.counted k
    · rw [heq]
      exact (h.counted _).concat ho hcount

/-- **What a session adds, it keeps**, whoever moves. -/
theorem SessionInv.access {a : Access}
    (hp : a.Permitted s o) (ho : o ≠ .recovery) : SessionInv start (s.access o a) := by
  have hlisted : ∀ k, s.versions k ≠ [] → k ∈ (s.access o a).slots :=
    fun k hne => s.slots_access o a (h.listed k hne)
  have hepoch := Nat.le_trans h.epoch (hstore.steady hp).epoch
  cases a with
  | publish => exact h.publish hstore hp ho
  | serialize =>
    refine ⟨hepoch, fun o' st hst => ?_, hlisted, h.recovered, h.own, h.counted⟩
    show start.toNat ≤ (update s.commitEpoch o s.epoch o').toNat
    rw [update_apply]
    split_ifs with hoo
    · exact h.epoch
    · refine h.commitEpoch o' st ?_
      rwa [show (s.access o .serialize).stamp o' = s.stamp o' from
        update_of_ne hoo ..] at hst
  | _ => exact ⟨hepoch, h.commitEpoch, hlisted, h.recovered, h.own, h.counted⟩

omit h hstore in
theorem SessionInv.room (h : SessionInv start s) (hwithin : Within s) {k : Slot}
    (hv : v ∈ s.versions k) : v.2.tid.tid.toNat < 2 ^ 32 - 2 := by
  by_cases hrecovery : v.1 = .recovery
  · exact (h.recovered k v hv hrecovery).2
  · have hlisted := h.listed k (List.ne_nil_of_mem hv)
    exact (h.counted k).room hv hrecovery (hwithin k hlisted v hv)

/-- Within a session, what is published goes up. -/
theorem SessionInv.published_ascending
    (hwithin : Within s) (k : Slot) : (published s k).Pairwise fun v w => v.val < w.val := by
  have hwrap : s.NoWrap := fun k _ v hv => h.room hwithin hv
  exact List.pairwise_map.mpr ((hstore.ordered hwrap k).sublist List.filter_sublist)

end

/-! ## From one session to the next -/

/-- The versions a start has are those it has installed. -/
theorem versions_foldl_put {rs : List Recovered} {s : Store} {k : Slot}
    (hv : v ∈ (rs.foldl put s).versions k) :
    v ∈ s.versions k ∨ v.1 = .recovery ∧ ∃ r ∈ rs, r.slot = k ∧ v.2.tid = r.tid := by
  induction rs generalizing s with
  | nil => exact .inl hv
  | cons r rs ih =>
    rcases ih hv with hv | ⟨howner, r', hr', hspec⟩
    · change v ∈ update s.versions r.slot _ k at hv
      rw [update_apply] at hv
      split_ifs at hv with hk
      · rw [List.mem_singleton.mp hv]
        exact .inr ⟨rfl, r, .head _, hk.symm, rfl⟩
      · exact .inl hv
    · exact .inr ⟨howner, r', .tail _ hr', hspec⟩

theorem Booted.sessionInv {epoch : EpochNumber} (h : Booted epoch s)
    (hrecovery : ∀ k, ∀ v ∈ s.versions k, v.1 = .recovery ∧ v.2.tid.tid.toNat < 2 ^ 32 - 2) :
    SessionInv epoch s where
  epoch := by rw [h.epoch_eq]
  commitEpoch o st _ := by
    rw [h.commitEpoch]
    exact le_rfl
  listed k hne := by
    cases hindex : s.index k with
    | none => exact absurd (h.empty k hindex) hne
    | some i => exact (h.filled k i hindex).2.1
  recovered k v hv _ := by
    obtain ⟨i, tid, content, -, -, hearlier, -, rfl, -⟩ := h.version_cases hv
    exact ⟨hearlier.lt, (hrecovery k _ hv).2⟩
  own k v hv hown := absurd (hrecovery k v hv).1 hown
  counted k n v hv hown := absurd (hrecovery k v (List.mem_of_getElem? hv)).1 hown

/-! ## Every life -/

variable {schema : Schema} {l l' : Life}

/-- The log is in order, and lies in epochs before the session. -/
structure Ascends (l : Life) : Prop where
  history : ∀ k, (l.history k).Pairwise fun v w => v.val < w.val
  room : ∀ k, ∀ tid ∈ l.history k, tid.tid.toNat < 2 ^ 32 - 2
  session : ∃ start, SessionInv start l.session.store ∧
    ∀ k, ∀ tid ∈ l.history k, tid.epoch.toNat < start.toNat

theorem Ascends.tids (h : Ascends l) (hinv : LifeInv schema l) (hwithin : Within l.session.store)
    (k : Slot) : (l.tids k).Pairwise fun v w => v.val < w.val := by
  obtain ⟨start, hsession, hbefore⟩ := h.session
  refine List.pairwise_append.mpr ⟨h.history k,
    hsession.published_ascending hinv.system.store hwithin k, fun v hv w hw => ?_⟩
  obtain ⟨x, hx, rfl⟩ := List.mem_map.mp hw
  obtain ⟨hx, hown⟩ := List.mem_filter.mp hx
  refine TransactionId.val_lt_of_epoch_lt (Nat.lt_of_lt_of_le (hbefore k v hv) ?_)
  exact hsession.own k x hx (of_decide_eq_true hown)

theorem Ascends.tids_room (h : Ascends l) (hwithin : Within l.session.store) {k : Slot}
    {tid : TransactionId} (htid : tid ∈ l.tids k) : tid.tid.toNat < 2 ^ 32 - 2 := by
  obtain ⟨start, hsession, -⟩ := h.session
  rcases List.mem_append.mp htid with htid | htid
  · exact h.room k tid htid
  · obtain ⟨v, hv, rfl⟩ := List.mem_map.mp htid
    exact hsession.room hwithin (List.mem_filter.mp hv).1

/-- **One step of a life**, taken with fewer than `2 ^ 31 - 1` commits per slot and epoch. -/
theorem Ascends.next (h : Ascends l) (hinv : LifeInv schema l) (hwithin : Within l.session.store)
    {action : LifeAction} (hnext : l.next schema action = some l') : Ascends l' := by
  rcases Life.next_cases hnext with ⟨a, session, -, hstep, rfl⟩ |
    ⟨frontier, epoch, recoverySet, installed, hrecovers, hepoch, hinstalled, rfl⟩
  · obtain ⟨start, hsession, hbefore⟩ := h.session
    refine ⟨h.history, h.room, start, ?_, hbefore⟩
    have hstore := hinv.system.store
    cases Party.effect hstep with
    | @party t choice a phase candidates hparty =>
      obtain ⟨hp, -⟩ := (contract schema).step hstore (hinv.system.party t) hparty
      exact hsession.access hstore hp nofun
    | @reap publishedEpoch a reaper candidates hreap =>
      obtain ⟨hp, -⟩ := hinv.system.reaper.step hstore hreap
      exact hsession.access hstore hp nofun
    | advanceEpoch hbelow =>
      exact hsession.access (o := .reaper) (a := .advanceEpoch) hstore (room_of_lt hbelow) nofun
  · refine ⟨fun k => (h.tids hinv hwithin k).sublist List.filter_sublist, fun k tid htid => ?_,
      epoch, ?_, fun k tid htid => (hinv.survivors hepoch htid).lt⟩
    · exact h.tids_room hwithin (List.mem_filter.mp htid).1
    · refine (hinv.booted hrecovers hepoch hinstalled).sessionInv fun k v hv => ?_
      rcases versions_foldl_put hv with hv | ⟨howner, r, hr, -, htid⟩
      · cases hv
      · refine ⟨howner, ?_⟩
        rw [htid]
        have hsurvives := (hrecovers.2 r (hinstalled.subset hr)).2
        exact h.tids_room hwithin (List.mem_filter.mp hsurvives).1

/-- **Identifiers go up for the whole life of the data.** In every life of native
transactions, stateless requests, the reaper, crashes and restarts, in which fewer than
`2 ^ 31 - 1` commits go to one slot within one epoch, the identifiers of the committed
versions of every slot that no crash has lost rise strictly in commit order. -/
theorem tids_ascending {actions : List LifeAction}
    (hrun : run (Life.next schema) (Life.initial schema) actions = some l)
    (halong : Along (Life.next schema) (fun l _ => Within l.session.store) (Life.initial schema)
      actions) (hwithin : Within l.session.store) (k : Slot) : (l.tids k).Pairwise (· < ·) := by
  have hboth : LifeInv schema l ∧ Ascends l := by
    refine Along.invariant (P := fun l => LifeInv schema l ∧ Ascends l) ?_ ⟨?_, ?_⟩ halong hrun
    · exact fun h hwithin hnext => ⟨h.1.next hnext, h.2.next h.1 hwithin hnext⟩
    · exact lifeInv_run (show run _ _ [] = some _ from rfl)
    · refine ⟨fun _ => List.Pairwise.nil, nofun, 1, ?_,
        nofun⟩
      exact ⟨le_rfl, fun _ _ hst => (by cases hst), fun _ hne => absurd rfl hne, nofun, nofun,
        fun _ _ _ hv => (by cases hv)⟩
  exact (hboth.2.tids hboth.1 hwithin k).imp TransactionId.lt_iff_val.mpr

/-- A row is written, recovered after a crash, deleted, purged and created anew. -/
def rowLife : List LifeAction :=
  nativeWrite 0 [1] [1] [7] ++ [.restart true 1 [⟨.row [1] [1], ⟨1, 2⟩, ⟨[7], []⟩⟩]] ++
  statelessWrites 0 [⟨[1], [1], [], true, false⟩] 19 ++ epochs 2 ++ reaps 4 12 ++
  nativeWrite 1 [1] [1] [9]

/-- The end of the run. -/
def rowLifeState : Life :=
  (run (Life.next oneTable) (Life.initial oneTable) rowLife).get (by decide +kernel)

theorem tids_ascending_purged :
    rowLifeState.tids (.row [1] [1]) = [⟨1, 2⟩, ⟨2, 2⟩, ⟨4, 2⟩] ∧
      (rowLifeState.tids (.row [1] [1])).Pairwise (· < ·) :=
  ⟨by decide +kernel,
    tids_ascending (Option.some_get _).symm (by decide +kernel) (by decide +kernel)
      (.row [1] [1])⟩

/-! ## A lost version -/

/-- A row is written in the third epoch, and nothing has reached the log. -/
def lostLife : List LifeAction := epochs 2 ++ nativeWrite 0 [1] [1] [7]

/-- The session behind the crash writes the row again. -/
def afterLoss : List LifeAction := .restart true 0 [] :: nativeWrite 0 [1] [1] [9]

/-- The state before the crash. -/
def lostLifeState : Life :=
  (run (Life.next oneTable) (Life.initial oneTable) lostLife).get (by decide +kernel)

/-- The end of the run. -/
def afterLossState : Life :=
  (run (Life.next oneTable) lostLifeState afterLoss).get (by decide +kernel)

/-- **A committed version that a crash has lost is passed by from below**: the session behind
the crash starts in an epoch at which the log ends, not the last session. -/
theorem lost_identifier_reused :
    ∃ before after l l', run (Life.next oneTable) (Life.initial oneTable) before = some l ∧
      run (Life.next oneTable) l after = some l' ∧
      Along (Life.next oneTable) (fun l _ => Within l.session.store) (Life.initial oneTable)
        (before ++ after) ∧
      published l.session.store (.row [1] [1]) = [⟨3, 2⟩] ∧
      published l'.session.store (.row [1] [1]) = [⟨2, 2⟩] ∧
      (⟨2, 2⟩ : TransactionId) < ⟨3, 2⟩ :=
  ⟨lostLife, afterLoss, lostLifeState, afterLossState, (Option.some_get _).symm,
    (Option.some_get _).symm, by decide +kernel, by decide +kernel,
    by decide +kernel, by decide +kernel⟩

end LineairDB.Lives
