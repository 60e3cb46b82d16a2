import Mathlib.Data.List.TakeWhile
import LineairDB.Durability.Epochs

/-!
# What the flusher settles

Every record the threads enqueue is in the log, in the carried buckets, in a
buffer or dropped by a flusher that failed; and what is not in the log lies
above the epoch the flusher has settled.

* `Settled` — the order between epochs: settled, then everything outside the
  log, then the threads that are online.
* `Accounted` — where the records are.
* `Logged` — what stands in the file.
-/

namespace LineairDB.Recovery

variable {buckets : Buckets} {target : EpochNumber}

/-! ## Buckets -/

/-- Every bucket holds records, all of its own epoch. -/
def WellBucketed (entries : List (EpochNumber × LogRecords)) : Prop :=
  ∀ b ∈ entries, b.2 ≠ [] ∧ ∀ record ∈ b.2, record.epoch = b.1

theorem WellBucketed.insertRecord {entries : List (EpochNumber × LogRecords)}
    (h : WellBucketed entries) (record : LogRecord) :
    WellBucketed (insertRecord record entries) := by
  induction entries with
  | nil =>
    intro b hb
    rw [Recovery.insertRecord, List.mem_singleton] at hb
    subst hb
    simp
  | cons c rest ih =>
    obtain ⟨hc, hrest⟩ := List.forall_mem_cons.mp h
    rw [Recovery.insertRecord]
    split_ifs with hlt heq
    · exact List.forall_mem_cons.mpr ⟨by simp, h⟩
    · exact List.forall_mem_cons.mpr ⟨⟨by simp, forall_mem_concat.mpr ⟨hc.2, heq⟩⟩, hrest⟩
    · exact List.forall_mem_cons.mpr ⟨hc, ih hrest⟩

theorem bucketRecords_insertRecord (record : LogRecord)
    (entries : List (EpochNumber × LogRecords)) :
    (bucketRecords (insertRecord record entries)).Perm (record :: bucketRecords entries) := by
  induction entries with
  | nil => simp [insertRecord, bucketRecords]
  | cons c rest ih =>
    rw [insertRecord]
    split_ifs
    · exact List.Perm.refl _
    · show ((c.2 ++ [record]) ++ bucketRecords rest).Perm (record :: (c.2 ++ bucketRecords rest))
      rw [List.append_assoc]
      exact List.perm_middle
    · exact (ih.append_left c.2).trans List.perm_middle

theorem WellBucketed.addAll (h : WellBucketed buckets.entries) (records : LogRecords) :
    WellBucketed (buckets.addAll records).entries := by
  induction records generalizing buckets with
  | nil => exact h
  | cons r records ih =>
    have hadd : WellBucketed (buckets.add r).entries := h.insertRecord r
    exact ih hadd

theorem bucketRecords_addAll (buckets : Buckets) (records : LogRecords) :
    (bucketRecords (buckets.addAll records).entries).Perm
      (bucketRecords buckets.entries ++ records) := by
  induction records generalizing buckets with
  | nil => rw [List.append_nil]; exact List.Perm.refl _
  | cons r records ih =>
    refine (ih (buckets.add r)).trans ?_
    refine ((bucketRecords_insertRecord r buckets.entries).append_right records).trans ?_
    exact List.perm_middle.symm

/-- A write splits the carried buckets in two. -/
theorem Buckets.upTo_append_eraseThrough (buckets : Buckets) (target : EpochNumber) :
    buckets.upTo target ++ (buckets.eraseThrough target).entries = buckets.entries :=
  List.takeWhile_append_dropWhile

theorem Buckets.lt_of_mem_eraseThrough {b : EpochNumber × LogRecords}
    (h : b ∈ (buckets.eraseThrough target).entries) : target < b.1 := by
  obtain ⟨entries, hasc⟩ := buckets
  dsimp only [eraseThrough] at h
  induction entries with
  | nil => cases h
  | cons c rest ih =>
    obtain ⟨hhead, htail⟩ := List.pairwise_cons.mp hasc
    rw [List.dropWhile_cons] at h
    split at h
    · exact ih htail h
    · rename_i hc
      have hlt : target < c.1 := UInt32.not_le.mp (by simpa using hc)
      rcases List.mem_cons.mp h with rfl | hb
      · exact hlt
      · exact UInt32.lt_trans hlt (hhead b hb)

theorem Buckets.le_of_mem_upTo {b : EpochNumber × LogRecords} (h : b ∈ buckets.upTo target) :
    b.1 ≤ target := by
  simpa using List.mem_takeWhile_imp h

theorem mem_bucketRecords {entries : List (EpochNumber × LogRecords)} {record : LogRecord} :
    record ∈ bucketRecords entries ↔ ∃ b ∈ entries, record ∈ b.2 := List.mem_flatMap

/-- The last of some buckets lies within a bound they all respect. -/
theorem lastBucket_le {e : EpochNumber} {bs : List (EpochNumber × LogRecords)} (he : e ≤ target)
    (hbs : ∀ b ∈ bs, b.1 ≤ target) : lastBucket e bs ≤ target := by
  induction bs generalizing e with
  | nil => exact he
  | cons b bs ih =>
    obtain ⟨hb, hrest⟩ := List.forall_mem_cons.mp hbs
    exact ih hb hrest

end LineairDB.Recovery

namespace LineairDB.Durability

open Recovery ByteFile FaultyIo

variable {mp : Msgpack} {s s' : State} {t : ThreadId} {base : Bytes}

open Function (update_self update_of_ne update_eq_self update update_apply)

/-! ## What the flusher's steps do -/

/-- The effects of a step of the flusher, or of the thread that stops it. -/
inductive FlusherEffect (mp : Msgpack) (s : State) : State → Prop
  | beginRound (hwaiting : s.flusher = .waiting) (hmore : s.durableEpoch < s.pendingClosed) :
      FlusherEffect mp s { s with flusher := .collecting s.pendingClosed }
  | leave (hwaiting : s.flusher = .waiting) : FlusherEffect mp s { s with flusher := .exited }
  | collect {target : EpochNumber} (hcollecting : s.flusher = .collecting target) :
      FlusherEffect mp s { s with flusher := .draining target s.durableEpoch s.nodes }
  | late {target durableBefore : EpochNumber} {t : ThreadId} {rest : List ThreadId}
      {record : LogRecord} (hdraining : s.flusher = .draining target durableBefore (t :: rest))
      (hrecord : record ∈ s.queue t) (hlate : record.epoch ≤ durableBefore) :
      FlusherEffect mp s (s.abort .lateRecord)
  | drain {target durableBefore : EpochNumber} {t : ThreadId} {rest : List ThreadId}
      (hdraining : s.flusher = .draining target durableBefore (t :: rest)) :
      FlusherEffect mp s
        { s with
          queue := update s.queue t []
          carry := s.carry.addAll (s.queue t)
          flusher := .draining target durableBefore rest }
  | drainThrows {target durableBefore : EpochNumber} {t : ThreadId} {rest : List ThreadId} (n : ℕ)
      (hdraining : s.flusher = .draining target durableBefore (t :: rest)) :
      FlusherEffect mp s
        { s with
          queue := update s.queue t []
          carry := s.carry.addAll ((s.queue t).take n)
          dropped := s.dropped ++ (s.queue t).drop n
          flusher := .failing .eio }
  | appended {target durableBefore : EpochNumber} {dev dev' : Device} {wal' : Wal}
      (hdraining : s.flusher = .draining target durableBefore []) (hdev : dev.file = s.dev.file)
      (hok : appendGroup mp s.wal dev s.carry target = ⟨.ok, wal', dev'⟩) :
      FlusherEffect mp s
        { s with
          wal := wal'
          dev := dev'
          carry := s.carry.eraseThrough target
          synced := s.synced ++ s.carry.upTo target
          flusher := .publishing target }
  | appendFailed {target durableBefore : EpochNumber} {dev dev' : Device} {wal' : Wal} {e : Errno}
      (hdraining : s.flusher = .draining target durableBefore []) (hdev : dev.file = s.dev.file)
      (herror : appendGroup mp s.wal dev s.carry target = ⟨.error e, wal', dev'⟩) :
      FlusherEffect mp s { s with wal := wal', dev := dev', flusher := .failing e }
  | unready {target durableBefore : EpochNumber} {dev dev' : Device} {wal' : Wal}
      (hdraining : s.flusher = .draining target durableBefore []) (hdev : dev.file = s.dev.file)
      (habort : appendGroup mp s.wal dev s.carry target = ⟨.abort, wal', dev'⟩) :
      FlusherEffect mp s (State.abort { s with wal := wal', dev := dev' } .unreadyAppend)
  | appendThrows {target durableBefore : EpochNumber}
      (hdraining : s.flusher = .draining target durableBefore []) :
      FlusherEffect mp s { s with flusher := .failing .eio }
  | backwards {target : EpochNumber} (hpublishing : s.flusher = .publishing target) :
      FlusherEffect mp s (s.abort .durableBackwards)
  | unpublished {target : EpochNumber} (hpublishing : s.flusher = .publishing target)
      (hstopped : s.loggerState ≠ .running) :
      FlusherEffect mp s { s with flusher := .waiting }
  | publish {target : EpochNumber} (hpublishing : s.flusher = .publishing target) :
      FlusherEffect mp s { s with durableEpoch := target, flusher := .waiting }
  | fail {e : Errno} (hfailing : s.flusher = .failing e) (aborted : Option Abort)
      (haborted : aborted = s.aborted ∨ aborted = some .failStop) :
      FlusherEffect mp s
        { s with failed := true, loggerState := .failed, flusher := .exited, aborted := aborted }
  | requestStop : FlusherEffect mp s { s with stopRequested := true }
  | publishStopped (state : LoggerState) (hexited : s.flusher = .exited) :
      FlusherEffect mp s { s with loggerState := state }

theorem flusherStep_effect {a : FlusherAction} (h : flusherStep mp s a = some s') :
    FlusherEffect mp s s' := by
  revert h
  fun_cases flusherStep mp s a with
  | case1 hwaiting | case3 hwaiting =>
    rintro ⟨⟩
    exact .leave hwaiting
  | case2 hwaiting _ _ hmore =>
    rintro ⟨⟩
    exact .beginRound hwaiting hmore
  | case6 _ hcollecting =>
    rintro ⟨⟩
    exact .collect hcollecting
  | case8 throwsAfter _ _ _ _ hdraining _ _ hlate =>
    rintro ⟨⟩
    obtain ⟨record, hmem, hepoch⟩ := List.any_eq_true.mp hlate
    exact .late hdraining (List.mem_of_mem_take hmem) (by simpa using hepoch)
  | case9 throwsAfter _ _ _ _ hdraining _ bucketed =>
    rintro ⟨⟩
    cases throwsAfter with
    | none =>
      have hdrain : FlusherEffect mp s _ := .drain hdraining
      simpa [bucketed] using hdrain
    | some n => exact .drainThrows n hdraining
  | case11 _ _ _ hdraining hdev _ _ hok =>
    rintro ⟨⟩
    exact .appended hdraining hdev (by rw [← hok])
  | case12 _ _ _ hdraining hdev _ _ _ herror =>
    rintro ⟨⟩
    exact .appendFailed hdraining hdev (by rw [← herror])
  | case13 _ _ _ hdraining hdev _ _ habort =>
    rintro ⟨⟩
    exact .unready hdraining hdev (by rw [← habort])
  | case16 _ _ hdraining =>
    rintro ⟨⟩
    exact .appendThrows hdraining
  | case18 _ hpublishing =>
    rintro ⟨⟩
    exact .backwards hpublishing
  | case19 _ hpublishing _ hstopped =>
    rintro ⟨⟩
    exact .unpublished hpublishing hstopped
  | case20 _ hpublishing =>
    rintro ⟨⟩
    exact .publish hpublishing
  | case22 _ hfailing =>
    rintro ⟨⟩
    exact .fail hfailing _ (.inr rfl)
  | case23 _ hfailing =>
    intro h
    rw [← Option.some.inj h]
    exact .fail hfailing _ (.inl rfl)
  | case25 =>
    rintro ⟨⟩
    exact .requestStop
  | case26 hexited =>
    rintro ⟨⟩
    exact .publishStopped _ hexited
  | _ => nofun

/-! ## The invariants -/

/-- The epoch through which everything is in the log: the durable epoch, or the
target of an append that succeeded and is about to be published. -/
def State.settled (s : State) : EpochNumber :=
  match s.flusher with
  | .publishing target => target
  | _ => s.durableEpoch

/-- The target of the round under way. -/
def Flusher.target? : Flusher → Option EpochNumber
  | .collecting target => some target
  | .draining target _ _ => some target
  | .publishing target => some target
  | _ => none

/-- The flusher can still append. -/
def Flusher.Live : Flusher → Prop
  | .failing _ => False
  | .exited => False
  | _ => True

/-- A record that has been enqueued and is in no frame. -/
def State.Outside (s : State) (record : LogRecord) : Prop :=
  record ∈ bucketRecords s.carry.entries ∨ (∃ t, record ∈ s.queue t) ∨ record ∈ s.dropped

/-- The order between epochs. -/
structure Settled (s : State) : Prop where
  settled_lt : s.settled.toNat < s.globalEpoch.toNat
  online : ∀ t e records, s.thread t = .online e records → s.settled.toNat < e.toNat
  outside : ∀ record, s.Outside record → s.settled.toNat < record.epoch.toNat
  target : ∀ target, s.flusher.target? = some target →
    s.durableEpoch.toNat < target.toNat ∧ target.toNat + 2 ≤ s.globalEpoch.toNat
  before : ∀ target durableBefore rest, s.flusher = .draining target durableBefore rest →
    durableBefore = s.durableEpoch
  /-- A record at or below the target is still to be drained, if it is in a
  buffer at all. -/
  drained : ∀ target durableBefore rest, s.flusher = .draining target durableBefore rest →
    ∀ t, ∀ record ∈ s.queue t, record.epoch.toNat ≤ target.toNat → t ∈ rest

/-- The records still in a buffer. -/
def State.buffered (s : State) : Multiset LogRecord :=
  (s.nodes.map fun t => (s.queue t : Multiset LogRecord)).sum

/-- Where the records are. -/
structure Accounted (s : State) : Prop where
  nodup : s.nodes.Nodup
  node : ∀ t, s.queue t ≠ [] → t ∈ s.nodes
  bucketed : WellBucketed s.carry.entries
  kept : s.flusher.Live → s.dropped = []
  balance : (s.enqueued : Multiset LogRecord)
    = bucketRecords s.synced + bucketRecords s.carry.entries + s.buffered + s.dropped
  session : ∀ t e records, s.thread t = .online e records ∨ s.thread t = .awaiting e records →
    ∀ record ∈ records, record ∈ s.enqueued ∧ record.epoch = e

/-- What stands in the file behind the bytes the log was opened with. -/
structure Logged (mp : Msgpack) (base : Bytes) (s : State) : Prop where
  running : s.flusher ≠ .exited → s.loggerState = .running
  stands : base ++ bucketBytes mp s.synced <+: s.dev.file
  behind : s.flusher.Live → Behind s.wal s.dev.file (base ++ bucketBytes mp s.synced)
  frontier : s.flusher.Live → s.wal.frontier.toNat ≤ s.settled.toNat

theorem State.settled_eq (h : ∀ target, s.flusher ≠ .publishing target) :
    s.settled = s.durableEpoch := by
  unfold State.settled
  split
  · rename_i target heq
    exact absurd heq (h target)
  · rfl

/-! ## The order is preserved -/

/-- Threads come online above what is settled, and enqueue there. -/
theorem Settled.thread (hepochs : EpochsInv s) (h : Settled s) (heffect : ThreadEffect s t s') :
    Settled s' := by
  have keep : ∀ th : Thread, (∀ e records, th = .online e records → s.settled.toNat < e.toNat) →
      ∀ u e records, update s.thread t th u = .online e records → s.settled.toNat < e.toNat := by
    intro th hth u e records hu
    rw [update_apply] at hu
    split_ifs at hu with hut
    · subst hut
      exact hth e records hu
    · exact h.online u e records hu
  cases heffect with
  | registerSlot | registerNode | notDurable => exact { h with }
  | loadEpoch | storeEpoch | republish | goOffline
  | goAwait | acknowledge =>
    exact { h with online := keep _ (by simp) }
  | goOnline =>
    refine { h with online := keep _ ?_ }
    intro e records he
    cases he
    exact h.settled_lt
  | nothingToPersist => exact h
  | @enqueue epoch records record honline hepoch hnode =>
    have habove : s.settled.toNat < record.epoch.toNat := hepoch ▸ h.online t epoch records honline
    have hqueue : ∀ u r, r ∈ update s.queue t (s.queue t ++ [record]) u →
        r ∈ s.queue u ∨ r = record := by
      intro u r hr
      by_cases hut : u = t
      · subst hut
        rw [update_self, List.mem_append, List.mem_singleton] at hr
        exact hr
      · rw [update_of_ne hut] at hr
        exact .inl hr
    refine ⟨h.settled_lt, keep _ ?_, ?_, h.target, h.before, ?_⟩
    · intro e rs he
      cases he
      exact h.online t _ _ honline
    · rintro r (hr | ⟨u, hr⟩ | hr)
      · exact h.outside r (.inl hr)
      · rcases hqueue u r hr with hr | rfl
        · exact h.outside r (.inr (.inl ⟨u, hr⟩))
        · exact habove
      · exact h.outside r (.inr (.inr hr))
    · intro target durableBefore rest hdraining u r hr hle
      rcases hqueue u r hr with hr | rfl
      · exact h.drained target durableBefore rest hdraining u r hr hle
      · -- a thread that is online enqueues above every target
        exfalso
        have htarget := h.target target (by rw [show s.flusher = _ from hdraining]; rfl)
        have hlag := hepochs.lag t epoch records honline
        rw [hepoch] at hle
        omega

/-- The global epoch only moves away. -/
theorem Settled.writer (h : Settled s) (heffect : WriterEffect s s') : Settled s' := by
  cases heffect with
  | tick | loadSlot | stay | highWater
  | schedule | stop => exact { h with }
  | advance hscan hmin hbelow =>
    rw [UInt32.lt_iff_toNat_lt, kEpochHighWater_toNat] at hbelow
    have hnext : (s.globalEpoch + 1).toNat = s.globalEpoch.toNat + 1 := toNat_succ hbelow
    have hlt := h.settled_lt
    refine ⟨?_, h.online, h.outside, ?_, h.before, h.drained⟩
    · show s.settled.toNat < (s.globalEpoch + 1).toNat
      omega
    · intro target htarget
      have := h.target target htarget
      show _ ∧ _ ≤ (s.globalEpoch + 1).toNat
      exact ⟨this.1, by omega⟩

/-- Draining a buffer moves its records, it makes none. -/
theorem outside_of_drained {taken rest : LogRecords} (hsplit : s.queue t = taken ++ rest)
    {record : LogRecord} (h : record ∈ bucketRecords (s.carry.addAll taken).entries ∨
      (∃ u, record ∈ update s.queue t [] u) ∨ record ∈ s.dropped ++ rest) : s.Outside record := by
  rcases h with hcarry | ⟨u, hqueue⟩ | hdropped
  · rw [(bucketRecords_addAll s.carry taken).mem_iff, List.mem_append] at hcarry
    rcases hcarry with hcarry | htaken
    · exact .inl hcarry
    · exact .inr (.inl ⟨t, hsplit ▸ List.mem_append_left _ htaken⟩)
  · rw [update_apply] at hqueue
    split_ifs at hqueue with hut
    · subst hut
      cases hqueue
    · exact .inr (.inl ⟨u, hqueue⟩)
  · rcases List.mem_append.mp hdropped with hdropped | hrest
    · exact .inr (.inr hdropped)
    · exact .inr (.inl ⟨t, hsplit ▸ List.mem_append_right _ hrest⟩)

/-- A round that is written settles its epochs: the buckets that stay and the buffers lie
above the target. -/
theorem Settled.appended {target durableBefore : EpochNumber} {dev' : Device} {wal' : Wal}
    (hepochs : EpochsInv s) (haccounted : Accounted s) (h : Settled s)
    (hdraining : s.flusher = .draining target durableBefore []) :
    Settled
      { s with
        wal := wal'
        dev := dev'
        carry := s.carry.eraseThrough target
        synced := s.synced ++ s.carry.upTo target
        flusher := .publishing target } := by
  obtain ⟨habove, hclosed⟩ := h.target target (by rw [hdraining]; rfl)
  have hlive : s.flusher.Live := by rw [hdraining]; trivial
  refine ⟨?_, ?_, ?_, ?_, by simp, by simp⟩
  · show target.toNat < s.globalEpoch.toNat
    omega
  · intro t e records ht
    have hlag := hepochs.lag t e records ht
    show target.toNat < e.toNat
    omega
  · show ∀ record : LogRecord, _ → target.toNat < record.epoch.toNat
    rintro record (hcarry | ⟨t, hqueue⟩ | hdropped)
    · obtain ⟨b, hb, hrecord⟩ := mem_bucketRecords.mp hcarry
      have hbucket : b ∈ s.carry.entries := (List.dropWhile_sublist _).subset hb
      rw [(haccounted.bucketed b hbucket).2 record hrecord, ← UInt32.lt_iff_toNat_lt]
      exact Buckets.lt_of_mem_eraseThrough hb
    · by_contra hle
      exact absurd (h.drained _ _ _ hdraining t record hqueue (by omega)) List.not_mem_nil
    · rw [show s.dropped = [] from haccounted.kept hlive] at hdropped
      cases hdropped
  · intro target' heq
    cases heq
    exact ⟨habove, hclosed⟩

/-- **The flusher settles an epoch only when nothing at or below it is outside
the log.** -/
theorem Settled.flusher (hepochs : EpochsInv s) (haccounted : Accounted s)
    (hlogged : Logged mp base s) (h : Settled s) (heffect : FlusherEffect mp s s') :
    Settled s' := by
  cases heffect with
  | beginRound hwaiting hmore =>
    have hs : s.settled = s.durableEpoch := State.settled_eq (by simp [hwaiting])
    rw [UInt32.lt_iff_toNat_lt] at hmore
    refine ⟨hs ▸ h.settled_lt, hs ▸ h.online, hs ▸ h.outside, ?_, by simp, by simp⟩
    intro target htarget
    cases htarget
    have hclosed : s.pendingClosed.toNat + 2 ≤ s.globalEpoch.toNat := by
      rcases hepochs.closed with hzero | hclosed
      · omega
      · exact hclosed
    exact ⟨hmore, hclosed⟩
  | @collect target hcollecting =>
    have hs : s.settled = s.durableEpoch := State.settled_eq (by simp [hcollecting])
    have htarget := h.target target (by rw [hcollecting]; rfl)
    refine ⟨hs ▸ h.settled_lt, hs ▸ h.online, hs ▸ h.outside, ?_, ?_, ?_⟩
    · intro target' heq
      cases heq
      exact htarget
    · intro target' durableBefore rest heq
      cases heq
      rfl
    · intro target' durableBefore rest heq t record hrecord _
      cases heq
      exact haccounted.node t (List.ne_nil_of_mem hrecord)
  | late | unready | backwards
  | requestStop | publishStopped => exact { h with }
  | @drain target durableBefore t rest hdraining =>
    have hs : s.settled = s.durableEpoch := State.settled_eq (by simp [hdraining])
    have htarget := h.target target (by rw [hdraining]; rfl)
    refine ⟨hs ▸ h.settled_lt, hs ▸ h.online, ?_, ?_, ?_, ?_⟩
    · intro record hout
      rw [State.Outside] at hout
      have hsplit : s.queue t = s.queue t ++ [] := (List.append_nil _).symm
      have hsame : s.Outside record := outside_of_drained hsplit (by simpa using hout)
      exact hs ▸ h.outside record hsame
    · intro target' heq
      cases heq
      exact htarget
    · intro target' durableBefore' rest' heq
      cases heq
      exact h.before _ _ _ hdraining
    · intro target' durableBefore' rest' heq u record hrecord hle
      cases heq
      by_cases hut : u = t
      · subst hut
        simp at hrecord
      · have hqueue : record ∈ s.queue u := by simpa [update_of_ne hut] using hrecord
        rcases List.mem_cons.mp (h.drained _ _ _ hdraining u record hqueue hle) with heq | hmem
        · exact absurd heq hut
        · exact hmem
  | @drainThrows target durableBefore t rest n hdraining =>
    have hs : s.settled = s.durableEpoch := State.settled_eq (by simp [hdraining])
    refine ⟨hs ▸ h.settled_lt, hs ▸ h.online, ?_, by simp [Flusher.target?], by simp, by simp⟩
    intro record hout
    have hsame : s.Outside record := outside_of_drained (List.take_append_drop n _).symm hout
    exact hs ▸ h.outside record hsame
  | appended hdraining => exact h.appended hepochs haccounted hdraining
  | leave hat | appendFailed hat | appendThrows hat | fail hat =>
    have hs : s.settled = s.durableEpoch := State.settled_eq (by simp [hat])
    exact ⟨hs ▸ h.settled_lt, hs ▸ h.online, hs ▸ h.outside, by simp [Flusher.target?], by simp,
      by simp⟩
  | unpublished hpublishing hstopped =>
    exact absurd (hlogged.running (by simp [hpublishing])) hstopped
  | @publish target hpublishing =>
    have hs : s.settled = target := by simp [State.settled, hpublishing]
    exact ⟨hs ▸ h.settled_lt, hs ▸ h.online, hs ▸ h.outside, by simp [Flusher.target?], by simp,
      by simp⟩

/-! ## The records are preserved -/

/-- Changing one summand of a sum over distinct indices. -/
theorem sum_map_update {ι M : Type} [DecidableEq ι] [AddCommMonoid M] {l : List ι} {i : ι}
    (hnodup : l.Nodup) (hi : i ∈ l) (f : ι → M) (m : M) :
    (l.map (update f i m)).sum + f i = (l.map f).sum + m := by
  induction l with
  | nil => cases hi
  | cons j l ih =>
    obtain ⟨hj, hl⟩ := List.nodup_cons.mp hnodup
    rw [List.map_cons, List.sum_cons, List.map_cons, List.sum_cons]
    by_cases hij : i = j
    · subst hij
      have hrest : l.map (update f i m) = l.map f :=
        List.map_congr_left fun k hk => update_of_ne (by rintro rfl; exact hj hk) _ _
      rw [update_self, hrest]
      ac_rfl
    · have hmem : i ∈ l := (List.mem_cons.mp hi).resolve_left hij
      rw [update_of_ne (Ne.symm hij), add_assoc, ih hl hmem, add_assoc]

/-- Replacing one buffer. -/
theorem buffered_update (hnodup : s.nodes.Nodup) (ht : t ∈ s.nodes) (records : LogRecords) :
    State.buffered { s with queue := update s.queue t records } + s.queue t
      = s.buffered + records := by
  have hmap : (fun u => ((update s.queue t records u : LogRecords) : Multiset LogRecord))
      = update (fun u => (s.queue u : Multiset LogRecord)) t records := by
    funext u
    by_cases hut : u = t
    · subst hut
      rw [update_self, update_self]
    · rw [update_of_ne hut, update_of_ne hut]
  show (s.nodes.map fun u => ((update s.queue t records u : LogRecords) :
    Multiset LogRecord)).sum + _ = _
  rw [hmap]
  exact sum_map_update hnodup ht _ _

/-- Emptying one buffer, registered or not. -/
theorem Accounted.buffered_drained (h : Accounted s) (t : ThreadId) :
    State.buffered { s with queue := update s.queue t [] } + s.queue t = s.buffered := by
  by_cases ht : t ∈ s.nodes
  · exact (buffered_update h.nodup ht []).trans (add_zero _)
  · have hempty : s.queue t = [] := by
      by_contra hne
      exact ht (h.node t hne)
    have hsame : update s.queue t [] = s.queue := by
      rw [← hempty]
      exact update_eq_self t s.queue
    rw [hsame, hempty]
    exact add_zero _

/-- What a session has enqueued stays enqueued while its thread moves on. -/
theorem Accounted.session_update (h : Accounted s) {th : Thread} {more : LogRecords}
    (hth : ∀ e records, th = .online e records ∨ th = .awaiting e records →
      ∀ record ∈ records, record ∈ s.enqueued ++ more ∧ record.epoch = e) (u : ThreadId)
    (e : EpochNumber) (records : LogRecords) (hu : update s.thread t th u = .online e records ∨
      update s.thread t th u = .awaiting e records) :
    ∀ record ∈ records, record ∈ s.enqueued ++ more ∧ record.epoch = e := by
  rw [update_apply] at hu
  split_ifs at hu with hut
  · subst hut
    exact hth e records hu
  · intro record hrecord
    obtain ⟨hmem, hepoch⟩ := h.session u e records hu record hrecord
    exact ⟨List.mem_append_left _ hmem, hepoch⟩

/-- A committing thread moves its record into its own buffer. -/
theorem Accounted.thread (h : Accounted s) (heffect : ThreadEffect s t s') : Accounted s' := by
  -- a thread that takes up no session of its own
  have quiet : ∀ th : Thread, (∀ e records, th = .online e records ∨ th = .awaiting e records →
        ∀ record ∈ records, record ∈ s.enqueued ∧ record.epoch = e) →
      ∀ u e records, update s.thread t th u = .online e records ∨
        update s.thread t th u = .awaiting e records →
        ∀ record ∈ records, record ∈ s.enqueued ∧ record.epoch = e := by
    intro th hth u e records hu
    have hkeep : ∀ record ∈ records, record ∈ s.enqueued ++ [] ∧ record.epoch = e :=
      h.session_update (by simpa using hth) u e records hu
    simpa using hkeep
  cases heffect with
  | registerSlot | notDurable => exact { h with }
  | loadEpoch | storeEpoch | republish | goOffline
  | acknowledge =>
    exact { h with session := quiet _ (by simp) }
  | goOnline =>
    refine { h with session := quiet _ ?_ }
    rintro e records (heq | heq) <;> cases heq
    exact nofun
  | registerNode hnew =>
    have hempty : s.queue t = [] := by
      by_contra hne
      exact hnew (h.node t hne)
    refine ⟨List.nodup_cons.mpr ⟨hnew, h.nodup⟩, fun u hu => List.mem_cons_of_mem _ (h.node u hu),
      h.bucketed, h.kept, ?_, h.session⟩
    have hbuffered : State.buffered { s with nodes := t :: s.nodes } = s.buffered := by
      show (List.map _ (t :: s.nodes)).sum = _
      rw [List.map_cons, List.sum_cons, hempty]
      exact zero_add _
    rw [hbuffered]
    exact h.balance
  | nothingToPersist => exact h
  | @enqueue epoch records record honline hepoch hnode =>
    refine ⟨h.nodup, ?_, h.bucketed, h.kept, ?_, ?_⟩
    · intro u hu
      by_cases hut : u = t
      · exact hut ▸ hnode
      · exact h.node u (by simpa [update_of_ne hut] using hu)
    · have hbuffered := buffered_update h.nodup hnode (s.queue t ++ [record])
      have hone : State.buffered
          { s with queue := update s.queue t (s.queue t ++ [record]) }
          = s.buffered + {record} := by
        rw [← Multiset.coe_add] at hbuffered
        exact add_right_cancel (b := (s.queue t : Multiset LogRecord))
          (hbuffered.trans (by rw [Multiset.coe_singleton]; ac_rfl))
      show ((s.enqueued ++ [record] : LogRecords) : Multiset LogRecord) = _ + State.buffered
        { s with queue := update s.queue t (s.queue t ++ [record]) } + _
      rw [hone, ← Multiset.coe_add, h.balance, Multiset.coe_singleton]
      ac_rfl
    · refine h.session_update ?_
      rintro e rs (heq | heq) <;> cases heq
      refine forall_mem_concat.mpr ⟨fun r hr => ?_, List.mem_concat_self, hepoch⟩
      obtain ⟨hmem, hre⟩ := h.session t epoch records (.inl honline) r hr
      exact ⟨List.mem_append_left _ hmem, hre⟩
  | goAwait honline =>
    refine { h with session := quiet _ ?_ }
    rintro e records (heq | heq) <;> cases heq
    exact h.session t _ _ (.inl honline)

theorem Accounted.writer (h : Accounted s) (heffect : WriterEffect s s') : Accounted s' := by
  cases heffect <;> exact { h with }

/-- A buffer with nothing in it belongs to no record. -/
theorem ne_nil_of_update {queue : ThreadId → LogRecords} {u : ThreadId}
    (h : update queue t [] u ≠ []) : queue u ≠ [] := by
  by_cases hut : u = t
  · subst hut
    simp at h
  · rwa [update_of_ne hut] at h

/-- The flusher moves records from the buffers to the buckets and from there
into the log. -/
theorem Accounted.flusher (h : Accounted s) (heffect : FlusherEffect mp s s') : Accounted s' := by
  have bucketed : ∀ records : LogRecords,
      ((bucketRecords (s.carry.addAll records).entries : LogRecords) : Multiset LogRecord)
        = bucketRecords s.carry.entries + records := by
    intro records
    rw [Multiset.coe_add]
    exact Multiset.coe_eq_coe.mpr (bucketRecords_addAll s.carry records)
  cases heffect with
  | beginRound hat | collect hat | unpublished hat | publish hat =>
    exact { h with kept := fun _ => h.kept (by rw [hat]; trivial) }
  | leave | appendFailed | appendThrows
  | fail =>
    exact { h with kept := False.elim }
  | late | unready | backwards
  | requestStop | publishStopped => exact { h with }
  | @drain target durableBefore t rest hdraining =>
    refine ⟨h.nodup, fun u hu => h.node u (ne_nil_of_update hu), h.bucketed.addAll _,
      fun _ => h.kept (by rw [hdraining]; trivial), ?_, h.session⟩
    rw [bucketed, h.balance, ← h.buffered_drained t]
    ac_rfl
  | @drainThrows target durableBefore t rest n hdraining =>
    refine ⟨h.nodup, fun u hu => h.node u (ne_nil_of_update hu), h.bucketed.addAll _, False.elim,
      ?_, h.session⟩
    have hsplit : (s.queue t : Multiset LogRecord) = (s.queue t).take n + (s.queue t).drop n := by
      rw [Multiset.coe_add, List.take_append_drop]
    rw [bucketed, h.balance, ← h.buffered_drained t, hsplit, ← Multiset.coe_add]
    ac_rfl
  | @appended target durableBefore dev dev' wal' hdraining hdev hok =>
    refine ⟨h.nodup, h.node, ?_, fun _ => h.kept (by rw [hdraining]; trivial), ?_, h.session⟩
    · intro b hb
      exact h.bucketed b ((List.dropWhile_sublist _).subset hb)
    · have hcarry : bucketRecords s.carry.entries = bucketRecords (s.carry.upTo target) ++
          bucketRecords (s.carry.eraseThrough target).entries := by
        rw [← s.carry.upTo_append_eraseThrough target]
        simp [bucketRecords]
      have hsynced : bucketRecords (s.synced ++ s.carry.upTo target)
          = bucketRecords s.synced ++ bucketRecords (s.carry.upTo target) := by
        simp [bucketRecords]
      rw [h.balance, hcarry, hsynced, ← Multiset.coe_add, ← Multiset.coe_add]
      ac_rfl

/-! ## The log is preserved -/

theorem Logged.thread (h : Logged mp base s) (heffect : ThreadEffect s t s') :
    Logged mp base s' := by
  cases heffect <;> exact { h with }

theorem Logged.writer (h : Logged mp base s) (heffect : WriterEffect s s') : Logged mp base s' := by
  cases heffect <;> exact { h with }

/-- Only a successful append moves the end of the log, and then over frames
that are in the file. -/
theorem Logged.flusher (hsettled : Settled s) (h : Logged mp base s)
    (heffect : FlusherEffect mp s s') : Logged mp base s' := by
  cases heffect with
  | beginRound hat | collect hat | drain hat =>
    have hlive : s.flusher.Live := by rw [hat]; trivial
    have hs : s.settled = s.durableEpoch := State.settled_eq (by simp [hat])
    exact ⟨fun _ => h.running (by simp [hat]), h.stands, fun _ => h.behind hlive,
      fun _ => hs ▸ h.frontier hlive⟩
  | leave | fail =>
    exact ⟨fun hne => absurd rfl hne, h.stands, False.elim, False.elim⟩
  | late | backwards | requestStop => exact { h with }
  | drainThrows n hdraining | appendThrows hdraining =>
    exact ⟨fun _ => h.running (by simp [hdraining]), h.stands, False.elim, False.elim⟩
  | @appended target durableBefore dev dev' wal' hdraining hdev hok =>
    have hlive : s.flusher.Live := by rw [hdraining]; trivial
    have hs : s.settled = s.durableEpoch := State.settled_eq (by simp [hdraining])
    have hbefore : Behind s.wal dev.file (base ++ bucketBytes mp s.synced) :=
      hdev ▸ h.behind hlive
    obtain ⟨hbehind, hfrontier⟩ := hbefore.append hok
    have hbytes : base ++ bucketBytes mp (s.synced ++ s.carry.upTo target)
        = base ++ bucketBytes mp s.synced ++ bucketBytes mp (s.carry.upTo target) := by
      simp [bucketBytes]
    rw [← hbytes] at hbehind
    refine ⟨fun _ => h.running (by simp [hdraining]), hbehind.stands, fun _ => hbehind, fun _ => ?_⟩
    -- the frontier is the last bucket written, which the target bounds
    have hold : s.wal.frontier ≤ target := by
      have hle := h.frontier hlive
      have habove := (hsettled.target target (by rw [hdraining]; rfl)).1
      rw [hs] at hle
      rw [UInt32.le_iff_toNat_le]
      omega
    rw [hfrontier, ← UInt32.le_iff_toNat_le]
    exact lastBucket_le hold fun b hb => Buckets.le_of_mem_upTo hb
  | @appendFailed target durableBefore dev dev' wal' e hdraining hdev herror =>
    have hlive : s.flusher.Live := by rw [hdraining]; trivial
    have hbefore : Behind s.wal dev.file (base ++ bucketBytes mp s.synced) :=
      hdev ▸ h.behind hlive
    have hkeeps := (hbefore.append_keeps mp s.carry target).2
    rw [herror] at hkeeps
    exact ⟨fun _ => h.running (by simp [hdraining]), hkeeps, False.elim, False.elim⟩
  | @unready target durableBefore dev dev' wal' hdraining hdev habort =>
    have hlive : s.flusher.Live := by rw [hdraining]; trivial
    have hbefore : Behind s.wal dev.file (base ++ bucketBytes mp s.synced) :=
      hdev ▸ h.behind hlive
    have hready := (hbefore.append_keeps mp s.carry target).1
    rw [habort] at hready
    exact absurd rfl hready
  | unpublished hpublishing hstopped =>
    exact absurd (h.running (by simp [hpublishing])) hstopped
  | @publish target hpublishing =>
    have hlive : s.flusher.Live := by rw [hpublishing]; trivial
    have hs : s.settled = target := by simp [State.settled, hpublishing]
    exact ⟨fun _ => h.running (by simp [hpublishing]), h.stands, fun _ => h.behind hlive,
      fun _ => hs ▸ h.frontier hlive⟩
  | publishStopped state hexited =>
    exact ⟨fun hne => absurd hexited hne, h.stands, h.behind, h.frontier⟩

end LineairDB.Durability
