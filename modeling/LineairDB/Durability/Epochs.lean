import LineairDB.Durability.System

/-!
# Closed epochs

A thread that came online at an epoch holds the global epoch at its own or
the next one until it goes offline: a scan that could advance past the next
one has read its slot. So the epoch writer, which hands `U - 2` to the
flusher on an advance to `U`, only hands over epochs no thread is online in.

* `EpochsInv` — what holds of the slots, the scan and the target.
* `EpochsInv.thread`, `EpochsInv.writer` — the threads and the epoch writer preserve
  it.
-/

namespace LineairDB.Durability

open Recovery
open Function (update_self update_of_ne update)

variable {s s' : State} {t : ThreadId}

/-! ## What the steps do -/

/-- The effects of a committing thread's step. -/
inductive ThreadEffect (s : State) (t : ThreadId) : State → Prop
  | registerSlot (hoff : s.thread t = .offline) (hnew : t ∉ s.slots) :
      ThreadEffect s t
        { s with slots := t :: s.slots, slot := update s.slot t threadOffline }
  | loadEpoch (hoff : s.thread t = .offline) (hslot : t ∈ s.slots) :
      ThreadEffect s t { s with thread := update s.thread t (.loaded s.globalEpoch) }
  | storeEpoch {published : EpochNumber} (hloaded : s.thread t = .loaded published) :
      ThreadEffect s t
        { s with
          slot := update s.slot t published
          thread := update s.thread t (.stored published) }
  | goOnline (hstored : s.thread t = .stored s.globalEpoch) :
      ThreadEffect s t { s with thread := update s.thread t (.online s.globalEpoch []) }
  | republish {published : EpochNumber} (hstored : s.thread t = .stored published) :
      ThreadEffect s t { s with thread := update s.thread t (.loaded s.globalEpoch) }
  | registerNode (hnew : t ∉ s.nodes) : ThreadEffect s t { s with nodes := t :: s.nodes }
  | nothingToPersist : ThreadEffect s t s
  | enqueue {epoch : EpochNumber} {records : LogRecords} {record : LogRecord}
      (honline : s.thread t = .online epoch records) (hepoch : record.epoch = epoch)
      (hnode : t ∈ s.nodes) :
      ThreadEffect s t
        { s with
          queue := update s.queue t (s.queue t ++ [record])
          thread := update s.thread t (.online epoch (records ++ [record]))
          enqueued := s.enqueued ++ [record] }
  | goOffline {epoch : EpochNumber} {records : LogRecords}
      (honline : s.thread t = .online epoch records) :
      ThreadEffect s t
        { s with
          slot := update s.slot t threadOffline
          thread := update s.thread t .offline }
  | goAwait {epoch : EpochNumber} {records : LogRecords}
      (honline : s.thread t = .online epoch records) :
      ThreadEffect s t
        { s with
          slot := update s.slot t threadOffline
          thread := update s.thread t (.awaiting epoch records) }
  | acknowledge {epoch : EpochNumber} {records : LogRecords}
      (hawait : s.thread t = .awaiting epoch records) (hdurable : epoch ≤ s.durableEpoch) :
      ThreadEffect s t
        { s with
          thread := update s.thread t .offline
          acknowledged := s.acknowledged ++ records }
  | notDurable : ThreadEffect s t (s.abort .notDurable)

theorem threadStep_effect {a : ThreadAction} (h : threadStep s t a = some s') :
    ThreadEffect s t s' := by
  revert h
  fun_cases threadStep s t a with
  | case1 hguard =>
    rintro ⟨⟩
    exact .registerSlot hguard.1 hguard.2
  | case3 hguard =>
    rintro ⟨⟩
    exact .loadEpoch hguard.1 hguard.2
  | case5 _ hloaded =>
    rintro ⟨⟩
    exact .storeEpoch hloaded
  | case7 published hstored =>
    rintro ⟨⟩
    by_cases heq : s.globalEpoch = published
    · rw [if_pos heq]
      subst heq
      exact .goOnline hstored
    · rw [if_neg heq]
      exact .republish hstored
  | case9 hnew =>
    rintro ⟨⟩
    exact .registerNode hnew
  | case11 =>
    rintro ⟨⟩
    exact .nothingToPersist
  | case12 _ _ _ honline _ _ hnode =>
    rintro ⟨⟩
    exact .enqueue honline rfl hnode
  | case15 sync _ records honline =>
    rintro ⟨⟩
    by_cases hwaits : sync = true ∧ records ≠ []
    · rw [if_pos hwaits]
      exact .goAwait honline
    · rw [if_neg hwaits]
      exact .goOffline honline
  | case17 _ _ hawait hdurable =>
    rintro ⟨⟩
    exact .acknowledge hawait hdurable
  | case18 =>
    rintro ⟨⟩
    exact .notDurable
  | _ => nofun

/-- The effects of the epoch writer's step. -/
inductive WriterEffect (s : State) : State → Prop
  | tick (forced : Bool) (hidle : s.writer = .idle) :
      WriterEffect s { s with writer := .scanning forced s.slots threadOffline }
  | loadSlot {forced : Bool} {t : ThreadId} {rest : List ThreadId} {minEpoch : EpochNumber}
      (hscan : s.writer = .scanning forced (t :: rest) minEpoch) :
      WriterEffect s
        { s with
          writer := .scanning forced rest
            (if 0 < s.slot t ∧ s.slot t < minEpoch then s.slot t else minEpoch) }
  | stay (w : Writer) (hw : w = .idle ∨ w = .exited) : WriterEffect s { s with writer := w }
  | highWater : WriterEffect s (s.abort .epochHighWater)
  | advance {forced : Bool} {minEpoch : EpochNumber}
      (hscan : s.writer = .scanning forced [] minEpoch)
      (hmin : minEpoch = threadOffline ∨ minEpoch = s.globalEpoch)
      (hbelow : s.globalEpoch < kEpochHighWater) :
      WriterEffect s
        { s with
          globalEpoch := s.globalEpoch + 1
          writer := .publishing (s.globalEpoch + 1) minEpoch }
  | schedule {updated minEpoch : EpochNumber} (w : Writer) (hw : w = .idle ∨ w = .exited)
      (hpublishing : s.writer = .publishing updated minEpoch) (hthree : 3 ≤ updated)
      (hmore : s.pendingClosed < updated - 2) :
      WriterEffect s { s with pendingClosed := updated - 2, writer := w }
  | stop : WriterEffect s { s with epochStop := true }

theorem Writer.next_eq (epochStop : Bool) (minEpoch : EpochNumber) :
    Writer.next epochStop minEpoch = .idle ∨ Writer.next epochStop minEpoch = .exited := by
  unfold Writer.next
  split
  · exact .inr rfl
  · exact .inl rfl

theorem writerStep_effect {a : WriterAction} (h : writerStep s a = some s') :
    WriterEffect s s' := by
  revert h
  fun_cases writerStep s a with
  | case1 forced hidle =>
    rintro ⟨⟩
    exact .tick forced hidle
  | case3 _ _ _ _ hscan =>
    rintro ⟨⟩
    exact .loadSlot hscan
  | case5 =>
    rintro ⟨⟩
    exact .stay _ (.inl rfl)
  | case6 =>
    rintro ⟨⟩
    exact .highWater
  | case7 _ _ hscan _ _ hmin hbelow =>
    rintro ⟨⟩
    exact .advance hscan hmin (UInt32.not_le.mp hbelow)
  | case8 =>
    rintro ⟨⟩
    exact .stay _ (Writer.next_eq _ _)
  | case10 updated minEpoch hpublishing after =>
    rintro ⟨⟩
    have hw := Writer.next_eq s.epochStop minEpoch
    by_cases hthree : 3 ≤ updated
    · simp only [after, if_pos hthree]
      fun_cases scheduleFlush s (updated - 2) with
      | case2 _ hmore => exact .schedule _ hw hpublishing hthree hmore
      | _ => exact .stay _ hw
    · simp only [after, if_neg hthree]
      exact .stay _ hw
  | case12 =>
    rintro ⟨⟩
    exact .stop
  | _ => nofun

/-! ## The invariant -/

/-- What holds of the slots, the writer's scan and the flush target. -/
structure EpochsInv (s : State) : Prop where
  global_pos : 0 < s.globalEpoch.toNat
  global_le : s.globalEpoch.toNat ≤ kEpochHighWater.toNat
  registered : ∀ t, s.thread t ≠ .offline → t ∈ s.slots
  published : ∀ t e, s.thread t = .stored e ∨ (∃ records, s.thread t = .online e records) →
    s.slot t = e
  lag : ∀ t e records, s.thread t = .online e records →
    0 < e.toNat ∧ e.toNat ≤ s.globalEpoch.toNat ∧ s.globalEpoch.toNat ≤ e.toNat + 1
  /-- While the global epoch is past a thread's own, the scan under way has the
  thread's slot still to read, or has seen that it must not advance. -/
  scanned : ∀ t e records, s.thread t = .online e records → e.toNat < s.globalEpoch.toNat →
    ∀ forced rest minEpoch, s.writer = .scanning forced rest minEpoch →
      t ∈ rest ∨ minEpoch.toNat ≤ e.toNat
  publishing : ∀ updated minEpoch, s.writer = .publishing updated minEpoch →
    updated = s.globalEpoch
  closed : s.pendingClosed.toNat = 0 ∨ s.pendingClosed.toNat + 2 ≤ s.globalEpoch.toNat

theorem kEpochHighWater_toNat : kEpochHighWater.toNat = 4293918719 := rfl

theorem threadOffline_toNat : threadOffline.toNat = 4294967295 := rfl

/-- An epoch below the mark can be advanced without wrapping. -/
theorem toNat_succ {e : EpochNumber} (h : e.toNat < 4293918719) : (e + 1).toNat = e.toNat + 1 := by
  rw [UInt32.toNat_add]
  show (e.toNat + 1) % 2 ^ 32 = _
  omega

/-- The invariant reads neither the logger's side nor the ghost lists. -/
theorem EpochsInv.congr (h : EpochsInv s) (hglobal : s'.globalEpoch = s.globalEpoch)
    (hslots : s'.slots = s.slots) (hslot : s'.slot = s.slot) (hthread : s'.thread = s.thread)
    (hwriter : s'.writer = s.writer) (hpending : s'.pendingClosed = s.pendingClosed) :
    EpochsInv s' := by
  constructor
  · rw [hglobal]; exact h.global_pos
  · rw [hglobal]; exact h.global_le
  · rw [hthread, hslots]; exact h.registered
  · rw [hthread, hslot]; exact h.published
  · rw [hthread, hglobal]; exact h.lag
  · rw [hthread, hglobal, hwriter]; exact h.scanned
  · rw [hwriter, hglobal]; exact h.publishing
  · rw [hpending, hglobal]; exact h.closed

/-- One thread moves, and touches at most its own slot. A thread that is online
afterwards was so before, or came online at the global epoch. -/
theorem EpochsInv.move (h : EpochsInv s) {th : Thread} (hthread : s'.thread = update s.thread t th)
    (hglobal : s'.globalEpoch = s.globalEpoch) (hslots : s'.slots = s.slots)
    (hslot : ∀ u, u ≠ t → s'.slot u = s.slot u) (hwriter : s'.writer = s.writer)
    (hpending : s'.pendingClosed = s.pendingClosed) (hregistered : t ∈ s.slots)
    (hpublished : ∀ e, th = .stored e ∨ (∃ records, th = .online e records) → s'.slot t = e)
    (honline : ∀ e records, th = .online e records →
      e = s.globalEpoch ∨ ∃ before, s.thread t = .online e before) : EpochsInv s' := by
  have hself : s'.thread t = th := by rw [hthread, update_self]
  have hother : ∀ u, u ≠ t → s'.thread u = s.thread u := fun u hu => by
    rw [hthread, update_of_ne hu]
  constructor
  · rw [hglobal]; exact h.global_pos
  · rw [hglobal]; exact h.global_le
  · intro u hu
    rw [hslots]
    by_cases hut : u = t
    · exact hut ▸ hregistered
    · exact h.registered u (by rwa [← hother u hut])
  · intro u e hu
    by_cases hut : u = t
    · subst hut
      exact hpublished e (by rwa [hself] at hu)
    · rw [hother u hut] at hu
      rw [hslot u hut]
      exact h.published u e hu
  · intro u e records hu
    rw [hglobal]
    by_cases hut : u = t
    · subst hut
      rcases honline e records (hself ▸ hu) with rfl | ⟨before, hbefore⟩
      · exact ⟨h.global_pos, le_rfl, Nat.le_succ _⟩
      · exact h.lag u e before hbefore
    · exact h.lag u e records (by rwa [← hother u hut])
  · intro u e records hu hlt forced rest minEpoch hscan
    rw [hglobal] at hlt
    rw [hwriter] at hscan
    by_cases hut : u = t
    · subst hut
      rcases honline e records (hself ▸ hu) with rfl | ⟨before, hbefore⟩
      · exact absurd hlt (Nat.lt_irrefl _)
      · exact h.scanned u e before hbefore hlt forced rest minEpoch hscan
    · rw [hother u hut] at hu
      exact h.scanned u e records hu hlt forced rest minEpoch hscan
  · rw [hwriter, hglobal]; exact h.publishing
  · rw [hpending, hglobal]; exact h.closed

/-- A committing thread preserves the invariant. -/
theorem EpochsInv.thread (h : EpochsInv s) (heffect : ThreadEffect s t s') : EpochsInv s' := by
  have hupdate : ∀ (v : EpochNumber) u, u ≠ t → update s.slot t v u = s.slot u :=
    fun v u hu => update_of_ne hu v s.slot
  cases heffect with
  | registerSlot hoff =>
    refine { h with
      registered := fun u hu => .tail _ (h.registered u hu)
      published := fun u e hu => ?_ }
    have hut : u ≠ t := by
      rintro rfl
      rcases hu with hu | ⟨records, hu⟩ <;> · rw [hoff] at hu; cases hu
    show update s.slot t threadOffline u = e
    rw [hupdate _ u hut]
    exact h.published u e hu
  | loadEpoch hoff hslot =>
    exact h.move rfl rfl rfl (fun _ _ => rfl) rfl rfl hslot (by simp) (by simp)
  | storeEpoch hloaded =>
    refine h.move rfl rfl rfl (hupdate _) rfl rfl (h.registered t (by simp [hloaded])) ?_ (by simp)
    rintro e (he | ⟨_, he⟩)
    · cases he
      exact update_self _ _ _
    · cases he
  | goOnline hstored =>
    refine h.move rfl rfl rfl (fun _ _ => rfl) rfl rfl (h.registered t (by simp [hstored])) ?_ ?_
    · rintro e (he | ⟨_, he⟩)
      · cases he
      · cases he
        exact h.published t _ (.inl hstored)
    · intro e records he
      cases he
      exact .inl rfl
  | republish hstored =>
    exact h.move rfl rfl rfl (fun _ _ => rfl) rfl rfl (h.registered t (by simp [hstored]))
      (by simp) (by simp)
  | registerNode | notDurable => exact h.congr rfl rfl rfl rfl rfl rfl
  | nothingToPersist => exact h
  | enqueue honline =>
    refine h.move rfl rfl rfl (fun _ _ => rfl) rfl rfl (h.registered t (by simp [honline])) ?_ ?_
    · rintro e (he | ⟨_, he⟩)
      · cases he
      · cases he
        exact h.published t _ (.inr ⟨_, honline⟩)
    · intro e records he
      cases he
      exact .inr ⟨_, honline⟩
  | goOffline honline | goAwait honline =>
    exact h.move rfl rfl rfl (hupdate _) rfl rfl (h.registered t (by simp [honline])) (by simp)
      (by simp)
  | acknowledge hawait =>
    exact h.move rfl rfl rfl (fun _ _ => rfl) rfl rfl (h.registered t (by simp [hawait])) (by simp)
      (by simp)

section Writer

variable (h : EpochsInv s)

include h

/-- With the slot of a thread read, the others are still to be read, or the scan has seen
that it must not advance. -/
theorem EpochsInv.scanned_loadSlot {forced : Bool} {t u : ThreadId} {rest : List ThreadId}
    {e minEpoch : EpochNumber} {records : List LogRecord}
    (hscan : s.writer = .scanning forced (u :: rest) minEpoch)
    (ht : s.thread t = .online e records) (hlt : e.toNat < s.globalEpoch.toNat) :
    t ∈ rest ∨ (if 0 < s.slot u ∧ s.slot u < minEpoch then s.slot u else minEpoch).toNat
      ≤ e.toNat := by
  rcases h.scanned t e records ht hlt _ _ _ hscan with hmem | hmin
  · rcases List.mem_cons.mp hmem with rfl | hmem
    · -- the thread's own slot is read: it holds the thread's epoch
      right
      have hslot : s.slot t = e := h.published t e (.inr ⟨records, ht⟩)
      rw [hslot]
      have hpos := (h.lag t e records ht).1
      split
      · exact le_rfl
      · rename_i hge
        rw [UInt32.lt_iff_toNat_lt, UInt32.lt_iff_toNat_lt] at hge
        have : (0 : UInt32).toNat = 0 := rfl
        omega
    · exact .inl hmem
  · right
    split
    · rename_i hlower
      rw [UInt32.lt_iff_toNat_lt, UInt32.lt_iff_toNat_lt] at hlower
      omega
    · exact hmin

/-- A scan that lets the epoch advance has seen no thread lag. -/
theorem EpochsInv.level {forced : Bool} {t : ThreadId} {e minEpoch : EpochNumber}
    {records : List LogRecord} (hscan : s.writer = .scanning forced [] minEpoch)
    (hmin : minEpoch = threadOffline ∨ minEpoch = s.globalEpoch)
    (ht : s.thread t = .online e records) : e.toNat = s.globalEpoch.toNat := by
  obtain ⟨hpos, hle, hlag⟩ := h.lag t e records ht
  have hoffline := threadOffline_toNat
  have hhigh := h.global_le
  rw [kEpochHighWater_toNat] at hhigh
  by_contra hne
  rcases h.scanned t e records ht (by omega) _ _ _ hscan with hmem | hlow
  · cases hmem
  · rcases hmin with rfl | rfl <;> omega

/-- A writer that neither scans nor publishes. -/
theorem EpochsInv.park {w : Writer} (hw : w = .idle ∨ w = .exited) :
    EpochsInv { s with writer := w } := by
  refine { h with scanned := ?_, publishing := ?_ }
  · intro t e records ht hlt forced rest minEpoch hscan
    rcases hw with rfl | rfl <;> cases hscan
  · intro updated minEpoch hpub
    rcases hw with rfl | rfl <;> cases hpub

theorem EpochsInv.writer (heffect : WriterEffect s s') : EpochsInv s' := by
  cases heffect with
  | tick =>
    refine { h with scanned := ?_, publishing := ?_ }
    · intro t e records ht _ forced' rest minEpoch hscan
      cases hscan
      have hon : s.thread t = .online e records := ht
      exact .inl (h.registered t (by simp [hon]))
    · intro updated minEpoch hpub
      cases hpub
  | loadSlot hscan =>
    refine { h with scanned := ?_, publishing := ?_ }
    · intro t e records ht hlt forced' rest' minEpoch' hscan'
      cases hscan'
      exact h.scanned_loadSlot hscan ht hlt
    · intro updated minEpoch' hpub
      cases hpub
  | stay w hw => exact h.park hw
  | highWater | stop => exact h.congr rfl rfl rfl rfl rfl rfl
  | @advance forced minEpoch hscan hmin hbelow =>
    rw [UInt32.lt_iff_toNat_lt] at hbelow
    have hnext : (s.globalEpoch + 1).toNat = s.globalEpoch.toNat + 1 :=
      toNat_succ (kEpochHighWater_toNat ▸ hbelow)
    refine ⟨?_, ?_, h.registered, h.published, ?_, ?_, ?_, ?_⟩
    · show 0 < (s.globalEpoch + 1).toNat
      omega
    · show (s.globalEpoch + 1).toNat ≤ _
      omega
    · intro t e records ht
      show _ ∧ _ ≤ (s.globalEpoch + 1).toNat ∧ (s.globalEpoch + 1).toNat ≤ _
      have := h.level hscan hmin ht
      have := (h.lag t e records ht).1
      omega
    · intro t e records ht hlt forced' rest minEpoch' hscan'
      cases hscan'
    · intro updated minEpoch' hpub
      cases hpub
      rfl
    · show s.pendingClosed.toNat = 0 ∨ s.pendingClosed.toNat + 2 ≤ (s.globalEpoch + 1).toNat
      have := h.closed
      omega
  | @schedule updated minEpoch w hw hpublishing hthree hmore =>
    have hupdated := h.publishing _ _ hpublishing
    subst hupdated
    refine { h.park hw with closed := .inr ?_ }
    have htwo : (2 : UInt32) ≤ s.globalEpoch :=
      UInt32.le_trans (show (2 : UInt32) ≤ 3 by decide) hthree
    show (s.globalEpoch - 2).toNat + 2 ≤ s.globalEpoch.toNat
    rw [UInt32.toNat_sub_of_le _ _ htwo]
    rw [UInt32.le_iff_toNat_le] at htwo
    have : (2 : UInt32).toNat = 2 := rfl
    omega

end Writer

/-- The invariant holds when the epoch writer starts. -/
theorem EpochsInv.boot {wal : Wal} {dev : Device} {globalEpoch : EpochNumber}
    (hpos : 0 < globalEpoch.toNat) (hmark : globalEpoch.toNat ≤ kEpochHighWater.toNat)
    (slots : List ThreadId) (processFailStop : Bool) :
    EpochsInv (boot wal dev globalEpoch slots processFailStop) :=
  ⟨hpos, hmark, by simp [Durability.boot], by simp [Durability.boot], by simp [Durability.boot],
    by simp [Durability.boot], by simp [Durability.boot], .inl rfl⟩

end LineairDB.Durability
