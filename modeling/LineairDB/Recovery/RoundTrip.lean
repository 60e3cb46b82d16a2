import LineairDB.Recovery.Torn

/-!
# Round trips through the log

What a scan that succeeds leaves, and what it returns on files that the
append path wrote.

* `ZeroTail.append` — an append that succeeds leaves zeroes behind what it wrote.
* `Established.holds` — every log a scan and successful appends establish is
  a list of frames in front of zeroes, and the instance knows its end.
* `scanAndRepair_torn_group` — a group that was cut short is repaired to its
  whole frames.
* `session_round_trip` — over any sequence of appends, rescans and reopenings,
  a scan returns exactly what the successful appends wrote.
-/

namespace LineairDB.Recovery

open ByteFile FaultyIo

variable {mp : Msgpack} {wal : Wal} {dev : Device} {minEpoch : EpochNumber}

variable {log : List (Frame mp)} {file : Bytes} {p : Progress} {buckets : Buckets}
  {target : EpochNumber}

/-! ## What a scan leaves -/

/-- The instance stands in front of zeroes that reach to the end of the file. -/
structure ZeroTail (wal : Wal) (file : Bytes) : Prop where
  ready : wal.state = .ready
  offset_le : wal.writeOffset ≤ file.length
  initialised : wal.initialisedSize = file.length
  zero : ∀ i, wal.writeOffset ≤ i → byteAt file i = 0
  reservable : Reservable wal.initialCapacityBytes file.length wal.writeOffset

/-- What a scan that ends at `p` leaves of the file: what stands below `p`, and zeroes. -/
structure Leaves (file : Bytes) (p : Progress) (wal : Wal) (file' : Bytes) : Prop
    extends ZeroTail wal file' where
  offset : wal.writeOffset = p.offset
  frontier : wal.frontier = p.frontier
  inside : p.offset ≤ file.length
  longer : file.length ≤ file'.length
  below : file'.take p.offset = file.take p.offset

theorem byteAt_append_zeros {n k : ℕ} (h : ZeroFrom file n) : ZeroFrom (file ++ zeros k) n := by
  intro i hi
  by_cases hlt : i < file.length
  · have hbyte := h i hi
    rwa [byteAt, List.getD_eq_getElem?_getD, ← List.getElem?_append_left hlt,
      ← List.getD_eq_getElem?_getD] at hbyte
  · rw [byteAt, List.getD_eq_getElem?_getD, List.getElem?_append_right (Nat.le_of_not_lt hlt),
      zeros, List.getElem?_replicate]
    split <;> rfl

theorem finishScan_leaves {t : Bool} (hinit : wal.initialisedSize = dev.file.length)
    (hin : p.offset ≤ dev.file.length) (hzero : ZeroFrom dev.file p.offset)
    (hok : (finishScan wal dev (p.result t) p.offset).result.status = .ok) :
    (finishScan wal dev (p.result t) p.offset).result = p.result t ∧
      (finishScan wal dev (p.result t) p.offset).wal.initialCapacityBytes
        = wal.initialCapacityBytes ∧
      Leaves dev.file p (finishScan wal dev (p.result t) p.offset).wal
        (finishScan wal dev (p.result t) p.offset).dev.file := by
  unfold finishScan at hok ⊢
  split at hok
  · cases hok
  · rename_i heq
    obtain ⟨k, hgrown, rfl⟩ := ensureCapacityFor_ok hinit heq
    have hres := reservable_of_ensureCapacityFor hinit (by rw [heq]; simp)
    have hlonger : dev.file.length ≤ (dev.file ++ zeros k).length := by simp
    refine ⟨rfl, rfl, ⟨rfl, ?_, rfl, ?_, ?_⟩, rfl, rfl, hin, ?_, ?_⟩
    · rw [hgrown]
      exact hin.trans hlonger
    · rw [hgrown]
      exact byteAt_append_zeros hzero
    · rw [hgrown]
      exact hres.mono le_rfl hlonger
    · rw [hgrown]
      exact hlonger
    · rw [hgrown, List.take_append_of_le_length hin]

/-- Erasing a tail leaves what stands before it, and zeroes. -/
theorem writeAt_erasable_zero {start stop : ℕ} (h : Erasable file start stop) :
    (writeAt file start (zeros (stop - start))).length = file.length ∧
      (writeAt file start (zeros (stop - start))).take start = file.take start ∧
      ∀ i, start ≤ i → byteAt (writeAt file start (zeros (stop - start))) i = 0 := by
  have hlt := h.start_lt
  have hle := h.stop_le
  refine ⟨by rw [length_writeAt, length_zeros]; omega, take_writeAt _ le_rfl (by omega),
    fun i hi => ?_⟩
  have hform : writeAt file start (zeros (stop - start))
      = file.take start ++ zeros (file.length - start) := by
    rw [writeAt_of_le _ (by omega), length_zeros, show start + (stop - start) = stop by omega,
      drop_eq_zeros h.zero_beyond, List.append_assoc, zeros_append]
    congr 2
    omega
  rw [hform]
  refine byteAt_append_zeros (fun j hj => byteAt_of_length_le ?_) i hi
  rw [List.length_take]
  omega

/-- **A plan that is carried out** leaves what stands below its end, and zeroes. -/
theorem executePlan_leaves {plan : Plan} (hp : plan.progress? = some p)
    (hinit : wal.initialisedSize = dev.file.length) (hin : p.offset ≤ dev.file.length)
    (hfinish : ∀ q, plan = .finish q → ZeroFrom dev.file q.offset)
    (herase : ∀ q stop, plan = .zeroTail q stop → Erasable dev.file q.offset stop)
    (hok : (executePlan wal dev plan).result.status = .ok) :
    (∃ t, (executePlan wal dev plan).result = p.result t ∧
        (t = true → ∃ q stop, plan = .zeroTail q stop)) ∧
      (executePlan wal dev plan).wal.initialCapacityBytes = wal.initialCapacityBytes ∧
      Leaves dev.file p (executePlan wal dev plan).wal (executePlan wal dev plan).dev.file := by
  cases plan with
  | refuse => cases hp
  | finish q =>
    obtain rfl : q = p := Option.some.inj hp
    obtain ⟨hres, hcap, hleaves⟩ := finishScan_leaves hinit hin (hfinish q rfl) hok
    exact ⟨⟨false, hres, nofun⟩, hcap, hleaves⟩
  | zeroTail q stop =>
    obtain rfl : q = p := Option.some.inj hp
    simp only [executePlan] at hok ⊢
    split at hok
    · cases hok
    · rename_i dev₁ heq
      have hfile := writeZeroesAndSync_ok (.inl hin) heq
      obtain ⟨hlen, htake, hzero⟩ := writeAt_erasable_zero (herase q stop rfl)
      rw [← hfile] at hlen htake hzero
      obtain ⟨hres, hcap, hleaves⟩ :=
        finishScan_leaves (by rw [hlen]; exact hinit) (by rw [hlen]; exact hin) hzero hok
      refine ⟨⟨true, hres, fun _ => ⟨q, stop, rfl⟩⟩, hcap, hleaves.toZeroTail, hleaves.offset,
        hleaves.frontier, hin, ?_, ?_⟩
      · rw [← hlen]
        exact hleaves.longer
      · rw [hleaves.below, htake]

/-- **A scan that succeeds** was at `p` when it ended, and left zeroes behind it. -/
theorem scanAndRepair_leaves (hinit : wal.initialisedSize = dev.file.length)
    (hok : (scanAndRepair mp wal dev minEpoch).result.status = .ok) :
    ∃ q p plan preads, HopEnd dev.file minEpoch q ∧ Passes mp dev.file minEpoch q p ∧
      planScan mp dev.file wal.path minEpoch dev.preads = .ok (plan, preads) ∧
      plan.progress? = some p ∧
      (∃ t, (scanAndRepair mp wal dev minEpoch).result = p.result t) ∧
      (scanAndRepair mp wal dev minEpoch).wal.initialCapacityBytes = wal.initialCapacityBytes ∧
      Leaves dev.file p (scanAndRepair mp wal dev minEpoch).wal
        (scanAndRepair mp wal dev minEpoch).dev.file := by
  obtain ⟨plan, preads, hstate, hstat, hplan, hprogress⟩ := scanAndRepair_ok hok
  obtain ⟨q, p, ended, hhop, hpass, hstop, hdecides⟩ := planScan_ok hplan hprogress
  obtain ⟨herase, hfinish⟩ := planScan_yields.of_script hplan
  have hin : p.offset ≤ dev.file.length := hpass.inside hhop.inside
  rw [scanAndRepair_of_plan hstate hstat hplan] at hok ⊢
  have hsized : (wal.sized dev).initialisedSize = dev.file.length := by
    rw [Wal.sized, hinit, Nat.max_self]
  refine ⟨q, p, plan, preads, hhop, hpass, hplan, hdecides.progress hprogress, ?_⟩
  obtain ⟨⟨t, hresult, -⟩, hleaves⟩ :=
    @executePlan_leaves _ { dev with preads := preads, fstats := dev.fstats.tail } _ _
      (hdecides.progress hprogress) hsized hin hfinish herase hok
  exact ⟨⟨t, hresult⟩, hleaves⟩

/-! ## What an append leaves -/

theorem ZeroTail.eq_append (h : ZeroTail wal file) :
    file = file.take wal.writeOffset ++ zeros (file.length - wal.writeOffset) := by
  rw [← drop_eq_zeros h.zero, List.take_append_drop]

theorem byteAt_append_of_length_le {bytes : Bytes} {k i : ℕ} (hi : bytes.length ≤ i) :
    byteAt (bytes ++ zeros k) i = 0 :=
  byteAt_append_zeros (fun _ hj => byteAt_of_length_le hj) i hi

/-- **An append leaves zeroes behind what it wrote**, whether it extends the
capacity, writes into it or has none. -/
theorem ZeroTail.append {wal' : Wal} {dev' : Device} (h : ZeroTail wal dev.file)
    (hok : appendGroup mp wal dev buckets target = ⟨.ok, wal', dev'⟩) :
    ∃ g, encodeGroup mp wal.frontier target buckets.entries ⟨[], wal.frontier⟩ = .ok g ∧
      ZeroTail wal' dev'.file ∧ wal'.initialCapacityBytes = wal.initialCapacityBytes ∧
      wal'.writeOffset = wal.writeOffset + g.bytes.length ∧ wal'.frontier = g.lastEncoded ∧
      ∃ z, dev'.file = dev.file.take wal.writeOffset ++ g.bytes ++ zeros z := by
  obtain ⟨g, hg, hfrontier, hok⟩ := appendGroup_ok hok
  refine ⟨g, hg, ?_⟩
  rcases hok with ⟨hnil, rfl, rfl⟩ | hok
  · refine ⟨h, rfl, by rw [hnil]; rfl, hfrontier, dev'.file.length - wal'.writeOffset, ?_⟩
    rw [hnil, List.append_nil]
    exact h.eq_append
  · obtain ⟨k, hfile, hstate, hmoved, hinit, hcap, hres⟩ :=
      writeGroup_ok h.initialised h.offset_le hok
    have hpre : (dev.file.take wal.writeOffset).length = wal.writeOffset :=
      List.length_take_of_le h.offset_le
    have hform : dev'.file = dev.file.take wal.writeOffset ++ g.bytes
        ++ zeros (dev.file.length - wal.writeOffset + k - g.bytes.length) := by
      rw [hfile]
      conv_lhs => rw [h.eq_append, List.append_assoc, zeros_append]
      rw [← writeAt_append_zeros, hpre]
    have hend : wal'.writeOffset = (dev.file.take wal.writeOffset ++ g.bytes).length := by
      rw [hmoved, List.length_append, hpre]
    refine ⟨⟨hstate.trans h.ready, ?_, hinit, ?_, hres⟩, hcap, hmoved, hfrontier, _, hform⟩
    · rw [hend, hform]
      exact (List.prefix_append _ _).length_le
    · intro i hi
      rw [hform]
      exact byteAt_append_of_length_le (by omega)

/-- An instance that stands behind a log has nothing but zeroes before it. -/
theorem Holds.zeroTail (hold : Holds wal file log) : ZeroTail wal file := by
  obtain ⟨z, hz⟩ := hold.contents
  refine ⟨hold.ready, ?_, hold.initialised, fun i hi => ?_, hold.reservable⟩
  · rw [hold.offset, hz, List.length_append]
    omega
  · rw [hz]
    exact byteAt_append_of_length_le (hold.offset ▸ hi)

/-- **A successful append moves the instance behind the frames it wrote.** -/
theorem Holds.append {wal' : Wal} {dev' : Device} (hold : Holds wal dev.file log)
    (hrt : ∀ b ∈ buckets.upTo target, mp.RoundTrips b.2)
    (h : appendGroup mp wal dev buckets target = ⟨.ok, wal', dev'⟩) :
    ∃ glog : List (Frame mp), Writes (buckets.upTo target) wal.frontier glog ∧
      Holds wal' dev'.file (log ++ glog) := by
  obtain ⟨g, hg, hzero, -, hmoved, hfrontier, z, hfile⟩ := hold.zeroTail.append h
  obtain ⟨glog, hwrites, hbytes, hlast⟩ := encodeGroup_writes hg hrt
  obtain ⟨z₀, hz₀⟩ := hold.contents
  refine ⟨glog, hwrites, hzero.ready, ?_, ?_, hzero.initialised, ⟨z, ?_⟩, ?_, hzero.reservable⟩
  · rw [hmoved, hold.offset, hbytes, logBytes_append, List.length_append]
  · rw [hfrontier, hlast, lastEpoch_append, ← hold.frontier]
  · rw [hfile, hold.offset, hz₀, List.take_left, hbytes, logBytes_append]
  · exact hold.ascending.append (hold.frontier ▸ hwrites.ascending)

theorem start_acceptAll_offset (log : List (Frame mp)) :
    (Progress.start.acceptAll log).offset = (logBytes log).length := by
  rw [Progress.acceptAll_offset]
  simp [Progress.start]

/-- A full scan leaves the instance behind the log it has read. -/
theorem Leaves.holds {file' : Bytes} (h : Leaves file (Progress.start.acceptAll log) wal file')
    (hlog : StandsAt file 0 (logBytes log)) (hasc : AscendingFrom 0 log) :
    Holds wal file' log := by
  have hoff := start_acceptAll_offset log
  have hbelow := h.below
  rw [hoff] at hbelow
  refine ⟨h.ready, h.offset.trans hoff, ?_, h.initialised,
    ⟨file'.length - (logBytes log).length, ?_⟩, hasc, h.reservable⟩
  · rw [h.frontier]
    simp [Progress.start]
  · have htake : file'.take (logBytes log).length = logBytes log := hbelow.trans hlog
    conv_lhs => rw [h.toZeroTail.eq_append, h.offset, hoff, htake]

/-! ## Established logs -/

/-- The logs a scan of a freshly opened file and successful appends behind it
establish, with the records they hold. -/
inductive Established (mp : Msgpack) : Wal → Device → LogRecords → Prop
  | scanned (path : String) (capacity : ℕ) (dev : Device)
      (ok : (scanAndRepair mp (Wal.open path capacity dev) dev 0).result.status = .ok) :
      Established mp (scanAndRepair mp (Wal.open path capacity dev) dev 0).wal
        (scanAndRepair mp (Wal.open path capacity dev) dev 0).dev
        (scanAndRepair mp (Wal.open path capacity dev) dev 0).result.records
  | appended {wal wal' : Wal} {dev dev' : Device} {records : LogRecords} {buckets : Buckets}
      {target : EpochNumber} (before : Established mp wal dev records)
      (roundTrips : ∀ b ∈ buckets.upTo target, mp.RoundTrips b.2)
      (call : appendGroup mp wal dev buckets target = ⟨.ok, wal', dev'⟩) :
      Established mp wal' dev' (records ++ bucketRecords (buckets.upTo target))

/-- **An established log** is a list of frames in front of zeroes whose end the
instance knows. -/
theorem Established.holds {records : LogRecords} (h : Established mp wal dev records) :
    ∃ log : List (Frame mp), Holds wal dev.file log ∧ logRecords log = records := by
  induction h with
  | scanned path capacity dev ok =>
    obtain ⟨q, p, plan, preads, hhop, hpass, -, -, ⟨t, hres⟩, -, hleaves⟩ :=
      scanAndRepair_leaves rfl ok
    obtain rfl := hhop.of_zero
    obtain ⟨log, rfl, hstands, hasc⟩ := hpass.reached fun _ => rfl
    refine ⟨log, hleaves.holds hstands hasc, ?_⟩
    rw [hres]
    simp [Progress.result, Progress.start]
  | appended before roundTrips call ih =>
    obtain ⟨log, hold, hrecords⟩ := ih
    obtain ⟨glog, hwrites, hnext⟩ := hold.append roundTrips call
    exact ⟨log ++ glog, hnext, by rw [logRecords_append, hrecords, hwrites.records]⟩

/-! ## Scans without faults -/

theorem finishScan_sound (wal : Wal) {endOfLog : ℕ} (result : WalScanResult)
    (hinit : wal.initialisedSize = file.length)
    (hres : Reservable wal.initialCapacityBytes file.length endOfLog) :
    (finishScan wal (Device.sound file) result endOfLog).result = result ∧
      ∃ file', (finishScan wal (Device.sound file) result endOfLog).dev = Device.sound file' := by
  obtain ⟨k, hk⟩ := ensureCapacityFor_sound hinit (Nat.zero_le (kOffMax - endOfLog)) hres
  unfold finishScan
  rw [hk]
  exact ⟨rfl, _, rfl⟩

theorem executePlan_sound {plan : Plan} (hp : plan.progress? = some p)
    (hinit : wal.initialisedSize = file.length)
    (herase : ∀ q stop, plan = .zeroTail q stop → Erasable file q.offset stop)
    (hres : Reservable wal.initialCapacityBytes file.length p.offset) :
    (executePlan wal (.sound file) plan).result.status = .ok ∧
      ∃ file', (executePlan wal (.sound file) plan).dev = Device.sound file' := by
  cases plan with
  | refuse => cases hp
  | finish q =>
    obtain rfl : q = p := Option.some.inj hp
    obtain ⟨hresult, hdev⟩ := finishScan_sound wal (q.result false) hinit hres
    exact ⟨by rw [executePlan, hresult]; rfl, hdev⟩
  | zeroTail q stop =>
    obtain rfl : q = p := Option.some.inj hp
    have hstart := (herase q stop rfl).start_lt
    have hstop := (herase q stop rfl).stop_le
    obtain ⟨hlen, -⟩ := writeAt_erasable_zero (herase q stop rfl)
    simp only [executePlan, writeZeroesAndSync_sound (show q.offset ≤ file.length by omega)]
    obtain ⟨hresult, hdev⟩ := finishScan_sound wal (q.result true) (hinit.trans hlen.symm)
      (by rw [hlen]; exact hres)
    exact ⟨by rw [hresult]; rfl, hdev⟩

/-- **A scan on a device whose calls succeed** carries out its plan. -/
theorem scanAndRepair_sound {plan : Plan} (hstate : wal.state ≠ .failed)
    (hinit : wal.initialisedSize = file.length)
    (hplan : planScan mp file wal.path minEpoch [] = .ok (plan, [])) (hp : plan.progress? = some p)
    (hres : Reservable wal.initialCapacityBytes file.length p.offset) :
    ∃ wal' file' t, scanAndRepair mp wal (Device.sound file) minEpoch
        = ⟨p.result t, wal', Device.sound file'⟩ ∧
      Leaves file p wal' file' ∧ (t = true → ∃ q stop, plan = .zeroTail q stop) := by
  have hsized : (wal.sized (.sound file)).initialisedSize = file.length := by
    show max wal.initialisedSize file.length = file.length
    rw [hinit, Nat.max_self]
  have hprogress : plan.progress? ≠ none := by simp [hp]
  obtain ⟨q, pe, ended, hhop, hpass, -, hdecides⟩ := planScan_ok hplan hprogress
  obtain rfl : pe = p := Option.some.inj ((hdecides.progress hprogress).symm.trans hp)
  obtain ⟨herase, hfinish⟩ := planScan_yields.of_script hplan
  obtain ⟨hok, file', hdev⟩ := executePlan_sound hp hsized herase hres
  obtain ⟨⟨t, hresult, ht⟩, -, hleaves⟩ :=
    executePlan_leaves hp hsized (hpass.inside hhop.inside) hfinish herase hok
  rw [hdev] at hleaves
  refine ⟨_, file', t, ?_, hleaves, ht⟩
  rw [scanAndRepair_of_plan hstate rfl hplan, ← hresult, ← hdev]
  rfl

/-- **A sound scan of a log with a cut frame behind it** returns the log. Only a
frame that was cut makes it erase anything. -/
theorem scanAndRepair_sound_torn {payload : Bytes} {epoch : EpochNumber} {m z : ℕ}
    (hstate : wal.state ≠ .failed)
    (hinit : wal.initialisedSize = file.length) (hasc : AscendingFrom 0 log)
    (hfile : file = logBytes log ++ (encodeFrame epoch payload).take m ++ zeros z)
    (hm : m < kHeaderSize + payload.length) (hfits : payload.length ≤ kMaxPayloadSize)
    (hdisc : 0 < m →
      Discernible file (logBytes log).length ((logBytes log).length + m))
    (hres : Reservable wal.initialCapacityBytes file.length (logBytes log).length) :
    ∃ wal' file' t, scanAndRepair mp wal (Device.sound file) 0
        = ⟨(Progress.start.acceptAll log).result t, wal', Device.sound file'⟩ ∧
      Holds wal' file' log ∧ (t = true → 0 < m) := by
  have hlog := standsAt_log hfile
  rw [← start_acceptAll_offset] at hres
  rcases planScan_torn hasc hfile hm hfits hdisc with ⟨hplan, -⟩ | ⟨hpos, stop, hplan⟩
  · obtain ⟨wal', file', t, hrun, hleaves, ht⟩ := scanAndRepair_sound hstate hinit hplan rfl hres
    refine ⟨wal', file', t, hrun, hleaves.holds hlog hasc, fun htrue => ?_⟩
    obtain ⟨q, stop, hne⟩ := ht htrue
    cases hne
  · obtain ⟨wal', file', t, hrun, hleaves, -⟩ := scanAndRepair_sound hstate hinit hplan rfl hres
    exact ⟨wal', file', t, hrun, hleaves.holds hlog hasc, fun _ => hpos⟩

/-! ## A group that was cut short -/

/-- The buckets whose frames lie entirely within the first `k` bytes. -/
def wholeWithin (mp : Msgpack) : ℕ → List (EpochNumber × LogRecords) →
    List (EpochNumber × LogRecords)
  | _, [] => []
  | k, b :: bs =>
    let size := (encodeFrame b.1 (mp.pack b.2)).length
    if size ≤ k then b :: wholeWithin mp (k - size) bs else []

theorem wholeWithin_prefix (mp : Msgpack) (k : ℕ) (bs : List (EpochNumber × LogRecords)) :
    wholeWithin mp k bs <+: bs := by
  induction bs generalizing k with
  | nil => exact List.prefix_rfl
  | cons b bs ih =>
    rw [wholeWithin]
    split
    · obtain ⟨rest, hrest⟩ := ih (k - (encodeFrame b.1 (mp.pack b.2)).length)
      exact ⟨rest, by rw [List.cons_append, hrest]⟩
    · exact ⟨b :: bs, rfl⟩

/-- The first `k` bytes of a group are its whole frames and a proper prefix of
one more. -/
theorem take_bucketBytes {frontier : EpochNumber} {bs : List (EpochNumber × LogRecords)} {k : ℕ}
    (hk : k ≤ (bucketBytes mp bs).length) (henc : ∀ b ∈ bs, Encodable mp frontier b) :
    ∃ (epoch : EpochNumber) (payload : Bytes) (m : ℕ),
      (bucketBytes mp bs).take k
        = bucketBytes mp (wholeWithin mp k bs) ++ (encodeFrame epoch payload).take m ∧
      m = k - (bucketBytes mp (wholeWithin mp k bs)).length ∧
      (bucketBytes mp (wholeWithin mp k bs)).length ≤ k ∧
      m < kHeaderSize + payload.length ∧ payload.length ≤ kMaxPayloadSize := by
  induction bs generalizing k with
  | nil =>
    obtain rfl : k = 0 := by simpa [bucketBytes] using hk
    exact ⟨0, [], 0, rfl, rfl, le_rfl, by decide, by decide⟩
  | cons b bs ih =>
    have hcons : ∀ l, bucketBytes mp (b :: l)
        = encodeFrame b.1 (mp.pack b.2) ++ bucketBytes mp l := fun l => rfl
    rw [wholeWithin]
    split
    · rename_i hwhole
      rw [hcons, List.length_append] at hk
      obtain ⟨epoch, payload, m, htake, hm, hle, hlt, hfits⟩ :=
        ih (k := k - (encodeFrame b.1 (mp.pack b.2)).length) (by omega)
          (fun c hc => henc c (.tail _ hc))
      refine ⟨epoch, payload, m, ?_, ?_, ?_, hlt, hfits⟩
      · rw [hcons, hcons, List.take_append, List.take_of_length_le hwhole, htake, List.append_assoc]
      · rw [hcons, List.length_append]
        omega
      · rw [hcons, List.length_append]
        omega
    · rename_i hcut
      refine ⟨b.1, mp.pack b.2, k, ?_, ?_, Nat.zero_le _, ?_, (henc b (.head _)).fits⟩
      · rw [hcons, List.take_append_of_le_length (by omega)]
        rfl
      · simp [bucketBytes]
      · rw [length_encodeFrame] at hcut
        omega

/-- The file a group write leaves that was cut short after `k` bytes of `group`.
The `z` zeroes behind it are capacity that may have been reserved first. -/
def tornFile (wal : Wal) (dev : Device) (group : Bytes) (k z : ℕ) : Bytes :=
  writeAt dev.file wal.writeOffset (group.take k) ++ zeros z

/-- **A torn group is repaired to its whole frames.** Let the first `k` bytes of
a group that `AppendGroup` would write behind an established log have reached
the file, with zeroes behind them. A fresh scan succeeds and returns the old
records followed by those of the frames that were written whole, with the
matching frontier and end of the log, and leaves only zeroes behind that end. -/
theorem scanAndRepair_torn_group {records : LogRecords} (hest : Established mp wal dev records)
    {buckets : Buckets} {target : EpochNumber}
    (hcall : (appendGroup mp wal (Device.sound dev.file) buckets target).result = .ok)
    (hrt : ∀ b ∈ buckets.upTo target, mp.RoundTrips b.2) {k : ℕ}
    (hk : k ≤ (bucketBytes mp (buckets.upTo target)).length) (z : ℕ) (path : String)
    (hdisc : (bucketBytes mp (wholeWithin mp k (buckets.upTo target))).length < k →
      Discernible (tornFile wal dev (bucketBytes mp (buckets.upTo target)) k z)
        (wal.writeOffset + (bucketBytes mp (wholeWithin mp k (buckets.upTo target))).length)
        (wal.writeOffset + k)) :
    let file := tornFile wal dev (bucketBytes mp (buckets.upTo target)) k z
    let whole := wholeWithin mp k (buckets.upTo target)
    let s := scanAndRepair mp (Wal.open path wal.initialCapacityBytes (Device.sound file))
      (Device.sound file) 0
    s.result.status = .ok ∧ s.result.records = records ++ bucketRecords whole ∧
      s.result.frontier = lastBucket wal.frontier whole ∧
      s.wal.writeOffset = wal.writeOffset + (bucketBytes mp whole).length ∧
      ZeroFrom s.dev.file s.wal.writeOffset := by
  obtain ⟨log, hold, rfl⟩ := hest.holds
  have hsound : Holds wal (Device.sound dev.file).file log := hold
  obtain ⟨g, hg, hres⟩ := hsound.reservable_of_append hcall
  obtain ⟨hbytes, -, henc⟩ := encodeGroup_ok hg
  obtain ⟨bs, hbs⟩ : ∃ bs, bs = buckets.upTo target := ⟨_, rfl⟩
  rw [← hbs] at hrt hk hdisc ⊢
  have hbytes' : g.bytes = bucketBytes mp bs := by rw [hbytes, hbs]; rfl
  have henc' : ∀ b ∈ bs, Encodable mp wal.frontier b := by rw [hbs]; exact henc
  have hasc : bs.Pairwise (fun a b => a.1 < b.1) := by
    rw [hbs]; exact buckets.ascending.sublist (List.takeWhile_sublist _)
  -- the whole frames of the group, as a log behind the old one
  have hpre := wholeWithin_prefix mp k bs
  obtain ⟨wlog, hwlog⟩ := exists_writes (e := wal.frontier)
    (fun b hb => henc' b (hpre.subset hb)) (hasc.sublist hpre.sublist)
    (fun b hb => (henc' b (hpre.subset hb)).frontier_le) (fun b hb => hrt b (hpre.subset hb))
  obtain ⟨epoch, payload, m, htake, hm, hle, hlt, hfits⟩ := take_bucketBytes hk henc'
  obtain ⟨z₀, hz₀⟩ := hold.contents
  obtain ⟨file, hfile⟩ : ∃ file, file = tornFile wal dev (bucketBytes mp bs) k z := ⟨_, rfl⟩
  have hform : file = logBytes (log ++ wlog) ++ (encodeFrame epoch payload).take m
      ++ zeros (z₀ - ((bucketBytes mp bs).take k).length + z) := by
    rw [hfile, tornFile, hz₀, hold.offset, writeAt_append_zeros, List.append_assoc, zeros_append,
      htake, logBytes_append, hwlog.bytes]
    simp only [List.append_assoc]
  have hend : (logBytes (log ++ wlog)).length
      = wal.writeOffset + (bucketBytes mp (wholeWithin mp k bs)).length := by
    rw [logBytes_append, List.length_append, hwlog.bytes, hold.offset]
  have hasc' : AscendingFrom 0 (log ++ wlog) :=
    hold.ascending.append (hold.frontier ▸ hwlog.ascending)
  have hgrown : dev.file.length ≤ file.length := by
    rw [hfile, tornFile, List.length_append, length_writeAt]; omega
  rw [← hfile] at hdisc
  have hstate : (Wal.open path wal.initialCapacityBytes (.sound file)).state ≠ .failed := by
    simp [Wal.open]
  have hinit : (Wal.open path wal.initialCapacityBytes (.sound file)).initialisedSize
      = file.length := rfl
  obtain ⟨wal', file', t, hrun, hold', -⟩ := scanAndRepair_sound_torn hstate hinit hasc' hform hlt
    hfits (fun hpos => by
      rw [hend, show wal.writeOffset + (bucketBytes mp (wholeWithin mp k bs)).length + m
        = wal.writeOffset + k by omega]
      exact hdisc (by omega))
    (hres.mono (by rw [hend, hbytes']; omega) hgrown)
  dsimp only
  rw [← hfile, hrun]
  refine ⟨rfl, ?_, ?_, ?_, hold'.zeroTail.zero⟩
  · simp [Progress.result, Progress.start, hwlog.records]
  · simp [Progress.result, Progress.start, ← hold.frontier, hwlog.last]
  · rw [hold'.offset, hend]

/-- The first frame of a log, cut five bytes into its payload: the scan returns
the empty log and leaves zeroes. -/
theorem scanAndRepair_torn_sample :
    let file := (encodeFrame 1 samplePayload).take 25 ++ zeros 14
    let s := scanAndRepair sampleMsgpack (Wal.open "wal.log" 0 (Device.sound file))
      (Device.sound file) 0
    s.result.status = .ok ∧ s.result.records = [] ∧ s.wal.writeOffset = 0 ∧
      ∀ i, byteAt s.dev.file i = 0 := by
  obtain ⟨s₀, hs₀⟩ : ∃ s₀, s₀ = scanAndRepair sampleMsgpack
    (Wal.open "wal.log" 0 (.sound [])) (.sound []) 0 := ⟨_, rfl⟩
  have hest : Established sampleMsgpack s₀.wal s₀.dev s₀.result.records := by
    rw [hs₀]
    exact .scanned "wal.log" 0 (.sound []) (by decide)
  have hcall : (appendGroup sampleMsgpack s₀.wal (.sound s₀.dev.file) sampleBuckets 1).result
      = .ok := by
    rw [hs₀]; decide +kernel
  have hk : 25 ≤ (bucketBytes sampleMsgpack (sampleBuckets.upTo 1)).length := by decide
  have hfile : tornFile s₀.wal s₀.dev (bucketBytes sampleMsgpack (sampleBuckets.upTo 1)) 25 14
      = (encodeFrame 1 samplePayload).take 25 ++ zeros 14 := by
    rw [hs₀]; decide +kernel
  have hwhole : wholeWithin sampleMsgpack 25 (sampleBuckets.upTo 1) = [] := by decide
  have hoff : s₀.wal.writeOffset = 0 := by rw [hs₀]; decide
  have hcap : s₀.wal.initialCapacityBytes = 0 := by rw [hs₀]; decide
  have hdisc : Discernible ((encodeFrame 1 samplePayload).take 25 ++ zeros 14) 0 25 := by
    refine ⟨by decide +kernel, fun q hq hintact => ?_, by decide +kernel⟩
    have hall : ∀ q, q ≤ 19 → 0 < q →
        ¬ IntactFrameAt ((encodeFrame 1 samplePayload).take 25 ++ zeros 14) q := by decide +kernel
    have hlen : ((encodeFrame 1 samplePayload).take 25 ++ zeros 14).length = 39 := by decide +kernel
    have hin := hintact.1
    have hsize : kHeaderSize = 20 := rfl
    exact hall q (by omega) hq hintact
  have htorn := scanAndRepair_torn_group hest hcall sampleMsgpack_roundTrips hk 14 "wal.log" (by
    rw [hfile, hwhole, hoff]
    exact fun _ => hdisc)
  rw [hfile, hwhole, hoff, hcap] at htorn
  obtain ⟨hok, hrecords, -, hend, hzero⟩ := htorn
  refine ⟨hok, ?_, hend, fun i => hzero i ?_⟩
  · rw [hrecords, hs₀]
    decide
  · rw [hend]
    exact Nat.zero_le _

/-! ## Sessions -/

/-- One step in the life of a log without I/O errors. -/
inductive LogOp where
  | append (buckets : Buckets) (target : EpochNumber)
  /-- A scan: of the open instance, or of one reopened with a capacity. -/
  | scan (reopened : Option ℕ)

/-- An open log and, for reference, the buckets its successful appends wrote. -/
structure Session where
  wal : Wal
  file : Bytes
  acknowledged : List (EpochNumber × LogRecords)

variable {s : Session}

namespace Session

/-- A log that has just been created. -/
def created (path : String) (capacity : ℕ) : Session :=
  ⟨Wal.open path capacity (Device.sound []), [], []⟩

/-- The instance a scan runs on. -/
def scanner (s : Session) : Option ℕ → Wal
  | none => s.wal
  | some capacity => Wal.open s.wal.path capacity (Device.sound s.file)

/-- The scan of a session. -/
def scan (mp : Msgpack) (s : Session) (reopened : Option ℕ) : Scanned :=
  scanAndRepair mp (s.scanner reopened) (Device.sound s.file) 0

/-- One call. -/
def step (mp : Msgpack) (s : Session) : LogOp → Session
  | .append buckets target =>
    let r := appendGroup mp s.wal (Device.sound s.file) buckets target
    ⟨r.wal, r.dev.file,
      if r.result = .ok then s.acknowledged ++ buckets.upTo target else s.acknowledged⟩
  | .scan reopened => ⟨(s.scan mp reopened).wal, (s.scan mp reopened).dev.file, s.acknowledged⟩

/-- All of them. -/
def run (mp : Msgpack) (s : Session) (ops : List LogOp) : Session := ops.foldl (step mp) s

/-- The size a log of `needed` bytes is given under a capacity is a valid file
offset. -/
def FitsOffsets (capacity needed : ℕ) : Prop :=
  needed ≤ kOffMax ∧ (capacity ≠ kNoPreallocation →
    capacityUnits capacity needed * capacity ≤ kOffMax)

/-- The sizes a step would give the log are valid file offsets. -/
def Fits (mp : Msgpack) (s : Session) : LogOp → Prop
  | .append buckets target =>
    ∀ g, encodeGroup mp s.wal.frontier target buckets.entries ⟨[], s.wal.frontier⟩ = .ok g →
      FitsOffsets s.wal.initialCapacityBytes (s.wal.writeOffset + g.bytes.length)
  | .scan reopened => FitsOffsets (s.scanner reopened).initialCapacityBytes s.wal.writeOffset

/-- So are those of every step of a run. -/
def FitsAll (mp : Msgpack) : Session → List LogOp → Prop
  | _, [] => True
  | s, op :: ops => s.Fits mp op ∧ FitsAll mp (s.step mp op) ops

theorem FitsOffsets.reservable {capacity needed : ℕ} (h : FitsOffsets capacity needed) (size : ℕ) :
    Reservable capacity size needed := by
  by_cases hc : capacity = kNoPreallocation
  · exact .inl hc
  · exact .inr (.inr (h.2 hc))

/-- The scan of a log in front of zeroes returns the log and erases nothing. -/
theorem scan_of_log {z : ℕ} (reopened : Option ℕ)
    (hstate : s.wal.state ≠ .failed) (hinit : s.wal.initialisedSize = s.file.length)
    (hasc : AscendingFrom 0 log) (hfile : s.file = logBytes log ++ zeros z)
    (hres : Reservable (s.scanner reopened).initialCapacityBytes s.file.length
      (logBytes log).length) :
    ∃ wal' file', s.scan mp reopened
        = ⟨(Progress.start.acceptAll log).result false, wal', Device.sound file'⟩ ∧
      Holds wal' file' log := by
  have hstate' : (s.scanner reopened).state ≠ .failed := by
    cases reopened with
    | none => exact hstate
    | some => simp [scanner, Wal.open]
  have hinit' : (s.scanner reopened).initialisedSize = s.file.length := by
    cases reopened with
    | none => exact hinit
    | some => rfl
  have hform : s.file = logBytes log ++ (encodeFrame 0 []).take 0 ++ zeros z := by
    rw [List.take_zero, List.append_nil, hfile]
  obtain ⟨wal', file', t, hrun, hold, ht⟩ := scanAndRepair_sound_torn hstate' hinit' hasc hform
    (by decide) (by decide) (fun h => absurd h (by omega)) hres
  have hfalse : t = false := by
    cases t with
    | false => rfl
    | true => exact absurd (ht rfl) (by omega)
  rw [hfalse] at hrun
  exact ⟨wal', file', hrun, hold⟩

/-- The log a session stands behind holds what its successful appends wrote. -/
def Consistent (mp : Msgpack) (s : Session) : Prop :=
  ∃ log : List (Frame mp), Writes s.acknowledged 0 log ∧ Holds s.wal s.file log

/-- **One step.** -/
theorem Consistent.step {op : LogOp} (hs : s.Consistent mp) (hfit : s.Fits mp op)
    (hrt : ∀ buckets target, op = .append buckets target →
      ∀ b ∈ buckets.upTo target, mp.RoundTrips b.2) : (s.step mp op).Consistent mp := by
  obtain ⟨log, hwrites, hold⟩ := hs
  cases op with
  | append buckets target =>
    cases hg : encodeGroup mp s.wal.frontier target buckets.entries ⟨[], s.wal.frontier⟩ with
    | error e =>
      -- a refused call changes nothing
      have hcall : appendGroup mp s.wal (.sound s.file) buckets target
          = ⟨.error e, s.wal, .sound s.file⟩ := appendGroup_refused hold.ready hg
      refine ⟨log, ?_, ?_⟩
      · simpa [Session.step, hcall] using hwrites
      · simp only [Session.step, hcall]
        exact hold
    | ok g =>
      have hfit' := hfit g hg
      have hsize := hfit'.1
      obtain ⟨wal', file', hcall⟩ := appendGroup_sound hold hg (by omega)
        (hfit'.reservable s.file.length)
      have hold' : Holds s.wal (Device.sound s.file).file log := hold
      obtain ⟨glog, hglog, hnext⟩ := hold'.append (hrt buckets target rfl) hcall
      refine ⟨log ++ glog, ?_, ?_⟩
      · simp only [Session.step, hcall, if_true]
        refine hwrites.append ?_
        rw [← hwrites.last, ← hold.frontier]
        exact hglog
      · simpa only [Session.step, hcall] using hnext
  | scan reopened =>
    obtain ⟨z, hz⟩ := hold.contents
    have hfit' : FitsOffsets (s.scanner reopened).initialCapacityBytes s.wal.writeOffset := hfit
    obtain ⟨wal', file', hrun, hold'⟩ := scan_of_log reopened (by simp [hold.ready])
      hold.initialised hold.ascending hz (hold.offset ▸ hfit'.reservable s.file.length)
    refine ⟨log, hwrites, ?_⟩
    simp only [Session.step, hrun]
    exact hold'

/-- **Every run.** -/
theorem Consistent.run {ops : List LogOp} (hs : s.Consistent mp) (hfit : s.FitsAll mp ops)
    (hrt : ∀ buckets target, LogOp.append buckets target ∈ ops →
      ∀ b ∈ buckets.upTo target, mp.RoundTrips b.2) : (s.run mp ops).Consistent mp := by
  induction ops generalizing s with
  | nil => exact hs
  | cons op ops ih =>
    refine ih (hs.step hfit.1 fun buckets target h => hrt buckets target (by simp [h])) hfit.2 ?_
    exact fun buckets target h => hrt buckets target (.tail _ h)

/-- The first scan of a created log. -/
theorem consistent_created {path : String} {capacity : ℕ}
    (hfit : (created path capacity).Fits mp (.scan none)) :
    ((created path capacity).step mp (.scan none)).Consistent mp := by
  have hfit' : FitsOffsets capacity 0 := hfit
  have hfile : (created path capacity).file = logBytes ([] : List (Frame mp)) ++ zeros 0 := rfl
  have hasc : AscendingFrom 0 ([] : List (Frame mp)) := trivial
  obtain ⟨wal', file', hrun, hold⟩ := scan_of_log none (by simp [created, Wal.open]) rfl hasc
    hfile (hfit'.reservable 0)
  refine ⟨[], ⟨rfl, rfl, rfl, trivial⟩, ?_⟩
  simp only [Session.step, hrun]
  exact hold

theorem FitsAll.append {ops₁ ops₂ : List LogOp} (h : s.FitsAll mp (ops₁ ++ ops₂)) :
    s.FitsAll mp ops₁ ∧ (s.run mp ops₁).FitsAll mp ops₂ := by
  induction ops₁ generalizing s with
  | nil => exact ⟨trivial, h⟩
  | cons op ops₁ ih =>
    obtain ⟨hhead, htail⟩ := ih h.2
    exact ⟨⟨h.1, hhead⟩, htail⟩

end Session

/-- Without faults, a call that passes the bucket checks is never refused with
an error of theirs. -/
theorem Holds.refused_of_error (hold : Holds wal file log)
    (h : (appendGroup mp wal (Device.sound file) buckets target).result = .error .einval ∨
      (appendGroup mp wal (Device.sound file) buckets target).result = .error .eoverflow) :
    (appendGroup mp wal (Device.sound file) buckets target).wal = wal ∧
      (appendGroup mp wal (Device.sound file) buckets target).dev = Device.sound file := by
  cases hg : encodeGroup mp wal.frontier target buckets.entries ⟨[], wal.frontier⟩ with
  | error e =>
    have hcall : appendGroup mp wal (.sound file) buckets target
        = ⟨.error e, wal, .sound file⟩ := appendGroup_refused hold.ready hg
    rw [hcall]
    exact ⟨rfl, rfl⟩
  | ok g =>
    exfalso
    by_cases hfit : g.bytes.length ≤ kOffMax - wal.writeOffset ∧
        Reservable wal.initialCapacityBytes file.length (wal.writeOffset + g.bytes.length)
    · obtain ⟨wal', file', hcall⟩ := appendGroup_sound hold hg hfit.1 hfit.2
      rw [hcall] at h
      rcases h with h | h <;> cases h
    · -- the capacity check fails, with an error of its own
      have hcap : ensureCapacityFor wal (.sound file) wal.writeOffset g.bytes.length
          = (some .efbig, wal, .sound file) :=
        ensureCapacityFor_refused hold.initialised hfit
      unfold appendGroup writeGroup at h
      rw [if_neg (by simp [hold.ready]), hg] at h
      dsimp only at h
      rw [hcap] at h
      split at h
      · rcases h with h | h <;> cases h
      · rcases h with h | h <;> cases h

/-- **The round trip of the log.** A log is created and scanned; then groups are
appended, some of them refused, and the log is rescanned or closed and reopened
with any capacity, in any order. As long as the sizes the log would be given
are valid file offsets, a final scan succeeds without erasing anything and
returns exactly the records of the buckets that successful calls wrote, in
order, the epoch of the last such bucket, and the total size of their frames as
the end of the log; and a call refused for its buckets changes nothing. -/
theorem session_round_trip (mp : Msgpack) (path : String) (capacity : ℕ) (ops : List LogOp)
    (final : Option ℕ) (hrt : ∀ buckets target, LogOp.append buckets target ∈ ops →
      ∀ b ∈ buckets.upTo target, mp.RoundTrips b.2)
    (hfits : (Session.created path capacity).FitsAll mp
      (.scan none :: (ops ++ [.scan final]))) :
    let s := (Session.created path capacity).run mp (.scan none :: ops)
    let r := s.scan mp final
    (r.result.status = .ok ∧ r.result.tailTruncated = false ∧
      r.result.records = bucketRecords s.acknowledged ∧
      r.result.frontier = lastBucket 0 s.acknowledged ∧
      r.wal.writeOffset = (bucketBytes mp s.acknowledged).length) ∧
    ∀ buckets target, let call := appendGroup mp s.wal (Device.sound s.file) buckets target
      (call.result = .error .einval ∨ call.result = .error .eoverflow) →
        call.wal = s.wal ∧ call.dev = Device.sound s.file := by
  obtain ⟨hfirst, hrest⟩ := hfits
  obtain ⟨hops, hfinal⟩ := Session.FitsAll.append hrest
  obtain ⟨log, hwrites, hold⟩ := (Session.consistent_created hfirst).run hops hrt
  obtain ⟨s, hs⟩ : ∃ s, s = (Session.created path capacity).run mp (.scan none :: ops) := ⟨_, rfl⟩
  have hlast : s.Fits mp (.scan final) := hs ▸ hfinal.1
  replace hwrites : Writes s.acknowledged 0 log := hs ▸ hwrites
  replace hold : Holds s.wal s.file log := hs ▸ hold
  rw [← hs]
  refine ⟨?_, fun buckets target h => hold.refused_of_error h⟩
  have hfit : Session.FitsOffsets (s.scanner final).initialCapacityBytes s.wal.writeOffset := hlast
  obtain ⟨z, hz⟩ := hold.contents
  obtain ⟨wal', file', hrun, hold'⟩ := Session.scan_of_log final (by simp [hold.ready])
    hold.initialised hold.ascending hz (hold.offset ▸ hfit.reservable s.file.length)
  rw [hrun]
  refine ⟨rfl, rfl, ?_, ?_, ?_⟩
  · simp [Progress.result, Progress.start, hwrites.records]
  · simp [Progress.result, Progress.start, hwrites.last]
  · rw [hold'.offset, hwrites.bytes]

/-- One append behind the first scan, and a reopening without preallocation. -/
theorem session_round_trip_sample :
    let s := (Session.created "wal.log" 0).run sampleMsgpack
      (.scan none :: [.append sampleBuckets 1])
    (s.scan sampleMsgpack (some 0)).result.records = bucketRecords s.acknowledged ∧
      s.acknowledged = [(1, [sampleRecord])] := by
  refine ⟨(session_round_trip sampleMsgpack "wal.log" 0 [.append sampleBuckets 1] (some 0) ?_
    ?_).1.2.2.1, by decide⟩
  · intro buckets target h
    obtain ⟨rfl, rfl⟩ : buckets = sampleBuckets ∧ target = 1 := by simpa using h
    exact sampleMsgpack_roundTrips
  · refine ⟨⟨by decide, by decide⟩, fun g hg => ⟨?_, fun h => absurd (by decide) h⟩,
      ⟨by decide +kernel, by decide⟩, trivial⟩
    obtain ⟨hbytes, -⟩ := encodeGroup_ok hg
    rw [hbytes]
    decide +kernel

/-- A capacity beyond the largest file offset is refused by the first scan. -/
theorem session_round_trip_capacity_too_large :
    let s := (Session.created "wal.log" (2 ^ 63)).run sampleMsgpack [.scan none]
    (s.scan sampleMsgpack none).result.status = .ioError ∧
      ((Session.created "wal.log" (2 ^ 63)).scan sampleMsgpack none).result.errorNumber
        = some .efbig := by
  decide

end LineairDB.Recovery
