import LineairDB.Recovery.Repair

/-!
# Hopping over covered frames

A scan that is only after the epochs above some least one hops over the frames
before it by their headers, and verifies the checksum of the last one only.
Where a full scan accepts the file, nothing is lost by that: the hop may walk
over a torn frame, but then the guard gives it away.

* `HopEnd.covered` — it ends where the full scan comes by, or gives up.
* `hop_equals_full_scan` — the records above the least epoch, the frontier, the
  end of the log and the file are those of the full scan.
-/

namespace LineairDB.Recovery

open ByteFile FaultyIo

variable {p' pe : Progress} {rest script : List Transfer} {plan : Plan} {guard : Option Guard}
  {ended : ScanEnd} {wal : Wal} {dev : Device}

variable {mp : Msgpack} {file : Bytes} {path : String} {least minEpoch : EpochNumber}
  {p q : Progress}

/-! ## The search past a tail -/

theorem probePayload_determined (rounds pos remaining ioBudget : ℕ) (crc : UInt32) :
    Determined (probePayload file rounds pos remaining crc ioBudget) := by
  induction rounds generalizing pos remaining ioBudget crc with
  | zero => exact .pure _
  | succ rounds ih =>
    rw [probePayload]
    split
    · exact .pure _
    dsimp only
    split
    · exact .pure _
    · exact .bind (read_determined _ _ _) fun chunk => ih _ _ _ _

theorem probeFrameAt_determined (offset ioBudget : ℕ) :
    Determined (probeFrameAt file offset ioBudget) := by
  unfold probeFrameAt
  split
  · exact .pure _
  split
  · exact .pure _
  refine .bind (read_determined _ _ _) fun header => ?_
  dsimp only
  split
  · exact .pure _
  split
  · exact .pure _
  split
  · exact .pure _
  refine .bind (probePayload_determined _ _ _ _ _) fun r => ?_
  split <;> exact .pure _

theorem probeWindow_determined (chunk : Bytes) (pos ioBudget : ℕ) :
    Determined (probeWindow file chunk pos ioBudget) := by
  induction chunk generalizing pos ioBudget with
  | nil => exact .pure _
  | cons b rest ih =>
    rw [probeWindow]
    split
    · exact .pure _
    split
    · exact ih _ _
    refine .bind (probeFrameAt_determined _ _) fun r => ?_
    split
    · exact .pure _
    · exact ih _ _

theorem searchLoop_determined (searchEnd rounds pos ioBudget : ℕ) :
    Determined (searchLoop file searchEnd rounds pos ioBudget) := by
  induction rounds generalizing pos ioBudget with
  | zero => exact .pure _
  | succ rounds ih =>
    rw [searchLoop]
    split
    · exact .pure _
    dsimp only
    split
    · exact .pure _
    refine .bind (read_determined _ _ _) fun chunk => ?_
    refine .bind (probeWindow_determined _ _ _) fun r => ?_
    split
    · exact .pure _
    split
    · exact .pure _
    · exact ih _ _

theorem findLastNonZeroLoop_determined (stop rounds pos : ℕ) (last : Option ℕ) :
    Determined (findLastNonZeroLoop file stop rounds pos last) := by
  induction rounds generalizing pos last with
  | zero => exact .pure _
  | succ rounds ih =>
    rw [findLastNonZeroLoop]
    split
    · exact .pure _
    · exact .bind (read_determined _ _ _) fun chunk => ih _ _

/-- The plan `plan` with the progress `p` in it. -/
def Plan.withProgress (p : Progress) : Plan → Plan
  | .refuse detail => .refuse detail
  | .finish _ => .finish p
  | .zeroTail _ stop => .zeroTail p stop

/-- **The decision about a tail depends on where it begins only.** -/
theorem planTail_withProgress {a : Anomaly} {e : Option ℕ} {script' rest' : List Transfer}
    {plan' : Plan} (hoff : p'.offset = p.offset)
    (h : planTail file path p a e script = .ok (plan, rest))
    (h' : planTail file path p' a e script' = .ok (plan', rest')) :
    plan' = plan.withProgress p' := by
  obtain ⟨last, mid, hlast, h⟩ := Reading.bind_ok h
  obtain ⟨last', mid', hlast', h'⟩ := Reading.bind_ok h'
  rw [hoff] at hlast' h'
  obtain rfl := ((findLastNonZeroLoop_determined _ _ _ _).orElse _).unique hlast hlast'
  cases last with
  | none =>
    cases h
    cases h'
    rfl
  | some last =>
    dsimp only at h h'
    split at h
    · rename_i hbeyond
      rw [if_pos hbeyond] at h'
      cases h
      cases h'
      rfl
    · rename_i hbeyond
      rw [if_neg hbeyond] at h'
      obtain ⟨probe, mid, hprobe, h⟩ := Reading.bind_ok h
      obtain ⟨probe', mid', hprobe', h'⟩ := Reading.bind_ok h'
      obtain rfl := ((searchLoop_determined _ _ _ _).orElse _).unique hprobe hprobe'
      cases probe <;> cases h <;> cases h' <;> rfl

/-! ## Where the hop ends -/

/-- A scan from `least` on comes to `pe` and ends there, without refusing the file:
if a frame is broken there, nothing follows it. -/
structure Completes (mp : Msgpack) (file : Bytes) (least : EpochNumber) (pe : Progress)
    (ended : ScanEnd) : Prop where
  passes : Passes mp file least Progress.start pe
  stops : Stops mp file least pe ended
  not_corrupt : ∀ detail, ended ≠ .corrupt detail
  nothing_beyond : ∀ a frameEnd, ended = .anomaly pe a (some frameEnd) →
    ∀ i, pe.offset ≤ i → frameEnd ≤ i → byteAt file i = 0

/-- Where the hop is: where the scan comes by, or astray behind a broken frame that
was the last thing in the file. -/
inductive HopState (mp : Msgpack) (file : Bytes) (least minEpoch : EpochNumber) (pe : Progress) :
    Progress → Option Guard → Prop
  | along {p p' : Progress} {guard : Option Guard} (hrest : Passes mp file least p pe)
      (hcov : Covers minEpoch p p')
      (hguard : ∀ g, guard = some g → g.Verifies file) :
      HopState mp file least minEpoch pe p' guard
  | astray {p' : Progress} {g : Guard} (hbroken : ¬ g.Verifies file)
      (hzero : ∀ i, p'.offset ≤ i → byteAt file i = 0) :
      HopState mp file least minEpoch pe p' (some g)

/-- Zeroes are no header. -/
theorem headerAnomaly_of_zero {off : ℕ} (h : ZeroFrom file off) :
    (headerAnomaly (headerAt file off)).isSome = true := by
  have hall : AllZero (slice (slice file off kHeaderSize) 0 4) := by
    rw [slice_slice (by decide), Nat.add_zero, slice, drop_eq_zeros h]
    exact (allZero_zeros _).take 4
  have hmagic : (headerAt file off).magic ≠ kMagic := by
    show getLe (slice (slice file off kHeaderSize) 0 4) ≠ kMagic
    rw [getLe_eq_zero_of_allZero hall]
    decide
  rw [headerAnomaly, if_pos hmagic]
  rfl

/-- **One hop.** -/
theorem HopState.hop {q' : Progress} {g : Guard} (hfull : Completes mp file least pe ended)
    (h : HopState mp file least minEpoch pe p' guard)
    (hhop : hopStep file minEpoch p' = .hopped q' g) :
    HopState mp file least minEpoch pe q' (some g) := by
  obtain ⟨⟨hlong, hsane, hend, -, -, hcovered⟩, rfl, rfl⟩ := hopStep_hopped.mp hhop
  cases h with
  | astray hbroken hzero =>
    have hsome := headerAnomaly_of_zero hzero
    rw [hsane] at hsome
    cases hsome
  | @along p _ _ hrest hcov hguard =>
    rw [hcov.offset] at hlong hsane hend hcovered ⊢
    have hsize : kHeaderSize = 20 := rfl
    by_cases hcrc : frameCrc (slice file p.offset kHeaderSize) (payloadAt file p.offset)
        = (headerAt file p.offset).storedCrc
    · -- a frame the scan accepts, unless it refuses the file
      have hat : FrameAt file p.offset := ⟨hlong, hsane, hend, hcrc⟩
      cases hrest with
      | refl =>
        exfalso
        cases hfull.stops with
        | endOfFile => omega
        | anomaly _ hframe =>
          rw [frameStep_of_frameAt hat] at hframe
          exact acceptFrame_ne_anomaly hframe
        | corrupt => exact hfull.not_corrupt _ rfl
      | @step _ q _ hin hframe hrest =>
        rw [frameStep_of_frameAt hat] at hframe
        refine .along hrest ((acceptFrame_accepted.mp hframe).2.2.covers_skip hcov hcovered) ?_
        rintro g ⟨⟩
        exact hcrc
    · -- the broken frame the scan stops at
      have hframe : frameStep mp file least p
          = .anomaly .checksumMismatch
            (some (p.offset + kHeaderSize + (headerAt file p.offset).payloadSize)) := by
        unfold frameStep
        rw [if_neg (by omega)]
        simp only [hsane]
        rw [if_neg (Nat.not_lt.mpr hend), if_pos hcrc]
      cases hrest with
      | refl =>
        have hstops : Stops mp file least pe (.anomaly pe .checksumMismatch
            (some (pe.offset + kHeaderSize + (headerAt file pe.offset).payloadSize))) :=
          .anomaly (by omega) hframe
        refine .astray hcrc fun i hi => ?_
        have hi' : pe.offset + kHeaderSize + (headerAt file pe.offset).payloadSize ≤ i := by
          simpa [Progress.skip, hcov.offset] using hi
        exact hfull.nothing_beyond _ _ (hfull.stops.unique hstops) i (by omega) hi'
      | step _ haccepted =>
        rw [hframe] at haccepted
        cases haccepted

theorem Hops.state {q' : Progress} {guard' : Option Guard}
    (hfull : Completes mp file least pe ended) (hhops : Hops file minEpoch p' guard q' guard')
    (h : HopState mp file least minEpoch pe p' guard) :
    HopState mp file least minEpoch pe q' guard' := by
  induction hhops with
  | refl => exact h
  | step hhop _ ih => exact ih (h.hop hfull hhop)

/-- **The hop ends where the scan comes by**, or it gives up and leaves everything to
the scan. -/
theorem HopEnd.covered (hfull : Completes mp file least pe ended) (h : HopEnd file minEpoch q) :
    ∃ p, Passes mp file least p pe ∧ Covers minEpoch p q := by
  have hstart : ∃ p, Passes mp file least p pe ∧ Covers minEpoch p Progress.start :=
    ⟨.start, hfull.passes, .start⟩
  cases h with
  | full | gaveUp | broken => exact hstart
  | hopped _ hhops _ hguard =>
    have hstate : HopState mp file least minEpoch pe Progress.start none :=
      .along hfull.passes .start (by simp)
    cases hhops.state hfull hstate with
    | along hrest hcov => exact ⟨_, hrest, hcov⟩
    | astray hbroken => exact absurd (hguard _ rfl) hbroken

/-! ## Plans -/

/-- Where a tail is kept or erased, nothing follows a frame that is broken there. -/
theorem planTail_nothing_beyond {a : Anomaly} {frameEnd : ℕ}
    (h : planTail file path p a (some frameEnd) script = .ok (plan, rest))
    (hplan : plan.progress? ≠ none) : ∀ i, p.offset ≤ i → frameEnd ≤ i → byteAt file i = 0 := by
  obtain ⟨last, mid, hlast, h⟩ := Reading.bind_ok h
  have hlast := ((findLastNonZero_yields le_rfl).orElse _).of_script hlast
  intro i hoff hi
  by_cases hin : i < file.length
  · cases last with
    | none => exact hlast i hoff hin
    | some last =>
      dsimp only at h
      split at h
      · cases h
        exact absurd rfl hplan
      · rename_i hbeyond
        have hlt : last < frameEnd := by simpa using hbeyond
        exact hlast.2.2.2 i (by omega) hin
  · exact byteAt_of_length_le (by omega)

theorem completes_of_decides (hpass : Passes mp file least Progress.start pe)
    (hstop : Stops mp file least pe ended) (hdecides : Decides file path pe ended plan)
    (hplan : plan.progress? ≠ none) : Completes mp file least pe ended where
  passes := hpass
  stops := hstop
  not_corrupt detail h := by
    rw [h] at hdecides
    cases hdecides
  nothing_beyond a frameEnd h := by
    rw [h] at hdecides
    cases hdecides with
    | anomaly htail => exact planTail_nothing_beyond htail hplan

/-- **A scan of less makes the same plan.** Where a scan plans at `pe`, a scan from a
higher epoch on plans the same, if its hop ends where the first one comes by. -/
theorem planScan_covered {plan' : Plan} (hle : least ≤ minEpoch)
    (hend : ∀ q, HopEnd file minEpoch q → ∃ p, Passes mp file least p pe ∧ Covers minEpoch p q)
    (hstop : Stops mp file least pe ended) (hdecides : Decides file path pe ended plan)
    (h : planScan mp file path minEpoch script = .ok (plan', rest)) :
    ∃ pe', Covers minEpoch pe pe' ∧ plan' = plan.withProgress pe' := by
  obtain ⟨q, mid, hhop, h⟩ := Reading.bind_ok h
  obtain ⟨ended', mid', hloop, h⟩ := Reading.bind_ok h
  obtain ⟨p, hrest, hcov⟩ := hend q (hop_yields_end.of_script hhop)
  obtain ⟨pe', hpass', hcov'⟩ := hrest.covered hle hcov
  obtain ⟨pe'', hpass'', hstop''⟩ :=
    (scanLoop_yields_passes (Nat.le_add_left _ _)).of_script hloop
  refine ⟨pe', hcov', ?_⟩
  cases hdecides with
  | endOfFile =>
    cases hstop with
    | endOfFile hend =>
      have hstop' : Stops mp file minEpoch pe' (.endOfFile pe') :=
        .endOfFile (by rw [hcov'.offset]; exact hend)
      obtain ⟨-, rfl⟩ := hpass'.unique hstop' hpass'' hstop''
      cases h
      rfl
  | anomaly htail =>
    cases hstop with
    | anomaly hin hframe =>
      have hstop' := Stops.anomaly (p := pe') (by rw [hcov'.offset]; exact hin)
        (frameStep_anomaly_covers hcov' hframe)
      obtain ⟨-, rfl⟩ := hpass'.unique hstop' hpass'' hstop''
      exact planTail_withProgress hcov'.offset htail h

/-! ## Carrying plans out -/

theorem writeZeroesAndSync_preads (dev : Device) (preads : List Transfer) (start stop : ℕ) :
    writeZeroesAndSync { dev with preads := preads } start stop
      = ((writeZeroesAndSync dev start stop).1,
          { (writeZeroesAndSync dev start stop).2 with preads := preads }) := by
  unfold writeZeroesAndSync
  split
  · rfl
  · dsimp only
    split <;> rfl

theorem ensureCapacityFor_preads (wal : Wal) (dev : Device) (preads : List Transfer)
    (endOfLog groupSize : ℕ) :
    ensureCapacityFor wal { dev with preads := preads } endOfLog groupSize
      = ((ensureCapacityFor wal dev endOfLog groupSize).1,
          (ensureCapacityFor wal dev endOfLog groupSize).2.1,
          { (ensureCapacityFor wal dev endOfLog groupSize).2.2 with preads := preads }) := by
  unfold ensureCapacityFor
  dsimp only
  split_ifs
  all_goals try rfl
  rw [writeZeroesAndSync_preads]
  cases hwrite : writeZeroesAndSync dev wal.initialisedSize _ with
  | mk error => cases error <;> rfl

theorem finishScan_covers {result result' : WalScanResult} {endOfLog : ℕ} (preads : List Transfer)
    (hok : (finishScan wal dev result endOfLog).result.status = .ok)
    (hfrontier : result'.frontier = result.frontier) :
    (finishScan wal dev result endOfLog).result = result ∧
      finishScan wal { dev with preads := preads } result' endOfLog
        = ⟨result', (finishScan wal dev result endOfLog).wal,
            { (finishScan wal dev result endOfLog).dev with preads := preads }⟩ := by
  unfold finishScan at hok ⊢
  have hsame := ensureCapacityFor_preads wal dev preads endOfLog 0
  cases hcap : ensureCapacityFor wal dev endOfLog 0 with
  | mk error =>
    rw [hcap] at hok hsame
    cases error with
    | some => cases hok
    | none =>
      rw [hsame]
      exact ⟨rfl, by rw [hfrontier]⟩

theorem Covers.result_frontier (h : Covers minEpoch p p') (t : Bool) :
    (p'.result t).frontier = (p.result t).frontier := h.frontier

/-- **The same plan is carried out the same way.** -/
theorem executePlan_covers {pe' : Progress} (preads : List Transfer) (hcov : Covers minEpoch pe pe')
    (hplan : plan.progress? = some pe) (hok : (executePlan wal dev plan).result.status = .ok) :
    ∃ t, (executePlan wal dev plan).result = pe.result t ∧
      executePlan wal { dev with preads := preads } (plan.withProgress pe')
        = ⟨pe'.result t, (executePlan wal dev plan).wal,
            { (executePlan wal dev plan).dev with preads := preads }⟩ := by
  cases plan with
  | refuse => cases hplan
  | finish q =>
    obtain rfl : q = pe := Option.some.inj hplan
    simp only [executePlan, Plan.withProgress] at hok ⊢
    rw [hcov.offset]
    obtain ⟨hres, hrun⟩ := finishScan_covers preads hok (hcov.result_frontier false)
    exact ⟨false, hres, hrun⟩
  | zeroTail q stop =>
    obtain rfl : q = pe := Option.some.inj hplan
    simp only [executePlan, Plan.withProgress] at hok ⊢
    have hsame := writeZeroesAndSync_preads dev preads q.offset stop
    rw [hcov.offset]
    cases hwrite : writeZeroesAndSync dev q.offset stop with
    | mk error =>
      rw [hwrite] at hok hsame
      cases error with
      | some => cases hok
      | none =>
        rw [hsame]
        obtain ⟨hres, hrun⟩ := finishScan_covers preads hok (hcov.result_frontier true)
        exact ⟨true, hres, hrun⟩

/-! ## The hop and the full scan -/

/-- **The header hop is the full scan, filtered.** Where a full scan accepts the
file, a scan from any epoch on returns the records above it, in order, with the
same frontier, the same end of the log and the same verdict on the tail, and
leaves the same bytes; unless one of its reads fails, which on a device whose
reads are served it does not. -/
theorem hop_equals_full_scan (mp : Msgpack) (wal : Wal) (dev : Device) (minEpoch : EpochNumber)
    (hok : (scanAndRepair mp wal dev 0).result.status = .ok) :
    (dev.preads = [] → (scanAndRepair mp wal dev minEpoch).result.status = .ok) ∧
    ((scanAndRepair mp wal dev minEpoch).result.status = .ioError ∨
      (scanAndRepair mp wal dev minEpoch).result.status = .ok ∧
      (scanAndRepair mp wal dev minEpoch).result.records
        = (scanAndRepair mp wal dev 0).result.records.filter
            (fun record => minEpoch < record.epoch) ∧
      (scanAndRepair mp wal dev minEpoch).result.frontier
        = (scanAndRepair mp wal dev 0).result.frontier ∧
      (scanAndRepair mp wal dev minEpoch).result.tailTruncated
        = (scanAndRepair mp wal dev 0).result.tailTruncated ∧
      (scanAndRepair mp wal dev minEpoch).wal.writeOffset
        = (scanAndRepair mp wal dev 0).wal.writeOffset ∧
      (scanAndRepair mp wal dev minEpoch).dev.file = (scanAndRepair mp wal dev 0).dev.file) := by
  obtain ⟨plan, preads, hstate, hstat, hplan, hprogress⟩ := scanAndRepair_ok hok
  obtain ⟨q, pe, ended, hhop, hpass, hstop, hdecides⟩ := planScan_ok hplan hprogress
  obtain rfl := hhop.of_zero
  rw [scanAndRepair_of_plan hstate hstat hplan] at hok ⊢
  cases hplan' : planScan mp dev.file wal.path minEpoch dev.preads with
  | error =>
    refine ⟨fun hnil => ?_, .inl ?_⟩
    · have hserved : ∃ plan', planScan mp dev.file wal.path minEpoch [] = .ok (plan', []) :=
        planScan_yields.of_empty
      obtain ⟨plan', hrun⟩ := hserved
      rw [hnil, hrun] at hplan'
      cases hplan'
    · unfold scanAndRepair Device.fstat
      rw [if_neg hstate, hstat]
      dsimp only
      rw [hplan']
      rfl
  | ok r =>
    obtain ⟨plan', preads'⟩ := r
    have hfull := completes_of_decides hpass hstop hdecides hprogress
    obtain ⟨pe', hcov, rfl⟩ := planScan_covered (UInt32.zero_le)
      (fun q hq => hq.covered hfull) hstop hdecides hplan'
    obtain ⟨t, hres, hrun⟩ :=
      executePlan_covers preads' hcov (hdecides.progress hprogress) hok
    rw [scanAndRepair_of_plan hstate hstat hplan', hrun, hres]
    exact ⟨fun _ => rfl, .inr ⟨rfl, hcov.records, hcov.frontier, rfl, rfl, rfl⟩⟩

/-- A log of one frame, and a second frame whose last bytes were never written. -/
def tornSample : Device :=
  .sound (encodeFrame 1 samplePayload ++ (encodeFrame 1 samplePayload).take 30 ++ zeros 9)

/-- The hop walks over the torn frame, which the guard gives away. -/
theorem hop_equals_full_scan_torn :
    (scanAndRepair sampleMsgpack sampleWal tornSample 0).result.status = .ok ∧
      (scanAndRepair sampleMsgpack sampleWal tornSample 0).result.tailTruncated = true ∧
      (scanAndRepair sampleMsgpack sampleWal tornSample 1).result.status = .ok ∧
      (scanAndRepair sampleMsgpack sampleWal tornSample 1).dev.file
        = (scanAndRepair sampleMsgpack sampleWal tornSample 0).dev.file := by
  have hok : (scanAndRepair sampleMsgpack sampleWal tornSample 0).result.status = .ok := by
    decide +kernel
  obtain ⟨hserved, hsame⟩ := hop_equals_full_scan sampleMsgpack sampleWal tornSample 1 hok
  have hstatus := hserved rfl
  refine ⟨hok, by decide +kernel, hstatus, ?_⟩
  rcases hsame with hfail | ⟨-, -, -, -, -, hfile⟩
  · rw [hstatus] at hfail
    cases hfail
  · exact hfile

end LineairDB.Recovery
