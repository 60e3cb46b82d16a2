import LineairDB.Recovery.Append
import LineairDB.Recovery.Tail

/-!
# The repair is safe

What `ScanAndRepair` may and may not do to a file, whatever its bytes are and
whatever the system calls do.

* `scanAndRepair_keeps_acknowledged` — a prefix of acknowledged frames is
  never modified, and a scan that succeeds returns all of its records.
* `scanAndRepair_erases_no_frame` — a tail is erased only when no intact
  frame begins beyond its start.
-/

namespace LineairDB.Recovery

open ByteFile FaultyIo

variable {mp : Msgpack} {wal : Wal} {dev : Device} {minEpoch : EpochNumber}

variable {file : Bytes} {path : String} {plan : Plan} {script rest : List Transfer}

/-! ## The shape of a scan -/

/-- The instance once the scan has seen the size of the file. -/
def Wal.sized (wal : Wal) (dev : Device) : Wal :=
  { wal with initialisedSize := max wal.initialisedSize dev.file.length }

/-- **A scan stops on a failed call with the file untouched, or executes the plan
it made.** -/
theorem scanAndRepair_cases (mp : Msgpack) (wal : Wal) (dev : Device) (minEpoch : EpochNumber) :
    ((scanAndRepair mp wal dev minEpoch).result.status = .ioError ∧
      (scanAndRepair mp wal dev minEpoch).dev.file = dev.file) ∨
    ∃ plan preads read, wal.state ≠ .failed ∧ dev.fstats.headD none = none ∧
      planScan mp dev.file wal.path minEpoch dev.preads = .ok (plan, preads) ∧
      read.file = dev.file ∧
      scanAndRepair mp wal dev minEpoch = executePlan (wal.sized dev) read plan := by
  unfold scanAndRepair Device.fstat
  split
  · exact .inl ⟨rfl, rfl⟩
  rename_i hstate
  cases hstat : dev.fstats.headD none with
  | some => exact .inl ⟨rfl, rfl⟩
  | none =>
    dsimp only
    cases hplan : planScan mp dev.file wal.path minEpoch dev.preads with
    | error => exact .inl ⟨rfl, rfl⟩
    | ok r =>
      exact .inr ⟨r.1, r.2, { dev with preads := r.2, fstats := dev.fstats.tail }, hstate, rfl,
        rfl, rfl, rfl⟩

/-- What a scan does with a plan once it has one. -/
theorem scanAndRepair_of_plan {preads : List Transfer} (hstate : wal.state ≠ .failed)
    (hstat : dev.fstats.headD none = none)
    (hplan : planScan mp dev.file wal.path minEpoch dev.preads = .ok (plan, preads)) :
    scanAndRepair mp wal dev minEpoch
      = executePlan (wal.sized dev) { dev with preads := preads, fstats := dev.fstats.tail }
          plan := by
  unfold scanAndRepair Device.fstat
  rw [if_neg hstate, hstat]
  dsimp only
  rw [hplan]
  rfl

/-- A scan that cannot make a plan. -/
theorem scanAndRepair_of_error {failure : IoFailure}
    (h : planScan mp dev.file wal.path minEpoch dev.preads = .error failure) :
    (scanAndRepair mp wal dev minEpoch).result.status = .ioError ∧
      (scanAndRepair mp wal dev minEpoch).dev.file = dev.file := by
  rcases scanAndRepair_cases mp wal dev minEpoch with hfails | ⟨plan, preads, -, -, -, hplan, -, -⟩
  · exact hfails
  · rw [h] at hplan
    cases hplan

/-- The progress a plan builds on, unless it refuses the file. -/
def Plan.progress? : Plan → Option Progress
  | .refuse _ => none
  | .finish p => some p
  | .zeroTail p _ => some p

/-- A scan that succeeds has carried out a plan. -/
theorem scanAndRepair_ok (hok : (scanAndRepair mp wal dev minEpoch).result.status = .ok) :
    ∃ plan preads, wal.state ≠ .failed ∧ dev.fstats.headD none = none ∧
      planScan mp dev.file wal.path minEpoch dev.preads = .ok (plan, preads) ∧
      plan.progress? ≠ none := by
  rcases scanAndRepair_cases mp wal dev minEpoch with ⟨hfail, -⟩ |
    ⟨plan, preads, read, hstate, hstat, hplan, -, hrun⟩
  · rw [hfail] at hok
    cases hok
  · refine ⟨plan, preads, hstate, hstat, hplan, ?_⟩
    rw [hrun] at hok
    cases plan with
    | refuse => cases hok
    | finish q | zeroTail q => exact nofun

/-- Finishing a scan publishes the end of the log or fails; either way it only
writes behind the initialised region. -/
theorem finishScan_spec {n : ℕ} (result : WalScanResult) (endOfLog : ℕ)
    (hn : n ≤ wal.initialisedSize) (hlen : n ≤ dev.file.length) :
    Keeps n dev.file (finishScan wal dev result endOfLog).dev.file ∧
    ((finishScan wal dev result endOfLog).result.status = .ioError ∨
      (finishScan wal dev result endOfLog).result = result ∧
      (finishScan wal dev result endOfLog).wal.writeOffset = endOfLog) := by
  have hkeep : Keeps n dev.file (ensureCapacityFor wal dev endOfLog 0).2.2.file :=
    ensureCapacityFor_keeps hn hlen
  unfold finishScan
  split
  · rename_i heq
    rw [heq] at hkeep
    exact ⟨hkeep, .inl rfl⟩
  · rename_i heq
    rw [heq] at hkeep
    exact ⟨hkeep, .inr ⟨rfl, rfl⟩⟩

/-- Executing a plan refuses the file unchanged; otherwise it keeps every byte
below the log's end and what the scan had read. -/
theorem executePlan_spec {n : ℕ} {plan : Plan}
    (hlog : ∀ p stop, plan = .zeroTail p stop → n ≤ p.offset)
    (hn : n ≤ wal.initialisedSize) (hlen : n ≤ dev.file.length) :
    Keeps n dev.file (executePlan wal dev plan).dev.file ∧
    ((executePlan wal dev plan).result.status = .corrupt ∧
        (executePlan wal dev plan).dev.file = dev.file ∨
      (executePlan wal dev plan).result.status = .ioError ∨
      ∃ p t, plan.progress? = some p ∧ (executePlan wal dev plan).result = p.result t ∧
        (executePlan wal dev plan).wal.writeOffset = p.offset) := by
  cases plan with
  | refuse => exact ⟨.refl hlen, .inl ⟨rfl, rfl⟩⟩
  | finish p =>
    obtain ⟨hkeep, hend⟩ := finishScan_spec (p.result false) p.offset hn hlen
    refine ⟨hkeep, .inr ?_⟩
    rcases hend with h | ⟨h, hoff⟩
    · exact .inl h
    · exact .inr ⟨p, false, rfl, h, hoff⟩
  | zeroTail p stop =>
    have hzero : Keeps n dev.file (writeZeroesAndSync dev p.offset stop).2.file :=
      writeZeroesAndSync_keeps (hlog p stop rfl) hlen
    simp only [executePlan]
    split
    · rename_i heq
      rw [heq] at hzero
      exact ⟨hzero, .inr (.inl rfl)⟩
    · rename_i heq
      rw [heq] at hzero
      obtain ⟨hkeep, hend⟩ := finishScan_spec (p.result true) p.offset hn hzero.2
      refine ⟨hzero.trans hkeep, .inr ?_⟩
      rcases hend with h | ⟨h, hoff⟩
      · exact .inl h
      · exact .inr ⟨p, true, rfl, h, hoff⟩

/-! ## Plans -/

section Plans

variable {pe : Progress} {ended : ScanEnd}

/-- What the scan decides where it ended, unless it refuses the file. -/
inductive Decides (file : Bytes) (path : String) (pe : Progress) : ScanEnd → Plan → Prop
  | endOfFile : Decides file path pe (.endOfFile pe) (.finish pe)
  | anomaly {a : Anomaly} {e : Option ℕ} {plan : Plan} {script rest : List Transfer}
      (htail : planTail file path pe a e script = .ok (plan, rest)) :
      Decides file path pe (.anomaly pe a e) plan

/-- **A scan that plans hops, walks and decides.** -/
theorem planScan_ok (h : planScan mp file path minEpoch script = .ok (plan, rest))
    (hplan : plan.progress? ≠ none) :
    ∃ q pe ended, HopEnd file minEpoch q ∧ Passes mp file minEpoch q pe ∧
      Stops mp file minEpoch pe ended ∧ Decides file path pe ended plan := by
  obtain ⟨q, mid, hhop, h⟩ := Reading.bind_ok h
  obtain ⟨ended, mid', hloop, h⟩ := Reading.bind_ok h
  obtain ⟨pe, hpass, hstop⟩ :=
    (scanLoop_yields_passes (Nat.le_add_left _ _)).of_script hloop
  refine ⟨q, pe, ended, hop_yields_end.of_script hhop, hpass, hstop, ?_⟩
  cases hstop with
  | endOfFile =>
    cases h
    exact .endOfFile
  | anomaly => exact .anomaly h
  | corrupt =>
    cases h
    exact absurd rfl hplan

theorem Decides.progress (h : Decides file path pe ended plan) (hplan : plan.progress? ≠ none) :
    plan.progress? = some pe := by
  cases h with
  | endOfFile => rfl
  | anomaly htail =>
    obtain ⟨hzero, hfinish⟩ := planTail_yields.of_script htail
    cases plan with
    | refuse => exact absurd rfl hplan
    | finish q => rw [(hfinish q rfl).1]; rfl
    | zeroTail q stop => rw [(hzero q stop rfl).1]; rfl

end Plans

/-! ## Acknowledged prefixes -/

/-- **A full scan gets past every frame of a log that opens the file.** -/
theorem planScan_behind {log : List (Frame mp)} {q : Progress}
    (hlog : StandsAt file 0 (logBytes log)) (hasc : AscendingFrom 0 log)
    (h : planScan mp file path 0 script = .ok (plan, rest)) (hq : plan.progress? = some q) :
    ∃ more : List (Frame mp), q = Progress.start.acceptAll (log ++ more) ∧
      AscendingFrom (lastEpoch 0 log) more ∧ StandsAt file 0 (logBytes (log ++ more)) := by
  have hplan : plan.progress? ≠ none := by simp [hq]
  obtain ⟨start, pe, ended, hhop, hpass, hstop, hdecides⟩ := planScan_ok h hplan
  obtain rfl := hhop.of_zero
  obtain rfl : pe = q := Option.some.inj ((hdecides.progress hplan).symm.trans hq)
  -- through the log first, then on to wherever the scan stops
  have hlogged : Passes mp file 0 Progress.start (Progress.start.acceptAll log) :=
    passes_acceptAll log (Nat.zero_le _) hlog hasc
  obtain ⟨more, rfl, hstands, hmore⟩ :=
    (hlogged.after hpass hstop).reached (hlogged.fresh fun _ => rfl)
  refine ⟨more, ?_, ?_, ?_⟩
  · simp [Progress.acceptAll]
  · simpa [Progress.start] using hmore
  · rw [logBytes_append, standsAt_append]
    exact ⟨hlog, by simpa [Progress.start] using hstands⟩

/-- **An acknowledged prefix survives every scan.** Let the file open with the
frames that successful append calls wrote. A full scan refuses the file, or
fails on a system call, or returns all of their records first, with a
frontier and an end of the log not below theirs. It never modifies a byte of
the prefix, and a scan that refuses the file modifies nothing at all. -/
theorem scanAndRepair_keeps_acknowledged {frontier : EpochNumber}
    {bs : List (EpochNumber × LogRecords)} (hack : Acknowledged mp frontier bs)
    (hrt : ∀ b ∈ bs, mp.RoundTrips b.2) (wal : Wal) (dev : Device)
    (hfile : dev.file.take (bucketBytes mp bs).length = bucketBytes mp bs) :
    ((scanAndRepair mp wal dev 0).result.status = .corrupt ∨
      (scanAndRepair mp wal dev 0).result.status = .ioError ∨
      (scanAndRepair mp wal dev 0).result.status = .ok ∧
        bucketRecords bs <+: (scanAndRepair mp wal dev 0).result.records ∧
        frontier ≤ (scanAndRepair mp wal dev 0).result.frontier ∧
        (bucketBytes mp bs).length ≤ (scanAndRepair mp wal dev 0).wal.writeOffset) ∧
    (scanAndRepair mp wal dev 0).dev.file.take (bucketBytes mp bs).length
      = dev.file.take (bucketBytes mp bs).length ∧
    ((scanAndRepair mp wal dev 0).result.status = .corrupt →
      (scanAndRepair mp wal dev 0).dev.file = dev.file) := by
  obtain ⟨log, hwrites, hlast⟩ := hack.exists_log hrt
  have hlen : (bucketBytes mp bs).length ≤ dev.file.length := by
    have := congrArg List.length hfile
    rw [List.length_take] at this
    omega
  rcases scanAndRepair_cases mp wal dev 0 with ⟨hstatus, hsame⟩ | ⟨plan, preads, read, -, -,
    hplan, hsame, hrun⟩
  · refine ⟨.inr (.inl hstatus), by rw [hsame], fun h => hsame⟩
  · rw [hrun]
    have hstands : StandsAt dev.file 0 (logBytes log) := by
      rw [hwrites.bytes, StandsAt, slice, List.drop_zero]
      exact hfile
    have hoffset : ∀ p, plan.progress? = some p → (bucketBytes mp bs).length ≤ p.offset := by
      intro p hp
      obtain ⟨more, rfl, -⟩ := planScan_behind hstands hwrites.ascending hplan hp
      rw [Progress.acceptAll_offset, logBytes_append, List.length_append, hwrites.bytes]
      omega
    have hinit : (bucketBytes mp bs).length ≤ (wal.sized dev).initialisedSize := by
      simp only [Wal.sized]; omega
    rw [← hsame]
    rw [← hsame] at hlen
    have hzero : ∀ p stop, plan = .zeroTail p stop → (bucketBytes mp bs).length ≤ p.offset :=
      fun p stop hp => hoffset p (by rw [hp]; rfl)
    obtain ⟨hkeep, hend⟩ := executePlan_spec hzero hinit hlen
    refine ⟨?_, hkeep.1, ?_⟩
    · rcases hend with ⟨h, -⟩ | h | ⟨p, t, hp, hres, hoff⟩
      · exact .inl h
      · exact .inr (.inl h)
      · right; right
        rw [hres, hoff]
        obtain ⟨more, rfl, hasc, -⟩ := planScan_behind hstands hwrites.ascending hplan hp
        refine ⟨rfl, ?_, ?_, hoffset _ hp⟩
        · rw [Progress.result, Progress.acceptAll_records, logRecords_append, hwrites.records]
          exact ⟨logRecords more, rfl⟩
        · rw [Progress.result, Progress.acceptAll_frontier, lastEpoch_append, ← hlast]
          exact hasc.le_lastEpoch
    · intro hcorrupt
      rcases hend with ⟨-, h⟩ | h | ⟨p, t, hp, hres, hoff⟩
      · exact h
      · rw [h] at hcorrupt; cases hcorrupt
      · rw [hres] at hcorrupt; cases hcorrupt

/-- A log of one frame with a stray byte behind it. -/
theorem scanAndRepair_keeps_sample :
    (scanAndRepair sampleMsgpack sampleWal (Device.sound (encodeFrame 1 samplePayload ++ [0xff]))
      0).dev.file.take 39 = encodeFrame 1 samplePayload := by
  have hkeep := (scanAndRepair_keeps_acknowledged sampleBuckets_acknowledged
    (by simpa using sampleMsgpack_roundTrips) sampleWal
    (.sound (encodeFrame 1 samplePayload ++ [0xff])) (by decide +kernel)).2.1
  have hlen : (bucketBytes sampleMsgpack ([] ++ sampleBuckets.upTo 1)).length = 39 := by decide
  rw [hlen] at hkeep
  rw [hkeep]
  decide +kernel

/-! ## Surviving frames -/

theorem Keeps.byteAt_eq {n i : ℕ} {file file' : Bytes} (h : Keeps n file file') (hi : i < n) :
    byteAt file' i = byteAt file i := by
  have hget := congrArg (fun bs : Bytes => bs[i]?) h.1
  simp only [List.getElem?_take, if_pos hi] at hget
  simp only [byteAt, List.getD_eq_getElem?_getD, hget]

/-- The scan comes to erase a tail that starts at `start`. -/
def ZeroesTail (mp : Msgpack) (wal : Wal) (dev : Device) (minEpoch : EpochNumber) (start : ℕ) :
    Prop :=
  wal.state ≠ .failed ∧ dev.fstats.headD none = none ∧
    ∃ p stop preads, p.offset = start ∧
      planScan mp dev.file wal.path minEpoch dev.preads = .ok (.zeroTail p stop, preads)

/-- The scan stops at an anomaly at `start`, with bytes behind it that are not zero and none
beyond a broken frame, and looks for a frame up to the last of them; `outcome` is what
becomes of the search. -/
def Searches (mp : Msgpack) (wal : Wal) (dev : Device) (minEpoch : EpochNumber) (start : ℕ)
    (outcome : Except Errno Probe) : Prop :=
  wal.state ≠ .failed ∧ dev.fstats.headD none = none ∧
    ∃ q p a brokenFrameEnd last hopped scanned found, p.offset = start ∧
      hop dev.file wal.path minEpoch dev.preads = .ok (q, hopped) ∧
      scanLoop mp dev.file wal.path minEpoch dev.file.length q hopped
        = .ok (.anomaly p a brokenFrameEnd, scanned) ∧
      findLastNonZero dev.file start dev.file.length scanned = .ok (some last, found) ∧
      brokenFrameEnd.any (· ≤ last) = false ∧
      (searchForFrameAfter dev.file start (last + 1) found).map Prod.fst = outcome

/-- A tail is erased only after a search past its start that ran to its end,
without a read error and within its budget, and found no frame. -/
theorem ZeroesTail.search {start : ℕ} (h : ZeroesTail mp wal dev minEpoch start) :
    Searches mp wal dev minEpoch start (.ok .noFrame) := by
  obtain ⟨hstate, hstat, p, stop, preads, rfl, hplan⟩ := h
  obtain ⟨q, hopped, hhop, hplan⟩ := Reading.bind_ok hplan
  obtain ⟨ended, scanned, hscan, hplan⟩ := Reading.bind_ok hplan
  cases ended with
  | corrupt | endOfFile => cases hplan
  | anomaly p' a brokenFrameEnd =>
    obtain ⟨last, found, hlast, hplan⟩ := Reading.bind_ok hplan
    cases last with
    | none => cases hplan
    | some last =>
      dsimp only at hplan
      split at hplan
      · cases hplan
      rename_i hbroken
      obtain ⟨probe, script₃, hsearch, hplan⟩ := Reading.bind_ok hplan
      cases probe with
      | frame | undecidable => cases hplan
      | noFrame =>
        cases hplan
        refine ⟨hstate, hstat, q, p, a, brokenFrameEnd, last, hopped, scanned, found, rfl, hhop,
          hscan, Reading.orElse_ok hlast, eq_false_of_ne_true hbroken, ?_⟩
        rw [Reading.orElse_ok hsearch]
        rfl

/-- How a scan ends whose search did not come to its end without a frame. -/
def refusal : Except Errno Probe → ScanStatus
  | .error _ => .ioError
  | .ok _ => .corrupt

/-- **A frame, a budget that is used up or a read error makes the scan refuse**, with the file
as it was. -/
theorem Searches.refuses {start : ℕ} {outcome : Except Errno Probe}
    (h : Searches mp wal dev minEpoch start outcome) (hne : outcome ≠ .ok .noFrame) :
    (scanAndRepair mp wal dev minEpoch).result.status = refusal outcome ∧
      (scanAndRepair mp wal dev minEpoch).dev.file = dev.file := by
  obtain ⟨hstate, hstat, q, p, a, brokenFrameEnd, last, hopped, scanned, found, rfl, hhop, hscan,
    hlast, hbroken, rfl⟩ := h
  have hplan : planScan mp dev.file wal.path minEpoch dev.preads
      = planTail dev.file wal.path p a brokenFrameEnd scanned := by
    rw [planScan, Reading.bind_eq_of_ok hhop, Reading.bind_eq_of_ok hscan]
  rw [planTail, Reading.bind_eq_of_ok (Reading.orElse_eq_of_ok hlast)] at hplan
  dsimp only at hplan
  rw [if_neg (by rw [hbroken]; exact Bool.false_ne_true)] at hplan
  cases hsearch : searchForFrameAfter dev.file p.offset (last + 1) found with
  | error e =>
    simp only [Bind.bind, Reading.orElse, hsearch] at hplan
    exact scanAndRepair_of_error hplan
  | ok r =>
    rw [Reading.bind_eq_of_ok (Reading.orElse_eq_of_ok hsearch)] at hplan
    obtain ⟨probe, rest⟩ := r
    cases probe with
    | noFrame => exact absurd (by rw [hsearch]; rfl) hne
    | frame | undecidable =>
      rw [scanAndRepair_of_plan hstate hstat hplan]
      exact ⟨rfl, rfl⟩

/-- **Repair never erases a surviving frame.** Whatever the file holds and
whatever the system calls do: a byte of the file changes only where a tail is
erased; a tail is erased only when no intact frame begins beyond its start, and
only after the search for one ran to the last byte that is not zero; and a search
that finds a frame, uses up its budget or fails on a read makes the scan refuse
the file, as a failed read anywhere does, with every byte as it was. -/
theorem scanAndRepair_erases_no_frame (mp : Msgpack) (wal : Wal) (dev : Device)
    (minEpoch : EpochNumber) :
    (∀ start, ZeroesTail mp wal dev minEpoch start →
      (∀ q, start < q → ¬ IntactFrameAt dev.file q) ∧
        Searches mp wal dev minEpoch start (.ok .noFrame)) ∧
    (∀ start outcome, Searches mp wal dev minEpoch start outcome → outcome ≠ .ok .noFrame →
      (scanAndRepair mp wal dev minEpoch).result.status = refusal outcome ∧
        (scanAndRepair mp wal dev minEpoch).dev.file = dev.file) ∧
    (∀ failure, planScan mp dev.file wal.path minEpoch dev.preads = .error failure →
      (scanAndRepair mp wal dev minEpoch).result.status = .ioError ∧
        (scanAndRepair mp wal dev minEpoch).dev.file = dev.file) ∧
    (∀ i, i < dev.file.length →
      byteAt (scanAndRepair mp wal dev minEpoch).dev.file i ≠ byteAt dev.file i →
      ∃ start, start ≤ i ∧ ZeroesTail mp wal dev minEpoch start) := by
  refine ⟨?_, fun start outcome h hne => h.refuses hne, fun _ => scanAndRepair_of_error, ?_⟩
  · intro start h
    refine ⟨?_, h.search⟩
    obtain ⟨-, -, p, stop, preads, rfl, hplan⟩ := h
    exact ((planScan_yields.of_script hplan).1 p stop rfl).no_frame
  · intro i hi hne
    rcases scanAndRepair_cases mp wal dev minEpoch with ⟨-, hsame⟩ | ⟨plan, preads, read, hstate,
      hstat, hplan, hsame, hrun⟩
    · exact absurd (by rw [hsame]) hne
    · by_contra hnone
      have hzero : ∀ p stop, plan = .zeroTail p stop → i + 1 ≤ p.offset := by
        -- otherwise the tail this plan erases would start at or below `i`
        rintro p stop rfl
        by_contra hlt
        exact hnone ⟨p.offset, by omega, hstate, hstat, p, stop, preads, rfl, hplan⟩
      have hinit : i + 1 ≤ (wal.sized dev).initialisedSize := by
        simp only [Wal.sized]; omega
      have hkeep := (executePlan_spec hzero hinit (by rw [hsame]; exact hi)).1
      rw [hsame, ← hrun] at hkeep
      exact hne (hkeep.byteAt_eq (Nat.lt_succ_self i))

end LineairDB.Recovery
