import LineairDB.Recovery.Hop
import LineairDB.Recovery.RoundTrip

/-!
# The zeroes behind the log

Whatever a file held, a scan that succeeds leaves nothing but zeroes behind the
end of the log, and so does every append. The end of the log is found by these
zeroes, so a second scan comes to the same end.

* `rescan_plan` — a scan of what a scan left plans to erase nothing and ends where
  the first one did.
* `zero_tail_and_rescan` — both for whole histories, with the one file a hop does
  not scan twice alike left out; `rescan_short_tail_refused` is that file.
-/

namespace LineairDB.Recovery

open ByteFile FaultyIo

variable {file : Bytes} {mp : Msgpack} {wal : Wal} {dev : Device} {minEpoch : EpochNumber}
  {path : String}

/-! ## What appends leave -/

/-- Successful appends, one after the other, and the buckets they wrote. -/
inductive Appends (mp : Msgpack) (wal : Wal) (dev : Device) :
    Wal → Device → List (EpochNumber × LogRecords) → Prop
  | none : Appends mp wal dev wal dev []
  | append {wal₁ wal₂ : Wal} {dev₁ dev₂ : Device} {bs : List (EpochNumber × LogRecords)}
      {buckets : Buckets} {target : EpochNumber} (before : Appends mp wal dev wal₁ dev₁ bs)
      (call : appendGroup mp wal₁ dev₁ buckets target = ⟨.ok, wal₂, dev₂⟩) :
      Appends mp wal dev wal₂ dev₂ (bs ++ buckets.upTo target)

theorem Appends.zeroTail {wal' : Wal} {dev' : Device} {bs : List (EpochNumber × LogRecords)}
    (h : Appends mp wal dev wal' dev' bs) (hzero : ZeroTail wal dev.file) :
    ZeroTail wal' dev'.file ∧ wal'.initialCapacityBytes = wal.initialCapacityBytes := by
  induction h with
  | none => exact ⟨hzero, rfl⟩
  | append before call ih =>
    obtain ⟨g, -, hnext, hcap, -⟩ := ih.1.append call
    exact ⟨hnext, hcap.trans ih.2⟩

/-- **What appends write** is a log that stands where the first of them began. -/
theorem Appends.frames {wal' : Wal} {dev' : Device} {bs : List (EpochNumber × LogRecords)}
    (h : Appends mp wal dev wal' dev' bs) (hzero : ZeroTail wal dev.file)
    (hrt : ∀ b ∈ bs, mp.RoundTrips b.2) :
    ∃ log : List (Frame mp), Writes bs wal.frontier log ∧
      wal'.frontier = lastEpoch wal.frontier log ∧
      wal'.writeOffset = wal.writeOffset + (logBytes log).length ∧
      ∃ z, dev'.file = dev.file.take wal.writeOffset ++ logBytes log ++ zeros z := by
  induction h with
  | none =>
    refine ⟨[], ⟨rfl, rfl, rfl, trivial⟩, rfl, rfl, dev.file.length - wal.writeOffset, ?_⟩
    rw [logBytes_nil, List.append_nil]
    exact hzero.eq_append
  | @append wal₁ wal₂ dev₁ dev₂ bs buckets target before call ih =>
    obtain ⟨log, hwrites, hfrontier, hoff, z, hfile⟩ :=
      ih fun b hb => hrt b (List.mem_append_left _ hb)
    obtain ⟨g, hg, -, -, hmoved, hlast, z', hfile'⟩ := (before.zeroTail hzero).1.append call
    obtain ⟨glog, hgwrites, hbytes, hglast⟩ :=
      encodeGroup_writes hg fun b hb => hrt b (List.mem_append_right _ hb)
    have hbelow : dev₁.file.take wal₁.writeOffset
        = dev.file.take wal.writeOffset ++ logBytes log := by
      rw [hfile, hoff]
      refine List.take_left' ?_
      rw [List.length_append, List.length_take_of_le hzero.offset_le]
    refine ⟨log ++ glog, hwrites.append ?_, ?_, ?_, z', ?_⟩
    · rw [← hwrites.last, ← hfrontier]
      exact hgwrites
    · rw [hlast, hglast, lastEpoch_append, hfrontier]
    · rw [hmoved, hoff, hbytes, logBytes_append, List.length_append, Nat.add_assoc]
    · rw [hfile', hbelow, hbytes, logBytes_append, List.append_assoc _ (logBytes log)]

/-! ## Where a second scan ends -/

section Rescan

variable {file file' : Bytes} {least : EpochNumber} {p q pe pe' : Progress}
  {guard guard' : Option Guard}

/-- A header of zeroes is torn. -/
theorem slice_of_zero {off : ℕ} (h : ZeroFrom file off)
    (hin : off + kHeaderSize ≤ file.length) : slice file off kHeaderSize = zeros kHeaderSize := by
  rw [slice, drop_eq_zeros h, zeros, List.take_replicate, zeros]
  congr 1
  omega

theorem planTail_of_zero {a : Anomaly} {e : Option ℕ} (h : ZeroFrom file p.offset) :
    Yields (planTail file path p a e) (· = .finish p) := by
  refine .bind ((findLastNonZero_yields le_rfl).orElse _) ?_
  intro last hlast
  cases last with
  | none => exact .pure rfl
  | some last =>
    obtain ⟨hstart, -, hbyte, -⟩ := hlast
    exact absurd (h last hstart) hbyte

/-- **A scan stops at zeroes**, and leaves them alone. -/
theorem stops_of_zero (mp : Msgpack) (path : String) (minEpoch : EpochNumber)
    (h : ZeroFrom file p.offset) :
    ∃ ended, Stops mp file minEpoch p ended ∧ Decides file path p ended (.finish p) := by
  by_cases hend : file.length ≤ p.offset
  · exact ⟨_, .endOfFile hend, .endOfFile⟩
  have hin : p.offset < file.length := Nat.lt_of_not_le hend
  obtain ⟨a, hframe⟩ : ∃ a, frameStep mp file minEpoch p = .anomaly a none := by
    unfold frameStep
    split
    · exact ⟨_, rfl⟩
    · rw [slice_of_zero h (by omega)]
      exact ⟨.magicMismatch, rfl⟩
  have hzero : Yields (planTail file path p a none) (· = .finish p) := planTail_of_zero h
  obtain ⟨plan, hplan, rfl⟩ := hzero.run_empty
  exact ⟨_, .anomaly hin hframe, .anomaly hplan⟩

/-- The hop stops at zeroes as well, unless they are too few for a header. -/
theorem hopStep_of_zero (h : ZeroFrom file p.offset)
    (htail : file.length = p.offset ∨ p.offset + kHeaderSize ≤ file.length) :
    hopStep file minEpoch p = .stop := by
  have hsize : kHeaderSize = 20 := rfl
  unfold hopStep
  split
  · rfl
  rw [if_neg (by omega), slice_of_zero h (by omega)]
  rfl

/-- What a scan keeps is above its least epoch. -/
theorem Passes.covers_self (h : Passes mp file minEpoch p q) (hp : Covers minEpoch p p) :
    Covers minEpoch q q := by
  induction h with
  | refl => exact hp
  | step _ hframe _ ih =>
    obtain ⟨q', hframe', hcov⟩ := frameStep_covers (UInt32.le_rfl) hp hframe
    rw [hframe] at hframe'
    cases hframe'
    exact ih hcov

/-- The hop keeps nothing. -/
theorem Hops.covers_self (h : Hops file minEpoch p guard q guard')
    (hp : p.records = []) : Covers minEpoch q q := by
  induction h with
  | refl => exact ⟨rfl, rfl, rfl, by rw [hp]; rfl⟩
  | step hhop _ ih =>
    obtain ⟨-, rfl, -⟩ := hopStep_hopped.mp hhop
    exact ih hp

theorem HopEnd.covers_self (h : HopEnd file minEpoch q) : Covers minEpoch q q := by
  cases h with
  | hopped _ hhops => exact hhops.covers_self rfl
  | _ => exact .start

/-- Hops over frames below a kept offset are still there. -/
theorem hopStep_of_keeps {n : ℕ} {g : Guard} (hkeep : Keeps n file file')
    (hhop : hopStep file minEpoch p = .hopped q g) (hin : q.offset ≤ n) :
    hopStep file' minEpoch p = .hopped q g := by
  obtain ⟨⟨hheader, hsane, hpayload, hmono, hzero, hcovered⟩, rfl, rfl⟩ := hopStep_hopped.mp hhop
  have hend : p.offset + kHeaderSize + (headerAt file p.offset).payloadSize ≤ n := hin
  have hlen := hkeep.2
  have hslice : slice file' p.offset kHeaderSize = slice file p.offset kHeaderSize :=
    hkeep.slice_eq (by omega)
  have hsame : headerAt file' p.offset = headerAt file p.offset := congrArg parseHeader hslice
  refine hopStep_hopped.mpr ⟨⟨by omega, ?_, ?_, ?_, ?_, ?_⟩, ?_, ?_⟩
  · rwa [hsame]
  · rw [hsame]
    omega
  · rwa [hsame]
  · rwa [hsame]
  · rwa [hsame]
  · rw [hsame]
  · rw [guardAt, guardAt, hsame, hslice]

theorem Hops.offset_le (h : Hops file minEpoch p guard q guard') : p.offset ≤ q.offset := by
  induction h with
  | refl => exact le_rfl
  | step hhop _ ih =>
    obtain ⟨-, rfl, -⟩ := hopStep_hopped.mp hhop
    refine Nat.le_trans ?_ ih
    simp only [Progress.skip]
    omega

theorem Hops.of_keeps {n : ℕ}
    (h : Hops file minEpoch p guard q guard') (hkeep : Keeps n file file') (hin : q.offset ≤ n) :
    Hops file' minEpoch p guard q guard' := by
  induction h with
  | refl p guard => exact .refl p guard
  | step hhop hrest ih =>
    exact .step (hopStep_of_keeps hkeep hhop (hrest.offset_le.trans hin)) (ih hin)

theorem Guard.Verifies.of_keeps {n : ℕ} {g : Guard} (h : g.Verifies file)
    (hkeep : Keeps n file file') (hin : g.offset + kHeaderSize + g.payloadSize ≤ n) :
    g.Verifies file' := by
  rw [Guard.Verifies, hkeep.slice_eq hin]
  exact h

/-- Of two walks of the hop, the one that cannot go on is the longer one. -/
theorem Hops.split {r : Progress} {guard guard₁ guard₂ : Option Guard}
    (h₁ : Hops file minEpoch p guard q guard₁) (h₂ : Hops file minEpoch p guard r guard₂)
    (hend : ∀ s g, hopStep file minEpoch r ≠ .hopped s g) :
    Hops file minEpoch q guard₁ r guard₂ := by
  induction h₁ with
  | refl => exact h₂
  | step hhop _ ih =>
    cases h₂ with
    | refl => exact absurd hhop (hend _ _)
    | step hhop' hrest' =>
      rw [hhop] at hhop'
      cases hhop'
      exact ih hrest'

/-- A hop over a frame the scan comes by, in front of zeroes. -/
theorem hop_along {p' q' : Progress} {g : Guard} (hzero : ZeroFrom file pe.offset)
    (hrest : Passes mp file least p pe) (hcov : Covers minEpoch p p')
    (hhop : hopStep file minEpoch p' = .hopped q' g) :
    g.Verifies file ∧ ∃ q, Passes mp file least q pe ∧ Covers minEpoch q q' := by
  obtain ⟨⟨-, hsane, -, -, -, hcovered⟩, rfl, rfl⟩ := hopStep_hopped.mp hhop
  rw [hcov.offset] at hsane hcovered ⊢
  cases hrest with
  | refl =>
    have hsome := headerAnomaly_of_zero hzero
    rw [hsane] at hsome
    cases hsome
  | step _ hframe hrest =>
    have hat := frameAt_of_accepted hframe
    rw [frameStep_of_frameAt hat] at hframe
    exact ⟨hat.checksum, _, hrest, (acceptFrame_accepted.mp hframe).2.2.covers_skip hcov hcovered⟩

theorem Hops.along {p' q' : Progress} (h : Hops file minEpoch p' guard q' guard')
    (hzero : ZeroFrom file pe.offset) (hrest : Passes mp file least p pe)
    (hcov : Covers minEpoch p p') (hguard : ∀ g, guard = some g → g.Verifies file) :
    (∀ g, guard' = some g → g.Verifies file) ∧
      ∃ q, Passes mp file least q pe ∧ Covers minEpoch q q' := by
  induction h generalizing p with
  | refl => exact ⟨hguard, p, hrest, hcov⟩
  | step hhop _ ih =>
    obtain ⟨hverifies, q, hrest', hcov'⟩ := hop_along hzero hrest hcov hhop
    refine ih hrest' hcov' ?_
    rintro g ⟨⟩
    exact hverifies

/-- The hop does not give up where the scan comes by. -/
theorem hopStep_ne_giveUp {p' : Progress} (hzero : ZeroFrom file pe.offset)
    (htail : file.length = pe.offset ∨ pe.offset + kHeaderSize ≤ file.length)
    (hrest : Passes mp file least p pe) (hcov : Covers minEpoch p p') :
    hopStep file minEpoch p' ≠ .giveUp := by
  have hsize : kHeaderSize = 20 := rfl
  cases hrest with
  | refl =>
    rw [hopStep_of_zero (by rw [hcov.offset]; exact hzero) (by rw [hcov.offset]; exact htail)]
    simp
  | step hin hframe =>
    have hat := frameAt_of_accepted hframe
    rw [frameStep_of_frameAt hat] at hframe
    obtain ⟨hnonzero, hmono, -⟩ := acceptFrame_accepted.mp hframe
    obtain ⟨hheader, hsane, hpayload, -⟩ := hat
    unfold hopStep
    rw [hcov.offset, hcov.haveFrame, hcov.frontier, if_neg (by omega), if_neg (by omega)]
    rw [if_neg (by rw [hsane]; simp), if_neg (by omega),
      if_neg (fun hbad => UInt32.not_lt.mpr (hmono hbad.1) hbad.2), if_neg hnonzero]
    split <;> simp

/-- **Where a second scan begins.** The file was scanned to `pe`, and the scan now
comes from there to zeroes at `pe'`. A scan of the whole then begins where this one
comes by; behind a hop, only if there are enough zeroes for a header, or none. -/
theorem HopEnd.resumed (h : HopEnd file minEpoch q) (hpass : Passes mp file minEpoch q pe)
    (hkeep : Keeps pe.offset file file') (hrest : Passes mp file' minEpoch pe pe')
    (hzero : ZeroFrom file' pe'.offset)
    (htail : minEpoch = 0 ∨ file'.length = pe'.offset ∨ pe'.offset + kHeaderSize ≤ file'.length) :
    ∀ q', HopEnd file' minEpoch q' →
      ∃ p, Passes mp file' minEpoch p pe' ∧ Covers minEpoch p q' := by
  intro q' hq'
  have hpass' : Passes mp file' minEpoch q pe' := (hpass.of_keeps hkeep le_rfl).trans hrest
  have hstart : q = Progress.start →
      ∃ p, Passes mp file' minEpoch p pe' ∧ Covers minEpoch p q' := by
    rintro rfl
    obtain ⟨ended, hstop, hdecides⟩ := stops_of_zero mp "" minEpoch hzero
    exact hq'.covered (completes_of_decides hpass' hstop hdecides (by simp [Plan.progress?]))
  have hself := h.covers_self
  cases h with
  | full | gaveUp | broken => exact hstart rfl
  | @hopped _ guard hmin hhops hstep hguard =>
    have htail := htail.resolve_left hmin
    have hhops' := hhops.of_keeps hkeep hpass.offset_le
    have hguard' : ∀ g, guard = some g → g.Verifies file' := fun g hg =>
      (hguard g hg).of_keeps hkeep (Nat.le_trans (hhops.guard_le (by simp) g hg) hpass.offset_le)
    cases hq' with
    | full hzero => exact absurd hzero hmin
    | gaveUp hmore hstep' =>
      obtain ⟨-, p, hp, hcov⟩ :=
        (hhops'.split hmore (by simp [hstep'])).along hzero hpass' hself hguard'
      exact absurd hstep' (hopStep_ne_giveUp hzero htail hp hcov)
    | broken hmore hstep' hbroken =>
      obtain ⟨hverifies, -⟩ :=
        (hhops'.split hmore (by simp [hstep'])).along hzero hpass' hself hguard'
      exact absurd (hverifies _ rfl) hbroken
    | hopped _ hmore hstep' =>
      exact ((hhops'.split hmore (by simp [hstep'])).along hzero hpass' hself hguard').2

end Rescan

/-! ## Scanning again -/

/-- A scan whose plan is to finish, on a device whose calls succeed. -/
theorem scanAndRepair_finish {p : Progress} (hstate : wal.state ≠ .failed)
    (hinit : wal.initialisedSize = file.length)
    (hplan : planScan mp file wal.path minEpoch [] = .ok (.finish p, []))
    (hres : Reservable wal.initialCapacityBytes file.length p.offset) :
    (scanAndRepair mp wal (Device.sound file) minEpoch).result = p.result false ∧
      (scanAndRepair mp wal (Device.sound file) minEpoch).wal.writeOffset = p.offset ∧
      Keeps file.length file (scanAndRepair mp wal (Device.sound file) minEpoch).dev.file := by
  rw [scanAndRepair_of_plan hstate rfl hplan]
  have hsized : (wal.sized (.sound file)).initialisedSize = file.length := by
    show max wal.initialisedSize file.length = file.length
    rw [hinit, Nat.max_self]
  obtain ⟨hresult, -⟩ := finishScan_sound (wal.sized (.sound file)) (p.result false) hsized hres
  have hin : file.length ≤ (Device.sound file).file.length := le_rfl
  obtain ⟨hkeep, hend⟩ :=
    finishScan_spec (p.result false) p.offset (Nat.le_of_eq hsized.symm) hin
  refine ⟨hresult, ?_, hkeep⟩
  rcases hend with hfail | ⟨-, hoff⟩
  · rw [hresult] at hfail
    cases hfail
  · exact hoff

section Rescans

variable {file : Bytes} {least : EpochNumber} {p p' p₀ : Progress}

theorem Covers.trans (h : Covers minEpoch p₀ p) (h' : Covers minEpoch p p') :
    Covers minEpoch p₀ p' where
  offset := h'.offset.trans h.offset
  frontier := h'.frontier.trans h.frontier
  haveFrame := h'.haveFrame.trans h.haveFrame
  records := by simp only [h'.records, h.records, List.filter_filter, Bool.and_self]

/-- A scan that begins where another comes by, in front of zeroes, finishes there. -/
theorem planScan_of_zero (mp : Msgpack) (path : String) (hle : least ≤ minEpoch)
    (hzero : ZeroFrom file p.offset)
    (hend : ∀ q, HopEnd file minEpoch q → ∃ r, Passes mp file least r p ∧ Covers minEpoch r q) :
    ∃ p', planScan mp file path minEpoch [] = .ok (.finish p', []) ∧ Covers minEpoch p p' := by
  obtain ⟨plan, hplan, -⟩ := (@planScan_yields minEpoch file path mp).run_empty
  obtain ⟨ended, hstop, hdecides⟩ := stops_of_zero mp path least hzero
  obtain ⟨p', hcov, rfl⟩ := planScan_covered hle hend hstop hdecides hplan
  exact ⟨p', hplan, hcov⟩

/-- What a scan of less finds behind a log. -/
theorem Covers.acceptAll {log : List (Frame mp)} (h : Covers minEpoch p₀ p)
    (hlog : Covers minEpoch (p₀.acceptAll log) p') :
    p'.offset = p.offset + (logBytes log).length ∧ p'.frontier = lastEpoch p.frontier log ∧
      p'.records = p.records ++ (logRecords log).filter
        (fun record => minEpoch < record.epoch) := by
  refine ⟨?_, ?_, ?_⟩
  · rw [hlog.offset, Progress.acceptAll_offset, h.offset]
  · rw [hlog.frontier, Progress.acceptAll_frontier, h.frontier]
  · rw [hlog.records, Progress.acceptAll_records, List.filter_append, h.records]

theorem Plan.progress_withProgress {plan : Plan} (h : plan.progress? ≠ none) :
    (plan.withProgress p).progress? = some p := by
  cases plan with
  | refuse => exact absurd rfl h
  | _ => rfl

/-- **Where a second scan ends.** A file was scanned to `p`, and a log has been written
there, in front of zeroes. A second scan finishes behind that log, if the first one
was a full scan, or a full scan accepts what it scanned, or the zeroes are none or
enough for a header. -/
theorem rescan_plan {q : Progress} {file' : Bytes} {plan : Plan} {script rest : List Transfer}
    {log : List (Frame mp)} (hhop : HopEnd file minEpoch q) (hpass : Passes mp file minEpoch q p)
    (hplan : planScan mp file path minEpoch script = .ok (plan, rest))
    (hprogress : plan.progress? = some p) (hkeep : Keeps p.offset file file')
    (hlog : StandsAt file' p.offset (logBytes log)) (hasc : AscendingFrom p.frontier log)
    (hzero : ZeroFrom file' (p.offset + (logBytes log).length)) (hcond : minEpoch = 0 ∨
      (∃ plan₀ rest₀, planScan mp file path 0 [] = .ok (plan₀, rest₀) ∧ plan₀.progress? ≠ none) ∨
      file'.length = p.offset + (logBytes log).length ∨
      p.offset + (logBytes log).length + kHeaderSize ≤ file'.length) (path' : String) :
    ∃ p', planScan mp file' path' minEpoch [] = .ok (.finish p', []) ∧
      p'.offset = p.offset + (logBytes log).length ∧ p'.frontier = lastEpoch p.frontier log ∧
      p'.records
        = p.records ++ (logRecords log).filter (fun record => minEpoch < record.epoch) := by
  -- a full scan of what was scanned comes to `p₀`, which `p` covers
  by_cases hfull : ∃ p₀, Passes mp file 0 Progress.start p₀ ∧ Covers minEpoch p₀ p
  · obtain ⟨p₀, hpass₀, hcov⟩ := hfull
    have hon := passes_acceptAll (p := p₀) log (by rw [← hcov.offset]; exact hkeep.2)
      (by rw [← hcov.offset]; exact hlog) (by rw [← hcov.frontier]; exact hasc)
    have hall := (hpass₀.of_keeps hkeep (Nat.le_of_eq hcov.offset.symm)).trans hon
    have hzero₀ : ZeroFrom file' (p₀.acceptAll log).offset := by
      rw [Progress.acceptAll_offset, ← hcov.offset]
      exact hzero
    obtain ⟨ended, hstop, hdecides⟩ := stops_of_zero mp path' 0 hzero₀
    have hcompletes := completes_of_decides hall hstop hdecides (by simp [Plan.progress?])
    obtain ⟨p', hplan', hcov'⟩ := planScan_of_zero mp path' UInt32.zero_le hzero₀
      (fun q hq => hq.covered hcompletes)
    exact ⟨p', hplan', hcov.acceptAll hcov'⟩
  · -- otherwise the hop was trusted, and has to come to the same place again
    have htail : minEpoch = 0 ∨ file'.length = p.offset + (logBytes log).length ∨
        p.offset + (logBytes log).length + kHeaderSize ≤ file'.length := by
      rcases hcond with hmin | ⟨plan₀, rest₀, hplan₀, hprogress₀⟩ | htail
      · exact .inl hmin
      · exfalso
        obtain ⟨q₀, p₀, ended, hhop₀, hpass₀, hstop₀, hdecides₀⟩ := planScan_ok hplan₀ hprogress₀
        obtain rfl := hhop₀.of_zero
        have hcompletes := completes_of_decides hpass₀ hstop₀ hdecides₀ hprogress₀
        obtain ⟨p', hcov, rfl⟩ := planScan_covered UInt32.zero_le
          (fun q hq => hq.covered hcompletes) hstop₀ hdecides₀ hplan
        rw [Plan.progress_withProgress hprogress₀] at hprogress
        cases hprogress
        exact hfull ⟨p₀, hpass₀, hcov⟩
      · exact .inr htail
    have hself := hpass.covers_self hhop.covers_self
    have hon := passes_acceptAll log hkeep.2 hlog hasc
    obtain ⟨pe, hpe, hcov⟩ := hon.covered UInt32.zero_le hself
    have hoff : pe.offset = p.offset + (logBytes log).length := by
      rw [hcov.offset, Progress.acceptAll_offset]
    rw [← hoff] at htail hzero
    obtain ⟨p', hplan', hcov'⟩ := planScan_of_zero mp path' (UInt32.le_rfl) hzero
      (hhop.resumed hpass hkeep hpe hzero htail)
    exact ⟨p', hplan', hself.acceptAll (hcov.trans hcov')⟩

end Rescans

/-! ## The zero tail and repeated scans -/

/-- **The zero tail, and scanning again.** Whatever a file held, once a scan has
succeeded and after any number of successful appends behind it, every byte from the
end of the log on is zero. A scan of the resulting file, by the same instance or by
a fresh one, succeeds, returns the same records and those appended since, the same
frontier and the same end of the log, erases nothing and changes no byte that was
there; except where the first scan trusted its hop over frames that a full scan
refuses, and the zeroes left behind the log are too few for a header. -/
theorem zero_tail_and_rescan (mp : Msgpack) (path : String) (capacity : ℕ) (dev : Device)
    (minEpoch : EpochNumber) (wal' : Wal) (dev' : Device) (bs : List (EpochNumber × LogRecords))
    (hok : (scanAndRepair mp (Wal.open path capacity dev) dev minEpoch).result.status = .ok)
    (hcalls : Appends mp (scanAndRepair mp (Wal.open path capacity dev) dev minEpoch).wal
      (scanAndRepair mp (Wal.open path capacity dev) dev minEpoch).dev wal' dev' bs) :
    (∀ i, wal'.writeOffset ≤ i → byteAt dev'.file i = 0) ∧
    ((∀ b ∈ bs, mp.RoundTrips b.2) →
      (minEpoch = 0 ∨
        (scanAndRepair mp (Wal.open path capacity dev) (Device.sound dev.file) 0).result.status
          = .ok ∨
        dev'.file.length = wal'.writeOffset ∨
        wal'.writeOffset + kHeaderSize ≤ dev'.file.length) →
      ∀ again : Wal, (again = wal' ∨ ∃ path', again = Wal.open path' capacity dev') →
        let rescan := scanAndRepair mp again (Device.sound dev'.file) minEpoch
        rescan.result.status = .ok ∧
        rescan.result.records
          = (scanAndRepair mp (Wal.open path capacity dev) dev minEpoch).result.records
            ++ (bucketRecords bs).filter (fun record => minEpoch < record.epoch) ∧
        rescan.result.frontier
          = lastBucket
              (scanAndRepair mp (Wal.open path capacity dev) dev minEpoch).result.frontier bs ∧
        rescan.wal.writeOffset = wal'.writeOffset ∧
        rescan.result.tailTruncated = false ∧
        Keeps wal'.initialisedSize dev'.file rescan.dev.file) := by
  obtain ⟨q, p, plan, preads, hhop, hpass, hplan, hprogress, ⟨t, hresult⟩, hcap, hleaves⟩ :=
    scanAndRepair_leaves (show (Wal.open path capacity dev).initialisedSize = _ from rfl) hok
  obtain ⟨hzero, hcap'⟩ := hcalls.zeroTail hleaves.toZeroTail
  refine ⟨hzero.zero, fun hrt hcond again hagain => ?_⟩
  obtain ⟨log, hwrites, -, hoff, z, hfile⟩ := hcalls.frames hleaves.toZeroTail hrt
  rw [hleaves.offset] at hoff hfile
  have hpre := List.length_take_of_le hleaves.toZeroTail.offset_le
  rw [hleaves.offset] at hpre
  have hkeep : Keeps p.offset dev.file dev'.file := by
    rw [hfile, List.append_assoc]
    refine ⟨?_, ?_⟩
    · rw [List.take_left' hpre]
      exact hleaves.below
    · rw [List.length_append, hpre]
      exact Nat.le_add_right _ _
  have hstands : StandsAt dev'.file p.offset (logBytes log) := by
    rw [hfile]
    conv => arg 2; rw [← hpre]
    exact standsAt_of_append _ _ _
  have hasc : AscendingFrom p.frontier log := hleaves.frontier ▸ hwrites.ascending
  have hzero' : ZeroFrom dev'.file (p.offset + (logBytes log).length) :=
    hoff ▸ hzero.zero
  obtain ⟨p', hplan', hoff', hfrontier', hrecords'⟩ :=
    rescan_plan hhop hpass hplan hprogress hkeep hstands hasc hzero' (by
      rw [← hoff]
      refine hcond.imp id (Or.imp (fun hfull => ?_) id)
      obtain ⟨plan₀, rest₀, -, -, hplan₀, hprogress₀⟩ := scanAndRepair_ok hfull
      exact ⟨plan₀, rest₀, hplan₀, hprogress₀⟩) again.path
  have hinit : again.initialisedSize = dev'.file.length ∧ again.state ≠ .failed ∧
      again.initialCapacityBytes = wal'.initialCapacityBytes := by
    rcases hagain with rfl | ⟨path', rfl⟩
    · exact ⟨hzero.initialised, by rw [hzero.ready]; simp, rfl⟩
    · exact ⟨rfl, by simp [Wal.open], by rw [hcap', hcap]; rfl⟩
  obtain ⟨hres, hend, hkept⟩ := scanAndRepair_finish hinit.2.1 hinit.1 hplan' (by
    rw [hinit.2.2, hoff', ← hoff]
    exact hzero.reservable)
  dsimp only
  rw [hres, hend, hresult, hzero.initialised]
  refine ⟨rfl, ?_, ?_, ?_, rfl, hkept⟩
  · show p'.records = _
    rw [hrecords', hwrites.records]
    rfl
  · show p'.frontier = _
    rw [hfrontier', ← hleaves.frontier, hwrites.last, hleaves.frontier]
    rfl
  · rw [hoff', hoff]

/-- The sample with its torn frame repaired, and one more record appended. -/
def repairedSample : Scanned :=
  scanAndRepair sampleMsgpack (Wal.open "wal.log" 64 tornSample) tornSample 0

/-- The repaired log after an append. -/
def extendedSample : Appended :=
  appendGroup sampleMsgpack repairedSample.wal repairedSample.dev sampleBuckets 1

/-- The repaired and extended log, read by a fresh instance. -/
theorem zero_tail_and_rescan_torn :
    repairedSample.result.tailTruncated = true ∧ extendedSample.result = .ok ∧
      (scanAndRepair sampleMsgpack (Wal.open "copy.log" 64 extendedSample.dev)
        (Device.sound extendedSample.dev.file) 0).result.records
          = [sampleRecord, sampleRecord] := by
  have hok : repairedSample.result.status = .ok := by decide +kernel
  have hcall : appendGroup sampleMsgpack repairedSample.wal repairedSample.dev sampleBuckets 1
      = ⟨.ok, extendedSample.wal, extendedSample.dev⟩ := by decide +kernel
  have hcalls : Appends sampleMsgpack repairedSample.wal repairedSample.dev extendedSample.wal
      extendedSample.dev ([] ++ sampleBuckets.upTo 1) := .append .none hcall
  have hrecords : repairedSample.result.records = [sampleRecord] := by decide +kernel
  refine ⟨by decide +kernel, by decide +kernel, ?_⟩
  rw [repairedSample] at hok hcalls hrecords
  have hrescan := (zero_tail_and_rescan sampleMsgpack "wal.log" 64 tornSample 0 extendedSample.wal
    extendedSample.dev ([] ++ sampleBuckets.upTo 1) hok hcalls).2 sampleMsgpack_roundTrips
    (.inl rfl) _ (.inr ⟨"copy.log", rfl⟩)
  rw [hrescan.2.1, hrecords]
  decide

/-- Two covered frames that fill the file, the first of them damaged. -/
def damagedSample : Device :=
  .sound ((encodeFrame 1 []).take 16 ++ zeros 4 ++ encodeFrame 1 [])

/-- **A second scan can refuse what the first one accepted.** The hop passes the
damaged frame, and the capacity is then filled up with five zeroes; these end the
second hop, and the full scan that takes its place finds the damage. -/
theorem rescan_short_tail_refused :
    (scanAndRepair sampleMsgpack (Wal.open "wal.log" 45 damagedSample)
      damagedSample 1).result.status = .ok ∧
      (scanAndRepair sampleMsgpack
        (Wal.open "wal.log" 45
          (scanAndRepair sampleMsgpack (Wal.open "wal.log" 45 damagedSample) damagedSample 1).dev)
        (Device.sound (scanAndRepair sampleMsgpack (Wal.open "wal.log" 45 damagedSample)
          damagedSample 1).dev.file) 1).result.status = .corrupt := by
  decide +kernel

end LineairDB.Recovery
