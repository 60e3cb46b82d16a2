import LineairDB.Recovery.Capacity
import LineairDB.Recovery.Log

/-!
# The scan as a walk over the file

What the scan makes of the bytes at an offset is a function of the file, whatever
its reads do. A scan is then a walk: it passes frame after frame and stops
where one is not accepted. So is the hop over covered frames, by their headers.

* `scanLoop_yields_passes` — the loop of the scan is that walk.
* `passes_acceptAll`, `Passes.reached` — it passes the frames of a log that stands
  in the file, and a full scan passes nothing else.
* `hop_yields_end` — the hop is a walk over headers.
* `Passes.covered` — scans with different least epochs pass the same frames.
* `Passes.of_keeps` — the walk depends on nothing behind the frames it passes.
-/

namespace LineairDB.Recovery

open ByteFile FaultyIo

variable {h : Header} {file' payload : Bytes} {e : ScanEnd} {n : ℕ} {guard : Option Guard}

variable {mp : Msgpack} {file : Bytes} {path : String} {minEpoch : EpochNumber} {p q : Progress}

/-! ## One frame -/

/-- What `scanFrame` makes of the bytes at the scan's offset. -/
def frameStep (mp : Msgpack) (file : Bytes) (minEpoch : EpochNumber) (p : Progress) : FrameStep :=
  if file.length - p.offset < kHeaderSize then .anomaly .endsInsideHeader none
  else
    let header := slice file p.offset kHeaderSize
    let h := parseHeader header
    match headerAnomaly h with
    | some a => if headerIsTornPrefix header then .anomaly a none else .corrupt a.text
    | none =>
      let frameEnd := p.offset + kHeaderSize + h.payloadSize
      if file.length < frameEnd then .anomaly .endsInsidePayload none
      else
        let payload := slice file (p.offset + kHeaderSize) h.payloadSize
        if frameCrc header payload ≠ h.storedCrc then .anomaly .checksumMismatch (some frameEnd)
        else acceptFrame mp minEpoch p h payload

theorem scanFrame_yields_frameStep :
    Yields (scanFrame mp file path minEpoch p) (· = frameStep mp file minEpoch p) := by
  unfold scanFrame frameStep
  split
  · exact .pure rfl
  have hsize : kHeaderSize = 20 := rfl
  refine .bind ((read_yields (by omega)).orElse _) ?_
  rintro header rfl
  dsimp only
  cases headerAnomaly (parseHeader (slice file p.offset kHeaderSize)) with
  | some => exact .pure rfl
  | none =>
    dsimp only
    split
    · exact .pure rfl
    refine .bind ((read_yields (by omega)).orElse _) ?_
    rintro payload rfl
    split <;> exact .pure rfl

/-- A frame stands at `off`: a header without an anomaly, and a payload inside
the file that satisfies the checksum. -/
structure FrameAt (file : Bytes) (off : ℕ) : Prop where
  header : off + kHeaderSize ≤ file.length
  sane : headerAnomaly (parseHeader (slice file off kHeaderSize)) = none
  payload : off + kHeaderSize + (parseHeader (slice file off kHeaderSize)).payloadSize
    ≤ file.length
  checksum : frameCrc (slice file off kHeaderSize) (slice file (off + kHeaderSize)
      (parseHeader (slice file off kHeaderSize)).payloadSize)
    = (parseHeader (slice file off kHeaderSize)).storedCrc

/-- The header and the payload that stand at an offset. -/
abbrev headerAt (file : Bytes) (off : ℕ) : Header := parseHeader (slice file off kHeaderSize)

/-- The payload of the frame at an offset. -/
abbrev payloadAt (file : Bytes) (off : ℕ) : Bytes :=
  slice file (off + kHeaderSize) (headerAt file off).payloadSize

theorem frameStep_of_frameAt (h : FrameAt file p.offset) :
    frameStep mp file minEpoch p
      = acceptFrame mp minEpoch p (headerAt file p.offset) (payloadAt file p.offset) := by
  have hheader := h.header
  have hpayload := h.payload
  unfold frameStep
  rw [if_neg (by omega)]
  simp only [h.sane]
  rw [if_neg (by omega), if_neg (by simpa using h.checksum)]

theorem acceptFrame_ne_anomaly {a : Anomaly} {e : Option ℕ} :
    acceptFrame mp minEpoch p h payload ≠ .anomaly a e := by
  fun_cases acceptFrame mp minEpoch p h payload <;> simp

/-- An accepted frame stands there. -/
theorem frameAt_of_accepted (h : frameStep mp file minEpoch p = .accepted q) :
    FrameAt file p.offset := by
  revert h
  have hsize : kHeaderSize = 20 := rfl
  fun_cases frameStep mp file minEpoch p with
  | case6 hlong _ _ hsane _ hend _ hcrc =>
    exact fun _ => ⟨by omega, hsane, Nat.not_lt.mp hend, not_not.mp hcrc⟩
  | _ => nofun

/-! ## The walk -/

/-- The scan gets from `p` to `q` over frames it accepts. -/
inductive Passes (mp : Msgpack) (file : Bytes) (minEpoch : EpochNumber) :
    Progress → Progress → Prop
  | refl (p : Progress) : Passes mp file minEpoch p p
  | step {p q r : Progress} (hin : p.offset < file.length)
      (hframe : frameStep mp file minEpoch p = .accepted q) (hrest : Passes mp file minEpoch q r) :
      Passes mp file minEpoch p r

/-- The scan stops at `p`, and why. -/
inductive Stops (mp : Msgpack) (file : Bytes) (minEpoch : EpochNumber) (p : Progress) :
    ScanEnd → Prop
  | endOfFile (hend : file.length ≤ p.offset) : Stops mp file minEpoch p (.endOfFile p)
  | anomaly {a : Anomaly} {e : Option ℕ} (hin : p.offset < file.length)
      (hframe : frameStep mp file minEpoch p = .anomaly a e) :
      Stops mp file minEpoch p (.anomaly p a e)
  | corrupt {detail : String} (hin : p.offset < file.length)
      (hframe : frameStep mp file minEpoch p = .corrupt detail) :
      Stops mp file minEpoch p (.corrupt detail)

theorem Passes.trans {r : Progress} (h₁ : Passes mp file minEpoch p q)
    (h₂ : Passes mp file minEpoch q r) : Passes mp file minEpoch p r := by
  induction h₁ with
  | refl => exact h₂
  | step hin hframe _ ih => exact .step hin hframe (ih h₂)

theorem Stops.not_accepted (h : Stops mp file minEpoch p e) (hin : p.offset < file.length) :
    frameStep mp file minEpoch p ≠ .accepted q := by
  cases h with
  | endOfFile => omega
  | anomaly _ hframe | corrupt _ hframe => simp [hframe]

theorem Stops.unique {e' : ScanEnd} (h : Stops mp file minEpoch p e)
    (h' : Stops mp file minEpoch p e') : e = e' := by
  cases h with
  | endOfFile =>
    cases h' with
    | endOfFile => rfl
    | anomaly | corrupt => omega
  | anomaly hin hframe =>
    cases h' with
    | endOfFile => omega
    | anomaly _ hframe' =>
      rw [hframe] at hframe'
      cases hframe'
      rfl
    | corrupt _ hframe' =>
      rw [hframe] at hframe'
      cases hframe'
  | corrupt hin hframe =>
    cases h' with
    | endOfFile => omega
    | anomaly _ hframe' =>
      rw [hframe] at hframe'
      cases hframe'
    | corrupt _ hframe' =>
      rw [hframe] at hframe'
      cases hframe'
      rfl

/-- Of two walks, the one that stops is the longer one. -/
theorem Passes.after {r : Progress} (h : Passes mp file minEpoch p q)
    (h' : Passes mp file minEpoch p r) (hs : Stops mp file minEpoch r e) :
    Passes mp file minEpoch q r := by
  induction h with
  | refl => exact h'
  | step hin hframe _ ih =>
    cases h' with
    | refl => exact absurd hframe (hs.not_accepted hin)
    | step _ hframe' hrest =>
      rw [hframe] at hframe'
      cases hframe'
      exact ih hrest

/-- A walk that stops has come to its only end. -/
theorem Passes.unique {q' : Progress} {e' : ScanEnd} (h : Passes mp file minEpoch p q)
    (hs : Stops mp file minEpoch q e) (h' : Passes mp file minEpoch p q')
    (hs' : Stops mp file minEpoch q' e') : q = q' ∧ e = e' := by
  cases h.after h' hs' with
  | refl => exact ⟨rfl, hs.unique hs'⟩
  | step hin hframe => exact absurd hframe (hs.not_accepted hin)

/-- An accepted frame moves the scan on, inside the file. -/
theorem offset_of_accepted (h : frameStep mp file minEpoch p = .accepted q) :
    p.offset < q.offset ∧ q.offset ≤ file.length ∧
      q.offset = p.offset + kHeaderSize + (headerAt file p.offset).payloadSize := by
  have hat := frameAt_of_accepted h
  have hpayload := hat.payload
  rw [frameStep_of_frameAt hat] at h
  have hoff : q.offset = p.offset + kHeaderSize + (headerAt file p.offset).payloadSize :=
    (acceptFrame_accepted.mp h).2.2.offset
  have hsize : kHeaderSize = 20 := rfl
  refine ⟨by omega, ?_, hoff⟩
  rw [hoff]
  exact hpayload

theorem Passes.offset_le (h : Passes mp file minEpoch p q) : p.offset ≤ q.offset := by
  induction h with
  | refl => exact le_rfl
  | step _ hframe _ ih => exact Nat.le_trans (Nat.le_of_lt (offset_of_accepted hframe).1) ih

theorem Passes.inside (h : Passes mp file minEpoch p q) (hin : p.offset ≤ file.length) :
    q.offset ≤ file.length := by
  induction h with
  | refl => exact hin
  | step _ hframe _ ih => exact ih (offset_of_accepted hframe).2.1

/-- **The loop of the scan is the walk.** -/
theorem scanLoop_yields_passes {rounds : ℕ} (hrounds : file.length ≤ p.offset + rounds) :
    Yields (scanLoop mp file path minEpoch rounds p)
      (fun ended => ∃ q, Passes mp file minEpoch p q ∧ Stops mp file minEpoch q ended) := by
  induction rounds generalizing p with
  | zero => exact .pure ⟨p, .refl p, .endOfFile (by omega)⟩
  | succ rounds ih =>
    rw [scanLoop]
    split
    · rename_i hend
      exact .pure ⟨p, .refl p, .endOfFile hend⟩
    refine .bind scanFrame_yields_frameStep ?_
    intro step hstep
    cases step with
    | accepted =>
      have hmove := (offset_of_accepted hstep.symm).1
      refine (ih (by omega)).mono ?_
      rintro ended ⟨r, hpass, hstop⟩
      exact ⟨r, .step (by omega) hstep.symm hpass, hstop⟩
    | anomaly => exact .pure ⟨p, .refl p, .anomaly (by omega) hstep.symm⟩
    | corrupt => exact .pure ⟨p, .refl p, .corrupt (by omega) hstep.symm⟩

/-! ## Frames that stand in the file -/

/-- Where a frame stands at the scan's offset, the scan accepts it. -/
theorem frameStep_of_stands (f : Frame mp) (hin : p.offset ≤ file.length)
    (hf : StandsAt file p.offset f.bytes) (hmono : p.frontier ≤ f.epoch) :
    frameStep mp file 0 p = .accepted (p.accept f) := by
  have hlen : p.offset + (kHeaderSize + f.payload.length) ≤ file.length := by
    simpa using hf.length_le hin
  have hheader : slice file p.offset kHeaderSize = frameHeader f.epoch f.payload := by
    have := hf.slice_eq (a := 0) (n := kHeaderSize) (by simp)
    rwa [Nat.add_zero, Frame.bytes, slice_encodeFrame_header] at this
  have hparse := parseHeader_frameHeader f.epoch f.fits
  have hpayload : slice file (p.offset + kHeaderSize) f.payload.length = f.payload := by
    have := hf.slice_eq (a := kHeaderSize) (n := f.payload.length) (by simp)
    rwa [Frame.bytes, slice_encodeFrame_payload] at this
  have hat : FrameAt file p.offset := by
    refine ⟨by omega, ?_, ?_, ?_⟩
    · rw [hheader]
      exact headerAnomaly_frameHeader f.epoch f.fits
    · rw [hheader, hparse]
      dsimp only
      omega
    · rw [hheader, hparse, hpayload]
  rw [frameStep_of_frameAt hat, payloadAt, headerAt, hheader, hparse, hpayload, ← hparse]
  exact acceptFrame_frame f hmono

/-- **Frames that stand in the file are passed.** -/
theorem passes_acceptAll (log : List (Frame mp)) (hin : p.offset ≤ file.length)
    (hlog : StandsAt file p.offset (logBytes log)) (hasc : AscendingFrom p.frontier log) :
    Passes mp file 0 p (p.acceptAll log) := by
  induction log generalizing p with
  | nil => exact .refl p
  | cons f log ih =>
    obtain ⟨hf, hlog⟩ := standsAt_append.mp hlog
    have hlen := hf.length_le hin
    have hpos := f.bytes_pos
    have hoff : (p.accept f).offset = p.offset + f.bytes.length := rfl
    exact .step (by omega) (frameStep_of_stands f hin hf hasc.1) (ih (by omega) hlog hasc.2)

/-- What a full scan accepts is a frame that stands at its offset. -/
theorem frame_of_accepted (h : frameStep mp file 0 p = .accepted q) :
    ∃ f : Frame mp, q = p.accept f ∧ StandsAt file p.offset f.bytes ∧
      (p.haveFrame = true → p.frontier ≤ f.epoch) := by
  have hat := frameAt_of_accepted h
  rw [frameStep_of_frameAt hat] at h
  obtain ⟨hzero, hmono, hacc⟩ := acceptFrame_accepted.mp h
  have hlen : (slice file p.offset kHeaderSize).length = kHeaderSize :=
    length_slice_of_le hat.header
  have hsize : (payloadAt file p.offset).length = (headerAt file p.offset).payloadSize :=
    length_slice_of_le hat.payload
  cases hacc with
  | covered hcovered => exact absurd (UInt32.le_zero_iff.mp hcovered) hzero
  | @decoded records hnew hdecode hnil hstamp =>
    obtain ⟨hmagic, hversion, hflags, hfits⟩ := headerAnomaly_eq_none.mp hat.sane
    -- the header is the one this payload would have been written with
    have hform := eq_frameHeader_of_parse hlen hmagic hversion hflags hsize.symm hat.checksum
    have hstands : StandsAt file p.offset
        (slice file p.offset kHeaderSize ++ payloadAt file p.offset) := by
      rw [standsAt_append, StandsAt, StandsAt, hlen, hsize]
      exact ⟨rfl, rfl⟩
    refine ⟨⟨_, _, records, hsize.trans_le hfits, hzero, hdecode, hnil, hstamp⟩, ?_, ?_, hmono⟩
    · simp [Progress.accept, hsize, Nat.add_assoc]
    · rwa [hform] at hstands

/-- The progress `q` is `p` moved over frames that stand in the file. -/
def Reached (mp : Msgpack) (file : Bytes) (p q : Progress) : Prop :=
  ∃ log : List (Frame mp), q = p.acceptAll log ∧ StandsAt file p.offset (logBytes log) ∧
    AscendingFrom p.frontier log

theorem Reached.refl (p : Progress) : Reached mp file p p :=
  ⟨[], rfl, by simp [StandsAt, slice], trivial⟩

theorem Reached.head {f : Frame mp} (hf : StandsAt file p.offset f.bytes)
    (hmono : p.frontier ≤ f.epoch) (h : Reached mp file (p.accept f) q) : Reached mp file p q := by
  obtain ⟨log, rfl, hlog, hasc⟩ := h
  exact ⟨f :: log, rfl, standsAt_append.mpr ⟨hf, hlog⟩, hmono, hasc⟩

/-- Only a scan that has passed a frame has a frontier. -/
theorem Passes.fresh (h : Passes mp file minEpoch p q)
    (hfresh : p.haveFrame = false → p.frontier = 0) : q.haveFrame = false → q.frontier = 0 := by
  induction h with
  | refl => exact hfresh
  | step _ hframe _ ih =>
    rw [frameStep_of_frameAt (frameAt_of_accepted hframe)] at hframe
    obtain ⟨-, -, hacc⟩ := acceptFrame_accepted.mp hframe
    refine ih fun hnone => ?_
    cases hacc <;> cases hnone

/-- **A full scan passes frames that stand in the file.** -/
theorem Passes.reached (h : Passes mp file 0 p q) (hfresh : p.haveFrame = false → p.frontier = 0) :
    Reached mp file p q := by
  induction h with
  | refl => exact .refl _
  | @step p _ _ _ hframe _ ih =>
    obtain ⟨f, rfl, hf, hmono⟩ := frame_of_accepted hframe
    refine .head hf ?_ (ih (by simp [Progress.accept]))
    cases hhave : p.haveFrame with
    | true => exact hmono hhave
    | false =>
      rw [hfresh hhave]
      exact UInt32.zero_le

/-! ## The hop as a walk -/

/-- What the hop makes of the bytes at its offset. -/
inductive HopStep where
  | hopped (p : Progress) (guard : Guard)
  | stop
  | giveUp
  deriving Repr, DecidableEq

/-- One frame of the walk. -/
def hopStep (file : Bytes) (minEpoch : EpochNumber) (p : Progress) : HopStep :=
  if file.length ≤ p.offset then .stop
  else if file.length - p.offset < kHeaderSize then .giveUp
  else
    let header := slice file p.offset kHeaderSize
    let h := parseHeader header
    if (headerAnomaly h).isSome then (if headerIsTornPrefix header then .stop else .giveUp)
    else if file.length < p.offset + kHeaderSize + h.payloadSize then .giveUp
    else if p.haveFrame ∧ h.epoch < p.frontier then .giveUp
    else if h.epoch = 0 then .giveUp
    else if minEpoch < h.epoch then .stop
    else .hopped (p.skip h.epoch h.payloadSize) ⟨p.offset, h.payloadSize, header⟩

/-- What the hop asks of a header before it hops over the frame. -/
structure Hoppable (file : Bytes) (minEpoch : EpochNumber) (p : Progress) : Prop where
  header : p.offset + kHeaderSize ≤ file.length
  sane : headerAnomaly (headerAt file p.offset) = none
  payload : p.offset + kHeaderSize + (headerAt file p.offset).payloadSize ≤ file.length
  mono : p.haveFrame = true → p.frontier ≤ (headerAt file p.offset).epoch
  epoch_ne_zero : (headerAt file p.offset).epoch ≠ 0
  covered : (headerAt file p.offset).epoch ≤ minEpoch

/-- The frame that stands at an offset, as the guard remembers it. -/
abbrev guardAt (file : Bytes) (off : ℕ) : Guard :=
  ⟨off, (headerAt file off).payloadSize, slice file off kHeaderSize⟩

theorem hopStep_hopped {g : Guard} : hopStep file minEpoch p = .hopped q g ↔
    Hoppable file minEpoch p ∧
      q = p.skip (headerAt file p.offset).epoch (headerAt file p.offset).payloadSize ∧
      g = guardAt file p.offset := by
  have hsize : kHeaderSize = 20 := rfl
  constructor
  · fun_cases hopStep file minEpoch p with
    | case9 hin hlong _ _ hsane hend hregress hzero hcovered =>
      rintro ⟨⟩
      refine ⟨⟨by omega, Option.not_isSome_iff_eq_none.mp hsane, Nat.not_lt.mp hend,
        fun hhave => ?_, hzero, UInt32.not_lt.mp hcovered⟩, rfl, rfl⟩
      rw [← UInt32.not_lt]
      exact fun hlt => hregress ⟨hhave, hlt⟩
    | _ => nofun
  · rintro ⟨⟨hheader, hsane, hpayload, hmono, hzero, hcovered⟩, rfl, rfl⟩
    unfold hopStep
    rw [if_neg (by omega), if_neg (by omega)]
    rw [if_neg (by rw [hsane]; simp), if_neg (Nat.not_lt.mpr hpayload),
      if_neg (fun hbad => UInt32.not_lt.mpr (hmono hbad.1) hbad.2), if_neg hzero,
      if_neg (UInt32.not_lt.mpr hcovered)]

/-- The hop gets from `p` to `q` over frames, the last of which is the guard. -/
inductive Hops (file : Bytes) (minEpoch : EpochNumber) :
    Progress → Option Guard → Progress → Option Guard → Prop
  | refl (p : Progress) (guard : Option Guard) : Hops file minEpoch p guard p guard
  | step {p q r : Progress} {guard guard' : Option Guard} {g : Guard}
      (hhop : hopStep file minEpoch p = .hopped q g)
      (hrest : Hops file minEpoch q (some g) r guard') : Hops file minEpoch p guard r guard'

/-- **The loop of the hop is the walk.** -/
theorem hopLoop_yields_hops {rounds : ℕ} (hrounds : file.length ≤ p.offset + rounds) :
    Yields (hopLoop file minEpoch rounds p guard) (fun r => ∃ q g, Hops file minEpoch p guard q g ∧
      (hopStep file minEpoch q = .stop ∧ r = some (q, g) ∨
        hopStep file minEpoch q = .giveUp ∧ r = none)) := by
  have stop : hopStep file minEpoch p = .stop → ∃ q g, Hops file minEpoch p guard q g ∧
      (hopStep file minEpoch q = .stop ∧ some (p, guard) = some (q, g) ∨
        hopStep file minEpoch q = .giveUp ∧ some (p, guard) = none) :=
    fun h => ⟨p, guard, .refl p guard, .inl ⟨h, rfl⟩⟩
  have giveUp : hopStep file minEpoch p = .giveUp → ∃ q g, Hops file minEpoch p guard q g ∧
      (hopStep file minEpoch q = .stop ∧ none = some (q, g) ∨
        hopStep file minEpoch q = .giveUp ∧ (none : Option (Progress × Option Guard)) = none) :=
    fun h => ⟨p, guard, .refl p guard, .inr ⟨h, rfl⟩⟩
  induction rounds generalizing p guard with
  | zero => exact .pure (stop (by rw [hopStep, if_pos (by omega)]))
  | succ rounds ih =>
    rw [hopLoop]
    split_ifs with hend hshort
    · exact .pure (stop (by simp [hopStep, hend]))
    · exact .pure (giveUp (by simp only [hopStep, if_neg hend, if_pos hshort]))
    refine .bind (read_yields (by omega)) ?_
    rintro header rfl
    have hstep : hopStep file minEpoch p = hopStep file minEpoch p := rfl
    conv_rhs at hstep => rw [hopStep, if_neg hend, if_neg hshort]
    dsimp only at hstep ⊢
    -- each branch of the loop is one of the step's
    split_ifs at hstep ⊢ with hsane htorn hlong hregress hzero hnew
    · exact .pure (stop hstep)
    · exact .pure (giveUp hstep)
    · exact .pure (giveUp hstep)
    · exact .pure (giveUp hstep)
    · exact .pure (giveUp hstep)
    · exact .pure (stop hstep)
    have hsize : kHeaderSize = 20 := rfl
    refine (ih (by simp only [Progress.skip]; omega) (fun h => ⟨_, _, .refl _ _, .inl ⟨h, rfl⟩⟩)
      (fun h => ⟨_, _, .refl _ _, .inr ⟨h, rfl⟩⟩)).mono ?_
    rintro r ⟨q, g, hhops, hr⟩
    exact ⟨q, g, .step hstep hhops, hr⟩

section

variable {guard' : Option Guard}

theorem Hops.inside (h : Hops file minEpoch p guard q guard')
    (hin : p.offset ≤ file.length) : q.offset ≤ file.length := by
  induction h with
  | refl => exact hin
  | step hhop _ ih =>
    obtain ⟨hoppable, rfl, -⟩ := hopStep_hopped.mp hhop
    exact ih hoppable.payload

/-- The guard lies behind the hop. -/
theorem Hops.guard_le (h : Hops file minEpoch p guard q guard')
    (hguard : ∀ g, guard = some g → g.offset + kHeaderSize + g.payloadSize ≤ p.offset) :
    ∀ g, guard' = some g → g.offset + kHeaderSize + g.payloadSize ≤ q.offset := by
  induction h with
  | refl => exact hguard
  | step hhop _ ih =>
    obtain ⟨-, rfl, rfl⟩ := hopStep_hopped.mp hhop
    refine ih ?_
    rintro g ⟨⟩
    exact le_rfl

end

/-- The guard's checksum holds. -/
def Guard.Verifies (file : Bytes) (g : Guard) : Prop :=
  frameCrc g.header (slice file (g.offset + kHeaderSize) g.payloadSize)
    = (parseHeader g.header).storedCrc

/-- Where the scan begins behind the hop: at the beginning of the file, unless the
hop stopped behind a frame that satisfies its checksum. -/
inductive HopEnd (file : Bytes) (minEpoch : EpochNumber) : Progress → Prop
  | full (hmin : minEpoch = 0) : HopEnd file minEpoch Progress.start
  | gaveUp {q : Progress} {guard : Option Guard}
      (hhops : Hops file minEpoch Progress.start none q guard)
      (hstep : hopStep file minEpoch q = .giveUp) : HopEnd file minEpoch Progress.start
  | broken {q : Progress} {g : Guard} (hhops : Hops file minEpoch Progress.start none q (some g))
      (hstep : hopStep file minEpoch q = .stop) (hbroken : ¬ g.Verifies file) :
      HopEnd file minEpoch Progress.start
  | hopped {q : Progress} {guard : Option Guard} (hmin : minEpoch ≠ 0)
      (hhops : Hops file minEpoch Progress.start none q guard)
      (hstep : hopStep file minEpoch q = .stop)
      (hguard : ∀ g, guard = some g → g.Verifies file) : HopEnd file minEpoch q

theorem hop_yields_end : Yields (hop file path minEpoch) (HopEnd file minEpoch) := by
  unfold hop
  split
  · rename_i hmin
    exact .pure (.full hmin)
  rename_i hmin
  refine .bind ((hopLoop_yields_hops (Nat.le_add_left _ _)).orElse _) ?_
  rintro r ⟨q, guard, hhops, ⟨hstop, rfl⟩ | ⟨hstep, rfl⟩⟩
  · cases guard with
    | none => exact .pure (.hopped hmin hhops hstop (by simp))
    | some g =>
      have hinside := (hhops.guard_le (by simp) g rfl).trans (hhops.inside (Nat.zero_le _))
      refine .bind ((read_yields hinside).orElse _) ?_
      rintro payload rfl
      refine .pure ?_
      split
      · rename_i hcrc
        refine .hopped hmin hhops hstop ?_
        rintro g' ⟨⟩
        exact hcrc
      · rename_i hcrc
        exact .broken hhops hstop hcrc
  · exact .pure (.gaveUp hhops hstep)

/-- A full scan begins at the beginning. -/
theorem HopEnd.of_zero (h : HopEnd file 0 q) : q = Progress.start := by
  cases h with
  | hopped hmin => exact absurd rfl hmin
  | _ => rfl

theorem HopEnd.inside (h : HopEnd file minEpoch q) : q.offset ≤ file.length := by
  cases h with
  | hopped _ hhops => exact hhops.inside (Nat.zero_le _)
  | _ => exact Nat.zero_le _

/-! ## Scans with different least epochs -/

/-- `p'` is where a scan from the epoch `minEpoch` on is when a scan of more is at
`p`: it has kept the records above `minEpoch`. -/
structure Covers (minEpoch : EpochNumber) (p p' : Progress) : Prop where
  offset : p'.offset = p.offset
  frontier : p'.frontier = p.frontier
  haveFrame : p'.haveFrame = p.haveFrame
  records : p'.records = p.records.filter (fun record => minEpoch < record.epoch)

section Covered

variable {least : EpochNumber} {p' : Progress}

theorem Covers.start : Covers minEpoch Progress.start Progress.start := ⟨rfl, rfl, rfl, rfl⟩

/-- A frame the scan of less only counts. -/
theorem Accepted.covers_skip (hcov : Covers minEpoch p p') (hcovered : h.epoch ≤ minEpoch)
    (hacc : Accepted mp least p h payload q) :
    Covers minEpoch q (p'.skip h.epoch h.payloadSize) := by
  have hoff : (p'.skip h.epoch h.payloadSize).offset
      = p.offset + kHeaderSize + h.payloadSize := by
    show p'.offset + kHeaderSize + h.payloadSize = _
    rw [hcov.offset]
  cases hacc with
  | covered => exact ⟨hoff, rfl, rfl, hcov.records⟩
  | @decoded records hnew hdecode hnil hstamped =>
    refine ⟨hoff, rfl, rfl, ?_⟩
    have hnone : records.filter (fun record => minEpoch < record.epoch) = [] := by
      rw [List.filter_eq_nil_iff]
      intro record hrecord
      rw [hstamped record hrecord, decide_eq_true_eq, UInt32.not_lt]
      exact hcovered
    rw [List.filter_append, hnone, List.append_nil]
    exact hcov.records

/-- **What one scan accepts, a scan of less accepts.** -/
theorem acceptFrame_covers (hle : least ≤ minEpoch) (hcov : Covers minEpoch p p')
    (hacc : acceptFrame mp least p h payload = .accepted q) :
    ∃ q', acceptFrame mp minEpoch p' h payload = .accepted q' ∧ Covers minEpoch q q' := by
  obtain ⟨hzero, hmono, hacc⟩ := acceptFrame_accepted.mp hacc
  have hmono' : p'.haveFrame = true → p'.frontier ≤ h.epoch := by
    rw [hcov.haveFrame, hcov.frontier]
    exact hmono
  by_cases hcovered : h.epoch ≤ minEpoch
  · exact ⟨_, acceptFrame_accepted.mpr ⟨hzero, hmono', .covered hcovered⟩,
      hacc.covers_skip hcov hcovered⟩
  · have hnew : minEpoch < h.epoch := UInt32.not_le.mp hcovered
    cases hacc with
    | covered hleast => exact absurd (UInt32.le_trans hleast hle) hcovered
    | @decoded records _ hdecode hnil hstamped =>
      refine ⟨_, acceptFrame_accepted.mpr ⟨hzero, hmono', .decoded hnew hdecode hnil hstamped⟩,
        ?_, rfl, rfl, ?_⟩
      · rw [hcov.offset]
      · have hall : records.filter (fun record => minEpoch < record.epoch) = records := by
          rw [List.filter_eq_self]
          intro record hrecord
          rw [hstamped record hrecord, decide_eq_true_eq]
          exact hnew
        rw [List.filter_append, hall, hcov.records]

theorem frameStep_covers (hle : least ≤ minEpoch) (hcov : Covers minEpoch p p')
    (hframe : frameStep mp file least p = .accepted q) :
    ∃ q', frameStep mp file minEpoch p' = .accepted q' ∧ Covers minEpoch q q' := by
  have hat := frameAt_of_accepted hframe
  rw [frameStep_of_frameAt hat] at hframe
  rw [frameStep_of_frameAt (hcov.offset ▸ hat), hcov.offset]
  exact acceptFrame_covers hle hcov hframe

/-- An anomaly does not depend on what the scan is after. -/
theorem frameStep_anomaly_covers {a : Anomaly} {e : Option ℕ} (hcov : Covers minEpoch p p')
    (hframe : frameStep mp file least p = .anomaly a e) :
    frameStep mp file minEpoch p' = .anomaly a e := by
  unfold frameStep at hframe ⊢
  rw [hcov.offset]
  revert hframe
  dsimp only
  cases headerAnomaly (parseHeader (slice file p.offset kHeaderSize)) with
  | some => exact id
  | none =>
    dsimp only
    split_ifs
    · exact id
    · exact id
    · exact id
    · exact fun hframe => absurd hframe acceptFrame_ne_anomaly

/-- **Scans with different least epochs pass the same frames.** -/
theorem Passes.covered (h : Passes mp file least p q) (hle : least ≤ minEpoch)
    (hcov : Covers minEpoch p p') : ∃ q', Passes mp file minEpoch p' q' ∧ Covers minEpoch q q' := by
  induction h generalizing p' with
  | refl => exact ⟨p', .refl p', hcov⟩
  | step hin hframe _ ih =>
    obtain ⟨q', hframe', hcov'⟩ := frameStep_covers hle hcov hframe
    obtain ⟨r', hpass, hcov''⟩ := ih hcov'
    exact ⟨r', .step (by rw [hcov.offset]; exact hin) hframe' hpass, hcov''⟩

end Covered

/-! ## What the walk depends on -/

theorem Keeps.slice_eq {off len : ℕ} (h : Keeps n file file') (hin : off + len ≤ n) :
    slice file' off len = slice file off len := by
  rw [← slice_take hin, h.1, slice_take hin]

/-- A frame below a kept offset still stands. -/
theorem FrameAt.of_keeps {off : ℕ} (h : FrameAt file off) (hkeep : Keeps n file file')
    (hin : off + kHeaderSize + (headerAt file off).payloadSize ≤ n) :
    FrameAt file' off ∧ headerAt file' off = headerAt file off ∧
      payloadAt file' off = payloadAt file off := by
  have hlen := hkeep.2
  have hheader : slice file' off kHeaderSize = slice file off kHeaderSize :=
    hkeep.slice_eq (Nat.le_trans (Nat.le_add_right _ _) hin)
  have hpayload : slice file' (off + kHeaderSize) (headerAt file off).payloadSize
      = payloadAt file off := hkeep.slice_eq hin
  have hsame : headerAt file' off = headerAt file off := congrArg parseHeader hheader
  refine ⟨⟨by omega, ?_, ?_, ?_⟩, hsame, ?_⟩
  · rw [hheader]
    exact h.sane
  · rw [hheader]
    exact hin.trans hlen
  · rw [hheader, hpayload]
    exact h.checksum
  · rw [payloadAt, hsame, hpayload]

theorem frameStep_of_keeps (hkeep : Keeps n file file')
    (hframe : frameStep mp file minEpoch p = .accepted q) (hin : q.offset ≤ n) :
    frameStep mp file' minEpoch p = .accepted q := by
  have hat := frameAt_of_accepted hframe
  have hend := (offset_of_accepted hframe).2.2
  obtain ⟨hat', hheader, hpayload⟩ := hat.of_keeps hkeep (by omega)
  rw [frameStep_of_frameAt hat] at hframe
  rw [frameStep_of_frameAt hat', hheader, hpayload]
  exact hframe

/-- **The walk depends on nothing behind the frames it passes.** -/
theorem Passes.of_keeps (h : Passes mp file minEpoch p q) (hkeep : Keeps n file file')
    (hin : q.offset ≤ n) : Passes mp file' minEpoch p q := by
  induction h with
  | refl p => exact .refl p
  | step _ hframe hrest ih =>
    have hmove := (offset_of_accepted hframe).1
    have hle := hrest.offset_le
    have hlen := hkeep.2
    exact .step (by omega) (frameStep_of_keeps hkeep hframe (by omega)) (ih hin)

end LineairDB.Recovery
