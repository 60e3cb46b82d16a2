import LineairDB.Recovery.Repair

/-!
# Interrupted writes

A log followed by the first bytes of a frame and zeroes is what a write
leaves that was cut short. Wherever the cut lies (inside the magic, a later
constant, the length, the epoch, the checksum or the payload), the scan
classifies what is left as an interrupted write, never as damage.

* `frameStep_torn` — every cut is an anomaly the repair may consider.
* `planScan_torn` — the plan the scan then makes.
-/

namespace LineairDB.Recovery

open ByteFile FaultyIo

/-- The bytes at `q` read as a frame that lies inside the file and satisfies its
own checksum. -/
def ChecksumHoldsAt (file : Bytes) (q : ℕ) : Prop :=
  let header := slice file q kHeaderSize
  let h := parseHeader header
  q + kHeaderSize + h.payloadSize ≤ file.length ∧
    frameCrc header (slice file (q + kHeaderSize) h.payloadSize) = h.storedCrc

instance (file : Bytes) (q : ℕ) : Decidable (ChecksumHoldsAt file q) := by
  unfold ChecksumHoldsAt
  infer_instance

/-! ## Headers cut short -/

/-- The first `m` bytes of a header, followed by zeroes. -/
def cutHeader (epoch : EpochNumber) (payload : Bytes) (m : ℕ) : Bytes :=
  (frameHeader epoch payload).take m ++ zeros (kHeaderSize - m)

theorem take_frameHeader_of_le (epoch : EpochNumber) (payload : Bytes) {m : ℕ} (hm : m ≤ 8) :
    (frameHeader epoch payload).take m = frameConstants.take m := by
  rw [frameHeader, frameHead, List.append_assoc, List.append_assoc,
    List.take_append_of_le_length (by simpa using hm)]

/-- A cut inside the magic, or right behind it, leaves a torn prefix. -/
theorem cutHeader_torn (epoch : EpochNumber) (payload : Bytes) {m : ℕ} (hm : m ≤ 4) :
    (∃ a, headerAnomaly (parseHeader (cutHeader epoch payload m)) = some a) ∧
      headerIsTornPrefix (cutHeader epoch payload m) = true := by
  rw [cutHeader, take_frameHeader_of_le epoch payload (by omega)]
  -- the five headers are closed terms
  obtain rfl | rfl | rfl | rfl | rfl : m = 0 ∨ m = 1 ∨ m = 2 ∨ m = 3 ∨ m = 4 := by omega
  · exact ⟨⟨.magicMismatch, by decide⟩, by decide⟩
  · exact ⟨⟨.magicMismatch, by decide⟩, by decide⟩
  · exact ⟨⟨.magicMismatch, by decide⟩, by decide⟩
  · exact ⟨⟨.magicMismatch, by decide⟩, by decide⟩
  · exact ⟨⟨.unsupportedVersion, by decide⟩, by decide⟩

/-- Cutting a numeral short can only make it smaller. -/
theorem getLe_take_append_zeros_le (bs : Bytes) (j n : ℕ) :
    getLe (bs.take j ++ zeros n) ≤ getLe bs := by
  induction bs generalizing j with
  | nil =>
    rw [List.take_nil, List.nil_append, getLe_eq_zero_of_allZero (allZero_zeros n)]
    exact Nat.zero_le _
  | cons b bs ih =>
    cases j with
    | zero =>
      rw [List.take_zero, List.nil_append, getLe_eq_zero_of_allZero (allZero_zeros n)]
      exact Nat.zero_le _
    | succ j =>
      have := ih j
      simp only [List.take_succ_cons, List.cons_append, getLe]
      omega

/-- A slice of a header cut short is the field cut short. -/
theorem slice_cutHeader (epoch : EpochNumber) (payload : Bytes) {m i n : ℕ} (hm : m ≤ kHeaderSize)
    (hin : i + n ≤ kHeaderSize) :
    slice (cutHeader epoch payload m) i n
      = (slice (frameHeader epoch payload) i n).take (m - i) ++ zeros (n - (m - i)) := by
  have hlen := length_frameHeader epoch payload
  apply List.ext_getElem?
  intro k
  simp only [getElem?_slice, cutHeader, List.getElem?_append, List.getElem?_take, List.length_take,
    zeros, List.getElem?_replicate, length_slice, hlen]
  split_ifs <;> first | omega | rfl

/-- A cut behind the version's first byte leaves the constants whole and a
length no larger than the frame's own. -/
theorem cutHeader_constants (epoch : EpochNumber) {payload : Bytes} {m : ℕ} (hm5 : 5 ≤ m)
    (hm : m ≤ kHeaderSize) (hfits : payload.length ≤ kMaxPayloadSize) :
    headerAnomaly (parseHeader (cutHeader epoch payload m)) = none := by
  have hsize : kHeaderSize = 20 := rfl
  have hwhole := headerAnomaly_eq_none.mp (headerAnomaly_frameHeader epoch hfits)
  have hconst : slice (cutHeader epoch payload m) 0 8 = frameConstants := by
    have hhead : slice (frameHeader epoch payload) 0 8 = frameConstants :=
      take_frameHeader_of_le epoch payload (Nat.le_refl 8)
    rw [slice_cutHeader epoch payload hm (by omega), hhead, Nat.sub_zero]
    obtain rfl | rfl | rfl | h8 : m = 5 ∨ m = 6 ∨ m = 7 ∨ 8 ≤ m := by omega
    · decide
    · decide
    · decide
    · rw [List.take_of_length_le (by simpa using h8), show 8 - m = 0 by omega]
      simp [zeros]
  have field : ∀ i n, i + n ≤ 8 →
      slice (cutHeader epoch payload m) i n = slice frameConstants i n := by
    intro i n hin
    rw [← hconst, slice_slice hin, Nat.zero_add]
  rw [headerAnomaly_eq_none]
  simp only [parseHeader, getLeAt, field 0 4 (by omega), field 4 2 (by omega), field 6 2 (by omega)]
  refine ⟨by decide, by decide, by decide, ?_⟩
  rw [slice_cutHeader epoch payload hm (by omega)]
  exact Nat.le_trans (getLe_take_append_zeros_le _ _ _) hwhole.2.2.2

/-! ## Every cut is an anomaly -/

section Torn

variable {mp : Msgpack} {file pre payload : Bytes} {path : String} {p : Progress}
  {epoch : EpochNumber} {m z : ℕ}

section

variable (hfile : file = pre ++ (encodeFrame epoch payload).take m ++ zeros z)

include hfile

/-- The header the scan reads where a frame was cut. -/
theorem slice_header_of_torn
    (hhead : pre.length + kHeaderSize ≤ file.length) (hm : m < kHeaderSize + payload.length) :
    slice file pre.length kHeaderSize = cutHeader epoch payload (min m kHeaderSize) := by
  have hlen := length_frameHeader epoch payload
  have hflen := length_encodeFrame epoch payload
  have hsplit : slice file pre.length kHeaderSize
      = slice ((encodeFrame epoch payload).take m ++ zeros z) 0 kHeaderSize := by
    rw [hfile, List.append_assoc]
    exact slice_append_right pre _ 0 kHeaderSize
  rw [hfile] at hhead
  simp only [List.length_append, List.length_take, length_zeros, hflen] at hhead
  rw [hsplit]
  apply List.ext_getElem?
  intro k
  simp only [getElem?_slice, cutHeader, encodeFrame, List.getElem?_append, List.getElem?_take,
    List.length_take, List.length_append, zeros, List.getElem?_replicate, hlen]
  split_ifs <;> first | omega | rfl | (congr 1; omega)

section

variable (hoff : p.offset = pre.length) (hm : m < kHeaderSize + payload.length)
  (hfits : payload.length ≤ kMaxPayloadSize)

include hoff hm hfits

/-- **Every cut is an anomaly.** Where a log is followed by a proper prefix of a
frame and zeroes, the scan sees an interrupted write; if it sees a whole frame
with a broken checksum, that frame ends behind every byte that was written. -/
theorem frameStep_torn (hcrc : 0 < m → ¬ ChecksumHoldsAt file pre.length) :
    ∃ a b, frameStep mp file 0 p = .anomaly a b ∧
      ∀ frameEnd, b = some frameEnd → pre.length + m ≤ frameEnd := by
  have hsize : kHeaderSize = 20 := rfl
  unfold frameStep
  rw [hoff]
  split
  · exact ⟨_, none, rfl, by simp⟩
  have hle : pre.length ≤ file.length := by
    rw [hfile]; simp
  have hcut := slice_header_of_torn hfile (by omega) hm
  by_cases h4 : m ≤ 4
  · -- inside the magic, or with the version still unwritten
    rw [hcut, show min m kHeaderSize = m by omega]
    obtain ⟨⟨a, ha⟩, htorn⟩ := cutHeader_torn epoch payload h4
    simp only [ha, htorn, if_true]
    exact ⟨a, none, rfl, by simp⟩
  · have hnone : headerAnomaly (parseHeader (slice file pre.length kHeaderSize)) = none := by
      rw [hcut]
      exact cutHeader_constants epoch (by omega) (by omega) hfits
    simp only [hnone]
    split
    · exact ⟨_, none, rfl, by simp⟩
    rw [if_pos fun hsum => hcrc (by omega) ⟨by omega, hsum⟩]
    refine ⟨_, _, rfl, ?_⟩
    rintro frameEnd ⟨⟩
    -- with the header whole, its length is the frame's own
    by_cases hwhole : m ≤ kHeaderSize
    · omega
    · have hheader : slice file pre.length kHeaderSize = frameHeader epoch payload := by
        rw [hcut, show min m kHeaderSize = kHeaderSize by omega, cutHeader, Nat.sub_self,
          List.take_of_length_le (by simp)]
        simp [zeros]
      rw [hheader, parseHeader_frameHeader epoch hfits]
      dsimp only
      omega

/-! ## The plan for an interrupted write -/

/-- What is known about the bytes a cut frame left in `[start, stop)`: the frame
does not pass its own checksum, no intact frame begins behind its start, and
the search for one fits its budget. -/
structure Discernible (file : Bytes) (start stop : ℕ) : Prop where
  checksum : ¬ ChecksumHoldsAt file start
  no_frame : ∀ q, start < q → ¬ IntactFrameAt file q
  budget : ∀ searchEnd, searchEnd ≤ stop →
    searchForFrameAfter file start searchEnd [] ≠ .ok (.undecidable, [])

theorem stops_torn (hcrc : 0 < m → ¬ ChecksumHoldsAt file pre.length) :
    Stops mp file 0 p (.endOfFile p) ∨ ∃ a b, Stops mp file 0 p (.anomaly p a b) ∧
      ∀ frameEnd, b = some frameEnd → pre.length + m ≤ frameEnd := by
  by_cases hend : file.length ≤ p.offset
  · exact .inl (.endOfFile hend)
  · obtain ⟨a, b, hframe, hb⟩ := frameStep_torn hfile hoff hm hfits hcrc
    exact .inr ⟨a, b, .anomaly (Nat.lt_of_not_le hend) hframe, hb⟩

end

/-- The bytes behind the cut are zero. -/
theorem byteAt_of_torn {i : ℕ} (hi : pre.length + m ≤ i) : byteAt file i = 0 := by
  have hcut : (pre ++ (encodeFrame epoch payload).take m).length ≤ i := by
    rw [List.length_append, List.length_take]; omega
  rw [hfile, byteAt, List.getD_eq_getElem?_getD, List.getElem?_append_right hcut, zeros,
    List.getElem?_replicate]
  split <;> rfl

/-- **The decision about a cut frame** on a sound device: nothing is left to do
if nothing but zeroes is left, and otherwise the tail is erased. -/
theorem planTail_torn {a : Anomaly} {b : Option ℕ}
    (hoff : p.offset = pre.length) (hdisc : 0 < m → Discernible file pre.length (pre.length + m))
    (hend : ∀ frameEnd, b = some frameEnd → pre.length + m ≤ frameEnd) :
    planTail file path p a b [] = .ok (.finish p, []) ∧ ZeroFrom file pre.length ∨
    0 < m ∧ ∃ stop, planTail file path p a b [] = .ok (.zeroTail p stop, []) := by
  have hfind : Yields (findLastNonZero file p.offset file.length)
      (IsLastNonZero file p.offset file.length) := findLastNonZero_yields le_rfl
  obtain ⟨last, hrun, hlast⟩ := hfind.run_empty
  have hrun' : (findLastNonZero file p.offset file.length).orElse
      (⟨"pread the tail of " ++ path, ·⟩ : Errno → IoFailure) [] = .ok (last, []) :=
    Reading.orElse_eq_of_ok hrun
  unfold planTail
  rw [Reading.bind_eq_of_ok hrun']
  cases last with
  | none =>
    refine .inl ⟨rfl, fun i hi => ?_⟩
    by_cases hlt : i < file.length
    · exact hlast i (by omega) hlt
    · exact byteAt_of_length_le (by omega)
  | some last =>
    obtain ⟨hstart, hstop, hne, -⟩ := hlast
    -- the last byte that is not zero was written, so something was
    have hwritten : last < pre.length + m := by
      by_contra hge
      exact hne (byteAt_of_torn hfile (by omega))
    have hpos : 0 < m := by omega
    obtain ⟨-, hnone, hbudget⟩ := hdisc hpos
    obtain ⟨probe, hsearch, -, hyes⟩ :
        ∃ probe, searchForFrameAfter file p.offset (last + 1) [] = .ok (probe, []) ∧ _ :=
      (searchForFrameAfter_yields (show last + 1 ≤ file.length by omega)).run_empty
    have hfound : probe = .noFrame := by
      cases probe with
      | noFrame => rfl
      | frame =>
        obtain ⟨q, hq, hintact⟩ := hyes rfl
        exact absurd hintact (hnone q (by omega))
      | undecidable =>
        rw [hoff] at hsearch
        exact absurd hsearch (hbudget (last + 1) (by omega))
    have hclear : b.any (· ≤ last) = false := by
      cases b with
      | none => rfl
      | some frameEnd =>
        have := hend frameEnd rfl
        simp only [Option.any_some, decide_eq_false_iff_not]
        omega
    have hsearch' : (searchForFrameAfter file p.offset (last + 1)).orElse
        (⟨"pread past the tail of " ++ path, ·⟩ : Errno → IoFailure) [] = .ok (.noFrame, []) :=
      Reading.orElse_eq_of_ok (hfound ▸ hsearch)
    refine .inr ⟨hpos, last + 1, ?_⟩
    simp only [hclear, Bool.false_eq_true, if_false]
    rw [Reading.bind_eq_of_ok hsearch']
    rfl

end

theorem standsAt_log {log : List (Frame mp)} {cut rest : Bytes}
    (hfile : file = logBytes log ++ cut ++ rest) : StandsAt file 0 (logBytes log) := by
  have := standsAt_of_append [] (logBytes log) (cut ++ rest)
  rwa [List.nil_append, ← List.append_assoc, ← hfile] at this

/-- **The plan for a log with a cut frame behind it.** -/
theorem planScan_torn {log : List (Frame mp)} (hasc : AscendingFrom 0 log)
    (hfile : file = logBytes log ++ (encodeFrame epoch payload).take m ++ zeros z)
    (hm : m < kHeaderSize + payload.length) (hfits : payload.length ≤ kMaxPayloadSize)
    (hdisc : 0 < m →
      Discernible file (logBytes log).length ((logBytes log).length + m)) :
    planScan mp file path 0 [] = .ok (.finish (Progress.start.acceptAll log), []) ∧
      ZeroFrom file (logBytes log).length ∨
    0 < m ∧ ∃ stop, planScan mp file path 0 []
      = .ok (.zeroTail (Progress.start.acceptAll log) stop, []) := by
  obtain ⟨q, hq⟩ : ∃ q, q = Progress.start.acceptAll log := ⟨_, rfl⟩
  have hoff : q.offset = (logBytes log).length := by
    rw [hq, Progress.acceptAll_offset]; simp [Progress.start]
  have hlog := standsAt_log hfile
  have hpass : Passes mp file 0 Progress.start q :=
    hq ▸ passes_acceptAll log (Nat.zero_le _) hlog hasc
  have hloop : Yields (scanLoop mp file path 0 file.length Progress.start) (fun ended =>
      ∃ q, Passes mp file 0 Progress.start q ∧ Stops mp file 0 q ended) :=
    scanLoop_yields_passes (Nat.le_add_left _ _)
  obtain ⟨ended, hrun, q', hpass', hstop'⟩ := hloop.run_empty
  have hhop : hop file path 0 [] = .ok (.start, []) := rfl
  unfold planScan
  rw [Reading.bind_eq_of_ok hhop, Reading.bind_eq_of_ok hrun, ← hq]
  rcases stops_torn hfile hoff hm hfits fun h => (hdisc h).checksum with
    hstop | ⟨a, b, hstop, hend⟩
  · obtain ⟨-, rfl⟩ := hpass.unique hstop hpass' hstop'
    cases hstop with
    | endOfFile hlen => exact .inl ⟨rfl, fun i hi => byteAt_of_length_le (by omega)⟩
  · obtain ⟨-, rfl⟩ := hpass.unique hstop hpass' hstop'
    exact planTail_torn hfile hoff hdisc hend

end Torn

end LineairDB.Recovery
