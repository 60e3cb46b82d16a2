import LineairDB.Recovery.Passes

/-!
# What the scan knows about the tail

The searches that decide whether the bytes behind an anomaly may be erased:
the last byte that is not zero, and a frame that survives anywhere beyond.

* `searchForFrameAfter_yields` — the windowed search is complete: when it
  answers "no frame", no intact frame begins where it looked, and when it
  answers "frame", there is one.
* `planTail_yields` — a tail is only ever erased when no intact frame begins
  beyond its start and nothing but zeroes follows its end.
-/

namespace LineairDB.Recovery

open ByteFile FaultyIo

variable {ioBudget pos rounds stop : ℕ} {minEpoch : EpochNumber}

/-- **An intact frame** begins at `q`: the format's constants, a nonzero epoch,
a payload length the format allows that lies inside the file, and a checksum
that holds. -/
def IntactFrameAt (file : Bytes) (q : ℕ) : Prop :=
  let header := slice file q kHeaderSize
  let h := parseHeader header
  q + kHeaderSize ≤ file.length ∧ h.magic = kMagic ∧ h.version = kVersion ∧ h.flags = kFlags ∧
    h.epoch ≠ 0 ∧ 1 ≤ h.payloadSize ∧ h.payloadSize ≤ kMaxPayloadSize ∧
    q + kHeaderSize + h.payloadSize ≤ file.length ∧
    frameCrc header (slice file (q + kHeaderSize) h.payloadSize) = h.storedCrc

instance (file : Bytes) (q : ℕ) : Decidable (IntactFrameAt file q) := by
  unfold IntactFrameAt
  infer_instance

variable {file : Bytes}

/-- The magic of an intact frame stands in its first four bytes. -/
theorem IntactFrameAt.magic {q : ℕ} (h : IntactFrameAt file q) :
    getLe (slice file q 4) = kMagic := by
  obtain ⟨hlen, hmagic, -⟩ := h
  have : slice (slice file q kHeaderSize) 0 4 = slice file (q + 0) 4 := slice_slice (by decide)
  simpa only [parseHeader, getLeAt, this, Nat.add_zero] using hmagic

/-! ## Probing one offset -/

theorem probePayload_yields {remaining : ℕ} {crc : UInt32} (hrounds : remaining ≤ rounds)
    (hin : pos + remaining ≤ file.length) :
    Yields (probePayload file rounds pos remaining crc ioBudget)
      (fun r => ∀ c, r.1 = some c → c = crcUpdate crc (slice file pos remaining)) := by
  induction rounds generalizing pos remaining ioBudget crc with
  | zero =>
    obtain rfl : remaining = 0 := by omega
    refine .pure ?_
    rintro c ⟨⟩
    simp [slice, crcUpdate]
  | succ rounds ih =>
    rw [probePayload]
    split
    · rename_i h0
      refine .pure ?_
      rintro c ⟨⟩
      simp [h0, slice, crcUpdate]
    dsimp only
    split
    · exact .pure (by simp)
    obtain ⟨size, hsize⟩ : ∃ size, size = min kChunkSize remaining := ⟨_, rfl⟩
    have hchunk : kChunkSize = 2 ^ 20 := rfl
    rw [← hsize]
    refine .bind (read_yields (by omega)) ?_
    rintro chunk rfl
    refine (ih (by omega) (by omega)).mono ?_
    intro r hr c hc
    rw [hr c hc, ← crcUpdate_append, slice_add]
    congr 2
    omega

/-- **A probe decides whether an intact frame begins at its offset.** -/
theorem probeFrameAt_yields {offset : ℕ} :
    Yields (probeFrameAt file offset ioBudget) (fun r =>
      (r.1 = .noFrame → ¬ IntactFrameAt file offset) ∧
      (r.1 = .frame → IntactFrameAt file offset)) := by
  unfold probeFrameAt
  split
  · refine .pure ⟨fun _ hintact => ?_, by simp⟩
    have := hintact.1
    omega
  have hsize20 : kHeaderSize = 20 := rfl
  have hhead : offset + kHeaderSize ≤ file.length := by omega
  split
  · exact .pure ⟨by simp, by simp⟩
  refine .bind (read_yields hhead) ?_
  rintro header rfl
  dsimp only
  split
  · rename_i hconst
    refine .pure ⟨fun _ hintact => ?_, by simp⟩
    obtain ⟨-, hm, hv, hf, he, -⟩ := hintact
    rcases hconst with h | h | h | h
    · exact h hm
    · exact h hv
    · exact h hf
    · exact he h
  rename_i hconst
  split
  · refine .pure ⟨fun _ hintact => ?_, by simp⟩
    obtain ⟨-, -, -, -, -, h1, h2, -⟩ := hintact
    omega
  split
  · refine .pure ⟨fun _ hintact => ?_, by simp⟩
    obtain ⟨-, -, -, -, -, -, -, hin, -⟩ := hintact
    omega
  refine .bind (probePayload_yields le_rfl (by omega)) ?_
  rintro ⟨crc, budget⟩ hcrc
  cases crc with
  | none => exact .pure ⟨by simp, by simp⟩
  | some crc =>
    -- the running checksum is the frame's checksum
    have hval : crcFinish crc = frameCrc (slice file offset kHeaderSize)
        (slice file (offset + kHeaderSize)
          (parseHeader (slice file offset kHeaderSize)).payloadSize) := by
      rw [hcrc crc rfl, frameCrc]
    simp only [not_or, not_not, ne_eq] at hconst
    refine .pure ⟨fun hno hintact => ?_, fun hyes => ?_⟩
    · obtain ⟨-, -, -, -, -, -, -, -, hsum⟩ := hintact
      rw [hval, if_pos hsum] at hno
      cases hno
    · refine ⟨hhead, hconst.1, hconst.2.1, hconst.2.2.1, hconst.2.2.2, by omega, by omega,
        by omega, ?_⟩
      rw [← hval]
      by_contra hne
      rw [if_neg hne] at hyes
      cases hyes

/-! ## The windowed search -/

/-- One window: every offset at which four bytes of it remain is decided. -/
theorem probeWindow_yields {chunk : Bytes} (hchunk : StandsAt file pos chunk) :
    Yields (probeWindow file chunk pos ioBudget) (fun r =>
      (r.1 = .noFrame → ∀ q, pos ≤ q → q + 4 ≤ pos + chunk.length → ¬ IntactFrameAt file q) ∧
      (r.1 = .frame → ∃ q, pos ≤ q ∧ IntactFrameAt file q)) := by
  induction chunk generalizing pos ioBudget with
  | nil => exact .pure ⟨fun _ q h1 h2 => by simp at h2; omega, by simp⟩
  | cons b rest ih =>
    have hsplit : StandsAt file pos ([b] ++ rest) := hchunk
    have hrest : StandsAt file (pos + 1) rest := (standsAt_append.mp hsplit).2
    rw [probeWindow]
    split
    · exact .pure ⟨fun _ q h1 h2 => by omega, by simp⟩
    have hfour : slice (b :: rest) 0 4 = slice file pos 4 :=
      (hchunk.slice_eq (a := 0) (n := 4) (by omega)).symm
    -- the answer for `pos` and the answer for what follows make up the window's
    have extend : ∀ budget, ¬ IntactFrameAt file pos →
        Yields (probeWindow file rest (pos + 1) budget) (fun r =>
          (r.1 = .noFrame →
            ∀ q, pos ≤ q → q + 4 ≤ pos + (b :: rest).length → ¬ IntactFrameAt file q) ∧
          (r.1 = .frame → ∃ q, pos ≤ q ∧ IntactFrameAt file q)) := by
      intro budget hpos
      refine (ih hrest).mono ?_
      rintro r ⟨hno, hyes⟩
      refine ⟨fun h q hq hlen => ?_, fun h => ?_⟩
      · by_cases heq : q = pos
        · exact heq ▸ hpos
        · exact hno h q (by omega) (by simp at hlen; omega)
      · obtain ⟨q, hq, hintact⟩ := hyes h
        exact ⟨q, by omega, hintact⟩
    split
    · rename_i hmagic
      refine extend ioBudget fun hintact => hmagic ?_
      rw [getLeAt, hfour]
      exact hintact.magic
    · refine .bind probeFrameAt_yields ?_
      rintro ⟨probe, budget⟩ ⟨hno, hyes⟩
      split
      · rename_i hfound
        exact .pure ⟨fun h => absurd h hfound, fun h => ⟨pos, le_rfl, hyes h⟩⟩
      · rename_i hnone
        exact extend budget (hno (not_not.mp hnone))

theorem searchLoop_yields {searchEnd : ℕ} (hin : searchEnd ≤ file.length)
    (hrounds : searchEnd ≤ pos + rounds) :
    Yields (searchLoop file searchEnd rounds pos ioBudget) (fun probe =>
      (probe = .noFrame → ∀ q, pos ≤ q → q + 4 ≤ searchEnd → ¬ IntactFrameAt file q) ∧
      (probe = .frame → ∃ q, pos ≤ q ∧ IntactFrameAt file q)) := by
  induction rounds generalizing pos ioBudget with
  | zero => exact .pure ⟨fun _ q h1 h2 => by omega, by simp⟩
  | succ rounds ih =>
    rw [searchLoop]
    split
    · exact .pure ⟨fun _ q h1 h2 => by omega, by simp⟩
    dsimp only
    split
    · exact .pure ⟨by simp, by simp⟩
    obtain ⟨size, hsize⟩ : ∃ size, size = min kChunkSize (searchEnd - pos) := ⟨_, rfl⟩
    have hchunk : kChunkSize = 2 ^ 20 := rfl
    have hoverlap : kOverlap = 3 := rfl
    rw [← hsize]
    have hwindow : pos + size ≤ file.length := by omega
    have hlen := length_slice_of_le hwindow
    refine .bind (read_yields hwindow) ?_
    rintro chunk rfl
    refine .bind (probeWindow_yields (by rw [StandsAt, hlen])) ?_
    rintro ⟨probe, budget⟩ ⟨hno, hyes⟩
    rw [hlen] at hno
    split
    · rename_i hfound
      exact .pure ⟨fun h => absurd h hfound, hyes⟩
    rename_i hnone
    have hclear := hno (not_not.mp hnone)
    split
    · exact .pure ⟨fun _ q h1 h2 => by omega, by simp⟩
    · refine (ih (by omega)).mono ?_
      rintro next ⟨hno', hyes'⟩
      refine ⟨fun h q hq hlast => ?_, fun h => ?_⟩
      · -- a magic lies wholly in this window or begins in the next one
        by_cases hhere : q + 4 ≤ pos + size
        · exact hclear q hq hhere
        · exact hno' h q (by omega) hlast
      · obtain ⟨q, hq, hintact⟩ := hyes' h
        exact ⟨q, by omega, hintact⟩

/-- **The search is complete and sound.** -/
theorem searchForFrameAfter_yields {offset searchEnd : ℕ} (hin : searchEnd ≤ file.length) :
    Yields (searchForFrameAfter file offset searchEnd) (fun probe =>
      (probe = .noFrame → ∀ q, offset < q → q + 4 ≤ searchEnd → ¬ IntactFrameAt file q) ∧
      (probe = .frame → ∃ q, offset < q ∧ IntactFrameAt file q)) :=
  searchLoop_yields hin (by omega)

/-! ## The last byte that is not zero -/

/-- The byte at `i`; beyond the end of the file there is nothing but zeroes. -/
def byteAt (file : Bytes) (i : ℕ) : UInt8 := file.getD i 0

/-- The file reads as zeroes from `n` on. -/
abbrev ZeroFrom (file : Bytes) (n : ℕ) : Prop := ∀ i, n ≤ i → byteAt file i = 0

theorem byteAt_slice {off len i : ℕ} (h : i < len) :
    byteAt (slice file off len) i = byteAt file (off + i) := by
  simp only [byteAt, List.getD_eq_getElem?_getD, getElem?_slice, if_pos h]

theorem byteAt_of_length_le {i : ℕ} (h : file.length ≤ i) : byteAt file i = 0 := by
  simp only [byteAt, List.getD_eq_getElem?_getD, List.getElem?_eq_none h, Option.getD_none]

theorem drop_eq_zeros {n : ℕ} (h : ZeroFrom file n) : file.drop n = zeros (file.length - n) := by
  have hall : AllZero (file.drop n) := by
    intro b hb
    obtain ⟨i, hi, rfl⟩ := List.mem_iff_getElem.mp hb
    have hbyte := h (n + i) (by omega)
    rwa [byteAt, List.getD_eq_getElem?_getD, ← List.getElem?_drop, List.getElem?_eq_getElem hi]
      at hbyte
  rw [allZero_iff_eq_zeros.mp hall, List.length_drop]

/-- `last` is the last byte of `[start, stop)` that is not zero, if there is one. -/
def IsLastNonZero (file : Bytes) (start stop : ℕ) : Option ℕ → Prop
  | none => ∀ i, start ≤ i → i < stop → byteAt file i = 0
  | some l => start ≤ l ∧ l < stop ∧ byteAt file l ≠ 0 ∧
      ∀ i, l < i → i < stop → byteAt file i = 0

theorem lastNonZeroIn_spec (chunk : Bytes) :
    IsLastNonZero chunk 0 chunk.length (lastNonZeroIn chunk) := by
  induction chunk with
  | nil => intro i _ h; simp at h
  | cons b rest ih =>
    have hsucc : ∀ i, byteAt (b :: rest) (i + 1) = byteAt rest i := fun i => rfl
    rw [lastNonZeroIn]
    split
    · rename_i l hl
      rw [hl] at ih
      obtain ⟨-, hlen, hne, hzero⟩ := ih
      refine ⟨Nat.zero_le _, by simpa using hlen, by rwa [hsucc], ?_⟩
      intro i hi hlast
      obtain ⟨i, rfl⟩ : ∃ j, i = j + 1 := ⟨i - 1, by omega⟩
      rw [hsucc]
      exact hzero i (by omega) (by simpa using hlast)
    · rename_i hnone
      rw [hnone] at ih
      -- all of the rest is zero, so the head decides
      have hrest : ∀ i, 0 < i → i < (b :: rest).length → byteAt (b :: rest) i = 0 := by
        intro i hi hlast
        obtain ⟨i, rfl⟩ : ∃ j, i = j + 1 := ⟨i - 1, by omega⟩
        rw [hsucc]
        exact ih i (Nat.zero_le _) (by simpa using hlast)
      split
      · rename_i hb
        intro i _ hlast
        by_cases h0 : i = 0
        · subst h0; exact hb
        · exact hrest i (by omega) hlast
      · rename_i hb
        exact ⟨le_rfl, by simp, hb, hrest⟩

theorem findLastNonZeroLoop_yields {start : ℕ} {last : Option ℕ} (hin : stop ≤ file.length)
    (hstart : start ≤ pos) (hrounds : stop ≤ pos + rounds)
    (hlast : IsLastNonZero file start (min pos stop) last) :
    Yields (findLastNonZeroLoop file stop rounds pos last) (IsLastNonZero file start stop) := by
  induction rounds generalizing pos last with
  | zero =>
    refine .pure ?_
    rwa [Nat.min_eq_right (by omega)] at hlast
  | succ rounds ih =>
    rw [findLastNonZeroLoop]
    split
    · rename_i hdone
      refine .pure ?_
      rwa [Nat.min_eq_right hdone] at hlast
    obtain ⟨size, hsize⟩ : ∃ size, size = min kChunkSize (stop - pos) := ⟨_, rfl⟩
    have hchunk : kChunkSize = 2 ^ 20 := rfl
    rw [← hsize]
    refine .bind (read_yields (by omega)) ?_
    rintro chunk rfl
    have hlen : (slice file pos size).length = size := length_slice_of_le (by omega)
    have hwin := lastNonZeroIn_spec (slice file pos size)
    rw [hlen] at hwin
    rw [Nat.min_eq_left (by omega)] at hlast
    have hstop : min (pos + kChunkSize) stop = pos + size := by omega
    have hbyte : ∀ i, pos ≤ i → i < pos + size →
        byteAt (slice file pos size) (i - pos) = byteAt file i := by
      intro i h1 h2
      rw [byteAt_slice (by omega)]
      congr 1
      omega
    refine ih (by omega) (by omega) ?_
    rw [hstop]
    cases hcase : lastNonZeroIn (slice file pos size) with
    | some =>
      rw [hcase] at hwin
      obtain ⟨-, hl, hne, hzero⟩ := hwin
      refine ⟨by omega, by omega, ?_, ?_⟩
      · rwa [byteAt_slice hl] at hne
      · intro i h1 h2
        rw [← hbyte i (by omega) h2]
        exact hzero (i - pos) (by omega) (by omega)
    | none =>
      rw [hcase] at hwin
      have hzero : ∀ i, pos ≤ i → i < pos + size → byteAt file i = 0 := by
        intro i h1 h2
        rw [← hbyte i h1 h2]
        exact hwin (i - pos) (by omega) (by omega)
      cases last with
      | none =>
        intro i h1 h2
        by_cases hi : i < pos
        · exact hlast i h1 hi
        · exact hzero i (by omega) h2
      | some =>
        obtain ⟨h1, h2, h3, h4⟩ := hlast
        refine ⟨h1, by omega, h3, ?_⟩
        intro i hi hi2
        by_cases hlt : i < pos
        · exact h4 i hi hlt
        · exact hzero i (by omega) hi2

theorem findLastNonZero_yields {start : ℕ} (hin : stop ≤ file.length) :
    Yields (findLastNonZero file start stop) (IsLastNonZero file start stop) :=
  findLastNonZeroLoop_yields hin le_rfl (by omega) (fun i h1 h2 => by omega)

/-- A frame cannot begin among zeroes: the magic has none. -/
theorem IntactFrameAt.lt_of_zero {q : ℕ} (h : IntactFrameAt file q)
    (hzero : ∀ i, stop ≤ i → i < file.length → byteAt file i = 0) : q + 4 ≤ stop := by
  by_contra hlt
  have hsize : kHeaderSize = 20 := rfl
  have hlen := h.1
  have hfour : slice file q 4 = putLe 4 kMagic := by
    rw [slice_eq_putLe (by omega), getLeAt, h.magic]
  have hbyte : byteAt file (q + 3) = 0x4c := by
    rw [← byteAt_slice (show 3 < 4 by omega), hfour]
    decide
  rw [hzero (q + 3) (by omega) (by omega)] at hbyte
  exact absurd hbyte (by decide)

/-! ## The decision -/

/-- What holds of the tail when the scan decides to erase it: no intact frame
begins beyond its start, and only zeroes follow its end. -/
structure Erasable (file : Bytes) (start stop : ℕ) : Prop where
  start_lt : start < stop
  stop_le : stop ≤ file.length
  no_frame : ∀ q, start < q → ¬ IntactFrameAt file q
  zero_beyond : ∀ i, stop ≤ i → byteAt file i = 0

variable {path : String} {p : Progress}

/-- **The decision about a tail.** It is erased only where it is `Erasable`, and
left alone only where it is zero already. -/
theorem planTail_yields {a : Anomaly} {brokenFrameEnd : Option ℕ} :
    Yields (planTail file path p a brokenFrameEnd) (fun plan =>
      (∀ q stop, plan = .zeroTail q stop → q = p ∧ Erasable file p.offset stop) ∧
      (∀ q, plan = .finish q → q = p ∧ ZeroFrom file p.offset)) := by
  refine .bind ((findLastNonZero_yields le_rfl).orElse _) ?_
  intro last hlast
  cases last with
  | none =>
    refine .pure ⟨by simp, ?_⟩
    rintro q ⟨⟩
    refine ⟨rfl, fun i hi => ?_⟩
    by_cases hlt : i < file.length
    · exact hlast i hi hlt
    · exact byteAt_of_length_le (by omega)
  | some =>
    obtain ⟨hstart, hstop, -, hzero⟩ := hlast
    dsimp only
    split
    · exact .pure ⟨by simp, by simp⟩
    refine .bind ((searchForFrameAfter_yields (by omega)).orElse _) ?_
    rintro probe ⟨hno, -⟩
    cases probe with
    | frame | undecidable => exact .pure ⟨by simp, by simp⟩
    | noFrame =>
      refine .pure ⟨?_, by simp⟩
      rintro q stop ⟨⟩
      refine ⟨rfl, by omega, by omega, fun q hq hintact => ?_, fun i hi => ?_⟩
      · exact hno rfl q hq (hintact.lt_of_zero fun i h1 h2 => hzero i (by omega) h2) hintact
      · by_cases hlt : i < file.length
        · exact hzero i (by omega) hlt
        · exact byteAt_of_length_le (by omega)

/-- **Whatever the file holds**, a scan of it plans to erase only what is
`Erasable`, and otherwise stops where nothing but zeroes follows. -/
theorem planScan_yields {mp : Msgpack} :
    Yields (planScan mp file path minEpoch) (fun plan =>
      (∀ q stop, plan = .zeroTail q stop → Erasable file q.offset stop) ∧
      (∀ q, plan = .finish q → ZeroFrom file q.offset)) := by
  refine .bind hop_yields_end fun p _ => ?_
  refine .bind (scanLoop_yields_passes (Nat.le_add_left _ _)) ?_
  rintro ended ⟨q, -, hstop⟩
  cases hstop with
  | corrupt => exact .pure ⟨by simp, by simp⟩
  | endOfFile hend =>
    refine .pure ⟨by simp, ?_⟩
    rintro q' ⟨⟩ i hi
    exact byteAt_of_length_le (hend.trans hi)
  | anomaly =>
    refine planTail_yields.mono ?_
    rintro plan ⟨hzero, hfinish⟩
    refine ⟨fun q' stop h => ?_, fun q' h => ?_⟩
    · obtain ⟨rfl, herase⟩ := hzero q' stop h
      exact herase
    · obtain ⟨rfl, hbeyond⟩ := hfinish q' h
      exact hbeyond

end LineairDB.Recovery
