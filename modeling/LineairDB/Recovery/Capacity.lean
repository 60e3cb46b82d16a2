import LineairDB.Recovery.Wal

/-!
# Zero writes and capacity

What `WriteZeroesAndSync` and `EnsureCapacityFor` do to the file: nothing
below the offset they start from, whatever the calls do; and when they
report success, exactly the zeroes they were asked for.

* `ensureCapacityFor_checked` — none of the sums, differences and products wraps.
* `capacity_arithmetic_safe` — and what the function leaves of file and size.
-/

namespace LineairDB.Recovery

open ByteFile FaultyIo

variable {script : List Transfer} {capacity : ℕ}

variable {endOfLog groupSize n rounds start stop : ℕ} {file : Bytes} {dev : Device} {wal : Wal}

/-- The bytes of `file` below `n` are still in `file'`. -/
def Keeps (n : ℕ) (file file' : Bytes) : Prop := file'.take n = file.take n ∧ n ≤ file'.length

theorem Keeps.refl (h : n ≤ file.length) : Keeps n file file := ⟨rfl, h⟩

theorem Keeps.trans {f₁ f₂ f₃ : Bytes} (h₁ : Keeps n f₁ f₂) (h₂ : Keeps n f₂ f₃) : Keeps n f₁ f₃ :=
  ⟨h₂.1.trans h₁.1, h₂.2⟩

/-! ## Zero writes -/

theorem writeZeroesLoop_keeps (hn : n ≤ start) (hlen : n ≤ file.length) :
    Keeps n file (writeZeroesLoop rounds script file start stop).file := by
  induction rounds generalizing script file start with
  | zero => exact .refl hlen
  | succ rounds ih =>
    rw [writeZeroesLoop]
    split
    · exact .refl hlen
    obtain ⟨htake, hlong⟩ :=
      writeAll_keeps script file (zeros (min kChunkSize (stop - start))) start hn hlen
    dsimp only
    split
    · exact ⟨htake, hlong⟩
    · have hone : Keeps n file _ := ⟨htake, hlong⟩
      exact hone.trans (ih (by omega) hlong)

theorem writeAt_zeros_of_le (hle : stop ≤ start) (hin : start ≤ file.length) :
    writeAt file start (zeros (stop - start)) = file := by
  rw [show stop - start = 0 by omega]
  exact writeAt_nil hin

theorem writeZeroesLoop_ok (hrounds : stop ≤ start + rounds)
    (hstart : start ≤ file.length ∨ start < stop)
    (h : (writeZeroesLoop rounds script file start stop).error = none) :
    (writeZeroesLoop rounds script file start stop).file
      = writeAt file start (zeros (stop - start)) := by
  induction rounds generalizing script file start with
  | zero => exact (writeAt_zeros_of_le (by omega) (hstart.resolve_right (by omega))).symm
  | succ rounds ih =>
    rw [writeZeroesLoop] at h ⊢
    split
    · exact (writeAt_zeros_of_le ‹_› (hstart.resolve_right (by omega))).symm
    rename_i hmore
    rw [if_neg hmore] at h
    obtain ⟨size, hsize⟩ : ∃ size, size = min kChunkSize (stop - start) := ⟨_, rfl⟩
    have hchunk : kChunkSize = 2 ^ 20 := rfl
    rw [← hsize] at h ⊢
    cases herr : (writeAll script file (zeros size) start).error with
    | some => simp [herr] at h
    | none =>
      simp only [herr] at h ⊢
      have hsome : zeros size ≠ [] := by simp [← List.length_pos_iff, hsize, hchunk]; omega
      have hone := writeAll_of_error_eq_none script (.inr hsome) herr
      rw [hone] at h ⊢
      have hgrown : start + size ≤ (writeAt file start (zeros size)).length := by
        rw [length_writeAt, length_zeros]; omega
      rw [ih (by omega) (.inl hgrown) h]
      have hjoin := writeAt_writeAt file start (zeros size) (zeros (stop - (start + size)))
      rw [length_zeros] at hjoin
      rw [hjoin, zeros_append]
      congr 2
      omega

/-- The zero writes without faults. -/
theorem writeZeroesLoop_full :
    (writeZeroesLoop rounds [] file start stop).error = none ∧
      (writeZeroesLoop rounds [] file start stop).script = [] := by
  induction rounds generalizing file start with
  | zero => exact ⟨rfl, rfl⟩
  | succ rounds ih =>
    have hone : ∀ data, (writeAll [] file data start).error = none ∧
        (writeAll [] file data start).script = [] := by
      intro data
      cases data <;> exact ⟨rfl, rfl⟩
    rw [writeZeroesLoop]
    split
    · exact ⟨rfl, rfl⟩
    · simp only [hone]
      exact ih

theorem writeZeroesAndSync_keeps (hn : n ≤ start) (hlen : n ≤ dev.file.length) :
    Keeps n dev.file (writeZeroesAndSync dev start stop).2.file := by
  unfold writeZeroesAndSync
  split
  · exact .refl hlen
  · dsimp only
    have hloop : Keeps n dev.file
        (writeZeroesLoop (stop - start) dev.initialisePwrites dev.file start stop).file :=
      writeZeroesLoop_keeps hn hlen
    split
    · exact hloop
    · exact hloop

/-- **A zero write that reports success** has put zeroes there and nothing else. -/
theorem writeZeroesAndSync_ok {dev' : Device} (hstart : start ≤ dev.file.length ∨ start < stop)
    (h : writeZeroesAndSync dev start stop = (none, dev')) :
    dev'.file = writeAt dev.file start (zeros (stop - start)) := by
  unfold writeZeroesAndSync at h
  split at h
  · rename_i hle
    cases h
    exact (writeAt_zeros_of_le hle (by omega)).symm
  · dsimp only at h
    split at h
    · cases h
    · rename_i herr
      have hfile := writeZeroesLoop_ok (by omega) hstart herr
      simp only [Prod.mk.injEq] at h
      rw [← h.2]
      exact hfile

theorem writeZeroesAndSync_sound (hstart : start ≤ file.length) :
    writeZeroesAndSync (Device.sound file) start stop
      = (none, Device.sound (writeAt file start (zeros (stop - start)))) := by
  unfold writeZeroesAndSync Device.sound
  split
  · rename_i hle
    rw [writeAt_zeros_of_le hle hstart]
  · have hfull : (writeZeroesLoop (stop - start) [] file start stop).error = none ∧
        (writeZeroesLoop (stop - start) [] file start stop).script = [] := writeZeroesLoop_full
    obtain ⟨herr, hscript⟩ := hfull
    have hfile := writeZeroesLoop_ok (by omega) (.inl hstart) herr
    simp [herr, hscript, hfile, syncAll]

/-! ## Capacity -/

/-- The capacity check passes: there is no preallocation, or the file already
covers what is needed, or the rounded size is a valid offset. -/
def Reservable (capacity initialisedSize needed : ℕ) : Prop :=
  capacity = kNoPreallocation ∨ (needed ≤ initialisedSize ∧ capacity ≤ initialisedSize) ∨
    capacityUnits capacity needed * capacity ≤ kOffMax

theorem capacityUnits_mono {m : ℕ} (h : m ≤ n) :
    capacityUnits capacity m ≤ capacityUnits capacity n := by
  rcases Nat.eq_zero_or_pos capacity with rfl | hc
  · simp only [capacityUnits, Nat.div_zero, Nat.mod_zero]
    split_ifs <;> omega
  -- a whole number of units that holds `n` bytes holds `m` bytes
  have hm := Nat.div_add_mod m capacity
  have hn := Nat.div_add_mod n capacity
  have hmlt := Nat.mod_lt m hc
  have hnlt := Nat.mod_lt n hc
  have hdiv : m / capacity ≤ n / capacity := Nat.div_le_div_right h
  unfold capacityUnits
  rcases Nat.lt_or_eq_of_le hdiv with hlt | heq
  · split_ifs <;> omega
  · rw [heq] at hm
    split_ifs <;> omega

theorem Reservable.mono {size size' needed needed' : ℕ} (h : Reservable capacity size needed)
    (hn : needed' ≤ needed) (hs : size ≤ size') : Reservable capacity size' needed' := by
  rcases h with h | h | h
  · exact .inl h
  · exact .inr (.inl ⟨by omega, by omega⟩)
  · exact .inr (.inr (Nat.le_trans (Nat.mul_le_mul_right _ (capacityUnits_mono hn)) h))

/-- The instance once its zeroes reach to the end of the file. -/
def Wal.initialisedTo (wal : Wal) (file : Bytes) : Wal :=
  { wal with initialisedSize := file.length }

theorem Wal.initialisedTo_self (h : wal.initialisedSize = file.length) :
    wal.initialisedTo file = wal := by
  rw [initialisedTo, ← h]

theorem writeAt_length (file data : Bytes) : writeAt file file.length data = file ++ data := by
  rw [writeAt_of_le data le_rfl, List.take_length, List.drop_of_length_le (by omega),
    List.append_nil]

/-- Reserving capacity leaves everything below the initialised region. -/
theorem ensureCapacityFor_keeps (hn : n ≤ wal.initialisedSize) (hlen : n ≤ dev.file.length) :
    Keeps n dev.file (ensureCapacityFor wal dev endOfLog groupSize).2.2.file := by
  unfold ensureCapacityFor
  dsimp only
  split_ifs
  · exact .refl hlen
  · exact .refl hlen
  · exact .refl hlen
  · exact .refl hlen
  · exact .refl hlen
  · have hzero : ∀ stop, Keeps n dev.file
        (writeZeroesAndSync dev wal.initialisedSize stop).2.file := fun stop =>
      writeZeroesAndSync_keeps hn hlen
    split
    · rename_i heq
      exact congrArg Prod.snd heq ▸ hzero _
    · rename_i heq
      exact congrArg Prod.snd heq ▸ hzero _

/-- **Reserving capacity appends zeroes**, and only moves the initialised size. -/
theorem ensureCapacityFor_ok {wal' : Wal} {dev' : Device}
    (hinit : wal.initialisedSize = dev.file.length)
    (h : ensureCapacityFor wal dev endOfLog groupSize = (none, wal', dev')) :
    ∃ k, dev'.file = dev.file ++ zeros k ∧ wal' = wal.initialisedTo dev'.file := by
  revert h
  fun_cases ensureCapacityFor wal dev endOfLog groupSize with
  | case2 | case3 | case5 =>
    rintro ⟨⟩
    exact ⟨0, by simp [zeros], (Wal.initialisedTo_self hinit).symm⟩
  | case7 _ _ _ _ _ _ _ htarget _ heq =>
    rintro ⟨⟩
    have hfile := writeZeroesAndSync_ok (.inl hinit.le) heq
    rw [hinit, writeAt_length] at hfile
    refine ⟨_, hfile, ?_⟩
    rw [Wal.initialisedTo, hfile, List.length_append, length_zeros]
    congr 1
    omega
  | _ => simp

/-- Without faults the capacity check decides. -/
theorem ensureCapacityFor_sound (hinit : wal.initialisedSize = file.length)
    (hgroup : groupSize ≤ kOffMax - endOfLog)
    (hres : Reservable wal.initialCapacityBytes file.length (endOfLog + groupSize)) :
    ∃ k, ensureCapacityFor wal (Device.sound file) endOfLog groupSize
      = (none, wal.initialisedTo (file ++ zeros k), Device.sound (file ++ zeros k)) := by
  have unchanged : ∃ k, ((none : Option Errno), wal, .sound file)
      = (none, wal.initialisedTo (file ++ zeros k), Device.sound (file ++ zeros k)) :=
    ⟨0, by simp [zeros, Wal.initialisedTo_self hinit]⟩
  unfold ensureCapacityFor
  dsimp only
  split_ifs with h1 h2 h3 h4 h5
  · omega
  · exact unchanged
  · exact unchanged
  · -- the rounded size is a valid offset, so it cannot be too many units
    exfalso
    have hpos : 0 < wal.initialCapacityBytes := Nat.pos_of_ne_zero h2
    rw [hinit] at h3
    rcases hres with h | h | h
    · exact h2 h
    · exact h3 h
    · exact absurd ((Nat.le_div_iff_mul_le hpos).mpr h) (Nat.not_le.mpr h4)
  · exact unchanged
  · obtain ⟨target, htarget⟩ : ∃ target, target = capacityUnits wal.initialCapacityBytes
      (endOfLog + groupSize) * wal.initialCapacityBytes := ⟨_, rfl⟩
    rw [← htarget, hinit] at h5 ⊢
    rw [writeZeroesAndSync_sound le_rfl, writeAt_length]
    refine ⟨target - file.length, ?_⟩
    have hsize : file.length + (target - file.length) = target := by omega
    simp only [Wal.initialisedTo, List.length_append, length_zeros, hsize]

/-- A capacity check that fails leaves everything as it was. -/
theorem ensureCapacityFor_refused (hinit : wal.initialisedSize = dev.file.length)
    (h : ¬ (groupSize ≤ kOffMax - endOfLog ∧
      Reservable wal.initialCapacityBytes dev.file.length (endOfLog + groupSize))) :
    ensureCapacityFor wal dev endOfLog groupSize = (some .efbig, wal, dev) := by
  unfold ensureCapacityFor
  by_cases hgroup : kOffMax - endOfLog < groupSize
  · rw [if_pos hgroup]
  · have hres : ¬ Reservable wal.initialCapacityBytes dev.file.length (endOfLog + groupSize) :=
      fun hr => h ⟨by omega, hr⟩
    simp only [Reservable, not_or] at hres
    obtain ⟨hpre, hearly, hunits⟩ := hres
    have hpos : 0 < wal.initialCapacityBytes := Nat.pos_of_ne_zero hpre
    have hmany : kOffMax / wal.initialCapacityBytes
        < capacityUnits wal.initialCapacityBytes (endOfLog + groupSize) := by
      rw [← Nat.not_le, Nat.le_div_iff_mul_le hpos]
      exact hunits
    rw [if_neg hgroup, if_neg hpre, hinit]
    rw [if_neg hearly, if_pos hmany]

/-- What a capacity check that was passed says about later ones. -/
theorem reservable_of_ensureCapacityFor (hinit : wal.initialisedSize = dev.file.length)
    (h : (ensureCapacityFor wal dev endOfLog groupSize).1 ≠ some .efbig) :
    Reservable wal.initialCapacityBytes dev.file.length (endOfLog + groupSize) := by
  unfold ensureCapacityFor at h
  dsimp only at h
  rw [hinit] at h
  split_ifs at h with h1 h2 h3 h4
  · exact absurd rfl h
  · exact .inl h2
  · exact .inr (.inl h3)
  · exact absurd rfl h
  all_goals
    have hpos : 0 < wal.initialCapacityBytes := Nat.pos_of_ne_zero h2
    exact .inr (.inr ((Nat.le_div_iff_mul_le hpos).mp (Nat.not_lt.mp h4)))

/-! ## Machine words -/

/-- A result as a `uint64_t`; nothing where the operation wraps around. -/
def asWord (n : ℕ) : Option ℕ := if n < 2 ^ 64 then some n else none

/-- A result as an `off_t`; nothing where it overflows. -/
def asOffset (n : ℕ) : Option ℕ := if n ≤ kOffMax then some n else none

/-- A difference of two numbers that are not negative; nothing where it is. -/
def difference (m n : ℕ) : Option ℕ := if n ≤ m then some (m - n) else none

/-- The loop of `WriteZeroesAndSync` with every operation checked. -/
def writeZeroesChecked : ℕ → List Transfer → Bytes → ℕ → ℕ → Option Written
  | 0, script, file, _, _ => some ⟨none, file, script⟩
  | rounds + 1, script, file, offset, stop =>
    if stop ≤ offset then some ⟨none, file, script⟩
    else do
      let left ← difference stop offset
      let size := min kChunkSize left
      let next ← asOffset (offset + size)
      let w := writeAll script file (zeros size) offset
      match w.error with
      | some e => some ⟨some e, w.file, w.script⟩
      | none => writeZeroesChecked rounds w.script w.file next stop

/-- `WriteZeroesAndSync`, unless an offset leaves the machine word. -/
def writeZeroesAndSyncChecked (dev : Device) (start stop : ℕ) :
    Option (Option Errno × Device) :=
  if stop ≤ start then some (none, dev)
  else do
    let w ← writeZeroesChecked (stop - start) dev.initialisePwrites dev.file start stop
    let dev := { dev with file := w.file, initialisePwrites := w.script }
    match w.error with
    | some e => some (some e, dev)
    | none =>
      let s := syncAll dev.fsyncs
      some (s.1, { dev with fsyncs := s.2 })

/-- The units of capacity, unless they leave the machine word. -/
def capacityUnitsChecked (capacity needed : ℕ) : Option ℕ := do
  let units ← asWord (needed / capacity + (if needed % capacity = 0 then 0 else 1))
  return max 1 units

/-- `EnsureCapacityFor` with every operation checked. -/
def ensureCapacityForChecked (wal : Wal) (dev : Device) (endOfLog groupSize : ℕ) :
    Option (Option Errno × Wal × Device) := do
  let room ← difference kOffMax endOfLog
  if room < groupSize then return (some .efbig, wal, dev)
  if wal.initialCapacityBytes = kNoPreallocation then return (none, wal, dev)
  let needed ← asWord (endOfLog + groupSize)
  if needed ≤ wal.initialisedSize ∧ wal.initialCapacityBytes ≤ wal.initialisedSize then
    return (none, wal, dev)
  let units ← capacityUnitsChecked wal.initialCapacityBytes needed
  if kOffMax / wal.initialCapacityBytes < units then return (some .efbig, wal, dev)
  let target ← asWord (units * wal.initialCapacityBytes)
  if target ≤ wal.initialisedSize then return (none, wal, dev)
  let stop ← asOffset target
  match ← writeZeroesAndSyncChecked dev wal.initialisedSize stop with
  | (some e, dev) => return (some e, wal, dev)
  | (none, dev) => return (none, { wal with initialisedSize := stop }, dev)

theorem writeZeroesChecked_eq (hstop : stop ≤ kOffMax) :
    writeZeroesChecked rounds script file start stop
      = some (writeZeroesLoop rounds script file start stop) := by
  induction rounds generalizing script file start with
  | zero => rfl
  | succ rounds ih =>
    rw [writeZeroesChecked, writeZeroesLoop]
    split_ifs with hdone
    · rfl
    · have hnext : start + min kChunkSize (stop - start) ≤ kOffMax := by omega
      simp only [difference, if_pos (Nat.le_of_not_le hdone), asOffset, if_pos hnext, bind,
        Option.bind, ih]
      cases (writeAll script file (zeros (min kChunkSize (stop - start))) start).error <;> rfl

theorem writeZeroesAndSyncChecked_eq (hstop : stop ≤ kOffMax) :
    writeZeroesAndSyncChecked dev start stop = some (writeZeroesAndSync dev start stop) := by
  rw [writeZeroesAndSyncChecked, writeZeroesAndSync]
  split_ifs
  · rfl
  · simp only [writeZeroesChecked_eq hstop, bind, Option.bind]
    cases (writeZeroesLoop (stop - start) dev.initialisePwrites dev.file start stop).error <;> rfl

/-- **No operation wraps around**, whatever the sizes: the sum is taken after the check that
it is an offset, and the product after the division that bounds it. -/
theorem ensureCapacityFor_checked (hend : endOfLog ≤ kOffMax) :
    ensureCapacityForChecked wal dev endOfLog groupSize
      = some (ensureCapacityFor wal dev endOfLog groupSize) := by
  have hoff : kOffMax = 2 ^ 63 - 1 := rfl
  unfold ensureCapacityForChecked ensureCapacityFor
  simp only [difference, if_pos hend, bind, Option.bind, pure]
  by_cases hroom : kOffMax - endOfLog < groupSize
  · simp only [if_pos hroom]
  by_cases hpre : wal.initialCapacityBytes = kNoPreallocation
  · simp only [if_neg hroom, if_pos hpre]
  simp only [if_neg hroom, if_neg hpre]
  have hneeded : endOfLog + groupSize ≤ kOffMax := by omega
  generalize endOfLog + groupSize = needed at hneeded ⊢
  have hunits : capacityUnitsChecked wal.initialCapacityBytes needed
      = some (capacityUnits wal.initialCapacityBytes needed) := by
    have hdiv := Nat.div_le_self needed wal.initialCapacityBytes
    simp only [capacityUnitsChecked, asWord, bind, Option.bind, pure]
    rw [if_pos (by split_ifs <;> omega)]
    rfl
  simp only [asWord, if_pos (show needed < 2 ^ 64 by omega), hunits]
  by_cases henough : needed ≤ wal.initialisedSize ∧ wal.initialCapacityBytes ≤ wal.initialisedSize
  · simp only [if_pos henough]
  by_cases hmany : kOffMax / wal.initialCapacityBytes <
      capacityUnits wal.initialCapacityBytes needed
  · simp only [if_neg henough, if_pos hmany]
  have htarget := (Nat.le_div_iff_mul_le (Nat.pos_of_ne_zero hpre)).mp (Nat.not_lt.mp hmany)
  simp only [if_neg henough, if_neg hmany, asOffset, if_pos htarget,
    if_pos (htarget.trans_lt (show kOffMax < 2 ^ 64 by omega)),
    writeZeroesAndSyncChecked_eq htarget]
  split_ifs
  · rfl
  · generalize writeZeroesAndSync dev _ _ = w
    obtain ⟨_ | _, _⟩ := w <;> rfl

/-- A file that has had zeroes written over a range reads as zeroes there. -/
theorem getElem?_writeAt_zeros {i : ℕ} (hi : start ≤ i) (hstop : i < stop) :
    (writeAt file start (zeros (stop - start)))[i]? = some 0 := by
  have hlen : (file.take start ++ zeros (start - file.length)).length = start := by
    simp; omega
  rw [writeAt, List.append_assoc, List.getElem?_append_right (by omega), hlen,
    List.getElem?_append_left (by simp; omega)]
  simp only [zeros, List.getElem?_replicate]
  rw [if_pos (by omega)]

/-- The units hold what is needed, and the capacity. -/
theorem capacityUnits_covers (needed : ℕ) (hpos : 0 < capacity) :
    needed ≤ capacityUnits capacity needed * capacity ∧
      capacity ≤ capacityUnits capacity needed * capacity := by
  refine ⟨?_, Nat.le_mul_of_pos_left _ (Nat.le_max_left 1 _)⟩
  have hdiv := Nat.div_add_mod' needed capacity
  have hmod := Nat.mod_lt needed hpos
  calc needed ≤ (needed / capacity + if needed % capacity = 0 then 0 else 1) * capacity := by
        rw [Nat.add_mul]
        split_ifs <;> omega
    _ ≤ capacityUnits capacity needed * capacity := Nat.mul_le_mul_right _ (Nat.le_max_right 1 _)

/-- **Capacity arithmetic is safe.** `EnsureCapacityFor` computes without wrapping around; when
it succeeds with preallocation the size covers the group and the capacity, has not shrunk, and
where it has grown is a multiple of the capacity with zeroes in the new part; it writes nothing
below the old size; and when it fails the size is the old one. -/
theorem capacity_arithmetic_safe {e : Option Errno} {wal' : Wal} {dev' : Device}
    (hend : endOfLog ≤ kOffMax)
    (h : ensureCapacityFor wal dev endOfLog groupSize = (e, wal', dev')) :
    ensureCapacityForChecked wal dev endOfLog groupSize = some (e, wal', dev') ∧
      (e = none → wal.initialCapacityBytes ≠ kNoPreallocation →
        endOfLog + groupSize ≤ wal'.initialisedSize ∧
        wal.initialCapacityBytes ≤ wal'.initialisedSize ∧
        wal.initialisedSize ≤ wal'.initialisedSize ∧
        (wal.initialisedSize < wal'.initialisedSize →
          wal.initialCapacityBytes ∣ wal'.initialisedSize ∧
          ∀ i, wal.initialisedSize ≤ i → i < wal'.initialisedSize → dev'.file[i]? = some 0)) ∧
      (∀ i < wal.initialisedSize, i < dev.file.length → dev'.file[i]? = dev.file[i]?) ∧
      (e ≠ none → wal'.initialisedSize = wal.initialisedSize) := by
  refine ⟨(ensureCapacityFor_checked hend).trans (congrArg some h), ?_, fun i hi hlen => ?_, ?_⟩
  · rintro rfl hpre
    have hunits := capacityUnits_covers (endOfLog + groupSize) (Nat.pos_of_ne_zero hpre)
    revert h
    fun_cases ensureCapacityFor wal dev endOfLog groupSize with
    | case2 _ hnone => exact absurd hnone hpre
    | case3 _ _ _ henough =>
      rintro ⟨⟩
      exact ⟨henough.1, henough.2, le_rfl, fun hlt => absurd hlt (Nat.lt_irrefl _)⟩
    | case5 _ _ needed _ units _ target hcovered =>
      rintro ⟨⟩
      exact ⟨hunits.1.trans hcovered, hunits.2.trans hcovered, le_rfl,
        fun hlt => absurd hlt (Nat.lt_irrefl _)⟩
    | case7 _ _ needed _ units _ target hmore _ heq =>
      rintro ⟨⟩
      have hgrown : wal.initialisedSize < target := Nat.lt_of_not_le hmore
      refine ⟨hunits.1, hunits.2, hgrown.le, fun _ => ⟨Dvd.intro_left _ rfl, fun i hi hstop => ?_⟩⟩
      rw [writeZeroesAndSync_ok (.inr hgrown) heq]
      exact getElem?_writeAt_zeros hi hstop
    | _ => nofun
  · have hkeeps : Keeps (i + 1) dev.file (ensureCapacityFor wal dev endOfLog groupSize).2.2.file :=
      ensureCapacityFor_keeps hi hlen
    rw [h] at hkeeps
    have htake := congrArg (·[i]?) hkeeps.1
    simpa [List.getElem?_take] using htake
  · intro he
    revert h
    fun_cases ensureCapacityFor wal dev endOfLog groupSize with
    | case1 | case4 | case6 =>
      rintro ⟨⟩
      rfl
    | _ =>
      rintro ⟨⟩
      exact absurd rfl he

/-- A log of four bytes with a capacity of eight. -/
def smallWal : Wal := ⟨"wal", 8, .ready, 4, 0, 4, 0⟩

theorem capacity_arithmetic_safe_grown :
    ensureCapacityFor smallWal (.sound [1, 2, 3, 4]) 4 5 =
        (none, { smallWal with initialisedSize := 16 }, .sound ([1, 2, 3, 4] ++ zeros 12)) ∧
      8 ∣ 16 ∧ ([1, 2, 3, 4] ++ zeros 12)[15]? = some 0 := by
  have h : ensureCapacityFor smallWal (.sound [1, 2, 3, 4]) 4 5 =
      (none, { smallWal with initialisedSize := 16 }, .sound ([1, 2, 3, 4] ++ zeros 12)) := by
    decide
  obtain ⟨-, hok, -⟩ := capacity_arithmetic_safe (by decide) h
  obtain ⟨-, -, -, hgrown⟩ := hok rfl (by decide)
  obtain ⟨hdvd, hzero⟩ := hgrown (by decide)
  exact ⟨h, hdvd, hzero 15 (by decide) (by decide)⟩

end LineairDB.Recovery
