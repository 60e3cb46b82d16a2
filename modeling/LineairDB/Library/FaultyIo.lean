import LineairDB.Library.ByteFile

/-!
# System calls that may fall short

A positioned read or write of a file may transfer fewer bytes than it was
asked for, be interrupted, or fail. What the calls of a run do is a script,
one outcome a call; calls beyond the script are served in full.

* `Reading` — computations that read a fixed file under such a script.
* `Yields m P` — whatever the script, `m` fails or its value satisfies `P`;
  under the empty script it succeeds. The composition rules
  (`Yields.pure`, `Yields.bind`, `Yields.mono`) let a reading loop be
  specified once, for faulty and for sound devices alike.
* `Determined m` — the value of `m` does not depend on the script.
* `writeAll_keeps`, `writeAll_full` — what a write loop does to the file,
  with faults and without.
-/

namespace FaultyIo

open ByteFile

/-- The error numbers the modelled calls and checks produce. -/
inductive Errno where
  | eio
  | einval
  | efbig
  | eoverflow
  /-- Any other number a call may set. -/
  | other (n : ℕ)
  deriving Repr, DecidableEq

/-- What one `pread` or `pwrite` does. -/
inductive Transfer where
  | full
  /-- At most `n` bytes are transferred; none is an end of file. -/
  | short (n : ℕ)
  /-- `EINTR`: nothing is transferred and the caller retries. -/
  | interrupted
  | failed (e : Errno)
  deriving Repr, DecidableEq

/-- What one `fsync` or `fdatasync` does. -/
inductive Sync where
  | done
  | interrupted
  | failed (e : Errno)
  deriving Repr, DecidableEq

/-! ## Reading computations -/

/-- A computation that consumes the outcomes of the reads it makes. -/
def Reading (ε α : Type) := List Transfer → Except ε (α × List Transfer)

instance {ε : Type} : Monad (Reading ε) where
  pure a := fun script => .ok (a, script)
  bind m f := fun script =>
    match m script with
    | .error e => .error e
    | .ok (a, rest) => f a rest

variable {ε α β : Type}

variable {m : Reading ε α} {f : α → Reading ε β} {script : List Transfer} {P : α → Prop}
  {file : Bytes} {offset : ℕ}

namespace Reading

/-- Report a failed call to the caller in the caller's own terms. -/
def orElse (m : Reading Errno α) (wrap : Errno → ε) : Reading ε α := fun script =>
  match m script with
  | .error e => .error (wrap e)
  | .ok r => .ok r

/-- A composed computation that succeeds has succeeded in both parts. -/
theorem bind_ok {rest : List Transfer} {b : β} (h : (m >>= f) script = .ok (b, rest)) :
    ∃ a mid, m script = .ok (a, mid) ∧ f a mid = .ok (b, rest) := by
  simp only [Bind.bind] at h
  cases hrun : m script with
  | error => rw [hrun] at h; cases h
  | ok r =>
    rw [hrun] at h
    exact ⟨r.1, r.2, rfl, h⟩

theorem bind_eq_of_ok {mid : List Transfer} {a : α} (h : m script = .ok (a, mid)) :
    (m >>= f) script = f a mid := by
  simp only [Bind.bind, h]

theorem orElse_eq_of_ok {m : Reading Errno α} {wrap : Errno → ε} {r : α × List Transfer}
    (h : m script = .ok r) : m.orElse wrap script = .ok r := by
  simp only [orElse, h]

theorem orElse_ok {m : Reading Errno α} {wrap : Errno → ε} {r : α × List Transfer}
    (h : m.orElse wrap script = .ok r) : m script = .ok r := by
  unfold orElse at h
  cases hrun : m script with
  | error => rw [hrun] at h; cases h
  | ok => rw [hrun] at h; cases h; rfl

end Reading

/-- **Partial correctness with faults, total correctness without.** -/
structure Yields (m : Reading ε α) (P : α → Prop) : Prop where
  of_script : ∀ {script a rest}, m script = .ok (a, rest) → P a
  of_empty : ∃ a, m [] = .ok (a, [])

theorem Yields.pure {a : α} (h : P a) : Yields (Pure.pure a : Reading ε α) P where
  of_script := by
    intro script b rest hb
    cases hb
    exact h
  of_empty := ⟨a, rfl⟩

theorem Yields.bind {Q : β → Prop} (hm : Yields m P) (hf : ∀ a, P a → Yields (f a) Q) :
    Yields (m >>= f) Q where
  of_script := by
    intro script b rest hb
    obtain ⟨a, mid, ha, hb⟩ := Reading.bind_ok hb
    exact (hf a (hm.of_script ha)).of_script hb
  of_empty := by
    obtain ⟨a, ha⟩ := hm.of_empty
    obtain ⟨b, hb⟩ := (hf a (hm.of_script ha)).of_empty
    exact ⟨b, by rw [Reading.bind_eq_of_ok ha, hb]⟩

theorem Yields.mono {Q : α → Prop} (hm : Yields m P) (h : ∀ a, P a → Q a) : Yields m Q :=
  ⟨fun hrun => h _ (hm.of_script hrun), hm.of_empty⟩

theorem Yields.orElse {m : Reading Errno α} (hm : Yields m P) (wrap : Errno → ε) :
    Yields (m.orElse wrap) P where
  of_script := by
    intro script a rest h
    exact hm.of_script (Reading.orElse_ok h)
  of_empty := by
    obtain ⟨a, ha⟩ := hm.of_empty
    exact ⟨a, Reading.orElse_eq_of_ok ha⟩

/-- Without faults the value satisfies the specification. -/
theorem Yields.run_empty (hm : Yields m P) : ∃ a, m [] = .ok (a, []) ∧ P a := by
  obtain ⟨a, ha⟩ := hm.of_empty
  exact ⟨a, ha, hm.of_script ha⟩

/-! ## Values -/

/-- The value of a computation does not depend on what its reads do. -/
structure Determined (m : Reading ε α) : Prop where
  unique : ∀ {script script' a a' rest rest'}, m script = .ok (a, rest) →
    m script' = .ok (a', rest') → a = a'

theorem Determined.pure (a : α) : Determined (Pure.pure a : Reading ε α) where
  unique := by
    intro script script' b b' rest rest' hb hb'
    cases hb
    cases hb'
    rfl

theorem Determined.bind (hm : Determined m) (hf : ∀ a, Determined (f a)) :
    Determined (m >>= f) where
  unique := by
    intro script script' b b' rest rest' hb hb'
    obtain ⟨a, mid, ha, hb⟩ := Reading.bind_ok hb
    obtain ⟨a', mid', ha', hb'⟩ := Reading.bind_ok hb'
    obtain rfl := hm.unique ha ha'
    exact (hf a).unique hb hb'

theorem Determined.orElse {m : Reading Errno α} (hm : Determined m) (wrap : Errno → ε) :
    Determined (m.orElse wrap) :=
  ⟨fun h h' => hm.unique (Reading.orElse_ok h) (Reading.orElse_ok h')⟩

/-! ## Read loops -/

/-- Read until `size` bytes have arrived: a short transfer is continued, an
interrupted one retried, and an end of file or a failure reported. -/
def readAll (file : Bytes) : List Transfer → ℕ → ℕ → Except Errno (Bytes × List Transfer)
  | [], size, offset =>
    let got := slice file offset size
    if got.length = size then .ok (got, []) else .error .eio
  | outcome :: script, size, offset =>
    if size = 0 then .ok ([], outcome :: script)
    else
      let continueAfter (m : ℕ) : Except Errno (Bytes × List Transfer) :=
        let got := slice file offset m
        if got.length = 0 then .error .eio
        else
          match readAll file script (size - got.length) (offset + got.length) with
          | .error e => .error e
          | .ok (more, rest) => .ok (got ++ more, rest)
      match outcome with
      | .full => continueAfter size
      | .short n => continueAfter (min n size)
      | .interrupted => readAll file script size offset
      | .failed e => .error e

/-- The read loop as a reading computation. -/
def read (file : Bytes) (size offset : ℕ) : Reading Errno Bytes :=
  fun script => readAll file script size offset

theorem readAll_ok {size : ℕ} {got : Bytes} {rest : List Transfer}
    (h : readAll file script size offset = .ok (got, rest)) : got = slice file offset size := by
  induction script generalizing size offset got rest with
  | nil =>
    simp only [readAll] at h
    split at h
    · cases h; rfl
    · cases h
  | cons outcome script ih =>
    rw [readAll] at h
    split at h
    case isTrue h0 => cases h; simp [h0, slice]
    case isFalse h0 =>
      -- a transfer of at most `m ≤ size` bytes, continued by the induction hypothesis
      have continued : ∀ m, m ≤ size →
          (if (slice file offset m).length = 0 then (.error .eio : Except Errno _)
            else match readAll file script (size - (slice file offset m).length)
                (offset + (slice file offset m).length) with
              | .error e => .error e
              | .ok (more, rest) => .ok (slice file offset m ++ more, rest)) = .ok (got, rest) →
          got = slice file offset size := by
        intro m hm hrun
        split at hrun
        · cases hrun
        · cases hr : readAll file script (size - (slice file offset m).length)
            (offset + (slice file offset m).length) with
          | error e => rw [hr] at hrun; cases hrun
          | ok r =>
            rw [hr] at hrun
            cases hrun
            rw [ih hr, slice_append_rest file offset hm]
      cases outcome with
      | full => exact continued size (Nat.le_refl size) h
      | short n => exact continued (min n size) (Nat.min_le_right _ _) h
      | interrupted => exact ih h
      | failed => cases h

/-- **A read inside the file** returns the bytes that stand there. -/
theorem read_yields {size : ℕ} (h : offset + size ≤ file.length) :
    Yields (read file size offset) (· = slice file offset size) where
  of_script := readAll_ok
  of_empty := ⟨slice file offset size, by
    simp only [read, readAll, length_slice_of_le h, if_true]⟩

theorem read_determined (file : Bytes) (size offset : ℕ) : Determined (read file size offset) where
  unique h h' := (readAll_ok h).trans (readAll_ok h').symm

/-! ## Write loops -/

/-- How a write loop left the file, and the error that stopped it, if any. -/
structure Written where
  error : Option Errno
  file : Bytes
  script : List Transfer

/-- Write `data` at `offset`, continuing short transfers and retrying
interrupted ones. What a failed loop already transferred stays. -/
def writeAll : List Transfer → Bytes → Bytes → ℕ → Written
  | script, file, [], _ => ⟨none, file, script⟩
  | [], file, b :: data, offset => ⟨none, writeAt file offset (b :: data), []⟩
  | outcome :: script, file, b :: data, offset =>
    match outcome with
    | .full => ⟨none, writeAt file offset (b :: data), script⟩
    | .short 0 => ⟨some .eio, file, script⟩
    | .short (n + 1) =>
      writeAll script (writeAt file offset (b :: data.take n)) (data.drop n)
        (offset + (b :: data.take n).length)
    | .interrupted => writeAll script file (b :: data) offset
    | .failed e => ⟨some e, file, script⟩

/-- **A write loop never touches a byte below its offset**, faults or not. -/
theorem writeAll_keeps {n : ℕ} (script : List Transfer) (file data : Bytes) (offset : ℕ)
    (hoff : n ≤ offset) (hlen : n ≤ file.length) :
    (writeAll script file data offset).file.take n = file.take n ∧
      n ≤ (writeAll script file data offset).file.length := by
  have one : ∀ d : Bytes, (writeAt file offset d).take n = file.take n ∧
      n ≤ (writeAt file offset d).length := fun d =>
    ⟨take_writeAt d hoff hlen, by rw [length_writeAt]; omega⟩
  induction script generalizing file data offset with
  | nil =>
    cases data with
    | nil => exact ⟨rfl, hlen⟩
    | cons b data => exact one (b :: data)
  | cons outcome script ih =>
    cases data with
    | nil => exact ⟨rfl, hlen⟩
    | cons b data =>
      cases outcome with
      | full => exact one (b :: data)
      | short k =>
        cases k with
        | zero => exact ⟨rfl, hlen⟩
        | succ k =>
          obtain ⟨htake, hlong⟩ := one (b :: data.take k)
          have hnext := ih (writeAt file offset (b :: data.take k)) (data.drop k)
            (offset + (b :: data.take k).length) (by omega) hlong
            (fun d => ⟨take_writeAt d (by omega) hlong, by rw [length_writeAt]; omega⟩)
          exact ⟨hnext.1.trans htake, hnext.2⟩
      | interrupted => exact ih file (b :: data) offset hoff hlen one
      | failed => exact ⟨rfl, hlen⟩

/-- **A write loop that reports no error has written everything.** -/
theorem writeAll_of_error_eq_none (script : List Transfer) {data : Bytes}
    (hoff : offset ≤ file.length ∨ data ≠ [])
    (h : (writeAll script file data offset).error = none) :
    (writeAll script file data offset).file = writeAt file offset data := by
  induction script generalizing file data offset with
  | nil =>
    cases data with
    | nil => exact (writeAt_nil (hoff.resolve_right (by simp))).symm
    | cons => rfl
  | cons outcome script ih =>
    cases data with
    | nil => exact (writeAt_nil (hoff.resolve_right (by simp))).symm
    | cons b data =>
      cases outcome with
      | full => rfl
      | short k =>
        cases k with
        | zero => simp [writeAll] at h
        | succ k =>
          rw [writeAll] at h ⊢
          have hlen : offset + (b :: data.take k).length
              ≤ (writeAt file offset (b :: data.take k)).length := by
            rw [length_writeAt]; omega
          rw [ih (.inl hlen) h, writeAt_writeAt]
          congr 1
          simp
      | interrupted => exact ih hoff h
      | failed => simp [writeAll] at h

/-- Without faults a write loop is one write. -/
theorem writeAll_full (file data : Bytes) (hoff : offset ≤ file.length) :
    writeAll [] file data offset = ⟨none, writeAt file offset data, []⟩ := by
  cases data with
  | nil => rw [writeAll, writeAt_nil hoff]
  | cons => rfl

/-- Retry a sync while it is interrupted; the error of the last call. -/
def syncAll : List Sync → Option Errno × List Sync
  | [] => (none, [])
  | .done :: script => (none, script)
  | .interrupted :: script => syncAll script
  | .failed e :: script => (some e, script)

end FaultyIo
