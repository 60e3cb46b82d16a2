import LineairDB.Recovery.Wal

/-!
# Logs as lists of frames

A frame the scan accepts, with the proofs of what makes it acceptable, and a
log as a list of such frames.

* `acceptFrame_accepted` — what an accepted frame has passed, and what it adds to
  the progress of the scan.
-/

namespace LineairDB.Recovery

open ByteFile FaultyIo

variable {h : Header} {payload : Bytes} {q : Progress}

/-! ## Frames and logs -/

/-- A frame a full scan accepts. -/
structure Frame (mp : Msgpack) where
  epoch : EpochNumber
  payload : Bytes
  records : LogRecords
  fits : payload.length ≤ kMaxPayloadSize
  epoch_ne_zero : epoch ≠ 0
  decodes : mp.unpack payload = .ok (records, payload.length)
  records_ne_nil : records ≠ []
  stamped : ∀ record ∈ records, record.epoch = epoch

namespace Frame

variable {mp : Msgpack}

/-- The bytes of a frame. -/
def bytes (f : Frame mp) : Bytes := encodeFrame f.epoch f.payload

@[simp] theorem length_bytes (f : Frame mp) : f.bytes.length = kHeaderSize + f.payload.length := by
  simp [bytes]

theorem bytes_pos (f : Frame mp) : 0 < f.bytes.length := by
  have hsize : kHeaderSize = 20 := rfl
  rw [length_bytes]
  omega

end Frame

/-- The bytes of a log. -/
def logBytes {mp : Msgpack} (log : List (Frame mp)) : Bytes := log.flatMap Frame.bytes

/-- The records of a log, in order. -/
def logRecords {mp : Msgpack} (log : List (Frame mp)) : LogRecords := log.flatMap Frame.records

/-- The epoch of the last frame, or `e` when there is none. -/
def lastEpoch {mp : Msgpack} (e : EpochNumber) (log : List (Frame mp)) : EpochNumber :=
  log.foldl (fun _ f => f.epoch) e

/-- Epochs never decrease along the log, from `e` on. -/
def AscendingFrom {mp : Msgpack} : EpochNumber → List (Frame mp) → Prop
  | _, [] => True
  | e, f :: log => e ≤ f.epoch ∧ AscendingFrom f.epoch log

section Logs

variable {mp : Msgpack}

@[simp] theorem logBytes_nil : logBytes ([] : List (Frame mp)) = [] := rfl

@[simp] theorem logBytes_cons (f : Frame mp) (log : List (Frame mp)) :
    logBytes (f :: log) = f.bytes ++ logBytes log := rfl

@[simp] theorem logBytes_append (l₁ l₂ : List (Frame mp)) :
    logBytes (l₁ ++ l₂) = logBytes l₁ ++ logBytes l₂ := by
  simp [logBytes]

@[simp] theorem logRecords_nil : logRecords ([] : List (Frame mp)) = [] := rfl

@[simp] theorem logRecords_cons (f : Frame mp) (log : List (Frame mp)) :
    logRecords (f :: log) = f.records ++ logRecords log := rfl

@[simp] theorem logRecords_append (l₁ l₂ : List (Frame mp)) :
    logRecords (l₁ ++ l₂) = logRecords l₁ ++ logRecords l₂ := by
  simp [logRecords]

@[simp] theorem lastEpoch_nil (e : EpochNumber) : lastEpoch e ([] : List (Frame mp)) = e := rfl

@[simp] theorem lastEpoch_cons (e : EpochNumber) (f : Frame mp) (log : List (Frame mp)) :
    lastEpoch e (f :: log) = lastEpoch f.epoch log := rfl

@[simp] theorem lastEpoch_append (e : EpochNumber) (l₁ l₂ : List (Frame mp)) :
    lastEpoch e (l₁ ++ l₂) = lastEpoch (lastEpoch e l₁) l₂ := by
  simp [lastEpoch]

theorem AscendingFrom.append {e : EpochNumber} {l₁ l₂ : List (Frame mp)}
    (h₁ : AscendingFrom e l₁) (h₂ : AscendingFrom (lastEpoch e l₁) l₂) :
    AscendingFrom e (l₁ ++ l₂) := by
  induction l₁ generalizing e with
  | nil => exact h₂
  | cons f l₁ ih => exact ⟨h₁.1, ih h₁.2 h₂⟩

theorem AscendingFrom.le_lastEpoch {e : EpochNumber} {log : List (Frame mp)}
    (h : AscendingFrom e log) : e ≤ lastEpoch e log := by
  induction log generalizing e with
  | nil => exact UInt32.le_refl e
  | cons f log ih => exact UInt32.le_trans h.1 (ih h.2)

end Logs

/-! ## Progress through a log -/

/-- The scan's progress after it has accepted a frame. -/
def Progress.accept {mp : Msgpack} (p : Progress) (f : Frame mp) : Progress :=
  { p with
    offset := p.offset + f.bytes.length
    records := p.records ++ f.records
    frontier := f.epoch
    haveFrame := true }

/-- The scan takes all frames. -/
def Progress.acceptAll {mp : Msgpack} (p : Progress) (log : List (Frame mp)) : Progress :=
  log.foldl Progress.accept p

section Progress

variable {mp : Msgpack}

@[simp] theorem Progress.acceptAll_nil (p : Progress) :
    p.acceptAll ([] : List (Frame mp)) = p := rfl

@[simp] theorem Progress.acceptAll_cons (p : Progress) (f : Frame mp) (log : List (Frame mp)) :
    p.acceptAll (f :: log) = (p.accept f).acceptAll log := rfl

@[simp] theorem Progress.acceptAll_offset (p : Progress) (log : List (Frame mp)) :
    (p.acceptAll log).offset = p.offset + (logBytes log).length := by
  induction log generalizing p with
  | nil => simp
  | cons f log ih => simp [ih, accept]; omega

@[simp] theorem Progress.acceptAll_records (p : Progress) (log : List (Frame mp)) :
    (p.acceptAll log).records = p.records ++ logRecords log := by
  induction log generalizing p with
  | nil => simp
  | cons f log ih => simp [ih, accept]

@[simp] theorem Progress.acceptAll_frontier (p : Progress) (log : List (Frame mp)) :
    (p.acceptAll log).frontier = lastEpoch p.frontier log := by
  induction log generalizing p with
  | nil => rfl
  | cons f log ih => simp [ih, accept]

end Progress

/-! ## What the scan accepts -/

section Accepted

variable {mp : Msgpack} {minEpoch : EpochNumber} {p : Progress}

theorem headerAnomaly_eq_none : headerAnomaly h = none ↔
    h.magic = kMagic ∧ h.version = kVersion ∧ h.flags = kFlags ∧
      h.payloadSize ≤ kMaxPayloadSize := by
  unfold headerAnomaly
  split_ifs <;> simp_all

theorem headerAnomaly_frameHeader (epoch : EpochNumber) (h : payload.length ≤ kMaxPayloadSize) :
    headerAnomaly (parseHeader (frameHeader epoch payload)) = none := by
  rw [headerAnomaly_eq_none, parseHeader_frameHeader epoch h]
  exact ⟨rfl, rfl, rfl, h⟩

/-- What an accepted frame leaves of the progress: a covered frame is counted, any
other one decodes and adds its records. -/
inductive Accepted (mp : Msgpack) (minEpoch : EpochNumber) (p : Progress) (h : Header)
    (payload : Bytes) : Progress → Prop
  | covered (hcovered : h.epoch ≤ minEpoch) :
      Accepted mp minEpoch p h payload (p.skip h.epoch h.payloadSize)
  | decoded {records : LogRecords} (hnew : minEpoch < h.epoch)
      (hdecode : mp.unpack payload = .ok (records, payload.length)) (hnil : records ≠ [])
      (hstamped : ∀ record ∈ records, record.epoch = h.epoch) :
      Accepted mp minEpoch p h payload
        { p with
          offset := p.offset + kHeaderSize + h.payloadSize
          records := p.records ++ records
          frontier := h.epoch
          haveFrame := true }

theorem Accepted.offset (hacc : Accepted mp minEpoch p h payload q) :
    q.offset = p.offset + kHeaderSize + h.payloadSize := by
  cases hacc <;> rfl

/-- **What an accepted frame has passed**, and the progress it leaves. -/
theorem acceptFrame_accepted :
    acceptFrame mp minEpoch p h payload = .accepted q ↔
      h.epoch ≠ 0 ∧ (p.haveFrame = true → p.frontier ≤ h.epoch) ∧
        Accepted mp minEpoch p h payload q := by
  constructor
  · have mono : ¬ (p.haveFrame = true ∧ h.epoch < p.frontier) →
        p.haveFrame = true → p.frontier ≤ h.epoch := fun hregress hhave =>
      UInt32.not_lt.mp fun hlt => hregress ⟨hhave, hlt⟩
    fun_cases acceptFrame mp minEpoch p h payload with
    | case3 hregress hzero hcovered =>
      rintro ⟨⟩
      exact ⟨hzero, mono hregress, .covered hcovered⟩
    | case9 hregress hzero hnew decoded consumed hdecode hconsumed hnil hstamp =>
      rintro ⟨⟩
      refine ⟨hzero, mono hregress, .decoded (UInt32.not_le.mp hnew) ?_ hnil ?_⟩
      · rw [hdecode, not_not.mp hconsumed]
      · simpa using hstamp
    | _ => nofun
  · rintro ⟨hzero, hmono, hacc⟩
    unfold acceptFrame
    rw [if_neg (fun hbad => UInt32.not_lt.mpr (hmono hbad.1) hbad.2), if_neg hzero]
    cases hacc with
    | covered hcovered => rw [if_pos hcovered]
    | @decoded records hnew hdecode hnil hstamped =>
      have hany : records.any (fun record => record.epoch ≠ h.epoch) = false := by
        rw [List.any_eq_false]
        intro record hr
        simp [hstamped record hr]
      rw [if_neg (UInt32.not_le.mpr hnew)]
      simp only [hdecode, ne_eq, not_true_eq_false, if_false, hnil, hany, Bool.false_eq_true]

/-- A frame that does not regress is accepted. -/
theorem acceptFrame_frame (f : Frame mp) (hmono : p.frontier ≤ f.epoch) :
    acceptFrame mp 0 p (parseHeader (frameHeader f.epoch f.payload)) f.payload
      = .accepted (p.accept f) := by
  rw [parseHeader_frameHeader f.epoch f.fits]
  refine acceptFrame_accepted.mpr ⟨f.epoch_ne_zero, fun _ => hmono, ?_⟩
  rw [Progress.accept, f.length_bytes, ← Nat.add_assoc]
  refine .decoded (UInt32.not_le.mp fun hle => ?_) f.decodes f.records_ne_nil f.stamped
  exact f.epoch_ne_zero (UInt32.le_zero_iff.mp hle)

end Accepted

end LineairDB.Recovery
