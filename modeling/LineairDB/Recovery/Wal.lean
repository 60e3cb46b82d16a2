import LineairDB.Library.FaultyIo
import LineairDB.Recovery.Frame

/-!
# The write-ahead log

The scan that finds the end of the log and repairs an interrupted tail, and
the append that writes a group of frames there. The file lives in a
`Device`, next to the scripts of what its system calls will do; a `Wal` is
what one open instance knows about it.

The scan is split where the source's control flow is: everything up to the
decision about the tail only reads (`planScan`), and only what follows the
decision writes (`scanAndRepair`).
-/

namespace LineairDB.Recovery

open ByteFile FaultyIo

/-! ## Devices and instances -/

/-- The log's file and the outcomes of the calls still to be made on it. -/
structure Device where
  file : Bytes
  preads : List Transfer
  pwrites : List Transfer
  initialisePwrites : List Transfer
  fdatasyncs : List Sync
  fsyncs : List Sync
  fstats : List (Option Errno)
  deriving Repr, DecidableEq

/-- A device whose calls all succeed. -/
def Device.sound (file : Bytes) : Device := ⟨file, [], [], [], [], [], []⟩

/-- Whether the log may be written. -/
inductive WalState where
  | unscanned
  | ready
  | failed
  deriving Repr, DecidableEq

/-- The log as the process has it. -/
structure Wal where
  path : String
  initialCapacityBytes : ℕ
  state : WalState
  writeOffset : ℕ
  /-- The epoch of the last frame on disk. -/
  frontier : EpochNumber
  /-- Under preallocation, where the written-out zeroes end. -/
  initialisedSize : ℕ
  extensionCount : ℕ
  deriving Repr, DecidableEq

/-- Files are not extended in advance. -/
def kNoPreallocation : ℕ := 0

/-- An instance as the constructor leaves it. -/
def Wal.open (path : String) (initialCapacityBytes : ℕ) (dev : Device) : Wal where
  path := path
  initialCapacityBytes := initialCapacityBytes
  state := .unscanned
  writeOffset := 0
  frontier := 0
  initialisedSize := dev.file.length
  extensionCount := 0

/-- How a scan ends. -/
inductive ScanStatus where
  | ok
  | corrupt
  | ioError
  deriving Repr, DecidableEq

/-- What a scan returns. -/
structure WalScanResult where
  status : ScanStatus
  frontier : EpochNumber
  records : LogRecords
  tailTruncated : Bool
  errorNumber : Option Errno
  detail : String
  framesSkipped : ℕ
  bytesSkipped : ℕ
  deriving Repr, DecidableEq

/-- The result of a scan that refuses the file. -/
def WalScanResult.corrupt (detail : String) : WalScanResult where
  status := .corrupt
  frontier := 0
  records := []
  tailTruncated := false
  errorNumber := none
  detail := detail
  framesSkipped := 0
  bytesSkipped := 0

/-- A system call that failed, and what it was doing. -/
structure IoFailure where
  operation : String
  error : Errno
  deriving Repr, DecidableEq

/-- The result of a scan that a system call stopped. -/
def WalScanResult.ioFailure (failure : IoFailure) : WalScanResult where
  status := .ioError
  frontier := 0
  records := []
  tailTruncated := false
  errorNumber := some failure.error
  detail := failure.operation
  framesSkipped := 0
  bytesSkipped := 0

/-! ## Zero writes and capacity -/

/-- The window of the chunked reads and of the zero writes: 1 MiB. -/
def kChunkSize : ℕ := 2 ^ 20

/-- The largest file offset. -/
def kOffMax : ℕ := 2 ^ 63 - 1

/-- The chunked loop of `WriteZeroesAndSync`; every chunk moves `offset` on,
so `stop - offset` rounds are enough. -/
def writeZeroesLoop : ℕ → List Transfer → Bytes → ℕ → ℕ → Written
  | 0, script, file, _, _ => ⟨none, file, script⟩
  | rounds + 1, script, file, offset, stop =>
    if stop ≤ offset then ⟨none, file, script⟩
    else
      let size := min kChunkSize (stop - offset)
      let w := writeAll script file (zeros size) offset
      match w.error with
      | some e => ⟨some e, w.file, w.script⟩
      | none => writeZeroesLoop rounds w.script w.file (offset + size) stop

/-- Write zeroes over `[start, stop)` and persist them. -/
def writeZeroesAndSync (dev : Device) (start stop : ℕ) : Option Errno × Device :=
  if stop ≤ start then (none, dev)
  else
    let w := writeZeroesLoop (stop - start) dev.initialisePwrites dev.file start stop
    let dev := { dev with file := w.file, initialisePwrites := w.script }
    match w.error with
    | some e => (some e, dev)
    | none =>
      let s := syncAll dev.fsyncs
      (s.1, { dev with fsyncs := s.2 })

/-- The smallest whole number of capacity units, at least one, that holds
`needed` bytes. -/
def capacityUnits (capacity needed : ℕ) : ℕ :=
  max 1 (needed / capacity + (if needed % capacity = 0 then 0 else 1))

/-- Make room for a group of `groupSize` bytes behind `endOfLog`. -/
def ensureCapacityFor (wal : Wal) (dev : Device) (endOfLog groupSize : ℕ) :
    Option Errno × Wal × Device :=
  if kOffMax - endOfLog < groupSize then (some .efbig, wal, dev)
  else if wal.initialCapacityBytes = kNoPreallocation then (none, wal, dev)
  else
    let needed := endOfLog + groupSize
    if needed ≤ wal.initialisedSize ∧ wal.initialCapacityBytes ≤ wal.initialisedSize then
      (none, wal, dev)
    else
      let units := capacityUnits wal.initialCapacityBytes needed
      if kOffMax / wal.initialCapacityBytes < units then (some .efbig, wal, dev)
      else
        let target := units * wal.initialCapacityBytes
        if target ≤ wal.initialisedSize then (none, wal, dev)
        else
          match writeZeroesAndSync dev wal.initialisedSize target with
          | (some e, dev) => (some e, wal, dev)
          | (none, dev) => (none, { wal with initialisedSize := target }, dev)

/-! ## Looking for surviving frames -/

/-- How many bytes the search past one damaged tail may read: 1 GiB. -/
def kProbeBudget : ℕ := 2 ^ 30

/-- Outcome of looking for a frame. A failed read is the computation's error. -/
inductive Probe where
  | noFrame
  | frame
  | undecidable
  deriving Repr, DecidableEq

/-- Checksum `remaining` payload bytes from `pos` on, chunk by chunk, charging
each to the budget; no checksum when the budget does not cover them. -/
def probePayload (file : Bytes) : ℕ → ℕ → ℕ → UInt32 → ℕ → Reading Errno (Option UInt32 × ℕ)
  | 0, _, _, crc, ioBudget => pure (some crc, ioBudget)
  | rounds + 1, pos, remaining, crc, ioBudget =>
    if remaining = 0 then pure (some crc, ioBudget)
    else
      let size := min kChunkSize remaining
      if kProbeBudget < ioBudget + size then pure (none, ioBudget)
      else do
        let chunk ← read file size pos
        probePayload file rounds (pos + size) (remaining - size) (crcUpdate crc chunk)
          (ioBudget + size)

/-- Look for a complete frame whose checksum holds at `offset`. Returns what
it found and the budget spent so far. -/
def probeFrameAt (file : Bytes) (offset ioBudget : ℕ) : Reading Errno (Probe × ℕ) :=
  if file.length - offset < kHeaderSize then pure (.noFrame, ioBudget)
  else if kProbeBudget < ioBudget + kHeaderSize then pure (.undecidable, ioBudget)
  else do
    let header ← read file kHeaderSize offset
    let h := parseHeader header
    let ioBudget := ioBudget + kHeaderSize
    if h.magic ≠ kMagic ∨ h.version ≠ kVersion ∨ h.flags ≠ kFlags ∨ h.epoch = 0 then
      pure (.noFrame, ioBudget)
    else if h.payloadSize = 0 ∨ kMaxPayloadSize < h.payloadSize then pure (.noFrame, ioBudget)
    else if file.length < offset + kHeaderSize + h.payloadSize then pure (.noFrame, ioBudget)
    else do
      let r ← probePayload file h.payloadSize (offset + kHeaderSize) h.payloadSize
        (crcUpdate crcInit (header.take 16)) ioBudget
      match r with
      | (none, ioBudget) => pure (.undecidable, ioBudget)
      | (some crc, ioBudget) =>
        pure (if crcFinish crc = h.storedCrc then .frame else .noFrame, ioBudget)

/-- Probe every offset of a window at which the magic stands. `chunk` is the
rest of the window, which begins at `pos`. -/
def probeWindow (file : Bytes) : Bytes → ℕ → ℕ → Reading Errno (Probe × ℕ)
  | [], _, ioBudget => pure (.noFrame, ioBudget)
  | b :: rest, pos, ioBudget =>
    if (b :: rest).length < 4 then pure (.noFrame, ioBudget)
    else if getLeAt (b :: rest) 0 4 ≠ kMagic then probeWindow file rest (pos + 1) ioBudget
    else do
      let r ← probeFrameAt file pos ioBudget
      if r.1 ≠ .noFrame then pure r else probeWindow file rest (pos + 1) r.2

/-- What two consecutive windows share: a magic that straddles them has to be
whole in one. -/
def kOverlap : ℕ := 3

/-- The search, chunk by chunk, within its budget. -/
def searchLoop (file : Bytes) (searchEnd : ℕ) : ℕ → ℕ → ℕ → Reading Errno Probe
  | 0, _, _ => pure .noFrame
  | rounds + 1, pos, ioBudget =>
    if searchEnd ≤ pos then pure .noFrame
    else
      let size := min kChunkSize (searchEnd - pos)
      if kProbeBudget < ioBudget + size then pure .undecidable
      else do
        let chunk ← read file size pos
        let r ← probeWindow file chunk pos (ioBudget + size)
        if r.1 ≠ .noFrame then pure r.1
        else if size ≤ kOverlap then pure .noFrame
        else searchLoop file searchEnd rounds (pos + (size - kOverlap)) r.2

/-- Look for a frame beginning anywhere in `(offset, searchEnd)`. -/
def searchForFrameAfter (file : Bytes) (offset searchEnd : ℕ) : Reading Errno Probe :=
  searchLoop file searchEnd (searchEnd - (offset + 1)) (offset + 1) 0

/-- The index of the last byte of a chunk that is not zero. -/
def lastNonZeroIn : Bytes → Option ℕ
  | [] => none
  | b :: rest =>
    match lastNonZeroIn rest with
    | some i => some (i + 1)
    | none => if b = 0 then none else some 0

/-- The last byte that is not zero, chunk by chunk. -/
def findLastNonZeroLoop (file : Bytes) (stop : ℕ) : ℕ → ℕ → Option ℕ → Reading Errno (Option ℕ)
  | 0, _, last => pure last
  | rounds + 1, pos, last =>
    if stop ≤ pos then pure last
    else do
      let chunk ← read file (min kChunkSize (stop - pos)) pos
      findLastNonZeroLoop file stop rounds (pos + kChunkSize)
        (match lastNonZeroIn chunk with
        | some i => some (pos + i)
        | none => last)

/-- The offset of the last byte in `[start, stop)` that is not zero, if any. -/
def findLastNonZero (file : Bytes) (start stop : ℕ) : Reading Errno (Option ℕ) :=
  findLastNonZeroLoop file stop (stop - start) start none

/-! ## Headers the scan cannot accept -/

/-- Why the bytes at the scan's offset are not a frame that may be kept. -/
inductive Anomaly where
  | endsInsideHeader
  | magicMismatch
  | unsupportedVersion
  | unknownFlags
  | payloadTooLarge
  | endsInsidePayload
  | checksumMismatch
  deriving Repr, DecidableEq

/-- The text it is reported with. -/
def Anomaly.text : Anomaly → String
  | endsInsideHeader => "the file ends inside a frame header"
  | magicMismatch => "frame magic mismatch"
  | unsupportedVersion => "unsupported frame version"
  | unknownFlags => "unknown frame flags"
  | payloadTooLarge => "payload too large"
  | endsInsidePayload => "the file ends inside a frame payload"
  | checksumMismatch => "frame checksum mismatch"

/-- What is wrong with a header. -/
def headerAnomaly (h : Header) : Option Anomaly :=
  if h.magic ≠ kMagic then some .magicMismatch
  else if h.version ≠ kVersion then some .unsupportedVersion
  else if h.flags ≠ kFlags then some .unknownFlags
  else if kMaxPayloadSize < h.payloadSize then some .payloadTooLarge
  else none

/-- How many leading bytes two strings share. -/
def matchedLength : Bytes → Bytes → ℕ
  | a :: as, b :: bs => if a = b then matchedLength as bs + 1 else 0
  | _, _ => 0

/-- Whether a header reads as an interrupted write of a frame: a proper prefix
of the constant fields followed by zeroes. -/
def headerIsTornPrefix (header : Bytes) : Bool :=
  let matched := matchedLength header frameConstants
  matched ≠ frameConstants.length ∧ AllZero (header.drop matched)

/-! ## Hopping over covered frames -/

/-- The last frame hopped over, whose checksum is still to be verified. -/
structure Guard where
  offset : ℕ
  payloadSize : ℕ
  header : Bytes
  deriving Repr, DecidableEq

/-- How far the scan has come. -/
structure Progress where
  offset : ℕ
  records : LogRecords
  frontier : EpochNumber
  haveFrame : Bool
  framesSkipped : ℕ
  bytesSkipped : ℕ
  deriving Repr, DecidableEq

/-- Before the first frame. -/
def Progress.start : Progress := ⟨0, [], 0, false, 0, 0⟩

/-- A frame that is counted but not decoded. -/
def Progress.skip (p : Progress) (epoch : EpochNumber) (payloadSize : ℕ) : Progress :=
  { p with
    offset := p.offset + kHeaderSize + payloadSize
    frontier := epoch
    haveFrame := true
    framesSkipped := p.framesSkipped + 1
    bytesSkipped := p.bytesSkipped + (kHeaderSize + payloadSize) }

/-- Hop frames at or below `minEpoch` by header alone. The result is absent
when a header does not parse, and the caller then scans from the beginning. -/
def hopLoop (file : Bytes) (minEpoch : EpochNumber) :
    ℕ → Progress → Option Guard → Reading Errno (Option (Progress × Option Guard))
  | 0, p, guard => pure (some (p, guard))
  | rounds + 1, p, guard =>
    if file.length ≤ p.offset then pure (some (p, guard))
    else if file.length - p.offset < kHeaderSize then pure none
    else do
      let header ← read file kHeaderSize p.offset
      let h := parseHeader header
      if (headerAnomaly h).isSome then
        -- unwritten capacity reads like a torn header: the hop reached the end of the log
        pure (if headerIsTornPrefix header then some (p, guard) else none)
      else if file.length < p.offset + kHeaderSize + h.payloadSize then pure none
      else if p.haveFrame ∧ h.epoch < p.frontier then pure none
      else if h.epoch = 0 then pure none
      else if minEpoch < h.epoch then pure (some (p, guard))
      else
        hopLoop file minEpoch rounds (p.skip h.epoch h.payloadSize)
          (some ⟨p.offset, h.payloadSize, header⟩)

/-- The walk over the frames that an image covers. -/
def hopCoveredFrames (file : Bytes) (minEpoch : EpochNumber) :
    Reading Errno (Option (Progress × Option Guard)) :=
  hopLoop file minEpoch file.length Progress.start none

/-- Where the full scan begins: behind the frames hopped over if the last one
of them satisfies its checksum, at the beginning otherwise. -/
def hop (file : Bytes) (path : String) (minEpoch : EpochNumber) : Reading IoFailure Progress :=
  if minEpoch = 0 then pure Progress.start
  else do
    let hopped ← (hopCoveredFrames file minEpoch).orElse (⟨"pread header of " ++ path, ·⟩)
    match hopped with
    | none => pure Progress.start
    | some (p, none) => pure p
    | some (p, some guard) => do
      let payload ← (read file guard.payloadSize (guard.offset + kHeaderSize)).orElse
        (⟨"pread payload of " ++ path, ·⟩)
      pure (if frameCrc guard.header payload = (parseHeader guard.header).storedCrc then p
        else Progress.start)

/-! ## The scan -/

/-- What the scan makes of the bytes at its offset. -/
inductive FrameStep where
  | accepted (p : Progress)
  /-- The bytes may be an interrupted write; for a checksum mismatch with the
  end the frame declares. -/
  | anomaly (a : Anomaly) (brokenFrameEnd : Option ℕ)
  | corrupt (detail : String)
  deriving Repr, DecidableEq

/-- What the scan makes of a frame that satisfies its checksum. -/
def acceptFrame (mp : Msgpack) (minEpoch : EpochNumber) (p : Progress) (h : Header)
    (payload : Bytes) : FrameStep :=
  if p.haveFrame ∧ h.epoch < p.frontier then .corrupt "frame epoch regressed"
  else if h.epoch = 0 then .corrupt "frame epoch is zero"
  else if h.epoch ≤ minEpoch then .accepted (p.skip h.epoch h.payloadSize)
  else
    match mp.unpack payload with
    | .error (.exception what) => .corrupt ("frame payload does not decode: " ++ what)
    | .error .unknown => .corrupt "frame payload does not decode"
    | .ok (decoded, consumed) =>
      if consumed ≠ payload.length then .corrupt "frame payload has trailing bytes"
      else if decoded = [] then .corrupt "frame carries no record"
      else if decoded.any (fun record => record.epoch ≠ h.epoch) then
        .corrupt "record epoch disagrees with its frame"
      else
        .accepted
          { p with
            offset := p.offset + kHeaderSize + h.payloadSize
            records := p.records ++ decoded
            frontier := h.epoch
            haveFrame := true }

/-- One round of the scan, at an offset inside the file. -/
def scanFrame (mp : Msgpack) (file : Bytes) (path : String) (minEpoch : EpochNumber)
    (p : Progress) : Reading IoFailure FrameStep :=
  if file.length - p.offset < kHeaderSize then pure (.anomaly .endsInsideHeader none)
  else do
    let header ← (read file kHeaderSize p.offset).orElse (⟨"pread header of " ++ path, ·⟩)
    let h := parseHeader header
    match headerAnomaly h with
    | some a =>
      pure (if headerIsTornPrefix header then .anomaly a none else .corrupt a.text)
    | none =>
      let frameEnd := p.offset + kHeaderSize + h.payloadSize
      if file.length < frameEnd then pure (.anomaly .endsInsidePayload none)
      else do
        let payload ← (read file h.payloadSize (p.offset + kHeaderSize)).orElse
          (⟨"pread payload of " ++ path, ·⟩)
        if frameCrc header payload ≠ h.storedCrc then
          pure (.anomaly .checksumMismatch (some frameEnd))
        else pure (acceptFrame mp minEpoch p h payload)

/-- Where and why the scan stopped. -/
inductive ScanEnd where
  | endOfFile (p : Progress)
  | anomaly (p : Progress) (a : Anomaly) (brokenFrameEnd : Option ℕ)
  | corrupt (detail : String)
  deriving Repr, DecidableEq

/-- Every accepted frame moves the offset on by at least a header, so as many
rounds as the file has bytes are enough. -/
def scanLoop (mp : Msgpack) (file : Bytes) (path : String) (minEpoch : EpochNumber) :
    ℕ → Progress → Reading IoFailure ScanEnd
  | 0, p => pure (.endOfFile p)
  | rounds + 1, p =>
    if file.length ≤ p.offset then pure (.endOfFile p)
    else do
      let step ← scanFrame mp file path minEpoch p
      match step with
      | .accepted p => scanLoop mp file path minEpoch rounds p
      | .anomaly a brokenFrameEnd => pure (.anomaly p a brokenFrameEnd)
      | .corrupt detail => pure (.corrupt detail)

/-- What the scan decides to do with the file. -/
inductive Plan where
  | refuse (detail : String)
  /-- The log ends at the progress made; nothing has to be erased. -/
  | finish (p : Progress)
  /-- The log ends at the progress made; the bytes from there to `stop` are the
  remains of an interrupted write and are zeroed. -/
  | zeroTail (p : Progress) (stop : ℕ)
  deriving Repr, DecidableEq

/-- Decide whether the bytes behind an anomaly may be erased. -/
def planTail (file : Bytes) (path : String) (p : Progress) (a : Anomaly)
    (brokenFrameEnd : Option ℕ) : Reading IoFailure Plan := do
  let last ← (findLastNonZero file p.offset file.length).orElse (⟨"pread the tail of " ++ path, ·⟩)
  match last with
  | none => pure (.finish p)
  | some last =>
    let where_ := a.text ++ " at offset " ++ toString p.offset
    if brokenFrameEnd.any (· ≤ last) then pure (.refuse (where_ ++ ", with data beyond the frame"))
    else do
      let probe ← (searchForFrameAfter file p.offset (last + 1)).orElse
        (⟨"pread past the tail of " ++ path, ·⟩)
      match probe with
      | .frame => pure (.refuse (where_ ++ ", with a frame surviving beyond it"))
      | .undecidable =>
        pure (.refuse (where_ ++ ", and the tail cannot be classified within its I/O budget"))
      | .noFrame => pure (.zeroTail p (last + 1))

/-- Everything the scan does before it writes. -/
def planScan (mp : Msgpack) (file : Bytes) (path : String) (minEpoch : EpochNumber) :
    Reading IoFailure Plan := do
  let p ← hop file path minEpoch
  let ended ← scanLoop mp file path minEpoch file.length p
  match ended with
  | .corrupt detail => pure (.refuse detail)
  | .endOfFile p => pure (.finish p)
  | .anomaly p a brokenFrameEnd => planTail file path p a brokenFrameEnd

/-- The result of a scan that reached the end of the log. -/
def Progress.result (p : Progress) (tailTruncated : Bool) : WalScanResult where
  status := .ok
  frontier := p.frontier
  records := p.records
  tailTruncated := tailTruncated
  errorNumber := none
  detail := ""
  framesSkipped := p.framesSkipped
  bytesSkipped := p.bytesSkipped

/-- A scan's result together with the instance and the device it leaves. -/
structure Scanned where
  result : WalScanResult
  wal : Wal
  dev : Device
  deriving Repr, DecidableEq

/-- The log takes no more. -/
def Wal.fail (wal : Wal) : Wal := { wal with state := .failed }

/-- Publish the end of the log and initialise the capacity beyond it. -/
def finishScan (wal : Wal) (dev : Device) (result : WalScanResult) (endOfLog : ℕ) : Scanned :=
  match ensureCapacityFor wal dev endOfLog 0 with
  | (some e, wal, dev) =>
    ⟨.ioFailure ⟨"initialise the capacity of " ++ wal.path, e⟩, wal.fail, dev⟩
  | (none, wal, dev) =>
    ⟨result,
      { wal with writeOffset := endOfLog, frontier := result.frontier, state := .ready }, dev⟩

/-- What the scan does about the file once it has decided. -/
def executePlan (wal : Wal) (dev : Device) : Plan → Scanned
  | .refuse detail => ⟨.corrupt detail, wal.fail, dev⟩
  | .finish p => finishScan wal dev (p.result false) p.offset
  | .zeroTail p stop =>
    match writeZeroesAndSync dev p.offset stop with
    | (some e, dev) => ⟨.ioFailure ⟨"zero the tail of " ++ wal.path, e⟩, wal.fail, dev⟩
    | (none, dev) => finishScan wal dev (p.result true) p.offset

/-- The outcome of the next `fstat`. -/
def Device.fstat (dev : Device) : Option Errno × Device :=
  (dev.fstats.headD none, { dev with fstats := dev.fstats.tail })

/-- Read the log from the beginning, repair an interrupted tail, and
initialise the capacity beyond it. -/
def scanAndRepair (mp : Msgpack) (wal : Wal) (dev : Device) (minEpoch : EpochNumber) : Scanned :=
  if wal.state = .failed then
    ⟨.ioFailure ⟨"scan " ++ wal.path ++ " after a failure", .eio⟩, wal.fail, dev⟩
  else
    match dev.fstat with
    | (some e, dev) => ⟨.ioFailure ⟨"fstat " ++ wal.path, e⟩, wal.fail, dev⟩
    | (none, dev) =>
      let wal := { wal with initialisedSize := max wal.initialisedSize dev.file.length }
      match planScan mp dev.file wal.path minEpoch dev.preads with
      | .error failure => ⟨.ioFailure failure, wal.fail, dev⟩
      | .ok (plan, preads) => executePlan wal { dev with preads := preads } plan

/-! ## Appending a group -/

/-- The records to be written, grouped by their commit epoch and ordered by it. -/
structure Buckets where
  entries : List (EpochNumber × LogRecords)
  ascending : entries.Pairwise (fun a b => a.1 < b.1)
  deriving DecidableEq

/-- A group encoded so far: its bytes and the epoch of its last frame. -/
structure Group where
  bytes : Bytes
  lastEncoded : EpochNumber
  deriving Repr, DecidableEq

/-- Encode the buckets at or below `target`, refusing one the scan would
reject. -/
def encodeGroup (mp : Msgpack) (frontier target : EpochNumber) :
    List (EpochNumber × LogRecords) → Group → Except Errno Group
  | [], g => .ok g
  | (epoch, records) :: rest, g =>
    if target < epoch then .ok g
    else if records = [] ∨ epoch = 0 then .error .einval
    else if epoch < frontier then .error .einval
    else if records.any (fun record => record.epoch ≠ epoch) then .error .einval
    else
      let payload := mp.pack records
      if kMaxPayloadSize < payload.length ∨ 2 ^ 32 - 1 < payload.length then .error .eoverflow
      else encodeGroup mp frontier target rest ⟨g.bytes ++ encodeFrame epoch payload, epoch⟩

/-- What a call of `AppendGroup` does to the caller: it reports success, or an
error, or the process stops. -/
inductive AppendResult where
  | ok
  | error (e : Errno)
  | abort
  deriving Repr, DecidableEq

/-- What an append leaves behind. -/
structure Appended where
  result : AppendResult
  wal : Wal
  dev : Device
  deriving Repr, DecidableEq

/-- Write an encoded group at the end of the log and persist it. -/
def writeGroup (wal : Wal) (dev : Device) (g : Group) : Appended :=
  match ensureCapacityFor wal dev wal.writeOffset g.bytes.length with
  | (some e, wal, dev) => ⟨.error e, wal.fail, dev⟩
  | (none, reserved, dev) =>
    let extensions :=
      if reserved.initialisedSize ≠ wal.initialisedSize then 1 else 0
    let wal := { reserved with extensionCount := reserved.extensionCount + extensions }
    let w := writeAll dev.pwrites dev.file g.bytes wal.writeOffset
    let dev := { dev with file := w.file, pwrites := w.script }
    match w.error with
    | some e => ⟨.error e, wal.fail, dev⟩
    | none =>
      let s := syncAll dev.fdatasyncs
      let dev := { dev with fdatasyncs := s.2 }
      match s.1 with
      | some e => ⟨.error e, wal.fail, dev⟩
      | none =>
        let offset := wal.writeOffset + g.bytes.length
        ⟨.ok,
          { wal with
            writeOffset := offset
            initialisedSize := max wal.initialisedSize offset
            frontier := g.lastEncoded }, dev⟩

/-- Append one frame per bucket whose epoch is at or below `target`, as one
group write followed by one sync. -/
def appendGroup (mp : Msgpack) (wal : Wal) (dev : Device) (buckets : Buckets)
    (target : EpochNumber) : Appended :=
  if wal.state ≠ .ready then ⟨.abort, wal, dev⟩
  else
    match encodeGroup mp wal.frontier target buckets.entries ⟨[], wal.frontier⟩ with
    | .error e => ⟨.error e, wal, dev⟩
    | .ok g => if g.bytes = [] then ⟨.ok, wal, dev⟩ else writeGroup wal dev g

end LineairDB.Recovery
