import LineairDB.Recovery.Capacity
import LineairDB.Recovery.Log

/-!
# What an append writes

The groups `encodeGroup` produces are logs: frames the scan accepts, with
epochs that never fall below the frontier the group was encoded against.

* `encodeGroup_ok` — the bytes and the last epoch of an encoded group.
* `Acknowledged.exists_log` — the buckets of the append calls that reported
  success, in order, make up a log.
-/

namespace LineairDB.Recovery

open ByteFile FaultyIo

variable {bs : List (EpochNumber × LogRecords)}

variable {mp : Msgpack}

variable {frontier target : EpochNumber} {g : Group} {buckets : Buckets} {wal wal' : Wal}
  {dev dev' : Device} {log : List (Frame mp)} {bytes : Bytes}

/-- The buckets a call with this target writes. -/
def Buckets.upTo (buckets : Buckets) (target : EpochNumber) : List (EpochNumber × LogRecords) :=
  buckets.entries.takeWhile (fun b => b.1 ≤ target)

/-- The frames of a list of buckets. -/
def bucketBytes (mp : Msgpack) (bs : List (EpochNumber × LogRecords)) : Bytes :=
  bs.flatMap (fun b => encodeFrame b.1 (mp.pack b.2))

/-- The records of a list of buckets. -/
def bucketRecords (bs : List (EpochNumber × LogRecords)) : LogRecords := bs.flatMap Prod.snd

/-- The epoch of the last bucket, or `e` when there is none. -/
def lastBucket (e : EpochNumber) (bs : List (EpochNumber × LogRecords)) : EpochNumber :=
  bs.foldl (fun _ b => b.1) e

/-- What `encodeGroup` has checked of a bucket it wrote. -/
structure Encodable (mp : Msgpack) (frontier : EpochNumber) (b : EpochNumber × LogRecords) :
    Prop where
  records_ne_nil : b.2 ≠ []
  epoch_ne_zero : b.1 ≠ 0
  frontier_le : frontier ≤ b.1
  stamped : ∀ record ∈ b.2, record.epoch = b.1
  fits : (mp.pack b.2).length ≤ kMaxPayloadSize

theorem bucketBytes_eq_nil (h : bucketBytes mp bs = []) : bs = [] := by
  cases bs with
  | nil => rfl
  | cons =>
    have hlen := congrArg List.length h
    simp [bucketBytes, kHeaderSize] at hlen

/-- **An encoded group** holds the frames of exactly the buckets at or below the
target, each of which passed the checks. -/
theorem encodeGroup_ok {entries : List (EpochNumber × LogRecords)} {g' : Group}
    (h : encodeGroup mp frontier target entries g = .ok g') :
    g'.bytes = g.bytes ++ bucketBytes mp (entries.takeWhile (fun b => b.1 ≤ target)) ∧
    g'.lastEncoded
      = lastBucket g.lastEncoded (entries.takeWhile (fun b => b.1 ≤ target)) ∧
    ∀ b ∈ entries.takeWhile (fun b => b.1 ≤ target), Encodable mp frontier b := by
  fun_induction encodeGroup mp frontier target entries g with
  | case1 =>
    cases h
    simp [bucketBytes, lastBucket]
  | case2 epoch records rest g habove =>
    -- the first bucket above the target ends the group
    cases h
    simp [bucketBytes, lastBucket, UInt32.not_le.mpr habove]
  | case7 epoch records rest g habove hbad hlow hstamp payload hbig ih =>
    obtain ⟨hbytes, hlast, hall⟩ := ih h
    rw [not_or] at hbad hbig
    rw [List.takeWhile_cons_of_pos (by simpa using UInt32.not_lt.mp habove)]
    refine ⟨?_, hlast, List.forall_mem_cons.mpr ⟨?_, hall⟩⟩
    · rw [hbytes]
      simp [bucketBytes, payload]
    · exact ⟨hbad.1, hbad.2, UInt32.not_lt.mp hlow, by simpa using hstamp, Nat.not_lt.mp hbig.1⟩
  | _ => cases h

/-! ## Groups as logs -/

/-- The frame an encodable bucket is written as. -/
def Encodable.frame {frontier : EpochNumber} {b : EpochNumber × LogRecords}
    (h : Encodable mp frontier b) (hrt : mp.RoundTrips b.2) : Frame mp where
  epoch := b.1
  payload := mp.pack b.2
  records := b.2
  fits := h.fits
  epoch_ne_zero := h.epoch_ne_zero
  decodes := hrt
  records_ne_nil := h.records_ne_nil
  stamped := h.stamped

/-- `log` is what the buckets `bs` are written as behind a frontier `e`. -/
structure Writes (bs : List (EpochNumber × LogRecords)) (e : EpochNumber) (log : List (Frame mp)) :
    Prop where
  bytes : logBytes log = bucketBytes mp bs
  records : logRecords log = bucketRecords bs
  last : lastEpoch e log = lastBucket e bs
  ascending : AscendingFrom e log

theorem exists_writes {e : EpochNumber} (henc : ∀ b ∈ bs, Encodable mp frontier b)
    (hasc : bs.Pairwise (fun a b => a.1 < b.1)) (hfrom : ∀ b ∈ bs, e ≤ b.1)
    (hrt : ∀ b ∈ bs, mp.RoundTrips b.2) : ∃ log : List (Frame mp), Writes bs e log := by
  induction bs generalizing e with
  | nil => exact ⟨[], rfl, rfl, rfl, trivial⟩
  | cons b bs ih =>
    rw [List.pairwise_cons] at hasc
    obtain ⟨log, hbytes, hrecords, hlast, hup⟩ := ih (e := b.1)
      (fun c hc => henc c (.tail _ hc)) hasc.2
      (fun c hc => UInt32.le_of_lt (hasc.1 c hc))
      (fun c hc => hrt c (.tail _ hc))
    refine ⟨(henc b (.head _)).frame (hrt b (.head _)) :: log, ?_, ?_, ?_, ?_⟩
    · rw [logBytes_cons, hbytes]; rfl
    · rw [logRecords_cons, hrecords]; rfl
    · exact hlast
    · exact ⟨hfrom b (.head _), hup⟩

theorem Writes.append {bs₁ bs₂ : List (EpochNumber × LogRecords)} {e : EpochNumber}
    {l₁ l₂ : List (Frame mp)} (h₁ : Writes bs₁ e l₁) (h₂ : Writes bs₂ (lastBucket e bs₁) l₂) :
    Writes (bs₁ ++ bs₂) e (l₁ ++ l₂) where
  bytes := by rw [logBytes_append, h₁.bytes, h₂.bytes]; simp [bucketBytes]
  records := by rw [logRecords_append, h₁.records, h₂.records]; simp [bucketRecords]
  last := by rw [lastEpoch_append, h₁.last, h₂.last]; simp [lastBucket]
  ascending := h₁.ascending.append (h₁.last ▸ h₂.ascending)

/-- The group a call encodes, as a log. -/
theorem encodeGroup_writes
    (h : encodeGroup mp frontier target buckets.entries ⟨[], frontier⟩ = .ok g)
    (hrt : ∀ b ∈ buckets.upTo target, mp.RoundTrips b.2) :
    ∃ log : List (Frame mp), Writes (buckets.upTo target) frontier log ∧
      g.bytes = logBytes log ∧ g.lastEncoded = lastEpoch frontier log := by
  obtain ⟨hbytes, hlast, henc⟩ := encodeGroup_ok h
  have hasc : (buckets.upTo target).Pairwise (fun a b => a.1 < b.1) :=
    buckets.ascending.sublist (List.takeWhile_sublist _)
  obtain ⟨log, hlog⟩ := exists_writes henc hasc (fun b hb => (henc b hb).frontier_le) hrt
  exact ⟨log, hlog, by rw [hbytes, hlog.bytes]; rfl, by rw [hlast, hlog.last]⟩

/-! ## Instances that stand behind a log -/

/-- The instance knows the end of `log`, which is what the file holds in front
of nothing but zeroes. -/
structure Holds (wal : Wal) (file : Bytes) (log : List (Frame mp)) : Prop where
  ready : wal.state = .ready
  offset : wal.writeOffset = (logBytes log).length
  frontier : wal.frontier = lastEpoch 0 log
  initialised : wal.initialisedSize = file.length
  contents : ∃ z, file = logBytes log ++ zeros z
  ascending : AscendingFrom 0 log
  reservable : Reservable wal.initialCapacityBytes file.length wal.writeOffset

/-- What a group write that reports success has done: the capacity it needed is
appended as zeroes, and the group overwrites the zeroes at the end of the log. -/
theorem writeGroup_ok (hinit : wal.initialisedSize = dev.file.length)
    (hoff : wal.writeOffset ≤ dev.file.length) (h : writeGroup wal dev g = ⟨.ok, wal', dev'⟩) :
    ∃ k, dev'.file = writeAt (dev.file ++ zeros k) wal.writeOffset g.bytes ∧
      wal'.state = wal.state ∧ wal'.writeOffset = wal.writeOffset + g.bytes.length ∧
      wal'.initialisedSize = dev'.file.length ∧
      wal'.initialCapacityBytes = wal.initialCapacityBytes ∧
      Reservable wal'.initialCapacityBytes dev'.file.length wal'.writeOffset := by
  revert h
  fun_cases writeGroup wal dev g with
  | case4 reserved dev₁ hcap _ _ _ _ herr =>
    intro h
    obtain ⟨-, rfl, rfl⟩ := Appended.mk.inj h
    obtain ⟨k, hfile, rfl⟩ := ensureCapacityFor_ok hinit hcap
    have hgrown : dev.file.length ≤ dev₁.file.length := by
      rw [hfile, List.length_append]; omega
    have hwritten := writeAll_of_error_eq_none dev₁.pwrites (.inl (hoff.trans hgrown)) herr
    have hres : Reservable wal.initialCapacityBytes dev.file.length
        (wal.writeOffset + g.bytes.length) :=
      reservable_of_ensureCapacityFor hinit (by rw [hcap]; simp)
    have hlength : max dev₁.file.length (wal.writeOffset + g.bytes.length)
        = (writeAll dev₁.pwrites dev₁.file g.bytes wal.writeOffset).file.length := by
      rw [hwritten, length_writeAt]
    refine ⟨k, by rw [← hfile]; exact hwritten, rfl, rfl, hlength, rfl, hres.mono le_rfl ?_⟩
    exact (hgrown.trans (Nat.le_max_left _ _)).trans_eq hlength
  | _ => nofun

/-- A successful call moved the frontier to the end of its group and wrote the group,
unless there was nothing to write. -/
theorem appendGroup_ok (h : appendGroup mp wal dev buckets target = ⟨.ok, wal', dev'⟩) :
    ∃ g, encodeGroup mp wal.frontier target buckets.entries ⟨[], wal.frontier⟩ = .ok g ∧
      wal'.frontier = g.lastEncoded ∧
      (g.bytes = [] ∧ wal' = wal ∧ dev' = dev ∨ writeGroup wal dev g = ⟨.ok, wal', dev'⟩) := by
  revert h
  fun_cases appendGroup mp wal dev buckets target with
  | case3 _ g hg hnil =>
    rintro ⟨⟩
    obtain ⟨hbytes, hlast, -⟩ := encodeGroup_ok hg
    have hempty := bucketBytes_eq_nil (by rw [← List.nil_append (bucketBytes _ _), ← hbytes, hnil])
    exact ⟨g, hg, by rw [hlast, hempty]; rfl, .inl ⟨hnil, rfl, rfl⟩⟩
  | case4 _ g hg =>
    intro h
    refine ⟨g, hg, ?_, .inr h⟩
    revert h
    fun_cases writeGroup wal dev g with
    | case4 =>
      intro h
      rw [← (Appended.mk.inj h).2.1]
    | _ => nofun
  | _ => nofun

/-- Without faults, a group whose capacity can be reserved is written. -/
theorem appendGroup_sound {file : Bytes} (hold : Holds wal file log)
    (hg : encodeGroup mp wal.frontier target buckets.entries ⟨[], wal.frontier⟩ = .ok g)
    (hgroup : g.bytes.length ≤ kOffMax - wal.writeOffset)
    (hres : Reservable wal.initialCapacityBytes file.length (wal.writeOffset + g.bytes.length)) :
    ∃ wal' file', appendGroup mp wal (Device.sound file) buckets target
      = ⟨.ok, wal', Device.sound file'⟩ := by
  unfold appendGroup
  rw [if_neg (by simp [hold.ready]), hg]
  dsimp only
  split
  · exact ⟨wal, file, rfl⟩
  · obtain ⟨k, hk⟩ := ensureCapacityFor_sound hold.initialised hgroup hres
    unfold writeGroup
    rw [hk]
    obtain ⟨z, hz⟩ := hold.contents
    have hin : wal.writeOffset ≤ (file ++ zeros k).length := by
      rw [hold.offset, hz, List.length_append, List.length_append]; omega
    have hwrite := writeAll_full (file ++ zeros k) g.bytes hin
    simp only [Device.sound, Wal.initialisedTo, hwrite, syncAll]
    exact ⟨_, _, rfl⟩

/-- A successful append passed the capacity check for what it wrote. -/
theorem Holds.reservable_of_append (hold : Holds wal dev.file log)
    (h : (appendGroup mp wal dev buckets target).result = .ok) :
    ∃ g, encodeGroup mp wal.frontier target buckets.entries ⟨[], wal.frontier⟩ = .ok g ∧
      Reservable wal.initialCapacityBytes dev.file.length (wal.writeOffset + g.bytes.length) := by
  revert h
  fun_cases appendGroup mp wal dev buckets target with
  | case3 _ g hg hnil => exact fun _ => ⟨g, hg, by rw [hnil]; exact hold.reservable⟩
  | case4 _ g hg =>
    intro h
    refine ⟨g, hg, reservable_of_ensureCapacityFor hold.initialised fun hbig => ?_⟩
    revert h
    fun_cases writeGroup wal dev g <;> simp_all
  | _ => nofun

/-- A call whose buckets are refused leaves everything as it was. -/
theorem appendGroup_refused {e : Errno} (hready : wal.state = .ready)
    (hg : encodeGroup mp wal.frontier target buckets.entries ⟨[], wal.frontier⟩ = .error e) :
    appendGroup mp wal dev buckets target = ⟨.error e, wal, dev⟩ := by
  unfold appendGroup
  rw [if_neg (by simp [hready]), hg]

/-! ## Appends under faults -/

/-- The instance writes behind `bytes`, which the file begins with. -/
structure Behind (wal : Wal) (file bytes : Bytes) : Prop where
  ready : wal.state = .ready
  offset : wal.writeOffset = bytes.length
  initialised : wal.initialisedSize = file.length
  stands : bytes <+: file

/-- What stands below a kept offset still stands. -/
theorem Keeps.stands {file file' : Bytes} (h : Keeps bytes.length file file')
    (hstands : bytes <+: file) : bytes <+: file' := by
  rw [List.prefix_iff_eq_take] at hstands ⊢
  rw [h.1]
  exact hstands

/-- Whatever a group write reports, the bytes before it stay. -/
theorem writeGroup_keeps (hinit : wal.initialisedSize = dev.file.length)
    (hoff : wal.writeOffset ≤ dev.file.length) :
    Keeps wal.writeOffset dev.file (writeGroup wal dev g).dev.file := by
  have hreserve : Keeps wal.writeOffset dev.file
      (ensureCapacityFor wal dev wal.writeOffset g.bytes.length).2.2.file :=
    ensureCapacityFor_keeps (by omega) hoff
  unfold writeGroup
  split
  · rename_i heq
    rw [heq] at hreserve
    exact hreserve
  · rename_i reserved dev₁ heq
    rw [heq] at hreserve
    obtain ⟨k, hfile, hwal⟩ := ensureCapacityFor_ok hinit heq
    subst hwal
    obtain ⟨htake, hlong⟩ := writeAll_keeps dev₁.pwrites dev₁.file g.bytes wal.writeOffset
      le_rfl hreserve.2
    have hwrite : Keeps wal.writeOffset dev.file
        (writeAll dev₁.pwrites dev₁.file g.bytes wal.writeOffset).file :=
      hreserve.trans ⟨htake, hlong⟩
    dsimp only [Wal.initialisedTo]
    split
    · exact hwrite
    · split <;> exact hwrite

/-- An append on a ready instance keeps what stands before it, whatever it
reports, and never stops the process. -/
theorem Behind.append_keeps (h : Behind wal dev.file bytes) (mp : Msgpack) (buckets : Buckets)
    (target : EpochNumber) :
    (appendGroup mp wal dev buckets target).result ≠ .abort ∧
    bytes <+: (appendGroup mp wal dev buckets target).dev.file := by
  have hoff : wal.writeOffset ≤ dev.file.length := h.offset ▸ h.stands.length_le
  fun_cases appendGroup mp wal dev buckets target with
  | case1 hready => exact absurd h.ready hready
  | case2 | case3 => exact ⟨by simp, h.stands⟩
  | case4 _ g =>
    refine ⟨by fun_cases writeGroup wal dev g <;> simp, ?_⟩
    have hkeeps := writeGroup_keeps (g := g) h.initialised hoff
    rw [h.offset] at hkeeps
    exact hkeeps.stands h.stands

/-- **A successful append moves the instance behind the frames it wrote**, which
stand behind what stood before. -/
theorem Behind.append (h : Behind wal dev.file bytes)
    (hok : appendGroup mp wal dev buckets target = ⟨.ok, wal', dev'⟩) :
    Behind wal' dev'.file (bytes ++ bucketBytes mp (buckets.upTo target)) ∧
    wal'.frontier = lastBucket wal.frontier (buckets.upTo target) := by
  have hoff : wal.writeOffset ≤ dev.file.length := h.offset ▸ h.stands.length_le
  obtain ⟨g, hg, hfrontier, hok⟩ := appendGroup_ok hok
  obtain ⟨hbytes, hlast, henc⟩ := encodeGroup_ok hg
  have hgroup : g.bytes = bucketBytes mp (buckets.upTo target) := by rw [hbytes]; rfl
  refine ⟨?_, hfrontier.trans hlast⟩
  rcases hok with ⟨hnil, rfl, rfl⟩ | hok
  · rw [← hgroup, hnil, List.append_nil]
    exact h
  · obtain ⟨k, hfile, hstate, hmoved, hinit, -⟩ := writeGroup_ok h.initialised hoff hok
    refine ⟨hstate.trans h.ready, ?_, hinit, ?_⟩
    · rw [hmoved, h.offset, hgroup, List.length_append]
    · rw [hfile, writeAt_of_le _ (by rw [List.length_append]; omega), ← hgroup]
      have htake : (dev.file ++ zeros k).take wal.writeOffset = bytes := by
        rw [List.take_append_of_le_length hoff, h.offset]
        exact (List.prefix_iff_eq_take.mp h.stands).symm
      rw [htake]
      exact List.prefix_append _ _

/-- The buckets written by the append calls that reported success, in order,
with the frontier the last of them left. Each call ran on an instance that
knew the frontier of the calls before it. -/
inductive Acknowledged (mp : Msgpack) : EpochNumber → List (EpochNumber × LogRecords) → Prop
  | none : Acknowledged mp 0 []
  | append {wal wal' : Wal} {dev dev' : Device} {bs : List (EpochNumber × LogRecords)}
      {buckets : Buckets} {target : EpochNumber} (before : Acknowledged mp wal.frontier bs)
      (call : appendGroup mp wal dev buckets target = ⟨.ok, wal', dev'⟩) :
      Acknowledged mp wal'.frontier (bs ++ buckets.upTo target)

/-- **The buckets of successful appends make up a log.** -/
theorem Acknowledged.exists_log (h : Acknowledged mp frontier bs)
    (hrt : ∀ b ∈ bs, mp.RoundTrips b.2) :
    ∃ log : List (Frame mp), Writes bs 0 log ∧ lastEpoch 0 log = frontier := by
  induction h with
  | none => exact ⟨[], ⟨rfl, rfl, rfl, trivial⟩, rfl⟩
  | @append wal wal' dev dev' bs buckets target before call ih =>
    obtain ⟨log, hlog, hfrontier⟩ := ih fun b hb => hrt b (List.mem_append_left _ hb)
    obtain ⟨g, hg, hmoved, -⟩ := appendGroup_ok call
    obtain ⟨glog, hwrites, -, hlast⟩ :=
      encodeGroup_writes hg fun b hb => hrt b (List.mem_append_right _ hb)
    refine ⟨log ++ glog, hlog.append ?_, ?_⟩
    · rw [← hlog.last, hfrontier]
      exact hwrites
    · rw [lastEpoch_append, hfrontier, hmoved, hlast]

/-! ## A log of one record -/

/-- One committed write: the value `v` under the key `k` of the table `t`. -/
def sampleRecord : LogRecord :=
  ⟨1, [⟨[0x6b], [0x76], ⟨1, 2⟩, [0x74], [], 0, [], 0, []⟩]⟩

/-- The record list that holds it, as msgpack lays it out. -/
def samplePayload : Bytes :=
  [0x91, 0x92, 0x01, 0x91, 0x99, 0xa1, 0x6b, 0xa1, 0x76, 0x92, 0x01, 0x02, 0xa1, 0x74, 0xa0, 0x00,
    0x90, 0x00, 0xa0]

/-- The serialiser, as far as this record list is concerned. -/
def sampleMsgpack : Msgpack where
  pack records := if records = [sampleRecord] then samplePayload else []
  unpack bytes :=
    if bytes = samplePayload then .ok ([sampleRecord], samplePayload.length)
    else .error .unknown

/-- One record. -/
def sampleBuckets : Buckets := ⟨[(1, [sampleRecord])], by simp⟩

/-- An instance at the beginning of an empty log. -/
def sampleWal : Wal := ⟨"wal.log", 0, .ready, 0, 0, 0, 0⟩

theorem sampleMsgpack_roundTrips :
    ∀ b ∈ sampleBuckets.upTo 1, sampleMsgpack.RoundTrips b.2 := by decide

theorem sampleBuckets_acknowledged : Acknowledged sampleMsgpack 1 ([] ++ sampleBuckets.upTo 1) := by
  have hcall : appendGroup sampleMsgpack sampleWal (.sound []) sampleBuckets 1
      = ⟨.ok, { sampleWal with writeOffset := 39, frontier := 1, initialisedSize := 39 },
          Device.sound (encodeFrame 1 samplePayload)⟩ := by decide +kernel
  exact .append Acknowledged.none hcall

end LineairDB.Recovery
