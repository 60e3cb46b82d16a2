import LineairDB.Library.Memory
import LineairDB.Pax.Row

/-!
# Row groups

A group keeps its rows in strips, one for each field, with the cells of a row at
the same slot of every strip. `scatterRow` checks a row before it writes the first
cell and `gatherRow` puts the row together again.

* `cells_disjoint` — the cells of different fields and slots do not overlap.
* `gather_scatter` — what is gathered after a scatter: every field, printed.
* `gatherRow_scatterRow_of_ne` — a scatter leaves the rows of other slots.
-/

namespace LineairDB.Pax

open ByteFile Decimal

/-- The rows of a group. -/
def kRows : ℕ := 8192

/-- The bytes of a cell's length. -/
def kCellLenBytes : ℕ := 2

/-- Rows with more fields than this are refused. -/
def kMaxFields : ℕ := 512

/-- A row of a group. -/
abbrev Slot := Fin kRows

/-- One group: the bytes of its strips and the visibility flags of its slots, in
words of 64. -/
structure PaxGroup where
  arena : Memory
  visible : ℕ → BitVec 64

variable {slot slot' : Slot} {f f' i w : ℕ} {cell ref row : Bytes} {cells refs : List Bytes}
  {g : PaxGroup} {v : ℤ}

/-- A group before its first row. -/
def PaxGroup.blank : PaxGroup := ⟨fun _ => 0, fun _ => 0⟩

/-! ## Visibility flags -/

namespace PaxGroup

/-- The flag of a slot within its word. -/
def flag (slot : Slot) : BitVec 64 := 1#64 <<< (slot.val % 64)

/-- The flag of a slot is set. -/
def isVisible (g : PaxGroup) (slot : Slot) : Bool := (g.visible (slot / 64)).getLsbD (slot % 64)

/-- The flags after a `fetch_or` with the slot's. -/
def publishSlot (g : PaxGroup) (slot : Slot) : PaxGroup :=
  { g with visible :=
      Function.update g.visible (slot / 64) (g.visible (slot / 64) ||| flag slot) }

/-- The flags after a `fetch_and` with all but the slot's. -/
def retireSlot (g : PaxGroup) (slot : Slot) : PaxGroup :=
  { g with visible :=
      Function.update g.visible (slot / 64) (g.visible (slot / 64) &&& ~~~flag slot) }

theorem getLsbD_flag (hi : i < 64) : (flag slot).getLsbD i = decide (i = slot.val % 64) := by
  rw [flag, BitVec.getLsbD_shiftLeft, BitVec.getLsbD_one]
  rw [Bool.eq_iff_iff]
  simp only [Bool.and_eq_true, Bool.not_eq_true', decide_eq_true_eq, decide_eq_false_iff_not]
  omega

theorem slot_eq_iff :
    slot' = slot ↔ slot'.val / 64 = slot.val / 64 ∧ slot'.val % 64 = slot.val % 64 := by
  rw [Fin.ext_iff]
  omega

@[simp] theorem isVisible_publishSlot (g : PaxGroup) (slot slot' : Slot) :
    (g.publishSlot slot).isVisible slot' = (decide (slot' = slot) || g.isVisible slot') := by
  simp only [isVisible, publishSlot, Function.update_apply, slot_eq_iff]
  split_ifs with hword
  · rw [BitVec.getLsbD_or, getLsbD_flag (Nat.mod_lt _ (by norm_num)), hword, Bool.or_comm]
    simp
  · simp [hword]

@[simp] theorem isVisible_retireSlot (g : PaxGroup) (slot slot' : Slot) :
    (g.retireSlot slot).isVisible slot' = (!decide (slot' = slot) && g.isVisible slot') := by
  have hlt : slot'.val % 64 < 64 := Nat.mod_lt _ (by norm_num)
  simp only [isVisible, retireSlot, Function.update_apply, slot_eq_iff]
  split_ifs with hword
  · rw [BitVec.getLsbD_and, BitVec.getLsbD_not, getLsbD_flag hlt, hword, Bool.and_comm]
    simp [hlt]
  · simp [hword]

end PaxGroup

/-! ## Layout -/

section Layout

variable (schema : TableSchema)

/-- The bytes from one cell of a strip to the next, kept in a `uint32_t`. -/
def stride (f : ℕ) : ℕ := (kCellLenBytes + schema.maxBytes f) % 2 ^ 32

/-- Every strip starts at a multiple of 64 bytes. -/
def alignStrip (total : ℕ) : ℕ := (total + 63) / 64 * 64

/-- The bytes taken by the first `f` strips. -/
def stripsEnd : ℕ → ℕ
  | 0 => 0
  | f + 1 => alignStrip (stripsEnd f) + stride schema f * kRows

/-- Where a strip starts. -/
def stripOffset (f : ℕ) : ℕ := alignStrip (stripsEnd schema f)

/-- Where a cell starts. -/
def cellOffset (f : ℕ) (slot : Slot) : ℕ := stripOffset schema f + stride schema f * slot

theorem le_alignStrip (total : ℕ) : total ≤ alignStrip total := by
  rw [alignStrip]
  omega

theorem stripsEnd_le_stripOffset (h : f ≤ f') : stripsEnd schema f ≤ stripOffset schema f' := by
  induction f', h using Nat.le_induction with
  | base => exact le_alignStrip _
  | succ f' _ ih =>
    have hnext := le_alignStrip (stripsEnd schema (f' + 1))
    rw [stripOffset] at ih
    rw [stripsEnd] at hnext
    rw [stripOffset, stripsEnd]
    omega

/-- Every cell lies within its strip. -/
theorem cell_le_stripsEnd (f : ℕ) (slot : Slot) :
    cellOffset schema f slot + stride schema f ≤ stripsEnd schema (f + 1) := by
  have hslot : stride schema f * (slot.val + 1) ≤ stride schema f * kRows :=
    Nat.mul_le_mul_left _ slot.isLt
  rw [Nat.mul_succ] at hslot
  rw [cellOffset, stripsEnd, stripOffset]
  omega

theorem stripsEnd_mono (h : f ≤ f') : stripsEnd schema f ≤ stripsEnd schema f' := by
  induction f', h using Nat.le_induction with
  | base => exact le_rfl
  | succ f' =>
    have hstart := le_alignStrip (stripsEnd schema f')
    rw [stripsEnd]
    omega

/-- No access to a cell leaves the arena. -/
theorem cell_in_arena (hf : f < schema.fieldCount) (slot : Slot) :
    cellOffset schema f slot + stride schema f ≤ stripsEnd schema schema.fieldCount :=
  (cell_le_stripsEnd schema f slot).trans (stripsEnd_mono schema hf)

/-- **Cells of different fields or slots do not overlap.** -/
theorem cells_disjoint (h : f ≠ f' ∨ slot ≠ slot') :
    cellOffset schema f slot + stride schema f ≤ cellOffset schema f' slot' ∨
      cellOffset schema f' slot' + stride schema f' ≤ cellOffset schema f slot := by
  have hstrips {f f' : ℕ} (slot slot' : Slot) (hlt : f < f') :
      cellOffset schema f slot + stride schema f ≤ cellOffset schema f' slot' :=
    (cell_le_stripsEnd schema f slot).trans
      ((stripsEnd_le_stripOffset schema hlt).trans (Nat.le_add_right _ _))
  rcases Nat.lt_trichotomy f f' with hlt | rfl | hlt
  · exact .inl (hstrips slot slot' hlt)
  · have hslots {a b : ℕ} (hab : a < b) :
        stride schema f * a + stride schema f ≤ stride schema f * b :=
      Nat.mul_le_mul_left _ hab
    have hne : slot.val ≠ slot'.val := fun heq => h.elim (· rfl) (· (Fin.ext heq))
    simp only [cellOffset]
    rcases Nat.lt_or_gt_of_ne hne with hlt | hlt
    · have := hslots hlt
      omega
    · have := hslots hlt
      omega
  · exact .inr (hstrips slot' slot hlt)

/-- A schema whose strides do not wrap. -/
structure FittingSchema extends TableSchema where
  fits : ∀ w ∈ fieldMaxBytes, kCellLenBytes + w < 2 ^ 32

instance : Coe FittingSchema TableSchema := ⟨FittingSchema.toTableSchema⟩

theorem FittingSchema.stride_eq (schema : FittingSchema) (f : ℕ) :
    stride schema f = kCellLenBytes + schema.maxBytes f := by
  apply Nat.mod_eq_of_lt
  rw [TableSchema.maxBytes]
  cases h : schema.fieldMaxBytes[f]? with
  | none => decide
  | some w => exact schema.fits w (List.mem_of_getElem? h)

end Layout

/-! ## Scatter and gather -/

section Rows

variable (schema : TableSchema)

/-- The payload of a field's cell, or nothing where the field is refused. A typed
field without a value has an empty cell like an untyped one. -/
def cellOf (f : ℕ) (ref : Bytes) : Option Bytes :=
  match schema.kindOf f with
  | .untyped => if schema.maxBytes f < ref.length ∨ 0xFFFF < ref.length then none else some ref
  | kind =>
    if ref = [] then some []
    else (parseTyped kind (schema.scaleOf f) ref).map (putLe (schema.maxBytes f))

/-- The cells of the fields from `f` on. -/
def cellsFrom : ℕ → List Bytes → Option (List Bytes)
  | _, [] => some []
  | f, ref :: refs =>
    match cellOf schema f ref, cellsFrom (f + 1) refs with
    | some cell, some cells => some (cell :: cells)
    | _, _ => none

/-- The arena once the cells from field `f` on have been written, each with its
length in front. -/
def writeCells (slot : Slot) : ℕ → List Bytes → Memory → Memory
  | _, [], mem => mem
  | f, cell :: cells, mem =>
    writeCells slot (f + 1) cells
      (store mem (cellOffset schema f slot) (putLe kCellLenBytes cell.length ++ cell))

/-- `ScatterRow`: every field is checked before the first cell is written. -/
def scatterRow (g : PaxGroup) (slot : Slot) (row : Bytes) : Bool × PaxGroup :=
  if kMaxFields < schema.fieldCount then (false, g)
  else
    match parseRow schema.fieldCount row with
    | none => (false, g)
    | some refs =>
      if refs.length ≠ schema.fieldCount then (false, g)
      else
        match cellsFrom schema 0 refs with
        | none => (false, g)
        | some cells =>
          (true, PaxGroup.publishSlot
            { g with arena := writeCells schema slot 0 cells g.arena } slot)

/-- One field as it is gathered. A length beyond the cell's width, which only a
torn read can see, counts as none. -/
def gatherField (g : PaxGroup) (slot : Slot) (f : ℕ) : Bytes :=
  let off := cellOffset schema f slot
  let len := getLe (load g.arena off kCellLenBytes)
  let len := if schema.maxBytes f < len then 0 else len
  if len = 0 then [kNoValue]
  else
    match schema.kindOf f with
    | .untyped => presentField (load g.arena (off + kCellLenBytes) len)
    | kind =>
      presentField (formatTyped kind (schema.scaleOf f)
        (load g.arena (off + kCellLenBytes) (schema.maxBytes f)))

/-- The fields are copied out until one does not fit any more. -/
def gatherLoop (expectedSize : ℕ) : List Bytes → Bytes → Bytes
  | [], dst => dst
  | field :: fields, dst =>
    if expectedSize < dst.length + field.length then dst
    else gatherLoop expectedSize fields (dst ++ field)

/-- `GatherRow`: the bytes written, whose number it returns. -/
def gatherRow (g : PaxGroup) (slot : Slot) (expectedSize : ℕ) : Bytes :=
  gatherLoop expectedSize ((List.range schema.fieldCount).map (gatherField schema g slot)) []

end Rows

/-! ## What a scatter leaves in the cells -/

section Cells

variable {schema : FittingSchema}

/-- Every cell has room for its payload. -/
def Fits (schema : TableSchema) (f : ℕ) (cells : List Bytes) : Prop :=
  ∀ i c, cells[i]? = some c → c.length ≤ schema.maxBytes (f + i)

theorem Fits.head (h : Fits schema f (cell :: cells)) : cell.length ≤ schema.maxBytes f :=
  h 0 cell rfl

theorem Fits.tail (h : Fits schema f (cell :: cells)) : Fits schema (f + 1) cells := by
  intro i c hc
  have hle := h (i + 1) c hc
  rwa [Nat.add_assoc, Nat.add_comm 1 i]

theorem length_cellOf (h : cellOf schema f ref = some cell) : cell.length ≤ schema.maxBytes f := by
  unfold cellOf at h
  split at h
  · rw [Option.ite_none_left_eq_some] at h
    obtain ⟨hfits, h⟩ := h
    rw [← Option.some.inj h]
    omega
  · split_ifs at h with hnil
    · rw [← Option.some.inj h]
      exact Nat.zero_le _
    · obtain ⟨bits, -, rfl⟩ := Option.map_eq_some_iff.mp h
      exact (length_putLe _ _).le

/-- The cells of a list of fields are the cells of its members. -/
theorem cellsFrom_eq_some (h : cellsFrom schema f refs = some cells) :
    cells.length = refs.length ∧ ∀ i ref, refs[i]? = some ref →
      ∃ cell, cells[i]? = some cell ∧ cellOf schema (f + i) ref = some cell := by
  induction refs generalizing f cells with
  | nil =>
    obtain rfl := Option.some.inj h
    exact ⟨rfl, fun i ref hi => by cases hi⟩
  | cons ref refs ih =>
    rw [cellsFrom] at h
    cases hcell : cellOf schema f ref with
    | none => simp [hcell] at h
    | some cell =>
      cases hrest : cellsFrom schema (f + 1) refs with
      | none => simp [hcell, hrest] at h
      | some =>
        simp only [hcell, hrest, Option.some.injEq] at h
        subst h
        obtain ⟨hlength, hmembers⟩ := ih hrest
        refine ⟨by simp [hlength], fun i ref' hi => ?_⟩
        cases i with
        | zero =>
          obtain rfl := Option.some.inj hi
          exact ⟨cell, rfl, hcell⟩
        | succ i =>
          obtain ⟨c, hc, hof⟩ := hmembers i ref' hi
          exact ⟨c, hc, by rwa [Nat.add_assoc, Nat.add_comm 1 i] at hof⟩

theorem fits_of_cellsFrom (h : cellsFrom schema f refs = some cells) : Fits schema f cells := by
  obtain ⟨hlength, hmembers⟩ := cellsFrom_eq_some h
  intro i c hc
  have hi : i < refs.length := hlength ▸ (List.getElem?_eq_some_iff.mp hc).1
  obtain ⟨cell, hcell, hof⟩ := hmembers i _ (List.getElem?_eq_getElem hi)
  rw [hc] at hcell
  rw [Option.some.inj hcell]
  exact length_cellOf hof

/-- A cell with its length in front stays within its stride. -/
theorem store_cell_of_disjoint (mem : Memory) (hfit : cell.length ≤ schema.maxBytes f)
    (hne : f ≠ f' ∨ slot ≠ slot') (hlow : cellOffset schema f' slot' ≤ i)
    (hhigh : i < cellOffset schema f' slot' + stride schema f') :
    store mem (cellOffset schema f slot) (putLe kCellLenBytes cell.length ++ cell) i = mem i := by
  have hcells := cells_disjoint schema hne
  apply store_of_outside
  rw [List.length_append, length_putLe]
  have hstride := schema.stride_eq f
  omega

/-- Writing the cells of a row leaves every other cell. -/
theorem writeCells_of_disjoint {mem : Memory} (hfits : Fits schema f cells)
    (hne : f' < f ∨ slot ≠ slot') (hlow : cellOffset schema f' slot' ≤ i)
    (hhigh : i < cellOffset schema f' slot' + stride schema f') :
    writeCells schema slot f cells mem i = mem i := by
  induction cells generalizing f mem with
  | nil => rfl
  | cons cell cells ih =>
    rw [writeCells, ih hfits.tail (hne.imp_left Nat.lt_succ_of_lt)]
    exact store_cell_of_disjoint mem hfits.head (hne.imp_left Nat.ne_of_gt) hlow hhigh

/-- Each cell that is written is read back, its length first. -/
theorem load_writeCells {mem : Memory} (hfits : Fits schema f cells)
    (hcell : cells[i]? = some cell) :
    load (writeCells schema slot f cells mem) (cellOffset schema (f + i) slot)
      (kCellLenBytes + cell.length) = putLe kCellLenBytes cell.length ++ cell := by
  induction cells generalizing f i mem with
  | nil => cases hcell
  | cons c cells ih =>
    cases i with
    | zero =>
      obtain rfl := Option.some.inj hcell
      have hlength : (putLe kCellLenBytes c.length ++ c).length = kCellLenBytes + c.length := by
        rw [List.length_append, length_putLe]
      have hhead := hfits.head
      rw [writeCells, ← hlength]
      -- the cells behind this one are written elsewhere
      refine (load_congr fun i hlow hhigh => ?_).trans (load_store mem _ _)
      refine writeCells_of_disjoint hfits.tail (.inl (Nat.lt_succ_self _)) hlow ?_
      rw [Nat.add_zero] at hhigh
      rw [schema.stride_eq]
      omega
    | succ i =>
      have hnext := @ih (f + 1) i
        (store mem (cellOffset schema f slot) (putLe kCellLenBytes c.length ++ c))
        hfits.tail hcell
      rwa [Nat.add_assoc, Nat.add_comm 1 i] at hnext

/-- What a field is gathered as depends on its cell alone. -/
theorem gatherField_congr {g' : PaxGroup}
    (h : ∀ i, cellOffset schema f slot ≤ i → i < cellOffset schema f slot + stride schema f →
      g.arena i = g'.arena i) : gatherField schema g slot f = gatherField schema g' slot f := by
  have hpart {a n : ℕ} (ha : a + n ≤ stride schema f) :
      load g.arena (cellOffset schema f slot + a) n =
        load g'.arena (cellOffset schema f slot + a) n := by
    apply load_congr
    intro i hlow hhigh
    exact h i (by omega) (by omega)
  have hlen := hpart (a := 0) (n := kCellLenBytes) (by rw [schema.stride_eq]; omega)
  have hwide := hpart (a := kCellLenBytes) (n := schema.maxBytes f) (schema.stride_eq f).ge
  simp only [gatherField, Nat.add_zero] at hlen ⊢
  rw [hlen, hwide]
  split_ifs with hlong hzero hzero
  · rfl
  · rfl
  · rfl
  · rw [hpart (by rw [schema.stride_eq]; omega)]

/-! ## The row that is gathered -/

/-- The text a field's payload is printed as. -/
def printed (schema : TableSchema) (f : ℕ) (ref : Bytes) : Bytes :=
  if ref = [] then []
  else
    match schema.kindOf f with
    | .untyped => ref
    | kind =>
      formatTyped kind (schema.scaleOf f)
        ((parseTyped kind (schema.scaleOf f) ref).elim [] (putLe (schema.maxBytes f)))

theorem natAbs_signedAt_lt (hw : w ≤ 8) (cell : Bytes) : (signedAt w cell).natAbs < 10 ^ 20 := by
  have hpow : 256 ^ w ≤ 256 ^ 8 := Nat.pow_le_pow_right (by norm_num) hw
  have hpos : 0 < 256 ^ w := Nat.pow_pos (by norm_num)
  have hlow := Int.le_bmod (x := (getLe (cell.take w) : ℤ)) hpos
  have hhigh := Int.bmod_lt (x := (getLe (cell.take w) : ℤ)) hpos
  rw [signedAt]
  omega

theorem length_zeroPadded_le (hv : v.natAbs < 10 ^ 20) (hw : w ≤ 20) :
    (zeroPadded w v).length ≤ 21 := by
  have hnumeral := length_numeral_le hv (by norm_num)
  rw [zeroPadded]
  split_ifs
  · rw [List.length_cons, length_zeroFill]
    omega
  · rw [length_zeroFill]
    omega

theorem length_appendI64_le (hv : v.natAbs < 10 ^ 20) : (appendI64 v).length ≤ 21 := by
  have hnumeral := length_numeral_le hv (by norm_num)
  rw [appendI64]
  split_ifs
  · rw [List.length_cons]
    omega
  · omega

theorem length_formatDate_le (hv : v.natAbs < 10 ^ 20) : (formatDate v).length ≤ 65 := by
  have hyear : (v.tdiv 10000).natAbs < 10 ^ 20 := by
    rw [Int.natAbs_tdiv]
    exact (Nat.div_le_self _ _).trans_lt hv
  have hmonth : ((v.tdiv 100).tmod 100).natAbs < 10 ^ 20 := by
    rw [Int.natAbs_tmod]
    exact (Nat.mod_lt _ (by norm_num)).trans (by norm_num)
  have hday : (v.tmod 100).natAbs < 10 ^ 20 := by
    rw [Int.natAbs_tmod]
    exact (Nat.mod_lt _ (by norm_num)).trans (by norm_num)
  have h4 := length_zeroPadded_le (w := 4) hyear (by norm_num)
  have h2 := length_zeroPadded_le (w := 2) hmonth (by norm_num)
  have h2' := length_zeroPadded_le (w := 2) hday (by norm_num)
  simp only [formatDate, List.length_append, List.length_cons]
  omega

theorem length_formatDec_le {m : ℤ} {scale : ℕ} (hm : m.natAbs < 10 ^ 20) (hscale : scale < 128) :
    (formatDec scale m).length ≤ 200 := by
  have hnumeral := length_numeral_le hm (by norm_num)
  have hdigits := length_zeroFill (scale + 1) (numeral m.natAbs)
  have hsign : (if m < 0 then [minus] else []).length ≤ 1 := by split_ifs <;> simp
  rw [formatDec, List.length_append]
  generalize (if m < 0 then [minus] else []).length = sign at hsign ⊢
  split_ifs
  · omega
  · rw [List.length_append, List.length_cons, List.length_take, List.length_drop]
    omega

/-- A typed value is printed in a few bytes. -/
theorem length_formatTyped_le (kind : FieldKind) {scale : ℕ} (hscale : scale < 128)
    (cell : Bytes) : (formatTyped kind scale cell).length ≤ 200 := by
  have h4 := natAbs_signedAt_lt (w := 4) (by norm_num) cell
  have h8 := natAbs_signedAt_lt (w := 8) (by norm_num) cell
  cases kind with
  | untyped => exact Nat.zero_le _
  | int32 =>
    rw [formatTyped]
    exact (length_appendI64_le h4).trans (by norm_num)
  | int64 =>
    rw [formatTyped]
    exact (length_appendI64_le h8).trans (by norm_num)
  | date =>
    rw [formatTyped]
    exact (length_formatDate_le h4).trans (by norm_num)
  | dec64 =>
    rw [formatTyped]
    exact length_formatDec_le h8 hscale

theorem formatTyped_ne_nil {kind : FieldKind} (hw : kind.width = some w) (scale : ℕ)
    (cell : Bytes) : formatTyped kind scale cell ≠ [] := by
  have hinteger (v : ℤ) : appendI64 v ≠ [] := by
    rw [appendI64]
    split_ifs
    · exact List.cons_ne_nil _ _
    · exact numeral_ne_nil _
  have hdecimal (m : ℤ) : formatDec scale m ≠ [] := by
    have hdigits : 0 < (zeroFill (scale + 1) (numeral m.natAbs)).length := by
      rw [length_zeroFill]
      omega
    rw [formatDec]
    apply List.append_ne_nil_of_right_ne_nil
    split_ifs
    · exact List.length_pos_iff.mp hdigits
    · simp
  cases kind with
  | untyped => cases hw
  | int32 | int64 =>
    rw [formatTyped]
    exact hinteger _
  | date =>
    rw [formatTyped, formatDate]
    exact List.append_ne_nil_of_right_ne_nil _ (List.cons_ne_nil _ _)
  | dec64 =>
    rw [formatTyped]
    exact hdecimal _

theorem untyped_of_width {kind : FieldKind} (hw : kind.width = none) : kind = .untyped := by
  cases kind with
  | untyped => rfl
  | int32 | int64 | date | dec64 => cases hw

theorem cellOf_typed (hw : (schema.kindOf f).width = some w) (ref : Bytes) :
    cellOf schema f ref =
      if ref = [] then some []
      else (parseTyped (schema.kindOf f) (schema.scaleOf f) ref).map (putLe w) := by
  have hmax := schema.maxBytes_of_typed hw
  rw [cellOf, hmax]
  cases hkind : schema.kindOf f with
  | untyped =>
    rw [hkind] at hw
    cases hw
  | int32 | int64 | date | dec64 => rfl

/-- The length of a cell's payload fits its length bytes. -/
theorem length_cellOf_le (h : cellOf schema f ref = some cell) : cell.length ≤ 0xFFFF := by
  cases hw : (schema.kindOf f).width with
  | none =>
    have hkind := untyped_of_width hw
    simp only [cellOf, hkind] at h
    rw [Option.ite_none_left_eq_some] at h
    rw [← Option.some.inj h.2]
    omega
  | some w =>
    have hsmall : w ≤ 8 := by
      cases hkind : schema.kindOf f <;> rw [hkind] at hw <;> cases hw <;> decide
    rw [cellOf_typed hw] at h
    split_ifs at h with hnil
    · rw [← Option.some.inj h]
      exact Nat.zero_le _
    · obtain ⟨bits, -, rfl⟩ := Option.map_eq_some_iff.mp h
      rw [length_putLe]
      omega

theorem printed_typed {bits : ℕ} (hw : (schema.kindOf f).width = some w) (hne : ref ≠ [])
    (hbits : parseTyped (schema.kindOf f) (schema.scaleOf f) ref = some bits) :
    printed schema f ref =
      formatTyped (schema.kindOf f) (schema.scaleOf f) (putLe w bits) := by
  have hmax := schema.maxBytes_of_typed hw
  rw [printed, if_neg hne, hmax]
  cases hkind : schema.kindOf f with
  | untyped =>
    rw [hkind] at hw
    cases hw
  | int32 | int64 | date | dec64 =>
    rw [hkind] at hbits
    simp only [hbits, Option.elim_some]

theorem gatherField_typed (hw : (schema.kindOf f).width = some w)
    (hlen : getLe (load g.arena (cellOffset schema f slot) kCellLenBytes) = w) :
    gatherField schema g slot f = presentField (formatTyped (schema.kindOf f) (schema.scaleOf f)
      (load g.arena (cellOffset schema f slot + kCellLenBytes) w)) := by
  have hmax := schema.maxBytes_of_typed hw
  have hpos : w ≠ 0 := by
    cases hkind : schema.kindOf f <;> rw [hkind] at hw <;> cases hw <;> decide
  simp only [gatherField, hlen, hmax, lt_irrefl, if_false, if_neg hpos]
  cases hkind : schema.kindOf f with
  | untyped =>
    rw [hkind] at hw
    cases hw
  | int32 | int64 | date | dec64 => rfl

/-- **What a field is gathered as once its cell is written.** -/
theorem gatherField_of_cell (hcell : cellOf schema f ref = some cell)
    (hload : load g.arena (cellOffset schema f slot) (kCellLenBytes + cell.length) =
      putLe kCellLenBytes cell.length ++ cell) :
    gatherField schema g slot f = encodeField (printed schema f ref) := by
  have hfit := length_cellOf hcell
  have hwidth := length_cellOf_le hcell
  rw [load_add] at hload
  obtain ⟨hlen, hpayload⟩ := List.append_inj hload (by simp)
  have hread : getLe (load g.arena (cellOffset schema f slot) kCellLenBytes) = cell.length := by
    rw [hlen, getLe_putLe (by rw [kCellLenBytes]; omega)]
  have hempty (hnil : cell = []) (href : ref = []) :
      gatherField schema g slot f = encodeField (printed schema f ref) := by
    simp [gatherField, hread, hnil, href, encodeField, printed]
  cases hw : (schema.kindOf f).width with
  | none =>
    have hkind := untyped_of_width hw
    simp only [cellOf, hkind] at hcell
    rw [Option.ite_none_left_eq_some] at hcell
    obtain rfl := Option.some.inj hcell.2
    by_cases hnil : ref = []
    · exact hempty hnil hnil
    · have hpos : ref.length ≠ 0 := by simpa using hnil
      simp only [gatherField, hread, if_neg (Nat.not_lt.mpr hfit), if_neg hpos, hkind, hpayload,
        printed, if_neg hnil, encodeField]
  | some =>
    rw [cellOf_typed hw] at hcell
    split_ifs at hcell with hnil
    · exact hempty (Option.some.inj hcell).symm hnil
    · obtain ⟨bits, hbits, rfl⟩ := Option.map_eq_some_iff.mp hcell
      rw [length_putLe] at hread hpayload
      rw [gatherField_typed hw hread, hpayload, printed_typed hw hnil hbits, encodeField,
        if_neg (formatTyped_ne_nil hw _ _)]

/-- A field is printed as it was given exactly if it was spelled canonically. -/
theorem printed_eq_iff (hcell : cellOf schema f ref = some cell) :
    printed schema f ref = ref ↔
      (ref ≠ [] → CanonicalValue (schema.kindOf f) (schema.scaleOf f) ref) := by
  by_cases hnil : ref = []
  · simp [printed, hnil]
  · cases hw : (schema.kindOf f).width with
    | none =>
      have hkind := untyped_of_width hw
      simp [printed, hnil, hkind, CanonicalValue]
    | some =>
      rw [cellOf_typed hw, if_neg hnil] at hcell
      obtain ⟨bits, hbits, -⟩ := Option.map_eq_some_iff.mp hcell
      rw [printed_typed hw hnil hbits, format_parse (schema.scaleOf_lt f) hw hbits]
      exact ⟨fun h _ => h, fun h => h hnil⟩

theorem length_printed_lt (hcell : cellOf schema f ref = some cell) :
    (printed schema f ref).length < 2 ^ 32 := by
  by_cases hnil : ref = []
  · simp [printed, hnil]
  · cases hw : (schema.kindOf f).width with
    | none =>
      have hkind := untyped_of_width hw
      simp only [cellOf, hkind] at hcell
      rw [Option.ite_none_left_eq_some] at hcell
      simp only [printed, if_neg hnil, hkind]
      omega
    | some =>
      rw [cellOf_typed hw, if_neg hnil] at hcell
      obtain ⟨bits, hbits, -⟩ := Option.map_eq_some_iff.mp hcell
      rw [printed_typed hw hnil hbits]
      exact (length_formatTyped_le _ (schema.scaleOf_lt f) _).trans_lt (by norm_num)

theorem gatherLoop_of_le {n : ℕ} {fields : List Bytes} {dst : Bytes}
    (h : dst.length + fields.flatten.length ≤ n) :
    gatherLoop n fields dst = dst ++ fields.flatten := by
  induction fields generalizing dst with
  | nil => simp [gatherLoop]
  | cons field fields ih =>
    rw [List.flatten_cons, List.length_append] at h
    rw [gatherLoop, if_neg (by omega), ih (by rw [List.length_append]; omega), List.flatten_cons,
      List.append_assoc]

theorem exists_gatherLoop (n : ℕ) (fields : List Bytes) (dst : Bytes) :
    ∃ j ≤ fields.length, gatherLoop n fields dst = dst ++ (fields.take j).flatten := by
  induction fields generalizing dst with
  | nil => exact ⟨0, le_rfl, by simp [gatherLoop]⟩
  | cons field fields ih =>
    rw [gatherLoop]
    split_ifs with hlong
    · exact ⟨0, Nat.zero_le _, by simp⟩
    · obtain ⟨j, hj, hloop⟩ := ih (dst ++ field)
      refine ⟨j + 1, Nat.succ_le_succ hj, ?_⟩
      rw [hloop, List.take_succ_cons, List.flatten_cons, List.append_assoc]

/-- What an accepted row consists of. -/
structure Accepted (schema : TableSchema) (row : Bytes) (refs cells : List Bytes) : Prop where
  parsed : parseRow schema.fieldCount row = some refs
  length : refs.length = schema.fieldCount
  cells : cellsFrom schema 0 refs = some cells

theorem scatterRow_cases (schema : FittingSchema) (g : PaxGroup) (slot : Slot) (row : Bytes) :
    scatterRow schema g slot row = (false, g) ∨
      ∃ refs cells, Accepted schema row refs cells ∧ scatterRow schema g slot row =
        (true, PaxGroup.publishSlot { g with arena := writeCells schema slot 0 cells g.arena }
          slot) := by
  unfold scatterRow
  split_ifs with hmany
  · exact .inl rfl
  · cases hparsed : parseRow schema.fieldCount row with
    | none => exact .inl rfl
    | some refs =>
      dsimp only
      split_ifs with hlength
      · exact .inl rfl
      · cases hcells : cellsFrom schema 0 refs with
        | none => exact .inl rfl
        | some cells => exact .inr ⟨refs, cells, ⟨hparsed, not_not.mp hlength, hcells⟩, rfl⟩

section

variable (h : Accepted schema row refs cells)

include h

theorem Accepted.cellOf (href : refs[f]? = some ref) :
    ∃ cell, cells[f]? = some cell ∧ cellOf schema f ref = some cell := by
  obtain ⟨cell, hcell, hof⟩ := (cellsFrom_eq_some h.cells).2 f ref href
  exact ⟨cell, hcell, by rwa [Nat.zero_add] at hof⟩

omit h in
/-- **A scatter leaves the rows of other slots.** -/
theorem gatherRow_scatterRow_of_ne (hne : slot ≠ slot') (row : Bytes) (n : ℕ) :
    gatherRow schema (scatterRow schema g slot row).2 slot' n = gatherRow schema g slot' n := by
  rcases scatterRow_cases schema g slot row with hrefused | ⟨refs, cells, haccepted, hscatter⟩
  · rw [hrefused]
  · rw [hscatter, gatherRow, gatherRow]
    congr 1
    refine List.map_congr_left fun f _ => gatherField_congr fun i hlow hhigh => ?_
    exact writeCells_of_disjoint (fits_of_cellsFrom haccepted.cells) (.inr hne) hlow hhigh

/-- The fields of a row once they have been printed. -/
def printedRow (schema : TableSchema) (refs : List Bytes) : List Bytes :=
  refs.mapIdx (printed schema)

/-- **What is gathered after a scatter**: the printed fields, as many as fit. -/
theorem gather_scatter (n : ℕ) :
    gatherRow schema
        (PaxGroup.publishSlot { g with arena := writeCells schema slot 0 cells g.arena } slot)
        slot n =
      gatherLoop n ((printedRow schema refs).map encodeField) [] := by
  rw [gatherRow]
  congr 1
  refine List.ext_getElem? fun f => ?_
  simp only [printedRow, List.getElem?_map, List.getElem?_mapIdx]
  by_cases hf : f < schema.fieldCount
  · obtain ⟨ref, href⟩ : ∃ ref, refs[f]? = some ref :=
      ⟨_, List.getElem?_eq_getElem (h.length ▸ hf)⟩
    obtain ⟨cell, hcell, hof⟩ := h.cellOf href
    have hload : load (writeCells schema slot 0 cells g.arena) (cellOffset schema (0 + f) slot)
        (kCellLenBytes + cell.length) = putLe kCellLenBytes cell.length ++ cell :=
      load_writeCells (fits_of_cellsFrom h.cells) hcell
    rw [Nat.zero_add] at hload
    rw [List.getElem?_range hf, href]
    exact congrArg some (gatherField_of_cell hof hload)
  · rw [List.getElem?_eq_none (by simpa using hf), List.getElem?_eq_none (by rw [h.length]; omega)]
    rfl

theorem length_printedRow_lt : ∀ v ∈ printedRow schema refs, v.length < 2 ^ 32 := by
  intro v hv
  obtain ⟨f, hf⟩ := List.mem_iff_getElem?.mp hv
  rw [printedRow, List.getElem?_mapIdx] at hf
  obtain ⟨ref, href, rfl⟩ := Option.map_eq_some_iff.mp hf
  obtain ⟨cell, -, hof⟩ := h.cellOf href
  exact length_printed_lt hof

/-- The fields of a canonical row are printed as they are. -/
theorem Accepted.canonical_iff :
    CanonicalRow schema row ↔ row = encodeRow refs ∧ printedRow schema refs = refs := by
  constructor
  · rintro ⟨values, rfl, hvalues⟩
    have hlengths : ∀ v ∈ values, v.length < 2 ^ 32 := by
      intro v hv
      obtain ⟨f, hf⟩ := List.mem_iff_getElem?.mp hv
      exact (hvalues f v hf).1
    obtain rfl := eq_of_parseRow hlengths h.parsed
    refine ⟨rfl, List.ext_getElem? fun f => ?_⟩
    rw [printedRow, List.getElem?_mapIdx]
    cases href : refs[f]? with
    | none => rfl
    | some ref =>
      obtain ⟨cell, -, hof⟩ := h.cellOf href
      exact congrArg some ((printed_eq_iff hof).mpr (hvalues f ref href).2)
  · rintro ⟨hrow, hprinted⟩
    refine ⟨refs, hrow, fun f v hv => ?_⟩
    obtain ⟨cell, -, hof⟩ := h.cellOf hv
    have hsame : printed schema f v = v := by
      have hf := congrArg (·[f]?) hprinted
      simp only [printedRow, List.getElem?_mapIdx, hv, Option.map_some] at hf
      exact Option.some.inj hf
    refine ⟨?_, (printed_eq_iff hof).mp hsame⟩
    rw [← hsame]
    exact length_printed_lt hof

/-- As many printed fields as fit the row are the row exactly if it is canonical. -/
theorem Accepted.gatherLoop_eq_iff :
    gatherLoop row.length ((printedRow schema refs).map encodeField) [] = row ↔
      CanonicalRow schema row := by
  rw [h.canonical_iff]
  constructor
  · intro hrow
    obtain ⟨j, -, hloop⟩ := exists_gatherLoop row.length
      ((printedRow schema refs).map encodeField) []
    rw [hloop, List.nil_append, ← List.map_take] at hrow
    -- the row is the encoding of its first printed fields, and is parsed as them
    have hrow' : encodeRow ((printedRow schema refs).take j) = row := hrow
    have hparsed := h.parsed
    rw [← hrow'] at hparsed
    have hrefs := eq_of_parseRow
      (fun v hv => length_printedRow_lt h v (List.mem_of_mem_take hv)) hparsed
    have hall : (printedRow schema refs).take j = printedRow schema refs := by
      apply List.take_of_length_le
      have hlength := congrArg List.length hrefs
      rw [List.length_take] at hlength
      simp only [printedRow, List.length_mapIdx] at hlength ⊢
      omega
    rw [hall] at hrefs hrow'
    exact ⟨by rw [hrefs, hrow'], hrefs.symm⟩
  · rintro ⟨hrow, hprinted⟩
    have hflatten : (refs.map encodeField).flatten = row := hrow.symm
    rw [hprinted, gatherLoop_of_le (by simp [hflatten]), hflatten, List.nil_append]

end

/-! ## Round trips -/

theorem scatterRow_refused (h : (scatterRow schema g slot row).1 = false) :
    (scatterRow schema g slot row).2 = g := by
  rcases scatterRow_cases schema g slot row with hrefused | ⟨refs, cells, haccepted, hscatter⟩
  · rw [hrefused]
  · rw [hscatter] at h
    cases h

theorem gatherRow_scatterRow_iff (h : (scatterRow schema g slot row).1 = true) :
    gatherRow schema (scatterRow schema g slot row).2 slot row.length = row ↔
      CanonicalRow schema row := by
  rcases scatterRow_cases schema g slot row with hrefused | ⟨refs, cells, haccepted, hscatter⟩
  · rw [hrefused] at h
    cases h
  · rw [hscatter, gather_scatter haccepted]
    exact haccepted.gatherLoop_eq_iff

/-- A row that is accepted becomes visible. -/
theorem isVisible_scatterRow (h : (scatterRow schema g slot row).1 = true) (slot' : Slot) :
    (scatterRow schema g slot row).2.isVisible slot' =
      (decide (slot' = slot) || g.isVisible slot') := by
  rcases scatterRow_cases schema g slot row with hrefused | ⟨refs, cells, haccepted, hscatter⟩
  · rw [hrefused] at h
    cases h
  · rw [hscatter, PaxGroup.isVisible_publishSlot]
    rfl

/-- **A row that is accepted is gathered byte for byte exactly if every field of it
is spelled canonically, and a row that is refused changes nothing.** The reader
takes spellings the writer does not use: longer length prefixes, other encodings of
an empty field, integers and decimals with a plus, zeroes in front, missing digits
behind the point or a negative zero. -/
theorem scatter_gather_round_trip (schema : FittingSchema) (g : PaxGroup) (slot : Slot)
    (row : Bytes) :
    if (scatterRow schema g slot row).1 then
      (gatherRow schema (scatterRow schema g slot row).2 slot row.length = row ↔
        CanonicalRow schema row)
    else (scatterRow schema g slot row).2 = g := by
  split_ifs with haccepted
  · exact gatherRow_scatterRow_iff haccepted
  · exact scatterRow_refused (Bool.eq_false_iff.mpr haccepted)

/-- A table with one flags byte and one integer column. -/
def integerTable : FittingSchema where
  fieldMaxBytes := [1, 4]
  fieldKind := [.untyped, .int32]
  fieldScale := [0, 0]
  kinds := Or.inr rfl
  width_lt := by decide
  fits := by decide
  scale_lt := by decide
  typed_width := by
    intro f kind w hkind hw
    rcases f with _ | _ | f
    · obtain rfl := Option.some.inj hkind
      cases hw
    · obtain rfl := Option.some.inj hkind
      obtain rfl := Option.some.inj hw
      rfl
    · cases hkind

/-- A table with one flags byte and one column of a width the stride wraps at. -/
def wideTable : TableSchema where
  fieldMaxBytes := [1, 0xFFFFFFFE]
  fieldKind := []
  fieldScale := []
  kinds := Or.inl rfl
  width_lt := by decide
  scale_lt := by decide
  typed_width := by
    intro f kind w hkind
    cases hkind

/-- Two rows with different columns. -/
def wideRow (b : UInt8) : Bytes := [0xFF, 1, 1, b]

/-- The first slot of a group. -/
def firstSlot : Slot := ⟨0, by decide⟩

/-- No flags, and the integer spelled `007`. -/
def zeroesInFront : Bytes := [0xFF, 1, 3, 48, 48, 55]

/-- The integer `007` is accepted and gathered as `7`. -/
theorem zeroes_in_front_dropped :
    (scatterRow integerTable .blank firstSlot zeroesInFront).1 = true ∧
      gatherRow integerTable (scatterRow integerTable .blank firstSlot zeroesInFront).2 firstSlot
        zeroesInFront.length = [0xFF, 1, 1, 55] ∧
      [0xFF, 1, 1, 55] ≠ zeroesInFront := by
  decide +kernel

end Cells

end LineairDB.Pax
