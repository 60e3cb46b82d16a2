import LineairDB.Pax.Group

/-!
# Slots of a group

What belongs to one slot, and the readers that gather only some of its columns.

* `slotsApart_iff` — a scatter keeps to the cells of its slot and every read to the
  cells of the slot it reads exactly if no stride wraps.
* `partial_gathers_agree` — the masked and the projected row have the fields of the
  full one.
-/

namespace LineairDB.Pax

open ByteFile Decimal

variable {g : PaxGroup} {slot : Slot} {f n : ℕ} {columns : List ℕ}

/-! ## Reads of a cell -/

section Reads

variable (schema : TableSchema)

/-- The length in front of a cell, clamped to the cell's width. -/
def cellLength (g : PaxGroup) (slot : Slot) (f : ℕ) : ℕ :=
  let len := getLe (load g.arena (cellOffset schema f slot) kCellLenBytes)
  if schema.maxBytes f < len then 0 else len

/-- `cell`: a view of one cell's payload. -/
def cell (g : PaxGroup) (slot : Slot) (f : ℕ) : Bytes :=
  load g.arena (cellOffset schema f slot + kCellLenBytes) (cellLength schema g slot f)

/-- The reads of one field, each with its address and its number of bytes: the
length, then the payload. `FormatTyped` copies the kind's width whatever the length
says. -/
def cellReads (g : PaxGroup) (slot : Slot) (f : ℕ) : List (ℕ × ℕ) :=
  let off := cellOffset schema f slot
  let len := cellLength schema g slot f
  (off, kCellLenBytes) ::
    if len = 0 then [] else [(off + kCellLenBytes, (schema.kindOf f).width.getD len)]

/-- The end of the bytes a cell occupies. -/
def cellEnd (f : ℕ) (slot : Slot) : ℕ :=
  cellOffset schema f slot + (kCellLenBytes + schema.maxBytes f)

/-- The slots of a group are kept apart. -/
structure SlotsApart : Prop where
  disjoint : ∀ f < schema.fieldCount, ∀ f' < schema.fieldCount, ∀ slot slot' : Slot,
    f ≠ f' ∨ slot ≠ slot' → cellEnd schema f slot ≤ cellOffset schema f' slot' ∨
      cellEnd schema f' slot' ≤ cellOffset schema f slot
  inside : ∀ f < schema.fieldCount, ∀ slot : Slot,
    cellEnd schema f slot ≤ stripsEnd schema schema.fieldCount
  scatter : ∀ (g : PaxGroup) (slot slot' : Slot) (row : Bytes), slot' ≠ slot →
    (scatterRow schema g slot row).1 = true →
      (∀ f < schema.fieldCount, ∀ i, cellOffset schema f slot' ≤ i → i < cellEnd schema f slot' →
        (scatterRow schema g slot row).2.arena i = g.arena i) ∧
      (scatterRow schema g slot row).2.isVisible slot' = g.isVisible slot'
  reads : ∀ (g : PaxGroup) (slot : Slot), ∀ f < schema.fieldCount,
    (∀ r ∈ cellReads schema g slot f,
      cellOffset schema f slot ≤ r.1 ∧ r.1 + r.2 ≤ cellEnd schema f slot) ∧
    ∀ g' : PaxGroup, (∀ r ∈ cellReads schema g slot f,
      load g.arena r.1 r.2 = load g'.arena r.1 r.2) → cell schema g slot f = cell schema g' slot f ∧
        gatherField schema g slot f = gatherField schema g' slot f
  gather : ∀ (g : PaxGroup) (slot : Slot) (expectedSize : ℕ),
    (gatherRow schema g slot expectedSize).length ≤ expectedSize

end Reads

/-! ## The text of a field -/

section Text

variable (schema : TableSchema)

/-- The text of a field as its cell has it, whatever is in the cell. -/
def fieldText (g : PaxGroup) (slot : Slot) (f : ℕ) : Bytes :=
  match schema.kindOf f with
  | .untyped => cell schema g slot f
  | kind =>
    if cell schema g slot f = [] then []
    else
      formatTyped kind (schema.scaleOf f)
        (load g.arena (cellOffset schema f slot + kCellLenBytes) (schema.maxBytes f))

variable {schema}

theorem cell_eq_nil_iff : cell schema g slot f = [] ↔ cellLength schema g slot f = 0 := by
  rw [← List.length_eq_zero_iff, cell, length_load]

/-- **Every field is gathered as its text, whatever is in the cell.** -/
theorem gatherField_eq (g : PaxGroup) (slot : Slot) (f : ℕ) :
    gatherField schema g slot f = encodeField (fieldText schema g slot f) := by
  have hlen : gatherField schema g slot f = if cellLength schema g slot f = 0 then [kNoValue]
      else
        match schema.kindOf f with
        | .untyped => presentField (cell schema g slot f)
        | kind =>
          presentField (formatTyped kind (schema.scaleOf f)
            (load g.arena (cellOffset schema f slot + kCellLenBytes) (schema.maxBytes f))) := rfl
  rw [hlen, fieldText]
  by_cases hzero : cellLength schema g slot f = 0
  · have hnil := cell_eq_nil_iff.mpr hzero
    rw [if_pos hzero]
    cases schema.kindOf f <;> simp [hnil, encodeField]
  · have hcell : cell schema g slot f ≠ [] := mt cell_eq_nil_iff.mp hzero
    rw [if_neg hzero]
    cases hkind : schema.kindOf f with
    | untyped => simp [encodeField, hcell]
    | int32 | int64 | date | dec64 =>
      simp only [if_neg hcell, encodeField]
      rw [if_neg (formatTyped_ne_nil rfl _ _)]

theorem length_fieldText_lt (g : PaxGroup) (slot : Slot) (f : ℕ) :
    (fieldText schema g slot f).length < 2 ^ 32 := by
  have hcell : (cell schema g slot f).length < 2 ^ 32 := by
    have hbytes := getLe_lt (load g.arena (cellOffset schema f slot) kCellLenBytes)
    have hpow : 256 ^ kCellLenBytes = 65536 := rfl
    rw [length_load, hpow] at hbytes
    rw [cell, length_load, cellLength]
    split_ifs <;> omega
  have htyped (kind : FieldKind) (bytes : Bytes) :
      (formatTyped kind (schema.scaleOf f) bytes).length < 2 ^ 32 :=
    (length_formatTyped_le kind (schema.scaleOf_lt f) bytes).trans_lt (by norm_num)
  rw [fieldText]
  cases schema.kindOf f with
  | untyped => exact hcell
  | int32 | int64 | date | dec64 =>
    split_ifs
    · exact Nat.succ_pos _
    · exact htyped _ _

end Text

/-! ## Keeping to one slot -/

theorem length_gatherLoop_le (fields : List Bytes) {dst : Bytes} (h : dst.length ≤ n) :
    (gatherLoop n fields dst).length ≤ n := by
  induction fields generalizing dst with
  | nil => exact h
  | cons field fields ih =>
    rw [gatherLoop]
    split_ifs with hlong
    · exact h
    · apply ih
      rw [List.length_append]
      omega

theorem cellLength_le (schema : TableSchema) (g : PaxGroup) (slot : Slot) (f : ℕ) :
    cellLength schema g slot f ≤ schema.maxBytes f := by
  rw [cellLength]
  split_ifs <;> omega

/-- The payload read for a field is no longer than the cell is wide. -/
theorem width_le_maxBytes (schema : TableSchema) (g : PaxGroup) (slot : Slot) (f : ℕ) :
    (schema.kindOf f).width.getD (cellLength schema g slot f) ≤ schema.maxBytes f := by
  cases hw : (schema.kindOf f).width with
  | none => exact cellLength_le schema g slot f
  | some => exact (schema.maxBytes_of_typed hw).ge

theorem take_load {mem : Memory} {off m : ℕ} (h : m ≤ n) :
    (load mem off n).take m = load mem off m := by
  rw [load, load, ← List.map_take, List.take_range, Nat.min_eq_left h]

theorem payload_mem_cellReads {schema : TableSchema} (h : cellLength schema g slot f ≠ 0) :
    (cellOffset schema f slot + kCellLenBytes,
      (schema.kindOf f).width.getD (cellLength schema g slot f)) ∈ cellReads schema g slot f := by
  rw [cellReads, if_neg h]
  exact .tail _ (List.mem_singleton_self _)

/-- What a field is gathered as depends on what is read for it alone. -/
theorem fieldText_congr {schema : TableSchema} {g' : PaxGroup}
    (h : ∀ r ∈ cellReads schema g slot f, load g.arena r.1 r.2 = load g'.arena r.1 r.2) :
    cell schema g slot f = cell schema g' slot f ∧
      gatherField schema g slot f = gatherField schema g' slot f := by
  have hlength : cellLength schema g slot f = cellLength schema g' slot f := by
    rw [cellLength, cellLength, h (cellOffset schema f slot, kCellLenBytes) List.mem_cons_self]
  by_cases hzero : cellLength schema g slot f = 0
  · have hnil : cell schema g slot f = [] := cell_eq_nil_iff.mpr hzero
    have hnil' : cell schema g' slot f = [] := cell_eq_nil_iff.mpr (hlength ▸ hzero)
    refine ⟨hnil.trans hnil'.symm, ?_⟩
    rw [gatherField_eq, gatherField_eq, fieldText, fieldText, hnil, hnil']
    cases schema.kindOf f <;> simp
  · have hpayload {n : ℕ} (hn : n ≤ (schema.kindOf f).width.getD (cellLength schema g slot f)) :
        load g.arena (cellOffset schema f slot + kCellLenBytes) n =
          load g'.arena (cellOffset schema f slot + kCellLenBytes) n := by
      have hread := h _ (payload_mem_cellReads hzero)
      rw [← take_load hn, ← take_load hn, hread]
    have hcell : cell schema g slot f = cell schema g' slot f := by
      rw [cell, cell, ← hlength]
      apply hpayload
      cases hw : (schema.kindOf f).width with
      | none => exact le_rfl
      | some => exact (cellLength_le schema g slot f).trans (schema.maxBytes_of_typed hw).le
    refine ⟨hcell, ?_⟩
    rw [gatherField_eq, gatherField_eq, fieldText, fieldText, ← hcell]
    cases hkind : schema.kindOf f with
    | untyped => rfl
    | int32 | int64 | date | dec64 =>
      rw [hkind] at hpayload
      have hmax := schema.maxBytes_of_typed (f := f) (by rw [hkind]; rfl)
      simp only [hpayload hmax.le]

theorem slotsApart_of_fits (schema : FittingSchema) : SlotsApart schema where
  disjoint := by
    intro f _ f' _ slot slot' hne
    have happart := cells_disjoint schema hne
    rwa [schema.stride_eq, schema.stride_eq] at happart
  inside := by
    intro f hf slot
    have hinside := cell_in_arena schema hf slot
    rwa [schema.stride_eq] at hinside
  scatter := by
    intro g slot slot' row hne haccepted
    constructor
    · intro f _ i hlow hhigh
      rcases scatterRow_cases schema g slot row with hrefused | ⟨refs, cells, hrow, hscatter⟩
      · rw [hrefused]
      · rw [hscatter]
        refine writeCells_of_disjoint (fits_of_cellsFrom hrow.cells) (.inr hne.symm) hlow ?_
        rwa [schema.stride_eq]
    · rw [isVisible_scatterRow haccepted, decide_eq_false hne, Bool.false_or]
  reads := by
    intro g slot f _
    refine ⟨fun r hr => ?_, fun g' h => fieldText_congr h⟩
    have hwidth := width_le_maxBytes schema g slot f
    simp only [cellReads, List.mem_cons] at hr
    rcases hr with rfl | hr
    · simp only [cellEnd]
      omega
    · split_ifs at hr
      · cases hr
      · obtain rfl := List.mem_singleton.mp hr
        simp only [cellEnd]
        omega
  gather := by
    intro g slot expectedSize
    exact length_gatherLoop_le _ (Nat.zero_le _)

/-- **A scatter touches only its own slot, and a gather reads only its own slot,
exactly if no stride wraps.** -/
theorem slotsApart_iff (schema : TableSchema) :
    SlotsApart schema ↔ ∀ w ∈ schema.fieldMaxBytes, kCellLenBytes + w < 2 ^ 32 := by
  constructor
  · intro h w hw
    by_contra hwraps
    obtain ⟨f, hf⟩ := List.mem_iff_getElem?.mp hw
    have hmax : schema.maxBytes f = w := by
      rw [TableSchema.maxBytes, hf]
      rfl
    have hcount : f < schema.fieldCount := (List.getElem?_eq_some_iff.mp hf).1
    have hwidth := schema.width_lt w hw
    -- neighbouring cells of a strip start at most one byte apart
    have hstride : stride schema f ≤ 1 := by
      rw [stride, hmax, kCellLenBytes] at *
      omega
    have happart := h.disjoint f hcount f hcount ⟨0, by decide⟩ ⟨1, by decide⟩ (.inr (by decide))
    simp only [cellEnd, cellOffset, hmax] at happart
    omega
  · intro hfits
    exact slotsApart_of_fits { schema with fits := hfits }

/-- The second slot's row replaces the column of the first slot's. -/
theorem wide_column_overwritten :
    let g := (scatterRow wideTable .blank ⟨0, by decide⟩ (wideRow 65)).2
    (scatterRow wideTable g ⟨1, by decide⟩ (wideRow 66)).1 = true ∧
      gatherRow wideTable g ⟨0, by decide⟩ 4 = wideRow 65 ∧
      gatherRow wideTable (scatterRow wideTable g ⟨1, by decide⟩ (wideRow 66)).2 ⟨0, by decide⟩ 4 =
        wideRow 66 ∧
      ¬ SlotsApart wideTable := by
  refine ⟨by decide +kernel, by decide +kernel, by decide +kernel, fun h => ?_⟩
  have happart := h.disjoint 1 (by decide) 1 (by decide) ⟨0, by decide⟩ ⟨1, by decide⟩
    (.inr (by decide))
  revert happart
  decide +kernel

/-! ## Rows with some of the columns -/

section Partial

variable (schema : TableSchema)

/-- `AppendCellField`: the field as the masked and the projected gather append it. -/
def appendCellField (g : PaxGroup) (slot : Slot) (f : ℕ) : Bytes :=
  let cv := cell schema g slot f
  match schema.kindOf f with
  | .untyped => encodeField cv
  | kind =>
    if cv = [] then encodeField cv
    else
      encodeField (formatTyped kind (schema.scaleOf f)
        (load g.arena (cellOffset schema f slot + kCellLenBytes) (schema.maxBytes f)))

/-- The loop over the columns; it stops at one the schema does not have. -/
def projectColumns (g : PaxGroup) (slot : Slot) : List ℕ → Bytes → Bool × Bytes
  | [], out => (true, out)
  | column :: columns, out =>
    if schema.fieldCount ≤ column + 1 then (false, out)
    else projectColumns g slot columns (out ++ appendCellField schema g slot (column + 1))

/-- `GatherRowProjected`, from an empty output: the flags and the columns. -/
def gatherRowProjected (g : PaxGroup) (slot : Slot) (columns : List ℕ) : Bool × Bytes :=
  projectColumns schema g slot columns (appendCellField schema g slot 0)

/-- The loop over the fields, with the columns that are still to come. -/
def maskFields (g : PaxGroup) (slot : Slot) : List ℕ → List ℕ → Bytes → Bytes
  | [], _, out => out
  | _ :: fields, [], out => maskFields g slot fields [] (out ++ [kNoValue])
  | f :: fields, column :: columns, out =>
    if column + 1 = f then
      maskFields g slot fields columns (out ++ appendCellField schema g slot f)
    else maskFields g slot fields (column :: columns) (out ++ [kNoValue])

/-- `GatherRowMasked`, from an empty output: every field, those of the columns that
are not asked for without a value. -/
def gatherRowMasked (g : PaxGroup) (slot : Slot) (columns : List ℕ) : Bytes :=
  maskFields schema g slot (List.range' 1 (schema.fieldCount - 1)) columns
    (appendCellField schema g slot 0)

/-- The fields of the full row. -/
def fieldTexts (g : PaxGroup) (slot : Slot) : List Bytes :=
  (List.range schema.fieldCount).map (fieldText schema g slot)

variable {schema}

theorem appendCellField_eq (g : PaxGroup) (slot : Slot) (f : ℕ) :
    appendCellField schema g slot f = encodeField (fieldText schema g slot f) := by
  rw [appendCellField, fieldText]
  cases schema.kindOf f with
  | untyped => rfl
  | int32 | int64 | date | dec64 =>
    split_ifs with hnil
    · rw [hnil]
    · rfl

theorem projectColumns_eq (h : ∀ column ∈ columns, column + 1 < schema.fieldCount) (out : Bytes) :
    projectColumns schema g slot columns out =
      (true, out ++ encodeRow (columns.map fun column =>
        fieldText schema g slot (column + 1))) := by
  induction columns generalizing out with
  | nil => simp [projectColumns, encodeRow]
  | cons column columns ih =>
    have hcolumn := h column (.head _)
    rw [projectColumns, if_neg (by omega), ih (fun c hc => h c (.tail _ hc)),
      appendCellField_eq, List.map_cons, encodeRow_cons, List.append_assoc]

/-- The columns that are still to come are met at the fields that are still to
come. -/
theorem maskFields_eq {first : ℕ} (hsorted : columns.Pairwise (· < ·))
    (hfirst : ∀ column ∈ columns, first ≤ column + 1) (out : Bytes) :
    maskFields schema g slot (List.range' first n) columns out =
      out ++ encodeRow ((List.range' first n).map fun f =>
        if f ∈ columns.map (· + 1) then fieldText schema g slot f else []) := by
  induction n generalizing first columns out with
  | zero => simp [maskFields, encodeRow]
  | succ n ih =>
    rw [List.range'_succ, List.map_cons, encodeRow_cons]
    cases columns with
    | nil =>
      rw [maskFields, ih List.Pairwise.nil (fun c hc => by cases hc)]
      simp [encodeField]
    | cons column columns =>
      obtain ⟨hlater, htail⟩ := List.pairwise_cons.mp hsorted
      by_cases hhere : column + 1 = first
      · have hrest : ∀ c ∈ columns, first + 1 ≤ c + 1 := by
          intro c hc
          have := hlater c hc
          omega
        have hsame : ∀ f ∈ List.range' (first + 1) n,
            (if f ∈ columns.map (· + 1) then fieldText schema g slot f else []) =
              if f ∈ (column :: columns).map (· + 1) then fieldText schema g slot f else [] := by
          intro f hf
          have hne : f ≠ column + 1 := by
            have := (List.mem_range'_1.mp hf).1
            omega
          simp only [List.map_cons, List.mem_cons, hne, false_or]
        rw [maskFields, if_pos hhere, ih htail hrest, appendCellField_eq, List.map_congr_left hsame,
          if_pos (by simp [hhere]), List.append_assoc]
      · have hrest : ∀ c ∈ column :: columns, first + 1 ≤ c + 1 := by
          intro c hc
          have hcolumn := hfirst column (.head _)
          rcases List.mem_cons.mp hc with rfl | hc
          · omega
          · have := hlater c hc
            omega
        have hnot : first ∉ (column :: columns).map (· + 1) := by
          intro hmem
          obtain ⟨c, hc, hcfirst⟩ := List.mem_map.mp hmem
          have := hrest c hc
          omega
        rw [maskFields, if_neg hhere, ih hsorted hrest, if_neg hnot, List.append_assoc]
        rfl

theorem length_fieldTexts (g : PaxGroup) (slot : Slot) :
    (fieldTexts schema g slot).length = schema.fieldCount := by simp [fieldTexts]

theorem getElem?_fieldTexts (hf : f < schema.fieldCount) :
    (fieldTexts schema g slot)[f]? = some (fieldText schema g slot f) := by
  rw [fieldTexts, List.getElem?_map, List.getElem?_range hf, Option.map_some]

/-- The full row, given room for it. -/
theorem gatherRow_eq (hroom : (encodeRow (fieldTexts schema g slot)).length ≤ n) :
    gatherRow schema g slot n = encodeRow (fieldTexts schema g slot) := by
  have hfields : (List.range schema.fieldCount).map (gatherField schema g slot) =
      (fieldTexts schema g slot).map encodeField := by
    rw [fieldTexts, List.map_map]
    exact List.map_congr_left fun f _ => gatherField_eq g slot f
  rw [gatherRow, hfields]
  exact gatherLoop_of_le (by rwa [List.length_nil, Nat.zero_add])

/-- The masked row as the full one with the other fields left out. -/
theorem gatherRowMasked_eq (hfields : 0 < schema.fieldCount) (hsorted : columns.Pairwise (· < ·)) :
    gatherRowMasked schema g slot columns =
      encodeRow ((fieldTexts schema g slot).mapIdx fun f value =>
        if f = 0 ∨ f ∈ columns.map (· + 1) then value else []) := by
  obtain ⟨n, hn⟩ : ∃ n, schema.fieldCount = n + 1 := ⟨schema.fieldCount - 1, by omega⟩
  have hmasked : (fieldTexts schema g slot).mapIdx (fun f value =>
      if f = 0 ∨ f ∈ columns.map (· + 1) then value else []) =
      fieldText schema g slot 0 :: (List.range' 1 n).map fun f =>
        if f ∈ columns.map (· + 1) then fieldText schema g slot f else [] := by
    rw [fieldTexts, hn, List.range_eq_range', List.range'_succ, List.map_cons, List.mapIdx_cons]
    refine congrArg₂ List.cons (if_pos (.inl rfl)) (List.ext_getElem? fun i => ?_)
    simp only [List.getElem?_mapIdx, List.getElem?_map]
    cases hi : (List.range' 1 n)[i]? with
    | none => rfl
    | some f =>
      obtain ⟨hlt, hvalue⟩ := List.getElem?_eq_some_iff.mp hi
      have hindex : i + 1 = f := by
        rw [← hvalue, List.getElem_range']
        omega
      simp [hindex.symm]
  rw [gatherRowMasked, maskFields_eq hsorted (fun c _ => by omega), appendCellField_eq, hn,
    Nat.add_sub_cancel, hmasked, encodeRow_cons]

/-- **The partial gathers agree with the full row.** The masked row parses into as
many fields as the schema has, with the flags and the chosen columns of the full row
and nothing in the others; the projected row parses into the flags and the chosen
columns; and the masked row of all columns is the full row. -/
theorem partial_gathers_agree (schema : TableSchema) (g : PaxGroup) (slot : Slot)
    (columns : List ℕ) (hfields : 0 < schema.fieldCount) (hsorted : columns.Pairwise (· < ·))
    (hrange : ∀ column ∈ columns, column + 1 < schema.fieldCount) :
    ∃ full : List Bytes, full.length = schema.fieldCount ∧
      (∀ n, (encodeRow full).length ≤ n →
        gatherRow schema g slot n = encodeRow full ∧
        parseRow schema.fieldCount (gatherRow schema g slot n) = some full) ∧
      parseRow schema.fieldCount (gatherRowMasked schema g slot columns) =
        some (full.mapIdx fun f value =>
          if f = 0 ∨ f ∈ columns.map (· + 1) then value else []) ∧
      (gatherRowProjected schema g slot columns).1 = true ∧
      parseRow (columns.length + 1) (gatherRowProjected schema g slot columns).2 =
        some ((0 :: columns.map (· + 1)).map fun f => full.getD f []) ∧
      (columns = List.range (schema.fieldCount - 1) →
        gatherRowMasked schema g slot columns = encodeRow full) := by
  have hlengths : ∀ v ∈ fieldTexts schema g slot, v.length < 2 ^ 32 := by
    intro v hv
    obtain ⟨f, -, rfl⟩ := List.mem_map.mp hv
    exact length_fieldText_lt g slot f
  have hprojected : projectColumns schema g slot columns (appendCellField schema g slot 0) = _ :=
    projectColumns_eq hrange _
  refine ⟨fieldTexts schema g slot, length_fieldTexts g slot, fun n hroom => ?_, ?_, ?_, ?_, ?_⟩
  · rw [gatherRow_eq hroom]
    exact ⟨rfl, parseRow_encodeRow (length_fieldTexts g slot).le hlengths⟩
  · rw [gatherRowMasked_eq hfields hsorted]
    refine parseRow_encodeRow (by simp [length_fieldTexts]) fun v hv => ?_
    obtain ⟨f, hf, rfl⟩ := List.mem_mapIdx.mp hv
    split_ifs
    · exact hlengths _ (List.getElem_mem hf)
    · exact Nat.succ_pos _
  · rw [gatherRowProjected, hprojected]
  · have hvalues : (0 :: columns.map (· + 1)).map (fun f => (fieldTexts schema g slot).getD f []) =
        fieldText schema g slot 0 ::
          columns.map fun column => fieldText schema g slot (column + 1) := by
      have hget {f : ℕ} (hf : f < schema.fieldCount) :
          (fieldTexts schema g slot).getD f [] = fieldText schema g slot f := by
        rw [List.getD_eq_getElem?_getD, getElem?_fieldTexts hf, Option.getD_some]
      rw [List.map_cons, hget hfields, List.map_map]
      exact congrArg _ (List.map_congr_left fun column hcolumn => hget (hrange column hcolumn))
    rw [gatherRowProjected, hprojected, appendCellField_eq, ← encodeRow_cons, hvalues]
    refine parseRow_encodeRow (by simp) (List.forall_mem_cons.mpr
      ⟨length_fieldText_lt g slot 0, List.forall_mem_map.mpr fun column _ => ?_⟩)
    exact length_fieldText_lt g slot _
  · rintro rfl
    rw [gatherRowMasked_eq hfields hsorted]
    congr 1
    refine List.ext_getElem? fun f => ?_
    rw [List.getElem?_mapIdx]
    cases hf : (fieldTexts schema g slot)[f]? with
    | none => rfl
    | some =>
      have hlt : f < schema.fieldCount := by
        rw [← length_fieldTexts g slot]
        exact (List.getElem?_eq_some_iff.mp hf).1
      have hchosen : f = 0 ∨ f ∈ (List.range (schema.fieldCount - 1)).map (· + 1) := by
        rcases Nat.eq_zero_or_pos f with hzero | hpos
        · exact .inl hzero
        · exact .inr (List.mem_map.mpr ⟨f - 1, List.mem_range.mpr (by omega), by omega⟩)
      exact congrArg some (if_pos hchosen)

/-- The integer column of a row with the flags. -/
theorem partial_gathers_agree_integer :
    let g := (scatterRow integerTable .blank firstSlot [0xFF, 1, 1, 55]).2
    0 < integerTable.fieldCount ∧ gatherRow integerTable g firstSlot 4 = [0xFF, 1, 1, 55] ∧
      gatherRowMasked integerTable g firstSlot [0] = [0xFF, 1, 1, 55] := by
  intro g
  obtain ⟨full, -, hfull, -, -, -, hall⟩ := partial_gathers_agree integerTable g firstSlot
    [0] (by decide) (by decide) (by decide)
  have hmasked := hall rfl
  have hrow : gatherRowMasked integerTable g firstSlot [0] = [0xFF, 1, 1, 55] := by decide +kernel
  rw [hrow] at hmasked
  exact ⟨by decide, (hfull 4 (by rw [← hmasked]; decide)).1.trans hmasked.symm, hrow⟩

end Partial

end LineairDB.Pax
