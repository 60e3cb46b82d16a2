import Mathlib.Data.List.TakeWhile
import LineairDB.Library.Decimal

/-!
# The typed cell codec

A typed cell keeps a number in a fixed-width binary. `parseTyped` reads the
field's text into it when a row is scattered and `formatTyped` prints the text
back when the row is gathered.

* `format_parse` — the text an accepted field is printed as is the text it had
  exactly if that text was spelled canonically.
* `exactDecimal_iff` — a decimal is read exactly unless the accumulator comes
  round into the range of a cell.
* `typed_cells_parse_back` — what a typed cell is printed as is read back as it.
-/

namespace LineairDB.Pax

open ByteFile Decimal

variable {body ds frac ip s : Bytes} {m v : ℤ} {scale w : ℕ} {point : Bool}

/-- The storage kind of a field. -/
inductive FieldKind where
  | untyped
  | int32
  | int64
  | date
  | dec64
  deriving Repr, DecidableEq

/-- The width of a typed kind's binary; an untyped cell keeps its text. -/
def FieldKind.width : FieldKind → Option ℕ
  | .untyped => none
  | .int32 => some 4
  | .int64 => some 8
  | .date => some 4
  | .dec64 => some 8

/-- `-` -/
def minus : UInt8 := 45
/-- `+` -/
def plus : UInt8 := 43
/-- `.` -/
def dot : UInt8 := 46

/-- The values of an `int64_t`. -/
def Int64 (v : ℤ) : Prop := -2 ^ 63 ≤ v ∧ v < 2 ^ 63

instance (v : ℤ) : Decidable (Int64 v) := inferInstanceAs (Decidable (_ ∧ _))

/-- The values of an `int32_t`. -/
def Int32 (v : ℤ) : Prop := -2 ^ 31 ≤ v ∧ v < 2 ^ 31

instance (v : ℤ) : Decidable (Int32 v) := inferInstanceAs (Decidable (_ ∧ _))

/-! ## Parsing -/

/-- `std::from_chars` on an `int64_t`: the number at the front and the text
behind it, or nothing where the error code is set. A leading plus is not a
number. -/
def fromChars (s : Bytes) : Option (ℤ × Bytes) :=
  let neg := s.head? = some minus
  let body := if neg then s.tail else s
  let digits := body.takeWhile isDigit
  let v : ℤ := if neg then -value digits else value digits
  if digits = [] ∨ ¬ Int64 v then none else some (v, body.dropWhile isDigit)

/-- The whole text has to be consumed. -/
def parseI64 (s : Bytes) : Option ℤ :=
  if s = [] then none
  else
    match fromChars s with
    | some (v, []) => some v
    | _ => none

/-- The digits of one part of a date. -/
def digs (p : Bytes) : Option ℤ := if Digits p then some (value p) else none

/-- `YYYY-MM-DD` as the number `YYYYMMDD`; the parts are not checked against
the calendar. -/
def parseDate (s : Bytes) : Option ℤ :=
  if s.length ≠ 10 ∨ s[4]? ≠ some minus ∨ s[7]? ≠ some minus then none
  else
    match digs (slice s 0 4), digs (slice s 5 2), digs (slice s 8 2) with
    | some y, some m, some d => some (y * 10000 + m * 100 + d)
    | _, _, _ => none

/-- The locals of the loop over a decimal's text. -/
structure DecScan where
  m : ℤ
  fdig : ℤ
  seenDot : Bool
  any : Bool
  deriving Repr, DecidableEq

/-- The accumulator is an `__int128`; a sum that does not fit wraps. -/
def wrap128 (m : ℤ) : ℤ := Int.bmod m (2 ^ 128)

/-- One character of a decimal. -/
def decStep (st : DecScan) (c : UInt8) : Option DecScan :=
  if c = dot then
    if st.seenDot then none else some { st with seenDot := true }
  else if isDigit c then
    some { st with
      m := wrap128 (st.m * 10 + digitValue c)
      fdig := if st.seenDot then Int.bmod (st.fdig + 1) (2 ^ 32) else st.fdig
      any := true }
  else none

/-- The digits behind the point that are missing are filled in as zeroes. -/
def fillScale (n : ℕ) (m : ℤ) : ℤ := (fun m => wrap128 (m * 10))^[n] m

/-- A decimal text as the number of its units of `10 ^ -scale`. -/
def parseDecScaled (s : Bytes) (scale : ℕ) : Option ℤ :=
  if s = [] then none
  else
    let neg := s.head? = some minus
    let body := if neg ∨ s.head? = some plus then s.tail else s
    match body.foldlM decStep ⟨0, 0, false, false⟩ with
    | none => none
    | some st =>
      if st.any = false then none
      else if (scale : ℤ) < st.fdig then none
      else
        let m := fillScale ((scale : ℤ) - st.fdig).toNat st.m
        let m := if neg then wrap128 (-m) else m
        if Int64 m then some m else none

/-- A number as the `uint64_t` it is cast to. -/
def toBits (v : ℤ) : ℕ := (v % 2 ^ 64).toNat

/-- One field's text as the bits of its cell, or nothing where it is refused. -/
def parseTyped (kind : FieldKind) (scale : ℕ) (payload : Bytes) : Option ℕ :=
  match kind with
  | .int32 =>
    match parseI64 payload with
    | some v => if Int32 v then some (toBits v) else none
    | none => none
  | .int64 => (parseI64 payload).map toBits
  | .date => (parseDate payload).map toBits
  | .dec64 => (parseDecScaled payload scale).map toBits
  | .untyped => none

/-! ## Printing -/

/-- `AppendI64` -/
def appendI64 (v : ℤ) : Bytes :=
  if v < 0 then minus :: numeral v.natAbs else numeral v.natAbs

/-- The conversion `%0wlld`: the sign counts towards the width. -/
def zeroPadded (w : ℕ) (v : ℤ) : Bytes :=
  if v < 0 then minus :: zeroFill (w - 1) (numeral v.natAbs) else zeroFill w (numeral v.natAbs)

/-- `FormatDate` -/
def formatDate (v : ℤ) : Bytes :=
  zeroPadded 4 (v.tdiv 10000) ++ minus :: zeroPadded 2 ((v.tdiv 100).tmod 100) ++
    minus :: zeroPadded 2 (v.tmod 100)

/-- `FormatDec` -/
def formatDec (scale : ℕ) (m : ℤ) : Bytes :=
  let digits := zeroFill (scale + 1) (numeral m.natAbs)
  let ip := digits.length - scale
  (if m < 0 then [minus] else []) ++
    if scale = 0 then digits else digits.take ip ++ dot :: digits.drop ip

/-- The signed number in the low `w` bytes of a cell. -/
def signedAt (w : ℕ) (cell : Bytes) : ℤ := Int.bmod (getLe (cell.take w)) (256 ^ w)

/-- `FormatTyped` -/
def formatTyped (kind : FieldKind) (scale : ℕ) (cell : Bytes) : Bytes :=
  match kind with
  | .int32 => appendI64 (signedAt 4 cell)
  | .int64 => appendI64 (signedAt 8 cell)
  | .date => formatDate (signedAt 4 cell)
  | .dec64 => formatDec scale (signedAt 8 cell)
  | .untyped => []

/-! ## Canonical spellings -/

/-- An integer without a plus, a superfluous zero in front or a negative zero. -/
def CanonicalInt (s : Bytes) : Prop :=
  Plain s ∨ ∃ ds, s = minus :: ds ∧ Plain ds ∧ ds ≠ [zero]

/-- `YYYY-MM-DD`. -/
def CanonicalDate (s : Bytes) : Prop :=
  s.length = 10 ∧ s[4]? = some minus ∧ s[7]? = some minus ∧
    Digits (slice s 0 4) ∧ Digits (slice s 5 2) ∧ Digits (slice s 8 2)

/-- A decimal with as many digits behind the point as the column declares, no
point where it declares none, and before it a number without a superfluous zero;
no negative zero, and a value the cell has room for. -/
def CanonicalDec (scale : ℕ) (s : Bytes) : Prop :=
  ∃ (neg : Bool) (ip frac : Bytes), Plain ip ∧ Digits frac ∧ frac.length = scale ∧
    s = (if neg then [minus] else []) ++ (if scale = 0 then ip else ip ++ dot :: frac) ∧
    if neg then value (ip ++ frac) ≠ 0 ∧ value (ip ++ frac) ≤ 2 ^ 63
    else value (ip ++ frac) < 2 ^ 63

/-- The canonical spellings of a field's present value; an untyped field has
only one spelling. -/
def CanonicalValue (kind : FieldKind) (scale : ℕ) (s : Bytes) : Prop :=
  match kind with
  | .untyped => True
  | .int32 => CanonicalInt s
  | .int64 => CanonicalInt s
  | .date => CanonicalDate s
  | .dec64 => CanonicalDec scale s

/-! ## Integers -/

theorem isDigit_minus : isDigit minus = false := rfl

theorem head_ne_minus (h : Digits ds) : ds.head? ≠ some minus := by
  intro hhead
  have hdigit := h minus (List.mem_of_head? hhead)
  rw [isDigit_minus] at hdigit
  cases hdigit

theorem takeWhile_digits (h : Digits ds) : ds.takeWhile isDigit = ds :=
  List.takeWhile_eq_self_iff.mpr h

theorem parseI64_digits (h : Digits ds) (hne : ds ≠ []) :
    parseI64 ds = if Int64 (value ds) then some (value ds : ℤ) else none := by
  have hneg := head_ne_minus h
  have hdrop : ds.dropWhile isDigit = [] := List.dropWhile_eq_nil_iff.mpr h
  simp only [parseI64, fromChars, if_neg hneg, takeWhile_digits h, hdrop, hne, false_or]
  by_cases h64 : Int64 (value ds) <;> simp [h64]

theorem parseI64_minus (h : Digits ds) (hne : ds ≠ []) :
    parseI64 (minus :: ds) =
      if Int64 (-(value ds : ℤ)) then some (-(value ds : ℤ)) else none := by
  have hdrop : ds.dropWhile isDigit = [] := List.dropWhile_eq_nil_iff.mpr h
  have hhead : (minus :: ds).head? = some minus := rfl
  simp only [parseI64, fromChars, if_pos hhead, List.tail_cons, takeWhile_digits h, hdrop,
    if_neg (List.cons_ne_nil _ _), hne, false_or]
  by_cases h64 : Int64 (-(value ds : ℤ)) <;> simp [h64]

theorem value_ne_zero (h : Plain ds) (hds : ds ≠ [zero]) : value ds ≠ 0 := by
  intro hzero
  apply hds
  rw [← numeral_value h, hzero]
  rfl

theorem appendI64_of_parse (hv : parseI64 s = some v) (hs : CanonicalInt s) : appendI64 v = s := by
  rcases hs with hs | ⟨ds, rfl, hds, hne⟩
  · rw [parseI64_digits hs.2.1 hs.1, Option.ite_none_right_eq_some] at hv
    obtain rfl := Option.some.inj hv.2
    rw [appendI64, if_neg (by omega), Int.natAbs_natCast, numeral_value hs]
  · rw [parseI64_minus hds.2.1 hds.1, Option.ite_none_right_eq_some] at hv
    obtain rfl := Option.some.inj hv.2
    have hpos := value_ne_zero hds hne
    rw [appendI64, if_pos (by omega), Int.natAbs_neg, Int.natAbs_natCast, numeral_value hds]

theorem parseI64_appendI64 (hv : Int64 v) : parseI64 (appendI64 v) = some v := by
  have hdigits := digits_numeral v.natAbs
  have hne := numeral_ne_nil v.natAbs
  rw [appendI64]
  split_ifs with hneg
  · have hvalue : -((value (numeral v.natAbs) : ℕ) : ℤ) = v := by
      rw [value_numeral]
      omega
    rw [parseI64_minus hdigits hne, hvalue, if_pos hv]
  · have hvalue : ((value (numeral v.natAbs) : ℕ) : ℤ) = v := by
      rw [value_numeral]
      omega
    rw [parseI64_digits hdigits hne, hvalue, if_pos hv]

theorem canonical_appendI64 (v : ℤ) : CanonicalInt (appendI64 v) := by
  rw [appendI64]
  split_ifs with hneg
  · refine .inr ⟨_, rfl, plain_numeral _, fun hzero => ?_⟩
    have hvalue := value_numeral v.natAbs
    rw [hzero] at hvalue
    have hnone : value [zero] = 0 := rfl
    omega
  · exact .inl (plain_numeral _)

theorem int64_of_parseI64 (hv : parseI64 s = some v) : Int64 v := by
  unfold parseI64 at hv
  split_ifs at hv
  cases hfrom : fromChars s with
  | none => simp [hfrom] at hv
  | some found =>
    obtain ⟨w, rest⟩ := found
    have hw : Int64 w := by
      by_cases hneg : s.head? = some minus
      all_goals
        simp only [fromChars, hneg, if_true, if_false] at hfrom
        split_ifs at hfrom with hbad
        rw [not_or, not_not] at hbad
        exact (Prod.mk.inj (Option.some.inj hfrom)).1 ▸ hbad.2
    rw [hfrom] at hv
    cases rest with
    | nil => exact Option.some.inj hv ▸ hw
    | cons => cases hv

/-! ## Dates -/

theorem digs_eq_some {p : Bytes} {n : ℤ} (h : digs p = some n) : Digits p ∧ n = value p := by
  unfold digs at h
  split_ifs at h with hp
  exact ⟨hp, (Option.some.inj h).symm⟩

/-- What an accepted date looks like, and the number it is kept as. -/
theorem parseDate_eq_some (h : parseDate s = some v) :
    CanonicalDate s ∧
      v = value (slice s 0 4) * 10000 + value (slice s 5 2) * 100 + value (slice s 8 2) := by
  unfold parseDate at h
  split_ifs at h with hshape
  push Not at hshape
  cases hy : digs (slice s 0 4) with
  | none => simp [hy] at h
  | some =>
    cases hm : digs (slice s 5 2) with
    | none => simp [hy, hm] at h
    | some =>
      cases hd : digs (slice s 8 2) with
      | none => simp [hy, hm, hd] at h
      | some =>
        obtain ⟨hydigits, rfl⟩ := digs_eq_some hy
        obtain ⟨hmdigits, rfl⟩ := digs_eq_some hm
        obtain ⟨hddigits, rfl⟩ := digs_eq_some hd
        simp only [hy, hm, hd, Option.some.injEq] at h
        exact ⟨⟨hshape.1, hshape.2.1, hshape.2.2, hydigits, hmdigits, hddigits⟩, h.symm⟩

theorem zeroPadded_value (h : Digits ds) (hw : ds.length = w) (hpos : w ≠ 0) :
    zeroPadded w (value ds) = ds := by
  have hne : ds ≠ [] := by
    rintro rfl
    exact hpos hw.symm
  rw [zeroPadded, if_neg (by omega), Int.natAbs_natCast, ← hw, zeroFill_numeral_value h hne]

/-- Ten bytes with a dash at the fourth and the seventh are the parts of a date. -/
theorem date_parts (h : CanonicalDate s) :
    s = slice s 0 4 ++ minus :: slice s 5 2 ++ minus :: slice s 8 2 := by
  obtain ⟨hlength, hfirst, hsecond, -⟩ := h
  have hdash (i : ℕ) (hi : s[i]? = some minus) : slice s i 1 = [minus] := by
    have hlt : i < s.length := (List.getElem?_eq_some_iff.mp hi).1
    rw [slice, List.drop_eq_getElem_cons hlt, (List.getElem?_eq_some_iff.mp hi).2]
    rfl
  have hwhole : slice s 0 10 = s := by
    rw [← hlength]
    exact slice_zero_length s
  calc s = slice s 0 (4 + (1 + (2 + (1 + 2)))) := hwhole.symm
    _ = slice s 0 4 ++ (slice s 4 1 ++ (slice s 5 2 ++ (slice s 7 1 ++ slice s 8 2))) := by
      rw [slice_add, slice_add, slice_add, slice_add]
    _ = slice s 0 4 ++ minus :: slice s 5 2 ++ minus :: slice s 8 2 := by
      rw [hdash 4 hfirst, hdash 7 hsecond]
      simp

theorem date_bounds (h : CanonicalDate s) :
    value (slice s 0 4) < 10 ^ 4 ∧ value (slice s 5 2) < 10 ^ 2 ∧ value (slice s 8 2) < 10 ^ 2 := by
  obtain ⟨hlength, -, -, hy, hm, hd⟩ := h
  have hfour : (slice s 0 4).length = 4 := length_slice_of_le (by omega)
  have htwo : (slice s 5 2).length = 2 := length_slice_of_le (by omega)
  have htwo' : (slice s 8 2).length = 2 := length_slice_of_le (by omega)
  have hyear := value_lt hy
  have hmonth := value_lt hm
  have hday := value_lt hd
  rw [hfour] at hyear
  rw [htwo] at hmonth
  rw [htwo'] at hday
  exact ⟨hyear, hmonth, hday⟩

/-- **Every date that is accepted is printed back.** -/
theorem formatDate_of_parse (h : parseDate s = some v) : formatDate v = s := by
  obtain ⟨hdate, rfl⟩ := parseDate_eq_some h
  obtain ⟨hy, hm, hd⟩ := date_bounds hdate
  have hparts := date_parts hdate
  obtain ⟨hlength, -, -, hydigits, hmdigits, hddigits⟩ := hdate
  generalize hv : (value (slice s 0 4) * 10000 + value (slice s 5 2) * 100 +
    value (slice s 8 2) : ℤ) = v
  have hnonneg : 0 ≤ v := by omega
  have hyear : v.tdiv 10000 = value (slice s 0 4) := by
    rw [Int.tdiv_eq_ediv_of_nonneg hnonneg]
    omega
  have hmonth : (v.tdiv 100).tmod 100 = value (slice s 5 2) := by
    rw [Int.tdiv_eq_ediv_of_nonneg hnonneg, Int.tmod_eq_emod_of_nonneg (by omega)]
    omega
  have hday : v.tmod 100 = value (slice s 8 2) := by
    rw [Int.tmod_eq_emod_of_nonneg hnonneg]
    omega
  rw [formatDate, hyear, hmonth, hday,
    zeroPadded_value hydigits (length_slice_of_le (by omega)) (by norm_num),
    zeroPadded_value hmdigits (length_slice_of_le (by omega)) (by norm_num),
    zeroPadded_value hddigits (length_slice_of_le (by omega)) (by norm_num)]
  exact hparts.symm

theorem zeroPadded_digits (hv : 0 ≤ v) (hlt : v < 10 ^ w) (hw : w ≠ 0) :
    Digits (zeroPadded w v) ∧ (zeroPadded w v).length = w ∧ (value (zeroPadded w v) : ℤ) = v := by
  have hnat : v.natAbs < 10 ^ w := by
    zify
    rwa [abs_of_nonneg hv]
  have hlength := length_numeral_le hnat hw
  rw [zeroPadded, if_neg (by omega)]
  refine ⟨digits_zeroFill (digits_numeral _) _, ?_, ?_⟩
  · rw [length_zeroFill]
    omega
  · rw [value_zeroFill, value_numeral]
    omega

theorem parseDate_parts {y m d : Bytes} (hy : y.length = 4) (hm : m.length = 2) (hd : d.length = 2)
    (hydigits : Digits y) (hmdigits : Digits m) (hddigits : Digits d) :
    parseDate (y ++ minus :: m ++ minus :: d) =
      some ((value y : ℤ) * 10000 + value m * 100 + value d) := by
  obtain ⟨y0, y1, y2, y3, rfl⟩ := List.length_eq_four.mp hy
  obtain ⟨m0, m1, rfl⟩ := List.length_eq_two.mp hm
  obtain ⟨d0, d1, rfl⟩ := List.length_eq_two.mp hd
  simp [parseDate, digs, slice, hydigits, hmdigits, hddigits]

theorem parseDate_formatDate (hlow : 0 ≤ v) (hhigh : v ≤ 99999999) :
    parseDate (formatDate v) = some v := by
  have hyear : v.tdiv 10000 = v / 10000 := Int.tdiv_eq_ediv_of_nonneg hlow
  have hmonth : (v.tdiv 100).tmod 100 = v / 100 % 100 := by
    rw [Int.tdiv_eq_ediv_of_nonneg hlow, Int.tmod_eq_emod_of_nonneg (by omega)]
  have hday : v.tmod 100 = v % 100 := Int.tmod_eq_emod_of_nonneg hlow
  obtain ⟨hydigits, hy, hyvalue⟩ :=
    zeroPadded_digits (w := 4) (v := v / 10000) (by omega) (by omega) (by norm_num)
  obtain ⟨hmdigits, hm, hmvalue⟩ :=
    zeroPadded_digits (w := 2) (v := v / 100 % 100) (by omega) (by omega) (by norm_num)
  obtain ⟨hddigits, hd, hdvalue⟩ :=
    zeroPadded_digits (w := 2) (v := v % 100) (by omega) (by omega) (by norm_num)
  rw [formatDate, hyear, hmonth, hday, parseDate_parts hy hm hd hydigits hmdigits hddigits, hyvalue,
    hmvalue, hdvalue]
  congr 1
  omega

theorem int32_of_parseDate (h : parseDate s = some v) : Int32 v := by
  obtain ⟨hdate, rfl⟩ := parseDate_eq_some h
  obtain ⟨hy, hm, hd⟩ := date_bounds hdate
  constructor <;> omega

/-! ## Decimals -/

/-- The residue may be taken once, at the end of the loop. -/
theorem wrap128_digit (m d : ℤ) : wrap128 (wrap128 m * 10 + d) = wrap128 (m * 10 + d) := by
  unfold wrap128
  rw [← Int.bmod_add_bmod, Int.bmod_mul_bmod, Int.bmod_add_bmod]

/-- A text read as digits before a point and digits behind it. -/
structure DecBody (body ip frac : Bytes) (point : Bool) : Prop where
  whole : Digits ip
  behind : Digits frac
  unpointed : point = false → frac = []
  text : body = ip ++ if point then dot :: frac else []

/-- The locals of the loop once it has read such a text. -/
def decScanned (ip frac : Bytes) (point : Bool) : DecScan :=
  ⟨wrap128 (value (ip ++ frac)), Int.bmod frac.length (2 ^ 32), point, !(ip ++ frac).isEmpty⟩

theorem value_snoc (ds : Bytes) (c : UInt8) : value (ds ++ [c]) = value ds * 10 + digitValue c := by
  simp [value]

theorem decStep_digit {c : UInt8} (hc : isDigit c = true) (hfrac : point = false → frac = []) :
    decStep (decScanned ip frac point) c =
      some (if point then decScanned ip (frac ++ [c]) point
        else decScanned (ip ++ [c]) frac point) := by
  have hne : c ≠ dot := by
    rintro rfl
    cases hc
  rw [decStep, if_neg hne, if_pos hc]
  cases point with
  | true =>
    have hmany := wrap128_digit (value (ip ++ frac)) (digitValue c)
    have hcount : Int.bmod (Int.bmod frac.length (2 ^ 32) + 1) (2 ^ 32) =
        Int.bmod ((frac ++ [c]).length : ℕ) (2 ^ 32) := by
      simp
    simp only [decScanned, hmany, hcount, if_true, ← List.append_assoc, value_snoc]
    simp
  | false =>
    obtain rfl := hfrac rfl
    have hmany := wrap128_digit (value ip) (digitValue c)
    simp only [decScanned, List.append_nil, hmany, value_snoc]
    simp

theorem decStep_dot (ip : Bytes) :
    decStep (decScanned ip [] false) dot = some (decScanned ip [] true) := by
  simp [decStep, decScanned]

/-- What the loop accepts is read as it stands. -/
theorem foldlM_of_body (h : DecBody body ip frac point) :
    body.foldlM decStep ⟨0, 0, false, false⟩ = some (decScanned ip frac point) := by
  obtain ⟨hip, hfrac, hunpointed, rfl⟩ := h
  have hhead : ip.foldlM decStep ⟨0, 0, false, false⟩ = some (decScanned ip [] false) := by
    clear hunpointed
    induction ip using List.reverseRecOn with
    | nil => rfl
    | append_singleton ip c ih =>
      have hc : isDigit c = true := hip c (by simp)
      rw [List.foldlM_append, ih (fun b hb => hip b (List.mem_append_left _ hb)),
        Option.bind_eq_bind, Option.bind_some, List.foldlM_cons, decStep_digit hc (fun _ => rfl)]
      rfl
  cases point with
  | false =>
    obtain rfl := hunpointed rfl
    simpa using hhead
  | true =>
    rw [List.foldlM_append, hhead, Option.bind_eq_bind, Option.bind_some]
    clear hunpointed
    induction frac using List.reverseRecOn with
    | nil => simp [decStep_dot]
    | append_singleton frac c ih =>
      have hc : isDigit c = true := hfrac c (by simp)
      have hbefore := ih (fun b hb => hfrac b (List.mem_append_left _ hb))
      simp only [if_true] at hbefore ⊢
      rw [← List.cons_append, List.foldlM_append, hbefore, Option.bind_eq_bind, Option.bind_some,
        List.foldlM_cons, decStep_digit hc (fun h => by cases h)]
      rfl

/-- The loop accepts nothing but digits with at most one point. -/
theorem body_of_foldlM {st : DecScan} (h : body.foldlM decStep ⟨0, 0, false, false⟩ = some st) :
    ∃ ip frac point, DecBody body ip frac point ∧ st = decScanned ip frac point := by
  induction body using List.reverseRecOn generalizing st with
  | nil =>
    refine ⟨[], [], false, ⟨fun b hb => ?_, fun b hb => ?_, fun _ => rfl, rfl⟩, ?_⟩
    · cases hb
    · cases hb
    · exact (Option.some.inj h).symm
  | append_singleton body c ih =>
    rw [List.foldlM_append, Option.bind_eq_bind, Option.bind_eq_some_iff] at h
    obtain ⟨before, hbefore, h⟩ := h
    obtain ⟨ip, frac, point, ⟨hip, hfrac, hunpointed, rfl⟩, rfl⟩ := ih hbefore
    simp only [List.foldlM_cons, List.foldlM_nil, bind_pure] at h
    by_cases hc : isDigit c = true
    · have hone : Digits [c] := fun b hb => List.mem_singleton.mp hb ▸ hc
      rw [decStep_digit hc hunpointed] at h
      cases point with
      | true => exact ⟨ip, frac ++ [c], true, ⟨hip, hfrac.append hone, nofun,
          by simp⟩, (Option.some.inj h).symm⟩
      | false =>
        obtain rfl := hunpointed rfl
        exact ⟨ip ++ [c], [], false, ⟨hip.append hone, hfrac, fun _ => rfl, by simp⟩,
          (Option.some.inj h).symm⟩
    · by_cases hdot : c = dot
      · subst hdot
        cases point with
        | true => simp [decStep, decScanned] at h
        | false =>
          obtain rfl := hunpointed rfl
          rw [decStep_dot] at h
          exact ⟨ip, [], true, ⟨hip, hfrac, nofun, by simp⟩, (Option.some.inj h).symm⟩
      · simp [decStep, hc, hdot] at h

/-- The digits of a decimal with `ip` before and `frac` behind the point. -/
theorem zeroFill_numeral_parts (hip : Plain ip) (hfrac : Digits frac) :
    zeroFill (frac.length + 1) (numeral (value (ip ++ frac))) = ip ++ frac := by
  by_cases hzero : ip = [zero]
  · have hdigits : Digits (ip ++ frac) := hip.2.1.append hfrac
    have hlength : frac.length + 1 = (ip ++ frac).length := by
      rw [hzero]
      rfl
    rw [hlength, zeroFill_numeral_value hdigits (by simp [hip.1])]
  · have hplain : Plain (ip ++ frac) := by
      refine ⟨by simp [hip.1], hip.2.1.append hfrac, fun hhead => ?_⟩
      rw [List.head?_append_of_ne_nil _ hip.1] at hhead
      exact absurd (hip.2.2 hhead) hzero
    have hone : 1 ≤ ip.length := List.length_pos_iff.mpr hip.1
    rw [numeral_value hplain, zeroFill, List.length_append]
    have hnone : frac.length + 1 - (ip.length + frac.length) = 0 := by omega
    rw [hnone]
    rfl

theorem formatDec_parts {neg : Bool} (hip : Plain ip) (hfrac : Digits frac)
    (hlength : frac.length = scale) (hsign : m < 0 ↔ neg = true)
    (hvalue : m.natAbs = value (ip ++ frac)) :
    formatDec scale m =
      (if neg then [minus] else []) ++ (if scale = 0 then ip else ip ++ dot :: frac) := by
  have hdigits := zeroFill_numeral_parts hip hfrac
  have hlen : (ip ++ frac).length - frac.length = ip.length := by simp
  subst hlength
  simp only [formatDec, hvalue, hdigits, hlen, List.take_left, List.drop_left]
  congr 1
  · cases neg <;> simp_all
  · split_ifs with hzero
    · rw [List.length_eq_zero_iff.mp hzero, List.append_nil]
    · rfl

theorem fillScale_wrap (n : ℕ) (m : ℤ) : fillScale n (wrap128 m) = wrap128 (m * 10 ^ n) := by
  induction n generalizing m with
  | zero => simp [fillScale]
  | succ n ih =>
    have hone := wrap128_digit m 0
    simp only [add_zero] at hone
    have hnext : fillScale (n + 1) (wrap128 m) = fillScale n (wrap128 (wrap128 m * 10)) := rfl
    rw [hnext, hone, ih, pow_succ]
    congr 1
    ring

theorem wrap128_neg (m : ℤ) : wrap128 (-wrap128 m) = wrap128 (-m) := by
  unfold wrap128
  simp

/-- The signs a decimal's text may start with. -/
def Sign (sign : Bytes) : Prop := sign = [] ∨ sign = [plus] ∨ sign = [minus]

/-- The number a sign makes of a magnitude. -/
def signed (sign : Bytes) (n : ℤ) : ℤ := if sign = [minus] then -n else n

theorem DecBody.head (h : DecBody body ip frac point) :
    body.head? ≠ some minus ∧ body.head? ≠ some plus := by
  have hfirst (c : UInt8) (hc : isDigit c = false) (hdot : c ≠ dot) : body.head? ≠ some c := by
    intro hhead
    rw [h.text] at hhead
    cases hip : ip with
    | nil =>
      rw [hip, List.nil_append] at hhead
      cases hp : point with
      | true =>
        rw [hp] at hhead
        exact hdot (Option.some.inj hhead).symm
      | false =>
        rw [hp] at hhead
        cases hhead
    | cons b =>
      rw [hip] at hhead
      have hb := h.whole b (by simp [hip])
      rw [Option.some.inj hhead, hc] at hb
      cases hb
  exact ⟨hfirst minus rfl (by decide), hfirst plus rfl (by decide)⟩

theorem parseDecScaled_of_scan {fdig : ℤ} {neg : Bool} (scale : ℕ) (hne : s ≠ [])
    (hneg : s.head? = some minus ↔ neg = true)
    (hbody : (if s.head? = some minus ∨ s.head? = some plus then s.tail else s) = body)
    (hscan : body.foldlM decStep ⟨0, 0, false, false⟩ = some ⟨m, fdig, point, true⟩) :
    parseDecScaled s scale =
      if (scale : ℤ) < fdig then none
      else
        let m := fillScale ((scale : ℤ) - fdig).toNat m
        let m := if neg then wrap128 (-m) else m
        if Int64 m then some m else none := by
  rw [parseDecScaled, if_neg hne]
  simp only [hbody, hscan, Bool.true_eq_false, if_false]
  simp only [hneg]

/-- The sign is told from the first byte, which no body starts with. -/
theorem parseDecScaled_signed {sign : Bytes} (scale : ℕ) (hsign : Sign sign)
    (h : DecBody body ip frac point) (hne : ip ++ frac ≠ []) :
    parseDecScaled (sign ++ body) scale =
      if (scale : ℤ) < Int.bmod frac.length (2 ^ 32) then none
      else
        let m := wrap128 (signed sign
          (value (ip ++ frac) * 10 ^ ((scale : ℤ) - Int.bmod frac.length (2 ^ 32)).toNat))
        if Int64 m then some m else none := by
  have hsome : body ≠ [] := by
    intro hnil
    have htext := h.text
    rw [hnil] at htext
    obtain ⟨hip, hrest⟩ := List.append_eq_nil_iff.mp htext.symm
    cases hp : point with
    | true => simp [hp] at hrest
    | false => exact hne (by rw [hip, h.unpointed hp]; rfl)
  have hany : (!(ip ++ frac).isEmpty) = true := by simpa using hne
  have hscan := foldlM_of_body h
  rw [decScanned, hany] at hscan
  have hlead (neg : Bool) (hneg : (sign ++ body).head? = some minus ↔ neg = true)
      (hrest : (if (sign ++ body).head? = some minus ∨ (sign ++ body).head? = some plus then
        (sign ++ body).tail else sign ++ body) = body) :=
    parseDecScaled_of_scan scale (List.append_ne_nil_of_right_ne_nil sign hsome) hneg hrest hscan
  simp only [fillScale_wrap] at hlead
  rcases hsign with rfl | rfl | rfl
  · rw [hlead false (by simp [h.head]) (by simp [h.head])]
    simp only [signed, if_neg (List.cons_ne_nil minus []).symm, Bool.false_eq_true, if_false]
  · have hplus : plus ≠ minus := by decide
    rw [hlead false (by simp [hplus]) (by simp)]
    simp only [signed, List.cons.injEq, hplus, false_and, Bool.false_eq_true, if_false]
  · rw [hlead true (by simp) (by simp)]
    simp only [signed, if_true, wrap128_neg]

/-- **A decimal text and its exact value in units of `10 ^ -scale`.** It is an
optional sign and at least one digit, with at most one point before, among or
behind the digits and no more than `scale` digits behind the point. -/
def DecimalText (s : Bytes) (scale : ℕ) (v : ℤ) : Prop :=
  ∃ (sign body ip frac : Bytes) (point : Bool), Sign sign ∧ DecBody body ip frac point ∧
    s = sign ++ body ∧ ip ++ frac ≠ [] ∧ frac.length ≤ scale ∧
    v = signed sign (value (ip ++ frac) * 10 ^ (scale - frac.length))

/-- What is accepted is a sign and digits with at most one point. -/
theorem decBody_of_parse (h : parseDecScaled s scale = some m) :
    ∃ (sign body ip frac : Bytes) (point : Bool), Sign sign ∧ DecBody body ip frac point ∧
      s = sign ++ body ∧ ip ++ frac ≠ [] := by
  rw [parseDecScaled, Option.ite_none_left_eq_some] at h
  obtain ⟨hne, h⟩ := h
  obtain ⟨c, cs, rfl⟩ := List.exists_cons_of_ne_nil hne
  dsimp only at h
  split at h
  · cases h
  · rename_i st hscan
    rw [Option.ite_none_left_eq_some] at h
    obtain ⟨ip, frac, point, hbody, rfl⟩ := body_of_foldlM hscan
    have hany : ip ++ frac ≠ [] := by simpa [decScanned] using h.1
    by_cases hsigned : c = minus ∨ c = plus
    · rw [if_pos (by simpa using hsigned)] at hbody
      exact ⟨[c], cs, ip, frac, point, by simpa [Sign, or_comm] using hsigned, hbody, rfl, hany⟩
    · rw [if_neg (by simpa using hsigned)] at hbody
      exact ⟨[], c :: cs, ip, frac, point, .inl rfl, hbody, rfl, hany⟩

theorem DecBody.bmod_length (h : DecBody body ip frac point) (hlength : body.length < 2 ^ 31) :
    Int.bmod frac.length (2 ^ 32) = frac.length := by
  have hle : frac.length ≤ body.length := by
    rw [h.text, List.length_append]
    cases hp : point with
    | true =>
      rw [if_pos rfl, List.length_cons]
      omega
    | false =>
      rw [h.unpointed hp]
      exact Nat.zero_le _
  exact Int.bmod_eq_of_le (by omega) (by omega)

/-- A text no longer than the counter of its fraction digits has room for is kept
as the residue of its exact value, where that fits the cell. -/
theorem parseDecScaled_text (hlength : s.length < 2 ^ 31) (h : DecimalText s scale v) :
    parseDecScaled s scale = if Int64 (wrap128 v) then some (wrap128 v) else none := by
  obtain ⟨sign, body, ip, frac, point, hsign, hbody, rfl, hne, hle, rfl⟩ := h
  have hcount : Int.bmod frac.length (2 ^ 32) = frac.length :=
    hbody.bmod_length (by rw [List.length_append] at hlength; omega)
  have hfill : ((scale : ℤ) - frac.length).toNat = scale - frac.length := by omega
  rw [parseDecScaled_signed scale hsign hbody hne, hcount, hfill, if_neg (by omega)]

theorem decimalText_of_parse (hlength : s.length < 2 ^ 31) (h : parseDecScaled s scale = some m) :
    ∃ v, DecimalText s scale v := by
  obtain ⟨sign, body, ip, frac, point, hsign, hbody, rfl, hne⟩ := decBody_of_parse h
  have hcount : Int.bmod frac.length (2 ^ 32) = frac.length :=
    hbody.bmod_length (by rw [List.length_append] at hlength; omega)
  rw [parseDecScaled_signed scale hsign hbody hne, hcount, Option.ite_none_left_eq_some] at h
  exact ⟨_, sign, body, ip, frac, point, hsign, hbody, rfl, hne, by omega, rfl⟩

theorem wrap128_of_int64 (h : Int64 v) : wrap128 v = v := by
  obtain ⟨hlow, hhigh⟩ := h
  exact Int.bmod_eq_of_le (by omega) (by omega)

/-- A decimal spelled as it is printed is kept as its value. -/
theorem parseDecScaled_printed (neg : Bool) (hscale : scale < 128) (hip : Plain ip)
    (hfrac : Digits frac) (hlength : frac.length = scale)
    (hrange : Int64 (if neg then -(value (ip ++ frac) : ℤ) else value (ip ++ frac))) :
    parseDecScaled ((if neg then [minus] else []) ++
        (if scale = 0 then ip else ip ++ dot :: frac)) scale =
      some (if neg then -(value (ip ++ frac) : ℤ) else value (ip ++ frac)) := by
  have hsmall : value ip < 10 ^ 20 := by
    have hle : value ip * 1 ≤ value ip * 10 ^ frac.length :=
      Nat.mul_le_mul_left _ (Nat.one_le_pow _ _ (by norm_num))
    have hsplit := value_append ip frac
    obtain ⟨hlow, hhigh⟩ := hrange
    split_ifs at hlow hhigh <;> omega
  have hsize : ip.length ≤ 20 := by
    rw [← numeral_value hip]
    exact length_numeral_le hsmall (by norm_num)
  have hbody : DecBody (if scale = 0 then ip else ip ++ dot :: frac) ip frac (scale ≠ 0) := by
    refine ⟨hip.2.1, hfrac, fun hzero => ?_, ?_⟩
    · exact List.length_eq_zero_iff.mp (hlength.trans (by simpa using hzero))
    · by_cases hzero : scale = 0 <;> simp [hzero]
  have hbound : (if scale = 0 then ip else ip ++ dot :: frac).length ≤ 21 + scale := by
    split_ifs
    · omega
    · rw [List.length_append, List.length_cons]
      omega
  have htext : DecimalText ((if neg then [minus] else []) ++
      (if scale = 0 then ip else ip ++ dot :: frac)) scale
      (if neg then -(value (ip ++ frac) : ℤ) else value (ip ++ frac)) := by
    refine ⟨_, _, ip, frac, _, ?_, hbody, rfl, by simp [hip.1], hlength.le, ?_⟩
    · cases neg <;> simp [Sign]
    · cases neg <;> simp [signed, hlength]
  rw [parseDecScaled_text _ htext, wrap128_of_int64 hrange, if_pos hrange]
  rw [List.length_append]
  cases neg
  · rw [if_neg Bool.false_ne_true, List.length_nil]
    omega
  · rw [if_pos rfl, List.length_singleton]
    omega

theorem formatDec_of_parse (hscale : scale < 128) (hm : parseDecScaled s scale = some m)
    (hs : CanonicalDec scale s) : formatDec scale m = s := by
  obtain ⟨neg, ip, frac, hip, hfrac, hlength, rfl, hrange⟩ := hs
  have h64 : Int64 (if neg then -(value (ip ++ frac) : ℤ) else value (ip ++ frac)) := by
    unfold Int64
    cases neg
    · simp only [Bool.false_eq_true, if_false] at hrange ⊢
      omega
    · simp only [if_true] at hrange ⊢
      omega
  rw [parseDecScaled_printed neg hscale hip hfrac hlength h64] at hm
  obtain rfl := Option.some.inj hm
  apply formatDec_parts hip hfrac hlength
  · cases neg
    · simp
    · simp only [if_true, iff_true] at hrange ⊢
      omega
  · split_ifs <;> omega

theorem int64_of_parseDecScaled (hm : parseDecScaled s scale = some m) : Int64 m := by
  unfold parseDecScaled at hm
  rw [Option.ite_none_left_eq_some] at hm
  obtain ⟨-, hm⟩ := hm
  dsimp only at hm
  split at hm
  · cases hm
  · rw [Option.ite_none_left_eq_some, Option.ite_none_left_eq_some,
      Option.ite_none_right_eq_some] at hm
    obtain ⟨-, -, h64, hm⟩ := hm
    exact Option.some.inj hm ▸ h64

/-- A decimal is printed with as many digits behind the point as its scale and a
number without a superfluous zero before it. -/
theorem formatDec_shape (scale : ℕ) (m : ℤ) :
    ∃ ip frac : Bytes, Plain ip ∧ Digits frac ∧ frac.length = scale ∧
      value (ip ++ frac) = m.natAbs ∧
      formatDec scale m =
        (if m < 0 then [minus] else []) ++ (if scale = 0 then ip else ip ++ dot :: frac) := by
  have hlength := length_zeroFill (scale + 1) (numeral m.natAbs)
  have hdigits := digits_zeroFill (digits_numeral m.natAbs) (scale + 1)
  have hvalue := value_zeroFill (scale + 1) (numeral m.natAbs)
  rw [value_numeral] at hvalue
  generalize hds : zeroFill (scale + 1) (numeral m.natAbs) = ds at hlength hdigits hvalue
  refine ⟨ds.take (ds.length - scale), ds.drop (ds.length - scale), ⟨?_, ?_, ?_⟩, ?_, ?_, ?_, ?_⟩
  · intro hnil
    rw [List.take_eq_nil_iff] at hnil
    rcases hnil with hnil | rfl
    · omega
    · rw [List.length_nil] at hlength
      omega
  · exact fun b hb => hdigits b (List.mem_of_mem_take hb)
  · intro hhead
    -- a zero in front is one that was filled in, or the whole number
    by_cases hlong : scale + 1 ≤ (numeral m.natAbs).length
    · have hsame : ds = numeral m.natAbs := by
        rw [← hds, zeroFill, Nat.sub_eq_zero_of_le hlong]
        rfl
      have hfirst : (numeral m.natAbs).head? = some zero := by
        rw [← hsame]
        rw [List.head?_take] at hhead
        split_ifs at hhead
        exact hhead
      have hlone := (plain_numeral m.natAbs).2.2 hfirst
      rw [hlone] at hlong
      have hscale : scale = 0 := by
        simp at hlong
        exact hlong
      rw [hsame, hlone, hscale]
      rfl
    · have hone : ds.length - scale = 1 := by omega
      obtain ⟨b, bs, rfl⟩ := List.exists_cons_of_ne_nil (l := ds) (by
        rintro rfl
        simp at hone)
      rw [hone] at hhead ⊢
      simpa using hhead
  · exact fun b hb => hdigits b (List.mem_of_mem_drop hb)
  · rw [List.length_drop]
    omega
  · rw [List.take_append_drop, hvalue]
  · simp only [formatDec, hds]
    congr 1
    split_ifs with hscale
    · rw [hscale, Nat.sub_zero, List.take_length]
    · rfl

/-- Whatever is printed is canonical. -/
theorem canonical_formatDec (hm : Int64 m) : CanonicalDec scale (formatDec scale m) := by
  obtain ⟨hlow, hhigh⟩ := hm
  obtain ⟨ip, frac, hip, hfrac, hlength, hvalue, hprinted⟩ := formatDec_shape scale m
  refine ⟨decide (m < 0), ip, frac, hip, hfrac, hlength, by simpa using hprinted, ?_⟩
  rw [hvalue]
  by_cases hneg : m < 0
  · simp only [hneg, decide_true, if_true]
    omega
  · simp only [hneg, decide_false, Bool.false_eq_true, if_false]
    omega

theorem parseDecScaled_formatDec (hscale : scale < 128) (hm : Int64 m) :
    parseDecScaled (formatDec scale m) scale = some m := by
  obtain ⟨ip, frac, hip, hfrac, hlength, hvalue, hprinted⟩ := formatDec_shape scale m
  have hm' : (if decide (m < 0) then -(value (ip ++ frac) : ℤ) else value (ip ++ frac)) = m := by
    rw [hvalue]
    by_cases hneg : m < 0
    · simp only [hneg, decide_true, if_true]
      omega
    · simp only [hneg, decide_false, Bool.false_eq_true, if_false]
      omega
  have hparse := parseDecScaled_printed (decide (m < 0)) hscale hip hfrac hlength (hm'.symm ▸ hm)
  rw [hm'] at hparse
  simpa [hprinted] using hparse

/-! ## Exact decimals -/

/-- A decimal text at a scale is read exactly: it is accepted as its exact scaled
value if that fits the cell, and nothing else is accepted. -/
def ExactDecimal (s : Bytes) (scale : ℕ) : Prop :=
  (∀ m, parseDecScaled s scale = some m →
    (∃ v, DecimalText s scale v) ∧ ∀ v, DecimalText s scale v → m = v ∧ Int64 v) ∧
  ∀ v, DecimalText s scale v → Int64 v → parseDecScaled s scale = some v

/-- The text `340282366920938463463374607431768211456`, which is `2 ^ 128`. -/
def wrappedText : Bytes := numeral (2 ^ 128)

theorem decimalText_wrapped : DecimalText wrappedText 0 (2 ^ 128) := by
  refine ⟨[], wrappedText, wrappedText, [], false, .inl rfl,
    ⟨digits_numeral _, fun b hb => ?_, fun _ => rfl, ?_⟩, rfl, ?_, le_rfl, ?_⟩
  · cases hb
  · simp
  · rw [List.append_nil]
    exact numeral_ne_nil _
  · rw [List.append_nil, wrappedText, value_numeral]
    rfl

/-- The accumulator comes round to zero, which fits. -/
theorem wrapped_decimal_accepted :
    parseDecScaled wrappedText 0 = some 0 ∧ ¬ ExactDecimal wrappedText 0 := by
  have hparse : parseDecScaled wrappedText 0 = some 0 := by decide +kernel
  refine ⟨hparse, fun hexact => ?_⟩
  obtain ⟨hzero, -⟩ := (hexact.1 0 hparse).2 _ decimalText_wrapped
  norm_num at hzero

/-- **Decimals are read exactly where the accumulator does not come round.** A
text is read exactly unless its exact scaled value lies within the range of a
cell around a multiple of `2 ^ 128` other than zero. -/
theorem exactDecimal_iff {s : Bytes} {scale : ℕ} (hlength : s.length < 2 ^ 31) :
    ExactDecimal s scale ↔
      ∀ v, DecimalText s scale v → ∀ q : ℤ, q ≠ 0 → ¬ Int64 (v - q * 2 ^ 128) := by
  constructor
  · intro hexact v hv q hq hround
    have hwrap : wrap128 v = v - q * 2 ^ 128 := by
      have hsame : wrap128 (v - q * 2 ^ 128) = wrap128 v :=
        Int.sub_mul_bmod_self_right v q (2 ^ 128)
      rw [← hsame, wrap128_of_int64 hround]
    have hparse : parseDecScaled s scale = some (v - q * 2 ^ 128) := by
      rw [parseDecScaled_text hlength hv, hwrap, if_pos hround]
    obtain ⟨hvalue, -⟩ := (hexact.1 _ hparse).2 v hv
    omega
  · intro hround
    have hwrap (v : ℤ) (hv : DecimalText s scale v) (h64 : Int64 (wrap128 v)) : wrap128 v = v := by
      have hquotient : wrap128 v = v - Int.bdiv v (2 ^ 128) * 2 ^ 128 := by
        have hsum : wrap128 v + 2 ^ 128 * Int.bdiv v (2 ^ 128) = v := Int.bmod_add_bdiv v (2 ^ 128)
        omega
      by_cases hzero : Int.bdiv v (2 ^ 128) = 0
      · rw [hquotient, hzero]
        omega
      · exact absurd (hquotient ▸ h64) (hround v hv _ hzero)
    constructor
    · intro m hm
      refine ⟨decimalText_of_parse hlength hm, fun v hv => ?_⟩
      rw [parseDecScaled_text hlength hv, Option.ite_none_right_eq_some] at hm
      have hvalue := hwrap v hv hm.1
      exact ⟨(Option.some.inj hm.2).symm.trans hvalue, hvalue ▸ hm.1⟩
    · intro v hv h64
      rw [parseDecScaled_text hlength hv, wrap128_of_int64 h64, if_pos h64]

theorem DecimalText.natAbs_lt (h : DecimalText s scale v) : v.natAbs < 10 ^ (s.length + scale) := by
  obtain ⟨sign, body, ip, frac, point, -, hbody, rfl, -, hle, rfl⟩ := h
  have hdigits : (ip ++ frac).length ≤ (sign ++ body).length := by
    have hunpointed := hbody.unpointed
    rw [hbody.text]
    cases point <;> simp_all
    omega
  have hvalue := value_lt (hbody.whole.append hbody.behind)
  have hmagnitude : (signed sign (value (ip ++ frac) * 10 ^ (scale - frac.length))).natAbs =
      value (ip ++ frac) * 10 ^ (scale - frac.length) := by
    unfold signed
    split_ifs <;> simp [Int.natAbs_mul, Int.natAbs_pow]
  rw [hmagnitude, pow_add]
  calc value (ip ++ frac) * 10 ^ (scale - frac.length)
      < 10 ^ (ip ++ frac).length * 10 ^ (scale - frac.length) :=
        Nat.mul_lt_mul_of_pos_right hvalue (by positivity)
    _ ≤ 10 ^ (sign ++ body).length * 10 ^ scale :=
        Nat.mul_le_mul (Nat.pow_le_pow_right (by norm_num) hdigits)
          (Nat.pow_le_pow_right (by norm_num) (Nat.sub_le _ _))

/-- The text `1.5` at two digits behind the point. -/
theorem exactDecimal_iff_short : ExactDecimal [49, dot, 53] 2 := by
  refine (exactDecimal_iff (by decide)).mpr fun v hv q hq hround => ?_
  have hsmall := hv.natAbs_lt
  obtain ⟨hlow, hhigh⟩ := hround
  simp only [List.length_cons, List.length_nil] at hsmall
  omega

/-! ## Cells -/

theorem signedAt_toBits (hw : w ≤ 8) (hlow : -(256 ^ w : ℕ) ≤ 2 * v)
    (hhigh : 2 * v < (256 ^ w : ℕ)) : signedAt w (putLe w (toBits v)) = v := by
  have hdvd : ((256 ^ w : ℕ) : ℤ) ∣ 2 ^ 64 := by
    have hpow : (2 : ℤ) ^ 64 = ((256 ^ 8 : ℕ) : ℤ) := by norm_num
    rw [hpow]
    exact_mod_cast Nat.pow_dvd_pow 256 hw
  have hcast : ((toBits v : ℕ) : ℤ) = v % 2 ^ 64 := Int.toNat_of_nonneg (by omega)
  have htake : (putLe w (toBits v)).take w = putLe w (toBits v) := by simp
  have hmod : ((getLe (putLe w (toBits v)) : ℕ) : ℤ) = v % (256 ^ w : ℕ) := by
    rw [getLe_putLe_mod, Int.natCast_mod, hcast, Int.emod_emod_of_dvd _ hdvd]
  rw [signedAt, htake, hmod, Int.emod_bmod]
  exact Int.bmod_eq_of_le (by omega) (by omega)

theorem signedAt_int64 (h : Int64 v) : signedAt 8 (putLe 8 (toBits v)) = v := by
  obtain ⟨hlow, hhigh⟩ := h
  exact signedAt_toBits le_rfl (by norm_num at hlow ⊢; omega) (by norm_num at hhigh ⊢; omega)

theorem signedAt_int32 (h : Int32 v) : signedAt 4 (putLe 4 (toBits v)) = v := by
  obtain ⟨hlow, hhigh⟩ := h
  exact signedAt_toBits (by norm_num) (by norm_num at hlow ⊢; omega) (by norm_num at hhigh ⊢; omega)

/-- **A typed field is printed back exactly if it was spelled canonically.** -/
theorem format_parse {kind : FieldKind} {bits : ℕ} (hscale : scale < 128) (hw : kind.width = some w)
    (hbits : parseTyped kind scale s = some bits) :
    formatTyped kind scale (putLe w bits) = s ↔ CanonicalValue kind scale s := by
  cases kind with
  | untyped => cases hw
  | int32 =>
    obtain rfl := Option.some.inj hw
    simp only [parseTyped] at hbits
    cases hv : parseI64 s with
    | none => simp [hv] at hbits
    | some v =>
      simp only [hv] at hbits
      split_ifs at hbits with h32
      obtain rfl := Option.some.inj hbits
      simp only [formatTyped, signedAt_int32 h32, CanonicalValue]
      exact ⟨fun h => h ▸ canonical_appendI64 v, appendI64_of_parse hv⟩
  | int64 =>
    obtain rfl := Option.some.inj hw
    obtain ⟨v, hv, rfl⟩ := Option.map_eq_some_iff.mp hbits
    simp only [formatTyped, signedAt_int64 (int64_of_parseI64 hv), CanonicalValue]
    exact ⟨fun h => h ▸ canonical_appendI64 v, appendI64_of_parse hv⟩
  | date =>
    obtain rfl := Option.some.inj hw
    obtain ⟨v, hv, rfl⟩ := Option.map_eq_some_iff.mp hbits
    simp only [formatTyped, signedAt_int32 (int32_of_parseDate hv), CanonicalValue]
    exact ⟨fun _ => (parseDate_eq_some hv).1, fun _ => formatDate_of_parse hv⟩
  | dec64 =>
    obtain rfl := Option.some.inj hw
    obtain ⟨m, hm, rfl⟩ := Option.map_eq_some_iff.mp hbits
    have h64 := int64_of_parseDecScaled hm
    simp only [formatTyped, signedAt_int64 h64, CanonicalValue]
    exact ⟨fun h => h ▸ canonical_formatDec h64, formatDec_of_parse hscale hm⟩

/-! ## Printing and parsing back -/

/-- The numbers a typed cell of each kind is printed for. -/
def Storable (kind : FieldKind) (v : ℤ) : Prop :=
  match kind with
  | .untyped => False
  | .int32 => Int32 v
  | .int64 => Int64 v
  | .date => 0 ≤ v ∧ v ≤ 99999999
  | .dec64 => Int64 v

theorem parse_format {kind : FieldKind} (hscale : scale < 128) (hw : kind.width = some w)
    (hv : Storable kind v) :
    parseTyped kind scale (formatTyped kind scale (putLe w (toBits v))) = some (toBits v) := by
  cases kind with
  | untyped => cases hw
  | int32 =>
    obtain rfl := Option.some.inj hw
    have h32 : Int32 v := hv
    have h64 : Int64 v := by
      obtain ⟨hlow, hhigh⟩ := h32
      constructor <;> omega
    have hparse := parseI64_appendI64 h64
    rw [formatTyped, signedAt_int32 h32]
    simp [parseTyped, hparse, h32]
  | int64 =>
    obtain rfl := Option.some.inj hw
    have h64 : Int64 v := hv
    simp only [formatTyped, parseTyped, signedAt_int64 h64, parseI64_appendI64 h64, Option.map_some]
  | date =>
    obtain rfl := Option.some.inj hw
    obtain ⟨hlow, hhigh⟩ : 0 ≤ v ∧ v ≤ 99999999 := hv
    have h32 : Int32 v := ⟨by omega, by omega⟩
    simp only [formatTyped, parseTyped, signedAt_int32 h32, parseDate_formatDate hlow hhigh,
      Option.map_some]
  | dec64 =>
    obtain rfl := Option.some.inj hw
    have h64 : Int64 v := hv
    simp only [formatTyped, parseTyped, signedAt_int64 h64, parseDecScaled_formatDec hscale h64,
      Option.map_some]

/-- **Typed cells print to texts that parse back to the same cell.** A printed
decimal has as many digits behind its point as its scale says and a number
without a superfluous zero before it, and cells that differ print differently. -/
theorem typed_cells_parse_back {kind : FieldKind} {scale w : ℕ} {v : ℤ} (hscale : scale < 128)
    (hw : kind.width = some w) (hv : Storable kind v) :
    parseTyped kind scale (formatTyped kind scale (putLe w (toBits v))) = some (toBits v) ∧
    (kind = .dec64 → ∃ ip frac : Bytes, Plain ip ∧ Digits frac ∧ frac.length = scale ∧
      formatTyped kind scale (putLe w (toBits v)) =
        (if v < 0 then [minus] else []) ++ (if scale = 0 then ip else ip ++ dot :: frac)) ∧
    ∀ v', Storable kind v' → putLe w (toBits v) ≠ putLe w (toBits v') →
      formatTyped kind scale (putLe w (toBits v)) ≠
        formatTyped kind scale (putLe w (toBits v')) := by
  refine ⟨parse_format hscale hw hv, ?_, ?_⟩
  · rintro rfl
    obtain rfl := Option.some.inj hw
    have h64 : Int64 v := hv
    obtain ⟨ip, frac, hip, hfrac, hlength, -, hprinted⟩ := formatDec_shape scale v
    refine ⟨ip, frac, hip, hfrac, hlength, ?_⟩
    rw [formatTyped, signedAt_int64 h64]
    exact hprinted
  · intro v' hv' hcells hsame
    have hbits := parse_format hscale hw hv
    rw [hsame, parse_format hscale hw hv'] at hbits
    exact hcells (congrArg (putLe w) (Option.some.inj hbits).symm)

/-- The decimal `-0.07`. -/
theorem typed_cells_parse_back_negative :
    parseTyped .dec64 2 [minus, zero, dot, zero, 55] = some (toBits (-7)) := by
  have hprinted : formatTyped .dec64 2 (putLe 8 (toBits (-7))) = [minus, zero, dot, zero, 55] := by
    decide +kernel
  have hseven : Storable .dec64 (-7) := ⟨by decide, by decide⟩
  rw [← hprinted]
  exact (typed_cells_parse_back (w := 8) (by decide) rfl hseven).1

end LineairDB.Pax
