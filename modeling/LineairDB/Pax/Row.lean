import LineairDB.Pax.Codec

/-!
# Proxy rows

A row is a sequence of fields. Each is a byte that tells how many bytes its
length takes, the length, least significant byte first, and the payload; a lone
`0xFF` is a field without a value. The reader takes any length prefix of up to
four bytes, the writer uses the shortest one.

* `eq_of_parseRow` — fields written with the shortest prefixes are read back.
* `CanonicalRow` — the rows whose fields are spelled as the writer spells them.
-/

namespace LineairDB.Pax

open ByteFile Decimal

/-! ## Schemas -/

/-- The fields a table keeps in strips: the width of each field's cell and, where
the table has typed cells at all, the kinds and the scales of its decimals. -/
structure TableSchema where
  fieldMaxBytes : List ℕ
  fieldKind : List FieldKind
  fieldScale : List ℕ
  kinds : fieldKind = [] ∨ fieldKind.length = fieldMaxBytes.length
  width_lt : ∀ w ∈ fieldMaxBytes, w < 2 ^ 32
  scale_lt : ∀ s ∈ fieldScale, s < 128
  typed_width : ∀ (f : ℕ) (kind : FieldKind) (w : ℕ), fieldKind[f]? = some kind →
    kind.width = some w → fieldMaxBytes[f]? = some w

namespace TableSchema

variable (schema : TableSchema)

/-- The number of fields. -/
def fieldCount : ℕ := schema.fieldMaxBytes.length

/-- A table without kinds, and any field it names none for, is untyped. -/
def kindOf (f : ℕ) : FieldKind := (schema.fieldKind[f]?).getD .untyped

/-- The scale of a field. -/
def scaleOf (f : ℕ) : ℕ := (schema.fieldScale[f]?).getD 0

/-- The width of a field. -/
def maxBytes (f : ℕ) : ℕ := (schema.fieldMaxBytes[f]?).getD 0

theorem scaleOf_lt (f : ℕ) : schema.scaleOf f < 128 := by
  rw [scaleOf]
  cases h : schema.fieldScale[f]? with
  | none => exact Nat.succ_pos _
  | some s => exact schema.scale_lt s (List.mem_of_getElem? h)

/-- The cell of a typed field is as wide as its kind's binary. -/
theorem maxBytes_of_typed {f w : ℕ} (h : (schema.kindOf f).width = some w) :
    schema.maxBytes f = w := by
  rw [kindOf] at h
  cases hkind : schema.fieldKind[f]? with
  | none =>
    rw [hkind] at h
    cases h
  | some kind =>
    rw [hkind] at h
    rw [maxBytes, schema.typed_width f kind w hkind h]
    rfl

end TableSchema

/-! ## Fields -/

/-- The bytes a length takes in base 256. -/
def lengthPrefixBytes (len : ℕ) : ℕ := (Nat.digits 256 len).length

/-- The field has no value. -/
def kNoValue : UInt8 := 0xFF

/-- A present field as the writer spells it. -/
def presentField (value : Bytes) : Bytes :=
  UInt8.ofNat (lengthPrefixBytes value.length) ::
    putLe (lengthPrefixBytes value.length) value.length ++ value

/-- A field, present or not. -/
def encodeField (value : Bytes) : Bytes :=
  if value = [] then [kNoValue] else presentField value

/-- A row. -/
def encodeRow (values : List Bytes) : Bytes := (values.map encodeField).flatten

/-- The payload of the field at the front of a row and what is behind it. -/
def parseField : Bytes → Option (Bytes × Bytes)
  | [] => none
  | byteSize :: rest =>
    if byteSize = kNoValue then some ([], rest)
    else if 4 < byteSize.toNat ∨ rest.length < byteSize.toNat then none
    else
      let len := getLe (rest.take byteSize.toNat)
      let rest := rest.drop byteSize.toNat
      if rest.length < len then none else some (rest.take len, rest.drop len)

/-- The payloads of a row's fields, or nothing where it is malformed or has more
than `maxFields` of them. -/
def parseRow : ℕ → Bytes → Option (List Bytes)
  | _, [] => some []
  | 0, _ :: _ => none
  | maxFields + 1, b :: bs =>
    match parseField (b :: bs) with
    | none => none
    | some (payload, rest) =>
      match parseRow maxFields rest with
      | none => none
      | some refs => some (payload :: refs)

/-- Every field is spelled as the writer spells it: the shortest length prefix,
`0xFF` where there is no value, a typed value canonically. -/
def CanonicalRow (schema : TableSchema) (row : Bytes) : Prop :=
  ∃ values : List Bytes, row = encodeRow values ∧ ∀ f v, values[f]? = some v →
    v.length < 2 ^ 32 ∧ (v ≠ [] → CanonicalValue (schema.kindOf f) (schema.scaleOf f) v)

/-! ## Reading back what is written -/

theorem lengthPrefixBytes_le {len k : ℕ} (h : len < 256 ^ k) : lengthPrefixBytes len ≤ k :=
  (Nat.digits_length_le_iff (by norm_num) len).mpr h

/-- A length prefix need not be the shortest one. -/
theorem parseField_prefixed {k : ℕ} {value : Bytes} (rest : Bytes) (hk : k ≤ 4)
    (hfits : value.length < 256 ^ k) :
    parseField (UInt8.ofNat k :: (putLe k value.length ++ value ++ rest)) = some (value, rest) := by
  have hsize : (UInt8.ofNat k).toNat = k := by
    rw [UInt8.toNat_ofNat']
    omega
  have hpresent : UInt8.ofNat k ≠ kNoValue := by
    intro h
    rw [h] at hsize
    have hnone : kNoValue.toNat = 255 := rfl
    omega
  have htake : (putLe k value.length ++ value ++ rest).take k = putLe k value.length := by
    rw [List.append_assoc]
    exact List.take_left' (length_putLe _ _)
  have hdrop : (putLe k value.length ++ value ++ rest).drop k = value ++ rest := by
    rw [List.append_assoc]
    exact List.drop_left' (length_putLe _ _)
  have hlen : ¬ (4 < k ∨ (putLe k value.length ++ value ++ rest).length < k) := by
    simp only [List.length_append, length_putLe]
    omega
  rw [parseField, if_neg hpresent, hsize, if_neg hlen]
  simp only [htake, hdrop, getLe_putLe hfits, List.take_left, List.drop_left, List.length_append]
  rw [if_neg (by omega)]

theorem parseField_encodeField {value : Bytes} (rest : Bytes) (h : value.length < 2 ^ 32) :
    parseField (encodeField value ++ rest) = some (value, rest) := by
  rw [encodeField]
  split_ifs with hnil
  · rw [hnil]
    rfl
  · have hfits : value.length < 256 ^ lengthPrefixBytes value.length :=
      Nat.lt_base_pow_length_digits (by norm_num)
    exact parseField_prefixed rest (lengthPrefixBytes_le (by omega)) hfits

theorem encodeField_ne_nil (value : Bytes) : encodeField value ≠ [] := by
  rw [encodeField]
  split_ifs <;> exact List.cons_ne_nil _ _

theorem encodeRow_cons (value : Bytes) (values : List Bytes) :
    encodeRow (value :: values) = encodeField value ++ encodeRow values := rfl

theorem parseRow_succ {n : ℕ} {row : Bytes} (h : row ≠ []) :
    parseRow (n + 1) row = (parseField row).bind fun found =>
      (parseRow n found.2).map (found.1 :: ·) := by
  obtain ⟨b, bs, rfl⟩ := List.exists_cons_of_ne_nil h
  rw [parseRow]
  cases parseField (b :: bs) with
  | none => rfl
  | some found =>
    dsimp only [Option.bind_some]
    cases parseRow n found.2 <;> rfl

/-- **Fields written with the shortest prefixes are read back.** -/
theorem eq_of_parseRow {values refs : List Bytes} {n : ℕ}
    (hlengths : ∀ v ∈ values, v.length < 2 ^ 32)
    (hparsed : parseRow n (encodeRow values) = some refs) : refs = values := by
  induction values generalizing n refs with
  | nil =>
    have hnil : parseRow n [] = some [] := by cases n <;> rfl
    exact (Option.some.inj (hnil.symm.trans hparsed)).symm
  | cons value values ih =>
    have hne : encodeRow (value :: values) ≠ [] := by
      rw [encodeRow_cons]
      exact List.append_ne_nil_of_left_ne_nil (encodeField_ne_nil _) _
    cases n with
    | zero =>
      obtain ⟨b, bs, hbytes⟩ := List.exists_cons_of_ne_nil hne
      rw [hbytes] at hparsed
      cases hparsed
    | succ =>
      rw [parseRow_succ hne, encodeRow_cons,
        parseField_encodeField _ (hlengths value (.head _)), Option.bind_some] at hparsed
      obtain ⟨rest, hrest, rfl⟩ := Option.map_eq_some_iff.mp hparsed
      rw [ih (fun v hv => hlengths v (.tail _ hv)) hrest]

theorem parseRow_encodeRow {values : List Bytes} {n : ℕ} (hn : values.length ≤ n)
    (hlengths : ∀ v ∈ values, v.length < 2 ^ 32) : parseRow n (encodeRow values) = some values := by
  induction values generalizing n with
  | nil => cases n <;> rfl
  | cons value values ih =>
    cases n with
    | zero => cases hn
    | succ =>
      have hne : encodeRow (value :: values) ≠ [] := by
        rw [encodeRow_cons]
        exact List.append_ne_nil_of_left_ne_nil (encodeField_ne_nil _) _
      rw [parseRow_succ hne, encodeRow_cons,
        parseField_encodeField _ (hlengths value (.head _)), Option.bind_some,
        ih (Nat.le_of_succ_le_succ hn) (fun v hv => hlengths v (.tail _ hv))]
      rfl

end LineairDB.Pax
