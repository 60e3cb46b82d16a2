import LineairDB.Recovery.RecoverySet

/-!
# Scans of the Masstree index

The wrapper drives the tree's own scans through adapters that compare every key
with the far bound, byte by byte and then by length, and pass on what lies within.
The tree is taken at its documented behaviour.

* `drive_guarded` — an adapter that stops at the first key out of bounds delivers
  the keys within.
* `scansExactly_iff` — both directions deliver the requested range exactly if the range
  has an end, or no key but the empty one is in it: without an end the reverse scan
  starts at the empty key.
-/

namespace LineairDB.Masstree

open ByteFile

/-- The tree: its entries in key order, and the entries its scans visit, in order, while
the visitor goes on. -/
structure Tree (V : Type) where
  entries : List (Bytes × V)
  sorted : entries.Pairwise fun a b => a.1 < b.1
  scan : Bytes → Bool → List (Bytes × V)
  rscan : Bytes → Bool → List (Bytes × V)
  scan_eq : ∀ first emit, scan first emit =
    entries.filter fun e => first < e.1 ∨ (emit = true ∧ e.1 = first)
  rscan_eq : ∀ first emit, rscan first emit =
    (entries.filter fun e => e.1 < first ∨ (emit = true ∧ e.1 = first)).reverse

/-! ## The adapters -/

/-- `memcmp` of the first `n` bytes. -/
def memcmp : ℕ → Bytes → Bytes → Ordering
  | n + 1, a :: as, b :: bs => if a < b then .lt else if b < a then .gt else memcmp n as bs
  | _, _, _ => .eq

/-- The comparison of the adapters: `bound` is greater than `key`. -/
def greater (bound key : Bytes) : Bool :=
  let cmp := memcmp (min bound.length key.length) bound key
  cmp = .gt || (cmp = .eq && bound.length > key.length)

/-- What a scan has done: the calls of the callback and the adapter's own counter. -/
structure Scanned (α : Type) where
  delivered : List α
  count : ℕ

section Adapters

variable {V α : Type}

/-- The visitor is called with one entry after the other until it returns false. -/
def drive (visitValue : Scanned α → Bytes × V → Scanned α × Bool) (st : Scanned α) :
    List (Bytes × V) → Scanned α
  | [] => st
  | e :: entries =>
    if (visitValue st e).2 then drive visitValue (visitValue st e).1 entries
    else (visitValue st e).1

/-- The callback is handed an entry; it decides from all it was handed whether to stop. -/
def call (view : Bytes × V → α) (stop : List α → Bool) (st : Scanned α) (e : Bytes × V) :
    Scanned α × Bool :=
  ({ st with delivered := st.delivered ++ [view e] }, stop (st.delivered ++ [view e]))

/-- `visit_value` of both adapters, around an operation that returns true to cancel. -/
def visitValue (bound : Option Bytes) (op : Scanned α → Bytes × V → Scanned α × Bool)
    (st : Scanned α) (e : Bytes × V) : Scanned α × Bool :=
  if bound.any fun b => !greater b e.1 then (st, false)
  else
    let called := op { st with count := st.count + 1 } e
    (called.1, !called.2)

/-- `adapter_op` of the reverse scans: a key below `first` cancels. -/
def adapterOp (first : Bytes) (op : Scanned α → Bytes × V → Scanned α × Bool)
    (st : Scanned α) (e : Bytes × V) : Scanned α × Bool :=
  if greater first e.1 then (st, true) else op st e

/-- `Scan`, with what the callback sees. -/
def scanWith (view : Bytes × V → α) (t : Tree V) (first : Bytes) (bound : Option Bytes)
    (stop : List α → Bool) : Scanned α :=
  drive (visitValue bound (call view stop)) ⟨[], 0⟩ (t.scan first true)

/-- Where a reverse scan starts: an open end is the empty key, itself included. -/
def rscanFrom (t : Tree V) : Option Bytes → List (Bytes × V)
  | some b => t.rscan b false
  | none => t.rscan [] true

/-- `ScanReverse`, with what the callback sees. -/
def scanReverseWith (view : Bytes × V → α) (t : Tree V) (first : Bytes) (bound : Option Bytes)
    (stop : List α → Bool) : Scanned α :=
  drive (visitValue none (adapterOp first (call view stop))) ⟨[], 0⟩ (rscanFrom t bound)

end Adapters

section Overloads

variable {V : Type} (t : Tree V)

/-- `Scan` and `ScanReverse` with a callback for keys. -/
def scan (first : Bytes) (bound : Option Bytes) (stop : List Bytes → Bool) : Scanned Bytes :=
  scanWith Prod.fst t first bound stop

/-- `ScanReverse`, keys only. -/
def scanReverse (first : Bytes) (bound : Option Bytes) (stop : List Bytes → Bool) :
    Scanned Bytes :=
  scanReverseWith Prod.fst t first bound stop

/-- `Scan` and `ScanReverse` with a callback for keys and values, which have an end. -/
def scanValues (first bound : Bytes) (stop : List (Bytes × V) → Bool) : Scanned (Bytes × V) :=
  scanWith id t first (some bound) stop

/-- `ScanReverse`, keys and values. -/
def scanReverseValues (first bound : Bytes) (stop : List (Bytes × V) → Bool) :
    Scanned (Bytes × V) :=
  scanReverseWith id t first (some bound) stop

/-! ## The requested range -/

/-- The entries from `first` on and before the bound. -/
def range (first : Bytes) (bound : Option Bytes) : List (Bytes × V) :=
  t.entries.filter fun e => first ≤ e.1 ∧ ∀ b ∈ bound, e.1 < b

/-- The calls of a callback for the items of a list, until it stops. -/
def deliver {α : Type} (stop : List α → Bool) (delivered : List α) : List α → List α
  | [] => delivered
  | a :: items =>
    if stop (delivered ++ [a]) then delivered ++ [a] else deliver stop (delivered ++ [a]) items

/-- Every overload delivers the requested range, in its direction. -/
structure ScansExactly (first : Bytes) (bound : Option Bytes) : Prop where
  forward : ∀ stop, (scan t first bound stop).delivered =
    deliver stop [] ((range t first bound).map Prod.fst)
  reverse : ∀ stop, (scanReverse t first bound stop).delivered =
    deliver stop [] ((range t first bound).reverse.map Prod.fst)
  values : ∀ b, bound = some b → ∀ stop, (scanValues t first b stop).delivered =
    deliver stop [] (range t first bound)
  reverseValues : ∀ b, bound = some b → ∀ stop, (scanReverseValues t first b stop).delivered =
    deliver stop [] (range t first bound).reverse

end Overloads

/-! ## What is delivered -/

/-- The adapters compare as the keys do. -/
theorem greater_iff (bound key : Bytes) : greater bound key = true ↔ key < bound := by
  induction bound generalizing key with
  | nil => simp [greater, memcmp]
  | cons b bs ih =>
    cases key with
    | nil => simp [greater, memcmp]
    | cons k ks =>
      have hmin : min (bs.length + 1) (ks.length + 1) = min bs.length ks.length + 1 :=
        Nat.succ_min_succ _ _
      have hrest := ih ks
      simp only [greater, List.length_cons, hmin, memcmp, List.cons_lt_cons_iff] at hrest ⊢
      rcases lt_trichotomy b k with hlt | rfl | hlt
      · simp [hlt, hlt.asymm, hlt.ne']
      · simpa using hrest
      · simp [hlt, hlt.asymm]

theorem greater_eq (bound key : Bytes) : greater bound key = decide (key < bound) := by
  rw [Bool.eq_iff_iff, greater_iff, decide_eq_true_iff]

/-- An adapter that stops at the first entry out of bounds delivers what is within, if
every entry behind one out of bounds is out of bounds. -/
theorem drive_guarded {V α : Type} {visit : Scanned α → Bytes × V → Scanned α × Bool}
    {view : Bytes × V → α} {stop : List α → Bool} {within : Bytes × V → Bool}
    (hwithin : ∀ st e, within e = true → (visit st e).1.delivered = st.delivered ++ [view e] ∧
      (visit st e).2 = !stop (st.delivered ++ [view e]))
    (hout : ∀ st e, within e = false → (visit st e).1.delivered = st.delivered ∧
      (visit st e).2 = false) {entries : List (Bytes × V)} (st : Scanned α)
    (hclosed : entries.Pairwise fun a b => within a = false → within b = false) :
    (drive visit st entries).delivered =
      deliver stop st.delivered ((entries.filter within).map view) := by
  induction entries generalizing st with
  | nil => rfl
  | cons e entries ih =>
    obtain ⟨hlater, hrest⟩ := List.pairwise_cons.mp hclosed
    rw [drive]
    cases he : within e with
    | false =>
      have hnone : entries.filter within = [] :=
        List.filter_eq_nil_iff.mpr fun a ha => by simp [hlater a ha he]
      simp [hout st e he, he, hnone, deliver]
    | true =>
      obtain ⟨hdelivered, hgoes⟩ := hwithin st e he
      rw [hgoes, List.filter_cons_of_pos he, List.map_cons, deliver]
      cases hstop : stop (st.delivered ++ [view e]) with
      | true => simp [hdelivered]
      | false => simp [ih _ hrest, hdelivered]

section Ranges

variable {V α : Type} {t : Tree V} {first : Bytes} {bound : Option Bytes}

theorem scanWith_delivered (view : Bytes × V → α) (stop : List α → Bool) :
    (scanWith view t first bound stop).delivered =
      deliver stop [] ((range t first bound).map view) := by
  have hin : range t first bound =
      (t.scan first true).filter fun e => bound.all fun b => greater b e.1 := by
    rw [t.scan_eq, List.filter_filter]
    refine List.filter_congr fun e _ => ?_
    cases bound with
    | none => simp [le_iff_lt_or_eq, eq_comm]
    | some => simp [greater_eq, le_iff_lt_or_eq, eq_comm, Bool.and_comm]
  rw [hin]
  refine drive_guarded ?_ ?_ _ ?_
  · intro st e he
    cases bound <;> simp_all [visitValue, call]
  · intro st e he
    cases bound <;> simp_all [visitValue]
  · rw [t.scan_eq]
    refine (t.sorted.sublist List.filter_sublist).imp fun {a b} hlt hout => ?_
    cases bound with
    | none => cases hout
    | some =>
      simp only [Option.all_some, Bool.eq_false_iff, ne_eq, greater_iff, not_lt] at hout ⊢
      exact hout.trans hlt.le

/-- A reverse scan delivers what the tree visits from `first` on. -/
theorem scanReverseWith_delivered (view : Bytes × V → α) (stop : List α → Bool) :
    (scanReverseWith view t first bound stop).delivered =
      deliver stop [] (((rscanFrom t bound).filter fun e => first ≤ e.1).map view) := by
  have hsorted : (rscanFrom t bound).Pairwise fun a b => b.1 < a.1 := by
    cases bound <;> rw [rscanFrom, t.rscan_eq, List.pairwise_reverse] <;>
      exact t.sorted.sublist List.filter_sublist
  refine drive_guarded ?_ ?_ _ (hsorted.imp fun {a b} hlt hout => ?_)
  · intro st e he
    have hnot : ¬ e.1 < first := not_lt.mpr (of_decide_eq_true he)
    simp [visitValue, adapterOp, call, greater_eq, hnot]
  · intro st e he
    have hbelow : e.1 < first := not_le.mp (of_decide_eq_false he)
    simp [visitValue, adapterOp, greater_eq, hbelow]
  · exact decide_eq_false (not_le.mpr (hlt.trans (not_le.mp (of_decide_eq_false hout))))

/-- With an end, the tree visits the requested range backwards. -/
theorem rscanFrom_some (b : Bytes) :
    (rscanFrom t (some b)).filter (fun e => first ≤ e.1) = (range t first (some b)).reverse := by
  rw [rscanFrom, t.rscan_eq, List.filter_reverse, List.filter_filter, range]
  congr 1
  exact List.filter_congr fun e _ => by simp

/-- Without one, it visits the empty key of it. -/
theorem rscanFrom_none :
    (rscanFrom t none).filter (fun e => first ≤ e.1) =
      ((range t first none).filter fun e => e.1 = []).reverse := by
  rw [rscanFrom, t.rscan_eq, List.filter_reverse, List.filter_filter, range, List.filter_filter]
  congr 1
  exact List.filter_congr fun e _ => by simp [Bool.and_comm]

theorem deliver_never (delivered items : List α) :
    deliver (fun _ => false) delivered items = delivered ++ items := by
  induction items generalizing delivered with
  | nil => simp [deliver]
  | cons a items ih => simp [deliver, ih]

end Ranges

/-- **Both directions deliver the requested range exactly if it has an end or no key but
the empty one.** -/
theorem scansExactly_iff {V : Type} (t : Tree V) (first : Bytes) (bound : Option Bytes) :
    ScansExactly t first bound ↔
      bound ≠ none ∨ ∀ e ∈ t.entries, first ≤ e.1 → e.1 = [] := by
  constructor
  · intro h
    by_cases hbound : bound = none
    · subst hbound
      refine .inr fun e he hfirst => ?_
      have hkeys := h.reverse fun _ => false
      rw [scanReverse, scanReverseWith_delivered, rscanFrom_none, deliver_never, deliver_never,
        List.nil_append, List.nil_append] at hkeys
      have hmem : e.1 ∈ (range t first none).reverse.map Prod.fst :=
        List.mem_map_of_mem (List.mem_reverse.mpr (List.mem_filter.mpr ⟨he, by simp [hfirst]⟩))
      rw [← hkeys] at hmem
      obtain ⟨e', he', heq⟩ := List.mem_map.mp hmem
      rw [← heq]
      exact of_decide_eq_true (List.mem_filter.mp (List.mem_reverse.mp he')).2
    · exact .inl hbound
  · intro h
    have hvisited : (rscanFrom t bound).filter (fun e => first ≤ e.1) =
        (range t first bound).reverse := by
      cases bound with
      | some b => exact rscanFrom_some b
      | none =>
        have hempty := h.resolve_left (fun hne => hne rfl)
        rw [rscanFrom_none, List.filter_eq_self.mpr]
        intro e he
        obtain ⟨hentry, hfirst⟩ := List.mem_filter.mp he
        exact decide_eq_true (hempty e hentry (of_decide_eq_true hfirst).1)
    constructor
    · exact fun stop => scanWith_delivered Prod.fst stop
    · intro stop
      rw [scanReverse, scanReverseWith_delivered, hvisited]
    · rintro b rfl stop
      rw [scanValues, scanWith_delivered, List.map_id]
    · rintro b rfl stop
      rw [scanReverseValues, scanReverseWith_delivered, hvisited, List.map_id]

/-- A tree with one key, as its documentation says. -/
def oneKey : Tree Unit where
  entries := [([97], ())]
  sorted := List.pairwise_singleton _ _
  scan first emit := [([97], ())].filter fun e => first < e.1 ∨ (emit = true ∧ e.1 = first)
  rscan first emit :=
    ([([97], ())].filter fun e => e.1 < first ∨ (emit = true ∧ e.1 = first)).reverse
  scan_eq _ _ := rfl
  rscan_eq _ _ := rfl

/-- From the empty key on, without an end: the key is found one way and not the other. -/
theorem open_reverse_scan_empty :
    (scan oneKey [] none fun _ => false).delivered = [[97]] ∧
      (scanReverse oneKey [] none fun _ => false).delivered = [] ∧
      ¬ ScansExactly oneKey [] none := by
  have hreverse : (scanReverse oneKey [] none fun _ => false).delivered = [] := by decide
  refine ⟨by decide, hreverse, fun h => ?_⟩
  have hkeys := h.reverse fun _ => false
  rw [hreverse] at hkeys
  revert hkeys
  decide

end LineairDB.Masstree
