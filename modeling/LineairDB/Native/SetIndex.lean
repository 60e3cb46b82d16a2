import LineairDB.Library.ByteFile

/-!
# The position index of a set

`FindInSet` scans a small read or write set, and looks a large one up in a hash
multimap of positions that is brought up to date by the lookup itself.

* `Inv.step` — the multimap holds the positions of the part that has been indexed.
* `findInSet_eq_scan` — in every history of appends, lookups and resets the answer
  is the one of the scan.
-/

namespace LineairDB.FindInSet

open ByteFile

/-- What an entry of a set is looked up by. -/
structure EntryName where
  tableName : Bytes
  indexName : Bytes
  key : Bytes
  deriving Repr, DecidableEq

/-- An entry of a set. -/
structure Snapshot (V : Type) extends EntryName where
  value : V

variable {V : Type}

/-- The entry has the name. -/
def Snapshot.matches (snapshot : Snapshot V) (name : EntryName) : Bool :=
  snapshot.key = name.key && snapshot.tableName = name.tableName &&
    snapshot.indexName = name.indexName

/-- `std::hash`, and the order in which the multimap hands out the positions of one hash. -/
structure Hashing where
  hasher : Bytes → UInt64
  arrange : List ℕ → List ℕ
  perm : ∀ l, (arrange l).Perm l

/-- The hash of a name. -/
def setEntryHash (h : Hashing) (name : EntryName) : UInt64 :=
  let hash := h.hasher name.tableName
  let hash := (hash ^^^ h.hasher name.indexName) * 0x100000001b3
  (hash ^^^ h.hasher name.key) * 0x100000001b3

/-- The entries of the multimap, and how many of the set's entries are in it. -/
structure SetIndex where
  positions : List (UInt64 × ℕ)
  indexed : ℕ

/-- Nothing is indexed. -/
def SetIndex.empty : SetIndex := ⟨[], 0⟩

/-- Below this size a set is searched from the front. -/
def kSetIndexThreshold : ℕ := 64

/-- Index the tail of the set. -/
def SetIndex.refresh (h : Hashing) (set : List (Snapshot V)) (index : SetIndex) : SetIndex :=
  let tail := set.drop index.indexed
  { positions := index.positions ++
      (tail.zipIdx index.indexed).map fun x => (setEntryHash h x.1.toEntryName, x.2)
    indexed := index.indexed + tail.length }

/-- The positions listed under a hash. -/
def SetIndex.equalRange (h : Hashing) (index : SetIndex) (hash : UInt64) : List ℕ :=
  h.arrange ((index.positions.filter fun x => x.1 = hash).map Prod.snd)

/-- One candidate: what was found before it in the set stays. -/
def consider (set : List (Snapshot V)) (name : EntryName) (found : Option ℕ) (pos : ℕ) : Option ℕ :=
  if found.getD set.length ≤ pos then found
  else if set[pos]?.any fun snapshot => snapshot.matches name then some pos
  else found

/-- The position of the entry that is returned, and the index the lookup leaves. -/
def findInSet (h : Hashing) (set : List (Snapshot V)) (index : SetIndex) (name : EntryName) :
    Option ℕ × SetIndex :=
  if set.length < kSetIndexThreshold then
    (set.findIdx? fun snapshot => snapshot.matches name, index)
  else
    let index := index.refresh h set
    ((index.equalRange h (setEntryHash h name)).foldl (consider set name) none, index)

/-! ## Histories of a set -/

/-- What is done with a set. -/
inductive Action (V : Type) where
  | append (snapshot : Snapshot V)
  | find (name : EntryName)
  /-- `Reset` and `Precommit`, after which the set may be any. -/
  | reset (set : List (Snapshot V))

/-- A set and its index. -/
structure State (V : Type) where
  set : List (Snapshot V)
  index : SetIndex

/-- One step. -/
def State.step (h : Hashing) (s : State V) : Action V → State V
  | .append snapshot => { s with set := s.set ++ [snapshot] }
  | .find name => { s with index := (findInSet h s.set s.index name).2 }
  | .reset set => ⟨set, .empty⟩

/-- A sequence of them, from an empty set. -/
def run (h : Hashing) (as : List (Action V)) : State V := as.foldl (State.step h) ⟨[], .empty⟩

/-! ## What is in the index -/

variable {h : Hashing} {s : State V} {set : List (Snapshot V)} {name : EntryName}

/-- The multimap holds the positions of the first `indexed` entries, under their hashes. -/
structure Inv (h : Hashing) (s : State V) : Prop where
  le : s.index.indexed ≤ s.set.length
  positions : s.index.positions =
    (s.set.take s.index.indexed).zipIdx.map fun x => (setEntryHash h x.1.toEntryName, x.2)

/-- A refreshed index has them all. -/
theorem Inv.refresh (hinv : Inv h s) : Inv h ⟨s.set, s.index.refresh h s.set⟩ := by
  have hlen : s.index.indexed + (s.set.drop s.index.indexed).length = s.set.length := by
    simp [hinv.le]
  refine ⟨hlen.le, ?_⟩
  have hsplit : s.set.zipIdx = (s.set.take s.index.indexed).zipIdx ++
      (s.set.drop s.index.indexed).zipIdx s.index.indexed := by
    conv_lhs => rw [← List.take_append_drop s.index.indexed s.set, List.zipIdx_append]
    simp [hinv.le]
  simp only [SetIndex.refresh, hlen, List.take_length, hsplit, List.map_append, hinv.positions]

theorem Inv.step (hinv : Inv h s) (a : Action V) : Inv h (s.step h a) := by
  cases a with
  | append snapshot =>
    refine ⟨?_, ?_⟩
    · simpa [State.step] using hinv.le.trans (Nat.le_succ _)
    · simpa [State.step, List.take_append_of_le_length hinv.le] using hinv.positions
  | find name =>
    simp only [State.step, findInSet]
    split_ifs
    · exact hinv
    · exact hinv.refresh
  | reset set => exact ⟨Nat.zero_le _, by simp [State.step, SetIndex.empty]⟩

theorem run_inv (as : List (Action V)) : Inv h (run h as) := by
  induction as using List.reverseRecOn with
  | nil => exact ⟨le_rfl, rfl⟩
  | append_singleton as a ih =>
    rw [run, List.foldl_append]
    exact ih.step a

/-! ## What a lookup answers -/

/-- The entry at a position matches. -/
def MatchesAt (set : List (Snapshot V)) (name : EntryName) (q : ℕ) : Prop :=
  set[q]?.any (fun snapshot => snapshot.matches name) = true

theorem matchesAt_iff {q : ℕ} :
    MatchesAt set name q ↔ ∃ hlt : q < set.length, set[q].matches name = true := by
  simp only [MatchesAt, Option.any_eq_true, List.getElem?_eq_some_iff]
  grind

/-- The scan stops at the first entry that matches. -/
theorem scan_eq_some {q : ℕ} : (set.findIdx? fun snapshot => snapshot.matches name) = some q ↔
    MatchesAt set name q ∧ ∀ m, MatchesAt set name m → q ≤ m := by
  rw [List.findIdx?_eq_some_iff_getElem]
  simp only [matchesAt_iff]
  constructor
  · rintro ⟨hlt, hmatch, hfirst⟩
    refine ⟨⟨hlt, hmatch⟩, ?_⟩
    rintro m ⟨_, hm⟩
    exact Nat.le_of_not_lt fun hmq => hfirst m hmq hm
  · rintro ⟨⟨hlt, hmatch⟩, hleast⟩
    exact ⟨hlt, hmatch, fun m hmq hm => absurd (hleast m ⟨hmq.trans hlt, hm⟩) (by omega)⟩

/-- What is found after some candidates is the first of those that match and of what was
found before them. -/
theorem foldl_consider (l : List ℕ) (found : Option ℕ) (q : ℕ) :
    l.foldl (consider set name) found = some q ↔
      (found = some q ∨ q ∈ l ∧ MatchesAt set name q) ∧
        ∀ m, found = some m ∨ m ∈ l ∧ MatchesAt set name m → q ≤ m := by
  induction l generalizing found with
  | nil => grind
  | cons pos rest ih =>
    have hlt : MatchesAt set name pos → pos < set.length := fun hpos => (matchesAt_iff.mp hpos).1
    rw [List.foldl_cons, ih]
    cases found <;> grind [consider, MatchesAt]

/-- The range of a hash has the positions of the entries with that hash. -/
theorem Inv.mem_equalRange (hinv : Inv h s) {hash : UInt64} {q : ℕ} :
    q ∈ (s.index.refresh h s.set).equalRange h hash ↔
      ∃ snapshot, s.set[q]? = some snapshot ∧ setEntryHash h snapshot.toEntryName = hash := by
  have hall := hinv.refresh.positions
  have hlen : (s.index.refresh h s.set).indexed = s.set.length := by
    simp [SetIndex.refresh, hinv.le]
  simp only [hlen, List.take_length] at hall
  simp [SetIndex.equalRange, (h.perm _).mem_iff, hall, List.mem_zipIdx_iff_getElem?]

/-- **The index changes no lookup**: after any history of appends, lookups and resets
`FindInSet` returns the first entry of the set that matches. -/
theorem findInSet_eq_scan (h : Hashing) (as : List (Action V)) (name : EntryName) :
    (findInSet h (run h as).set (run h as).index name).1 =
      (run h as).set.findIdx? fun snapshot => snapshot.matches name := by
  have hinv : Inv h (run h as) := run_inv as
  generalize run h as = s at hinv
  unfold findInSet
  split_ifs
  · rfl
  -- an entry that matches has the hash that is looked up
  have hcandidate : ∀ q, MatchesAt s.set name q →
      q ∈ (s.index.refresh h s.set).equalRange h (setEntryHash h name) := by
    intro q hq
    obtain ⟨snapshot, hget, hmatch⟩ := (Option.any_eq_true _ _).mp hq
    refine hinv.mem_equalRange.mpr ⟨snapshot, hget, ?_⟩
    simp only [Snapshot.matches, Bool.and_eq_true, decide_eq_true_eq] at hmatch
    simp [setEntryHash, hmatch]
  refine Option.ext fun q => ?_
  rw [scan_eq_some, foldl_consider]
  grind

end LineairDB.FindInSet
