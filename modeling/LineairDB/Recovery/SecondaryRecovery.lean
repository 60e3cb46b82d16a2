import LineairDB.Recovery.Reflects

/-!
# Recovering the secondary indexes

The fold keeps the newest operation per primary key and regroups the adds into
primary-key lists. The lists come out as memory holds them for every history
whose transactions recovery can follow, and not for every history: operations of
one stateless request share their slot's identifier, and of equal identifiers
the fold keeps the first while memory keeps the last.

* `mem_recoveredEntries` — the lists recovery installs.
* `secondary_indexes_recovered` — they are the ones in memory.
* `removed_key_recovered` — a request that adds a primary key and removes it again.
-/

namespace LineairDB.Recovery

open ByteFile NewestWins Silo Stateless Transition

/-! ## Sorted lists without duplicates -/

variable {keys : List Bytes}

theorem mem_destutter_ne {a p : Bytes} : p ∈ keys.destutter' (· ≠ ·) a ↔ p ∈ a :: keys := by
  induction keys generalizing a with
  | nil => exact Iff.rfl
  | cons k keys ih =>
    by_cases hk : a = k
    · rw [List.destutter'_cons_neg _ (not_not.mpr hk), ih, hk]
      simp
    · rw [List.destutter'_cons_pos _ hk, List.mem_cons, ih, List.mem_cons (b := a)]

theorem mem_sortUnique {p : Bytes} : p ∈ sortUnique keys ↔ p ∈ keys := by
  unfold sortUnique
  rw [← (List.perm_insertionSort (· ≤ ·) keys).mem_iff]
  cases keys.insertionSort (· ≤ ·) with
  | nil => exact Iff.rfl
  | cons => exact mem_destutter_ne

/-- In a sorted list whose neighbours differ, all members do. -/
theorem pairwise_lt_of_isChain_ne {l : List Bytes} (hle : l.Pairwise (· ≤ ·))
    (hne : l.IsChain (· ≠ ·)) : l.Pairwise (· < ·) := by
  induction l with
  | nil => exact List.Pairwise.nil
  | cons a l ih =>
    obtain ⟨hhead, htail⟩ := List.pairwise_cons.mp hle
    refine List.pairwise_cons.mpr ⟨fun b hb => ?_, ih htail hne.tail⟩
    cases l with
    | nil => cases hb
    | cons c =>
      have hlt : a < c :=
        lt_of_le_of_ne (hhead c (.head _)) (List.isChain_cons_cons.mp hne).1
      rcases List.mem_cons.mp hb with rfl | hb
      · exact hlt
      · exact hlt.trans_le ((List.pairwise_cons.mp htail).1 b hb)

theorem pairwise_sortUnique (keys : List Bytes) : (sortUnique keys).Pairwise (· < ·) := by
  have hle : ((keys.insertionSort (· ≤ ·)).destutter (· ≠ ·)).Pairwise (· ≤ ·) :=
    (List.pairwise_insertionSort _ keys).sublist (List.destutter_sublist _ _)
  exact pairwise_lt_of_isChain_ne hle (List.isChain_destutter _ _)

theorem sortUnique_ne_nil (h : keys ≠ []) : sortUnique keys ≠ [] := by
  obtain ⟨p, rest, rfl⟩ := List.exists_cons_of_ne_nil h
  have hmem : p ∈ sortUnique (p :: rest) := mem_sortUnique.mpr (.head _)
  exact List.ne_nil_of_mem hmem

/-! ## Regrouping -/

/-- The primary keys of a group. -/
def groupKeys (groups : List (SecondaryGroupKey × SecondaryGroupValue)) (g : SecondaryGroupKey) :
    List Bytes :=
  match groups with
  | [] => []
  | (k, entry) :: groups => if k = g then entry.primaryKeys else groupKeys groups g

/-- The groups so far have one entry each, and none is empty. -/
def Grouped (groups : List (SecondaryGroupKey × SecondaryGroupValue)) : Prop :=
  (groups.map Prod.fst).Nodup ∧ ∀ group ∈ groups, group.2.primaryKeys ≠ []

section Groups

variable {groups : List (SecondaryGroupKey × SecondaryGroupValue)} {g : SecondaryGroupKey}
  {keys : List Bytes}

theorem groupKeys_addToGroup (key : SecondaryGroupKey) (p : Bytes) (tid : TransactionId) :
    groupKeys (addToGroup key p tid groups) g
      = if key = g then groupKeys groups g ++ [p] else groupKeys groups g := by
  induction groups with
  | nil => by_cases hg : key = g <;> simp [addToGroup, groupKeys, hg]
  | cons group groups ih =>
    obtain ⟨k, entry⟩ := group
    rw [addToGroup]
    by_cases hk : k = key
    · rw [if_pos hk]
      by_cases hg : key = g
      · simp [groupKeys, hk, hg]
      · simp [groupKeys, hk, hg]
    · rw [if_neg hk]
      by_cases hg : k = g
      · have hne : key ≠ g := fun h => hk (hg.trans h.symm)
        simp [groupKeys, hg, hne]
      · simpa [groupKeys, hg] using ih

theorem mem_keys_addToGroup {key k : SecondaryGroupKey} {p : Bytes} {tid : TransactionId} :
    k ∈ (addToGroup key p tid groups).map Prod.fst ↔ k = key ∨ k ∈ groups.map Prod.fst := by
  induction groups with
  | nil => simp [addToGroup]
  | cons group groups ih =>
    obtain ⟨k', entry⟩ := group
    rw [addToGroup]
    by_cases hk : k' = key
    · simp [hk]
    · rw [if_neg hk, List.map_cons, List.mem_cons, ih, List.map_cons, List.mem_cons]
      exact or_left_comm

theorem Grouped.addToGroup (h : Grouped groups) (key : SecondaryGroupKey) (p : Bytes)
    (tid : TransactionId) : Grouped (addToGroup key p tid groups) := by
  induction groups with
  | nil => simp [Grouped, Recovery.addToGroup]
  | cons group groups ih =>
    obtain ⟨k, entry⟩ := group
    obtain ⟨hnodup, hne⟩ := h
    rw [List.map_cons, List.nodup_cons] at hnodup
    rw [List.forall_mem_cons] at hne
    rw [Recovery.addToGroup]
    by_cases hk : k = key
    · rw [if_pos hk]
      refine ⟨by simpa using hnodup, ?_⟩
      rw [List.forall_mem_cons]
      exact ⟨by simp, hne.2⟩
    · rw [if_neg hk]
      obtain ⟨hnodup', hne'⟩ := ih ⟨hnodup.2, hne.2⟩
      refine ⟨?_, ?_⟩
      · rw [List.map_cons, List.nodup_cons, mem_keys_addToGroup, not_or]
        exact ⟨⟨hk, hnodup.1⟩, hnodup'⟩
      · rw [List.forall_mem_cons]
        exact ⟨hne.1, hne'⟩

theorem grouped_foldl (es : List (Entry SecondaryOpKey TransactionId UInt8))
    (h : Grouped groups) : Grouped (es.foldl groupOp groups) := by
  induction es generalizing groups with
  | nil => exact h
  | cons e es ih =>
    refine ih ?_
    unfold groupOp
    split
    · exact h
    · exact h.addToGroup _ _ _

/-- A group holds the primary keys that were added under its secondary key. -/
theorem mem_groupKeys_foldl {p : Bytes} {es : List (Entry SecondaryOpKey TransactionId UInt8)} :
    p ∈ groupKeys (es.foldl groupOp groups) g ↔
      p ∈ groupKeys groups g ∨ ∃ e ∈ es, e.value = SecondaryIndexOp.add.raw ∧ e.key.group = g ∧
        e.key.primaryKey = p := by
  induction es generalizing groups with
  | nil => simp
  | cons e es ih =>
    rw [List.foldl_cons, ih, groupOp, List.exists_mem_cons_iff]
    by_cases hadd : e.value = SecondaryIndexOp.add.raw
    · rw [if_neg (not_not.mpr hadd), groupKeys_addToGroup]
      by_cases hg : e.key.group = g
      · rw [if_pos hg, List.mem_append, List.mem_singleton, or_assoc]
        simp only [hadd, hg, true_and]
        rw [eq_comm (a := p)]
      · rw [if_neg hg]
        simp [hg]
    · rw [if_pos hadd]
      simp [hadd]

/-- With one entry per group, the entry is the group's. -/
theorem Grouped.mem_iff (h : Grouped groups) (hkeys : keys ≠ []) :
    (∃ entry, (g, entry) ∈ groups ∧ entry.primaryKeys = keys) ↔ groupKeys groups g = keys := by
  induction groups with
  | nil => simp [groupKeys, Ne.symm hkeys]
  | cons group groups ih =>
    obtain ⟨k, entry⟩ := group
    obtain ⟨hnodup, hne⟩ := h
    rw [List.map_cons, List.nodup_cons] at hnodup
    have ih := ih ⟨hnodup.2, fun group hgroup => hne group (.tail _ hgroup)⟩
    by_cases hk : k = g
    · subst hk
      rw [groupKeys, if_pos rfl]
      constructor
      · rintro ⟨entry', hmem, rfl⟩
        rcases List.mem_cons.mp hmem with heq | hmem
        · rw [(Prod.mk.inj heq).2]
        · exact absurd (List.mem_map_of_mem hmem) hnodup.1
      · intro heq
        exact ⟨entry, .head _, heq⟩
    · rw [groupKeys, if_neg hk, ← ih]
      refine exists_congr fun entry' => and_congr_left fun _ => ?_
      rw [List.mem_cons, or_iff_right]
      intro heq
      exact hk (Prod.mk.inj heq).1.symm

end Groups

/-! ## What recovery makes of the secondary entries -/

section Entries

variable {ops : HashOrder (Entry SecondaryOpKey TransactionId UInt8)}
  {groups : HashOrder (SecondaryGroupKey × SecondaryGroupValue)} {image tail : LogRecords}

/-- The entries recovery installs are the regrouped ones with a name. -/
theorem mem_recoveredEntries_iff {s : Snapshot} :
    s ∈ recoveredEntries (buildRecoverySet ops groups image tail) ↔
      s.indexName ≠ [] ∧ ∃ group ∈ (ops.order (foldRecords image tail).secondaryLatest).foldl
        groupOp [], groupSnapshot group = some s := by
  rw [recoveredEntries, buildRecoverySet, List.mem_filter, List.mem_append, List.mem_filterMap]
  simp only [(groups.perm _).mem_iff, decide_eq_true_eq]
  constructor
  · rintro ⟨hs | hs, -, hname⟩
    · exact absurd ((folded_foldRecords image tail).plain s hs) hname
    · exact ⟨hname, hs⟩
  · rintro ⟨hname, group, hgroup, hs⟩
    refine ⟨.inr ⟨group, hgroup, hs⟩, ?_, hname⟩
    unfold groupSnapshot at hs
    split at hs
    · cases hs
    · rename_i hne
      cases hs
      rw [Snapshot.live, if_neg hname]
      simpa [Snapshot.reset] using sortUnique_ne_nil hne

/-- **The lists recovery installs**: of every secondary key, the primary keys whose newest
operation added them, in order. -/
theorem mem_recoveredEntries {table index key : Bytes} {type : UInt32} :
    (∃ s ∈ recoveredEntries (buildRecoverySet ops groups image tail), s.tableName = table ∧
      s.indexName = index ∧ s.indexType = type ∧ s.key = key ∧ s.primaryKeys = keys) ↔
      index ≠ [] ∧ keys ≠ [] ∧ keys.Pairwise (· < ·) ∧
      ∀ p, p ∈ keys ↔ ∃ e, newest ⟨table, index, type, key, p⟩
          (pairOps (recordPairs (image ++ tail))) = some e ∧
        e.value = SecondaryIndexOp.add.raw := by
  -- what the group of the secondary key holds
  have hmem : ∀ p, p ∈ groupKeys ((ops.order (foldRecords image tail).secondaryLatest).foldl
      groupOp []) ⟨table, index, type, key⟩ ↔
      ∃ e, newest ⟨table, index, type, key, p⟩ (pairOps (recordPairs (image ++ tail))) = some e ∧
        e.value = SecondaryIndexOp.add.raw := by
    intro p
    rw [mem_groupKeys_foldl]
    simp only [groupKeys, List.not_mem_nil, false_or, (ops.perm _).mem_iff]
    rw [(folded_foldRecords image tail).ops]
    constructor
    · rintro ⟨e, he, hadd, hg, rfl⟩
      have hnewest := mem_foldl_put_iff.mp he
      have hkey : e.key = ⟨table, index, type, key, e.key.primaryKey⟩ := by
        obtain ⟨rfl, rfl, rfl, rfl⟩ := SecondaryGroupKey.mk.inj hg
        rfl
      rw [hkey] at hnewest
      exact ⟨e, hnewest, hadd⟩
    · rintro ⟨e, hnewest, hadd⟩
      obtain ⟨hkey, -⟩ := isNewest_of_newest hnewest
      refine ⟨e, mem_foldl_put_iff.mpr ?_, hadd, ?_, ?_⟩
      · rw [hkey]
        exact hnewest
      · rw [hkey]
        rfl
      · rw [hkey]
  have hgrouped : Grouped ((ops.order (foldRecords image tail).secondaryLatest).foldl groupOp []) :=
    grouped_foldl _ ⟨List.nodup_nil, by simp⟩
  constructor
  · rintro ⟨s, hs, rfl, rfl, rfl, rfl, rfl⟩
    obtain ⟨hname, ⟨g, entry⟩, hgroup, hs⟩ := mem_recoveredEntries_iff.mp hs
    have hne := hgrouped.2 _ hgroup
    rw [groupSnapshot, if_neg hne] at hs
    cases hs
    have hkeys := (hgrouped.mem_iff hne).mp ⟨entry, hgroup, rfl⟩
    refine ⟨hname, sortUnique_ne_nil hne, pairwise_sortUnique _, fun p => ?_⟩
    rw [← hmem]
    show p ∈ sortUnique entry.primaryKeys ↔ p ∈ groupKeys _ g
    rw [mem_sortUnique, hkeys]
  · rintro ⟨hname, hne, hsorted, hkeys⟩
    have hgroup : groupKeys ((ops.order (foldRecords image tail).secondaryLatest).foldl
        groupOp []) ⟨table, index, type, key⟩ ≠ [] := by
      obtain ⟨p, rest, hcons⟩ := List.exists_cons_of_ne_nil hne
      have hp : p ∈ groupKeys _ _ := (hmem p).mpr ((hkeys p).mp (by simp [hcons]))
      exact List.ne_nil_of_mem hp
    obtain ⟨entry, hentry, heq⟩ := (hgrouped.mem_iff hgroup).mpr rfl
    rw [← heq] at hgroup
    have hsnapshot : groupSnapshot (⟨table, index, type, key⟩, entry)
        = some (Snapshot.reset ⟨key, [], .empty, table, index, type,
          sortUnique entry.primaryKeys, []⟩ [] entry.maxTid) := by
      rw [groupSnapshot, if_neg hgroup]
    refine ⟨_, mem_recoveredEntries_iff.mpr ⟨hname, _, hentry, hsnapshot⟩, rfl, rfl, rfl, rfl, ?_⟩
    refine (pairwise_sortUnique _).eq_of_mem_iff hsorted fun p => ?_
    rw [mem_sortUnique, heq, hmem, hkeys]

/-- Where every operation carries the type of its index, an entry is found without it. -/
theorem mem_recoveredEntries_of_typed {indexType : Bytes → Bytes → UInt32}
    (htyped : ∀ e ∈ pairOps (recordPairs (image ++ tail)),
      e.key.indexType = indexType e.key.tableName e.key.indexName) {table index key : Bytes} :
    (∃ s ∈ recoveredEntries (buildRecoverySet ops groups image tail), s.tableName = table ∧
      s.indexName = index ∧ s.key = key ∧ s.primaryKeys = keys) ↔
      index ≠ [] ∧ keys ≠ [] ∧ keys.Pairwise (· < ·) ∧
      ∀ p, p ∈ keys ↔ ∃ e, newest ⟨table, index, indexType table index, key, p⟩
          (pairOps (recordPairs (image ++ tail))) = some e ∧
        e.value = SecondaryIndexOp.add.raw := by
  constructor
  · rintro ⟨s, hs, rfl, rfl, rfl, rfl⟩
    obtain ⟨hname, hne, hsorted, hkeys⟩ :=
      mem_recoveredEntries.mp ⟨s, hs, rfl, rfl, rfl, rfl, rfl⟩
    have htype : s.indexType = indexType s.tableName s.indexName := by
      obtain ⟨q, rest, hcons⟩ := List.exists_cons_of_ne_nil hne
      obtain ⟨e, hnewest, -⟩ := (hkeys q).mp (by simp [hcons])
      obtain ⟨hkey, hmem⟩ := isNewest_of_newest hnewest
      have htype := htyped e hmem.mem
      rw [hkey] at htype
      exact htype
    rw [htype] at hkeys
    exact ⟨hname, hne, hsorted, hkeys⟩
  · intro hkeys
    obtain ⟨s, hs, htable, hindex, -, hkey, hlist⟩ := mem_recoveredEntries.mpr hkeys
    exact ⟨s, hs, htable, hindex, hkey, hlist⟩

end Entries

/-! ## The lists in memory -/

/-- **Recovery reproduces the secondary indexes** of every history whose transactions it can
follow, in whatever order their records were logged: of every secondary key exactly the
primary-key list memory holds after the last commit, and no entry where that is empty. -/
theorem secondary_indexes_recovered (indexType : Bytes → Bytes → UInt32)
    (steps : List HistoryStep) (h : History)
    (hfollowed : Along (History.step indexType) Followed .start steps)
    (hrun : run (History.step indexType) .start steps = some h)
    (records : LogRecords) (hperm : records.Perm h.log)
    (ops : HashOrder (Entry SecondaryOpKey TransactionId UInt8))
    (groups : HashOrder (SecondaryGroupKey × SecondaryGroupValue))
    (table index key : Bytes) (keys : List Bytes) :
    (∃ s ∈ recoveredEntries (buildRecoverySet ops groups [] records), s.tableName = table ∧
      s.indexName = index ∧ s.key = key ∧ s.primaryKeys = keys) ↔
      keys ≠ [] ∧ (h.held (.entry table index key)).content.primaryKeys = keys := by
  have hr := Reflects.run hfollowed hrun
  have hblocks : (h.log.map LogRecord.ops).Perm (records.map LogRecord.ops) :=
    (hperm.map LogRecord.ops).symm
  have hops : ∀ e ∈ pairOps (recordPairs ([] ++ records)), e.key.indexName ≠ [] ∧
      e.key.indexType = indexType e.key.tableName e.key.indexName := by
    intro e he
    rw [List.nil_append, pairOps_recordPairs] at he
    obtain ⟨b, hb, he⟩ := List.mem_flatten.mp he
    obtain ⟨r, hr', rfl⟩ := List.mem_map.mp hb
    obtain ⟨hname, -, htype⟩ := hr.typed r (hperm.mem_iff.mp hr') e he
    exact ⟨hname, htype⟩
  -- the newest operation on a primary key decides, in the fold as in memory
  have hheld : ∀ p, p ∈ (h.held (.entry table index key)).content.primaryKeys ↔
      ∃ e, newest ⟨table, index, indexType table index, key, p⟩
          (pairOps (recordPairs ([] ++ records))) = some e ∧
        e.value = SecondaryIndexOp.add.raw := by
    intro p
    obtain ⟨o, hpeak, hiff⟩ := hr.ops table index key p
    rw [hiff, List.nil_append, pairOps_recordPairs, (hpeak.perm hblocks).newest_flatten]
  rw [mem_recoveredEntries_of_typed fun e he => (hops e he).2]
  constructor
  · rintro ⟨-, hne, hsorted, hkeys⟩
    refine ⟨hne, (hr.sorted _).eq_of_mem_iff hsorted fun p => ?_⟩
    rw [hheld, hkeys]
  · rintro ⟨hne, rfl⟩
    refine ⟨?_, hne, hr.sorted _, hheld⟩
    obtain ⟨q, rest, hcons⟩ := List.exists_cons_of_ne_nil hne
    obtain ⟨e, hnewest, -⟩ := (hheld q).mp (by simp [hcons])
    obtain ⟨hkey, hmem⟩ := isNewest_of_newest hnewest
    have hname := (hops e hmem.mem).1
    rw [hkey] at hname
    exact hname

/-- No index is unique. -/
def plainIndexes : Bytes → Bytes → UInt32 := fun _ _ => 0

/-- Two primary keys are added under one secondary key. -/
def addBoth : Transaction :=
  ⟨false, 1, [.entry [0x74] [0x69] [0x73] [0x70] false, .entry [0x74] [0x69] [0x73] [0x71] false]⟩

/-- A stateless request removes one of them. -/
def removeOne : Transaction := ⟨true, 2, [.entry [0x74] [0x69] [0x73] [0x70] true]⟩

theorem addBoth_recoverable : addBoth.Recoverable where
  named table index key primaryKey isDelete hmem := by
    rintro rfl
    simp [addBoth] at hmem
  keyed table index key hmem := by simp [addBoth] at hmem
  settled hstateless := by cases hstateless

theorem removeOne_recoverable : removeOne.Recoverable where
  named table index key primaryKey isDelete hmem := by
    rintro rfl
    simp [removeOne] at hmem
  keyed table index key hmem := by simp [removeOne] at hmem
  settled _ k p := by
    simp only [removeOne, opsOn_cons]
    cases (WriteOp.entry [0x74] [0x69] [0x73] [0x70] true).on k p <;> rfl

/-- The other one is recovered. -/
theorem secondary_indexes_recovered_remaining :
    ∃ h, run (History.step plainIndexes) .start
        [.commit addBoth, .advance 2, .commit removeOne] = some h ∧
      ∃ s ∈ recoveredEntries (buildRecoverySet (.insertion _) (.insertion _) [] h.log),
        s.tableName = [0x74] ∧ s.indexName = [0x69] ∧ s.key = [0x73] ∧
        s.primaryKeys = [[0x71]] := by
  have hfollowed : Along (History.step plainIndexes) Followed .start
      [.commit addBoth, .advance 2, .commit removeOne] := by
    refine .cons ⟨addBoth_recoverable, ?_⟩ rfl (.cons trivial rfl
      (.cons ⟨removeOne_recoverable, ?_⟩ rfl trivial))
    all_goals
      unfold Room
      decide
  refine ⟨_, rfl, ?_⟩
  refine (secondary_indexes_recovered plainIndexes _ _ hfollowed rfl _ (List.Perm.refl _)
    (.insertion _) (.insertion _) [0x74] [0x69] [0x73] [[0x71]]).mpr ?_
  decide

/-- A stateless request that adds a primary key and removes it again. -/
def addRemove : Transaction :=
  ⟨true, 1, [.entry [0x74] [0x69] [0x73] [0x70] false, .entry [0x74] [0x69] [0x73] [0x70] true]⟩

/-- **The fold keeps the add**: memory holds no primary key after the request, and recovery
installs one. -/
theorem removed_key_recovered :
    ∃ h, run (History.step plainIndexes) .start [.commit addRemove] = some h ∧
      (h.held (.entry [0x74] [0x69] [0x73])).content.primaryKeys = [] ∧
      ∃ s ∈ recoveredEntries (buildRecoverySet (.insertion _) (.insertion _) [] h.log),
        s.tableName = [0x74] ∧ s.indexName = [0x69] ∧ s.key = [0x73] ∧
        s.primaryKeys = [[0x70]] :=
  ⟨_, rfl, by decide, by decide⟩

end LineairDB.Recovery
