import CppColDB.Execution.PartitionScan

/-!
# What a scan of a partitioned table returns

A scan of a partitioned table should return the wanted rows of the row groups that its
partitions list. On top of the defects of every scan, it returns rows of all row groups,
those of dropped partitions too, where pruning leaves no partition.
-/

namespace CppColDB

open List

namespace TableScan

variable (S : TableScan) (P : Platform) (D : DoubleOps) (tx : Snapshot)

/-- The row groups that some partition lists. -/
def listedGroups (t : TableCatalogEntry) : List RowGroup :=
  ((range t.rowGroups.length).filter fun i =>
    decide (i ∈ t.partitionRgIndices.flatten)).filterMap (t.rowGroups[·]?)

/-- **The scan returns what it should**: the wanted rows of the listed row groups, each
once. -/
def ScansTableExactly (t : TableCatalogEntry) : Prop :=
  ∃ outs, (∀ᶠ fuel in Filter.atTop, S.scanTable P D tx t fuel = some (.ok outs)) ∧
    ∃ rows, DataChunk.HoldAll outs S.outputTypes rows ∧
      rows.Perm (S.rowsWhere (listedGroups t) (S.wanted D tx))

/-- A scan of a partitioned table, with the partitions that pruning leaves. Pruning is sound:
it names partitions of the table, each once, and every one with a wanted row. -/
structure ScansTable (types : List TypeId) (t : TableCatalogEntry) (active : List ℕ) : Prop where
  scans : S.Scans D tx types t.rowGroups
  partitioned : t.partitionInfo.isPartitioned
  pruned : S.activePartitions P t = some (.ok active)
  listed : Listed t active
  listedOnce : t.partitionRgIndices.flatten.Nodup
  activeOnce : active.Nodup
  sound : ∀ pid ∉ active, ∀ rg ∈ partitionGroups t pid, ∀ o < rg.rowCount,
    S.wanted D tx (rg, o) = false

/-- No row of the row groups is returned: the rows outside the skipped stretches do not meet
the filters, or are not let through where the filters are not looked at. -/
def ReadsNothing (groups : List RowGroup) : Prop :=
  ∀ rg ∈ groups, ∀ o < rg.rowCount, rg.jumped S.scanPredicates o = false →
    if S.payloadColIds ≠ [] then S.wanted D tx (rg, o) = false else rg.admits tx o = false

variable {S P D tx} {t : TableCatalogEntry} {types : List TypeId} {active : List ℕ}
  {groups groups' : List RowGroup} {p : RowGroup × ℕ → Bool}

/-! ## The rows of the partitions -/

theorem rowsWhere_append :
    S.rowsWhere (groups ++ groups') p = S.rowsWhere groups p ++ S.rowsWhere groups' p := by
  rw [rowsWhere, positions, flatMap_append, filter_append, map_append]
  rfl

theorem rowsWhere_perm (h : groups.Perm groups') :
    (S.rowsWhere groups p).Perm (S.rowsWhere groups' p) :=
  ((h.flatMap_right _).filter _).map _

theorem rowsWhere_eq_nil : S.rowsWhere groups p = [] ↔
    ∀ rg ∈ groups, ∀ o < rg.rowCount, p (rg, o) = false := by
  rw [rowsWhere, map_eq_nil_iff, filter_eq_nil_iff]
  constructor
  · intro h rg hrg o ho
    simpa using h (rg, o) (mem_positions.mpr ⟨hrg, ho⟩)
  · rintro h ⟨rg, o⟩ hpos
    obtain ⟨hrg, ho⟩ := mem_positions.mp hpos
    simpa using h rg hrg o ho

/-- All partitions together have the listed row groups. -/
theorem perm_listedGroups (hlisted : Listed t active) (honce : t.partitionRgIndices.flatten.Nodup) :
    (activeGroups t (range t.partitionRgIndices.length)).Perm (listedGroups t) := by
  have hall : activeGroups t (range t.partitionRgIndices.length) =
      t.partitionRgIndices.flatten.filterMap (t.rowGroups[·]?) := by
    have hrange : t.partitionRgIndices =
        (range t.partitionRgIndices.length).map (t.partitionRgIndices.getD · []) := by
      refine ext_getElem (by simp) fun pid hpid _ => ?_
      simp [hpid]
    conv_rhs => rw [hrange, filterMap_flatten, map_map]
    rfl
  rw [hall]
  refine Perm.filterMap _ ((perm_ext_iff_of_nodup honce
    (nodup_range.filter _)).mpr fun i => ?_)
  rw [mem_filter, mem_range, decide_eq_true_eq]
  refine ⟨fun hi => ⟨?_, hi⟩, And.right⟩
  obtain ⟨rgIndices, hmem, hi⟩ := mem_flatten.mp hi
  exact hlisted.group rgIndices hmem i hi

/-- **The wanted rows of the table** are those of the active partitions. -/
theorem ScansTable.wanted_perm (h : S.ScansTable P D tx types t active) :
    (S.rowsWhere (activeGroups t active) (S.wanted D tx)).Perm
      (S.rowsWhere (listedGroups t) (S.wanted D tx)) := by
  let pruned := (range t.partitionRgIndices.length).filter fun pid => decide (pid ∉ active)
  have hsplit : (active ++ pruned).Perm (range t.partitionRgIndices.length) := by
    have hnodup : (active ++ pruned).Nodup :=
      h.activeOnce.append (nodup_range.filter _) fun pid hpid hpruned =>
        of_decide_eq_true (mem_filter.mp hpruned).2 hpid
    refine (perm_ext_iff_of_nodup hnodup nodup_range).mpr fun pid => ?_
    rw [mem_append, mem_filter, decide_eq_true_eq]
    constructor
    · rintro (hpid | hpid)
      · exact mem_range.mpr (h.listed.partition pid hpid)
      · exact hpid.1
    · intro hpid
      by_cases hmem : pid ∈ active
      · exact .inl hmem
      · exact .inr ⟨hpid, hmem⟩
  have hnone : S.rowsWhere (activeGroups t pruned) (S.wanted D tx) = [] := by
    rw [rowsWhere_eq_nil]
    intro rg hrg
    obtain ⟨pid, hpid, hrg⟩ := mem_flatMap.mp hrg
    exact h.sound pid (of_decide_eq_true (mem_filter.mp hpid).2) rg hrg
  have hgroups : activeGroups t (active ++ pruned) = activeGroups t active ++ activeGroups t pruned :=
    flatMap_append
  have hperm := rowsWhere_perm (S := S) (p := S.wanted D tx)
    ((hsplit.flatMap_right (partitionGroups t)).trans (perm_listedGroups h.listed h.listedOnce))
  change (S.rowsWhere (activeGroups t (active ++ pruned)) _).Perm _ at hperm
  rwa [hgroups, rowsWhere_append, hnone, append_nil] at hperm

/-! ## The run -/

theorem partitionGroups_subset (pid : ℕ) : partitionGroups t pid ⊆ t.rowGroups := by
  intro rg hrg
  obtain ⟨i, -, hi⟩ := mem_filterMap.mp hrg
  exact mem_of_getElem? hi

theorem Scans.mono (h : S.Scans D tx types groups) (hsub : groups' ⊆ groups) :
    S.Scans D tx types groups' :=
  ⟨h.planned, fun rg hrg => h.readable rg (hsub hrg), fun rg hrg => h.statsBound rg (hsub hrg),
    fun rg hrg => h.evaluates rg (hsub hrg)⟩

theorem Scans.activeGroups_scans (h : S.Scans D tx types t.rowGroups) :
    S.Scans D tx types (activeGroups t active) := by
  refine h.mono fun rg hrg => ?_
  obtain ⟨pid, -, hrg⟩ := mem_flatMap.mp hrg
  exact partitionGroups_subset pid hrg

/-- The row groups that the scan goes through. -/
def scannedGroups (t : TableCatalogEntry) (active : List ℕ) : List RowGroup :=
  if active = [] then t.rowGroups else activeGroups t active

theorem ScansTable.scanned (h : S.ScansTable P D tx types t active) :
    S.Scans D tx types (scannedGroups t active) := by
  rw [scannedGroups]
  split
  · exact h.scans
  · exact h.scans.activeGroups_scans

/-- **What the scan returns**: the rows found in the row groups it goes through. -/
theorem exists_scanTable (hplanned : S.Planned types)
    (hscan : ∀ rg ∈ scannedGroups t active, S.Scannable D tx types rg)
    (hpruned : S.activePartitions P t = some (.ok active)) (hlisted : Listed t active) :
    ∃ outs, (∀ᶠ fuel in Filter.atTop, S.scanTable P D tx t fuel = some (.ok outs)) ∧
      DataChunk.HoldAll outs S.outputTypes
        (S.rowsWhere (scannedGroups t active) (S.found D tx)) := by
  obtain ⟨outs, state', hrun, hholds⟩ := scanAll_run hplanned hscan
    (Nat.lt_succ_self (turns (scannedGroups t active) {}))
  rw [rowsLeft_zero, returnedAll_eq] at hholds
  refine ⟨outs, ?_, hholds⟩
  by_cases hactive : active = []
  · rw [scannedGroups, if_pos hactive] at hrun
    refine (Filter.eventually_ge_atTop (turns t.rowGroups {} + 1)).mono fun fuel hfuel => ?_
    rw [scanTable, hpruned]
    dsimp only
    rw [if_pos hactive, hrun fuel hfuel fuel hfuel]
    rfl
  · rw [scannedGroups, if_neg hactive] at hrun
    refine (Filter.eventually_ge_atTop
      (turns (activeGroups t active) {} + 1 + active.length)).mono fun fuel hfuel => ?_
    have hflat := hrun (turns (activeGroups t active) {} + 1) le_rfl fuel (by omega)
    obtain ⟨state'', hpart⟩ := scanPartitions_eq hlisted (inPartition_start 0) hflat hfuel
    rw [scanTable, hpruned]
    dsimp only
    rw [if_neg hactive, hpart]
    rfl

/-- The scan is right if and only if it finds the rows it should. -/
theorem ScansTable.exactly_iff_perm (h : S.ScansTable P D tx types t active) :
    S.ScansTableExactly P D tx t ↔ (S.rowsWhere (scannedGroups t active) (S.found D tx)).Perm
        (S.rowsWhere (activeGroups t active) (S.wanted D tx)) := by
  obtain ⟨outs, hrun, hholds⟩ :=
    exists_scanTable h.scans.planned h.scanned.scannable h.pruned h.listed
  constructor
  · rintro ⟨outs', hrun', rows, hholds', hperm⟩
    obtain ⟨fuel, h₁, h₂⟩ := (hrun.and hrun').exists
    obtain rfl : outs = outs' := by
      rw [h₁] at h₂
      cases h₂
      rfl
    obtain rfl := hholds.unique hholds'
    exact hperm.trans h.wanted_perm.symm
  · exact fun hperm => ⟨outs, hrun, _, hholds, hperm.trans h.wanted_perm⟩

theorem rowsWhere_found_eq_nil :
    S.rowsWhere groups (S.found D tx) = [] ↔ S.ReadsNothing D tx groups := by
  rw [rowsWhere_eq_nil]
  refine forall₂_congr fun rg _ => forall₂_congr fun o _ => ?_
  rw [found, keeps]
  cases rg.jumped S.scanPredicates o with
  | true => simp
  | false =>
    simp only [forall_const]
    split <;> rfl

/-- **A scan of a partitioned table.** As long as pruning leaves a partition, it returns what it
should under the conditions of every scan, on the row groups of the active partitions. Where
pruning leaves none, it does so if and only if nothing is returned of any row group of the
table. -/
theorem scansTableExactly_conditions (S : TableScan) (P : Platform) (D : DoubleOps)
    (tx : Snapshot) (types : List TypeId) (t : TableCatalogEntry) (active : List ℕ)
    (h : S.ScansTable P D tx types t active) :
    (active ≠ [] → S.JumpsRight D tx (activeGroups t active) ∧
        S.ReadsMatching D tx (activeGroups t active) ∧
        S.ReadsVisible tx (activeGroups t active) → S.ScansTableExactly P D tx t) ∧
    (active ≠ [] → S.ScansTableExactly P D tx t → S.ReadsMatching D tx (activeGroups t active) ∧
        (S.JumpsRight D tx (activeGroups t active) ↔ S.ReadsVisible tx (activeGroups t active))) ∧
    (active = [] → (S.ScansTableExactly P D tx t ↔ S.ReadsNothing D tx t.rowGroups)) := by
  rw [h.exactly_iff_perm]
  refine ⟨fun hactive hok => ?_, fun hactive hperm => ?_, fun hactive => ?_⟩
  · rw [scannedGroups, if_neg hactive]
    exact .of_eq (h.scans.activeGroups_scans.rowsWhere_eq hok.1 hok.2.1 hok.2.2)
  · rw [scannedGroups, if_neg hactive] at hperm
    exact h.scans.activeGroups_scans.of_perm hperm
  · subst hactive
    rw [← rowsWhere_found_eq_nil]
    exact perm_nil

/-! ### A table with two partitions -/

/-- The rows of one partition: the same key in both. -/
def keyed (x : UInt8) (y : Int64) : RowGroup := twoRows [(x, y), (7, 8)]

/-- `t (a, b)`, partitioned by the values of `a`, with two rows for 5 and two for 6. -/
def fivesTable : TableCatalogEntry where
  name := text "t"
  schemaName := text "main"
  blockSize := 262144
  rowGroups := [keyed 5 5, keyed 6 6]
  partitionInfo :=
    { type := .list, partitionCols := [text "a"], partitionColIdxs := [0], numPartitions := 2
      defs := [{ listValues := [[.integer 5]] }, { listValues := [[.integer 6]] }] }
  partitionRgIndices := [[0], [1]]

/-- `fivesTable` after `DROP PARTITION 0`. -/
def withoutFives : TableCatalogEntry :=
  { fivesTable with
    partitionInfo := { fivesTable.partitionInfo with
      numPartitions := 1, defs := [{ listValues := [[.integer 6]] }] }
    partitionRgIndices := [[1]] }

theorem scans_fivesTable :
    (firstIs 5 2).Scans noDoubles ⟨1, 0⟩ [.int64, .int64] [keyed 5 5, keyed 6 6] := by
  have hseven : ∃ y, decompress (ColumnChunk.rowBlock 7) .int64 =
      some (ColumnChunk.oneInt y) := ⟨7, by decide +kernel⟩
  refine @scans_firstIs noDoubles ⟨1, 0⟩ _ 2 5 (by decide) (forall_mem_cons.mpr
    ⟨readable_twoRows ?_, forall_mem_singleton.mpr (readable_twoRows ?_)⟩)
    (fun rg hrg => statsBound_of_null ?_) (by decide +kernel)
  · exact forall_mem_cons.mpr ⟨⟨5, by decide +kernel⟩, forall_mem_singleton.mpr hseven⟩
  · exact forall_mem_cons.mpr ⟨⟨6, by decide +kernel⟩, forall_mem_singleton.mpr hseven⟩
  · revert rg
    decide +kernel

/-- The partition for 6 has no row that is wanted. -/
theorem not_wanted_sixes : ∀ o < (keyed 6 6).rowCount,
    (firstIs 5 2).wanted noDoubles ⟨1, 0⟩ (keyed 6 6, o) = false := by
  decide +kernel

/-- The rows of one partition are found by their key, and the other partition is pruned. -/
theorem scans_partition_of_five :
    (firstIs 5 2).ScansTable .plain noDoubles ⟨1, 0⟩ [.int64, .int64] fivesTable [0] ∧
      (firstIs 5 2).ScansTableExactly .plain noDoubles ⟨1, 0⟩ fivesTable := by
  have htable : (firstIs 5 2).ScansTable .plain noDoubles ⟨1, 0⟩ [.int64, .int64] fivesTable
      [0] := by
    refine ⟨scans_fivesTable, rfl, by decide +kernel, ⟨by decide, by decide⟩, by decide,
      by decide, ?_⟩
    intro pid hpid rg hrg
    match pid, hpid, hrg with
    | 0, hpid, _ => exact absurd (mem_singleton_self 0) hpid
    | 1, _, hrg =>
      obtain rfl : rg = keyed 6 6 := mem_singleton.mp hrg
      exact not_wanted_sixes
  have hpayload : (firstIs 5 2).payloadColIds ≠ [] := by decide +kernel
  refine ⟨htable, (scansTableExactly_conditions _ _ _ _ _ _ _ htable).1 (by decide)
    ⟨fun rg hrg j hj => ?_, fun h => absurd h hpayload, fun h => absurd h hpayload⟩⟩
  obtain rfl : rg = keyed 5 5 := mem_singleton.mp hrg
  have hnone : (keyed 5 5).jumps (firstIs 5 2).scanPredicates = [] := by decide +kernel
  rw [hnone] at hj
  cases hj

/-- After the partition has been dropped its rows are still returned. -/
theorem scan_returns_dropped_partition : fivesTable.dropPartition 0 = some withoutFives ∧
      (firstIs 5 2).ScansTable .plain noDoubles ⟨1, 0⟩ [.int64, .int64] withoutFives [] ∧
      ¬ (firstIs 5 2).ScansTableExactly .plain noDoubles ⟨1, 0⟩ withoutFives := by
  have htable : (firstIs 5 2).ScansTable .plain noDoubles ⟨1, 0⟩ [.int64, .int64] withoutFives
      [] := by
    refine ⟨scans_fivesTable, rfl, by decide +kernel, ⟨by decide, by decide⟩, by decide,
      by decide, ?_⟩
    intro pid _ rg hrg
    match pid, hrg with
    | 0, hrg =>
      obtain rfl : rg = keyed 6 6 := mem_singleton.mp hrg
      exact not_wanted_sixes
  refine ⟨rfl, htable, ?_⟩
  rw [htable.exactly_iff_perm]
  decide +kernel

end TableScan

end CppColDB
