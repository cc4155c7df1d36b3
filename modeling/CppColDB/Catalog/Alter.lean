import CppColDB.Catalog.Table

/-!
# ALTER TABLE

Partitions are added and dropped in the table entry itself. The row groups of a dropped
partition stay in the table, but no partition lists them any more. A rollback restores the
lists as they were, so what holds of them has to hold of all earlier ones with the row groups
that the table has by then.
-/

namespace CppColDB

open List

namespace TableCatalogEntry

variable (t : TableCatalogEntry)

/-- `DropPartition` on the entry. Erasing beyond the end is undefined. -/
def dropPartition (pid : ℕ) : Option TableCatalogEntry :=
  if pid < t.partitionInfo.defs.length ∧ pid < t.partitionRgIndices.length then
    some { t with
      partitionInfo := { t.partitionInfo with
        defs := t.partitionInfo.defs.eraseIdx pid
        numPartitions := t.partitionInfo.numPartitions - 1 }
      partitionRgIndices := t.partitionRgIndices.eraseIdx pid }
  else none

/-- The partitions after `AddPartition`. The bound of a range partition becomes that of the
last one so far, and the new one is open above. -/
def addedDefs (newBound : List Value) (newValues : List (List Value)) : List PartitionDef :=
  match t.partitionInfo.type with
  | .range => t.partitionInfo.defs.modify (t.partitionInfo.defs.length - 1)
      (fun d => { d with upperBounds := newBound }) ++ [{}]
  | _ => t.partitionInfo.defs ++ [{ listValues := newValues }]

/-- `AddPartition` on the entry. -/
def addPartition (newBound : List Value) (newValues : List (List Value)) : TableCatalogEntry :=
  { t with
    partitionInfo := { t.partitionInfo with
      defs := t.addedDefs newBound newValues
      numPartitions := t.partitionInfo.numPartitions + 1 }
    partitionRgIndices := t.partitionRgIndices ++ [[]] }

/-! ## The row groups of the partitions -/

/-- The partitions of a table and their row groups, as `ALTER TABLE` saves them. -/
abbrev PartitionState := PartitionInfo × List (List ℕ)

def partitionState : PartitionState := (t.partitionInfo, t.partitionRgIndices)

/-- What the statements of any transactions and their undo do to the partitions of a table. A
step `rows` changes what the row groups hold; any state of the past can be restored. -/
inductive PartitionStep (past : List PartitionState) : TableCatalogEntry → Prop
  | insert {t' pid g} (h : t.getOrAddRowGroupForPartition pid = some (t', g)) :
    PartitionStep past t'
  | rows {rowGroups} (h : rowGroups.length = t.rowGroups.length) :
    PartitionStep past { t with rowGroups }
  | add newBound newValues : PartitionStep past (t.addPartition newBound newValues)
  | drop {t' pid} (h : t.dropPartition pid = some t') : PartitionStep past t'
  | restore {pi rgIndices} (h : (pi, rgIndices) ∈ past) :
    PartitionStep past { t with partitionInfo := pi, partitionRgIndices := rgIndices }

/-- A run, with the states before the last one. -/
inductive PartitionRun : List PartitionState → TableCatalogEntry → Prop
  | refl : PartitionRun [] t
  | step {past t₁ t₂} (h : PartitionRun past t₁) (hstep : t₁.PartitionStep past t₂) :
    PartitionRun (t₁.partitionState :: past) t₂

/-- The lists of a table with `n` row groups name each of them at most once. -/
structure ListedOnce (n : ℕ) (p : PartitionState) : Prop where
  length : p.2.length = p.1.numPartitions
  increasing : ∀ idxs ∈ p.2, idxs.Pairwise (· < ·)
  bounded : ∀ i ∈ p.2.flatten, i < n
  nodup : p.2.flatten.Nodup

variable {t} {t' : TableCatalogEntry} {past : List PartitionState} {n : ℕ} {p : PartitionState}

/-- A new row group is in no list yet. -/
theorem ListedOnce.insert (h : ListedOnce n p) {pid : ℕ} {indices : List ℕ}
    (hpid : p.2[pid]? = some indices) : ListedOnce (n + 1) (p.1, p.2.set pid (indices ++ [n])) := by
  obtain ⟨hlt, rfl⟩ := List.getElem?_eq_some_iff.mp hpid
  have hperm : (p.2.set pid (p.2[pid] ++ [n])).flatten ~ n :: p.2.flatten := by
    obtain ⟨before, after, hlists, -, hset⟩ := @exists_of_set _ _ (p.2[pid] ++ [n]) _ hlt
    rw [hset, congrArg flatten hlists]
    simpa using @perm_middle _ n (before.flatten ++ p.2[pid]) after.flatten
  refine ⟨(length_set ..).trans h.length, fun idxs hidxs => ?_, fun i hi => ?_, ?_⟩
  · rcases mem_or_eq_of_mem_set hidxs with hidxs | rfl
    · exact h.increasing idxs hidxs
    · refine pairwise_append.mpr ⟨h.increasing _ (getElem_mem hlt), pairwise_singleton _ _, ?_⟩
      intro i hi j hj
      rw [mem_singleton.mp hj]
      exact h.bounded i (mem_flatten_of_mem (getElem_mem hlt) hi)
  · rcases mem_cons.mp (hperm.mem_iff.mp hi) with rfl | hi
    · exact lt_add_one _
    · exact Nat.lt_succ_of_lt (h.bounded i hi)
  · exact hperm.nodup_iff.mpr (nodup_cons.mpr ⟨fun hn => (h.bounded n hn).false, h.nodup⟩)

theorem ListedOnce.step (hstep : t.PartitionStep past t')
    (h : ListedOnce t.rowGroups.length t.partitionState)
    (hpast : ∀ p ∈ past, ListedOnce t.rowGroups.length p) :
    ListedOnce t'.rowGroups.length t'.partitionState ∧
      t.rowGroups.length ≤ t'.rowGroups.length := by
  cases hstep with
  | insert hadd =>
    obtain ⟨indices, hpid, hadd⟩ := Option.bind_eq_some_iff.mp hadd
    have hnew := h.insert hpid
    split at hadd
    · cases hadd
      exact ⟨by simpa [partitionState, addRowGroup] using hnew, by simp [addRowGroup]⟩
    · obtain ⟨rg, -, hadd⟩ := Option.bind_eq_some_iff.mp hadd
      split at hadd <;> cases hadd
      · exact ⟨h, le_rfl⟩
      · exact ⟨by simpa [partitionState, addRowGroup] using hnew, by simp [addRowGroup]⟩
  | rows hlen => exact ⟨hlen ▸ h, hlen.ge⟩
  | add newBound newValues =>
    have hflat : (t.partitionRgIndices ++ [[]]).flatten = t.partitionRgIndices.flatten := by simp
    refine ⟨⟨(length_append ..).trans (congrArg (· + 1) h.length), fun idxs hidxs => ?_,
      fun i hi => h.bounded i (hflat ▸ hi), hflat.symm ▸ h.nodup⟩, le_rfl⟩
    rcases mem_append.mp hidxs with hidxs | hidxs
    · exact h.increasing idxs hidxs
    · simp [mem_singleton.mp hidxs]
  | @drop _ pid hdrop =>
    rw [dropPartition] at hdrop
    split at hdrop
    next hpid =>
      cases hdrop
      have hsub := (eraseIdx_sublist t.partitionRgIndices pid).flatten
      exact ⟨⟨(length_eraseIdx_of_lt hpid.2).trans (congrArg (· - 1) h.length),
        fun idxs hidxs => h.increasing idxs (mem_of_mem_eraseIdx hidxs),
        fun i hi => h.bounded i (hsub.subset hi), h.nodup.sublist hsub⟩, le_rfl⟩
    next => cases hdrop
  | restore hmem => exact ⟨hpast _ hmem, le_rfl⟩

/-- **Row-group lists stay disjoint** in every run of inserts, `ALTER TABLE` and rollbacks on a
table that was created without rows: a row group is listed for one partition, once. -/
theorem PartitionRun.listedOnce
    (hlists : t.partitionRgIndices = replicate t.partitionInfo.numPartitions [])
    (h : t.PartitionRun past t') : ListedOnce t'.rowGroups.length t'.partitionState := by
  have hall : ∀ p ∈ t'.partitionState :: past, ListedOnce t'.rowGroups.length p := by
    induction h with
    | refl => exact forall_mem_singleton.mpr (by constructor <;> simp [partitionState, hlists])
    | step _ hstep ih =>
      obtain ⟨h₁, hpast⟩ := forall_mem_cons.mp ih
      obtain ⟨h₂, hle⟩ := h₁.step hstep hpast
      exact forall_mem_cons.mpr ⟨h₂, fun p hp => { ih p hp with
        bounded := fun i hi => ((ih p hp).bounded i hi).trans_le hle }⟩
  exact hall _ mem_cons_self

/-- A table with a partition for the key 1 and one for the key 2. -/
def listTable : TableCatalogEntry where
  name := text "t"
  schemaName := text "main"
  columns := [{ name := text "k", type := .int64 }]
  blockSize := 262144
  partitionInfo :=
    { type := .list, partitionCols := [text "k"], partitionColIdxs := [0], numPartitions := 2
      defs := [{ listValues := [[.integer 1]] }, { listValues := [[.integer 2]] }] }
  partitionRgIndices := [[], []]

/-- A partition is added and receives rows, the second one is dropped and its row group is no
longer listed; after an insert into the first one the drop is undone. -/
theorem listedOnce_dropped_and_restored : ∃ past t', listTable.PartitionRun past t' ∧
    t'.rowGroups.length = 3 ∧ t'.partitionRgIndices = [[], [0], [1]] ∧
    ListedOnce t'.rowGroups.length t'.partitionState := by
  have hadd : listTable.PartitionRun _ _ :=
    .step (.step .refl (@PartitionStep.insert _ _ _ 1 _ rfl)) (.add [] [[.integer 3]])
  have hfilled := PartitionRun.step hadd (@PartitionStep.insert _ _ _ 2 _ rfl)
  have hdropped := PartitionRun.step hfilled (@PartitionStep.drop _ _ _ 1 rfl)
  have hrun := PartitionRun.step (.step hdropped (@PartitionStep.insert _ _ _ 0 _ rfl))
    (.restore (mem_cons_of_mem _ mem_cons_self))
  exact ⟨_, _, hrun, rfl, rfl, hrun.listedOnce rfl⟩

end TableCatalogEntry

end CppColDB
