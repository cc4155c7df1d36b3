import CppColDB.Storage.Column.RowGroup
import CppColDB.Storage.PartitionInfo

/-!
# Catalog entries

A table version of the catalog: the transactions that created and dropped it, and the row
groups that hold its rows.
-/

namespace CppColDB

open ByteCodec

structure ColumnDefinition where
  name : Bytes
  type : TypeId
  notNull : Bool := false
  primaryKey : Bool := false
  deriving DecidableEq, Repr

structure TableCatalogEntry where
  name : Bytes
  schemaName : Bytes
  createTxId : TransactionId := invalidTransaction
  createCommitTime : Timestamp := invalidTimestamp
  deleteTxId : TransactionId := invalidTransaction
  deleteCommitTime : Timestamp := invalidTimestamp
  columns : List ColumnDefinition := []
  rowGroups : List RowGroup := []
  blockSize : ℕ
  partitionInfo : PartitionInfo := {}
  /-- For each partition, the indices of its row groups. -/
  partitionRgIndices : List (List ℕ) := []

/-- The fields of an entry that decide who sees it. -/
structure EntryStamps where
  createTxId : TransactionId
  createCommitTime : Timestamp
  deleteTxId : TransactionId
  deleteCommitTime : Timestamp
  deriving DecidableEq, Repr

namespace EntryStamps

/-- `IsCatalogEntryVisible`. -/
def isVisible (e : EntryStamps) (tx : Snapshot) : Bool :=
  if e.createTxId ≠ tx.txId ∧
      (e.createCommitTime = invalidTimestamp ∨ tx.startTime ≤ e.createCommitTime) then false
  else if e.deleteTxId = tx.txId then false
  else if e.deleteCommitTime = invalidTimestamp then true
  else if e.deleteCommitTime < tx.startTime then false
  else true

end EntryStamps

namespace TableCatalogEntry

def stamps (t : TableCatalogEntry) : EntryStamps where
  createTxId := t.createTxId
  createCommitTime := t.createCommitTime
  deleteTxId := t.deleteTxId
  deleteCommitTime := t.deleteCommitTime

def columnTypes (t : TableCatalogEntry) : List TypeId := t.columns.map ColumnDefinition.type

/-- Add an empty row group. -/
def addRowGroup (t : TableCatalogEntry) : TableCatalogEntry :=
  { t with
    rowGroups := t.rowGroups ++ [RowGroup.create t.rowGroups.length t.columnTypes t.blockSize] }

/-- The last row group if it has room, otherwise a new one. It is the last one of the
returned table in both cases. -/
def getOrAddRowGroup (t : TableCatalogEntry) : TableCatalogEntry :=
  match t.rowGroups.getLast? with
  | some rg => if rg.rowCount < rowGroupSize then t else t.addRowGroup
  | none => t.addRowGroup

/-- The index of the last row group of partition `pid` if it has room, otherwise of a new
one. -/
def getOrAddRowGroupForPartition (t : TableCatalogEntry) (pid : ℕ) :
    Option (TableCatalogEntry × ℕ) := do
  let indices ← t.partitionRgIndices[pid]?
  let added : TableCatalogEntry × ℕ :=
    ({ t.addRowGroup with
        partitionRgIndices := t.partitionRgIndices.set pid (indices ++ [t.rowGroups.length]) },
      t.rowGroups.length)
  match indices.getLast? with
  | none => pure added
  | some last => do
    let rg ← t.rowGroups[last]?
    if rg.rowCount < rowGroupSize then pure (t, last) else pure added

end TableCatalogEntry

end CppColDB
