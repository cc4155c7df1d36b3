import CppColDB.Catalog.Table

/-!
# Undo buffers and transactions

A transaction records each of its changes in its undo buffer. Entries name their table;
the table is looked up again when the transaction ends.
-/

namespace CppColDB

open ByteCodec

/-- A row of a table: the index of its row group and its offset there. -/
structure RowId where
  group : ℕ
  offset : ℕ
  deriving DecidableEq, Repr

/-- The offsets of the rows in row group `g`. -/
def offsetsIn (rowIds : List RowId) (g : ℕ) : List ℕ :=
  (rowIds.filter (·.group = g)).map RowId.offset

structure CatalogUndoEntry where
  schema : Bytes
  table : Bytes
  wasCreate : Bool
  colNames : List Bytes := []
  colTypes : List TypeId := []
  partitionInfo : PartitionInfo := {}
  deriving DecidableEq, Repr

structure InsertUndoEntry where
  schema : Bytes
  table : Bytes
  rowGroupId : ℕ
  appendStart : ℕ
  appendCount : ℕ
  insertedRows : DataChunk
  deriving DecidableEq, Repr

structure DeleteUndoEntry where
  schema : Bytes
  table : Bytes
  rowIds : List RowId
  deriving DecidableEq, Repr

structure UpdateUndoEntry where
  schema : Bytes
  table : Bytes
  rowIds : List RowId
  colIds : List ℕ
  oldValues : DataChunk
  newValues : DataChunk
  deriving DecidableEq, Repr

inductive AlterKind where
  | dropPartition | addPartition
  deriving DecidableEq, Repr

structure AlterPartitionUndoEntry where
  schema : Bytes
  table : Bytes
  kind : AlterKind
  oldPartitionInfo : PartitionInfo
  oldPartitionRgIndices : List (List ℕ)
  newPartitionInfo : PartitionInfo
  newPartitionRgIndices : List (List ℕ)
  deriving DecidableEq, Repr

inductive UndoEntry where
  | catalog (e : CatalogUndoEntry)
  | insert (e : InsertUndoEntry)
  | delete (e : DeleteUndoEntry)
  | update (e : UpdateUndoEntry)
  | alterPartition (e : AlterPartitionUndoEntry)
  deriving DecidableEq, Repr

/-- A transaction, with its undo buffer in the order of the changes. -/
structure Transaction extends Snapshot where
  commitTime : Timestamp := invalidTimestamp
  autoCommit : Bool := false
  undoBuffer : List UndoEntry := []
  deriving DecidableEq, Repr

end CppColDB
