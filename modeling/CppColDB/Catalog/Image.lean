import CppColDB.Storage.PartitionCodec

/-!
# The image of a catalog in block 0

A checkpoint writes the definitions of the tables, and for each row group its number of rows
and where the segments of its columns are. Version markers and zone maps are not written.
The fields of an image are those after the casts of the `CkptWrite` functions.

The image is where the model of `Serialize` starts. How it is collected from the catalog, from
the versions of each name that are committed and not dropped, is not modelled, nor is the size
of block 0, which `Serialize` does not look at.
-/

namespace CppColDB

open ByteCodec Except Reader

structure SegmentImage where
  blockId : ℕ
  compression : CompressionType
  columnType : TypeId
  rowCount : ℕ
  rowOffset : ℕ
  deriving DecidableEq, Repr

structure RowGroupImage where
  rowCount : ℕ
  colSegments : List (List SegmentImage)
  deriving DecidableEq, Repr

structure TableImage where
  name : Bytes
  columns : List ColumnDefinition
  partitionInfo : PartitionInfo
  partitionRgIndices : List (List ℕ)
  rowGroups : List RowGroupImage
  deriving DecidableEq, Repr

structure SchemaImage where
  name : Bytes
  tables : List TableImage
  deriving DecidableEq, Repr

/-! ## Writing -/

def SegmentImage.bytes (s : SegmentImage) : Bytes :=
  leBytes 8 s.blockId ++ ([s.compression.toByte] ++ ([s.columnType.toByte] ++
    (leBytes 4 s.rowCount ++ leBytes 4 s.rowOffset)))

def RowGroupImage.bytes (rg : RowGroupImage) : Bytes :=
  leBytes 8 rg.rowCount ++ rg.colSegments.flatMap (list32Bytes SegmentImage.bytes)

/-- A column of a table; the primary key is not written. -/
def ColumnDefinition.bytes (col : ColumnDefinition) : Bytes :=
  str16Bytes col.name ++ ([col.type.toByte] ++ [if col.notNull then 1 else 0])

def TableImage.bytes (t : TableImage) : Except Error Bytes := do
  let partition ← partitionBytes t.partitionInfo
  pure (str16Bytes t.name ++ (list32Bytes ColumnDefinition.bytes t.columns ++ (partition ++
    ((if t.partitionInfo.isPartitioned then
      t.partitionRgIndices.flatMap (list32Bytes (leBytes 4)) else []) ++
      list32Bytes RowGroupImage.bytes t.rowGroups))))

def SchemaImage.bytes (s : SchemaImage) : Except Error Bytes := do
  let tables ← s.tables.mapM TableImage.bytes
  pure (str16Bytes s.name ++ (leBytes 4 s.tables.length ++ tables.flatten))

def catalogBytes (schemas : List SchemaImage) : Except Error Bytes := do
  let bs ← schemas.mapM SchemaImage.bytes
  pure (leBytes 4 schemas.length ++ bs.flatten)

/-! ## Reading -/

def readSegment : Reader SegmentImage := do
  let blockId ← le 8
  let code ← byte
  let compression ← lift (CompressionType.ofByte code)
  let columnType ← byte
  let rowCount ← le 4
  let rowOffset ← le 4
  pure { blockId, compression, columnType := TypeId.ofByte columnType, rowCount, rowOffset }

def readRowGroup (colCount : ℕ) : Reader RowGroupImage := do
  let rowCount ← le 8
  let colSegments ← many (list32 readSegment) colCount
  pure { rowCount, colSegments }

def readColumnDef : Reader ColumnDefinition := do
  let name ← str16
  let type ← byte
  let notNull ← byte
  pure { name, type := TypeId.ofByte type, notNull := notNull ≠ 0 }

/-- The row groups of each partition. -/
def readIndices (pi : PartitionInfo) : Reader (List (List ℕ)) :=
  if pi.isPartitioned then many (list32 (le 4)) pi.numPartitions
  else pure []

def readTable : Reader TableImage := do
  let name ← str16
  let columns ← list32 readColumnDef
  let partitionInfo ← readPartition
  let partitionRgIndices ← readIndices partitionInfo
  let rowGroups ← list32 (readRowGroup columns.length)
  pure { name, columns, partitionInfo, partitionRgIndices, rowGroups }

def readSchema : Reader SchemaImage := do
  let name ← str16
  let tables ← list32 readTable
  pure { name, tables }

def readCatalog : Reader (List SchemaImage) := list32 readSchema

/-! ## Round trip -/

/-- A segment whose fields have their widths. -/
structure SegmentImage.Writable (s : SegmentImage) : Prop where
  blockId : s.blockId < 2 ^ 64
  rowCount : s.rowCount < 2 ^ 32
  rowOffset : s.rowOffset < 2 ^ 32

theorem reads_segment {s : SegmentImage} (h : s.Writable) : Reads readSegment s.bytes s := by
  refine (reads_le h.blockId).bind ((reads_byte _).bind ?_)
  rw [CompressionType.ofByte_toByte]
  refine (reads_lift s.compression).bind ((reads_byte _).bind ?_)
  rw [TypeId.ofByte_toByte]
  exact (reads_le h.rowCount).bind ((reads_le h.rowOffset).map _)

/-- A row group of a table with the given number of columns. -/
structure RowGroupImage.Writable (colCount : ℕ) (rg : RowGroupImage) : Prop where
  rowCount : rg.rowCount < 2 ^ 64
  columns : rg.colSegments.length = colCount
  segments : ∀ segs ∈ rg.colSegments, segs.length < 2 ^ 32 ∧ ∀ s ∈ segs, s.Writable

theorem reads_rowGroup {colCount : ℕ} {rg : RowGroupImage} (h : rg.Writable colCount) :
    Reads (readRowGroup colCount) rg.bytes rg := by
  refine (reads_le h.rowCount).bind ?_
  have hsegs : ∀ segs ∈ rg.colSegments,
      Reads (list32 readSegment) (list32Bytes SegmentImage.bytes segs) segs := by
    intro segs hmem
    obtain ⟨hlen, hall⟩ := h.segments segs hmem
    exact reads_list32 (fun s hs => reads_segment (hall s hs)) hlen
  rw [← h.columns]
  exact (reads_many hsegs).map _

theorem reads_columnDef {col : ColumnDefinition} (hname : col.name.length < 2 ^ 16)
    (hkey : col.primaryKey = false) : Reads readColumnDef col.bytes col := by
  refine (reads_str16 hname).bind ((reads_byte _).bind ?_)
  rw [TypeId.ofByte_toByte]
  have hread := (reads_byte (if col.notNull then 1 else 0)).map fun notNull =>
    ({ name := col.name, type := col.type, notNull := notNull ≠ 0 } : ColumnDefinition)
  obtain ⟨name, type, notNull, primaryKey⟩ := col
  obtain rfl : primaryKey = false := hkey
  cases notNull <;> exact hread

structure TableImage.Writable (t : TableImage) : Prop where
  name : t.name.length < 2 ^ 16
  columnCount : t.columns.length < 2 ^ 32
  columns : ∀ col ∈ t.columns, col.name.length < 2 ^ 16 ∧ col.primaryKey = false
  partition : t.partitionInfo.Writable
  layout : t.partitionInfo.layout = t.partitionInfo
  indexCount : t.partitionRgIndices.length =
    if t.partitionInfo.isPartitioned then t.partitionInfo.numPartitions else 0
  indices : ∀ idxs ∈ t.partitionRgIndices, idxs.length < 2 ^ 32 ∧ ∀ i ∈ idxs, i < 2 ^ 32
  rowGroupCount : t.rowGroups.length < 2 ^ 32
  rowGroups : ∀ rg ∈ t.rowGroups, rg.Writable t.columns.length

variable {bs : Bytes}

theorem reads_table {t : TableImage} (h : t.Writable) (hbs : t.bytes = .ok bs) :
    Reads readTable bs t := by
  obtain ⟨partition, hpartition, hbs⟩ := bind_eq_ok_iff.mp hbs
  cases hbs
  have hpart := reads_partition hpartition h.partition
  rw [h.layout] at hpart
  have hindex : Reads (readIndices t.partitionInfo)
      (if t.partitionInfo.isPartitioned then
        t.partitionRgIndices.flatMap (list32Bytes (leBytes 4)) else [])
      t.partitionRgIndices := by
    have hcount := h.indexCount
    rw [readIndices]
    split at hcount
    next hp =>
      rw [if_pos hp, if_pos hp, ← hcount]
      refine reads_many fun idxs hidxs => ?_
      obtain ⟨hlen, hall⟩ := h.indices idxs hidxs
      exact reads_list32 (fun i hi => reads_le (hall i hi)) hlen
    next hp =>
      rw [if_neg hp, if_neg hp, List.length_eq_zero_iff.mp hcount]
      exact reads_pure []
  have hrows := reads_list32 (fun rg hrg => reads_rowGroup (h.rowGroups rg hrg)) h.rowGroupCount
  exact (reads_str16 h.name).bind ((reads_list32 (fun col hcol =>
    reads_columnDef (h.columns col hcol).1 (h.columns col hcol).2) h.columnCount).bind
      (hpart.bind (hindex.bind (hrows.map _))))

structure SchemaImage.Writable (s : SchemaImage) : Prop where
  name : s.name.length < 2 ^ 16
  tableCount : s.tables.length < 2 ^ 32
  tables : ∀ t ∈ s.tables, t.Writable

theorem reads_schema {s : SchemaImage} (h : s.Writable) (hbs : s.bytes = .ok bs) :
    Reads readSchema bs s := by
  obtain ⟨parts, hparts, hbs⟩ := bind_eq_ok_iff.mp hbs
  cases hbs
  have hall := (List.forall₂_and_left _ _).mpr ⟨h.tables, mapM_eq_ok_iff.mp hparts⟩
  exact (reads_str16 h.name).bind ((reads_list32_of_forall₂
    (hall.imp fun t c ht => reads_table ht.1 ht.2) h.tableCount).map _)

/-- **An image is read back** from the front of the block. -/
theorem reads_catalog {schemas : List SchemaImage} (hcount : schemas.length < 2 ^ 32)
    (h : ∀ s ∈ schemas, s.Writable) (hbs : catalogBytes schemas = .ok bs) :
    Reads readCatalog bs schemas := by
  obtain ⟨parts, hparts, hbs⟩ := bind_eq_ok_iff.mp hbs
  cases hbs
  have hall := (List.forall₂_and_left _ _).mpr ⟨h, mapM_eq_ok_iff.mp hparts⟩
  exact reads_list32_of_forall₂ (hall.imp fun s c hs => reads_schema hs.1 hs.2) hcount

theorem reads_catalog_main : ∃ s bs, s.tables ≠ [] ∧ catalogBytes [s] = .ok bs ∧
    Reads readCatalog bs [s] :=
  ⟨⟨text "main", [⟨text "t", [⟨text "a", .int64, true, false⟩], {}, [], [⟨0, [[]]⟩]⟩]⟩, _, nofun,
    rfl, reads_catalog (by decide) (by repeat' first | decide | simp | constructor) rfl⟩

end CppColDB
