import CppColDB.Catalog.Catalog
import CppColDB.Catalog.Image

/-!
# Loading a checkpoint

`Catalog::Deserialize` creates the tables of the image in block 0 with the row groups it
lists. A segment comes back with its place and not with its statistics; markers, zone maps and
the start of the rows not yet flushed are those of an empty row group.

What is loaded depends on block 0 and the blocks of the segments alone: `loadCheckpoint_congr`.
-/

namespace CppColDB

open ByteCodec Imp List

/-! ## Row groups -/

/-- A segment of an image with the block it names. -/
def SegmentImage.restore (blocks : List Bytes) (s : SegmentImage) : ColumnSegment where
  block := (blocks[s.blockId]?).getD []
  compression := s.compression
  columnType := s.columnType
  rowCount := s.rowCount
  rowOffset := s.rowOffset

def ColumnChunk.addSegment (cc : ColumnChunk) (seg : ColumnSegment) : ColumnChunk :=
  { cc with segments := cc.segments ++ [seg] }

def RowGroupImage.restore (blocks : List Bytes) (blockSize : ℕ) (colTypes : List TypeId)
    (rowGroupId : ℕ) (image : RowGroupImage) : RowGroup :=
  let rg := RowGroup.create rowGroupId colTypes blockSize
  { rg with
    rowCount := image.rowCount
    columnChunks := rg.columnChunks.zipWith
      (fun cc segs => segs.foldl (fun cc s => cc.addSegment (s.restore blocks)) cc)
      image.colSegments }

/-! ## Tables -/

namespace Catalog

/-- The transaction that `Deserialize` creates the tables in. -/
def systemTx : Snapshot := { txId := invalidTransaction, startTime := 0 }

/-- What is loaded into an entry: the key columns and row groups of its partitions, and its
row groups. A key column that is not there gets the index -1. -/
def restoreTable (blocks : List Bytes) (image : TableImage) (t : TableCatalogEntry) :
    TableCatalogEntry :=
  let t := if t.partitionInfo.isPartitioned then
      { t with
        partitionInfo := { t.partitionInfo with
          partitionColIdxs := t.partitionInfo.partitionCols.map fun name =>
            ((t.columns.findIdx? (·.name = name)).map Int.ofNat).getD (-1) }
        partitionRgIndices := image.partitionRgIndices }
    else t
  { t with
    rowGroups := image.rowGroups.zipIdx.map fun (rg, ri) =>
      rg.restore blocks t.blockSize (image.columns.map ColumnDefinition.type) ri }

/-- One table of an image. The rows go to the first version of the name. -/
def deserializeTable (blocks : List Bytes) (schema : Bytes) (image : TableImage) :
    Imp Error Catalog Unit := do
  createTable schema image.name image.columns systemTx image.partitionInfo
  modify fun c => c.commitEntry schema image.name invalidTransaction 0
  modify fun c => c.modifyVersions schema image.name fun vs =>
    vs.modify 0 (restoreTable blocks image)

/-- The schema of an image is created if it is not there. -/
def ensureSchema (c : Catalog) (name : Bytes) : Catalog :=
  if (c.schemas.lookup name).isNone then c.setSchema name { name } else c

def deserializeSchema (blocks : List Bytes) (image : SchemaImage) : Imp Error Catalog Unit := do
  modify fun c => c.ensureSchema image.name
  forEach image.tables (deserializeTable blocks image.name)

def deserialize (blocks : List Bytes) (images : List SchemaImage) : Imp Error Catalog Unit :=
  forEach images (deserializeSchema blocks)

/-- The part of `InitPersistent` that reads the block file, if it has blocks. -/
def loadCheckpoint : List Bytes → Imp Error Catalog Unit
  | [] => pure ()
  | block :: blocks => do
    let (images, _) ← ofOption (readCatalog block)
    deserialize (block :: blocks) images

end Catalog

/-! ## The blocks of a checkpoint -/

def RowGroupImage.blockIds (rg : RowGroupImage) : List ℕ :=
  rg.colSegments.flatMap fun segs => segs.map SegmentImage.blockId

def TableImage.blockIds (t : TableImage) : List ℕ := t.rowGroups.flatMap RowGroupImage.blockIds

def SchemaImage.blockIds (s : SchemaImage) : List ℕ := s.tables.flatMap TableImage.blockIds

/-- Block 0 and the blocks of the segments that it names. -/
def checkpointBlocks (blocks : List Bytes) : List ℕ :=
  0 :: match blocks.head?.bind readCatalog with
    | none => []
    | some (images, _) => images.flatMap SchemaImage.blockIds

section Congr

variable {blocks blocks' : List Bytes}

theorem RowGroupImage.restore_congr {rg : RowGroupImage}
    (h : ∀ id ∈ rg.blockIds, blocks'[id]? = blocks[id]?) (blockSize : ℕ) (colTypes : List TypeId)
    (ri : ℕ) :
    rg.restore blocks' blockSize colTypes ri = rg.restore blocks blockSize colTypes ri := by
  have hsegs : ∀ segs ∈ rg.colSegments, ∀ cc : ColumnChunk,
      segs.foldl (fun cc s => cc.addSegment (s.restore blocks')) cc =
        segs.foldl (fun cc s => cc.addSegment (s.restore blocks)) cc := by
    intro segs hmem cc
    refine foldl_ext _ _ cc fun cc s hs => ?_
    have hid : s.blockId ∈ rg.blockIds := mem_flatMap.mpr ⟨segs, hmem, mem_map_of_mem hs⟩
    rw [SegmentImage.restore, h _ hid, ← SegmentImage.restore]
  rw [RowGroupImage.restore]
  congr 1
  rw [← map_uncurry_zip_eq_zipWith, ← map_uncurry_zip_eq_zipWith]
  exact map_congr_left fun ⟨cc, segs⟩ hmem => hsegs segs (of_mem_zip hmem).2 cc

namespace Catalog

variable {image : TableImage}

theorem restoreTable_congr (h : ∀ id ∈ image.blockIds, blocks'[id]? = blocks[id]?) :
    restoreTable blocks' image = restoreTable blocks image := by
  funext t
  rw [restoreTable]
  congr 1
  refine map_congr_left fun ⟨rg, ri⟩ hmem => RowGroupImage.restore_congr (fun id hid => ?_) ..
  exact h id (mem_flatMap.mpr ⟨rg, (mem_zipIdx' hmem).2 ▸ getElem_mem _, hid⟩)

theorem deserializeTable_congr {schema : Bytes}
    (h : ∀ id ∈ image.blockIds, blocks'[id]? = blocks[id]?) :
    deserializeTable blocks' schema image = deserializeTable blocks schema image := by
  rw [deserializeTable, restoreTable_congr h, ← deserializeTable]

theorem deserializeSchema_congr {image : SchemaImage}
    (h : ∀ id ∈ image.blockIds, blocks'[id]? = blocks[id]?) :
    deserializeSchema blocks' image = deserializeSchema blocks image := by
  rw [deserializeSchema]
  congr 1
  funext _
  exact forEach_congr fun t ht =>
    deserializeTable_congr fun id hid => h id (mem_flatMap.mpr ⟨t, ht, hid⟩)

/-- **What is loaded** depends on the blocks of the checkpoint alone. -/
theorem loadCheckpoint_congr (h : ∀ id ∈ checkpointBlocks blocks, blocks'[id]? = blocks[id]?) :
    loadCheckpoint blocks' = loadCheckpoint blocks := by
  have hfirst : blocks'[0]? = blocks[0]? := h 0 mem_cons_self
  match blocks, blocks', hfirst, h with
  | [], [], _, _ => rfl
  | block :: blocks, block' :: blocks', hfirst, h =>
    obtain rfl : block' = block := by simpa using hfirst
    funext c
    rw [loadCheckpoint, loadCheckpoint, bind_run, bind_run]
    cases hread : readCatalog block' with
    | none => simp only [ofOption_run, Option.map_none]
    | some image =>
      obtain ⟨images, rest⟩ := image
      have hused : checkpointBlocks (block' :: blocks) =
          0 :: images.flatMap SchemaImage.blockIds := by
        simp [checkpointBlocks, hread]
      have hall : deserialize (block' :: blocks') images =
          deserialize (block' :: blocks) images := by
        refine forEach_congr fun s hs => deserializeSchema_congr fun id hid => h id ?_
        rw [hused]
        exact mem_cons_of_mem _ (mem_flatMap.mpr ⟨s, hs, hid⟩)
      simp only [ofOption_run, Option.map_some, hall]

end Catalog

end Congr

end CppColDB
