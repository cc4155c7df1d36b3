import CppColDB.Common.Value
import CppColDB.Storage.Compression.Segment

/-!
# Column chunks

One column of a row group: compressed segments followed by a pending vector that is
flushed when it is full. A segment carries the contents of its buffer block; the buffer
pool between the two is transparent.

Writing past the end of a block is undefined behaviour, as is reading a vector outside its
arrays.
-/

namespace CppColDB

open ByteCodec DataVector Imp

/-- Zone-map statistics; a NULL bound is not initialised. -/
structure SegmentStats where
  minVal : Value := {}
  maxVal : Value := {}
  hasNulls : Bool := false
  deriving DecidableEq, Repr

/-- One compressed block. -/
structure ColumnSegment where
  block : Bytes
  compression : CompressionType := .uncompressed
  columnType : TypeId := .invalid
  rowCount : ℕ := 0
  rowOffset : ℕ := 0
  stats : SegmentStats := {}
  deriving DecidableEq, Repr

/-- The segments of a column and the rows not yet flushed. -/
structure ColumnChunk where
  type : TypeId
  blockSize : ℕ
  segments : List ColumnSegment := []
  pendingData : DataVector := reset type 0
  pendingRowOffset : ℕ := 0
  combinedStats : SegmentStats := {}
  deriving DecidableEq, Repr

/-! ## Statistics -/

namespace SegmentStats

/-- `operator<` between two values of one column, which come from one factory and so
never make it throw. -/
def less (a b : Value) : Bool :=
  match a.lt b with
  | .ok r => r
  | .error _ => false

def add (stats : SegmentStats) (v : Value) : SegmentStats :=
  { stats with
    minVal := if stats.minVal.isNull || less v stats.minVal then v else stats.minVal
    maxVal := if stats.maxVal.isNull || less stats.maxVal v then v else stats.maxVal }

/-- The value that enters the statistics of a column of type `type`. -/
def valueAt (type : TypeId) (vec : DataVector) (i : ℕ) : Option Value :=
  match type.storageClass with
  | .str => vec.strData[i]?.map Value.varchar
  | .float => vec.floatData[i]?.map Value.float
  | .int | .none => vec.intData[i]?.map Value.integer

/-- The loop shared by `BuildStats` and `UpdateCombinedStats`. -/
def addRows (type : TypeId) (vec : DataVector) (count : ℕ) (stats : SegmentStats) :
    Option SegmentStats :=
  (List.range count).foldlM (fun stats i =>
    if vec.isNull i then some { stats with hasNulls := true }
    else (valueAt type vec i).map stats.add) stats

def build (type : TypeId) (vec : DataVector) : Option SegmentStats :=
  addRows type vec vec.count {}

end SegmentStats

namespace ColumnChunk

def segmentRowCount (cc : ColumnChunk) : ℕ := (cc.segments.map ColumnSegment.rowCount).sum

def rowCount (cc : ColumnChunk) : ℕ := cc.segmentRowCount + cc.pendingData.count

/-! ## Appending -/

/-- `Compress` into the front of a block: the bytes after what it writes stay. -/
def writeBlock (blockSize : ℕ) (choice : CompressionChoice) (vec : DataVector) (old : Bytes) :
    Option Bytes := do
  let bytes ← compress choice vec
  if bytes.length ≤ blockSize then pure (bytes ++ old.drop bytes.length) else none

/-- Compress the pending rows into a segment of their own. -/
def flush (cc : ColumnChunk) : Option ColumnChunk :=
  if cc.pendingData.count = 0 then some cc
  else do
    let choice ← selectCompression cc.pendingData
    let block ← writeBlock cc.blockSize choice cc.pendingData []
    let seg : ColumnSegment :=
      { block, compression := choice.type, columnType := cc.type
        rowCount := cc.pendingData.count, rowOffset := cc.pendingRowOffset
        stats := cc.combinedStats }
    pure { cc with
      segments := cc.segments ++ [seg]
      pendingRowOffset := cc.pendingRowOffset + cc.pendingData.count
      pendingData := reset cc.type 0 }

/-- The loop of `AppendFromVector`; every round copies at least one row. -/
def appendLoop (vec : DataVector) (count : ℕ) : ℕ → ℕ → ColumnChunk → Option ColumnChunk
  | 0, _, cc => some cc
  | fuel + 1, srcPos, cc =>
    if count ≤ srcPos then some cc
    else do
      let cc ← if standardVectorSize ≤ cc.pendingData.count then cc.flush else some cc
      let batch := min (count - srcPos) (standardVectorSize - cc.pendingData.count)
      let pendingData ← cc.pendingData.bulkCopyRows vec srcPos batch
      appendLoop vec count fuel (srcPos + batch) { cc with pendingData }

def appendFromVector (cc : ColumnChunk) (vec : DataVector) (count : ℕ) : Option ColumnChunk := do
  let cc ← appendLoop vec count count 0 cc
  let combinedStats ← cc.combinedStats.addRows cc.type vec count
  pure { cc with combinedStats }

/-- Drop the pending rows from `newCount` on. The arrays keep their length. -/
def truncatePending (cc : ColumnChunk) (newCount : ℕ) : ColumnChunk :=
  if cc.pendingData.count ≤ newCount then cc
  else
    let dropped := cc.pendingData.count - newCount
    { cc with
      pendingData :=
        { cc.pendingData with
          validity := cc.pendingData.validity.putFrom newCount (List.replicate dropped false)
          count := newCount } }

/-! ## Reading -/

/-- `MakeScanState`: the segments from the one that holds the offset on, and the position
within the first of them. -/
def seek : List ColumnSegment → ℕ → List ColumnSegment × ℕ
  | [], rowOffset => ([], rowOffset)
  | seg :: segs, rowOffset =>
    if rowOffset < seg.rowCount then (seg :: segs, rowOffset)
    else seek segs (rowOffset - seg.rowCount)

/-- Subtraction of unsigned words. -/
def usizeSub (a b : ℕ) : ℕ := (2 ^ 64 + a - b) % 2 ^ 64

/-- The loop of `Scan`, with `count` rows still to read. -/
def scanFrom (cc : ColumnChunk) : List ColumnSegment → ℕ → ℕ → DataVector → Option DataVector
  | [], row, count, out =>
    if count = 0 then some out
    else
      let available := usizeSub cc.pendingData.count row
      if available = 0 then some out
      else out.bulkCopyRows cc.pendingData row (min count available)
  | seg :: segs, row, count, out =>
    if count = 0 then some out
    else do
      let scratch ← decompress seg.block cc.type
      let toCopy := min count (seg.rowCount - row)
      let out ← out.bulkCopyRows scratch row toCopy
      if seg.rowCount ≤ row + toCopy then scanFrom cc segs 0 (count - toCopy) out
      else some out

/-- `MakeScanState` and `Scan`: up to `count` rows from `rowOffset` on. -/
def scan (cc : ColumnChunk) (rowOffset count : ℕ) : Option DataVector :=
  let (segs, row) := seek cc.segments rowOffset
  cc.scanFrom segs row count (reset cc.type 0)

/-- The loop of `ScanRows` over the segments; the pending rows take what is left. -/
def scanRowsIn (cc : ColumnChunk) :
    List ColumnSegment → ℕ → List ℕ → DataVector → Option DataVector
  | [], segStart, offsets, out =>
    offsets.foldlM (fun out o => out.bulkCopyRows cc.pendingData (usizeSub o segStart) 1) out
  | seg :: segs, segStart, offsets, out =>
    if offsets = [] then some out
    else
      let segEnd := segStart + seg.rowCount
      let here := offsets.takeWhile (· < segEnd)
      let rest := offsets.dropWhile (· < segEnd)
      if here = [] then cc.scanRowsIn segs segEnd rest out
      else do
        let scratch ← decompress seg.block cc.type
        let out ← here.foldlM
          (fun out o => out.bulkCopyRows scratch (usizeSub o segStart) 1) out
        cc.scanRowsIn segs segEnd rest out

/-- `ScanRows`: the rows at some offsets, which have to ascend. -/
def scanRows (cc : ColumnChunk) (offsets : List ℕ) : Option DataVector :=
  cc.scanRowsIn cc.segments 0 offsets (reset cc.type 0)

/-! ## Overwriting -/

/-- Decompress a segment, change its rows and compress it again. An uncompressed segment
stays uncompressed. -/
def rewriteSegment (cc : ColumnChunk) (seg : ColumnSegment)
    (change : DataVector → Option DataVector) : Option ColumnSegment := do
  let vec ← decompress seg.block cc.type
  let vec ← change vec
  let choice ← if seg.compression = .uncompressed then some { type := .uncompressed, bitWidth := 0 }
    else selectCompression vec
  let block ← writeBlock cc.blockSize choice vec seg.block
  let stats ← SegmentStats.build cc.type vec
  pure { seg with block, compression := choice.type, stats }

/-- The segment loop of `WriteRow`: the rewritten segments, or the offset past them. -/
def writeRowIn (cc : ColumnChunk) (src : DataVector) (srcIdx : ℕ) :
    List ColumnSegment → ℕ → Option (List ColumnSegment ⊕ ℕ)
  | [], rowOffset => some (.inr rowOffset)
  | seg :: segs, rowOffset =>
    if rowOffset < seg.rowCount then do
      let seg ← cc.rewriteSegment seg fun vec => vec.writeValue cc.type rowOffset src srcIdx
      pure (.inl (seg :: segs))
    else do
      match ← writeRowIn cc src srcIdx segs (rowOffset - seg.rowCount) with
      | .inl segs => pure (.inl (seg :: segs))
      | .inr pendingIdx => pure (.inr pendingIdx)

def writeRow (rowOffset : ℕ) (src : DataVector) (srcIdx : ℕ) : Imp Error ColumnChunk Unit := do
  let cc ← get
  match ← ofOption (cc.writeRowIn src srcIdx cc.segments rowOffset) with
  | .inl segments => set { cc with segments }
  | .inr pendingIdx =>
    if cc.pendingData.count ≤ pendingIdx then
      throw (Error.runtime (text "ColumnChunk::WriteRow: row_offset out of range"))
    else do
      let pendingData ← ofOption (cc.pendingData.writeValue cc.type pendingIdx src srcIdx)
      set { cc with pendingData }

/-- Write the given source rows over a vector whose first row has offset `base`. -/
def writeValues (type : TypeId) (base : ℕ) (src : DataVector) (writes : List (ℕ × ℕ))
    (vec : DataVector) : Option DataVector :=
  writes.foldlM (fun vec w => vec.writeValue type (w.1 - base) src w.2) vec

/-- The segment loop of `WriteRows`. A write is a row offset with its source row; each
segment takes the writes below its end, and the rest is left for the pending rows
together with the offset of the first of them. -/
def writeRowsIn (cc : ColumnChunk) (src : DataVector) :
    List ColumnSegment → ℕ → List (ℕ × ℕ) → Option (List ColumnSegment × ℕ × List (ℕ × ℕ))
  | [], cur, writes => some ([], cur, writes)
  | seg :: segs, cur, writes =>
    if writes.isEmpty then some (seg :: segs, cur, [])
    else do
      let fin := cur + seg.rowCount
      let mine := writes.takeWhile fun w => w.1 < fin
      let rest := writes.dropWhile fun w => w.1 < fin
      let seg ← if mine.isEmpty then some seg
        else cc.rewriteSegment seg (writeValues cc.type cur src mine)
      let (segs, last, rest) ← writeRowsIn cc src segs fin rest
      pure (seg :: segs, last, rest)

/-- One write to the pending rows, whose first has offset `cur`. -/
def writePending (cur : ℕ) (src : DataVector) (w : ℕ × ℕ) : Imp Error ColumnChunk Unit := do
  let cc ← get
  if w.1 < cur ∨ cc.pendingData.count ≤ w.1 - cur then
    throw (Error.runtime (text "ColumnChunk::WriteRows: row_offset out of range"))
  else do
    let pendingData ← ofOption (cc.pendingData.writeValue cc.type (w.1 - cur) src w.2)
    set { cc with pendingData }

def writeRows (rowOffsets : List ℕ) (src : DataVector) : Imp Error ColumnChunk Unit :=
  if rowOffsets.isEmpty then pure ()
  else if src.count ≠ rowOffsets.length then
    throw (Error.runtime
      (text "ColumnChunk::WriteRows: src.count must match row_offsets.size()"))
  else if ¬ rowOffsets.IsChain (· ≤ ·) then
    throw (Error.runtime (text "ColumnChunk::WriteRows: row_offsets must be non-decreasing"))
  else do
    let cc ← get
    let (segments, cur, rest) ← ofOption (cc.writeRowsIn src cc.segments 0 rowOffsets.zipIdx)
    set { cc with segments }
    forEach rest (writePending cur src)

/-- The block of a segment with one row, as `RLE` writes it. -/
def rowBlock (x : UInt8) : Bytes :=
  [1, 1, 0, 0, 0, 1, 0, 0, 0, 1, 1, x, 0, 0, 0, 0, 0, 0, 0, 1, 0, 0, 0]

end ColumnChunk

end CppColDB
