import CppColDB.Storage.Column.Contents

/-!
# Zone maps

A segment carries the least and the greatest of its values, and a scan skips the segments
whose statistics exclude its predicate. The statistics of a segment are those of the whole
column at the moment of the flush, and they do not always cover the rows that are flushed.
-/

namespace CppColDB

open ByteCodec Except Imp List Option SegmentStats Std

inductive ScanPredicateOp where
  | eq | lt | le | gt | ge
  deriving DecidableEq, Repr

namespace ScanPredicateOp

/-- Whether the statistics exclude every value that stands in the relation to the bound. -/
def excludes (op : ScanPredicateOp) (mn mx bound : Value) : Except Error Bool :=
  match op with
  | .eq => do
    let below ← bound.lt mn
    if below then pure true else mx.lt bound
  | .gt => return !(← bound.lt mx)
  | .ge => mx.lt bound
  | .lt => return !(← mn.lt bound)
  | .le => bound.lt mn

/-- Whether a value stands in the relation to the bound. -/
def Holds (op : ScanPredicateOp) (v bound : Value) : Prop :=
  match op with
  | .eq => v.eq bound = .ok true
  | .lt => v.lt bound = .ok true
  | .le => v.lt bound = .ok true ∨ v.eq bound = .ok true
  | .gt => bound.lt v = .ok true
  | .ge => bound.lt v = .ok true ∨ v.eq bound = .ok true

end ScanPredicateOp

namespace ColumnChunk

/-- The rest of the segment at the offset, if its statistics exclude the predicate. -/
def skipIn (op : ScanPredicateOp) (bound : Value) : List ColumnSegment → ℕ → Except Error ℕ
  | [], _ => .ok 0
  | seg :: segs, rowOffset =>
    if rowOffset < seg.rowCount then
      if !seg.stats.minVal.isNull && !seg.stats.maxVal.isNull &&
          seg.stats.minVal.type = bound.type then do
        let exclude ← op.excludes seg.stats.minVal seg.stats.maxVal bound
        if exclude then pure (seg.rowCount - rowOffset) else pure 0
      else .ok 0
    else skipIn op bound segs (rowOffset - seg.rowCount)

def zoneMapSkipRows (cc : ColumnChunk) (rowOffset : ℕ) (op : ScanPredicateOp) (bound : Value) :
    Except Error ℕ :=
  skipIn op bound cc.segments rowOffset

end ColumnChunk

/-! ## Ordered columns -/

/-- The value a statistic keeps of a stored element. -/
def Datum.value : Datum → Value
  | .int v => .integer v
  | .float bits => .float bits
  | .str s => .varchar s

/-- How the rows of an ordered column type are stored, and that their values are compared
as the elements of a linear order. -/
structure ValueKind (type : TypeId) (α : Type) [DecidableEq α] [LT α] [DecidableLT α] where
  datum : α → Datum
  get : DataVector → ℕ → Option α
  valueAt_eq : ∀ vec i, valueAt type vec i = (get vec i).map fun a => (datum a).value
  load_eq : ∀ vec i, vec.load type.storageClass i = (get vec i).map datum
  isNull_value : ∀ a, (datum a).value.isNull = false
  type_eq : ∀ a b, (datum a).value.type = (datum b).value.type
  lt_value : ∀ a b, (datum a).value.lt (datum b).value = .ok (decide (a < b))
  eq_value : ∀ a b, (datum a).value.eq (datum b).value = .ok (decide (a = b))
  of_lt : ∀ {a v r}, v.type = (datum a).value.type →
    v.lt (datum a).value = .ok r ∨ (datum a).value.lt v = .ok r → ∃ b, v = (datum b).value

/-- Integer columns. -/
def ValueKind.int {type : TypeId} (h : type.storageClass = .int) : ValueKind type Int64 where
  datum := .int
  get vec i := vec.intData[i]?
  valueAt_eq vec i := by simp only [valueAt, h]; rfl
  load_eq vec i := by simp only [DataVector.load, h]
  isNull_value _ := rfl
  type_eq _ _ := rfl
  lt_value _ _ := rfl
  eq_value _ _ := rfl
  of_lt {a v r} htype h := by
    obtain ⟨type, data⟩ := v
    obtain rfl : type = .int64 := htype
    cases data with
    | int b => exact ⟨b, rfl⟩
    | float b => rcases h with h | h <;> cases h
    | bool b => rcases h with h | h <;> cases h
    | str b => rcases h with h | h <;> cases h

/-- String columns. -/
def ValueKind.str {type : TypeId} (h : type.storageClass = .str) : ValueKind type Bytes where
  datum := .str
  get vec i := vec.strData[i]?
  valueAt_eq vec i := by simp only [valueAt, h]; rfl
  load_eq vec i := by simp only [DataVector.load, h]
  isNull_value _ := rfl
  type_eq _ _ := rfl
  lt_value _ _ := rfl
  eq_value _ _ := rfl
  of_lt {a v r} htype h := by
    obtain ⟨type, data⟩ := v
    obtain rfl : type = .varchar := htype
    cases data with
    | str b => exact ⟨b, rfl⟩
    | float b => rcases h with h | h <;> cases h
    | bool b => rcases h with h | h <;> cases h
    | int b => rcases h with h | h <;> cases h

variable {op : ScanPredicateOp} {d : Datum} {bound : Value}

namespace ValueKind

variable {type : TypeId} {α : Type} [DecidableEq α] [LT α] [DecidableLT α] (k : ValueKind type α)
  {a b : α}

/-- The statistics are of elements of the kind, if they have bounds. -/
def Of (stats : SegmentStats) : Prop :=
  (stats.minVal.isNull = true ∧ stats.maxVal.isNull = true) ∨
    ∃ lo hi, stats.minVal = (k.datum lo).value ∧ stats.maxVal = (k.datum hi).value

/-- Row `i` of the vector is not NULL and stores the element. -/
def Holds (vec : DataVector) (i : ℕ) (x : α) : Prop :=
  vec.isNull i = false ∧ k.get vec i = some x

theorem less_value (a b : α) :
    less (k.datum a).value (k.datum b).value = decide (a < b) := by
  rw [less, k.lt_value]

theorem value_inj (h : (k.datum a).value = (k.datum b).value) : a = b := by
  have hab := k.eq_value a b
  rw [h, k.eq_value] at hab
  simpa using hab

theorem datum_inj (h : k.datum a = k.datum b) : a = b := k.value_inj (by rw [h])

variable {vec : DataVector} {i : ℕ} {x : α}

theorem holds_of_cell? (hv : vec.type.storageClass = type.storageClass)
    (h : vec.cell? i = some (some (k.datum x))) : k.Holds vec i x := by
  obtain ⟨hnull, hdatum⟩ := DataVector.cell?_eq_some_some.mp h
  rw [DataVector.datum?_eq_load, hv, k.load_eq] at hdatum
  obtain ⟨y, hy, heq⟩ := map_eq_some_iff.mp hdatum
  rw [← k.datum_inj heq]
  exact ⟨hnull, hy⟩

theorem exists_of_cell? (hv : vec.type = type)
    (h : vec.cell? i = some (some d)) : ∃ x, d = k.datum x := by
  obtain ⟨_, hdatum⟩ := DataVector.cell?_eq_some_some.mp h
  rw [DataVector.datum?_eq_load, hv, k.load_eq] at hdatum
  obtain ⟨x, _, hx⟩ := map_eq_some_iff.mp hdatum
  exact ⟨x, hx.symm⟩

variable [LE α]

/-- The statistics have bounds, and the element lies between them. -/
def Within (stats : SegmentStats) (x : α) : Prop :=
  ∃ lo hi, stats.minVal = (k.datum lo).value ∧ stats.maxVal = (k.datum hi).value ∧ lo ≤ x ∧ x ≤ hi

variable [IsLinearOrder α] [LawfulOrderLT α] {stats : SegmentStats}

/-- A value widens the bounds just enough. -/
theorem within_add (h : k.Of stats) (x : α) :
    k.Of (stats.add (k.datum x).value) ∧ k.Within (stats.add (k.datum x).value) x ∧
      ∀ y, k.Within stats y → k.Within (stats.add (k.datum x).value) y := by
  rcases h with ⟨hmin, hmax⟩ | ⟨lo, hi, hmin, hmax⟩
  · refine ⟨.inr ⟨x, x, by simp [add, hmin], by simp [add, hmax]⟩,
      ⟨x, x, by simp [add, hmin], by simp [add, hmax], le_refl x, le_refl x⟩, ?_⟩
    intro y ⟨lo, _, hlo, _⟩
    rw [hlo, k.isNull_value] at hmin
    cases hmin
  · have hlo : (stats.add (k.datum x).value).minVal = (k.datum (if x < lo then x else lo)).value := by
      simp only [add, hmin, k.isNull_value, k.less_value, Bool.false_or, decide_eq_true_eq]
      split <;> rfl
    have hhi : (stats.add (k.datum x).value).maxVal = (k.datum (if hi < x then x else hi)).value := by
      simp only [add, hmax, k.isNull_value, k.less_value, Bool.false_or, decide_eq_true_eq]
      split <;> rfl
    have hle_lo : ∀ y, lo ≤ y ∨ y = x → (if x < lo then x else lo) ≤ y := by
      intro y hy
      split
      next hlt =>
        rcases hy with hy | rfl
        · exact le_trans (le_of_lt hlt) hy
        · exact le_refl _
      next hlt =>
        rcases hy with hy | rfl
        · exact hy
        · exact not_lt.mp hlt
    have hle_hi : ∀ y, y ≤ hi ∨ y = x → y ≤ (if hi < x then x else hi) := by
      intro y hy
      split
      next hlt =>
        rcases hy with hy | rfl
        · exact le_trans hy (le_of_lt hlt)
        · exact le_refl _
      next hlt =>
        rcases hy with hy | rfl
        · exact hy
        · exact not_lt.mp hlt
    refine ⟨.inr ⟨_, _, hlo, hhi⟩, ⟨_, _, hlo, hhi, hle_lo x (.inr rfl), hle_hi x (.inr rfl)⟩, ?_⟩
    intro y ⟨lo', hi', hlo', hhi', hle, hle'⟩
    obtain rfl := k.value_inj (hmin.symm.trans hlo')
    obtain rfl := k.value_inj (hmax.symm.trans hhi')
    exact ⟨_, _, hlo, hhi, hle_lo y (.inl hle), hle_hi y (.inl hle')⟩

/-- The loop over the rows of a vector covers each of its values. -/
theorem within_addRows {count : ℕ} {stats' : SegmentStats} (h : k.Of stats)
    (hs : stats.addRows type vec count = some stats') :
    k.Of stats' ∧ (∀ y, k.Within stats y → k.Within stats' y) ∧
      ∀ i < count, ∀ x, k.Holds vec i x → k.Within stats' x := by
  have hloop : ∀ {rows : List ℕ} {stats : SegmentStats}, k.Of stats →
      rows.foldlM (fun stats i => if vec.isNull i then some { stats with hasNulls := true }
        else (valueAt type vec i).map stats.add) stats = some stats' →
      k.Of stats' ∧ (∀ y, k.Within stats y → k.Within stats' y) ∧
        ∀ i ∈ rows, ∀ x, k.Holds vec i x → k.Within stats' x := by
    intro rows
    induction rows with
    | nil =>
      intro stats h hs
      cases hs
      exact ⟨h, fun _ hy => hy, nofun⟩
    | cons i rows ih =>
      intro stats h hs
      rw [foldlM_cons] at hs
      obtain ⟨stats₁, hstep, hrest⟩ := bind_eq_some_iff.mp hs
      split at hstep
      next hnull =>
        cases hstep
        obtain ⟨hof, hmono, hrows⟩ := ih (by exact h) hrest
        refine ⟨hof, fun y hy => hmono y hy, fun j hj x hx => ?_⟩
        rcases mem_cons.mp hj with rfl | hj
        · exact absurd (hnull.symm.trans hx.1) (by simp)
        · exact hrows j hj x hx
      next hnull =>
        rw [k.valueAt_eq, Option.map_map] at hstep
        obtain ⟨a, ha, rfl⟩ := map_eq_some_iff.mp hstep
        obtain ⟨hof₁, hself, hmono₁⟩ := k.within_add h a
        obtain ⟨hof, hmono, hrows⟩ := ih hof₁ hrest
        refine ⟨hof, fun y hy => hmono y (hmono₁ y hy), fun j hj x hx => ?_⟩
        rcases mem_cons.mp hj with rfl | hj
        · cases ha.symm.trans hx.2
          exact hmono _ hself
        · exact hrows j hj x hx
  obtain ⟨hof, hmono, hrows⟩ := hloop h hs
  exact ⟨hof, hmono, fun i hi => hrows i (mem_range.mpr hi)⟩

/-- Statistics that exclude a predicate exclude every value they cover. -/
theorem not_holds_of_excludes (hx : k.Within stats x) (htype : stats.minVal.type = bound.type)
    (h : op.excludes stats.minVal stats.maxVal bound = .ok true) :
    ¬ op.Holds (k.datum x).value bound := by
  obtain ⟨lo, hi, hlo, hhi, hle, hle'⟩ := hx
  rw [hlo, hhi] at h
  rw [hlo] at htype
  have htypes := k.type_eq lo hi
  have hbound : ∃ b, bound = (k.datum b).value := by
    cases op with
    | eq =>
      cases hb : bound.lt (k.datum lo).value with
      | error e => simp [ScanPredicateOp.excludes, hb] at h
      | ok r => exact k.of_lt htype.symm (.inl hb)
    | lt =>
      cases hb : (k.datum lo).value.lt bound with
      | error e => simp [ScanPredicateOp.excludes, hb] at h
      | ok r => exact k.of_lt htype.symm (.inr hb)
    | gt =>
      cases hb : bound.lt (k.datum hi).value with
      | error e => simp [ScanPredicateOp.excludes, hb] at h
      | ok r => exact k.of_lt (htype.symm.trans htypes) (.inl hb)
    | le => exact k.of_lt htype.symm (.inl h)
    | ge => exact k.of_lt (htype.symm.trans htypes) (.inr h)
  obtain ⟨b, rfl⟩ := hbound
  cases op with
  | eq =>
    have hout : b < lo ∨ hi < b := by
      by_cases hb : b < lo
      · exact .inl hb
      · simpa [ScanPredicateOp.excludes, k.lt_value, hb] using h
    simp only [ScanPredicateOp.Holds, k.eq_value, ok.injEq, decide_eq_true_eq]
    rintro rfl
    rcases hout with hb | hb
    · exact not_lt.mpr hle hb
    · exact not_lt.mpr hle' hb
  | lt =>
    have hout : b ≤ lo := by
      simpa [ScanPredicateOp.excludes, k.lt_value, Std.not_lt] using h
    simp only [ScanPredicateOp.Holds, k.lt_value, ok.injEq, decide_eq_true_eq]
    exact not_lt.mpr (le_trans hout hle)
  | gt =>
    have hout : hi ≤ b := by
      simpa [ScanPredicateOp.excludes, k.lt_value, Std.not_lt] using h
    simp only [ScanPredicateOp.Holds, k.lt_value, ok.injEq, decide_eq_true_eq]
    exact not_lt.mpr (le_trans hle' hout)
  | le =>
    have hout : b < lo := by simpa [ScanPredicateOp.excludes, k.lt_value] using h
    simp only [ScanPredicateOp.Holds, k.lt_value, k.eq_value, ok.injEq, decide_eq_true_eq]
    have hlt : b < x := lt_of_lt_of_le hout hle
    rintro (hx | rfl)
    · exact not_lt.mpr (le_of_lt hlt) hx
    · exact lt_irrefl hlt
  | ge =>
    have hout : hi < b := by simpa [ScanPredicateOp.excludes, k.lt_value] using h
    simp only [ScanPredicateOp.Holds, k.lt_value, k.eq_value, ok.injEq, decide_eq_true_eq]
    have hlt : x < b := lt_of_le_of_lt hle' hout
    rintro (hx | rfl)
    · exact not_lt.mpr (le_of_lt hlt) hx
    · exact lt_irrefl hlt

end ValueKind

/-! ## Operations on a column -/

/-- The calls that change a column. -/
inductive ColumnOp where
  | appendFromVector (vec : DataVector) (count : ℕ)
  | flush
  | writeRow (rowOffset : ℕ) (src : DataVector) (srcIdx : ℕ)
  | writeRows (rowOffsets : List ℕ) (src : DataVector)
  | truncatePending (newCount : ℕ)

namespace ColumnOp

open ColumnChunk

/-- The column after a call; a write that throws leaves what it has written. -/
def run (cc : ColumnChunk) : ColumnOp → Option ColumnChunk
  | .appendFromVector vec count => cc.appendFromVector vec count
  | .flush => cc.flush
  | .writeRow rowOffset src srcIdx => (ColumnChunk.writeRow rowOffset src srcIdx cc).map Prod.snd
  | .writeRows rowOffsets src => (ColumnChunk.writeRows rowOffsets src cc).map Prod.snd
  | .truncatePending newCount => some (cc.truncatePending newCount)

/-- The vectors that a call compresses. -/
def compressed (cc : ColumnChunk) : ColumnOp → List DataVector
  | .appendFromVector vec count =>
    if count = 0 then []
    else if standardVectorSize ≤ cc.pendingData.count then
      cc.pendingData :: if cc.room < count then
        ((DataVector.reset cc.type 0).bulkCopyRows vec 0 cc.room).toList else []
    else if cc.room < count then (cc.pendingData.bulkCopyRows vec 0 cc.room).toList else []
  | .flush => if cc.pendingData.count = 0 then [] else [cc.pendingData]
  | .writeRow rowOffset src srcIdx => cc.writeRowCompresses src srcIdx cc.segments rowOffset
  | .writeRows rowOffsets src => cc.writeRowsCompresses src cc.segments 0 rowOffsets.zipIdx
  | .truncatePending _ => []

/-- The vector that an append fills and flushes. -/
theorem mem_compressed_append {cc cc₁ : ColumnChunk} {vec p : DataVector} {count : ℕ}
    (hlt : cc.room < count) (hflush : cc.flushIfFull = some cc₁)
    (hcopy : cc₁.pendingData.bulkCopyRows vec 0 cc.room = some p) :
    p ∈ compressed cc (.appendFromVector vec count) := by
  rw [ColumnChunk.flushIfFull] at hflush
  simp only [compressed, (Nat.zero_lt_of_lt hlt).ne', hlt]
  split at hflush
  next hfull =>
    obtain ⟨hzero, _⟩ | ⟨_, _, _, _, _, rfl⟩ := flush_inv hflush
    · exact absurd hzero (Nat.ne_zero_of_lt hfull)
    · simp [hfull, show _ = some p from hcopy]
  next hfull =>
    cases hflush
    simp [hfull, hcopy]

/-- An appended vector is stored as the column is. -/
def Typed (cc : ColumnChunk) : ColumnOp → Prop
  | .appendFromVector vec _ => vec.type.storageClass = cc.type.storageClass
  | .flush | .writeRow _ _ _ | .writeRows _ _ | .truncatePending _ => True

/-- The statistics cover a row: it is NULL or lies between the bounds. -/
def Covered (stats : SegmentStats) (cell : Option Cell) : Prop :=
  ∀ x : Datum, cell = some (some x) →
    stats.minVal.isNull = false ∧ less x.value stats.minVal = false ∧
      less stats.maxVal x.value = false

/-- The rows that a call puts into a segment without entering them into the statistics, or
into the pending vector for a later flush, lie between the bounds the column has. -/
def InRange (cc : ColumnChunk) : ColumnOp → Prop
  | .appendFromVector vec count =>
    cc.room < count → ∀ i < cc.room, Covered cc.combinedStats (vec.cell? i)
  | .writeRow rowOffset src srcIdx =>
    cc.segmentRowCount ≤ rowOffset →
      Covered cc.combinedStats (src.cellAs cc.type.storageClass srcIdx)
  | .writeRows rowOffsets src =>
    ∀ w ∈ rowOffsets.zipIdx, cc.segmentRowCount ≤ w.1 →
      Covered cc.combinedStats (src.cellAs cc.type.storageClass w.2)
  | .flush | .truncatePending _ => True

end ColumnOp

/-! ## Statistics that cover their rows -/

namespace DataVector

theorem SameRows.cell? {v w : DataVector} (h : v.SameRows w) {i : ℕ} (hi : i < w.count) :
    v.cell? i = w.cell? i := by
  rw [DataVector.cell?, DataVector.cell?, h.isNull i hi]
  cases hnull : w.isNull i with
  | true => rfl
  | false => rw [h.datum i hi hnull]

end DataVector

namespace ValueKind

open ColumnChunk ColumnOp

variable {type : TypeId} {α : Type} [DecidableEq α] [LE α] [LT α] [DecidableLT α]
  (k : ValueKind type α)

/-- Every value of the kind among the first `n` rows lies between the bounds. -/
def CoversRows (stats : SegmentStats) (vec : DataVector) (n : ℕ) : Prop :=
  ∀ i < n, ∀ x, vec.cell? i = some (some (k.datum x)) → k.Within stats x

/-- A segment decompresses to rows that its statistics cover. -/
def SegmentOk (seg : ColumnSegment) : Prop :=
  ∃ w, decompress seg.block type = some w ∧ w.type = type ∧ w.count = seg.rowCount ∧
    k.CoversRows seg.stats w seg.rowCount

/-- The statistics of the column cover the pending rows, and those of each segment its own. -/
structure Covers (cc : ColumnChunk) : Prop where
  type_eq : cc.type = type
  pending_type : cc.pendingData.type = type
  pending_tidy : cc.pendingData.Tidy
  stats : k.Of cc.combinedStats
  pending : k.CoversRows cc.combinedStats cc.pendingData cc.pendingData.count
  segments : ∀ seg ∈ cc.segments, k.SegmentOk seg

variable {k} {cc cc' : ColumnChunk}

/-- A new column has nothing to cover. -/
theorem covers_create {blockSize : ℕ} (htyped : type.storageClass ≠ .none) :
    k.Covers { type, blockSize } where
  type_eq := rfl
  pending_type := DataVector.reset_type ..
  pending_tidy := DataVector.tidy_reset htyped
  stats := .inl ⟨rfl, rfl⟩
  pending i hi := by simp at hi
  segments seg hmem := by simp at hmem

theorem Covers.flush (h : k.Covers cc)
    (hcodec : cc.pendingData.count ≠ 0 → Restorable cc.pendingData) (hf : cc.flush = some cc') :
    k.Covers cc' ∧ cc'.combinedStats = cc.combinedStats := by
  rcases flush_inv hf with ⟨_, rfl⟩ | ⟨choice, block, hne, hchoice, hblock, rfl⟩
  · exact ⟨h, rfl⟩
  · have htyped : type.storageClass ≠ .none := h.pending_type ▸ h.pending_tidy.typed
    obtain ⟨out, hout, hsame⟩ := decompress_writeBlock (hcodec hne choice (.inr hchoice)) hblock
    rw [h.pending_type] at hout
    have hseg : k.SegmentOk
        { block, compression := choice.type, columnType := cc.type
          rowCount := cc.pendingData.count, rowOffset := cc.pendingRowOffset
          stats := cc.combinedStats } := by
      refine ⟨out, hout, hsame.type.trans h.pending_type, hsame.count, fun i hi x hx => ?_⟩
      exact h.pending i hi x (by rw [← hsame.cell? hi, hx])
    refine ⟨⟨h.type_eq, by rw [DataVector.reset_type]; exact h.type_eq, ?_, h.stats, ?_, ?_⟩, rfl⟩
    · exact DataVector.tidy_reset (by rw [h.type_eq]; exact htyped)
    · intro i hi
      simp at hi
    · intro seg hmem
      rcases mem_append.mp hmem with hmem | hmem
      · exact h.segments seg hmem
      · rw [mem_singleton.mp hmem]
        exact hseg

variable {vec p : DataVector}

/-- Copied rows are covered already or are rows of the source. -/
theorem Covers.copy (h : k.Covers cc) (hvec : vec.type.storageClass = type.storageClass) {s n : ℕ}
    (hcopy : cc.pendingData.bulkCopyRows vec s n = some p) :
    p.type = type ∧ p.Tidy ∧ ∀ i < p.count, ∀ x, p.cell? i = some (some (k.datum x)) →
      k.Within cc.combinedStats x ∨
        ∃ j, s ≤ j ∧ j < s + n ∧ vec.cell? j = some (some (k.datum x)) := by
  have hcls : vec.type.storageClass = cc.pendingData.type.storageClass := by
    rw [hvec, h.pending_type]
  obtain ⟨htype, hcount, _, _⟩ := DataVector.bulkCopyRows_fields hcopy
  refine ⟨htype.trans h.pending_type, h.pending_tidy.bulkCopyRows hcls hcopy, fun i hi x hx => ?_⟩
  rw [DataVector.cell?_bulkCopyRows hcls h.pending_tidy hcopy hi] at hx
  split at hx
  next hold => exact .inl (h.pending i hold x hx)
  next hnew => exact .inr ⟨_, by omega, by omega, hx⟩

theorem Covers.flushIfFull (h : k.Covers cc)
    (hcodec : standardVectorSize ≤ cc.pendingData.count → Restorable cc.pendingData)
    (hf : cc.flushIfFull = some cc') :
    k.Covers cc' ∧ cc'.combinedStats = cc.combinedStats := by
  rw [ColumnChunk.flushIfFull] at hf
  split at hf
  next hfull => exact h.flush (fun _ => hcodec hfull) hf
  next =>
    cases hf
    exact ⟨h, rfl⟩

theorem Covers.truncatePending (h : k.Covers cc) (n : ℕ) : k.Covers (cc.truncatePending n) := by
  obtain ⟨hptype, htidy⟩ := tidy_truncatedPending h.pending_tidy
  have hstats : (cc.truncatePending n).combinedStats = cc.combinedStats := by
    rw [ColumnChunk.truncatePending]
    split <;> rfl
  refine ⟨by rw [type_truncatePending]; exact h.type_eq, hptype.trans h.pending_type, htidy,
    hstats ▸ h.stats, fun i hi x hx => ?_, by rw [segments_truncatePending]; exact h.segments⟩
  rw [pendingCount_truncatePending, lt_min_iff] at hi
  rw [cell?_truncatedPending hi.1] at hx
  rw [hstats]
  exact h.pending i hi.2 x hx

variable [IsLinearOrder α] [LawfulOrderLT α] {stats : SegmentStats} {count : ℕ}

theorem within_of_covered (k : ValueKind type α) (h : k.Of stats) {cell : Option Cell}
    (hc : Covered stats cell) {x : α} (hx : cell = some (some (k.datum x))) : k.Within stats x := by
  obtain ⟨hnull, hmin, hmax⟩ := hc _ hx
  rcases h with ⟨hnull', _⟩ | ⟨lo, hi, hlo, hhi⟩
  · rw [hnull] at hnull'
    cases hnull'
  · rw [hlo, k.less_value, decide_eq_false_iff_not, Std.not_lt] at hmin
    rw [hhi, k.less_value, decide_eq_false_iff_not, Std.not_lt] at hmax
    exact ⟨lo, hi, hlo, hhi, hmin, hmax⟩

/-- The statistics of a vector cover its rows. -/
theorem coversRows_build (k : ValueKind type α) (hv : vec.type = type)
    (h : build type vec = some stats) : k.CoversRows stats vec vec.count := by
  have hof : k.Of {} := .inl ⟨rfl, rfl⟩
  intro i hi x hx
  exact (k.within_addRows hof h).2.2 i hi x (k.holds_of_cell? (by rw [hv]) hx)

/-- Entering the source into the statistics covers what was copied from it. -/
theorem Covers.addRows (h : k.Covers cc)
    (hvec : vec.type.storageClass = type.storageClass) (hp : p.type = type) (htidy : p.Tidy)
    (hrows : ∀ i < p.count, ∀ x, p.cell? i = some (some (k.datum x)) →
      k.Within cc.combinedStats x ∨ ∃ j < count, vec.cell? j = some (some (k.datum x)))
    (hstats : cc.combinedStats.addRows type vec count = some stats) :
    k.Covers { cc with pendingData := p, combinedStats := stats } := by
  obtain ⟨hof, hmono, hnew⟩ := k.within_addRows h.stats hstats
  refine ⟨h.type_eq, hp, htidy, hof, fun i hi x hx => ?_, h.segments⟩
  rcases hrows i hi x hx with hin | ⟨j, hj, hcell⟩
  · exact hmono x hin
  · exact hnew j hj x (k.holds_of_cell? hvec hcell)

/-- **An append keeps the statistics sound** if the rows it flushes itself are covered. -/
theorem Covers.append (h : k.Covers cc) (hvec : ColumnOp.Typed cc (.appendFromVector vec count))
    (hcodec : ∀ v ∈ ColumnOp.compressed cc (.appendFromVector vec count), Restorable v)
    (hrange : ColumnOp.InRange cc (.appendFromVector vec count))
    (ha : cc.appendFromVector vec count = some cc') : k.Covers cc' := by
  have hvec' := hvec.trans (by rw [h.type_eq])
  obtain ⟨c, hloop, ha⟩ := bind_eq_some_iff.mp ha
  obtain ⟨stats, hstats, ha⟩ := bind_eq_some_iff.mp ha
  cases ha
  rcases Nat.eq_zero_or_pos count with rfl | hpos
  · cases hloop
    rw [h.type_eq] at hstats
    exact h.addRows hvec' h.pending_type h.pending_tidy
      (fun i hi x hx => .inl (h.pending i hi x hx)) hstats
  · obtain ⟨cc₁, p₁, hflush, hcopy, hend⟩ := appendLoop_inv hpos hloop
    obtain ⟨h₁, hstats₁⟩ := h.flushIfFull (fun hfull => hcodec _ (by
      simp [ColumnOp.compressed, hpos.ne', hfull])) hflush
    obtain ⟨hp₁, htidy₁, hrows₁⟩ := h₁.copy hvec' hcopy
    rcases hend with ⟨hle, rfl⟩ | ⟨cc₂, p₂, hlt, hflush₂, hcopy₂, rfl⟩
    · rw [h₁.type_eq] at hstats
      refine h₁.addRows hvec' hp₁ htidy₁ (fun i hi x hx => ?_) hstats
      exact (hrows₁ i hi x hx).imp_right fun ⟨j, _, hj, hcell⟩ => ⟨j, by omega, hcell⟩
    · -- the vector that the append fills and flushes
      have hmid : k.Covers { cc₁ with pendingData := p₁ } := by
        refine ⟨h₁.type_eq, hp₁, htidy₁, h₁.stats, fun i hi x hx => ?_, h₁.segments⟩
        rcases hrows₁ i hi x hx with hin | ⟨j, _, hj, hcell⟩
        · exact hin
        · rw [hstats₁]
          exact k.within_of_covered h.stats (hrange hlt j (by omega)) hcell
      rw [min_eq_right hlt.le] at hcopy
      have hcomp := ColumnOp.mem_compressed_append hlt hflush hcopy
      obtain ⟨h₂, hstats₂⟩ := hmid.flush (fun _ => hcodec p₁ hcomp) hflush₂
      obtain ⟨hp₂, htidy₂, hrows₂⟩ := h₂.copy hvec' hcopy₂
      rw [h₂.type_eq] at hstats
      refine h₂.addRows hvec' hp₂ htidy₂ (fun i hi x hx => ?_) hstats
      exact (hrows₂ i hi x hx).imp_right fun ⟨j, _, hj, hcell⟩ => ⟨j, by omega, hcell⟩

/-! ### Writes -/

/-- A segment whose rows are changed keeps sound statistics. -/
theorem SegmentOk.rewrite (hcc : cc.type = type) {seg seg' : ColumnSegment} (h : k.SegmentOk seg)
    {change : DataVector → Option DataVector}
    (hchange : ∀ {w v}, w.type = type → change w = some v → v.type = w.type ∧ v.count = w.count)
    (hcodec : ∀ v ∈ cc.rewritten seg change, Restorable v)
    (hr : cc.rewriteSegment seg change = some seg') : k.SegmentOk seg' := by
  obtain ⟨w₀, hw₀, htype₀, hcount₀, _⟩ := h
  obtain ⟨w, v, out, hw, hv, hout, hstats, hrows⟩ := rewriteSegment_inv hcodec hr
  rw [hcc] at hw hout hstats
  cases hw₀.symm.trans hw
  obtain ⟨htype, hcount⟩ := hchange htype₀ hv
  have hvtype : v.type = type := htype.trans htype₀
  obtain ⟨hdec, hsame⟩ := hout hvtype
  have hvcount : v.count = seg'.rowCount := by rw [hcount, hcount₀, hrows]
  refine ⟨out, hdec, hsame.type.trans hvtype, hsame.count.trans hvcount, fun i hi x hx => ?_⟩
  rw [← hvcount] at hi
  exact k.coversRows_build hvtype hstats i hi x (by rw [← hsame.cell? hi, hx])

variable {src : DataVector}

/-- A covered value may be written over a pending row. -/
theorem Covers.writePending (h : k.Covers cc) {idx srcIdx : ℕ} (hidx : idx < cc.pendingData.count)
    (hrange : Covered cc.combinedStats (src.cellAs cc.type.storageClass srcIdx))
    (hw : cc.pendingData.writeValue cc.type idx src srcIdx = some p) :
    k.Covers { cc with pendingData := p } := by
  rw [h.type_eq.trans h.pending_type.symm] at hw hrange
  obtain ⟨htype, hcount, _, hcell⟩ := DataVector.writeValue_spec h.pending_tidy.typed hw
  refine ⟨h.type_eq, htype.trans h.pending_type, h.pending_tidy.writeValue hidx hw, h.stats,
    fun i hi x hx => ?_, h.segments⟩
  rw [hcount] at hi
  rw [hcell] at hx
  split at hx
  · exact k.within_of_covered h.stats hrange hx
  · exact h.pending i hi x hx

variable {res : Except Error Unit}

theorem Covers.writeRow (h : k.Covers cc) {rowOffset srcIdx : ℕ}
    (hcodec : ∀ v ∈ ColumnOp.compressed cc (.writeRow rowOffset src srcIdx), Restorable v)
    (hrange : ColumnOp.InRange cc (.writeRow rowOffset src srcIdx))
    (hw : ColumnChunk.writeRow rowOffset src srcIdx cc = some (res, cc')) : k.Covers cc' := by
  have htyped : type.storageClass ≠ .none := h.pending_type ▸ h.pending_tidy.typed
  rcases writeRow_cases hw with
    ⟨_, pre, seg, post, seg', change, hchange, hsegs, rfl, hcomp, hre⟩ |
    ⟨hle, ⟨_, rfl⟩ | ⟨hlt, p, hv, rfl⟩⟩
  · have hok : k.SegmentOk seg' := by
      refine SegmentOk.rewrite h.type_eq (h.segments seg (by simp [hsegs])) ?_
        (fun v hv => hcodec v (by rw [ColumnOp.compressed, hcomp]; exact hv)) hre
      intro w v hwtype hv
      obtain ⟨idx, hv⟩ := hchange _ _ hv
      rw [h.type_eq, ← hwtype] at hv
      obtain ⟨htype, hcount, _⟩ := DataVector.writeValue_spec (by rw [hwtype]; exact htyped) hv
      exact ⟨htype, hcount⟩
    refine ⟨h.type_eq, h.pending_type, h.pending_tidy, h.stats, h.pending, fun s hs => ?_⟩
    rcases mem_append.mp hs with hs | hs
    · exact h.segments s (by rw [hsegs]; exact mem_append_left _ hs)
    · rcases mem_cons.mp hs with rfl | hs
      · exact hok
      · exact h.segments s (by
          rw [hsegs]; exact mem_append_right _ (mem_cons_of_mem _ hs))
  · exact h
  · exact h.writePending hlt (hrange hle) hv

/-- The loop over the pending rows of `WriteRows` writes covered values. -/
theorem Covers.forEach_writePending (h : k.Covers cc) {cur : ℕ} {rest : List (ℕ × ℕ)}
    (hrange : ∀ w ∈ rest, cur ≤ w.1 → Covered cc.combinedStats (src.cellAs type.storageClass w.2))
    (hw : forEach rest (ColumnChunk.writePending cur src) cc = some (res, cc')) :
    k.Covers cc' := by
  have hkeep : Keeps (fun c : ColumnChunk => k.Covers c ∧ c.combinedStats = cc.combinedStats)
      (forEach rest (ColumnChunk.writePending cur src)) := by
    apply Keeps.forEach
    intro w hmem
    apply Keeps.of_run
    intro c res c' ⟨hc, hstats⟩ hrun
    rcases writePending_cases hrun with rfl | ⟨hle, hlt, p, hv, rfl⟩
    · exact ⟨hc, hstats⟩
    · refine ⟨hc.writePending hlt ?_ hv, hstats⟩
      rw [hstats, hc.type_eq]
      exact hrange w hmem hle
  exact (hkeep.run ⟨h, rfl⟩ hw).1

theorem writeValues_fields {w v : DataVector} {base : ℕ} {writes : List (ℕ × ℕ)}
    (htyped : w.type.storageClass ≠ .none) (h : writeValues w.type base src writes w = some v) :
    v.type = w.type ∧ v.count = w.count := by
  generalize htype : w.type = t at h
  refine invariant_foldlM (P := fun w' => w'.type = t ∧ w'.count = w.count) ?_ ⟨htype, rfl⟩ h
  rintro w' x w₁ ⟨ht, hc⟩ hfirst
  rw [← ht] at hfirst
  obtain ⟨ht₁, hc₁, _⟩ := DataVector.writeValue_spec (by rw [ht, ← htype]; exact htyped) hfirst
  exact ⟨ht₁.trans ht, hc₁.trans hc⟩

theorem Covers.writeRows (h : k.Covers cc) {rowOffsets : List ℕ}
    (hcodec : ∀ v ∈ ColumnOp.compressed cc (.writeRows rowOffsets src), Restorable v)
    (hrange : ColumnOp.InRange cc (.writeRows rowOffsets src))
    (hw : ColumnChunk.writeRows rowOffsets src cc = some (res, cc')) : k.Covers cc' := by
  have htyped : type.storageClass ≠ .none := h.pending_type ▸ h.pending_tidy.typed
  rcases writeRows_cases hw with rfl | ⟨-, segments, cur, rest, hin, hrest⟩
  · exact h
  obtain ⟨hall, hsub, hlast⟩ := writeRowsIn_inv hin
  have hsegments : ∀ seg ∈ segments, k.SegmentOk seg := by
    intro seg' hmem
    obtain ⟨seg, hseg, hor⟩ := hall.exists_of_mem_right hmem
    rcases hor with rfl | ⟨base, mine, _, hcomp, hre⟩
    · exact h.segments _ hseg
    · refine SegmentOk.rewrite h.type_eq (h.segments seg hseg) ?_
        (fun v hv => hcodec v (hcomp v hv)) hre
      intro w v hwtype hv
      rw [h.type_eq, ← hwtype] at hv
      exact writeValues_fields (by rw [hwtype]; exact htyped) hv
  have h₁ : k.Covers { cc with segments } :=
    ⟨h.type_eq, h.pending_type, h.pending_tidy, h.stats, h.pending, hsegments⟩
  refine h₁.forEach_writePending (fun w hmem hle => ?_) hrest
  have hcur := hlast (ne_nil_of_mem hmem)
  rw [Nat.zero_add] at hcur
  have hcov := hrange w (hsub hmem) (by rw [segmentRowCount, ← hcur]; exact hle)
  rwa [h.type_eq] at hcov

/-- Every call keeps the statistics sound if what it stores unseen is in range. -/
theorem Covers.run (h : k.Covers cc) {op : ColumnOp} (htyped : op.Typed cc)
    (hcodec : ∀ v ∈ op.compressed cc, Restorable v) (hrange : op.InRange cc)
    (hr : op.run cc = some cc') : k.Covers cc' := by
  cases op with
  | appendFromVector vec count => exact h.append htyped hcodec hrange hr
  | flush =>
    refine (h.flush (fun hne => hcodec _ ?_) hr).1
    simp [ColumnOp.compressed, hne]
  | writeRow rowOffset src srcIdx =>
    obtain ⟨⟨res, cc₁⟩, hw, rfl⟩ := map_eq_some_iff.mp hr
    exact h.writeRow hcodec hrange hw
  | writeRows rowOffsets src =>
    obtain ⟨⟨res, cc₁⟩, hw, rfl⟩ := map_eq_some_iff.mp hr
    exact h.writeRows hcodec hrange hw
  | truncatePending newCount =>
    cases hr
    exact h.truncatePending newCount

/-- A row that a scan may skip does not meet the predicate. -/
theorem Covers.not_holds_of_skip (h : k.Covers cc)
    {rowOffset n : ℕ} (hskip : cc.zoneMapSkipRows rowOffset op bound = .ok n) {i : ℕ}
    (hlo : rowOffset ≤ i) (hhi : i < rowOffset + n) (hd : cc.cell? i = some (some d)) :
    ¬ op.Holds d.value bound := by
  rw [ColumnChunk.cell?, h.type_eq] at hd
  rw [ColumnChunk.zoneMapSkipRows] at hskip
  have hsegs := h.segments
  revert hskip hd hsegs
  generalize cc.segments = segs
  intro hskip hd hsegs
  induction segs generalizing rowOffset i with
  | nil =>
    cases hskip
    omega
  | cons seg segs ih =>
    rw [skipIn] at hskip
    split at hskip
    next hin =>
      split at hskip
      next hstats =>
        simp only [Bool.and_eq_true, decide_eq_true_eq] at hstats
        cases hex : op.excludes seg.stats.minVal seg.stats.maxVal bound with
        | error e => simp [hex] at hskip
        | ok b =>
          cases b with
          | false =>
            obtain rfl : 0 = n := by
              simpa [hex] using hskip
            omega
          | true =>
            obtain rfl : seg.rowCount - rowOffset = n := by
              simpa [hex] using hskip
            have hi : i < seg.rowCount := by omega
            obtain ⟨w, hw, hwtype, hwcount, hcover⟩ := hsegs seg (mem_cons_self ..)
            rw [cellIn, if_pos hi, hw] at hd
            obtain ⟨x, rfl⟩ := k.exists_of_cell? hwtype hd
            exact k.not_holds_of_excludes (hcover i hi x hd) hstats.2 hex
      next =>
        cases hskip
        omega
    next hout =>
      rw [cellIn, if_neg (by omega)] at hd
      exact ih (by omega) (by omega) hskip hd fun s hs => hsegs s (mem_cons_of_mem _ hs)

end ValueKind

/-! ## Runs -/

namespace ColumnChunk

/-- The column after some calls, each meeting the condition at the column it is made on. -/
inductive Reached (C : ColumnChunk → ColumnOp → Prop) (type : TypeId) (blockSize : ℕ) :
    ColumnChunk → Prop
  | create : Reached C type blockSize { type, blockSize }
  | call {cc cc' : ColumnChunk} {op : ColumnOp} (h : Reached C type blockSize cc)
      (hcond : C cc op) (hrun : op.run cc = some cc') : Reached C type blockSize cc'

/-- The calls a column is made for: the vectors are stored as the column is, and the codec
restores what the call compresses. -/
def Supported (cc : ColumnChunk) (op : ColumnOp) : Prop :=
  op.Typed cc ∧ ∀ v ∈ op.compressed cc, Restorable v

/-- No row that the zone map skips meets the predicate. -/
def SkipsSoundly (cc : ColumnChunk) : Prop :=
  ∀ rowOffset op bound n, cc.zoneMapSkipRows rowOffset op bound = .ok n →
    ∀ i, rowOffset ≤ i → i < rowOffset + n →
      ∀ d, cc.cell? i = some (some d) → ¬ op.Holds d.value bound

variable {type : TypeId} {blockSize : ℕ} {cc : ColumnChunk}

theorem Reached.covers {α : Type} [DecidableEq α] [LE α] [LT α] [DecidableLT α]
    [IsLinearOrder α] [LawfulOrderLT α] {k : ValueKind type α}
    (htyped : type.storageClass ≠ .none)
    (h : Reached (fun cc op => cc.Supported op ∧ op.InRange cc) type blockSize cc) :
    k.Covers cc := by
  induction h with
  | create => exact ValueKind.covers_create htyped
  | call _ hcond hrun ih => exact ih.run hcond.1.1 hcond.1.2 hcond.2 hrun

/-- **Zone maps are sound** for the integer and string columns on which no append flushes
rows out of the range of the earlier ones, and no write puts such a value over a pending
row. -/
theorem skipsSoundly_of_inRange (hclass : type.storageClass = .int ∨ type.storageClass = .str)
    (h : Reached (fun cc op => cc.Supported op ∧ op.InRange cc) type blockSize cc) :
    cc.SkipsSoundly := by
  intro rowOffset op bound n hskip i hlo hhi d hd
  rcases hclass with hint | hstr
  · have hcovers : (ValueKind.int hint).Covers cc := h.covers (by rw [hint]; decide)
    exact hcovers.not_holds_of_skip hskip hlo hhi hd
  · have hcovers : (ValueKind.str hstr).Covers cc := h.covers (by rw [hstr]; decide)
    exact hcovers.not_holds_of_skip hskip hlo hhi hd

/-- An integer vector that is stored in runs is restored. -/
theorem restorable_of_rle {v : DataVector} {rows : List (Option Int64)}
    (hclass : v.type.storageClass = .int) (h : v.rows v.intData = some rows)
    (hsel : selectCompression v = some { type := .rle }) : Restorable v := by
  rintro choice (rfl | hchoice)
  · exact restores_plain_int hclass h
  · rw [hsel] at hchoice
    cases hchoice
    exact restores_rle hclass h

/-- One row of an integer column. -/
def oneInt (x : Int64) : DataVector :=
  { type := .int64, count := 1, intData := [x], validity := 1 }

/-- The column of one pending row, after an append of 5. -/
def pendingOne (x : Int64) : ColumnChunk :=
  { type := .int64, blockSize := 64, pendingData := oneInt x
    combinedStats := { minVal := .integer 5, maxVal := .integer 5 } }

/-- The same column with its row in a segment. -/
def flushedOne (x : UInt8) : ColumnChunk :=
  { type := .int64, blockSize := 64, pendingRowOffset := 1
    segments := [{ block := rowBlock x, compression := .rle, columnType := .int64, rowCount := 1
                   rowOffset := 0, stats := { minVal := .integer 5, maxVal := .integer 5 } }]
    combinedStats := { minVal := .integer 5, maxVal := .integer 5 } }

theorem run_append_five : ColumnOp.run { type := .int64, blockSize := 64 }
    (.appendFromVector (oneInt 5) 1) = some (pendingOne 5) := by
  decide +kernel

theorem supported_append_five : Supported { type := .int64, blockSize := 64 }
    (.appendFromVector (oneInt 5) 1) := by
  refine ⟨rfl, fun v hv => ?_⟩
  cases hv

theorem supported_flush_pendingOne {x : Int64}
    (hrows : (oneInt x).rows (oneInt x).intData = some [some x])
    (hsel : selectCompression (oneInt x) = some { type := .rle }) :
    Supported (pendingOne x) .flush := by
  refine ⟨trivial, fun v hv => ?_⟩
  obtain rfl := mem_singleton.mp hv
  exact restorable_of_rle rfl hrows hsel

/-- The row 5 is appended, and flushed: the zone map of its segment is sound. -/
theorem skipsSoundly_flushedOne :
    Reached (fun cc op => cc.Supported op ∧ op.InRange cc) .int64 64 (flushedOne 5) ∧
      (flushedOne 5).SkipsSoundly := by
  have happend : Reached (fun cc op => cc.Supported op ∧ op.InRange cc) .int64 64 (pendingOne 5) :=
    Reached.create.call ⟨supported_append_five, fun hroom => absurd hroom (by decide +kernel)⟩
      run_append_five
  have hflush := happend.call
    ⟨supported_flush_pendingOne (by decide +kernel) (by decide +kernel), trivial⟩
    (show ColumnOp.run _ .flush = some (flushedOne 5) by decide +kernel)
  exact ⟨hflush, skipsSoundly_of_inRange (.inl rfl) hflush⟩

/-- The row 5 is appended, overwritten by 100 while it is pending, and flushed. The segment
keeps the statistics of the append, and a search for 100 skips the row that holds it. -/
theorem zoneMap_skips_match : Reached Supported .int64 64 (flushedOne 100) ∧
      (flushedOne 100).zoneMapSkipRows 0 .eq (.integer 100) = .ok 1 ∧
      (flushedOne 100).cell? 0 = some (some (.int 100)) ∧ ¬ (flushedOne 100).SkipsSoundly := by
  have hskip : (flushedOne 100).zoneMapSkipRows 0 .eq (.integer 100) = .ok 1 := by decide +kernel
  have hcell : (flushedOne 100).cell? 0 = some (some (.int 100)) := by decide +kernel
  have happend :=
    Reached.create.call supported_append_five run_append_five
  have hwrite : Supported (pendingOne 5) (.writeRow 0 (oneInt 100) 0) := by
    refine ⟨trivial, fun v hv => ?_⟩
    cases hv
  have hreached := (happend.call hwrite (show _ = some (pendingOne 100) by decide +kernel)).call
    (supported_flush_pendingOne (by decide +kernel) (by decide +kernel))
    (show ColumnOp.run _ .flush = some (flushedOne 100) by decide +kernel)
  refine ⟨hreached, hskip, hcell, fun h => ?_⟩
  exact h 0 .eq (.integer 100) 1 hskip 0 le_rfl Nat.one_pos _ hcell rfl

end ColumnChunk

end CppColDB
