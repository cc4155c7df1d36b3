import CppColDB.Storage.Column.Filling
import CppColDB.Storage.Column.Reading
import CppColDB.Storage.Column.ZoneMap

/-!
# A column as a list

What a column is for: a list of rows, cut into segments with their statistics and a pending
rest. The operations on blocks and vectors are those on the list as long as the codec restores
what it compresses.
-/

namespace CppColDB

open ByteCodec Imp List Option

namespace DataVector

variable {v src : DataVector} {cells : List Cell} {idx srcIdx : ℕ} {c : Cell}

theorem exists_writeValue (hidx : idx < v.size v.type.storageClass)
    (hwidth : idx < standardVectorSize) (hsrc : srcIdx < standardVectorSize)
    (hc : src.cellAs v.type.storageClass srcIdx = some c) :
    ∃ v', v.writeValue v.type idx src srcIdx = some v' := by
  rw [writeValue, if_neg (by omega)]
  rw [cellAs] at hc
  split
  next => exact ⟨_, rfl⟩
  next hnull =>
    rw [if_neg hnull] at hc
    obtain ⟨x, hx, -⟩ := map_eq_some_iff.mp hc
    cases hcls : v.type.storageClass with
    | none => exact ⟨_, rfl⟩
    | _ =>
      rw [hcls] at hidx hx
      obtain ⟨y, -, rfl⟩ := map_eq_some_iff.mp hx
      exact ⟨_, bind_eq_some_iff.mpr ⟨_, hx, if_pos hidx⟩⟩

/-- **Overwriting one row.** -/
theorem Shows.write (h : v.Shows cells) (hidx : idx < cells.length)
    (hwidth : cells.length ≤ standardVectorSize) (hsrc : srcIdx < standardVectorSize)
    (hc : src.cellAs v.type.storageClass srcIdx = some c) :
    ∃ v', v.writeValue v.type idx src srcIdx = some v' ∧ v'.type = v.type ∧
      v'.Shows (cells.set idx c) := by
  have hcount := h.count
  have hstored := h.tidy.stored
  have hsize : idx < v.size v.type.storageClass := by omega
  obtain ⟨v', hrun⟩ := exists_writeValue hsize (hidx.trans_le hwidth) hsrc hc
  obtain ⟨htype, hcount', -, hcell⟩ := writeValue_spec h.tidy.typed hrun
  refine ⟨v', hrun, htype, h.tidy.writeValue (by omega) hrun, by simp [hcount', h.count],
    fun i d hi => ?_⟩
  rw [hcell, hc]
  by_cases heq : i = idx
  · rw [if_pos heq]
    rwa [heq, getElem?_set_self hidx] at hi
  · rw [if_neg heq]
    exact h.cell i d (by rwa [getElem?_set_ne (Ne.symm heq)] at hi)

theorem Shows.of_sameRows {w : DataVector} (h : v.Shows cells) (htidy : w.Tidy)
    (hsame : w.SameRows v) : w.Shows cells := by
  refine ⟨htidy, hsame.count.trans h.count, fun i c hi => ?_⟩
  have hlt : i < v.count := h.count ▸ (List.getElem?_eq_some_iff.mp hi).1
  rw [hsame.cell? hlt, h.cell i c hi]

end DataVector

/-! ## Statistics of a list -/

namespace SegmentStats

def addCell (stats : SegmentStats) : Cell → SegmentStats
  | none => { stats with hasNulls := true }
  | some x => stats.add x.value

def ofCells (cells : List Cell) : SegmentStats := cells.foldl addCell {}

theorem build_of_shows {v : DataVector} {cells : List Cell} (h : v.Shows cells) :
    build v.type v = some (ofCells cells) := by
  have hvalue : ∀ {i : ℕ} {x : Datum}, v.datum? i = some x → valueAt v.type v i = some x.value := by
    intro i x hx
    rw [DataVector.datum?_eq_load] at hx
    rw [valueAt]
    cases hcls : v.type.storageClass with
    | none => exact absurd hcls h.tidy.typed
    | _ =>
      rw [hcls] at hx
      obtain ⟨y, hy, rfl⟩ := map_eq_some_iff.mp hx
      simp only [hy]
      rfl
  have hloop : ∀ n ≤ cells.length, addRows v.type v n {} = some (ofCells (cells.take n)) := by
    intro n hn
    induction n with
    | zero => rfl
    | succ n ih =>
      obtain ⟨c, hc⟩ : ∃ c, cells[n]? = some c := ⟨_, getElem?_eq_getElem hn⟩
      have hcell := h.cell n c hc
      rw [addRows] at ih ⊢
      rw [range_succ, foldlM_append, ih (by omega), ofCells, ofCells, take_add_one, hc]
      cases c with
      | none => simp [DataVector.cell?_eq_some_none.mp hcell, addCell]
      | some x =>
        obtain ⟨hnull, hx⟩ := DataVector.cell?_eq_some_some.mp hcell
        simp [hnull, hvalue hx, addCell]
  rw [build, h.count, hloop _ le_rfl, take_length]

end SegmentStats

/-! ## Columns -/

/-- A column as a list: the rows of its segments with their statistics, and the pending rows. -/
structure Listing where
  segments : List (List Cell × SegmentStats) := []
  pending : List Cell := []

namespace Listing

def rows (s : Listing) : List Cell := s.segments.flatMap Prod.fst ++ s.pending

/-- Overwrite row `o`; the statistics of its segment are computed anew. -/
def writeIn (pending : List Cell) : List (List Cell × SegmentStats) → ℕ → Cell → Listing
  | [], o, c => { pending := pending.set o c }
  | (cells, stats) :: segs, o, c =>
    if o < cells.length then
      { segments := (cells.set o c, .ofCells (cells.set o c)) :: segs, pending }
    else
      let s := writeIn pending segs (o - cells.length) c
      { s with segments := (cells, stats) :: s.segments }

def write (s : Listing) (o : ℕ) (c : Cell) : Listing := writeIn s.pending s.segments o c

theorem rows_writeIn (pending : List Cell) (segs : List (List Cell × SegmentStats)) (o : ℕ)
    (c : Cell) : (writeIn pending segs o c).rows = (rows { segments := segs, pending }).set o c := by
  induction segs generalizing o with
  | nil => simp [writeIn, rows]
  | cons p segs ih =>
    obtain ⟨cells, stats⟩ := p
    have hrows : ∀ s : Listing, { s with segments := (cells, stats) :: s.segments }.rows =
        cells ++ s.rows := by
      simp [rows]
    rw [writeIn, show (rows { segments := (cells, stats) :: segs, pending }) =
      cells ++ rows { segments := segs, pending } from hrows { segments := segs, pending }, set_append]
    split
    · simp [rows]
    · rw [hrows, ih]

end Listing

namespace ColumnChunk

variable {cc cc' : ColumnChunk} {s : Listing}

/-- The codec restores the vector from a block of the given size, by the scheme the code
selects and uncompressed. -/
structure Kept (size : ℕ) (v : DataVector) : Prop where
  selects : ∃ choice, selectCompression v = some choice
  restores : ∀ choice,
    choice = { type := .uncompressed, bitWidth := 0 } ∨ selectCompression v = some choice →
    ∃ bs, compress choice v = some bs ∧ bs.length ≤ size ∧ ∀ tail, ∃ out,
      decompress (bs ++ tail) v.type = some out ∧ out.Tidy ∧ out.SameRows v

/-- The segment decompresses to the rows. -/
structure SegmentLists (type : TypeId) (seg : ColumnSegment) (cells : List Cell) : Prop where
  decompresses : ∃ v, decompress seg.block type = some v ∧ v.type = type ∧ v.Shows cells
  rowCount : seg.rowCount = cells.length
  small : cells.length ≤ standardVectorSize

/-- The segments decompress to the rows and have the statistics. -/
abbrev SegmentsList (type : TypeId) : List ColumnSegment → List (List Cell × SegmentStats) → Prop :=
  Forall₂ fun seg p => SegmentLists type seg p.1 ∧ seg.stats = p.2

/-- The column stands for the list. -/
structure Lists (cc : ColumnChunk) (s : Listing) : Prop where
  typed : cc.type.storageClass ≠ .none
  segments : SegmentsList cc.type cc.segments s.segments
  pending_type : cc.pendingData.type = cc.type
  pending : cc.pendingData.Shows s.pending
  pending_le : s.pending.length ≤ standardVectorSize

theorem Kept.writeBlock {size : ℕ} {v : DataVector} (h : Kept size v) {cells : List Cell}
    (hv : v.Shows cells) {choice : CompressionChoice}
    (hchoice : choice = { type := .uncompressed, bitWidth := 0 } ∨
      selectCompression v = some choice) (old : Bytes) :
    ∃ block, ColumnChunk.writeBlock size choice v old = some block ∧
      ∃ out, decompress block v.type = some out ∧ out.type = v.type ∧ out.Shows cells := by
  obtain ⟨bs, hbs, hle, hout⟩ := h.restores choice hchoice
  obtain ⟨out, hdec, htidy, hsame⟩ := hout (old.drop bs.length)
  refine ⟨bs ++ old.drop bs.length, ?_, out, hdec, hsame.type, hv.of_sameRows htidy hsame⟩
  simp [ColumnChunk.writeBlock, hbs, hle]

variable {type : TypeId}

theorem lists_create {blockSize : ℕ} (htyped : type.storageClass ≠ .none) :
    Lists { type, blockSize } {} where
  typed := htyped
  segments := .nil
  pending_type := DataVector.reset_type ..
  pending := DataVector.shows_reset htyped
  pending_le := Nat.zero_le _

variable {segs : List ColumnSegment} {l : List (List Cell × SegmentStats)}

theorem segmentRowCount_of_forall₂ (h : SegmentsList type segs l) :
    (segs.map ColumnSegment.rowCount).sum = (l.flatMap Prod.fst).length := by
  induction h with
  | nil => rfl
  | cons hseg _ ih => simp [ih, hseg.1.rowCount]

theorem Lists.segmentRowCount (h : cc.Lists s) :
    cc.segmentRowCount = (s.segments.flatMap Prod.fst).length :=
  segmentRowCount_of_forall₂ h.segments

theorem Lists.rowCount (h : cc.Lists s) : cc.rowCount = s.rows.length := by
  rw [ColumnChunk.rowCount, h.segmentRowCount, h.pending.count, Listing.rows, length_append]

theorem cellIn_of_forall₂
    {p : DataVector} {pending : List Cell}
    (h : SegmentsList type segs l)
    (hp : p.Shows pending) (o : ℕ) : cellIn type p segs o = (l.flatMap Prod.fst ++ pending)[o]? := by
  induction h generalizing o with
  | nil =>
    rw [cellIn, hp.count, flatMap_nil, nil_append]
    split
    next hlt =>
      rw [getElem?_eq_getElem hlt]
      exact hp.cell o _ (getElem?_eq_getElem hlt)
    next hge => rw [getElem?_eq_none (Nat.le_of_not_lt hge)]
  | @cons seg p segs l hseg _ ih =>
    obtain ⟨⟨⟨v, hdec, -, hv⟩, hcount, -⟩, -⟩ := hseg
    rw [cellIn, hcount, flatMap_cons, append_assoc]
    split
    next hlt =>
      rw [getElem?_append_left hlt, hdec, getElem?_eq_getElem hlt]
      exact hv.cell o _ (getElem?_eq_getElem hlt)
    next hge => rw [ih, getElem?_append_right (Nat.le_of_not_lt hge)]

theorem Lists.cell? (h : cc.Lists s) (o : ℕ) : cc.cell? o = s.rows[o]? :=
  cellIn_of_forall₂ h.segments h.pending o

theorem Lists.readable (h : cc.Lists s) : cc.Readable where
  typed := h.typed
  pending_type := h.pending_type
  pending_count := by rw [h.pending.count]; exact h.pending_le
  pending_tidy := h.pending.tidy
  segment seg hmem := by
    obtain ⟨p, -, ⟨⟨v, hdec, htype, hv⟩, hcount, hsmall⟩, -⟩ :=
      h.segments.flip.exists_of_mem_right hmem
    have hstored := hv.tidy.stored
    have hlen := hv.count
    refine ⟨v, hdec, by rw [htype], by omega, by omega, fun i hi => ?_⟩
    exact ⟨_, hv.cell i _ (getElem?_eq_getElem (by omega))⟩

/-- The rows of a column: the decompressed segments in order, then the pending rows. -/
def rows (cc : ColumnChunk) : List Cell := (range cc.rowCount).map cc.cell

theorem Lists.rows_eq (h : cc.Lists s) : cc.rows = s.rows := by
  refine ext_getElem? fun i => ?_
  rw [rows, getElem?_map]
  rcases Nat.lt_or_ge i s.rows.length with hlt | hge
  · rw [getElem?_range (by rw [h.rowCount]; exact hlt), map_some, cell, h.cell?,
      getElem?_eq_getElem hlt, getD_some]
  · rw [getElem?_eq_none (by simpa [h.rowCount] using hge), getElem?_eq_none hge]
    rfl

/-! ### Flushing and appending -/

theorem Lists.flush (h : cc.Lists s)
    (hkept : cc.pendingData.count ≠ 0 → Kept cc.blockSize cc.pendingData) :
    ∃ cc' s', cc.flush = some cc' ∧ cc'.Lists s' ∧ s'.rows = s.rows ∧ s'.pending = [] ∧
      cc'.type = cc.type ∧ cc'.blockSize = cc.blockSize := by
  rw [ColumnChunk.flush]
  split
  next hzero =>
    have hnil : s.pending = [] := length_eq_zero_iff.mp (h.pending.count ▸ hzero)
    exact ⟨cc, s, rfl, h, rfl, hnil, rfl, rfl⟩
  next hne =>
    obtain ⟨choice, hchoice⟩ := (hkept hne).selects
    obtain ⟨block, hblock, hout⟩ := (hkept hne).writeBlock h.pending (.inr hchoice) []
    rw [h.pending_type] at hout
    rw [hchoice, bind_eq_bind, bind_some, hblock]
    refine ⟨_, { segments := s.segments ++ [(s.pending, cc.combinedStats)] }, rfl, ?_,
      by simp [Listing.rows], rfl, rfl, rfl⟩
    exact ⟨h.typed, rel_append h.segments (.cons ⟨⟨hout, h.pending.count, h.pending_le⟩, rfl⟩
      .nil), DataVector.reset_type .., DataVector.shows_reset h.typed, Nat.zero_le _⟩

theorem Lists.flushIfFull (h : cc.Lists s)
    (hkept : standardVectorSize ≤ cc.pendingData.count → Kept cc.blockSize cc.pendingData) :
    ∃ cc' s', cc.flushIfFull = some cc' ∧ cc'.Lists s' ∧ s'.rows = s.rows ∧
      cc'.type = cc.type ∧ cc'.blockSize = cc.blockSize := by
  rw [ColumnChunk.flushIfFull]
  split
  next hfull =>
    obtain ⟨cc', s', hrun, h', hrows, -, htype, hsize⟩ := h.flush fun _ => hkept hfull
    exact ⟨cc', s', hrun, h', hrows, htype, hsize⟩
  next => exact ⟨cc, s, rfl, h, rfl, rfl, rfl⟩

end ColumnChunk

/-- The first `n` rows of a vector. -/
def DataVector.cells (v : DataVector) (n : ℕ) : List Cell :=
  (range n).map fun i => (v.cell? i).getD none

theorem DataVector.cell?_of_cells {v : DataVector} {n : ℕ} (hsize : n ≤ v.size v.type.storageClass)
    {i : ℕ} {c : Cell} (h : (v.cells n)[i]? = some c) :
    v.cell? i = some c := by
  rw [cells, getElem?_map, map_eq_some_iff] at h
  obtain ⟨j, hj, rfl⟩ := h
  obtain ⟨hlt, rfl⟩ := List.getElem?_eq_some_iff.mp hj
  rw [getElem_range] at *
  rw [length_range] at hlt
  rw [cell?]
  split
  · rfl
  · cases hd : v.datum? i with
    | none =>
      have hle := load_eq_none_iff.mp hd
      omega
    | some x => rfl

namespace ColumnChunk

variable {cc cc' : ColumnChunk} {s : Listing} {src vec : DataVector} {count : ℕ}

section

variable (h : cc.Lists s) (hcls : vec.type.storageClass = cc.type.storageClass)
  (hcount : count ≤ standardVectorSize) (hsize : count ≤ vec.size vec.type.storageClass)
include h hcls hcount hsize

/-- Copying rows of a vector to the end of the pending rows. -/
theorem Lists.copy {start n : ℕ} (hn : start + n ≤ count)
    (hroom : s.pending.length + n ≤ standardVectorSize) :
    ∃ p, cc.pendingData.bulkCopyRows vec start n = some p ∧ Lists { cc with pendingData := p }
      { s with pending := s.pending ++ ((vec.cells count).drop start).take n } := by
  have hlen : (((vec.cells count).drop start).take n).length = n := by
    simp [DataVector.cells]
    omega
  have hnew : ∀ (i : ℕ) (c : Cell), (((vec.cells count).drop start).take n)[i]? = some c →
      vec.cell? (start + i) = some c := by
    intro i c hi
    rw [getElem?_take] at hi
    split at hi
    · exact DataVector.cell?_of_cells hsize (by rwa [getElem?_drop] at hi)
    · cases hi
  obtain ⟨p, hrun, htype, hp⟩ :=
    h.pending.copy (by rw [hcls, h.pending_type]) (by omega) (by omega) (by omega) hnew
  rw [hlen] at hrun
  exact ⟨p, hrun, h.typed, h.segments, htype.trans h.pending_type, hp, by
    rw [length_append]; omega⟩

/-- **An append adds the rows of the vector**, across the flushes in it. -/
theorem Lists.append
    (hkept : ∀ v ∈ ColumnOp.compressed cc (.appendFromVector vec count), Kept cc.blockSize v) :
    ∃ cc' s', cc.appendFromVector vec count = some cc' ∧ cc'.Lists s' ∧
      s'.rows = s.rows ++ vec.cells count := by
  have hstats : ∀ stats : SegmentStats, ∃ stats', stats.addRows cc.type vec count = some stats' := by
    intro stats
    refine isSome_iff_exists.mp (isSome_addRows_iff.mpr fun i hi _ => ?_)
    have hload : (vec.load cc.type.storageClass i).isSome := by
      rw [isSome_iff_ne_none, Ne, DataVector.load_eq_none_iff, ← hcls]
      omega
    rw [SegmentStats.valueAt]
    cases hc : cc.type.storageClass with
    | none => exact absurd hc h.typed
    | _ =>
      rw [hc] at hload
      simpa [DataVector.load] using hload
  suffices hloop : ∃ c s', appendLoop vec count count 0 cc = some c ∧ c.Lists s' ∧
      s'.rows = s.rows ++ vec.cells count ∧ c.type = cc.type by
    obtain ⟨c, s', hrun, hc, hrows, htype⟩ := hloop
    obtain ⟨stats, hstats⟩ := hstats c.combinedStats
    rw [← htype] at hstats
    refine ⟨{ c with combinedStats := stats }, s', ?_, ⟨hc.typed, hc.segments, hc.pending_type,
      hc.pending, hc.pending_le⟩, hrows⟩
    rw [appendFromVector, hrun, bind_eq_bind, bind_some, hstats]
    rfl
  have hlen : (vec.cells count).length = count := by simp [DataVector.cells]
  rcases Nat.eq_zero_or_pos count with rfl | hpos
  · exact ⟨cc, s, rfl, h, by simp [DataVector.cells], rfl⟩
  obtain ⟨cc₁, s₁, hflush, h₁, hrows₁, htype₁, hsize₁⟩ := h.flushIfFull fun hfull =>
    hkept _ (by simp [ColumnOp.compressed, hpos.ne', hfull])
  have hroom := pendingCount_flushIfFull hflush
  have hfree : standardVectorSize - cc₁.pendingData.count = cc.room := by omega
  have hpend₁ := h₁.pending.count
  obtain ⟨fuel, hfuel⟩ : ∃ fuel, count = fuel + 1 := ⟨count - 1, by omega⟩
  rw [show appendLoop vec count count 0 cc = appendLoop vec count (fuel + 1) 0 cc by rw [hfuel],
    appendLoop_succ hpos, hflush, bind_some, hfree, Nat.sub_zero, Nat.zero_add]
  rcases Nat.lt_or_ge cc.room count with hlt | hge
  · -- the pending vector is filled up and flushed, and the rest begins the next one
    obtain ⟨p, hcopy, hp⟩ := h₁.copy (by rw [hcls, htype₁]) hcount hsize
      (show 0 + cc.room ≤ count by omega) (by omega)
    rw [min_eq_right hlt.le, hcopy, bind_some]
    have hfull : p.count = standardVectorSize := by
      rw [(DataVector.bulkCopyRows_fields hcopy).2.1, hroom]
    obtain ⟨cc₂, s₂, hflush₂, h₂, hrows₂, hnil₂, htype₂, -⟩ := hp.flush fun _ => by
      rw [show ({ cc₁ with pendingData := p } : ColumnChunk).blockSize = cc.blockSize from hsize₁]
      exact hkept _ (ColumnOp.mem_compressed_append hlt hflush hcopy)
    obtain ⟨fuel', rfl⟩ : ∃ fuel', fuel = fuel' + 1 := ⟨fuel - 1, by
      have hone := cc.room_pos
      omega⟩
    obtain ⟨p₂, hcopy₂, hp₂⟩ := h₂.copy (by rw [hcls, htype₂, htype₁]) hcount hsize
      (show cc.room + (count - cc.room) ≤ count by omega) (by rw [hnil₂]; simpa using by omega)
    have hempty : cc₂.pendingData.count = 0 := by rw [h₂.pending.count, hnil₂]; rfl
    rw [appendLoop_succ hlt, ColumnChunk.flushIfFull, if_pos hfull.ge, hflush₂, bind_some, min_eq_left (by omega), hcopy₂, bind_some, Nat.add_sub_cancel' hlt.le,
      appendLoop_self]
    refine ⟨_, _, rfl, hp₂, ?_, htype₂.trans htype₁⟩
    have hrest : ((vec.cells count).drop cc.room).take (count - cc.room) =
        (vec.cells count).drop cc.room := take_of_length_le (by simp [hlen])
    simp only [Listing.rows, hnil₂, append_nil, drop_zero] at hrows₂ hrows₁ ⊢
    rw [nil_append, hrows₂, ← append_assoc, hrows₁, append_assoc, hrest, take_append_drop]
  · obtain ⟨p, hcopy, hp⟩ := h₁.copy (by rw [hcls, htype₁]) hcount hsize
      (show 0 + count ≤ count by omega) (by omega)
    rw [min_eq_left hge, hcopy, bind_some, appendLoop_self]
    refine ⟨_, _, rfl, hp, ?_, htype₁⟩
    simp only [Listing.rows, drop_zero] at hrows₁ ⊢
    rw [← append_assoc, hrows₁, take_of_length_le hlen.le]

end

/-! ### Writing -/

theorem SegmentLists.rewrite {seg : ColumnSegment} {cells cells' : List Cell}
    (h : SegmentLists cc.type seg cells) {change : DataVector → Option DataVector}
    (hchange : ∀ v, v.type = cc.type → v.Shows cells →
      ∃ w, change v = some w ∧ w.type = cc.type ∧ w.Shows cells')
    (hlen : cells'.length = cells.length)
    (hkept : ∀ v ∈ cc.rewritten seg change, Kept cc.blockSize v) :
    ∃ seg', cc.rewriteSegment seg change = some seg' ∧ SegmentLists cc.type seg' cells' ∧
      seg'.stats = .ofCells cells' := by
  obtain ⟨v, hdec, htype, hv⟩ := h.decompresses
  obtain ⟨w, hw, hwtype, hshows⟩ := hchange v htype hv
  have hkept := hkept w (by simp [rewritten, hdec, hw])
  have hstats := SegmentStats.build_of_shows hshows
  rw [hwtype] at hstats
  simp only [rewriteSegment, hdec, hw, hstats, bind_eq_bind, bind_some]
  split
  · obtain ⟨block, hblock, hout⟩ := hkept.writeBlock hshows (.inl rfl) seg.block
    rw [hwtype] at hout
    rw [hblock]
    exact ⟨_, rfl, ⟨hout, h.rowCount.trans hlen.symm, hlen.trans_le h.small⟩, rfl⟩
  · obtain ⟨choice, hchoice⟩ := hkept.selects
    obtain ⟨block, hblock, hout⟩ := hkept.writeBlock hshows (.inr hchoice) seg.block
    rw [hwtype] at hout
    rw [hchoice, bind_some, hblock]
    exact ⟨_, rfl, ⟨hout, h.rowCount.trans hlen.symm, hlen.trans_le h.small⟩, rfl⟩

variable {srcIdx : ℕ} {c : Cell} {segs : List ColumnSegment} {l : List (List Cell × SegmentStats)}
  {o : ℕ}

/-- **`WriteRow`** finds the segment of the row, or leaves it to the pending rows. -/
theorem exists_writeRowIn (h : SegmentsList cc.type segs l) (hsrc : srcIdx < standardVectorSize)
    (hc : src.cellAs cc.type.storageClass srcIdx = some c)
    (hkept : ∀ v ∈ cc.writeRowCompresses src srcIdx segs o, Kept cc.blockSize v) :
    (∃ segs' l', cc.writeRowIn src srcIdx segs o = some (.inl segs') ∧
      SegmentsList cc.type segs' l' ∧
      ∀ pending, Listing.writeIn pending l o c = { segments := l', pending }) ∨
    ∃ i, o = (l.flatMap Prod.fst).length + i ∧ cc.writeRowIn src srcIdx segs o = some (.inr i) ∧
      ∀ pending, Listing.writeIn pending l o c = { segments := l, pending := pending.set i c } := by
  induction h generalizing o with
  | nil => exact .inr ⟨o, by simp, rfl, fun _ => rfl⟩
  | @cons seg p segs l hseg hrest ih =>
    obtain ⟨cells, stats⟩ := p
    obtain ⟨hseg, hstats⟩ := hseg
    rw [writeRowCompresses] at hkept
    simp only [writeRowIn, Listing.writeIn, hseg.rowCount] at hkept ⊢
    split at hkept
    next hlt =>
      obtain ⟨seg', hrun, hseg', hstats'⟩ := hseg.rewrite (fun v htype hv => by
        rw [← htype] at hc ⊢
        exact hv.write hlt hseg.small hsrc hc) (by simp) hkept
      refine .inl ⟨seg' :: segs, (cells.set o c, .ofCells (cells.set o c)) :: l, ?_,
        .cons ⟨hseg', hstats'⟩ hrest, fun _ => if_pos hlt⟩
      rw [if_pos hlt, hrun]
      rfl
    next hge =>
      simp only [if_neg hge]
      rcases ih hkept with ⟨segs', l', hrun, h', hwrite⟩ | ⟨i, ho, hrun, hwrite⟩
      · exact .inl ⟨seg :: segs', (cells, stats) :: l', by rw [hrun]; rfl, .cons ⟨hseg, hstats⟩ h',
          fun pending => by rw [hwrite]⟩
      · refine .inr ⟨i, ?_, by rw [hrun]; rfl, fun pending => by rw [hwrite]⟩
        simp only [flatMap_cons, length_append]
        omega

theorem Lists.writeRow (h : cc.Lists s) (ho : o < cc.rowCount) (hsrc : srcIdx < standardVectorSize)
    (hc : src.cellAs cc.type.storageClass srcIdx = some c)
    (hkept : ∀ v ∈ cc.writeRowCompresses src srcIdx cc.segments o, Kept cc.blockSize v) :
    ∃ cc', ColumnChunk.writeRow o src srcIdx cc = some (.ok (), cc') ∧ cc'.Lists (s.write o c) ∧
      cc'.type = cc.type := by
  rw [ColumnChunk.writeRow, bind_run_ok get_run]
  rcases exists_writeRowIn h.segments hsrc hc hkept with
    ⟨segs', l', hrun, h', hwrite⟩ | ⟨i, rfl, hrun, hwrite⟩
  · rw [hrun, Listing.write, hwrite]
    exact ⟨_, rfl, ⟨h.typed, h', h.pending_type, h.pending, h.pending_le⟩, rfl⟩
  · have hi : i < s.pending.length := by
      rw [h.rowCount, Listing.rows, length_append] at ho
      omega
    rw [← h.pending_type] at hc
    obtain ⟨p, hp, htype, hshows⟩ := h.pending.write hi h.pending_le hsrc hc
    rw [h.pending_type] at hp
    rw [hrun, bind_run_ok (ofOption_run _), Listing.write, hwrite]
    dsimp only
    rw [if_neg (by rw [h.pending.count]; omega), hp]
    exact ⟨_, rfl, ⟨h.typed, h.segments, htype.trans h.pending_type, hshows, by
      simpa using h.pending_le⟩, rfl⟩

end ColumnChunk

end CppColDB
