import CppColDB.Storage.Column.Rows

/-!
# Reading columns and batches

A column whose segments can be decompressed is read as it was written: `Scan` returns a
stretch of its rows, `ScanRows` the rows at ascending offsets.
-/

namespace CppColDB

open ByteCodec List Nat Option

namespace DataVector

variable {v src : DataVector} {cells : List Cell}

/-- A vector that the column code fills, and its rows. -/
structure Shows (v : DataVector) (cells : List Cell) : Prop where
  tidy : v.Tidy
  count : v.count = cells.length
  cell : ∀ (i : ℕ) (c : Cell), cells[i]? = some c → v.cell? i = some c

theorem shows_reset {type : TypeId} (h : type.storageClass ≠ .none) : (reset type 0).Shows [] :=
  ⟨tidy_reset h, by simp, by simp⟩

variable {srcStart : ℕ}

theorem exists_bulkCopyRows {n : ℕ} (hsrc : srcStart + n ≤ src.size src.type.storageClass)
    (hstart : srcStart + n ≤ standardVectorSize) (hcount : v.count + n ≤ standardVectorSize) :
    ∃ v', v.bulkCopyRows src srcStart n = some v' := by
  rw [bulkCopyRows, if_neg (by omega)]
  cases hcls : src.type.storageClass with
  | none => exact ⟨_, rfl⟩
  | _ =>
    rw [hcls] at hsrc
    exact ⟨_, if_pos hsrc⟩

/-- **Copying rows** of a vector that stores its elements in the same arrays. -/
theorem Shows.copy (h : v.Shows cells) {new : List Cell}
    (hcls : src.type.storageClass = v.type.storageClass)
    (hsrc : srcStart + new.length ≤ src.size src.type.storageClass)
    (hstart : srcStart + new.length ≤ standardVectorSize)
    (hcount : cells.length + new.length ≤ standardVectorSize)
    (hnew : ∀ (i : ℕ) (c : Cell), new[i]? = some c → src.cell? (srcStart + i) = some c) :
    ∃ v', v.bulkCopyRows src srcStart new.length = some v' ∧ v'.type = v.type ∧
      v'.Shows (cells ++ new) := by
  obtain ⟨v', hrun⟩ := exists_bulkCopyRows hsrc hstart (by rw [h.count]; exact hcount)
  obtain ⟨htype, hcount', -, -⟩ := bulkCopyRows_fields hrun
  refine ⟨v', hrun, htype, h.tidy.bulkCopyRows hcls hrun, ?_, fun i c hi => ?_⟩
  · rw [hcount', h.count, length_append]
  · have hlt : i < v'.count := by
      rw [hcount', h.count, ← length_append]
      exact (List.getElem?_eq_some_iff.mp hi).1
    rw [cell?_bulkCopyRows hcls h.tidy hrun hlt, h.count]
    split
    next hold => exact h.cell i c (by rwa [getElem?_append_left hold] at hi)
    next hnot =>
      rw [getElem?_append_right (by omega)] at hi
      exact hnew _ c hi

/-- Copying single rows one after the other. -/
theorem Shows.copyEach (h : v.Shows cells) {g : ℕ → Cell} {idx : ℕ → ℕ} {offsets : List ℕ}
    (hcls : src.type.storageClass = v.type.storageClass)
    (hcount : cells.length + offsets.length ≤ standardVectorSize)
    (hidx : ∀ o ∈ offsets, idx o < src.size src.type.storageClass ∧ idx o < standardVectorSize ∧
      src.cell? (idx o) = some (g o)) :
    ∃ v', offsets.foldlM (fun out o => out.bulkCopyRows src (idx o) 1) v = some v' ∧
      v'.type = v.type ∧ v'.Shows (cells ++ offsets.map g) := by
  induction offsets generalizing v cells with
  | nil => exact ⟨v, rfl, rfl, by simpa using h⟩
  | cons o offsets ih =>
    obtain ⟨⟨hsize, hlt, hcell⟩, hrest⟩ := forall_mem_cons.mp hidx
    rw [length_cons] at hcount
    have hone : ∀ (i : ℕ) (c : Cell), [g o][i]? = some c → src.cell? (idx o + i) = some c := by
      intro i c hi
      cases i with
      | zero =>
        cases hi
        exact hcell
      | succ i => cases hi
    obtain ⟨v₁, hrun, htype, hshows⟩ := h.copy hcls (succ_le_of_lt hsize)
      (succ_le_of_lt hlt) (by rw [length_singleton]; omega) hone
    obtain ⟨v₂, hruns, htype₂, hshows₂⟩ := ih hshows (by rw [htype]; exact hcls)
      (by simp; omega) hrest
    refine ⟨v₂, ?_, htype₂.trans htype, by simpa using hshows₂⟩
    exact (congrArg (· >>= _) hrun).trans hruns

end DataVector

namespace ColumnChunk

variable {cc : ColumnChunk}

/-- A column that can be read: its segments decompress to as many rows as they have. -/
structure Readable (cc : ColumnChunk) : Prop where
  typed : cc.type.storageClass ≠ .none
  segment : ∀ seg ∈ cc.segments, ∃ v, decompress seg.block cc.type = some v ∧
    v.type.storageClass = cc.type.storageClass ∧ seg.rowCount ≤ v.size v.type.storageClass ∧
    seg.rowCount ≤ standardVectorSize ∧ ∀ i < seg.rowCount, ∃ c, v.cell? i = some c
  pending_type : cc.pendingData.type = cc.type
  pending_count : cc.pendingData.count ≤ standardVectorSize
  pending_tidy : cc.pendingData.Tidy

/-- Row `o` of a column that can be read. -/
def cell (cc : ColumnChunk) (o : ℕ) : Cell := (cc.cell? o).getD none

/-- The rows of the given segments and of the pending data. -/
def rowsIn (pending : DataVector) (segs : List ColumnSegment) : ℕ :=
  (segs.map ColumnSegment.rowCount).sum + pending.count

variable {i : ℕ}

theorem exists_cell?_of_tidy {v : DataVector} (h : v.Tidy) (hi : i < v.count) :
    ∃ c, v.cell? i = some c := by
  rw [DataVector.cell?]
  split
  · exact ⟨_, rfl⟩
  · cases hd : v.datum? i with
    | none =>
      have hsize := DataVector.load_eq_none_iff.mp hd
      have hstored := h.stored
      omega
    | some x => exact ⟨_, rfl⟩

variable {segs : List ColumnSegment} {o : ℕ}

theorem Readable.exists_cellIn (h : cc.Readable) (hsegs : ∀ seg ∈ segs, seg ∈ cc.segments)
    (ho : o < rowsIn cc.pendingData segs) :
    ∃ c, cellIn cc.type cc.pendingData segs o = some c := by
  induction segs generalizing o with
  | nil =>
    have hlt : o < cc.pendingData.count := by simpa [rowsIn] using ho
    rw [cellIn, if_pos hlt]
    exact exists_cell?_of_tidy h.pending_tidy hlt
  | cons seg segs ih =>
    obtain ⟨hseg, hsegs⟩ := forall_mem_cons.mp hsegs
    rw [cellIn]
    split
    next hlt =>
      obtain ⟨v, hv, -, -, -, hcells⟩ := h.segment seg hseg
      rw [hv]
      exact hcells o hlt
    next hge =>
      refine ih hsegs ?_
      simp only [rowsIn, map_cons, sum_cons] at ho ⊢
      omega

theorem Readable.cell?_eq (h : cc.Readable) (ho : o < cc.rowCount) :
    cc.cell? o = some (cc.cell o) := by
  obtain ⟨c, hc⟩ := h.exists_cellIn (fun _ hseg => hseg) ho
  rw [cell, cell?, hc, getD_some]

/-- The rows of a stretch of some segments. -/
def stretch (cc : ColumnChunk) (segs : List ColumnSegment) (start n : ℕ) : List Cell :=
  (range n).map fun j => (cellIn cc.type cc.pendingData segs (start + j)).getD none

variable {n start : ℕ}

theorem getElem?_stretch {c : Cell} (h : (cc.stretch segs start n)[i]? = some c) :
    i < n ∧ (cellIn cc.type cc.pendingData segs (start + i)).getD none = c := by
  rw [stretch, getElem?_map, map_eq_some_iff] at h
  obtain ⟨j, hj, rfl⟩ := h
  obtain ⟨hlt, heq⟩ := List.getElem?_eq_some_iff.mp hj
  rw [getElem_range] at heq
  rw [length_range] at hlt
  subst heq
  exact ⟨hlt, rfl⟩

theorem stretch_add {m : ℕ} :
    cc.stretch segs start (m + n) = cc.stretch segs start m ++ cc.stretch segs (start + m) n := by
  rw [stretch, range_add, map_append, List.map_map]
  congr 1
  refine map_congr_left fun j _ => ?_
  rw [Function.comp, add_assoc]

/-- Rows past the first segment. -/
theorem stretch_cons {seg : ColumnSegment} :
    cc.stretch (seg :: segs) (seg.rowCount + start) n = cc.stretch segs start n := by
  refine map_congr_left fun j _ => ?_
  rw [cellIn, if_neg (by omega)]
  congr 2
  omega

variable {count : ℕ} {out : DataVector} {cells : List Cell}

/-- **The loop of `Scan`** copies a stretch of the rows, as long as there are some. -/
theorem Readable.scanFrom (h : cc.Readable) (hsegs : ∀ seg ∈ segs, seg ∈ cc.segments) {row : ℕ}
    (hrows : row ≤ rowsIn cc.pendingData segs) (hrow : ∀ seg ∈ segs.head?, row ≤ seg.rowCount)
    (hout : out.Shows cells) (htype : out.type = cc.type)
    (hfit : cells.length + count ≤ standardVectorSize) :
    ∃ v, cc.scanFrom segs row count out = some v ∧ v.type = cc.type ∧
      v.Shows (cells ++ cc.stretch segs row (min count (rowsIn cc.pendingData segs - row))) := by
  induction segs generalizing row count out cells with
  | nil =>
    rw [ColumnChunk.scanFrom]
    by_cases hzero : count = 0
    · subst hzero
      exact ⟨out, if_pos rfl, htype, by simpa [stretch] using hout⟩
    · have hin : rowsIn cc.pendingData [] = cc.pendingData.count := by simp [rowsIn]
      have hpending := h.pending_count
      have havail : usizeSub cc.pendingData.count row = cc.pendingData.count - row := by
        rw [usizeSub]
        have hsmall : standardVectorSize < 2 ^ 64 := by decide
        omega
      rw [if_neg hzero, havail, hin]
      dsimp only
      split
      next hnone =>
        rw [hnone]
        exact ⟨out, rfl, htype, by simpa [stretch] using hout⟩
      generalize hn : min count (cc.pendingData.count - row) = n
      have hcls : cc.pendingData.type.storageClass = out.type.storageClass := by
        rw [h.pending_type, htype]
      have hlen : (cc.stretch [] row n).length = n := by simp [stretch]
      have hstored := h.pending_tidy.stored
      obtain ⟨v, hrun, hvtype, hshows⟩ := hout.copy hcls
        (show row + (cc.stretch [] row n).length ≤ _ by omega) (by omega) (by omega) (by
          intro i c hi
          obtain ⟨hi, rfl⟩ := getElem?_stretch hi
          obtain ⟨c, hc⟩ := h.exists_cellIn hsegs (show row + i < rowsIn _ _ by omega)
          rw [hc, getD_some, ← hc, cellIn, if_pos (by omega)])
      rw [hlen] at hrun
      exact ⟨v, hrun, hvtype.trans htype, hshows⟩
  | cons seg segs ih =>
    rw [ColumnChunk.scanFrom]
    by_cases hzero : count = 0
    · subst hzero
      exact ⟨out, if_pos rfl, htype, by simpa [stretch] using hout⟩
    · have hle := hrow seg rfl
      obtain ⟨hseg, hrest⟩ := forall_mem_cons.mp hsegs
      obtain ⟨scratch, hdec, hcls, hsize, hsmall, hcells⟩ := h.segment seg hseg
      rw [if_neg hzero, hdec]
      generalize htoCopy : min count (seg.rowCount - row) = toCopy
      have hlen : (cc.stretch (seg :: segs) row toCopy).length = toCopy := by simp [stretch]
      obtain ⟨v, hrun, hvtype, hshows⟩ := hout.copy
        (show scratch.type.storageClass = out.type.storageClass by rw [hcls, htype])
        (show row + (cc.stretch (seg :: segs) row toCopy).length ≤ _ by omega) (by omega)
        (by omega) (by
          intro i c hi
          obtain ⟨hi, rfl⟩ := getElem?_stretch hi
          obtain ⟨c, hc⟩ := hcells (row + i) (by omega)
          rw [cellIn, if_pos (by omega), hdec, Option.bind_some, hc, Option.getD_some])
      rw [hlen] at hrun
      simp only [bind, Option.bind, hrun]
      have hsum : rowsIn cc.pendingData (seg :: segs) =
          seg.rowCount + rowsIn cc.pendingData segs := by
        simp [rowsIn, add_assoc]
      split
      next hend =>
        obtain ⟨v', hrun', hvtype', hshows'⟩ := ih hrest (zero_le _) (by simp) hshows
          (hvtype.trans htype)
          (show _ + (count - toCopy) ≤ _ by rw [length_append]; omega)
        refine ⟨v', hrun', hvtype', ?_⟩
        have hsplit : min count (rowsIn cc.pendingData (seg :: segs) - row) =
            toCopy + min (count - toCopy) (rowsIn cc.pendingData segs - 0) := by
          omega
        rw [hsplit, stretch_add, ← append_assoc, show row + toCopy = seg.rowCount + 0 by omega,
          stretch_cons]
        exact hshows'
      next hnot =>
        have hall : min count (rowsIn cc.pendingData (seg :: segs) - row) = toCopy := by omega
        rw [hall]
        exact ⟨v, rfl, hvtype.trans htype, hshows⟩

/-- `MakeScanState` finds the segment of an offset. -/
theorem seek_spec {offset : ℕ} : (∀ seg ∈ (seek segs offset).1, seg ∈ segs) ∧
    (∀ seg ∈ (seek segs offset).1.head?, (seek segs offset).2 ≤ seg.rowCount) ∧
    (offset ≤ rowsIn cc.pendingData segs →
      rowsIn cc.pendingData segs - offset + (seek segs offset).2 =
        rowsIn cc.pendingData (seek segs offset).1) ∧
    ∀ n, cc.stretch (seek segs offset).1 (seek segs offset).2 n = cc.stretch segs offset n := by
  induction segs generalizing offset with
  | nil => exact ⟨by simp [seek], by simp [seek], Nat.sub_add_cancel, fun _ => rfl⟩
  | cons seg segs ih =>
    rw [seek]
    split
    next hlt => exact ⟨fun _ h => h, by simpa using hlt.le, Nat.sub_add_cancel, fun _ => rfl⟩
    next hge =>
      obtain ⟨hmem, hhead, hrows, hstretch⟩ := @ih (offset - seg.rowCount)
      refine ⟨fun s hs => mem_cons_of_mem _ (hmem s hs), hhead, fun hle => ?_, fun n => ?_⟩
      · simp only [rowsIn, map_cons, sum_cons] at hle hrows ⊢
        omega
      · have hoff : offset = seg.rowCount + (offset - seg.rowCount) := by omega
        rw [hstretch, hoff, stretch_cons, Nat.add_sub_cancel_left]

/-- **`Scan` returns a stretch of the rows.** -/
theorem Readable.scan (h : cc.Readable) {rowOffset : ℕ} (hrows : rowOffset ≤ cc.rowCount)
    (hcount : count ≤ standardVectorSize) :
    ∃ v, cc.scan rowOffset count = some v ∧ v.type = cc.type ∧
      v.Shows ((range' rowOffset (min count (cc.rowCount - rowOffset))).map cc.cell) := by
  obtain ⟨hmem, hhead, hle, hstretch⟩ := @seek_spec cc cc.segments rowOffset
  have hin : _ = cc.rowCount - rowOffset := Nat.sub_eq_of_eq_add (hle hrows).symm
  obtain ⟨v, hrun, htype, hshows⟩ := h.scanFrom hmem (by rw [← hle hrows]; exact le_add_left _ _)
    hhead (DataVector.shows_reset h.typed) (DataVector.reset_type _ _) (by simpa using hcount)
  refine ⟨v, hrun, htype, ?_⟩
  rw [hin, hstretch] at hshows
  rw [range'_eq_map_range, List.map_map]
  exact hshows

theorem le_of_mem_dropWhile {α : Type} {k : α → ℕ} {xs : List α}
    (h : xs.Pairwise fun a b => k a ≤ k b) {bound : ℕ} {x : α}
    (hx : x ∈ xs.dropWhile fun a => k a < bound) : bound ≤ k x := by
  induction xs with
  | nil => cases hx
  | cons a xs ih =>
    obtain ⟨hhead, htail⟩ := pairwise_cons.mp h
    rw [dropWhile_cons] at hx
    split at hx
    next => exact ih htail hx
    next hge =>
      have hle : bound ≤ k a := by simpa using hge
      rcases mem_cons.mp hx with rfl | hmem
      · exact hle
      · exact hle.trans (hhead x hmem)

variable {offsets : List ℕ}

/-- **The loop of `ScanRows`**, over offsets in order. -/
theorem Readable.scanRowsIn (h : cc.Readable) (hsegs : ∀ seg ∈ segs, seg ∈ cc.segments)
    {segStart : ℕ} (hsorted : offsets.Pairwise (· ≤ ·))
    (hrange : ∀ o ∈ offsets, segStart ≤ o ∧ o < segStart + rowsIn cc.pendingData segs)
    (hbig : ∀ o ∈ offsets, o < 2 ^ 64) (hout : out.Shows cells) (htype : out.type = cc.type)
    (hfit : cells.length + offsets.length ≤ standardVectorSize) :
    ∃ v, cc.scanRowsIn segs segStart offsets out = some v ∧ v.type = cc.type ∧
      v.Shows (cells ++ offsets.map fun o =>
        (cellIn cc.type cc.pendingData segs (o - segStart)).getD none) := by
  have hsub : ∀ o ∈ offsets, usizeSub o segStart = o - segStart := by
    intro o ho
    have hlo := (hrange o ho).1
    have hbig := hbig o ho
    rw [usizeSub]
    omega
  induction segs generalizing segStart offsets out cells with
  | nil =>
    have hidx : ∀ o ∈ offsets,
        usizeSub o segStart < cc.pendingData.size cc.pendingData.type.storageClass ∧
        usizeSub o segStart < standardVectorSize ∧ cc.pendingData.cell? (usizeSub o segStart) =
          some ((cellIn cc.type cc.pendingData [] (o - segStart)).getD none) := by
      intro o ho
      obtain ⟨hlo, hhi⟩ := hrange o ho
      have hlt : o - segStart < cc.pendingData.count := by
        simp only [rowsIn, map_nil, sum_nil] at hhi
        omega
      have hstored := h.pending_tidy.stored
      have hcount := h.pending_count
      rw [hsub o ho]
      refine ⟨by omega, by omega, ?_⟩
      obtain ⟨c, hc⟩ := exists_cell?_of_tidy h.pending_tidy hlt
      rw [cellIn, if_pos hlt, hc, getD_some]
    obtain ⟨v, hrun, hvtype, hshows⟩ := hout.copyEach (by rw [h.pending_type, htype]) hfit hidx
    exact ⟨v, hrun, hvtype.trans htype, hshows⟩
  | cons seg segs ih =>
    obtain ⟨hseg, hrest⟩ := forall_mem_cons.mp hsegs
    have hsum : rowsIn cc.pendingData (seg :: segs) =
        seg.rowCount + rowsIn cc.pendingData segs := by
      simp [rowsIn, add_assoc]
    rw [ColumnChunk.scanRowsIn]
    by_cases hnil : offsets = []
    · subst hnil
      exact ⟨out, if_pos rfl, htype, by simpa using hout⟩
    rw [if_neg hnil]
    have hsplit := takeWhile_append_dropWhile (p := (· < segStart + seg.rowCount)) (l := offsets)
    generalize hhere : offsets.takeWhile (· < segStart + seg.rowCount) = here at hsplit
    generalize hleft : offsets.dropWhile (· < segStart + seg.rowCount) = left at hsplit
    have hlt : ∀ o ∈ here, o < segStart + seg.rowCount := by
      intro o ho
      rw [← hhere] at ho
      simpa using mem_takeWhile_imp ho
    have hge : ∀ o ∈ left, segStart + seg.rowCount ≤ o := by
      intro o ho
      rw [← hleft] at ho
      exact le_of_mem_dropWhile hsorted ho
    have hlater : ∀ {out : DataVector} {cells : List Cell}, out.Shows cells →
        out.type = cc.type → cells.length + left.length ≤ standardVectorSize →
        ∃ v, cc.scanRowsIn segs (segStart + seg.rowCount) left out = some v ∧
          v.type = cc.type ∧ v.Shows (cells ++ left.map fun o =>
            (cellIn cc.type cc.pendingData (seg :: segs) (o - segStart)).getD none) := by
      intro out cells hout htype hfit
      have hmem : ∀ o ∈ left, o ∈ offsets := fun o ho => by
        rw [← hsplit]
        exact mem_append_right _ ho
      have hrange' : ∀ o ∈ left, segStart + seg.rowCount ≤ o ∧
          o < segStart + seg.rowCount + rowsIn cc.pendingData segs := by
        intro o ho
        have hhi := (hrange o (hmem o ho)).2
        exact ⟨hge o ho, by omega⟩
      obtain ⟨v, hrun, hvtype, hshows⟩ := ih hrest
        (by rw [← hleft]; exact hsorted.sublist (dropWhile_sublist _)) hrange'
        (fun o ho => hbig o (hmem o ho)) hout htype hfit (by
          intro o ho
          have hlo := hge o ho
          have hbig := hbig o (hmem o ho)
          rw [usizeSub]
          omega)
      refine ⟨v, hrun, hvtype, ?_⟩
      have hcell : ∀ o ∈ left, (cellIn cc.type cc.pendingData segs
          (o - (segStart + seg.rowCount))).getD none =
          (cellIn cc.type cc.pendingData (seg :: segs) (o - segStart)).getD none := by
        intro o ho
        have hle := hge o ho
        rw [cellIn, if_neg (by omega), sub_add_eq]
      rw [map_congr_left hcell] at hshows
      exact hshows
    dsimp only
    rw [hhere, hleft, ← hsplit]
    rw [← hsplit, length_append] at hfit
    split
    next hempty =>
      subst hempty
      exact hlater hout htype (by simpa using hfit)
    next =>
      obtain ⟨scratch, hdec, hcls, hsize, hsmall, hcells⟩ := h.segment seg hseg
      have hidx : ∀ o ∈ here, usizeSub o segStart < scratch.size scratch.type.storageClass ∧
          usizeSub o segStart < standardVectorSize ∧ scratch.cell? (usizeSub o segStart) =
            some ((cellIn cc.type cc.pendingData (seg :: segs) (o - segStart)).getD none) := by
        intro o ho
        have hmem : o ∈ offsets := by
          rw [← hsplit]
          exact mem_append_left _ ho
        have hlo := (hrange o hmem).1
        have hhi := hlt o ho
        rw [hsub o hmem]
        refine ⟨by omega, by omega, ?_⟩
        obtain ⟨c, hc⟩ := hcells (o - segStart) (by omega)
        rw [cellIn, if_pos (by omega), hdec, bind_some, hc, getD_some]
      obtain ⟨out', hrun, htype', hshows⟩ := hout.copyEach (by rw [hcls, htype])
        (by omega) hidx
      obtain ⟨v, hrun', hvtype, hshows'⟩ := hlater hshows (htype'.trans htype)
        (by rw [length_append, length_map]; omega)
      refine ⟨v, ?_, hvtype, by simpa [append_assoc] using hshows'⟩
      simp only [hdec, bind, Option.bind, hrun]
      exact hrun'

/-- **`ScanRows` returns the rows at offsets in order.** -/
theorem Readable.scanRows (h : cc.Readable) (hsorted : offsets.Pairwise (· ≤ ·))
    (hrange : ∀ o ∈ offsets, o < cc.rowCount) (hbig : ∀ o ∈ offsets, o < 2 ^ 64)
    (hfit : offsets.length ≤ standardVectorSize) :
    ∃ v, cc.scanRows offsets = some v ∧ v.type = cc.type ∧ v.Shows (offsets.map cc.cell) := by
  have hrows : rowsIn cc.pendingData cc.segments = cc.rowCount := rfl
  obtain ⟨v, hrun, htype, hshows⟩ := h.scanRowsIn (fun _ hseg => hseg) hsorted
    (show ∀ o ∈ offsets, 0 ≤ o ∧ o < 0 + rowsIn cc.pendingData cc.segments from fun o ho =>
      ⟨zero_le o, by rw [zero_add]; exact hrange o ho⟩)
    hbig (DataVector.shows_reset h.typed) (DataVector.reset_type _ _) (by simpa using hfit)
  exact ⟨v, hrun, htype, hshows⟩

end ColumnChunk

/-! ## Chunks -/

namespace DataChunk

variable {c : DataChunk} {types : List TypeId} {rows : List Row}

/-- A chunk of vectors that show some columns of the rows at some offsets. -/
theorem holds_of_shows {offsets cols : List ℕ} {columns : List DataVector} {type : ℕ → TypeId}
    {cell : ℕ → ℕ → Cell} (hfit : offsets.length ≤ standardVectorSize)
    (h : Forall₂ (fun k v => v.type = type k ∧ v.Shows (offsets.map (cell k))) cols
      columns) :
    Holds { columns, count := offsets.length } (cols.map type)
      (offsets.map fun o => cols.map fun k => cell k o) := by
  refine ⟨hfit, by simp, ?_, ?_, fun i row hi => ?_⟩
  · induction h with
    | nil => rfl
    | cons hv _ ih => rw [map_cons, map_cons, hv.1, ih]
  · intro col hcol
    obtain ⟨k, -, -, hshows⟩ := h.exists_of_mem_right hcol
    simpa using hshows.count
  · rw [getElem?_map, map_eq_some_iff] at hi
    obtain ⟨o, ho, rfl⟩ := hi
    induction h with
    | nil => rfl
    | cons hv _ ih =>
      rw [map_cons, map_cons, map_cons, ih, hv.2.cell i _ (by rw [getElem?_map, ho]; rfl)]

variable {src dst : DataVector} {sel : List ℕ}

/-- Appending rows of a column one by one. -/
theorem exists_foldlM_append {g : ℕ → Cell} {old : List Cell} (hcls : dst.type.storageClass ≠ .none)
    (hsrc : src.type.storageClass = dst.type.storageClass) (hcount : dst.count = old.length)
    (hfit : old.length + sel.length ≤ standardVectorSize)
    (hold : ∀ (i : ℕ) (x : Cell), old[i]? = some x → dst.cell? i = some x)
    (hsel : ∀ i ∈ sel, i < standardVectorSize ∧ src.cell? i = some (g i)) :
    ∃ dst', sel.foldlM (fun dst idx => dst.append src idx) dst = some dst' ∧
      dst'.type = dst.type ∧ dst'.count = old.length + sel.length ∧
      ∀ (i : ℕ) (x : Cell), (old ++ sel.map g)[i]? = some x → dst'.cell? i = some x := by
  induction sel generalizing dst old with
  | nil => exact ⟨dst, rfl, rfl, hcount, by simpa using hold⟩
  | cons idx sel ih =>
    obtain ⟨⟨hlt, hcell⟩, hrest⟩ := forall_mem_cons.mp hsel
    rw [length_cons] at hfit
    obtain ⟨dst₁, hrun, happ⟩ := DataVector.exists_append hcls hsrc (by omega) hlt hcell
    obtain ⟨dst₂, hruns, htype, hcount₂, hcells⟩ := @ih dst₁ (old ++ [g idx])
      (by rw [happ.type]; exact hcls) (by rw [happ.type]; exact hsrc)
      (by rw [happ.count, hcount]; simp) (by simp; omega) (by
        intro i x hi
        rcases lt_or_ge i old.length with hlt | hge
        · rw [getElem?_append_left hlt] at hi
          exact happ.kept i (by omega) x (hold i x hi)
        · rw [getElem?_append_right hge, getElem?_singleton] at hi
          split at hi
          next hzero =>
            cases hi
            have hi' : i = dst.count := by omega
            rw [hi']
            exact happ.last
          next => cases hi) hrest
    refine ⟨dst₂, ?_, htype.trans happ.type, ?_, ?_⟩
    · exact (congrArg (· >>= _) hrun).trans hruns
    · rw [hcount₂]
      simp
      omega
    · simpa using hcells

/-- Appending rows of a column to an empty one. -/
theorem exists_foldlM_append_nil (hcls : dst.type.storageClass ≠ .none)
    (hsrc : src.type.storageClass = dst.type.storageClass) (hcount : dst.count = 0)
    (hfit : sel.length ≤ standardVectorSize)
    (hsel : ∀ i ∈ sel, i < standardVectorSize ∧ ∃ x, src.cell? i = some x) :
    ∃ dst', sel.foldlM (fun dst idx => dst.append src idx) dst = some dst' ∧
      dst'.type = dst.type ∧ dst'.count = sel.length ∧
      ∀ i idx : ℕ, sel[i]? = some idx → dst'.cell? i = src.cell? idx := by
  have hcell : ∀ i ∈ sel, src.cell? i = some ((src.cell? i).getD none) := by
    intro i hi
    obtain ⟨x, hx⟩ := (hsel i hi).2
    rw [hx, getD_some]
  obtain ⟨dst', hrun, htype, hcount', hcells⟩ := @exists_foldlM_append src dst sel _ [] hcls hsrc
    hcount (by simpa using hfit) (by simp) fun i hi => ⟨(hsel i hi).1, hcell i hi⟩
  refine ⟨dst', hrun, htype, by simpa using hcount', fun i idx hi => ?_⟩
  rw [hcell idx (mem_of_getElem? hi)]
  exact hcells i _ (by rw [nil_append, getElem?_map, hi, map_some])

/-- **`DataChunkSlice`** returns the rows at the given positions. -/
theorem Holds.slice (h : c.Holds types rows) (hnamed : ∀ t ∈ types, t.storageClass ≠ .none)
    (hsel : ∀ i ∈ sel, i < rows.length) (hfit : sel.length ≤ standardVectorSize) :
    ∃ c', c.slice sel = some c' ∧ c'.Holds types (sel.map fun i => rows.getD i []) := by
  have hrow : ∀ i ∈ sel, c.columns.map (·.cell? i) = (rows.getD i []).map some := by
    intro i hi
    have hget := getElem?_eq_getElem (hsel i hi)
    rw [h.cells i _ hget, getD_eq_getElem?_getD, hget, getD_some]
  have hcols : ∀ col ∈ c.columns, ∃ col', sel.foldlM (fun dst idx => dst.append col idx)
      ((DataVector.reset col.type 0).reserve sel.length) = some col' ∧
      (col'.type = col.type ∧ col'.count = sel.length ∧
        ∀ i idx : ℕ, sel[i]? = some idx → col'.cell? i = col.cell? idx) := by
    intro col hcol
    have hfields := DataVector.reserve_reset_fields col.type sel.length
    have hclass : col.type.storageClass ≠ .none :=
      hnamed _ (by rw [← h.types]; exact mem_map_of_mem hcol)
    obtain ⟨col', hrun, htype, hcount, hcells⟩ := exists_foldlM_append_nil
      (by rw [hfields.1]; exact hclass)
      (show col.type.storageClass = _ by rw [hfields.1]) hfields.2 hfit (by
        intro i hi
        refine ⟨h.lt (getElem?_eq_getElem (hsel i hi)), ?_⟩
        have hmem := mem_map_of_mem (f := (·.cell? i)) hcol
        rw [hrow i hi] at hmem
        obtain ⟨x, -, hx⟩ := mem_map.mp hmem
        exact ⟨x, hx.symm⟩)
    exact ⟨col', hrun, htype.trans hfields.1, hcount, hcells⟩
  obtain ⟨columns, hmap, hall⟩ := exists_mapM_forall₂ hcols
  refine ⟨{ columns, count := sel.length }, by rw [DataChunk.slice, hmap]; rfl, hfit, by simp, ?_, ?_,
    fun i row hi => ?_⟩
  · rw [← h.types]
    exact (hall.imp fun _ _ hv => hv.1.symm).map_eq_map.symm
  · intro col hcol
    obtain ⟨_, -, -, hcount, -⟩ := hall.exists_of_mem_right hcol
    exact hcount
  · rw [getElem?_map, map_eq_some_iff] at hi
    obtain ⟨idx, hidx, rfl⟩ := hi
    rw [← hrow idx (mem_of_getElem? hidx)]
    exact (hall.imp fun _ _ hv => (hv.2.2 i idx hidx).symm).map_eq_map.symm

end DataChunk

/-! ## Row groups -/

namespace RowGroup

variable {rg : RowGroup}

/-- A row group that can be read: every column has every row. -/
structure Readable (rg : RowGroup) : Prop where
  columns : Forall₂ (fun (t : TypeId) (cc : ColumnChunk) =>
    cc.type = t ∧ cc.Readable ∧ cc.rowCount = rg.rowCount) rg.colTypes rg.columnChunks
  rowCount_le : rg.rowCount ≤ 2 ^ 32

/-- Row `o` of column `c`. -/
def cell (rg : RowGroup) (c o : ℕ) : Cell := (rg.columnChunks[c]?.map (·.cell o)).getD none

def colType (rg : RowGroup) (c : ℕ) : TypeId := rg.colTypes.getD c .invalid

/-- The given columns of row `o`. -/
def row (rg : RowGroup) (cols : List ℕ) (o : ℕ) : Row := cols.map fun c => rg.cell c o

/-- The columns exist. -/
def HasColumns (rg : RowGroup) (cols : List ℕ) : Prop := ∀ c ∈ cols, c < rg.colTypes.length

theorem Readable.column (h : rg.Readable) {c : ℕ} (hc : c < rg.colTypes.length) :
    ∃ cc, rg.colTypes[c]? = some cc.type ∧ rg.columnChunks[c]? = some cc ∧ cc.Readable ∧
      cc.rowCount = rg.rowCount ∧ cc.type = rg.colType c ∧ cc.cell = rg.cell c := by
  have hlen := h.columns.length_eq
  have hget := Forall₂.get h.columns hc (by omega)
  rw [get_eq_getElem, get_eq_getElem] at hget
  refine ⟨rg.columnChunks[c], ?_, getElem?_eq_getElem _, hget.2.1, hget.2.2, ?_, ?_⟩
  · rw [hget.1]
    exact getElem?_eq_getElem hc
  · rw [colType, getD_eq_getElem?_getD, getElem?_eq_getElem hc, getD_some, hget.1]
  · funext o
    rw [cell, getElem?_eq_getElem (by omega), map_some, getD_some]

variable {cols : List ℕ}

/-- Every column that is read is typed. -/
theorem Readable.colType_ne_none (h : rg.Readable) (hcols : rg.HasColumns cols) :
    ∀ t ∈ cols.map rg.colType, t.storageClass ≠ .none := by
  intro t ht
  obtain ⟨c, hc, rfl⟩ := mem_map.mp ht
  obtain ⟨cc, -, -, hread, -, htype, -⟩ := h.column (hcols c hc)
  rw [← htype]
  exact hread.typed

/-- The offsets of the batch at `rowOffset`. -/
def batchRows (rg : RowGroup) (rowOffset : ℕ) : List ℕ :=
  range' rowOffset (min standardVectorSize (rg.rowCount - rowOffset))

variable {rowOffset : ℕ}

/-- **A batch has the rows at its offsets.** -/
theorem Readable.readBatch (h : rg.Readable) (hoffset : rowOffset ≤ rg.rowCount)
    (hcols : rg.HasColumns cols) :
    ∃ batch, rg.readBatch rowOffset cols = some batch ∧
      batch.Holds (cols.map rg.colType) ((rg.batchRows rowOffset).map (rg.row cols)) := by
  have hcol : ∀ c ∈ cols, ∃ v, (do
      let _ ← rg.colTypes[c]?
      let cc ← rg.columnChunks[c]?
      cc.scan rowOffset (min standardVectorSize (rg.rowCount - rowOffset))) = some v ∧
      (v.type = rg.colType c ∧ v.Shows ((rg.batchRows rowOffset).map (rg.cell c))) := by
    intro c hc
    obtain ⟨cc, htype?, hcc, hread, hcount, htype, hcell⟩ := h.column (hcols c hc)
    obtain ⟨v, hrun, hvtype, hshows⟩ := hread.scan (hoffset.trans_eq hcount.symm)
      (min_le_left standardVectorSize (rg.rowCount - rowOffset))
    rw [hcount, min_assoc, min_self] at hshows
    refine ⟨v, ?_, by rw [hvtype, htype], by rw [← hcell]; exact hshows⟩
    simp only [htype?, hcc]
    exact hrun
  obtain ⟨columns, hmap, hall⟩ := exists_mapM_forall₂ hcol
  have hlen : (rg.batchRows rowOffset).length = min standardVectorSize (rg.rowCount - rowOffset) :=
    length_range'
  have hholds := DataChunk.holds_of_shows (by rw [hlen]; exact min_le_left _ _) hall
  rw [hlen] at hholds
  refine ⟨_, ?_, hholds⟩
  rw [RowGroup.readBatch, hmap]
  rfl

/-- **`ScanLate`** returns the rows at ascending offsets. -/
theorem Readable.scanLate (h : rg.Readable) {offsets : List ℕ} (hsorted : offsets.Pairwise (· < ·))
    (hrange : ∀ o ∈ offsets, o < rg.rowCount) (hfit : offsets.length ≤ standardVectorSize)
    (hcols : rg.HasColumns cols) :
    ∃ late, rg.scanLate offsets cols = some late ∧
      late.Holds (cols.map rg.colType) (offsets.map (rg.row cols)) := by
  have hcol : ∀ c ∈ cols, ∃ v, (do
      let _ ← rg.colTypes[c]?
      let cc ← rg.columnChunks[c]?
      cc.scanRows offsets) = some v ∧
      (v.type = rg.colType c ∧ v.Shows (offsets.map (rg.cell c))) := by
    intro c hc
    obtain ⟨cc, htype?, hcc, hread, hcount, htype, hcell⟩ := h.column (hcols c hc)
    have hle := h.rowCount_le
    obtain ⟨v, hrun, hvtype, hshows⟩ := hread.scanRows (hsorted.imp le_of_lt)
      (by rw [hcount]; exact hrange) (fun o ho => (hrange o ho).trans_le (by omega)) hfit
    refine ⟨v, ?_, by rw [hvtype, htype], by rw [← hcell]; exact hshows⟩
    simp only [htype?, hcc]
    exact hrun
  obtain ⟨columns, hmap, hall⟩ := exists_mapM_forall₂ hcol
  refine ⟨_, ?_, DataChunk.holds_of_shows hfit hall⟩
  rw [RowGroup.scanLate, hmap]
  rfl

/-- Keeping the selected rows of a batch; the selection is one of its positions. -/
theorem filterBatch_holds {batch : DataChunk} {types : List TypeId} {rows : List Row}
    (h : batch.Holds types rows) (hnamed : ∀ t ∈ types, t.storageClass ≠ .none)
    (keep : ℕ → Bool) :
    ∃ chunk, filterBatch batch ((range batch.count).filter keep) = some chunk ∧
      chunk.Holds types (((range batch.count).filter keep).map fun i => rows.getD i []) := by
  rw [filterBatch]
  split
  next =>
    refine h.slice hnamed (fun i hi => ?_) ?_
    · rw [← h.count]
      exact mem_range.mp (mem_of_mem_filter hi)
    · have hle := length_filter_le keep (range batch.count)
      rw [length_range] at hle
      exact hle.trans h.count_le
  next hall =>
    have hfull : (range batch.count).filter keep = range batch.count := by
      refine Sublist.eq_of_length filter_sublist ?_
      have hle := length_filter_le keep (range batch.count)
      rw [length_range] at hle ⊢
      omega
    refine ⟨batch, rfl, ?_⟩
    rw [hfull, h.count]
    have hrows : (range rows.length).map (fun i => rows.getD i []) = rows := by
      refine ext_getElem (by simp) fun i _ hi => ?_
      rw [getElem_map, getElem_range, getD_eq_getElem?_getD, getElem?_eq_getElem hi, getD_some]
    rw [hrows]
    exact h

/-- The rows of a batch, selected by their position, are rows selected by their offset. -/
theorem map_filter_batchRows {f : ℕ → Row} {keep : ℕ → Bool} {n : ℕ} :
    (((range n).filter fun i => keep (rowOffset + i)).map fun i =>
      ((range' rowOffset n).map f).getD i []) =
      ((range' rowOffset n).filter keep).map f := by
  rw [range'_eq_map_range, List.filter_map, List.map_map, List.map_map]
  refine map_congr_left fun i hi => ?_
  have hlt : i < n := mem_range.mp (mem_of_mem_filter hi)
  rw [getD_eq_getElem?_getD, getElem?_map, getElem?_range hlt]
  rfl

/-- **`ScanBatchWithOffsets`** returns the visible rows of a batch and their offsets. -/
theorem Readable.scanBatchWithOffsets (h : rg.Readable) (hoffset : rowOffset < rg.rowCount)
    (hcols : rg.HasColumns cols) (tx : Snapshot) :
    ∃ chunk, rg.scanBatchWithOffsets rowOffset cols tx = some (chunk,
        (rg.batchRows rowOffset).filter fun o => rg.versionInfo.isVisible o tx) ∧
      chunk.Holds (cols.map rg.colType)
        (((rg.batchRows rowOffset).filter fun o => rg.versionInfo.isVisible o tx).map
          (rg.row cols)) := by
  obtain ⟨batch, hbatch, hholds⟩ := h.readBatch hoffset.le hcols
  have hcount : batch.count = min standardVectorSize (rg.rowCount - rowOffset) := by
    rw [hholds.count, length_map, batchRows, length_range']
  obtain ⟨chunk, hchunk, hheld⟩ := filterBatch_holds hholds (h.colType_ne_none hcols) fun i =>
    rg.versionInfo.isVisible (rowOffset + i) tx
  rw [hcount] at hchunk hheld
  have hsel : rg.selection rowOffset tx =
      (range (min standardVectorSize (rg.rowCount - rowOffset))).filter fun i =>
        rg.versionInfo.isVisible (rowOffset + i) tx := rfl
  have hoffsets : (rg.selection rowOffset tx).map (rowOffset + ·) =
      (rg.batchRows rowOffset).filter fun o => rg.versionInfo.isVisible o tx := by
    rw [batchRows, range'_eq_map_range, List.filter_map]
    rfl
  refine ⟨chunk, ?_, ?_⟩
  · rw [RowGroup.scanBatchWithOffsets, if_neg (by omega), hbatch]
    simp only [bind, Option.bind, hsel, hchunk, pure]
    rw [← hsel, hoffsets]
  · rw [batchRows, ← map_filter_batchRows]
    exact hheld

/-- The offsets whose rows `Scan` returns from a batch. -/
def admits (rg : RowGroup) (tx : Snapshot) (o : ℕ) : Bool :=
  !(rg.versionInfo.hasAnyMarkers && !rg.versionInfo.allInsertedVisibleTo tx.startTime) ||
    rg.versionInfo.isVisible o tx

/-- **`Scan`** returns the rows of a batch that the counters or the markers let through. -/
theorem Readable.scan (h : rg.Readable) (hoffset : rowOffset < rg.rowCount)
    (hcols : rg.HasColumns cols) (tx : Snapshot) :
    ∃ chunk, rg.scan rowOffset cols tx = some chunk ∧ chunk.Holds (cols.map rg.colType)
      (((rg.batchRows rowOffset).filter (rg.admits tx)).map (rg.row cols)) := by
  obtain ⟨batch, hbatch, hholds⟩ := h.readBatch hoffset.le hcols
  have hcount : batch.count = min standardVectorSize (rg.rowCount - rowOffset) := by
    rw [hholds.count, length_map, batchRows, length_range']
  obtain ⟨chunk, hchunk, hheld⟩ := filterBatch_holds hholds (h.colType_ne_none hcols) fun i =>
    rg.admits tx (rowOffset + i)
  rw [hcount] at hchunk hheld
  have hsel : rg.scanSelection rowOffset tx =
      (range (min standardVectorSize (rg.rowCount - rowOffset))).filter fun i =>
        rg.admits tx (rowOffset + i) := by
    rw [scanSelection]
    split
    next hslow =>
      refine filter_congr fun i _ => ?_
      rw [admits, hslow, Bool.not_true, Bool.false_or]
    next hfast =>
      have hall : ∀ i, rg.admits tx (rowOffset + i) = true := by
        intro i
        rw [admits, Bool.eq_false_of_not_eq_true hfast]
        rfl
      simp [hall]
  refine ⟨chunk, ?_, ?_⟩
  · rw [RowGroup.scan, if_neg (by omega), hbatch, hsel]
    exact hchunk
  · rw [batchRows, ← map_filter_batchRows]
    exact hheld

end RowGroup

end CppColDB
