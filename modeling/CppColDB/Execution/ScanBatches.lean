import CppColDB.Execution.Evaluate
import CppColDB.Storage.Column.Bounds

/-!
# The batches of a table scan

What one batch of a scan returns: on the late path the visible rows that pass every filter,
on the other path the rows that the markers or their counters let through.
-/

namespace CppColDB

open ByteCodec DataChunk DataVector List

/-! ## Selections -/

variable {D : DoubleOps} {xs is : List ℕ} {pred : Expr} {chunk : DataChunk}

/-- A predicate that has a value on every row selects the rows where it is true. -/
theorem evaluateRows_eq {b : ℕ → Bool}
    (h : ∀ i ∈ is, pred.holds D (chunk.scalars i) = some (.ok (b i))) :
    evaluateRows D pred chunk is = some (.ok (is.filter b)) := by
  induction is with
  | nil => rfl
  | cons i is ih =>
    obtain ⟨hi, his⟩ := forall_mem_cons.mp h
    rw [evaluateRows, hi, ih his, filter_cons]
    rfl

/-- **A selection**: the predicate has a value on every row, and the rows where it is true are
there in the order of the chunk. -/
theorem evaluateRows_eq_ok_iff {sel : List ℕ} : evaluateRows D pred chunk is = some (.ok sel) ↔
      (∀ i ∈ is, ∃ b, pred.holds D (chunk.scalars i) = some (.ok b)) ∧
        sel = is.filter fun i => decide (pred.holds D (chunk.scalars i) = some (.ok true)) := by
  constructor
  · intro h
    induction is generalizing sel with
    | nil =>
      cases h
      exact ⟨forall_mem_nil _, rfl⟩
    | cons i is ih =>
      rw [evaluateRows] at h
      match hi : pred.holds D (chunk.scalars i) with
      | none => simp [hi] at h
      | some (.error e) => simp [hi] at h
      | some (.ok b) =>
        simp only [hi, Option.map_eq_some_iff] at h
        obtain ⟨_ | sel', hsel, heq⟩ := h
        · cases heq
        · cases heq
          obtain ⟨hall, rfl⟩ := ih hsel
          refine ⟨forall_mem_cons.mpr ⟨⟨b, hi⟩, hall⟩, ?_⟩
          rw [filter_cons, hi]
          cases b <;> rfl
  · rintro ⟨hall, rfl⟩
    refine evaluateRows_eq fun i hi => ?_
    obtain ⟨b, hb⟩ := hall i hi
    rw [hb]
    cases b <;> rfl

/-- The head of what is left after the smaller elements are dropped. -/
theorem head?_dropWhile_iff (h : xs.Pairwise (· < ·)) {x : ℕ} :
    (xs.dropWhile (· < x)).head? = some x ↔ x ∈ xs := by
  induction xs with
  | nil => simp
  | cons a xs ih =>
    obtain ⟨hhead, htail⟩ := pairwise_cons.mp h
    rw [dropWhile_cons]
    split
    next hlt =>
      have hne : x ≠ a := by
        have : a < x := by simpa using hlt
        omega
      rw [ih htail, mem_cons, or_iff_right hne]
    next hge =>
      have hle : x ≤ a := by simpa using hge
      rw [head?_cons, Option.some.injEq, mem_cons]
      constructor
      · rintro rfl
        exact .inl rfl
      · rintro (rfl | hmem)
        · rfl
        · have := hhead x hmem
          omega

theorem mem_dropWhile_iff {x y : ℕ} (hxy : x ≤ y) :
    y ∈ xs.dropWhile (· < x) ↔ y ∈ xs := by
  induction xs with
  | nil => simp
  | cons a xs ih =>
    rw [dropWhile_cons]
    split
    next hlt =>
      have hne : y ≠ a := by
        have : a < x := by simpa using hlt
        omega
      rw [ih, mem_cons, or_iff_right hne]
    next => rfl

/-- **The intersection** keeps the elements of the second selection. -/
theorem intersect_eq {sel sel2 : List ℕ} (h : sel.Pairwise (· < ·)) (h2 : sel2.Pairwise (· < ·)) :
    intersect sel sel2 = sel.filter fun i => decide (i ∈ sel2) := by
  induction sel generalizing sel2 with
  | nil => rfl
  | cons idx sel ih =>
    obtain ⟨hhead, htail⟩ := pairwise_cons.mp h
    have hrest := ih htail (h2.sublist (dropWhile_sublist (· < idx)))
    have hsame : (sel.filter fun i => decide (i ∈ sel2.dropWhile (· < idx))) =
        sel.filter fun i => decide (i ∈ sel2) :=
      filter_congr fun i hi => by
        rw [decide_eq_decide]
        exact mem_dropWhile_iff (hhead i hi).le
    rw [intersect, hrest, hsame]
    by_cases hmem : idx ∈ sel2
    · simp [hmem, (head?_dropWhile_iff h2).mpr hmem]
    · have hno : ¬ (sel2.dropWhile (· < idx)).head? = some idx :=
        fun hh => hmem ((head?_dropWhile_iff h2).mp hh)
      simp [hmem, hno]

theorem pairwise_filter_range (p : ℕ → Bool) (n : ℕ) : ((range n).filter p).Pairwise (· < ·) :=
  pairwise_lt_range.sublist filter_sublist

/-- **The rows that pass every filter**, where each has a value on every row. -/
theorem predSelection_eq {filters : List Expr} {b : Expr → ℕ → Bool}
    (h : ∀ f ∈ filters, ∀ i < chunk.count, f.holds D (chunk.scalars i) = some (.ok (b f i))) :
    predSelection D chunk filters =
      some (.ok ((range chunk.count).filter fun i => filters.all fun f => b f i)) := by
  have heval : ∀ f ∈ filters, evaluatePredicate D f chunk =
      some (.ok ((range chunk.count).filter (b f))) := by
    intro f hf
    exact evaluateRows_eq fun i hi => h f hf i (mem_range.mp hi)
  have hnarrow : ∀ {fs : List Expr} {p : ℕ → Bool}, (∀ f ∈ fs, f ∈ filters) →
      narrow D chunk fs ((range chunk.count).filter p) =
        some (.ok ((range chunk.count).filter fun i => p i && fs.all fun f => b f i)) := by
    intro fs
    induction fs with
    | nil =>
      simp [narrow]
    | cons f fs ih =>
      intro p hfs
      obtain ⟨hf, hfs⟩ := forall_mem_cons.mp hfs
      rw [narrow]
      split
      next hempty =>
        rw [hempty, Option.some.injEq, Except.ok.injEq, eq_comm, filter_eq_nil_iff]
        rw [filter_eq_nil_iff] at hempty
        intro i hi
        simp [hempty i hi]
      next =>
        rw [heval f hf]
        dsimp only
        rw [intersect_eq (pairwise_filter_range _ _) (pairwise_filter_range _ _), filter_filter]
        have hfilter : ((range chunk.count).filter fun i =>
            decide (i ∈ (range chunk.count).filter (b f)) && p i) =
            (range chunk.count).filter fun i => p i && b f i := by
          refine filter_congr fun i hi => ?_
          simp only [mem_filter, hi, true_and, Bool.decide_eq_true, Bool.and_comm]
        rw [hfilter, ih hfs]
        simp [Bool.and_assoc]
  cases filters with
  | nil => simp [predSelection]
  | cons f fs =>
    rw [predSelection, heval f mem_cons_self]
    dsimp only
    rw [hnarrow fun g hg => mem_cons_of_mem _ hg]
    rfl

/-! ## Scans of a table -/

/-- A row group of a table with columns of the given types. -/
structure RowGroup.ReadableAs (rg : RowGroup) (types : List TypeId) : Prop where
  readable : rg.Readable
  colTypes : rg.colTypes = types

/-- A row of a chunk that holds rows of the table. -/
theorem DataChunk.Holds.scalars_row {rg : RowGroup} {cols offsets : List ℕ}
    (h : chunk.Holds (cols.map rg.colType) (offsets.map (rg.row cols))) {i o : ℕ}
    (hi : offsets[i]? = some o) (p : ℕ) :
    chunk.scalars i p = cols[p]?.map fun c => { type := rg.colType c, cell := rg.cell c o } := by
  have hrow : (offsets.map (rg.row cols))[i]? = some (rg.row cols o) := by
    rw [getElem?_map, hi, Option.map_some]
  rw [h.scalars_eq hrow, Row.scalars, RowGroup.row, getElem?_map, getElem?_map]
  cases cols[p]? <;> rfl

namespace TableScan

variable {S : TableScan} {D : DoubleOps} {tx : Snapshot} {rg : RowGroup} {types : List TypeId}
  {visOffsets : List ℕ} {early : DataChunk} {rowOffset : ℕ} {f : Expr} {p : ℕ}

/-- The scan as the planner sets it up: the columns exist, the filters are on them, and the
literals that zone maps are compared with are typed. -/
structure Planned (S : TableScan) (types : List TypeId) : Prop where
  columnIds : ∀ c ∈ S.columnIds, c < types.length
  outputTypes : S.outputTypes = S.columnIds.map fun c => types.getD c .invalid
  filters : ∀ f ∈ S.pushedFilters, ∀ p ∈ f.columns, p < S.columnIds.length
  literals : ∀ pred ∈ S.scanPredicates, pred.bound.Typed

/-- A row of the table as the filters see it. -/
def scalars (S : TableScan) (rg : RowGroup) (o p : ℕ) : Option Scalar :=
  S.columnIds[p]?.map fun c => { type := rg.colType c, cell := rg.cell c o }

/-- Whether a filter is true on a row. -/
def passes (S : TableScan) (D : DoubleOps) (rg : RowGroup) (o : ℕ) (f : Expr) : Bool :=
  decide (f.holds D (S.scalars rg o) = some (.ok true))

/-- Whether every filter is true on a row. -/
def matching (S : TableScan) (D : DoubleOps) (rg : RowGroup) (o : ℕ) : Bool :=
  S.pushedFilters.all (S.passes D rg o)

/-- Every filter has a value on every visible row. -/
def Evaluates (S : TableScan) (D : DoubleOps) (tx : Snapshot) (rg : RowGroup) : Prop :=
  ∀ o < rg.rowCount, rg.versionInfo.isVisible o tx → ∀ f ∈ S.pushedFilters,
    ∃ b, f.holds D (S.scalars rg o) = some (.ok b)

theorem holds_eq_passes {o : ℕ} (h : ∃ b, f.holds D (S.scalars rg o) = some (.ok b)) :
    f.holds D (S.scalars rg o) = some (.ok (S.passes D rg o f)) := by
  obtain ⟨b, hb⟩ := h
  rw [passes, hb]
  cases b <;> rfl

/-- The rows that a batch returns. -/
def keeps (S : TableScan) (D : DoubleOps) (tx : Snapshot) (rg : RowGroup) (o : ℕ) : Bool :=
  if S.payloadColIds ≠ [] then rg.versionInfo.isVisible o tx && S.matching D rg o
  else rg.admits tx o

/-! ### Positions -/

theorem mem_filterColIds (h : p ∈ S.filterColIds) :
    p < S.columnIds.length ∧ p ∈ S.filterSet := by
  rw [filterColIds] at h
  split at h
  · cases h
  · simpa using h

theorem mem_payloadColIds (h : p ∈ S.payloadColIds) :
    p < S.columnIds.length ∧ p ∉ S.filterSet := by
  rw [payloadColIds] at h
  split at h
  · cases h
  · simpa using h

theorem nodup_filterColIds : S.filterColIds.Nodup := by
  rw [filterColIds]
  split
  · exact nodup_nil
  · exact nodup_range.filter _

theorem nodup_payloadColIds : S.payloadColIds.Nodup := by
  rw [payloadColIds]
  split
  · exact nodup_nil
  · exact nodup_range.filter _

theorem getElem?_tableColIds {positions : List ℕ} (h : ∀ p ∈ positions, p < S.columnIds.length)
    {i : ℕ} (hi : positions[i]? = some p) :
    (S.tableColIds positions)[i]? = S.columnIds[p]? := by
  induction positions generalizing i with
  | nil => cases hi
  | cons q positions ih =>
    obtain ⟨hq, hrest⟩ := forall_mem_cons.mp h
    rw [tableColIds, filterMap_cons, getElem?_eq_getElem hq]
    cases i with
    | zero =>
      cases hi
      rw [getElem?_eq_getElem hq]
      rfl
    | succ i => exact ih hrest hi

theorem Planned.hasColumns (hS : S.Planned types) (hrg : rg.ReadableAs types) (positions : List ℕ) :
    rg.HasColumns (S.tableColIds positions) := by
  intro c hc
  obtain ⟨p, -, hp⟩ := mem_filterMap.mp hc
  rw [hrg.colTypes]
  exact hS.columnIds c (mem_of_getElem? hp)

/-! ### The late path -/

/-- A row of the columns read first shows the filters what the row of the table shows. -/
theorem scalars_early (hS : S.Planned types) {offsets : List ℕ}
    (hearly : early.Holds ((S.tableColIds S.filterColIds).map rg.colType)
      (offsets.map (rg.row (S.tableColIds S.filterColIds)))) (hf : f ∈ S.pushedFilters)
    {i o : ℕ} (hi : offsets[i]? = some o) :
    (f.remap S.earlyPosition).holds D (early.scalars i) = f.holds D (S.scalars rg o) := by
  refine Expr.holds_remap fun p hp => ?_
  have hlt := hS.filters f hf p hp
  have hset : p ∈ S.filterSet := mem_flatMap.mpr ⟨f, hf, hp⟩
  have hne : S.pushedFilters ≠ [] := ne_nil_of_mem hf
  have hmem : p ∈ S.filterColIds := by
    rw [filterColIds, if_neg hne]
    simp [hlt, hset]
  have hcol := getElem?_tableColIds (fun q hq => (mem_filterColIds hq).1) (getElem?_idxOf hmem)
  rw [earlyPosition, if_pos hmem, hearly.scalars_row hi, hcol, scalars]

/-- The columns that a loop over some positions replaces, and the other ones. -/
theorem foldlM_set {R : ℕ → DataVector → Prop} {g : ℕ → DataVector → Option DataVector}
    {positions : List ℕ} (hnodup : positions.Nodup) {k : ℕ} {columns : List DataVector}
    (hlt : ∀ pos ∈ positions, pos < columns.length)
    (h : ∀ i pos : ℕ, positions[i]? = some pos → ∀ col, columns[pos]? = some col →
      ∃ col', g (k + i) col = some col' ∧ R pos col') :
    ∃ columns', (positions.zipIdx k).foldlM (fun columns (pos, i) => do
        let col ← columns[pos]?
        let col ← g i col
        pure (columns.set pos col)) columns = some columns' ∧
      columns'.length = columns.length ∧
      (∀ pos ∈ positions, ∃ col, columns'[pos]? = some col ∧ R pos col) ∧
      ∀ pos, pos ∉ positions → columns'[pos]? = columns[pos]? := by
  induction positions generalizing k columns with
  | nil => exact ⟨columns, rfl, rfl, by simp, fun _ _ => rfl⟩
  | cons pos positions ih =>
    obtain ⟨hpos, hnodup⟩ := nodup_cons.mp hnodup
    obtain ⟨hposlt, hrest⟩ := forall_mem_cons.mp hlt
    have hcol := getElem?_eq_getElem hposlt
    obtain ⟨col', hg, hR⟩ := h 0 pos rfl _ hcol
    have hne : ∀ p ∈ positions, p ≠ pos := fun p hp heq => hpos (heq ▸ hp)
    obtain ⟨columns', hrun, hlen, hset, hkept⟩ := @ih hnodup (k + 1) (columns.set pos col')
      (by simpa using hrest) (by
        intro i p hi col hcol
        rw [getElem?_set_ne (hne p (mem_of_getElem? hi)).symm] at hcol
        rw [add_right_comm]
        exact h (i + 1) p hi col hcol)
    refine ⟨columns', ?_, by simpa using hlen, ?_, ?_⟩
    · rw [zipIdx_cons, foldlM_cons]
      simp only [hcol, bind, Option.bind]
      rw [add_zero] at hg
      simp only [hg]
      exact hrun
    · refine forall_mem_cons.mpr ⟨⟨col', ?_, hR⟩, hset⟩
      rw [hkept pos hpos, getElem?_set_self hposlt]
    · intro p hp
      rw [mem_cons, not_or] at hp
      rw [hkept p hp.2, getElem?_set_ne (Ne.symm hp.1)]

/-- What an output column shows of the rows at some offsets. -/
def Column (S : TableScan) (rg : RowGroup) (offsets : List ℕ) (p : ℕ) (col : DataVector) :
    Prop :=
  ∃ c, S.columnIds[p]? = some c ∧ col.type = rg.colType c ∧ col.count = offsets.length ∧
    ∀ i o : ℕ, offsets[i]? = some o → col.cell? i = some (rg.cell c o)

section

variable (hS : S.Planned types) (hrg : rg.ReadableAs types) {visOffsets sel offsets : List ℕ}
  {i p : ℕ}
include hS hrg

/-- Output columns that show the rows make a chunk that holds them. -/
theorem holds_of_columns (hfit : offsets.length ≤ standardVectorSize) {columns : List DataVector}
    (hlen : columns.length = S.columnIds.length)
    (h : ∀ p < S.columnIds.length, ∃ col, columns[p]? = some col ∧ S.Column rg offsets p col) :
    Holds { columns, count := offsets.length } S.outputTypes
      (offsets.map (rg.row S.columnIds)) := by
  have hall : Forall₂ (fun c col => col.type = rg.colType c ∧ col.count = offsets.length ∧
      ∀ i o : ℕ, offsets[i]? = some o → col.cell? i = some (rg.cell c o)) S.columnIds columns := by
    rw [forall₂_iff_get]
    refine ⟨hlen.symm, fun p hp hp' => ?_⟩
    obtain ⟨col, hcol, c, hc, hshows⟩ := h p hp
    rw [getElem?_eq_getElem hp', Option.some.injEq] at hcol
    rw [getElem?_eq_getElem hp, Option.some.injEq] at hc
    rw [get_eq_getElem, get_eq_getElem, hcol, hc]
    exact hshows
  refine ⟨hfit, by simp, ?_, ?_, fun i row hi => ?_⟩
  · rw [hS.outputTypes, ← hrg.colTypes]
    exact (hall.imp fun _ _ hcol => hcol.1.symm).map_eq_map.symm
  · intro col hcol
    obtain ⟨_, -, -, hcount, -⟩ := hall.exists_of_mem_right hcol
    exact hcount
  · rw [getElem?_map, Option.map_eq_some_iff] at hi
    obtain ⟨o, ho, rfl⟩ := hi
    rw [RowGroup.row, map_map]
    exact (hall.imp fun _ _ hcol => (hcol.2.2 i o ho).symm).map_eq_map.symm

/-- A column of a chunk that was read from the table, with its rows. -/
theorem exists_column {positions : List ℕ} (hpos : ∀ p ∈ positions, p < S.columnIds.length)
    (hchunk : chunk.Holds ((S.tableColIds positions).map rg.colType)
      (offsets.map (rg.row (S.tableColIds positions)))) (hi : positions[i]? = some p) :
    ∃ col, chunk.columns[i]? = some col ∧ S.Column rg offsets p col ∧
      col.type.storageClass ≠ .none := by
  have hp := hpos p (mem_of_getElem? hi)
  have hcol := getElem?_tableColIds hpos hi
  rw [getElem?_eq_getElem hp] at hcol
  have htype : ((S.tableColIds positions).map rg.colType)[i]? =
      some (rg.colType S.columnIds[p]) := by
    rw [getElem?_map, hcol, Option.map_some]
  have hfound : ∃ col, chunk.columns[i]? = some col ∧ col.type = rg.colType S.columnIds[p] := by
    rw [← hchunk.types, getElem?_map, Option.map_eq_some_iff] at htype
    exact htype
  obtain ⟨col, hcol', hcoltype⟩ := hfound
  refine ⟨col, hcol', ⟨_, getElem?_eq_getElem hp, hcoltype, ?_, ?_⟩, ?_⟩
  · rw [hchunk.counts col (mem_of_getElem? hcol'), hchunk.count, length_map]
  · intro j o hj
    obtain ⟨col₂, cell, hcol₂, -, hcell, hat⟩ := hchunk.column
      (show _ = some (rg.row _ o) by rw [getElem?_map, hj, Option.map_some]) htype
    rw [hcol'] at hcol₂
    cases hcol₂
    rw [RowGroup.row, getElem?_map, hcol, Option.map_some] at hcell
    rw [hat, hcell]
  · rw [hcoltype]
    exact hrg.readable.colType_ne_none (hS.hasColumns hrg positions) _
      (mem_of_getElem? htype)

theorem getElem?_outputTypes {c : ℕ}
    (hp : S.columnIds[p]? = some c) : S.outputTypes[p]? = some (rg.colType c) := by
  rw [hS.outputTypes, getElem?_map, hp, Option.map_some, RowGroup.colType, hrg.colTypes]

/-- A column that was read first, with its selected rows. -/
theorem exists_selected_column

    (hearly : early.Holds ((S.tableColIds S.filterColIds).map rg.colType)
      (visOffsets.map (rg.row (S.tableColIds S.filterColIds))))
    (hfit : sel.length ≤ standardVectorSize)
    (hoffsets : Forall₂ (fun i o => visOffsets[i]? = some o) sel offsets)
    (hi : S.filterColIds[i]? = some p) {dst : DataVector}
    (hdst : (initializeTypes S.outputTypes).columns[p]? = some dst) :
    ∃ dst', (early.columns[i]? >>= fun src =>
        sel.foldlM (fun dst idx => dst.append src idx) dst) = some dst' ∧
      S.Column rg offsets p dst' := by
  obtain ⟨src, hsrc, ⟨c, hc, htype, -, hcells⟩, hclass⟩ := exists_column hS hrg
    (fun q hq => (mem_filterColIds hq).1) hearly hi
  obtain rfl : reset (rg.colType c) 0 = dst := by
    rw [initializeTypes, getElem?_map, getElem?_outputTypes hS hrg hc] at hdst
    exact Option.some.inj hdst
  have hsel : ∀ idx ∈ sel, ∃ o, visOffsets[idx]? = some o := by
    intro idx hidx
    obtain ⟨o, -, ho⟩ := hoffsets.flip.exists_of_mem_right hidx
    exact ⟨o, ho⟩
  obtain ⟨dst', hrun, hdtype, hdcount, hdcells⟩ := exists_foldlM_append_nil
    (show (reset (rg.colType c) 0).type.storageClass ≠ .none by
      rw [reset_type, ← htype]; exact hclass)
    (show src.type.storageClass = _ by rw [reset_type, htype])
    (reset_count _ _) hfit (by
      intro idx hidx
      obtain ⟨o, ho⟩ := hsel idx hidx
      exact ⟨hearly.lt (by rw [getElem?_map, ho, Option.map_some]), _, hcells idx o ho⟩)
  refine ⟨dst', ?_, c, hc, ?_, by rw [hdcount, hoffsets.length_eq], ?_⟩
  · rw [hsrc]
    exact hrun
  · rw [hdtype, reset_type]
  · intro j o hj
    obtain ⟨hjlt, hjo⟩ := List.getElem?_eq_some_iff.mp hj
    have hjsel : j < sel.length := by rw [hoffsets.length_eq]; exact hjlt
    have hget := Forall₂.get hoffsets hjsel hjlt
    rw [get_eq_getElem, get_eq_getElem, hjo] at hget
    rw [hdcells j _ (getElem?_eq_getElem hjsel), hcells _ o hget]

/-- **The output of the late path** holds the selected rows. -/
theorem assemble_holds
    (hfilters : S.pushedFilters ≠ []) {late : DataChunk}
    (hearly : early.Holds ((S.tableColIds S.filterColIds).map rg.colType)
      (visOffsets.map (rg.row (S.tableColIds S.filterColIds))))
    (hfit : sel.length ≤ standardVectorSize)
    (hoffsets : Forall₂ (fun i o => visOffsets[i]? = some o) sel offsets)
    (hlate : late.Holds ((S.tableColIds S.payloadColIds).map rg.colType)
      (offsets.map (rg.row (S.tableColIds S.payloadColIds)))) :
    ∃ out, S.assemble early late sel = some out ∧
      out.Holds S.outputTypes (offsets.map (rg.row S.columnIds)) := by
  have hlen₀ : (initializeTypes S.outputTypes).columns.length = S.columnIds.length := by
    simp [initializeTypes, hS.outputTypes]
  obtain ⟨columns₁, hrun₁, hlen₁, hset₁, -⟩ := @foldlM_set (S.Column rg offsets)
    (fun i dst => early.columns[i]? >>= fun src =>
      sel.foldlM (fun dst idx => dst.append src idx) dst)
    S.filterColIds nodup_filterColIds 0 (initializeTypes S.outputTypes).columns
    (fun p hp => by rw [hlen₀]; exact (mem_filterColIds hp).1) (by
      intro i p hi dst hdst
      rw [zero_add]
      exact exists_selected_column hS hrg hearly hfit hoffsets hi hdst)
  obtain ⟨columns₂, hrun₂, hlen₂, hset₂, hkept₂⟩ := @foldlM_set (S.Column rg offsets)
    (fun i _ => late.columns[i]?) S.payloadColIds nodup_payloadColIds 0 columns₁
    (fun p hp => by rw [hlen₁, hlen₀]; exact (mem_payloadColIds hp).1) (by
      intro i p hi _ _
      rw [zero_add]
      obtain ⟨col, hcol, hshows, -⟩ := exists_column hS hrg
        (fun q hq => (mem_payloadColIds hq).1) hlate hi
      exact ⟨col, hcol, hshows⟩)
  have hcolumns : ∀ p < S.columnIds.length,
      ∃ col, columns₂[p]? = some col ∧ S.Column rg offsets p col := by
    intro p hp
    by_cases hset : p ∈ S.filterSet
    · have hno : p ∉ S.payloadColIds := fun hmem => (mem_payloadColIds hmem).2 hset
      rw [hkept₂ p hno]
      exact hset₁ p (by rw [filterColIds, if_neg hfilters]; simp [hp, hset])
    · exact hset₂ p (by rw [payloadColIds, if_neg hfilters]; simp [hp, hset])
  rw [← hoffsets.length_eq.symm] at hfit
  refine ⟨_, ?_, holds_of_columns hS hrg hfit (by rw [hlen₂, hlen₁, hlen₀]) hcolumns⟩
  simp only [bind_assoc] at hrun₁
  rw [assemble]
  simp only [hrun₁, hoffsets.length_eq]
  exact congrArg (fun o => o >>= fun columns : List DataVector =>
    some { columns, count := offsets.length : DataChunk }) hrun₂

end

/-- Positions in a list of offsets, and the offsets there. -/
theorem forall₂_filter_range {p : ℕ → Bool} : Forall₂ (fun i o => visOffsets[i]? = some o)
      ((range visOffsets.length).filter fun i => p (visOffsets.getD i 0))
      (visOffsets.filter p) := by
  have hall : visOffsets = (range visOffsets.length).map fun i => visOffsets.getD i 0 := by
    refine ext_getElem (by simp) fun i hi _ => ?_
    rw [getElem_map, getElem_range, getD_eq_getElem?_getD, getElem?_eq_getElem hi, Option.getD_some]
  have hfilter : visOffsets.filter p = ((range visOffsets.length).filter fun i =>
      p (visOffsets.getD i 0)).map fun i => visOffsets.getD i 0 := by
    conv_lhs => rw [hall]
    rw [filter_map]
    rfl
  rw [hfilter, forall₂_map_right_iff, forall₂_same]
  intro i hi
  have hlt := mem_range.mp (mem_of_mem_filter hi)
  rw [getD_eq_getElem?_getD, getElem?_eq_getElem hlt, Option.getD_some]

/-- The selection of the late path: the visible rows that pass every filter. -/
theorem predSelection_early (hS : S.Planned types)
    (hearly : early.Holds ((S.tableColIds S.filterColIds).map rg.colType)
      (visOffsets.map (rg.row (S.tableColIds S.filterColIds))))
    (heval : ∀ o ∈ visOffsets, ∀ f ∈ S.pushedFilters,
      ∃ b, f.holds D (S.scalars rg o) = some (.ok b)) :
    predSelection D early S.earlyFilters = some (.ok
      ((range visOffsets.length).filter fun i =>
        S.matching D rg (visOffsets.getD i 0))) := by
  have hcount : early.count = visOffsets.length := by rw [hearly.count, length_map]
  have hget : ∀ i < visOffsets.length, visOffsets[i]? = some (visOffsets.getD i 0) := by
    intro i hi
    rw [getD_eq_getElem?_getD, getElem?_eq_getElem hi, Option.getD_some]
  have hone : ∀ f ∈ S.pushedFilters, ∀ i < visOffsets.length,
      (f.remap S.earlyPosition).holds D (early.scalars i) =
        some (.ok (S.passes D rg (visOffsets.getD i 0) f)) := by
    intro f hf i hi
    rw [scalars_early hS hearly hf (hget i hi)]
    exact holds_eq_passes (heval _ (mem_of_getElem? (hget i hi)) f hf)
  rw [@predSelection_eq D early S.earlyFilters
    (fun f i => decide (f.holds D (early.scalars i) = some (.ok true))) (by
      intro f' hf' i hi
      obtain ⟨f, hf, rfl⟩ := mem_map.mp hf'
      rw [hone f hf i (by rw [← hcount]; exact hi)]
      cases S.passes D rg (visOffsets.getD i 0) f <;> rfl), hcount]
  congr 2
  refine filter_congr fun i hi => ?_
  rw [earlyFilters, matching, all_map, Bool.eq_iff_iff, all_eq_true, all_eq_true]
  refine forall₂_congr fun f hf => ?_
  rw [Function.comp, hone f hf i (mem_range.mp hi)]
  simp

/-- **A batch of the late path** has the visible rows that pass every filter. -/
theorem lateBatch_run (hS : S.Planned types) (hrg : rg.ReadableAs types)
    (heval : S.Evaluates D tx rg) (hpayload : S.payloadColIds ≠ [])
    (hoffset : rowOffset < rg.rowCount) :
    ∃ chunk, S.lateBatch D tx rg rowOffset = some (.ok chunk) ∧
      chunk.count = ((rg.batchRows rowOffset).filter (S.keeps D tx rg)).length ∧
      (0 < chunk.count → chunk.Holds S.outputTypes
        (((rg.batchRows rowOffset).filter (S.keeps D tx rg)).map (rg.row S.columnIds))) := by
  have hfilters : S.pushedFilters ≠ [] := by
    intro hnil
    rw [payloadColIds, if_pos hnil] at hpayload
    exact hpayload rfl
  obtain ⟨early, hscan, hearly⟩ := hrg.readable.scanBatchWithOffsets hoffset
    (hS.hasColumns hrg S.filterColIds) tx
  have hbatch : ∀ o ∈ rg.batchRows rowOffset, o < rg.rowCount := by
    intro o ho
    obtain ⟨-, hlt⟩ := mem_range'_1.mp ho
    omega
  have hsorted : (rg.batchRows rowOffset).Pairwise (· < ·) := pairwise_lt_range'
  have hsmall : (rg.batchRows rowOffset).length ≤ standardVectorSize := by
    rw [RowGroup.batchRows, length_range']
    exact min_le_left _ _
  have hkept : (rg.batchRows rowOffset).filter (S.keeps D tx rg) =
      ((rg.batchRows rowOffset).filter fun o => rg.versionInfo.isVisible o tx).filter
        (S.matching D rg) := by
    rw [filter_filter]
    refine filter_congr fun o _ => ?_
    rw [keeps, if_pos hpayload, Bool.and_comm]
  rw [hkept]
  generalize hvis : (rg.batchRows rowOffset).filter (fun o => rg.versionInfo.isVisible o tx) =
    visOffsets at hscan hearly
  have hsel := predSelection_early hS hearly (by
    intro o ho
    rw [← hvis] at ho
    obtain ⟨hmem, hvisible⟩ := mem_filter.mp ho
    exact heval o (hbatch o hmem) hvisible)
  have hcount : early.count = visOffsets.length := by rw [hearly.count, length_map]
  have hsub : (visOffsets.filter (S.matching D rg)).Sublist (rg.batchRows rowOffset) := by
    rw [← hvis]
    exact filter_sublist.trans filter_sublist
  have hpairs : Forall₂ (fun i o => visOffsets[i]? = some o)
      ((range visOffsets.length).filter fun i => S.matching D rg (visOffsets.getD i 0))
      (visOffsets.filter (S.matching D rg)) := forall₂_filter_range
  rw [lateBatch, hscan]
  dsimp only
  rw [hcount]
  by_cases hnone : visOffsets.length = 0
  · obtain rfl := length_eq_zero_iff.mp hnone
    exact ⟨{}, if_pos rfl, rfl, fun h => absurd h (lt_irrefl 0)⟩
  rw [if_neg hnone, hsel]
  dsimp only
  by_cases hempty : ((range visOffsets.length).filter fun i =>
      S.matching D rg (visOffsets.getD i 0)) = []
  · rw [if_pos hempty]
    refine ⟨{}, rfl, ?_, fun h => absurd h (lt_irrefl 0)⟩
    rw [← hpairs.length_eq, hempty]
    rfl
  · obtain ⟨late, hlaterun, hlate⟩ := hrg.readable.scanLate (hsorted.sublist hsub)
      (fun o ho => hbatch o (hsub.subset ho)) (hsub.length_le.trans hsmall)
      (hS.hasColumns hrg S.payloadColIds)
    have hfit := hsub.length_le.trans hsmall
    rw [← hpairs.length_eq] at hfit
    obtain ⟨out, hassemble, hout⟩ := assemble_holds hS hrg hfilters hearly hfit hpairs hlate
    refine ⟨out, ?_, by rw [hout.count, length_map], fun _ => hout⟩
    rw [if_neg hempty, mapM_eq_some_iff.mpr hpairs]
    simp only [bind, Option.bind, hlaterun, hassemble, pure]

/-- **A batch** has the rows that the scan keeps. -/
theorem batch_run (hS : S.Planned types) (hrg : rg.ReadableAs types) (heval : S.Evaluates D tx rg)
    (hoffset : rowOffset < rg.rowCount) :
    ∃ chunk, S.batch D tx rg rowOffset = some (.ok chunk) ∧
      chunk.count = ((rg.batchRows rowOffset).filter (S.keeps D tx rg)).length ∧
      (0 < chunk.count → chunk.Holds S.outputTypes
        (((rg.batchRows rowOffset).filter (S.keeps D tx rg)).map (rg.row S.columnIds))) := by
  rw [batch]
  split
  next hpayload => exact lateBatch_run hS hrg heval hpayload hoffset
  next hpayload =>
    have hcols : rg.HasColumns S.columnIds := by
      intro c hc
      rw [hrg.colTypes]
      exact hS.columnIds c hc
    obtain ⟨chunk, hscan, hholds⟩ := hrg.readable.scan hoffset hcols tx
    have hkeeps : S.keeps D tx rg = rg.admits tx := by
      funext o
      rw [keeps, if_neg hpayload]
    rw [hscan, hkeeps]
    refine ⟨chunk, rfl, by rw [hholds.count, length_map], fun _ => ?_⟩
    rw [hS.outputTypes, ← hrg.colTypes]
    exact hholds

end TableScan

end CppColDB
