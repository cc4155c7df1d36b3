import CppColDB.Execution.ScanExact
import CppColDB.Execution.SortRows

/-!
# ORDER BY returns the sorted rows

The source copies the rows of the buffer to its output in the order of the sort, in chunks of
`standardVectorSize` rows.
-/

namespace CppColDB

open DataChunk DataVector Fallible List Nat Option Selection

/-! ## The source -/

/-- A row of the buffer is appended to the output, a cell to each column. -/
theorem exists_appendColumns {outs srcs : List DataVector} {row : Row} {ri : ℕ}
    (hri : ri < standardVectorSize) (htypes : srcs.map (·.type) = outs.map (·.type))
    (houts : ∀ out ∈ outs, out.type.storageClass ≠ .none ∧ out.count < standardVectorSize)
    (hcells : srcs.map (·.cell? ri) = row.map some) :
    ∃ columns, appendColumns ri outs srcs = some columns ∧
      AppendedRow outs row columns := by
  induction outs generalizing srcs row with
  | nil =>
    obtain rfl := map_eq_nil_iff.mp htypes
    obtain rfl := map_eq_nil_iff.mp hcells.symm
    exact ⟨[], rfl, .nil⟩
  | cons out outs ih =>
    cases srcs with
    | nil => cases htypes
    | cons src srcs =>
      cases row with
      | nil => cases hcells
      | cons cell row =>
        rw [map_cons, map_cons, cons.injEq] at htypes hcells
        obtain ⟨hout, houts⟩ := forall_mem_cons.mp houts
        obtain ⟨out', happ, hcell⟩ := exists_append hout.1
          (congrArg TypeId.storageClass htypes.1) hout.2 hri hcells.1
        obtain ⟨columns, hrest, hrow⟩ := ih htypes.2 houts hcells.2
        refine ⟨out' :: columns, ?_, .cons hcell hrow⟩
        rw [appendColumns, happ]
        simp [hrest]

theorem DataChunk.holds_initializeTypes (types : List TypeId) :
    (initializeTypes types).Holds types [] := by
  refine ⟨zero_le _, rfl, ?_, ?_, by simp⟩
  · rw [initializeTypes, List.map_map]
    exact (map_congr_left fun t _ => reset_type t 0).trans (map_id types)
  · intro col hcol
    obtain ⟨t, -, rfl⟩ := mem_map.mp hcol
    exact reset_count t 0

namespace SortBuffer

variable {buf : SortBuffer} {types : List TypeId} {parts : List (List Row)}

/-- **Some rows of the buffer** are appended to a chunk with room for them. -/
theorem exists_emit (hparts : Forall₂ (Holds · types ·) buf.chunks parts)
    (htypes : ∀ type ∈ types, type.storageClass ≠ .none) {order : List (ℕ × ℕ)}
    (horder : order ⊆ positionsFrom 0 (parts.map length)) {output : DataChunk}
    {rows : List Row} (hout : output.Holds types rows)
    (hroom : rows.length + order.length ≤ standardVectorSize) :
    ∃ out, buf.emit output order = some out ∧
      out.Holds types (rows ++ order.map (rowAt parts)) := by
  induction order generalizing output rows with
  | nil => exact ⟨output, rfl, by rwa [map_nil, append_nil]⟩
  | cons pos order ih =>
    obtain ⟨hpos, horder⟩ := cons_subset.mp horder
    rw [length_cons] at hroom
    obtain ⟨part, row, hpart, hrow⟩ := exists_of_mem_positionsFrom hpos
    obtain ⟨src, hsrc, hholds⟩ := hparts.flip.exists_of_getElem?_left hpart
    have hat : rowAt parts pos = row := by simp [rowAt, hpart, hrow]
    have hcount : output.count < standardVectorSize := by
      have := hout.count
      omega
    obtain ⟨columns, happ, hcells⟩ := exists_appendColumns (hholds.lt hrow)
      (hholds.types.trans hout.types.symm)
      (fun col hcol => ⟨htypes _ (hout.types ▸ mem_map_of_mem hcol),
        hout.counts col hcol ▸ hcount⟩) (hholds.cells pos.2 row hrow)
    obtain ⟨out, hemit, hout'⟩ := ih horder (hout.append hcount hcells) (by
      rw [length_append, length_singleton]
      omega)
    refine ⟨out, ?_, ?_⟩
    · rw [emit, hsrc]
      simp [happ, hemit]
    · rwa [map_cons, hat, append_cons]

section

variable (hsorted : buf.sorted = true)
  (hparts : Forall₂ (Holds · types ·) buf.chunks parts)
  (htypes : ∀ type ∈ types, type.storageClass ≠ .none)
  (horder : buf.sortedOrder ⊆ positionsFrom 0 (parts.map length))
include hsorted hparts htypes horder

/-- **One call of the source**, with rows left. -/
theorem exists_getData {i : ℕ} (hi : i < buf.sortedOrder.length) :
    let next := (buf.sortedOrder.drop i).take standardVectorSize
    ∃ out, out.Holds types (next.map (rowAt parts)) ∧ buf.getData i =
      some (if buf.sortedOrder.length ≤ i + next.length then .finished else .haveMoreOutput,
        out, i + next.length) := by
  intro next
  have hnext : next ⊆ positionsFrom 0 (parts.map length) := fun pos hpos =>
    horder (mem_of_mem_drop (mem_of_mem_take hpos))
  -- there is a row, so there is a first chunk, and it has the columns of every chunk
  obtain ⟨first, rest, hchunks, hfirst⟩ : ∃ first rest, buf.chunks = first :: rest ∧
      first.columns.map (·.type) = types := by
    obtain ⟨part, -, hpart, -⟩ := exists_of_mem_positionsFrom (horder (getElem_mem hi))
    obtain ⟨c, hc, hholds⟩ := hparts.flip.exists_of_getElem?_left hpart
    cases hchunks : buf.chunks with
    | nil =>
      rw [hchunks] at hc
      cases hc
    | cons first rest =>
      rw [hchunks] at hparts
      obtain ⟨part', -, hfirst, -, -⟩ := forall₂_cons_left_iff.mp hparts
      exact ⟨first, rest, rfl, hfirst.types⟩
  obtain ⟨out, hemit, hout⟩ := exists_emit hparts htypes hnext
    (holds_initializeTypes types) (by simp [next])
  refine ⟨out, by simpa using hout, ?_⟩
  rw [getData, hsorted, if_neg (by decide), if_neg (not_le.mpr hi), hchunks]
  dsimp only
  rw [hfirst, hemit]
  split <;> rfl

/-- **Draining the source** gives all rows, in the order of the sort. -/
theorem exists_drain (n i : ℕ) (hn : buf.sortedOrder.length - i ≤ n) :
    ∃ outs, (∀ fuel > n, buf.drain fuel i = some outs) ∧
      HoldAll outs types ((buf.sortedOrder.drop i).map (rowAt parts)) := by
  induction n using Nat.strong_induction_on generalizing i with
  | _ n ih =>
    by_cases hi : i < buf.sortedOrder.length
    · obtain ⟨out, hout, hdata⟩ := exists_getData hsorted hparts htypes horder hi
      generalize hnext : (buf.sortedOrder.drop i).take standardVectorSize = next at hout hdata
      have hsplit : next ++ buf.sortedOrder.drop (i + next.length) = buf.sortedOrder.drop i := by
        rw [← drop_drop]
        exact prefix_iff_eq_append.mp (hnext ▸ take_prefix _ _)
      have hsome : 0 < next.length := by
        rw [← hnext, length_take, length_drop, standardVectorSize]
        omega
      have hcount : out.count ≠ 0 := by
        rw [hout.count, length_map]
        omega
      have hcall : ∀ fuel, buf.drain (fuel + 1) i =
          if buf.sortedOrder.length ≤ i + next.length then some [out]
          else (buf.drain fuel (i + next.length)).map fun rest => out :: rest := by
        intro fuel
        rw [drain, hdata]
        by_cases hlast : buf.sortedOrder.length ≤ i + next.length
        · simp [hlast, hcount]
        · simp [hcount, map_eq_bind]
      by_cases hlast : buf.sortedOrder.length ≤ i + next.length
      · refine ⟨[out], fun fuel hfuel => ?_, [next.map (rowAt parts)], .cons hout .nil, ?_⟩
        · obtain _ | fuel := fuel
          · omega
          rw [hcall, if_pos hlast]
        · rw [← hsplit, drop_eq_nil_of_le hlast]
          simp
      · obtain ⟨outs, hrest, rowss, hholds, hrows⟩ :=
          ih (n - 1) (by omega) (i + next.length) (by omega)
        refine ⟨out :: outs, fun fuel hfuel => ?_, next.map (rowAt parts) :: rowss,
          .cons hout hholds, ?_⟩
        · obtain _ | fuel := fuel
          · omega
          rw [hcall, if_neg hlast, hrest fuel (by omega), map_some]
        · rw [← hsplit, flatten_cons, hrows, map_append]
    · refine ⟨[], fun fuel hfuel => ?_, [], .nil, ?_⟩
      · obtain _ | fuel := fuel
        · omega
        rw [drain, getData, hsorted, if_pos (not_lt.mp hi)]
        rfl
      · rw [drop_eq_nil_of_le (not_lt.mp hi)]
        rfl

end

end SortBuffer

/-! ## The sort -/

namespace PhysicalSort

/-- An input of the sort: chunks of the same types whose arrays reach as far as their rows,
and keys that are no floating-point numbers. -/
structure Input (op : PhysicalSort) (types : List TypeId) (chunks : List DataChunk)
    (rows : List Row) : Prop where
  holds : HoldAll chunks types rows
  full : ∀ c ∈ chunks, ∀ col ∈ c.columns, col.Full
  typed : ∀ type ∈ types, type.storageClass ≠ .none
  orderable : op.Orderable types

/-- **The sort is exact**: the source ends, and has then emitted the sorted rows. -/
def SortsExactly (op : PhysicalSort) (R : SortRuntime) (D : DoubleOps) (types : List TypeId)
    (chunks : List DataChunk) (rows : List Row) : Prop :=
  ∃ outs n, (∀ fuel ≥ n, op.run R D fuel chunks = some (.ok outs)) ∧
    HoldAll outs types (op.sortedRows D types rows)

variable {op : PhysicalSort} {R : SortRuntime} {D : DoubleOps} {types : List TypeId}
  {chunks : List DataChunk} {rows : List Row}

theorem sortsExactly_of_fits (h : op.Input types chunks rows) (heval : op.Evaluates D types rows)
    (hfits : op.Fits R rows.length) : op.SortsExactly R D types chunks rows := by
  obtain ⟨copies, hconsume, ⟨parts, hparts, rfl⟩, -⟩ := exists_consume h.holds h.full
  obtain ⟨keyVecs, order, hfinal, horder, hrows⟩ := exists_finalize hparts h.orderable heval hfits
  obtain ⟨outs, hdrain, houts⟩ := @SortBuffer.exists_drain
    { chunks := copies, keyVecs, sortedOrder := order, sorted := true } types parts rfl hparts
    h.typed horder order.length 0 (sub_le _ _)
  refine ⟨outs, order.length + 1, fun fuel hfuel => ?_, ?_⟩
  · rw [run, bind_of_ok hconsume, bind_of_ok hfinal, hdrain fuel hfuel]
    rfl
  · rwa [drop_zero, hrows] at houts

theorem of_sortsExactly (h : op.Input types chunks rows)
    (hsorts : op.SortsExactly R D types chunks rows) :
    op.Evaluates D types rows ∧ op.Fits R rows.length := by
  obtain ⟨outs, n, hrun, -⟩ := hsorts
  obtain ⟨copies, hconsume, ⟨parts, hparts, rfl⟩, -⟩ := exists_consume h.holds h.full
  have hrun := hrun n le_rfl
  rw [run, bind_of_ok hconsume] at hrun
  obtain ⟨buf, hfinal, -⟩ := bind_eq_ok_iff.mp hrun
  exact of_finalize hparts hfinal

/-- **ORDER BY and top-k**: the rows that the source emits are the first rows of the stable
sort of the input, if the keys can be evaluated and there is room for the positions that are
reserved: one for each row to keep, or for each row if all are kept. -/
theorem sortsExactly_iff (op : PhysicalSort) (R : SortRuntime) (D : DoubleOps)
    (types : List TypeId) (chunks : List DataChunk) (rows : List Row)
    (h : op.Input types chunks rows) :
    op.SortsExactly R D types chunks rows ↔ op.Evaluates D types rows ∧
      op.reserved rows.length ≤ R.maxSize ∧ op.reserved rows.length ≤ R.available :=
  ⟨of_sortsExactly h, fun hok => sortsExactly_of_fits h hok.1 hok.2⟩

/-! ## Two sorts -/

theorem isHeap_of_pairwise {less : ℕ × ℕ → ℕ × ℕ → Bool} {xs : List (ℕ × ℕ)}
    (h : xs.Pairwise fun a b => less a b = false) : IsHeap less xs := by
  intro i a b hi ha hb
  obtain ⟨hp, rfl⟩ := List.getElem?_eq_some_iff.mp ha
  obtain ⟨hi', rfl⟩ := List.getElem?_eq_some_iff.mp hb
  exact pairwise_iff_getElem.mp h _ _ hp hi' (by omega)

/-- The algorithms of the library with heaps that are sorted from the greatest element on, and
memory for a million positions. -/
def sortingRuntime : SortRuntime where
  pushHeap less xs := stableSort (fun a b => less b a) xs
  popHeap less xs :=
    match xs with
    | [] => []
    | x :: xs => stableSort (fun a b => less b a) xs ++ [x]
  sort := stableSort
  push_spec less xs x hweak _ :=
    ⟨perm_stableSort, isHeap_of_pairwise (pairwise_stableSort hweak.flip)⟩
  pop_spec less x xs hweak _ := ⟨_, rfl, perm_stableSort, isHeap_of_pairwise (pairwise_stableSort
      (hweak.mono (subset_cons_self x xs)).flip)⟩
  sort_spec less xs hweak := ⟨perm_stableSort, pairwise_stableSort hweak⟩
  maxSize := 2 ^ 59 - 1
  maxSize_lt := by decide
  available := 10 ^ 6

/-- `ORDER BY` the first column, with a bound. -/
def byFirst (topK : Int64) : PhysicalSort :=
  { sortKeys := [{ expr := .columnRef .int64 0, ascending := true }], topK }

/-- One INT64 column with the rows 3 and 1. -/
def threeOne : DataChunk :=
  { columns := [{ type := .int64, count := 2, intData := [3, 1], validity := 3 }], count := 2 }

theorem input_byFirst (topK : Int64) :
    (byFirst topK).Input [.int64] [threeOne] [[some (.int 3)], [some (.int 1)]] where
  holds := ⟨[[[some (.int 3)], [some (.int 1)]]], .cons
    ⟨by decide, rfl, rfl, by decide, by
      intro i row hi
      match i, hi with
      | 0, hi => cases hi; decide +kernel
      | 1, hi => cases hi; decide +kernel
      | i + 2, hi => cases hi⟩ .nil, rfl⟩
  full := by
    intro c hc col hcol
    obtain rfl := mem_singleton.mp hc
    obtain rfl := mem_singleton.mp hcol
    exact le_refl 2
  typed := by decide
  orderable := by
    intro key hkey
    obtain rfl := mem_singleton.mp hkey
    decide

/-- The least of two rows is emitted. -/
theorem sorts_least_row :
    (byFirst 1).SortsExactly sortingRuntime TableScan.noDoubles [.int64] [threeOne]
      [[some (.int 3)], [some (.int 1)]] := by
  refine (sortsExactly_iff _ _ _ _ _ _ (input_byFirst 1)).mpr ⟨?_, by decide, by decide⟩
  intro key hkey row hrow
  obtain rfl := mem_singleton.mp hkey
  obtain rfl | hrow := mem_cons.mp hrow
  · exact ⟨_, rfl⟩
  · obtain rfl := mem_singleton.mp hrow
    exact ⟨_, rfl⟩

/-- With the greatest LIMIT nothing is. -/
theorem sort_throws_for_huge_limit :
    (byFirst 9223372036854775807).Input [.int64] [threeOne] [[some (.int 3)], [some (.int 1)]] ∧
      ¬ (byFirst 9223372036854775807).SortsExactly sortingRuntime TableScan.noDoubles [.int64]
        [threeOne] [[some (.int 3)], [some (.int 1)]] := by
  refine ⟨input_byFirst _, fun hsorts => ?_⟩
  have hfits := (of_sortsExactly (input_byFirst _) hsorts).2.1
  exact absurd hfits (by decide)

end PhysicalSort

end CppColDB
