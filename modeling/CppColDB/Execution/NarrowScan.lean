import CppColDB.Execution.PlanRows
import CppColDB.Execution.ScanExact

/-!
# Scans of fewer columns

Two scans of one table that skip the same stretches and let the same rows through return the
same batches, but for the columns. A scan of fewer columns can fail to: its filters have other
positions, under which zone maps are looked up, and there may be no column left that does not
occur in a filter.
-/

namespace CppColDB

open ByteCodec Imp List

/-- `row'` holds the columns `ids` of `row`, at their positions. -/
def RowNarrows (ids : List ℕ) (row row' : List Scalar) : Prop :=
  ∀ p c : ℕ, ids[p]? = some c → row'[p]? = row[c]?

/-- Batches whose rows are narrowed. -/
def Narrows (ids : List ℕ) : List Batch → List Batch → Prop :=
  Forall₂ (Forall₂ (RowNarrows ids))

theorem DataChunk.Holds.exists_scalar {c : DataChunk} {types : List TypeId} {rows : List Row}
    (h : c.Holds types rows) {i p : ℕ} (hi : i < c.count) (hp : p < c.columns.length) :
    ∃ x, c.scalars i p = some x := by
  have hcells := h.cells i _ (getElem?_eq_getElem (h.count ▸ hi))
  have hlength : p < (c.columns.map (·.cell? i)).length := by rwa [length_map]
  obtain ⟨x, hx⟩ : ∃ x, (c.columns.map (·.cell? i))[p]? = some (some x) := by
    rw [hcells, length_map] at hlength
    exact ⟨_, by rw [hcells, getElem?_map, getElem?_eq_getElem hlength, Option.map_some]⟩
  rw [getElem?_map, getElem?_eq_getElem hp, Option.map_some, Option.some.injEq] at hx
  exact ⟨_, by rw [scalars, getElem?_eq_getElem hp]; simp [hx]; rfl⟩

/-- The rows of a chunk have its cells. -/
theorem DataChunk.Holds.exists_toBatch {c : DataChunk} {types : List TypeId} {rows : List Row}
    (h : c.Holds types rows) :
    ∃ batch, c.toBatch = some batch ∧
      Forall₂ (fun i b => ∀ p : ℕ, b[p]? = c.scalars i p) (range c.count) batch := by
  refine exists_mapM_forall₂ fun i hi => ?_
  obtain ⟨b, hb⟩ := exists_mapM_eq_some_iff.mpr fun p hp =>
    h.exists_scalar (mem_range.mp hi) (mem_range.mp hp)
  have hall := mapM_eq_some_iff.mp hb
  refine ⟨b, hb, fun p => ?_⟩
  by_cases hp : p < c.columns.length
  · obtain ⟨x, hx, hcell⟩ := hall.exists_of_getElem?_left (getElem?_range hp)
    rw [hx, hcell]
  · rw [getElem?_eq_none (by rw [← hall.length_eq, length_range]; omega), scalars,
      getElem?_eq_none (by omega)]
    rfl

namespace TableScan

variable {S S' : TableScan} {D : DoubleOps} {tx : Snapshot} {types : List TypeId}
  {groups : List RowGroup}

/-- Two scans of one table that skip the same stretches and let the same rows through. -/
structure Agree (S S' : TableScan) (D : DoubleOps) (tx : Snapshot) (types : List TypeId)
    (groups : List RowGroup) : Prop where
  scans : S.Scans D tx types groups
  scans' : S'.Scans D tx types groups
  jumps : ∀ rg ∈ groups, ∀ n off,
    rg.skipRows S'.scanPredicates n off = rg.skipRows S.scanPredicates n off
  keeps : ∀ rg ∈ groups, ∀ o < rg.rowCount, S'.keeps D tx rg o = S.keeps D tx rg o

/-- A chunk of the scan of fewer columns has the rows of the other one, narrowed. -/
def Narrowed (ids : List ℕ) (c c' : DataChunk) : Prop :=
  ∃ b b', c.toBatch = some b ∧ c'.toBatch = some b' ∧ Forall₂ (RowNarrows ids) b b'

theorem narrowed_of_holds {rg : RowGroup} {ids offsets : List ℕ} {c c' : DataChunk} {n : ℕ}
    (h : c.Holds ((range n).map rg.colType) (offsets.map (rg.row (range n))))
    (h' : c'.Holds (ids.map rg.colType) (offsets.map (rg.row ids))) (hids : ∀ c ∈ ids, c < n) :
    Narrowed ids c c' := by
  obtain ⟨b, hb, hcells⟩ := h.exists_toBatch
  obtain ⟨b', hb', hcells'⟩ := h'.exists_toBatch
  refine ⟨b, b', hb, hb', ?_⟩
  rw [h.count, length_map] at hcells
  rw [h'.count, length_map] at hcells'
  refine forall₂_iff_get.mpr ⟨by rw [← hcells.length_eq, hcells'.length_eq], fun i hi hi' => ?_⟩
  intro p col hp
  have hlt : i < offsets.length := by
    have := hcells.length_eq
    rw [length_range] at this
    omega
  have hrow := (forall₂_iff_get.mp hcells).2 i (by rwa [length_range]) hi col
  have hrow' := (forall₂_iff_get.mp hcells').2 i (by rwa [length_range]) hi' p
  have hcol := hids col (mem_of_getElem? hp)
  simp only [get_eq_getElem, getElem_range] at hrow hrow'
  rw [h.scalars_row (getElem?_eq_getElem hlt), getElem?_range hcol] at hrow
  rw [h'.scalars_row (getElem?_eq_getElem hlt), hp] at hrow'
  exact hrow'.trans hrow.symm

section

variable (h : S.Agree S' D tx types groups) (hall : S.columnIds = range types.length)
include h hall

theorem Agree.batch {rg : RowGroup} (hrg : rg ∈ groups) {off : ℕ} (hoff : off < rg.rowCount) :
    ∃ c c', S.batch D tx rg off = some (.ok c) ∧ S'.batch D tx rg off = some (.ok c') ∧
      c'.count = c.count ∧ (0 < c.count → Narrowed S'.columnIds c c') := by
  obtain ⟨c, hrun, hcount, hholds⟩ := batch_run h.scans.planned (h.scans.readable rg hrg)
    (h.scans.evaluates rg hrg) hoff
  obtain ⟨c', hrun', hcount', hholds'⟩ := batch_run h.scans'.planned (h.scans'.readable rg hrg)
    (h.scans'.evaluates rg hrg) hoff
  have hrows : (rg.batchRows off).filter (S'.keeps D tx rg) =
      (rg.batchRows off).filter (S.keeps D tx rg) := by
    refine filter_congr fun o ho => h.keeps rg hrg o ?_
    obtain ⟨-, hlt⟩ := mem_range'_1.mp ho
    omega
  rw [hrows] at hcount' hholds'
  refine ⟨c, c', hrun, hrun', hcount'.trans hcount.symm, fun hpos => ?_⟩
  have hc := hholds hpos
  have hc' := hholds' (by omega)
  rw [h.scans.planned.outputTypes, ← (h.scans.readable rg hrg).colTypes, hall] at hc
  rw [h.scans'.planned.outputTypes, ← (h.scans.readable rg hrg).colTypes] at hc'
  exact narrowed_of_holds hc hc' h.scans'.planned.columnIds

/-- **One call of `GetData`**: both scans run out of turns, or return a chunk and the same state. -/
theorem Agree.getData (fuel : ℕ) (state : TableScanState) :
    (S.getData D tx groups fuel state = none ∧ S'.getData D tx groups fuel state = none) ∨
    ∃ r c c' state', S.getData D tx groups fuel state = some (.ok (r, c), state') ∧
      S'.getData D tx groups fuel state = some (.ok (r, c'), state') ∧
      (r ≠ .finished → Narrowed S'.columnIds c c') := by
  induction fuel generalizing state with
  | zero => exact .inl ⟨rfl, rfl⟩
  | succ fuel ih =>
    rw [TableScan.getData, TableScan.getData, bind_run_ok get_run, bind_run_ok get_run]
    cases hrg : groups[state.rowGroupIdx]? with
    | none => exact .inr ⟨.finished, {}, {}, state, rfl, rfl, fun hne => absurd rfl hne⟩
    | some rg =>
      have hmem := mem_of_getElem? hrg
      obtain ⟨off, hskip, -⟩ := RowGroup.skipRows_run (h.scans.scannable rg hmem).comparable
        (le_refl (rg.rowCount - state.rowOffsetInGroup))
      dsimp only
      rw [h.jumps rg hmem, hskip, bind_run_ok rfl, bind_run_ok rfl]
      by_cases hend : rg.rowCount ≤ off
      · rw [if_pos hend, if_pos hend, bind_run_ok (set_run _), bind_run_ok (set_run _)]
        exact ih _
      · obtain ⟨c, c', hrun, hrun', hcount, hnarrow⟩ := h.batch hall hmem (not_le.mp hend)
        rw [if_neg hend, if_neg hend, bind_run_ok (set_run _), bind_run_ok (set_run _), hrun, hrun',
          bind_run_ok rfl, bind_run_ok rfl, hcount]
        by_cases hpos : 0 < c.count
        · rw [if_pos hpos, if_pos hpos]
          exact .inr ⟨_, c, c', _, rfl, rfl, fun _ => hnarrow hpos⟩
        · rw [if_neg hpos, if_neg hpos]
          exact ih _

theorem Agree.scanAll (fuel calls : ℕ) (state : TableScanState) :
    (S.scanAll D tx groups fuel calls state = none ∧
      S'.scanAll D tx groups fuel calls state = none) ∨
    ∃ outs outs' state', S.scanAll D tx groups fuel calls state = some (.ok outs, state') ∧
      S'.scanAll D tx groups fuel calls state = some (.ok outs', state') ∧
      Forall₂ (Narrowed S'.columnIds) outs outs' := by
  induction calls generalizing state with
  | zero => exact .inl ⟨rfl, rfl⟩
  | succ calls ih =>
    rw [TableScan.scanAll, TableScan.scanAll]
    rcases h.getData hall fuel state with ⟨hrun, hrun'⟩ | ⟨r, c, c', state₁, hrun, hrun', hnarrow⟩
    · exact .inl ⟨bind_run_none hrun, bind_run_none hrun'⟩
    · rw [bind_run_ok hrun, bind_run_ok hrun']
      dsimp only
      by_cases hfin : r = .finished
      · rw [if_pos hfin, if_pos hfin]
        exact .inr ⟨[], [], state₁, rfl, rfl, .nil⟩
      · rw [if_neg hfin, if_neg hfin]
        rcases ih state₁ with ⟨hrest, hrest'⟩ | ⟨outs, outs', state', hrest, hrest', houts⟩
        · exact .inl ⟨bind_run_none hrest, bind_run_none hrest'⟩
        · rw [bind_run_ok hrest, bind_run_ok hrest']
          exact .inr ⟨_, _, state', rfl, rfl, .cons (hnarrow hfin) houts⟩

end

theorem narrows_of_narrowed {ids : List ℕ} {outs outs' : List DataChunk}
    (h : Forall₂ (Narrowed ids) outs outs') :
    ∃ bs bs', outs.mapM DataChunk.toBatch = some bs ∧ outs'.mapM DataChunk.toBatch = some bs' ∧
      Narrows ids bs bs' := by
  simp only [mapM_eq_some_iff]
  induction h with
  | nil => exact ⟨[], [], .nil, .nil, .nil⟩
  | cons hc _ ih =>
    obtain ⟨b, b', hb, hb', hrows⟩ := hc
    obtain ⟨bs, bs', hbs, hbs', hnarrow⟩ := ih
    exact ⟨b :: bs, b' :: bs', .cons hb hbs, .cons hb' hbs', .cons hrows hnarrow⟩

/-- **Scans that agree** return the same batches, narrowed to the columns of the second one. -/
theorem Agree.lift_batches (h : S.Agree S' D tx types groups)
    (hall : S.columnIds = range types.length) :
    Fallible.Lift (Narrows S'.columnIds) (S.batches D tx groups) (S'.batches D tx groups) := by
  rw [batches, batches]
  rcases h.scanAll hall (turns groups {} + 1) (turns groups {} + 1) {} with
    ⟨hrun, hrun'⟩ | ⟨outs, outs', state', hrun, hrun', houts⟩
  · rw [hrun, hrun']
    exact .none
  · rw [hrun, hrun']
    obtain ⟨bs, bs', hbs, hbs', hnarrow⟩ := narrows_of_narrowed houts
    change Fallible.Lift _ (Fallible.ofOption (outs.mapM DataChunk.toBatch))
      (Fallible.ofOption (outs'.mapM DataChunk.toBatch))
    rw [hbs, hbs']
    exact .ok hnarrow

/-- Without filters the scans of any columns agree. -/
theorem agree_of_no_filters (hread : ∀ rg ∈ groups, rg.ReadableAs types)
    (hstats : ∀ rg ∈ groups, rg.StatsBound) {ids ids' : List ℕ} (hids : ∀ c ∈ ids, c < types.length)
    (hids' : ∀ c ∈ ids', c < types.length) :
    (ofPlan types ids []).Agree (ofPlan types ids' []) D tx types groups := by
  have hscans : ∀ {ids : List ℕ}, (∀ c ∈ ids, c < types.length) →
      (ofPlan types ids []).Scans D tx types groups := fun hids =>
    ⟨⟨hids, rfl, nofun, nofun⟩, hread, hstats, fun _ _ _ _ _ => nofun⟩
  exact ⟨hscans hids, hscans hids', fun _ _ _ _ => rfl, fun _ _ _ _ => rfl⟩

end TableScan

end CppColDB
