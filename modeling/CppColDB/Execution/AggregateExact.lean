import CppColDB.Execution.AggregateGroups
import CppColDB.Execution.SortExact

/-!
# GROUP BY returns the aggregates of its groups

As long as no group key is NULL and every MIN and MAX has something to choose from, the
aggregation emits one row for each group key, with the aggregates over the rows that have it.
Otherwise a NULL of the result would have to come out of a box that does not count as NULL.
-/

namespace CppColDB

open AggrExpr DataChunk DataVector Fallible List

/-! ## Emitting the groups -/

variable {D : DoubleOps} {types : List TypeId} {rows all : List Row}
  {state : AggregateState}

/-- The result of an accumulator that has something to choose from. -/
theorem AggrExpr.exists_finalize {agg : AggrExpr} (hagg : agg.WellTyped D types all)
    (heval : agg.Evaluates D types all) (hrows : ∀ r ∈ rows, r ∈ all)
    (hsome : agg.func ≠ .count → ∃ r ∈ rows, agg.arg.cell D types r ≠ none)
    (h : agg.Accumulates D types rows state) :
    ∃ x, state.finalize D agg.func agg.resultType = some (.ok (x.box agg.resultType)) ∧
      agg.resultType.Admits x ∧ agg.IsResult D types rows (some x) := by
  -- MIN and MAX have a value, and it is one of the arguments
  have hextreme : ∀ less x, agg.isStar = false → agg.arg.HasType D types all agg.resultType →
      Extreme less x (rows.map (agg.arg.cell D types)) → agg.resultType.Admits x := by
    intro less x hstar htype hx
    obtain ⟨r, hr, hcell⟩ := mem_map.mp hx.1
    obtain ⟨s, hs⟩ := heval hstar r (hrows r hr)
    rw [Expr.cell_eq hs] at hcell
    exact (htype r (hrows r hr) s hs).2 x hcell
  have hnone : ∀ r ∈ rows, agg.arg.cell D types r ≠ none →
      ¬ ∀ c ∈ rows.map (agg.arg.cell D types), c = none :=
    fun r hr hcell hall => hcell (hall _ (mem_map_of_mem hr))
  cases hfunc : agg.func with
  | sum | avg => simp [WellTyped, hfunc] at hagg
  | count =>
    have htype : agg.resultType = .int64 := by simpa [WellTyped, hfunc] using hagg
    refine ⟨.int (Int64.ofNat state.count), ?_, ?_, ?_⟩
    · rw [htype]
      rfl
    · rw [htype]
      exact ⟨rfl, fun hbool => absurd hbool (by decide)⟩
    · rw [Accumulates] at h
      rw [IsResult]
      split
      next hstar => rw [if_pos hstar] at h; rw [h]
      next hstar =>
        rw [if_neg hstar, hfunc] at h
        rw [hfunc, AggFunc.IsResult, h]
  | min | max =>
    simp only [WellTyped, hfunc] at hagg
    obtain ⟨hstar, -, htype⟩ := hagg
    obtain ⟨r, hr, hcell⟩ := hsome (by rw [hfunc]; decide)
    simp only [Accumulates, hstar, hfunc, Bool.false_eq_true, if_false,
      AggregateState.Accumulates] at h
    split at h
    next hset =>
      obtain ⟨x, hx, hext⟩ := h
      refine ⟨x, ?_, hextreme _ x hstar htype hext, ?_⟩
      · rw [AggregateState.finalize, hset, hx]
        rfl
      · rw [IsResult, hstar, hfunc]
        exact .inr ⟨x, rfl, hext⟩
    next => exact absurd h (hnone r hr hcell)

variable {cols : List DataVector} {states : List AggregateState} {n : ℕ}

theorem appendAggregates_cons {col : DataVector} {agg : AggFunc × TypeId}
    {aggs : List (AggFunc × TypeId)} :
    appendAggregates D (col :: cols) (agg :: aggs) (state :: states) = (do
      let v ← state.finalize D agg.1 agg.2
      let col ← col.appendValue v
      let cols ← appendAggregates D cols aggs states
      pure (col :: cols)) := rfl

/-- The results of the accumulators of a group are appended to their columns. -/
theorem exists_appendAggregates {aggs : List AggrExpr}
    (haggs : ∀ agg ∈ aggs, agg.WellTyped D types all)
    (heval : ∀ agg ∈ aggs, agg.Evaluates D types all) (hrows : ∀ r ∈ rows, r ∈ all)
    (hsome : ∀ agg ∈ aggs, agg.func ≠ .count → ∃ r ∈ rows, agg.arg.cell D types r ≠ none)
    (hcols : cols.map (·.type) = aggs.map resultType)
    (hcount : ∀ v ∈ cols, v.count = n) (hn : n < standardVectorSize)
    (h : Forall₂ (fun agg state => agg.Accumulates D types rows state) aggs states) :
    ∃ cols' results, appendAggregates D cols (aggs.map fun agg => (agg.func, agg.resultType))
        states = some (.ok cols') ∧ AppendedRow cols results cols' ∧
      Forall₂ (fun agg result => agg.IsResult D types rows result) aggs results := by
  induction h generalizing cols with
  | nil =>
    obtain rfl := map_eq_nil_iff.mp hcols
    exact ⟨[], [], rfl, .nil, .nil⟩
  | @cons agg state aggs states hstate _ ih =>
    cases cols with
    | nil => cases hcols
    | cons col cols =>
      rw [map_cons, map_cons, cons.injEq] at hcols
      obtain ⟨hagg, haggs⟩ := forall_mem_cons.mp haggs
      obtain ⟨hcol, hcols'⟩ := forall_mem_cons.mp hcount
      obtain ⟨cols', results, hrest, happs, hresults⟩ := ih haggs
        (fun agg h => heval agg (mem_cons_of_mem _ h))
        (fun agg h => hsome agg (mem_cons_of_mem _ h)) hcols.2 hcols'
      obtain ⟨x, hfinal, hadmits, hresult⟩ := exists_finalize hagg
        (heval agg mem_cons_self) hrows (hsome agg mem_cons_self) hstate
      have hbox := appendValue_box (c := some x)
        (by rw [hcols.1, ← hadmits.1]; cases x <;> nofun) (hcol ▸ hn)
      rw [hcols.1, Cell.unboxed_some hadmits] at hbox
      obtain ⟨col', happ, hcell⟩ := hbox
      refine ⟨col' :: cols', some x :: results, ?_, .cons hcell happs, .cons hresult hresults⟩
      rw [map_cons, appendAggregates_cons, bind_of_ok hfinal]
      exact (bind_of_ok happ).trans (bind_of_ok hrest)

theorem DataVector.AppendedRow.append {vs vs' ws ws' : List DataVector} {row row' : Row}
    (h : AppendedRow vs row vs') (h' : AppendedRow ws row' ws') :
    AppendedRow (vs ++ ws) (row ++ row') (vs' ++ ws') := by
  induction h with
  | nil => exact h'
  | cons head _ ih => exact .cons head ih

theorem DataChunk.HoldAll.append {cs cs' : List DataChunk} {rows' : List Row}
    (h : HoldAll cs types rows) (h' : HoldAll cs' types rows') :
    HoldAll (cs ++ cs') types (rows ++ rows') := by
  obtain ⟨parts, hparts, rfl⟩ := h
  obtain ⟨parts', hparts', rfl⟩ := h'
  exact ⟨parts ++ parts', rel_append hparts hparts', flatten_append⟩

namespace PhysicalAggregationSource

variable {src : PhysicalAggregationSource} {D : DoubleOps} {ht : AggregateHashTable}
  {ι : Type} {gs : List ι} {entry : ι → AggEntry} {R : ι → Row → Prop}

/-- The entry is emitted as a row with the given property. -/
def Emits (src : PhysicalAggregationSource) (D : DoubleOps) (entry : AggEntry)
    (R : Row → Prop) : Prop :=
  ∀ output rows, output.Holds src.outputTypes rows → rows.length < standardVectorSize →
    ∃ out row, src.emitEntry D output entry = some (.ok out) ∧ R row ∧
      out.Holds src.outputTypes (rows ++ [row])

theorem exists_emit (hemits : ∀ g ∈ gs, src.Emits D (entry g) (R g)) {output : DataChunk}
    (hout : output.Holds src.outputTypes rows)
    (hroom : rows.length + gs.length ≤ standardVectorSize) :
    ∃ out new, foldl (src.emitEntry D) output (gs.map entry) = some (.ok out) ∧
      Forall₂ R gs new ∧ out.Holds src.outputTypes (rows ++ new) := by
  induction gs generalizing output rows with
  | nil => exact ⟨output, [], rfl, .nil, by rwa [append_nil]⟩
  | cons g gs ih =>
    rw [length_cons] at hroom
    obtain ⟨hentry, hentries⟩ := forall_mem_cons.mp hemits
    obtain ⟨out₁, row, hrun, hrow, hout₁⟩ := hentry output rows hout (by omega)
    obtain ⟨out, new, hrest, hnew, hout'⟩ := ih hentries hout₁ (by
      rw [length_append, length_singleton]
      omega)
    refine ⟨out, row :: new, ?_, .cons hrow hnew, by rwa [append_cons]⟩
    rw [map_cons, Fallible.foldl_cons, Fallible.bind_of_ok hrun, hrest]

/-- **Draining the source** gives a row for each entry. -/
theorem exists_drain (hentries : ht.entryPool = gs.map entry)
    (hemits : ∀ g ∈ gs, src.Emits D (entry g) (R g))
    (hpool : ¬ (src.numGroupCols = 0 ∧ ht.entryPool.length = 0)) (n i : ℕ)
    (hn : ht.entryPool.length - i ≤ n) :
    ∃ outs rows, (∀ fuel > n, src.drain D ht fuel i = some (.ok outs)) ∧
      Forall₂ R (gs.drop i) rows ∧ HoldAll outs src.outputTypes rows := by
  induction n using Nat.strong_induction_on generalizing i with
  | _ n ih =>
    have hlength : ht.entryPool.length = gs.length := by rw [hentries, length_map]
    generalize hnext : (gs.drop i).take standardVectorSize = next
    have hsplit : next ++ gs.drop (i + next.length) = gs.drop i := by
      rw [← drop_drop]
      exact prefix_iff_eq_append.mp (hnext ▸ take_prefix _ _)
    obtain ⟨out, new, hrun, hnew, hout⟩ := exists_emit
      (show ∀ g ∈ next, src.Emits D (entry g) (R g) from fun g hg =>
        hemits g (mem_of_mem_drop (mem_of_mem_take (hnext ▸ hg))))
      (holds_initializeTypes src.outputTypes) (by simp [← hnext])
    have hmap : (ht.entryPool.drop i).take standardVectorSize = next.map entry := by
      rw [hentries, ← map_drop, ← map_take, hnext]
    have hcall : ∀ fuel, src.drain D ht (fuel + 1) i =
        if ht.entryPool.length ≤ i + next.length then
          (pure (if out.count = 0 then [] else [out]) : Fallible Error (List DataChunk))
        else src.drain D ht fuel (i + next.length) >>= fun rest =>
          pure ((if out.count = 0 then [] else [out]) ++ rest) := by
      intro fuel
      have hdata : src.getData D ht i = some (.ok (if ht.entryPool.length ≤ i + next.length
          then .finished else .haveMoreOutput, out, i + next.length)) := by
        rw [getData, if_neg fun h => hpool ⟨h.1, h.2.1⟩]
        rw [hmap, bind_of_ok hrun, length_map]
        rfl
      rw [drain, bind_of_ok hdata]
      by_cases hlast : ht.entryPool.length ≤ i + next.length
      · simp only [hlast, if_true]
      · simp only [hlast]
        rfl
    have hholds : HoldAll (if out.count = 0 then [] else [out]) src.outputTypes
        new := by
      split
      next hzero =>
        rw [hout.count, length_eq_zero_iff] at hzero
        exact ⟨[], .nil, hzero.symm⟩
      next => exact ⟨[new], .cons hout .nil, append_nil new⟩
    by_cases hlast : ht.entryPool.length ≤ i + next.length
    · refine ⟨_, new, fun fuel hfuel => ?_, ?_, hholds⟩
      · obtain _ | fuel := fuel
        · omega
        rw [hcall, if_pos hlast]
        rfl
      · rwa [← hsplit, drop_eq_nil_of_le (hlength ▸ hlast), append_nil]
    · have hsome : 0 < next.length := by
        rw [← hnext, length_take, length_drop, standardVectorSize]
        omega
      obtain ⟨outs, rows, hrest, hrows, houts⟩ := ih (n - 1) (by omega) (i + next.length) (by omega)
      refine ⟨_, new ++ rows, fun fuel hfuel => ?_, ?_, hholds.append houts⟩
      · obtain _ | fuel := fuel
        · omega
        rw [hcall, if_neg hlast, bind_of_ok (hrest fuel (by omega))]
        rfl
      · rw [← hsplit]
        exact rel_append hnew hrows

end PhysicalAggregationSource

/-! ## The result of GROUP BY -/

namespace PhysicalHashAggregation

variable (op : PhysicalHashAggregation) (D : DoubleOps) (types groupTypes : List TypeId)

/-- The row of a group: its key, and the aggregates over the rows that have it. -/
def IsGroupRow (rows : List Row) (key out : Row) : Prop :=
  ∃ results, out = key ++ results ∧ Forall₂ (fun agg result =>
    agg.IsResult D types (rows.filter (op.keyOf D types · = key)) result) op.aggrExprs results

/-- A key that has a group. Without GROUP BY there is one group, also of no rows. -/
def HasGroup (rows : List Row) (key : Row) : Prop :=
  (op.groupExprs = [] ∧ key = []) ∨ ∃ row ∈ rows, op.keyOf D types row = key

/-- One row for each group. -/
def GroupsExactly (rows outRows : List Row) : Prop :=
  ∃ keys : List Row, keys.Nodup ∧ (∀ key, key ∈ keys ↔ op.HasGroup D types rows key) ∧
    Forall₂ (op.IsGroupRow D types rows) keys outRows

/-- **The aggregation is exact**: the source ends, and has then emitted one row for each
group. -/
def AggregatesExactly (P : Platform) (chunks : List DataChunk) (rows : List Row) : Prop :=
  ∃ outs n, (∀ fuel ≥ n, op.run P D groupTypes fuel chunks = some (.ok outs)) ∧
    ∃ outRows, HoldAll outs (groupTypes ++ op.aggrExprs.map AggrExpr.resultType) outRows ∧
      op.GroupsExactly D types rows outRows

/-- Every MIN and MAX has an argument to choose from, in every group. -/
def Chooses (rows : List Row) : Prop :=
  ∀ key, op.HasGroup D types rows key → ∀ agg ∈ op.aggrExprs, agg.func ≠ .count →
    ∃ row ∈ rows, op.keyOf D types row = key ∧ agg.arg.cell D types row ≠ none

variable {op D types groupTypes} {P : Platform} {all rows : List Row} {key : Row}
  {states : List AggregateState}

theorem exists_emitAggregates (htyped : op.Typed D types groupTypes rows)
    (heval : op.Evaluates D types rows) (hchooses : op.Chooses D types rows)
    (hkey : op.HasGroup D types rows key)
    (hstates : Forall₂ (fun agg state =>
      agg.Accumulates D types (rows.filter (op.keyOf D types · = key)) state) op.aggrExprs states)
    (hcols : cols.map (·.type) = op.aggrExprs.map resultType)
    (hcount : ∀ v ∈ cols, v.count = n) (hn : n < standardVectorSize) :
    ∃ cols' results, appendAggregates D cols (op.source groupTypes).aggs states =
        some (.ok cols') ∧ AppendedRow cols results cols' ∧
      Forall₂ (fun agg result =>
        agg.IsResult D types (rows.filter (op.keyOf D types · = key)) result) op.aggrExprs
        results := by
  refine exists_appendAggregates htyped.aggs heval.args
    (fun r hr => mem_of_mem_filter hr) (fun agg hagg hfunc => ?_) hcols hcount hn hstates
  obtain ⟨row, hrow, heq, hcell⟩ := hchooses key hkey agg hagg hfunc
  exact ⟨row, mem_filter.mpr ⟨hrow, decide_eq_true heq⟩, hcell⟩

theorem length_groupTypes (htyped : op.Typed D types groupTypes rows) :
    (op.source groupTypes).numGroupCols = groupTypes.length := htyped.groups.length_eq

/-- **The row of a group** of the table. -/
theorem emits_group (htyped : op.Typed D types groupTypes rows)
    (heval : op.Evaluates D types rows) (hchooses : op.Chooses D types rows)
    (hkey : key.IsKey groupTypes) (hgroup : op.HasGroup D types rows key)
    (hstates : Forall₂ (fun agg state =>
      agg.Accumulates D types (rows.filter (op.keyOf D types · = key)) state) op.aggrExprs
      states) :
    (op.source groupTypes).Emits D ⟨key.box groupTypes, states⟩
      (op.IsGroupRow D types rows key) := by
  intro output seen hout hroom
  have hn : output.count < standardVectorSize := hout.count ▸ hroom
  have hlength := length_groupTypes htyped
  have htake : (output.columns.take (op.source groupTypes).numGroupCols).map (·.type) =
      groupTypes := by
    rw [map_take, hout.types, hlength]
    exact take_left
  have hdrop : (output.columns.drop (op.source groupTypes).numGroupCols).map (·.type) =
      op.aggrExprs.map resultType := by
    rw [map_drop, hout.types, hlength]
    exact drop_left
  obtain ⟨aggs, results, haggs, happs, hresults⟩ := exists_emitAggregates htyped heval hchooses
    hgroup hstates hdrop (fun v hv => hout.counts v (mem_of_mem_drop hv)) hn
  have hvalues := appendValues_box htake (fun t ht => (htyped.comparable t ht).named)
    (fun v hv => hout.counts v (mem_of_mem_take hv)) hn hkey.of.length_eq
  obtain ⟨hsome, hfilled⟩ := hkey.of.unboxed_of_noNull hkey.noNull
  obtain ⟨xs, hxs⟩ := Option.isSome_iff_exists.mp hsome
  rw [Row.filled, hxs, Option.getD_some] at hfilled
  rw [hxs] at hvalues
  obtain ⟨keys, hkeys, hkeyrow⟩ := hvalues
  rw [hfilled] at hkeyrow
  refine ⟨{ columns := keys ++ aggs, count := output.count + 1 }, key ++ results, ?_,
    ⟨results, rfl, hresults⟩, hout.append hn ?_⟩
  · exact (bind_of_ok hkeys).trans (bind_of_ok haggs)
  · rw [← take_append_drop (op.source groupTypes).numGroupCols output.columns]
    exact hkeyrow.append happs

/-- **What the source emits** once the input has been consumed. -/
theorem exists_drain (htyped : op.Typed D types groupTypes rows) (heval : op.Evaluates D types rows)
    (hchooses : op.Chooses D types rows) {ht : AggregateHashTable}
    (h : op.Consumed D types P groupTypes rows ht) :
    ∃ outs n, (∀ fuel ≥ n, (op.source groupTypes).drain D ht fuel 0 = some (.ok outs)) ∧
      ∃ outRows, HoldAll outs (groupTypes ++ op.aggrExprs.map resultType)
        outRows ∧ op.GroupsExactly D types rows outRows := by
  obtain ⟨-, groups, hholds, hgroups⟩ := h
  have hempty : ht.entryPool.length = 0 ↔ groups = [] := by
    rw [hholds.entries, length_map, length_eq_zero_iff]
  by_cases hsynthetic : op.groupExprs = [] ∧ groups = []
  · -- no rows and no GROUP BY: a row of fresh accumulators
    obtain ⟨hexprs, rfl⟩ := hsynthetic
    have htypes : groupTypes = [] := by
      have := htyped.groups
      rw [hexprs] at this
      exact forall₂_nil_left_iff.mp this
    obtain rfl : rows = [] := by
      rw [eq_nil_iff_forall_not_mem]
      intro row hrow
      have hmem := (hgroups.mem_iff _).mpr ⟨row, hrow, rfl⟩
      cases hmem
    have hout := holds_initializeTypes (op.source groupTypes).outputTypes
    have hfresh : Forall₂ (fun agg state => agg.Accumulates D types [] state) op.aggrExprs
        (replicate (op.source groupTypes).aggs.length {}) := by
      rw [forall₂_iff_get]
      refine ⟨by simp [source], fun j hj _ => ?_⟩
      rw [get_eq_getElem, get_eq_getElem, getElem_replicate]
      exact accumulates_nil (htyped.aggs _ (getElem_mem hj))
    obtain ⟨cols, results, hrun, happ, hresults⟩ := exists_emitAggregates htyped heval hchooses
      (.inl ⟨hexprs, (rfl : ([] : Row) = [])⟩) hfresh (by rw [hout.types, htypes]; rfl)
      hout.counts (by rw [hout.count]; decide)
    have hholds' := hout.append (by rw [hout.count]; decide) happ
    refine ⟨[{ columns := cols, count := 1 }], 1, fun fuel hfuel => ?_, [results],
      ⟨[[results]], .cons hholds' .nil, rfl⟩, [[]], nodup_singleton _, fun key => ?_,
      .cons ⟨results, rfl, hresults⟩ .nil⟩
    · obtain _ | fuel := fuel
      · omega
      have hdata : (op.source groupTypes).getData D ht 0 =
          some (.ok (.finished, { columns := cols, count := 1 }, 1)) := by
        rw [PhysicalAggregationSource.getData, if_pos ⟨by simp [source, hexprs], hempty.mpr rfl, rfl⟩]
        exact bind_of_ok hrun
      rw [PhysicalAggregationSource.drain, bind_of_ok hdata]
      rfl
    · simp [HasGroup, hexprs]
  · obtain ⟨outs, outRows, hdrain, hrows, houts⟩ := PhysicalAggregationSource.exists_drain
      hholds.entries
      (fun g hg => emits_group htyped heval hchooses (hholds.isKey g hg)
        (.inr ((hgroups.mem_iff g.1).mp (mem_map_of_mem hg))) (hgroups.states g hg))
      (fun hzero => hsynthetic ⟨length_eq_zero_iff.mp hzero.1, hempty.mp hzero.2⟩)
      ht.entryPool.length 0 (Nat.sub_le _ _)
    refine ⟨outs, ht.entryPool.length + 1, hdrain, outRows, houts, groups.map Prod.fst,
      hholds.nodup, fun key => ?_, forall₂_map_left_iff.mpr hrows⟩
    rw [hgroups.mem_iff]
    refine ⟨.inr, ?_⟩
    rintro (⟨hexprs, rfl⟩ | hrow)
    · -- there is a group, so there is a row, and all rows have the empty key
      obtain ⟨g, hg⟩ := exists_mem_of_ne_nil groups fun hnil => hsynthetic ⟨hexprs, hnil⟩
      obtain ⟨row, hrow, -⟩ := (hgroups.mem_iff g.1).mp (mem_map_of_mem hg)
      exact ⟨row, hrow, by rw [keyOf, hexprs]; rfl⟩
    · exact hrow

end PhysicalHashAggregation

end CppColDB
