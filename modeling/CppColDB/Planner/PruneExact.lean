import CppColDB.Execution.SortExact
import CppColDB.Planner.PruneScan

/-!
# Column pruning and the result of a query

Pruning changes the positions of the columns in the chunks of a scan. The physical planner
maps the references of filters, sorts and projections to the new positions, but it does not
look for the scan below an aggregate: group keys and arguments of aggregates keep the indices
of the table. They are right if nothing in front of them is pruned.
-/

namespace CppColDB

open Binder ByteCodec CppColDB.Expr Fallible List Optimizer PhysicalHashAggregation PhysicalPlan
  PhysicalPlanner

/-! ## Statement -/

namespace LogicalPlan

/-- The columns in front of those that group keys and aggregates use are used too, by them or
below. -/
def Leading : LogicalPlan → Prop
  | .get _ => True
  | .filter _ _ child | .projection _ _ child | .limit _ _ _ child | .sort _ _ child =>
    child.Leading
  | .aggregate groups aggs _ child =>
    ∀ c ∈ groups.flatMap Expr.columns ++ aggs.flatMap AggrExpr.columns, ∀ d < c,
      d ∈ groups.flatMap Expr.columns ++ aggs.flatMap AggrExpr.columns ++ child.columns

/-- The scans of the plan and of the pruned plan agree on a table. -/
def ScansAgree (D : DoubleOps) (tx : Snapshot) (types : List TypeId) (groups : List RowGroup)
    (plan : LogicalPlan) : Prop :=
  ((PhysicalPlanner.plan plan).scan types).Agree
    ((PhysicalPlanner.plan (runColumnPruning plan)).scan types) D tx types groups

/-- After pruning all column references are right, and the result is that of the plan as it
was. -/
def PrunesSafely (D : DoubleOps) (P : Platform) (R : SortRuntime) (tx : Snapshot)
    (types : List TypeId) (groups : List RowGroup) (plan : LogicalPlan) : Prop :=
  plan.Resolves (PhysicalPlanner.plan (runColumnPruning plan)) ∧
    (PhysicalPlanner.plan (runColumnPruning plan)).execute D P R tx types groups =
      (PhysicalPlanner.plan plan).execute D P R tx types groups

end LogicalPlan

/-! ## Queries without aggregates -/

section Plain

variable {n : ℕ} {plan : LogicalPlan} {required : Finset ℕ} {hint : Option Int64}
  {D : DoubleOps} {P : Platform} {R : SortRuntime} {tx : Snapshot} {types : List TypeId}
  {groups : List RowGroup}

theorem LogicalPlan.Plain.resolves (h : plan.Plain n) :
    plan.Resolves (planNode hint (pruneColumns plan required)) := by
  induction h generalizing hint with
  | @projection exprs output child hexprs hchild =>
    obtain ⟨node, hnode⟩ := hchild.exists_pruned (collectColumnRefs exprs required)
    rw [pruneColumns, planNode, tryFindLogicalGet, hnode.find, LogicalPlan.Resolves, hnode.layout]
    refine ⟨hnode.keeps.forall₂_indexes hexprs fun c hc => .inl ?_, hnode.resolves hint⟩
    exact mem_collectColumnRefs.mpr (.inr hc)
  | limit _ ih => exact ⟨rfl, rfl, ih⟩

theorem LogicalPlan.Plain.execute_eq (h : plan.Plain types.length)
    (hagree : ((planNode hint plan).scan types).Agree
      ((planNode hint (pruneColumns plan required)).scan types) D tx types groups) :
    (planNode hint plan).execute D P R tx types groups =
      (planNode hint (pruneColumns plan required)).execute D P R tx types groups := by
  induction h generalizing hint with
  | @projection exprs output child hexprs hchild =>
    obtain ⟨node, hnode⟩ := hchild.exists_pruned (collectColumnRefs exprs required)
    obtain ⟨get, hget, hids⟩ := hchild.find
    have hself : exprs.map (remapColumnRefs (some get)) = exprs :=
      map_id'' (remapColumnRefs_range hids) _
    rw [pruneColumns, planNode, planNode, tryFindLogicalGet, tryFindLogicalGet, hget,
      hnode.find, hself]
    refine ((hchild.lift_execute hnode hint hagree).bind fun batches batches' hbatches =>
      Lift.of_eq ?_).eq
    -- each row of the result only depends on the values of the expressions
    refine traverse_congr hbatches fun rows rows' hrows => ?_
    refine traverse_congr hrows fun row row' hrow => ?_
    have hexprs' : Forall₂ (fun e e' => e' = remapColumnRefs (some node) e ∧ e ∈ exprs)
        exprs (exprs.map (remapColumnRefs (some node))) := by
      rw [forall₂_map_right_iff, forall₂_same]
      exact fun e he => ⟨rfl, he⟩
    refine traverse_congr hexprs' ?_
    rintro e _ ⟨rfl, he⟩
    refine (hrow.eval_eq hnode.keeps (hexprs e he) fun c hc => .inl ?_).symm
    exact mem_collectColumnRefs.mpr (.inr (mem_flatMap_of_mem he hc))
  | limit _ ih =>
    rw [pruneColumns, planNode, planNode, execute, execute, ih hagree]

theorem LogicalPlan.Scanned.leading (h : plan.Scanned n) : plan.Leading := by
  induction h with
  | get => trivial
  | filter _ _ ih => exact ih
  | sort _ _ ih => exact ih

theorem LogicalPlan.Plain.leading (h : plan.Plain n) : plan.Leading := by
  induction h with
  | projection _ hchild =>
    have hleading := LogicalPlan.Scanned.leading hchild
    exact hleading
  | limit _ ih => exact ih

theorem LogicalPlan.Plain.prunesSafely (h : plan.Plain types.length)
    (hagree : plan.ScansAgree D tx types groups) : plan.PrunesSafely D P R tx types groups :=
  ⟨h.resolves, (h.execute_eq hagree).symm⟩

end Plain

/-! ## Queries with an aggregate -/

/-- A column of a pruned scan keeps its index if and only if no column up to it is pruned. -/
theorem getElem?_filter_range {n c : ℕ} {p : ℕ → Bool} :
    ((range n).filter p)[c]? = some c ↔ c < n ∧ ∀ d ≤ c, p d = true := by
  have hsplit : c < n → ∃ rest, range n = range c ++ c :: rest := by
    intro hc
    obtain ⟨k, rfl⟩ := Nat.exists_eq_add_of_le hc
    exact ⟨(range k).map (c + 1 + ·), by rw [range_add, range_succ]; simp⟩
  constructor
  · intro h
    obtain ⟨hc, hpc⟩ := mem_filter.mp (mem_of_getElem? h)
    have hc := mem_range.mp hc
    obtain ⟨rest, hrange⟩ := hsplit hc
    -- the kept columns before `c` are as many as its position says
    have hpos : ((range n).filter p)[((range c).filter p).length]? = some c := by
      rw [hrange, filter_append, filter_cons_of_pos hpc]
      simp
    have hlength : ((range c).filter p).length = (range c).length := by
      rw [length_range]
      exact (List.getElem?_inj (List.getElem?_eq_some_iff.mp hpos).1
        (nodup_range.filter p)).mp (hpos.trans h.symm)
    refine ⟨hc, fun d hd => ?_⟩
    obtain rfl | hlt := hd.eq_or_lt
    · exact hpc
    · exact length_filter_eq_length_iff.mp hlength d (mem_range.mpr hlt)
  · rintro ⟨hc, hall⟩
    obtain ⟨rest, hrange⟩ := hsplit hc
    have hself : (range c).filter p = range c :=
      filter_eq_self.mpr fun d hd => hall d (mem_range.mp hd).le
    rw [hrange, filter_append, hself, filter_cons_of_pos (hall c le_rfl)]
    simp

variable {e : Expr}

theorem Expr.indexes_self_iff {layout : List ℕ} :
    e.Indexes layout e ↔ ∀ c ∈ e.columns, layout[c]? = some c := by
  constructor
  · rintro ⟨f, hf, hlayout⟩ c hc
    have hid := remap_eq_self.mp hf.symm c hc
    rw [← hlayout c hc, hid]
  · intro h
    exact ⟨id, (remap_eq_self.mpr fun _ _ => rfl).symm, h⟩

theorem AggrExpr.indexes_self_iff {layout : List ℕ} {agg : AggrExpr} :
    agg.Indexes layout agg ↔ ∀ c ∈ agg.columns, layout[c]? = some c := by
  rw [AggrExpr.Indexes, AggrExpr.columns, Expr.indexes_self_iff]
  cases agg.isStar <;> simp

section Grouped

variable {n w : ℕ} {plan : LogicalPlan} {required : Finset ℕ} {hint : Option Int64}
  {D : DoubleOps} {P : Platform} {R : SortRuntime} {tx : Snapshot} {types : List TypeId}
  {table : List RowGroup}

/-- Nothing above an aggregate finds the scan. -/
theorem LogicalPlan.Grouped.find (h : plan.Grouped n w) : tryFindLogicalGet plan = none := by
  induction h with
  | aggregate => rfl
  | projection _ _ ih => exact ih
  | sort _ _ ih => exact ih
  | limit _ ih => exact ih

theorem LogicalPlan.Grouped.find_pruned (h : plan.Grouped n w) :
    tryFindLogicalGet (pruneColumns plan required) = none := by
  induction h generalizing required with
  | aggregate => rfl
  | projection _ _ ih => exact ih
  | sort _ _ ih => exact ih
  | limit _ ih => exact ih

theorem LogicalPlan.Grouped.layout (h : plan.Grouped n w) :
    (planNode hint (pruneColumns plan required)).layout = range w := by
  induction h generalizing required hint with
  | aggregate => simp [pruneColumns, planNode, layout]
  | projection => simp [pruneColumns, planNode, layout]
  | sort _ _ ih => exact ih
  | limit _ ih => exact ih

theorem indexes_range (h : ∀ c ∈ e.columns, c < w) : e.Indexes (range w) e :=
  indexes_self_iff.mpr fun c hc => by simp [h c hc]

/-- The columns that an aggregate requires of its input. -/
def aggregateColumns (groups : List Expr) (aggs : List AggrExpr) : Finset ℕ :=
  collectColumnRefs groups ∅ ∪ (aggs.flatMap AggrExpr.columns).toFinset

theorem mem_aggregateColumns {groups : List Expr} {aggs : List AggrExpr} {c : ℕ} :
    c ∈ aggregateColumns groups aggs ↔
      c ∈ groups.flatMap columns ++ aggs.flatMap AggrExpr.columns := by
  rw [aggregateColumns, Finset.mem_union, mem_collectColumnRefs]
  simp

section Aggregate

variable {groups : List Expr} {aggs : List AggrExpr} {output : OutputSchema} {child : LogicalPlan}
  {node : LogicalGet} {rows rows' : Batch} {ids : List ℕ}

/-- The columns of an aggregate keep their indices if and only if no column in front of them
is pruned. -/
theorem getElem?_columnIds_iff (hgroups : ColumnsBelow n groups)
    (haggs : ∀ agg ∈ aggs, ∀ c ∈ agg.columns, c < n) (hchild : child.Scanned n)
    (hfind : tryFindLogicalGet (pruneColumns child (aggregateColumns groups aggs)) = some node) :
    (∀ c ∈ groups.flatMap columns ++ aggs.flatMap AggrExpr.columns,
      node.columnIds[c]? = some c) ↔ (LogicalPlan.aggregate groups aggs output child).Leading := by
  refine forall₂_congr fun c hc => ?_
  have hlt : c < n := by
    obtain hc | hc := mem_append.mp hc
    · obtain ⟨e, he, hc⟩ := mem_flatMap.mp hc
      exact hgroups e he c hc
    · obtain ⟨agg, hagg, hc⟩ := mem_flatMap.mp hc
      exact haggs agg hagg c hc
  rw [hchild.columnIds_eq hlt (mem_aggregateColumns.mpr hc) hfind, getElem?_filter_range,
    and_iff_right hlt]
  simp only [decide_eq_true_iff, mem_aggregateColumns, ← mem_append]
  constructor
  · exact fun h d hd => h d hd.le
  · intro h d hd
    obtain rfl | hlt := hd.eq_or_lt
    · exact mem_append_left _ hc
    · exact h d hlt

theorem evalBatch_congr (h : ∀ c ∈ e.columns, ids[c]? = some c)
    (hrows : Forall₂ (RowNarrows ids) rows rows') :
    e.evalBatch D rows = e.evalBatch D rows' := by
  refine traverse_congr hrows fun row row' hrow => ?_
  have hself : e.remap id = e := remap_eq_self.mpr fun _ _ => rfl
  have heval : (e.remap id).eval D (row'[·]?) = e.eval D (row[·]?) :=
    eval_remap fun c hc => hrow c c (h c hc)
  rw [hself] at heval
  exact heval.symm

/-- `Consume` only sees the values of the group keys and of the arguments. -/
theorem consumeValues_congr {op : PhysicalHashAggregation}
    (hgroups : ∀ e ∈ op.groupExprs, ∀ c ∈ e.columns, ids[c]? = some c)
    (haggs : ∀ agg ∈ op.aggrExprs, ∀ c ∈ agg.columns, ids[c]? = some c)
    (hrows : Forall₂ (RowNarrows ids) rows rows') (ht : AggregateHashTable) :
    op.consumeValues P D rows.length (evalBatch D rows) ht =
      op.consumeValues P D rows'.length (evalBatch D rows') ht := by
  have hself : ∀ {α : Type} (xs : List α), Forall₂ (fun x y => x = y ∧ x ∈ xs) xs xs :=
    fun xs => forall₂_same.mpr fun x hx => ⟨rfl, hx⟩
  have hgroupVecs : Fallible.traverse (evalBatch D rows) op.groupExprs =
      Fallible.traverse (evalBatch D rows') op.groupExprs := by
    refine traverse_congr (hself _) ?_
    rintro e _ ⟨rfl, he⟩
    exact evalBatch_congr (hgroups e he) hrows
  have haggVecs : Fallible.traverse (argVec (evalBatch D rows)) op.aggrExprs =
      Fallible.traverse (argVec (evalBatch D rows')) op.aggrExprs := by
    refine traverse_congr (hself _) ?_
    rintro agg _ ⟨rfl, hagg⟩
    have hcolumns := haggs agg hagg
    rw [AggrExpr.columns] at hcolumns
    rw [argVec, argVec]
    split_ifs with hstar
    · rfl
    · rw [if_neg hstar] at hcolumns
      exact evalBatch_congr hcolumns hrows
  rw [consumeValues, consumeValues, hgroupVecs, haggVecs, hrows.length_eq]

end Aggregate

theorem LogicalPlan.Grouped.resolves_iff (h : plan.Grouped n w) :
    plan.Resolves (planNode hint (pruneColumns plan required)) ↔ plan.Leading := by
  induction h generalizing required hint with
  | @aggregate groups aggs output child hgroups haggs hchild =>
    obtain ⟨node, hnode⟩ := hchild.exists_pruned (aggregateColumns groups aggs)
    rw [← getElem?_columnIds_iff hgroups haggs hchild hnode.find, forall_mem_append]
    have hself : groups.map (remapColumnRefs none) = groups := map_id'' (fun _ => rfl) _
    rw [pruneColumns, ← aggregateColumns, planNode, tryFindLogicalGet, hself,
      LogicalPlan.Resolves, hnode.layout, forall₂_same, forall₂_same]
    simp only [indexes_self_iff, AggrExpr.indexes_self_iff, hnode.resolves none, and_true,
      forall_mem_flatMap]
  | @projection w exprs output child hexprs hchild ih =>
    rw [pruneColumns, planNode, tryFindLogicalGet, hchild.find_pruned, LogicalPlan.Resolves,
      hchild.layout, ih]
    have hself : exprs.map (remapColumnRefs none) = exprs := map_id'' (fun _ => rfl) _
    rw [hself, forall₂_same]
    exact and_iff_right fun e he => indexes_range (hexprs e he)
  | @sort w keys output child hkeys hchild ih =>
    rw [pruneColumns, planNode, tryFindLogicalGet, hchild.find_pruned, LogicalPlan.Resolves,
      hchild.layout, ih]
    have hself : (keys.map fun key => { key with expr := remapColumnRefs none key.expr }) = keys :=
      map_id'' (fun _ => rfl) _
    rw [hself, forall₂_same]
    exact and_iff_right fun key hkey =>
      ⟨rfl, indexes_range (hkeys key.expr (mem_map_of_mem hkey))⟩
  | limit _ ih =>
    rw [pruneColumns, planNode, LogicalPlan.Resolves, ih]
    exact ⟨fun h => h.2.2, fun h => ⟨rfl, rfl, h⟩⟩

theorem LogicalPlan.Grouped.execute_eq (h : plan.Grouped types.length w) (hleading : plan.Leading)
    (hagree : ((planNode hint plan).scan types).Agree
      ((planNode hint (pruneColumns plan required)).scan types) D tx types table) :
    (planNode hint plan).execute D P R tx types table =
      (planNode hint (pruneColumns plan required)).execute D P R tx types table := by
  induction h generalizing required hint with
  | @aggregate groups aggs output child hgroups haggs hchild =>
    obtain ⟨node, hnode⟩ := hchild.exists_pruned (aggregateColumns groups aggs)
    have hpositions := (getElem?_columnIds_iff hgroups haggs hchild hnode.find).mpr hleading
    obtain ⟨hgroups', haggs'⟩ := forall_mem_append.mp hpositions
    have hself : groups.map (remapColumnRefs none) = groups := map_id'' (fun _ => rfl) _
    rw [pruneColumns, planNode, planNode, tryFindLogicalGet,
      tryFindLogicalGet, hself]
    refine ((hchild.lift_execute hnode none hagree).bind fun batches batches' hbatches => ?_).eq
    have hconsume : Lift Eq
        (foldl (fun ht rows => consumeValues ⟨groups, aggs⟩ P D rows.length (evalBatch D rows) ht)
          { numAggregates := aggs.length } batches)
        (foldl (fun ht rows => consumeValues ⟨groups, aggs⟩ P D rows.length (evalBatch D rows) ht)
          { numAggregates := aggs.length } batches') := by
      refine .foldl hbatches ?_ rfl
      rintro ht _ rows rows' rfl hrows
      exact .of_eq (consumeValues_congr (forall_mem_flatMap.mp hgroups')
        (forall_mem_flatMap.mp haggs') hrows ht)
    refine hconsume.bind ?_
    rintro ht _ rfl
    exact .of_eq rfl
  | projection _ hchild ih | sort _ hchild ih =>
    rw [pruneColumns, planNode, planNode, tryFindLogicalGet, tryFindLogicalGet,
      hchild.find, hchild.find_pruned, execute, execute, ih hleading hagree]
  | limit _ ih =>
    rw [pruneColumns, planNode, planNode, execute, execute, ih hleading hagree]

theorem LogicalPlan.Grouped.prunesSafely_iff (h : plan.Grouped types.length w)
    (hagree : plan.ScansAgree D tx types table) :
    plan.PrunesSafely D P R tx types table ↔ plan.Leading :=
  ⟨fun hsafe => h.resolves_iff.mp hsafe.1, fun hleading =>
    ⟨h.resolves_iff.mpr hleading, (h.execute_eq hleading hagree).symm⟩⟩

end Grouped

/-! ## The condition -/

namespace Optimizer

/-- A table with two INT64 columns. -/
def twoColumns : OutputSchema := [(text "a", .int64), (text "b", .int64)]

/-- SELECT name, COUNT(*) FROM t GROUP BY name. -/
def countBy (name : Bytes) : SelectStatement where
  fromTable := text "t"
  selectList := [.expr (.columnRef [] name), .call { name := text "COUNT", isStar := true }]
  groupBy := [.columnRef [] name]

/-- Its plan on a table with two columns, where `name` is column `c`. -/
def countByPlan (name : Bytes) (c : ℕ) : LogicalPlan :=
  .projection [.columnRef .int64 0, .columnRef .int64 1]
    [(name, .int64), (text "COUNT(*)", .int64)]
    (.aggregate [.columnRef .int64 c]
      [{ func := .count, isStar := true, arg := .literal .invalid {} true, resultType := .int64 }]
      [(name, .int64), (text "COUNT(*)", .int64)]
      (.get { columnIds := [0, 1], output := twoColumns }))

theorem bindSelect_countBy_a :
    bindSelect (countBy (text "a")) twoColumns = .ok (countByPlan (text "a") 0) := by
  decide +kernel

theorem bindSelect_countBy_b :
    bindSelect (countBy (text "b")) twoColumns = .ok (countByPlan (text "b") 1) := by
  decide +kernel

/-- Without filters the scans of its columns agree. -/
theorem scansAgree_countBy {name : Bytes} {c : ℕ} :
    (countByPlan name c).ScansAgree TableScan.noDoubles ⟨1, 0⟩ [.int64, .int64]
      [TableScan.fiveSix] :=
  TableScan.agree_of_no_filters (forall_mem_singleton.mpr TableScan.readable_fiveSix)
    (forall_mem_singleton.mpr (TableScan.statsBound_of_null (by decide +kernel))) (by decide)
    (@keeps_pruneGet 2 _ _ rfl).lt

end Optimizer

end CppColDB
