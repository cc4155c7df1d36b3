import CppColDB.Planner.SelectPlan

/-!
# Predicate pushdown, column pruning and physical plans

Pruning walks down a plan, collects the columns that its nodes refer to and drops the others
from the scan. The references in the plan stay those of the table: the physical planner
replaces them by positions in the chunks of the scan, where it finds a scan below.
-/

namespace CppColDB

/-- The columns in an aggregate's argument. -/
def AggrExpr.columns (agg : AggrExpr) : List ℕ := if agg.isStar then [] else agg.arg.columns

namespace Optimizer

/-! ## Predicate pushdown -/

/-- `CombinePredicates`. -/
def combinePredicates : List Expr → Option Expr
  | [] => none
  | p :: ps => some (ps.foldl (.binaryOp .boolean .and) p)

/-- The pending predicates in a filter on top of a plan. -/
def attach (plan : LogicalPlan) (pending : List Expr) : LogicalPlan :=
  match combinePredicates pending with
  | none => plan
  | some predicate => .filter predicate plan.output plan

/-- `Pushdown`: the plan, and the predicates that found no place below it. -/
def pushdown : LogicalPlan → List Expr → LogicalPlan × List Expr
  | .get node, pending => (.get { node with pushedFilters := node.pushedFilters ++ pending }, [])
  | .filter predicate output child, pending =>
    let (child, pending) := pushdown child (pending ++ [predicate])
    match combinePredicates pending with
    | none => (child, [])
    | some combined => (.filter combined output child, [])
  | .aggregate groupExprs aggrExprs output child, pending =>
    (attach (.aggregate groupExprs aggrExprs output child) pending, [])
  | .projection exprs output child, pending =>
    let (child, pending) := pushdown child pending
    (attach (.projection exprs output child) pending, [])
  | .limit limit offset output child, pending =>
    let (child, pending) := pushdown child pending
    (attach (.limit limit offset output child) pending, [])
  | .sort sortKeys output child, pending =>
    let (child, pending) := pushdown child pending
    (attach (.sort sortKeys output child) pending, [])

/-- `RunPredicatePushdown`. -/
def runPredicatePushdown (plan : LogicalPlan) : LogicalPlan := (pushdown plan []).1

/-! ## Column pruning -/

/-- `CollectColumnRefs` over a list of expressions. -/
def collectColumnRefs (exprs : List Expr) (out : Finset ℕ) : Finset ℕ :=
  out ∪ (exprs.flatMap Expr.columns).toFinset

/-- `PruneColumns` at a scan. At least one column stays. -/
def pruneGet (node : LogicalGet) (required : Finset ℕ) : LogicalGet :=
  if required = ∅ then node
  else
    let required := collectColumnRefs node.pushedFilters required
    let kept := node.columnIds.zipIdx.filter fun p => decide (p.1 ∈ required)
    let kept := if kept = [] then node.columnIds.zipIdx.take 1 else kept
    { node with columnIds := kept.map Prod.fst, output := kept.filterMap fun p => node.output[p.2]? }

/-- `PruneColumns`. -/
def pruneColumns : LogicalPlan → Finset ℕ → LogicalPlan
  | .get node, required => .get (pruneGet node required)
  | .filter predicate output child, required =>
    .filter predicate output (pruneColumns child (collectColumnRefs [predicate] required))
  | .projection exprs output child, required =>
    .projection exprs output (pruneColumns child (collectColumnRefs exprs required))
  | .limit limit offset output child, required =>
    .limit limit offset output (pruneColumns child required)
  | .sort sortKeys output child, required =>
    .sort sortKeys output
      (pruneColumns child (collectColumnRefs (sortKeys.map SortKey.expr) required))
  | .aggregate groupExprs aggrExprs output child, _ =>
    -- from here on the columns are those of the input of the aggregate
    .aggregate groupExprs aggrExprs output (pruneColumns child
      (collectColumnRefs groupExprs ∅ ∪ (aggrExprs.flatMap AggrExpr.columns).toFinset))

/-- `RunColumnPruning`. -/
def runColumnPruning (plan : LogicalPlan) : LogicalPlan := pruneColumns plan ∅

end Optimizer

/-! ## Physical plans -/

/-- `PhysicalOperator`, with the operators of a query on one table. -/
inductive PhysicalPlan where
  | tableScan (columnIds : List ℕ) (pushedFilters : List Expr)
  | filter (predicate : Expr) (child : PhysicalPlan)
  | projection (exprs : List Expr) (child : PhysicalPlan)
  | limit (limit offset : Int64) (child : PhysicalPlan)
  | sort (op : PhysicalSort) (child : PhysicalPlan)
  | aggregation (op : PhysicalHashAggregation) (source : PhysicalAggregationSource)
      (child : PhysicalPlan)
  deriving Repr

namespace PhysicalPlanner

/-- `TryFindLogicalGet`. -/
def tryFindLogicalGet : LogicalPlan → Option LogicalGet
  | .get node => some node
  | .aggregate .. => none
  | .filter _ _ child | .projection _ _ child | .limit _ _ _ child | .sort _ _ child =>
    tryFindLogicalGet child

/-- The entry of `remap` in `RemapColumnRefs`, where a later column replaces an earlier one;
a column that is not there keeps its index. -/
def chunkPosition (columnIds : List ℕ) (c : ℕ) : ℕ :=
  columnIds.zipIdx.foldl (fun pos p => if p.1 = c then p.2 else pos) c

/-- `RemapColumnRefs`, if there is a scan. Aggregates are returned as they are. -/
def remapColumnRefs (get : Option LogicalGet) (e : Expr) : Expr :=
  match get with
  | none => e
  | some node => e.remap (chunkPosition node.columnIds)

/-- The number of rows that a LIMIT needs from a sort below it. -/
def topK (limit offset : Int64) : Int64 :=
  let effOffset := max 0 offset
  if limit > Int64.maxValue - effOffset then Int64.maxValue else limit + effOffset

/-- `PlanNode`. `hint` is the entry of `top_k_hints_` for the sort that is reached through
projections only (`FindTopKSortCandidate`). -/
def planNode (hint : Option Int64) : LogicalPlan → PhysicalPlan
  | .get node =>
    .tableScan node.columnIds (node.pushedFilters.map (remapColumnRefs (some node)))
  | .filter predicate output child =>
    .filter (remapColumnRefs (tryFindLogicalGet (.filter predicate output child)) predicate)
      (planNode none child)
  | .projection exprs output child =>
    .projection
      (exprs.map (remapColumnRefs (tryFindLogicalGet (.projection exprs output child))))
      (planNode hint child)
  | .limit limit offset _ child =>
    .limit limit offset (planNode (if 0 ≤ limit then some (topK limit offset) else none) child)
  | .sort sortKeys output child =>
    .sort
      { sortKeys := sortKeys.map fun key => { key with
          expr := remapColumnRefs (tryFindLogicalGet (.sort sortKeys output child)) key.expr }
        topK := hint.getD (-1) }
      (planNode none child)
  | .aggregate groupExprs aggrExprs output child =>
    .aggregation
      { groupExprs := groupExprs.map
          (remapColumnRefs (tryFindLogicalGet (.aggregate groupExprs aggrExprs output child)))
        aggrExprs }
      { outputTypes := output.map Prod.snd
        numGroupCols := groupExprs.length
        aggs := (aggrExprs.map AggrExpr.func).zip
          ((output.drop groupExprs.length).map Prod.snd) }
      (planNode none child)

/-- `Plan`. -/
def plan (p : LogicalPlan) : PhysicalPlan := planNode none p

end PhysicalPlanner

end CppColDB
