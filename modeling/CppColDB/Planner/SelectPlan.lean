import CppColDB.Execution.Aggregate
import CppColDB.Execution.Sort
import CppColDB.Planner.BindExpr

/-!
# Plans of single-table queries

`BindSelect` turns a SELECT without joins into a logical plan. A column of the table is a
column reference with its index in the table, wherever it is used up to the projection or the
aggregate; above an aggregate a column reference is a position of the aggregate's result.
-/

namespace CppColDB

open ByteCodec

/-! ## Statements -/

/-- A call of an aggregate in a select list. -/
structure FunctionCall where
  name : Bytes
  isStar : Bool := false
  args : List ParsedExpr := []
  deriving DecidableEq, Repr

/-- An element of a select list. A call inside an operator is refused in any case, so that
its arguments are not kept. -/
inductive SelectItem where
  | expr (e : ParsedExpr)
  | call (f : FunctionCall)
  deriving DecidableEq, Repr

structure SelectStatement where
  fromTable : Bytes
  selectList : List SelectItem
  whereClause : Option ParsedExpr := none
  groupBy : List ParsedExpr := []
  /-- The keys of ORDER BY, each with whether it ascends. -/
  orderBy : List (ParsedExpr × Bool) := []
  limit : Option Int64 := none
  offset : Option Int64 := none
  deriving DecidableEq, Repr

/-! ## Plans -/

/-- `output_names` and `output_types` of a node. -/
abbrev OutputSchema := List (Bytes × TypeId)

structure LogicalGet where
  columnIds : List ℕ
  output : OutputSchema
  pushedFilters : List Expr := []
  deriving DecidableEq, Repr

/-- `LogicalPlan`, with the nodes of a query on one table. -/
inductive LogicalPlan where
  | get (node : LogicalGet)
  | filter (predicate : Expr) (output : OutputSchema) (child : LogicalPlan)
  | projection (exprs : List Expr) (output : OutputSchema) (child : LogicalPlan)
  | limit (limit offset : Int64) (output : OutputSchema) (child : LogicalPlan)
  | sort (sortKeys : List SortKey) (output : OutputSchema) (child : LogicalPlan)
  | aggregate (groupExprs : List Expr) (aggrExprs : List AggrExpr) (output : OutputSchema)
      (child : LogicalPlan)
  deriving DecidableEq, Repr

def LogicalPlan.output : LogicalPlan → OutputSchema
  | .get node => node.output
  | .filter _ output _ | .projection _ output _ | .limit _ _ output _ | .sort _ output _
  | .aggregate _ _ output _ => output

/-! ## The binder -/

namespace Binder

/-- `HasAggregateExpr`. -/
def hasAggregateExpr : ParsedExpr → Bool
  | .functionCall _ => true
  | .binaryOp _ left right => hasAggregateExpr left || hasAggregateExpr right
  | .unaryOp _ operand => hasAggregateExpr operand
  | _ => false

def SelectItem.hasAggregate : SelectItem → Bool
  | .call _ => true
  | .expr e => hasAggregateExpr e

/-- `std::toupper` on the letters of ASCII. -/
def toUpper (c : UInt8) : UInt8 := if 97 ≤ c ∧ c ≤ 122 then c - 32 else c

def aggFunc (name : Bytes) : Except Error AggFunc :=
  let upper := name.map toUpper
  if upper = text "COUNT" then .ok .count
  else if upper = text "SUM" then .ok .sum
  else if upper = text "MIN" then .ok .min
  else if upper = text "MAX" then .ok .max
  else if upper = text "AVG" then .ok .avg
  else .error (Error.bind (text "unknown aggregate function: " ++ name))

/-- `BindAggregate`. -/
def bindAggregate (ctx : BindContext) (f : FunctionCall) : Except Error AggrExpr := do
  let func ← aggFunc f.name
  if f.isStar then
    pure { func, isStar := true, arg := .literal .invalid {} true, resultType := .int64 }
  else
    match f.args with
    | [] => .error (Error.bind
        (text "aggregate '" ++ f.name ++ text "' requires an argument"))
    | a :: _ => do
      let arg ← bindExpr ctx a
      match func with
      | .count => pure { func, arg, resultType := .int64 }
      | .sum | .min | .max => pure { func, arg, resultType := arg.resultType }
      | .avg =>
        pure { func, arg := if arg.resultType.isInteger then coerce arg .float64 else arg
               resultType := .float64 }

/-- A bound GROUP BY expression with the name of its column. -/
def bindGroup (ctx : BindContext) (g : ParsedExpr) : Except Error (Expr × Bytes) := do
  let e ← bindExpr ctx g
  match g with
  | .columnRef _ columnName => pure (e, columnName)
  | _ => pure (e, text "?group")

/-- `CollectAggr`: the aggregates of the select list, with the names of their columns. -/
def collectAggr (ctx : BindContext) : List SelectItem → Except Error (List (AggrExpr × Bytes))
  | [] => .ok []
  | .expr _ :: items => collectAggr ctx items
  | .call f :: items => do
    let agg ← bindAggregate ctx f
    let aggs ← collectAggr ctx items
    pure ((agg, if f.isStar then f.name ++ text "(*)" else f.name) :: aggs)

/-- A reference to a column of the result of an aggregate. -/
def resultRef (output : OutputSchema) (pos : ℕ) : Option (Expr × Bytes) :=
  output[pos]?.map fun col => (.columnRef col.2 pos, col.1)

/-- `BindPostAgg` for the select list: `cursor` is the number of calls before. -/
def bindPostAgg (groups : ℕ) (output : OutputSchema) :
    ℕ → List SelectItem → Except Error (List (Expr × Bytes))
  | _, [] => .ok []
  | cursor, .expr .star :: items => do
    let rest ← bindPostAgg groups output cursor items
    pure ((List.range output.length).filterMap (resultRef output) ++ rest)
  | cursor, .call _ :: items => do
    let rest ← bindPostAgg groups output (cursor + 1) items
    pure ((resultRef output (groups + cursor)).toList ++ rest)
  | cursor, .expr (.columnRef _ columnName) :: items =>
    match (output.take groups).findIdx? (·.1 = columnName) with
    | some i => do
      let rest ← bindPostAgg groups output cursor items
      pure ((resultRef output i).toList ++ rest)
    | none => .error (Error.bind
        (text "column '" ++ columnName ++ text "' must appear in GROUP BY"))
  | _, .expr _ :: _ => .error (Error.bind
      (text "complex expressions in SELECT with GROUP BY not supported"))

def selectOutput (exprs : List (Expr × Bytes)) : OutputSchema :=
  exprs.map fun e => (e.2, e.1.resultType)

/-- `BindAggregateSelect`. -/
def bindAggregateSelect (stmt : SelectStatement) (ctx : BindContext) (scanFilter : LogicalPlan) :
    Except Error LogicalPlan := do
  let groups ← stmt.groupBy.mapM (bindGroup ctx)
  let aggs ← collectAggr ctx stmt.selectList
  let output := selectOutput groups ++ aggs.map fun a => (a.2, a.1.resultType)
  let exprs ← bindPostAgg groups.length output 0 stmt.selectList
  pure (.projection (exprs.map Prod.fst) (selectOutput exprs)
    (.aggregate (groups.map Prod.fst) (aggs.map Prod.fst) output scanFilter))

/-- A key of ORDER BY over the result of an aggregate: a qualified column that is not found
is looked up again by its name. -/
def bindResultKey (ctx : BindContext) (key : ParsedExpr) : Except Error Expr :=
  match bindExpr ctx key with
  | .ok e => .ok e
  | .error err =>
    match key with
    | .columnRef tableName columnName =>
      if tableName = [] then .error err else bindExpr ctx (.columnRef [] columnName)
    | _ => .error err

/-- A sort of a plan by the given keys; none if there are no keys. -/
def bindOrderBy (bindKey : ParsedExpr → Except Error Expr) (stmt : SelectStatement)
    (plan : LogicalPlan) : Except Error LogicalPlan :=
  if stmt.orderBy = [] then .ok plan
  else do
    let sortKeys ← stmt.orderBy.mapM fun key => do
      let expr ← bindKey key.1
      pure ({ expr, ascending := key.2 } : SortKey)
    pure (.sort sortKeys plan.output plan)

def bindLimit (stmt : SelectStatement) (plan : LogicalPlan) : Except Error LogicalPlan :=
  match stmt.limit with
  | none => .ok plan
  | some limit =>
    if limit < 0 then .error (Error.bind (text "LIMIT must be non-negative"))
    else .ok (.limit limit (stmt.offset.getD 0) plan.output plan)

/-- An element of a select list without aggregates; `*` stands for all columns. -/
def bindSelectItem (ctx : BindContext) : SelectItem → Except Error (List (Expr × Bytes))
  | .expr .star => .ok (ctx.map fun b => (.columnRef b.type b.columnIdx, b.columnName))
  | .expr e => do
    let bound ← bindExpr ctx e
    match e with
    | .columnRef _ columnName => pure [(bound, columnName)]
    | _ => pure [(bound, text "?col")]
  | .call f => .error (Error.bind
      (text "aggregate function '" ++ f.name ++ text "' not allowed here"))

/-- The scan of the table, below a filter if there is a WHERE. -/
def bindSource (stmt : SelectStatement) (columns : OutputSchema) (ctx : BindContext) :
    Except Error LogicalPlan :=
  let get := LogicalPlan.get
    { columnIds := List.range columns.length, output := columns }
  match stmt.whereClause with
  | none => .ok get
  | some w => do
    let predicate ← bindExpr ctx w
    if predicate.resultType ≠ .boolean then
      .error (Error.bind (text "WHERE clause must be boolean"))
    else pure (.filter predicate columns get)

/-- `BindSelect` on a table with the given columns. -/
def bindSelect (stmt : SelectStatement) (columns : OutputSchema) : Except Error LogicalPlan := do
  let ctx := BindContext.addTable [] stmt.fromTable columns 0
  let source ← bindSource stmt columns ctx
  if stmt.groupBy ≠ [] ∨ stmt.selectList.any SelectItem.hasAggregate then do
    let top ← bindAggregateSelect stmt ctx source
    let top ← bindOrderBy
      (bindResultKey (BindContext.addTable [] (text "__result__") top.output 0)) stmt top
    bindLimit stmt top
  else do
    let exprs ← stmt.selectList.mapM (bindSelectItem ctx)
    let source ← bindOrderBy (bindExpr ctx) stmt source
    bindLimit stmt
      (.projection (exprs.flatten.map Prod.fst) (selectOutput exprs.flatten) source)

end Binder

end CppColDB
