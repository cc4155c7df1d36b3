import CppColDB.Execution.Expr

/-!
# Binding of expressions

`BindExpr` resolves the columns of a parsed expression and infers its type. Operands of
different numeric types are promoted to FLOAT64. Aggregates are only bound in select lists;
everywhere else they are refused.
-/

namespace CppColDB

open ByteCodec List

/-- A parsed expression; an unqualified column has an empty table name. -/
inductive ParsedExpr where
  | columnRef (tableName columnName : Bytes)
  | integerLit (value : Int64)
  | floatLit (bits : UInt64)
  | stringLit (value : Bytes)
  | boolLit (value : Bool)
  | nullLit
  | binaryOp (op : BinaryOp) (left right : ParsedExpr)
  | unaryOp (op : UnaryOp) (operand : ParsedExpr)
  | functionCall (name : Bytes)
  | star
  deriving DecidableEq, Repr

structure ColumnBinding where
  columnIdx : ℕ
  type : TypeId
  columnName : Bytes
  tableName : Bytes
  deriving DecidableEq, Repr

/-- The columns that a statement can name, in the order in which they were added. -/
abbrev BindContext := List ColumnBinding

namespace BindContext

/-- `AddTable`. -/
def addTable (ctx : BindContext) (tableAlias : Bytes) (columns : List (Bytes × TypeId))
    (colIdxOffset : ℕ) : BindContext :=
  ctx ++ columns.mapIdx fun i col =>
    { columnIdx := colIdxOffset + i, type := col.2, columnName := col.1, tableName := tableAlias }

/-- `ResolveColumn`. -/
def resolveColumn (ctx : BindContext) (colName : Bytes) : Except Error ColumnBinding :=
  match ctx.filter (·.columnName = colName) with
  | [] => .error (Error.bind (text "column not found: " ++ colName))
  | [b] => .ok b
  | _ => .error (Error.bind (text "ambiguous column: " ++ colName))

/-- `ResolveQualified`. -/
def resolveQualified (ctx : BindContext) (tableAlias colName : Bytes) :
    Except Error ColumnBinding :=
  match ctx.filter (·.tableName = tableAlias) with
  | [] => .error (Error.bind (text "table not found in context: " ++ tableAlias))
  | bs =>
    match bs.find? (·.columnName = colName) with
    | some b => .ok b
    | none => .error (Error.bind
        (text "column not found: " ++ tableAlias ++ text "." ++ colName))

variable {ctx : BindContext} {b : ColumnBinding}

theorem mem_of_resolveColumn {name : Bytes} (h : ctx.resolveColumn name = .ok b) : b ∈ ctx := by
  rw [resolveColumn] at h
  split at h
  case h_1 => cases h
  case h_3 => cases h
  case h_2 b' hfilter =>
    cases h
    exact mem_of_mem_filter (hfilter ▸ mem_singleton_self b)

theorem mem_of_resolveQualified {table name : Bytes}
    (h : ctx.resolveQualified table name = .ok b) : b ∈ ctx := by
  rw [resolveQualified] at h
  split at h
  case h_1 => cases h
  case h_2 =>
    split at h
    case h_2 => cases h
    case h_1 b' hfind =>
      cases h
      exact mem_of_mem_filter (mem_of_find?_eq_some hfind)

end BindContext

/-- The type of the result. -/
def Expr.resultType : Expr → TypeId
  | .columnRef type _ | .literal type _ _ | .binaryOp type _ _ _ | .unaryOp type _ _
  | .cast type _ _ | .aggregate type => type

def BinaryOp.isArithmetic : BinaryOp → Bool
  | .add | .sub | .mul | .div => true
  | _ => false

/-- `IsComparisonOp`. -/
def BinaryOp.isComparison : BinaryOp → Bool
  | .eq | .lt | .gt | .le | .ge | .ne => true
  | _ => false

/-- The text of an operator. An operator that the program does not know is not kept. -/
def BinaryOp.name : BinaryOp → Bytes
  | .add => text "+"
  | .sub => text "-"
  | .mul => text "*"
  | .div => text "/"
  | .eq => text "="
  | .lt => text "<"
  | .gt => text ">"
  | .le => text "<="
  | .ge => text ">="
  | .ne => text "<>"
  | .and => text "AND"
  | .or => text "OR"
  | .other => []

namespace TypeId

/-- `IsIntegerType`. -/
def isInteger : TypeId → Bool
  | .int8 | .int16 | .int32 | .int64 => true
  | _ => false

/-- `IsNumericType`. -/
def isNumeric : TypeId → Bool
  | .int8 | .int16 | .int32 | .int64 | .float32 | .float64 => true
  | _ => false

/-- `TypeName`. -/
def name : TypeId → Bytes
  | .boolean => text "BOOLEAN"
  | .int8 => text "INT8"
  | .int16 => text "INT16"
  | .int32 => text "INT32"
  | .int64 => text "INT64"
  | .float32 => text "FLOAT32"
  | .float64 => text "FLOAT64"
  | .varchar => text "VARCHAR"
  | .invalid | .unnamed _ _ => text "INVALID"

end TypeId

namespace Binder

/-- `Coerce`. -/
def coerce (e : Expr) (toType : TypeId) : Expr :=
  if e.resultType = toType then e else .cast toType e.resultType e

/-- `InferBinaryType`, with the operands after their promotion. -/
def inferBinaryType (op : BinaryOp) (left right : Expr) :
    Except Error (TypeId × Expr × Expr) :=
  let lt := left.resultType
  let rt := right.resultType
  if op.isArithmetic then
    if !lt.isNumeric then
      .error (Error.bind (text "operator '" ++ op.name ++ text "' requires numeric left operand"))
    else if !rt.isNumeric then
      .error (Error.bind (text "operator '" ++ op.name ++ text "' requires numeric right operand"))
    else if lt.isInteger && rt.isInteger then .ok (.int64, left, right)
    else .ok (.float64, coerce left .float64, coerce right .float64)
  else if op.isComparison then
    if lt = rt then .ok (.boolean, left, right)
    else if lt.isNumeric && rt.isNumeric then
      .ok (.boolean, coerce left .float64, coerce right .float64)
    else .error (Error.bind
      (text "cannot compare " ++ lt.name ++ text " with " ++ rt.name))
  else if op = .and ∨ op = .or then
    if lt ≠ .boolean then .error (Error.bind (text "AND/OR left operand must be BOOLEAN"))
    else if rt ≠ .boolean then .error (Error.bind (text "AND/OR right operand must be BOOLEAN"))
    else .ok (.boolean, left, right)
  else .error (Error.bind (text "unknown binary operator: " ++ op.name))

/-- `BindExpr` where aggregates are not allowed. -/
def bindExpr (ctx : BindContext) : ParsedExpr → Except Error Expr
  | .columnRef tableName columnName => do
    let b ← if tableName = [] then ctx.resolveColumn columnName
      else ctx.resolveQualified tableName columnName
    pure (.columnRef b.type b.columnIdx)
  | .integerLit v => .ok (.literal .int64 (.integer v) false)
  | .floatLit bits => .ok (.literal .float64 (.float bits) false)
  | .stringLit s => .ok (.literal .varchar (.varchar s) false)
  | .boolLit b => .ok (.literal .boolean (.boolean b) false)
  | .nullLit => .ok (.literal .invalid {} true)
  | .binaryOp op left right => do
    let left ← bindExpr ctx left
    let right ← bindExpr ctx right
    let (type, left, right) ← inferBinaryType op left right
    pure (.binaryOp type op left right)
  | .unaryOp op operand => do
    let child ← bindExpr ctx operand
    if op = .not ∧ child.resultType ≠ .boolean then
      .error (Error.bind (text "NOT requires BOOLEAN operand"))
    else if op = .neg ∧ !child.resultType.isNumeric then
      .error (Error.bind (text "unary minus requires numeric operand"))
    else pure (.unaryOp child.resultType op child)
  | .functionCall name => .error (Error.bind
      (text "aggregate function '" ++ name ++ text "' not allowed here"))
  | .star => .error (Error.bind (text "* not allowed here"))

/-- A column reference is bound to a column of the context. -/
theorem exists_bindExpr_columnRef {ctx : BindContext} {table name : Bytes} {e : Expr}
    (h : bindExpr ctx (.columnRef table name) = .ok e) :
    ∃ b ∈ ctx, e = .columnRef b.type b.columnIdx := by
  rw [bindExpr] at h
  split at h <;> obtain ⟨b, hb, h⟩ := Except.bind_eq_ok_iff.mp h <;> cases h
  · exact ⟨b, BindContext.mem_of_resolveColumn hb, rfl⟩
  · exact ⟨b, BindContext.mem_of_resolveQualified hb, rfl⟩

end Binder

end CppColDB
