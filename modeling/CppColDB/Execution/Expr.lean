import CppColDB.Storage.Pruning

/-!
# Scalar expressions

`ExprEvaluator` works on whole vectors, one operator after the other, but each row of a
result only depends on that row of the operands. `Expr.eval` is the evaluation of one row.
-/

namespace CppColDB

/-- The operators of `LogicalBinaryOp`; any other text is `other`. -/
inductive BinaryOp where
  | add | sub | mul | div
  | eq | lt | gt | le | ge | ne
  | and | or
  | other
  deriving DecidableEq, Repr

/-- The operators of `LogicalUnaryOp`; any other text is `other`. -/
inductive UnaryOp where
  | not | neg | other
  deriving DecidableEq, Repr

/-- `LogicalExpr`. A column is given by its position in the input chunk. -/
inductive Expr where
  | columnRef (resultType : TypeId) (columnIdx : ℕ)
  | literal (resultType : TypeId) (value : Value) (isNull : Bool)
  | binaryOp (resultType : TypeId) (op : BinaryOp) (left right : Expr)
  | unaryOp (resultType : TypeId) (op : UnaryOp) (child : Expr)
  | cast (resultType fromType : TypeId) (child : Expr)
  | aggregate (resultType : TypeId)
  deriving DecidableEq, Repr

/-- The arithmetic of doubles, given by their bit patterns. A conversion to an integer is
undefined where the integer part does not fit. -/
structure DoubleOps where
  add : UInt64 → UInt64 → UInt64
  sub : UInt64 → UInt64 → UInt64
  mul : UInt64 → UInt64 → UInt64
  div : UInt64 → UInt64 → UInt64
  neg : UInt64 → UInt64
  ofInt : Int64 → UInt64
  toInt : UInt64 → Option Int64

/-- One row of a vector: the type of the vector and the cell. -/
structure Scalar where
  type : TypeId
  cell : Cell
  deriving DecidableEq, Repr

/-! ## Operators -/

/-- The element of a row as a double. Other arrays than those of numbers are empty. -/
def DoubleOps.number (D : DoubleOps) (type : TypeId) (x : Datum) : Option UInt64 :=
  match type.storageClass, x with
  | .float, .float bits => some bits
  | .int, .int v => some (D.ofInt v)
  | _, _ => none

/-- The element of a row in the array of integers. -/
def intElement (type : TypeId) (x : Datum) : Option Int64 :=
  match type.storageClass, x with
  | .int, .int v => some v
  | _, _ => none

namespace BinaryOp

/-- The arithmetic operators; division by zero gives NULL. -/
def arithmetic (D : DoubleOps) (op : BinaryOp) (a b : UInt64) : Option UInt64 :=
  match op with
  | .add => some (D.add a b)
  | .sub => some (D.sub a b)
  | .mul => some (D.mul a b)
  | _ => if Double.eq b 0 then none else some (D.div a b)

/-- The comparison operators, from `<` and `==` of the operands' type. -/
def comparison {α : Type} (less equal : α → α → Bool) (op : BinaryOp) (a b : α) : Bool :=
  match op with
  | .eq => equal a b
  | .ne => !equal a b
  | .lt => less a b
  | .gt => less b a
  | .le => less a b || equal a b
  | _ => less b a || equal a b

/-- Comparison of two rows: as strings, as doubles or as integers. -/
def compareRows (D : DoubleOps) (op : BinaryOp) (lt : TypeId) (l : Datum) (rt : TypeId)
    (r : Datum) : Option Bool :=
  match lt.storageClass, rt.storageClass with
  | .str, .str =>
    match l, r with
    | .str a, .str b => some (op.comparison (fun a b => decide (a < b)) (fun a b => decide (a = b)) a b)
    | _, _ => none
  | .float, _ | _, .float => do
    let a ← D.number lt l
    let b ← D.number rt r
    pure (op.comparison Double.lt Double.eq a b)
  | _, _ => do
    let a ← intElement lt l
    let b ← intElement rt r
    pure (op.comparison (fun a b => decide (a < b)) (fun a b => decide (a = b)) a b)

/-- Write a truth value to the integer array of the result. -/
def boolCell (resultType : TypeId) (b : Bool) : Option Cell :=
  if resultType.storageClass = .int then some (some (.int (if b then 1 else 0))) else none

/-- `ApplyBinaryOp` on one row. -/
def apply (D : DoubleOps) (op : BinaryOp) (resultType : TypeId) (l r : Scalar) : Option Cell :=
  match l.cell, r.cell with
  | some a, some b =>
    match op with
    | .add | .sub | .mul | .div => do
      let x ← D.number l.type a
      let y ← D.number r.type b
      match op.arithmetic D x y with
      | none => some none
      | some z =>
        match resultType.storageClass with
        | .float => some (some (.float z))
        | .int => (D.toInt z).map fun v => some (.int v)
        | _ => none
    | .eq | .lt | .gt | .le | .ge | .ne => do
      let b ← op.compareRows D l.type a r.type b
      boolCell resultType b
    | .and | .or => do
      let x ← intElement l.type a
      let y ← intElement r.type b
      boolCell resultType (if op = .and then x ≠ 0 && y ≠ 0 else x ≠ 0 || y ≠ 0)
    | .other => some none
  | _, _ => some none

end BinaryOp

/-- `ApplyUnaryOp` on one row; the result has the type of the operand. -/
def UnaryOp.apply (D : DoubleOps) (op : UnaryOp) (s : Scalar) : Option Cell :=
  match s.cell with
  | none => some none
  | some x =>
    match op with
    | .not => (intElement s.type x).map fun v => some (.int (if v = 0 then 1 else 0))
    | .neg =>
      match s.type.storageClass, x with
      | .float, .float bits => some (some (.float (D.neg bits)))
      | .int, .int v => (checkedSub 0 v).map fun v => some (.int v)
      | _, _ => none
    | .other =>
      match s.type.storageClass with
      | .int => some (some (.int 0))
      | .float => some (some (.float 0))
      | .str => some (some (.str []))
      | .none => none

/-- `ApplyCast` on one row. What is not handled is copied, with its type. -/
def applyCast (D : DoubleOps) (fromType toType : TypeId) (s : Scalar) : Option Scalar :=
  match s.cell with
  | none => some { type := toType, cell := none }
  | some x =>
    if fromType = .int64 ∧ toType.storageClass = .float then
      (intElement s.type x).map fun v => { type := toType, cell := some (.float (D.ofInt v)) }
    else if fromType.storageClass = .float ∧ toType = .int64 then
      match s.type.storageClass, x with
      | .float, .float bits =>
        (D.toInt bits).map fun v => { type := toType, cell := some (.int v) }
      | _, _ => none
    else some s

/-! ## Evaluation -/

/-- `DataVectorFill`: a literal as a row. A BOOLEAN is taken from the integers of the
variant too. -/
def Value.fill (v : Value) : Except Error Scalar :=
  match v.type.storageClass, v.data with
  | .int, .int x => .ok { type := v.type, cell := some (.int x) }
  | .float, .float bits => .ok { type := v.type, cell := some (.float bits) }
  | .str, .str s => .ok { type := v.type, cell := some (.str s) }
  | .none, _ => .ok { type := v.type, cell := none }
  | _, _ => .error Error.badVariant

namespace Expr

/-- `ExprEvaluator::Evaluate` on one row, whose columns are given by their position. -/
def eval (D : DoubleOps) (row : ℕ → Option Scalar) : Expr → Option (Except Error Scalar)
  | .columnRef _ c => (row c).map .ok
  | .literal type v isNull =>
    if isNull then
      some (.ok { type := if type = .invalid then .int64 else type, cell := none })
    else some v.fill
  | .binaryOp type op left right =>
    match left.eval D row with
    | none => none
    | some (.error e) => some (.error e)
    | some (.ok l) =>
      match right.eval D row with
      | none => none
      | some (.error e) => some (.error e)
      | some (.ok r) => (op.apply D type l r).map fun cell => .ok { type, cell }
  | .unaryOp _ op child =>
    match child.eval D row with
    | none => none
    | some (.error e) => some (.error e)
    | some (.ok s) => (op.apply D s).map fun cell => .ok { type := s.type, cell }
  | .cast type fromType child =>
    match child.eval D row with
    | none => none
    | some (.error e) => some (.error e)
    | some (.ok s) => (applyCast D fromType type s).map .ok
  | .aggregate _ =>
    some (.error (.runtime (text "aggregate expression cannot be evaluated in scalar context")))

/-- The test of `EvaluatePredicate` on one row: not NULL and not 0. -/
def holds (D : DoubleOps) (row : ℕ → Option Scalar) (e : Expr) : Option (Except Error Bool) :=
  match e.eval D row with
  | none => none
  | some (.error e) => some (.error e)
  | some (.ok s) =>
    match s.cell with
    | none => some (.ok false)
    | some x => (intElement s.type x).map fun v => .ok (decide (v ≠ 0))

/-! ## Columns of an expression -/

/-- `CollectFilterCols`: the positions that occur in an expression. -/
def columns : Expr → List ℕ
  | .columnRef _ c => [c]
  | .literal .. | .aggregate _ => []
  | .binaryOp _ _ left right => left.columns ++ right.columns
  | .unaryOp _ _ child | .cast _ _ child => child.columns

/-- `CloneAndRemap`. -/
def remap (f : ℕ → ℕ) : Expr → Expr
  | .columnRef type c => .columnRef type (f c)
  | .literal type v isNull => .literal type v isNull
  | .binaryOp type op left right => .binaryOp type op (left.remap f) (right.remap f)
  | .unaryOp type op child => .unaryOp type op (child.remap f)
  | .cast type fromType child => .cast type fromType (child.remap f)
  | .aggregate type => .aggregate type

variable {row row' : ℕ → Option Scalar} {f : ℕ → ℕ} {D : DoubleOps} {e : Expr}

/-- **Remapping**: the value only depends on the columns that occur. -/
theorem eval_remap
    (h : ∀ c ∈ e.columns, row' (f c) = row c) : (e.remap f).eval D row' = e.eval D row := by
  induction e with
  | columnRef type c => rw [remap, eval, eval, h c (List.mem_singleton_self c)]
  | literal type v isNull => rfl
  | aggregate type => rfl
  | binaryOp type op left right ihl ihr =>
    obtain ⟨hl, hr⟩ := List.forall_mem_append.mp h
    simp only [remap, eval, ihl hl, ihr hr]
  | unaryOp type op child ih => simp only [remap, eval, ih h]
  | cast type fromType child ih => simp only [remap, eval, ih h]

theorem holds_remap
    (h : ∀ c ∈ e.columns, row' (f c) = row c) : (e.remap f).holds D row' = e.holds D row := by
  rw [holds, holds, eval_remap h]

/-! ## Zone-map predicates -/

/-- The operator of a comparison, and the same with its operands exchanged. -/
def scanOp (flipped : Bool) : BinaryOp → Option ScanPredicateOp
  | .eq => some .eq
  | .lt => some (if flipped then .gt else .lt)
  | .le => some (if flipped then .ge else .le)
  | .gt => some (if flipped then .lt else .gt)
  | .ge => some (if flipped then .le else .ge)
  | _ => none

/-- `TryExtractPredicate`. -/
def tryExtractPredicate : Expr → Option ScanPredicate
  | .binaryOp _ op (.columnRef _ c) (.literal _ v false) =>
    (scanOp false op).map fun op => { colIdx := c, op, bound := v }
  | .binaryOp _ op (.literal _ v false) (.columnRef _ c) =>
    (scanOp true op).map fun op => { colIdx := c, op, bound := v }
  | _ => none

end Expr

end CppColDB
