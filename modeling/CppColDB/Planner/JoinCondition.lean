import CppColDB.Execution.ScanExact
import CppColDB.Planner.BindExpr

/-!
# The condition of an inner join

`BindSelectWithJoin` takes the column equalities between the two sides out of the condition,
as the keys of a hash join. The condition itself stays in the plan, where nothing reads it:
a pair of rows with equal keys is returned whatever the other conjuncts say.
-/

namespace CppColDB

open BinaryOp ByteCodec Except List Option Row Scalar

/-- A table with its rows, which have a cell for every column. -/
structure JoinTable where
  name : Bytes
  columns : List (Bytes × TypeId)
  rows : List Row
  width : ∀ row ∈ rows, row.length = columns.length

namespace JoinTable

variable (t : JoinTable)

def types : List TypeId := t.columns.map Prod.snd

end JoinTable

/-- What the binder builds for a join of two tables. -/
structure LogicalJoin where
  condition : Expr
  leftKeyColIds : List ℕ
  rightKeyColIds : List ℕ
  outputTypes : List TypeId

namespace Binder

/-- `ExtractEquiJoinKeys`: the columns of each equality between the two sides. -/
def extractEquiJoinKeys (leftCount : ℕ) : Expr → List (ℕ × ℕ)
  | .binaryOp _ .and left right =>
    extractEquiJoinKeys leftCount left ++ extractEquiJoinKeys leftCount right
  | .binaryOp _ .eq (.columnRef _ li) (.columnRef _ ri) =>
    if li < leftCount ∧ leftCount ≤ ri then [(li, ri - leftCount)]
    else if ri < leftCount ∧ leftCount ≤ li then [(ri, li - leftCount)]
    else []
  | _ => []

/-- The join of `BindSelectWithJoin`, for one JOIN clause. -/
def bindJoin (left right : JoinTable) (condition : ParsedExpr) : Except Error LogicalJoin := do
  let ctx := (BindContext.addTable [] left.name left.columns 0).addTable right.name right.columns
    left.columns.length
  let condition ← bindExpr ctx condition
  let keys := extractEquiJoinKeys left.columns.length condition
  pure {
    condition, leftKeyColIds := keys.map Prod.fst, rightKeyColIds := keys.map Prod.snd
    outputTypes := left.types ++ right.types }

end Binder

/-- `=` between two rows of a column each; NULL is equal to nothing. -/
def Scalar.equal (D : DoubleOps) (a b : Option Scalar) : Bool :=
  match a, b with
  | some ⟨s, some x⟩, some ⟨t, some y⟩ => eq.compareRows D s x t y = some true
  | _, _ => false

namespace LogicalJoin

variable (node : LogicalJoin) (D : DoubleOps) (left right : JoinTable)

/-- The keys of a pair of rows are equal. -/
def keysEqual (pair : Row × Row) : Bool :=
  (node.leftKeyColIds.zip node.rightKeyColIds).all fun k =>
    equal D (pair.1.scalars left.types k.1) (pair.2.scalars right.types k.2)

/-- The operators that `PlanJoin` makes of the plan: an equi-join on the two key lists. -/
def execute : List (Row × Row) := (left.rows ×ˢ right.rows).filter (node.keysEqual D left right)

/-- The condition on a pair of rows. -/
def accepts (pair : Row × Row) : Bool :=
  node.condition.holds D ((pair.1 ++ pair.2).scalars (left.types ++ right.types)) = some (.ok true)

/-- **The join honours its condition**: it returns the pairs on which the condition is true. -/
def HonoursCondition : Prop :=
  node.execute D left right = (left.rows ×ˢ right.rows).filter (node.accepts D left right)

end LogicalJoin

/-! ## Conjunctions -/

theorem BinaryOp.eq_true_of_boolCell {b : Bool} {v : Int64}
    (h : boolCell .boolean b = some (some (.int v))) (hne : v ≠ 0) : b = true := by
  cases b with
  | true => rfl
  | false =>
    cases h
    exact absurd rfl hne

theorem Double.eq_comm (a b : UInt64) : Double.eq a b = Double.eq b a := by
  rw [Double.eq, Double.eq, Bool.and_comm (!isNaN a), decide_eq_decide.mpr ⟨Eq.symm, Eq.symm⟩]

/-- `=` does not depend on the order of its operands. -/
theorem BinaryOp.compareRows_eq_comm (D : DoubleOps) (s t : TypeId) (x y : Datum) :
    eq.compareRows D s x t y = eq.compareRows D t y s x := by
  -- two operands that are fetched and compared can be fetched in any order
  have hfetch : ∀ {α : Type} (equal : α → α → Bool) (a b : Option α),
      (∀ x y, equal x y = equal y x) →
      (a.bind fun x => b.bind fun y => some (equal x y)) =
        b.bind fun y => a.bind fun x => some (equal y x) := by
    intro α equal a b hcomm
    cases a <;> cases b <;> simp [hcomm]
  have hint := hfetch (fun a b : Int64 => decide (a = b)) (intElement s x) (intElement t y)
    fun a b => decide_eq_decide.mpr ⟨Eq.symm, Eq.symm⟩
  have hdouble := hfetch Double.eq (D.number s x) (D.number t y) Double.eq_comm
  unfold compareRows
  cases hs : s.storageClass <;> cases ht : t.storageClass <;> first
    | exact hint
    | exact hdouble
    | skip
  cases x <;> cases y <;> first | rfl | skip
  exact congrArg some (decide_eq_decide.mpr ⟨Eq.symm, Eq.symm⟩)

theorem Scalar.equal_comm (D : DoubleOps) (a b : Option Scalar) :
    equal D a b = equal D b a := by
  match a, b with
  | none, none | none, some ⟨_, none⟩ | none, some ⟨_, some _⟩ | some ⟨_, none⟩, none
  | some ⟨_, some _⟩, none | some ⟨_, none⟩, some ⟨_, none⟩ | some ⟨_, none⟩, some ⟨_, some _⟩
  | some ⟨_, some _⟩, some ⟨_, none⟩ => rfl
  | some ⟨s, some x⟩, some ⟨t, some y⟩ =>
    rw [equal, equal, compareRows_eq_comm]

namespace Expr

variable {D : DoubleOps} {row : ℕ → Option Scalar} {e left right : Expr}

/-- The conditions that AND connects. -/
def conjuncts : Expr → List Expr
  | .binaryOp _ .and left right => left.conjuncts ++ right.conjuncts
  | e => [e]

/-- The ANDs and the equalities between them have the type BOOLEAN. -/
def Boolean : Expr → Prop
  | .binaryOp type .and left right => type = .boolean ∧ left.Boolean ∧ right.Boolean
  | .binaryOp type .eq _ _ => type = .boolean
  | _ => True

theorem holds_iff : e.holds D row = some (.ok true) ↔
    ∃ s x v, e.eval D row = some (.ok s) ∧ s.cell = some x ∧ intElement s.type x = some v ∧
      v ≠ 0 := by
  rw [holds]
  constructor
  · intro h
    split at h
    next => cases h
    next => cases h
    next s hs =>
      split at h
      next => cases h
      next x hx =>
        obtain ⟨v, hv, hne⟩ := map_eq_some_iff.mp h
        exact ⟨s, x, v, hs, hx, hv, by simpa using hne⟩
  · rintro ⟨s, x, v, hs, hx, hv, hne⟩
    simp [hs, hx, hv, hne]

/-- The truth value that an operator writes. -/
theorem holds_binaryOp {op : BinaryOp} : (binaryOp .boolean op left right).holds D row =
    some (.ok true) ↔ ∃ l r v, left.eval D row = some (.ok l) ∧ right.eval D row = some (.ok r) ∧
      op.apply D .boolean l r = some (some (.int v)) ∧ v ≠ 0 := by
  rw [holds_iff]
  constructor
  · rintro ⟨s, x, v, hs, hx, hv, hne⟩
    rw [eval] at hs
    split at hs
    next => cases hs
    next => cases hs
    next l hl =>
      split at hs
      next => cases hs
      next => cases hs
      next r hr =>
        obtain ⟨cell, hcell, hs⟩ := map_eq_some_iff.mp hs
        cases hs
        subst hx
        cases x with
        | int w =>
          obtain rfl : w = v := some.inj hv
          exact ⟨l, r, w, hl, hr, hcell, hne⟩
        | float w => cases hv
        | str w => cases hv
  · rintro ⟨l, r, v, hl, hr, hv, hne⟩
    refine ⟨⟨.boolean, some (.int v)⟩, .int v, v, ?_, rfl, rfl, hne⟩
    rw [eval, hl, hr]
    dsimp only
    rw [hv]
    rfl

/-- **AND** is true where both sides are. -/
theorem holds_and : (binaryOp .boolean .and left right).holds D row = some (.ok true) ↔
    left.holds D row = some (.ok true) ∧ right.holds D row = some (.ok true) := by
  rw [holds_binaryOp, holds_iff, holds_iff]
  constructor
  · rintro ⟨⟨lt, lc⟩, ⟨rt, rc⟩, v, hl, hr, hv, hne⟩
    cases lc with
    | none => cases hv
    | some a =>
      cases rc with
      | none => cases hv
      | some b =>
        obtain ⟨x, hx, hv⟩ := bind_eq_some_iff.mp hv
        obtain ⟨y, hy, hv⟩ := bind_eq_some_iff.mp hv
        have hboth : x ≠ 0 ∧ y ≠ 0 := by
          simpa using eq_true_of_boolCell hv hne
        exact ⟨⟨_, a, x, hl, rfl, hx, hboth.1⟩, ⟨_, b, y, hr, rfl, hy, hboth.2⟩⟩
  · rintro ⟨⟨l, a, x, hl, ha, hx, hxne⟩, ⟨r, b, y, hr, hb, hy, hyne⟩⟩
    refine ⟨l, r, 1, hl, hr, ?_, by decide⟩
    simp [apply, ha, hb, hx, hy, hxne, hyne, boolCell, TypeId.storageClass]

theorem holds_conjuncts (h : e.Boolean) : e.holds D row = some (.ok true) ↔
    ∀ f ∈ e.conjuncts, f.holds D row = some (.ok true) := by
  fun_induction conjuncts e with
  | case1 type left right ihl ihr =>
    obtain ⟨rfl, hl, hr⟩ := h
    rw [holds_and, forall_mem_append, ihl hl, ihr hr]
  | case2 e hne => rw [forall_mem_singleton]

theorem of_mem_conjuncts {f : Expr} (h : e.Boolean) (hf : f ∈ e.conjuncts) :
    f.Boolean ∧ ∀ type left right, f ≠ .binaryOp type .and left right := by
  fun_induction conjuncts e with
  | case1 type left right ihl ihr =>
    obtain ⟨-, hl, hr⟩ := h
    exact (mem_append.mp hf).elim (ihl hl) (ihr hr)
  | case2 e hne =>
    obtain rfl := mem_singleton.mp hf
    exact ⟨h, hne⟩

/-- **A column equality** is true where the columns are equal. -/
theorem holds_columns_eq {s t : TypeId} {li ri : ℕ} :
    (binaryOp .boolean .eq (columnRef s li) (columnRef t ri)).holds D row = some (.ok true) ↔
      equal D (row li) (row ri) = true := by
  rw [holds_binaryOp]
  cases hl : row li with
  | none => simp [eval, hl, equal]
  | some l =>
    cases hr : row ri with
    | none => simp [eval, hr, equal]
    | some r =>
      obtain ⟨ls, lc⟩ := l
      obtain ⟨rs, rc⟩ := r
      cases lc with
      | none => simp [eval, hl, equal, apply]
      | some a =>
        cases rc with
        | none => simp [eval, hr, equal, apply]
        | some b =>
          rw [equal, decide_eq_true_eq]
          constructor
          · rintro ⟨l, r, v, hl', hr', hv, hne⟩
            rw [eval, hl] at hl'
            rw [eval, hr] at hr'
            cases hl'
            cases hr'
            obtain ⟨res, hres, hcell⟩ := bind_eq_some_iff.mp hv
            rw [hres, eq_true_of_boolCell hcell hne]
          · intro h
            refine ⟨⟨ls, some a⟩, ⟨rs, some b⟩, 1, by rw [eval, hl]; rfl,
              by rw [eval, hr]; rfl, ?_, by decide⟩
            exact bind_eq_some_iff.mpr ⟨true, h, rfl⟩

end Expr

/-! ## What the binder builds -/

namespace Binder

theorem inferBinaryType_boolean {op : BinaryOp} {left right left' right' : Expr} {type : TypeId}
    (h : inferBinaryType op left right = .ok (type, left', right')) :
    (op = .and → type = .boolean ∧ left' = left ∧ right' = right) ∧
      (op = .eq → type = .boolean) := by
  constructor
  · rintro rfl
    simp only [inferBinaryType, isArithmetic, isComparison, Bool.false_eq_true,
      if_false, true_or, if_true] at h
    split at h
    · cases h
    · split at h
      · cases h
      · cases h
        exact ⟨rfl, rfl, rfl⟩
  · rintro rfl
    simp only [inferBinaryType, isArithmetic, isComparison, Bool.false_eq_true,
      if_false, if_true] at h
    split at h
    · cases h
      rfl
    · split at h
      · cases h
        rfl
      · cases h

/-- ANDs and equalities are bound as BOOLEAN. -/
theorem bindExpr_boolean {ctx : BindContext} {c : ParsedExpr} {e : Expr}
    (h : bindExpr ctx c = .ok e) : e.Boolean := by
  induction c generalizing e with
  | binaryOp op left right ihl ihr =>
    obtain ⟨l, hl, h⟩ := bind_eq_ok_iff.mp h
    obtain ⟨r, hr, h⟩ := bind_eq_ok_iff.mp h
    obtain ⟨⟨type, l', r'⟩, hinfer, h⟩ := bind_eq_ok_iff.mp h
    cases h
    obtain ⟨hand, heq⟩ := inferBinaryType_boolean hinfer
    cases op with
    | and =>
      obtain ⟨rfl, rfl, rfl⟩ := hand rfl
      exact ⟨rfl, ihl hl, ihr hr⟩
    | eq => exact heq rfl
    | _ => trivial
  | columnRef tableName columnName =>
    rw [bindExpr] at h
    split at h <;>
    · obtain ⟨b, -, h⟩ := bind_eq_ok_iff.mp h
      cases h
      trivial
  | unaryOp op operand ih =>
    obtain ⟨child, -, h⟩ := bind_eq_ok_iff.mp h
    split at h
    · cases h
    · split at h
      · cases h
      · cases h
        trivial
  | integerLit v | floatLit v | stringLit v | boolLit v =>
    cases h
    trivial
  | nullLit =>
    cases h
    trivial
  | functionCall name => cases h
  | star => cases h

/-- The keys are those of the conjuncts. -/
theorem extractEquiJoinKeys_eq (n : ℕ) (e : Expr) :
    extractEquiJoinKeys n e = e.conjuncts.flatMap (extractEquiJoinKeys n) := by
  fun_induction Expr.conjuncts e with
  | case1 type left right ihl ihr => rw [extractEquiJoinKeys, ihl, ihr, flatMap_append]
  | case2 e hne => rw [flatMap_singleton]

/-- A conjunct with a key is an equality of two columns. -/
theorem exists_of_extractEquiJoinKeys {n : ℕ} {e : Expr} {k : ℕ × ℕ}
    (he : ∀ type left right, e ≠ .binaryOp type .and left right)
    (hk : k ∈ extractEquiJoinKeys n e) :
    extractEquiJoinKeys n e = [k] ∧ ∃ type s t li ri, e = .binaryOp type .eq (.columnRef s li)
      (.columnRef t ri) ∧ ((li = k.1 ∧ ri = n + k.2) ∨ (ri = k.1 ∧ li = n + k.2)) ∧ k.1 < n := by
  revert hk
  fun_cases extractEquiJoinKeys n e with
  | case1 type left right => exact absurd rfl (he type left right)
  | case2 type s li t ri hlt =>
    intro hk
    obtain rfl := mem_singleton.mp hk
    exact ⟨rfl, type, s, t, li, ri, rfl, .inl ⟨rfl, by omega⟩, hlt.1⟩
  | case3 type s li t ri _ hlt =>
    intro hk
    obtain rfl := mem_singleton.mp hk
    exact ⟨rfl, type, s, t, li, ri, rfl, .inr ⟨rfl, by omega⟩, hlt.1⟩
  | case4 => exact fun hk => absurd hk not_mem_nil
  | case5 => exact fun hk => absurd hk not_mem_nil

end Binder

/-! ## The keys and the rest of the condition -/

variable {ls rs : List TypeId} {l r : Row}

theorem Row.scalars_append_left {p : ℕ} (hl : l.length = ls.length) (hp : p < ls.length) :
    scalars (ls ++ rs) (l ++ r) p = l.scalars ls p := by
  rw [scalars, scalars, getElem?_append_left hp, getElem?_append_left (hl ▸ hp)]

theorem Row.scalars_append_right (p : ℕ) (hl : l.length = ls.length) :
    scalars (ls ++ rs) (l ++ r) (ls.length + p) = r.scalars rs p := by
  rw [scalars, scalars, getElem?_append_right (Nat.le_add_right _ _),
    getElem?_append_right (hl ▸ Nat.le_add_right _ _), hl, Nat.add_sub_cancel_left]

namespace LogicalJoin

variable {node : LogicalJoin} {D : DoubleOps} {left right : JoinTable} {condition : ParsedExpr}
  {l r : Row}

/-- The conjuncts that no key stands for. -/
def residual (node : LogicalJoin) (left : JoinTable) : List Expr :=
  node.condition.conjuncts.filter fun f =>
    Binder.extractEquiJoinKeys left.columns.length f = []

theorem of_bindJoin (h : Binder.bindJoin left right condition = .ok node) :
    node.condition.Boolean ∧ node.leftKeyColIds.zip node.rightKeyColIds =
      Binder.extractEquiJoinKeys left.columns.length node.condition := by
  obtain ⟨e, he, h⟩ := bind_eq_ok_iff.mp h
  cases h
  exact ⟨Binder.bindExpr_boolean he, by simp [zip_map']⟩

/-- A key of a conjunct is equal in a pair of rows where the conjunct is true. -/
theorem equal_key_iff {f : Expr} {k : ℕ × ℕ} (hf : f.Boolean)
    (hand : ∀ type left right, f ≠ .binaryOp type .and left right)
    (hk : k ∈ Binder.extractEquiJoinKeys left.columns.length f)
    (hl : l.length = left.types.length) :
    equal D (l.scalars left.types k.1) (r.scalars right.types k.2) = true ↔
      f.holds D ((l ++ r).scalars (left.types ++ right.types)) = some (.ok true) := by
  have hcount : left.columns.length = left.types.length := by simp [JoinTable.types]
  rw [hcount] at hk
  obtain ⟨-, type, s, t, li, ri, rfl, hside, hlt⟩ := Binder.exists_of_extractEquiJoinKeys hand hk
  obtain rfl : type = .boolean := hf
  rw [Expr.holds_columns_eq]
  obtain ⟨rfl, rfl⟩ | ⟨rfl, rfl⟩ := hside
  · rw [scalars_append_left hl hlt, scalars_append_right _ hl]
  · rw [scalars_append_left hl hlt, scalars_append_right _ hl, equal_comm]

/-- **The keys and the rest** together are the condition. -/
theorem accepts_iff (h : Binder.bindJoin left right condition = .ok node)
    (hl : l.length = left.types.length) :
    node.accepts D left right (l, r) = true ↔ node.keysEqual D left right (l, r) = true ∧
      ∀ f ∈ node.residual left,
        f.holds D ((l ++ r).scalars (left.types ++ right.types)) = some (.ok true) := by
  obtain ⟨hbool, hkeys⟩ := of_bindJoin h
  rw [accepts, decide_eq_true_eq, Expr.holds_conjuncts hbool, keysEqual, hkeys,
    Binder.extractEquiJoinKeys_eq, List.all_eq_true]
  constructor
  · intro hall
    refine ⟨fun k hk => ?_, fun f hf => hall f (mem_of_mem_filter hf)⟩
    obtain ⟨f, hf, hk⟩ := mem_flatMap.mp hk
    obtain ⟨hfb, hand⟩ := Expr.of_mem_conjuncts hbool hf
    exact (equal_key_iff hfb hand hk hl).mpr (hall f hf)
  · rintro ⟨hequal, hrest⟩ f hf
    cases hk : Binder.extractEquiJoinKeys left.columns.length f with
    | nil => exact hrest f (mem_filter.mpr ⟨hf, by simp [hk]⟩)
    | cons k ks =>
      have hk := hk ▸ mem_cons_self
      obtain ⟨hfb, hand⟩ := Expr.of_mem_conjuncts hbool hf
      exact (equal_key_iff hfb hand hk hl).mp (hequal k (mem_flatMap.mpr ⟨f, hf, hk⟩))

/-- **The condition of a join**: a join returns the pairs on which its condition is true, as
long as the conjuncts that are no key hold on every pair of rows with equal keys. -/
theorem honoursCondition_iff (D : DoubleOps) (left right : JoinTable) (condition : ParsedExpr)
    (node : LogicalJoin) (h : Binder.bindJoin left right condition = .ok node) :
    node.HonoursCondition D left right ↔ ∀ l ∈ left.rows, ∀ r ∈ right.rows,
      node.keysEqual D left right (l, r) = true → ∀ f ∈ node.residual left,
        f.holds D ((l ++ r).scalars (left.types ++ right.types)) = some (.ok true) := by
  have hwidth : ∀ l ∈ left.rows, l.length = left.types.length := fun l hl => by
    simp [left.width l hl, JoinTable.types]
  rw [HonoursCondition, execute]
  constructor
  · intro hsame l hl r hr hkeys
    have hmem :=
      mem_filter.mpr ⟨mem_product.mpr ⟨hl, hr⟩, hkeys⟩
    rw [hsame] at hmem
    exact ((accepts_iff h (hwidth l hl)).mp (mem_filter.mp hmem).2).2
  · intro hrest
    refine filter_congr fun pair hpair => ?_
    obtain ⟨hl, hr⟩ := mem_product.mp hpair
    rw [Bool.eq_iff_iff, accepts_iff h (hwidth pair.1 hl)]
    exact ⟨fun hkeys => ⟨hkeys, hrest _ hl _ hr hkeys⟩, And.left⟩

/-- A table of two INT64 columns `x` and `y` with one row. -/
def oneRowTable (name : Bytes) (x y : Int64) : JoinTable :=
  { name
    columns := [(text "x", .int64), (text "y", .int64)]
    rows := [[some (.int x), some (.int y)]]
    width := fun _ h => mem_singleton.mp h ▸ rfl }

/-- `a.column op b.column`. -/
def compareColumns (op : BinaryOp) (column : Bytes) : ParsedExpr :=
  .binaryOp op (.columnRef (text "a") column) (.columnRef (text "b") column)

/-- `ON a.x = b.x AND a.y < b.y`, over columns of both tables. -/
def sameXLessY : LogicalJoin :=
  { condition := .binaryOp .boolean .and
      (.binaryOp .boolean .eq (.columnRef .int64 0) (.columnRef .int64 2))
      (.binaryOp .boolean .lt (.columnRef .int64 1) (.columnRef .int64 3))
    leftKeyColIds := [0]
    rightKeyColIds := [0]
    outputTypes := [.int64, .int64, .int64, .int64] }

theorem bindJoin_sameXLessY (x y x' y' : Int64) :
    Binder.bindJoin (oneRowTable (text "a") x y) (oneRowTable (text "b") x' y')
      (.binaryOp .and (compareColumns .eq (text "x")) (compareColumns .lt (text "y"))) =
      .ok sameXLessY := by
  rfl

/-- The rows (1, 2) and (1, 3) are joined by `a.x = b.x AND a.y < b.y`. -/
theorem honoursCondition_of_less :
    sameXLessY.HonoursCondition TableScan.noDoubles (oneRowTable (text "a") 1 2)
      (oneRowTable (text "b") 1 3) := by
  refine (honoursCondition_iff TableScan.noDoubles _ _ _ _ (bindJoin_sameXLessY 1 2 1 3)).mpr ?_
  intro l hl r hr
  obtain rfl := mem_singleton.mp hl
  obtain rfl := mem_singleton.mp hr
  decide +kernel

/-- The rows (1, 5) and (1, 3) are joined by it as well. -/
theorem join_ignores_comparison :
    Binder.bindJoin (oneRowTable (text "a") 1 5) (oneRowTable (text "b") 1 3)
        (.binaryOp .and (compareColumns .eq (text "x")) (compareColumns .lt (text "y"))) =
        .ok sameXLessY ∧
      ¬ sameXLessY.HonoursCondition TableScan.noDoubles (oneRowTable (text "a") 1 5)
        (oneRowTable (text "b") 1 3) := by
  refine ⟨bindJoin_sameXLessY 1 5 1 3, ?_⟩
  rw [HonoursCondition]
  decide +kernel

end LogicalJoin

end CppColDB
