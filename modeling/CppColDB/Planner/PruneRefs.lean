import CppColDB.Planner.Prune

/-!
# Column references of a pruned plan

Which column of the table, or of the result of an aggregate, a position of an operator's input
holds, and what it means that the expressions of a physical plan refer to the columns to which
the binder resolved them.
-/

namespace CppColDB

open ByteCodec Except List

/-! ## References -/

/-- The columns, as the binder numbers them, in the chunks that a plan returns. -/
def PhysicalPlan.layout : PhysicalPlan → List ℕ
  | .tableScan columnIds _ => columnIds
  | .filter _ child | .limit _ _ child | .sort _ child => child.layout
  | .projection exprs _ => range exprs.length
  | .aggregation op _ _ => range (op.groupExprs.length + op.aggrExprs.length)

/-- `e` is a bound expression with every column replaced by a position that holds it. -/
def Expr.Indexes (layout : List ℕ) (bound e : Expr) : Prop :=
  ∃ f : ℕ → ℕ, e = bound.remap f ∧ ∀ c ∈ bound.columns, layout[f c]? = some c

def SortKey.Indexes (layout : List ℕ) (bound key : SortKey) : Prop :=
  key.ascending = bound.ascending ∧ bound.expr.Indexes layout key.expr

def AggrExpr.Indexes (layout : List ℕ) (bound agg : AggrExpr) : Prop :=
  agg.func = bound.func ∧ agg.isStar = bound.isStar ∧ agg.resultType = bound.resultType ∧
    (bound.isStar = false → bound.arg.Indexes layout agg.arg)

/-- Every column reference of a physical plan is the position, in the input of its operator,
of the column in the logical plan. -/
def LogicalPlan.Resolves : LogicalPlan → PhysicalPlan → Prop
  | .get node, .tableScan columnIds filters =>
    Forall₂ (Expr.Indexes columnIds) node.pushedFilters filters
  | .filter predicate _ child, .filter predicate' child' =>
    predicate.Indexes child'.layout predicate' ∧ child.Resolves child'
  | .projection exprs _ child, .projection exprs' child' =>
    Forall₂ (Expr.Indexes child'.layout) exprs exprs' ∧ child.Resolves child'
  | .limit rows offset _ child, .limit rows' offset' child' =>
    rows' = rows ∧ offset' = offset ∧ child.Resolves child'
  | .sort keys _ child, .sort op child' =>
    Forall₂ (SortKey.Indexes child'.layout) keys op.sortKeys ∧ child.Resolves child'
  | .aggregate groups aggs _ child, .aggregation op _ child' =>
    Forall₂ (Expr.Indexes child'.layout) groups op.groupExprs ∧
      Forall₂ (AggrExpr.Indexes child'.layout) aggs op.aggrExprs ∧ child.Resolves child'
  | _, _ => False

/-! ## Shapes of the binder's plans -/

/-- All columns of the expressions are below `n`. -/
def ColumnsBelow (n : ℕ) (exprs : List Expr) : Prop := ∀ e ∈ exprs, ∀ c ∈ e.columns, c < n

/-- Plans that return columns of a table with `n` columns. -/
inductive LogicalPlan.Scanned (n : ℕ) : LogicalPlan → Prop
  | get {node : LogicalGet} (hids : node.columnIds = range n)
      (hfilters : ColumnsBelow n node.pushedFilters) : Scanned n (.get node)
  | filter {predicate : Expr} {output : OutputSchema} {child : LogicalPlan}
      (hpred : ColumnsBelow n [predicate]) (hchild : Scanned n child) :
      Scanned n (.filter predicate output child)
  | sort {keys : List SortKey} {output : OutputSchema} {child : LogicalPlan}
      (hkeys : ColumnsBelow n (keys.map SortKey.expr)) (hchild : Scanned n child) :
      Scanned n (.sort keys output child)

/-- Plans of a query without aggregates. -/
inductive LogicalPlan.Plain (n : ℕ) : LogicalPlan → Prop
  | projection {exprs : List Expr} {output : OutputSchema} {child : LogicalPlan}
      (hexprs : ColumnsBelow n exprs) (hchild : Scanned n child) :
      Plain n (.projection exprs output child)
  | limit {rows offset : Int64} {output : OutputSchema} {child : LogicalPlan}
      (hchild : Plain n child) : Plain n (.limit rows offset output child)

/-- Plans with an aggregate that return `w` columns. -/
inductive LogicalPlan.Grouped (n : ℕ) : ℕ → LogicalPlan → Prop
  | aggregate {groups : List Expr} {aggs : List AggrExpr} {output : OutputSchema}
      {child : LogicalPlan} (hgroups : ColumnsBelow n groups)
      (haggs : ∀ agg ∈ aggs, ∀ c ∈ agg.columns, c < n) (hchild : Scanned n child) :
      Grouped n (groups.length + aggs.length) (.aggregate groups aggs output child)
  | projection {w : ℕ} {exprs : List Expr} {output : OutputSchema} {child : LogicalPlan}
      (hexprs : ColumnsBelow w exprs) (hchild : Grouped n w child) :
      Grouped n exprs.length (.projection exprs output child)
  | sort {w : ℕ} {keys : List SortKey} {output : OutputSchema} {child : LogicalPlan}
      (hkeys : ColumnsBelow w (keys.map SortKey.expr)) (hchild : Grouped n w child) :
      Grouped n w (.sort keys output child)
  | limit {w : ℕ} {rows offset : Int64} {output : OutputSchema} {child : LogicalPlan}
      (hchild : Grouped n w child) : Grouped n w (.limit rows offset output child)

namespace Binder

variable {ctx : BindContext} {n : ℕ} {e : Expr}

/-! ## The binder builds these shapes -/

/-- The columns of a context are below `n`. -/
def Below (n : ℕ) (ctx : BindContext) : Prop := ∀ b ∈ ctx, b.columnIdx < n

theorem below_addTable (name : Bytes) (columns : OutputSchema) :
    Below columns.length (BindContext.addTable [] name columns 0) := by
  intro b hb
  rw [BindContext.addTable, nil_append, mem_mapIdx] at hb
  obtain ⟨i, hi, rfl⟩ := hb
  dsimp only
  omega

theorem columns_coerce (e : Expr) (type : TypeId) : (coerce e type).columns = e.columns := by
  rw [coerce]
  split
  · rfl
  · rfl

theorem columns_inferBinaryType {op : BinaryOp} {left right left' right' : Expr} {type : TypeId}
    (h : inferBinaryType op left right = .ok (type, left', right')) :
    left'.columns = left.columns ∧ right'.columns = right.columns := by
  rw [inferBinaryType] at h
  split_ifs at h <;> cases h <;> exact ⟨by simp [columns_coerce], by simp [columns_coerce]⟩

theorem columns_bindExpr (hctx : Below n ctx) {p : ParsedExpr}
    (h : bindExpr ctx p = .ok e) : ∀ c ∈ e.columns, c < n := by
  induction p generalizing e with
  | columnRef table name =>
    obtain ⟨b, hb, rfl⟩ := exists_bindExpr_columnRef h
    intro c hc
    rw [mem_singleton.mp hc]
    exact hctx b hb
  | binaryOp op left right ihl ihr =>
    obtain ⟨l, hl, h⟩ := bind_eq_ok_iff.mp h
    obtain ⟨r, hr, h⟩ := bind_eq_ok_iff.mp h
    obtain ⟨⟨type, l', r'⟩, hinfer, h⟩ := bind_eq_ok_iff.mp h
    cases h
    obtain ⟨hl', hr'⟩ := columns_inferBinaryType hinfer
    intro c hc
    rw [Expr.columns, hl', hr', mem_append] at hc
    exact hc.elim (ihl hl c) (ihr hr c)
  | unaryOp op operand ih =>
    obtain ⟨child, hchild, h⟩ := bind_eq_ok_iff.mp h
    split_ifs at h
    cases h
    have hbelow := ih hchild
    exact hbelow
  | integerLit v => cases h; exact nofun
  | floatLit v => cases h; exact nofun
  | stringLit v => cases h; exact nofun
  | boolLit v => cases h; exact nofun
  | nullLit => cases h; exact nofun
  | functionCall name => cases h
  | star => cases h

variable {stmt : SelectStatement} {columns : OutputSchema} {plan : LogicalPlan}

theorem scanned_bindSource (hctx : Below columns.length ctx)
    (h : bindSource stmt columns ctx = .ok plan) :
    plan.Scanned columns.length := by
  have hget : LogicalPlan.Scanned columns.length
      (.get { columnIds := range columns.length, output := columns }) :=
    .get rfl (forall_mem_nil _)
  rw [bindSource] at h
  cases hw : stmt.whereClause with
  | none =>
    rw [hw] at h
    cases h
    exact hget
  | some w =>
    rw [hw] at h
    obtain ⟨predicate, hpred, h⟩ := bind_eq_ok_iff.mp h
    split_ifs at h
    cases h
    exact .filter (forall_mem_singleton.mpr (columns_bindExpr hctx hpred)) hget

variable {source : LogicalPlan} {exprs : List (Expr × Bytes)}

theorem bindOrderBy_cases {bindKey : ParsedExpr → Except Error Expr}
    (h : bindOrderBy bindKey stmt source = .ok plan) :
    plan = source ∨ ∃ keys : List SortKey, plan = .sort keys source.output source ∧
      ∀ e ∈ keys.map SortKey.expr, ∃ p, bindKey p = .ok e := by
  rw [bindOrderBy] at h
  split_ifs at h
  · exact .inl (ok.inj h).symm
  · obtain ⟨keys, hkeys, h⟩ := bind_eq_ok_iff.mp h
    refine .inr ⟨keys, (ok.inj h).symm, ?_⟩
    intro e he
    obtain ⟨key, hkey, rfl⟩ := mem_map.mp he
    obtain ⟨p, -, hp⟩ := (mapM_eq_ok_iff.mp hkeys).exists_of_mem_right hkey
    obtain ⟨e, hbind, hp⟩ := bind_eq_ok_iff.mp hp
    cases hp
    exact ⟨p.1, hbind⟩

theorem bindLimit_cases (h : bindLimit stmt source = .ok plan) :
    plan = source ∨ ∃ rows offset, plan = .limit rows offset source.output source := by
  rw [bindLimit] at h
  split at h
  · exact .inl (ok.inj h).symm
  · split_ifs at h
    exact .inr ⟨_, _, (ok.inj h).symm⟩

theorem columnsBelow_selectItem (hctx : Below n ctx) {item : SelectItem}
    (h : bindSelectItem ctx item = .ok exprs) :
    ColumnsBelow n (exprs.map Prod.fst) := by
  have hsingle : ∀ {p : ParsedExpr} {e : Expr} {name : Bytes}, bindExpr ctx p = .ok e →
      ColumnsBelow n ([(e, name)].map Prod.fst) := fun h =>
    forall_mem_singleton.mpr (columns_bindExpr hctx h)
  rw [bindSelectItem.eq_def] at h
  split at h
  · cases h
    intro e he c hc
    simp only [map_map, mem_map] at he
    obtain ⟨b, hb, rfl⟩ := he
    rw [mem_singleton.mp hc]
    exact hctx b hb
  · obtain ⟨bound, hbound, h⟩ := bind_eq_ok_iff.mp h
    split at h <;> cases h <;> exact hsingle hbound
  · cases h

variable {output : OutputSchema} {items : List SelectItem}

theorem plain_bindSelect {exprs : List (List (Expr × Bytes))} (hctx : Below columns.length ctx)
    (hsource : source.Scanned columns.length)
    (hexprs : stmt.selectList.mapM (bindSelectItem ctx) = .ok exprs)
    (h : bindLimit stmt (.projection (exprs.flatten.map Prod.fst) output source) = .ok plan) :
    plan.Plain columns.length := by
  have hbelow : ColumnsBelow columns.length (exprs.flatten.map Prod.fst) := by
    intro e he
    obtain ⟨p, hp, rfl⟩ := mem_map.mp he
    obtain ⟨part, hpart, hp⟩ := mem_flatten.mp hp
    obtain ⟨item, -, hitem⟩ := (mapM_eq_ok_iff.mp hexprs).exists_of_mem_right hpart
    exact columnsBelow_selectItem hctx hitem _ (mem_map_of_mem hp)
  obtain rfl | ⟨rows, offset, rfl⟩ := bindLimit_cases h
  · exact .projection hbelow hsource
  · exact .limit (.projection hbelow hsource)

theorem columns_bindAggregate (hctx : Below n ctx) {f : FunctionCall} {agg : AggrExpr}
    (h : bindAggregate ctx f = .ok agg) : ∀ c ∈ agg.columns, c < n := by
  obtain ⟨func, -, h⟩ := bind_eq_ok_iff.mp h
  split at h
  · cases h
    exact nofun
  · split at h
    · cases h
    · obtain ⟨arg, harg, h⟩ := bind_eq_ok_iff.mp h
      have hbelow := columns_bindExpr hctx harg
      split at h <;> cases h
      case h_5 =>
        intro c hc
        split at hc
        · exact hbelow c (columns_coerce arg _ ▸ hc)
        · exact hbelow c hc
      all_goals exact hbelow

theorem columns_collectAggr (hctx : Below n ctx) {aggs : List (AggrExpr × Bytes)}
    (h : collectAggr ctx items = .ok aggs) :
    ∀ agg ∈ aggs.map Prod.fst, ∀ c ∈ agg.columns, c < n := by
  induction items generalizing aggs with
  | nil =>
    cases h
    exact nofun
  | cons item items ih =>
    cases item with
    | expr e => exact ih h
    | call f =>
      obtain ⟨agg, hagg, h⟩ := bind_eq_ok_iff.mp h
      obtain ⟨rest, hrest, h⟩ := bind_eq_ok_iff.mp h
      cases h
      exact forall_mem_cons.mpr ⟨columns_bindAggregate hctx hagg, ih hrest⟩

theorem lt_of_resultRef {pos : ℕ} {e : Expr × Bytes}
    (h : resultRef output pos = some e) : ∀ c ∈ e.1.columns, c < output.length := by
  obtain ⟨col, hcol, rfl⟩ := Option.map_eq_some_iff.mp h
  intro c hc
  rw [mem_singleton.mp hc]
  exact (List.getElem?_eq_some_iff.mp hcol).1

theorem columnsBelow_bindPostAgg {groups cursor : ℕ}
    (h : bindPostAgg groups output cursor items = .ok exprs) :
    ColumnsBelow output.length (exprs.map Prod.fst) := by
  have hcons : ∀ {refs rest : List (Expr × Bytes)},
      (∀ e ∈ refs, ∃ pos, resultRef output pos = some e) →
      ColumnsBelow output.length (rest.map Prod.fst) →
      ColumnsBelow output.length ((refs ++ rest).map Prod.fst) := by
    intro refs rest hrefs hrest
    rw [map_append]
    refine forall_mem_append.mpr ⟨fun e he => ?_, hrest⟩
    obtain ⟨p, hp, rfl⟩ := mem_map.mp he
    obtain ⟨pos, hpos⟩ := hrefs p hp
    exact lt_of_resultRef hpos
  have hone : ∀ {pos : ℕ}, ∀ e ∈ (resultRef output pos).toList,
      ∃ pos, resultRef output pos = some e := fun e he => ⟨_, Option.mem_toList.mp he⟩
  fun_induction bindPostAgg groups output cursor items generalizing exprs with
  | case1 =>
    cases h
    exact nofun
  | case2 cursor items ih =>
    obtain ⟨rest, hrest, h⟩ := bind_eq_ok_iff.mp h
    cases h
    refine hcons (fun e he => ?_) (ih hrest)
    obtain ⟨pos, -, hpos⟩ := mem_filterMap.mp he
    exact ⟨pos, hpos⟩
  | case3 cursor f items ih | case4 cursor table name items i hi ih =>
    obtain ⟨rest, hrest, h⟩ := bind_eq_ok_iff.mp h
    cases h
    exact hcons hone (ih hrest)
  | case5 => cases h
  | case6 => cases h

theorem columnsBelow_resultKey (hctx : Below n ctx) {key : ParsedExpr}
    (h : bindResultKey ctx key = .ok e) : ∀ c ∈ e.columns, c < n := by
  rw [bindResultKey] at h
  split at h
  case h_1 e' hbind =>
    cases h
    exact columns_bindExpr hctx hbind
  case h_2 =>
    split at h
    · split_ifs at h
      exact columns_bindExpr hctx h
    · cases h

theorem grouped_bindAggregateSelect (hctx : Below n ctx) (hsource : source.Scanned n)
    (h : bindAggregateSelect stmt ctx source = .ok plan) :
    plan.Grouped n plan.output.length := by
  obtain ⟨groups, hgroups, h⟩ := bind_eq_ok_iff.mp h
  obtain ⟨aggs, haggs, h⟩ := bind_eq_ok_iff.mp h
  obtain ⟨exprs, hexprs, h⟩ := bind_eq_ok_iff.mp h
  cases h
  have hbelow : ColumnsBelow n (groups.map Prod.fst) := by
    intro e he
    obtain ⟨p, hp, rfl⟩ := mem_map.mp he
    obtain ⟨g, -, hg⟩ := (mapM_eq_ok_iff.mp hgroups).exists_of_mem_right hp
    obtain ⟨e, hbind, hg⟩ := bind_eq_ok_iff.mp hg
    split at hg <;> cases hg <;> exact columns_bindExpr hctx hbind
  have hpost := columnsBelow_bindPostAgg hexprs
  have hwidth : (selectOutput exprs).length = (exprs.map Prod.fst).length := by
    simp [selectOutput]
  rw [LogicalPlan.output, hwidth]
  refine .projection ?_ (.aggregate hbelow (columns_collectAggr hctx haggs) hsource)
  simpa [selectOutput] using hpost

/-- **The binder's plans** either return columns of the table up to a projection, or go through
one aggregate. -/
theorem plain_or_grouped (h : bindSelect stmt columns = .ok plan) :
    plan.Plain columns.length ∨ ∃ w, plan.Grouped columns.length w := by
  have hctx := below_addTable stmt.fromTable columns
  obtain ⟨source, hsource, h⟩ := bind_eq_ok_iff.mp h
  have hscanned := scanned_bindSource hctx hsource
  split at h
  · obtain ⟨top, htop, h⟩ := bind_eq_ok_iff.mp h
    obtain ⟨sorted, hsorted, h⟩ := bind_eq_ok_iff.mp h
    have htop := grouped_bindAggregateSelect hctx hscanned htop
    have hgrouped : sorted.Grouped columns.length top.output.length := by
      obtain rfl | ⟨keys, rfl, hkeys⟩ := bindOrderBy_cases hsorted
      · exact htop
      · refine .sort (fun e he => ?_) htop
        obtain ⟨p, hp⟩ := hkeys e he
        exact columnsBelow_resultKey (below_addTable _ _) hp
    obtain rfl | ⟨rows, offset, rfl⟩ := bindLimit_cases h
    · exact .inr ⟨_, hgrouped⟩
    · exact .inr ⟨_, .limit hgrouped⟩
  · obtain ⟨exprs, hexprs, h⟩ := bind_eq_ok_iff.mp h
    obtain ⟨sorted, hsorted, h⟩ := bind_eq_ok_iff.mp h
    refine .inl (plain_bindSelect hctx ?_ hexprs h)
    obtain rfl | ⟨keys, rfl, hkeys⟩ := bindOrderBy_cases hsorted
    · exact hscanned
    · refine .sort (fun e he => ?_) hscanned
      obtain ⟨p, hp⟩ := hkeys e he
      exact columns_bindExpr hctx hp

end Binder

end CppColDB
