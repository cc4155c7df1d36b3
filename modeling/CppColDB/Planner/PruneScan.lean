import CppColDB.Execution.NarrowScan
import CppColDB.Planner.PruneRefs

/-!
# Pruning below the projection

A plan up to the projection, or up to the aggregate, keeps all columns that it uses or that are
required above it. Its references become positions of the pruned chunks, and it returns the
rows of the unpruned plan, narrowed to the columns that are kept.
-/

namespace CppColDB

/-! ## Predicate pushdown keeps the shapes -/

namespace Optimizer

open List

variable {n : ℕ} {plan : LogicalPlan}

theorem scanned_pushdown (h : plan.Scanned n) {pending : List Expr}
    (hpending : ColumnsBelow n pending) :
    ∃ plan', pushdown plan pending = (plan', []) ∧ plan'.Scanned n := by
  induction h generalizing pending with
  | get hids hfilters =>
    exact ⟨_, rfl, .get hids (forall_mem_append.mpr ⟨hfilters, hpending⟩)⟩
  | filter hpred _ ih =>
    obtain ⟨child, hchild, hscanned⟩ := ih (forall_mem_append.mpr ⟨hpending, hpred⟩)
    rw [pushdown, hchild]
    exact ⟨_, rfl, hscanned⟩
  | sort hkeys _ ih =>
    obtain ⟨child, hchild, hscanned⟩ := ih hpending
    rw [pushdown, hchild]
    exact ⟨_, rfl, .sort hkeys hscanned⟩

theorem plain_pushdown (h : plan.Plain n) :
    ∃ plan', pushdown plan [] = (plan', []) ∧ plan'.Plain n := by
  induction h with
  | projection hexprs hchild =>
    obtain ⟨child, hchild, hscanned⟩ := scanned_pushdown hchild (forall_mem_nil _)
    rw [pushdown, hchild]
    exact ⟨_, rfl, .projection hexprs hscanned⟩
  | limit _ ih =>
    obtain ⟨child, hchild, hplain⟩ := ih
    rw [pushdown, hchild]
    exact ⟨_, rfl, .limit hplain⟩

/-- No predicate goes below an aggregate. -/
theorem grouped_pushdown {w : ℕ} (h : plan.Grouped n w) :
    pushdown plan [] = (plan, []) := by
  induction h with
  | aggregate => rfl
  | projection _ _ ih => rw [pushdown, ih]; rfl
  | sort _ _ ih => rw [pushdown, ih]; rfl
  | limit _ ih => rw [pushdown, ih]; rfl

end Optimizer

/-! ## Positions -/

namespace PhysicalPlanner

variable {c : ℕ} {ids : List ℕ}

theorem foldl_position_of_notMem (h : c ∉ ids) (k pos : ℕ) :
    (ids.zipIdx k).foldl (fun pos p => if p.1 = c then p.2 else pos) pos = pos := by
  induction ids generalizing k pos with
  | nil => rfl
  | cons x ids ih =>
    obtain ⟨hx, hids⟩ := not_or.mp (mt List.mem_cons.mpr h)
    rw [List.zipIdx_cons, List.foldl_cons, if_neg (Ne.symm hx), ih hids]

theorem exists_foldl_position (h : c ∈ ids) (k pos : ℕ) :
    ∃ i, (ids.zipIdx k).foldl (fun pos p => if p.1 = c then p.2 else pos) pos = k + i ∧
      ids[i]? = some c := by
  induction ids generalizing k pos with
  | nil => cases h
  | cons x ids ih =>
    rw [List.zipIdx_cons, List.foldl_cons]
    by_cases hids : c ∈ ids
    · obtain ⟨i, hi, hget⟩ := ih hids (k + 1) (if x = c then k else pos)
      exact ⟨i + 1, by rw [hi]; omega, hget⟩
    · obtain rfl : c = x := (List.mem_cons.mp h).resolve_right hids
      exact ⟨0, by rw [foldl_position_of_notMem hids, if_pos rfl]; rfl, rfl⟩

/-- The position of a column that is read holds this column. -/
theorem getElem?_chunkPosition (h : c ∈ ids) :
    ids[chunkPosition ids c]? = some c := by
  obtain ⟨i, hi, hget⟩ := exists_foldl_position h 0 c
  rw [chunkPosition, hi, Nat.zero_add]
  exact hget

theorem chunkPosition_range (n c : ℕ) : chunkPosition (List.range n) c = c := by
  by_cases h : c ∈ List.range n
  · obtain ⟨hlt, heq⟩ := getElem?_eq_some_iff.mp (getElem?_chunkPosition h)
    rwa [List.getElem_range] at heq
  · exact foldl_position_of_notMem h 0 c

end PhysicalPlanner

variable {e : Expr}

theorem Expr.remap_eq_self {f : ℕ → ℕ} : e.remap f = e ↔ ∀ c ∈ e.columns, f c = c := by
  induction e with
  | columnRef type c => simp [remap, columns]
  | literal type v isNull => simp [remap, columns]
  | aggregate type => simp [remap, columns]
  | binaryOp type op left right ihl ihr =>
    simp only [remap, columns, Expr.binaryOp.injEq, true_and, ihl, ihr, List.forall_mem_append]
  | unaryOp type op child ih => simp only [remap, columns, Expr.unaryOp.injEq, true_and, ih]
  | cast type fromType child ih => simp only [remap, columns, Expr.cast.injEq, true_and, ih]

/-! ## The columns that are kept -/

namespace LogicalPlan

/-- The columns that a plan refers to, down to its scan. -/
def columns : LogicalPlan → List ℕ
  | .get node => node.pushedFilters.flatMap Expr.columns
  | .filter predicate _ child => predicate.columns ++ child.columns
  | .sort keys _ child => (keys.map SortKey.expr).flatMap Expr.columns ++ child.columns
  | .projection exprs _ child => exprs.flatMap Expr.columns ++ child.columns
  | .limit _ _ _ child => child.columns
  | .aggregate .. => []

end LogicalPlan

namespace Optimizer

/-- A scan of a table with `n` columns keeps the used ones. -/
structure Keeps (n : ℕ) (used : ℕ → Prop) (ids : List ℕ) : Prop where
  lt : ∀ c ∈ ids, c < n
  mem : ∀ c < n, used c → c ∈ ids

variable {n : ℕ} {node : LogicalGet} {required : Finset ℕ}

theorem map_fst_filter_zipIdx (ids : List ℕ) (p : ℕ → Bool) :
    (ids.zipIdx.filter fun x => p x.1).map Prod.fst = ids.filter p := by
  have hfilter : (fun x : ℕ × ℕ => p x.1) = p ∘ Prod.fst := rfl
  rw [hfilter, ← List.filter_map, List.zipIdx_map_fst]

/-- The columns of the table that a scan uses. -/
def usedColumns (n : ℕ) (node : LogicalGet) (required : Finset ℕ) : List ℕ :=
  (List.range n).filter fun c => decide (c ∈ collectColumnRefs node.pushedFilters required)

variable {c : ℕ}

theorem mem_usedColumns : c ∈ usedColumns n node required ↔
    c < n ∧ (c ∈ required ∨ c ∈ node.pushedFilters.flatMap Expr.columns) := by
  rw [usedColumns, List.mem_filter, List.mem_range, decide_eq_true_iff, collectColumnRefs,
    Finset.mem_union, List.mem_toFinset]

theorem columnIds_pruneGet (hids : node.columnIds = List.range n) (hreq : required ≠ ∅) :
    (pruneGet node required).columnIds =
      if usedColumns n node required = [] then (List.range n).take 1
      else usedColumns n node required := by
  have hkept := map_fst_filter_zipIdx node.columnIds fun c =>
    decide (c ∈ collectColumnRefs node.pushedFilters required)
  rw [hids] at hkept
  rw [pruneGet, if_neg hreq, hids, usedColumns, ← hkept]
  simp only [List.map_eq_nil_iff]
  split_ifs
  · rw [List.map_take, List.zipIdx_map_fst]
  · rfl

/-- A required column of the table makes the scan keep exactly what is used. -/
theorem columnIds_pruneGet_of_mem (hids : node.columnIds = List.range n) (hc : c < n)
    (hreq : c ∈ required) :
    (pruneGet node required).columnIds = usedColumns n node required := by
  rw [columnIds_pruneGet hids (Finset.ne_empty_of_mem hreq), if_neg]
  exact List.ne_nil_of_mem (mem_usedColumns.mpr ⟨hc, .inl hreq⟩)

theorem keeps_pruneGet (hids : node.columnIds = List.range n) : Keeps n
    (fun c => c ∈ required ∨ c ∈ node.pushedFilters.flatMap Expr.columns)
    (pruneGet node required).columnIds := by
  by_cases hreq : required = ∅
  · rw [pruneGet, if_pos hreq, hids]
    exact ⟨fun c hc => List.mem_range.mp hc, fun c hc _ => List.mem_range.mpr hc⟩
  · rw [columnIds_pruneGet hids hreq]
    split_ifs with hnil
    · refine ⟨fun c hc => List.mem_range.mp (List.mem_of_mem_take hc), fun c hc hused => ?_⟩
      exact absurd (mem_usedColumns.mpr ⟨hc, hused⟩) (hnil ▸ List.not_mem_nil)
    · exact ⟨fun c hc => (mem_usedColumns.mp hc).1,
        fun c hc hused => mem_usedColumns.mpr ⟨hc, hused⟩⟩

end Optimizer

/-! ## References below the projection -/

open Optimizer PhysicalPlanner

variable {used : ℕ → Prop} {n : ℕ} {ids : List ℕ}

theorem Optimizer.Keeps.mono {used' : ℕ → Prop} (h : Keeps n used ids)
    (hused : ∀ c, used' c → used c) : Keeps n used' ids :=
  ⟨h.lt, fun c hc hc' => h.mem c hc (hused c hc')⟩

variable {node : LogicalGet}

theorem Optimizer.Keeps.indexes (h : Keeps n used node.columnIds) (hlt : ∀ c ∈ e.columns, c < n)
    (hused : ∀ c ∈ e.columns, used c) :
    e.Indexes node.columnIds (remapColumnRefs (some node) e) :=
  ⟨_, rfl, fun c hc => getElem?_chunkPosition (h.mem c (hlt c hc) (hused c hc))⟩

variable {exprs : List Expr}

theorem Optimizer.Keeps.forall₂_indexes (h : Keeps n used node.columnIds)
    (hlt : ColumnsBelow n exprs) (hused : ∀ c ∈ exprs.flatMap Expr.columns, used c) :
    List.Forall₂ (Expr.Indexes node.columnIds) exprs
      (exprs.map (remapColumnRefs (some node))) := by
  rw [List.forall₂_map_right_iff, List.forall₂_same]
  exact fun e he => h.indexes (hlt e he) fun c hc => hused c (List.mem_flatMap_of_mem he hc)

variable {required : Finset ℕ} {c : ℕ}

theorem mem_collectColumnRefs :
    c ∈ collectColumnRefs exprs required ↔ c ∈ required ∨ c ∈ exprs.flatMap Expr.columns := by
  rw [collectColumnRefs, Finset.mem_union, List.mem_toFinset]

/-- What pruning leaves of a plan below the projection: the scan `node`, whose columns are those
of the chunks, with all references resolved. -/
structure LogicalPlan.Pruned (n : ℕ) (plan pruned : LogicalPlan) (required : Finset ℕ)
    (node : LogicalGet) : Prop where
  find : tryFindLogicalGet pruned = some node
  keeps : Keeps n (fun c => c ∈ required ∨ c ∈ plan.columns) node.columnIds
  layout : ∀ hint, (planNode hint pruned).layout = node.columnIds
  resolves : ∀ hint, plan.Resolves (planNode hint pruned)

variable {plan : LogicalPlan} {row : List Scalar}

theorem LogicalPlan.Scanned.exists_pruned (h : plan.Scanned n)
    (required : Finset ℕ) : ∃ node, plan.Pruned n (pruneColumns plan required) required node := by
  induction h generalizing required with
  | @get node hids hfilters =>
    have hkeeps := @keeps_pruneGet n node required hids
    refine ⟨pruneGet node required, rfl, hkeeps, fun _ => rfl, fun _ => ?_⟩
    have hpushed : (pruneGet node required).pushedFilters = node.pushedFilters := by
      rw [pruneGet]
      split <;> rfl
    rw [pruneColumns, planNode, hpushed]
    exact hkeeps.forall₂_indexes hfilters fun c hc => .inr hc
  | @filter predicate output child hpred _ ih =>
    obtain ⟨node, hnode⟩ := ih (collectColumnRefs [predicate] required)
    have hkeeps : Keeps n (fun c => c ∈ required ∨ c ∈ predicate.columns ++ child.columns)
        node.columnIds := hnode.keeps.mono fun c hc => by
      rw [mem_collectColumnRefs]
      simpa [or_assoc] using hc
    refine ⟨node, hnode.find, hkeeps, fun _ => hnode.layout none, fun hint => ?_⟩
    rw [pruneColumns, planNode, tryFindLogicalGet, hnode.find, LogicalPlan.Resolves,
      hnode.layout none]
    exact ⟨hkeeps.indexes (hpred _ (List.mem_singleton_self _))
      fun c hc => .inr (List.mem_append_left _ hc), hnode.resolves none⟩
  | @sort keys output child hkeys _ ih =>
    obtain ⟨node, hnode⟩ := ih (collectColumnRefs (keys.map SortKey.expr) required)
    have hkeeps : Keeps n (fun c => c ∈ required ∨
        c ∈ (keys.map SortKey.expr).flatMap Expr.columns ++ child.columns)
        node.columnIds := hnode.keeps.mono fun c hc => by
      rw [mem_collectColumnRefs]
      simpa [or_assoc] using hc
    refine ⟨node, hnode.find, hkeeps, fun _ => hnode.layout none, fun hint => ?_⟩
    rw [pruneColumns, planNode, tryFindLogicalGet, hnode.find, LogicalPlan.Resolves,
      hnode.layout none]
    refine ⟨?_, hnode.resolves none⟩
    rw [List.forall₂_map_right_iff, List.forall₂_same]
    intro key hkey
    have hexpr : key.expr ∈ keys.map SortKey.expr := List.mem_map_of_mem hkey
    exact ⟨rfl, hkeeps.indexes (hkeys _ hexpr) fun c hc =>
      .inr (List.mem_append_left _ (List.mem_flatMap_of_mem hexpr hc))⟩

/-- With a required column of the table, the scan keeps exactly what is required or used. -/
theorem LogicalPlan.Scanned.columnIds_eq (h : plan.Scanned n) (hc : c < n)
    (hreq : c ∈ required) (hfind : tryFindLogicalGet (pruneColumns plan required) = some node) :
    node.columnIds =
      (List.range n).filter fun c => decide (c ∈ required ∨ c ∈ plan.columns) := by
  induction h generalizing required with
  | get hids _ =>
    cases hfind
    rw [columnIds_pruneGet_of_mem hids hc hreq]
    exact List.filter_congr fun c _ => decide_eq_decide.mpr mem_collectColumnRefs
  | @filter predicate output child _ _ ih | @sort keys output child _ _ ih =>
    rw [ih (Finset.mem_union_left _ hreq) hfind]
    exact List.filter_congr fun c _ => by simp [LogicalPlan.columns, or_assoc]

/-! ## Rows below the projection -/

theorem LogicalPlan.Scanned.find (h : plan.Scanned n) :
    ∃ node, tryFindLogicalGet plan = some node ∧ node.columnIds = List.range n := by
  induction h with
  | @get node hids _ => exact ⟨node, rfl, hids⟩
  | filter _ _ ih => exact ih
  | sort _ _ ih => exact ih

theorem remapColumnRefs_range (h : node.columnIds = List.range n)
    (e : Expr) : remapColumnRefs (some node) e = e := by
  rw [remapColumnRefs, h]
  exact Expr.remap_eq_self.mpr fun c _ => chunkPosition_range n c

section Narrowing

variable {n : ℕ} {used : ℕ → Prop} {node : LogicalGet} {D : DoubleOps} {e : Expr}
  {row row' : List Scalar}

section

variable (hkeeps : Keeps n used node.columnIds) (hlt : ∀ c ∈ e.columns, c < n)
  (hused : ∀ c ∈ e.columns, used c) (h : RowNarrows node.columnIds row row')
include hkeeps hlt hused h

theorem RowNarrows.eval_eq :
    (remapColumnRefs (some node) e).eval D (row'[·]?) = e.eval D (row[·]?) :=
  Expr.eval_remap fun c hc =>
    h _ c (getElem?_chunkPosition (hkeeps.mem c (hlt c hc) (hused c hc)))

theorem RowNarrows.holds_eq :
    (remapColumnRefs (some node) e).holds D (row'[·]?) = e.holds D (row[·]?) := by
  rw [Expr.holds, Expr.holds, h.eval_eq hkeeps hlt hused]

end

variable {rows rows' : Batch}

section

variable (hkeeps : Keeps n used node.columnIds) (hlt : ∀ c ∈ e.columns, c < n)
  (hused : ∀ c ∈ e.columns, used c) (h : List.Forall₂ (RowNarrows node.columnIds) rows rows')
include hkeeps hlt hused h

theorem evalBatch_eq : e.evalBatch D rows = (remapColumnRefs (some node) e).evalBatch D rows' :=
  Fallible.traverse_congr h fun _ _ hrow => (hrow.eval_eq hkeeps hlt hused).symm

theorem lift_filterBatch :
    Fallible.Lift (List.Forall₂ (RowNarrows node.columnIds)) (e.filterBatch D rows)
      ((remapColumnRefs (some node) e).filterBatch D rows') := by
  induction h with
  | nil => exact .ok .nil
  | cons hrow _ ih =>
    refine (Fallible.Lift.of_eq (hrow.holds_eq hkeeps hlt hused).symm).bind ?_
    rintro keep _ rfl
    refine ih.bind fun rest rest' hrest => .ok ?_
    cases keep with
    | true => exact .cons hrow hrest
    | false => exact hrest

end

end Narrowing

/-! ### The operators -/

variable {D : DoubleOps}

theorem rel_getElem? {α β : Type} {R : α → β → Prop} {xs : List α} {ys : List β}
    (h : List.Forall₂ R xs ys) (i : ℕ) : Option.Rel R xs[i]? ys[i]? := by
  induction h generalizing i with
  | nil => exact .none
  | cons hxy _ ih =>
    cases i with
    | zero => exact .some hxy
    | succ i => exact ih i

variable {batches batches' : List Batch}

theorem rel_lookup (h : Narrows ids batches batches') (pos : ℕ × ℕ) :
    Option.Rel (RowNarrows ids) (batches[pos.1]?.bind (·[pos.2]?))
      (batches'[pos.1]?.bind (·[pos.2]?)) := by
  have hrows := rel_getElem? h pos.1
  revert hrows
  generalize batches[pos.1]? = rows
  generalize batches'[pos.1]? = rows'
  intro hrows
  cases hrows with
  | none => exact .none
  | some hrows => exact rel_getElem? hrows pos.2

theorem narrows_inChunks {rows rows' : Batch} (h : List.Forall₂ (RowNarrows ids) rows rows') :
    Narrows ids (PhysicalSort.inChunks rows) (PhysicalSort.inChunks rows') := by
  rw [Narrows, PhysicalSort.inChunks, PhysicalSort.inChunks, h.length_eq,
    List.forall₂_map_left_iff, List.forall₂_map_right_iff, List.forall₂_same]
  exact fun i _ => List.forall₂_take _ (List.forall₂_drop _ h)

theorem narrows_nonempty (h : Narrows ids batches batches') :
    Narrows ids (batches.filter (· ≠ [])) (batches'.filter (· ≠ [])) := by
  induction h with
  | nil => exact .nil
  | @cons rows rows' _ _ hrows _ ih =>
    cases hrows with
    | nil => exact ih
    | cons hrow hrows => exact .cons (.cons hrow hrows) ih

variable {R : SortRuntime}

theorem lift_sortBatches (hkeeps : Keeps n used node.columnIds) {keys : List SortKey}
    (hlt : ColumnsBelow n (keys.map SortKey.expr))
    (hused : ∀ c ∈ (keys.map SortKey.expr).flatMap Expr.columns, used c) {topK : Int64}
    (h : Narrows node.columnIds batches batches') :
    Fallible.Lift (Narrows node.columnIds)
      (PhysicalSort.sortBatches { sortKeys := keys, topK } R D batches)
      (PhysicalSort.sortBatches { sortKeys := keys.map fun key => { key with
          expr := remapColumnRefs (some node) key.expr }, topK } R D batches') := by
  have hvecs : Fallible.traverse
      (fun key : SortKey => Fallible.traverse (fun rows => key.expr.evalBatch D rows) batches) keys =
      Fallible.traverse
        (fun key : SortKey => Fallible.traverse (fun rows => key.expr.evalBatch D rows) batches')
        (keys.map fun key => { key with expr := remapColumnRefs (some node) key.expr }) := by
    have hkeys : List.Forall₂ (fun k k' : SortKey =>
        k' = { k with expr := remapColumnRefs (some node) k.expr } ∧
          k.expr ∈ keys.map SortKey.expr) keys
        (keys.map fun key => { key with expr := remapColumnRefs (some node) key.expr }) := by
      rw [List.forall₂_map_right_iff, List.forall₂_same]
      exact fun key hkey => ⟨rfl, List.mem_map_of_mem hkey⟩
    refine Fallible.traverse_congr hkeys ?_
    rintro key _ ⟨rfl, hkey⟩
    exact Fallible.traverse_congr h fun rows rows' hrows => evalBatch_eq hkeeps (hlt _ hkey)
      (fun c hc => hused c (List.mem_flatMap_of_mem hkey hc)) hrows
  have hlengths : batches'.map List.length = batches.map List.length := by
    rw [← List.forall₂_eq_eq_eq, List.forall₂_map_left_iff, List.forall₂_map_right_iff]
    exact h.flip.imp fun _ _ hrows => hrows.length_eq.symm
  have hascending : (keys.map fun key => { key with
      expr := remapColumnRefs (some node) key.expr }).map SortKey.ascending =
      keys.map SortKey.ascending := by simp
  rw [PhysicalSort.sortBatches, PhysicalSort.sortBatches, hvecs, hlengths]
  refine (Fallible.Lift.of_eq rfl).bind ?_
  rintro keyVecs _ rfl
  have horder : PhysicalSort.order { sortKeys := keys, topK } R keyVecs
      (positionsFrom 0 (batches.map List.length)) =
      PhysicalSort.order { sortKeys := keys.map fun key => { key with
          expr := remapColumnRefs (some node) key.expr }, topK } R keyVecs
        (positionsFrom 0 (batches.map List.length)) := by
    rw [PhysicalSort.order, PhysicalSort.order, hascending]
  refine (Fallible.Lift.of_eq horder).bind ?_
  rintro order _ rfl
  have hrows : Fallible.Lift (List.Forall₂ (RowNarrows node.columnIds))
      (Fallible.traverse (fun pos : ℕ × ℕ =>
        (Fallible.ofOption (batches[pos.1]?.bind (·[pos.2]?)) : Fallible Error _)) order)
      (Fallible.traverse (fun pos : ℕ × ℕ =>
        Fallible.ofOption (batches'[pos.1]?.bind (·[pos.2]?))) order) := by
    refine .traverse (List.forall₂_eq_eq_eq ▸ rfl : List.Forall₂ Eq order order) ?_
    rintro pos _ rfl
    exact .ofOption (rel_lookup h pos)
  exact hrows.bind fun rows rows' hnarrow => .ok (narrows_inChunks hnarrow)

/-- **Pruning below the projection** narrows the rows of the plan to the columns it keeps, where
the scans agree. -/
theorem LogicalPlan.Scanned.lift_execute {types : List TypeId} (h : plan.Scanned types.length)
    (hnode : plan.Pruned types.length (pruneColumns plan required) required node) {P : Platform}
    {tx : Snapshot} {groups : List RowGroup} (hint : Option Int64)
    (hagree : ((planNode hint plan).scan types).Agree
      ((planNode hint (pruneColumns plan required)).scan types) D tx types groups) :
    Fallible.Lift (Narrows node.columnIds) ((planNode hint plan).execute D P R tx types groups)
      ((planNode hint (pruneColumns plan required)).execute D P R tx types groups) := by
  induction h generalizing required hint with
  | @get get hids hfilters =>
    cases hnode.find
    exact hagree.lift_batches hids
  | @filter predicate output child hpred hchild ih =>
    obtain ⟨node', hnode'⟩ := hchild.exists_pruned (collectColumnRefs [predicate] required)
    cases hnode.find.symm.trans hnode'.find
    obtain ⟨get, hget, hids⟩ := hchild.find
    rw [pruneColumns, planNode, planNode, tryFindLogicalGet, tryFindLogicalGet, hget,
      hnode'.find, remapColumnRefs_range hids]
    refine (ih hnode' none hagree).bind fun batches batches' hbatches => ?_
    exact .traverse hbatches fun rows rows' hrows =>
      lift_filterBatch hnode.keeps (hpred _ (List.mem_singleton_self _))
        (fun c hc => .inr (List.mem_append_left _ hc)) hrows
  | @sort keys output child hkeys hchild ih =>
    obtain ⟨node', hnode'⟩ :=
      hchild.exists_pruned (collectColumnRefs (keys.map SortKey.expr) required)
    cases hnode.find.symm.trans hnode'.find
    obtain ⟨get, hget, hids⟩ := hchild.find
    have hself : (keys.map fun key => { key with
        expr := remapColumnRefs (some get) key.expr }) = keys :=
      List.map_id'' (fun key => by rw [remapColumnRefs_range hids]) _
    rw [pruneColumns, planNode, planNode, tryFindLogicalGet, tryFindLogicalGet, hget,
      hnode'.find, hself]
    refine (ih hnode' none hagree).bind fun batches batches' hbatches => ?_
    exact lift_sortBatches hnode.keeps hkeys
      (fun c hc => .inr (List.mem_append_left _ hc)) (narrows_nonempty hbatches)

end CppColDB
