import CppColDB.Execution.AggregateRows

/-!
# Consuming the input of an aggregation

As long as no group key is NULL, the table has a group for each key of the rows consumed so
far, with the accumulators of the rows that have it.
-/

namespace CppColDB

open AggrExpr CppColDB.Expr Fallible List Row

theorem Scalar.getValue_eq (s : Scalar) : s.getValue = Cell.box s.type s.cell := by
  rw [Scalar.getValue]
  cases s.cell <;> rfl

namespace PhysicalHashAggregation

variable (op : PhysicalHashAggregation) (D : DoubleOps) (types : List TypeId)

/-- The group key of a row. -/
def keyOf (row : Row) : Row := op.groupExprs.map (·.cell D types row)

/-- Every group expression and every argument can be evaluated on every row. -/
structure Evaluates (rows : List Row) : Prop where
  groups : ∀ e ∈ op.groupExprs, ∀ row ∈ rows, ∃ s, e.eval D (row.scalars types) = some (.ok s)
  args : ∀ agg ∈ op.aggrExprs, agg.isStar = false → ∀ row ∈ rows,
    ∃ s, agg.arg.eval D (row.scalars types) = some (.ok s)

/-- The expressions have types that can be compared exactly, on all rows. -/
structure Typed (groupTypes : List TypeId) (rows : List Row) : Prop where
  groups : Forall₂ (fun e type => HasType D types rows e type) op.groupExprs groupTypes
  comparable : ∀ type ∈ groupTypes, type.Comparable
  aggs : ∀ agg ∈ op.aggrExprs, agg.WellTyped D types rows

/-- A group for each key of the rows, with the accumulators of the rows that have it. -/
structure Grouped (rows : List Row) (groups : List (Row × List AggregateState)) : Prop where
  mem_iff : ∀ key, key ∈ groups.map Prod.fst ↔ ∃ row ∈ rows, op.keyOf D types row = key
  states : ∀ g ∈ groups, Forall₂ (fun agg state =>
    agg.Accumulates D types (rows.filter (op.keyOf D types · = g.1)) state) op.aggrExprs g.2

variable {op D types} {all rows part : List Row} {row : Row} {i : ℕ}

/-! ## Updates -/

variable {agg : AggrExpr} {vec : List Scalar} {state : AggregateState}

theorem exists_updateState
    (hagg : agg.WellTyped D types all) (heval : agg.Evaluates D types all)
    (hrows : ∀ r ∈ rows, r ∈ all) (hrow : row ∈ all) (hvec : agg.isStar = false →
      ∃ s, vec[i]? = some s ∧ agg.arg.eval D (row.scalars types) = some (.ok s))
    (hstate : agg.Accumulates D types rows state) :
    ∃ state', updateState D i agg vec state = some (.ok state') ∧
      agg.Accumulates D types (rows ++ [row]) state' := by
  rw [updateState]
  cases hstar : agg.isStar with
  | true =>
    refine ⟨{ state with count := state.count + 1 }, rfl, ?_⟩
    rw [Accumulates, if_pos hstar] at hstate ⊢
    simp [hstate]
  | false =>
    obtain ⟨s, hs, hvalue⟩ := hvec hstar
    obtain ⟨state', hupdate, h⟩ := hstate.update hagg hrows hrow heval hstar hvalue
    refine ⟨state', ?_, h⟩
    rw [if_neg Bool.false_ne_true, bind_of_ok (ofOption_eq_ok_iff.mpr hs), hupdate]

/-- What one update makes of each accumulator, the updates make of all. -/
theorem UpdatesEach.exists_update {f g} (hg : UpdatesEach f g) {aggs : List AggrExpr}
    {V : AggrExpr → List Scalar → Prop} {Q R : AggrExpr → AggregateState → Prop}
    (hf : ∀ agg ∈ aggs, ∀ vec state, V agg vec → Q agg state →
      ∃ state', f agg vec state = some (.ok state') ∧ R agg state')
    {vecs : List (List Scalar)} {states : List AggregateState} (hvecs : Forall₂ V aggs vecs)
    (hstates : Forall₂ Q aggs states) :
    ∃ states', g aggs vecs states = some (.ok states') ∧ Forall₂ R aggs states' := by
  induction hstates generalizing vecs with
  | nil => exact ⟨[], hg.nil vecs [], .nil⟩
  | @cons agg state aggs states hstate _ ih =>
    obtain ⟨vec, vecs, hvec, hvecs', rfl⟩ := forall₂_cons_left_iff.mp hvecs
    obtain ⟨hf, hfs⟩ := forall_mem_cons.mp hf
    obtain ⟨states', hrest, hstates'⟩ := ih hfs hvecs'
    obtain ⟨state', hrun, hstate'⟩ := hf vec state hvec hstate
    refine ⟨state' :: states', ?_, .cons hstate' hstates'⟩
    rw [hg.cons, bind_of_ok hrun, bind_of_ok hrest]
    rfl

theorem exists_updateColumn
    (hagg : agg.WellTyped D types all) (heval : agg.Evaluates D types all)
    (hrows : ∀ r ∈ rows ++ part, r ∈ all)
    (hvec : agg.isStar = false → Forall₂ (fun r s =>
      agg.arg.eval D (scalars types r) = some (.ok s)) part vec)
    (hstate : agg.Accumulates D types rows state) :
    ∃ state', updateColumn D part.length agg vec state = some (.ok state') ∧
      agg.Accumulates D types (rows ++ part) state' := by
  rw [updateColumn]
  cases hstar : agg.isStar with
  | true =>
    refine ⟨_, rfl, ?_⟩
    simpa [Accumulates, hstar] using hstate
  | false =>
    have hvec := hvec hstar
    -- the accumulator after the first rows of the chunk
    obtain ⟨state', hrun, hend⟩ := foldl_induction
      (f := fun (state : AggregateState) (row : ℕ) => do
        let s ← ofOption vec[row]?
        state.update D agg.func s)
      (fun seen state => agg.Accumulates D types (rows ++ part.take seen.length) state) (by simpa using hstate) (by
        intro seen i rest state (hsplit : range part.length = _) hseen
        obtain ⟨rfl, hi⟩ := eq_length_of_range_eq_append hsplit
        obtain ⟨s, hs, hvalue⟩ := hvec.exists_of_getElem?_left (getElem?_eq_getElem hi)
        obtain ⟨state', hupdate, h⟩ := hseen.update hagg
          (fun r hr => hrows r (by
            obtain hr | hr := mem_append.mp hr
            · exact mem_append_left _ hr
            · exact mem_append_right _ (mem_of_mem_take hr)))
          (hrows _ (mem_append_right _ (getElem_mem hi))) heval hstar hvalue
        refine ⟨state', ?_, ?_⟩
        · rw [bind_of_ok (ofOption_eq_ok_iff.mpr hs), hupdate]
        · rwa [length_append, length_singleton, take_add_one,
            getElem?_eq_getElem hi, Option.toList_some, ← append_assoc])
    refine ⟨state', hrun, ?_⟩
    rwa [length_range, take_length] at hend

/-! ## Consuming the input -/

/-- The group key of a row, boxed. -/
theorem mapM_getValue {groupTypes : List TypeId} {groupVecs : List (List Scalar)} {exprs : List Expr}
    (htyped : Forall₂ (fun e type => HasType D types all e type) exprs groupTypes)
    (hvecs : Forall₂ (fun (e : Expr) (vec : List Scalar) =>
      ∃ s, vec[i]? = some s ∧ e.eval D (row.scalars types) = some (.ok s)) exprs groupVecs)
    (hrow : row ∈ all) :
    groupVecs.mapM (fun vec => (vec[i]?).map Scalar.getValue) =
        some (box groupTypes (exprs.map (·.cell D types row))) ∧
      Of groupTypes (exprs.map (·.cell D types row)) := by
  induction htyped generalizing groupVecs with
  | nil =>
    cases hvecs
    exact ⟨rfl, .nil⟩
  | @cons e type exprs groupTypes htype _ ih =>
    obtain ⟨vec, vecs, ⟨s, hs, heval⟩, hvecs', rfl⟩ := forall₂_cons_left_iff.mp hvecs
    obtain ⟨hrest, hof⟩ := ih hvecs'
    obtain ⟨rfl, hadmits⟩ := htype row hrow s heval
    have hcell := cell_eq heval
    refine ⟨?_, .cons (by simpa only [hcell] using hadmits) hof⟩
    rw [mapM_cons, hs, hrest]
    simp [box, hcell, s.getValue_eq]

variable (op D types) in
/-- **What the table holds** after some rows. -/
def Consumed (P : Platform) (groupTypes : List TypeId) (rows : List Row)
    (ht : AggregateHashTable) : Prop :=
  ht.numAggregates = op.aggrExprs.length ∧
    ∃ groups, ht.Holds P groupTypes groups ∧ op.Grouped D types rows groups

section Consume

variable {P : Platform} {groupTypes : List TypeId} {ht : AggregateHashTable}

/-- Some more rows with one key, which the accumulators of the group take up. -/
theorem Consumed.exists_update (htyped : op.Typed D types groupTypes all) {key : Row}
    (hkey : key.IsKey groupTypes) (h : op.Consumed D types P groupTypes rows ht)
    (hpart : part ≠ []) (hkeys : ∀ r ∈ part, op.keyOf D types r = key)
    {f : List AggregateState → Fallible Error (List AggregateState)}
    (hf : ∀ rs states, (∀ r ∈ rs, r ∈ rows) →
      Forall₂ (fun agg state => agg.Accumulates D types rs state) op.aggrExprs states →
      ∃ states', f states = some (.ok states') ∧
        Forall₂ (fun agg state => agg.Accumulates D types (rs ++ part) state) op.aggrExprs
          states') :
    ∃ i ht₁ ht', ht.findOrCreate P (key.box groupTypes) = some (.ok (i, ht₁)) ∧
      updateEntry ht₁ i f = some (.ok ht') ∧
      op.Consumed D types P groupTypes (rows ++ part) ht' := by
  obtain ⟨hnum, groups, hholds, hgroups⟩ := h
  have hfilter :=
    filter_eq_self.mpr fun r hr => decide_eq_true (hkeys r hr)
  obtain ⟨i, ht₁, ht', groups', hfind, hupdate, hnum', hholds', hmem, hstates⟩ :=
    hholds.exists_update htyped.comparable hkey
      (Q := fun k states => Forall₂ (fun agg state =>
        agg.Accumulates D types (rows.filter (op.keyOf D types · = k)) state) op.aggrExprs states)
      (R := fun k states => Forall₂ (fun agg state =>
        agg.Accumulates D types ((rows ++ part).filter (op.keyOf D types · = k)) state)
        op.aggrExprs states)
      hgroups.states (by
        intro hnew
        have hnone : rows.filter (op.keyOf D types · = key) = [] := by
          rw [filter_eq_nil_iff]
          intro r hr hkey'
          exact hnew ((hgroups.mem_iff key).mpr ⟨r, hr, of_decide_eq_true hkey'⟩)
        rw [hnone, AggregateHashTable.freshStates, hnum, forall₂_iff_get]
        refine ⟨length_replicate.symm, fun j hj _ => ?_⟩
        rw [get_eq_getElem, get_eq_getElem, getElem_replicate]
        exact accumulates_nil (htyped.aggs _ (getElem_mem hj)))
      (by
        intro states hstates
        rw [filter_append, hfilter]
        exact hf _ states (fun r hr => mem_of_mem_filter hr) hstates)
      (by
        intro k states hk hstates
        have hnone : part.filter (op.keyOf D types · = k) = [] := by
          rw [filter_eq_nil_iff]
          intro r hr hkey'
          exact hk ((of_decide_eq_true hkey').symm.trans (hkeys r hr))
        rwa [filter_append, hnone, append_nil])
  refine ⟨i, ht₁, ht', hfind, hupdate, hnum'.trans hnum, groups', hholds', fun k => ?_, hstates⟩
  rw [hmem, hgroups.mem_iff]
  constructor
  · rintro (⟨r, hr, rfl⟩ | rfl)
    · exact ⟨r, mem_append_left _ hr, rfl⟩
    · obtain ⟨r, hr⟩ := exists_mem_of_ne_nil part hpart
      exact ⟨r, mem_append_right _ hr, hkeys r hr⟩
  · rintro ⟨r, hr, rfl⟩
    obtain hr | hr := mem_append.mp hr
    · exact .inl ⟨r, hr, rfl⟩
    · exact .inr (hkeys r hr)

variable {chunk : DataChunk}

theorem exists_argVecs (heval : op.Evaluates D types part) (hchunk : chunk.Holds types part) :
    ∃ vecs, Fallible.traverse (argVec (Expr.evaluate D chunk)) op.aggrExprs = some (.ok vecs) ∧
      Forall₂ (fun (agg : AggrExpr) vec => agg.isStar = false →
        Forall₂ (fun r s => agg.arg.eval D (scalars types r) = some (.ok s)) part vec)
        op.aggrExprs vecs := by
  have hvec : ∀ agg ∈ op.aggrExprs, ∃ vec, argVec (Expr.evaluate D chunk) agg = some (.ok vec) := by
    intro agg hagg
    rw [argVec]
    cases hstar : agg.isStar with
    | true => exact ⟨[], rfl⟩
    | false =>
      obtain ⟨vec, hvec⟩ := exists_forall₂_iff.mpr (heval.args agg hagg hstar)
      exact ⟨vec, (evaluate_eq_ok_iff hchunk).mpr hvec⟩
  obtain ⟨vecs, hvecs⟩ := exists_forall₂_iff.mpr hvec
  refine ⟨vecs, traverse_eq_ok_iff.mpr hvecs, hvecs.imp fun agg vec h hstar => ?_⟩
  rw [argVec, hstar] at h
  exact (evaluate_eq_ok_iff hchunk).mp h

theorem exists_groupVecs (heval : op.Evaluates D types part) (hchunk : chunk.Holds types part) :
    ∃ vecs, Fallible.traverse (fun e => e.evaluate D chunk) op.groupExprs = some (.ok vecs) ∧
      Forall₂ (fun (e : Expr) vec =>
        Forall₂ (fun r s => e.eval D (scalars types r) = some (.ok s)) part vec)
        op.groupExprs vecs := by
  obtain ⟨vecs, hvecs⟩ := exists_forall₂_iff.mpr fun e he =>
    exists_forall₂_iff.mpr (heval.groups e he)
  exact ⟨vecs, traverse_eq_ok_iff.mpr (hvecs.imp fun e vec => (evaluate_eq_ok_iff hchunk).mpr),
    hvecs⟩

section

variable (htyped : op.Typed D types groupTypes all) (heval : op.Evaluates D types all)
include htyped heval

/-- **One row** of a chunk. -/
theorem Consumed.exists_consumeRow (hsub : ∀ r ∈ rows, r ∈ all) (hrow : row ∈ all)
    (hnull : (op.keyOf D types row).NoNull) {groupVecs aggVecs : List (List Scalar)}
    (hgroups : Forall₂ (fun (e : Expr) (vec : List Scalar) =>
      ∃ s, vec[i]? = some s ∧ e.eval D (row.scalars types) = some (.ok s)) op.groupExprs groupVecs)
    (hargs : Forall₂ (fun (agg : AggrExpr) (vec : List Scalar) => agg.isStar = false →
      ∃ s, vec[i]? = some s ∧ agg.arg.eval D (row.scalars types) = some (.ok s)) op.aggrExprs
      aggVecs) (h : op.Consumed D types P groupTypes rows ht) :
    ∃ ht', op.consumeRow P D groupVecs aggVecs ht i = some (.ok ht') ∧
      op.Consumed D types P groupTypes (rows ++ [row]) ht' := by
  obtain ⟨hbox, hof⟩ := mapM_getValue htyped.groups hgroups hrow
  obtain ⟨j, ht₁, ht', hfind, hupdate, h'⟩ := h.exists_update htyped
    (show (op.keyOf D types row).IsKey groupTypes from ⟨hof, hnull⟩)
    (show [row] ≠ [] from cons_ne_nil _ _) (by simp)
    (fun rs states hrs => (updateStates_each D i).exists_update (fun agg hagg vec state =>
      exists_updateState (htyped.aggs agg hagg) (heval.args agg hagg)
        (fun r hr => hsub r (hrs r hr)) hrow) hargs)
  refine ⟨ht', ?_, h'⟩
  rw [consumeRow, bind_of_ok (ofOption_eq_ok_iff.mpr hbox)]
  exact (bind_of_ok hfind).trans hupdate

/-- **One chunk**. -/
theorem Consumed.exists_consume (hnull : ∀ r ∈ all, (op.keyOf D types r).NoNull)
    (hsub : ∀ r ∈ rows ++ part, r ∈ all) (hchunk : chunk.Holds types part)
    (h : op.Consumed D types P groupTypes rows ht) :
    ∃ ht', op.consume P D ht chunk = some (.ok ht') ∧
      op.Consumed D types P groupTypes (rows ++ part) ht' := by
  obtain ⟨hrows, hpart⟩ := forall_mem_append.mp hsub
  have heval' : op.Evaluates D types part := ⟨fun e he r hr => heval.groups e he r (hpart r hr),
      fun agg hagg hstar r hr => heval.args agg hagg hstar r (hpart r hr)⟩
  obtain ⟨aggVecs, hargs, haggs⟩ := exists_argVecs heval' hchunk
  rw [consume, consumeValues, hchunk.count]
  by_cases hempty : part.length = 0
  · obtain rfl := length_eq_zero_iff.mp hempty
    exact ⟨ht, rfl, by rwa [append_nil]⟩
  rw [if_neg hempty]
  by_cases hgroup : op.groupExprs = []
  · -- without GROUP BY all rows have the empty key
    have htypes : groupTypes = [] := by
      have := htyped.groups
      rw [hgroup] at this
      exact forall₂_nil_left_iff.mp this
    obtain ⟨j, ht₁, ht', hfind, hupdate, h'⟩ := h.exists_update htyped
      (show IsKey groupTypes [] from ⟨htypes ▸ .nil, fun c hc => nomatch hc⟩)
      (show part ≠ [] from fun hnil => hempty (by rw [hnil]; rfl))
      (fun r _ => by rw [keyOf, hgroup]; rfl)
      (fun rs states hrs => (updateColumns_each D _).exists_update (fun agg hagg vec state =>
        exists_updateColumn (htyped.aggs agg hagg) (heval.args agg hagg)
          (forall_mem_append.mpr ⟨fun r hr => hrows r (hrs r hr), hpart⟩)) haggs)
    have hkey : box groupTypes [] = [] := by rw [htypes]; rfl
    refine ⟨ht', ?_, h'⟩
    rw [if_pos hgroup, bind_of_ok hargs, bind_of_ok (hkey ▸ hfind)]
    exact hupdate
  · obtain ⟨groupVecs, hgroups, hvecs⟩ := exists_groupVecs heval' hchunk
    rw [if_neg hgroup, bind_of_ok hgroups, bind_of_ok hargs]
    obtain ⟨ht', hrun, hend⟩ := foldl_induction
      (fun seen ht => op.Consumed D types P groupTypes (rows ++ part.take seen.length) ht) (by simpa using h) (by
        intro seen i rest ht (hsplit : range part.length = _) hseen
        obtain ⟨rfl, hi⟩ := eq_length_of_range_eq_append hsplit
        have hget := getElem?_eq_getElem hi
        obtain ⟨ht', hrun, h'⟩ := hseen.exists_consumeRow htyped heval
          (forall_mem_append.mpr ⟨hrows, fun r hr => hpart r (mem_of_mem_take hr)⟩)
          (hpart _ (getElem_mem hi)) (hnull _ (hpart _ (getElem_mem hi)))
          (hvecs.imp fun e vec hvec => hvec.exists_of_getElem?_left hget)
          (haggs.imp fun agg vec hvec hstar => (hvec hstar).exists_of_getElem?_left hget)
        refine ⟨ht', hrun, ?_⟩
        rwa [length_append, length_singleton, take_add_one, hget,
          Option.toList_some, ← append_assoc])
    refine ⟨ht', hrun, ?_⟩
    rwa [length_range, take_length] at hend

/-- **All chunks**. -/
theorem Consumed.exists_foldl (hnull : ∀ r ∈ all, (op.keyOf D types r).NoNull)
    {chunks : List DataChunk} {parts : List (List Row)}
    (hparts : Forall₂ (DataChunk.Holds · types ·) chunks parts)
    (hsub : ∀ r ∈ rows ++ parts.flatten, r ∈ all) (h : op.Consumed D types P groupTypes rows ht) :
    ∃ ht', foldl (op.consume P D) ht chunks = some (.ok ht') ∧
      op.Consumed D types P groupTypes (rows ++ parts.flatten) ht' := by
  induction hparts generalizing rows ht with
  | nil => exact ⟨ht, rfl, by rwa [flatten_nil, append_nil]⟩
  | @cons chunk part chunks parts hchunk _ ih =>
    rw [flatten_cons, ← append_assoc] at hsub ⊢
    obtain ⟨ht₁, hrun, h₁⟩ := h.exists_consume htyped heval hnull
      (fun r hr => hsub r (mem_append_left _ hr)) hchunk
    obtain ⟨ht', hrest, h'⟩ := ih hsub h₁
    exact ⟨ht', by rw [Fallible.foldl_cons, Fallible.bind_of_ok hrun, hrest], h'⟩

end

theorem consumed_nil : op.Consumed D types P groupTypes []
    { numAggregates := op.aggrExprs.length } := by
  refine ⟨rfl, [], ⟨rfl, Chains.empty 256, length_replicate, Nat.succ_pos 255, nodup_nil,
    fun g hg => nomatch hg⟩, fun key => by simp, fun g hg => nomatch hg⟩

end Consume

end PhysicalHashAggregation

end CppColDB
