import CppColDB.Execution.AggregateExact

/-!
# GROUP BY never returns a NULL

The source appends the boxes of keys and results. A box has the type of its column, and with
it a value, so that no cell of the output is NULL. A result that has to be NULL is wrong.
-/

namespace CppColDB

open AggrExpr ByteCodec DataChunk DataVector Fallible List Option

/-! ## Boxes -/

/-- Appending a box that counts as a value. -/
theorem DataVector.exists_of_appendValue {v v' : DataVector} {val : Value}
    (hcls : v.type.storageClass ≠ .none) (hval : val.isNull = false)
    (h : v.appendValue val = some (.ok v')) : ∃ x, v.Appended (some x) v' := by
  rw [appendValue] at h
  split at h
  next => cases h
  next hcount =>
    rw [hval, if_neg Bool.false_ne_true] at h
    dsimp only at h
    split at h
    next hnone => exact absurd hnone hcls
    next =>
      split at h
      next => cases h
      next x hx =>
        have hclass : x.storageClass = v.type.storageClass := by
          generalize val.data = data at hx
          generalize v.type = type at hx
          cases type <;> cases data <;> cases hx <;> rfl
        obtain ⟨v₁, hstore, happ⟩ := exists_appended_store hclass.symm (Nat.not_le.mp hcount)
        rw [← hclass, hstore] at h
        cases h
        exact ⟨x, happ⟩

theorem exists_of_appendValues {outs outs' : List DataVector} {vals : List Value}
    (hlength : outs.length = vals.length)
    (hcls : ∀ v ∈ outs, v.type.storageClass ≠ .none) (hvals : ∀ val ∈ vals, val.isNull = false)
    (h : appendValues outs vals = some (.ok outs')) :
    ∃ row : Row, row.NoNull ∧ AppendedRow outs row outs' := by
  induction outs generalizing vals outs' with
  | nil =>
    obtain rfl := length_eq_zero_iff.mp hlength.symm
    cases h
    exact ⟨[], forall_mem_nil _, .nil⟩
  | cons out outs ih =>
    cases vals with
    | nil => cases hlength
    | cons val vals =>
      obtain ⟨hout, hcls⟩ := forall_mem_cons.mp hcls
      obtain ⟨hval, hvals⟩ := forall_mem_cons.mp hvals
      rw [appendValues] at h
      split at h
      next => cases h
      next => cases h
      next out₁ hrun =>
        obtain ⟨x, happ⟩ := exists_of_appendValue hout hval hrun
        obtain ⟨res, hrest, h⟩ := map_eq_some_iff.mp h
        cases res with
        | error e => cases h
        | ok outs₁ =>
          cases h
          obtain ⟨row, hrow, happs⟩ := ih (Nat.succ.inj hlength) hcls hvals hrest
          exact ⟨some x :: row, forall_mem_cons.mpr ⟨some_ne_none x, hrow⟩, .cons happ happs⟩

/-! ## Accumulators -/

namespace AggregateState

/-- What is kept of MIN and MAX is a value. -/
structure NonNull (state : AggregateState) : Prop where
  min : state.minSet = true → state.minVal.isNull = false
  max : state.maxSet = true → state.maxVal.isNull = false

theorem nonNull_fresh : NonNull {} := ⟨nofun, nofun⟩

variable {D : DoubleOps} {state state' : AggregateState} {func : AggFunc} {s : Scalar}

theorem NonNull.update (h : state.NonNull)
    (hs : func = .min ∨ func = .max → s.getValue.isNull = false)
    (hrun : state.update D func s = some (.ok state')) : state'.NonNull := by
  rw [AggregateState.update] at hrun
  split at hrun
  · exact pure_eq_ok_iff.mp hrun ▸ h
  · split at hrun
    · exact pure_eq_ok_iff.mp hrun ▸ ⟨h.min, h.max⟩
    · obtain ⟨v, -, hrun⟩ := bind_eq_ok_iff.mp hrun
      exact pure_eq_ok_iff.mp hrun ▸ ⟨h.min, h.max⟩
    · obtain ⟨v, -, hrun⟩ := bind_eq_ok_iff.mp hrun
      exact pure_eq_ok_iff.mp hrun ▸ ⟨h.min, h.max⟩
    · dsimp only at hrun
      split at hrun
      all_goals
        obtain ⟨less, -, hrun⟩ := bind_eq_ok_iff.mp hrun
        split at hrun
        · exact pure_eq_ok_iff.mp hrun ▸ ⟨fun _ => hs (.inl rfl), h.max⟩
        · exact pure_eq_ok_iff.mp hrun ▸ ⟨h.min, h.max⟩
    · dsimp only at hrun
      split at hrun
      all_goals
        obtain ⟨less, -, hrun⟩ := bind_eq_ok_iff.mp hrun
        split at hrun
        · exact pure_eq_ok_iff.mp hrun ▸ ⟨h.min, fun _ => hs (.inr rfl)⟩
        · exact pure_eq_ok_iff.mp hrun ▸ ⟨h.min, h.max⟩

/-- **A result** counts as a value. -/
theorem NonNull.finalize (h : state.NonNull) {type : TypeId} (htype : type.storageClass ≠ .none)
    {val : Value} (hrun : state.finalize D func type = some (.ok val)) : val.isNull = false := by
  have hnull : Value.isNull { type } = false := by
    rw [Value.isNull, decide_eq_false_iff_not]
    rintro rfl
    exact htype rfl
  cases func with
  | count => exact pure_eq_ok_iff.mp hrun ▸ rfl
  | sum =>
    dsimp only [AggregateState.finalize] at hrun
    split at hrun
    · exact pure_eq_ok_iff.mp hrun ▸ hnull
    · split at hrun
      · exact pure_eq_ok_iff.mp hrun ▸ rfl
      · obtain ⟨v, -, hrun⟩ := bind_eq_ok_iff.mp hrun
        exact pure_eq_ok_iff.mp hrun ▸ rfl
  | avg =>
    dsimp only [AggregateState.finalize] at hrun
    split at hrun <;> exact pure_eq_ok_iff.mp hrun ▸ rfl
  | min =>
    obtain rfl := pure_eq_ok_iff.mp hrun
    split
    next hset => exact h.min hset
    next => exact hnull
  | max =>
    obtain rfl := pure_eq_ok_iff.mp hrun
    split
    next hset => exact h.max hset
    next => exact hnull

end AggregateState

/-! ## The table -/

/-- Keys of the given length that count as values, and accumulators of values. -/
structure AggEntry.NonNull (n : ℕ) (entry : AggEntry) : Prop where
  length : entry.groupKey.length = n
  key : ∀ v ∈ entry.groupKey, v.isNull = false
  states : ∀ state ∈ entry.aggStates, state.NonNull

namespace AggregateHashTable

variable {P : Platform} {ht ht' : AggregateHashTable} {n i : ℕ}

/-- Every entry of the table counts as a value. -/
def NonNull (n : ℕ) (ht : AggregateHashTable) : Prop := ∀ entry ∈ ht.entryPool, entry.NonNull n

theorem NonNull.findOrCreate (h : ht.NonNull n) {key : List Value} (hlength : key.length = n)
    (hkey : ∀ v ∈ key, v.isNull = false) (hrun : ht.findOrCreate P key = some (.ok (i, ht'))) :
    ht'.NonNull n := by
  have hnew : ∀ entry ∈ ht.entryPool ++ [AggEntry.mk key (replicate ht.numAggregates {})],
      entry.NonNull n := by
    rw [forall_mem_append, forall_mem_singleton]
    refine ⟨h, hlength, hkey, fun state hstate => ?_⟩
    rw [eq_of_mem_replicate hstate]
    exact AggregateState.nonNull_fresh
  obtain ⟨b, -, hrun⟩ := bind_eq_ok_iff.mp hrun
  obtain ⟨chain, -, hrun⟩ := bind_eq_ok_iff.mp hrun
  obtain ⟨found, -, hrun⟩ := bind_eq_ok_iff.mp hrun
  cases found with
  | some j =>
    obtain ⟨-, rfl⟩ := Prod.ext_iff.mp (pure_eq_ok_iff.mp hrun)
    exact h
  | none =>
    dsimp only at hrun
    split at hrun
    · obtain ⟨ht₁, hresize, hrun⟩ := bind_eq_ok_iff.mp hrun
      obtain ⟨-, rfl⟩ := Prod.ext_iff.mp (pure_eq_ok_iff.mp hrun)
      obtain ⟨buckets, -, hresize⟩ := bind_eq_ok_iff.mp hresize
      obtain rfl := pure_eq_ok_iff.mp hresize
      exact hnew
    · obtain ⟨-, rfl⟩ := Prod.ext_iff.mp (pure_eq_ok_iff.mp hrun)
      exact hnew

theorem NonNull.updateEntry (h : ht.NonNull n)
    {f : List AggregateState → Fallible Error (List AggregateState)}
    (hf : ∀ states states', (∀ state ∈ states, state.NonNull) → f states = some (.ok states') →
      ∀ state ∈ states', state.NonNull)
    (hrun : PhysicalHashAggregation.updateEntry ht i f = some (.ok ht')) : ht'.NonNull n := by
  obtain ⟨entry, hentry, hrun⟩ := bind_eq_ok_iff.mp hrun
  obtain ⟨states, hstates, hrun⟩ := bind_eq_ok_iff.mp hrun
  obtain rfl := pure_eq_ok_iff.mp hrun
  have hentry := h entry (mem_of_getElem? (ofOption_eq_ok_iff.mp hentry))
  intro e he
  obtain he | rfl := mem_or_eq_of_mem_set he
  · exact h e he
  · exact ⟨hentry.length, hentry.key, hf _ _ hentry.states hstates⟩

end AggregateHashTable

/-! ## Consuming the input -/

namespace PhysicalHashAggregation

variable {op : PhysicalHashAggregation} {P : Platform} {D : DoubleOps}
  {types groupTypes : List TypeId} {states states' : List AggregateState}

/-- The arguments of MIN and MAX count as values. -/
def Boxes (agg : AggrExpr) (vec : List Scalar) : Prop :=
  agg.isStar = false → agg.func = .min ∨ agg.func = .max → ∀ s ∈ vec, s.getValue.isNull = false

variable {vec : List Scalar} {agg : AggrExpr} {state state' : AggregateState} {i : ℕ}

theorem nonNull_updateState (hvec : Boxes agg vec) (h : state.NonNull)
    (hrun : updateState D i agg vec state = some (.ok state')) : state'.NonNull := by
  rw [updateState] at hrun
  split at hrun
  next => exact pure_eq_ok_iff.mp hrun ▸ ⟨h.min, h.max⟩
  next hstar =>
    obtain ⟨s, hs, hrun⟩ := bind_eq_ok_iff.mp hrun
    have hmem := mem_of_getElem? (ofOption_eq_ok_iff.mp hs)
    exact h.update (fun hfunc => hvec (Bool.eq_false_iff.mpr hstar) hfunc s hmem) hrun

variable {n : ℕ}

theorem nonNull_updateColumn (hvec : Boxes agg vec) (h : state.NonNull)
    (hrun : updateColumn D n agg vec state = some (.ok state')) : state'.NonNull := by
  rw [updateColumn] at hrun
  split at hrun
  next => exact pure_eq_ok_iff.mp hrun ▸ ⟨h.min, h.max⟩
  next hstar =>
    refine invariant_foldl (fun state i state' h hrun => ?_)
      h hrun
    obtain ⟨s, hs, hrun⟩ := bind_eq_ok_iff.mp hrun
    have hmem := mem_of_getElem? (ofOption_eq_ok_iff.mp hs)
    exact h.update (fun hfunc => hvec (Bool.eq_false_iff.mpr hstar) hfunc s hmem) hrun

variable {vecs : List (List Scalar)} {aggs : List AggrExpr}

theorem UpdatesEach.nonNull {f g} (hg : UpdatesEach f g)
    (hf : ∀ {agg vec state state'}, Boxes agg vec → state.NonNull →
      f agg vec state = some (.ok state') → state'.NonNull)
    (hvecs : Forall₂ Boxes aggs vecs) (h : ∀ state ∈ states, state.NonNull)
    (hrun : g aggs vecs states = some (.ok states')) : ∀ state ∈ states', state.NonNull := by
  induction hvecs generalizing states states' with
  | nil =>
    rw [hg.nil] at hrun
    exact pure_eq_ok_iff.mp hrun ▸ h
  | cons hvec _ ih =>
    cases states with
    | nil =>
      rw [hg.short] at hrun
      cases hrun
    | cons state states =>
      obtain ⟨hstate, hstates⟩ := forall_mem_cons.mp h
      rw [hg.cons] at hrun
      obtain ⟨state₁, hstate₁, hrun⟩ := bind_eq_ok_iff.mp hrun
      obtain ⟨states₁, hstates₁, hrun⟩ := bind_eq_ok_iff.mp hrun
      obtain rfl := pure_eq_ok_iff.mp hrun
      exact forall_mem_cons.mpr ⟨hf hvec hstate hstate₁, ih hstates hstates₁⟩

variable {all part : List Row} {ht ht' : AggregateHashTable} {chunk : DataChunk}

theorem isNull_getValue {e : Expr} {type : TypeId} (htype : Expr.HasType D types all e type)
    (hnamed : type.storageClass ≠ .none) (hpart : ∀ r ∈ part, r ∈ all)
    (hvec : Forall₂ (fun r s => e.eval D (Row.scalars types r) = some (.ok s)) part vec) :
    ∀ s ∈ vec, s.getValue.isNull = false := by
  intro s hs
  obtain ⟨r, hr, heval⟩ := hvec.exists_of_mem_right hs
  obtain ⟨rfl, -⟩ := htype r (hpart r hr) s heval
  exact Cell.isNull_box hnamed

section

variable (htyped : op.Typed D types groupTypes all)
include htyped

theorem of_argVecs (hpart : ∀ r ∈ part, r ∈ all) (hchunk : chunk.Holds types part)
    (h : Fallible.traverse (argVec (Expr.evaluate D chunk)) op.aggrExprs = some (.ok vecs)) :
    (∀ agg ∈ op.aggrExprs, agg.Evaluates D types part) ∧
      Forall₂ Boxes op.aggrExprs vecs := by
  have hvecs := traverse_eq_ok_iff.mp h
  have hvec : ∀ agg vec, agg.isStar = false → argVec (Expr.evaluate D chunk) agg = some (.ok vec) →
      Forall₂ (fun r s => agg.arg.eval D (Row.scalars types r) = some (.ok s)) part vec := by
    intro agg vec hstar hrun
    rw [argVec, hstar] at hrun
    exact (Expr.evaluate_eq_ok_iff hchunk).mp hrun
  constructor
  · intro agg hagg hstar
    obtain ⟨vec, hrun⟩ := exists_forall₂_iff.mp ⟨vecs, hvecs⟩ agg hagg
    exact exists_forall₂_iff.mp ⟨vec, hvec agg vec hstar hrun⟩
  · have hall := (forall₂_and_left _ _).mpr ⟨htyped.aggs, hvecs⟩
    refine hall.imp fun agg vec h hstar hfunc => ?_
    obtain ⟨hagg, hrun⟩ := h
    have htype : agg.resultType.Comparable ∧ agg.arg.HasType D types all agg.resultType := by
      obtain hfunc | hfunc := hfunc <;> simp only [WellTyped, hfunc] at hagg <;>
        exact hagg.2
    exact isNull_getValue htype.2 htype.1.named hpart (hvec agg vec hstar hrun)

theorem of_groupVecs (hpart : ∀ r ∈ part, r ∈ all) (hchunk : chunk.Holds types part)
    (h : Fallible.traverse (fun e => e.evaluate D chunk) op.groupExprs = some (.ok vecs)) :
    (∀ e ∈ op.groupExprs, ∀ r ∈ part, ∃ s, e.eval D (r.scalars types) = some (.ok s)) ∧
      vecs.length = op.groupExprs.length ∧
      ∀ vec ∈ vecs, ∀ s ∈ vec, s.getValue.isNull = false := by
  have hvecs := (traverse_eq_ok_iff.mp h).imp fun e vec h =>
    (Expr.evaluate_eq_ok_iff hchunk).mp h
  refine ⟨fun e he => ?_, hvecs.length_eq.symm, fun vec hvec => ?_⟩
  · obtain ⟨vec, hvec⟩ := exists_forall₂_iff.mp ⟨vecs, hvecs⟩ e he
    exact exists_forall₂_iff.mp ⟨vec, hvec⟩
  · obtain ⟨e, he, hvec⟩ := hvecs.exists_of_mem_right hvec
    obtain ⟨type, htype, hhas⟩ := htyped.groups.flip.exists_of_mem_right he
    exact isNull_getValue hhas (htyped.comparable type htype).named hpart hvec

/-- **A chunk that is consumed** can be evaluated, and leaves entries that count as values. -/
theorem of_consume (hpart : ∀ r ∈ part, r ∈ all) (hchunk : chunk.Holds types part)
    (h : ht.NonNull op.groupExprs.length) (hrun : op.consume P D ht chunk = some (.ok ht')) :
    op.Evaluates D types part ∧ ht'.NonNull op.groupExprs.length := by
  rw [consume, consumeValues, hchunk.count] at hrun
  split at hrun
  next hempty =>
    obtain rfl := length_eq_zero_iff.mp hempty
    exact ⟨⟨fun _ _ => forall_mem_nil _, fun _ _ _ => forall_mem_nil _⟩, pure_eq_ok_iff.mp hrun ▸ h⟩
  next =>
    split at hrun
    next hgroup =>
      obtain ⟨aggVecs, hargs, hrun⟩ := bind_eq_ok_iff.mp hrun
      obtain ⟨heval, hboxes⟩ := of_argVecs htyped hpart hchunk hargs
      obtain ⟨⟨i, ht₁⟩, hfind, hrun⟩ := bind_eq_ok_iff.mp hrun
      refine ⟨⟨fun e he => ?_, heval⟩, ?_⟩
      · rw [hgroup] at he
        cases he
      · exact (h.findOrCreate (by rw [hgroup]; rfl) (forall_mem_nil _) hfind).updateEntry
          (fun _ _ => (updateColumns_each D _).nonNull nonNull_updateColumn hboxes) hrun
    next =>
      obtain ⟨groupVecs, hgroups, hrun⟩ := bind_eq_ok_iff.mp hrun
      obtain ⟨hevals, hlength, hvalues⟩ := of_groupVecs htyped hpart hchunk hgroups
      obtain ⟨aggVecs, hargs, hrun⟩ := bind_eq_ok_iff.mp hrun
      obtain ⟨heval, hboxes⟩ := of_argVecs htyped hpart hchunk hargs
      refine ⟨⟨hevals, heval⟩, ?_⟩
      refine invariant_foldl
        (fun ht row ht' h hrun => ?_) h hrun
      obtain ⟨key, hkey, hrun⟩ := bind_eq_ok_iff.mp hrun
      obtain ⟨⟨i, ht₁⟩, hfind, hrun⟩ := bind_eq_ok_iff.mp hrun
      have hkey := mapM_eq_some_iff.mp (ofOption_eq_ok_iff.mp hkey)
      refine (h.findOrCreate (hkey.length_eq.symm.trans hlength) (fun v hv => ?_) hfind).updateEntry
        (fun _ _ => (updateStates_each D _).nonNull nonNull_updateState hboxes) hrun
      obtain ⟨vec, hvec, hv⟩ := hkey.exists_of_mem_right hv
      obtain ⟨s, hs, rfl⟩ := map_eq_some_iff.mp hv
      exact hvalues vec hvec s (mem_of_getElem? hs)

/-- **All chunks**. -/
theorem of_foldl_consume {chunks : List DataChunk} {parts : List (List Row)}
    (hparts : Forall₂ (Holds · types ·) chunks parts)
    (hsub : ∀ r ∈ parts.flatten, r ∈ all) (h : ht.NonNull op.groupExprs.length)
    (hrun : foldl (op.consume P D) ht chunks = some (.ok ht')) :
    op.Evaluates D types parts.flatten ∧ ht'.NonNull op.groupExprs.length := by
  induction hparts generalizing ht with
  | nil =>
    exact ⟨⟨fun _ _ => forall_mem_nil _, fun _ _ _ => forall_mem_nil _⟩, pure_eq_ok_iff.mp hrun ▸ h⟩
  | cons hchunk _ ih =>
    rw [flatten_cons, forall_mem_append] at hsub
    obtain ⟨ht₁, hfirst, hrun⟩ := bind_eq_ok_iff.mp hrun
    obtain ⟨heval, h₁⟩ := of_consume htyped hsub.1 hchunk h hfirst
    obtain ⟨hevals, h'⟩ := ih hsub.2 h₁ hrun
    refine ⟨⟨fun e he => ?_, fun agg hagg hstar => ?_⟩, h'⟩ <;>
      rw [flatten_cons, forall_mem_append]
    · exact ⟨heval.groups e he, hevals.groups e he⟩
    · exact ⟨heval.args agg hagg hstar, hevals.args agg hagg hstar⟩

end

end PhysicalHashAggregation

/-! ## Emitting the groups -/

theorem exists_of_appendAggregates {D : DoubleOps} {aggs : List (AggFunc × TypeId)}
    {cols cols' : List DataVector} {states : List AggregateState}
    (hcols : cols.map (·.type) = aggs.map Prod.snd)
    (hnamed : ∀ agg ∈ aggs, agg.2.storageClass ≠ .none) (h : ∀ state ∈ states, state.NonNull)
    (hrun : appendAggregates D cols aggs states = some (.ok cols')) :
    ∃ row : Row, row.NoNull ∧ AppendedRow cols row cols' := by
  induction aggs generalizing cols cols' states with
  | nil =>
    obtain rfl := map_eq_nil_iff.mp hcols
    obtain rfl := pure_eq_ok_iff.mp hrun
    exact ⟨[], forall_mem_nil _, .nil⟩
  | cons agg aggs ih =>
    cases cols with
    | nil => cases hcols
    | cons col cols =>
      cases states with
      | nil => cases hrun
      | cons state states =>
        rw [map_cons, map_cons, cons.injEq] at hcols
        obtain ⟨hagg, hnamed⟩ := forall_mem_cons.mp hnamed
        obtain ⟨hstate, hstates⟩ := forall_mem_cons.mp h
        obtain ⟨val, hval, hrun⟩ := bind_eq_ok_iff.mp hrun
        obtain ⟨col₁, hcol, hrun⟩ := bind_eq_ok_iff.mp hrun
        obtain ⟨cols₁, hrest, hrun⟩ := bind_eq_ok_iff.mp hrun
        obtain rfl := pure_eq_ok_iff.mp hrun
        obtain ⟨x, happ⟩ := exists_of_appendValue (hcols.1 ▸ hagg)
          (hstate.finalize hagg hval) hcol
        obtain ⟨row, hrow, happs⟩ := ih hcols.2 hnamed hstates hrest
        exact ⟨some x :: row, forall_mem_cons.mpr ⟨nofun, hrow⟩, .cons happ happs⟩

namespace PhysicalAggregationSource

variable {src : PhysicalAggregationSource} {D : DoubleOps} {ht : AggregateHashTable}
  {groupTypes : List TypeId}

/-- The columns of the source: those of the key and those of the aggregates. -/
structure WellTyped (src : PhysicalAggregationSource) (groupTypes : List TypeId) : Prop where
  outputTypes : src.outputTypes = groupTypes ++ src.aggs.map Prod.snd
  numGroupCols : src.numGroupCols = groupTypes.length
  groups : ∀ type ∈ groupTypes, type.storageClass ≠ .none
  aggs : ∀ agg ∈ src.aggs, agg.2.storageClass ≠ .none

variable {out output : DataChunk} {rows : List Row}

theorem exists_of_emitEntry (hsrc : src.WellTyped groupTypes) {entry : AggEntry}
    (hentry : entry.NonNull src.numGroupCols)
    (hout : output.Holds src.outputTypes rows) (hroom : rows.length < standardVectorSize)
    (hrun : src.emitEntry D output entry = some (.ok out)) :
    ∃ row : Row, row.NoNull ∧ out.Holds src.outputTypes (rows ++ [row]) := by
  obtain ⟨keys, hkeys, hrun⟩ := bind_eq_ok_iff.mp hrun
  obtain ⟨aggs, haggs, hrun⟩ := bind_eq_ok_iff.mp hrun
  obtain rfl := pure_eq_ok_iff.mp hrun
  have htake : (output.columns.take src.numGroupCols).map (·.type) = groupTypes := by
    rw [map_take, hout.types, hsrc.outputTypes, hsrc.numGroupCols, take_left]
  have hdrop : (output.columns.drop src.numGroupCols).map (·.type) = src.aggs.map Prod.snd := by
    rw [map_drop, hout.types, hsrc.outputTypes, hsrc.numGroupCols, drop_left]
  obtain ⟨key, hkey, hkeyrow⟩ := exists_of_appendValues (by
      rw [← length_map (·.type), htake, hentry.length, hsrc.numGroupCols])
    (fun v hv => hsrc.groups _ (htake ▸ mem_map_of_mem hv)) hentry.key hkeys
  obtain ⟨results, hresults, happs⟩ :=
    exists_of_appendAggregates hdrop hsrc.aggs hentry.states haggs
  refine ⟨key ++ results, forall_mem_append.mpr ⟨hkey, hresults⟩,
    hout.append (hout.count ▸ hroom) ?_⟩
  rw [← take_append_drop src.numGroupCols output.columns]
  exact hkeyrow.append happs

theorem exists_of_emit (hsrc : src.WellTyped groupTypes) {entries : List AggEntry}
    (hentries : ∀ entry ∈ entries, entry.NonNull src.numGroupCols)
    (hout : output.Holds src.outputTypes rows)
    (hrows : ∀ row ∈ rows, Row.NoNull row)
    (hroom : rows.length + entries.length ≤ standardVectorSize)
    (hrun : foldl (src.emitEntry D) output entries = some (.ok out)) :
    ∃ rows' : List Row, (∀ row ∈ rows', row.NoNull) ∧ out.Holds src.outputTypes rows' := by
  induction entries generalizing output rows with
  | nil => exact ⟨rows, hrows, pure_eq_ok_iff.mp hrun ▸ hout⟩
  | cons entry entries ih =>
    rw [length_cons] at hroom
    obtain ⟨hentry, hentries⟩ := forall_mem_cons.mp hentries
    obtain ⟨out₁, hfirst, hrun⟩ := bind_eq_ok_iff.mp hrun
    obtain ⟨row, hrow, hout₁⟩ := exists_of_emitEntry hsrc hentry hout (by omega) hfirst
    refine ih hentries hout₁ ?_ ?_ hrun
    · rw [forall_mem_append, forall_mem_singleton]
      exact ⟨hrows, hrow⟩
    · rw [length_append, length_singleton]
      omega

variable {i : ℕ}

theorem exists_of_getData (hsrc : src.WellTyped groupTypes) (h : ht.NonNull src.numGroupCols)
    {j : ℕ} {result : OperatorResultType}
    (hrun : src.getData D ht i = some (.ok (result, out, j))) :
    ∃ rows : List Row, (∀ row ∈ rows, row.NoNull) ∧ out.Holds src.outputTypes rows := by
  have hinit := holds_initializeTypes src.outputTypes
  rw [getData] at hrun
  split at hrun
  next hzero =>
    obtain ⟨columns, hcols, hrun⟩ := bind_eq_ok_iff.mp hrun
    cases pure_eq_ok_iff.mp hrun
    have htypes : groupTypes = [] := length_eq_zero_iff.mp (hsrc.numGroupCols.symm.trans hzero.1)
    obtain ⟨row, hrow, happ⟩ := exists_of_appendAggregates
      (by rw [hinit.types, hsrc.outputTypes, htypes]; rfl) hsrc.aggs
      (fun state hstate => eq_of_mem_replicate hstate ▸ AggregateState.nonNull_fresh) hcols
    exact ⟨[row], forall_mem_singleton.mpr hrow, hinit.append (by rw [hinit.count]; decide) happ⟩
  next =>
    obtain ⟨out', hemit, hrun⟩ := bind_eq_ok_iff.mp hrun
    cases pure_eq_ok_iff.mp hrun
    exact exists_of_emit hsrc
      (fun entry he => h entry (mem_of_mem_drop (mem_of_mem_take he))) hinit
      (forall_mem_nil _) (by simp) hemit

/-- **No row of the output has a NULL.** -/
theorem exists_of_drain (hsrc : src.WellTyped groupTypes) (h : ht.NonNull src.numGroupCols)
    {fuel : ℕ} {outs : List DataChunk} (hrun : src.drain D ht fuel i = some (.ok outs)) :
    ∃ rows : List Row, (∀ row ∈ rows, row.NoNull) ∧
      HoldAll outs src.outputTypes rows := by
  induction fuel generalizing i outs with
  | zero => cases hrun
  | succ fuel ih =>
    obtain ⟨⟨result, out, j⟩, hdata, hrun⟩ := bind_eq_ok_iff.mp hrun
    obtain ⟨rows, hrows, hout⟩ := exists_of_getData hsrc h hdata
    have hholds : ∃ rows' : List Row, (∀ row ∈ rows', row.NoNull) ∧
        HoldAll (if out.count = 0 then [] else [out]) src.outputTypes rows' := by
      split
      · exact ⟨[], forall_mem_nil _, [], .nil, rfl⟩
      · exact ⟨rows, hrows, [rows], .cons hout .nil, append_nil rows⟩
    obtain ⟨rows₁, hrows₁, hholds₁⟩ := hholds
    dsimp only at hrun
    split at hrun
    · exact ⟨rows₁, hrows₁, pure_eq_ok_iff.mp hrun ▸ hholds₁⟩
    · obtain ⟨rest, hrest, hrun⟩ := bind_eq_ok_iff.mp hrun
      obtain ⟨rows₂, hrows₂, hholds₂⟩ := ih hrest
      exact ⟨rows₁ ++ rows₂, forall_mem_append.mpr ⟨hrows₁, hrows₂⟩,
        pure_eq_ok_iff.mp hrun ▸ hholds₁.append hholds₂⟩

end PhysicalAggregationSource

/-! ## GROUP BY -/

namespace PhysicalHashAggregation

variable {op : PhysicalHashAggregation} {P : Platform} {D : DoubleOps}
  {types groupTypes : List TypeId} {rows : List Row} {chunks : List DataChunk}

theorem wellTyped_source (htyped : op.Typed D types groupTypes rows) :
    (op.source groupTypes).WellTyped groupTypes := by
  refine ⟨?_, length_groupTypes htyped, fun t ht => (htyped.comparable t ht).named, ?_⟩
  · rw [source, List.map_map]
    rfl
  · intro agg hagg
    obtain ⟨agg, hmem, rfl⟩ := mem_map.mp hagg
    have hwell := htyped.aggs agg hmem
    cases hfunc : agg.func <;> simp only [WellTyped, hfunc] at hwell
    case count =>
      rw [hwell]
      decide
    case min => exact hwell.2.1.named
    case max => exact hwell.2.1.named

/-- An input of the aggregation: chunks of the same types, and expressions whose values can be
compared exactly. -/
structure Input (op : PhysicalHashAggregation) (D : DoubleOps) (types groupTypes : List TypeId)
    (chunks : List DataChunk) (rows : List Row) : Prop where
  holds : HoldAll chunks types rows
  typed : op.Typed D types groupTypes rows

theorem aggregatesExactly_of_noNull (h : op.Input D types groupTypes chunks rows)
    (heval : op.Evaluates D types rows) (hnull : ∀ row ∈ rows, (op.keyOf D types row).NoNull)
    (hchooses : op.Chooses D types rows) :
    op.AggregatesExactly D types groupTypes P chunks rows := by
  obtain ⟨parts, hparts, rfl⟩ := h.holds
  obtain ⟨ht, hrun, hconsumed⟩ := (consumed_nil).exists_foldl h.typed heval hnull hparts
    fun r hr => hr
  obtain ⟨outs, n, hdrain, houts⟩ := exists_drain h.typed heval hchooses hconsumed
  refine ⟨outs, n, fun fuel hfuel => ?_, houts⟩
  rw [run, bind_of_ok hrun, hdrain fuel hfuel]

theorem of_aggregatesExactly (h : op.Input D types groupTypes chunks rows)
    (hexact : op.AggregatesExactly D types groupTypes P chunks rows) :
    op.Evaluates D types rows ∧ (∀ row ∈ rows, (op.keyOf D types row).NoNull) ∧
      op.Chooses D types rows := by
  obtain ⟨parts, hparts, rfl⟩ := h.holds
  obtain ⟨outs, n, hrun, outRows, houts, keys, -, hkeys, hrows⟩ := hexact
  have hrun := hrun n le_rfl
  obtain ⟨ht, hconsume, hdrain⟩ := bind_eq_ok_iff.mp hrun
  have hempty : AggregateHashTable.NonNull op.groupExprs.length
      { numAggregates := op.aggrExprs.length } := forall_mem_nil _
  obtain ⟨heval, hnonNull⟩ := of_foldl_consume h.typed hparts (fun r hr => hr) hempty hconsume
  obtain ⟨rows', hnull, houts'⟩ := PhysicalAggregationSource.exists_of_drain
    (wellTyped_source h.typed) hnonNull hdrain
  obtain rfl := houts.unique houts'
  -- the row of a group has no NULL, neither in its key nor in its results
  have hgroup : ∀ key, op.HasGroup D types parts.flatten key → key.NoNull ∧
      ∀ agg ∈ op.aggrExprs, ∃ x, agg.IsResult D types
        (parts.flatten.filter (op.keyOf D types · = key)) (some x) := by
    intro key hkey
    obtain ⟨out, hout, results, rfl, hresults⟩ := hrows.flip.exists_of_mem_right ((hkeys key).mpr hkey)
    obtain ⟨hkeynull, hresnull⟩ := forall_mem_append.mp (hnull _ hout)
    refine ⟨hkeynull, fun agg hagg => ?_⟩
    obtain ⟨result, hmem, hresult⟩ := hresults.flip.exists_of_mem_right hagg
    obtain ⟨x, rfl⟩ := ne_none_iff_exists'.mp (hresnull result hmem)
    exact ⟨x, hresult⟩
  refine ⟨heval, fun row hrow => (hgroup _ (.inr ⟨row, hrow, rfl⟩)).1, ?_⟩
  intro key hkey agg hagg hfunc
  obtain ⟨x, hx⟩ := (hgroup key hkey).2 agg hagg
  have hwell := h.typed.aggs agg hagg
  have hmem : some x ∈ (parts.flatten.filter (op.keyOf D types · = key)).map
      (agg.arg.cell D types) := by
    cases hf : agg.func <;> simp only [WellTyped, hf] at hwell
    case count => exact absurd hf hfunc
    all_goals
      rw [IsResult, hwell.1, hf] at hx
      obtain ⟨-, hx⟩ | ⟨y, hy, hext⟩ := hx
      · cases hx
      · cases hy
        exact hext.1
  obtain ⟨row, hrow, hcell⟩ := mem_map.mp hmem
  obtain ⟨hrow, hkey'⟩ := mem_filter.mp hrow
  exact ⟨row, hrow, of_decide_eq_true hkey', hcell ▸ some_ne_none x⟩

/-- **GROUP BY**: the rows that the source emits are one for each group key, with the key and
the aggregates over the rows that have it, if and only if the expressions can be evaluated, no
group key has a NULL, and every MIN and MAX has an argument to choose from in every group. -/
theorem aggregatesExactly_iff (op : PhysicalHashAggregation) (P : Platform) (D : DoubleOps)
    (types groupTypes : List TypeId) (chunks : List DataChunk) (rows : List Row)
    (h : op.Input D types groupTypes chunks rows) :
    op.AggregatesExactly D types groupTypes P chunks rows ↔
      op.Evaluates D types rows ∧ (∀ row ∈ rows, (op.keyOf D types row).NoNull) ∧
        op.Chooses D types rows :=
  ⟨of_aggregatesExactly h, fun hok => aggregatesExactly_of_noNull h hok.1 hok.2.1 hok.2.2⟩

/-! ## Two aggregations -/

/-- `SELECT c, COUNT(*), MIN(c) … GROUP BY c`, over one BIGINT column. -/
def byColumn : PhysicalHashAggregation where
  groupExprs := [.columnRef .int64 0]
  aggrExprs := [{ func := .count, isStar := true, arg := .columnRef .int64 0, resultType := .int64 },
    { func := .min, arg := .columnRef .int64 0, resultType := .int64 }]

theorem input_byColumn (xs : List (Option Int64)) : byColumn.Input TableScan.noDoubles [.int64]
    [.int64] (xs.map fun x => bigintChunk [x]) (xs.map fun x => [x.map .int]) := by
  have hcmp : TypeId.Comparable .int64 := ⟨by decide, by decide⟩
  have htype : Expr.HasType TableScan.noDoubles [.int64] (xs.map fun x => [x.map .int])
      (.columnRef .int64 0) .int64 := by
    intro row hrow s hs
    obtain ⟨x, -, rfl⟩ := mem_map.mp hrow
    cases hs
    refine ⟨rfl, fun y hy => ?_⟩
    obtain ⟨z, -, rfl⟩ := map_eq_some_iff.mp hy
    exact ⟨rfl, nofun⟩
  have hholds : HoldAll (xs.map fun x => bigintChunk [x]) [.int64]
      (xs.map fun x => [x.map .int]) := by
    refine ⟨xs.map fun x => [[x.map .int]], ?_, ?_⟩
    · rw [forall₂_map_left_iff, forall₂_map_right_iff, forall₂_same]
      exact fun x _ => bigintChunk_holdsRow [x]
    · exact map_eq_flatMap.symm
  refine ⟨hholds, .cons htype .nil, forall_mem_singleton.mpr hcmp, ?_⟩
  refine forall_mem_cons.mpr ⟨rfl, forall_mem_singleton.mpr ⟨rfl, hcmp, htype⟩⟩

/-- Three chunks with two groups, the first of two rows. -/
theorem aggregates_two_groups :
    byColumn.AggregatesExactly TableScan.noDoubles [.int64] [.int64] Platform.plain
      [bigintChunk [some 7], bigintChunk [some 8], bigintChunk [some 7]]
      [[some (.int 7)], [some (.int 8)], [some (.int 7)]] := by
  refine (aggregatesExactly_iff _ _ _ _ _ _ _ (input_byColumn [some 7, some 8, some 7])).mpr
    ⟨⟨fun e he row hrow => ?_, fun agg hagg hstar row hrow => ?_⟩, ?_, ?_⟩
  · obtain rfl := mem_singleton.mp he
    obtain ⟨x, -, rfl⟩ := mem_map.mp hrow
    exact ⟨_, rfl⟩
  · obtain ⟨x, -, rfl⟩ := mem_map.mp hrow
    obtain rfl | hagg := mem_cons.mp hagg
    · cases hstar
    · obtain rfl := mem_singleton.mp hagg
      exact ⟨_, rfl⟩
  · simp only [Row.NoNull]
    decide +kernel
  · intro key hkey agg hagg hfunc
    obtain ⟨hnil, -⟩ | ⟨row, hrow, rfl⟩ := hkey
    · cases hnil
    · refine ⟨row, hrow, rfl, ?_⟩
      obtain rfl | hagg := mem_cons.mp hagg
      · exact absurd rfl hfunc
      · obtain rfl := mem_singleton.mp hagg
        revert row
        decide +kernel

/-- The group of NULL is returned as the group of 0. -/
theorem null_group_is_zero :
    byColumn.Input TableScan.noDoubles [.int64] [.int64] [bigintChunk [none]] [[none]] ∧
      ¬ byColumn.AggregatesExactly TableScan.noDoubles [.int64] [.int64] Platform.plain
        [bigintChunk [none]] [[none]] := by
  refine ⟨input_byColumn [none], fun hexact => ?_⟩
  obtain ⟨-, hnull, -⟩ := of_aggregatesExactly (input_byColumn [none]) hexact
  exact hnull _ (mem_singleton_self _) none (by decide +kernel) rfl

end PhysicalHashAggregation

end CppColDB
