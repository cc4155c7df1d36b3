import CppColDB.Execution.TableScan
import CppColDB.Lib.Fallible
import CppColDB.Storage.Column.Rows

/-!
# Expressions over the rows of a chunk

The operators above the scan evaluate their expressions on whole chunks. What a row of the
result holds only depends on that row of the chunk.
-/

namespace CppColDB

open BinaryOp DataVector List Option

/-- Row `row` of columns of the given types, as expressions see it. -/
def Row.scalars (types : List TypeId) (row : Row) (p : ℕ) : Option Scalar := do
  let type ← types[p]?
  let cell ← row[p]?
  pure { type, cell }

/-- The cells of a row lie in the arrays of their columns' types. -/
def Row.Typed (types : List TypeId) (row : Row) : Prop :=
  ∀ p s x, row.scalars types p = some s → s.cell = some x → x.storageClass = s.type.storageClass

variable {types : List TypeId} {row : Row} {rows : List Row} {c : DataChunk}

theorem DataChunk.Holds.scalars_eq (h : c.Holds types rows) {i : ℕ} (hi : rows[i]? = some row) :
    c.scalars i = row.scalars types := by
  funext p
  rw [DataChunk.scalars, Row.scalars]
  cases hp : types[p]? with
  | none =>
    have hcol : c.columns[p]? = none := by
      rw [← h.types, getElem?_map, map_eq_none_iff] at hp
      exact hp
    rw [hcol]
    rfl
  | some type =>
    obtain ⟨col, cell, hcol, rfl, hcell, heq⟩ := h.column hi hp
    rw [hcol, hcell]
    simp [heq]

theorem DataChunk.Holds.typed (h : c.Holds types rows) (hrow : row ∈ rows) : row.Typed types := by
  obtain ⟨i, hi⟩ := mem_iff_getElem?.mp hrow
  intro p s x hs hx
  obtain ⟨type, htype, hs⟩ := bind_eq_some_iff.mp hs
  obtain ⟨cell, hcell, hs⟩ := bind_eq_some_iff.mp hs
  cases hs
  obtain ⟨col, cell', -, rfl, hcell', heq⟩ := h.column hi htype
  obtain rfl := some.inj (hcell'.symm.trans hcell)
  obtain rfl : cell' = some x := hx
  exact storageClass_of_load (cell?_eq_some_some.mp heq).2

/-- The values of a row that are not NULL lie in the arrays of the given types. -/
def ScalarsTyped (types : List TypeId) (row : ℕ → Option Scalar) : Prop :=
  ∀ p s x, row p = some s → s.cell = some x →
    (types[p]?.map TypeId.storageClass).getD .none = s.type.storageClass ∧
      x.storageClass = s.type.storageClass

theorem Row.Typed.scalarsTyped (h : row.Typed types) :
    ScalarsTyped types (row.scalars types) := by
  intro p s x hs hx
  refine ⟨?_, h p s x hs hx⟩
  obtain ⟨t, ht, hs⟩ := bind_eq_some_iff.mp hs
  obtain ⟨cell, -, hs⟩ := bind_eq_some_iff.mp hs
  cases hs
  rw [ht]
  rfl

/-- The rows of any chunk: its cells are read from the arrays of its vectors' types. -/
theorem DataChunk.scalarsTyped (c : DataChunk) (i : ℕ) :
    ScalarsTyped (c.columns.map type) (c.scalars i) := by
  intro p s x hs hx
  obtain ⟨v, hv, hs⟩ := bind_eq_some_iff.mp hs
  obtain ⟨cell, hcell, hs⟩ := bind_eq_some_iff.mp hs
  cases hs
  obtain rfl : cell = some x := hx
  rw [getElem?_map, hv]
  exact ⟨rfl, storageClass_of_load (cell?_eq_some_some.mp hcell).2⟩

namespace Expr

/-- `ExprEvaluator::Evaluate` on a chunk. -/
def evaluate (D : DoubleOps) (chunk : DataChunk) (e : Expr) : Fallible Error (List Scalar) :=
  Fallible.traverse (fun i => e.eval D (chunk.scalars i)) (range chunk.count)

variable {D : DoubleOps} {e : Expr} {types : List TypeId}

/-- **Evaluation of a chunk** is evaluation of its rows. -/
theorem evaluate_eq_ok_iff {chunk : DataChunk} (h : chunk.Holds types rows)
    {vec : List Scalar} :
    e.evaluate D chunk = some (.ok vec) ↔
      Forall₂ (fun row s => e.eval D (row.scalars types) = some (.ok s)) rows vec := by
  refine Fallible.traverse_eq_ok_iff.trans ?_
  rw [h.count, forall₂_iff_get, forall₂_iff_get]
  refine and_congr (by rw [length_range]) (forall_congr' fun i => ?_)
  constructor
  · intro hrows hi hv
    have heval := hrows (by simpa using hi) hv
    rwa [get_eq_getElem, getElem_range, h.scalars_eq (getElem?_eq_getElem hi)] at heval
  · intro hrows hi hv
    have hi' : i < rows.length := by simpa using hi
    rw [get_eq_getElem, getElem_range, h.scalars_eq (getElem?_eq_getElem hi')]
    exact hrows hi' hv

/-- The value of an expression on a row; NULL where it has none. -/
def cell (D : DoubleOps) (types : List TypeId) (e : Expr) (row : Row) : Cell :=
  match e.eval D (row.scalars types) with
  | some (.ok s) => s.cell
  | _ => none

variable {s : Scalar} {row : Row}

theorem cell_eq
    (h : e.eval D (row.scalars types) = some (.ok s)) : e.cell D types row = s.cell := by
  rw [cell, h]

/-- The array in which an expression has its values, over columns of the given types. -/
def storageClass (types : List TypeId) : Expr → TypeId.StorageClass
  | .columnRef _ c => (types[c]?.map TypeId.storageClass).getD .none
  | .literal _ v _ => v.type.storageClass
  | .binaryOp type _ _ _ => type.storageClass
  | .unaryOp _ _ child => child.storageClass types
  | .cast type fromType child =>
    if fromType = .int64 ∧ type.storageClass = .float then .float
    else if fromType.storageClass = .float ∧ type = .int64 then .int
    else child.storageClass types
  | .aggregate _ => .none

variable {type : TypeId} {x : Datum}

theorem storageClass_of_intElement {v : Int64}
    (h : intElement type x = some v) : type.storageClass = .int := by
  unfold intElement at h
  split at h
  next _ _ hclass => exact hclass
  next => cases h

theorem storageClass_boolCell {b : Bool}
    (h : boolCell type b = some (some x)) : x.storageClass = type.storageClass := by
  rw [boolCell] at h
  split at h
  next hclass =>
    cases h
    exact hclass.symm
  next => cases h

theorem storageClass_apply {op : BinaryOp} {l r : Scalar}
    (h : op.apply D type l r = some (some x)) :
    x.storageClass = type.storageClass := by
  unfold apply at h
  split at h
  · cases op with
    | add | sub | mul | div =>
      obtain ⟨_, -, h⟩ := bind_eq_some_iff.mp h
      obtain ⟨_, -, h⟩ := bind_eq_some_iff.mp h
      split at h
      · cases h
      · split at h
        next hclass =>
          cases h
          exact hclass.symm
        next hclass =>
          obtain ⟨v, -, h⟩ := map_eq_some_iff.mp h
          cases h
          exact hclass.symm
        next => cases h
    | eq | lt | gt | le | ge | ne =>
      obtain ⟨_, -, h⟩ := bind_eq_some_iff.mp h
      exact storageClass_boolCell h
    | and | or =>
      obtain ⟨_, -, h⟩ := bind_eq_some_iff.mp h
      obtain ⟨_, -, h⟩ := bind_eq_some_iff.mp h
      exact storageClass_boolCell h
    | other => cases h
  · cases h

theorem storageClass_applyUnary {op : UnaryOp} (h : op.apply D s = some (some x)) :
    x.storageClass = s.type.storageClass ∧ ∃ y, s.cell = some y := by
  unfold UnaryOp.apply at h
  split at h
  next => cases h
  next y hy =>
    refine ⟨?_, y, hy⟩
    cases op with
    | not =>
      obtain ⟨v, hv, h⟩ := map_eq_some_iff.mp h
      cases h
      exact (storageClass_of_intElement hv).symm
    | neg =>
      dsimp only at h
      split at h
      next _ _ hclass =>
        cases h
        exact hclass.symm
      next _ _ hclass =>
        obtain ⟨v, -, h⟩ := map_eq_some_iff.mp h
        cases h
        exact hclass.symm
      next => cases h
    | other =>
      dsimp only at h
      split at h <;> cases h <;> exact Eq.symm ‹s.type.storageClass = _›

/-- **The non-NULL values** of an expression are all in that array. -/
theorem storageClass_eval_of_typed {row : ℕ → Option Scalar} (hrow : ScalarsTyped types row)
    (h : e.eval D row = some (.ok s)) (hx : s.cell = some x) :
    s.type.storageClass = e.storageClass types ∧ x.storageClass = e.storageClass types := by
  induction e generalizing s x with
  | columnRef type c =>
    obtain ⟨s', hs, h⟩ := map_eq_some_iff.mp h
    cases h
    obtain ⟨htype, hclass⟩ := hrow c _ x hs hx
    exact ⟨htype.symm, hclass.trans htype.symm⟩
  | literal type v isNull =>
    rw [eval] at h
    split at h
    · cases h
      cases hx
    · unfold Value.fill at h
      split at h <;> cases h <;> cases hx <;>
        exact ⟨rfl, Eq.symm ‹v.type.storageClass = _›⟩
  | binaryOp type op left right =>
    rw [eval] at h
    split at h <;> try cases h
    split at h <;> try cases h
    obtain ⟨cell, hcell, h⟩ := map_eq_some_iff.mp h
    cases h
    cases hx
    exact ⟨rfl, storageClass_apply hcell⟩
  | unaryOp type op child ih =>
    rw [eval] at h
    split at h <;> try cases h
    next s' hs =>
      obtain ⟨cell, hcell, h⟩ := map_eq_some_iff.mp h
      cases h
      cases hx
      obtain ⟨hclass, y, hy⟩ := storageClass_applyUnary hcell
      obtain ⟨htype, -⟩ := ih hs hy
      exact ⟨htype, hclass.trans htype⟩
  | cast type fromType child ih =>
    rw [eval] at h
    split at h <;> try cases h
    next s' hs =>
      obtain ⟨s'', hcast, h⟩ := map_eq_some_iff.mp h
      cases h
      rw [applyCast] at hcast
      split at hcast
      next =>
        cases hcast
        cases hx
      next y hy =>
        rw [storageClass]
        split at hcast
        next hfloat =>
          obtain ⟨v, -, hcast⟩ := map_eq_some_iff.mp hcast
          cases hcast
          cases hx
          rw [if_pos hfloat]
          exact ⟨hfloat.2, rfl⟩
        next hfloat =>
          rw [if_neg hfloat]
          split at hcast
          next hint =>
            rw [if_pos hint]
            split at hcast
            · obtain ⟨v, -, hcast⟩ := map_eq_some_iff.mp hcast
              cases hcast
              cases hx
              exact ⟨by rw [hint.2]; rfl, rfl⟩
            · cases hcast
          next hint =>
            cases hcast
            rw [if_neg hint]
            exact ih hs hx
  | aggregate type => cases h

theorem storageClass_eval (hrow : row.Typed types) (h : e.eval D (row.scalars types) = some (.ok s))
    (hx : s.cell = some x) :
    s.type.storageClass = e.storageClass types ∧ x.storageClass = e.storageClass types :=
  storageClass_eval_of_typed hrow.scalarsTyped h hx

end Expr

end CppColDB
