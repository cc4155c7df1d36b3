import CppColDB.Execution.HashJoin
import CppColDB.Storage.Column.Rows

/-!
# Boxed rows

What is left of a cell after it is boxed and stored again. The box of a NULL integer is that
of 0, and the other NULLs have no element that a column could store.
-/

namespace CppColDB

/-- An element of the array of the type, which for BOOLEAN is 0 or 1. The binder stores other
integers of a BOOLEAN literal as they are; they are not admitted. -/
def TypeId.Admits (type : TypeId) (x : Datum) : Prop :=
  x.storageClass = type.storageClass ∧ (type = .boolean → x = .int 0 ∨ x = .int 1)

def TypeId.AdmitsCell (type : TypeId) (c : Cell) : Prop := ∀ x ∈ c, type.Admits x

namespace Cell

/-- The box of a cell in a column of the type. -/
def box (type : TypeId) : Cell → Value
  | none => { type }
  | some x => x.box type

/-- What a column of the type stores of the box of a cell. -/
def unboxed (type : TypeId) (c : Cell) : Option Datum := (c.box type).data.unbox type

@[simp] theorem type_box (type : TypeId) (c : Cell) : (c.box type).type = type := by
  cases c with
  | none => rfl
  | some x =>
    cases x with
    | int x =>
      simp only [box, Datum.box]
      split
      next h => rw [h, Value.boolean]
      next => rfl
    | _ => rfl

variable {type : TypeId} {x : Datum} {c : Cell}

theorem isNull_box (h : type.storageClass ≠ .none) :
    (c.box type).isNull = false := by
  rw [Value.isNull, type_box, decide_eq_false_iff_not]
  rintro rfl
  exact h rfl

/-- The element of a non-NULL cell survives boxing. -/
theorem unboxed_some (h : type.Admits x) :
    unboxed type (some x) = some x := by
  obtain ⟨hcls, hbool⟩ := h
  cases x with
  | int x =>
    cases type with
    | boolean => obtain h | h := hbool rfl <;> cases h <;> rfl
    | _ => first | rfl | cases hcls
  | _ x =>
    cases type with
    | _ => first | rfl | cases hcls

/-- The box of a NULL has an element for the integer columns only, and it is 0. -/
theorem unboxed_none (type : TypeId) : unboxed type none =
      if type.storageClass = .int ∧ type ≠ .boolean then some (.int 0) else none := by
  cases type <;> rfl

theorem admits_of_unboxed (h : unboxed type c = some x) : type.Admits x := by
  rw [unboxed] at h
  generalize (c.box type).data = data at h
  refine ⟨by cases type <;> cases data <;> cases h <;> rfl, ?_⟩
  rintro rfl
  cases data <;> cases h
  split
  · exact .inr rfl
  · exact .inl rfl

end Cell

namespace DataVector

variable {v : DataVector} {c : Cell}

/-- **Boxing a row** of a vector. -/
theorem extractValue_eq {i : ℕ} (hcls : v.type.storageClass ≠ .none) (hi : i < standardVectorSize)
    (hc : v.cell? i = some c) :
    v.extractValue i = some (c.box v.type) := by
  rw [extractValue, if_neg (by omega)]
  cases c with
  | none =>
    rw [if_pos (cell?_eq_some_none.mp hc)]
    rfl
  | some x =>
    obtain ⟨hnull, hx⟩ := cell?_eq_some_some.mp hc
    rw [hnull, if_neg Bool.false_ne_true, hx]
    split
    next hnone => exact absurd hnone hcls
    next => rfl

/-- **Appending a boxed cell**: the element that its box has for the column, if it has one. -/
theorem appendValue_box (hcls : v.type.storageClass ≠ .none)
    (hcount : v.count < standardVectorSize) :
    match c.unboxed v.type with
    | none => v.appendValue (c.box v.type) = some (.error Error.badVariant)
    | some x => ∃ v', v.appendValue (c.box v.type) = some (.ok v') ∧ v.Appended (some x) v' := by
  have hnull : (c.box v.type).isNull = false := Cell.isNull_box hcls
  have hrun : v.appendValue (c.box v.type) =
      match c.unboxed v.type with
      | none => some (.error Error.badVariant)
      | some x => ((DataVector.grow
          { v with count := v.count + 1, validity := v.validity.put v.count true }
          v.type.storageClass v.count).store v.count x).map .ok := by
    rw [appendValue, if_neg (by omega), hnull, if_neg Bool.false_ne_true]
    dsimp only
    split
    next hnone => exact absurd hnone hcls
    next => rfl
  rw [hrun]
  cases hx : c.unboxed v.type with
  | none => rfl
  | some x =>
    have hclass := (Cell.admits_of_unboxed hx).1
    obtain ⟨v', hstore, happ⟩ := exists_appended_store hclass.symm hcount
    refine ⟨v', ?_, happ⟩
    dsimp only
    rw [← hclass, hstore, Option.map_some]

end DataVector

/-- The boxes of a row of columns of the types. -/
def Row.box (types : List TypeId) (row : Row) : List Value :=
  List.zipWith (fun type c => Cell.box type c) types row

/-- What columns of the types store of the boxes of a row. -/
def Row.unboxed (types : List TypeId) (row : Row) : Option (List Datum) :=
  (types.zip row).mapM fun p => Cell.unboxed p.1 p.2

end CppColDB
