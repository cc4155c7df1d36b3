import CppColDB.Storage.Column.Contents

/-!
# The rows a chunk holds

`DataChunk.Holds` relates a chunk to its rows, read as lists of cells. Appending a row of
another vector adds a cell to a column and keeps the earlier ones.
-/

namespace CppColDB

open ByteCodec List Option

/-- The class of arrays that hold an element. -/
def Datum.storageClass : Datum → TypeId.StorageClass
  | .int _ => .int
  | .float _ => .float
  | .str _ => .str

namespace DataVector

variable {v v' src : DataVector} {cls : TypeId.StorageClass} {i : ℕ} {x : Datum} {α : Type} {n : ℕ}

theorem storageClass_of_load (h : v.load cls i = some x) : x.storageClass = cls := by
  cases cls with
  | none => cases h
  | _ =>
    obtain ⟨x, -, rfl⟩ := map_eq_some_iff.mp h
    rfl

/-- `v'` is `v` with the row `c` after its rows. -/
structure Appended (v : DataVector) (c : Cell) (v' : DataVector) : Prop where
  type : v'.type = v.type
  count : v'.count = v.count + 1
  last : v'.cell? v.count = some c
  kept : ∀ i < v.count, ∀ x, v.cell? i = some x → v'.cell? i = some x

theorem grow_fields (cls : TypeId.StorageClass) (i : ℕ) :
    (v.grow cls i).type = v.type ∧ (v.grow cls i).count = v.count ∧
      (v.grow cls i).validity = v.validity := by
  cases cls <;> unfold grow
  case none => exact ⟨rfl, rfl, rfl⟩
  all_goals
    dsimp only
    split <;> exact ⟨rfl, rfl, rfl⟩

theorem reserve_reset_fields (t : TypeId) (n : ℕ) :
    ((reset t 0).reserve n).type = t ∧ ((reset t 0).reserve n).count = 0 := by
  rw [reset_zero, reserve]
  split <;> exact ⟨rfl, rfl⟩

theorem length_resize (xs : List α) (n : ℕ) (d : α) : (resize xs n d).length = n := by
  simp only [resize, length_append, length_take, length_replicate]
  omega

theorem getElem?_resize {xs : List α} {d x : α} (hn : xs.length ≤ n)
    (h : xs[i]? = some x) : (resize xs n d)[i]? = some x := by
  obtain ⟨hi, -⟩ := List.getElem?_eq_some_iff.mp h
  rw [resize, take_of_length_le hn, getElem?_append_left hi, h]

theorem lt_size_grow (hcls : cls ≠ .none) (i : ℕ) :
    i < (v.grow cls i).size cls := by
  cases cls with
  | none => exact absurd rfl hcls
  | _ =>
    simp only [grow, size]
    split
    · simp [length_resize]
    · omega

/-- Growing an array keeps its elements. -/
theorem load_grow {j : ℕ} (h : v.load cls j = some x) :
    (v.grow cls i).load cls j = some x := by
  cases cls with
  | none => cases h
  | _ =>
    simp only [grow]
    split
    · obtain ⟨y, hy, rfl⟩ := map_eq_some_iff.mp h
      simp only [load]
      rw [getElem?_resize (by omega) hy, map_some]
    · exact h

theorem exists_store (h : i < v.size x.storageClass) :
    ∃ v', v.store i x = some v' ∧ v'.type = v.type ∧ v'.count = v.count ∧ v'.validity = v.validity ∧
      ∀ j, v'.load x.storageClass j = if j = i then some x else v.load x.storageClass j := by
  cases x with
  | _ x =>
    simp only [Datum.storageClass, size] at h
    refine ⟨_, if_pos h, rfl, rfl, rfl, fun j => ?_⟩
    simp only [Datum.storageClass, load]
    by_cases hj : j = i
    · simp [hj, h]
    · simp [hj, Ne.symm hj]

/-- The validity bits after row `count` is written. -/
theorem isNull_put {b : Bool} {count : ℕ} (hcount : count < standardVectorSize)
    {type : TypeId} {ints : List Int64} {floats : List UInt64} {strs : List Bytes} :
    (DataVector.mk type n ints floats strs (v.validity.put count b)).isNull i =
      if i = count then !b else v.isNull i := by
  rw [isNull, Validity.getLsbD_put]
  by_cases hi : i = count
  · subst hi
    simp [hcount]
  · simp [hi, Ne.symm hi, isNull]

/-- A NULL is appended without a stored element. -/
theorem appended_null (hcount : v.count < standardVectorSize) : v.Appended none
      { v with count := v.count + 1, validity := v.validity.put v.count false } where
  type := rfl
  count := rfl
  last := by
    rw [cell?_eq_some_none, isNull_put hcount, if_pos rfl]
    rfl
  kept := by
    intro i hi x hx
    rw [cell?, isNull_put hcount, if_neg (Nat.ne_of_lt hi)]
    exact hx

/-- An element is appended behind the array's other elements, which may have to grow. -/
theorem exists_appended_store (hx : v.type.storageClass = x.storageClass)
    (hcount : v.count < standardVectorSize) :
    ∃ v', (DataVector.grow { v with count := v.count + 1, validity := v.validity.put v.count true }
        x.storageClass v.count).store v.count x = some v' ∧ v.Appended (some x) v' := by
  generalize hw : ({ v with
    count := v.count + 1, validity := v.validity.put v.count true } : DataVector) = w
  have hnull : ∀ i, w.isNull i = if i = v.count then false else v.isNull i := by
    intro i
    rw [← hw, isNull_put hcount]
    rfl
  have hne : x.storageClass ≠ .none := by cases x <;> simp [Datum.storageClass]
  obtain ⟨htype, hcnt, hvalid⟩ := grow_fields (v := w) x.storageClass v.count
  obtain ⟨v', hstore, htype', hcount', hvalid', hload⟩ :=
    exists_store (lt_size_grow hne v.count)
  have hwtype : v'.type = v.type := by rw [htype', htype, ← hw]
  have hnull' : ∀ i, v'.isNull i = w.isNull i := by
    intro i
    simp only [isNull, hvalid', hvalid]
  refine ⟨v', hstore, hwtype, by rw [hcount', hcnt, ← hw], ?_, ?_⟩
  · rw [cell?_eq_some_some, hnull', hnull, if_pos rfl, datum?_eq_load, hwtype, hx, hload,
      if_pos rfl]
    exact ⟨rfl, rfl⟩
  · intro i hi y hy
    have hi' : i ≠ v.count := by omega
    cases y with
    | none =>
      rw [cell?_eq_some_none] at hy ⊢
      rw [hnull', hnull, if_neg hi', hy]
    | some y =>
      rw [cell?_eq_some_some] at hy ⊢
      refine ⟨by rw [hnull', hnull, if_neg hi', hy.1], ?_⟩
      have hold : w.load x.storageClass i = some y := by
        rw [← hx, ← hy.2, ← hw]
        rfl
      rw [datum?_eq_load, hwtype, hx, hload, if_neg hi', load_grow hold]

/-- **Appending a row of another vector**, which has to use the same arrays. -/
theorem exists_append {srcIdx : ℕ} {c : Cell} (hcls : v.type.storageClass ≠ .none)
    (hsrc : src.type.storageClass = v.type.storageClass) (hcount : v.count < standardVectorSize)
    (hidx : srcIdx < standardVectorSize) (hc : src.cell? srcIdx = some c) :
    ∃ v', v.append src srcIdx = some v' ∧ v.Appended c v' := by
  rw [append, if_neg (by omega)]
  cases c with
  | none =>
    rw [cell?_eq_some_none] at hc
    rw [if_pos hc]
    exact ⟨_, rfl, appended_null hcount⟩
  | some x =>
    obtain ⟨hnull, hx⟩ := cell?_eq_some_some.mp hc
    rw [datum?_eq_load, hsrc] at hx
    have hclass := storageClass_of_load hx
    obtain ⟨v', hstore, happ⟩ := exists_appended_store hclass.symm hcount
    refine ⟨v', ?_, happ⟩
    rw [hnull, if_neg Bool.false_ne_true]
    dsimp only
    split
    next hnone => exact absurd hnone hcls
    next =>
      simp only [hx, bind, Option.bind]
      rw [← hstore, hclass]

/-- A row appended to some columns, a cell to each. -/
inductive AppendedRow : List DataVector → List Cell → List DataVector → Prop
  | nil : AppendedRow [] [] []
  | cons {v v' : DataVector} {c : Cell} {vs vs' : List DataVector} {row : List Cell}
      (head : v.Appended c v') (tail : AppendedRow vs row vs') :
      AppendedRow (v :: vs) (c :: row) (v' :: vs')

end DataVector

/-! ## Rows -/

/-- One row of a chunk. -/
abbrev Row := List Cell

namespace DataChunk

/-- The chunk has columns of the given types and holds the given rows. -/
structure Holds (c : DataChunk) (types : List TypeId) (rows : List Row) : Prop where
  count_le : c.count ≤ standardVectorSize
  count : c.count = rows.length
  types : c.columns.map (·.type) = types
  counts : ∀ col ∈ c.columns, col.count = c.count
  cells : ∀ (i : ℕ) (row : Row), rows[i]? = some row → c.columns.map (·.cell? i) = row.map some

variable {c : DataChunk} {types : List TypeId} {rows : List Row} {row : Row} {i : ℕ}
  {rows rows' : List Row} {types : List TypeId}

theorem Holds.lt (h : c.Holds types rows) (hi : rows[i]? = some row) : i < standardVectorSize := by
  have hlt := (List.getElem?_eq_some_iff.mp hi).1
  have hle := h.count_le
  have hcount := h.count
  omega

/-- A column of a chunk and its cell in a row. -/
theorem Holds.column (h : c.Holds types rows) (hi : rows[i]? = some row) {k : ℕ} {type : TypeId}
    (hk : types[k]? = some type) :
    ∃ col cell, c.columns[k]? = some col ∧ col.type = type ∧ row[k]? = some cell ∧
      col.cell? i = some cell := by
  rw [← h.types, getElem?_map, map_eq_some_iff] at hk
  obtain ⟨col, hcol, rfl⟩ := hk
  have hcell := congrArg (·[k]?) (h.cells i row hi)
  simp only [getElem?_map, hcol] at hcell
  obtain ⟨cell, hcell, heq⟩ := map_eq_some_iff.mp hcell.symm
  exact ⟨col, cell, hcol, rfl, hcell, heq.symm⟩

/-- Appending a row to every column of a chunk. -/
theorem Holds.append {columns : List DataVector} (h : c.Holds types rows)
    (hlt : c.count < standardVectorSize) (happ : DataVector.AppendedRow c.columns row columns) :
    Holds { columns, count := c.count + 1 } types (rows ++ [row]) := by
  have hfields : ∀ {vs vs' : List DataVector} {row : Row}, DataVector.AppendedRow vs row vs' →
      vs'.map (·.type) = vs.map (·.type) ∧ ∀ n, (∀ v ∈ vs, v.count = n) →
        (∀ v ∈ vs', v.count = n + 1) ∧ vs'.map (·.cell? n) = row.map some ∧
        ∀ i < n, ∀ old : Row, vs.map (·.cell? i) = old.map some →
          vs'.map (·.cell? i) = old.map some := by
    intro vs vs' row happ
    induction happ with
    | nil => exact ⟨rfl, fun n _ => ⟨by simp, rfl, fun _ _ _ h => h⟩⟩
    | @cons v v' cell vs vs' row head _ ih =>
      refine ⟨by rw [map_cons, map_cons, head.type, ih.1], fun n hn => ?_⟩
      obtain ⟨hv, hvs⟩ := forall_mem_cons.mp hn
      obtain ⟨hcounts, hlast, hkept⟩ := ih.2 n hvs
      refine ⟨forall_mem_cons.mpr ⟨by rw [head.count, hv], hcounts⟩, ?_, ?_⟩
      · rw [map_cons, map_cons, hlast, ← hv, head.last]
      · intro i hi old hold
        cases old with
        | nil => cases hold
        | cons x old =>
          rw [map_cons, map_cons, cons.injEq] at hold ⊢
          exact ⟨head.kept i (by omega) x hold.1, hkept i hi old hold.2⟩
  obtain ⟨htypes, hrest⟩ := hfields happ
  obtain ⟨hcounts, hlast, hkept⟩ := hrest c.count h.counts
  refine ⟨hlt, by simp [h.count], by rw [htypes, h.types], hcounts, fun i row' hi => ?_⟩
  rcases Nat.lt_or_ge i rows.length with hold | hnew
  · rw [getElem?_append_left hold] at hi
    exact hkept i (by rw [h.count]; exact hold) row' (h.cells i row' hi)
  · rw [getElem?_append_right hnew, getElem?_singleton] at hi
    split at hi
    next heq =>
      cases hi
      have hi' : i = c.count := by
        have hcount := h.count
        omega
      rw [hi']
      exact hlast
    next => cases hi

/-- The chunks hold the given rows, one chunk after the other. -/
def HoldAll (chunks : List DataChunk) (types : List TypeId) (rows : List Row) : Prop :=
  ∃ parts, Forall₂ (fun c part => Holds c types part) chunks parts ∧ parts.flatten = rows

theorem Holds.unique
    (h : c.Holds types rows) (h' : c.Holds types rows') : rows = rows' := by
  have hlen : rows.length = rows'.length := h.count.symm.trans h'.count
  refine ext_getElem hlen fun i hi hi' => ?_
  have hcells := h.cells i _ (getElem?_eq_getElem hi)
  rw [h'.cells i _ (getElem?_eq_getElem hi')] at hcells
  exact (map_injective_iff.mpr (some_injective _) hcells).symm

theorem HoldAll.unique {chunks : List DataChunk} (h : HoldAll chunks types rows)
    (h' : HoldAll chunks types rows') : rows = rows' := by
  obtain ⟨parts, hparts, rfl⟩ := h
  obtain ⟨parts', hparts', rfl⟩ := h'
  have hpart : parts = parts' := by
    induction hparts generalizing parts' with
    | nil =>
      cases hparts'
      rfl
    | cons hc _ ih =>
      cases hparts' with
      | cons hc' hrest => rw [hc.unique hc', ih _ hrest]
  rw [hpart]

end DataChunk

end CppColDB
