import CppColDB.Execution.Sort

/-!
# The rows that a sort emits

The comparison of the sort is a total order on the positions of the rows: it orders by the
keys, and rows with equal keys by their position. So the sorted positions are those of the
stable sort by the keys alone, and the heap keeps the first of them.
-/

namespace CppColDB

open ByteCodec Fallible List Ordering Selection SortKey Std

/-! ## The comparison is an order -/

/-- A key whose values all lie in the same array, that of integers or that of strings. -/
def Datum.intOr : Datum → Int64
  | .int v => v
  | _ => 0

def Datum.strOr : Datum → Bytes
  | .str s => s
  | _ => []

variable {ι : Type}

theorem transCmp_compareKey (ascending : Bool) (f : ι → Cell) {cls : TypeId.StorageClass}
    (hcls : cls ≠ .float) (hf : ∀ i x, f i = some x → x.storageClass = cls) :
    TransCmp fun i j => compareKey ascending (f i) (f j) := by
  have hcomap : ∀ {β : Type} {cmp : β → β → Ordering} (g : Datum → β), TransCmp cmp →
      (∀ i j x y, f i = some x → f j = some y → x.compare y = cmp (g x) (g y)) →
      TransCmp fun i j => compareKey ascending (f i) (f j) := by
    intro β cmp g htrans hcmp
    have hlast := @transCmp_missingLast _ cmp htrans ascending
    have heq : (fun i j => compareKey ascending (f i) (f j)) =
        fun i j => missingLast ascending cmp ((f i).map g) ((f j).map g) := by
      funext i j
      cases hi : f i <;> cases hj : f j <;> try rfl
      simp [compareKey, missingLast, hcmp i j _ _ hi hj]
    rw [heq]
    exact transCmp_comap fun i => (f i).map g
  cases cls with
  | float => exact absurd rfl hcls
  | none =>
    refine hcomap Datum.intOr transCmp_threeWay fun i j x y hx hy => ?_
    have hx := hf i x hx
    cases x <;> cases hx
  | int =>
    refine hcomap Datum.intOr transCmp_threeWay fun i j x y hx hy => ?_
    have hx := hf i x hx
    have hy := hf j y hy
    cases x with
    | int v =>
      cases y with
      | int w => rfl
      | _ => cases hy
    | _ => cases hx
  | str =>
    refine hcomap Datum.strOr transCmp_threeWay fun i j x y hx hy => ?_
    have hx := hf i x hx
    have hy := hf j y hy
    cases x with
    | str v =>
      cases y with
      | str w => rfl
      | _ => cases hy
    | _ => cases hx

/-- The comparison by the keys alone. -/
def compareKeys : List Bool → List Cell → List Cell → Ordering
  | ascending :: dirs, a :: as, b :: bs =>
    (compareKey ascending a b).then (compareKeys dirs as bs)
  | _, _, _ => .eq

theorem compareSortRows_eq (keys : List (List (List Scalar) × Bool)) (a b : ℕ × ℕ) :
    compareSortRows keys a b =
      (compareKeys (keys.map Prod.snd) (keys.map (keyAt ·.1 a)) (keys.map (keyAt ·.1 b))).then
        (comparePositions a b) := by
  induction keys with
  | nil => rfl
  | cons key keys ih =>
    obtain ⟨vecs, ascending⟩ := key
    simp only [compareSortRows, map_cons, compareKeys]
    cases compareKey ascending (keyAt vecs a) (keyAt vecs b) <;> simp [ih]

theorem comparePositions_eq (a b : ℕ × ℕ) :
    comparePositions a b = compareLex (compareOn Prod.fst) (compareOn Prod.snd) a b := by
  simp only [comparePositions, compareLex, compareOn, compare, compareOfLessAndEq]
  split <;> split <;> simp_all

/-- **The comparison by keys is an order** where each key has one array. -/
theorem transCmp_compareKeys (keys : List (Bool × (ι → Cell)))
    (h : ∀ key ∈ keys, ∃ cls, cls ≠ TypeId.StorageClass.float ∧
      ∀ i x, key.2 i = some x → x.storageClass = cls) :
    TransCmp fun i j =>
      compareKeys (keys.map Prod.fst) (keys.map (·.2 i)) (keys.map (·.2 j)) := by
  induction keys with
  | nil =>
    exact { eq_swap := rfl, isLE_trans := fun _ _ => rfl }
  | cons key keys ih =>
    obtain ⟨⟨cls, hcls, hkey⟩, hkeys⟩ := forall_mem_cons.mp h
    have hfirst := transCmp_compareKey key.1 key.2 hcls hkey
    have hrest := ih hkeys
    exact inferInstanceAs (TransCmp (compareLex
      (fun i j => compareKey key.1 (key.2 i) (key.2 j))
      fun i j => compareKeys (keys.map Prod.fst) (keys.map (·.2 i)) (keys.map (·.2 j))))

theorem transCmp_comparePositions : TransCmp comparePositions := by
  have heq : comparePositions = compareLex (compareOn Prod.fst) (compareOn Prod.snd) := by
    funext a b
    exact comparePositions_eq a b
  rw [heq]
  infer_instance

theorem eq_of_comparePositions {a b : ℕ × ℕ} (h : comparePositions a b = .eq) : a = b := by
  simp only [comparePositions] at h
  split at h
  next => split at h <;> cases h
  next hfst =>
    split at h
    next => split at h <;> cases h
    next hsnd => exact Prod.ext (not_not.mp hfst) (not_not.mp hsnd)

/-! ## The buffer -/

/-- Every row has its element in the array of the type, a NULL too. -/
def DataVector.Full (v : DataVector) : Prop := v.count ≤ v.size v.type.storageClass

theorem DataVector.exists_copyRows {v : DataVector} (hfull : v.Full) :
    ∃ w, v.copyRows = some w ∧ w.type = v.type ∧ w.count = v.count ∧
      ∀ i < v.count, w.cell? i = v.cell? i := by
  have hcell : ∀ w : DataVector, w.type = v.type → w.validity = v.validity →
      (∀ i < v.count, w.datum? i = v.datum? i) → ∀ i < v.count, w.cell? i = v.cell? i := by
    intro w htype hvalid hdatum i hi
    rw [DataVector.cell?, DataVector.cell?, DataVector.isNull, DataVector.isNull, hvalid,
      hdatum i hi]
  rw [Full] at hfull
  unfold DataVector.copyRows
  cases hcls : v.type.storageClass <;> simp only [hcls] at hfull
  case int | float =>
    refine ⟨_, if_pos hfull, rfl, rfl, hcell _ rfl rfl fun i hi => ?_⟩
    simp [DataVector.datum?, hcls, hi]
  case str | none =>
    refine ⟨_, rfl, rfl, rfl, hcell _ rfl rfl fun i hi => ?_⟩
    simp [DataVector.datum?, hcls]

variable {types : List TypeId} {rows : List Row}

theorem DataChunk.Holds.exists_copy {c : DataChunk} (h : c.Holds types rows)
    (hfull : ∀ col ∈ c.columns, col.Full) :
    ∃ columns, c.columns.mapM DataVector.copyRows = some columns ∧
      DataChunk.Holds { columns, count := c.count } types rows := by
  have hcols : ∀ col ∈ c.columns, ∃ w, col.copyRows = some w ∧ w.type = col.type ∧
      w.count = c.count ∧ ∀ i < c.count, w.cell? i = col.cell? i := fun col hcol =>
    h.counts col hcol ▸ DataVector.exists_copyRows (hfull col hcol)
  obtain ⟨columns, hcopy, hsame⟩ := exists_mapM_forall₂ hcols
  refine ⟨columns, hcopy, h.count_le, h.count, ?_, ?_, ?_⟩
  · rw [← h.types]
    exact (hsame.imp fun _ _ hw => hw.1.symm).map_eq_map.symm
  · intro w hw
    obtain ⟨v, -, -, hcount, -⟩ := hsame.exists_of_mem_right hw
    exact hcount
  · intro i row hi
    have hlt : i < c.count := h.count ▸ (List.getElem?_eq_some_iff.mp hi).1
    rw [← h.cells i row hi]
    exact (hsame.imp fun _ _ hw => (hw.2.2 i hlt).symm).map_eq_map.symm

variable {chunks : List DataChunk}

/-- **Consuming the input**: the buffer has a copy of every chunk with rows. -/
theorem exists_consume (h : DataChunk.HoldAll chunks types rows)
    (hfull : ∀ c ∈ chunks, ∀ col ∈ c.columns, col.Full) :
    ∃ copies, foldl SortBuffer.consume {} chunks = some (.ok ({ chunks := copies } : SortBuffer)) ∧
      DataChunk.HoldAll copies types rows ∧ ∀ c ∈ copies, 0 < c.count := by
  obtain ⟨parts, hparts, rfl⟩ := h
  suffices ∀ kept, ∃ copies, foldl SortBuffer.consume
      ({ chunks := kept } : SortBuffer) chunks = some (.ok { chunks := kept ++ copies }) ∧
      DataChunk.HoldAll copies types parts.flatten ∧ ∀ c ∈ copies, 0 < c.count from this []
  induction hparts with
  | nil => exact fun kept => ⟨[], by rw [append_nil]; rfl, ⟨[], .nil, rfl⟩, by simp⟩
  | @cons c part chunks parts hc hrest ih =>
    intro kept
    obtain ⟨hcfull, hfull⟩ := forall_mem_cons.mp hfull
    rw [Fallible.foldl_cons, SortBuffer.consume]
    by_cases hzero : c.count = 0
    · -- an empty chunk leaves no copy
      obtain rfl : part = [] := length_eq_zero_iff.mp (hc.count ▸ hzero)
      rw [if_pos hzero]
      exact ih hfull kept
    · obtain ⟨columns, hcopy, hholds⟩ := hc.exists_copy hcfull
      obtain ⟨copies, hrun, ⟨parts', hparts', hflat⟩, hpos⟩ :=
        ih hfull (kept ++ [{ columns, count := c.count }])
      refine ⟨{ columns, count := c.count } :: copies, ?_,
        ⟨part :: parts', .cons hholds hparts', ?_⟩,
        forall_mem_cons.mpr ⟨Nat.pos_of_ne_zero hzero, hpos⟩⟩
      · rw [if_neg hzero, hcopy]
        rw [append_assoc] at hrun
        exact hrun
      · rw [flatten_cons, hflat, flatten_cons]

/-! ## Positions -/

/-- The positions of the rows of chunks with the given row counts, from chunk `n` on. -/
def positionsFrom (n : ℕ) : List ℕ → List (ℕ × ℕ)
  | [] => []
  | count :: counts => (range count).map (n, ·) ++ positionsFrom (n + 1) counts

theorem SortBuffer.positions_eq (buf : SortBuffer) :
    buf.positions = positionsFrom 0 (buf.chunks.map DataChunk.count) := by
  rw [positions]
  generalize buf.chunks = chunks
  suffices ∀ n, ((chunks.zipIdx n).flatMap fun p => (range p.1.count).map fun ri => (p.2, ri)) =
      positionsFrom n (chunks.map DataChunk.count) from this 0
  induction chunks with
  | nil => exact fun n => rfl
  | cons c chunks ih =>
    intro n
    rw [zipIdx_cons, flatMap_cons, ih, map_cons, positionsFrom]

/-- The row at a position. -/
def rowAt (parts : List (List Row)) (pos : ℕ × ℕ) : Row := (parts[pos.1]?.bind (·[pos.2]?)).getD []

variable {pos : ℕ × ℕ}

theorem le_of_mem_positionsFrom {n : ℕ} {counts : List ℕ}
    (h : pos ∈ positionsFrom n counts) : n ≤ pos.1 := by
  induction counts generalizing n with
  | nil => cases h
  | cons count counts ih =>
    obtain h | h := mem_append.mp h
    · obtain ⟨ri, -, rfl⟩ := mem_map.mp h
      exact le_rfl
    · exact (Nat.le_succ n).trans (ih h)

theorem pairwise_positionsFrom (n : ℕ) (counts : List ℕ) :
    (positionsFrom n counts).Pairwise fun a b => comparePositions a b = .lt := by
  induction counts generalizing n with
  | nil => exact .nil
  | cons count counts ih =>
    refine pairwise_append.mpr ⟨?_, ih (n + 1), fun a ha b hb => ?_⟩
    · rw [pairwise_map]
      refine pairwise_lt_range.imp fun hlt => ?_
      simp [comparePositions, hlt, Nat.ne_of_lt hlt]
    · obtain ⟨ri, -, rfl⟩ := mem_map.mp ha
      have hlt : n < b.1 := le_of_mem_positionsFrom hb
      simp [comparePositions, hlt, Nat.ne_of_lt hlt]

/-- **The rows at all positions** are the rows of the input. -/
theorem map_rowAt (parts : List (List Row)) :
    (positionsFrom 0 (parts.map length)).map (rowAt parts) = parts.flatten := by
  suffices ∀ before rest, parts = before ++ rest →
      (positionsFrom before.length (rest.map length)).map (rowAt parts) = rest.flatten from
    this [] parts rfl
  intro before rest
  induction rest generalizing before with
  | nil => exact fun _ => rfl
  | cons part rest ih =>
    intro hparts
    have hnext := ih (before ++ [part]) (by rw [hparts]; simp)
    have hpart : parts[before.length]? = some part := by rw [hparts]; simp
    rw [length_append] at hnext
    rw [map_cons, positionsFrom, map_append]
    congr 1
    refine ext_getElem (by simp) fun i hi hi' => ?_
    simp [rowAt, hpart, hi']

variable {parts : List (List Row)}

theorem exists_of_mem_positionsFrom (h : pos ∈ positionsFrom 0 (parts.map length)) :
    ∃ part row, parts[pos.1]? = some part ∧ part[pos.2]? = some row := by
  suffices ∀ n, pos ∈ positionsFrom n (parts.map length) →
      ∃ part row, parts[pos.1 - n]? = some part ∧ part[pos.2]? = some row from this 0 h
  clear h
  induction parts with
  | nil => exact fun n h => nomatch h
  | cons part parts ih =>
    intro n h
    obtain h | h := mem_append.mp h
    · obtain ⟨ri, hri, rfl⟩ := mem_map.mp h
      rw [mem_range] at hri
      exact ⟨part, part[ri], by simp, getElem?_eq_getElem hri⟩
    · obtain ⟨part', row, hpart, hrow⟩ := ih (n + 1) h
      have hle := le_of_mem_positionsFrom h
      refine ⟨part', row, ?_, hrow⟩
      rw [show pos.1 - n = pos.1 - (n + 1) + 1 by omega, getElem?_cons_succ, hpart]

/-! ## Keys -/

/-- The key of a row. -/
def SortKey.cell (D : DoubleOps) (types : List TypeId) (key : SortKey) (row : Row) : Cell :=
  key.expr.cell D types row

variable {D : DoubleOps} {vecs : List (List Scalar)}

theorem traverse_evaluate (hparts : Forall₂ (DataChunk.Holds · types ·) chunks parts) {e : Expr} :
    Fallible.traverse (fun chunk => e.evaluate D chunk) chunks = some (.ok vecs) ↔
      Forall₂ (Forall₂ fun row s => e.eval D (row.scalars types) = some (.ok s))
        parts vecs := by
  rw [traverse_eq_ok_iff]
  induction hparts generalizing vecs with
  | nil => simp
  | cons hc _ ih =>
    cases vecs with
    | nil => simp
    | cons vec vecs => rw [forall₂_cons, forall₂_cons, ih, Expr.evaluate_eq_ok_iff hc]

/-- A key vector holds the keys of the rows. -/
theorem keyAt_eq {key : SortKey}
    (h : Forall₂ (Forall₂ fun row s =>
      key.expr.eval D (row.scalars types) = some (.ok s)) parts vecs)
    (hpos : pos ∈ positionsFrom 0 (parts.map length)) :
    keyAt vecs pos = key.cell D types (rowAt parts pos) ∧
      ∃ s, key.expr.eval D ((rowAt parts pos).scalars types) = some (.ok s) := by
  obtain ⟨part, row, hpart, hrow⟩ := exists_of_mem_positionsFrom hpos
  have hat : rowAt parts pos = row := by simp [rowAt, hpart, hrow]
  obtain ⟨vec, hvec, hpv⟩ := h.exists_of_getElem?_left hpart
  obtain ⟨s, hs, hrs⟩ := hpv.exists_of_getElem?_left hrow
  rw [hat]
  refine ⟨?_, s, hrs⟩
  simp [keyAt, hvec, hs, cell, Expr.cell_eq hrs]

/-! ## The heap -/

namespace PhysicalSort

variable {R : SortRuntime} {less : ℕ × ℕ → ℕ × ℕ → Bool} {k : ℕ} {rows : List (ℕ × ℕ)}

/-- **The heap loop** keeps the least rows seen so far. -/
theorem least_offer (hk : 0 < k) (hweak : StrictWeakOn less rows) :
    IsHeap less (rows.foldl (offer R less k) []) ∧
      Least less k rows (rows.foldl (offer R less k) []) := by
  induction rows using reverseRecOn with
  | nil => exact ⟨fun i a b _ ha => by simp at ha, Least.nil⟩
  | append_singleton rows x ih =>
    obtain ⟨hheap, hleast⟩ := ih (hweak.mono (subset_append_left rows [x]))
    rw [foldl_append, List.foldl_cons]
    generalize rows.foldl (offer R less k) [] = heap at hheap hleast
    have hsub : heap ++ [x] ⊆ rows ++ [x] := append_subset.mpr
      ⟨fun a ha => mem_append_left _ (hleast.subset ha), subset_append_right rows [x]⟩
    have hweak' := hweak.mono hsub
    rw [offer.eq_def]
    split
    next hlt =>
      obtain ⟨hperm, hpush⟩ := R.push_spec less heap x hweak' hheap
      exact ⟨hpush, hleast.push hlt hperm⟩
    next hlt =>
      have hfull : heap.length = k := by
        obtain ⟨-, -, -, hle, -⟩ := hleast
        omega
      cases heap with
      | nil =>
        rw [length_nil] at hfull
        omega
      | cons front kept =>
        have hfront : ∀ a ∈ front :: kept, less front a = false := fun a ha =>
          hheap.front (hweak'.mono (subset_append_left _ _)) ha
        dsimp only
        split
        next hx =>
          obtain ⟨ys, hpop, hys, hyheap⟩ := R.pop_spec less front kept
            (hweak'.mono (subset_append_left _ _)) hheap
          rw [hpop, dropLast_concat]
          have hyweak : StrictWeakOn less (ys ++ [x]) := hweak'.mono fun a ha => by
            obtain ha | ha := mem_append.mp ha
            · simp [hys.mem_iff.mp ha]
            · exact mem_append_right _ ha
          obtain ⟨hperm, hpush⟩ := R.push_spec less ys x hyweak hyheap
          exact ⟨hpush, hleast.replace hfull hweak hx
            (fun a ha => hfront a (mem_cons_of_mem _ ha))
            (hperm.trans (hys.append_right [x]))⟩
        next hx =>
          rw [Bool.not_eq_true] at hx
          refine ⟨hheap, hleast.skip hfull fun a ha => ?_⟩
          exact hweak'.not_less_trans (by simp) (by simp) (mem_append_left _ ha) hx
            (hfront a ha)

/-- **The sorted heap** is the start of the sorted positions. -/
theorem sort_heap (hk : 0 < k) (hweak : StrictWeakOn less rows)
    (htie : ∀ a ∈ rows, ∀ b ∈ rows, less a b = false → less b a = false → a = b) :
    R.sort less (rows.foldl (offer R less k) []) = (stableSort less rows).take k := by
  obtain ⟨-, hleast⟩ := least_offer hk hweak
  obtain ⟨hperm, hsorted⟩ := R.sort_spec less _ (hweak.mono hleast.subset)
  exact hleast.take_stableSort hweak htie hsorted hperm

end PhysicalSort

/-! ## The order of the rows -/

namespace PhysicalSort

variable (op : PhysicalSort) (D : DoubleOps) (types : List TypeId)

/-- The comparison of two rows by their keys. -/
def compareRows (a b : Row) : Ordering :=
  compareKeys (op.sortKeys.map SortKey.ascending) (op.sortKeys.map (·.cell D types a))
    (op.sortKeys.map (·.cell D types b))

/-- **The result of the sort**: the rows in the stable order of their keys, and of these the
first `topK` if it is not negative. -/
def sortedRows (rows : List Row) : List Row :=
  let sorted := stableSort (fun a b => decide (op.compareRows D types a b = .lt)) rows
  if op.topK < 0 then sorted else sorted.take op.topK.toInt.toNat

/-- Every key can be evaluated on every row. -/
def Evaluates (rows : List Row) : Prop :=
  ∀ key ∈ op.sortKeys, ∀ row ∈ rows, ∃ s, key.expr.eval D (row.scalars types) = some (.ok s)

variable {op D types} {parts : List (List Row)}

/-- No key is a number with a fraction. -/
def Orderable (op : PhysicalSort) (types : List TypeId) : Prop :=
  ∀ key ∈ op.sortKeys, key.expr.storageClass types ≠ .float

theorem transCmp_compareRows (hkeys : op.Orderable types) (f : ι → Row)
    (htyped : ∀ i, (f i).Typed types) :
    TransCmp fun i j => op.compareRows D types (f i) (f j) := by
  have htrans := transCmp_compareKeys
    (op.sortKeys.map fun key => (key.ascending, fun i => key.cell D types (f i))) (by
      intro key hkey
      obtain ⟨key, hmem, rfl⟩ := mem_map.mp hkey
      refine ⟨key.expr.storageClass types, hkeys key hmem, fun i x hx => ?_⟩
      simp only [cell, Expr.cell] at hx
      split at hx
      next s hs => exact (Expr.storageClass_eval (htyped i) hs hx).2
      next => cases hx)
  simp only [map_map] at htrans
  exact htrans

variable {keyVecs : List (List (List Scalar))}

/-- The comparison of the sort, from that of the rows. -/
theorem compareSortRows_keys
    (hvecs : Forall₂ (fun key vecs => Forall₂ (Forall₂ fun row s =>
      key.expr.eval D (row.scalars types) = some (.ok s)) parts vecs) op.sortKeys keyVecs)
    {a b : ℕ × ℕ} (ha : a ∈ positionsFrom 0 (parts.map length))
    (hb : b ∈ positionsFrom 0 (parts.map length)) :
    compareSortRows (keyVecs.zip (op.sortKeys.map ascending)) a b =
      (op.compareRows D types (rowAt parts a) (rowAt parts b)).then (comparePositions a b) := by
  have hat : ∀ pos ∈ positionsFrom 0 (parts.map length),
      (keyVecs.zip (op.sortKeys.map ascending)).map (keyAt ·.1 pos) =
        op.sortKeys.map (·.cell D types (rowAt parts pos)) := by
    intro pos hpos
    have hlen : keyVecs.length ≤ (op.sortKeys.map ascending).length := by
      simp [hvecs.length_eq]
    calc (keyVecs.zip (op.sortKeys.map ascending)).map (keyAt ·.1 pos)
        = ((keyVecs.zip (op.sortKeys.map ascending)).map Prod.fst).map (keyAt · pos) := by
          rw [map_map]
          rfl
      _ = keyVecs.map (keyAt · pos) := by rw [map_fst_zip hlen]
      _ = op.sortKeys.map (·.cell D types (rowAt parts pos)) :=
          (hvecs.imp fun key vecs h => (keyAt_eq h hpos).1.symm).map_eq_map.symm
  have hdirs : (keyVecs.zip (op.sortKeys.map ascending)).map Prod.snd =
      op.sortKeys.map ascending := by
    rw [map_snd_zip]
    simp [hvecs.length_eq]
  rw [compareSortRows_eq, hat a ha, hat b hb, hdirs, compareRows]

theorem typed_rowAt (htyped : ∀ row ∈ parts.flatten, row.Typed types) {pos : ℕ × ℕ}
    (hpos : pos ∈ positionsFrom 0 (parts.map length)) : (rowAt parts pos).Typed types := by
  refine htyped _ ?_
  rw [← map_rowAt]
  exact mem_map_of_mem hpos

/-- **The order of the positions** is a total one, and puts the rows in their stable order. -/
theorem order_positions (hkeys : op.Orderable types)
    (htyped : ∀ row ∈ parts.flatten, row.Typed types) (less : ℕ × ℕ → ℕ × ℕ → Bool)
    (hless : ∀ a ∈ positionsFrom 0 (parts.map length),
      ∀ b ∈ positionsFrom 0 (parts.map length), less a b =
        decide ((op.compareRows D types (rowAt parts a) (rowAt parts b)).then
          (comparePositions a b) = .lt)) :
    StrictWeakOn less (positionsFrom 0 (parts.map length)) ∧
      (∀ a ∈ positionsFrom 0 (parts.map length), ∀ b ∈ positionsFrom 0 (parts.map length),
          less a b = false → less b a = false → a = b) ∧
      (stableSort less (positionsFrom 0 (parts.map length))).map (rowAt parts) =
        stableSort (fun a b => decide (op.compareRows D types a b = .lt)) parts.flatten := by
  have hbefore := pairwise_positionsFrom 0 (parts.map length)
  have hrows := map_rowAt parts
  have htypedAt := fun pos hpos => @typed_rowAt types parts htyped pos hpos
  generalize positionsFrom 0 (parts.map length) = S at *
  have hcmp := transCmp_compareRows (D := D) hkeys (fun pos : { pos // pos ∈ S } => rowAt parts pos.1)
    fun pos => htypedAt pos.1 pos.2
  have hpos : TransCmp fun a b : { pos // pos ∈ S } => comparePositions a.1 b.1 :=
    @transCmp_comap _ _ _ transCmp_comparePositions Subtype.val
  have hboth : TransCmp fun a b : { pos // pos ∈ S } =>
      (op.compareRows D types (rowAt parts a.1) (rowAt parts b.1)).then (comparePositions a.1 b.1) :=
    inferInstanceAs (TransCmp (compareLex
      (fun a b : { pos // pos ∈ S } => op.compareRows D types (rowAt parts a.1) (rowAt parts b.1))
      fun a b => comparePositions a.1 b.1))
  have hkeyWeak : StrictWeakOn
      (fun a b => decide (op.compareRows D types (rowAt parts a) (rowAt parts b) = .lt)) S :=
    .of_transCmp hcmp
  have hweak : StrictWeakOn less S := (StrictWeakOn.of_transCmp hboth).congr hless
  have htie : ∀ a ∈ S, ∀ b ∈ S, less a b = false → less b a = false → a = b := by
    intro a ha b hb hab hba
    rw [hless a ha b hb, decide_eq_false_iff_not, ne_lt_iff_isGE] at hab
    rw [hless b hb a ha, decide_eq_false_iff_not, ne_lt_iff_isGE] at hba
    have hle := (@Std.OrientedCmp.isGE_iff_isLE _ _ hboth.toOrientedCmp ⟨b, hb⟩ ⟨a, ha⟩).mp hba
    have heq := eq_eq_iff_isLE_and_isGE.mpr ⟨hle, hab⟩
    exact eq_of_comparePositions (then_eq_eq.mp heq).2
  refine ⟨hweak, htie, ?_⟩
  -- the stable order by keys is sorted by the comparison that also looks at the positions
  have hsame : stableSort less S = stableSort
      (fun a b => decide (op.compareRows D types (rowAt parts a) (rowAt parts b) = .lt)) S := by
    refine (eq_stableSort hweak htie perm_stableSort ?_).symm
    refine ((pairwise_stableSort_lex hkeyWeak hbefore).imp_of_mem fun {a b} ha hb hab => ?_)
    have ha := perm_stableSort.mem_iff.mp ha
    have hb := perm_stableSort.mem_iff.mp hb
    refine hweak.asymm ha hb ?_
    rw [hless a ha b hb]
    obtain hlt | ⟨hnlt, hngt, hlt⟩ := hab
    · rw [of_decide_eq_true hlt]
      rfl
    · rw [decide_eq_false_iff_not, ne_lt_iff_isGE] at hnlt hngt
      have hle := (@Std.OrientedCmp.isGE_iff_isLE _ _ hcmp.toOrientedCmp ⟨b, hb⟩ ⟨a, ha⟩).mp hngt
      rw [eq_eq_iff_isLE_and_isGE.mpr ⟨hle, hnlt⟩, hlt]
      rfl
  rw [hsame, ← hrows]
  exact map_stableSort (fun a b => decide (op.compareRows D types a b = .lt)) (rowAt parts) S

variable {chunks : List DataChunk}

theorem lengths_eq (hparts : Forall₂ (DataChunk.Holds · types ·) chunks parts) :
    chunks.map DataChunk.count = parts.map length :=
  (hparts.imp fun _ _ h => h.count).map_eq_map

/-- **The sort keys** are there if they can be evaluated on every row. -/
theorem exists_keyVecs (hparts : Forall₂ (DataChunk.Holds · types ·) chunks parts) :
    (∃ keyVecs, Fallible.traverse (fun key : SortKey =>
        Fallible.traverse (fun chunk => key.expr.evaluate D chunk) chunks) op.sortKeys =
      some (.ok keyVecs)) ↔ op.Evaluates D types parts.flatten := by
  rw [exists_congr fun _ => traverse_eq_ok_iff, exists_forall₂_iff]
  refine forall₂_congr fun key _ => ?_
  rw [exists_congr fun _ => traverse_evaluate hparts]
  simp only [exists_forall₂_iff, mem_flatten, forall_exists_index, and_imp]
  exact ⟨fun h row part hpart hrow => h part hpart row hrow,
    fun h part hpart row hrow => h row part hpart hrow⟩

/-- The number of row positions that a sort of `n` rows reserves. -/
def reserved (op : PhysicalSort) (n : ℕ) : ℕ := if op.topK < 0 then n else op.topK.toInt.toNat

/-- There is room for them. -/
def Fits (op : PhysicalSort) (R : SortRuntime) (n : ℕ) : Prop :=
  op.reserved n ≤ R.maxSize ∧ op.reserved n ≤ R.available

variable {R : SortRuntime} {n : ℕ}

theorem reserve_eq_ok_iff : R.reserve n = some (.ok ()) ↔ n ≤ R.maxSize ∧ n ≤ R.available := by
  rw [SortRuntime.reserve]
  split_ifs with hmax hmem
  · exact iff_of_false nofun fun h => absurd h.1 (Nat.not_le.mpr hmax)
  · exact iff_of_false nofun fun h => absurd h.2 (Nat.not_le.mpr hmem)
  · exact iff_of_true rfl ⟨Nat.not_lt.mp hmax, Nat.not_lt.mp hmem⟩

/-- **The order** is found if there is room for what is reserved. -/
theorem order_eq (positions : List (ℕ × ℕ)) :
    let less := fun a b =>
      decide (compareSortRows (keyVecs.zip (op.sortKeys.map ascending)) a b = .lt)
    op.order R keyVecs positions = (do
      R.reserve (op.reserved positions.length)
      pure (if op.topK = 0 then []
        else if 0 < op.topK then
          R.sort less (positions.foldl (offer R less op.topK.toInt.toNat) [])
        else stableSort less positions)) := by
  intro less
  rw [order]
  by_cases hzero : op.topK = 0
  · have hreserve : R.reserve (op.reserved positions.length) = some (.ok ()) :=
      reserve_eq_ok_iff.mpr (by simp [reserved, hzero])
    rw [if_pos hzero, if_pos hzero]
    exact (bind_of_ok (f := fun _ => pure []) hreserve).symm
  · rw [if_neg hzero, if_neg hzero, reserved]
    by_cases hpos : 0 < op.topK
    · have hneg : ¬ op.topK < 0 := not_lt.mpr (le_of_lt hpos)
      rw [if_pos hpos, if_pos hpos, if_neg hneg]
    · rw [if_neg hpos, if_neg hpos, if_pos (lt_of_le_of_ne (Std.not_lt.mp hpos) hzero)]

theorem length_positions (hparts : Forall₂ (DataChunk.Holds · types ·) chunks parts) :
    ({ chunks } : SortBuffer).positions.length = parts.flatten.length := by
  rw [SortBuffer.positions_eq, lengths_eq hparts, ← map_rowAt, length_map]

/-- **Finalising the sort** puts the rows in order. -/
theorem exists_finalize (hparts : Forall₂ (DataChunk.Holds · types ·) chunks parts)
    (hkeys : op.Orderable types) (heval : op.Evaluates D types parts.flatten)
    (hfits : op.Fits R parts.flatten.length) : ∃ keyVecs order, op.finalize R D { chunks } =
        some (.ok { chunks, keyVecs, sortedOrder := order, sorted := true }) ∧
      order ⊆ positionsFrom 0 (parts.map length) ∧
      order.map (rowAt parts) = op.sortedRows D types parts.flatten := by
  have htyped : ∀ row ∈ parts.flatten, row.Typed types := by
    intro row hrow
    obtain ⟨part, hpart, hrow⟩ := mem_flatten.mp hrow
    obtain ⟨c, -, hc⟩ := hparts.exists_of_mem_right hpart
    exact hc.typed hrow
  obtain ⟨keyVecs, hvecs⟩ := (exists_keyVecs hparts).mpr heval
  have hvecs' := (traverse_eq_ok_iff.mp hvecs).imp
    fun key vecs => (traverse_evaluate hparts).mp
  obtain ⟨hweak, htie, hsorted⟩ := order_positions hkeys htyped (fun a b =>
    decide (compareSortRows (keyVecs.zip (op.sortKeys.map ascending)) a b = .lt))
    fun a ha b hb => by rw [compareSortRows_keys hvecs' ha hb]
  have horder := @order_eq op keyVecs R ({ chunks } : SortBuffer).positions
  dsimp only at horder
  rw [length_positions hparts, bind_of_ok (reserve_eq_ok_iff.mpr hfits)] at horder
  refine ⟨keyVecs, _, (bind_of_ok hvecs).trans (bind_of_ok horder), ?_⟩
  rw [SortBuffer.positions_eq, lengths_eq hparts, sortedRows]
  split
  next hzero =>
    rw [hzero]
    exact ⟨nil_subset _, rfl⟩
  next hzero =>
    split
    next hpos =>
      have hk : 0 < op.topK.toInt.toNat := by
        rw [Int64.lt_iff_toInt_lt] at hpos
        change 0 < op.topK.toInt at hpos
        omega
      have hneg : ¬ op.topK < 0 := not_lt.mpr (le_of_lt hpos)
      rw [sort_heap hk hweak htie, if_neg hneg, map_take, hsorted]
      exact ⟨fun pos hpos => perm_stableSort.mem_iff.mp (mem_of_mem_take hpos), rfl⟩
    next hpos =>
      have hneg : op.topK < 0 := by
        rw [Std.not_lt] at hpos
        exact lt_of_le_of_ne hpos hzero
      rw [if_pos hneg, hsorted]
      exact ⟨fun pos hpos => perm_stableSort.mem_iff.mp hpos, rfl⟩

/-- The sort throws, or is undefined, in the other cases. -/
theorem of_finalize {buf : SortBuffer} (hparts : Forall₂ (DataChunk.Holds · types ·) chunks parts)
    (h : op.finalize R D { chunks } = some (.ok buf)) :
    op.Evaluates D types parts.flatten ∧ op.Fits R parts.flatten.length := by
  obtain ⟨keyVecs, hvecs, h⟩ := bind_eq_ok_iff.mp h
  obtain ⟨_, horder, -⟩ := bind_eq_ok_iff.mp h
  rw [order_eq, length_positions hparts] at horder
  obtain ⟨_, hreserve, -⟩ := bind_eq_ok_iff.mp horder
  exact ⟨(exists_keyVecs hparts).mp ⟨keyVecs, hvecs⟩, reserve_eq_ok_iff.mp hreserve⟩

end PhysicalSort

end CppColDB
