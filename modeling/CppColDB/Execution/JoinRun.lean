import CppColDB.Execution.JoinRows

/-!
# The hash join, row by row

The build side inserts one row after the other, and the calls of the probe side process one
list of pairs, a vector of output at a time. Both are stated here over the rows the chunks
hold.
-/

namespace CppColDB

open ByteCodec DataVector Imp JoinHashTable List Nat Option

/-- The column types of the two sides and the key columns, whose types agree and are not
floating-point types. -/
structure JoinSchema where
  leftTypes : List TypeId
  rightTypes : List TypeId
  leftKeys : List ℕ
  rightKeys : List ℕ
  left_named : ∀ t ∈ leftTypes, t.storageClass ≠ .none
  right_named : ∀ t ∈ rightTypes, t.storageClass ≠ .none
  keys : Forall₂ (fun i j => ∃ t, leftTypes[i]? = some t ∧ rightTypes[j]? = some t ∧
    t.storageClass ≠ .float) leftKeys rightKeys

/-! ## Keys and hashes of rows -/

/-- The hash that the probe side computes for a key cell. -/
def Cell.hash (P : Platform) : Cell → UInt64
  | none => 0
  | some (.int x) => P.hashInt64 x
  | some (.float bits) => P.hashDouble bits
  | some (.str s) => P.hashString s

namespace Row

/-- The boxed key of a row. -/
def key (types : List TypeId) (keyCols : List ℕ) (row : Row) : List Value :=
  keyCols.map fun k => Cell.box (types.getD k .invalid) (row.getD k none)

def buildHash (P : Platform) (types : List TypeId) (keyCols : List ℕ) (row : Row) :
    Except Error UInt64 :=
  hashKey P (row.key types keyCols)

def probeHash (P : Platform) (keyCols : List ℕ) (row : Row) : UInt64 :=
  keyCols.foldl (fun h k => combineHash h (Cell.hash P (row.getD k none))) 0

/-- The entry of a build row. -/
def entry (types : List TypeId) (keyCols : List ℕ) (row : Row) : JoinEntry :=
  { key := row.key types keyCols, row := row.box types }

end Row

namespace DataChunk

variable {c : DataChunk} {types : List TypeId} {rows : List Row} {row : Row} {i : ℕ}
  {keyCols : List ℕ} {P : Platform}

theorem Holds.extractValues (h : c.Holds types rows) (hnamed : ∀ t ∈ types, t.storageClass ≠ .none)
    (hi : rows[i]? = some row) :
    c.columns.mapM (·.extractValue i) = some (row.box types) := by
  have hlt := h.lt hi
  have hcells := h.cells i row hi
  rw [← h.types] at hnamed ⊢
  rw [mapM_eq_some_iff]
  clear hi h
  generalize c.columns = columns at hnamed hcells
  induction columns generalizing row with
  | nil =>
    cases row with
    | nil => exact .nil
    | cons x row => cases hcells
  | cons col columns ih =>
    cases row with
    | nil => cases hcells
    | cons x row =>
      rw [map_cons, map_cons, cons.injEq] at hcells
      obtain ⟨hcol, hrest⟩ := forall_mem_cons.mp hnamed
      exact .cons (extractValue_eq hcol hlt hcells.1) (ih hrest hcells.2)

/-- The key columns of a chunk exist. -/
def KeysIn (types : List TypeId) (keyCols : List ℕ) : Prop := ∀ k ∈ keyCols, k < types.length

/-- A key column of a chunk, and the cell it has in a row. -/
theorem Holds.keyColumn (h : c.Holds types rows) (hi : rows[i]? = some row) {k : ℕ}
    (hk : k < types.length) :
    ∃ col, c.columns[k]? = some col ∧ col.type = types.getD k .invalid ∧
      col.type ∈ types ∧ col.cell? i = some (row.getD k none) := by
  obtain ⟨col, cell, hcol, htype, hcell, hat⟩ := h.column hi (getElem?_eq_getElem hk)
  refine ⟨col, hcol, ?_, by rw [htype]; exact getElem_mem hk, ?_⟩
  · rw [htype, getD_eq_getElem?_getD, getElem?_eq_getElem hk, getD_some]
  · rw [hat, getD_eq_getElem?_getD, hcell, getD_some]

theorem Holds.keyValues (h : c.Holds types rows) (hnamed : ∀ t ∈ types, t.storageClass ≠ .none)
    (hkeys : KeysIn types keyCols) (hi : rows[i]? = some row) :
    keyValues keyCols c i = some (row.key types keyCols) := by
  rw [JoinHashTable.keyValues, mapM_eq_some_iff, Row.key, forall₂_map_right_iff, forall₂_same]
  intro k hk
  obtain ⟨col, hcol, htype, hmem, hcell⟩ := h.keyColumn hi (hkeys k hk)
  rw [hcol, ← htype]
  exact extractValue_eq (hnamed _ hmem) (h.lt hi) hcell

theorem columnHash_eq {v : DataVector} {cell : Cell} (hi : i < standardVectorSize)
    (hc : v.cell? i = some cell) :
    columnHash P v i = some (cell.hash P) := by
  rw [columnHash, if_neg (by omega)]
  cases cell with
  | none =>
    rw [if_pos (cell?_eq_some_none.mp hc)]
    rfl
  | some x =>
    obtain ⟨hnull, hx⟩ := cell?_eq_some_some.mp hc
    rw [hnull]
    rw [datum?] at hx
    cases hclass : v.type.storageClass with
    | none =>
      rw [hclass] at hx
      cases hx
    | int | float | str =>
      rw [hclass] at hx
      obtain ⟨y, hy, rfl⟩ := map_eq_some_iff.mp hx
      rw [hy]
      rfl

theorem Holds.computeHash (h : c.Holds types rows) (hnamed : ∀ t ∈ types, t.storageClass ≠ .none)
    (hkeys : KeysIn types keyCols) (hi : rows[i]? = some row) :
    JoinHashTable.computeHash P keyCols c i = some (row.probeHash P keyCols) := by
  rw [JoinHashTable.computeHash, Row.probeHash]
  generalize (0 : UInt64) = h₀
  induction keyCols generalizing h₀ with
  | nil => rfl
  | cons k keyCols ih =>
    obtain ⟨hk, hkeys⟩ := forall_mem_cons.mp hkeys
    obtain ⟨col, hcol, -, hmem, hcell⟩ := h.keyColumn hi hk
    rw [foldlM_cons, foldl_cons, ← ih hkeys, hcol]
    have hstep := columnHash_eq (P := P) (h.lt hi) hcell
    simp only [bind, Option.bind, if_neg (hnamed _ hmem), hstep]
    rfl

end DataChunk

/-! ## Building -/

section Build

variable {P : Platform} {types : List TypeId} {keyCols : List ℕ}

/-- The insertion of a row, from the row it is. -/
def Row.insert (P : Platform) (types : List TypeId) (keyCols : List ℕ) (row : Row) :
    Imp Error JoinHashTable Unit := do
  let h ← ofExcept (some (row.buildHash P types keyCols))
  modify fun ht =>
    { table := ht.table.insert h (ht.probeByHash h ++ [row.entry types keyCols]) }

variable {rows : List Row} {ht : JoinHashTable}

theorem joinConsume_eq {c : DataChunk} (h : c.Holds types rows)
    (hnamed : ∀ t ∈ types, t.storageClass ≠ .none) (hkeys : DataChunk.KeysIn types keyCols) :
    joinConsume P keyCols c = forEach rows (Row.insert P types keyCols) := by
  rw [joinConsume, h.count, range_eq_range']
  apply forEach_range'
  intro i row hi
  rw [zero_add]
  rw [JoinHashTable.insert, h.keyValues hnamed hkeys hi, h.extractValues hnamed hi]
  rfl

/-- **The build side inserts its rows one by one.** -/
theorem forEach_joinConsume {build : List DataChunk} (h : DataChunk.HoldAll build types rows)
    (hnamed : ∀ t ∈ types, t.storageClass ≠ .none) (hkeys : DataChunk.KeysIn types keyCols) :
    forEach build (joinConsume P keyCols) =
      forEach rows (Row.insert P types keyCols) := by
  obtain ⟨parts, hparts, rfl⟩ := h
  induction hparts with
  | nil => rfl
  | cons hc _ ih =>
    rw [forEach_cons, flatten_cons, forEach_append, joinConsume_eq hc hnamed hkeys, ih]

/-- The rows of a hash value, in the order of their insertion. -/
def candidates (P : Platform) (types : List TypeId) (keyCols : List ℕ) (rows : List Row)
    (h : UInt64) : List Row :=
  rows.filter fun r => decide (r.buildHash P types keyCols = .ok h)

def Built (P : Platform) (types : List TypeId) (keyCols : List ℕ) (rows : List Row)
    (ht : JoinHashTable) : Prop :=
  ∀ h, ht.probeByHash h = (candidates P types keyCols rows h).map (Row.entry types keyCols)

theorem Built.insert {row : Row} {h : UInt64} (hb : Built P types keyCols rows ht)
    (hrow : row.buildHash P types keyCols = .ok h) :
    Built P types keyCols (rows ++ [row])
      { table := ht.table.insert h (ht.probeByHash h ++ [row.entry types keyCols]) } := by
  intro k
  rw [probeByHash, candidates, filter_append, map_append]
  by_cases hk : k = h
  · subst hk
    rw [hb]
    simp [candidates, hrow]
  · have hne : h ≠ k := Ne.symm hk
    rw [Finmap.lookup_insert_of_ne _ hk]
    have hold := hb k
    rw [probeByHash, candidates] at hold
    simp [hold, hrow, hne]

/-- Building succeeds if every key can be hashed, and the table has the rows by their hash. -/
theorem forEach_insert {row₀ : List Row} (hb : Built P types keyCols row₀ ht) :
    ∃ res ht', forEach rows (Row.insert P types keyCols) ht = some (res, ht') ∧
      match res with
      | .ok () => (∀ r ∈ rows, ∃ h, r.buildHash P types keyCols = .ok h) ∧
          Built P types keyCols (row₀ ++ rows) ht'
      | .error _ => ∃ r ∈ rows, ∃ e, r.buildHash P types keyCols = .error e := by
  induction rows generalizing row₀ ht with
  | nil => exact ⟨.ok (), ht, rfl, by simp, by simpa using hb⟩
  | cons row rows ih =>
    cases hrow : row.buildHash P types keyCols with
    | error e =>
      refine ⟨.error e, ht, ?_, row, mem_cons_self, e, hrow⟩
      apply bind_run_error
      rw [Row.insert, hrow]
      rfl
    | ok h =>
      obtain ⟨res, ht', hrun, hres⟩ := ih (hb.insert hrow)
      refine ⟨res, ht', ?_, ?_⟩
      · rw [← hrun]
        apply bind_run_ok
        rw [Row.insert, hrow]
        rfl
      · cases res with
        | ok u =>
          refine ⟨forall_mem_cons.mpr ⟨⟨h, hrow⟩, hres.1⟩, ?_⟩
          rw [append_cons]
          exact hres.2
        | error e =>
          obtain ⟨r, hr, hfail⟩ := hres
          exact ⟨r, mem_cons_of_mem row hr, hfail⟩

end Build

/-! ## Emitting a row -/

section Emit

variable {outs lefts : List DataVector} {types : List TypeId} {r : Row} {n : ℕ}

theorem Row.unboxed_cons (t : TypeId) (c : Cell) (types : List TypeId) (row : Row) :
    Row.unboxed (t :: types) (c :: row) =
      (Cell.unboxed t c).bind fun x => (Row.unboxed types row).map (x :: ·) := by
  rw [Row.unboxed, zip_cons_cons, mapM_cons, ← Row.unboxed]
  cases Cell.unboxed t c with
  | none => rfl
  | some x => cases Row.unboxed types row <;> rfl

theorem appendValues_box (htypes : outs.map (·.type) = types)
    (hnamed : ∀ t ∈ types, t.storageClass ≠ .none) (hcount : ∀ v ∈ outs, v.count = n)
    (hn : n < standardVectorSize) (hr : r.length = types.length) :
    match r.unboxed types with
    | none => appendValues outs (r.box types) = some (.error Error.badVariant)
    | some xs => ∃ outs', appendValues outs (r.box types) = some (.ok outs') ∧
        AppendedRow outs (xs.map some) outs' := by
  induction outs generalizing types r with
  | nil =>
    subst htypes
    exact ⟨[], rfl, .nil⟩
  | cons out outs ih =>
    subst htypes
    cases r with
    | nil => cases hr
    | cons c r =>
      obtain ⟨hout, houts⟩ := forall_mem_cons.mp hnamed
      obtain ⟨hc, hcs⟩ := forall_mem_cons.mp hcount
      have hhead := appendValue_box (c := c) hout (by rw [hc]; exact hn)
      have hrest := ih rfl houts hcs (succ.inj hr)
      rw [map_cons, Row.unboxed_cons]
      have hbox : Row.box (out.type :: outs.map (·.type)) (c :: r) =
        Cell.box out.type c :: Row.box (outs.map (·.type)) r := rfl
      rw [hbox, appendValues]
      cases hx : Cell.unboxed out.type c with
      | none =>
        rw [hx] at hhead
        simp only [bind_none, hhead]
      | some x =>
        rw [hx] at hhead
        obtain ⟨out', hrun, happ⟩ := hhead
        simp only [hrun, bind_some]
        cases hxs : Row.unboxed (outs.map (·.type)) r with
        | none =>
          rw [hxs] at hrest
          simp only [map_none, hrest, map_some, Except.map]
        | some xs =>
          rw [hxs] at hrest
          obtain ⟨outs', hruns, happs⟩ := hrest
          refine ⟨out' :: outs', ?_, .cons happ happs⟩
          simp only [hruns, map_some, Except.map]

theorem emitColumns_box {l : Row} {i : ℕ} (htypes : outs.map (·.type) = lefts.map (·.type) ++ types)
    (hnamed : ∀ t ∈ lefts.map (·.type) ++ types, t.storageClass ≠ .none)
    (hcount : ∀ v ∈ outs, v.count = n) (hn : n < standardVectorSize)
    (hl : lefts.map (·.cell? i) = l.map some) (hi : i < standardVectorSize)
    (hr : r.length = types.length) :
    match r.unboxed types with
    | none => emitColumns i (r.box types) outs lefts = some (.error Error.badVariant)
    | some xs => ∃ outs', emitColumns i (r.box types) outs lefts = some (.ok outs') ∧
        AppendedRow outs (l ++ xs.map some) outs' := by
  induction lefts generalizing outs l with
  | nil =>
    obtain rfl : l = [] := by simpa using hl.symm
    have hbase := appendValues_box htypes hnamed hcount hn hr
    cases outs <;> exact hbase
  | cons left lefts ih =>
    cases l with
    | nil => cases hl
    | cons c l =>
      cases outs with
      | nil => cases htypes
      | cons out outs =>
        simp only [map_cons, cons_append, cons.injEq] at htypes hl
        obtain ⟨hleft, hlefts⟩ := forall_mem_cons.mp hnamed
        obtain ⟨hc, hcs⟩ := forall_mem_cons.mp hcount
        obtain ⟨out', hrun, happ⟩ := exists_append
          (by rw [htypes.1]; exact hleft) (by rw [htypes.1]) (by rw [hc]; exact hn) hi hl.1
        have hrest := ih htypes.2 hlefts hcs hl.2
        rw [emitColumns, hrun]
        cases hxs : r.unboxed types with
        | none =>
          rw [hxs] at hrest
          simp only [hrest, map_some, Except.map]
        | some xs =>
          rw [hxs] at hrest
          obtain ⟨outs', hruns, happs⟩ := hrest
          refine ⟨out' :: outs', ?_, .cons happ happs⟩
          simp only [hruns, map_some, Except.map]

end Emit

/-! ## Probing -/

namespace JoinSchema

/-- The types of the output columns. -/
def outputTypes (S : JoinSchema) : List TypeId := S.leftTypes ++ S.rightTypes

theorem left_keysIn (S : JoinSchema) : DataChunk.KeysIn S.leftTypes S.leftKeys := by
  intro k hk
  obtain ⟨j, -, t, ht, -⟩ := S.keys.flip.exists_of_mem_right hk
  exact (List.getElem?_eq_some_iff.mp ht).1

theorem right_keysIn (S : JoinSchema) : DataChunk.KeysIn S.rightTypes S.rightKeys := by
  intro k hk
  obtain ⟨i, -, t, -, ht, -⟩ := S.keys.exists_of_mem_right hk
  exact (List.getElem?_eq_some_iff.mp ht).1

/-- The comparison of the boxed keys of a probe row and a build row. -/
def compare (S : JoinSchema) (l r : Row) : Option (Except Error Bool) :=
  keysEqual (l.key S.leftTypes S.leftKeys) (r.key S.rightTypes S.rightKeys)

/-- A pair that is processed without an exception. -/
def Processed (S : JoinSchema) (p : Row × Row) : Prop :=
  S.compare p.1 p.2 = some (.ok false) ∨
    S.compare p.1 p.2 = some (.ok true) ∧ (p.2.unboxed S.rightTypes).isSome

/-- The rows that a processed pair adds to the output. -/
def emitted (S : JoinSchema) (p : Row × Row) : List Row :=
  if S.compare p.1 p.2 = some (.ok true) then
    [p.1 ++ ((p.2.unboxed S.rightTypes).getD []).map some]
  else []

end JoinSchema

theorem exists_keysEqual {as bs : List Value} (h : as.length = bs.length) :
    ∃ res, keysEqual as bs = some res := by
  induction as generalizing bs with
  | nil => exact ⟨_, rfl⟩
  | cons a as ih =>
    cases bs with
    | nil => cases h
    | cons b bs =>
      rw [keysEqual]
      cases a.eq b with
      | error e => exact ⟨_, rfl⟩
      | ok eq =>
        cases eq with
        | false => exact ⟨_, rfl⟩
        | true => exact ih (succ.inj h)

section Probe

variable {P : Platform} {S : JoinSchema} {input : DataChunk} {L : List Row} {l : Row} {i : ℕ}

theorem JoinSchema.exists_compare (S : JoinSchema) (l r : Row) : ∃ res, S.compare l r = some res :=
  exists_keysEqual (by simp [Row.key, S.keys.length_eq])

variable {out : DataChunk} {rows : List Row} {r : Row} {ps qs : List (Row × Row)} {R : List Row}

section

variable (hin : input.Holds S.leftTypes L) (hi : L[i]? = some l)
  (hr : r.length = S.rightTypes.length) (hout : out.Holds S.outputTypes rows)
  (hlt : out.count < standardVectorSize)
include hin hi hr hout hlt

theorem emitMatchRow_run :
    match r.unboxed S.rightTypes with
    | none => emitMatchRow input i (r.box S.rightTypes) out = some (.error Error.badVariant, out)
    | some xs => ∃ out', emitMatchRow input i (r.box S.rightTypes) out = some (.ok (), out') ∧
        out'.Holds S.outputTypes (rows ++ [l ++ xs.map some]) := by
  have hnamed : ∀ t ∈ input.columns.map (·.type) ++ S.rightTypes, t.storageClass ≠ .none := by
    rw [hin.types]
    exact forall_mem_append.mpr ⟨S.left_named, S.right_named⟩
  have hemit := emitColumns_box (by rw [hout.types, hin.types]; rfl) hnamed hout.counts hlt
    (hin.cells i l hi) (hin.lt hi) hr
  have hrun : emitMatchRow input i (r.box S.rightTypes) out =
      match emitColumns i (r.box S.rightTypes) out.columns input.columns with
      | none => none
      | some (.error e) => some (.error e, out)
      | some (.ok columns) => some (.ok (), { columns, count := out.count + 1 }) := by
    rw [emitMatchRow, bind_run_ok get_run]
    cases emitColumns i (r.box S.rightTypes) out.columns input.columns with
    | none => rfl
    | some res => cases res <;> rfl
  cases hxs : r.unboxed S.rightTypes with
  | none =>
    rw [hxs] at hemit
    simp only [hrun, hemit]
  | some xs =>
    rw [hxs] at hemit
    obtain ⟨columns, hcolumns, happ⟩ := hemit
    exact ⟨_, by rw [hrun, hcolumns], hout.append hlt happ⟩

/-- **One candidate.** -/
theorem probe_candidate (midx : ℕ) (es : List JoinEntry) :
    (¬ S.Processed (l, r) ∧ ∃ e out', probeCandidates input i (l.key S.leftTypes S.leftKeys)
        (r.entry S.rightTypes S.rightKeys :: es) midx out = some (.error e, out')) ∨
    S.Processed (l, r) ∧ ∃ out', out'.Holds S.outputTypes (rows ++ S.emitted (l, r)) ∧
      probeCandidates input i (l.key S.leftTypes S.leftKeys)
        (r.entry S.rightTypes S.rightKeys :: es) midx out =
        if out'.count = standardVectorSize then some (.ok (some (midx + 1)), out')
        else probeCandidates input i (l.key S.leftTypes S.leftKeys) es (midx + 1) out' := by
  obtain ⟨res, hres⟩ := S.exists_compare l r
  have hkeys : keysEqual (l.key S.leftTypes S.leftKeys)
    (r.entry S.rightTypes S.rightKeys).key = some res := hres
  have hnext : ∀ out' : DataChunk, (get >>= fun out : DataChunk =>
      if out.count = standardVectorSize then pure (some (midx + 1))
      else probeCandidates input i (l.key S.leftTypes S.leftKeys) es (midx + 1) :
        Imp Error DataChunk (Option ℕ)) out' =
      if out'.count = standardVectorSize then some (.ok (some (midx + 1)), out')
      else probeCandidates input i (l.key S.leftTypes S.leftKeys) es (midx + 1) out' := by
    intro out'
    rw [bind_run_ok get_run]
    split <;> rfl
  rw [probeCandidates, hkeys]
  cases res with
  | error e =>
    refine .inl ⟨?_, e, out, bind_run_error rfl⟩
    rintro (h | ⟨h, -⟩) <;> rw [hres] at h <;> cases h
  | ok eq =>
    rw [bind_run_ok rfl]
    cases eq with
    | false =>
      refine .inr ⟨.inl hres, out, by simpa [JoinSchema.emitted, hres] using hout, ?_⟩
      exact hnext out
    | true =>
      have hemit := emitMatchRow_run hin hi hr hout hlt
      cases hxs : r.unboxed S.rightTypes with
      | none =>
        rw [hxs] at hemit
        refine .inl ⟨?_, Error.badVariant, out, bind_run_error hemit⟩
        rintro (h | ⟨-, h⟩)
        · rw [hres] at h
          cases h
        · rw [hxs] at h
          cases h
      | some xs =>
        rw [hxs] at hemit
        obtain ⟨out', hrun, hholds⟩ := hemit
        refine .inr ⟨.inr ⟨hres, by rw [hxs]; rfl⟩, out', ?_, ?_⟩
        · simpa [JoinSchema.emitted, hres, hxs] using hholds
        · exact (bind_run_ok hrun).trans (hnext out')

end

/-- The pairs were processed and their rows are in the output, behind the earlier ones. -/
structure Advances (S : JoinSchema) (pairs : List (Row × Row)) (rows : List Row)
    (out : DataChunk) : Prop where
  processed : ∀ p ∈ pairs, S.Processed p
  holds : out.Holds S.outputTypes (rows ++ pairs.flatMap S.emitted)

theorem Advances.append (hp : ∀ p ∈ ps, S.Processed p)
    (hq : Advances S qs (rows ++ ps.flatMap S.emitted) out) :
    Advances S (ps ++ qs) rows out where
  processed := forall_mem_append.mpr ⟨hp, hq.processed⟩
  holds := by
    rw [flatMap_append, ← append_assoc]
    exact hq.holds

/-- **The candidates of one probe row**: all of them, or as many as fill the output. -/
theorem probeCandidates_run (hin : input.Holds S.leftTypes L) (hi : L[i]? = some l)
    {rs : List Row} (hrs : ∀ r ∈ rs, r.length = S.rightTypes.length)
    (hout : out.Holds S.outputTypes rows) (hlt : out.count < standardVectorSize) (midx : ℕ) :
    ∃ res out', probeCandidates input i (l.key S.leftTypes S.leftKeys)
        (rs.map (Row.entry S.rightTypes S.rightKeys)) midx out = some (res, out') ∧
      match res with
      | .error _ => ∃ p ∈ rs.map (Prod.mk l), ¬ S.Processed p
      | .ok none => Advances S (rs.map (Prod.mk l)) rows out' ∧ out'.count < standardVectorSize
      | .ok (some m) => ∃ k, 0 < k ∧ k ≤ rs.length ∧ m = midx + k ∧
          Advances S ((rs.take k).map (Prod.mk l)) rows out' := by
  induction rs generalizing out rows midx with
  | nil => exact ⟨.ok none, out, rfl, ⟨by simp, by simpa using hout⟩, hlt⟩
  | cons r rs ih =>
    obtain ⟨hr, hrs⟩ := forall_mem_cons.mp hrs
    rw [map_cons]
    rcases probe_candidate hin hi hr hout hlt midx (rs.map (Row.entry _ _)) with
      ⟨hfail, e, out', hrun⟩ | ⟨hok, out', hholds, hrun⟩
    · exact ⟨.error e, out', hrun, (l, r), by simp, hfail⟩
    · rw [hrun]
      have hfirst : ∀ p ∈ [(l, r)], S.Processed p := by simpa using hok
      have hholds' : out'.Holds S.outputTypes (rows ++ [(l, r)].flatMap S.emitted) := by
        simpa using hholds
      split
      next =>
        refine ⟨_, _, rfl, 1, one_pos, by simp, rfl, ?_⟩
        exact ⟨by simpa using hok, by simpa using hholds⟩
      next hfull =>
        obtain ⟨res, out'', hrun', hres⟩ := ih hrs hholds'
          (lt_of_le_of_ne hholds.count_le hfull) (midx + 1)
        refine ⟨res, out'', hrun', ?_⟩
        cases res with
        | error e =>
          obtain ⟨p, hp, hfail⟩ := hres
          exact ⟨p, by simp [hp], hfail⟩
        | ok stop =>
          cases stop with
          | none => exact ⟨Advances.append hfirst hres.1, hres.2⟩
          | some m =>
            obtain ⟨k, hk, hle, hm, hadv⟩ := hres
            exact ⟨k + 1, by omega, by simpa using hle, by omega, Advances.append hfirst hadv⟩

/-- The pairs of a probe row and its candidates. -/
def pairsOf (P : Platform) (S : JoinSchema) (R : List Row) (l : Row) : List (Row × Row) :=
  (candidates P S.rightTypes S.rightKeys R (l.probeHash P S.leftKeys)).map (Prod.mk l)

/-- The pairs that are left from a position on. -/
def remaining (P : Platform) (S : JoinSchema) (L R : List Row) (state : JoinProbeState) :
    List (Row × Row) :=
  ((L.drop state.probeRowIdx).flatMap (pairsOf P S R)).drop state.matchIdx

/-- A position within the candidates of its row. -/
def InBounds (P : Platform) (S : JoinSchema) (L R : List Row) (state : JoinProbeState) : Prop :=
  ∀ l, L[state.probeRowIdx]? = some l → state.matchIdx ≤ (pairsOf P S R l).length

theorem remaining_cons {start midx : ℕ} (hl : L[start]? = some l)
    (hmidx : midx ≤ (pairsOf P S R l).length) :
    remaining P S L R ⟨start, midx⟩ =
      (pairsOf P S R l).drop midx ++ remaining P S L R ⟨start + 1, 0⟩ := by
  obtain ⟨hlt, rfl⟩ := List.getElem?_eq_some_iff.mp hl
  simp only [remaining]
  rw [drop_eq_getElem_cons hlt, flatMap_cons, drop_append_of_le_length hmidx, drop_zero]

/-- **The rows of one call**, from a position on: to the end, or until the output is full. -/
theorem probeRows_run {ht : JoinHashTable} (hb : Built P S.rightTypes S.rightKeys R ht)
    (hR : ∀ r ∈ R, r.length = S.rightTypes.length) (hin : input.Holds S.leftTypes L)
    {start midx n : ℕ} (hn : L.length - start = n) (hbounds : InBounds P S L R ⟨start, midx⟩)
    (hout : out.Holds S.outputTypes rows) (hlt : out.count < standardVectorSize) :
    ∃ res out', probeRows P ht S.leftKeys input (range' start n) midx out = some (res, out') ∧
      match res with
      | .error _ => ∃ p ∈ remaining P S L R ⟨start, midx⟩, ¬ S.Processed p
      | .ok (.needMoreInput, _) => Advances S (remaining P S L R ⟨start, midx⟩) rows out'
      | .ok (.haveMoreOutput, state) => InBounds P S L R state ∧
          ∃ ps, ps ≠ [] ∧ remaining P S L R ⟨start, midx⟩ = ps ++ remaining P S L R state ∧
            Advances S ps rows out'
      | .ok (.finished, _) => False := by
  induction n generalizing start midx out rows with
  | zero =>
    have hnone : remaining P S L R ⟨start, midx⟩ = [] := by
      simp [remaining, drop_of_length_le (Nat.sub_eq_zero_iff_le.mp hn)]
    refine ⟨_, _, rfl, ?_⟩
    rw [hnone]
    exact ⟨by simp, by simpa using hout⟩
  | succ n ih =>
    obtain ⟨l, hl⟩ : ∃ l, L[start]? = some l := ⟨_, getElem?_eq_getElem (by omega)⟩
    have hmidx := hbounds l hl
    have hnext : InBounds P S L R ⟨start + 1, 0⟩ := fun _ _ => zero_le _
    rw [remaining_cons hl hmidx, range'_succ, probeRows,
      hin.computeHash S.left_named S.left_keysIn hl, bind_run_ok rfl, hb]
    generalize hcs : candidates P S.rightTypes S.rightKeys R (l.probeHash P S.leftKeys) = cs
    have hpairs : pairsOf P S R l = cs.map (Prod.mk l) := by rw [pairsOf, hcs]
    rw [hpairs] at hmidx ⊢
    cases hempty : cs with
    | nil =>
      have hstep := ih (show L.length - (start + 1) = n by omega) hnext hout hlt
      simpa using hstep
    | cons c cs' =>
      rw [← hempty]
      have hne : cs.map (Row.entry S.rightTypes S.rightKeys) ≠ [] := by simp [hempty]
      rw [if_neg hne, hin.keyValues S.left_named S.left_keysIn hl, bind_run_ok rfl,
        ← map_drop, ← map_drop]
      have hlen : ∀ r ∈ cs.drop midx, r.length = S.rightTypes.length := by
        intro r hr
        have hmem := mem_of_mem_drop hr
        rw [← hcs] at hmem
        exact hR r (mem_of_mem_filter hmem)
      obtain ⟨res, out', hrun, hres⟩ := probeCandidates_run hin hl hlen hout hlt midx
      cases res with
      | error e =>
        refine ⟨_, _, bind_run_error hrun, ?_⟩
        obtain ⟨p, hp, hfail⟩ := hres
        exact ⟨p, mem_append_left _ hp, hfail⟩
      | ok stop =>
        rw [bind_run_ok hrun]
        cases stop with
        | some m =>
          obtain ⟨k, hk, hle, hm, hadv⟩ := hres
          rw [length_drop] at hle
          have hm' : m ≤ (pairsOf P S R l).length := by
            rw [hpairs, length_map]
            omega
          refine ⟨_, _, rfl, ?_, ((cs.drop midx).take k).map (Prod.mk l), ?_, ?_, hadv⟩
          · intro l' hl'
            cases hl.symm.trans hl'
            exact hm'
          · intro hnil
            have hzero := congrArg length hnil
            simp only [length_map, length_take, length_drop, length_nil] at hzero
            omega
          · rw [remaining_cons hl hm', hpairs, ← append_assoc, hm, ← map_drop,
              ← map_append, ← drop_drop, take_append_drop]
        | none =>
          obtain ⟨hadv, hlt'⟩ := hres
          obtain ⟨res, out'', hrun', hres'⟩ := ih (show L.length - (start + 1) = n by omega) hnext
            hadv.holds hlt'
          refine ⟨res, out'', hrun', ?_⟩
          cases res with
          | error e =>
            obtain ⟨p, hp, hfail⟩ := hres'
            exact ⟨p, mem_append_right _ hp, hfail⟩
          | ok r =>
            obtain ⟨kind, state⟩ := r
            cases kind with
            | finished => exact hres'
            | needMoreInput => exact Advances.append hadv.processed hres'
            | haveMoreOutput =>
              obtain ⟨hb', ps, hps, hsplit, hadv'⟩ := hres'
              refine ⟨hb', _, ?_, ?_, Advances.append hadv.processed hadv'⟩
              · simp [hps]
              · rw [hsplit, append_assoc]

theorem joinOutput_holds (types : List TypeId) : (joinOutput types).Holds types [] := by
  have hfields := fun t => reserve_reset_fields t standardVectorSize
  refine ⟨zero_le _, rfl, ?_, ?_, by simp⟩
  · rw [joinOutput, List.map_map]
    exact (map_congr_left fun t _ => (hfields t).1).trans (map_id types)
  · intro col hcol
    obtain ⟨t, -, rfl⟩ := mem_map.mp hcol
    exact (hfields t).2

/-- The result of processing all pairs: an exception, or chunks with the emitted rows. -/
def Outcome (S : JoinSchema) (pairs : List (Row × Row)) : Except Error (List DataChunk) → Prop
  | .error _ => ∃ p ∈ pairs, ¬ S.Processed p
  | .ok outs => (∀ p ∈ pairs, S.Processed p) ∧
      DataChunk.HoldAll outs S.outputTypes (pairs.flatMap S.emitted)

theorem Outcome.cons {outs : List DataChunk}
    {res : Except Error (List DataChunk)} (hp : ∀ p ∈ ps, S.Processed p)
    (houts : DataChunk.HoldAll outs S.outputTypes (ps.flatMap S.emitted))
    (hq : Outcome S qs res) : Outcome S (ps ++ qs) (res.map (outs ++ ·)) := by
  cases res with
  | error e =>
    obtain ⟨p, hp, hfail⟩ := hq
    exact ⟨p, mem_append_right _ hp, hfail⟩
  | ok rest =>
    obtain ⟨hq, parts', hparts', hflat'⟩ := hq
    obtain ⟨parts, hparts, hflat⟩ := houts
    refine ⟨forall_mem_append.mpr ⟨hp, hq⟩, parts ++ parts', rel_append hparts hparts', ?_⟩
    rw [flatten_append, hflat, hflat', flatMap_append]

variable {ht : JoinHashTable} {R : List Row}

section

variable (hb : Built P S.rightTypes S.rightKeys R ht) (hR : ∀ r ∈ R, r.length = S.rightTypes.length)
  {bound : ℕ}
include hb hR

/-- **The calls on one chunk** end, after at most one call for each pair and one more. -/
theorem probeChunk_run (hin : input.Holds S.leftTypes L) {state : JoinProbeState}
    (hbounds : InBounds P S L R state) (hbound : (remaining P S L R state).length < bound) :
    ∃ res, (∀ fuel ≥ bound, probeChunk P ht S.leftKeys S.outputTypes input fuel state =
      some res) ∧ Outcome S (remaining P S L R state) res := by
  induction bound generalizing state with
  | zero => cases hbound
  | succ bound ih =>
    obtain ⟨start, midx⟩ := state
    obtain ⟨res, out, hrun, hres⟩ := probeRows_run hb hR hin rfl hbounds
      (joinOutput_holds S.outputTypes) (zero_lt_succ _)
    rw [← hin.count] at hrun
    have hcall : joinExecute P ht S.leftKeys S.outputTypes input ⟨start, midx⟩ =
      some (res, out) := hrun
    have hfuel : ∀ fuel ≥ bound + 1, ∃ fuel', fuel = fuel' + 1 ∧ bound ≤ fuel' := by
      intro fuel hfuel
      exact ⟨fuel - 1, by omega, by omega⟩
    cases res with
    | error e =>
      refine ⟨.error e, fun fuel hf => ?_, hres⟩
      obtain ⟨fuel', rfl, -⟩ := hfuel fuel hf
      rw [probeChunk, hcall]
    | ok r =>
      obtain ⟨kind, state⟩ := r
      cases kind with
      | finished => exact absurd hres id
      | needMoreInput =>
        refine ⟨.ok [out], fun fuel hf => ?_, hres.processed, [_], .cons hres.holds .nil, by simp⟩
        obtain ⟨fuel', rfl, -⟩ := hfuel fuel hf
        rw [probeChunk, hcall]
      | haveMoreOutput =>
        obtain ⟨hbounds', ps, hps, hsplit, hadv⟩ := hres
        have hlen := congrArg length hsplit
        rw [length_append] at hlen
        have hpos := length_pos_of_ne_nil hps
        obtain ⟨res, hrest, houtcome⟩ := ih hbounds' (by omega)
        refine ⟨res.map (out :: ·), fun fuel hf => ?_, ?_⟩
        · obtain ⟨fuel', rfl, hf'⟩ := hfuel fuel hf
          rw [probeChunk, hcall]
          simp only [hrest fuel' hf', map_some]
        · rw [hsplit]
          exact houtcome.cons hadv.processed ⟨[_], .cons hadv.holds .nil, by simp⟩

/-- **The calls on all chunks.** -/
theorem probeChunks_run {probe : List DataChunk} (hprobe : DataChunk.HoldAll probe S.leftTypes L)
    (hbound : (L.flatMap (pairsOf P S R)).length < bound) :
    ∃ res, (∀ fuel ≥ bound, probeChunks P ht S.leftKeys S.outputTypes fuel probe = some res) ∧
      Outcome S (L.flatMap (pairsOf P S R)) res := by
  obtain ⟨parts, hparts, rfl⟩ := hprobe
  induction hparts with
  | nil => exact ⟨.ok [], fun _ _ => rfl, by simp, [], .nil, rfl⟩
  | @cons c part probe parts hc _ ih =>
    rw [flatten_cons, flatMap_append] at hbound ⊢
    rw [length_append] at hbound
    have hstart : remaining P S part R {} = part.flatMap (pairsOf P S R) := rfl
    obtain ⟨res, hfirst, houtcome⟩ := probeChunk_run hb hR hc
      (show InBounds P S part R {} from fun _ _ => zero_le _)
      (show (remaining P S part R {}).length < bound by rw [hstart]; omega)
    cases res with
    | error e =>
      refine ⟨.error e, fun fuel hf => by rw [probeChunks, hfirst fuel hf], ?_⟩
      obtain ⟨p, hp, hfail⟩ := houtcome
      exact ⟨p, mem_append_left _ hp, hfail⟩
    | ok outs =>
      obtain ⟨res, hrest, houtcome'⟩ := ih (by omega)
      refine ⟨res.map (outs ++ ·), fun fuel hf => ?_, houtcome'.cons houtcome.1 houtcome.2⟩
      rw [probeChunks, hfirst fuel hf]
      simp only [hrest fuel hf, map_some]

end

/-- **The join**: an exception if a build key cannot be hashed or a pair not be processed, and
otherwise the emitted rows. -/
theorem hashJoin_run {probe build : List DataChunk} (hprobe : DataChunk.HoldAll probe S.leftTypes L)
    (hbuild : DataChunk.HoldAll build S.rightTypes R)
    (hR : ∀ r ∈ R, r.length = S.rightTypes.length) :
    ∃ bound res, (∀ fuel ≥ bound, hashJoin P S.leftKeys S.rightKeys S.outputTypes probe build fuel
        = some res) ∧
      match res with
      | .error _ => (∃ r ∈ R, ∃ e, r.buildHash P S.rightTypes S.rightKeys = .error e) ∨
          ∃ p ∈ L.flatMap (pairsOf P S R), ¬ S.Processed p
      | .ok outs => (∀ r ∈ R, ∃ h, r.buildHash P S.rightTypes S.rightKeys = .ok h) ∧
          (∀ p ∈ L.flatMap (pairsOf P S R), S.Processed p) ∧
          DataChunk.HoldAll outs S.outputTypes
            ((L.flatMap (pairsOf P S R)).flatMap S.emitted) := by
  have hempty : Built P S.rightTypes S.rightKeys [] {} := fun h => by
    rfl
  obtain ⟨res, ht, hrun, hres⟩ := @forEach_insert P _ _ R _ _ hempty
  rw [← forEach_joinConsume hbuild S.right_named S.right_keysIn] at hrun
  cases res with
  | error e =>
    refine ⟨0, .error e, fun fuel _ => ?_, .inl hres⟩
    rw [hashJoin, hrun]
  | ok u =>
    obtain ⟨hhash, hb⟩ := hres
    obtain ⟨res, hprobed, houtcome⟩ := probeChunks_run hb hR hprobe (lt_succ_self _)
    refine ⟨(L.flatMap (pairsOf P S R)).length + 1, res, fun fuel hf => ?_, ?_⟩
    · rw [hashJoin, hrun]
      exact hprobed fuel hf
    · cases res with
      | error e => exact .inr houtcome
      | ok outs => exact ⟨hhash, houtcome⟩

end Probe

end CppColDB
