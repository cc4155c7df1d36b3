import CppColDB.Execution.LaterBatches
import CppColDB.Execution.PartitionScanExact
import CppColDB.Planner.PruneExact

/-!
# The rows that SELECT, DELETE and UPDATE choose

A `WHERE` condition is evaluated in three places: as a filter of the table scan, and on the
batches of `DELETE` and `UPDATE`. The writers go through every row group of the table and look
at the condition and the markers of every row, so they choose the visible rows on which it is
true. The scan differs from them where it leaves row groups out, where zone maps skip rows, and
where it does not look at its filters.
-/

namespace CppColDB

open Bool ByteCodec ColumnChunk CppColDB.Expr Fallible List Nat Option RowOperator

/-! ## Conditions -/

namespace RowGroup

/-- A row as a condition on the columns of the table sees it. -/
def scalars (rg : RowGroup) (o c : ℕ) : Option Scalar :=
  if c < rg.colTypes.length then some { type := rg.colType c, cell := rg.cell c o } else none

/-- Whether a condition is true on a row; without a condition every row is chosen. -/
def meets (rg : RowGroup) (D : DoubleOps) (cond : Option Expr) (o : ℕ) : Bool :=
  cond.all fun e => decide (e.holds D (rg.scalars o) = some (.ok true))

/-- A condition has a value on every row that a transaction sees. -/
def Evaluates (rg : RowGroup) (D : DoubleOps) (tx : Snapshot) (cond : Option Expr) : Prop :=
  ∀ o < rg.rowCount, rg.versionInfo.isVisible o tx → ∀ e ∈ cond,
    ∃ b, e.holds D (rg.scalars o) = some (.ok b)

variable {rg : RowGroup} {D : DoubleOps} {cols : List ℕ} {o : ℕ}

/-- A condition on the positions of some columns is the condition on the table. -/
theorem holds_of_indexes {e f : Expr} (hindex : e.Indexes cols f) (hcols : rg.HasColumns cols)
    {row : ℕ → Option Scalar} (hrow : ∀ p, row p =
      cols[p]?.map fun c => { type := rg.colType c, cell := rg.cell c o }) :
    f.holds D row = e.holds D (rg.scalars o) := by
  obtain ⟨position, rfl, hposition⟩ := hindex
  refine holds_remap fun c hc => ?_
  have hmem := mem_of_getElem? (hposition c hc)
  rw [hrow, hposition c hc, map_some, scalars, if_pos (hcols c hmem)]

end RowGroup

/-- A condition as the writers evaluate it selects what `EvaluatePredicate` selects. -/
structure Decides (D : DoubleOps) (f : Option Expr) (predicate : Option Predicate) : Prop where
  isSome : predicate.isSome = f.isSome
  selects : ∀ e ∈ f, ∀ batch sel, evaluatePredicate D e batch = some (.ok sel) →
    matching predicate batch = .ok sel

/-- A condition as a function of the batch, where its evaluation is defined. -/
def Expr.predicate (D : DoubleOps) (f : Expr) : Predicate := fun batch =>
  match evaluatePredicate D f batch with
  | some (.ok sel) => .ok fun i => decide (i ∈ sel)
  | some (.error e) => .error e
  | none => .ok fun _ => false

theorem decides_predicate (D : DoubleOps) (f : Expr) :
    Decides D (some f) (some (f.predicate D)) := by
  refine ⟨rfl, fun e he batch sel hsel => ?_⟩
  obtain rfl := mem_some_iff.mp he
  have hfilter := (evaluateRows_eq_ok_iff.mp hsel).2
  simp only [matching, predicate, hsel]
  refine congrArg Except.ok ?_
  conv_rhs => rw [hfilter]
  refine filter_congr fun i hi => ?_
  rw [hfilter]
  simp [mem_range.mp hi]

/-- The condition on the table, with its columns replaced by positions in a layout. -/
def Resolves (layout : List ℕ) (cond f : Option Expr) : Prop :=
  Forall₂ (Indexes layout) cond.toList f.toList

/-! ## The hits of a batch -/

namespace Catalog

variable {c : Catalog} {tx : Snapshot} {r : TableRef} {D : DoubleOps} {rg : RowGroup}
  {cols : List ℕ} {cond f : Option Expr} {predicate : Option Predicate}

/-- The positions that a condition selects in a chunk with rows of the table. -/
theorem matching_eq {chunk : DataChunk} {offsets : List ℕ} (hcols : rg.HasColumns cols)
    (hresolves : Resolves cols cond f) (hdecides : Decides D f predicate)
    (heval : ∀ o ∈ offsets, ∀ e ∈ cond, ∃ b, e.holds D (rg.scalars o) = some (.ok b))
    (hholds : chunk.Holds (cols.map rg.colType) (offsets.map (rg.row cols))) :
    matching predicate chunk = .ok ((range offsets.length).filter fun i =>
      rg.meets D cond (offsets.getD i 0)) := by
  have hcount : chunk.count = offsets.length := by rw [hholds.count, length_map]
  cases cond with
  | none =>
    cases f with
    | some _ => cases hresolves
    | none =>
      cases predicate with
      | some _ => cases hdecides.isSome
      | none => simp [matching, hcount, RowGroup.meets]
  | some e =>
    cases f with
    | none => cases hresolves
    | some f =>
      have hindex : e.Indexes cols f := (forall₂_cons.mp hresolves).1
      refine hdecides.selects f rfl chunk _ ?_
      rw [evaluatePredicate, hcount]
      refine evaluateRows_eq fun i hi => ?_
      rw [mem_range] at hi
      have hget : offsets[i]? = some (offsets.getD i 0) := by
        rw [getD_eq_getElem?_getD, getElem?_eq_getElem hi, getD_some]
      obtain ⟨b, hb⟩ := heval _ (mem_of_getElem? hget) e rfl
      rw [RowGroup.holds_of_indexes hindex hcols (hholds.scalars_row hget), RowGroup.meets,
        all_some, hb]
      cases b <;> rfl

/-- **The hits of a batch** are its visible rows on which the condition is true. -/
theorem hits_eq {b : RowId} (hrg : c.rowGroup? r b.group = some rg) (hread : rg.Readable)
    (hb : b.offset < rg.rowCount) (hcols : rg.HasColumns cols)
    (hresolves : Resolves cols cond f) (hdecides : Decides D f predicate)
    (heval : rg.Evaluates D tx cond) :
    c.hits tx r cols predicate b = some (.ok (((rg.batchRows b.offset).filter fun o =>
      rg.versionInfo.isVisible o tx && rg.meets D cond o).map fun offset =>
        { group := b.group, offset })) := by
  obtain ⟨chunk, hscan, hholds⟩ := hread.scanBatchWithOffsets hb hcols tx
  have hvisible : ∀ o ∈ (rg.batchRows b.offset).filter fun o => rg.versionInfo.isVisible o tx,
      ∀ e ∈ cond, ∃ v, e.holds D (rg.scalars o) = some (.ok v) := by
    intro o ho
    obtain ⟨hrow, hvis⟩ := mem_filter.mp ho
    refine heval o ?_ hvis
    rw [RowGroup.batchRows, mem_range'_1] at hrow
    omega
  have hfilter : (rg.batchRows b.offset).filter (fun o =>
      rg.versionInfo.isVisible o tx && rg.meets D cond o) =
      ((rg.batchRows b.offset).filter fun o => rg.versionInfo.isVisible o tx).filter
        (rg.meets D cond) := by
    rw [List.filter_filter]
    exact filter_congr fun o _ => and_comm ..
  rw [hits, bind_of_ok (ofOption_eq_ok_iff.mpr hrg),
    bind_of_ok (ofOption_eq_ok_iff.mpr hscan), hfilter]
  dsimp only [hitsIn]
  generalize (rg.batchRows b.offset).filter (fun o => rg.versionInfo.isVisible o tx) = offsets
    at hscan hholds hvisible
  have hcount : chunk.count = offsets.length := by rw [hholds.count, length_map]
  by_cases hzero : chunk.count = 0
  · obtain rfl : offsets = [] := length_eq_zero_iff.mp (hcount ▸ hzero)
    rw [if_pos hzero]
    rfl
  · have hmapM := mapM_eq_some_iff.mpr (@TableScan.forall₂_filter_range offsets (rg.meets D cond))
    rw [if_neg hzero, matching_eq hcols hresolves hdecides hvisible hholds,
      bind_of_ok rfl, bind_of_ok (ofOption_eq_ok_iff.mpr hmapM)]
    rfl

end Catalog

/-! ## The rows that the writers choose -/

theorem mem_batchStarts {n s : ℕ} :
    s ∈ batchStarts n ↔ (∃ k, s = k * standardVectorSize) ∧ s < n := by
  rw [batchStarts, List.mem_map]
  constructor
  · rintro ⟨k, hk, rfl⟩
    rw [mem_range] at hk
    refine ⟨⟨k, rfl⟩, ?_⟩
    simp only [standardVectorSize] at hk ⊢
    omega
  · rintro ⟨⟨k, rfl⟩, hlt⟩
    refine ⟨k, ?_, rfl⟩
    rw [mem_range]
    simp only [standardVectorSize] at hlt ⊢
    omega

namespace Database

variable {tx : Snapshot} {r : TableRef} {db db' : Database} {t : TableCatalogEntry} {b : RowId}

theorem mem_tableBatches (ht : db.catalog.table? r = some t) :
    b ∈ db.tableBatches r t ↔ ∃ rg, t.rowGroups[b.group]? = some rg ∧
      (∃ k, b.offset = k * standardVectorSize) ∧ b.offset < rg.rowCount := by
  have hgroup : ∀ g, db.catalog.rowGroup? r g = t.rowGroups[g]? := fun g => by
    rw [Catalog.rowGroup?, ht]
    rfl
  rw [tableBatches, Catalog.batches, mem_flatMap]
  constructor
  · rintro ⟨g, hg, hb⟩
    have hget := getElem?_eq_getElem (mem_range.mp hg)
    rw [Catalog.batchesIn, hgroup, hget] at hb
    obtain ⟨offset, hoffset, rfl⟩ := mem_map.mp hb
    exact ⟨_, hget, mem_batchStarts.mp hoffset⟩
  · rintro ⟨rg, hrg, hstart⟩
    refine ⟨b.group, List.mem_range.mpr (List.getElem?_eq_some_iff.mp hrg).1, ?_⟩
    rw [Catalog.batchesIn, hgroup, hrg]
    exact mem_map.mpr ⟨b.offset, mem_batchStarts.mpr hstart, rfl⟩

/-- The batches of a table in their order. -/
theorem pairwise_batchAfter (c : Catalog) {gs : List ℕ} (hgs : gs.Nodup) :
    (c.batches r gs).Pairwise BatchAfter := by
  rw [Catalog.batches, pairwise_flatMap]
  refine ⟨fun g _ => ?_, hgs.imp fun {g g'} hne b hb b' hb' heq => ?_⟩
  · rw [Catalog.batchesIn, pairwise_map]
    refine (pairwise_batchStarts _).imp fun {a b} hab => ?_
    exact fun _ => hab
  · obtain ⟨_, _, rfl⟩ := mem_map.mp hb
    obtain ⟨_, _, rfl⟩ := mem_map.mp hb'
    exact absurd heq.symm hne

/-- The rows of a table that a transaction sees and on which a condition is true. -/
def Chosen (D : DoubleOps) (tx : Snapshot) (cond : Option Expr) (t : TableCatalogEntry)
    (row : RowId) : Prop :=
  ∃ rg, t.rowGroups[row.group]? = some rg ∧ row.offset < rg.rowCount ∧
    rg.versionInfo.isVisible row.offset tx ∧ rg.meets D cond row.offset

/-- A condition that the writers evaluate on some columns of a table. -/
structure Chooses (D : DoubleOps) (tx : Snapshot) (t : TableCatalogEntry) (cond : Option Expr)
    (cols : List ℕ) (predicate : Option Predicate) : Prop where
  readable : ∀ rg ∈ t.rowGroups, rg.Readable
  hasColumns : ∀ rg ∈ t.rowGroups, rg.HasColumns cols
  resolves : ∃ f, Resolves cols cond f ∧ Decides D f predicate
  evaluates : ∀ rg ∈ t.rowGroups, rg.Evaluates D tx cond

variable {D : DoubleOps} {cond : Option Expr} {cols : List ℕ} {predicate : Option Predicate}
  {schema table : Bytes}

theorem Chooses.exists_hits (h : Chooses D tx t cond cols predicate)
    (ht : db.catalog.table? r = some t) (hb : b ∈ db.tableBatches r t) :
    ∃ rows, db.catalog.hits tx r cols predicate b = some (.ok rows) ∧
      ∀ row, row ∈ rows ↔ Chosen D tx cond t row ∧ InBatch b.group b.offset row := by
  obtain ⟨rg, hrg, -, hlt⟩ := (mem_tableBatches ht).mp hb
  have hmem := mem_of_getElem? hrg
  have hgroup : db.catalog.rowGroup? r b.group = some rg := by
    rw [Catalog.rowGroup?, ht]
    exact hrg
  obtain ⟨f, hresolves, hdecides⟩ := h.resolves
  refine ⟨_, Catalog.hits_eq hgroup (h.readable rg hmem) hlt (h.hasColumns rg hmem) hresolves
    hdecides (h.evaluates rg hmem), fun row => ?_⟩
  rw [List.mem_map]
  constructor
  · rintro ⟨o, ho, rfl⟩
    rw [mem_filter, RowGroup.batchRows, mem_range'_1, and_eq_true_iff] at ho
    exact ⟨⟨rg, hrg, by dsimp only; omega, ho.2⟩, rfl, ho.1.1, by dsimp only; omega⟩
  · rintro ⟨⟨rg', hrg', hrow, hchosen⟩, hg, hlo, hhi⟩
    cases hrg.symm.trans (hg ▸ hrg')
    refine ⟨row.offset, ?_, by rw [← hg]⟩
    rw [mem_filter, RowGroup.batchRows, mem_range'_1, and_eq_true_iff]
    exact ⟨⟨hlo, by omega⟩, hchosen⟩

/-- All batches together have the chosen rows. -/
theorem Chooses.exists_hits_iff (h : Chooses D tx t cond cols predicate)
    (ht : db.catalog.table? r = some t) (row : RowId) :
    (∃ b ∈ db.tableBatches r t, ∃ rows,
      db.catalog.hits tx r cols predicate b = some (.ok rows) ∧ row ∈ rows) ↔
      Chosen D tx cond t row := by
  constructor
  · rintro ⟨b, hb, rows, hhits, hrow⟩
    obtain ⟨rows', hhits', hrows⟩ := h.exists_hits ht hb
    cases some.inj (hhits.symm.trans hhits')
    exact ((hrows row).mp hrow).1
  · intro hchosen
    have ⟨rg, hrg, hlt, _⟩ := hchosen
    -- the batch that the row lies in
    let b : RowId :=
      { group := row.group, offset := row.offset / standardVectorSize * standardVectorSize }
    have hle : b.offset ≤ row.offset := div_mul_le_self _ _
    have hb : b ∈ db.tableBatches r t :=
      (mem_tableBatches ht).mpr ⟨rg, hrg, ⟨_, rfl⟩, hle.trans_lt hlt⟩
    obtain ⟨rows, hhits, hrows⟩ := h.exists_hits ht hb
    refine ⟨b, hb, rows, hhits, (hrows row).mpr ⟨hchosen, rfl, hle, ?_⟩⟩
    exact lt_div_mul_add (by decide)

/-- **A `DELETE`** marks the chosen rows. -/
theorem Chooses.delete (P : Platform) (h : Chooses D tx t cond (deleteColIds t predicate) predicate)
    (hr : db.catalog.getTable schema table tx = some r) (ht : db.catalog.table? r = some t) :
    ∃ db', (delete schema table predicate).run P tx db = some (.ok (), db') ∧
      ∀ row, (delete schema table predicate).Marks tx db db' r row ↔
        Chosen D tx cond t row := by
  obtain ⟨rows, hgather, hmem⟩ := exists_gather_eq_ok fun b hb =>
    (h.exists_hits ht hb).imp fun _ => And.left
  refine ⟨_, (physicalDelete_run hr ht predicate).trans (by rw [hgather]; rfl), fun row => ?_⟩
  rw [← h.exists_hits_iff ht, ← hmem]
  constructor
  · rintro ⟨-, t', out, ht', hgather', hrow⟩
    cases ht.symm.trans ht'
    cases hgather.symm.trans hgather'
    exact hrow
  · exact fun hrow => ⟨hr, t, _, ht, hgather, hrow⟩

/-- **An `UPDATE`** that returns has rewritten the chosen rows, if no batch was disturbed. -/
theorem Chooses.update {scanColIds : List ℕ} {sets : List (ℕ × SetExpr)}
    {plan : UpdatePlan} {P : Platform} (hplan : updatePlan? t scanColIds sets predicate = some plan)
    (h : Chooses D tx t cond plan.scanColIds predicate)
    (hr : db.catalog.getTable schema table tx = some r) (ht : db.catalog.table? r = some t)
    (hsame : Undisturbed plan tx r db.catalog (db.tableBatches r t) db)
    (hrun : (update schema table scanColIds sets predicate).run P tx db =
      some (.ok (), db')) (row : RowId) :
    (update schema table scanColIds sets predicate).Marks tx db db' r row ↔
      Chosen D tx cond t row := by
  have hpredicate : plan.predicate = predicate := by
    obtain ⟨clauses, -, hplan⟩ := bind_eq_some_iff.mp hplan
    cases hplan
    rfl
  have htrace := mem_updateTrace hsame ((physicalUpdate_run hr ht hplan).symm.trans hrun) row
  rw [hpredicate] at htrace
  rw [← h.exists_hits_iff ht]
  refine Iff.trans ?_ htrace
  constructor
  · rintro ⟨-, t', plan', ht', hplan', hrow⟩
    cases ht.symm.trans ht'
    cases hplan.symm.trans hplan'
    exact hrow
  · exact fun hrow => ⟨hr, t, plan, ht, hplan, hrow⟩

end Database

/-! ## The rows that a scan chooses -/

namespace TableScan

variable {S : TableScan} {D : DoubleOps} {tx : Snapshot}
  {t : TableCatalogEntry} {active : List ℕ} {cond : Option Expr} {rg : RowGroup}

/-- The row groups that the scan goes through, by their number in the table. -/
def scannedIndices (t : TableCatalogEntry) (active : List ℕ) : List ℕ :=
  if active = [] then range t.rowGroups.length
  else active.flatMap (t.partitionRgIndices.getD · [])

/-- The rows that the scan returns. -/
def selected (S : TableScan) (D : DoubleOps) (tx : Snapshot) (t : TableCatalogEntry)
    (active : List ℕ) : List RowId :=
  (scannedIndices t active).flatMap fun g => (t.rowGroups[g]?).elim [] fun rg =>
    ((range rg.rowCount).filter fun o => S.found D tx (rg, o)).map fun offset =>
      { group := g, offset }

/-- The given columns of a row of a table. -/
def tableRow (t : TableCatalogEntry) (cols : List ℕ) (row : RowId) : Row :=
  (t.rowGroups[row.group]?).elim [] fun rg => rg.row cols row.offset

theorem scannedGroups_eq :
    scannedGroups t active = (scannedIndices t active).filterMap (t.rowGroups[·]?) := by
  rw [scannedGroups, scannedIndices]
  split
  · have hall : ((range t.rowGroups.length).filterMap (t.rowGroups[·]?)).map some =
        t.rowGroups.map some := by
      rw [map_some_filterMap fun i hi => by simp [mem_range.mp hi]]
      refine ext_getElem (by simp) fun i hi _ => ?_
      simp
    exact (map_injective_iff.mpr (some_injective _) hall).symm
  · rw [filterMap_flatMap]
    rfl

theorem mem_selected {row : RowId} : row ∈ S.selected D tx t active ↔
    row.group ∈ scannedIndices t active ∧ ∃ rg, t.rowGroups[row.group]? = some rg ∧
      row.offset < rg.rowCount ∧ S.found D tx (rg, row.offset) := by
  rw [selected, mem_flatMap]
  constructor
  · rintro ⟨g, hg, hrow⟩
    cases hrg : t.rowGroups[g]? with
    | none =>
      rw [hrg] at hrow
      cases hrow
    | some rg =>
      rw [hrg] at hrow
      obtain ⟨o, ho, rfl⟩ := mem_map.mp hrow
      rw [mem_filter, mem_range] at ho
      exact ⟨hg, rg, hrg, ho⟩
  · rintro ⟨hg, rg, hrg, hlt, hfound⟩
    refine ⟨row.group, hg, ?_⟩
    rw [hrg]
    exact mem_map.mpr
      ⟨row.offset, mem_filter.mpr ⟨mem_range.mpr hlt, hfound⟩, rfl⟩

/-- The rows that the scan returns, projected to its columns. -/
theorem rowsWhere_scanned : S.rowsWhere (scannedGroups t active) (S.found D tx) =
    (S.selected D tx t active).map (tableRow t S.columnIds) := by
  rw [scannedGroups_eq, rowsWhere, positions, selected, filter_flatMap, map_flatMap]
  induction scannedIndices t active with
  | nil => rfl
  | cons g gs ih =>
    cases hrg : t.rowGroups[g]? with
    | none => rw [filterMap_cons_none hrg, ih, flatMap_cons, hrg]; rfl
    | some rg =>
      rw [filterMap_cons_some hrg, flatMap_cons, ih]
      simp [tableRow, hrg, List.filter_map, Function.comp_def]

/-- The transaction sees the row, and the condition is true on it. -/
def wants (D : DoubleOps) (tx : Snapshot) (cond : Option Expr) (rg : RowGroup) (o : ℕ) : Bool :=
  rg.versionInfo.isVisible o tx && rg.meets D cond o

/-- **The scan chooses as the writers do**: the row groups it leaves out have no wanted row, zone
maps skip none, its filters, after constant folding, say of a row what the condition says, and where
it does not look at them every row it reads is wanted. -/
structure ChoosesWanted (S : TableScan) (D : DoubleOps) (tx : Snapshot) (t : TableCatalogEntry)
    (active : List ℕ) (cond : Option Expr) : Prop where
  groups : ∀ (g : ℕ) rg, t.rowGroups[g]? = some rg → g ∉ scannedIndices t active →
    ∀ o < rg.rowCount, wants D tx cond rg o = false
  jumps : ∀ rg ∈ scannedGroups t active, ∀ o < rg.rowCount, rg.jumped S.scanPredicates o →
    wants D tx cond rg o = false
  folds : S.payloadColIds ≠ [] → ∀ rg ∈ scannedGroups t active, ∀ o < rg.rowCount,
    rg.jumped S.scanPredicates o = false → rg.versionInfo.isVisible o tx →
    S.matching D rg o = rg.meets D cond o
  filters : S.payloadColIds = [] → ∀ rg ∈ scannedGroups t active, ∀ o < rg.rowCount,
    rg.jumped S.scanPredicates o = false → rg.admits tx o → wants D tx cond rg o

/-- A row group of the scanned ones, with its number. -/
theorem mem_scannedGroups : rg ∈ scannedGroups t active ↔
    ∃ g ∈ scannedIndices t active, t.rowGroups[g]? = some rg := by
  rw [scannedGroups_eq, mem_filterMap]

/-- What is found is wanted and the other way round, on the row groups of the scan. -/
theorem ChoosesWanted.wants_iff {g o : ℕ} (h : S.ChoosesWanted D tx t active cond)
    (hrg : t.rowGroups[g]? = some rg) (ho : o < rg.rowCount) : wants D tx cond rg o = true ↔
      g ∈ scannedIndices t active ∧ S.found D tx (rg, o) = true := by
  constructor
  · intro hwanted
    have hg : g ∈ scannedIndices t active := by
      by_contra hg
      rw [h.groups g rg hrg hg o ho] at hwanted
      cases hwanted
    have hscanned := mem_scannedGroups.mpr ⟨g, hg, hrg⟩
    refine ⟨hg, ?_⟩
    cases hjumped : rg.jumped S.scanPredicates o with
    | true =>
      rw [h.jumps rg hscanned o ho hjumped] at hwanted
      cases hwanted
    | false =>
      obtain ⟨hvisible, hmeets⟩ := and_eq_true_iff.mp hwanted
      rw [found, hjumped, keeps]
      split
      next hpayload =>
        rw [hvisible, h.folds hpayload rg hscanned o ho hjumped hvisible, hmeets]
        rfl
      next => exact admits_of_isVisible hvisible
  · rintro ⟨hg, hfound⟩
    have hscanned := mem_scannedGroups.mpr ⟨g, hg, hrg⟩
    obtain ⟨hjumped, hkeeps⟩ := and_eq_true_iff.mp hfound
    rw [not_eq_true'] at hjumped
    rw [keeps] at hkeeps
    split at hkeeps
    next hpayload =>
      obtain ⟨hvisible, hmatching⟩ := and_eq_true_iff.mp hkeeps
      rw [wants, hvisible, ← h.folds hpayload rg hscanned o ho hjumped hvisible, hmatching]
      rfl
    next hpayload =>
      exact h.filters (not_not.mp hpayload) rg hscanned o ho hjumped hkeeps

theorem choosesWanted_iff :
    S.ChoosesWanted D tx t active cond ↔ ∀ (g : ℕ) rg, t.rowGroups[g]? = some rg →
      ∀ o < rg.rowCount, wants D tx cond rg o = true ↔
        g ∈ scannedIndices t active ∧ S.found D tx (rg, o) = true := by
  refine ⟨fun h g rg hrg o ho => h.wants_iff hrg ho, fun h => ?_⟩
  refine ⟨fun g rg hrg hg o ho => ?_, fun rg hrg o ho hjumped => ?_,
    fun hpayload rg hrg o ho hjumped hvisible => ?_,
    fun hpayload rg hrg o ho hjumped hadmits => ?_⟩
  · rw [← not_eq_true]
    exact fun hwanted => hg ((h g rg hrg o ho).mp hwanted).1
  · obtain ⟨g, hg, hrg⟩ := mem_scannedGroups.mp hrg
    rw [← not_eq_true]
    intro hwanted
    have hfound := ((h g rg hrg o ho).mp hwanted).2
    rw [found, hjumped] at hfound
    cases hfound
  · obtain ⟨g, hg, hrg⟩ := mem_scannedGroups.mp hrg
    have hiff := h g rg hrg o ho
    rw [wants, found, hjumped, keeps, if_pos hpayload, hvisible] at hiff
    simp only [Bool.not_false, Bool.true_and] at hiff
    exact (Bool.eq_iff_iff.mpr (hiff.trans (and_iff_right hg))).symm
  · obtain ⟨g, hg, hrg⟩ := mem_scannedGroups.mp hrg
    refine (h g rg hrg o ho).mpr ⟨hg, ?_⟩
    rw [found, hjumped, keeps, if_neg (not_not.mpr hpayload)]
    exact hadmits

end TableScan

/-! ## One condition in three statements -/

namespace Database

open TableScan

/-- A `WHERE` condition on a table, in a `DELETE` and in an `UPDATE`, and the scan of a `SELECT`
with whatever the optimizer has made of it as its filters. -/
structure OneWhere (P : Platform) (D : DoubleOps) (tx : Snapshot) (types : List TypeId)
    (t : TableCatalogEntry) (cond : Option Expr) (S : TableScan) (active : List ℕ)
    (predicate : Option Predicate) (plan : UpdatePlan) : Prop where
  planned : S.Planned types
  scannable : ∀ rg ∈ t.rowGroups, S.Scannable D tx types rg
  pruned : S.activePartitions P t = some (.ok active)
  listed : Listed t active
  width : t.columns.length = types.length
  columns : ∀ e ∈ cond, ∀ c ∈ e.columns, c < types.length
  evaluates : ∀ rg ∈ t.rowGroups, rg.Evaluates D tx cond
  delete : Decides D cond predicate
  scanned : ∀ c ∈ plan.scanColIds, c < types.length
  update : ∃ f, Resolves plan.scanColIds cond f ∧ Decides D f plan.predicate

section OneWhere

variable {P : Platform} {D : DoubleOps} {tx : Snapshot} {types : List TypeId}
  {t : TableCatalogEntry} {cond : Option Expr} {S : TableScan} {active : List ℕ}
  {predicate : Option Predicate} {plan : UpdatePlan} {rg : RowGroup}

section

variable (h : OneWhere P D tx types t cond S active predicate plan)
include h

theorem OneWhere.hasColumns (hrg : rg ∈ t.rowGroups) {cols : List ℕ}
    (hcols : ∀ c ∈ cols, c < types.length) :
    rg.HasColumns cols := by
  intro c hc
  rw [(h.scannable rg hrg).readable.colTypes]
  exact hcols c hc

theorem OneWhere.chooses_delete :
    Chooses D tx t cond (deleteColIds t predicate) predicate := by
  have hcols : ∀ c ∈ deleteColIds t predicate, c < types.length := by
    intro c hc
    rw [deleteColIds] at hc
    split at hc
    · rw [← h.width]
      exact mem_range.mp hc
    · cases hc
  refine ⟨fun rg hrg => (h.scannable rg hrg).readable.readable,
    fun rg hrg => h.hasColumns hrg hcols, ⟨cond, ?_, h.delete⟩, h.evaluates⟩
  cases cond with
  | none => exact .nil
  | some e =>
    rw [deleteColIds, h.delete.isSome]
    refine .cons (indexes_range fun c hc => ?_) .nil
    rw [h.width]
    exact h.columns e rfl c hc

theorem OneWhere.chooses_update : Chooses D tx t cond plan.scanColIds plan.predicate :=
  ⟨fun rg hrg => (h.scannable rg hrg).readable.readable,
    fun _ hrg => h.hasColumns hrg h.scanned, h.update, h.evaluates⟩

end

/-- The scan returns the chosen rows if and only if it chooses as the writers do. -/
theorem chosen_iff_selected :
    (∀ row, Chosen D tx cond t row ↔ row ∈ S.selected D tx t active) ↔
      S.ChoosesWanted D tx t active cond := by
  rw [choosesWanted_iff]
  constructor
  · intro hrows g rg hrg o ho
    rw [wants, and_eq_true_iff]
    constructor
    · intro hchosen
      obtain ⟨hg, rg', hrg', -, hfound⟩ :=
        mem_selected.mp ((hrows { group := g, offset := o }).mp ⟨rg, hrg, ho, hchosen⟩)
      cases hrg.symm.trans hrg'
      exact ⟨hg, hfound⟩
    · rintro ⟨hg, hfound⟩
      obtain ⟨rg', hrg', -, hchosen⟩ := (hrows { group := g, offset := o }).mpr
        (mem_selected.mpr ⟨hg, rg, hrg, ho, hfound⟩)
      cases hrg.symm.trans hrg'
      exact hchosen
  · intro hsame row
    rw [mem_selected]
    constructor
    · rintro ⟨rg, hrg, ho, hchosen⟩
      obtain ⟨hg, hfound⟩ := (hsame row.group rg hrg row.offset ho).mp
        (and_eq_true_iff.mpr hchosen)
      exact ⟨hg, rg, hrg, ho, hfound⟩
    · rintro ⟨hg, rg, hrg, ho, hfound⟩
      exact ⟨rg, hrg, ho, and_eq_true_iff.mp
        ((hsame row.group rg hrg row.offset ho).mpr ⟨hg, hfound⟩)⟩

end OneWhere

/-! ### A table with one row -/

/-- A table of integers with one row. -/
def rowTable (xs : List Int64) : TableCatalogEntry where
  name := text "t"
  schemaName := Catalog.defaultSchema
  createCommitTime := 0
  columns := xs.map fun _ => { name := text "x", type := .int64 }
  rowGroups := [oneRow xs]
  blockSize := 64

def rowDatabase (xs : List Int64) : Database where
  catalog := (Catalog.create 64).createEntry Catalog.defaultSchema (rowTable xs)

/-- The first column is equal to a number. -/
def firstEq (x : Int64) : Expr :=
  .binaryOp .boolean .eq (.columnRef .int64 0) (.literal .int64 (.integer x) false)

/-- An `UPDATE` with the condition `firstEq x` that sets the last column to 9. -/
def setLast (D : DoubleOps) (x : Int64) (columns : ℕ) : UpdatePlan where
  scanColIds := range columns
  sets := [{ col := columns - 1, type := .int64, expr := fun _ => .ok (oneInt 9) }]
  predicate := some ((firstEq x).predicate D)

theorem oneWhere_firstIs {D : DoubleOps} {tx : Snapshot} {xs : List Int64} {x : Int64}
    (hxs : 0 < xs.length) (heval : ∀ f ∈ (firstIs x xs.length).pushedFilters,
      (f.holds D ((firstIs x xs.length).scalars (oneRow xs) 0)).any Except.isOk) :
    OneWhere .plain D tx (replicate xs.length .int64) (rowTable xs) (some (firstEq x))
      (firstIs x xs.length) [] (some ((firstEq x).predicate D)) (setLast D x xs.length) := by
  have hscans := @scans_oneRow D tx xs x hxs heval
  have hcols : ∀ c ∈ (firstEq x).columns, c < xs.length := by
    intro c hc
    obtain rfl := mem_singleton.mp hc
    exact hxs
  have hlen : (replicate xs.length TypeId.int64).length = xs.length := length_replicate
  refine ⟨hscans.planned, hscans.scannable, rfl, ⟨by simp, by simp [rowTable]⟩, ?_, ?_, ?_,
    decides_predicate D _, ?_, ⟨some (firstEq x), ?_, decides_predicate D _⟩⟩
  · simp [rowTable]
  · intro e he c hc
    obtain rfl := mem_some_iff.mp he
    rw [hlen]
    exact hcols c hc
  · intro rg hrg o ho hvisible e he
    obtain rfl := mem_some_iff.mp he
    obtain ⟨b, hb⟩ := (hscans.scannable rg hrg).evaluates o ho hvisible _ mem_cons_self
    obtain rfl : rg = oneRow xs := mem_singleton.mp hrg
    refine ⟨b, (RowGroup.holds_of_indexes (indexes_range hcols) (fun c hc => ?_)
      fun _ => rfl).symm.trans hb⟩
    rw [oneRow, length_replicate]
    exact mem_range.mp hc
  · intro c hc
    rw [hlen]
    exact mem_range.mp hc
  · exact .cons (indexes_range hcols) .nil

theorem choosesWanted_rowTable {S : TableScan} {D : DoubleOps} {tx : Snapshot} {xs : List Int64}
    {cond : Option Expr} (h : wants D tx cond (oneRow xs) 0 = S.found D tx (oneRow xs, 0)) :
    S.ChoosesWanted D tx (rowTable xs) [] cond := by
  refine choosesWanted_iff.mpr fun g rg hrg o ho => ?_
  obtain ⟨hg, rfl⟩ := List.getElem?_eq_some_iff.mp hrg
  obtain rfl : g = 0 := lt_one_iff.mp hg
  obtain rfl : o = 0 := lt_one_iff.mp ho
  have hscanned : 0 ∈ scannedIndices (rowTable xs) [] := mem_range.mpr hg
  exact (eq_iff_iff.mp h).trans (and_iff_right hscanned).symm

end Database

end CppColDB
