import CppColDB.Storage.Column.LaterRows
import CppColDB.Transaction.RowOperator

/-!
# The later batches of an UPDATE

Each batch of an `UPDATE` is read after the batches before it have been written. The rows that
match are those that matched before the statement (`mem_updateTrace`) unless a batch was disturbed by
an earlier one, which needs a segment of a written column that reaches over the end of a batch
(`undisturbed_of_separates`).
-/

namespace CppColDB

open Catalog List Option

namespace RowGroup

variable {rg rg' : RowGroup} {stop start : ℕ} {tx : Snapshot} {offsets : List ℕ}

/-- No segment of the given columns reaches over row `stop`. -/
def SplitsAt (rg : RowGroup) (cols : List ℕ) (stop : ℕ) : Prop :=
  ∀ c ∈ cols, ∀ cc, rg.columnChunks[c]? = some cc → cc.SplitsAt stop

/-- A row group in which at most the rows before `stop` have changed. -/
structure SameAfter (stop : ℕ) (rg rg' : RowGroup) : Prop where
  colTypes : rg'.colTypes = rg.colTypes
  rowCount : rg'.rowCount = rg.rowCount
  visible : ∀ off, stop ≤ off → ∀ tx,
    rg'.versionInfo.isVisible off tx = rg.versionInfo.isVisible off tx
  length : rg'.columnChunks.length = rg.columnChunks.length
  columns : ∀ (c : ℕ) cc', rg'.columnChunks[c]? = some cc' →
    ∃ cc, rg.columnChunks[c]? = some cc ∧ ColumnChunk.SameAfter stop cc cc'

theorem SameAfter.refl (stop : ℕ) (rg : RowGroup) : SameAfter stop rg rg :=
  ⟨rfl, rfl, fun _ _ _ => rfl, rfl, fun _ cc hcc => ⟨cc, hcc, .refl stop cc⟩⟩

theorem SameAfter.trans {rg'' : RowGroup} (h : SameAfter stop rg rg')
    (h' : SameAfter stop rg' rg'') : SameAfter stop rg rg'' := by
  refine ⟨h'.colTypes.trans h.colTypes, h'.rowCount.trans h.rowCount,
    fun off hoff tx => (h'.visible off hoff tx).trans (h.visible off hoff tx),
    h'.length.trans h.length, fun c cc'' hcc'' => ?_⟩
  obtain ⟨cc', hcc', hsame'⟩ := h'.columns c cc'' hcc''
  obtain ⟨cc, hcc, hsame⟩ := h.columns c cc' hcc'
  exact ⟨cc, hcc, hsame.trans hsame'⟩

theorem SameAfter.splitsAt (h : SameAfter stop rg rg') {cols : List ℕ} {k : ℕ}
    (hsplit : rg.SplitsAt cols k) : rg'.SplitsAt cols k := by
  intro c hc cc' hcc'
  obtain ⟨cc, hcc, hsame⟩ := h.columns c cc' hcc'
  exact (hsame.splitsAt_iff k).mpr (hsplit c hc cc hcc)

/-- A batch that begins after the changed rows is read as before. -/
theorem SameAfter.scanBatchWithOffsets_eq (h : SameAfter stop rg rg') (hstart : stop ≤ start)
    (colIds : List ℕ) :
    rg'.scanBatchWithOffsets start colIds tx = rg.scanBatchWithOffsets start colIds tx := by
  have hcol : ∀ (c n : ℕ), (rg'.columnChunks[c]?.bind fun cc => cc.scan start n) =
      rg.columnChunks[c]?.bind fun cc => cc.scan start n := by
    intro c n
    cases hcc' : rg'.columnChunks[c]? with
    | none =>
      rw [getElem?_eq_none_iff, h.length, ← getElem?_eq_none_iff] at hcc'
      rw [hcc']
    | some cc' =>
      obtain ⟨cc, hcc, hsame⟩ := h.columns c cc' hcc'
      rw [hcc, bind_some, bind_some, hsame.scan start hstart]
  have hread : rg'.readBatch start colIds = rg.readBatch start colIds := by
    simp only [readBatch, bind_eq_bind, h.colTypes, h.rowCount, hcol]
  have hsel : rg'.selection start tx = rg.selection start tx := by
    rw [selection, h.rowCount]
    exact filter_congr fun i _ => h.visible _ (by omega) tx
  rw [scanBatchWithOffsets, scanBatchWithOffsets, h.rowCount, hread, hsel]

theorem sameAfter_markUpdatedRows (hlt : ∀ o ∈ offsets, o < stop)
    (id : TransactionId) : SameAfter stop rg (rg.markUpdatedRows id offsets) := by
  refine ⟨rfl, rfl, fun off hoff tx => ?_, rfl, (SameAfter.refl stop rg).columns⟩
  refine VersionInfo.isVisible_congr ?_ tx
  have hnot : off ∉ offsets := fun hmem => absurd (hlt off hmem) (by omega)
  exact (VersionInfo.marker?_foldl_mark _ _ _ _ _).trans (if_neg hnot)

/-- Writes to a column of which no segment reaches over `stop`. -/
theorem sameAfter_onColumn (hlt : ∀ o ∈ offsets, o < stop) {col : ℕ} {new : DataVector}
    (hsplit : rg.SplitsAt [col] stop) {res : Except Error Unit}
    (h : onColumn col (ColumnChunk.writeRows offsets new) rg = some (res, rg')) :
    SameAfter stop rg rg' := by
  obtain ⟨cc, cc', hcc, hwrite, rfl⟩ := Imp.focus_run_eq_some_iff.mp h
  have hsame := ColumnChunk.sameAfter_writeRows hwrite hlt
    (hsplit col (mem_singleton_self col) cc hcc)
  refine ⟨rfl, rfl, fun _ _ _ => rfl, length_set .., fun c cc₁ hcc₁ => ?_⟩
  by_cases heq : col = c
  · subst heq
    obtain ⟨hlen, -⟩ := List.getElem?_eq_some_iff.mp hcc
    rw [getElem?_set_self hlen] at hcc₁
    cases hcc₁
    exact ⟨cc, hcc, hsame⟩
  · rw [getElem?_set_ne heq] at hcc₁
    exact ⟨cc₁, hcc₁, .refl stop cc₁⟩

end RowGroup

namespace Database

variable {tx : Snapshot} {r : TableRef} {db db' : Database} {plan : UpdatePlan} {g stop : ℕ}

/-- Of a table, only rows before `stop` of one row group have changed. -/
structure ChangesBefore (r : TableRef) (g stop : ℕ) (db db' : Database) : Prop where
  other : ∀ g', g' ≠ g → db'.catalog.rowGroup? r g' = db.catalog.rowGroup? r g'
  same : ∀ rg, db.catalog.rowGroup? r g = some rg →
    ∃ rg', db'.catalog.rowGroup? r g = some rg' ∧ RowGroup.SameAfter stop rg rg'

theorem ChangesBefore.refl (db : Database) : db.ChangesBefore r g stop db :=
  ⟨fun _ _ => rfl, fun rg hrg => ⟨rg, hrg, .refl stop rg⟩⟩

theorem ChangesBefore.trans {db'' : Database} (h : db.ChangesBefore r g stop db')
    (h' : db'.ChangesBefore r g stop db'') : db.ChangesBefore r g stop db'' := by
  refine ⟨fun g' hg' => (h'.other g' hg').trans (h.other g' hg'), fun rg hrg => ?_⟩
  obtain ⟨rg', hrg', hsame⟩ := h.same rg hrg
  obtain ⟨rg'', hrg'', hsame'⟩ := h'.same rg' hrg'
  exact ⟨rg'', hrg'', hsame.trans hsame'⟩

theorem changesBefore_modifyRowGroup {f : RowGroup → RowGroup}
    (h : ∀ rg, db.catalog.rowGroup? r g = some rg → RowGroup.SameAfter stop rg (f rg)) :
    db.ChangesBefore r g stop (db.withCatalog (db.catalog.modifyRowGroup r g f)) := by
  refine ⟨fun g' hg' => ?_, fun rg hrg => ⟨f rg, ?_, h rg hrg⟩⟩
  · rw [catalog_withCatalog, rowGroup?_modifyRowGroup, if_neg fun h => hg' h.2]
  · rw [catalog_withCatalog, rowGroup?_modifyRowGroup, if_pos ⟨rfl, rfl⟩, hrg]
    rfl

/-- The `SET` clauses of a batch write its own rows. -/
theorem changesBefore_updateColumns {batch : DataChunk} {hits offsets : List ℕ}
    {sets : List SetClause} {out : List DataVector × List DataVector} {rg : RowGroup}
    (hlt : ∀ o ∈ offsets, o < stop) (hrg : db.catalog.rowGroup? r g = some rg)
    (hsplit : rg.SplitsAt (sets.map SetClause.col) stop)
    (h : updateColumns plan r g batch hits offsets sets db = some (.ok out, db')) :
    db.ChangesBefore r g stop db' := by
  induction sets generalizing db rg out with
  | nil =>
    cases h
    exact .refl _
  | cons set rest ih =>
    obtain ⟨⟨old, new⟩, db₁, hcol, h⟩ := Imp.bind_run_eq_ok_iff.mp h
    obtain ⟨⟨olds, news⟩, db₂, hrest, h⟩ := Imp.bind_run_eq_ok_iff.mp h
    cases h
    rcases writes_updateColumn hrg hcol with ⟨_, hres, -⟩ | ⟨new', rg₁, res', hrun, -, -, rfl⟩
    · cases hres
    have hsame : RowGroup.SameAfter stop rg rg₁ := by
      refine RowGroup.sameAfter_onColumn hlt (fun c hc => hsplit c ?_) hrun
      rw [mem_singleton.mp hc]
      exact mem_cons_self
    have hfirst : db.ChangesBefore r g stop
        (db.withCatalog (db.catalog.modifyRowGroup r g fun _ => rg₁)) :=
      changesBefore_modifyRowGroup fun rg' hrg' => by
        cases hrg.symm.trans hrg'
        exact hsame
    obtain ⟨rg₂, hrg₂, hsame₂⟩ := hfirst.same rg hrg
    refine hfirst.trans (ih hrg₂ (fun c hc => ?_) hrest)
    exact hsame₂.splitsAt hsplit c (mem_cons_of_mem _ hc)

/-- No segment of the given columns reaches over the end of a batch. -/
def Separates (db : Database) (r : TableRef) (cols : List ℕ) : Prop :=
  ∀ g rg, db.catalog.rowGroup? r g = some rg → ∀ k, rg.SplitsAt cols (k * standardVectorSize)

theorem ChangesBefore.separates (h : db.ChangesBefore r g stop db') {cols : List ℕ}
    (hg : ∃ rg, db.catalog.rowGroup? r g = some rg) (hsep : db.Separates r cols) :
    db'.Separates r cols := by
  intro g' rg' hrg' k
  by_cases hne : g' = g
  · subst hne
    obtain ⟨rg, hrg⟩ := hg
    obtain ⟨rg₁, hrg₁, hsame⟩ := h.same rg hrg
    cases hrg₁.symm.trans hrg'
    exact hsame.splitsAt (hsep g' rg hrg k)
  · rw [h.other g' hne] at hrg'
    exact hsep g' rg' hrg' k

/-- The second batch is of another row group or comes after the first one. -/
def BatchAfter (b b' : RowId) : Prop :=
  b'.group = b.group → b.offset + standardVectorSize ≤ b'.offset

/-- A batch reads as before what comes after the changed rows. -/
theorem ChangesBefore.hits_eq {b b' : RowId}
    (h : db.ChangesBefore r b.group (b.offset + standardVectorSize) db')
    (hg : ∃ rg, db.catalog.rowGroup? r b.group = some rg) (hlater : BatchAfter b b')
    (colIds : List ℕ) (predicate : Option Predicate) :
    db'.catalog.hits tx r colIds predicate b' = db.catalog.hits tx r colIds predicate b' := by
  rw [hits, hits]
  by_cases hne : b'.group = b.group
  · obtain ⟨rg, hrg⟩ := hg
    obtain ⟨rg', hrg', hsame⟩ := h.same rg hrg
    rw [hne, hrg, hrg']
    simp only [Fallible.bind_of_ok (Fallible.ofOption_eq_ok_iff.mpr rfl),
      hsame.scanBatchWithOffsets_eq (hlater hne)]
  · rw [h.other _ hne]

theorem rowGroup?_pushUndo (id : TransactionId) (e : UndoEntry) (g : ℕ) :
    (db.pushUndo id e).catalog.rowGroup? r g = db.catalog.rowGroup? r g := by
  rw [catalog_pushUndo]

/-- **One batch of an `UPDATE`** changes its own rows only. -/
theorem changesBefore_updateBatch {b : RowId} {k : ℕ} (hk : b.offset = k * standardVectorSize)
    (hsep : db.Separates r (plan.sets.map SetClause.col))
    (h : updateBatch plan tx r b.group b.offset db = some (.ok (), db')) :
    (∃ rg, db.catalog.rowGroup? r b.group = some rg) ∧
      db.ChangesBefore r b.group (b.offset + standardVectorSize) db' := by
  have hgroup : ∀ {rows}, db.catalog.hits tx r plan.scanColIds plan.predicate b =
      some (.ok rows) → ∃ rg, db.catalog.rowGroup? r b.group = some rg := fun hhits => by
    obtain ⟨rg, _, _, _, _, hrg, -⟩ := exists_of_hits hhits
    exact ⟨rg, hrg⟩
  rcases updateBatch_cases h with ⟨e, -, he, -⟩ | ⟨hhits, -, rfl⟩ |
    ⟨batch, hits, marked, hread, -, ⟨_, -, he⟩ | ⟨olds, news, mid, hrun, -, rfl⟩⟩
  · cases he
  · exact ⟨hgroup hhits, .refl _⟩
  · cases he
  · refine ⟨hgroup hread.hits, ?_⟩
    have hlt : ∀ o ∈ marked, o < b.offset + standardVectorSize := fun o ho =>
      ((selected_of_hits hread.hits).2 { group := b.group, offset := o }
        (mem_map_of_mem ho)).2.2
    have hmark : db.ChangesBefore r b.group (b.offset + standardVectorSize)
        (db.markUpdated tx r b.group marked) :=
      changesBefore_modifyRowGroup fun rg _ => RowGroup.sameAfter_markUpdatedRows hlt tx.txId
    obtain ⟨rg, hrg⟩ := hread.exists_rowGroup
    have hsplit := hmark.separates (hgroup hread.hits) hsep b.group rg hrg (k + 1)
    rw [Nat.succ_mul, ← hk] at hsplit
    have hcols := changesBefore_updateColumns hlt hrg hsplit hrun
    exact (hmark.trans hcols).trans ⟨fun g' _ => rowGroup?_pushUndo _ _ g',
      fun rg hrg => ⟨rg, by rw [rowGroup?_pushUndo, hrg], .refl _ rg⟩⟩

/-- Every batch that an `UPDATE` comes to has the matching rows that it had in `c`. -/
def Undisturbed (plan : UpdatePlan) (tx : Snapshot) (r : TableRef) (c : Catalog) :
    List RowId → Database → Prop
  | [], _ => True
  | b :: bs, db =>
    db.catalog.hits tx r plan.scanColIds plan.predicate b =
        c.hits tx r plan.scanColIds plan.predicate b ∧
      ∀ db', updateBatch plan tx r b.group b.offset db = some (.ok (), db') →
        Undisturbed plan tx r c bs db'

/-- **The later batches** are read as before where no segment reaches over the end of a batch. -/
theorem undisturbed_of_separates {bs : List RowId} (hlater : bs.Pairwise BatchAfter)
    (hstart : ∀ b ∈ bs, ∃ k, b.offset = k * standardVectorSize) {c : Catalog}
    (hsame : ∀ b ∈ bs, db.catalog.hits tx r plan.scanColIds plan.predicate b =
      c.hits tx r plan.scanColIds plan.predicate b)
    (hsep : db.Separates r (plan.sets.map SetClause.col)) : Undisturbed plan tx r c bs db := by
  induction bs generalizing db with
  | nil => trivial
  | cons b bs ih =>
    obtain ⟨hfirst, hlater⟩ := pairwise_cons.mp hlater
    obtain ⟨⟨k, hk⟩, hstart⟩ := forall_mem_cons.mp hstart
    obtain ⟨hb, hsame⟩ := forall_mem_cons.mp hsame
    refine ⟨hb, fun db' hrun => ?_⟩
    obtain ⟨hg, hchange⟩ := changesBefore_updateBatch hk hsep hrun
    refine ih hlater hstart (fun b' hb' => ?_) (hchange.separates hg hsep)
    exact (hchange.hits_eq hg (hfirst b' hb') _ _).trans (hsame b' hb')

/-- **The rows that an `UPDATE` rewrites** are those that matched before it. -/
theorem mem_updateTrace {bs : List RowId} {c : Catalog} (hsame : Undisturbed plan tx r c bs db)
    (h : updateBatches plan tx r bs db = some (.ok (), db')) (row : RowId) :
    row ∈ updateTrace plan tx r bs db ↔ ∃ b ∈ bs, ∃ rows,
      c.hits tx r plan.scanColIds plan.predicate b = some (.ok rows) ∧ row ∈ rows := by
  induction bs generalizing db with
  | nil => simp [updateTrace]
  | cons b bs ih =>
    obtain ⟨⟨⟩, db₁, hb, hrest⟩ := Imp.bind_run_eq_ok_iff.mp h
    obtain ⟨hfirst, hlater⟩ := hsame
    obtain ⟨rows, hhits⟩ : ∃ rows,
        db.catalog.hits tx r plan.scanColIds plan.predicate b = some (.ok rows) := by
      rcases updateBatch_cases hb with ⟨e, -, he, -⟩ | ⟨hhits, -, -⟩ |
        ⟨batch, hits, marked, hread, -, -⟩
      · cases he
      · exact ⟨[], hhits⟩
      · exact ⟨_, hread.hits⟩
    simp only [updateTrace, hhits, hb, mem_append, ih (hlater db₁ hb) hrest, exists_mem_cons_iff]
    refine or_congr_left ⟨fun hrow => ⟨rows, hfirst ▸ hhits, hrow⟩, ?_⟩
    rintro ⟨rows', heq, hrow⟩
    rwa [Except.ok.inj (some.inj (hhits.symm.trans (hfirst.trans heq)))]

end Database

end CppColDB
