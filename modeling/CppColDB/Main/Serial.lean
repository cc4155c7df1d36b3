import CppColDB.Catalog.Stamps
import CppColDB.Execution.Define
import CppColDB.Transaction.Session

/-!
# Serial transactions that define tables

Transactions that create, drop and fill tables, one after the other, each of which commits.
A statement that throws is reported, and its transaction goes on. The tables that a new
transaction finds are those of `liveTables`: a set of names that `CREATE TABLE` adds to and
`DROP TABLE` takes from.

The proof is by an invariant of the stamps: a version is visible exactly where no transaction
has dropped it, and of the versions of a name at most one is.
-/

namespace CppColDB

open ByteCodec Catalog Imp List Nat

/-- The statements of such a transaction. -/
inductive TableStatement where
  | create (schema table : Bytes) (columns : List ColumnDefinition)
      (partitionInfo : PartitionInfo) (ifNotExists : Bool)
  | drop (schema table : Bytes) (ifExists : Bool)
  | insert (schema table : Bytes) (columnIds : List ℕ) (rows : DataChunk)

namespace TableStatement

def run (P : Platform) (tx : Snapshot) : TableStatement → Imp Error Database Unit
  | .create schema table columns partitionInfo ifNotExists =>
    Database.physicalCreateTable tx schema table columns partitionInfo ifNotExists
  | .drop schema table ifExists => Database.physicalDropTable tx schema table ifExists
  | .insert schema table columnIds rows => Database.physicalInsert P tx schema table columnIds rows

/-- The tables after a statement. There is one schema. -/
def effect (live : Finset (Bytes × Bytes)) : TableStatement → Finset (Bytes × Bytes)
  | .create schema table _ _ _ =>
    if schema = defaultSchema then Insert.insert (schema, table) live else live
  | .drop schema table _ => live.erase (schema, table)
  | .insert _ _ _ _ => live

end TableStatement

/-- The tables that some transactions leave. -/
def liveTables (txs : List (List TableStatement)) : Finset (Bytes × Bytes) :=
  txs.flatten.foldl TableStatement.effect ∅

namespace Database

/-- One transaction: a statement that throws does not end it. -/
def runSerial (P : Platform) (stmts : List TableStatement) : Imp Error Database Unit := do
  let db ← get
  let tx := (db.newTransaction false).toSnapshot
  modify fun db => db.beginTransaction false
  forEach stmts fun stmt => catchAll (stmt.run P tx) (pure ())
  let tx ← transaction tx.txId
  commit tx

/-- Transactions one after the other. -/
def runSerialAll (P : Platform) (txs : List (List TableStatement)) : Imp Error Database Unit :=
  forEach txs (runSerial P)

end Database

/-! ## The stamps of a serial run -/

namespace EntryStamps

/-- No transaction has dropped the version. -/
def live (e : EntryStamps) : Bool := e.deleteTxId = invalidTransaction

/-- The version was created, and if at all dropped, by transactions before `id`, at times up to
`k`, or by `id`, which has not committed. -/
structure Tidy (id : TransactionId) (k : Timestamp) (e : EntryStamps) : Prop where
  create : (e.createTxId = id ∧ e.createCommitTime = invalidTimestamp) ∨
    (e.createTxId < id ∧ e.createCommitTime ≠ invalidTimestamp ∧ e.createCommitTime ≤ k)
  delete : (e.deleteTxId = invalidTransaction ∧ e.deleteCommitTime = invalidTimestamp) ∨
    (e.deleteTxId = id ∧ e.deleteCommitTime = invalidTimestamp) ∨
    (e.deleteTxId ≠ invalidTransaction ∧ e.deleteTxId < id ∧
      e.deleteCommitTime ≠ invalidTimestamp ∧ e.deleteCommitTime ≤ k)

variable {id : TransactionId} {k : Timestamp} {e : EntryStamps}

/-- In a serial run a transaction sees the versions that are not dropped. -/
theorem Tidy.isVisible_eq (h : e.Tidy id k) (hid : id ≠ invalidTransaction) :
    e.isVisible { txId := id, startTime := k + 1 } = e.live := by
  have hcreate : ¬ (e.createTxId ≠ id ∧
      (e.createCommitTime = invalidTimestamp ∨ k + 1 ≤ e.createCommitTime)) := by
    rcases h.create with ⟨rfl, -⟩ | ⟨-, hvalid, hle⟩
    · exact fun h => h.1 rfl
    · rintro ⟨-, hinvalid | hlate⟩
      · exact hvalid hinvalid
      · exact (lt_add_one k).not_ge (hlate.trans hle)
  rw [isVisible, if_neg hcreate]
  rcases h.delete with ⟨hnone, htime⟩ | ⟨rfl, -⟩ | ⟨hne, hlt, hvalid, hle⟩
  · simp [live, hnone, htime, hid.symm]
  · simp [live, hid]
  · have hlt' : e.deleteCommitTime < k + 1 := hle.trans_lt (lt_add_one k)
    simp [live, hne, hvalid, hlt']

/-- Its commit settles what the transaction did. -/
theorem Tidy.commit (h : e.Tidy id k) (hid : id ≠ invalidTransaction) (hk : 0 ≤ k) :
    (e.commit id (k + 1)).Tidy (id + 1) (k + 1) := by
  have htime := next_ne_invalid hk
  constructor
  · rcases h.create with ⟨hc, ht⟩ | ⟨hc, ht, hle⟩
    · exact .inr ⟨by simp [EntryStamps.commit, hc], by simp [EntryStamps.commit, hc, ht, htime],
        by simp [EntryStamps.commit, hc, ht]⟩
    · refine .inr ⟨lt_succ_of_lt hc, ?_, ?_⟩
      · simp [EntryStamps.commit, ht]
      · simp only [EntryStamps.commit, ht, and_false]
        exact hle.trans (lt_add_one k).le
  · rcases h.delete with ⟨hd, ht⟩ | ⟨hd, ht⟩ | ⟨hd, hlt, ht, hle⟩
    · exact .inl ⟨hd, by simp [EntryStamps.commit, hd, hid.symm, ht]⟩
    · exact .inr (.inr ⟨by simp [EntryStamps.commit, hd, hid], by simp [EntryStamps.commit, hd],
        by simp [EntryStamps.commit, hd, hid, ht, htime], by simp [EntryStamps.commit, hd, hid, ht]⟩)
    · refine .inr (.inr ⟨hd, lt_succ_of_lt hlt, ?_, ?_⟩)
      · simp [EntryStamps.commit, ht]
      · simp only [EntryStamps.commit, ht, and_false]
        exact hle.trans (lt_add_one k).le

/-- What was settled before a transaction is so in it. -/
theorem Tidy.drop (h : e.Tidy id k) : (e.drop id).Tidy id k := ⟨h.create, .inr (.inl ⟨rfl, rfl⟩)⟩

theorem live_drop (hid : id ≠ invalidTransaction) : (e.drop id).live = false := by
  simp [live, EntryStamps.drop, hid]

end EntryStamps

namespace Database

variable {db db' : Database} {id : TransactionId} {live : Finset (Bytes × Bytes)}
  {schema name : Bytes}

/-- The catalog holds the given tables for transaction `id` of a serial run. -/
structure Serial (db : Database) (id : TransactionId) (live : Finset (Bytes × Bytes)) : Prop where
  pos : id ≠ invalidTransaction
  clock : 0 ≤ db.commitCounter
  schemas : ∀ schema, (db.catalog.schemas.lookup schema).isSome ↔ schema = defaultSchema
  tidy : ∀ schema name, ∀ e ∈ db.catalog.stampsOf schema name, e.Tidy id db.commitCounter
  once : ∀ schema name, (db.catalog.stampsOf schema name).countP EntryStamps.live =
    if (schema, name) ∈ live then 1 else 0

/-- What transaction `id` sees. -/
def serialSnapshot (db : Database) (id : TransactionId) : Snapshot :=
  { txId := id, startTime := db.commitCounter + 1 }

/-- A transaction of a serial run finds the tables, and no others. -/
theorem Serial.getTable_eq_none_iff (h : db.Serial id live) :
    db.catalog.getTable schema name (db.serialSnapshot id) = none ↔ (schema, name) ∉ live := by
  have hcount : (db.catalog.stampsOf schema name).countP EntryStamps.live = 0 ↔
      (schema, name) ∉ live := by
    rw [h.once]
    split <;> simp_all
  rw [Catalog.getTable_eq_none_iff, ← hcount, countP_eq_zero]
  refine forall₂_congr fun e he => ?_
  rw [serialSnapshot, (h.tidy schema name e he).isVisible_eq h.pos, Bool.not_eq_true]

theorem Serial.of_same (h : db.Serial id live) (hclock : db'.commitCounter = db.commitCounter)
    (hstamps : db'.catalog.SameStamps db.catalog) (hschemas : db'.catalog.SameSchemas db.catalog) :
    db'.Serial id live where
  pos := h.pos
  clock := hclock ▸ h.clock
  schemas schema := by rw [hschemas, h.schemas]
  tidy schema name e he := by
    rw [hclock]
    exact h.tidy schema name e (by rwa [stampsOf, ← hstamps])
  once schema name := by rw [← h.once, stampsOf, hstamps, stampsOf]

/-- The version that a transaction finds is the live one of its name. -/
theorem Serial.drop (h : db.Serial id live) {r : TableRef}
    (hr : db.catalog.getTable schema name (db.serialSnapshot id) = some r) :
    (db.withCatalog (db.catalog.markDropped r (db.serialSnapshot id))).Serial id
      (live.erase (schema, name)) := by
  obtain ⟨hs, hn, e, he, hvisible⟩ := exists_of_getTable hr
  have hmem : e ∈ db.catalog.stampsOf schema name := mem_of_getElem? he
  have htidy := h.tidy schema name e hmem
  have hlive : e.live := by rwa [serialSnapshot, htidy.isVisible_eq h.pos] at hvisible
  have hstamps : ∀ s n,
      (db.withCatalog (db.catalog.markDropped r (db.serialSnapshot id))).catalog.stampsOf s n =
        if s = schema ∧ n = name then
          (db.catalog.stampsOf schema name).modify r.version (EntryStamps.drop id)
        else db.catalog.stampsOf s n := by
    intro s n
    rw [catalog_withCatalog, stampsOf_markDropped, hs, hn]
    rfl
  obtain ⟨hlt, hget⟩ := List.getElem?_eq_some_iff.mp he
  obtain ⟨pre, e', post, hsplit, hpre, hmodify⟩ := exists_of_modify (EntryStamps.drop id) hlt
  obtain rfl : e' = e := by
    rw [← hget]
    simp [hsplit, ← hpre]
  -- the one live version of the name is gone
  have hcount := h.once schema name
  rw [hsplit, countP_append, countP_cons_of_pos hlive] at hcount
  have hrest : pre.countP EntryStamps.live + post.countP EntryStamps.live = 0 := by
    split at hcount <;> omega
  refine ⟨h.pos, h.clock, fun s => ?_, fun s n e₁ he₁ => ?_, fun s n => ?_⟩
  · rw [catalog_withCatalog, ← h.schemas, markDropped, modifyTable, sameSchemas_modifyVersions]
  · rw [hstamps, hmodify] at he₁
    split at he₁
    · rcases mem_append.mp he₁ with hmem₁ | hmem₁
      · exact h.tidy schema name e₁ (hsplit ▸ mem_append_left _ hmem₁)
      · rcases mem_cons.mp hmem₁ with rfl | hmem₁
        · exact htidy.drop
        · exact h.tidy schema name e₁
            (hsplit ▸ mem_append_right _ (mem_cons_of_mem _ hmem₁))
    · exact h.tidy s n e₁ he₁
  · rw [hstamps, hmodify]
    split
    next heq =>
      rw [heq.1, heq.2, countP_append, countP_cons_of_neg (by simp [EntryStamps.live_drop h.pos]),
        if_neg (by simp)]
      exact hrest
    next hne =>
      rw [h.once]
      have hpair : (s, n) ≠ (schema, name) := fun heq => hne (by simpa using heq)
      simp only [Finset.mem_erase, hpair, ne_eq, not_false_eq_true, true_and]

/-- A name without a live version gets one. -/
theorem Serial.create (h : db.Serial id live) {s : Schema} {entry : TableCatalogEntry}
    (hs : db.catalog.schemas.lookup schema = some s) (hname : entry.name = name)
    (hentry : entry.stamps = created (db.serialSnapshot id))
    (hnew : (schema, name) ∉ live) :
    (db.withCatalog (db.catalog.createEntry schema entry)).Serial id
      (insert (schema, name) live) := by
  have hstamps : ∀ s' n,
      (db.withCatalog (db.catalog.createEntry schema entry)).catalog.stampsOf s' n =
        if s' = schema ∧ n = name then
          db.catalog.stampsOf s' n ++ [created (db.serialSnapshot id)]
        else db.catalog.stampsOf s' n := by
    intro s' n
    rw [catalog_withCatalog, stampsOf_createEntry hs, hname, hentry]
  have htidy : (created (db.serialSnapshot id)).Tidy id db.commitCounter :=
    ⟨.inl ⟨rfl, rfl⟩, .inl ⟨rfl, rfl⟩⟩
  refine ⟨h.pos, h.clock, fun s' => ?_, fun s' n e he => ?_, fun s' n => ?_⟩
  · rw [catalog_withCatalog, ← h.schemas, sameSchemas_createEntry]
  · rw [hstamps] at he
    split at he
    · rcases mem_append.mp he with hmem | hmem
      · exact h.tidy s' n e hmem
      · rw [mem_singleton.mp hmem]
        exact htidy
    · exact h.tidy s' n e he
  · rw [hstamps]
    split
    next heq =>
      rw [heq.1, heq.2, countP_append, h.once, if_neg hnew, if_pos (Finset.mem_insert_self ..)]
      rfl
    next hne =>
      rw [h.once]
      have hpair : (s', n) ≠ (schema, name) := fun heq => hne (by simpa using heq)
      simp only [Finset.mem_insert, hpair, false_or]

/-! ## One transaction -/

/-- The transaction has begun, and its undo buffer names every table that it defined. -/
structure Begun (db : Database) (id : TransactionId) (tx : Transaction) : Prop where
  next : db.nextTxId = id + 1
  lookup : db.activeTransactions.lookup id = some tx
  snapshot : tx.toSnapshot = db.serialSnapshot id
  logged : ∀ schema name, ∀ e ∈ db.catalog.stampsOf schema name,
    e.createTxId = id ∨ e.deleteTxId = id → ∃ u ∈ tx.undoBuffer, Defines schema name u

variable {logged : Bool} {ch : Change}

theorem Dml.sameSchemas {tx : Snapshot}
    (h : Dml tx logged ch db db') : db'.catalog.SameSchemas db.catalog := by
  cases h with
  | grow => exact sameSchemas_modifyVersions _
  | append =>
    rw [catalog_pushUndo]
    exact sameSchemas_modifyVersions _
  | delete =>
    rw [catalog_pushUndo, catalog_withCatalog]
    exact sameSchemas_forRows _ _ _
  | deleteFailed =>
    rw [catalog_withCatalog]
    exact sameSchemas_forRows _ _ _
  | update =>
    rw [catalog_pushUndo]
    exact sameSchemas_modifyVersions _
  | updateFailed => exact sameSchemas_modifyVersions _

variable {tx : Transaction} {r : Except Error Unit} {s : Snapshot} {c : Catalog}

/-- The transaction of a statement keeps its snapshot and its undo entries. -/
theorem Dml.lookup (h : Dml s logged ch db db')
    (htx : db.activeTransactions.lookup s.txId = some tx) :
    ∃ tx', db'.activeTransactions.lookup s.txId = some tx' ∧ tx'.toSnapshot = tx.toSnapshot ∧
      ∀ u ∈ tx.undoBuffer, u ∈ tx'.undoBuffer := by
  have hpush : ∀ (c : Catalog) (e : UndoEntry),
      ∃ tx', ((db.withCatalog c).pushUndo s.txId e).activeTransactions.lookup s.txId = some tx' ∧
        tx'.toSnapshot = tx.toSnapshot ∧ ∀ u ∈ tx.undoBuffer, u ∈ tx'.undoBuffer := by
    intro c e
    have hactive : (db.withCatalog c).activeTransactions.lookup s.txId = some tx := htx
    refine ⟨{ tx with undoBuffer := tx.undoBuffer ++ [e] }, ?_, rfl,
      fun u hu => mem_append_left _ hu⟩
    rw [lookup_pushUndo, if_pos rfl, hactive, Option.map_some]
  cases h with
  | grow | deleteFailed | updateFailed => exact ⟨tx, htx, rfl, fun u hu => hu⟩
  | append | delete | update => exact hpush _ _

theorem Begun.of_dml (h : db.Begun id tx) (hdml : Dml (db.serialSnapshot id) logged ch db db') :
    ∃ tx', db'.Begun id tx' ∧ db'.serialSnapshot id = db.serialSnapshot id := by
  have hclock := hdml.sameClock
  have hsnapshot : db'.serialSnapshot id = db.serialSnapshot id := by
    rw [serialSnapshot, serialSnapshot, hclock.commitCounter]
  obtain ⟨tx', hlookup, hsame, hundo⟩ := hdml.lookup h.lookup
  refine ⟨tx', ⟨hclock.nextTxId.trans h.next, hlookup, ?_, ?_⟩, hsnapshot⟩
  · rw [hsame, h.snapshot, hsnapshot]
  · intro schema name e he htouched
    rw [stampsOf, hclock.sameStamps] at he
    obtain ⟨u, hu, hdefines⟩ := h.logged schema name e he htouched
    exact ⟨u, hundo u hu, hdefines⟩

/-- An INSERT changes no definition. -/
theorem Serial.of_effect {k : ChangeKind} {ok : Bool} (h : db.Serial id live)
    (hbegun : db.Begun id tx) (heffect : Effect (db.serialSnapshot id) k db ok db') :
    db'.Serial id live ∧ (∃ tx', db'.Begun id tx') ∧
      db'.serialSnapshot id = db.serialSnapshot id := by
  have hstep : ∀ {db₁ db₂ : Database} {logged ch}, Dml (db.serialSnapshot id) logged ch db₁ db₂ →
      db₁.Serial id live ∧ (∃ tx, db₁.Begun id tx) ∧ db₁.serialSnapshot id = db.serialSnapshot id →
      db₂.Serial id live ∧ (∃ tx, db₂.Begun id tx) ∧
        db₂.serialSnapshot id = db.serialSnapshot id := by
    rintro db₁ db₂ logged ch hdml ⟨hserial, ⟨tx₁, hbegun₁⟩, hsnapshot⟩
    rw [← hsnapshot] at hdml
    obtain ⟨tx₂, hbegun₂, hsnapshot₂⟩ := hbegun₁.of_dml hdml
    exact ⟨hserial.of_same hdml.sameClock.commitCounter hdml.sameClock.sameStamps
      hdml.sameSchemas, ⟨tx₂, hbegun₂⟩, hsnapshot₂.trans hsnapshot⟩
  obtain ⟨mid, hmid, hend⟩ := heffect
  have hmid' : mid.Serial id live ∧ (∃ tx, mid.Begun id tx) ∧
      mid.serialSnapshot id = db.serialSnapshot id := by
    clear hend
    induction hmid with
    | refl => exact ⟨h, ⟨tx, hbegun⟩, rfl⟩
    | tail _ hlast ih =>
      obtain ⟨ch, -, hdml⟩ := hlast
      exact hstep hdml ih
  obtain rfl | ⟨-, ch, -, hdml⟩ := hend
  · exact hmid'
  · exact hstep hdml hmid'

/-- A statement whose exception is ignored has done what it does otherwise. -/
theorem ignore_run {m : Imp Error Database Unit} {b : Bool}
    (h : (if b then catchAll m (pure ()) else m) db = some (r, db')) :
    ∃ r', m db = some (r', db') := by
  cases b with
  | false => exact ⟨r, h⟩
  | true =>
    rw [if_pos rfl] at h
    cases hm : m db with
    | none => simp [catchAll, hm] at h
    | some res =>
      obtain ⟨r', db₁⟩ := res
      cases r' with
      | ok a =>
        rw [catchAll_run_ok hm] at h
        cases h
        exact ⟨_, rfl⟩
      | error err =>
        rw [catchAll_run_error hm] at h
        cases h
        exact ⟨_, rfl⟩

/-- A definition is in the undo buffer of its transaction. -/
theorem Begun.define (h : db.Begun id tx) {e : CatalogUndoEntry}
    (hstamps : ∀ schema name, ¬ (schema = e.schema ∧ name = e.table) →
      c.stampsOf schema name = db.catalog.stampsOf schema name) :
    ∃ tx', ((db.withCatalog c).pushUndo id (.catalog e)).Begun id tx' := by
  have hactive : (db.withCatalog c).activeTransactions.lookup id = some tx := h.lookup
  have hclock := @sameClock_pushUndo (db.withCatalog c) id (.catalog e)
  refine ⟨{ tx with undoBuffer := tx.undoBuffer ++ [.catalog e] },
    ⟨hclock.nextTxId.trans h.next, ?_, ?_, ?_⟩⟩
  · rw [lookup_pushUndo, if_pos rfl, hactive, Option.map_some]
  · have hcounter := hclock.commitCounter
    rw [serialSnapshot, hcounter]
    exact h.snapshot
  · intro schema name e' he' htouched
    by_cases hname : schema = e.schema ∧ name = e.table
    · exact ⟨.catalog e, by simp, hname⟩
    · rw [catalog_pushUndo, catalog_withCatalog, hstamps schema name hname] at he'
      obtain ⟨u, hu, hdefines⟩ := h.logged schema name e' he' htouched
      exact ⟨u, mem_append_left _ hu, hdefines⟩

theorem serialSnapshot_define (c : Catalog) (e : UndoEntry) :
    ((db.withCatalog c).pushUndo id e).serialSnapshot id = db.serialSnapshot id := by
  rw [serialSnapshot, (@sameClock_pushUndo (db.withCatalog c) id e).commitCounter]
  rfl

theorem Serial.pushUndo (h : (db.withCatalog c).Serial id live) (e : UndoEntry) :
    ((db.withCatalog c).pushUndo id e).Serial id live :=
  h.of_same (sameClock_pushUndo id e).commitCounter (sameClock_pushUndo id e).sameStamps
    (fun schema => by rw [catalog_pushUndo])

variable {P : Platform} {stmts : List TableStatement}

/-- **One statement** has its effect on the tables, whether it returns or throws. -/
theorem Serial.statement {stmt : TableStatement} (h : db.Serial id live) (hbegun : db.Begun id tx)
    (hrun : stmt.run P (db.serialSnapshot id) db = some (r, db')) :
    db'.Serial id (stmt.effect live) ∧ (∃ tx', db'.Begun id tx') ∧
      db'.serialSnapshot id = db.serialSnapshot id := by
  cases stmt with
  | create schema table columns pi ifNotExists =>
    obtain ⟨r', hrun⟩ := ignore_run hrun
    obtain ⟨err, c, hc, rfl⟩ | ⟨c, hc, rfl⟩ := define_run hrun
    · obtain ⟨-, rfl, hthrown⟩ | ⟨hok, -⟩ := createTable_run hc
      · have heffect : TableStatement.effect live
            (.create schema table columns pi ifNotExists) = live := by
          rw [TableStatement.effect]
          split
          next hschema =>
            rcases hthrown with hnone | hsome
            · exact absurd ((h.schemas schema).mpr hschema) (by simp [hnone])
            · refine Finset.insert_eq_of_mem (not_not.mp fun hmem => ?_)
              rw [h.getTable_eq_none_iff.mpr hmem] at hsome
              cases hsome
          next => rfl
        rw [heffect]
        exact ⟨h, ⟨tx, hbegun⟩, rfl⟩
      · cases hok
    · obtain ⟨hfailed, -⟩ | ⟨-, hnone, s, entry, hs, hname, hentry, -, rfl⟩ := createTable_run hc
      · cases hfailed
      · have hschema : schema = defaultSchema := (h.schemas schema).mp (by simp [hs])
        rw [TableStatement.effect, if_pos hschema]
        refine ⟨(h.create hs hname hentry (h.getTable_eq_none_iff.mp hnone)).pushUndo _,
          hbegun.define fun schema' name' hne => ?_, serialSnapshot_define _ _⟩
        rw [stampsOf_createEntry hs, hname, if_neg hne]
  | drop schema table ifExists =>
    obtain ⟨r', hrun⟩ := ignore_run hrun
    obtain ⟨err, c, hc, rfl⟩ | ⟨c, hc, rfl⟩ := define_run hrun
    · obtain ⟨-, rfl, hthrown⟩ | ⟨hok, -⟩ := dropTable_run hc
      · have hnone : db.catalog.getTable schema table (db.serialSnapshot id) = none := by
          rcases hthrown with hnone | hnone
          · rw [Catalog.getTable_eq_none_iff, Catalog.stampsOf_eq_nil hnone]
            exact forall_mem_nil _
          · exact hnone
        rw [TableStatement.effect, Finset.erase_eq_of_notMem (h.getTable_eq_none_iff.mp hnone)]
        exact ⟨h, ⟨tx, hbegun⟩, rfl⟩
      · cases hok
    · obtain ⟨hfailed, -⟩ | ⟨-, ref, href, rfl⟩ := dropTable_run hc
      · cases hfailed
      · refine ⟨(h.drop href).pushUndo _,
          hbegun.define fun schema' name' hne => ?_, serialSnapshot_define _ _⟩
        obtain ⟨hs, hn, -⟩ := exists_of_getTable href
        rw [stampsOf_markDropped, hs, hn, if_neg hne]
  | insert schema table columnIds rows => exact h.of_effect hbegun (effect_physicalInsert hrun)

/-- **The statements of a transaction**, by induction on them. -/
theorem Serial.statements (h : db.Serial id live) (hbegun : db.Begun id tx)
    (hs : s = db.serialSnapshot id)
    (hrun : forEach stmts (fun stmt => catchAll (stmt.run P s) (pure ())) db = some (.ok (), db')) :
    db'.Serial id (stmts.foldl TableStatement.effect live) ∧ ∃ tx', db'.Begun id tx' := by
  induction stmts generalizing db live tx with
  | nil =>
    cases hrun
    exact ⟨h, tx, hbegun⟩
  | cons stmt stmts ih =>
    rw [forEach_cons, bind_run_eq_ok_iff] at hrun
    obtain ⟨⟨⟩, db₁, hok, hrun⟩ := hrun
    obtain ⟨r, hstmt⟩ := ignore_run (b := true) hok
    obtain ⟨hserial, ⟨tx₁, hbegun₁⟩, hsnapshot⟩ := h.statement hbegun (hs ▸ hstmt)
    exact ih hserial hbegun₁ (hs.trans hsnapshot.symm) hrun

/-- Between two transactions nothing is touched by the next one. -/
def Settled (db : Database) : Prop := ∀ schema name, ∀ e ∈ db.catalog.stampsOf schema name,
  e.createTxId ≠ db.nextTxId ∧ e.deleteTxId ≠ db.nextTxId

theorem Serial.begin (h : db.Serial db.nextTxId live) (hsettled : db.Settled) :
    (db.beginTransaction false).Serial db.nextTxId live ∧
      (db.beginTransaction false).Begun db.nextTxId (db.newTransaction false) := by
  refine ⟨⟨h.pos, h.clock, h.schemas, h.tidy, h.once⟩, rfl, ?_, rfl, ?_⟩
  · exact Finmap.lookup_insert _
  · intro schema name e he htouched
    obtain ⟨hcreate, hdelete⟩ := hsettled schema name e he
    exact (htouched.elim hcreate hdelete).elim

/-- The commit stamps all that its transaction defined. -/
theorem Begun.stampsOf_publish (h : db.Begun id tx) (schema name : Bytes) :
    (db.publish tx).catalog.stampsOf schema name =
      (db.catalog.stampsOf schema name).map (EntryStamps.commit id (db.commitCounter + 1)) := by
  have hid : tx.txId = id := congrArg Snapshot.txId h.snapshot
  rw [publish, stampsOf_applyUndoBuffer]
  simp only [hid]
  split
  · rfl
  next hnone =>
    -- a version of another name is neither created nor dropped by the transaction
    conv_lhs => rw [← map_id (db.catalog.stampsOf schema name)]
    refine map_congr_left fun e he => ?_
    have huntouched : ¬ (e.createTxId = id ∨ e.deleteTxId = id) := fun htouched =>
      hnone (h.logged schema name e he htouched)
    rw [not_or] at huntouched
    exact (EntryStamps.commit_eq_self huntouched.1 huntouched.2 _).symm

theorem Serial.publish (h : db.Serial id live) (hbegun : db.Begun id tx) :
    (db.publish tx).Serial (id + 1) live ∧ (db.publish tx).Settled ∧
      (db.publish tx).nextTxId = id + 1 := by
  refine ⟨⟨succ_ne_zero id, h.clock.trans (lt_add_one _).le, fun schema => ?_,
    fun schema name e he => ?_, fun schema name => ?_⟩, fun schema name e he => ?_, hbegun.next⟩
  · rw [← h.schemas, Database.publish, sameSchemas_applyUndoBuffer]
  · rw [hbegun.stampsOf_publish, mem_map] at he
    obtain ⟨e, he, rfl⟩ := he
    exact (h.tidy schema name e he).commit h.pos h.clock
  · rw [hbegun.stampsOf_publish, countP_map, ← h.once]
    rfl
  · rw [hbegun.stampsOf_publish, mem_map] at he
    obtain ⟨e, he, rfl⟩ := he
    have htidy := h.tidy schema name e he
    have hnext : (db.publish tx).nextTxId = id + 1 := hbegun.next
    rw [hnext]
    constructor
    · rcases htidy.create with ⟨hc, -⟩ | ⟨hc, -⟩
      · exact (hc ▸ lt_succ_self _ : e.createTxId < id + 1).ne
      · exact (lt_succ_of_lt hc).ne
    · rcases htidy.delete with ⟨hd, -⟩ | ⟨hd, -⟩ | ⟨-, hd, -⟩
      · exact (hd ▸ succ_pos id : e.deleteTxId < id + 1).ne
      · exact (hd ▸ lt_succ_self _ : e.deleteTxId < id + 1).ne
      · exact (lt_succ_of_lt hd).ne

/-- **One transaction** has the effects of its statements. -/
theorem Serial.runSerial (h : db.Serial db.nextTxId live) (hsettled : db.Settled)
    (hrun : Database.runSerial P stmts db = some (.ok (), db')) :
    db'.Serial db'.nextTxId (stmts.foldl TableStatement.effect live) ∧ db'.Settled := by
  rw [Database.runSerial, bind_run_ok get_run, bind_run_ok (modify_run _),
    bind_run_eq_ok_iff] at hrun
  obtain ⟨⟨⟩, db₁, hstmts, hrun⟩ := hrun
  obtain ⟨hserial, hbegun⟩ := h.begin hsettled
  obtain ⟨hserial₁, tx, hbegun₁⟩ := hserial.statements hbegun rfl hstmts
  have htx : transaction (db.newTransaction false).txId db₁ = some (.ok tx, db₁) := by
    have hlookup : db₁.activeTransactions.lookup (db.newTransaction false).txId = some tx :=
      hbegun₁.lookup
    rw [transaction, bind_run_ok get_run, hlookup]
    rfl
  rw [bind_run_ok htx] at hrun
  obtain ⟨wal, hdb'⟩ := commit_run hrun
  obtain rfl : db' = ({ db₁ with wal } : Database).publish tx := hdb'
  have hwal : ({ db₁ with wal } : Database).Serial db.nextTxId
      (stmts.foldl TableStatement.effect live) :=
    ⟨hserial₁.pos, hserial₁.clock, hserial₁.schemas, hserial₁.tidy, hserial₁.once⟩
  have hbegunWal : ({ db₁ with wal } : Database).Begun db.nextTxId tx :=
    ⟨hbegun₁.next, hbegun₁.lookup, hbegun₁.snapshot, hbegun₁.logged⟩
  obtain ⟨hserial₂, hsettled₂, hnext⟩ := hwal.publish hbegunWal
  exact ⟨by rwa [hnext], hsettled₂⟩

/-- **The tables of a serial run** are those of `liveTables`. -/
theorem serial_runSerialAll {blockSize : ℕ} {txs : List (List TableStatement)}
    (hrun : runSerialAll P txs { catalog := create blockSize, wal := some {} } =
      some (.ok (), db)) : db.Serial db.nextTxId (liveTables txs) := by
  have hall : ∀ {db₁ : Database} {live : Finset (Bytes × Bytes)} {txs : List (List TableStatement)},
      db₁.Serial db₁.nextTxId live → db₁.Settled → runSerialAll P txs db₁ = some (.ok (), db) →
      db.Serial db.nextTxId (txs.flatten.foldl TableStatement.effect live) := by
    intro db₁ live txs hserial hsettled hrun
    induction txs generalizing db₁ live with
    | nil =>
      cases hrun
      exact hserial
    | cons stmts txs ih =>
      rw [runSerialAll, forEach_cons, bind_run_eq_ok_iff] at hrun
      obtain ⟨⟨⟩, db₂, hfirst, hrun⟩ := hrun
      obtain ⟨hserial₂, hsettled₂⟩ := hserial.runSerial hsettled hfirst
      rw [flatten_cons, foldl_append]
      exact ih hserial₂ hsettled₂ hrun
  have hstamps : ∀ schema name, (create blockSize).stampsOf schema name = [] :=
    fun _ _ => stampsOf_create blockSize
  refine hall ⟨one_ne_zero, le_rfl, fun schema => ?_, ?_, ?_⟩ ?_ hrun
  · by_cases hschema : schema = defaultSchema
    · subst hschema
      simp [create]
    · simp [create, hschema]
  · intro schema name e he
    rw [hstamps] at he
    cases he
  · intro schema name
    rw [hstamps]
    rfl
  · intro schema name e he
    rw [hstamps] at he
    cases he

end Database

end CppColDB
