import CppColDB.Main.Rebuild

/-!
# What crashes leave of committed transactions

Stated on the database that the open after a crash returns, by what its next transaction finds.

Nothing in the log says where a transaction ends, so a log that is cut between two entries of
one replays a part of it. `InitPersistent` empties the log, so what it replayed is lost by the
next crash.
-/

namespace CppColDB

open ByteCodec Catalog Imp List Transaction

namespace Database

variable {P : Platform} {decode : Reader DataChunk} {db db' : Database} {blockSize : ℕ}

theorem recovery_run_iff {d : Disk} : recovery P decode d db = some (.ok (), db') ↔
      ∃ db₀ es, onCatalog (loadCheckpoint d.blocks) db = some (.ok (), db₀) ∧
        replayedEntries d.log = .ok es ∧ replayEntries P decode es db₀ = some (.ok (), db') := by
  rw [recovery_eq, bind_run_eq_ok_iff]
  constructor
  · rintro ⟨⟨⟩, db₀, hload, hrun⟩
    obtain ⟨es, hes, hrun⟩ := replayWal_run_iff.mp hrun
    exact ⟨db₀, es, hload, hes, hrun⟩
  · rintro ⟨db₀, es, hload, hes, hrun⟩
    exact ⟨(), db₀, hload, replayWal_run_iff.mpr ⟨es, hes, hrun⟩⟩

theorem initPersistent_eq_ok_iff {d : Disk} :
    initPersistent P decode blockSize d = some (.ok db) ↔
      ∃ db₁, recovery P decode d { catalog := create blockSize } = some (.ok (), db₁) ∧
        db = { catalog := db₁.catalog, wal := some {} } := by
  rw [initPersistent, Option.map_eq_some_iff]
  constructor
  · rintro ⟨⟨res, db₁⟩, hrun, hres⟩
    cases res with
    | error e => cases hres
    | ok a =>
      cases hres
      exact ⟨db₁, hrun, rfl⟩
  · rintro ⟨db₁, hrun, rfl⟩
    exact ⟨_, hrun, rfl⟩

/-! ## A log that is cut -/

/-- Committed transactions, and the database after each of them: the commit of the next one
leaves the next one. -/
structure History where
  start : Database
  txs : List Transaction
  after : ℕ → Database
  after_zero : after 0 = start
  after_succ : ∀ k tx, txs[k]? = some tx → ∃ db, commit tx db = some (.ok (), after (k + 1))

namespace History

variable (H : History)

/-- The complete log of the first `k` transactions. -/
def log (k : ℕ) : Bytes := entriesBytes ((H.txs.take k).flatMap walEntries)

/-- The replay of a log file returns, and the next transaction finds what the first `k`
transactions left. -/
def Applies (P : Platform) (decode : Reader DataChunk) (file : Bytes) (k : ℕ) : Prop :=
  ∃ db, replayWal P decode file H.start = some (.ok (), db) ∧ SameContents (H.after k) db

/-- The entries of the first `k` transactions, and no other, are replayed, with the effects that
these transactions had. -/
def AppliesFirst (P : Platform) (decode : Reader DataChunk) (file : Bytes) (k : ℕ) : Prop :=
  k ≤ H.txs.length ∧ ReplaysFirst H.txs file k ∧ H.Applies P decode file k

variable {H} {n k : ℕ}

/-- A log that is cut behind some transactions is replayed as their complete log. -/
theorem applies_take_iff (hcut : CutsAfter H.txs n k) :
    H.Applies P decode ((entriesBytes (H.txs.flatMap walEntries)).take n) k ↔
      H.Applies P decode (H.log k) k := by
  have hcomplete : CutsAfter (H.txs.take k) (H.log k).length k := by
    rw [CutsAfter, take_take, min_self, drop_eq_nil_of_le (length_take_le ..)]
    exact ⟨hcut.1, le_rfl, trivial⟩
  have hlog := (replaysFirst_iff_cutsAfter.mpr hcomplete).2
  rw [log, take_length, take_take, min_self] at hlog
  have hcutLog := (replaysFirst_iff_cutsAfter.mpr hcut).2
  refine exists_congr fun db => and_congr_left' ?_
  rw [replayWal_run_iff, replayWal_run_iff, hcutLog, log, hlog]

end History

/-- A table `t` of one column, with the rows 5 and 7 in two segments. -/
def rowsImage : SchemaImage where
  name := defaultSchema
  tables := [{ name := text "t", columns := [{ name := text "x", type := .int64 }]
               partitionInfo := {}, partitionRgIndices := []
               rowGroups := [⟨2, [[⟨1, .rle, .int64, 1, 0⟩, ⟨2, .rle, .int64, 1, 1⟩]]⟩] }]

/-- A checkpoint of the table, and a log. -/
def rowsDisk (log : Bytes) : Disk :=
  { blocks := (catalogBytes [rowsImage]).toOption.toList ++ [5, 7].map ColumnChunk.rowBlock, log }

/-- The database that is loaded from the checkpoint. -/
def loaded : Database :=
  ((recovery .plain deserializeChunkPayload (rowsDisk []) { catalog := create 4096 }).map
    Prod.snd).getD { catalog := create 4096 }

/-- A transaction that deletes rows of `t`, one statement each. -/
def deleteTx (offsets : List ℕ) (db : Database) : Transaction :=
  { db.newTransaction true with
    undoBuffer := offsets.map fun o =>
      .delete { schema := defaultSchema, table := text "t", rowIds := [⟨0, o⟩] } }

/-- The database when it commits, and after that. -/
def deleting (offsets : List ℕ) (db : Database) : Database :=
  { db with
    catalog := offsets.foldl (fun c o =>
      c.forRows tableT [⟨0, o⟩] fun off vi => vi.markDeleted off db.nextTxId) db.catalog
    nextTxId := db.nextTxId + 1
    activeTransactions := db.activeTransactions.insert db.nextTxId (db.deleteTx offsets) }

def afterDelete (offsets : List ℕ) (db : Database) : Database :=
  (db.deleting offsets).publish (db.deleteTx offsets)

/-- A replayed DELETE marks and stamps the row as the statement and its commit did. -/
theorem replayDelete_seen {o : ℕ} (hwal : db.wal = none)
    (h : db.catalog.getTable defaultSchema (text "t") db.replaySnapshot = some tableT) :
    replayDelete defaultSchema (text "t") [⟨0, o⟩] db = some (.ok (), db.afterDelete [o]) := by
  have htx : transaction db.nextTxId (db.deleting [o]) =
      some (.ok (db.deleteTx [o]), db.deleting [o]) := by
    simp [transaction, bind_run, deleting]
  rw [replayDelete, replayTransaction, bind_run_ok get_run, bind_run_ok (modify_run _)]
  refine catchAll_run_ok ((bind_run_ok (a := ()) ?_).trans ((bind_run_ok htx).trans ?_))
  · rw [bind_run_ok get_run]
    simp only [show (db.beginTransaction true).catalog.getTable defaultSchema (text "t")
      (db.newTransaction true).toSnapshot = some tableT from h]
    simp [bind_run, pushUndo, deleting, deleteTx, beginTransaction, withCatalog, newTransaction]
  · rw [commit, bind_run_ok get_run, if_neg (by simp [deleting, hwal])]
    rfl

theorem exists_of_map_isOk {α : Type} {o : Option (Except Error Unit × Database)} {a : α}
    (f : Database → α) (h : o.map (fun out => (out.1.isOk, f out.2)) = some (true, a)) :
    ∃ db, o = some (.ok (), db) ∧ f db = a := by
  match o, h with
  | some (.ok (), db), h => exact ⟨db, rfl, (Prod.mk.inj (Option.some.inj h)).2⟩

/-- How many rows of `t` the next transaction finds. -/
def rowsFound (db : Database) : Option ℕ :=
  (db.contents defaultSchema (text "t")).map fun found => found.2.card

/-- Two transactions that delete a row each. -/
def twoDeletes : History where
  start := loaded
  txs := [loaded.deleteTx [0], (loaded.afterDelete [0]).deleteTx [1]]
  after
    | 0 => loaded
    | 1 => loaded.afterDelete [0]
    | _ => (loaded.afterDelete [0]).afterDelete [1]
  after_zero := rfl
  after_succ
    | 0, _, h => ⟨loaded.deleting [0], by cases h; rfl⟩
    | 1, _, h => ⟨(loaded.afterDelete [0]).deleting [1], by cases h; rfl⟩
    | _ + 2, _, h => nomatch h

/-- One transaction that deletes both rows. -/
def deletesBoth : History where
  start := loaded
  txs := [loaded.deleteTx [0, 1]]
  after
    | 0 => loaded
    | _ => loaded.afterDelete [0, 1]
  after_zero := rfl
  after_succ
    | 0, _, h => ⟨loaded.deleting [0, 1], by cases h; rfl⟩
    | _ + 1, _, h => nomatch h

/-- Opening `d'` returns a database in which the next transaction finds what it would find after
opening `d` and replaying the `later` entries. -/
def Recovers (P : Platform) (decode : Reader DataChunk) (blockSize : ℕ) (d : Disk)
    (later : List WalEntry) (d' : Disk) : Prop :=
  ∃ db₁ db₂ db₃, recovery P decode d { catalog := create blockSize } = some (.ok (), db₁) ∧
    replayEntries P decode later db₁ = some (.ok (), db₂) ∧
    initPersistent P decode blockSize d' = some (.ok db₃) ∧
    SameContents { catalog := db₂.catalog, wal := some {} } db₃

/-- How many rows of `t` an open finds. -/
theorem exists_open_of_found {d : Disk} {n : ℕ}
    (h : (recovery .plain deserializeChunkPayload d { catalog := create 4096 }).map (fun out =>
      (out.1.isOk, rowsFound { catalog := out.2.catalog, wal := some {} })) =
        some (true, some n)) :
    ∃ db, initPersistent .plain deserializeChunkPayload 4096 d = some (.ok db) ∧
      db.rowsFound = some n := by
  obtain ⟨db, hrun, hfound⟩ := exists_of_map_isOk
    (fun db => rowsFound { catalog := db.catalog, wal := some {} }) h
  exact ⟨_, initPersistent_eq_ok_iff.mpr ⟨db, hrun, rfl⟩, hfound⟩

end Database

end CppColDB
