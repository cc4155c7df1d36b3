import CppColDB.Catalog.Reopen
import CppColDB.Main.Replay

/-!
# Opening a database after a crash

`InitPersistent` loads the checkpoint, replays the log and then re-creates the log, which
empties it. What was replayed is in memory only until the next checkpoint.

A later crash leaves the block file as the session wrote it and the log of the transactions
that it committed, cut at some byte.
-/

namespace CppColDB

open ByteCodec Catalog Except List

/-- The block file and the log. -/
structure Disk where
  blocks : List Bytes := []
  log : Bytes := []
  deriving DecidableEq, Repr

/-! ## Opening -/

namespace Database

/-- `InitPersistent` up to the point where it creates the log. -/
def recovery (P : Platform) (decode : Reader DataChunk) (d : Disk) : Imp Error Database Unit := do
  onCatalog (loadCheckpoint d.blocks)
  if d.log.isEmpty then pure () else replayWal P decode d.log

/-- `InitPersistent`: after the recovery there is an empty log and a new transaction
manager. -/
def initPersistent (P : Platform) (decode : Reader DataChunk) (blockSize : ℕ) (d : Disk) :
    Option (Except Error Database) :=
  (recovery P decode d { catalog := create blockSize }).map fun (res, db) =>
    res.map fun _ => { catalog := db.catalog, wal := some {} }

variable {P : Platform} {decode : Reader DataChunk} {d : Disk}

/-- An empty log needs no case of its own. -/
theorem recovery_eq (P : Platform) (decode : Reader DataChunk) (d : Disk) : recovery P decode d =
      (onCatalog (loadCheckpoint d.blocks) >>= fun _ => replayWal P decode d.log) := by
  rw [recovery]
  cases d.log with
  | nil => rfl
  | cons => rfl

end Database

/-! ## Crashes -/

/-- The block file of a session that writes and allocates blocks, but none of the given ones.
A new block is blank. -/
inductive WritesAround (used : List ℕ) (blocks : List Bytes) : List Bytes → Prop
  | refl : WritesAround used blocks blocks
  | writeBlock {bs : List Bytes} {id : ℕ} (h : WritesAround used blocks bs) (hid : id ∉ used)
      (block : Bytes) : WritesAround used blocks (bs.set id block)
  | allocateBlock {bs : List Bytes} (h : WritesAround used blocks bs) (hid : bs.length ∉ used)
      (blank : Bytes) : WritesAround used blocks (bs ++ [blank])

/-- The files after a crash in the session that opened `d`, and the entries after the marker in
what is left of the log of that session. No block of its checkpoint is written; the log is that
of the committed transactions, up to some byte. -/
inductive Crash (P : Platform) (decode : Reader DataChunk) (blockSize : ℕ) (d : Disk) :
    List WalEntry → Disk → Prop
  /-- Before the log is re-created. -/
  | opening {blocks : List Bytes} (h : WritesAround (checkpointBlocks d.blocks) d.blocks blocks) :
      Crash P decode blockSize d [] { blocks, log := d.log }
  /-- Between that and the next checkpoint. -/
  | running {db : Database} {blocks : List Bytes} {txs : List Transaction} {w : Wal}
      {later : List WalEntry}
      (hopen : Database.initPersistent P decode blockSize d = some (.ok db))
      (h : WritesAround (checkpointBlocks d.blocks) d.blocks blocks)
      (hlog : writeAll txs {} = some (.ok (), w)) (n : ℕ)
      (hlater : replayedEntries (w.file.take n) = .ok later) :
      Crash P decode blockSize d later { blocks, log := w.file.take n }

variable {blocks bs : List Bytes}

theorem WritesAround.getElem? {used : List ℕ} (h : WritesAround used blocks bs) {id : ℕ}
    (hid : id ∈ used) : bs[id]? = blocks[id]? := by
  induction h with
  | refl => rfl
  | @writeBlock bs id' h hid' block ih =>
    have hne : id' ≠ id := fun heq => hid' (heq ▸ hid)
    rw [getElem?_set_ne hne, ih]
  | @allocateBlock bs h hlen blank ih =>
    have hne : id ≠ bs.length := fun heq => hlen (heq ▸ hid)
    rw [← ih]
    rcases Nat.lt_or_gt_of_ne hne with hlt | hgt
    · rw [getElem?_append_left hlt]
    · rw [getElem?_eq_none (by simp; omega), getElem?_eq_none (by omega)]

theorem WritesAround.loadCheckpoint (h : WritesAround (checkpointBlocks blocks) blocks bs) :
    loadCheckpoint bs = loadCheckpoint blocks :=
  loadCheckpoint_congr fun _ hid => h.getElem? hid

/-- The log has a transaction that created two tables. -/
def createTwoDisk : Disk := { log := createTwoLog.file }

theorem exists_of_isOk {α : Type} {o : Option (Except Error α)}
    (h : o.map isOk = some true) : ∃ a, o = some (.ok a) := by
  match o, h with
  | some (.ok a), _ => exact ⟨a, rfl⟩

theorem initPersistent_createTwoDisk : ∃ db,
    Database.initPersistent Platform.plain deserializeChunkPayload 1024 createTwoDisk =
      some (.ok db) :=
  exists_of_isOk (by decide +kernel)

end CppColDB
