import CppColDB.Execution.UpdateBatches

/-!
# Sessions

The commands that connections send to the database: `BEGIN`, a statement on rows, `COMMIT`
and `ROLLBACK`, each for the transaction of its connection. Whatever a list of commands
does is a run, so runs on fixed inputs can be evaluated.
-/

namespace CppColDB

open ByteCodec Catalog Imp Option Relation

/-- The statements on rows. -/
inductive Statement where
  | insert (schema table : Bytes) (columnIds : List ℕ) (rows : DataChunk)
  | delete (schema table : Bytes) (predicate : Option Predicate)
  | update (schema table : Bytes) (scanColIds : List ℕ) (sets : List (ℕ × SetExpr))
      (predicate : Option Predicate)

inductive Command where
  | begin
  | statement (id : TransactionId) (stmt : Statement)
  | commit (id : TransactionId)
  | rollback (id : TransactionId)

namespace Statement

open Database

def run (P : Platform) (tx : Snapshot) : Statement → Imp Error Database Unit
  | .insert schema table columnIds rows => physicalInsert P tx schema table columnIds rows
  | .delete schema table predicate => physicalDelete tx schema table predicate
  | .update schema table scanColIds sets predicate =>
    physicalUpdate tx schema table scanColIds sets predicate

def kind : Statement → ChangeKind
  | .insert _ _ _ _ => .insert
  | .delete _ _ _ => .delete
  | .update _ _ _ _ _ => .update

/-- **Every statement is a sequence of changes**, whether it returns or throws. -/
theorem effect_run {P : Platform} {tx : Snapshot} {stmt : Statement} {db db' : Database}
    {res : Except Error Unit} (h : stmt.run P tx db = some (res, db')) :
    Effect tx stmt.kind db res.isOk db' := by
  cases stmt with
  | insert schema table columnIds rows => exact effect_physicalInsert h
  | delete schema table predicate => exact effect_physicalDelete h
  | update schema table scanColIds sets predicate => exact effect_physicalUpdate h

end Statement

namespace Database

/-- The transaction of a connection. -/
def transaction (id : TransactionId) : Imp Error Database Transaction := do
  let db ← get
  ofOption (db.activeTransactions.lookup id)

end Database

namespace Command

open Database

def run (P : Platform) : Command → Imp Error Database Unit
  | .begin => modify fun db => db.beginTransaction false
  | .statement id stmt => do
    let tx ← transaction id
    stmt.run P tx.toSnapshot
  | .commit id => do
    let tx ← transaction id
    Database.commit tx
  | .rollback id => do
    let tx ← transaction id
    Database.rollback tx

/-- All commands, until one throws. -/
def runAll (P : Platform) (cmds : List Command) : Imp Error Database Unit :=
  forEach cmds (run P)

/-- What a command that returns adds to the log. -/
def record (db : Database) : Command → TxLog
  | .begin => [.began db.nextTxId]
  | .commit id => ((db.activeTransactions.lookup id).map TxEvent.committed).toList
  | .statement _ _ | .rollback _ => []

/-- The log of a session. -/
def logAll (P : Platform) : List Command → Database → TxLog → TxLog
  | [], _, log => log
  | cmd :: cmds, db, log =>
    match cmd.run P db with
    | some (.ok _, db') => logAll P cmds db' (cmd.record db ++ log)
    | _ => log

end Command

variable {tx : Transaction} {e : InsertUndoEntry}

namespace Database

variable {C : GroupView → GroupAct → Prop} {db₀ db db' : Database} {log : TxLog}
  {P : Platform}

/-- The kind of a change as a row group sees it. -/
def changeKind : GroupChange → ChangeKind
  | .append _ _ => .insert
  | .delete _ => .delete
  | .update _ => .update

theorem changeKind_at {v : GroupView} {r : TableRef} {g : ℕ} {ch : Change} {gch : GroupChange}
    (h : ch.at v r g = some gch) : changeKind gch = ch.kind := by
  cases ch with
  | grow r' => cases h
  | append r' g' count | delete r' rowIds | update r' g' offsets =>
    simp only [Change.at] at h
    split at h <;> cases h
    rfl

/-- A condition on runs that lets a statement of kind `k` through, if it returns. -/
structure Free (C : GroupView → GroupAct → Prop) (k : ChangeKind) : Prop where
  idle : ∀ v, C v .idle
  change : ∀ v id ch, changeKind ch = k → C v (.change id ch)

variable {id : TransactionId}

theorem Run.dml {k : ChangeKind} (hC : Free C k) (hrun : Run C db₀ db log)
    (h : ReflTransGen (fun db db' => ∃ logged ch, (true = true → logged = true) ∧ ch.kind = k ∧
      Step db (.dml id logged ch) db') db db') : Run C db₀ db' log := by
  induction h with
  | refl => exact hrun
  | tail _ hlast ih =>
    obtain ⟨logged, ch, hlogged, hk, hstep⟩ := hlast
    obtain rfl := hlogged rfl
    refine ih.step hstep fun r g => ?_
    simp only [Act.at]
    split
    next => exact ⟨_, rfl, hC.idle _⟩
    next gch hch => exact ⟨_, rfl, hC.change _ id gch ((changeKind_at hch).trans hk)⟩

theorem Run.txId_eq (h₀ : db₀.Idle) (hrun : Run C db₀ db log)
    (htx : db.activeTransactions.lookup id = some tx) : tx.txId = id := by
  have hwf : (db.view log ⟨[], [], 0⟩ 0).WellFormed :=
    (hrun.invariant (I := fun _ => True) h₀ trivial fun _ _ _ _ => trivial).1
  exact hwf.txId_eq (active_view htx)

theorem transaction_run {α : Type} {f : Transaction → Imp Error Database α}
    {res : Except Error α} (h : (transaction id >>= f) db = some (res, db')) :
    ∃ tx, db.activeTransactions.lookup id = some tx ∧ f tx db = some (res, db') := by
  cases htx : db.activeTransactions.lookup id with
  | none => simp [transaction, bind_run, htx] at h
  | some tx =>
    simpa [transaction, bind_run, htx] using h

/-- What a command that returns has to meet for a run to go on with it. -/
def Command.Meets (C : GroupView → GroupAct → Prop) (db : Database) (log : TxLog) :
    Command → Prop
  | .begin => ∀ v, C v .start
  | .statement _ stmt => Free C stmt.kind
  | .commit id => ∀ r g, C (db.view log r g) (.commit id)
  | .rollback id => ∀ r g, C (db.view log r g) (.rollback id)

theorem Run.command (h₀ : db₀.Idle) (hrun : Run C db₀ db log) {cmd : Command}
    (h : cmd.run P db = some (.ok (), db')) (hC : Command.Meets C db log cmd) :
    Run C db₀ db' (cmd.record db ++ log) := by
  cases cmd with
  | begin =>
    cases h
    exact hrun.step (.begin false) fun r g => ⟨_, rfl, hC _⟩
  | statement id stmt =>
    obtain ⟨tx, htx, hcall⟩ := transaction_run h
    obtain rfl := hrun.txId_eq h₀ htx
    have hsteps := steps_of_effect (by rw [htx]; rfl) (Statement.effect_run hcall)
    exact hrun.dml hC hsteps
  | commit id =>
    obtain ⟨tx, htx, hcall⟩ := transaction_run h
    obtain rfl := hrun.txId_eq h₀ htx
    exact hrun.step (.commit htx hcall) fun r g => ⟨_, rfl, hC r g⟩
  | rollback id =>
    obtain ⟨tx, htx, hcall⟩ := transaction_run h
    obtain rfl := hrun.txId_eq h₀ htx
    exact hrun.step (.rollback htx hcall) fun r g => ⟨_, rfl, hC r g⟩

/-- **Every session is a run**: if the condition holds of its commands in any state, it
holds of the steps of the run. -/
theorem Run.session (h₀ : db₀.Idle) {cmds : List Command}
    (hC : ∀ cmd ∈ cmds, ∀ db log, Command.Meets C db log cmd) (hrun : Run C db₀ db log)
    (h : Command.runAll P cmds db = some (.ok (), db')) :
    Run C db₀ db' (Command.logAll P cmds db log) := by
  induction cmds generalizing db log with
  | nil =>
    cases h
    exact hrun
  | cons cmd cmds ih =>
    obtain ⟨_, db₁, hcmd, hrest⟩ := bind_run_eq_ok_iff.mp h
    have hrun₁ := hrun.command h₀ hcmd (hC cmd List.mem_cons_self _ _)
    have hall := ih (fun cmd' h' => hC cmd' (List.mem_cons_of_mem _ h')) hrun₁ hrest
    rwa [Command.logAll, hcmd]

theorem meets_true (db : Database) (log : TxLog) (cmd : Command) :
    Command.Meets (fun _ _ => True) db log cmd := by
  cases cmd with
  | begin => exact fun _ => trivial
  | statement id stmt => exact ⟨fun _ => trivial, fun _ _ _ _ => trivial⟩
  | commit id => exact fun _ _ => trivial
  | rollback id => exact fun _ _ => trivial

end Database

/-- The entry of a transaction that has done nothing but one append. -/
def Transaction.onlyInsert? (tx : Transaction) : Option InsertUndoEntry :=
  match tx.undoBuffer with
  | [.insert e] => some e
  | _ => none

theorem Transaction.undoBuffer_of_onlyInsert?
    (h : tx.onlyInsert? = some e) : tx.undoBuffer = [.insert e] := by
  rw [onlyInsert?] at h
  split at h <;> simp_all

theorem Catalog.changesAt_of_onlyInsert? {c : Catalog}
    {r' : TableRef} (he : tx.onlyInsert? = some e)
    (hr : c.resolve tx.toSnapshot e.schema e.table = some r') (r : TableRef) (g : ℕ) :
    c.changesAt tx r g =
      if r' = r ∧ e.rowGroupId = g then [.append e.appendStart e.appendCount] else [] := by
  rw [changesAt, Transaction.undoBuffer_of_onlyInsert? he]
  by_cases hrg : r' = r ∧ e.rowGroupId = g <;> simp [UndoEntry.changeAt, hr, hrg]

namespace Database

/-- Whether all that a transaction has done is one append that is still the latest one. -/
def onlyLatest (id : TransactionId) (db : Database) : Bool :=
  match (do
    let tx ← db.activeTransactions.lookup id
    let e ← tx.onlyInsert?
    let r ← db.catalog.resolve tx.toSnapshot e.schema e.table
    let gv ← db.catalog.groupVersions? r e.rowGroupId
    pure (e, gv) : Option (InsertUndoEntry × GroupVersions)) with
  | some (e, gv) => (gv.pendingAppendStart, gv.rowCount - gv.pendingAppendStart) =
      (e.appendStart, e.appendCount)
  | none => false

theorem latestAppend_of_onlyLatest {id : TransactionId} (h : onlyLatest id db = true)
    (r : TableRef) (g : ℕ) :
    (db.view log r g).versions.LatestAppend ((db.view log r g).changes id) := by
  rw [onlyLatest] at h
  split at h
  next e gv hsome =>
    simp only [bind_eq_bind, bind_eq_some_iff] at hsome
    obtain ⟨tx, htx, e, he, r', hr', gv, hgv, rfl, rfl⟩ := hsome
    have heq := of_decide_eq_true h
    rw [changes_view htx, changesAt_of_onlyInsert? he hr']
    split
    next hrg =>
      obtain ⟨rfl, rfl⟩ := hrg
      refine .inr ?_
      simp [view, hgv, GroupChange.append?, heq]
    next => exact .inl rfl
  next => cases h

end Database

/-! ## A database for runs on fixed inputs -/

namespace Database

/-- A table `t` with one integer column and no rows, as loaded from a checkpoint. -/
def emptyTable : Database where
  catalog := (create 4096).createEntry defaultSchema
    { name := text "t", schemaName := defaultSchema, createCommitTime := 0
      columns := [{ name := text "x", type := .int64 }], blockSize := 4096 }

/-- The table of `emptyTable`. -/
def tableT : TableRef := { schema := defaultSchema, name := text "t", version := 0 }

/-- `INSERT INTO t VALUES (x)`. -/
def insertInt (x : Int64) : Statement :=
  .insert defaultSchema (text "t") [0]
    { columns := [{ type := .int64, count := 1, intData := [x], validity := 1 }], count := 1 }

/-- `DELETE FROM t`. -/
def deleteAll : Statement := .delete defaultSchema (text "t") none

@[simp] theorem kind_insertInt (x : Int64) : (insertInt x).kind = .insert := rfl

@[simp] theorem kind_deleteAll : deleteAll.kind = .delete := rfl

/-- What a session on `emptyTable` leaves behind, if all of its commands return. -/
def after (cmds : List Command) {α : Type} (f : Database → Option α) : Option α :=
  match Command.runAll .plain cmds emptyTable with
  | some (.ok _, db) => f db
  | _ => none

variable {cmds : List Command} {α : Type} {f : Database → Option α} {a : α}

theorem exists_of_after (h : after cmds f = some a) :
    ∃ db, Command.runAll .plain cmds emptyTable = some (.ok (), db) ∧ f db = some a := by
  rw [after] at h
  split at h
  next db hrun => exact ⟨db, hrun, h⟩
  next => cases h

theorem after_eq {db : Database}
    (h : Command.runAll .plain cmds emptyTable = some (.ok (), db)) : after cmds f = f db := by
  rw [after, h]

variable {pre post : List Command}

theorem runAll_append : Command.runAll P (pre ++ post) db = some (.ok (), db') ↔
      ∃ db₁, Command.runAll P pre db = some (.ok (), db₁) ∧
        Command.runAll P post db₁ = some (.ok (), db') := by
  induction pre generalizing db with
  | nil =>
    constructor
    · exact fun h => ⟨db, rfl, h⟩
    · rintro ⟨db₁, h, h'⟩
      cases h
      exact h'
  | cons cmd pre ih =>
    have hcons : ∀ {rest : List Command} {d : Database},
        Command.runAll P (cmd :: rest) db = some (.ok (), d) ↔
          ∃ db₁, cmd.run P db = some (.ok (), db₁) ∧
            Command.runAll P rest db₁ = some (.ok (), d) := by
      exact bind_run_eq_ok_iff.trans
        ⟨fun ⟨_, db₁, h⟩ => ⟨db₁, h⟩, fun ⟨db₁, h⟩ => ⟨(), db₁, h⟩⟩
    simp only [List.cons_append, hcons, ih]
    constructor
    · rintro ⟨db₁, h₁, db₂, h₂, h₃⟩
      exact ⟨db₂, ⟨db₁, h₁, h₂⟩, h₃⟩
    · rintro ⟨db₂, ⟨db₁, h₁, h₂⟩, h₃⟩
      exact ⟨db₁, h₁, db₂, h₂, h₃⟩

theorem logAll_append {db₁ : Database} (h : Command.runAll P pre db = some (.ok (), db₁))
    (log : TxLog) :
    Command.logAll P (pre ++ post) db log =
      Command.logAll P post db₁ (Command.logAll P pre db log) := by
  induction pre generalizing db log with
  | nil =>
    cases h
    rfl
  | cons cmd pre ih =>
    obtain ⟨_, db₂, hcmd, hrest⟩ := bind_run_eq_ok_iff.mp h
    rw [List.cons_append, Command.logAll, Command.logAll, hcmd]
    exact ih hrest _

theorem rowGroup?_emptyTable (r : TableRef) (g : ℕ) : emptyTable.catalog.rowGroup? r g = none := by
  rw [rowGroup?, bind_eq_none_iff]
  intro t ht
  have hlookup : (create 4096).schemas.lookup defaultSchema =
      some { name := defaultSchema } := Finmap.lookup_insert _
  rw [table?, emptyTable, versions_createEntry hlookup, versions_create] at ht
  split at ht
  · obtain ⟨_, rfl⟩ := List.getElem?_eq_some_iff.mp ht
    simp
  · simp at ht

theorem quiet_emptyTable : emptyTable.Quiet where
  activeTransactions := rfl
  nextTxId_pos := Nat.one_pos
  commitCounter_nonneg := le_refl _
  versionInfo hrg := absurd hrg (by simp [rowGroup?_emptyTable])
  pendingAppendStart_le hrg := absurd hrg (by simp [rowGroup?_emptyTable])

/-- A session whose commands all meet the condition is a run. -/
theorem exists_run_of_after {C : GroupView → GroupAct → Prop}
    (hC : ∀ cmd ∈ cmds, ∀ db log, Command.Meets C db log cmd) (h : after cmds f = some a) :
    ∃ db, Run C emptyTable db (Command.logAll .plain cmds emptyTable []) ∧ f db = some a := by
  obtain ⟨db, hrun, hf⟩ := exists_of_after h
  exact ⟨db, Run.session quiet_emptyTable.idle hC .refl hrun, hf⟩

end Database

end CppColDB
