import CppColDB.Catalog.Alter
import CppColDB.Execution.ScanExact

/-!
# Scans of partitioned tables

`PhysicalTableScan` on a table with partitions: the partitions that pruning has left are
scanned one after the other, each row group by row group. If pruning has left none, the scan
falls back to all row groups of the table.
-/

namespace CppColDB

open Imp List

/-- The cursor of a scan over partitions: the number of the partition among the active ones,
and the cursor within its row groups. -/
structure PartitionScanState where
  partitionIdx : ℕ := 0
  cursor : TableScanState := {}
  deriving DecidableEq, Repr

namespace TableScan

variable (S : TableScan) (P : Platform) (D : DoubleOps) (tx : Snapshot) (t : TableCatalogEntry)

/-! ## `InitScan` -/

/-- The predicates on table columns. -/
def tablePredicates : List ScanPredicate :=
  S.scanPredicates.map fun sp =>
    { sp with colIdx := if sp.colIdx < S.columnIds.length then S.columnIds.getD sp.colIdx 0
                        else sp.colIdx }

/-- `active_partition_ids_`. -/
def activePartitions : Option (Except Error (List ℕ)) :=
  if t.partitionInfo.isPartitioned then t.partitionInfo.prunedPartitions P S.tablePredicates
  else some (.ok [])

/-! ## `GetData` -/

/-- The partitioned path: the next batch with a row, of the partition the cursor is in or of a
later one. -/
def getPartitionData (active : List ℕ) :
    ℕ → Imp Error PartitionScanState (OperatorResultType × DataChunk)
  | 0 => undefined
  | fuel + 1 => do
    let state ← get
    match active[state.partitionIdx]? with
    | none => pure (.finished, {})
    | some pid => do
      let rgIndices ← ofOption t.partitionRgIndices[pid]?
      match rgIndices[state.cursor.rowGroupIdx]? with
      | none => do
        set { partitionIdx := state.partitionIdx + 1 }
        getPartitionData active fuel
      | some i => do
        let rg ← ofOption t.rowGroups[i]?
        let rowOffset ← ofExcept (some (rg.skipRows S.scanPredicates
          (rg.rowCount - state.cursor.rowOffsetInGroup) state.cursor.rowOffsetInGroup))
        if rg.rowCount ≤ rowOffset then do
          set { state with cursor := { rowGroupIdx := state.cursor.rowGroupIdx + 1 } }
          getPartitionData active fuel
        else do
          set { state with cursor := next rg state.cursor.rowGroupIdx rowOffset }
          let output ← ofExcept (S.batch D tx rg rowOffset)
          if 0 < output.count then pure (.haveMoreOutput, output)
          else getPartitionData active fuel

/-- The chunks of the calls until the partitions are finished. -/
def scanPartitions (active : List ℕ) (fuel : ℕ) :
    ℕ → Imp Error PartitionScanState (List DataChunk)
  | 0 => undefined
  | calls + 1 => do
    let (result, output) ← S.getPartitionData D tx t active fuel
    if result = .finished then pure []
    else do
      let rest ← scanPartitions active fuel calls
      pure (output :: rest)

/-- **A scan of a table**: the partitioned path if a partition is active, and the flat one over
all row groups otherwise. -/
def scanTable (fuel : ℕ) : Option (Except Error (List DataChunk)) :=
  match S.activePartitions P t with
  | none => none
  | some (.error e) => some (.error e)
  | some (.ok active) =>
    if active = [] then (S.scanAll D tx t.rowGroups fuel fuel {}).map Prod.fst
    else (S.scanPartitions D tx t active fuel fuel {}).map Prod.fst

/-! ## One turn -/

/-- How a turn of the loop ends: the call returns, or the loop goes on. -/
inductive Turn where
  | stop (result : Except Error (OperatorResultType × DataChunk)) (cursor : TableScanState)
  | goOn (cursor : TableScanState)

/-- One turn of the loop, in the row group at the cursor. -/
def turn (rg : RowGroup) (c : TableScanState) : Option Turn :=
  match rg.skipRows S.scanPredicates (rg.rowCount - c.rowOffsetInGroup) c.rowOffsetInGroup with
  | .error e => some (.stop (.error e) c)
  | .ok rowOffset =>
    if rg.rowCount ≤ rowOffset then some (.goOn { rowGroupIdx := c.rowGroupIdx + 1 })
    else match S.batch D tx rg rowOffset with
      | none => none
      | some (.error e) => some (.stop (.error e) (next rg c.rowGroupIdx rowOffset))
      | some (.ok output) =>
        if 0 < output.count then
          some (.stop (.ok (.haveMoreOutput, output)) (next rg c.rowGroupIdx rowOffset))
        else some (.goOn (next rg c.rowGroupIdx rowOffset))

variable {S P D tx t} {rg : RowGroup} {groups : List RowGroup} {c : TableScanState}

theorem getData_none (h : groups[c.rowGroupIdx]? = none) (fuel : ℕ) :
    S.getData D tx groups (fuel + 1) c = some (.ok (.finished, {}), c) := by
  rw [getData, bind_run_ok get_run, h]
  rfl

theorem getData_turn_eq (h : groups[c.rowGroupIdx]? = some rg) (fuel : ℕ) :
    S.getData D tx groups (fuel + 1) c =
      match S.turn D tx rg c with
      | none => none
      | some (.stop r c') => some (r, c')
      | some (.goOn c') => S.getData D tx groups fuel c' := by
  rw [getData, bind_run_ok get_run, h]
  dsimp only
  rw [turn]
  cases rg.skipRows S.scanPredicates (rg.rowCount - c.rowOffsetInGroup) c.rowOffsetInGroup with
  | error e => rfl
  | ok rowOffset =>
    rw [bind_run_ok rfl]
    dsimp only
    split
    · rw [bind_run_ok (set_run _)]
    · rw [bind_run_ok (set_run _)]
      cases S.batch D tx rg rowOffset with
      | none => rfl
      | some r =>
        cases r with
        | error e => rfl
        | ok output =>
          rw [bind_run_ok rfl]
          dsimp only
          split <;> rfl

/-! ## The partitioned path as a flat one -/

/-- The row groups of a partition. -/
def partitionGroups (t : TableCatalogEntry) (pid : ℕ) : List RowGroup :=
  (t.partitionRgIndices.getD pid []).filterMap (t.rowGroups[·]?)

/-- The row groups of the active partitions. -/
def activeGroups (t : TableCatalogEntry) (active : List ℕ) : List RowGroup :=
  active.flatMap (partitionGroups t)

/-- The partitions exist, and so do their row groups. -/
structure Listed (t : TableCatalogEntry) (active : List ℕ) : Prop where
  partition : ∀ pid ∈ active, pid < t.partitionRgIndices.length
  group : ∀ rgIndices ∈ t.partitionRgIndices, ∀ i ∈ rgIndices, i < t.rowGroups.length

/-- How many row groups come before the partition of a cursor. -/
def groupsBefore (t : TableCatalogEntry) (active : List ℕ) (p : ℕ) : ℕ :=
  (activeGroups t (active.take p)).length

/-- A cursor moved on by some row groups. -/
def shift (n : ℕ) (c : TableScanState) : TableScanState :=
  { c with rowGroupIdx := n + c.rowGroupIdx }

/-- The cursor in the list of all active row groups. -/
def flatCursor (t : TableCatalogEntry) (active : List ℕ) (state : PartitionScanState) :
    TableScanState :=
  shift (groupsBefore t active state.partitionIdx) state.cursor

/-- A cursor does not run past the end of its partition. -/
def InPartition (t : TableCatalogEntry) (active : List ℕ) (state : PartitionScanState) : Prop :=
  ∀ pid, active[state.partitionIdx]? = some pid →
    state.cursor.rowGroupIdx < (partitionGroups t pid).length ∨
      state.cursor = { rowGroupIdx := (partitionGroups t pid).length }

theorem turn_shift (n : ℕ) (c : TableScanState) :
    S.turn D tx rg (shift n c) = (S.turn D tx rg c).map fun
      | .stop r c' => .stop r (shift n c')
      | .goOn c' => .goOn (shift n c') := by
  have hnext : ∀ off, next rg (n + c.rowGroupIdx) off = shift n (next rg c.rowGroupIdx off) := by
    intro off
    rw [next, next]
    split <;> rfl
  rw [turn, turn]
  dsimp only [shift]
  cases rg.skipRows S.scanPredicates (rg.rowCount - c.rowOffsetInGroup) c.rowOffsetInGroup with
  | error e => rfl
  | ok off =>
    dsimp only
    split
    · rfl
    · rw [hnext]
      cases S.batch D tx rg off with
      | none => rfl
      | some r =>
        cases r with
        | error e => rfl
        | ok output =>
          dsimp only
          split <;> rfl

/-- A turn leaves the cursor in its row group or at the start of the next one. -/
theorem turn_cursor {c' : TableScanState}
    (h : (∃ r, S.turn D tx rg c = some (.stop r c')) ∨ S.turn D tx rg c = some (.goOn c')) :
    c'.rowGroupIdx = c.rowGroupIdx ∨ c' = { rowGroupIdx := c.rowGroupIdx + 1 } := by
  have hnext : ∀ off, (next rg c.rowGroupIdx off).rowGroupIdx = c.rowGroupIdx ∨
      next rg c.rowGroupIdx off = { rowGroupIdx := c.rowGroupIdx + 1 } := by
    intro off
    rw [next]
    split
    · exact .inr rfl
    · exact .inl rfl
  rw [turn] at h
  cases hskip : rg.skipRows S.scanPredicates (rg.rowCount - c.rowOffsetInGroup)
      c.rowOffsetInGroup with
  | error e =>
    rw [hskip] at h
    obtain ⟨r, h⟩ | h := h <;> cases h
    exact .inl rfl
  | ok off =>
    rw [hskip] at h
    dsimp only at h
    split at h
    · obtain ⟨r, h⟩ | h := h <;> cases h
      exact .inr rfl
    · split at h
      · obtain ⟨r, h⟩ | h := h <;> cases h
      · obtain ⟨r, h⟩ | h := h <;> cases h
        exact hnext off
      · split at h
        all_goals
          obtain ⟨r, h⟩ | h := h <;> cases h
          exact hnext off

theorem map_some_filterMap {α β : Type} {f : α → Option β} {xs : List α}
    (h : ∀ x ∈ xs, (f x).isSome) : (xs.filterMap f).map some = xs.map f := by
  induction xs with
  | nil => rfl
  | cons x xs ih =>
    obtain ⟨hx, hxs⟩ := forall_mem_cons.mp h
    obtain ⟨y, hy⟩ := Option.isSome_iff_exists.mp hx
    rw [filterMap_cons_some hy, map_cons, map_cons, ih hxs, hy]

section Simulation

variable {active : List ℕ} {pid p : ℕ}

/-- The row groups of an active partition, by their indices. -/
theorem Listed.map_groups (h : Listed t active) (hpid : pid ∈ active) :
    ∃ rgIndices, t.partitionRgIndices[pid]? = some rgIndices ∧
      rgIndices.map (t.rowGroups[·]?) = (partitionGroups t pid).map some := by
  have hget := getElem?_eq_getElem (h.partition pid hpid)
  refine ⟨_, hget, ?_⟩
  rw [partitionGroups, getD_eq_getElem?_getD, hget, Option.getD_some, map_some_filterMap]
  intro i hi
  rw [getElem?_eq_getElem (h.group _ (mem_of_getElem? hget) i hi)]
  rfl

theorem activeGroups_getElem? {g : ℕ} (hp : active[p]? = some pid)
    (hg : g < (partitionGroups t pid).length) :
    (activeGroups t active)[groupsBefore t active p + g]? = (partitionGroups t pid)[g]? := by
  obtain ⟨hlt, rfl⟩ := List.getElem?_eq_some_iff.mp hp
  have hsplit : activeGroups t active = activeGroups t (active.take p) ++
      (partitionGroups t active[p] ++ activeGroups t (active.drop (p + 1))) := by
    conv_lhs => rw [← take_append_drop p active, drop_eq_getElem_cons hlt]
    rw [activeGroups, flatMap_append]
    rfl
  rw [hsplit, groupsBefore, getElem?_append_right (Nat.le_add_right _ _),
    Nat.add_sub_cancel_left, getElem?_append_left hg]

theorem groupsBefore_succ (hp : active[p]? = some pid) :
    groupsBefore t active (p + 1) = groupsBefore t active p + (partitionGroups t pid).length := by
  rw [groupsBefore, groupsBefore, take_add_one, hp, activeGroups, activeGroups]
  simp

theorem inPartition_start (p : ℕ) : InPartition t active { partitionIdx := p } := by
  intro pid _
  rcases Nat.eq_zero_or_pos (partitionGroups t pid).length with h | h
  · exact .inr (by rw [h])
  · exact .inl h

variable {state : PartitionScanState} {c : TableScanState} {rgIndices : List ℕ}

theorem getPartitionData_turn_eq {i : ℕ}
    (hp : active[state.partitionIdx]? = some pid)
    (hindices : t.partitionRgIndices[pid]? = some rgIndices)
    (hg : rgIndices[state.cursor.rowGroupIdx]? = some i) (hi : t.rowGroups[i]? = some rg)
    (fuel : ℕ) :
    S.getPartitionData D tx t active (fuel + 1) state =
      match S.turn D tx rg state.cursor with
      | none => none
      | some (.stop r c') => some (r, { state with cursor := c' })
      | some (.goOn c') => S.getPartitionData D tx t active fuel { state with cursor := c' } := by
  rw [getPartitionData, bind_run_ok get_run, hp]
  dsimp only
  rw [hindices, bind_run_ok rfl, hg]
  dsimp only
  rw [hi, bind_run_ok rfl, turn]
  cases rg.skipRows S.scanPredicates (rg.rowCount - state.cursor.rowOffsetInGroup)
      state.cursor.rowOffsetInGroup with
  | error e => rfl
  | ok rowOffset =>
    rw [bind_run_ok rfl]
    dsimp only
    split
    · rw [bind_run_ok (set_run _)]
    · rw [bind_run_ok (set_run _)]
      cases S.batch D tx rg rowOffset with
      | none => rfl
      | some r =>
        cases r with
        | error e => rfl
        | ok output =>
          rw [bind_run_ok rfl]
          dsimp only
          split <;> rfl

theorem getPartitionData_end (hp : active[state.partitionIdx]? = none) (fuel : ℕ) :
    S.getPartitionData D tx t active (fuel + 1) state = some (.ok (.finished, {}), state) := by
  rw [getPartitionData, bind_run_ok get_run, hp]
  rfl

theorem getPartitionData_next (hp : active[state.partitionIdx]? = some pid)
    (hindices : t.partitionRgIndices[pid]? = some rgIndices)
    (hg : rgIndices[state.cursor.rowGroupIdx]? = none) (fuel : ℕ) :
    S.getPartitionData D tx t active (fuel + 1) state =
      S.getPartitionData D tx t active fuel { partitionIdx := state.partitionIdx + 1 } := by
  rw [getPartitionData, bind_run_ok get_run, hp]
  dsimp only
  rw [hindices, bind_run_ok rfl, hg]
  dsimp only
  rw [bind_run_ok (set_run _)]

theorem inPartition_turn (hp : active[state.partitionIdx]? = some pid)
    (hg : state.cursor.rowGroupIdx < (partitionGroups t pid).length)
    (hc : c.rowGroupIdx = state.cursor.rowGroupIdx ∨
      c = { rowGroupIdx := state.cursor.rowGroupIdx + 1 }) :
    InPartition t active { state with cursor := c } := by
  intro pid' hp'
  cases hp.symm.trans hp'
  obtain hc | rfl := hc
  · exact .inl (hc ▸ hg)
  · rcases Nat.lt_or_ge (state.cursor.rowGroupIdx + 1) (partitionGroups t pid).length with h | h
    · exact .inl h
    · exact .inr (by rw [show (partitionGroups t pid).length = state.cursor.rowGroupIdx + 1 by
        omega])

/-- **The partitioned path goes through the row groups of the active partitions** as the flat
path goes through a table of just these row groups. -/
theorem getPartitionData_eq (hlisted : Listed t active) {n m : ℕ} (hin : InPartition t active state)
    (hm : n + (active.length - state.partitionIdx) ≤ m)
    {r : Except Error (OperatorResultType × DataChunk)}
    (hrun : S.getData D tx (activeGroups t active) n (flatCursor t active state) = some (r, c)) :
    ∃ state', S.getPartitionData D tx t active m state = some (r, state') ∧
      flatCursor t active state' = c ∧ InPartition t active state' := by
  induction m generalizing n state with
  | zero =>
    obtain rfl : n = 0 := by omega
    cases hrun
  | succ m ih =>
    obtain ⟨n, rfl⟩ : ∃ k, n = k + 1 := by
      cases n with
      | zero => cases hrun
      | succ n => exact ⟨n, rfl⟩
    cases hp : active[state.partitionIdx]? with
    | none =>
      have hend : (activeGroups t active)[(flatCursor t active state).rowGroupIdx]? = none := by
        rw [getElem?_eq_none_iff] at hp ⊢
        rw [flatCursor, groupsBefore, take_of_length_le hp]
        exact Nat.le_add_right _ _
      rw [getData_none hend] at hrun
      cases hrun
      exact ⟨state, getPartitionData_end hp m, rfl, hin⟩
    | some pid =>
      have hlt := (List.getElem?_eq_some_iff.mp hp).1
      obtain ⟨rgIndices, hindices, hgroups⟩ := hlisted.map_groups (mem_of_getElem? hp)
      have hlength : rgIndices.length = (partitionGroups t pid).length := by
        simpa using congrArg length hgroups
      cases hg : rgIndices[state.cursor.rowGroupIdx]? with
      | none =>
        -- the partition ends, and the flat cursor stands where it stood
        have hge := getElem?_eq_none_iff.mp hg
        obtain hcursor | hcursor := hin pid hp
        · omega
        have hflat : flatCursor t active { partitionIdx := state.partitionIdx + 1 } =
            flatCursor t active state := by
          rw [flatCursor, flatCursor, groupsBefore_succ hp, hcursor]
          rfl
        rw [getPartitionData_next hp hindices hg]
        exact ih (inPartition_start _) (by dsimp only; omega) (hflat ▸ hrun)
      | some i =>
        have hglt :=
          hlength ▸ (List.getElem?_eq_some_iff.mp hg).1
        have hrg := getElem?_eq_getElem hglt
        have hi : t.rowGroups[i]? = some (partitionGroups t pid)[state.cursor.rowGroupIdx] := by
          simpa [hg, hglt] using congrArg (·[state.cursor.rowGroupIdx]?) hgroups
        rw [getData_turn_eq ((activeGroups_getElem? hp hglt).trans hrg), flatCursor,
          turn_shift] at hrun
        rw [getPartitionData_turn_eq hp hindices hg hi]
        cases hres : S.turn D tx (partitionGroups t pid)[state.cursor.rowGroupIdx]
            state.cursor with
        | none =>
          rw [hres] at hrun
          cases hrun
        | some res =>
          rw [hres] at hrun
          cases res with
          | stop r' c' =>
            cases hrun
            exact ⟨_, rfl, rfl, inPartition_turn hp hglt (turn_cursor (.inl ⟨_, hres⟩))⟩
          | goOn c' =>
            exact ih (inPartition_turn hp hglt (turn_cursor (.inr hres)))
              (by dsimp only; omega) hrun

/-- **All calls**. -/
theorem scanPartitions_eq (hlisted : Listed t active) {n calls : ℕ}
    (hin : InPartition t active state) {r : Except Error (List DataChunk)}
    (hrun : S.scanAll D tx (activeGroups t active) n calls (flatCursor t active state) =
      some (r, c)) {fuel : ℕ} (hfuel : n + active.length ≤ fuel) :
    ∃ state', S.scanPartitions D tx t active fuel calls state = some (r, state') := by
  induction calls generalizing state r c with
  | zero => cases hrun
  | succ calls ih =>
    rw [scanAll, bind_run] at hrun
    cases hcall : S.getData D tx (activeGroups t active) n (flatCursor t active state) with
    | none =>
      rw [hcall] at hrun
      cases hrun
    | some res =>
      obtain ⟨res, c₁⟩ := res
      obtain ⟨state₁, hpart, rfl, hin₁⟩ := getPartitionData_eq hlisted hin
        (show n + (active.length - state.partitionIdx) ≤ fuel by omega) hcall
      rw [hcall] at hrun
      rw [scanPartitions, bind_run, hpart]
      cases res with
      | error e =>
        cases hrun
        exact ⟨state₁, rfl⟩
      | ok out =>
        dsimp only at hrun ⊢
        split at hrun
        next hfin =>
          cases hrun
          exact ⟨state₁, by rw [if_pos hfin]; rfl⟩
        next hfin =>
          rw [if_neg hfin]
          rw [bind_run] at hrun ⊢
          cases hrest : S.scanAll D tx (activeGroups t active) n calls
              (flatCursor t active state₁) with
          | none =>
            rw [hrest] at hrun
            cases hrun
          | some res =>
            obtain ⟨rest, c₂⟩ := res
            obtain ⟨state₂, hparts⟩ := ih hin₁ hrest
            rw [hrest] at hrun
            rw [hparts]
            cases rest with
            | error e =>
              cases hrun
              exact ⟨state₂, rfl⟩
            | ok rest =>
              cases hrun
              exact ⟨state₂, rfl⟩

end Simulation

end TableScan

end CppColDB
