import CppColDB.Execution.ScanBatches

/-!
# The loop of a table scan

The zone maps let the scan jump over stretches of a row group; the rest is read in batches.
The chunks of all calls hold the kept rows of the batches, in the order of the table.
-/

namespace CppColDB

open Bool Imp List Nat

/-! ## The way through a row group -/

namespace RowGroup

variable {rg : RowGroup} {preds : List ScanPredicate} {n off : ℕ}

/-- The first predicate with something to skip at an offset, and how many rows. -/
def firstSkip (rg : RowGroup) (off : ℕ) : List ScanPredicate → Option (ScanPredicate × ℕ)
  | [] => none
  | pred :: preds =>
    match rg.columnChunks[pred.colIdx]? with
    | none => firstSkip rg off preds
    | some cc =>
      match cc.zoneMapSkipRows off pred.op pred.bound with
      | .error _ => none
      | .ok skip => if 0 < skip then some (pred, skip) else firstSkip rg off preds

/-- A stretch of rows that a scan jumps over, and the predicate that excludes them. -/
structure Jump where
  start : ℕ
  rows : ℕ
  pred : ScanPredicate

/-- The jumps of a scan from an offset on. -/
def jumpsFrom (rg : RowGroup) (preds : List ScanPredicate) : ℕ → ℕ → List Jump
  | 0, _ => []
  | n + 1, off =>
    if rg.rowCount ≤ off then []
    else match rg.firstSkip off preds with
      | some (pred, skip) => { start := off, rows := skip, pred } :: jumpsFrom rg preds n (off + skip)
      | none => jumpsFrom rg preds n (off + min standardVectorSize (rg.rowCount - off))

/-- The jumps of a scan. -/
def jumps (rg : RowGroup) (preds : List ScanPredicate) : List Jump :=
  rg.jumpsFrom preds rg.rowCount 0

/-- Whether a row is in one of the stretches. -/
def covers (js : List Jump) (o : ℕ) : Bool :=
  js.any fun j => decide (j.start ≤ o ∧ o < j.start + j.rows)

/-- Whether the scan jumps over a row. -/
def jumped (rg : RowGroup) (preds : List ScanPredicate) (o : ℕ) : Bool :=
  covers (rg.jumps preds) o

theorem covers_iff {js : List Jump} {o : ℕ} :
    covers js o = true ↔ ∃ j ∈ js, j.start ≤ o ∧ o < j.start + j.rows := by
  simp [covers]

/-- The rows that the scan reads, from an offset on. -/
def visited (rg : RowGroup) (preds : List ScanPredicate) : ℕ → ℕ → List ℕ
  | 0, _ => []
  | n + 1, off =>
    if rg.rowCount ≤ off then []
    else match rg.firstSkip off preds with
      | some (_, skip) => visited rg preds n (off + skip)
      | none => rg.batchRows off ++
          visited rg preds n (off + min standardVectorSize (rg.rowCount - off))

/-- The zone maps of the row group can be compared with the predicates. -/
def Comparable (rg : RowGroup) (preds : List ScanPredicate) : Prop :=
  ∀ pred ∈ preds, ∀ cc, rg.columnChunks[pred.colIdx]? = some cc →
    ∀ off, ∃ skip, cc.zoneMapSkipRows off pred.op pred.bound = .ok skip

theorem zoneMapSkipRows_eq (h : rg.Comparable preds) (off : ℕ) :
    rg.zoneMapSkipRows off preds = .ok (((rg.firstSkip off preds).map Prod.snd).getD 0) := by
  induction preds with
  | nil => rfl
  | cons pred preds ih =>
    obtain ⟨hpred, hrest⟩ := forall_mem_cons.mp h
    rw [zoneMapSkipRows, firstSkip]
    cases hcc : rg.columnChunks[pred.colIdx]? with
    | none => exact ih hrest
    | some cc =>
      obtain ⟨skip, hskip⟩ := hpred cc hcc off
      simp only [hskip]
      split
      · rfl
      · exact ih hrest

variable {pred : ScanPredicate} {skip : ℕ} {m : ℕ}

theorem firstSkip_pos (h : rg.firstSkip off preds = some (pred, skip)) : 0 < skip := by
  induction preds with
  | nil => cases h
  | cons p preds ih =>
    rw [firstSkip] at h
    split at h
    · exact ih h
    · split at h
      · cases h
      · split at h
        next hpos =>
          cases h
          exact hpos
        next => exact ih h

theorem visited_end (h : rg.rowCount ≤ off) : rg.visited preds n off = [] := by
  cases n with
  | zero => rfl
  | succ n => rw [visited, if_pos h]

theorem visited_jump (hlt : off < rg.rowCount) (h : rg.firstSkip off preds = some (pred, skip)) :
    rg.visited preds (n + 1) off = rg.visited preds n (off + skip) := by
  rw [visited, if_neg (by omega), h]

theorem visited_batch (hlt : off < rg.rowCount) (h : rg.firstSkip off preds = none) :
    rg.visited preds (n + 1) off = rg.batchRows off ++
      rg.visited preds n (off + min standardVectorSize (rg.rowCount - off)) := by
  rw [visited, if_neg (by omega), h]

/-- A batch has a row. -/
theorem lt_next (hlt : off < rg.rowCount) :
    off < off + min standardVectorSize (rg.rowCount - off) := by
  have hsize : 0 < standardVectorSize := zero_lt_succ _
  omega

/-- Fuel for every row that is left is enough. -/
theorem visited_succ (h : rg.rowCount - off ≤ n) :
    rg.visited preds (n + 1) off = rg.visited preds n off := by
  induction n generalizing off with
  | zero => rw [visited_end (by omega), visited_end (by omega)]
  | succ n ih =>
    rcases lt_or_ge off rg.rowCount with hlt | hge
    · cases hskip : rg.firstSkip off preds with
      | none =>
        have hnext := lt_next hlt
        rw [visited_batch hlt hskip, visited_batch hlt hskip, ih (by omega)]
      | some r =>
        have hpos := firstSkip_pos hskip
        rw [visited_jump hlt hskip, visited_jump hlt hskip, ih (by omega)]
    · rw [visited_end hge, visited_end hge]

theorem visited_of_le (hm : rg.rowCount - off ≤ m) :
    rg.visited preds m off = rg.visited preds (rg.rowCount - off) off := by
  induction m with
  | zero => rw [le_zero.mp hm]
  | succ m ih =>
    rcases lt_or_ge m (rg.rowCount - off) with hlt | hge
    · rw [show m + 1 = rg.rowCount - off by omega]
    · rw [visited_succ hge, ih hge]

/-- The rows that are left to read, from an offset on. -/
def left (rg : RowGroup) (preds : List ScanPredicate) (off : ℕ) : List ℕ :=
  rg.visited preds (rg.rowCount - off) off

theorem left_of_le (h : rg.rowCount ≤ off) : rg.left preds off = [] := visited_end h

theorem left_jump (hlt : off < rg.rowCount) (h : rg.firstSkip off preds = some (pred, skip)) :
    rg.left preds off = rg.left preds (off + skip) := by
  have hpos := firstSkip_pos h
  obtain ⟨m, hm⟩ : ∃ m, rg.rowCount - off = m + 1 := ⟨rg.rowCount - off - 1, by omega⟩
  rw [left, hm, visited_jump hlt h, visited_of_le (by omega), left]

theorem left_batch (hlt : off < rg.rowCount) (h : rg.firstSkip off preds = none) :
    rg.left preds off = rg.batchRows off ++
      rg.left preds (off + min standardVectorSize (rg.rowCount - off)) := by
  have hnext := lt_next hlt
  obtain ⟨m, hm⟩ : ∃ m, rg.rowCount - off = m + 1 := ⟨rg.rowCount - off - 1, by omega⟩
  rw [left, hm, visited_batch hlt h, visited_of_le (by omega), left, hm]

/-- **The zone-map loop** moves to the next batch, or to the end. -/
theorem skipRows_run (h : rg.Comparable preds) (hn : rg.rowCount - off ≤ n) :
    ∃ off', rg.skipRows preds n off = .ok off' ∧ off ≤ off' ∧
      rg.left preds off = rg.left preds off' ∧
      (off' < rg.rowCount → rg.firstSkip off' preds = none) := by
  induction n generalizing off with
  | zero => exact ⟨off, rfl, le_rfl, rfl, fun hlt => by omega⟩
  | succ n ih =>
    rw [skipRows]
    split
    next hend => exact ⟨off, rfl, le_rfl, rfl, fun hlt => by omega⟩
    next hlt =>
      rw [zoneMapSkipRows_eq h]
      dsimp only
      cases hskip : rg.firstSkip off preds with
      | none => exact ⟨off, rfl, le_rfl, rfl, fun _ => hskip⟩
      | some r =>
        obtain ⟨pred, skip⟩ := r
        have hpos := firstSkip_pos hskip
        obtain ⟨off', hrun, hle, hleft, hnone⟩ := @ih (off + skip) (by omega)
        refine ⟨off', ?_, by omega, by rw [left_jump (by omega) hskip, hleft], hnone⟩
        rw [Option.map_some, Option.getD_some, if_neg (by omega)]
        exact hrun

theorem le_start_of_mem_jumpsFrom {j : Jump} (h : j ∈ rg.jumpsFrom preds n off) :
    off ≤ j.start := by
  induction n generalizing off with
  | zero => cases h
  | succ n ih =>
    rw [jumpsFrom] at h
    split at h
    · cases h
    · split at h
      · rcases mem_cons.mp h with rfl | h
        · exact le_rfl
        · exact (le_add_right _ _).trans (ih h)
      · exact (le_add_right _ _).trans (ih h)

theorem range'_split (h : off + m ≤ n) :
    range' off (n - off) = range' off m ++ range' (off + m) (n - (off + m)) := by
  rw [range'_append_1]
  congr 1
  omega

/-- **What is read and what is jumped over** make up the row group. -/
theorem visited_eq_filter (hn : rg.rowCount - off ≤ n) :
    rg.visited preds n off = (range' off (rg.rowCount - off)).filter fun o =>
      !covers (rg.jumpsFrom preds n off) o := by
  induction n generalizing off with
  | zero =>
    rw [le_zero.mp hn]
    rfl
  | succ n ih =>
    rcases lt_or_ge off rg.rowCount with hlt | hge
    · cases hskip : rg.firstSkip off preds with
      | none =>
        have hnext := lt_next hlt
        have hjumps : rg.jumpsFrom preds (n + 1) off =
            rg.jumpsFrom preds n (off + min standardVectorSize (rg.rowCount - off)) := by
          rw [jumpsFrom, if_neg (by omega), hskip]
        have hread : ∀ o ∈ rg.batchRows off,
            (!covers (rg.jumpsFrom preds (n + 1) off) o) = true := by
          intro o ho
          have hlt₁ := (mem_range'_1.mp ho).2
          rw [not_eq_true', ← not_eq_true, covers_iff, hjumps]
          rintro ⟨j, hj, hle, -⟩
          have hstart := le_start_of_mem_jumpsFrom hj
          omega
        rw [visited_batch hlt hskip,
          range'_split (show off + min standardVectorSize (rg.rowCount - off) ≤ rg.rowCount by
            omega),
          filter_append, ih (by omega), ← hjumps]
        exact congrArg (· ++ _) (filter_eq_self.mpr hread).symm
      | some r =>
        obtain ⟨pred, skip⟩ := r
        have hpos := firstSkip_pos hskip
        have hjumps : rg.jumpsFrom preds (n + 1) off =
            ⟨off, skip, pred⟩ :: rg.jumpsFrom preds n (off + skip) := by
          rw [jumpsFrom, if_neg (by omega), hskip]
        have hover : ∀ o, off ≤ o → o < off + skip →
            ¬ (!covers (rg.jumpsFrom preds (n + 1) off) o) = true := by
          intro o hlo hhi
          rw [not_eq_true, not_eq_false', covers_iff, hjumps]
          exact ⟨_, mem_cons_self, hlo, hhi⟩
        rw [visited_jump hlt hskip]
        rcases lt_or_ge rg.rowCount (off + skip) with hbeyond | hwithin
        · rw [visited_end (by omega), eq_comm, filter_eq_nil_iff]
          intro o ho
          obtain ⟨hlo, hhi⟩ := mem_range'_1.mp ho
          exact hover o hlo (by omega)
        · have hnone : ((range' off skip).filter fun o =>
              !covers (rg.jumpsFrom preds (n + 1) off) o) = [] := by
            rw [filter_eq_nil_iff]
            intro o ho
            obtain ⟨hlo, hhi⟩ := mem_range'_1.mp ho
            exact hover o hlo hhi
          rw [range'_split hwithin, filter_append, hnone, ih (by omega)]
          refine filter_congr fun o ho => ?_
          have hlo := (mem_range'_1.mp ho).1
          have hout : ¬ (off ≤ o ∧ o < off + skip) := by omega
          rw [hjumps, covers, covers, any_cons, decide_eq_false hout, Bool.false_or]
    · rw [visited_end hge, Nat.sub_eq_zero_of_le hge]
      rfl

theorem left_zero : rg.left preds 0 = (range rg.rowCount).filter fun o =>
    !rg.jumped preds o := by
  rw [left, visited_eq_filter le_rfl, ← range_eq_range']
  rfl

end RowGroup

/-! ## The calls -/

namespace TableScan

variable {S : TableScan} {D : DoubleOps} {tx : Snapshot} {groups : List RowGroup}
  {types : List TypeId}

/-- The rows that the scan returns of some offsets of a row group. -/
def returned (S : TableScan) (D : DoubleOps) (tx : Snapshot) (rg : RowGroup) (offsets : List ℕ) :
    List Row :=
  (offsets.filter (S.keeps D tx rg)).map (rg.row S.columnIds)

/-- The rows that the scan returns of whole row groups. -/
def returnedAll (S : TableScan) (D : DoubleOps) (tx : Snapshot) (groups : List RowGroup) :
    List Row :=
  groups.flatMap fun rg => S.returned D tx rg (rg.left S.scanPredicates 0)

/-- The rows that are still to be returned. -/
def rowsLeft (S : TableScan) (D : DoubleOps) (tx : Snapshot) (groups : List RowGroup)
    (state : TableScanState) : List Row :=
  match groups.drop state.rowGroupIdx with
  | [] => []
  | rg :: rest =>
    S.returned D tx rg (rg.left S.scanPredicates state.rowOffsetInGroup) ++ S.returnedAll D tx rest

/-- A bound for the turns of the loop that are left. -/
def turns (groups : List RowGroup) (state : TableScanState) : ℕ :=
  match groups.drop state.rowGroupIdx with
  | [] => 0
  | rg :: rest =>
    rg.rowCount - state.rowOffsetInGroup + 1 + (rest.map fun rg => rg.rowCount + 1).sum

/-- The row groups can be scanned. -/
structure Scannable (S : TableScan) (D : DoubleOps) (tx : Snapshot) (types : List TypeId)
    (rg : RowGroup) : Prop where
  readable : rg.ReadableAs types
  evaluates : S.Evaluates D tx rg
  comparable : rg.Comparable S.scanPredicates

theorem rowsLeft_start (g : ℕ) :
    S.rowsLeft D tx groups { rowGroupIdx := g } = S.returnedAll D tx (groups.drop g) := by
  rw [rowsLeft]
  split
  next h => rw [h]; rfl
  next rg rest h => rw [h]; rfl

theorem turns_start (g : ℕ) :
    turns groups { rowGroupIdx := g } = ((groups.drop g).map fun rg => rg.rowCount + 1).sum := by
  rw [turns]
  split
  next h => rw [h]; rfl
  next rg rest h => rw [h, map_cons, sum_cons, Nat.sub_zero]

/-- The state after a batch stands for the rows after it. -/
theorem next_spec {g off : ℕ} {rg : RowGroup} {rest : List RowGroup}
    (hdrop : groups.drop g = rg :: rest) (hlt : off < rg.rowCount) :
    S.rowsLeft D tx groups (next rg g off) = S.returned D tx rg (rg.left S.scanPredicates
        (off + min standardVectorSize (rg.rowCount - off))) ++ S.returnedAll D tx rest ∧
    turns groups (next rg g off) <
      rg.rowCount - off + 1 + (rest.map fun rg => rg.rowCount + 1).sum := by
  have hrest : groups.drop (g + 1) = rest := by
    rw [← tail_drop, hdrop, tail_cons]
  have hnext := RowGroup.lt_next hlt
  rw [next]
  split
  next hend =>
    rw [rowsLeft_start, turns_start, hrest, RowGroup.left_of_le hend]
    exact ⟨rfl, by omega⟩
  next hmore =>
    refine ⟨?_, ?_⟩
    · rw [rowsLeft, hdrop]
    · rw [turns, hdrop]
      dsimp only
      omega

section

variable (hS : S.Planned types) (hgroups : ∀ rg ∈ groups, S.Scannable D tx types rg)
  {state : TableScanState} {bound : ℕ}
include hS hgroups

/-- **One turn of the loop of `GetData`**: the table ends, a batch with rows is returned, or
the loop goes on behind a batch or a row group without any. -/
theorem getData_turn (state : TableScanState) :
    (S.rowsLeft D tx groups state = [] ∧ ∀ fuel, S.getData D tx groups (fuel + 1) state =
      some (.ok (.finished, {}), state)) ∨
    ∃ state', turns groups state' < turns groups state ∧
      ((∃ chunk part, chunk.Holds S.outputTypes part ∧
          S.rowsLeft D tx groups state = part ++ S.rowsLeft D tx groups state' ∧
          ∀ fuel, S.getData D tx groups (fuel + 1) state =
            some (.ok (.haveMoreOutput, chunk), state')) ∨
        S.rowsLeft D tx groups state = S.rowsLeft D tx groups state' ∧
          ∀ fuel, S.getData D tx groups (fuel + 1) state =
            S.getData D tx groups fuel state') := by
  obtain ⟨g, off⟩ := state
  cases hrg : groups[g]? with
  | none =>
    have hdrop : groups.drop g = [] := drop_of_length_le (getElem?_eq_none_iff.mp hrg)
    refine .inl ⟨by rw [rowsLeft, hdrop], fun fuel => ?_⟩
    rw [getData, bind_run_ok get_run]
    rw [hrg]
    rfl
  | some rg =>
    obtain ⟨hglt, hget⟩ := List.getElem?_eq_some_iff.mp hrg
    have hdrop : groups.drop g = rg :: groups.drop (g + 1) := by
      rw [drop_eq_getElem_cons hglt, hget]
    obtain ⟨hread, heval, hcmp⟩ := hgroups rg (mem_of_getElem? hrg)
    obtain ⟨off', hskip, hle, hsame, hnone⟩ := RowGroup.skipRows_run hcmp (le_refl _)
    change off ≤ off' at hle
    have hleft : S.rowsLeft D tx groups ⟨g, off⟩ =
        S.returned D tx rg (rg.left S.scanPredicates off') ++
          S.returnedAll D tx (groups.drop (g + 1)) := by
      rw [rowsLeft, hdrop, ← hsame]
    have hturns : turns groups ⟨g, off⟩ = rg.rowCount - off + 1 +
        ((groups.drop (g + 1)).map fun rg => rg.rowCount + 1).sum := by
      rw [turns, hdrop]
    have hturn : ∀ fuel, S.getData D tx groups (fuel + 1) ⟨g, off⟩ =
        (if rg.rowCount ≤ off' then do
          set { rowGroupIdx := g + 1 }
          S.getData D tx groups fuel
        else do
          set (next rg g off')
          let output ← ofExcept (S.batch D tx rg off')
          if 0 < output.count then pure (.haveMoreOutput, output)
          else S.getData D tx groups fuel :
            Imp Error TableScanState (OperatorResultType × DataChunk)) ⟨g, off⟩ := by
      intro fuel
      rw [getData, bind_run_ok get_run]
      rw [hrg]
      dsimp only
      rw [hskip, bind_run_ok rfl]
    by_cases hend : rg.rowCount ≤ off'
    · refine .inr ⟨{ rowGroupIdx := g + 1 }, ?_, .inr ⟨?_, fun fuel => ?_⟩⟩
      · rw [turns_start]
        omega
      · rw [hleft, RowGroup.left_of_le hend, rowsLeft_start]
        rfl
      · rw [hturn, if_pos hend, bind_run_ok (set_run _)]
    · have hlt : off' < rg.rowCount := by omega
      obtain ⟨chunk, hbatch, hcount, hholds⟩ := batch_run hS hread heval hlt
      obtain ⟨hrowsNext, hturnsNext⟩ := next_spec hdrop hlt
      have hpart : S.rowsLeft D tx groups ⟨g, off⟩ = S.returned D tx rg (rg.batchRows off') ++
            S.rowsLeft D tx groups (next rg g off') := by
        rw [hleft, RowGroup.left_batch hlt (hnone hlt), hrowsNext, ← append_assoc]
        simp only [returned, filter_append, map_append]
      have hrun : ∀ fuel, S.getData D tx groups (fuel + 1) ⟨g, off⟩ =
          (if 0 < chunk.count then pure (.haveMoreOutput, chunk)
          else S.getData D tx groups fuel :
            Imp Error TableScanState (OperatorResultType × DataChunk)) (next rg g off') := by
        intro fuel
        rw [hturn, if_neg hend, bind_run_ok (set_run _), hbatch, bind_run_ok rfl]
      refine .inr ⟨next rg g off', by rw [hturns]; omega, ?_⟩
      by_cases hpos : 0 < chunk.count
      · refine .inl ⟨chunk, _, hholds hpos, hpart, fun fuel => ?_⟩
        rw [hrun, if_pos hpos]
        rfl
      · have hnil : (rg.batchRows off').filter (S.keeps D tx rg) = [] :=
          length_eq_zero_iff.mp (by omega)
        rw [returned, hnil] at hpart
        exact .inr ⟨hpart, fun fuel => by rw [hrun, if_neg hpos]⟩

/-- **One call of `GetData`** returns a chunk with the next rows, or there are none. -/
theorem getData_run (hbound : turns groups state < bound) :
    ∃ state', (S.rowsLeft D tx groups state = [] ∧
        ∀ fuel ≥ bound, S.getData D tx groups fuel state = some (.ok (.finished, {}), state')) ∨
      ∃ chunk part, chunk.Holds S.outputTypes part ∧
        S.rowsLeft D tx groups state = part ++ S.rowsLeft D tx groups state' ∧
        turns groups state' < turns groups state ∧
        ∀ fuel ≥ bound, S.getData D tx groups fuel state =
          some (.ok (.haveMoreOutput, chunk), state') := by
  induction bound generalizing state with
  | zero => exact absurd hbound (not_lt_zero _)
  | succ bound ih =>
    have hfuel : ∀ fuel ≥ bound + 1, ∃ fuel', fuel = fuel' + 1 ∧ bound ≤ fuel' := by
      intro fuel hfuel
      exact ⟨fuel - 1, by omega, by omega⟩
    rcases getData_turn hS hgroups state with
      ⟨hnone, hrun⟩ | ⟨state', hless, ⟨chunk, part, hholds, hrows, hrun⟩ | ⟨hrows, hrun⟩⟩
    · refine ⟨state, .inl ⟨hnone, fun fuel hf => ?_⟩⟩
      obtain ⟨fuel', rfl, -⟩ := hfuel fuel hf
      exact hrun fuel'
    · refine ⟨state', .inr ⟨chunk, part, hholds, hrows, hless, fun fuel hf => ?_⟩⟩
      obtain ⟨fuel', rfl, -⟩ := hfuel fuel hf
      exact hrun fuel'
    · obtain ⟨state'', hcase⟩ := @ih state' (by omega)
      refine ⟨state'', ?_⟩
      rw [hrows]
      rcases hcase with ⟨hnone, hlater⟩ | ⟨chunk, part, hholds, hrows', hless', hlater⟩
      · refine .inl ⟨hnone, fun fuel hf => ?_⟩
        obtain ⟨fuel', rfl, hle⟩ := hfuel fuel hf
        rw [hrun, hlater fuel' hle]
      · refine .inr ⟨chunk, part, hholds, hrows', hless'.trans hless, fun fuel hf => ?_⟩
        obtain ⟨fuel', rfl, hle⟩ := hfuel fuel hf
        rw [hrun, hlater fuel' hle]

/-- **The calls until the scan is finished** return all rows. -/
theorem scanAll_run (hbound : turns groups state < bound) :
    ∃ outs state', (∀ fuel ≥ bound, ∀ calls ≥ bound,
        S.scanAll D tx groups fuel calls state = some (.ok outs, state')) ∧
      DataChunk.HoldAll outs S.outputTypes (S.rowsLeft D tx groups state) := by
  -- the calls are counted apart from the fuel of each of them
  suffices h : ∀ {n : ℕ} {state : TableScanState}, turns groups state < n → n ≤ bound →
      ∃ outs state', (∀ fuel ≥ bound, ∀ calls ≥ n,
        S.scanAll D tx groups fuel calls state = some (.ok outs, state')) ∧
      DataChunk.HoldAll outs S.outputTypes (S.rowsLeft D tx groups state) from
    h hbound le_rfl
  intro n
  induction n with
  | zero => exact fun h => absurd h (not_lt_zero _)
  | succ n ih =>
    intro state hturns hle
    have hcalls : ∀ calls ≥ n + 1, ∃ calls', calls = calls' + 1 ∧ n ≤ calls' := by
      intro calls hcalls
      exact ⟨calls - 1, by omega, by omega⟩
    obtain ⟨state', ⟨hnone, hrun⟩ | ⟨chunk, part, hholds, hrows, hless, hrun⟩⟩ :=
      getData_run hS hgroups (show turns groups state < bound by omega)
    · refine ⟨[], state', fun fuel hf calls hc => ?_, [], .nil, by rw [hnone]; rfl⟩
      obtain ⟨calls', rfl, -⟩ := hcalls calls hc
      rw [scanAll, bind_run_ok (hrun fuel hf)]
      rfl
    · obtain ⟨outs, final, hrest, parts, hparts, hflat⟩ := @ih state' (by omega) (by omega)
      refine ⟨chunk :: outs, final, fun fuel hf calls hc => ?_, part :: parts,
        .cons hholds hparts, by rw [flatten_cons, hflat, hrows]⟩
      obtain ⟨calls', rfl, hle'⟩ := hcalls calls hc
      rw [scanAll, bind_run_ok (hrun fuel hf)]
      dsimp only
      rw [if_neg (by decide), bind_run_ok (hrest fuel hf calls' hle')]
      rfl

end

end TableScan

end CppColDB
