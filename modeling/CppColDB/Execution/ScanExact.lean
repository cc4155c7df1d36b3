import CppColDB.Execution.ScanLoop
import CppColDB.Lib.Bags

/-!
# Scans and their filters

A scan should return the visible rows on which every pushed filter is true. It does so but
for three cases. A zone map is looked up under the position of the column in the scan, not
under its number in the table, so that rows can be skipped for the values of another column.
Where every scanned column occurs in a filter, the filters are not applied at all. And there
the batch is read without the version information of its rows if the counters of the row
group allow it.
-/

namespace CppColDB

open Bool ByteCodec ColumnChunk List Option Value

/-! ## Filters and zone-map predicates -/

variable {type : TypeId}

namespace BinaryOp

/-- The relation of two values that a comparison operator stands for. -/
def Relates (op : BinaryOp) (a b : Value) : Prop :=
  match op with
  | .eq => a.eq b = .ok true
  | .lt => a.lt b = .ok true
  | .gt => b.lt a = .ok true
  | .le => a.AtMost b
  | .ge => b.AtMost a
  | _ => False

variable {op : BinaryOp}

/-- A comparison of elements is the relation of their values. -/
theorem relates_of_comparison {α : Type} {less equal : α → α → Bool} (value : α → Value)
    (hlt : ∀ x y, (value x).lt (value y) = .ok (less x y))
    (heq : ∀ x y, (value x).eq (value y) = .ok (equal x y))
    (hop : (Expr.scanOp false op).isSome) {x y : α} (h : op.comparison less equal x y = true) :
    op.Relates (value x) (value y) := by
  cases op <;> first | exact absurd hop false_ne_true | skip
  case eq => exact (heq x y).trans (congrArg _ h)
  case lt => exact (hlt x y).trans (congrArg _ h)
  case gt => exact (hlt y x).trans (congrArg _ h)
  case le =>
    refine (or_eq_true_iff.mp h).imp (fun h => ?_) fun h => ?_
    · exact (hlt x y).trans (congrArg _ h)
    · exact (heq x y).trans (congrArg _ h)
  case ge =>
    refine (or_eq_true_iff.mp h).imp (fun h => ?_) fun h => ?_
    · exact (hlt y x).trans (congrArg _ h)
    · exact eq_symm ((heq x y).trans (congrArg _ h))

variable {D : DoubleOps}

/-- Rows whose values are of one type are compared as the values are. -/
theorem relates_of_compareRows {s t : TypeId} {a b : Datum}
    (hop : (Expr.scanOp false op).isSome) (htype : a.value.type = b.value.type)
    (h : op.compareRows D s a t b = some true) : op.Relates a.value b.value := by
  cases a with
  | int x =>
    cases b with
    | int y =>
      refine relates_of_comparison integer (fun _ _ => rfl) (fun _ _ => rfl) hop (?_ :
        op.comparison (fun a b : Int64 => decide (a < b)) (fun a b => decide (a = b)) x y = true)
      cases hs : s.storageClass <;> cases ht : t.storageClass <;>
        simp_all [compareRows, DoubleOps.number, intElement]
    | float y => cases htype
    | str y => cases htype
  | float x =>
    cases b with
    | float y =>
      refine relates_of_comparison float (fun _ _ => rfl) (fun _ _ => rfl) hop (?_ :
        op.comparison Double.lt Double.eq x y = true)
      cases hs : s.storageClass <;> cases ht : t.storageClass <;>
        simp_all [compareRows, DoubleOps.number, intElement]
    | int y => cases htype
    | str y => cases htype
  | str x =>
    cases b with
    | str y =>
      refine relates_of_comparison varchar (fun _ _ => rfl) (fun _ _ => rfl) hop (?_ :
        op.comparison (fun a b : Bytes => decide (a < b)) (fun a b => decide (a = b)) x y = true)
      cases hs : s.storageClass <;> cases ht : t.storageClass <;>
        simp_all [compareRows, DoubleOps.number, intElement]
    | int y => cases htype
    | float y => cases htype

/-- A comparison that is true compares two elements. -/
theorem compareRows_of_apply {l r : Scalar}
    {x : Datum} {v : Int64} (hop : (Expr.scanOp false op).isSome)
    (h : op.apply D type l r = some (some x)) (hx : intElement type x = some v) (hv : v ≠ 0) :
    ∃ a b, l.cell = some a ∧ r.cell = some b ∧ op.compareRows D l.type a r.type b = some true := by
  obtain ⟨lt, lc⟩ := l
  obtain ⟨rt, rc⟩ := r
  cases lc with
  | none => cases h
  | some a =>
    cases rc with
    | none => cases h
    | some b =>
      refine ⟨a, b, rfl, rfl, ?_⟩
      have hcmp : (op.compareRows D lt a rt b).bind (boolCell type) = some (some x) := by
        cases op <;> first | exact absurd hop false_ne_true | exact h
      obtain ⟨res, hres, hcell⟩ := bind_eq_some_iff.mp hcmp
      rw [boolCell] at hcell
      split at hcell
      next hclass =>
        cases some.inj hcell
        simp only [intElement, hclass, some.injEq] at hx
        cases res with
        | true => exact hres
        | false => exact absurd hx.symm hv
      next => cases hcell

end BinaryOp

/-- A literal of the type of a stored value is one. -/
theorem eq_value_of_fill {v : Value} {r : Scalar} (h : v.fill = .ok r) {b d : Datum}
    (hcell : r.cell = some b) (htype : d.value.type = v.type) : v = b.value := by
  obtain ⟨type, data⟩ := v
  subst htype
  cases d <;> cases data <;> cases h <;> cases hcell <;> rfl

variable {pred : ScanPredicate}

namespace Expr

variable {op : BinaryOp} {flipped : Bool} {sop : ScanPredicateOp}

/-- A comparison operator with its operands in the given order, and the predicate for it. -/
theorem holds_of_relates
    (hop : scanOp flipped op = some sop) {a b : Value}
    (h : if flipped then op.Relates b a else op.Relates a b) : sop.Holds a b := by
  cases flipped <;> cases op <;> cases hop <;> first | exact h | skip
  case false.ge => exact h.imp_right eq_symm
  case true.eq => exact eq_symm h
  case true.le => exact h.imp_right eq_symm

theorem scanOp_isSome
    (h : scanOp flipped op = some sop) : (scanOp false op).isSome := by
  cases op <;> cases h <;> rfl

variable {D : DoubleOps} {row : ℕ → Option Scalar}

/-- A comparison that is true on a row compares two elements. -/
theorem compareRows_of_holds {left right : Expr} (hop : (scanOp false op).isSome)
    (h : (binaryOp type op left right).holds D row = some (.ok true)) :
    ∃ l r a b, left.eval D row = some (.ok l) ∧ right.eval D row = some (.ok r) ∧
      l.cell = some a ∧ r.cell = some b ∧ op.compareRows D l.type a r.type b = some true := by
  rw [holds, eval] at h
  split at h
  next => cases h
  next => cases h
  next s hs =>
    split at hs
    next => cases hs
    next => cases hs
    next l hl =>
      split at hs
      next => cases hs
      next => cases hs
      next r hr =>
        obtain ⟨cell, hcell, hs⟩ := map_eq_some_iff.mp hs
        cases hs
        cases cell with
        | none => cases h
        | some x =>
          obtain ⟨v, hv, hne⟩ := map_eq_some_iff.mp h
          obtain ⟨a, b, ha, hb, hcmp⟩ :=
            BinaryOp.compareRows_of_apply hop hcell hv (by simpa using hne)
          exact ⟨l, r, a, b, hl, hr, ha, hb, hcmp⟩

/-- **A filter that is true** on a row: the column of its predicate is not NULL, and meets the
predicate where the types agree. -/
theorem holds_predicate {f : Expr} (hpred : f.tryExtractPredicate = some pred) {s : Scalar}
    (hrow : row pred.colIdx = some s) (h : f.holds D row = some (.ok true)) :
    ∃ d, s.cell = some d ∧ (d.value.type = pred.bound.type → pred.op.Holds d.value pred.bound) := by
  unfold tryExtractPredicate at hpred
  split at hpred
  next type op colType c litType v =>
    obtain ⟨sop, hsop, rfl⟩ := map_eq_some_iff.mp hpred
    obtain ⟨l, r, a, b, hl, hr, ha, hb, hcmp⟩ := compareRows_of_holds (scanOp_isSome hsop) h
    obtain rfl : s = l := by simpa [eval, hrow] using hl
    have hfill : v.fill = .ok r := by simpa [eval] using hr
    refine ⟨a, ha, fun htype => ?_⟩
    have hv := eq_value_of_fill hfill hb htype
    rw [hv] at htype ⊢
    exact holds_of_relates hsop (BinaryOp.relates_of_compareRows (scanOp_isSome hsop) htype hcmp)
  next type op litType v colType c =>
    obtain ⟨sop, hsop, rfl⟩ := map_eq_some_iff.mp hpred
    obtain ⟨l, r, a, b, hl, hr, ha, hb, hcmp⟩ := compareRows_of_holds (scanOp_isSome hsop) h
    obtain rfl : s = r := by simpa [eval, hrow] using hr
    have hfill : v.fill = .ok l := by simpa [eval] using hl
    refine ⟨b, hb, fun htype => ?_⟩
    have hv := eq_value_of_fill hfill ha htype
    rw [hv] at htype ⊢
    exact holds_of_relates hsop
      (BinaryOp.relates_of_compareRows (scanOp_isSome hsop) htype.symm hcmp)
  next => cases hpred

end Expr

/-! ## Jumps -/

namespace RowGroup

variable {rg : RowGroup} {preds : List ScanPredicate} {n off : ℕ}

theorem firstSkip_spec {skip : ℕ} (h : rg.firstSkip off preds = some (pred, skip)) :
    pred ∈ preds ∧ ∃ cc, rg.columnChunks[pred.colIdx]? = some cc ∧
      cc.zoneMapSkipRows off pred.op pred.bound = .ok skip := by
  induction preds with
  | nil => cases h
  | cons p preds ih =>
    rw [firstSkip] at h
    have hrest := fun h => (ih h).imp_left (mem_cons_of_mem p)
    split at h
    next => exact hrest h
    next cc hcc =>
      split at h
      next => cases h
      next k hk =>
        split at h
        · cases h
          exact ⟨mem_cons_self, cc, hcc, hk⟩
        · exact hrest h

/-- A jump is what the zone map of the column under the predicate's position skips. -/
theorem jumpsFrom_spec {j : Jump} (h : j ∈ rg.jumpsFrom preds n off) :
    j.pred ∈ preds ∧ ∃ cc, rg.columnChunks[j.pred.colIdx]? = some cc ∧
      cc.zoneMapSkipRows j.start j.pred.op j.pred.bound = .ok j.rows := by
  induction n generalizing off with
  | zero => cases h
  | succ n ih =>
    rw [jumpsFrom] at h
    split at h
    · cases h
    · split at h
      next hskip =>
        rcases mem_cons.mp h with rfl | h
        · exact firstSkip_spec hskip
        · exact ih h
      next => exact ih h

/-- The statistics of the segments of every column bound their values. -/
def StatsBound (rg : RowGroup) : Prop := ∀ cc ∈ rg.columnChunks, cc.StatsBound

theorem StatsBound.comparable (h : rg.StatsBound) (hpreds : ∀ pred ∈ preds, pred.bound.Typed) :
    rg.Comparable preds :=
  fun pred hpred _ hcc off =>
    (h _ (mem_of_getElem? hcc)).exists_skip (hpreds pred hpred) pred.op off

end RowGroup

/-! ## What a scan should return -/

namespace TableScan

variable {S : TableScan} {D : DoubleOps} {tx : Snapshot} {groups : List RowGroup}
  {types : List TypeId} {rg : RowGroup} {o : ℕ}

/-- The rows of a table by row group and offset. -/
def positions (groups : List RowGroup) : List (RowGroup × ℕ) :=
  groups.flatMap fun rg => (range rg.rowCount).map fun o => (rg, o)

theorem mem_positions : (rg, o) ∈ positions groups ↔ rg ∈ groups ∧ o < rg.rowCount := by
  simp [positions]

/-- The visible rows on which every pushed filter is true. -/
def wanted (S : TableScan) (D : DoubleOps) (tx : Snapshot) (pos : RowGroup × ℕ) : Bool :=
  pos.1.versionInfo.isVisible pos.2 tx && S.matching D pos.1 pos.2

/-- The rows that the scan returns. -/
def found (S : TableScan) (D : DoubleOps) (tx : Snapshot) (pos : RowGroup × ℕ) : Bool :=
  !pos.1.jumped S.scanPredicates pos.2 && S.keeps D tx pos.1 pos.2

/-- The rows that meet a condition, projected to the scanned columns. -/
def rowsWhere (S : TableScan) (groups : List RowGroup) (p : RowGroup × ℕ → Bool) : List Row :=
  ((positions groups).filter p).map fun pos => pos.1.row S.columnIds pos.2

theorem returnedAll_eq : S.returnedAll D tx groups = S.rowsWhere groups (S.found D tx) := by
  rw [rowsWhere, positions, filter_flatMap, map_flatMap]
  refine congrArg (groups.flatMap ·) (funext fun rg => ?_)
  rw [returned, RowGroup.left_zero, List.filter_filter, List.filter_map, List.map_map]
  refine congrArg (map _) (filter_congr fun o _ => ?_)
  exact and_comm ..

/-- **The scan returns what it should**: its chunks hold the wanted rows in their order. -/
def ScansExactly (S : TableScan) (D : DoubleOps) (tx : Snapshot) (groups : List RowGroup) :
    Prop :=
  ∃ outs state', (∀ᶠ fuel in Filter.atTop,
      S.scanAll D tx groups fuel fuel {} = some (.ok outs, state')) ∧
    DataChunk.HoldAll outs S.outputTypes (S.rowsWhere groups (S.wanted D tx))

/-- A table without partitions, and a scan of it. -/
structure Scans (S : TableScan) (D : DoubleOps) (tx : Snapshot) (types : List TypeId)
    (groups : List RowGroup) : Prop where
  planned : S.Planned types
  readable : ∀ rg ∈ groups, rg.ReadableAs types
  statsBound : ∀ rg ∈ groups, rg.StatsBound
  evaluates : ∀ rg ∈ groups, S.Evaluates D tx rg

theorem Scans.scannable (h : S.Scans D tx types groups) :
    ∀ rg ∈ groups, S.Scannable D tx types rg :=
  fun rg hrg => ⟨h.readable rg hrg, h.evaluates rg hrg,
    (h.statsBound rg hrg).comparable h.planned.literals⟩

theorem rowsLeft_zero : S.rowsLeft D tx groups {} = S.returnedAll D tx groups := by
  cases groups <;> rfl

/-- The scan is right if and only if it returns the rows it should. -/
theorem scansExactly_iff_rows (h : S.Scans D tx types groups) : S.ScansExactly D tx groups ↔
      S.rowsWhere groups (S.found D tx) = S.rowsWhere groups (S.wanted D tx) := by
  obtain ⟨outs, state', hrun, hholds⟩ := scanAll_run h.planned h.scannable
    (Nat.lt_succ_self (turns groups {}))
  rw [rowsLeft_zero, returnedAll_eq] at hholds
  have hfuel :=
    (Filter.eventually_ge_atTop _).mono fun fuel hfuel => hrun fuel hfuel fuel hfuel
  constructor
  · rintro ⟨outs', state'', hrun', hholds'⟩
    obtain ⟨fuel, h₁, h₂⟩ := (hfuel.and hrun').exists
    obtain rfl : outs = outs' := by
      rw [h₁] at h₂
      cases h₂
      rfl
    exact hholds.unique hholds'
  · intro heq
    rw [heq] at hholds
    exact ⟨outs, state', hfuel, hholds⟩

/-! ## When it does -/

/-- The zone maps of other columns than those of the filters skip no wanted row. -/
def JumpsRight (S : TableScan) (D : DoubleOps) (tx : Snapshot) (groups : List RowGroup) : Prop :=
  ∀ rg ∈ groups, ∀ j ∈ rg.jumps S.scanPredicates, S.columnIds[j.pred.colIdx]? ≠ some j.pred.colIdx →
    ∀ o < rg.rowCount, j.start ≤ o → o < j.start + j.rows → S.wanted D tx (rg, o) = false

/-- Where every column occurs in a filter, the rows that are read meet the filters. -/
def ReadsMatching (S : TableScan) (D : DoubleOps) (tx : Snapshot) (groups : List RowGroup) :
    Prop :=
  S.payloadColIds = [] → ∀ rg ∈ groups, ∀ o < rg.rowCount, rg.jumped S.scanPredicates o = false →
    rg.admits tx o → S.matching D rg o

/-- Where every column occurs in a filter, the rows that are read are visible. -/
def ReadsVisible (S : TableScan) (tx : Snapshot) (groups : List RowGroup) : Prop :=
  S.payloadColIds = [] → ∀ rg ∈ groups, ∀ o < rg.rowCount, rg.jumped S.scanPredicates o = false →
    rg.admits tx o → rg.versionInfo.isVisible o tx

/-- **A jump over a wanted row** was made for the values of another column. -/
theorem Scans.jump_wrong (h : S.Scans D tx types groups) (hrg : rg ∈ groups)
    (ho : o < rg.rowCount) (hwanted : S.wanted D tx (rg, o)) {j : RowGroup.Jump}
    (hj : j ∈ rg.jumps S.scanPredicates) (hlo : j.start ≤ o) (hhi : o < j.start + j.rows) :
    S.columnIds[j.pred.colIdx]? ≠ some j.pred.colIdx := by
  intro hcol
  obtain ⟨hpred, cc, hcc, hskip⟩ := RowGroup.jumpsFrom_spec hj
  obtain ⟨f, hf, hfpred⟩ := mem_filterMap.mp hpred
  have htrue : f.holds D (S.scalars rg o) = some (.ok true) := by
    have hmatch := (and_eq_true_iff.mp hwanted).2
    exact of_decide_eq_true (all_eq_true.mp hmatch f hf)
  have hscalar : S.scalars rg o j.pred.colIdx = some
      { type := rg.colType j.pred.colIdx, cell := rg.cell j.pred.colIdx o } := by
    rw [scalars, hcol, map_some]
  obtain ⟨d, hd, hholds⟩ := Expr.holds_predicate hfpred hscalar htrue
  have hcell : cc.cell? o = some (some d) := by
    have hlt : j.pred.colIdx < rg.colTypes.length := by
      rw [(h.readable rg hrg).colTypes]
      exact h.planned.columnIds _ (mem_of_getElem? hcol)
    obtain ⟨cc', -, hcc', hread, hcount, -, hcells⟩ := (h.readable rg hrg).readable.column hlt
    cases hcc.symm.trans hcc'
    rw [hread.cell?_eq (by omega), hcells]
    exact congrArg some hd
  obtain ⟨htype, hnot⟩ := (h.statsBound rg hrg cc (mem_of_getElem? hcc)).not_holds_of_skip
    hskip hlo hhi hcell
  exact hnot (hholds htype)

theorem admits_of_isVisible (h : rg.versionInfo.isVisible o tx) : rg.admits tx o := by
  rw [RowGroup.admits, h, Bool.or_true]

variable {pos : RowGroup × ℕ}

/-- With the right zone maps every wanted row is returned. -/
theorem Scans.found_of_wanted (h : S.Scans D tx types groups) (hjumps : S.JumpsRight D tx groups)
    (hpos : pos ∈ positions groups) (hwanted : S.wanted D tx pos) :
    S.found D tx pos := by
  obtain ⟨rg, o⟩ := pos
  obtain ⟨hrg, ho⟩ := mem_positions.mp hpos
  have hjumped : rg.jumped S.scanPredicates o = false := by
    rw [← not_eq_true, RowGroup.jumped, RowGroup.covers_iff]
    rintro ⟨j, hj, hlo, hhi⟩
    rw [hjumps rg hrg j hj (h.jump_wrong hrg ho hwanted hj hlo hhi) o ho hlo hhi] at hwanted
    cases hwanted
  have hkeeps : S.keeps D tx rg o := by
    rw [keeps]
    split
    · exact hwanted
    · exact admits_of_isVisible (and_eq_true_iff.mp hwanted).1
  rw [found, hjumped, hkeeps]
  rfl

/-- A row that is read is wanted if it is visible and meets the filters. -/
theorem wanted_of_found (hmatching : S.ReadsMatching D tx groups)
    (hvisible : S.ReadsVisible tx groups) (hpos : pos ∈ positions groups)
    (hfound : S.found D tx pos) : S.wanted D tx pos := by
  obtain ⟨rg, o⟩ := pos
  obtain ⟨hrg, ho⟩ := mem_positions.mp hpos
  obtain ⟨hjumped, hkeeps⟩ := and_eq_true_iff.mp hfound
  rw [not_eq_true'] at hjumped
  rw [keeps] at hkeeps
  split at hkeeps
  next => exact hkeeps
  next hpayload =>
    rw [Classical.not_not] at hpayload
    exact and_eq_true_iff.mpr ⟨hvisible hpayload rg hrg o ho hjumped hkeeps,
      hmatching hpayload rg hrg o ho hjumped hkeeps⟩

/-- The filters see no more of a row than what the scan returns. -/
theorem Scans.matching_eq (h : S.Scans D tx types groups) {rg' : RowGroup} {o' : ℕ}
    (hrg : rg ∈ groups) (hrg' : rg' ∈ groups)
    (hrow : rg.row S.columnIds o = rg'.row S.columnIds o') :
    S.matching D rg o = S.matching D rg' o' := by
  have hscalars : S.scalars rg o = S.scalars rg' o' := by
    funext p
    rw [scalars, scalars]
    cases hp : S.columnIds[p]? with
    | none => rfl
    | some c =>
      have hcell := congrArg (·[p]?) hrow
      simp only [RowGroup.row, getElem?_map, hp, map_some, some.injEq] at hcell
      have htype : rg.colType c = rg'.colType c := by
        rw [RowGroup.colType, RowGroup.colType, (h.readable rg hrg).colTypes,
          (h.readable rg' hrg').colTypes]
      rw [map_some, map_some, hcell, htype]
  refine congrArg (all _) (funext fun f => ?_)
  rw [passes, passes, hscalars]

/-- A scan that is right reads rows that meet the filters: each is a wanted row. -/
theorem Scans.readsMatching_of_perm (h : S.Scans D tx types groups)
    (hperm : (S.rowsWhere groups (S.found D tx)).Perm (S.rowsWhere groups (S.wanted D tx))) :
    S.ReadsMatching D tx groups := by
  intro hpayload rg hrg o ho hjumped hadmits
  have hfound : S.found D tx (rg, o) := by
    rw [found, hjumped, keeps, if_neg (not_not.mpr hpayload)]
    exact hadmits
  have hmem : rg.row S.columnIds o ∈ S.rowsWhere groups (S.found D tx) :=
    mem_map.mpr ⟨(rg, o), mem_filter.mpr ⟨mem_positions.mpr ⟨hrg, ho⟩, hfound⟩, rfl⟩
  obtain ⟨⟨rg', o'⟩, hpos', hrow⟩ := mem_map.mp (hperm.mem_iff.mp hmem)
  obtain ⟨hpos', hwanted⟩ := mem_filter.mp hpos'
  rw [h.matching_eq hrg (mem_positions.mp hpos').1 hrow.symm]
  exact (and_eq_true_iff.mp hwanted).2

theorem jumpsRight_of_found (h : ∀ pos ∈ positions groups, S.wanted D tx pos → S.found D tx pos) :
    S.JumpsRight D tx groups := by
  intro rg hrg j hj _ o ho hlo hhi
  rw [← not_eq_true]
  intro hwanted
  have hfound := h (rg, o) (mem_positions.mpr ⟨hrg, ho⟩) hwanted
  have hjumped : rg.jumped S.scanPredicates o = true := RowGroup.covers_iff.mpr ⟨j, hj, hlo, hhi⟩
  rw [found, hjumped] at hfound
  cases hfound

theorem readsVisible_of_wanted
    (h : ∀ pos ∈ positions groups, S.found D tx pos → S.wanted D tx pos) :
    S.ReadsVisible tx groups := by
  intro hpayload rg hrg o ho hjumped hadmits
  have hfound : S.found D tx (rg, o) := by
    rw [found, hjumped, keeps, if_neg (not_not.mpr hpayload)]
    exact hadmits
  exact (and_eq_true_iff.mp (h (rg, o) (mem_positions.mpr ⟨hrg, ho⟩) hfound)).1

theorem Scans.rowsWhere_eq (h : S.Scans D tx types groups) (hjumps : S.JumpsRight D tx groups)
    (hmatching : S.ReadsMatching D tx groups) (hvisible : S.ReadsVisible tx groups) :
    S.rowsWhere groups (S.found D tx) = S.rowsWhere groups (S.wanted D tx) := by
  refine congrArg (map _) (filter_congr fun pos hpos => eq_iff_iff.mpr ⟨?_, ?_⟩)
  · exact wanted_of_found hmatching hvisible hpos
  · exact h.found_of_wanted hjumps hpos

/-- What follows from the right rows in any order. -/
theorem Scans.of_perm (h : S.Scans D tx types groups)
    (hperm : (S.rowsWhere groups (S.found D tx)).Perm (S.rowsWhere groups (S.wanted D tx))) :
    S.ReadsMatching D tx groups ∧ (S.JumpsRight D tx groups ↔ S.ReadsVisible tx groups) := by
  have hmatching := h.readsMatching_of_perm hperm
  have hlen : ((positions groups).filter (S.found D tx)).length =
      ((positions groups).filter (S.wanted D tx)).length := by
    simpa [rowsWhere] using hperm.length_eq
  refine ⟨hmatching, fun hjumps => ?_, fun hvisible => ?_⟩
  · exact readsVisible_of_wanted fun pos hpos => Bags.filter_of_length_eq
      (fun pos hpos => h.found_of_wanted hjumps hpos) hlen.symm hpos
  · exact jumpsRight_of_found fun pos hpos => Bags.filter_of_length_eq
      (fun pos hpos => wanted_of_found hmatching hvisible hpos) hlen hpos

/-- **A scan returns what it should** if no zone map of another column skips a wanted row, and
every row that is read without looking at the filters is visible and meets them. A scan that
returns what it should only reads rows that meet the filters, and the other two conditions
hold together or fail together: a row that is missed can only be made up for by an invisible
row with the same values. -/
theorem scansExactly_conditions (h : S.Scans D tx types groups) :
    (S.JumpsRight D tx groups ∧ S.ReadsMatching D tx groups ∧ S.ReadsVisible tx groups →
      S.ScansExactly D tx groups) ∧
    (S.ScansExactly D tx groups → S.ReadsMatching D tx groups ∧
      (S.JumpsRight D tx groups ↔ S.ReadsVisible tx groups)) := by
  rw [scansExactly_iff_rows h]
  exact ⟨fun hok => h.rowsWhere_eq hok.1 hok.2.1 hok.2.2, fun heq => h.of_perm (.of_eq heq)⟩

/-- **Late materialisation keeps rows aligned**: a batch of the filter columns has the offsets
that a batch of the payload columns would have, and `ScanLate` at a selection of them returns
the rows of that batch at these offsets. -/
theorem scanLate_aligned {rg : RowGroup} (h : rg.Readable) {filterCols payloadCols : List ℕ}
    (hfilter : rg.HasColumns filterCols) (hpayload : rg.HasColumns payloadCols) {rowOffset : ℕ}
    (hoffset : rowOffset < rg.rowCount) (tx : Snapshot) :
    ∃ early full offsets, ∃ rowAt : ℕ → Row, offsets.Pairwise (· < ·) ∧
      rg.scanBatchWithOffsets rowOffset filterCols tx = some (early, offsets) ∧
      rg.scanBatchWithOffsets rowOffset payloadCols tx = some (full, offsets) ∧
      full.Holds (payloadCols.map rg.colType) (offsets.map rowAt) ∧
      ∀ sel, sel.Sublist offsets → ∃ late, rg.scanLate sel payloadCols = some late ∧
        late.Holds (payloadCols.map rg.colType) (sel.map rowAt) := by
  obtain ⟨early, hearly, -⟩ := h.scanBatchWithOffsets hoffset hfilter tx
  obtain ⟨full, hfull, hrows⟩ := h.scanBatchWithOffsets hoffset hpayload tx
  have hsorted : ((rg.batchRows rowOffset).filter fun o => rg.versionInfo.isVisible o tx).Pairwise
      (· < ·) := (pairwise_lt_range' ..).filter _
  refine ⟨early, full, _, _, hsorted, hearly, hfull, hrows, fun sel hsel => ?_⟩
  refine h.scanLate (hsorted.sublist hsel) (fun o ho => ?_) ?_ hpayload
  · obtain ⟨-, hlt⟩ := mem_range'_1.mp (mem_of_mem_filter (hsel.subset ho))
    omega
  · have hle := hrows.count_le
    rw [hrows.count, length_map] at hle
    exact hsel.length_le.trans hle

/-! ### Tables of integers -/

/-- A scan of the first columns, with the filter that the first one is equal to a number. -/
def firstIs (x : Int64) (columns : ℕ) : TableScan :=
  { columnIds := range columns
    pushedFilters := [.binaryOp .boolean .eq (.columnRef .int64 0) (.literal .int64 (.integer x) false)]
    outputTypes := (range columns).map fun _ => .int64 }

theorem scans_firstIs {n : ℕ} {x : Int64} (hn : 0 < n)
    (hread : ∀ rg ∈ groups, rg.ReadableAs (replicate n .int64))
    (hstats : ∀ rg ∈ groups, rg.StatsBound)
    (heval : ∀ rg ∈ groups, ∀ o < rg.rowCount, ∀ f ∈ (firstIs x n).pushedFilters,
      (f.holds D ((firstIs x n).scalars rg o)).any Except.isOk) :
    (firstIs x n).Scans D tx (replicate n .int64) groups := by
  refine ⟨⟨fun c hc => ?_, ?_, fun f hf p hp => ?_, fun pred hpred => ?_⟩, hread, hstats,
    fun rg hrg o ho _ f hf => ?_⟩
  · rw [length_replicate]
    exact mem_range.mp hc
  · refine map_congr_left fun c hc => ?_
    rw [getD_eq_getElem?_getD, getElem?_replicate, if_pos (mem_range.mp hc)]
    rfl
  · obtain rfl := mem_singleton.mp hf
    obtain rfl := mem_singleton.mp hp
    rwa [firstIs, length_range]
  · obtain rfl := mem_singleton.mp hpred
    rfl
  · have hok := heval rg hrg o ho f hf
    match hres : f.holds D ((firstIs x n).scalars rg o), hok with
    | some (.ok b), _ => exact ⟨b, rfl⟩

/-- Double arithmetic that is not used. -/
def noDoubles : DoubleOps :=
  { add := fun _ _ => 0, sub := fun _ _ => 0, mul := fun _ _ => 0, div := fun _ _ => 0
    neg := fun _ => 0, ofInt := fun _ => 0, toInt := fun _ => none }

/-- A row group with one row, still pending. -/
def oneRow (xs : List Int64) : RowGroup :=
  { rowGroupId := 0, colTypes := replicate xs.length .int64
    columnChunks := xs.map pendingOne, rowCount := 1 }

/-- A row group with one row in segments and one pending row. -/
def twoRows (rows : List (UInt8 × Int64)) : RowGroup :=
  { rowGroupId := 0, colTypes := replicate rows.length .int64
    columnChunks := rows.map fun x =>
      { type := .int64, blockSize := 64, pendingRowOffset := 1, pendingData := oneInt x.2
        segments := [{ block := rowBlock x.1, compression := .rle, columnType := .int64
                       rowCount := 1, rowOffset := 0 }] }
    rowCount := 2 }

theorem readable_of_pending {cc : ColumnChunk} {x : Int64} (hpending : cc.pendingData = oneInt x)
    (htype : cc.type = .int64) (hsegs : ∀ seg ∈ cc.segments, seg.rowCount = 1 ∧
      ∃ y, decompress seg.block .int64 = some (oneInt y)) : cc.Readable := by
  have hvalid : ∀ (x : Int64) (i : ℕ), (oneInt x).isNull i = !decide (i = 0) := by
    intro x i
    simp [oneInt, DataVector.isNull, BitVec.getLsbD_one, standardVectorSize]
  have htidy : (oneInt x).Tidy := by
    refine ⟨TypeId.StorageClass.noConfusion, fun i hi => ?_, le_rfl⟩
    have hne : i ≠ 0 := Nat.ne_of_gt hi
    simp [hvalid, hne]
  refine ⟨by rw [htype]; decide, fun seg hseg => ?_, by rw [hpending, htype]; rfl,
    by rw [hpending]; exact Nat.one_le_two_pow (n := 10), by rwa [hpending]⟩
  obtain ⟨hcount, y, hy⟩ := hsegs seg hseg
  refine ⟨oneInt y, htype ▸ hy, by rw [htype]; rfl, hcount.le, by rw [hcount]; decide, ?_⟩
  intro i hi
  obtain rfl : i = 0 := by omega
  exact ⟨some (.int y), by rw [DataVector.cell?, hvalid]; rfl⟩

theorem readable_oneRow (xs : List Int64) : (oneRow xs).ReadableAs (replicate xs.length .int64) := by
  refine ⟨⟨?_, by simp [oneRow]⟩, rfl⟩
  rw [oneRow, ← map_const', forall₂_map_left_iff, forall₂_map_right_iff, forall₂_same]
  exact fun x _ => ⟨rfl, readable_of_pending rfl rfl fun seg hseg => (by cases hseg), rfl⟩

theorem readable_twoRows {rows : List (UInt8 × Int64)}
    (h : ∀ x ∈ rows, ∃ y, decompress (rowBlock x.1) .int64 = some (oneInt y)) :
    (twoRows rows).ReadableAs (replicate rows.length .int64) := by
  refine ⟨⟨?_, by simp [twoRows]⟩, rfl⟩
  rw [twoRows, ← map_const', forall₂_map_left_iff, forall₂_map_right_iff, forall₂_same]
  exact fun x hx =>
    ⟨rfl, readable_of_pending rfl rfl (forall_mem_singleton.mpr ⟨rfl, h x hx⟩), rfl⟩

theorem statsBound_of_null {rg : RowGroup}
    (h : ∀ cc ∈ rg.columnChunks, ∀ seg ∈ cc.segments, seg.stats.minVal.isNull = true) :
    rg.StatsBound := by
  intro cc hcc seg hseg hmin
  rw [h cc hcc seg hseg] at hmin
  cases hmin

/-- The rows `(5, 7)` and `(6, 8)`, the first of them in segments. -/
def fiveSix : RowGroup := twoRows [(5, 6), (7, 8)]

theorem readable_fiveSix : fiveSix.ReadableAs [.int64, .int64] :=
  readable_twoRows (forall_mem_cons.mpr ⟨⟨5, by decide +kernel⟩,
    forall_mem_singleton.mpr ⟨7, by decide +kernel⟩⟩)

theorem scans_fiveSix : (firstIs 6 2).Scans noDoubles ⟨1, 0⟩ [.int64, .int64] [fiveSix] :=
  @scans_firstIs noDoubles ⟨1, 0⟩ [fiveSix] 2 6 (by decide)
    (forall_mem_singleton.mpr readable_fiveSix)
    (forall_mem_singleton.mpr (statsBound_of_null (by decide +kernel))) (by decide +kernel)

/-- The second row is found by its first column, and the first one is not. -/
theorem scansExactly_second_row : (firstIs 6 2).Scans noDoubles ⟨1, 0⟩ [.int64, .int64] [fiveSix] ∧
    (firstIs 6 2).ScansExactly noDoubles ⟨1, 0⟩ [fiveSix] ∧
    (firstIs 6 2).rowsWhere [fiveSix] ((firstIs 6 2).wanted noDoubles ⟨1, 0⟩) =
      [[some (.int 6), some (.int 8)]] := by
  have hpayload : (firstIs 6 2).payloadColIds ≠ [] := by decide +kernel
  refine ⟨scans_fiveSix, (scansExactly_conditions scans_fiveSix).1 ⟨fun rg hrg j hj => ?_,
    fun h => absurd h hpayload, fun h => absurd h hpayload⟩, by decide +kernel⟩
  obtain rfl := mem_singleton.mp hrg
  have hnone : fiveSix.jumps (firstIs 6 2).scanPredicates = [] := by decide +kernel
  rw [hnone] at hj
  cases hj

theorem scans_oneRow {xs : List Int64} {x : Int64} (hxs : 0 < xs.length)
    (heval : ∀ f ∈ (firstIs x xs.length).pushedFilters,
      (f.holds D ((firstIs x xs.length).scalars (oneRow xs) 0)).any Except.isOk) :
    (firstIs x xs.length).Scans D tx (replicate xs.length .int64) [oneRow xs] := by
  refine scans_firstIs hxs (forall_mem_singleton.mpr (readable_oneRow xs))
    (forall_mem_singleton.mpr (statsBound_of_null fun cc hcc seg hseg => ?_))
    (forall_mem_singleton.mpr fun o ho => ?_)
  · obtain ⟨x, -, rfl⟩ := mem_map.mp hcc
    cases hseg
  · obtain rfl : o = 0 := Nat.lt_one_iff.mp ho
    exact heval

/-- The row 5 of a table with one column is returned by the scan for 1. -/
theorem scan_ignores_filter : (firstIs 1 1).Scans noDoubles ⟨1, 0⟩ [.int64] [oneRow [5]] ∧
      ¬ (firstIs 1 1).ScansExactly noDoubles ⟨1, 0⟩ [oneRow [5]] := by
  have hscans : (firstIs 1 1).Scans noDoubles ⟨1, 0⟩ [.int64] [oneRow [5]] :=
    @scans_oneRow noDoubles ⟨1, 0⟩ [5] 1 (by decide) (by decide +kernel)
  refine ⟨hscans, ?_⟩
  rw [scansExactly_iff_rows hscans]
  decide +kernel

/-- Of a batch of both rows the second column is read for the pending row only. -/
theorem scanLate_second_row : ∃ full late,
    fiveSix.scanBatchWithOffsets 0 [1] ⟨1, 0⟩ = some (full, [0, 1]) ∧
      fiveSix.scanLate [1] [1] = some late ∧ late.Holds [.int64] [[some (.int 8)]] := by
  obtain ⟨_, full, offsets, rowAt, _, _, hfull, hholds, h⟩ := scanLate_aligned
    readable_fiveSix.readable
    (show ∀ c ∈ [0], c < 2 by decide) (show ∀ c ∈ [1], c < 2 by decide) (by decide : 0 < 2) ⟨1, 0⟩
  have hcells : (fiveSix.scanBatchWithOffsets 0 [1] ⟨1, 0⟩).map (fun out =>
      (out.2, out.1.columns.map (·.cell? 1))) = some ([0, 1], [some (some (.int 8))]) := by
    decide +kernel
  rw [hfull] at hcells
  obtain ⟨rfl, hcell⟩ := Prod.mk.inj (Option.some.inj hcells)
  have hrow : rowAt 1 = [some (.int 8)] :=
    map_injective_iff.mpr (some_injective _) ((hholds.cells 1 (rowAt 1) rfl).symm.trans hcell)
  obtain ⟨late, hlate, hrows⟩ := h [1] (by simp)
  rw [map_singleton, map_singleton, hrow] at hrows
  exact ⟨full, late, hfull, hlate, hrows⟩

end TableScan

end CppColDB
