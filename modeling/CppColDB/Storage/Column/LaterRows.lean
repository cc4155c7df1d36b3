import CppColDB.Storage.Column.Alignment
import CppColDB.Storage.Column.Reading
import CppColDB.Transaction.Manager

/-!
# Writes and the rows after them

A segment is compressed as a whole, so a write to one of its rows can change how the others
are read. Writes to rows before `stop` leave what is read from `stop` on if no segment reaches
over `stop` (`sameAfter_writeRows`).
-/

namespace CppColDB

namespace DataVector

/-- Vectors that differ before row `k` only. -/
structure AgreesFrom (k : ℕ) (v v' : DataVector) : Prop where
  type : v'.type = v.type
  count : v'.count = v.count
  size : v'.size = v.size
  validity : ∀ i, k ≤ i → v'.validity.getLsbD i = v.validity.getLsbD i
  intData : v'.intData.drop k = v.intData.drop k
  floatData : v'.floatData.drop k = v.floatData.drop k
  strData : v'.strData.drop k = v.strData.drop k

variable {k idx srcIdx : ℕ} {type : TypeId} {v v' v'' src dst : DataVector}

theorem AgreesFrom.refl (k : ℕ) (v : DataVector) : AgreesFrom k v v :=
  ⟨rfl, rfl, rfl, fun _ _ => rfl, rfl, rfl, rfl⟩

theorem AgreesFrom.trans (h : AgreesFrom k v v') (h' : AgreesFrom k v' v'') : AgreesFrom k v v'' :=
  ⟨h'.type.trans h.type, h'.count.trans h.count, h'.size.trans h.size,
    fun i hi => (h'.validity i hi).trans (h.validity i hi), h'.intData.trans h.intData,
    h'.floatData.trans h.floatData, h'.strData.trans h.strData⟩

theorem agreesFrom_put (hidx : idx < k) (b : Bool) :
    AgreesFrom k v { v with validity := v.validity.put idx b } := by
  refine ⟨rfl, rfl, rfl, fun i hi => ?_, rfl, rfl, rfl⟩
  have hne : idx ≠ i := by omega
  rw [Validity.getLsbD_put, if_neg fun h => hne h.1]

theorem agreesFrom_store (hidx : idx < k) {x : Datum} (h : v.store idx x = some v') :
    AgreesFrom k v v' := by
  cases x <;>
  · rw [store] at h
    split at h
    · cases h
      refine ⟨rfl, rfl, funext fun cls => ?_, fun _ _ => rfl, ?_, ?_, ?_⟩
      · cases cls <;> simp [size]
      all_goals first | rfl | exact List.drop_set_of_lt hidx
    · cases h

/-- An overwritten row is the only one that changes. -/
theorem agreesFrom_writeValue (hidx : idx < k) (h : v.writeValue type idx src srcIdx = some v') :
    AgreesFrom k v v' := by
  rw [writeValue] at h
  split at h
  · cases h
  · split at h
    · cases h
      exact agreesFrom_put hidx false
    · have hput : AgreesFrom k v { v with validity := v.validity.put idx true } :=
        agreesFrom_put hidx true
      cases hcls : type.storageClass <;> simp only [hcls] at h
      case none =>
        cases h
        exact hput
      all_goals
        obtain ⟨x, -, hstore⟩ := Option.bind_eq_some_iff.mp h
        exact hput.trans (agreesFrom_store hidx hstore)

theorem drop_eq_of_le {α : Type} {xs ys : List α} {k n : ℕ} (h : xs.drop k = ys.drop k)
    (hn : k ≤ n) : xs.drop n = ys.drop n := by
  obtain ⟨m, rfl⟩ := Nat.exists_eq_add_of_le hn
  rw [← List.drop_drop, ← List.drop_drop, h]

/-- Copying rows that have not changed. -/
theorem AgreesFrom.bulkCopyRows_eq (h : AgreesFrom k v v') {srcStart n : ℕ}
    (hstart : k ≤ srcStart) : dst.bulkCopyRows v' srcStart n = dst.bulkCopyRows v srcStart n := by
  have hbits : ∀ j, v'.validity.getLsbD (srcStart + j) = v.validity.getLsbD (srcStart + j) :=
    fun j => h.validity _ (by omega)
  have hint : v'.intData.length = v.intData.length := congrFun h.size .int
  have hfloat : v'.floatData.length = v.floatData.length := congrFun h.size .float
  have hstr : v'.strData.length = v.strData.length := congrFun h.size .str
  simp only [bulkCopyRows, hbits, h.type, hint, hfloat, hstr, drop_eq_of_le h.intData hstart,
    drop_eq_of_le h.floatData hstart, drop_eq_of_le h.strData hstart]

end DataVector

namespace ColumnChunk

open DataVector Imp List

variable {cc cc' : ColumnChunk} {src : DataVector} {stop start cur : ℕ} {res : Except Error Unit}

/-- No segment of the given lengths reaches over row `stop`. -/
def splitsAt : List ℕ → ℕ → Bool
  | [], _ => true
  | n :: ns, stop => if n ≤ stop then splitsAt ns (stop - n) else decide (stop = 0)

/-- No segment reaches over row `stop`. -/
def SplitsAt (cc : ColumnChunk) (stop : ℕ) : Prop :=
  splitsAt (cc.segments.map ColumnSegment.rowCount) stop

instance (cc : ColumnChunk) (stop : ℕ) : Decidable (cc.SplitsAt stop) :=
  inferInstanceAs (Decidable (_ = true))

/-- A column in which at most the rows before `stop` have changed. -/
structure SameAfter (stop : ℕ) (cc cc' : ColumnChunk) : Prop where
  counts : cc'.segments.map ColumnSegment.rowCount = cc.segments.map ColumnSegment.rowCount
  scan : ∀ start, stop ≤ start → ∀ count, cc'.scan start count = cc.scan start count

theorem SameAfter.refl (stop : ℕ) (cc : ColumnChunk) : SameAfter stop cc cc :=
  ⟨rfl, fun _ _ _ => rfl⟩

theorem SameAfter.trans {cc'' : ColumnChunk} (h : SameAfter stop cc cc')
    (h' : SameAfter stop cc' cc'') : SameAfter stop cc cc'' :=
  ⟨h'.counts.trans h.counts, fun start hstart count =>
    (h'.scan start hstart count).trans (h.scan start hstart count)⟩

theorem SameAfter.splitsAt_iff (h : SameAfter stop cc cc') (k : ℕ) :
    cc'.SplitsAt k ↔ cc.SplitsAt k := by
  rw [SplitsAt, SplitsAt, h.counts]

/-- A scan looks at the type and the pending rows of the column. -/
theorem scanFrom_congr (htype : cc'.type = cc.type) (hpending : cc'.pendingData = cc.pendingData)
    (segs : List ColumnSegment) (row count : ℕ) (out : DataVector) :
    cc'.scanFrom segs row count out = cc.scanFrom segs row count out := by
  induction segs generalizing row count out with
  | nil => rw [scanFrom, scanFrom, hpending]
  | cons seg segs ih => simp only [scanFrom, htype, ih]

/-- The segments that hold rows before `stop` are the only ones that are written, and a scan
from `stop` on goes past them. -/
theorem seek_writeRowsIn {segs segs' : List ColumnSegment} {last : ℕ}
    {writes rest : List (ℕ × ℕ)} (h : cc.writeRowsIn src segs cur writes = some (segs', last, rest))
    (hsorted : writes.Pairwise fun a b => a.1 ≤ b.1) (hge : ∀ w ∈ writes, cur ≤ w.1)
    (hlt : ∀ w ∈ writes, w.1 < stop)
    (hsplit : splitsAt (segs.map ColumnSegment.rowCount) (stop - cur)) (hstart : stop ≤ start) :
    seek segs' (start - cur) = seek segs (start - cur) ∧ (∀ w ∈ rest, last ≤ w.1 ∧ w.1 < stop) ∧
      (rest ≠ [] → seek segs (start - cur) = ([], start - last)) := by
  induction segs generalizing segs' cur last writes rest with
  | nil =>
    cases h
    exact ⟨rfl, fun w hw => ⟨hge w hw, hlt w hw⟩, fun _ => rfl⟩
  | cons seg segs ih =>
    by_cases hempty : writes.isEmpty
    · rw [writeRowsIn, if_pos hempty] at h
      cases h
      exact ⟨rfl, fun w hw => absurd hw not_mem_nil, fun hne => absurd rfl hne⟩
    obtain ⟨seg', segs₁, rfl, hseg, hrun⟩ := exists_of_writeRowsIn hempty h
    obtain ⟨w, hw⟩ : ∃ w, w ∈ writes := exists_mem_of_ne_nil _ fun hnil => hempty (hnil ▸ rfl)
    have hcur : cur < stop := (hge w hw).trans_lt (hlt w hw)
    rw [map_cons, splitsAt] at hsplit
    split at hsplit
    next hfit =>
      have hcount : seg'.rowCount = seg.rowCount := by
        rcases hseg with rfl | ⟨-, hre⟩
        · rfl
        · exact rowCount_rewriteSegment hre
      have hsub : (writes.dropWhile fun w => w.1 < cur + seg.rowCount) ⊆ writes :=
        (dropWhile_sublist _).subset
      obtain ⟨hseek, hrest, hend⟩ := ih hrun (hsorted.sublist (dropWhile_sublist _))
        (fun w hw => le_of_mem_dropWhile hsorted hw)
        (fun w hw => hlt w (hsub hw)) (by rwa [Nat.sub_add_eq])
      have hpast : ¬ start - cur < seg.rowCount := by omega
      rw [seek, seek, hcount, if_neg hpast, if_neg hpast, ← Nat.sub_add_eq]
      exact ⟨hseek, hrest, hend⟩
    next => exact absurd (of_decide_eq_true hsplit) (by omega)

/-- Writes to pending rows. -/
theorem agreesFrom_writePending {rest : List (ℕ × ℕ)} (hrest : ∀ w ∈ rest, cur ≤ w.1 ∧ w.1 < stop)
    (h : forEach rest (writePending cur src) cc = some (res, cc')) :
    cc'.type = cc.type ∧ cc'.segments = cc.segments ∧
      AgreesFrom (stop - cur) cc.pendingData cc'.pendingData := by
  have hkeep : Keeps (fun c : ColumnChunk => c.type = cc.type ∧ c.segments = cc.segments ∧
      AgreesFrom (stop - cur) cc.pendingData c.pendingData)
      (forEach rest (writePending cur src)) := by
    refine Keeps.forEach fun w hw => Keeps.of_run ?_
    intro c res' c' hc hrun
    rcases writePending_cases hrun with rfl | ⟨_, _, p, hv, rfl⟩
    · exact hc
    · have hidx : w.1 - cur < stop - cur := by
        have := hrest w hw
        omega
      exact ⟨hc.1, hc.2.1, hc.2.2.trans (agreesFrom_writeValue hidx hv)⟩
  exact hkeep.run ⟨rfl, rfl, .refl _ _⟩ h

/-- **Writes to rows before `stop`** leave what is read from `stop` on, if no segment reaches
over it. -/
theorem sameAfter_writeRows {rowOffsets : List ℕ}
    (h : writeRows rowOffsets src cc = some (res, cc')) (hlt : ∀ o ∈ rowOffsets, o < stop)
    (hsplit : cc.SplitsAt stop) : SameAfter stop cc cc' := by
  rcases writeRows_cases h with rfl | ⟨hchain, segments, cur, rest, hin, hrun⟩
  · exact .refl _ _
  have hmem : ∀ w ∈ rowOffsets.zipIdx, w.1 < stop := fun w hw =>
    hlt w.1 (fst_mem_of_mem_zipIdx hw)
  have hsorted : rowOffsets.zipIdx.Pairwise fun a b => a.1 ≤ b.1 := by
    rw [← pairwise_map, zipIdx_map_fst]
    exact isChain_iff_pairwise.mp hchain
  have hseek := fun start (hstart : stop ≤ start) => seek_writeRowsIn hin hsorted
    (fun _ _ => Nat.zero_le _) hmem hsplit hstart
  obtain ⟨htype, hsegments, hpending⟩ := agreesFrom_writePending (hseek stop le_rfl).2.1 hrun
  refine ⟨by rw [hsegments, segmentRowCount_writeRowsIn hin], fun start hstart count => ?_⟩
  obtain ⟨hsame, -, hend⟩ := hseek start hstart
  rw [Nat.sub_zero] at hsame hend
  rw [scan, scan, hsegments, hsame, htype]
  by_cases hnil : rest = []
  · subst hnil
    cases hrun
    exact @scanFrom_congr cc { cc with segments } rfl rfl _ _ _ _
  · -- the scan begins in the pending rows, past those that are written
    rw [hend hnil]
    simp only [scanFrom, hpending.count]
    rw [hpending.bulkCopyRows_eq (by omega)]

end ColumnChunk

end CppColDB
