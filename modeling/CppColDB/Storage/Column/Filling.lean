import CppColDB.Storage.Column.Alignment

/-!
# Filling empty columns

The rows of one vector appended to a column that has none. `BulkCopyRows` takes the array of
the source's type; of a source that stores its elements elsewhere than the column, only the
NULLs arrive.
-/

namespace CppColDB

open List Option SegmentStats

/-- A loop whose rounds are defined whatever came before. -/
theorem isSome_foldlM_iff {σ α : Type} {f : σ → α → Option σ} {p : α → Prop}
    (hf : ∀ s a, (f s a).isSome ↔ p a) {l : List α} {s : σ} :
    (l.foldlM f s).isSome ↔ ∀ a ∈ l, p a := by
  induction l generalizing s with
  | nil => simp
  | cons a l ih =>
    rw [foldlM_cons, forall_mem_cons, ← hf s a]
    cases f s a with
    | none => simp
    | some s' => simpa using ih

namespace DataVector

variable {vec p : DataVector} {type : TypeId} {n o : ℕ}

/-- Row `o` of a vector as a column of the given type stores it; `none` if the column has no
value to return for it. -/
def storedCell (type : TypeId) (vec : DataVector) (o : ℕ) : Option Cell :=
  if vec.isNull o then some none
  else if vec.type.storageClass = type.storageClass then
    (vec.load type.storageClass o).map some
  else none

/-- Copying into an empty vector. -/
theorem load_copy_reset (h : (reset type 0).bulkCopyRows vec 0 n = some p) (ho : o < n) :
    p.load type.storageClass o =
      if vec.type.storageClass = type.storageClass then vec.load type.storageClass o else none := by
  rw [bulkCopyRows, reset_zero] at h
  split at h
  · cases h
  · cases hsrc : vec.type.storageClass <;> simp only [hsrc] at h
    case none =>
      cases h
      cases type.storageClass <;> rfl
    all_goals
      split at h <;> cases h
      cases type.storageClass <;> simp [load, resize, ho]

theorem cell?_copy_reset (h : (reset type 0).bulkCopyRows vec 0 n = some p) (ho : o < n) :
    p.cell? o = vec.storedCell type o := by
  have hnull : p.isNull o = vec.isNull o := by
    have hclear : ∀ i, (reset type 0).count ≤ i → (reset type 0).isNull i = true := by
      simp [isNull]
    rw [isNull_bulkCopyRows hclear h]
    simp [ho]
  have htype : p.type = type := by
    rw [(bulkCopyRows_fields h).1, reset_zero]
  rw [cell?, storedCell, hnull, datum?_eq_load, htype, load_copy_reset h ho]
  split
  · rfl
  · split <;> rfl

end DataVector

namespace ColumnChunk

variable {vec : DataVector} {type : TypeId} {blockSize n o : ℕ} {cc : ColumnChunk}

/-- The rows of a vector that are appended to an empty column fit into its pending rows: there
are validity bits for no more. -/
theorem appendLoop_empty (hn : 0 < n) : appendLoop vec n n 0 { type, blockSize } =
      ((DataVector.reset type 0).bulkCopyRows vec 0 n).map fun p =>
        { type, blockSize, pendingData := p } := by
  have hpending : (DataVector.reset type 0).count = 0 := by simp [DataVector.reset_zero]
  by_cases hle : n ≤ standardVectorSize
  · obtain ⟨fuel, rfl⟩ : ∃ fuel, n = fuel + 1 := ⟨n - 1, by omega⟩
    rw [appendLoop]
    simp only [bind_eq_bind, bind_some, hpending, Nat.sub_zero, min_eq_left hle,
      Nat.zero_add, appendLoop_self]
    cases (DataVector.reset type 0).bulkCopyRows vec 0 (fuel + 1) <;> rfl
  · have hcopy : (DataVector.reset type 0).bulkCopyRows vec 0 n = none := by
      rw [DataVector.bulkCopyRows, if_pos (.inl (by omega))]
    rw [hcopy]
    refine eq_none_iff_forall_ne_some.mpr fun cc h => ?_
    have hroom : ({ type, blockSize } : ColumnChunk).room = standardVectorSize := by
      rw [room, if_neg (by rw [hpending]; decide), hpending, Nat.sub_zero]
    obtain ⟨_, _, -, -, hcases⟩ := appendLoop_inv hn h
    rw [hroom] at hcases
    rcases hcases with ⟨hle', -⟩ | ⟨_, _, -, -, hcopy₂, -⟩
    · exact hle hle'
    · obtain ⟨-, -, hsrc, -⟩ := DataVector.bulkCopyRows_fields hcopy₂
      omega

/-- The column reads the rows of the vector within its arrays: those of the array of its own
type to copy them, and the values of the array of the column's type for the statistics. -/
structure Storable (type : TypeId) (vec : DataVector) (n : ℕ) : Prop where
  validity : n ≤ standardVectorSize
  array : vec.type.storageClass ≠ .none → n ≤ vec.size vec.type.storageClass
  stats : ∀ i < n, vec.isNull i = false → (valueAt type vec i).isSome

instance : Decidable (Storable type vec n) :=
  decidable_of_iff (n ≤ standardVectorSize ∧
      (vec.type.storageClass ≠ .none → n ≤ vec.size vec.type.storageClass) ∧
      ∀ i < n, vec.isNull i = false → (valueAt type vec i).isSome)
    ⟨fun h => ⟨h.1, h.2.1, h.2.2⟩, fun h => ⟨h.validity, h.array, h.stats⟩⟩

theorem isSome_bulkCopyRows_reset_iff :
    ((DataVector.reset type 0).bulkCopyRows vec 0 n).isSome ↔ n ≤ standardVectorSize ∧
      (vec.type.storageClass ≠ .none → n ≤ vec.size vec.type.storageClass) := by
  have hlimit : (standardVectorSize < 0 + n ∨ standardVectorSize < 0 + n) ↔
      ¬ n ≤ standardVectorSize := by omega
  rw [DataVector.bulkCopyRows, DataVector.reset_zero]
  simp only [hlimit]
  by_cases hn : n ≤ standardVectorSize
  · cases vec.type.storageClass with
    | none => simp [hn]
    | _ =>
      simp only [DataVector.size]
      split <;> simp_all
  · simp [hn]

theorem isSome_addRows_iff {stats : SegmentStats} : (stats.addRows type vec n).isSome ↔
      ∀ i < n, vec.isNull i = false → (valueAt type vec i).isSome := by
  have hstep : ∀ (stats : SegmentStats) (i : ℕ),
      (if vec.isNull i then some { stats with hasNulls := true }
        else (valueAt type vec i).map stats.add).isSome ↔
        (vec.isNull i = false → (valueAt type vec i).isSome) := by
    intro stats i
    cases hnull : vec.isNull i <;> simp
  rw [addRows, isSome_foldlM_iff hstep]
  simp only [mem_range]

theorem isSome_appendFromVector_empty_iff (hn : 0 < n) :
    (({ type, blockSize } : ColumnChunk).appendFromVector vec n).isSome ↔ Storable type vec n := by
  rw [appendFromVector, appendLoop_empty hn]
  cases hcopy : (DataVector.reset type 0).bulkCopyRows vec 0 n with
  | none =>
    refine iff_of_false (by simp) fun h => ?_
    have hsome : ((DataVector.reset type 0).bulkCopyRows vec 0 n).isSome :=
      isSome_bulkCopyRows_reset_iff.mpr ⟨h.validity, h.array⟩
    rw [hcopy] at hsome
    cases hsome
  | some p =>
    obtain ⟨hle, harray⟩ := isSome_bulkCopyRows_reset_iff.mp (isSome_of_eq_some hcopy)
    have hstats : (addRows type vec n {}).isSome ↔ _ := isSome_addRows_iff
    constructor
    · intro h
      refine ⟨hle, harray, hstats.mp ?_⟩
      cases haddRows : addRows type vec n {} with
      | none => simp [haddRows] at h
      | some stats => rfl
    · intro h
      obtain ⟨stats, haddRows⟩ := isSome_iff_exists.mp (hstats.mpr h.stats)
      simp [haddRows]

/-- **Filling an empty column.** -/
theorem cell?_appendFromVector_empty (hn : 0 < n)
    (h : ({ type, blockSize } : ColumnChunk).appendFromVector vec n = some cc) :
    cc.cell? o = if o < n then vec.storedCell type o else none := by
  obtain ⟨cc₁, hloop, hstats⟩ := bind_eq_some_iff.mp h
  obtain ⟨stats, -, hcc⟩ := bind_eq_some_iff.mp hstats
  cases hcc
  rw [appendLoop_empty hn] at hloop
  obtain ⟨p, hp, rfl⟩ := map_eq_some_iff.mp hloop
  have hcount : p.count = n := by
    rw [(DataVector.bulkCopyRows_fields hp).2.1, DataVector.reset_zero, zero_add]
  show (if o < p.count then p.cell? o else none) = _
  rw [hcount]
  split
  next ho => exact DataVector.cell?_copy_reset hp ho
  next => rfl

end ColumnChunk

namespace RowGroup

variable {chunk : DataChunk} {colIds : List ℕ} {chunks chunks' : List ColumnChunk}

/-- Each named column took the vector at its position in the list, counted from `k` on, and
the others stayed. -/
structure Filled (chunk : DataChunk) (colIds : List ℕ) (k : ℕ)
    (chunks chunks' : List ColumnChunk) : Prop where
  length : chunks'.length = chunks.length
  named : ∀ (i c : ℕ), colIds[i]? = some c → ∃ (vec : DataVector) (cc cc' : ColumnChunk),
    chunk.columns[i + k]? = some vec ∧ chunks[c]? = some cc ∧
      cc.appendFromVector vec chunk.count = some cc' ∧ chunks'[c]? = some cc'
  others : ∀ c, c ∉ colIds → chunks'[c]? = chunks[c]?

/-- The column that the loop comes to, and the rest of the list. -/
theorem filled_cons_iff {colId k : ℕ} (hnot : colId ∉ colIds) :
    Filled chunk (colId :: colIds) k chunks chunks' ↔
      ∃ vec cc cc', chunk.columns[k]? = some vec ∧ chunks[colId]? = some cc ∧
        cc.appendFromVector vec chunk.count = some cc' ∧
        Filled chunk colIds (k + 1) (chunks.set colId cc') chunks' := by
  have hne : ∀ {i c : ℕ}, colIds[i]? = some c → colId ≠ c := fun hi heq =>
    hnot (heq ▸ mem_of_getElem? hi)
  constructor
  · intro h
    obtain ⟨vec, cc, cc', hvec, hcc, happend, hcc'⟩ := h.named 0 colId rfl
    rw [zero_add] at hvec
    refine ⟨vec, cc, cc', hvec, hcc, happend, by rw [length_set, h.length],
      fun i c hi => ?_, fun c hc => ?_⟩
    · rw [getElem?_set_ne (hne hi), ← add_assoc, add_right_comm]
      exact h.named (i + 1) c hi
    · by_cases heq : colId = c
      · subst heq
        rw [hcc', List.getElem?_set_self (List.getElem?_eq_some_iff.mp hcc).1]
      · rw [getElem?_set_ne heq]
        exact h.others c (by simp [Ne.symm heq, hc])
  · rintro ⟨vec, cc, cc', hvec, hcc, happend, h⟩
    have hhere := h.others colId hnot
    rw [List.getElem?_set_self (List.getElem?_eq_some_iff.mp hcc).1] at hhere
    refine ⟨by rw [h.length, length_set], fun i c hi => ?_, fun c hc => ?_⟩
    · cases i with
      | zero =>
        cases hi
        exact ⟨vec, cc, cc', by rwa [zero_add], hcc, happend, hhere⟩
      | succ i =>
        have hrest := h.named i c hi
        rwa [getElem?_set_ne (hne hi), ← add_assoc, add_right_comm] at hrest
    · obtain ⟨heq, hc⟩ := not_or.mp (mem_cons.not.mp hc)
      rw [h.others c hc, getElem?_set_ne (Ne.symm heq)]

/-- **The column loop of an append** that names no column twice. -/
theorem appendColumns_eq_some_iff (hnodup : colIds.Nodup) :
    appendColumns chunk colIds chunks = some chunks' ↔ Filled chunk colIds 0 chunks chunks' := by
  rw [appendColumns]
  generalize 0 = k
  induction colIds generalizing chunks k with
  | nil =>
    constructor
    · rintro ⟨⟩
      exact ⟨rfl, fun _ _ h => (by cases h), fun _ _ => rfl⟩
    · intro h
      exact congrArg some (ext_getElem? fun c => (h.others c not_mem_nil).symm)
  | cons colId colIds ih =>
    obtain ⟨hnot, hnodup⟩ := nodup_cons.mp hnodup
    rw [filled_cons_iff hnot, zipIdx_cons, foldlM_cons, bind_eq_bind, bind_eq_some_iff]
    constructor
    · rintro ⟨chunks₁, hfirst, hrest⟩
      obtain ⟨vec, hvec, hfirst⟩ := bind_eq_some_iff.mp hfirst
      obtain ⟨cc, hcc, hfirst⟩ := bind_eq_some_iff.mp hfirst
      obtain ⟨cc', happend, hfirst⟩ := bind_eq_some_iff.mp hfirst
      cases hfirst
      exact ⟨vec, cc, cc', hvec, hcc, happend, (ih hnodup _).mp hrest⟩
    · rintro ⟨vec, cc, cc', hvec, hcc, happend, hrest⟩
      refine ⟨chunks.set colId cc', ?_, (ih hnodup _).mpr hrest⟩
      simp [hvec, hcc, happend]

end RowGroup

end CppColDB
