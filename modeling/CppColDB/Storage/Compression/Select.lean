import Mathlib.Data.Nat.Size
import CppColDB.Storage.Compression.Segment

/-!
# What `SelectCompression` selects

The analysis loops over an integer column in terms of its values: whether they are all
equal, their least and greatest, and whether they ascend. `selectInt_of_spans` reads off
the chosen scheme from the distance between the least and the greatest value.
-/

namespace CppColDB

open Int64 List Option

/-- The non-NULL values of a column, as integers. -/
def valueSet (rows : List (Option Int64)) : Set ℤ :=
  {z | ∃ x : Int64, some x ∈ rows ∧ x.toInt = z}

/-- The values of the column lie between `lo` and `hi`, which are both among them. -/
structure Spans (rows : List (Option Int64)) (lo hi : ℤ) : Prop where
  least : IsLeast (valueSet rows) lo
  greatest : IsGreatest (valueSet rows) hi

/-- The non-NULL values never decrease from row to row. -/
def Ascending (rows : List (Option Int64)) : Prop :=
  rows.reduceOption.Pairwise fun x y => x.toInt ≤ y.toInt

variable {rows : List (Option Int64)} {lo hi : ℤ}

theorem Spans.unique {lo' hi' : ℤ} (h : Spans rows lo hi)
    (h' : Spans rows lo' hi') : lo = lo' ∧ hi = hi' :=
  ⟨h.least.unique h'.least, h.greatest.unique h'.greatest⟩

theorem Spans.le (h : Spans rows lo hi) : lo ≤ hi := h.least.2 h.greatest.1

theorem Spans.mem (h : Spans rows lo hi) {x : Int64}
    (hx : some x ∈ rows) : lo ≤ x.toInt ∧ x.toInt ≤ hi :=
  ⟨h.least.2 ⟨x, hx, rfl⟩, h.greatest.2 ⟨x, hx, rfl⟩⟩

/-! ## Identical values -/

theorem allIdenticalFrom_some_iff (first : Int64) (rows : List (Option Int64)) :
    allIdenticalFrom (some first) rows = true ↔ ∀ x, some x ∈ rows → x = first := by
  induction rows with
  | nil => simp [allIdenticalFrom]
  | cons row rows ih =>
    cases row with
    | none => simp [allIdenticalFrom, ih]
    | some v => by_cases hv : v = first <;> simp [allIdenticalFrom, ih]

theorem allIdentical_iff (rows : List (Option Int64)) :
    allIdentical rows = true ↔ ∀ x y, some x ∈ rows → some y ∈ rows → x = y := by
  induction rows with
  | nil => simp [allIdentical, allIdenticalFrom]
  | cons row rows ih =>
    cases row with
    | none => simpa [allIdentical, allIdenticalFrom] using ih
    | some v =>
      rw [allIdentical, allIdenticalFrom, allIdenticalFrom_some_iff]
      constructor
      · intro h x y hx hy
        have hall : ∀ z, some z ∈ some v :: rows → z = v := by
          intro z hz
          rcases mem_cons.mp hz with hz | hz
          · exact some.inj hz
          · exact h z hz
        rw [hall x hx, hall y hy]
      · intro h x hx
        exact h x v (mem_cons_of_mem _ hx) mem_cons_self

theorem spans_of_allIdentical (h : Spans rows lo hi) :
    allIdentical rows = true ↔ lo = hi := by
  obtain ⟨x, hx, hxlo⟩ := h.least.1
  obtain ⟨y, hy, hyhi⟩ := h.greatest.1
  rw [allIdentical_iff]
  constructor
  · intro hall
    rw [← hxlo, ← hyhi, hall x y hx hy]
  · intro heq a b ha hb
    have h1 := h.mem ha
    have h2 := h.mem hb
    apply toInt_inj.mp
    omega

/-! ## Bounds -/

/-- The running bounds of a column, from `mn` and `mx` on. -/
structure BoundsOf (mn mx : Int64) (rows : List (Option Int64)) (b : Int64 × Int64) : Prop where
  low : b.1 = mn ∨ some b.1 ∈ rows
  high : b.2 = mx ∨ some b.2 ∈ rows
  low_le : b.1.toInt ≤ mn.toInt
  le_high : mx.toInt ≤ b.2.toInt
  between : ∀ x, some x ∈ rows → b.1.toInt ≤ x.toInt ∧ x.toInt ≤ b.2.toInt

theorem ite_lt_cases (a b x y : Int64) : (if a < b then x else y) = x ∧ a.toInt ≤ b.toInt ∨
    (if a < b then x else y) = y ∧ b.toInt ≤ a.toInt := by
  split
  next hlt => exact .inl ⟨rfl, (lt_iff_toInt_lt.mp hlt).le⟩
  next hlt => exact .inr ⟨rfl, Int64.le_iff_toInt_le.mp (Int64.not_lt.mp hlt)⟩

theorem boundsOf_boundsFrom (mn mx : Int64) (rows : List (Option Int64)) :
    BoundsOf mn mx rows (boundsFrom (mn, mx) rows) := by
  induction rows generalizing mn mx with
  | nil => exact ⟨.inl rfl, .inl rfl, le_refl _, le_refl _, by simp⟩
  | cons row rows ih =>
    cases row with
    | none =>
      have h := ih mn mx
      exact ⟨h.low.imp_right (mem_cons_of_mem _),
        h.high.imp_right (mem_cons_of_mem _), h.low_le, h.le_high,
        fun x hx => h.between x ((mem_cons.mp hx).resolve_left nofun)⟩
    | some v =>
      have h : BoundsOf (if v < mn then v else mn) (if mx < v then v else mx) rows
          (boundsFrom (mn, mx) (some v :: rows)) := ih _ _
      have hmn := ite_lt_cases v mn v mn
      have hmx := ite_lt_cases mx v v mx
      obtain ⟨hlow, hhigh, hlow_le, hle_high, hbetween⟩ := h
      refine ⟨?_, ?_, ?_, ?_, ?_⟩
      · rcases hlow with hb | hb
        · rcases hmn with ⟨hm, -⟩ | ⟨hm, -⟩
          · exact .inr (by rw [hb, hm]; exact mem_cons_self)
          · exact .inl (by rw [hb, hm])
        · exact .inr (mem_cons_of_mem _ hb)
      · rcases hhigh with hb | hb
        · rcases hmx with ⟨hm, -⟩ | ⟨hm, -⟩
          · exact .inr (by rw [hb, hm]; exact mem_cons_self)
          · exact .inl (by rw [hb, hm])
        · exact .inr (mem_cons_of_mem _ hb)
      · rcases hmn with ⟨hm, hle⟩ | ⟨hm, hle⟩ <;> rw [hm] at hlow_le <;> omega
      · rcases hmx with ⟨hm, hle⟩ | ⟨hm, hle⟩ <;> rw [hm] at hle_high <;> omega
      · intro x hx
        rcases mem_cons.mp hx with hx | hx
        · cases hx
          constructor
          · rcases hmn with ⟨hm, hle⟩ | ⟨hm, hle⟩ <;> rw [hm] at hlow_le <;> omega
          · rcases hmx with ⟨hm, hle⟩ | ⟨hm, hle⟩ <;> rw [hm] at hle_high <;> omega
        · exact hbetween x hx

/-- Unless all values agree, the loop's bounds are the least and the greatest value. -/
theorem spans_boundsFrom (h : allIdentical rows = false) :
    Spans rows (boundsFrom (maxValue, minValue) rows).1.toInt
      (boundsFrom (maxValue, minValue) rows).2.toInt ∧
    (boundsFrom (maxValue, minValue) rows).1 ≠ maxValue := by
  obtain ⟨hlow, hhigh, -, -, hbetween⟩ := boundsOf_boundsFrom maxValue minValue rows
  generalize boundsFrom (maxValue, minValue) rows = b at *
  obtain ⟨x, y, hx, hy, hne⟩ : ∃ x y, some x ∈ rows ∧ some y ∈ rows ∧ x ≠ y := by
    by_contra hcon
    push Not at hcon
    simp [(allIdentical_iff rows).mpr fun x y hx hy => hcon x y hx hy] at h
  have hne' : x.toInt ≠ y.toInt := fun heq => hne (toInt_inj.mp heq)
  have hmax : maxValue.toInt = 2 ^ 63 - 1 := rfl
  have hmin : minValue.toInt = -2 ^ 63 := rfl
  have hx' := hbetween x hx
  have hy' := hbetween y hy
  have hxr := inInt64_toInt x
  have hyr := inInt64_toInt y
  simp only [InInt64] at hxr hyr
  have hlow' : b.1 ≠ maxValue := by
    intro heq
    rw [heq] at hx' hy'
    omega
  have hhigh' : b.2 ≠ minValue := by
    intro heq
    rw [heq] at hx' hy'
    omega
  refine ⟨⟨⟨⟨b.1, hlow.resolve_left hlow', rfl⟩, ?_⟩,
    ⟨⟨b.2, hhigh.resolve_left hhigh', rfl⟩, ?_⟩⟩, hlow'⟩
  · rintro _ ⟨z, hz, rfl⟩
    exact (hbetween z hz).1
  · rintro _ ⟨z, hz, rfl⟩
    exact (hbetween z hz).2

/-! ## Widths -/

theorem bitsLoop_eq_size {range fuel bits : ℕ} (hfuel : range.size ≤ bits + fuel)
    (hbits : bits ≤ range.size) : bitsLoop range fuel bits = range.size := by
  induction fuel generalizing bits with
  | zero =>
    rw [bitsLoop]
    omega
  | succ fuel ih =>
    rw [bitsLoop]
    split
    next hle => exact ih (by omega) (Nat.lt_size.mpr hle)
    next hlt =>
      have := Nat.size_le.mpr (Nat.lt_of_not_le hlt)
      omega

/-- The width of a column whose values differ: the bit length of the span, unless the
span overflows a signed word. -/
theorem minBitsRequired_of_spans (hspan : Spans rows lo hi) (hne : lo ≠ hi) : minBitsRequired rows =
      if hi - lo < 2 ^ 63 then some (hi - lo).toNat.size else none := by
  have hdiff : allIdentical rows = false := by
    rw [Bool.eq_false_iff]
    exact fun h => hne ((spans_of_allIdentical hspan).mp h)
  obtain ⟨hbounds, hmax⟩ := spans_boundsFrom hdiff
  obtain ⟨rfl, rfl⟩ := hspan.unique hbounds
  simp only [minBitsRequired]
  generalize boundsFrom (maxValue, minValue) rows = b at *
  have hle := hbounds.le
  rw [if_neg hmax]
  split
  next hlt =>
    have hin : InInt64 (b.2.toInt - b.1.toInt) := ⟨by omega, hlt⟩
    have hto := toInt_ofInt_of_inInt64 hin
    have hsub := checkedSub_eq_some.mpr hto.symm
    have hzero : ofInt (b.2.toInt - b.1.toInt) ≠ 0 := by
      intro heq
      rw [heq, toInt_zero_int64] at hto
      omega
    have hnat : (ofInt (b.2.toInt - b.1.toInt)).toUInt64.toNat =
        (b.2.toInt - b.1.toInt).toNat := by
      have := toNat_toUInt64_of_nonneg (d := ofInt (b.2.toInt - b.1.toInt)) (by omega)
      omega
    have hsize : (b.2.toInt - b.1.toInt).toNat.size ≤ 64 := by
      rw [Nat.size_le]
      omega
    rw [hsub]
    simp only [bind_eq_bind, bind_some, if_neg hzero, hnat]
    rw [bitsLoop_eq_size (by omega) (Nat.zero_le _)]
    rfl
  next hge =>
    have hnone : checkedSub b.2 b.1 = none := by
      rw [checkedSub, if_neg]
      exact fun hin => hge hin.2
    rw [hnone]
    rfl

/-- **The width found is the least that holds the span**, exactly when the span fits a
signed word. Otherwise the subtraction `mx - mn` overflows. -/
theorem minBitsRequired_isLeast_iff (hspan : Spans rows lo hi) (hne : lo ≠ hi) :
    (∃ w, minBitsRequired rows = some w ∧ IsLeast {w : ℕ | hi - lo < 2 ^ w} w) ↔
      hi - lo < 2 ^ 63 := by
  rw [minBitsRequired_of_spans hspan hne]
  constructor
  · rintro ⟨w, hw, -⟩
    by_contra hge
    rw [if_neg hge] at hw
    cases hw
  · intro hlt
    have hsize (w : ℕ) : (hi - lo).toNat.size ≤ w ↔ hi - lo < 2 ^ w := by
      rw [Nat.size_le, Int.toNat_lt (Int.sub_nonneg.mpr hspan.le)]
      rfl
    exact ⟨_, if_pos hlt, (hsize _).mp le_rfl, fun w => (hsize w).mpr⟩

theorem minBitsRequired_three_ten :
    ∃ w, minBitsRequired [some 3, none, some 10] = some w ∧
      IsLeast {w : ℕ | (10 : ℤ) - 3 < 2 ^ w} w :=
  (minBitsRequired_isLeast_iff (spans_boundsFrom rfl).1 (by decide)).mpr (by decide)

/-- The whole domain: the subtraction overflows, and no width is found. -/
theorem minBitsRequired_whole_domain :
    minBitsRequired [some minValue, some maxValue] = none := by decide

/-! ## Monotonicity -/

theorem isMonotonicFrom_iff (prev : Int64) (rows : List (Option Int64)) :
    isMonotonicFrom prev rows = true ↔
      (prev :: rows.reduceOption).Pairwise fun x y => x.toInt ≤ y.toInt := by
  induction rows generalizing prev with
  | nil => simp [isMonotonicFrom]
  | cons row rows ih =>
    cases row with
    | none => simpa [isMonotonicFrom] using ih prev
    | some v =>
      rw [isMonotonicFrom, reduceOption_cons_of_some]
      by_cases hlt : v < prev
      · have hlt' := lt_iff_toInt_lt.mp hlt
        simp only [if_pos hlt, Bool.false_eq_true, false_iff, pairwise_cons]
        rintro ⟨hall, -⟩
        have := hall v mem_cons_self
        omega
      · have hle := Int64.le_iff_toInt_le.mp (Int64.not_lt.mp hlt)
        rw [if_neg hlt, ih, pairwise_cons, pairwise_cons, pairwise_cons]
        constructor
        · rintro ⟨hall, hrest⟩
          refine ⟨?_, hall, hrest⟩
          intro y hy
          rcases mem_cons.mp hy with rfl | hy
          · exact hle
          · exact hle.trans (hall y hy)
        · rintro ⟨-, hall, hrest⟩
          exact ⟨hall, hrest⟩

theorem isMonotonic_iff (rows : List (Option Int64)) :
    isMonotonic rows = true ↔ Ascending rows := by
  rw [isMonotonic, isMonotonicFrom_iff, pairwise_cons]
  refine and_iff_right ?_
  intro y _
  exact y.le_toInt

/-- **The scheme of an integer column**, by the span of its values. -/
theorem selectInt_of_spans (hspan : Spans rows lo hi) (hne : lo ≠ hi) [Decidable (Ascending rows)] :
    selectInt rows =
      if hi - lo < 2 ^ 63 then
        if hi - lo < 2 ^ 32 then
          some { type := .bitPacked, bitWidth := (hi - lo).toNat.size }
        else if Ascending rows then some { type := .delta }
        else some { type := .uncompressed }
      else none := by
  have hdiff : allIdentical rows = false := by
    rw [Bool.eq_false_iff]
    exact fun h => hne ((spans_of_allIdentical hspan).mp h)
  have hsize : (hi - lo).toNat.size ≤ 32 ↔ hi - lo < 2 ^ 32 := by
    rw [Nat.size_le]
    omega
  rw [selectInt, hdiff, minBitsRequired_of_spans hspan hne]
  by_cases hlt : hi - lo < 2 ^ 63
  · simp only [if_pos hlt, bind_eq_bind, bind_some, hsize, isMonotonic_iff]
    rfl
  · simp only [if_neg hlt]
    rfl

end CppColDB
