import CppColDB.Storage.Column.Reading
import CppColDB.Storage.Column.ZoneMap

/-!
# Zone maps that bound their segments

Where the statistics of every segment bound its values, a zone map only skips rows that do
not meet the predicate. Doubles are included: a NaN is in no relation to a bound.
-/

namespace CppColDB

open Bool ByteCodec Except

/-! ## The order of values -/

namespace Value

variable {a b : Value}

/-- Two values that compare true are of one type, with its alternative. -/
theorem compareWith_eq_true {int : Int64 → Int64 → Bool} {float : UInt64 → UInt64 → Bool}
    {bool : Bool → Bool → Bool} {str : Bytes → Bytes → Bool} :
    compareWith int float bool str a b = .ok true ↔ a.type = b.type ∧
      match a.type, a.data, b.data with
      | .int8, .int x, .int y | .int16, .int x, .int y | .int32, .int x, .int y
      | .int64, .int x, .int y => int x y = true
      | .float32, .float x, .float y | .float64, .float x, .float y => float x y = true
      | .boolean, .bool x, .bool y => bool x y = true
      | .varchar, .str x, .str y => str x y = true
      | _, _, _ => False := by
  obtain ⟨ta, da⟩ := a
  obtain ⟨tb, db⟩ := b
  rw [compareWith]
  by_cases htype : ta = tb
  · subst htype
    cases ta <;> cases da <;> cases db <;> simp
  · simp [htype]

/-- One value is at most the other. -/
def AtMost (a b : Value) : Prop := a.lt b = .ok true ∨ a.eq b = .ok true

theorem AtMost.type_eq (h : a.AtMost b) : a.type = b.type := by
  rcases h with h | h
  · exact (compareWith_eq_true.mp h).1
  · exact (compareWith_eq_true.mp h).1

/-- What `<` and `==` of an alternative have to do with each other. -/
structure Ordered {α : Type} (less equal : α → α → Bool) : Prop where
  irrefl : ∀ x, less x x = false
  trans : ∀ x y z, less x y → less y z → less x z
  left : ∀ x y z, equal x y → less y z → less x z
  right : ∀ x y z, less x y → equal y z → less x z

theorem ordered_linear {α : Type} [DecidableEq α] [LE α] [LT α] [DecidableLT α]
    [Std.IsLinearOrder α] [Std.LawfulOrderLT α] :
    Ordered (fun x y : α => decide (x < y)) fun x y => decide (x = y) where
  irrefl x := decide_eq_false Std.lt_irrefl
  trans _ _ _ hxy hyz := decide_eq_true (Std.lt_trans (of_decide_eq_true hxy) (of_decide_eq_true hyz))
  left _ _ _ hxy hyz := by rwa [of_decide_eq_true hxy]
  right _ _ _ hxy hyz := by rwa [← of_decide_eq_true hyz]

theorem ordered_double : Ordered Double.lt Double.eq where
  irrefl x := by simp [Double.lt]
  trans := by
    intro x y z hxy hyz
    simp only [Double.lt, and_eq_true, decide_eq_true_eq] at *
    exact ⟨⟨hxy.1.1, hyz.1.2⟩, hxy.2.trans hyz.2⟩
  left := by
    intro x y z hxy hyz
    simp only [Double.lt, Double.eq, and_eq_true, decide_eq_true_eq] at *
    exact ⟨⟨hxy.1.1, hyz.1.2⟩, hxy.2 ▸ hyz.2⟩
  right := by
    intro x y z hxy hyz
    simp only [Double.lt, Double.eq, and_eq_true, decide_eq_true_eq] at *
    exact ⟨⟨hxy.1.1, hyz.1.2⟩, hyz.2 ▸ hxy.2⟩

theorem ordered_bool : Ordered (fun x y : Bool => !x && y) fun x y => x == y where
  irrefl := by decide
  trans := by decide
  left := by decide
  right := by decide

variable {c : Value}

/-- Comparisons chain as those of the alternatives do. -/
theorem compareWith_chain {int int' int'' : Int64 → Int64 → Bool}
    {float float' float'' : UInt64 → UInt64 → Bool} {bool bool' bool'' : Bool → Bool → Bool}
    {str str' str'' : Bytes → Bytes → Bool} (hint : ∀ x y z, int x y → int' y z → int'' x z)
    (hfloat : ∀ x y z, float x y → float' y z → float'' x z)
    (hbool : ∀ x y z, bool x y → bool' y z → bool'' x z)
    (hstr : ∀ x y z, str x y → str' y z → str'' x z)
    (hab : compareWith int float bool str a b = .ok true)
    (hbc : compareWith int' float' bool' str' b c = .ok true) :
    compareWith int'' float'' bool'' str'' a c = .ok true := by
  rw [compareWith_eq_true] at hab hbc ⊢
  obtain ⟨ta, da⟩ := a
  obtain ⟨tb, db⟩ := b
  obtain ⟨tc, dc⟩ := c
  obtain ⟨htb, hab⟩ := hab
  obtain ⟨htc, hbc⟩ := hbc
  subst htb htc
  refine ⟨rfl, ?_⟩
  cases ta <;> cases da <;> cases db <;> try exact hab.elim
  all_goals cases dc <;> try exact hbc.elim
  case int8.int.int.int | int16.int.int.int | int32.int.int.int | int64.int.int.int =>
    exact hint _ _ _ hab hbc
  case float32.float.float.float | float64.float.float.float => exact hfloat _ _ _ hab hbc
  case boolean.bool.bool.bool => exact hbool _ _ _ hab hbc
  case varchar.str.str.str => exact hstr _ _ _ hab hbc

theorem lt_of_lt_of_atMost (hab : a.lt b = .ok true) (hbc : b.AtMost c) :
    a.lt c = .ok true := by
  rcases hbc with hbc | hbc
  · exact compareWith_chain ordered_linear.trans ordered_double.trans ordered_bool.trans
      ordered_linear.trans hab hbc
  · exact compareWith_chain ordered_linear.right ordered_double.right ordered_bool.right
      ordered_linear.right hab hbc

theorem lt_of_atMost_of_lt (hab : a.AtMost b) (hbc : b.lt c = .ok true) :
    a.lt c = .ok true := by
  rcases hab with hab | hab
  · exact lt_of_lt_of_atMost hab (.inl hbc)
  · exact compareWith_chain ordered_linear.left ordered_double.left ordered_bool.left
      ordered_linear.left hab hbc

theorem lt_irrefl : a.lt a ≠ .ok true := by
  intro h
  obtain ⟨-, h⟩ := compareWith_eq_true.mp h
  obtain ⟨ta, da⟩ := a
  cases ta <;> cases da <;> first | exact h.elim | skip
  case int8.int | int16.int | int32.int | int64.int | varchar.str =>
    exact false_ne_true ((ordered_linear.irrefl _).symm.trans h)
  case float32.float | float64.float =>
    exact false_ne_true ((ordered_double.irrefl _).symm.trans h)
  case boolean.bool => exact false_ne_true ((ordered_bool.irrefl _).symm.trans h)

theorem eq_symm (h : a.eq b = .ok true) : b.eq a = .ok true := by
  rw [eq, compareWith_eq_true] at h ⊢
  obtain ⟨ta, da⟩ := a
  obtain ⟨tb, db⟩ := b
  obtain ⟨ht, h⟩ := h
  subst ht
  refine ⟨rfl, ?_⟩
  cases ta <;> cases da <;> cases db <;> first | exact h.elim | skip
  case int8.int.int | int16.int.int | int32.int.int | int64.int.int | varchar.str.str =>
    exact decide_eq_true (of_decide_eq_true h).symm
  case float32.float.float | float64.float.float =>
    simp only [Double.eq, and_eq_true, decide_eq_true_eq] at h ⊢
    exact ⟨⟨h.1.2, h.1.1⟩, h.2.symm⟩
  case boolean.bool.bool => exact beq_iff_eq.mpr (beq_iff_eq.mp h).symm

theorem eq_of_eq_true (h : a.eq b = .ok true) : a.AtMost b ∧ b.AtMost a :=
  ⟨.inr h, .inr (eq_symm h)⟩

/-- The variant holds the alternative of the type. -/
def Typed (v : Value) : Bool :=
  match v.type, v.data with
  | .int8, .int _ | .int16, .int _ | .int32, .int _ | .int64, .int _ | .float32, .float _
  | .float64, .float _ | .boolean, .bool _ | .varchar, .str _ | .invalid, _ | .unnamed _ _, _ =>
    true
  | _, _ => false

theorem Typed.exists_datum {v : Value} (h : v.Typed) {d : Datum} (htype : v.type = d.value.type) :
    ∃ b : Datum, v = b.value := by
  obtain ⟨type, data⟩ := v
  subst htype
  cases d <;> cases data <;> first | exact absurd h false_ne_true | skip
  case int.int v x => exact ⟨.int x, rfl⟩
  case float.float v x => exact ⟨.float x, rfl⟩
  case str.str v x => exact ⟨.str x, rfl⟩

theorem exists_lt_datum (a b : Datum) : ∃ r, a.value.lt b.value = .ok r := by
  cases a <;> cases b <;> exact ⟨_, rfl⟩

end Value

/-! ## Predicates -/

namespace ScanPredicateOp

variable {op : ScanPredicateOp} {mn mx v bound : Value}

/-- **Bounds that exclude a predicate** exclude it for every value between them. -/
theorem not_holds_of_atMost (h : op.excludes mn mx bound = .ok true) (hmn : mn.AtMost v)
    (hmx : v.AtMost mx) : ¬ op.Holds v bound := by
  intro hv
  cases op with
  | eq =>
    obtain ⟨hle, hge⟩ := Value.eq_of_eq_true hv
    obtain ⟨below, hbelow, h⟩ := bind_eq_ok_iff.mp h
    cases below with
    | true =>
      exact Value.lt_irrefl (Value.lt_of_lt_of_atMost
        (Value.lt_of_lt_of_atMost hbelow hmn) hle)
    | false =>
      exact Value.lt_irrefl (Value.lt_of_atMost_of_lt hge (Value.lt_of_atMost_of_lt hmx h))
  | lt =>
    obtain ⟨r, hr, h⟩ := bind_eq_ok_iff.mp h
    rw [Value.lt_of_atMost_of_lt hmn hv] at hr
    cases hr
    cases h
  | gt =>
    obtain ⟨r, hr, h⟩ := bind_eq_ok_iff.mp h
    rw [Value.lt_of_lt_of_atMost hv hmx] at hr
    cases hr
    cases h
  | le => exact Value.lt_irrefl (Value.lt_of_lt_of_atMost (Value.lt_of_lt_of_atMost h hmn) hv)
  | ge =>
    have hge : bound.AtMost v := hv.imp_right Value.eq_symm
    exact Value.lt_irrefl (Value.lt_of_atMost_of_lt hge (Value.lt_of_atMost_of_lt hmx h))

/-- Statistics can be compared with a bound of their type. -/
theorem exists_excludes (op : ScanPredicateOp) (lo hi b : Datum) :
    ∃ r, op.excludes lo.value hi.value b.value = .ok r := by
  obtain ⟨r₁, h₁⟩ := Value.exists_lt_datum b lo
  obtain ⟨r₂, h₂⟩ := Value.exists_lt_datum hi b
  obtain ⟨r₃, h₃⟩ := Value.exists_lt_datum lo b
  obtain ⟨r₄, h₄⟩ := Value.exists_lt_datum b hi
  cases op with
  | eq =>
    simp only [excludes, h₁, h₂]
    cases r₁ <;> exact ⟨_, rfl⟩
  | lt => exact ⟨!r₃, by simp only [excludes, h₃]; rfl⟩
  | gt => exact ⟨!r₄, by simp only [excludes, h₄]; rfl⟩
  | le => exact ⟨r₁, h₁⟩
  | ge => exact ⟨r₂, h₂⟩

end ScanPredicateOp

/-! ## Columns -/

namespace ColumnChunk

variable {cc : ColumnChunk} {op : ScanPredicateOp} {bound : Value}

/-- The statistics of every segment, where it has some, bound the values of its rows. -/
def StatsBound (cc : ColumnChunk) : Prop :=
  ∀ seg ∈ cc.segments, seg.stats.minVal.isNull = false → seg.stats.maxVal.isNull = false →
    ∃ lo hi : Datum, seg.stats.minVal = lo.value ∧ seg.stats.maxVal = hi.value ∧
      ∀ v, decompress seg.block cc.type = some v → ∀ i < seg.rowCount, ∀ d,
        v.cell? i = some (some d) → lo.value.AtMost d.value ∧ d.value.AtMost hi.value

/-- **Zone maps can be compared** with a literal that is typed. -/
theorem StatsBound.exists_skip (h : cc.StatsBound) (hbound : bound.Typed)
    (op : ScanPredicateOp) (off : ℕ) : ∃ n, cc.zoneMapSkipRows off op bound = .ok n := by
  rw [zoneMapSkipRows]
  unfold StatsBound at h
  revert h
  generalize cc.segments = segs
  intro h
  induction segs generalizing off with
  | nil => exact ⟨0, rfl⟩
  | cons seg segs ih =>
    obtain ⟨hseg, hsegs⟩ := List.forall_mem_cons.mp h
    rw [skipIn]
    split
    · split
      next hstats =>
        simp only [and_eq_true, not_eq_true', decide_eq_true_eq] at hstats
        obtain ⟨lo, hi, hlo, hhi, -⟩ := hseg hstats.1.1 hstats.1.2
        obtain ⟨b, rfl⟩ := Value.Typed.exists_datum hbound (by rw [← hstats.2, hlo])
        obtain ⟨r, hr⟩ := op.exists_excludes lo hi b
        rw [hlo, hhi, hr]
        cases r <;> exact ⟨_, rfl⟩
      next => exact ⟨0, rfl⟩
    · exact ih _ hsegs

/-- **What a zone map skips** does not meet the predicate. -/
theorem StatsBound.not_holds_of_skip (h : cc.StatsBound) {off n : ℕ}
    (hskip : cc.zoneMapSkipRows off op bound = .ok n) {i : ℕ} (hlo : off ≤ i)
    (hhi : i < off + n) {d : Datum} (hd : cc.cell? i = some (some d)) :
    d.value.type = bound.type ∧ ¬ op.Holds d.value bound := by
  rw [cell?] at hd
  rw [zoneMapSkipRows] at hskip
  unfold StatsBound at h
  revert h hskip hd
  generalize cc.segments = segs
  intro h hskip hd
  induction segs generalizing off i with
  | nil =>
    cases hskip
    omega
  | cons seg segs ih =>
    obtain ⟨hseg, hsegs⟩ := List.forall_mem_cons.mp h
    rw [skipIn] at hskip
    split at hskip
    next hin =>
      split at hskip
      next hstats =>
        simp only [and_eq_true, not_eq_true', decide_eq_true_eq] at hstats
        obtain ⟨lo, hi, hmin, hmax, hvalues⟩ := hseg hstats.1.1 hstats.1.2
        obtain ⟨exclude, hex, hskip⟩ := bind_eq_ok_iff.mp hskip
        cases exclude with
        | false =>
          cases hskip
          omega
        | true =>
          cases hskip
          have hi : i < seg.rowCount := by omega
          rw [cellIn, if_pos hi] at hd
          obtain ⟨v, hv, hd⟩ := Option.bind_eq_some_iff.mp hd
          obtain ⟨hmn, hmx⟩ := hvalues v hv i hi d hd
          rw [hmin] at hstats
          rw [hmin, hmax] at hex
          exact ⟨hmn.type_eq.symm.trans hstats.2, op.not_holds_of_atMost hex hmn hmx⟩
      next =>
        cases hskip
        omega
    next hout =>
      rw [cellIn, if_neg (by omega)] at hd
      exact ih (by omega) (by omega) hsegs hskip hd

end ColumnChunk

end CppColDB
