import CppColDB.Execution.ScanExact
import CppColDB.Planner.BindExpr

/-!
# AND, OR and NOT

A predicate is NULL, true or false on a row, and `EvaluatePredicate` selects the rows where it
is true. The evaluator has one rule for NULL: an operator with a NULL operand is NULL. For AND
and NOT the selected rows are those of the three-valued logic of SQL; for OR a row is lost
where one operand is true and the other one NULL.
-/

namespace CppColDB

open BinaryOp ByteCodec Except Fallible List Option Scalar

/-! ## Truth values -/

/-- The truth value of a row of integers, `none` for NULL. -/
def Scalar.truth (s : Scalar) : Option (Option Bool) :=
  match s.cell with
  | none => some none
  | some x => (intElement s.type x).map fun v => some (decide (v ≠ 0))

/-- The logical operators on truth values that are not NULL. -/
def BinaryOp.connective : BinaryOp → Bool → Bool → Bool
  | .or => Bool.or
  | _ => Bool.and

theorem Scalar.truth_of_int {s : Scalar}
    (h : ∀ x, s.cell = some x → s.type.storageClass = .int ∧ x.storageClass = .int) :
    ∃ t, s.truth = some t := by
  rw [truth]
  cases hcell : s.cell with
  | none => exact ⟨none, rfl⟩
  | some x =>
    obtain ⟨htype, hx⟩ := h x hcell
    cases x with
    | int v => exact ⟨some (decide (v ≠ 0)), by simp [intElement, htype]⟩
    | float bits => cases hx
    | str s => cases hx

/-- A truth value as a BOOLEAN. -/
theorem Scalar.truth_boolean (t : Option Bool) :
    ({ type := .boolean, cell := t.map fun b => .int (if b then 1 else 0) } : Scalar).truth =
      some t := by
  cases t with
  | none => rfl
  | some b => cases b <;> rfl

/-- **The strict connectives**: NULL as soon as one operand is. -/
theorem BinaryOp.apply_connective {D : DoubleOps} {op : BinaryOp} (hop : op = .and ∨ op = .or)
    {l r : Scalar} {a b : Option Bool} (hl : l.truth = some a) (hr : r.truth = some b) :
    op.apply D .boolean l r =
      some ((map₂ op.connective a b).map fun b => .int (if b then 1 else 0)) := by
  rw [truth] at hl hr
  cases hlc : l.cell with
  | none =>
    rw [hlc] at hl
    cases hl
    simp [apply, hlc]
  | some x =>
    rw [hlc] at hl
    obtain ⟨v, hv, rfl⟩ := map_eq_some_iff.mp hl
    cases hrc : r.cell with
    | none =>
      rw [hrc] at hr
      cases hr
      simp [apply, hrc]
    | some y =>
      rw [hrc] at hr
      obtain ⟨w, hw, rfl⟩ := map_eq_some_iff.mp hr
      obtain rfl | rfl := hop <;>
        simp [apply, hlc, hrc, hv, hw, boolCell, connective, TypeId.storageClass]

theorem UnaryOp.apply_not {D : DoubleOps} {s : Scalar} {t : Option Bool} (h : s.truth = some t) :
    ∃ cell, UnaryOp.not.apply D s = some cell ∧
      ({ type := s.type, cell } : Scalar).truth = some (t.map Bool.not) := by
  rw [truth] at h
  cases hcell : s.cell with
  | none =>
    rw [hcell] at h
    cases h
    exact ⟨none, by rw [apply, hcell], rfl⟩
  | some x =>
    rw [hcell] at h
    obtain ⟨v, hv, rfl⟩ := map_eq_some_iff.mp h
    have hclass := Expr.storageClass_of_intElement hv
    refine ⟨some (.int (if v = 0 then 1 else 0)), by simp [apply, hcell, hv], ?_⟩
    by_cases h0 : v = 0 <;> simp [truth, intElement, hclass]

/-! ## Predicates -/

namespace Expr

variable {D : DoubleOps} {row : ℕ → Option Scalar} {e p q : Expr}

/-- A predicate has a truth value on a row. -/
def Truth (D : DoubleOps) (row : ℕ → Option Scalar) (e : Expr) (t : Option Bool) : Prop :=
  ∃ s, e.eval D row = some (.ok s) ∧ s.truth = some t

variable {t : Option Bool}

theorem Truth.unique {t' : Option Bool} (h : e.Truth D row t) (h' : e.Truth D row t') :
    t = t' := by
  obtain ⟨s, hs, ht⟩ := h
  obtain ⟨s', hs', ht'⟩ := h'
  cases hs.symm.trans hs'
  exact some.inj (ht.symm.trans ht')

theorem holds_eq_ok_iff {b : Bool} : e.holds D row = some (.ok b) ↔
    ∃ t, e.Truth D row t ∧ b = decide (t = some true) := by
  rw [holds]
  constructor
  · intro h
    rcases hs : e.eval D row with _ | _ | s
    · simp [hs] at h
    · simp [hs] at h
    · simp only [hs] at h
      cases hcell : s.cell with
      | none =>
        rw [hcell] at h
        cases h
        exact ⟨none, ⟨s, hs, by rw [truth, hcell]⟩, rfl⟩
      | some x =>
        rw [hcell] at h
        obtain ⟨v, hv, h⟩ := map_eq_some_iff.mp h
        cases h
        exact ⟨some (decide (v ≠ 0)), ⟨s, hs, by simp [truth, hcell, hv]⟩, by simp⟩
  · rintro ⟨t, ⟨s, hs, ht⟩, rfl⟩
    rw [truth] at ht
    rw [hs]
    dsimp only
    cases hcell : s.cell with
    | none =>
      rw [hcell] at ht
      cases ht
      rfl
    | some x =>
      rw [hcell] at ht
      obtain ⟨v, hv, rfl⟩ := map_eq_some_iff.mp ht
      simp [hv]

/-- The values of a predicate are truth values. -/
def TruthValued (D : DoubleOps) (row : ℕ → Option Scalar) (e : Expr) : Prop :=
  ∀ s, e.eval D row = some (.ok s) → ∃ t, s.truth = some t

theorem truth_connective_iff {op : BinaryOp} (hop : op = .and ∨ op = .or)
    (hp : p.TruthValued D row) (hq : q.TruthValued D row) :
    (Expr.binaryOp .boolean op p q).Truth D row t ↔
      ∃ a b, p.Truth D row a ∧ q.Truth D row b ∧ t = map₂ op.connective a b := by
  constructor
  · rintro ⟨s, hs, ht⟩
    rw [eval] at hs
    split at hs <;> try cases hs
    next l hl =>
      split at hs <;> try cases hs
      next r hr =>
        obtain ⟨a, ha⟩ := hp l hl
        obtain ⟨b, hb⟩ := hq r hr
        rw [apply_connective hop ha hb] at hs
        cases hs
        rw [truth_boolean] at ht
        exact ⟨a, b, ⟨l, hl, ha⟩, ⟨r, hr, hb⟩, (some.inj ht).symm⟩
  · rintro ⟨a, b, ⟨l, hl, ha⟩, ⟨r, hr, hb⟩, rfl⟩
    exact ⟨_, by simp only [eval, hl, hr, apply_connective hop ha hb, map_some], truth_boolean _⟩

theorem truth_not_iff {type : TypeId} (hp : p.TruthValued D row) :
    (Expr.unaryOp type .not p).Truth D row t ↔ ∃ a, p.Truth D row a ∧ t = a.map Bool.not := by
  constructor
  · rintro ⟨s, hs, ht⟩
    rw [eval] at hs
    split at hs <;> try cases hs
    next c hc =>
      obtain ⟨a, ha⟩ := hp c hc
      obtain ⟨cell, hcell, htruth⟩ := UnaryOp.apply_not ha
      rw [hcell] at hs
      cases hs
      exact ⟨a, ⟨c, hc, ha⟩, some.inj (ht.symm.trans htruth)⟩
  · rintro ⟨a, ⟨c, hc, ha⟩, rfl⟩
    obtain ⟨cell, hcell, htruth⟩ := UnaryOp.apply_not (D := D) ha
    exact ⟨{ type := c.type, cell }, by simp only [eval, hc, hcell, map_some], htruth⟩

end Expr

/-! ## Bound predicates -/

namespace Binder

/-- A chunk has the columns that a statement can name, with the types they were bound with. -/
def Serves (ctx : BindContext) (chunk : DataChunk) : Prop :=
  ∀ b ∈ ctx, ∃ v, chunk.columns[b.columnIdx]? = some v ∧ v.type = b.type

variable {ctx : BindContext} {pe : ParsedExpr} {e : Expr}

/-- A bound expression has its values in the array of the type that the binder gave it. -/
theorem storageClass_bindExpr {types : List TypeId}
    (hctx : ∀ b ∈ ctx, types[b.columnIdx]? = some b.type)
    (h : bindExpr ctx pe = .ok e) : e.storageClass types = e.resultType.storageClass := by
  induction pe generalizing e with
  | columnRef table name =>
    obtain ⟨b, hb, rfl⟩ := exists_bindExpr_columnRef h
    rw [Expr.storageClass, hctx b hb]
    rfl
  | integerLit _ | floatLit _ | stringLit _ | boolLit _ | nullLit =>
    cases h
    rfl
  | binaryOp op left right _ _ =>
    obtain ⟨l, -, h⟩ := bind_eq_ok_iff.mp h
    obtain ⟨r, -, h⟩ := bind_eq_ok_iff.mp h
    obtain ⟨⟨type, l', r'⟩, -, h⟩ := bind_eq_ok_iff.mp h
    cases h
    rfl
  | unaryOp op operand ih =>
    obtain ⟨child, hchild, h⟩ := bind_eq_ok_iff.mp h
    split_ifs at h
    cases h
    rw [Expr.storageClass, ih hchild]
    rfl
  | functionCall name | star => cases h

theorem truthValued_bindExpr {chunk : DataChunk} (hctx : Serves ctx chunk)
    (h : bindExpr ctx pe = .ok e) (htype : e.resultType = .boolean)
    (D : DoubleOps) (i : ℕ) : e.TruthValued D (chunk.scalars i) := by
  intro s hs
  refine truth_of_int fun x hx => ?_
  obtain ⟨hclass, hxclass⟩ := Expr.storageClass_eval_of_typed (chunk.scalarsTyped i) hs hx
  have hint : e.storageClass (chunk.columns.map DataVector.type) = .int := by
    rw [storageClass_bindExpr (fun b hb => ?_) h, htype]
    · rfl
    · obtain ⟨v, hv, htype⟩ := hctx b hb
      rw [getElem?_map, hv, map_some, htype]
  exact ⟨hclass.trans hint, hxclass.trans hint⟩

end Binder

/-! ## Selected rows -/

section Selections

variable {D : DoubleOps} {chunk : DataChunk} {e p q : Expr} {sel selP selQ : List ℕ}
  {row : ℕ → Option Scalar} {op : BinaryOp}

theorem evaluatePredicate_eq_ok_iff : evaluatePredicate D e chunk = some (.ok sel) ↔
    (∀ i < chunk.count, ∃ t, e.Truth D (chunk.scalars i) t) ∧
      sel = (range chunk.count).filter fun i =>
        decide (e.holds D (chunk.scalars i) = some (.ok true)) := by
  rw [evaluatePredicate, evaluateRows_eq_ok_iff]
  simp only [mem_range, Expr.holds_eq_ok_iff]
  refine and_congr_left fun _ => forall₂_congr fun i _ => ?_
  exact ⟨fun ⟨_, t, ht, _⟩ => ⟨t, ht⟩, fun ⟨t, ht⟩ => ⟨_, t, ht, rfl⟩⟩

theorem holds_true_iff :
    e.holds D row = some (.ok true) ↔ e.Truth D row (some true) := by
  rw [Expr.holds_eq_ok_iff]
  constructor
  · rintro ⟨t, ht, htrue⟩
    rwa [of_decide_eq_true htrue.symm] at ht
  · intro h
    exact ⟨some true, h, rfl⟩

theorem mem_selection_iff (h : evaluatePredicate D e chunk = some (.ok sel)) {i : ℕ} :
    i ∈ sel ↔ i < chunk.count ∧ e.Truth D (chunk.scalars i) (some true) := by
  rw [(evaluatePredicate_eq_ok_iff.mp h).2, mem_filter, mem_range, decide_eq_true_eq,
    holds_true_iff]

/-- What the selections of `p AND q`, `p OR q` and `NOT p` should be. -/
structure ConnectiveLaws (D : DoubleOps) (chunk : DataChunk) (p q : Expr) : Prop where
  and : ∀ sel, evaluatePredicate D (.binaryOp .boolean .and p q) chunk = some (.ok sel) ↔
    ∃ selP selQ, evaluatePredicate D p chunk = some (.ok selP) ∧
      evaluatePredicate D q chunk = some (.ok selQ) ∧
      sel = (range chunk.count).filter fun i => i ∈ selP ∧ i ∈ selQ
  or : ∀ sel, evaluatePredicate D (.binaryOp .boolean .or p q) chunk = some (.ok sel) ↔
    ∃ selP selQ, evaluatePredicate D p chunk = some (.ok selP) ∧
      evaluatePredicate D q chunk = some (.ok selQ) ∧
      sel = (range chunk.count).filter fun i => i ∈ selP ∨ i ∈ selQ
  not : ∀ sel, evaluatePredicate D (.unaryOp .boolean .not p) chunk = some (.ok sel) ↔
    ∃ vec, p.evaluate D chunk = some (.ok vec) ∧
      sel = (range chunk.count).filter fun i => vec[i]?.bind truth = some (some false)

/-- No row has a NULL beside a true operand. -/
def NullSafe (D : DoubleOps) (chunk : DataChunk) (p q : Expr) : Prop :=
  ∀ selP selQ, evaluatePredicate D p chunk = some (.ok selP) →
    evaluatePredicate D q chunk = some (.ok selQ) → ∀ i < chunk.count,
      (i ∈ selP → ¬ q.Truth D (chunk.scalars i) none) ∧
        (i ∈ selQ → ¬ p.Truth D (chunk.scalars i) none)

/-- The connectives evaluate where both operands do. -/
theorem evaluatePredicate_connective_iff (hop : op = .and ∨ op = .or)
    (hp : ∀ i, p.TruthValued D (chunk.scalars i)) (hq : ∀ i, q.TruthValued D (chunk.scalars i)) :
    evaluatePredicate D (.binaryOp .boolean op p q) chunk = some (.ok sel) ↔
      ∃ selP selQ, evaluatePredicate D p chunk = some (.ok selP) ∧
        evaluatePredicate D q chunk = some (.ok selQ) ∧
        sel = (range chunk.count).filter fun i =>
          decide ((Expr.binaryOp .boolean op p q).holds D (chunk.scalars i) = some (.ok true)) := by
  simp only [evaluatePredicate_eq_ok_iff, Expr.truth_connective_iff hop (hp _) (hq _)]
  constructor
  · rintro ⟨h, rfl⟩
    refine ⟨_, _, ⟨fun i hi => ?_, rfl⟩, ⟨fun i hi => ?_, rfl⟩, rfl⟩
    · obtain ⟨t, a, b, ha, -, -⟩ := h i hi
      exact ⟨a, ha⟩
    · obtain ⟨t, a, b, -, hb, -⟩ := h i hi
      exact ⟨b, hb⟩
  · rintro ⟨selP, selQ, ⟨hP, -⟩, ⟨hQ, -⟩, rfl⟩
    refine ⟨fun i hi => ?_, rfl⟩
    obtain ⟨a, ha⟩ := hP i hi
    obtain ⟨b, hb⟩ := hQ i hi
    exact ⟨_, a, b, ha, hb, rfl⟩

theorem filter_range_eq_iff {n : ℕ} {f g : ℕ → Bool} :
    (range n).filter f = (range n).filter g ↔ ∀ i < n, (f i = true ↔ g i = true) := by
  constructor
  · intro h i hi
    have hmem : i ∈ (range n).filter f ↔ i ∈ (range n).filter g := by rw [h]
    simpa [hi] using hmem
  · intro h
    exact filter_congr fun i hi => Bool.eq_iff_iff.mpr (h i (mem_range.mp hi))

/-- A connective is true where the operands are not NULL and it holds of their values. -/
theorem truth_connective_true_iff (hop : op = .and ∨ op = .or) (hp : p.TruthValued D row)
    (hq : q.TruthValued D row) :
    (Expr.binaryOp .boolean op p q).Truth D row (some true) ↔
      ∃ a b, p.Truth D row (some a) ∧ q.Truth D row (some b) ∧ op.connective a b = true := by
  rw [Expr.truth_connective_iff hop hp hq]
  constructor
  · rintro ⟨a, b, ha, hb, h⟩
    obtain ⟨a', b', rfl, rfl, htrue⟩ := map₂_eq_some_iff.mp h.symm
    exact ⟨a', b', ha, hb, htrue⟩
  · rintro ⟨a, b, ha, hb, h⟩
    exact ⟨some a, some b, ha, hb, congrArg some h.symm⟩

theorem evaluatePredicate_and_iff (hp : ∀ i, p.TruthValued D (chunk.scalars i))
    (hq : ∀ i, q.TruthValued D (chunk.scalars i)) :
    evaluatePredicate D (.binaryOp .boolean .and p q) chunk = some (.ok sel) ↔
      ∃ selP selQ, evaluatePredicate D p chunk = some (.ok selP) ∧
        evaluatePredicate D q chunk = some (.ok selQ) ∧
        sel = (range chunk.count).filter fun i => i ∈ selP ∧ i ∈ selQ := by
  rw [evaluatePredicate_connective_iff (.inl rfl) hp hq]
  refine exists₂_congr fun selP selQ => and_congr_right fun hP => and_congr_right fun hQ => ?_
  refine Eq.congr_right (filter_range_eq_iff.mpr fun i hi => ?_)
  simp only [decide_eq_true_eq, holds_true_iff, mem_selection_iff hP, mem_selection_iff hQ, hi,
    true_and, truth_connective_true_iff (.inl rfl) (hp i) (hq i), connective,
    Bool.and_eq_true]
  constructor
  · rintro ⟨a, b, ha, hb, rfl, rfl⟩
    exact ⟨ha, hb⟩
  · rintro ⟨ha, hb⟩
    exact ⟨true, true, ha, hb, rfl, rfl⟩

theorem evaluatePredicate_not_iff (hp : ∀ i, p.TruthValued D (chunk.scalars i)) :
    evaluatePredicate D (.unaryOp .boolean .not p) chunk = some (.ok sel) ↔
      ∃ vec, p.evaluate D chunk = some (.ok vec) ∧ sel = (range chunk.count).filter fun i =>
        vec[i]?.bind truth = some (some false) := by
  have hfilter : ∀ {vec}, p.evaluate D chunk = some (.ok vec) →
      (range chunk.count).filter (fun i => decide
        ((Expr.unaryOp .boolean .not p).holds D (chunk.scalars i) = some (.ok true))) =
      (range chunk.count).filter fun i => vec[i]?.bind truth = some (some false) := by
    intro vec hvec
    refine filter_range_eq_iff.mpr fun i hi => ?_
    obtain ⟨s, hs, heval⟩ := (traverse_eq_ok_iff.mp hvec).exists_of_getElem?_left
      (getElem?_range hi)
    simp only [decide_eq_true_eq, holds_true_iff, Expr.truth_not_iff (hp i), hs]
    constructor
    · rintro ⟨a, ⟨s', hs', ha⟩, h⟩
      cases heval.symm.trans hs'
      cases a <;> simp_all
    · intro h
      exact ⟨some false, ⟨s, heval, h⟩, rfl⟩
  rw [evaluatePredicate_eq_ok_iff]
  constructor
  · rintro ⟨h, rfl⟩
    obtain ⟨vec, hvec⟩ : ∃ vec, p.evaluate D chunk = some (.ok vec) := by
      refine (exists_congr fun vec => traverse_eq_ok_iff).mpr
        (exists_forall₂_iff.mpr fun i hi => ?_)
      obtain ⟨t, ht⟩ := h i (mem_range.mp hi)
      obtain ⟨a, ⟨s, hs, -⟩, -⟩ := (Expr.truth_not_iff (hp i)).mp ht
      exact ⟨s, hs⟩
    exact ⟨vec, hvec, hfilter hvec⟩
  · rintro ⟨vec, hvec, rfl⟩
    refine ⟨fun i hi => ?_, (hfilter hvec).symm⟩
    obtain ⟨s, -, heval⟩ := (traverse_eq_ok_iff.mp hvec).exists_of_getElem?_left
      (getElem?_range hi)
    obtain ⟨a, ha⟩ := hp i s heval
    exact ⟨_, (Expr.truth_not_iff (hp i)).mpr ⟨a, ⟨s, heval, ha⟩, rfl⟩⟩

/-- **The laws hold** where no row has a NULL beside a true operand. -/
theorem connectiveLaws_iff (hp : ∀ i, p.TruthValued D (chunk.scalars i))
    (hq : ∀ i, q.TruthValued D (chunk.scalars i)) :
    ConnectiveLaws D chunk p q ↔ NullSafe D chunk p q := by
  -- on one row of both selections
  have hrow : ∀ {selP selQ i}, evaluatePredicate D p chunk = some (.ok selP) →
      evaluatePredicate D q chunk = some (.ok selQ) → i < chunk.count →
      (((Expr.binaryOp .boolean .or p q).holds D (chunk.scalars i) = some (.ok true) ↔
        i ∈ selP ∨ i ∈ selQ) ↔
      (i ∈ selP → ¬ q.Truth D (chunk.scalars i) none) ∧
        (i ∈ selQ → ¬ p.Truth D (chunk.scalars i) none)) := by
    intro selP selQ i hP hQ hi
    obtain ⟨a, ha⟩ := (evaluatePredicate_eq_ok_iff.mp hP).1 i hi
    obtain ⟨b, hb⟩ := (evaluatePredicate_eq_ok_iff.mp hQ).1 i hi
    have hTp : ∀ t, p.Truth D (chunk.scalars i) t ↔ t = a :=
      fun t => ⟨fun h => h.unique ha, fun h => h ▸ ha⟩
    have hTq : ∀ t, q.Truth D (chunk.scalars i) t ↔ t = b :=
      fun t => ⟨fun h => h.unique hb, fun h => h ▸ hb⟩
    simp only [holds_true_iff, truth_connective_true_iff (.inr rfl) (hp i) (hq i),
      mem_selection_iff hP, mem_selection_iff hQ, hi, hTp, hTq, connective]
    rcases a with _ | _ | _ <;> rcases b with _ | _ | _ <;> simp
  constructor
  · intro laws selP selQ hP hQ i hi
    obtain ⟨selP', selQ', hP', hQ', heq⟩ := (laws.or _).mp
      ((evaluatePredicate_connective_iff (.inr rfl) hp hq).mpr ⟨selP, selQ, hP, hQ, rfl⟩)
    cases hP.symm.trans hP'
    cases hQ.symm.trans hQ'
    refine (hrow hP hQ hi).mp ?_
    simpa using filter_range_eq_iff.mp heq i hi
  · intro hsafe
    refine ⟨fun sel => evaluatePredicate_and_iff hp hq, fun sel => ?_,
      fun sel => evaluatePredicate_not_iff hp⟩
    rw [evaluatePredicate_connective_iff (.inr rfl) hp hq]
    refine exists₂_congr fun selP selQ => and_congr_right fun hP => and_congr_right fun hQ => ?_
    refine Eq.congr_right (filter_range_eq_iff.mpr fun i hi => ?_)
    simpa using (hrow hP hQ hi).mpr (hsafe selP selQ hP hQ i hi)

end Selections

namespace Binder

/-- **AND, OR and NOT of bound predicates** select what they should exactly where no row has a
NULL beside a true operand of the OR. -/
theorem connectives_exact_iff {ctx : BindContext} {chunk : DataChunk} {D : DoubleOps}
    {pe qe : ParsedExpr} {p q : Expr} (hctx : Serves ctx chunk)
    (hp : bindExpr ctx pe = .ok p) (hq : bindExpr ctx qe = .ok q)
    (hpType : p.resultType = .boolean) (hqType : q.resultType = .boolean) :
    (bindExpr ctx (.binaryOp .and pe qe) = .ok (.binaryOp .boolean .and p q) ∧
      bindExpr ctx (.binaryOp .or pe qe) = .ok (.binaryOp .boolean .or p q) ∧
      bindExpr ctx (.unaryOp .not pe) = .ok (.unaryOp .boolean .not p)) ∧
    (ConnectiveLaws D chunk p q ↔ NullSafe D chunk p q) := by
  refine ⟨⟨?_, ?_, ?_⟩, connectiveLaws_iff (truthValued_bindExpr hctx hp hpType D)
    (truthValued_bindExpr hctx hq hqType D)⟩
  · refine bind_eq_ok_iff.mpr ⟨p, hp, bind_eq_ok_iff.mpr ⟨q, hq, ?_⟩⟩
    rw [inferBinaryType, hpType, hqType]
    rfl
  · refine bind_eq_ok_iff.mpr ⟨p, hp, bind_eq_ok_iff.mpr ⟨q, hq, ?_⟩⟩
    rw [inferBinaryType, hpType, hqType]
    rfl
  · refine bind_eq_ok_iff.mpr ⟨p, hp, ?_⟩
    rw [hpType]
    rfl

/-! ### Two comparisons -/

/-- The columns `x` and `y` of a table. -/
def columnsXY : BindContext :=
  BindContext.addTable [] (text "t") [(text "x", .int64), (text "y", .int64)] 0

/-- A row with 1 in `x`, and 3 or NULL in `y`. -/
def chunkXY (null : Bool) : DataChunk where
  columns := [{ type := .int64, count := 1, intData := [1], validity := 1 },
    { type := .int64, count := 1, intData := [3], validity := if null then 0 else 1 }]
  count := 1

/-- A column compared with an integer, before and after binding. -/
def isInt (name : Bytes) (v : Int64) : ParsedExpr :=
  .binaryOp .eq (.columnRef [] name) (.integerLit v)

def boundIsInt (c : ℕ) (v : Int64) : Expr :=
  .binaryOp .boolean .eq (.columnRef .int64 c) (.literal .int64 (.integer v) false)

theorem serves_chunkXY (null : Bool) : Serves columnsXY (chunkXY null) := by
  simp [Serves, columnsXY, BindContext.addTable, chunkXY]

/-- With 3 in `y` nothing is NULL. -/
theorem connectives_exact_without_nulls :
    ConnectiveLaws TableScan.noDoubles (chunkXY false) (boundIsInt 0 1) (boundIsInt 1 2) := by
  refine (connectives_exact_iff (serves_chunkXY false)
    (show bindExpr columnsXY (isInt (text "x") 1) = _ by decide +kernel)
    (show bindExpr columnsXY (isInt (text "y") 2) = _ by decide +kernel) rfl rfl).2.mpr ?_
  intro selP selQ _ _ i hi
  obtain rfl : i = 0 := Nat.lt_one_iff.mp hi
  have hp : (boundIsInt 0 1).Truth TableScan.noDoubles ((chunkXY false).scalars 0) (some true) :=
    ⟨{ type := .boolean, cell := some (.int 1) }, by decide +kernel, by decide⟩
  have hq : (boundIsInt 1 2).Truth TableScan.noDoubles ((chunkXY false).scalars 0) (some false) :=
    ⟨{ type := .boolean, cell := some (.int 0) }, by decide +kernel, by decide⟩
  refine ⟨fun _ hnull => ?_, fun _ hnull => ?_⟩
  · cases hnull.unique hq
  · cases hnull.unique hp

/-- `x = 1 OR y = 2` misses a row that satisfies `x = 1`, because its `y` is NULL. -/
theorem or_misses_row : Serves columnsXY (chunkXY true) ∧
    bindExpr columnsXY (isInt (text "x") 1) = .ok (boundIsInt 0 1) ∧
    bindExpr columnsXY (isInt (text "y") 2) = .ok (boundIsInt 1 2) ∧
    evaluatePredicate TableScan.noDoubles (boundIsInt 0 1) (chunkXY true) = some (.ok [0]) ∧
    evaluatePredicate TableScan.noDoubles (boundIsInt 1 2) (chunkXY true) = some (.ok []) ∧
    evaluatePredicate TableScan.noDoubles
      (.binaryOp .boolean .or (boundIsInt 0 1) (boundIsInt 1 2)) (chunkXY true) =
        some (.ok []) := by
  refine ⟨serves_chunkXY true, ?_⟩
  decide +kernel

end Binder

end CppColDB
