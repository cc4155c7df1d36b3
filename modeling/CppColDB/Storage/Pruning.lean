import CppColDB.Planner.Binder
import CppColDB.Storage.Column.ZoneMap

/-!
# Partition pruning

`PrunedPartitions` keeps the partitions that the scan predicates do not exclude. It looks at
the leading key column only, while `RouteRow` compares whole key tuples, and the two agree
only where that makes no difference.
-/

namespace CppColDB

open Binder ByteCodec Except List Nat Option

/-- A pushed-down predicate: a column, a relation and a bound. -/
structure ScanPredicate where
  colIdx : ℕ
  op : ScanPredicateOp
  bound : Value
  deriving DecidableEq, Repr

namespace PartitionInfo

/-! ## Range partitions -/

/-- What the predicates on the leading key say: an equal value, and the bounds. -/
structure EffectiveBounds where
  eqVal : Option Value := none
  lo : Option Value := none
  loExclusive : Bool := false
  hi : Option Value := none
  hiExclusive : Bool := false
  deriving DecidableEq, Repr

/-- One predicate. A lower or an upper bound is only compared with an earlier one: without an
earlier one it is skipped. -/
def EffectiveBounds.tighten (e : EffectiveBounds) (p : ScanPredicate) :
    Except Error EffectiveBounds :=
  match p.op with
  | .eq => .ok { e with eqVal := some p.bound }
  | .ge =>
    match e.lo with
    | none => .ok e
    | some lo => do
      if ← p.bound.lt lo then pure e
      else if (← p.bound.eq lo) && e.loExclusive then pure e
      else pure { e with lo := some p.bound, loExclusive := false }
  | .gt =>
    match e.lo with
    | none => .ok e
    | some lo => do
      if ← p.bound.lt lo then pure e
      else pure { e with lo := some p.bound, loExclusive := true }
  | .le =>
    match e.hi with
    | none => .ok e
    | some hi => do
      if ← hi.lt p.bound then pure e
      else if (← p.bound.eq hi) && e.hiExclusive then pure e
      else pure { e with hi := some p.bound, hiExclusive := false }
  | .lt =>
    match e.hi with
    | none => .ok e
    | some hi => do
      if ← hi.lt p.bound then pure e
      else pure { e with hi := some p.bound, hiExclusive := true }

/-- `LeadingUB`: the leading bound of a partition, if it is bounded. -/
def leadingUB (defs : List PartitionDef) (i : ℕ) : Option Value :=
  (defs[i]?.bind fun d => d.upperBounds.head?).filter fun v => !v.isNull

/-- The binary search for the first partition that ends above the lower bound. -/
def searchLo (defs : List PartitionDef) (effLo : Value) : ℕ → ℕ → ℕ → Except Error ℕ
  | 0, lo, _ => .ok lo
  | fuel + 1, lo, hi =>
    if lo < hi then do
      let mid := (lo + hi) / 2
      let skip ← match leadingUB defs mid with
        | none => pure false
        | some ub => (effLo.lt ub).map not
      if skip then searchLo defs effLo fuel (mid + 1) hi else searchLo defs effLo fuel lo mid
    else .ok lo

/-- The binary search for the first partition that starts above the upper bound. -/
def searchHi (defs : List PartitionDef) (effHi : Value) (exclusive : Bool) :
    ℕ → ℕ → ℕ → Except Error ℕ
  | 0, lo, _ => .ok lo
  | fuel + 1, lo, hi =>
    if lo < hi then do
      let mid := (lo + hi) / 2
      let exclude ← match leadingUB defs (mid - 1) with
        | none => pure false
        | some lb => if exclusive then (lb.lt effHi).map not else effHi.lt lb
      if exclude then searchHi defs effHi exclusive fuel lo mid
      else searchHi defs effHi exclusive fuel (mid + 1) hi
    else .ok lo

/-- The range partitions between two bounds. -/
def rangeBetween (defs : List PartitionDef) (e : EffectiveBounds) : Except Error (List ℕ) := do
  let n := defs.length
  let loPid ← match e.lo with
    | none => pure 0
    | some lo => searchLo defs lo n 0 n
  let hiPid ← match e.hi with
    | none => pure (if n = 0 then 2 ^ 32 - 1 else n - 1)
    | some hi => do
      let lo ← searchHi defs hi e.hiExclusive n 1 n
      pure (lo - 1)
  pure (range' loPid (hiPid + 1 - loPid))

/-! ## List partitions -/

/-- Whether a partition has a tuple with the given leading value. -/
def headMatches (v : Value) : List (List Value) → Except Error Bool
  | [] => .ok false
  | [] :: tuples => headMatches v tuples
  | (t :: _) :: tuples => do if ← v.eq t then pure true else headMatches v tuples

/-- The list partitions, counting from `i`, that name the leading value. -/
def listMatching (v : Value) : ℕ → List PartitionDef → Except Error (List ℕ)
  | _, [] => .ok []
  | i, d :: defs => do
    let found ← headMatches v d.listValues
    let rest ← listMatching v (i + 1) defs
    pure (if found then i :: rest else rest)

/-! ## `PrunedPartitions` -/

/-- The bound of the first equality among some predicates. -/
def firstEq (predicates : List ScanPredicate) : Option Value :=
  (predicates.find? fun p => p.op = .eq).map ScanPredicate.bound

/-- The predicates on a column. -/
def predicatesOn (predicates : List ScanPredicate) (col : ℤ) : List ScanPredicate :=
  predicates.filter fun p => (p.colIdx : ℤ) = col

/-- The predicates on the leading key column. The array for them has 64 places. -/
def leadingPredicates (pi : PartitionInfo) (predicates : List ScanPredicate) :
    List ScanPredicate :=
  match pi.partitionColIdxs with
  | [] => []
  | col :: _ => (predicatesOn predicates col).take 64

/-- The call of `RouteRow` within `PrunedPartitions`. -/
def routeTo (P : Platform) (pi : PartitionInfo) (keys : List Value) :
    Option (Except Error (List ℕ)) :=
  (pi.routeRow P keys).map fun r => r.map fun i => [i]

/-- `PrunedPartitions`. No result is undefined behaviour: the list case reads all 64 places of
the array until it finds an equality, also those that were not filled. -/
def prunedPartitions (P : Platform) (pi : PartitionInfo) (predicates : List ScanPredicate) :
    Option (Except Error (List ℕ)) :=
  let all := range pi.numPartitions
  let leading := pi.leadingPredicates predicates
  if leading.isEmpty then some (.ok all)
  else match pi.type with
    | .range =>
      match leading.foldlM EffectiveBounds.tighten {} with
      | .error e => some (.error e)
      | .ok e =>
        match e.eqVal with
        | some v => pi.routeTo P [v]
        | none => some (rangeBetween pi.defs e)
    | .hash =>
      if pi.partitionColIdxs.length = 1 then
        match firstEq leading with
        | some v => pi.routeTo P [v]
        | none => some (.ok all)
      else
        match pi.partitionColIdxs.mapM fun col => firstEq (predicatesOn predicates col) with
        | some vals => pi.routeTo P (vals.take 8)
        | none => some (.ok all)
    | .list =>
      match firstEq leading with
      | some v => some (listMatching v 0 pi.defs)
      | none => if leading.length < 64 then none else some (.ok all)
    | .none | .unnamed _ _ => some (.ok all)

end PartitionInfo

/-! ## Equal values -/

namespace Double

theorem lt_congr {x y : UInt64} (h : eq x y = true) (z : UInt64) :
    lt x z = lt y z ∧ lt z x = lt z y ∧ eq x z = eq y z := by
  simp only [eq, Bool.and_eq_true, decide_eq_true_eq] at h
  obtain ⟨⟨hx, hy⟩, hkey⟩ := h
  simp [lt, eq, hx, hy, hkey]

theorem lt_asymm {x y : UInt64} (h : lt x y = true) : lt y x = false := by
  simp only [lt, Bool.and_eq_true, decide_eq_true_eq] at h
  simp [lt, h.2.le]

end Double

namespace Value

variable {a b : Value}

/-- Equal values are the same, except that the two zeros are equal. -/
theorem eq_true_cases (h : a.eq b = .ok true) :
    a.isNull = false ∧ (b = a ∨ ∃ x y, a.data = .float x ∧ b = { a with data := .float y } ∧
      Double.eq x y = true) := by
  obtain ⟨ta, da⟩ := a
  obtain ⟨tb, db⟩ := b
  rw [eq, compareWith] at h
  split at h
  next => cases h
  next htype =>
    obtain rfl : ta = tb := by simpa using htype
    cases ta <;> cases da <;> cases db <;> simp_all [isNull]

/-- Equal values compare alike. -/
theorem congr_of_eq (h : a.eq b = .ok true) (c : Value) :
    b.lt c = a.lt c ∧ c.lt b = c.lt a ∧ b.eq c = a.eq c := by
  obtain ⟨_, rfl | ⟨x, y, hx, rfl, heq⟩⟩ := eq_true_cases h
  · exact ⟨rfl, rfl, rfl⟩
  · obtain ⟨ta, da⟩ := a
    obtain ⟨tc, dc⟩ := c
    obtain rfl : da = .float x := hx
    have hd := fun z => Double.lt_congr heq z
    cases ta <;> cases dc <;> simp [lt, Value.eq, compareWith, hd]

theorem hash_of_eq (h : a.eq b = .ok true) (P : Platform) : b.hash P = a.hash P := by
  obtain ⟨_, rfl | ⟨x, y, hx, rfl, heq⟩⟩ := eq_true_cases h
  · rfl
  · obtain ⟨ta, da⟩ := a
    obtain rfl : da = .float x := hx
    cases ta <;> simp [hash, P.hashDouble_eq x y heq]

theorem isNull_of_eq (h : a.eq b = .ok true) : b.isNull = false := by
  obtain ⟨hnull, rfl | ⟨x, y, hx, rfl, heq⟩⟩ := eq_true_cases h
  · exact hnull
  · exact hnull

theorem lt_error {e : Error} (h : a.lt b = .error e) : b.lt a = .error e := by
  obtain ⟨ta, da⟩ := a
  obtain ⟨tb, db⟩ := b
  rw [lt, compareWith] at h ⊢
  split at h
  next => cases h
  next htype =>
    obtain rfl : ta = tb := by simpa using htype
    cases ta <;> cases da <;> cases db <;> simp_all

theorem lt_asymm (h : a.lt b = .ok true) : b.lt a = .ok false := by
  obtain ⟨ta, da⟩ := a
  obtain ⟨tb, db⟩ := b
  rw [lt, compareWith] at h ⊢
  split at h
  next => cases h
  next htype =>
    obtain rfl : ta = tb := by simpa using htype
    cases ta <;> cases da <;> cases db <;>
      simp_all [Double.lt_asymm, Std.le_of_lt]

end Value

/-! ## Routing -/

namespace PartitionInfo

/-- The first range partition whose leading bound is not below the leading key takes the whole
key tuple. -/
def TakesWhole (keys : List Value) : List PartitionDef → Prop
  | [] => True
  | d :: defs =>
    match keys, d.upperBounds with
    | key :: _, u :: _ =>
      if u.lt key = .ok true then TakesWhole keys defs
      else belowBounds keys d.upperBounds = .ok true
    | _, _ => True

variable {defs : List PartitionDef} {d : PartitionDef} {n : ℕ} {keys us : List Value} {i : ℕ}

/-- The first values decide, unless neither is below the other and both tuples go on. -/
theorem belowBounds_cons {key u : Value} :
    belowBounds (key :: keys) (u :: us) = (do
      if ← u.lt key then pure false
      else if key.lt u = .ok true ∨ keys = [] ∨ us = [] then pure true
      else belowBounds keys us) := by
  rw [belowBounds]
  rcases huk : u.lt key with e | _ | _
  · simp [Value.lt_error huk]
  · rcases hku : key.lt u with e | _ | _
    · cases huk.symm.trans (Value.lt_error hku)
    all_goals simp
  · simp [Value.lt_asymm huk]

theorem routeRange_cons_iff {r : Option ℕ} : routeRange keys n (d :: defs) = .ok r ↔
    (d.upperBounds = [] ∨ belowBounds keys d.upperBounds = .ok true) ∧ r = some n ∨
      d.upperBounds ≠ [] ∧ belowBounds keys d.upperBounds = .ok false ∧
        routeRange keys (n + 1) defs = .ok r := by
  rw [routeRange]
  cases d.upperBounds with
  | nil => simp [eq_comm]
  | cons u us =>
    rcases belowBounds keys (u :: us) with e | _ | _ <;>
      simp [eq_comm]

theorem routeRange_bounds
    (h : routeRange keys n defs = .ok (some i)) : n ≤ i ∧ i < n + defs.length := by
  induction defs generalizing n with
  | nil => cases h
  | cons d defs ih =>
    rw [length_cons]
    obtain ⟨_, hi⟩ | ⟨_, _, h⟩ := routeRange_cons_iff.mp h
    · cases hi
      omega
    · have hrest := ih h
      omega

theorem routeRange_ne_none
    (hopen : ∃ d ∈ defs, d.upperBounds = []) : routeRange keys n defs ≠ .ok none := by
  intro h
  induction defs generalizing n with
  | nil => simp at hopen
  | cons d defs ih =>
    obtain ⟨_, hnone⟩ | ⟨hbounded, _, h⟩ := routeRange_cons_iff.mp h
    · cases hnone
    · obtain ⟨d', hmem, hd'⟩ := hopen
      rcases mem_cons.mp hmem with rfl | hmem
      · exact hbounded hd'
      · exact ih ⟨d', hmem, hd'⟩ h

variable {v : Value} {tuples : List (List Value)} {key : Value} {ids : List ℕ}

/-- **A leading key alone is routed to the first partition that its tuple does not pass by its
leading bound**, and the tuple with it if that partition takes the whole tuple. -/
theorem routeRange_leading (heq : key.eq v = .ok true)
    (h : routeRange (key :: keys) n defs = .ok (some i)) :
    ∃ j, routeRange [v] n defs = .ok (some j) ∧ (i = j ↔ TakesWhole (key :: keys) defs) := by
  induction defs generalizing n with
  | nil => cases h
  | cons d defs ih =>
    rw [routeRange_cons_iff] at h
    simp only [routeRange_cons_iff, TakesWhole]
    cases hub : d.upperBounds with
    | nil =>
      obtain rfl : i = n := by simpa [hub] using h
      exact ⟨i, .inl ⟨.inl rfl, rfl⟩, by simp⟩
    | cons u us =>
      rw [hub] at h
      have hone : belowBounds [v] (u :: us) = (u.lt key).map (!·) := by
        rw [belowBounds_cons, (Value.congr_of_eq heq u).2.1]
        rcases u.lt key with e | _ | _ <;> simp [Except.map]
      dsimp only
      rw [hone]
      rcases huk : u.lt key with e | _ | _
      · simp [belowBounds_cons, huk] at h
      · -- the leading key does not pass the bound: the rest of the tuple decides
        refine ⟨n, .inl ⟨.inr rfl, rfl⟩, ?_⟩
        obtain ⟨hwhole, hi⟩ | ⟨_, hnot, h⟩ := h
        · exact iff_of_true (some.inj hi) (hwhole.resolve_left (cons_ne_nil u us))
        · have hi := routeRange_bounds h
          exact iff_of_false (by omega) (by simp [hnot])
      · obtain ⟨j, hj, hiff⟩ := ih (by
          simpa [belowBounds_cons, huk] using h)
        exact ⟨j, .inr ⟨cons_ne_nil u us, rfl, hj⟩, by rwa [if_pos rfl]⟩

theorem routeList_inv (h : routeList keys n defs = .ok (some i)) :
    ∃ d, n ≤ i ∧ defs[i - n]? = some d ∧ matchesAny keys d.listValues = .ok true := by
  induction defs generalizing n with
  | nil => cases h
  | cons d defs ih =>
    rw [routeList] at h
    cases hm : matchesAny keys d.listValues with
    | error e =>
      rw [hm] at h
      cases h
    | ok b =>
      rw [hm] at h
      cases b with
      | true =>
        cases h
        exact ⟨d, le_rfl, by simp, hm⟩
      | false =>
        obtain ⟨d', hle, hd', hmatch⟩ := ih h
        refine ⟨d', by omega, ?_, hmatch⟩
        rwa [show i - n = i - (n + 1) + 1 by omega, getElem?_cons_succ]

theorem headMatches_congr (heq : key.eq v = .ok true) (tuples : List (List Value)) :
    headMatches v tuples = headMatches key tuples := by
  induction tuples with
  | nil => rfl
  | cons t tuples ih =>
    cases t with
    | nil => exact ih
    | cons u us => rw [headMatches, headMatches, ih, (Value.congr_of_eq heq u).2.2]

theorem headMatches_of_mem {b : Bool} (hb : headMatches v tuples = .ok b) {u : Value}
    (hu : u :: us ∈ tuples) (heq : v.eq u = .ok true) : b = true := by
  induction tuples with
  | nil => cases hu
  | cons t tuples ih =>
    cases t with
    | nil => exact ih hb (by simpa using hu)
    | cons w ws =>
      obtain ⟨e, he, hb⟩ := bind_eq_ok_iff.mp hb
      cases e with
      | true =>
        cases hb
        rfl
      | false =>
        refine ih hb ((mem_cons.mp hu).resolve_left fun h => ?_)
        cases h
        cases heq.symm.trans he

/-- A tuple that names the keys has their leading value. -/
theorem exists_of_matchesAny (hne : ∀ t ∈ tuples, t ≠ [])
    (hm : matchesAny (key :: keys) tuples = .ok true) :
    ∃ u us, u :: us ∈ tuples ∧ key.eq u = .ok true := by
  induction tuples with
  | nil => cases hm
  | cons t tuples ih =>
    obtain ⟨hnil, hrest⟩ := forall_mem_cons.mp hne
    obtain ⟨u, us, rfl⟩ := exists_cons_of_ne_nil hnil
    rw [matchesAny, matchesTuple] at hm
    cases heq : key.eq u with
    | error e =>
      rw [heq] at hm
      cases hm
    | ok e =>
      cases e with
      | true => exact ⟨u, us, mem_cons_self, heq⟩
      | false =>
        rw [heq] at hm
        obtain ⟨u, us, hu, heq⟩ := ih hrest hm
        exact ⟨u, us, mem_cons_of_mem _ hu, heq⟩

theorem listMatching_cons : listMatching v n (d :: defs) = .ok ids ↔
      ∃ b rest, headMatches v d.listValues = .ok b ∧ listMatching v (n + 1) defs = .ok rest ∧
        ids = if b then n :: rest else rest := by
  rw [listMatching]
  cases headMatches v d.listValues with
  | error e => simp
  | ok b =>
    cases listMatching v (n + 1) defs with
    | error e => simp
    | ok rest => simp [eq_comm]

theorem exists_listMatching : (∃ ids, listMatching v n defs = .ok ids) ↔
      ∀ d ∈ defs, ∃ b, headMatches v d.listValues = .ok b := by
  induction defs generalizing n with
  | nil => simp [listMatching]
  | cons d defs ih =>
    rw [forall_mem_cons, ← ih]
    constructor
    · rintro ⟨ids, h⟩
      obtain ⟨b, rest, hb, hrest, _⟩ := listMatching_cons.mp h
      exact ⟨⟨b, hb⟩, rest, hrest⟩
    · rintro ⟨⟨b, hb⟩, rest, hrest⟩
      exact ⟨_, listMatching_cons.mpr ⟨b, rest, hb, hrest, rfl⟩⟩

/-- The list partitions with the leading value. -/
theorem mem_listMatching (h : listMatching v n defs = .ok ids) (hle : n ≤ i)
    (hd : defs[i - n]? = some d) (hm : headMatches v d.listValues = .ok true) : i ∈ ids := by
  induction defs generalizing n ids with
  | nil => simp at hd
  | cons d₀ defs ih =>
    obtain ⟨b, rest, hb, hrest, rfl⟩ := listMatching_cons.mp h
    rcases eq_or_lt_of_le hle with rfl | hlt
    · rw [Nat.sub_self, getElem?_cons_zero, some.injEq] at hd
      subst hd
      rw [hm] at hb
      cases hb
      simp
    · rw [show i - n = i - (n + 1) + 1 by omega] at hd
      have hmem := ih hrest hlt hd
      split
      · exact mem_cons_of_mem _ hmem
      · exact hmem

variable {vals : List Value} {h : UInt64}

theorem hashKeys_congr {P : Platform}
    (heq : Forall₂ (fun key v : Value => key.eq v = .ok true) keys vals) :
    hashKeys P h vals = hashKeys P h keys := by
  induction heq generalizing h with
  | nil => rfl
  | cons hkey _ ih =>
    rw [hashKeys, Value.hash_of_eq hkey P]
    congr 1
    funext k
    exact ih

/-- The predicates on the leading key leave the bounds unset. -/
def lastEq (predicates : List ScanPredicate) (start : Option Value) : Option Value :=
  predicates.foldl (fun v p => if p.op = .eq then some p.bound else v) start

theorem foldlM_tighten (ps : List ScanPredicate) (start : Option Value) :
    ps.foldlM EffectiveBounds.tighten { eqVal := start } =
      .ok { eqVal := lastEq ps start } := by
  induction ps generalizing start with
  | nil => rfl
  | cons p ps ih =>
    have hone : EffectiveBounds.tighten { eqVal := start } p =
        .ok { eqVal := if p.op = .eq then some p.bound else start } := by
      cases hop : p.op <;> simp [EffectiveBounds.tighten, hop]
    rw [foldlM_cons, hone]
    exact ih _

theorem lastEq_cases (ps : List ScanPredicate) (start : Option Value) :
    (∀ p ∈ ps, p.op ≠ .eq) ∧ lastEq ps start = start ∨
      ∃ p ∈ ps, p.op = .eq ∧ lastEq ps start = some p.bound := by
  induction ps generalizing start with
  | nil => exact .inl ⟨by simp, rfl⟩
  | cons p ps ih =>
    rw [lastEq, foldl_cons]
    by_cases hop : p.op = .eq
    · rw [if_pos hop]
      rcases ih (some p.bound) with ⟨_, hlast⟩ | ⟨q, hq, hqop, hlast⟩
      · exact .inr ⟨p, mem_cons_self .., hop, hlast⟩
      · exact .inr ⟨q, mem_cons_of_mem _ hq, hqop, hlast⟩
    · rw [if_neg hop]
      rcases ih start with ⟨hnone, hlast⟩ | ⟨q, hq, hqop, hlast⟩
      · exact .inl ⟨forall_mem_cons.mpr ⟨hop, hnone⟩, hlast⟩
      · exact .inr ⟨q, mem_cons_of_mem _ hq, hqop, hlast⟩

theorem firstEq_cases (ps : List ScanPredicate) : (∀ p ∈ ps, p.op ≠ .eq) ∧ firstEq ps = none ∨
      ∃ p ∈ ps, p.op = .eq ∧ firstEq ps = some p.bound := by
  rw [firstEq]
  cases hfind : ps.find? fun p => p.op = .eq with
  | none =>
    refine .inl ⟨fun p hp => ?_, rfl⟩
    simpa using find?_eq_none.mp hfind p hp
  | some p =>
    exact .inr ⟨p, mem_of_find?_eq_some hfind, by simpa using find?_some hfind, rfl⟩

/-! ## Soundness -/

/-- The key tuple meets the predicates on the key columns. -/
def Satisfies (pi : PartitionInfo) (predicates : List ScanPredicate) (keys : List Value) : Prop :=
  ∀ p ∈ predicates, ∀ (j : ℕ) (v : Value), pi.partitionColIdxs[j]? = some (p.colIdx : ℤ) →
    keys[j]? = some v → p.op.Holds v p.bound

/-- One of the predicates is an equality. -/
def HasEq (predicates : List ScanPredicate) : Prop := ∃ p ∈ predicates, p.op = .eq

/-- **Where pruning agrees with routing.** Range: with an equality on the leading key, the first
partition that the leading key does not pass takes the whole tuple. Hash: with equalities on
all keys, the first eight of them hash like all of them. List: with predicates on the leading
key, one of them is an equality and no comparison with a leading value throws, or the array
of predicates is full. -/
def Prunable (P : Platform) (pi : PartitionInfo) (predicates : List ScanPredicate)
    (keys : List Value) : Prop :=
  match pi.type with
  | .range => HasEq (pi.leadingPredicates predicates) → TakesWhole keys pi.defs
  | .hash =>
    (∀ col ∈ pi.partitionColIdxs, HasEq (predicatesOn predicates col)) →
      ∀ h h₈, hashKeys P 0 keys = .ok h → hashKeys P 0 (keys.take 8) = .ok h₈ →
        h₈.toNat % pi.numPartitions = h.toNat % pi.numPartitions
  | .list =>
    pi.leadingPredicates predicates ≠ [] →
      (HasEq (pi.leadingPredicates predicates) → ∀ d ∈ pi.defs, ∀ key ∈ keys.head?,
        ∃ b, headMatches key d.listValues = .ok b) ∧
      (¬ HasEq (pi.leadingPredicates predicates) → 64 ≤ (pi.leadingPredicates predicates).length)
  | .none | .unnamed _ _ => True

/-- Pruning keeps the partition of a key tuple. -/
def Keeps (P : Platform) (pi : PartitionInfo) (predicates : List ScanPredicate) (i : ℕ) : Prop :=
  ∃ ids, pi.prunedPartitions P predicates = some (.ok ids) ∧ i ∈ ids

variable {P : Platform} {pi : PartitionInfo} {predicates : List ScanPredicate} {key : Value}
  {keys : List Value} {i : ℕ}

/-- The leading key has the bound of every equality on it. -/
theorem Satisfies.leading (h : pi.Satisfies predicates (key :: keys)) {p : ScanPredicate}
    (hp : p ∈ pi.leadingPredicates predicates) (hop : p.op = .eq) :
    key.eq p.bound = .ok true := by
  rw [leadingPredicates] at hp
  cases hcols : pi.partitionColIdxs with
  | nil => simp [hcols] at hp
  | cons col cols =>
    rw [hcols] at hp
    have hmem := mem_of_mem_take hp
    rw [predicatesOn, mem_filter, decide_eq_true_eq] at hmem
    have hholds := h p hmem.1 0 key (by rw [hcols, hmem.2]; rfl) rfl
    rwa [hop] at hholds

theorem keeps_of_leading_nil (h : pi.leadingPredicates predicates = [])
    (hi : i < pi.numPartitions) : pi.Keeps P predicates i := by
  refine ⟨range pi.numPartitions, ?_, mem_range.mpr hi⟩
  rw [prunedPartitions]
  simp [h]

theorem any_isNull_of_routeRow (h : pi.routeRow P keys = some (.ok i)) :
    keys.any Value.isNull = false := by
  rw [routeRow] at h
  split at h
  next => simp at h
  next hnull => simpa using hnull

theorem routeRow_range_iff (htype : pi.type = .range) (hopen : ∃ d ∈ pi.defs, d.upperBounds = [])
    (hnull : keys.any Value.isNull = false) :
    pi.routeRow P keys = some (.ok i) ↔ routeRange keys 0 pi.defs = .ok (some i) := by
  rw [routeRow, if_neg (by simp [hnull]), htype]
  rcases hr : routeRange keys 0 pi.defs with e | _ | j
  · simp
  · exact absurd hr (routeRange_ne_none hopen)
  · simp

/-- Without bounds all the range partitions are kept. -/
theorem rangeBetween_nil (hdefs : defs ≠ []) :
    rangeBetween defs {} = .ok (range defs.length) := by
  have hpos := length_pos_iff.mpr hdefs
  simp [rangeBetween, hpos.ne', Nat.sub_add_cancel hpos,
    range_eq_range']

theorem prunedPartitions_range (htype : pi.type = .range)
    (hlead : pi.leadingPredicates predicates ≠ []) : pi.prunedPartitions P predicates =
      match lastEq (pi.leadingPredicates predicates) none with
      | some v => pi.routeTo P [v]
      | none => some (rangeBetween pi.defs {}) := by
  rw [prunedPartitions]
  simp only [List.isEmpty_iff, hlead, htype]
  rw [foldlM_tighten]
  cases hlast : lastEq (pi.leadingPredicates predicates) none <;> simp

theorem keeps_range_iff (htype : pi.type = .range) (hn : pi.numPartitions = pi.defs.length)
    (hopen : ∃ d ∈ pi.defs, d.upperBounds = [])
    (hroute : pi.routeRow P (key :: keys) = some (.ok i))
    (hsat : pi.Satisfies predicates (key :: keys)) :
    pi.Keeps P predicates i ↔ pi.Prunable P predicates (key :: keys) := by
  have hrange := (routeRow_range_iff htype hopen (any_isNull_of_routeRow hroute)).mp hroute
  have hi : i < pi.defs.length := by
    have := routeRange_bounds hrange
    omega
  simp only [Prunable, htype]
  by_cases hlead : pi.leadingPredicates predicates = []
  · refine iff_of_true (keeps_of_leading_nil hlead (by omega)) ?_
    rintro ⟨p, hp, _⟩
    simp [hlead] at hp
  · have hpruned := prunedPartitions_range (P := P) htype hlead
    rcases lastEq_cases (pi.leadingPredicates predicates) none with
      ⟨hnone, hlast⟩ | ⟨p, hp, hop, hlast⟩
    · -- no equality: all the partitions
      simp only [hlast, rangeBetween_nil (ne_nil_of_length_pos (i.zero_le.trans_lt hi))] at hpruned
      exact iff_of_true ⟨_, hpruned, mem_range.mpr hi⟩ fun ⟨p, hp, hop⟩ => absurd hop (hnone p hp)
    · rw [hlast] at hpruned
      have heq := hsat.leading hp hop
      obtain ⟨j, hj, hiff⟩ := routeRange_leading heq hrange
      have hto : pi.routeTo P [p.bound] = some (.ok [j]) := by
        rw [routeTo, (routeRow_range_iff htype hopen (by simp [Value.isNull_of_eq heq])).mpr hj]
        rfl
      rw [Keeps, hpruned]
      simp only [hto, some.injEq, ok.injEq, exists_eq_left', mem_singleton]
      rw [hiff]
      exact ⟨fun h _ => h, fun h => h ⟨p, hp, hop⟩⟩

theorem hashKeys_take {h₀ : UInt64} (hh : hashKeys P h₀ keys = .ok h)
    (n : ℕ) : ∃ h', hashKeys P h₀ (keys.take n) = .ok h' := by
  induction keys generalizing h₀ n with
  | nil => exact ⟨h₀, by simp [hashKeys]⟩
  | cons key keys ih =>
    cases n with
    | zero => exact ⟨h₀, rfl⟩
    | succ n =>
      obtain ⟨k, hk, hh⟩ := bind_eq_ok_iff.mp hh
      obtain ⟨h', hh'⟩ := ih hh n
      exact ⟨h', by rw [take_succ_cons, hashKeys, hk]; exact hh'⟩

/-- Values equal to the keys go to the partition of the keys' hash. -/
theorem routeTo_hash (htype : pi.type = .hash) (hpos : 0 < pi.numPartitions)
    (hn : pi.numPartitions < 2 ^ 32)
    (heq : Forall₂ (fun key v : Value => key.eq v = .ok true) keys vals)
    (hh : hashKeys P 0 keys = .ok h) :
    pi.routeTo P vals = some (.ok [h.toNat % pi.numPartitions]) := by
  have hnull : vals.any Value.isNull = false := by
    rw [List.any_eq_false]
    intro v hv
    obtain ⟨key, _, hkey⟩ := heq.exists_of_mem_right hv
    simp [Value.isNull_of_eq hkey]
  rw [routeTo, routeRow, if_neg (by simp [hnull]), htype]
  simp only [hpos.ne', hashKeys_congr heq, hh, bind, Except.bind,
    mod_eq_of_lt ((mod_lt h.toNat hpos).trans hn)]
  rfl

/-- The equalities on all key columns have the values of the keys. -/
theorem Satisfies.forall₂ (hsat : pi.Satisfies predicates keys)
    (hlen : keys.length = pi.partitionColIdxs.length)
    (hvals : pi.partitionColIdxs.mapM (fun col => firstEq (predicatesOn predicates col)) =
      some vals) :
    Forall₂ (fun key v : Value => key.eq v = .ok true) keys vals := by
  obtain ⟨hlength, hget⟩ := forall₂_iff_get.mp (mapM_eq_some_iff.mp hvals)
  refine forall₂_iff_get.mpr ⟨hlen.trans hlength, fun j hj hj' => ?_⟩
  have hcol : j < pi.partitionColIdxs.length := hlen ▸ hj
  have hfirst := hget j hcol hj'
  rcases firstEq_cases (predicatesOn predicates (pi.partitionColIdxs.get ⟨j, hcol⟩)) with
    ⟨_, hnone⟩ | ⟨p, hp, hop, hsome⟩
  · rw [hnone] at hfirst
    cases hfirst
  · rw [hsome, some.injEq] at hfirst
    rw [predicatesOn, mem_filter, decide_eq_true_eq] at hp
    have hholds := hsat p hp.1 j (keys.get ⟨j, hj⟩) (by
      rw [hp.2]
      exact getElem?_eq_getElem hcol) (getElem?_eq_getElem hj)
    rw [hop, hfirst] at hholds
    exact hholds

theorem keeps_hash_iff (htype : pi.type = .hash) (hpos : 0 < pi.numPartitions)
    (hn : pi.numPartitions < 2 ^ 32) (hlen : (key :: keys).length = pi.partitionColIdxs.length)
    (hroute : pi.routeRow P (key :: keys) = some (.ok i))
    (hsat : pi.Satisfies predicates (key :: keys)) :
    pi.Keeps P predicates i ↔ pi.Prunable P predicates (key :: keys) := by
  obtain ⟨h, hh, hi⟩ : ∃ h, hashKeys P 0 (key :: keys) = .ok h ∧ i = h.toNat % pi.numPartitions := by
    rw [routeRow, if_neg (by simp [any_isNull_of_routeRow hroute]), htype] at hroute
    simp only [hpos.ne', if_false, some.injEq] at hroute
    obtain ⟨h, hh, hroute⟩ := bind_eq_ok_iff.mp hroute
    cases hroute
    exact ⟨h, hh, mod_eq_of_lt ((mod_lt _ hpos).trans hn)⟩
  have hall : i ∈ range pi.numPartitions := by
    rw [hi, mem_range]
    exact mod_lt _ hpos
  simp only [Prunable, htype]
  by_cases hlead : pi.leadingPredicates predicates = []
  · refine iff_of_true (keeps_of_leading_nil hlead (mem_range.mp hall)) fun heqs => ?_
    cases hcols : pi.partitionColIdxs with
    | nil => simp [hcols] at hlen
    | cons col cols =>
      obtain ⟨p, hp, _⟩ := heqs col (by simp [hcols])
      rw [leadingPredicates, hcols] at hlead
      rw [(take_eq_nil_iff.mp hlead).resolve_left (by decide)] at hp
      cases hp
  rw [Keeps, prunedPartitions]
  simp only [List.isEmpty_iff, hlead, if_false, htype]
  by_cases hone : pi.partitionColIdxs.length = 1
  · -- a single key: its equality has its hash
    obtain rfl : keys = [] := by simpa [hone] using hlen
    rw [if_pos hone]
    refine iff_of_true ?_ fun _ h h₈ hh hh₈ => ?_
    · rcases firstEq_cases (pi.leadingPredicates predicates) with
        ⟨_, hfirst⟩ | ⟨p, hp, hop, hfirst⟩
      · exact ⟨_, by rw [hfirst], hall⟩
      · have hto := routeTo_hash htype hpos hn (.cons (hsat.leading hp hop) .nil) hh
        exact ⟨_, by rw [hfirst]; exact hto, by simp [hi]⟩
    · rw [take_of_length_le (by simp), hh] at hh₈
      cases hh₈
      rfl
  · rw [if_neg hone]
    cases hvals : pi.partitionColIdxs.mapM fun col => firstEq (predicatesOn predicates col) with
    | none =>
      refine iff_of_true ⟨_, rfl, hall⟩ fun heqs => ?_
      have hsome : ∀ col ∈ pi.partitionColIdxs,
          ∃ v, firstEq (predicatesOn predicates col) = some v := by
        intro col hcol
        obtain ⟨p, hp, hop⟩ := heqs col hcol
        rcases firstEq_cases (predicatesOn predicates col) with ⟨hnone, _⟩ | ⟨q, _, _, hq⟩
        · exact absurd hop (hnone p hp)
        · exact ⟨_, hq⟩
      obtain ⟨vals, hsome⟩ := exists_mapM_eq_some_iff.mpr hsome
      rw [hsome] at hvals
      cases hvals
    | some vals =>
      have heqs := hsat.forall₂ hlen hvals
      obtain ⟨h₈, hh₈⟩ := hashKeys_take hh 8
      have hto := routeTo_hash htype hpos hn (forall₂_take 8 heqs) hh₈
      have hhas : ∀ col ∈ pi.partitionColIdxs, HasEq (predicatesOn predicates col) := by
        intro col hcol
        obtain ⟨v, hv⟩ := exists_mapM_eq_some_iff.mp ⟨vals, hvals⟩ col hcol
        rcases firstEq_cases (predicatesOn predicates col) with ⟨_, hnone⟩ | ⟨p, hp, hop, _⟩
        · rw [hnone] at hv
          cases hv
        · exact ⟨p, hp, hop⟩
      simp only [hto, some.injEq, ok.injEq, exists_eq_left', mem_singleton]
      constructor
      · intro heq _ h' h₈' hh' hh₈'
        rw [hh] at hh'
        rw [hh₈] at hh₈'
        cases hh'
        cases hh₈'
        rw [← heq, hi]
      · intro hcond
        rw [hi]
        exact (hcond hhas h h₈ hh hh₈).symm

theorem keeps_list_iff (htype : pi.type = .list) (hn : pi.numPartitions = pi.defs.length)
    (htuples : ∀ d ∈ pi.defs, ∀ t ∈ d.listValues, t ≠ [])
    (hroute : pi.routeRow P (key :: keys) = some (.ok i))
    (hsat : pi.Satisfies predicates (key :: keys)) :
    pi.Keeps P predicates i ↔ pi.Prunable P predicates (key :: keys) := by
  obtain ⟨d, hd, hmatch⟩ : ∃ d, pi.defs[i]? = some d ∧
      matchesAny (key :: keys) d.listValues = .ok true := by
    rw [routeRow, if_neg (by simp [any_isNull_of_routeRow hroute]), htype] at hroute
    simp only [some.injEq] at hroute
    obtain ⟨r, hr, hroute⟩ := bind_eq_ok_iff.mp hroute
    cases r with
    | none =>
      obtain ⟨_, _, hthrow⟩ := bind_eq_ok_iff.mp hroute
      cases hthrow
    | some j =>
      cases hroute
      obtain ⟨d, _, hd, hmatch⟩ := routeList_inv hr
      exact ⟨d, hd, hmatch⟩
  have hi : i < pi.numPartitions := by
    rw [hn]
    exact (List.getElem?_eq_some_iff.mp hd).1
  simp only [Prunable, htype]
  by_cases hlead : pi.leadingPredicates predicates = []
  · exact iff_of_true (keeps_of_leading_nil hlead hi) fun hne => absurd hlead hne
  rw [Keeps, prunedPartitions]
  simp only [List.isEmpty_iff, hlead, if_false, htype, ne_eq, not_false_eq_true]
  rcases firstEq_cases (pi.leadingPredicates predicates) with ⟨hnone, hfirst⟩ | ⟨p, hp, hop, hfirst⟩
  · -- no equality: the places of the array that were not filled are read
    have hno : ¬ HasEq (pi.leadingPredicates predicates) := fun ⟨p, hp, hop⟩ => hnone p hp hop
    simp only [hfirst, hno, false_implies, not_false_eq_true, true_implies, true_and]
    split
    next hshort => simp [Nat.not_le_of_lt hshort]
    next hfull =>
      refine iff_of_true ⟨_, rfl, List.mem_range.mpr hi⟩ (Nat.le_of_not_lt hfull)
  · have hhas : HasEq (pi.leadingPredicates predicates) := ⟨p, hp, hop⟩
    have heq := hsat.leading hp hop
    simp only [hfirst, hhas, true_implies, not_true_eq_false, false_implies, and_true,
      head?_cons, mem_some_iff, forall_eq', ← headMatches_congr heq,
      some.injEq]
    rw [← exists_listMatching]
    constructor
    · rintro ⟨ids, hids, _⟩
      exact ⟨ids, hids⟩
    · rintro ⟨ids, hids⟩
      refine ⟨ids, hids, mem_listMatching hids (zero_le i) hd ?_⟩
      obtain ⟨b, hb⟩ := exists_listMatching.mp ⟨ids, hids⟩ d (mem_of_getElem? hd)
      rw [headMatches_congr heq] at hb ⊢
      obtain ⟨u, us, hu, hkey⟩ := exists_of_matchesAny (htuples d (mem_of_getElem? hd)) hmatch
      rw [hb, headMatches_of_mem hb hu hkey]

/-- **Soundness of partition pruning.** For a partitioning that the binder accepts and a key
tuple that is routed to a partition and meets the predicates on the key columns, pruning keeps
that partition exactly when the condition holds. -/
theorem keeps_iff_prunable {columns : List ColumnDefinition} {clause : PartitionClause}
    (hbind : bindPartition columns clause = .ok pi) (hpart : pi.isPartitioned)
    (hlen : keys.length = pi.partitionColIdxs.length)
    (hroute : pi.routeRow P keys = some (.ok i)) (hsat : pi.Satisfies predicates keys) :
    pi.Keeps P predicates i ↔ pi.Prunable P predicates keys := by
  obtain ⟨hcols, haccepted⟩ := accepted_of_bindPartition hbind hpart
  cases keys with
  | nil => exact absurd (length_eq_zero_iff.mp hlen.symm) hcols
  | cons key keys =>
    cases haccepted with
    | range htype hn hopen => exact keeps_range_iff htype hn hopen hroute hsat
    | hash htype hpos hn => exact keeps_hash_iff htype hpos hn hlen hroute hsat
    | list htype hn htuples => exact keeps_list_iff htype hn htuples hroute hsat

/-- The table `events (id, y, m)` of the tests. -/
def eventsColumns : List ColumnDefinition :=
  [{ name := text "id", type := .int64 }, { name := text "y", type := .int64 },
   { name := text "m", type := .int64 }]

/-- `PARTITION BY RANGE (y, m) VALUES ((2023, 1), (2023, 7), (2024, 1))`. -/
def eventsClause : PartitionClause :=
  .range [text "y", text "m"]
    [⟨.integer 2023, [.integer 1]⟩, ⟨.integer 2023, [.integer 7]⟩, ⟨.integer 2024, [.integer 1]⟩]

def eventsPartitions : PartitionInfo :=
  { type := .range, partitionCols := [text "y", text "m"], partitionColIdxs := [1, 2]
    numPartitions := 4
    defs := [{ upperBounds := [.integer 2023, .integer 1] },
      { upperBounds := [.integer 2023, .integer 7] },
      { upperBounds := [.integer 2024, .integer 1] }, {}] }

theorem bind_events : bindPartition eventsColumns eventsClause = .ok eventsPartitions := by
  decide +kernel

theorem satisfies_year {y m : Int64} :
    eventsPartitions.Satisfies [{ colIdx := 1, op := .eq, bound := .integer y }]
      [.integer y, .integer m] := by
  intro p hp j v hcol hv
  obtain rfl := mem_singleton.mp hp
  match j with
  | 0 =>
    obtain rfl : Value.integer y = v := by simpa using hv
    simp [ScanPredicateOp.Holds, Value.eq, Value.compareWith, Value.integer]
  | 1 => simp [eventsPartitions] at hcol
  | j + 2 => simp at hv

/-- A search for the year 2022 keeps the partition of December 2022. -/
theorem keeps_december :
    eventsPartitions.routeRow .plain [.integer 2022, .integer 12] = some (.ok 0) ∧
      eventsPartitions.Keeps .plain [{ colIdx := 1, op := .eq, bound := .integer 2022 }] 0 := by
  have hroute : eventsPartitions.routeRow .plain [.integer 2022, .integer 12] = some (.ok 0) := by
    decide +kernel
  refine ⟨hroute, (keeps_iff_prunable bind_events rfl rfl hroute satisfies_year).mpr fun _ => ?_⟩
  simp only [eventsPartitions, TakesWhole]
  decide +kernel

/-- September 2023 is past the bounds of the first two partitions, but a search for the year
2023 only keeps the first one. -/
theorem prunes_september : bindPartition eventsColumns eventsClause = .ok eventsPartitions ∧
      eventsPartitions.Satisfies [{ colIdx := 1, op := .eq, bound := .integer 2023 }]
        [.integer 2023, .integer 9] ∧
      eventsPartitions.routeRow .plain [.integer 2023, .integer 9] = some (.ok 2) ∧
      eventsPartitions.prunedPartitions .plain
        [{ colIdx := 1, op := .eq, bound := .integer 2023 }] = some (.ok [0]) :=
  ⟨bind_events, satisfies_year, by decide +kernel, by decide +kernel⟩

/-! ## Tightness of range pruning -/

section Tight

variable {K : Type} [LinearOrder K] (place : Value → K)

/-- A place in the order of the keys meets a predicate. -/
def Admits (p : ScanPredicate) (x : K) : Prop :=
  match p.op with
  | .eq => x = place p.bound
  | .ge => place p.bound ≤ x
  | .gt => place p.bound < x
  | .le => x ≤ place p.bound
  | .lt => x < place p.bound

/-- Some place from the bound before the partition to below its own meets the predicates. -/
def Intersects (defs : List PartitionDef) (predicates : List ScanPredicate) (i : ℕ) : Prop :=
  ∃ x, (∀ j b, j + 1 = i → leadingUB defs j = some b → place b ≤ x) ∧
    (∀ b, leadingUB defs i = some b → x < place b) ∧ ∀ p ∈ predicates, Admits place p x

open Classical in
/-- **Range pruning is tight** only where there is nothing to prune: a lower or an upper bound
is never set. -/
theorem prunes_tightly_iff {col : ℕ} (htype : pi.type = .range)
    (hcols : pi.partitionColIdxs = [(col : ℤ)]) (hdefs : pi.defs ≠ []) (hne : predicates ≠ [])
    (hpreds : ∀ p ∈ predicates, p.colIdx = col ∧ p.op ≠ .eq) :
    pi.prunedPartitions P predicates = some (.ok ((range pi.defs.length).filter
        (Intersects place pi.defs predicates ·))) ↔
      ∀ i < pi.defs.length, Intersects place pi.defs predicates i := by
  have hlead : pi.leadingPredicates predicates = predicates.take 64 := by
    simp only [leadingPredicates, hcols, predicatesOn]
    rw [filter_eq_self.mpr]
    simpa using fun p hp => (hpreds p hp).1
  have hpruned := @prunedPartitions_range P pi predicates htype (by simpa [hlead] using hne)
  rcases lastEq_cases (pi.leadingPredicates predicates) none with ⟨-, hlast⟩ | ⟨p, hp, hop, -⟩
  · simp only [hlast, rangeBetween_nil hdefs] at hpruned
    rw [hpruned, some.injEq, ok.injEq, eq_comm, filter_eq_self]
    simp
  · rw [hlead] at hp
    exact absurd hop (hpreds p (mem_of_mem_take hp)).2

/-- One key column with the bound 10. -/
def byTen : PartitionInfo :=
  { type := .range, partitionColIdxs := [0], numPartitions := 2
    defs := [{ upperBounds := [.integer 10] }, {}] }

/-- The keys below 10 and those from 10 on. -/
def rank (v : Value) : ℚ := if v = .integer 10 then 1 else 0

open Classical in
/-- Both partitions have keys from 5 on. -/
theorem prunes_tightly_from_five : byTen.prunedPartitions .plain
    [{ colIdx := 0, op := .ge, bound := .integer 5 }] = some (.ok ((range 2).filter
      (Intersects rank byTen.defs [{ colIdx := 0, op := .ge, bound := .integer 5 }] ·))) := by
  refine (prunes_tightly_iff rank rfl (show _ = [((0 : ℕ) : ℤ)] from rfl) (by decide) (by decide)
    (by simp)).mpr fun i hi => ?_
  have hten : rank (.integer 10) = 1 := if_pos rfl
  have hfive : rank (.integer 5) = 0 := if_neg (by decide)
  obtain rfl | rfl : i = 0 ∨ i = 1 := by
    have : i < 2 := hi
    omega
  · refine ⟨0, by simp, fun b hb => ?_, by simp [Admits, hfive]⟩
    cases hb
    rw [hten]
    exact one_pos
  · refine ⟨1, fun j b hj hb => ?_, by simp [byTen, leadingUB], by simp [Admits, hfive]⟩
    obtain rfl : j = 0 := by omega
    cases hb
    exact hten.le

/-- From 11 on the first partition is kept, although all its keys are smaller. -/
theorem prunes_loosely_from_eleven : byTen.prunedPartitions .plain
      [{ colIdx := 0, op := .ge, bound := .integer 11 }] = some (.ok [0, 1]) ∧
    ∀ place : Value → ℚ, place (.integer 10) < place (.integer 11) →
      ¬ Intersects place byTen.defs [{ colIdx := 0, op := .ge, bound := .integer 11 }] 0 := by
  refine ⟨by decide +kernel, ?_⟩
  rintro place hplace ⟨x, -, hlt, hp⟩
  exact absurd ((hlt _ rfl).trans hplace) (not_lt.mpr (hp _ (mem_singleton_self _)))

end Tight

/-! ## List pruning -/

/-- Comparing the leading values of the tuples with `v` does not throw before an equal one. -/
def HeadsCompare (v : Value) : List (List Value) → Prop
  | [] => True
  | [] :: tuples => HeadsCompare v tuples
  | (u :: _) :: tuples => v.eq u = .ok true ∨ v.eq u = .ok false ∧ HeadsCompare v tuples

theorem exists_headMatches_iff :
    (∃ b, headMatches v tuples = .ok b) ↔ HeadsCompare v tuples := by
  induction tuples with
  | nil => simp [headMatches, HeadsCompare]
  | cons t tuples ih =>
    cases t with
    | nil => exact ih
    | cons u us =>
      rw [HeadsCompare, ← ih, headMatches]
      cases v.eq u with
      | error e => simp
      | ok e => cases e <;> simp

/-- **List pruning** returns every partition with the leading value of the first equality, or
all without an equality, exactly when it can compare that value, or the array is full. -/
theorem prunes_list_iff {col : ℤ} {cols : List ℤ} (htype : pi.type = .list)
    (hcols : pi.partitionColIdxs = col :: cols) (hne : predicatesOn predicates col ≠ [])
    (hmax : (predicatesOn predicates col).length ≤ 64) :
    (∃ ids, pi.prunedPartitions P predicates = some (.ok ids) ∧
      match firstEq (predicatesOn predicates col) with
      | some v => ∀ i d, pi.defs[i]? = some d → (∃ u us, u :: us ∈ d.listValues ∧
          v.eq u = .ok true) → i ∈ ids
      | none => ids = range pi.numPartitions) ↔
    match firstEq (predicatesOn predicates col) with
    | some v => ∀ d ∈ pi.defs, HeadsCompare v d.listValues
    | none => (predicatesOn predicates col).length = 64 := by
  have hlead : pi.leadingPredicates predicates = predicatesOn predicates col := by
    simp only [leadingPredicates, hcols, take_of_length_le hmax]
  rw [prunedPartitions]
  simp only [hlead, List.isEmpty_iff, hne, if_false, htype]
  cases firstEq (predicatesOn predicates col) with
  | none =>
    -- the places of the array that were not filled are read
    dsimp only
    split
    next hshort => simp [hshort.ne]
    next hfull => simp [le_antisymm hmax (Nat.le_of_not_lt hfull)]
  | some v =>
    simp only [some.injEq, ← exists_headMatches_iff, ← exists_listMatching (n := 0)]
    constructor
    · rintro ⟨ids, hids, -⟩
      exact ⟨ids, hids⟩
    · rintro ⟨ids, hids⟩
      refine ⟨ids, hids, ?_⟩
      rintro i d hd ⟨u, us, hu, heq⟩
      obtain ⟨b, hb⟩ := exists_listMatching.mp ⟨ids, hids⟩ d (mem_of_getElem? hd)
      exact mem_listMatching hids i.zero_le hd (headMatches_of_mem hb hu heq ▸ hb)

/-- A partition for the key 1 and one for the keys 2 and 3. -/
def byValues : PartitionInfo :=
  { type := .list, partitionColIdxs := [0], numPartitions := 2
    defs := [{ listValues := [[.integer 1]] }, { listValues := [[.integer 2], [.integer 3]] }] }

/-- A search for 3 keeps the second partition only. -/
theorem prunes_list_equal : ∃ ids, byValues.prunedPartitions .plain
    [{ colIdx := 0, op := .eq, bound := .integer 3 }] = some (.ok ids) ∧ 1 ∈ ids ∧ 0 ∉ ids := by
  have hcompare : ∀ d ∈ byValues.defs, HeadsCompare (.integer 3) d.listValues :=
    forall_mem_cons.mpr ⟨.inr ⟨rfl, trivial⟩, forall_mem_singleton.mpr (.inr ⟨rfl, .inl rfl⟩)⟩
  obtain ⟨ids, hids, hmem⟩ := (@prunes_list_iff .plain byValues [⟨0, .eq, .integer 3⟩] 0 [] rfl rfl
    (by decide) (by decide)).mpr hcompare
  refine ⟨ids, hids, hmem 1 _ rfl ⟨.integer 3, [], by decide, rfl⟩, ?_⟩
  cases hids
  decide

/-- A comparison alone makes it read a predicate that is not there. -/
theorem prunes_list_greater : byValues.prunedPartitions .plain
    [{ colIdx := 0, op := .gt, bound := .integer 1 }] = none := rfl

end PartitionInfo

end CppColDB
