import CppColDB.Execution.Aggregate
import CppColDB.Execution.EquiJoin
import CppColDB.Execution.SortRows
import CppColDB.Lib.Chains

/-!
# The groups of an aggregation

What the accumulators and the hash table hold after some rows, as long as no group key is
NULL: a group for each key, with the aggregates of the rows that have it.
-/

namespace CppColDB

open Bool Cell Datum Fallible JoinHashTable List Option PhysicalHashAggregation Row Selection

/-! ## What an aggregate is -/

/-- No other value of the cells comes before `x`, which is one of them. -/
def Extreme (less : Datum → Datum → Bool) (x : Datum) (cells : List Cell) : Prop :=
  some x ∈ cells ∧ ∀ y, some y ∈ cells → less y x = false

/-- The order of `MIN`; that of `MAX` is the other way round. -/
def Datum.less (a b : Datum) : Bool := decide (a.compare b = .lt)

/-- **The result of an aggregate** over the given cells. -/
def AggFunc.IsResult (func : AggFunc) (cells : List Cell) (result : Cell) : Prop :=
  match func with
  | .count => result = some (.int (Int64.ofNat (cells.filter isSome).length))
  | .min => ((∀ c ∈ cells, c = none) ∧ result = none) ∨
      ∃ x, result = some x ∧ Extreme less x cells
  | .max => ((∀ c ∈ cells, c = none) ∧ result = none) ∨
      ∃ x, result = some x ∧ Extreme (fun a b => b.less a) x cells
  | .sum | .avg => True

namespace Extreme

variable {less : Datum → Datum → Bool} {x v : Datum} {cells : List Cell}

theorem keep (h : Extreme less x cells) (hv : less v x = false) :
    Extreme less x (cells ++ [some v]) := by
  refine ⟨mem_append_left _ h.1, fun y hy => ?_⟩
  obtain hy | hy := mem_append.mp hy
  · exact h.2 y hy
  · cases mem_singleton.mp hy
    exact hv

theorem replace (h : Extreme less x cells) (hv : less v x = true) (hirrefl : less v v = false)
    (htrans : ∀ y, some y ∈ cells → less y v = true → less v x = true → less y x = true) :
    Extreme less v (cells ++ [some v]) := by
  refine ⟨mem_append_right _ (mem_singleton_self _), fun y hy => ?_⟩
  obtain hy | hy := mem_append.mp hy
  · rw [eq_false_iff]
    intro hyv
    exact false_ne_true ((h.2 y hy).symm.trans (htrans y hy hyv hv))
  · cases mem_singleton.mp hy
    exact hirrefl

theorem first (hirrefl : less v v = false) (hnone : ∀ c ∈ cells, c = none) :
    Extreme less v (cells ++ [some v]) := by
  refine ⟨mem_append_right _ (mem_singleton_self _), fun y hy => ?_⟩
  obtain hy | hy := mem_append.mp hy
  · cases hnone _ hy
  · cases mem_singleton.mp hy
    exact hirrefl

theorem null (h : Extreme less x cells) : Extreme less x (cells ++ [none]) := by
  refine ⟨mem_append_left _ h.1, fun y hy => ?_⟩
  obtain hy | hy := mem_append.mp hy
  · exact h.2 y hy
  · cases mem_singleton.mp hy

end Extreme

/-! ## The order of the boxes -/

/-- A type whose values are compared as what they are: not a floating-point number. -/
structure TypeId.Comparable (type : TypeId) : Prop where
  named : type.storageClass ≠ .none
  exact : type.storageClass ≠ .float

variable {x y : Datum}

theorem Cell.lt_box {type : TypeId} (htype : type.Comparable)
    (hx : type.Admits x) (hy : type.Admits y) :
    (x.box type).lt (y.box type) = .ok (x.less y) := by
  obtain ⟨hx, hxb⟩ := hx
  obtain ⟨hy, hyb⟩ := hy
  by_cases hbool : type = .boolean
  · subst hbool
    obtain rfl | rfl := hxb rfl <;> obtain rfl | rfl := hyb rfl <;> decide +kernel
  · cases x <;> cases y <;> cases type <;>
      simp_all [Datum.storageClass, TypeId.storageClass, Datum.box, Value.lt, Value.compareWith,
        Datum.less, Datum.compare, threeWay_eq_lt_iff]

variable {cls : TypeId.StorageClass} {types : List TypeId}

theorem Datum.transCmp_compare (hcls : cls ≠ .float) :
    Std.TransCmp fun x y : { x : Datum // x.storageClass = cls } => x.1.compare y.1 :=
  transCmp_compareKey true (fun x : { x : Datum // x.storageClass = cls } => some x.1) hcls
    fun x _ hy => some.inj hy ▸ x.2

theorem Datum.less_irrefl (hcls : cls ≠ .float) (hx : x.storageClass = cls) : x.less x = false := by
  have htrans := transCmp_compare hcls
  have hself : x.compare x = .eq := @Std.ReflCmp.compare_self
    { x : Datum // x.storageClass = cls } (fun x y => x.1.compare y.1) inferInstance ⟨x, hx⟩
  rw [less, hself]
  rfl

theorem Datum.less_trans (hcls : cls ≠ .float) {z : Datum} (hx : x.storageClass = cls)
    (hy : y.storageClass = cls) (hz : z.storageClass = cls) (hxy : x.less y = true)
    (hyz : y.less z = true) : x.less z = true := by
  rw [less, decide_eq_true_eq] at *
  exact @Std.TransCmp.lt_trans _ _ (transCmp_compare hcls) ⟨x, hx⟩ ⟨y, hy⟩ ⟨z, hz⟩ hxy hyz

/-! ## Accumulators -/

namespace AggregateState

/-- The accumulator of an aggregate over the given cells of a column. -/
def Accumulates (type : TypeId) (func : AggFunc) (cells : List Cell) (state : AggregateState) :
    Prop :=
  match func with
  | .count => state.count = (cells.filter isSome).length
  | .min =>
    if state.minSet then ∃ x, state.minVal = x.box type ∧ Extreme less x cells
    else ∀ c ∈ cells, c = none
  | .max =>
    if state.maxSet then
      ∃ x, state.maxVal = x.box type ∧ Extreme (fun a b => b.less a) x cells
    else ∀ c ∈ cells, c = none
  | .sum | .avg => False

variable {D : DoubleOps} {type : TypeId} {func : AggFunc} {cells : List Cell} {c : Cell}
  {state : AggregateState}

theorem accumulates_nil (hfunc : func ≠ .sum ∧ func ≠ .avg) :
    Accumulates type func [] {} := by
  cases func with
  | sum => exact absurd rfl hfunc.1
  | avg => exact absurd rfl hfunc.2
  | count => rfl
  | min | max => exact fun c hc => nomatch hc

/-- **One more row**. -/
theorem Accumulates.update (htype : type.Comparable) (hcells : ∀ c ∈ cells, type.AdmitsCell c)
    (hc : type.AdmitsCell c) (h : Accumulates type func cells state) :
    ∃ state', state.update D func ⟨type, c⟩ = some (.ok state') ∧
      Accumulates type func (cells ++ [c]) state' := by
  cases c with
  | none =>
    refine ⟨state, rfl, ?_⟩
    have hall : (∀ c ∈ cells, c = none) → ∀ c ∈ cells ++ [none], c = none := by
      simp [or_imp]
    cases func with
    | sum | avg => exact h
    | count => simpa [Accumulates] using h
    | min | max =>
      rw [Accumulates] at h ⊢
      split at h
      next hset =>
        rw [if_pos hset]
        obtain ⟨x, hx, hext⟩ := h
        exact ⟨x, hx, hext.null⟩
      next hset =>
        rw [if_neg hset]
        exact hall h
  | some v =>
    have hv := hc v rfl
    have hclass : ∀ y, some y ∈ cells → y.storageClass = type.storageClass := fun y hy =>
      (hcells _ hy y rfl).1
    have hirrefl := less_irrefl htype.exact hv.1
    cases func with
    | sum | avg => exact h.elim
    | count =>
      refine ⟨_, rfl, ?_⟩
      simpa [Accumulates] using h
    | min =>
      rw [Accumulates] at h
      cases hset : state.minSet with
      | false =>
        rw [hset] at h
        refine ⟨{ state with minVal := v.box type, minSet := true, count := state.count + 1 },
          ?_, ?_⟩
        · rw [AggregateState.update]
          rw [hset]
          rfl
        · exact ⟨v, rfl, .first hirrefl h⟩
      | true =>
        rw [hset] at h
        obtain ⟨x, hx, hext⟩ := h
        have hlt := lt_box htype hv (hcells _ hext.1 x rfl)
        have hrun : state.update D .min ⟨type, some v⟩ = some (.ok (if v.less x
            then { state with minVal := v.box type, minSet := true, count := state.count + 1 }
            else { state with count := state.count + 1 })) := by
          rw [AggregateState.update]
          dsimp only [Scalar.getValue]
          rw [hset, hx, hlt]
          cases v.less x <;> rfl
        refine ⟨_, hrun, ?_⟩
        cases hless : v.less x with
        | true =>
          refine ⟨v, rfl, hext.replace hless hirrefl fun y hy hyv hvx => ?_⟩
          exact less_trans htype.exact (hclass y hy) hv.1 (hclass x hext.1) hyv hvx
        | false =>
          rw [Accumulates, if_neg Bool.false_ne_true, if_pos hset]
          exact ⟨x, hx, hext.keep hless⟩
    | max =>
      rw [Accumulates] at h
      cases hset : state.maxSet with
      | false =>
        rw [hset] at h
        refine ⟨{ state with maxVal := v.box type, maxSet := true, count := state.count + 1 },
          ?_, ?_⟩
        · rw [AggregateState.update]
          rw [hset]
          rfl
        · exact ⟨v, rfl, .first hirrefl h⟩
      | true =>
        rw [hset] at h
        obtain ⟨x, hx, hext⟩ := h
        have hlt := lt_box htype (hcells _ hext.1 x rfl) hv
        have hrun : state.update D .max ⟨type, some v⟩ = some (.ok (if x.less v
            then { state with maxVal := v.box type, maxSet := true, count := state.count + 1 }
            else { state with count := state.count + 1 })) := by
          rw [AggregateState.update]
          dsimp only [Scalar.getValue]
          rw [hset, hx, hlt]
          cases x.less v <;> rfl
        refine ⟨_, hrun, ?_⟩
        cases hless : x.less v with
        | true =>
          refine ⟨v, rfl, hext.replace hless hirrefl fun y hy hyv hvx => ?_⟩
          exact less_trans htype.exact (hclass x hext.1) hv.1 (hclass y hy) hvx hyv
        | false =>
          rw [Accumulates, if_neg Bool.false_ne_true, if_pos hset]
          exact ⟨x, hx, hext.keep hless⟩

end AggregateState

/-! ## Keys -/

/-- A key without NULL, in columns of the given types. -/
structure Row.IsKey (types : List TypeId) (key : Row) : Prop where
  of : key.Of types
  noNull : key.NoNull

theorem exists_hashKey {P : Platform} {key : Row} (htypes : ∀ type ∈ types, type.Comparable)
    (h : key.IsKey types) :
    ∃ hash, hashKey P (key.box types) = .ok hash := by
  rw [exists_hashKey_iff]
  obtain ⟨hof, hnull⟩ := h
  induction hof with
  | nil => exact fun v hv => nomatch hv
  | @cons type c types key hc _ ih =>
    obtain ⟨htype, htypes⟩ := forall_mem_cons.mp htypes
    obtain ⟨hcnull, hnull⟩ := forall_mem_cons.mp hnull
    refine forall_mem_cons.mpr ⟨?_, ih htypes hnull⟩
    exact (exists_hash_box htype.named htype.exact fun x hx => (hc x hx).1).mpr fun hnone =>
      absurd hnone hcnull

/-- **Boxed keys** are compared by their cells. -/
theorem valuesEqual_box {a b : Row} (htypes : ∀ type ∈ types, type.Comparable) (ha : a.IsKey types)
    (hb : b.IsKey types) :
    valuesEqual (a.box types) (b.box types) = .ok (decide (a = b)) := by
  obtain ⟨haof, hanull⟩ := ha
  obtain ⟨hbof, hbnull⟩ := hb
  induction haof generalizing b with
  | nil =>
    cases hbof
    rfl
  | @cons type c types a hc _ ih =>
    cases hbof with
    | @cons _ c' _ b hc' hbof =>
      obtain ⟨htype, htypes⟩ := forall_mem_cons.mp htypes
      obtain ⟨hcnull, hanull'⟩ := forall_mem_cons.mp hanull
      obtain ⟨hcnull', hbnull'⟩ := forall_mem_cons.mp hbnull
      obtain ⟨x, rfl⟩ := ne_none_iff_exists'.mp hcnull
      obtain ⟨y, rfl⟩ := ne_none_iff_exists'.mp hcnull'
      have heq := eq_box htype.exact (hc x rfl) (hc' y rfl)
      have hrest := ih htypes hanull' hbof hbnull'
      change (box type (some x)).eq (box type (some y)) >>= (fun equal =>
        if equal then valuesEqual (box types a) (box types b) else pure false) = _
      rw [heq]
      by_cases hxy : x = y
      · subst hxy
        simp only [hrest]
        simp
      · simp [hxy]

/-! ## The table -/

namespace AggregateHashTable

variable {P : Platform} {ht : AggregateHashTable}

/-- The accumulators of a new group. -/
def freshStates (ht : AggregateHashTable) : List AggregateState :=
  replicate ht.numAggregates {}

section Keyed

variable {κ : Type} {box : κ → List Value} {IsKey : κ → Prop}
  {groups : List (κ × List AggregateState)} {key : κ} {capacity i : ℕ} {chain : List ℕ}

/-- The bucket of a boxed key, in a table of the given capacity. -/
def boxIndex (P : Platform) (capacity : ℕ) (key : List Value) : ℕ :=
  match bucketOf P capacity key with
  | .ok h => h
  | .error _ => 0

/-- The table holds the groups of the keys, in this order. -/
structure Keyed (P : Platform) (box : κ → List Value) (IsKey : κ → Prop)
    (ht : AggregateHashTable) (groups : List (κ × List AggregateState)) : Prop where
  entries : ht.entryPool = groups.map fun g => { groupKey := box g.1, aggStates := g.2 }
  chains : Chains (fun k => boxIndex P ht.capacity (box k)) ht.buckets (groups.map Prod.fst)
  size : ht.buckets.length = ht.capacity
  pos : 0 < ht.capacity
  nodup : (groups.map Prod.fst).Nodup
  isKey : ∀ g ∈ groups, IsKey g.1

theorem boxIndex_lt {key : List Value} (hpos : 0 < capacity) : boxIndex P capacity key < capacity := by
  rw [boxIndex, bucketOf]
  cases hashKey P key with
  | error e => exact hpos
  | ok h =>
    have hle : h.toNat &&& (capacity - 1) ≤ capacity - 1 := Nat.and_le_right
    exact Nat.lt_of_le_pred hpos hle

theorem Keyed.chain_lt (h : ht.Keyed P box IsKey groups) {b : ℕ}
    (hb : ht.buckets[b]? = some chain) : ∀ i ∈ chain, i < groups.length := by
  intro i hi
  obtain ⟨k, hk, -⟩ := (h.chains.mem_iff b chain hb i).mp hi
  simpa using (List.getElem?_eq_some_iff.mp hk).1

variable [DecidableEq κ]

/-- Keys whose boxes can be hashed, and are equal for equal keys only. -/
structure Coding (P : Platform) (box : κ → List Value) (IsKey : κ → Prop) : Prop where
  hash : ∀ {k}, IsKey k → ∃ h, hashKey P (box k) = .ok h
  equal : ∀ {k k'}, IsKey k → IsKey k' → valuesEqual (box k) (box k') = .ok (decide (k = k'))

variable (hcode : Coding P box IsKey)
include hcode

theorem bucketOf_eq (hkey : IsKey key) (capacity : ℕ) :
    bucketOf P capacity (box key) = .ok (boxIndex P capacity (box key)) := by
  obtain ⟨h, hh⟩ := hcode.hash hkey
  simp [boxIndex, bucketOf, hh, Except.map]

theorem findInChain_eq (h : ht.Keyed P box IsKey groups) (hkey : IsKey key)
    (hchain : ∀ i ∈ chain, i < groups.length) :
    ht.findInChain (box key) chain =
      some (.ok (chain.find? fun i => (groups.map Prod.fst)[i]? = some key)) := by
  induction chain with
  | nil => rfl
  | cons i chain ih =>
    obtain ⟨hi, hchain⟩ := forall_mem_cons.mp hchain
    have hentry : ht.entryPool[i]? =
        some { groupKey := box groups[i].1, aggStates := groups[i].2 } := by
      rw [h.entries, getElem?_map, getElem?_eq_getElem hi]
      rfl
    have hequal := hcode.equal (h.isKey _ (getElem_mem hi)) hkey
    rw [findInChain, bind_of_ok (ofOption_eq_ok_iff.mpr hentry),
      bind_of_ok (congrArg some hequal), find?_cons]
    have hget : (groups.map Prod.fst)[i]? = some groups[i].1 := by
      rw [getElem?_map, getElem?_eq_getElem hi]
      rfl
    simp only [hget, some.injEq]
    by_cases heq : groups[i].1 = key
    · simp only [heq]
      rfl
    · simp only [heq]
      exact ih hchain

variable {states : List AggregateState}

/-- **A key that is there** is found. -/
theorem Keyed.find (h : ht.Keyed P box IsKey groups) (hi : groups[i]? = some (key, states)) :
    ht.findOrCreate P (box key) = some (.ok (i, ht)) := by
  have hkey := h.isKey _ (mem_of_getElem? hi)
  have hget : (groups.map Prod.fst)[i]? = some key := by
    rw [getElem?_map, hi]
    rfl
  obtain ⟨chain, hchain⟩ : ∃ chain, ht.buckets[boxIndex P ht.capacity (box key)]? = some chain :=
    ⟨_, getElem?_eq_getElem (h.size.symm ▸ boxIndex_lt h.pos)⟩
  have hfound : chain.find? (fun j => (groups.map Prod.fst)[j]? = some key) = some i := by
    have hsome : (chain.find? fun j => (groups.map Prod.fst)[j]? = some key).isSome = true :=
      find?_isSome.mpr ⟨i, h.chains.mem hchain hget rfl, decide_eq_true hget⟩
    obtain ⟨j, hj⟩ := isSome_iff_exists.mp hsome
    have hkeyj : (groups.map Prod.fst)[j]? = some key := by simpa using find?_some hj
    rw [hj, List.getElem?_inj (by simpa using (List.getElem?_eq_some_iff.mp hi).1) h.nodup |>.mp
      (hget.trans hkeyj.symm)]
  have hlt := h.chain_lt hchain
  rw [findOrCreate, bind_of_ok (congrArg some (bucketOf_eq hcode hkey _)),
    bind_of_ok (ofOption_eq_ok_iff.mpr hchain),
    bind_of_ok (findInChain_eq hcode h hkey hlt), hfound]
  rfl

/-- The chains of the given groups in a table of some capacity. -/
theorem exists_rebuild (hkeys : ∀ g ∈ groups, IsKey g.1) (hpos : 0 < capacity) :
    ∃ buckets, rebuild P capacity (groups.map fun g =>
        { groupKey := box g.1, aggStates := g.2 }) = .ok buckets ∧
      buckets.length = capacity ∧
      Chains (fun k => boxIndex P capacity (box k)) buckets (groups.map Prod.fst) := by
  induction groups using reverseRecOn with
  | nil => exact ⟨_, rfl, length_replicate, Chains.empty capacity⟩
  | append_singleton groups g ih =>
    obtain ⟨hgroups, hg⟩ := forall_mem_append.mp hkeys
    obtain ⟨buckets, hrun, hsize, hchains⟩ := ih hgroups
    refine ⟨buckets.modify (boxIndex P capacity (box g.1)) (groups.length :: ·), ?_, ?_, ?_⟩
    · rw [rebuild] at hrun
      rw [map_append, rebuild, zipIdx_append, foldlM_append, hrun]
      have hbucket := bucketOf_eq hcode (hg g (mem_singleton_self g)) capacity
      simp [hbucket]
    · rw [length_modify, hsize]
    · have hpush := hchains.push (k := g.1) (by rw [hsize]; exact boxIndex_lt hpos)
      rw [map_append]
      rwa [length_map] at hpush

/-- **A new key** gets an entry behind the others; the table may grow. -/
theorem Keyed.exists_create (h : ht.Keyed P box IsKey groups) (hkey : IsKey key)
    (hnew : key ∉ groups.map Prod.fst) :
    ∃ ht' : AggregateHashTable, ht.findOrCreate P (box key) =
        some (.ok (groups.length, ht')) ∧ ht'.numAggregates = ht.numAggregates ∧
      ht'.Keyed P box IsKey (groups ++ [(key, ht.freshStates)]) := by
  obtain ⟨chain, hchain⟩ : ∃ chain, ht.buckets[boxIndex P ht.capacity (box key)]? = some chain :=
    ⟨_, getElem?_eq_getElem (h.size.symm ▸ boxIndex_lt h.pos)⟩
  have hfound : chain.find? (fun j => (groups.map Prod.fst)[j]? = some key) = none := by
    rw [find?_eq_none]
    intro j _ hj
    exact hnew (mem_of_getElem? (of_decide_eq_true hj))
  have hlength : ht.entryPool.length = groups.length := by rw [h.entries, length_map]
  have hentries : ht.entryPool ++ [AggEntry.mk (box key) ht.freshStates] =
      (groups ++ [(key, ht.freshStates)]).map fun g =>
        { groupKey := box g.1, aggStates := g.2 } := by
    rw [h.entries, map_append]
    rfl
  have hkeys : ∀ g ∈ groups ++ [(key, ht.freshStates)], IsKey g.1 := by
    rw [forall_mem_append, forall_mem_singleton]
    exact ⟨h.isKey, hkey⟩
  have hnodup : ((groups ++ [(key, ht.freshStates)]).map Prod.fst).Nodup := by
    rw [map_append, map_singleton, ← concat_eq_append]
    exact h.nodup.concat hnew
  rw [findOrCreate, bind_of_ok (congrArg some (bucketOf_eq hcode hkey _)),
    bind_of_ok (ofOption_eq_ok_iff.mpr hchain),
    bind_of_ok (findInChain_eq hcode h hkey (h.chain_lt hchain)), hfound]
  dsimp only
  split
  · have hpos : 0 < ht.capacity * 2 := Nat.mul_pos h.pos (Nat.succ_pos 1)
    obtain ⟨buckets, hrun, hsize, hchains⟩ := exists_rebuild hcode hkeys hpos
    rw [← hentries] at hrun
    refine ⟨{ ht with
      capacity := ht.capacity * 2
      buckets
      entryPool := ht.entryPool ++ [AggEntry.mk (box key) ht.freshStates] }, ?_, rfl,
      hentries, hchains, hsize, hpos, hnodup, hkeys⟩
    rw [← hlength]
    exact bind_of_ok (bind_of_ok (congrArg some hrun))
  · refine ⟨{ ht with
      buckets := ht.buckets.modify (boxIndex P ht.capacity (box key)) (groups.length :: ·)
      entryPool := ht.entryPool ++ [AggEntry.mk (box key) ht.freshStates] },
      by rw [hlength]; rfl, rfl, hentries, ?_, ?_, h.pos, hnodup, hkeys⟩
    · have hpush := h.chains.push (k := key) (by rw [h.size]; exact boxIndex_lt h.pos)
      rw [map_append]
      rwa [length_map] at hpush
    · rw [length_modify, h.size]

omit hcode [DecidableEq κ] in
theorem map_fst_set {states' : List AggregateState} (hi : groups[i]? = some (key, states)) :
    (groups.set i (key, states')).map Prod.fst = groups.map Prod.fst := by
  rw [map_set]
  refine ext_getElem? fun j => ?_
  rw [getElem?_set]
  split
  next heq =>
    subst heq
    rw [getElem?_map, hi, if_pos]
    · rfl
    · simpa using (List.getElem?_eq_some_iff.mp hi).1
  next => rfl

omit hcode [DecidableEq κ] in
/-- The states of one group are replaced. -/
theorem Keyed.set {states' : List AggregateState} (h : ht.Keyed P box IsKey groups)
    (hi : groups[i]? = some (key, states)) :
    Keyed P box IsKey { ht with
      entryPool := ht.entryPool.set i { groupKey := box key, aggStates := states' } }
      (groups.set i (key, states')) := by
  have hkeys : (groups.set i (key, states')).map Prod.fst = groups.map Prod.fst := map_fst_set hi
  refine ⟨?_, hkeys ▸ h.chains, h.size, h.pos, hkeys ▸ h.nodup, fun g hg => ?_⟩
  · rw [h.entries, map_set]
  · have hmem : g.1 ∈ groups.map Prod.fst := hkeys ▸ mem_map_of_mem hg
    obtain ⟨g', hg', heq⟩ := mem_map.mp hmem
    exact heq ▸ h.isKey g' hg'

end Keyed

variable {types : List TypeId} {groups : List (Row × List AggregateState)} {key : Row} {i : ℕ}
  {states states' : List AggregateState}

/-- **The table holds the given groups** of rows. -/
abbrev Holds (P : Platform) (types : List TypeId) (ht : AggregateHashTable)
    (groups : List (Row × List AggregateState)) : Prop :=
  ht.Keyed P (box types) (IsKey types) groups

/-- **Finding a group and updating it.** What held of the states of all groups is known of the
others afterwards, and the states of this one are those that the update makes. -/
theorem Holds.exists_update (htypes : ∀ type ∈ types, type.Comparable)
    (h : ht.Holds P types groups) (hkey : key.IsKey types)
    {f : List AggregateState → Fallible Error (List AggregateState)}
    {Q R : Row → List AggregateState → Prop} (hold : ∀ g ∈ groups, Q g.1 g.2)
    (hfresh : key ∉ groups.map Prod.fst → Q key ht.freshStates)
    (hf : ∀ states, Q key states → ∃ states', f states = some (.ok states') ∧ R key states')
    (hkeep : ∀ k states, k ≠ key → Q k states → R k states) :
    ∃ i ht₁ ht' groups', ht.findOrCreate P (key.box types) = some (.ok (i, ht₁)) ∧
      updateEntry ht₁ i f = some (.ok ht') ∧
      ht'.numAggregates = ht.numAggregates ∧ ht'.Holds P types groups' ∧
      (∀ k, k ∈ groups'.map Prod.fst ↔ k ∈ groups.map Prod.fst ∨ k = key) ∧
      ∀ g ∈ groups', R g.1 g.2 := by
  have hcode : Coding P (box types) (IsKey types) := ⟨exists_hashKey htypes, valuesEqual_box htypes⟩
  -- the table with the group in it
  obtain ⟨i, ht₁, groups₁, states, hrun, hnum, h₁, hi, hkeys, hold₁⟩ :
      ∃ i ht₁ groups₁ states, ht.findOrCreate P (key.box types) = some (.ok (i, ht₁)) ∧
        ht₁.numAggregates = ht.numAggregates ∧ ht₁.Holds P types groups₁ ∧
        groups₁[i]? = some (key, states) ∧
        (∀ k, k ∈ groups₁.map Prod.fst ↔ k ∈ groups.map Prod.fst ∨ k = key) ∧
        ∀ g ∈ groups₁, Q g.1 g.2 := by
    by_cases hmem : key ∈ groups.map Prod.fst
    · obtain ⟨⟨_, states⟩, hg, rfl⟩ := mem_map.mp hmem
      obtain ⟨i, hi⟩ := mem_iff_getElem?.mp hg
      refine ⟨i, ht, groups, states, h.find hcode hi, rfl, h, hi, fun k => ?_, hold⟩
      exact ⟨.inl, fun hk => hk.elim id fun hk => hk ▸ hmem⟩
    · obtain ⟨ht₁, hrun, hnum, h₁⟩ := h.exists_create hcode hkey hmem
      refine ⟨groups.length, ht₁, _, ht.freshStates, hrun, hnum, h₁, by simp,
        fun k => by simp, ?_⟩
      rw [forall_mem_append, forall_mem_singleton]
      exact ⟨hold, hfresh hmem⟩
  obtain ⟨states', hstates, hQ'⟩ := hf states (hold₁ _ (mem_of_getElem? hi))
  have hentry : ht₁.entryPool[i]? =
      some { groupKey := key.box types, aggStates := states } := by
    rw [h₁.entries, getElem?_map, hi]
    rfl
  refine ⟨i, ht₁, _, groups₁.set i (key, states'), hrun, ?_, ?_, h₁.set hi, ?_, ?_⟩
  · rw [updateEntry, bind_of_ok (ofOption_eq_ok_iff.mpr hentry), bind_of_ok hstates]
    rfl
  · exact hnum
  · rw [map_fst_set hi]
    exact hkeys
  · intro g hg
    obtain ⟨j, hj⟩ := mem_iff_getElem?.mp hg
    rw [getElem?_set] at hj
    split at hj
    next =>
      split at hj
      · cases hj
        exact hQ'
      · cases hj
    next hne =>
      -- another position has another key
      refine hkeep g.1 g.2 (fun heq => hne ?_) (hold₁ g (mem_of_getElem? hj))
      refine (List.getElem?_inj (by simpa using (List.getElem?_eq_some_iff.mp hi).1) h₁.nodup).mp ?_
      rw [getElem?_map, getElem?_map, hi, hj, map_some, map_some, heq]

end AggregateHashTable

/-! ## Rows -/

/-- The values of an expression on the rows are in columns of the given type. -/
def Expr.HasType (D : DoubleOps) (types : List TypeId) (rows : List Row) (e : Expr)
    (type : TypeId) : Prop :=
  ∀ row ∈ rows, ∀ s, e.eval D (row.scalars types) = some (.ok s) →
    s.type = type ∧ type.AdmitsCell s.cell

namespace AggrExpr

variable (D : DoubleOps) (types : List TypeId)

/-- COUNT of all rows or of an argument, and MIN and MAX of arguments that can be compared. -/
def WellTyped (rows : List Row) (agg : AggrExpr) : Prop :=
  match agg.func with
  | .count => agg.resultType = .int64
  | .min | .max => agg.isStar = false ∧ agg.resultType.Comparable ∧
      agg.arg.HasType D types rows agg.resultType
  | .sum | .avg => False

/-- The argument can be evaluated on every row. -/
def Evaluates (rows : List Row) (agg : AggrExpr) : Prop :=
  agg.isStar = false → ∀ r ∈ rows, ∃ s, agg.arg.eval D (r.scalars types) = some (.ok s)

/-- The accumulator of an aggregate over the given rows. -/
def Accumulates (agg : AggrExpr) (rows : List Row) (state : AggregateState) : Prop :=
  if agg.isStar then state.count = rows.length
  else state.Accumulates agg.resultType agg.func (rows.map (agg.arg.cell D types))

/-- The result of an aggregate over the given rows. -/
def IsResult (agg : AggrExpr) (rows : List Row) (result : Cell) : Prop :=
  if agg.isStar then result = some (.int (Int64.ofNat rows.length))
  else agg.func.IsResult (rows.map (agg.arg.cell D types)) result

variable {D types} {all rows : List Row} {row : Row} {agg : AggrExpr} {state : AggregateState}

theorem accumulates_nil (hagg : agg.WellTyped D types all) : agg.Accumulates D types [] {} := by
  rw [Accumulates]
  split
  · rfl
  · refine AggregateState.accumulates_nil ⟨fun h => ?_, fun h => ?_⟩ <;>
      simp [WellTyped, h] at hagg

/-- **One more row**, whose argument has been evaluated. -/
theorem Accumulates.update (hagg : agg.WellTyped D types all) (hrows : ∀ r ∈ rows, r ∈ all)
    (hrow : row ∈ all) (heval : agg.Evaluates D types all)
    (h : agg.Accumulates D types rows state) (hstar : agg.isStar = false) {s : Scalar}
    (hs : agg.arg.eval D (row.scalars types) = some (.ok s)) :
    ∃ state', state.update D agg.func s = some (.ok state') ∧
      agg.Accumulates D types (rows ++ [row]) state' := by
  simp only [Accumulates, hstar] at h ⊢
  rw [map_append, map_singleton, Expr.cell_eq hs]
  have htyped : agg.resultType.Comparable → agg.arg.HasType D types all agg.resultType →
      ∃ state', state.update D agg.func s = some (.ok state') ∧ state'.Accumulates agg.resultType
        agg.func (rows.map (agg.arg.cell D types) ++ [s.cell]) := by
    intro hcmp htype
    obtain ⟨type, c⟩ := s
    obtain ⟨rfl, hadmits⟩ : type = agg.resultType ∧ _ := htype row hrow _ hs
    refine h.update hcmp (fun c hc => ?_) hadmits
    obtain ⟨r, hr, rfl⟩ := mem_map.mp hc
    obtain ⟨s', hs'⟩ := heval hstar r (hrows r hr)
    rw [Expr.cell_eq hs']
    exact (htype r (hrows r hr) s' hs').2
  cases hfunc : agg.func with
  | sum | avg => simp [WellTyped, hfunc] at hagg
  | min | max =>
    simp only [WellTyped, hfunc] at hagg
    rw [← hfunc]
    exact htyped hagg.2.1 hagg.2.2
  | count =>
    rw [hfunc] at h
    obtain ⟨type, c⟩ := s
    cases c with
    | none => exact ⟨state, rfl, by simpa [AggregateState.Accumulates] using h⟩
    | some x => exact ⟨_, rfl, by simpa [AggregateState.Accumulates] using h⟩

end AggrExpr

/-! ## The table as a map -/

/-- A value of an integer type, BOOLEAN or VARCHAR that is not NULL. -/
def Value.IsKey (v : Value) : Prop :=
  match v.type, v.data with
  | .int8, .int _ | .int16, .int _ | .int32, .int _ | .int64, .int _ => True
  | .boolean, .bool _ | .varchar, .str _ => True
  | _, _ => False

theorem Value.IsKey.eq {v w : Value} (hv : v.IsKey) (hw : w.IsKey) : v.eq w = .ok (decide (v = w)) := by
  obtain ⟨type, data⟩ := v
  obtain ⟨type', data'⟩ := w
  by_cases htype : type = type'
  · subst htype
    cases type <;> cases data <;> cases data' <;>
      simp_all [IsKey, Value.eq, compareWith, Bool.beq_eq_decide_eq]
  · simp [Value.eq, compareWith, htype]

namespace AggregateHashTable

variable {P : Platform} {ht : AggregateHashTable} {groups : List (List Value × List AggregateState)}
  {keys : List (List Value)}

/-- Keys are tuples of key values, of any width. -/
theorem coding_values : Coding P id fun key : List Value => ∀ v ∈ key, v.IsKey where
  hash h := by
    refine exists_hashKey_iff.mpr fun v hv => ?_
    have hkey := h v hv
    obtain ⟨type, data⟩ := v
    cases type <;> cases data <;> simp_all [Value.IsKey, Value.hash]
  equal {k k'} hk hk' := by
    induction k generalizing k' with
    | nil => cases k' <;> simp [valuesEqual]
    | cons v k ih =>
      cases k' with
      | nil => rfl
      | cons v' k' =>
        rw [forall_mem_cons] at hk hk'
        have hrest := ih hk.2 hk'.2
        simp only [id, valuesEqual, hk.1.eq hk'.1] at hrest ⊢
        by_cases hv : v = v' <;> simp [hv, hrest]

/-- Calls of `FindOrCreate`: the numbers of the entries, and the table. -/
def findOrCreateAll (P : Platform) : AggregateHashTable → List (List Value) →
    Fallible Error (List ℕ × AggregateHashTable)
  | ht, [] => pure ([], ht)
  | ht, key :: keys => do
    let (i, ht) ← ht.findOrCreate P key
    let (is, ht) ← findOrCreateAll P ht keys
    pure (i :: is, ht)

theorem eraseDups_of_nodup {α : Type} [BEq α] [LawfulBEq α] {l : List α} (h : l.Nodup) :
    l.eraseDups = l := by
  induction h with
  | nil => rfl
  | @cons a l ha _ ih =>
    rw [eraseDups_cons, filter_eq_self.mpr fun b hb => by simpa using (ha b hb).symm, ih]

theorem run_findOrCreateAll (h : ht.Keyed P id (fun key => ∀ v ∈ key, v.IsKey) groups)
    (hkeys : ∀ key ∈ keys, ∀ v ∈ key, v.IsKey) :
    ∃ ht', findOrCreateAll P ht keys =
        some (.ok (keys.map (groups.map Prod.fst ++ keys).eraseDups.idxOf, ht')) ∧
      ht.entryPool <+: ht'.entryPool ∧
      ht'.entryPool.map AggEntry.groupKey = (groups.map Prod.fst ++ keys).eraseDups := by
  induction keys generalizing ht groups with
  | nil =>
    refine ⟨ht, rfl, prefix_refl _, ?_⟩
    simp only [h.entries, append_nil, eraseDups_of_nodup h.nodup, List.map_map]
    rfl
  | cons key keys ih =>
    obtain ⟨hkey, hkeys⟩ := forall_mem_cons.mp hkeys
    -- the table with the entry of the key in it
    obtain ⟨i, ht₁, groups₁, states, hrun, h₁, hi, hpool, hall⟩ : ∃ i ht₁ groups₁ states,
        ht.findOrCreate P key = some (.ok (i, ht₁)) ∧ ht₁.Keyed P id _ groups₁ ∧
        groups₁[i]? = some (key, states) ∧ ht.entryPool <+: ht₁.entryPool ∧
        (groups.map Prod.fst ++ key :: keys).eraseDups =
          (groups₁.map Prod.fst ++ keys).eraseDups := by
      by_cases hmem : key ∈ groups.map Prod.fst
      · obtain ⟨⟨k, states⟩, hg, hk⟩ := mem_map.mp hmem
        obtain rfl : k = key := hk
        obtain ⟨i, hi⟩ := mem_iff_getElem?.mp hg
        refine ⟨i, ht, groups, states, h.find coding_values hi, h, hi, prefix_refl _, ?_⟩
        rw [eraseDups_append, eraseDups_append, removeAll, filter_cons_of_neg (by simpa using hmem)]
        rfl
      · obtain ⟨ht₁, hrun, -, h₁⟩ := h.exists_create coding_values hkey hmem
        refine ⟨_, ht₁, _, ht.freshStates, hrun, h₁, by simp, ?_, by simp⟩
        rw [h.entries, h₁.entries, map_append]
        exact prefix_append _ _
    obtain ⟨ht', hrest, hpool', hkeys'⟩ := ih h₁ hkeys
    have hindex : (groups₁.map Prod.fst ++ keys).eraseDups.idxOf key = i := by
      have hget : (groups₁.map Prod.fst)[i]? = some key := by rw [getElem?_map, hi]; rfl
      obtain ⟨hlt, rfl⟩ := List.getElem?_eq_some_iff.mp hget
      rw [eraseDups_append, eraseDups_of_nodup h₁.nodup, idxOf_append_of_mem (getElem_mem hlt),
        h₁.nodup.idxOf_getElem]
    rw [hall]
    refine ⟨ht', ?_, hpool.trans hpool', hkeys'⟩
    rw [findOrCreateAll, bind_of_ok hrun, map_cons, hindex]
    exact bind_of_ok hrest

/-- **The aggregate hash table is a map** from keys to entries: calls return the same entry for
equal keys only, change no entry that is there, and leave one entry for each key, in the order in
which the keys first appear. -/
theorem findOrCreateAll_map (h : ht.Keyed P id (fun key => ∀ v ∈ key, v.IsKey) groups)
    (hkeys : ∀ key ∈ keys, ∀ v ∈ key, v.IsKey) :
    ∃ number ht', findOrCreateAll P ht keys = some (.ok (keys.map number, ht')) ∧
      (∀ k ∈ keys, ∀ k' ∈ keys, number k = number k' ↔ k = k') ∧
      (∀ k ∈ keys, (ht'.entryPool[number k]?).map AggEntry.groupKey = some k) ∧
      ht.entryPool <+: ht'.entryPool ∧
      ht'.entryPool.map AggEntry.groupKey = (groups.map Prod.fst ++ keys).eraseDups := by
  obtain ⟨ht', hrun, hpool, hall⟩ := run_findOrCreateAll h hkeys
  have hmem : ∀ k ∈ keys, k ∈ (groups.map Prod.fst ++ keys).eraseDups := fun k hk => by simp [hk]
  refine ⟨_, ht', hrun, fun k hk k' _ => idxOf_inj (hmem k hk), fun k hk => ?_, hpool, hall⟩
  rw [← getElem?_map, hall, getElem?_idxOf (hmem k hk)]

/-- Three calls for two keys. -/
def sevenTwice : List (List Value) := [[.integer 7], [.varchar []], [.integer 7]]

theorem findOrCreateAll_sevenTwice : ∃ number ht',
    findOrCreateAll .plain { numAggregates := 1 } sevenTwice =
        some (.ok (sevenTwice.map number, ht')) ∧
      ht'.entryPool.map AggEntry.groupKey = [[.integer 7], [.varchar []]] := by
  have hnew : Keyed .plain id (fun key : List Value => ∀ v ∈ key, v.IsKey)
      { numAggregates := 1 } [] :=
    ⟨rfl, .empty 256, length_replicate, by decide, nodup_nil, by simp⟩
  have hkeys : ∀ key ∈ sevenTwice, ∀ v ∈ key, v.IsKey := by
    simp [sevenTwice, Value.IsKey, Value.integer, Value.varchar]
  obtain ⟨number, ht', hrun, -, -, -, hall⟩ := findOrCreateAll_map hnew hkeys
  exact ⟨number, ht', hrun, hall⟩

end AggregateHashTable

end CppColDB
