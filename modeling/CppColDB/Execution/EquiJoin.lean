import CppColDB.Execution.JoinRun
import CppColDB.Lib.Bags

/-!
# The hash join as an equi-join

The rows of the hash join are compared with those of a nested loop over the two sides. They
agree if no NULL takes part: the box of a NULL integer is that of 0, and the boxes of the
other NULLs cannot be compared, hashed or written to the output. A BOOLEAN column can hold any
integer, of which its box only keeps whether it is 0.
-/

namespace CppColDB

open DataChunk DataVector JoinHashTable List Option TypeId

/-- A row of columns of the types, whose BOOLEAN cells are 0 or 1. -/
def Row.Of (types : List TypeId) (row : Row) : Prop :=
  Forall₂ (fun type c => TypeId.AdmitsCell type c) types row

/-- A row of columns of the types: its elements are in their columns' arrays. -/
def Row.Stored (types : List TypeId) (row : Row) : Prop :=
  Forall₂ (fun type (c : Cell) => ∀ x ∈ c, x.storageClass = TypeId.storageClass type) types row

/-- No cell of the row is NULL. -/
def Row.NoNull (row : Row) : Prop := ∀ c ∈ row, c ≠ none

namespace JoinSchema

variable (S : JoinSchema)

/-- All key cells are non-NULL and pairwise equal. -/
def Matches (l r : Row) : Prop :=
  ∀ k ∈ S.leftKeys.zip S.rightKeys, l.getD k.1 none ≠ none ∧ l.getD k.1 none = r.getD k.2 none

instance (l r : Row) : Decidable (S.Matches l r) := by
  unfold Matches
  infer_instance

/-- **The specification**: the concatenations of the pairs of rows whose keys match. -/
def nestedLoop (L R : List Row) : List Row :=
  L.flatMap fun l => (R.filter fun r => decide (S.Matches l r)).map (l ++ ·)

/-- The join ends with chunks that hold, up to their order, the rows of the nested loop. -/
def JoinsExactly (P : Platform) (probe build : List DataChunk) (L R : List Row) : Prop :=
  ∃ outs rows,
    (∀ᶠ fuel in Filter.atTop, hashJoin P S.leftKeys S.rightKeys S.outputTypes probe build fuel =
      some (.ok outs)) ∧
    HoldAll outs S.outputTypes rows ∧ rows.Perm (S.nestedLoop L R)

/-- The two sides compute the same hash for a probe row and a build row. -/
def SameHash (P : Platform) (l r : Row) : Prop :=
  r.buildHash P S.rightTypes S.rightKeys = .ok (l.probeHash P S.leftKeys)

instance (P : Platform) (l r : Row) : Decidable (S.SameHash P l r) := by
  unfold SameHash
  infer_instance

/-- **When the join is exact.** -/
structure Joinable (P : Platform) (L R : List Row) : Prop where
  /-- No build row has a NULL in a BOOLEAN or VARCHAR key column. -/
  hashable : ∀ r ∈ R, ∀ k ∈ S.rightKeys, r.getD k none = none →
    S.rightTypes.getD k .invalid ≠ .boolean ∧ S.rightTypes.getD k .invalid ≠ .varchar
  /-- Boxed keys with equal hashes are compared without an exception. -/
  comparable : ∀ l ∈ L, ∀ r ∈ R, S.SameHash P l r → ∀ e, S.compare l r ≠ some (.error e)
  /-- Where the boxed keys agree, the keys match, and the build row survives boxing: it has no
  NULL, and no BOOLEAN cell other than 0 and 1. -/
  genuine : ∀ l ∈ L, ∀ r ∈ R, S.SameHash P l r → S.compare l r = some (.ok true) →
    S.Matches l r ∧ r.Of S.rightTypes ∧ r.NoNull
  /-- Rows with matching keys have the same hash. -/
  found : ∀ l ∈ L, ∀ r ∈ R, S.Matches l r → S.SameHash P l r

end JoinSchema

/-! ## Cells and boxes -/

namespace Cell

variable {type : TypeId} {P : Platform} {x y : Datum} {c : Cell}

/-- The box of a cell does not change when it is stored and boxed again. -/
theorem box_unboxed (hc : ∀ y ∈ c, y.storageClass = type.storageClass)
    (h : c.unboxed type = some x) : Cell.box type (some x) = c.box type := by
  cases c with
  | some y =>
    by_cases hbool : type = .boolean
    · subst hbool
      cases y with
      | int y =>
        by_cases hy : y = 0 <;>
          simp [unboxed, box, Datum.box, Value.boolean, ValueData.unbox, hy] at h <;>
          simp [← h, box, Datum.box, hy]
      | _ => cases hc _ rfl
    · rw [unboxed_some ⟨hc y rfl, fun h => absurd h hbool⟩] at h
      cases h
      rfl
  | none =>
    rw [unboxed_none] at h
    split at h
    next hint =>
      cases h
      simp only [box, Datum.box, if_neg hint.2]
    next => cases h

/-- A key cell can be hashed unless it is a NULL BOOLEAN or VARCHAR. -/
theorem exists_hash_box (hnone : type.storageClass ≠ .none) (hfloat : type.storageClass ≠ .float)
    (hc : ∀ x ∈ c, x.storageClass = type.storageClass) :
    (∃ h, (c.box type).hash P = .ok h) ↔
      (c = none → type ≠ .boolean ∧ type ≠ .varchar) := by
  cases c with
  | none => cases type <;> simp_all [storageClass, box, Value.hash]
  | some x =>
    have hcls := hc x rfl
    cases x <;> cases type <;>
      simp_all [Datum.storageClass, storageClass, box, Datum.box, Value.boolean, Value.hash]

/-- Non-NULL key cells are compared by their elements. -/
theorem eq_box (hfloat : type.storageClass ≠ .float) (hx : type.Admits x) (hy : type.Admits y) :
    (Cell.box type (some x)).eq (Cell.box type (some y)) = .ok (decide (x = y)) := by
  obtain ⟨hx, hxb⟩ := hx
  obtain ⟨hy, hyb⟩ := hy
  by_cases hbool : type = .boolean
  · subst hbool
    obtain rfl | rfl := hxb rfl <;> obtain rfl | rfl := hyb rfl <;> rfl
  · cases x <;> cases y <;> cases type <;>
      simp_all [Datum.storageClass, storageClass, box, Datum.box, Value.eq, Value.compareWith]

/-- A key cell is equal to itself. -/
theorem eq_box_self (hfloat : type.storageClass ≠ .float)
    (hx : x.storageClass = type.storageClass) :
    (Cell.box type (some x)).eq (Cell.box type (some x)) = .ok true := by
  cases x <;> cases type <;>
    simp_all [Datum.storageClass, storageClass, box, Datum.box, Value.boolean, Value.eq,
      Value.compareWith]

end Cell

/-! ## Rows and boxes -/

theorem JoinHashTable.exists_hashKey_iff {P : Platform} {key : List Value} :
    (∃ h, hashKey P key = .ok h) ↔ ∀ v ∈ key, ∃ k, v.hash P = .ok k := by
  rw [hashKey]
  generalize (0 : UInt64) = h₀
  induction key generalizing h₀ with
  | nil => simp
  | cons v key ih =>
    rw [foldlM_cons, forall_mem_cons]
    cases hv : v.hash P with
    | error e => simp
    | ok k =>
      simp only [Except.ok.injEq, exists_eq', true_and]
      exact ih _

theorem keysEqual_eq_true_iff {as bs : List Value} (h : as.length = bs.length) :
    keysEqual as bs = some (.ok true) ↔ Forall₂ (fun a b => a.eq b = .ok true) as bs := by
  induction as generalizing bs with
  | nil =>
    obtain rfl := length_eq_zero_iff.mp h.symm
    simp [keysEqual]
  | cons a as ih =>
    cases bs with
    | nil => cases h
    | cons b bs =>
      rw [keysEqual, forall₂_cons, ← ih (Nat.succ.inj h)]
      cases hab : a.eq b with
      | error e => simp
      | ok eq => cases eq <;> simp

namespace Row

variable {types : List TypeId} {row : Row}

theorem Of.length_eq (h : row.Of types) : row.length = types.length := (Forall₂.length_eq h).symm

theorem Stored.length_eq (h : row.Stored types) : row.length = types.length :=
  (Forall₂.length_eq h).symm

theorem Stored.cell (h : row.Stored types) {k : ℕ} {t : TypeId} (hk : types[k]? = some t) :
    ∀ x ∈ row.getD k none, x.storageClass = t.storageClass := by
  induction h generalizing k with
  | nil => cases hk
  | cons hc _ ih =>
    cases k with
    | zero =>
      cases hk
      exact hc
    | succ k => exact ih hk

/-- What the output has of a build row. -/
def filled (types : List TypeId) (row : Row) : Row := ((row.unboxed types).getD []).map some

theorem noNull_filled : (row.filled types).NoNull := by
  intro c hc
  obtain ⟨x, -, rfl⟩ := mem_map.mp hc
  exact some_ne_none x

/-- The BOOLEAN cells of the output are 0 or 1. -/
theorem Stored.of_filled (h : row.Stored types) (hsome : (row.unboxed types).isSome) :
    (row.filled types).Of types := by
  obtain ⟨xs, hxs⟩ := isSome_iff_exists.mp hsome
  rw [filled, hxs]
  clear hsome
  induction h generalizing xs with
  | nil =>
    cases hxs
    exact .nil
  | @cons t c types row _ _ ih =>
    rw [unboxed_cons, bind_eq_some_iff] at hxs
    obtain ⟨x, hx, hrest⟩ := hxs
    obtain ⟨ys, hys, rfl⟩ := map_eq_some_iff.mp hrest
    refine .cons ?_ (ih ys hys)
    rintro _ ⟨⟩
    exact Cell.admits_of_unboxed hx

/-- A row without NULLs survives boxing. -/
theorem Of.unboxed_of_noNull (h : row.Of types) (hrow : row.NoNull) :
    (row.unboxed types).isSome ∧ row.filled types = row := by
  suffices ∃ xs, row.unboxed types = some xs ∧ xs.map some = row by
    obtain ⟨xs, hxs, heq⟩ := this
    rw [filled, hxs]
    exact ⟨rfl, heq⟩
  induction h with
  | nil => exact ⟨[], rfl, rfl⟩
  | @cons t c types row hc _ ih =>
    obtain ⟨hne, hrest⟩ := forall_mem_cons.mp hrow
    obtain ⟨x, rfl⟩ := ne_none_iff_exists'.mp hne
    obtain ⟨xs, hxs, heq⟩ := ih hrest
    refine ⟨x :: xs, ?_, by rw [map_cons, heq]⟩
    rw [unboxed_cons, Cell.unboxed_some (hc x rfl), hxs]
    rfl

/-- A build row and what the output has of it have the same boxed keys. -/
theorem Stored.key_filled (h : row.Stored types) (hsome : (row.unboxed types).isSome)
    (keyCols : List ℕ) : (row.filled types).key types keyCols = row.key types keyCols := by
  obtain ⟨xs, hxs⟩ := isSome_iff_exists.mp hsome
  rw [filled, hxs]
  refine map_congr_left fun k hk => ?_
  clear hsome hk
  induction h generalizing xs k with
  | nil =>
    cases hxs
    rfl
  | @cons t c types row hc _ ih =>
    rw [unboxed_cons, bind_eq_some_iff] at hxs
    obtain ⟨x, hx, hrest⟩ := hxs
    obtain ⟨ys, hys, rfl⟩ := map_eq_some_iff.mp hrest
    cases k with
    | zero => exact Cell.box_unboxed hc hx
    | succ k => exact ih ys hys k

end Row

/-! ## The rows of the join -/

section Join

variable {P : Platform} {S : JoinSchema} {L R : List Row}

/-- The build rows that the join emits for a probe row. -/
def JoinSchema.selected (P : Platform) (S : JoinSchema) (l r : Row) : Bool :=
  decide (S.SameHash P l r) && decide (S.compare l r = some (.ok true))

variable {l r : Row}

theorem JoinSchema.selected_iff :
    S.selected P l r = true ↔ S.SameHash P l r ∧ S.compare l r = some (.ok true) := by
  rw [selected, Bool.and_eq_true, decide_eq_true_iff, decide_eq_true_iff]

theorem mem_pairs_iff :
    (l, r) ∈ L.flatMap (pairsOf P S R) ↔ l ∈ L ∧ r ∈ R ∧ S.SameHash P l r := by
  simp only [mem_flatMap, pairsOf, List.mem_map, candidates, mem_filter,
    decide_eq_true_iff, Prod.mk.injEq]
  constructor
  · rintro ⟨l', hl', r', ⟨hr', hhash⟩, rfl, rfl⟩
    exact ⟨hl', hr', hhash⟩
  · rintro ⟨hl, hr, hhash⟩
    exact ⟨l, hl, r, ⟨hr, hhash⟩, rfl, rfl⟩

/-- **The rows that the join emits**, probe row by probe row. -/
theorem flatMap_emitted : (L.flatMap (pairsOf P S R)).flatMap S.emitted =
      L.flatMap fun l => ((R.filter (S.selected P l)).map (Row.filled S.rightTypes)).map (l ++ ·) := by
  have hone : ∀ (l : Row) (rs : List Row), (rs.map (Prod.mk l)).flatMap S.emitted =
      ((rs.filter fun r => decide (S.compare l r = some (.ok true))).map
        (Row.filled S.rightTypes)).map (l ++ ·) := by
    intro l rs
    induction rs with
    | nil => rfl
    | cons r rs ih =>
      rw [map_cons, flatMap_cons, ih, JoinSchema.emitted]
      by_cases h : S.compare l r = some (.ok true)
      · simp [h, Row.filled]
      · simp [h]
  rw [flatMap_assoc]
  congr 1
  funext l
  rw [pairsOf, hone, candidates, List.filter_filter]
  congr 3
  funext r
  rw [Bool.and_comm]
  rfl

variable (hL : ∀ l ∈ L, l.Stored S.leftTypes) (hR : ∀ r ∈ R, r.Stored S.rightTypes)

include hR in
theorem exists_buildHash_iff : (∀ r ∈ R, ∃ h, r.buildHash P S.rightTypes S.rightKeys = .ok h) ↔
      ∀ r ∈ R, ∀ k ∈ S.rightKeys, r.getD k none = none →
        S.rightTypes.getD k .invalid ≠ .boolean ∧ S.rightTypes.getD k .invalid ≠ .varchar := by
  refine forall₂_congr fun r hr => ?_
  rw [Row.buildHash, exists_hashKey_iff, Row.key, List.forall_mem_map]
  refine forall₂_congr fun k hk => ?_
  obtain ⟨i, -, t, -, ht, hfloat⟩ := S.keys.exists_of_mem_right hk
  have htype : S.rightTypes.getD k .invalid = t := by
    rw [getD_eq_getElem?_getD, ht, getD_some]
  rw [htype]
  exact Cell.exists_hash_box (S.right_named t (mem_of_getElem? ht)) hfloat ((hR r hr).cell ht)

/-- The boxes of matching keys agree. -/
theorem JoinSchema.Matches.compare (h : S.Matches l r) (hl : l.Stored S.leftTypes) :
    S.compare l r = some (.ok true) := by
  have hlen := S.keys.length_eq
  rw [JoinSchema.compare, keysEqual_eq_true_iff (by simp [Row.key, hlen]), Row.key, Row.key,
    forall₂_map_left_iff, forall₂_map_right_iff, forall₂_iff_zip]
  refine ⟨hlen, fun {i j} hk => ?_⟩
  obtain ⟨t, hleft, hright, hfloat⟩ := (forall₂_iff_zip.mp S.keys).2 hk
  obtain ⟨hne, heq⟩ := h _ hk
  obtain ⟨x, hx⟩ := ne_none_iff_exists'.mp hne
  have hstored := hl.cell hleft x hx
  have htl : S.leftTypes.getD i .invalid = t := by
    rw [getD_eq_getElem?_getD, hleft, getD_some]
  have htr : S.rightTypes.getD j .invalid = t := by
    rw [getD_eq_getElem?_getD, hright, getD_some]
  dsimp only at heq hx
  rw [htl, htr, ← heq, hx]
  exact Cell.eq_box_self hfloat hstored

include hL in
/-- Where the condition holds, the join emits the rows with matching keys. -/
theorem JoinSchema.Joinable.selected_iff_matches (h : S.Joinable P L R) (hl : l ∈ L)
    (hr : r ∈ R) : S.selected P l r = true ↔ S.Matches l r := by
  rw [selected_iff]
  constructor
  · rintro ⟨hhash, hcmp⟩
    exact (h.genuine l hl r hr hhash hcmp).1
  · intro hmatch
    exact ⟨h.found l hl r hr hmatch, hmatch.compare (hL l hl)⟩

include hL in
theorem JoinSchema.Joinable.rows_eq (h : S.Joinable P L R) :
    (L.flatMap (pairsOf P S R)).flatMap S.emitted = S.nestedLoop L R := by
  rw [flatMap_emitted, nestedLoop]
  refine flatMap_congr fun l hl => ?_
  have hfilter : R.filter (S.selected P l) = R.filter fun r => decide (S.Matches l r) :=
    filter_congr fun r hr => by
      rw [Bool.eq_iff_iff, decide_eq_true_iff]
      exact h.selected_iff_matches hL hl hr
  have hfill : (R.filter (S.selected P l)).map (Row.filled S.rightTypes) =
      R.filter (S.selected P l) := by
    refine (map_congr_left fun r hr => ?_).trans (map_id _)
    obtain ⟨hr, hsel⟩ := mem_filter.mp hr
    obtain ⟨hhash, hcmp⟩ := selected_iff.mp hsel
    obtain ⟨-, hof, hnull⟩ := h.genuine l hl r hr hhash hcmp
    exact (hof.unboxed_of_noNull hnull).2
  rw [hfill, hfilter]

theorem JoinSchema.Joinable.processed (h : S.Joinable P L R) :
    ∀ p ∈ L.flatMap (pairsOf P S R), S.Processed p := by
  rintro ⟨l, r⟩ hp
  obtain ⟨hl, hr, hhash⟩ := mem_pairs_iff.mp hp
  obtain ⟨res, hres⟩ := S.exists_compare l r
  cases res with
  | error e => exact absurd hres (h.comparable l hl r hr hhash e)
  | ok eq =>
    cases eq with
    | false => exact .inl hres
    | true =>
      obtain ⟨-, hof, hnull⟩ := h.genuine l hl r hr hhash hres
      exact .inr ⟨hres, (hof.unboxed_of_noNull hnull).1⟩

include hL hR in
/-- **A join that is exact meets the condition.** The rows emitted for a probe row are, up to
their order, those with matching keys; these survive boxing, as all emitted rows do. -/
theorem joinable_of_perm (hhash : ∀ r ∈ R, ∃ h, r.buildHash P S.rightTypes S.rightKeys = .ok h)
    (hproc : ∀ p ∈ L.flatMap (pairsOf P S R), S.Processed p)
    (hperm : ((L.flatMap (pairsOf P S R)).flatMap S.emitted).Perm (S.nestedLoop L R)) :
    S.Joinable P L R := by
  have hinj : ∀ l ∈ L, ∀ l' ∈ L, ∀ x y : Row, l ++ x = l' ++ y → l = l' ∧ x = y := by
    intro l hl l' hl' x y heq
    exact append_inj heq ((hL l hl).length_eq.trans (hL l' hl').length_eq.symm)
  rw [flatMap_emitted, JoinSchema.nestedLoop] at hperm
  have hrow : ∀ l ∈ L, ((R.filter (S.selected P l)).map (Row.filled S.rightTypes)).Perm
      (R.filter fun r => decide (S.Matches l r)) :=
    fun l hl => Bags.perm_of_flatMap_perm hinj hperm hl
  have hnull : ∀ l ∈ L, ∀ r ∈ R, S.Matches l r →
      (r.Of S.rightTypes ∧ r.NoNull) ∧ S.selected P l r = true := by
    intro l hl r hr hmatch
    have hmem := (hrow l hl).mem_iff.mpr (mem_filter.mpr ⟨hr, decide_eq_true hmatch⟩)
    obtain ⟨r', hr', rfl⟩ := mem_map.mp hmem
    obtain ⟨hr', hsel⟩ := mem_filter.mp hr'
    obtain ⟨hhash', hcmp⟩ := JoinSchema.selected_iff.mp hsel
    have hsome : (r'.unboxed S.rightTypes).isSome := by
      rcases hproc (l, r') (mem_pairs_iff.mpr ⟨hl, hr', hhash'⟩) with hfalse | htrue
      · rw [hcmp] at hfalse
        cases hfalse
      · exact htrue.2
    refine ⟨⟨(hR r' hr').of_filled hsome, Row.noNull_filled⟩, ?_⟩
    -- `r'` was emitted as `r`, so its boxed key is that of `r`
    have hkey := (hR r' hr').key_filled hsome S.rightKeys
    refine JoinSchema.selected_iff.mpr ⟨?_, ?_⟩
    · rw [JoinSchema.SameHash, Row.buildHash, hkey]
      exact hhash'
    · rw [JoinSchema.compare, hkey]
      exact hcmp
  have hmatches : ∀ l ∈ L, ∀ r ∈ R, S.selected P l r = true → S.Matches l r := by
    intro l hl r hr hsel
    have hlen := (hrow l hl).length_eq
    rw [length_map] at hlen
    exact of_decide_eq_true (Bags.filter_of_length_eq
      (fun r hr hm => (hnull l hl r hr (of_decide_eq_true hm)).2) hlen.symm hr hsel)
  refine ⟨(exists_buildHash_iff hR).mp hhash, ?_, ?_, ?_⟩
  · intro l hl r hr hsame e he
    rcases hproc (l, r) (mem_pairs_iff.mpr ⟨hl, hr, hsame⟩) with h | ⟨h, -⟩ <;>
      · rw [he] at h
        cases h
  · intro l hl r hr hsame hcmp
    have hmatch := hmatches l hl r hr (JoinSchema.selected_iff.mpr ⟨hsame, hcmp⟩)
    exact ⟨hmatch, (hnull l hl r hr hmatch).1⟩
  · intro l hl r hr hmatch
    exact (JoinSchema.selected_iff.mp (hnull l hl r hr hmatch).2).1

/-- The elements of a chunk are in its columns' arrays. -/
theorem DataChunk.HoldAll.stored {chunks : List DataChunk} {types : List TypeId} {rows : List Row}
    (h : HoldAll chunks types rows) : ∀ row ∈ rows, row.Stored types := by
  obtain ⟨parts, hparts, rfl⟩ := h
  intro row hrow
  obtain ⟨part, hpart, hrow⟩ := mem_flatten.mp hrow
  obtain ⟨c, -, hc⟩ := hparts.exists_of_mem_right hpart
  obtain ⟨i, hi⟩ := mem_iff_getElem?.mp hrow
  have hcells := hc.cells i row hi
  rw [← hc.types, Row.Stored, forall₂_map_left_iff]
  have hat : Forall₂ (fun v c => DataVector.cell? v i = some c) c.columns row := by
    rwa [← forall₂_eq_eq_eq, forall₂_map_left_iff, forall₂_map_right_iff] at hcells
  refine hat.imp fun v c hv x hx => ?_
  rw [hx] at hv
  exact storageClass_of_load (cell?_eq_some_some.mp hv).2

section

variable {probe build : List DataChunk} (hprobe : HoldAll probe S.leftTypes L)
  (hbuild : HoldAll build S.rightTypes R)
include hprobe hbuild

theorem JoinSchema.JoinsExactly.joinable (h : S.JoinsExactly P probe build L R) :
    S.Joinable P L R := by
  obtain ⟨bound, res, hrun, hres⟩ := hashJoin_run (P := P) hprobe hbuild fun r hr =>
    (hbuild.stored r hr).length_eq
  obtain ⟨outs, rows, hev, hholds, hperm⟩ := h
  obtain ⟨fuel, hok, hfuel⟩ := (hev.and (Filter.eventually_ge_atTop bound)).exists
  rw [hrun fuel hfuel] at hok
  cases hok
  obtain ⟨hhash, hproc, hheld⟩ := hres
  rw [hholds.unique hheld] at hperm
  exact joinable_of_perm hprobe.stored hbuild.stored hhash hproc hperm

theorem JoinSchema.Joinable.joinsExactly (h : S.Joinable P L R) :
    S.JoinsExactly P probe build L R := by
  obtain ⟨bound, res, hrun, hres⟩ := hashJoin_run (P := P) hprobe hbuild fun r hr =>
    (hbuild.stored r hr).length_eq
  cases res with
  | error e =>
    rcases hres with ⟨r, hr, e', he⟩ | ⟨p, hp, hfail⟩
    · obtain ⟨k, hk⟩ := (exists_buildHash_iff (P := P) hbuild.stored).mpr h.hashable r hr
      rw [he] at hk
      cases hk
    · exact absurd (h.processed p hp) hfail
  | ok outs =>
    refine ⟨outs, S.nestedLoop L R, ?_, ?_, .refl _⟩
    · filter_upwards [Filter.eventually_ge_atTop bound] with fuel hfuel
      exact hrun fuel hfuel
    · rw [← h.rows_eq hprobe.stored]
      exact hres.2.2

end

/-- **The hash join is the nested-loop equi-join exactly when no NULL, no BOOLEAN cell other than
0 and 1 and no difference between the two hash functions gets in its way**: for all build
chunks, probe chunks and keys. -/
theorem JoinSchema.joinsExactly_iff_joinable {probe build : List DataChunk}
    (hprobe : HoldAll probe S.leftTypes L) (hbuild : HoldAll build S.rightTypes R) :
    S.JoinsExactly P probe build L R ↔ S.Joinable P L R :=
  ⟨fun h => h.joinable hprobe hbuild, fun h => h.joinsExactly hprobe hbuild⟩

end Join

/-! ## Two BIGINT tables -/

/-- Keys of one BIGINT column; the build side has a second column. -/
def bigintJoin : JoinSchema where
  leftTypes := [.int64]
  rightTypes := [.int64, .int64]
  leftKeys := [0]
  rightKeys := [0]
  left_named := by decide
  right_named := by decide
  keys := .cons ⟨.int64, rfl, rfl, by decide⟩ .nil

/-- A chunk of one row, whose columns are BIGINT. -/
def bigintChunk (row : List (Option Int64)) : DataChunk where
  columns := row.map fun x =>
    { type := .int64, count := 1, intData := [x.getD 0], validity := Validity.put 0 0 x.isSome }
  count := 1

theorem bigintChunk_holdsRow (row : List (Option Int64)) :
    (bigintChunk row).Holds (row.map fun _ => .int64) [row.map (·.map .int)] := by
  refine ⟨?_, rfl, ?_, ?_, ?_⟩
  · exact Nat.succ_le_succ (Nat.zero_le _)
  · rw [bigintChunk, List.map_map]
    rfl
  · simp [bigintChunk]
  · intro i r hi
    obtain ⟨rfl, rfl⟩ : i = 0 ∧ row.map (·.map .int) = r := by
      cases i with
      | zero => exact ⟨rfl, some.inj hi⟩
      | succ i => cases hi
    simp only [bigintChunk, List.map_map]
    refine map_congr_left fun x _ => ?_
    have hlt : 0 < standardVectorSize := Nat.zero_lt_succ _
    have hbit : (Validity.put 0 0 x.isSome).getLsbD 0 = x.isSome := by
      rw [Validity.getLsbD_put, if_pos ⟨rfl, hlt⟩]
    simp only [Function.comp, cell?, isNull, hbit]
    cases x <;> rfl

theorem bigintChunk_holds (row : List (Option Int64)) :
    HoldAll [bigintChunk row] (row.map fun _ => .int64) [row.map (·.map .int)] :=
  ⟨[[row.map (·.map .int)]], .cons (bigintChunk_holdsRow row) .nil, rfl⟩

/-- A build row without NULLs is joined with the probe row of the same key. -/
theorem joinsExactly_bigint :
    bigintJoin.JoinsExactly Platform.plain [bigintChunk [some 1]] [bigintChunk [some 1, some 7]]
      [[some (.int 1)]] [[some (.int 1), some (.int 7)]] := by
  refine (JoinSchema.joinsExactly_iff_joinable (bigintChunk_holds [some 1])
    (bigintChunk_holds [some 1, some 7])).mpr ⟨?_, ?_, ?_, ?_⟩
  · decide
  · simp only [forall_mem_singleton]
    intro _ e he
    have hcmp : bigintJoin.compare [some (.int 1)] [some (.int 1), some (.int 7)] =
      some (.ok true) := by decide
    cases he
  · simp only [forall_mem_singleton]
    exact fun _ _ => ⟨by decide, .cons (by rintro _ ⟨⟩; exact ⟨rfl, nofun⟩)
      (.cons (by rintro _ ⟨⟩; exact ⟨rfl, nofun⟩) .nil), by simp [Row.NoNull]⟩
  · decide

/-- **A NULL key joins with 0**: the build row has no key, and yet is in the output. -/
theorem null_key_joins_zero : bigintJoin.nestedLoop [[some (.int 0)]] [[none, some (.int 7)]] = [] ∧
    ((hashJoin Platform.plain [0] [0] bigintJoin.outputTypes [bigintChunk [some 0]]
        [bigintChunk [none, some 7]] 1).bind (·.toOption)).map
          (fun outs => outs.map fun c => c.columns.map (·.cell? 0)) =
      some [[some (some (.int 0)), some (some (.int 0)), some (some (.int 7))]] ∧
    ¬ bigintJoin.JoinsExactly Platform.plain [bigintChunk [some 0]] [bigintChunk [none, some 7]]
      [[some (.int 0)]] [[none, some (.int 7)]] := by
  refine ⟨by decide, by decide +kernel, fun h => ?_⟩
  · have hjoin := h.joinable (bigintChunk_holds [some 0]) (bigintChunk_holds [none, some 7])
    obtain ⟨-, -, hnull⟩ := hjoin.genuine _ (mem_singleton_self _) _ (mem_singleton_self _)
      (by decide) (by decide)
    exact hnull none mem_cons_self rfl

/-! ## Batch hashing -/

section BatchHash

variable {P : Platform} (hbool : ∀ b, P.hashBool b = P.hashInt64 (if b then 1 else 0))
  (hzero : P.hashInt64 0 = 0)
include hbool hzero

/-- A key cell has one hash as an element of its column and as a value. A typed NULL has no
value to hash, and a boxed BOOLEAN is 0 or 1. -/
def Cell.HashesAlike (P : Platform) (type : TypeId) : Cell → Prop
  | none => type ≠ .boolean ∧ type ≠ .varchar
  | some (.int x) => type = .boolean → P.hashInt64 (if x = 0 then 0 else 1) = P.hashInt64 x
  | some _ => True

theorem Cell.hash_box_iff {type : TypeId} {c : Cell} (hnone : type.storageClass ≠ .none)
    (hfloat : type.storageClass ≠ .float)
    (hc : ∀ x, c = some x → x.storageClass = type.storageClass) :
    (c.box type).hash P = .ok (c.hash P) ↔ c.HashesAlike P type := by
  cases c with
  | none => cases type <;> simp_all [storageClass, box, Value.hash, HashesAlike, Cell.hash]
  | some x =>
    have hx := hc x rfl
    cases x <;> cases type <;>
      simp [Datum.storageClass, storageClass, box, Datum.box, Value.boolean, Value.hash,
        HashesAlike, Cell.hash, hbool] at hx hfloat ⊢

variable {c : DataChunk} {types : List TypeId} {rows : List Row} {row : Row} {i : ℕ}

/-- **Batch hashing** agrees with the hash of the boxed keys, for all lists of the given key
columns, exactly when each of their cells in the row hashes alike. -/
theorem JoinHashTable.hashes_alike_iff (cols : List ℕ) (h : c.Holds types rows)
    (hnamed : ∀ t ∈ types, t.storageClass ≠ .none) (hi : rows[i]? = some row)
    (hcols : ∀ k ∈ cols, k < types.length ∧ (types.getD k .invalid).storageClass ≠ .float) :
    (∀ keyCols ⊆ cols, ∃ hash, (keyValues keyCols c i).map (hashKey P) = some (.ok hash) ∧
      computeHash P keyCols c i = some hash) ↔
    ∀ k ∈ cols, (row.getD k none).HashesAlike P (types.getD k .invalid) := by
  have hcell : ∀ k ∈ cols, (Cell.box (types.getD k .invalid) (row.getD k none)).hash P =
      .ok (Cell.hash P (row.getD k none)) ↔
        (row.getD k none).HashesAlike P (types.getD k .invalid) := by
    intro k hk
    obtain ⟨col, -, htype, hmem, hat⟩ := h.keyColumn hi (hcols k hk).1
    refine Cell.hash_box_iff hbool hzero (htype ▸ hnamed _ hmem) (hcols k hk).2 fun x hx => ?_
    rw [hx] at hat
    exact htype ▸ storageClass_of_load (cell?_eq_some_some.mp hat).2
  have hrun : ∀ keyCols ⊆ cols, keyValues keyCols c i = some (row.key types keyCols) ∧
      computeHash P keyCols c i = some (row.probeHash P keyCols) := fun keyCols hsub =>
    have hkeys : KeysIn types keyCols := fun k hk => (hcols k (hsub hk)).1
    ⟨h.keyValues hnamed hkeys hi, h.computeHash hnamed hkeys hi⟩
  constructor
  · intro hall k hk
    obtain ⟨hash, hbuild, hprobe⟩ := hall [k] (by simpa using hk)
    rw [(hrun [k] (by simpa using hk)).1] at hbuild
    rw [(hrun [k] (by simpa using hk)).2] at hprobe
    rw [← hcell k hk]
    simp only [Row.key, map_singleton, Row.probeHash, map_some,
      some.injEq] at hbuild hprobe
    generalize Cell.box _ _ = v at hbuild ⊢
    rw [← hprobe, hashKey] at hbuild
    cases hv : v.hash P with
    | error e => simp [hv] at hbuild
    | ok v => simpa [hv, combineHash] using hbuild
  · intro hall keyCols hsub
    rw [(hrun keyCols hsub).1, (hrun keyCols hsub).2]
    refine ⟨_, congrArg some ?_, rfl⟩
    rw [hashKey, Row.key, Row.probeHash]
    generalize (0 : UInt64) = h₀
    induction keyCols generalizing h₀ with
    | nil => rfl
    | cons k keyCols ih =>
      obtain ⟨hk, hsub⟩ := cons_subset.mp hsub
      rw [map_cons, foldlM_cons, (hcell k hk).mpr (hall k hk)]
      exact ih hsub _

end BatchHash

theorem hashes_alike_null_bigint : ∃ hash, (keyValues [0] (bigintChunk [none]) 0).map
        (hashKey .plain) = some (.ok hash) ∧
      computeHash .plain [0] (bigintChunk [none]) 0 = some hash :=
  (hashes_alike_iff (P := .plain) (by decide) rfl [0] (bigintChunk_holdsRow [none])
    (by decide) rfl (by decide)).mpr (by simp [Cell.HashesAlike]) [0] (Subset.refl _)

/-- A NULL in a VARCHAR column has no value to hash; the batch takes 0 for it. -/
theorem null_varchar_hashes_apart :
    let c : DataChunk := ⟨[{ reset .varchar 1 with validity := 0 }], 1⟩
    (keyValues [0] c 0).map (hashKey .plain) = some (.error Error.badVariant) ∧
      computeHash .plain [0] c 0 = some (combineHash 0 0) := by
  decide +kernel

end CppColDB
