import Mathlib.Data.List.Sort

/-!
# Sorting and the least elements of a list

Sorting with a comparison function that is a strict weak order on the elements of the list
only, and the elements that a heap of bounded size keeps.

## Main definitions

* `threeWay`, `missingLast` — comparisons from `<`, and where values can be missing.
* `StrictWeakOn` — the comparison is a strict weak order on the elements of a list.
* `IsHeap`, `Algorithms` — what `push_heap`, `pop_heap` and `sort` promise.
* `Least` — some elements of a list are its `k` least.
* `Least.take_stableSort` — sorted, they are the first `k` of the sorted list.
-/

namespace Selection

variable {α : Type} {less : α → α → Bool} {xs ys : List α} {k : ℕ} {cmp : α → α → Ordering}
  {a b : α}

/-! ## Comparisons -/

/-- Three-way comparison from `<`. -/
def threeWay (less : α → α → Bool) (a b : α) : Ordering :=
  if less a b then .lt else if less b a then .gt else .eq

/-- Comparison in one of two directions; a missing value comes last in both. -/
def missingLast (ascending : Bool) (cmp : α → α → Ordering) : Option α → Option α → Ordering
  | none, none => .eq
  | none, some _ => .gt
  | some _, none => .lt
  | some a, some b => if ascending then cmp a b else (cmp a b).swap

theorem threeWay_eq_lt_iff : threeWay less a b = .lt ↔ less a b = true := by
  rw [threeWay]
  split
  next h => simp [h]
  next h => split <;> simp [h]

theorem transCmp_threeWay [LE α] [LT α] [DecidableLT α] [Std.IsLinearOrder α]
    [Std.LawfulOrderLT α] : Std.TransCmp (threeWay fun a b : α => decide (a < b)) where
  eq_swap := by
    intro a b
    simp only [threeWay, decide_eq_true_eq]
    split
    next hab => rw [if_neg (Std.not_lt.mpr (Std.le_of_lt hab))]; rfl
    next => split <;> rfl
  isLE_trans := by
    have hisLE : ∀ a b : α, (threeWay (fun a b : α => decide (a < b)) a b).isLE = true ↔
        ¬ b < a := by
      intro a b
      simp only [threeWay, decide_eq_true_eq]
      split
      next hab => simp [Std.not_lt.mpr (Std.le_of_lt hab)]
      next => split <;> simp_all
    intro a b c hab hbc
    rw [hisLE, Std.not_lt] at *
    exact Std.le_trans hab hbc

theorem transCmp_missingLast [Std.TransCmp cmp] (ascending : Bool) :
    Std.TransCmp (missingLast ascending cmp) where
  eq_swap := by
    intro a b
    cases a <;> cases b <;> try rfl
    rename_i a b
    cases ascending <;> simp [missingLast, @Std.OrientedCmp.eq_swap _ cmp _ a b]
  isLE_trans := by
    intro a b c hab hbc
    cases a with
    | none =>
      cases b with
      | none => exact hbc
      | some b => cases hab
    | some a =>
      cases c with
      | none => rfl
      | some c =>
        cases b with
        | none => cases hbc
        | some b =>
          cases ascending with
          | true => exact @Std.TransCmp.isLE_trans _ cmp _ _ _ _ hab hbc
          | false =>
            simp only [missingLast, Bool.false_eq_true, if_false,
              ← @Std.OrientedCmp.eq_swap _ cmp] at hab hbc ⊢
            exact Std.TransCmp.isLE_trans hbc hab

theorem transCmp_comap {ι : Type} [Std.TransCmp cmp] (f : ι → α) :
    Std.TransCmp fun i j => cmp (f i) (f j) where
  eq_swap := Std.OrientedCmp.eq_swap
  isLE_trans := Std.TransCmp.isLE_trans

/-! ## Strict weak orders -/

/-- `less` is a strict weak order on the elements of `xs`. -/
structure StrictWeakOn (less : α → α → Bool) (xs : List α) : Prop where
  irrefl : ∀ a ∈ xs, less a a = false
  trans : ∀ a ∈ xs, ∀ b ∈ xs, ∀ c ∈ xs, less a b = true → less b c = true → less a c = true
  cotrans : ∀ a ∈ xs, ∀ b ∈ xs, ∀ c ∈ xs, less a c = true → less a b = true ∨ less b c = true

namespace StrictWeakOn

theorem mono (h : StrictWeakOn less xs) (hsub : ys ⊆ xs) : StrictWeakOn less ys :=
  ⟨fun a ha => h.irrefl a (hsub ha),
    fun a ha b hb c hc => h.trans a (hsub ha) b (hsub hb) c (hsub hc),
    fun a ha b hb c hc => h.cotrans a (hsub ha) b (hsub hb) c (hsub hc)⟩

theorem congr {less' : α → α → Bool} (h : StrictWeakOn less xs)
    (heq : ∀ a ∈ xs, ∀ b ∈ xs, less' a b = less a b) : StrictWeakOn less' xs where
  irrefl a ha := by
    rw [heq a ha a ha]
    exact h.irrefl a ha
  trans a ha b hb c hc := by
    rw [heq a ha b hb, heq b hb c hc, heq a ha c hc]
    exact h.trans a ha b hb c hc
  cotrans a ha b hb c hc := by
    rw [heq a ha b hb, heq b hb c hc, heq a ha c hc]
    exact h.cotrans a ha b hb c hc

theorem asymm (h : StrictWeakOn less xs) (ha : a ∈ xs) (hb : b ∈ xs)
    (hab : less a b = true) : less b a = false := by
  rw [Bool.eq_false_iff]
  intro hba
  exact Bool.false_ne_true ((h.irrefl a ha).symm.trans (h.trans a ha b hb a ha hab hba))

/-- Not being less is transitive. -/
theorem not_less_trans (h : StrictWeakOn less xs) {c : α} (ha : a ∈ xs) (hb : b ∈ xs)
    (hc : c ∈ xs) (hab : less a b = false) (hbc : less b c = false) : less a c = false := by
  rw [Bool.eq_false_iff]
  intro hac
  obtain h | h := h.cotrans a ha b hb c hc hac
  · exact Bool.false_ne_true (hab.symm.trans h)
  · exact Bool.false_ne_true (hbc.symm.trans h)

/-- The other direction. -/
theorem flip (h : StrictWeakOn less xs) : StrictWeakOn (fun a b => less b a) xs where
  irrefl := h.irrefl
  trans a ha b hb c hc hab hbc := h.trans c hc b hb a ha hbc hab
  cotrans a ha b hb c hc hac := (h.cotrans c hc b hb a ha hac).symm

/-- The strict part of a comparison. -/
theorem of_transCmp
    (h : Std.TransCmp fun a b : { x // x ∈ xs } => cmp a.1 b.1) :
    StrictWeakOn (fun a b => decide (cmp a b = .lt)) xs where
  irrefl a ha := by
    have hself : cmp a a = .eq :=
      @Std.ReflCmp.compare_self { x // x ∈ xs } (fun a b => cmp a.1 b.1) inferInstance ⟨a, ha⟩
    rw [hself]
    rfl
  trans a ha b hb c hc hab hbc := by
    rw [decide_eq_true_eq] at *
    exact @Std.TransCmp.lt_trans _ _ h ⟨a, ha⟩ ⟨b, hb⟩ ⟨c, hc⟩ hab hbc
  cotrans a ha b hb c hc hac := by
    simp only [decide_eq_true_eq] at *
    by_contra hnot
    obtain ⟨hab, hbc⟩ := not_or.mp hnot
    exact Ordering.isGE_iff_ne_lt.mp (@Std.TransCmp.isGE_trans _ _ h ⟨a, ha⟩ ⟨b, hb⟩ ⟨c, hc⟩
      (Ordering.ne_lt_iff_isGE.mp hab) (Ordering.ne_lt_iff_isGE.mp hbc)) hac

end StrictWeakOn

/-! ## Stable sorting -/

/-- The stable sort of a list. -/
def stableSort (less : α → α → Bool) (xs : List α) : List α :=
  xs.mergeSort fun a b => !less b a

/-- The sort only compares elements of the list. -/
theorem stableSort_eq_map_attach :
    stableSort less xs = (xs.attach.mergeSort fun a b => !less b.1 a.1).map Subtype.val := by
  rw [List.map_mergeSort (s := fun a b => !less b a) fun _ _ _ _ => rfl, List.attach_map_subtype_val]
  rfl

theorem map_stableSort {β : Type} (less' : β → β → Bool) (f : α → β) (xs : List α) :
    (stableSort (fun a b => less' (f a) (f b)) xs).map f = stableSort less' (xs.map f) :=
  List.map_mergeSort fun _ _ _ _ => rfl

theorem perm_stableSort : (stableSort less xs).Perm xs := List.mergeSort_perm xs _

section

variable (h : StrictWeakOn less xs)

include h

private theorem attach_trans (a b c : { x // x ∈ xs }) (hab : (!less b.1 a.1) = true)
    (hbc : (!less c.1 b.1) = true) : (!less c.1 a.1) = true := by
  rw [Bool.not_eq_true'] at hab hbc ⊢
  exact h.not_less_trans c.2 b.2 a.2 hbc hab

private theorem attach_total (a b : { x // x ∈ xs }) :
    ((!less b.1 a.1) || (!less a.1 b.1)) = true := by
  cases hab : less a.1 b.1 with
  | false => simp
  | true => simp [h.asymm a.2 b.2 hab]

theorem pairwise_stableSort : (stableSort less xs).Pairwise fun a b => less b a = false := by
  rw [stableSort_eq_map_attach, List.pairwise_map]
  refine (List.pairwise_mergeSort (attach_trans h) (attach_total h) xs.attach).imp ?_
  intro a b hab
  rwa [Bool.not_eq_true'] at hab

/-- Elements that tie with `a` stay in order. -/
theorem filter_stableSort (ha : a ∈ xs) :
    (stableSort less xs).filter (fun b => !less a b && !less b a) =
      xs.filter fun b => !less a b && !less b a := by
  let tie : { x // x ∈ xs } → Bool := fun b => !less a b.1 && !less b.1 a
  have hties : (xs.attach.filter tie).Pairwise fun b c => (!less c.1 b.1) = true := by
    refine List.pairwise_of_forall_mem_list fun b hb c hc => ?_
    have hb := (List.mem_filter.mp hb).2
    have hc := (List.mem_filter.mp hc).2
    simp only [tie, Bool.and_eq_true, Bool.not_eq_true'] at hb hc
    rw [h.not_less_trans c.2 ha b.2 hc.2 hb.1]
    rfl
  have hsub := List.sublist_mergeSort (attach_trans h) (attach_total h) hties
    List.filter_sublist
  have hfilter := hsub.filter tie
  rw [List.filter_filter] at hfilter
  simp only [Bool.and_self] at hfilter
  have heq := hfilter.eq_of_length
    ((List.mergeSort_perm xs.attach fun b c => !less c.1 b.1).filter tie).length_eq.symm
  calc (stableSort less xs).filter (fun b => !less a b && !less b a)
      = ((xs.attach.mergeSort fun b c => !less c.1 b.1).filter tie).map Subtype.val := by
        rw [stableSort_eq_map_attach, List.filter_map]
        rfl
    _ = (xs.attach.filter tie).map Subtype.val := congrArg (List.map Subtype.val) heq.symm
    _ = (xs.attach.map Subtype.val).filter fun b => !less a b && !less b a := by
        rw [List.filter_map]
        rfl
    _ = xs.filter fun b => !less a b && !less b a := by rw [List.attach_map_subtype_val]

/-- **The stable sort** orders by `less`, and elements that tie by their place in the list. -/
theorem pairwise_stableSort_lex {before : α → α → Prop} (hbefore : xs.Pairwise before) :
    (stableSort less xs).Pairwise fun a b =>
      less a b = true ∨ (less a b = false ∧ less b a = false ∧ before a b) := by
  rw [List.pairwise_iff_forall_sublist]
  intro a b hsub
  have hle : less b a = false := List.pairwise_iff_forall_sublist.mp (pairwise_stableSort h) hsub
  cases hab : less a b with
  | true => exact .inl rfl
  | false =>
    have ha : a ∈ xs := perm_stableSort.mem_iff.mp (hsub.subset (by simp))
    have hties := hsub.filter fun b => !less a b && !less b a
    rw [filter_stableSort h ha, List.filter_eq_self.mpr] at hties
    · exact .inr ⟨rfl, hle, List.pairwise_iff_forall_sublist.mp hbefore
        (hties.trans List.filter_sublist)⟩
    · simp [hab, hle, h.irrefl a ha]

end

/-- A sorted list is the stable sort of its permutations, where only equal elements tie. -/
theorem eq_stableSort (h : StrictWeakOn less xs)
    (htie : ∀ a ∈ xs, ∀ b ∈ xs, less a b = false → less b a = false → a = b) (hperm : ys.Perm xs)
    (hsorted : ys.Pairwise fun a b => less b a = false) :
    ys = stableSort less xs :=
  List.Perm.eq_of_pairwise
    (fun a b ha hb hab hba =>
      htie a (hperm.mem_iff.mp ha) b (perm_stableSort.mem_iff.mp hb) hba hab)
    hsorted (pairwise_stableSort h) (hperm.trans perm_stableSort.symm)

/-! ## Heaps -/

/-- No element is greater than its parent. -/
def IsHeap (less : α → α → Bool) (xs : List α) : Prop :=
  ∀ i a b, 0 < i → xs[(i - 1) / 2]? = some a → xs[i]? = some b → less a b = false

/-- **The front of a heap** is a greatest element. -/
theorem IsHeap.front {x : α} (hheap : IsHeap less (x :: xs)) (h : StrictWeakOn less (x :: xs))
    (ha : a ∈ x :: xs) : less x a = false := by
  have hindex : ∀ (i : ℕ) (a : α), (x :: xs)[i]? = some a → less x a = false := by
    -- along the parents, from the element to the front
    intro i
    induction i using Nat.strong_induction_on with
    | _ i ih =>
      intro a ha
      rcases Nat.eq_zero_or_pos i with rfl | hpos
      · cases ha
        exact h.irrefl x List.mem_cons_self
      · have hi := (List.getElem?_eq_some_iff.mp ha).1
        have hparent := List.getElem?_eq_getElem (l := x :: xs) (i := (i - 1) / 2) (by omega)
        exact h.not_less_trans List.mem_cons_self (List.mem_of_getElem? hparent)
          (List.mem_of_getElem? ha) (ih _ (by omega) _ hparent) (hheap i _ a hpos hparent ha)
  obtain ⟨i, hi⟩ := List.mem_iff_getElem?.mp ha
  exact hindex i a hi

/-- `push_heap`, `pop_heap` and `sort`, with what they promise. -/
structure Algorithms (α : Type) where
  pushHeap : (α → α → Bool) → List α → List α
  popHeap : (α → α → Bool) → List α → List α
  sort : (α → α → Bool) → List α → List α
  push_spec : ∀ less xs x, StrictWeakOn less (xs ++ [x]) → IsHeap less xs →
    (pushHeap less (xs ++ [x])).Perm (xs ++ [x]) ∧ IsHeap less (pushHeap less (xs ++ [x]))
  pop_spec : ∀ less x xs, StrictWeakOn less (x :: xs) → IsHeap less (x :: xs) →
    ∃ ys, popHeap less (x :: xs) = ys ++ [x] ∧ ys.Perm xs ∧ IsHeap less ys
  sort_spec : ∀ less xs, StrictWeakOn less xs →
    (sort less xs).Perm xs ∧ (sort less xs).Pairwise fun a b => less b a = false

/-! ## The least elements -/

/-- `kept` are `k` least elements of `seen`, or all of them if there are not as many. -/
def Least (less : α → α → Bool) (k : ℕ) (seen kept : List α) : Prop :=
  ∃ rest, seen.Perm (kept ++ rest) ∧ (∀ a ∈ kept, ∀ b ∈ rest, less b a = false) ∧
    kept.length ≤ k ∧ (rest ≠ [] → kept.length = k)

namespace Least

variable {seen kept kept' : List α} {x front : α}

theorem nil : Least less k [] [] := ⟨[], .refl _, by simp, by simp, by simp⟩

theorem subset (h : Least less k seen kept) : kept ⊆ seen := by
  obtain ⟨rest, hperm, -⟩ := h
  exact fun a ha => hperm.mem_iff.mpr (List.mem_append_left _ ha)

/-- One more element while there is room. -/
theorem push (h : Least less k seen kept) (hlt : kept.length < k)
    (hkept : kept'.Perm (kept ++ [x])) : Least less k (seen ++ [x]) kept' := by
  obtain ⟨rest, hperm, -, -, hfull⟩ := h
  obtain rfl : rest = [] := by
    by_contra hne
    exact absurd (hfull hne) (Nat.ne_of_lt hlt)
  rw [List.append_nil] at hperm
  refine ⟨[], ?_, by simp, by rw [hkept.length_eq]; simpa [Nat.succ_le_iff] using hlt, by simp⟩
  rw [List.append_nil]
  exact (hperm.append_right [x]).trans hkept.symm

/-- An element that is not less than those kept. -/
theorem skip (h : Least less k seen kept) (hfull : kept.length = k)
    (hx : ∀ a ∈ kept, less x a = false) : Least less k (seen ++ [x]) kept := by
  obtain ⟨rest, hperm, hless, hle, -⟩ := h
  refine ⟨rest ++ [x], ?_, fun a ha b hb => ?_, hle, fun _ => hfull⟩
  · rw [← List.append_assoc]
    exact hperm.append_right [x]
  · obtain hb | hb := List.mem_append.mp hb
    · exact hless a ha b hb
    · obtain rfl := List.mem_singleton.mp hb
      exact hx a ha

/-- An element that is less than the greatest of those kept takes its place. -/
theorem replace (h : Least less k seen (front :: kept)) (hfull : kept.length + 1 = k)
    (hweak : StrictWeakOn less (seen ++ [x])) (hx : less x front = true)
    (hfront : ∀ a ∈ kept, less front a = false) (hkept : kept'.Perm (kept ++ [x])) :
    Least less k (seen ++ [x]) kept' := by
  obtain ⟨rest, hperm, hless, -, -⟩ := h
  have hmem : ∀ a, a ∈ front :: kept ∨ a ∈ rest → a ∈ seen ++ [x] := fun a ha =>
    List.mem_append_left _ (hperm.mem_iff.mpr (List.mem_append.mpr ha))
  have hxmem : x ∈ seen ++ [x] := List.mem_append_right _ (List.mem_singleton_self x)
  have hfmem := hmem front (.inl List.mem_cons_self)
  refine ⟨front :: rest, ?_, fun a ha b hb => ?_, by rw [hkept.length_eq]; simp; omega,
    fun _ => by rw [hkept.length_eq]; simpa using hfull⟩
  · calc (seen ++ [x]).Perm (front :: kept ++ rest ++ [x]) := hperm.append_right [x]
      _ |>.Perm (front :: ((kept ++ [x]) ++ rest)) := by
        rw [List.cons_append, List.cons_append, List.append_assoc, List.append_assoc]
        exact .cons _ (List.perm_append_comm.append_left kept)
      _ |>.Perm (kept ++ [x] ++ front :: rest) := List.perm_middle.symm
      _ |>.Perm (kept' ++ front :: rest) := hkept.symm.append_right _
  · have ha : a ∈ kept ∨ a = x := by simpa using hkept.mem_iff.mp ha
    obtain rfl | hb := List.mem_cons.mp hb
    · obtain ha | rfl := ha
      · exact hfront a ha
      · exact hweak.asymm hxmem hfmem hx
    · have hbf := hless front List.mem_cons_self b hb
      obtain ha | rfl := ha
      · exact hless a (List.mem_cons_of_mem _ ha) b hb
      · exact hweak.not_less_trans (hmem b (.inr hb)) hfmem hxmem hbf
          (hweak.asymm hxmem hfmem hx)

/-- **The least elements, sorted**, are the first ones of the sorted list. -/
theorem take_stableSort (h : Least less k seen kept) (hweak : StrictWeakOn less seen)
    (htie : ∀ a ∈ seen, ∀ b ∈ seen, less a b = false → less b a = false → a = b)
    {sorted : List α} (hsorted : sorted.Pairwise fun a b => less b a = false)
    (hperm : sorted.Perm kept) : sorted = (stableSort less seen).take k := by
  obtain ⟨rest, hseen, hless, hle, hfull⟩ := h
  have hrest : rest ⊆ seen := fun a ha => hseen.mem_iff.mpr (List.mem_append_right _ ha)
  have hall : sorted ++ stableSort less rest = stableSort less seen := by
    refine eq_stableSort hweak htie ((hperm.append perm_stableSort).trans hseen.symm) ?_
    refine List.pairwise_append.mpr ⟨hsorted, pairwise_stableSort (hweak.mono hrest), ?_⟩
    exact fun a ha b hb => hless a (hperm.mem_iff.mp ha) b (perm_stableSort.mem_iff.mp hb)
  rw [← hall]
  cases rest with
  | nil =>
    rw [stableSort, List.mergeSort_nil, List.append_nil, List.take_of_length_le]
    exact hperm.length_eq.trans_le hle
  | cons b rest =>
    rw [List.take_append_of_le_length, List.take_of_length_le]
    · exact hperm.length_eq.trans_le hle
    · exact (hfull (List.cons_ne_nil b rest)).symm.trans_le hperm.length_eq.symm.le

end Least

end Selection
