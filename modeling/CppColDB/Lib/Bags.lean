import Mathlib.Data.List.Count
import Mathlib.Data.List.Perm.Basic

/-!
# Lists up to their order

Two facts about lists that are compared as multisets: the parts that the elements of a list
contribute can be compared one by one if they can be told apart, and a filter that keeps as
many elements as a weaker one keeps the same.
-/

namespace Bags

variable {α β γ : Type} {g : α → β → γ} {L : List α} {l : α} {A : α → List β}

/-- How often a row occurs among those that the elements of a list contribute, if only one
element can contribute it. -/
theorem count_flatMap_of_injective [DecidableEq α] [DecidableEq β] [DecidableEq γ]
    (hg : ∀ l' ∈ L, ∀ x y, g l x = g l' y → l = l' ∧ x = y) (x : β) :
    (L.flatMap fun l => (A l).map (g l)).count (g l x) = L.count l * (A l).count x := by
  induction L with
  | nil => simp
  | cons l' L ih =>
    obtain ⟨hhead, htail⟩ := List.forall_mem_cons.mp hg
    rw [List.flatMap_cons, List.count_append, ih htail, List.count_cons]
    by_cases hl : l' = l
    · subst hl
      have hinj : Function.Injective (g l') := fun a b hab => (hhead a b hab).2
      rw [List.count_map_of_injective _ _ hinj, beq_self_eq_true, if_pos rfl, Nat.add_mul,
        Nat.one_mul, Nat.add_comm]
    · have hnone : ((A l').map (g l')).count (g l x) = 0 := by
        rw [List.count_eq_zero]
        intro hmem
        obtain ⟨y, -, hy⟩ := List.mem_map.mp hmem
        exact hl (hhead x y hy.symm).1.symm
      rw [hnone, Nat.zero_add, beq_eq_false_iff_ne.mpr hl, if_neg Bool.false_ne_true, Nat.add_zero]

/-- **Two contributions to the same multiset agree** element by element. -/
theorem perm_of_flatMap_perm [DecidableEq α] [DecidableEq β] [DecidableEq γ] {B : α → List β}
    (hg : ∀ l ∈ L, ∀ l' ∈ L, ∀ x y, g l x = g l' y → l = l' ∧ x = y)
    (h : (L.flatMap fun l => (A l).map (g l)).Perm (L.flatMap fun l => (B l).map (g l)))
    (hl : l ∈ L) : (A l).Perm (B l) := by
  rw [List.perm_iff_count]
  intro x
  have hcount := h.count_eq (g l x)
  rw [count_flatMap_of_injective (hg l hl), count_flatMap_of_injective (hg l hl)] at hcount
  exact Nat.eq_of_mul_eq_mul_left (List.count_pos_iff.mpr hl) hcount

/-- A filter that keeps as many elements as a weaker one keeps them all. -/
theorem filter_of_length_eq {p q : α → Bool} {xs : List α} (hpq : ∀ x ∈ xs, p x → q x)
    (hlen : (xs.filter p).length = (xs.filter q).length) {x : α} (hx : x ∈ xs) (hq : q x) :
    p x := by
  have hsub : (xs.filter q).filter p = xs.filter p := by
    rw [List.filter_filter]
    apply List.filter_congr
    intro y hy
    by_cases hp : p y
    · simp [hpq y hy hp]
    · simp [hp]
  rw [← hsub, List.length_filter_eq_length_iff] at hlen
  exact hlen x (List.mem_filter.mpr ⟨hx, hq⟩)

end Bags
