import Mathlib.Data.List.Basic

/-!
# Changing one element of a list

What `List.modify` depends on, how it commutes with a map, and what it leaves in the list.
-/

namespace List

variable {α β : Type} {l : List α} {i : ℕ} {f f' : α → α}

theorem modify_congr (h : ∀ x, l[i]? = some x → f x = f' x) : l.modify i f = l.modify i f' := by
  refine ext_getElem? fun j => ?_
  rw [getElem?_modify, getElem?_modify]
  by_cases hj : i = j
  · subst hj
    cases hx : l[i]? with
    | none => rfl
    | some x => simp [h x hx]
  · simp [hj]

theorem map_modify_comm {g : α → β} {k : β → β} (h : ∀ x, g (f x) = k (g x)) :
    (l.modify i f).map g = (l.map g).modify i k := by
  refine ext_getElem? fun j => ?_
  rw [getElem?_map, getElem?_modify, getElem?_modify, getElem?_map]
  by_cases hj : i = j <;> cases l[j]? <;> simp [hj, h]

theorem exists_of_mem_modify {y : α} (h : y ∈ l.modify i f) : ∃ x ∈ l, y = f x ∨ y = x := by
  obtain ⟨j, hj⟩ := getElem?_of_mem h
  rw [getElem?_modify, Option.map_eq_map, Option.map_eq_some_iff] at hj
  obtain ⟨x, hx, rfl⟩ := hj
  refine ⟨x, mem_of_getElem? hx, ?_⟩
  split
  · exact .inl rfl
  · exact .inr rfl

end List
