import Mathlib.Data.Finmap

/-!
# Finite maps

When an insertion into a `Finmap` changes nothing.
-/

namespace Finmap

variable {κ ι : Type} [DecidableEq κ] {m : Finmap fun _ : κ => ι} {a : κ} {b : ι}

theorem insert_eq_self_of_lookup (h : m.lookup a = some b) : m.insert a b = m := by
  apply ext_lookup
  intro x
  by_cases hx : x = a
  · rw [hx, lookup_insert, h]
  · rw [lookup_insert_of_ne _ hx]

end Finmap
