import Mathlib.Data.List.Forall2

/-!
# Computations that can throw

`Fallible ε α` is a computation without a state that returns an `α` or throws an `ε`.
`none` is undefined behaviour.
-/

theorem List.Forall₂.exists_of_getElem?_left {α β : Type} {R : α → β → Prop} {xs : List α}
    {ys : List β} (h : List.Forall₂ R xs ys) {i : ℕ} {x : α} (hx : xs[i]? = some x) :
    ∃ y, ys[i]? = some y ∧ R x y := by
  induction h generalizing i with
  | nil => cases hx
  | cons hxy _ ih =>
    cases i with
    | zero =>
      cases hx
      exact ⟨_, rfl, hxy⟩
    | succ i => exact ih hx

theorem List.eq_length_of_range_eq_append {n i : ℕ} {seen rest : List ℕ}
    (h : List.range n = seen ++ i :: rest) : i = seen.length ∧ seen.length < n := by
  have hlt : seen.length < n := by
    have hlen := congrArg List.length h
    simp at hlen
    omega
  have hget := congrArg (·[seen.length]?) h
  simp [hlt] at hget
  exact ⟨hget.symm, hlt⟩

/-- The outcome of a computation. -/
def Fallible (ε α : Type) : Type := Option (Except ε α)

namespace Fallible

variable {ε α β γ : Type} {xs : List α} {f : α → Fallible ε (List β)} {R : α → β → Prop}
  {out : List β} {res : Except ε Unit} {x : Fallible ε α} {ys : List β} {a : α} {s : β}

protected def pure (a : α) : Fallible ε α := some (.ok a)

protected def bind (x : Fallible ε α) (f : α → Fallible ε β) : Fallible ε β :=
  match x with
  | none => none
  | some (.error e) => some (.error e)
  | some (.ok a) => f a

instance : Monad (Fallible ε) where
  pure := Fallible.pure
  bind := Fallible.bind

def throw (e : ε) : Fallible ε α := some (.error e)

/-- A value that may be missing; its absence is undefined behaviour. -/
def ofOption (o : Option α) : Fallible ε α := o.map .ok

/-- `f` on one element after the other. -/
def traverse (f : α → Fallible ε β) : List α → Fallible ε (List β)
  | [] => pure []
  | x :: xs => do
    let y ← f x
    let ys ← traverse f xs
    pure (y :: ys)

/-- A loop over a list that updates a state. -/
def foldl (f : β → α → Fallible ε β) : β → List α → Fallible ε β
  | s, [] => pure s
  | s, x :: xs => do
    let s ← f s x
    foldl f s xs

theorem pure_eq_ok_iff {b : α} : (pure a : Fallible ε α) = some (.ok b) ↔ a = b :=
  ⟨fun h => Except.ok.inj (Option.some.inj h), fun h => h ▸ rfl⟩

theorem bind_eq_ok_iff {f : α → Fallible ε β} {b : β} :
    x >>= f = some (.ok b) ↔ ∃ a, x = some (.ok a) ∧ f a = some (.ok b) := by
  constructor
  · intro h
    match x, h with
    | some (.ok a), h => exact ⟨a, rfl, h⟩
  · rintro ⟨a, rfl, h⟩
    exact h

theorem bind_of_ok {f : α → Fallible ε β} (h : x = some (.ok a)) :
    x >>= f = f a := by
  rw [h]
  rfl

theorem ofOption_eq_ok_iff {o : Option α} :
    (ofOption o : Fallible ε α) = some (.ok a) ↔ o = some a := by
  cases o with
  | none => exact ⟨fun h => (by cases h), fun h => (by cases h)⟩
  | some b => exact ⟨fun h => (by cases h; rfl), fun h => (by cases h; rfl)⟩

theorem traverse_eq_ok_iff {f : α → Fallible ε β} :
    traverse f xs = some (.ok ys) ↔ List.Forall₂ (fun x y => f x = some (.ok y)) xs ys := by
  induction xs generalizing ys with
  | nil =>
    rw [traverse, pure_eq_ok_iff, List.forall₂_nil_left_iff]
    exact eq_comm
  | cons x xs ih =>
    rw [traverse, bind_eq_ok_iff]
    constructor
    · rintro ⟨y, hy, h⟩
      obtain ⟨ys', hys, h⟩ := bind_eq_ok_iff.mp h
      obtain rfl := pure_eq_ok_iff.mp h
      exact .cons hy (ih.mp hys)
    · intro h
      cases h with
      | cons hy hys => exact ⟨_, hy, bind_eq_ok_iff.mpr ⟨_, ih.mpr hys, rfl⟩⟩

/-- A list of results exists where every element has one. -/
theorem exists_forall₂_iff :
    (∃ ys, List.Forall₂ R xs ys) ↔ ∀ x ∈ xs, ∃ y, R x y := by
  constructor
  · rintro ⟨ys, h⟩
    induction h with
    | nil => simp
    | cons hxy _ ih => exact List.forall_mem_cons.mpr ⟨⟨_, hxy⟩, ih⟩
  · intro h
    induction xs with
    | nil => exact ⟨[], .nil⟩
    | cons x xs ih =>
      obtain ⟨⟨y, hy⟩, hxs⟩ := List.forall_mem_cons.mp h
      obtain ⟨ys, hys⟩ := ih hxs
      exact ⟨y :: ys, .cons hy hys⟩

theorem foldl_cons {f : β → α → Fallible ε β} {x : α} :
    foldl f s (x :: xs) = f s x >>= fun s => foldl f s xs := rfl

/-- **The loop rule**: an invariant of the elements seen so far. -/
theorem foldl_induction {f : β → α → Fallible ε β} (I : List α → β → Prop)
    (hs : I [] s) (hstep : ∀ seen x rest s, xs = seen ++ x :: rest → I seen s →
      ∃ s', f s x = some (.ok s') ∧ I (seen ++ [x]) s') :
    ∃ s', foldl f s xs = some (.ok s') ∧ I xs s' := by
  have hloop : ∀ rest seen s, xs = seen ++ rest → I seen s →
      ∃ s', foldl f s rest = some (.ok s') ∧ I xs s' := by
    intro rest
    induction rest with
    | nil =>
      intro seen s hxs hseen
      rw [List.append_nil] at hxs
      exact ⟨s, rfl, hxs ▸ hseen⟩
    | cons x rest ih =>
      intro seen s hxs hseen
      obtain ⟨s', hs', hseen'⟩ := hstep seen x rest s hxs hseen
      obtain ⟨t, ht, hI⟩ := ih (seen ++ [x]) s' (by rw [hxs]; simp) hseen'
      exact ⟨t, by rw [foldl_cons, bind_of_ok hs', ht], hI⟩
  exact hloop xs [] s rfl hs

/-- What every step of a loop keeps holds at its end. -/
theorem invariant_foldl {f : β → α → Fallible ε β} {I : β → Prop} {s' : β}
    (hstep : ∀ s x s', I s → f s x = some (.ok s') → I s') (hs : I s)
    (hrun : foldl f s xs = some (.ok s')) : I s' := by
  induction xs generalizing s with
  | nil => exact pure_eq_ok_iff.mp hrun ▸ hs
  | cons x xs ih =>
    obtain ⟨t, ht, hrun⟩ := bind_eq_ok_iff.mp hrun
    exact ih (hstep s x t hs ht) hrun

/-! ## Results gathered until a computation throws -/

/-- `f` on one element after the other, with the results of those before the first that
throws. -/
def gather (f : α → Fallible ε (List β)) : List α → Option (Except ε Unit × List β)
  | [] => some (.ok (), [])
  | x :: xs =>
    match f x with
    | none => none
    | some (.error e) => some (.error e, [])
    | some (.ok ys) => (gather f xs).map fun out => (out.1, ys ++ out.2)

theorem gather_congr {g : α → Fallible ε (List β)} (h : ∀ x ∈ xs, f x = g x) :
    gather f xs = gather g xs := by
  induction xs with
  | nil => rfl
  | cons x xs ih =>
    obtain ⟨hx, hxs⟩ := List.forall_mem_cons.mp h
    rw [gather, gather, hx, ih hxs]

theorem gather_append {ys : List α} : gather f (xs ++ ys) =
      match gather f xs with
      | none => none
      | some (.error e, out) => some (.error e, out)
      | some (.ok _, out) => (gather f ys).map fun out' => (out'.1, out ++ out'.2) := by
  induction xs with
  | nil =>
    rw [gather]
    simp
  | cons x xs ih =>
    rw [List.cons_append, gather, gather]
    match f x with
    | none => rfl
    | some (.error e) => rfl
    | some (.ok out) =>
      simp only [ih]
      cases gather f xs with
      | none => rfl
      | some first =>
        obtain ⟨_ | _, out'⟩ := first
        · rfl
        · simp [Function.comp_def]

theorem exists_of_mem_gather (h : gather f xs = some (res, out)) {y : β} (hy : y ∈ out) :
    ∃ x ∈ xs, ∃ ys, f x = some (.ok ys) ∧ y ∈ ys := by
  induction xs generalizing out with
  | nil =>
    cases h
    cases hy
  | cons x xs ih =>
    rw [gather] at h
    match hx : f x, h with
    | some (.error e), h =>
      cases h
      cases hy
    | some (.ok ys), h =>
      obtain ⟨⟨res', out'⟩, hout, h⟩ := Option.map_eq_some_iff.mp h
      cases h
      rcases List.mem_append.mp hy with hy | hy
      · exact ⟨x, List.mem_cons_self, ys, hx, hy⟩
      · obtain ⟨x', hx', found⟩ := ih hout hy
        exact ⟨x', List.mem_cons_of_mem _ hx', found⟩

/-- What is gathered from elements with disjoint results has no repetitions. -/
theorem nodup_gather (hxs : xs.Pairwise fun x x' => ∀ y, R x y → ¬ R x' y)
    (hf : ∀ x ys, f x = some (.ok ys) → ys.Nodup ∧ ∀ y ∈ ys, R x y)
    (h : gather f xs = some (res, out)) : out.Nodup := by
  induction xs generalizing out with
  | nil =>
    cases h
    exact List.nodup_nil
  | cons x xs ih =>
    obtain ⟨hfirst, hxs⟩ := List.pairwise_cons.mp hxs
    rw [gather] at h
    match hx : f x, h with
    | some (.error e), h =>
      cases h
      exact List.nodup_nil
    | some (.ok ys), h =>
      obtain ⟨⟨res', out'⟩, hout, h⟩ := Option.map_eq_some_iff.mp h
      cases h
      obtain ⟨hys, hR⟩ := hf x ys hx
      refine List.nodup_append.mpr ⟨hys, ih hxs hout, ?_⟩
      rintro y hy _ hy' rfl
      obtain ⟨x', hx', ys', hfx', hmem⟩ := exists_of_mem_gather hout hy'
      exact hfirst x' hx' y (hR y hy) ((hf x' ys' hfx').2 y hmem)

/-- A gathering in which nothing throws has the results of all elements. -/
theorem exists_gather_eq_ok (h : ∀ x ∈ xs, ∃ ys, f x = some (.ok ys)) :
    ∃ out, gather f xs = some (.ok (), out) ∧
      ∀ y, y ∈ out ↔ ∃ x ∈ xs, ∃ ys, f x = some (.ok ys) ∧ y ∈ ys := by
  induction xs with
  | nil => exact ⟨[], rfl, by simp⟩
  | cons x xs ih =>
    obtain ⟨⟨ys, hx⟩, hxs⟩ := List.forall_mem_cons.mp h
    obtain ⟨out, hrest, hmem⟩ := ih hxs
    refine ⟨ys ++ out, by rw [gather, hx, hrest]; rfl, fun y => ?_⟩
    rw [List.mem_append, hmem, List.exists_mem_cons_iff]
    refine or_congr_left ⟨fun hy => ⟨ys, hx, hy⟩, fun ⟨ys', hx', hy⟩ => ?_⟩
    rwa [Except.ok.inj (Option.some.inj (hx.symm.trans hx'))]

/-! ## Two computations side by side -/

theorem traverse_congr {f : α → Fallible ε γ} {g : β → Fallible ε γ} (h : List.Forall₂ R xs ys)
    (hfg : ∀ x y, R x y → f x = g y) :
    traverse f xs = traverse g ys := by
  induction h with
  | nil => rfl
  | cons hxy _ ih => rw [traverse, traverse, hfg _ _ hxy, ih]

/-- Both computations end in the same way, with related values. -/
inductive Lift (R : α → β → Prop) : Fallible ε α → Fallible ε β → Prop
  | none : Lift R none none
  | error (e : ε) : Lift R (some (.error e)) (some (.error e))
  | ok {a : α} {b : β} (h : R a b) : Lift R (some (.ok a)) (some (.ok b))

namespace Lift

variable {δ : Type} {R : α → β → Prop} {S : γ → δ → Prop} {f : α → Fallible ε γ}
  {g : β → Fallible ε δ} {x y : Fallible ε α} {xs : List α} {ys : List β}

theorem of_eq (h : x = y) : Lift Eq x y := by
  subst h
  match x with
  | some (.ok _) => exact .ok rfl
  | some (.error e) => exact .error e
  | .none => exact .none

theorem eq (h : Lift Eq x y) : x = y := by
  cases h with
  | ok h => rw [h]
  | error => rfl
  | none => rfl

theorem ofOption {x : Option α} {y : Option β} (h : Option.Rel R x y) :
    Lift R (Fallible.ofOption x : Fallible ε α) (Fallible.ofOption y) := by
  cases h with
  | some h => exact .ok h
  | none => exact .none

theorem bind {y : Fallible ε β} (h : Lift R x y)
    (hfg : ∀ a b, R a b → Lift S (f a) (g b)) :
    Lift S (x >>= f) (y >>= g) := by
  cases h with
  | ok h => exact hfg _ _ h
  | error e => exact .error e
  | none => exact .none

theorem traverse (h : List.Forall₂ R xs ys) (hfg : ∀ x y, R x y → Lift S (f x) (g y)) :
    Lift (List.Forall₂ S) (Fallible.traverse f xs) (Fallible.traverse g ys) := by
  induction h with
  | nil => exact .ok .nil
  | cons hxy _ ih =>
    exact (hfg _ _ hxy).bind fun a b hab => ih.bind fun as bs habs => .ok (.cons hab habs)

theorem foldl {f : γ → α → Fallible ε γ} {g : δ → β → Fallible ε δ}
    (h : List.Forall₂ R xs ys) (hfg : ∀ s t x y, S s t → R x y → Lift S (f s x) (g t y)) {s : γ}
    {t : δ} (hst : S s t) : Lift S (Fallible.foldl f s xs) (Fallible.foldl g t ys) := by
  induction h generalizing s t with
  | nil => exact .ok hst
  | cons hxy _ ih => exact (hfg _ _ _ _ hst hxy).bind fun _ _ hst => ih hst

end Lift

end Fallible
