import Mathlib.Data.List.Forall2

/-!
# Imperative programs that can throw

`Imp ε σ α` is a program over a state `σ` that returns an `α` or throws an `ε`. A throw
keeps the state as it was when it happened, so what a caller that catches it sees is what
the program had changed so far. `none` is undefined behaviour: nothing is known about the
result.

`Imp.Triple P m Q E` is partial correctness with two postconditions, one for a normal
return and one for a throw.

## Main definitions

* `Imp ε σ α`, `Imp.focus` — programs, and a program run on a part of the state.
* `Imp.Triple` — pre- and postconditions, with one rule per construct.
* `Imp.Keeps I m` — the invariant form of a triple, for loops.
-/

/-- A program over the state `σ`. -/
def Imp (ε σ α : Type) : Type := σ → Option (Except ε α × σ)

namespace Imp

variable {ε σ τ α β : Type} {body : α → Imp ε σ Unit} {view : σ → Option τ} {put : τ → σ → σ}

protected def pure (a : α) : Imp ε σ α := fun s => some (.ok a, s)

protected def bind (m : Imp ε σ α) (f : α → Imp ε σ β) : Imp ε σ β := fun s =>
  match m s with
  | none => none
  | some (.error e, s') => some (.error e, s')
  | some (.ok a, s') => f a s'

instance : Monad (Imp ε σ) where
  pure := Imp.pure
  bind := Imp.bind

def get : Imp ε σ σ := fun s => some (.ok s, s)

def set (s' : σ) : Imp ε σ Unit := fun _ => some (.ok (), s')

def modify (f : σ → σ) : Imp ε σ Unit := fun s => some (.ok (), f s)

def throw (e : ε) : Imp ε σ α := fun s => some (.error e, s)

/-- Undefined behaviour. -/
def undefined : Imp ε σ α := fun _ => none

/-- Run the handler, which does not look at the exception, when `m` throws. -/
def catchAll (m handler : Imp ε σ Unit) : Imp ε σ Unit := fun s =>
  match m s with
  | some (.error _, s') => handler s'
  | r => r

/-- A value that may be missing; its absence is undefined behaviour. -/
def ofOption (o : Option α) : Imp ε σ α := fun s => o.map fun a => (.ok a, s)

/-- A pure computation that may throw or be undefined. -/
def ofExcept (o : Option (Except ε α)) : Imp ε σ α := fun s => o.map fun r => (r, s)

/-- Run a program on the part of the state that `view` shows. -/
def focus (view : σ → Option τ) (put : τ → σ → σ) (m : Imp ε τ α) : Imp ε σ α := fun s =>
  match view s with
  | none => none
  | some t => (m t).map fun r => (r.1, put r.2 s)

/-- The loop `for x in xs do body x`. -/
def forEach (xs : List α) (body : α → Imp ε σ Unit) : Imp ε σ Unit :=
  match xs with
  | [] => pure ()
  | x :: xs => do
    body x
    forEach xs body

/-! ## Running a program -/

section Run

variable {s : σ} {f : α → Imp ε σ β} {m : Imp ε σ α} {s' : σ} {x : Option (Except ε α × σ)}
  {res : Except ε α} {b : β} {e : ε} {s'' : σ}

@[simp] theorem pure_run (a : α) : (pure a : Imp ε σ α) s = some (.ok a, s) := rfl

@[simp] theorem get_run : (get : Imp ε σ σ) s = some (.ok s, s) := rfl

@[simp] theorem set_run (s' : σ) : (set s' : Imp ε σ Unit) s = some (.ok (), s') := rfl

@[simp] theorem modify_run (f : σ → σ) : (modify f : Imp ε σ Unit) s = some (.ok (), f s) := rfl

@[simp] theorem throw_run (e : ε) : (throw e : Imp ε σ α) s = some (.error e, s) := rfl

@[simp] theorem ofOption_run (o : Option α) :
    (ofOption o : Imp ε σ α) s = o.map fun a => (.ok a, s) := rfl

@[simp] theorem ofExcept_run (o : Option (Except ε α)) :
    (ofExcept o : Imp ε σ α) s = o.map fun r => (r, s) := rfl

theorem ofOption_run_eq_some {o : Option α}
    (h : ofOption o s = some (res, s')) : ∃ a, o = some a ∧ res = .ok a ∧ s' = s := by
  obtain ⟨a, ha, h⟩ := Option.map_eq_some_iff.mp h
  cases h
  exact ⟨a, ha, rfl, rfl⟩

theorem ofExcept_run_eq_some {o : Option (Except ε α)}
    (h : ofExcept o s = some (res, s')) : o = some res ∧ s' = s := by
  obtain ⟨r, hr, h⟩ := Option.map_eq_some_iff.mp h
  cases h
  exact ⟨hr, rfl⟩

/-- The state in which a run returned. -/
def okState? : Option (Except ε α × σ) → Option σ
  | some (.ok _, s) => some s
  | _ => none

theorem bind_okState? {f : σ → Option β}
    (h : (okState? x >>= f) = some b) : ∃ a s, x = some (.ok a, s) ∧ f s = some b := by
  obtain ⟨s, hs, hf⟩ := Option.bind_eq_some_iff.mp h
  rcases x with _ | ⟨_ | a, s'⟩ <;> cases hs
  exact ⟨a, s, rfl, hf⟩

theorem bind_run (m : Imp ε σ α) (f : α → Imp ε σ β) :
    (m >>= f) s = match m s with
      | none => none
      | some (.error e, s') => some (.error e, s')
      | some (.ok a, s') => f a s' := rfl

theorem bind_run_ok {a : α} (h : m s = some (.ok a, s')) : (m >>= f) s = f a s' := by
  rw [bind_run, h]

theorem bind_run_error (h : m s = some (.error e, s')) : (m >>= f) s = some (.error e, s') := by
  rw [bind_run, h]

theorem bind_run_none (h : m s = none) :
    (m >>= f) s = none := by
  rw [bind_run, h]

/-- A sequence that returns ran both of its parts. -/
theorem bind_run_eq_ok_iff : (m >>= f) s = some (.ok b, s'') ↔
      ∃ a s', m s = some (.ok a, s') ∧ f a s' = some (.ok b, s'') := by
  rw [bind_run]
  rcases m s with _ | ⟨_ | a, s'⟩
  · simp
  · simp
  · simp

/-- A sequence ends where its first part throws, or where its second part ends. -/
theorem bind_run_eq_some_iff {res : Except ε β} :
    (m >>= f) s = some (res, s'') ↔ (∃ e, m s = some (.error e, s'') ∧ res = .error e) ∨
        ∃ a s', m s = some (.ok a, s') ∧ f a s' = some (res, s'') := by
  rw [bind_run]
  rcases m s with _ | ⟨e | a, s'⟩
  · simp
  · simp [eq_comm, and_comm]
  · simp

variable {m handler : Imp ε σ Unit} {xs : List α} {body' : α → Imp ε σ Unit}

theorem catchAll_run_ok (h : m s = some (.ok (), s')) :
    catchAll m handler s = some (.ok (), s') := by
  rw [catchAll, h]

theorem catchAll_run_error (h : m s = some (.error e, s')) : catchAll m handler s = handler s' := by
  rw [catchAll, h]

theorem catchAll_run_none (h : m s = none) :
    catchAll m handler s = none := by
  rw [catchAll, h]

@[simp] theorem forEach_nil_run (body : α → Imp ε σ Unit) :
    forEach [] body s = some (.ok (), s) := rfl

theorem forEach_cons (x : α) (xs : List α) (body : α → Imp ε σ Unit) :
    forEach (x :: xs) body = (body x >>= fun _ => forEach xs body) := rfl

theorem forEach_singleton (x : α) (body : α → Imp ε σ Unit) : forEach [x] body = body x := by
  funext s
  rw [forEach_cons, bind_run]
  rcases body x s with _ | ⟨_ | _, _⟩ <;> rfl

/-- Loops whose bodies agree on the elements. -/
theorem forEach_congr (h : ∀ x ∈ xs, body x = body' x) : forEach xs body = forEach xs body' := by
  induction xs with
  | nil => rfl
  | cons x xs ih =>
    rw [forEach_cons, forEach_cons, h x List.mem_cons_self,
      ih fun y hy => h y (List.mem_cons_of_mem _ hy)]

/-- A loop over positions whose body works on the elements there. -/
theorem forEach_range' {body : ℕ → Imp ε σ Unit}
    {start : ℕ} (h : ∀ (i : ℕ) (x : α), xs[i]? = some x → body (start + i) = body' x) :
    forEach (List.range' start xs.length) body = forEach xs body' := by
  induction xs generalizing start with
  | nil => rfl
  | cons x xs ih =>
    rw [List.length_cons, List.range'_succ, forEach_cons, forEach_cons, ih, ← h 0 x rfl,
      Nat.add_zero]
    intro i y hi
    rw [← h (i + 1) y hi, Nat.add_right_comm]
    rfl

theorem forEach_append (xs ys : List α) (body : α → Imp ε σ Unit) :
    forEach (xs ++ ys) body = (forEach xs body >>= fun _ => forEach ys body) := by
  induction xs with
  | nil => rfl
  | cons x xs ih =>
    funext s
    rw [List.cons_append, forEach_cons, forEach_cons, ih]
    simp only [bind_run]
    cases hx : body x s with
    | none => rfl
    | some r =>
      obtain ⟨res, s'⟩ := r
      cases res <;> rfl

theorem forEach_map (xs : List α) (f : α → β) (body : β → Imp ε σ Unit) :
    forEach (xs.map f) body = forEach xs fun x => body (f x) := by
  induction xs with
  | nil => rfl
  | cons x xs ih => rw [List.map_cons, forEach_cons, forEach_cons, ih]

theorem focus_run_eq_some_iff {m : Imp ε τ α} {r : Except ε α} :
    focus view put m s = some (r, s') ↔
      ∃ t t', view s = some t ∧ m t = some (r, t') ∧ put t' s = s' := by
  rw [focus]
  rcases view s with _ | t
  · simp
  · simp [Prod.ext_iff]

end Run

/-! ## Pre- and postconditions -/

/-- From a state with `P`, a normal return leads to `Q` and a throw to `E`. -/
def Triple (P : σ → Prop) (m : Imp ε σ α) (Q : α → σ → Prop) (E : σ → Prop) : Prop :=
  ∀ s, P s → ∀ s', (∀ a, m s = some (.ok a, s') → Q a s') ∧ (∀ e, m s = some (.error e, s') → E s')

namespace Triple

variable {P E : σ → Prop} {Q : α → σ → Prop} {m : Imp ε σ α} {s s' : σ} {a : α}

theorem ok (h : Triple P m Q E) (hs : P s) (hm : m s = some (.ok a, s')) : Q a s' :=
  (h s hs s').1 a hm

theorem error (h : Triple P m Q E) {e : ε} (hs : P s) (hm : m s = some (.error e, s')) : E s' :=
  (h s hs s').2 e hm

theorem pure (h : ∀ s, P s → Q a s) :
    Triple P (pure a : Imp ε σ α) Q E := by
  intro s hs s'
  refine ⟨fun b hb => ?_, nofun⟩
  obtain ⟨rfl, rfl⟩ : a = b ∧ s = s' := by simpa using hb
  exact h s hs

theorem bind {f : α → Imp ε σ β} {R : α → σ → Prop} {Q : β → σ → Prop}
    (hm : Triple P m R E) (hf : ∀ a, Triple (R a) (f a) Q E) : Triple P (m >>= f) Q E := by
  intro s hs s'
  rw [bind_run]
  rcases hms : m s with _ | ⟨e | a, s₁⟩
  · simp
  · have he : E s₁ := hm.error hs hms
    simp only [Option.some.injEq, Prod.mk.injEq, reduceCtorEq, false_and, false_implies,
      implies_true, true_and]
    intro _ heq
    exact heq.2 ▸ he
  · exact hf a s₁ (hm.ok hs hms) s'

theorem modify {Q : Unit → σ → Prop} {f : σ → σ} (h : ∀ s, P s → Q () (f s)) :
    Triple P (modify f : Imp ε σ Unit) Q E := by
  intro s hs s'
  refine ⟨fun b hb => ?_, nofun⟩
  obtain rfl : f s = s' := by simpa using hb
  exact h s hs

end Triple

/-- The program keeps `I`, whether it returns or throws. -/
def Keeps (I : σ → Prop) (m : Imp ε σ α) : Prop := Triple I m (fun _ => I) I

namespace Keeps

variable {I : σ → Prop} {m : Imp ε σ α}

/-- A program keeps what every run of it keeps, whether it returns or throws. -/
theorem of_run (h : ∀ {s res s'}, I s → m s = some (res, s') → I s') :
    Keeps I m := by
  intro s hs s'
  exact ⟨fun a hm => h hs hm, fun e hm => h hs hm⟩

theorem run (h : Keeps I m) {s s' : σ} {res : Except ε α} (hs : I s)
    (hm : m s = some (res, s')) : I s' := by
  cases res with
  | ok a => exact h.ok hs hm
  | error e => exact h.error hs hm

theorem bind {f : α → Imp ε σ β} (hm : Keeps I m) (hf : ∀ a, Keeps I (f a)) : Keeps I (m >>= f) :=
  Triple.bind hm hf

theorem pure (a : α) : Keeps I (pure a : Imp ε σ α) := Triple.pure fun _ h => h

theorem modify {f : σ → σ} (h : ∀ s, I s → I (f s)) : Keeps I (modify f : Imp ε σ Unit) :=
  Triple.modify h

theorem get : Keeps I (get : Imp ε σ σ) := by
  intro s hs s'
  refine ⟨fun b hb => ?_, nofun⟩
  obtain ⟨rfl, rfl⟩ : s = b ∧ s = s' := by simpa using hb
  exact hs

theorem focus {m : Imp ε τ α} (h : ∀ s t, I s → I (put t s)) : Keeps I (focus view put m) := by
  intro s hs s'
  have hput : ∀ r : Except ε α, Imp.focus view put m s = some (r, s') → I s' := by
    intro r hr
    obtain ⟨_, t', _, _, rfl⟩ := focus_run_eq_some_iff.mp hr
    exact h s t' hs
  exact ⟨fun a => hput (.ok a), fun e => hput (.error e)⟩

theorem forEach {xs : List α} (h : ∀ x ∈ xs, Keeps I (body x)) :
    Keeps I (forEach xs body) := by
  induction xs with
  | nil => exact pure ()
  | cons x xs ih =>
    exact bind (h x List.mem_cons_self) fun _ => ih fun y hy => h y (List.mem_cons_of_mem _ hy)

end Keeps

end Imp

theorem List.Forall₂.exists_of_mem_right {α β : Type} {R : α → β → Prop} {xs : List α}
    {ys : List β} (h : List.Forall₂ R xs ys) {y : β} (hy : y ∈ ys) : ∃ x ∈ xs, R x y := by
  induction h with
  | nil => simp at hy
  | @cons x y' xs ys hxy _ ih =>
    rcases List.mem_cons.mp hy with rfl | hy
    · exact ⟨x, List.mem_cons_self .., hxy⟩
    · obtain ⟨x', hx', hR⟩ := ih hy
      exact ⟨x', List.mem_cons_of_mem _ hx', hR⟩

/-- Lists related by the equality of two functions of their elements. -/
theorem List.Forall₂.map_eq_map {α β γ : Type} {f : α → γ} {g : β → γ} {xs : List α}
    {ys : List β} (h : List.Forall₂ (fun x y => f x = g y) xs ys) : xs.map f = ys.map g := by
  induction h with
  | nil => rfl
  | cons hxy _ ih => rw [List.map_cons, List.map_cons, hxy, ih]

/-- What each step of a loop keeps, the whole loop keeps. -/
theorem Option.invariant_foldlM {α σ : Type} {f : σ → α → Option σ} {P : σ → Prop}
    (hf : ∀ s x s', P s → f s x = some s' → P s') {xs : List α} {s s' : σ} (hs : P s)
    (h : xs.foldlM f s = some s') : P s' := by
  induction xs generalizing s with
  | nil =>
    cases h
    exact hs
  | cons x xs ih =>
    rw [List.foldlM_cons] at h
    obtain ⟨mid, hmid, h⟩ := Option.bind_eq_some_iff.mp h
    exact ih (hf s x mid hs hmid) h

/-! ## Computations that only throw -/

namespace Except

variable {ε α β : Type} {f : α → Except ε β}

@[simp] theorem pure_eq_ok (a : α) : (pure a : Except ε α) = .ok a := rfl

@[simp] theorem ok_bind (a : α) : (ok a >>= f) = f a := rfl

@[simp] theorem error_bind (e : ε) : (error e >>= f) = error e := rfl

theorem bind_eq_ok_iff {x : Except ε α} {b : β} :
    (x >>= f) = .ok b ↔ ∃ a, x = .ok a ∧ f a = .ok b := by
  cases x with
  | error e => simp
  | ok a => simp

/-- A list of computations succeeds if each of them does. -/
theorem mapM_eq_ok_iff {xs : List α} {ys : List β} :
    xs.mapM f = .ok ys ↔ List.Forall₂ (fun x y => f x = .ok y) xs ys := by
  induction xs generalizing ys with
  | nil => simp [eq_comm]
  | cons x xs ih =>
    rw [List.mapM_cons, List.forall₂_cons_left_iff]
    simp only [bind_eq_ok_iff, ih]
    constructor
    · rintro ⟨y, hy, ys', hys', h⟩
      cases h
      exact ⟨y, ys', hy, hys', rfl⟩
    · rintro ⟨y, ys', hy, hys', rfl⟩
      exact ⟨y, hy, ys', hys', rfl⟩

end Except
