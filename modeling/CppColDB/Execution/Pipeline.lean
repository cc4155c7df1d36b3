import Mathlib.Order.Filter.AtTopBot.Basic

/-!
# The pipeline executor

A pipeline feeds the chunks of a source through a chain of operators into a sink. The
executor is compared with the composition of the operators: every chunk an operator emits goes
through the operators after it, and an operator that asks to be called again is called again.

The executor only looks at the number of rows of a chunk, so rows are of any type. An operator
is an object with its state; the chunk of a call holds rows, and a chunk without rows is no
chunk to the executor.
-/

namespace CppColDB

open Filter List Option

inductive OperatorResultType where
  | finished | haveMoreOutput | needMoreInput
  deriving DecidableEq, Repr

/-- The virtual calls on an operator: the result, the rows of the output chunk and the operator
afterwards. -/
structure Operators (α σ : Type) where
  execute : σ → List α → OperatorResultType × List α × σ
  /-- `Execute` when the output chunk, just reset, is also the input chunk. -/
  executeInPlace : σ → OperatorResultType × List α × σ
  tryFlush : σ → OperatorResultType × List α × σ

/-- What `GetData` returns: some chunks, and at last a chunk with `FINISHED`. -/
structure ChunkSource (α : Type) where
  chunks : List (List α) := []
  last : List α := []

namespace ChunkSource

variable {α : Type}

/-- The chunks that enter the pipeline. An empty last chunk does not. -/
def all (src : ChunkSource α) : List (List α) :=
  src.chunks ++ if src.last = [] then [] else [src.last]

end ChunkSource

namespace Operators

variable {α σ : Type} (O : Operators α σ)

/-! ## The executor -/

/-- The operators after a part of the execution, the chunks the sink has consumed and whether
`Execute` has returned. -/
structure Progress (α σ : Type) where
  stages : List σ
  sink : List (List α) := []
  stopped : Bool := false

/-- The sink only gets chunks with rows. -/
def consume (rows : List α) : List (List α) := if rows = [] then [] else [rows]

/-- The operators after one that needs more input: each is called once, whatever it returns. -/
def chain : List σ → List α → List σ × List α
  | [], rows => ([], rows)
  | s :: rest, rows =>
    let (_, out, s) := O.execute s rows
    let (rest, rows) := chain rest out
    (s :: rest, rows)

/-- The inner loop at the last operator, which is called until it has no more output. -/
def lastLoop (call : σ → OperatorResultType × List α × σ) :
    ℕ → σ → Option (Progress α σ)
  | 0, _ => none
  | fuel + 1, s =>
    match call s with
    | (.finished, out, s) => some { stages := [s], sink := consume out, stopped := true }
    | (.needMoreInput, out, s) => some { stages := [s], sink := consume out }
    | (.haveMoreOutput, out, s) => do
      let r ← lastLoop call fuel s
      pure { r with sink := consume out ++ r.sink }

/-- The call of an operator on the source chunk, or on the shared output chunk. -/
def callOn (input : Option (List α)) (s : σ) : OperatorResultType × List α × σ :=
  match input with
  | some rows => O.execute s rows
  | none => O.executeInPlace s

/-- The operator loop on one source chunk. An operator with more output hands the output
chunk to the next operator, which resets it before it reads it. -/
def processChunk (fuel : ℕ) : List σ → Option (List α) → Option (Progress α σ)
  | [], input => some { stages := [], sink := consume (input.getD []) }
  | [s], input => lastLoop (O.callOn input) fuel s
  | s :: rest@(_ :: _), input =>
    match O.callOn input s with
    | (.finished, out, s) => some { stages := s :: rest, sink := consume out, stopped := true }
    | (.needMoreInput, out, s) =>
      if out = [] then some { stages := s :: rest }
      else
        let (rest, rows) := O.chain rest out
        some { stages := s :: rest, sink := consume rows }
    | (.haveMoreOutput, _, s) => do
      let r ← processChunk fuel rest none
      pure { r with stages := s :: r.stages }

/-- The main loop over the chunks of the source. -/
def processChunks (fuel : ℕ) : List σ → List (List α) → Option (Progress α σ)
  | stages, [] => some { stages }
  | stages, c :: cs => do
    let r ← O.processChunk fuel stages (some c)
    if r.stopped then pure r
    else do
      let r' ← processChunks fuel r.stages cs
      pure { r' with sink := r.sink ++ r'.sink }

/-- The operators after the first one behind a flush: they share one chunk, which each of them
resets before it reads it. -/
def flushShared : List σ → List α → List σ × List α × Bool
  | [], rows => ([], rows, false)
  | s :: rest, _ =>
    match O.executeInPlace s with
    | (.finished, out, s) => (s :: rest, out, true)
    | (_, out, s) =>
      let (rest, rows, done) := flushShared rest out
      (s :: rest, rows, done)

/-- A flushed chunk goes through the later operators. -/
def flushDown : List σ → List α → List σ × List α × Bool
  | [], rows => ([], rows, false)
  | s :: rest, rows =>
    match O.execute s rows with
    | (.finished, out, s) => (s :: rest, out, true)
    | (_, out, s) =>
      let (rest, rows, done) := O.flushShared rest out
      (s :: rest, rows, done)

/-- The flush loop of one operator, with the operators after it. -/
def flushStage : ℕ → σ → List σ → Option (Progress α σ)
  | 0, _, _ => none
  | fuel + 1, s, rest =>
    let (res, out, s) := O.tryFlush s
    let (rest, rows, done) := if out = [] then (rest, [], false) else O.flushDown rest out
    if done then some { stages := rest, stopped := true }
    else if res = .finished then some { stages := rest, sink := consume rows }
    else do
      let r ← flushStage fuel s rest
      pure { r with sink := consume rows ++ r.sink }

/-- Flush the first `n` of the operators in their order. -/
def tryFlushOperators (fuel : ℕ) : ℕ → List σ → Option (List (List α))
  | n + 1, s :: rest => do
    let r ← O.flushStage fuel s rest
    if r.stopped then pure r.sink
    else do
      let sink ← tryFlushOperators fuel n r.stages
      pure (r.sink ++ sink)
  | _, _ => some []

/-- `PipelineExecutor::Execute`: the chunks that the sink consumes. -/
def run (fuel : ℕ) (stages : List σ) (src : ChunkSource α) : Option (List (List α)) := do
  let r ← O.processChunks fuel stages src.all
  if r.stopped then pure r.sink
  else do
    let sink ← O.tryFlushOperators fuel r.stages.length r.stages
    pure (r.sink ++ sink)

/-! ## Composition of the operators -/

/-- The operators after a part of the composition, the rows that came out of the last one and
whether an operator has finished. -/
structure Composed (α σ : Type) where
  stages : List σ
  rows : List α := []
  stopped : Bool := false

/-- Call an operator on a chunk until it has no more output, and hand every chunk with rows to
the operators after it. -/
def drain (next : List σ → List α → Option (Composed α σ)) :
    ℕ → σ → List σ → List α → Option (Composed α σ)
  | 0, _, _, _ => none
  | fuel + 1, s, rest, xs =>
    let (res, out, s) := O.execute s xs
    (if out = [] then some { stages := rest } else next rest out).bind fun r =>
      match res with
      | .finished => some { r with stages := s :: r.stages, stopped := true }
      | .needMoreInput => some { r with stages := s :: r.stages }
      | .haveMoreOutput =>
        if r.stopped then some { r with stages := s :: r.stages }
        else (drain next fuel s r.stages xs).map fun r' => { r' with rows := r.rows ++ r'.rows }

/-- A chunk through the first `n` of the operators. -/
def feed (fuel : ℕ) : ℕ → List σ → List α → Option (Composed α σ)
  | n + 1, s :: rest, xs => O.drain (feed fuel n) fuel s rest xs
  | _, stages, xs => some { stages, rows := xs }

/-- All the chunks through the operators, until one of them finishes. -/
def feedAll (fuel : ℕ) : List σ → List (List α) → Option (Composed α σ)
  | stages, [] => some { stages }
  | stages, c :: cs =>
    (O.feed fuel stages.length stages c).bind fun r =>
      if r.stopped then some r
      else (feedAll fuel r.stages cs).map fun r' => { r' with rows := r.rows ++ r'.rows }

/-- Flush an operator until it has nothing left, through the operators after it. -/
def flushOne (next : List σ → List α → Option (Composed α σ)) :
    ℕ → σ → List σ → Option (Composed α σ)
  | 0, _, _ => none
  | fuel + 1, s, rest =>
    let (res, out, s) := O.tryFlush s
    (if out = [] then some { stages := rest } else next rest out).bind fun r =>
      if r.stopped ∨ res = .finished then some r
      else (flushOne next fuel s r.stages).map fun r' => { r' with rows := r.rows ++ r'.rows }

/-- Flush the first `n` of the operators in their order. -/
def flushAll (fuel : ℕ) : ℕ → List σ → Option (List α)
  | n + 1, s :: rest =>
    (O.flushOne (O.feed fuel n) fuel s rest).bind fun r =>
      if r.stopped then some r.rows else (flushAll fuel n r.stages).map (r.rows ++ ·)
  | _, _ => some []

/-- **The composition of the operators**: the rows of the source fed through all of them, and
then what they have kept back. -/
def compose (fuel : ℕ) (stages : List σ) (src : ChunkSource α) : Option (List α) :=
  (O.feedAll fuel stages src.all).bind fun r =>
    if r.stopped then some r.rows
    else (O.flushAll fuel r.stages.length r.stages).map (r.rows ++ ·)

/-- The executor returns, given fuel enough, and delivers the rows of the composition. -/
def Delivers (stages : List σ) (src : ChunkSource α) : Prop :=
  ∃ rows, ∀ᶠ fuel in atTop, O.compose fuel stages src = some rows ∧
    (O.run fuel stages src).map flatten = some rows

/-! ## The contract of the operators -/

/-- The operator has finitely much output for the input. -/
inductive Ends (xs : List α) : σ → Prop
  | done {s : σ} (h : (O.execute s xs).1 ≠ .haveMoreOutput) : Ends xs s
  | more {s : σ} (hres : (O.execute s xs).1 = .haveMoreOutput)
      (h : Ends xs (O.execute s xs).2.2) : Ends xs s

/-- The operator has finitely much to flush. -/
inductive FlushEnds : σ → Prop
  | done {s : σ} (h : (O.tryFlush s).1 = .finished) : FlushEnds s
  | more {s : σ} (hres : (O.tryFlush s).1 ≠ .finished) (h : FlushEnds (O.tryFlush s).2.2) :
      FlushEnds s

/-- The operators keep the contract of `OperatorResultType`. -/
structure Honours : Prop where
  execute : ∀ s xs, O.Ends xs s
  tryFlush : ∀ s, O.FlushEnds s

/-! ## At most one operator -/

variable {O}

/-- What the sink has consumed, as rows. -/
def Progress.composed (r : Progress α σ) : Composed α σ :=
  { stages := r.stages, rows := r.sink.flatten, stopped := r.stopped }

@[simp] theorem flatten_consume (rows : List α) : (consume rows).flatten = rows := by
  rw [consume]
  split <;> simp_all

variable {fuel : ℕ} {stages : List σ} {xs : List α} {rest : List σ} {cs : List (List α)}
  {r : Composed α σ} {s : σ} {F : ℕ}

theorem lastLoop_eq_drain : (lastLoop (O.callOn (some xs)) fuel s).map Progress.composed =
      O.drain (O.feed F 0) fuel s [] xs := by
  induction fuel generalizing s with
  | zero => rfl
  | succ fuel ih =>
    have hnext : ∀ out : List α, (if out = [] then some { stages := [] } else O.feed F 0 [] out) =
        some ({ stages := [], rows := out } : Composed α σ) := by
      intro out
      split <;> simp_all [feed]
    rw [lastLoop, drain, callOn]
    rcases O.execute s xs with ⟨res, out, s'⟩
    dsimp only
    rw [hnext]
    cases res with
    | finished => simp [Progress.composed]
    | needMoreInput => simp [Progress.composed]
    | haveMoreOutput =>
      simp only [bind_some, ← ih]
      cases lastLoop (O.callOn (some xs)) fuel s' <;> simp [Progress.composed]

/-- With at most one operator the executor does with a chunk what the composition does. -/
theorem processChunk_eq_feed (hone : stages.length ≤ 1) (fuel : ℕ) (xs : List α) :
    (O.processChunk fuel stages (some xs)).map Progress.composed =
      O.feed fuel stages.length stages xs := by
  match stages, hone with
  | [], _ => simp [processChunk, feed, Progress.composed]
  | [s], _ =>
    rw [processChunk]
    exact lastLoop_eq_drain

theorem length_drain {next : List σ → List α → Option (Composed α σ)}
    (hnext : ∀ {stages xs r}, next stages xs = some r → r.stages.length = stages.length)
    (h : O.drain next fuel s rest xs = some r) : r.stages.length = rest.length + 1 := by
  induction fuel generalizing s rest r with
  | zero => cases h
  | succ fuel ih =>
    obtain ⟨r₁, hr₁, h⟩ := bind_eq_some_iff.mp h
    have hlen : r₁.stages.length = rest.length := by
      split at hr₁
      · cases hr₁; rfl
      · exact hnext hr₁
    rcases hres : (O.execute s xs).1 with _ | _ | _ <;> rw [hres] at h
    · cases h
      simp [hlen]
    · dsimp only at h
      split at h
      · cases h; simp [hlen]
      · obtain ⟨r₂, hr₂, rfl⟩ := map_eq_some_iff.mp h
        exact (ih hr₂).trans (by rw [hlen])
    · cases h
      simp [hlen]

theorem length_feed {n : ℕ}
    (h : O.feed fuel n stages xs = some r) : r.stages.length = stages.length := by
  induction n generalizing stages xs r with
  | zero => cases h; rfl
  | succ n ih =>
    cases stages with
    | nil => cases h; rfl
    | cons s rest => exact length_drain ih h

theorem processChunks_eq_feedAll (hone : stages.length ≤ 1) (fuel : ℕ)
    (cs : List (List α)) :
    (O.processChunks fuel stages cs).map Progress.composed = O.feedAll fuel stages cs := by
  induction cs generalizing stages with
  | nil => rfl
  | cons c cs ih =>
    have hfeed := processChunk_eq_feed (O := O) hone fuel c
    rw [processChunks, feedAll, ← hfeed]
    cases hr : O.processChunk fuel stages (some c) with
    | none => rfl
    | some r =>
      have hlen : r.stages.length ≤ 1 := by
        rw [hr] at hfeed
        exact (length_feed hfeed.symm).trans_le hone
      simp only [map_some, bind_some, bind_eq_bind]
      rw [show r.composed.stopped = r.stopped from rfl,
        show r.composed.stages = r.stages from rfl, ← ih hlen]
      split
      · rfl
      · cases O.processChunks fuel r.stages cs <;> simp [Progress.composed]

theorem length_feedAll
    (h : O.feedAll fuel stages cs = some r) : r.stages.length = stages.length := by
  induction cs generalizing stages r with
  | nil => cases h; rfl
  | cons c cs ih =>
    obtain ⟨r₁, hr₁, h⟩ := bind_eq_some_iff.mp h
    split at h
    · cases h
      exact length_feed hr₁
    · obtain ⟨r₂, hr₂, rfl⟩ := map_eq_some_iff.mp h
      exact (ih hr₂).trans (length_feed hr₁)

/-! ## The composition is defined -/

section

variable {n : ℕ}
  (hnext : ∀ (stages : List σ) (xs : List α), ∃ r, ∀ᶠ F in atTop, O.feed F n stages xs = some r)
  {s : σ}

include hnext

theorem exists_next (rest : List σ) (out : List α) : ∃ r, ∀ᶠ F in atTop,
    (if out = [] then some { stages := rest } else O.feed F n rest out) = some r := by
  by_cases hout : out = []
  · exact ⟨{ stages := rest }, .of_forall fun F => if_pos hout⟩
  · obtain ⟨r, hr⟩ := hnext rest out
    exact ⟨r, hr.mono fun F hF => by rw [if_neg hout, hF]⟩

/-- An operator that keeps the contract is called finitely often. -/
theorem exists_drain (hends : O.Ends xs s) (rest : List σ) :
    ∃ r k, ∀ᶠ F in atTop, ∀ fuel ≥ k, O.drain (O.feed F n) fuel s rest xs = some r := by
  induction hends generalizing rest with
  | @done s hres =>
    obtain ⟨r, hr⟩ := exists_next hnext rest (O.execute s xs).2.1
    refine ⟨{ r with stages := (O.execute s xs).2.2 :: r.stages
                     stopped := r.stopped || (O.execute s xs).1 = .finished }, 1, ?_⟩
    filter_upwards [hr] with F hF fuel hfuel
    obtain _ | fuel := fuel
    · omega
    rw [drain]
    dsimp only
    rw [hF]
    rcases hcode : (O.execute s xs).1 with _ | _ | _
    · simp
    · exact absurd hcode hres
    · simp
  | @more s hres _ ih =>
    obtain ⟨r, hr⟩ := exists_next hnext rest (O.execute s xs).2.1
    obtain ⟨r', k, hr'⟩ := ih r.stages
    cases hstop : r.stopped with
    | true =>
      refine ⟨{ r with stages := (O.execute s xs).2.2 :: r.stages }, 1, ?_⟩
      filter_upwards [hr] with F hF fuel hfuel
      obtain _ | fuel := fuel
      · omega
      rw [drain]
      dsimp only
      rw [hF, hres]
      simp [hstop]
    | false =>
      refine ⟨{ r' with rows := r.rows ++ r'.rows }, k + 1, ?_⟩
      filter_upwards [hr, hr'] with F hF hF' fuel hfuel
      obtain _ | fuel := fuel
      · omega
      rw [drain]
      dsimp only
      rw [hF, hres]
      simp [hstop, hF' fuel (by omega)]

end

theorem exists_feed (h : O.Honours) (n : ℕ) (stages : List σ) (xs : List α) :
    ∃ r, ∀ᶠ fuel in atTop, O.feed fuel n stages xs = some r := by
  induction n generalizing stages xs with
  | zero => exact ⟨_, .of_forall fun _ => rfl⟩
  | succ n ih =>
    cases stages with
    | nil => exact ⟨_, .of_forall fun _ => rfl⟩
    | cons s rest =>
      obtain ⟨r, k, hr⟩ := exists_drain ih (h.execute s xs) rest
      refine ⟨r, ?_⟩
      filter_upwards [hr, eventually_ge_atTop k] with fuel hF hk
      exact hF fuel hk

theorem exists_feedAll (h : O.Honours) (stages : List σ) (cs : List (List α)) :
    ∃ r, ∀ᶠ fuel in atTop, O.feedAll fuel stages cs = some r := by
  induction cs generalizing stages with
  | nil => exact ⟨_, .of_forall fun _ => rfl⟩
  | cons c cs ih =>
    obtain ⟨r, hr⟩ := exists_feed h stages.length stages c
    obtain ⟨r', hr'⟩ := ih r.stages
    cases hstop : r.stopped with
    | true =>
      refine ⟨r, hr.mono fun fuel hfuel => ?_⟩
      rw [feedAll, hfuel, bind_some, if_pos hstop]
    | false =>
      refine ⟨{ r' with rows := r.rows ++ r'.rows }, ?_⟩
      filter_upwards [hr, hr'] with fuel hfuel hfuel'
      rw [feedAll, hfuel, bind_some, if_neg (by simp [hstop]), hfuel', map_some]

/-! ## Flushing -/

variable (O)

/-- What becomes of a flushed chunk behind the operator. -/
def flushed (rest : List σ) (out : List α) : List σ × List α × Bool :=
  if out = [] then (rest, [], false) else O.flushDown rest out

/-- The operator ignores a call on the chunk that it resets. -/
def IgnoresReset (s : σ) : Prop :=
  (O.executeInPlace s).1 ≠ .finished ∧ (O.executeInPlace s).2 = ([], s)

/-- The next operator takes a flushed chunk in one call. What it emits reaches the sink if it is
the last one; the later ones are called on a chunk that they reset. The output of an operator
that finishes is dropped. -/
def TakesFlushed : List σ → List α → Prop
  | [], _ => True
  | s :: rest, out =>
    match O.execute s out with
    | (.finished, out, _) => out = []
    | (.needMoreInput, out, _) => rest = [] ∨ out = [] ∧ ∀ t ∈ rest, O.IgnoresReset t
    | (.haveMoreOutput, _, _) => False

/-- The flush loop of an operator whose chunks are taken, with the operators behind it
afterwards; none if one of them finishes. -/
inductive FlushesOne : σ → List σ → Option (List σ) → Prop
  | stop {s : σ} {rest : List σ}
      (h : (O.tryFlush s).2.1 ≠ [] → O.TakesFlushed rest (O.tryFlush s).2.1)
      (hstop : (O.flushed rest (O.tryFlush s).2.1).2.2 = true) : FlushesOne s rest none
  | done {s : σ} {rest : List σ}
      (h : (O.tryFlush s).2.1 ≠ [] → O.TakesFlushed rest (O.tryFlush s).2.1)
      (hstop : (O.flushed rest (O.tryFlush s).2.1).2.2 = false)
      (hres : (O.tryFlush s).1 = .finished) :
      FlushesOne s rest (some (O.flushed rest (O.tryFlush s).2.1).1)
  | more {s : σ} {rest : List σ} {o : Option (List σ)}
      (h : (O.tryFlush s).2.1 ≠ [] → O.TakesFlushed rest (O.tryFlush s).2.1)
      (hstop : (O.flushed rest (O.tryFlush s).2.1).2.2 = false)
      (hres : (O.tryFlush s).1 ≠ .finished)
      (hmore : FlushesOne (O.tryFlush s).2.2 (O.flushed rest (O.tryFlush s).2.1).1 o) :
      FlushesOne s rest o

/-- The operators are flushed one after the other, until one of them finishes. -/
inductive Flushes : List σ → Prop
  | nil : Flushes []
  | stop {s : σ} {rest : List σ} (h : O.FlushesOne s rest none) : Flushes (s :: rest)
  | next {s : σ} {rest rest' : List σ} (h : O.FlushesOne s rest (some rest'))
      (hnext : Flushes rest') : Flushes (s :: rest)

variable {O} {out : List α}

theorem flushStage_succ : O.flushStage (fuel + 1) s rest =
    (let (rest, rows, done) := O.flushed rest (O.tryFlush s).2.1
    if done then some { stages := rest, stopped := true }
    else if (O.tryFlush s).1 = .finished then some { stages := rest, sink := consume rows }
    else do
      let r ← O.flushStage fuel (O.tryFlush s).2.2 rest
      pure { r with sink := consume rows ++ r.sink }) := rfl

theorem flushShared_of_ignoresReset (h : ∀ t ∈ rest, O.IgnoresReset t) :
    O.flushShared rest [] = (rest, [], false) := by
  induction rest with
  | nil => rfl
  | cons t rest ih =>
    obtain ⟨⟨hres, hcall⟩, hrest⟩ := forall_mem_cons.mp h
    rw [flushShared]
    rcases hexec : O.executeInPlace t with ⟨_ | _ | _, out, t'⟩
    · simp [hexec] at hres
    all_goals
      obtain ⟨rfl, rfl⟩ : out = [] ∧ t' = t := by simpa [hexec] using hcall
      simp [ih hrest]

/-- **A flushed chunk** that is taken goes the way of the composition. -/
theorem next_eq_flushed (h : out ≠ [] → O.TakesFlushed rest out) (hF : 1 ≤ F) :
    (if out = [] then some { stages := rest } else O.feed F rest.length rest out) =
      some { stages := (O.flushed rest out).1, rows := (O.flushed rest out).2.1
             stopped := (O.flushed rest out).2.2 } := by
  by_cases hout : out = []
  · simp [flushed, hout]
  obtain ⟨F, rfl⟩ : ∃ k, F = k + 1 := ⟨F - 1, by omega⟩
  have htakes := h hout
  rw [if_neg hout, flushed, if_neg hout]
  cases rest with
  | nil => rfl
  | cons t rest =>
    rw [TakesFlushed] at htakes
    rcases hexec : O.execute t out with ⟨_ | _ | _, out', t'⟩ <;> simp only [hexec] at htakes
    · simp [feed, drain, flushDown, hexec, htakes]
    · rcases htakes with rfl | ⟨rfl, hrest⟩
      · by_cases hout' : out' = [] <;>
          simp [feed, drain, flushDown, flushShared, hexec, hout']
      · simp [feed, drain, flushDown, hexec, flushShared_of_ignoresReset hrest]

theorem length_flushed (h : out ≠ [] → O.TakesFlushed rest out) :
    (O.flushed rest out).1.length = rest.length := by
  have hnext := next_eq_flushed h (le_refl 1)
  split at hnext
  · rw [← (Composed.mk.inj (some.inj hnext)).1]
  · exact length_feed hnext

theorem flushed_of_stopped (h : out ≠ [] → O.TakesFlushed rest out)
    (hstop : (O.flushed rest out).2.2 = true) : (O.flushed rest out).2.1 = [] := by
  by_cases hout : out = []
  · simp [flushed, hout]
  have htakes := h hout
  rw [flushed, if_neg hout] at hstop ⊢
  cases rest with
  | nil => cases hstop
  | cons t rest =>
    rw [TakesFlushed] at htakes
    rcases hexec : O.execute t out with ⟨_ | _ | _, out', t'⟩ <;> simp only [hexec] at htakes
    · simp [flushDown, hexec, htakes]
    · rcases htakes with rfl | ⟨rfl, hrest⟩
      · simp [flushDown, flushShared, hexec] at hstop
      · simp [flushDown, hexec, flushShared_of_ignoresReset hrest]

/-- **The flush loop** of an operator is that of the composition. -/
theorem FlushesOne.exists_run {o : Option (List σ)} (h : O.FlushesOne s rest o) :
    ∃ (k : ℕ) (r : Progress α σ), (∀ fuel ≥ k, O.flushStage fuel s rest = some r ∧
        ∀ F ≥ 1, O.flushOne (O.feed F rest.length) fuel s rest = some r.composed) ∧
      r.stopped = o.isNone ∧ ∀ rest' ∈ o, r.stages = rest' ∧ rest'.length = rest.length := by
  induction h with
  | @stop s rest h hstop =>
    have hrows := flushed_of_stopped h hstop
    refine ⟨1, { stages := (O.flushed rest (O.tryFlush s).2.1).1, stopped := true },
      fun fuel hfuel => ?_, rfl, nofun⟩
    obtain ⟨fuel, rfl⟩ : ∃ k, fuel = k + 1 := ⟨fuel - 1, by omega⟩
    refine ⟨by simp [flushStage_succ, hstop], fun F hF => ?_⟩
    rw [flushOne]
    dsimp only
    rw [next_eq_flushed h hF]
    simp [hstop, hrows, Progress.composed]
  | @done s rest h hstop hres =>
    refine ⟨1, { stages := (O.flushed rest (O.tryFlush s).2.1).1
                 sink := consume (O.flushed rest (O.tryFlush s).2.1).2.1 },
      fun fuel hfuel => ?_, rfl, ?_⟩
    · obtain ⟨fuel, rfl⟩ : ∃ k, fuel = k + 1 := ⟨fuel - 1, by omega⟩
      refine ⟨by simp [flushStage_succ, hstop, hres], fun F hF => ?_⟩
      rw [flushOne]
      dsimp only
      rw [next_eq_flushed h hF]
      simp [hstop, hres, Progress.composed]
    · rintro _ ⟨⟩
      exact ⟨rfl, length_flushed h⟩
  | @more s rest o h hstop hres _ ih =>
    obtain ⟨k, r, hrun, hstopped, hstages⟩ := ih
    have hlen := length_flushed h
    refine ⟨k + 1, { r with sink := consume (O.flushed rest (O.tryFlush s).2.1).2.1 ++ r.sink },
      fun fuel hfuel => ?_, hstopped, fun rest' hrest' => ?_⟩
    · obtain ⟨fuel, rfl⟩ : ∃ k, fuel = k + 1 := ⟨fuel - 1, by omega⟩
      obtain ⟨hstage, hone⟩ := hrun fuel (by omega)
      refine ⟨by simp [flushStage_succ, hstop, hres, hstage], fun F hF => ?_⟩
      have hone := hone F hF
      rw [hlen] at hone
      rw [flushOne]
      dsimp only
      rw [next_eq_flushed h hF]
      simp [hstop, hres, hone, Progress.composed]
    · obtain ⟨hr, hlen'⟩ := hstages rest' hrest'
      exact ⟨hr, hlen'.trans hlen⟩

/-- **Flushing** delivers what the composition flushes. -/
theorem Flushes.exists_run (h : O.Flushes stages) : ∃ sink : List (List α), ∀ᶠ fuel in atTop,
    O.tryFlushOperators fuel stages.length stages = some sink ∧
      O.flushAll fuel stages.length stages = some sink.flatten := by
  induction h with
  | nil => exact ⟨[], .of_forall fun _ => ⟨rfl, rfl⟩⟩
  | stop h =>
    obtain ⟨k, r, hrun, hstop, -⟩ := h.exists_run
    refine ⟨r.sink, ?_⟩
    filter_upwards [eventually_ge_atTop (k + 1)] with fuel hfuel
    obtain ⟨hstage, hone⟩ := hrun fuel (by omega)
    rw [length_cons, tryFlushOperators, flushAll, hstage, hone fuel (by omega)]
    simp [hstop, Progress.composed]
  | next h _ ih =>
    obtain ⟨k, r, hrun, hstop, hstages⟩ := h.exists_run
    obtain ⟨hr, hlen⟩ := hstages _ rfl
    obtain ⟨sink, hsink⟩ := ih
    refine ⟨r.sink ++ sink, ?_⟩
    filter_upwards [hsink, eventually_ge_atTop (k + 1)] with fuel hsink hfuel
    obtain ⟨hstage, hone⟩ := hrun fuel (by omega)
    rw [hlen] at hsink
    rw [length_cons, tryFlushOperators, flushAll, hstage, hone fuel (by omega)]
    simp [hstop, hr, hsink.1, hsink.2, Progress.composed]

/-- An operator with nothing behind it is flushed as it is. -/
theorem flushesOne_nil (h : O.FlushEnds s) : O.FlushesOne s [] (some []) := by
  have hend : ∀ out, O.flushed [] out = ([], out, false) := by
    intro out
    by_cases hout : out = [] <;> simp [flushed, flushDown, hout]
  induction h with
  | @done s hres =>
    have hdone := @FlushesOne.done _ _ O s [] (fun _ => trivial) (by rw [hend]) hres
    rwa [hend] at hdone
  | @more s hres _ ih =>
    refine .more (fun _ => trivial) (by rw [hend]) hres ?_
    rwa [hend]

theorem delivers_of_length_le_one (hc : O.Honours) (hone : stages.length ≤ 1)
    (src : ChunkSource α) : O.Delivers stages src := by
  obtain ⟨r', hr'⟩ := exists_feedAll hc stages src.all
  have hflushes : O.Flushes r'.stages := by
    obtain ⟨fuel, hfuel⟩ := hr'.exists
    have hlen := (length_feedAll hfuel).trans_le hone
    match r'.stages, hlen with
    | [], _ => exact .nil
    | [s], _ => exact .next (flushesOne_nil (hc.tryFlush s)) .nil
  obtain ⟨sink, hsink⟩ := hflushes.exists_run
  refine ⟨if r'.stopped then r'.rows else r'.rows ++ sink.flatten, ?_⟩
  filter_upwards [hr', hsink] with fuel hfeed hsink
  have hproc := processChunks_eq_feedAll (O := O) hone fuel src.all
  rw [hfeed] at hproc
  obtain ⟨r, hr, rfl⟩ := map_eq_some_iff.mp hproc
  change O.tryFlushOperators fuel r.stages.length r.stages = _ ∧
    O.flushAll fuel r.stages.length r.stages = _ at hsink
  cases hstop : r.stopped <;>
    simp [compose, run, hfeed, hr, hsink.1, hsink.2, Progress.composed, hstop]

/-! ## Longer chains -/

variable (O)

/-- Each operator takes the chunk in one call, and may finish at it. An operator that is handed
an empty chunk ignores it. -/
def TakesInOneCall : List σ → List α → Prop
  | [], _ => True
  | s :: rest, xs =>
    if xs = [] then (O.execute s []).2 = ([], s) ∧ TakesInOneCall rest []
    else (O.execute s xs).1 ≠ .haveMoreOutput ∧ TakesInOneCall rest (O.execute s xs).2.1

/-- One of the operators finishes at this chunk. -/
def finishes : List σ → List α → Bool
  | [], _ => false
  | s :: rest, xs =>
    if xs = [] then false
    else (O.execute s xs).1 = .finished || finishes rest (O.execute s xs).2.1

/-- Nothing comes out of the chain any more. -/
def Silent : List (List α) → List σ → Prop
  | _, [] => True
  | [], stages => ∀ᶠ fuel in atTop, O.tryFlushOperators fuel stages.length stages = some []
  | c :: cs, s :: rest =>
    match O.execute s c with
    | (.finished, out, _) => out = []
    | (.needMoreInput, out, s) =>
      if out = [] then Silent cs (s :: rest)
      else (O.chain rest out).2 = [] ∧ Silent cs (s :: (O.chain rest out).1)
    | (.haveMoreOutput, _, _) => False

/-- **The chains the executor is made for**: the first operator never has more output and
finishes only without output; every later one takes each chunk in one call; when one of them
has finished nothing comes out any more; and what is flushed at the end is taken. -/
def Plain : List (List α) → List σ → Prop
  | _, [] => True
  | [], stages => O.Flushes stages
  | c :: cs, s :: rest =>
    match O.execute s c with
    | (.finished, out, _) => out = []
    | (.needMoreInput, out, s) =>
      if out = [] then Plain cs (s :: rest)
      else O.TakesInOneCall rest out ∧
        if O.finishes rest out then O.Silent cs (s :: (O.chain rest out).1)
        else Plain cs (s :: (O.chain rest out).1)
    | (.haveMoreOutput, _, _) => False

variable {O} {s s' : σ} {k : ℕ}

theorem length_chain :
    (O.chain stages xs).1.length = stages.length := by
  induction stages generalizing xs with
  | nil => rfl
  | cons s rest ih => simp [chain, ih]

/-- Operators that ignore an empty chunk stay as they are. -/
theorem TakesInOneCall.chain_nil (h : O.TakesInOneCall stages []) :
    O.chain stages [] = (stages, []) := by
  induction stages with
  | nil => rfl
  | cons s rest ih =>
    obtain ⟨hignored, hrest⟩ := h
    simp [chain, hignored, ih hrest]

/-- One call of each operator is all the composition does with the chunk. -/
theorem TakesInOneCall.feed_eq (hfuel : 1 ≤ fuel) (h : O.TakesInOneCall stages xs) (hne : xs ≠ []) :
    O.feed fuel stages.length stages xs =
      some { stages := (O.chain stages xs).1, rows := (O.chain stages xs).2
             stopped := O.finishes stages xs } := by
  obtain _ | fuel := fuel
  · omega
  induction stages generalizing xs with
  | nil => rfl
  | cons s rest ih =>
    rw [TakesInOneCall, if_neg hne] at h
    obtain ⟨hres, hrest⟩ := h
    rw [length_cons, feed, drain, chain, finishes, if_neg hne]
    dsimp only
    have hout : (if (O.execute s xs).2.1 = [] then some { stages := rest }
        else O.feed (fuel + 1) rest.length rest (O.execute s xs).2.1) =
        some { stages := (O.chain rest (O.execute s xs).2.1).1
               rows := (O.chain rest (O.execute s xs).2.1).2
               stopped := O.finishes rest (O.execute s xs).2.1 } := by
      split
      next hempty =>
        rw [hempty] at hrest ⊢
        rw [hrest.chain_nil]
        cases rest <;> simp [finishes]
      next hempty => exact ih hrest hempty
    rw [hout]
    rcases hcode : (O.execute s xs).1 with _ | _ | _
    · simp
    · exact absurd hcode hres
    · simp

/-- The operator loop on a chunk that the first operator takes in one call. -/
theorem processChunk_of_needMoreInput {out : List α} (hrest : rest ≠ [])
    (h : O.execute s xs = (.needMoreInput, out, s')) :
    O.processChunk fuel (s :: rest) (some xs) = some (if out = [] then { stages := s' :: rest }
        else { stages := s' :: (O.chain rest out).1, sink := consume (O.chain rest out).2 }) := by
  cases rest with
  | nil => exact absurd rfl hrest
  | cons t rest =>
    rw [processChunk, callOn]
    simp only [h]
    split <;> rfl

/-- The operator loop on a chunk at which the first operator finishes without output. -/
theorem processChunk_of_finished (hrest : rest ≠ []) (h : O.execute s xs = (.finished, [], s')) :
    O.processChunk fuel (s :: rest) (some xs) = some { stages := s' :: rest, stopped := true } := by
  cases rest with
  | nil => exact absurd rfl hrest
  | cons t rest =>
    rw [processChunk, callOn]
    simp [h, consume]

/-- A silent chain delivers nothing. -/
theorem Silent.processChunks_eq (hrest : rest ≠ []) (h : O.Silent cs (s :: rest)) :
    ∃ r : Progress α σ, (∀ fuel, O.processChunks fuel (s :: rest) cs = some r) ∧
      r.sink.flatten = [] ∧ (r.stopped = true ∨
        ∀ᶠ fuel in atTop, O.tryFlushOperators fuel r.stages.length r.stages = some []) := by
  induction cs generalizing s rest with
  | nil => exact ⟨{ stages := s :: rest }, fun _ => rfl, rfl, .inr h⟩
  | cons c cs ih =>
    rw [Silent] at h
    rcases hexec : O.execute s c with ⟨_ | _ | _, out, s'⟩
    · simp only [hexec] at h
      subst h
      simp [processChunks, processChunk_of_finished hrest hexec]
    · simp only [hexec] at h
    · simp only [hexec] at h
      by_cases hout : out = []
      · rw [if_pos hout] at h
        obtain ⟨r, hr, hsink, hend⟩ := ih hrest h
        refine ⟨r, fun fuel => ?_, hsink, hend⟩
        simp [processChunks, processChunk_of_needMoreInput hrest hexec, hout, hr]
      · rw [if_neg hout] at h
        have hne : (O.chain rest out).1 ≠ [] := by
          rw [← length_pos_iff, length_chain, length_pos_iff]
          exact hrest
        obtain ⟨r, hr, hsink, hend⟩ := ih hne h.2
        refine ⟨r, fun fuel => ?_, hsink, hend⟩
        simp [processChunks, processChunk_of_needMoreInput hrest hexec, hout, hr, h.1, consume]

/-- How the executor and the composition end on a plain chain: both stop, or the composition
alone stops and the executor goes on in silence, or both reach the end of the source. -/
inductive SameEnd (O : Operators α σ) (r : Progress α σ) (r' : Composed α σ) : Prop
  | stopped (h : r.stopped = true) (h' : r'.stopped = true)
  | silent (h : r.stopped = false) (h' : r'.stopped = true)
      (hflush : ∀ᶠ fuel in atTop, O.tryFlushOperators fuel r.stages.length r.stages = some [])
  | reached (h : r.stopped = false) (h' : r'.stopped = false) (hstages : r'.stages = r.stages)
      (hflush : O.Flushes r.stages)

/-- The first operator takes the chunk in one call, and the others what it emits. -/
theorem TakesInOneCall.feed_cons {s s' : σ} {c out : List α} (h : O.TakesInOneCall rest out)
    (hfuel : 1 ≤ fuel) (hexec : O.execute s c = (.needMoreInput, out, s')) (hout : out ≠ []) :
    O.feed fuel (s :: rest).length (s :: rest) c =
      some { stages := s' :: (O.chain rest out).1, rows := (O.chain rest out).2
             stopped := O.finishes rest out } := by
  have htail := h.feed_eq hfuel hout
  obtain _ | fuel := fuel
  · omega
  simp [feed, drain, hexec, hout, htail]

/-- On a plain chain the executor delivers the rows of the composition. -/
theorem Plain.processChunks_eq (hrest : rest ≠ []) (h : O.Plain cs (s :: rest)) :
    ∃ (r : Progress α σ) (r' : Composed α σ), (∀ fuel ≥ 1,
      O.processChunks fuel (s :: rest) cs = some r ∧ O.feedAll fuel (s :: rest) cs = some r') ∧
      r'.rows = r.sink.flatten ∧ SameEnd O r r' := by
  induction cs generalizing s rest with
  | nil =>
    exact ⟨{ stages := s :: rest }, { stages := s :: rest }, fun _ _ => ⟨rfl, rfl⟩, rfl,
      .reached rfl rfl rfl h⟩
  | cons c cs ih =>
    rw [Plain] at h
    rcases hexec : O.execute s c with ⟨_ | _ | _, out, s'⟩
    · simp only [hexec] at h
      subst h
      refine ⟨{ stages := s' :: rest, stopped := true }, { stages := s' :: rest, stopped := true },
        fun fuel hfuel => ⟨?_, ?_⟩, rfl, .stopped rfl rfl⟩
      · simp [processChunks, processChunk_of_finished hrest hexec]
      · obtain _ | fuel := fuel
        · omega
        simp [feedAll, feed, drain, hexec]
    · simp only [hexec] at h
    · simp only [hexec] at h
      by_cases hout : out = []
      · rw [if_pos hout] at h
        obtain ⟨r, r', hr, hrows, hend⟩ := ih hrest h
        refine ⟨r, r', fun fuel hfuel => ⟨?_, ?_⟩, hrows, hend⟩
        · simp [processChunks, processChunk_of_needMoreInput hrest hexec, hout, hr fuel hfuel]
        · obtain _ | fuel := fuel
          · omega
          simp [feedAll, feed, drain, hexec, hout, (hr _ hfuel).2]
      · rw [if_neg hout] at h
        obtain ⟨htakes, h⟩ := h
        have hne : (O.chain rest out).1 ≠ [] := by
          rw [← length_pos_iff, length_chain, length_pos_iff]
          exact hrest
        have hfeed := fun fuel (hfuel : 1 ≤ fuel) => htakes.feed_cons hfuel hexec hout
        cases hlast : O.finishes rest out with
        | true =>
          rw [if_pos hlast] at h
          obtain ⟨r, hr, hsink, hend⟩ := h.processChunks_eq hne
          refine ⟨{ r with sink := consume (O.chain rest out).2 ++ r.sink },
            { stages := s' :: (O.chain rest out).1, rows := (O.chain rest out).2
              stopped := true }, fun fuel hfuel => ⟨?_, ?_⟩, by simp [hsink], ?_⟩
          · simp [processChunks, processChunk_of_needMoreInput hrest hexec, hout, hr]
          · rw [feedAll, hfeed fuel hfuel, hlast, bind_some, if_pos rfl]
          · cases hstop : r.stopped with
            | true => exact .stopped rfl rfl
            | false => exact .silent rfl rfl (hend.resolve_left (by simp [hstop]))
        | false =>
          rw [if_neg (by simp [hlast])] at h
          obtain ⟨r, r', hr, hrows, hend⟩ := ih hne h
          refine ⟨{ r with sink := consume (O.chain rest out).2 ++ r.sink },
            { r' with rows := (O.chain rest out).2 ++ r'.rows },
            fun fuel hfuel => ⟨?_, ?_⟩, by simp [hrows], ?_⟩
          · simp [processChunks, processChunk_of_needMoreInput hrest hexec, hout, hr fuel hfuel]
          · rw [feedAll, hfeed fuel hfuel, hlast, bind_some, if_neg (by simp),
              (hr fuel hfuel).2, map_some]
          · cases hend with
            | stopped h h' => exact .stopped h h'
            | silent h h' hflush => exact .silent h h' hflush
            | reached h h' hstages hflush => exact .reached h h' hstages hflush

theorem delivers_of_plain (hc : O.Honours) {src : ChunkSource α}
    (h : O.Plain src.all stages) : O.Delivers stages src := by
  match stages with
  | [] => exact delivers_of_length_le_one hc (Nat.zero_le _) src
  | [s] => exact delivers_of_length_le_one hc le_rfl src
  | s :: t :: rest =>
    obtain ⟨r, r', hr, hrows, hend⟩ := h.processChunks_eq (cons_ne_nil t rest)
    cases hend with
    | stopped hstop hstop' =>
      refine ⟨r'.rows, (eventually_ge_atTop 1).mono fun fuel hfuel => ?_⟩
      obtain ⟨hproc, hfeed⟩ := hr fuel hfuel
      simp [compose, run, hproc, hfeed, hstop, hstop', hrows]
    | silent hstop hstop' hflush =>
      refine ⟨r'.rows, ?_⟩
      filter_upwards [hflush, eventually_ge_atTop 1] with fuel hflush hfuel
      obtain ⟨hproc, hfeed⟩ := hr fuel hfuel
      simp [compose, run, hproc, hfeed, hstop', hrows, hflush]
    | reached hstop hstop' hstages hflush =>
      obtain ⟨sink, hsink⟩ := hflush.exists_run
      refine ⟨r'.rows ++ sink.flatten, ?_⟩
      filter_upwards [hsink, eventually_ge_atTop 1] with fuel hsink hfuel
      obtain ⟨hproc, hfeed⟩ := hr fuel hfuel
      simp [compose, run, hproc, hfeed, hstop, hstop', hrows, hstages, hsink.1, hsink.2]

/-! ## Chains that lose rows -/

/-- Three operators: one emits every chunk twice, in two calls, one passes chunks on, and one
keeps the rows back until it is flushed. -/
inductive Sample where
  | twice (again : Bool)
  | pass
  | keep (rows : List ℕ)
  deriving DecidableEq, Repr

/-- Their calls. On the shared chunk, which is empty when they read it, they emit nothing. -/
def samples : Operators ℕ Sample where
  execute
    | .twice false, xs => (.haveMoreOutput, xs, .twice true)
    | .twice true, xs => (.needMoreInput, xs, .twice false)
    | .pass, xs => (.needMoreInput, xs, .pass)
    | .keep rows, xs => (.needMoreInput, [], .keep (rows ++ xs))
  executeInPlace
    | .twice false => (.haveMoreOutput, [], .twice true)
    | .twice true => (.needMoreInput, [], .twice false)
    | .pass => (.needMoreInput, [], .pass)
    | .keep rows => (.needMoreInput, [], .keep rows)
  tryFlush
    | .keep rows => (.finished, rows, .keep [])
    | s => (.finished, [], s)

theorem honours_samples : samples.Honours where
  execute s xs := by
    match s with
    | .pass | .keep _ => exact .done (by simp [samples])
    | .twice true => exact .done (by simp [samples])
    | .twice false => exact .more rfl (.done (by simp [samples]))
  tryFlush s := .done (by cases s <;> rfl)

theorem takesInOneCall_pass (k : ℕ) (xs : List ℕ) : samples.TakesInOneCall (replicate k .pass) xs ∧
      samples.chain (replicate k .pass) xs = (replicate k .pass, xs) ∧
      samples.finishes (replicate k .pass) xs = false := by
  induction k with
  | zero => exact ⟨trivial, rfl, rfl⟩
  | succ k ih =>
    obtain ⟨htakes, hchain, hfinishes⟩ := ih
    refine ⟨?_, ?_, ?_⟩
    · by_cases hxs : xs = []
      · subst hxs
        simpa [replicate_succ, TakesInOneCall, samples] using htakes
      · simpa [replicate_succ, TakesInOneCall, samples, hxs] using htakes
    · simp [replicate_succ, chain, samples] at hchain ⊢
      simp [hchain]
    · by_cases hxs : xs = []
      · simp [replicate_succ, finishes, hxs]
      · simpa [replicate_succ, finishes, samples] using fun _ => hfinishes

/-- Without an operator that keeps rows back there is nothing to flush. -/
theorem flush_twice (hfuel : 1 ≤ fuel) (b : Bool) (k : ℕ) :
    samples.tryFlushOperators fuel (k + 1) (.twice b :: replicate k .pass) = some [] ∧
      samples.flushAll fuel (k + 1) (.twice b :: replicate k .pass) = some [] := by
  obtain ⟨fuel, rfl⟩ : ∃ j, fuel = j + 1 := ⟨fuel - 1, by omega⟩
  have hpass : ∀ k, samples.tryFlushOperators (fuel + 1) k (replicate k .pass) = some [] ∧
      samples.flushAll (fuel + 1) k (replicate k .pass) = some [] := by
    intro k
    induction k with
    | zero => exact ⟨rfl, rfl⟩
    | succ k ih =>
      simp [samples, replicate_succ, tryFlushOperators, flushAll, flushStage, flushOne, consume] at ih ⊢
      simp [ih]
  have hpass := hpass k
  simp [samples, tryFlushOperators, flushAll, flushStage, flushOne, consume] at hpass ⊢
  simp [hpass]

/-- Behind an operator with more output the composition has the chunk twice. -/
theorem compose_twice (hfuel : 2 ≤ fuel) :
    samples.compose fuel (.twice false :: replicate k .pass) { last := [7, 8] } =
      some [7, 8, 7, 8] := by
  obtain ⟨htakes, hchain, hfinishes⟩ := takesInOneCall_pass k [7, 8]
  have hpass := htakes.feed_eq (by omega : 1 ≤ fuel) (by simp)
  rw [length_replicate, hchain, hfinishes] at hpass
  have hflush := (flush_twice (by omega : 1 ≤ fuel) false k).2
  obtain ⟨fuel, rfl⟩ : ∃ j, fuel = j + 2 := ⟨fuel - 2, by omega⟩
  have hfeed : samples.feed (fuel + 2) (k + 1) (.twice false :: replicate k .pass) [7, 8] =
      some { stages := .twice false :: replicate k .pass, rows := [7, 8, 7, 8] } := by
    rw [feed]
    simp only [samples] at hpass ⊢
    simp [hpass, drain]
  simp [compose, ChunkSource.all, feedAll, hfeed, hflush]

/-- The executor hands the chunk on by the buffer that the next operator resets. -/
theorem run_twice (hfuel : 1 ≤ fuel) :
    samples.run fuel (.twice false :: replicate (k + 1) .pass) { last := [7, 8] } =
      some [] := by
  have hnext : samples.processChunk fuel (replicate (k + 1) .pass) none =
      some { stages := replicate (k + 1) .pass } := by
    obtain _ | fuel := fuel
    · omega
    cases k with
    | zero => simp [processChunk, lastLoop, callOn, samples, consume]
    | succ k => simp [replicate_succ, processChunk, callOn, samples]
  have hchunk : samples.processChunk fuel (.twice false :: replicate (k + 1) .pass)
      (some [7, 8]) = some { stages := .twice true :: replicate (k + 1) .pass } := by
    rw [replicate_succ] at hnext ⊢
    rw [processChunk]
    simp [callOn, samples] at hnext ⊢
    simp [hnext]
  have hflush := (flush_twice hfuel true (k + 1)).1
  simp [run, ChunkSource.all, processChunks, hchunk, hflush]

theorem not_delivers_twice (k : ℕ) :
    ¬ samples.Delivers (.twice false :: replicate (k + 1) .pass) { last := [7, 8] } := by
  rintro ⟨rows, hrows⟩
  obtain ⟨fuel, ⟨hcompose, hrun⟩, hfuel⟩ := (hrows.and (eventually_ge_atTop 2)).exists
  rw [compose_twice hfuel] at hcompose
  rw [run_twice (by omega)] at hrun
  simp [← hrun] at hcompose

/-- **The executor and the composition of the operators.** The executor delivers the rows of
the composition for every chain of at most one operator and for every plain chain. From two
operators on, operators that keep the contract are not enough. -/
theorem executor_delivers (n : ℕ) :
    (∀ (α σ : Type) (O : Operators α σ), O.Honours → ∀ (stages : List σ) (src : ChunkSource α),
      stages.length ≤ 1 ∨ O.Plain src.all stages → O.Delivers stages src) ∧
    ((∀ (α σ : Type) (O : Operators α σ), O.Honours →
      ∀ (stages : List σ) (src : ChunkSource α), stages.length = n → O.Delivers stages src) ↔
        n ≤ 1) := by
  refine ⟨fun α σ O hc stages src h => ?_, fun h => ?_, fun hn α σ O hc stages src hlen =>
    delivers_of_length_le_one hc (hlen.trans_le hn) src⟩
  · rcases h with hone | hplain
    · exact delivers_of_length_le_one hc hone src
    · exact delivers_of_plain hc hplain
  · by_contra hn
    obtain ⟨k, rfl⟩ : ∃ k, n = k + 2 := ⟨n - 2, by omega⟩
    exact not_delivers_twice k (h ℕ Sample samples honours_samples _ _ (by simp))

/-- Rows that are kept back and flushed through one more operator are delivered. -/
theorem kept_rows_delivered : samples.Plain [[7, 8], [9]] [.keep [], .pass] ∧
      samples.Delivers [.keep [], .pass] { chunks := [[7, 8]], last := [9] } := by
  have hpass : samples.FlushesOne .pass [] (some []) := flushesOne_nil (honours_samples.tryFlush _)
  have hkeep : samples.FlushesOne (.keep [7, 8, 9]) [.pass] (some [.pass]) :=
    .done (fun _ => .inl rfl) rfl rfl
  have hplain : samples.Plain [[7, 8], [9]] [.keep [], .pass] := .next hkeep (.next hpass .nil)
  exact ⟨hplain, (executor_delivers 2).1 _ _ _ honours_samples _ _ (.inr hplain)⟩

/-- An operator that emits the chunk 7, 8 twice, in front of one that passes chunks on: no row
reaches the sink. -/
theorem twice_chain_loses_rows :
    samples.Honours ∧ samples.compose 2 [.twice false, .pass] { last := [7, 8] } =
        some [7, 8, 7, 8] ∧
      samples.run 2 [.twice false, .pass] { last := [7, 8] } = some [] ∧
      ¬ samples.Delivers [.twice false, .pass] { last := [7, 8] } :=
  ⟨honours_samples, compose_twice (k := 1) le_rfl, run_twice (k := 0) (by omega),
    not_delivers_twice 0⟩

end Operators

end CppColDB
