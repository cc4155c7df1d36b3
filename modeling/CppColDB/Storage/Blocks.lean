import Mathlib.Data.List.Nodup

/-!
# Who owns a block

Block ids come from a counter of the `BufferManager`, which starts at zero in every session,
while the `BlockFile` keeps its length across sessions. A checkpoint takes block 0 for the
catalog: it allocates a block if the file is empty, and pins block 0 otherwise, whoever has
it. The machine follows the ids of all segments over any number of sessions; the contents of
the blocks other than the first do not matter here.
-/

namespace CppColDB

open List Nat

/-- The file length and the counter of the buffer manager. -/
structure BlockManager where
  blockCount : ℕ := 0
  nextBlockId : ℕ := 0
  deriving DecidableEq, Repr

/-- `AllocateBlock`: the file grows by one block, and the id is the value of the counter. -/
def BlockManager.allocateBlock (bm : BlockManager) : ℕ × BlockManager :=
  (bm.nextBlockId, { blockCount := bm.blockCount + 1, nextBlockId := bm.nextBlockId + 1 })

/-- The buffer manager of a new session on the same file. -/
def BlockManager.reopen (bm : BlockManager) : BlockManager := { blockCount := bm.blockCount }

/-- The tables of a catalog and the segments of their columns, each with its block. -/
structure Ownership (τ : Type) where
  live : List τ := []
  segments : List (τ × ℕ) := []
  deriving DecidableEq, Repr

/-- The part of it that a checkpoint writes. -/
def Ownership.image {τ : Type} [DecidableEq τ] (o : Ownership τ) : Ownership τ :=
  { o with segments := o.segments.filter fun seg => decide (seg.1 ∈ o.live) }

/-- What block 0 of the file holds. A block that was allocated and not yet written is blank. -/
inductive FirstBlock (τ : Type) where
  | absent
  | blank
  | segment
  | catalog (image : Ownership τ)
  deriving DecidableEq, Repr

/-- The database as far as blocks are concerned. -/
structure BlockState (τ : Type) extends Ownership τ where
  bm : BlockManager := {}
  first : FirstBlock τ := .absent
  deriving DecidableEq, Repr

inductive BlockAct (τ : Type) where
  | create (table : τ)
  | drop (table : τ)
  /-- `ColumnChunk::Flush` of a column of the table. -/
  | flush (table : τ)
  /-- The checkpoint takes its block. -/
  | pinCatalog
  /-- The checkpoint writes the catalog. -/
  | writeCatalog
  /-- The end of a session, whether it closes or crashes, and the next open. -/
  | reopen
  deriving DecidableEq, Repr

namespace BlockState

variable {τ : Type} [DecidableEq τ] {s s' : BlockState τ} {a : BlockAct τ}

/-- The blocks that the segments of live tables have. -/
def liveBlocks (s : BlockState τ) : List ℕ :=
  (s.segments.filter fun seg => decide (seg.1 ∈ s.live)).map Prod.snd

/-- The ids that a step gets from `AllocateBlock`. -/
def allocated (s : BlockState τ) : BlockAct τ → List ℕ
  | .flush _ => [s.bm.allocateBlock.1]
  | .pinCatalog => if s.bm.blockCount = 0 then [s.bm.allocateBlock.1] else []
  | _ => []

/-- One step. `Deserialize` of a block with other contents than a catalog is undefined; a
block of zeros is a catalog without schemas. -/
def step (s : BlockState τ) : BlockAct τ → Option (BlockState τ)
  | .create table => some { s with live := table :: s.live }
  | .drop table => some { s with live := s.live.filter fun t => decide (t ≠ table) }
  | .flush table =>
    let (id, bm) := s.bm.allocateBlock
    some { s with
      bm, segments := (table, id) :: s.segments
      first := if id = 0 then .segment else s.first }
  | .pinCatalog =>
    if s.bm.blockCount = 0 then some { s with bm := s.bm.allocateBlock.2, first := .blank }
    else some s
  | .writeCatalog =>
    if s.bm.blockCount = 0 then none
    else some { s with first := .catalog s.toOwnership.image }
  | .reopen =>
    match s.first with
    | .absent | .blank => some { first := s.first, bm := s.bm.reopen }
    | .segment => none
    | .catalog image => some { image with first := s.first, bm := s.bm.reopen }

/-- A run of sessions on a new file, each of its steps meeting the condition. -/
inductive Run (C : BlockState τ → BlockAct τ → Prop) : BlockState τ → Prop
  | init : Run C {}
  | step {s s' : BlockState τ} {a : BlockAct τ} (h : Run C s) (hcond : C s a)
      (hstep : s.step a = some s') : Run C s'

/-- The blocks of live segments are distinct, and none of them is that of the catalog. -/
def Owned (s : BlockState τ) : Prop := s.liveBlocks.Nodup ∧ 0 ∉ s.liveBlocks

/-- What `AllocateBlock` returns holds no live data: neither a live segment nor the catalog. -/
def Fresh (s : BlockState τ) (id : ℕ) : Prop :=
  id ∉ s.liveBlocks ∧ ∀ image, s.first = .catalog image → id ≠ 0

/-- A column is only flushed in the session that created the file, once a checkpoint has
taken block 0. -/
def FlushesAfterCheckpoint (s : BlockState τ) : BlockAct τ → Prop
  | .flush _ => s.bm.nextBlockId = s.bm.blockCount ∧ 0 < s.bm.blockCount
  | _ => True

/-! ## The invariant -/

end BlockState

/-- All segments have blocks of their own in the file, none of them block 0. -/
structure Ownership.Sound {τ : Type} (o : Ownership τ) (blockCount : ℕ) : Prop where
  nodup : (o.segments.map Prod.snd).Nodup
  pos : ∀ seg ∈ o.segments, 0 < seg.2
  lt : ∀ seg ∈ o.segments, seg.2 < blockCount

namespace Ownership.Sound

variable {τ : Type} {o : Ownership τ} {n : ℕ}

theorem empty (n : ℕ) : ({} : Ownership τ).Sound n :=
  ⟨nodup_nil, fun _ h => absurd h not_mem_nil, fun _ h => absurd h not_mem_nil⟩

theorem image [DecidableEq τ] (h : o.Sound n) : o.image.Sound n where
  nodup := h.nodup.sublist (filter_sublist.map _)
  pos seg hseg := h.pos seg (mem_filter.mp hseg).1
  lt seg hseg := h.lt seg (mem_filter.mp hseg).1

/-- The tables do not matter. -/
theorem withLive (h : o.Sound n) (live : List τ) : ({ o with live } : Ownership τ).Sound n :=
  ⟨h.nodup, h.pos, h.lt⟩

theorem mono (h : o.Sound n) {m : ℕ} (hnm : n ≤ m) : o.Sound m :=
  ⟨h.nodup, h.pos, fun seg hseg => Nat.lt_of_lt_of_le (h.lt seg hseg) hnm⟩

/-- A new segment in the block after the last one. -/
theorem cons (h : o.Sound n) (hn : 0 < n) (table : τ) :
    ({ o with segments := (table, n) :: o.segments } : Ownership τ).Sound (n + 1) where
  nodup := by
    refine nodup_cons.mpr ⟨fun hmem => ?_, h.nodup⟩
    obtain ⟨seg, hseg, heq⟩ := mem_map.mp hmem
    exact absurd (h.lt seg hseg) (by omega)
  pos := forall_mem_cons.mpr ⟨hn, h.pos⟩
  lt := forall_mem_cons.mpr ⟨lt_succ_self n, fun seg hseg =>
    lt_succ_of_lt (h.lt seg hseg)⟩

end Ownership.Sound

namespace BlockState

variable {τ : Type} [DecidableEq τ] {s s' : BlockState τ} {a : BlockAct τ} {id : ℕ}

/-- The segments of this session and those of the image are sound, and the counter is the
length of the file, or has not been used since the file was opened. -/
structure Sound (s : BlockState τ) : Prop where
  session : s.toOwnership.Sound s.bm.blockCount
  image : ∀ image, s.first = .catalog image → image.Sound s.bm.blockCount ∧ 0 < s.bm.blockCount
  counter : s.bm.nextBlockId = s.bm.blockCount ∨ s.bm.nextBlockId = 0

omit [DecidableEq τ] in
theorem Sound.init : ({} : BlockState τ).Sound := ⟨.empty 0, fun _ h => (by cases h), .inl rfl⟩

/-- **One step** keeps the invariant. -/
theorem Sound.step (h : s.Sound) (hcond : s.FlushesAfterCheckpoint a)
    (hstep : s.step a = some s') : s'.Sound := by
  cases a with
  | create table | drop table =>
    cases hstep
    exact ⟨h.session.withLive _, h.image, h.counter⟩
  | flush table =>
    cases hstep
    obtain ⟨hnext, hpos⟩ := hcond
    rw [hnext]
    refine ⟨h.session.cons hpos table, fun image hfirst => ?_, .inl rfl⟩
    rw [if_neg (Nat.ne_of_gt hpos)] at hfirst
    exact ⟨(h.image image hfirst).1.mono (le_succ _), succ_pos _⟩
  | pinCatalog =>
    rw [BlockState.step] at hstep
    split at hstep
    next hzero =>
      cases hstep
      refine ⟨h.session.mono (le_succ _), fun _ hfirst => (by cases hfirst), ?_⟩
      have hcounter := h.counter
      change s.bm.nextBlockId + 1 = s.bm.blockCount + 1 ∨ s.bm.nextBlockId + 1 = 0
      omega
    next =>
      cases hstep
      exact h
  | writeCatalog =>
    rw [BlockState.step] at hstep
    split at hstep
    next => cases hstep
    next hne =>
      cases hstep
      refine ⟨h.session, fun image hfirst => ?_, h.counter⟩
      obtain rfl := FirstBlock.catalog.inj hfirst
      exact ⟨h.session.image, Nat.pos_of_ne_zero hne⟩
  | reopen =>
    rw [BlockState.step] at hstep
    split at hstep
    next =>
      cases hstep
      exact ⟨.empty _, h.image, .inr rfl⟩
    next =>
      cases hstep
      exact ⟨.empty _, h.image, .inr rfl⟩
    next => cases hstep
    next image hfirst =>
      cases hstep
      exact ⟨(h.image image hfirst).1, h.image, .inr rfl⟩

theorem Run.sound (h : Run FlushesAfterCheckpoint s) : s.Sound := by
  induction h with
  | init => exact .init
  | step _ hcond hstep ih => exact ih.step hcond hstep

theorem Sound.mem_liveBlocks (h : s.Sound) (hid : id ∈ s.liveBlocks) :
    0 < id ∧ id < s.bm.blockCount := by
  obtain ⟨seg, hseg, rfl⟩ := mem_map.mp hid
  have hmem := (mem_filter.mp hseg).1
  exact ⟨h.session.pos seg hmem, h.session.lt seg hmem⟩

theorem Sound.owned (h : s.Sound) : s.Owned :=
  ⟨h.session.image.nodup, fun hzero => Nat.lt_irrefl 0 (h.mem_liveBlocks hzero).1⟩

/-- A block beyond the end of the file holds no data. -/
theorem Sound.fresh (h : s.Sound) (hid : s.bm.blockCount ≤ id) : s.Fresh id := by
  refine ⟨fun hmem => ?_, fun image hfirst => ?_⟩
  · exact absurd (h.mem_liveBlocks hmem).2 (by omega)
  · have hpos := (h.image image hfirst).2
    omega

omit [DecidableEq τ] in
/-- A flush that does not meet the condition gets block 0. -/
theorem Sound.allocated_zero (h : s.Sound) {table : τ}
    (hcond : ¬ s.FlushesAfterCheckpoint (.flush table)) : s.bm.nextBlockId = 0 := by
  rw [FlushesAfterCheckpoint] at hcond
  have hcounter := h.counter
  omega

/-- **Block ownership**: in every run that only flushes columns in the session that created
the file and after the first checkpoint, the live segments have blocks of their own, and no
allocation hands out a block with live data. The first other flush of a live table breaks
this. -/
theorem Run.ownership (h : Run FlushesAfterCheckpoint s) :
    s.Owned ∧ (∀ a, s.FlushesAfterCheckpoint a → ∀ id ∈ s.allocated a, s.Fresh id) ∧
      ∀ table ∈ s.live, ∀ s', s.step (.flush table) = some s' →
        (s'.Owned ↔ s.FlushesAfterCheckpoint (.flush table)) := by
  have hsound := h.sound
  refine ⟨hsound.owned, fun a hcond id hid => ?_, fun table hlive s' hstep => ⟨fun howned => ?_,
    fun hcond => (hsound.step hcond hstep).owned⟩⟩
  · cases a with
    | flush table =>
      obtain rfl := mem_singleton.mp hid
      exact hsound.fresh (Nat.le_of_eq hcond.1.symm)
    | pinCatalog =>
      rw [allocated] at hid
      split at hid
      next hzero => exact hsound.fresh (by omega)
      next => cases hid
    | create table | drop table | writeCatalog | reopen => cases hid
  · by_contra hcond
    have hzero := hsound.allocated_zero hcond
    cases hstep
    refine howned.2 (mem_map.mpr ⟨(table, 0), mem_filter.mpr ⟨?_, ?_⟩, rfl⟩)
    · rw [← hzero]
      exact mem_cons_self
    · exact decide_eq_true hlive

/-- A checkpoint, a table and a flush of its column: the segment is in block 1. -/
theorem ownership_after_checkpoint : ∃ s : BlockState Unit, Run FlushesAfterCheckpoint s ∧
    s.liveBlocks = [1] ∧ s.Owned := by
  have hrun : Run FlushesAfterCheckpoint _ :=
    (((Run.init.step trivial (a := .pinCatalog) rfl).step trivial (a := .writeCatalog) rfl).step
      trivial (a := .create ()) rfl).step ⟨rfl, Nat.one_pos⟩ (a := .flush ()) rfl
  exact ⟨_, hrun, rfl, (Run.ownership hrun).1⟩

/-- A column that is flushed before the first checkpoint gets the block of the catalog. A
column that is flushed after the file was opened again does so too, although the catalog is
there. -/
theorem flush_takes_catalog_block : (∃ s : BlockState Unit, Run (fun _ _ => True) s ∧ ¬ s.Owned) ∧
      ∃ s : BlockState Unit, Run (fun _ _ => True) s ∧
        (∃ image, s.first = .catalog image) ∧ ∃ id ∈ s.allocated (.flush ()), ¬ s.Fresh id := by
  constructor
  · have hrun : Run (fun _ _ => True) _ :=
      (Run.init.step trivial (a := .create ()) rfl).step trivial (a := .flush ()) rfl
    exact ⟨_, hrun, fun howned => howned.2 (by decide)⟩
  · have hrun : Run (fun _ _ => True) _ :=
      (((Run.init.step trivial (a := .create ()) rfl).step trivial (a := .pinCatalog) rfl).step
        trivial (a := .writeCatalog) rfl).step trivial (a := .reopen) rfl
    exact ⟨_, hrun, ⟨_, rfl⟩, 0, mem_singleton_self 0, fun hfresh => hfresh.2 _ rfl rfl⟩

end BlockState

end CppColDB
