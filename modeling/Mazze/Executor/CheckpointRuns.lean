import Mazze.Executor.CheckpointSpec

/-!
# Checkpoints make a run atomic

A state `Tracks` a list of snapshots, one for each of its layers and innermost first, when
reverting its layers one after another shows them in turn (`Restores`). `checkpoint` pushes the
snapshot of the moment. A plain call changes no dirty entry a revert gives, so every layer still
restores its snapshot. `revert_to_checkpoint` pops a layer with its snapshot, and
`discard_checkpoint` drops the innermost snapshot while the merged layer restores the one below
(`Tracks.step`). Over calls whose checkpoints are properly nested (`Balanced`) the snapshots come
out as they went in (`Tracks.run_balanced`). That is atomicity: a revert after such calls shows
the state of its `checkpoint()`, and a discard inside them leaves the enclosing checkpoint to
restore its own creation point (`revertToCheckpoint_restores_snapshot`).
-/

set_option autoImplicit false

namespace Mazze.Executor.StateObject

variable {Addr Acc GS : Type}

/-- Calls whose checkpoints are properly nested: each `checkpoint` is closed by its own
    `discard_checkpoint` or `revert_to_checkpoint`. -/
inductive Balanced : List (Op Addr Acc GS) → Prop
  | nil : Balanced []
  | plain {op : Op Addr Acc GS} {rest : List (Op Addr Acc GS)} :
      op.isPlain → Balanced rest → Balanced (op :: rest)
  | nest {inner : List (Op Addr Acc GS)} {close : Op Addr Acc GS} {rest : List (Op Addr Acc GS)} :
      Balanced inner → close.closes → Balanced rest →
        Balanced (.checkpoint :: (inner ++ close :: rest))

/-- The snapshots each layer restores after a call, innermost first. -/
def Op.nextSnapshots (c : State Addr Acc GS) (snapshots : List ((Addr → Option Acc) × GS)) :
    Op Addr Acc GS → List ((Addr → Option Acc) × GS)
  | .checkpoint => c.snapshot :: snapshots
  | .discardCheckpoint | .revertToCheckpoint => snapshots.tail
  | _ => snapshots

theorem Op.nextSnapshots_of_isPlain {op : Op Addr Acc GS} (hplain : op.isPlain)
    (c : State Addr Acc GS) (snapshots : List ((Addr → Option Acc) × GS)) :
    op.nextSnapshots c snapshots = snapshots := by
  cases op <;> simp_all [Op.isPlain, Op.nextSnapshots]

theorem Op.nextSnapshots_of_closes {op : Op Addr Acc GS} (hcloses : op.closes)
    (c : State Addr Acc GS) (snapshot : (Addr → Option Acc) × GS)
    (snapshots : List ((Addr → Option Acc) × GS)) :
    op.nextSnapshots c (snapshot :: snapshots) = snapshots := by
  cases op <;> simp_all [Op.closes, Op.nextSnapshots]

variable [DecidableEq Addr]

theorem run_cons (newBasic : Addr → Acc) (c : State Addr Acc GS) (op : Op Addr Acc GS)
    (ops : List (Op Addr Acc GS)) :
    run newBasic c (op :: ops) = (op.step newBasic c).bind fun c => run newBasic c ops := rfl

theorem run_append (newBasic : Addr → Acc) (c : State Addr Acc GS)
    (ops₁ ops₂ : List (Op Addr Acc GS)) :
    run newBasic c (ops₁ ++ ops₂) = (run newBasic c ops₁).bind fun c => run newBasic c ops₂ := by
  unfold run
  rw [List.foldlM_append]
  rfl

namespace State

/-- Reverting the layers one after another shows the snapshots in turn. -/
def Restores : State Addr Acc GS → List ((Addr → Option Acc) × GS) → Prop
  | _, [] => True
  | c, snapshot :: snapshots => c.reverted.snapshot = snapshot ∧ c.reverted.Restores snapshots

/-- A state with a snapshot for each of its layers, which the layers restore. -/
structure Tracks (c : State Addr Acc GS) (snapshots : List ((Addr → Option Acc) × GS)) :
    Prop where
  inv : c.Inv
  length_eq : c.checkpoints.length = snapshots.length
  restores : c.Restores snapshots

variable {c c₁ c₂ : State Addr Acc GS} {snapshots : List ((Addr → Option Acc) × GS)}

/-- What the layers restore depends on the dirty entries only. -/
theorem Restores.congr (h : SameDirty c₁ c₂) (h₁ : c₁.Inv) (h₂ : c₂.Inv)
    (hr : c₁.Restores snapshots) : c₂.Restores snapshots := by
  induction snapshots generalizing c₁ c₂ with
  | nil => trivial
  | cons snapshot snapshots ih =>
    obtain ⟨hs, hrest⟩ := hr
    have hrev := h.reverted h₁ h₂
    exact ⟨(hrev.snapshot_eq h₁.reverted h₂.reverted).symm.trans hs,
      ih hrev h₁.reverted h₂.reverted hrest⟩

theorem Tracks.new (db : Addr → Option Acc) (globalStat : GS) :
    (State.new db globalStat).Tracks [] where
  inv := ⟨(fun _ _ hentry => by cases hentry), (fun _ hlayer => by cases hlayer), trivial⟩
  length_eq := rfl
  restores := trivial

/-- A call that keeps the layers and, under a checkpoint, every dirty entry of the revert. -/
theorem Tracks.of_plain (ht : c₁.Tracks snapshots) (h₂ : c₂.Inv)
    (hlen : c₂.checkpoints.length = c₁.checkpoints.length)
    (hsame : c₁.checkpoints ≠ [] → SameDirty c₂.reverted c₁.reverted) :
    c₂.Tracks snapshots := by
  refine ⟨h₂, hlen.trans ht.length_eq, ?_⟩
  cases snapshots with
  | nil => trivial
  | cons snapshot snapshots =>
    have hne : c₁.checkpoints ≠ [] := by
      intro hnil
      have hlen₁ := ht.length_eq
      simp [hnil] at hlen₁
    have hs := hsame hne
    exact ⟨(hs.snapshot_eq h₂.reverted ht.inv.reverted).trans ht.restores.1,
      ht.restores.2.congr hs.symm ht.inv.reverted h₂.reverted⟩

theorem Tracks.writeAccountInner (ht : c.Tracks snapshots) (address : Addr)
    (default : Addr → Except (DbError Addr) Acc) (modify : Acc → Acc) :
    (c.writeAccountInner address default modify).1.Tracks snapshots :=
  ht.of_plain (ht.inv.writeAccountInner address default modify)
    (length_checkpoints_writeAccountInner c address default modify)
    fun hne => SameDirty.reverted_writeAccountInner ht.inv hne address default modify

theorem Tracks.checkpoint (ht : c.Tracks snapshots) :
    c.checkpoint.1.Tracks (c.snapshot :: snapshots) where
  inv := ht.inv.checkpoint
  length_eq := by simp [State.checkpoint, ht.length_eq]
  restores := ⟨by rw [reverted_checkpoint], by rw [reverted_checkpoint]; exact ht.restores⟩

theorem Tracks.reverted (ht : c.Tracks snapshots) : c.reverted.Tracks snapshots.tail where
  inv := ht.inv.reverted
  length_eq := by rw [checkpoints_reverted, List.length_tail, List.length_tail, ht.length_eq]
  restores := by
    cases snapshots with
    | nil => trivial
    | cons snapshot snapshots => exact ht.restores.2

/-- After a discard the merged layer restores what the outer layer did. -/
theorem Tracks.discardCheckpoint (ht : c.Tracks snapshots) :
    c.discardCheckpoint.Tracks snapshots.tail := by
  have hinv := ht.inv.discardCheckpoint
  refine ⟨hinv, ?_, ?_⟩
  · rw [length_checkpoints_discardCheckpoint, List.length_tail, ht.length_eq]
  · rcases snapshots with _ | ⟨inner, _ | ⟨outer, snapshots⟩⟩
    · trivial
    · trivial
    · -- two layers or more: the merged layer reverts as the two did
      have hlen := ht.length_eq
      rcases hcp : c.checkpoints with _ | ⟨checkpoint, _ | ⟨prev, rest⟩⟩ <;>
        simp only [hcp, List.length_cons, List.length_nil] at hlen <;> try omega
      have hs := SameDirty.reverted_discardCheckpoint ht.inv hcp
      obtain ⟨-, houter, hrest⟩ := ht.restores
      exact ⟨(hs.snapshot_eq hinv.reverted ht.inv.reverted.reverted).trans houter,
        hrest.congr hs.symm ht.inv.reverted.reverted hinv.reverted⟩

/-- One call: it succeeds, and the layers restore the snapshots it leaves. -/
theorem Tracks.step (ht : c.Tracks snapshots) (newBasic : Addr → Acc) (op : Op Addr Acc GS) :
    ∃ c', op.step newBasic c = some c' ∧ c'.Tracks (op.nextSnapshots c snapshots) := by
  cases op with
  | readAccount address =>
    have hfetch := SameDirty.fetchAccountMut c address
    refine ⟨_, rfl, ?_⟩
    show (c.readAccountLock address).1.Tracks snapshots
    rw [readAccountLock_fst]
    exact ht.of_plain (ht.inv.fetchAccountMut address) (by rw [hfetch.checkpoints_eq])
      fun _ => hfetch.reverted (ht.inv.fetchAccountMut address) ht.inv
  | writeAccount address modify => exact ⟨_, rfl, ht.writeAccountInner address _ modify⟩
  | writeAccountOrNew address modify => exact ⟨_, rfl, ht.writeAccountInner address _ modify⟩
  | insertToCache address account =>
    refine ⟨_, rfl, ht.of_plain (ht.inv.insertToCache address account) ?_
      fun hne => SameDirty.reverted_insertToCache ht.inv hne address account⟩
    simp [State.insertToCache]
  | updateGlobalStat update =>
    refine ⟨_, rfl, ht.of_plain (ht.inv.updateGlobalStat update) rfl fun hne => ?_⟩
    rw [reverted_updateGlobalStat hne]
    exact SameDirty.refl _
  | checkpoint => exact ⟨_, rfl, ht.checkpoint⟩
  | discardCheckpoint => exact ⟨_, rfl, ht.discardCheckpoint⟩
  | revertToCheckpoint => exact ⟨_, revertToCheckpoint_eq_reverted ht.inv, ht.reverted⟩

/-- Any run succeeds, and its layers restore the snapshots of their checkpoints. -/
theorem Tracks.exists_run (ht : c.Tracks snapshots) (newBasic : Addr → Acc)
    (ops : List (Op Addr Acc GS)) :
    ∃ c' snapshots', run newBasic c ops = some c' ∧ c'.Tracks snapshots' := by
  induction ops generalizing c snapshots with
  | nil => exact ⟨c, snapshots, rfl, ht⟩
  | cons op ops ih =>
    obtain ⟨c₁, hstep, ht₁⟩ := ht.step newBasic op
    obtain ⟨c', snapshots', hrun, ht'⟩ := ih ht₁
    exact ⟨c', snapshots', by rw [run_cons, hstep]; exact hrun, ht'⟩

/-- Calls with properly nested checkpoints leave every layer to restore what it restored. -/
theorem Tracks.run_balanced (newBasic : Addr → Acc) {ops : List (Op Addr Acc GS)}
    (hb : Balanced ops) :
    ∀ {c : State Addr Acc GS} {snapshots}, c.Tracks snapshots →
      ∃ c', run newBasic c ops = some c' ∧ c'.Tracks snapshots := by
  induction hb with
  | nil => exact fun ht => ⟨_, rfl, ht⟩
  | @plain op rest hplain _ ih =>
    intro c snapshots ht
    obtain ⟨c₁, hstep, ht₁⟩ := ht.step newBasic op
    rw [Op.nextSnapshots_of_isPlain hplain] at ht₁
    obtain ⟨c', hrun, ht'⟩ := ih ht₁
    exact ⟨c', by rw [run_cons, hstep]; exact hrun, ht'⟩
  | @nest inner close rest _ hclose _ ihinner ihrest =>
    intro c snapshots ht
    -- the inner calls run over the new layer, which the closing call then takes away
    obtain ⟨c₂, hrun₂, ht₂⟩ := ihinner ht.checkpoint
    obtain ⟨c₃, hstep₃, ht₃⟩ := ht₂.step newBasic close
    rw [Op.nextSnapshots_of_closes hclose] at ht₃
    obtain ⟨c', hrun, ht'⟩ := ihrest ht₃
    refine ⟨c', ?_, ht'⟩
    rw [run_cons, Op.step, Option.bind_some, run_append, hrun₂, Option.bind_some, run_cons,
      hstep₃, Option.bind_some, hrun]

end State

open State

/-- Atomicity of checkpoints. From any state the calls reach, a `checkpoint` followed by calls
    with properly nested checkpoints can be reverted, and the revert shows every account and
    the global statistics as they were at the `checkpoint`. Discarding it instead changes
    nothing a caller sees, and leaves the enclosing checkpoint, if there is one, to restore what
    it would have restored before. -/
theorem revertToCheckpoint_restores_snapshot (newBasic : Addr → Acc) (db : Addr → Option Acc)
    (globalStat : GS) (ops₁ ops₂ : List (Op Addr Acc GS)) (c₁ : State Addr Acc GS)
    (h₁ : run newBasic (State.new db globalStat) ops₁ = some c₁) (hNested : Balanced ops₂) :
    ∃ c₂ c₃, run newBasic c₁ (.checkpoint :: ops₂) = some c₂ ∧
      c₂.revertToCheckpoint = some c₃ ∧ c₃.snapshot = c₁.snapshot ∧
      c₂.discardCheckpoint.snapshot = c₂.snapshot ∧
      (c₁.checkpoints ≠ [] → c₂.discardCheckpoint.revertToCheckpoint.map snapshot =
        c₁.revertToCheckpoint.map snapshot) := by
  obtain ⟨c₀, snapshots, hrun₀, ht₁⟩ := (Tracks.new db globalStat).exists_run newBasic ops₁
  obtain rfl : c₀ = c₁ := Option.some.inj (hrun₀.symm.trans h₁)
  obtain ⟨c₂, hrun₂, ht₂⟩ := ht₁.checkpoint.run_balanced newBasic hNested
  have hdiscard : c₂.discardCheckpoint.Tracks snapshots := ht₂.discardCheckpoint
  refine ⟨c₂, c₂.reverted, by rw [run_cons, Op.step, Option.bind_some]; exact hrun₂,
    revertToCheckpoint_eq_reverted ht₂.inv, ht₂.restores.1, snapshot_discardCheckpoint c₂,
    fun hne => ?_⟩
  rw [revertToCheckpoint_eq_reverted hdiscard.inv, revertToCheckpoint_eq_reverted ht₁.inv,
    Option.map_some, Option.map_some]
  -- both are the snapshot of the enclosing checkpoint
  cases snapshots with
  | nil => exact absurd (List.length_eq_zero_iff.mp ht₁.length_eq) hne
  | cons snapshot snapshots => rw [hdiscard.restores.1, ht₁.restores.1]

/-- A write, then a nested checkpoint over a new contract that is discarded, and an update of the
    statistics. -/
def nestedOps : List (Op Bool Nat Nat) :=
  [.writeAccountOrNew true (· + 1), .checkpoint, .insertToCache false 5, .discardCheckpoint,
    .updateGlobalStat (· + 1)]

theorem nestedOps_balanced : Balanced nestedOps :=
  .plain rfl (@Balanced.nest _ _ _ [.insertToCache false 5] .discardCheckpoint
    [.updateGlobalStat (· + 1)] (.plain rfl .nil) rfl (.plain rfl .nil))

/-- An empty database under one checkpoint. -/
def nestedStart : State Bool Nat Nat := (State.new (fun _ => none) 0).checkpoint.1

theorem revertToCheckpoint_restores_snapshot_nested :
    ∃ c₂ c₃, run (fun _ => 0) nestedStart (.checkpoint :: nestedOps) = some c₂ ∧
      c₂.revertToCheckpoint = some c₃ ∧ c₃.snapshot = nestedStart.snapshot ∧
      c₂.discardCheckpoint.snapshot = c₂.snapshot ∧
      (nestedStart.checkpoints ≠ [] → c₂.discardCheckpoint.revertToCheckpoint.map State.snapshot =
        nestedStart.revertToCheckpoint.map State.snapshot) :=
  revertToCheckpoint_restores_snapshot (fun _ => 0) (fun _ => none) 0 [.checkpoint] nestedOps
    nestedStart rfl nestedOps_balanced

end Mazze.Executor.StateObject
