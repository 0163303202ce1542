import Mazze.Sync.Invariant

/-!
# The two propagation loops keep the invariant

`propagate_header_graph_status` and `propagate_graph_status` pop a queue of nodes. An
invalid node passes `BLOCK_INVALID` on to its children and referrers. Any other node asks
`new_to_be_graph_ready`, climbs one status if it may, and queues what hangs below it.

`new_to_be_graph_ready` writes at most `parent_reclaimed`, and a node it calls ready is
`Admissible` (`newToBeGraphReady_spec`). `BLOCK_INVALID` only reaches nodes below
`BLOCK_GRAPH_READY`, since a graph-ready node hangs only below graph-ready ones
(`Ready.child_below`, `Ready.referrer_below`). So `PropInv` holds at every turn
(`PropInv.propagateHeaderGraphStatusStep`, `PropInv.propagateGraphStatusStep`). It carries
`GraphInv`, and with it what went out on the channel, to the end of both loops. The header
loop is taken with `insert_to_consensus` off, the way a run calls it.
-/

set_option autoImplicit false

namespace Mazze.Sync

open Loop

theorem ofFuel_eq_ok {α : Type} {o : Option α} {a : α} (h : ofFuel o = .ok a) : o = some a := by
  cases o with
  | none => cases h
  | some b => cases h; rfl

/-! ## 1. `new_to_be_graph_ready` -/

namespace SynchronizationGraphInner

/-- The one write of `new_to_be_graph_ready`: `parent_reclaimed` on a node whose parent is
    reclaimed or graph-ready in the database. -/
def ReclaimWrite (s s' : SynchronizationGraphInner) (i : Nat) : Prop :=
  s' = s ∨ (s' = s.setParentReclaimed i ∧ (s.arena i).parent = NULL ∧
    ((s.arena i).parentReclaimed = true ∨ s.dataMan.GraphReady (s.arena i).blockHeader.parentHash))

end SynchronizationGraphInner

variable {hs : HeaderSet} {s s' : SynchronizationGraphInner} {sent : List Nat} {i : Nat}
  {m : GraphStatus}

namespace SynchronizationGraphInner.ReclaimWrite

theorem sameShape (hw : s.ReclaimWrite s' i) : SameShape s s' := by
  rcases hw with rfl | ⟨rfl, -⟩
  · exact .refl _
  · exact .setParentReclaimed s i

theorem graphStatus (hw : s.ReclaimWrite s' i) (j : Nat) :
    (s'.arena j).graphStatus = (s.arena j).graphStatus := by
  rcases hw with rfl | ⟨rfl, -⟩ <;> simp

theorem blockReady (hw : s.ReclaimWrite s' i) (j : Nat) :
    (s'.arena j).blockReady = (s.arena j).blockReady := by
  rcases hw with rfl | ⟨rfl, -⟩ <;> simp

theorem dataMan (hw : s.ReclaimWrite s' i) : s'.dataMan = s.dataMan := by
  rcases hw with rfl | ⟨rfl, -⟩ <;> rfl

/-- The write keeps the invariant: a reclaimed parent is graph-ready in the database. -/
theorem graphInv (hw : s.ReclaimWrite s' i) (h : GraphInv hs s sent) (hi : i ∈ s.keys) :
    GraphInv hs s' sent := by
  rcases hw with rfl | ⟨rfl, hnull, hrec⟩
  · exact h
  · have hdb : s.dataMan.GraphReady (s.arena i).blockHeader.parentHash :=
      hrec.elim (fun hr => (h.ready.reclaimed i hi hr).2) id
    exact ⟨h.links.of_sameShape (.setParentReclaimed s i), h.ready.setParentReclaimed hnull hdb,
      h.sent.mono (fun _ => by simp) rfl fun j hj hgr => .inl ⟨hj, by simpa using hgr⟩⟩

end SynchronizationGraphInner.ReclaimWrite

/-- The last two checks of `new_to_be_graph_ready`, read as `Admissible`. -/
theorem Admissible.of_checks (hbelow : ¬ (s.arena i).graphStatus ≥ m)
    (hparent : ((s.arena i).parent = NULL ∧ ((s.arena i).parentReclaimed = true ∨
        s.dataMan.GraphReady (s.arena i).blockHeader.parentHash)) ∨
      ((s.arena i).parent ≠ NULL ∧ (s.arena (s.arena i).parent).graphStatus ≥ m))
    (hreferees : ¬ (!(s.arena i).referees.all fun r => decide ((s.arena r).graphStatus ≥ m)) = true)
    (hhashes : ¬ (!(s.arena i).blockHeader.refereeHashes.all fun h =>
        decide (h ∈ (s.arena i).referees.map fun r => (s.arena r).blockHeader.hash) ||
          s.isGraphReadyInDb h s.genesisSeqNum) = true) :
    Admissible s i m where
  below := Nat.lt_of_not_le hbelow
  parent := hparent
  referees r hr := by
    simp only [Bool.not_eq_true', Bool.not_eq_false, List.all_eq_true, decide_eq_true_eq] at hreferees
    exact hreferees r hr
  refereeHashes h hh := by
    simp only [Bool.not_eq_true', Bool.not_eq_false, List.all_eq_true, Bool.or_eq_true,
      decide_eq_true_eq, SynchronizationGraphInner.isGraphReadyInDb_iff] at hhashes
    exact hhashes h hh

/-- `new_to_be_graph_ready` writes at most `parent_reclaimed`, and a node it calls ready is
    admissible in the graph it leaves. -/
theorem newToBeGraphReady_spec {ready : Bool} (h : s.newToBeGraphReady i m = (s', ready)) :
    s.ReclaimWrite s' i ∧ (ready = true → Admissible s' i m) := by
  unfold SynchronizationGraphInner.newToBeGraphReady at h
  dsimp only at h
  split_ifs at h with hbelow hnull hparent hreferees hhashes hparent' hreferees' hhashes' <;>
    obtain ⟨rfl, rfl⟩ := Prod.mk.inj h
  · exact ⟨.inl rfl, nofun⟩
  · exact ⟨.inl rfl, nofun⟩
  -- the parent is only in the database: `parent_reclaimed` is written before the last checks
  all_goals try rw [Bool.not_eq_true, Bool.not_eq_false', Bool.or_eq_true,
    SynchronizationGraphInner.isGraphReadyInDb_iff] at hparent
  · exact ⟨.inr ⟨rfl, hnull, hparent⟩, nofun⟩
  · exact ⟨.inr ⟨rfl, hnull, hparent⟩, nofun⟩
  · refine ⟨.inr ⟨rfl, hnull, hparent⟩, fun _ => ?_⟩
    exact Admissible.of_checks (by simpa using hbelow) (.inl ⟨by simpa using hnull, by simp⟩)
      hreferees hhashes
  -- the parent is in memory: nothing is written
  · exact ⟨.inl rfl, nofun⟩
  · exact ⟨.inl rfl, nofun⟩
  · exact ⟨.inl rfl, nofun⟩
  · refine ⟨.inl rfl, fun _ => Admissible.of_checks hbelow (.inr ⟨hnull, ?_⟩) hreferees' hhashes'⟩
    simpa using hparent'

/-- `new_to_be_block_graph_ready` also asks for the body. -/
theorem newToBeBlockGraphReady_spec {ready : Bool} (h : s.newToBeBlockGraphReady i = (s', ready)) :
    s.ReclaimWrite s' i ∧
      (ready = true → Admissible s' i .blockGraphReady ∧ (s'.arena i).blockReady = true) := by
  unfold SynchronizationGraphInner.newToBeBlockGraphReady at h
  rcases hg : s.newToBeGraphReady i .blockGraphReady with ⟨t, b⟩
  rw [hg] at h
  obtain ⟨rfl, rfl⟩ := Prod.mk.inj h
  obtain ⟨hw, ha⟩ := newToBeGraphReady_spec hg
  refine ⟨hw, fun hr => ?_⟩
  rw [Bool.and_eq_true] at hr
  exact ⟨ha hr.1, hr.2⟩

/-! ## 2. Below a node that is not graph-ready -/

namespace Ready

/-- A child of a node below `BLOCK_GRAPH_READY` is below it too. -/
theorem child_below (hl : Links hs s) (hr : Ready s sent) (hi : i ∈ s.keys)
    (hbelow : (s.arena i).graphStatus ≠ .blockGraphReady) {c : Nat}
    (hc : c ∈ (s.arena i).children) : (s.arena c).graphStatus ≠ .blockGraphReady := by
  obtain ⟨hck, hcp⟩ := hl.children_mem i hi c hc
  intro hgr
  exact hr.parent_ne_of_below hck hgr hbelow (hl.ne_null hi) hcp

/-- A referrer of a node below `BLOCK_GRAPH_READY` is below it too. -/
theorem referrer_below (hl : Links hs s) (hr : Ready s sent) (hi : i ∈ s.keys)
    (hbelow : (s.arena i).graphStatus ≠ .blockGraphReady) {x : Nat}
    (hx : x ∈ (s.arena i).referrers) : (s.arena x).graphStatus ≠ .blockGraphReady := by
  obtain ⟨hxk, hix⟩ := hl.referrers_mem i hi x hx
  intro hgr
  exact hr.not_mem_referees_of_below hxk hgr hbelow hix

end Ready

/-! ## 3. The invariant of a propagation -/

/-- Two graphs of one shape, where no node became graph-ready. -/
structure Lowered (s s' : SynchronizationGraphInner) : Prop where
  shape : SameShape s s'
  ready : ∀ j, (s'.arena j).graphStatus = .blockGraphReady → (s.arena j).graphStatus = .blockGraphReady

theorem Lowered.refl (s : SynchronizationGraphInner) : Lowered s s := ⟨.refl s, fun _ h => h⟩

theorem Lowered.trans {s'' : SynchronizationGraphInner} (h : Lowered s s') (h' : Lowered s' s'') :
    Lowered s s'' :=
  ⟨h.shape.trans h'.shape, fun j hj => h.ready j (h'.ready j hj)⟩

/-- A node that was below `BLOCK_GRAPH_READY` stays below it. -/
theorem Lowered.below (h : Lowered s s') {j : Nat}
    (hj : (s.arena j).graphStatus ≠ .blockGraphReady) : (s'.arena j).graphStatus ≠ .blockGraphReady :=
  fun h' => hj (h.ready j h')

variable (hs) in
/-- The invariant of both loops: the graph's, the queue in the arena, and an `invalid_set`
    of invalid nodes of the arena, each once. -/
structure PropInv (p : Propagation) : Prop where
  graph : GraphInv hs p.inner p.newBlockHashes
  queue : ∀ i ∈ p.queue, i ∈ p.inner.keys
  invalid : ∀ i ∈ p.invalidSet, i ∈ p.inner.keys ∧ (p.inner.arena i).graphStatus = .blockInvalid
  nodup : p.invalidSet.Nodup

variable {p : Propagation}

/-- The `invalid_set` at the start: the frontier's invalid nodes. -/
theorem mem_foldl_insertInvalid (inner : SynchronizationGraphInner) :
    ∀ (l acc : List Nat) (x : Nat),
      x ∈ l.foldl (fun acc i => if (inner.arena i).graphStatus = .blockInvalid then acc.insert i
        else acc) acc ↔ x ∈ acc ∨ (x ∈ l ∧ (inner.arena x).graphStatus = .blockInvalid)
  | [], _, _ => by simp
  | i :: l, acc, x => by
    rw [List.foldl_cons, mem_foldl_insertInvalid inner l]
    by_cases hi : (inner.arena i).graphStatus = .blockInvalid
    · simp only [hi, if_true, List.mem_insert_iff, List.mem_cons]
      constructor
      · rintro ((rfl | h) | ⟨h, h'⟩)
        · exact .inr ⟨.inl rfl, hi⟩
        · exact .inl h
        · exact .inr ⟨.inr h, h'⟩
      · rintro (h | ⟨rfl | h, h'⟩)
        · exact .inl (.inr h)
        · exact .inl (.inl rfl)
        · exact .inr ⟨h, h'⟩
    · simp only [hi, if_false, List.mem_cons]
      constructor
      · rintro (h | ⟨h, h'⟩)
        · exact .inl h
        · exact .inr ⟨.inr h, h'⟩
      · rintro (h | ⟨rfl | h, h'⟩)
        · exact .inl h
        · exact absurd h' hi
        · exact .inr ⟨h, h'⟩

theorem nodup_foldl_insertInvalid (inner : SynchronizationGraphInner) :
    ∀ (l acc : List Nat), acc.Nodup →
      (l.foldl (fun acc i => if (inner.arena i).graphStatus = .blockInvalid then acc.insert i
        else acc) acc).Nodup
  | [], _, h => h
  | i :: l, acc, h => by
    rw [List.foldl_cons]
    apply nodup_foldl_insertInvalid inner l
    split
    · exact h.insert
    · exact h

/-- Both loops start from the invariant. -/
theorem PropInv.start {inner : SynchronizationGraphInner} {frontier : List Nat}
    (h : GraphInv hs inner sent) (hf : ∀ i ∈ frontier, i ∈ inner.keys) :
    PropInv hs (Propagation.start inner sent frontier) where
  graph := h
  queue := hf
  invalid i hi := by
    simp only [Propagation.start, mem_foldl_insertInvalid, List.not_mem_nil, false_or] at hi
    exact ⟨hf i hi.1, hi.2⟩
  nodup := nodup_foldl_insertInvalid inner frontier [] List.nodup_nil

/-- A change of the graph alone that keeps the invariant of the graph, its keys, and the
    invalid nodes. -/
theorem PropInv.withInner (h : PropInv hs p) {t : SynchronizationGraphInner}
    (hg : GraphInv hs t p.newBlockHashes) (hk : t.keys = p.inner.keys)
    (hinv : ∀ j ∈ p.invalidSet, (t.arena j).graphStatus = (p.inner.arena j).graphStatus) :
    PropInv hs { p with inner := t } where
  graph := hg
  queue j hj := hk ▸ h.queue j hj
  invalid j hj := hk ▸ hinv j hj ▸ h.invalid j hj
  nodup := h.nodup

/-- The write of `new_to_be_graph_ready` keeps the invariant. -/
theorem PropInv.reclaimWrite (h : PropInv hs p) (hi : i ∈ p.inner.keys)
    (hw : p.inner.ReclaimWrite s' i) : PropInv hs { p with inner := s' } :=
  h.withInner (hw.graphInv h.graph hi) hw.sameShape.keys fun j _ => hw.graphStatus j

/-! ## 4. Invalidation -/

/-- One child or referrer turns invalid. -/
theorem PropInv.markInvalid (h : PropInv hs p) {c : Nat} (hc : c ∈ p.inner.keys)
    (hbelow : (p.inner.arena c).graphStatus ≠ .blockGraphReady) :
    PropInv hs (p.markInvalid c) ∧ Lowered p.inner (p.markInvalid c).inner := by
  unfold Propagation.markInvalid
  split
  · exact ⟨h, .refl _⟩
  · rename_i hnot
    refine ⟨⟨h.graph.setGraphStatus_below hc hbelow (by decide), ?_, ?_, h.nodup.insert⟩,
      ⟨.setGraphStatus _ c _, fun j hj => ?_⟩⟩
    · intro j hj
      simp only [List.mem_append, List.mem_singleton] at hj
      rcases hj with hj | rfl
      · simpa using h.queue j hj
      · simpa using hc
    · intro j hj
      simp only [SynchronizationGraphInner.setGraphStatus_eq, update_graphStatus,
        List.mem_insert_iff] at hj ⊢
      rcases hj with rfl | hj
      · exact ⟨hc, by simp⟩
      · obtain ⟨hjk, hjs⟩ := h.invalid j hj
        exact ⟨hjk, by split <;> simp_all⟩
    · simp only [SynchronizationGraphInner.setGraphStatus_eq, update_graphStatus] at hj
      split at hj
      · cases hj
      · exact hj

/-- `for c in l { mark_invalid(c) }`, over nodes of the arena below `BLOCK_GRAPH_READY`. The
    induction is on the list, with the propagation generalised since each turn writes it. -/
theorem PropInv.foldl_markInvalid :
    ∀ (l : List Nat) {q : Propagation}, PropInv hs q →
      (∀ c ∈ l, c ∈ q.inner.keys ∧ (q.inner.arena c).graphStatus ≠ .blockGraphReady) →
      PropInv hs (l.foldl Propagation.markInvalid q) ∧
        Lowered q.inner (l.foldl Propagation.markInvalid q).inner
  | [], _, h, _ => ⟨h, .refl _⟩
  | c :: l, q, h, hl => by
    obtain ⟨hc, hcb⟩ := hl c (List.mem_cons_self ..)
    obtain ⟨h₁, hlow₁⟩ := h.markInvalid hc hcb
    have hl' : ∀ c' ∈ l, c' ∈ (q.markInvalid c).inner.keys ∧
        ((q.markInvalid c).inner.arena c').graphStatus ≠ .blockGraphReady := by
      intro c' hc'
      obtain ⟨hk, hb⟩ := hl c' (List.mem_cons_of_mem _ hc')
      exact ⟨hlow₁.shape.keys ▸ hk, hlow₁.below hb⟩
    obtain ⟨h₂, hlow₂⟩ := PropInv.foldl_markInvalid l h₁ hl'
    exact ⟨h₂, hlow₁.trans hlow₂⟩

/-- `set_and_propagate_invalid` from a node below `BLOCK_GRAPH_READY`. -/
theorem PropInv.setAndPropagateInvalid (h : PropInv hs p) (hi : i ∈ p.inner.keys)
    (hbelow : (p.inner.arena i).graphStatus ≠ .blockGraphReady) :
    PropInv hs (p.setAndPropagateInvalid i) := by
  unfold Propagation.setAndPropagateInvalid
  -- the children first, then the referrers, read from the graph the children left
  obtain ⟨h₁, hlow₁⟩ := h.foldl_markInvalid (p.inner.arena i).children fun c hc =>
    ⟨(h.graph.links.children_mem i hi c hc).1,
      Ready.child_below h.graph.links h.graph.ready hi hbelow hc⟩
  have hi₁ := hlow₁.shape.keys ▸ hi
  have hbelow₁ := hlow₁.below hbelow
  exact (h₁.foldl_markInvalid _ fun x hx =>
    ⟨(h₁.graph.links.referrers_mem i hi₁ x hx).1,
      Ready.referrer_below h₁.graph.links h₁.graph.ready hi₁ hbelow₁ hx⟩).1

/-- A node that fails its check turns invalid, and so does what hangs below it. -/
theorem PropInv.invalidate (h : PropInv hs p) (hi : i ∈ p.inner.keys)
    (hbelow : (p.inner.arena i).graphStatus ≠ .blockGraphReady) : PropInv hs (p.invalidate i) := by
  unfold Propagation.invalidate
  apply PropInv.setAndPropagateInvalid
  · constructor
    · exact h.graph.setGraphStatus_below hi hbelow (by decide)
    · intro j hj
      simpa using h.queue j hj
    · intro j hj
      simp only [SynchronizationGraphInner.setGraphStatus_eq, update_graphStatus,
        List.mem_insert_iff] at hj ⊢
      rcases hj with rfl | hj
      · exact ⟨hi, by simp⟩
      · obtain ⟨hjk, hjs⟩ := h.invalid j hj
        exact ⟨hjk, by split <;> simp_all⟩
    · exact h.nodup.insert
  · simpa using hi
  · simp

/-! ## 5. The turns and the loops -/

/-- The popped queue. -/
theorem PropInv.pop (h : PropInv hs p) {index : Nat} {queue : List Nat}
    (hq : p.queue = index :: queue) : PropInv hs { p with queue } ∧ index ∈ p.inner.keys :=
  ⟨⟨h.graph, fun j hj => h.queue j (hq ▸ List.mem_cons_of_mem _ hj), h.invalid, h.nodup⟩,
    h.queue index (hq ▸ List.mem_cons_self ..)⟩

/-- More nodes of the arena are queued. -/
theorem PropInv.enqueue (h : PropInv hs p) {l : List Nat} (hl : ∀ j ∈ l, j ∈ p.inner.keys) :
    PropInv hs { p with queue := p.queue ++ l } :=
  ⟨h.graph, fun j hj => (List.mem_append.mp hj).elim (h.queue j) (hl j), h.invalid, h.nodup⟩

/-- A propagation with the graph, the channel and the `invalid_set` of one that keeps the
    invariant, and a queue in the arena; the relay list is not part of the invariant. -/
theorem PropInv.of_eq (h : PropInv hs p) {q : Propagation} (hinner : q.inner = p.inner)
    (hsent : q.newBlockHashes = p.newBlockHashes) (hinv : q.invalidSet = p.invalidSet)
    (hq : ∀ j ∈ q.queue, j ∈ p.inner.keys) : PropInv hs q where
  graph := hinner ▸ hsent ▸ h.graph
  queue := hinner ▸ hq
  invalid := hinner ▸ hinv ▸ h.invalid
  nodup := hinv ▸ h.nodup

/-- A node with a reclaimed parent joins the old-era frontier. -/
theorem PropInv.pushOldEraBlocksFrontier (h : PropInv hs p) (hi : i ∈ p.inner.keys)
    (hrec : (p.inner.arena i).parentReclaimed = true) :
    PropInv hs { p with inner := p.inner.pushOldEraBlocksFrontier i } :=
  h.withInner (h.graph.pushOldEraBlocksFrontier hi hrec) rfl fun _ _ => rfl

/-- `set_graph_ready` on an admissible node with its body, not invalid. -/
theorem PropInv.setGraphReady (h : PropInv hs p) (hi : i ∈ p.inner.keys)
    (ha : Admissible p.inner i .blockGraphReady) (hb : (p.inner.arena i).blockReady = true)
    (hni : (p.inner.arena i).graphStatus ≠ .blockInvalid) : PropInv hs (p.setGraphReady i) where
  graph := h.graph.setGraphReady hi ha hb
  queue := h.queue
  invalid j hj := by
    obtain ⟨hjk, hjs⟩ := h.invalid j hj
    have hji : j ≠ i := by rintro rfl; exact hni hjs
    exact ⟨hjk, by simpa [Propagation.setGraphReady, hji] using hjs⟩
  nodup := h.nodup

/-- A node's children and referrers are in the arena. -/
theorem Links.children_append_referrers_mem (hl : Links hs s) (hi : i ∈ s.keys) :
    ∀ j ∈ (s.arena i).children ++ (s.arena i).referrers, j ∈ s.keys := by
  intro j hj
  rcases List.mem_append.mp hj with hj | hj
  · exact (hl.children_mem i hi j hj).1
  · exact (hl.referrers_mem i hi j hj).1

/-- One turn of `propagate_graph_status` keeps the invariant. -/
theorem PropInv.propagateGraphStatusStep {v : Verifier} {p' : Propagation} (h : PropInv hs p)
    (hstep : propagateGraphStatusStep v p = .next p') : PropInv hs p' := by
  unfold Mazze.Sync.propagateGraphStatusStep at hstep
  split at hstep
  case h_1 => cases hstep
  case h_2 index queue hq =>
    obtain ⟨hp, hi⟩ := h.pop hq
    dsimp only at hstep
    generalize hn : p.inner.newToBeBlockGraphReady index = r at hstep
    obtain ⟨t, ready⟩ := r
    obtain ⟨hw, hready⟩ := newToBeBlockGraphReady_spec hn
    have ht : PropInv hs { p with queue, inner := t } := hp.reclaimWrite hi hw
    have hit : index ∈ t.keys := hw.sameShape.keys ▸ hi
    dsimp only at hstep
    split_ifs at hstep with hinv hr hv <;> cases hstep
    · -- an invalid node passes `BLOCK_INVALID` on
      exact hp.setAndPropagateInvalid hi (by simp [hinv])
    · -- ready, but the check fails
      exact ht.invalidate hit ((GraphStatus.lt_blockGraphReady_iff _).mp (hready hr).1.below)
    · -- ready and checked: graph-ready, sent, and what hangs below is queued
      have hg := ht.setGraphReady hit (hready hr).1 (hready hr).2 (by rwa [hw.graphStatus])
      simpa only [List.append_assoc] using hg.enqueue
        (hg.graph.links.children_append_referrers_mem (by simpa [Propagation.setGraphReady] using hit))
    · exact ht

/-- One turn of `propagate_header_graph_status`, with `insert_to_consensus` off, keeps the
    invariant. -/
theorem PropInv.propagateHeaderGraphStatusStep {v : Verifier} {needToVerify : Bool}
    {p' : Propagation} (h : PropInv hs p)
    (hstep : propagateHeaderGraphStatusStep v needToVerify false p = .next p') : PropInv hs p' := by
  unfold Mazze.Sync.propagateHeaderGraphStatusStep at hstep
  split at hstep
  case h_1 => cases hstep
  case h_2 index queue hq =>
    obtain ⟨hp, hi⟩ := h.pop hq
    dsimp only at hstep
    generalize hn : p.inner.newToBeHeaderGraphReady index = r at hstep
    obtain ⟨t, ready⟩ := r
    obtain ⟨hw, hready⟩ := newToBeGraphReady_spec hn
    have ht : PropInv hs { p with queue, inner := t } := hp.reclaimWrite hi hw
    have hit : index ∈ t.keys := hw.sameShape.keys ▸ hi
    dsimp only at hstep
    split at hstep
    case isTrue hinv =>
      cases hstep
      exact hp.setAndPropagateInvalid hi (by simp [hinv])
    case isFalse hinv =>
    split at hstep
    case isFalse => cases hstep; exact ht
    case isTrue hr =>
    have hbelow : (t.arena index).graphStatus ≠ .blockGraphReady := by
      have hlt := (hready hr).below
      revert hlt
      cases (t.arena index).graphStatus <;> decide
    have hh : PropInv hs { p with queue, inner := t.setGraphStatus index .blockHeaderGraphReady } :=
      ht.withInner (ht.graph.setGraphStatus_below hit hbelow (by decide)) rfl fun j hj => by
        have hji : j ≠ index := by
          rintro rfl
          exact hinv (by rw [← hw.graphStatus]; exact (ht.invalid j hj).2)
        simp [hji]
    have hit' : index ∈ (t.setGraphStatus index .blockHeaderGraphReady).keys := hit
    split at hstep
    case isTrue hv =>
      cases hstep
      exact hh.invalidate hit' (by simp)
    case isFalse hv =>
    cases hstep
    rw [if_neg Bool.false_ne_true]
    -- what hangs below and is not yet header-graph-ready is queued
    have hq : ∀ (f g : Nat → Bool), ∀ j ∈ queue ++
        ((t.setGraphStatus index .blockHeaderGraphReady).arena index).children.filter f ++
        ((t.setGraphStatus index .blockHeaderGraphReady).arena index).referrers.filter g,
        j ∈ t.keys := by
      intro f g j hj
      simp only [List.mem_append, List.mem_filter] at hj
      rcases hj with (hj | ⟨hj, -⟩) | ⟨hj, -⟩
      · exact ht.queue j hj
      · exact (hh.graph.links.children_mem index hit' j hj).1
      · exact (hh.graph.links.referrers_mem index hit' j hj).1
    -- the relay list, then the old-era frontier
    split <;> split
    · exact (hh.pushOldEraBlocksFrontier hit' ‹_›).of_eq rfl rfl rfl (hq _ _)
    · exact hh.of_eq rfl rfl rfl (hq _ _)
    · exact (hh.pushOldEraBlocksFrontier hit' ‹_›).of_eq rfl rfl rfl (hq _ _)
    · exact hh.of_eq rfl rfl rfl (hq _ _)

/-- `propagate_graph_status` returns the propagation whose queue ran empty. -/
theorem propagateGraphStatusStep_done {v : Verifier} {a : Propagation}
    (h : propagateGraphStatusStep v p = .done a) : a = p := by
  unfold propagateGraphStatusStep at h
  split at h
  · cases h; rfl
  · dsimp only at h
    split_ifs at h

/-- `propagate_header_graph_status` returns the propagation whose queue ran empty. -/
theorem propagateHeaderGraphStatusStep_done {v : Verifier} {needToVerify insertToConsensus : Bool}
    {a : Propagation} (h : propagateHeaderGraphStatusStep v needToVerify insertToConsensus p = .done a) :
    a = p := by
  unfold propagateHeaderGraphStatusStep at h
  split at h
  · cases h; rfl
  · dsimp only at h
    split_ifs at h

/-- What `propagate_graph_status` returns keeps the invariant, whatever the fuel. -/
theorem PropInv.propagateGraphStatus {v : Verifier} {inner : SynchronizationGraphInner}
    {frontier : List Nat} {fuel : Nat} (h : GraphInv hs inner sent)
    (hf : ∀ i ∈ frontier, i ∈ inner.keys) (hrun : propagateGraphStatus v inner sent frontier fuel = .ok p) :
    PropInv hs p := by
  unfold Mazze.Sync.propagateGraphStatus at hrun
  refine Loop.run_inv (PropInv hs) (PropInv hs) (fun _ _ hq hstep => hq.propagateGraphStatusStep hstep)
    (fun q a hq hdone => ?_) (PropInv.start h hf) (ofFuel_eq_ok hrun)
  rw [propagateGraphStatusStep_done hdone]
  exact hq

/-- What `propagate_header_graph_status` returns, with `insert_to_consensus` off, keeps the
    invariant, whatever the fuel. -/
theorem PropInv.propagateHeaderGraphStatus {v : Verifier} {inner : SynchronizationGraphInner}
    {frontier : List Nat} {needToVerify : Bool} {fuel : Nat} (h : GraphInv hs inner sent)
    (hf : ∀ i ∈ frontier, i ∈ inner.keys)
    (hrun : propagateHeaderGraphStatus v inner sent frontier needToVerify false fuel = .ok p) :
    PropInv hs p := by
  unfold Mazze.Sync.propagateHeaderGraphStatus at hrun
  refine Loop.run_inv (PropInv hs) (PropInv hs)
    (fun _ _ hq hstep => hq.propagateHeaderGraphStatusStep hstep)
    (fun q a hq hdone => ?_) (PropInv.start h hf) (ofFuel_eq_ok hrun)
  rw [propagateHeaderGraphStatusStep_done hdone]
  exact hq

end Mazze.Sync
