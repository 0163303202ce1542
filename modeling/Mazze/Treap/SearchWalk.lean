import Mathlib
import Mazze.Treap.SearchSpec

/-!
# Walks that stop at the last or the first accepted node

`SearchSpec` reads the walk of `accumulate_weight_search` for callbacks that go `Right` with
the weight through the node. The nonce pool writes its searches a second way: the callback
turns `Right` past some first nodes, answers `RightOrStop` (or `Stop`) while the nodes are
acceptable, and `Left` after the last acceptable one. The walk then keeps the last node it
accepted as its candidate, and returns it (`accumulateWeightSearch_lastAccepted`).

The pool's `leftmost` and `succ` are the mirror image: the callback turns `Right` past the
first nodes and answers `LeftOrStop` from the first acceptable node on, so the walk ends at
that node (`FirstAccepted`, `searchNoWeight_firstAccepted`).

The pool's readiness search also runs in `Option`, since its callback subtracts and may panic.
`searchFromM_eq_pure` reads such a walk as the pure one whenever the callback answers with
`pure` at every node of the tree, with the weight before it: those are the only points a walk
visits.
-/

set_option autoImplicit false

namespace Mazze.Treap

variable {K S V W E : Type} {C : TreapMapConfig K S V W E}

section Walk

variable (hassoc : ∀ a b c, C.consolidate (C.consolidate a b) c = C.consolidate a (C.consolidate b c))
  (hcomm : ∀ a b, C.consolidate a b = C.consolidate b a)
include hassoc hcomm

/-- The weight a right turn carries on, for a subtree between `pre` and whatever follows. -/
theorem rightWeight_eq {f : W → Node K S V W → SearchDirection W}
    (hf : ∀ b n w, (f b n = .right w ∨ f b n = .rightOrStop w) → w = C.consolidate b n.weight)
    {node : Node K S V W} {l : Tree K S V W} (hl : SumsOk C l) {base w : W}
    {pre : List (Node K S V W)} (hb : base = accumulate C C.empty pre)
    (hd : f (accureChild C base l) node = .right w ∨ f (accureChild C base l) node = .rightOrStop w) :
    w = accumulate C C.empty (pre ++ l.toList ++ [node]) := by
  rw [hf _ _ _ hd, leftWeight_eq hassoc hcomm hl hb]
  simp

/-- The callback answers `pure` at the node of a subtree, given that it does at every node of
    the tree with the weight before it. -/
theorem pure_at_node {m : Type → Type} [Monad m] {f : W → Node K S V W → m (SearchDirection W)}
    {g : W → Node K S V W → SearchDirection W} {node : Node K S V W} {l r : Tree K S V W}
    {base : W} {pre post : List (Node K S V W)} (hl : SumsOk C l)
    (hb : base = accumulate C C.empty pre)
    (hpure : ∀ ys x zs, pre ++ (l.toList ++ node :: r.toList) ++ post = ys ++ x :: zs →
      f (accumulate C C.empty ys) x = pure (g (accumulate C C.empty ys) x)) :
    f (accureChild C base l) node = pure (g (accureChild C base l) node) := by
  rw [leftWeight_eq hassoc hcomm hl hb]
  exact hpure (pre ++ l.toList) node (r.toList ++ post) (by simp)

/-- **A monadic walk that never fails is the pure walk.** If at every node of the tree, with
    the weight of the nodes before it, the callback `f` answers `pure` of what `g` answers, the
    walk with `f` answers `pure` of the walk with `g`. The induction is the recursion of
    `searchFrom`; the subtree stands between `pre` and `post`. -/
theorem searchFromM_eq_pure {m : Type → Type} [Monad m] [LawfulMonad m]
    {f : W → Node K S V W → m (SearchDirection W)} {g : W → Node K S V W → SearchDirection W}
    (hg : ∀ b n w, (g b n = .right w ∨ g b n = .rightOrStop w) → w = C.consolidate b n.weight)
    (node : Node K S V W) (l r : Tree K S V W) (base : W) (cand : Option (SearchResult K S V W))
    (allLeft allRight : Bool) :
    ∀ pre post : List (Node K S V W), SumsOk C (.node node l r) →
      base = accumulate C C.empty pre →
      (∀ ys x zs, pre ++ (l.toList ++ node :: r.toList) ++ post = ys ++ x :: zs →
        f (accumulate C C.empty ys) x = pure (g (accumulate C C.empty ys) x)) →
      searchFromM C f node l r base cand allLeft allRight =
        pure (searchFrom C g node l r base cand allLeft allRight) := by
  fun_induction searchFrom C g node l r base cand allLeft allRight with
  | case1 node l r base cand aL aR lw hd =>
    intro pre post hs hb hpure
    have hd' : g (accureChild C base l) node = .abort := hd
    rw [searchFromM.eq_def]
    simp only [pure_at_node hassoc hcomm hs.2.1 hb hpure, hd', pure_bind]
  | case2 node l r base cand aL aR lw found hd =>
    intro pre post hs hb hpure
    have hd' : g (accureChild C base l) node = .stop := hd
    rw [searchFromM.eq_def]
    simp only [pure_at_node hassoc hcomm hs.2.1 hb hpure, hd', pure_bind]
    rfl
  | case3 node r base cand aL aR n l' r' lw hd ih =>
    -- on into the left child, which stands before `node` and its right subtree
    intro pre post hs hb hpure
    have hd' : g (accureChild C base (.node n l' r')) node = .left := hd
    have hall : pre ++ ((BinTree.node n l' r').toList ++ node :: r.toList) ++ post =
        pre ++ (l'.toList ++ n :: r'.toList) ++ (node :: r.toList ++ post) := by simp
    rw [searchFromM.eq_def]
    simp only [pure_at_node hassoc hcomm hs.2.1 hb hpure, hd', pure_bind]
    exact ih pre _ hs.2.1 hb (hall ▸ hpure)
  | case4 node r base cand aL aR lw hd =>
    intro pre post hs hb hpure
    have hd' : g (accureChild C base .nil) node = .left := hd
    rw [searchFromM.eq_def]
    simp only [pure_at_node hassoc hcomm hs.2.1 hb hpure, hd', pure_bind]
  | case5 node r base cand aL aR n l' r' lw found hd ih =>
    intro pre post hs hb hpure
    have hd' : g (accureChild C base (.node n l' r')) node = .leftOrStop := hd
    have hall : pre ++ ((BinTree.node n l' r').toList ++ node :: r.toList) ++ post =
        pre ++ (l'.toList ++ n :: r'.toList) ++ (node :: r.toList ++ post) := by simp
    rw [searchFromM.eq_def]
    simp only [pure_at_node hassoc hcomm hs.2.1 hb hpure, hd', pure_bind]
    exact ih pre _ hs.2.1 hb (hall ▸ hpure)
  | case6 node r base cand aL aR lw found hd =>
    intro pre post hs hb hpure
    have hd' : g (accureChild C base .nil) node = .leftOrStop := hd
    rw [searchFromM.eq_def]
    simp only [pure_at_node hassoc hcomm hs.2.1 hb hpure, hd', pure_bind]
    rfl
  | case7 node l base cand aL aR lw w hd n l' r' ih =>
    -- on into the right child, with the weight through `node`
    intro pre post hs hb hpure
    have hd' : g (accureChild C base l) node = .right w := hd
    have hw := rightWeight_eq hassoc hcomm hg hs.2.1 hb (.inl hd')
    have hall : pre ++ (l.toList ++ node :: (BinTree.node n l' r').toList) ++ post =
        (pre ++ l.toList ++ [node]) ++ (l'.toList ++ n :: r'.toList) ++ post := by simp
    rw [searchFromM.eq_def]
    simp only [pure_at_node hassoc hcomm hs.2.1 hb hpure, hd', pure_bind]
    exact ih _ post hs.2.2 hw (hall ▸ hpure)
  | case8 node l base cand aL aR lw w hd =>
    intro pre post hs hb hpure
    have hd' : g (accureChild C base l) node = .right w := hd
    rw [searchFromM.eq_def]
    simp only [pure_at_node hassoc hcomm hs.2.1 hb hpure, hd', pure_bind]
  | case9 node l base cand aL aR lw found w hd n l' r' ih =>
    intro pre post hs hb hpure
    have hd' : g (accureChild C base l) node = .rightOrStop w := hd
    have hw := rightWeight_eq hassoc hcomm hg hs.2.1 hb (.inr hd')
    have hall : pre ++ (l.toList ++ node :: (BinTree.node n l' r').toList) ++ post =
        (pre ++ l.toList ++ [node]) ++ (l'.toList ++ n :: r'.toList) ++ post := by simp
    rw [searchFromM.eq_def]
    simp only [pure_at_node hassoc hcomm hs.2.1 hb hpure, hd', pure_bind]
    exact ih _ post hs.2.2 hw (hall ▸ hpure)
  | case10 node l base cand aL aR lw found w hd =>
    intro pre post hs hb hpure
    have hd' : g (accureChild C base l) node = .rightOrStop w := hd
    rw [searchFromM.eq_def]
    simp only [pure_at_node hassoc hcomm hs.2.1 hb hpure, hd', pure_bind]
    rfl

/-- The monadic walk from the root is `pure` of the pure walk when the callback answers `pure`
    at every node of the tree, with the weight before it. -/
theorem accumulateWeightSearchM_eq_pure {m : Type → Type} [Monad m] [LawfulMonad m]
    {f : W → Node K S V W → m (SearchDirection W)} {g : W → Node K S V W → SearchDirection W}
    (hg : ∀ b n w, (g b n = .right w ∨ g b n = .rightOrStop w) → w = C.consolidate b n.weight)
    (root : Node K S V W) (l r : Tree K S V W) (hs : SumsOk C (.node root l r))
    (hpure : ∀ ys x zs, (BinTree.node root l r).toList = ys ++ x :: zs →
      f (accumulate C C.empty ys) x = pure (g (accumulate C C.empty ys) x)) :
    accumulateWeightSearchM C f root l r = pure (accumulateWeightSearch C g root l r) :=
  searchFromM_eq_pure hassoc hcomm hg root l r C.empty none true true [] [] hs rfl
    fun ys x zs h => hpure ys x zs (by simpa using h)

end Walk

/-! ## The last accepted node -/

/-- Two splits of one list at the same length split it at the same node. -/
theorem split_unique {all ys ys' zs zs' : List (Node K S V W)} {x x' : Node K S V W}
    (h : all = ys ++ x :: zs) (h' : all = ys' ++ x' :: zs') (hlen : ys.length = ys'.length) :
    ys = ys' ∧ x = x' := by
  obtain ⟨hys, hrest⟩ := List.append_inj (h.symm.trans h') hlen
  exact ⟨hys, (List.cons.inj hrest).1⟩

variable (C) in
/-- The shape of a search for the last acceptable node of `all`: at the node of position `i`,
    with the weight of the nodes before it, the callback turns `Right` for `i < a`, accepts the
    node (`RightOrStop`, or `Stop` at the last acceptable one) for `a ≤ i < b`, and turns `Left`
    from `b` on. -/
structure LastAccepted (f : W → Node K S V W → SearchDirection W) (all : List (Node K S V W))
    (a b : Nat) : Prop where
  le : a ≤ b
  right : ∀ ys x zs, all = ys ++ x :: zs → ys.length < a →
    ∃ w, f (accumulate C C.empty ys) x = .right w
  accept : ∀ ys x zs, all = ys ++ x :: zs → a ≤ ys.length → ys.length < b →
    (∃ w, f (accumulate C C.empty ys) x = .rightOrStop w) ∨
      (ys.length + 1 = b ∧ f (accumulate C C.empty ys) x = .stop)
  left : ∀ ys x zs, all = ys ++ x :: zs → b ≤ ys.length → f (accumulate C C.empty ys) x = .left

/-- What the callback of a `LastAccepted` search can say at one node. -/
theorem LastAccepted.cases {f : W → Node K S V W → SearchDirection W}
    {all : List (Node K S V W)} {a b : Nat} (h : LastAccepted C f all a b)
    {ys zs : List (Node K S V W)} {x : Node K S V W} (hall : all = ys ++ x :: zs) :
    (ys.length < a ∧ ∃ w, f (accumulate C C.empty ys) x = .right w) ∨
      (a ≤ ys.length ∧ ys.length < b ∧ ∃ w, f (accumulate C C.empty ys) x = .rightOrStop w) ∨
      (ys.length + 1 = b ∧ f (accumulate C C.empty ys) x = .stop) ∨
      (b ≤ ys.length ∧ f (accumulate C C.empty ys) x = .left) := by
  rcases Nat.lt_or_ge ys.length a with hlt | hge
  · exact .inl ⟨hlt, h.right ys x zs hall hlt⟩
  rcases Nat.lt_or_ge ys.length b with hlt' | hge'
  · rcases h.accept ys x zs hall hge hlt' with hro | hstop
    · exact .inr (.inl ⟨hge, hlt', hro⟩)
    · exact .inr (.inr (.inl hstop))
  · exact .inr (.inr (.inr ⟨hge', h.left ys x zs hall hge'⟩))

section LastWalk

variable (hassoc : ∀ a b c, C.consolidate (C.consolidate a b) c = C.consolidate a (C.consolidate b c))
  (hcomm : ∀ a b, C.consolidate a b = C.consolidate b a)
include hassoc hcomm

/-- What the callback of a `LastAccepted` search says at the node of a subtree, with the
    weight the walk brings there. -/
theorem LastAccepted.cases_at {f : W → Node K S V W → SearchDirection W}
    {all : List (Node K S V W)} {a b : Nat} (hla : LastAccepted C f all a b)
    {node : Node K S V W} {l r : Tree K S V W} {base : W} {pre post : List (Node K S V W)}
    (hall : all = pre ++ (l.toList ++ node :: r.toList) ++ post) (hl : SumsOk C l)
    (hb : base = accumulate C C.empty pre) :
    ((pre ++ l.toList).length < a ∧ ∃ w, f (accureChild C base l) node = .right w) ∨
      (a ≤ (pre ++ l.toList).length ∧ (pre ++ l.toList).length < b ∧
        ∃ w, f (accureChild C base l) node = .rightOrStop w) ∨
      ((pre ++ l.toList).length + 1 = b ∧ f (accureChild C base l) node = .stop) ∨
      (b ≤ (pre ++ l.toList).length ∧ f (accureChild C base l) node = .left) := by
  rw [leftWeight_eq hassoc hcomm hl hb]
  have hsplit : all = (pre ++ l.toList) ++ node :: (r.toList ++ post) := by simp [hall]
  exact hla.cases hsplit

/-- **The step lemma of a `LastAccepted` search, by the recursion of `searchFrom`.** The answer
    `tgt` is the node of position `b - 1` (with the weight before it) or, for `b = 0`, the left
    end. A call on a subtree between `pre` and `post`, where that position is not in `post`,
    and whose candidate and flags already give `tgt` when the position is in `pre`, answers
    `tgt`. -/
theorem searchFrom_lastAccepted {f : W → Node K S V W → SearchDirection W}
    (hf : ∀ b n w, (f b n = .right w ∨ f b n = .rightOrStop w) → w = C.consolidate b n.weight)
    {all : List (Node K S V W)} {a b : Nat} (hla : LastAccepted C f all a b) (hab : a < b ∨ b = 0)
    {tgt : SearchResult K S V W}
    (htgt : ∀ ys x zs, all = ys ++ x :: zs → ys.length + 1 = b →
      tgt = .found (accumulate C C.empty ys) x)
    (node : Node K S V W) (l r : Tree K S V W) (base : W) (cand : Option (SearchResult K S V W))
    (allLeft allRight : Bool) :
    ∀ pre post : List (Node K S V W), all = pre ++ (l.toList ++ node :: r.toList) ++ post →
      SumsOk C (.node node l r) → base = accumulate C C.empty pre →
      b ≤ pre.length + (l.toList ++ node :: r.toList).length →
      (b ≤ pre.length → searchEnd cand allLeft false none = tgt) →
      searchFrom C f node l r base cand allLeft allRight = tgt := by
  fun_induction searchFrom C f node l r base cand allLeft allRight with
  | case1 node l r base cand aL aR lw hd =>
    intro pre post hall hs hb _ _
    have hd' : f (accureChild C base l) node = .abort := hd
    rcases hla.cases_at hassoc hcomm hall hs.2.1 hb with ⟨-, w, h⟩ | ⟨-, -, w, h⟩ | ⟨-, h⟩ | ⟨-, h⟩ <;>
      rw [hd'] at h <;> cases h
  | case2 node l r base cand aL aR lw found hd =>
    -- a stop is at the last acceptable node
    intro pre post hall hs hb _ _
    have hd' : f (accureChild C base l) node = .stop := hd
    rcases hla.cases_at hassoc hcomm hall hs.2.1 hb with ⟨-, w, h⟩ | ⟨-, -, w, h⟩ | ⟨hi, -⟩ | ⟨-, h⟩
    · rw [hd'] at h; cases h
    · rw [hd'] at h; cases h
    · rw [htgt (pre ++ l.toList) node (r.toList ++ post) (by simp [hall]) hi,
        ← leftWeight_eq hassoc hcomm hs.2.1 hb]
    · rw [hd'] at h; cases h
  | case3 node r base cand aL aR n l' r' lw hd ih =>
    -- a left turn: the answer's position is in the left child or before it
    intro pre post hall hs hb _ hinv
    have hd' : f (accureChild C base (.node n l' r')) node = .left := hd
    rcases hla.cases_at hassoc hcomm hall hs.2.1 hb with ⟨-, w, h⟩ | ⟨-, -, w, h⟩ | ⟨-, h⟩ | ⟨hi, -⟩
    · rw [hd'] at h; cases h
    · rw [hd'] at h; cases h
    · rw [hd'] at h; cases h
    · refine ih pre (node :: r.toList ++ post) (by simp [hall]) hs.2.1 hb ?_ hinv
      simpa using hi
  | case4 node r base cand aL aR lw hd =>
    intro pre post hall hs hb _ hinv
    have hd' : f (accureChild C base .nil) node = .left := hd
    rcases hla.cases_at hassoc hcomm hall hs.2.1 hb with ⟨-, w, h⟩ | ⟨-, -, w, h⟩ | ⟨-, h⟩ | ⟨hi, -⟩
    · rw [hd'] at h; cases h
    · rw [hd'] at h; cases h
    · rw [hd'] at h; cases h
    · exact hinv (by simpa using hi)
  | case5 node r base cand aL aR n l' r' lw found hd ih =>
    intro pre post hall hs hb _ _
    have hd' : f (accureChild C base (.node n l' r')) node = .leftOrStop := hd
    rcases hla.cases_at hassoc hcomm hall hs.2.1 hb with ⟨-, w, h⟩ | ⟨-, -, w, h⟩ | ⟨-, h⟩ | ⟨-, h⟩ <;>
      rw [hd'] at h <;> cases h
  | case6 node r base cand aL aR lw found hd =>
    intro pre post hall hs hb _ _
    have hd' : f (accureChild C base .nil) node = .leftOrStop := hd
    rcases hla.cases_at hassoc hcomm hall hs.2.1 hb with ⟨-, w, h⟩ | ⟨-, -, w, h⟩ | ⟨-, h⟩ | ⟨-, h⟩ <;>
      rw [hd'] at h <;> cases h
  | case7 node l base cand aL aR lw w hd n l' r' ih =>
    -- a right turn before the first acceptable node: the answer is further right
    intro pre post hall hs hb hlen _
    have hd' : f (accureChild C base l) node = .right w := hd
    rcases hla.cases_at hassoc hcomm hall hs.2.1 hb with ⟨hi, -⟩ | ⟨-, -, w', h⟩ | ⟨-, h⟩ | ⟨-, h⟩
    · refine ih (pre ++ l.toList ++ [node]) post (by simp [hall]) hs.2.2
        (rightWeight_eq hassoc hcomm hf hs.2.1 hb (.inl hd')) (by simp at hlen ⊢; omega) fun hle => ?_
      simp only [List.length_append, List.length_cons, List.length_nil] at hi hle
      have := hla.le
      omega
    · rw [hd'] at h; cases h
    · rw [hd'] at h; cases h
    · rw [hd'] at h; cases h
  | case8 node l base cand aL aR lw w hd =>
    intro pre post hall hs hb hlen _
    have hd' : f (accureChild C base l) node = .right w := hd
    rcases hla.cases_at hassoc hcomm hall hs.2.1 hb with ⟨hi, -⟩ | ⟨-, -, w', h⟩ | ⟨-, h⟩ | ⟨-, h⟩
    · simp only [List.length_append, List.length_cons, BinTree.toList_nil, List.length_nil] at hi hlen
      have := hla.le
      omega
    · rw [hd'] at h; cases h
    · rw [hd'] at h; cases h
    · rw [hd'] at h; cases h
  | case9 node l base cand aL aR lw found w hd n l' r' ih =>
    -- an acceptable node becomes the candidate
    intro pre post hall hs hb hlen _
    have hd' : f (accureChild C base l) node = .rightOrStop w := hd
    rcases hla.cases_at hassoc hcomm hall hs.2.1 hb with ⟨-, w', h⟩ | ⟨-, hi, -⟩ | ⟨-, h⟩ | ⟨-, h⟩
    · rw [hd'] at h; cases h
    · refine ih (pre ++ l.toList ++ [node]) post (by simp [hall]) hs.2.2
        (rightWeight_eq hassoc hcomm hf hs.2.1 hb (.inr hd')) (by simp at hlen ⊢; omega) fun hle => ?_
      have hb' : (pre ++ l.toList).length + 1 = b := by simp at hi hle ⊢; omega
      rw [htgt (pre ++ l.toList) node ((BinTree.node n l' r').toList ++ post) (by simp [hall]) hb',
        ← leftWeight_eq hassoc hcomm hs.2.1 hb]
      rfl
    · rw [hd'] at h; cases h
    · rw [hd'] at h; cases h
  | case10 node l base cand aL aR lw found w hd =>
    intro pre post hall hs hb hlen _
    have hd' : f (accureChild C base l) node = .rightOrStop w := hd
    rcases hla.cases_at hassoc hcomm hall hs.2.1 hb with ⟨-, w', h⟩ | ⟨-, hi, -⟩ | ⟨-, h⟩ | ⟨-, h⟩
    · rw [hd'] at h; cases h
    · have hb' : (pre ++ l.toList).length + 1 = b := by
        simp only [List.length_append, List.length_cons, BinTree.toList_nil, List.length_nil] at hi hlen ⊢
        omega
      rw [htgt (pre ++ l.toList) node post (by simp [hall]) hb',
        ← leftWeight_eq hassoc hcomm hs.2.1 hb]
      rfl
    · rw [hd'] at h; cases h
    · rw [hd'] at h; cases h

/-- **A `LastAccepted` search from the root.** When some node is accepted, the walk finds the
    one at position `b - 1`, with the weight before it; when every node turns it left, it
    returns the left end. -/
theorem accumulateWeightSearch_lastAccepted {f : W → Node K S V W → SearchDirection W}
    (hf : ∀ b n w, (f b n = .right w ∨ f b n = .rightOrStop w) → w = C.consolidate b n.weight)
    (root : Node K S V W) (l r : Tree K S V W) (hs : SumsOk C (.node root l r)) {a b : Nat}
    (hla : LastAccepted C f (BinTree.node root l r).toList a b) :
    (a < b → ∀ ys x zs, (BinTree.node root l r).toList = ys ++ x :: zs → ys.length + 1 = b →
      accumulateWeightSearch C f root l r = .found (accumulate C C.empty ys) x) ∧
    (b = 0 → accumulateWeightSearch C f root l r = .leftMost) := by
  have hroot : (BinTree.node root l r).toList = [] ++ (l.toList ++ root :: r.toList) ++ [] := by
    simp
  constructor
  · intro hab ys x zs hall hb
    have hlen : b ≤ (l.toList ++ root :: r.toList).length := by
      have := congrArg List.length hall
      simp at this ⊢
      omega
    refine searchFrom_lastAccepted hassoc hcomm hf hla (.inl hab) (fun ys' x' zs' h' hb' => ?_)
      root l r C.empty none true true [] [] hroot hs rfl (by simpa using hlen) fun h0 => ?_
    · obtain ⟨rfl, rfl⟩ := split_unique hall h' (by omega)
      rfl
    · simp at h0
      omega
  · intro hb0
    exact searchFrom_lastAccepted hassoc hcomm hf hla (.inr hb0) (fun _ _ _ _ h => by omega)
      root l r C.empty none true true [] [] hroot hs rfl (by omega) fun _ => rfl

end LastWalk

/-! ## The first accepted node -/

/-- What a walk answers at a vacant slot is the candidate's value, if any. -/
theorem maybeValue_searchEnd (cand : Option (SearchResult K S V W)) (allLeft allRight : Bool)
    (rightWeight : Option W) :
    (searchEnd cand allLeft allRight rightWeight).maybeValue = cand.bind SearchResult.maybeValue := by
  cases cand with
  | some c => rfl
  | none =>
    unfold searchEnd
    split_ifs <;> first | rfl | (cases rightWeight <;> rfl)

/-- The element after a split of a list is at the split's position. -/
theorem getElem?_of_split {all ys zs : List (Node K S V W)} {x : Node K S V W}
    (h : all = ys ++ x :: zs) : all[ys.length]? = some x := by
  rw [h, List.getElem?_append_right (Nat.le_refl _), Nat.sub_self]
  rfl

/-- The shape of a walk for the first acceptable node of `all`, whatever the weights: at the
    node of position `i` the callback turns `Right` for `i < a` and answers `LeftOrStop` from
    `a` on. -/
structure FirstAccepted (f : W → Node K S V W → SearchDirection W) (all : List (Node K S V W))
    (a : Nat) : Prop where
  le : a ≤ all.length
  right : ∀ b ys x zs, all = ys ++ x :: zs → ys.length < a → ∃ w, f b x = .right w
  accept : ∀ b ys x zs, all = ys ++ x :: zs → a ≤ ys.length → f b x = .leftOrStop

/-- What the callback of a `FirstAccepted` walk can say at one node. -/
theorem FirstAccepted.cases {f : W → Node K S V W → SearchDirection W}
    {all : List (Node K S V W)} {a : Nat} (h : FirstAccepted f all a) (b : W)
    {ys zs : List (Node K S V W)} {x : Node K S V W} (hall : all = ys ++ x :: zs) :
    (ys.length < a ∧ ∃ w, f b x = .right w) ∨ (a ≤ ys.length ∧ f b x = .leftOrStop) := by
  rcases Nat.lt_or_ge ys.length a with hlt | hge
  · exact .inl ⟨hlt, h.right b ys x zs hall hlt⟩
  · exact .inr ⟨hge, h.accept b ys x zs hall hge⟩

/-- What the callback of a `FirstAccepted` walk says at the node of a subtree. -/
theorem FirstAccepted.cases_at {f : W → Node K S V W → SearchDirection W}
    {all : List (Node K S V W)} {a : Nat} (h : FirstAccepted f all a) (b : W)
    {node : Node K S V W} {l r : Tree K S V W} {pre post : List (Node K S V W)}
    (hall : all = pre ++ (l.toList ++ node :: r.toList) ++ post) :
    ((pre ++ l.toList).length < a ∧ ∃ w, f b node = .right w) ∨
      (a ≤ (pre ++ l.toList).length ∧ f b node = .leftOrStop) := by
  have hsplit : all = (pre ++ l.toList) ++ node :: (r.toList ++ post) := by simp [hall]
  exact h.cases b hsplit

/-- **The step lemma of a `FirstAccepted` walk, by the recursion of `searchFrom`.** A call on a
    subtree between `pre` and `post` whose span holds position `a`, and whose candidate answers
    for `a` when `a` is just past the subtree, answers the value at `a` (none past the end). -/
theorem searchFrom_firstAccepted {f : W → Node K S V W → SearchDirection W}
    {all : List (Node K S V W)} {a : Nat} (hfa : FirstAccepted f all a)
    (node : Node K S V W) (l r : Tree K S V W) (base : W) (cand : Option (SearchResult K S V W))
    (allLeft allRight : Bool) :
    ∀ pre post : List (Node K S V W), all = pre ++ (l.toList ++ node :: r.toList) ++ post →
      pre.length ≤ a → a ≤ pre.length + (l.toList ++ node :: r.toList).length →
      (a = pre.length + (l.toList ++ node :: r.toList).length →
        cand.bind SearchResult.maybeValue = all[a]?.map fun n => n.value) →
      (searchFrom C f node l r base cand allLeft allRight).maybeValue =
        all[a]?.map fun n => n.value := by
  fun_induction searchFrom C f node l r base cand allLeft allRight with
  | case1 node l r base cand aL aR lw hd =>
    intro pre post hall _ _ _
    have hd' : f (accureChild C base l) node = .abort := hd
    rcases hfa.cases_at (accureChild C base l) hall with ⟨-, w, h⟩ | ⟨-, h⟩ <;> rw [hd'] at h <;> cases h
  | case2 node l r base cand aL aR lw found hd =>
    intro pre post hall _ _ _
    have hd' : f (accureChild C base l) node = .stop := hd
    rcases hfa.cases_at (accureChild C base l) hall with ⟨-, w, h⟩ | ⟨-, h⟩ <;> rw [hd'] at h <;> cases h
  | case3 node r base cand aL aR n l' r' lw hd ih =>
    intro pre post hall _ _ _
    have hd' : f (accureChild C base (.node n l' r')) node = .left := hd
    rcases hfa.cases_at (accureChild C base (.node n l' r')) hall with ⟨-, w, h⟩ | ⟨-, h⟩ <;> rw [hd'] at h <;> cases h
  | case4 node r base cand aL aR lw hd =>
    intro pre post hall _ _ _
    have hd' : f (accureChild C base .nil) node = .left := hd
    rcases hfa.cases_at (accureChild C base .nil) hall with ⟨-, w, h⟩ | ⟨-, h⟩ <;> rw [hd'] at h <;> cases h
  | case5 node r base cand aL aR n l' r' lw found hd ih =>
    -- an acceptable node becomes the candidate; the answer is it or left of it
    intro pre post hall hpre _ _
    have hd' : f (accureChild C base (.node n l' r')) node = .leftOrStop := hd
    rcases hfa.cases_at (accureChild C base (.node n l' r')) hall with ⟨-, w, h⟩ | ⟨hi, -⟩
    · rw [hd'] at h; cases h
    · refine ih pre (node :: r.toList ++ post) (by simp [hall]) hpre (by simpa using hi)
        fun ha => ?_
      have hsplit : all = (pre ++ (BinTree.node n l' r').toList) ++ node :: (r.toList ++ post) := by
        simp [hall]
      have ha' : a = (pre ++ (BinTree.node n l' r').toList).length := by simp [ha]
      rw [ha', getElem?_of_split hsplit]
      rfl
  | case6 node r base cand aL aR lw found hd =>
    intro pre post hall hpre _ _
    have hd' : f (accureChild C base .nil) node = .leftOrStop := hd
    rcases hfa.cases_at (accureChild C base .nil) hall with ⟨-, w, h⟩ | ⟨hi, -⟩
    · rw [hd'] at h; cases h
    · -- no left child: the node is at position `a`
      have hsplit : all = (pre ++ (BinTree.nil : Tree K S V W).toList) ++ node :: (r.toList ++ post) := by
        simp [hall]
      have ha : a = (pre ++ (BinTree.nil : Tree K S V W).toList).length := by
        simp only [BinTree.toList_nil, List.append_nil] at hi ⊢
        omega
      rw [maybeValue_searchEnd, ha, getElem?_of_split hsplit]
      rfl
  | case7 node l base cand aL aR lw w hd n l' r' ih =>
    -- a right turn: position `a` lies in the right child, or just past it
    intro pre post hall hpre hle hcand
    have hd' : f (accureChild C base l) node = .right w := hd
    rcases hfa.cases_at (accureChild C base l) hall with ⟨hi, -⟩ | ⟨-, h⟩
    · refine ih (pre ++ l.toList ++ [node]) post (by simp [hall]) (by simp at hi ⊢; omega)
        (by simp at hle ⊢; omega) fun ha => hcand (by simp at ha ⊢; omega)
    · rw [hd'] at h; cases h
  | case8 node l base cand aL aR lw w hd =>
    intro pre post hall hpre hle hcand
    have hd' : f (accureChild C base l) node = .right w := hd
    rcases hfa.cases_at (accureChild C base l) hall with ⟨hi, -⟩ | ⟨-, h⟩
    · -- no right child: position `a` is just past the subtree
      rw [maybeValue_searchEnd]
      exact hcand (by simp at hi hle ⊢; omega)
    · rw [hd'] at h; cases h
  | case9 node l base cand aL aR lw found w hd n l' r' ih =>
    intro pre post hall _ _ _
    have hd' : f (accureChild C base l) node = .rightOrStop w := hd
    rcases hfa.cases_at (accureChild C base l) hall with ⟨-, w, h⟩ | ⟨-, h⟩ <;> rw [hd'] at h <;> cases h
  | case10 node l base cand aL aR lw found w hd =>
    intro pre post hall _ _ _
    have hd' : f (accureChild C base l) node = .rightOrStop w := hd
    rcases hfa.cases_at (accureChild C base l) hall with ⟨-, w, h⟩ | ⟨-, h⟩ <;> rw [hd'] at h <;> cases h

/-- **A `FirstAccepted` walk from the root** answers the value at position `a`, and nothing when
    every node turns it right. -/
theorem accumulateWeightSearch_firstAccepted {f : W → Node K S V W → SearchDirection W}
    (root : Node K S V W) (l r : Tree K S V W) {a : Nat}
    (hfa : FirstAccepted f (BinTree.node root l r).toList a) :
    (accumulateWeightSearch C f root l r).maybeValue =
      (BinTree.node root l r).toList[a]?.map fun n => n.value := by
  have hlen := hfa.le
  refine searchFrom_firstAccepted hfa root l r C.empty none true true [] [] (by simp)
    (Nat.zero_le a) (by simpa using hlen) fun ha => ?_
  -- past the last node there is nothing to answer
  rw [List.getElem?_eq_none (by simp [ha])]
  rfl

/-- `search_no_weight` with a callback that turns `Right` before position `a` and answers
    `LeftOrStop` from it on returns the value at position `a`, if any. -/
theorem searchNoWeight_firstAccepted (m : TreapMap K S V W E)
    {f : Node K S V W → SearchDirection Unit} {a : Nat} (ha : a ≤ m.root.toList.length)
    (hright : ∀ ys x zs, m.root.toList = ys ++ x :: zs → ys.length < a → f x = .right ())
    (haccept : ∀ ys x zs, m.root.toList = ys ++ x :: zs → a ≤ ys.length → f x = .leftOrStop) :
    (m.searchNoWeight C f).bind SearchResult.maybeValue = m.root.toList[a]?.map fun n => n.value := by
  unfold TreapMap.searchNoWeight TreapMap.search
  cases hroot : m.root with
  | nil => rfl
  | node root l r =>
    rw [hroot] at ha hright haccept
    refine accumulateWeightSearch_firstAccepted root l r ⟨ha, fun b ys x zs hall hlt => ?_,
      fun b ys x zs hall hge => ?_⟩
    · exact ⟨C.empty, by simp only [hright ys x zs hall hlt]⟩
    · simp only [haccept ys x zs hall hge]

end Mazze.Treap
