import Mathlib
import Mazze.Treap.Runs

/-!
# What `accumulate_weight_search` finds

`treap-map/src/search.rs` documents the weight `f` sees at a node as "the accumulated weight
from the leftmost node to the current node (excluding the current node)". That is true when
the weights commute. `update_weight` sums a node's own weight first, then its left subtree,
then its right subtree, which is not the order of the nodes. When `consolidate` is associative
and commutative, with sums that `update_weight` computed (`SumsOk`), the weight left of a
subtree is the weight of the nodes before it in order (`accureChild_eq_accumulate`); `empty`
need not be a unit, which the packing pool's weight is not on every natural number. The walk then keeps three facts
(`Answers`):

* a node it finds comes with the weight of the nodes before it;
* the right end comes with the total, after a walk that turned right at every node;
* the left end comes after a walk that turned left at every node.

`searchTrace` lists the nodes the walk visits, with the weight `f` saw and what it said.
`prefixSearch` is the pattern the callers write for a predicate closed under prefixes; the
walk stops at the first node whose weight breaks it (`accumulateWeightSearch_prefixSearch`).
With a monoid that does not commute, the weight at a found node is not the weight of the
nodes before it (`accumulateWeightSearch_noncommutative`).
-/

set_option autoImplicit false

namespace Mazze.Treap

variable {K S V W E : Type} (C : TreapMapConfig K S V W E)

/-! ## Weights in order -/

/-- `empty` and `consolidate` make a monoid, as `ConsoliableWeight` documents. -/
structure WeightMonoid : Prop where
  assoc : ∀ a b c, C.consolidate (C.consolidate a b) c = C.consolidate a (C.consolidate b c)
  empty_consolidate : ∀ a, C.consolidate C.empty a = a
  consolidate_empty : ∀ a, C.consolidate a C.empty = a

/-- The weights of `nodes`, consolidated in order onto `base`. -/
def accumulate (base : W) (nodes : List (Node K S V W)) : W :=
  nodes.foldl (fun acc n => C.consolidate acc n.weight) base

/-- Every node's `sum_weight` is what `update_weight` makes of its children's. -/
def SumsOk : Tree K S V W → Prop
  | .nil => True
  | .node n l r => n.sumWeight = accureChild C (accureChild C n.weight l) r ∧ SumsOk l ∧ SumsOk r

instance decidableSumsOk [DecidableEq W] : (t : Tree K S V W) → Decidable (SumsOk C t)
  | .nil => isTrue trivial
  | .node _ l r =>
    haveI := decidableSumsOk l
    haveI := decidableSumsOk r
    inferInstanceAs (Decidable (_ ∧ _ ∧ _))

@[simp] theorem accumulate_nil (base : W) : accumulate C base [] = base := rfl

@[simp] theorem accumulate_append (base : W) (xs ys : List (Node K S V W)) :
    accumulate C base (xs ++ ys) = accumulate C (accumulate C base xs) ys :=
  List.foldl_append

@[simp] theorem accumulate_cons (base : W) (n : Node K S V W) (ys : List (Node K S V W)) :
    accumulate C base (n :: ys) = accumulate C (C.consolidate base n.weight) ys := rfl

theorem accumulate_append_singleton (base : W) (xs : List (Node K S V W)) (m : Node K S V W) :
    accumulate C base (xs ++ [m]) = C.consolidate (accumulate C base xs) m.weight := by
  simp

variable {C}

/-- A weight consolidated before the fold can be taken out in front of it. -/
theorem accumulate_consolidate
    (hassoc : ∀ a b c, C.consolidate (C.consolidate a b) c = C.consolidate a (C.consolidate b c))
    (a b : W) :
    ∀ nodes : List (Node K S V W),
      accumulate C (C.consolidate a b) nodes = C.consolidate a (accumulate C b nodes)
  | [] => rfl
  | n :: ys => by
    rw [accumulate_cons, accumulate_cons, hassoc, accumulate_consolidate hassoc a _ ys]

/-- With weights that commute, a weight consolidated before the fold can go after it. -/
theorem accumulate_consolidate_comm
    (hassoc : ∀ a b c, C.consolidate (C.consolidate a b) c = C.consolidate a (C.consolidate b c))
    (hcomm : ∀ a b, C.consolidate a b = C.consolidate b a) (base w : W) :
    ∀ nodes : List (Node K S V W),
      accumulate C (C.consolidate base w) nodes = C.consolidate (accumulate C base nodes) w
  | [] => rfl
  | n :: ys => by
    have hswap : C.consolidate (C.consolidate base w) n.weight =
        C.consolidate (C.consolidate base n.weight) w := by
      rw [hassoc, hcomm w, ← hassoc]
    rw [accumulate_cons, accumulate_cons, hswap, accumulate_consolidate_comm hassoc hcomm _ w ys]

/-- **Sums in order.** With an associative and commutative `consolidate`, the weight `accure`
    adds for a subtree whose sums `update_weight` computed is the weight of its nodes in
    order. -/
theorem accureChild_eq_accumulate
    (hassoc : ∀ a b c, C.consolidate (C.consolidate a b) c = C.consolidate a (C.consolidate b c))
    (hcomm : ∀ a b, C.consolidate a b = C.consolidate b a) :
    ∀ (t : Tree K S V W) (base : W), SumsOk C t → accureChild C base t = accumulate C base t.toList
  | .nil, _, _ => rfl
  | .node n l r, base, ⟨hsum, hl, hr⟩ => by
    rw [accureChild, hsum, accureChild_eq_accumulate hassoc hcomm l n.weight hl,
      accureChild_eq_accumulate hassoc hcomm r _ hr, BinTree.toList_node, accumulate_append,
      accumulate_cons]
    -- the node's own weight moves past its left subtree's
    rw [← accumulate_consolidate hassoc, ← accumulate_consolidate hassoc,
      accumulate_consolidate_comm hassoc hcomm]

/-! ## The walk -/

variable (C)

/-- The nodes the walk of `accumulate_weight_search` visits from `node`, each with the weight
    `f` saw there and the direction it gave. -/
def searchTrace (f : W → Node K S V W → SearchDirection W) (node : Node K S V W)
    (l r : Tree K S V W) (base : W) : List (W × Node K S V W × SearchDirection W) :=
  (accureChild C base l, node, f (accureChild C base l) node) ::
    match f (accureChild C base l) node with
    | .left | .leftOrStop =>
      match l with
      | .node n l' r' => searchTrace f n l' r' base
      | .nil => []
    | .right w | .rightOrStop w =>
      match r with
      | .node n l' r' => searchTrace f n l' r' w
      | .nil => []
    | .abort | .stop => []
termination_by l.size + r.size
decreasing_by all_goals simp only [BinTree.size_node]; omega

/-- `m` stands in `all` after nodes of weight `b`. -/
def FoundIn (all : List (Node K S V W)) (b : W) (m : Node K S V W) : Prop :=
  ∃ ys zs, all = ys ++ m :: zs ∧ b = accumulate C C.empty ys

/-- What a walk may answer, for the nodes `all` of the whole tree in order, from a call with
    candidate `cand` and flags `allLeft` and `allRight` whose visits are `trace`. -/
structure Answers (all : List (Node K S V W)) (cand : Option (SearchResult K S V W))
    (allLeft allRight : Bool) (trace : List (W × Node K S V W × SearchDirection W))
    (res : SearchResult K S V W) : Prop where
  found : ∀ b m, res = .found b m → FoundIn C all b m
  rightMost : ∀ w, res = .rightMost w → allRight = true ∧ cand = none ∧
    w = accumulate C C.empty all ∧ ∀ x ∈ trace, ∃ w', x.2.2 = .right w'
  leftMost : res = .leftMost → allLeft = true ∧ cand = none ∧ ∀ x ∈ trace, x.2.2 = .left

/-- The candidate, when there is one, is a node of `all` with the weight before it. -/
def CandOk (all : List (Node K S V W)) (cand : Option (SearchResult K S V W)) : Prop :=
  ∀ c, cand = some c → ∃ b m, c = .found b m ∧ FoundIn C all b m

variable {C}

section Steps

variable {all : List (Node K S V W)} {cand : Option (SearchResult K S V W)} {allLeft allRight : Bool}
  {trace : List (W × Node K S V W × SearchDirection W)} {res : SearchResult K S V W}

/-- A turn to the left: the walk below keeps `allRight` false. -/
theorem Answers.left (h : Answers C all cand allLeft false trace res) (lw : W) (node : Node K S V W)
    (allRight : Bool) : Answers C all cand allLeft allRight ((lw, node, .left) :: trace) res where
  found := h.found
  rightMost w hw := absurd (h.rightMost w hw).1 Bool.false_ne_true
  leftMost hres := by
    obtain ⟨hl, hc, htr⟩ := h.leftMost hres
    refine ⟨hl, hc, fun x hx => ?_⟩
    rcases List.mem_cons.mp hx with rfl | hx
    · rfl
    · exact htr x hx

/-- A turn to the right: the walk below keeps `allLeft` false. -/
theorem Answers.right (h : Answers C all cand false allRight trace res) (lw w : W)
    (node : Node K S V W) (allLeft : Bool) :
    Answers C all cand allLeft allRight ((lw, node, .right w) :: trace) res where
  found := h.found
  rightMost w' hw := by
    obtain ⟨hr, hc, hw', htr⟩ := h.rightMost w' hw
    refine ⟨hr, hc, hw', fun x hx => ?_⟩
    rcases List.mem_cons.mp hx with rfl | hx
    · exact ⟨w, rfl⟩
    · exact htr x hx
  leftMost hres := absurd (h.leftMost hres).1 Bool.false_ne_true

/-- A turn that keeps a candidate: neither end can come back. -/
theorem Answers.keep {found : SearchResult K S V W}
    {allLeft' allRight' : Bool} (h : Answers C all (some found) allLeft' allRight' trace res)
    (x : W × Node K S V W × SearchDirection W) :
    Answers C all cand allLeft allRight (x :: trace) res where
  found := h.found
  rightMost w hw := absurd (h.rightMost w hw).2.1 (Option.some_ne_none _)
  leftMost hres := absurd (h.leftMost hres).2.1 (Option.some_ne_none _)

/-- A found result that names a node of `all` answers for any walk. -/
theorem Answers.ofFound {b : W} {m : Node K S V W} (h : FoundIn C all b m) :
    Answers C all cand allLeft allRight trace (.found b m) where
  found _ _ hres := by
    cases hres
    exact h
  rightMost _ hres := by cases hres
  leftMost hres := by cases hres

/-- `Abort` answers for any walk. -/
theorem Answers.ofAbort : Answers C all cand allLeft allRight trace .abort where
  found _ _ h := by cases h
  rightMost _ h := by cases h
  leftMost h := by cases h

/-- `Abort` answers with the candidate. -/
theorem Answers.ofCand (hc : CandOk C all cand) :
    Answers C all cand allLeft allRight trace (cand.getD .abort) := by
  cases cand with
  | none => exact Answers.ofAbort
  | some c =>
    obtain ⟨b, m, rfl, hfound⟩ := hc _ rfl
    exact Answers.ofFound hfound

/-- A vacant left slot: the candidate, or the left end if the walk only turned left. -/
theorem Answers.searchEnd_left (hc : CandOk C all cand) (lw : W) (node : Node K S V W) :
    Answers C all cand allLeft allRight [(lw, node, .left)] (searchEnd cand allLeft false none) := by
  cases cand with
  | some c =>
    obtain ⟨b, m, rfl, hfound⟩ := hc _ rfl
    exact Answers.ofFound hfound
  | none =>
    cases allLeft with
    | false => exact Answers.ofAbort
    | true =>
      refine ⟨fun _ _ h => (by cases h), fun _ h => (by cases h), fun _ => ⟨rfl, rfl, ?_⟩⟩
      intro x hx
      rw [List.mem_singleton.mp hx]

/-- A vacant right slot after `Right(w)`: the candidate, or the right end with `w` if the
    walk only turned right. -/
theorem Answers.searchEnd_right (hc : CandOk C all cand) {w lw : W} (node : Node K S V W)
    (hw : allRight = true → w = accumulate C C.empty all) :
    Answers C all cand allLeft allRight [(lw, node, .right w)]
      (searchEnd cand false allRight (some w)) := by
  cases cand with
  | some c =>
    obtain ⟨b, m, rfl, hfound⟩ := hc _ rfl
    exact Answers.ofFound hfound
  | none =>
    cases allRight with
    | false => exact Answers.ofAbort
    | true =>
      refine ⟨fun _ _ h => (by cases h), fun w' h => ?_, fun h => (by cases h)⟩
      cases h
      refine ⟨rfl, rfl, hw rfl, fun x hx => ?_⟩
      rw [List.mem_singleton.mp hx]
      exact ⟨w, rfl⟩

end Steps

section Walk

variable (hassoc : ∀ a b c, C.consolidate (C.consolidate a b) c = C.consolidate a (C.consolidate b c))
  (hcomm : ∀ a b, C.consolidate a b = C.consolidate b a)
include hassoc hcomm

omit hcomm in
/-- The weight `f` sees at a node: the weight before the subtree, then its left child's. -/
theorem leftWeight_eq {l : Tree K S V W} (hcomm : ∀ a b, C.consolidate a b = C.consolidate b a)
    (hl : SumsOk C l) {base : W} {pre : List (Node K S V W)}
    (hb : base = accumulate C C.empty pre) :
    accureChild C base l = accumulate C C.empty (pre ++ l.toList) := by
  rw [accureChild_eq_accumulate hassoc hcomm l base hl, hb, accumulate_append]

/-- **The walk's step lemma, by the recursion of `searchFrom`.** A call on a subtree that
    stands between the nodes `pre` and `post` of the whole tree, with the weight of `pre`,
    with `post` empty while the walk has only turned right, and with a candidate that names
    a node, answers as `Answers` says for the whole tree's nodes. -/
theorem searchFrom_answers {f : W → Node K S V W → SearchDirection W}
    (hf : ∀ b n w, (f b n = .right w ∨ f b n = .rightOrStop w) → w = C.consolidate b n.weight)
    (node : Node K S V W) (l r : Tree K S V W) (base : W) (cand : Option (SearchResult K S V W))
    (allLeft allRight : Bool) :
    ∀ pre post : List (Node K S V W), SumsOk C (.node node l r) →
      base = accumulate C C.empty pre → (allRight = true → post = []) →
      CandOk C (pre ++ (l.toList ++ node :: r.toList) ++ post) cand →
      Answers C (pre ++ (l.toList ++ node :: r.toList) ++ post) cand allLeft allRight
        (searchTrace C f node l r base) (searchFrom C f node l r base cand allLeft allRight) := by
  fun_induction searchFrom C f node l r base cand allLeft allRight with
  | case1 node l r base cand aL aR lw hd =>
    intro pre post _ _ _ hc
    exact Answers.ofCand hc
  | case2 node l r base cand aL aR lw found hd =>
    intro pre post hs hb _ _
    exact Answers.ofFound ⟨pre ++ l.toList, r.toList ++ post, by simp,
      leftWeight_eq hassoc hcomm hs.2.1 hb⟩
  | case3 node r base cand aL aR n l' r' lw hd ih =>
    -- the left child stands before `node` and its right subtree
    intro pre post hs hb _ hc
    have hd' : f (accureChild C base (.node n l' r')) node = .left := hd
    have hall : pre ++ ((BinTree.node n l' r').toList ++ node :: r.toList) ++ post =
        pre ++ (l'.toList ++ n :: r'.toList) ++ (node :: r.toList ++ post) := by simp
    rw [searchTrace.eq_def, hd', hall]
    rw [hall] at hc
    exact (ih pre _ hs.2.1 hb (fun h => absurd h Bool.false_ne_true) hc).left _ node aR
  | case4 node r base cand aL aR lw hd =>
    intro pre post _ _ _ hc
    have hd' : f (accureChild C base .nil) node = .left := hd
    rw [searchTrace.eq_def, hd']
    exact Answers.searchEnd_left hc _ node
  | case5 node r base cand aL aR n l' r' lw found hd ih =>
    intro pre post hs hb _ hc
    have hd' : f (accureChild C base (.node n l' r')) node = .leftOrStop := hd
    have hfound : FoundIn C (pre ++ ((BinTree.node n l' r').toList ++ node :: r.toList) ++ post)
        lw node := ⟨pre ++ (BinTree.node n l' r').toList, r.toList ++ post, by simp,
      leftWeight_eq hassoc hcomm hs.2.1 hb⟩
    have hall : pre ++ ((BinTree.node n l' r').toList ++ node :: r.toList) ++ post =
        pre ++ (l'.toList ++ n :: r'.toList) ++ (node :: r.toList ++ post) := by simp
    rw [searchTrace.eq_def, hd', hall]
    rw [hall] at hfound
    exact (ih pre _ hs.2.1 hb (fun h => absurd h Bool.false_ne_true)
      fun c hc' => ⟨lw, node, (Option.some.inj hc').symm, hfound⟩).keep _
  | case6 node r base cand aL aR lw found hd =>
    intro pre post hs hb _ _
    exact Answers.ofFound ⟨pre, r.toList ++ post, by simp,
      (leftWeight_eq hassoc hcomm hs.2.1 hb).trans (by simp)⟩
  | case7 node l base cand aL aR lw w hd n l' r' ih =>
    -- the right child stands after the left subtree and `node`, with their weight
    intro pre post hs hb hpost hc
    have hd' : f (accureChild C base l) node = .right w := hd
    have hw : w = accumulate C C.empty (pre ++ l.toList ++ [node]) := by
      rw [hf _ _ _ (.inl hd'), leftWeight_eq hassoc hcomm hs.2.1 hb]
      simp
    have hall : pre ++ (l.toList ++ node :: (BinTree.node n l' r').toList) ++ post =
        (pre ++ l.toList ++ [node]) ++ (l'.toList ++ n :: r'.toList) ++ post := by simp
    rw [searchTrace.eq_def, hd', hall]
    rw [hall] at hc
    exact (ih _ post hs.2.2 hw hpost hc).right _ w node aL
  | case8 node l base cand aL aR lw w hd =>
    intro pre post hs hb hpost hc
    have hd' : f (accureChild C base l) node = .right w := hd
    rw [searchTrace.eq_def, hd']
    refine Answers.searchEnd_right hc node fun hr => ?_
    rw [hpost hr, hf _ _ _ (.inl hd'), leftWeight_eq hassoc hcomm hs.2.1 hb]
    simp
  | case9 node l base cand aL aR lw found w hd n l' r' ih =>
    intro pre post hs hb hpost hc
    have hd' : f (accureChild C base l) node = .rightOrStop w := hd
    have hw : w = accumulate C C.empty (pre ++ l.toList ++ [node]) := by
      rw [hf _ _ _ (.inr hd'), leftWeight_eq hassoc hcomm hs.2.1 hb]
      simp
    have hfound : FoundIn C (pre ++ (l.toList ++ node :: (BinTree.node n l' r').toList) ++ post)
        lw node := ⟨pre ++ l.toList, (BinTree.node n l' r').toList ++ post, by simp,
      leftWeight_eq hassoc hcomm hs.2.1 hb⟩
    have hall : pre ++ (l.toList ++ node :: (BinTree.node n l' r').toList) ++ post =
        (pre ++ l.toList ++ [node]) ++ (l'.toList ++ n :: r'.toList) ++ post := by simp
    rw [searchTrace.eq_def, hd', hall]
    rw [hall] at hfound
    exact (ih _ post hs.2.2 hw hpost fun c hc' => ⟨lw, node, (Option.some.inj hc').symm,
      hfound⟩).keep _
  | case10 node l base cand aL aR lw found w hd =>
    intro pre post hs hb _ _
    exact Answers.ofFound ⟨pre ++ l.toList, post, by simp, leftWeight_eq hassoc hcomm hs.2.1 hb⟩

end Walk

/-! ## Searching for the first prefix that breaks a predicate -/

variable (C)

/-- The callers' pattern for a predicate `P` on prefix weights: left while the weight before
    the node breaks `P`, stop at the node whose own weight breaks it, right otherwise. -/
def prefixSearch (P : W → Bool) (base : W) (node : Node K S V W) : SearchDirection W :=
  if !P base then .left
  else if !P (C.consolidate base node.weight) then .stop
  else .right (C.consolidate base node.weight)

/-- `P` holds of every prefix, in order, of a prefix of `all` it holds of. -/
def PrefixClosed (P : W → Bool) (all : List (Node K S V W)) : Prop :=
  ∀ xs ys, xs <+: ys → ys <+: all →
    P (accumulate C C.empty ys) = true → P (accumulate C C.empty xs) = true

variable {C} {P : W → Bool}

theorem prefixSearch_eq_left {b : W} {n : Node K S V W} (h : prefixSearch C P b n = .left) :
    P b = false := by
  unfold prefixSearch at h
  split_ifs at h with h₁
  simp_all

theorem prefixSearch_eq_stop {b : W} {n : Node K S V W} (h : prefixSearch C P b n = .stop) :
    P b = true ∧ P (C.consolidate b n.weight) = false := by
  unfold prefixSearch at h
  split_ifs at h with h₁ h₂
  simp_all

theorem prefixSearch_eq_right {b w : W} {n : Node K S V W}
    (h : prefixSearch C P b n = .right w) :
    P b = true ∧ P (C.consolidate b n.weight) = true ∧ w = C.consolidate b n.weight := by
  unfold prefixSearch at h
  split_ifs at h with h₁ h₂
  simp_all

/-- The pattern never aborts and never keeps a candidate. -/
theorem prefixSearch_ne {b : W} {n : Node K S V W} :
    prefixSearch C P b n ≠ .abort ∧ prefixSearch C P b n ≠ .leftOrStop ∧
      ∀ w, prefixSearch C P b n ≠ .rightOrStop w := by
  unfold prefixSearch
  split_ifs <;> simp

/-- One step at a time is enough: a predicate that holds of a prefix whenever it holds of the
    prefix one node longer is closed under prefixes. -/
theorem prefixClosed_of_step {all : List (Node K S V W)}
    (hstep : ∀ ys m zs, all = ys ++ m :: zs →
      P (accumulate C C.empty (ys ++ [m])) = true → P (accumulate C C.empty ys) = true) :
    PrefixClosed C P all := by
  rintro xs _ ⟨d, rfl⟩ hys
  induction d using List.reverseRecOn with
  | nil => simp
  | append_singleton d m ih =>
    intro h
    obtain ⟨t, ht⟩ := hys
    have hd : xs ++ d <+: all := ⟨m :: t, by rw [← ht]; simp⟩
    exact ih hd (hstep (xs ++ d) m t (by rw [← ht]; simp) (by simpa using h))

/-- A predicate closed under prefixes breaks at one node only. -/
theorem PrefixClosed.threshold_unique {all : List (Node K S V W)} (hcl : PrefixClosed C P all)
    {ys ys' zs zs' : List (Node K S V W)} {m m' : Node K S V W}
    (h : all = ys ++ m :: zs) (hp : P (accumulate C C.empty ys) = true)
    (hn : P (accumulate C C.empty (ys ++ [m])) = false)
    (h' : all = ys' ++ m' :: zs') (hp' : P (accumulate C C.empty ys') = true)
    (hn' : P (accumulate C C.empty (ys' ++ [m'])) = false) : ys = ys' ∧ m = m' := by
  have hys : ys ++ [m] <+: all := ⟨zs, by rw [h]; simp⟩
  have hys' : ys' ++ [m'] <+: all := ⟨zs', by rw [h']; simp⟩
  -- a longer prefix that keeps `P` would keep it at the other's breaking node
  have heq : ys.length = ys'.length := by
    rcases Nat.lt_trichotomy ys.length ys'.length with hlt | heq | hgt
    · have := hcl _ _ (List.prefix_of_prefix_length_le hys ((List.prefix_append _ _).trans hys')
        (by simp; omega)) ((List.prefix_append _ _).trans hys') hp'
      rw [hn] at this
      cases this
    · exact heq
    · have := hcl _ _ (List.prefix_of_prefix_length_le hys' ((List.prefix_append _ _).trans hys)
        (by simp; omega)) ((List.prefix_append _ _).trans hys) hp
      rw [hn'] at this
      cases this
  have hyy : ys = ys' := List.prefix_of_prefix_length_le ((List.prefix_append _ _).trans hys)
    ((List.prefix_append _ _).trans hys') heq.le |>.eq_of_length heq
  subst hyy
  rw [h] at h'
  exact ⟨rfl, (List.cons.inj (List.append_cancel_left h')).1⟩

section PrefixWalk

variable (hassoc : ∀ a b c, C.consolidate (C.consolidate a b) c = C.consolidate a (C.consolidate b c))
  (hcomm : ∀ a b, C.consolidate a b = C.consolidate b a)
include hassoc hcomm

/-- **The pattern's step lemma, by the recursion of `searchFrom`.** From a subtree `sub`
    between `pre` and `post`, with no candidate: where `P` breaks before `sub` the walk turns
    left to a vacant slot; where it holds through `sub` the walk turns right to one, with the
    weight through `sub`; where it breaks inside `sub` the walk finds the node it breaks at. -/
theorem searchFrom_prefixSearch (node : Node K S V W) (l r : Tree K S V W) (base : W)
    (cand : Option (SearchResult K S V W)) (allLeft allRight : Bool) :
    ∀ pre post : List (Node K S V W), SumsOk C (.node node l r) →
      base = accumulate C C.empty pre → cand = none →
      PrefixClosed C P (pre ++ (l.toList ++ node :: r.toList) ++ post) →
      (P (accumulate C C.empty pre) = false →
        searchFrom C (prefixSearch C P) node l r base cand allLeft allRight =
          searchEnd none allLeft false none) ∧
      (P (accumulate C C.empty (pre ++ (l.toList ++ node :: r.toList))) = true →
        searchFrom C (prefixSearch C P) node l r base cand allLeft allRight =
          searchEnd none false allRight
            (some (accumulate C C.empty (pre ++ (l.toList ++ node :: r.toList))))) ∧
      (P (accumulate C C.empty pre) = true →
        P (accumulate C C.empty (pre ++ (l.toList ++ node :: r.toList))) = false →
        ∃ ys m zs, l.toList ++ node :: r.toList = ys ++ m :: zs ∧
          P (accumulate C C.empty (pre ++ ys)) = true ∧
          P (accumulate C C.empty (pre ++ ys ++ [m])) = false ∧
          searchFrom C (prefixSearch C P) node l r base cand allLeft allRight =
            .found (accumulate C C.empty (pre ++ ys)) m) := by
  fun_induction searchFrom C (prefixSearch C P) node l r base cand allLeft allRight with
  | case1 _ _ _ _ _ _ _ _ hd => exact absurd hd prefixSearch_ne.1
  | case2 node l r base cand aL aR lw found hd =>
    -- `P` breaks at this node
    intro pre post hs hb _ hcl
    obtain ⟨hp, hn⟩ := prefixSearch_eq_stop hd
    have hlw : lw = accumulate C C.empty (pre ++ l.toList) := leftWeight_eq hassoc hcomm hs.2.1 hb
    rw [hlw] at hp hn
    refine ⟨fun h => ?_, fun h => ?_, fun _ _ => ⟨l.toList, node, r.toList, rfl, hp, by simpa using hn,
      by rw [← hlw]⟩⟩
    · have := hcl _ _ (List.prefix_append pre l.toList) ⟨node :: r.toList ++ post, by simp⟩ hp
      rw [h] at this
      cases this
    · have := hcl (pre ++ l.toList ++ [node]) _ ⟨r.toList, by simp⟩ (List.prefix_append _ _) h
      rw [accumulate_append_singleton, hn] at this
      cases this
  | case3 node r base cand aL aR n l' r' lw hd ih =>
    -- `P` breaks in the left subtree, or before it
    intro pre post hs hb hc hcl
    have hn := prefixSearch_eq_left hd
    have hlw : lw = accumulate C C.empty (pre ++ (BinTree.node n l' r').toList) :=
      leftWeight_eq hassoc hcomm hs.2.1 hb
    rw [hlw] at hn
    have hall : pre ++ ((BinTree.node n l' r').toList ++ node :: r.toList) ++ post =
        pre ++ (l'.toList ++ n :: r'.toList) ++ (node :: r.toList ++ post) := by simp
    rw [hall] at hcl
    obtain ⟨ih₁, -, ih₃⟩ := ih pre _ hs.2.1 hb hc hcl
    refine ⟨ih₁, fun h => ?_, fun hp _ => ?_⟩
    · have := hcl (pre ++ (BinTree.node n l' r').toList) _ ⟨node :: r.toList, by simp⟩
        ⟨post, by simp⟩ h
      rw [hn] at this
      cases this
    · obtain ⟨ys, m, zs, hsplit, hp', hn', hres⟩ := ih₃ hp (by simpa using hn)
      exact ⟨ys, m, zs ++ node :: r.toList, by simp [hsplit], hp', hn', hres⟩
  | case4 node r base cand aL aR lw hd =>
    intro pre post hs hb hc hcl
    have hn := prefixSearch_eq_left hd
    have hlw : lw = accumulate C C.empty (pre ++ BinTree.nil.toList) :=
      leftWeight_eq hassoc hcomm hs.2.1 hb
    rw [hlw] at hn
    simp only [BinTree.toList_nil, List.append_nil] at hn
    subst hc
    refine ⟨fun _ => rfl, fun h => ?_, fun hp _ => ?_⟩
    · have := hcl _ _ (List.prefix_append pre _) ⟨post, rfl⟩ h
      rw [hn] at this
      cases this
    · rw [hn] at hp
      cases hp
  | case5 _ _ _ _ _ _ _ _ _ _ _ hd => exact absurd hd prefixSearch_ne.2.1
  | case6 _ _ _ _ _ _ _ _ hd => exact absurd hd prefixSearch_ne.2.1
  | case7 node l base cand aL aR lw w hd n l' r' ih =>
    -- `P` holds through this node: on to the right subtree
    intro pre post hs hb hc hcl
    obtain ⟨hp, hp₁, hw⟩ := prefixSearch_eq_right hd
    have hlw : lw = accumulate C C.empty (pre ++ l.toList) := leftWeight_eq hassoc hcomm hs.2.1 hb
    have hw' : w = accumulate C C.empty (pre ++ l.toList ++ [node]) := by
      rw [hw, hlw]
      simp
    rw [hlw] at hp
    rw [hlw] at hp₁
    have hall : pre ++ (l.toList ++ node :: (BinTree.node n l' r').toList) ++ post =
        (pre ++ l.toList ++ [node]) ++ (l'.toList ++ n :: r'.toList) ++ post := by simp
    rw [hall] at hcl
    obtain ⟨-, ih₂, ih₃⟩ := ih _ post hs.2.2 hw' hc hcl
    have hsub : pre ++ l.toList ++ [node] ++ (l'.toList ++ n :: r'.toList) =
        pre ++ (l.toList ++ node :: (BinTree.node n l' r').toList) := by simp
    refine ⟨fun h => ?_, fun h => ?_, fun _ h => ?_⟩
    · have := hcl _ _ (List.prefix_append pre l.toList)
        ⟨[node] ++ (l'.toList ++ n :: r'.toList) ++ post, by simp⟩ hp
      rw [h] at this
      cases this
    · rw [← hsub]
      exact ih₂ (by rw [hsub]; exact h)
    · obtain ⟨ys, m, zs, hsplit, hp', hn', hres⟩ := ih₃ (by simpa using hp₁) (by rw [hsub]; exact h)
      exact ⟨l.toList ++ node :: ys, m, zs, by simp [hsplit], by simpa using hp',
        by simpa using hn', by simpa using hres⟩
  | case8 node l base cand aL aR lw w hd =>
    intro pre post hs hb hc hcl
    obtain ⟨hp, hp₁, hw⟩ := prefixSearch_eq_right hd
    have hlw : lw = accumulate C C.empty (pre ++ l.toList) := leftWeight_eq hassoc hcomm hs.2.1 hb
    rw [hlw] at hp hp₁ hw
    subst hc
    refine ⟨fun h => ?_, fun _ => ?_, fun _ h => ?_⟩
    · have := hcl _ _ (List.prefix_append pre _) ⟨[node] ++ post, by simp⟩ hp
      rw [h] at this
      cases this
    · rw [hw]
      simp
    · rw [BinTree.toList_nil, ← List.append_assoc, accumulate_append_singleton, hp₁] at h
      cases h
  | case9 _ _ _ _ _ _ _ _ _ hd => exact absurd hd (prefixSearch_ne.2.2 _)
  | case10 _ _ _ _ _ _ _ _ _ hd => exact absurd hd (prefixSearch_ne.2.2 _)

end PrefixWalk

/-! ## The search from the root -/

section Root

variable (hassoc : ∀ a b c, C.consolidate (C.consolidate a b) c = C.consolidate a (C.consolidate b c))
  (hcomm : ∀ a b, C.consolidate a b = C.consolidate b a)
include hassoc hcomm

/-- The walk from the root answers for the whole tree. -/
theorem accumulateWeightSearch_answers {f : W → Node K S V W → SearchDirection W}
    (hf : ∀ b n w, (f b n = .right w ∨ f b n = .rightOrStop w) → w = C.consolidate b n.weight)
    (root : Node K S V W) (l r : Tree K S V W) (hs : SumsOk C (.node root l r)) :
    Answers C (BinTree.node root l r).toList none true true (searchTrace C f root l r C.empty)
      (accumulateWeightSearch C f root l r) := by
  have h := searchFrom_answers hassoc hcomm hf root l r C.empty none true true [] [] hs rfl
    (fun _ => rfl) (fun _ h => by cases h)
  rw [List.nil_append, List.append_nil] at h
  exact h

/-- The pattern from the root: the left end when `P` breaks at once, the right end when it
    holds throughout, and otherwise the node it breaks at. -/
theorem accumulateWeightSearch_prefixSearch {P : W → Bool} (root : Node K S V W)
    (l r : Tree K S V W) (hs : SumsOk C (.node root l r))
    (hstep : ∀ ys m zs, (BinTree.node root l r).toList = ys ++ m :: zs →
      P (accumulate C C.empty (ys ++ [m])) = true → P (accumulate C C.empty ys) = true) :
    (P C.empty = false → accumulateWeightSearch C (prefixSearch C P) root l r = .leftMost) ∧
    (P (accumulate C C.empty (BinTree.node root l r).toList) = true →
      accumulateWeightSearch C (prefixSearch C P) root l r =
        .rightMost (accumulate C C.empty (BinTree.node root l r).toList)) ∧
    ∀ ys m zs, (BinTree.node root l r).toList = ys ++ m :: zs →
      P (accumulate C C.empty ys) = true → P (accumulate C C.empty (ys ++ [m])) = false →
      accumulateWeightSearch C (prefixSearch C P) root l r = .found (accumulate C C.empty ys) m := by
  have hcl : PrefixClosed C P (BinTree.node root l r).toList := prefixClosed_of_step hstep
  rw [BinTree.toList_node] at hcl ⊢
  obtain ⟨h₁, h₂, h₃⟩ := searchFrom_prefixSearch hassoc hcomm root l r C.empty none true true [] []
    hs rfl rfl (by simpa using hcl)
  simp only [List.nil_append] at h₁ h₂ h₃
  refine ⟨fun h => h₁ h, fun h => h₂ h, fun ys m zs hall hp hn => ?_⟩
  -- `P` holds of the empty prefix and breaks before the end, so the walk finds a breaking
  -- node, and there is only one
  have hnil : P (accumulate C C.empty []) = true :=
    hcl [] ys (List.nil_prefix) ⟨m :: zs, hall.symm⟩ hp
  have hall' : P (accumulate C C.empty (l.toList ++ root :: r.toList)) = false := by
    cases hP : P (accumulate C C.empty (l.toList ++ root :: r.toList))
    · rfl
    · have := hcl (ys ++ [m]) _ ⟨zs, by rw [hall]; simp⟩ (List.prefix_refl _) hP
      rw [hn] at this
      cases this
  obtain ⟨ys', m', zs', hsplit, hp', hn', hres⟩ := h₃ hnil hall'
  obtain ⟨rfl, rfl⟩ := hcl.threshold_unique hall hp hn hsplit hp' hn'
  exact hres

end Root

/-! ## What the search finds -/

/-- **`accumulate_weight_search` on a commutative weight.** On a treap whose sums
    `update_weight` computed, with `empty` and `consolidate` a commutative monoid:

* for a callback that goes right only with the weight through the node, a found node comes
  with the weight of the nodes before it in order; the right end comes with the total, after
  a walk that went `Right` at every node; the left end comes after a walk that went `Left` at
  every node;
* for the pattern of a predicate that holds of a prefix whenever it holds of the prefix one
  node longer, the walk returns the left end when the predicate breaks at the empty prefix,
  the right end with the total when it holds of every node, and otherwise the node at which
  it breaks, with the weight before it. -/
theorem accumulateWeightSearch_spec (hM : WeightMonoid C)
    (hcomm : ∀ a b, C.consolidate a b = C.consolidate b a) (root : Node K S V W)
    (l r : Tree K S V W) (hs : SumsOk C (.node root l r)) :
    (∀ f : W → Node K S V W → SearchDirection W,
      (∀ b n w, (f b n = .right w ∨ f b n = .rightOrStop w) → w = C.consolidate b n.weight) →
      (∀ b m, accumulateWeightSearch C f root l r = .found b m →
        ∃ ys zs, (BinTree.node root l r).toList = ys ++ m :: zs ∧ b = accumulate C C.empty ys) ∧
      (∀ w, accumulateWeightSearch C f root l r = .rightMost w →
        w = accumulate C C.empty (BinTree.node root l r).toList ∧
          ∀ x ∈ searchTrace C f root l r C.empty, ∃ w', x.2.2 = .right w') ∧
      (accumulateWeightSearch C f root l r = .leftMost →
        ∀ x ∈ searchTrace C f root l r C.empty, x.2.2 = .left)) ∧
    ∀ P : W → Bool,
      (∀ ys m zs, (BinTree.node root l r).toList = ys ++ m :: zs →
        P (accumulate C C.empty (ys ++ [m])) = true → P (accumulate C C.empty ys) = true) →
      (P C.empty = false → accumulateWeightSearch C (prefixSearch C P) root l r = .leftMost) ∧
      (P (accumulate C C.empty (BinTree.node root l r).toList) = true →
        accumulateWeightSearch C (prefixSearch C P) root l r =
          .rightMost (accumulate C C.empty (BinTree.node root l r).toList)) ∧
      ∀ ys m zs, (BinTree.node root l r).toList = ys ++ m :: zs →
        P (accumulate C C.empty ys) = true → P (accumulate C C.empty (ys ++ [m])) = false →
        accumulateWeightSearch C (prefixSearch C P) root l r =
          .found (accumulate C C.empty ys) m := by
  refine ⟨fun f hf => ?_, fun P hstep => accumulateWeightSearch_prefixSearch hM.assoc hcomm root l r hs hstep⟩
  have h := accumulateWeightSearch_answers hM.assoc hcomm hf root l r hs
  refine ⟨h.found, fun w hw => ?_, fun hres => (h.leftMost hres).2.2⟩
  obtain ⟨-, -, htotal, htrace⟩ := h.rightMost w hw
  exact ⟨htotal, htrace⟩

/-- The blanket `ConsoliableWeight` of `usize`: `+` and `0`. -/
theorem weightMonoid_natMapConfig : WeightMonoid natMapConfig :=
  ⟨Nat.add_assoc, Nat.zero_add, Nat.add_zero⟩

/-- Keys `1`, `2` and `3`, each weighing itself, in a treap whose root `1` has the right child
    `3`, whose left child is `2`; the sums are the ones `update_weight` writes. -/
def keyOneNode : Node Nat Unit Nat Nat := { Node.new 1 10 () 1 3 with sumWeight := 6 }

def keyTwoNode : Node Nat Unit Nat Nat := Node.new 2 20 () 2 1

def keyThreeNode : Node Nat Unit Nat Nat := { Node.new 3 30 () 3 2 with sumWeight := 5 }

/-- The subtree under the root of the three-node treap. -/
def keyThreeSubtree : Tree Nat Unit Nat Nat := .node keyThreeNode (.node keyTwoNode .nil .nil) .nil

/-- On the three-node treap, the search for the prefix whose weight stays at most `1` goes
    `Right` at the root and `Left` at `3`, so that both flags drop, and stops at `2` with the
    weight `1` of the node before it. -/
theorem accumulateWeightSearch_spec_rightThenLeft :
    SumsOk natMapConfig (.node keyOneNode .nil keyThreeSubtree) ∧
      accumulateWeightSearch natMapConfig (prefixSearch natMapConfig fun w => decide (w ≤ 1))
          keyOneNode .nil keyThreeSubtree = .found 1 keyTwoNode ∧
      (searchTrace natMapConfig (prefixSearch natMapConfig fun w => decide (w ≤ 1)) keyOneNode .nil
          keyThreeSubtree 0).map (·.2.2) = [.right 1, .left, .stop] := by
  have hs : SumsOk natMapConfig (.node keyOneNode .nil keyThreeSubtree) := by decide
  -- a longer prefix weighs more, so `· ≤ 1` breaks once
  have hstep : ∀ ys m zs, (BinTree.node keyOneNode .nil keyThreeSubtree).toList = ys ++ m :: zs →
      decide (accumulate natMapConfig natMapConfig.empty (ys ++ [m]) ≤ 1) = true →
      decide (accumulate natMapConfig natMapConfig.empty ys ≤ 1) = true := by
    intro ys m zs _ h
    rw [accumulate_append_singleton] at h
    simp only [decide_eq_true_eq] at h ⊢
    exact Nat.le_trans (Nat.le_add_right _ _) h
  have hsplit : (BinTree.node keyOneNode .nil keyThreeSubtree).toList =
      [keyOneNode] ++ keyTwoNode :: [keyThreeNode] := rfl
  refine ⟨hs, ?_, by decide +kernel⟩
  exact (accumulateWeightSearch_spec weightMonoid_natMapConfig Nat.add_comm keyOneNode .nil
    keyThreeSubtree hs).2 _ hstep |>.2.2 _ _ _ hsplit (by decide) (by decide)

/-! ## A weight that does not commute -/

/-- Free sums of numbers compare as the lists they are. -/
instance decidableEqFreeAddMonoidNat : DecidableEq (FreeAddMonoid Nat) :=
  inferInstanceAs (DecidableEq (List Nat))

/-- A shared-key map whose weight is the free additive monoid on `Nat`: `+` appends, and the
    blanket `ConsoliableWeight` of an additive weight applies. -/
abbrev freeConfig : TreapMapConfig Nat Unit Unit (FreeAddMonoid Nat) Counter :=
  sharedKeyConfig Nat Unit (FreeAddMonoid Nat)

/-- Keys `1`, `2`, `3`, each weighing itself, inserted in order with rising priorities: each
    new node rotates to the root, so the tree is `3`, with left child `2`, with left child `1`. -/
def chainMap : TreapMap Nat Unit Unit (FreeAddMonoid Nat) Counter :=
  let m := TreapMap.new freeConfig fun i => i.toUInt64
  let m := (m.insert freeConfig 1 () (.of 1)).2
  let m := (m.insert freeConfig 2 () (.of 2)).2
  (m.insert freeConfig 3 () (.of 3)).2

/-- Stop at key `3`, else go right with the weight through the node. -/
def stopAtThree (base : FreeAddMonoid Nat) (n : Node Nat Unit Unit (FreeAddMonoid Nat)) :
    SearchDirection (FreeAddMonoid Nat) :=
  if n.key = 3 then .stop else .right (base + n.weight)

/-- With a monoid that does not commute, the weight at a found node is not the weight of the
    nodes before it: in the map `chainMap` the code builds, the search stops at the third
    node in order with `2 + 1`, while the nodes before it weigh `1 + 2`. -/
theorem accumulateWeightSearch_noncommutative :
    Reachable freeConfig chainMap ∧ WeightMonoid freeConfig ∧ SumsOk freeConfig chainMap.root ∧
      (∀ b n w, (stopAtThree b n = .right w ∨ stopAtThree b n = .rightOrStop w) →
        w = freeConfig.consolidate b n.weight) ∧
      chainMap.search freeConfig stopAtThree =
        chainMap.root.toList[2]?.map (.found (.of 2 + .of 1)) ∧
      accumulate freeConfig freeConfig.empty (chainMap.root.toList.take 2) = .of 1 + .of 2 ∧
      (.of 2 + .of 1 : FreeAddMonoid Nat) ≠ .of 1 + .of 2 := by
  refine ⟨.insert _ _ _ (.insert _ _ _ (.insert _ _ _ (.new _))),
    ⟨add_assoc, zero_add, add_zero⟩, ?_, fun b n w h => ?_, by decide +kernel, by decide +kernel,
    by decide⟩
  · decide +kernel
  · unfold stopAtThree at h
    split_ifs at h with hk
    · simp at h
    · obtain h | h := h
      · cases h
        rfl
      · cases h

end Mazze.Treap