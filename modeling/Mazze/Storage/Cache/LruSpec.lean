import Mazze.Storage.Cache.LruLinks

/-!
# The LRU's operations keep its layout

`Layout` is the invariant of an `LRU` with its cache store: its list of entries is laid out
(`Links`), the positions are exactly `0 .. size - 1`, every key not in the list has the handle
`NULL_POS`, and the capacity is below `NULL_POS`, so that no position is taken for `HEAD_POS`
or `NULL_POS`.

Each branch of `access` and each half of `delete` has one lemma here, which runs the branch
on a state with its layout, says what entries the result lays out and that the run neither
reads out of bounds nor panics.
-/

set_option autoImplicit false

namespace Mazze.Storage.Cache

open LRU

variable {K : Type}

theorem headPos_lt_nullPos : headPos < nullPos := by decide

theorem isHit_of_lt_nullPos {p : Nat} (hp : p < nullPos) : (⟨p⟩ : LRUHandle).isHit = true := by
  simp only [LRUHandle.isHit, bne_iff_ne]
  omega

theorem isHit_nullPos : (⟨nullPos⟩ : LRUHandle).isHit = false := by
  simp [LRUHandle.isHit]

theorem isMostRecentlyAccessed_headPos : (⟨headPos⟩ : LRUHandle).isMostRecentlyAccessed = true := by
  simp [LRUHandle.isMostRecentlyAccessed]

theorem isMostRecentlyAccessed_of_lt {p : Nat} (hp : p < headPos) :
    (⟨p⟩ : LRUHandle).isMostRecentlyAccessed = false := by
  simp only [LRUHandle.isMostRecentlyAccessed, beq_eq_false_iff_ne]
  omega

/-- The invariant of the cache with its store, laying out the entries `ents`. -/
structure Layout (l : LRU K) (store : K → LRUHandle) (ents : List (K × Nat)) : Prop
    extends Links l.recent store l.head l.rear ents where
  perm : (ents.map Prod.snd).Perm (List.range l.size)
  length_recent : l.recent.length = l.size
  absent : ∀ k, k ∉ ents.map Prod.fst → store k = ⟨nullPos⟩
  size_le : l.size ≤ l.capacity
  capacity_lt : l.capacity < nullPos

section Layout

variable {l : LRU K} {s : K → LRUHandle} {ents : List (K × Nat)}

theorem Layout.length_eq (h : Layout l s ents) : ents.length = l.size := by
  simpa using h.perm.length_eq

theorem Layout.pos_lt (h : Layout l s ents) {e : K × Nat} (he : e ∈ ents) : e.2 < l.size :=
  List.mem_range.mp (h.perm.subset (List.mem_map_of_mem he))

/-- No position is `HEAD_POS`, nor `NULL_POS`. -/
theorem Layout.pos_lt_headPos (h : Layout l s ents) {e : K × Nat} (he : e ∈ ents) :
    e.2 < headPos := by
  have h1 := h.pos_lt he
  have h2 := h.size_le
  have h3 := h.capacity_lt
  have h4 : nullPos = headPos + 1 := rfl
  omega

theorem Layout.size_not_mem (h : Layout l s ents) : l.size ∉ ents.map Prod.snd := by
  simp only [List.mem_map, not_exists, not_and]
  intro e he hes
  exact absurd (h.pos_lt he) (by omega)

variable [DecidableEq K]

/-- A miss with room left pushes the key at position `size`. -/
theorem Layout.accessInsert (h : Layout l s ents) {k : K} (hk : k ∉ ents.map Prod.fst)
    (hlt : l.size < l.capacity) :
    ∃ l' s', l.accessInsert k s = some (l', s') ∧ Layout l' s' ((k, l.size) :: ents) ∧
      l'.capacity = l.capacity := by
  -- the node is pushed past every entry's position
  have hr : ∀ e ∈ ents,
      (l.recent ++ [DoubleLinkListNode.mk l.head k])[e.2]? = l.recent[e.2]? :=
    fun e he => List.getElem?_append_left (by rw [h.length_recent]; exact h.pos_lt he)
  have hx : (l.recent ++ [DoubleLinkListNode.mk l.head k])[l.size]? =
      some (DoubleLinkListNode.mk l.head k) := by
    rw [List.getElem?_append_right (by rw [h.length_recent]), h.length_recent, Nat.sub_self]
    rfl
  have hperm : ((k, l.size) :: ents).map Prod.snd |>.Perm (List.range (l.size + 1)) := by
    rw [List.map_cons, List.range_succ]
    exact (List.perm_append_singleton _ _).symm.trans (h.perm.append_right _)
  have hlen : (l.recent ++ [DoubleLinkListNode.mk l.head k]).length = l.size + 1 := by
    rw [List.length_append, h.length_recent, List.length_singleton]
  cases ents with
  | nil =>
    have h0 : l.size = 0 := by simpa using h.length_eq.symm
    refine ⟨{ l with
        head := l.size, rear := 0, recent := l.recent ++ [DoubleLinkListNode.mk l.head k],
        size := l.size + 1 },
      Function.update s k ⟨headPos⟩, by simp [LRU.accessInsert, h0],
      ⟨?_, hperm, hlen, ?_, hlt, h.capacity_lt⟩, rfl⟩
    · exact (Links.nil : Links l.recent s l.head l.rear []).cons (x := (k, l.size)) (by simp) (by simp) (by simp [hx]) (by simp)
        (by simp) (by simp) (by simp) (by simp) (by simp [h0])
    · intro k' hk'
      rw [Function.update_of_ne (by simpa using hk')]
      exact h.absent k' (by simp)
  | cons f rest =>
    have h0 : l.size ≠ 0 := by
      have := h.length_eq
      simp only [List.length_cons] at this
      omega
    obtain ⟨hhd, -⟩ := h.head f (by simp)
    obtain ⟨nf, hnf, hnfk⟩ := h.node_of_mem (List.mem_cons_self)
    have hread : (l.recent ++ [DoubleLinkListNode.mk l.head k])[l.head]? = some nf :=
      (congrArg (fun i => (l.recent ++ [DoubleLinkListNode.mk l.head k])[i]?) hhd).trans
        ((hr f List.mem_cons_self).trans hnf)
    refine ⟨{ l with
        head := l.size, recent := l.recent ++ [DoubleLinkListNode.mk l.head k],
        size := l.size + 1 },
      Function.update (Function.update s k ⟨headPos⟩) f.1 ⟨l.size⟩,
      by simp [LRU.accessInsert, h0, hread, hnfk], ⟨?_, hperm, hlen, ?_, hlt, h.capacity_lt⟩,
      rfl⟩
    · exact h.toLinks.pushFront rfl hk h.size_not_mem (by simp [hx]) hr
    · intro k' hk'
      simp only [List.map_cons, List.mem_cons, not_or] at hk'
      rw [Function.update_of_ne hk'.2.1, Function.update_of_ne hk'.1]
      exact h.absent k' (by simp [hk'.2.1, hk'.2.2])

/-- A miss on a full cache reuses the rear's position for the key, which becomes the head, and
    evicts the rear's key. -/
theorem Layout.accessReplace {a : List (K × Nat)} {z : K × Nat} (h : Layout l s (a ++ [z]))
    {k : K} (hk : k ∉ (a ++ [z]).map Prod.fst) :
    ∃ l' s', l.accessReplace k s = some (l', s', .missReplaced [z.1] []) ∧
      Layout l' s' ((k, z.2) :: a) ∧ l'.capacity = l.capacity := by
  obtain ⟨f, hf⟩ : ∃ f, (a ++ [z]).head? = some f := Option.ne_none_iff_exists'.mp (by simp)
  have hfm : f ∈ a ++ [z] := List.mem_of_mem_head? hf
  obtain ⟨hhd, hsf⟩ := h.head f hf
  have hrear : l.rear = z.2 := h.rear z (by simp)
  obtain ⟨nf, hnf, hnfk⟩ := h.node_of_mem hfm
  obtain ⟨nz, hnz, hnzk⟩ := h.node_of_mem (List.mem_append_right a (List.mem_singleton_self z))
  have hzl : z.2 < l.recent.length := (List.getElem?_eq_some_iff.mp hnz).1
  have hkz : k ≠ z.1 := fun hkz => hk (by simp [hkz])
  have hkf : k ≠ f.1 := fun hkf => hk (hkf ▸ List.mem_map_of_mem hfm)
  have hza : z.2 ∉ a.map Prod.snd := fun hza =>
    (List.nodup_append.mp (List.map_append ▸ h.nodup_pos)).2.2 _ hza _ (by simp) rfl
  -- the new rear: the rear's handle, read after the old head's was pointed at the rear
  set newRear := (Function.update s f.1 ⟨z.2⟩ z.1).prevPos with hnewRear
  have hdrop : ∀ e ∈ a.getLast?, newRear = e.2 := by
    intro q hq
    have hqz := h.toLinks.linked_append q hq z (by simp)
    have hzf : z.1 ≠ f.1 := by
      have hfa : f ∈ a := by
        cases a with
        | nil => simp at hq
        | cons g a' =>
          simp only [List.cons_append, List.head?_cons, Option.some.injEq] at hf
          exact hf ▸ List.mem_cons_self
      exact (map_ne_of_nodup_append h.nodup_keys hfa (List.mem_singleton_self z)).symm
    rw [hnewRear, Function.update_of_ne hzf, hqz.2]
  have hlast : ∀ e ∈ ((k, z.2) :: a).getLast?, newRear = e.2 := by
    cases a with
    | nil =>
      have hfz : f = z := by simpa using hf.symm
      subst hfz
      simp [hnewRear]
    | cons g a' =>
      intro e he
      exact hdrop e (by simpa [List.getLast?_cons] using he)
  have hread : l.recent[l.head]? = some nf := hhd ▸ hnf
  refine ⟨{ l with
      head := l.rear, rear := newRear,
      recent := (l.recent.set l.rear { nz with cacheIndex := k }).set l.rear
        { nz with cacheIndex := k, next := l.head } },
    Function.update (Function.update (Function.update s f.1 ⟨z.2⟩) z.1 ⟨nullPos⟩) k ⟨headPos⟩,
    by simp [LRU.accessReplace, LRU.setNext, hread, hnz, hnfk, hnzk, hrear, hnewRear,
      List.getElem?_set_self hzl],
    ⟨?_, ?_, by simp [h.length_recent], ?_, h.size_le, h.capacity_lt⟩, rfl⟩
  · -- the rear's entry is dropped, and the key pushed in front at its position
    have hkey : ∀ e ∈ a.head?, e = f := fun e he =>
      (Option.some.inj (hf.symm.trans (by simp [List.head?_append, Option.mem_def.mp he]))).symm
    have hfk : ∀ e ∈ a, e.1 ≠ k := fun e he hek =>
      hk (hek ▸ List.mem_map_of_mem (List.mem_append_left _ he))
    have hzk : ∀ e ∈ a, e.1 ≠ z.1 := fun e he =>
      map_ne_of_nodup_append h.nodup_keys he (List.mem_singleton_self z)
    show Links ((l.recent.set l.rear _).set l.rear _) _ l.rear newRear _
    rw [hrear]
    refine (h.toLinks.dropRear hdrop).cons (x := (k, z.2))
      (fun hm => hk (List.map_append ▸ List.mem_append_left _ hm)) hza
      (by simp [List.getElem?_set_self hzl]) ?_ ?_ (by simp) ?_ ?_ hlast
    · intro e he
      rw [hkey e he] at *
      simp [List.getElem?_set_self hzl, hhd]
    · intro e he
      have hez : e.2 ≠ z.2 := fun hez => hza (hez ▸ List.mem_map_of_mem he)
      rw [List.getElem?_set_ne (Ne.symm hez), List.getElem?_set_ne (Ne.symm hez)]
    · intro e he
      have hea := List.mem_of_mem_head? he
      rw [Function.update_of_ne (hfk e hea), Function.update_of_ne (hzk e hea), hkey e he,
        Function.update_self]
    · intro e he
      have hea := List.mem_of_mem_tail he
      cases a with
      | nil => simp at he
      | cons g a' =>
        have hg : g = f := hkey g rfl
        have heg : e.1 ≠ f.1 := fun heg =>
          (List.nodup_cons.mp (List.nodup_append.mp (List.map_append ▸ h.nodup_keys)).1).1
            (hg ▸ heg ▸ List.mem_map_of_mem he)
        rw [Function.update_of_ne (hfk e hea), Function.update_of_ne (hzk e hea),
          Function.update_of_ne heg]
  · exact (List.perm_append_singleton _ _).symm.trans (by simpa using h.perm)
  · intro k' hk'
    simp only [List.map_cons, List.mem_cons, not_or] at hk'
    by_cases hkz' : k' = z.1
    · subst hkz'
      rw [Function.update_of_ne hk'.1, Function.update_self]
    · have hk'm : k' ∉ (a ++ [z]).map Prod.fst := by simp [hk'.2, hkz']
      have hkf' : k' ≠ f.1 := fun hkf' => hk'm (hkf' ▸ List.mem_map_of_mem hfm)
      rw [Function.update_of_ne hk'.1, Function.update_of_ne hkz', Function.update_of_ne hkf']
      exact h.absent k' hk'm

/-- A hit on a key `k` whose entry follows `p` moves the entry to the front. -/
theorem Layout.accessHit {a b : List (K × Nat)} {p : K × Nat} {k : K} {e : Nat}
    (h : Layout l s (a ++ p :: (k, e) :: b)) :
    ∃ l' s', l.accessHit k s p.2 = some (l', s') ∧ Layout l' s' ((k, e) :: (a ++ p :: b)) ∧
      l'.capacity = l.capacity := by
  -- the new list is the old one with `(k, e)` moved to the front
  have hperm : ((k, e) :: (a ++ p :: b)).Perm (a ++ p :: (k, e) :: b) := by
    have := (@List.perm_middle _ (k, e) (a ++ [p]) b).symm
    simpa using this
  have hkeys := (hperm.map Prod.fst).nodup_iff.mpr h.nodup_keys
  have hposs := (hperm.map Prod.snd).nodup_iff.mpr h.nodup_pos
  simp only [List.map_cons, List.nodup_cons] at hkeys hposs
  obtain ⟨f, hf⟩ : ∃ f, (a ++ p :: b).head? = some f := Option.ne_none_iff_exists'.mp (by simp)
  have hf' : (a ++ p :: (k, e) :: b).head? = some f := by
    simpa [List.head?_append] using hf
  have hfm : f ∈ a ++ p :: b := List.mem_of_mem_head? hf
  obtain ⟨hhd, -⟩ := h.head f hf'
  have hfe : f.2 ≠ e := fun hfe => hposs.1 (by rw [← hfe]; exact List.mem_map_of_mem hfm)
  have hsplit : a ++ p :: (k, e) :: b = (a ++ [p]) ++ (k, e) :: b := by simp
  have hpk : Linked l.recent s p (k, e) :=
    (hsplit ▸ h.toLinks).linked_append p (by simp) (k, e) (by simp)
  obtain ⟨np, hnp, hnpe⟩ := Option.map_eq_some_iff.mp hpk.1
  obtain ⟨ne, hne, hnek⟩ := h.node_of_mem (e := (k, e)) (by simp)
  have hep : e ≠ p.2 := fun hep => hposs.1 (hep ▸ by simp)
  have hel : e < l.recent.length := (List.getElem?_eq_some_iff.mp hne).1
  -- keys that are not held keep `NULL_POS`
  have habsent : ∀ s₁ : K → LRUHandle,
      (∀ k', k' ∉ (a ++ p :: (k, e) :: b).map Prod.fst → s₁ k' = ⟨nullPos⟩) →
      ∀ k', k' ∉ ((k, e) :: (a ++ p :: b)).map Prod.fst →
        Function.update (Function.update s₁ k ⟨headPos⟩) f.1 ⟨e⟩ k' = ⟨nullPos⟩ := by
    intro s₁ hs₁ k' hk'
    have hk'k : k' ≠ k := fun h' => hk' (by simp [h'])
    have hk'f : k' ≠ f.1 := fun h' =>
      hk' (by rw [h']; exact List.mem_map_of_mem (List.mem_cons_of_mem _ hfm))
    rw [Function.update_of_ne hk'f, Function.update_of_ne hk'k]
    exact hs₁ k' fun hm => hk' ((hperm.map Prod.fst).mem_iff.mpr hm)
  have hnot : ∀ x ∈ a ++ p :: b, x.2 ≠ e := fun x hx hxe =>
    hposs.1 (by rw [← hxe]; exact List.mem_map_of_mem hx)
  cases b with
  | nil =>
    -- the entry was the rear: the rear moves back to `p`
    have hrear : l.rear = e := h.rear (k, e) (by simp)
    have hread : (l.recent.set e { ne with next := l.head })[l.head]? = l.recent[f.2]? := by
      rw [hhd, List.getElem?_set_ne (Ne.symm hfe)]
    obtain ⟨nf, hnf, hnfk⟩ := h.node_of_mem (List.mem_of_mem_head? hf')
    refine ⟨{ l with
        rear := p.2, head := e, recent := l.recent.set e { ne with next := l.head } },
      Function.update (Function.update s k ⟨headPos⟩) f.1 ⟨e⟩,
      by simp [LRU.accessHit, LRU.setNext, hnp, hnpe, hrear, hne, hread, hnf, hnfk],
      ⟨?_, by simpa using hperm.map Prod.snd |>.trans h.perm, by simp [h.length_recent],
        habsent s h.absent, h.size_le, h.capacity_lt⟩, rfl⟩
    have hdrop : Links l.recent s l.head p.2 (a ++ [p]) :=
      (hsplit ▸ h.toLinks).dropRear (by simp)
    exact hdrop.pushFront (by simpa using hf) (by simpa using hkeys.1) (by simpa using hposs.1)
      (by simp [List.getElem?_set_self hel, hnek])
      fun x hx => List.getElem?_set_ne (Ne.symm (hnot x (by simpa using hx)))
  | cons y b' =>
    -- the entry is unlinked from between `p` and `y`
    have hky : Linked l.recent s (k, e) y :=
      (List.isChain_cons_cons.mp ((List.isChain_append_cons_cons.mp h.chain).2.2)).1
    have hnex : ne.next = y.2 := by
      have h1 := hky.1
      rw [hne] at h1
      exact Option.some.inj h1
    have hrear : e ≠ l.rear := by
      have hlast := h.rear
      intro her
      have hym : y ∈ a ++ p :: (k, e) :: y :: b' := by simp
      obtain ⟨w, hw⟩ : ∃ w, (y :: b').getLast? = some w := Option.ne_none_iff_exists'.mp (by simp)
      have hwm : w ∈ a ++ p :: y :: b' := by
        simp [List.mem_of_getLast? hw]
      refine hnot w hwm ?_
      rw [her]
      exact (hlast w (by simp [List.getLast?_append, List.getLast?_cons, hw])).symm
    have hyp : y.2 ≠ p.2 := by
      have := (hsplit ▸ h.nodup_pos)
      exact (map_ne_of_nodup_append this (by simp) (by simp)).symm
    obtain ⟨ny, hny, hnyk⟩ := h.node_of_mem (e := y) (by simp)
    have hL1 : Links (l.recent.set p.2 { np with next := y.2 }) (Function.update s y.1 ⟨p.2⟩)
        l.head l.rear (a ++ p :: y :: b') :=
      h.toLinks.unlink hnp (by simp) (fun x _ hx => Function.update_of_ne hx _ _)
    have hr1y : (l.recent.set p.2 { np with next := y.2 })[y.2]? = some ny := by
      rw [List.getElem?_set_ne (Ne.symm hyp)]
      exact hny
    have hr1e : (l.recent.set p.2 { np with next := y.2 })[e]? = some ne := by
      rw [List.getElem?_set_ne (Ne.symm hep)]
      exact hne
    have hel1 : e < (l.recent.set p.2 { np with next := y.2 }).length := by simpa using hel
    obtain ⟨nh, hnh, hnhk⟩ := hL1.node_of_mem (e := f) (by simpa using hfm)
    have hread : ((l.recent.set p.2 { np with next := y.2 }).set e
        { ne with next := l.head })[l.head]? = some nh := by
      rw [hhd, List.getElem?_set_ne (Ne.symm hfe)]
      exact hnh
    refine ⟨{ l with
        head := e,
        recent := (l.recent.set p.2 { np with next := y.2 }).set e { ne with next := l.head } },
      Function.update (Function.update (Function.update s y.1 ⟨p.2⟩) k ⟨headPos⟩) f.1 ⟨e⟩,
      by simp [LRU.accessHit, LRU.setNext, hnp, hnpe, hrear, hne, hnex, hr1y, hr1e, hread,
        hnhk, hnyk],
      ⟨?_, by simpa using hperm.map Prod.snd |>.trans h.perm, by simp [h.length_recent],
        habsent _ ?_, h.size_le, h.capacity_lt⟩, rfl⟩
    · exact hL1.pushFront (by simpa using hf) (by simpa using hkeys.1) (by simpa using hposs.1)
        (by simp [List.getElem?_set_self hel1, hnek])
        fun x hx => List.getElem?_set_ne (Ne.symm (hnot x (by simpa using hx)))
    · intro k' hk'
      have hk'y : k' ≠ y.1 := fun h' => hk' (by rw [h']; exact List.mem_map_of_mem (by simp))
      rw [Function.update_of_ne hk'y]
      exact h.absent k' hk'

/-- The first half of `delete` takes the entry `(k, d)` out of the list; `k`, like every key not
    in the list, then has the handle `NULL_POS`. -/
theorem Layout.unlink {A B : List (K × Nat)} {k : K} {d : Nat}
    (h : Layout l s (A ++ (k, d) :: B)) :
    ∃ l₁ s₁, l.unlink (Function.update s k ⟨nullPos⟩) (s k) d = some (l₁, s₁) ∧
      Links l₁.recent s₁ l₁.head l₁.rear (A ++ B) ∧ l₁.recent.length = l.recent.length ∧
      l₁.size = l.size ∧ l₁.capacity = l.capacity ∧
      ∀ k', k' ∉ (A ++ B).map Prod.fst → s₁ k' = ⟨nullPos⟩ := by
  have hkAB : k ∉ (A ++ B).map Prod.fst := by
    have hnd : (((k, d) :: (A ++ B)).map Prod.fst).Nodup :=
      ((List.perm_middle.map Prod.fst).nodup_iff).mp h.nodup_keys
    simpa using (List.nodup_cons.mp hnd).1
  have hdAB : d ∉ (A ++ B).map Prod.snd := by
    have hnd : (((k, d) :: (A ++ B)).map Prod.snd).Nodup :=
      ((List.perm_middle.map Prod.snd).nodup_iff).mp h.nodup_pos
    simpa using (List.nodup_cons.mp hnd).1
  have habs : ∀ k', k' ∉ (A ++ B).map Prod.fst →
      Function.update s k ⟨nullPos⟩ k' = ⟨nullPos⟩ := by
    intro k' hk'
    by_cases hk'k : k' = k
    · rw [hk'k, Function.update_self]
    · rw [Function.update_of_ne hk'k]
      exact h.absent k' (by simp_all)
  rcases List.eq_nil_or_concat' A with rfl | ⟨A', p, rfl⟩
  · -- `k` is the head
    obtain ⟨hhd, hsk⟩ := h.head (k, d) (by simp)
    cases B with
    | nil =>
      have hrear : l.rear = d := h.rear (k, d) (by simp)
      exact ⟨{ l with rear := headPos, head := nullPos }, Function.update s k ⟨nullPos⟩,
        by simp [LRU.unlink, hrear, hhd, hsk], Links.nil, rfl, rfl, rfl, habs⟩
    | cons y B' =>
      have hky : Linked l.recent s (k, d) y := (List.isChain_cons_cons.mp h.chain).1
      obtain ⟨nd, hnd, hndy⟩ := Option.map_eq_some_iff.mp hky.1
      obtain ⟨ny, hny, hnyk⟩ := h.node_of_mem (e := y) (by simp)
      have hrear : d ≠ l.rear := by
        intro hdr
        obtain ⟨w, hw⟩ : ∃ w, (y :: B').getLast? = some w :=
          Option.ne_none_iff_exists'.mp (by simp)
        have hwl : l.rear = w.2 := h.rear w (by simpa [List.getLast?_cons] using hw)
        exact hdAB (by rw [hdr, hwl]; exact List.mem_map_of_mem (by simp [List.mem_of_getLast? hw]))
      have hyk : y.1 ≠ k := fun hyk => hkAB (by rw [← hyk]; exact List.mem_map_of_mem (by simp))
      refine ⟨{ l with head := y.2 },
        Function.update (Function.update s k ⟨nullPos⟩) y.1 ⟨headPos⟩,
        by simp [LRU.unlink, hrear, hhd, hsk, hnd, hndy, hny, hnyk], ?_, rfl, rfl, rfl, ?_⟩
      · refine h.toLinks.unlinkHead (Function.update_self _ _ _) fun e he => ?_
        have hey : e.1 ≠ y.1 := fun hey =>
          (List.nodup_cons.mp (List.nodup_cons.mp h.nodup_keys).2).1
            (by rw [← hey]; exact List.mem_map_of_mem he)
        have hek : e.1 ≠ k := fun hek => hkAB (by rw [← hek]; exact List.mem_map_of_mem (by simp [he]))
        rw [Function.update_of_ne hey, Function.update_of_ne hek]
      · intro k' hk'
        have hk'y : k' ≠ y.1 := fun hk'y => hk' (by rw [hk'y]; exact List.mem_map_of_mem (by simp))
        rw [Function.update_of_ne hk'y]
        exact habs k' hk'
  · -- `k` follows `p`
    have hsplit : A' ++ [p] ++ (k, d) :: B = A' ++ p :: (k, d) :: B := by simp
    have hpk : Linked l.recent s p (k, d) := h.toLinks.linked_append p (by simp) (k, d) (by simp)
    obtain ⟨f, hf⟩ : ∃ f, (A' ++ [p]).head? = some f := Option.ne_none_iff_exists'.mp (by simp)
    obtain ⟨hhd, -⟩ := h.head f (by rw [List.head?_append, hf]; rfl)
    have hfd : f.2 ≠ d := fun hfd =>
      hdAB (by rw [← hfd]; exact List.mem_map_of_mem (List.mem_append_left _ (List.mem_of_mem_head? hf)))
    cases B with
    | nil =>
      have hrear : l.rear = d := h.rear (k, d) (by simp)
      have hlinks : Links l.recent s l.head p.2 (A' ++ [p]) :=
        h.toLinks.dropRear (by simp)
      refine ⟨{ l with rear := p.2 }, Function.update s k ⟨nullPos⟩,
        by simp [LRU.unlink, hrear, hhd, hpk.2, Ne.symm hfd], ?_, rfl, rfl, rfl, by simpa using habs⟩
      rw [List.append_nil]
      refine hlinks.congr (fun _ _ => rfl) fun e he => Function.update_of_ne ?_ _ _
      exact fun hek => hkAB (by rw [← hek]; exact List.mem_map_of_mem (by simpa using he))
    | cons y B' =>
      have hc := (List.isChain_append_cons_cons.mp (hsplit ▸ h.chain)).2.2
      have hky : Linked l.recent s (k, d) y := (List.isChain_cons_cons.mp hc).1
      obtain ⟨nd, hnd, hndy⟩ := Option.map_eq_some_iff.mp hky.1
      obtain ⟨np, hnp, -⟩ := Option.map_eq_some_iff.mp hpk.1
      obtain ⟨ny, hny, hnyk⟩ := h.node_of_mem (e := y) (by simp)
      have hyp : y.2 ≠ p.2 :=
        (map_ne_of_nodup_append h.nodup_pos (u := p) (v := y) (by simp) (by simp)).symm
      have hrear : d ≠ l.rear := by
        intro hdr
        obtain ⟨w, hw⟩ : ∃ w, (y :: B').getLast? = some w :=
          Option.ne_none_iff_exists'.mp (by simp)
        have hwl : l.rear = w.2 := h.rear w (by simp [List.getLast?_append, hw])
        exact hdAB (by rw [hdr, hwl]; exact List.mem_map_of_mem (by simp [List.mem_of_getLast? hw]))
      have hyk : y.1 ≠ k := fun hyk => hkAB (by rw [← hyk]; exact List.mem_map_of_mem (by simp))
      have hr1 : (l.recent.set p.2 { np with next := y.2 })[y.2]? = some ny := by
        rw [List.getElem?_set_ne (Ne.symm hyp)]
        exact hny
      refine ⟨{ l with recent := l.recent.set p.2 { np with next := y.2 } },
        Function.update (Function.update s k ⟨nullPos⟩) y.1 ⟨p.2⟩,
        by simp [LRU.unlink, LRU.setNext, hrear, hhd, Ne.symm hfd, hpk.2, hnd, hndy, hnp, hr1, hnyk],
        ?_, by simp, rfl, rfl, ?_⟩
      · have hs₁ : ∀ e ∈ A' ++ p :: y :: B', e.1 ≠ y.1 →
            Function.update (Function.update s k ⟨nullPos⟩) y.1 ⟨p.2⟩ e.1 = s e.1 := by
          intro e he hey
          have hek : e.1 ≠ k := fun hek =>
            hkAB (by rw [← hek]; exact List.mem_map_of_mem (by simpa using he))
          rw [Function.update_of_ne hey, Function.update_of_ne hek]
        simpa using (hsplit ▸ h.toLinks).unlink hnp (Function.update_self _ _ _) hs₁
      · intro k' hk'
        have hk'y : k' ≠ y.1 := fun hk'y => hk' (by rw [hk'y]; exact List.mem_map_of_mem (by simp))
        rw [Function.update_of_ne hk'y]
        exact habs k' hk'

/-- The second half of `delete`, on entries at the positions `0 .. size` but `d`: the last node
    of the vector, at `size`, moves to `d`, and its entry follows it. -/
theorem Links.moveLast {d : Nat} (h : Links l.recent s l.head l.rear ents)
    (hperm : (d :: ents.map Prod.snd).Perm (List.range (l.size + 1)))
    (hlen : l.recent.length = l.size + 1) (hsize : l.size < headPos) :
    ∃ l' s', l.moveLast s d = some (l', s') ∧
      Links l'.recent s' l'.head l'.rear
        (ents.map fun e => (e.1, if e.2 = l.size then d else e.2)) ∧
      l'.recent.length = l.size ∧ l'.size = l.size ∧ l'.capacity = l.capacity ∧
      ∀ k, k ∉ ents.map Prod.fst → s' k = s k := by
  have hfree : d ∉ ents.map Prod.snd :=
    (List.nodup_cons.mp (hperm.nodup_iff.mpr List.nodup_range)).1
  have hle : ∀ e ∈ ents, e.2 < headPos ∧ e.2 ≤ l.size := by
    intro e he
    have := List.mem_range.mp (hperm.subset (List.mem_cons_of_mem _ (List.mem_map_of_mem he)))
    omega
  have hd : d < l.size + 1 := List.mem_range.mp (hperm.subset List.mem_cons_self)
  by_cases hdm : d = l.size
  · -- the freed position is the last one: the vector just loses it
    subst hdm
    have hpos : ∀ e ∈ ents, e.2 < l.size := fun e he =>
      lt_of_le_of_ne (hle e he).2 fun hed => hfree (by rw [← hed]; exact List.mem_map_of_mem he)
    have hmap : (ents.map fun e => (e.1, if e.2 = l.size then l.size else e.2)) = ents := by
      conv_rhs => rw [← List.map_id ents]
      exact List.map_congr_left fun e he => by rw [if_neg (hpos e he).ne]; rfl
    refine ⟨{ l with recent := l.recent.eraseIdx l.size }, s, by simp [LRU.moveLast, hlen], ?_,
      by simp [List.length_eraseIdx, hlen], rfl, rfl, fun _ _ => rfl⟩
    rw [hmap]
    refine h.congr (fun e he => ?_) fun _ _ => rfl
    rw [List.getElem?_eraseIdx, if_pos (hpos e he)]
  -- the node at `size` is the entry `(km, size)`'s, between `C` and `C'`
  have hdn : d < l.size := by omega
  have hdlen : d < l.recent.length := by omega
  obtain ⟨⟨km, m⟩, hkm, hm⟩ : ∃ e ∈ ents, e.2 = l.size := by
    have hm : l.size ∈ d :: ents.map Prod.snd :=
      hperm.symm.subset (List.mem_range.mpr (Nat.lt_succ_self _))
    exact List.mem_map.mp ((List.mem_cons.mp hm).resolve_left (Ne.symm hdm))
  obtain rfl : m = l.size := hm
  obtain ⟨C, C', rfl⟩ := List.append_of_mem hkm
  obtain ⟨nm, hnm, hnmk⟩ := h.node_of_mem hkm
  -- the successor's handle is pointed at `d`; nothing else is written to the store
  have hsucc : ∀ w ∈ C'.head?,
      (∀ v ∈ C ++ (km, l.size) :: C'.tail, Function.update s w.1 ⟨d⟩ v.1 = s v.1) ∧
      ∀ k, k ∉ (C ++ (km, l.size) :: C').map Prod.fst → Function.update s w.1 ⟨d⟩ k = s k := by
    intro w hw
    refine ⟨fun v hv => Function.update_of_ne (map_ne_of_nodup_next h.nodup_keys hw hv) _ _,
      fun k hk => Function.update_of_ne (fun hkw => hk ?_) _ _⟩
    rw [hkw]
    exact List.mem_map_of_mem (by cases C' <;> simp_all)
  -- when the entry has a successor `w`, the rear is not at `size` and `w`'s node follows it
  have hnext : ∀ w C'', C' = w :: C'' →
      l.rear ≠ l.size ∧ nm.next = w.2 ∧ ∃ nw, l.recent[w.2]? = some nw ∧ nw.cacheIndex = w.1 := by
    rintro w C'' rfl
    obtain ⟨z, hz⟩ : ∃ z, (w :: C'').getLast? = some z := Option.ne_none_iff_exists'.mp (by simp)
    have hrear : l.rear = z.2 := h.rear z (by simp [List.getLast?_append, hz])
    have hkw := (List.isChain_append_cons_cons.mp h.chain).2.1
    refine ⟨?_, ?_, h.node_of_mem (by simp)⟩
    · rw [hrear]
      exact map_ne_of_nodup_middle h.nodup_pos (by simp [List.mem_of_getLast? hz])
    · have h1 := hkw.1
      rw [hnm] at h1
      exact Option.some.inj h1
  rcases List.eq_nil_or_concat' C with rfl | ⟨C₀, q, rfl⟩
  · -- the entry is the head: the head moves to `d`
    obtain ⟨-, hsk⟩ := h.head (km, l.size) (by simp)
    cases C' with
    | nil =>
      have hrear : l.rear = l.size := h.rear (km, l.size) (by simp)
      refine ⟨{ l with head := d, rear := d, recent := (BinaryHeap.swapRemove l.recent d hdlen).2 },
        s, by simp [LRU.moveLast, hdm, hnm, hnmk, hsk, isMostRecentlyAccessed_headPos, hrear, hdlen],
        ?_, by simp [hlen], rfl, rfl, fun _ _ => rfl⟩
      exact h.swapRemove hfree hle hdn hlen rfl (by simp) (by simp) (by simp) (fun _ _ => rfl)
        (if_pos rfl).symm (if_pos rfl).symm
    | cons w C'' =>
      obtain ⟨hrear, hnmw, nw, hnw, hnwk⟩ := hnext w C'' rfl
      obtain ⟨hstore, hframe⟩ := hsucc w (by simp)
      refine ⟨{ l with head := d, recent := (BinaryHeap.swapRemove l.recent d hdlen).2 },
        Function.update s w.1 ⟨d⟩,
        by simp [LRU.moveLast, hdm, hnm, hnmk, hsk, isMostRecentlyAccessed_headPos,
          Ne.symm hrear, hnmw, hnw, hnwk, hdlen],
        ?_, by simp [hlen], rfl, rfl, hframe⟩
      exact h.swapRemove hfree hle hdn hlen rfl (fun _ _ _ => rfl) (by simp) (by simp) hstore
        (if_pos rfl).symm (if_neg (List.cons_ne_nil _ _)).symm
  · -- the entry follows `q`, whose node is pointed at `d`
    have hqk : Linked l.recent s q (km, l.size) :=
      h.linked_append q (by simp) (km, l.size) (by simp)
    obtain ⟨nq, hnq, -⟩ := Option.map_eq_some_iff.mp hqk.1
    have hq : q.2 < headPos := (hle q (by simp)).1
    have hqm : q.2 ≠ l.size := map_ne_of_nodup_middle h.nodup_pos (by simp)
    set r₁ := l.recent.set q.2 { nq with next := d } with hr₁
    have hlen₁ : r₁.length = l.size + 1 := by simp [hr₁, hlen]
    have hdlen₁ : d < r₁.length := by omega
    have hkeep : ∀ e ∈ C₀ ++ [q] ++ C', e ∉ (C₀ ++ [q]).getLast? → r₁[e.2]? = l.recent[e.2]? := by
      intro e he heq
      have heq' : e ≠ q := fun h' => heq (by simp [h'])
      have hmem : e ∈ C₀ ++ [q] ++ (km, l.size) :: C' := by
        simp only [List.mem_append, List.mem_cons, List.not_mem_nil, or_false] at he ⊢
        tauto
      refine List.getElem?_set_ne fun hqe => heq' ?_
      exact List.inj_on_of_nodup_map h.nodup_pos hmem (by simp) hqe.symm
    have hpred : ∀ u ∈ (C₀ ++ [q]).getLast?,
        (r₁[u.2]?).map DoubleLinkListNode.cacheIndex =
          (l.recent[u.2]?).map DoubleLinkListNode.cacheIndex ∧
        (r₁[u.2]?).map DoubleLinkListNode.next = some d := by
      intro u hu
      obtain rfl : u = q := by simpa using hu.symm
      have hql : u.2 < l.recent.length := (List.getElem?_eq_some_iff.mp hnq).1
      simp [hr₁, List.getElem?_set_self hql, hnq]
    have hhead : l.head = if C₀ ++ [q] = [] then d else l.head := (if_neg (by simp)).symm
    cases C' with
    | nil =>
      have hrear : l.rear = l.size := h.rear (km, l.size) (by simp)
      refine ⟨{ l with rear := d, recent := (BinaryHeap.swapRemove r₁ d hdlen₁).2 }, s,
        by simp [LRU.moveLast, LRU.setNext, hdm, hnm, hnmk, hqk.2, isMostRecentlyAccessed_of_lt hq,
          hnq, hrear, hr₁, hdlen],
        ?_, by simp [hlen₁], rfl, rfl, fun _ _ => rfl⟩
      exact h.swapRemove hfree hle hdn hlen₁ (List.getElem?_set_ne hqm) hkeep hpred (by simp)
        (fun _ _ => rfl) hhead (if_pos rfl).symm
    | cons w C'' =>
      obtain ⟨hrear, hnmw, nw, hnw, hnwk⟩ := hnext w C'' rfl
      obtain ⟨hstore, hframe⟩ := hsucc w (by simp)
      have hqw : q.2 ≠ w.2 := map_ne_of_nodup_append h.nodup_pos (by simp) (by simp)
      refine ⟨{ l with recent := (BinaryHeap.swapRemove r₁ d hdlen₁).2 },
        Function.update s w.1 ⟨d⟩,
        by simp [LRU.moveLast, LRU.setNext, hdm, hnm, hnmk, hqk.2, isMostRecentlyAccessed_of_lt hq,
          hnq, Ne.symm hrear, hr₁, List.getElem?_set_ne hqm, List.getElem?_set_ne hqw, hnmw, hnw,
          hnwk, hdlen],
        ?_, by simp [hlen₁], rfl, rfl, hframe⟩
      exact h.swapRemove hfree hle hdn hlen₁ (List.getElem?_set_ne hqm) hkeep hpred (by simp)
        hstore hhead (if_neg (List.cons_ne_nil _ _)).symm

/-- `delete` of a key: a held key's entry is taken out of the list and the last node moved into
    its position; a key that is not held leaves the cache as it is. -/
theorem Layout.delete (h : Layout l s ents) (k : K) :
    ∃ l' s' ents', l.delete k s = some (l', s') ∧ Layout l' s' ents' ∧
      ents'.map Prod.fst = (ents.map Prod.fst).erase k ∧ l'.capacity = l.capacity := by
  by_cases hk : k ∈ ents.map Prod.fst
  swap
  · -- a key that is not held has the handle `NULL_POS`
    exact ⟨l, s, ents, by simp [LRU.delete, h.absent k hk, isHit_nullPos], h,
      (List.erase_of_not_mem hk).symm, rfl⟩
  obtain ⟨d, hkd⟩ : ∃ d, (k, d) ∈ ents := by
    obtain ⟨⟨k', d⟩, hkd, hk'⟩ := List.mem_map.mp hk
    exact ⟨d, hk' ▸ hkd⟩
  obtain ⟨A, B, rfl⟩ := List.append_of_mem hkd
  have hsize : l.size ≠ 0 := by
    have := h.length_eq
    simp only [List.length_append, List.length_cons] at this
    omega
  -- the handle is a hit, and leads to the position `d`
  have hfind : (s k).isHit = true ∧ l.getLruPosForHandle (s k) = some d := by
    rcases List.eq_nil_or_concat' A with rfl | ⟨A', p, rfl⟩
    · obtain ⟨hhd, hsk⟩ := h.head (k, d) (by simp)
      simp [hsk, LRU.getLruPosForHandle, isMostRecentlyAccessed_headPos, hhd,
        isHit_of_lt_nullPos headPos_lt_nullPos]
    · have hpk : Linked l.recent s p (k, d) := h.linked_append p (by simp) (k, d) (by simp)
      have hp : p.2 < headPos := h.pos_lt_headPos (by simp)
      rw [hpk.2]
      refine ⟨isHit_of_lt_nullPos (hp.trans headPos_lt_nullPos), ?_⟩
      simpa [LRU.getLruPosForHandle, isMostRecentlyAccessed_of_lt hp] using hpk.1
  obtain ⟨l₁, s₁, hunlink, hlinks, hlen₁, hsize₁, hcap₁, habs₁⟩ := h.unlink
  have hne₁ : l₁.size ≠ 0 := hsize₁ ▸ hsize
  have hperm : (d :: (A ++ B).map Prod.snd).Perm (List.range (l₁.size - 1 + 1)) := by
    rw [hsize₁, Nat.sub_add_cancel (Nat.pos_of_ne_zero hsize)]
    exact (List.perm_middle.map Prod.snd).symm.trans h.perm
  have hbound : l₁.size - 1 < headPos := by
    have h1 := h.size_le
    have h2 := h.capacity_lt
    have h3 : nullPos = headPos + 1 := rfl
    omega
  -- the second half runs on the cache with one element less
  obtain ⟨l', s', hmove, hlinks', hlen', hsize', hcap', hframe⟩ :=
    Links.moveLast (l := { l₁ with size := l₁.size - 1 }) hlinks hperm
      (by
        show l₁.recent.length = l₁.size - 1 + 1
        rw [hlen₁, h.length_recent, hsize₁]
        omega) hbound
  have hkeys : ((A ++ B).map fun e => (e.1, if e.2 = l₁.size - 1 then d else e.2)).map
      Prod.fst = (A ++ B).map Prod.fst := by
    simp [Function.comp_def]
  have hkA : k ∉ A.map Prod.fst := fun hkA => by
    obtain ⟨e, he, hek⟩ := List.mem_map.mp hkA
    exact map_ne_of_nodup_middle h.nodup_keys (List.mem_append_left B he) hek
  refine ⟨l', s', (A ++ B).map fun e => (e.1, if e.2 = l₁.size - 1 then d else e.2),
    by simp [LRU.delete, hfind.1, hfind.2, hunlink, hne₁, hmove],
    ⟨hlinks', ?_, hlen'.trans hsize'.symm, ?_, ?_, ?_⟩, ?_, hcap'.trans hcap₁⟩
  · have hmv := perm_range_of_move hperm
    rw [List.map_map] at hmv
    rw [hsize', List.map_map]
    exact hmv
  · intro k' hk'
    rw [hkeys] at hk'
    rw [hframe k' hk']
    exact habs₁ k' hk'
  · rw [hsize', hcap']
    have := h.size_le
    simp only
    omega
  · rw [hcap', hcap₁]
    exact h.capacity_lt
  · rw [hkeys, List.map_append, List.map_append, List.map_cons, List.erase_append_right _ hkA,
      List.erase_cons_head]

end Layout

end Mazze.Storage.Cache
