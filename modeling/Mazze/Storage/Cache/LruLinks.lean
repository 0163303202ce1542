import Mathlib
import Mazze.Storage.Cache.Lru

/-!
# The LRU's linked list

The LRU stands for a list of entries, each a cached element's key with the position of its
node in `recent`, most recent first. `Links` says that `recent`, the store and `head` and `rear`
lay such a list out: each position holds its key, each node points at the next entry's
position and each handle at the previous entry's (`Linked`), the first entry's handle is
`HEAD_POS`, and `head` and `rear` are the first and last positions. `Layout` adds what holds of
the whole cache: the positions are exactly `0 .. size - 1`, and every key not in the list has
the handle `NULL_POS`.

The operations change a few nodes and handles at a time; each change of the list is one lemma
here: pushing an entry at the front (`Links.cons`), taking one out after another
(`Links.unlink`), at the front (`Links.unlinkHead`) or at the back (`Links.dropRear`), and
moving entries to other positions (`Links.rename`). Each lemma asks of the new state only what
the code writes, and reads the rest of the old one off the nodes and handles it does not touch.
-/

set_option autoImplicit false

namespace Mazze.Storage.Cache

open LRU

variable {K : Type}

/-- Of a list whose images under `f` are distinct, an element of its front and one of its back
    have different images. -/
theorem map_ne_of_nodup_append {α β : Type} {f : α → β} {l₁ l₂ : List α}
    (h : ((l₁ ++ l₂).map f).Nodup) {u v : α} (hu : u ∈ l₁) (hv : v ∈ l₂) : f u ≠ f v := by
  rw [List.map_append, List.nodup_append] at h
  exact h.2.2 _ (List.mem_map_of_mem hu) _ (List.mem_map_of_mem hv)

/-- Of a list with distinct images, an element `x` and any other have different images. -/
theorem map_ne_of_nodup_middle {α β : Type} {f : α → β} {C C' : List α} {x e : α}
    (h : ((C ++ x :: C').map f).Nodup) (he : e ∈ C ++ C') : f e ≠ f x := by
  have hnd : ((x :: (C ++ C')).map f).Nodup := ((List.perm_middle.map f).nodup_iff).mp h
  rw [List.map_cons, List.nodup_cons] at hnd
  exact fun hex => hnd.1 (hex ▸ List.mem_map_of_mem he)

/-- Of a list with distinct images, the element after `x` and any other have different
    images. -/
theorem map_ne_of_nodup_next {α β : Type} {f : α → β} {C C' : List α} {x w v : α}
    (h : ((C ++ x :: C').map f).Nodup) (hw : w ∈ C'.head?) (hv : v ∈ C ++ x :: C'.tail) :
    f v ≠ f w := by
  cases C' with
  | nil => simp at hw
  | cons w' C'' =>
    obtain rfl : w' = w := by simpa using hw
    have hnd : ((C ++ [x]) ++ w' :: C'').map f |>.Nodup := by simpa using h
    refine map_ne_of_nodup_middle hnd ?_
    simpa using hv

/-- Of a list with distinct images, an element of the tail and the head have different
    images. -/
theorem ne_of_mem_tail_of_head? {α β : Type} {f : α → β} {L : List α} (hnd : (L.map f).Nodup)
    {u v : α} (hu : L.head? = some u) (hv : v ∈ L.tail) : f v ≠ f u := by
  cases L with
  | nil => simp at hu
  | cons w L' =>
    simp only [List.head?_cons, Option.some.injEq] at hu
    subst hu
    exact fun hvu => (List.nodup_cons.mp hnd).1 (hvu ▸ List.mem_map_of_mem hv)

/-- The positions `0 .. n` but `d`, with `n` moved to `d`, are the positions `0 .. n - 1`. -/
theorem perm_range_of_move {ps : List Nat} {d n : Nat} (h : (d :: ps).Perm (List.range (n + 1))) :
    (ps.map fun p => if p = n then d else p).Perm (List.range n) := by
  have hnd : (d :: ps).Nodup := h.nodup_iff.mpr List.nodup_range
  have h' : (d :: ps).Perm (n :: List.range n) :=
    h.trans (by rw [List.range_succ]; exact List.perm_append_singleton _ _)
  by_cases hdn : d = n
  · subst hdn
    have hnot : d ∉ ps := (List.nodup_cons.mp hnd).1
    have hid : (ps.map fun p => if p = d then d else p) = ps := by
      conv_rhs => rw [← List.map_id ps]
      exact List.map_congr_left fun p hp => if_neg fun hpd : p = d => hnot (hpd ▸ hp)
    rw [hid]
    exact (List.perm_cons d).mp h'
  · -- `n` is among the positions, once; it becomes `d`
    have hn : n ∈ ps := by
      have hn' : n ∈ d :: ps := h'.symm.subset List.mem_cons_self
      exact (List.mem_cons.mp hn').resolve_left (Ne.symm hdn)
    have hps := List.perm_cons_erase hn
    have hnot : n ∉ ps.erase n := ((List.nodup_cons.mp hnd).2.mem_erase_iff).not.mpr (by simp)
    have hid : ((ps.erase n).map fun p => if p = n then d else p) = ps.erase n := by
      conv_rhs => rw [← List.map_id (ps.erase n)]
      exact List.map_congr_left fun p hp => if_neg fun hpn : p = n => hnot (hpn ▸ hp)
    have hmap := hps.map fun p => if p = n then d else p
    rw [List.map_cons, if_pos rfl, hid] at hmap
    refine hmap.trans ((List.perm_cons n).mp ?_)
    exact (List.Perm.swap n d _).symm.trans ((hps.cons d).symm.trans h')

section Links

variable (recent : List (DoubleLinkListNode K)) (store : K → LRUHandle)

/-- Entry `e` links to entry `e'`: `e`'s node points at `e'`'s position, and `e'`'s handle at
    `e`'s. -/
def Linked (e e' : K × Nat) : Prop :=
  (recent[e.2]?).map DoubleLinkListNode.next = some e'.2 ∧ store e'.1 = ⟨e.2⟩

/-- The entries `ents` are laid out in `recent` and the store, with `head` and `rear` at their
    ends. -/
structure Links (head rear : Nat) (ents : List (K × Nat)) : Prop where
  nodup_keys : (ents.map Prod.fst).Nodup
  nodup_pos : (ents.map Prod.snd).Nodup
  key : ∀ e ∈ ents, (recent[e.2]?).map DoubleLinkListNode.cacheIndex = some e.1
  chain : ents.IsChain (Linked recent store)
  head : ∀ e ∈ ents.head?, head = e.2 ∧ store e.1 = ⟨headPos⟩
  rear : ∀ e ∈ ents.getLast?, rear = e.2

end Links

variable {r r' : List (DoubleLinkListNode K)} {s s' : K → LRUHandle} {hd tl hd' tl' : Nat}

/-- A node points at one entry only. -/
theorem Linked.next_eq {u v w : K × Nat} (huv : Linked r s u v) (huw : Linked r s u w) :
    v.2 = w.2 :=
  Option.some.inj (huv.1.symm.trans huw.1)

/-- A handle points back at one entry only. -/
theorem Linked.prev_eq {u v w : K × Nat} (huw : Linked r s u w) (hvw : Linked r s v w) :
    u.2 = v.2 := by
  have h := huw.2.symm.trans hvw.2
  simpa using h

theorem Links.nil : Links r s hd tl ([] : List (K × Nat)) where
  nodup_keys := List.nodup_nil
  nodup_pos := List.nodup_nil
  key := by simp
  chain := List.IsChain.nil
  head := by simp
  rear := by simp

theorem Links.node_of_mem {ents : List (K × Nat)}
    (h : Links r s hd tl ents) {e : K × Nat} (he : e ∈ ents) :
    ∃ node, r[e.2]? = some node ∧ node.cacheIndex = e.1 :=
  Option.map_eq_some_iff.mp (h.key e he)

/-- The last entry of a front links to the first entry of the back. -/
theorem Links.linked_append {a b : List (K × Nat)} (h : Links r s hd tl (a ++ b)) :
    ∀ x ∈ a.getLast?, ∀ y ∈ b.head?, Linked r s x y :=
  (List.isChain_append.mp h.chain).2.2

/-- A state that keeps the entries' nodes and handles lays the same list out. -/
theorem Links.congr {ents : List (K × Nat)} (h : Links r s hd tl ents)
    (hr : ∀ e ∈ ents, r'[e.2]? = r[e.2]?) (hs : ∀ e ∈ ents, s' e.1 = s e.1) :
    Links r' s' hd tl ents where
  nodup_keys := h.nodup_keys
  nodup_pos := h.nodup_pos
  key e he := by
    rw [hr e he]
    exact h.key e he
  chain := h.chain.imp_of_mem_imp fun u v hu hv huv =>
    ⟨by rw [hr u hu]; exact huv.1, by rw [hs v hv]; exact huv.2⟩
  head e he := by
    rw [hs e (List.mem_of_mem_head? he)]
    exact h.head e he
  rear := h.rear

/-- Moving the entries to other positions, each `p` to `σ p`: the new state has each key at its
    new position, each link between consecutive entries between their new positions, and the
    ends where they went. -/
theorem Links.rename {ents : List (K × Nat)} (h : Links r s hd tl ents) (σ : Nat → Nat)
    (hinj : ∀ u ∈ ents, ∀ v ∈ ents, σ u.2 = σ v.2 → u.2 = v.2)
    (hkey : ∀ e ∈ ents, (r'[σ e.2]?).map DoubleLinkListNode.cacheIndex = some e.1)
    (hlink : ∀ A u v B, ents = A ++ u :: v :: B → Linked r s u v →
      Linked r' s' (u.1, σ u.2) (v.1, σ v.2))
    (hhead : ∀ e ∈ ents.head?, hd' = σ e.2 ∧ s' e.1 = ⟨headPos⟩)
    (hrear : ∀ e ∈ ents.getLast?, tl' = σ e.2) :
    Links r' s' hd' tl' (ents.map fun e => (e.1, σ e.2)) where
  nodup_keys := by
    simpa [List.map_map, Function.comp_def] using h.nodup_keys
  nodup_pos := by
    have hσ : ((ents.map Prod.snd).map σ).Nodup := by
      refine List.Nodup.map_on ?_ h.nodup_pos
      simp only [List.mem_map]
      rintro _ ⟨u, hu, rfl⟩ _ ⟨v, hv, rfl⟩ huv
      exact hinj u hu v hv huv
    simpa [List.map_map, Function.comp_def] using hσ
  key := by
    simp only [List.mem_map]
    rintro _ ⟨e, he, rfl⟩
    exact hkey e he
  chain := by
    rw [List.isChain_map, List.isChain_iff_forall_rel_of_append_cons_cons]
    intro u v A B hAB
    exact hlink A u v B hAB (List.isChain_iff_forall_rel_of_append_cons_cons.mp h.chain hAB)
  head := by
    simp only [List.head?_map, Option.mem_def, Option.map_eq_some_iff]
    rintro _ ⟨e, he, rfl⟩
    exact hhead e he
  rear := by
    simp only [List.getLast?_map, Option.mem_def, Option.map_eq_some_iff]
    rintro _ ⟨e, he, rfl⟩
    exact hrear e he

/-- In a list without repeats, an element followed by another is not the last. -/
theorem getLast?_ne_of_append_cons_cons {α : Type} {A B : List α} {u v : α}
    (hnd : (A ++ u :: v :: B).Nodup) : (A ++ u :: v :: B).getLast? ≠ some u := by
  intro hl
  rw [List.getLast?_append, List.getLast?_cons_cons] at hl
  obtain ⟨x, hx⟩ : ∃ x, (v :: B).getLast? = some x := Option.ne_none_iff_exists'.mp (by simp)
  rw [hx, Option.some_or, Option.some.injEq] at hl
  subst hl
  exact (List.nodup_cons.mp (List.nodup_append.mp hnd).2.1).1 (List.mem_of_getLast? hx)

/-- Moving the entry `(k, m)` to the free position `d`. The node at `d` is the one that was at
    `m`; the entry before it now points at `d`, and the entry after it has its handle at `d`; the
    other nodes and handles of the list are kept, and the ends follow `m` to `d`. -/
theorem Links.relocate {C C' : List (K × Nat)} {k : K} {m d : Nat}
    (h : Links r s hd tl (C ++ (k, m) :: C')) (hfree : d ∉ (C ++ (k, m) :: C').map Prod.snd)
    (hpos : ∀ e ∈ C ++ (k, m) :: C', e.2 ≠ headPos)
    (hnode : r'[d]? = r[m]?)
    (hkeep : ∀ e ∈ C ++ C', e ∉ C.getLast? → r'[e.2]? = r[e.2]?)
    (hpred : ∀ u ∈ C.getLast?,
      (r'[u.2]?).map DoubleLinkListNode.cacheIndex = (r[u.2]?).map DoubleLinkListNode.cacheIndex ∧
      (r'[u.2]?).map DoubleLinkListNode.next = some d)
    (hsucc : ∀ w ∈ C'.head?, s' w.1 = ⟨d⟩)
    (hstore : ∀ v ∈ C ++ (k, m) :: C'.tail, s' v.1 = s v.1)
    (hhead : hd' = if C = [] then d else hd) (hrear : tl' = if C' = [] then d else tl) :
    Links r' s' hd' tl'
      ((C ++ (k, m) :: C').map fun e => (e.1, if e.2 = m then d else e.2)) := by
  have hmem : (k, m) ∈ C ++ (k, m) :: C' := by simp
  have hinj := List.inj_on_of_nodup_map h.nodup_pos
  have hCm : ∀ e ∈ C, e.2 ≠ m := fun e he =>
    map_ne_of_nodup_append h.nodup_pos he List.mem_cons_self
  have hC'm : ∀ e ∈ C', e.2 ≠ m := by
    have hnd : (((C ++ [(k, m)]) ++ C').map Prod.snd).Nodup := by simpa using h.nodup_pos
    exact fun e he => (map_ne_of_nodup_append hnd (u := (k, m)) (by simp) he).symm
  have hrest : ∀ e ∈ C ++ (k, m) :: C', e.2 ≠ m → e ∈ C ++ C' := by
    intro e he hem
    simp only [List.mem_append, List.mem_cons] at he ⊢
    rcases he with he | rfl | he
    · exact Or.inl he
    · exact absurd rfl hem
    · exact Or.inr he
  have hprev : ∀ u ∈ C.getLast?, Linked r s u (k, m) := fun u hu =>
    h.linked_append u hu (k, m) (by simp)
  have hnext : ∀ w ∈ C'.head?, Linked r s (k, m) w := by
    intro w hw
    cases C' with
    | nil => simp at hw
    | cons w' C'' =>
      simp only [List.head?_cons, Option.mem_def, Option.some.injEq] at hw
      subst hw
      exact (List.isChain_append_cons_cons.mp h.chain).2.1
  refine h.rename (fun p => if p = m then d else p) ?_ ?_ ?_ ?_ ?_
  · -- no entry is at `d`, so the move is one to one
    intro u hu v hv huv
    have hdu : u.2 ≠ d := fun hdu => hfree (hdu ▸ List.mem_map_of_mem hu)
    have hdv : v.2 ≠ d := fun hdv => hfree (hdv ▸ List.mem_map_of_mem hv)
    split_ifs at huv <;> omega
  · intro e he
    by_cases hem : e.2 = m
    · rw [if_pos hem, hnode, ← hem]
      exact h.key e he
    · rw [if_neg hem]
      by_cases hel : e ∈ C.getLast?
      · rw [(hpred e hel).1]
        exact h.key e he
      · rw [hkeep e (hrest e he hem) hel]
        exact h.key e he
  · intro A u v B hAB huv
    have hu : u ∈ C ++ (k, m) :: C' := by rw [hAB]; simp
    have hv : v ∈ C ++ (k, m) :: C' := by rw [hAB]; simp
    have huv2 : u.2 ≠ v.2 := by
      have hnd : (((A ++ [u]) ++ v :: B).map Prod.snd).Nodup := by
        rw [List.append_assoc, List.singleton_append, ← hAB]
        exact h.nodup_pos
      exact map_ne_of_nodup_append hnd (by simp) (by simp)
    by_cases hum : u.2 = m
    · -- `u` is the moved entry, and `v` the one after it
      obtain rfl : u = (k, m) := hinj hu hmem hum
      cases C' with
      | nil =>
        have hnd : (A ++ (k, m) :: v :: B).Nodup := hAB ▸ h.nodup_pos.of_map _
        exact absurd (by rw [← hAB]; simp) (getLast?_ne_of_append_cons_cons hnd)
      | cons w C'' =>
        have hvw : v = w := hinj hv (by simp) (Linked.next_eq huv (hnext w (by simp)))
        subst hvw
        have hvm : v.2 ≠ m := fun hvm => huv2 hvm.symm
        show Linked r' s' (k, if m = m then d else m) (v.1, if v.2 = m then d else v.2)
        rw [if_pos rfl, if_neg hvm]
        exact ⟨by rw [hnode]; exact huv.1, hsucc v (by simp)⟩
    · by_cases hvm : v.2 = m
      · -- `v` is the moved entry, and `u` the one before it
        obtain rfl : v = (k, m) := hinj hv hmem hvm
        rcases List.eq_nil_or_concat C with hC | ⟨C₀, p, hC⟩
        · subst hC
          exact absurd ((h.head (k, m) (by simp)).2.symm.trans huv.2)
            (by simpa using (hpos u hu).symm)
        · have hpC : p ∈ C.getLast? := by simp [hC]
          have hup : u = p := hinj hu (by simp [hC]) (Linked.prev_eq huv (hprev p hpC))
          subst hup
          show Linked r' s' (u.1, if u.2 = m then d else u.2) (k, if m = m then d else m)
          rw [if_neg hum, if_pos rfl]
          exact ⟨(hpred u hpC).2, by rw [hstore (k, m) (by simp)]; exact huv.2⟩
      · -- neither is moved: `u` is not before `(k, m)` and `v` not after it
        have hul : u ∉ C.getLast? := fun hul => hvm (Linked.next_eq (hprev u hul) huv).symm
        have hvs : v ∉ C'.head? := fun hvs => hum (Linked.prev_eq huv (hnext v hvs))
        have hv' : v ∈ C ++ (k, m) :: C'.tail := by
          cases C' with
          | nil => simpa using hv
          | cons w C'' =>
            have hvw : v ≠ w := fun hvw => hvs (by simp [hvw])
            simp only [List.mem_append, List.mem_cons, List.tail_cons] at hv ⊢
            tauto
        show Linked r' s' (u.1, if u.2 = m then d else u.2) (v.1, if v.2 = m then d else v.2)
        rw [if_neg hum, if_neg hvm]
        exact ⟨by rw [hkeep u (hrest u hu hum) hul]; exact huv.1, by rw [hstore v hv']; exact huv.2⟩
  · intro e he
    obtain ⟨h1, h2⟩ := h.head e he
    cases C with
    | nil =>
      have he' : e = (k, m) := by simpa using he.symm
      subst he'
      exact ⟨by simp [hhead], by rw [hstore (k, m) (by simp)]; exact h2⟩
    | cons c C₀ =>
      have he' : e = c := by simpa using he.symm
      subst he'
      exact ⟨by simp [hhead, h1, hCm e (by simp)], by rw [hstore e (by simp)]; exact h2⟩
  · intro e he
    have h1 := h.rear e he
    cases C' with
    | nil =>
      have he' : e = (k, m) := by simpa using he.symm
      subst he'
      simp [hrear]
    | cons w C'' =>
      have heC : e ∈ w :: C'' := List.mem_of_getLast? (by simpa [List.getLast?_append] using he)
      simp [hrear, h1, hC'm e heC]

/-- `swap_remove` at the free position `d` of a vector whose last node, at `n`, is the entry
    `(k, n)`'s: once that entry's neighbours point at `d`, the entry moves to `d`. -/
theorem Links.swapRemove {C C' : List (K × Nat)} {k : K} {n d : Nat}
    {r₁ : List (DoubleLinkListNode K)}
    (h : Links r s hd tl (C ++ (k, n) :: C')) (hfree : d ∉ (C ++ (k, n) :: C').map Prod.snd)
    (hpos : ∀ e ∈ C ++ (k, n) :: C', e.2 < headPos ∧ e.2 ≤ n) (hdn : d < n)
    (hlen : r₁.length = n + 1) (hlast : r₁[n]? = r[n]?)
    (hkeep : ∀ e ∈ C ++ C', e ∉ C.getLast? → r₁[e.2]? = r[e.2]?)
    (hpred : ∀ u ∈ C.getLast?,
      (r₁[u.2]?).map DoubleLinkListNode.cacheIndex = (r[u.2]?).map DoubleLinkListNode.cacheIndex ∧
      (r₁[u.2]?).map DoubleLinkListNode.next = some d)
    (hsucc : ∀ w ∈ C'.head?, s' w.1 = ⟨d⟩)
    (hstore : ∀ v ∈ C ++ (k, n) :: C'.tail, s' v.1 = s v.1)
    (hhead : hd' = if C = [] then d else hd) (hrear : tl' = if C' = [] then d else tl) :
    Links (BinaryHeap.swapRemove r₁ d (by omega)).2 s' hd' tl'
      ((C ++ (k, n) :: C').map fun e => (e.1, if e.2 = n then d else e.2)) := by
  -- the other entries are below `n`, and none is at `d`
  have hbelow : ∀ e ∈ C ++ C', e.2 < n ∧ e.2 ≠ d := by
    intro e he
    have hen : e.2 ≠ n := map_ne_of_nodup_middle h.nodup_pos he
    have hmem : e ∈ C ++ (k, n) :: C' := by
      simp only [List.mem_append, List.mem_cons] at he ⊢
      tauto
    refine ⟨lt_of_le_of_ne (hpos e hmem).2 hen, fun hed => hfree ?_⟩
    rw [← hed]
    exact List.mem_map_of_mem hmem
  have hread : ∀ e ∈ C ++ C',
      (BinaryHeap.swapRemove r₁ d (by omega)).2[e.2]? = r₁[e.2]? := fun e he =>
    BinaryHeap.getElem?_swapRemove_of_ne _ _ _ (hbelow e he).2 (by rw [hlen]; exact (hbelow e he).1)
  refine h.relocate hfree (fun e he => (hpos e he).1.ne) ?_ ?_ ?_ hsucc hstore hhead hrear
  · rw [BinaryHeap.getElem?_swapRemove_self _ _ _ (by omega), hlen, Nat.add_sub_cancel, hlast]
  · intro e he hne
    rw [hread e he, hkeep e he hne]
  · intro u hu
    rw [hread u (List.mem_append_left _ (List.mem_of_getLast? hu))]
    exact hpred u hu

/-- Pushing an entry `x` of a new key at a new position in front: its node is read at its
    position and points at the old head, its handle is `HEAD_POS`, the old head's handle points
    at it, and the other entries' nodes and handles are kept. -/
theorem Links.cons {ents : List (K × Nat)} (h : Links r s hd tl ents) {x : K × Nat}
    (hk : x.1 ∉ ents.map Prod.fst) (hx : x.2 ∉ ents.map Prod.snd)
    (hkey : (r'[x.2]?).map DoubleLinkListNode.cacheIndex = some x.1)
    (hnext : ∀ e ∈ ents.head?, (r'[x.2]?).map DoubleLinkListNode.next = some e.2)
    (hr : ∀ e ∈ ents, r'[e.2]? = r[e.2]?)
    (hsx : s' x.1 = ⟨headPos⟩) (hsh : ∀ e ∈ ents.head?, s' e.1 = ⟨x.2⟩)
    (hs : ∀ e ∈ ents.tail, s' e.1 = s e.1)
    (htl : ∀ e ∈ (x :: ents).getLast?, tl' = e.2) :
    Links r' s' x.2 tl' (x :: ents) where
  nodup_keys := List.nodup_cons.mpr ⟨hk, h.nodup_keys⟩
  nodup_pos := List.nodup_cons.mpr ⟨hx, h.nodup_pos⟩
  key := by
    intro e he
    rcases List.mem_cons.mp he with rfl | he
    · exact hkey
    · rw [hr e he]
      exact h.key e he
  chain := by
    refine List.IsChain.cons ?_ fun e he => ⟨hnext e he, hsh e he⟩
    refine h.chain.imp_of_mem_tail_imp fun u v hu hv huv => ⟨?_, ?_⟩
    · rw [hr u hu]
      exact huv.1
    · rw [hs v hv]
      exact huv.2
  head := by simpa using hsx
  rear := htl

/-- Pushing an entry `(k, e)` in front of a non-empty list whose head is `f`: the node at `e`
    reads `k` and points at the old head, the other entries' nodes are kept, `k`'s handle becomes
    `HEAD_POS` and `f`'s handle `e`. The rear stays where it was. -/
theorem Links.pushFront [DecidableEq K] {ents : List (K × Nat)} {f : K × Nat} {k : K} {e : Nat}
    (h : Links r s hd tl ents) (hf : ents.head? = some f)
    (hk : k ∉ ents.map Prod.fst) (he : e ∉ ents.map Prod.snd)
    (hnode : (r'[e]?).map (fun n => (n.cacheIndex, n.next)) = some (k, hd))
    (hr : ∀ x ∈ ents, r'[x.2]? = r[x.2]?) :
    Links r' (Function.update (Function.update s k ⟨headPos⟩) f.1 ⟨e⟩) e tl ((k, e) :: ents) := by
  have hfm : f ∈ ents := List.mem_of_mem_head? hf
  have hkf : k ≠ f.1 := fun hkf => hk (hkf ▸ List.mem_map_of_mem hfm)
  have hhd : hd = f.2 := (h.head f hf).1
  have hhead : ∀ x ∈ ents.head?, x = f := fun x hx => Option.some.inj ((Option.mem_def.mp hx).symm.trans hf)
  obtain ⟨n, hn, hnk⟩ := Option.map_eq_some_iff.mp hnode
  obtain ⟨hnkey, hnnext⟩ := Prod.mk.inj hnk
  refine h.cons (x := (k, e)) hk he (by simp [hn, hnkey]) ?_ hr ?_ ?_ ?_ ?_
  · -- the new node points at the old head
    intro x hx
    rw [hhead x hx, ← hhd]
    simp [hn, hnnext]
  · rw [Function.update_of_ne hkf, Function.update_self]
  · intro x hx
    rw [hhead x hx, Function.update_self]
  · -- the other keys keep their handles
    intro x hx
    have hxk : x.1 ≠ k := fun hxk => hk (hxk ▸ List.mem_map_of_mem (List.mem_of_mem_tail hx))
    rw [Function.update_of_ne (ne_of_mem_tail_of_head? h.nodup_keys hf hx), Function.update_of_ne hxk]
  · -- the list is not empty, so the last entry is its own
    intro x hx
    cases ents with
    | nil => simp at hf
    | cons y ys => exact h.rear x (by simpa [List.getLast?_cons_cons] using hx)

/-- Taking the last entry out: the rear moves back to the entry before it. -/
theorem Links.dropRear {a : List (K × Nat)} {x : K × Nat} (h : Links r s hd tl (a ++ [x]))
    (htl : ∀ e ∈ a.getLast?, tl' = e.2) : Links r s hd tl' a where
  nodup_keys := (List.nodup_append.mp (List.map_append ▸ h.nodup_keys)).1
  nodup_pos := (List.nodup_append.mp (List.map_append ▸ h.nodup_pos)).1
  key e he := h.key e (List.mem_append_left _ he)
  chain := h.chain.left_of_append
  head e he := h.head e (by simp_all [List.head?_append])
  rear := htl

/-- Taking the first entry out: the next one becomes the head. -/
theorem Links.unlinkHead {b : List (K × Nat)} {x y : K × Nat} (h : Links r s hd tl (x :: y :: b))
    (hsy : s' y.1 = ⟨headPos⟩) (hs : ∀ e ∈ b, s' e.1 = s e.1) : Links r s' y.2 tl (y :: b) where
  nodup_keys := (List.nodup_cons.mp h.nodup_keys).2
  nodup_pos := (List.nodup_cons.mp h.nodup_pos).2
  key e he := h.key e (List.mem_cons_of_mem _ he)
  chain := by
    refine (List.isChain_cons_cons.mp h.chain).2.imp_of_mem_tail_imp fun u v _ hv huv =>
      ⟨huv.1, ?_⟩
    rw [hs v hv]
    exact huv.2
  head := by simpa using hsy
  rear e he := h.rear e (by rwa [List.getLast?_cons_cons])

/-- Taking an entry `x` out from between `p` and `y`: `p`'s node now points at `y`, and `y`'s
    handle at `p`. -/
theorem Links.unlink {a b : List (K × Nat)} {p x y : K × Nat}
    (h : Links r s hd tl (a ++ p :: x :: y :: b)) {node : DoubleLinkListNode K}
    (hnode : r[p.2]? = some node) (hsy : s' y.1 = ⟨p.2⟩)
    (hs : ∀ e ∈ a ++ p :: y :: b, e.1 ≠ y.1 → s' e.1 = s e.1) :
    Links (r.set p.2 { node with next := y.2 }) s' hd tl (a ++ p :: y :: b) := by
  have hsub : (a ++ p :: y :: b).Sublist (a ++ p :: x :: y :: b) :=
    ((List.sublist_cons_self x _).cons_cons p).append_left a
  have hkeys : (((a ++ [p]) ++ x :: y :: b).map Prod.fst).Nodup := by simpa using h.nodup_keys
  have hpos : (((a ++ [p]) ++ x :: y :: b).map Prod.snd).Nodup := by simpa using h.nodup_pos
  have hchain := h.chain
  rw [List.isChain_append_cons_cons, List.isChain_cons_cons] at hchain
  obtain ⟨hfront, hpx, -, hback⟩ := hchain
  -- the write changes `p`'s node only, and only its `next`
  have hlt : p.2 < r.length := (List.getElem?_eq_some_iff.mp hnode).1
  have hset : ∀ q : Nat, q ≠ p.2 → (r.set p.2 { node with next := y.2 })[q]? = r[q]? :=
    fun q hq => List.getElem?_set_ne (Ne.symm hq)
  have hkey : ∀ q : Nat, ((r.set p.2 { node with next := y.2 })[q]?).map
      DoubleLinkListNode.cacheIndex = (r[q]?).map DoubleLinkListNode.cacheIndex := by
    intro q
    by_cases hq : q = p.2
    · subst hq
      rw [List.getElem?_set_self hlt, hnode]
      rfl
    · rw [hset q hq]
  have hmem : ∀ e ∈ a ++ [p], e ∈ a ++ p :: y :: b := by
    intro e he
    simp only [List.mem_append, List.mem_cons, List.not_mem_nil] at he ⊢
    tauto
  refine ⟨h.nodup_keys.sublist (hsub.map _), h.nodup_pos.sublist (hsub.map _),
    fun e he => (hkey e.2).trans (h.key e (hsub.subset he)), ?_, ?_, ?_⟩
  · rw [List.isChain_append_cons_cons]
    refine ⟨?_, ⟨by simp [List.getElem?_set_self hlt], hsy⟩, ?_⟩
    · -- the front keeps its links: `p`'s node pointed at `x`, which is not in the front
      refine hfront.imp_of_mem_tail_imp fun u v hu hv huv => ⟨?_, ?_⟩
      · have hv' := List.mem_of_mem_tail hv
        by_cases hup : u.2 = p.2
        · have hvx : v.2 = x.2 := by
            have h1 := huv.1
            rw [hup, hpx.1] at h1
            exact (Option.some.inj h1).symm
          exact absurd hvx (map_ne_of_nodup_append hpos hv' List.mem_cons_self)
        · rw [hset _ hup]
          exact huv.1
      · have hv' := List.mem_of_mem_tail hv
        rw [hs v (hmem v hv') (map_ne_of_nodup_append hkeys hv' (by simp))]
        exact huv.2
    · -- so does the back: its nodes are not `p`'s, its handles not `y`'s
      refine hback.imp_of_mem_tail_imp fun u v hu hv huv => ⟨?_, ?_⟩
      · have hup : u.2 ≠ p.2 :=
          (map_ne_of_nodup_append hpos (List.mem_append_right a List.mem_cons_self)
            (List.mem_cons_of_mem x hu)).symm
        rw [hset _ hup]
        exact huv.1
      · have hkeys' : (((a ++ [p, x, y]) ++ b).map Prod.fst).Nodup := by
          simpa using h.nodup_keys
        have hvy : v.1 ≠ y.1 := (map_ne_of_nodup_append hkeys' (by simp) hv).symm
        rw [hs v (List.mem_append_right a (List.mem_cons_of_mem p (List.mem_cons_of_mem y hv))) hvy]
        exact huv.2
  · intro e he
    have he' : e ∈ (a ++ [p]).head? := by simpa [List.head?_append] using he
    obtain ⟨h1, h2⟩ := h.head e (by simpa [List.head?_append] using he)
    have hey : e.1 ≠ y.1 :=
      map_ne_of_nodup_append hkeys (List.mem_of_mem_head? he') (by simp)
    exact ⟨h1, by rw [hs e (by simpa using hmem e (List.mem_of_mem_head? he')) hey]; exact h2⟩
  · intro e he
    exact h.rear e (by simpa [List.getLast?_append, List.getLast?_cons_cons] using he)

end Mazze.Storage.Cache
