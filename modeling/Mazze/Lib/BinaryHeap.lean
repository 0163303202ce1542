import Mathlib

/-!
# Binary max-heaps laid out in a list

The nodes of a binary heap sit in level order: the parent of position `j > 0` is
`(j - 1) / 2`, and the children of `i` are `2 * i + 1` and `2 * i + 2`. A list is a heap for a
priority `f` when no node outranks its parent (`IsHeap`); its root then outranks every node
(`IsHeap.le_root`).

Sifting restores the order after one position changed, by exchanging a node with its parent
(up) or with its greater child (down). The two loop invariants are the textbook ones: the
order holds everywhere except on the edge into the moving node (`UpInv`) or on the edges out
of it (`DownInv`), and the moving node's parent outranks the moving node's children. Each
exchange keeps its invariant (`UpInv.swap`, `DownInv.swap`), where the loop stops the list is
a heap (`UpInv.exit`, `DownInv.exit`), and an exchange only permutes (`perm_swap`).

An indexed heap also keeps, for each node's key, the node's position (`Positions`); an
exchange keeps that map right once both exchanged keys are pointed at their new places
(`Positions.swap`). `swapRemove` is the removal of a vector's element by moving the last one
into its place.
-/

set_option autoImplicit false

namespace BinaryHeap

variable {α : Type}

/-! ## Exchanging two positions -/

/-- `a` with the nodes at `i` and `j` exchanged. -/
def swap (a : List α) (i j : Nat) (hi : i < a.length) (hj : j < a.length) : List α :=
  (a.set i a[j]).set j a[i]

@[simp]
theorem length_swap (a : List α) (i j : Nat) (hi : i < a.length) (hj : j < a.length) :
    (swap a i j hi hj).length = a.length := by
  simp [swap]

/-- An exchange only permutes. -/
theorem perm_swap (a : List α) (i j : Nat) (hi : i < a.length) (hj : j < a.length) :
    (swap a i j hi hj).Perm a := by
  by_cases hij : i = j
  · subst hij
    simp [swap]
  classical
  rw [List.perm_iff_count]
  intro x
  have hle := List.boole_getElem_le_count (a := x) hi
  simp only [swap, List.count_set, List.length_set, hi, hj, List.getElem_set, hij, if_false]
  split_ifs at hle ⊢ <;> omega

/-- `Vec::swap_remove`: the element at `index`, and the vector with its last element moved
    into `index`'s place. -/
def swapRemove (a : List α) (index : Nat) (hi : index < a.length) : α × List α :=
  (a[index], (a.set index a[a.length - 1]).dropLast)

@[simp]
theorem length_swapRemove (a : List α) (index : Nat) (hi : index < a.length) :
    (swapRemove a index hi).2.length = a.length - 1 := by
  simp [swapRemove]

/-- What `swap_remove` returns and what it leaves are the vector's elements. -/
theorem perm_swapRemove (a : List α) (index : Nat) (hi : index < a.length) :
    ((swapRemove a index hi).1 :: (swapRemove a index hi).2).Perm a := by
  classical
  have hne : a.set index a[a.length - 1] ≠ [] := by
    rw [← List.length_pos_iff, List.length_set]
    omega
  -- the last element after the write is the one written, also when `index` is the last
  have hlast : (a.set index a[a.length - 1]).getLast hne = a[a.length - 1] := by
    rw [List.getLast_eq_getElem]
    simp only [List.getElem_set, List.length_set]
    split <;> simp_all
  rw [List.perm_iff_count]
  intro x
  have hc := congrArg (List.count x) (List.dropLast_append_getLast hne)
  rw [List.count_append, hlast, List.count_set hi, List.count_singleton] at hc
  have hle := List.boole_getElem_le_count (a := x) hi
  simp only [swapRemove, List.count_cons]
  split_ifs at hc hle ⊢ <;> omega

/-- Where the removed element was, the last one now is. -/
theorem getElem_swapRemove (a : List α) (index : Nat) (hi : index < a.length)
    (hl : index < (swapRemove a index hi).2.length) :
    (swapRemove a index hi).2[index] = a[a.length - 1] := by
  simp only [swapRemove, List.getElem_dropLast, List.getElem_set_self]

/-- `swap_remove` is a write into the vector without its last element; when it removes the
    last element the write is out of range and changes nothing. -/
theorem swapRemove_eq_set (a : List α) (index : Nat) (hi : index < a.length) :
    (swapRemove a index hi).2 = a.dropLast.set index a[a.length - 1] := by
  apply List.ext_getElem
  · simp
  · intro j hj _
    simp only [swapRemove, List.getElem_dropLast, List.getElem_set]

/-- Moving the node at `j` into the hole at `i` and putting `v` where it was is exchanging `v`,
    written into the hole, with that node. -/
theorem set_set_eq_swap (a : List α) {i j : Nat} (hi : i < a.length) (hj : j < a.length)
    (hij : i ≠ j) (v : α) :
    (a.set i a[j]).set j v = swap (a.set i v) i j (by simpa using hi) (by simpa using hj) := by
  simp only [swap, List.getElem_set_self, List.getElem_set_ne hij, List.set_set]

theorem perm_set_set (a : List α) {i j : Nat} (hi : i < a.length) (hj : j < a.length)
    (hij : i ≠ j) (v : α) : ((a.set i a[j]).set j v).Perm (a.set i v) := by
  rw [set_set_eq_swap a hi hj hij]
  exact perm_swap _ _ _ _ _

/-- When `swap_remove` removes the last element, it is `dropLast`. -/
theorem swapRemove_of_last (a : List α) (index : Nat) (hi : index < a.length)
    (hl : a.length - 1 ≤ index) : (swapRemove a index hi).2 = a.dropLast := by
  rw [swapRemove_eq_set, List.set_eq_of_length_le (by simpa using hl)]

/-- After `swap_remove`, the removed element's place holds the last one. -/
theorem getElem?_swapRemove_self (a : List α) (index : Nat) (hi : index < a.length)
    (hl : index < a.length - 1) : (swapRemove a index hi).2[index]? = a[a.length - 1]? := by
  rw [swapRemove_eq_set, List.getElem?_set_self (by simpa using hl),
    List.getElem?_eq_getElem (by omega)]

/-- After `swap_remove`, the elements before the last other than the removed one stay. -/
theorem getElem?_swapRemove_of_ne (a : List α) (index : Nat) (hi : index < a.length) {j : Nat}
    (hj : j ≠ index) (hjl : j < a.length - 1) : (swapRemove a index hi).2[j]? = a[j]? := by
  rw [swapRemove_eq_set, List.getElem?_set_ne (Ne.symm hj), List.getElem?_dropLast, if_pos hjl]

/-! ## Heap order and the two sift invariants -/

section Order

variable {β : Type} [LinearOrder β] (f : α → β)

/-- No node outranks its parent. -/
def IsHeap (a : List α) : Prop :=
  ∀ j (hj : j < a.length), 0 < j → f a[j] ≤ f a[(j - 1) / 2]

/-- Sifting up from `i`: the order holds except on the edge into `i`, and `i`'s parent
    outranks `i`'s children. -/
structure UpInv (a : List α) (i : Nat) : Prop where
  others : ∀ j (hj : j < a.length), 0 < j → j ≠ i → f a[j] ≤ f a[(j - 1) / 2]
  bridge : ∀ j (hj : j < a.length) (hj0 : 0 < j) (hji : (j - 1) / 2 = i), 0 < i →
    f a[j] ≤ f a[(i - 1) / 2]

/-- Sifting down from `i`: the order holds except on the edges out of `i`, and `i`'s parent
    outranks `i`'s children. -/
structure DownInv (a : List α) (i : Nat) : Prop where
  others : ∀ j (hj : j < a.length), 0 < j → (j - 1) / 2 ≠ i → f a[j] ≤ f a[(j - 1) / 2]
  bridge : ∀ j (hj : j < a.length) (hj0 : 0 < j) (hji : (j - 1) / 2 = i), 0 < i →
    f a[j] ≤ f a[(i - 1) / 2]

variable {f} {a : List α} {i : Nat}

/-- Moving a node up past a parent it outranks keeps the invariant, one level higher. -/
theorem UpInv.swap (hi : i < a.length) (hinv : UpInv f a i) (hpos : 0 < i)
    (hlt : f a[(i - 1) / 2] < f a[i]) :
    UpInv f (swap a i ((i - 1) / 2) hi (by omega)) ((i - 1) / 2) := by
  obtain ⟨hexc, hbr⟩ := hinv
  constructor
  · intro j hj hj0 hjp
    simp only [length_swap] at hj
    simp only [BinaryHeap.swap, List.getElem_set]
    have := hexc j hj hj0
    have := hbr j hj hj0
    split_ifs <;> grind
  · intro j hj hj0 hjp hp0
    simp only [length_swap] at hj
    simp only [BinaryHeap.swap, List.getElem_set]
    have := hexc j hj hj0
    have := hexc ((i - 1) / 2) (by omega) hp0 (by omega)
    split_ifs <;> grind

/-- Where the moving node no longer outranks its parent, or has reached the root, the list
    is a heap. -/
theorem UpInv.exit (hi : i < a.length) (hinv : UpInv f a i)
    (hstop : ∀ (hpos : 0 < i), f a[i] ≤ f a[(i - 1) / 2]) : IsHeap f a := by
  intro j hj hj0
  by_cases hji : j = i
  · subst hji
    exact hstop hj0
  · exact hinv.others j hj hj0 hji

/-- Moving a node down past its greater child, when that child outranks it, keeps the
    invariant, one level lower. -/
theorem DownInv.swap (hi : i < a.length) (hinv : DownInv f a i) {c : Nat} (hc : c < a.length)
    (hci : (c - 1) / 2 = i) (hc0 : 0 < c)
    (hmax : ∀ j (hj : j < a.length), 0 < j → (j - 1) / 2 = i → f a[j] ≤ f a[c])
    (hlt : f a[i] < f a[c]) :
    DownInv f (swap a i c hi hc) c := by
  obtain ⟨hexc, hbr⟩ := hinv
  constructor
  · intro j hj hj0 hjp
    simp only [length_swap] at hj
    simp only [BinaryHeap.swap, List.getElem_set]
    have := hexc j hj hj0
    have := hmax j hj hj0
    have := hbr c hc hc0 hci
    split_ifs <;> grind
  · intro j hj hj0 hjc hc0'
    simp only [length_swap] at hj
    simp only [BinaryHeap.swap, List.getElem_set]
    have := hexc j hj hj0 (by omega)
    split_ifs <;> grind

/-- Where the moving node outranks all its children, or has none, the list is a heap. -/
theorem DownInv.exit (hinv : DownInv f a i)
    (hstop : ∀ j (hj : j < a.length) (hj0 : 0 < j) (hji : (j - 1) / 2 = i), f a[j] ≤ f a[i]) :
    IsHeap f a := by
  intro j hj hj0
  by_cases hji : (j - 1) / 2 = i
  · subst hji
    exact hstop j hj hj0 rfl
  · exact hinv.others j hj hj0 hji

/-! ## Where the sifts start -/

/-- Raising a node's priority leaves a list to sift up from it. -/
theorem IsHeap.upInv_set (h : IsHeap f a) (hi : i < a.length) {v : α} (hv : f a[i] ≤ f v) :
    UpInv f (a.set i v) i := by
  constructor
  · intro j hj hj0 hji
    simp only [List.length_set] at hj
    simp only [List.getElem_set]
    have := h j hj hj0
    split_ifs <;> grind
  · intro j hj hj0 hji hi0
    simp only [List.length_set] at hj
    simp only [List.getElem_set]
    have := h j hj hj0
    have := h i hi hi0
    split_ifs <;> grind

/-- Lowering a node's priority leaves a list to sift down from it. -/
theorem IsHeap.downInv_set (h : IsHeap f a) (hi : i < a.length) {v : α} (hv : f v ≤ f a[i]) :
    DownInv f (a.set i v) i := by
  constructor
  · intro j hj hj0 hji
    simp only [List.length_set] at hj
    simp only [List.getElem_set]
    have := h j hj hj0
    split_ifs <;> grind
  · intro j hj hj0 hji hi0
    simp only [List.length_set] at hj
    simp only [List.getElem_set]
    have := h j hj hj0
    have := h i hi hi0
    split_ifs <;> grind

/-- Replacing a node by one of the same priority keeps the heap. -/
theorem IsHeap.set_of_eq (h : IsHeap f a) (hi : i < a.length) {v : α} (hv : f v = f a[i]) :
    IsHeap f (a.set i v) := by
  refine (h.upInv_set hi hv.ge).exit (by simpa using hi) fun hpos => ?_
  simp only [List.getElem_set_self, List.getElem_set]
  have := h i hi hpos
  split_ifs <;> grind

/-- A node pushed at the end is where `append` starts sifting up. -/
theorem IsHeap.upInv_append (h : IsHeap f a) (v : α) : UpInv f (a ++ [v]) a.length := by
  constructor
  · intro j hj hj0 hji
    simp only [List.length_append, List.length_singleton] at hj
    have hjl : j < a.length := by omega
    simp only [List.getElem_append_left hjl, List.getElem_append_left (by omega : (j - 1) / 2 < a.length)]
    exact h j hjl hj0
  · intro j hj hj0 hji _
    simp only [List.length_append, List.length_singleton] at hj
    omega

theorem IsHeap.dropLast (h : IsHeap f a) : IsHeap f a.dropLast := by
  intro j hj hj0
  simp only [List.getElem_dropLast]
  exact h j (by simp at hj; omega) hj0

/-- `swap_remove` from a heap leaves the last node where a node of priority `f a[i]` was: to sift
    down from there when it ranks lower. -/
theorem IsHeap.swapRemove_down (h : IsHeap f a) (hi : i < a.length) (hl : i < a.length - 1)
    (hle : f a[a.length - 1] ≤ f a[i]) : DownInv f (swapRemove a i hi).2 i := by
  rw [swapRemove_eq_set]
  exact h.dropLast.downInv_set (by simpa using hl) (by simpa using hle)

/-- `swap_remove` from a heap, with the last node ranking higher than the removed one: a list to
    sift up from the removed node's place. -/
theorem IsHeap.swapRemove_up (h : IsHeap f a) (hi : i < a.length) (hl : i < a.length - 1)
    (hle : f a[i] ≤ f a[a.length - 1]) : UpInv f (swapRemove a i hi).2 i := by
  rw [swapRemove_eq_set]
  exact h.dropLast.upInv_set (by simpa using hl) (by simpa using hle)

theorem IsHeap.swapRemove_of_eq (h : IsHeap f a) (hi : i < a.length) (hl : i < a.length - 1)
    (heq : f a[a.length - 1] = f a[i]) : IsHeap f (swapRemove a i hi).2 := by
  rw [swapRemove_eq_set]
  exact h.dropLast.set_of_eq (by simpa using hl) (by simpa using heq)

/-- The root outranks every node. The induction climbs from `j` to its parent. -/
theorem IsHeap.le_root (h : IsHeap f a) :
    ∀ j (hj : j < a.length), f a[j] ≤ f a[0]
  | 0, _ => le_rfl
  | j + 1, hj =>
    have hp : (j + 1 - 1) / 2 < j + 1 := by omega
    (h (j + 1) hj (by omega)).trans (IsHeap.le_root h ((j + 1 - 1) / 2) (by omega))
termination_by j => j

/-! ## Sifting with a hole

The sifts of a real heap move a hole instead of swapping: `v` waits aside while the node at
`j` moves into the hole at `i`, and the hole moves to `j`. Seen with `v` written into the
hole, that step is an exchange (`set_set_eq_swap`), so the swap invariants carry over. -/

theorem UpInv.hole (hi : i < a.length) {v : α} (hinv : UpInv f (a.set i v) i) (hpos : 0 < i)
    (hlt : f a[(i - 1) / 2] < f v) :
    UpInv f ((a.set i a[(i - 1) / 2]).set ((i - 1) / 2) v) ((i - 1) / 2) := by
  have hne : i ≠ (i - 1) / 2 := by omega
  rw [set_set_eq_swap a hi (by omega) hne]
  refine hinv.swap (by simpa using hi) hpos ?_
  rwa [List.getElem_set_self, List.getElem_set_ne hne]

theorem DownInv.hole (hi : i < a.length) {v : α} (hinv : DownInv f (a.set i v) i) {c : Nat}
    (hc : c < a.length) (hci : (c - 1) / 2 = i) (hc0 : 0 < c)
    (hmax : ∀ j (hj : j < a.length), 0 < j → (j - 1) / 2 = i → f a[j] ≤ f a[c])
    (hlt : f v < f a[c]) :
    DownInv f ((a.set i a[c]).set c v) c := by
  have hne : i ≠ c := by omega
  rw [set_set_eq_swap a hi hc hne]
  refine hinv.swap (by simpa using hi) (by simpa using hc) hci hc0 (fun j hj hj0 hji => ?_) ?_
  · have hij : i ≠ j := by omega
    simp only [List.length_set] at hj
    rw [List.getElem_set_ne hij, List.getElem_set_ne hne]
    exact hmax j hj hj0 hji
  · rwa [List.getElem_set_self, List.getElem_set_ne hne]

end Order

/-! ## Position maps -/

section Positions

variable {κ : Type} (key : α → κ)

/-- `m` points every node's key at the node's position. -/
def Positions (a : List α) (m : κ → Option Nat) : Prop :=
  ∀ j (hj : j < a.length), m (key a[j]) = some j

variable {key} {a : List α} {m : κ → Option Nat}

/-- Two nodes of one key are one node. -/
theorem Positions.inj (hp : Positions key a m) {j k : Nat} (hj : j < a.length)
    (hk : k < a.length) (h : key a[j] = key a[k]) : j = k := by
  have := hp j hj
  rw [h, hp k hk] at this
  exact (Option.some.inj this).symm

theorem Positions.nodup (hp : Positions key a m) : (a.map key).Nodup := by
  rw [List.nodup_iff_injective_get]
  intro ⟨j, hj⟩ ⟨k, hk⟩ h
  simp only [List.length_map] at hj hk
  simp only [List.get_eq_getElem, List.getElem_map] at h
  exact Fin.ext (hp.inj hj hk h)

/-- A node written over one of the same key. -/
theorem Positions.set (hp : Positions key a m) {i : Nat} (hi : i < a.length) {v : α}
    (hv : key v = key a[i]) : Positions key (a.set i v) m := by
  intro j hj
  simp only [List.length_set] at hj
  simp only [List.getElem_set]
  split
  · next h => subst h; rw [hv]; exact hp _ hi
  · exact hp j hj

theorem Positions.dropLast (hp : Positions key a m) : Positions key a.dropLast m := by
  intro j hj
  simp only [List.getElem_dropLast]
  exact hp j (by simp at hj; omega)

variable [DecidableEq κ]

/-- Entries of keys that no node has can be anything. -/
theorem Positions.update_of_not_mem (hp : Positions key a m) {k : κ} (hk : k ∉ a.map key)
    (o : Option Nat) : Positions key a (Function.update m k o) := by
  intro j hj
  have hne : key a[j] ≠ k := fun h => hk (h ▸ List.mem_map_of_mem (List.getElem_mem hj))
  rw [Function.update_of_ne hne, hp j hj]

/-- An exchange keeps the map right once both keys point at their new places. -/
theorem Positions.swap (hp : Positions key a m) {i j : Nat} (hi : i < a.length)
    (hj : j < a.length) :
    Positions key (swap a i j hi hj)
      (Function.update (Function.update m (key a[j]) (some i)) (key a[i]) (some j)) := by
  intro k hk
  simp only [length_swap] at hk
  simp only [BinaryHeap.swap, List.getElem_set]
  have hik := hp.inj hi hk
  have hjk := hp.inj hj hk
  have hij := hp.inj hi hj
  have := hp k hk
  split_ifs <;> grind [Function.update_self, Function.update_of_ne]

/-- After `swap_remove`, the moved node's key is pointed at its new place. -/
theorem Positions.swapRemove (hp : Positions key a m) {i : Nat} (hi : i < a.length) :
    Positions key (swapRemove a i hi).2 (Function.update m (key a[a.length - 1]) (some i)) := by
  intro j hj
  have hj' : j < a.length - 1 := by simpa using hj
  simp only [BinaryHeap.swapRemove, List.getElem_dropLast, List.getElem_set]
  split
  · next hij => subst hij; simp
  · next hij =>
    have hne : key a[j] ≠ key a[a.length - 1] := fun h => by
      have := hp.inj (by omega) (by omega) h
      omega
    rw [Function.update_of_ne hne, hp j (by omega)]

/-- A node pushed at the end, of a key no node has, pointed at its place. -/
theorem Positions.append (hp : Positions key a m) {v : α} (hv : key v ∉ a.map key) :
    Positions key (a ++ [v]) (Function.update m (key v) (some a.length)) := by
  intro j hj
  simp only [List.length_append, List.length_singleton] at hj
  rcases Nat.lt_or_ge j a.length with hja | hja
  · rw [List.getElem_append_left hja]
    exact hp.update_of_not_mem hv _ j hja
  · have : j = a.length := by omega
    subst this
    simp

/-- The hole step of an indexed heap: the node moved into the hole at `i` is pointed there,
    and `v`'s key at the new hole `j`. -/
theorem Positions.hole {i j : Nat} (hi : i < a.length) (hj : j < a.length) (hij : i ≠ j)
    {v : α} (hp : Positions key (a.set i v) (Function.update m (key v) (some i))) :
    Positions key ((a.set i a[j]).set j v)
      (Function.update (Function.update m (key a[j]) (some i)) (key v) (some j)) := by
  have hs := hp.swap (by simpa using hi) (by simpa using hj)
  -- `v` and the node at `j` sit at two places, so their keys differ
  have hk := hp.inj (by simpa using hi) (by simpa using hj)
  rw [List.getElem_set_self, List.getElem_set_ne hij] at hs hk
  rw [set_set_eq_swap a hi hj hij]
  rwa [Function.update_comm (fun h => hij (hk h)), Function.update_idem] at hs

/-- The hole step leaves the entries of keys no node has. -/
theorem update_hole_of_not_mem {i j : Nat} (hi : i < a.length) (hj : j < a.length) (hij : i ≠ j)
    {v : α} {k : κ} (hk : k ∉ (a.set i v).map key) :
    Function.update (Function.update m (key a[j]) (some i)) (key v) (some j) k =
      Function.update m (key v) (some i) k := by
  have hv : k ≠ key v := by
    rintro rfl
    exact hk (List.mem_map_of_mem (List.mem_set hi v))
  have hj' : k ≠ key a[j] := by
    rintro rfl
    refine hk (List.mem_map.mpr ⟨a[j], ?_, rfl⟩)
    rw [← List.getElem_set_ne hij]
    · exact List.getElem_mem _
    · simpa using hj
  rw [Function.update_of_ne hv, Function.update_of_ne hj', Function.update_of_ne hv]

end Positions

end BinaryHeap
