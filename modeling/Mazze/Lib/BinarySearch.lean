import Mathlib

/-!
# `slice::binary_search_by`

The search of the standard library of Rust 1.77 over the window `[left, right)`: the middle
element's ordering against the target moves `left` past it (`Less`), `right` onto it
(`Greater`), or ends the search (`Equal`). It answers `Ok(i)` with an index whose element is
`Equal`, or `Err(i)` with the index where the target would be inserted; here that is
`Except Nat Nat`, `ok` for `Ok`.

The answer is pinned down when the ordering is *ascending* along the list: of two elements, the
first is `Less` or the second is `Greater` (`Ascending`). The index is then the number of
`Less` elements before the first other one, and the search answers `ok` exactly when the
element there is `Equal` (`binarySearchBy_eq`).
-/

set_option autoImplicit false

namespace BinarySearch

variable {α : Type}

/-- The loop of `binary_search_by` on the window `[left, right)`. -/
def searchLoop (l : List α) (f : α → Ordering) (left right : Nat) (hr : right ≤ l.length) :
    Except Nat Nat :=
  if h : left < right then
    let mid := left + (right - left) / 2
    have hmid : mid < l.length := by omega
    match hcmp : f l[mid] with
    | .lt => searchLoop l f (mid + 1) right hr
    | .eq => .ok mid
    | .gt => searchLoop l f left mid (by omega)
  else .error left
termination_by right - left

/-- `binary_search_by`. -/
def binarySearchBy (l : List α) (f : α → Ordering) : Except Nat Nat :=
  searchLoop l f 0 l.length (Nat.le_refl _)

/-- The index of an answer, found or not (`unwrap_or_else(|x| x)`). -/
def Except.index : Except Nat Nat → Nat
  | .ok i => i
  | .error i => i

/-- Along the list, the ordering goes `Less`, then at most one `Equal`, then `Greater`. -/
def Ascending (l : List α) (f : α → Ordering) : Prop :=
  l.Pairwise fun a b => f a = .lt ∨ f b = .gt

/-- Where the search lands: the number of `Less` elements in front. -/
def lowerBound (l : List α) (f : α → Ordering) : Nat :=
  (l.takeWhile fun a => f a = .lt).length

/-- The window's invariant: everything before `left` is `Less`, everything from `right` on is
    `Greater`. -/
def Window (l : List α) (f : α → Ordering) (left right : Nat) : Prop :=
  (∀ j (hj : j < l.length), j < left → f l[j] = .lt) ∧
  (∀ j (hj : j < l.length), right ≤ j → f l[j] = .gt)

section Ascending

variable {l : List α} {f : α → Ordering}

theorem Ascending.lt_of_lt (hl : Ascending l f) {i j : Nat} (hi : i < l.length)
    (hj : j < l.length) (hij : i < j) (hgt : f l[j] ≠ .gt) : f l[i] = .lt :=
  ((List.pairwise_iff_getElem.mp hl) i j hi hj hij).resolve_right hgt

theorem Ascending.gt_of_lt (hl : Ascending l f) {i j : Nat} (hi : i < l.length)
    (hj : j < l.length) (hij : i < j) (hlt : f l[i] ≠ .lt) : f l[j] = .gt :=
  ((List.pairwise_iff_getElem.mp hl) i j hi hj hij).resolve_left hlt

/-- `lowerBound` is the index `i` when everything before it is `Less` and it is not. -/
theorem lowerBound_eq {i : Nat} (hi : i ≤ l.length) (hlt : ∀ j (hj : j < l.length), j < i →
    f l[j] = .lt) (hne : ∀ hi' : i < l.length, f l[i] ≠ .lt) : lowerBound l f = i := by
  unfold lowerBound
  induction l generalizing i with
  | nil => simp_all
  | cons a l ih =>
    cases i with
    | zero =>
      have : f a ≠ .lt := hne (by simp)
      simp [this]
    | succ i =>
      have ha : f a = .lt := hlt 0 (by simp) (by omega)
      rw [List.takeWhile_cons, if_pos (by simpa using ha), List.length_cons]
      congr 1
      exact ih (by simpa using hi) (fun j hj hji => hlt (j + 1) (by simpa using hj) (by omega))
        (fun hi' => hne (by simpa using hi'))

/-- The loop keeps the window's invariant and ends at the lower bound. -/
theorem searchLoop_eq (hl : Ascending l f) {left right : Nat} {hr : right ≤ l.length}
    (hw : Window l f left right) (hlr : left ≤ right) :
    searchLoop l f left right hr =
      if (l[lowerBound l f]?).map f = some .eq then .ok (lowerBound l f)
      else .error (lowerBound l f) := by
  -- induction on the loop, following its cases
  fun_induction searchLoop l f left right hr with
  | case1 left right hr hlt mid hmid hcmp ih =>
    exact ih ⟨fun j hj hjm => by
        rcases Nat.lt_succ_iff_lt_or_eq.mp hjm with hj' | rfl
        · exact hl.lt_of_lt hj hmid hj' (by simp [hcmp])
        · exact hcmp, hw.2⟩ (by omega)
  | case2 left right hr hlt mid hmid hcmp =>
    -- `Equal` at `mid`: everything before is `Less`
    have hlb : lowerBound l f = mid :=
      lowerBound_eq (Nat.le_of_lt hmid) (fun j hj hjm => hl.lt_of_lt hj hmid hjm (by simp [hcmp]))
        (fun _ => by simp [hcmp])
    rw [hlb, if_pos (by simp [List.getElem?_eq_getElem hmid, hcmp])]
  | case3 left right hr hlt mid hmid hcmp ih =>
    exact ih ⟨hw.1, fun j hj hjm => by
        rcases Nat.lt_or_eq_of_le hjm with hj' | rfl
        · exact hl.gt_of_lt hmid hj hj' (by simp [hcmp])
        · exact hcmp⟩ (by omega)
  | case4 left right hr hlt =>
    -- the window is empty: `left` is the lower bound, and it is `Greater` or past the end
    have hleft : right ≤ left := by omega
    have hlb : lowerBound l f = left :=
      lowerBound_eq (by omega) hw.1 (fun hi' => by simp [hw.2 left hi' hleft])
    rw [hlb, if_neg]
    intro heq
    obtain ⟨a, ha, hfa⟩ := Option.map_eq_some_iff.mp heq
    obtain ⟨hi', rfl⟩ := List.getElem?_eq_some_iff.mp ha
    simp [hw.2 left hi' hleft] at hfa

/-- `binary_search_by` on an ascending ordering: `Ok` at the lower bound when the element
    there is `Equal`, `Err` at it otherwise. -/
theorem binarySearchBy_eq (hl : Ascending l f) :
    binarySearchBy l f =
      if (l[lowerBound l f]?).map f = some .eq then .ok (lowerBound l f)
      else .error (lowerBound l f) :=
  searchLoop_eq hl ⟨fun _ _ hj => absurd hj (Nat.not_lt_zero _), fun _ hj hj' => by omega⟩
    (Nat.zero_le _)

/-- Where the list splits into its `Less` prefix `A` and a rest `B` that does not start with
    `Less`, the lower bound is the length of `A`. -/
theorem lowerBound_append {A B : List α} (hA : ∀ a ∈ A, f a = .lt)
    (hB : ∀ b ∈ B.head?, f b ≠ .lt) : lowerBound (A ++ B) f = A.length := by
  unfold lowerBound
  rw [List.takeWhile_append_of_pos (by simpa using hA), List.length_append]
  cases B with
  | nil => simp
  | cons b B =>
    have hb : f b ≠ .lt := hB b (by simp)
    simp [hb]

/-- `binary_search_by` on an ascending ordering split at its lower bound: `Ok` there exactly when
    the first element of the rest is `Equal`. -/
theorem binarySearchBy_append {A B : List α} (hl : Ascending (A ++ B) f)
    (hA : ∀ a ∈ A, f a = .lt) (hB : ∀ b ∈ B.head?, f b ≠ .lt) :
    binarySearchBy (A ++ B) f =
      if (B.head?).map f = some .eq then .ok A.length else .error A.length := by
  rw [binarySearchBy_eq hl, lowerBound_append hA hB,
    List.getElem?_append_right (Nat.le_refl _), Nat.sub_self, List.head?_eq_getElem?]

end Ascending

section Sorted

variable {κ : Type} [LinearOrder κ] (key : α → κ) {l : List α}

/-- Comparing the keys of a list sorted by them with a target is ascending. -/
theorem ascending_compare (hl : l.Pairwise fun a b => key a < key b) (k : κ) :
    Ascending l fun a => compare (key a) k := by
  refine hl.imp fun {a b} hab => ?_
  by_cases hak : key a < k
  · exact .inl (compare_lt_iff_lt.mpr hak)
  · exact .inr (compare_gt_iff_gt.mpr (lt_of_le_of_lt (not_lt.mp hak) hab))

/-- A list sorted by its keys splits at `k` into the entries below it and the others. -/
theorem exists_split_of_sorted (hl : l.Pairwise fun a b => key a < key b) (k : κ) :
    ∃ A B, l = A ++ B ∧ (∀ a ∈ A, key a < k) ∧ ∀ b ∈ B, k ≤ key b := by
  induction l with
  | nil => exact ⟨[], [], rfl, by simp, by simp⟩
  | cons x l ih =>
    obtain ⟨hx, hl⟩ := List.pairwise_cons.mp hl
    by_cases hxk : key x < k
    · obtain ⟨A, B, rfl, hA, hB⟩ := ih hl
      exact ⟨x :: A, B, rfl, by simpa [hxk] using hA, hB⟩
    · -- the first entry is not below `k`, and every later one is above it
      refine ⟨[], x :: l, rfl, by simp, ?_⟩
      intro b hb
      rcases List.mem_cons.mp hb with rfl | hb
      · exact not_lt.mp hxk
      · exact le_of_lt (lt_of_le_of_lt (not_lt.mp hxk) (hx b hb))

end Sorted

end BinarySearch
