import Mathlib

/-!
# Prefixes and runs of sorted lists

Facts about lists sorted by a key, as a search over a sorted map uses them:

* for a test that holds of everything before anything it holds of (`key ≤ n` on a sorted
  list), `takeWhile` ends exactly before the first element the test fails on
  (`lt_length_takeWhile_iff`) and keeps all the test holds of (`takeWhile_eq_filter`), and taken up to an element's own key it ends at that element
  (`takeWhile_key_le`), and what `dropWhile` leaves of the keys below `n` lies at or above `n`
  (`le_of_mem_dropWhile`);
* the elements up to `hi` are those below `lo` and then those from `lo` to `hi`
  (`takeWhile_le_eq_append`);
* two splits `ys ++ x :: zs = A ++ y :: R` of one list, the first at a later position, share
  the front part up to `y` (`split_of_lt`);
* strictly increasing natural numbers from `k` on reach at least `k + i` at position `i`, and
  they are the consecutive numbers `k, k + 1, ...` exactly when the last one is as small as
  that allows (`eq_range'_iff`).
-/

set_option autoImplicit false

namespace SortedRun

variable {α : Type}

/-- **Where `takeWhile` ends.** For a test that, along the list, holds of an element whenever it
    holds of a later one, the elements `takeWhile` keeps are those it holds of. -/
theorem lt_length_takeWhile_iff {p : α → Bool} {ys zs : List α} {x : α}
    (hl : (ys ++ x :: zs).Pairwise fun a b => p b = true → p a = true) :
    ys.length < ((ys ++ x :: zs).takeWhile p).length ↔ p x = true := by
  induction ys with
  | nil =>
    cases hx : p x <;> simp [hx]
  | cons y ys ih =>
    rw [List.cons_append, List.pairwise_cons] at hl
    cases hy : p y with
    | true =>
      rw [List.cons_append, List.takeWhile_cons_of_pos (by simp [hy]), List.length_cons,
        List.length_cons, Nat.add_lt_add_iff_right]
      exact ih hl.2
    | false =>
      -- the test fails before `x`, so it fails at `x` too
      rw [List.cons_append, List.takeWhile_cons_of_neg (by simp [hy])]
      have hx : p x = false := by
        cases hx : p x
        · rfl
        · exact absurd (hl.1 x (by simp) hx) (by simp [hy])
      simp [hx]

/-- For a test that, along the list, holds of an element whenever it holds of a later one,
    `takeWhile` keeps everything the test holds of. -/
theorem takeWhile_eq_filter {p : α → Bool} {l : List α}
    (hl : l.Pairwise fun a b => p b = true → p a = true) : l.takeWhile p = l.filter p := by
  induction l with
  | nil => rfl
  | cons a l ih =>
    rw [List.pairwise_cons] at hl
    cases hp : p a with
    | true =>
      rw [List.takeWhile_cons_of_pos (by simp [hp]), List.filter_cons_of_pos hp, ih hl.2]
    | false =>
      -- the test fails at `a`, so at everything after it
      rw [List.takeWhile_cons_of_neg (by simp [hp]), List.filter_cons_of_neg (by simp [hp])]
      exact (List.filter_eq_nil_iff.mpr fun b hb hpb => by simpa [hp] using hl.1 b hb hpb).symm

/-- A test implied by another keeps at most as long a prefix. -/
theorem length_takeWhile_le_of_imp {p q : α → Bool} (h : ∀ a, p a = true → q a = true)
    (l : List α) : (l.takeWhile p).length ≤ (l.takeWhile q).length := by
  induction l with
  | nil => exact Nat.le_refl 0
  | cons a l ih =>
    cases hp : p a with
    | false =>
      rw [List.takeWhile_cons_of_neg (by simp [hp])]
      exact Nat.zero_le _
    | true =>
      rw [List.takeWhile_cons_of_pos (by simp [hp]), List.takeWhile_cons_of_pos (by simp [h a hp])]
      exact Nat.succ_le_succ ih

/-- The element right after the prefix `takeWhile` keeps is the head of what `dropWhile` leaves. -/
theorem getElem?_length_takeWhile (p : α → Bool) (l : List α) :
    l[(l.takeWhile p).length]? = (l.dropWhile p).head? := by
  induction l with
  | nil => rfl
  | cons a l ih =>
    cases hp : p a with
    | false => rw [List.takeWhile_cons_of_neg (by simp [hp]), List.dropWhile_cons_of_neg (by simp [hp])]; rfl
    | true =>
      rw [List.takeWhile_cons_of_pos (by simp [hp]), List.dropWhile_cons_of_pos (by simp [hp]),
        List.length_cons, List.getElem?_cons_succ, ih]

/-- Two splits of one list, the first at a later position: its front part runs through the
    second's element. -/
theorem split_of_lt {ys zs A R : List α} {x y : α} (h : ys ++ x :: zs = A ++ y :: R)
    (hlt : A.length < ys.length) : ∃ R₀, ys = A ++ y :: R₀ ∧ R = R₀ ++ x :: zs := by
  rcases List.append_eq_append_iff.mp h with ⟨a', hA, -⟩ | ⟨c', hys, hR⟩
  · -- the second front part cannot be longer
    rw [hA, List.length_append] at hlt
    omega
  · cases c' with
    | nil =>
      rw [hys, List.append_nil] at hlt
      exact absurd hlt (Nat.lt_irrefl _)
    | cons c R₀ =>
      obtain ⟨rfl, rfl⟩ := List.cons.inj hR
      exact ⟨R₀, hys, rfl⟩

variable (key : α → Nat)

/-- The first element left after dropping the keys below `n` is the first of key `n` or more. -/
theorem head?_dropWhile_lt (l : List α) (n : Nat) :
    (l.dropWhile fun a => decide (key a < n)).head? = l.find? fun a => decide (n ≤ key a) := by
  rw [List.find?_eq_head?_dropWhile_not]
  have hp : (fun a => decide (key a < n)) = fun a => !decide (n ≤ key a) := funext fun a => by
    rw [Bool.eq_not_iff, ne_eq, decide_eq_decide]
    omega
  rw [hp]

/-- In a list sorted by a strictly increasing key, the elements up to an element's key are
    those up to and including it. -/
theorem takeWhile_key_le {ys zs : List α} {x : α}
    (hs : (ys ++ x :: zs).Pairwise fun a b => key a < key b) :
    (ys ++ x :: zs).takeWhile (fun y => decide (key y ≤ key x)) = ys ++ [x] := by
  have hys : ∀ a ∈ ys, decide (key a ≤ key x) = true := fun a ha => by
    simpa using (List.pairwise_append.mp hs).2.2 a ha x (by simp) |>.le
  rw [List.takeWhile_append_of_pos hys, List.takeWhile_cons_of_pos (by simp)]
  -- the elements after `x` have larger keys
  cases zs with
  | nil => rfl
  | cons z zs =>
    have hz : key x < key z := (List.pairwise_cons.mp (List.pairwise_append.mp hs).2.1).1 z (by simp)
    rw [List.takeWhile_cons_of_neg (by simpa using hz)]

/-- In a list sorted by key, what is left after dropping the keys below `n` lies at or above
    `n`. -/
theorem le_of_mem_dropWhile {l : List α} (hs : l.Pairwise fun a b => key a < key b) (n : Nat)
    {y : α} (hy : y ∈ l.dropWhile fun a => decide (key a < n)) : n ≤ key y := by
  induction l with
  | nil => cases hy
  | cons a l ih =>
    rw [List.pairwise_cons] at hs
    by_cases ha : key a < n
    · rw [List.dropWhile_cons_of_pos (by simpa using ha)] at hy
      exact ih hs.2 hy
    · -- the first key kept is at or above `n`, and the later ones above it
      rw [List.dropWhile_cons_of_neg (by simpa using ha)] at hy
      rcases List.mem_cons.mp hy with rfl | hy
      · omega
      · have := hs.1 y hy
        omega

/-- In a list sorted by key, the elements up to `hi` are those below `lo` followed by those from
    `lo` to `hi`, for `lo ≤ hi + 1`. -/
theorem takeWhile_le_eq_append {l : List α} (hs : l.Pairwise fun a b => key a < key b)
    {lo hi : Nat} (h : lo ≤ hi + 1) :
    l.takeWhile (fun a => decide (key a ≤ hi)) =
      l.takeWhile (fun a => decide (key a < lo)) ++
        l.filter fun a => decide (lo ≤ key a ∧ key a ≤ hi) := by
  induction l with
  | nil => rfl
  | cons a l ih =>
    rw [List.pairwise_cons] at hs
    by_cases hlo : key a < lo
    · -- below `lo`: kept by both prefixes, left out of the middle
      rw [List.takeWhile_cons_of_pos (by simp; omega), List.takeWhile_cons_of_pos (by simpa using hlo),
        List.filter_cons_of_neg (by simp; omega), ih hs.2, List.cons_append]
    · -- from `lo` on nothing is below `lo`, and the rest lies above `a`
      have hrest : l.takeWhile (fun b => decide (key b < lo)) = [] := by
        cases l with
        | nil => rfl
        | cons b l =>
          have := hs.1 b (by simp)
          rw [List.takeWhile_cons_of_neg (by simp; omega)]
      rw [List.takeWhile_cons_of_neg (p := fun b => decide (key b < lo)) (by simpa using hlo),
        List.nil_append]
      by_cases hhi : key a ≤ hi
      · rw [List.takeWhile_cons_of_pos (by simpa using hhi), List.filter_cons_of_pos (by simp; omega),
          ih hs.2, hrest, List.nil_append]
      · rw [List.takeWhile_cons_of_neg (by simpa using hhi), List.filter_cons_of_neg (by simp; omega),
          (List.filter_eq_nil_iff (l := l)).mpr fun b hb => by have := hs.1 b hb; simp; omega]

/-- **Strictly increasing numbers from `k` on** reach at least `k + i` at position `i`. -/
theorem add_length_le {ks : List Nat} {k z : Nat} (hs : (ks ++ [z]).Pairwise (· < ·))
    (hk : ∀ y ∈ ks ++ [z], k ≤ y) : k + ks.length ≤ z := by
  induction ks generalizing k with
  | nil => simpa using hk z (by simp)
  | cons y ks ih =>
    rw [List.cons_append, List.pairwise_cons] at hs
    -- everything after `y` is above it, so from `k + 1` on
    have hk' : ∀ u ∈ ks ++ [z], k + 1 ≤ u := fun u hu =>
      Nat.lt_of_le_of_lt (hk y (by simp)) (hs.1 u hu)
    have := ih hs.2 hk'
    simp only [List.length_cons]
    omega

/-- **Consecutive numbers.** Strictly increasing numbers from `k` on end at `k + i` after `i`
    of them exactly when they are `k, k + 1, ..., k + i`. -/
theorem eq_range'_iff {ks : List Nat} {k z : Nat} (hs : (ks ++ [z]).Pairwise (· < ·))
    (hk : ∀ y ∈ ks ++ [z], k ≤ y) :
    z = k + ks.length ↔ ks ++ [z] = List.range' k (ks.length + 1) := by
  induction ks generalizing k with
  | nil => simp [List.range'_succ]
  | cons y ks ih =>
    rw [List.cons_append, List.pairwise_cons] at hs
    have hk' : ∀ u ∈ ks ++ [z], k + 1 ≤ u := fun u hu =>
      Nat.lt_of_le_of_lt (hk y (by simp)) (hs.1 u hu)
    have hy : k ≤ y := hk y (by simp)
    -- the rest starts above `y`, so it reaches `y + 1 + i` at the earliest
    have hbound := add_length_le hs.2 fun u hu => hs.1 u hu
    rw [List.length_cons, List.range'_succ, List.cons_append, List.cons.injEq,
      ← ih hs.2 hk']
    constructor
    · intro hz
      omega
    · rintro ⟨rfl, hz⟩
      omega

end SortedRun
