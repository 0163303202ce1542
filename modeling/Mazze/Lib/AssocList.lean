import Mathlib

/-!
# Tables as association lists

A hash map whose keys are inserted with `entry(k).or_insert(v)` keeps one entry for each key,
the first one inserted. Here it is a list of pairs with distinct keys, read with `List.lookup`.
Two operations of such maps are modelled:

* `mergeInto src dst`: drain `src` into `dst` with `or_insert`, so that `dst` keeps its own
  entries and gains those of keys it lacks (`lookup_mergeInto`);
* a drain of `m` that rewrites a second table `t` at each key of `m`, and fails at a key `t`
  has no entry for. Its result does not depend on the order of the drain: it is `rewriteAll`,
  every key rewritten once (`foldlM_rewriteAt`).
-/

set_option autoImplicit false

namespace AssocList

variable {K V W : Type} [DecidableEq K]

/-- `entry(k).or_insert(v)`: add `(k, v)` unless `k` has an entry. -/
def orInsert (k : K) (v : V) (m : List (K × V)) : List (K × V) :=
  if (m.lookup k).isSome then m else m ++ [(k, v)]

/-- Drain `src` into `dst` with `or_insert`. -/
def mergeInto (src dst : List (K × V)) : List (K × V) :=
  src.foldl (fun m kv => orInsert kv.1 kv.2 m) dst

/-- Rewrite `t` at the key of one entry with `f`, where `t` has an entry for that key. -/
def rewriteAt (f : V → W → Option W) (t : K → Option W) (kv : K × V) :
    Option (K → Option W) :=
  match t kv.1 with
  | none => none
  | some w => some (Function.update t kv.1 (f kv.2 w))

/-- `t` with every key of `m` rewritten by its entry. -/
def rewriteAll (f : V → W → Option W) (m : List (K × V)) (t : K → Option W) : K → Option W :=
  fun a =>
    match m.lookup a with
    | none => t a
    | some v => (t a).bind (f v)

/-! ## Lookups -/

theorem lookup_cons_self (k : K) (v : V) (m : List (K × V)) : ((k, v) :: m).lookup k = some v := by
  simp

theorem lookup_cons_of_ne {a k : K} (v : V) (m : List (K × V)) (h : a ≠ k) :
    ((k, v) :: m).lookup a = m.lookup a := by
  have hbeq : (a == k) = false := beq_eq_false_iff_ne.mpr h
  simp [List.lookup_cons, hbeq]

theorem lookup_isSome_iff_mem_keys {m : List (K × V)} {a : K} :
    (m.lookup a).isSome ↔ a ∈ m.map Prod.fst := by
  rw [List.lookup_isSome_iff, List.mem_map]
  constructor
  · rintro ⟨p, hp, hkey⟩
    exact ⟨p, hp, (beq_iff_eq.mp hkey).symm⟩
  · rintro ⟨p, hp, rfl⟩
    exact ⟨p, hp, beq_self_eq_true _⟩

theorem lookup_eq_none_iff_not_mem_keys {m : List (K × V)} {a : K} :
    m.lookup a = none ↔ a ∉ m.map Prod.fst := by
  rw [← lookup_isSome_iff_mem_keys, Option.not_isSome_iff_eq_none]

/-- A key has the value of its entry, in a table with distinct keys. -/
theorem lookup_of_mem {m : List (K × V)} (hnd : (m.map Prod.fst).Nodup) {a : K} {v : V}
    (hmem : (a, v) ∈ m) : m.lookup a = some v := by
  induction m with
  | nil => cases hmem
  | cons kv m ih =>
    obtain ⟨k, w⟩ := kv
    obtain ⟨hk, hnd⟩ := List.nodup_cons.mp hnd
    rcases List.mem_cons.mp hmem with heq | hmem
    · cases heq
      exact lookup_cons_self a v m
    · have hne : a ≠ k := fun h => hk (List.mem_map.mpr ⟨(a, v), hmem, h⟩)
      rw [lookup_cons_of_ne w m hne]
      exact ih hnd hmem

theorem mem_of_lookup {m : List (K × V)} {a : K} {v : V} (h : m.lookup a = some v) :
    (a, v) ∈ m := by
  induction m with
  | nil => cases h
  | cons kv m ih =>
    obtain ⟨k, w⟩ := kv
    by_cases hak : a = k
    · subst hak
      rw [lookup_cons_self] at h
      cases h
      exact List.mem_cons_self
    · rw [lookup_cons_of_ne w m hak] at h
      exact List.mem_cons_of_mem _ (ih h)

/-! ## `or_insert` and the merge -/

theorem mem_orInsert {k : K} {v : V} {m : List (K × V)} {p : K × V} (h : p ∈ orInsert k v m) :
    p ∈ m ∨ p = (k, v) := by
  unfold orInsert at h
  split at h
  · exact .inl h
  · simpa using h

theorem lookup_orInsert (k a : K) (v : V) (m : List (K × V)) :
    (orInsert k v m).lookup a = (m.lookup a).or (if a = k then some v else none) := by
  unfold orInsert
  split
  · -- `k` has an entry already, so the table is unchanged
    by_cases hak : a = k
    · subst hak
      obtain ⟨w, hw⟩ := Option.isSome_iff_exists.mp ‹_›
      simp [hw]
    · simp [hak]
  · rw [List.lookup_append]
    by_cases hak : a = k
    · subst hak
      simp
    · simp [lookup_cons_of_ne v [] hak, hak]

theorem nodup_keys_orInsert (k : K) (v : V) {m : List (K × V)} (hnd : (m.map Prod.fst).Nodup) :
    ((orInsert k v m).map Prod.fst).Nodup := by
  unfold orInsert
  split
  · exact hnd
  · rename_i hk
    rw [List.map_append, List.nodup_append]
    refine ⟨hnd, by simp, ?_⟩
    intro a ha b hb hab
    simp only [List.map_cons, List.map_nil, List.mem_singleton] at hb
    subst hb hab
    exact hk (lookup_isSome_iff_mem_keys.mpr ha)

/-- After the merge `dst` keeps its entries and gains those of `src` for keys it lacks. -/
theorem lookup_mergeInto (src dst : List (K × V)) (a : K) :
    (mergeInto src dst).lookup a = (dst.lookup a).or (src.lookup a) := by
  induction src generalizing dst with
  | nil => simp [mergeInto]
  | cons kv src ih =>
    obtain ⟨k, v⟩ := kv
    have hstep : mergeInto ((k, v) :: src) dst = mergeInto src (orInsert k v dst) := rfl
    rw [hstep, ih, lookup_orInsert, Option.or_assoc]
    by_cases hak : a = k
    · subst hak
      simp
    · simp [lookup_cons_of_ne v src hak, hak]

theorem nodup_keys_mergeInto (src : List (K × V)) {dst : List (K × V)}
    (hnd : (dst.map Prod.fst).Nodup) : ((mergeInto src dst).map Prod.fst).Nodup := by
  induction src generalizing dst with
  | nil => exact hnd
  | cons kv src ih => exact ih (nodup_keys_orInsert kv.1 kv.2 hnd)

/-! ## The drain that rewrites a table -/

theorem rewriteAll_of_lookup_none (f : V → W → Option W) {m : List (K × V)} (t : K → Option W)
    {a : K} (h : m.lookup a = none) : rewriteAll f m t a = t a := by
  simp [rewriteAll, h]

theorem rewriteAll_of_lookup_some (f : V → W → Option W) {m : List (K × V)} (t : K → Option W)
    {a : K} {v : V} (h : m.lookup a = some v) : rewriteAll f m t a = (t a).bind (f v) := by
  simp [rewriteAll, h]

@[simp] theorem rewriteAll_nil (f : V → W → Option W) (t : K → Option W) :
    rewriteAll f [] t = t := rfl

/-- Draining `m`, whose keys are distinct, rewrites every key of `m` once, and fails exactly
    when `t` lacks one of them. -/
theorem foldlM_rewriteAt (f : V → W → Option W) {m : List (K × V)}
    (hnd : (m.map Prod.fst).Nodup) (t : K → Option W) (ht : ∀ kv ∈ m, (t kv.1).isSome) :
    m.foldlM (rewriteAt f) t = some (rewriteAll f m t) := by
  induction m generalizing t with
  | nil => rfl
  | cons kv m ih =>
    obtain ⟨k, v⟩ := kv
    obtain ⟨hk, hnd⟩ := List.nodup_cons.mp hnd
    obtain ⟨w, hw⟩ := Option.isSome_iff_exists.mp (ht (k, v) List.mem_cons_self)
    -- the first entry rewrites `k`, which no later entry has
    have hrest : ∀ kv ∈ m, (Function.update t k (f v w) kv.1).isSome := by
      intro kv hkv
      have hne : kv.1 ≠ k := fun h => hk (List.mem_map.mpr ⟨kv, hkv, h⟩)
      rw [Function.update_of_ne hne]
      exact ht kv (List.mem_cons_of_mem _ hkv)
    rw [List.foldlM_cons]
    simp only [rewriteAt, hw]
    rw [Option.bind_eq_bind, Option.bind_some, ih hnd _ hrest]
    congr 1
    funext a
    by_cases hak : a = k
    · subst hak
      have hnone : m.lookup a = none := lookup_eq_none_iff_not_mem_keys.mpr hk
      simp [rewriteAll, hnone, hw]
    · simp [rewriteAll, lookup_cons_of_ne v m hak, Function.update_of_ne hak]

end AssocList
