import Mathlib

/-!
# Finite maps read off lists of entries

A container that stores one entry per key in some order of its own stands for the finite map
`List.toFinmap` of its entries. When the keys are distinct the order does not matter
(`toFinmap_perm`), so every change the container makes by moving entries around reads as a
change of the map: an entry pushed is an `insert`, an entry overwritten under its own key is
an `insert`, an entry taken out is an `erase`. The map then has as many keys as the list has
entries (`card_keys_toFinmap`).
-/

set_option autoImplicit false

namespace Finmap

variable {α β : Type} [DecidableEq α]

/-- Lists of entries with distinct keys stand for the same map in any order. -/
theorem toFinmap_perm {l₁ l₂ : List ((_ : α) × β)} (hnd : l₁.NodupKeys) (hp : l₁.Perm l₂) :
    l₁.toFinmap = l₂.toFinmap :=
  ext_lookup fun a => by
    rw [dlookup_list_toFinmap, dlookup_list_toFinmap, List.perm_dlookup a hnd hp]

/-- An entry pushed at the end, of a key the list does not have. -/
theorem toFinmap_append_singleton {l : List ((_ : α) × β)} {x : (_ : α) × β}
    (hnd : (l ++ [x]).NodupKeys) : (l ++ [x]).toFinmap = insert x.1 x.2 l.toFinmap := by
  rw [toFinmap_perm hnd (List.perm_append_singleton x l)]
  rfl

/-- An entry overwritten under its own key. -/
theorem toFinmap_set {l : List ((_ : α) × β)} (hnd : l.NodupKeys) {i : Nat} (hi : i < l.length)
    (b : β) : (l.set i ⟨l[i].1, b⟩).toFinmap = insert l[i].1 b l.toFinmap := by
  have hkeys : (l.set i ⟨l[i].1, b⟩).keys = l.keys := by
    have hi' : i < (l.map Sigma.fst).length := by simpa using hi
    have hget : (l.map Sigma.fst)[i] = l[i].1 := List.getElem_map _
    rw [List.keys, List.map_set, ← hget, List.set_getElem_self]
  have hnd' : (l.set i ⟨l[i].1, b⟩).NodupKeys := by
    rw [List.NodupKeys, hkeys]
    exact hnd
  -- both lists are the entry at `i` in front of the others
  rw [toFinmap_perm hnd' (List.set_perm_cons_eraseIdx hi _),
    toFinmap_perm hnd (List.getElem_cons_eraseIdx_perm hi).symm]
  rw [toFinmap_cons]
  change _ = insert l[i].1 b (insert l[i].1 l[i].2 (l.eraseIdx i).toFinmap)
  rw [insert_insert]

/-- What is left when one entry is taken out. -/
theorem toFinmap_erase_of_perm {l l' : List ((_ : α) × β)} {x : (_ : α) × β}
    (hnd : l.NodupKeys) (hp : (x :: l').Perm l) : l'.toFinmap = erase x.1 l.toFinmap := by
  have hnd' : (x :: l').NodupKeys := (List.perm_nodupKeys hp).mpr hnd
  have hx : x.1 ∉ l'.keys := (List.nodupKeys_cons.mp hnd').1
  rw [← toFinmap_perm hnd' hp]
  refine ext_lookup fun a => ?_
  by_cases ha : a = x.1
  · subst ha
    rw [lookup_erase, dlookup_list_toFinmap, List.dlookup_eq_none.mpr hx]
  · rw [lookup_erase_ne ha, toFinmap_cons, lookup_insert_of_ne _ ha]

/-- Erasing a key the map does not have. -/
theorem erase_of_lookup_eq_none {s : Finmap (fun _ : α => β)} {a : α} (h : s.lookup a = none) :
    erase a s = s :=
  ext_lookup fun x => by
    by_cases hx : x = a
    · subst hx
      rw [lookup_erase, h]
    · rw [lookup_erase_ne hx]

/-- With distinct keys, the map has one key per entry. -/
theorem card_keys_toFinmap {l : List ((_ : α) × β)} (hnd : l.NodupKeys) :
    l.toFinmap.keys.card = l.length := by
  have : l.toFinmap.keys = l.keys.toFinset := by
    ext a
    rw [mem_keys, mem_list_toFinmap, List.mem_toFinset, List.mem_keys]
  rw [this, List.toFinset_card_of_nodup hnd, List.keys, List.length_map]

end Finmap
