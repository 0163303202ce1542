import Mathlib
import Mazze.Storage.Walk
import Mazze.Storage.CompressedPathSpec

/-!
# What `walk` answers, on nibbles

`walk` compares a key with a node's compressed path byte by byte (`memcmp_len` whole bytes,
then the half byte a path that ends in the middle of a byte leaves), but its answer is read on
nibbles. With `N(p)` the nibbles the path covers and `N(k)` those of the key still to match
(`keyNibbles`), the walk has `Arrived` when `N(k) = N(p)`, goes on to the child `c` when
`N(p) ++ [c]` starts `N(k)`, and otherwise splits `N(p)` where the key leaves it (`WalkOk`).

The path is canonical (`Canonical`) and the key is aligned with it (`Aligned`): below a parent
that matched the first half of a byte, the key's first byte has the first half of the path's.
The proof follows the code: `firstMismatch_cases` says how the byte loop ends, and each way the
walk returns is one lemma on nibble lists (`walkOk_divergedAt`, `walkOk_keyEnds`,
`walkOk_arrived`, `descends_first`, `descends_second`). A read-only walk takes the same
branches and leaves a divergence undescribed (`walk_read_eq`).
-/

set_option autoImplicit false
-- the byte facts below are decided over all 256 values
set_option maxRecDepth 2048

namespace Mazze.Storage

open CompressedPathRaw

/-! ## The byte loop -/

/-- `for i in 0..memcmp_len` stops at the first byte where the slices differ, or finds their
    first `n` bytes equal. -/
theorem firstMismatch_cases {ps ks : Bytes} {n : Nat} (hps : n ≤ ps.length) (hks : n ≤ ks.length) :
    (firstMismatch ps ks n = none ∧ ps.take n = ks.take n) ∨
      ∃ T x ps' y ks', ps = T ++ x :: ps' ∧ ks = T ++ y :: ks' ∧ x ≠ y ∧ T.length < n ∧
        firstMismatch ps ks n = some T.length := by
  induction ps generalizing ks n with
  | nil =>
    obtain rfl : n = 0 := by simpa using hps
    exact .inl ⟨by cases ks <;> rfl, rfl⟩
  | cons p ps ih =>
    cases ks with
    | nil =>
      obtain rfl : n = 0 := by simpa using hks
      exact .inl ⟨rfl, rfl⟩
    | cons k ks =>
      cases n with
      | zero => exact .inl ⟨rfl, rfl⟩
      | succ n =>
        by_cases hpk : p = k
        · subst hpk
          rcases @ih ks n (by simpa using hps) (by simpa using hks) with
            ⟨hnone, htake⟩ | ⟨T, x, ps', y, ks', rfl, rfl, hxy, hlt, hsome⟩
          · exact .inl ⟨by simp [firstMismatch, hnone], by simp [htake]⟩
          · refine .inr ⟨p :: T, x, ps', y, ks', rfl, rfl, hxy, by simpa using hlt, ?_⟩
            simp [firstMismatch, hsome]
        · exact .inr ⟨[], p, ps, k, ks, rfl, rfl, hpk, by simp, by simp [firstMismatch, hpk]⟩


namespace CompressedPathRaw

/-- A byte is its two nibbles. -/
theorem fromFirstNibble_or_secondNibble (x : UInt8) :
    fromFirstNibble (firstNibble x) ||| secondNibble x = x :=
  forall_uint8 (P := fun x => fromFirstNibble (firstNibble x) ||| secondNibble x = x) (by decide) x

theorem eq_of_nibbles {x y : UInt8} (h1 : firstNibble x = firstNibble y)
    (h2 : secondNibble x = secondNibble y) : x = y := by
  rw [← fromFirstNibble_or_secondNibble x, ← fromFirstNibble_or_secondNibble y, h1, h2]

theorem firstNibble_xor_eq_zero_iff (x y : UInt8) :
    firstNibble (x ^^^ y) = 0 ↔ firstNibble x = firstNibble y := by
  rw [firstNibble, UInt8.shiftRight_xor, UInt8.xor_eq_zero_iff]
  rfl

@[simp] theorem secondNibble_clearSecondNibble (m : UInt8) : secondNibble (clearSecondNibble m) = 0 :=
  forall_uint8 (P := fun m => secondNibble (clearSecondNibble m) = 0) (by decide) m

@[simp] theorem clearSecondNibble_clearSecondNibble (m : UInt8) :
    clearSecondNibble (clearSecondNibble m) = clearSecondNibble m :=
  forall_uint8 (P := fun m => clearSecondNibble (clearSecondNibble m) = clearSecondNibble m)
    (by decide) m

@[simp] theorem secondNibble_or_firstNibbleMask (m : UInt8) :
    secondNibble (m ||| firstNibbleMask) = firstNibbleMask :=
  forall_uint8 (P := fun m => secondNibble (m ||| firstNibbleMask) = firstNibbleMask) (by decide) m

@[simp] theorem clearSecondNibble_or_firstNibbleMask (m : UInt8) :
    clearSecondNibble (m ||| firstNibbleMask) = clearSecondNibble m :=
  forall_uint8 (P := fun m => clearSecondNibble (m ||| firstNibbleMask) = clearSecondNibble m)
    (by decide) m

theorem firstNibble_secondNibble_or_secondNibbleMask (m : UInt8) :
    firstNibble (secondNibble m ||| secondNibbleMask) = firstNibbleMask :=
  forall_uint8 (P := fun m => firstNibble (secondNibble m ||| secondNibbleMask) = firstNibbleMask)
    (by decide) m

theorem and_not_firstNibbleMask (x : UInt8) : x &&& ~~~firstNibbleMask = clearSecondNibble x := by
  rw [clearSecondNibble, show ~~~firstNibbleMask = bits47Mask by decide]

/-- `new_and_apply_mask` with the end bits set: the matched part of a path split at the second
    half of its last byte keeps that byte's first half. -/
theorem nibbles_newAndApplyMask (m : UInt8) (T : Bytes) (x : UInt8) :
    (newAndApplyMask (T ++ [x]) (secondNibble m ||| secondNibbleMask)).nibbles =
      dropFirstIf (secondNibble m != 0) (bytesNibbles T ++ [firstNibble x]) := by
  rw [newAndApplyMask, List.getLast?_concat, List.dropLast_concat, nibbles_mk,
    firstNibble_secondNibble_or_secondNibbleMask, and_not_firstNibbleMask,
    secondNibble_or_secondNibbleMask, secondNibble_secondNibble, clearSecondNibble_or_secondNibbleMask,
    bytesNibbles_concat, firstNibble_clearSecondNibble, secondNibble_clearSecondNibble,
    dropFirstIf_concat_append]
  simp [secondNibbleMask, bits47Mask]

theorem nibbles_begin (T : Bytes) (m : UInt8) :
    (⟨T, secondNibble m⟩ : CompressedPathRaw).nibbles =
      dropFirstIf (secondNibble m != 0) (bytesNibbles T) := by
  rw [nibbles_mk, secondNibble_secondNibble, clearSecondNibble_secondNibble]
  rfl

theorem nibbles_end (R : Bytes) (m : UInt8) :
    (⟨R, clearSecondNibble m⟩ : CompressedPathRaw).nibbles =
      dropLastIf (clearSecondNibble m != 0) (bytesNibbles R) := by
  rw [nibbles_mk, secondNibble_clearSecondNibble, clearSecondNibble_clearSecondNibble]
  rfl

theorem nibbles_secondHalf (x : UInt8) (R : Bytes) (m : UInt8) :
    (⟨x :: R, m ||| firstNibbleMask⟩ : CompressedPathRaw).nibbles =
      dropLastIf (clearSecondNibble m != 0) (secondNibble x :: bytesNibbles R) := by
  rw [nibbles_mk, secondNibble_or_firstNibbleMask, clearSecondNibble_or_firstNibbleMask]
  rfl

theorem nibbles_split_first (m : UInt8) {T : Bytes} (hT : (secondNibble m != 0) = true → T ≠ [])
    (x : UInt8) (P' : Bytes) :
    (⟨T, secondNibble m⟩ : CompressedPathRaw).nibbles ++
        firstNibble x :: (⟨x :: P', clearSecondNibble m ||| firstNibbleMask⟩ : CompressedPathRaw).nibbles =
      (⟨T ++ x :: P', m⟩ : CompressedPathRaw).nibbles := by
  rw [nibbles_begin, nibbles_secondHalf, nibbles_mk, bytesNibbles_append, bytesNibbles_cons,
    clearSecondNibble_clearSecondNibble, dropFirstIf_bytesNibbles_append _ hT,
    dropLastIf_append _ _ (fun _ => List.cons_ne_nil _ _),
    dropLastIf_cons _ _ (fun _ => List.cons_ne_nil _ _)]

theorem nibbles_split_second (m : UInt8) (T : Bytes) (x : UInt8) {P' : Bytes}
    (hP' : (clearSecondNibble m != 0) = true → P' ≠ []) :
    (newAndApplyMask (T ++ [x]) (secondNibble m ||| secondNibbleMask)).nibbles ++
        secondNibble x :: (⟨P', clearSecondNibble m⟩ : CompressedPathRaw).nibbles =
      (⟨T ++ x :: P', m⟩ : CompressedPathRaw).nibbles := by
  have hsplit : bytesNibbles (T ++ x :: P') =
      (bytesNibbles T ++ [firstNibble x]) ++ secondNibble x :: bytesNibbles P' := by simp
  rw [nibbles_newAndApplyMask, nibbles_end, nibbles_mk, hsplit, dropFirstIf_concat_append,
    dropLastIf_append _ _ (fun _ => List.cons_ne_nil _ _),
    dropLastIf_cons _ _ (fun h => bytesNibbles_ne_nil (hP' h))]

theorem nibbles_firstNibbleMask (y : UInt8) (k' : Bytes) :
    (⟨y :: k', firstNibbleMask⟩ : CompressedPathRaw).nibbles =
      secondNibble y :: bytesNibbles k' := by
  rw [nibbles_mk, show (secondNibble firstNibbleMask != 0) = true by decide,
    show (clearSecondNibble firstNibbleMask != 0) = false by decide]
  rfl

theorem nibbles_noMissingNibble (k' : Bytes) :
    (⟨k', noMissingNibble⟩ : CompressedPathRaw).nibbles = bytesNibbles k' := by
  rw [nibbles_mk, show (secondNibble noMissingNibble != 0) = false by decide,
    show (clearSecondNibble noMissingNibble != 0) = false by decide]
  rfl

end CompressedPathRaw

/-! ## What a walk should answer -/

/-- `N(k)`: the nibbles of `key` this node has to match. A path that starts in the middle of a
    byte shares that byte with its parent, which has matched the key's first nibble. -/
def keyNibbles (p : CompressedPathRaw) (key : Bytes) : List UInt8 :=
  dropFirstIf p.startsMidByte (bytesNibbles key)

/-- The key starts where the path does: below a parent that matched the first half of a byte,
    the key's first byte has the first half of the path's. -/
def Aligned (p : CompressedPathRaw) (key : Bytes) : Prop :=
  p.startsMidByte = true → key.head?.map firstNibble = p.pathSlice.head?.map firstNibble

/-- The key goes on past `N(p)` with the nibble `c`, and `rest` is what the child at `c` is
    handed: the nibbles of `N(k)` after `N(p) ++ [c]`, read as that child reads them. After a
    path that ends on a full byte, `c` is the first half of `rest`'s first byte and the child
    starts in the middle of it; after one that ends on a half byte, `c` completes that byte. -/
def Descends (p : CompressedPathRaw) (key : Bytes) (c : UInt8) (rest : Bytes) : Prop :=
  p.nibbles ++ [c] <+: keyNibbles p key ∧
    dropFirstIf (!p.endsMidByte) (bytesNibbles rest) =
      (keyNibbles p key).drop (p.nibbles.length + 1) ∧
    (p.endsMidByte = false → rest.head?.map firstNibble = some c)

theorem keyNibbles_mk (bs : Bytes) (m : UInt8) (key : Bytes) :
    keyNibbles ⟨bs, m⟩ key = dropFirstIf (secondNibble m != 0) (bytesNibbles key) :=
  rfl

section
variable {ChildId : Type}

/-- What each answer of `walk::<Write>` says, on nibbles: where the key stops, which child it
    goes on to, or how the path and the key split. -/
def WalkOk (p : CompressedPathRaw) (key : Bytes) (getChild : UInt8 → Option ChildId) :
    WalkStop ChildId → Prop
  | .arrived => keyNibbles p key = p.nibbles
  | .descent keyRemaining c childNode => getChild c = some childNode ∧ Descends p key c keyRemaining
  | .childNotFound keyRemaining c =>
    getChild c = none ∧ Descends p key c keyRemaining.pathSlice ∧
      keyRemaining.nibbles = (keyNibbles p key).drop (p.nibbles.length + 1)
  | .pathDiverted keyChildIndex keyRemaining matchedPath unmatchedChildIndex unmatchedPathRemaining =>
    matchedPath.nibbles ++ unmatchedChildIndex :: unmatchedPathRemaining.nibbles = p.nibbles ∧
      (keyChildIndex = none ∧ keyNibbles p key = matchedPath.nibbles ∨
        ∃ c, keyChildIndex = some c ∧ c ≠ unmatchedChildIndex ∧
          matchedPath.nibbles ++ c :: keyRemaining.nibbles = keyNibbles p key)

/-- What `walk::<Read>` answers where `walk::<Write>` answers `w`: a divergence is not
    described. -/
def WalkStop.forRead : WalkStop ChildId → WalkStop ChildId
  | .pathDiverted .. => .pathDivertedUninitialized
  | w => w

theorem eq_of_prefix_append_singleton {l t : List UInt8} {a b : UInt8} (ha : l ++ [a] <+: t)
    (hb : l ++ [b] <+: t) : a = b := by
  have heq : l ++ [a] = l ++ [b] :=
    (List.prefix_of_prefix_length_le ha hb (by simp)).eq_of_length (by simp)
  simpa using heq

variable {p : CompressedPathRaw} {key : Bytes} {getChild : UInt8 → Option ChildId}

/-- A key that goes on to a child does not stop here. -/
theorem Descends.ne {c : UInt8} {rest : Bytes} (h : Descends p key c rest) :
    keyNibbles p key ≠ p.nibbles := fun hk => by
  have hlen := h.1.length_le
  rw [hk] at hlen
  simp at hlen

/-- Where the path and the key part ways, the key does not cover all of `N(p)`. -/
theorem WalkOk.not_prefix_of_pathDiverted {keyChildIndex : Option UInt8}
    {keyRemaining matchedPath unmatchedPathRemaining : CompressedPathRaw} {u : UInt8}
    (h : WalkOk p key getChild (.pathDiverted keyChildIndex keyRemaining matchedPath u
      unmatchedPathRemaining)) : ¬ p.nibbles <+: keyNibbles p key := by
  obtain ⟨hsplit, ⟨-, hk⟩ | ⟨c, -, hcu, hk⟩⟩ := h
  · -- the key stops inside the path
    rw [hk, ← hsplit]
    intro hpre
    have hlen := hpre.length_le
    simp at hlen
  · -- the key goes on with `c` where the path goes on with `u`
    rw [← hk, ← hsplit]
    intro hpre
    have htail := (List.prefix_append_right_inj _).mp hpre
    exact hcu (List.cons_prefix_cons.mp htail).1.symm

theorem WalkOk.arrived_iff {w : WalkStop ChildId} (h : WalkOk p key getChild w) :
    w = .arrived ↔ keyNibbles p key = p.nibbles := by
  cases w with
  | arrived => exact iff_of_true rfl h
  | descent r c child => exact iff_of_false (by simp) h.2.ne
  | childNotFound kr c => exact iff_of_false (by simp) h.2.1.ne
  | pathDiverted kci kr mp u upr =>
    exact iff_of_false (by simp) fun hk => h.not_prefix_of_pathDiverted (hk ▸ List.prefix_refl _)

theorem WalkOk.descends_iff {w : WalkStop ChildId} (h : WalkOk p key getChild w) (c : UInt8) :
    ((∃ r childNode, w = .descent r c childNode) ∨ ∃ kr, w = .childNotFound kr c) ↔
      p.nibbles ++ [c] <+: keyNibbles p key := by
  cases w with
  | arrived =>
    refine iff_of_false (by simp) fun hc => ?_
    have hlen := hc.length_le
    rw [h] at hlen
    simp at hlen
  | descent r c' childNode =>
    refine ⟨?_, fun hc => .inl ⟨r, childNode, by rw [eq_of_prefix_append_singleton hc h.2.1]⟩⟩
    rintro (⟨r0, child0, h'⟩ | ⟨kr0, h'⟩) <;> cases h'
    exact h.2.1
  | childNotFound kr c' =>
    refine ⟨?_, fun hc => .inr ⟨kr, by rw [eq_of_prefix_append_singleton hc h.2.1.1]⟩⟩
    rintro (⟨r0, child0, h'⟩ | ⟨kr0, h'⟩) <;> cases h'
    exact h.2.1.1
  | pathDiverted kci kr mp u upr =>
    exact iff_of_false (by simp) fun hc =>
      h.not_prefix_of_pathDiverted ((List.prefix_append _ _).trans hc)

theorem forRead_divergedAt (key pathSlice : Bytes) (pathMask : UInt8) (i : Nat) :
    (divergedAt key pathSlice pathMask i : WalkStop ChildId).forRead = .pathDivertedUninitialized := by
  unfold divergedAt
  dsimp only
  split <;> rfl

/-- A read-only walk takes the writing walk's branches and only leaves a divergence
    undescribed. -/
theorem walk_read_eq (key : Bytes) (path : CompressedPathRaw) (getChild : UInt8 → Option ChildId) :
    walk .read key path getChild = (walk .write key path getChild).map WalkStop.forRead := by
  unfold walk
  simp only [AccessMode.readOnly, if_true, Bool.false_eq_true, if_false]
  -- branch by branch the two walks return the same, but where the writing walk diverges
  split_ifs <;> (repeat' split) <;> simp only [Except.map, forRead_divergedAt] <;> rfl

/-- Below a parent that matched the first half of the key's first byte, a path and a key
    aligned with it cannot part ways at that half. -/
theorem Aligned.ne_nil {T P' k' : Bytes} {m x y : UInt8}
    (hk : Aligned ⟨T ++ x :: P', m⟩ (T ++ y :: k')) (hxy : firstNibble x ≠ firstNibble y) :
    (secondNibble m != 0) = true → T ≠ [] := by
  rintro hs rfl
  have h := hk hs
  simp only [List.nil_append, List.head?_cons, Option.map_some, Option.some.injEq] at h
  exact hxy h.symm

/-- Below such a parent the key has a byte. -/
theorem Aligned.ne_nil_of_prefix {T P' : Bytes} {m x : UInt8} (hk : Aligned ⟨T ++ x :: P', m⟩ T) :
    (secondNibble m != 0) = true → T ≠ [] := by
  rintro hs rfl
  have h := hk hs
  simp at h

/-! ## Each way the walk ends -/

section Split

variable {α : Type} (T : List α) (x : α) (R : List α)

theorem getD_append_length (d : α) : (T ++ x :: R).getD T.length d = x := by
  simp

theorem take_append_length_succ : (T ++ x :: R).take (T.length + 1) = T ++ [x] := by
  rw [List.take_length_add_append]
  rfl

theorem drop_append_length_succ : (T ++ x :: R).drop (T.length + 1) = R := by
  simp

end Split

theorem noSecondNibble_eq (m : UInt8) : noSecondNibble m = (clearSecondNibble m != 0) :=
  rfl


/-- The path and the key part ways at the first half of a byte: `x` in the path, `y` in the
    key. -/
theorem walkOk_divergesFirst (m : UInt8) {T : Bytes} (hT : (secondNibble m != 0) = true → T ≠ [])
    {x y : UInt8} (hxy : firstNibble x ≠ firstNibble y) (P' k' : Bytes) :
    WalkOk ⟨T ++ x :: P', m⟩ (T ++ y :: k') getChild
      (.pathDiverted (some (firstNibble y)) ⟨y :: k', firstNibbleMask⟩ ⟨T, secondNibble m⟩
        (firstNibble x) ⟨x :: P', clearSecondNibble m ||| firstNibbleMask⟩) := by
  refine ⟨nibbles_split_first m hT x P', .inr ⟨_, rfl, Ne.symm hxy, ?_⟩⟩
  rw [nibbles_begin, nibbles_firstNibbleMask, keyNibbles_mk, bytesNibbles_append, bytesNibbles_cons,
    dropFirstIf_bytesNibbles_append _ hT]

/-- The path and the key part ways at the second half of a byte whose first halves agree. -/
theorem walkOk_divergesSecond (m : UInt8) (T : Bytes) {x y : UInt8}
    (hfirst : firstNibble x = firstNibble y) (hxy : x ≠ y) {P' : Bytes}
    (hP' : (clearSecondNibble m != 0) = true → P' ≠ []) (k' : Bytes) :
    WalkOk ⟨T ++ x :: P', m⟩ (T ++ y :: k') getChild
      (.pathDiverted (some (secondNibble y)) ⟨k', noMissingNibble⟩
        (newAndApplyMask (T ++ [x]) (secondNibble m ||| secondNibbleMask)) (secondNibble x)
        ⟨P', clearSecondNibble m⟩) := by
  refine ⟨nibbles_split_second m T x hP',
    .inr ⟨_, rfl, fun h => hxy (CompressedPathRaw.eq_of_nibbles hfirst h.symm), ?_⟩⟩
  have hsplit : bytesNibbles (T ++ y :: k') =
      (bytesNibbles T ++ [firstNibble x]) ++ secondNibble y :: bytesNibbles k' := by
    simp [hfirst]
  rw [nibbles_newAndApplyMask, nibbles_noMissingNibble, keyNibbles_mk, hsplit,
    dropFirstIf_concat_append]

/-- The key ends inside the path, before the byte `x`. -/
theorem walkOk_keyEnds (m : UInt8) {T : Bytes} (hT : (secondNibble m != 0) = true → T ≠ [])
    (x : UInt8) (P' : Bytes) :
    WalkOk ⟨T ++ x :: P', m⟩ T getChild
      (.pathDiverted none default ⟨T, secondNibble m⟩ (firstNibble x)
        ⟨x :: P', clearSecondNibble m ||| firstNibbleMask⟩) :=
  ⟨nibbles_split_first m hT x P', .inl ⟨rfl, (nibbles_begin T m).symm⟩⟩

/-- The key ends where a path ending on a full byte does. -/
theorem walkOk_arrived {P : Bytes} {m : UInt8} (he : (clearSecondNibble m != 0) = false) :
    WalkOk ⟨P, m⟩ P getChild .arrived := by
  show keyNibbles ⟨P, m⟩ P = nibbles ⟨P, m⟩
  rw [keyNibbles_mk, nibbles_mk, he, dropLastIf_false]

/-- A key whose nibbles are `N(p) ++ c :: rest` goes on to the child at `c` with `rest`. -/
theorem descends_of_eq {c : UInt8} {rest : List UInt8} {r : Bytes}
    (hk : keyNibbles p key = p.nibbles ++ c :: rest)
    (hr : dropFirstIf (!p.endsMidByte) (bytesNibbles r) = rest)
    (hh : p.endsMidByte = false → r.head?.map firstNibble = some c) :
    Descends p key c r ∧ (keyNibbles p key).drop (p.nibbles.length + 1) = rest := by
  have hdrop : (keyNibbles p key).drop (p.nibbles.length + 1) = rest := by
    rw [hk]
    simp
  exact ⟨⟨by rw [hk]; exact ⟨rest, by simp⟩, by rw [hr, hdrop], hh⟩, hdrop⟩

/-- After a path that ends on a full byte, the key goes on with the first half of its next byte
    `y`, and the child is handed the key from `y` on. -/
theorem descends_first {T : Bytes} {m : UInt8} (he : (clearSecondNibble m != 0) = false)
    (hT : (secondNibble m != 0) = true → T ≠ []) (y : UInt8) (k' : Bytes) :
    Descends ⟨T, m⟩ (T ++ y :: k') (firstNibble y) (y :: k') ∧
      (⟨y :: k', firstNibbleMask⟩ : CompressedPathRaw).nibbles =
        (keyNibbles ⟨T, m⟩ (T ++ y :: k')).drop ((nibbles ⟨T, m⟩).length + 1) := by
  have hk : keyNibbles ⟨T, m⟩ (T ++ y :: k') =
      nibbles ⟨T, m⟩ ++ firstNibble y :: (secondNibble y :: bytesNibbles k') := by
    rw [keyNibbles_mk, nibbles_mk, he, dropLastIf_false, bytesNibbles_append, bytesNibbles_cons,
      dropFirstIf_bytesNibbles_append _ hT]
  have hr : dropFirstIf (!endsMidByte ⟨T, m⟩) (bytesNibbles (y :: k')) =
      secondNibble y :: bytesNibbles k' := by
    rw [endsMidByte_mk, he]
    rfl
  obtain ⟨hd, hdrop⟩ := descends_of_eq hk hr fun _ => rfl
  exact ⟨hd, by rw [nibbles_firstNibbleMask, hdrop]⟩

/-- After a path that ends on the first half of `x`, a key whose byte `y` has that half goes on
    with `y`'s second half, and the child is handed the key after `y`. -/
theorem descends_second {T : Bytes} {m : UInt8} (he : (clearSecondNibble m != 0) = true)
    {x y : UInt8} (hfirst : firstNibble x = firstNibble y) (k' : Bytes) :
    Descends ⟨T ++ [x], m⟩ (T ++ y :: k') (secondNibble y) k' ∧
      (⟨k', noMissingNibble⟩ : CompressedPathRaw).nibbles =
        (keyNibbles ⟨T ++ [x], m⟩ (T ++ y :: k')).drop ((nibbles ⟨T ++ [x], m⟩).length + 1) := by
  have hk : keyNibbles ⟨T ++ [x], m⟩ (T ++ y :: k') =
      nibbles ⟨T ++ [x], m⟩ ++ secondNibble y :: bytesNibbles k' := by
    have hsplit : bytesNibbles (T ++ y :: k') =
        (bytesNibbles T ++ [firstNibble x]) ++ secondNibble y :: bytesNibbles k' := by
      simp [hfirst]
    rw [keyNibbles_mk, nibbles_mk, he, dropLastIf_true, hsplit, bytesNibbles_concat,
      dropFirstIf_concat_append, dropFirstIf_concat_append, List.dropLast_concat]
  have hr : dropFirstIf (!endsMidByte ⟨T ++ [x], m⟩) (bytesNibbles k') = bytesNibbles k' := by
    rw [endsMidByte_mk, he]
    rfl
  obtain ⟨hd, hdrop⟩ := descends_of_eq hk hr fun h => by rw [endsMidByte_mk, he] at h; cases h
  exact ⟨hd, by rw [nibbles_noMissingNibble, hdrop]⟩

/-- The split `walk` reports at the first byte where the path and the key differ: `x` in the
    path, `y` in the key. -/
theorem walkOk_divergedAt (m : UInt8) {T P' k' : Bytes} {x y : UInt8}
    (hkey : Aligned ⟨T ++ x :: P', m⟩ (T ++ y :: k')) (hxy : x ≠ y)
    (hP' : (clearSecondNibble m != 0) = true → P' ≠ []) :
    WalkOk ⟨T ++ x :: P', m⟩ (T ++ y :: k') getChild
      (divergedAt (T ++ y :: k') (T ++ x :: P') m T.length) := by
  unfold divergedAt
  dsimp only
  rw [getD_append_length, getD_append_length, take_append_length_succ, drop_append_length_succ,
    drop_append_length_succ, List.take_left' rfl, List.drop_left' rfl, List.drop_left' rfl]
  split_ifs with hfirst <;> rw [beq_iff_eq, firstNibble_xor_eq_zero_iff] at hfirst
  · -- the first halves agree: the split is at the second half
    exact walkOk_divergesSecond m T hfirst hxy hP' k'
  · exact walkOk_divergesFirst m (hkey.ne_nil hfirst) hfirst P' k'

/-! ## The walk -/

/-- A path whose end bits are set has a byte: `path_slice.len() - 1` does not underflow. -/
theorem CompressedPathRaw.Canonical.boolToNat_le {P : Bytes} {m : UInt8} (hp : Canonical ⟨P, m⟩) :
    boolToNat (noSecondNibble m) ≤ P.length := by
  cases he : noSecondNibble m with
  | false => simp
  | true =>
    rw [boolToNat_true]
    exact List.length_pos_iff.mpr (hp.ne_nil_of_endsMidByte he)

theorem walk_write_of_firstMismatch_some {P : Bytes} {m : UInt8} {key : Bytes}
    (getChild : UInt8 → Option ChildId) (hpre : boolToNat (noSecondNibble m) ≤ P.length) {i : Nat}
    (h : firstMismatch P key (min (P.length - boolToNat (noSecondNibble m)) key.length) = some i) :
    walk .write key ⟨P, m⟩ getChild = .ok (divergedAt key P m i) := by
  unfold walk
  simp only [AccessMode.readOnly, Bool.false_eq_true, if_false]
  rw [if_neg (Nat.not_lt.mpr hpre), h]

/-- The walk when the compared bytes agree: the key ends inside the path or with it, or goes on
    to a child, or parts from the half byte the path has left. -/
theorem walk_write_of_prefix {P : Bytes} {m : UInt8} {key : Bytes} (hp : Canonical ⟨P, m⟩)
    (hkey : Aligned ⟨P, m⟩ key) (getChild : UInt8 → Option ChildId)
    (hnone : firstMismatch P key (min (P.length - boolToNat (noSecondNibble m)) key.length) = none)
    (htake : P.take (min (P.length - boolToNat (noSecondNibble m)) key.length) =
      key.take (min (P.length - boolToNat (noSecondNibble m)) key.length)) :
    ∃ w, walk .write key ⟨P, m⟩ getChild = .ok w ∧ WalkOk ⟨P, m⟩ key getChild w := by
  have hpre := hp.boolToNat_le
  unfold walk
  simp only [AccessMode.readOnly, Bool.false_eq_true, if_false]
  rw [if_neg (Nat.not_lt.mpr hpre), hnone]
  dsimp only
  generalize hn : min (P.length - boolToNat (noSecondNibble m)) key.length = n at htake
  rw [noSecondNibble_eq] at hpre hn
  by_cases hkn : key.length = n
  · -- the key is used up
    rw [if_pos (beq_iff_eq.mpr hkn)]
    have hkey' : key.take n = key := by rw [← hkn, List.take_length]
    by_cases hPn : n < P.length
    · -- inside the path, before its byte `x`
      rw [if_pos hPn]
      obtain ⟨x, P', hdrop⟩ := List.exists_cons_of_ne_nil (show P.drop n ≠ [] by simpa using hPn)
      have hP : P = key ++ x :: P' := by rw [← List.take_append_drop n P, htake, hkey', hdrop]
      subst hP hkn
      rw [List.take_left' rfl, getD_append_length, List.drop_left' rfl]
      exact ⟨_, rfl, walkOk_keyEnds m hkey.ne_nil_of_prefix x P'⟩
    · -- at the end of a path that ends on a full byte
      rw [if_neg hPn]
      have he : (clearSecondNibble m != 0) = false := eq_false_of_ne_true fun he => by
        simp only [he, boolToNat_true] at hn hpre
        omega
      have hP : P = key := by
        rw [← List.take_length (l := P), show P.length = n by omega, htake, hkey']
      subst hP
      exact ⟨_, rfl, walkOk_arrived he⟩
  · -- the key goes on past the compared bytes, with its byte `y`
    rw [if_neg (by simpa using hkn)]
    obtain ⟨y, k', hkdrop⟩ := List.exists_cons_of_ne_nil (show key.drop n ≠ [] by simp; omega)
    have hK : key = P.take n ++ y :: k' := by rw [htake, ← hkdrop, List.take_append_drop]
    by_cases hPn : P.length = n
    · -- the path is used up: the first half of `y` picks the child
      rw [if_pos (beq_iff_eq.mpr hPn)]
      dsimp only
      have he : (clearSecondNibble m != 0) = false := eq_false_of_ne_true fun he => by
        simp only [he, boolToNat_true] at hn hpre
        omega
      rw [← hPn, List.take_length] at hK
      subst hK hPn
      rw [getD_append_length, List.drop_left' rfl]
      have hd := descends_first he hp.ne_nil_of_startsMidByte y k'
      rcases hg : getChild (firstNibble y) with _ | childNode
      · exact ⟨_, rfl, hg, hd⟩
      · exact ⟨_, rfl, hg, hd.1⟩
    · -- the half byte `x` of the path is left
      rw [if_neg (by simpa using hPn)]
      have he : (clearSecondNibble m != 0) = true := eq_true_of_ne_false fun he => by
        simp only [he, boolToNat_false] at hn
        omega
      obtain ⟨x, hdrop⟩ : ∃ x, P.drop n = [x] := by
        rw [he, boolToNat_true] at hn
        exact List.length_eq_one_iff.mp (by simp; omega)
      have hP : P = P.take n ++ [x] := by rw [← hdrop, List.take_append_drop]
      have hTlen : (P.take n).length = n := by simp; omega
      generalize P.take n = T at hK hP hTlen
      subst hK hP hTlen
      rw [getD_append_length, getD_append_length, List.drop_left' rfl, List.drop_left' rfl,
        drop_append_length_succ]
      by_cases hfirst : firstNibble x = firstNibble y
      · -- `y` has the half byte: its second half picks the child
        rw [if_neg (by simpa [firstNibble_xor_eq_zero_iff] using hfirst)]
        dsimp only
        have hd := descends_second (T := T) he hfirst k'
        rcases hg : getChild (secondNibble y) with _ | childNode
        · exact ⟨_, rfl, hg, hd⟩
        · exact ⟨_, rfl, hg, hd.1⟩
      · rw [if_pos (by simpa [firstNibble_xor_eq_zero_iff] using hfirst)]
        exact ⟨_, rfl, walkOk_divergesFirst m (hkey.ne_nil hfirst) hfirst [] k'⟩

/-- `walk::<Write>` on a canonical path and a key aligned with it answers as `WalkOk` says. -/
theorem walk_write_spec {p : CompressedPathRaw} (hp : p.Canonical) (hkey : Aligned p key)
    (getChild : UInt8 → Option ChildId) :
    ∃ w, walk .write key p getChild = .ok w ∧ WalkOk p key getChild w := by
  obtain ⟨P, m⟩ := p
  have hpre := hp.boolToNat_le
  rcases @firstMismatch_cases P key (min (P.length - boolToNat (noSecondNibble m)) key.length)
      (by omega) (by omega) with
    ⟨hnone, htake⟩ | ⟨T, x, P', y, k', rfl, rfl, hxy, hlt, hsome⟩
  · exact walk_write_of_prefix hp hkey getChild hnone htake
  · -- the loop compares whole bytes only: after `x`, the path still has its last byte
    have hP' : (clearSecondNibble m != 0) = true → P' ≠ [] := by
      rintro he rfl
      rw [noSecondNibble_eq, he, boolToNat_true] at hlt
      simp at hlt
    exact ⟨_, walk_write_of_firstMismatch_some getChild hpre hsome,
      walkOk_divergedAt m hkey hxy hP'⟩

theorem walk_matches_nibbles {p : CompressedPathRaw} (hp : p.Canonical) (hkey : Aligned p key)
    (getChild : UInt8 → Option ChildId) :
    ∃ w, walk .write key p getChild = .ok w ∧ walk .read key p getChild = .ok w.forRead ∧
      WalkOk p key getChild w ∧ (w = .arrived ↔ keyNibbles p key = p.nibbles) ∧
      ∀ c, ((∃ r childNode, w = .descent r c childNode) ∨ ∃ kr, w = .childNotFound kr c) ↔
        p.nibbles ++ [c] <+: keyNibbles p key := by
  obtain ⟨w, hw, hok⟩ := walk_write_spec hp hkey getChild
  refine ⟨w, hw, ?_, hok, hok.arrived_iff, hok.descends_iff⟩
  rw [walk_read_eq, hw]
  rfl

/-- The path `234` (the second half of `12`, then `34`) and a key aligned with it. -/
theorem walk_matches_nibbles_mid_byte :
    (⟨[0x12, 0x34], 0x0f⟩ : CompressedPathRaw).Canonical ∧
      Aligned ⟨[0x12, 0x34], 0x0f⟩ [0x12, 0x35] ∧
      ∃ w, walk .write [0x12, 0x35] ⟨[0x12, 0x34], 0x0f⟩ (fun _ => (none : Option Unit)) = .ok w ∧
        walk .read [0x12, 0x35] ⟨[0x12, 0x34], 0x0f⟩ (fun _ => (none : Option Unit)) =
          .ok w.forRead ∧
        WalkOk ⟨[0x12, 0x34], 0x0f⟩ [0x12, 0x35] (fun _ => (none : Option Unit)) w ∧
        (w = .arrived ↔ keyNibbles ⟨[0x12, 0x34], 0x0f⟩ [0x12, 0x35] = nibbles ⟨[0x12, 0x34], 0x0f⟩) ∧
        ∀ c, ((∃ r childNode, w = .descent r c childNode) ∨ ∃ kr, w = .childNotFound kr c) ↔
          nibbles ⟨[0x12, 0x34], 0x0f⟩ ++ [c] <+: keyNibbles ⟨[0x12, 0x34], 0x0f⟩ [0x12, 0x35] := by
  have hp : (⟨[0x12, 0x34], 0x0f⟩ : CompressedPathRaw).Canonical :=
    ⟨by decide, by decide, by decide, by decide⟩
  have hkey : Aligned ⟨[0x12, 0x34], 0x0f⟩ [0x12, 0x35] := by
    unfold Aligned
    decide
  exact ⟨hp, hkey, walk_matches_nibbles hp hkey _⟩

/-- There the key `235` leaves the path at its last nibble: the matched part is `23`, the
    second half of `34` is cut off. -/
example : walk .write [0x12, 0x35] ⟨[0x12, 0x34], 0x0f⟩ (fun _ => (none : Option Unit)) =
    .ok (.pathDiverted (some 5) ⟨[], 0⟩ ⟨[0x12, 0x30], 0xff⟩ 4 ⟨[], 0⟩) := by
  rfl

end

end Mazze.Storage
