import Mazze.Storage.CompressedPath

/-!
# Extending and joining compressed paths

`extend_path(x, c)` and `join_connected_paths(x, c, y)` build the path of a node from its
parent's path, the child index and (for the join) the child's path. Both work on bytes and a
mask, not on nibbles: when `x` ends on a full byte the nibble `c` starts a new byte (the first
half of `y`'s first byte, for the join), and when `x` ends on a half byte it fills the second
half of `x`'s last byte. What they should compute is said on nibbles: the path covers
`N(x) ++ [c]`, or `N(x) ++ [c] ++ N(y)`.

A canonical path (`Canonical`) sets its begin bits and its end bits to all or nothing, keeps
the excluded trailing nibble zero, and has a byte whenever a nibble is excluded. Its mask then
says no more than whether the path starts and whether it ends in the middle of a byte
(`startsMidByte`, `endsMidByte`), and `path_steps` counts the nibbles it covers while the
slice is shorter than `2^15` bytes (`Canonical.pathSteps_eq`); from there on its `u16` product
overflows. On canonical paths, with `y` aligned after `x` and `c` (`Follows`), both functions
cover the nibbles they should and return canonical paths (`extendPath_spec`,
`joinConnectedPaths_spec`). The step counts add up while the two paths together are shorter
than `2^15` bytes; past that an extension's `path_steps` can panic where `x`'s does not
(`extendPath_pathSteps_overflows`).
-/

set_option autoImplicit false
-- the byte facts below are decided over all 256 values
set_option maxRecDepth 2048

namespace Mazze.Storage

namespace CompressedPathRaw

/-! ## Nibbles of one byte -/

/-- A fact about every byte, from its 256 values. -/
theorem forall_uint8 {P : UInt8 → Prop} (h : ∀ n, n < 256 → P n.toUInt8) (x : UInt8) : P x := by
  have hx := h x.toNat x.toNat_lt
  rwa [show x.toNat.toUInt8 = x from UInt8.ofNat_toNat] at hx

/-- A fact about every nibble, from its 16 values. -/
theorem forall_nibble {P : UInt8 → Prop} (h : ∀ m, m < 16 → P m.toUInt8) (c : UInt8)
    (hc : c < 16) : P c := by
  have hc' := h c.toNat (UInt8.lt_iff_toNat_lt.mp hc)
  rwa [show c.toNat.toUInt8 = c from UInt8.ofNat_toNat] at hc'

theorem or_and_distrib_right (a b c : UInt8) : (a ||| b) &&& c = (a &&& c) ||| (b &&& c) := by
  apply UInt8.toBitVec_inj.mp
  simp [BitVec.and_or_distrib_right]

/-- A nibble lies in the low half of its byte. -/
theorem nibble_bits {c : UInt8} (hc : c < 16) :
    c &&& bits03Mask = c ∧ c &&& bits47Mask = 0 ∧ c >>> 4 = 0 :=
  forall_nibble (P := fun c => c &&& bits03Mask = c ∧ c &&& bits47Mask = 0 ∧ c >>> 4 = 0)
    (by decide) c hc

theorem firstNibble_clearSecondNibble (b : UInt8) : firstNibble (clearSecondNibble b) = firstNibble b :=
  forall_uint8 (P := fun b => firstNibble (clearSecondNibble b) = firstNibble b) (by decide) b

@[simp] theorem firstNibble_fromFirstNibble {c : UInt8} (hc : c < 16) :
    firstNibble (fromFirstNibble c) = c :=
  forall_nibble (P := fun c => firstNibble (fromFirstNibble c) = c) (by decide) c hc

@[simp] theorem secondNibble_fromFirstNibble (c : UInt8) : secondNibble (fromFirstNibble c) = 0 :=
  forall_uint8 (P := fun c => secondNibble (fromFirstNibble c) = 0) (by decide) c

/-! `set_second_nibble(b, c)` is `(b & 0xf0) | c`: with `c` below 16 the two halves do not
overlap, so each half of the result is the half it came from. -/

@[simp] theorem firstNibble_setSecondNibble (b : UInt8) {c : UInt8} (hc : c < 16) :
    firstNibble (setSecondNibble b c) = firstNibble b := by
  rw [setSecondNibble, firstNibble, UInt8.shiftRight_or, (nibble_bits hc).2.2, UInt8.or_zero]
  exact firstNibble_clearSecondNibble b

@[simp] theorem secondNibble_setSecondNibble (b : UInt8) {c : UInt8} (hc : c < 16) :
    secondNibble (setSecondNibble b c) = c := by
  rw [setSecondNibble, secondNibble, clearSecondNibble, or_and_distrib_right, UInt8.and_assoc,
    show bits47Mask &&& bits03Mask = 0 from rfl, UInt8.and_zero, UInt8.zero_or, (nibble_bits hc).1]

@[simp] theorem clearSecondNibble_setSecondNibble (b : UInt8) {c : UInt8} (hc : c < 16) :
    clearSecondNibble (setSecondNibble b c) = clearSecondNibble b := by
  rw [setSecondNibble, clearSecondNibble, clearSecondNibble, or_and_distrib_right, UInt8.and_assoc,
    show bits47Mask &&& bits47Mask = bits47Mask from rfl, (nibble_bits hc).2.1, UInt8.or_zero]

theorem secondNibble_lt (m : UInt8) : secondNibble m < 16 :=
  forall_uint8 (P := fun m => secondNibble m < 16) (by decide) m

/-! ## Masks

The masks `extend_path` and `join_connected_paths` build keep the begin bits they are given
and set the end bits: `| second_nibble_mask()` sets them, `second_nibble` clears them, and
`set_second_nibble(y_mask, second_nibble(x_mask))` takes them from `y`. -/

@[simp] theorem secondNibble_or_secondNibbleMask (m : UInt8) :
    secondNibble (m ||| secondNibbleMask) = secondNibble m :=
  forall_uint8 (P := fun m => secondNibble (m ||| secondNibbleMask) = secondNibble m)
    (by decide) m

@[simp] theorem clearSecondNibble_or_secondNibbleMask (m : UInt8) :
    clearSecondNibble (m ||| secondNibbleMask) = secondNibbleMask :=
  forall_uint8 (P := fun m => clearSecondNibble (m ||| secondNibbleMask) = secondNibbleMask)
    (by decide) m

@[simp] theorem secondNibble_secondNibble (m : UInt8) :
    secondNibble (secondNibble m) = secondNibble m :=
  forall_uint8 (P := fun m => secondNibble (secondNibble m) = secondNibble m) (by decide) m

@[simp] theorem clearSecondNibble_secondNibble (m : UInt8) : clearSecondNibble (secondNibble m) = 0 :=
  forall_uint8 (P := fun m => clearSecondNibble (secondNibble m) = 0) (by decide) m

/-! ## The nibbles a path covers -/

/-- The begin bits are set: the path starts at the second nibble of its first byte. -/
def startsMidByte (p : CompressedPathRaw) : Bool := secondNibble p.pathMask != 0

/-- The end bits are set: the path ends at the first nibble of its last byte. -/
def endsMidByte (p : CompressedPathRaw) : Bool := clearSecondNibble p.pathMask != 0

/-- The list less its first element, when `b`. -/
def dropFirstIf {α : Type} (b : Bool) (l : List α) : List α := if b then l.drop 1 else l

/-- The list less its last element, when `b`. -/
def dropLastIf {α : Type} (b : Bool) (l : List α) : List α := if b then l.dropLast else l

theorem nibbles_eq (p : CompressedPathRaw) :
    p.nibbles = dropLastIf p.endsMidByte (dropFirstIf p.startsMidByte (bytesNibbles p.pathSlice)) :=
  rfl

theorem bytesNibbles_ne_nil {bs : Bytes} (h : bs ≠ []) : bytesNibbles bs ≠ [] := by
  obtain ⟨b, bs', rfl⟩ := List.exists_cons_of_ne_nil h
  simp

@[simp] theorem bytesNibbles_append (bs cs : Bytes) :
    bytesNibbles (bs ++ cs) = bytesNibbles bs ++ bytesNibbles cs :=
  List.flatMap_append

@[simp] theorem boolToNat_true : boolToNat true = 1 := rfl
@[simp] theorem boolToNat_false : boolToNat false = 0 := rfl

section Trim

variable {α : Type}

@[simp] theorem dropFirstIf_true (l : List α) : dropFirstIf true l = l.drop 1 := rfl
@[simp] theorem dropFirstIf_false (l : List α) : dropFirstIf false l = l := rfl
@[simp] theorem dropLastIf_true (l : List α) : dropLastIf true l = l.dropLast := rfl
@[simp] theorem dropLastIf_false (l : List α) : dropLastIf false l = l := rfl

theorem dropFirstIf_append (b : Bool) {l : List α} (hl : b = true → l ≠ []) (t : List α) :
    dropFirstIf b (l ++ t) = dropFirstIf b l ++ t := by
  cases b with
  | false => rfl
  | true => exact List.drop_append_of_le_length (List.length_pos_iff.mpr (hl rfl))

theorem dropLastIf_append (b : Bool) (l : List α) {t : List α} (ht : b = true → t ≠ []) :
    dropLastIf b (l ++ t) = l ++ dropLastIf b t := by
  cases b with
  | false => rfl
  | true => exact List.dropLast_append_of_ne_nil (ht rfl)

theorem dropLastIf_cons (b : Bool) (a : α) {t : List α} (ht : b = true → t ≠ []) :
    dropLastIf b (a :: t) = a :: dropLastIf b t :=
  dropLastIf_append b [a] ht

theorem getLastD_append_of_ne_nil (l : List α) {t : List α} (ht : t ≠ []) (d : α) :
    (l ++ t).getLastD d = t.getLastD d := by
  rw [List.getLastD_eq_getLast?, List.getLastD_eq_getLast?, List.getLast?_append_of_ne_nil _ ht]

theorem length_dropFirstIf (b : Bool) (l : List α) :
    (dropFirstIf b l).length = l.length - boolToNat b := by
  cases b <;> simp [dropFirstIf]

theorem length_dropLastIf (b : Bool) (l : List α) :
    (dropLastIf b l).length = l.length - boolToNat b := by
  cases b <;> simp [dropLastIf]

end Trim

/-- A slice that has a byte whenever its first nibble is dropped loses that nibble in front of
    whatever follows its nibbles. -/
theorem dropFirstIf_bytesNibbles_append (b : Bool) {bs : Bytes} (h : b = true → bs ≠ [])
    (t : List UInt8) :
    dropFirstIf b (bytesNibbles bs ++ t) = dropFirstIf b (bytesNibbles bs) ++ t :=
  dropFirstIf_append b (fun hb => bytesNibbles_ne_nil (h hb)) t

/-- Nibbles that end with the first half of a byte always have one to drop. -/
theorem dropFirstIf_concat_append (b : Bool) (l : List UInt8) (a : UInt8) (t : List UInt8) :
    dropFirstIf b (l ++ [a] ++ t) = dropFirstIf b (l ++ [a]) ++ t :=
  dropFirstIf_append b (fun _ => by simp) t

/-! ## Canonical paths -/

/-- A canonical compressed path: the begin bits and the end bits are all or nothing, the
    excluded trailing nibble is zero, and a path that excludes a nibble has a byte. -/
structure Canonical (p : CompressedPathRaw) : Prop where
  beginBits : secondNibble p.pathMask = noMissingNibble ∨ secondNibble p.pathMask = firstNibbleMask
  endBits :
    clearSecondNibble p.pathMask = noMissingNibble ∨ clearSecondNibble p.pathMask = secondNibbleMask
  trailingZero : p.endsMidByte = true → secondNibble (p.pathSlice.getLastD 0) = 0
  nonempty : p.pathMask ≠ noMissingNibble → p.pathSlice ≠ []

theorem Canonical.ne_nil_of_startsMidByte {p : CompressedPathRaw} (h : p.Canonical)
    (hs : p.startsMidByte = true) : p.pathSlice ≠ [] :=
  h.nonempty fun h0 => by
    rw [startsMidByte, h0] at hs
    exact absurd hs (by decide)

theorem Canonical.ne_nil_of_endsMidByte {p : CompressedPathRaw} (h : p.Canonical)
    (he : p.endsMidByte = true) : p.pathSlice ≠ [] :=
  h.nonempty fun h0 => by
    rw [endsMidByte, h0] at he
    exact absurd he (by decide)

/-- `calculate_path_steps` neither overflows nor underflows while the slice is shorter than
    `2^15` bytes and has the nibbles the mask excludes. -/
theorem pathSteps_of_le {p : CompressedPathRaw} (hs : p.pathSize < 2 ^ 15)
    (h : boolToNat p.endsMidByte + boolToNat p.startsMidByte ≤ p.pathSlice.length * 2) :
    p.pathSteps =
      .ok (p.pathSlice.length * 2 - boolToNat p.endsMidByte - boolToNat p.startsMidByte) := by
  rw [pathSize] at hs
  simp only [pathSteps, pathSize, ← endsMidByte.eq_1, ← startsMidByte.eq_1]
  rw [if_neg (by omega), if_neg (by omega), if_neg (by omega)]

/-- `path_steps` of a canonical path shorter than `2^15` bytes counts the nibbles it
    covers. -/
theorem Canonical.pathSteps_eq {p : CompressedPathRaw} (h : p.Canonical) (hs : p.pathSize < 2 ^ 15) :
    p.pathSteps = .ok p.nibbles.length := by
  -- a path that excludes a nibble has two
  have hle : boolToNat p.endsMidByte + boolToNat p.startsMidByte ≤ p.pathSlice.length * 2 := by
    cases hs : p.startsMidByte <;> cases he : p.endsMidByte
    · simp
    · have := List.length_pos_iff.mpr (h.ne_nil_of_endsMidByte he)
      simp only [boolToNat_true, boolToNat_false]
      omega
    · have := List.length_pos_iff.mpr (h.ne_nil_of_startsMidByte hs)
      simp only [boolToNat_true, boolToNat_false]
      omega
    · have := List.length_pos_iff.mpr (h.ne_nil_of_startsMidByte hs)
      simp only [boolToNat_true]
      omega
  rw [pathSteps_of_le hs hle, nibbles_eq, length_dropLastIf, length_dropFirstIf, length_bytesNibbles]
  congr 1
  omega

/-- `y` is aligned to follow `x` and the child index `c`: after a path that ends on a full
    byte, `y` starts in the middle of its first byte and that byte's first half is `c`; after
    one that ends on a half byte, `c` fills that byte and `y` starts on a full byte. -/
def Follows (x : CompressedPathRaw) (c : UInt8) (y : CompressedPathRaw) : Prop :=
  if x.endsMidByte then y.startsMidByte = false
  else y.startsMidByte = true ∧ y.pathSlice.head?.map firstNibble = some c

theorem hasSecondNibble_eq (p : CompressedPathRaw) : hasSecondNibble p.pathMask = !p.endsMidByte := by
  rw [endsMidByte, bne, Bool.not_not]
  rfl

@[simp] theorem startsMidByte_mk (bs : Bytes) (m : UInt8) :
    (⟨bs, m⟩ : CompressedPathRaw).startsMidByte = (secondNibble m != 0) := rfl

@[simp] theorem endsMidByte_mk (bs : Bytes) (m : UInt8) :
    (⟨bs, m⟩ : CompressedPathRaw).endsMidByte = (clearSecondNibble m != 0) := rfl

theorem nibbles_mk (bs : Bytes) (m : UInt8) :
    (⟨bs, m⟩ : CompressedPathRaw).nibbles =
      dropLastIf (clearSecondNibble m != 0) (dropFirstIf (secondNibble m != 0) (bytesNibbles bs)) :=
  rfl

/-- The nibbles of a slice that ends in `z`, split before `z`'s second half. -/
theorem bytesNibbles_concat (bs : Bytes) (z : UInt8) :
    bytesNibbles (bs ++ [z]) = (bytesNibbles bs ++ [firstNibble z]) ++ [secondNibble z] := by
  simp

/-! ## `extend_path` -/

/-- `extend_path` on a canonical path with room for a byte covers one nibble more, `c`, stays
    canonical, and grows by a byte when `x` ends on a full one. -/
theorem extendPath_spec {x : CompressedPathRaw} (hx : x.Canonical) {c : UInt8} (hc : c < 16)
    (hs : x.pathSize + 1 < 2 ^ 16) :
    ∃ r, extendPath x c = .ok r ∧ r.nibbles = x.nibbles ++ [c] ∧ r.Canonical ∧
      r.pathSize = x.pathSize + boolToNat (!x.endsMidByte) := by
  obtain ⟨bs, m⟩ := x
  unfold extendPath
  rw [hasSecondNibble_eq]
  dsimp only
  cases he : endsMidByte ⟨bs, m⟩ with
  | false =>
    -- a full last byte: `c` starts a new byte, whose second half the end bits exclude
    rw [endsMidByte_mk] at he
    rw [Bool.not_false, if_pos rfl, if_neg (by omega)]
    refine ⟨_, rfl, ?_, ?_, by simp [pathSize]⟩
    · have hs : (secondNibble m != 0) = true → bs ≠ [] := hx.ne_nil_of_startsMidByte
      rw [nibbles_mk, nibbles_mk, secondNibble_or_secondNibbleMask,
        clearSecondNibble_or_secondNibbleMask, he, bytesNibbles_append,
        dropFirstIf_bytesNibbles_append _ hs]
      simp [dropLastIf, hc, secondNibbleMask, bits47Mask]
    · refine ⟨?_, .inr ?_, fun _ => ?_, fun _ => by simp⟩
      · simpa using hx.beginBits
      · simp
      · simp
  | true =>
    -- a half last byte: `c` fills its second half
    obtain ⟨init, last, hbs⟩ := (List.eq_nil_or_concat bs).resolve_left (hx.ne_nil_of_endsMidByte he)
    rw [List.concat_eq_append] at hbs
    subst hbs
    rw [endsMidByte_mk] at he
    simp only [Bool.not_true, Bool.false_eq_true, if_false, List.getLast?_concat, List.dropLast_concat]
    refine ⟨_, rfl, ?_, ?_, by simp [pathSize]⟩
    · -- both sides keep the nibbles up to `last`'s first half
      rw [nibbles_mk, nibbles_mk, secondNibble_secondNibble, clearSecondNibble_secondNibble, he,
        bytesNibbles_concat, bytesNibbles_concat, firstNibble_setSecondNibble _ hc,
        secondNibble_setSecondNibble _ hc]
      simp only [dropFirstIf_concat_append]
      simp [dropLastIf]
    · refine ⟨?_, .inl (clearSecondNibble_secondNibble m), fun h => ?_, fun _ => by simp⟩
      · simpa using hx.beginBits
      · simp at h

/-! ## `join_connected_paths` -/

/-- The mask of a join keeps `x`'s begin bits and `y`'s end bits. -/
theorem secondNibble_joinMask (m n : UInt8) :
    secondNibble (setSecondNibble n (secondNibble m)) = secondNibble m :=
  secondNibble_setSecondNibble n (secondNibble_lt m)

theorem clearSecondNibble_joinMask (m n : UInt8) :
    clearSecondNibble (setSecondNibble n (secondNibble m)) = clearSecondNibble n :=
  clearSecondNibble_setSecondNibble n (secondNibble_lt m)

/-- Bytes followed by `y`'s, under `x`'s begin bits and `y`'s end bits: canonical when `x` and
    `y` are and there is a byte. -/
theorem Canonical.join {bs ys : Bytes} {m n : UInt8} (hx : Canonical ⟨bs, m⟩)
    (hy : Canonical ⟨ys, n⟩) (pre : Bytes) (hne : pre ++ ys ≠ []) :
    Canonical ⟨pre ++ ys, setSecondNibble n (secondNibble m)⟩ := by
  refine ⟨?_, ?_, fun h => ?_, fun _ => hne⟩
  · rw [secondNibble_joinMask]
    exact hx.beginBits
  · rw [clearSecondNibble_joinMask]
    exact hy.endBits
  · -- the end bits are `y`'s, so the last byte is too
    rw [endsMidByte_mk, clearSecondNibble_joinMask] at h
    rw [getLastD_append_of_ne_nil _ (hy.ne_nil_of_endsMidByte h)]
    exact hy.trailingZero h

/-- `join_connected_paths` of canonical paths, `y` aligned after `x` and `c`, whose joined
    length fits in `u16`, covers the nibbles of `x`, then `c`, then those of `y`, is canonical,
    and is as long as the two. -/
theorem joinConnectedPaths_spec {x y : CompressedPathRaw} (hx : x.Canonical) (hy : y.Canonical)
    {c : UInt8} (hc : c < 16) (hxy : Follows x c y) (hs : x.pathSize + y.pathSize < 2 ^ 16) :
    ∃ r, joinConnectedPaths x c y = .ok r ∧ r.nibbles = x.nibbles ++ [c] ++ y.nibbles ∧
      r.Canonical ∧ r.pathSize = x.pathSize + y.pathSize := by
  obtain ⟨bs, m⟩ := x
  obtain ⟨ys, n⟩ := y
  unfold joinConnectedPaths
  unfold Follows at hxy
  rw [hasSecondNibble_eq]
  dsimp only
  -- the `as u16` cast keeps the joined length
  simp only [pathSize] at hs
  rw [Nat.mod_eq_of_lt hs]
  cases he : endsMidByte ⟨bs, m⟩ with
  | false =>
    -- `x` ends on a full byte: `y`'s first byte starts with `c`, and the slices are concatenated
    rw [he] at hxy
    rw [endsMidByte_mk] at he
    obtain ⟨hys, hhead⟩ := hxy
    rw [startsMidByte_mk] at hys
    obtain ⟨yb, ys', rfl⟩ : ∃ yb ys', ys = yb :: ys' := List.exists_cons_of_ne_nil (by
      rintro rfl
      simp at hhead)
    have hyb : firstNibble yb = c := by simpa using hhead
    rw [List.take_of_length_le (by simp)]
    refine ⟨_, rfl, ?_, ?_, by simp [pathSize]⟩
    · have hs : (secondNibble m != 0) = true → bs ≠ [] := hx.ne_nil_of_startsMidByte
      rw [nibbles_mk, nibbles_mk, nibbles_mk, secondNibble_joinMask, clearSecondNibble_joinMask,
        he, hys, bytesNibbles_append, dropFirstIf_bytesNibbles_append _ hs, bytesNibbles_cons, hyb,
        dropLastIf_append _ _ (fun _ => List.cons_ne_nil _ _),
        dropLastIf_cons _ _ (fun _ => List.cons_ne_nil _ _)]
      simp
    · exact hx.join hy bs (by simp)
  | true =>
    -- `x` ends on a half byte: `c` fills it, and `y` starts on the next byte
    rw [he] at hxy
    rw [endsMidByte_mk] at he
    rw [if_pos rfl, startsMidByte_mk] at hxy
    obtain ⟨init, last, hbs⟩ := (List.eq_nil_or_concat bs).resolve_left (hx.ne_nil_of_endsMidByte he)
    rw [List.concat_eq_append] at hbs
    subst hbs
    simp only [Bool.not_true, Bool.false_eq_true, if_false, List.getLast?_concat, List.dropLast_concat]
    rw [List.take_of_length_le (by simp; omega)]
    refine ⟨_, rfl, ?_, ?_, by simp [pathSize]; omega⟩
    · have ht : (clearSecondNibble n != 0) = true → bytesNibbles ys ≠ [] :=
        fun h => bytesNibbles_ne_nil (hy.ne_nil_of_endsMidByte h)
      have hjoin : bytesNibbles (init ++ [setSecondNibble last c] ++ ys) =
          (bytesNibbles init ++ [firstNibble last]) ++ c :: bytesNibbles ys := by
        simp [hc]
      rw [nibbles_mk, nibbles_mk, nibbles_mk, secondNibble_joinMask, clearSecondNibble_joinMask,
        he, hxy, hjoin, bytesNibbles_concat, dropFirstIf_concat_append, dropFirstIf_concat_append,
        dropLastIf_append _ _ (fun _ => List.cons_ne_nil _ _), dropLastIf_cons _ _ ht]
      simp
    · exact hx.join hy (init ++ [setSecondNibble last c]) (by simp)

/-! ## Both together, with `path_steps` -/

theorem extendPath_joinConnectedPaths_nibbles {x y : CompressedPathRaw} {c : UInt8}
    (hx : x.Canonical) (hc : c < 16) (hy : y.Canonical) (hxy : Follows x c y)
    (hlen : x.pathSize + y.pathSize < 2 ^ 15) :
    (∃ r, extendPath x c = .ok r ∧ r.nibbles = x.nibbles ++ [c] ∧ r.Canonical ∧
        ∃ s, x.pathSteps = .ok s ∧ r.pathSteps = .ok (s + 1)) ∧
      (∃ r, joinConnectedPaths x c y = .ok r ∧ r.nibbles = x.nibbles ++ [c] ++ y.nibbles ∧
        r.Canonical ∧
        ∃ s t, x.pathSteps = .ok s ∧ y.pathSteps = .ok t ∧ r.pathSteps = .ok (s + 1 + t)) := by
  obtain ⟨r, hr, hnib, hcan, hrs⟩ := extendPath_spec hx hc (by omega)
  obtain ⟨r', hr', hnib', hcan', hrs'⟩ := joinConnectedPaths_spec hx hy hc hxy (by omega)
  -- after a full last byte `y` has a byte, so the extended path is no longer than the join
  have hrlen : r.pathSize < 2 ^ 15 := by
    unfold Follows at hxy
    cases he : x.endsMidByte with
    | true =>
      rw [hrs, he, Bool.not_true, boolToNat_false]
      omega
    | false =>
      rw [he, if_neg Bool.false_ne_true] at hxy
      have hy1 : 0 < y.pathSize := List.length_pos_iff.mpr fun h => by simp [h] at hxy
      rw [hrs, he, Bool.not_false, boolToNat_true]
      omega
  -- the steps are the nibble counts
  refine ⟨⟨r, hr, hnib, hcan, _, hx.pathSteps_eq (by omega), ?_⟩,
    ⟨r', hr', hnib', hcan', _, _, hx.pathSteps_eq (by omega), hy.pathSteps_eq (by omega), ?_⟩⟩
  · rw [hcan.pathSteps_eq hrlen, hnib, List.length_append, List.length_singleton]
  · rw [hcan'.pathSteps_eq (by omega), hnib', List.length_append, List.length_append,
      List.length_singleton]

/-- The path `12`, the child `3` and the path `4` (the second half of `34`). -/
theorem extendPath_joinConnectedPaths_nibbles_twelve :
    (⟨[0x12], 0⟩ : CompressedPathRaw).Canonical ∧ (⟨[0x34], 0x0f⟩ : CompressedPathRaw).Canonical ∧
      Follows ⟨[0x12], 0⟩ 3 ⟨[0x34], 0x0f⟩ ∧
      pathSize ⟨[0x12], 0⟩ + pathSize ⟨[0x34], 0x0f⟩ < 2 ^ 15 ∧
      (∃ r, extendPath ⟨[0x12], 0⟩ 3 = .ok r ∧ r.nibbles = nibbles ⟨[0x12], 0⟩ ++ [3] ∧
        r.Canonical ∧ ∃ s, pathSteps ⟨[0x12], 0⟩ = .ok s ∧ r.pathSteps = .ok (s + 1)) ∧
      (∃ r, joinConnectedPaths ⟨[0x12], 0⟩ 3 ⟨[0x34], 0x0f⟩ = .ok r ∧
        r.nibbles = nibbles ⟨[0x12], 0⟩ ++ [3] ++ nibbles ⟨[0x34], 0x0f⟩ ∧ r.Canonical ∧
        ∃ s t, pathSteps ⟨[0x12], 0⟩ = .ok s ∧ pathSteps ⟨[0x34], 0x0f⟩ = .ok t ∧
          r.pathSteps = .ok (s + 1 + t)) := by
  have hx : (⟨[0x12], 0⟩ : CompressedPathRaw).Canonical :=
    ⟨by decide, by decide, by decide, by decide⟩
  have hy : (⟨[0x34], 0x0f⟩ : CompressedPathRaw).Canonical :=
    ⟨by decide, by decide, by decide, by decide⟩
  have hxy : Follows ⟨[0x12], 0⟩ 3 ⟨[0x34], 0x0f⟩ := by
    unfold Follows
    decide
  exact ⟨hx, hy, hxy, by decide,
    extendPath_joinConnectedPaths_nibbles hx (by decide) hy hxy (by decide)⟩

/-- Without the length bound: a canonical path of `2^15 - 1` full bytes has `2^16 - 2` steps,
    but extending it gives `2^15` bytes, and `path_steps` of that overflows `u16`. -/
theorem extendPath_pathSteps_overflows :
    (⟨List.replicate (2 ^ 15 - 1) 0, 0⟩ : CompressedPathRaw).Canonical ∧
      pathSteps ⟨List.replicate (2 ^ 15 - 1) 0, 0⟩ = .ok (2 ^ 16 - 2) ∧
      extendPath ⟨List.replicate (2 ^ 15 - 1) 0, 0⟩ 0 =
        .ok ⟨List.replicate (2 ^ 15 - 1) 0 ++ [0], 0xf0⟩ ∧
      pathSteps ⟨List.replicate (2 ^ 15 - 1) 0 ++ [0], 0xf0⟩ = .error multiplyOverflow := by
  have hend : (⟨List.replicate (2 ^ 15 - 1) 0, 0⟩ : CompressedPathRaw).endsMidByte = false := by
    rw [endsMidByte_mk]; decide
  refine ⟨⟨by decide, by decide, fun h => absurd h (by rw [hend]; decide),
    fun h => absurd rfl h⟩, ?_, ?_, ?_⟩
  · simp only [pathSteps, pathSize, List.length_replicate]
    decide
  · -- the path ends on a full byte, and grows by one
    have hfull : hasSecondNibble 0 = true := by decide
    simp only [extendPath, pathSize, List.length_replicate, hfull, if_true]
    rw [if_neg (by norm_num)]
    rfl
  · simp only [pathSteps, pathSize, List.length_append, List.length_replicate,
      List.length_singleton]
    rw [if_pos (by norm_num)]

end CompressedPathRaw

end Mazze.Storage
