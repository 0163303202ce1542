import Mathlib

/-!
# `compressed_path.rs` — nibble paths and their masks

A compressed path is a byte slice with a one-byte mask
(`crates/dbs/storage/src/impls/merkle_patricia_trie/compressed_path.rs`). The mask's low
nibble (`second_nibble(mask)`, the *begin* bits) is non-zero when the first nibble of the
first byte is not part of the path; its high nibble (`clear_second_nibble(mask)`, the *end*
bits) is non-zero when the second nibble of the last byte is not part of the path.

`CompressedPathRaw` and `CompressedPathRef<'a>` hold the same two fields and differ only in
who owns the bytes, so one structure models both. `path_size()` is the slice's length as a
`u16`; the arithmetic the code does on it is in `u16` too, and is modelled so:
`calculate_path_steps` doubles it, `extend_path` adds one to it, and `join_connected_paths`
casts the joined length with `as u16`, which keeps its low sixteen bits. A slice passed in
with more than `u16::MAX` bytes, whose `len() as u16` already wraps, is outside the model.

Rust panics are modelled as `Except String`, with the message the panic prints. Release
builds of this repository keep `overflow-checks = true` (`Cargo.toml`, `[profile.release]`),
so an integer subtraction below zero, and a `u16` sum or product past `u16::MAX`, panics
rather than wrapping.
-/

set_option autoImplicit false

namespace Mazze.Storage

/-- A byte string, `&[u8]` / `Vec<u8>` / `Box<[u8]>`. -/
abbrev Bytes := List UInt8

/-- The message of Rust's overflow panic on `a - b` with `b > a`. -/
def subtractOverflow : String := "attempt to subtract with overflow"

/-- The message of Rust's overflow panic on a sum past the type's range. -/
def addOverflow : String := "attempt to add with overflow"

/-- The message of Rust's overflow panic on a product past the type's range. -/
def multiplyOverflow : String := "attempt to multiply with overflow"

/-- `CompressedPathRaw` (and `CompressedPathRef`): a byte slice and its mask. -/
structure CompressedPathRaw where
  pathSlice : Bytes
  pathMask : UInt8
  deriving DecidableEq, Repr, Inhabited

namespace CompressedPathRaw

/-! ## 1. Nibble arithmetic on one byte (`impl CompressedPathRaw`, L190-L233) -/

def bits03Mask : UInt8 := 0x0f
def bits47Mask : UInt8 := 0xf0
def noMissingNibble : UInt8 := 0

def firstNibbleMask : UInt8 := bits03Mask
def secondNibbleMask : UInt8 := bits47Mask

/-- `first_nibble(x) = x >> 4`: the high half of a byte. -/
def firstNibble (x : UInt8) : UInt8 := x >>> 4
/-- `second_nibble(x) = x & 0x0f`: the low half of a byte. -/
def secondNibble (x : UInt8) : UInt8 := x &&& bits03Mask
def clearSecondNibble (x : UInt8) : UInt8 := x &&& bits47Mask
def fromFirstNibble (x : UInt8) : UInt8 := x <<< 4
def setSecondNibble (x secondNibble' : UInt8) : UInt8 :=
  clearSecondNibble x ||| secondNibble'

def hasSecondNibble (pathMask : UInt8) : Bool := clearSecondNibble pathMask == noMissingNibble
def noSecondNibble (pathMask : UInt8) : Bool := clearSecondNibble pathMask != noMissingNibble

/-- `x as bool as usize`. -/
def boolToNat (b : Bool) : Nat := if b then 1 else 0

/-! ## 2. Constructors -/

/-- `CompressedPathRaw::new`: the fields as given, nothing checked. -/
def new (pathSlice : Bytes) (pathMask : UInt8) : CompressedPathRaw := ⟨pathSlice, pathMask⟩

/-- `CompressedPathRaw::new_and_apply_mask`: clears the last byte's second nibble when the
    end bits of the mask say it is not part of the path. -/
def newAndApplyMask (pathSlice : Bytes) (pathMask : UInt8) : CompressedPathRaw :=
  match pathSlice.getLast? with
  | none => ⟨pathSlice, pathMask⟩
  | some last => ⟨pathSlice.dropLast ++ [last &&& ~~~(firstNibble pathMask)], pathMask⟩

/-- `path_size()` as a `usize`. -/
def pathSize (p : CompressedPathRaw) : Nat := p.pathSlice.length

/-- `calculate_path_steps` in `u16`: `path_size * 2` less one for each excluded half
    byte. The product overflows from `2^15` bytes on, and a mask that excludes more nibbles
    than the slice holds underflows; both panic. -/
def pathSteps (p : CompressedPathRaw) : Except String Nat :=
  if 2 ^ 16 ≤ p.pathSize * 2 then .error multiplyOverflow
  else
    let a := p.pathSize * 2
    let b := boolToNat (clearSecondNibble p.pathMask != 0)
    let c := boolToNat (secondNibble p.pathMask != 0)
    if a < b then .error subtractOverflow
    else if a - b < c then .error subtractOverflow
    else .ok (a - b - c)

/-- `CompressedPathRaw::extend_path(x, child_index)`: the path `x` followed by the nibble
    `child_index`. When `x` ends on a full byte the path grows by a byte, and
    `path_size() + 1` overflows `u16` past `u16::MAX` bytes. When `x` ends on a half byte, the
    nibble fills its second half; the source then writes through `last_byte_mut()`, whose
    `path_size - 1` underflows on an empty slice. -/
def extendPath (x : CompressedPathRaw) (childIndex : UInt8) : Except String CompressedPathRaw :=
  if hasSecondNibble x.pathMask then
    if 2 ^ 16 ≤ x.pathSize + 1 then .error addOverflow
    else .ok ⟨x.pathSlice ++ [fromFirstNibble childIndex], x.pathMask ||| secondNibbleMask⟩
  else
    match x.pathSlice.getLast? with
    | none => .error subtractOverflow
    | some last =>
      .ok ⟨x.pathSlice.dropLast ++ [setSecondNibble last childIndex], secondNibble x.pathMask⟩

/-- `CompressedPathRaw::join_connected_paths(x, child_index, y)`. When `x` ends on a full
    byte, `y` supplies the nibble `child_index` in its own first byte; otherwise the nibble
    is written into the second half of `x`'s last byte (`x_slice_len - 1`, which underflows
    on an empty `x`). The mask takes its begin bits from `x` and its end bits from `y`. The
    joined length is a `usize`, stored `as u16`: `path_slice()` then reads only its low
    sixteen bits' worth of bytes. -/
def joinConnectedPaths (x : CompressedPathRaw) (childIndex : UInt8) (y : CompressedPathRaw) :
    Except String CompressedPathRaw :=
  let size := x.pathSlice.length + y.pathSlice.length
  let pathMask := setSecondNibble y.pathMask (secondNibble x.pathMask)
  if hasSecondNibble x.pathMask then
    .ok ⟨(x.pathSlice ++ y.pathSlice).take (size % 2 ^ 16), pathMask⟩
  else
    match x.pathSlice.getLast? with
    | none => .error subtractOverflow
    | some last =>
      .ok ⟨(x.pathSlice.dropLast ++ [setSecondNibble last childIndex] ++ y.pathSlice).take
        (size % 2 ^ 16), pathMask⟩

/-! ## 3. The nibbles a path covers

Not a function of the source: the meaning its comments give a path. `N(p)` lists the
nibbles of the slice, less the first when the begin bits are set and less the last when
the end bits are set. -/

/-- The two nibbles of each byte, high first. -/
def bytesNibbles (bs : Bytes) : List UInt8 :=
  bs.flatMap fun b => [firstNibble b, secondNibble b]

/-- `N(p)`, the nibble sequence the path covers. -/
def nibbles (p : CompressedPathRaw) : List UInt8 :=
  let all := bytesNibbles p.pathSlice
  let all := if secondNibble p.pathMask != 0 then all.drop 1 else all
  if clearSecondNibble p.pathMask != 0 then all.dropLast else all

@[simp] theorem bytesNibbles_nil : bytesNibbles [] = [] := rfl

@[simp] theorem bytesNibbles_cons (b : UInt8) (bs : Bytes) :
    bytesNibbles (b :: bs) = firstNibble b :: secondNibble b :: bytesNibbles bs := rfl

theorem length_bytesNibbles (bs : Bytes) : (bytesNibbles bs).length = 2 * bs.length := by
  induction bs with
  | nil => rfl
  | cons b bs ih => simp [ih]; omega

end CompressedPathRaw

end Mazze.Storage
