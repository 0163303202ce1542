import Mathlib

/-!
# An RLP codec, as a parameter

A byte format built on recursive length prefix encoding uses a handful of the codec's
operations. The stream appends a byte string, a list of already encoded items, a number, or
raw bytes. The view tells a list from a string and recognises the empty item. It reads a
string's payload, a list's `i`-th item, its items and their count, and the fixed-width numbers
and hashes. `Codec` names these operations; `valAt`, `asList` and `listAt` are built from them
as the view builds them.

A proof about such a format does not need the codec's byte layout, only the laws
`Codec.Lawful` lists:

* a string reads back as itself (`decodeValue_encodeValue`);
* `is_list` is read off the first byte (`isList_eq`), and a string is not a list
  (`isList_encodeValue`);
* `append_raw` writes its bytes as they are (`appendRaw_eq`);
* a string of two bytes or more gains a header (`length_lt_length_encodeValue`), and a list's
  encoding has a byte (`encodeList_ne_nil`).

The round trip and the string's first byte are stated for strings shorter than `2^32` bytes:
a stream writes a long length as a 32-bit number.
-/

set_option autoImplicit false

namespace Rlp

/-- The errors of decoding, as the codec names them. -/
inductive DecoderError where
  | rlpIsTooBig
  | rlpIsTooShort
  | rlpExpectedToBeList
  | rlpExpectedToBeData
  | rlpIncorrectListLen
  | rlpDataLenWithZeroPrefix
  | rlpListLenWithZeroPrefix
  | rlpInvalidIndirection
  | rlpInconsistentLengthAndData
  | rlpInvalidLength
  | custom (message : String)
  deriving DecidableEq, Repr

/-- The operations of an RLP codec that a format built on it uses. -/
structure Codec where
  /-- `append` of a byte string. -/
  encodeValue : List UInt8 → List UInt8
  /-- `begin_list(n)` and the appends of `n` items, given their encodings. -/
  encodeList : List (List UInt8) → List UInt8
  /-- `append` of an unsigned number. -/
  encodeUint : Nat → List UInt8
  /-- What `append_raw(bytes, _)` writes. -/
  appendRaw : List UInt8 → List UInt8
  /-- `Rlp::is_list`. -/
  isList : List UInt8 → Bool
  /-- `Rlp::is_empty`. -/
  isEmpty : List UInt8 → Bool
  /-- The payload of a string. -/
  decodeValue : List UInt8 → Except DecoderError (List UInt8)
  /-- `Rlp::at`: the `i`-th item of a list. -/
  atIndex : List UInt8 → Nat → Except DecoderError (List UInt8)
  /-- `Rlp::iter`: the items of a list. -/
  iter : List UInt8 → List (List UInt8)
  /-- `Rlp::item_count`. -/
  itemCount : List UInt8 → Except DecoderError Nat
  decodeU8 : List UInt8 → Except DecoderError UInt8
  decodeU32 : List UInt8 → Except DecoderError UInt32
  decodeU64 : List UInt8 → Except DecoderError UInt64
  decodeU256 : List UInt8 → Except DecoderError (BitVec 256)
  /-- A fixed-size hash of `size` bytes. -/
  decodeFixed : (size : Nat) → List UInt8 → Except DecoderError (Vector UInt8 size)

namespace Codec

variable (R : Codec)

/-- `Rlp::val_at`: decode the `index`-th item. -/
def valAt {α : Type} (bytes : List UInt8) (index : Nat)
    (decode : List UInt8 → Except DecoderError α) : Except DecoderError α :=
  R.atIndex bytes index >>= decode

/-- `Rlp::as_list`: decode every item the iterator yields. -/
def asList {α : Type} (bytes : List UInt8) (decode : List UInt8 → Except DecoderError α) :
    Except DecoderError (List α) :=
  (R.iter bytes).mapM decode

/-- `Rlp::list_at`. -/
def listAt {α : Type} (bytes : List UInt8) (index : Nat)
    (decode : List UInt8 → Except DecoderError α) : Except DecoderError (List α) :=
  R.atIndex bytes index >>= fun item => R.asList item decode

/-- The laws of an RLP codec that proofs about a format built on it use. -/
structure Lawful : Prop where
  /-- A string shorter than `2^32` bytes reads back as itself. -/
  decodeValue_encodeValue :
    ∀ value : List UInt8, value.length < 2 ^ 32 → R.decodeValue (R.encodeValue value) = .ok value
  /-- `is_list` reads the first byte: a list's starts at `0xc0`. -/
  isList_eq : ∀ bytes : List UInt8, R.isList bytes = bytes.head?.any fun b => 0xc0 ≤ b.toNat
  /-- A string shorter than `2^32` bytes is not a list. -/
  isList_encodeValue :
    ∀ value : List UInt8, value.length < 2 ^ 32 → R.isList (R.encodeValue value) = false
  /-- `append_raw` writes its bytes as they are. -/
  appendRaw_eq : ∀ bytes : List UInt8, R.appendRaw bytes = bytes
  /-- A string of two bytes or more is written behind a header. -/
  length_lt_length_encodeValue :
    ∀ value : List UInt8, 2 ≤ value.length → value.length < (R.encodeValue value).length
  /-- A list's encoding has a byte, its header. -/
  encodeList_ne_nil : ∀ items : List (List UInt8), R.encodeList items ≠ []

variable {R}

/-- Bytes that start below `0xc0` are not a list. -/
theorem Lawful.isList_cons (hR : R.Lawful) {b : UInt8} (hb : b.toNat < 0xc0) (rest : List UInt8) :
    R.isList (b :: rest) = false := by
  rw [hR.isList_eq, List.head?_cons, Option.any_some, decide_eq_false_iff_not]
  omega

end Codec

end Rlp
