import Mazze.Primitives.Transaction
import Mazze.Lib.Except
import Mazze.Lib.Rlp

/-!
# What the transaction codec reads back

`TransactionWithSignature` writes a typed transaction as an RLP string around its serialize
part, and its decoder unwraps the string before it reads the serialize part
(`decode_rlpBytes_of_not_legacy`). The serialize part of a typed native transaction starts with
the five-byte prefix `b"mazze"`, but its decoder compares the first three bytes with that prefix:
a slice of three bytes never equals an array of five, so every typed native transaction is
refused with `RlpInvalidLength` (`decodeTypedNative_eq_error`). Neither `decode` of
`rlp::encode(t)` nor `from_raw` of the serialize part reads back a `Cip2930` or `Cip1559`
transaction.

A typed Ethereum transaction that does decode is hashed over the unwrapped bytes, while
`compute_hash` hashes the wrapped ones.

The results hold for every RLP codec that keeps the laws of `Rlp.Codec.Lawful`; the format of
the `rlp` crate is one (`Rlp.basic_lawful`), and the example at the end uses it.
-/

set_option autoImplicit false

namespace Mazze.Primitives

open Rlp

variable {R : Codec} (hR : R.Lawful)

namespace TransactionWithSignatureSerializePart

/-- Three bytes are never the five-byte prefix. -/
theorem take_three_ne_typedNativeTxPrefix (raw : List UInt8) :
    raw.take 3 ≠ typedNativeTxPrefix := by
  intro h
  have hlen := congrArg List.length h
  simp only [List.length_take, typedNativeTxPrefix, List.length_cons, List.length_nil] at hlen
  omega

omit hR in
/-- The typed native branch refuses every input. -/
theorem decodeTypedNative_eq_error (raw : List UInt8) :
    decodeTypedNative R raw = .error .rlpInvalidLength := by
  unfold decodeTypedNative
  rw [if_pos (Or.inr (take_three_ne_typedNativeTxPrefix raw))]

include hR in
/-- A serialize part that starts with the native prefix does not decode. -/
theorem decode_typedNativeTxPrefix_append (rest : List UInt8) :
    decode R (typedNativeTxPrefix ++ rest) = .error .rlpInvalidLength := by
  -- the first byte, `b'm'`, is not a list's, and picks the typed native branch
  have hlist : R.isList (typedNativeTxPrefix ++ rest) = false := hR.isList_cons (by decide) _
  unfold decode
  rw [if_neg (by simp [typedNativeTxPrefix]), hlist]
  simp [decodeTyped, typedNativeTxPrefix, typedNativeTxPrefixByte, decodeTypedNative_eq_error]

include hR in
/-- A typed native transaction is written behind the native prefix: `append_raw` writes it as
    it is. -/
theorem encode_of_typed_native {p : TransactionWithSignatureSerializePart}
    {tx : TypedNativeTransaction} (hNative : p.unsigned = .native tx)
    (hTyped : ∀ body, tx ≠ .cip155 body) :
    ∃ rest, p.encode R = typedNativeTxPrefix ++ rest := by
  cases tx with
  | cip155 body => exact absurd rfl (hTyped body)
  | cip2930 body =>
    exact ⟨cip2930Type :: encodeSigned R (body.encode R) p, by simp [encode, hNative, hR.appendRaw_eq]⟩
  | cip1559 body =>
    exact ⟨cip1559Type :: encodeSigned R (body.encode R) p, by simp [encode, hNative, hR.appendRaw_eq]⟩

include hR in
/-- A typed transaction is a type byte, or the native prefix and a type byte, before a list:
    at least two bytes. -/
theorem two_le_length_encode {p : TransactionWithSignatureSerializePart}
    (hLegacy : TransactionWithSignature.isLegacy p = false) : 2 ≤ (p.encode R).length := by
  have hlist : ∀ items : List (List UInt8), 1 ≤ (R.encodeList items).length := fun items =>
    List.length_pos_iff.mpr (hR.encodeList_ne_nil items)
  obtain ⟨unsigned, v, r, s⟩ := p
  cases unsigned with
  | native tx =>
    cases tx with
    | cip155 body => simp [TransactionWithSignature.isLegacy] at hLegacy
    | cip2930 body => simp [encode, hR.appendRaw_eq, typedNativeTxPrefix]
    | cip1559 body => simp [encode, hR.appendRaw_eq, typedNativeTxPrefix]
  | ethereum tx =>
    cases tx with
    | eip155 body => simp [TransactionWithSignature.isLegacy] at hLegacy
    | eip1559 body =>
      simp only [encode, hR.appendRaw_eq, List.length_append, List.length_singleton]
      have := hlist
      grind
    | eip2930 body =>
      simp only [encode, hR.appendRaw_eq, List.length_append, List.length_singleton]
      have := hlist
      grind

end TransactionWithSignatureSerializePart

namespace TransactionWithSignature

variable (keccak : List UInt8 → H256)

theorem isLegacy_of_typed_native {p : TransactionWithSignatureSerializePart}
    {tx : TypedNativeTransaction} (hNative : p.unsigned = .native tx)
    (hTyped : ∀ body, tx ≠ .cip155 body) : isLegacy p = false := by
  cases tx with
  | cip155 body => exact absurd rfl (hTyped body)
  | cip2930 body => simp [isLegacy, hNative]
  | cip1559 body => simp [isLegacy, hNative]

include hR in
/-- A typed transaction is read back by unwrapping the string `rlp::encode` wrapped it in: what
    is decoded and hashed is the serialize part's own bytes. -/
theorem decode_rlpBytes_of_not_legacy {t : TransactionWithSignature}
    (hLegacy : isLegacy t.transaction = false) (hSize : (t.transaction.encode R).length < 2 ^ 32) :
    decode R keccak (rlpBytes R t) =
      (TransactionWithSignatureSerializePart.decode R (t.transaction.encode R)).map
        fun p => ⟨p, keccak (t.transaction.encode R), some (rlpBytes R t).length⟩ := by
  have hwrap : rlpBytes R t = R.encodeValue (t.transaction.encode R) := by
    simp [rlpBytes, hLegacy]
  rw [hwrap]
  unfold decode
  rw [hR.isList_encodeValue _ hSize]
  simp only [Bool.false_eq_true, if_false, hR.decodeValue_encodeValue _ hSize, Except.ok_bind]
  cases TransactionWithSignatureSerializePart.decode R (t.transaction.encode R) <;> rfl

include hR in
/-- `compute_hash` hashes the wrapped bytes, and a typed transaction read back from them is
    hashed over the unwrapped ones: the two hashes are keccak of two different byte strings. -/
theorem decode_rlpBytes_hash_of_not_legacy {t t' : TransactionWithSignature}
    (hLegacy : isLegacy t.transaction = false) (hSize : (t.transaction.encode R).length < 2 ^ 32)
    (h : decode R keccak (rlpBytes R t) = .ok t') :
    t'.hash = keccak (t.transaction.encode R) ∧
      (computeHash R keccak t).hash = keccak (rlpBytes R t) ∧
      rlpBytes R t ≠ t.transaction.encode R := by
  rw [decode_rlpBytes_of_not_legacy hR keccak hLegacy hSize] at h
  obtain ⟨p, -, rfl⟩ := Except.map_eq_ok h
  refine ⟨rfl, rfl, ?_⟩
  -- the wrapper adds a header to the two bytes or more of a typed serialize part
  have hwrap : rlpBytes R t = R.encodeValue (t.transaction.encode R) := by
    simp [rlpBytes, hLegacy]
  have hlonger := hR.length_lt_length_encodeValue _
    (TransactionWithSignatureSerializePart.two_le_length_encode hR hLegacy)
  rw [hwrap]
  intro heq
  rw [heq] at hlonger
  exact Nat.lt_irrefl _ hlonger

/-- No typed native transaction is read back, by any lawful RLP codec: `decode` refuses
    `rlp::encode(t)`, and `from_raw` refuses the serialize part's bytes, both with
    `RlpInvalidLength`. -/
theorem decode_rlpBytes_typed_native (R : Codec) (hR : R.Lawful) (t : TransactionWithSignature)
    (tx : TypedNativeTransaction) (hNative : t.transaction.unsigned = .native tx)
    (hTyped : ∀ body, tx ≠ .cip155 body) (hSize : (t.transaction.encode R).length < 2 ^ 32) :
    decode R keccak (rlpBytes R t) = .error .rlpInvalidLength ∧
      fromRaw R keccak (t.transaction.encode R) = .error .rlpInvalidLength := by
  obtain ⟨rest, hrest⟩ :=
    TransactionWithSignatureSerializePart.encode_of_typed_native hR hNative hTyped
  have hdecode : TransactionWithSignatureSerializePart.decode R (t.transaction.encode R) =
      .error .rlpInvalidLength := by
    rw [hrest]
    exact TransactionWithSignatureSerializePart.decode_typedNativeTxPrefix_append hR rest
  constructor
  · rw [decode_rlpBytes_of_not_legacy hR keccak (isLegacy_of_typed_native hNative hTyped) hSize,
      hdecode]
    rfl
  · rw [fromRaw, hdecode]
    rfl

end TransactionWithSignature

/-- A `Cip2930` transaction that creates a contract, signed with `v = 0`, `r = s = 1`. -/
def cip2930Example : TransactionWithSignature :=
  ⟨⟨.native (.cip2930 ⟨1, 1, 21000, .create, 0, 0, 0, 1, [], []⟩), 0, 1, 1⟩,
    Vector.replicate 32 0, none⟩

/-- In the format of the `rlp` crate, `rlp::encode` writes it in 24 bytes and its serialize part
    in 23; both are refused, here with the hash that maps everything to zero. -/
theorem decode_rlpBytes_cip2930Example :
    Rlp.basic.Lawful ∧ (cip2930Example.transaction.encode Rlp.basic).length < 2 ^ 32 ∧
      TransactionWithSignature.decode Rlp.basic (fun _ => Vector.replicate 32 0)
          (TransactionWithSignature.rlpBytes Rlp.basic cip2930Example) =
        .error .rlpInvalidLength ∧
      TransactionWithSignature.fromRaw Rlp.basic (fun _ => Vector.replicate 32 0)
          (cip2930Example.transaction.encode Rlp.basic) = .error .rlpInvalidLength :=
  have hSize : (cip2930Example.transaction.encode Rlp.basic).length < 2 ^ 32 := by decide +kernel
  ⟨Rlp.basic_lawful, hSize, TransactionWithSignature.decode_rlpBytes_typed_native
    (fun _ => Vector.replicate 32 0) Rlp.basic Rlp.basic_lawful cip2930Example _ rfl
    (fun _ h => by cases h) hSize⟩

end Mazze.Primitives
