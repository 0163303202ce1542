import Mazze.Lib.RlpCodec

/-!
# Transactions and their wire format

A transaction is native (`Cip155`, `Cip2930`, `Cip1559`) or Ethereum (`Eip155`, `Eip2930`,
`Eip1559`). Its serialize part is the unsigned transaction with the signature `v, r, s`, and is
written in one of three ways:

* `Cip155` and `Eip155` as an RLP list, the latter with the chain id folded into `v`;
* `Eip2930` and `Eip1559` as the type byte followed by an RLP list;
* `Cip2930` and `Cip1559` as the prefix `b"mazze"`, the type byte, and an RLP list.

`TransactionWithSignature` writes the typed forms wrapped as an RLP string, and unwraps them when
it reads. Its hash is `keccak` of some bytes; which bytes depends on where it is taken.

The `rlp` crate is a parameter here, `R : Rlp.Codec`, and so is keccak. The format is written
with the crate's operations as the source calls them, `append_raw` included.

The unsigned transactions' own `Encodable` impls, which the signature hash uses, are left out.
-/

set_option autoImplicit false

namespace Mazze.Primitives

open Rlp

/-- `H160`. -/
abbrev Address := Vector UInt8 20

/-- `H256`. -/
abbrev H256 := Vector UInt8 32

/-- `U256`. -/
abbrev U256 := BitVec 256

/-- `TYPED_NATIVE_TX_PREFIX`: `b"mazze"`. -/
def typedNativeTxPrefix : List UInt8 := [0x6d, 0x61, 0x7a, 0x7a, 0x65]

/-- `TYPED_NATIVE_TX_PREFIX_BYTE`: the prefix's first byte, `b'm'`. -/
def typedNativeTxPrefixByte : UInt8 := 0x6d

def eip2930Type : UInt8 := 0x01
def eip1559Type : UInt8 := 0x02
def cip2930Type : UInt8 := 0x01
def cip1559Type : UInt8 := 0x02

/-! ## Transactions -/

inductive Action where
  | create
  | call (address : Address)
  deriving DecidableEq, Repr

structure AccessListItem where
  address : Address
  storageKeys : List H256
  deriving DecidableEq, Repr

structure NativeTransaction where
  nonce : U256
  gasPrice : U256
  gas : U256
  action : Action
  value : U256
  storageLimit : UInt64
  epochHeight : UInt64
  chainId : UInt32
  data : List UInt8
  deriving DecidableEq, Repr

structure Cip2930Transaction where
  nonce : U256
  gasPrice : U256
  gas : U256
  action : Action
  value : U256
  storageLimit : UInt64
  epochHeight : UInt64
  chainId : UInt32
  data : List UInt8
  accessList : List AccessListItem
  deriving DecidableEq, Repr

structure Cip1559Transaction where
  nonce : U256
  maxPriorityFeePerGas : U256
  maxFeePerGas : U256
  gas : U256
  action : Action
  value : U256
  storageLimit : UInt64
  epochHeight : UInt64
  chainId : UInt32
  data : List UInt8
  accessList : List AccessListItem
  deriving DecidableEq, Repr

inductive TypedNativeTransaction where
  | cip155 (tx : NativeTransaction)
  | cip2930 (tx : Cip2930Transaction)
  | cip1559 (tx : Cip1559Transaction)
  deriving DecidableEq, Repr

structure Eip155Transaction where
  nonce : U256
  gasPrice : U256
  gas : U256
  action : Action
  value : U256
  chainId : Option UInt32
  data : List UInt8
  deriving DecidableEq, Repr

structure Eip2930Transaction where
  chainId : UInt32
  nonce : U256
  gasPrice : U256
  gas : U256
  action : Action
  value : U256
  data : List UInt8
  accessList : List AccessListItem
  deriving DecidableEq, Repr

structure Eip1559Transaction where
  chainId : UInt32
  nonce : U256
  maxPriorityFeePerGas : U256
  maxFeePerGas : U256
  gas : U256
  action : Action
  value : U256
  data : List UInt8
  accessList : List AccessListItem
  deriving DecidableEq, Repr

inductive EthereumTransaction where
  | eip155 (tx : Eip155Transaction)
  | eip1559 (tx : Eip1559Transaction)
  | eip2930 (tx : Eip2930Transaction)
  deriving DecidableEq, Repr

inductive Transaction where
  | native (tx : TypedNativeTransaction)
  | ethereum (tx : EthereumTransaction)
  deriving DecidableEq, Repr

/-- The unsigned transaction and its signature. -/
structure TransactionWithSignatureSerializePart where
  unsigned : Transaction
  v : UInt8
  r : U256
  s : U256
  deriving DecidableEq, Repr

/-- A signed transaction, with the hash it is known by and the size it was read from. -/
structure TransactionWithSignature where
  transaction : TransactionWithSignatureSerializePart
  hash : H256
  rlpSize : Option Nat
  deriving DecidableEq, Repr

/-! ## Replay protection -/

namespace Eip155Signature

/-- `add_chain_replay_protection`: `v + 35 + 2 * chainId`, or `v + 27` with no chain id. -/
def addChainReplayProtection (v : UInt8) (chainId : Option UInt64) : UInt64 :=
  v.toUInt64 + match chainId with
    | some n => 35 + n * 2
    | none => 27

/-- `extract_standard_v`: `0` for 27, `1` for 28, the parity for a protected `v`, and `4` for
    anything else. -/
def extractStandardV (v : UInt64) : UInt8 :=
  if v = 27 then 0
  else if v = 28 then 1
  else if v ≥ 35 then ((v - 1) % 2).toUInt8
  else 4

/-- `extract_chain_id_from_legacy_v`. -/
def extractChainIdFromLegacyV (v : UInt64) : Option UInt64 :=
  if v ≥ 35 then some ((v - 35) / 2) else none

end Eip155Signature

open Eip155Signature

variable (R : Codec)

/-! ## Encoding -/

namespace Action

/-- `Create` is the empty string, `Call` the address. -/
def encode : Action → List UInt8
  | .create => R.encodeValue []
  | .call address => R.encodeValue address.toList

/-- An empty item is `Create`; anything else has to be an address. -/
def decode (bytes : List UInt8) : Except DecoderError Action :=
  if R.isEmpty bytes then .ok .create else .call <$> R.decodeFixed 20 bytes

end Action

namespace AccessListItem

def encode (item : AccessListItem) : List UInt8 :=
  R.encodeList [R.encodeValue item.address.toList,
    R.encodeList (item.storageKeys.map fun key => R.encodeValue key.toList)]

def decode (bytes : List UInt8) : Except DecoderError AccessListItem := do
  let address ← R.valAt bytes 0 (R.decodeFixed 20)
  let storageKeys ← R.listAt bytes 1 (R.decodeFixed 32)
  pure ⟨address, storageKeys⟩

end AccessListItem

/-- An access list: `append_list`, each item in its own encoding. -/
def encodeAccessList (accessList : List AccessListItem) : List UInt8 :=
  R.encodeList (accessList.map (AccessListItem.encode R))

/-! The native bodies derive their codecs: the fields in order as a list, each read with
`val_at`, or `list_at` for a `Vec`. The derived decoder does not check the item count. -/

namespace NativeTransaction

def encode (tx : NativeTransaction) : List UInt8 :=
  R.encodeList [R.encodeUint tx.nonce.toNat, R.encodeUint tx.gasPrice.toNat,
    R.encodeUint tx.gas.toNat, tx.action.encode R, R.encodeUint tx.value.toNat, R.encodeUint tx.storageLimit.toNat,
    R.encodeUint tx.epochHeight.toNat, R.encodeUint tx.chainId.toNat, R.encodeValue tx.data]

def decode (bytes : List UInt8) : Except DecoderError NativeTransaction := do
  let nonce ← R.valAt bytes 0 R.decodeU256
  let gasPrice ← R.valAt bytes 1 R.decodeU256
  let gas ← R.valAt bytes 2 R.decodeU256
  let action ← R.valAt bytes 3 (Action.decode R)
  let value ← R.valAt bytes 4 R.decodeU256
  let storageLimit ← R.valAt bytes 5 R.decodeU64
  let epochHeight ← R.valAt bytes 6 R.decodeU64
  let chainId ← R.valAt bytes 7 R.decodeU32
  let data ← R.valAt bytes 8 R.decodeValue
  pure ⟨nonce, gasPrice, gas, action, value, storageLimit, epochHeight, chainId, data⟩

end NativeTransaction

namespace Cip2930Transaction

def encode (tx : Cip2930Transaction) : List UInt8 :=
  R.encodeList [R.encodeUint tx.nonce.toNat, R.encodeUint tx.gasPrice.toNat,
    R.encodeUint tx.gas.toNat, tx.action.encode R, R.encodeUint tx.value.toNat, R.encodeUint tx.storageLimit.toNat,
    R.encodeUint tx.epochHeight.toNat, R.encodeUint tx.chainId.toNat, R.encodeValue tx.data,
    encodeAccessList R tx.accessList]

def decode (bytes : List UInt8) : Except DecoderError Cip2930Transaction := do
  let nonce ← R.valAt bytes 0 R.decodeU256
  let gasPrice ← R.valAt bytes 1 R.decodeU256
  let gas ← R.valAt bytes 2 R.decodeU256
  let action ← R.valAt bytes 3 (Action.decode R)
  let value ← R.valAt bytes 4 R.decodeU256
  let storageLimit ← R.valAt bytes 5 R.decodeU64
  let epochHeight ← R.valAt bytes 6 R.decodeU64
  let chainId ← R.valAt bytes 7 R.decodeU32
  let data ← R.valAt bytes 8 R.decodeValue
  let accessList ← R.listAt bytes 9 (AccessListItem.decode R)
  pure ⟨nonce, gasPrice, gas, action, value, storageLimit, epochHeight, chainId, data,
    accessList⟩

end Cip2930Transaction

namespace Cip1559Transaction

def encode (tx : Cip1559Transaction) : List UInt8 :=
  R.encodeList [R.encodeUint tx.nonce.toNat, R.encodeUint tx.maxPriorityFeePerGas.toNat,
    R.encodeUint tx.maxFeePerGas.toNat, R.encodeUint tx.gas.toNat, tx.action.encode R,
    R.encodeUint tx.value.toNat, R.encodeUint tx.storageLimit.toNat,
    R.encodeUint tx.epochHeight.toNat, R.encodeUint tx.chainId.toNat, R.encodeValue tx.data,
    encodeAccessList R tx.accessList]

def decode (bytes : List UInt8) : Except DecoderError Cip1559Transaction := do
  let nonce ← R.valAt bytes 0 R.decodeU256
  let maxPriorityFeePerGas ← R.valAt bytes 1 R.decodeU256
  let maxFeePerGas ← R.valAt bytes 2 R.decodeU256
  let gas ← R.valAt bytes 3 R.decodeU256
  let action ← R.valAt bytes 4 (Action.decode R)
  let value ← R.valAt bytes 5 R.decodeU256
  let storageLimit ← R.valAt bytes 6 R.decodeU64
  let epochHeight ← R.valAt bytes 7 R.decodeU64
  let chainId ← R.valAt bytes 8 R.decodeU32
  let data ← R.valAt bytes 9 R.decodeValue
  let accessList ← R.listAt bytes 10 (AccessListItem.decode R)
  pure ⟨nonce, maxPriorityFeePerGas, maxFeePerGas, gas, action, value, storageLimit,
    epochHeight, chainId, data, accessList⟩

end Cip1559Transaction

namespace TransactionWithSignatureSerializePart

/-- A native body and the signature, as a list of four. -/
def encodeSigned (body : List UInt8) (p : TransactionWithSignatureSerializePart) :
    List UInt8 :=
  R.encodeList [body, R.encodeUint p.v.toNat, R.encodeUint p.r.toNat, R.encodeUint p.s.toNat]

/-- `Encodable for TransactionWithSignatureSerializePart`. -/
def encode (p : TransactionWithSignatureSerializePart) : List UInt8 :=
  match p.unsigned with
  | .native (.cip155 tx) => encodeSigned R (tx.encode R) p
  | .ethereum (.eip155 tx) =>
    let legacyV := addChainReplayProtection p.v (tx.chainId.map UInt32.toUInt64)
    R.encodeList [R.encodeUint tx.nonce.toNat, R.encodeUint tx.gasPrice.toNat,
      R.encodeUint tx.gas.toNat, tx.action.encode R, R.encodeUint tx.value.toNat,
      R.encodeValue tx.data, R.encodeUint legacyV.toNat, R.encodeUint p.r.toNat,
      R.encodeUint p.s.toNat]
  | .ethereum (.eip2930 tx) =>
    R.appendRaw [eip2930Type] ++
      R.encodeList [R.encodeUint tx.chainId.toNat, R.encodeUint tx.nonce.toNat,
        R.encodeUint tx.gasPrice.toNat, R.encodeUint tx.gas.toNat, tx.action.encode R,
        R.encodeUint tx.value.toNat, R.encodeValue tx.data, encodeAccessList R tx.accessList,
        R.encodeUint p.v.toNat, R.encodeUint p.r.toNat, R.encodeUint p.s.toNat]
  | .ethereum (.eip1559 tx) =>
    R.appendRaw [eip1559Type] ++
      R.encodeList [R.encodeUint tx.chainId.toNat, R.encodeUint tx.nonce.toNat,
        R.encodeUint tx.maxPriorityFeePerGas.toNat, R.encodeUint tx.maxFeePerGas.toNat,
        R.encodeUint tx.gas.toNat, tx.action.encode R, R.encodeUint tx.value.toNat,
        R.encodeValue tx.data, encodeAccessList R tx.accessList, R.encodeUint p.v.toNat,
        R.encodeUint p.r.toNat, R.encodeUint p.s.toNat]
  | .native (.cip2930 tx) => R.appendRaw typedNativeTxPrefix ++ R.appendRaw [cip2930Type] ++
      encodeSigned R (tx.encode R) p
  | .native (.cip1559 tx) => R.appendRaw typedNativeTxPrefix ++ R.appendRaw [cip1559Type] ++
      encodeSigned R (tx.encode R) p

/-! ## Decoding -/

/-- The four items of a native body and its signature, read with `val_at`. -/
def decodeSigned {α : Type} (decodeBody : List UInt8 → Except DecoderError α)
    (unsigned : α → Transaction) (rlp : List UInt8) :
    Except DecoderError TransactionWithSignatureSerializePart := do
  let tx ← R.valAt rlp 0 decodeBody
  let v ← R.valAt rlp 1 R.decodeU8
  let r ← R.valAt rlp 2 R.decodeU256
  let s ← R.valAt rlp 3 R.decodeU256
  pure ⟨unsigned tx, v, r, s⟩

def chainIdTooLarge : String := "Does not support chain_id >= 2^32"

/-- A legacy Ethereum transaction: nine items, with the chain id taken out of `v`. -/
def decodeEip155 (rlp : List UInt8) :
    Except DecoderError TransactionWithSignatureSerializePart := do
  let nonce ← R.valAt rlp 0 R.decodeU256
  let gasPrice ← R.valAt rlp 1 R.decodeU256
  let gas ← R.valAt rlp 2 R.decodeU256
  let action ← R.valAt rlp 3 (Action.decode R)
  let value ← R.valAt rlp 4 R.decodeU256
  let data ← R.valAt rlp 5 R.decodeValue
  let legacyV ← R.valAt rlp 6 R.decodeU64
  let r ← R.valAt rlp 7 R.decodeU256
  let s ← R.valAt rlp 8 R.decodeU256
  let v := extractStandardV legacyV
  let chainId ← match extractChainIdFromLegacyV legacyV with
    | some chainId =>
      if chainId.toNat > 0xffffffff then throw (.custom chainIdTooLarge)
      else pure (some chainId.toUInt32)
    | none => pure none
  pure ⟨.ethereum (.eip155 ⟨nonce, gasPrice, gas, action, value, chainId, data⟩), v, r, s⟩

/-- The list forms: four items are a `Cip155` transaction, nine an `Eip155` one. -/
def decodeList (rlp : List UInt8) :
    Except DecoderError TransactionWithSignatureSerializePart := do
  let count ← R.itemCount rlp
  if count = 4 then decodeSigned R (NativeTransaction.decode R) (.native ∘ .cip155) rlp
  else if count = 9 then decodeEip155 R rlp
  else throw .rlpInvalidLength

/-- A typed native transaction. The prefix check compares the first three bytes with the
    five-byte prefix, and the type byte is read at index 3. -/
def decodeTypedNative (raw : List UInt8) :
    Except DecoderError TransactionWithSignatureSerializePart :=
  if raw.length ≤ 4 ∨ raw.take 3 ≠ typedNativeTxPrefix then .error .rlpInvalidLength
  else
    let rlp := raw.drop 4
    let typed {α : Type} (decodeBody : List UInt8 → Except DecoderError α)
        (unsigned : α → Transaction) : Except DecoderError TransactionWithSignatureSerializePart :=
      do
        if (← R.itemCount rlp) ≠ 4 then throw .rlpIncorrectListLen
        decodeSigned R decodeBody unsigned rlp
    if raw[3]? = some cip2930Type then typed (Cip2930Transaction.decode R) (.native ∘ .cip2930)
    else if raw[3]? = some cip1559Type then typed (Cip1559Transaction.decode R) (.native ∘ .cip1559)
    else .error .rlpInvalidLength

/-- An `Eip2930` transaction after its type byte: eleven items. -/
def decodeEip2930 (rlp : List UInt8) :
    Except DecoderError TransactionWithSignatureSerializePart := do
  if (← R.itemCount rlp) ≠ 11 then throw .rlpIncorrectListLen
  let chainId ← R.valAt rlp 0 R.decodeU32
  let nonce ← R.valAt rlp 1 R.decodeU256
  let gasPrice ← R.valAt rlp 2 R.decodeU256
  let gas ← R.valAt rlp 3 R.decodeU256
  let action ← R.valAt rlp 4 (Action.decode R)
  let value ← R.valAt rlp 5 R.decodeU256
  let data ← R.valAt rlp 6 R.decodeValue
  let accessList ← R.listAt rlp 7 (AccessListItem.decode R)
  let v ← R.valAt rlp 8 R.decodeU8
  let r ← R.valAt rlp 9 R.decodeU256
  let s ← R.valAt rlp 10 R.decodeU256
  pure ⟨.ethereum (.eip2930 ⟨chainId, nonce, gasPrice, gas, action, value, data, accessList⟩),
    v, r, s⟩

/-- An `Eip1559` transaction after its type byte: twelve items. -/
def decodeEip1559 (rlp : List UInt8) :
    Except DecoderError TransactionWithSignatureSerializePart := do
  if (← R.itemCount rlp) ≠ 12 then throw .rlpIncorrectListLen
  let chainId ← R.valAt rlp 0 R.decodeU32
  let nonce ← R.valAt rlp 1 R.decodeU256
  let maxPriorityFeePerGas ← R.valAt rlp 2 R.decodeU256
  let maxFeePerGas ← R.valAt rlp 3 R.decodeU256
  let gas ← R.valAt rlp 4 R.decodeU256
  let action ← R.valAt rlp 5 (Action.decode R)
  let value ← R.valAt rlp 6 R.decodeU256
  let data ← R.valAt rlp 7 R.decodeValue
  let accessList ← R.listAt rlp 8 (AccessListItem.decode R)
  let v ← R.valAt rlp 9 R.decodeU8
  let r ← R.valAt rlp 10 R.decodeU256
  let s ← R.valAt rlp 11 R.decodeU256
  pure ⟨.ethereum (.eip1559 ⟨chainId, nonce, maxPriorityFeePerGas, maxFeePerGas, gas, action,
    value, data, accessList⟩), v, r, s⟩

/-- The typed forms, told apart by their first byte. -/
def decodeTyped (raw : List UInt8) :
    Except DecoderError TransactionWithSignatureSerializePart :=
  match raw with
  | [] => .error .rlpInvalidLength
  | b :: rest =>
    if b = typedNativeTxPrefixByte then decodeTypedNative R raw
    else if b = eip2930Type then decodeEip2930 R rest
    else if b = eip1559Type then decodeEip1559 R rest
    else .error .rlpInvalidLength

/-- `Decodable for TransactionWithSignatureSerializePart`. -/
def decode (raw : List UInt8) : Except DecoderError TransactionWithSignatureSerializePart :=
  if raw.length = 0 then .error .rlpInvalidLength
  else if R.isList raw then decodeList R raw
  else decodeTyped R raw

end TransactionWithSignatureSerializePart

/-! ## Signed transactions -/

namespace TransactionWithSignature

variable (keccak : List UInt8 → H256)

/-- Whether the transaction is written as a list, with no type prefix. -/
def isLegacy (p : TransactionWithSignatureSerializePart) : Bool :=
  match p.unsigned with
  | .native (.cip155 _) | .ethereum (.eip155 _) => true
  | _ => false

/-- `Encodable for TransactionWithSignature`, which `rlp::encode` and `rlp_bytes` run: the typed
    forms are wrapped as an RLP string. -/
def rlpBytes (t : TransactionWithSignature) : List UInt8 :=
  if isLegacy t.transaction then t.transaction.encode R
  else R.encodeValue (t.transaction.encode R)

/-- `Decodable for TransactionWithSignature`: a list is hashed as it is, a string is unwrapped
    and its payload hashed and decoded. -/
def decode (bytes : List UInt8) : Except DecoderError TransactionWithSignature :=
  let rlpSize := some bytes.length
  if R.isList bytes then do
    let transaction ← TransactionWithSignatureSerializePart.decode R bytes
    pure ⟨transaction, keccak bytes, rlpSize⟩
  else do
    let b ← R.decodeValue bytes
    let transaction ← TransactionWithSignatureSerializePart.decode R b
    pure ⟨transaction, keccak b, rlpSize⟩

/-- `compute_hash`: the hash of `rlp_bytes`. -/
def computeHash (t : TransactionWithSignature) : TransactionWithSignature :=
  { t with hash := keccak (rlpBytes R t) }

/-- `from_raw`: decode a serialize part, and hash the bytes it came from. -/
def fromRaw (raw : List UInt8) : Except DecoderError TransactionWithSignature := do
  let transaction ← TransactionWithSignatureSerializePart.decode R raw
  pure ⟨transaction, keccak raw, some raw.length⟩

end TransactionWithSignature

end Mazze.Primitives
