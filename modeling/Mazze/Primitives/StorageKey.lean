import Mazze.Primitives.Transaction
import Mazze.TxPool.Pack

/-!
# State keys and their two byte encodings

`primitives/src/storage_key.rs`. A state entry is named by a `StorageKey` of one of seven kinds,
each holding the 20 bytes of an account's address and, for a storage slot or a code entry, the
slot's key or the code's hash. Its key bytes are the address followed by the kind's prefix and
payload; its delta-MPT key puts a 32-byte keypart in place of the address, the address behind
12 bytes of a hash of it and the epoch's padding, and puts 28 bytes of padding in front of a
storage slot's key. An Ethereum-space key has the byte `0x81` inserted after the address part.
The decoders tell the kinds apart by length, by the extension bit of the byte after the address
part, and by the prefixes, tried in the order `data`, `code`, `deposit`, `vote`.

Keccak is a parameter. `Vec` and slices are lists of bytes. A slice out of range, a
`copy_from_slice` of a wrong length, a failed `assert_eq!` and an `unreachable_unchecked` (the
builds without `test_no_account_length_check`) end the function, and return `none` here.
-/

set_option autoImplicit false

namespace Mazze.Primitives

open Mazze.TxPool (Space)

/-- `StorageKey`. -/
inductive StorageKey where
  | accountKey (addressBytes : List UInt8)
  | storageRootKey (addressBytes : List UInt8)
  | storageKey (addressBytes storageKey : List UInt8)
  | codeRootKey (addressBytes : List UInt8)
  | codeKey (addressBytes codeHashBytes : List UInt8)
  | depositListKey (addressBytes : List UInt8)
  | voteListKey (addressBytes : List UInt8)
  deriving DecidableEq, Repr

/-- `StorageKeyWithSpace`. -/
structure StorageKeyWithSpace where
  key : StorageKey
  space : Space
  deriving DecidableEq, Repr

namespace StorageKeyWithSpace

def accountBytes : Nat := 20
def codeHashPrefixLen : Nat := 4
def storagePrefixLen : Nat := 4

/-- `b"code"`. -/
def codeHashPrefix : List UInt8 := [0x63, 0x6f, 0x64, 0x65]
/-- `b"deposit"`. -/
def depositListPrefix : List UInt8 := [0x64, 0x65, 0x70, 0x6f, 0x73, 0x69, 0x74]
/-- `b"\x81"`. -/
def evmSpaceType : List UInt8 := [0x81]
/-- `b"data"`. -/
def storagePrefix : List UInt8 := [0x64, 0x61, 0x74, 0x61]
/-- `b"vote"`. -/
def voteListPrefix : List UInt8 := [0x76, 0x6f, 0x74, 0x65]

/-- `bytes[i] & 0x80 != 0`: the byte marks a space. -/
def extensionBit (b : UInt8) : Bool := b &&& 0x80 != 0

/-- `StorageKeyWithSpace::to_key_bytes`. -/
def toKeyBytes (k : StorageKeyWithSpace) : Option (List UInt8) :=
  let keyBytes := match k.key with
    | .accountKey addressBytes => addressBytes
    | .storageRootKey addressBytes => addressBytes ++ storagePrefix
    | .storageKey addressBytes storageKey => addressBytes ++ storagePrefix ++ storageKey
    | .codeRootKey addressBytes => addressBytes ++ codeHashPrefix
    | .codeKey addressBytes codeHashBytes => addressBytes ++ codeHashPrefix ++ codeHashBytes
    | .depositListKey addressBytes => addressBytes ++ depositListPrefix
    | .voteListKey addressBytes => addressBytes ++ voteListPrefix
  if k.space = .native then some keyBytes
  -- insert `0x81` at position 20; `key_bytes[..20]` panics on a shorter key
  else if accountBytes ≤ keyBytes.length then
    some (keyBytes.take accountBytes ++ evmSpaceType ++ keyBytes.drop accountBytes)
  else none

/-- The errors of `from_key_bytes::<CheckInput>`, with what their messages print. -/
inductive FromKeyBytesError where
  /-- `"Unexpected extension byte: {:?}"`. -/
  | unexpectedExtensionByte (byte : UInt8)
  /-- `"Unable to parse storage key: {:?} - {:?}"`, the address and the rest of the key. -/
  | unableToParse (addressBytes bytes : List UInt8)
  deriving DecidableEq, Repr

/-- The kind of key `from_key_bytes` reads from the bytes after the address and space. -/
def keyOfRest (addressBytes bytes : List UInt8) : Except FromKeyBytesError StorageKey :=
  if storagePrefix.isPrefixOf bytes then
    let bytes := bytes.drop storagePrefixLen
    if bytes.length > 0 then .ok (.storageKey addressBytes bytes)
    else .ok (.storageRootKey addressBytes)
  else if codeHashPrefix.isPrefixOf bytes then
    let bytes := bytes.drop codeHashPrefixLen
    if bytes.length > 0 then .ok (.codeKey addressBytes bytes)
    else .ok (.codeRootKey addressBytes)
  else if depositListPrefix.isPrefixOf bytes then .ok (.depositListKey addressBytes)
  else if voteListPrefix.isPrefixOf bytes then .ok (.voteListKey addressBytes)
  else .error (.unableToParse addressBytes bytes)

/-- `StorageKeyWithSpace::from_key_bytes::<CheckInput>`. -/
def fromKeyBytes (bytes : List UInt8) : Except FromKeyBytesError StorageKeyWithSpace :=
  if bytes.length ≤ accountBytes then .ok ⟨.accountKey bytes, .native⟩
  else if bytes.length = accountBytes + 1 then
    .ok ⟨.accountKey (bytes.take accountBytes), .ethereum⟩
  else
    let addressBytes := bytes.take accountBytes
    let extensionByte := bytes[accountBytes]!
    let extensionBit := extensionBit extensionByte
    -- a space byte other than `0x81` is refused
    if extensionBit && extensionByte != evmSpaceType[0]! then
      .error (.unexpectedExtensionByte extensionByte)
    else
      let bytes := if extensionBit then bytes.drop (accountBytes + 1) else bytes.drop accountBytes
      match keyOfRest addressBytes bytes with
      | .error e => .error e
      | .ok storageKeyNoSpace =>
        let space := if extensionBit then Space.ethereum else Space.native
        .ok ⟨storageKeyNoSpace, space⟩

end StorageKeyWithSpace

/-! ## The delta-MPT encoding -/

namespace DeltaMptStorageKey

open StorageKeyWithSpace

def accountKeypartBytes : Nat := 32
def accountPaddingBytes : Nat := 12
def keyPaddingBytes : Nat := 32

variable (keccak : List UInt8 → H256)

/-- `compute_address_keypart`: twelve bytes of the hash of the padding and the address, then
    the address. `copy_from_slice` panics unless the address has 20 bytes. -/
def computeAddressKeypart (address : List UInt8) (padding : H256) : Option (List UInt8) :=
  if address.length = accountKeypartBytes - accountPaddingBytes then
    let padded := padding.toList.take accountPaddingBytes ++ address
    some ((keccak padded).toList.take accountPaddingBytes ++ address)
  else none

/-- `compute_storage_key_padding`. -/
def computeStorageKeyPadding (storageKey : List UInt8) (padding : H256) : H256 :=
  keccak (padding.toList ++ storageKey)

/-- `extend_key_with_prefix` on an empty key. -/
def keyWithPrefix (address : List UInt8) (padding : H256) (pfx : List UInt8) :
    Option (List UInt8) :=
  (computeAddressKeypart keccak address padding).map (· ++ pfx)

/-- `new_account_key`. -/
def newAccountKey (address : List UInt8) (padding : H256) : Option (List UInt8) :=
  computeAddressKeypart keccak address padding

/-- `new_storage_root_key`. -/
def newStorageRootKey (address : List UInt8) (padding : H256) : Option (List UInt8) :=
  keyWithPrefix keccak address padding storagePrefix

/-- `new_storage_key`: `extend_storage_key` puts the storage key's padding, less its first four
    bytes, in front of it. -/
def newStorageKey (address storageKey : List UInt8) (padding : H256) : Option (List UInt8) :=
  (keyWithPrefix keccak address padding storagePrefix).map fun key =>
    key ++ (computeStorageKeyPadding keccak storageKey padding).toList.drop storagePrefixLen ++
      storageKey

/-- `new_code_root_key`. -/
def newCodeRootKey (address : List UInt8) (padding : H256) : Option (List UInt8) :=
  keyWithPrefix keccak address padding codeHashPrefix

/-- `new_code_key`. -/
def newCodeKey (address codeHash : List UInt8) (padding : H256) : Option (List UInt8) :=
  (keyWithPrefix keccak address padding codeHashPrefix).map (· ++ codeHash)

/-- `new_deposit_list_key`. -/
def newDepositListKey (address : List UInt8) (padding : H256) : Option (List UInt8) :=
  keyWithPrefix keccak address padding depositListPrefix

/-- `new_vote_list_key`. -/
def newVoteListKey (address : List UInt8) (padding : H256) : Option (List UInt8) :=
  keyWithPrefix keccak address padding voteListPrefix

/-- `StorageKeyWithSpace::to_delta_mpt_key_bytes`. An account key of another length than 20 is
    `unreachable_unchecked`. -/
def toDeltaMptKeyBytes (k : StorageKeyWithSpace) (padding : H256) : Option (List UInt8) := do
  let keyBytes ← match k.key with
    | .accountKey addressBytes =>
      if addressBytes.length = accountBytes then newAccountKey keccak addressBytes padding
      else none
    | .storageRootKey addressBytes => newStorageRootKey keccak addressBytes padding
    | .storageKey addressBytes storageKey => newStorageKey keccak addressBytes storageKey padding
    | .codeRootKey addressBytes => newCodeRootKey keccak addressBytes padding
    | .codeKey addressBytes codeHashBytes => newCodeKey keccak addressBytes codeHashBytes padding
    | .depositListKey addressBytes => newDepositListKey keccak addressBytes padding
    | .voteListKey addressBytes => newVoteListKey keccak addressBytes padding
  if k.space = .native then pure keyBytes
  -- insert `0x81` at position 32; `key_bytes[..32]` panics on a shorter key
  else if accountKeypartBytes ≤ keyBytes.length then
    pure (keyBytes.take accountKeypartBytes ++ evmSpaceType ++ keyBytes.drop accountKeypartBytes)
  else none

/-- The kind of key `from_delta_mpt_key` reads from the bytes after the keypart and space; a
    key of no known kind is `unreachable_unchecked`. -/
def keyOfRest (addressBytes remainingBytes : List UInt8) : Option StorageKey :=
  if storagePrefix.isPrefixOf remainingBytes then
    if remainingBytes.length = storagePrefixLen then some (.storageRootKey addressBytes)
    -- `remaining_bytes[32..]` panics on a shorter key
    else if keyPaddingBytes ≤ remainingBytes.length then
      some (.storageKey addressBytes (remainingBytes.drop keyPaddingBytes))
    else none
  else if codeHashPrefix.isPrefixOf remainingBytes then
    let bytes := remainingBytes.drop codeHashPrefixLen
    if bytes.length > 0 then some (.codeKey addressBytes bytes)
    else some (.codeRootKey addressBytes)
  else if depositListPrefix.isPrefixOf remainingBytes then some (.depositListKey addressBytes)
  else if voteListPrefix.isPrefixOf remainingBytes then some (.voteListKey addressBytes)
  else none

/-- `StorageKeyWithSpace::from_delta_mpt_key`. A key shorter than the keypart is
    `unreachable_unchecked`, and a space byte other than `0x81` fails an `assert_eq!`. -/
def fromDeltaMptKey (deltaMptKey : List UInt8) : Option StorageKeyWithSpace :=
  if deltaMptKey.length < accountKeypartBytes then none
  else
    let addressBytes := (deltaMptKey.take accountKeypartBytes).drop accountPaddingBytes
    if deltaMptKey.length = accountKeypartBytes then some ⟨.accountKey addressBytes, .native⟩
    else if deltaMptKey.length = accountKeypartBytes + 1 then
      some ⟨.accountKey addressBytes, .ethereum⟩
    else
      let extensionBit := extensionBit deltaMptKey[accountKeypartBytes]!
      -- `assert_eq!` of the space byte
      if extensionBit && deltaMptKey[accountKeypartBytes]! != evmSpaceType[0]! then none
      else
        let remainingBytes := if extensionBit then deltaMptKey.drop (accountKeypartBytes + 1)
          else deltaMptKey.drop accountKeypartBytes
        (keyOfRest addressBytes remainingBytes).map fun storageKeyNoSpace =>
          let space := if extensionBit then Space.ethereum else Space.native
          ⟨storageKeyNoSpace, space⟩

end DeltaMptStorageKey

end Mazze.Primitives
