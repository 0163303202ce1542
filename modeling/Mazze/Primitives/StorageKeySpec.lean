import Mazze.Primitives.StorageKey

/-!
# The state-key encodings are invertible

A key is *well formed* when its address has 20 bytes, a code key's hash 32 and a storage key's
slot key is not empty (`StorageKey.WellFormed`). Both encodings of such a key are then the
address part, the space byte when the key is in the Ethereum space, and the kind's bytes
(`toKeyBytes_eq`, `toDeltaMptKeyBytes_eq`). The decoders read the address part back by its
length, the space from the extension bit, which no kind's first byte has
(`extensionBit_head_keyRest`), and the kind from its prefix (`keyOfRest_keyRest`,
`DeltaMptStorageKey.keyOfRest_deltaKeyRest`): each decodes what its encoder wrote, so neither
sends two well-formed keys to the same bytes.
-/

set_option autoImplicit false

namespace Mazze.Primitives

open Mazze.TxPool (Space)
open StorageKeyWithSpace

namespace StorageKey

/-- The address bytes every kind of key holds. -/
def addressBytes : StorageKey → List UInt8
  | .accountKey a | .storageRootKey a | .storageKey a _ | .codeRootKey a | .codeKey a _
  | .depositListKey a | .voteListKey a => a

/-- The keys the encodings are meant for: a 20-byte address, a 32-byte code hash and a
    non-empty storage slot key. -/
def WellFormed : StorageKey → Prop
  | .storageKey a s => a.length = 20 ∧ s ≠ []
  | .codeKey a h => a.length = 20 ∧ h.length = 32
  | .accountKey a | .storageRootKey a | .codeRootKey a | .depositListKey a | .voteListKey a =>
    a.length = 20

instance (k : StorageKey) : Decidable k.WellFormed := by
  cases k <;> unfold WellFormed <;> infer_instance

theorem WellFormed.length_addressBytes {k : StorageKey} (hk : k.WellFormed) :
    k.addressBytes.length = 20 := by
  cases k <;> simp_all [WellFormed, addressBytes]

/-- What `to_key_bytes` writes after the address: the kind's prefix and payload. -/
def keyRest : StorageKey → List UInt8
  | .accountKey _ => []
  | .storageRootKey _ => storagePrefix
  | .storageKey _ s => storagePrefix ++ s
  | .codeRootKey _ => codeHashPrefix
  | .codeKey _ h => codeHashPrefix ++ h
  | .depositListKey _ => depositListPrefix
  | .voteListKey _ => voteListPrefix

end StorageKey

/-- The space byte an encoding writes after the address part. -/
def spaceBytes : Space → List UInt8
  | .native => []
  | .ethereum => evmSpaceType

/-- A kind other than the account key writes at least its four-byte prefix. -/
theorem StorageKey.length_keyRest {key : StorageKey} (hne : key.keyRest ≠ []) :
    4 ≤ key.keyRest.length := by
  cases key <;> simp_all [StorageKey.keyRest, storagePrefix, codeHashPrefix, depositListPrefix,
    voteListPrefix]

/-- No kind's first byte has the extension bit. -/
theorem StorageKey.extensionBit_head_keyRest {key : StorageKey} {b : UInt8}
    (hb : key.keyRest.head? = some b) : extensionBit b = false := by
  cases key <;> simp [StorageKey.keyRest, storagePrefix, codeHashPrefix, depositListPrefix,
    voteListPrefix] at hb <;> rw [← hb] <;> decide

/-! ## `to_key_bytes` and `from_key_bytes` -/

section KeyBytes

variable {a r : List UInt8}

theorem toKeyBytes_eq (k : StorageKeyWithSpace) (ha : k.key.addressBytes.length = 20) :
    toKeyBytes k = some (k.key.addressBytes ++ spaceBytes k.space ++ k.key.keyRest) := by
  obtain ⟨key, space⟩ := k
  cases key <;> simp only [StorageKey.addressBytes] at ha <;> cases space <;>
    simp [toKeyBytes, StorageKey.addressBytes, StorageKey.keyRest, spaceBytes, accountBytes, ← ha]

theorem keyOfRest_keyRest {key : StorageKey} (hk : key.WellFormed)
    (hne : key.keyRest ≠ []) : keyOfRest key.addressBytes key.keyRest = .ok key := by
  cases key with
  | accountKey a => simp [StorageKey.keyRest] at hne
  | storageKey a s =>
    have hs : 0 < s.length := List.length_pos_iff.mpr hk.2
    simp [keyOfRest, StorageKey.keyRest, StorageKey.addressBytes, storagePrefix,
      storagePrefixLen, hs]
  | codeKey a h =>
    have hh : 0 < h.length := by simp [hk.2]
    simp [keyOfRest, StorageKey.keyRest, StorageKey.addressBytes, storagePrefix,
      codeHashPrefix, codeHashPrefixLen, hh]
  | _ => simp [keyOfRest, StorageKey.keyRest, StorageKey.addressBytes, storagePrefix,
      codeHashPrefix, depositListPrefix, voteListPrefix, storagePrefixLen, codeHashPrefixLen]

/-- A key of more than 21 bytes whose byte 20 has no extension bit is in the native space. -/
theorem fromKeyBytes_native (ha : a.length = 20) {b : UInt8} {t : List UInt8}
    (hb : extensionBit b = false) (ht : t ≠ []) :
    fromKeyBytes (a ++ b :: t) = (keyOfRest a (b :: t)).map (⟨·, .native⟩) := by
  have hlen : (a ++ b :: t).length = 20 + (t.length + 1) := by simp [ha]
  have ht' : 0 < t.length := List.length_pos_iff.mpr ht
  have htake : (a ++ b :: t).take accountBytes = a := by simp [accountBytes, ← ha]
  have hbyte : (a ++ b :: t)[accountBytes]! = b := by simp [accountBytes, ← ha]
  have hdrop : (a ++ b :: t).drop accountBytes = b :: t := by simp [accountBytes, ← ha]
  unfold fromKeyBytes
  rw [if_neg (by rw [hlen, accountBytes]; omega), if_neg (by rw [hlen, accountBytes]; omega)]
  simp only [htake, hbyte, hdrop, hb, Bool.false_and, Bool.false_eq_true, if_false]
  cases keyOfRest a (b :: t) <;> rfl

/-- A key of more than 21 bytes with `0x81` at byte 20 is in the Ethereum space. -/
theorem fromKeyBytes_ethereum (ha : a.length = 20) (hr : r ≠ []) :
    fromKeyBytes (a ++ evmSpaceType ++ r) = (keyOfRest a r).map (⟨·, .ethereum⟩) := by
  have hlen : (a ++ evmSpaceType ++ r).length = 20 + (r.length + 1) := by
    simp [ha, evmSpaceType]
  have hr' : 0 < r.length := List.length_pos_iff.mpr hr
  have htake : (a ++ evmSpaceType ++ r).take accountBytes = a := by simp [accountBytes, ← ha]
  have hbyte : (a ++ evmSpaceType ++ r)[accountBytes]! = 0x81 := by
    simp [accountBytes, ← ha, evmSpaceType]
  have hdrop : (a ++ evmSpaceType ++ r).drop (accountBytes + 1) = r := by
    simp [accountBytes, ← ha, evmSpaceType]
  have h81 : extensionBit 0x81 = true := by decide
  have hne : ((0x81 : UInt8) != evmSpaceType[0]!) = false := by decide
  unfold fromKeyBytes
  rw [if_neg (by rw [hlen, accountBytes]; omega), if_neg (by rw [hlen, accountBytes]; omega)]
  simp only [htake, hbyte, hdrop, h81, hne, Bool.true_and, Bool.false_eq_true, if_false, if_true]
  cases keyOfRest a r <;> rfl

/-- A kind other than the account key is read back from behind the address, in either
    space. -/
theorem fromKeyBytes_keyRest {key : StorageKey} (hk : key.WellFormed) (hne : key.keyRest ≠ [])
    (space : Space) :
    fromKeyBytes (key.addressBytes ++ spaceBytes space ++ key.keyRest) = .ok ⟨key, space⟩ := by
  have ha := hk.length_addressBytes
  have hkr := keyOfRest_keyRest hk hne
  obtain ⟨b, t, hbt⟩ := List.exists_cons_of_ne_nil hne
  have hhead : key.keyRest.head? = some b := by simp [hbt]
  cases space with
  | native =>
    -- the prefix has more than one byte, so the key is longer than 21 bytes
    have ht : t ≠ [] := by
      have h4 := StorageKey.length_keyRest hne
      rw [hbt] at h4
      exact List.ne_nil_of_length_pos (by simp at h4; omega)
    rw [spaceBytes, List.append_nil, hbt, fromKeyBytes_native ha
      (StorageKey.extensionBit_head_keyRest hhead) ht, ← hbt, hkr]
    rfl
  | ethereum =>
    rw [spaceBytes, fromKeyBytes_ethereum ha hne, hkr]
    rfl

/-- `from_key_bytes` reads back what `to_key_bytes` writes. -/
theorem fromKeyBytes_toKeyBytes (k : StorageKeyWithSpace) (hk : k.key.WellFormed) :
    (toKeyBytes k).map fromKeyBytes = some (.ok k) := by
  rw [toKeyBytes_eq k hk.length_addressBytes, Option.map_some]
  obtain ⟨key, space⟩ := k
  congr 1
  cases key with
  | accountKey a =>
    -- an account key is told apart by its length alone
    have ha : a.length = 20 := hk
    simp only [StorageKey.addressBytes, StorageKey.keyRest, List.append_nil]
    cases space with
    | native =>
      rw [spaceBytes, List.append_nil, fromKeyBytes, if_pos (by rw [ha]; rfl)]
    | ethereum =>
      have hlen : (a ++ spaceBytes .ethereum).length = accountBytes + 1 := by
        simp [spaceBytes, evmSpaceType, accountBytes, ha]
      rw [fromKeyBytes, if_neg (by rw [hlen]; omega), if_pos hlen, accountBytes, ← ha,
        List.take_left]
  | _ => exact fromKeyBytes_keyRest hk (by simp [StorageKey.keyRest, storagePrefix,
      codeHashPrefix, depositListPrefix, voteListPrefix]) space

end KeyBytes

/-! ## `to_delta_mpt_key_bytes` and `from_delta_mpt_key` -/

namespace DeltaMptStorageKey

variable (keccak : List UInt8 → H256) (padding : H256)

/-- The keypart `compute_address_keypart` makes of a 20-byte address. -/
def addressKeypart (a : List UInt8) : List UInt8 :=
  (keccak (padding.toList.take accountPaddingBytes ++ a)).toList.take accountPaddingBytes ++ a

/-- What `to_delta_mpt_key_bytes` writes after the keypart: a storage key is preceded by 28
    bytes of its padding, every other kind is written as by `to_key_bytes`. -/
def deltaKeyRest : StorageKey → List UInt8
  | .storageKey _ s =>
    storagePrefix ++ (computeStorageKeyPadding keccak s padding).toList.drop storagePrefixLen ++ s
  | key => key.keyRest

theorem length_addressKeypart {a : List UInt8} (ha : a.length = 20) :
    (addressKeypart keccak padding a).length = accountKeypartBytes := by
  simp [addressKeypart, ha, accountPaddingBytes, accountKeypartBytes]

theorem drop_addressKeypart (a : List UInt8) :
    (addressKeypart keccak padding a).drop accountPaddingBytes = a := by
  simp [addressKeypart, accountPaddingBytes]

theorem computeAddressKeypart_eq {a : List UInt8} (ha : a.length = 20) :
    computeAddressKeypart keccak a padding = some (addressKeypart keccak padding a) := by
  simp [computeAddressKeypart, addressKeypart, ha, accountKeypartBytes, accountPaddingBytes]

theorem toDeltaMptKeyBytes_eq (k : StorageKeyWithSpace) (ha : k.key.addressBytes.length = 20) :
    toDeltaMptKeyBytes keccak k padding =
      some (addressKeypart keccak padding k.key.addressBytes ++ spaceBytes k.space ++
        deltaKeyRest keccak padding k.key) := by
  obtain ⟨key, space⟩ := k
  have hkp := length_addressKeypart keccak padding ha
  -- the space byte goes after the 32 bytes of the keypart
  cases key <;> simp only [StorageKey.addressBytes] at ha hkp <;> cases space <;>
    simp [toDeltaMptKeyBytes, newAccountKey, newStorageRootKey, newStorageKey, newCodeRootKey,
      newCodeKey, newDepositListKey, newVoteListKey, keyWithPrefix, computeAddressKeypart_eq keccak padding ha,
      StorageKey.addressBytes, StorageKey.keyRest, deltaKeyRest, spaceBytes, accountBytes, ha, ← hkp]

theorem head_deltaKeyRest (key : StorageKey) :
    (deltaKeyRest keccak padding key).head? = key.keyRest.head? := by
  cases key <;> simp [deltaKeyRest, StorageKey.keyRest, storagePrefix]

theorem length_keyRest_le (key : StorageKey) :
    key.keyRest.length ≤ (deltaKeyRest keccak padding key).length := by
  cases key <;> simp [deltaKeyRest, StorageKey.keyRest]

theorem keyOfRest_deltaKeyRest {key : StorageKey} (hk : key.WellFormed)
    (hne : key.keyRest ≠ []) :
    DeltaMptStorageKey.keyOfRest key.addressBytes (deltaKeyRest keccak padding key) = some key := by
  cases key with
  | accountKey a => simp [StorageKey.keyRest] at hne
  | storageKey a s =>
    -- the slot key stands 32 bytes in: the prefix and 28 bytes of padding
    have hpad : ((computeStorageKeyPadding keccak s padding).toList.drop storagePrefixLen).length =
        28 := by simp [storagePrefixLen]
    have hpfx : (storagePrefix ++
        (computeStorageKeyPadding keccak s padding).toList.drop storagePrefixLen).length =
          keyPaddingBytes := by simp [hpad, storagePrefix, keyPaddingBytes]
    have hlen : ¬keyPaddingBytes + s.length = storagePrefixLen := by
      rw [keyPaddingBytes, storagePrefixLen]
      omega
    simp only [DeltaMptStorageKey.keyOfRest, deltaKeyRest, StorageKey.addressBytes,
      List.drop_left' hpfx, List.length_append, hpfx, hlen, if_false, Nat.le_add_right, if_true]
    simp [storagePrefix]
  | codeKey a h =>
    have hh : 0 < h.length := by simp [hk.2]
    simp [DeltaMptStorageKey.keyOfRest, deltaKeyRest, StorageKey.keyRest,
      StorageKey.addressBytes, storagePrefix, codeHashPrefix, codeHashPrefixLen, hh]
  | _ => simp [DeltaMptStorageKey.keyOfRest, deltaKeyRest, StorageKey.keyRest,
      StorageKey.addressBytes, storagePrefix, codeHashPrefix, depositListPrefix, voteListPrefix,
      storagePrefixLen, codeHashPrefixLen]

variable {p r : List UInt8}

/-- A key of more than 33 bytes whose byte 32 has no extension bit is in the native space. -/
theorem fromDeltaMptKey_native (hp : p.length = accountKeypartBytes) {b : UInt8}
    {t : List UInt8} (hb : extensionBit b = false) (ht : t ≠ []) :
    fromDeltaMptKey (p ++ b :: t) =
      (DeltaMptStorageKey.keyOfRest (p.drop accountPaddingBytes) (b :: t)).map (⟨·, .native⟩) := by
  have hlen : (p ++ b :: t).length = accountKeypartBytes + (t.length + 1) := by simp [hp]
  have ht' : 0 < t.length := List.length_pos_iff.mpr ht
  have hbyte : (p ++ b :: t)[accountKeypartBytes]! = b := by simp [← hp]
  unfold fromDeltaMptKey
  rw [if_neg (by omega), if_neg (by omega), if_neg (by omega)]
  simp only [hbyte, hb, Bool.false_and, Bool.false_eq_true, if_false, List.take_left' hp,
    List.drop_left' hp]

/-- A key of more than 33 bytes with `0x81` at byte 32 is in the Ethereum space. -/
theorem fromDeltaMptKey_ethereum (hp : p.length = accountKeypartBytes) (hr : r ≠ []) :
    fromDeltaMptKey (p ++ evmSpaceType ++ r) =
      (DeltaMptStorageKey.keyOfRest (p.drop accountPaddingBytes) r).map (⟨·, .ethereum⟩) := by
  have hlen : (p ++ evmSpaceType ++ r).length = accountKeypartBytes + (r.length + 1) := by
    simp [hp, evmSpaceType]
  have hr' : 0 < r.length := List.length_pos_iff.mpr hr
  have htake : (p ++ evmSpaceType ++ r).take accountKeypartBytes = p := by simp [← hp]
  have hbyte : (p ++ evmSpaceType ++ r)[accountKeypartBytes]! = 0x81 := by
    simp [← hp, evmSpaceType]
  have hdrop : (p ++ evmSpaceType ++ r).drop (accountKeypartBytes + 1) = r := by
    simp [← hp, evmSpaceType]
  have h81 : extensionBit 0x81 = true := by decide
  have hne : ((0x81 : UInt8) != evmSpaceType[0]!) = false := by decide
  unfold fromDeltaMptKey
  rw [if_neg (by omega), if_neg (by omega), if_neg (by omega)]
  simp only [htake, hbyte, hdrop, h81, hne, Bool.true_and, Bool.false_eq_true, if_false, if_true]

/-- A kind other than the account key is read back from behind the keypart, in either space. -/
theorem fromDeltaMptKey_deltaKeyRest {key : StorageKey} (hk : key.WellFormed)
    (hne : key.keyRest ≠ []) (space : Space) :
    fromDeltaMptKey (addressKeypart keccak padding key.addressBytes ++ spaceBytes space ++
      deltaKeyRest keccak padding key) = some ⟨key, space⟩ := by
  have hp := length_addressKeypart keccak padding hk.length_addressBytes
  have hkr := keyOfRest_deltaKeyRest keccak padding hk hne
  rw [← drop_addressKeypart keccak padding key.addressBytes] at hkr
  -- the first bytes are the kind's prefix: more than one byte, and no extension bit
  have h4 : 4 ≤ (deltaKeyRest keccak padding key).length :=
    (StorageKey.length_keyRest hne).trans (length_keyRest_le keccak padding key)
  have hne' : deltaKeyRest keccak padding key ≠ [] := List.ne_nil_of_length_pos (by omega)
  obtain ⟨b, t, hbt⟩ := List.exists_cons_of_ne_nil hne'
  cases space with
  | native =>
    have ht : t ≠ [] := by
      rw [hbt] at h4
      exact List.ne_nil_of_length_pos (by simp at h4; omega)
    have hhead : key.keyRest.head? = some b := by
      rw [← head_deltaKeyRest keccak padding key, hbt]
      rfl
    have hb : extensionBit b = false := StorageKey.extensionBit_head_keyRest hhead
    rw [spaceBytes, List.append_nil, hbt, fromDeltaMptKey_native hp hb ht, ← hbt, hkr]
    rfl
  | ethereum =>
    rw [spaceBytes, fromDeltaMptKey_ethereum hp hne', hkr]
    rfl

/-- `from_delta_mpt_key` reads back what `to_delta_mpt_key_bytes` writes, whatever the hash and
    the padding. -/
theorem fromDeltaMptKey_toDeltaMptKeyBytes (k : StorageKeyWithSpace) (hk : k.key.WellFormed) :
    (toDeltaMptKeyBytes keccak k padding).bind fromDeltaMptKey = some k := by
  rw [toDeltaMptKeyBytes_eq keccak padding k hk.length_addressBytes, Option.bind_some]
  obtain ⟨key, space⟩ := k
  cases key with
  | accountKey a =>
    -- an account key is told apart by its length alone
    have ha : a.length = 20 := hk
    have hp := length_addressKeypart keccak padding ha
    simp only [StorageKey.addressBytes, deltaKeyRest, StorageKey.keyRest, List.append_nil]
    cases space with
    | native =>
      rw [spaceBytes, List.append_nil, fromDeltaMptKey, if_neg (by omega), if_pos hp,
        List.take_of_length_le (Nat.le_of_eq hp), drop_addressKeypart keccak padding a]
    | ethereum =>
      have hlen : (addressKeypart keccak padding a ++ spaceBytes .ethereum).length =
          accountKeypartBytes + 1 := by
        simp [spaceBytes, evmSpaceType, hp]
      rw [fromDeltaMptKey, if_neg (by omega), if_neg (by omega), if_pos hlen,
        List.take_left' hp, drop_addressKeypart keccak padding a]
  | _ => exact fromDeltaMptKey_deltaKeyRest keccak padding hk (by simp [StorageKey.keyRest, storagePrefix,
      codeHashPrefix, depositListPrefix, voteListPrefix]) space

/-- Two well-formed keys with the same delta-MPT key are the same key. -/
theorem toDeltaMptKeyBytes_inj {k k' : StorageKeyWithSpace} (hk : k.key.WellFormed)
    (hk' : k'.key.WellFormed)
    (h : toDeltaMptKeyBytes keccak k' padding = toDeltaMptKeyBytes keccak k padding) : k' = k := by
  have hdec := fromDeltaMptKey_toDeltaMptKeyBytes keccak padding k' hk'
  rw [h, fromDeltaMptKey_toDeltaMptKeyBytes keccak padding k hk] at hdec
  exact (Option.some.inj hdec).symm

end DeltaMptStorageKey

/-- Two well-formed keys with the same key bytes are the same key. -/
theorem toKeyBytes_inj {k k' : StorageKeyWithSpace} (hk : k.key.WellFormed)
    (hk' : k'.key.WellFormed) (h : toKeyBytes k' = toKeyBytes k) : k' = k := by
  have hdec := fromKeyBytes_toKeyBytes k' hk'
  rw [h, fromKeyBytes_toKeyBytes k hk] at hdec
  exact (Except.ok.inj (Option.some.inj hdec)).symm

theorem storageKeyWithSpace_encodings_invertible (keccak : List UInt8 → H256) (padding : H256)
    (k : StorageKeyWithSpace) (hk : k.key.WellFormed) :
    (toKeyBytes k).map fromKeyBytes = some (.ok k) ∧
    (DeltaMptStorageKey.toDeltaMptKeyBytes keccak k padding).bind
      DeltaMptStorageKey.fromDeltaMptKey = some k ∧
    (∀ k' : StorageKeyWithSpace, k'.key.WellFormed → toKeyBytes k' = toKeyBytes k → k' = k) ∧
    (∀ k' : StorageKeyWithSpace, k'.key.WellFormed →
      DeltaMptStorageKey.toDeltaMptKeyBytes keccak k' padding =
        DeltaMptStorageKey.toDeltaMptKeyBytes keccak k padding → k' = k) :=
  ⟨fromKeyBytes_toKeyBytes k hk,
    DeltaMptStorageKey.fromDeltaMptKey_toDeltaMptKeyBytes keccak padding k hk,
    fun _ hk' h => toKeyBytes_inj hk hk' h,
    fun _ hk' h => DeltaMptStorageKey.toDeltaMptKeyBytes_inj keccak padding hk hk' h⟩

theorem storageKeyWithSpace_encodings_invertible_evm_slot :
    (⟨.storageKey (List.replicate 20 1) [7], .ethereum⟩ : StorageKeyWithSpace).key.WellFormed ∧
    (toKeyBytes ⟨.storageKey (List.replicate 20 1) [7], .ethereum⟩).map fromKeyBytes =
      some (.ok ⟨.storageKey (List.replicate 20 1) [7], .ethereum⟩) ∧
    (DeltaMptStorageKey.toDeltaMptKeyBytes (fun _ => Vector.replicate 32 0)
      ⟨.storageKey (List.replicate 20 1) [7], .ethereum⟩ (Vector.replicate 32 0)).bind
      DeltaMptStorageKey.fromDeltaMptKey = some ⟨.storageKey (List.replicate 20 1) [7], .ethereum⟩ ∧
    (∀ k' : StorageKeyWithSpace, k'.key.WellFormed →
      toKeyBytes k' = toKeyBytes ⟨.storageKey (List.replicate 20 1) [7], .ethereum⟩ →
        k' = ⟨.storageKey (List.replicate 20 1) [7], .ethereum⟩) ∧
    (∀ k' : StorageKeyWithSpace, k'.key.WellFormed →
      DeltaMptStorageKey.toDeltaMptKeyBytes (fun _ => Vector.replicate 32 0) k'
          (Vector.replicate 32 0) =
        DeltaMptStorageKey.toDeltaMptKeyBytes (fun _ => Vector.replicate 32 0)
          ⟨.storageKey (List.replicate 20 1) [7], .ethereum⟩ (Vector.replicate 32 0) →
        k' = ⟨.storageKey (List.replicate 20 1) [7], .ethereum⟩) :=
  ⟨by decide, storageKeyWithSpace_encodings_invertible (fun _ => Vector.replicate 32 0)
    (Vector.replicate 32 0) _ (by decide)⟩

end Mazze.Primitives
