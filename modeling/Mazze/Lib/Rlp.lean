import Mathlib
import Mazze.Lib.Checked
import Mazze.Lib.RlpCodec

/-!
# Recursive length prefix

The byte format of the `rlp` crate (version 0.4), on byte lists. An item is a byte string or a
list of items. Its first byte says which, and how long its payload is:

* a byte below `0x80` is a one-byte string, and is its own encoding;
* `0x80 + n`, for `n < 56`, starts a string of `n` bytes;
* `0xb7 + k` is followed by the `k`-byte big-endian length of a longer string;
* `0xc0 + n` and `0xf7 + k` do the same for the concatenated encodings of a list's items.

The encoder writes the shortest form, and a length with no leading zero byte. The stream writes a
long length as a 32-bit number (`insert_size` casts it to `u32`), so `header` reduces the length
modulo `2 ^ 32`.

The decoder is a view over the bytes: `Rlp::at` walks a list's payload to its `i`-th item, and
`iter` yields `at 0, at 1, …` until one fails. The offset cache that `at` keeps is a speed-up
with no effect on what it returns, and is left out.

The main lemma here is the round trip of a string, `decodeValue_encodeValue`. With it the
format is a lawful `Codec` (`basic_lawful`).
-/

set_option autoImplicit false

namespace Rlp

/-! ## Big-endian numbers without leading zeros -/

/-- The big-endian bytes of `n`, with no leading zero byte: `to_be_bytes` with the leading
    empty bytes cut off. Zero has no bytes. -/
def toBytesBE (n : Nat) : List UInt8 :=
  if n = 0 then [] else toBytesBE (n / 256) ++ [UInt8.ofNat (n % 256)]
decreasing_by omega

/-- The number that big-endian bytes spell. -/
def ofBytesBE (bytes : List UInt8) : Nat :=
  bytes.foldl (fun acc b => acc * 256 + b.toNat) 0

@[simp] theorem toBytesBE_zero : toBytesBE 0 = [] := by
  rw [toBytesBE]
  simp

theorem toBytesBE_of_ne_zero {n : Nat} (h : n ≠ 0) :
    toBytesBE n = toBytesBE (n / 256) ++ [UInt8.ofNat (n % 256)] := by
  rw [toBytesBE]
  simp [h]

theorem toBytesBE_eq_nil_iff {n : Nat} : toBytesBE n = [] ↔ n = 0 := by
  constructor
  · intro h
    by_contra hn
    simp [toBytesBE_of_ne_zero hn] at h
  · rintro rfl
    exact toBytesBE_zero

@[simp] theorem ofBytesBE_nil : ofBytesBE [] = 0 := rfl

theorem ofBytesBE_append_singleton (bytes : List UInt8) (b : UInt8) :
    ofBytesBE (bytes ++ [b]) = ofBytesBE bytes * 256 + b.toNat := by
  simp [ofBytesBE, List.foldl_append]

/-- The bytes spell the number they were made from. -/
theorem ofBytesBE_toBytesBE (n : Nat) : ofBytesBE (toBytesBE n) = n := by
  induction n using toBytesBE.induct with
  | case1 => simp
  | case2 n hn ih =>
    rw [toBytesBE_of_ne_zero hn, ofBytesBE_append_singleton, ih, UInt8.toNat_ofNat']
    omega

/-- A number below `256 ^ k` has at most `k` bytes. -/
theorem length_toBytesBE_le {n k : Nat} (h : n < 256 ^ k) : (toBytesBE n).length ≤ k := by
  induction k generalizing n with
  | zero =>
    have hn : n = 0 := by simpa using h
    simp [hn]
  | succ k ih =>
    by_cases hn : n = 0
    · simp [hn]
    · have hdiv : n / 256 < 256 ^ k := by
        rw [Nat.pow_succ] at h
        omega
      have := ih hdiv
      rw [toBytesBE_of_ne_zero hn, List.length_append, List.length_singleton]
      omega

/-- The first byte is never zero. -/
theorem head_toBytesBE_ne_zero (n : Nat) : (toBytesBE n).head? ≠ some 0 := by
  induction n using toBytesBE.induct with
  | case1 => simp
  | case2 n hn ih =>
    rw [toBytesBE_of_ne_zero hn]
    by_cases hq : n / 256 = 0
    · -- a single byte: the number itself, which is not zero
      have hlt : n < 256 := by omega
      rw [hq, toBytesBE_zero, List.nil_append, List.head?_singleton, ne_eq, Option.some_inj,
        ← UInt8.toNat_inj, UInt8.toNat_ofNat']
      simp only [UInt8.toNat_zero]
      omega
    · -- the leading byte is the leading byte of the higher part
      obtain ⟨b, bs, hbs⟩ := List.exists_cons_of_ne_nil (toBytesBE_eq_nil_iff.not.mpr hq)
      rw [hbs] at ih ⊢
      simpa using ih

theorem toBytesBE_ne_nil {n : Nat} (h : n ≠ 0) : toBytesBE n ≠ [] :=
  toBytesBE_eq_nil_iff.not.mpr h

/-! ## Encoding -/

/-- The header of an item with a payload of `len` bytes: `offset` is `0x80` for a string and
    `0xc0` for a list (`encode_value` and `insert_list_payload`). -/
def header (offset len : Nat) : List UInt8 :=
  if len < 56 then [UInt8.ofNat (offset + len)]
  else
    let lenBytes := toBytesBE (len % 2 ^ 32)
    UInt8.ofNat (offset + 55 + lenBytes.length) :: lenBytes

theorem length_header_pos (offset len : Nat) : 0 < (header offset len).length := by
  unfold header
  split <;> simp

/-- `BasicEncoder::encode_value`: a byte string. -/
def encodeValue (value : List UInt8) : List UInt8 :=
  match value with
  | [b] => if b.toNat < 0x80 then [b] else header 0x80 1 ++ [b]
  | _ => header 0x80 value.length ++ value

/-- A list of already encoded items: `begin_list`, the appends, and the finished list. -/
def encodeList (items : List (List UInt8)) : List UInt8 :=
  header 0xc0 items.flatten.length ++ items.flatten

/-- An unsigned integer: its big-endian bytes as a string. -/
def encodeUint (n : Nat) : List UInt8 := encodeValue (toBytesBE n)

/-! ## Decoding -/

/-- Where an item's payload starts, and how long it is. -/
structure PayloadInfo where
  headerLen : Nat
  valueLen : Nat
  deriving DecidableEq, Repr

/-- `decode_usize`: at most eight big-endian bytes, the first not zero. -/
def decodeUsize (bytes : List UInt8) : Except DecoderError Nat :=
  if bytes.length ≤ 8 then
    if bytes.head? = some 0 then .error .rlpInvalidIndirection else .ok (ofBytesBE bytes)
  else .error .rlpIsTooBig

/-- `calculate_payload_info`: a header with a `lenOfLen`-byte length. -/
def calculatePayloadInfo (headerBytes : List UInt8) (lenOfLen : Nat) :
    Except DecoderError PayloadInfo :=
  let headerLen := 1 + lenOfLen
  match headerBytes[1]? with
  | none => .error .rlpIsTooShort
  | some b =>
    if b = 0 then .error .rlpDataLenWithZeroPrefix
    else if headerBytes.length < headerLen then .error .rlpIsTooShort
    else
      match decodeUsize ((headerBytes.drop 1).take lenOfLen) with
      | .error e => .error e
      | .ok valueLen =>
        if valueLen ≤ 55 then .error .rlpInvalidIndirection else .ok ⟨headerLen, valueLen⟩

/-- `PayloadInfo::from`: what the first bytes say about the item. -/
def PayloadInfo.fromHeader (headerBytes : List UInt8) : Except DecoderError PayloadInfo :=
  match headerBytes with
  | [] => .error .rlpIsTooShort
  | b :: _ =>
    let l := b.toNat
    if l ≤ 0x7f then .ok ⟨0, 1⟩
    else if l ≤ 0xb7 then .ok ⟨1, l - 0x80⟩
    else if l ≤ 0xbf then calculatePayloadInfo headerBytes (l - 0xb7)
    else if l ≤ 0xf7 then .ok ⟨1, l - 0xc0⟩
    else calculatePayloadInfo headerBytes (l - 0xf7)

/-- `BasicDecoder::payload_info`: the header, if the bytes hold the whole item. -/
def payloadInfo (bytes : List UInt8) : Except DecoderError PayloadInfo :=
  match PayloadInfo.fromHeader bytes with
  | .error e => .error e
  | .ok item =>
    match Checked.add 64 item.headerLen item.valueLen with
    | some total => if total ≤ bytes.length then .ok item else .error .rlpIsTooShort
    | none => .error .rlpIsTooShort

/-- `Rlp::is_list`. -/
def isList (bytes : List UInt8) : Bool :=
  match bytes with
  | [] => false
  | b :: _ => 0xc0 ≤ b.toNat

/-- `Rlp::is_empty`: the empty string or the empty list. -/
def isEmpty (bytes : List UInt8) : Bool :=
  match bytes with
  | [] => false
  | b :: _ => b = 0xc0 || b = 0x80

/-- `BasicDecoder::decode_value`: the payload of a string. -/
def decodeValue (bytes : List UInt8) : Except DecoderError (List UInt8) :=
  match bytes with
  | [] => .error .rlpIsTooShort
  | b :: rest =>
    let l := b.toNat
    if l ≤ 0x7f then .ok [b]
    else if l ≤ 0xb7 then
      let lastIndexOfValue := 1 + l - 0x80
      if bytes.length < lastIndexOfValue then .error .rlpInconsistentLengthAndData
      else
        let d := rest.take (l - 0x80)
        -- a one-byte string below `0x80` has to be its own encoding
        if l = 0x81 ∧ (d.headD 0).toNat < 0x80 then .error .rlpInvalidIndirection else .ok d
    else if l ≤ 0xbf then
      let lenOfLen := l - 0xb7
      let beginOfValue := 1 + lenOfLen
      if bytes.length < beginOfValue then .error .rlpInconsistentLengthAndData
      else
        match decodeUsize (rest.take lenOfLen) with
        | .error e => .error e
        | .ok len =>
          match Checked.add 64 beginOfValue len with
          | none => .error .rlpInvalidLength
          | some lastIndexOfValue =>
            if bytes.length < lastIndexOfValue then .error .rlpInconsistentLengthAndData
            else .ok ((bytes.drop beginOfValue).take len)
    else .error .rlpExpectedToBeData

/-- `Rlp::consume`. -/
def consume (bytes : List UInt8) (len : Nat) : Except DecoderError (List UInt8) :=
  if len ≤ bytes.length then .ok (bytes.drop len) else .error .rlpIsTooShort

/-- `Rlp::consume_list_payload`: the payload of the list at the front. -/
def consumeListPayload (bytes : List UInt8) : Except DecoderError (List UInt8) := do
  let item ← payloadInfo bytes
  if bytes.length < item.headerLen + item.valueLen then throw .rlpIsTooShort
  pure ((bytes.drop item.headerLen).take item.valueLen)

/-- `Rlp::consume_items`: skip `items` items. -/
def consumeItems (bytes : List UInt8) : Nat → Except DecoderError (List UInt8)
  | 0 => .ok bytes
  | items + 1 => do
    let i ← payloadInfo bytes
    let rest ← consume bytes (i.headerLen + i.valueLen)
    consumeItems rest items

/-- `Rlp::at`: the `index`-th item of a list. -/
def atIndex (bytes : List UInt8) (index : Nat) : Except DecoderError (List UInt8) := do
  if !isList bytes then throw .rlpExpectedToBeList
  let payload ← consumeListPayload bytes
  let rest ← consumeItems payload index
  let found ← payloadInfo rest
  pure (rest.take (found.headerLen + found.valueLen))

/-- `RlpIterator` from index `i`: `at i, at (i + 1), …` up to the first that fails. The items
    are not empty, so no more than the bytes' length of them succeed, and that much fuel stops
    the iteration by a failure (`atIndex_ok_lt_length`). -/
def iterFrom (bytes : List UInt8) : Nat → Nat → List (List UInt8)
  | 0, _ => []
  | fuel + 1, i =>
    match atIndex bytes i with
    | .ok item => item :: iterFrom bytes fuel (i + 1)
    | .error _ => []

/-- `Rlp::iter`. -/
def iter (bytes : List UInt8) : List (List UInt8) := iterFrom bytes (bytes.length + 1) 0

/-- `Rlp::item_count`. -/
def itemCount (bytes : List UInt8) : Except DecoderError Nat :=
  if isList bytes then .ok (iter bytes).length else .error .rlpExpectedToBeList

/-! ## Values -/

/-- The unsigned integers `u8` to `u64`, of at most `maxBytes` bytes: none, or no leading zero
    byte. -/
def uintOfBytes (maxBytes : Nat) (d : List UInt8) : Except DecoderError Nat :=
  if d.length = 0 then .ok 0
  else if d.length ≤ maxBytes then
    if d.head? = some 0 then .error .rlpInvalidIndirection else .ok (ofBytesBE d)
  else .error .rlpIsTooBig

/-- `U256`, whose decoder checks for a leading zero before the length. -/
def u256OfBytes (d : List UInt8) : Except DecoderError Nat :=
  if d.head? = some 0 then .error .rlpInvalidIndirection
  else if d.length ≤ 32 then .ok (ofBytesBE d)
  else .error .rlpIsTooBig

/-- A fixed-size hash: exactly `size` bytes. -/
def fixedOfBytes (size : Nat) (d : List UInt8) : Except DecoderError (Vector UInt8 size) :=
  if h : d.length = size then .ok ⟨d.toArray, by simpa using h⟩
  else if d.length < size then .error .rlpIsTooShort
  else .error .rlpIsTooBig

/-- `u8` to `u64` as items. -/
def decodeUint (maxBytes : Nat) (bytes : List UInt8) : Except DecoderError Nat :=
  decodeValue bytes >>= uintOfBytes maxBytes

/-- `u64`. -/
def decodeU64 (bytes : List UInt8) : Except DecoderError UInt64 :=
  UInt64.ofNat <$> decodeUint 8 bytes

/-- `u32`. -/
def decodeU32 (bytes : List UInt8) : Except DecoderError UInt32 :=
  UInt32.ofNat <$> decodeUint 4 bytes

/-- `u8`. -/
def decodeU8 (bytes : List UInt8) : Except DecoderError UInt8 :=
  UInt8.ofNat <$> decodeUint 1 bytes

/-- `U256`. -/
def decodeU256 (bytes : List UInt8) : Except DecoderError (BitVec 256) :=
  BitVec.ofNat 256 <$> (decodeValue bytes >>= u256OfBytes)

/-- `H160`, `H256` and the other fixed-size hashes. -/
def decodeFixed (size : Nat) (bytes : List UInt8) : Except DecoderError (Vector UInt8 size) :=
  decodeValue bytes >>= fixedOfBytes size

/-! ## The round trip of a string -/

theorem encodeValue_of_ne_singleton {value : List UInt8} (h : ∀ b, value ≠ [b]) :
    encodeValue value = header 0x80 value.length ++ value := by
  unfold encodeValue
  split
  · exact absurd rfl (h _)
  · rfl

/-- A header of a long payload: `0xb7 + k`, then the `k` length bytes, `1 ≤ k ≤ 4`. -/
theorem header_of_long {offset len : Nat} (h56 : 56 ≤ len) (h32 : len < 2 ^ 32) :
    header offset len =
      UInt8.ofNat (offset + 55 + (toBytesBE len).length) :: toBytesBE len := by
  rw [header, if_neg (Nat.not_lt.mpr h56), Nat.mod_eq_of_lt h32]

theorem length_toBytesBE_of_long {len : Nat} (h56 : 56 ≤ len) (h32 : len < 2 ^ 32) :
    1 ≤ (toBytesBE len).length ∧ (toBytesBE len).length ≤ 4 := by
  constructor
  · have := toBytesBE_ne_nil (show len ≠ 0 by omega)
    exact List.length_pos_iff.mpr this
  · exact length_toBytesBE_le (by simpa using h32)

theorem decodeUsize_toBytesBE {n : Nat} (h : (toBytesBE n).length ≤ 8) :
    decodeUsize (toBytesBE n) = .ok n := by
  simp [decodeUsize, h, head_toBytesBE_ne_zero, ofBytesBE_toBytesBE]

/-- A string of fewer than 56 bytes, not one byte below `0x80`, decodes from its short form. -/
theorem decodeValue_short {value : List UInt8} (hne : ∀ b, value = [b] → 0x80 ≤ b.toNat)
    (h56 : value.length < 56) :
    decodeValue (UInt8.ofNat (0x80 + value.length) :: value) = .ok value := by
  have hb : (UInt8.ofNat (0x80 + value.length)).toNat = 0x80 + value.length := by
    rw [UInt8.toNat_ofNat']
    omega
  simp only [decodeValue, hb]
  rw [if_neg (by omega), if_pos (by omega), if_neg (by simp; omega),
    List.take_of_length_le (by omega)]
  -- only a one-byte string could be a wrong indirection, and it is at least `0x80`
  rw [if_neg]
  rintro ⟨h81, hlt⟩
  obtain ⟨b, rfl⟩ := List.length_eq_one_iff.mp (show value.length = 1 by omega)
  have := hne b rfl
  simp at hlt
  omega

/-- A string of 56 bytes or more decodes from its long form. -/
theorem decodeValue_long {value : List UInt8} (h56 : 56 ≤ value.length)
    (h32 : value.length < 2 ^ 32) :
    decodeValue (header 0x80 value.length ++ value) = .ok value := by
  rw [header_of_long h56 h32]
  obtain ⟨hk₁, hk₄⟩ := length_toBytesBE_of_long h56 h32
  set k := (toBytesBE value.length).length with hk
  have hb : (UInt8.ofNat (0x80 + 55 + k)).toNat = 0xb7 + k := by
    rw [UInt8.toNat_ofNat']
    omega
  simp only [List.cons_append, decodeValue, hb]
  rw [if_neg (by omega), if_neg (by omega), if_pos (by omega)]
  simp only [List.length_cons, List.length_append]
  rw [if_neg (by omega), Nat.add_sub_cancel_left, List.take_left' hk.symm,
    decodeUsize_toBytesBE (by omega)]
  -- the value starts right after the length bytes and runs to the end
  have hadd : Checked.add 64 (1 + k) value.length = some (1 + k + value.length) := by
    rw [Checked.add_eq_some_iff]
    constructor
    · calc 1 + k + value.length < 1 + 4 + 2 ^ 32 := by omega
        _ < 2 ^ 64 := by decide
    · rfl
  dsimp only
  rw [hadd]
  dsimp only
  rw [if_neg (by omega), Nat.add_comm 1 k, List.drop_succ_cons, List.drop_left' hk.symm,
    List.take_length]

/-- `decode_value` reads back what `encode_value` wrote, for a string shorter than `2 ^ 32`. -/
theorem decodeValue_encodeValue {value : List UInt8} (h32 : value.length < 2 ^ 32) :
    decodeValue (encodeValue value) = .ok value := by
  by_cases hone : ∃ b, value = [b]
  · obtain ⟨b, rfl⟩ := hone
    by_cases hb : b.toNat < 0x80
    · simp [encodeValue, hb, decodeValue]
      omega
    · have := @decodeValue_short [b] (by simp; omega) (by simp)
      simpa [encodeValue, hb, header] using this
  · have hne : ∀ b, value ≠ [b] := fun b h => hone ⟨b, h⟩
    rw [encodeValue_of_ne_singleton hne]
    by_cases h56 : value.length < 56
    · simpa [header, h56] using decodeValue_short (fun b h => absurd h (hne b)) h56
    · exact decodeValue_long (by omega) h32

/-- Encoding a string of two bytes or more adds a header to it. -/
theorem length_lt_length_encodeValue {value : List UInt8} (h : 2 ≤ value.length) :
    value.length < (encodeValue value).length := by
  rw [encodeValue_of_ne_singleton (fun b hb => by simp [hb] at h), List.length_append]
  have := length_header_pos 0x80 value.length
  omega

/-- An encoded string is not a list. -/
theorem isList_encodeValue {value : List UInt8} (h32 : value.length < 2 ^ 32) :
    isList (encodeValue value) = false := by
  by_cases hone : ∃ b, value = [b]
  · obtain ⟨b, rfl⟩ := hone
    by_cases hb : b.toNat < 0x80
    · simp [encodeValue, hb, isList]
      omega
    · simp [encodeValue, hb, header, isList]
  · rw [encodeValue_of_ne_singleton fun b h => hone ⟨b, h⟩]
    by_cases h56 : value.length < 56
    · simp only [header, h56, if_true, List.singleton_append, isList, decide_eq_false_iff_not]
      rw [UInt8.toNat_ofNat']
      omega
    · rw [header_of_long (by omega) h32]
      obtain ⟨-, hk₄⟩ := length_toBytesBE_of_long (by omega) h32
      simp only [List.cons_append, isList, decide_eq_false_iff_not]
      rw [UInt8.toNat_ofNat']
      omega

/-! ## The codec -/

/-- The format as a `Codec`: `append_raw` writes its bytes as they are. -/
def basic : Codec where
  encodeValue := encodeValue
  encodeList := encodeList
  encodeUint := encodeUint
  appendRaw := id
  isList := isList
  isEmpty := isEmpty
  decodeValue := decodeValue
  atIndex := atIndex
  iter := iter
  itemCount := itemCount
  decodeU8 := decodeU8
  decodeU32 := decodeU32
  decodeU64 := decodeU64
  decodeU256 := decodeU256
  decodeFixed := decodeFixed

/-- The format keeps the laws a format built on it uses. -/
theorem basic_lawful : basic.Lawful := by
  refine ⟨fun _ h => ?_, fun bytes => ?_, fun _ h => ?_, fun _ => rfl, fun _ h => ?_,
    fun items => ?_⟩
  · dsimp only [basic]
    exact decodeValue_encodeValue h
  · cases bytes with
    | nil => rfl
    | cons b rest => simp only [basic, isList, List.head?_cons, Option.any_some]
  · dsimp only [basic]
    exact isList_encodeValue h
  · dsimp only [basic]
    exact length_lt_length_encodeValue h
  · have := length_header_pos 0xc0 items.flatten.length
    exact List.ne_nil_of_length_pos (by simp only [basic, encodeList, List.length_append]; omega)

end Rlp
