import Mathlib

/-!
# The base32 address codec

`mazze_addr/src/lib.rs`, `consts.rs` and `checksum.rs`. An address is written as a network
prefix (`mazze`, `mazzetest` or `net` and a network id), a colon, and the base32 digits of a
version byte followed by the raw address bytes, then eight digits of a 40-bit BCH checksum over
the prefix's low five bits and the payload (`polymod`). The QR-code form adds the option
`type.<address type>` and is written in upper case. Decoding folds the case, splits at the
colons, reads the network from the prefix, checks the checksum and the padding of the digits,
and checks the version byte against the length.

Strings are lists of characters, and case is the ASCII case (`Char.isLower`, `Char.toLower`);
every character the codec accepts is ASCII. Machine integers keep their Rust types. A slice or
an index out of range, a `usize` subtraction below zero, an `expect` on an error and an `assert!`
panic, and return `none` here; so does the loop of `convert_bits` with `outbits = 0`, which runs
forever.
-/

set_option autoImplicit false

namespace Mazze.Addr

/-- `BASE32_CHARS`. -/
def base32Chars : List Char :=
  ['a', 'b', 'c', 'd', 'e', 'f', 'g', 'h', 'i', 'j', 'k', 'l', 'm', 'n', 'o', 'p', 'q', 'r', 's',
    't', 'u', 'v', 'w', 'x', 'y', 'z', '0', '1', '2', '3', '4', '5', '6', '7', '8', '9']

/-- `EXCLUDE_CHARS`. -/
def excludeChars : List Char := ['o', 'i', 'l', 'q']

/-- `CHARSET`: `BASE32_CHARS` without `EXCLUDE_CHARS`. -/
def charset : List Char := base32Chars.filter (· ∉ excludeChars)

/-- `CHARSET_SIZE`. -/
def charsetSize : Nat := 32

/-- `CHAR_INDEX[c]`: the table has, for each of the 128 ASCII codes, the position in `CHARSET`
    of the character or of the character it is the upper case of. -/
def charIndex (c : Char) : Option UInt8 :=
  if c.toNat < 128 then
    ((List.range charsetSize).find? fun i => charset[i]! = c ∨ charset[i]!.toUpper = c).map
      Nat.toUInt8
  else none

/-! ## Networks and address types (`consts.rs`) -/

def reservedBitsMask : UInt8 := 0xf8
def sizeMask : UInt8 := 0x07

/-- The version sizes and the body lengths they stand for: `SIZE_160` .. `SIZE_512`. -/
def versionSizes : List (UInt8 × Nat) :=
  [(0x00, 20), (0x01, 24), (0x02, 28), (0x03, 32), (0x04, 40), (0x05, 48), (0x06, 56), (0x07, 64)]

/-- `Network`; a network id is a `u64`. -/
inductive Network where
  | main
  | test
  | id (networkId : Nat)
  deriving DecidableEq, Repr

def mainnetPrefix : List Char := ['m', 'a', 'z', 'z', 'e']
def testnetPrefix : List Char := ['m', 'a', 'z', 'z', 'e', 't', 'e', 's', 't']
def networkIdPrefix : List Char := ['n', 'e', 't']
def reservedNetworkIds : List Nat := [1, 1029]

/-- `EncodingError`. -/
inductive EncodingError where
  | invalidAddressType (typeByte : UInt8)
  | invalidLength (length : Nat)
  | invalidNetworkId (networkId : Nat)
  deriving DecidableEq, Repr

/-- `Network::to_prefix`: `format!("net{}", network_id)` writes the id in decimal. -/
def Network.toPrefix : Network → Except EncodingError (List Char)
  | .main => .ok mainnetPrefix
  | .test => .ok testnetPrefix
  | .id networkId =>
    if networkId ∈ reservedNetworkIds then .error (.invalidNetworkId networkId)
    else .ok (networkIdPrefix ++ Nat.toDigits 10 networkId)

/-- One decimal digit more of a number read from the left. -/
def decimalStep (acc : Nat) (c : Char) : Nat := acc * 10 + (c.toNat - '0'.toNat)

/-- `<u64 as FromStr>::from_str`: an optional `+`, then at least one decimal digit, and a value
    below `2^64`. -/
def parseU64 (s : List Char) : Option Nat :=
  let digits : Option (List Char) := match s with
    | ['+'] | ['-'] => none
    | '+' :: rest => some rest
    | _ => some s
  digits.bind fun ds =>
    if ds ≠ [] ∧ ds.all Char.isDigit then
      let n := ds.foldl decimalStep 0
      if n < 2 ^ 64 then some n else none
    else none

/-- `AddressType`. -/
inductive AddressType where
  | builtin
  | contract
  | null
  | user
  | unknown
  deriving DecidableEq, Repr

/-- `OptionError`. -/
inductive OptionError where
  | parseError (optionStr : List Char)
  | addressTypeMismatch (expected : AddressType) (got : Except Unit AddressType)
  | invalidAddressType (typeStr : List Char)
  deriving DecidableEq, Repr

/-- `DecodingError`. -/
inductive DecodingError where
  | invalidLength (length : Nat)
  | noPrefix
  | invalidPrefix (pfx : List Char)
  | invalidOption (optionError : OptionError)
  | checksumFailed (checksum : UInt64)
  | invalidChar (c : Char)
  | invalidPadding (fromBits paddingBits : UInt8) (padding : UInt16)
  | versionNotRecognized (version : UInt8)
  | mixedCase
  deriving DecidableEq, Repr

/-- `Network::from_prefix`. -/
def Network.fromPrefix (pfx : List Char) : Except DecodingError Network :=
  if pfx = mainnetPrefix then .ok .main
  else if pfx = testnetPrefix then .ok .test
  else
    let maybeNetworkId :=
      if !networkIdPrefix.isPrefixOf pfx then none
      else match parseU64 (pfx.drop networkIdPrefix.length) with
        | none => none
        | some networkId => if networkId ∈ reservedNetworkIds then none else some networkId
    match maybeNetworkId with
    | none => .error (.invalidPrefix pfx)
    | some networkId => .ok (.id networkId)

def builtinStr : List Char := ['b', 'u', 'i', 'l', 't', 'i', 'n']
def contractStr : List Char := ['c', 'o', 'n', 't', 'r', 'a', 'c', 't']
def nullStr : List Char := ['n', 'u', 'l', 'l']
def unknownStr : List Char := ['u', 'n', 'k', 'n', 'o', 'w', 'n']
def userStr : List Char := ['u', 's', 'e', 'r']

/-- `AddressType::parse`: every text parses, to `Unknown` when it is no other type. -/
def AddressType.parse (text : List Char) : AddressType :=
  if text = builtinStr then .builtin
  else if text = contractStr then .contract
  else if text = nullStr then .null
  else if text = userStr then .user
  else .unknown

/-- `AddressType::from_address`, by the type bits `address_type_bits` of the first byte; it
    never fails. -/
def AddressType.fromAddress (address : List UInt8) : AddressType :=
  let typeBits := address[0]! &&& 0xf0
  if typeBits = 0x00 then (if address.all (· = 0) then .null else .builtin)
  else if typeBits = 0x80 then .contract
  else if typeBits = 0x10 then .user
  else .unknown

/-- `AddressType::to_str`. -/
def AddressType.toStr : AddressType → List Char
  | .builtin => builtinStr
  | .contract => contractStr
  | .null => nullStr
  | .user => userStr
  | .unknown => unknownStr

/-! ## The checksum and the digits -/

/-- One round of `polymod` on the digit `d`. -/
def polymodStep (c : UInt64) (d : UInt8) : UInt64 :=
  let c0 := (c >>> 35).toUInt8
  let c := ((c &&& 0x07ffffffff) <<< 5) ^^^ d.toUInt64
  let c := if c0 &&& 0x01 != 0 then c ^^^ 0x98f2bc8e61 else c
  let c := if c0 &&& 0x02 != 0 then c ^^^ 0x79b76d99e2 else c
  let c := if c0 &&& 0x04 != 0 then c ^^^ 0xf33e5fb3c4 else c
  let c := if c0 &&& 0x08 != 0 then c ^^^ 0xae2eabe2a8 else c
  if c0 &&& 0x10 != 0 then c ^^^ 0x1e4f43e470 else c

/-- `polymod`. -/
def polymod (v : List UInt8) : UInt64 := v.foldl polymodStep 1 ^^^ 1

/-- `expand_prefix`: the low five bits of each character (`c as u8` keeps its low byte), and a
    zero. -/
def expandPrefix (pfx : List Char) : List UInt8 :=
  pfx.map (fun c => c.toNat.toUInt8 &&& 0x1f) ++ [0]

/-- The `while num >= outbits` loop of `convert_bits`: the high `outbits` of the `num` bits in
    `acc` go out as one group. -/
def extractGroups (outbits : UInt8) (houtbits : 0 < outbits) (acc : UInt16) (num : UInt8)
    (ret : List UInt8) : UInt16 × UInt8 × List UInt8 :=
  if h : outbits ≤ num then
    let groupmask : UInt16 := (1 <<< outbits.toUInt16) - 1
    let ret := ret ++ [(acc >>> (num - outbits).toUInt16).toUInt8]
    let acc := acc &&& ~~~(groupmask <<< (num - outbits).toUInt16)
    extractGroups outbits houtbits acc (num - outbits) ret
  else (acc, num, ret)
termination_by num.toNat
decreasing_by
  have h' : outbits.toNat ≤ num.toNat := UInt8.le_iff_toNat_le.mp h
  have h0 : 0 < outbits.toNat := UInt8.lt_iff_toNat_lt.mp houtbits
  rw [UInt8.toNat_sub_of_le _ _ h]
  omega

/-- `convert_bits`: the `inbits`-bit groups of `data` regrouped into `outbits`-bit groups. With
    `pad`, the last group is filled with zeros; without, the bits left over must be fewer than
    `inbits` and zero. -/
def convertBits (data : List UInt8) (inbits outbits : UInt8) (pad : Bool) :
    Option (Except DecodingError (List UInt8)) :=
  if hout : inbits ≤ 8 ∧ outbits ≤ 8 ∧ 0 < outbits then
    let (acc, num, ret) := data.foldl (fun (acc, num, ret) d =>
      let acc := (acc <<< inbits.toUInt16) ||| d.toUInt16
      let num := num + inbits
      extractGroups outbits hout.2.2 acc num ret) ((0 : UInt16), (0 : UInt8), ([] : List UInt8))
    if pad then
      some (.ok (if num > 0 then ret ++ [(acc <<< (outbits - num).toUInt16).toUInt8] else ret))
    else
      let padding := (data.length * inbits.toNat % outbits.toNat).toUInt8
      if num ≥ inbits || acc != 0 then
        some (.error (.invalidPadding inbits padding acc))
      else some (.ok ret)
  else none

/-! ## Encoding and decoding -/

/-- `EncodingOptions`. -/
inductive EncodingOptions where
  | simple
  | qrCode
  deriving DecidableEq, Repr

/-- `DecodedRawAddress`. -/
structure DecodedRawAddress where
  inputBase32Address : List Char
  parsedAddressBytes : List UInt8
  hexAddress : Option (List UInt8)
  network : Network
  deriving DecidableEq, Repr

def typeOptionStr : List Char := ['t', 'y', 'p', 'e']

/-- What `mazze_addr_encode` writes once it has the version byte and the prefix. -/
def encodeWithPrefix (raw : List UInt8) (versionByte : UInt8) (pfx : List Char)
    (encodingOptions : EncodingOptions) : Option (List Char) := do
  let payload := versionByte :: raw
  -- `.expect("no error is possible for encoding")`
  let payload5Bits ← match convertBits payload 8 5 true with
    | some (.ok bits) => some bits
    | _ => none
  let payloadStr := payload5Bits.map fun b => charset[b.toNat]!
  let expandedPrefix := expandPrefix pfx
  let checksumInput := expandedPrefix ++ payload5Bits ++ List.replicate 8 0
  let checksum := polymod checksumInput
  let checksumStr := (List.range 8).reverse.map fun i =>
    charset[((checksum >>> (i * 5).toUInt64) &&& 31).toNat]!
  match encodingOptions with
  | .simple => pure (pfx ++ [':'] ++ payloadStr ++ checksumStr)
  | .qrCode =>
    let addrTypeStr := (AddressType.fromAddress raw).toStr
    pure ((pfx ++ [':'] ++ typeOptionStr ++ ['.'] ++ addrTypeStr ++ [':'] ++ payloadStr ++
      checksumStr).map Char.toUpper)

/-- `mazze_addr_encode`. -/
def mazzeAddrEncode (raw : List UInt8) (network : Network) (encodingOptions : EncodingOptions) :
    Option (Except EncodingError (List Char)) :=
  let length := raw.length
  match versionSizes.find? (·.2 = length) with
  | none => some (.error (.invalidLength length))
  | some (versionByte, _) =>
    match network.toPrefix with
    | .error e => some (.error e)
    | .ok pfx => (encodeWithPrefix raw versionByte pfx encodingOptions).map .ok

/-- The `for option_str in &parts[1..parts.len() - 1]` loop of `mazze_addr_decode`: each option
    is `key.value`, and a `type` option sets the expected address type. -/
def parseOptions : List (List Char) → Option AddressType →
    Except DecodingError (Option AddressType)
  | [], addressType => .ok addressType
  | optionStr :: rest, addressType =>
    let keyValue := optionStr.splitOn '.'
    if keyValue.length ≠ 2 then .error (.invalidOption (.parseError optionStr))
    else if keyValue[0]! = typeOptionStr then
      parseOptions rest (some (AddressType.parse keyValue[1]!))
    else parseOptions rest addressType

/-- The `.map(..).collect()` of `mazze_addr_decode` into a `Result`: the digit of each character,
    or `InvalidChar` at the first character that is no digit. -/
def payloadDigits : List Char → Except DecodingError (List UInt8)
  | [] => .ok []
  | c :: cs =>
    match charIndex c with
    | none => .error (.invalidChar c)
    | some d => (payloadDigits cs).map (d :: ·)

/-- `mazze_addr_decode`. -/
def mazzeAddrDecode (addrStr : List Char) : Option (Except DecodingError DecodedRawAddress) :=
  let hasLowercase := addrStr.any Char.isLower
  let hasUppercase := addrStr.any Char.isUpper
  if hasLowercase && hasUppercase then some (.error .mixedCase)
  else
    let lowercase := addrStr.map Char.toLower
    -- delimit and extract the prefix
    let parts := lowercase.splitOn ':'
    if parts.length < 2 then some (.error .noPrefix)
    else
      let pfx := parts[0]!
      match Network.fromPrefix pfx with
      | .error e => some (.error e)
      | .ok network =>
      match parseOptions ((parts.drop 1).take (parts.length - 2)) none with
      | .error e => some (.error e)
      | .ok addressType =>
      let payloadStr := parts[parts.length - 1]!
      if payloadStr.length = 0 then some (.error (.invalidLength 0))
      else if payloadStr.any Char.isLower && payloadStr.any Char.isUpper then
        some (.error .mixedCase)
      else
      match payloadDigits payloadStr with
      | .error e => some (.error e)
      | .ok payload5Bits =>
      let checksum := polymod (expandPrefix pfx ++ payload5Bits)
      if checksum != 0 then some (.error (.checksumFailed checksum))
      else
      -- `payload_5_bits[..(len_5_bit - 8)]` panics on fewer than eight digits
      if payload5Bits.length < 8 then none
      else
      match convertBits (payload5Bits.take (payload5Bits.length - 8)) 5 8 false with
      | none => none
      | some (.error e) => some (.error e)
      | some (.ok payload) =>
      match payload with
      | [] => none
      | version :: body =>
      let bodyLen := body.length
      let versionSize := version &&& sizeMask
      if versionSizes.any (fun (size, len) => versionSize = size && bodyLen != len) then
        some (.error (.invalidLength bodyLen))
      else if version &&& reservedBitsMask != 0 then
        some (.error (.versionNotRecognized version))
      else if versionSize = 0x00 then
        let hexAddress := body
        match addressType with
        | some expected =>
          let got : Except Unit AddressType := .ok (AddressType.fromAddress hexAddress)
          if got != .ok expected then
            some (.error (.invalidOption (.addressTypeMismatch expected got)))
          else some (.ok ⟨addrStr, body, some hexAddress, network⟩)
        | none => some (.ok ⟨addrStr, body, some hexAddress, network⟩)
      else some (.ok ⟨addrStr, body, none, network⟩)

end Mazze.Addr
