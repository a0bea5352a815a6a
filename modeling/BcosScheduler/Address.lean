/-
BcosScheduler/Address.lean

Contract addresses: the two `newEVMAddress` overloads and
`preprocessAddress` of `BlockExecutive.cpp`, and the checksum casing of
`ChecksumAddress.h`.  The hash function (`m_hashImpl`) is a parameter.
-/
import BcosScheduler.Common

namespace BcosScheduler

/-- The 32 bytes of a hash, most significant first. -/
def H256.bytes (h : H256) : Bytes :=
  (List.range 32).map fun i => UInt8.ofNat (h.toNat >>> (8 * (31 - i)))

/-- `hash.hex()`, lower case. -/
def H256.hex (h : H256) : List Char := h.bytes.flatMap hexByte

/-- `convertHexCharToInt` of `toChecksumAddress`. -/
def convertHexCharToInt (byte : Char) : Nat :=
  if '0' ≤ byte ∧ byte ≤ '9' then byte.toNat - '0'.toNat
  else if 'a' ≤ byte ∧ byte ≤ 'f' then byte.toNat - 'a'.toNat + 10
  else if 'A' ≤ byte ∧ byte ≤ 'F' then byte.toNat - 'A'.toNat + 10
  else 0

/-- `toChecksumAddress` with a given hash text: a letter is put in upper case
where the hash nibble at its position is at least 8. -/
def checksumCase (addr addressHashHex : List Char) : List Char :=
  addr.mapIdx fun i c =>
    if c.isDigit then c
    else if convertHexCharToInt (addressHashHex.getD i '0') ≥ 8 then c.toUpper
    else c

section Hash

variable (hashImpl : Bytes → H256)

/-- `toChecksumAddress(_hexAddress, _hashImpl)`. -/
def toChecksumAddress (hexAddress : List Char) : List Char :=
  let lower := hexAddress.map Char.toLower
  checksumCase lower (H256.hex (hashImpl (String.ofList lower).toUTF8.data.toList))

/-- The address made of the first 20 bytes of a hash. -/
def addressOfHash (hash : H256) : String :=
  String.ofList (toChecksumAddress hashImpl (((H256.bytes hash).take 20).flatMap hexByte))

/-- `newEVMAddress(blockNumber, contextID, seq)`. -/
def newEVMAddress (blockNumber : BlockNumber) (contextID : ContextID) (seq : Seq) : String :=
  addressOfHash hashImpl (hashImpl
    (toString blockNumber ++ "_" ++ toString contextID ++ "_" ++ toString seq).toUTF8.data.toList)

/-- `newEVMAddress(_sender, _init, _salt)`. -/
def newEVMAddressBySalt (sender : String) (init : Bytes) (salt : BitVec 256) : String :=
  addressOfHash hashImpl (hashImpl
    ([0xff] ++ sender.toUTF8.data.toList ++ H256.bytes salt ++ H256.bytes (hashImpl init)))

end Hash

/-- `preprocessAddress`: strip the prefix `0x` and put in lower case. -/
def preprocessAddress (address : String) : String :=
  match address.toList with
  | '0' :: 'x' :: rest => String.ofList (rest.map Char.toLower)
  | chars => String.ofList (chars.map Char.toLower)

end BcosScheduler
