/-
BcosScheduler/Spelling.lean

Two spellings of one contract address.

The address of a created contract is hex text in checksum case: `newEVMAddress`
puts a letter in upper case where the hash of the text has a digit of at least 8.
The target of a transaction goes through `preprocessAddress`, which puts every
letter in lower case.  Everything later compares the strings, so the contract has
one spelling exactly if the checksum raises no letter
(`oneSpelling_addressOfHash_iff`); otherwise the target of every transaction that
calls it differs from the target of the message that created it.
-/
import BcosScheduler.AddressPreimage

namespace BcosScheduler

/-! ### Hex text -/

/-- Hex digit `i` of a hash, the most significant first. -/
def H256.nibble (h : H256) (i : Nat) : Nat := (h.toNat >>> (4 * (63 - i))) % 16

/-- A hex digit in lower case. -/
def hexDigit (n : Nat) : Char := "0123456789abcdef".toList.getD n '0'

theorem hexByte_eq (b : UInt8) : hexByte b = [hexDigit (b.toNat / 16), hexDigit (b.toNat % 16)] :=
  rfl

theorem convertHexCharToInt_hexDigit : ∀ n < 16, convertHexCharToInt (hexDigit n) = n := by
  decide +kernel

theorem isDigit_hexDigit : ∀ n < 16, (hexDigit n).isDigit = decide (n < 10) := by
  decide +kernel

theorem toLower_hexDigit : ∀ n < 16, (hexDigit n).toLower = hexDigit n := by
  decide +kernel

theorem toLower_toUpper_hexDigit : ∀ n < 16, (hexDigit n).toUpper.toLower = hexDigit n := by
  decide +kernel

theorem toUpper_hexDigit_ne : ∀ n < 16, 10 ≤ n → (hexDigit n).toUpper ≠ hexDigit n := by
  decide +kernel

theorem hexDigit_ne_x : ∀ n < 16, hexDigit n ≠ 'x' := by
  decide +kernel

/-- A byte string in hex, digit by digit. -/
theorem getElem?_flatMap_hexByte (bytes : Bytes) :
    ∀ i, (bytes.flatMap hexByte)[i]? = bytes[i / 2]?.map fun b =>
      hexDigit (if i % 2 = 0 then b.toNat / 16 else b.toNat % 16) := by
  induction bytes with
  | nil => intro i; simp
  | cons b rest ih =>
      intro i
      rw [List.flatMap_cons, hexByte_eq]
      match i with
      | 0 => rfl
      | 1 => rfl
      | i + 2 =>
          have hdiv : (i + 2) / 2 = i / 2 + 1 := by omega
          have hmod : (i + 2) % 2 = i % 2 := by omega
          rw [hdiv, hmod, List.getElem?_cons_succ, ← ih i]
          rfl

/-- The two digits of byte `j` of a hash are its hex digits `2j` and `2j + 1`. -/
theorem nibble_of_byte (h : H256) {i : Nat} (hi : i < 64) :
    (if i % 2 = 0 then (UInt8.ofNat (h.toNat >>> (8 * (31 - i / 2)))).toNat / 16
      else (UInt8.ofNat (h.toNat >>> (8 * (31 - i / 2)))).toNat % 16) = h.nibble i := by
  have hbyte : ∀ n, (UInt8.ofNat n).toNat = n % 256 := fun n => by simp
  rw [H256.nibble, hbyte]
  split_ifs with heven
  · have hshift : 4 * (63 - i) = 8 * (31 - i / 2) + 4 := by omega
    rw [hshift, Nat.shiftRight_add, Nat.shiftRight_eq_div_pow _ 4]
    omega
  · have hshift : 4 * (63 - i) = 8 * (31 - i / 2) := by omega
    rw [hshift]
    omega

theorem getElem?_bytes (h : H256) {j : Nat} (hj : j < 32) :
    h.bytes[j]? = some (UInt8.ofNat (h.toNat >>> (8 * (31 - j)))) := by
  rw [H256.bytes, List.getElem?_map, List.getElem?_range hj]
  rfl

theorem getElem?_hex (h : H256) {i : Nat} (hi : i < 64) :
    h.hex[i]? = some (hexDigit (h.nibble i)) := by
  rw [H256.hex, getElem?_flatMap_hexByte, getElem?_bytes h (by omega), Option.map_some]
  rw [apply_ite hexDigit, ← nibble_of_byte h hi, apply_ite hexDigit]

theorem nibble_lt (h : H256) (i : Nat) : h.nibble i < 16 := Nat.mod_lt _ (by decide)

/-- The address of a hash before the checksum casing: its first 20 bytes. -/
def addressDigits (hash : H256) : List Char := ((H256.bytes hash).take 20).flatMap hexByte

theorem length_addressDigits (hash : H256) : (addressDigits hash).length = 40 := by
  have hbytes : ∀ bytes : Bytes, (bytes.flatMap hexByte).length = 2 * bytes.length := by
    intro bytes
    induction bytes with
    | nil => rfl
    | cons b rest ih => simp [List.flatMap_cons, hexByte_eq, ih]; omega
  simp [addressDigits, hbytes, H256.bytes]

theorem getElem?_addressDigits (hash : H256) {i : Nat} (hi : i < 40) :
    (addressDigits hash)[i]? = some (hexDigit (hash.nibble i)) := by
  rw [addressDigits, getElem?_flatMap_hexByte, List.getElem?_take_of_lt (by omega),
    ← getElem?_flatMap_hexByte]
  exact getElem?_hex hash (by omega)

theorem getElem_addressDigits (hash : H256) {i : Nat} (hi : i < (addressDigits hash).length) :
    (addressDigits hash)[i] = hexDigit (hash.nibble i) := by
  apply Option.some.inj
  rw [← List.getElem?_eq_getElem hi]
  exact getElem?_addressDigits hash (by rwa [length_addressDigits] at hi)

theorem mem_addressDigits {hash : H256} {c : Char} (h : c ∈ addressDigits hash) :
    ∃ n < 16, c = hexDigit n := by
  obtain ⟨i, hi, rfl⟩ := List.mem_iff_getElem.mp h
  exact ⟨_, nibble_lt hash i, getElem_addressDigits hash hi⟩

theorem map_toLower_addressDigits (hash : H256) :
    (addressDigits hash).map Char.toLower = addressDigits hash := by
  have hlower : ∀ c ∈ addressDigits hash, c.toLower = id c := by
    intro c hc
    obtain ⟨n, hn, rfl⟩ := mem_addressDigits hc
    exact toLower_hexDigit n hn
  rw [List.map_congr_left hlower, List.map_id]

theorem x_notMem_addressDigits (hash : H256) : 'x' ∉ addressDigits hash := by
  intro hmem
  obtain ⟨n, hn, heq⟩ := mem_addressDigits hmem
  exact hexDigit_ne_x n hn heq.symm

/-! ### Normalising a target -/

theorem preprocessAddress_0x (text : List Char) :
    preprocessAddress (String.ofList ('0' :: 'x' :: text))
      = String.ofList (text.map Char.toLower) := by
  rw [preprocessAddress, String.toList_ofList]
  rfl

theorem preprocessAddress_ofList {text : List Char} (h : 'x' ∉ text.map Char.toLower) :
    preprocessAddress (String.ofList text) = String.ofList (text.map Char.toLower) := by
  rw [preprocessAddress, String.toList_ofList]
  split
  next rest =>
    exfalso
    apply h
    rw [List.map_cons, List.map_cons]
    exact List.mem_cons_of_mem _ (List.mem_cons_self)
  next => rfl

theorem toAddr_transactionMessage (env : ExecuteEnv) (number : BlockNumber) (i : Nat)
    (tx : Transaction) (h : tx.attributes.liquidScaleCodec = false) :
    (transactionMessage env number i tx).toAddr = preprocessAddress tx.toAddr := by
  unfold transactionMessage
  rw [h, if_neg (by decide)]
  split_ifs with hto
  · rw [hto]
    rfl
  · rfl

theorem toAddr_metaDataMessage (env : ExecuteEnv) (i : Nat) (metaData : TransactionMetaData)
    (h : metaData.attributes.liquidScaleCodec = false) :
    (metaDataMessage env i metaData).toAddr = preprocessAddress metaData.toAddr := by
  unfold metaDataMessage
  rw [h, if_neg (by decide)]
  split_ifs with hto
  · rw [hto]
    rfl
  · rfl

/-! ### The checksum casing -/

section Hash

variable (hashImpl : Bytes → H256)

/-- The hash whose digits decide the case of the letters of an address. -/
def addressHash (hash : H256) : H256 :=
  hashImpl (String.ofList (addressDigits hash)).toUTF8.data.toList

/-- The address of `hash` in checksum case. -/
def addressText (hash : H256) : List Char :=
  checksumCase (addressDigits hash) (addressHash hashImpl hash).hex

theorem addressOfHash_eq (hash : H256) :
    addressOfHash hashImpl hash = String.ofList (addressText hashImpl hash) := by
  have hlower := map_toLower_addressDigits hash
  unfold addressDigits at hlower
  simp only [addressOfHash, toChecksumAddress, hlower]
  rfl

/-- Where the checksum raises a letter. -/
def Raises (hash : H256) (i : Nat) : Prop :=
  10 ≤ hash.nibble i ∧ 8 ≤ (addressHash hashImpl hash).nibble i

instance (hash : H256) (i : Nat) : Decidable (Raises hashImpl hash i) :=
  inferInstanceAs (Decidable (_ ∧ _))

theorem length_addressText (hash : H256) : (addressText hashImpl hash).length = 40 := by
  simp [addressText, checksumCase, length_addressDigits]

theorem getElem?_addressText (hash : H256) {i : Nat} (hi : i < 40) :
    (addressText hashImpl hash)[i]? = some (if Raises hashImpl hash i
      then (hexDigit (hash.nibble i)).toUpper else hexDigit (hash.nibble i)) := by
  have hdigit := isDigit_hexDigit _ (nibble_lt hash i)
  have hvalue := convertHexCharToInt_hexDigit _ (nibble_lt (addressHash hashImpl hash) i)
  rw [addressText, checksumCase, List.getElem?_mapIdx, getElem?_addressDigits hash hi,
    Option.map_some, List.getD_eq_getElem?_getD, getElem?_hex _ (by omega), Option.getD_some,
    hdigit, hvalue]
  congr 1
  by_cases hletter : hash.nibble i < 10
  · rw [if_pos (by simpa using hletter), if_neg]
    intro hraises
    exact absurd hraises.1 (by omega)
  · rw [if_neg (by simpa using hletter)]
    apply if_congr _ rfl rfl
    exact ⟨fun h => ⟨by omega, h⟩, fun h => h.2⟩

/-- Lower-casing takes the checksum off. -/
theorem map_toLower_addressText (hash : H256) :
    (addressText hashImpl hash).map Char.toLower = addressDigits hash := by
  apply List.ext_getElem?
  intro i
  rw [List.getElem?_map]
  by_cases hi : i < 40
  · rw [getElem?_addressText hashImpl hash hi, getElem?_addressDigits hash hi, Option.map_some]
    congr 1
    split_ifs
    · exact toLower_toUpper_hexDigit _ (nibble_lt hash i)
    · exact toLower_hexDigit _ (nibble_lt hash i)
  · rw [List.getElem?_eq_none (by rw [length_addressText]; omega),
      List.getElem?_eq_none (by rw [length_addressDigits]; omega)]
    rfl

/-- The digits in lower case and in checksum case agree if no letter is raised. -/
theorem addressDigits_eq_iff (hash : H256) :
    addressDigits hash = addressText hashImpl hash ↔ ∀ i < 40, ¬ Raises hashImpl hash i := by
  constructor
  · intro heq i hi hraises
    have hchar : (addressDigits hash)[i]? = (addressText hashImpl hash)[i]? := by rw [heq]
    rw [getElem?_addressText hashImpl hash hi, getElem?_addressDigits hash hi,
      if_pos hraises, Option.some.injEq] at hchar
    exact toUpper_hexDigit_ne _ (nibble_lt hash i) hraises.1 hchar.symm
  · intro hnone
    apply List.ext_getElem?
    intro i
    by_cases hi : i < 40
    · rw [getElem?_addressText hashImpl hash hi, getElem?_addressDigits hash hi,
        if_neg (hnone i hi)]
    · rw [List.getElem?_eq_none (by rw [length_addressDigits]; omega),
        List.getElem?_eq_none (by rw [length_addressText]; omega)]

theorem preprocessAddress_addressOfHash (hash : H256) :
    preprocessAddress (addressOfHash hashImpl hash) = String.ofList (addressDigits hash) := by
  rw [addressOfHash_eq, preprocessAddress_ofList, map_toLower_addressText]
  rw [map_toLower_addressText]
  exact x_notMem_addressDigits hash

/-! ### One spelling per contract -/

/-- A way to write `address` as the target of a transaction: in any letter case, with
or without the prefix. -/
def SpellingOf (address spelling : String) : Prop :=
  ∃ text : List Char, text.map Char.toLower = address.toList.map Char.toLower ∧
    (spelling = String.ofList text ∨ spelling = String.ofList ('0' :: 'x' :: text))

/-- Every spelling of the address becomes the address itself, as the target of a
transaction of either kind; the key of `calledContract`, the name space of the key
locks and the executor are functions of that string. -/
structure OneSpelling (address : String) : Prop where
  fixed : preprocessAddress address = address
  transaction : ∀ (env : ExecuteEnv) (number : BlockNumber) (i : Nat) (tx : Transaction),
    tx.attributes.liquidScaleCodec = false → SpellingOf address tx.toAddr →
    (transactionMessage env number i tx).toAddr = address
  metaData : ∀ (env : ExecuteEnv) (i : Nat) (metaData : TransactionMetaData),
    metaData.attributes.liquidScaleCodec = false → SpellingOf address metaData.toAddr →
    (metaDataMessage env i metaData).toAddr = address

/-- All spellings of a created address become its digits in lower case. -/
theorem preprocessAddress_spelling {hash : H256} {spelling : String}
    (h : SpellingOf (addressOfHash hashImpl hash) spelling) :
    preprocessAddress spelling = String.ofList (addressDigits hash) := by
  obtain ⟨text, hcase, hspelling⟩ := h
  rw [addressOfHash_eq, String.toList_ofList, map_toLower_addressText] at hcase
  rcases hspelling with rfl | rfl
  · rw [preprocessAddress_ofList, hcase]
    rw [hcase]
    exact x_notMem_addressDigits hash
  · rw [preprocessAddress_0x, hcase]

theorem oneSpelling_addressOfHash_iff (hash : H256) :
    OneSpelling (addressOfHash hashImpl hash) ↔ ∀ i < 40, ¬ Raises hashImpl hash i := by
  rw [← addressDigits_eq_iff]
  have hfixed := preprocessAddress_addressOfHash hashImpl hash
  constructor
  · intro hone
    rw [hone.fixed, addressOfHash_eq] at hfixed
    exact (String.ofList_injective hfixed).symm
  · intro heq
    have haddress : String.ofList (addressDigits hash) = addressOfHash hashImpl hash := by
      rw [addressOfHash_eq, heq]
    rw [haddress] at hfixed
    refine ⟨hfixed, ?_, ?_⟩
    · intro env number i tx hliquid hspelling
      rw [toAddr_transactionMessage env number i tx hliquid,
        preprocessAddress_spelling hashImpl hspelling, haddress]
    · intro env i metaData hliquid hspelling
      rw [toAddr_metaDataMessage env i metaData hliquid,
        preprocessAddress_spelling hashImpl hspelling, haddress]

/-- What `newEVMAddress` hashes for a creation with a salt. -/
def saltPreimage (sender : String) (init : Bytes) (salt : BitVec 256) : Bytes :=
  [0xff] ++ sender.toUTF8.data.toList ++ H256.bytes salt ++ H256.bytes (hashImpl init)

/-- A created contract has one spelling exactly if the checksum raises no letter of
its address. -/
theorem one_spelling_iff :
    (∀ (blockNumber : BlockNumber) (contextID : ContextID) (seq : Seq),
      OneSpelling (newEVMAddress hashImpl blockNumber contextID seq) ↔
        ∀ i < 40, ¬ Raises hashImpl
          (hashImpl (addressPreimage blockNumber contextID seq).toUTF8.data.toList) i) ∧
    (∀ (sender : String) (init : Bytes) (salt : BitVec 256),
      OneSpelling (newEVMAddressBySalt hashImpl sender init salt) ↔
        ∀ i < 40, ¬ Raises hashImpl (hashImpl (saltPreimage hashImpl sender init salt)) i) :=
  ⟨fun _ _ _ => oneSpelling_addressOfHash_iff hashImpl _,
    fun _ _ _ => oneSpelling_addressOfHash_iff hashImpl _⟩

end Hash

/-- A hash function with the value `aaaa…`. -/
def hashOfAs (_ : Bytes) : H256 := BitVec.ofNat 256 (16 ^ 64 / 15 * 10)

/-- Created under `AAAA…`, called under `aaaa…`. -/
theorem two_spellings :
    preprocessAddress (newEVMAddress hashOfAs 1 0 0) ≠ newEVMAddress hashOfAs 1 0 0 ∧
    preprocessAddress (newEVMAddressBySalt hashOfAs "" [] 0)
      ≠ newEVMAddressBySalt hashOfAs "" [] 0 := by
  have hmoves : ∀ input, Raises hashOfAs input 0 →
      preprocessAddress (addressOfHash hashOfAs input) ≠ addressOfHash hashOfAs input := by
    intro input hraises heq
    rw [preprocessAddress_addressOfHash, addressOfHash_eq] at heq
    exact (addressDigits_eq_iff hashOfAs input).mp (String.ofList_injective heq) 0 (by decide)
      hraises
  constructor
  · exact hmoves _ (by decide +kernel)
  · exact hmoves _ (by decide +kernel)

end BcosScheduler
