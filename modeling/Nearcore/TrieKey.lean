import Nearcore.Primitives
import Nearcore.AccountIdValidation
import Nearcore.LittleEndian
import Nearcore.ListFacts

/-!
# State keys

`TrieKey` (`core/primitives/src/trie_key.rs`) names each record of the state
trie, and `to_vec` writes it as a raw key: a column byte, the bytes of an
account id and, for the kinds that carry more, a separator and the rest.
The module `trie_key_parsers` reads account ids, public keys, data keys and
data ids back out of raw keys, cutting the account id at the first separator.

Keys whose account ids are valid are encoded injectively and parsed back
exactly.  A valid account id is made of `a`-`z`, `0`-`9`, `-`, `_` and `.`,
so none of its bytes is the separator `,` nor the access-key column byte `2`
(`AccountId.bytes_ne_of_valid`), and every part after it has a fixed length
or runs to the end of the key.
-/

namespace Nearcore

/-! ## Public keys and hashes read from bytes -/

/-- `PublicKey::len`: the key type byte and the key. -/
def PublicKey.len : PublicKey → ℕ
  | .ed25519 _ => 32 + 1
  | .secp256k1 _ => 65

/-- `PublicKey::try_from_slice`, Borsh: the key type byte (`0` for ED25519,
`1` for SECP256K1), then exactly the bytes of the key; `none` on an unknown
key type, on too few bytes and on bytes left over. -/
def PublicKey.tryFromSlice : List UInt8 → Option PublicKey
  | [] => none
  | keyType :: data =>
      if keyType = 0 then
        if h : data.length = 32 then some (.ed25519 ⟨data.toArray, by simpa using h⟩) else none
      else if keyType = 1 then
        if h : data.length = 64 then some (.secp256k1 ⟨data.toArray, by simpa using h⟩) else none
      else none

/-- `CryptoHash::try_from(&[u8])`: exactly 32 bytes. -/
def CryptoHash.tryFrom (bytes : List UInt8) : Option CryptoHash :=
  if h : bytes.length = 32 then some ⟨⟨bytes.toArray, by simpa using h⟩⟩ else none

namespace AccountId

/-- `account_id.as_bytes()`: the UTF-8 bytes; `account_id.len()` is their
number, `utf8ByteSize`. -/
def asBytes (accountId : AccountId) : List UInt8 := accountId.toByteArray.data.toList

end AccountId

/-- `std::str::from_utf8`. -/
def fromUtf8 (data : List UInt8) : Option String := String.fromUTF8? ⟨data.toArray⟩

/-! ## Keys -/

/-! The column bytes of `col`. -/

namespace Col

def account : UInt8 := 0
def contractCode : UInt8 := 1
def accessKey : UInt8 := 2
def receivedData : UInt8 := 3
def postponedReceiptId : UInt8 := 4
def pendingDataCount : UInt8 := 5
def postponedReceipt : UInt8 := 6
def delayedReceiptIndices : UInt8 := 7
def delayedReceipt : UInt8 := 8
def contractData : UInt8 := 9

/-- `NON_DELAYED_RECEIPT_COLUMNS`. -/
def nonDelayedReceiptColumns : List (UInt8 × String) :=
  [(account, "Account"), (contractCode, "ContractCode"), (accessKey, "AccessKey"),
    (receivedData, "ReceivedData"), (postponedReceiptId, "PostponedReceiptId"),
    (pendingDataCount, "PendingDataCount"), (postponedReceipt, "PostponedReceipt"),
    (contractData, "ContractData")]

end Col

/-- `ACCOUNT_DATA_SEPARATOR`, `b','`. -/
def accountDataSeparator : UInt8 := 44

inductive TrieKey where
  | account (accountId : AccountId)
  | contractCode (accountId : AccountId)
  | accessKey (accountId : AccountId) (publicKey : PublicKey)
  | receivedData (receiverId : AccountId) (dataId : CryptoHash)
  | postponedReceiptId (receiverId : AccountId) (dataId : CryptoHash)
  | pendingDataCount (receiverId : AccountId) (receiptId : CryptoHash)
  | postponedReceipt (receiverId : AccountId) (receiptId : CryptoHash)
  | delayedReceiptIndices
  | delayedReceipt (index : UInt64)
  | contractData (accountId : AccountId) (key : List UInt8)
  deriving DecidableEq, Repr

namespace TrieKey

/-- `TrieKey::len`; each column byte and the separator count `1`. -/
def len : TrieKey → ℕ
  | .account accountId => 1 + accountId.utf8ByteSize
  | .contractCode accountId => 1 + accountId.utf8ByteSize
  | .accessKey accountId publicKey => 1 * 2 + accountId.utf8ByteSize + publicKey.len
  | .receivedData receiverId _ => 1 + receiverId.utf8ByteSize + 1 + 32
  | .postponedReceiptId receiverId _ => 1 + receiverId.utf8ByteSize + 1 + 32
  | .pendingDataCount receiverId _ => 1 + receiverId.utf8ByteSize + 1 + 32
  | .postponedReceipt receiverId _ => 1 + receiverId.utf8ByteSize + 1 + 32
  | .delayedReceiptIndices => 1
  | .delayedReceipt _ => 1 + 8
  | .contractData accountId key => 1 + accountId.utf8ByteSize + 1 + key.length

/-- `TrieKey::to_vec`, the bytes `append_into` pushes.  A delayed receipt is
written under the column byte of the delayed-receipt indices. -/
def toVec : TrieKey → List UInt8
  | .account accountId => Col.account :: accountId.asBytes
  | .contractCode accountId => Col.contractCode :: accountId.asBytes
  | .accessKey accountId publicKey =>
      Col.accessKey :: accountId.asBytes ++ Col.accessKey :: publicKey.toBorsh
  | .receivedData receiverId dataId =>
      Col.receivedData :: receiverId.asBytes ++ accountDataSeparator :: dataId.toBorsh
  | .postponedReceiptId receiverId dataId =>
      Col.postponedReceiptId :: receiverId.asBytes ++ accountDataSeparator :: dataId.toBorsh
  | .pendingDataCount receiverId receiptId =>
      Col.pendingDataCount :: receiverId.asBytes ++ accountDataSeparator :: receiptId.toBorsh
  | .postponedReceipt receiverId receiptId =>
      Col.postponedReceipt :: receiverId.asBytes ++ accountDataSeparator :: receiptId.toBorsh
  | .delayedReceiptIndices => [Col.delayedReceiptIndices]
  | .delayedReceipt index => Col.delayedReceiptIndices :: LittleEndian.encode 8 index.toNat
  | .contractData accountId key =>
      Col.contractData :: accountId.asBytes ++ accountDataSeparator :: key

/-- `TrieKey::get_account_id`. -/
def getAccountId : TrieKey → Option AccountId
  | .account accountId => some accountId
  | .contractCode accountId => some accountId
  | .accessKey accountId _ => some accountId
  | .receivedData receiverId _ => some receiverId
  | .postponedReceiptId receiverId _ => some receiverId
  | .pendingDataCount receiverId _ => some receiverId
  | .postponedReceipt receiverId _ => some receiverId
  | .delayedReceiptIndices => none
  | .delayedReceipt _ => none
  | .contractData accountId _ => some accountId

/-- A key whose account id, if it has one, is a valid `AccountId`, as every
`AccountId` value is. -/
def Valid (k : TrieKey) : Prop := ∀ accountId ∈ k.getAccountId, AccountId.validate accountId = .ok ()

end TrieKey

/-! ## The parsers of `trie_key_parsers` -/

/-- `std::io::Error` as the parsers return it. -/
inductive IoError where
  /-- An error of kind `InvalidData` with the parser's message. -/
  | invalidData (message : String)
  /-- The error of Borsh decoding, whose message is the `borsh` crate's. -/
  | borsh
  deriving DecidableEq, Repr

namespace TrieKeyParsers

/-- The parsers that cut the first `prefixLen` bytes off a raw key and read
the rest; `tooShort` when the key is shorter. -/
def parseAfterPrefix {α : Type} (rawKey : List UInt8) (prefixLen : ℕ) (tooShort : String)
    (parse : List UInt8 → Except IoError α) : Except IoError α :=
  if rawKey.length < prefixLen then .error (.invalidData tooShort) else parse (rawKey.drop prefixLen)

def parsePublicKeyFromAccessKeyKey (rawKey : List UInt8) (accountId : AccountId) :
    Except IoError PublicKey :=
  parseAfterPrefix rawKey (1 * 2 + accountId.utf8ByteSize)
    "raw key is too short for TrieKey::AccessKey" fun tail =>
      match PublicKey.tryFromSlice tail with
      | some publicKey => .ok publicKey
      | none => .error .borsh

def parseDataKeyFromContractDataKey (rawKey : List UInt8) (accountId : AccountId) :
    Except IoError (List UInt8) :=
  parseAfterPrefix rawKey (1 + accountId.utf8ByteSize + 1)
    "raw key is too short for TrieKey::ContractData" .ok

/-- `parse_account_id_prefix`: `strip_prefix` of the column byte. -/
def parseAccountIdPrefix (column : UInt8) (rawKey : List UInt8) : Except IoError (List UInt8) :=
  if rawKey.head? = some column then .ok rawKey.tail
  else .error (.invalidData "raw key is does not start with a proper column marker")

def parseAccountIdFromSlice (data : List UInt8) (trieKey : String) : Except IoError AccountId :=
  match fromUtf8 data with
  | none => .error (.invalidData ("raw key AccountId has invalid UTF-8 format to be TrieKey::" ++ trieKey))
  | some accountId =>
      match AccountId.validate accountId with
      | .ok () => .ok accountId
      | .error _ =>
          .error (.invalidData ("raw key does not have a valid AccountId to be TrieKey::" ++ trieKey))

/-- `next_token`: `data` up to the first `separator`, if there is one. -/
def nextToken (data : List UInt8) (separator : UInt8) : Option (List UInt8) :=
  (data.findIdx? (· == separator)).map data.take

/-- The parsers that read the account id between the column byte and the
first `separator`; `missing` when there is no separator. -/
def parseAccountIdBeforeSeparator (column separator : UInt8) (rawKey : List UInt8)
    (trieKey missing : String) : Except IoError AccountId := do
  let accountIdPrefix ← parseAccountIdPrefix column rawKey
  match nextToken accountIdPrefix separator with
  | some accountId => parseAccountIdFromSlice accountId trieKey
  | none => .error (.invalidData missing)

def parseAccountIdFromContractDataKey (rawKey : List UInt8) : Except IoError AccountId :=
  parseAccountIdBeforeSeparator Col.contractData accountDataSeparator rawKey "ContractData"
    "raw key does not have ACCOUNT_DATA_SEPARATOR to be TrieKey::ContractData"

def parseAccountIdFromAccountKey (rawKey : List UInt8) : Except IoError AccountId := do
  let accountId ← parseAccountIdPrefix Col.account rawKey
  parseAccountIdFromSlice accountId "Account"

def parseAccountIdFromAccessKeyKey (rawKey : List UInt8) : Except IoError AccountId :=
  parseAccountIdBeforeSeparator Col.accessKey Col.accessKey rawKey "AccessKey"
    "raw key does not have public key to be TrieKey::AccessKey"

def parseAccountIdFromContractCodeKey (rawKey : List UInt8) : Except IoError AccountId := do
  let accountId ← parseAccountIdPrefix Col.contractCode rawKey
  parseAccountIdFromSlice accountId "ContractCode"

def parseTrieKeyAccessKeyFromRawKey (rawKey : List UInt8) : Except IoError TrieKey := do
  let accountId ← parseAccountIdFromAccessKeyKey rawKey
  let publicKey ← parsePublicKeyFromAccessKeyKey rawKey accountId
  return .accessKey accountId publicKey

def parseAccountIdFromTrieKeyWithSeparator (col : UInt8) (rawKey : List UInt8) (colName : String) :
    Except IoError AccountId :=
  parseAccountIdBeforeSeparator col accountDataSeparator rawKey colName
    ("raw key does not have ACCOUNT_DATA_SEPARATOR to be TrieKey::" ++ colName)

/-- The `for` loop of `parse_account_id_from_raw_key` over the columns left:
the first column the key starts with decides which parser reads the account
id. -/
def parseAccountIdFromRawKeyLoop (rawKey : List UInt8) :
    List (UInt8 × String) → Except IoError (Option AccountId)
  | [] => .ok none
  | (col, colName) :: rest =>
      match parseAccountIdPrefix col rawKey with
      | .error _ => parseAccountIdFromRawKeyLoop rawKey rest
      | .ok _ =>
          some <$>
            if col = Col.account then parseAccountIdFromAccountKey rawKey
            else if col = Col.contractCode then parseAccountIdFromContractCodeKey rawKey
            else if col = Col.accessKey then parseAccountIdFromAccessKeyKey rawKey
            else parseAccountIdFromTrieKeyWithSeparator col rawKey colName

def parseAccountIdFromRawKey (rawKey : List UInt8) : Except IoError (Option AccountId) :=
  parseAccountIdFromRawKeyLoop rawKey Col.nonDelayedReceiptColumns

def parseAccountIdFromReceivedDataKey (rawKey : List UInt8) : Except IoError AccountId :=
  parseAccountIdFromTrieKeyWithSeparator Col.receivedData rawKey "ReceivedData"

/-- The prefix length is computed from `col::ACCESS_KEY`, twice; it is that of
the column byte and the separator of a `ReceivedData` key all the same. -/
def parseDataIdFromReceivedDataKey (rawKey : List UInt8) (accountId : AccountId) :
    Except IoError CryptoHash :=
  parseAfterPrefix rawKey (1 * 2 + accountId.utf8ByteSize)
    "raw key is too short for TrieKey::ReceivedData" fun tail =>
      match CryptoHash.tryFrom tail with
      | some dataId => .ok dataId
      | none => .error (.invalidData "Can't parse CryptoHash for TrieKey::ReceivedData")

def getRawPrefixForAccessKeys (accountId : AccountId) : List UInt8 :=
  Col.accessKey :: accountId.asBytes ++ [Col.accessKey]

def getRawPrefixForContractData (accountId : AccountId) (pfx : List UInt8) : List UInt8 :=
  Col.contractData :: accountId.asBytes ++ accountDataSeparator :: pfx

end TrieKeyParsers

/-! ## Bytes of account ids -/

namespace AccountId

theorem length_asBytes (accountId : AccountId) : accountId.asBytes.length = accountId.utf8ByteSize := by
  simp [asBytes, ← String.size_toByteArray]

theorem fromUtf8_asBytes (accountId : AccountId) : fromUtf8 accountId.asBytes = some accountId := by
  have hbytes : (⟨accountId.asBytes.toArray⟩ : ByteArray) = accountId.toByteArray := by
    simp [asBytes]
  unfold fromUtf8 String.fromUTF8?
  rw [hbytes, dif_pos accountId.isValidUTF8]
  rfl

theorem asBytes_injective : Function.Injective asBytes := by
  intro a b h
  have hdecode := fromUtf8_asBytes a
  rw [h, fromUtf8_asBytes] at hdecode
  exact (Option.some.inj hdecode).symm

theorem asBytes_eq (accountId : AccountId) :
    accountId.asBytes = accountId.toList.flatMap String.utf8EncodeChar := by
  conv_lhs => rw [asBytes, ← String.ofList_toList (s := accountId)]
  rw [String.toByteArray_ofList]
  simp [List.utf8Encode]

/-- An ASCII char is one byte, its code. -/
theorem utf8EncodeChar_of_lt {c : Char} (h : c.toNat < 128) :
    String.utf8EncodeChar c = [c.val.toUInt8] := by
  apply String.utf8EncodeChar_eq_singleton
  unfold Char.utf8Size
  rw [if_pos]
  rw [UInt32.le_iff_toNat_le, Char.toNat_val]
  simp only [UInt32.toNat_ofNatLT]
  omega

theorem toNat_toUInt8 {c : Char} (h : c.toNat < 128) : c.val.toUInt8.toNat = c.toNat := by
  rw [UInt32.toNat_toUInt8, Char.toNat_val]
  omega

/-- The codes of `a`-`z`, `0`-`9`, `-`, `_` and `.`. -/
theorem toNat_of_isIdChar_or_isSeparator {c : Char} (h : IsIdChar c ∨ IsSeparator c) :
    (97 ≤ c.toNat ∧ c.toNat ≤ 122) ∨ (48 ≤ c.toNat ∧ c.toNat ≤ 57) ∨ c.toNat = 45 ∨
      c.toNat = 95 ∨ c.toNat = 46 := by
  rcases h with (⟨hlo, hhi⟩ | ⟨hlo, hhi⟩) | (rfl | rfl | rfl)
  · left
    simp only [Char.le_def, UInt32.le_iff_toNat_le, Char.toNat_val] at hlo hhi
    exact ⟨hlo, hhi⟩
  · right; left
    simp only [Char.le_def, UInt32.le_iff_toNat_le, Char.toNat_val] at hlo hhi
    exact ⟨hlo, hhi⟩
  all_goals decide

/-- Each byte of a valid account id is the code of one of its chars. -/
theorem exists_char_of_mem_asBytes {accountId : AccountId} (h : validate accountId = .ok ())
    {b : UInt8} (hb : b ∈ accountId.asBytes) :
    ∃ c, (IsIdChar c ∨ IsSeparator c) ∧ b.toNat = c.toNat := by
  rw [asBytes_eq, List.mem_flatMap] at hb
  obtain ⟨c, hc, hb⟩ := hb
  have hchar := (runs_of_validate_eq_ok h).forall_mem c hc
  have hlt : c.toNat < 128 := by
    rcases toNat_of_isIdChar_or_isSeparator hchar with h | h | h | h | h <;> omega
  rw [utf8EncodeChar_of_lt hlt, List.mem_singleton] at hb
  exact ⟨c, hchar, by rw [hb, toNat_toUInt8 hlt]⟩

/-- A valid account id contains neither the separator `,` nor the access-key
column byte. -/
theorem bytes_ne_of_valid {accountId : AccountId} (h : validate accountId = .ok ()) :
    accountDataSeparator ∉ accountId.asBytes ∧ Col.accessKey ∉ accountId.asBytes := by
  constructor <;> intro hb <;> obtain ⟨c, hc, hcode⟩ := exists_char_of_mem_asBytes h hb
  · change 44 = c.toNat at hcode
    rcases toNat_of_isIdChar_or_isSeparator hc with h | h | h | h | h <;> omega
  · change 2 = c.toNat at hcode
    rcases toNat_of_isIdChar_or_isSeparator hc with h | h | h | h | h <;> omega

theorem separator_not_mem_asBytes {accountId : AccountId} (h : validate accountId = .ok ()) :
    accountDataSeparator ∉ accountId.asBytes :=
  (bytes_ne_of_valid h).1

/-- `bytes_ne_of_valid` for the access-key column byte as it reads unfolded. -/
theorem two_not_mem_asBytes {accountId : AccountId} (h : validate accountId = .ok ()) :
    (2 : UInt8) ∉ accountId.asBytes :=
  (bytes_ne_of_valid h).2

end AccountId

/-! ## Public keys and hashes round trip -/

theorem PublicKey.length_toBorsh (publicKey : PublicKey) : publicKey.toBorsh.length = publicKey.len := by
  cases publicKey <;> simp [PublicKey.toBorsh, PublicKey.len]

theorem PublicKey.tryFromSlice_toBorsh (publicKey : PublicKey) :
    PublicKey.tryFromSlice publicKey.toBorsh = some publicKey := by
  cases publicKey <;> simp [PublicKey.toBorsh, PublicKey.tryFromSlice, Vector.toList]

theorem CryptoHash.length_toBorsh (hash : CryptoHash) : hash.toBorsh.length = 32 := by
  simp [CryptoHash.toBorsh]

theorem CryptoHash.tryFrom_toBorsh (hash : CryptoHash) : CryptoHash.tryFrom hash.toBorsh = some hash := by
  simp [CryptoHash.tryFrom, CryptoHash.toBorsh, Vector.toList]

/-- `u64::to_le_bytes` read back. -/
theorem ofNat_decode_encode (index : UInt64) :
    UInt64.ofNat (LittleEndian.decode (LittleEndian.encode 8 index.toNat)) = index := by
  have hlt : index.toNat < 256 ^ 8 := by
    have := index.toNat_lt
    norm_num at this ⊢
    exact this
  rw [LittleEndian.decode_encode, Nat.mod_eq_of_lt hlt, UInt64.ofNat_toNat]

/-! ## Reading a raw key back -/

namespace TrieKeyParsers

theorem parseAccountIdFromSlice_asBytes {accountId : AccountId}
    (h : AccountId.validate accountId = .ok ()) (trieKey : String) :
    parseAccountIdFromSlice accountId.asBytes trieKey = .ok accountId := by
  rw [parseAccountIdFromSlice, AccountId.fromUtf8_asBytes]
  dsimp only
  rw [h]

theorem nextToken_append_cons {xs : List UInt8} {separator : UInt8} (h : separator ∉ xs)
    (ys : List UInt8) : nextToken (xs ++ separator :: ys) separator = some xs := by
  rw [nextToken, List.findIdx?_append_cons_of_not_mem h, Option.map_some, List.take_left' rfl]

theorem parseAccountIdBeforeSeparator_eq {column separator : UInt8} {accountId : AccountId}
    (h : AccountId.validate accountId = .ok ()) (hsep : separator ∉ accountId.asBytes)
    (rest : List UInt8) (trieKey missing : String) :
    parseAccountIdBeforeSeparator column separator
      (column :: (accountId.asBytes ++ separator :: rest)) trieKey missing = .ok accountId := by
  simp [parseAccountIdBeforeSeparator, parseAccountIdPrefix, bind, Except.bind,
    nextToken_append_cons hsep, parseAccountIdFromSlice_asBytes h]

theorem parseAfterPrefix_eq {α : Type} (column separator : UInt8) (accountId : AccountId)
    (rest : List UInt8) (prefixLen : ℕ) (hlen : prefixLen = accountId.utf8ByteSize + 2)
    (tooShort : String) (parse : List UInt8 → Except IoError α) :
    parseAfterPrefix (column :: (accountId.asBytes ++ separator :: rest)) prefixLen tooShort parse =
      parse rest := by
  have hsplit : column :: (accountId.asBytes ++ separator :: rest) =
      (column :: accountId.asBytes ++ [separator]) ++ rest := by
    simp
  have hlength : (column :: accountId.asBytes ++ [separator]).length = prefixLen := by
    simp [hlen, AccountId.length_asBytes]
  rw [parseAfterPrefix, if_neg (by rw [hsplit, List.length_append, hlength]; omega), hsplit,
    List.drop_left' hlength]

end TrieKeyParsers

namespace TrieKey

open TrieKeyParsers

/-- Not in the repository: `data` cut at its first `separator`. -/
def splitAtSeparator (data : List UInt8) (separator : UInt8) : Option (List UInt8 × List UInt8) :=
  (data.findIdx? (· == separator)).map fun i => (data.take i, data.drop (i + 1))

theorem splitAtSeparator_append_cons {xs : List UInt8} {separator : UInt8} (h : separator ∉ xs)
    (ys : List UInt8) : splitAtSeparator (xs ++ separator :: ys) separator = some (xs, ys) := by
  simp [splitAtSeparator, List.findIdx?_append_cons_of_not_mem h]

/-- Not in the repository: the account id and hash after a column byte. -/
def decodeWithHash (mk : AccountId → CryptoHash → TrieKey) (rest : List UInt8) : Option TrieKey := do
  let (accountId, hash) ← splitAtSeparator rest accountDataSeparator
  return mk (← fromUtf8 accountId) (← CryptoHash.tryFrom hash)

/-- Not in the repository: the key a raw key encodes, read column by column
with the account id cut at the first separator.  It inverts `to_vec` on valid
keys (`decode_toVec`), so `to_vec` is injective on them. -/
def decode : List UInt8 → Option TrieKey
  | [] => none
  | column :: rest =>
      if column = Col.account then TrieKey.account <$> fromUtf8 rest
      else if column = Col.contractCode then TrieKey.contractCode <$> fromUtf8 rest
      else if column = Col.accessKey then do
        let (accountId, publicKey) ← splitAtSeparator rest Col.accessKey
        return .accessKey (← fromUtf8 accountId) (← PublicKey.tryFromSlice publicKey)
      else if column = Col.receivedData then decodeWithHash .receivedData rest
      else if column = Col.postponedReceiptId then decodeWithHash .postponedReceiptId rest
      else if column = Col.pendingDataCount then decodeWithHash .pendingDataCount rest
      else if column = Col.postponedReceipt then decodeWithHash .postponedReceipt rest
      else if column = Col.delayedReceiptIndices then
        if rest = [] then some .delayedReceiptIndices
        else if rest.length = 8 then some (.delayedReceipt (UInt64.ofNat (LittleEndian.decode rest)))
        else none
      else if column = Col.contractData then do
        let (accountId, key) ← splitAtSeparator rest accountDataSeparator
        return .contractData (← fromUtf8 accountId) key
      else none

theorem decodeWithHash_eq (mk : AccountId → CryptoHash → TrieKey) {accountId : AccountId}
    (h : AccountId.validate accountId = .ok ()) (hash : CryptoHash) :
    decodeWithHash mk (accountId.asBytes ++ accountDataSeparator :: hash.toBorsh) =
      some (mk accountId hash) := by
  simp [decodeWithHash, splitAtSeparator_append_cons (AccountId.bytes_ne_of_valid h).1,
    AccountId.fromUtf8_asBytes, CryptoHash.tryFrom_toBorsh]

theorem decode_toVec (k : TrieKey) (hk : k.Valid) : decode k.toVec = some k := by
  cases k with
  | account accountId => simp [toVec, decode, Col.account, AccountId.fromUtf8_asBytes]
  | contractCode accountId =>
      simp [toVec, decode, Col.account, Col.contractCode, AccountId.fromUtf8_asBytes]
  | accessKey accountId publicKey =>
      have hsep : (2 : UInt8) ∉ accountId.asBytes := (AccountId.bytes_ne_of_valid (hk accountId rfl)).2
      simp [toVec, decode, Col.account, Col.contractCode, Col.accessKey,
        splitAtSeparator_append_cons hsep, AccountId.fromUtf8_asBytes, PublicKey.tryFromSlice_toBorsh]
  | receivedData receiverId dataId =>
      simp [toVec, decode, Col.account, Col.contractCode, Col.accessKey, Col.receivedData,
        decodeWithHash_eq _ (hk receiverId rfl)]
  | postponedReceiptId receiverId dataId =>
      simp [toVec, decode, Col.account, Col.contractCode, Col.accessKey, Col.receivedData,
        Col.postponedReceiptId, decodeWithHash_eq _ (hk receiverId rfl)]
  | pendingDataCount receiverId receiptId =>
      simp [toVec, decode, Col.account, Col.contractCode, Col.accessKey, Col.receivedData,
        Col.postponedReceiptId, Col.pendingDataCount, decodeWithHash_eq _ (hk receiverId rfl)]
  | postponedReceipt receiverId receiptId =>
      simp [toVec, decode, Col.account, Col.contractCode, Col.accessKey, Col.receivedData,
        Col.postponedReceiptId, Col.pendingDataCount, Col.postponedReceipt,
        decodeWithHash_eq _ (hk receiverId rfl)]
  | delayedReceiptIndices => rfl
  | delayedReceipt index =>
      have hne : LittleEndian.encode 8 index.toNat ≠ [] := List.ne_nil_of_length_pos (by simp)
      simp [hne, toVec, decode, Col.account, Col.contractCode, Col.accessKey, Col.receivedData,
        Col.postponedReceiptId, Col.pendingDataCount, Col.postponedReceipt,
        Col.delayedReceiptIndices, ofNat_decode_encode]
  | contractData accountId key =>
      have hsep := (AccountId.bytes_ne_of_valid (hk accountId rfl)).1
      simp [toVec, decode, Col.account, Col.contractCode, Col.accessKey, Col.receivedData,
        Col.postponedReceiptId, Col.pendingDataCount, Col.postponedReceipt,
        Col.delayedReceiptIndices, Col.contractData, splitAtSeparator_append_cons hsep,
        AccountId.fromUtf8_asBytes]

theorem length_toVec (k : TrieKey) : k.toVec.length = k.len := by
  cases k <;>
    simp [toVec, len, AccountId.length_asBytes, PublicKey.length_toBorsh, CryptoHash.length_toBorsh]
    <;> omega

/-- The loop of `parse_account_id_from_raw_key` finds the column of every key
and reads its account id; the delayed-receipt keys start with a column it does
not look for. -/
theorem parseAccountIdFromRawKey_toVec (k : TrieKey) (hk : k.Valid) :
    parseAccountIdFromRawKey k.toVec = .ok k.getAccountId := by
  cases k <;> simp only [Valid, getAccountId, Option.mem_def, Option.some.injEq, forall_eq',
      reduceCtorEq, false_imp_iff, imp_true_iff] at hk <;>
    simp [toVec, getAccountId, parseAccountIdFromRawKey, parseAccountIdFromRawKeyLoop,
      Col.nonDelayedReceiptColumns, parseAccountIdPrefix, parseAccountIdFromAccountKey,
      parseAccountIdFromContractCodeKey, parseAccountIdFromAccessKeyKey,
      parseAccountIdFromTrieKeyWithSeparator, bind, Except.bind, Functor.map, Except.map,
      Col.account, Col.contractCode, Col.accessKey, Col.receivedData, Col.postponedReceiptId,
      Col.pendingDataCount, Col.postponedReceipt, Col.delayedReceiptIndices, Col.contractData, hk,
      parseAccountIdFromSlice_asBytes, parseAccountIdBeforeSeparator_eq,
      AccountId.separator_not_mem_asBytes, AccountId.two_not_mem_asBytes]

theorem parseTrieKeyAccessKeyFromRawKey_toVec {accountId : AccountId}
    (h : AccountId.validate accountId = .ok ()) (publicKey : PublicKey) :
    parseTrieKeyAccessKeyFromRawKey (accessKey accountId publicKey).toVec =
      .ok (accessKey accountId publicKey) := by
  simp [toVec, parseTrieKeyAccessKeyFromRawKey, parseAccountIdFromAccessKeyKey,
    parseAccountIdBeforeSeparator_eq h (AccountId.bytes_ne_of_valid h).2, bind, Except.bind,
    parsePublicKeyFromAccessKeyKey,
    parseAfterPrefix_eq Col.accessKey Col.accessKey accountId publicKey.toBorsh
      (1 * 2 + accountId.utf8ByteSize) (by omega),
    PublicKey.tryFromSlice_toBorsh, pure, Except.pure]

theorem parseDataKeyFromContractDataKey_toVec (accountId : AccountId) (key : List UInt8) :
    parseDataKeyFromContractDataKey (contractData accountId key).toVec accountId = .ok key := by
  simp [toVec, parseDataKeyFromContractDataKey,
    parseAfterPrefix_eq Col.contractData accountDataSeparator accountId key
      (1 + accountId.utf8ByteSize + 1) (by omega)]

theorem parseDataIdFromReceivedDataKey_toVec (receiverId : AccountId) (dataId : CryptoHash) :
    parseDataIdFromReceivedDataKey (receivedData receiverId dataId).toVec receiverId = .ok dataId := by
  simp [toVec, parseDataIdFromReceivedDataKey,
    parseAfterPrefix_eq Col.receivedData accountDataSeparator receiverId dataId.toBorsh
      (1 * 2 + receiverId.utf8ByteSize) (by omega),
    CryptoHash.tryFrom_toBorsh]

/-- `get_raw_prefix_for_contract_data(a, p)` starts exactly the contract-data
keys of `a` whose data key starts with `p`: no other column has its byte, and
the first separator of a key ends its account id. -/
theorem getRawPrefixForContractData_prefix_iff {k : TrieKey} (hk : k.Valid) {accountId : AccountId}
    (h : AccountId.validate accountId = .ok ()) (pfx : List UInt8) :
    getRawPrefixForContractData accountId pfx <+: k.toVec ↔
      ∃ key, k = .contractData accountId key ∧ pfx <+: key := by
  cases k
  case contractData accountId' key =>
    have hsep' := AccountId.separator_not_mem_asBytes (hk accountId' rfl)
    rw [getRawPrefixForContractData, toVec, List.cons_append, List.cons_append, List.cons_prefix_cons,
      List.append_cons_prefix_append_cons_iff (AccountId.separator_not_mem_asBytes h) hsep']
    simp [AccountId.asBytes_injective.eq_iff, eq_comm]
  all_goals simp [getRawPrefixForContractData, toVec, List.cons_prefix_cons, Col.account,
    Col.contractCode, Col.accessKey, Col.receivedData, Col.postponedReceiptId, Col.pendingDataCount,
    Col.postponedReceipt, Col.delayedReceiptIndices, Col.contractData]

/-- `get_raw_prefix_for_access_keys(a)` starts exactly the access keys of `a`. -/
theorem getRawPrefixForAccessKeys_prefix_iff {k : TrieKey} (hk : k.Valid) {accountId : AccountId}
    (h : AccountId.validate accountId = .ok ()) :
    getRawPrefixForAccessKeys accountId <+: k.toVec ↔ ∃ publicKey, k = .accessKey accountId publicKey := by
  cases k
  case accessKey accountId' publicKey =>
    have hsep' := (AccountId.bytes_ne_of_valid (hk accountId' rfl)).2
    rw [getRawPrefixForAccessKeys, toVec, List.cons_append, List.cons_append, List.cons_prefix_cons,
      List.append_cons_prefix_append_cons_iff (AccountId.bytes_ne_of_valid h).2 hsep']
    simp [AccountId.asBytes_injective.eq_iff, eq_comm]
  all_goals simp [getRawPrefixForAccessKeys, toVec, List.cons_prefix_cons, Col.account,
    Col.contractCode, Col.accessKey, Col.receivedData, Col.postponedReceiptId, Col.pendingDataCount,
    Col.postponedReceipt, Col.delayedReceiptIndices, Col.contractData]

/-- State keys with valid account ids: `to_vec` has the length `len` says, it is
injective, `parse_account_id_from_raw_key` reads back the account id (`None`
for the delayed-receipt keys), the parsers of access keys, contract data and
received data read back the key, data key and data id, and the raw prefixes of
an account's contract data and access keys start exactly those keys. -/
theorem toVec_spec (k k₁ k₂ : TrieKey) (hk : k.Valid) (hk₁ : k₁.Valid) (hk₂ : k₂.Valid)
    (accountId : AccountId) (haccountId : AccountId.validate accountId = .ok ())
    (pfx : List UInt8) :
    k.toVec.length = k.len ∧
    (k₁.toVec = k₂.toVec → k₁ = k₂) ∧
    parseAccountIdFromRawKey k.toVec = .ok k.getAccountId ∧
    (∀ a publicKey, k = .accessKey a publicKey → parseTrieKeyAccessKeyFromRawKey k.toVec = .ok k) ∧
    (∀ a key, k = .contractData a key → parseDataKeyFromContractDataKey k.toVec a = .ok key) ∧
    (∀ a dataId, k = .receivedData a dataId →
      parseDataIdFromReceivedDataKey k.toVec a = .ok dataId) ∧
    (getRawPrefixForContractData accountId pfx <+: k.toVec ↔
      ∃ key, k = .contractData accountId key ∧ pfx <+: key) ∧
    (getRawPrefixForAccessKeys accountId <+: k.toVec ↔
      ∃ publicKey, k = .accessKey accountId publicKey) := by
  refine ⟨length_toVec k, fun h => ?_, parseAccountIdFromRawKey_toVec k hk, ?_, ?_, ?_,
    getRawPrefixForContractData_prefix_iff hk haccountId pfx,
    getRawPrefixForAccessKeys_prefix_iff hk haccountId⟩
  · -- injective: the decoder reads each key back
    have hdecode := decode_toVec k₁ hk₁
    rw [h, decode_toVec k₂ hk₂] at hdecode
    exact (Option.some.inj hdecode).symm
  · rintro a publicKey rfl
    exact parseTrieKeyAccessKeyFromRawKey_toVec (hk a rfl) publicKey
  · rintro a key rfl
    exact parseDataKeyFromContractDataKey_toVec a key
  · rintro a dataId rfl
    exact parseDataIdFromReceivedDataKey_toVec a dataId

theorem toVec_spec_alice :
    (contractData "alice.near" [1, 2]).Valid ∧
    (accessKey "alice.near" (.ed25519 (Vector.replicate 32 0))).Valid ∧
    AccountId.validate "alice.near" = .ok () ∧
    (contractData "alice.near" [1, 2]).toVec.length = (contractData "alice.near" [1, 2]).len ∧
    ((contractData "alice.near" [1, 2]).toVec = (accessKey "alice.near" (.ed25519 (Vector.replicate 32 0))).toVec →
      contractData "alice.near" [1, 2] = accessKey "alice.near" (.ed25519 (Vector.replicate 32 0))) ∧
    parseAccountIdFromRawKey (contractData "alice.near" [1, 2]).toVec =
      .ok (contractData "alice.near" [1, 2]).getAccountId ∧
    (∀ a publicKey, contractData "alice.near" [1, 2] = .accessKey a publicKey →
      parseTrieKeyAccessKeyFromRawKey (contractData "alice.near" [1, 2]).toVec =
        .ok (contractData "alice.near" [1, 2])) ∧
    (∀ a key, contractData "alice.near" [1, 2] = .contractData a key →
      parseDataKeyFromContractDataKey (contractData "alice.near" [1, 2]).toVec a = .ok key) ∧
    (∀ a dataId, contractData "alice.near" [1, 2] = .receivedData a dataId →
      parseDataIdFromReceivedDataKey (contractData "alice.near" [1, 2]).toVec a = .ok dataId) ∧
    (getRawPrefixForContractData "alice.near" [1] <+: (contractData "alice.near" [1, 2]).toVec ↔
      ∃ key, contractData "alice.near" [1, 2] = .contractData "alice.near" key ∧ [1] <+: key) ∧
    (getRawPrefixForAccessKeys "alice.near" <+: (contractData "alice.near" [1, 2]).toVec ↔
      ∃ publicKey, contractData "alice.near" [1, 2] = .accessKey "alice.near" publicKey) := by
  have hvalid : AccountId.validate "alice.near" = .ok () := by decide
  have hk : (contractData "alice.near" [1, 2]).Valid := fun a ha => by
    cases ha
    exact hvalid
  have hk' : (accessKey "alice.near" (.ed25519 (Vector.replicate 32 0))).Valid := fun a ha => by
    cases ha
    exact hvalid
  exact ⟨hk, hk', hvalid, toVec_spec (contractData "alice.near" [1, 2]) (contractData "alice.near" [1, 2])
    (accessKey "alice.near" (.ed25519 (Vector.replicate 32 0))) hk hk hk' "alice.near" hvalid [1]⟩

end TrieKey

end Nearcore
