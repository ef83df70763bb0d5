import Nearcore.Merkle
import Nearcore.TrieNode
import Nearcore.ListFacts

/-!
# Packing a chunk body into erasure-coded parts

`EncodedShardChunk::encode_transaction_receipts` (`core/primitives/src/sharding.rs`)
serializes the transactions and receipts of a chunk, pads the bytes with zeros to a multiple
of the number of data parts and cuts them into that many parts of one length; the parity parts
are left empty for the Reed-Solomon code to fill.  `decode_transaction_receipts` gathers the
data parts back, keeps the first `encoded_length` bytes and deserializes them.
`EncodedShardChunk::new` reconstructs the parity parts and merklizes all parts.

Borsh is a parameter with its round trip (`Borsh`), and so is the Reed-Solomon
reconstruction, of which only what the chunk needs is assumed (`ReconstructFills`): it fills
every part and leaves the data parts as they were.  The main result is that a chunk body
survives the packing and every part of a new chunk passes `verify_path` against its root
(`encodeTransactionReceipts_roundTrip`).
-/

namespace Nearcore.Sharding

open Merkle

/-- A Borsh encoding of `α`: `try_to_vec`, and `try_from_slice`, which reads back what
`try_to_vec` wrote. -/
structure Borsh (α : Type) where
  tryToVec : α → List UInt8
  tryFromSlice : List UInt8 → Option α
  tryFromSlice_tryToVec : ∀ a, tryFromSlice (tryToVec a) = some a

/-- `TransactionReceipt(transactions, receipts)`, what a chunk body serializes. -/
structure TransactionReceipt (Tx R : Type) where
  transactions : List Tx
  receipts : List R

/-- `ReedSolomonWrapper`, by its counts of data and parity parts. -/
structure ReedSolomonWrapper where
  dataShardCount : ℕ
  parityShardCount : ℕ

/-- `total_shard_count()`. -/
def ReedSolomonWrapper.totalShardCount (rs : ReedSolomonWrapper) : ℕ :=
  rs.dataShardCount + rs.parityShardCount

/-- The fields of an encoded chunk the decoding and the part proofs read: the header's
`encoded_merkle_root` and `encoded_length`, and the parts of its body. -/
structure EncodedShardChunk where
  encodedMerkleRoot : CryptoHash
  encodedLength : ℕ
  parts : List (Option (List UInt8))

section Model

variable {Tx R : Type}

/-- `encode_transaction_receipts`: the parts and the length of the serialized body; `none`
where `%` panics on no data parts or the `assert_eq!` on the padded length fails. -/
def encodeTransactionReceipts (borsh : Borsh (TransactionReceipt Tx R)) (rs : ReedSolomonWrapper)
    (transactions : List Tx) (outgoingReceipts : List R) :
    Option (List (Option (List UInt8)) × ℕ) :=
  let bytes := borsh.tryToVec ⟨transactions, outgoingReceipts⟩
  let dataParts := rs.dataShardCount
  let totalParts := rs.totalShardCount
  let encodedLength := bytes.length
  if dataParts = 0 then none
  else
    -- `bytes.extend((bytes.len() % data_parts..data_parts).map(|_| 0))`
    let bytes :=
      if bytes.length % dataParts ≠ 0 then bytes ++ List.replicate (dataParts - bytes.length % dataParts) 0
      else bytes
    let shardLength := (encodedLength + dataParts - 1) / dataParts
    if bytes.length ≠ shardLength * dataParts then none
    else
      some ((List.range dataParts).map (fun i => some ((bytes.drop (i * shardLength)).take shardLength)) ++
        List.replicate (totalParts - dataParts) none, encodedLength)

/-- `parts.iter().flat_map(|p| p.as_ref().expect("Missing shard").iter()).take(n)`: the first
`n` bytes of the parts.  The iterator is lazy, so only the parts it reaches must be there;
`none` where `expect` panics. -/
def takeParts : ℕ → List (Option (List UInt8)) → Option (List UInt8)
  | 0, _ => some []
  | _ + 1, [] => some []
  | _ + 1, none :: _ => none
  | n + 1, some part :: rest =>
      if n + 1 ≤ part.length then some (part.take (n + 1))
      else (takeParts (n + 1 - part.length) rest).map (part ++ ·)

/-- `decode_transaction_receipts`; `none` where it panics or `try_from_slice` fails. -/
def decodeTransactionReceipts (borsh : Borsh (TransactionReceipt Tx R))
    (parts : List (Option (List UInt8))) (encodedLength : ℕ) : Option (TransactionReceipt Tx R) := do
  let encodedData ← takeParts encodedLength parts
  borsh.tryFromSlice encodedData

/-- `decode_chunk`: the body from the first `data_parts` parts; `none` where the slice
`parts[0..data_parts]` is out of range. -/
def decodeChunk (borsh : Borsh (TransactionReceipt Tx R)) (chunk : EncodedShardChunk)
    (dataParts : ℕ) : Option (TransactionReceipt Tx R) :=
  if dataParts ≤ chunk.parts.length then
    decodeTransactionReceipts borsh (chunk.parts.take dataParts) chunk.encodedLength
  else none

variable (hash : List UInt8 → CryptoHash)

/-- `get_merkle_hash_and_paths`: `merklize` of the parts, each hashed as a Borsh byte string;
`none` where a part is missing. -/
def getMerkleHashAndPaths (parts : List (Option (List UInt8))) :
    Option (MerkleHash × List MerklePath) := do
  let parts ← parts.mapM id
  pure (merklize hash Trie.borshBytes parts)

/-- `EncodedShardChunk::new`, as far as the body goes: the encoded parts, reconstructed by
the erasure code `reconstruct`, and their Merkle root and paths. -/
def EncodedShardChunk.new (borsh : Borsh (TransactionReceipt Tx R)) (rs : ReedSolomonWrapper)
    (reconstruct : List (Option (List UInt8)) → Option (List (Option (List UInt8))))
    (transactions : List Tx) (outgoingReceipts : List R) :
    Option (EncodedShardChunk × List MerklePath) := do
  let encoded ← encodeTransactionReceipts borsh rs transactions outgoingReceipts
  -- `content.reconstruct(rs).unwrap()`
  let parts ← reconstruct encoded.1
  let merkle ← getMerkleHashAndPaths hash parts
  pure (⟨merkle.1, encoded.2, parts⟩, merkle.2)

end Model

/-- What the chunk needs of the Reed-Solomon reconstruction: given all the data parts of a
full list of parts, it fills every part and keeps the data parts. -/
def ReconstructFills (rs : ReedSolomonWrapper)
    (reconstruct : List (Option (List UInt8)) → Option (List (Option (List UInt8)))) : Prop :=
  ∀ parts : List (Option (List UInt8)), parts.length = rs.totalShardCount →
    (∀ i (hi : i < parts.length), i < rs.dataShardCount → parts[i].isSome) →
    ∃ parts', reconstruct parts = some parts' ∧ parts'.length = parts.length ∧
      (∀ part ∈ parts', part.isSome) ∧ parts'.take rs.dataShardCount = parts.take rs.dataShardCount

/-! ## Padding and cutting -/

section Parts

/-- The padded body is `shard_length * data_parts` bytes long, as the `assert_eq!` checks. -/
theorem length_padded (len d : ℕ) (hd : 0 < d) :
    (if len % d ≠ 0 then len + (d - len % d) else len) = (len + d - 1) / d * d := by
  have hdiv := Nat.div_add_mod len d
  have hmod := Nat.mod_lt len hd
  have hceil : (len + d - 1) / d = len / d + (len % d + d - 1) / d := by
    rw [show len + d - 1 = (len % d + d - 1) + d * (len / d) by omega, Nat.add_mul_div_left _ _ hd,
      Nat.add_comm]
  split_ifs with hr
  · have hone : (len % d + d - 1) / d = 1 :=
      Nat.div_eq_of_lt_le (by omega) (by omega)
    rw [hceil, hone, Nat.add_mul, Nat.one_mul, Nat.mul_comm (len / d)]
    omega
  · have hzero : (len % d + d - 1) / d = 0 := Nat.div_eq_of_lt (by omega)
    rw [hceil, hzero, Nat.add_zero, Nat.mul_comm]
    omega

theorem takeParts_map_some (n : ℕ) (parts : List (List UInt8)) :
    takeParts n (parts.map some) = some (parts.flatten.take n) := by
  induction parts generalizing n with
  | nil => cases n <;> rfl
  | cons part parts ih =>
      cases n with
      | zero => rfl
      | succ n =>
          rw [List.map_cons, takeParts, List.flatten_cons]
          split_ifs with hfit
          · rw [List.take_append_of_le_length hfit]
          · rw [ih, Option.map_some, List.take_append,
              List.take_of_length_le (show part.length ≤ n + 1 by omega)]

end Parts

/-! ## The round trip -/

section RoundTrip

variable {Tx R : Type} (borsh : Borsh (TransactionReceipt Tx R)) (rs : ReedSolomonWrapper)

/-- `encode_transaction_receipts` on some data parts: the parts are the padded body cut into
`data_parts` parts of one length, followed by the empty parity parts. -/
theorem encodeTransactionReceipts_eq (hdata : 0 < rs.dataShardCount) (transactions : List Tx)
    (outgoingReceipts : List R) :
    let bytes := borsh.tryToVec ⟨transactions, outgoingReceipts⟩
    let shardLength := (bytes.length + rs.dataShardCount - 1) / rs.dataShardCount
    let padded := bytes ++ List.replicate (shardLength * rs.dataShardCount - bytes.length) 0
    encodeTransactionReceipts borsh rs transactions outgoingReceipts =
      some ((List.range rs.dataShardCount).map (fun i => some ((padded.drop (i * shardLength)).take
          shardLength)) ++ List.replicate (rs.totalShardCount - rs.dataShardCount) none,
        bytes.length) := by
  intro bytes shardLength padded
  have hpadded := length_padded bytes.length rs.dataShardCount hdata
  -- the padding the code adds is the one that brings the length to `shard_length * data_parts`
  have hpad : (if bytes.length % rs.dataShardCount ≠ 0 then
      bytes ++ List.replicate (rs.dataShardCount - bytes.length % rs.dataShardCount) 0 else bytes) =
        padded := by
    simp only [padded, shardLength, ← hpadded]
    split_ifs <;> simp
  have hlen : padded.length = shardLength * rs.dataShardCount := by
    rw [← hpad, ← hpadded]
    split_ifs <;> simp
  unfold encodeTransactionReceipts
  simp only [hdata.ne', if_false]
  rw [hpad, if_neg (not_not.mpr hlen)]

/-- A chunk body survives the packing: the parts have their lengths, the data parts
concatenate to the body and its zero padding, and they decode to the body; a new chunk
decodes to its body too, and each of its parts passes `verify_path` against its root. -/
theorem encodeTransactionReceipts_roundTrip (hash : List UInt8 → CryptoHash)
    (reconstruct : List (Option (List UInt8)) → Option (List (Option (List UInt8))))
    (hdata : 0 < rs.dataShardCount) (hfills : ReconstructFills rs reconstruct)
    (transactions : List Tx) (outgoingReceipts : List R) :
    let bytes := borsh.tryToVec ⟨transactions, outgoingReceipts⟩
    let shardLength := (bytes.length + rs.dataShardCount - 1) / rs.dataShardCount
    (∃ parts, encodeTransactionReceipts borsh rs transactions outgoingReceipts =
        some (parts, bytes.length) ∧
      parts.length = rs.totalShardCount ∧
      (∀ i (hi : i < parts.length), i < rs.dataShardCount →
        ∃ part, parts[i] = some part ∧ part.length = shardLength) ∧
      (∀ i (hi : i < parts.length), rs.dataShardCount ≤ i → parts[i] = none) ∧
      ((parts.take rs.dataShardCount).filterMap id).flatten =
        bytes ++ List.replicate (shardLength * rs.dataShardCount - bytes.length) 0 ∧
      decodeTransactionReceipts borsh (parts.take rs.dataShardCount) bytes.length =
        some ⟨transactions, outgoingReceipts⟩) ∧
    ∃ chunk merklePaths,
      EncodedShardChunk.new hash borsh rs reconstruct transactions outgoingReceipts =
        some (chunk, merklePaths) ∧
      decodeChunk borsh chunk rs.dataShardCount = some ⟨transactions, outgoingReceipts⟩ ∧
      chunk.parts.length = rs.totalShardCount ∧ merklePaths.length = chunk.parts.length ∧
      ∀ i (hi : i < chunk.parts.length), ∃ part, chunk.parts[i] = some part ∧
        verifyPath hash Trie.borshBytes chunk.encodedMerkleRoot merklePaths[i]! part = true := by
  intro bytes shardLength
  set padded := bytes ++ List.replicate (shardLength * rs.dataShardCount - bytes.length) 0
    with hpadded_def
  set dataParts := (List.range rs.dataShardCount).map fun i =>
    (padded.drop (i * shardLength)).take shardLength with hdataParts
  have hencode : encodeTransactionReceipts borsh rs transactions outgoingReceipts =
      some ((List.range rs.dataShardCount).map (fun i =>
          some ((padded.drop (i * shardLength)).take shardLength)) ++
        List.replicate (rs.totalShardCount - rs.dataShardCount) none, bytes.length) :=
    encodeTransactionReceipts_eq borsh rs hdata transactions outgoingReceipts
  have hbytes : shardLength * rs.dataShardCount - bytes.length + bytes.length =
      shardLength * rs.dataShardCount := by
    have hpadded : (if bytes.length % rs.dataShardCount ≠ 0 then
        bytes.length + (rs.dataShardCount - bytes.length % rs.dataShardCount) else bytes.length) =
          shardLength * rs.dataShardCount :=
      length_padded bytes.length rs.dataShardCount hdata
    split_ifs at hpadded <;> omega
  have hlen : padded.length = rs.dataShardCount * shardLength := by
    rw [hpadded_def, List.length_append, List.length_replicate, Nat.add_comm, hbytes, Nat.mul_comm]
  have hflatten : dataParts.flatten = padded :=
    List.flatten_map_range_take_drop padded rs.dataShardCount shardLength hlen
  have hparts : (List.range rs.dataShardCount).map (fun i =>
      some ((padded.drop (i * shardLength)).take shardLength)) = dataParts.map some := by
    rw [hdataParts, List.map_map]
    rfl
  rw [hparts] at hencode
  have htake : (dataParts.map some ++ List.replicate (rs.totalShardCount - rs.dataShardCount) none).take
      rs.dataShardCount = dataParts.map some := by
    rw [List.take_append_of_le_length (by simp [hdataParts]), List.take_of_length_le
      (by simp [hdataParts])]
  have hdecode : decodeTransactionReceipts borsh (dataParts.map some) bytes.length =
      some ⟨transactions, outgoingReceipts⟩ := by
    rw [decodeTransactionReceipts, takeParts_map_some, hflatten, Option.bind_eq_bind,
      Option.bind_some, hpadded_def, List.take_left' rfl]
    exact borsh.tryFromSlice_tryToVec _
  have htotal : rs.dataShardCount ≤ rs.totalShardCount := Nat.le_add_right _ _
  refine ⟨⟨_, hencode, ?_, ?_, ?_, ?_, ?_⟩, ?_⟩
  · simp [hdataParts, htotal]
  · intro i hi hdata'
    refine ⟨(padded.drop (i * shardLength)).take shardLength, ?_,
      List.length_take_drop_of_lt hlen hdata'⟩
    rw [List.getElem_append_left (by simpa [hdataParts] using hdata')]
    simp [hdataParts]
  · intro i hi hparity
    rw [List.getElem_append_right (by simpa [hdataParts] using hparity)]
    simp
  · rw [htake, List.filterMap_map]
    show (dataParts.filterMap some).flatten = padded
    rw [List.filterMap_some, hflatten]
  · rw [htake, hdecode]
  · -- a new chunk: the data parts survive the reconstruction
    have hsome : ∀ i (hi : i < (dataParts.map some ++
        List.replicate (rs.totalShardCount - rs.dataShardCount) none).length), i < rs.dataShardCount →
        (dataParts.map some ++ List.replicate (rs.totalShardCount - rs.dataShardCount) none)[i].isSome := by
      intro i hi hdata'
      rw [List.getElem_append_left (by simpa [hdataParts] using hdata')]
      simp
    obtain ⟨parts', hreconstruct, hlength', hfilled, hkept⟩ :=
      hfills _ (by simp [hdataParts, htotal]) hsome
    have hall : ∃ full, parts'.mapM id = some full ∧ full.map some = parts' :=
      List.mapM_id_of_forall_isSome hfilled
    obtain ⟨full, hfull, hfull_map⟩ := hall
    refine ⟨⟨(merklize hash Trie.borshBytes full).1, bytes.length, parts'⟩,
      (merklize hash Trie.borshBytes full).2, ?_, ?_, ?_, ?_, ?_⟩
    · simp only [EncodedShardChunk.new, hencode, hreconstruct, getMerkleHashAndPaths, hfull,
        Option.bind_eq_bind, Option.bind_some, Option.pure_def]
    · rw [decodeChunk, if_pos (by rw [hlength']; simp [hdataParts]), hkept, htake]
      exact hdecode
    · rw [hlength']
      simp [hdataParts, htotal]
    · rw [length_merklize, ← hfull_map, List.length_map]
    · intro i hi
      have hi' : i < full.length := by rwa [← hfull_map, List.length_map] at hi
      refine ⟨full[i], by simp [← hfull_map], ?_⟩
      exact verifyPath_merklize hash Trie.borshBytes full hi'

/-- A stand-in for the erasure code with one parity part, as RAID 5 has it: every missing
part is rebuilt as the bytewise xor of the data parts. -/
def xorReconstruct (dataParts : ℕ) (parts : List (Option (List UInt8))) :
    Option (List (Option (List UInt8))) := do
  let data ← (parts.take dataParts).mapM id
  let parity := match data with
    | [] => []
    | part :: rest => rest.foldl (List.zipWith (· ^^^ ·)) part
  pure (parts.map fun part => some (part.getD parity))

theorem reconstructFills_xorReconstruct (rs : ReedSolomonWrapper) :
    ReconstructFills rs (xorReconstruct rs.dataShardCount) := by
  intro parts _ hdata
  have hsome : ∀ o ∈ parts.take rs.dataShardCount, o.isSome := by
    intro o ho
    obtain ⟨i, hi, rfl⟩ := List.getElem_of_mem ho
    rw [List.getElem_take]
    exact hdata i _ (by rw [List.length_take] at hi; omega)
  obtain ⟨data, hdata', -⟩ := List.mapM_id_of_forall_isSome hsome
  refine ⟨_, by rw [xorReconstruct, hdata']; rfl, List.length_map _, by simp, ?_⟩
  apply List.ext_getElem (by simp)
  intro i h1 h2
  have hi : i < rs.dataShardCount := by simp at h1; omega
  obtain ⟨part, hpart⟩ := Option.isSome_iff_exists.mp (hdata i (by simp at h2; omega) hi)
  simp [hpart]

/-- Reads a list written by `tagBytes`, returning what follows it. -/
def readTagged : List UInt8 → Option (List UInt8 × List UInt8)
  | 0 :: rest => some ([], rest)
  | 1 :: b :: rest => (readTagged rest).map fun r => (b :: r.1, r.2)
  | _ => none

/-- A list of bytes, each tagged `1`, ended by `0`. -/
def tagBytes (bytes : List UInt8) : List UInt8 :=
  bytes.flatMap (fun b => [1, b]) ++ [0]

theorem readTagged_tagBytes (bytes rest : List UInt8) :
    readTagged (tagBytes bytes ++ rest) = some (bytes, rest) := by
  induction bytes with
  | nil => rfl
  | cons b bytes ih =>
      have htag : tagBytes (b :: bytes) ++ rest = 1 :: b :: (tagBytes bytes ++ rest) := by
        simp [tagBytes]
      rw [htag, readTagged, ih]
      rfl

/-- A self-delimiting stand-in for Borsh on bodies of bytes: the two lists one after the other,
each written by `tagBytes`. -/
def tagBorsh : Borsh (TransactionReceipt UInt8 UInt8) where
  tryToVec body := tagBytes body.transactions ++ tagBytes body.receipts
  tryFromSlice bytes := do
    let (transactions, rest) ← readTagged bytes
    let (receipts, rest) ← readTagged rest
    if rest = [] then some ⟨transactions, receipts⟩ else none
  tryFromSlice_tryToVec := by
    rintro ⟨transactions, receipts⟩
    have hreceipts := readTagged_tagBytes receipts []
    rw [List.append_nil] at hreceipts
    simp only [readTagged_tagBytes, hreceipts, Option.bind_eq_bind, Option.bind_some, if_true]

/-- A hash that depends on every byte: their sum, repeated. -/
def byteSumHash (bytes : List UInt8) : CryptoHash := ⟨Vector.replicate 32 (bytes.foldl (· + ·) 0)⟩

/-- Three transactions and one receipt serialize to ten bytes, which three data parts of four
bytes hold with two bytes of padding; the parity part is rebuilt from them. -/
theorem encodeTransactionReceipts_roundTrip_padded :
    0 < (⟨3, 1⟩ : ReedSolomonWrapper).dataShardCount ∧ ReconstructFills ⟨3, 1⟩ (xorReconstruct 3) ∧
    let bytes := tagBorsh.tryToVec ⟨[1, 2, 3], [4]⟩
    let shardLength := (bytes.length + (⟨3, 1⟩ : ReedSolomonWrapper).dataShardCount - 1) /
      (⟨3, 1⟩ : ReedSolomonWrapper).dataShardCount
    (∃ parts, encodeTransactionReceipts tagBorsh ⟨3, 1⟩ [1, 2, 3] [4] = some (parts, bytes.length) ∧
      parts.length = (⟨3, 1⟩ : ReedSolomonWrapper).totalShardCount ∧
      (∀ i (hi : i < parts.length), i < (⟨3, 1⟩ : ReedSolomonWrapper).dataShardCount →
        ∃ part, parts[i] = some part ∧ part.length = shardLength) ∧
      (∀ i (hi : i < parts.length), (⟨3, 1⟩ : ReedSolomonWrapper).dataShardCount ≤ i →
        parts[i] = none) ∧
      ((parts.take (⟨3, 1⟩ : ReedSolomonWrapper).dataShardCount).filterMap id).flatten =
        bytes ++ List.replicate (shardLength * (⟨3, 1⟩ : ReedSolomonWrapper).dataShardCount -
          bytes.length) 0 ∧
      decodeTransactionReceipts tagBorsh (parts.take (⟨3, 1⟩ : ReedSolomonWrapper).dataShardCount)
        bytes.length = some ⟨[1, 2, 3], [4]⟩) ∧
    ∃ chunk merklePaths,
      EncodedShardChunk.new byteSumHash tagBorsh ⟨3, 1⟩ (xorReconstruct 3) [1, 2, 3] [4] =
        some (chunk, merklePaths) ∧
      decodeChunk tagBorsh chunk (⟨3, 1⟩ : ReedSolomonWrapper).dataShardCount = some ⟨[1, 2, 3], [4]⟩ ∧
      chunk.parts.length = (⟨3, 1⟩ : ReedSolomonWrapper).totalShardCount ∧
      merklePaths.length = chunk.parts.length ∧
      ∀ i (hi : i < chunk.parts.length), ∃ part, chunk.parts[i] = some part ∧
        verifyPath byteSumHash Trie.borshBytes chunk.encodedMerkleRoot merklePaths[i]! part = true :=
  ⟨by decide, reconstructFills_xorReconstruct _,
    encodeTransactionReceipts_roundTrip tagBorsh ⟨3, 1⟩ byteSumHash (xorReconstruct 3)
      (by decide) (reconstructFills_xorReconstruct _) [1, 2, 3] [4]⟩

/-- The parts of that body: the ten bytes and two of padding in three parts, the parity part
empty until the reconstruction, which fills it with their xor. -/
example : encodeTransactionReceipts tagBorsh ⟨3, 1⟩ [1, 2, 3] [4] =
      some ([some [1, 1, 1, 2], some [1, 3, 0, 1], some [4, 0, 0, 0], none], 10) ∧
    xorReconstruct 3 [some [1, 1, 1, 2], some [1, 3, 0, 1], some [4, 0, 0, 0], none] =
      some [some [1, 1, 1, 2], some [1, 3, 0, 1], some [4, 0, 0, 0], some [4, 2, 1, 3]] := by
  decide

end RoundTrip

end Nearcore.Sharding
