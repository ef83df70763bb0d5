import Nearcore.Bitmap
import Nearcore.LittleEndian
import Nearcore.TrieNode

/-!
# Borsh decoding of stored trie nodes

A stored node is the Borsh encoding of a `RawTrieNodeWithSize` (`trie/raw_node.rs`), and its
hash is the hash of those bytes.  The encoding is derived but for `Children`, which writes a
`u16` bitmap of the present children and then the present children by increasing index, and
reads them back by taking the lowest set bit of the bitmap and clearing it until none is left.

A reader takes the input and returns the value read with the input left, or `none` where Borsh
returns an error (too few bytes, an unknown variant index).  A node decodes from its encoding
followed by any bytes, leaving those bytes (`RawTrieNodeWithSize.deserialize_toBorsh`), and the
bytes a node decodes from start with its encoding (`RawTrieNodeWithSize.deserialize_eq_some`), so
that every node has one encoding and one hash.
-/

namespace Nearcore.Trie

/-! ## Readers -/

/-- A little-endian `u16`, `u32` or `u64` of `width` bytes. -/
def readLe (width : ℕ) (rd : List UInt8) : Option (ℕ × List UInt8) :=
  if width ≤ rd.length then some (LittleEndian.decode (rd.take width), rd.drop width) else none

/-- `CryptoHash`'s `deserialize_reader`: its 32 bytes. -/
def deserializeHash (rd : List UInt8) : Option (CryptoHash × List UInt8) :=
  if h : 32 ≤ rd.length then some (⟨⟨(rd.take 32).toArray, by simp [h]⟩⟩, rd.drop 32) else none

/-- `Vec<u8>`'s `deserialize_reader`: a `u32` length, then that many bytes. -/
def deserializeBytes (rd : List UInt8) : Option (List UInt8 × List UInt8) := do
  let (len, rd) ← readLe 4 rd
  if len ≤ rd.length then some (rd.take len, rd.drop len) else none

def ValueRef.deserialize (rd : List UInt8) : Option (ValueRef × List UInt8) := do
  let (length, rd) ← readLe 4 rd
  let (hash, rd) ← deserializeHash rd
  return (⟨length.toUInt32, hash⟩, rd)

/-- The loop of `Children::deserialize_reader`: while bits are left in the bitmap, the lowest
one names the next child read, and is cleared. -/
def deserializeChildren.loop (bitmap : UInt16) (children : Children CryptoHash)
    (rd : List UInt8) : Option (Children CryptoHash × List UInt8) :=
  if bitmap = 0 then some (children, rd)
  else
    let idx := bitmap.toBitVec.ctz.toNat
    match deserializeHash rd with
    | some (child, rd) =>
        loop (bitmap &&& (bitmap - 1))
          (fun i => if i.val = idx then some child else children i) rd
    | none => none
termination_by bitmap.toNat
decreasing_by
  have hbitmap : bitmap ≠ 0 := by assumption
  rw [UInt16.toNat_and_sub_one hbitmap]
  exact Nat.and_sub_one_lt (UInt16.toNat_ne_zero hbitmap)

/-- `Children::deserialize_reader`. -/
def deserializeChildren (rd : List UInt8) : Option (Children CryptoHash × List UInt8) := do
  let (bitmap, rd) ← readLe 2 rd
  deserializeChildren.loop bitmap.toUInt16 (fun _ => none) rd

/-- `RawTrieNode`'s derived `deserialize_reader`: a `u8` variant index, then the variant's
fields. -/
def RawTrieNode.deserialize : List UInt8 → Option (RawTrieNode × List UInt8)
  | [] => none
  | tag :: rd =>
      match tag.toNat with
      | 0 => do
          let (key, rd) ← deserializeBytes rd
          let (value, rd) ← ValueRef.deserialize rd
          return (.leaf key value, rd)
      | 1 => do
          let (children, rd) ← deserializeChildren rd
          return (.branchNoValue children, rd)
      | 2 => do
          let (value, rd) ← ValueRef.deserialize rd
          let (children, rd) ← deserializeChildren rd
          return (.branchWithValue value children, rd)
      | 3 => do
          let (key, rd) ← deserializeBytes rd
          let (child, rd) ← deserializeHash rd
          return (.extension key child, rd)
      | _ => none

def RawTrieNodeWithSize.deserialize (rd : List UInt8) :
    Option (RawTrieNodeWithSize × List UInt8) := do
  let (node, rd) ← RawTrieNode.deserialize rd
  let (memoryUsage, rd) ← readLe 8 rd
  return (⟨node, memoryUsage⟩, rd)

/-- `BorshDeserialize::try_from_slice`: the node must take the whole input. -/
def RawTrieNodeWithSize.tryFromSlice (v : List UInt8) : Option RawTrieNodeWithSize :=
  match RawTrieNodeWithSize.deserialize v with
  | some (node, []) => some node
  | _ => none

/-- A node whose fields fit their Rust types: the keys Borsh's length prefix, and
`memory_usage` a `u64`. -/
structure RawTrieNodeWithSize.Fits (n : RawTrieNodeWithSize) : Prop where
  keys : n.node.KeysFit
  memoryUsage : n.memoryUsage < 2 ^ 64

instance : DecidablePred RawTrieNodeWithSize.Fits := fun n =>
  decidable_of_iff (n.node.KeysFit ∧ n.memoryUsage < 2 ^ 64)
    ⟨fun h => ⟨h.1, h.2⟩, fun h => ⟨h.keys, h.memoryUsage⟩⟩

/-! ## Each reader inverts its writer -/

@[simp] theorem length_leBytes (width n : ℕ) : (leBytes width n).length = width := by
  simp [leBytes]

/-- A stored leaf takes 49 bytes besides its key: the tag, the key's length, the value
reference and the memory usage. -/
theorem length_toBorsh_leaf (key : List UInt8) (ref : ValueRef) (memoryUsage : ℕ) :
    (RawTrieNodeWithSize.toBorsh ⟨.leaf key ref, memoryUsage⟩).length = key.length + 49 := by
  simp [RawTrieNodeWithSize.toBorsh, RawTrieNode.toBorsh, borshBytes, ValueRef.toBorsh,
    CryptoHash.toBorsh]
  omega

theorem leBytes_eq_encode (width n : ℕ) : leBytes width n = LittleEndian.encode width n := by
  induction width generalizing n with
  | zero => rfl
  | succ width ih =>
      have hbyte : (n / 256 ^ 0).toUInt8 = UInt8.ofNat (n % 256) := by
        apply UInt8.toNat_inj.mp
        simp
      have hrest : (List.range width).map (fun i => (n / 256 ^ (i + 1)).toUInt8) =
          leBytes width (n / 256) := by
        simp only [leBytes, pow_succ', Nat.div_div_eq_div_mul]
      rw [leBytes, List.range_succ_eq_map, List.map_cons, List.map_map, LittleEndian.encode,
        ← ih (n / 256), hbyte, ← hrest]
      rfl

theorem readLe_leBytes (width n : ℕ) (rest : List UInt8) :
    readLe width (leBytes width n ++ rest) = some (n % 256 ^ width, rest) := by
  have hlen := length_leBytes width n
  simp [readLe, leBytes_eq_encode, LittleEndian.decode_encode]

theorem readLe_eq_some {width v : ℕ} {rd rest : List UInt8}
    (h : readLe width rd = some (v, rest)) : v < 256 ^ width ∧ rd = leBytes width v ++ rest := by
  unfold readLe at h
  split_ifs at h with hlen
  simp only [Option.some.injEq, Prod.mk.injEq] at h
  obtain ⟨rfl, rfl⟩ := h
  have htake : (rd.take width).length = width := by simp [hlen]
  have hbytes := LittleEndian.encode_decode (rd.take width)
  have hlt := LittleEndian.decode_lt (rd.take width)
  rw [htake] at hbytes hlt
  refine ⟨hlt, ?_⟩
  rw [leBytes_eq_encode, hbytes, List.take_append_drop]

theorem deserializeHash_toBorsh (hash : CryptoHash) (rest : List UInt8) :
    deserializeHash (hash.toBorsh ++ rest) = some (hash, rest) := by
  have hlen : hash.toBorsh.length = 32 := by simp [CryptoHash.toBorsh]
  rw [deserializeHash, dif_pos (by simp [hlen])]
  simp only [List.take_left' hlen, List.drop_left' hlen]
  obtain ⟨⟨bytes, hbytes⟩⟩ := hash
  simp [CryptoHash.toBorsh, Vector.toList]

theorem deserializeHash_eq_some {rd rest : List UInt8} {hash : CryptoHash}
    (h : deserializeHash rd = some (hash, rest)) : rd = hash.toBorsh ++ rest := by
  unfold deserializeHash at h
  split_ifs at h with hlen
  simp only [Option.some.injEq, Prod.mk.injEq] at h
  obtain ⟨rfl, rfl⟩ := h
  simp [CryptoHash.toBorsh, Vector.toList]

theorem deserializeBytes_borshBytes {bytes : List UInt8} (h : bytes.length < 2 ^ 32)
    (rest : List UInt8) : deserializeBytes (borshBytes bytes ++ rest) = some (bytes, rest) := by
  have hmod : bytes.length % 256 ^ 4 = bytes.length := Nat.mod_eq_of_lt (by norm_num at h ⊢; omega)
  rw [deserializeBytes, borshBytes, List.append_assoc, readLe_leBytes, hmod]
  simp

theorem deserializeBytes_eq_some {rd rest bytes : List UInt8}
    (h : deserializeBytes rd = some (bytes, rest)) :
    bytes.length < 2 ^ 32 ∧ rd = borshBytes bytes ++ rest := by
  simp only [deserializeBytes, Option.bind_eq_bind, Option.bind_eq_some_iff] at h
  obtain ⟨⟨len, rd'⟩, hread, h⟩ := h
  obtain ⟨hlt, rfl⟩ := readLe_eq_some hread
  split_ifs at h with hle
  simp only [Option.some.injEq, Prod.mk.injEq] at h
  obtain ⟨rfl, rfl⟩ := h
  have hlen : (rd'.take len).length = len := by simp [hle]
  refine ⟨by rw [hlen]; norm_num at hlt ⊢; omega, ?_⟩
  rw [borshBytes, hlen, List.append_assoc, List.take_append_drop]

theorem ValueRef.deserialize_toBorsh (value : ValueRef) (rest : List UInt8) :
    ValueRef.deserialize (value.toBorsh ++ rest) = some (value, rest) := by
  simp [ValueRef.deserialize, ValueRef.toBorsh, readLe_leBytes, deserializeHash_toBorsh]

theorem ValueRef.deserialize_eq_some {rd rest : List UInt8} {value : ValueRef}
    (h : ValueRef.deserialize rd = some (value, rest)) : rd = value.toBorsh ++ rest := by
  simp only [ValueRef.deserialize, Option.bind_eq_bind, Option.bind_eq_some_iff] at h
  obtain ⟨⟨length, rd'⟩, hread, ⟨hash, rd''⟩, hhash, h⟩ := h
  dsimp only at hhash
  simp only [Option.pure_def, Option.some.injEq, Prod.mk.injEq] at h
  obtain ⟨rfl, rfl⟩ := h
  obtain ⟨hlt, rfl⟩ := readLe_eq_some hread
  have hlength : length.toUInt32.toNat = length := by
    simp only [Nat.toUInt32, UInt32.toNat_ofNat']
    exact Nat.mod_eq_of_lt (by norm_num at hlt ⊢; omega)
  rw [deserializeHash_eq_some hhash, ValueRef.toBorsh, hlength, List.append_assoc]

/-! ## The children's bitmap -/

/-- The `u16` bitmap `Children::serialize` writes, as the sum over the present children. -/
def childrenBitmap (children : Children CryptoHash) : ℕ :=
  (((List.finRange 16).filter fun i => (children i).isSome).map fun i => 2 ^ i.val).sum

/-- The indices whose bits are set in a bitmap, increasing. -/
def bitmapIndices (bitmap : UInt16) : List Nibble :=
  (List.finRange 16).filter fun i => bitmap.toNat.testBit i.val

/-- Reading one child for each index, in order: what the loop of `deserialize_reader` does. -/
def readChildrenAt : List Nibble → Children CryptoHash → List UInt8 →
    Option (Children CryptoHash × List UInt8)
  | [], children, rd => some (children, rd)
  | i :: indices, children, rd =>
      match deserializeHash rd with
      | some (child, rd) =>
          readChildrenAt indices (fun j => if j.val = i.val then some child else children j) rd
      | none => none

theorem childrenToBorsh_eq (children : Children CryptoHash) :
    childrenToBorsh children = leBytes 2 (childrenBitmap children) ++
      ((List.finRange 16).filterMap children).flatMap CryptoHash.toBorsh := by
  rw [childrenToBorsh, List.foldr_ite_add_eq_sum, List.flatMap_getD_map]
  rfl

theorem testBit_childrenBitmap (children : Children CryptoHash) (j : ℕ) :
    (childrenBitmap children).testBit j = true ↔ ∃ i : Nibble, i.val = j ∧ (children i).isSome := by
  have hsorted : (((List.finRange 16).filter fun i => (children i).isSome).map Fin.val).SortedLT := by
    rw [List.sortedLT_iff_pairwise, List.pairwise_map]
    exact ((List.pairwise_lt_finRange 16).filter _).imp Fin.lt_def.mp
  have hmap : (((List.finRange 16).filter fun i => (children i).isSome).map fun i => 2 ^ i.val) =
      (((List.finRange 16).filter fun i => (children i).isSome).map Fin.val).map (2 ^ ·) := by
    rw [List.map_map]
    rfl
  rw [childrenBitmap, hmap, Nat.testBit_sum_map_two_pow hsorted]
  simp only [List.mem_map, List.mem_filter, List.mem_finRange, true_and]
  constructor
  · rintro ⟨i, hi, rfl⟩
    exact ⟨i, rfl, hi⟩
  · rintro ⟨i, rfl, hi⟩
    exact ⟨i, hi, rfl⟩

theorem testBit_childrenBitmap_val (children : Children CryptoHash) (i : Nibble) :
    (childrenBitmap children).testBit i.val = (children i).isSome := by
  rw [Bool.eq_iff_iff, testBit_childrenBitmap]
  constructor
  · rintro ⟨i', hi', hsome⟩
    rwa [Fin.ext hi'] at hsome
  · intro hsome
    exact ⟨i, rfl, hsome⟩

example : (childrenToBorsh fun i => if i.val = 3 ∨ i.val = 5 then some CryptoHash.default
    else none).take 2 = [40, 0] := by
  decide

theorem childrenBitmap_lt (children : Children CryptoHash) : childrenBitmap children < 2 ^ 16 := by
  apply Nat.lt_pow_two_of_testBit
  intro j hj
  by_contra hbit
  obtain ⟨i, rfl, -⟩ := (testBit_childrenBitmap children j).mp (by simpa using hbit)
  exact absurd i.isLt (by omega)

theorem bitmapIndices_childrenBitmap (children : Children CryptoHash) :
    bitmapIndices (childrenBitmap children).toUInt16 =
      (List.finRange 16).filter fun i => (children i).isSome := by
  have hval : (childrenBitmap children).toUInt16.toNat = childrenBitmap children := by
    simp only [Nat.toUInt16, UInt16.toNat_ofNat']
    exact Nat.mod_eq_of_lt (childrenBitmap_lt children)
  rw [bitmapIndices, hval]
  exact List.filter_congr fun i _ => testBit_childrenBitmap_val children i

/-- One turn of the loop: the lowest set bit comes first, and the rest are those of the bitmap
with that bit cleared. -/
theorem bitmapIndices_eq_cons {bitmap : UInt16} (h : bitmap ≠ 0) :
    ∃ hidx : bitmap.toBitVec.ctz.toNat < 16,
      bitmapIndices bitmap = ⟨_, hidx⟩ :: bitmapIndices (bitmap &&& (bitmap - 1)) := by
  have hbv : bitmap.toBitVec ≠ 0#16 := by simpa [← UInt16.toBitVec_inj] using h
  obtain ⟨hidx, hk, hlow⟩ := BitVec.testBit_ctz hbv
  rw [UInt16.toNat_toBitVec bitmap] at hk hlow
  have hclear (i : ℕ) := Nat.testBit_and_sub_one hk hlow i
  rw [← UInt16.toNat_and_sub_one h] at hclear
  refine ⟨hidx, List.filter_eq_of_sortedLT (List.sortedLT_finRange 16) ?_
    (fun x _ => List.mem_finRange x) _ fun x _ => ?_⟩
  · -- every index still set after the clearing lies above the cleared one
    rw [List.sortedLT_iff_pairwise, List.pairwise_cons]
    refine ⟨fun j hj => ?_, ((List.pairwise_lt_finRange 16).filter _)⟩
    simp only [bitmapIndices, List.mem_filter, List.mem_finRange, true_and, hclear,
      Bool.and_eq_true, decide_eq_true_eq] at hj
    rw [Fin.lt_def]
    by_contra hle
    rcases lt_or_eq_of_le (not_lt.mp hle) with hlt | heq
    · rw [hlow j.val hlt] at hj
      exact Bool.false_ne_true hj.1
    · exact hj.2 heq
  · simp only [bitmapIndices, List.mem_cons, List.mem_filter, List.mem_finRange, true_and, hclear,
      Bool.and_eq_true, decide_eq_true_eq, Fin.ext_iff]
    by_cases hx : x.val = bitmap.toBitVec.ctz.toNat
    · simp [hx, hk]
    · simp [hx]

theorem loop_eq_readChildrenAt (bitmap : UInt16) (children : Children CryptoHash)
    (rd : List UInt8) :
    deserializeChildren.loop bitmap children rd =
      readChildrenAt (bitmapIndices bitmap) children rd := by
  induction bitmap, children, rd using deserializeChildren.loop.induct with
  | case1 children rd =>
      rw [deserializeChildren.loop]
      simp [bitmapIndices, readChildrenAt]
  | case2 bitmap children rd h idx child rd' hhash ih =>
      obtain ⟨hidx, hcons⟩ := bitmapIndices_eq_cons h
      simp only [dite_eq_ite] at ih
      rw [deserializeChildren.loop, if_neg h, hcons]
      simp only [hhash, readChildrenAt]
      exact ih
  | case3 bitmap children rd h hhash =>
      obtain ⟨hidx, hcons⟩ := bitmapIndices_eq_cons h
      rw [deserializeChildren.loop, if_neg h, hcons]
      simp only [hhash, readChildrenAt]

/-- Reading the present children of `l` back from their encodings, over any children read
before. -/
theorem readChildrenAt_filter (children : Children CryptoHash) (l : List Nibble)
    (acc : Children CryptoHash) (rest : List UInt8) :
    readChildrenAt (l.filter fun i => (children i).isSome) acc
        ((l.filterMap children).flatMap CryptoHash.toBorsh ++ rest) =
      some (fun j => if j ∈ l then (children j).or (acc j) else acc j, rest) := by
  induction l generalizing acc with
  | nil => simp [readChildrenAt]
  | cons i l ih =>
      cases hi : children i with
      | none =>
          simp only [List.filter_cons, hi, Option.isSome_none, Bool.false_eq_true, ↓reduceIte,
            List.filterMap_cons, ih]
          congr 2
          funext j
          by_cases hj : j = i
          · subst hj
            simp [hi]
          · simp [hj]
      | some child =>
          simp only [List.filter_cons, hi, Option.isSome_some, ↓reduceIte, List.filterMap_cons,
            List.flatMap_cons, List.append_assoc, readChildrenAt, deserializeHash_toBorsh, ih]
          congr 2
          funext j
          by_cases hj : j = i
          · subst hj
            simp [hi]
          · simp [hj, Fin.val_ne_of_ne hj]

/-- What a run of reads consumed: one child's encoding for each index, in order. -/
theorem readChildrenAt_eq_some {indices : List Nibble} (hnodup : indices.Nodup)
    {acc children : Children CryptoHash} {rd rest : List UInt8}
    (h : readChildrenAt indices acc rd = some (children, rest)) :
    (∀ j ∈ indices, (children j).isSome) ∧ (∀ j, j ∉ indices → children j = acc j) ∧
      rd = (indices.filterMap children).flatMap CryptoHash.toBorsh ++ rest := by
  induction indices generalizing acc rd with
  | nil =>
      simp only [readChildrenAt, Option.some.injEq, Prod.mk.injEq] at h
      obtain ⟨rfl, rfl⟩ := h
      simp
  | cons i indices ih =>
      obtain ⟨hi, hnodup⟩ := List.nodup_cons.mp hnodup
      simp only [readChildrenAt] at h
      split at h
      · next child rd' hhash =>
          obtain ⟨hsome, hacc, hrd⟩ := ih hnodup h
          -- `i` is read once, so it keeps the child read first
          have hchild : children i = some child := by
            rw [hacc i hi]
            simp
          refine ⟨?_, fun j hj => ?_, ?_⟩
          · intro j hj
            rcases List.mem_cons.mp hj with rfl | hj
            · rw [hchild]
              rfl
            · exact hsome j hj
          · have hji : j ≠ i := fun hji => hj (hji ▸ List.mem_cons_self)
            rw [hacc j fun hj' => hj (List.mem_cons_of_mem i hj')]
            simp [Fin.val_ne_of_ne hji]
          · rw [deserializeHash_eq_some hhash, hrd, List.filterMap_cons, hchild]
            simp
      · exact absurd h (by simp)

theorem deserializeChildren_childrenToBorsh (children : Children CryptoHash)
    (rest : List UInt8) :
    deserializeChildren (childrenToBorsh children ++ rest) = some (children, rest) := by
  have hread := readChildrenAt_filter children (List.finRange 16) (fun _ => none) rest
  simp only [List.mem_finRange, ↓reduceIte, Option.or_none] at hread
  have hlt : childrenBitmap children < 256 ^ 2 := by
    have := childrenBitmap_lt children
    norm_num at this ⊢
    exact this
  rw [childrenToBorsh_eq, List.append_assoc, deserializeChildren, readLe_leBytes,
    Nat.mod_eq_of_lt hlt]
  simp only [Option.bind_eq_bind, Option.bind_some]
  rw [loop_eq_readChildrenAt, bitmapIndices_childrenBitmap, hread]

theorem deserializeChildren_eq_some {rd rest : List UInt8} {children : Children CryptoHash}
    (h : deserializeChildren rd = some (children, rest)) :
    rd = childrenToBorsh children ++ rest := by
  simp only [deserializeChildren, Option.bind_eq_bind, Option.bind_eq_some_iff] at h
  obtain ⟨⟨bitmap, rd'⟩, hread, h⟩ := h
  dsimp only at h
  obtain ⟨hlt, rfl⟩ := readLe_eq_some hread
  have hval : bitmap.toUInt16.toNat = bitmap := by
    simp only [Nat.toUInt16, UInt16.toNat_ofNat']
    exact Nat.mod_eq_of_lt (by norm_num at hlt ⊢; omega)
  rw [loop_eq_readChildrenAt] at h
  obtain ⟨hsome, hnone, hrd⟩ :=
    readChildrenAt_eq_some ((List.nodup_finRange 16).filter _) h
  have hpresent (i : Nibble) : (children i).isSome = bitmap.testBit i.val := by
    by_cases hi : i ∈ bitmapIndices bitmap.toUInt16
    · have hbit := hi
      simp only [bitmapIndices, List.mem_filter, List.mem_finRange, true_and, hval] at hbit
      rw [hsome i hi, hbit]
    · have hbit := hi
      simp only [bitmapIndices, List.mem_filter, List.mem_finRange, true_and, hval,
        Bool.not_eq_true] at hbit
      rw [hnone i hi, hbit]
      rfl
  have hindices : (List.finRange 16).filter (fun i => (children i).isSome) =
      bitmapIndices bitmap.toUInt16 := by
    rw [bitmapIndices, hval]
    exact List.filter_congr fun i _ => hpresent i
  have hbitmap : childrenBitmap children = bitmap := by
    apply Nat.eq_of_testBit_eq
    intro j
    rw [Bool.eq_iff_iff, testBit_childrenBitmap]
    constructor
    · rintro ⟨i, rfl, hi⟩
      rwa [hpresent] at hi
    · intro hj
      have hj16 : j < 16 := by
        by_contra hge
        have hlt' : bitmap < 2 ^ j := lt_of_lt_of_le (by norm_num at hlt ⊢; exact hlt)
          (Nat.pow_le_pow_right (by norm_num) (not_lt.mp hge))
        rw [Nat.testBit_lt_two_pow hlt'] at hj
        exact Bool.false_ne_true hj
      exact ⟨⟨j, hj16⟩, rfl, by rw [hpresent]; exact hj⟩
  rw [childrenToBorsh_eq, hbitmap, ← List.filterMap_filter_isSome, hindices, hrd,
    List.append_assoc]
  rfl

/-! ## Nodes -/

theorem RawTrieNode.deserialize_toBorsh {node : RawTrieNode} (hkeys : node.KeysFit)
    (rest : List UInt8) : RawTrieNode.deserialize (node.toBorsh ++ rest) = some (node, rest) := by
  cases node with
  | leaf key value =>
      simp [RawTrieNode.toBorsh, RawTrieNode.deserialize, deserializeBytes_borshBytes hkeys,
        ValueRef.deserialize_toBorsh]
  | branchNoValue children =>
      simp [RawTrieNode.toBorsh, RawTrieNode.deserialize, deserializeChildren_childrenToBorsh]
  | branchWithValue value children =>
      simp [RawTrieNode.toBorsh, RawTrieNode.deserialize, ValueRef.deserialize_toBorsh,
        deserializeChildren_childrenToBorsh]
  | extension key child =>
      simp [RawTrieNode.toBorsh, RawTrieNode.deserialize, deserializeBytes_borshBytes hkeys,
        deserializeHash_toBorsh]

theorem RawTrieNode.deserialize_eq_some {rd rest : List UInt8} {node : RawTrieNode}
    (h : RawTrieNode.deserialize rd = some (node, rest)) :
    node.KeysFit ∧ rd = node.toBorsh ++ rest := by
  cases rd with
  | nil => simp [RawTrieNode.deserialize] at h
  | cons tag rd =>
      simp only [RawTrieNode.deserialize] at h
      split at h
      · next htag =>
          obtain rfl : tag = 0 := UInt8.toNat_inj.mp htag
          simp only [Option.bind_eq_bind, Option.bind_eq_some_iff, Option.pure_def,
            Option.some.injEq] at h
          obtain ⟨⟨key, rd₁⟩, hkey, ⟨value, rd₂⟩, hvalue, h⟩ := h
          dsimp only at hvalue h
          obtain ⟨rfl, rfl⟩ := Prod.mk.inj h
          obtain ⟨hlen, rfl⟩ := deserializeBytes_eq_some hkey
          rw [ValueRef.deserialize_eq_some hvalue]
          exact ⟨hlen, by simp [RawTrieNode.toBorsh]⟩
      · next htag =>
          obtain rfl : tag = 1 := UInt8.toNat_inj.mp htag
          simp only [Option.bind_eq_bind, Option.bind_eq_some_iff, Option.pure_def,
            Option.some.injEq] at h
          obtain ⟨⟨children, rd₁⟩, hchildren, h⟩ := h
          obtain ⟨rfl, rfl⟩ := Prod.mk.inj h
          rw [deserializeChildren_eq_some hchildren]
          exact ⟨trivial, by simp [RawTrieNode.toBorsh]⟩
      · next htag =>
          obtain rfl : tag = 2 := UInt8.toNat_inj.mp htag
          simp only [Option.bind_eq_bind, Option.bind_eq_some_iff, Option.pure_def,
            Option.some.injEq] at h
          obtain ⟨⟨value, rd₁⟩, hvalue, ⟨children, rd₂⟩, hchildren, h⟩ := h
          dsimp only at hchildren h
          obtain ⟨rfl, rfl⟩ := Prod.mk.inj h
          rw [ValueRef.deserialize_eq_some hvalue, deserializeChildren_eq_some hchildren]
          exact ⟨trivial, by simp [RawTrieNode.toBorsh]⟩
      · next htag =>
          obtain rfl : tag = 3 := UInt8.toNat_inj.mp htag
          simp only [Option.bind_eq_bind, Option.bind_eq_some_iff, Option.pure_def,
            Option.some.injEq] at h
          obtain ⟨⟨key, rd₁⟩, hkey, ⟨child, rd₂⟩, hchild, h⟩ := h
          dsimp only at hchild h
          obtain ⟨rfl, rfl⟩ := Prod.mk.inj h
          obtain ⟨hlen, rfl⟩ := deserializeBytes_eq_some hkey
          rw [deserializeHash_eq_some hchild]
          exact ⟨hlen, by simp [RawTrieNode.toBorsh]⟩
      · simp at h

theorem RawTrieNodeWithSize.deserialize_toBorsh {n : RawTrieNodeWithSize} (hn : n.Fits)
    (rest : List UInt8) :
    RawTrieNodeWithSize.deserialize (n.toBorsh ++ rest) = some (n, rest) := by
  have hmod : n.memoryUsage % 256 ^ 8 = n.memoryUsage :=
    Nat.mod_eq_of_lt (by norm_num; exact hn.memoryUsage)
  rw [RawTrieNodeWithSize.toBorsh, List.append_assoc, RawTrieNodeWithSize.deserialize,
    RawTrieNode.deserialize_toBorsh hn.keys]
  simp only [Option.bind_eq_bind, Option.bind_some, readLe_leBytes, hmod]
  rfl

theorem RawTrieNodeWithSize.deserialize_eq_some {rd rest : List UInt8} {n : RawTrieNodeWithSize}
    (h : RawTrieNodeWithSize.deserialize rd = some (n, rest)) :
    n.Fits ∧ rd = n.toBorsh ++ rest := by
  simp only [RawTrieNodeWithSize.deserialize, Option.bind_eq_bind, Option.bind_eq_some_iff,
    Option.pure_def, Option.some.injEq] at h
  obtain ⟨⟨node, rd₁⟩, hnode, ⟨memoryUsage, rd₂⟩, hmemory, h⟩ := h
  dsimp only at hmemory h
  obtain ⟨rfl, rfl⟩ := Prod.mk.inj h
  obtain ⟨hkeys, rfl⟩ := RawTrieNode.deserialize_eq_some hnode
  obtain ⟨hlt, rfl⟩ := readLe_eq_some hmemory
  exact ⟨⟨hkeys, by norm_num at hlt ⊢; exact hlt⟩, by simp [RawTrieNodeWithSize.toBorsh]⟩

/-- `try_from_slice` accepts exactly the encodings of nodes, each as its node. -/
theorem RawTrieNodeWithSize.tryFromSlice_eq_some_iff (v : List UInt8) (n : RawTrieNodeWithSize) :
    RawTrieNodeWithSize.tryFromSlice v = some n ↔ n.Fits ∧ v = n.toBorsh := by
  constructor
  · intro h
    unfold RawTrieNodeWithSize.tryFromSlice at h
    split at h
    · next node hdes =>
        obtain rfl := Option.some.inj h
        obtain ⟨hfits, hv⟩ := RawTrieNodeWithSize.deserialize_eq_some hdes
        exact ⟨hfits, by rw [hv, List.append_nil]⟩
    · cases h
  · rintro ⟨hfits, rfl⟩
    have hdes := RawTrieNodeWithSize.deserialize_toBorsh hfits []
    rw [List.append_nil] at hdes
    simp [RawTrieNodeWithSize.tryFromSlice, hdes]

theorem rawTrieNodeWithSize_borsh_canonical :
    (∀ (n : RawTrieNodeWithSize) (rest : List UInt8), n.Fits →
      RawTrieNodeWithSize.deserialize (n.toBorsh ++ rest) = some (n, rest)) ∧
    (∀ (b rest : List UInt8) (n : RawTrieNodeWithSize),
      RawTrieNodeWithSize.deserialize b = some (n, rest) → n.Fits ∧ b = n.toBorsh ++ rest) ∧
    ∀ children : Children CryptoHash, ∃ bitmap : ℕ, bitmap < 2 ^ 16 ∧
      (∀ i : Nibble, bitmap.testBit i.val = (children i).isSome) ∧
      childrenToBorsh children =
        leBytes 2 bitmap ++ ((List.finRange 16).filterMap children).flatMap CryptoHash.toBorsh :=
  ⟨fun _ rest hn => RawTrieNodeWithSize.deserialize_toBorsh hn rest,
    fun _ _ _ h => RawTrieNodeWithSize.deserialize_eq_some h,
    fun children => ⟨childrenBitmap children, childrenBitmap_lt children,
      testBit_childrenBitmap_val children, childrenToBorsh_eq children⟩⟩

theorem rawTrieNodeWithSize_borsh_canonical_leaf :
    RawTrieNodeWithSize.deserialize
        (RawTrieNodeWithSize.toBorsh ⟨.leaf [1, 2, 3] ⟨3, CryptoHash.default⟩, 42⟩ ++ [33]) =
      some (⟨.leaf [1, 2, 3] ⟨3, CryptoHash.default⟩, 42⟩, [33]) :=
  rawTrieNodeWithSize_borsh_canonical.1 _ _ (by decide)

end Nearcore.Trie
