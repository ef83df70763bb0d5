import Nearcore.PathMap
import Mathlib.Data.List.GetD
import Mathlib.Tactic

/-!
# Nibble slices and the hex-prefix key encoding

`NibbleSlice` views a byte string as a sequence of nibbles, high half of each
byte first, starting `offset` nibbles in.  Trie nodes store their keys in the
hex-prefix encoding: a first byte holding an odd-length flag (`0x10`), a leaf
flag (`0x20`) and, for an odd length, the first nibble; then the remaining
nibbles two to a byte.  `from_encoded` reads such a key back as a view that
starts one or two nibbles into it.

Every operation here is stated once more on `toList`, the list of nibbles a
slice stands for: `mid` drops, `common_prefix` is the common-prefix length,
`starts_with` is the prefix order, and each encoder is `encode_nibbles` of the
right list.  The trie modules then reason about nibble lists only.
-/

namespace Nearcore.Trie

/-- A nibble; the source keeps nibbles in `u8` values below 16. -/
abbrev Nibble := Fin 16

/-- `b >> 4`. -/
def hiNibble (b : UInt8) : Nibble :=
  ⟨(b >>> 4).toNat, by
    rw [UInt8.toNat_shiftRight, Nat.shiftRight_eq_div_pow]
    have := b.toNat_lt
    simp only [UInt8.reduceToNat, Nat.reduceMod, Nat.reducePow]
    omega⟩

/-- `b & 15`. -/
def loNibble (b : UInt8) : Nibble :=
  ⟨(b &&& 15).toNat, by
    rw [UInt8.toNat_and]
    exact lt_of_le_of_lt Nat.and_le_right (by decide)⟩

/-- The byte `hi * 16 + lo`. -/
def nibbleByte (hi lo : Nibble) : UInt8 := hi.val.toUInt8 * 16 + lo.val.toUInt8

theorem hiNibble_nibbleByte : ∀ hi lo : Nibble, hiNibble (nibbleByte hi lo) = hi := by
  decide

/-- The byte `idx << 4` of `fix_nodes` carries `idx` in its high nibble. -/
theorem hiNibble_shiftLeft_four : ∀ idx : Nibble, hiNibble (idx.val.toUInt8 <<< 4) = idx := by
  decide

theorem loNibble_nibbleByte : ∀ hi lo : Nibble, loNibble (nibbleByte hi lo) = lo := by
  decide

/-- The nibbles of a byte string, the high half of every byte first. -/
def bytesToNibbles (data : List UInt8) : List Nibble :=
  data.flatMap fun b => [hiNibble b, loNibble b]

@[simp] theorem bytesToNibbles_nil : bytesToNibbles [] = [] := rfl

@[simp] theorem bytesToNibbles_cons (b : UInt8) (data : List UInt8) :
    bytesToNibbles (b :: data) = hiNibble b :: loNibble b :: bytesToNibbles data := rfl

@[simp] theorem length_bytesToNibbles (data : List UInt8) :
    (bytesToNibbles data).length = 2 * data.length := by
  induction data with
  | nil => rfl
  | cons b data ih =>
      simp only [bytesToNibbles_cons, List.length_cons, ih]
      omega

theorem getElem_bytesToNibbles (data : List UInt8) (j : ℕ) (hj : j < (bytesToNibbles data).length) :
    (bytesToNibbles data)[j] =
      if j % 2 = 1 then loNibble (data.getD (j / 2) 0) else hiNibble (data.getD (j / 2) 0) := by
  induction data generalizing j with
  | nil => simp at hj
  | cons b data ih =>
      match j with
      | 0 => simp
      | 1 => simp
      | j + 2 =>
          have hj' : j < (bytesToNibbles data).length := by
            simp only [length_bytesToNibbles, List.length_cons] at hj ⊢
            omega
          simp only [bytesToNibbles_cons, List.getElem_cons_succ]
          rw [ih j hj']
          have hdiv : (j + 2) / 2 = j / 2 + 1 := by omega
          have hmod : (j + 2) % 2 = j % 2 := by omega
          simp [hdiv, hmod]

theorem nibbleByte_hiNibble_loNibble (b : UInt8) : nibbleByte (hiNibble b) (loNibble b) = b := by
  apply UInt8.toNat_inj.mp
  have hb := b.toNat_lt
  have hand : b.toNat &&& 15 = b.toNat % 16 := Nat.and_two_pow_sub_one_eq_mod b.toNat 4
  simp [nibbleByte, hiNibble, loNibble, UInt8.toNat_add, UInt8.toNat_mul, Nat.shiftRight_eq_div_pow,
    hand]
  omega

theorem bytesToNibbles_injective : Function.Injective bytesToNibbles := by
  intro l₁ l₂ h
  induction l₁ generalizing l₂ with
  | nil =>
      cases l₂ with
      | nil => rfl
      | cons b l₂ => simp at h
  | cons b₁ l₁ ih =>
      cases l₂ with
      | nil => simp at h
      | cons b₂ l₂ =>
          simp only [bytesToNibbles_cons, List.cons.injEq] at h
          obtain ⟨hhi, hlo, hrest⟩ := h
          rw [← nibbleByte_hiNibble_loNibble b₁, ← nibbleByte_hiNibble_loNibble b₂, hhi, hlo, ih hrest]

/-- A view of `data` as nibbles, from nibble `offset` on. -/
structure NibbleSlice where
  data : List UInt8
  offset : ℕ
deriving DecidableEq, Repr

namespace NibbleSlice

/-- `NibbleSlice::new`: all nibbles of `data`. -/
def new (data : List UInt8) : NibbleSlice := ⟨data, 0⟩

/-- `len`; the `usize` subtraction never goes below zero for the slices the trie builds. -/
def len (s : NibbleSlice) : ℕ := s.data.length * 2 - s.offset

def isEmpty (s : NibbleSlice) : Bool := s.len == 0

/-- `at`, where the index may run past the data; the source panics there. -/
def at? (s : NibbleSlice) (i : ℕ) : Option Nibble :=
  s.data[(s.offset + i) / 2]?.map fun b =>
    if (s.offset + i) &&& 1 == 1 then loNibble b else hiNibble b

/-- `at`: the nibble at position `i`, for the callers that index below `len`. -/
def «at» (s : NibbleSlice) (i : ℕ) : Nibble := (s.at? i).getD 0

def mid (s : NibbleSlice) (i : ℕ) : NibbleSlice := ⟨s.data, s.offset + i⟩

/-- `common_prefix`: the first position where the two slices differ, or the
shorter length. -/
def commonPrefix (s them : NibbleSlice) : ℕ :=
  let n := min s.len them.len
  ((List.range n).find? fun i => s.at i != them.at i).getD n

def startsWith (s them : NibbleSlice) : Bool := s.commonPrefix them == them.len

/-- `PartialEq for NibbleSlice`: same length and one starts with the other. -/
instance : BEq NibbleSlice where
  beq s them := s.len == them.len && s.startsWith them

/-- `PartialOrd for NibbleSlice`: the first position where the slices differ decides,
and the lengths where one starts with the other. -/
def partialCmp (s them : NibbleSlice) : Option Ordering :=
  match (List.range (min s.len them.len)).find? fun i => s.at i != them.at i with
  | some i => some (compare (s.at i) (them.at i))
  | none => some (compare s.len them.len)

/-- `from_encoded`: the view of a hex-prefix key past its flags, and the leaf
flag.  An empty key panics on `data[0]`. -/
def fromEncoded (data : List UInt8) : Option (NibbleSlice × Bool) :=
  match data with
  | [] => none
  | b :: _ => some (⟨data, if b &&& 16 == 16 then 1 else 2⟩, b &&& 32 == 32)

/-- The nibbles the slice stands for. -/
def toList (s : NibbleSlice) : List Nibble := (List.range s.len).map s.at

/-! ## The hex-prefix encoders

`encode_nibbles`, `encoded` and `encoded_leftmost` run one loop over `l`
nibbles read by `get`; `merge_encoded` runs its own copy of it. -/

/-- The loop of the encoders: the flag byte, then nibbles `i`, `i + 1` as one
byte for `i = l % 2, l % 2 + 2, …` below `l`. -/
def encodeWith (l : ℕ) (get : ℕ → Nibble) (isLeaf : Bool) : List UInt8 :=
  ((if l % 2 == 1 then 0x10 + (get 0).val.toUInt8 else 0) + if isLeaf then 0x20 else 0) ::
    pairs (l % 2)
where
  pairs (i : ℕ) : List UInt8 :=
    if i < l then nibbleByte (get i) (get (i + 1)) :: pairs (i + 2) else []
  termination_by l - i

/-- `NibbleSlice::encode_nibbles`. -/
def encodeNibbles (nibbles : List Nibble) (isLeaf : Bool) : List UInt8 :=
  encodeWith nibbles.length (fun i => nibbles.getD i 0) isLeaf

def encoded (s : NibbleSlice) (isLeaf : Bool) : List UInt8 := encodeWith s.len s.at isLeaf

def encodedLeftmost (s : NibbleSlice) (n : ℕ) (isLeaf : Bool) : List UInt8 :=
  encodeWith (min s.len n) s.at isLeaf

/-- `merge_encoded`: the encoding of `self` followed by `other`, in a loop of
its own.  Its flag byte reads `self.at(0)` even when `self` is empty, which
panics; and its second nibble has a fallback of `0` past the end, which the
loop never reaches. -/
def mergeEncoded (s other : NibbleSlice) (isLeaf : Bool) : Option (List UInt8) := do
  let l := s.len + other.len
  let get : ℕ → Nibble := fun i => if i < s.len then s.at i else other.at (i - s.len)
  let first ← if l % 2 == 1 then (s.at? 0).map fun n => 0x10 + n.val.toUInt8 else some 0
  return (first + if isLeaf then 0x20 else 0) :: pairs l get (l % 2)
where
  pairs (l : ℕ) (get : ℕ → Nibble) (i : ℕ) : List UInt8 :=
    if i < l then
      nibbleByte (get i) (if i + 1 < l then get (i + 1) else 0) :: pairs l get (i + 2)
    else []
  termination_by l - i

/-! ## Slices as nibble lists -/

@[simp] theorem length_toList (s : NibbleSlice) : s.toList.length = s.len := by
  simp [toList]

theorem getElem_toList (s : NibbleSlice) (i : ℕ) (h : i < s.toList.length) :
    s.toList[i] = s.at i := by
  simp [toList]

theorem isEmpty_iff (s : NibbleSlice) : s.isEmpty = true ↔ s.toList = [] := by
  simp [isEmpty, ← List.length_eq_zero_iff]

theorem at_eq_getElem_bytesToNibbles (s : NibbleSlice) (i : ℕ)
    (h : s.offset + i < (bytesToNibbles s.data).length) :
    s.at i = (bytesToNibbles s.data)[s.offset + i] := by
  have hlt : (s.offset + i) / 2 < s.data.length := by
    simp only [length_bytesToNibbles] at h
    omega
  rw [getElem_bytesToNibbles, «at», at?, List.getElem?_eq_getElem hlt, Nat.and_one_is_mod]
  by_cases hodd : (s.offset + i) % 2 = 1 <;> simp [hodd, List.getElem?_eq_getElem hlt]

theorem toList_eq_drop (s : NibbleSlice) (hs : s.offset ≤ 2 * s.data.length) :
    s.toList = (bytesToNibbles s.data).drop s.offset := by
  apply List.ext_getElem
  · simp only [length_toList, len, List.length_drop, length_bytesToNibbles]
    omega
  · intro i h₁ h₂
    rw [getElem_toList, List.getElem_drop, at_eq_getElem_bytesToNibbles]

@[simp] theorem toList_new (data : List UInt8) : (new data).toList = bytesToNibbles data := by
  rw [toList_eq_drop _ (by simp [new])]
  rfl

@[simp] theorem len_new (data : List UInt8) : (new data).len = 2 * data.length := by
  rw [← length_toList, toList_new, length_bytesToNibbles]

@[simp] theorem len_mid (s : NibbleSlice) (i : ℕ) : (s.mid i).len = s.len - i := by
  simp only [len, mid]
  omega

@[simp] theorem toList_mid (s : NibbleSlice) (i : ℕ) : (s.mid i).toList = s.toList.drop i := by
  apply List.ext_getElem
  · simp
  · intro j h₁ h₂
    simp only [getElem_toList, List.getElem_drop]
    simp only [«at», at?, mid, Nat.add_assoc]

/-- The loops of `common_prefix` and `partial_cmp` compare the slices' nibble lists. -/
theorem find?_at_bne (s them : NibbleSlice) :
    (List.range (min s.len them.len)).find? (fun i => s.at i != them.at i) =
      (List.range (min s.toList.length them.toList.length)).find?
        (fun i => s.toList[i]? != them.toList[i]?) := by
  have hpred : ∀ i ∈ List.range (min s.len them.len),
      (s.at i != them.at i) = (s.toList[i]? != them.toList[i]?) := by
    intro i hi
    have hi' := List.mem_range.mp hi
    rw [List.getElem?_eq_getElem (by simp; omega), List.getElem?_eq_getElem (by simp; omega),
      getElem_toList, getElem_toList]
    simp [bne]
  rw [List.find?_congr hpred, length_toList, length_toList]

theorem commonPrefix_eq (s them : NibbleSlice) :
    s.commonPrefix them = List.commonPrefixLength s.toList them.toList := by
  have hloop := List.find?_range_getD_eq_commonPrefixLength s.toList them.toList
  rw [← find?_at_bne] at hloop
  simp only [length_toList] at hloop
  rw [← hloop]
  rfl

/-- `partial_cmp` is the lexicographic order of the nibble lists. -/
theorem partialCmp_eq (s them : NibbleSlice) :
    s.partialCmp them = some (compare s.toList them.toList) := by
  have hc₁ := List.commonPrefixLength_le_left s.toList them.toList
  have hc₂ := List.commonPrefixLength_le_right s.toList them.toList
  unfold partialCmp
  rw [find?_at_bne, List.find?_range_eq_commonPrefixLength]
  split_ifs with hlt
  · rw [List.compare_eq_compare_getElem _ _ (by omega) (by omega), getElem_toList,
      getElem_toList]
  · rw [List.compare_eq_compare_length _ _ (by omega), length_toList, length_toList]

theorem toList_eq_cons (s : NibbleSlice) (hs : 0 < s.len) :
    s.toList = s.at 0 :: (s.mid 1).toList := by
  have h0 : 0 < s.toList.length := by simpa using hs
  rw [toList_mid, ← getElem_toList s 0 h0, List.getElem_cons_drop, List.drop_zero]

theorem at?_eq_some (s : NibbleSlice) {i : ℕ} (hi : i < s.len) : s.at? i = some (s.at i) := by
  have hlt : (s.offset + i) / 2 < s.data.length := by
    simp only [len] at hi
    omega
  simp [«at», at?, List.getElem?_eq_getElem hlt]

theorem isSome_at?_iff (s : NibbleSlice) (i : ℕ) : (s.at? i).isSome ↔ i < s.len := by
  unfold at? len
  simp only [Option.isSome_map]
  simp only [Option.isSome_iff_ne_none, ne_eq, List.getElem?_eq_none_iff, not_le]
  omega

theorem commonPrefix_le_len (s them : NibbleSlice) : s.commonPrefix them ≤ s.len := by
  rw [commonPrefix_eq, ← length_toList]
  exact List.commonPrefixLength_le_left _ _

theorem commonPrefix_le_len_right (s them : NibbleSlice) : s.commonPrefix them ≤ them.len := by
  rw [commonPrefix_eq, ← length_toList them]
  exact List.commonPrefixLength_le_right _ _

theorem isEmpty_eq_false_iff (s : NibbleSlice) : s.isEmpty = false ↔ 0 < s.len := by
  simp [isEmpty, Nat.pos_iff_ne_zero]

theorem startsWith_iff (s them : NibbleSlice) :
    s.startsWith them = true ↔ them.toList <+: s.toList := by
  rw [startsWith, beq_iff_eq, commonPrefix_eq, ← length_toList them,
    List.commonPrefixLength_eq_length_right_iff]

theorem toList_eq_take_append_mid (s : NibbleSlice) (n : ℕ) :
    s.toList = s.toList.take n ++ (s.mid n).toList := by
  rw [toList_mid, List.take_append_drop]

theorem toList_eq_append_mid {s them : NibbleSlice} (h : them.toList <+: s.toList) :
    s.toList = them.toList ++ (s.mid them.len).toList := by
  obtain ⟨rest, hrest⟩ := h
  rw [toList_mid, ← hrest, ← length_toList, List.drop_left]

theorem take_toList_commonPrefix (s them : NibbleSlice) :
    s.toList.take (s.commonPrefix them) = them.toList.take (s.commonPrefix them) := by
  rw [commonPrefix_eq]
  exact List.take_commonPrefixLength _ _

theorem prefix_of_commonPrefix_eq {s them : NibbleSlice} (h : s.commonPrefix them = them.len) :
    them.toList <+: s.toList := by
  rw [← startsWith_iff, startsWith, h, beq_self_eq_true]

theorem prefix_of_commonPrefix_eq_left {s them : NibbleSlice} (h : s.commonPrefix them = s.len) :
    s.toList <+: them.toList := by
  rw [commonPrefix_eq, List.commonPrefixLength_comm, ← length_toList s,
    List.commonPrefixLength_eq_length_right_iff] at h
  exact h

theorem toList_eq_of_commonPrefix_eq {s them : NibbleSlice} (h₁ : s.commonPrefix them = them.len)
    (h₂ : s.commonPrefix them = s.len) : s.toList = them.toList := by
  have hlen : them.toList.length = s.toList.length := by simp only [length_toList]; omega
  exact ((prefix_of_commonPrefix_eq h₁).eq_of_length hlen).symm

theorem beq_iff (s them : NibbleSlice) : (s == them) = true ↔ s.toList = them.toList := by
  show (s.len == them.len && s.startsWith them) = true ↔ _
  rw [Bool.and_eq_true, beq_iff_eq, startsWith_iff]
  constructor
  · intro h
    have hlen : them.toList.length = s.toList.length := by simp [h.1]
    exact (h.2.eq_of_length hlen).symm
  · intro h
    refine ⟨?_, h ▸ List.prefix_refl _⟩
    rw [← length_toList, h, length_toList]

/-! ## The encoders are `encode_nibbles` -/

theorem encodeWith.pairs_congr {l : ℕ} {get get' : ℕ → Nibble} (hget : ∀ j < l, get j = get' j)
    (i : ℕ) (hi : (l - i) % 2 = 0) : encodeWith.pairs l get i = encodeWith.pairs l get' i := by
  induction i using encodeWith.pairs.induct l with
  | case1 i hlt ih =>
      -- `i` and `l` have the same parity, so the second nibble is below `l` as well
      conv_lhs => rw [encodeWith.pairs, if_pos hlt]
      conv_rhs => rw [encodeWith.pairs, if_pos hlt]
      rw [hget i hlt, hget (i + 1) (by omega), ih (by omega)]
  | case2 i hge =>
      conv_lhs => rw [encodeWith.pairs, if_neg hge]
      conv_rhs => rw [encodeWith.pairs, if_neg hge]

theorem encodeWith_congr {l : ℕ} {get get' : ℕ → Nibble} (hget : ∀ j < l, get j = get' j)
    (isLeaf : Bool) : encodeWith l get isLeaf = encodeWith l get' isLeaf := by
  unfold encodeWith
  rw [encodeWith.pairs_congr hget (l % 2) (by omega)]
  by_cases hodd : l % 2 = 1
  · simp [hodd, hget 0 (by omega)]
  · simp [hodd]

theorem encoded_eq (s : NibbleSlice) (isLeaf : Bool) :
    s.encoded isLeaf = encodeNibbles s.toList isLeaf := by
  unfold encoded encodeNibbles
  rw [length_toList]
  apply encodeWith_congr
  intro j hj
  have hj' : j < s.toList.length := by simpa using hj
  rw [List.getD_eq_getElem _ _ hj', getElem_toList]

theorem encodedLeftmost_eq (s : NibbleSlice) (n : ℕ) (isLeaf : Bool) :
    s.encodedLeftmost n isLeaf = encodeNibbles (s.toList.take n) isLeaf := by
  unfold encodedLeftmost encodeNibbles
  rw [List.length_take, length_toList, min_comm]
  apply encodeWith_congr
  intro j hj
  have hj' : j < (s.toList.take n).length := by simp; omega
  rw [List.getD_eq_getElem _ _ hj', List.getElem_take, getElem_toList]

/-- The fallback of `merge_encoded`'s second nibble is never taken. -/
theorem mergeEncoded.pairs_eq {l : ℕ} (get : ℕ → Nibble) (i : ℕ) (hi : (l - i) % 2 = 0) :
    mergeEncoded.pairs l get i = encodeWith.pairs l get i := by
  induction i using mergeEncoded.pairs.induct l with
  | case1 i hlt ih =>
      conv_lhs => rw [mergeEncoded.pairs, if_pos hlt, if_pos (show i + 1 < l by omega)]
      conv_rhs => rw [encodeWith.pairs, if_pos hlt]
      rw [ih (by omega)]
  | case2 i hge =>
      conv_lhs => rw [mergeEncoded.pairs, if_neg hge]
      conv_rhs => rw [encodeWith.pairs, if_neg hge]

/-- `merge_encoded` encodes the two slices one after the other, unless the
merged length is odd and `self` is empty, where it panics. -/
theorem mergeEncoded_eq (s other : NibbleSlice) (isLeaf : Bool)
    (h : s.len ≠ 0 ∨ (s.len + other.len) % 2 = 0) :
    s.mergeEncoded other isLeaf = some (encodeNibbles (s.toList ++ other.toList) isLeaf) := by
  have hget : ∀ j < s.len + other.len,
      (if j < s.len then s.at j else other.at (j - s.len)) =
        (s.toList ++ other.toList).getD j 0 := by
    intro j hj
    have hj' : j < (s.toList ++ other.toList).length := by simp; omega
    rw [List.getD_eq_getElem _ _ hj']
    by_cases hjs : j < s.len
    · rw [if_pos hjs, List.getElem_append_left (by simpa using hjs), getElem_toList]
    · rw [if_neg hjs, List.getElem_append_right (by simpa using hjs), getElem_toList,
        length_toList]
  unfold mergeEncoded encodeNibbles
  dsimp only
  rw [mergeEncoded.pairs_eq _ _ (by omega), List.length_append, length_toList, length_toList,
    ← encodeWith_congr hget]
  unfold encodeWith
  by_cases hodd : (s.len + other.len) % 2 = 1
  · have hs : 0 < s.len := by omega
    simp [hodd, at?_eq_some s hs, hs]
  · simp [hodd]

/-! ## Reading an encoded key back -/

theorem flagByte_odd : ∀ (n : Nibble) (isLeaf : Bool),
    let b := 0x10 + n.val.toUInt8 + if isLeaf then 0x20 else 0
    (b &&& 16 == 16) = true ∧ (b &&& 32 == 32) = isLeaf ∧ loNibble b = n := by
  decide

theorem flagByte_even : ∀ isLeaf : Bool,
    let b : UInt8 := 0 + if isLeaf then 0x20 else 0
    (b &&& 16 == 16) = false ∧ (b &&& 32 == 32) = isLeaf := by
  decide

theorem bytesToNibbles_encodeWith_pairs (l : ℕ) (get : ℕ → Nibble) (i : ℕ)
    (hi : (l - i) % 2 = 0) :
    bytesToNibbles (encodeWith.pairs l get i) = (List.range' i (l - i)).map get := by
  fun_induction encodeWith.pairs l get i with
  | case1 i hlt ih =>
      have hlen : l - i = (l - (i + 2)) + 1 + 1 := by omega
      rw [bytesToNibbles_cons, ih (by omega), hlen, List.range'_succ, List.range'_succ]
      simp [hiNibble_nibbleByte, loNibble_nibbleByte, Nat.add_assoc]
  | case2 i hge =>
      have hlen : l - i = 0 := by omega
      simp [hlen]

theorem length_encodeWith_pairs (l : ℕ) (get : ℕ → Nibble) (i : ℕ) (hi : (l - i) % 2 = 0) :
    (encodeWith.pairs l get i).length = (l - i) / 2 := by
  fun_induction encodeWith.pairs l get i with
  | case1 i hlt ih =>
      rw [List.length_cons, ih (by omega)]
      omega
  | case2 i hge => simp; omega

theorem length_encodeNibbles (nibbles : List Nibble) (isLeaf : Bool) :
    (encodeNibbles nibbles isLeaf).length = nibbles.length / 2 + 1 := by
  unfold encodeNibbles encodeWith
  rw [List.length_cons, length_encodeWith_pairs _ _ _ (by omega)]
  omega

theorem fromEncoded_cons (b : UInt8) (rest : List UInt8) :
    fromEncoded (b :: rest) =
      some (⟨b :: rest, if b &&& 16 == 16 then 1 else 2⟩, b &&& 32 == 32) := rfl

/-- `from_encoded` reads back what `encode_nibbles` wrote: the nibbles and the
leaf flag. -/
theorem fromEncoded_encodeNibbles (nibbles : List Nibble) (isLeaf : Bool) :
    (fromEncoded (encodeNibbles nibbles isLeaf)).map (fun p => (p.1.toList, p.2)) =
      some (nibbles, isLeaf) := by
  have hall : (List.range nibbles.length).map (fun i => nibbles.getD i 0) = nibbles := by
    apply List.ext_getElem
    · simp
    · intro j h₁ h₂
      simp [List.getElem?_eq_getElem h₂]
  unfold encodeNibbles encodeWith
  by_cases hodd : nibbles.length % 2 = 1
  · -- the flag byte carries the first nibble, and the view starts one nibble in
    obtain ⟨hflag, hleaf, hlo⟩ := flagByte_odd (nibbles.getD 0 0) isLeaf
    have hfirst : (if nibbles.length % 2 == 1 then 0x10 + (nibbles.getD 0 0).val.toUInt8 else 0) =
        0x10 + (nibbles.getD 0 0).val.toUInt8 := by simp [hodd]
    rw [hfirst, fromEncoded_cons, hflag, hleaf, if_pos rfl]
    simp only [Option.map_some, Option.some.injEq, Prod.mk.injEq, and_true]
    rw [toList_eq_drop _ (by simp only [List.length_cons]; omega), bytesToNibbles_cons,
      List.drop_one, List.tail_cons, hodd,
      bytesToNibbles_encodeWith_pairs _ _ _ (by omega), hlo]
    conv_rhs => rw [← hall]
    obtain ⟨m, hm⟩ : ∃ m, nibbles.length = m + 1 := ⟨nibbles.length - 1, by omega⟩
    rw [hm, List.range_succ_eq_map, List.map_cons, List.range'_eq_map_range, List.map_map,
      List.map_map]
    congr 2
    funext j
    simp [Nat.add_comm]
  · -- the flag byte holds flags only, and the view starts two nibbles in
    obtain ⟨hflag, hleaf⟩ := flagByte_even isLeaf
    have heven : nibbles.length % 2 = 0 := by omega
    have hfirst : (if nibbles.length % 2 == 1 then 0x10 + (nibbles.getD 0 0).val.toUInt8 else 0) =
        (0 : UInt8) := by simp [hodd]
    rw [hfirst, fromEncoded_cons, hflag, hleaf]
    simp only [Option.map_some, Option.some.injEq, Prod.mk.injEq, and_true, Bool.false_eq_true,
      if_false]
    rw [toList_eq_drop _ (by simp only [List.length_cons]; omega), bytesToNibbles_cons]
    simp only [List.drop_succ_cons, List.drop_zero]
    rw [heven, bytesToNibbles_encodeWith_pairs _ _ _ (by omega), Nat.sub_zero,
      ← List.range_eq_range', hall]

theorem exists_fromEncoded_encodeNibbles (nibbles : List Nibble) (isLeaf : Bool) :
    ∃ s, fromEncoded (encodeNibbles nibbles isLeaf) = some (s, isLeaf) ∧ s.toList = nibbles := by
  obtain ⟨⟨s, b⟩, hs, hmap⟩ := Option.map_eq_some_iff.mp (fromEncoded_encodeNibbles nibbles isLeaf)
  simp only [Prod.mk.injEq] at hmap
  obtain ⟨hlist, rfl⟩ := hmap
  exact ⟨s, hs, hlist⟩

/-- An empty `self` with an odd total length reads `self.at(0)` past its data: `merge_encoded`
panics. -/
theorem mergeEncoded_eq_none {s other : NibbleSlice} (hlen : s.len = 0)
    (hodd : (s.len + other.len) % 2 = 1) (isLeaf : Bool) : s.mergeEncoded other isLeaf = none := by
  have hat : s.at? 0 = none := by
    rw [← Option.not_isSome_iff_eq_none, isSome_at?_iff]
    omega
  unfold mergeEncoded
  simp [hodd, hat]

/-- Whatever `merge_encoded` returns encodes the two slices one after the other. -/
theorem eq_encodeNibbles_of_mergeEncoded_eq_some {s other : NibbleSlice} {isLeaf : Bool}
    {key : List UInt8} (h : s.mergeEncoded other isLeaf = some key) :
    key = encodeNibbles (s.toList ++ other.toList) isLeaf := by
  by_cases hc : s.len ≠ 0 ∨ (s.len + other.len) % 2 = 0
  · rw [mergeEncoded_eq _ _ _ hc, Option.some.injEq] at h
    exact h.symm
  · rw [mergeEncoded_eq_none (by omega) (by omega)] at h
    cases h

/-! ### How long the keys are

A hex-prefix key of `n` nibbles takes `n / 2 + 1` bytes, whichever encoder
wrote it, and a key that decodes was that long. -/

theorem length_encoded (s : NibbleSlice) (isLeaf : Bool) : (s.encoded isLeaf).length = s.len / 2 + 1 := by
  rw [encoded_eq, length_encodeNibbles, length_toList]

theorem length_encodedLeftmost (s : NibbleSlice) (n : ℕ) (isLeaf : Bool) :
    (s.encodedLeftmost n isLeaf).length = min n s.len / 2 + 1 := by
  rw [encodedLeftmost_eq, length_encodeNibbles, List.length_take, length_toList]

theorem length_of_mergeEncoded_eq_some {s other : NibbleSlice} {isLeaf : Bool} {key : List UInt8}
    (h : s.mergeEncoded other isLeaf = some key) : key.length = (s.len + other.len) / 2 + 1 := by
  rw [eq_encodeNibbles_of_mergeEncoded_eq_some h, length_encodeNibbles, List.length_append,
    length_toList, length_toList]

theorem length_of_fromEncoded_eq_some {key : List UInt8} {s : NibbleSlice} {isLeaf : Bool}
    (h : fromEncoded key = some (s, isLeaf)) : key.length = s.len / 2 + 1 := by
  cases key with
  | nil => cases h
  | cons b rest =>
      rw [fromEncoded_cons, Option.some.injEq, Prod.mk.injEq] at h
      obtain ⟨rfl, -⟩ := h
      simp only [len, List.length_cons]
      split <;> omega

end NibbleSlice

end Nearcore.Trie
