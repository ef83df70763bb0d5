import Nearcore.LexOrder
import Nearcore.ShardLayout
import Nearcore.TrieNode

/-!
# Shard prefixes and flat-state keys

Flat storage keeps the state of every shard in one column, under keys that start with the eight
bytes of the shard's `ShardUId` (`to_bytes`: the version, then the shard id, each in four
little-endian bytes).  A shard's keys end below `ShardUId::next_shard_prefix` of those bytes,
whose loop is the big-endian increment of an eight-byte array.  `remove_all_deltas`
(`flat/store_helper.rs`) deletes that range from the two delta columns, and
`iter_flat_state_entries` reads a part of it from the `FlatState` column.

A column is an ordered map from byte strings, compared lexicographically as the database
compares keys.  A key of at least eight bytes starts with a shard's bytes exactly when it lies
in the shard's range; a shorter key may lie in the range without them
(`shortKey_in_shardRange`), and every key flat storage writes has at least eight bytes.
-/

namespace Nearcore

structure ShardUId where
  version : ShardVersion
  shardId : UInt32
  deriving DecidableEq, Repr

namespace ShardUId

/-- `to_bytes`. -/
def toBytes (self : ShardUId) : List UInt8 :=
  LittleEndian.encode 4 self.version.toNat ++ LittleEndian.encode 4 self.shardId.toNat

/-- The loop of `next_shard_prefix`, over the indices from the last byte down: a `0xFF` byte
becomes `0` and the carry moves on, another byte is incremented and the loop returns; past the
first byte it panics. -/
def nextShardPrefix.loop (result : List UInt8) : List ℕ → Option (List UInt8)
  | [] => none
  | i :: rest =>
      if result.getD i 0 = 255 then loop (result.set i 0) rest
      else some (result.set i (result.getD i 0 + 1))

/-- `next_shard_prefix`; `none` where it panics, on eight `0xFF` bytes. -/
def nextShardPrefix (shardUidBytes : List UInt8) : Option (List UInt8) :=
  nextShardPrefix.loop shardUidBytes (List.range 8).reverse

/-- `TryFrom<&[u8]> for ShardUId`. -/
def tryFrom (bytes : List UInt8) : Except String ShardUId :=
  if bytes.length ≠ 8 then .error "incorrect length for ShardUId"
  else .ok ⟨(LittleEndian.decode (bytes.take 4)).toUInt32,
    (LittleEndian.decode (bytes.drop 4)).toUInt32⟩

@[simp] theorem length_toBytes (self : ShardUId) : self.toBytes.length = 8 := by
  simp [toBytes]

theorem tryFrom_toBytes (self : ShardUId) : tryFrom self.toBytes = .ok self := by
  have hlen : (LittleEndian.encode 4 self.version.toNat).length = 4 := LittleEndian.length_encode 4 _
  simp [tryFrom, toBytes, List.take_left' hlen, List.drop_left' hlen, LittleEndian.decode_encode]

/-! ## `next_shard_prefix` is the big-endian successor -/

/-- The number a byte string spells, most significant byte first. -/
def byteValue (b : List UInt8) : ℕ := b.bigEndianValue 256 UInt8.toNat

theorem byteValue_replicate_max (k : ℕ) : byteValue (List.replicate k 255) + 1 = 256 ^ k := by
  induction k with
  | zero => rfl
  | succ k ih =>
      rw [byteValue] at ih ⊢
      have h255 : (255 : UInt8).toNat = 255 := rfl
      rw [List.replicate_succ, List.bigEndianValue, List.length_replicate, pow_succ, h255]
      omega

theorem byteValue_replicate_zero (k : ℕ) : byteValue (List.replicate k 0) = 0 := by
  induction k with
  | zero => rfl
  | succ k ih => simpa [byteValue, List.replicate_succ, List.bigEndianValue] using ih

theorem toNat_strictMono : StrictMono UInt8.toNat := fun _ _ h => h

theorem lt_iff_byteValue_lt {x y : List UInt8} (h : x.length = y.length) :
    x < y ↔ byteValue x < byteValue y :=
  List.lt_iff_bigEndianValue_lt toNat_strictMono UInt8.toNat_lt h

theorem toNat_add_one {a : UInt8} (ha : a ≠ 255) : (a + 1).toNat = a.toNat + 1 := by
  have hlt : a.toNat < 255 := by
    have hne : a.toNat ≠ 255 := fun h => ha (UInt8.toNat_inj.mp h)
    have := a.toNat_lt
    omega
  rw [UInt8.toNat_add]
  simp
  omega

/-- The loop over a run of `0xFF` bytes, from its last byte down, turns them into zeros. -/
theorem loop_carry (q z : List UInt8) (k : ℕ) (rest : List ℕ) :
    nextShardPrefix.loop (q ++ List.replicate k 255 ++ z)
        ((List.range' q.length k).reverse ++ rest) =
      nextShardPrefix.loop (q ++ List.replicate k 0 ++ z) rest := by
  induction k generalizing z with
  | zero => simp
  | succ k ih =>
      have hrun (c : UInt8) :
          q ++ List.replicate (k + 1) c ++ z = q ++ List.replicate k c ++ c :: z := by
        simp [List.replicate_succ']
      have hidx : (List.range' q.length (k + 1)).reverse =
          (q.length + k) :: (List.range' q.length k).reverse := by
        simp [List.range'_concat]
      have hget : (q ++ List.replicate k 255 ++ 255 :: z).getD (q.length + k) 0 = 255 := by
        simp [List.getD_eq_getElem?_getD]
      have hset : (q ++ List.replicate k 255 ++ 255 :: z).set (q.length + k) 0 =
          q ++ List.replicate k 255 ++ 0 :: z := by
        rw [List.set_append_right _ _ (by simp)]
        simp
      rw [hrun, hrun, hidx, List.cons_append]
      simp only [nextShardPrefix.loop, hget, ↓reduceIte, hset]
      exact ih (0 :: z)

theorem nextShardPrefix_append_cons_replicate {p : List UInt8} {a : UInt8} {k : ℕ}
    (hlen : p.length + 1 + k = 8) (ha : a ≠ 255) :
    nextShardPrefix (p ++ a :: List.replicate k 255) =
      some (p ++ (a + 1) :: List.replicate k 0) := by
  have hidx : (List.range 8).reverse =
      (List.range' (p.length + 1) k).reverse ++ p.length :: (List.range p.length).reverse := by
    rw [← hlen, List.range_eq_range', List.range_eq_range', ← List.range'_append_1,
      ← List.range'_append_1, List.reverse_append, List.reverse_append]
    simp
  have hcarry := loop_carry (p ++ [a]) [] k (p.length :: (List.range p.length).reverse)
  simp only [List.append_nil, List.length_append, List.length_singleton, List.append_assoc,
    List.singleton_append] at hcarry
  have hget : (p ++ a :: List.replicate k 0).getD p.length 0 = a := by
    simp [List.getD_eq_getElem?_getD]
  rw [nextShardPrefix, hidx, hcarry]
  simp only [nextShardPrefix.loop, hget, ha, ↓reduceIte]
  simp

example : nextShardPrefix [0, 0, 0, 0, 0, 0, 1, 255] = some [0, 0, 0, 0, 0, 0, 2, 0] := by decide

example : nextShardPrefix (List.replicate 8 255) = none := by decide

theorem byteValue_nextShardPrefix {b : List UInt8} (hlen : b.length = 8)
    (hb : b ≠ List.replicate 8 255) :
    ∃ c, nextShardPrefix b = some c ∧ c.length = 8 ∧ byteValue c = byteValue b + 1 := by
  rcases List.eq_replicate_or_eq_append_cons_replicate 255 b with hrun | ⟨p, a, k, ha, rfl⟩
  · rw [hlen] at hrun
    exact absurd hrun hb
  · simp only [List.length_append, List.length_cons, List.length_replicate] at hlen
    refine ⟨_, nextShardPrefix_append_cons_replicate (by omega) ha, by simp; omega, ?_⟩
    have hmax := byteValue_replicate_max k
    have hzero := byteValue_replicate_zero k
    simp only [byteValue, List.bigEndianValue_append, List.bigEndianValue, List.length_cons,
      List.length_replicate] at hmax hzero ⊢
    rw [hzero, toNat_add_one ha, pow_succ]
    ring_nf
    omega

/-- `next_shard_prefix` of eight bytes not all `0xFF` is the least eight-byte string above them. -/
theorem nextShardPrefix_spec {b : List UInt8} (hlen : b.length = 8)
    (hb : b ≠ List.replicate 8 255) :
    ∃ c, nextShardPrefix b = some c ∧ c.length = 8 ∧ b < c ∧
      ∀ x : List UInt8, x.length = 8 → (b < x ↔ c ≤ x) := by
  obtain ⟨c, hc, hclen, hval⟩ := byteValue_nextShardPrefix hlen hb
  refine ⟨c, hc, hclen, (lt_iff_byteValue_lt (hlen.trans hclen.symm)).mpr (by omega), ?_⟩
  intro x hx
  rw [lt_iff_byteValue_lt (hlen.trans hx.symm), ← not_lt,
    lt_iff_byteValue_lt (hx.trans hclen.symm)]
  omega

section Successor

variable {b c : List UInt8} (hlen : b.length = 8) (hclen : c.length = 8)
  (hsucc : ∀ y : List UInt8, y.length = 8 → (b < y ↔ c ≤ y))
include hlen hclen hsucc

/-- A key of at least eight bytes starts with `b` exactly when it lies from `b` on and below the
eight-byte successor `c` of `b`. -/
theorem prefix_iff_le_and_lt {x : List UInt8} (hx : 8 ≤ x.length) : b <+: x ↔ b ≤ x ∧ x < c := by
  have ht : (x.take 8).length = 8 := by simp [hx]
  rw [List.prefix_iff_eq_take, List.le_iff_le_take (hlen ▸ hx), List.lt_iff_take_lt (hclen ▸ hx),
    hlen, hclen, ← not_le, ← hsucc _ ht, not_lt, le_antisymm_iff]

/-- The keys from `b ++ f` on and below the successor of `b` are the keys `b ++ d` with
`f ≤ d`. -/
theorem append_le_and_lt_succ_iff {t d f : List UInt8} (ht : t.length = 8) :
    b ++ f ≤ t ++ d ∧ t ++ d < c ↔ t = b ∧ f ≤ d := by
  have hkey : 8 ≤ (t ++ d).length := by simp [ht]
  constructor
  · rintro ⟨hlo, hhi⟩
    have hnil : b ++ [] ≤ b ++ f := List.append_le_append_left_iff.mpr (not_lt.mp (List.not_lt_nil f))
    have hb : b ≤ t ++ d := le_trans (by simpa using hnil) hlo
    have htb : t = b := by
      have := (prefix_iff_le_and_lt hlen hclen hsucc hkey).mpr ⟨hb, hhi⟩
      rwa [List.prefix_iff_eq_take, hlen, List.take_left' ht, eq_comm] at this
    subst htb
    exact ⟨rfl, List.append_le_append_left_iff.mp hlo⟩
  · rintro ⟨rfl, hf⟩
    exact ⟨List.append_le_append_left_iff.mpr hf,
      ((prefix_iff_le_and_lt hlen hclen hsucc hkey).mp (List.prefix_append _ _)).2⟩

end Successor

end ShardUId

namespace Flat

open Trie (StorageError)

/-- `encode_flat_state_db_key`. -/
def encodeFlatStateDbKey (shardUid : ShardUId) (key : List UInt8) : List UInt8 :=
  shardUid.toBytes ++ key

/-- `decode_flat_state_db_key`; the messages of its errors, which print the key, are left out. -/
def decodeFlatStateDbKey (key : List UInt8) : Except StorageError (ShardUId × List UInt8) :=
  if key.length < 8 then .error .storageInconsistentState
  else
    match ShardUId.tryFrom (key.take 8) with
    | .ok shardUid => .ok (shardUid, key.drop 8)
    | .error _ => .error .storageInconsistentState

variable {V : Type}

/-- `StoreUpdate::delete_range` as the database applies it: the keys from `keyFrom` on and
below `keyTo` go. -/
def deleteRange (column : BTreeMap (List UInt8) V) (keyFrom keyTo : List UInt8) :
    BTreeMap (List UInt8) V :=
  column.retain fun key _ => !(decide (keyFrom ≤ key) && decide (key < keyTo))

/-- `remove_all_deltas`, on the `FlatStateChanges` and `FlatStateDeltaMetadata` columns; `none`
where `next_shard_prefix` panics. -/
def removeAllDeltas {W : Type} (changes : BTreeMap (List UInt8) V)
    (metadata : BTreeMap (List UInt8) W) (shardUid : ShardUId) :
    Option (BTreeMap (List UInt8) V × BTreeMap (List UInt8) W) := do
  let keyFrom := shardUid.toBytes
  let keyTo ← ShardUId.nextShardPrefix keyFrom
  return (deleteRange changes keyFrom keyTo, deleteRange metadata keyFrom keyTo)

/-- The item `iter_flat_state_entries` makes of an entry of the column; `none` where the
`unwrap` of the decoded key panics. -/
def flatStateItem (entry : List UInt8 × V) : Option (List UInt8 × V) :=
  match decodeFlatStateDbKey entry.1 with
  | .ok (_, trieKey) => some (trieKey, entry.2)
  | .error _ => none

/-- `iter_flat_state_entries` over the `FlatState` column; `none` where `next_shard_prefix` or
the `unwrap` of a decoded key panics. -/
def iterFlatStateEntries (shardUid : ShardUId) (column : BTreeMap (List UInt8) V)
    (keyFrom keyTo : Option (List UInt8)) : Option (List (List UInt8 × V)) := do
  let dbKeyFrom := match keyFrom with
    | some keyFrom => encodeFlatStateDbKey shardUid keyFrom
    | none => shardUid.toBytes
  let dbKeyTo ← match keyTo with
    | some keyTo => some (encodeFlatStateDbKey shardUid keyTo)
    | none => ShardUId.nextShardPrefix shardUid.toBytes
  (column.range dbKeyFrom (some dbKeyTo)).mapM flatStateItem

/-- Every key of the column holds a whole `ShardUId`, as every key flat storage writes does. -/
def ShardKeys (column : BTreeMap (List UInt8) V) : Prop :=
  ∀ key value, column.get? key = some value → 8 ≤ key.length

theorem decodeFlatStateDbKey_encodeFlatStateDbKey (shardUid : ShardUId) (key : List UInt8) :
    decodeFlatStateDbKey (encodeFlatStateDbKey shardUid key) = .ok (shardUid, key) := by
  have hlen := shardUid.length_toBytes
  simp [decodeFlatStateDbKey, encodeFlatStateDbKey, List.take_left' hlen, List.drop_left' hlen,
    ShardUId.tryFrom_toBytes]

theorem flatStateItem_of_le_length {key : List UInt8} (h : 8 ≤ key.length) (value : V) :
    flatStateItem (key, value) = some (key.drop 8, value) := by
  have htake : (key.take 8).length = 8 := by simp [h]
  simp [flatStateItem, decodeFlatStateDbKey, not_lt.mpr h, ShardUId.tryFrom, htake]

theorem get?_deleteRange (column : BTreeMap (List UInt8) V) (keyFrom keyTo key : List UInt8) :
    (deleteRange column keyFrom keyTo).get? key =
      if keyFrom ≤ key ∧ key < keyTo then none else column.get? key := by
  rw [deleteRange, BTreeMap.get?_retain]
  cases column.get? key with
  | none => simp
  | some value => by_cases h : keyFrom ≤ key ∧ key < keyTo <;> simp [Option.filter, h]

theorem get?_deleteRange_succ {column : BTreeMap (List UInt8) V} (hkeys : ShardKeys column)
    {b c : List UInt8} (hlen : b.length = 8) (hclen : c.length = 8)
    (hsucc : ∀ y : List UInt8, y.length = 8 → (b < y ↔ c ≤ y)) (key : List UInt8) :
    (deleteRange column b c).get? key = if b <+: key then none else column.get? key := by
  rw [get?_deleteRange]
  cases hget : column.get? key with
  | none => simp
  | some value => simp only [ShardUId.prefix_iff_le_and_lt hlen hclen hsucc (hkeys key value hget)]

theorem removeAllDeltas_eq {W : Type} (changes : BTreeMap (List UInt8) V)
    (metadata : BTreeMap (List UInt8) W) {shardUid : ShardUId} {c : List UInt8}
    (hc : ShardUId.nextShardPrefix shardUid.toBytes = some c) :
    removeAllDeltas changes metadata shardUid =
      some (deleteRange changes shardUid.toBytes c, deleteRange metadata shardUid.toBytes c) := by
  simp only [removeAllDeltas, hc]
  rfl

/-- Reading the window from `b ++ f` below `hi` of a column whose keys all hold a `ShardUId`
gives, in increasing order, the entries under `b` with `b` cut off, when the window's keys of
at least eight bytes are those `b ++ d` with `f ≤ d` and `P d`. -/
theorem mapM_flatStateItem_range {column : BTreeMap (List UInt8) V} (hkeys : ShardKeys column)
    {b f hi : List UInt8} {P : List UInt8 → Prop} (hlen : b.length = 8)
    (hwindow : ∀ t d : List UInt8, t.length = 8 →
      (b ++ f ≤ t ++ d ∧ t ++ d < hi ↔ t = b ∧ f ≤ d ∧ P d)) :
    ∃ items, (column.range (b ++ f) (some hi)).mapM flatStateItem = some items ∧
      (∀ k value, (k, value) ∈ items ↔ column.get? (b ++ k) = some value ∧ f ≤ k ∧ P k) ∧
      items.Pairwise (fun e e' => e.1 < e'.1) := by
  have hinRange (key : List UInt8) :
      BTreeMap.inRange (b ++ f) (some hi) key = true ↔ b ++ f ≤ key ∧ key < hi := by
    simp [BTreeMap.inRange]
  have hunder : ∀ e ∈ column.range (b ++ f) (some hi),
      column.get? e.1 = some e.2 ∧ e.1 = b ++ e.1.drop 8 ∧ f ≤ e.1.drop 8 ∧ P (e.1.drop 8) := by
    intro e he
    obtain ⟨hget, hin⟩ := (BTreeMap.mem_range_iff _ _ _ e).mp he
    have hkey := hkeys e.1 e.2 hget
    rw [hinRange, ← List.take_append_drop 8 e.1, hwindow _ _ (by simp [hkey])] at hin
    obtain ⟨htake, hf, hP⟩ := hin
    refine ⟨hget, ?_, hf, hP⟩
    conv_lhs => rw [← List.take_append_drop 8 e.1, htake]
  refine ⟨(column.range (b ++ f) (some hi)).map fun e => (e.1.drop 8, e.2),
    List.mapM_option_eq_some_map fun e he => ?_, fun k value => ?_, ?_⟩
  · have hkey := hkeys e.1 e.2 (hunder e he).1
    exact flatStateItem_of_le_length hkey e.2
  · simp only [List.mem_map, Prod.mk.injEq]
    constructor
    · rintro ⟨e, he, rfl, rfl⟩
      obtain ⟨hget, hkey, hf, hP⟩ := hunder e he
      rw [← hkey]
      exact ⟨hget, hf, hP⟩
    · rintro ⟨hget, hf, hP⟩
      have hin : b ++ f ≤ b ++ k ∧ b ++ k < hi := (hwindow b k hlen).mpr ⟨rfl, hf, hP⟩
      refine ⟨(b ++ k, value), (BTreeMap.mem_range_iff _ _ _ _).mpr ⟨hget, (hinRange _).mpr hin⟩,
        List.drop_left' hlen, rfl⟩
  · rw [List.pairwise_map]
    refine (BTreeMap.range_sorted column (b ++ f) (some hi)).imp_of_mem fun he he' hlt => ?_
    rw [(hunder _ he).2.1, (hunder _ he').2.1] at hlt
    exact List.append_lt_append_left_iff.mp hlt

/-- `remove_all_deltas` deletes exactly the keys under the shard's bytes. -/
theorem removeAllDeltas_spec {W : Type} {changes : BTreeMap (List UInt8) V}
    {metadata : BTreeMap (List UInt8) W} (hchanges : ShardKeys changes)
    (hmetadata : ShardKeys metadata) {shardUid : ShardUId}
    (hshard : shardUid.toBytes ≠ List.replicate 8 255) :
    ∃ changes' metadata', removeAllDeltas changes metadata shardUid = some (changes', metadata') ∧
      (∀ key, changes'.get? key = if shardUid.toBytes <+: key then none else changes.get? key) ∧
      ∀ key, metadata'.get? key = if shardUid.toBytes <+: key then none else metadata.get? key := by
  obtain ⟨c, hc, hclen, -, hsucc⟩ := ShardUId.nextShardPrefix_spec shardUid.length_toBytes hshard
  exact ⟨_, _, removeAllDeltas_eq changes metadata hc,
    get?_deleteRange_succ hchanges shardUid.length_toBytes hclen hsucc,
    get?_deleteRange_succ hmetadata shardUid.length_toBytes hclen hsucc⟩

/-- `iter_flat_state_entries` yields, in increasing order, the shard's entries between the
bounds. -/
theorem iterFlatStateEntries_spec {column : BTreeMap (List UInt8) V} (hkeys : ShardKeys column)
    (shardUid : ShardUId) (keyFrom keyTo : Option (List UInt8))
    (hto : keyTo.isSome ∨ shardUid.toBytes ≠ List.replicate 8 255) :
    ∃ items, iterFlatStateEntries shardUid column keyFrom keyTo = some items ∧
      (∀ k value, (k, value) ∈ items ↔
        column.get? (encodeFlatStateDbKey shardUid k) = some value ∧
          (∀ f, keyFrom = some f → f ≤ k) ∧ ∀ t, keyTo = some t → k < t) ∧
      items.Pairwise (fun e e' => e.1 < e'.1) := by
  have hlen := shardUid.length_toBytes
  have hfrom (k : List UInt8) : (∀ f, keyFrom = some f → f ≤ k) ↔ keyFrom.getD [] ≤ k := by
    cases keyFrom with
    | none => simpa using not_lt.mp (List.not_lt_nil k)
    | some f => simp
  obtain ⟨hi, hiter, hwindow⟩ : ∃ hi, iterFlatStateEntries shardUid column keyFrom keyTo =
      (column.range (shardUid.toBytes ++ keyFrom.getD []) (some hi)).mapM flatStateItem ∧
      ∀ t d : List UInt8, t.length = 8 →
        (shardUid.toBytes ++ keyFrom.getD [] ≤ t ++ d ∧ t ++ d < hi ↔
          t = shardUid.toBytes ∧ keyFrom.getD [] ≤ d ∧ ∀ t', keyTo = some t' → d < t') := by
    cases keyTo with
    | some keyTo =>
        refine ⟨shardUid.toBytes ++ keyTo, by cases keyFrom <;> simp [iterFlatStateEntries,
          encodeFlatStateDbKey], fun t d ht => ?_⟩
        rw [List.append_le_and_lt_append_iff (ht.trans hlen.symm)]
        simp
    | none =>
        obtain ⟨c, hc, hclen, -, hsucc⟩ := ShardUId.nextShardPrefix_spec hlen (by simpa using hto)
        refine ⟨c, by cases keyFrom <;> simp [iterFlatStateEntries, encodeFlatStateDbKey, hc],
          fun t d ht => ?_⟩
        rw [ShardUId.append_le_and_lt_succ_iff hlen hclen hsucc ht]
        simp
  obtain ⟨items, hitems, hmem, hsorted⟩ := mapM_flatStateItem_range hkeys hlen hwindow
  refine ⟨items, hiter.trans hitems, fun k value => ?_, hsorted⟩
  rw [hmem, hfrom, encodeFlatStateDbKey]

theorem shardKeyRange_spec {W : Type} :
    (∀ b : List UInt8, b.length = 8 → b ≠ List.replicate 8 255 →
      ∃ c, ShardUId.nextShardPrefix b = some c ∧ c.length = 8 ∧ b < c ∧
        (∀ y : List UInt8, y.length = 8 → (b < y ↔ c ≤ y)) ∧
        ∀ x : List UInt8, 8 ≤ x.length → (b <+: x ↔ b ≤ x ∧ x < c)) ∧
    (∀ shardUid : ShardUId, ShardUId.tryFrom shardUid.toBytes = .ok shardUid) ∧
    (∀ shardUid key, decodeFlatStateDbKey (encodeFlatStateDbKey shardUid key) = .ok (shardUid, key)) ∧
    (∀ (changes : BTreeMap (List UInt8) V) (metadata : BTreeMap (List UInt8) W)
        (shardUid : ShardUId),
      ShardKeys changes → ShardKeys metadata → shardUid.toBytes ≠ List.replicate 8 255 →
      ∃ changes' metadata', removeAllDeltas changes metadata shardUid = some (changes', metadata') ∧
        (∀ key, changes'.get? key = if shardUid.toBytes <+: key then none else changes.get? key) ∧
        ∀ key, metadata'.get? key = if shardUid.toBytes <+: key then none else metadata.get? key) ∧
    ∀ (column : BTreeMap (List UInt8) V) (shardUid : ShardUId) (keyFrom keyTo : Option (List UInt8)),
      ShardKeys column → (keyTo.isSome ∨ shardUid.toBytes ≠ List.replicate 8 255) →
      ∃ items, iterFlatStateEntries shardUid column keyFrom keyTo = some items ∧
        (∀ k value, (k, value) ∈ items ↔
          column.get? (encodeFlatStateDbKey shardUid k) = some value ∧
            (∀ f, keyFrom = some f → f ≤ k) ∧ ∀ t, keyTo = some t → k < t) ∧
        items.Pairwise (fun e e' => e.1 < e'.1) := by
  refine ⟨fun b hlen hb => ?_, ShardUId.tryFrom_toBytes, decodeFlatStateDbKey_encodeFlatStateDbKey,
    fun _ _ _ hchanges hmetadata hshard => removeAllDeltas_spec hchanges hmetadata hshard,
    fun _ shardUid keyFrom keyTo hkeys hto => iterFlatStateEntries_spec hkeys shardUid keyFrom keyTo hto⟩
  obtain ⟨c, hc, hclen, hlt, hsucc⟩ := ShardUId.nextShardPrefix_spec hlen hb
  exact ⟨c, hc, hclen, hlt, hsucc, fun x hx => ShardUId.prefix_iff_le_and_lt hlen hclen hsucc hx⟩

/-- One key of each of the shards `⟨0, 0⟩`, `⟨0, 1⟩` and `⟨0, 2⟩`. -/
def threeShardColumn : BTreeMap (List UInt8) Unit :=
  ((BTreeMap.empty.insert (encodeFlatStateDbKey ⟨0, 0⟩ [5]) ()).insert
    (encodeFlatStateDbKey ⟨0, 1⟩ [7]) ()).insert (encodeFlatStateDbKey ⟨0, 2⟩ [9]) ()

/-- The middle shard of `threeShardColumn`: its range, its key's round trip, the removal of
its deltas from the column and the iteration over all its entries. -/
theorem shardKeyRange_spec_threeShards :
    (∃ c, ShardUId.nextShardPrefix (ShardUId.toBytes ⟨0, 1⟩) = some c ∧ c.length = 8 ∧
      ShardUId.toBytes ⟨0, 1⟩ < c ∧
      (∀ y : List UInt8, y.length = 8 → (ShardUId.toBytes ⟨0, 1⟩ < y ↔ c ≤ y)) ∧
      ∀ x : List UInt8, 8 ≤ x.length →
        (ShardUId.toBytes ⟨0, 1⟩ <+: x ↔ ShardUId.toBytes ⟨0, 1⟩ ≤ x ∧ x < c)) ∧
    ShardUId.tryFrom (ShardUId.toBytes ⟨0, 1⟩) = .ok ⟨0, 1⟩ ∧
    decodeFlatStateDbKey (encodeFlatStateDbKey ⟨0, 1⟩ [7]) = .ok (⟨0, 1⟩, [7]) ∧
    (∃ changes' metadata', removeAllDeltas threeShardColumn threeShardColumn ⟨0, 1⟩ =
        some (changes', metadata') ∧
      (∀ key, changes'.get? key =
        if ShardUId.toBytes ⟨0, 1⟩ <+: key then none else threeShardColumn.get? key) ∧
      ∀ key, metadata'.get? key =
        if ShardUId.toBytes ⟨0, 1⟩ <+: key then none else threeShardColumn.get? key) ∧
    ∃ items, iterFlatStateEntries ⟨0, 1⟩ threeShardColumn none none = some items ∧
      (∀ k value, (k, value) ∈ items ↔
        threeShardColumn.get? (encodeFlatStateDbKey ⟨0, 1⟩ k) = some value ∧
          (∀ f, none = some f → f ≤ k) ∧ ∀ t, none = some t → k < t) ∧
      items.Pairwise (fun e e' => e.1 < e'.1) := by
  have hentries : threeShardColumn.entries = [(encodeFlatStateDbKey ⟨0, 0⟩ [5], ()),
      (encodeFlatStateDbKey ⟨0, 1⟩ [7], ()), (encodeFlatStateDbKey ⟨0, 2⟩ [9], ())] := by
    decide
  have hkeys : ShardKeys threeShardColumn := by
    intro key value h
    rw [BTreeMap.get?_eq_some_iff, hentries] at h
    simp only [List.mem_cons, Prod.mk.injEq, List.not_mem_nil, or_false] at h
    rcases h with ⟨rfl, -⟩ | ⟨rfl, -⟩ | ⟨rfl, -⟩ <;> decide
  obtain ⟨hrange, htryFrom, hdecode, hremove, hiter⟩ := @shardKeyRange_spec Unit Unit
  exact ⟨hrange _ (by decide) (by decide), htryFrom _, hdecode _ _,
    hremove _ _ _ hkeys hkeys (by decide), hiter _ _ _ _ hkeys (.inr (by decide))⟩

/-- A key shorter than a `ShardUId` can lie in a shard's range without starting with the shard's
bytes: shard id `0xFF000000`, whose last byte carries, and a seven-byte key. -/
theorem shortKey_in_shardRange :
    ShardUId.nextShardPrefix (ShardUId.toBytes ⟨0, 0xFF000000⟩) = some [0, 0, 0, 0, 0, 0, 1, 0] ∧
      ShardUId.toBytes ⟨0, 0xFF000000⟩ ≤ [0, 0, 0, 0, 0, 0, 1] ∧
      ([0, 0, 0, 0, 0, 0, 1] : List UInt8) < [0, 0, 0, 0, 0, 0, 1, 0] ∧
      ¬ ShardUId.toBytes ⟨0, 0xFF000000⟩ <+: [0, 0, 0, 0, 0, 0, 1] := by
  decide

end Flat

end Nearcore
