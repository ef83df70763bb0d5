import Nearcore.BTreeMap
import Nearcore.LittleEndian
import Nearcore.Primitives
import Mathlib.Data.String.Basic

/-!
# Shard layouts

`ShardLayout` of `near-primitives` (`shard_layout.rs`): a `V0` layout spreads
accounts over its shards by a hash, a `V1` layout gives every fixed account
and its sub-accounts a shard of its own and splits the other accounts into
ranges at its boundary accounts.  `ShardLayout::v1` also records, for a layout
that comes from splitting the shards of an earlier one, the parent of every
shard, built from the split map by `insert`s into a `HashMap` under two
`assert!`s and read back with `to_parent_shard_map[&shard_id]`.

Shard ids and shard counts are `u64` in the source and natural numbers here:
they are lengths of lists and indices into them.  The hash of `V0` (SHA-256,
from outside the repository) is a parameter.  Accounts compare as strings,
which is the order of `AccountId`.

`get_parent_shard_id` returns `InvalidShardIdError` only for ids above the
number of shards: at `num_shards` itself it reads past `to_parent_shard_map`
and panics (`v1_parents`).
-/

namespace Nearcore

abbrev ShardVersion := UInt32

structure ShardLayoutV0 where
  numShards : ℕ
  version : ShardVersion
  deriving DecidableEq, Repr

structure ShardLayoutV1 where
  fixedShards : List AccountId
  boundaryAccounts : List AccountId
  shardsSplitMap : Option (List (List ℕ))
  toParentShardMap : Option (List ℕ)
  version : ShardVersion
  deriving DecidableEq, Repr

inductive ShardLayout where
  | V0 (layout : ShardLayoutV0)
  | V1 (layout : ShardLayoutV1)
  deriving DecidableEq, Repr

inductive ShardLayoutError where
  | invalidShardIdError (shardId : ℕ)
  deriving DecidableEq, Repr

namespace ShardLayout

def v0 (numShards : ℕ) (version : ShardVersion) : ShardLayout := .V0 ⟨numShards, version⟩

/-- One turn of the inner loop of `ShardLayout::v1`: the `insert` and its two
`assert!`s; `none` where one fails. -/
def insertSplitShard (numShards : ℕ) (parentShardId : ℕ)
    (toParentShardMap : BTreeMap ℕ ℕ) (shardId : ℕ) :
    Option (BTreeMap ℕ ℕ) :=
  match toParentShardMap.get? shardId with
  | some _ => none
  | none => if shardId < numShards then some (toParentShardMap.insert shardId parentShardId) else none

/-- The parent of every shard, as `ShardLayout::v1` builds it; `none` where it
panics, on an `assert!` or on a shard missing from the map. -/
def toParentShardMapOf (numShards : ℕ) (shardsSplitMap : List (List ℕ)) :
    Option (List ℕ) := do
  let toParentShardMap ← shardsSplitMap.zipIdx.foldlM
    (fun toParentShardMap (shardIds, parentShardId) =>
      shardIds.foldlM (insertSplitShard numShards parentShardId) toParentShardMap)
    BTreeMap.empty
  (List.range numShards).mapM toParentShardMap.get?

/-- `ShardLayout::v1`; `none` where it panics. -/
def v1 (fixedShards boundaryAccounts : List AccountId) (shardsSplitMap : Option (List (List ℕ)))
    (version : ShardVersion) : Option ShardLayout :=
  match shardsSplitMap with
  | some splitMap =>
      (toParentShardMapOf (fixedShards.length + boundaryAccounts.length + 1) splitMap).map
        fun toParentShardMap =>
          .V1 ⟨fixedShards, boundaryAccounts, shardsSplitMap, some toParentShardMap, version⟩
  | none => some (.V1 ⟨fixedShards, boundaryAccounts, none, none, version⟩)

/-- `ShardLayout::get_simple_nightshade_layout`, the layout of mainnet. -/
def getSimpleNightshadeLayout : Option ShardLayout :=
  v1 [] ["aurora", "aurora-0", "kkuuue2akv_1630967379.near"] (some [[0, 1, 2, 3]]) 1

def numShards : ShardLayout → ℕ
  | .V0 v0 => v0.numShards
  | .V1 v1 => v1.fixedShards.length + v1.boundaryAccounts.length + 1

def getSplitShardIds (self : ShardLayout) (parentShardId : ℕ) : Option (List ℕ) :=
  match self with
  | .V0 _ => none
  | .V1 v1 =>
      match v1.shardsSplitMap with
      | some shardsSplitMap => shardsSplitMap[parentShardId]?
      | none => none

/-- `ShardLayout::get_parent_shard_id`; `none` where it panics. -/
def getParentShardId (self : ShardLayout) (shardId : ℕ) :
    Option (Except ShardLayoutError ℕ) :=
  if shardId > self.numShards then some (.error (.invalidShardIdError shardId))
  else
    match self with
    | .V0 _ => none
    | .V1 v1 =>
        match v1.toParentShardMap with
        | some toParentShardMap => toParentShardMap[shardId]?.map .ok
        | none => none

end ShardLayout

/-- `str::strip_suffix`. -/
def stripSuffix (s suffix : List Char) : Option (List Char) :=
  if suffix <:+ s then some (s.take (s.length - suffix.length)) else none

/-- `is_top_level_account`: `account` is `top_account` or one of its sub-accounts. -/
def isTopLevelAccount (topAccount account : AccountId) : Bool :=
  match stripSuffix account.toList topAccount.toList with
  | none => false
  | some rest => rest.isEmpty || rest.getLast? == some '.'

/-- The loop of `account_id_to_shard_id` over `boundary_accounts`: one more
shard for every boundary account before the first one above the account. -/
def boundaryShardId (accountId : AccountId) (shardId : ℕ) : List AccountId → ℕ
  | [] => shardId
  | boundaryAccount :: boundaryAccounts =>
      -- `boundary_account.cmp(account_id) == Greater`
      if accountId < boundaryAccount then shardId
      else boundaryShardId accountId (shardId + 1) boundaryAccounts

/-- `account_id_to_shard_id`; `none` where it panics, on `% 0` in a `V0` layout
without shards. -/
def accountIdToShardId (hashBytes : List UInt8 → CryptoHash) (accountId : AccountId) :
    ShardLayout → Option ℕ
  | .V0 ⟨numShards, _⟩ =>
      let hash := hashBytes accountId.toUTF8.toList
      if numShards = 0 then none
      else some (LittleEndian.decode (hash.bytes.toList.take 8) % numShards)
  | .V1 ⟨fixedShards, boundaryAccounts, _, _, _⟩ =>
      match fixedShards.findIdx? (isTopLevelAccount · accountId) with
      | some shardId => some shardId
      | none => some (boundaryShardId accountId fixedShards.length boundaryAccounts)

/-! ## Lists read through `Option` -/

section MapM

variable {α β : Type} {f : α → Option β}

theorem mapM_isSome_iff (l : List α) : (l.mapM f).isSome ↔ ∀ a ∈ l, (f a).isSome := by
  induction l with
  | nil => simp
  | cons a l ih =>
      rw [List.mapM_cons, List.forall_mem_cons, ← ih]
      cases f a <;> cases l.mapM f <;> simp

theorem mapM_eq_some {l : List α} {m : List β} (h : l.mapM f = some m) :
    m.length = l.length ∧ ∀ i (hi : i < l.length), m[i]? = f l[i] := by
  induction l generalizing m with
  | nil =>
      cases h
      simp
  | cons a l ih =>
      rw [List.mapM_cons] at h
      cases hf : f a with
      | none => simp [hf] at h
      | some b =>
          cases hl : l.mapM f with
          | none => simp [hf, hl] at h
          | some bs =>
              simp only [hf, hl, Option.bind_eq_bind, Option.bind_some, Option.pure_def,
                Option.some.injEq] at h
              subst h
              obtain ⟨hlen, hget⟩ := ih hl
              refine ⟨by simp [hlen], fun i hi => ?_⟩
              cases i with
              | zero => simp [hf]
              | succ i => simpa using hget i (by simpa using hi)

end MapM

/-! ## The parent map of `ShardLayout::v1` -/

namespace ShardLayout

/-- The `(shard_id, parent_shard_id)` pairs in the order the loops of
`ShardLayout::v1` insert them, the parents counted from `k`. -/
def splitPairs (shardsSplitMap : List (List ℕ)) (k : ℕ) : List (ℕ × ℕ) :=
  (shardsSplitMap.zipIdx k).flatMap fun entry => entry.1.map (·, entry.2)

/-- The two loops of `ShardLayout::v1` insert the pairs one after the other. -/
theorem foldlM_zipIdx_eq (numShards : ℕ) (shardsSplitMap : List (List ℕ)) (k : ℕ)
    (toParentShardMap : BTreeMap ℕ ℕ) :
    (shardsSplitMap.zipIdx k).foldlM
        (fun toParentShardMap (shardIds, parentShardId) =>
          shardIds.foldlM (insertSplitShard numShards parentShardId) toParentShardMap)
        toParentShardMap =
      (splitPairs shardsSplitMap k).foldlM
        (fun toParentShardMap entry => insertSplitShard numShards entry.2 toParentShardMap entry.1)
        toParentShardMap := by
  induction shardsSplitMap generalizing k toParentShardMap with
  | nil => rfl
  | cons shardIds shardsSplitMap ih =>
      simp only [splitPairs, List.zipIdx_cons, List.flatMap_cons, List.foldlM_cons, List.foldlM_append,
        List.foldlM_map] at ih ⊢
      congr 1
      funext toParentShardMap'
      exact ih (k + 1) toParentShardMap'

theorem mem_splitPairs {shardsSplitMap : List (List ℕ)} {shardId parentShardId : ℕ} :
    (shardId, parentShardId) ∈ splitPairs shardsSplitMap 0 ↔
      ∃ shardIds, shardsSplitMap[parentShardId]? = some shardIds ∧ shardId ∈ shardIds := by
  simp only [splitPairs, List.mem_flatMap, List.mem_map, Prod.mk.injEq]
  constructor
  · rintro ⟨⟨shardIds, parent⟩, hmem, shardId, hid, rfl, rfl⟩
    exact ⟨shardIds, List.mem_zipIdx_iff_getElem?.mp hmem, hid⟩
  · rintro ⟨shardIds, hget, hid⟩
    exact ⟨(shardIds, parentShardId), List.mem_zipIdx_iff_getElem?.mpr hget, shardId, hid, rfl, rfl⟩

theorem map_fst_splitPairs (shardsSplitMap : List (List ℕ)) (k : ℕ) :
    (splitPairs shardsSplitMap k).map Prod.fst = shardsSplitMap.flatten := by
  induction shardsSplitMap generalizing k with
  | nil => rfl
  | cons shardIds shardsSplitMap ih =>
      simp only [splitPairs, List.zipIdx_cons, List.flatMap_cons, List.map_append, List.map_map,
        List.flatten_cons] at ih ⊢
      rw [ih (k + 1)]
      simp [Function.comp_def]

variable {numShards : ℕ}

theorem insertSplitShard_eq_some {parentShardId shardId : ℕ}
    {toParentShardMap toParentShardMap' : BTreeMap ℕ ℕ} :
    insertSplitShard numShards parentShardId toParentShardMap shardId = some toParentShardMap' ↔
      toParentShardMap.get? shardId = none ∧ shardId < numShards ∧
        toParentShardMap' = toParentShardMap.insert shardId parentShardId := by
  unfold insertSplitShard
  cases toParentShardMap.get? shardId with
  | some _ => simp
  | none =>
      by_cases hlt : shardId < numShards
      · simp [hlt, eq_comm]
      · simp [hlt]

/-- The insertions succeed exactly when no shard comes twice or is already in
the map, and every shard is below `num_shards`. -/
theorem foldlM_insertSplitShard_isSome (pairs : List (ℕ × ℕ))
    (toParentShardMap : BTreeMap ℕ ℕ) :
    (pairs.foldlM (fun toParentShardMap entry => insertSplitShard numShards entry.2 toParentShardMap entry.1)
        toParentShardMap).isSome ↔
      (pairs.map Prod.fst).Nodup ∧
        ∀ entry ∈ pairs, entry.1 < numShards ∧ toParentShardMap.get? entry.1 = none := by
  induction pairs generalizing toParentShardMap with
  | nil => simp
  | cons entry pairs ih =>
      rw [List.foldlM_cons, List.map_cons, List.nodup_cons, List.forall_mem_cons]
      cases hinsert : insertSplitShard numShards entry.2 toParentShardMap entry.1 with
      | none =>
          have hfail : ¬(toParentShardMap.get? entry.1 = none ∧ entry.1 < numShards) := fun hok =>
            absurd (insertSplitShard_eq_some.mpr ⟨hok.1, hok.2, rfl⟩) (by rw [hinsert]; simp)
          simp only [Option.bind_eq_bind, Option.bind_none, Option.isSome_none, Bool.false_eq_true,
            false_iff]
          rintro ⟨-, hhead, -⟩
          exact hfail ⟨hhead.2, hhead.1⟩
      | some toParentShardMap₁ =>
          obtain ⟨hnone, hlt, rfl⟩ := insertSplitShard_eq_some.mp hinsert
          simp only [Option.bind_eq_bind, Option.bind_some]
          rw [ih]
          have hfresh : ∀ entry' : ℕ × ℕ,
              (toParentShardMap.insert entry.1 entry.2).get? entry'.1 = none ↔
                entry.1 ≠ entry'.1 ∧ toParentShardMap.get? entry'.1 = none := by
            intro entry'
            rw [BTreeMap.get?_insert]
            by_cases hsame : entry.1 = entry'.1 <;> simp [hsame]
          constructor
          · rintro ⟨hnodup, hrest⟩
            refine ⟨⟨fun hmem => ?_, hnodup⟩, ⟨hlt, hnone⟩, fun entry' hentry' => ?_⟩
            · obtain ⟨entry', hentry', hfst⟩ := List.mem_map.mp hmem
              exact ((hfresh entry').mp (hrest entry' hentry').2).1 hfst.symm
            · exact ⟨(hrest entry' hentry').1, ((hfresh entry').mp (hrest entry' hentry').2).2⟩
          · rintro ⟨⟨hnotMem, hnodup⟩, -, hrest⟩
            refine ⟨hnodup, fun entry' hentry' => ⟨(hrest entry' hentry').1, (hfresh entry').mpr ⟨?_, ?_⟩⟩⟩
            · exact fun hsame => hnotMem (hsame ▸ List.mem_map_of_mem hentry')
            · exact (hrest entry' hentry').2

theorem foldlM_insertSplitShard_get? {pairs : List (ℕ × ℕ)}
    {toParentShardMap toParentShardMap' : BTreeMap ℕ ℕ}
    (h : pairs.foldlM (fun toParentShardMap entry => insertSplitShard numShards entry.2 toParentShardMap entry.1)
        toParentShardMap = some toParentShardMap') (shardId parentShardId : ℕ) :
    toParentShardMap'.get? shardId = some parentShardId ↔
      (shardId, parentShardId) ∈ pairs ∨ toParentShardMap.get? shardId = some parentShardId := by
  induction pairs generalizing toParentShardMap with
  | nil =>
      cases h
      simp
  | cons entry pairs ih =>
      rw [List.foldlM_cons] at h
      cases hinsert : insertSplitShard numShards entry.2 toParentShardMap entry.1 with
      | none =>
          rw [hinsert] at h
          cases h
      | some toParentShardMap₁ =>
          obtain ⟨hnone, -, rfl⟩ := insertSplitShard_eq_some.mp hinsert
          rw [hinsert] at h
          rw [ih h, BTreeMap.get?_insert, List.mem_cons]
          by_cases hsame : entry.1 = shardId
          · -- the inserted shard: its parent is the pair's, as it was not in the map
            obtain ⟨shardId', parent⟩ := entry
            dsimp only at hsame hnone ⊢
            subst hsame
            rw [if_pos rfl, hnone]
            simp only [Option.some.injEq, Prod.mk.injEq, true_and, reduceCtorEq, or_false]
            rw [or_comm, eq_comm]
          · rw [if_neg hsame]
            have hne : (shardId, parentShardId) ≠ entry := fun heq => hsame (heq ▸ rfl)
            simp [hne]

/-- The map the two loops build from an empty one gives every shard of the split
map the parent whose list holds it. -/
theorem foldlM_splitPairs_get? {shardsSplitMap : List (List ℕ)}
    {toParentShardMap : BTreeMap ℕ ℕ}
    (h : (splitPairs shardsSplitMap 0).foldlM
        (fun toParentShardMap entry => insertSplitShard numShards entry.2 toParentShardMap entry.1)
        BTreeMap.empty = some toParentShardMap) (shardId parentShardId : ℕ) :
    toParentShardMap.get? shardId = some parentShardId ↔
      ∃ shardIds, shardsSplitMap[parentShardId]? = some shardIds ∧ shardId ∈ shardIds := by
  rw [foldlM_insertSplitShard_get? h, mem_splitPairs]
  simp [BTreeMap.get?, BTreeMap.empty]

theorem foldlM_splitPairs_isSome_get? {shardsSplitMap : List (List ℕ)}
    {toParentShardMap : BTreeMap ℕ ℕ}
    (h : (splitPairs shardsSplitMap 0).foldlM
        (fun toParentShardMap entry => insertSplitShard numShards entry.2 toParentShardMap entry.1)
        BTreeMap.empty = some toParentShardMap) (shardId : ℕ) :
    (toParentShardMap.get? shardId).isSome ↔ shardId ∈ shardsSplitMap.flatten := by
  rw [Option.isSome_iff_exists, List.mem_flatten]
  simp only [foldlM_splitPairs_get? h, List.mem_iff_getElem?]
  constructor
  · rintro ⟨parentShardId, shardIds, hget, hmem⟩
    exact ⟨shardIds, ⟨parentShardId, hget⟩, hmem⟩
  · rintro ⟨shardIds, ⟨parentShardId, hget⟩, hmem⟩
    exact ⟨parentShardId, shardIds, hget, hmem⟩

/-- `ShardLayout::v1` builds the parent map exactly when no shard comes twice in
the split map and its shards are those below `num_shards`. -/
theorem toParentShardMapOf_isSome_iff (numShards : ℕ) (shardsSplitMap : List (List ℕ)) :
    (toParentShardMapOf numShards shardsSplitMap).isSome ↔
      shardsSplitMap.flatten.Nodup ∧ ∀ shardId, shardId ∈ shardsSplitMap.flatten ↔ shardId < numShards := by
  unfold toParentShardMapOf
  rw [foldlM_zipIdx_eq]
  have hfold := @foldlM_insertSplitShard_isSome numShards (splitPairs shardsSplitMap 0) BTreeMap.empty
  rw [map_fst_splitPairs] at hfold
  have hpairs : ∀ shardId, shardId ∈ shardsSplitMap.flatten ↔
      ∃ entry ∈ splitPairs shardsSplitMap 0, entry.1 = shardId := by
    intro shardId
    rw [← map_fst_splitPairs shardsSplitMap 0, List.mem_map]
  cases hrun : (splitPairs shardsSplitMap 0).foldlM
      (fun toParentShardMap entry => insertSplitShard numShards entry.2 toParentShardMap entry.1)
      BTreeMap.empty with
  | none =>
      rw [hrun] at hfold
      simp only [Option.bind_eq_bind, Option.bind_none, Option.isSome_none, Bool.false_eq_true,
        false_iff] at hfold ⊢
      rintro ⟨hnodup, hrange⟩
      refine hfold ⟨hnodup, fun entry hentry => ⟨(hrange entry.1).mp ((hpairs _).mpr ⟨entry, hentry, rfl⟩), ?_⟩⟩
      rfl
  | some toParentShardMap =>
      rw [hrun] at hfold
      simp only [Option.bind_eq_bind, Option.bind_some, Option.isSome_some, true_iff] at hfold ⊢
      rw [mapM_isSome_iff]
      simp only [List.mem_range, foldlM_splitPairs_isSome_get? hrun]
      obtain ⟨hnodup, hbelow⟩ := hfold
      constructor
      · intro hcover
        refine ⟨hnodup, fun shardId => ⟨fun hmem => ?_, hcover shardId⟩⟩
        obtain ⟨entry, hentry, rfl⟩ := (hpairs shardId).mp hmem
        exact (hbelow entry hentry).1
      · rintro ⟨-, hrange⟩ shardId hlt
        exact (hrange shardId).mpr hlt

theorem toParentShardMapOf_eq_some {numShards : ℕ} {shardsSplitMap : List (List ℕ)}
    {toParentShardMap : List ℕ} (h : toParentShardMapOf numShards shardsSplitMap = some toParentShardMap) :
    toParentShardMap.length = numShards ∧ ∀ shardId parentShardId : ℕ,
      toParentShardMap[shardId]? = some parentShardId ↔
        ∃ shardIds, shardsSplitMap[parentShardId]? = some shardIds ∧ shardId ∈ shardIds := by
  have hsome : (toParentShardMapOf numShards shardsSplitMap).isSome := by rw [h]; rfl
  obtain ⟨-, hrange⟩ := (toParentShardMapOf_isSome_iff numShards shardsSplitMap).mp hsome
  unfold toParentShardMapOf at h
  rw [foldlM_zipIdx_eq] at h
  cases hrun : (splitPairs shardsSplitMap 0).foldlM
      (fun toParentShardMap entry => insertSplitShard numShards entry.2 toParentShardMap entry.1)
      BTreeMap.empty with
  | none =>
      rw [hrun] at h
      cases h
  | some parentMap =>
      rw [hrun] at h
      obtain ⟨hlen, hget⟩ := mapM_eq_some h
      rw [List.length_range] at hlen
      refine ⟨hlen, fun shardId parentShardId => ?_⟩
      rw [← foldlM_splitPairs_get? hrun]
      by_cases hlt : shardId < numShards
      · rw [hget shardId (by simpa using hlt), List.getElem_range]
      · -- past the end neither side holds: every shard of the split map is below `num_shards`
        have hpast : toParentShardMap[shardId]? = none := List.getElem?_eq_none (by omega)
        rw [hpast]
        constructor
        · intro hnone
          cases hnone
        · intro hparent
          have hmem := (foldlM_splitPairs_isSome_get? hrun shardId).mp (by rw [hparent]; rfl)
          exact absurd ((hrange shardId).mp hmem) hlt

/-! ## Parents and splits of a `V1` layout -/

@[simp] theorem numShards_V1 (layout : ShardLayoutV1) :
    (V1 layout).numShards = layout.fixedShards.length + layout.boundaryAccounts.length + 1 := rfl

variable {fixedShards boundaryAccounts : List AccountId} {shardsSplitMap : List (List ℕ)}
  {version : ShardVersion} {layout : ShardLayout}

/-- `ShardLayout::v1` with a split map succeeds exactly when no shard comes twice
in it and its shards are those of the layout. -/
theorem v1_isSome_iff :
    (v1 fixedShards boundaryAccounts (some shardsSplitMap) version).isSome ↔
      shardsSplitMap.flatten.Nodup ∧ ∀ shardId, shardId ∈ shardsSplitMap.flatten ↔
        shardId < fixedShards.length + boundaryAccounts.length + 1 := by
  rw [v1, Option.isSome_map, toParentShardMapOf_isSome_iff]

theorem v1_eq_some (h : v1 fixedShards boundaryAccounts (some shardsSplitMap) version = some layout) :
    ∃ toParentShardMap,
      toParentShardMapOf (fixedShards.length + boundaryAccounts.length + 1) shardsSplitMap =
        some toParentShardMap ∧
      layout = .V1 ⟨fixedShards, boundaryAccounts, some shardsSplitMap, some toParentShardMap, version⟩ := by
  obtain ⟨toParentShardMap, hmap, hlayout⟩ := Option.map_eq_some_iff.mp h
  exact ⟨toParentShardMap, hmap, hlayout.symm⟩

/-- In a layout built with a split map, a shard's parent is the shard whose split
holds it, a shard of a split has that parent, and an id above the number of
shards is an error.  At the number of shards itself, `get_parent_shard_id`
reads past the parent map and panics. -/
theorem v1_parents (h : v1 fixedShards boundaryAccounts (some shardsSplitMap) version = some layout) :
    (∀ shardId < layout.numShards, ∃ parentShardId shardIds,
      layout.getParentShardId shardId = some (.ok parentShardId) ∧
        layout.getSplitShardIds parentShardId = some shardIds ∧ shardId ∈ shardIds) ∧
    (∀ parentShardId shardIds shardId, layout.getSplitShardIds parentShardId = some shardIds →
      shardId ∈ shardIds → layout.getParentShardId shardId = some (.ok parentShardId)) ∧
    (∀ shardId, layout.numShards < shardId →
      layout.getParentShardId shardId = some (.error (.invalidShardIdError shardId))) ∧
    layout.getParentShardId layout.numShards = none := by
  obtain ⟨toParentShardMap, hmap, rfl⟩ := v1_eq_some h
  obtain ⟨hlen, hparent⟩ := toParentShardMapOf_eq_some hmap
  have hget : ∀ shardId, ¬shardId > fixedShards.length + boundaryAccounts.length + 1 →
      ShardLayout.getParentShardId (.V1 ⟨fixedShards, boundaryAccounts, some shardsSplitMap,
        some toParentShardMap, version⟩) shardId = toParentShardMap[shardId]?.map .ok := by
    intro shardId hle
    unfold getParentShardId
    rw [numShards_V1, if_neg hle]
  refine ⟨fun shardId hlt => ?_, fun parentShardId shardIds shardId hsplit hmem => ?_,
    fun shardId hgt => ?_, ?_⟩
  · have hlt' : shardId < toParentShardMap.length := by
      rw [hlen]
      exact hlt
    obtain ⟨shardIds, hsplit, hmem⟩ := (hparent shardId toParentShardMap[shardId]).mp
      (List.getElem?_eq_getElem hlt')
    refine ⟨toParentShardMap[shardId], shardIds, ?_, hsplit, hmem⟩
    rw [numShards_V1] at hlt
    dsimp only at hlt
    rw [hget shardId (by omega), List.getElem?_eq_getElem hlt']
    rfl
  · have hsome := (hparent shardId parentShardId).mpr ⟨shardIds, hsplit, hmem⟩
    have hlt : shardId < fixedShards.length + boundaryAccounts.length + 1 := by
      rw [← hlen]
      exact (List.getElem?_eq_some_iff.mp hsome).1
    rw [hget shardId (by omega), hsome]
    rfl
  · unfold getParentShardId
    rw [if_pos hgt]
  · rw [numShards_V1]
    dsimp only
    rw [hget (fixedShards.length + boundaryAccounts.length + 1) (by omega),
      List.getElem?_eq_none (by omega)]
    rfl

/-- On the layout of mainnet, with four shards, `get_parent_shard_id(4)` panics
where an `InvalidShardIdError` is documented. -/
theorem getParentShardId_simpleNightshade_panics :
    ∃ layout, getSimpleNightshadeLayout = some layout ∧ layout.numShards = 4 ∧
      layout.getParentShardId 4 = none := by
  have h : getSimpleNightshadeLayout =
      some (.V1 ⟨[], ["aurora", "aurora-0", "kkuuue2akv_1630967379.near"], some [[0, 1, 2, 3]],
        some [0, 0, 0, 0], 1⟩) := by
    decide
  exact ⟨_, h, rfl, (v1_parents h).2.2.2⟩

end ShardLayout

/-! ## The shard of an account -/

theorem boundaryShardId_le (accountId : AccountId) (shardId : ℕ) (boundaryAccounts : List AccountId) :
    boundaryShardId accountId shardId boundaryAccounts ≤ shardId + boundaryAccounts.length := by
  induction boundaryAccounts generalizing shardId with
  | nil => simp [boundaryShardId]
  | cons boundaryAccount boundaryAccounts ih =>
      unfold boundaryShardId
      split_ifs
      · simp
      · have := ih (shardId + 1)
        simp only [List.length_cons]
        omega

/-- With the boundaries in increasing order, the loop counts the boundary
accounts up to the account. -/
theorem boundaryShardId_eq_of_sorted (accountId : AccountId) {boundaryAccounts : List AccountId}
    (hsorted : boundaryAccounts.Pairwise (· < ·)) (shardId : ℕ) :
    boundaryShardId accountId shardId boundaryAccounts =
      shardId + (boundaryAccounts.filter (· ≤ accountId)).length := by
  induction boundaryAccounts generalizing shardId with
  | nil => rfl
  | cons boundaryAccount boundaryAccounts ih =>
      obtain ⟨habove, hsorted⟩ := List.pairwise_cons.mp hsorted
      unfold boundaryShardId
      by_cases hlt : accountId < boundaryAccount
      · -- every boundary from here on is above the account
        have hnone : (boundaryAccount :: boundaryAccounts).filter (· ≤ accountId) = [] := by
          rw [List.filter_eq_nil_iff]
          intro b hb
          rcases List.mem_cons.mp hb with rfl | hb
          · simpa using hlt
          · have hb' : accountId < b := @lt_trans String _ _ _ _ hlt (habove b hb)
            simpa using hb'
        rw [if_pos hlt, hnone, List.length_nil, Nat.add_zero]
      · have hle : boundaryAccount ≤ accountId := @le_of_not_gt String _ _ _ hlt
        rw [if_neg hlt, ih hsorted, List.filter_cons_of_pos (by simpa using hle), List.length_cons]
        omega

theorem accountIdToShardId_V0 (hashBytes : List UInt8 → CryptoHash) (accountId : AccountId)
    (layout : ShardLayoutV0) (hpos : 0 < layout.numShards) :
    ∃ shardId, accountIdToShardId hashBytes accountId (.V0 layout) = some shardId ∧
      shardId < layout.numShards := by
  obtain ⟨numShards, version⟩ := layout
  refine ⟨LittleEndian.decode ((hashBytes accountId.toUTF8.toList).bytes.toList.take 8) % numShards, ?_,
    Nat.mod_lt _ hpos⟩
  simp only [accountIdToShardId, if_neg (Nat.pos_iff_ne_zero.mp hpos)]

theorem accountIdToShardId_V1 (hashBytes : List UInt8 → CryptoHash) (accountId : AccountId)
    (layout : ShardLayoutV1) :
    ∃ shardId, accountIdToShardId hashBytes accountId (.V1 layout) = some shardId ∧
      shardId < (ShardLayout.V1 layout).numShards := by
  obtain ⟨fixedShards, boundaryAccounts, shardsSplitMap, toParentShardMap, version⟩ := layout
  simp only [ShardLayout.numShards_V1, accountIdToShardId]
  cases hfixed : fixedShards.findIdx? (isTopLevelAccount · accountId) with
  | some shardId =>
      obtain ⟨hlt, -⟩ := List.findIdx?_eq_some_iff_getElem.mp hfixed
      exact ⟨shardId, rfl, by omega⟩
  | none =>
      have := boundaryShardId_le accountId fixedShards.length boundaryAccounts
      exact ⟨_, rfl, by omega⟩

/-- An account that is no fixed account and no sub-account of one lies in the
range of the boundary accounts up to it. -/
theorem accountIdToShardId_V1_of_sorted (hashBytes : List UInt8 → CryptoHash) (accountId : AccountId)
    (layout : ShardLayoutV1) (hsorted : layout.boundaryAccounts.Pairwise (· < ·))
    (hfixed : ∀ fixedAccount ∈ layout.fixedShards, isTopLevelAccount fixedAccount accountId = false) :
    accountIdToShardId hashBytes accountId (.V1 layout) =
      some (layout.fixedShards.length + (layout.boundaryAccounts.filter (· ≤ accountId)).length) := by
  obtain ⟨fixedShards, boundaryAccounts, shardsSplitMap, toParentShardMap, version⟩ := layout
  simp only [accountIdToShardId]
  rw [List.findIdx?_eq_none_iff.mpr hfixed, boundaryShardId_eq_of_sorted accountId hsorted]

/-- With the fixed account `aurora` and the boundaries `bob` and `carol`, `carl` falls in the
shard after `bob`'s. -/
theorem accountIdToShardId_V1_of_sorted_carl :
    ["bob", "carol"].Pairwise (· < ·) ∧
    (∀ fixedAccount ∈ ["aurora"], isTopLevelAccount fixedAccount "carl" = false) ∧
    accountIdToShardId (fun _ => CryptoHash.default) "carl"
        (.V1 ⟨["aurora"], ["bob", "carol"], none, none, 1⟩) =
      some (["aurora"].length + (["bob", "carol"].filter (· ≤ "carl")).length) := by
  have hsorted : ["bob", "carol"].Pairwise (· < ·) := by decide +kernel
  have hfixed : ∀ fixedAccount ∈ ["aurora"], isTopLevelAccount fixedAccount "carl" = false := by
    decide +kernel
  exact ⟨hsorted, hfixed, accountIdToShardId_V1_of_sorted _ "carl"
    ⟨["aurora"], ["bob", "carol"], none, none, 1⟩ hsorted hfixed⟩

theorem accountIdToShardId_lt (hashBytes : List UInt8 → CryptoHash) (accountId : AccountId)
    {layout : ShardLayout} (hpos : 0 < layout.numShards) :
    ∃ shardId, accountIdToShardId hashBytes accountId layout = some shardId ∧
      shardId < layout.numShards := by
  cases layout with
  | V0 layout => exact accountIdToShardId_V0 hashBytes accountId layout hpos
  | V1 layout => exact accountIdToShardId_V1 hashBytes accountId layout

end Nearcore
