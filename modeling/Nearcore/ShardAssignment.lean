import Nearcore.MinHeap
import Nearcore.ListFacts
import Mathlib.Data.Prod.Lex
import Mathlib.Algebra.BigOperators.Group.List.Basic

/-!
# Assigning chunk producers to shards

`assign_shards` (`epoch-manager/src/shard_assignment.rs`) hands out the chunk
producers, sorted by stake, to `num_shards` shards.  A min-heap of
`(count, stake, shard_id)` puts the shard with the fewest producers on top;
the producers come from `chunk_producers.into_iter().enumerate().cycle()`.
First `assign_with_possible_repeats` fills every shard up to
`min_validators_per_shard` producers, taking a producer round again when there
are too few, but never twice for one shard.  Then the producers not yet taken
go, one each, to the shard with the least stake, from a second heap of
`(stake, count, shard_id)`.

The `while` loop of the first phase is run on fuel: it ends, but only because
every `N` turns assign at least one producer while a shard still needs one.

Whatever the fuel, an assignment that is returned holds only chunk producers
and every chunk producer is in some shard (`assignShards_mem`,
`assignShards_covers`): in the first pass of the cycle each producer goes to
the shard on top, and when the first phase stops before the pass is over, it
has taken exactly `num_shards * min_validators_per_shard` producers, so the
second phase takes the rest.
-/

namespace Nearcore.EpochManager

/-- `(count, stake, shard_id)`, an entry of the first `shard_index` of
`assign_shards`: how many chunk producers a shard has and their stake. -/
structure ShardLoad where
  count : ℕ
  stake : ℕ
  shardId : ℕ
  deriving Repr

/-- The tuple, compared lexicographically as Rust compares tuples. -/
def ShardLoad.toTuple (e : ShardLoad) : ℕ ×ₗ ℕ ×ₗ ℕ := toLex (e.count, toLex (e.stake, e.shardId))

theorem ShardLoad.toTuple_injective : Function.Injective ShardLoad.toTuple := by
  rintro ⟨count, stake, shardId⟩ ⟨count', stake', shardId'⟩ h
  simp only [ShardLoad.toTuple, toLex_inj, Prod.mk.injEq] at h
  obtain ⟨rfl, rfl, rfl⟩ := h
  rfl

instance : LinearOrder ShardLoad := LinearOrder.lift' _ ShardLoad.toTuple_injective

theorem ShardLoad.count_le_of_le {e e' : ShardLoad} (h : e ≤ e') : e.count ≤ e'.count := by
  have htuple : e.toTuple ≤ e'.toTuple := h
  rw [ShardLoad.toTuple, ShardLoad.toTuple, Prod.Lex.toLex_le_toLex] at htuple
  rcases htuple with hlt | ⟨heq, -⟩
  · exact hlt.le
  · exact heq.le

/-- `(stake, count, shard_id)`, an entry of the second `shard_index`, which
puts the shard with the least stake on top. -/
structure ShardStake where
  stake : ℕ
  count : ℕ
  shardId : ℕ
  deriving Repr

def ShardStake.toTuple (e : ShardStake) : ℕ ×ₗ ℕ ×ₗ ℕ := toLex (e.stake, toLex (e.count, e.shardId))

theorem ShardStake.toTuple_injective : Function.Injective ShardStake.toTuple := by
  rintro ⟨stake, count, shardId⟩ ⟨stake', count', shardId'⟩ h
  simp only [ShardStake.toTuple, toLex_inj, Prod.mk.injEq] at h
  obtain ⟨rfl, rfl, rfl⟩ := h
  rfl

instance : LinearOrder ShardStake := LinearOrder.lift' _ ShardStake.toTuple_injective

/-- `NotEnoughValidators`, the error of `assign_shards`. -/
structure NotEnoughValidators where
  deriving DecidableEq, Repr

section Model

variable {T : Type}

/-- `chunk_producers.into_iter().enumerate().cycle()` after it has yielded
`position` items: the index and producer it yields next, `none` for an empty
list. -/
def cycleNext (chunkProducers : List T) (position : ℕ) : Option (ℕ × T) :=
  chunkProducers[position % chunkProducers.length]?.map fun cp =>
    (position % chunkProducers.length, cp)

/-- The inner `loop` of `assign_with_possible_repeats` for the producer `cp` at
`cpIndex`.  It looks at the shards from the top of the heap: one that already
has `min_validators_per_shard` producers ends the loop, as does an empty heap;
one that does not have `cp` yet (`seen.insert` succeeds) gets it; one that has
it is popped into `buffer`, to go back on the heap after the loop.  The heap,
`buffer`, `seen` and `result` after the loop; `none` where `result[shard_id]`
is out of range. -/
def assignToShard (getStake : T → ℕ) (minValidatorsPerShard cpIndex : ℕ) (cp : T)
    (shardIndex : MinHeap ShardLoad) (buffer : List ShardLoad) (seen : List (ℕ × ℕ))
    (result : List (List T)) :
    Option (MinHeap ShardLoad × List ShardLoad × List (ℕ × ℕ) × List (List T)) :=
  match _hpop : shardIndex.pop with
  | none => some (shardIndex, buffer, seen, result)
  | some (top, rest) =>
      if minValidatorsPerShard ≤ top.count then some (shardIndex, buffer, seen, result)
      else if (top.shardId, cpIndex) ∉ seen then
        if top.shardId < result.length then
          -- `top.0 += 1; top.1 += stake` through `PeekMut`, which sifts the entry back
          some (rest.push { top with count := top.count + 1, stake := top.stake + getStake cp },
            buffer, (top.shardId, cpIndex) :: seen, result.modify top.shardId (· ++ [cp]))
        else none
      else
        assignToShard getStake minValidatorsPerShard cpIndex cp rest (buffer ++ [top]) seen result
termination_by shardIndex.len
decreasing_by exact MinHeap.len_lt_of_pop _hpop

/-- The state of `assign_with_possible_repeats` between two turns of its
`while` loop: the heap of shards, the producers of each shard, the pairs
`(shard_id, cp_index)` seen so far and how many producers the cycling
iterator has yielded. -/
structure AssignState (T : Type) where
  shardIndex : MinHeap ShardLoad
  result : List (List T)
  seen : List (ℕ × ℕ)
  position : ℕ

/-- The state before the `while` loop: `num_shards` shards with no producers. -/
def AssignState.start (numShards : ℕ) : AssignState T :=
  ⟨MinHeap.ofList ((List.range numShards).map fun s => ⟨0, 0, s⟩), List.replicate numShards [],
    [], 0⟩

/-- One turn of the `while` loop: the next producer of the cycle goes through
the inner loop, and the shards it passed over go back on the heap.  `none`
where `cp_iter.next().unwrap()` panics on an empty list. -/
def assignStep (getStake : T → ℕ) (chunkProducers : List T) (minValidatorsPerShard : ℕ)
    (st : AssignState T) : Option (AssignState T) :=
  match cycleNext chunkProducers st.position with
  | none => none
  | some (cpIndex, cp) =>
      (assignToShard getStake minValidatorsPerShard cpIndex cp st.shardIndex [] st.seen
          st.result).map fun (shardIndex, buffer, seen, result) =>
        ⟨shardIndex.extend buffer, result, seen, st.position + 1⟩

/-- The `while shard_index.peek().unwrap().0 < min_validators_per_shard` loop
of `assign_with_possible_repeats`, on fuel.  `none` where `peek().unwrap()`
panics on an empty heap, where a turn panics, or where the fuel runs out. -/
def assignWithPossibleRepeats (getStake : T → ℕ) (chunkProducers : List T)
    (minValidatorsPerShard : ℕ) : ℕ → AssignState T → Option (AssignState T)
  | fuel, st =>
    match st.shardIndex.peek with
    | none => none
    | some top =>
        if top.count < minValidatorsPerShard then
          match fuel with
          | 0 => none
          | fuel + 1 =>
              (assignStep getStake chunkProducers minValidatorsPerShard st).bind
                (assignWithPossibleRepeats getStake chunkProducers minValidatorsPerShard fuel)
        else some st

/-- The second phase: `chunk_producers.take(remaining_producers)` from where
the first phase left the iterator, each producer going to the shard with the
least stake.  `none` where `pop().expect(..)` or `result[shard_id]` panics. -/
def assignRemaining (getStake : T → ℕ) (chunkProducers : List T) :
    ℕ → MinHeap ShardStake → List (List T) → ℕ → Option (List (List T))
  | 0, _, result, _ => some result
  | remaining + 1, shardIndex, result, position =>
    match cycleNext chunkProducers position with
    | none => some result
    | some (_, cp) =>
        match shardIndex.pop with
        | none => none
        | some (top, rest) =>
            if top.shardId < result.length then
              assignRemaining getStake chunkProducers remaining
                (rest.push ⟨top.stake + getStake cp, top.count + 1, top.shardId⟩)
                (result.modify top.shardId (· ++ [cp])) (position + 1)
            else none

/-- `assign_shards`, with the fuel of the first phase.  `none` where it
panics: on producers not sorted by decreasing stake, on no shards, or on the
fuel running out. -/
def assignShards (getStake : T → ℕ) (chunkProducers : List T) (numShards minValidatorsPerShard : ℕ)
    (fuel : ℕ) : Option (Except NotEnoughValidators (List (List T))) :=
  if !(chunkProducers.zip chunkProducers.tail).all fun (a, b) => getStake b ≤ getStake a then none
  else if chunkProducers.length < minValidatorsPerShard then some (.error ⟨⟩)
  else
    match assignWithPossibleRepeats getStake chunkProducers minValidatorsPerShard fuel
        (AssignState.start numShards) with
    | none => none
    | some st =>
        let remainingProducers := chunkProducers.length - numShards * minValidatorsPerShard
        let shardIndex : MinHeap ShardStake :=
          MinHeap.ofList (st.shardIndex.items.map fun e => ⟨e.stake, e.count, e.shardId⟩)
        (assignRemaining getStake chunkProducers remainingProducers shardIndex st.result
          st.position).map .ok

end Model

/-! ## The inner loop -/

section Spec

variable {T : Type} {getStake : T → ℕ} {chunkProducers : List T} {minValidatorsPerShard : ℕ}

theorem cycleNext_eq_some {position cpIndex : ℕ} {cp : T}
    (h : cycleNext chunkProducers position = some (cpIndex, cp)) :
    cpIndex = position % chunkProducers.length ∧ chunkProducers[cpIndex]? = some cp := by
  unfold cycleNext at h
  obtain ⟨cp', hcp', heq⟩ := Option.map_eq_some_iff.mp h
  simp only [Prod.mk.injEq] at heq
  obtain ⟨rfl, rfl⟩ := heq
  exact ⟨rfl, hcp'⟩

/-- The inner loop either gives `cp` to one shard that needs producers and does
not have it yet, or changes nothing, which it does only when every shard that
needs producers has `cp` already. -/
theorem assignToShard_spec {cpIndex : ℕ} {cp : T} {shardIndex shardIndex' : MinHeap ShardLoad}
    {buffer buffer' : List ShardLoad} {seen seen' : List (ℕ × ℕ)} {result result' : List (List T)}
    (h : assignToShard getStake minValidatorsPerShard cpIndex cp shardIndex buffer seen result =
      some (shardIndex', buffer', seen', result')) :
    ((shardIndex'.items ++ buffer').Perm (shardIndex.items ++ buffer) ∧ seen' = seen ∧
        result' = result ∧
        ∀ e ∈ shardIndex.items, e.count < minValidatorsPerShard → (e.shardId, cpIndex) ∈ seen) ∨
      ∃ e ∈ shardIndex.items, e.count < minValidatorsPerShard ∧ (e.shardId, cpIndex) ∉ seen ∧
        e.shardId < result.length ∧
        (shardIndex'.items ++ buffer').Perm
          ({ e with count := e.count + 1, stake := e.stake + getStake cp } ::
            (shardIndex.items.erase e ++ buffer)) ∧
        seen' = (e.shardId, cpIndex) :: seen ∧ result' = result.modify e.shardId (· ++ [cp]) := by
  fun_induction assignToShard getStake minValidatorsPerShard cpIndex cp shardIndex buffer seen result with
  | case1 shardIndex buffer hpop =>
      simp only [Option.some.injEq, Prod.mk.injEq] at h
      obtain ⟨rfl, rfl, rfl, rfl⟩ := h
      rw [MinHeap.pop_eq_none_iff] at hpop
      exact .inl ⟨List.Perm.refl _, rfl, rfl, by simp [hpop]⟩
  | case2 shardIndex buffer top rest hpop hfull =>
      -- the top shard has enough producers, and so has every shard below it
      simp only [Option.some.injEq, Prod.mk.injEq] at h
      obtain ⟨rfl, rfl, rfl, rfl⟩ := h
      refine .inl ⟨List.Perm.refl _, rfl, rfl, fun e he hneed => ?_⟩
      have hle := ShardLoad.count_le_of_le (MinHeap.le_of_pop hpop he)
      omega
  | case3 shardIndex buffer top rest hpop hneed hfresh hshard =>
      simp only [Option.some.injEq, Prod.mk.injEq] at h
      obtain ⟨rfl, rfl, rfl, rfl⟩ := h
      have hperm := MinHeap.perm_of_pop hpop
      have hrest := (MinHeap.pop_eq_some_iff.mp hpop).2
      refine .inr ⟨top, hperm.mem_iff.mpr (List.mem_cons_self), by omega, hfresh, hshard, ?_, rfl, rfl⟩
      rw [MinHeap.items_push, hrest, List.append_assoc, List.singleton_append]
      exact List.perm_middle
  | case4 => cases h
  | case5 shardIndex buffer top rest hpop hneed hseen ih =>
      have hperm := MinHeap.perm_of_pop hpop
      have hbuffer : (rest.items ++ (buffer ++ [top])).Perm (shardIndex.items ++ buffer) := by
        rw [← List.append_assoc]
        exact (List.perm_append_singleton _ _).trans (hperm.append_right buffer).symm
      rcases ih h with ⟨hperm', rfl, rfl, hall⟩ | ⟨e, he, hneed', hfresh, hshard, hperm', rfl, rfl⟩
      · refine .inl ⟨hperm'.trans hbuffer, rfl, rfl, fun e he hneed' => ?_⟩
        rcases List.mem_cons.mp (hperm.mem_iff.mp he) with rfl | he
        · exact not_not.mp hseen
        · exact hall e he hneed'
      · refine .inr ⟨e, hperm.mem_iff.mpr (List.mem_cons_of_mem _ he), hneed', hfresh, hshard, ?_,
          rfl, rfl⟩
        refine hperm'.trans (List.Perm.cons _ ?_)
        have herase : (shardIndex.items.erase e).Perm (top :: rest.items.erase e) :=
          (hperm.erase e).trans (List.erase_cons_perm_of_mem he)
        rw [← List.append_assoc]
        exact (List.perm_append_singleton _ _).trans (herase.append_right buffer).symm

/-- One turn of the `while` loop: the producer at `position % n` either goes to
one shard that needs producers and does not have it yet, or to none, which
happens only when every shard that needs producers has it already. -/
theorem assignStep_spec {st st' : AssignState T}
    (h : assignStep getStake chunkProducers minValidatorsPerShard st = some st') :
    ∃ cpIndex cp, cycleNext chunkProducers st.position = some (cpIndex, cp) ∧
      st'.position = st.position + 1 ∧
      ((st'.shardIndex.items.Perm st.shardIndex.items ∧ st'.seen = st.seen ∧
          st'.result = st.result ∧
          ∀ e ∈ st.shardIndex.items, e.count < minValidatorsPerShard →
            (e.shardId, cpIndex) ∈ st.seen) ∨
        ∃ e ∈ st.shardIndex.items, e.count < minValidatorsPerShard ∧
          (e.shardId, cpIndex) ∉ st.seen ∧ e.shardId < st.result.length ∧
          st'.shardIndex.items.Perm ({ e with count := e.count + 1, stake := e.stake + getStake cp } ::
            st.shardIndex.items.erase e) ∧
          st'.seen = (e.shardId, cpIndex) :: st.seen ∧
          st'.result = st.result.modify e.shardId (· ++ [cp])) := by
  unfold assignStep at h
  split at h
  · cases h
  · next cpIndex cp hnext =>
      obtain ⟨⟨shardIndex, buffer, seen, result⟩, hloop, rfl⟩ := Option.map_eq_some_iff.mp h
      refine ⟨cpIndex, cp, hnext, rfl, ?_⟩
      rcases assignToShard_spec hloop with ⟨hperm, rfl, rfl, hall⟩ |
        ⟨e, he, hneed, hfresh, hshard, hperm, rfl, rfl⟩
      · rw [List.append_nil] at hperm
        exact .inl ⟨by simpa only [MinHeap.items_extend] using hperm, rfl, rfl, hall⟩
      · rw [List.append_nil] at hperm
        exact .inr ⟨e, he, hneed, hfresh, hshard, by simpa only [MinHeap.items_extend] using hperm,
          rfl, rfl⟩

/-! ## The `while` loop -/

theorem assignWithPossibleRepeats_of_full {fuel : ℕ} {st : AssignState T} {top : ShardLoad}
    (hpeek : st.shardIndex.peek = some top) (hfull : minValidatorsPerShard ≤ top.count) :
    assignWithPossibleRepeats getStake chunkProducers minValidatorsPerShard fuel st = some st := by
  unfold assignWithPossibleRepeats
  rw [hpeek]
  dsimp only
  rw [if_neg (Nat.not_lt.mpr hfull)]

theorem assignWithPossibleRepeats_of_needy {fuel : ℕ} {st : AssignState T} {top : ShardLoad}
    (hpeek : st.shardIndex.peek = some top) (hneed : top.count < minValidatorsPerShard) :
    assignWithPossibleRepeats getStake chunkProducers minValidatorsPerShard (fuel + 1) st =
      (assignStep getStake chunkProducers minValidatorsPerShard st).bind
        (assignWithPossibleRepeats getStake chunkProducers minValidatorsPerShard fuel) := by
  conv_lhs => unfold assignWithPossibleRepeats
  rw [hpeek]
  dsimp only
  rw [if_pos hneed]

/-- The `while` loop keeps every property that a turn keeps, and it stops with
a shard on top that has `min_validators_per_shard` producers. -/
theorem assignWithPossibleRepeats_induction (P : AssignState T → Prop)
    (hstep : ∀ st st' top, P st → st.shardIndex.peek = some top →
      top.count < minValidatorsPerShard →
      assignStep getStake chunkProducers minValidatorsPerShard st = some st' → P st')
    {fuel : ℕ} {st st' : AssignState T} (hP : P st)
    (hrun : assignWithPossibleRepeats getStake chunkProducers minValidatorsPerShard fuel st =
      some st') :
    P st' ∧ ∃ top, st'.shardIndex.peek = some top ∧ minValidatorsPerShard ≤ top.count := by
  induction fuel generalizing st with
  | zero =>
      unfold assignWithPossibleRepeats at hrun
      split at hrun
      · cases hrun
      · next top hpeek =>
          split at hrun
          · cases hrun
          · next hfull =>
              cases hrun
              exact ⟨hP, top, hpeek, Nat.le_of_not_lt hfull⟩
  | succ fuel ih =>
      unfold assignWithPossibleRepeats at hrun
      split at hrun
      · cases hrun
      · next top hpeek =>
          split at hrun
          · next hneed =>
              obtain ⟨st₁, hstep₁, hrest⟩ := Option.bind_eq_some_iff.mp hrun
              exact ih (hstep st st₁ top hP hpeek hneed hstep₁) hrest
          · next hfull =>
              cases hrun
              exact ⟨hP, top, hpeek, Nat.le_of_not_lt hfull⟩

/-- What the `while` loop keeps.  The heap holds `num_shards` shards, none with
more than `min_validators_per_shard` producers; every shard holds producers
only; every producer the iterator has yielded is in a shard; and during the
first pass of the cycle the heap counts exactly the producers yielded, and
`seen` holds only their indices. -/
structure AssignInvariant (chunkProducers : List T) (numShards minValidatorsPerShard : ℕ)
    (st : AssignState T) : Prop where
  len_shardIndex : st.shardIndex.len = numShards
  count_le : ∀ e ∈ st.shardIndex.items, e.count ≤ minValidatorsPerShard
  mem_result : ∀ s ∈ st.result, ∀ x ∈ s, x ∈ chunkProducers
  covered : ∀ k (hk : k < chunkProducers.length), k < st.position →
    ∃ s ∈ st.result, chunkProducers[k] ∈ s
  firstPass : st.position ≤ chunkProducers.length →
    (st.shardIndex.items.map (·.count)).sum = st.position ∧ ∀ q ∈ st.seen, q.2 < st.position

/-- During the first pass of the cycle the producer yielded is new: its index is
the position, and no shard has it yet. -/
theorem AssignInvariant.fresh_of_firstPass {numShards : ℕ} {st : AssignState T} {cpIndex : ℕ}
    {cp : T} (hinv : AssignInvariant chunkProducers numShards minValidatorsPerShard st)
    (hnext : cycleNext chunkProducers st.position = some (cpIndex, cp))
    (hlt : st.position < chunkProducers.length) :
    cpIndex = st.position ∧ ∀ s, (s, cpIndex) ∉ st.seen := by
  obtain ⟨hindex, -⟩ := cycleNext_eq_some hnext
  rw [hindex, Nat.mod_eq_of_lt hlt]
  exact ⟨rfl, fun s hs => Nat.lt_irrefl _ ((hinv.firstPass hlt.le).2 _ hs)⟩

/-- The heap never counts more than `num_shards * min_validators_per_shard`
producers. -/
theorem AssignInvariant.sum_count_le {numShards : ℕ} {st : AssignState T}
    (hinv : AssignInvariant chunkProducers numShards minValidatorsPerShard st) :
    (st.shardIndex.items.map (·.count)).sum ≤ numShards * minValidatorsPerShard := by
  have hle := List.sum_le_card_nsmul (st.shardIndex.items.map (·.count)) minValidatorsPerShard
    (by
      intro c hc
      obtain ⟨e, he, rfl⟩ := List.mem_map.mp hc
      exact hinv.count_le e he)
  rw [List.length_map, ← MinHeap.len, hinv.len_shardIndex, smul_eq_mul] at hle
  exact hle

/-- While some shard needs producers, fewer than `num_shards *
min_validators_per_shard` are counted. -/
theorem AssignInvariant.sum_count_lt {numShards : ℕ} {st : AssignState T} {e : ShardLoad}
    (hinv : AssignInvariant chunkProducers numShards minValidatorsPerShard st)
    (he : e ∈ st.shardIndex.items) (hneed : e.count < minValidatorsPerShard) :
    (st.shardIndex.items.map (·.count)).sum < numShards * minValidatorsPerShard := by
  have hcons := List.perm_cons_erase he
  have hlen : (st.shardIndex.items.erase e).length + 1 = numShards := by
    rw [← hinv.len_shardIndex, MinHeap.len, hcons.length_eq, List.length_cons]
  have hrest := List.sum_le_card_nsmul ((st.shardIndex.items.erase e).map (·.count))
    minValidatorsPerShard (by
      intro c hc
      obtain ⟨e', he', rfl⟩ := List.mem_map.mp hc
      exact hinv.count_le e' (List.mem_of_mem_erase he'))
  rw [List.length_map, smul_eq_mul] at hrest
  rw [(hcons.map (·.count)).sum_eq, List.map_cons, List.sum_cons, ← hlen, Nat.succ_mul]
  omega

theorem AssignInvariant.step {numShards : ℕ} {st st' : AssignState T} {top : ShardLoad}
    (hinv : AssignInvariant chunkProducers numShards minValidatorsPerShard st)
    (hpeek : st.shardIndex.peek = some top) (hneed : top.count < minValidatorsPerShard)
    (hstep : assignStep getStake chunkProducers minValidatorsPerShard st = some st') :
    AssignInvariant chunkProducers numShards minValidatorsPerShard st' := by
  unfold assignStep at hstep
  split at hstep
  · cases hstep
  · next cpIndex cp hnext =>
      obtain ⟨hindex, hcp⟩ := cycleNext_eq_some hnext
      obtain ⟨⟨shardIndex, buffer, seen, result⟩, hloop, rfl⟩ := Option.map_eq_some_iff.mp hstep
      dsimp only
      have hcpMem : cp ∈ chunkProducers := List.mem_of_getElem? hcp
      -- in the first pass the producer is new, so the shard on top takes it
      have hfirst : st.position < chunkProducers.length → cpIndex = st.position ∧
          ∀ s, (s, cpIndex) ∉ st.seen := by
        intro hlt
        rw [hindex, Nat.mod_eq_of_lt hlt]
        exact ⟨rfl, fun s hs => Nat.lt_irrefl _ ((hinv.firstPass hlt.le).2 _ hs)⟩
      rcases assignToShard_spec hloop with ⟨hperm, rfl, rfl, hall⟩ |
        ⟨e, he, hneed', hfresh, hshard, hperm, rfl, rfl⟩
      · -- nothing assigned: the first pass is over
        rw [List.append_nil] at hperm
        have hdone : chunkProducers.length ≤ st.position := by
          by_contra hlt
          obtain ⟨rfl, hnew⟩ := hfirst (Nat.lt_of_not_le hlt)
          exact hnew _ (hall top (MinHeap.peek_mem hpeek) hneed)
        refine ⟨?_, fun e he => hinv.count_le e (hperm.mem_iff.mp he), hinv.mem_result, ?_, ?_⟩
        · simp only [MinHeap.len, MinHeap.items_extend, hperm.length_eq]
          exact hinv.len_shardIndex
        · intro k hk hlt
          exact hinv.covered k hk (by dsimp only at hlt; omega)
        · intro hle
          dsimp only at hle
          omega
      · -- `cp` went to the shard `e`
        rw [List.append_nil] at hperm
        have hcons := List.perm_cons_erase he
        refine ⟨?_, ?_, ?_, ?_, ?_⟩ <;> dsimp only
        · simp only [MinHeap.len, MinHeap.items_extend, hperm.length_eq, List.length_cons]
          rw [← hinv.len_shardIndex, MinHeap.len, hcons.length_eq, List.length_cons]
        · intro e' he'
          simp only [MinHeap.items_extend] at he'
          rcases List.mem_cons.mp (hperm.mem_iff.mp he') with rfl | he'
          · exact hneed'
          · exact hinv.count_le e' (List.mem_of_mem_erase he')
        · exact List.forall_mem_modify_append _ hinv.mem_result hcpMem
        · intro k hk hlt
          rcases Nat.lt_succ_iff_lt_or_eq.mp hlt with hlt | rfl
          · exact List.exists_mem_modify_append _ _ (hinv.covered k hk hlt)
          · obtain ⟨rfl, -⟩ := hfirst hk
            obtain ⟨_, hget⟩ := List.getElem?_eq_some_iff.mp hcp
            rw [hget]
            exact List.exists_mem_modify_append_self hshard cp
        · intro hle
          have hprev := hinv.firstPass (by omega)
          obtain ⟨rfl, -⟩ := hfirst (by omega)
          refine ⟨?_, ?_⟩
          · simp only [MinHeap.items_extend]
            rw [(hperm.map (·.count)).sum_eq, ← hprev.1, (hcons.map (·.count)).sum_eq]
            simp only [List.map_cons, List.sum_cons]
            omega
          · intro q hq
            rcases List.mem_cons.mp hq with rfl | hq
            · exact Nat.lt_succ_self _
            · exact Nat.lt_succ_of_lt (hprev.2 q hq)

/-- The `while` loop keeps the invariant, and it stops with a shard on top that
has `min_validators_per_shard` producers. -/
theorem AssignInvariant.run {numShards fuel : ℕ} {st st' : AssignState T}
    (hinv : AssignInvariant chunkProducers numShards minValidatorsPerShard st)
    (hrun : assignWithPossibleRepeats getStake chunkProducers minValidatorsPerShard fuel st =
      some st') :
    AssignInvariant chunkProducers numShards minValidatorsPerShard st' ∧
      ∃ top, st'.shardIndex.peek = some top ∧ minValidatorsPerShard ≤ top.count := by
  induction fuel generalizing st with
  | zero =>
      unfold assignWithPossibleRepeats at hrun
      split at hrun
      · cases hrun
      · next top hpeek =>
          split at hrun
          · cases hrun
          · next hfull =>
              cases hrun
              exact ⟨hinv, top, hpeek, Nat.le_of_not_lt hfull⟩
  | succ fuel ih =>
      unfold assignWithPossibleRepeats at hrun
      split at hrun
      · cases hrun
      · next top hpeek =>
          split at hrun
          · next hneed =>
              obtain ⟨st₁, hstep, hrest⟩ := Option.bind_eq_some_iff.mp hrun
              exact ih (hinv.step hpeek hneed hstep) hrest
          · next hfull =>
              cases hrun
              exact ⟨hinv, top, hpeek, Nat.le_of_not_lt hfull⟩

/-- When the loop has stopped, every shard has `min_validators_per_shard`
producers. -/
theorem AssignInvariant.sum_count_eq {numShards : ℕ} {st : AssignState T} {top : ShardLoad}
    (hinv : AssignInvariant chunkProducers numShards minValidatorsPerShard st)
    (hpeek : st.shardIndex.peek = some top) (hfull : minValidatorsPerShard ≤ top.count) :
    (st.shardIndex.items.map (·.count)).sum = numShards * minValidatorsPerShard := by
  have hcounts : st.shardIndex.items.map (·.count) = List.replicate numShards minValidatorsPerShard := by
    refine List.eq_replicate_iff.mpr ⟨by simpa [MinHeap.len] using hinv.len_shardIndex, ?_⟩
    intro c hc
    obtain ⟨e, he, rfl⟩ := List.mem_map.mp hc
    have hle := ShardLoad.count_le_of_le (MinHeap.peek_le hpeek he)
    exact Nat.le_antisymm (hinv.count_le e he) (by omega)
  rw [hcounts, List.sum_replicate, smul_eq_mul]

/-! ## The shards of the first phase -/

/-- What the `while` loop keeps of the shards themselves.  The heap holds one
entry for each shard id below `num_shards`; the producers of a shard are those
at the distinct indices it has in `seen`, as many as the heap counts; `seen`
holds indices of producers; during the first pass the shards hold exactly the
producers yielded; and when there are producers enough for every shard, the loop
never leaves the first pass. -/
structure ShardsInvariant (chunkProducers : List T) (numShards minValidatorsPerShard : ℕ)
    (st : AssignState T) : Prop where
  length_result : st.result.length = numShards
  shardIds : (st.shardIndex.items.map (·.shardId)).Perm (List.range numShards)
  indices : ∀ e ∈ st.shardIndex.items, ∃ cs : List ℕ, cs.Nodup ∧ cs.length = e.count ∧
    (∀ c, c ∈ cs ↔ (e.shardId, c) ∈ st.seen) ∧
    st.result[e.shardId]?.map (List.map some) = some (cs.map (chunkProducers[·]?))
  seen_lt : ∀ q ∈ st.seen, q.2 < chunkProducers.length
  firstPass : st.position ≤ chunkProducers.length →
    st.result.flatten.Perm (chunkProducers.take st.position)
  position_le : numShards * minValidatorsPerShard ≤ chunkProducers.length →
    st.position ≤ numShards * minValidatorsPerShard

theorem shardsInvariant_start (numShards : ℕ) :
    ShardsInvariant chunkProducers numShards minValidatorsPerShard
      (AssignState.start numShards) where
  length_result := by simp [AssignState.start]
  shardIds := by simp [AssignState.start, Function.comp_def]
  indices := by
    intro e he
    simp only [AssignState.start, MinHeap.items_ofList, List.mem_map, List.mem_range] at he
    obtain ⟨s, hs, rfl⟩ := he
    exact ⟨[], List.nodup_nil, rfl, by simp [AssignState.start], by simp [AssignState.start, hs]⟩
  seen_lt := by simp [AssignState.start]
  firstPass := fun _ => by simp [AssignState.start]
  position_le := fun _ => Nat.zero_le _

/-- A turn keeps the shards' bookkeeping.  In the first pass it assigns the new
producer, so the shards hold one more of the producers yielded; and the loop
only turns while fewer than `num_shards * min_validators_per_shard` producers
are counted, which in the first pass is the position. -/
theorem ShardsInvariant.step {numShards : ℕ} {st st' : AssignState T} {top : ShardLoad}
    (hinv : AssignInvariant chunkProducers numShards minValidatorsPerShard st)
    (hshards : ShardsInvariant chunkProducers numShards minValidatorsPerShard st)
    (hpeek : st.shardIndex.peek = some top) (hneed : top.count < minValidatorsPerShard)
    (hstep : assignStep getStake chunkProducers minValidatorsPerShard st = some st') :
    ShardsInvariant chunkProducers numShards minValidatorsPerShard st' := by
  obtain ⟨cpIndex, cp, hnext, hposition, hcase⟩ := assignStep_spec hstep
  obtain ⟨-, hcp⟩ := cycleNext_eq_some hnext
  have hcpIndex : cpIndex < chunkProducers.length := (List.getElem?_eq_some_iff.mp hcp).1
  have hpositionLe : numShards * minValidatorsPerShard ≤ chunkProducers.length →
      st'.position ≤ numShards * minValidatorsPerShard := by
    intro hfew
    have hle := hshards.position_le hfew
    have hless := hinv.sum_count_lt (MinHeap.peek_mem hpeek) hneed
    rw [(hinv.firstPass (by omega)).1] at hless
    omega
  rcases hcase with ⟨hperm, hseen, hresult, hall⟩ |
    ⟨e, he, -, hfresh, hshard, hperm, hseen, hresult⟩
  · -- nothing assigned: the same shards, and the first pass is over
    have hdone : chunkProducers.length ≤ st.position := by
      by_contra hlt
      obtain ⟨-, hnew⟩ := hinv.fresh_of_firstPass hnext (by omega)
      exact hnew _ (hall top (MinHeap.peek_mem hpeek) hneed)
    refine ⟨?_, (hperm.map _).trans hshards.shardIds, fun e he => ?_, ?_, fun hle => ?_,
      hpositionLe⟩
    · rw [hresult]
      exact hshards.length_result
    · rw [hseen, hresult]
      exact hshards.indices e (hperm.mem_iff.mp he)
    · rw [hseen]
      exact hshards.seen_lt
    · omega
  · -- `cp` went to the shard `e`
    have hcons := List.perm_cons_erase he
    have hnodup : ((e :: st.shardIndex.items.erase e).map (·.shardId)).Nodup :=
      (hcons.map _).nodup_iff.mp (hshards.shardIds.nodup_iff.mpr List.nodup_range)
    rw [List.map_cons] at hnodup
    refine ⟨?_, (hperm.map _).trans ((hcons.map _).symm.trans hshards.shardIds), fun e' he' => ?_,
      ?_, fun hle => ?_, hpositionLe⟩
    · rw [hresult, List.length_modify]
      exact hshards.length_result
    · rw [hseen, hresult]
      rcases List.mem_cons.mp (hperm.mem_iff.mp he') with rfl | he'
      · -- the shard that took `cp` has one index more
        obtain ⟨cs, hcsNodup, hcsLength, hcsMem, hcsResult⟩ := hshards.indices e he
        obtain ⟨shard, hshardGet, hshardMap⟩ := Option.map_eq_some_iff.mp hcsResult
        refine ⟨cs ++ [cpIndex], ?_, by simp [hcsLength], fun c => ?_, ?_⟩
        · rw [List.nodup_append]
          refine ⟨hcsNodup, List.nodup_singleton _, ?_⟩
          intro c hc c' hc' hcc'
          rw [hcc', List.mem_singleton.mp hc'] at hc
          exact hfresh ((hcsMem _).mp hc)
        · simp [hcsMem, or_comm]
        · rw [List.getElem?_modify_eq, hshardGet]
          simp [hshardMap, hcp]
      · -- every other shard is as it was
        have hne : e.shardId ≠ e'.shardId := by
          intro h
          apply (List.nodup_cons.mp hnodup).1
          rw [h]
          exact List.mem_map_of_mem he'
        obtain ⟨cs, hcsNodup, hcsLength, hcsMem, hcsResult⟩ :=
          hshards.indices e' (List.mem_of_mem_erase he')
        refine ⟨cs, hcsNodup, hcsLength, fun c => ?_, ?_⟩
        · simp [hcsMem, Ne.symm hne]
        · rw [List.getElem?_modify_ne _ _ hne]
          exact hcsResult
    · intro q hq
      rw [hseen] at hq
      rcases List.mem_cons.mp hq with rfl | hq
      · exact hcpIndex
      · exact hshards.seen_lt q hq
    · -- in the first pass the shards gain the producer at `position`
      rw [hposition] at hle
      obtain ⟨rfl, -⟩ := hinv.fresh_of_firstPass hnext (by omega)
      obtain ⟨hlt, hget⟩ := List.getElem?_eq_some_iff.mp hcp
      rw [hresult, hposition, List.take_succ_eq_append_getElem hlt, hget]
      exact (List.flatten_modify_append_perm hshard cp).trans
        ((hshards.firstPass (by omega)).append_right [cp])

/-- The `while` loop keeps both invariants. -/
theorem ShardsInvariant.run {numShards fuel : ℕ} {st st' : AssignState T}
    (hinv : AssignInvariant chunkProducers numShards minValidatorsPerShard st)
    (hshards : ShardsInvariant chunkProducers numShards minValidatorsPerShard st)
    (hrun : assignWithPossibleRepeats getStake chunkProducers minValidatorsPerShard fuel st =
      some st') :
    (AssignInvariant chunkProducers numShards minValidatorsPerShard st' ∧
        ShardsInvariant chunkProducers numShards minValidatorsPerShard st') ∧
      ∃ top, st'.shardIndex.peek = some top ∧ minValidatorsPerShard ≤ top.count :=
  assignWithPossibleRepeats_induction
    (fun st => AssignInvariant chunkProducers numShards minValidatorsPerShard st ∧
      ShardsInvariant chunkProducers numShards minValidatorsPerShard st)
    (fun _ _ _ hst hpeek hneed hstep =>
      ⟨hst.1.step hpeek hneed hstep, hst.2.step hst.1 hpeek hneed hstep⟩)
    ⟨hinv, hshards⟩ hrun

theorem ShardsInvariant.shardId_lt {numShards : ℕ} {st : AssignState T} {e : ShardLoad}
    (hshards : ShardsInvariant chunkProducers numShards minValidatorsPerShard st)
    (he : e ∈ st.shardIndex.items) : e.shardId < st.result.length := by
  have hmem := hshards.shardIds.mem_iff.mp (List.mem_map_of_mem he)
  rw [hshards.length_result]
  exact List.mem_range.mp hmem

/-- A shard that needs more producers than there are has not seen some index:
its indices are distinct and as many as it has producers. -/
theorem ShardsInvariant.exists_not_seen {numShards : ℕ} {st : AssignState T} {e : ShardLoad}
    (hshards : ShardsInvariant chunkProducers numShards minValidatorsPerShard st)
    (he : e ∈ st.shardIndex.items) (hlt : e.count < chunkProducers.length) :
    ∃ c < chunkProducers.length, (e.shardId, c) ∉ st.seen := by
  obtain ⟨cs, hcsNodup, hcsLength, hcsMem, -⟩ := hshards.indices e he
  by_contra hall
  have hsub : List.range chunkProducers.length ⊆ cs := fun c hc =>
    (hcsMem c).mpr (by_contra fun hnot => hall ⟨c, List.mem_range.mp hc, hnot⟩)
  have hle := List.nodup_range.length_le_of_subset hsub
  rw [List.length_range] at hle
  omega

/-! ## Termination of the `while` loop

Every turn either assigns a producer, which the heap counts, or skips one that
every shard still needing producers has already.  A shard that needs producers
lacks some index, and the cycle reaches that index within `n` turns; so the
loop assigns at least once every `n` turns and stops after at most
`num_shards * min_validators_per_shard * n`. -/

theorem sum_count_of_perm_assign {items items' : List ShardLoad} {e : ShardLoad} {stake : ℕ}
    (he : e ∈ items) (hperm : items'.Perm ({ e with count := e.count + 1, stake := stake } ::
      items.erase e)) :
    (items'.map (·.count)).sum = (items.map (·.count)).sum + 1 := by
  rw [(hperm.map _).sum_eq, ((List.perm_cons_erase he).map (·.count)).sum_eq]
  simp only [List.map_cons, List.sum_cons]
  omega

theorem cycleNext_of_ne_nil (hne : chunkProducers ≠ []) (position : ℕ) :
    ∃ cpIndex cp, cycleNext chunkProducers position = some (cpIndex, cp) := by
  have hlt := Nat.mod_lt position (List.length_pos_of_ne_nil hne)
  exact ⟨_, _, by rw [cycleNext, List.getElem?_eq_getElem hlt, Option.map_some]⟩

/-- The inner loop never panics while every shard id on the heap indexes
`result`. -/
theorem assignToShard_isSome {cpIndex : ℕ} {cp : T} {shardIndex : MinHeap ShardLoad}
    {buffer : List ShardLoad} {seen : List (ℕ × ℕ)} {result : List (List T)}
    (hids : ∀ e ∈ shardIndex.items, e.shardId < result.length) :
    (assignToShard getStake minValidatorsPerShard cpIndex cp shardIndex buffer seen result).isSome := by
  fun_induction assignToShard getStake minValidatorsPerShard cpIndex cp shardIndex buffer seen result with
  | case1 => rfl
  | case2 => rfl
  | case3 => rfl
  | case4 shardIndex buffer top rest hpop hneed hfresh hshard =>
      exact absurd (hids top ((MinHeap.perm_of_pop hpop).mem_iff.mpr List.mem_cons_self)) hshard
  | case5 shardIndex buffer top rest hpop hneed hseen ih =>
      exact ih fun e he => hids e ((MinHeap.perm_of_pop hpop).mem_iff.mpr (List.mem_cons_of_mem _ he))

theorem AssignInvariant.exists_peek {numShards : ℕ} {st : AssignState T}
    (hinv : AssignInvariant chunkProducers numShards minValidatorsPerShard st)
    (hnumShards : 0 < numShards) : ∃ top, st.shardIndex.peek = some top := by
  cases hpeek : st.shardIndex.peek with
  | none =>
      rw [MinHeap.peek_eq_none_iff] at hpeek
      have hlen := hinv.len_shardIndex
      rw [MinHeap.len, hpeek, List.length_nil] at hlen
      omega
  | some top => exact ⟨top, rfl⟩

/-- While fewer producers are counted than the shards need, the shard on top
needs more. -/
theorem AssignInvariant.exists_needy {numShards : ℕ} {st : AssignState T}
    (hinv : AssignInvariant chunkProducers numShards minValidatorsPerShard st)
    (hless : (st.shardIndex.items.map (·.count)).sum < numShards * minValidatorsPerShard) :
    ∃ top, st.shardIndex.peek = some top ∧ top.count < minValidatorsPerShard := by
  have hnumShards : 0 < numShards := Nat.pos_of_ne_zero fun h => by
    rw [h, Nat.zero_mul] at hless
    exact Nat.not_lt_zero _ hless
  obtain ⟨top, hpeek⟩ := hinv.exists_peek hnumShards
  refine ⟨top, hpeek, Nat.lt_of_not_le fun hfull => ?_⟩
  rw [hinv.sum_count_eq hpeek hfull] at hless
  exact Nat.lt_irrefl _ hless

/-- While some shard needs producers, the loop takes a turn that does not panic. -/
theorem assignWithPossibleRepeats_turn {numShards : ℕ} (fuel : ℕ) {st : AssignState T}
    (hinv : AssignInvariant chunkProducers numShards minValidatorsPerShard st)
    (hshards : ShardsInvariant chunkProducers numShards minValidatorsPerShard st)
    (hmin : minValidatorsPerShard ≤ chunkProducers.length)
    (hless : (st.shardIndex.items.map (·.count)).sum < numShards * minValidatorsPerShard) :
    ∃ top st₁, st.shardIndex.peek = some top ∧ top.count < minValidatorsPerShard ∧
      assignStep getStake chunkProducers minValidatorsPerShard st = some st₁ ∧
      assignWithPossibleRepeats getStake chunkProducers minValidatorsPerShard (fuel + 1) st =
        assignWithPossibleRepeats getStake chunkProducers minValidatorsPerShard fuel st₁ := by
  obtain ⟨top, hpeek, hneed⟩ := hinv.exists_needy hless
  have hne : chunkProducers ≠ [] := List.ne_nil_of_length_pos (by omega)
  obtain ⟨cpIndex, cp, hnext⟩ := cycleNext_of_ne_nil hne st.position
  obtain ⟨loop, hloop⟩ := Option.isSome_iff_exists.mp
    (@assignToShard_isSome _ getStake minValidatorsPerShard cpIndex cp st.shardIndex [] st.seen st.result
      fun e he => hshards.shardId_lt he)
  have hstep : assignStep getStake chunkProducers minValidatorsPerShard st =
      some ⟨loop.1.extend loop.2.1, loop.2.2.2, loop.2.2.1, st.position + 1⟩ := by
    rw [assignStep, hnext]
    dsimp only
    rw [hloop]
    rfl
  refine ⟨top, _, hpeek, hneed, hstep, ?_⟩
  rw [assignWithPossibleRepeats_of_needy hpeek hneed, hstep, Option.bind_some]

/-- The turns until the loop next assigns a producer: while a shard that needs
producers lacks the one `j` places ahead in the cycle, an assignment comes
within `j + 1` turns, and from there `d * n` more turns suffice by `ih`. -/
theorem assignWithPossibleRepeats_isSome_of_lacks {numShards d : ℕ}
    (hmin : minValidatorsPerShard ≤ chunkProducers.length)
    (ih : ∀ (st : AssignState T) fuel,
      AssignInvariant chunkProducers numShards minValidatorsPerShard st →
      ShardsInvariant chunkProducers numShards minValidatorsPerShard st →
      numShards * minValidatorsPerShard - (st.shardIndex.items.map (·.count)).sum = d →
      d * chunkProducers.length ≤ fuel →
      (assignWithPossibleRepeats getStake chunkProducers minValidatorsPerShard fuel st).isSome)
    (j : ℕ) :
    ∀ (st : AssignState T) fuel,
      AssignInvariant chunkProducers numShards minValidatorsPerShard st →
      ShardsInvariant chunkProducers numShards minValidatorsPerShard st →
      numShards * minValidatorsPerShard - (st.shardIndex.items.map (·.count)).sum = d + 1 →
      (∃ e ∈ st.shardIndex.items, e.count < minValidatorsPerShard ∧
        (e.shardId, (st.position + j) % chunkProducers.length) ∉ st.seen) →
      d * chunkProducers.length + j + 1 ≤ fuel →
      (assignWithPossibleRepeats getStake chunkProducers minValidatorsPerShard fuel st).isSome := by
  induction j with
  | zero =>
      intro st fuel hinv hshards hd hlacks hfuel
      obtain ⟨fuel, rfl⟩ : ∃ fuel', fuel = fuel' + 1 := ⟨fuel - 1, by omega⟩
      obtain ⟨top, st₁, hpeek, hneed, hstep, hrun⟩ :=
        assignWithPossibleRepeats_turn fuel hinv hshards hmin (by omega)
      rw [hrun]
      obtain ⟨cpIndex, cp, hnext, -, hcase⟩ := assignStep_spec hstep
      obtain ⟨hindex, -⟩ := cycleNext_eq_some hnext
      rcases hcase with ⟨-, -, -, hall⟩ | ⟨e, he, -, -, -, hperm, -, -⟩
      · -- the producer at `position` is one that a needy shard lacks: it cannot be skipped
        obtain ⟨e, he, hneed', hnot⟩ := hlacks
        rw [Nat.add_zero, ← hindex] at hnot
        exact absurd (hall e he hneed') hnot
      · have hsum := sum_count_of_perm_assign he hperm
        exact ih st₁ fuel (hinv.step hpeek hneed hstep) (hshards.step hinv hpeek hneed hstep)
          (by have := hinv.sum_count_le; omega) (by omega)
  | succ k ihk =>
      intro st fuel hinv hshards hd hlacks hfuel
      obtain ⟨fuel, rfl⟩ : ∃ fuel', fuel = fuel' + 1 := ⟨fuel - 1, by omega⟩
      obtain ⟨top, st₁, hpeek, hneed, hstep, hrun⟩ :=
        assignWithPossibleRepeats_turn fuel hinv hshards hmin (by omega)
      rw [hrun]
      obtain ⟨cpIndex, cp, -, hposition, hcase⟩ := assignStep_spec hstep
      have hinv₁ := hinv.step hpeek hneed hstep
      have hshards₁ := hshards.step hinv hpeek hneed hstep
      rcases hcase with ⟨hperm, hseen, -, -⟩ | ⟨e, he, -, -, -, hperm, -, -⟩
      · -- skipped: the same shards, one place further along the cycle
        obtain ⟨e, he, hneed', hnot⟩ := hlacks
        refine ihk st₁ fuel hinv₁ hshards₁ (by rw [(hperm.map _).sum_eq]; exact hd)
          ⟨e, hperm.mem_iff.mpr he, hneed', ?_⟩ (by omega)
        rw [hseen, hposition, Nat.add_assoc, Nat.add_comm 1 k]
        exact hnot
      · have hsum := sum_count_of_perm_assign he hperm
        exact ih st₁ fuel hinv₁ hshards₁ (by have := hinv.sum_count_le; omega) (by omega)

/-- The `while` loop stops, without panicking, within `d * n` turns, where `d`
is the number of producers the shards still need. -/
theorem assignWithPossibleRepeats_isSome {numShards : ℕ} (hnumShards : 0 < numShards)
    (hmin : minValidatorsPerShard ≤ chunkProducers.length) (d : ℕ) :
    ∀ (st : AssignState T) fuel,
      AssignInvariant chunkProducers numShards minValidatorsPerShard st →
      ShardsInvariant chunkProducers numShards minValidatorsPerShard st →
      numShards * minValidatorsPerShard - (st.shardIndex.items.map (·.count)).sum = d →
      d * chunkProducers.length ≤ fuel →
      (assignWithPossibleRepeats getStake chunkProducers minValidatorsPerShard fuel st).isSome := by
  induction d with
  | zero =>
      intro st fuel hinv hshards hd _
      obtain ⟨top, hpeek⟩ := hinv.exists_peek hnumShards
      have hfull : minValidatorsPerShard ≤ top.count := by
        by_contra hneed
        have hless := hinv.sum_count_lt (MinHeap.peek_mem hpeek) (Nat.lt_of_not_le hneed)
        omega
      rw [assignWithPossibleRepeats_of_full hpeek hfull]
      rfl
  | succ d ih =>
      -- a shard that needs producers lacks one, which the cycle reaches within `n` turns
      intro st fuel hinv hshards hd hfuel
      obtain ⟨top, hpeek, hneed⟩ := hinv.exists_needy (by omega)
      obtain ⟨c, hc, hnot⟩ := hshards.exists_not_seen (MinHeap.peek_mem hpeek) (by omega)
      obtain ⟨j, hj, hjc⟩ := List.exists_add_mod_eq st.position hc
      refine assignWithPossibleRepeats_isSome_of_lacks hmin ih j st fuel hinv hshards hd
        ⟨top, MinHeap.peek_mem hpeek, hneed, by rw [hjc]; exact hnot⟩ ?_
      rw [Nat.succ_mul] at hfuel
      omega

/-! ## The second phase and `assign_shards` -/

/-- The second phase takes the producers at positions `position`, ...,
`position + remaining - 1` of the cycle, each into some shard. -/
theorem assignRemaining_spec {remaining position : ℕ} {shardIndex : MinHeap ShardStake}
    {result result' : List (List T)}
    (h : assignRemaining getStake chunkProducers remaining shardIndex result position = some result')
    (hmem : ∀ s ∈ result, ∀ x ∈ s, x ∈ chunkProducers) :
    (∀ s ∈ result', ∀ x ∈ s, x ∈ chunkProducers) ∧
      (∀ x, (∃ s ∈ result, x ∈ s) → ∃ s ∈ result', x ∈ s) ∧
      ∀ k (hk : k < chunkProducers.length), position ≤ k → k < position + remaining →
        ∃ s ∈ result', chunkProducers[k] ∈ s := by
  induction remaining generalizing shardIndex result position with
  | zero =>
      cases h
      exact ⟨hmem, fun _ hx => hx, fun k _ hle hlt => absurd hlt (by omega)⟩
  | succ remaining ih =>
      unfold assignRemaining at h
      split at h
      · -- an empty list: nothing to take
        next hnext =>
          cases h
          refine ⟨hmem, fun _ hx => hx, fun k hk _ _ => ?_⟩
          have hnil : chunkProducers = [] := by
            by_contra hne
            have hlt := Nat.mod_lt position (List.length_pos_of_ne_nil hne)
            simp only [cycleNext, Option.map_eq_none_iff, List.getElem?_eq_none_iff] at hnext
            omega
          simp [hnil] at hk
      · next cpIndex cp hnext =>
          obtain ⟨hindex, hcp⟩ := cycleNext_eq_some hnext
          split at h
          · cases h
          · next top rest hpop =>
              split at h
              · next hshard =>
                  have hmem' := List.forall_mem_modify_append top.shardId hmem (List.mem_of_getElem? hcp)
                  obtain ⟨hmem'', hkeep, hcover⟩ := ih h hmem'
                  refine ⟨hmem'', fun x hx => hkeep x (List.exists_mem_modify_append _ _ hx), ?_⟩
                  intro k hk hle hlt
                  rcases Nat.lt_or_ge position k with hgt | hle'
                  · exact hcover k hk hgt (by omega)
                  · -- `k = position`, the producer taken now
                    have hk' : k = position := by omega
                    subst hk'
                    rw [hindex, Nat.mod_eq_of_lt hk] at hcp
                    obtain ⟨_, hget⟩ := List.getElem?_eq_some_iff.mp hcp
                    rw [hget]
                    exact hkeep cp (List.exists_mem_modify_append_self hshard cp)
              · cases h

/-- The second phase only appends to shards, so each shard keeps its producers
in front; and within the first pass of the cycle it adds each producer it
takes to one shard. -/
theorem assignRemaining_shards {remaining position : ℕ} {shardIndex : MinHeap ShardStake}
    {result result' : List (List T)}
    (h : assignRemaining getStake chunkProducers remaining shardIndex result position =
      some result') :
    result'.length = result.length ∧
      (∀ (i : ℕ) (s : List T), result[i]? = some s → ∃ s', result'[i]? = some s' ∧ s <+: s') ∧
      (position + remaining ≤ chunkProducers.length →
        result'.flatten.Perm (result.flatten ++ (chunkProducers.drop position).take remaining)) := by
  induction remaining generalizing shardIndex result position with
  | zero =>
      cases h
      exact ⟨rfl, fun i s hs => ⟨s, hs, List.prefix_refl s⟩, fun _ => by simp⟩
  | succ remaining ih =>
      unfold assignRemaining at h
      split at h
      · -- an empty list: nothing to take, and no pass to be in
        next hnext =>
          cases h
          refine ⟨rfl, fun i s hs => ⟨s, hs, List.prefix_refl s⟩, fun hle => ?_⟩
          have hne : chunkProducers ≠ [] := List.ne_nil_of_length_pos (by omega)
          obtain ⟨_, _, hsome⟩ := cycleNext_of_ne_nil hne position
          rw [hnext] at hsome
          cases hsome
      · next cpIndex cp hnext =>
          obtain ⟨hindex, hcp⟩ := cycleNext_eq_some hnext
          split at h
          · cases h
          · next top rest hpop =>
              split at h
              · next hshard =>
                  obtain ⟨hlength, hfront, hperm⟩ := ih h
                  refine ⟨by rw [hlength, List.length_modify], fun i s hs => ?_, fun hle => ?_⟩
                  · have hs₁ : (result.modify top.shardId (· ++ [cp]))[i]? =
                        some (if top.shardId = i then s ++ [cp] else s) := by
                      rw [List.getElem?_modify, hs]
                      rfl
                    obtain ⟨s', hs', hfront'⟩ := hfront i _ hs₁
                    refine ⟨s', hs', List.IsPrefix.trans ?_ hfront'⟩
                    split
                    · exact List.prefix_append s [cp]
                    · exact List.prefix_refl s
                  · -- the producer taken now is the one at `position`
                    have hlt : position < chunkProducers.length := by omega
                    rw [hindex, Nat.mod_eq_of_lt hlt] at hcp
                    obtain ⟨hlt', hget⟩ := List.getElem?_eq_some_iff.mp hcp
                    rw [List.drop_eq_getElem_cons hlt, List.take_succ_cons, hget]
                    have hstep := (List.flatten_modify_append_perm hshard cp).append_right
                      ((chunkProducers.drop (position + 1)).take remaining)
                    rw [List.append_assoc, List.singleton_append] at hstep
                    exact (hperm (by omega)).trans hstep
              · cases h

/-- The second phase never panics while the heap is not empty and its shard ids
index `result`. -/
theorem assignRemaining_isSome {remaining position : ℕ} {shardIndex : MinHeap ShardStake}
    {result : List (List T)} (hlen : 0 < shardIndex.len)
    (hids : ∀ e ∈ shardIndex.items, e.shardId < result.length) :
    (assignRemaining getStake chunkProducers remaining shardIndex result position).isSome := by
  induction remaining generalizing shardIndex result position with
  | zero => rfl
  | succ remaining ih =>
      unfold assignRemaining
      split
      · rfl
      · obtain ⟨top, rest, hpop⟩ : ∃ top rest, shardIndex.pop = some (top, rest) := by
          cases hpop : shardIndex.pop with
          | none =>
              rw [MinHeap.pop_eq_none_iff] at hpop
              rw [MinHeap.len, hpop, List.length_nil] at hlen
              exact absurd hlen (Nat.lt_irrefl 0)
          | some entry => exact ⟨entry.1, entry.2, rfl⟩
        have hperm := MinHeap.perm_of_pop hpop
        have htop := hids top (hperm.mem_iff.mpr List.mem_cons_self)
        rw [hpop]
        dsimp only
        rw [if_pos htop]
        refine ih (by simp [MinHeap.len]) fun e he => ?_
        rw [List.length_modify]
        rw [MinHeap.items_push, List.mem_append, List.mem_singleton] at he
        rcases he with he | rfl
        · exact hids e (hperm.mem_iff.mpr (List.mem_cons_of_mem _ he))
        · exact htop

theorem assignInvariant_start (numShards : ℕ) :
    AssignInvariant chunkProducers numShards minValidatorsPerShard (AssignState.start numShards) where
  len_shardIndex := by simp [AssignState.start, MinHeap.len]
  count_le := by simp [AssignState.start]
  mem_result := by simp [AssignState.start]
  covered := fun _ _ hk => absurd hk (Nat.not_lt_zero _)
  firstPass := fun _ => by simp [AssignState.start, Function.comp_def]

/-- `assign_shards` taken apart: both phases ran. -/
theorem assignShards_eq_ok {numShards fuel : ℕ} {result : List (List T)}
    (h : assignShards getStake chunkProducers numShards minValidatorsPerShard fuel =
      some (.ok result)) :
    ∃ st, assignWithPossibleRepeats getStake chunkProducers minValidatorsPerShard fuel
        (AssignState.start numShards) = some st ∧
      assignRemaining getStake chunkProducers
        (chunkProducers.length - numShards * minValidatorsPerShard)
        (MinHeap.ofList (st.shardIndex.items.map fun e => ⟨e.stake, e.count, e.shardId⟩))
        st.result st.position = some result := by
  unfold assignShards at h
  split_ifs at h
  · -- too few producers for one shard: an error
    cases h
  · split at h
    · cases h
    · next st hrun =>
        obtain ⟨result', hrest, hok⟩ := Option.map_eq_some_iff.mp h
        cases hok
        exact ⟨st, hrun, hrest⟩

/-- Every shard of `assign_shards` holds chunk producers only. -/
theorem assignShards_mem {numShards fuel : ℕ} {result : List (List T)}
    (h : assignShards getStake chunkProducers numShards minValidatorsPerShard fuel =
      some (.ok result)) :
    ∀ s ∈ result, ∀ x ∈ s, x ∈ chunkProducers := by
  obtain ⟨st, hrun, hrest⟩ := assignShards_eq_ok h
  obtain ⟨hinv, -⟩ := (assignInvariant_start numShards).run hrun
  exact (assignRemaining_spec hrest hinv.mem_result).1

/-- Every chunk producer is in some shard of `assign_shards`. -/
theorem assignShards_covers {numShards fuel : ℕ} {result : List (List T)}
    (h : assignShards getStake chunkProducers numShards minValidatorsPerShard fuel =
      some (.ok result)) :
    ∀ x ∈ chunkProducers, ∃ s ∈ result, x ∈ s := by
  obtain ⟨st, hrun, hrest⟩ := assignShards_eq_ok h
  obtain ⟨hinv, top, hpeek, hfull⟩ := (assignInvariant_start numShards).run hrun
  obtain ⟨-, hkeep, hcover⟩ := assignRemaining_spec hrest hinv.mem_result
  intro x hx
  obtain ⟨k, hk, rfl⟩ := List.getElem_of_mem hx
  by_cases hpass : st.position ≤ chunkProducers.length
  · -- the first phase stopped within the first pass, so it took exactly
    have hposition : st.position = numShards * minValidatorsPerShard := by
      rw [← (hinv.firstPass hpass).1, hinv.sum_count_eq hpeek hfull]
    by_cases hfirst : k < st.position
    · exact hkeep _ (hinv.covered k hk hfirst)
    · exact hcover k hk (by omega) (by omega)
  · exact hkeep _ (hinv.covered k hk (by omega))


/-- When the loop has stopped, shard `i` holds `min_validators_per_shard`
producers, at distinct indices. -/
theorem ShardsInvariant.shard_of_full {numShards i : ℕ} {st : AssignState T} {top : ShardLoad}
    (hinv : AssignInvariant chunkProducers numShards minValidatorsPerShard st)
    (hshards : ShardsInvariant chunkProducers numShards minValidatorsPerShard st)
    (hpeek : st.shardIndex.peek = some top) (hfull : minValidatorsPerShard ≤ top.count)
    (hi : i < numShards) :
    ∃ s, st.result[i]? = some s ∧ s.length = minValidatorsPerShard ∧ s.Subperm chunkProducers := by
  obtain ⟨e, he, rfl⟩ := List.mem_map.mp (hshards.shardIds.mem_iff.mpr (List.mem_range.mpr hi))
  obtain ⟨cs, hcsNodup, hcsLength, hcsMem, hcsResult⟩ := hshards.indices e he
  obtain ⟨s, hs, hsMap⟩ := Option.map_eq_some_iff.mp hcsResult
  have hcount : e.count = minValidatorsPerShard := Nat.le_antisymm (hinv.count_le e he)
    (hfull.trans (ShardLoad.count_le_of_le (MinHeap.peek_le hpeek he)))
  refine ⟨s, hs, ?_, ?_⟩
  · have hlength := congrArg List.length hsMap
    rw [List.length_map, List.length_map, hcsLength, hcount] at hlength
    exact hlength
  · -- distinct indices below `n` pick a sub-multiset of the producers
    have hsub : cs.Subperm (List.range chunkProducers.length) := List.subperm_of_subset hcsNodup
      fun c hc => List.mem_range.mpr (hshards.seen_lt _ ((hcsMem c).mp hc))
    have hmap : (cs.map (chunkProducers[·]?)).Subperm
        ((List.range chunkProducers.length).map (chunkProducers[·]?)) := by
      obtain ⟨l, hl, hls⟩ := hsub
      exact ⟨l.map _, hl.map _, hls.map _⟩
    rw [List.map_getElem?_range, ← hsMap] at hmap
    exact (List.map_subperm_map_iff (Option.some_injective T)).mp hmap

/-- `assign_shards` returns once the first phase has fuel for
`num_shards * min_validators_per_shard * n` turns. -/
theorem assignShards_isSome {numShards fuel : ℕ}
    (hsorted : chunkProducers.Pairwise fun a b => getStake b ≤ getStake a)
    (hnumShards : 0 < numShards) (hmin : minValidatorsPerShard ≤ chunkProducers.length)
    (hfuel : numShards * minValidatorsPerShard * chunkProducers.length ≤ fuel) :
    ∃ result, assignShards getStake chunkProducers numShards minValidatorsPerShard fuel =
      some (.ok result) := by
  have hstart : numShards * minValidatorsPerShard -
      ((AssignState.start numShards : AssignState T).shardIndex.items.map (·.count)).sum =
      numShards * minValidatorsPerShard := by
    simp [AssignState.start, Function.comp_def]
  have hsome : (assignWithPossibleRepeats getStake chunkProducers minValidatorsPerShard fuel
      (AssignState.start numShards)).isSome :=
    assignWithPossibleRepeats_isSome hnumShards hmin _ _ fuel (assignInvariant_start numShards)
      (shardsInvariant_start numShards) hstart hfuel
  obtain ⟨st, hrun⟩ := Option.isSome_iff_exists.mp hsome
  obtain ⟨⟨hinv, hshards⟩, -⟩ :=
    ShardsInvariant.run (assignInvariant_start numShards) (shardsInvariant_start numShards) hrun
  have hremaining : (assignRemaining getStake chunkProducers
      (chunkProducers.length - numShards * minValidatorsPerShard)
      (MinHeap.ofList (st.shardIndex.items.map fun e => ⟨e.stake, e.count, e.shardId⟩))
      st.result st.position).isSome := by
    refine assignRemaining_isSome ?_ fun e he => ?_
    · rw [MinHeap.len, MinHeap.items_ofList, List.length_map, ← MinHeap.len, hinv.len_shardIndex]
      exact hnumShards
    · rw [MinHeap.items_ofList, List.mem_map] at he
      obtain ⟨e', he', rfl⟩ := he
      exact hshards.shardId_lt he'
  obtain ⟨result, hresult⟩ := Option.isSome_iff_exists.mp hremaining
  have hcheck : ((chunkProducers.zip chunkProducers.tail).all fun (a, b) =>
      getStake b ≤ getStake a) = true := by
    rw [List.all_eq_true]
    rintro ⟨a, b⟩ hab
    exact decide_eq_true (List.IsChain.forall_mem_zip_tail hsorted.isChain (a, b) hab)
  refine ⟨result, ?_⟩
  rw [assignShards, hcheck, Bool.not_true, if_neg Bool.false_ne_true,
    if_neg (Nat.not_lt.mpr hmin), hrun]
  dsimp only
  rw [hresult]
  rfl

/-- Three producers of equal stake, three shards of two: the first phase takes
producer `0` round three times and producer `2` once, so the numbers of shards
per producer differ by two. -/
theorem assignShards_unbalanced :
    assignShards (fun _ => 0) [0, 1, 2] 3 2 18 = some (.ok [[0, 1], [1, 0], [2, 0]]) ∧
      ([[0, 1], [1, 0], [2, 0]].filter (0 ∈ ·)).length = 3 ∧
      ([[0, 1], [1, 0], [2, 0]].filter (2 ∈ ·)).length = 1 := by
  decide +kernel

/-- The stakes of `test_validator_assignment_all_block_producers`: the first
phase gives one producer to each shard, the second the last one to the shard
with less stake. -/
example : assignShards id [2000, 1000, 300] 2 1 10 = some (.ok [[2000], [1000, 300]]) := by
  decide +kernel

end Spec

end Nearcore.EpochManager
