import Nearcore.BTreeMap
import Nearcore.BTreeSet
import Nearcore.RustArith

/-!
# The route-back cache

`RouteBackCache` (`chain/network/src/routing/route_back_cache.rs`) remembers, for each message
hash, the peer a response should be routed back to and the instant it arrived (`main`).  To
pick what to drop when it is full, it also keeps, per peer, the set of its records ordered by
arrival (`record_per_target`) and the set of pairs `(capacity - n_p, p)` of the peers with
`n_p > 0` records (`size_per_target`), whose least element is the peer with the most records.
When an `insert` or `remove` finds the cache full, `remove_evicted` first drops the
`remove_frequent_min_size` oldest records of that peer (`remove_frequent`), and then every
record older than `evict_timeout`.

Peers and hashes are of any ordered types; `CryptoHash::default()`, the hash of zeros, is the
least hash.  Instants are natural numbers, and each call reads the clock once.

The invariant `Consistent` is what the source's `check_consistency` checks: the two indices
describe `main` exactly.  Every call keeps it and never panics (`Consistent.step`), a record
only appears through an `insert` of its hash, and a record disappears only through a `remove`
of its hash, by eviction after `evict_timeout`, or among the oldest records of a peer with the
most records (`step_main`).
-/

namespace Nearcore.Network

/-- `RouteBackCache`.  The `HashMap` `main` is only read by key, so an ordered map stands
for it. -/
structure RouteBackCache (P H : Type) [LinearOrder P] [LinearOrder H] where
  capacity : ℕ
  evictTimeout : ℕ
  removeFrequentMinSize : ℕ
  main : BTreeMap H (ℕ × P)
  sizePerTarget : BTreeSet (ℕ ×ₗ P)
  recordPerTarget : BTreeMap P (BTreeSet (ℕ ×ₗ H))

namespace RouteBackCache

section Model

variable {P H : Type} [LinearOrder P] [LinearOrder H] [OrderBot H]

/-- `RouteBackCache::new`; `none` where `assert!(capacity > 0)` fails. -/
def new (capacity evictTimeout removeFrequentMinSize : ℕ) : Option (RouteBackCache P H) :=
  if capacity > 0 then
    some ⟨capacity, evictTimeout, removeFrequentMinSize, BTreeMap.empty, BTreeSet.empty,
      BTreeMap.empty⟩
  else none

def isFull (self : RouteBackCache P H) : Bool := self.capacity == self.main.size

/-- The records `remove_frequent` drops and those it keeps: `split_off` at the `n`-th record
and `swap`, or all of them when there are at most `n`. -/
def splitOldest (records : BTreeSet (ℕ ×ₗ H)) (n : ℕ) : BTreeSet (ℕ ×ₗ H) × BTreeSet (ℕ ×ₗ H) :=
  match records.nth? n with
  | some key => records.splitOff key
  | none => (records, BTreeSet.empty)

/-- `remove_frequent`: drops the `remove_frequent_min_size` oldest records, or all, of the peer
first in `size_per_target`; `none` where the `unwrap` of that first entry or a `usize`
subtraction panics. -/
def removeFrequent (self : RouteBackCache P H) : Option (RouteBackCache P H) := do
  let (size, target) := ofLex (← self.sizePerTarget.first?)
  let (main, recordPerTarget, removed) :=
    match self.recordPerTarget.get? target with
    | some records =>
        let (toRemove, records) := splitOldest records self.removeFrequentMinSize
        let main := toRemove.elems.foldl (fun main record => main.erase (ofLex record).2) self.main
        let recordPerTarget :=
          if records.isEmpty then self.recordPerTarget.erase target
          else self.recordPerTarget.insert target records
        (main, recordPerTarget, toRemove.len)
    | none => (self.main, self.recordPerTarget, 0)
  let sizePerTarget := self.sizePerTarget.erase (toLex (size, target))
  let size := size + removed
  let sizePerTarget ←
    if (← Usize.sub self.capacity size) ≠ 0 then some (sizePerTarget.insert (toLex (size, target)))
    else some sizePerTarget
  return { self with main, sizePerTarget, recordPerTarget }

/-- The state the eviction loop of `remove_evicted` carries: `main`, `size_per_target`,
`record_per_target` and the peers left without records. -/
abbrev EvictState (P H : Type) [LinearOrder P] [LinearOrder H] :=
  BTreeMap H (ℕ × P) × BTreeSet (ℕ ×ₗ P) × BTreeMap P (BTreeSet (ℕ ×ₗ H)) × List P

/-- One turn of the eviction loop, at a peer and its records: the records before
`remove_until` go; `none` where a `usize` subtraction panics. -/
def evictTarget (capacity removeUntil : ℕ) (state : EvictState P H)
    (entry : P × BTreeSet (ℕ ×ₗ H)) : Option (EvictState P H) := do
  let (main, sizePerTarget, recordPerTarget, removeEmpty) := state
  let (key, value) := entry
  let prevSize := value.len
  let (evicted, keep) := value.splitOff (toLex (removeUntil, ⊥))
  let main := evicted.elems.foldl (fun main record => main.erase (ofLex record).2) main
  let recordPerTarget := recordPerTarget.insert key keep
  let newSize := keep.len
  let sizePerTarget ←
    if prevSize ≠ newSize then do
      let sizePerTarget := sizePerTarget.erase (toLex (← Usize.sub capacity prevSize, key))
      if newSize > 0 then some (sizePerTarget.insert (toLex (← Usize.sub capacity newSize, key)))
      else some sizePerTarget
    else some sizePerTarget
  return (main, sizePerTarget, recordPerTarget,
    if newSize = 0 then removeEmpty ++ [key] else removeEmpty)

/-- `remove_evicted`: on a full cache, `remove_frequent`, and then every record older than
`now - evict_timeout` goes; nothing goes by age while `now` is below `evict_timeout`. -/
def removeEvicted (self : RouteBackCache P H) (now : ℕ) : Option (RouteBackCache P H) :=
  if self.isFull then do
    let self ← self.removeFrequent
    if self.evictTimeout ≤ now then do
      let removeUntil := now - self.evictTimeout
      let (main, sizePerTarget, recordPerTarget, removeEmpty) ←
        self.recordPerTarget.entries.foldlM (evictTarget self.capacity removeUntil)
          (self.main, self.sizePerTarget, self.recordPerTarget, [])
      let recordPerTarget := removeEmpty.foldl BTreeMap.erase recordPerTarget
      return { self with main, sizePerTarget, recordPerTarget }
    else return self
  else some self

/-- `get`. -/
def get (self : RouteBackCache P H) (hash : H) : Option P := (self.main.get? hash).map Prod.snd

/-- `remove`: the cache afterwards and the peer the hash was kept for; `none` where an `unwrap`
or a `usize` subtraction panics. -/
def remove (self : RouteBackCache P H) (now : ℕ) (hash : H) :
    Option (RouteBackCache P H × Option P) := do
  let self ← self.removeEvicted now
  match self.main.get? hash with
  | some (time, target) =>
      let main := self.main.erase hash
      let size ← (self.recordPerTarget.get? target).map BTreeSet.len
      let sizePerTarget := self.sizePerTarget.erase (toLex (← Usize.sub self.capacity size, target))
      let recordPerTarget :=
        match self.recordPerTarget.get? target with
        | some records => self.recordPerTarget.insert target (records.erase (toLex (time, hash)))
        | none => self.recordPerTarget
      let size ← Usize.sub size 1
      if size = 0 then
        let recordPerTarget := recordPerTarget.erase target
        return ({ self with main, sizePerTarget, recordPerTarget }, some target)
      else
        let sizePerTarget := sizePerTarget.insert (toLex (← Usize.sub self.capacity size, target))
        return ({ self with main, sizePerTarget, recordPerTarget }, some target)
  | none => return (self, none)

/-- `insert`: nothing for a hash already kept; `none` where a `usize` subtraction panics. -/
def insert (self : RouteBackCache P H) (now : ℕ) (hash : H) (target : P) :
    Option (RouteBackCache P H) :=
  if (self.main.get? hash).isSome then some self
  else do
    let self ← self.removeEvicted now
    let main := self.main.insert hash (now, target)
    let size := ((self.recordPerTarget.get? target).map BTreeSet.len).getD 0
    let sizePerTarget ←
      if size > 0 then do
        some (self.sizePerTarget.erase (toLex (← Usize.sub self.capacity size, target)))
      else some self.sizePerTarget
    let records := (self.recordPerTarget.get? target).getD BTreeSet.empty
    let recordPerTarget := self.recordPerTarget.insert target (records.insert (toLex (now, hash)))
    let size := size + 1
    let sizePerTarget := sizePerTarget.insert (toLex (← Usize.sub self.capacity size, target))
    return { self with main, sizePerTarget, recordPerTarget }

/-- `check_consistency` of the source's tests: `true` where none of its assertions fails, an
`unwrap` or a `usize` subtraction that panics failing it too. -/
def checkConsistency (c : RouteBackCache P H) : Bool :=
  decide (c.main.size ≤ c.capacity) &&
    c.sizePerTarget.len == c.recordPerTarget.size &&
    c.sizePerTarget.elems.all (fun entry =>
      match Usize.sub c.capacity (ofLex entry).1 with
      | some size =>
          decide (0 < size) &&
            (c.recordPerTarget.get? (ofLex entry).2).map BTreeSet.len == some size
      | none => false) &&
    c.recordPerTarget.entries.all (fun entry =>
      entry.2.elems.all fun record =>
        c.main.get? (ofLex record).2 == some ((ofLex record).1, entry.1)) &&
    c.main.size == (c.recordPerTarget.entries.map fun entry => entry.2.len).sum

/-- A call on the cache, with the instant the clock reads for it. -/
inductive Call (P H : Type) where
  | insert (now : ℕ) (hash : H) (target : P)
  | remove (now : ℕ) (hash : H)
  | get (hash : H)

/-- The instant a call reads; `get` does not read the clock. -/
def Call.now? : Call P H → Option ℕ
  | .insert now _ _ => some now
  | .remove now _ => some now
  | .get _ => none

/-- One call: the cache afterwards and what the call returns; `none` where it panics. -/
def step (c : RouteBackCache P H) : Call P H → Option (RouteBackCache P H × Option P)
  | .insert now hash target => (c.insert now hash target).map fun c' => (c', none)
  | .remove now hash => c.remove now hash
  | .get hash => some (c, c.get hash)

/-- The cache after a sequence of calls; `none` where one of them panics. -/
def runCalls (c : RouteBackCache P H) (calls : List (Call P H)) : Option (RouteBackCache P H) :=
  calls.foldlM (fun c call => (c.step call).map Prod.fst) c

end Model

section Consistency

variable {P H : Type} [LinearOrder P] [LinearOrder H]

/-- What `check_consistency` checks: `record_per_target[p]` holds exactly the records `(t, h)`
with `main[h] = (t, p)`, and only for peers with records; `size_per_target` holds exactly one
pair `(capacity - n_p, p)` for each of them; and `main` is within the capacity. -/
structure Consistent (c : RouteBackCache P H) : Prop where
  size_le : c.main.size ≤ c.capacity
  mem_records : ∀ p records, c.recordPerTarget.get? p = some records →
    ∀ t h, toLex (t, h) ∈ records.elems ↔ c.main.get? h = some (t, p)
  records_ne_nil : ∀ p records, c.recordPerTarget.get? p = some records → records.elems ≠ []
  records_isSome : ∀ h t p, c.main.get? h = some (t, p) → (c.recordPerTarget.get? p).isSome
  mem_sizes : ∀ n p, toLex (n, p) ∈ c.sizePerTarget.elems ↔
    ∃ records, c.recordPerTarget.get? p = some records ∧ n + records.len = c.capacity

/-- The settings a call never changes. -/
structure SameSettings (c c' : RouteBackCache P H) : Prop where
  capacity : c'.capacity = c.capacity
  evictTimeout : c'.evictTimeout = c.evictTimeout
  removeFrequentMinSize : c'.removeFrequentMinSize = c.removeFrequentMinSize

theorem SameSettings.trans {c c' c'' : RouteBackCache P H} (h : SameSettings c c')
    (h' : SameSettings c' c'') : SameSettings c c'' :=
  ⟨h'.capacity.trans h.capacity, h'.evictTimeout.trans h.evictTimeout,
    h'.removeFrequentMinSize.trans h.removeFrequentMinSize⟩

theorem consistent_new [OrderBot H] {capacity evictTimeout removeFrequentMinSize : ℕ}
    {c : RouteBackCache P H}
    (h : new capacity evictTimeout removeFrequentMinSize = some c) : Consistent c := by
  unfold new at h
  split_ifs at h
  cases h
  exact ⟨Nat.zero_le _, fun _ _ h => by simp at h, fun _ _ h => by simp at h,
    fun _ _ _ h => by simp at h, fun _ _ => by simp⟩

omit [LinearOrder H] in
theorem mem_map_hash_iff (records : List (ℕ ×ₗ H)) (y : H) :
    y ∈ records.map (fun record => (ofLex record).2) ↔ ∃ t, toLex (t, y) ∈ records := by
  constructor
  · intro hy
    obtain ⟨record, hrecord, rfl⟩ := List.mem_map.mp hy
    exact ⟨(ofLex record).1, hrecord⟩
  · rintro ⟨t, ht⟩
    exact List.mem_map.mpr ⟨_, ht, rfl⟩

omit [LinearOrder P] in
theorem get?_foldl_erase_records (main : BTreeMap H (ℕ × P)) (records : List (ℕ ×ₗ H)) (y : H) :
    (records.foldl (fun main record => main.erase (ofLex record).2) main).get? y =
      if y ∈ records.map (fun record => (ofLex record).2) then none else main.get? y := by
  have hfold : records.foldl (fun main record => main.erase (ofLex record).2) main =
      (records.map fun record => (ofLex record).2).foldl BTreeMap.erase main := by
    rw [List.foldl_map]
  rw [hfold, BTreeMap.get?_foldl_erase]

namespace Consistent

variable {c : RouteBackCache P H}

theorem len_le_size (h : Consistent c) {p : P} {records : BTreeSet (ℕ ×ₗ H)}
    (hp : c.recordPerTarget.get? p = some records) : records.len ≤ c.main.size := by
  have hnodup : (records.elems.map fun record => (ofLex record).2).Nodup := by
    apply List.Nodup.map_on _ records.nodup
    intro x hx y hy hxy
    have hx' := (h.mem_records p records hp (ofLex x).1 (ofLex x).2).mp hx
    have hy' := (h.mem_records p records hp (ofLex y).1 (ofLex y).2).mp hy
    rw [hxy, hy', Option.some.injEq, Prod.mk.injEq] at hx'
    exact Prod.ext hx'.1.symm hxy
  have hsub : (records.elems.map fun record => (ofLex record).2) ⊆ c.main.keys := by
    intro y hy
    obtain ⟨record, hrecord, rfl⟩ := List.mem_map.mp hy
    exact (BTreeMap.mem_keys_iff _ _).mpr
      ⟨_, (h.mem_records p records hp (ofLex record).1 (ofLex record).2).mp hrecord⟩
  simpa [BTreeSet.len, BTreeMap.size, BTreeMap.keys] using hnodup.length_le_of_subset hsub

theorem len_le_capacity (h : Consistent c) {p : P} {records : BTreeSet (ℕ ×ₗ H)}
    (hp : c.recordPerTarget.get? p = some records) : records.len ≤ c.capacity :=
  (h.len_le_size hp).trans h.size_le

/-- The first pair of `size_per_target` is a peer with the most records. -/
theorem busiest (h : Consistent c) {x : ℕ ×ₗ P} (hfirst : c.sizePerTarget.first? = some x) :
    ∃ records, c.recordPerTarget.get? (ofLex x).2 = some records ∧
      (ofLex x).1 + records.len = c.capacity ∧
      ∀ q rs, c.recordPerTarget.get? q = some rs → rs.len ≤ records.len := by
  obtain ⟨hx, hle⟩ := BTreeSet.first?_le hfirst
  obtain ⟨records, hp, hsum⟩ := (h.mem_sizes (ofLex x).1 (ofLex x).2).mp hx
  refine ⟨records, hp, hsum, fun q rs hq => ?_⟩
  have hmem : toLex (c.capacity - rs.len, q) ∈ c.sizePerTarget.elems :=
    (h.mem_sizes _ q).mpr ⟨rs, hq, Nat.sub_add_cancel (h.len_le_capacity hq)⟩
  have hxq := hle _ hmem
  rw [Prod.Lex.le_iff] at hxq
  simp only [ofLex_toLex] at hxq
  have hcap := h.len_le_capacity hq
  omega

/-- With a record in `main`, `size_per_target` has a first pair. -/
theorem first?_isSome (h : Consistent c) (hpos : 0 < c.main.size) :
    c.sizePerTarget.first?.isSome := by
  obtain ⟨⟨y, t, p⟩, hentry⟩ := List.exists_mem_of_length_pos hpos
  have hy := (BTreeMap.get?_eq_some_iff _ _ _).mpr hentry
  obtain ⟨records, hp⟩ := Option.isSome_iff_exists.mp (h.records_isSome y t p hy)
  have hmem : toLex (c.capacity - records.len, p) ∈ c.sizePerTarget.elems :=
    (h.mem_sizes _ p).mpr ⟨records, hp, Nat.sub_add_cancel (h.len_le_capacity hp)⟩
  cases hfirst : c.sizePerTarget.first? with
  | none => simp [(BTreeSet.first?_eq_none_iff _).mp hfirst] at hmem
  | some _ => rfl

/-- The cache with the records of one peer `p` replaced by `records'`, and `main` and
`size_per_target` changed to match, is consistent again. -/
theorem updatePeer (h : Consistent c) {c' : RouteBackCache P H} {p : P}
    {records' : BTreeSet (ℕ ×ₗ H)} (hcap : c'.capacity = c.capacity)
    (hsize : c'.main.size ≤ c.capacity)
    (hmain : ∀ y t q, c'.main.get? y = some (t, q) ↔
      if q = p then toLex (t, y) ∈ records'.elems else c.main.get? y = some (t, q))
    (hrecords : ∀ q, c'.recordPerTarget.get? q =
      if q = p then (if records'.elems = [] then none else some records')
      else c.recordPerTarget.get? q)
    (hsizes : ∀ n q, toLex (n, q) ∈ c'.sizePerTarget.elems ↔
      if q = p then records'.elems ≠ [] ∧ n + records'.len = c.capacity
      else toLex (n, q) ∈ c.sizePerTarget.elems) :
    Consistent c' := by
  refine ⟨hcap ▸ hsize, ?mem_records, ?records_ne_nil, ?records_isSome, ?mem_sizes⟩
  case mem_records =>
    intro q rs hq t y
    rw [hrecords] at hq
    rw [hmain]
    by_cases hqp : q = p
    · rw [if_pos hqp] at hq ⊢
      by_cases hnil : records'.elems = []
      · rw [if_pos hnil] at hq
        cases hq
      · rw [if_neg hnil, Option.some.injEq] at hq
        subst hq
        exact Iff.rfl
    · rw [if_neg hqp] at hq ⊢
      exact h.mem_records q rs hq t y
  case records_ne_nil =>
    intro q rs hq
    rw [hrecords] at hq
    by_cases hqp : q = p
    · rw [if_pos hqp] at hq
      by_cases hnil : records'.elems = []
      · rw [if_pos hnil] at hq
        cases hq
      · rw [if_neg hnil, Option.some.injEq] at hq
        exact hq ▸ hnil
    · rw [if_neg hqp] at hq
      exact h.records_ne_nil q rs hq
  case records_isSome =>
    intro y t q hy
    rw [hmain] at hy
    rw [hrecords]
    by_cases hqp : q = p
    · rw [if_pos hqp] at hy ⊢
      have hnil : records'.elems ≠ [] := List.ne_nil_of_mem hy
      rw [if_neg hnil]
      rfl
    · rw [if_neg hqp] at hy ⊢
      exact h.records_isSome y t q hy
  case mem_sizes =>
    intro n q
    rw [hsizes, hrecords, hcap]
    by_cases hqp : q = p
    · rw [if_pos hqp, if_pos hqp]
      by_cases hnil : records'.elems = []
      · simp [hnil]
      · simp [hnil]
    · rw [if_neg hqp, if_neg hqp]
      exact h.mem_sizes n q

end Consistent

end Consistency

section RemoveFrequent

variable {P H : Type} [LinearOrder P] [LinearOrder H] {c : RouteBackCache P H}

/-- Erasing from `main` the hashes of the `dropped` records of a peer `p`, whose records are
the `dropped` and the `kept` ones, leaves `p` the `kept` records and every other peer its
own. -/
theorem get?_foldl_erase_dropped {main : BTreeMap H (ℕ × P)} {p : P}
    {dropped kept : List (ℕ ×ₗ H)}
    (hrecords : ∀ t y, toLex (t, y) ∈ dropped ∨ toLex (t, y) ∈ kept ↔ main.get? y = some (t, p))
    (hdisjoint : ∀ r ∈ dropped, r ∉ kept) (y : H) (t : ℕ) (q : P) :
    (dropped.foldl (fun main record => main.erase (ofLex record).2) main).get? y = some (t, q) ↔
      if q = p then toLex (t, y) ∈ kept else main.get? y = some (t, q) := by
  rw [get?_foldl_erase_records]
  by_cases hy : y ∈ dropped.map fun record => (ofLex record).2
  · -- `y` was a dropped record of `p`, so it is neither kept nor another peer's
    obtain ⟨t', ht'⟩ := (mem_map_hash_iff dropped y).mp hy
    have hmain := (hrecords t' y).mp (.inl ht')
    rw [if_pos hy]
    simp only [reduceCtorEq, false_iff]
    split_ifs with hqp
    · intro hkept
      have ht := (hrecords t y).mp (.inr hkept)
      rw [hmain, Option.some.injEq, Prod.mk.injEq] at ht
      exact hdisjoint _ ht' (ht.1 ▸ hkept)
    · rw [hmain, Option.some.injEq, Prod.mk.injEq]
      exact fun heq => hqp heq.2.symm
  · rw [if_neg hy]
    split_ifs with hqp
    · subst hqp
      constructor
      · intro hmain
        rcases (hrecords t y).mpr hmain with hdropped | hkept
        · exact absurd ((mem_map_hash_iff dropped y).mpr ⟨t, hdropped⟩) hy
        · exact hkept
      · exact fun hkept => (hrecords t y).mp (.inr hkept)
    · exact Iff.rfl

theorem mem_erase_toLex (sizes : BTreeSet (ℕ ×ₗ P)) (a m : ℕ) (p q : P) :
    toLex (m, q) ∈ (sizes.erase (toLex (a, p))).elems ↔
      toLex (m, q) ∈ sizes.elems ∧ (q ≠ p ∨ m ≠ a) := by
  rw [BTreeSet.mem_erase]
  constructor
  · rintro ⟨hmem, hne⟩
    refine ⟨hmem, ?_⟩
    by_contra hcon
    simp only [ne_eq, not_or, not_not] at hcon
    exact hne (by rw [hcon.1, hcon.2])
  · rintro ⟨hmem, hne⟩
    refine ⟨hmem, fun heq => ?_⟩
    have := congrArg ofLex heq
    simp only [ofLex_toLex, Prod.mk.injEq] at this
    rcases hne with hne | hne
    · exact hne this.2
    · exact hne this.1

theorem mem_insert_toLex (sizes : BTreeSet (ℕ ×ₗ P)) (a m : ℕ) (p q : P) :
    toLex (m, q) ∈ (sizes.insert (toLex (a, p))).elems ↔
      (q = p ∧ m = a) ∨ toLex (m, q) ∈ sizes.elems := by
  rw [BTreeSet.mem_insert]
  constructor
  · rintro (heq | hmem)
    · have := congrArg ofLex heq
      simp only [ofLex_toLex, Prod.mk.injEq] at this
      exact .inl ⟨this.2, this.1⟩
    · exact .inr hmem
  · rintro (⟨rfl, rfl⟩ | hmem)
    · exact .inl rfl
    · exact .inr hmem

/-- In a consistent cache, the pairs of `p` in `size_per_target`: the one of its count. -/
theorem Consistent.mem_sizes_self (h : Consistent c) {p : P} {records : BTreeSet (ℕ ×ₗ H)}
    (hp : c.recordPerTarget.get? p = some records) (m : ℕ) :
    toLex (m, p) ∈ c.sizePerTarget.elems ↔ m + records.len = c.capacity := by
  rw [h.mem_sizes, hp]
  simp

theorem Consistent.not_mem_sizes (h : Consistent c) {p : P} (hp : c.recordPerTarget.get? p = none)
    (m : ℕ) : toLex (m, p) ∉ c.sizePerTarget.elems := by
  rw [h.mem_sizes, hp]
  simp

/-- `remove_frequent` drops the `n` oldest records and keeps the others. -/
theorem splitOldest_eq (records : BTreeSet (ℕ ×ₗ H)) (n : ℕ) :
    (splitOldest records n).1.elems = records.elems.take n ∧
      (splitOldest records n).2.elems = records.elems.drop n := by
  unfold splitOldest
  cases hnth : records.nth? n with
  | some key => exact BTreeSet.splitOff_of_nth? hnth
  | none =>
      have hlen := (BTreeSet.nth?_eq_none_iff records n).mp hnth
      simp [List.take_of_length_le hlen, List.drop_of_length_le hlen]

/-- A peer's records split as `remove_frequent` splits them. -/
theorem mem_splitOldest (records : BTreeSet (ℕ ×ₗ H)) (n : ℕ) (r : ℕ ×ₗ H) :
    (r ∈ (splitOldest records n).1.elems ∨ r ∈ (splitOldest records n).2.elems ↔
      r ∈ records.elems) ∧
    (r ∈ (splitOldest records n).1.elems → r ∉ (splitOldest records n).2.elems) := by
  obtain ⟨hdrop, hkeep⟩ := splitOldest_eq records n
  rw [hdrop, hkeep]
  refine ⟨?_, fun htake hdrop' => ?_⟩
  · rw [← List.mem_append, List.take_append_drop]
  · have hnodup := records.nodup
    rw [← List.take_append_drop n records.elems] at hnodup
    exact List.disjoint_of_nodup_append hnodup htake hdrop'

/-- The records of a peer with the most records that `remove_frequent` may drop: its
`remove_frequent_min_size` oldest. -/
def OldestOfBusiest (c : RouteBackCache P H) (t : ℕ) (y : H) (p : P) : Prop :=
  ∃ records, c.recordPerTarget.get? p = some records ∧
    toLex (t, y) ∈ records.elems.take c.removeFrequentMinSize ∧
    ∀ q rs, c.recordPerTarget.get? q = some rs → rs.len ≤ records.len

/-- `remove_frequent` on a peer `p` first in `size_per_target`, as the source computes it. -/
theorem removeFrequent_eq {n : ℕ} {p : P} {records : BTreeSet (ℕ ×ₗ H)}
    (hfirst : c.sizePerTarget.first? = some (toLex (n, p)))
    (hrecords : c.recordPerTarget.get? p = some records)
    (hle : n + (splitOldest records c.removeFrequentMinSize).1.len ≤ c.capacity) :
    c.removeFrequent = some { c with
      main := (splitOldest records c.removeFrequentMinSize).1.elems.foldl
        (fun main record => main.erase (ofLex record).2) c.main,
      sizePerTarget :=
        if c.capacity - (n + (splitOldest records c.removeFrequentMinSize).1.len) ≠ 0 then
          (c.sizePerTarget.erase (toLex (n, p))).insert
            (toLex (n + (splitOldest records c.removeFrequentMinSize).1.len, p))
        else c.sizePerTarget.erase (toLex (n, p)),
      recordPerTarget :=
        if (splitOldest records c.removeFrequentMinSize).2.isEmpty then
          c.recordPerTarget.erase p
        else c.recordPerTarget.insert p (splitOldest records c.removeFrequentMinSize).2 } := by
  simp only [removeFrequent, hfirst, ofLex_toLex, hrecords, Usize.sub_of_le hle,
    Option.bind_eq_bind, Option.bind_some]
  split_ifs <;> rfl

theorem get?_insertOrErase (rpt : BTreeMap P (BTreeSet (ℕ ×ₗ H))) (p q : P)
    (records : BTreeSet (ℕ ×ₗ H)) :
    (if records.isEmpty then rpt.erase p else rpt.insert p records).get? q =
      if q = p then (if records.elems = [] then none else some records) else rpt.get? q := by
  by_cases hnil : records.elems = []
  · rw [if_pos ((BTreeSet.isEmpty_iff records).mpr hnil), BTreeMap.get?_erase]
    by_cases hq : q = p
    · simp [hq, hnil]
    · simp [hq, Ne.symm hq]
  · rw [if_neg (mt (BTreeSet.isEmpty_iff records).mp hnil), BTreeMap.get?_insert]
    by_cases hq : q = p
    · simp [hq, hnil]
    · simp [hq, Ne.symm hq]

/-- On a full consistent cache with `remove_frequent_min_size > 0`, `remove_frequent` does not
panic, keeps the cache consistent and frees room: it only drops records, each among the oldest
of a peer with the most records. -/
theorem Consistent.removeFrequent (h : Consistent c) (hfull : c.main.size = c.capacity)
    (hpos : 0 < c.capacity) (hmin : 0 < c.removeFrequentMinSize) :
    ∃ c', c.removeFrequent = some c' ∧ Consistent c' ∧ SameSettings c c' ∧
      c'.main.size < c.capacity ∧
      (∀ y v, c'.main.get? y = some v → c.main.get? y = some v) ∧
      ∀ y t p, c.main.get? y = some (t, p) → c'.main.get? y = none →
        OldestOfBusiest c t y p := by
  obtain ⟨x, hfirst⟩ := Option.isSome_iff_exists.mp (h.first?_isSome (hfull ▸ hpos))
  obtain ⟨records, hrecords, hsum, hmost⟩ := h.busiest hfirst
  obtain ⟨⟨n, p⟩, rfl⟩ : ∃ np : ℕ × P, toLex np = x := ⟨ofLex x, toLex_ofLex x⟩
  simp only [ofLex_toLex] at hrecords hsum
  -- the peer's records split into the oldest ones, which go, and the rest
  obtain ⟨⟨dropped, kept⟩, hsplit⟩ :
      ∃ split, splitOldest records c.removeFrequentMinSize = split := ⟨_, rfl⟩
  obtain ⟨hdrop, hkeep⟩ := splitOldest_eq records c.removeFrequentMinSize
  have hmem := mem_splitOldest records c.removeFrequentMinSize
  rw [hsplit] at hdrop hkeep hmem
  dsimp only at hdrop hkeep hmem
  have hlen : dropped.len + kept.len = records.len := by
    simp only [BTreeSet.len, hdrop, hkeep, List.length_take, List.length_drop]
    omega
  have hrec : ∀ t y, toLex (t, y) ∈ dropped.elems ∨ toLex (t, y) ∈ kept.elems ↔
      c.main.get? y = some (t, p) :=
    fun t y => ((hmem _).1).trans (h.mem_records p records hrecords t y)
  have hdropped : dropped.elems ≠ [] := by
    rw [hdrop, Ne, List.take_eq_nil_iff, not_or]
    exact ⟨by omega, h.records_ne_nil p records hrecords⟩
  rw [removeFrequent_eq hfirst hrecords (by rw [hsplit]; show n + dropped.len ≤ _; omega), hsplit]
  refine ⟨_, rfl, ?_⟩
  dsimp only
  have hmain := get?_foldl_erase_dropped hrec (fun r hr => (hmem r).2 hr)
  have hsub : ∀ y v, (dropped.elems.foldl (fun main record => main.erase (ofLex record).2)
      c.main).get? y = some v → c.main.get? y = some v := by
    intro y v hy
    rw [get?_foldl_erase_records] at hy
    split_ifs at hy
    exact hy
  have hgone : ∀ y, (dropped.elems.foldl (fun main record => main.erase (ofLex record).2)
      c.main).get? y = none → (c.main.get? y).isSome → ∃ t, toLex (t, y) ∈ dropped.elems := by
    intro y hy hsome
    rw [get?_foldl_erase_records] at hy
    split_ifs at hy with hin
    · exact (mem_map_hash_iff _ y).mp hin
    · rw [hy] at hsome
      cases hsome
  have hlt : (dropped.elems.foldl (fun main record => main.erase (ofLex record).2)
      c.main).size < c.capacity := by
    obtain ⟨r, hr⟩ := List.exists_mem_of_ne_nil _ hdropped
    have hr' : toLex ((ofLex r).1, (ofLex r).2) ∈ dropped.elems := hr
    have hin := (hrec _ _).mp (.inl hr')
    have hnone : (dropped.elems.foldl (fun main record => main.erase (ofLex record).2)
        c.main).get? (ofLex r).2 = none := by
      rw [get?_foldl_erase_records, if_pos ((mem_map_hash_iff _ _).mpr ⟨_, hr'⟩)]
    rw [← hfull]
    exact BTreeMap.size_lt_of_forall (fun y v hy => by rw [hsub y v hy]; rfl) hin hnone
  have hkeptLen : c.capacity - (n + dropped.len) = kept.len := by omega
  have hsizes : ∀ m q, toLex (m, q) ∈ (if c.capacity - (n + dropped.len) ≠ 0 then
      (c.sizePerTarget.erase (toLex (n, p))).insert (toLex (n + dropped.len, p))
      else c.sizePerTarget.erase (toLex (n, p))).elems ↔
      if q = p then kept.elems ≠ [] ∧ m + kept.len = c.capacity
      else toLex (m, q) ∈ c.sizePerTarget.elems := by
    intro m q
    have hkeptNe : kept.elems ≠ [] ↔ kept.len ≠ 0 := by
      rw [Ne, Ne, BTreeSet.len, List.length_eq_zero_iff]
    rw [hkeptLen]
    by_cases hq : q = p
    · subst hq
      rw [if_pos rfl]
      have hold := h.mem_sizes_self hrecords
      split_ifs with hk
      · rw [mem_insert_toLex, mem_erase_toLex, hold]
        constructor
        · rintro (⟨-, rfl⟩ | ⟨hin, hne⟩)
          · exact ⟨hkeptNe.mpr hk, by omega⟩
          · simp only [ne_eq, not_true_eq_false, false_or] at hne
            omega
        · rintro ⟨-, hm⟩
          exact .inl ⟨rfl, by omega⟩
      · rw [mem_erase_toLex, hold]
        constructor
        · rintro ⟨hin, hne⟩
          simp only [ne_eq, not_true_eq_false, false_or] at hne
          omega
        · rintro ⟨hne, -⟩
          exact absurd (hkeptNe.mp hne) hk
    · rw [if_neg hq]
      split_ifs
      · rw [mem_insert_toLex, mem_erase_toLex]
        simp [hq]
      · rw [mem_erase_toLex]
        simp [hq]
  refine ⟨h.updatePeer rfl hlt.le hmain (get?_insertOrErase _ p · kept) hsizes, ⟨rfl, rfl, rfl⟩,
    hlt, hsub, ?_⟩
  intro y t q hy hnone
  obtain ⟨t', ht'⟩ := hgone y hnone (by rw [hy]; rfl)
  rw [(hrec t' y).mp (.inl ht'), Option.some.injEq, Prod.mk.injEq] at hy
  obtain ⟨rfl, rfl⟩ := hy
  exact ⟨records, hrecords, hdrop ▸ ht', hmost⟩

end RemoveFrequent

section Evict

variable {P H : Type} [LinearOrder P] [LinearOrder H] [OrderBot H] {c : RouteBackCache P H}

/-- The records of a peer that the eviction at `remove_until = u` keeps. -/
def keptFrom (u : ℕ) (records : BTreeSet (ℕ ×ₗ H)) : BTreeSet (ℕ ×ₗ H) :=
  (records.splitOff (toLex (u, ⊥))).2

omit [LinearOrder P] in
/-- Cutting at `(u, CryptoHash::default())` parts the records by their instant alone. -/
theorem mem_splitOff_evict (records : BTreeSet (ℕ ×ₗ H)) (u t : ℕ) (y : H) :
    (toLex (t, y) ∈ (records.splitOff (toLex (u, ⊥))).1.elems ↔
      toLex (t, y) ∈ records.elems ∧ t < u) ∧
    (toLex (t, y) ∈ (keptFrom u records).elems ↔ toLex (t, y) ∈ records.elems ∧ u ≤ t) := by
  simp only [keptFrom, BTreeSet.mem_splitOff_fst, BTreeSet.mem_splitOff_snd,
    Prod.Lex.toLex_lt_toLex, Prod.Lex.toLex_le_toLex, not_lt_bot, bot_le]
  constructor
  · simp
  · constructor
    · rintro ⟨hmem, hlt | ⟨rfl, -⟩⟩
      · exact ⟨hmem, hlt.le⟩
      · exact ⟨hmem, le_rfl⟩
    · rintro ⟨hmem, hle⟩
      exact ⟨hmem, (lt_or_eq_of_le hle).imp id fun heq => ⟨heq, trivial⟩⟩

omit [LinearOrder P] in
theorem len_keptFrom_le (u : ℕ) (records : BTreeSet (ℕ ×ₗ H)) :
    (keptFrom u records).len ≤ records.len := by
  have := BTreeSet.len_splitOff records (toLex (u, ⊥))
  unfold keptFrom
  omega

/-- One turn of the eviction loop, as the source computes it when the peer's count fits
the capacity. -/
theorem evictTarget_eq {capacity u : ℕ} (main : BTreeMap H (ℕ × P)) (sizes : BTreeSet (ℕ ×ₗ P))
    (rpt : BTreeMap P (BTreeSet (ℕ ×ₗ H))) (removeEmpty : List P) (key : P)
    (value : BTreeSet (ℕ ×ₗ H)) (hle : value.len ≤ capacity) :
    evictTarget capacity u (main, sizes, rpt, removeEmpty) (key, value) = some
      ((value.splitOff (toLex (u, ⊥))).1.elems.foldl
          (fun main record => main.erase (ofLex record).2) main,
       (if value.len ≠ (keptFrom u value).len then
         if 0 < (keptFrom u value).len then
           (sizes.erase (toLex (capacity - value.len, key))).insert
             (toLex (capacity - (keptFrom u value).len, key))
         else sizes.erase (toLex (capacity - value.len, key))
       else sizes),
       rpt.insert key (keptFrom u value),
       if (keptFrom u value).len = 0 then removeEmpty ++ [key] else removeEmpty) := by
  have hkeep : (keptFrom u value).len ≤ capacity := (len_keptFrom_le u value).trans hle
  unfold keptFrom at hkeep ⊢
  simp only [evictTarget, Usize.sub_of_le hle, Usize.sub_of_le hkeep, Option.bind_eq_bind,
    Option.bind_some]
  split_ifs <;> rfl

/-- What the eviction loop at `remove_until = u` has done once it has gone through the peers
`done` of `c`: their records before `u` are gone from `main`, their record sets are cut at `u`
(an empty set stays until the end), their pairs in `size_per_target` follow, and the peers left
without records are listed. -/
structure EvictInv (c : RouteBackCache P H) (u : ℕ) (done : List P) (main : BTreeMap H (ℕ × P))
    (sizes : BTreeSet (ℕ ×ₗ P)) (rpt : BTreeMap P (BTreeSet (ℕ ×ₗ H))) (removeEmpty : List P) :
    Prop where
  get?_main : ∀ y t q, main.get? y = some (t, q) ↔ c.main.get? y = some (t, q) ∧ (q ∈ done → u ≤ t)
  get?_records : ∀ q, rpt.get? q =
    if q ∈ done then (c.recordPerTarget.get? q).map (keptFrom u) else c.recordPerTarget.get? q
  mem_sizes : ∀ m q, toLex (m, q) ∈ sizes.elems ↔
    if q ∈ done then ∃ rs, c.recordPerTarget.get? q = some rs ∧ 0 < (keptFrom u rs).len ∧
      m + (keptFrom u rs).len = c.capacity
    else toLex (m, q) ∈ c.sizePerTarget.elems
  mem_removeEmpty : ∀ q, q ∈ removeEmpty ↔
    q ∈ done ∧ ∃ rs, c.recordPerTarget.get? q = some rs ∧ (keptFrom u rs).len = 0

theorem evictInv_nil (c : RouteBackCache P H) (u : ℕ) :
    EvictInv c u [] c.main c.sizePerTarget c.recordPerTarget [] :=
  ⟨fun _ _ _ => by simp, fun _ => by simp, fun _ _ => by simp, fun _ => by simp⟩

omit [LinearOrder P] [OrderBot H] in
theorem mem_append_singleton_iff {done : List P} {key q : P} (hq : q ≠ key) :
    q ∈ done ++ [key] ↔ q ∈ done := by
  simp [hq]

/-- The step lemma of the eviction loop: one more peer keeps the invariant. -/
theorem EvictInv.step (h : Consistent c) {u : ℕ} {done : List P} {main sizes rpt removeEmpty}
    (hinv : EvictInv c u done main sizes rpt removeEmpty) {key : P} {value : BTreeSet (ℕ ×ₗ H)}
    (hkey : key ∉ done) (hget : c.recordPerTarget.get? key = some value) :
    ∃ main' sizes' rpt' removeEmpty',
      evictTarget c.capacity u (main, sizes, rpt, removeEmpty) (key, value) =
        some (main', sizes', rpt', removeEmpty') ∧
      EvictInv c u (done ++ [key]) main' sizes' rpt' removeEmpty' := by
  have hle := h.len_le_capacity hget
  have hpos : 0 < value.len := List.length_pos_iff.mpr (h.records_ne_nil key value hget)
  have hkeptLe := len_keptFrom_le u value
  rw [evictTarget_eq _ _ _ _ _ _ hle]
  refine ⟨_, _, _, _, rfl, ⟨?main, ?records, ?sizes, ?removeEmpty⟩⟩
  case main =>
    have hsplit : ∀ t y, toLex (t, y) ∈ (value.splitOff (toLex (u, ⊥))).1.elems ∨
        toLex (t, y) ∈ (keptFrom u value).elems ↔ main.get? y = some (t, key) := by
      intro t y
      rw [(mem_splitOff_evict value u t y).1, (mem_splitOff_evict value u t y).2,
        hinv.get?_main, ← h.mem_records key value hget]
      constructor
      · rintro (⟨hmem, -⟩ | ⟨hmem, -⟩) <;> exact ⟨hmem, fun hdone => absurd hdone hkey⟩
      · rintro ⟨hmem, -⟩
        exact (lt_or_ge t u).imp (⟨hmem, ·⟩) (⟨hmem, ·⟩)
    have hdisjoint : ∀ r ∈ (value.splitOff (toLex (u, ⊥))).1.elems,
        r ∉ (keptFrom u value).elems := fun r hr hr' =>
      absurd ((BTreeSet.mem_splitOff_snd _ _ _).mp hr').2
        (not_le.mpr ((BTreeSet.mem_splitOff_fst _ _ _).mp hr).2)
    intro y t q
    rw [get?_foldl_erase_dropped hsplit hdisjoint]
    by_cases hq : q = key
    · subst hq
      rw [if_pos rfl, (mem_splitOff_evict value u t y).2, h.mem_records q value hget]
      simp
    · rw [if_neg hq, hinv.get?_main, mem_append_singleton_iff hq]
  case records =>
    intro q
    rw [BTreeMap.get?_insert]
    by_cases hq : q = key
    · subst hq
      simp [hget]
    · rw [if_neg (Ne.symm hq), hinv.get?_records]
      simp only [mem_append_singleton_iff hq]
  case sizes =>
    intro m q
    by_cases hq : q = key
    · subst hq
      have hold : toLex (m, q) ∈ sizes.elems ↔ m + value.len = c.capacity := by
        rw [hinv.mem_sizes, if_neg hkey, h.mem_sizes_self hget]
      simp only [List.mem_append, List.mem_singleton, or_true, if_true, hget, Option.some.injEq,
        exists_eq_left']
      split_ifs with hne hkept
      · rw [mem_insert_toLex, mem_erase_toLex, hold]
        constructor
        · rintro (⟨-, rfl⟩ | ⟨hin, hne'⟩)
          · exact ⟨hkept, by omega⟩
          · simp only [ne_eq, not_true_eq_false, false_or] at hne'
            omega
        · rintro ⟨-, hm⟩
          exact .inl ⟨rfl, by omega⟩
      · rw [mem_erase_toLex, hold]
        constructor
        · rintro ⟨hin, hne'⟩
          simp only [ne_eq, not_true_eq_false, false_or] at hne'
          omega
        · rintro ⟨hlt, -⟩
          exact absurd hlt hkept
      · rw [hold]
        have heq : value.len = (keptFrom u value).len := not_not.mp hne
        constructor
        · intro hm
          exact ⟨by omega, by omega⟩
        · rintro ⟨-, hm⟩
          omega
    · -- another peer's pair is untouched
      simp only [mem_append_singleton_iff hq]
      rw [← hinv.mem_sizes]
      split_ifs
      · rw [mem_insert_toLex, mem_erase_toLex]
        simp [hq]
      · rw [mem_erase_toLex]
        simp [hq]
      · exact Iff.rfl
  case removeEmpty =>
    intro q
    by_cases hq : q = key
    · subst hq
      simp only [List.mem_append, List.mem_singleton, or_true, true_and, hget, Option.some.injEq,
        exists_eq_left']
      split_ifs with hzero
      · simp [hzero]
      · rw [hinv.mem_removeEmpty]
        simp [hkey, hzero]
    · rw [mem_append_singleton_iff hq, ← hinv.mem_removeEmpty]
      split_ifs
      · exact mem_append_singleton_iff hq
      · exact Iff.rfl

/-- The run lemma of the eviction loop: going through peers of `c`, each once, keeps the
invariant. -/
theorem EvictInv.foldlM (h : Consistent c) {u : ℕ} (entries : List (P × BTreeSet (ℕ ×ₗ H)))
    (hentries : ∀ e ∈ entries, c.recordPerTarget.get? e.1 = some e.2)
    (hnodup : (entries.map Prod.fst).Nodup) {done : List P} (hfresh : ∀ e ∈ entries, e.1 ∉ done)
    {main sizes rpt removeEmpty} (hinv : EvictInv c u done main sizes rpt removeEmpty) :
    ∃ main' sizes' rpt' removeEmpty',
      entries.foldlM (evictTarget c.capacity u) (main, sizes, rpt, removeEmpty) =
        some (main', sizes', rpt', removeEmpty') ∧
      EvictInv c u (done ++ entries.map Prod.fst) main' sizes' rpt' removeEmpty' := by
  induction entries generalizing done main sizes rpt removeEmpty with
  | nil => exact ⟨_, _, _, _, rfl, by simpa using hinv⟩
  | cons e rest ih =>
      obtain ⟨key, value⟩ := e
      obtain ⟨main₁, sizes₁, rpt₁, removeEmpty₁, hstep, hinv₁⟩ :=
        hinv.step h (hfresh _ List.mem_cons_self) (hentries _ List.mem_cons_self)
      rw [List.map_cons, List.nodup_cons] at hnodup
      have hfresh' : ∀ e ∈ rest, e.1 ∉ done ++ [key] := by
        intro e he hmem
        rcases List.mem_append.mp hmem with hdone | hkey
        · exact hfresh e (List.mem_cons_of_mem _ he) hdone
        · have hmap := List.mem_map_of_mem (f := Prod.fst) he
          rw [List.mem_singleton.mp hkey] at hmap
          exact hnodup.1 hmap
      obtain ⟨main', sizes', rpt', removeEmpty', hrest, hinv'⟩ :=
        ih (fun e he => hentries e (List.mem_cons_of_mem _ he)) hnodup.2 hfresh' hinv₁
      refine ⟨main', sizes', rpt', removeEmpty', ?_, ?_⟩
      · rw [List.foldlM_cons, hstep]
        exact hrest
      · simpa [List.append_assoc] using hinv'

/-- Once the loop has gone through every peer, dropping the peers left without records gives a
consistent cache. -/
theorem EvictInv.consistent (h : Consistent c) {u : ℕ} {done main sizes rpt removeEmpty}
    (hinv : EvictInv c u done main sizes rpt removeEmpty)
    (hdone : ∀ q, q ∈ done ↔ (c.recordPerTarget.get? q).isSome) :
    Consistent { c with
      main, sizePerTarget := sizes, recordPerTarget := removeEmpty.foldl BTreeMap.erase rpt } := by
  have hrpt : ∀ q, (removeEmpty.foldl BTreeMap.erase rpt).get? q =
      (c.recordPerTarget.get? q).bind fun rs =>
        if (keptFrom u rs).len = 0 then none else some (keptFrom u rs) := by
    intro q
    rw [BTreeMap.get?_foldl_erase, hinv.get?_records]
    simp only [hinv.mem_removeEmpty, hdone]
    cases hq : c.recordPerTarget.get? q with
    | none => simp
    | some rs => by_cases h0 : (keptFrom u rs).len = 0 <;> simp [h0]
  have hsub : ∀ y v, main.get? y = some v → c.main.get? y = some v := by
    rintro y ⟨t, q⟩ hy
    exact ((hinv.get?_main y t q).mp hy).1
  refine ⟨?size_le, ?mem_records, ?records_ne_nil, ?records_isSome, ?mem_sizes⟩
  case size_le =>
    exact (BTreeMap.size_le_of_forall (fun y v hy => by rw [hsub y v hy]; rfl)).trans h.size_le
  case mem_records =>
    intro q rs' hq t y
    dsimp only at hq ⊢
    rw [hrpt] at hq
    obtain ⟨rs, hrs, hrs'⟩ := Option.bind_eq_some_iff.mp hq
    split_ifs at hrs' with h0
    cases hrs'
    rw [(mem_splitOff_evict rs u t y).2, h.mem_records q rs hrs, hinv.get?_main, hdone, hrs]
    simp
  case records_ne_nil =>
    intro q rs' hq
    dsimp only at hq
    rw [hrpt] at hq
    obtain ⟨rs, -, hrs'⟩ := Option.bind_eq_some_iff.mp hq
    split_ifs at hrs' with h0
    cases hrs'
    exact List.ne_nil_of_length_pos (Nat.pos_of_ne_zero h0)
  case records_isSome =>
    intro y t q hy
    dsimp only at hy ⊢
    obtain ⟨hmain, hlate⟩ := (hinv.get?_main y t q).mp hy
    obtain ⟨rs, hrs⟩ := Option.isSome_iff_exists.mp (h.records_isSome y t q hmain)
    have hu := hlate ((hdone q).mpr (by rw [hrs]; rfl))
    have hkept : toLex (t, y) ∈ (keptFrom u rs).elems :=
      (mem_splitOff_evict rs u t y).2.mpr ⟨(h.mem_records q rs hrs t y).mpr hmain, hu⟩
    have h0 : (keptFrom u rs).len ≠ 0 := (List.length_pos_of_mem hkept).ne'
    rw [hrpt, hrs]
    simp [h0]
  case mem_sizes =>
    intro m q
    dsimp only
    rw [hinv.mem_sizes, hrpt]
    simp only [hdone]
    cases hq : c.recordPerTarget.get? q with
    | none => simp [h.not_mem_sizes hq]
    | some rs =>
        by_cases h0 : (keptFrom u rs).len = 0
        · simp [h0]
        · simp [h0, Nat.pos_of_ne_zero h0]

/-- Evicting every record before `u` from a consistent cache leaves it consistent, and only
drops records, each of them older than `u`. -/
theorem Consistent.evict (h : Consistent c) (u : ℕ) :
    ∃ main sizes rpt removeEmpty,
      c.recordPerTarget.entries.foldlM (evictTarget c.capacity u)
        (c.main, c.sizePerTarget, c.recordPerTarget, []) = some (main, sizes, rpt, removeEmpty) ∧
      Consistent { c with
        main, sizePerTarget := sizes, recordPerTarget := removeEmpty.foldl BTreeMap.erase rpt } ∧
      (∀ y v, main.get? y = some v → c.main.get? y = some v) ∧
      ∀ y t p, c.main.get? y = some (t, p) → main.get? y = none → t < u := by
  obtain ⟨main, sizes, rpt, removeEmpty, hfold, hinv⟩ :=
    EvictInv.foldlM h c.recordPerTarget.entries
      (fun e he => (BTreeMap.get?_eq_some_iff _ _ _).mpr he) (BTreeMap.keys_nodup _)
      (fun _ _ hmem => List.not_mem_nil hmem) (evictInv_nil c u)
  have hdone : ∀ q, q ∈ [] ++ c.recordPerTarget.entries.map Prod.fst ↔
      (c.recordPerTarget.get? q).isSome := by
    intro q
    rw [List.nil_append]
    show q ∈ c.recordPerTarget.keys ↔ _
    rw [BTreeMap.mem_keys_iff, Option.isSome_iff_exists]
  refine ⟨main, sizes, rpt, removeEmpty, hfold, hinv.consistent h hdone, ?_, ?_⟩
  · rintro y ⟨t, q⟩ hy
    exact ((hinv.get?_main y t q).mp hy).1
  · intro y t p hy hnone
    by_contra hge
    have hkept := (hinv.get?_main y t p).mpr ⟨hy, fun _ => not_lt.mp hge⟩
    rw [hnone] at hkept
    cases hkept

end Evict

section Calls

variable {P H : Type} [LinearOrder P] [LinearOrder H] [OrderBot H] {c : RouteBackCache P H}

omit [OrderBot H] in
theorem isFull_iff (c : RouteBackCache P H) : c.isFull = true ↔ c.main.size = c.capacity := by
  rw [isFull, beq_iff_eq, eq_comm]

/-- `remove_evicted` on a consistent cache with `remove_frequent_min_size > 0` does not panic,
keeps it consistent and leaves room for one more record.  It only drops records, each among the
oldest of a peer with the most records or older than `now - evict_timeout`. -/
theorem Consistent.removeEvicted (h : Consistent c) (hpos : 0 < c.capacity)
    (hmin : 0 < c.removeFrequentMinSize) (now : ℕ) :
    ∃ c', c.removeEvicted now = some c' ∧ Consistent c' ∧ SameSettings c c' ∧
      c'.main.size < c.capacity ∧
      (∀ y v, c'.main.get? y = some v → c.main.get? y = some v) ∧
      ∀ y t p, c.main.get? y = some (t, p) → c'.main.get? y = none →
        OldestOfBusiest c t y p ∨ (c.evictTimeout ≤ now ∧ t < now - c.evictTimeout) := by
  unfold RouteBackCache.removeEvicted
  by_cases hfull : c.isFull
  · obtain ⟨c₁, hfreq, h₁, hset₁, hlt₁, hsub₁, hold₁⟩ :=
      h.removeFrequent ((isFull_iff c).mp hfull) hpos hmin
    rw [if_pos hfull]
    simp only [hfreq, Option.bind_eq_bind, Option.bind_some]
    by_cases htime : c₁.evictTimeout ≤ now
    · rw [if_pos htime]
      obtain ⟨main, sizes, rpt, removeEmpty, hfold, h₂, hsub₂, hold₂⟩ :=
        h₁.evict (now - c₁.evictTimeout)
      simp only [hfold, Option.bind_some]
      refine ⟨_, rfl, h₂, hset₁.trans ⟨rfl, rfl, rfl⟩, ?_, fun y v hy => hsub₁ y v (hsub₂ y v hy),
        ?_⟩
      · exact lt_of_le_of_lt
          (BTreeMap.size_le_of_forall (fun y v hy => by rw [hsub₂ y v hy]; rfl)) hlt₁
      · -- a record that `remove_frequent` kept went by age
        intro y t p hy hnone
        cases h₁y : c₁.main.get? y with
        | none => exact .inl (hold₁ y t p hy h₁y)
        | some v =>
            rw [(hsub₁ y v h₁y).symm.trans hy] at h₁y
            exact .inr ⟨hset₁.evictTimeout ▸ htime,
              hset₁.evictTimeout ▸ hold₂ y t p h₁y hnone⟩
    · rw [if_neg htime]
      exact ⟨c₁, rfl, h₁, hset₁, hlt₁, hsub₁, fun y t p hy hnone => .inl (hold₁ y t p hy hnone)⟩
  · rw [if_neg hfull]
    have hlt : c.main.size < c.capacity :=
      lt_of_le_of_ne h.size_le (fun heq => hfull ((isFull_iff c).mpr heq))
    refine ⟨c, rfl, h, ⟨rfl, rfl, rfl⟩, hlt, fun _ _ hy => hy, fun y t p hy hnone => ?_⟩
    rw [hy] at hnone
    cases hnone

omit [OrderBot H] in
/-- The records kept for a peer; none for a peer without an entry. -/
def recordsOf (c : RouteBackCache P H) (p : P) : BTreeSet (ℕ ×ₗ H) :=
  (c.recordPerTarget.get? p).getD BTreeSet.empty

omit [OrderBot H] in
theorem Consistent.mem_recordsOf (h : Consistent c) (p : P) (t : ℕ) (y : H) :
    toLex (t, y) ∈ (c.recordsOf p).elems ↔ c.main.get? y = some (t, p) := by
  unfold recordsOf
  cases hr : c.recordPerTarget.get? p with
  | none =>
      simp only [Option.getD_none, BTreeSet.elems_empty, List.not_mem_nil, false_iff]
      intro hy
      have hsome := h.records_isSome y t p hy
      rw [hr] at hsome
      cases hsome
  | some records => exact h.mem_records p records hr t y

omit [OrderBot H] in
/-- The pairs of a peer in `size_per_target`: the one of its count, if it has records. -/
theorem Consistent.mem_sizes_recordsOf (h : Consistent c) (p : P) (m : ℕ) :
    toLex (m, p) ∈ c.sizePerTarget.elems ↔ 0 < (c.recordsOf p).len ∧
      m + (c.recordsOf p).len = c.capacity := by
  rw [h.mem_sizes]
  unfold recordsOf
  cases hr : c.recordPerTarget.get? p with
  | none => simp [BTreeSet.len]
  | some records =>
      have hpos : 0 < records.len := List.length_pos_iff.mpr (h.records_ne_nil p records hr)
      simp [hpos]

omit [OrderBot H] in
theorem Consistent.len_recordsOf_le (h : Consistent c) (p : P) :
    (c.recordsOf p).len ≤ c.main.size := by
  unfold recordsOf
  cases hr : c.recordPerTarget.get? p with
  | none => exact Nat.zero_le _
  | some records => exact h.len_le_size hr

omit [OrderBot H] in
/-- Adding the record `(now, hash)` of `target` to a consistent cache with room and without
`hash`, as `insert` does, keeps it consistent. -/
theorem Consistent.addRecord (h : Consistent c) (hroom : c.main.size < c.capacity) {hash : H}
    (habsent : c.main.get? hash = none) (now : ℕ) (target : P) :
    Consistent { c with
      main := c.main.insert hash (now, target),
      sizePerTarget := (if 0 < (c.recordsOf target).len then
          c.sizePerTarget.erase (toLex (c.capacity - (c.recordsOf target).len, target))
        else c.sizePerTarget).insert
          (toLex (c.capacity - ((c.recordsOf target).len + 1), target)),
      recordPerTarget :=
        c.recordPerTarget.insert target ((c.recordsOf target).insert (toLex (now, hash))) } := by
  have hfresh : toLex (now, hash) ∉ (c.recordsOf target).elems := by
    rw [h.mem_recordsOf, habsent]
    simp
  have hlen := BTreeSet.len_insert_of_not_mem hfresh
  have hroom' : (c.recordsOf target).len + 1 ≤ c.capacity :=
    Nat.succ_le_of_lt ((h.len_recordsOf_le target).trans_lt hroom)
  have hsize : (c.main.insert hash (now, target)).size ≤ c.capacity := by
    rw [BTreeMap.size_insert_of_get?_eq_none habsent]
    exact hroom
  have hmain : ∀ y t q, (c.main.insert hash (now, target)).get? y = some (t, q) ↔
      if q = target then toLex (t, y) ∈ ((c.recordsOf target).insert (toLex (now, hash))).elems
      else c.main.get? y = some (t, q) := by
    intro y t q
    rw [BTreeMap.get?_insert]
    by_cases hy : hash = y
    · subst hy
      rw [if_pos rfl, habsent]
      by_cases hq : q = target
      · subst hq
        rw [if_pos rfl, BTreeSet.mem_insert, h.mem_recordsOf, habsent]
        simp [eq_comm]
      · rw [if_neg hq]
        simp [Ne.symm hq]
    · rw [if_neg hy]
      by_cases hq : q = target
      · subst hq
        rw [if_pos rfl, BTreeSet.mem_insert, h.mem_recordsOf]
        simp [Ne.symm hy]
      · rw [if_neg hq]
  have hrecords : ∀ q, (c.recordPerTarget.insert target
      ((c.recordsOf target).insert (toLex (now, hash)))).get? q =
      if q = target then
        (if ((c.recordsOf target).insert (toLex (now, hash))).elems = [] then none
        else some ((c.recordsOf target).insert (toLex (now, hash))))
      else c.recordPerTarget.get? q := by
    intro q
    rw [BTreeMap.get?_insert]
    by_cases hq : q = target
    · subst hq
      have hne : ((c.recordsOf q).insert (toLex (now, hash))).elems ≠ [] :=
        List.ne_nil_of_mem ((BTreeSet.mem_insert _ _ _).mpr (.inl rfl))
      rw [if_pos rfl, if_pos rfl, if_neg hne]
    · rw [if_neg (Ne.symm hq), if_neg hq]
  have hsizes : ∀ m q, toLex (m, q) ∈ ((if 0 < (c.recordsOf target).len then
      c.sizePerTarget.erase (toLex (c.capacity - (c.recordsOf target).len, target))
      else c.sizePerTarget).insert
        (toLex (c.capacity - ((c.recordsOf target).len + 1), target))).elems ↔
      if q = target then ((c.recordsOf target).insert (toLex (now, hash))).elems ≠ [] ∧
        m + ((c.recordsOf target).insert (toLex (now, hash))).len = c.capacity
      else toLex (m, q) ∈ c.sizePerTarget.elems := by
    intro m q
    rw [mem_insert_toLex, hlen]
    by_cases hq : q = target
    · subst hq
      have hne : ((c.recordsOf q).insert (toLex (now, hash))).elems ≠ [] :=
        List.ne_nil_of_mem ((BTreeSet.mem_insert _ _ _).mpr (.inl rfl))
      rw [if_pos rfl]
      have hgone : toLex (m, q) ∉ (if 0 < (c.recordsOf q).len then
          c.sizePerTarget.erase (toLex (c.capacity - (c.recordsOf q).len, q))
          else c.sizePerTarget).elems := by
        split_ifs with hpos
        · rw [mem_erase_toLex, h.mem_sizes_recordsOf]
          simp only [ne_eq, not_true_eq_false, false_or]
          omega
        · rw [h.mem_sizes_recordsOf]
          omega
      constructor
      · rintro (⟨-, rfl⟩ | hold)
        · exact ⟨hne, by omega⟩
        · exact absurd hold hgone
      · rintro ⟨-, hm⟩
        exact .inl ⟨rfl, by omega⟩
    · rw [if_neg hq]
      split_ifs
      · rw [mem_erase_toLex]
        simp [hq]
      · simp [hq]
  exact h.updatePeer rfl hsize hmain hrecords hsizes

omit [OrderBot H] in
theorem map_len_getD_eq (c : RouteBackCache P H) (p : P) :
    ((c.recordPerTarget.get? p).map BTreeSet.len).getD 0 = (c.recordsOf p).len := by
  unfold recordsOf
  cases c.recordPerTarget.get? p <;> rfl

/-- `insert` of a hash the cache does not keep, as the source computes it once
`remove_evicted` has left room. -/
theorem insert_eq {c₁ : RouteBackCache P H} {now : ℕ} {hash : H} {target : P}
    (habsent : c.main.get? hash = none) (hevict : c.removeEvicted now = some c₁)
    (hle : (c₁.recordsOf target).len + 1 ≤ c₁.capacity) :
    c.insert now hash target = some { c₁ with
      main := c₁.main.insert hash (now, target),
      sizePerTarget := (if 0 < (c₁.recordsOf target).len then
          c₁.sizePerTarget.erase (toLex (c₁.capacity - (c₁.recordsOf target).len, target))
        else c₁.sizePerTarget).insert
          (toLex (c₁.capacity - ((c₁.recordsOf target).len + 1), target)),
      recordPerTarget :=
        c₁.recordPerTarget.insert target ((c₁.recordsOf target).insert (toLex (now, hash))) } := by
  have hrecords : (c₁.recordPerTarget.get? target).getD BTreeSet.empty = c₁.recordsOf target := rfl
  unfold RouteBackCache.insert
  rw [habsent]
  simp only [Option.isSome_none, Bool.false_eq_true, if_false, hevict, Option.bind_eq_bind,
    Option.bind_some, map_len_getD_eq, hrecords, Usize.sub_of_le (Nat.le_of_succ_le hle),
    Usize.sub_of_le hle]
  split_ifs <;> rfl

/-- `insert` on a consistent cache with `remove_frequent_min_size > 0` does not panic and keeps
it consistent.  A kept hash leaves the cache as it is; otherwise the hash is kept for `target`
from `now` on, and the records `remove_evicted` drops are the only others that go. -/
theorem Consistent.insert (h : Consistent c) (hpos : 0 < c.capacity)
    (hmin : 0 < c.removeFrequentMinSize) (now : ℕ) (hash : H) (target : P) :
    ∃ c', c.insert now hash target = some c' ∧ Consistent c' ∧ SameSettings c c' ∧
      ((c.main.get? hash).isSome → c' = c) ∧
      (c.main.get? hash = none → c'.main.get? hash = some (now, target)) ∧
      (∀ y v, c'.main.get? y = some v →
        c.main.get? y = some v ∨ (y = hash ∧ c.main.get? hash = none ∧ v = (now, target))) ∧
      ∀ y t p, c.main.get? y = some (t, p) → c'.main.get? y = none →
        OldestOfBusiest c t y p ∨ (c.evictTimeout ≤ now ∧ t < now - c.evictTimeout) := by
  by_cases hkept : (c.main.get? hash).isSome
  · refine ⟨c, if_pos hkept, h, ⟨rfl, rfl, rfl⟩, fun _ => rfl, fun habsent => ?_,
      fun y v hy => .inl hy, fun y t p hy hnone => ?_⟩
    · rw [habsent] at hkept
      cases hkept
    · rw [hy] at hnone
      cases hnone
  · have habsent : c.main.get? hash = none := Option.not_isSome_iff_eq_none.mp hkept
    obtain ⟨c₁, hevict, h₁, hset₁, hlt₁, hsub₁, hold₁⟩ := h.removeEvicted hpos hmin now
    have habsent₁ : c₁.main.get? hash = none := by
      cases hc : c₁.main.get? hash with
      | none => rfl
      | some v =>
          have hv := hsub₁ hash v hc
          rw [habsent] at hv
          cases hv
    have hroom : c₁.main.size < c₁.capacity := hset₁.capacity ▸ hlt₁
    have hle : (c₁.recordsOf target).len + 1 ≤ c₁.capacity :=
      Nat.succ_le_of_lt ((h₁.len_recordsOf_le target).trans_lt hroom)
    rw [insert_eq habsent hevict hle]
    refine ⟨_, rfl, h₁.addRecord hroom habsent₁ now target, hset₁.trans ⟨rfl, rfl, rfl⟩,
      fun hsome => absurd hsome hkept, fun _ => ?_, fun y v hy => ?_, fun y t p hy hnone => ?_⟩
    · dsimp only
      rw [BTreeMap.get?_insert, if_pos rfl]
    · dsimp only at hy
      rw [BTreeMap.get?_insert] at hy
      split_ifs at hy with hhash
      · exact .inr ⟨hhash.symm, habsent, (Option.some.inj hy).symm⟩
      · exact .inl (hsub₁ y v hy)
    · dsimp only at hnone
      rw [BTreeMap.get?_insert] at hnone
      split_ifs at hnone with hhash
      · exact hold₁ y t p hy hnone

/-- `remove` of a hash that `remove_evicted` did not drop, as the source computes it on a
consistent cache. -/
theorem remove_eq {c₁ : RouteBackCache P H} {now : ℕ} {hash : H} {time : ℕ} {target : P}
    {records : BTreeSet (ℕ ×ₗ H)} (hevict : c.removeEvicted now = some c₁)
    (hy : c₁.main.get? hash = some (time, target))
    (hrecords : c₁.recordPerTarget.get? target = some records) (hpos : 0 < records.len)
    (hle : records.len ≤ c₁.capacity) :
    c.remove now hash = some ({ c₁ with
      main := c₁.main.erase hash,
      sizePerTarget := if records.len - 1 = 0 then
          c₁.sizePerTarget.erase (toLex (c₁.capacity - records.len, target))
        else (c₁.sizePerTarget.erase (toLex (c₁.capacity - records.len, target))).insert
          (toLex (c₁.capacity - (records.len - 1), target)),
      recordPerTarget := if records.len - 1 = 0 then
          (c₁.recordPerTarget.insert target (records.erase (toLex (time, hash)))).erase target
        else c₁.recordPerTarget.insert target (records.erase (toLex (time, hash))) },
      some target) := by
  unfold RouteBackCache.remove
  simp only [hevict, hy, hrecords, Option.bind_eq_bind, Option.bind_some, Option.map_some,
    Usize.sub_of_le hle, Usize.sub_of_le (Nat.one_le_iff_ne_zero.mpr hpos.ne'),
    Usize.sub_of_le ((Nat.sub_le _ _).trans hle)]
  split_ifs <;> rfl

theorem remove_eq_none {c₁ : RouteBackCache P H} {now : ℕ} {hash : H}
    (hevict : c.removeEvicted now = some c₁) (hy : c₁.main.get? hash = none) :
    c.remove now hash = some (c₁, none) := by
  unfold RouteBackCache.remove
  simp only [hevict, hy, Option.bind_eq_bind, Option.bind_some]
  rfl

omit [OrderBot H] in
theorem Consistent.dropRecord (h : Consistent c) {hash : H} {time : ℕ} {target : P}
    (hy : c.main.get? hash = some (time, target)) {records : BTreeSet (ℕ ×ₗ H)}
    (hrecords : c.recordPerTarget.get? target = some records) :
    Consistent { c with
      main := c.main.erase hash,
      sizePerTarget := if records.len - 1 = 0 then
          c.sizePerTarget.erase (toLex (c.capacity - records.len, target))
        else (c.sizePerTarget.erase (toLex (c.capacity - records.len, target))).insert
          (toLex (c.capacity - (records.len - 1), target)),
      recordPerTarget := if records.len - 1 = 0 then
          (c.recordPerTarget.insert target (records.erase (toLex (time, hash)))).erase target
        else c.recordPerTarget.insert target (records.erase (toLex (time, hash))) } := by
  have hmem : toLex (time, hash) ∈ records.elems := (h.mem_records target records hrecords _ _).mpr hy
  have hlen := BTreeSet.len_erase_of_mem hmem
  have hcap := h.len_le_capacity hrecords
  have hnil : (records.erase (toLex (time, hash))).elems = [] ↔ records.len - 1 = 0 := by
    rw [← List.length_eq_zero_iff]
    show (records.erase (toLex (time, hash))).len = 0 ↔ _
    omega
  have hsize : (c.main.erase hash).size ≤ c.capacity :=
    (BTreeMap.size_erase_le _ _).trans h.size_le
  have hmain : ∀ y t q, (c.main.erase hash).get? y = some (t, q) ↔
      if q = target then toLex (t, y) ∈ (records.erase (toLex (time, hash))).elems
      else c.main.get? y = some (t, q) := by
    intro y t q
    rw [BTreeMap.get?_erase]
    by_cases hyh : hash = y
    · subst hyh
      rw [if_pos rfl]
      simp only [reduceCtorEq, false_iff]
      split_ifs with hq
      · rw [BTreeSet.mem_erase, h.mem_records target records hrecords, hy, Option.some.injEq,
          Prod.mk.injEq]
        rintro ⟨⟨rfl, -⟩, hne⟩
        exact hne rfl
      · rw [hy, Option.some.injEq, Prod.mk.injEq]
        exact fun heq => hq heq.2.symm
    · rw [if_neg hyh]
      split_ifs with hq
      · subst hq
        rw [BTreeSet.mem_erase, h.mem_records q records hrecords]
        constructor
        · intro hyq
          refine ⟨hyq, fun heq => hyh ?_⟩
          have := congrArg (fun r => (ofLex r).2) heq
          exact this.symm
        · exact fun hyq => hyq.1
      · exact Iff.rfl
  have hrpt : ∀ q, (if records.len - 1 = 0 then
      (c.recordPerTarget.insert target (records.erase (toLex (time, hash)))).erase target
      else c.recordPerTarget.insert target (records.erase (toLex (time, hash)))).get? q =
      if q = target then
        (if (records.erase (toLex (time, hash))).elems = [] then none
        else some (records.erase (toLex (time, hash))))
      else c.recordPerTarget.get? q := by
    intro q
    simp only [hnil]
    by_cases hq : q = target
    · subst hq
      rw [if_pos (rfl : q = q)]
      split_ifs <;> simp [BTreeMap.get?_erase, BTreeMap.get?_insert]
    · split_ifs <;> simp [BTreeMap.get?_erase, BTreeMap.get?_insert, Ne.symm hq]
  have hsizes : ∀ m q, toLex (m, q) ∈ (if records.len - 1 = 0 then
      c.sizePerTarget.erase (toLex (c.capacity - records.len, target))
      else (c.sizePerTarget.erase (toLex (c.capacity - records.len, target))).insert
        (toLex (c.capacity - (records.len - 1), target))).elems ↔
      if q = target then (records.erase (toLex (time, hash))).elems ≠ [] ∧
        m + (records.erase (toLex (time, hash))).len = c.capacity
      else toLex (m, q) ∈ c.sizePerTarget.elems := by
    intro m q
    simp only [Ne, hnil]
    by_cases hq : q = target
    · subst hq
      rw [if_pos rfl]
      have hold := h.mem_sizes_self hrecords m
      split_ifs with hzero
      · rw [mem_erase_toLex, hold]
        simp only [ne_eq, not_true_eq_false, false_or]
        omega
      · rw [mem_insert_toLex, mem_erase_toLex, hold]
        simp only [ne_eq, not_true_eq_false, false_or, true_and]
        omega
    · rw [if_neg hq]
      split_ifs
      · rw [mem_erase_toLex]
        simp [hq]
      · rw [mem_insert_toLex, mem_erase_toLex]
        simp [hq]
  exact h.updatePeer rfl hsize hmain hrpt hsizes

/-- `remove` on a consistent cache with `remove_frequent_min_size > 0` does not panic and keeps
it consistent.  The hash is no longer kept, the peer it returns is the one the hash was kept
for, and the records `remove_evicted` drops are the only others that go. -/
theorem Consistent.remove (h : Consistent c) (hpos : 0 < c.capacity)
    (hmin : 0 < c.removeFrequentMinSize) (now : ℕ) (hash : H) :
    ∃ c' out, c.remove now hash = some (c', out) ∧ Consistent c' ∧ SameSettings c c' ∧
      c'.main.get? hash = none ∧
      (∀ p, out = some p → ∃ t, c.main.get? hash = some (t, p)) ∧
      (∀ y v, c'.main.get? y = some v → c.main.get? y = some v) ∧
      ∀ y t p, c.main.get? y = some (t, p) → c'.main.get? y = none →
        y = hash ∨ OldestOfBusiest c t y p ∨ (c.evictTimeout ≤ now ∧ t < now - c.evictTimeout) := by
  obtain ⟨c₁, hevict, h₁, hset₁, -, hsub₁, hold₁⟩ := h.removeEvicted hpos hmin now
  cases hy : c₁.main.get? hash with
  | none =>
      refine ⟨c₁, none, remove_eq_none hevict hy, h₁, hset₁, hy, fun _ hout => ?_, hsub₁,
        fun y t p hy' hnone => .inr (hold₁ y t p hy' hnone)⟩
      cases hout
  | some v =>
      obtain ⟨time, target⟩ := v
      obtain ⟨records, hrecords⟩ := Option.isSome_iff_exists.mp (h₁.records_isSome _ _ _ hy)
      have hlen : 0 < records.len := List.length_pos_iff.mpr (h₁.records_ne_nil _ _ hrecords)
      rw [remove_eq hevict hy hrecords hlen (h₁.len_le_capacity hrecords)]
      refine ⟨_, _, rfl, h₁.dropRecord hy hrecords, hset₁.trans ⟨rfl, rfl, rfl⟩, ?_,
        fun p hout => ⟨time, ?_⟩, fun y v hy' => ?_, fun y t p hy' hnone => ?_⟩
      · dsimp only
        rw [BTreeMap.get?_erase, if_pos rfl]
      · cases hout
        exact hsub₁ _ _ hy
      · dsimp only at hy'
        rw [BTreeMap.get?_erase] at hy'
        split_ifs at hy'
        exact hsub₁ y v hy'
      · dsimp only at hnone
        rw [BTreeMap.get?_erase] at hnone
        split_ifs at hnone with hhash
        · exact .inl hhash.symm
        · exact .inr (hold₁ y t p hy' hnone)

omit [OrderBot H] in
/-- `size_per_target` holds one pair per peer with records. -/
theorem Consistent.len_sizes (h : Consistent c) : c.sizePerTarget.len = c.recordPerTarget.size := by
  have hnodup : (c.sizePerTarget.elems.map fun e => (ofLex e).2).Nodup := by
    apply List.Nodup.map_on _ c.sizePerTarget.nodup
    intro x hx x' hx' hxx'
    obtain ⟨rs, hrs, hsum⟩ :=
      (h.mem_sizes _ _).mp (show toLex ((ofLex x).1, (ofLex x).2) ∈ _ from hx)
    obtain ⟨rs', hrs', hsum'⟩ :=
      (h.mem_sizes _ _).mp (show toLex ((ofLex x').1, (ofLex x').2) ∈ _ from hx')
    rw [hxx', hrs', Option.some.injEq] at hrs
    subst hrs
    exact ofLex.injective (Prod.ext (by omega) hxx')
  have hmem : ∀ p, p ∈ c.sizePerTarget.elems.map (fun e => (ofLex e).2) ↔
      p ∈ c.recordPerTarget.keys := by
    intro p
    rw [List.mem_map, BTreeMap.mem_keys_iff]
    constructor
    · rintro ⟨e, he, rfl⟩
      obtain ⟨rs, hrs, -⟩ :=
        (h.mem_sizes _ _).mp (show toLex ((ofLex e).1, (ofLex e).2) ∈ _ from he)
      exact ⟨rs, hrs⟩
    · rintro ⟨rs, hrs⟩
      exact ⟨toLex (c.capacity - rs.len, p),
        (h.mem_sizes _ _).mpr ⟨rs, hrs, Nat.sub_add_cancel (h.len_le_capacity hrs)⟩, rfl⟩
  have hperm := (List.perm_ext_iff_of_nodup hnodup (BTreeMap.keys_nodup _)).mpr hmem
  simpa [BTreeSet.len, BTreeMap.size, BTreeMap.keys] using hperm.length_eq

omit [OrderBot H] in
theorem Consistent.size_eq_sum (h : Consistent c) :
    c.main.size = (c.recordPerTarget.entries.map fun e => e.2.len).sum := by
  obtain ⟨flat, hflat⟩ : ∃ flat, c.recordPerTarget.entries.flatMap
      (fun e => e.2.elems.map fun r => ((ofLex r).2, ((ofLex r).1, e.1))) = flat := ⟨_, rfl⟩
  have hlen : flat.length = (c.recordPerTarget.entries.map fun e => e.2.len).sum := by
    simp [← hflat, List.length_flatMap, BTreeSet.len]
  have hnodup : flat.Nodup := by
    rw [← hflat, List.nodup_flatMap]
    constructor
    · intro e _
      apply List.Nodup.map _ e.2.nodup
      intro r r' hrr'
      simp only [Prod.mk.injEq] at hrr'
      exact ofLex.injective (Prod.ext hrr'.2.1 hrr'.1)
    · have hkeys : (c.recordPerTarget.entries.map Prod.fst).Nodup := BTreeMap.keys_nodup _
      rw [List.Nodup, List.pairwise_map] at hkeys
      refine hkeys.imp fun hne x hx hx' => ?_
      obtain ⟨r, -, rfl⟩ := List.mem_map.mp hx
      obtain ⟨r', -, heq⟩ := List.mem_map.mp hx'
      simp only [Prod.mk.injEq] at heq
      exact hne heq.2.2.symm
  have hmem : ∀ x, x ∈ flat ↔ x ∈ c.main.entries := by
    rintro ⟨y, t, p⟩
    rw [← BTreeMap.get?_eq_some_iff, ← hflat]
    simp only [List.mem_flatMap, List.mem_map, Prod.mk.injEq]
    constructor
    · rintro ⟨⟨q, rs⟩, he, r, hr, rfl, rfl, rfl⟩
      exact (h.mem_records q rs ((BTreeMap.get?_eq_some_iff _ _ _).mpr he) _ _).mp hr
    · intro hy
      obtain ⟨rs, hrs⟩ := Option.isSome_iff_exists.mp (h.records_isSome y t p hy)
      exact ⟨(p, rs), (BTreeMap.get?_eq_some_iff _ _ _).mp hrs, toLex (t, y),
        (h.mem_records p rs hrs t y).mpr hy, rfl, rfl, rfl⟩
  have hperm := (List.perm_ext_iff_of_nodup hnodup (BTreeMap.entries_nodup _)).mpr hmem
  rw [← hlen, hperm.length_eq]
  rfl

omit [OrderBot H] in
/-- A consistent cache passes every assertion of `check_consistency`. -/
theorem Consistent.checkConsistency (h : Consistent c) : c.checkConsistency = true := by
  unfold RouteBackCache.checkConsistency
  simp only [Bool.and_eq_true, decide_eq_true_eq, beq_iff_eq, List.all_eq_true]
  refine ⟨⟨⟨⟨h.size_le, h.len_sizes⟩, ?_⟩, ?_⟩, h.size_eq_sum⟩
  · intro e he
    obtain ⟨rs, hrs, hsum⟩ :=
      (h.mem_sizes _ _).mp (show toLex ((ofLex e).1, (ofLex e).2) ∈ _ from he)
    have hpos : 0 < rs.len := List.length_pos_iff.mpr (h.records_ne_nil _ _ hrs)
    rw [Usize.sub_of_le (by omega : (ofLex e).1 ≤ c.capacity), hrs]
    simp only [Option.map_some, Bool.and_eq_true, decide_eq_true_eq, beq_iff_eq,
      Option.some.injEq]
    omega
  · rintro ⟨target, records⟩ he record hrecord
    have hrs := (BTreeMap.get?_eq_some_iff _ _ _).mpr he
    have hmain := (h.mem_records target records hrs _ _).mp
      (show toLex ((ofLex record).1, (ofLex record).2) ∈ _ from hrecord)
    simp [hmain]

end Calls

section Run

variable {P H : Type} [LinearOrder P] [LinearOrder H] [OrderBot H] {c : RouteBackCache P H}

/-- What one call does to the records: it adds only the record of an `insert` of a hash the
cache does not keep, leaves the cache as it is on an `insert` of a kept hash, and drops a
record only by a `remove` of its hash, by age, or among the oldest of a busiest peer. -/
structure Changes (c : RouteBackCache P H) (call : Call P H) (c' : RouteBackCache P H) :
    Prop where
  added : ∀ y v, c'.main.get? y = some v → c.main.get? y = some v ∨
    ∃ now p, call = .insert now y p ∧ c.main.get? y = none ∧ v = (now, p)
  insert_kept : ∀ now y p, call = .insert now y p → (c.main.get? y).isSome → c' = c
  removed : ∀ y t p, c.main.get? y = some (t, p) → c'.main.get? y = none →
    (∃ now, call = .remove now y) ∨
    (∃ now, call.now? = some now ∧ c.evictTimeout ≤ now ∧ t < now - c.evictTimeout) ∨
    OldestOfBusiest c t y p

/-- The step lemma: a call on a consistent cache never panics, keeps it consistent with the
same settings, and changes its records only as `Changes` says. -/
theorem Consistent.step (h : Consistent c) (hpos : 0 < c.capacity)
    (hmin : 0 < c.removeFrequentMinSize) (call : Call P H) :
    ∃ c' out, c.step call = some (c', out) ∧ Consistent c' ∧ SameSettings c c' ∧
      Changes c call c' := by
  cases call with
  | insert now hash target =>
      obtain ⟨c', hins, h', hset, hkept, -, hadded, hremoved⟩ := h.insert hpos hmin now hash target
      refine ⟨c', none, by simp [RouteBackCache.step, hins], h', hset, ⟨?_, ?_, ?_⟩⟩
      · intro y v hy
        rcases hadded y v hy with hold | ⟨rfl, habsent, rfl⟩
        · exact .inl hold
        · exact .inr ⟨now, target, rfl, habsent, rfl⟩
      · intro now' y p hcall hsome
        cases hcall
        exact hkept hsome
      · intro y t p hy hnone
        rcases hremoved y t p hy hnone with hbusy | hage
        · exact .inr (.inr hbusy)
        · exact .inr (.inl ⟨now, rfl, hage⟩)
  | remove now hash =>
      obtain ⟨c', out, hrem, h', hset, -, -, hsub, hremoved⟩ := h.remove hpos hmin now hash
      refine ⟨c', out, hrem, h', hset, ⟨fun y v hy => .inl (hsub y v hy), ?_, ?_⟩⟩
      · intro now' y p hcall
        cases hcall
      · intro y t p hy hnone
        rcases hremoved y t p hy hnone with rfl | hbusy | hage
        · exact .inl ⟨now, rfl⟩
        · exact .inr (.inr hbusy)
        · exact .inr (.inl ⟨now, rfl, hage⟩)
  | get hash =>
      refine ⟨c, c.get hash, rfl, h, ⟨rfl, rfl, rfl⟩,
        ⟨fun y v hy => .inl hy, fun _ _ _ _ _ => rfl, fun y t p hy hnone => ?_⟩⟩
      rw [hy] at hnone
      cases hnone

theorem runCalls_cons (c : RouteBackCache P H) (call : Call P H) (calls : List (Call P H)) :
    c.runCalls (call :: calls) = (c.step call).bind fun r => r.1.runCalls calls := by
  unfold RouteBackCache.runCalls
  rw [List.foldlM_cons]
  cases c.step call <;> rfl

/-- The run lemma: from a consistent cache, every sequence of calls runs without a panic and
keeps the cache consistent with the same settings. -/
theorem Consistent.runCalls (h : Consistent c) (hpos : 0 < c.capacity)
    (hmin : 0 < c.removeFrequentMinSize) (calls : List (Call P H)) :
    ∃ c', c.runCalls calls = some c' ∧ Consistent c' ∧ SameSettings c c' := by
  induction calls generalizing c with
  | nil => exact ⟨c, rfl, h, ⟨rfl, rfl, rfl⟩⟩
  | cons call calls ih =>
      obtain ⟨c₁, out, hstep, h₁, hset₁, -⟩ := h.step hpos hmin call
      obtain ⟨c', hrun, h', hset'⟩ :=
        ih h₁ (hset₁.capacity ▸ hpos) (hset₁.removeFrequentMinSize ▸ hmin)
      refine ⟨c', ?_, h', hset₁.trans hset'⟩
      rw [runCalls_cons, hstep, Option.bind_some]
      exact hrun

/-- A record kept at the end of a run was kept from its start on, or was added by an `insert`
of the run and kept ever since. -/
theorem Consistent.runCalls_history (h : Consistent c) (hpos : 0 < c.capacity)
    (hmin : 0 < c.removeFrequentMinSize) (calls : List (Call P H)) {c' : RouteBackCache P H}
    (hrun : c.runCalls calls = some c') {y : H} {v : ℕ × P} (hy : c'.main.get? y = some v) :
    (∀ k ≤ calls.length, ∃ ck, c.runCalls (calls.take k) = some ck ∧ ck.main.get? y = some v) ∨
    ∃ j < calls.length, calls[j]? = some (.insert v.1 y v.2) ∧
      (∃ cj, c.runCalls (calls.take j) = some cj ∧ cj.main.get? y = none) ∧
      ∀ k, j < k → k ≤ calls.length →
        ∃ ck, c.runCalls (calls.take k) = some ck ∧ ck.main.get? y = some v := by
  induction calls generalizing c with
  | nil =>
      have hc : c = c' := Option.some.inj hrun
      subst hc
      refine .inl fun k hk => ⟨c, ?_, hy⟩
      rw [Nat.le_zero.mp hk]
      rfl
  | cons call calls ih =>
      obtain ⟨c₁, out, hstep, h₁, hset₁, hchanges⟩ := h.step hpos hmin call
      rw [runCalls_cons, hstep, Option.bind_some] at hrun
      have hshift : ∀ k, c.runCalls ((call :: calls).take (k + 1)) = c₁.runCalls (calls.take k) := by
        intro k
        rw [List.take_succ_cons, runCalls_cons, hstep, Option.bind_some]
      rcases ih h₁ (hset₁.capacity ▸ hpos) (hset₁.removeFrequentMinSize ▸ hmin) hrun with
        hkept | ⟨j, hj, hcall, ⟨cj, hcj, hnone⟩, hafter⟩
      · obtain ⟨c₁', hc₁', hy₁⟩ := hkept 0 (Nat.zero_le _)
        cases hc₁'
        rcases hchanges.added y v hy₁ with hold | ⟨now, p, rfl, habsent, rfl⟩
        · refine .inl fun k hk => ?_
          cases k with
          | zero => exact ⟨c, rfl, hold⟩
          | succ k =>
              rw [hshift]
              exact hkept k (by simpa using hk)
        · refine .inr ⟨0, by simp, rfl, ⟨c, rfl, habsent⟩, fun k hk hle => ?_⟩
          obtain ⟨k, rfl⟩ : ∃ k', k = k' + 1 := ⟨k - 1, by omega⟩
          rw [hshift]
          exact hkept k (by simpa using hle)
      · refine .inr ⟨j + 1, by simpa using hj, by simpa using hcall, ⟨cj, by rw [hshift]; exact hcj,
          hnone⟩, fun k hk hle => ?_⟩
        obtain ⟨k, rfl⟩ : ∃ k', k = k' + 1 := ⟨k - 1, by omega⟩
        rw [hshift]
        exact hafter k (by omega) (by simpa using hle)

/-- The route-back cache from `new` under any sequence of calls, and one more call: nothing
panics; after every call the cache passes `check_consistency` and holds at most `capacity`
records; a hash `get` finds was inserted for that peer and kept since; an `insert` of a kept
hash changes nothing; and a record goes only by a `remove` of its hash, by age, or among the
oldest records of a peer with the most. -/
theorem runCalls_spec {capacity evictTimeout removeFrequentMinSize : ℕ} (hcap : 0 < capacity)
    (hmin : 1 ≤ removeFrequentMinSize) (calls : List (Call P H)) (call : Call P H) :
    ∃ c₀ c c' out, new capacity evictTimeout removeFrequentMinSize = some c₀ ∧
      c₀.runCalls calls = some c ∧ c.step call = some (c', out) ∧
      c.checkConsistency = true ∧ c.main.size ≤ capacity ∧
      (∀ y p, c.get y = some p → ∃ j < calls.length, ∃ now,
        calls[j]? = some (.insert now y p) ∧
        (∃ cj, c₀.runCalls (calls.take j) = some cj ∧ cj.main.get? y = none) ∧
        ∀ k, j < k → k ≤ calls.length →
          ∃ ck, c₀.runCalls (calls.take k) = some ck ∧ ck.main.get? y = some (now, p)) ∧
      (∀ now y p, call = .insert now y p → (c.main.get? y).isSome → c' = c) ∧
      ∀ y t p, c.main.get? y = some (t, p) → c'.main.get? y = none →
        (∃ now, call = .remove now y) ∨
        (∃ now, call.now? = some now ∧ evictTimeout ≤ now ∧ t < now - evictTimeout) ∨
        OldestOfBusiest c t y p := by
  obtain ⟨c₀, hnew⟩ : ∃ c₀ : RouteBackCache P H,
      new capacity evictTimeout removeFrequentMinSize = some c₀ :=
    ⟨_, if_pos hcap⟩
  have h₀ := consistent_new hnew
  have hset₀ : c₀.capacity = capacity ∧ c₀.evictTimeout = evictTimeout ∧
      c₀.removeFrequentMinSize = removeFrequentMinSize := by
    unfold new at hnew
    rw [if_pos hcap, Option.some.injEq] at hnew
    subst hnew
    exact ⟨rfl, rfl, rfl⟩
  have hpos₀ : 0 < c₀.capacity := hset₀.1 ▸ hcap
  have hmin₀ : 0 < c₀.removeFrequentMinSize := hset₀.2.2 ▸ hmin
  obtain ⟨c, hrun, h, hset⟩ := h₀.runCalls hpos₀ hmin₀ calls
  obtain ⟨c', out, hstep, -, -, hchanges⟩ :=
    h.step (hset.capacity ▸ hpos₀) (hset.removeFrequentMinSize ▸ hmin₀) call
  have hsize : c.main.size ≤ capacity := by
    rw [← hset₀.1, ← hset.capacity]
    exact h.size_le
  refine ⟨c₀, c, c', out, hnew, hrun, hstep, h.checkConsistency, hsize, fun y p hget => ?_,
    hchanges.insert_kept,
    fun y t p hy hnone => ?_⟩
  · obtain ⟨⟨t, q⟩, hy, rfl⟩ := Option.map_eq_some_iff.mp hget
    rcases h₀.runCalls_history hpos₀ hmin₀ calls hrun hy with hkept | ⟨j, hj, hcall, hbefore, hafter⟩
    · obtain ⟨c₀', hc₀', hy₀⟩ := hkept 0 (Nat.zero_le _)
      cases hc₀'
      unfold new at hnew
      rw [if_pos hcap, Option.some.injEq] at hnew
      subst hnew
      simp at hy₀
    · exact ⟨j, hj, t, hcall, hbefore, hafter⟩
  · rcases hchanges.removed y t p hy hnone with hremove | ⟨now, hnow, hage⟩ | hbusy
    · exact .inl hremove
    · rw [hset.evictTimeout, hset₀.2.1] at hage
      exact .inr (.inl ⟨now, hnow, hage⟩)
    · exact .inr (.inr hbusy)

/-- Two peers sharing a cache of two records: the third `insert` finds it full. -/
theorem runCalls_spec_threeInserts :
    (0 < 2 ∧ 1 ≤ 1) ∧ ∃ c₀ c : RouteBackCache ℕ ℕ, new 2 10 1 = some c₀ ∧
      c₀.runCalls [.insert 0 5 1, .insert 1 6 1, .insert 2 7 2] = some c ∧
      c.checkConsistency = true ∧ c.main.size ≤ 2 := by
  obtain ⟨c₀, c, -, -, hnew, hrun, -, hcheck, hsize, -⟩ :=
    @runCalls_spec ℕ ℕ _ _ _ 2 10 1 (by decide) (le_refl 1)
      [.insert 0 5 1, .insert 1 6 1, .insert 2 7 2] (.get 7)
  exact ⟨⟨by decide, le_refl 1⟩, c₀, c, hnew, hrun, hcheck, hsize⟩

example : ((new 2 10 1 : Option (RouteBackCache ℕ ℕ)).bind
    (·.runCalls [.insert 0 5 1, .insert 1 6 1, .insert 2 7 2])).map
      (fun c => [c.get 5, c.get 6, c.get 7]) = some [none, some 1, some 2] := by
  decide

end Run

end RouteBackCache

end Nearcore.Network
