import Nearcore.ListFacts
import Nearcore.TrieUpdateMap

/-!
# The overlay of `TrieUpdate`

`TrieUpdate` (`core/store/src/trie/update.rs`) keeps the writes made over a trie in two ordered
maps: `prospective`, the last write to each key since the last commit or rollback, and
`committed`, the changes the commits made to each key, each with the cause of its commit.
`get` reads the prospective write, then the last committed change, then the trie; `commit`
pushes the prospective writes onto the committed changes; `finalize` gives the last committed
change of every key to `Trie::update`.

The trie below is a parameter: `get` takes the trie's `get`, and `finalize` the trie's
`update`, which `Nearcore.Trie.update` instantiates.  What a run of operations should leave is
the log of its writes (`WriteLog`), split as the source's names say into the writes a commit
has taken and the ones still prospective.  `TrieUpdate.Tracks` ties the two maps to the log;
every operation keeps it, so `get` returns the merged view of the log (`Tracks.get_eq`) and
`finalize` after a commit builds a trie whose map is that view (`Tracks.finalize_lookup`).
-/

namespace Nearcore.Trie

/-- `RawStateChange`: a committed write, with the cause of its commit. -/
structure RawStateChange (Cause : Type) where
  cause : Cause
  data : Option (List UInt8)
  deriving DecidableEq

/-- `TrieUpdate`.  A `TrieKey` is represented by its bytes `to_vec()`, the key of both maps;
the trie key kept beside each write for the state-change RPCs is left out. -/
structure TrieUpdate (τ Cause : Type) where
  trie : τ
  committed : BTreeMap (List UInt8) (List (RawStateChange Cause))
  prospective : BTreeMap (List UInt8) (Option (List UInt8))

/-- The operations of a run on a `TrieUpdate`. -/
inductive TrieUpdateOp (Cause : Type) where
  | set (key value : List UInt8)
  | remove (key : List UInt8)
  | commit (event : Cause)
  | rollback

namespace TrieUpdate

variable {τ Cause : Type}

/-- `TrieUpdate::new`. -/
def new (trie : τ) : TrieUpdate τ Cause := ⟨trie, BTreeMap.empty, BTreeMap.empty⟩

/-- `TrieUpdate::get`: the prospective write to the key, else its last committed change, else
the trie's value. -/
def get (trieGet : τ → List UInt8 → Except StorageError (Option (List UInt8)))
    (self : TrieUpdate τ Cause) (key : List UInt8) : Except StorageError (Option (List UInt8)) :=
  match self.prospective.get? key with
  | some value => .ok value
  | none =>
    match (self.committed.get? key).bind List.getLast? with
    | some change => .ok change.data
    | none => trieGet self.trie key

/-- `TrieUpdate::set`. -/
def set (self : TrieUpdate τ Cause) (key value : List UInt8) : TrieUpdate τ Cause :=
  { self with prospective := self.prospective.insert key (some value) }

/-- `TrieUpdate::remove`. -/
def remove (self : TrieUpdate τ Cause) (key : List UInt8) : TrieUpdate τ Cause :=
  { self with prospective := self.prospective.insert key none }

/-- One turn of the loop of `commit`: the write pushed onto the changes of its key, created
empty by `or_insert_with`. -/
def pushChange (event : Cause) (committed : BTreeMap (List UInt8) (List (RawStateChange Cause)))
    (write : List UInt8 × Option (List UInt8)) :
    BTreeMap (List UInt8) (List (RawStateChange Cause)) :=
  committed.insert write.1 ((committed.get? write.1).getD [] ++ [⟨event, write.2⟩])

/-- `TrieUpdate::commit`: the prospective writes, in the order of their keys, each pushed onto
the changes of its key, and `prospective` left empty by `std::mem::take`. -/
def commit (self : TrieUpdate τ Cause) (event : Cause) : TrieUpdate τ Cause :=
  { self with
    committed := self.prospective.entries.foldl (pushChange event) self.committed
    prospective := BTreeMap.empty }

/-- `TrieUpdate::rollback`. -/
def rollback (self : TrieUpdate τ Cause) : TrieUpdate τ Cause :=
  { self with prospective := BTreeMap.empty }

/-- The data of the last change of a committed key:
`.expect("Committed entry should have at least one change")`. -/
def lastData (changes : List (RawStateChange Cause)) : Except Failure (Option (List UInt8)) :=
  match changes.getLast? with
  | some change => .ok change.data
  | none => .error .panic

/-- The last committed write of every key, in key order: what `finalize` hands to
`Trie::update` when no key is left without changes. -/
def committedWrites (self : TrieUpdate τ Cause) : List (List UInt8 × Option (List UInt8)) :=
  self.committed.entries.map fun entry => (entry.1, entry.2.getLast?.bind RawStateChange.data)

/-- `TrieUpdate::finalize`: with no uncommitted write, `Trie::update` of the last committed
change of every key in key order, returning the trie, the trie changes and the committed
changes.  The changes are read before the update; the source reads them inside the iterator the
update consumes, which differs only where a key has no change, which no run leaves. -/
def finalize (trieUpdate : τ → List (List UInt8 × Option (List UInt8)) → Except Failure TrieChanges)
    (self : TrieUpdate τ Cause) :
    Except Failure (τ × TrieChanges × List (List (RawStateChange Cause))) := do
  -- `assert!(self.prospective.is_empty(), ...)`
  if !self.prospective.isEmpty then throw .panic
  let changes ← self.committed.entries.mapM fun entry => do
    pure (entry.1, ← lastData entry.2)
  let trieChanges ← trieUpdate self.trie changes
  pure (self.trie, trieChanges, self.committed.entries.map (·.2))

/-- One operation of a run. -/
def apply (self : TrieUpdate τ Cause) : TrieUpdateOp Cause → TrieUpdate τ Cause
  | .set key value => self.set key value
  | .remove key => self.remove key
  | .commit event => self.commit event
  | .rollback => self.rollback

/-- A run of operations. -/
def run (self : TrieUpdate τ Cause) (ops : List (TrieUpdateOp Cause)) : TrieUpdate τ Cause :=
  ops.foldl apply self

/-- No operation changes the trie below. -/
@[simp] theorem trie_run (self : TrieUpdate τ Cause) (ops : List (TrieUpdateOp Cause)) :
    (self.run ops).trie = self.trie := by
  induction ops generalizing self with
  | nil => rfl
  | cons op ops ih =>
    rw [run, List.foldl_cons, ← run, ih]
    cases op <;> rfl

end TrieUpdate

/-! ## The writes of a run -/

/-- The writes of a run: those a commit has taken, in order, and those since the last commit or
rollback.  A write is a key with its new value, `none` for a removal. -/
structure WriteLog where
  committed : List (List UInt8 × Option (List UInt8))
  pending : List (List UInt8 × Option (List UInt8))

namespace WriteLog

variable {Cause : Type}

def empty : WriteLog := ⟨[], []⟩

/-- What one operation writes: a commit takes the pending writes, a rollback drops them. -/
def apply (log : WriteLog) : TrieUpdateOp Cause → WriteLog
  | .set key value => { log with pending := log.pending ++ [(key, some value)] }
  | .remove key => { log with pending := log.pending ++ [(key, none)] }
  | .commit _ => ⟨log.committed ++ log.pending, []⟩
  | .rollback => { log with pending := [] }

/-- The log of a run from a fresh `TrieUpdate`. -/
def ofOps (ops : List (TrieUpdateOp Cause)) : WriteLog := ops.foldl apply empty

/-- The latest write to `key` among `writes`. -/
def latestWrite (writes : List (List UInt8 × Option (List UInt8))) (key : List UInt8) :
    Option (Option (List UInt8)) :=
  (writes.reverse.find? (·.1 == key)).map (·.2)

/-- The merged view over the map `base`: the latest pending write to the key, else its latest
committed write, else its value in `base`. -/
def view (log : WriteLog) (base : List UInt8 → Option (List UInt8)) (key : List UInt8) :
    Option (List UInt8) :=
  match latestWrite log.pending key with
  | some value => value
  | none =>
    match latestWrite log.committed key with
    | some value => value
    | none => base key

@[simp] theorem latestWrite_nil (key : List UInt8) : latestWrite [] key = none := rfl

theorem latestWrite_append (writes writes' : List (List UInt8 × Option (List UInt8)))
    (key : List UInt8) :
    latestWrite (writes ++ writes') key = (latestWrite writes' key).or (latestWrite writes key) := by
  simp only [latestWrite, List.reverse_append, List.find?_append, Option.map_or]

theorem latestWrite_append_singleton (writes : List (List UInt8 × Option (List UInt8)))
    (key key' : List UInt8) (value : Option (List UInt8)) :
    latestWrite (writes ++ [(key', value)]) key =
      if key' = key then some value else latestWrite writes key := by
  rw [latestWrite_append]
  by_cases h : key' = key
  · simp [latestWrite, h]
  · simp [latestWrite, h]

theorem view_eq (log : WriteLog) (base : List UInt8 → Option (List UInt8)) (key : List UInt8) :
    log.view base key =
      match latestWrite (log.committed ++ log.pending) key with
      | some value => value
      | none => base key := by
  rw [latestWrite_append]
  unfold view
  cases latestWrite log.pending key <;> rfl

end WriteLog

/-! ## The maps hold the log -/

namespace TrieUpdate

open WriteLog

variable {τ Cause : Type}

/-- The prospective write of a key is its latest pending write, the data of its last committed
change its latest committed write, and no committed key has an empty list of changes. -/
structure Tracks (log : WriteLog) (update : TrieUpdate τ Cause) : Prop where
  prospective_eq : ∀ key, update.prospective.get? key = latestWrite log.pending key
  committed_eq : ∀ key,
    ((update.committed.get? key).bind List.getLast?).map RawStateChange.data =
      latestWrite log.committed key
  committed_ne_nil : ∀ key changes, update.committed.get? key = some changes → changes ≠ []

theorem tracks_new (trie : τ) : Tracks WriteLog.empty (new trie : TrieUpdate τ Cause) :=
  ⟨fun _ => rfl, fun _ => rfl, fun _ _ h => by simp [new] at h⟩

/-- After the loop of `commit` a key written in it has one more change, the others none. -/
theorem get?_foldl_pushChange (event : Cause) {writes : List (List UInt8 × Option (List UInt8))}
    (hnodup : (writes.map (·.1)).Nodup)
    (committed : BTreeMap (List UInt8) (List (RawStateChange Cause))) (key : List UInt8) :
    (writes.foldl (pushChange event) committed).get? key =
      match writes.find? (·.1 == key) with
      | some write => some ((committed.get? key).getD [] ++ [⟨event, write.2⟩])
      | none => committed.get? key := by
  induction writes generalizing committed with
  | nil => rfl
  | cons write writes ih =>
    obtain ⟨hfresh, hnodup⟩ := List.nodup_cons.mp hnodup
    rw [List.foldl_cons, ih hnodup, List.find?_cons]
    by_cases hkey : write.1 = key
    · -- the key is written here and nowhere after
      have hnone : writes.find? (·.1 == key) = none := by
        rw [List.find?_eq_none]
        intro w hw hwkey
        exact hfresh (List.mem_map.mpr ⟨w, hw, (beq_iff_eq.mp hwkey).trans hkey.symm⟩)
      simp only [hnone, hkey, beq_self_eq_true, pushChange, BTreeMap.get?_insert, if_pos]
    · have hne : (write.1 == key) = false := beq_false_of_ne hkey
      simp only [hne, pushChange]
      cases writes.find? (·.1 == key) <;> simp only [BTreeMap.get?_insert, if_neg hkey]

theorem Tracks.apply {log : WriteLog} {self : TrieUpdate τ Cause} (htracks : Tracks log self)
    (op : TrieUpdateOp Cause) : Tracks (log.apply op) (self.apply op) := by
  cases op with
  | set key value =>
    refine ⟨fun key' => ?_, htracks.committed_eq, htracks.committed_ne_nil⟩
    simp only [TrieUpdate.apply, set, WriteLog.apply, BTreeMap.get?_insert,
      latestWrite_append_singleton, htracks.prospective_eq]
  | remove key =>
    refine ⟨fun key' => ?_, htracks.committed_eq, htracks.committed_ne_nil⟩
    simp only [TrieUpdate.apply, remove, WriteLog.apply, BTreeMap.get?_insert,
      latestWrite_append_singleton, htracks.prospective_eq]
  | commit event =>
    have hget := get?_foldl_pushChange event self.prospective.keys_nodup self.committed
    have hfind : ∀ key, (self.prospective.entries.find? (·.1 == key)).map (·.2) =
        latestWrite log.pending key := by
      intro key
      rw [← htracks.prospective_eq, BTreeMap.get?_eq_find?_beq]
    refine ⟨fun key => rfl, fun key => ?_, fun key changes h => ?_⟩
    · simp only [TrieUpdate.apply, commit, WriteLog.apply, hget, latestWrite_append]
      rw [← hfind key, ← htracks.committed_eq key]
      cases self.prospective.entries.find? (·.1 == key) with
      | none => rfl
      | some write => simp
    · simp only [TrieUpdate.apply, commit, hget] at h
      split at h
      · rw [← Option.some.inj h]
        simp
      · exact htracks.committed_ne_nil key changes h
  | rollback =>
    exact ⟨fun _ => rfl, htracks.committed_eq, htracks.committed_ne_nil⟩

/-- A whole run keeps the maps in step with the log. -/
theorem Tracks.run {log : WriteLog} {self : TrieUpdate τ Cause} (htracks : Tracks log self)
    (ops : List (TrieUpdateOp Cause)) : Tracks (ops.foldl WriteLog.apply log) (self.run ops) := by
  induction ops generalizing log self with
  | nil => exact htracks
  | cons op ops ih => exact ih (htracks.apply op)

theorem tracks_run (trie : τ) (ops : List (TrieUpdateOp Cause)) :
    Tracks (WriteLog.ofOps ops) ((new trie : TrieUpdate τ Cause).run ops) :=
  (tracks_new trie).run ops

theorem Tracks.get_eq {log : WriteLog} {self : TrieUpdate τ Cause} (htracks : Tracks log self)
    {trieGet : τ → List UInt8 → Except StorageError (Option (List UInt8))}
    {base : List UInt8 → Option (List UInt8)} (hbase : ∀ key, trieGet self.trie key = .ok (base key))
    (key : List UInt8) : self.get trieGet key = .ok (log.view base key) := by
  have hcommitted := htracks.committed_eq key
  unfold get view
  rw [htracks.prospective_eq]
  cases latestWrite log.pending key with
  | some value => rfl
  | none =>
    dsimp only
    cases hlast : (self.committed.get? key).bind List.getLast? with
    | some change =>
      rw [hlast] at hcommitted
      rw [← hcommitted]
      rfl
    | none =>
      rw [hlast] at hcommitted
      rw [← hcommitted]
      exact hbase key

theorem Tracks.lastChange_eq {log : WriteLog} {self : TrieUpdate τ Cause} (htracks : Tracks log self)
    (key : List UInt8) :
    (self.committed.get? key).map (fun changes => changes.getLast?.bind RawStateChange.data) =
      latestWrite log.committed key := by
  rw [← htracks.committed_eq key]
  cases hget : self.committed.get? key with
  | none => rfl
  | some changes =>
    obtain ⟨change, hlast⟩ := Option.isSome_iff_exists.mp
      (List.getLast?_isSome.mpr (htracks.committed_ne_nil key changes hget))
    simp [hlast]

/-! ## `finalize` after a commit -/

/-- With no key left without changes, reading the last changes does not panic. -/
theorem mapM_lastData {entries : List (List UInt8 × List (RawStateChange Cause))}
    (hne : ∀ entry ∈ entries, entry.2 ≠ []) :
    entries.mapM (fun entry => do pure (entry.1, ← lastData entry.2)) =
      .ok (entries.map fun entry => (entry.1, entry.2.getLast?.bind RawStateChange.data)) := by
  induction entries with
  | nil => rfl
  | cons entry entries ih =>
    obtain ⟨change, hlast⟩ :=
      Option.isSome_iff_exists.mp (List.getLast?_isSome.mpr (hne entry List.mem_cons_self))
    rw [List.mapM_cons, ih fun e he => hne e (List.mem_cons_of_mem _ he)]
    simp only [lastData, hlast, List.map_cons, Option.bind_some]
    rfl

/-- The list `finalize` hands to `Trie::update` has, as the last entry of a key, the latest
committed write to it. -/
theorem Tracks.find?_reverse_committed {log : WriteLog} {self : TrieUpdate τ Cause}
    (htracks : Tracks log self) (key : List UInt8) :
    self.committedWrites.reverse.find? (·.1 == key) = (latestWrite log.committed key).map (key, ·) := by
  unfold committedWrites
  have hkeys : ((self.committed.entries.map fun entry =>
      (entry.1, entry.2.getLast?.bind RawStateChange.data)).map (·.1)).Nodup := by
    simpa [List.map_map, Function.comp_def, BTreeMap.keys] using self.committed.keys_nodup
  have hget := BTreeMap.get?_eq_find?_beq self.committed key
  rw [List.find?_reverse_of_nodup_keys hkeys, List.find?_map, ← htracks.committed_eq key]
  simp only [Function.comp_def]
  cases hfind : self.committed.entries.find? (·.1 == key) with
  | none =>
    rw [hfind] at hget
    rw [hget]
    rfl
  | some entry =>
    have hkey : entry.1 = key := by
      have hbeq := List.find?_some hfind
      exact beq_iff_eq.mp hbeq
    rw [hfind] at hget
    obtain ⟨change, hlast⟩ := Option.isSome_iff_exists.mp
      (List.getLast?_isSome.mpr (htracks.committed_ne_nil key entry.2 hget))
    simp [hget, hlast, hkey]

/-- After a commit, `finalize` does not panic of its own: it is `Trie::update` of the latest
committed write of every key; and when the update succeeds, the new root, read from the storage
with its insertions, maps every key to its latest committed write, or to the old value where no
write names it. -/
theorem Tracks.finalize_lookup {hash : List UInt8 → CryptoHash} {storage : TrieStorage}
    {M : List Nibble → Option ValueRef} {log : WriteLog} {self : TrieUpdate CryptoHash Cause}
    (htracks : Tracks log self) (hpending : log.pending = [])
    (hroot : Denotes storage hash (.hash self.trie) M) (fuel : ℕ) :
    self.finalize (fun root writes => update hash storage root writes fuel) =
        (update hash storage self.trie self.committedWrites fuel).map
          (fun trieChanges => (self.trie, trieChanges, self.committed.entries.map (·.2))) ∧
      ∀ trieChanges,
        CollisionFree hash storage (updateWrites hash storage self.trie self.committedWrites fuel) →
        update hash storage self.trie self.committedWrites fuel = .ok trieChanges → ∀ key, ∃ lookupFuel,
          lookup (storage.applyInsertions trieChanges.insertions) lookupFuel trieChanges.newRoot
              (NibbleSlice.new key) =
            some (.ok (match latestWrite log.committed key with
              | some value => value.map fun value => (ValueHandle.inMemory value).toRef hash
              | none => M (bytesToNibbles key))) := by
  have hempty : self.prospective.isEmpty = true := by
    rw [BTreeMap.isEmpty_iff]
    intro key
    rw [htracks.prospective_eq, hpending, latestWrite_nil]
  have hwrites := mapM_lastData fun entry hentry =>
    htracks.committed_ne_nil entry.1 entry.2 ((BTreeMap.get?_eq_some_iff _ _ _).mpr hentry)
  refine ⟨?_, fun trieChanges hfree hupdate key => ?_⟩
  · simp only [finalize, hempty, Bool.not_true, Bool.false_eq_true, if_false]
    rw [hwrites]
    rfl
  · obtain ⟨lookupFuel, hlookup⟩ := lookup_of_update_ok hroot hfree hupdate key
    refine ⟨lookupFuel, ?_⟩
    rw [hlookup, htracks.find?_reverse_committed key]
    cases latestWrite log.committed key <;> rfl

end TrieUpdate

end Nearcore.Trie
