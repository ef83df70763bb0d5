import Mathlib.Data.List.Destutter
import Nearcore.RoutingGraph

/-!
# The edges behind the routing graph: `routing::graph::Inner`

`Inner` keeps every edge it has heard of, active or removed, in a hash map under its key
`(peer0, peer1)`, with `peer0 < peer1`, and mirrors the active ones in the `bfs::Graph`:
`update_edge` takes an edge only if its nonce is newer than the one stored and it is not
older than the pruning horizon, and passes it on as an `add_edge` or a `remove_edge`;
`remove_edge`, `remove_adjacent_edges` and `prune_old_edges` drop stored edges and the graph's
copy with them.

The hash map is `EdgeMap`, the list of its edges with their keys distinct: every edge is
stored under its own key.  The loops over `edges.clone().values()` take the values in an
order the hash map chooses, so they are modelled over any enumeration of them.  The `time`
crate's `Utc::from_unix_timestamp` is a parameter (`UtcBase`), and `EDGE_MIN_TIMESTAMP_NONCE`
its value at `1660000000`; `CryptoHash::hash_borsh` and `Signature::verify`, which
`Edge::verify` calls, are parameters too (`EdgeCrypto`).  The store of pruned components and
the `add_edges` that loads them are in `RoutingComponents`.
-/

namespace Nearcore.Routing


variable {P S : Type}

/-- `Edge`: its key, its nonce, the signatures of its two peers and the removal info. -/
structure Edge (P S : Type) where
  key : P × P
  nonce : ℕ
  signature0 : S
  signature1 : S
  removalInfo : Option (Bool × S)
  deriving DecidableEq, Repr

namespace Edge

/-- `Edge::edge_type`. -/
def edgeType (e : Edge P S) : Graph.EdgeState :=
  if e.nonce % 2 = 1 then .active else .removed

end Edge

/-- The `im::HashMap<EdgeKey, Edge>` of `Inner`: each edge under its own key. -/
@[ext]
structure EdgeMap (P S : Type) where
  entries : List (Edge P S)
  nodup_keys : (entries.map Edge.key).Nodup

namespace EdgeMap

def empty : EdgeMap P S := ⟨[], List.nodup_nil⟩

theorem nodup_keys_filter (m : EdgeMap P S) (p : Edge P S → Bool) :
    ((m.entries.filter p).map Edge.key).Nodup :=
  m.nodup_keys.sublist (List.filter_sublist.map _)

section Ops

variable [DecidableEq P]

def get (m : EdgeMap P S) (key : P × P) : Option (Edge P S) :=
  m.entries.find? fun e => e.key = key

def insert (m : EdgeMap P S) (e : Edge P S) : EdgeMap P S where
  entries := m.entries.filter (fun x => x.key ≠ e.key) ++ [e]
  nodup_keys := by
    rw [List.map_append, List.nodup_append]
    refine ⟨m.nodup_keys_filter _, List.nodup_singleton _, ?_⟩
    intro k hk k' hk'
    obtain ⟨x, hx, rfl⟩ := List.mem_map.mp hk
    rw [List.map_singleton, List.mem_singleton] at hk'
    rw [hk']
    simpa using (List.mem_filter.mp hx).2

def erase (m : EdgeMap P S) (key : P × P) : EdgeMap P S where
  entries := m.entries.filter fun x => x.key ≠ key
  nodup_keys := m.nodup_keys_filter _

variable {m : EdgeMap P S}

theorem get_eq_none_iff {key : P × P} : m.get key = none ↔ ∀ e ∈ m.entries, e.key ≠ key := by
  simp [get, List.find?_eq_none]

theorem get_eq_some_iff {key : P × P} {e : Edge P S} :
    m.get key = some e ↔ e ∈ m.entries ∧ e.key = key := by
  constructor
  · intro h
    exact ⟨List.mem_of_find?_eq_some h, by simpa using List.find?_some h⟩
  · rintro ⟨he, rfl⟩
    obtain ⟨x, hx⟩ : ∃ x, m.get e.key = some x := by
      cases h : m.get e.key with
      | some x => exact ⟨x, rfl⟩
      | none => exact absurd rfl (get_eq_none_iff.mp h e he)
    have hxkey : x.key = e.key := by simpa using List.find?_some hx
    rw [hx, List.inj_on_of_nodup_map m.nodup_keys (List.mem_of_find?_eq_some hx) he hxkey]

theorem mem_insert {e x : Edge P S} :
    x ∈ (m.insert e).entries ↔ x = e ∨ x ∈ m.entries ∧ x.key ≠ e.key := by
  simp [insert, or_comm]

theorem mem_erase {key : P × P} {x : Edge P S} :
    x ∈ (m.erase key).entries ↔ x ∈ m.entries ∧ x.key ≠ key := by
  simp [erase]

theorem get_insert (e : Edge P S) (key : P × P) :
    (m.insert e).get key = if key = e.key then some e else m.get key := by
  split_ifs with hkey
  · rw [get_eq_some_iff, mem_insert]
    exact ⟨.inl rfl, hkey.symm⟩
  · cases hget : m.get key with
    | none =>
        rw [get_eq_none_iff] at hget ⊢
        intro x hx hxkey
        rcases mem_insert.mp hx with rfl | ⟨hx, -⟩
        · exact hkey hxkey.symm
        · exact hget x hx hxkey
    | some x =>
        obtain ⟨hx, rfl⟩ := get_eq_some_iff.mp hget
        exact get_eq_some_iff.mpr ⟨mem_insert.mpr (.inr ⟨hx, hkey⟩), rfl⟩

theorem get_erase (key' key : P × P) :
    (m.erase key').get key = if key = key' then none else m.get key := by
  split_ifs with hkey
  · rw [get_eq_none_iff]
    intro x hx hxkey
    exact (mem_erase.mp hx).2 (hxkey.trans hkey)
  · cases hget : m.get key with
    | none =>
        rw [get_eq_none_iff] at hget ⊢
        exact fun x hx => hget x (mem_erase.mp hx).1
    | some x =>
        obtain ⟨hx, rfl⟩ := get_eq_some_iff.mp hget
        exact get_eq_some_iff.mpr ⟨mem_erase.mpr ⟨hx, hkey⟩, rfl⟩

end Ops

end EdgeMap

section Defs

variable [DecidableEq P]

/-- `has`: the map holds the edge's key with a nonce at least the edge's. -/
def has (set : EdgeMap P S) (edge : Edge P S) : Bool :=
  (set.get edge.key).elim false fun x => decide (edge.nonce ≤ x.nonce)

theorem has_eq_false_iff {m : EdgeMap P S} {edge : Edge P S} :
    has m edge = false ↔ ∀ x, m.get edge.key = some x → x.nonce < edge.nonce := by
  cases hget : m.get edge.key with
  | none => simp [has, hget]
  | some x => simp [has, hget]

/-- What `Inner` reads of the `time` crate: `Utc::from_unix_timestamp`, `none` out of range,
which `EDGE_MIN_TIMESTAMP_NONCE` unwraps at `1660000000`. -/
structure UtcBase (Utc : Type) where
  fromUnixTimestamp : ℤ → Option Utc
  edgeMin_isSome : (fromUnixTimestamp 1660000000).isSome

variable {Utc : Type} [LinearOrder Utc]

/-- `EDGE_MIN_TIMESTAMP_NONCE`: `Utc::from_unix_timestamp(1660000000).unwrap()`. -/
def UtcBase.edgeMinTimestampNonce (base : UtcBase Utc) : Utc :=
  (base.fromUnixTimestamp 1660000000).get base.edgeMin_isSome

/-- `Utc` as whole seconds since the epoch, every timestamp in range. -/
def unixUtc : UtcBase ℤ := ⟨some, rfl⟩

/-- `Edge::nonce_to_utc`: `none` for the `Err` of a nonce past `i64`, or out of range. -/
def nonceToUtc (base : UtcBase Utc) (nonce : ℕ) : Option (Option Utc) :=
  if nonce < 2 ^ 63 then
    (base.fromUnixTimestamp nonce).map fun nonceTs =>
      if base.edgeMinTimestampNonce < nonceTs then some nonceTs else none
  else none

/-- `Edge::is_edge_older_than`. -/
def Edge.isEdgeOlderThan (base : UtcBase Utc) (e : Edge P S) (utcTimestamp : Utc) : Bool :=
  match nonceToUtc base e.nonce with
  | some (some nonceTimestamp) => decide (nonceTimestamp < utcTimestamp)
  | _ => false

/-- `Inner`, its graph and its edges. -/
structure Inner (P S : Type) where
  graph : Graph P
  edges : EdgeMap P S

namespace Inner

/-- `Inner::update_edge`, with `cutoff` the `now - prune_edges_after` of a configured
`prune_edges_after`; the flag says whether the edge was taken. -/
def updateEdge (base : UtcBase Utc) (cutoff : Option Utc) (s : Inner P S) (edge : Edge P S) :
    Option (Inner P S × Bool) :=
  if has s.edges edge then some (s, false)
  else if cutoff.any (edge.isEdgeOlderThan base) then some (s, false)
  else do
    let graph ← s.graph.updateEdge edge.key.1 edge.key.2 edge.edgeType
    pure (⟨graph, s.edges.insert edge⟩, true)

/-- `Inner::remove_edge`. -/
def removeEdge (s : Inner P S) (key : P × P) : Option (Inner P S) :=
  match s.edges.get key with
  | some _ => do
      let graph ← s.graph.removeEdge key.1 key.2
      pure ⟨graph, s.edges.erase key⟩
  | none => some s

/-- `Inner::remove_adjacent_edges`, over the values of the map in the order `values`. -/
def removeAdjacentEdges (s : Inner P S) (peers : List P) (values : List (Edge P S)) :
    Option (Inner P S × List (Edge P S)) :=
  values.foldlM (fun acc e =>
    if peers.contains e.key.1 || peers.contains e.key.2 then do
      let s ← acc.1.removeEdge e.key
      pure (s, acc.2 ++ [e])
    else pure acc) (s, [])

/-- `Inner::prune_old_edges`, over the values of the map in the order `values`. -/
def pruneOldEdges (base : UtcBase Utc) (s : Inner P S) (pruneEdgesOlderThan : Utc)
    (values : List (Edge P S)) : Option (Inner P S) :=
  values.foldlM (fun s e =>
    if e.isEdgeOlderThan base pruneEdgesOlderThan then s.removeEdge e.key else pure s) s

end Inner

end Defs

/-! ## The graph stands for the active edges -/

section Invariant

variable [LinearOrder P]

/-- The undirected edges of the active edges of a map. -/
def activeEdges (m : EdgeMap P S) : Finset (Sym2 P) :=
  ((m.entries.filter fun e => e.edgeType = .active).map fun e => s(e.key.1, e.key.2)).toFinset

/-- Every key in order, `peer0 < peer1`, as `Edge::verify` asks. -/
def KeysOrdered (m : EdgeMap P S) : Prop := ∀ e ∈ m.entries, e.key.1 < e.key.2

theorem mem_activeEdges {m : EdgeMap P S} {z : Sym2 P} :
    z ∈ activeEdges m ↔ ∃ e ∈ m.entries, e.edgeType = .active ∧ s(e.key.1, e.key.2) = z := by
  simp [activeEdges, and_assoc]

theorem key_eq_of_sym2_eq {k k' : P × P} (hk : k.1 < k.2) (hk' : k'.1 < k'.2)
    (h : s(k.1, k.2) = s(k'.1, k'.2)) : k = k' := by
  rcases Sym2.eq_iff.mp h with ⟨h1, h2⟩ | ⟨h1, h2⟩
  · exact Prod.ext h1 h2
  · rw [h1, h2] at hk
    exact absurd hk' (lt_asymm hk)

variable {m : EdgeMap P S}

theorem KeysOrdered.insert (hm : KeysOrdered m) {e : Edge P S} (he : e.key.1 < e.key.2) :
    KeysOrdered (m.insert e) := by
  intro x hx
  rcases EdgeMap.mem_insert.mp hx with rfl | ⟨hx, -⟩
  · exact he
  · exact hm x hx

theorem KeysOrdered.erase (hm : KeysOrdered m) (key : P × P) : KeysOrdered (m.erase key) :=
  fun x hx => hm x (EdgeMap.mem_erase.mp hx).1

theorem activeEdges_insert (hm : KeysOrdered m) {e : Edge P S} (he : e.key.1 < e.key.2) :
    activeEdges (m.insert e) = e.edgeType.applyTo (activeEdges m) e.key.1 e.key.2 := by
  ext z
  rw [mem_activeEdges]
  cases hstate : e.edgeType with
  | active =>
      simp only [Graph.EdgeState.applyTo, Finset.mem_insert, mem_activeEdges]
      constructor
      · rintro ⟨x, hx, hxa, rfl⟩
        rcases EdgeMap.mem_insert.mp hx with rfl | ⟨hx, -⟩
        · exact .inl rfl
        · exact .inr ⟨x, hx, hxa, rfl⟩
      · rintro (rfl | ⟨x, hx, hxa, rfl⟩)
        · exact ⟨e, EdgeMap.mem_insert.mpr (.inl rfl), hstate, rfl⟩
        · by_cases hkey : x.key = e.key
          · exact ⟨e, EdgeMap.mem_insert.mpr (.inl rfl), hstate, by rw [hkey]⟩
          · exact ⟨x, EdgeMap.mem_insert.mpr (.inr ⟨hx, hkey⟩), hxa, rfl⟩
  | removed =>
      -- the removed edge leaves its undirected edge, which no other key stands for
      simp only [Graph.EdgeState.applyTo, Finset.mem_erase, mem_activeEdges]
      constructor
      · rintro ⟨x, hx, hxa, rfl⟩
        rcases EdgeMap.mem_insert.mp hx with rfl | ⟨hx, hkey⟩
        · rw [hstate] at hxa
          cases hxa
        · exact ⟨fun h => hkey (key_eq_of_sym2_eq (hm x hx) he h), x, hx, hxa, rfl⟩
      · rintro ⟨hne, x, hx, hxa, rfl⟩
        exact ⟨x, EdgeMap.mem_insert.mpr (.inr ⟨hx, fun hkey => hne (by rw [hkey])⟩), hxa, rfl⟩

theorem activeEdges_erase (hm : KeysOrdered m) {key : P × P} (hkey : key.1 < key.2) :
    activeEdges (m.erase key) = (activeEdges m).erase s(key.1, key.2) := by
  ext z
  rw [Finset.mem_erase, mem_activeEdges, mem_activeEdges]
  constructor
  · rintro ⟨x, hx, hxa, rfl⟩
    obtain ⟨hx, hxkey⟩ := EdgeMap.mem_erase.mp hx
    exact ⟨fun h => hxkey (key_eq_of_sym2_eq (hm x hx) hkey h), x, hx, hxa, rfl⟩
  · rintro ⟨hne, x, hx, hxa, rfl⟩
    exact ⟨x, EdgeMap.mem_erase.mpr ⟨hx, fun h => hne (by rw [h])⟩, hxa, rfl⟩

theorem card_activeEdges (hm : KeysOrdered m) :
    (activeEdges m).card = (m.entries.filter fun e => e.edgeType = .active).length := by
  rw [activeEdges, List.toFinset_card_of_nodup, List.length_map]
  apply List.Nodup.map_on _ (List.Nodup.sublist List.filter_sublist (m.nodup_keys.of_map _))
  intro x hx y hy hxy
  have hx' := (List.mem_filter.mp hx).1
  have hy' := (List.mem_filter.mp hy).1
  exact List.inj_on_of_nodup_map m.nodup_keys hx' hy' (key_eq_of_sym2_eq (hm x hx') (hm y hy') hxy)

theorem erase_eq_self {key : P × P} (h : m.get key = none) : m.erase key = m := by
  ext1
  exact List.filter_eq_self.mpr fun x hx => by
    simpa using EdgeMap.get_eq_none_iff.mp h x hx

namespace Inner

/-- The invariant of `Inner`: the graph is consistent and stands for the active edges, whose
keys are in order. -/
structure Inv (source : P) (s : Inner P S) : Prop where
  graph_inv : s.graph.Inv source
  refines : s.graph.Refines (activeEdges s.edges)
  keysOrdered : KeysOrdered s.edges

variable {Utc : Type} [LinearOrder Utc] {source : P} {s : Inner P S}

theorem inv_new (source : P) : Inv source (⟨Graph.new source, .empty⟩ : Inner P S) where
  graph_inv := Graph.Inv.inv_new source
  refines := by
    have hempty : activeEdges (.empty : EdgeMap P S) = ∅ := rfl
    rw [hempty]
    exact Graph.refines_new source
  keysOrdered := fun _ hx => absurd hx List.not_mem_nil

theorem updateEdge_of_taken (base : UtcBase Utc) (cutoff : Option Utc) {edge : Edge P S}
    (hhas : has s.edges edge = false) (hold : cutoff.any (edge.isEdgeOlderThan base) = false) :
    s.updateEdge base cutoff edge = (s.graph.updateEdge edge.key.1 edge.key.2 edge.edgeType).map
      fun graph => (⟨graph, s.edges.insert edge⟩, true) := by
  simp only [updateEdge, hhas, hold]
  cases s.graph.updateEdge edge.key.1 edge.key.2 edge.edgeType <;> rfl

/-- `update_edge` takes an edge in order exactly when it is newer than the stored one and not
too old, and then stores it and passes it to the graph. -/
theorem Inv.updateEdge_spec (h : s.Inv source) (base : UtcBase Utc) (cutoff : Option Utc)
    {edge : Edge P S} (hkey : edge.key.1 < edge.key.2) :
    ∃ s', s.updateEdge base cutoff edge =
        some (s', !has s.edges edge && !cutoff.any (edge.isEdgeOlderThan base)) ∧
      s'.Inv source ∧
      s'.edges = if has s.edges edge || cutoff.any (edge.isEdgeOlderThan base) then s.edges
        else s.edges.insert edge := by
  cases hhas : has s.edges edge
  · cases hold : cutoff.any (edge.isEdgeOlderThan base)
    · obtain ⟨g', hcall, hg', hE'⟩ :=
        h.graph_inv.updateEdge_refines h.refines (ne_of_lt hkey) edge.edgeType
      refine ⟨⟨g', s.edges.insert edge⟩, ?_, ⟨hg', ?_, h.keysOrdered.insert hkey⟩, rfl⟩
      · rw [updateEdge_of_taken base cutoff hhas hold, hcall]
        rfl
      · rw [activeEdges_insert h.keysOrdered hkey]
        exact hE'
    · exact ⟨s, by simp [updateEdge, hhas, hold], h, rfl⟩
  · exact ⟨s, by simp [updateEdge, hhas], h, rfl⟩

/-- `remove_edge` drops the key from the map and the graph. -/
theorem Inv.removeEdge_spec (h : s.Inv source) (key : P × P) :
    ∃ s', s.removeEdge key = some s' ∧ s'.Inv source ∧ s'.edges = s.edges.erase key := by
  cases hget : s.edges.get key with
  | none =>
      refine ⟨s, by simp [removeEdge, hget], h, (erase_eq_self hget).symm⟩
  | some e =>
      obtain ⟨he, rfl⟩ := EdgeMap.get_eq_some_iff.mp hget
      have hkey := h.keysOrdered e he
      obtain ⟨g', hcall, hg', hE'⟩ := h.graph_inv.removeEdge_refines h.refines (ne_of_lt hkey)
      refine ⟨⟨g', s.edges.erase e.key⟩, ?_, ⟨hg', ?_, h.keysOrdered.erase _⟩, rfl⟩
      · simp [removeEdge, hget, hcall]
      · rw [activeEdges_erase h.keysOrdered hkey]
        exact hE'

end Inner

/-! ### The loops over the map's values -/

/-- The map after the loop has erased the keys of the values `p` picks. -/
theorem foldl_erase_entries (p : Edge P S → Bool) (values : List (Edge P S)) (m : EdgeMap P S) :
    (values.foldl (fun m e => if p e then m.erase e.key else m) m).entries =
      m.entries.filter fun x => !values.any fun e => p e && decide (e.key = x.key) := by
  induction values generalizing m with
  | nil => simp
  | cons e values ih =>
      rw [List.foldl_cons, ih]
      by_cases hp : p e
      · simp only [hp, if_true, EdgeMap.erase, List.filter_filter]
        apply List.filter_congr
        intro x _
        simp [hp, Bool.and_comm, eq_comm (a := x.key)]
      · simp [hp]

/-- Over an enumeration of the map's values, the loop erases exactly the edges `p` picks. -/
theorem foldl_erase_entries_of_perm (p : Edge P S → Bool) {values : List (Edge P S)}
    (hperm : values.Perm m.entries) :
    (values.foldl (fun m e => if p e then m.erase e.key else m) m).entries =
      m.entries.filter fun x => !p x := by
  rw [foldl_erase_entries]
  apply List.filter_congr
  intro x hx
  congr 1
  rw [Bool.eq_iff_iff, List.any_eq_true]
  constructor
  · rintro ⟨e, he, hpe⟩
    obtain ⟨hpe, hkey⟩ := Bool.and_eq_true_iff.mp hpe
    rwa [List.inj_on_of_nodup_map m.nodup_keys (hperm.mem_iff.mp he) hx (of_decide_eq_true hkey)]
      at hpe
  · intro hpx
    exact ⟨x, hperm.mem_iff.mpr hx, by simp [hpx]⟩

theorem foldl_removeAdjacent (p : Edge P S → Bool) (values : List (Edge P S)) (m : EdgeMap P S)
    (removed : List (Edge P S)) :
    values.foldl (fun acc e => if p e then (acc.1.erase e.key, acc.2 ++ [e]) else acc)
        (m, removed) =
      (values.foldl (fun m e => if p e then m.erase e.key else m) m,
        removed ++ values.filter p) := by
  induction values generalizing m removed with
  | nil => simp
  | cons e values ih =>
      by_cases hp : p e
      · simp [hp, ih]
      · simp [hp, ih]

namespace Inner

variable {Utc : Type} [LinearOrder Utc] {source : P} {s : Inner P S}

theorem Inv.pruneOldEdges_spec (h : s.Inv source) (base : UtcBase Utc)
    (pruneEdgesOlderThan : Utc) (values : List (Edge P S)) :
    ∃ s', s.pruneOldEdges base pruneEdgesOlderThan values = some s' ∧ s'.Inv source ∧
      s'.edges = values.foldl (fun m e =>
        if e.isEdgeOlderThan base pruneEdgesOlderThan then m.erase e.key else m) s.edges := by
  have hstep : ∀ (s : Inner P S) (m : EdgeMap P S) (e : Edge P S), True → s.Inv source ∧ s.edges = m →
      ∃ s', (if e.isEdgeOlderThan base pruneEdgesOlderThan then s.removeEdge e.key
          else pure s) = some s' ∧
        s'.Inv source ∧ s'.edges =
          if e.isEdgeOlderThan base pruneEdgesOlderThan then m.erase e.key else m := by
    rintro s m e - ⟨hs, rfl⟩
    by_cases hold : e.isEdgeOlderThan base pruneEdgesOlderThan
    · obtain ⟨s', hcall, hs', hedges⟩ := hs.removeEdge_spec e.key
      exact ⟨s', by rw [if_pos hold, hcall], hs', by rw [if_pos hold, hedges]⟩
    · exact ⟨s, by rw [if_neg hold]; rfl, hs, by rw [if_neg hold]⟩
  exact List.foldlM_option_simulation hstep values (fun _ _ => trivial) ⟨h, rfl⟩

theorem Inv.removeAdjacentEdges_spec (h : s.Inv source) (peers : List P)
    (values : List (Edge P S)) :
    ∃ s', s.removeAdjacentEdges peers values =
        some (s', values.filter fun e => peers.contains e.key.1 || peers.contains e.key.2) ∧
      s'.Inv source ∧
      s'.edges = values.foldl (fun m e => if peers.contains e.key.1 || peers.contains e.key.2
        then m.erase e.key else m) s.edges := by
  have hstep : ∀ (acc : Inner P S × List (Edge P S)) (t : EdgeMap P S × List (Edge P S))
      (e : Edge P S), True → acc.1.Inv source ∧ acc.1.edges = t.1 ∧ acc.2 = t.2 →
      ∃ acc', (if peers.contains e.key.1 || peers.contains e.key.2 then do
          let s ← acc.1.removeEdge e.key
          pure (s, acc.2 ++ [e])
        else pure acc) = some acc' ∧
        acc'.1.Inv source ∧ acc'.1.edges = (if peers.contains e.key.1 || peers.contains e.key.2
          then (t.1.erase e.key, t.2 ++ [e]) else t).1 ∧
        acc'.2 = (if peers.contains e.key.1 || peers.contains e.key.2
          then (t.1.erase e.key, t.2 ++ [e]) else t).2 := by
    rintro ⟨s, removed⟩ ⟨m, removed'⟩ e - ⟨hs, rfl, rfl⟩
    dsimp only at hs ⊢
    by_cases hadj : peers.contains e.key.1 || peers.contains e.key.2
    · obtain ⟨s', hcall, hs', hedges⟩ := hs.removeEdge_spec e.key
      rw [if_pos hadj, if_pos hadj, hcall]
      refine ⟨(s', removed ++ [e]), rfl, hs', ?_, ?_⟩
      · exact hedges
      · rfl
    · rw [if_neg hadj, if_neg hadj]
      refine ⟨(s, removed), rfl, hs, ?_, ?_⟩
      · rfl
      · rfl
  obtain ⟨⟨s', removed⟩, hrun, hs', hedges, hremoved⟩ :=
    List.foldlM_option_simulation
      (R := fun acc t => acc.1.Inv source ∧ acc.1.edges = t.1 ∧ acc.2 = t.2) hstep values
      (fun _ _ => trivial) (s := (s, [])) (t := (s.edges, [])) ⟨h, rfl, rfl⟩
  rw [foldl_removeAdjacent, List.nil_append] at hedges hremoved
  dsimp only at hs' hedges hremoved
  exact ⟨s', by rw [removeAdjacentEdges, hrun, hremoved], hs', hedges⟩

/-! ### Every run -/

/-- `update_edge` on an edge whose peers are one peer: it is dropped when stored or too old,
and otherwise the graph panics on it. -/
theorem updateEdge_self (base : UtcBase Utc) (cutoff : Option Utc) {edge : Edge P S}
    (hself : edge.key.1 = edge.key.2) :
    s.updateEdge base cutoff edge =
      if has s.edges edge || cutoff.any (edge.isEdgeOlderThan base) then some (s, false)
      else none := by
  have hgraph : s.graph.updateEdge edge.key.1 edge.key.2 edge.edgeType = none := by
    rw [hself]
    cases edge.edgeType <;> simp [Graph.updateEdge, Graph.addEdge, Graph.removeEdge]
  cases hhas : has s.edges edge
  · cases hold : cutoff.any (edge.isEdgeOlderThan base)
    · rw [updateEdge_of_taken base cutoff hhas hold, hgraph]
      rfl
    · simp [updateEdge, hhas, hold]
  · simp [updateEdge, hhas]

/-- The states `Inner` reaches from `Graph::new`: `update_edge` gets edges that pass the key
check of `Edge::verify`, and the loops take the map's values in any order. -/
inductive Reachable (base : UtcBase Utc) (source : P) : Inner P S → Prop
  | new : Reachable base source ⟨Graph.new source, .empty⟩
  | updateEdge {s s' : Inner P S} {cutoff : Option Utc} {edge : Edge P S} {taken : Bool} :
      Reachable base source s → ¬ edge.key.2 < edge.key.1 →
      s.updateEdge base cutoff edge = some (s', taken) → Reachable base source s'
  | removeEdge {s s' : Inner P S} {key : P × P} :
      Reachable base source s → s.removeEdge key = some s' → Reachable base source s'
  | removeAdjacentEdges {s s' : Inner P S} {peers : List P} {values removed : List (Edge P S)} :
      Reachable base source s → values.Perm s.edges.entries →
      s.removeAdjacentEdges peers values = some (s', removed) → Reachable base source s'
  | pruneOldEdges {s s' : Inner P S} {pruneEdgesOlderThan : Utc} {values : List (Edge P S)} :
      Reachable base source s → values.Perm s.edges.entries →
      s.pruneOldEdges base pruneEdgesOlderThan values = some s' → Reachable base source s'

theorem Reachable.inv {base : UtcBase Utc} (h : Reachable base source s) : s.Inv source := by
  induction h with
  | new => exact inv_new source
  | @updateEdge s s' cutoff edge taken _ hkey hcall ih =>
      rcases lt_or_eq_of_le (not_lt.mp hkey) with hlt | hself
      · obtain ⟨s'', hcall', hs'', -⟩ := ih.updateEdge_spec base cutoff hlt
        rw [hcall', Option.some.injEq, Prod.mk.injEq] at hcall
        exact hcall.1 ▸ hs''
      · -- a self edge is never taken: the graph would panic on it
        rw [updateEdge_self base cutoff hself] at hcall
        split_ifs at hcall
        rw [Option.some.injEq, Prod.mk.injEq] at hcall
        exact hcall.1 ▸ ih
  | @removeEdge s s' key _ hcall ih =>
      obtain ⟨s'', hcall', hs'', -⟩ := ih.removeEdge_spec key
      rw [hcall', Option.some.injEq] at hcall
      exact hcall ▸ hs''
  | @removeAdjacentEdges s s' peers values removed _ _ hcall ih =>
      obtain ⟨s'', hcall', hs'', -⟩ := ih.removeAdjacentEdges_spec peers values
      rw [hcall', Option.some.injEq, Prod.mk.injEq] at hcall
      exact hcall.1 ▸ hs''
  | @pruneOldEdges s s' t values _ _ hcall ih =>
      obtain ⟨s'', hcall', hs'', -⟩ := ih.pruneOldEdges_spec base t values
      rw [hcall', Option.some.injEq] at hcall
      exact hcall ▸ hs''

/-- A state with the one edge `(0, 1)` of nonce `1`, reached by `update_edge` from `Graph::new`,
with the nonces read as seconds since the epoch. -/
theorem exists_reachable_single : ∃ s : Inner ℕ Unit,
    Reachable unixUtc 0 s ∧ s.edges.entries = [⟨(0, 1), 1, (), (), none⟩] := by
  have hkey : (⟨(0, 1), 1, (), (), none⟩ : Edge ℕ Unit).key.1 < (⟨(0, 1), 1, (), (), none⟩ : Edge ℕ Unit).key.2 := by decide
  obtain ⟨s, hcall, -, hedges⟩ := (inv_new 0).updateEdge_spec unixUtc none hkey
  refine ⟨s, Reachable.updateEdge Reachable.new (not_lt.mpr hkey.le) hcall, ?_⟩
  rw [hedges]
  rfl

/-- Over every run of `Inner`'s operations from `Graph::new`, whatever order the loops take the
map's values in, the graph stays consistent and stands for the active edges of the map:
`contains_edge` says whether an active edge joins two peers and `total_active_edges` counts the
active edges; every key stays in order, and no operation panics on an edge in order. -/
theorem Reachable.graph_agrees {base : UtcBase Utc} (h : Reachable base source s) :
    s.graph.Inv source ∧ KeysOrdered s.edges ∧
      (∀ p q, s.graph.containsEdge p q = some (decide (∃ e ∈ s.edges.entries,
        e.edgeType = .active ∧ s(e.key.1, e.key.2) = s(p, q)))) ∧
      s.graph.totalActiveEdges = (s.edges.entries.filter fun e => e.edgeType = .active).length ∧
      (∀ cutoff edge, edge.key.1 < edge.key.2 → (s.updateEdge base cutoff edge).isSome) ∧
      (∀ key, (s.removeEdge key).isSome) ∧
      (∀ peers values, (s.removeAdjacentEdges peers values).isSome) ∧
      ∀ pruneEdgesOlderThan values, (s.pruneOldEdges base pruneEdgesOlderThan values).isSome := by
  have hs := h.inv
  refine ⟨hs.graph_inv, hs.keysOrdered, fun p q => ?_, ?_, fun cutoff edge hkey => ?_,
    fun key => ?_, fun peers values => ?_, fun t values => ?_⟩
  · rw [hs.graph_inv.toCore.containsEdge_eq, Option.some.injEq, decide_eq_decide,
      hs.refines.adj_iff, mem_activeEdges]
  · rw [hs.refines.totalActiveEdges_eq, card_activeEdges hs.keysOrdered]
  · obtain ⟨s', hcall, -⟩ := hs.updateEdge_spec base cutoff hkey
    rw [hcall]
    rfl
  · obtain ⟨s', hcall, -⟩ := hs.removeEdge_spec key
    rw [hcall]
    rfl
  · obtain ⟨s', hcall, -⟩ := hs.removeAdjacentEdges_spec peers values
    rw [hcall]
    rfl
  · obtain ⟨s', hcall, -⟩ := hs.pruneOldEdges_spec base t values
    rw [hcall]
    rfl

theorem Reachable.graph_agrees_single : ∃ s : Inner ℕ Unit, s.edges.entries = [⟨(0, 1), 1, (), (), none⟩] ∧
    s.graph.Inv 0 ∧ KeysOrdered s.edges ∧
      (∀ p q, s.graph.containsEdge p q = some (decide (∃ e ∈ s.edges.entries,
        e.edgeType = .active ∧ s(e.key.1, e.key.2) = s(p, q)))) ∧
      s.graph.totalActiveEdges = (s.edges.entries.filter fun e => e.edgeType = .active).length ∧
      (∀ cutoff edge, edge.key.1 < edge.key.2 →
        (s.updateEdge unixUtc cutoff edge).isSome) ∧
      (∀ key, (s.removeEdge key).isSome) ∧
      (∀ peers values, (s.removeAdjacentEdges peers values).isSome) ∧
      ∀ pruneEdgesOlderThan values,
        (s.pruneOldEdges unixUtc pruneEdgesOlderThan values).isSome := by
  obtain ⟨s, h, hentries⟩ := exists_reachable_single
  exact ⟨s, hentries, Reachable.graph_agrees h⟩

/-- After a loop that keeps the edges `p` does not pick, the graph stands for the active edges
among them. -/
theorem Inv.containsEdge_of_entries {s' : Inner P S} (hs' : s'.Inv source) {p : Edge P S → Bool}
    (hentries : s'.edges.entries = s.edges.entries.filter fun e => !p e) (a b : P) :
    s'.graph.containsEdge a b = some (decide (∃ e ∈ s.edges.entries,
      e.edgeType = .active ∧ p e = false ∧ s(e.key.1, e.key.2) = s(a, b))) := by
  rw [hs'.graph_inv.toCore.containsEdge_eq, Option.some.injEq, decide_eq_decide,
    hs'.refines.adj_iff, mem_activeEdges, hentries]
  simp only [List.mem_filter, Bool.not_eq_true', and_assoc]
  constructor
  · rintro ⟨e, he, hp, ha, hab⟩
    exact ⟨e, he, ha, hp, hab⟩
  · rintro ⟨e, he, ha, hp, hab⟩
    exact ⟨e, he, hp, ha, hab⟩

/-- From every reachable state, `remove_adjacent_edges`, whatever order it takes the map's
values in, returns exactly the edges at one of the peers, in that order, keeps the others, and
the graph then stands for the active ones among those it keeps. -/
theorem Reachable.removeAdjacentEdges_filter {base : UtcBase Utc} (h : Reachable base source s)
    (peers : List P) {values : List (Edge P S)} (hperm : values.Perm s.edges.entries) :
    ∃ s' removed, s.removeAdjacentEdges peers values = some (s', removed) ∧
      removed.Perm (s.edges.entries.filter fun e => peers.contains e.key.1 ||
        peers.contains e.key.2) ∧
      s'.edges.entries = s.edges.entries.filter (fun e => !(peers.contains e.key.1 ||
        peers.contains e.key.2)) ∧
      ∀ a b, s'.graph.containsEdge a b = some (decide (∃ e ∈ s.edges.entries,
        e.edgeType = .active ∧ (peers.contains e.key.1 || peers.contains e.key.2) = false ∧
          s(e.key.1, e.key.2) = s(a, b))) := by
  obtain ⟨s', hcall, hs', hedges⟩ := h.inv.removeAdjacentEdges_spec peers values
  have hentries : s'.edges.entries = s.edges.entries.filter
      (fun e => !(peers.contains e.key.1 || peers.contains e.key.2)) := by
    rw [hedges, foldl_erase_entries_of_perm _ hperm]
  exact ⟨s', _, hcall, hperm.filter _, hentries, hs'.containsEdge_of_entries hentries⟩

theorem Reachable.removeAdjacentEdges_filter_single : ∃ s : Inner ℕ Unit,
    Reachable unixUtc 0 s ∧ s.edges.entries = [⟨(0, 1), 1, (), (), none⟩] ∧
    ∃ s' removed, s.removeAdjacentEdges [1] s.edges.entries = some (s', removed) ∧
      removed.Perm (s.edges.entries.filter fun e => [1].contains e.key.1 ||
        [1].contains e.key.2) ∧
      s'.edges.entries = s.edges.entries.filter (fun e => !([1].contains e.key.1 ||
        [1].contains e.key.2)) ∧
      ∀ a b, s'.graph.containsEdge a b = some (decide (∃ e ∈ s.edges.entries,
        e.edgeType = .active ∧ ([1].contains e.key.1 || [1].contains e.key.2) = false ∧
          s(e.key.1, e.key.2) = s(a, b))) := by
  obtain ⟨s, h, hentries⟩ := exists_reachable_single
  exact ⟨s, h, hentries, Reachable.removeAdjacentEdges_filter h [1] (List.Perm.refl _)⟩

/-- From every reachable state, `update_edge` on an edge in order takes it exactly when no edge
with its key and at least its nonce is stored and it is not older than the horizon; it stores
it under its key and changes no other key, so the nonce stored under a key never goes down. -/
theorem Reachable.updateEdge_newer {base : UtcBase Utc} (h : Reachable base source s)
    (cutoff : Option Utc) {edge : Edge P S} (hkey : edge.key.1 < edge.key.2) :
    ∃ s' taken, s.updateEdge base cutoff edge = some (s', taken) ∧
      (taken = true ↔ (∀ x, s.edges.get edge.key = some x → x.nonce < edge.nonce) ∧
        cutoff.any (edge.isEdgeOlderThan base) = false) ∧
      (∀ key, s'.edges.get key =
        if taken = true ∧ key = edge.key then some edge else s.edges.get key) ∧
      ∀ key x, s.edges.get key = some x → ∃ x', s'.edges.get key = some x' ∧ x.nonce ≤ x'.nonce := by
  obtain ⟨s', hcall, -, hedges⟩ := h.inv.updateEdge_spec base cutoff hkey
  have hnewer : has s.edges edge = false ↔
      ∀ x, s.edges.get edge.key = some x → x.nonce < edge.nonce := has_eq_false_iff
  have hget : ∀ key, s'.edges.get key = if (!has s.edges edge &&
      !cutoff.any (edge.isEdgeOlderThan base)) = true ∧ key = edge.key then some edge
      else s.edges.get key := by
    intro key
    rw [hedges]
    cases hhas : has s.edges edge <;> cases hold : cutoff.any (edge.isEdgeOlderThan base) <;>
      simp [EdgeMap.get_insert]
  refine ⟨s', _, hcall, by simp [hnewer], hget, fun key x hx => ?_⟩
  rw [hget key]
  split_ifs with htaken
  · obtain ⟨htaken, rfl⟩ := htaken
    have hfresh : has s.edges edge = false ∧ cutoff.any (edge.isEdgeOlderThan base) = false := by
      simpa using htaken
    exact ⟨edge, rfl, le_of_lt (hnewer.mp hfresh.1 x hx)⟩
  · exact ⟨x, hx, le_refl _⟩

end Inner

/-! ## `add_edges` -/

/-- What `Edge::verify` reads of `near_crypto`: `CryptoHash::hash_borsh` of a key and a nonce,
and `Signature::verify` of a hash under a peer's public key. -/
structure EdgeCrypto (P S H : Type) where
  hashBorsh : P × P × ℕ → H
  verify : S → H → P → Bool

namespace Edge

/-- The order `Edge::deduplicate` sorts by: key, then nonce, both descending. -/
def dedupLe (a b : Edge P S) : Bool :=
  decide (toLex (toLex b.key, b.nonce) ≤ toLex (toLex a.key, a.nonce))

/-- `Edge::deduplicate`: the stable sort by key and then nonce, both descending, and the first
edge of each run of one key (`dedup_by_key`). -/
def deduplicate (edges : List (Edge P S)) : List (Edge P S) :=
  (edges.mergeSort dedupLe).destutter fun a b => a.key ≠ b.key

section Verify

variable {H : Type} (crypto : EdgeCrypto P S H)

/-- `Edge::build_hash`: the hash of the two peers in order and the nonce. -/
def buildHash (peer0 peer1 : P) (nonce : ℕ) : H :=
  if peer0 < peer1 then crypto.hashBorsh (peer0, peer1, nonce)
  else crypto.hashBorsh (peer1, peer0, nonce)

/-- `Edge::hash`. -/
def hash (e : Edge P S) : H := buildHash crypto e.key.1 e.key.2 e.nonce

/-- `Edge::prev_hash`. -/
def prevHash (e : Edge P S) : H := buildHash crypto e.key.1 e.key.2 (e.nonce - 1)

/-- The checks of `Edge::verify` past its key check: an active edge carries no removal info
and both peers signed its hash; a removed one has a nonce above zero, both peers signed the
hash of the nonce before, and the removing party signed its hash. -/
def verifySignatures (e : Edge P S) : Bool :=
  match e.edgeType with
  | .active =>
      e.removalInfo.isNone && crypto.verify e.signature0 (e.hash crypto) e.key.1 &&
        crypto.verify e.signature1 (e.hash crypto) e.key.2
  | .removed =>
      if e.nonce = 0 then false
      else if !crypto.verify e.signature0 (e.prevHash crypto) e.key.1 ||
          !crypto.verify e.signature1 (e.prevHash crypto) e.key.2 then false
      else match e.removalInfo with
        | some (party, signature) =>
            crypto.verify signature (e.hash crypto) (if party then e.key.1 else e.key.2)
        | none => false

/-- `Edge::verify`. -/
def verify (e : Edge P S) : Bool :=
  if e.key.2 < e.key.1 then false else verifySignatures crypto e

theorem not_lt_of_verify {e : Edge P S} (h : verify crypto e = true) : ¬ e.key.2 < e.key.1 :=
  fun hlt => by simp [verify, hlt] at h

end Verify

theorem dedupLe_iff {a b : Edge P S} :
    dedupLe a b = true ↔ toLex (toLex b.key, b.nonce) ≤ toLex (toLex a.key, a.nonce) :=
  decide_eq_true_iff

theorem dedupLe_key_le {a b : Edge P S} (h : dedupLe a b = true) : toLex b.key ≤ toLex a.key := by
  rcases Prod.Lex.le_iff.mp (dedupLe_iff.mp h) with hlt | ⟨heq, -⟩
  · exact le_of_lt hlt
  · exact le_of_eq heq

theorem nonce_le_of_dedupLe {a b : Edge P S} (h : dedupLe a b = true) (hkey : a.key = b.key) :
    b.nonce ≤ a.nonce := by
  rcases Prod.Lex.le_iff.mp (dedupLe_iff.mp h) with hlt | ⟨-, hle⟩
  · exact absurd (congrArg toLex hkey) (ne_of_gt hlt)
  · exact hle

theorem pairwise_mergeSort_dedupLe (edges : List (Edge P S)) :
    (edges.mergeSort dedupLe).Pairwise fun a b => dedupLe a b = true := by
  apply List.pairwise_mergeSort
  · intro a b c hab hbc
    exact dedupLe_iff.mpr (le_trans (dedupLe_iff.mp hbc) (dedupLe_iff.mp hab))
  · intro a b
    rcases le_total (toLex (toLex b.key, b.nonce)) (toLex (toLex a.key, a.nonce)) with h | h
    · rw [dedupLe_iff.mpr h, Bool.true_or]
    · rw [dedupLe_iff.mpr h, Bool.or_true]

/-- `Edge::deduplicate` keeps one edge of each key of its input, one of the highest nonce. -/
theorem deduplicate_spec (edges : List (Edge P S)) :
    ((deduplicate edges).map key).Nodup ∧ (∀ e ∈ deduplicate edges, e ∈ edges) ∧
      ∀ e ∈ edges, ∃ e' ∈ deduplicate edges, e'.key = e.key ∧ e.nonce ≤ e'.nonce := by
  have hsorted := pairwise_mergeSort_dedupLe edges
  have hsub : (deduplicate edges).Sublist (edges.mergeSort dedupLe) := List.destutter_sublist _ _
  refine ⟨?_, fun e he => List.mem_mergeSort.mp (hsub.subset he), fun e he => ?_⟩
  · -- the keys fall along the sorted list, and neighbours differ
    have hlt := List.Pairwise.lt_of_isChain_ne (f := fun e : Edge P S => toLex e.key)
      ((hsorted.sublist hsub).imp dedupLe_key_le)
      ((List.isChain_destutter _ _).imp fun _ _ h hk => h (toLex.injective hk))
    exact List.pairwise_map.mpr (hlt.imp fun h hk => ne_of_gt h (congrArg toLex hk))
  · -- the first edge of the run of `e`'s key stands for it
    have he' : e ∈ edges.mergeSort dedupLe := List.mem_mergeSort.mpr he
    cases hs : edges.mergeSort dedupLe with
    | nil => rw [hs] at he'; exact absurd he' List.not_mem_nil
    | cons a l =>
        rw [hs] at hsorted he'
        obtain ⟨y, hy, hye⟩ := List.exists_mem_destutter' (R := fun a b : Edge P S => a.key ≠ b.key)
          hsorted e he'
        have hy' : y ∈ deduplicate edges := by rw [deduplicate, hs, List.destutter_cons']; exact hy
        rcases hye with rfl | ⟨hkey, hle⟩
        · exact ⟨y, hy', rfl, le_refl _⟩
        · exact ⟨y, hy', not_not.mp hkey, nonce_le_of_dedupLe hle (not_not.mp hkey)⟩

theorem deduplicate_singleton (e : Edge P S) : deduplicate [e] = [e] := by
  simp [deduplicate]

end Edge

/-- What `concurrency::rayon::try_map` may return on `edges` with the check `verify`: some of the
edges that pass it, in any order, and whether all pass; all of them when all pass. -/
structure TryMapOutcome (verify : Edge P S → Bool) (edges : List (Edge P S))
    (outcome : List (Edge P S) × Bool) : Prop where
  subperm : outcome.1.Subperm (edges.filter verify)
  ok_iff : outcome.2 = true ↔ ∀ e ∈ edges, verify e = true
  perm_of_ok : outcome.2 = true → outcome.1.Perm edges

omit [LinearOrder P] in
/-- When every edge verifies, `try_map` returns them all and reports success. -/
theorem TryMapOutcome.ok_of_forall {verify : Edge P S → Bool} {edges : List (Edge P S)}
    {outcome : List (Edge P S) × Bool} (h : TryMapOutcome verify edges outcome)
    (hall : ∀ e ∈ edges, verify e = true) : outcome.2 = true ∧ outcome.1.Perm edges :=
  ⟨h.ok_iff.mpr hall, h.perm_of_ok (h.ok_iff.mpr hall)⟩

namespace Inner

variable {Utc : Type} [LinearOrder Utc] {source : P} {s : Inner P S}

/-- The edges `add_edges` verifies: one of each key, of the highest nonce, not already known. -/
def addEdgesCandidates (s : Inner P S) (edges : List (Edge P S)) : List (Edge P S) :=
  (Edge.deduplicate edges).filter fun e => !has s.edges e

/-- One edge of `edges.retain(|e| self.update_edge(now, e.clone()))`. -/
def retainStep (base : UtcBase Utc) (cutoff : Option Utc) (acc : Inner P S × List (Edge P S))
    (e : Edge P S) : Option (Inner P S × List (Edge P S)) := do
  let (s, taken) ← acc.1.updateEdge base cutoff e
  pure (s, if taken then acc.2 ++ [e] else acc.2)

/-- `edges.retain(|e| self.update_edge(now, e.clone()))`: the edges `update_edge` takes, in
order. -/
def retainUpdated (base : UtcBase Utc) (cutoff : Option Utc) (s : Inner P S)
    (edges : List (Edge P S)) : Option (Inner P S × List (Edge P S)) :=
  edges.foldlM (retainStep base cutoff) (s, [])

theorem addEdgesCandidates_singleton {e : Edge P S} (h : has s.edges e = false) :
    s.addEdgesCandidates [e] = [e] := by
  simp [addEdgesCandidates, Edge.deduplicate_singleton, h]

theorem nodup_keys_addEdgesCandidates (s : Inner P S) (edges : List (Edge P S)) :
    ((s.addEdgesCandidates edges).map Edge.key).Nodup :=
  (Edge.deduplicate_spec edges).1.sublist (List.filter_sublist.map _)

theorem mem_addEdgesCandidates {edges : List (Edge P S)} {e : Edge P S} :
    e ∈ s.addEdgesCandidates edges → e ∈ edges ∧ has s.edges e = false := by
  intro he
  obtain ⟨he, hfresh⟩ := List.mem_filter.mp he
  exact ⟨(Edge.deduplicate_spec edges).2.1 e he, by simpa using hfresh⟩

/-- The loop of `add_edges` over fresh edges in order with distinct keys takes those not older
than the horizon, each stored under its key, and leaves every other key as it was. -/
theorem Reachable.foldlM_retainStep {base : UtcBase Utc} (cutoff : Option Utc) :
    ∀ (edges : List (Edge P S)) {s : Inner P S} (acc : List (Edge P S)), Reachable base source s →
      (edges.map Edge.key).Nodup → (∀ e ∈ edges, e.key.1 < e.key.2 ∧ has s.edges e = false) →
      ∃ s', edges.foldlM (retainStep base cutoff) (s, acc) =
          some (s', acc ++ edges.filter fun e => !cutoff.any (e.isEdgeOlderThan base)) ∧
        Reachable base source s' ∧
        (∀ e ∈ edges.filter (fun e => !cutoff.any (e.isEdgeOlderThan base)),
          s'.edges.get e.key = some e) ∧
        ∀ key, key ∉ (edges.filter fun e => !cutoff.any (e.isEdgeOlderThan base)).map Edge.key →
          s'.edges.get key = s.edges.get key
  | [], s, acc, h, _, _ => ⟨s, by simp, h, by simp, fun _ _ => rfl⟩
  | e :: edges, s, acc, h, hnodup, hfresh => by
      obtain ⟨hkey, hnew⟩ := hfresh e List.mem_cons_self
      obtain ⟨hnotin, hnodup⟩ := List.nodup_cons.mp hnodup
      obtain ⟨s1, taken, hcall, htaken, hget1, -⟩ := h.updateEdge_newer cutoff hkey
      have htaken' : taken = !cutoff.any (e.isEdgeOlderThan base) := by
        rw [Bool.eq_iff_iff, htaken, Bool.not_eq_true', and_iff_right_iff_imp]
        exact fun _ => has_eq_false_iff.mp hnew
      -- the other keys stay as they were, so the rest stay fresh
      have hother1 : ∀ key, key ≠ e.key → s1.edges.get key = s.edges.get key := by
        intro key hne
        rw [hget1 key, if_neg fun hk => hne hk.2]
      have hfresh1 : ∀ e' ∈ edges, e'.key.1 < e'.key.2 ∧ has s1.edges e' = false := by
        intro e' he'
        have hne : e'.key ≠ e.key := fun hk => hnotin (hk ▸ List.mem_map_of_mem he')
        refine ⟨(hfresh e' (List.mem_cons_of_mem e he')).1, ?_⟩
        rw [has, hother1 e'.key hne]
        exact (hfresh e' (List.mem_cons_of_mem e he')).2
      obtain ⟨s', hfold, h', hstored, hother⟩ := Reachable.foldlM_retainStep cutoff edges
        (if taken then acc ++ [e] else acc) (h.updateEdge (not_lt.mpr hkey.le) hcall) hnodup hfresh1
      have hrun : (e :: edges).foldlM (retainStep base cutoff) (s, acc) =
          edges.foldlM (retainStep base cutoff) (s1, if taken then acc ++ [e] else acc) := by
        simp [retainStep, hcall]
      rw [hrun, hfold]
      -- `update_edge` keeps `e` exactly when it is not older than the horizon
      cases hyoung : cutoff.any (e.isEdgeOlderThan base) with
      | true =>
        have hdrop : taken = false := by rw [htaken', hyoung]; rfl
        simp only [List.filter_cons, hyoung, hdrop, Bool.not_true, Bool.false_eq_true, if_false]
        refine ⟨s', by simp, h', hstored, fun key hk => ?_⟩
        rw [hother key hk, hget1, if_neg (by simp [hdrop])]
      | false =>
        have hkeep : taken = true := by rw [htaken', hyoung]; rfl
        simp only [List.filter_cons, hyoung, hkeep, Bool.not_false, if_true]
        refine ⟨s', by simp, h', fun e' he' => ?_, fun key hk => ?_⟩
        · rcases List.mem_cons.mp he' with rfl | he'
          · -- no later edge has the key of `e`
            have hlater : e'.key ∉ (edges.filter fun e => !cutoff.any (e.isEdgeOlderThan base)).map
                Edge.key := fun hk => hnotin ((List.filter_sublist.map Edge.key).subset hk)
            rw [hother e'.key hlater, hget1, if_pos ⟨hkeep, rfl⟩]
          · exact hstored e' he'
        · obtain ⟨hne, hk⟩ : key ≠ e.key ∧ key ∉ (edges.filter fun e =>
              !cutoff.any (e.isEdgeOlderThan base)).map Edge.key := by
            simpa only [List.map_cons, List.mem_cons, not_or] using hk
          rw [hother key hk, hother1 key hne]

end Inner

end Invariant

end Nearcore.Routing
