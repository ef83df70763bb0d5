import Mathlib.Data.List.TakeWhile
import Nearcore.RoutingUpdate

/-!
# Pruned components: `store::Store` and `Inner::load_component`

When `Inner::update` prunes the peers not reached for long, `prune_unreachable_peers` stores
the edges it drops as one component (`push_component`): the nonce after `LastComponentNonce`
names the list of edges, and every pruned peer maps to it.  `add_edges` first brings back, for
both ends of every edge it gets, the component the end maps to (`load_component`,
`pop_component`): the component is deleted, with the rows of its peers that map to it, and its
edges go through `update_edge` again.

`ComponentStore` is the three columns the components use, each typed as the schema decodes it,
and `Stored` is the whole of `Inner`.  The database outlives the process: `Graph::new` takes the
store as the last run left it (`Reachable.restart`).  An I/O error of the database, which the
source only logs, is not modelled.  The graph's own state is that of `Inner`, so what
`RoutingInner` and `RoutingUpdate` prove of `Inner` and `Tracked` carries over through
`Stored.Inv` and `Stored.update_refines`.
-/

namespace Nearcore.Routing

variable {P S : Type}

/-- The columns of `store::Store` that hold the pruned components: `LastComponentNonce`,
`ComponentEdges` and `PeerComponent`. -/
structure ComponentStore (P S : Type) where
  lastComponentNonce : Option ℕ
  componentEdges : ℕ → Option (List (Edge P S))
  peerComponent : P → Option ℕ

namespace ComponentStore

/-- The store with none of the three columns written. -/
def empty : ComponentStore P S := ⟨none, fun _ => none, fun _ => none⟩

section Defs

variable [DecidableEq P]

/-- `Store::push_component`: the nonce after `LastComponentNonce`, `unwrap_or(0) + 1` in `u64`,
names a new component holding `edges`, and each of `peers` maps to it. -/
def pushComponent (st : ComponentStore P S) (peers : List P) (edges : List (Edge P S)) :
    Option (ComponentStore P S) :=
  let component := st.lastComponentNonce.getD 0 + 1
  if component < 2 ^ 64 then
    some ⟨some component, fun c => if c = component then some edges else st.componentEdges c,
      fun p => if peers.contains p then some component else st.peerComponent p⟩
  else none

/-- One peer of the loop of `pop_component`, over the peers checked so far and the rows to
delete: a peer met again is skipped (`peers_checked`), a new one's row is deleted when it maps
to `component`. -/
def popPeerStep (st : ComponentStore P S) (component : ℕ) (acc : List P × List P) (p : P) :
    List P × List P :=
  if acc.1.contains p then acc
  else (p :: acc.1, if st.peerComponent p = some component then acc.2 ++ [p] else acc.2)

/-- The `PeerComponent` rows the loop of `pop_component` deletes. -/
def popDeletes (st : ComponentStore P S) (component : ℕ) (edges : List (Edge P S)) : List P :=
  ((edges.flatMap fun e => [e.key.1, e.key.2]).foldl (st.popPeerStep component) ([], [])).2

/-- `Store::pop_component`: the edges of the component `peerId` maps to, none if it maps to
none; the component is deleted, with the rows of its edges' ends that map to it. -/
def popComponent (st : ComponentStore P S) (peerId : P) :
    List (Edge P S) × ComponentStore P S :=
  match st.peerComponent peerId with
  | none => ([], st)
  | some component =>
      let edges := (st.componentEdges component).getD []
      let deletes := st.popDeletes component edges
      (edges, ⟨st.lastComponentNonce,
        fun c => if c = component then none else st.componentEdges c,
        fun p => if deletes.contains p then none else st.peerComponent p⟩)

end Defs

/-! ### What `push_component` and `pop_component` do -/

section Spec

variable [DecidableEq P] {st : ComponentStore P S} {component : ℕ}

theorem popPeerStep_of_mem {acc : List P × List P} {p : P} (h : p ∈ acc.1) :
    st.popPeerStep component acc p = acc := by
  simp [popPeerStep, h]

theorem popPeerStep_of_not_mem {acc : List P × List P} {p : P} (h : p ∉ acc.1) :
    st.popPeerStep component acc p = (p :: acc.1,
      if st.peerComponent p = some component then acc.2 ++ [p] else acc.2) := by
  simp [popPeerStep, h]

theorem fst_popPeerStep (acc : List P × List P) (q p : P) :
    p ∈ (st.popPeerStep component acc q).1 ↔ p ∈ acc.1 ∨ p = q := by
  by_cases hq : q ∈ acc.1
  · rw [popPeerStep_of_mem hq]
    constructor
    · exact .inl
    · rintro (h | rfl)
      · exact h
      · exact hq
  · rw [popPeerStep_of_not_mem hq, List.mem_cons]
    tauto

/-- The loop of `pop_component` checks every peer it meets. -/
theorem fst_foldl_popPeerStep (peers : List P) (acc : List P × List P) (p : P) :
    p ∈ (peers.foldl (st.popPeerStep component) acc).1 ↔ p ∈ acc.1 ∨ p ∈ peers := by
  induction peers generalizing acc with
  | nil => simp
  | cons q peers ih =>
      rw [List.foldl_cons, ih, fst_popPeerStep, List.mem_cons]
      tauto

/-- The invariant of the loop of `pop_component`: the rows to delete are those of the checked
peers that map to the component, each once. -/
structure PopInv (st : ComponentStore P S) (component : ℕ) (acc : List P × List P) : Prop where
  mem_iff : ∀ p, p ∈ acc.2 ↔ p ∈ acc.1 ∧ st.peerComponent p = some component
  nodup : acc.2.Nodup

theorem PopInv.popPeerStep {acc : List P × List P} (h : st.PopInv component acc) (q : P) :
    st.PopInv component (st.popPeerStep component acc q) := by
  by_cases hq : q ∈ acc.1
  · rwa [popPeerStep_of_mem hq]
  rw [popPeerStep_of_not_mem hq]
  by_cases hc : st.peerComponent q = some component
  · rw [if_pos hc]
    refine ⟨fun p => ?_, h.nodup.append (List.nodup_singleton q)
      (List.disjoint_singleton.mpr fun hm => hq ((h.mem_iff q).mp hm).1)⟩
    simp only [List.mem_append, List.mem_cons, List.not_mem_nil, or_false, h.mem_iff p]
    constructor
    · rintro (⟨hp, hpc⟩ | rfl)
      · exact ⟨.inr hp, hpc⟩
      · exact ⟨.inl rfl, hc⟩
    · rintro ⟨rfl | hp, hpc⟩
      · exact .inr rfl
      · exact .inl ⟨hp, hpc⟩
  · rw [if_neg hc]
    refine ⟨fun p => ?_, h.nodup⟩
    rw [h.mem_iff p, List.mem_cons]
    constructor
    · rintro ⟨hp, hpc⟩
      exact ⟨.inr hp, hpc⟩
    · rintro ⟨rfl | hp, hpc⟩
      · exact absurd hpc hc
      · exact ⟨hp, hpc⟩

theorem PopInv.foldl {acc : List P × List P} (h : st.PopInv component acc) (peers : List P) :
    st.PopInv component (peers.foldl (st.popPeerStep component) acc) := by
  induction peers generalizing acc with
  | nil => exact h
  | cons q peers ih => exact ih (h.popPeerStep q)

theorem popInv_popDeletes (edges : List (Edge P S)) :
    st.PopInv component ((edges.flatMap fun e => [e.key.1, e.key.2]).foldl
      (st.popPeerStep component) ([], [])) :=
  PopInv.foldl ⟨fun p => by simp, List.nodup_nil⟩ _

/-- The rows `pop_component` deletes: those of the ends of its edges that map to the
component, each once, as `peers_checked` sees to. -/
theorem mem_popDeletes {edges : List (Edge P S)} {p : P} :
    p ∈ st.popDeletes component edges ↔
      (∃ e ∈ edges, p = e.key.1 ∨ p = e.key.2) ∧ st.peerComponent p = some component := by
  rw [popDeletes, (popInv_popDeletes edges).mem_iff, fst_foldl_popPeerStep]
  simp [eq_comm]

theorem nodup_popDeletes (edges : List (Edge P S)) : (st.popDeletes component edges).Nodup :=
  (popInv_popDeletes edges).nodup

/-- What `pop_component` does: for a peer that maps to a component, it returns the component's
edges (none if the component is gone), deletes the component, and deletes exactly the rows of
the ends of its edges that map to it, each once; every other row is as it was.  A peer that maps
to no component gets no edge and leaves the store as it was. -/
theorem popComponent_spec (st : ComponentStore P S) (peerId : P) :
    (st.peerComponent peerId = none → st.popComponent peerId = ([], st)) ∧
    ∀ component, st.peerComponent peerId = some component →
      (st.popComponent peerId).1 = (st.componentEdges component).getD [] ∧
      (st.popComponent peerId).2.lastComponentNonce = st.lastComponentNonce ∧
      (∀ c, (st.popComponent peerId).2.componentEdges c =
        if c = component then none else st.componentEdges c) ∧
      (∀ p, (st.popComponent peerId).2.peerComponent p =
        if (∃ e ∈ (st.componentEdges component).getD [], p = e.key.1 ∨ p = e.key.2) ∧
          st.peerComponent p = some component then none else st.peerComponent p) ∧
      (st.popDeletes component ((st.componentEdges component).getD [])).Nodup := by
  refine ⟨fun h => by simp [popComponent, h], fun component h => ?_⟩
  refine ⟨by simp [popComponent, h], by simp [popComponent, h], fun c => by simp [popComponent, h],
    fun p => ?_, nodup_popDeletes _⟩
  simp only [popComponent, h, List.contains_iff_mem, mem_popDeletes]

theorem popComponent_componentEdges (st : ComponentStore P S) (peerId : P) {c : ℕ}
    {edges : List (Edge P S)} (h : (st.popComponent peerId).2.componentEdges c = some edges) :
    st.componentEdges c = some edges := by
  cases hc : st.peerComponent peerId with
  | none => rwa [(popComponent_spec st peerId).1 hc] at h
  | some component =>
      rw [((popComponent_spec st peerId).2 component hc).2.2.1 c] at h
      split_ifs at h
      exact h

theorem mem_popComponent (st : ComponentStore P S) (peerId : P) {e : Edge P S}
    (he : e ∈ (st.popComponent peerId).1) :
    ∃ c edges, st.componentEdges c = some edges ∧ e ∈ edges := by
  cases hc : st.peerComponent peerId with
  | none =>
      rw [(popComponent_spec st peerId).1 hc] at he
      exact absurd he List.not_mem_nil
  | some component =>
      rw [((popComponent_spec st peerId).2 component hc).1] at he
      cases hedges : st.componentEdges component with
      | none =>
          rw [hedges] at he
          exact absurd he List.not_mem_nil
      | some edges =>
          rw [hedges] at he
          exact ⟨component, edges, hedges, he⟩

/-- What `push_component` does: below the `u64` limit it takes the next nonce, stores the edges
under it and maps every peer to it, leaving every other row as it was. -/
theorem pushComponent_spec (st : ComponentStore P S) (peers : List P)
    (edges : List (Edge P S)) (hnonce : st.lastComponentNonce.getD 0 + 1 < 2 ^ 64) :
    ∃ st', st.pushComponent peers edges = some st' ∧
      st'.lastComponentNonce = some (st.lastComponentNonce.getD 0 + 1) ∧
      (∀ c, st'.componentEdges c = if c = st.lastComponentNonce.getD 0 + 1 then some edges
        else st.componentEdges c) ∧
      ∀ p, st'.peerComponent p = if p ∈ peers then some (st.lastComponentNonce.getD 0 + 1)
        else st.peerComponent p :=
  ⟨⟨some (st.lastComponentNonce.getD 0 + 1),
      fun c => if c = st.lastComponentNonce.getD 0 + 1 then some edges else st.componentEdges c,
      fun p => if peers.contains p then some (st.lastComponentNonce.getD 0 + 1)
        else st.peerComponent p⟩,
    by simp only [pushComponent, if_pos hnonce], rfl, fun _ => rfl,
    fun p => by simp only [List.contains_iff_mem]⟩

end Spec

/-- Every edge the store holds has its key in order. -/
def KeysOrdered [LT P] (st : ComponentStore P S) : Prop :=
  ∀ c edges, st.componentEdges c = some edges → ∀ e ∈ edges, e.key.1 < e.key.2

section Ordered

variable [LinearOrder P] {st : ComponentStore P S}

theorem keysOrdered_empty : (empty : ComponentStore P S).KeysOrdered :=
  fun _ _ h => by cases h

theorem KeysOrdered.popComponent (hst : st.KeysOrdered) (peerId : P) :
    (∀ e ∈ (st.popComponent peerId).1, e.key.1 < e.key.2) ∧
      (st.popComponent peerId).2.KeysOrdered := by
  refine ⟨fun e he => ?_, fun c edges h => hst c edges (popComponent_componentEdges st peerId h)⟩
  obtain ⟨c, edges, hc, he⟩ := mem_popComponent st peerId he
  exact hst c edges hc e he

theorem KeysOrdered.pushComponent (hst : st.KeysOrdered) {peers : List P}
    {edges : List (Edge P S)} (hedges : ∀ e ∈ edges, e.key.1 < e.key.2)
    {st' : ComponentStore P S} (h : st.pushComponent peers edges = some st') :
    st'.KeysOrdered := by
  simp only [ComponentStore.pushComponent] at h
  split_ifs at h
  cases h
  intro c edges' hc
  dsimp only at hc
  split_ifs at hc
  · cases hc
    exact hedges
  · exact hst c edges' hc

end Ordered

end ComponentStore

/-- `Inner` whole: the graph, the edges and `peer_reachable_at`, with the store's components. -/
structure Stored (P S Instant : Type) extends Tracked P S Instant where
  store : ComponentStore P S

section Defs

variable [DecidableEq P] {Utc Instant : Type} [LinearOrder Utc]

/-- The loop of `load_component`: `update_edge` on each popped edge. -/
def Inner.updateEdges (base : UtcBase Utc) (cutoff : Option Utc) (s : Inner P S)
    (edges : List (Edge P S)) : Option (Inner P S) :=
  edges.foldlM (fun s e => (s.updateEdge base cutoff e).map Prod.fst) s

namespace Stored

/-- `Inner` as `Graph::new` builds it on a store. -/
def new (nodeId : P) (store : ComponentStore P S) : Stored P S Instant :=
  ⟨⟨⟨Graph.new nodeId, .empty⟩, fun _ => none⟩, store⟩

/-- `Inner::load_component`. -/
def loadComponent (base : UtcBase Utc) (cutoff : Option Utc) (nodeId : P)
    (s : Stored P S Instant) (peerId : P) : Option (Stored P S Instant) :=
  if peerId = nodeId ∨ (s.peerReachableAt peerId).isSome then some s
  else
    let popped := s.store.popComponent peerId
    (s.toInner.updateEdges base cutoff popped.1).map fun inner =>
      ⟨⟨inner, s.peerReachableAt⟩, popped.2⟩

/-- The first loop of `add_edges`: `load_component` for both ends of every edge. -/
def loadComponents (base : UtcBase Utc) (cutoff : Option Utc) (nodeId : P)
    (s : Stored P S Instant) (edges : List (Edge P S)) : Option (Stored P S Instant) :=
  edges.foldlM (fun s e => do
    let s ← s.loadComponent base cutoff nodeId e.key.1
    s.loadComponent base cutoff nodeId e.key.2) s

variable [LinearOrder Instant]

/-- `Inner::prune_unreachable_peers`, over the map's keys and values in the order `values`: the
edges it drops go to the store as one component of the peers it prunes. -/
def pruneUnreachablePeers (s : Stored P S Instant) (unreachableSince : Instant)
    (values : List (Edge P S)) : Option (Stored P S Instant) :=
  let peers := unreachablePeers s.peerReachableAt unreachableSince (values.map Edge.key)
  if peers.isEmpty then some s
  else do
    let (inner, edges) ← s.toInner.removeAdjacentEdges peers values
    let store ← s.store.pushComponent peers edges
    pure ⟨⟨inner, fun p => if peers.contains p then none else s.peerReachableAt p⟩, store⟩

/-- The pruning step of `Inner::update`. -/
def pruneUnreachable (s : Stored P S Instant) (unreachableSince : Option Instant)
    (values : List (Edge P S)) : Option (Stored P S Instant) :=
  match unreachableSince with
  | some since => s.pruneUnreachablePeers since values
  | none => some s

/-- `Inner::update`; `pruneCutoff` is `now_utc - prune_edges_after` and `unreachableSince` is
`now.checked_sub(prune_unreachable_peers_after)`. -/
def update (base : UtcBase Utc) (order : EdgeMap P S → List (Edge P S)) (nodeId : P)
    (pruneCutoff : Option Utc) (now : Instant) (unreachableSince : Option Instant)
    (unreliablePeers : List P) (s : Stored P S Instant) :
    Option (Stored P S Instant × GraphSnapshot P S) := do
  let inner ← s.toInner.pruneExpiredEdges base pruneCutoff (order s.edges)
  let nextHops ← inner.graph.calculateDistance unreliablePeers
  let s : Stored P S Instant :=
    ⟨⟨inner, markReached s.peerReachableAt nodeId nextHops now⟩, s.store⟩
  let s ← s.pruneUnreachable unreachableSince (order s.edges)
  pure (s, ⟨s.edges, localEdges nodeId (order s.edges), nextHops⟩)

end Stored

end Defs

section AddEdges

variable [LinearOrder P] {Utc Instant : Type} [LinearOrder Utc]

/-- `Inner::add_edges`, with `tryMap` the outcome of `try_map` on the edges it verifies. -/
def Stored.addEdges (base : UtcBase Utc) (cutoff : Option Utc) (nodeId : P)
    (s : Stored P S Instant) (edges : List (Edge P S))
    (tryMap : List (Edge P S) → List (Edge P S) × Bool) :
    Option (Stored P S Instant × List (Edge P S) × Bool) := do
  let edges := Edge.deduplicate edges
  let s ← s.loadComponents base cutoff nodeId edges
  let (edges, ok) := tryMap (edges.filter fun e => !has s.edges e)
  let (inner, edges) ← s.toInner.retainUpdated base cutoff edges
  pure (⟨⟨inner, s.peerReachableAt⟩, s.store⟩, edges, ok)

/-- `try_map` run in order: the edges up to the first that fails, and whether none fails. -/
def tryMapSequential (verify : Edge P S → Bool) (edges : List (Edge P S)) :
    List (Edge P S) × Bool :=
  (edges.takeWhile verify, edges.all verify)

omit [LinearOrder P] in
theorem tryMapOutcome_sequential (verify : Edge P S → Bool) (edges : List (Edge P S)) :
    TryMapOutcome verify edges (tryMapSequential verify edges) where
  subperm := by
    have hself : (edges.takeWhile verify).filter verify = edges.takeWhile verify :=
      List.filter_eq_self.mpr fun _ he => List.mem_takeWhile_imp he
    have hsub := (List.takeWhile_sublist (l := edges) verify).filter verify
    rw [hself] at hsub
    exact hsub.subperm
  ok_iff := by simp [tryMapSequential]
  perm_of_ok hok := by
    have hall : ∀ e ∈ edges, verify e = true := by simpa [tryMapSequential] using hok
    rw [tryMapSequential, List.takeWhile_eq_self_iff.mpr hall]

/-- The states `Inner` reaches over every run of `Graph::update`: `add_edges` with a `try_map`
that may stop at the first edge `Edge::verify` rejects, and `update` with any enumeration of
the map; the store is kept when the node restarts. -/
inductive Stored.Reachable {H : Type} [LinearOrder Instant] (base : UtcBase Utc)
    (crypto : EdgeCrypto P S H) (nodeId : P) : Stored P S Instant → Prop
  | new : Reachable base crypto nodeId (Stored.new nodeId .empty)
  | restart {s : Stored P S Instant} :
      Reachable base crypto nodeId s → Reachable base crypto nodeId (Stored.new nodeId s.store)
  | addEdges {s s' : Stored P S Instant} {cutoff : Option Utc} {edges added : List (Edge P S)}
      {tryMap : List (Edge P S) → List (Edge P S) × Bool} {ok : Bool} :
      Reachable base crypto nodeId s →
      (∀ l, TryMapOutcome (Edge.verify crypto) l (tryMap l)) →
      s.addEdges base cutoff nodeId edges tryMap = some (s', added, ok) →
      Reachable base crypto nodeId s'
  | update {s s' : Stored P S Instant} {snap : GraphSnapshot P S}
      {order : EdgeMap P S → List (Edge P S)} {pruneCutoff : Option Utc} {now : Instant}
      {unreachableSince : Option Instant} {unreliablePeers : List P} :
      Reachable base crypto nodeId s → (∀ m, (order m).Perm m.entries) →
      s.update base order nodeId pruneCutoff now unreachableSince unreliablePeers =
        some (s', snap) →
      Reachable base crypto nodeId s'

end AddEdges

/-! ## Loading components -/

section Invariant

variable [LinearOrder P] {Utc Instant : Type} [LinearOrder Utc] {base : UtcBase Utc}
  {nodeId : P}

namespace EdgeMap

/-- Every key of `m` keeps in `m'` an edge at least as new. -/
def Grows (m m' : EdgeMap P S) : Prop :=
  ∀ key x, m.get key = some x → ∃ x', m'.get key = some x' ∧ x.nonce ≤ x'.nonce

theorem Grows.refl (m : EdgeMap P S) : m.Grows m := fun _ x hx => ⟨x, hx, le_refl _⟩

theorem Grows.trans {m m' m'' : EdgeMap P S} (h₁ : m.Grows m') (h₂ : m'.Grows m'') :
    m.Grows m'' := by
  intro key x hx
  obtain ⟨x', hx', hle⟩ := h₁ key x hx
  obtain ⟨x'', hx'', hle'⟩ := h₂ key x' hx'
  exact ⟨x'', hx'', hle.trans hle'⟩

/-- An edge known to `m` stays known as the map grows. -/
theorem Grows.has_of_has {m m' : EdgeMap P S} (h : m.Grows m') {e : Edge P S} (he : has m e = true) :
    has m' e = true := by
  cases hget : m.get e.key with
  | none => simp [has, hget] at he
  | some x =>
      obtain ⟨x', hx', hle⟩ := h e.key x hget
      simp only [has, hget, Option.elim, decide_eq_true_eq] at he
      simp [has, hx', le_trans he hle]

end EdgeMap

namespace Inner

variable {source : P}

/-- `load_component`'s loop from a reachable state, on edges whose keys are in order: it never
panics and the state stays reachable; every key keeps an edge at least as new, every edge now
stored was stored before or is one of the edges, and each of the edges not older than the
horizon is then known. -/
theorem Reachable.updateEdges (cutoff : Option Utc) :
    ∀ (edges : List (Edge P S)) {s : Inner P S}, Reachable base source s →
      (∀ e ∈ edges, e.key.1 < e.key.2) →
      ∃ s', s.updateEdges base cutoff edges = some s' ∧ Reachable base source s' ∧
        s.edges.Grows s'.edges ∧
        (∀ key x, s'.edges.get key = some x → s.edges.get key = some x ∨ x ∈ edges) ∧
        ∀ e ∈ edges, cutoff.any (e.isEdgeOlderThan base) = false → has s'.edges e = true
  | [], s, h, _ =>
      ⟨s, rfl, h, .refl _, fun _ _ hx => .inl hx, fun _ he => absurd he List.not_mem_nil⟩
  | e :: edges, s, h, hkeys => by
      have hkey := hkeys e List.mem_cons_self
      obtain ⟨s1, taken, hcall, htaken, hget1, hgrow1⟩ := h.updateEdge_newer cutoff hkey
      have h1 : Reachable base source s1 := h.updateEdge (not_lt.mpr hkey.le) hcall
      obtain ⟨s', hrun, h', hgrow, hfrom, hknown⟩ := Reachable.updateEdges cutoff edges h1
        fun e' he' => hkeys e' (List.mem_cons_of_mem e he')
      have hknown1 : cutoff.any (e.isEdgeOlderThan base) = false → has s1.edges e = true := by
        intro hyoung
        cases ht : taken
        · have hold : has s.edges e = true := by
            rw [← Bool.not_eq_false, has_eq_false_iff]
            intro hnewer
            rw [ht] at htaken
            exact Bool.false_ne_true (htaken.mpr ⟨hnewer, hyoung⟩)
          rw [has, hget1 e.key, if_neg (by simp [ht])]
          exact hold
        · rw [has, hget1 e.key, if_pos ⟨ht, rfl⟩]
          simp
      refine ⟨s', ?_, h', EdgeMap.Grows.trans hgrow1 hgrow, fun key x hx => ?_,
        fun e' he' hyoung => ?_⟩
      · rw [Inner.updateEdges, List.foldlM_cons, hcall]
        exact hrun
      · rcases hfrom key x hx with hx1 | hx
        · rw [hget1 key] at hx1
          split_ifs at hx1 with hk
          · cases hx1
            exact .inr List.mem_cons_self
          · exact .inl hx1
        · exact .inr (List.mem_cons_of_mem e hx)
      · rcases List.mem_cons.mp he' with rfl | he'
        · exact hgrow.has_of_has (hknown1 hyoung)
        · exact hknown e' he' hyoung

theorem retainStep_eq_some {cutoff : Option Utc} {acc r : Inner P S × List (Edge P S)}
    {e : Edge P S} (h : retainStep base cutoff acc e = some r) :
    ∃ taken, acc.1.updateEdge base cutoff e = some (r.1, taken) := by
  unfold retainStep at h
  cases hcall : acc.1.updateEdge base cutoff e with
  | none => simp [hcall] at h
  | some p =>
      rw [hcall] at h
      obtain ⟨s', taken⟩ := p
      obtain rfl : (s', if taken then acc.2 ++ [e] else acc.2) = r := Option.some.inj h
      exact ⟨taken, rfl⟩

/-- A run of the last loop of `add_edges` that did not panic, on edges whose keys are not
reversed, ends in a reachable state. -/
theorem Reachable.foldlM_retainStep_of_some (cutoff : Option Utc) :
    ∀ (edges : List (Edge P S)) {s s' : Inner P S} {acc out : List (Edge P S)},
      Reachable base source s → (∀ e ∈ edges, ¬ e.key.2 < e.key.1) →
      edges.foldlM (retainStep base cutoff) (s, acc) = some (s', out) → Reachable base source s'
  | [], s, s', acc, out, h, _, hrun => by
      cases hrun
      exact h
  | e :: edges, s, s', acc, out, h, hkeys, hrun => by
      rw [List.foldlM_cons, Option.bind_eq_bind, Option.bind_eq_some_iff] at hrun
      obtain ⟨⟨s1, acc1⟩, hstep, hrest⟩ := hrun
      obtain ⟨taken, hcall⟩ := retainStep_eq_some hstep
      exact Reachable.foldlM_retainStep_of_some cutoff edges
        (h.updateEdge (hkeys e List.mem_cons_self) hcall)
        (fun e' he' => hkeys e' (List.mem_cons_of_mem e he')) hrest

/-- What `try_map` returns of the candidates of `add_edges`: input edges that pass
`Edge::verify` and are not known, with distinct keys. -/
theorem verified_of_tryMapOutcome {H : Type} {crypto : EdgeCrypto P S H} {s : Inner P S}
    {edges : List (Edge P S)} {outcome : List (Edge P S) × Bool}
    (hout : TryMapOutcome (Edge.verify crypto) (s.addEdgesCandidates edges) outcome) :
    (outcome.1.map Edge.key).Nodup ∧
      ∀ e ∈ outcome.1, e ∈ edges ∧ Edge.verify crypto e = true ∧ has s.edges e = false := by
  refine ⟨?_, fun e he => ?_⟩
  · obtain ⟨l, hperm, hsub⟩ := hout.subperm
    have hl : (l.map Edge.key).Nodup :=
      (nodup_keys_addEdgesCandidates s edges).sublist ((hsub.trans List.filter_sublist).map _)
    exact (hperm.map Edge.key).nodup_iff.mp hl
  · obtain ⟨hc, hv⟩ := List.mem_filter.mp (hout.subperm.subset he)
    obtain ⟨he, hfresh⟩ := mem_addEdgesCandidates hc
    exact ⟨he, hv, hfresh⟩

end Inner

namespace Stored

/-- What holds of every state `Inner` reaches: its graph and edges are reachable as `Inner`,
and every edge of the store has its key in order. -/
structure Inv (base : UtcBase Utc) (nodeId : P) (s : Stored P S Instant) : Prop where
  reachable : Inner.Reachable base nodeId s.toInner
  keysOrdered : s.store.KeysOrdered

/-- `s'` is `s` with edges of stored components brought back: `peer_reachable_at` is as it was,
every key keeps an edge at least as new, every edge now stored was stored before or comes from a
component of the store, and the store has only lost components. -/
structure Loads (s s' : Stored P S Instant) : Prop where
  peerReachableAt_eq : s'.peerReachableAt = s.peerReachableAt
  grows : s.edges.Grows s'.edges
  from_store : ∀ key x, s'.edges.get key = some x →
    s.edges.get key = some x ∨ ∃ c edges, s.store.componentEdges c = some edges ∧ x ∈ edges
  componentEdges : ∀ c edges, s'.store.componentEdges c = some edges →
    s.store.componentEdges c = some edges

theorem Loads.refl (s : Stored P S Instant) : s.Loads s :=
  ⟨rfl, .refl _, fun _ _ hx => .inl hx, fun _ _ h => h⟩

theorem Loads.trans {s s' s'' : Stored P S Instant} (h₁ : s.Loads s') (h₂ : s'.Loads s'') :
    s.Loads s'' where
  peerReachableAt_eq := h₂.peerReachableAt_eq.trans h₁.peerReachableAt_eq
  grows := h₁.grows.trans h₂.grows
  from_store key x hx := by
    rcases h₂.from_store key x hx with hx' | ⟨c, edges, hc, hxe⟩
    · exact h₁.from_store key x hx'
    · exact .inr ⟨c, edges, h₁.componentEdges c edges hc, hxe⟩
  componentEdges c edges h := h₁.componentEdges c edges (h₂.componentEdges c edges h)

variable {s : Stored P S Instant}

/-- `load_component` on a peer it skips, or one that maps to no component, leaves the state as
it was. -/
theorem loadComponent_of_unmapped (cutoff : Option Utc) {peerId : P}
    (h : peerId = nodeId ∨ (s.peerReachableAt peerId).isSome ∨
      s.store.peerComponent peerId = none) :
    s.loadComponent base cutoff nodeId peerId = some s := by
  by_cases hskip : peerId = nodeId ∨ (s.peerReachableAt peerId).isSome
  · rw [Stored.loadComponent, if_pos hskip]
  · have hnone : s.store.peerComponent peerId = none := by tauto
    rw [Stored.loadComponent, if_neg hskip, (ComponentStore.popComponent_spec s.store peerId).1 hnone]
    rfl

/-- What `load_component` does from a state of the invariant: it never panics and keeps the
invariant; a peer it skips leaves the state as it was, and for another one the component it
maps to is popped and each of its edges not older than the horizon is then known. -/
theorem Inv.loadComponent (hs : s.Inv base nodeId) (cutoff : Option Utc) (peerId : P) :
    ∃ s', s.loadComponent base cutoff nodeId peerId = some s' ∧ s'.Inv base nodeId ∧
      s.Loads s' ∧ (peerId = nodeId ∨ (s.peerReachableAt peerId).isSome → s' = s) ∧
      (¬ (peerId = nodeId ∨ (s.peerReachableAt peerId).isSome) →
        s'.store = (s.store.popComponent peerId).2 ∧
        ∀ e ∈ (s.store.popComponent peerId).1, cutoff.any (e.isEdgeOlderThan base) = false →
          has s'.edges e = true) := by
  by_cases hskip : peerId = nodeId ∨ (s.peerReachableAt peerId).isSome
  · exact ⟨s, by rw [Stored.loadComponent, if_pos hskip], hs, .refl s, fun _ => rfl,
      fun h => absurd hskip h⟩
  · obtain ⟨hedges, hstore⟩ := hs.keysOrdered.popComponent peerId
    obtain ⟨inner, hrun, hinner, hgrow, hfrom, hknown⟩ :=
      hs.reachable.updateEdges cutoff _ hedges
    refine ⟨⟨⟨inner, s.peerReachableAt⟩, (s.store.popComponent peerId).2⟩, ?_, ⟨hinner, hstore⟩,
      ⟨rfl, hgrow, fun key x hx => ?_, fun c edges h =>
        ComponentStore.popComponent_componentEdges _ _ h⟩,
      fun h => absurd h hskip, fun _ => ⟨rfl, hknown⟩⟩
    · rw [Stored.loadComponent, if_neg hskip]
      simp only [hrun]
      rfl
    · rcases hfrom key x hx with h | h
      · exact .inl h
      · exact .inr (ComponentStore.mem_popComponent _ _ h)

/-- The loop of `add_edges` that loads the components of both ends of every edge, from a state
of the invariant: it never panics, keeps the invariant and only brings edges back. -/
theorem Inv.loadComponents (cutoff : Option Utc) :
    ∀ (edges : List (Edge P S)) {s : Stored P S Instant}, s.Inv base nodeId →
      ∃ s', s.loadComponents base cutoff nodeId edges = some s' ∧ s'.Inv base nodeId ∧
        s.Loads s'
  | [], s, hs => ⟨s, rfl, hs, .refl s⟩
  | e :: edges, s, hs => by
      obtain ⟨s1, hcall1, hs1, hload1, -⟩ := hs.loadComponent cutoff e.key.1
      obtain ⟨s2, hcall2, hs2, hload2, -⟩ := hs1.loadComponent cutoff e.key.2
      obtain ⟨s', hrun, hs', hload'⟩ := Inv.loadComponents cutoff edges hs2
      refine ⟨s', ?_, hs', hload1.trans (hload2.trans hload')⟩
      rw [Stored.loadComponents, List.foldlM_cons]
      simp only [hcall1, hcall2, Option.bind_eq_bind, Option.bind_some]
      exact hrun

/-- `load_components` over edges whose ends it skips or that map to no component leaves the
state as it was. -/
theorem loadComponents_of_unmapped (cutoff : Option Utc) :
    ∀ (edges : List (Edge P S)), (∀ e ∈ edges, ∀ p ∈ [e.key.1, e.key.2],
      p = nodeId ∨ (s.peerReachableAt p).isSome ∨ s.store.peerComponent p = none) →
      s.loadComponents base cutoff nodeId edges = some s
  | [], _ => rfl
  | e :: edges, h => by
      have he := h e List.mem_cons_self
      rw [Stored.loadComponents, List.foldlM_cons, loadComponent_of_unmapped cutoff (he _ (by simp)),
        Option.bind_eq_bind, Option.bind_some, loadComponent_of_unmapped cutoff (he _ (by simp)),
        Option.bind_some]
      exact loadComponents_of_unmapped cutoff edges fun e' he' => h e' (List.mem_cons_of_mem e he')

/-! ### `add_edges` and `update` keep the invariant -/

/-- `add_edges` once the components are loaded: the edges not known are verified, and those
`try_map` returns go through `update_edge`. -/
theorem addEdges_of_loadComponents {cutoff : Option Utc} {edges : List (Edge P S)}
    {tryMap : List (Edge P S) → List (Edge P S) × Bool} {s₁ : Stored P S Instant}
    (hload : s.loadComponents base cutoff nodeId (Edge.deduplicate edges) = some s₁) :
    s.addEdges base cutoff nodeId edges tryMap =
      (s₁.toInner.retainUpdated base cutoff (tryMap (s₁.toInner.addEdgesCandidates edges)).1).map
        fun r => (⟨⟨r.1, s₁.peerReachableAt⟩, s₁.store⟩, r.2,
          (tryMap (s₁.toInner.addEdgesCandidates edges)).2) := by
  unfold Inner.addEdgesCandidates
  obtain ⟨verified, ok, htry⟩ : ∃ verified ok,
      tryMap ((Edge.deduplicate edges).filter fun e => !has s₁.edges e) = (verified, ok) :=
    ⟨_, _, rfl⟩
  rw [htry]
  cases hret : s₁.toInner.retainUpdated base cutoff verified with
  | none => simp [Stored.addEdges, hload, htry, hret]
  | some r => simp [Stored.addEdges, hload, htry, hret]

theorem Inv.addEdges {H : Type} {crypto : EdgeCrypto P S H} (hs : s.Inv base nodeId)
    {cutoff : Option Utc} {edges added : List (Edge P S)}
    {tryMap : List (Edge P S) → List (Edge P S) × Bool}
    (htry : ∀ l, TryMapOutcome (Edge.verify crypto) l (tryMap l)) {s' : Stored P S Instant}
    {ok : Bool} (h : s.addEdges base cutoff nodeId edges tryMap = some (s', added, ok)) :
    s'.Inv base nodeId := by
  obtain ⟨s₁, hload, hs₁, -⟩ := hs.loadComponents cutoff (Edge.deduplicate edges)
  rw [addEdges_of_loadComponents hload, Option.map_eq_some_iff] at h
  obtain ⟨r, hret, hr⟩ := h
  obtain rfl : (⟨⟨r.1, s₁.peerReachableAt⟩, s₁.store⟩ : Stored P S Instant) = s' :=
    congrArg Prod.fst hr
  have hkeys : ∀ e ∈ (tryMap (s₁.toInner.addEdgesCandidates edges)).1, ¬ e.key.2 < e.key.1 :=
    fun e he => Edge.not_lt_of_verify crypto
      ((Inner.verified_of_tryMapOutcome (htry _)).2 e he).2.1
  exact ⟨hs₁.reachable.foldlM_retainStep_of_some cutoff _ hkeys hret, hs₁.keysOrdered⟩

variable [LinearOrder Instant]

/-- `prune_unreachable_peers` stores what it prunes and does to the graph, the edges and
`peer_reachable_at` what the model without the store does, as long as the component nonce does
not overflow. -/
theorem pruneUnreachablePeers_refines (s : Stored P S Instant) (since : Instant)
    (values : List (Edge P S)) (hnonce : s.store.lastComponentNonce.getD 0 + 1 < 2 ^ 64) :
    (s.pruneUnreachablePeers since values).map Stored.toTracked =
      s.toTracked.pruneUnreachablePeers since values := by
  unfold Stored.pruneUnreachablePeers Tracked.pruneUnreachablePeers
  dsimp only
  split_ifs with hempty
  · rfl
  · cases hrem : s.toInner.removeAdjacentEdges
        (unreachablePeers s.peerReachableAt since (values.map Edge.key)) values with
    | none => simp
    | some r =>
        obtain ⟨st', hpush, -⟩ := s.store.pushComponent_spec
          (unreachablePeers s.peerReachableAt since (values.map Edge.key)) r.2 hnonce
        simp [hpush]

theorem Inv.pruneUnreachablePeers (hs : s.Inv base nodeId) {since : Instant}
    {values : List (Edge P S)} (hperm : values.Perm s.edges.entries) {s' : Stored P S Instant}
    (h : s.pruneUnreachablePeers since values = some s') : s'.Inv base nodeId := by
  unfold Stored.pruneUnreachablePeers at h
  dsimp only at h
  split_ifs at h with hempty
  · cases h
    exact hs
  · obtain ⟨inner, hrem, -, -⟩ := hs.reachable.inv.removeAdjacentEdges_spec
      (unreachablePeers s.peerReachableAt since (values.map Edge.key)) values
    rw [hrem] at h
    simp only [Option.bind_eq_bind, Option.bind_some, Option.bind_eq_some_iff] at h
    obtain ⟨st', hpush, hs'⟩ := h
    obtain rfl := Option.some.inj hs'
    have hedges : ∀ e ∈ values.filter (fun e =>
        (unreachablePeers s.peerReachableAt since (values.map Edge.key)).contains e.key.1 ||
          (unreachablePeers s.peerReachableAt since (values.map Edge.key)).contains e.key.2),
        e.key.1 < e.key.2 :=
      fun e he => hs.reachable.inv.keysOrdered e (hperm.mem_iff.mp (List.mem_of_mem_filter he))
    exact ⟨Inner.Reachable.removeAdjacentEdges hs.reachable hperm hrem,
      hs.keysOrdered.pushComponent hedges hpush⟩

theorem Inv.update (hs : s.Inv base nodeId) {order : EdgeMap P S → List (Edge P S)}
    (horder : ∀ m, (order m).Perm m.entries) {pruneCutoff : Option Utc} {now : Instant}
    {unreachableSince : Option Instant} {unreliablePeers : List P} {s' : Stored P S Instant}
    {snap : GraphSnapshot P S}
    (h : s.update base order nodeId pruneCutoff now unreachableSince unreliablePeers =
      some (s', snap)) :
    s'.Inv base nodeId := by
  obtain ⟨inner, hprune, hinner, -⟩ :=
    hs.reachable.pruneExpiredEdges_spec pruneCutoff (horder s.edges)
  simp only [Stored.update, hprune, Option.bind_eq_bind, Option.bind_some,
    Option.bind_eq_some_iff] at h
  obtain ⟨nextHops, -, t, hprune', ht⟩ := h
  have hmid : (⟨⟨inner, markReached s.peerReachableAt nodeId nextHops now⟩, s.store⟩ :
      Stored P S Instant).Inv base nodeId := ⟨hinner, hs.keysOrdered⟩
  obtain rfl : t = s' := congrArg Prod.fst (Option.some.inj ht)
  cases unreachableSince with
  | none =>
      cases hprune'
      exact hmid
  | some since => exact hmid.pruneUnreachablePeers (horder inner.edges) hprune'

theorem Reachable.inv {H : Type} {crypto : EdgeCrypto P S H}
    (h : s.Reachable base crypto nodeId) : s.Inv base nodeId := by
  induction h with
  | new => exact ⟨Inner.Reachable.new, ComponentStore.keysOrdered_empty⟩
  | restart _ ih => exact ⟨Inner.Reachable.new, ih.keysOrdered⟩
  | addEdges _ htry hadd ih => exact ih.addEdges htry hadd
  | update _ horder hupd ih => exact ih.update horder hupd

end Stored

end Invariant

/-! ## The run of `load_component`'s comment

Node `0` and peers `1` and `2`: `1` leaves while `2` is connected, and its component holds its
removed edge to `2`; then `2` leaves too, into a second component; a new edge at `1` loads the
first component, which brings back the edge to `2` but leaves `2` mapped to the second. -/

/-- Signatures for the run: a signature names its signer and the hash it signs. -/
def namedCrypto : EdgeCrypto ℕ (ℕ × ℕ) ℕ :=
  ⟨fun k => Nat.pair k.1 (Nat.pair k.2.1 k.2.2), fun sig hash peer => decide (sig = (peer, hash))⟩

/-- The active edge of an odd `nonce`, signed by both peers. -/
def addedEdge (peer0 peer1 nonce : ℕ) : Edge ℕ (ℕ × ℕ) :=
  ⟨(peer0, peer1), nonce, (peer0, Nat.pair peer0 (Nat.pair peer1 nonce)),
    (peer1, Nat.pair peer0 (Nat.pair peer1 nonce)), none⟩

/-- The removal by `peer0`, at an even `nonce`, of the edge of the nonce before. -/
def removedEdge (peer0 peer1 nonce : ℕ) : Edge ℕ (ℕ × ℕ) :=
  ⟨(peer0, peer1), nonce, (peer0, Nat.pair peer0 (Nat.pair peer1 (nonce - 1))),
    (peer1, Nat.pair peer0 (Nat.pair peer1 (nonce - 1))),
    some (true, (peer0, Nat.pair peer0 (Nat.pair peer1 nonce)))⟩

namespace Stored

/-- `add_edges` of one edge by node `0`, with `try_map` run in order and no pruning horizon. -/
def docAdd (s : Stored ℕ (ℕ × ℕ) ℕ) (e : Edge ℕ (ℕ × ℕ)) : Stored ℕ (ℕ × ℕ) ℕ :=
  ((s.addEdges unixUtc none 0 [e] (tryMapSequential (Edge.verify namedCrypto))).map
    Prod.fst).getD s

/-- `update` by node `0` at `now`, pruning the peers not reached since `since`. -/
def docUpdate (now since : ℕ) (s : Stored ℕ (ℕ × ℕ) ℕ) : Stored ℕ (ℕ × ℕ) ℕ :=
  ((s.update unixUtc EdgeMap.entries 0 none now (some since) []).map Prod.fst).getD s

/-- Peer `2` is connected to the node and peer `1` has only a removed edge to `2`. -/
def docState2 : Stored ℕ (ℕ × ℕ) ℕ :=
  docAdd (docAdd (Stored.new 0 .empty) (addedEdge 0 2 1)) (removedEdge 1 2 2)

/-- `1` is pruned into component `1`; then the edge `(0, 2)` is removed and `2` is pruned into
component `2`. -/
def docState5 : Stored ℕ (ℕ × ℕ) ℕ :=
  docUpdate 20 15 (docAdd (docUpdate 10 5 docState2) (removedEdge 0 2 2))

/-- A new edge at `1` loads component `1`. -/
def docState6 : Stored ℕ (ℕ × ℕ) ℕ := docAdd docState5 (addedEdge 0 1 1)

theorem docAdd_reachable {s : Stored ℕ (ℕ × ℕ) ℕ} (h : s.Reachable unixUtc namedCrypto 0)
    {e : Edge ℕ (ℕ × ℕ)}
    (hsome : (s.addEdges unixUtc none 0 [e] (tryMapSequential (Edge.verify namedCrypto))).isSome) :
    (docAdd s e).Reachable unixUtc namedCrypto 0 := by
  obtain ⟨r, hr⟩ := Option.isSome_iff_exists.mp hsome
  have hr' : s.addEdges unixUtc none 0 [e] (tryMapSequential (Edge.verify namedCrypto)) =
      some (docAdd s e, r.2.1, r.2.2) := by
    simp [docAdd, hr]
  exact .addEdges h (tryMapOutcome_sequential _) hr'

theorem docUpdate_reachable {s : Stored ℕ (ℕ × ℕ) ℕ} (h : s.Reachable unixUtc namedCrypto 0)
    {now since : ℕ} (hsome : (s.update unixUtc EdgeMap.entries 0 none now (some since) []).isSome) :
    (docUpdate now since s).Reachable unixUtc namedCrypto 0 := by
  obtain ⟨r, hr⟩ := Option.isSome_iff_exists.mp hsome
  have hr' : s.update unixUtc EdgeMap.entries 0 none now (some since) [] =
      some (docUpdate now since s, r.2) := by
    simp [docUpdate, hr]
  exact .update h (fun _ => List.Perm.refl _) hr'

/-- The run goes through, with the components as the comment says, and re-sending the known edge
`(1, 2)` loads component `2`. -/
theorem docRun_spec :
    ((Stored.new 0 .empty : Stored ℕ (ℕ × ℕ) ℕ).addEdges unixUtc none 0 [addedEdge 0 2 1]
      (tryMapSequential (Edge.verify namedCrypto))).isSome ∧
    ((docAdd (Stored.new 0 .empty) (addedEdge 0 2 1)).addEdges unixUtc none 0 [removedEdge 1 2 2]
      (tryMapSequential (Edge.verify namedCrypto))).isSome ∧
    (docState2.update unixUtc EdgeMap.entries 0 none 10 (some 5) []).isSome ∧
    ((docUpdate 10 5 docState2).addEdges unixUtc none 0 [removedEdge 0 2 2]
      (tryMapSequential (Edge.verify namedCrypto))).isSome ∧
    ((docAdd (docUpdate 10 5 docState2) (removedEdge 0 2 2)).update unixUtc EdgeMap.entries 0
      none 20 (some 15) []).isSome ∧
    (docState5.addEdges unixUtc none 0 [addedEdge 0 1 1]
      (tryMapSequential (Edge.verify namedCrypto))).isSome ∧
    docState5.store.peerComponent 1 = some 1 ∧ docState5.store.peerComponent 2 = some 2 ∧
    docState6.store.peerComponent 1 = none ∧ docState6.store.peerComponent 2 = some 2 ∧
    docState6.store.peerComponent 3 = none ∧ has docState6.edges (addedEdge 3 3 1) = false ∧
    has docState6.edges (removedEdge 1 2 2) = true ∧ docState6.edges.get (0, 2) = none ∧
    (docState6.loadComponents unixUtc none 0 [removedEdge 1 2 2]).map
      (fun s => s.edges.get (0, 2)) = some (some (removedEdge 0 2 2)) ∧
    docState6.store.lastComponentNonce = some 2 ∧
    (docState6.update unixUtc EdgeMap.entries 0 none 30 (some 25) []).map
      (fun r => r.1.store.peerComponent 2) = some (some 3) := by
  decide +kernel

theorem docState5_reachable : docState5.Reachable unixUtc namedCrypto 0 := by
  obtain ⟨h1, h2, h3, h4, h5, -⟩ := docRun_spec
  exact docUpdate_reachable (docAdd_reachable (docUpdate_reachable (docAdd_reachable
    (docAdd_reachable .new h1) h2) h3) h4) h5

theorem docState6_reachable : docState6.Reachable unixUtc namedCrypto 0 :=
  docAdd_reachable docState5_reachable docRun_spec.2.2.2.2.2.1

end Stored

section Results

variable [LinearOrder P] {Utc Instant : Type} [LinearOrder Utc] [LinearOrder Instant]
  {base : UtcBase Utc} {nodeId : P}

namespace Stored

variable {s : Stored P S Instant}

/-! ## `add_edges` -/

/-- `add_edges` from every reachable state, on edges none of which joins a peer to itself, with
any outcome `try_map` may give.  It first loads the components of the ends of the edges, which
never panics and only brings stored edges back; then it adds the edges `try_map` verified that
are not older than the horizon, with distinct keys, each an input edge that passes
`Edge::verify`, now stored under its key and newer than what loading left there; it leaves every
other key as loading left it, and when every candidate verifies it adds all those not older than
the horizon. -/
theorem Reachable.addEdges_spec {H : Type} {crypto : EdgeCrypto P S H}
    (h : s.Reachable base crypto nodeId) (cutoff : Option Utc) (edges : List (Edge P S))
    (hloops : ∀ e ∈ edges, e.key.1 ≠ e.key.2) (tryMap : List (Edge P S) → List (Edge P S) × Bool)
    (htry : ∀ l, TryMapOutcome (Edge.verify crypto) l (tryMap l)) :
    ∃ s₁, s.loadComponents base cutoff nodeId (Edge.deduplicate edges) = some s₁ ∧ s.Loads s₁ ∧
      ∀ verified ok, tryMap (s₁.toInner.addEdgesCandidates edges) = (verified, ok) →
      ∃ s', s.addEdges base cutoff nodeId edges tryMap =
          some (s', verified.filter (fun e => !cutoff.any (e.isEdgeOlderThan base)), ok) ∧
        s'.Reachable base crypto nodeId ∧ s'.store = s₁.store ∧
        s'.peerReachableAt = s.peerReachableAt ∧
        ((verified.filter fun e => !cutoff.any (e.isEdgeOlderThan base)).map Edge.key).Nodup ∧
        (∀ e ∈ verified.filter (fun e => !cutoff.any (e.isEdgeOlderThan base)),
          e ∈ edges ∧ Edge.verify crypto e = true ∧ s'.edges.get e.key = some e ∧
          ∀ x, s₁.edges.get e.key = some x → x.nonce < e.nonce) ∧
        (∀ key, key ∉ (verified.filter fun e => !cutoff.any (e.isEdgeOlderThan base)).map
          Edge.key → s'.edges.get key = s₁.edges.get key) ∧
        (ok = true → (verified.filter fun e => !cutoff.any (e.isEdgeOlderThan base)).Perm
          ((s₁.toInner.addEdgesCandidates edges).filter
            fun e => !cutoff.any (e.isEdgeOlderThan base))) := by
  obtain ⟨s₁, hload, hs₁, hloads⟩ := h.inv.loadComponents cutoff (Edge.deduplicate edges)
  refine ⟨s₁, hload, hloads, fun verified ok htry' => ?_⟩
  have hout := htry (s₁.toInner.addEdgesCandidates edges)
  rw [htry'] at hout
  obtain ⟨hnodup, hmem⟩ : (verified.map Edge.key).Nodup ∧ ∀ e ∈ verified,
      e ∈ edges ∧ Edge.verify crypto e = true ∧ has s₁.edges e = false :=
    Inner.verified_of_tryMapOutcome hout
  have hkey : ∀ e ∈ verified, e.key.1 < e.key.2 := by
    intro e he
    obtain ⟨he, hv, -⟩ := hmem e he
    exact lt_of_le_of_ne (not_lt.mp (Edge.not_lt_of_verify crypto hv)) (hloops e he)
  obtain ⟨inner, hfold, -, hstored, hother⟩ := hs₁.reachable.foldlM_retainStep cutoff verified []
    hnodup fun e he => ⟨hkey e he, (hmem e he).2.2⟩
  have hadd : s.addEdges base cutoff nodeId edges tryMap =
      some (⟨⟨inner, s₁.peerReachableAt⟩, s₁.store⟩,
        verified.filter (fun e => !cutoff.any (e.isEdgeOlderThan base)), ok) := by
    rw [addEdges_of_loadComponents hload, htry']
    simp [Inner.retainUpdated, hfold]
  refine ⟨_, hadd, .addEdges h htry hadd, rfl, hloads.peerReachableAt_eq,
    hnodup.sublist (List.filter_sublist.map _), fun e he => ?_, hother,
    fun hok => (hout.perm_of_ok hok).filter _⟩
  obtain ⟨hin, hv, hfresh⟩ := hmem e (List.mem_of_mem_filter he)
  exact ⟨hin, hv, hstored e he, has_eq_false_iff.mp hfresh⟩

/-- Node `0` gets the edge `(0, 1)` once peer `1` is in component `1`. -/
theorem Reachable.addEdges_spec_reload : docState5.store.peerComponent 1 = some 1 ∧
    ∃ s₁, docState5.loadComponents unixUtc none 0 (Edge.deduplicate [addedEdge 0 1 1]) =
        some s₁ ∧ docState5.Loads s₁ ∧
      ∀ verified ok, tryMapSequential (Edge.verify namedCrypto)
          (s₁.toInner.addEdgesCandidates [addedEdge 0 1 1]) = (verified, ok) →
      ∃ s', docState5.addEdges unixUtc none 0 [addedEdge 0 1 1]
          (tryMapSequential (Edge.verify namedCrypto)) =
          some (s', verified.filter (fun e => !(none : Option ℤ).any (e.isEdgeOlderThan unixUtc)),
            ok) ∧
        s'.Reachable unixUtc namedCrypto 0 ∧ s'.store = s₁.store ∧
        s'.peerReachableAt = docState5.peerReachableAt ∧
        ((verified.filter fun e => !(none : Option ℤ).any (e.isEdgeOlderThan unixUtc)).map
          Edge.key).Nodup ∧
        (∀ e ∈ verified.filter (fun e => !(none : Option ℤ).any (e.isEdgeOlderThan unixUtc)),
          e ∈ [addedEdge 0 1 1] ∧ Edge.verify namedCrypto e = true ∧
          s'.edges.get e.key = some e ∧ ∀ x, s₁.edges.get e.key = some x → x.nonce < e.nonce) ∧
        (∀ key, key ∉ (verified.filter fun e =>
            !(none : Option ℤ).any (e.isEdgeOlderThan unixUtc)).map Edge.key →
          s'.edges.get key = s₁.edges.get key) ∧
        (ok = true → (verified.filter fun e =>
            !(none : Option ℤ).any (e.isEdgeOlderThan unixUtc)).Perm
          ((s₁.toInner.addEdgesCandidates [addedEdge 0 1 1]).filter
            fun e => !(none : Option ℤ).any (e.isEdgeOlderThan unixUtc))) := by
  obtain ⟨-, -, -, -, -, -, hcomponent, -⟩ := docRun_spec
  exact ⟨hcomponent, Reachable.addEdges_spec docState5_reachable none [addedEdge 0 1 1]
    (by decide) _ (tryMapOutcome_sequential _)⟩

omit [LinearOrder Instant] in
/-- An edge from a peer to itself passes `Edge::verify` whenever its signatures check; when it is
still unknown once the components are loaded and is not older than the horizon, `add_edges` hands
it to `update_edge`, and the graph panics on it. -/
theorem addEdges_self_panics {H : Type} (crypto : EdgeCrypto P S H) (cutoff : Option Utc)
    {e : Edge P S} (hself : e.key.1 = e.key.2) (hsig : Edge.verifySignatures crypto e = true)
    (hyoung : cutoff.any (e.isEdgeOlderThan base) = false)
    (tryMap : List (Edge P S) → List (Edge P S) × Bool)
    (htry : ∀ l, TryMapOutcome (Edge.verify crypto) l (tryMap l)) {s₁ : Stored P S Instant}
    (hload : s.loadComponents base cutoff nodeId [e] = some s₁)
    (hfresh : has s₁.edges e = false) :
    Edge.verify crypto e = true ∧ s.addEdges base cutoff nodeId [e] tryMap = none := by
  have hverify : Edge.verify crypto e = true := by simp [Edge.verify, hself, hsig]
  have hload' : s.loadComponents base cutoff nodeId (Edge.deduplicate [e]) = some s₁ := by
    rw [Edge.deduplicate_singleton]
    exact hload
  obtain ⟨-, hperm⟩ := (htry [e]).ok_of_forall (by simpa using hverify)
  have hverified : (tryMap [e]).1 = [e] := List.perm_singleton.mp hperm
  refine ⟨hverify, ?_⟩
  rw [addEdges_of_loadComponents hload', Inner.addEdgesCandidates_singleton hfresh, hverified]
  simp [Inner.retainUpdated, Inner.retainStep, Inner.updateEdge_self base cutoff hself, hfresh,
    hyoung]

/-- Peer `3` signs an edge to itself and sends it to node `0` at the end of the run. -/
theorem addEdges_self_panics_docState : Edge.verify namedCrypto (addedEdge 3 3 1) = true ∧
    docState6.addEdges unixUtc none 0 [addedEdge 3 3 1]
      (tryMapSequential (Edge.verify namedCrypto)) = none := by
  obtain ⟨-, -, -, -, -, -, -, -, -, -, hunmapped, hfresh, -⟩ := docRun_spec
  have hload : docState6.loadComponents unixUtc none 0 [addedEdge 3 3 1] = some docState6 :=
    loadComponents_of_unmapped none [addedEdge 3 3 1] (by simp [addedEdge, hunmapped])
  exact addEdges_self_panics namedCrypto none rfl (by decide) rfl _ (tryMapOutcome_sequential _)
    hload hfresh

/-- `add_edges` drops the edges it already knows before it verifies anything: on a batch of
edges each stored with at least its nonce, whatever their signatures, it adds nothing and reports
the batch valid, and all it does is load the components of the edges' ends; when none of the ends
has a component to load, the state is left as it was. -/
theorem Reachable.addEdges_of_known {H : Type} {crypto : EdgeCrypto P S H}
    (h : s.Reachable base crypto nodeId) (cutoff : Option Utc) {edges : List (Edge P S)}
    (hknown : ∀ e ∈ edges, has s.edges e = true) (tryMap : List (Edge P S) → List (Edge P S) × Bool)
    (htry : ∀ l, TryMapOutcome (Edge.verify crypto) l (tryMap l)) :
    ∃ s₁, s.loadComponents base cutoff nodeId (Edge.deduplicate edges) = some s₁ ∧ s.Loads s₁ ∧
      s.addEdges base cutoff nodeId edges tryMap = some (s₁, [], true) ∧
      ((∀ e ∈ edges, ∀ p ∈ [e.key.1, e.key.2],
        p = nodeId ∨ (s.peerReachableAt p).isSome ∨ s.store.peerComponent p = none) → s₁ = s) := by
  obtain ⟨s₁, hload, -, hloads⟩ := h.inv.loadComponents cutoff (Edge.deduplicate edges)
  have hnil : s₁.toInner.addEdgesCandidates edges = [] := by
    rw [Inner.addEdgesCandidates, List.filter_eq_nil_iff]
    intro e he
    simp [hloads.grows.has_of_has (hknown e ((Edge.deduplicate_spec edges).2.1 e he))]
  obtain ⟨hok, hperm⟩ := (htry []).ok_of_forall fun _ he => absurd he List.not_mem_nil
  have hverified : (tryMap []).1 = [] := hperm.eq_nil
  refine ⟨s₁, hload, hloads, ?_, fun hends => ?_⟩
  · rw [addEdges_of_loadComponents hload, hnil, hverified, hok]
    rfl
  · have hsame : s.loadComponents base cutoff nodeId (Edge.deduplicate edges) = some s :=
      loadComponents_of_unmapped cutoff (Edge.deduplicate edges)
        fun e he => hends e ((Edge.deduplicate_spec edges).2.1 e he)
    rw [hload] at hsame
    exact Option.some.inj hsame

/-- Re-sending the known removed edge `(1, 2)` at the end of the run loads component `2`, as the
comment of `load_component` has it: `(0, 2)` comes back although no edge of the batch is new. -/
theorem Reachable.addEdges_of_known_reload : ∃ s₁, docState6.loadComponents unixUtc none 0
      (Edge.deduplicate [removedEdge 1 2 2]) = some s₁ ∧ docState6.Loads s₁ ∧
    docState6.addEdges unixUtc none 0 [removedEdge 1 2 2]
      (tryMapSequential (Edge.verify namedCrypto)) = some (s₁, [], true) ∧
    ((∀ e ∈ [removedEdge 1 2 2], ∀ p ∈ [e.key.1, e.key.2], p = 0 ∨
      (docState6.peerReachableAt p).isSome ∨ docState6.store.peerComponent p = none) →
        s₁ = docState6) ∧
    docState6.edges.get (0, 2) = none ∧ s₁.edges.get (0, 2) = some (removedEdge 0 2 2) := by
  obtain ⟨-, -, -, -, -, -, -, -, -, -, -, -, hknown, hbefore, hreload, -⟩ := docRun_spec
  have hknown' : ∀ e ∈ [removedEdge 1 2 2], has docState6.edges e = true := by simpa using hknown
  obtain ⟨s₁, hload, hloads, hadd, hsame⟩ := Reachable.addEdges_of_known docState6_reachable none
    hknown' _ (tryMapOutcome_sequential _)
  refine ⟨s₁, hload, hloads, hadd, hsame, hbefore, ?_⟩
  rw [Edge.deduplicate_singleton] at hload
  rw [hload, Option.map_some] at hreload
  exact Option.some.inj hreload

end Stored

end Results

end Nearcore.Routing
