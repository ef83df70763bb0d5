import Mathlib.Data.List.AList
import Nearcore.RoutingInner
import Nearcore.RoutingDistance

/-!
# `Inner::update`

`Inner::update` recomputes the routing table in three steps: it prunes the edges older than
`prune_edges_after`, runs `calculate_distance` on the graph that is left and records `now` for
the node and every peer the search reached, and then drops the peers not reachable since
`now - prune_unreachable_peers_after` together with every edge at one of them. The snapshot it
returns holds the edges, the edges at the node under their other ends, and the next hops.

`Tracked` adds the `peer_reachable_at` map to `Inner`; the config comes in as arguments.  The
store, where `prune_unreachable_peers` puts what it prunes (`push_component`), is added in
`RoutingComponents`, whose `Stored.update_refines` shows that it changes nothing else.  Each loop
over the map takes its values in the order `order` gives, which may be any enumeration of them.
-/

namespace Nearcore.Routing

variable {P S : Type}

/-- `Edge::other`: the end of the edge that is not `me`, when `me` is one of its ends. -/
def Edge.other [DecidableEq P] (e : Edge P S) (me : P) : Option P :=
  if e.key.1 = me then some e.key.2 else if e.key.2 = me then some e.key.1 else none

/-- `Inner` with its `peer_reachable_at` map. -/
structure Tracked (P S Instant : Type) extends Inner P S where
  peerReachableAt : P → Option Instant

/-- The `GraphSnapshot` that `Inner::update` returns. -/
structure GraphSnapshot (P S : Type) where
  edges : EdgeMap P S
  localEdges : AList fun _ : P => Edge P S
  nextHops : List (P × List P)

section Defs

variable [DecidableEq P] {Utc Instant : Type} [LinearOrder Utc] [LinearOrder Instant]

/-- The test of `prune_unreachable_peers`: no time is recorded for the peer, or one before
`unreachableSince`. -/
def notReachedSince (reach : P → Option Instant) (unreachableSince : Instant) (p : P) : Bool :=
  (reach p).elim true fun t => decide (t < unreachableSince)

/-- The peers `prune_unreachable_peers` selects, the map's keys taken in the order `keys`. -/
def unreachablePeers (reach : P → Option Instant) (unreachableSince : Instant)
    (keys : List (P × P)) : List P :=
  (keys.flatMap fun k => [k.1, k.2]).filter (notReachedSince reach unreachableSince)

/-- `peer_reachable_at` once `Inner::update` has recorded `now` for the node and for every
peer of `next_hops`. -/
def markReached (reach : P → Option Instant) (nodeId : P) (nextHops : List (P × List P))
    (now : Instant) (p : P) : Option Instant :=
  if p = nodeId ∨ p ∈ nextHops.map Prod.fst then some now else reach p

/-- One edge of the loop that builds `local_edges`. -/
def localEdgesStep (nodeId : P) (acc : AList fun _ : P => Edge P S) (e : Edge P S) :
    AList fun _ : P => Edge P S :=
  match e.other nodeId with
  | some other => acc.insert other e
  | none => acc

/-- The `local_edges` of `Inner::update`, over the map's values in the order `values`. -/
def localEdges (nodeId : P) (values : List (Edge P S)) : AList fun _ : P => Edge P S :=
  values.foldl (localEdgesStep nodeId) ∅

/-- The first step of `Inner::update`: `prune_old_edges(now - prune_edges_after)` when
`prune_edges_after` is configured, `pruneCutoff` standing for that time. -/
def Inner.pruneExpiredEdges (base : UtcBase Utc) (pruneCutoff : Option Utc) (s : Inner P S)
    (values : List (Edge P S)) : Option (Inner P S) :=
  match pruneCutoff with
  | some t => s.pruneOldEdges base t values
  | none => some s

namespace Tracked

/-- `Inner::prune_unreachable_peers`, over the map's keys and values in the order `values`. -/
def pruneUnreachablePeers (s : Tracked P S Instant) (unreachableSince : Instant)
    (values : List (Edge P S)) : Option (Tracked P S Instant) :=
  let peers := unreachablePeers s.peerReachableAt unreachableSince (values.map Edge.key)
  if peers.isEmpty then some s
  else do
    let (inner, _) ← s.toInner.removeAdjacentEdges peers values
    pure ⟨inner, fun p => if peers.contains p then none else s.peerReachableAt p⟩

/-- The pruning step of `Inner::update`, when `now.checked_sub(prune_unreachable_peers_after)`
gives the time `unreachableSince`. -/
def pruneUnreachable (s : Tracked P S Instant) (unreachableSince : Option Instant)
    (values : List (Edge P S)) : Option (Tracked P S Instant) :=
  match unreachableSince with
  | some since => s.pruneUnreachablePeers since values
  | none => some s

/-- `Inner::update`; `pruneCutoff` is `now_utc - prune_edges_after` and `unreachableSince` is
`now.checked_sub(prune_unreachable_peers_after)`. -/
def update (base : UtcBase Utc) (order : EdgeMap P S → List (Edge P S)) (nodeId : P)
    (pruneCutoff : Option Utc) (now : Instant) (unreachableSince : Option Instant)
    (unreliablePeers : List P) (s : Tracked P S Instant) :
    Option (Tracked P S Instant × GraphSnapshot P S) := do
  let inner ← s.toInner.pruneExpiredEdges base pruneCutoff (order s.edges)
  let nextHops ← inner.graph.calculateDistance unreliablePeers
  let s : Tracked P S Instant := ⟨inner, markReached s.peerReachableAt nodeId nextHops now⟩
  let s ← s.pruneUnreachable unreachableSince (order s.edges)
  pure (s, ⟨s.edges, localEdges nodeId (order s.edges), nextHops⟩)

end Tracked

end Defs

section Invariant

variable [LinearOrder P] {Utc Instant : Type} [LinearOrder Utc] [LinearOrder Instant]
  {base : UtcBase Utc} {source : P}

omit [LinearOrder P] in
theorem mem_unreachablePeers {reach : P → Option Instant} {since : Instant} {keys : List (P × P)}
    {p : P} : p ∈ unreachablePeers reach since keys ↔
      (∃ k ∈ keys, p = k.1 ∨ p = k.2) ∧ notReachedSince reach since p = true := by
  simp [unreachablePeers]

/-- Once `now` is recorded for them, the node and the peers just reached pass the test of
`prune_unreachable_peers` for every time up to `now`. -/
theorem notReachedSince_markReached_eq_false {reach : P → Option Instant} {nodeId : P}
    {nextHops : List (P × List P)} {now t : Instant} (ht : t ≤ now) (p : P) :
    notReachedSince (markReached reach nodeId nextHops now) t p = false ↔
      p = nodeId ∨ p ∈ nextHops.map Prod.fst ∨ ∃ u, reach p = some u ∧ t ≤ u := by
  unfold notReachedSince markReached
  by_cases hp : p = nodeId ∨ p ∈ nextHops.map Prod.fst
  · have hnow : decide (now < t) = false := decide_eq_false (not_lt.mpr ht)
    rw [if_pos hp, Option.elim_some, hnow]
    exact iff_of_true rfl (hp.elim Or.inl fun h => Or.inr (Or.inl h))
  · rw [if_neg hp]
    cases hr : reach p with
    | none => simpa using hp
    | some u => simp [not_or.mp hp, not_lt]

theorem Inner.Reachable.pruneExpiredEdges_spec {s : Inner P S}
    (h : Inner.Reachable base source s) (pruneCutoff : Option Utc) {values : List (Edge P S)}
    (hperm : values.Perm s.edges.entries) :
    ∃ s', s.pruneExpiredEdges base pruneCutoff values = some s' ∧
      Inner.Reachable base source s' ∧
      s'.edges.entries =
        s.edges.entries.filter fun e => !pruneCutoff.any (e.isEdgeOlderThan base) := by
  cases pruneCutoff with
  | none => exact ⟨s, rfl, h, by simp⟩
  | some t =>
      obtain ⟨s', hcall, -, hedges⟩ := h.inv.pruneOldEdges_spec base t values
      refine ⟨s', hcall, Inner.Reachable.pruneOldEdges h hperm hcall, ?_⟩
      rw [hedges, foldl_erase_entries_of_perm _ hperm]
      rfl

namespace Tracked

variable {s : Tracked P S Instant}

/-- `prune_unreachable_peers` from a reachable state, over any enumeration of the map: it keeps
the edges whose ends both pass its test and forgets only peers that fail it. -/
theorem pruneUnreachablePeers_spec (h : Inner.Reachable base source s.toInner)
    (since : Instant) {values : List (Edge P S)} (hperm : values.Perm s.edges.entries) :
    ∃ s', s.pruneUnreachablePeers since values = some s' ∧
      Inner.Reachable base source s'.toInner ∧
      s'.edges.entries = s.edges.entries.filter (fun e =>
        !(notReachedSince s.peerReachableAt since e.key.1 ||
          notReachedSince s.peerReachableAt since e.key.2)) ∧
      ∀ p, notReachedSince s.peerReachableAt since p = false →
        s'.peerReachableAt p = s.peerReachableAt p := by
  obtain ⟨peers, hpeers⟩ :
      ∃ peers, unreachablePeers s.peerReachableAt since (values.map Edge.key) = peers := ⟨_, rfl⟩
  have hsel : ∀ e ∈ s.edges.entries, ∀ p, p = e.key.1 ∨ p = e.key.2 →
      peers.contains p = notReachedSince s.peerReachableAt since p := by
    intro e he p hp
    rw [Bool.eq_iff_iff, List.contains_iff_mem, ← hpeers, mem_unreachablePeers]
    exact ⟨fun hsel => hsel.2,
      fun hn => ⟨⟨e.key, List.mem_map_of_mem (hperm.mem_iff.mpr he), hp⟩, hn⟩⟩
  by_cases hempty : peers.isEmpty
  · -- no peer fails the test, so nothing is pruned
    refine ⟨s, by simp [pruneUnreachablePeers, hpeers, hempty], h, ?_, fun _ _ => rfl⟩
    refine (List.filter_eq_self.mpr fun e he => ?_).symm
    rw [← hsel e he _ (.inl rfl), ← hsel e he _ (.inr rfl), List.isEmpty_iff.mp hempty]
    rfl
  · obtain ⟨inner, hcall, -, hedges⟩ := h.inv.removeAdjacentEdges_spec peers values
    refine ⟨⟨inner, fun p => if peers.contains p then none else s.peerReachableAt p⟩,
      by simp [pruneUnreachablePeers, hpeers, hempty, hcall],
      Inner.Reachable.removeAdjacentEdges h hperm hcall, ?_, fun p hp => ?_⟩
    · rw [hedges, foldl_erase_entries_of_perm _ hperm]
      apply List.filter_congr
      intro e he
      rw [hsel e he _ (.inl rfl), hsel e he _ (.inr rfl)]
    · have hnot : p ∉ peers := by
        rw [← hpeers, mem_unreachablePeers, hp]
        exact fun hc => Bool.false_ne_true hc.2
      simp [hnot]

theorem pruneUnreachable_spec (h : Inner.Reachable base source s.toInner)
    (unreachableSince : Option Instant) {values : List (Edge P S)}
    (hperm : values.Perm s.edges.entries) :
    ∃ s', s.pruneUnreachable unreachableSince values = some s' ∧
      Inner.Reachable base source s'.toInner ∧
      (∀ e, e ∈ s'.edges.entries ↔ e ∈ s.edges.entries ∧ ∀ t ∈ unreachableSince,
        notReachedSince s.peerReachableAt t e.key.1 = false ∧
          notReachedSince s.peerReachableAt t e.key.2 = false) ∧
      ∀ p, (∀ t ∈ unreachableSince, notReachedSince s.peerReachableAt t p = false) →
        s'.peerReachableAt p = s.peerReachableAt p := by
  cases unreachableSince with
  | none => exact ⟨s, rfl, h, by simp, fun _ _ => rfl⟩
  | some since =>
      obtain ⟨s', hcall, hs', hentries, hreach⟩ := pruneUnreachablePeers_spec h since hperm
      refine ⟨s', hcall, hs', fun e => ?_, fun p hp => hreach p (hp since rfl)⟩
      rw [hentries, List.mem_filter]
      simp

end Tracked

/-! ### `local_edges` -/

/-- The loop that builds `local_edges` keeps, under a peer, the value whose other end it is:
with one such value at most, whatever the order of the values. -/
theorem lookup_foldl_localEdgesStep (nodeId o : P) :
    ∀ (values : List (Edge P S)) (acc : AList fun _ : P => Edge P S), values.Nodup →
      (∀ e ∈ values, ∀ e' ∈ values, e.other nodeId = some o → e'.other nodeId = some o →
        e = e') →
      (values.foldl (localEdgesStep nodeId) acc).lookup o =
        (values.find? fun e => e.other nodeId = some o).or (acc.lookup o)
  | [], acc, _, _ => by simp
  | e :: values, acc, hnodup, huniq => by
      obtain ⟨hnotin, hnodup⟩ := List.nodup_cons.mp hnodup
      rw [List.foldl_cons, lookup_foldl_localEdgesStep nodeId o values _ hnodup
        fun e₁ h₁ e₂ h₂ => huniq e₁ (List.mem_cons_of_mem e h₁) e₂ (List.mem_cons_of_mem e h₂)]
      cases hother : e.other nodeId with
      | none => simp [localEdgesStep, hother]
      | some o' =>
          by_cases ho : o' = o
          · subst ho
            have hnone : values.find? (fun e => e.other nodeId = some o') = none := by
              rw [List.find?_eq_none]
              intro e' he' hpe'
              have hee : e' = e :=
                huniq e' (List.mem_cons_of_mem e he') e List.mem_cons_self (by simpa using hpe')
                  hother
              exact hnotin (hee ▸ he')
            simp [localEdgesStep, hother, hnone]
          · simp [localEdgesStep, hother, ho, AList.lookup_insert_ne (Ne.symm ho)]

theorem key_eq_of_other_eq {e : Edge P S} {nodeId o : P} (hk : e.key.1 < e.key.2)
    (he : e.other nodeId = some o) : e.key = (min nodeId o, max nodeId o) := by
  unfold Edge.other at he
  split_ifs at he with h1 h2
  · obtain rfl := Option.some.inj he
    rw [← h1, min_eq_left hk.le, max_eq_right hk.le]
  · obtain rfl := Option.some.inj he
    rw [← h2, min_eq_right hk.le, max_eq_left hk.le]

/-- Over any enumeration of a map whose keys are in order, `local_edges` holds under each peer
the stored edge between it and the node. -/
theorem lookup_localEdges {m : EdgeMap P S} (hm : KeysOrdered m) {values : List (Edge P S)}
    (hperm : values.Perm m.entries) (nodeId o : P) (e : Edge P S) :
    (localEdges nodeId values).lookup o = some e ↔ e ∈ m.entries ∧ e.other nodeId = some o := by
  have hnodup : values.Nodup := hperm.nodup_iff.mpr (List.Nodup.of_map Edge.key m.nodup_keys)
  have huniq : ∀ e ∈ values, ∀ e' ∈ values, e.other nodeId = some o →
      e'.other nodeId = some o → e = e' := by
    intro e he e' he' ho ho'
    have he := hperm.mem_iff.mp he
    have he' := hperm.mem_iff.mp he'
    exact List.inj_on_of_nodup_map m.nodup_keys he he'
      ((key_eq_of_other_eq (hm e he) ho).trans (key_eq_of_other_eq (hm e' he') ho').symm)
  rw [localEdges, lookup_foldl_localEdgesStep nodeId o values ∅ hnodup huniq, AList.lookup_empty,
    Option.or_none]
  constructor
  · intro hfind
    exact ⟨hperm.mem_iff.mp (List.mem_of_find?_eq_some hfind),
      by simpa using List.find?_some hfind⟩
  · rintro ⟨he, ho⟩
    obtain ⟨e', he'⟩ : ∃ e', values.find? (fun e => e.other nodeId = some o) = some e' :=
      Option.isSome_iff_exists.mp
        (List.find?_isSome.mpr ⟨e, hperm.mem_iff.mpr he, by simpa using ho⟩)
    rw [he', huniq e' (List.mem_of_find?_eq_some he') e (hperm.mem_iff.mpr he)
      (by simpa using List.find?_some he') ho]

/-! ### `Inner::update` -/

namespace Tracked

variable {s : Tracked P S Instant} {nodeId : P}

/-- `Inner::update` from every reachable state, over any enumeration of the map at each of its
loops, with `unreachableSince` not after `now`: it never panics and the state stays reachable;
the next hops are those `calculate_distance` finds in the graph of the edges not older than the
horizon; of these edges it keeps exactly those whose two ends are each the node, a peer just
reached, or a peer recorded as reached since `unreachableSince`; the node and every peer reached
are recorded at `now`; and `local_edges` holds under each peer the kept edge between it and the
node. -/
theorem update_spec (h : Inner.Reachable base nodeId s.toInner)
    {order : EdgeMap P S → List (Edge P S)} (horder : ∀ m, (order m).Perm m.entries)
    (pruneCutoff : Option Utc) (now : Instant) {unreachableSince : Option Instant}
    (hsince : ∀ t ∈ unreachableSince, t ≤ now) (unreliablePeers : List P) :
    ∃ s' snap, s.update base order nodeId pruneCutoff now unreachableSince unreliablePeers =
        some (s', snap) ∧ Inner.Reachable base nodeId s'.toInner ∧ snap.edges = s'.edges ∧
      (∃ g : Inner P S, Inner.Reachable base nodeId g ∧
        g.edges.entries =
          s.edges.entries.filter (fun e => !pruneCutoff.any (e.isEdgeOlderThan base)) ∧
        g.graph.calculateDistance unreliablePeers = some snap.nextHops) ∧
      (∀ e, e ∈ s'.edges.entries ↔ e ∈ s.edges.entries ∧
        pruneCutoff.any (e.isEdgeOlderThan base) = false ∧
        ∀ t ∈ unreachableSince, ∀ p ∈ [e.key.1, e.key.2], p = nodeId ∨
          p ∈ snap.nextHops.map Prod.fst ∨ ∃ u, s.peerReachableAt p = some u ∧ t ≤ u) ∧
      (∀ p, p = nodeId ∨ p ∈ snap.nextHops.map Prod.fst → s'.peerReachableAt p = some now) ∧
      ∀ o e, snap.localEdges.lookup o = some e ↔
        e ∈ s'.edges.entries ∧ e.other nodeId = some o := by
  obtain ⟨inner, hprune, hinner, hentries⟩ :=
    h.pruneExpiredEdges_spec pruneCutoff (horder s.edges)
  obtain ⟨nextHops, hhops⟩ : ∃ M, inner.graph.calculateDistance unreliablePeers = some M :=
    ⟨_, hinner.inv.graph_inv.toCore.calculateDistance_eq unreliablePeers⟩
  obtain ⟨s', hprune', hs', hentries', hreach'⟩ :=
    pruneUnreachable_spec (s := ⟨inner, markReached s.peerReachableAt nodeId nextHops now⟩)
      hinner unreachableSince (horder inner.edges)
  have hrecent : ∀ t ∈ unreachableSince, ∀ p,
      notReachedSince (markReached s.peerReachableAt nodeId nextHops now) t p = false ↔
        p = nodeId ∨ p ∈ nextHops.map Prod.fst ∨ ∃ u, s.peerReachableAt p = some u ∧ t ≤ u :=
    fun t ht p => notReachedSince_markReached_eq_false (hsince t ht) p
  refine ⟨s', ⟨s'.edges, localEdges nodeId (order s'.edges), nextHops⟩, ?_, hs', rfl,
    ⟨inner, hinner, hentries, hhops⟩, fun e => ?_, fun p hp => ?_,
    fun o e => lookup_localEdges hs'.inv.keysOrdered (horder s'.edges) nodeId o e⟩
  · simp [update, hprune, hhops, hprune']
  · rw [hentries', hentries, List.mem_filter, Bool.not_eq_true', and_assoc]
    refine and_congr_right fun _ => and_congr_right fun _ => forall₂_congr fun t ht => ?_
    rw [hrecent t ht, hrecent t ht]
    simp
  · rw [hreach' p fun t ht => (hrecent t ht p).mpr (hp.elim Or.inl fun h => Or.inr (Or.inl h))]
    exact if_pos hp

/-- The one-edge state with nothing recorded as reached, updated at time `10` with peers reached
since `5` kept and the map taken in its own order. -/
theorem update_spec_single : ∃ s : Inner ℕ Unit, s.edges.entries = [⟨(0, 1), 1, (), (), none⟩] ∧
    ∃ s' snap, (⟨s, fun _ => none⟩ : Tracked ℕ Unit ℕ).update unixUtc EdgeMap.entries 0 (some 0) 10
        (some 5) [] = some (s', snap) ∧ Inner.Reachable unixUtc 0 s'.toInner ∧
      snap.edges = s'.edges ∧
      (∃ g : Inner ℕ Unit, Inner.Reachable unixUtc 0 g ∧
        g.edges.entries = s.edges.entries.filter
          (fun e => !(some (0 : ℤ)).any (e.isEdgeOlderThan unixUtc)) ∧
        g.graph.calculateDistance [] = some snap.nextHops) ∧
      (∀ e, e ∈ s'.edges.entries ↔ e ∈ s.edges.entries ∧
        (some (0 : ℤ)).any (e.isEdgeOlderThan unixUtc) = false ∧
        ∀ t ∈ some 5, ∀ p ∈ [e.key.1, e.key.2], p = 0 ∨
          p ∈ snap.nextHops.map Prod.fst ∨ ∃ u, (fun _ => none : ℕ → Option ℕ) p = some u ∧
            t ≤ u) ∧
      (∀ p, p = 0 ∨ p ∈ snap.nextHops.map Prod.fst → s'.peerReachableAt p = some 10) ∧
      ∀ o e, snap.localEdges.lookup o = some e ↔ e ∈ s'.edges.entries ∧ e.other 0 = some o := by
  obtain ⟨s, h, hentries⟩ := Inner.exists_reachable_single
  have hsince : ∀ t ∈ some 5, t ≤ 10 := by
    intro t ht
    rw [Option.mem_def, Option.some.injEq] at ht
    omega
  exact ⟨s, hentries, update_spec (s := ⟨s, fun _ => none⟩) h (fun m => List.Perm.refl _)
    (some 0) 10 hsince []⟩

end Tracked

end Invariant

end Nearcore.Routing
