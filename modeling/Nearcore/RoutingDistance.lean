import Nearcore.RoutingGraph
import Nearcore.Bfs

/-!
# Next hops: `Graph::calculate_distance` and `Graph::compute_result`

`calculate_distance` runs a breadth-first search from the source over the id graph: the first
`MAX_TIER2_PEERS` neighbours of the source start at distance one, each routed through itself
(bit `id` of its `u128` route), and are queued unless unreliable; then every popped peer gives
each undiscovered neighbour the next distance, queues it, and ors its route into every
neighbour one step further.  `compute_result` turns the routes into a map from each peer
reached, the source excepted, to the first-hop peers its bits name.

This is the search `Graph.search` of the library `Bfs`: the locals of the source loop stand for
the library's state (`Represents`), and each visit, pop and run of the source is one of the
library's.  So (`calculateDistance_spec`), on a consistent graph, `calculate_distance` does not
panic, and it maps exactly the peers reached to the peers among the first `MAX_TIER2_PEERS`
neighbours of the source that start a shortest walk to them, in the order of the source's
list, where a walk leaves neither the source nor an unreliable one of those neighbours.

Distances are integers (the `i32` stays below the number of peers), routes natural numbers (the
`u128` holds bits below `MAX_TIER2_PEERS` only), and the `while let` loop has one unit of fuel
per peer, which it never runs out of.  The count of unreachable peers, read only for a log
line, is left out.
-/

namespace Nat

theorem testBit_one_shiftLeft (i k : ℕ) : (1 <<< i).testBit k = decide (i = k) := by
  rw [Nat.one_shiftLeft, Nat.testBit_two_pow]

theorem and_one_shiftLeft_ne_zero_iff (r k : ℕ) : r &&& 1 <<< k ≠ 0 ↔ r.testBit k = true := by
  constructor
  · intro hne
    by_contra hk
    apply hne
    apply Nat.eq_of_testBit_eq
    intro j
    rw [Nat.testBit_and, testBit_one_shiftLeft, Nat.zero_testBit]
    by_cases hj : k = j
    · subst hj
      simpa using hk
    · simp [hj]
  · intro hk hzero
    have hbit := congrArg (·.testBit k) hzero
    simp only [Nat.testBit_and, testBit_one_shiftLeft, hk, Nat.zero_testBit] at hbit
    simp at hbit

end Nat

namespace Nearcore.Routing

namespace Graph

variable {P : Type}

/-- `MAX_TIER2_PEERS`. -/
def MAX_TIER2_PEERS : ℕ := 128

/-- The locals `queue`, `distance` and `routes` of `calculate_distance`. -/
structure Locals where
  queue : List ℕ
  distance : List Int
  routes : List ℕ

/-- One neighbour `neighbor` of the popped `cur_peer`, at distance `curDistance`, in the loop
of `calculate_distance`. -/
def visitNeighbor (curPeer : ℕ) (curDistance : Int) (l : Locals) (neighbor : ℕ) :
    Option Locals := do
  let d ← l.distance[neighbor]?
  let l : Locals :=
    if d = -1 then ⟨l.queue ++ [neighbor], l.distance.set neighbor (curDistance + 1), l.routes⟩
    else l
  let d ← l.distance[neighbor]?
  if d = curDistance + 1 then
    let route ← l.routes[neighbor]?
    let curRoute ← l.routes[curPeer]?
    pure ⟨l.queue, l.distance, l.routes.set neighbor (route ||| curRoute)⟩
  else pure l

/-- The `while let Some(cur_peer) = queue.pop_front()` loop of `calculate_distance`. -/
def bfsLoop (g : Graph P) : ℕ → Locals → Option Locals
  | 0, l => if l.queue = [] then some l else none
  | fuel + 1, l =>
      match l.queue with
      | [] => some l
      | curPeer :: queue => do
          let curDistance ← l.distance[curPeer]?
          let neighbors ← g.adjacency[curPeer]?
          let l ← neighbors.foldlM (visitNeighbor curPeer curDistance)
            ⟨queue, l.distance, l.routes⟩
          g.bfsLoop fuel l

/-- One neighbour `entry = (neighbor, id)` of the source in the first loop of
`calculate_distance`. -/
def seedNeighbor (unreliable : List ℕ) (l : Locals) (entry : ℕ × ℕ) : Option Locals :=
  if entry.1 < l.distance.length ∧ entry.1 < l.routes.length then
    some ⟨if unreliable.contains entry.1 then l.queue else l.queue ++ [entry.1],
      l.distance.set entry.1 1, l.routes.set entry.1 (1 <<< entry.2)⟩
  else none

/-- The `peer_set` of `compute_result`: the first `MAX_TIER2_PEERS` neighbours of the source
whose bit is set in `curRoute`. -/
def peerSet (g : Graph P) (neighbors : List ℕ) (curRoute : ℕ) : Option (List P) :=
  ((neighbors.take MAX_TIER2_PEERS).zipIdx.filter fun e => curRoute &&& 1 <<< e.2 != 0).mapM
    fun e => g.id2p[e.1]?

/-- One route `entry = (cur_route, key)` in the loop of `compute_result`. -/
def resultEntry (g : Graph P) (neighbors : List ℕ) (distance : List Int)
    (res : List (P × List P)) (entry : ℕ × ℕ) : Option (List (P × List P)) := do
  let d ← distance[entry.2]?
  if entry.2 = g.sourceId ∨ d = -1 ∨ entry.1 = 0 then pure res
  else
    let used ← g.used[entry.2]?
    if !used then pure res
    else
      let peers ← g.peerSet neighbors entry.1
      let peer ← g.id2p[entry.2]?
      pure (res ++ [(peer, peers)])

/-- `Graph::compute_result`, its `HashMap` as the list of its entries in the order of their ids. -/
def computeResult (g : Graph P) (routes : List ℕ) (distance : List Int) :
    Option (List (P × List P)) := do
  let neighbors ← g.adjacency[g.sourceId]?
  routes.zipIdx.foldlM (g.resultEntry neighbors distance) []

/-- `Graph::calculate_distance`, the peers of `unreliable_peers` as a list. -/
def calculateDistance (g : Graph P) (unreliablePeers : List P) : Option (List (P × List P)) := do
  let unreliable := unreliablePeers.filterMap g.p2id
  let nodes := g.id2p.length
  if g.sourceId < nodes then
    let neighbors ← g.adjacency[g.sourceId]?
    let l ← ((neighbors.take MAX_TIER2_PEERS).zipIdx).foldlM (seedNeighbor unreliable)
      ⟨[], (List.replicate nodes (-1)).set g.sourceId 0, List.replicate nodes 0⟩
    let l ← g.bfsLoop nodes l
    g.computeResult l.routes l.distance
  else none

/-! ## The search it performs -/

/-- The first `MAX_TIER2_PEERS` neighbours of the source. -/
def firstNeighbors (g : Graph P) : List ℕ := (g.nbrs g.sourceId).take MAX_TIER2_PEERS

/-- The search of `calculate_distance`: the source at layer zero and its first neighbours at
layer one, each labelled with its index; every peer is expanded but the source and the
unreliable ones among those neighbours. -/
def search (g : Graph P) (unreliable : List ℕ) : Bfs.Search ℕ ℕ where
  succ := g.nbrs
  expand v := v ≠ g.sourceId ∧ (v ∈ g.firstNeighbors → v ∉ unreliable)
  seed v := if v = g.sourceId then some 0 else if v ∈ g.firstNeighbors then some 1 else none
  init v := {k | g.firstNeighbors[k]? = some v}

/-- The distance a search layer is stored as: `-1` for a peer not reached. -/
def encode : Option ℕ → Int
  | none => -1
  | some d => d

/-- The locals stand for the search's state over the ids below `n`. -/
structure Represents (n : ℕ) (l : Locals) (s : Bfs.State ℕ ℕ) : Prop where
  queue_eq : l.queue = s.queue
  lt_of_mem : ∀ q ∈ s.queue, q < n
  length_distance : l.distance.length = n
  length_routes : l.routes.length = n
  distance_eq : ∀ v < n, l.distance[v]? = some (encode (s.dist v))
  testBit_routes : ∀ v < n, ∀ k, (l.routes[v]?.getD 0).testBit k = true ↔ k ∈ s.label v

namespace Represents

variable {n : ℕ} {l : Locals} {s : Bfs.State ℕ ℕ}

theorem exists_routes_getElem? (h : Represents n l s) {v : ℕ} (hv : v < n) :
    ∃ r, l.routes[v]? = some r :=
  ⟨_, List.getElem?_eq_getElem (h.length_routes ▸ hv)⟩

theorem discover (h : Represents n l s) {v : ℕ} (hv : v < n) (d : ℕ) :
    Represents n ⟨l.queue ++ [v], l.distance.set v ((d : Int) + 1), l.routes⟩
      ⟨s.queue ++ [v], Function.update s.dist v (some (d + 1)), s.label⟩ where
  queue_eq := by rw [h.queue_eq]
  lt_of_mem := by
    intro q hq
    rcases List.mem_append.mp hq with hq | hq
    · exact h.lt_of_mem q hq
    · rw [List.mem_singleton.mp hq]
      exact hv
  length_distance := by rw [List.length_set, h.length_distance]
  length_routes := h.length_routes
  distance_eq := by
    intro w hw
    dsimp only
    rw [List.getElem?_set, Function.update_apply]
    by_cases hwv : w = v
    · subst hwv
      simp [h.length_distance, hw, encode]
    · rw [if_neg (Ne.symm hwv), if_neg hwv]
      exact h.distance_eq w hw
  testBit_routes := h.testBit_routes

theorem join (h : Represents n l s) {cur v : ℕ} (hcur : cur < n) (hv : v < n) {rv rc : ℕ}
    (hrv : l.routes[v]? = some rv) (hrc : l.routes[cur]? = some rc) :
    Represents n ⟨l.queue, l.distance, l.routes.set v (rv ||| rc)⟩
      ⟨s.queue, s.dist, Function.update s.label v (s.label v ∪ s.label cur)⟩ where
  queue_eq := h.queue_eq
  lt_of_mem := h.lt_of_mem
  length_distance := h.length_distance
  length_routes := by rw [List.length_set, h.length_routes]
  distance_eq := h.distance_eq
  testBit_routes := by
    intro w hw k
    dsimp only
    rw [List.getElem?_set, Function.update_apply]
    by_cases hwv : w = v
    · subst hwv
      have hv' := h.testBit_routes w hw k
      have hcur' := h.testBit_routes cur hcur k
      rw [hrv, Option.getD_some] at hv'
      rw [hrc, Option.getD_some] at hcur'
      rw [if_pos rfl, if_pos rfl, if_pos (h.length_routes ▸ hw), Option.getD_some,
        Nat.testBit_or, Bool.or_eq_true, hv', hcur']
      rfl
    · rw [if_neg (Ne.symm hwv), if_neg hwv]
      exact h.testBit_routes w hw k

theorem pop (h : Represents n l s) {cur : ℕ} {rest : List ℕ} (hq : s.queue = cur :: rest) :
    Represents n ⟨rest, l.distance, l.routes⟩ ⟨rest, s.dist, s.label⟩ where
  queue_eq := rfl
  lt_of_mem q hmem := h.lt_of_mem q (hq ▸ List.mem_cons_of_mem cur hmem)
  length_distance := h.length_distance
  length_routes := h.length_routes
  distance_eq := h.distance_eq
  testBit_routes := h.testBit_routes

end Represents

/-- A visit of the source loop is a visit of the search. -/
theorem visitNeighbor_represents {n : ℕ} {l : Locals} {s : Bfs.State ℕ ℕ}
    (h : Represents n l s) {cur v : ℕ} (hcur : cur < n) (hv : v < n) (d : ℕ) :
    ∃ l', visitNeighbor cur d l v = some l' ∧ Represents n l' (Bfs.visit cur d s v) := by
  have hlen : v < l.distance.length := h.length_distance ▸ hv
  have hdist : l.distance[v] = encode (s.dist v) := by
    simpa [List.getElem?_eq_getElem hlen] using h.distance_eq v hv
  have hne : (d : Int) + 1 ≠ -1 := by omega
  obtain ⟨rv, hrv⟩ := h.exists_routes_getElem? hv
  obtain ⟨rc, hrc⟩ := h.exists_routes_getElem? hcur
  cases hsv : s.dist v with
  | none =>
      -- undiscovered: the neighbour gets distance `d + 1`, so its route takes `cur`'s
      refine ⟨⟨l.queue ++ [v], l.distance.set v ((d : Int) + 1), l.routes.set v (rv ||| rc)⟩,
        ?_, ?_⟩
      · rw [hsv] at hdist
        simp [visitNeighbor, hdist, encode, hlen, hrv, hrc]
      · have hvisit : Bfs.visit cur d s v = ⟨s.queue ++ [v],
            Function.update s.dist v (some (d + 1)),
            Function.update s.label v (s.label v ∪ s.label cur)⟩ := by
          simp [Bfs.visit, hsv]
        rw [hvisit]
        exact (h.discover hv d).join hcur hv hrv hrc
  | some x =>
      rw [hsv] at hdist
      by_cases hx : x = d + 1
      · -- one step further: the route takes `cur`'s
        subst hx
        refine ⟨⟨l.queue, l.distance, l.routes.set v (rv ||| rc)⟩, ?_, ?_⟩
        · simp [visitNeighbor, hdist, encode, hlen, hne, hrv, hrc]
        · have hvisit : Bfs.visit cur d s v = ⟨s.queue, s.dist,
              Function.update s.label v (s.label v ∪ s.label cur)⟩ := by
            simp [Bfs.visit, hsv]
          rw [hvisit]
          exact h.join hcur hv hrv hrc
      · refine ⟨l, ?_, ?_⟩
        · have hx1 : (x : Int) ≠ -1 := by omega
          have hx2 : (x : Int) ≠ (d : Int) + 1 := by omega
          simp [visitNeighbor, hdist, encode, hlen, hx1, hx2]
        · have hvisit : Bfs.visit cur d s v = s := by
            simp [Bfs.visit, hsv, hx]
          rw [hvisit]
          exact h

/-- The neighbour loop of a popped peer is the search's. -/
theorem foldlM_visitNeighbor_represents {n : ℕ} {l : Locals} {s : Bfs.State ℕ ℕ}
    (h : Represents n l s) {cur : ℕ} (hcur : cur < n) (d : ℕ) {L : List ℕ}
    (hL : ∀ v ∈ L, v < n) :
    ∃ l', L.foldlM (visitNeighbor cur d) l = some l' ∧
      Represents n l' (L.foldl (Bfs.visit cur d) s) :=
  List.foldlM_option_simulation (R := Represents n)
    (fun _ _ _ hv h => visitNeighbor_represents h hcur hv d) L hL h

section Core

variable {g : Graph P} {source : P}

namespace Core

theorem lt_of_mem_nbrs (hg : Core g source) {i j : ℕ} (h : j ∈ g.nbrs i) : j < g.id2p.length :=
  hg.lt_of_isUsed (hg.isUsed_of_mem_nbrs h)

theorem adjacency_getElem?_of_lt (hg : Core g source) {i : ℕ} (h : i < g.id2p.length) :
    g.adjacency[i]? = some (g.nbrs i) := by
  rw [nbrs, List.getElem?_eq_getElem (hg.length_adjacency ▸ h), Option.getD_some]

theorem sourceId_lt (hg : Core g source) : g.sourceId < g.id2p.length :=
  hg.sourceId_eq ▸ hg.lt_of_isUsed hg.isUsed_source

theorem used_getElem?_of_isUsed (hg : Core g source) {i : ℕ} (h : g.isUsed i = true) :
    g.used[i]? = some true := by
  rw [List.getElem?_eq_getElem (hg.length_used ▸ hg.lt_of_isUsed h)]
  rw [isUsed, List.getElem?_eq_getElem (hg.length_used ▸ hg.lt_of_isUsed h)] at h
  rw [← h]
  rfl

theorem firstNeighbors_nodup (hg : Core g source) : g.firstNeighbors.Nodup :=
  (hg.nbrs_nodup _).sublist (List.take_sublist _ _)

theorem lt_of_mem_firstNeighbors (hg : Core g source) {v : ℕ} (h : v ∈ g.firstNeighbors) :
    v < g.id2p.length :=
  hg.lt_of_mem_nbrs (List.mem_of_mem_take h)

theorem sourceId_notMem_firstNeighbors (hg : Core g source) : g.sourceId ∉ g.firstNeighbors :=
  fun h => hg.not_mem_nbrs_self _ (List.mem_of_mem_take h)

end Core

/-- Every run of the search is a run of the source loop, with the same fuel. -/
theorem bfsLoop_represents (hg : Core g source) :
    ∀ (fuel : ℕ) {l : Locals} {s s' : Bfs.State ℕ ℕ}, Represents g.id2p.length l s →
      Bfs.run g.nbrs fuel s = some s' →
      ∃ l', g.bfsLoop fuel l = some l' ∧ Represents g.id2p.length l' s'
  | fuel, l, s, s', h, hrun => by
      cases hq : s.queue with
      | nil =>
          have hs : Bfs.run g.nbrs fuel s = some s := by cases fuel <;> simp [Bfs.run, hq]
          rw [hs, Option.some.injEq] at hrun
          subst hrun
          refine ⟨l, ?_, h⟩
          cases fuel <;> simp [bfsLoop, h.queue_eq, hq]
      | cons cur rest =>
          cases fuel with
          | zero => simp [Bfs.run, hq] at hrun
          | succ fuel =>
              rw [Bfs.run, if_neg (by simp [hq])] at hrun
              have hcur : cur < g.id2p.length := h.lt_of_mem cur (hq ▸ List.mem_cons_self)
              cases hd : s.dist cur with
              | none => simp [Bfs.popStep, hq, hd] at hrun
              | some d =>
                  rw [Bfs.popStep_eq g.nbrs hq hd, Option.bind_some] at hrun
                  obtain ⟨l1, hfold, h1⟩ := foldlM_visitNeighbor_represents (h.pop hq) hcur d
                    (fun v hv => hg.lt_of_mem_nbrs hv)
                  obtain ⟨l', hloop, h'⟩ := bfsLoop_represents hg fuel h1 hrun
                  have hdist : l.distance[cur]? = some (d : Int) := by
                    rw [h.distance_eq cur hcur, hd]
                    rfl
                  refine ⟨l', ?_, h'⟩
                  simp only [bfsLoop, h.queue_eq, hq, hdist, hg.adjacency_getElem?_of_lt hcur,
                    Option.bind_eq_bind, Option.bind_some, hfold, hloop]

theorem seedNeighbor_eq (U : List ℕ) {l : Locals} {w : ℕ} (i : ℕ) (hd : w < l.distance.length)
    (hr : w < l.routes.length) :
    seedNeighbor U l (w, i) = some ⟨if U.contains w then l.queue else l.queue ++ [w],
      l.distance.set w 1, l.routes.set w (1 <<< i)⟩ :=
  if_pos ⟨hd, hr⟩

/-- The first loop of `calculate_distance` over neighbours `L` numbered from `i`: each gets
distance one and the route of its number, and is queued unless unreliable. -/
theorem foldlM_seedNeighbor (U : List ℕ) :
    ∀ (L : List ℕ) (i : ℕ) (l : Locals), L.Nodup → (∀ v ∈ L, v < l.distance.length) →
      l.routes.length = l.distance.length →
      ∃ l', (L.zipIdx i).foldlM (seedNeighbor U) l = some l' ∧
        l'.queue = l.queue ++ L.filter (fun v => !U.contains v) ∧
        l'.distance.length = l.distance.length ∧ l'.routes.length = l.distance.length ∧
        ∀ v, l'.distance[v]? = (if v ∈ L then some 1 else l.distance[v]?) ∧
          l'.routes[v]? = if v ∈ L then some (1 <<< (i + L.idxOf v)) else l.routes[v]?
  | [], _, l, _, _, hlen => ⟨l, rfl, by simp, rfl, hlen, fun v => by simp⟩
  | w :: L, i, l, hnd, hlt, hlen => by
      obtain ⟨hwL, hnd⟩ := List.nodup_cons.mp hnd
      have hw : w < l.distance.length := hlt w List.mem_cons_self
      obtain ⟨l', hfold, hq, hd, hr, hv⟩ := foldlM_seedNeighbor U L (i + 1)
        ⟨if U.contains w then l.queue else l.queue ++ [w], l.distance.set w 1,
          l.routes.set w (1 <<< i)⟩ hnd
        (fun v hv => by simpa using hlt v (List.mem_cons_of_mem w hv)) (by simp [hlen])
      refine ⟨l', ?_, ?_, by simpa using hd, by simpa using hr, fun v => ?_⟩
      · rw [List.zipIdx_cons, List.foldlM_cons, seedNeighbor_eq U i hw (hlen ▸ hw),
          Option.bind_eq_bind, Option.bind_some, hfold]
      · rw [hq, List.filter_cons]
        cases U.contains w <;> simp
      · obtain ⟨hdv, hrv⟩ := hv v
        rw [hdv, hrv]
        by_cases hvw : v = w
        · subst hvw
          simp [hwL, hw, hlen ▸ hw]
        · have hidx : (w :: L).idxOf v = L.idxOf v + 1 := List.idxOf_cons_ne L (Ne.symm hvw)
          simp only [List.mem_cons, hvw, false_or, hidx, List.getElem?_set_ne (Ne.symm hvw),
            true_and]
          rw [Nat.add_right_comm, Nat.add_assoc]

/-- The locals after the first loop stand for the start of the search. -/
theorem seed_represents (hg : Core g source) (U : List ℕ) :
    ∃ l, g.firstNeighbors.zipIdx.foldlM (seedNeighbor U)
        ⟨[], (List.replicate g.id2p.length (-1)).set g.sourceId 0,
          List.replicate g.id2p.length 0⟩ = some l ∧
      Represents g.id2p.length l ⟨g.firstNeighbors.filter (fun v => !U.contains v),
        (g.search U).seed, (g.search U).init⟩ := by
  obtain ⟨l, hfold, hq, hd, hr, hv⟩ := foldlM_seedNeighbor U g.firstNeighbors 0
    ⟨[], (List.replicate g.id2p.length (-1)).set g.sourceId 0, List.replicate g.id2p.length 0⟩
    hg.firstNeighbors_nodup (fun v hv => by simpa using hg.lt_of_mem_firstNeighbors hv) (by simp)
  refine ⟨l, hfold, ⟨by simpa using hq, ?_, by simpa using hd, by simpa using hr, ?_, ?_⟩⟩
  · intro q hmem
    exact hg.lt_of_mem_firstNeighbors (List.mem_of_mem_filter hmem)
  · -- a first neighbour, the source, or neither
    intro v hvn
    rw [(hv v).1]
    by_cases hvN : v ∈ g.firstNeighbors
    · have hvs : v ≠ g.sourceId := fun h => hg.sourceId_notMem_firstNeighbors (h ▸ hvN)
      simp [search, hvN, hvs, encode]
    · by_cases hvs : v = g.sourceId
      · subst hvs
        simp [search, hvN, encode, hvn]
      · simp [search, hvN, hvs, encode, hvn, Ne.symm hvs]
  · intro v hvn k
    rw [(hv v).2]
    by_cases hvN : v ∈ g.firstNeighbors
    · rw [if_pos hvN, Option.getD_some, Nat.zero_add, Nat.testBit_one_shiftLeft,
        decide_eq_true_iff]
      show _ ↔ g.firstNeighbors[k]? = some v
      rw [List.Nodup.getElem?_eq_some_iff_idxOf hg.firstNeighbors_nodup]
      exact ⟨fun h => ⟨hvN, h⟩, fun h => h.2⟩
    · have hk : g.firstNeighbors[k]? ≠ some v := fun h => hvN (List.mem_of_getElem? h)
      simp [search, hvN, hk, hvn]

theorem mem_firstNeighbors_of_seed {U : List ℕ} {v d : ℕ} (hs : (g.search U).seed v = some d)
    (hvs : v ≠ g.sourceId) : v ∈ g.firstNeighbors := by
  by_contra hvN
  simp [search, hvs, hvN] at hs

theorem init_nonempty {U : List ℕ} {v : ℕ} (hvN : v ∈ g.firstNeighbors) :
    ((g.search U).init v).Nonempty :=
  ⟨_, List.getElem?_idxOf hvN⟩

/-- The search starts as the source loop leaves it: the reliable first neighbours queued at
layer one. -/
theorem Core.seeded (hg : Core g source) (U : List ℕ) :
    (g.search U).Seeded (g.firstNeighbors.filter fun v => !U.contains v) 1 where
  nodup := hg.firstNeighbors_nodup.filter _
  seed_le v d hs := by
    simp only [search] at hs
    split_ifs at hs
    · cases hs
      exact Nat.zero_le 1
    · cases hs
      exact le_refl 1
  expand_iff v := by
    by_cases hvN : v ∈ g.firstNeighbors
    · have hvs : v ≠ g.sourceId := fun h => hg.sourceId_notMem_firstNeighbors (h ▸ hvN)
      simp [search, hvN, hvs]
    · simp [search, hvN]
  seed_of_mem v hv := by
    have hvN := List.mem_of_mem_filter hv
    have hvs : v ≠ g.sourceId := fun h => hg.sourceId_notMem_firstNeighbors (h ▸ hvN)
    simp [search, hvN, hvs]
  init_eq_empty v hs := by
    have hvN : v ∉ g.firstNeighbors := fun hvN => by
      have hvs : v ≠ g.sourceId := fun h => hg.sourceId_notMem_firstNeighbors (h ▸ hvN)
      simp [search, hvN, hvs] at hs
    rw [Set.eq_empty_iff_forall_notMem]
    exact fun k h => hvN (List.mem_of_getElem? h)

/-! ## From the locals to the result -/

theorem Core.isUsed_of_reach (hg : Core g source) {U : List ℕ} {d v : ℕ}
    (h : (g.search U).Reach d v) : g.isUsed v = true := by
  cases h with
  | seed hs =>
      by_cases hvs : v = g.sourceId
      · rw [hvs, hg.sourceId_eq]
        exact hg.isUsed_source
      · have hvN : v ∈ g.firstNeighbors := by
          by_contra hvN
          simp [search, hvs, hvN] at hs
        exact hg.isUsed_of_mem_nbrs (List.mem_of_mem_take hvN)
  | step _ _ hv => exact hg.isUsed_of_mem_nbrs hv

/-- A peer reached, the source apart, starts a least walk from some first neighbour: a first
neighbour that is reached is labelled with its own index. -/
theorem firstHops_nonempty {U : List ℕ} {v d : ℕ}
    (hv : (g.search U).dist v = some d) (hvs : v ≠ g.sourceId) :
    ((g.search U).firstHops v).Nonempty := by
  have hinit : ∀ w, (g.search U).expand w → (g.search U).seed w ≠ none →
      ((g.search U).init w).Nonempty := by
    intro w hw hs
    obtain ⟨d', hd'⟩ := Option.ne_none_iff_exists'.mp hs
    exact init_nonempty (mem_firstNeighbors_of_seed hd' hw.1)
  rcases Bfs.Search.exists_via_of_reach hinit (Bfs.Search.reach_of_dist hv) with
    ⟨hs, hempty⟩ | ⟨k, hk⟩
  · obtain ⟨k, hk⟩ := init_nonempty (U := U) (mem_firstNeighbors_of_seed hs hvs)
    rw [hempty] at hk
    exact absurd hk (Set.notMem_empty k)
  · exact ⟨k, (Bfs.Search.mem_firstHops_iff_via hv).mpr hk⟩

open Classical in
/-- The peers among the first neighbours of the source that start a least walk to `v`, in the
order of the source's list. -/
noncomputable def nextHops (g : Graph P) (unreliable : List ℕ) (v : ℕ) : List P :=
  (g.firstNeighbors.zipIdx.filter fun e => e.2 ∈ (g.search unreliable).firstHops v).filterMap
    fun e => g.id2p[e.1]?

open Classical in
/-- The entry for id `v`: every peer reached but the source, with its next hops. -/
noncomputable def resultOf (g : Graph P) (unreliable : List ℕ) (v : ℕ) : Option (P × List P) :=
  if v ≠ g.sourceId ∧ ((g.search unreliable).dist v).isSome then
    g.id2p[v]?.map fun p => (p, g.nextHops unreliable v)
  else none

/-- `peer_set` reads the next hops off a route whose bits are the labels of `v`. -/
theorem Core.peerSet_eq (hg : Core g source) {U : List ℕ} {v r : ℕ}
    (hr : ∀ k, r.testBit k = true ↔ k ∈ (g.search U).firstHops v) :
    g.peerSet (g.nbrs g.sourceId) r = some (g.nextHops U v) := by
  classical
  have hfilter : g.firstNeighbors.zipIdx.filter (fun e => r &&& 1 <<< e.2 != 0) =
      g.firstNeighbors.zipIdx.filter fun e => e.2 ∈ (g.search U).firstHops v := by
    apply List.filter_congr
    intro e _
    rw [Bool.eq_iff_iff, bne_iff_ne, Nat.and_one_shiftLeft_ne_zero_iff, hr, decide_eq_true_iff]
  rw [peerSet, nextHops, ← firstNeighbors, hfilter]
  apply List.mapM_option_eq_some_filterMap
  intro e he
  have hmem : g.firstNeighbors[e.2]? = some e.1 :=
    List.mem_zipIdx_iff_getElem?.mp (List.mem_of_mem_filter he)
  rw [List.getElem?_eq_getElem (hg.lt_of_mem_firstNeighbors (List.mem_of_getElem? hmem))]
  rfl

/-- One entry of the loop of `compute_result`, once the search is over. -/
theorem Core.resultEntry_eq (hg : Core g source) {U : List ℕ} {l : Locals} {s : Bfs.State ℕ ℕ}
    (h : Represents g.id2p.length l s) (hdist : s.dist = (g.search U).dist)
    (hlabel : ∀ v d, (g.search U).dist v = some d → s.label v = (g.search U).firstHops v)
    (res : List (P × List P)) {v r : ℕ} (hr : l.routes[v]? = some r) :
    g.resultEntry (g.nbrs g.sourceId) l.distance res (r, v) =
      some (res ++ (g.resultOf U v).toList) := by
  have hv : v < g.id2p.length := h.length_routes ▸ (List.getElem?_eq_some_iff.mp hr).1
  have hd : l.distance[v]? = some (encode ((g.search U).dist v)) := hdist ▸ h.distance_eq v hv
  by_cases hvs : v = g.sourceId
  · rw [hvs] at hd
    simp [resultEntry, hd, hvs, resultOf]
  cases hdv : (g.search U).dist v with
  | none => simp [resultEntry, hd, hdv, encode, hvs, resultOf]
  | some d =>
      have hbits : ∀ k, r.testBit k = true ↔ k ∈ (g.search U).firstHops v := by
        intro k
        have hk := h.testBit_routes v hv k
        rwa [hr, Option.getD_some, hlabel v d hdv] at hk
      have hr0 : r ≠ 0 := by
        obtain ⟨k, hk⟩ := firstHops_nonempty hdv hvs
        intro h0
        rw [← hbits, h0, Nat.zero_testBit] at hk
        exact Bool.false_ne_true hk
      have hused := hg.used_getElem?_of_isUsed (hg.isUsed_of_reach (Bfs.Search.reach_of_dist hdv))
      obtain ⟨p, hp⟩ : ∃ p, g.id2p[v]? = some p := ⟨_, List.getElem?_eq_getElem hv⟩
      have hne : (d : Int) ≠ -1 := by omega
      simp [resultEntry, hd, hdv, encode, hvs, hne, hr0, hused, hg.peerSet_eq hbits, hp,
        resultOf]

/-- `compute_result` lists the entries of the reached peers in the order of their ids. -/
theorem Core.computeResult_eq (hg : Core g source) {U : List ℕ} {l : Locals}
    {s : Bfs.State ℕ ℕ} (h : Represents g.id2p.length l s) (hdist : s.dist = (g.search U).dist)
    (hlabel : ∀ v d, (g.search U).dist v = some d → s.label v = (g.search U).firstHops v) :
    g.computeResult l.routes l.distance =
      some ((List.range g.id2p.length).filterMap (g.resultOf U)) := by
  have hfold : l.routes.zipIdx.foldlM (g.resultEntry (g.nbrs g.sourceId) l.distance) [] =
      some ([] ++ l.routes.zipIdx.filterMap fun e => g.resultOf U e.2) := by
    refine List.foldlM_option_append_filterMap _ (fun res e he => ?_) []
    exact hg.resultEntry_eq h hdist hlabel res (List.mem_zipIdx_iff_getElem?.mp he)
  have hkeys : l.routes.zipIdx.filterMap (fun e => g.resultOf U e.2) =
      (List.range g.id2p.length).filterMap (g.resultOf U) := by
    rw [List.range_eq_range', ← h.length_routes, ← List.zipIdx_map_snd, List.filterMap_map]
    rfl
  rw [computeResult, hg.adjacency_getElem?_of_lt hg.sourceId_lt, Option.bind_eq_bind,
    Option.bind_some, hfold, List.nil_append, hkeys]

/-- On a consistent graph `calculate_distance` does not panic, and lists the entries of the
peers reached in the order of their ids. -/
theorem Core.calculateDistance_eq (hg : Core g source) (unreliablePeers : List P) :
    g.calculateDistance unreliablePeers = some ((List.range g.id2p.length).filterMap
      (g.resultOf (unreliablePeers.filterMap g.p2id))) := by
  simp only [calculateDistance, if_pos hg.sourceId_lt, hg.adjacency_getElem?_of_lt hg.sourceId_lt,
    Option.bind_eq_bind, Option.bind_some]
  set U := unreliablePeers.filterMap g.p2id
  obtain ⟨l1, hseed, h1⟩ := seed_represents hg U
  have hsucc : ∀ u, ∀ v ∈ (g.search U).succ u, v ∈ Finset.range g.id2p.length :=
    fun u v hv => Finset.mem_range.mpr (hg.lt_of_mem_nbrs hv)
  have hqueue : ∀ v ∈ g.firstNeighbors.filter (fun v => !U.contains v),
      v ∈ Finset.range g.id2p.length :=
    fun v hv => Finset.mem_range.mpr (hg.lt_of_mem_firstNeighbors (List.mem_of_mem_filter hv))
  obtain ⟨s, hrun, -, hdist, hlabel⟩ :=
    Bfs.Search.run_correct (hg.seeded U) hsucc hqueue (Finset.card_range _).le
  obtain ⟨l2, hloop, h2⟩ := bfsLoop_represents hg _ h1 hrun
  rw [firstNeighbors] at hseed
  rw [hseed, Option.bind_some, hloop, Option.bind_some]
  exact hg.computeResult_eq h2 hdist hlabel

/-- The entries of the result are the peers reached but the source, with their next hops. -/
theorem Core.resultOf_eq_some_iff (hg : Core g source) {U : List ℕ} {v : ℕ} {p : P}
    {hops : List P} :
    g.resultOf U v = some (p, hops) ↔
      g.p2id p = some v ∧ p ≠ source ∧ ((g.search U).dist v).isSome ∧
        hops = g.nextHops U v := by
  have hsrc : g.p2id source = some g.sourceId := (hg.p2id_iff source _).mpr
    ⟨hg.sourceId_eq ▸ hg.isUsed_source, hg.sourceId_eq ▸ hg.id2p_source⟩
  constructor
  · intro h
    unfold resultOf at h
    split_ifs at h with hc
    obtain ⟨hvs, hreach⟩ := hc
    obtain ⟨p', hp', hpair⟩ := Option.map_eq_some_iff.mp h
    obtain ⟨rfl, rfl⟩ := Prod.mk.inj hpair
    obtain ⟨d, hd⟩ := Option.isSome_iff_exists.mp hreach
    have hpv : g.p2id p' = some v :=
      (hg.p2id_iff p' v).mpr ⟨hg.isUsed_of_reach (Bfs.Search.reach_of_dist hd), hp'⟩
    refine ⟨hpv, fun hps => hvs ?_, hreach, rfl⟩
    rw [hps, hsrc] at hpv
    exact (Option.some.inj hpv).symm
  · rintro ⟨hpv, hps, hreach, rfl⟩
    have hvs : v ≠ g.sourceId := by
      rintro rfl
      exact hps (hg.p2id_inj hpv hsrc)
    simp [resultOf, hvs, hreach, ((hg.p2id_iff p v).mp hpv).2]

/-- On a consistent graph `calculate_distance` does not panic, names each peer once, and maps
exactly the peers reached, the source apart, each to the peers among the first
`MAX_TIER2_PEERS` neighbours of the source that start a least walk to it, in the order of the
source's list. -/
theorem calculateDistance_spec (hg : Core g source) (unreliablePeers : List P) :
    ∃ M, g.calculateDistance unreliablePeers = some M ∧ (M.map Prod.fst).Nodup ∧
      ∀ p hops, (p, hops) ∈ M ↔ ∃ v, g.p2id p = some v ∧ p ≠ source ∧
        ((g.search (unreliablePeers.filterMap g.p2id)).dist v).isSome ∧
        hops = g.nextHops (unreliablePeers.filterMap g.p2id) v := by
  refine ⟨_, hg.calculateDistance_eq unreliablePeers, ?_, fun p hops => ?_⟩
  · -- two ids with one peer are one id
    rw [List.map_filterMap]
    refine List.Nodup.filterMap ?_ List.nodup_range
    intro v w p hv hw
    obtain ⟨e, he, rfl⟩ := Option.mem_map.mp hv
    obtain ⟨e', he', hee⟩ := Option.mem_map.mp hw
    have hpv := (hg.resultOf_eq_some_iff.mp he).1
    have hpw := (hg.resultOf_eq_some_iff.mp he').1
    rw [hee, hpv] at hpw
    exact Option.some.inj hpw
  · rw [List.mem_filterMap]
    constructor
    · rintro ⟨v, -, hv⟩
      exact ⟨v, hg.resultOf_eq_some_iff.mp hv⟩
    · rintro ⟨v, hv⟩
      have hlt := hg.lt_of_isUsed ((hg.p2id_iff p v).mp hv.1).1
      exact ⟨v, List.mem_range.mpr hlt, hg.resultOf_eq_some_iff.mpr hv⟩

end Core

/-- A square `0 - 1 - 2 - 3 - 0` around the source `0`, with `1` unreliable. -/
theorem calculateDistance_spec_square :
    ∃ g, (new 0).runUpdates [((0, 1), EdgeState.active), ((1, 2), EdgeState.active),
        ((2, 3), EdgeState.active), ((3, 0), EdgeState.active)] = some g ∧ Core g 0 ∧
      ∃ M, g.calculateDistance [1] = some M ∧ (M.map Prod.fst).Nodup ∧
        ∀ p hops, (p, hops) ∈ M ↔ ∃ v, g.p2id p = some v ∧ p ≠ 0 ∧
          ((g.search ([1].filterMap g.p2id)).dist v).isSome ∧
          hops = g.nextHops ([1].filterMap g.p2id) v := by
  obtain ⟨g, hrun, hg, -⟩ := runUpdates_inv 0 [((0, 1), EdgeState.active),
    ((1, 2), EdgeState.active), ((2, 3), EdgeState.active), ((3, 0), EdgeState.active)]
    (by decide)
  exact ⟨g, hrun, hg.toCore, calculateDistance_spec hg.toCore [1]⟩

end Graph

end Nearcore.Routing
