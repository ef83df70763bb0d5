import Mathlib.Data.Sym.Sym2
import Mathlib.Data.Finset.Card
import Mathlib.Tactic
import Nearcore.ListFacts

/-!
# The routing graph

`routing::bfs::Graph` keeps the undirected graph of the network as adjacency lists over small
ids: `p2id` and `id2p` number the peers, `used` marks the ids in use and `unused` holds the
freed ones for reuse.  `add_edge` numbers its peers with `get_id` and pushes the edge both
ways; `remove_edge` drops it both ways and frees the ids of the peers it leaves without an
edge, the source's excepted.

From `Graph::new`, over every run of `add_edge` and `remove_edge` calls with distinct
endpoints, no call panics, the numbering stays consistent (`Graph.Inv`), and the graph stands
for the set of undirected edges the calls build: `contains_edge` is membership in it and
`total_active_edges` its size (`runCalls_refines`).

Ids are natural numbers; `runUpdates_ids_lt` bounds them by twice the number of updates, so the
`as u32` casts of the source are exact on runs of fewer than `2 ^ 31` updates.  The `u64` of
`total_active_edges` is not modelled.  A panic (a failed assertion, an index out of range,
`total_active_edges` going below zero) is `none`.
-/

namespace Nearcore.Routing

/-- `Graph`. -/
structure Graph (P : Type) where
  sourceId : ℕ
  p2id : P → Option ℕ
  id2p : List P
  used : List Bool
  unused : List ℕ
  adjacency : List (List ℕ)
  totalActiveEdges : ℕ

namespace Graph

variable {P : Type}

section Calls

variable [DecidableEq P]

/-- `Graph::new`. -/
def new (source : P) : Graph P where
  sourceId := 0
  p2id := Function.update (fun _ => none) source (some 0)
  id2p := [source]
  used := [true]
  unused := []
  adjacency := [[]]
  totalActiveEdges := 0

/-- `Graph::contains_edge`. -/
def containsEdge (g : Graph P) (peer0 peer1 : P) : Option Bool :=
  match g.p2id peer0, g.p2id peer1 with
  | some id0, some id1 => g.adjacency[id0]?.map fun adj => adj.contains id1
  | _, _ => some false

/-- `Graph::remove_if_unused`. -/
def removeIfUnused (g : Graph P) (id : ℕ) : Option (Graph P) := do
  let entry ← g.adjacency[id]?
  if entry.isEmpty ∧ id ≠ g.sourceId then
    if id < g.used.length then
      let peer ← g.id2p[id]?
      pure { g with used := g.used.set id false, unused := g.unused ++ [id],
                    p2id := Function.update g.p2id peer none }
    else none
  else pure g

/-- `Graph::get_id`: the id of `peer`, numbering it with the last freed id or a new one. -/
def getId (g : Graph P) (peer : P) : Option (Graph P × ℕ) :=
  match g.p2id peer with
  | some id => some (g, id)
  | none =>
      match g.unused.getLast? with
      | some val => do
          -- `assert!(!self.used[val])` and `assert!(self.adjacency[val].is_empty())`
          let usedVal ← g.used[val]?
          let adj ← g.adjacency[val]?
          if usedVal || !adj.isEmpty then none
          else if val < g.id2p.length then
            pure ({ g with unused := g.unused.dropLast, id2p := g.id2p.set val peer,
                           used := g.used.set val true,
                           p2id := Function.update g.p2id peer (some val) }, val)
          else none
      | none =>
          let val := g.id2p.length
          some ({ g with id2p := g.id2p ++ [peer], used := g.used ++ [true],
                         adjacency := g.adjacency ++ [[]],
                         p2id := Function.update g.p2id peer (some val) }, val)

/-- `self.adjacency[id]` replaced by `f` of it. -/
def updateAdjacency (g : Graph P) (id : ℕ) (f : List ℕ → List ℕ) : Option (Graph P) := do
  let adj ← g.adjacency[id]?
  pure { g with adjacency := g.adjacency.set id (f adj) }

/-- `Graph::add_edge`. -/
def addEdge (g : Graph P) (peer0 peer1 : P) : Option (Graph P) := do
  if peer0 = peer1 then none
  else
    let contains ← g.containsEdge peer0 peer1
    if contains then pure g
    else
      let (g, id0) ← g.getId peer0
      let (g, id1) ← g.getId peer1
      let g ← g.updateAdjacency id0 (· ++ [id1])
      let g ← g.updateAdjacency id1 (· ++ [id0])
      pure { g with totalActiveEdges := g.totalActiveEdges + 1 }

/-- `Graph::remove_edge`. -/
def removeEdge (g : Graph P) (peer0 peer1 : P) : Option (Graph P) := do
  if peer0 = peer1 then none
  else
    let contains ← g.containsEdge peer0 peer1
    if contains then
      let (g, id0) ← g.getId peer0
      let (g, id1) ← g.getId peer1
      let g ← g.updateAdjacency id0 (List.filter (· != id1))
      let g ← g.updateAdjacency id1 (List.filter (· != id0))
      let g ← g.removeIfUnused id0
      let g ← g.removeIfUnused id1
      -- `self.total_active_edges -= 1`
      if g.totalActiveEdges = 0 then none
      else pure { g with totalActiveEdges := g.totalActiveEdges - 1 }
    else pure g

/-- `EdgeState`. -/
inductive EdgeState
  | active
  | removed
  deriving DecidableEq, Repr

/-- The graph call of `Inner::update_edge`: an active edge is added, a removed one removed. -/
def updateEdge (g : Graph P) (peer0 peer1 : P) : EdgeState → Option (Graph P)
  | .active => g.addEdge peer0 peer1
  | .removed => g.removeEdge peer0 peer1

/-- The graph after a sequence of edge updates, each a key `(peer0, peer1)` and a state. -/
def runUpdates (g : Graph P) (updates : List ((P × P) × EdgeState)) : Option (Graph P) :=
  updates.foldlM (fun g update => g.updateEdge update.1.1 update.1.2 update.2) g

end Calls

/-! ## The graph the ids stand for -/

/-- The adjacency list of id `i`, empty past the end. -/
def nbrs (g : Graph P) (i : ℕ) : List ℕ := g.adjacency[i]?.getD []

/-- Whether id `i` is in use, `false` past the end. -/
def isUsed (g : Graph P) (i : ℕ) : Bool := g.used[i]?.getD false

/-- Peers `p` and `q` are joined: their ids are adjacent. -/
def Adj (g : Graph P) (p q : P) : Prop :=
  ∃ i j, g.p2id p = some i ∧ g.p2id q = some j ∧ j ∈ g.nbrs i

instance (g : Graph P) (p q : P) : Decidable (g.Adj p q) :=
  decidable_of_iff (∃ i ∈ (g.p2id p).toList, ∃ j ∈ (g.p2id q).toList, j ∈ g.nbrs i)
    (by simp [Adj, Option.mem_toList, eq_comm])

/-- The numbering of the peers and the adjacency lists agree: `p2id` and `id2p` are inverse
on the ids in use, `unused` holds each free id once, a free id has no edge, and the adjacency
lists are symmetric, without repetition and without loops. -/
structure Core (g : Graph P) (source : P) : Prop where
  sourceId_eq : g.sourceId = 0
  length_used : g.used.length = g.id2p.length
  length_adjacency : g.adjacency.length = g.id2p.length
  id2p_source : g.id2p[0]? = some source
  isUsed_source : g.isUsed 0 = true
  p2id_iff : ∀ p i, g.p2id p = some i ↔ g.isUsed i = true ∧ g.id2p[i]? = some p
  mem_unused_iff : ∀ i, i ∈ g.unused ↔ i < g.id2p.length ∧ g.isUsed i = false
  unused_nodup : g.unused.Nodup
  nbrs_of_not_isUsed : ∀ i, g.isUsed i = false → g.nbrs i = []
  nbrs_symm : ∀ i j, j ∈ g.nbrs i → i ∈ g.nbrs j
  nbrs_nodup : ∀ i, (g.nbrs i).Nodup
  not_mem_nbrs_self : ∀ i, i ∉ g.nbrs i

/-- `Core`, and every id in use but the source's has an edge: `remove_edge` frees the others. -/
structure Inv (g : Graph P) (source : P) : Prop extends Core g source where
  nbrs_ne_nil : ∀ i, i ≠ 0 → g.isUsed i = true → g.nbrs i ≠ []

namespace Core

variable {g : Graph P} {source : P}

theorem lt_of_isUsed (hg : Core g source) {i : ℕ} (h : g.isUsed i = true) :
    i < g.id2p.length := by
  rw [← hg.length_used]
  by_contra hlt
  simp [isUsed, List.getElem?_eq_none (not_lt.mp hlt)] at h

theorem isUsed_of_mem_nbrs (hg : Core g source) {i j : ℕ} (h : j ∈ g.nbrs i) :
    g.isUsed j = true := by
  by_contra hj
  have hnil := hg.nbrs_of_not_isUsed j (by simpa using hj)
  have hi := hg.nbrs_symm i j h
  rw [hnil] at hi
  exact List.not_mem_nil hi

theorem p2id_inj (hg : Core g source) {p q : P} {i : ℕ} (hp : g.p2id p = some i)
    (hq : g.p2id q = some i) : p = q := by
  have hp' := ((hg.p2id_iff p i).mp hp).2
  have hq' := ((hg.p2id_iff q i).mp hq).2
  rw [hp'] at hq'
  exact Option.some_injective _ hq'

theorem adjacency_getElem? (hg : Core g source) {i : ℕ} (h : g.isUsed i = true) :
    g.adjacency[i]? = some (g.nbrs i) := by
  have hlt : i < g.adjacency.length := hg.length_adjacency ▸ hg.lt_of_isUsed h
  simp [nbrs, List.getElem?_eq_getElem hlt]

theorem lt_length_adjacency (hg : Core g source) {i : ℕ} (hi : g.isUsed i = true) :
    i < g.adjacency.length :=
  hg.length_adjacency ▸ hg.lt_of_isUsed hi

/-- `contains_edge` reads the graph the ids stand for. -/
theorem containsEdge_eq [DecidableEq P] (hg : Core g source) (p q : P) :
    g.containsEdge p q = some (decide (g.Adj p q)) := by
  unfold containsEdge
  cases hp : g.p2id p with
  | none => simp [Adj, hp]
  | some i =>
      cases hq : g.p2id q with
      | none => simp [Adj, hq]
      | some j =>
          have hi := ((hg.p2id_iff p i).mp hp).1
          simp [hg.adjacency_getElem? hi, Adj, hp, hq]

theorem register [DecidableEq P] (hg : Core g source) {g' : Graph P} {peer : P} {val : ℕ}
    (hpeer : g.p2id peer = none) (hval : g.isUsed val = false)
    (hsrc : g'.sourceId = g.sourceId) (hlen_used : g'.used.length = g'.id2p.length)
    (hlen_adj : g'.adjacency.length = g'.id2p.length)
    (hlen : ∀ i, i < g'.id2p.length ↔ i < g.id2p.length ∨ i = val)
    (hused : ∀ i, g'.isUsed i = if i = val then true else g.isUsed i)
    (hid2p : ∀ i, g'.id2p[i]? = if i = val then some peer else g.id2p[i]?)
    (hp2id : ∀ q, g'.p2id q = if q = peer then some val else g.p2id q)
    (hunused : ∀ i, i ∈ g'.unused ↔ i ∈ g.unused ∧ i ≠ val) (hnodup : g'.unused.Nodup)
    (hnbrs : ∀ i, g'.nbrs i = g.nbrs i) : Core g' source where
  sourceId_eq := hsrc ▸ hg.sourceId_eq
  length_used := hlen_used
  length_adjacency := hlen_adj
  id2p_source := by
    have h0 : (0 : ℕ) ≠ val := by
      rintro rfl
      rw [hg.isUsed_source] at hval
      cases hval
    rw [hid2p, if_neg h0]
    exact hg.id2p_source
  isUsed_source := by
    rw [hused]
    split_ifs
    · rfl
    · exact hg.isUsed_source
  p2id_iff := by
    intro q i
    rw [hp2id, hused, hid2p]
    by_cases hq : q = peer
    · subst hq
      by_cases hi : i = val
      · simp [hi]
      · -- `peer` had no id, so no id in use held it
        have hold : ¬ (g.isUsed i = true ∧ g.id2p[i]? = some q) := by
          rw [← hg.p2id_iff, hpeer]
          simp
        simpa [hi, Ne.symm hi] using hold
    · by_cases hi : i = val
      · have hold : g.p2id q ≠ some val := by
          rw [Ne, hg.p2id_iff, hval]
          simp
        simp [hi, hq, hold, Ne.symm hq]
      · simp [hi, hq, hg.p2id_iff]
  mem_unused_iff := by
    intro i
    rw [hunused, hg.mem_unused_iff, hused, hlen]
    by_cases hi : i = val
    · simp [hi]
    · simp [hi]
  unused_nodup := hnodup
  nbrs_of_not_isUsed := by
    intro i hi
    rw [hused] at hi
    by_cases hiv : i = val
    · rw [if_pos hiv] at hi
      cases hi
    · rw [if_neg hiv] at hi
      rw [hnbrs]
      exact hg.nbrs_of_not_isUsed i hi
  nbrs_symm := by
    intro i j h
    rw [hnbrs] at h ⊢
    exact hg.nbrs_symm i j h
  nbrs_nodup := fun i => hnbrs i ▸ hg.nbrs_nodup i
  not_mem_nbrs_self := fun i => hnbrs i ▸ hg.not_mem_nbrs_self i

/-- Freeing an id in use with no edge, other than the source's, keeps the numbering
consistent. -/
theorem unregister [DecidableEq P] (hg : Core g source) {id : ℕ} {peer : P}
    (hid : g.isUsed id = true) (hnbrs : g.nbrs id = []) (h0 : id ≠ 0)
    (hpeer : g.id2p[id]? = some peer) :
    Core { g with used := g.used.set id false, unused := g.unused ++ [id],
                  p2id := Function.update g.p2id peer none } source := by
  have hlt := hg.lt_of_isUsed hid
  have hused : ∀ i, ((g.used.set id false)[i]?).getD false =
      if i = id then false else g.isUsed i :=
    List.getElem?_set_getD (hg.length_used ▸ hlt) false false
  have hp2id_peer : g.p2id peer = some id := (hg.p2id_iff peer id).mpr ⟨hid, hpeer⟩
  refine ⟨hg.sourceId_eq, by simp [hg.length_used], hg.length_adjacency, hg.id2p_source, ?_,
    ?_, ?_, ?_, ?_, hg.nbrs_symm, hg.nbrs_nodup, hg.not_mem_nbrs_self⟩
  · show ((g.used.set id false)[0]?).getD false = true
    rw [hused, if_neg (Ne.symm h0)]
    exact hg.isUsed_source
  · intro q i
    show Function.update g.p2id peer none q = some i ↔
      ((g.used.set id false)[i]?).getD false = true ∧ g.id2p[i]? = some q
    rw [hused, Function.update_apply]
    by_cases hq : q = peer
    · -- the freed peer: no id in use but `id` held it
      rw [if_pos hq]
      refine ⟨(fun h => by cases h), ?_⟩
      rintro ⟨hi, hqi⟩
      by_cases hii : i = id
      · rw [if_pos hii] at hi
        cases hi
      · rw [if_neg hii] at hi
        have hpi : g.p2id peer = some i := hq ▸ (hg.p2id_iff q i).mpr ⟨hi, hqi⟩
        exact absurd (Option.some_injective _ (hpi.symm.trans hp2id_peer)) hii
    · rw [if_neg hq, hg.p2id_iff]
      by_cases hii : i = id
      · subst hii
        simp [hpeer, Ne.symm hq]
      · simp [hii]
  · intro i
    show i ∈ g.unused ++ [id] ↔ i < g.id2p.length ∧ ((g.used.set id false)[i]?).getD false = false
    rw [hused, List.mem_append, List.mem_singleton, hg.mem_unused_iff]
    by_cases hi : i = id
    · simp [hi, hlt]
    · simp [hi]
  · rw [List.nodup_append]
    refine ⟨hg.unused_nodup, List.nodup_singleton id, ?_⟩
    intro a ha b hb hab
    rw [List.mem_singleton] at hb
    subst hb hab
    rw [hg.mem_unused_iff, hid] at ha
    exact Bool.noConfusion ha.2
  · intro i hi
    have hi' : ((g.used.set id false)[i]?).getD false = false := hi
    rw [hused] at hi'
    by_cases hii : i = id
    · rw [hii]
      exact hnbrs
    · rw [if_neg hii] at hi'
      exact hg.nbrs_of_not_isUsed i hi'

theorem not_adj_of_isolated (hg : Core g source) {peer : P}
    (h : ∀ i, g.p2id peer = some i → g.nbrs i = []) (q : P) :
    ¬ g.Adj peer q ∧ ¬ g.Adj q peer := by
  constructor
  · rintro ⟨i, j, hi, -, hj⟩
    rw [h i hi] at hj
    exact List.not_mem_nil hj
  · rintro ⟨i, j, -, hj, hij⟩
    have hji := hg.nbrs_symm i j hij
    rw [h j hj] at hji
    exact List.not_mem_nil hji

theorem adj_iff_of_isolated (hg : Core g source) {g' : Graph P} (hg' : Core g' source)
    {peer : P} (hold : ∀ i, g.p2id peer = some i → g.nbrs i = [])
    (hnew : ∀ i, g'.p2id peer = some i → g'.nbrs i = [])
    (hp2id : ∀ q, q ≠ peer → g'.p2id q = g.p2id q) (hnbrs : ∀ i, g'.nbrs i = g.nbrs i)
    (p q : P) : g'.Adj p q ↔ g.Adj p q := by
  by_cases hp : p = peer
  · subst hp
    exact iff_of_false (hg'.not_adj_of_isolated hnew q).1 (hg.not_adj_of_isolated hold q).1
  by_cases hq : q = peer
  · subst hq
    exact iff_of_false (hg'.not_adj_of_isolated hnew p).2 (hg.not_adj_of_isolated hold p).2
  simp only [Adj, hp2id p hp, hp2id q hq, hnbrs]

end Core

theorem getId_of_p2id [DecidableEq P] {g : Graph P} {peer : P} {id : ℕ}
    (h : g.p2id peer = some id) : g.getId peer = some (g, id) := by
  simp [getId, h]

/-- What `get_id` does: it does not panic, and it returns an id in use for `peer`, numbering
`peer` with the last freed id, or a new one, if it had none; the graph the ids stand for
stays as it was. -/
theorem Core.getId_spec [DecidableEq P] {g : Graph P} {source : P} (hg : Core g source)
    (peer : P) :
    ∃ g' id, g.getId peer = some (g', id) ∧ Core g' source ∧ g'.p2id peer = some id ∧
      (∀ q, q ≠ peer → g'.p2id q = g.p2id q) ∧ (∀ i, g'.nbrs i = g.nbrs i) ∧
      (∀ i, g'.isUsed i = if i = id then true else g.isUsed i) ∧
      (∀ p q, g'.Adj p q ↔ g.Adj p q) ∧ g'.totalActiveEdges = g.totalActiveEdges := by
  cases hp : g.p2id peer with
  | some id =>
      have hid := ((hg.p2id_iff peer id).mp hp).1
      refine ⟨g, id, getId_of_p2id hp, hg, hp, fun _ _ => rfl, fun _ => rfl, ?_,
        fun _ _ => Iff.rfl, rfl⟩
      intro i
      by_cases hi : i = id
      · simp [hi, hid]
      · simp [hi]
  | none =>
      have hold : ∀ i, g.p2id peer = some i → g.nbrs i = [] := by
        intro i hi
        rw [hp] at hi
        cases hi
      cases hlast : g.unused.getLast? with
      | some val =>
          -- `get_id` reuses the last freed id
          obtain ⟨hlt, hval⟩ := (hg.mem_unused_iff val).mp (List.mem_of_getLast? hlast)
          have hlt_used : val < g.used.length := hg.length_used ▸ hlt
          have hnbrs := hg.nbrs_of_not_isUsed val hval
          have husedval : g.used[val]? = some false := by
            simpa [isUsed, List.getElem?_eq_getElem hlt_used] using hval
          have hadjval : g.adjacency[val]? = some [] := by
            rw [← hnbrs]
            simp [nbrs, List.getElem?_eq_getElem (hg.length_adjacency ▸ hlt)]
          have hp2id : ∀ q, (Function.update g.p2id peer (some val)) q =
              if q = peer then some val else g.p2id q := fun q => Function.update_apply _ _ _ _
          have hget : g.getId peer = some ({ g with
              unused := g.unused.dropLast, id2p := g.id2p.set val peer,
              used := g.used.set val true, p2id := Function.update g.p2id peer (some val) },
              val) := by
            simp [getId, hp, hlast, husedval, hadjval, hlt]
          have hused : ∀ i, ((g.used.set val true)[i]?).getD false =
              if i = val then true else g.isUsed i :=
            List.getElem?_set_getD hlt_used true false
          have hg' : Core { g with
              unused := g.unused.dropLast, id2p := g.id2p.set val peer,
              used := g.used.set val true, p2id := Function.update g.p2id peer (some val) }
              source := by
            refine hg.register hp hval rfl (by simp [hg.length_used])
              (by simp [hg.length_adjacency]) (fun i => by simp; omega) hused (fun i => ?_) hp2id
              (fun i => List.mem_dropLast_iff_of_nodup hg.unused_nodup hlast)
              (hg.unused_nodup.sublist (List.dropLast_sublist _)) (fun _ => rfl)
            by_cases hi : i = val
            · simp [hi, hlt]
            · simp [hi, Ne.symm hi]
          refine ⟨_, val, hget, hg', by simp, fun q hq => Function.update_of_ne hq _ _, fun _ => rfl, hused,
            hg.adj_iff_of_isolated hg' hold (fun i hi => ?_) (fun q hq => Function.update_of_ne hq _ _)
              (fun _ => rfl), rfl⟩
          simp only [Function.update_self, Option.some.injEq] at hi
          rw [← hi]
          exact hnbrs
      | none =>
          -- no freed id: `get_id` numbers `peer` with a new one
          have hempty : g.unused = [] := List.getLast?_eq_none_iff.mp hlast
          have hval : g.isUsed g.id2p.length = false := by
            simp [isUsed, List.getElem?_eq_none (le_of_eq hg.length_used)]
          have hnbrs : g.nbrs g.id2p.length = [] := by
            simp [nbrs, List.getElem?_eq_none (le_of_eq hg.length_adjacency)]
          have hp2id : ∀ q, (Function.update g.p2id peer (some g.id2p.length)) q =
              if q = peer then some g.id2p.length else g.p2id q :=
            fun q => Function.update_apply _ _ _ _
          have hget : g.getId peer = some ({ g with
              id2p := g.id2p ++ [peer], used := g.used ++ [true], adjacency := g.adjacency ++ [[]],
              p2id := Function.update g.p2id peer (some g.id2p.length) }, g.id2p.length) := by
            simp [getId, hp, hlast]
          have hused : ∀ i, ((g.used ++ [true])[i]?).getD false =
              if i = g.id2p.length then true else g.isUsed i := by
            intro i
            rw [List.getElem?_append_singleton, hg.length_used]
            split_ifs <;> rfl
          have hadj : ∀ i, ((g.adjacency ++ [[]])[i]?).getD [] = g.nbrs i := by
            intro i
            rw [List.getElem?_append_singleton, hg.length_adjacency]
            split_ifs with hi
            · rw [hi, hnbrs]
              rfl
            · rfl
          have hg' : Core { g with
              id2p := g.id2p ++ [peer], used := g.used ++ [true], adjacency := g.adjacency ++ [[]],
              p2id := Function.update g.p2id peer (some g.id2p.length) } source :=
            hg.register hp hval rfl (by simp [hg.length_used])
              (by simp [hg.length_adjacency]) (fun i => by simp; omega) hused
              (fun i => List.getElem?_append_singleton _ _ i) hp2id (by simp [hempty])
              (by simp [hempty]) hadj
          refine ⟨_, g.id2p.length, hget, hg', by simp, fun q hq => Function.update_of_ne hq _ _, hadj, hused,
            hg.adj_iff_of_isolated hg' hold (fun i hi => ?_) (fun q hq => Function.update_of_ne hq _ _) hadj,
            rfl⟩
          simp only [Function.update_self, Option.some.injEq] at hi
          rw [← hi]
          exact (hadj _).trans hnbrs

/-- What `remove_if_unused` does on an id in use: it frees the id when it has no edge and is
not the source's; the graph the ids stand for stays as it was. -/
theorem Core.removeIfUnused_spec [DecidableEq P] {g : Graph P} {source : P}
    (hg : Core g source) {id : ℕ} (hid : g.isUsed id = true) :
    ∃ g', g.removeIfUnused id = some g' ∧ Core g' source ∧ (∀ i, g'.nbrs i = g.nbrs i) ∧
      (∀ i, g'.isUsed i = true ↔ g.isUsed i = true ∧ (i = id → g.nbrs id ≠ [] ∨ id = 0)) ∧
      (∀ p q, g'.Adj p q ↔ g.Adj p q) ∧ g'.totalActiveEdges = g.totalActiveEdges := by
  have hadj := hg.adjacency_getElem? hid
  by_cases hfree : g.nbrs id = [] ∧ id ≠ 0
  · obtain ⟨hnbrs, h0⟩ := hfree
    have hlt := hg.lt_of_isUsed hid
    have hlt_used : id < g.used.length := hg.length_used ▸ hlt
    obtain ⟨peer, hpeer⟩ : ∃ peer, g.id2p[id]? = some peer :=
      ⟨g.id2p[id], List.getElem?_eq_getElem hlt⟩
    have hg' := hg.unregister hid hnbrs h0 hpeer
    have hp2id_peer : g.p2id peer = some id := (hg.p2id_iff peer id).mpr ⟨hid, hpeer⟩
    have hnew : ∀ i, Function.update g.p2id peer none peer = some i → g.nbrs i = [] := by
      intro i hi
      rw [Function.update_self] at hi
      cases hi
    refine ⟨_, ?_, hg', fun _ => rfl, fun i => ?_,
      hg.adj_iff_of_isolated hg' (fun i hi => ?_) hnew (fun q hq => Function.update_of_ne hq _ _)
        (fun _ => rfl), rfl⟩
    · simp [removeIfUnused, hadj, hnbrs, h0, hg.sourceId_eq, hlt_used, hpeer]
    · show ((g.used.set id false)[i]?).getD false = true ↔ _
      rw [List.getElem?_set_getD hlt_used]
      by_cases hii : i = id
      · simp [hii, hnbrs, h0]
      · simp [hii, isUsed]
    · rw [hp2id_peer, Option.some.injEq] at hi
      rw [← hi]
      exact hnbrs
  · -- an edge is left, or it is the source's id: nothing changes
    refine ⟨g, ?_, hg, fun _ => rfl, fun i => ?_, fun _ _ => Iff.rfl, rfl⟩
    · simp only [removeIfUnused, hadj, hg.sourceId_eq, List.isEmpty_iff, Option.pure_def,
        Option.bind_eq_bind, Option.bind_some]
      rw [if_neg hfree]
    rw [not_and_or, not_not] at hfree
    constructor
    · intro hi
      exact ⟨hi, fun _ => hfree⟩
    · exact And.left

/-! ## Edges between ids -/

/-- `g'` numbers the peers as `g` does: only its adjacency lists, as many as `g`'s, and its
edge count may differ. -/
structure SameIds (g g' : Graph P) : Prop where
  sourceId_eq : g'.sourceId = g.sourceId
  p2id_eq : g'.p2id = g.p2id
  id2p_eq : g'.id2p = g.id2p
  used_eq : g'.used = g.used
  unused_eq : g'.unused = g.unused
  length_adjacency : g'.adjacency.length = g.adjacency.length

namespace SameIds

variable {g g' g'' : Graph P}

theorem trans (h : SameIds g g') (h' : SameIds g' g'') : SameIds g g'' :=
  ⟨h'.sourceId_eq.trans h.sourceId_eq, h'.p2id_eq.trans h.p2id_eq, h'.id2p_eq.trans h.id2p_eq,
    h'.used_eq.trans h.used_eq, h'.unused_eq.trans h.unused_eq,
    h'.length_adjacency.trans h.length_adjacency⟩

theorem isUsed_eq (h : SameIds g g') (i : ℕ) : g'.isUsed i = g.isUsed i := by
  simp only [isUsed, h.used_eq]

theorem adj_iff (h : SameIds g g') (p q : P) :
    g'.Adj p q ↔ ∃ i j, g.p2id p = some i ∧ g.p2id q = some j ∧ j ∈ g'.nbrs i := by
  rw [Adj, h.p2id_eq]

end SameIds

theorem updateAdjacency_spec (g : Graph P) {i : ℕ} (hi : i < g.adjacency.length)
    (f : List ℕ → List ℕ) :
    ∃ g', g.updateAdjacency i f = some g' ∧ SameIds g g' ∧
      g'.totalActiveEdges = g.totalActiveEdges ∧
      ∀ j, g'.nbrs j = if j = i then f (g.nbrs i) else g.nbrs j :=
  ⟨{ g with adjacency := g.adjacency.set i (f (g.nbrs i)) },
    by simp [updateAdjacency, nbrs, List.getElem?_eq_getElem hi],
    ⟨rfl, rfl, rfl, rfl, rfl, List.length_set⟩, rfl, List.getElem?_set_getD hi _ []⟩

/-- The two adjacency edits of `add_edge` and `remove_edge`, on distinct ids in range. -/
theorem updateAdjacency_pair (g : Graph P) {i0 i1 : ℕ} (h0 : i0 < g.adjacency.length)
    (h1 : i1 < g.adjacency.length) (hne : i0 ≠ i1) (f0 f1 : List ℕ → List ℕ) :
    ∃ g3 g4, g.updateAdjacency i0 f0 = some g3 ∧ g3.updateAdjacency i1 f1 = some g4 ∧
      SameIds g g4 ∧ g4.totalActiveEdges = g.totalActiveEdges ∧
      ∀ j, g4.nbrs j =
        if j = i0 then f0 (g.nbrs i0) else if j = i1 then f1 (g.nbrs i1) else g.nbrs j := by
  obtain ⟨g3, h3, hs3, htotal3, hnbrs3⟩ := updateAdjacency_spec g h0 f0
  obtain ⟨g4, h4, hs4, htotal4, hnbrs4⟩ :=
    updateAdjacency_spec g3 (hs3.length_adjacency ▸ h1) f1
  refine ⟨g3, g4, h3, h4, hs3.trans hs4, htotal4.trans htotal3, fun j => ?_⟩
  rw [hnbrs4, hnbrs3 i1, if_neg (Ne.symm hne), hnbrs3]
  by_cases hj1 : j = i1
  · rw [if_pos hj1, if_neg (hj1 ▸ Ne.symm hne), if_pos hj1]
  · rw [if_neg hj1]
    split_ifs <;> rfl

namespace Core

variable {g : Graph P} {source : P}

theorem of_sameIds (hg : Core g source) {g' : Graph P} (hs : SameIds g g')
    (hfree : ∀ i, g.isUsed i = false → g'.nbrs i = [])
    (hsymm : ∀ i j, j ∈ g'.nbrs i → i ∈ g'.nbrs j) (hnodup : ∀ i, (g'.nbrs i).Nodup)
    (hself : ∀ i, i ∉ g'.nbrs i) : Core g' source where
  sourceId_eq := hs.sourceId_eq ▸ hg.sourceId_eq
  length_used := hs.used_eq ▸ hs.id2p_eq ▸ hg.length_used
  length_adjacency := hs.length_adjacency ▸ hs.id2p_eq ▸ hg.length_adjacency
  id2p_source := hs.id2p_eq ▸ hg.id2p_source
  isUsed_source := hs.isUsed_eq 0 ▸ hg.isUsed_source
  p2id_iff := by
    intro p i
    rw [hs.p2id_eq, hs.id2p_eq, hs.isUsed_eq]
    exact hg.p2id_iff p i
  mem_unused_iff := by
    intro i
    rw [hs.unused_eq, hs.id2p_eq, hs.isUsed_eq]
    exact hg.mem_unused_iff i
  unused_nodup := hs.unused_eq ▸ hg.unused_nodup
  nbrs_of_not_isUsed := fun i hi => hfree i (hs.isUsed_eq i ▸ hi)
  nbrs_symm := hsymm
  nbrs_nodup := hnodup
  not_mem_nbrs_self := hself

theorem sym2_eq_iff (hg : Core g source) {p q p0 p1 : P} {i j id0 id1 : ℕ}
    (hp : g.p2id p = some i) (hq : g.p2id q = some j) (hp0 : g.p2id p0 = some id0)
    (hp1 : g.p2id p1 = some id1) : s(i, j) = s(id0, id1) ↔ s(p, q) = s(p0, p1) := by
  have hid : ∀ {r r' : P} {k k' : ℕ}, g.p2id r = some k → g.p2id r' = some k' →
      (k = k' ↔ r = r') := by
    intro r r' k k' hr hr'
    constructor
    · rintro rfl
      exact hg.p2id_inj hr hr'
    · rintro rfl
      rw [hr] at hr'
      exact Option.some_injective _ hr'
  rw [Sym2.eq_iff, Sym2.eq_iff, hid hp hp0, hid hq hp1, hid hp hp1, hid hq hp0]

theorem exists_sym2_eq_iff (hg : Core g source) {p0 p1 : P} {id0 id1 : ℕ}
    (hp0 : g.p2id p0 = some id0) (hp1 : g.p2id p1 = some id1) (p q : P) :
    (∃ i j, g.p2id p = some i ∧ g.p2id q = some j ∧ s(i, j) = s(id0, id1)) ↔
      s(p, q) = s(p0, p1) := by
  constructor
  · rintro ⟨i, j, hp, hq, h⟩
    exact (hg.sym2_eq_iff hp hq hp0 hp1).mp h
  · intro h
    rcases Sym2.eq_iff.mp h with ⟨rfl, rfl⟩ | ⟨rfl, rfl⟩
    · exact ⟨id0, id1, hp0, hp1, rfl⟩
    · exact ⟨id1, id0, hp1, hp0, Sym2.eq_swap⟩

theorem adj_iff_of_sym2_eq (hg : Core g source) {p q p' q' : P} (h : s(p, q) = s(p', q')) :
    g.Adj p q ↔ g.Adj p' q' := by
  have hcomm : ∀ {a b : P}, g.Adj a b → g.Adj b a := by
    rintro a b ⟨i, j, ha, hb, hj⟩
    exact ⟨j, i, hb, ha, hg.nbrs_symm i j hj⟩
  rcases Sym2.eq_iff.mp h with ⟨rfl, rfl⟩ | ⟨rfl, rfl⟩
  · exact Iff.rfl
  · exact ⟨hcomm, hcomm⟩

theorem nbrs_eq_nil_of_edit (hg : Core g source) {g' : Graph P} {id0 id1 : ℕ}
    {l0 l1 : List ℕ} (hu0 : g.isUsed id0 = true) (hu1 : g.isUsed id1 = true)
    (hnbrs : ∀ j, g'.nbrs j = if j = id0 then l0 else if j = id1 then l1 else g.nbrs j)
    (i : ℕ) (hi : g.isUsed i = false) : g'.nbrs i = [] := by
  have hi0 : i ≠ id0 := by
    rintro rfl
    rw [hu0] at hi
    cases hi
  have hi1 : i ≠ id1 := by
    rintro rfl
    rw [hu1] at hi
    cases hi
  rw [hnbrs, if_neg hi0, if_neg hi1]
  exact hg.nbrs_of_not_isUsed i hi

/-- The pushes of `add_edge` on two ids in use, not yet joined, join them and nothing else. -/
theorem link (hg : Core g source) {id0 id1 : ℕ} (hu0 : g.isUsed id0 = true)
    (hu1 : g.isUsed id1 = true) (hne : id0 ≠ id1) (hnot : id1 ∉ g.nbrs id0) :
    ∃ g3 g4, g.updateAdjacency id0 (· ++ [id1]) = some g3 ∧
      g3.updateAdjacency id1 (· ++ [id0]) = some g4 ∧ SameIds g g4 ∧
      g4.totalActiveEdges = g.totalActiveEdges ∧ Core g4 source ∧
      ∀ i j, j ∈ g4.nbrs i ↔ j ∈ g.nbrs i ∨ s(i, j) = s(id0, id1) := by
  obtain ⟨g3, g4, h3, h4, hs, htotal, hnbrs⟩ := updateAdjacency_pair g
    (hg.lt_length_adjacency hu0) (hg.lt_length_adjacency hu1) hne (· ++ [id1]) (· ++ [id0])
  have hmem : ∀ i j, j ∈ g4.nbrs i ↔ j ∈ g.nbrs i ∨ s(i, j) = s(id0, id1) := by
    intro i j
    rw [hnbrs]
    by_cases hi0 : i = id0
    · subst hi0
      simp [hne]
    · by_cases hi1 : i = id1
      · subst hi1
        simp [hi0, Sym2.eq_swap (a := i)]
      · simp [hi0, hi1]
  have hnot' : id0 ∉ g.nbrs id1 := fun h => hnot (hg.nbrs_symm id1 id0 h)
  refine ⟨g3, g4, h3, h4, hs, htotal,
    hg.of_sameIds hs (hg.nbrs_eq_nil_of_edit hu0 hu1 hnbrs) ?_ ?_ ?_, hmem⟩
  · intro i j h
    rw [hmem] at h ⊢
    rcases h with h | h
    · exact .inl (hg.nbrs_symm i j h)
    · exact .inr (Sym2.eq_swap.trans h)
  · intro i
    rw [hnbrs]
    split_ifs with hi0 hi1
    · exact (hg.nbrs_nodup id0).append (List.nodup_singleton id1)
        (List.disjoint_singleton.mpr hnot)
    · exact (hg.nbrs_nodup id1).append (List.nodup_singleton id0)
        (List.disjoint_singleton.mpr hnot')
    · exact hg.nbrs_nodup i
  · intro i h
    rw [hmem] at h
    rcases h with h | h
    · exact hg.not_mem_nbrs_self i h
    · rcases Sym2.eq_iff.mp h with ⟨rfl, rfl⟩ | ⟨rfl, rfl⟩ <;> exact hne rfl

/-- The retains of `remove_edge` on two ids in use drop the edge between them and nothing
else. -/
theorem unlink (hg : Core g source) {id0 id1 : ℕ} (hu0 : g.isUsed id0 = true)
    (hu1 : g.isUsed id1 = true) (hne : id0 ≠ id1) :
    ∃ g3 g4, g.updateAdjacency id0 (List.filter (· != id1)) = some g3 ∧
      g3.updateAdjacency id1 (List.filter (· != id0)) = some g4 ∧ SameIds g g4 ∧
      g4.totalActiveEdges = g.totalActiveEdges ∧ Core g4 source ∧
      ∀ i j, j ∈ g4.nbrs i ↔ j ∈ g.nbrs i ∧ s(i, j) ≠ s(id0, id1) := by
  obtain ⟨g3, g4, h3, h4, hs, htotal, hnbrs⟩ := updateAdjacency_pair g
    (hg.lt_length_adjacency hu0) (hg.lt_length_adjacency hu1) hne
    (List.filter (· != id1)) (List.filter (· != id0))
  have hmem : ∀ i j, j ∈ g4.nbrs i ↔ j ∈ g.nbrs i ∧ s(i, j) ≠ s(id0, id1) := by
    intro i j
    rw [hnbrs]
    by_cases hi0 : i = id0
    · subst hi0
      simp [hne]
    · by_cases hi1 : i = id1
      · subst hi1
        simp [hi0, Sym2.eq_swap (a := i)]
      · simp [hi0, hi1]
  refine ⟨g3, g4, h3, h4, hs, htotal,
    hg.of_sameIds hs (hg.nbrs_eq_nil_of_edit hu0 hu1 hnbrs) ?_ ?_ ?_, hmem⟩
  · intro i j h
    rw [hmem] at h ⊢
    exact ⟨hg.nbrs_symm i j h.1, fun hji => h.2 (Sym2.eq_swap.trans hji)⟩
  · intro i
    rw [hnbrs]
    split_ifs
    · exact (hg.nbrs_nodup id0).filter _
    · exact (hg.nbrs_nodup id1).filter _
    · exact hg.nbrs_nodup i
  · intro i h
    rw [hmem] at h
    exact hg.not_mem_nbrs_self i h.1

theorem withTotal (hg : Core g source) (t : ℕ) :
    Core { g with totalActiveEdges := t } source :=
  hg.of_sameIds ⟨rfl, rfl, rfl, rfl, rfl, rfl⟩ hg.nbrs_of_not_isUsed hg.nbrs_symm hg.nbrs_nodup
    hg.not_mem_nbrs_self

end Core

/-! ## `add_edge` and `remove_edge` -/

theorem nbrs_new [DecidableEq P] (source : P) (i : ℕ) : (new source).nbrs i = [] := by
  cases i <;> simp [new, nbrs]

namespace Inv

variable {g : Graph P} {source : P}

/-- The peers with an id are the source and the peers with an edge. -/
theorem p2id_isSome_iff (hg : Inv g source) (p : P) :
    (g.p2id p).isSome ↔ p = source ∨ ∃ q, g.Adj p q := by
  constructor
  · intro h
    obtain ⟨i, hi⟩ := Option.isSome_iff_exists.mp h
    obtain ⟨hui, hid2p⟩ := (hg.p2id_iff p i).mp hi
    by_cases h0 : i = 0
    · rw [h0, hg.id2p_source] at hid2p
      exact .inl (Option.some_injective _ hid2p).symm
    · obtain ⟨j, hj⟩ := List.exists_mem_of_ne_nil _ (hg.nbrs_ne_nil i h0 hui)
      have huj := hg.isUsed_of_mem_nbrs hj
      obtain ⟨q, hq⟩ : ∃ q, g.id2p[j]? = some q :=
        ⟨_, List.getElem?_eq_getElem (hg.lt_of_isUsed huj)⟩
      exact .inr ⟨q, i, j, hi, (hg.p2id_iff q j).mpr ⟨huj, hq⟩, hj⟩
  · rintro (rfl | ⟨q, i, j, hi, -, -⟩)
    · exact Option.isSome_iff_exists.mpr
        ⟨0, (hg.p2id_iff p 0).mpr ⟨hg.isUsed_source, hg.id2p_source⟩⟩
    · simp [hi]

section Calls

variable [DecidableEq P]

theorem inv_new (source : P) : Inv (new source) source := by
  have hused : ∀ i, (new source).isUsed i = (i == 0) := by
    intro i
    cases i <;> simp [new, isUsed]
  have hnbrs := nbrs_new source
  refine ⟨⟨rfl, rfl, rfl, rfl, rfl, fun p i => ?_, fun i => ?_, List.nodup_nil,
    fun i _ => hnbrs i, fun i j h => ?_, fun i => by simp [hnbrs], fun i => by simp [hnbrs]⟩,
    fun i h0 hi => ?_⟩
  · rw [hused]
    by_cases hp : p = source
    · cases i <;> simp [new, hp]
    · cases i <;> simp [new, hp, Ne.symm hp]
  · rw [hused]
    cases i <;> simp [new]
  · rw [hnbrs] at h
    cases h
  · rw [hused, beq_iff_eq] at hi
    exact absurd hi h0

/-- What `add_edge` does on distinct peers: it does not panic, keeps `Inv`, joins the two
peers and no others, and counts the edge if it was not there. -/
theorem addEdge_spec (hg : Inv g source) {p0 p1 : P} (hne : p0 ≠ p1) :
    ∃ g', g.addEdge p0 p1 = some g' ∧ Inv g' source ∧
      (∀ p q, g'.Adj p q ↔ g.Adj p q ∨ s(p, q) = s(p0, p1)) ∧
      g'.totalActiveEdges = g.totalActiveEdges + if g.Adj p0 p1 then 0 else 1 := by
  have hc := hg.containsEdge_eq p0 p1
  by_cases hadj : g.Adj p0 p1
  · -- `contains_edge` holds: nothing changes
    refine ⟨g, by simp [addEdge, hne, hc, hadj], hg, fun p q => ⟨.inl, ?_⟩, by simp [hadj]⟩
    rintro (h | h)
    · exact h
    · exact (hg.adj_iff_of_sym2_eq h).mpr hadj
  obtain ⟨g1, id0, hget0, hg1, hp0, -, hnbrs1, hused1, hadj1, htotal1⟩ := hg.getId_spec p0
  obtain ⟨g2, id1, hget1, hg2, hp1, hother2, hnbrs2, hused2, hadj2, htotal2⟩ :=
    hg1.getId_spec p1
  have hp0' : g2.p2id p0 = some id0 := (hother2 p0 hne).trans hp0
  have hu0 : g2.isUsed id0 = true := ((hg2.p2id_iff p0 id0).mp hp0').1
  have hu1 : g2.isUsed id1 = true := ((hg2.p2id_iff p1 id1).mp hp1).1
  have hne01 : id0 ≠ id1 := fun h => hne (hg2.p2id_inj hp0' (h ▸ hp1))
  have hnot : id1 ∉ g2.nbrs id0 := fun h =>
    hadj ((hadj1 p0 p1).mp ((hadj2 p0 p1).mp ⟨id0, id1, hp0', hp1, h⟩))
  obtain ⟨g3, g4, h3, h4, hs, htotal4, hg4, hmem⟩ := hg2.link hu0 hu1 hne01 hnot
  refine ⟨{ g4 with totalActiveEdges := g4.totalActiveEdges + 1 }, ?_,
    ⟨hg4.withTotal _, fun i h0 hi => ?_⟩, fun p q => ?_, ?_⟩
  · simp [addEdge, hne, hc, hadj, hget0, hget1, h3, h4]
  · -- the two new ids have the new edge; every other id in use keeps its edges
    change g4.nbrs i ≠ []
    have hi2 : g2.isUsed i = true := (hs.isUsed_eq i) ▸ hi
    rw [hused2, hused1] at hi2
    by_cases hi1 : i = id1
    · rw [hi1]
      exact List.ne_nil_of_mem ((hmem id1 id0).mpr (.inr Sym2.eq_swap))
    by_cases hi0 : i = id0
    · rw [hi0]
      exact List.ne_nil_of_mem ((hmem id0 id1).mpr (.inr rfl))
    rw [if_neg hi1, if_neg hi0] at hi2
    obtain ⟨j, hj⟩ := List.exists_mem_of_ne_nil _ (hg.nbrs_ne_nil i h0 hi2)
    refine List.ne_nil_of_mem ((hmem i j).mpr (.inl ?_))
    rw [hnbrs2, hnbrs1]
    exact hj
  · change g4.Adj p q ↔ _
    rw [hs.adj_iff, ← hadj1, ← hadj2, ← hg2.exists_sym2_eq_iff hp0' hp1]
    simp only [hmem, and_or_left, exists_or, Adj]
  · show g4.totalActiveEdges + 1 = g.totalActiveEdges + if g.Adj p0 p1 then 0 else 1
    rw [if_neg hadj, htotal4, htotal2, htotal1]

/-- What `remove_edge` does on distinct peers, with an edge to count down if they are joined:
it does not panic, keeps `Inv`, and separates the two peers and no others. -/
theorem removeEdge_spec (hg : Inv g source) {p0 p1 : P} (hne : p0 ≠ p1)
    (htotal : g.Adj p0 p1 → 0 < g.totalActiveEdges) :
    ∃ g', g.removeEdge p0 p1 = some g' ∧ Inv g' source ∧
      (∀ p q, g'.Adj p q ↔ g.Adj p q ∧ s(p, q) ≠ s(p0, p1)) ∧
      g'.totalActiveEdges = g.totalActiveEdges - if g.Adj p0 p1 then 1 else 0 := by
  have hc := hg.containsEdge_eq p0 p1
  by_cases hadj : g.Adj p0 p1
  swap
  · -- `contains_edge` fails: nothing changes
    refine ⟨g, by simp [removeEdge, hne, hc, hadj], hg, fun p q => ⟨fun h => ⟨h, ?_⟩, And.left⟩,
      by simp [hadj]⟩
    exact fun hpq => hadj ((hg.adj_iff_of_sym2_eq hpq).mp h)
  obtain ⟨id0, id1, hp0, hp1, h01⟩ := id hadj
  have hu0 : g.isUsed id0 = true := ((hg.p2id_iff p0 id0).mp hp0).1
  have hu1 : g.isUsed id1 = true := ((hg.p2id_iff p1 id1).mp hp1).1
  have hne01 : id0 ≠ id1 := by
    rintro rfl
    exact hg.not_mem_nbrs_self id0 h01
  obtain ⟨g3, g4, h3, h4, hs, htotal4, hg4, hmem⟩ := hg.unlink hu0 hu1 hne01
  obtain ⟨g5, h5, hg5, hnbrs5, hused5, hadj5, htotal5⟩ :=
    hg4.removeIfUnused_spec ((hs.isUsed_eq id0).trans hu0)
  have hu1' : g5.isUsed id1 = true :=
    (hused5 id1).mpr ⟨(hs.isUsed_eq id1).trans hu1, fun h => absurd h.symm hne01⟩
  obtain ⟨g6, h6, hg6, hnbrs6, hused6, hadj6, htotal6⟩ := hg5.removeIfUnused_spec hu1'
  have htotal' : g6.totalActiveEdges ≠ 0 := by
    rw [htotal6, htotal5, htotal4]
    exact (htotal hadj).ne'
  refine ⟨{ g6 with totalActiveEdges := g6.totalActiveEdges - 1 }, ?_,
    ⟨hg6.withTotal _, fun i h0 hi => ?_⟩, fun p q => ?_, ?_⟩
  · simp [removeEdge, hne, hc, hadj, getId_of_p2id hp0, getId_of_p2id hp1, h3, h4, h5, h6,
      htotal']
  · -- an id left in use is the source's, kept an edge, or was not touched
    change g6.nbrs i ≠ []
    rw [hnbrs6, hnbrs5]
    have hi6 := (hused6 i).mp hi
    have hi5 := (hused5 i).mp hi6.1
    by_cases hi1 : i = id1
    · rcases hi6.2 hi1 with h | h
      · rw [hi1, ← hnbrs5]
        exact h
      · exact absurd (hi1.trans h) h0
    by_cases hi0 : i = id0
    · rcases hi5.2 hi0 with h | h
      · rw [hi0]
        exact h
      · exact absurd (hi0.trans h) h0
    obtain ⟨j, hj⟩ :=
      List.exists_mem_of_ne_nil _ (hg.nbrs_ne_nil i h0 ((hs.isUsed_eq i).symm.trans hi5.1))
    refine List.ne_nil_of_mem ((hmem i j).mpr ⟨hj, fun h => ?_⟩)
    rcases Sym2.eq_iff.mp h with ⟨h, -⟩ | ⟨h, -⟩
    · exact hi0 h
    · exact hi1 h
  · change g6.Adj p q ↔ _
    rw [hadj6, hadj5, hs.adj_iff]
    simp only [hmem]
    constructor
    · rintro ⟨i, j, hp, hq, hj, hij⟩
      exact ⟨⟨i, j, hp, hq, hj⟩, fun h => hij ((hg.sym2_eq_iff hp hq hp0 hp1).mpr h)⟩
    · rintro ⟨⟨i, j, hp, hq, hj⟩, hpq⟩
      exact ⟨i, j, hp, hq, hj, fun h => hpq ((hg.sym2_eq_iff hp hq hp0 hp1).mp h)⟩
  · show g6.totalActiveEdges - 1 = g.totalActiveEdges - if g.Adj p0 p1 then 1 else 0
    rw [if_pos hadj, htotal6, htotal5, htotal4]

end Calls

end Inv

/-! ## The edge set the graph stands for -/

section Refinement

variable [DecidableEq P]

/-- The edge set after an update of the edge between `peer0` and `peer1`. -/
def EdgeState.applyTo (E : Finset (Sym2 P)) (peer0 peer1 : P) : EdgeState → Finset (Sym2 P)
  | .active => insert s(peer0, peer1) E
  | .removed => E.erase s(peer0, peer1)

/-- The edge set a sequence of edge updates builds from no edge. -/
def edgeSet (updates : List ((P × P) × EdgeState)) : Finset (Sym2 P) :=
  updates.foldl (fun E update => update.2.applyTo E update.1.1 update.1.2) ∅

/-- `g` stands for the edge set `E`: its peers are joined along the edges of `E`, and
`total_active_edges` counts them. -/
structure Refines (g : Graph P) (E : Finset (Sym2 P)) : Prop where
  adj_iff : ∀ p q, g.Adj p q ↔ s(p, q) ∈ E
  totalActiveEdges_eq : g.totalActiveEdges = E.card

variable {g : Graph P} {source : P} {E : Finset (Sym2 P)} {p0 p1 : P}

theorem Inv.addEdge_refines (hg : Inv g source) (hE : Refines g E) (hne : p0 ≠ p1) :
    ∃ g', g.addEdge p0 p1 = some g' ∧ Inv g' source ∧ Refines g' (insert s(p0, p1) E) := by
  obtain ⟨g', hadd, hg', hadj', htotal'⟩ := hg.addEdge_spec hne
  refine ⟨g', hadd, hg', ⟨fun p q => ?_, ?_⟩⟩
  · rw [hadj', hE.adj_iff, Finset.mem_insert, or_comm]
  · rw [htotal', hE.totalActiveEdges_eq]
    by_cases hadj : g.Adj p0 p1
    · rw [if_pos hadj, Finset.card_insert_of_mem ((hE.adj_iff p0 p1).mp hadj), Nat.add_zero]
    · rw [if_neg hadj, Finset.card_insert_of_notMem (fun h => hadj ((hE.adj_iff p0 p1).mpr h))]

theorem Inv.removeEdge_refines (hg : Inv g source) (hE : Refines g E) (hne : p0 ≠ p1) :
    ∃ g', g.removeEdge p0 p1 = some g' ∧ Inv g' source ∧ Refines g' (E.erase s(p0, p1)) := by
  have htotal : g.Adj p0 p1 → 0 < g.totalActiveEdges := fun h =>
    hE.totalActiveEdges_eq ▸ Finset.card_pos.mpr ⟨_, (hE.adj_iff p0 p1).mp h⟩
  obtain ⟨g', hrem, hg', hadj', htotal'⟩ := hg.removeEdge_spec hne htotal
  refine ⟨g', hrem, hg', ⟨fun p q => ?_, ?_⟩⟩
  · rw [hadj', hE.adj_iff, Finset.mem_erase, and_comm]
  · rw [htotal', hE.totalActiveEdges_eq]
    by_cases hadj : g.Adj p0 p1
    · rw [if_pos hadj, Finset.card_erase_of_mem ((hE.adj_iff p0 p1).mp hadj)]
    · rw [if_neg hadj, Finset.erase_eq_of_notMem (fun h => hadj ((hE.adj_iff p0 p1).mpr h)),
        Nat.sub_zero]

theorem Inv.updateEdge_refines (hg : Inv g source) (hE : Refines g E) (hne : p0 ≠ p1)
    (state : EdgeState) :
    ∃ g', g.updateEdge p0 p1 state = some g' ∧ Inv g' source ∧
      Refines g' (state.applyTo E p0 p1) := by
  cases state with
  | active => exact hg.addEdge_refines hE hne
  | removed => exact hg.removeEdge_refines hE hne

theorem refines_new (source : P) : Refines (new source) ∅ := by
  refine ⟨fun p q => iff_of_false ?_ (Finset.notMem_empty _), rfl⟩
  rintro ⟨i, j, -, -, hj⟩
  rw [nbrs_new] at hj
  cases hj

/-- Every run of edge updates with distinct endpoints from `Graph::new` keeps `Inv` and stands
for the edge set the updates build. -/
theorem runUpdates_inv (source : P) (updates : List ((P × P) × EdgeState))
    (hne : ∀ update ∈ updates, update.1.1 ≠ update.1.2) :
    ∃ g, (new source).runUpdates updates = some g ∧ Inv g source ∧ Refines g (edgeSet updates) := by
  have hstep : ∀ (g : Graph P) (E : Finset (Sym2 P)) (update : (P × P) × EdgeState),
      update.1.1 ≠ update.1.2 → Inv g source ∧ Refines g E →
      ∃ g', g.updateEdge update.1.1 update.1.2 update.2 = some g' ∧
        (Inv g' source ∧ Refines g' (update.2.applyTo E update.1.1 update.1.2)) := by
    rintro g E update hupdate ⟨hg, hE⟩
    obtain ⟨g', hcall, hg', hE'⟩ := hg.updateEdge_refines hE hupdate update.2
    exact ⟨g', hcall, hg', hE'⟩
  obtain ⟨g, hrun, hg, hE⟩ :=
    List.foldlM_option_simulation hstep updates hne ⟨Inv.inv_new source, refines_new source⟩
  exact ⟨g, hrun, hg, hE⟩

/-- From `Graph::new`, every sequence of edge updates with distinct endpoints runs without a
panic, keeps the numbering consistent, and leaves a graph whose `contains_edge` is membership
in the edge set the updates build, whose `total_active_edges` is its size, and whose peers
with an id are the source and the endpoints of its edges. -/
theorem runUpdates_refines (source : P) (updates : List ((P × P) × EdgeState))
    (hne : ∀ update ∈ updates, update.1.1 ≠ update.1.2) :
    ∃ g, (new source).runUpdates updates = some g ∧ Inv g source ∧
      (∀ p q, g.containsEdge p q = some (decide (s(p, q) ∈ edgeSet updates))) ∧
      g.totalActiveEdges = (edgeSet updates).card ∧
      ∀ p, (g.p2id p).isSome ↔ p = source ∨ ∃ q, s(p, q) ∈ edgeSet updates := by
  obtain ⟨g, hrun, hg, hE⟩ := runUpdates_inv source updates hne
  refine ⟨g, hrun, hg, fun p q => ?_, hE.totalActiveEdges_eq, fun p => ?_⟩
  · rw [hg.containsEdge_eq, Option.some.injEq, decide_eq_decide]
    exact hE.adj_iff p q
  · simp only [hg.p2id_isSome_iff, hE.adj_iff]

/-- Two edges from the source and one of them removed. -/
theorem runUpdates_refines_star : (∀ update ∈ [((0, 1), EdgeState.active),
      ((0, 2), EdgeState.active), ((1, 0), EdgeState.removed)], update.1.1 ≠ update.1.2) ∧
    ∃ g, (new 0).runUpdates [((0, 1), EdgeState.active), ((0, 2), EdgeState.active),
        ((1, 0), EdgeState.removed)] = some g ∧ Inv g 0 ∧
      (∀ p q, g.containsEdge p q = some (decide (s(p, q) ∈ edgeSet [((0, 1), EdgeState.active),
        ((0, 2), EdgeState.active), ((1, 0), EdgeState.removed)]))) ∧
      g.totalActiveEdges = (edgeSet [((0, 1), EdgeState.active), ((0, 2), EdgeState.active),
        ((1, 0), EdgeState.removed)]).card ∧
      ∀ p, (g.p2id p).isSome ↔ p = 0 ∨ ∃ q, s(p, q) ∈ edgeSet [((0, 1), EdgeState.active),
        ((0, 2), EdgeState.active), ((1, 0), EdgeState.removed)] :=
  ⟨by decide, runUpdates_refines 0 _ (by decide)⟩

/-! ## The width of the ids -/

theorem getId_length_le {g g' : Graph P} {peer : P} {id : ℕ} (h : g.getId peer = some (g', id)) :
    g'.id2p.length ≤ g.id2p.length + 1 := by
  unfold getId at h
  cases hp : g.p2id peer with
  | some i =>
      rw [hp] at h
      cases h
      omega
  | none =>
      rw [hp] at h
      cases hu : g.unused.getLast? with
      | none =>
          rw [hu] at h
          cases h
          simp
      | some val =>
          rw [hu] at h
          simp only [Option.bind_eq_bind, Option.bind_eq_some_iff] at h
          obtain ⟨_, _, _, _, h⟩ := h
          split_ifs at h
          cases h
          simp

omit [DecidableEq P] in
theorem updateAdjacency_id2p {g g' : Graph P} {i : ℕ} {f : List ℕ → List ℕ}
    (h : g.updateAdjacency i f = some g') : g'.id2p = g.id2p := by
  unfold updateAdjacency at h
  simp only [Option.bind_eq_bind, Option.bind_eq_some_iff] at h
  obtain ⟨_, _, h⟩ := h
  cases h
  rfl

theorem removeIfUnused_id2p {g g' : Graph P} {i : ℕ} (h : g.removeIfUnused i = some g') :
    g'.id2p = g.id2p := by
  unfold removeIfUnused at h
  simp only [Option.bind_eq_bind, Option.bind_eq_some_iff] at h
  obtain ⟨_, _, h⟩ := h
  split_ifs at h
  · simp only [Option.bind_eq_some_iff] at h
    obtain ⟨_, _, h⟩ := h
    cases h
    rfl
  · cases h
    rfl

theorem addEdge_length_le {g g' : Graph P} {peer0 peer1 : P}
    (h : g.addEdge peer0 peer1 = some g') : g'.id2p.length ≤ g.id2p.length + 2 := by
  unfold addEdge at h
  split_ifs at h
  simp only [Option.bind_eq_bind, Option.bind_eq_some_iff] at h
  obtain ⟨contains, -, h⟩ := h
  split_ifs at h
  · cases h
    omega
  · simp only [Option.bind_eq_some_iff] at h
    obtain ⟨a, ha, b, hb, c, hc, d, hd, h⟩ := h
    cases h
    have h1 := getId_length_le ha
    have h2 := getId_length_le hb
    rw [updateAdjacency_id2p hd, updateAdjacency_id2p hc]
    omega

theorem removeEdge_length_le {g g' : Graph P} {peer0 peer1 : P}
    (h : g.removeEdge peer0 peer1 = some g') : g'.id2p.length ≤ g.id2p.length + 2 := by
  unfold removeEdge at h
  split_ifs at h
  simp only [Option.bind_eq_bind, Option.bind_eq_some_iff] at h
  obtain ⟨contains, -, h⟩ := h
  split_ifs at h
  · simp only [Option.bind_eq_some_iff] at h
    obtain ⟨a, ha, b, hb, c, hc, d, hd, e, he, f, hf, h⟩ := h
    split_ifs at h
    cases h
    have h1 := getId_length_le ha
    have h2 := getId_length_le hb
    rw [removeIfUnused_id2p hf, removeIfUnused_id2p he, updateAdjacency_id2p hd,
      updateAdjacency_id2p hc]
    omega
  · cases h
    omega

theorem updateEdge_length_le {g g' : Graph P} {peer0 peer1 : P} {state : EdgeState}
    (h : g.updateEdge peer0 peer1 state = some g') : g'.id2p.length ≤ g.id2p.length + 2 := by
  cases state with
  | active => exact addEdge_length_le h
  | removed => exact removeEdge_length_le h

theorem runUpdates_length_le :
    ∀ (updates : List ((P × P) × EdgeState)) {g g' : Graph P}, g.runUpdates updates = some g' →
      g'.id2p.length ≤ g.id2p.length + 2 * updates.length
  | [], g, g', h => by
      cases h
      omega
  | update :: updates, g, g', h => by
      simp only [runUpdates, List.foldlM_cons, Option.bind_eq_bind, Option.bind_eq_some_iff] at h
      obtain ⟨g1, h1, hrest⟩ := h
      have hstep := updateEdge_length_le h1
      have hrun := runUpdates_length_le updates hrest
      simp only [List.length_cons]
      omega

/-- From `Graph::new`, a run of `n` edge updates with distinct endpoints leaves at most
`2 n + 1` peers in `id2p`, so every id in use is below `2 n + 1`: the `as u32` of a new id, which
is `id2p.len()` before the push, and the `key as u32` of `compute_result`, with `key` below
`id2p.len()`, are exact on every run of fewer than `2 ^ 31` updates. -/
theorem runUpdates_ids_lt (source : P) (updates : List ((P × P) × EdgeState))
    (hne : ∀ update ∈ updates, update.1.1 ≠ update.1.2) :
    ∃ g, (new source).runUpdates updates = some g ∧ g.id2p.length ≤ 2 * updates.length + 1 ∧
      ∀ p i, g.p2id p = some i → i < 2 * updates.length + 1 := by
  obtain ⟨g, hrun, hg, -⟩ := runUpdates_inv source updates hne
  have hlen : g.id2p.length ≤ 2 * updates.length + 1 := by
    have hgrow := runUpdates_length_le updates hrun
    have hnew : (new source).id2p.length = 1 := rfl
    omega
  refine ⟨g, hrun, hlen, fun p i hp => ?_⟩
  have hused := ((hg.p2id_iff p i).mp hp).1
  exact lt_of_lt_of_le (hg.toCore.lt_of_isUsed hused) hlen

theorem runUpdates_ids_lt_star : (∀ update ∈ [((0, 1), EdgeState.active),
      ((0, 2), EdgeState.active), ((1, 0), EdgeState.removed)], update.1.1 ≠ update.1.2) ∧
    ∃ g, (new 0).runUpdates [((0, 1), EdgeState.active), ((0, 2), EdgeState.active),
        ((1, 0), EdgeState.removed)] = some g ∧ g.id2p.length ≤ 2 * 3 + 1 ∧
      ∀ p i, g.p2id p = some i → i < 2 * 3 + 1 :=
  ⟨by decide, runUpdates_ids_lt 0 _ (by decide)⟩

end Refinement

end Graph

end Nearcore.Routing
