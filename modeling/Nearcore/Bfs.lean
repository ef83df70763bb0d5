import Mathlib.Data.Finset.Card
import Mathlib.Tactic

/-!
# Layered search from several seeds

A `Search` names the successors of each node, the nodes the search expands, the seeds with the
layer each starts at, and the labels each seed carries.  `Reach d v` says that a walk reaches
`v` at layer `d`: from a seed at its layer, one layer per edge, leaving expanded nodes only.
`dist v` is the least such layer, and `firstHops v` the labels of the seeds that start a walk
of that length.

`State`, `visit` and `run` are the first-in first-out search that computes them: pop a node,
give each undiscovered successor the next layer and queue it, and join the node's labels into
every successor one layer further.  From a seeded start (`Seeded`: the expanded seeds queued,
all at the last seed layer), with fuel for every node of a finite set closed under successors,
`run` ends with an empty queue, the least layers and the labels of the walks of least length
(`run_correct`).
-/

namespace Bfs

/-- A search: successors, the nodes expanded, the seeds' layers and labels. -/
structure Search (α ι : Type*) where
  succ : α → List α
  expand : α → Prop
  seed : α → Option ℕ
  init : α → Set ι

namespace Search

variable {α ι : Type*} (S : Search α ι)

/-- A walk reaches `v` at layer `d`. -/
inductive Reach : ℕ → α → Prop
  | seed {v : α} {d : ℕ} : S.seed v = some d → Reach d v
  | step {u v : α} {d : ℕ} : Reach d u → S.expand u → v ∈ S.succ u → Reach (d + 1) v

/-- A walk from a seed labelled `k` reaches `v` at layer `d`. -/
inductive Via (k : ι) : ℕ → α → Prop
  | seed {v : α} {d : ℕ} : S.seed v = some d → k ∈ S.init v → Via k d v
  | step {u v : α} {d : ℕ} : Via k d u → S.expand u → v ∈ S.succ u → Via k (d + 1) v

open Classical in
/-- The least layer a walk reaches `v` at. -/
noncomputable def dist (v : α) : Option ℕ :=
  if ∃ d, S.Reach d v then some (sInf {d | S.Reach d v}) else none

/-- The labels of the walks of least length to `v`. -/
def firstHops (v : α) : Set ι := {k | ∃ d, S.dist v = some d ∧ S.Via k d v}

/-- The expanded seeds queued, all at the last seed layer `d0`, and no label off the seeds. -/
structure Seeded (queue0 : List α) (d0 : ℕ) : Prop where
  nodup : queue0.Nodup
  seed_le : ∀ v d, S.seed v = some d → d ≤ d0
  expand_iff : ∀ v, S.expand v ↔ v ∈ queue0 ∨ S.seed v = none
  seed_of_mem : ∀ v ∈ queue0, S.seed v = some d0
  init_eq_empty : ∀ v, S.seed v = none → S.init v = ∅

variable {S}

theorem Via.reach {k : ι} {d : ℕ} {v : α} (h : S.Via k d v) : S.Reach d v := by
  induction h with
  | seed hs _ => exact .seed hs
  | step _ hu hv ih => exact .step ih hu hv

theorem dist_eq_some_iff {v : α} {d : ℕ} :
    S.dist v = some d ↔ S.Reach d v ∧ ∀ d' < d, ¬ S.Reach d' v := by
  unfold dist
  split_ifs with h
  · rw [Option.some.injEq]
    constructor
    · rintro rfl
      exact ⟨Nat.sInf_mem h, fun d' hd' => Nat.notMem_of_lt_sInf hd'⟩
    · rintro ⟨hd, hmin⟩
      refine le_antisymm (Nat.sInf_le hd) (not_lt.mp fun hlt => hmin _ hlt (Nat.sInf_mem h))
  · simp only [false_iff, not_and]
    exact fun hd => absurd ⟨d, hd⟩ h

theorem reach_of_dist {v : α} {d : ℕ} (h : S.dist v = some d) : S.Reach d v :=
  (dist_eq_some_iff.mp h).1

theorem dist_le_of_reach {v : α} {d d' : ℕ} (hv : S.dist v = some d) (h : S.Reach d' v) :
    d ≤ d' :=
  not_lt.mp fun hlt => (dist_eq_some_iff.mp hv).2 d' hlt h

theorem exists_dist_le_of_reach {v : α} {d : ℕ} (h : S.Reach d v) :
    ∃ d' ≤ d, S.dist v = some d' := by
  have hex : ∃ d, S.Reach d v := ⟨d, h⟩
  refine ⟨sInf {d | S.Reach d v}, Nat.sInf_le h, ?_⟩
  unfold dist
  rw [if_pos hex]

theorem exists_dist_succ_le {u v : α} {d : ℕ} (hu : S.dist u = some d) (he : S.expand u)
    (hv : v ∈ S.succ u) : ∃ d' ≤ d + 1, S.dist v = some d' :=
  exists_dist_le_of_reach (.step (reach_of_dist hu) he hv)

/-- A walk of least length is a seed's, or leaves an expanded node one layer closer. -/
theorem dist_cases {v : α} {d : ℕ} (h : S.dist v = some d) :
    S.seed v = some d ∨
      ∃ u d', d = d' + 1 ∧ S.dist u = some d' ∧ S.expand u ∧ v ∈ S.succ u := by
  obtain ⟨hreach, hmin⟩ := dist_eq_some_iff.mp h
  cases hreach with
  | seed hs => exact .inl hs
  | @step u _ d'' hu he hv =>
      obtain ⟨d', hle, hd'⟩ := exists_dist_le_of_reach hu
      have heq : d' = d'' :=
        le_antisymm hle (not_lt.mp fun hlt =>
          hmin (d' + 1) (by omega) (.step (reach_of_dist hd') he hv))
      exact .inr ⟨u, d'', rfl, heq ▸ hd', he, hv⟩

theorem mem_firstHops_iff_via {v : α} {d : ℕ} {k : ι} (h : S.dist v = some d) :
    k ∈ S.firstHops v ↔ S.Via k d v := by
  constructor
  · rintro ⟨d', hd', hvia⟩
    rw [h, Option.some.injEq] at hd'
    exact hd' ▸ hvia
  · exact fun hvia => ⟨d, h, hvia⟩

/-- The labels of the least walks to `v`: its own as a seed at its least layer, and those of
the expanded nodes one layer closer that have `v` as a successor. -/
theorem mem_firstHops_iff {v : α} {d : ℕ} {k : ι} (h : S.dist v = some d) :
    k ∈ S.firstHops v ↔ (S.seed v = some d ∧ k ∈ S.init v) ∨
      ∃ u d', d = d' + 1 ∧ S.dist u = some d' ∧ S.expand u ∧ v ∈ S.succ u ∧
        k ∈ S.firstHops u := by
  rw [mem_firstHops_iff_via h]
  constructor
  · intro hvia
    cases hvia with
    | seed hs hk => exact .inl ⟨hs, hk⟩
    | @step u _ d'' hu he hv =>
        obtain ⟨d', hle, hd'⟩ := exists_dist_le_of_reach hu.reach
        have hge : d'' + 1 ≤ d' + 1 := dist_le_of_reach h (.step (reach_of_dist hd') he hv)
        have heq : d' = d'' := le_antisymm hle (by omega)
        refine .inr ⟨u, d'', rfl, heq ▸ hd', he, hv, ?_⟩
        exact (mem_firstHops_iff_via (heq ▸ hd')).mpr hu
  · rintro (⟨hs, hk⟩ | ⟨u, d', rfl, hu, he, hv, hk⟩)
    · exact .seed hs hk
    · exact .step ((mem_firstHops_iff_via hu).mp hk) he hv

/-- When every expanded seed carries a label, a walk to `v` is labelled unless it is the
walk of an unlabelled seed standing alone. -/
theorem exists_via_of_reach (hinit : ∀ v, S.expand v → S.seed v ≠ none → (S.init v).Nonempty)
    {v : α} {d : ℕ} (h : S.Reach d v) :
    (S.seed v = some d ∧ S.init v = ∅) ∨ ∃ k, S.Via k d v := by
  induction h with
  | @seed v d hs =>
      rcases (S.init v).eq_empty_or_nonempty with hempty | ⟨k, hk⟩
      · exact .inl ⟨hs, hempty⟩
      · exact .inr ⟨k, .seed hs hk⟩
  | @step u v d _ he hv ih =>
      rcases ih with ⟨hs, hempty⟩ | ⟨k, hk⟩
      · obtain ⟨k, hk⟩ := hinit u he (by rw [hs]; exact Option.some_ne_none d)
        rw [hempty] at hk
        exact absurd hk (Set.notMem_empty k)
      · exact .inr ⟨k, .step hk he hv⟩

namespace Seeded

variable {queue0 : List α} {d0 : ℕ}

/-- A walk reaches an expanded node no earlier than the last seed layer. -/
theorem le_of_reach (hS : S.Seeded queue0 d0) {u : α} {d : ℕ} (h : S.Reach d u)
    (hu : S.expand u) : d0 ≤ d := by
  induction h with
  | @seed u d hs =>
      rcases (hS.expand_iff u).mp hu with hmem | hnone
      · rw [hS.seed_of_mem u hmem, Option.some.injEq] at hs
        exact hs.le
      · rw [hs] at hnone
        cases hnone
  | step _ he _ ih =>
      have := ih he
      omega

theorem dist_seed (hS : S.Seeded queue0 d0) {v : α} {d : ℕ} (hs : S.seed v = some d) :
    S.dist v = some d := by
  refine dist_eq_some_iff.mpr ⟨.seed hs, fun d' hd' hreach => ?_⟩
  cases hreach with
  | seed hs' =>
      rw [hs, Option.some.injEq] at hs'
      omega
  | step hu he _ =>
      have hle := hS.le_of_reach hu he
      have hd := hS.seed_le v d hs
      omega

theorem seed_eq_of_mem_init (hS : S.Seeded queue0 d0) {v : α} {d : ℕ} {k : ι}
    (hv : S.dist v = some d) (hk : k ∈ S.init v) : S.seed v = some d := by
  cases hs : S.seed v with
  | none =>
      rw [hS.init_eq_empty v hs] at hk
      exact absurd hk (Set.notMem_empty k)
  | some d' =>
      rw [hS.dist_seed hs] at hv
      exact congrArg some (Option.some.inj hv)

end Seeded

end Search

/-! ## The first-in first-out search -/

/-- The search's state: the queue, the layer of each discovered node, and the labels. -/
structure State (α ι : Type*) where
  queue : List α
  dist : α → Option ℕ
  label : α → Set ι

variable {α ι : Type*}

/-- What is left to do: the queued nodes and the undiscovered nodes of `nodes`. -/
def State.pending (nodes : Finset α) (s : State α ι) : ℕ :=
  s.queue.length + (nodes.filter fun v => s.dist v = none).card

namespace Search

variable (S : Search α ι)

/-- Discovered, expanded and no longer queued: the search has popped `v`. -/
def Popped (s : State α ι) (v : α) : Prop := s.dist v ≠ none ∧ S.expand v ∧ v ∉ s.queue

/-- What holds between two pops, with the queue's head at layer `D`. -/
structure Inv (s : State α ι) (D : ℕ) : Prop where
  /-- A discovered node has its least layer, and every seed is discovered. -/
  dist_eq : ∀ v d, s.dist v = some d → S.dist v = some d
  seed_disc : ∀ v d, S.seed v = some d → s.dist v = some d
  /-- The queue holds expanded nodes of layers `D` and `D + 1`, once each, those of `D` first. -/
  nodup : s.queue.Nodup
  expand_of_mem : ∀ q ∈ s.queue, S.expand q
  layer : ∀ q ∈ s.queue, s.dist q = some D ∨ s.dist q = some (D + 1)
  sorted : s.queue.Pairwise fun a b => s.dist a = some (D + 1) → s.dist b = some (D + 1)
  /-- The successors of a popped node are discovered, and every expanded node below layer `D`
  is popped. -/
  popped_succ : ∀ v, S.Popped s v → ∀ w ∈ S.succ v, s.dist w ≠ none
  complete : ∀ v d, S.expand v → S.dist v = some d → d < D → S.Popped s v
  /-- A node's labels: its own, and those of the popped nodes one layer closer. -/
  label_eq : ∀ v, s.label v = S.init v ∪ {k | ∃ u d, S.Popped s u ∧ v ∈ S.succ u ∧
    S.dist u = some d ∧ S.dist v = some (d + 1) ∧ k ∈ S.firstHops u}

namespace Inv

variable {S} {s : State α ι} {D : ℕ} {queue0 : List α} {d0 : ℕ}

theorem disc_of_dist (h : S.Inv s D) {v : α} {d : ℕ} (hv : S.dist v = some d) (hd : d ≤ D) :
    s.dist v ≠ none := by
  rcases dist_cases hv with hs | ⟨u, d', rfl, hu, he, hvu⟩
  · rw [h.seed_disc v d hs]
    exact Option.some_ne_none d
  · exact h.popped_succ u (h.complete u d' he hu (by omega)) v hvu

theorem label_eq_firstHops (hS : S.Seeded queue0 d0) (h : S.Inv s D) {v : α} {d : ℕ}
    (hv : S.dist v = some d) (hd : d ≤ D) : s.label v = S.firstHops v := by
  ext k
  rw [h.label_eq, Set.mem_union, Set.mem_ofPred_eq, mem_firstHops_iff hv]
  apply or_congr
  · exact ⟨fun hk => ⟨hS.seed_eq_of_mem_init hv hk, hk⟩, And.right⟩
  · constructor
    · rintro ⟨u, d', hu, hvu, hdu, hdv, hk⟩
      rw [hv, Option.some.injEq] at hdv
      exact ⟨u, d', hdv, hdu, hu.2.1, hvu, hk⟩
    · rintro ⟨u, d', rfl, hdu, he, hvu, hk⟩
      exact ⟨u, d', h.complete u d' he hdu (by omega), hvu, hdu, hv, hk⟩

theorem advance (h : S.Inv s D) (hq : ∀ q ∈ s.queue, s.dist q = some (D + 1)) :
    S.Inv s (D + 1) where
  dist_eq := h.dist_eq
  seed_disc := h.seed_disc
  nodup := h.nodup
  expand_of_mem := h.expand_of_mem
  layer := fun q hmem => .inl (hq q hmem)
  sorted := h.nodup.imp_of_mem fun ha _ _ hda => by
    rw [hq _ ha, Option.some.injEq] at hda
    omega
  popped_succ := h.popped_succ
  complete := by
    intro v d he hv hd
    rcases Nat.lt_succ_iff_lt_or_eq.mp hd with hlt | rfl
    · exact h.complete v d he hv hlt
    · -- a node of layer `D` is discovered, at layer `D`, so it is not queued
      have hdisc := h.disc_of_dist hv le_rfl
      refine ⟨hdisc, he, fun hmem => ?_⟩
      obtain ⟨d', hd'⟩ := Option.ne_none_iff_exists'.mp hdisc
      have hlayer := h.dist_eq v d' hd'
      rw [hv, Option.some.injEq] at hlayer
      rw [hq v hmem, Option.some.injEq] at hd'
      omega
  label_eq := h.label_eq

theorem exists_head (h : S.Inv s D) {cur : α} {rest : List α} (hq : s.queue = cur :: rest) :
    ∃ D', S.Inv s D' ∧ s.dist cur = some D' := by
  have hmem : cur ∈ s.queue := hq ▸ List.mem_cons_self
  rcases h.layer cur hmem with hD | hD1
  · exact ⟨D, h, hD⟩
  · refine ⟨D + 1, h.advance fun q hq' => ?_, hD1⟩
    have hsorted := h.sorted
    rw [hq, List.pairwise_cons] at hsorted
    rw [hq, List.mem_cons] at hq'
    rcases hq' with rfl | hq'
    · exact hD1
    · exact hsorted.1 q hq' hD1

/-- With the queue empty, the invariant holds at every layer from `D` on. -/
theorem of_queue_eq_nil (h : S.Inv s D) (hq : s.queue = []) : ∀ n, S.Inv s (D + n)
  | 0 => h
  | n + 1 => (of_queue_eq_nil h hq n).advance (by simp [hq])

theorem dist_eq_of_queue_eq_nil (h : S.Inv s D) (hq : s.queue = []) : s.dist = S.dist := by
  funext v
  cases hsv : s.dist v with
  | some d => exact (h.dist_eq v d hsv).symm
  | none =>
      cases hv : S.dist v with
      | none => rfl
      | some d => exact absurd hsv ((h.of_queue_eq_nil hq d).disc_of_dist hv (by omega))

theorem initial (hS : S.Seeded queue0 d0) : S.Inv ⟨queue0, S.seed, S.init⟩ d0 where
  dist_eq := fun _ _ hs => hS.dist_seed hs
  seed_disc := fun _ _ hs => hs
  nodup := hS.nodup
  expand_of_mem := fun q hq => (hS.expand_iff q).mpr (.inl hq)
  layer := fun q hq => .inl (hS.seed_of_mem q hq)
  sorted := hS.nodup.imp_of_mem fun ha _ _ hda => by
    change S.seed _ = some (d0 + 1) at hda
    rw [hS.seed_of_mem _ ha, Option.some.injEq] at hda
    omega
  popped_succ := by
    rintro v ⟨hdisc, he, hnq⟩
    rcases (hS.expand_iff v).mp he with hmem | hnone
    · exact absurd hmem hnq
    · exact absurd hnone hdisc
  complete := fun v d he hv hd => absurd (hS.le_of_reach (reach_of_dist hv) he) (by omega)
  label_eq := by
    intro v
    ext k
    constructor
    · exact .inl
    · rintro (hk | ⟨u, d, ⟨hdisc, he, hnq⟩, -⟩)
      · exact hk
      · rcases (hS.expand_iff u).mp he with hmem | hnone
        · exact absurd hmem hnq
        · exact absurd hnone hdisc

end Inv

end Search

variable [DecidableEq α]

/-- A successor `v` of `cur`, which lies at layer `d`: discovered at the next layer and queued
if it was not, then given `cur`'s labels if it lies at the next layer. -/
def visit (cur : α) (d : ℕ) (s : State α ι) (v : α) : State α ι :=
  let s : State α ι :=
    if s.dist v = none then ⟨s.queue ++ [v], Function.update s.dist v (some (d + 1)), s.label⟩
    else s
  if s.dist v = some (d + 1) then
    ⟨s.queue, s.dist, Function.update s.label v (s.label v ∪ s.label cur)⟩
  else s

/-- Pop the head of the queue and visit its successors in order. -/
def popStep (succ : α → List α) (s : State α ι) : Option (State α ι) :=
  match s.queue with
  | [] => none
  | cur :: queue =>
      (s.dist cur).map fun d => (succ cur).foldl (visit cur d) ⟨queue, s.dist, s.label⟩

/-- Pop until the queue is empty, at most `fuel` times. -/
def run (succ : α → List α) : ℕ → State α ι → Option (State α ι)
  | 0, s => if s.queue = [] then some s else none
  | fuel + 1, s => if s.queue = [] then some s else (popStep succ s).bind (run succ fuel)

section Visit

variable (cur : α) (d : ℕ)

theorem dist_visit (s : State α ι) (w v : α) :
    (visit cur d s w).dist v = if v = w ∧ s.dist w = none then some (d + 1) else s.dist v := by
  have hdist : (visit cur d s w).dist =
      if s.dist w = none then Function.update s.dist w (some (d + 1)) else s.dist := by
    unfold visit
    dsimp only
    split_ifs <;> rfl
  rw [hdist]
  by_cases hw : s.dist w = none
  · by_cases hv : v = w
    · simp [hw, hv]
    · simp [hw, hv]
  · simp [hw]

theorem queue_visit (s : State α ι) (w : α) :
    (visit cur d s w).queue = if s.dist w = none then s.queue ++ [w] else s.queue := by
  unfold visit
  dsimp only
  split_ifs <;> rfl

theorem label_visit (s : State α ι) (w v : α) :
    (visit cur d s w).label v =
      if v = w ∧ (s.dist w = none ∨ s.dist w = some (d + 1)) then s.label w ∪ s.label cur
      else s.label v := by
  unfold visit
  by_cases hw : s.dist w = none
  · by_cases hv : v = w
    · simp [hw, hv]
    · simp [hw, hv]
  · by_cases hd : s.dist w = some (d + 1)
    · by_cases hv : v = w
      · simp [hd, hv]
      · simp [hd, hv]
    · simp [hw, hd]

theorem dist_foldl_visit (L : List α) (s : State α ι) (v : α) :
    (L.foldl (visit cur d) s).dist v =
      if v ∈ L ∧ s.dist v = none then some (d + 1) else s.dist v := by
  induction L generalizing s with
  | nil => simp
  | cons w L ih =>
      rw [List.foldl_cons, ih, dist_visit]
      by_cases hvw : v = w
      · subst hvw
        by_cases hv : s.dist v = none
        · simp [hv]
        · simp [hv]
      · simp [hvw]

theorem queue_foldl_visit (L : List α) (s : State α ι) :
    ∃ new, (L.foldl (visit cur d) s).queue = s.queue ++ new ∧ new.Nodup ∧
      ∀ v, v ∈ new ↔ v ∈ L ∧ s.dist v = none := by
  induction L generalizing s with
  | nil => exact ⟨[], by simp, List.nodup_nil, by simp⟩
  | cons w L ih =>
      obtain ⟨new, hqueue, hnodup, hnew⟩ := ih (visit cur d s w)
      have hnone : ∀ v, (visit cur d s w).dist v = none ↔ s.dist v = none ∧ v ≠ w := by
        intro v
        rw [dist_visit]
        by_cases hvw : v = w
        · subst hvw
          by_cases hv : s.dist v = none
          · simp [hv]
          · simp [hv]
        · simp [hvw]
      refine ⟨(if s.dist w = none then [w] else []) ++ new, ?_, ?_, fun v => ?_⟩
      · rw [List.foldl_cons, hqueue, queue_visit]
        split_ifs <;> simp
      · refine List.Nodup.append ?_ hnodup ?_
        · split_ifs <;> simp
        · intro a ha hnew'
          split_ifs at ha with hw
          · rw [List.mem_singleton] at ha
            subst ha
            exact ((hnone a).mp ((hnew a).mp hnew').2).2 rfl
          · cases ha
      · rw [List.mem_append, hnew, hnone, List.mem_cons]
        by_cases hvw : v = w
        · subst hvw
          by_cases hv : s.dist v = none
          · simp [hv]
          · simp [hv]
        · simp [hvw]

/-- The visits join `cur`'s labels, which they leave as they are, into every successor found
at the next layer. -/
theorem label_foldl_visit (L : List α) (s : State α ι) (hcur : s.dist cur = some d) (v : α) :
    (L.foldl (visit cur d) s).label v =
      if v ∈ L ∧ (L.foldl (visit cur d) s).dist v = some (d + 1) then s.label v ∪ s.label cur
      else s.label v := by
  induction L generalizing s with
  | nil => simp
  | cons w L ih =>
      have hcur' : (visit cur d s w).dist cur = some d := by
        rw [dist_visit, if_neg, hcur]
        rintro ⟨rfl, hnone⟩
        rw [hcur] at hnone
        cases hnone
      have hlabel_cur : (visit cur d s w).label cur = s.label cur := by
        rw [label_visit]
        by_cases hcw : cur = w
        · subst hcw
          simp [hcur]
        · simp [hcw]
      rw [List.foldl_cons, ih _ hcur', hlabel_cur, label_visit]
      rw [dist_foldl_visit, dist_visit]
      by_cases hvw : v = w
      · subst hvw
        by_cases hv : s.dist v = none
        · simp [hv, Set.union_assoc]
        · by_cases hd : s.dist v = some (d + 1)
          · simp [hd, Set.union_assoc]
          · simp [hv, hd]
      · simp [hvw]

end Visit

namespace Search

namespace Inv

variable {S : Search α ι} {s : State α ι} {D : ℕ} {queue0 : List α} {d0 : ℕ}

section Pop

variable {cur : α} {rest : List α} {s' : State α ι}

/-- Popping the head, at layer `D`, keeps the invariant. -/
theorem pop (hS : S.Seeded queue0 d0) (h : S.Inv s D) (hq : s.queue = cur :: rest)
    (hcur : s.dist cur = some D)
    (hs' : (S.succ cur).foldl (visit cur D) ⟨rest, s.dist, s.label⟩ = s') : S.Inv s' D := by
  have hdist : ∀ v, s'.dist v =
      if v ∈ S.succ cur ∧ s.dist v = none then some (D + 1) else s.dist v := by
    intro v
    rw [← hs']
    exact dist_foldl_visit cur D _ _ v
  obtain ⟨new, hqueue, hnodup, hnew⟩ :=
    queue_foldl_visit cur D (S.succ cur) ⟨rest, s.dist, s.label⟩
  rw [hs'] at hqueue
  replace hqueue : s'.queue = rest ++ new := hqueue
  replace hnew : ∀ v, v ∈ new ↔ v ∈ S.succ cur ∧ s.dist v = none := hnew
  have hlabel : ∀ v, s'.label v = if v ∈ S.succ cur ∧ s'.dist v = some (D + 1) then
      s.label v ∪ s.label cur else s.label v := by
    intro v
    rw [← hs']
    exact label_foldl_visit cur D (S.succ cur) ⟨rest, s.dist, s.label⟩ hcur v
  have hnd : (cur :: rest).Nodup := hq ▸ h.nodup
  have hkeep : ∀ v, s.dist v ≠ none → s'.dist v = s.dist v := fun v hv => by
    rw [hdist, if_neg fun hc => hv hc.2]
  have hfound : ∀ v ∈ S.succ cur, s'.dist v ≠ none := by
    intro v hv
    rw [hdist]
    split_ifs with hc
    · exact Option.some_ne_none _
    · exact fun hnone => hc ⟨hv, hnone⟩
  have hdist_cur : S.dist cur = some D := h.dist_eq cur D hcur
  have hexpand_cur : S.expand cur := h.expand_of_mem cur (hq ▸ List.mem_cons_self)
  have hdisc_rest : ∀ q ∈ rest, s.dist q ≠ none := fun q hmem =>
    (h.layer q (hq ▸ List.mem_cons_of_mem cur hmem)).elim
      (fun hd => hd ▸ Option.some_ne_none _) (fun hd => hd ▸ Option.some_ne_none _)
  have hnext : ∀ v ∈ S.succ cur, s.dist v = none → S.dist v = some (D + 1) := by
    intro v hv hnone
    obtain ⟨d', hle, hd'⟩ := exists_dist_succ_le hdist_cur hexpand_cur hv
    rcases Nat.lt_or_eq_of_le hle with hlt | rfl
    · exact absurd hnone (h.disc_of_dist hd' (by omega))
    · exact hd'
  have hdist_eq : ∀ v d, s'.dist v = some d → S.dist v = some d := by
    intro v d hv
    rw [hdist] at hv
    split_ifs at hv with hc
    · rw [Option.some.injEq] at hv
      exact hv ▸ hnext v hc.1 hc.2
    · exact h.dist_eq v d hv
  have hpopped : ∀ u, S.Popped s' u ↔ S.Popped s u ∨ u = cur := by
    intro u
    constructor
    · rintro ⟨hdu, he, hnq⟩
      rw [hqueue, List.mem_append, not_or] at hnq
      have hdu' : s.dist u ≠ none := by
        intro hnone
        refine hnq.2 ((hnew u).mpr ⟨?_, hnone⟩)
        by_contra hL
        rw [hdist, if_neg fun hc => hL hc.1] at hdu
        exact hdu hnone
      by_cases hu : u = cur
      · exact .inr hu
      · refine .inl ⟨hdu', he, ?_⟩
        rw [hq, List.mem_cons, not_or]
        exact ⟨hu, hnq.1⟩
    · rintro (⟨hdu, he, hnq⟩ | hu)
      · refine ⟨(hkeep u hdu).symm ▸ hdu, he, ?_⟩
        rw [hq, List.mem_cons, not_or] at hnq
        rw [hqueue, List.mem_append, not_or]
        exact ⟨hnq.2, fun hn => hdu ((hnew u).mp hn).2⟩
      · rw [hu]
        have hdisc : s.dist cur ≠ none := by
          rw [hcur]
          exact Option.some_ne_none D
        refine ⟨(hkeep cur hdisc).symm ▸ hdisc, hexpand_cur, ?_⟩
        rw [hqueue, List.mem_append, not_or]
        exact ⟨(List.nodup_cons.mp hnd).1, fun hn => hdisc ((hnew cur).mp hn).2⟩
  have hcur_label : s.label cur = S.firstHops cur := h.label_eq_firstHops hS hdist_cur le_rfl
  refine ⟨hdist_eq, fun v d hs => ?_, ?_, ?_, ?_, ?_, ?_, fun v d he hv hd =>
    (hpopped v).mpr (.inl (h.complete v d he hv hd)), fun v => ?_⟩
  · have hsv := h.seed_disc v d hs
    rw [hkeep v (hsv ▸ Option.some_ne_none d), hsv]
  · rw [hqueue]
    refine (List.nodup_cons.mp hnd).2.append hnodup fun a ha hn => ?_
    exact hdisc_rest a ha ((hnew a).mp hn).2
  · intro q hmem
    rw [hqueue, List.mem_append] at hmem
    rcases hmem with hmem | hmem
    · exact h.expand_of_mem q (hq ▸ List.mem_cons_of_mem cur hmem)
    · -- a node undiscovered so far is no seed, so it is expanded
      have hnone := ((hnew q).mp hmem).2
      refine (hS.expand_iff q).mpr (.inr ?_)
      cases hsq : S.seed q with
      | none => rfl
      | some d => rw [h.seed_disc q d hsq] at hnone; cases hnone
  · intro q hmem
    rw [hqueue, List.mem_append] at hmem
    rcases hmem with hmem | hmem
    · rw [hkeep q (hdisc_rest q hmem)]
      exact h.layer q (hq ▸ List.mem_cons_of_mem cur hmem)
    · obtain ⟨hL, hnone⟩ := (hnew q).mp hmem
      right
      rw [hdist, if_pos ⟨hL, hnone⟩]
  · have hsorted := h.sorted
    rw [hq, List.pairwise_cons] at hsorted
    have hnew_top : ∀ b ∈ new, s'.dist b = some (D + 1) := fun b hb => by
      obtain ⟨hL, hnone⟩ := (hnew b).mp hb
      rw [hdist, if_pos ⟨hL, hnone⟩]
    rw [hqueue, List.pairwise_append]
    refine ⟨hsorted.2.imp_of_mem fun ha hb hab hda => ?_, hnodup.imp_of_mem
      fun _ hb _ _ => hnew_top _ hb, fun _ _ b hb _ => hnew_top b hb⟩
    rw [hkeep _ (hdisc_rest _ ha)] at hda
    rw [hkeep _ (hdisc_rest _ hb)]
    exact hab hda
  · intro v hv w hw
    rcases (hpopped v).mp hv with hv | rfl
    · have hsw := h.popped_succ v hv w hw
      rw [hkeep w hsw]
      exact hsw
    · exact hfound w hw
  · -- `cur`'s labels, final at its pop, go to its successors one layer further
    have hcond : (v ∈ S.succ cur ∧ s'.dist v = some (D + 1)) ↔
        (v ∈ S.succ cur ∧ S.dist v = some (D + 1)) := by
      constructor
      · rintro ⟨hv, hd⟩
        exact ⟨hv, hdist_eq v _ hd⟩
      · rintro ⟨hv, hd⟩
        obtain ⟨x, hx⟩ := Option.ne_none_iff_exists'.mp (hfound v hv)
        have hxD := hdist_eq v x hx
        rw [hd, Option.some.injEq] at hxD
        exact ⟨hv, hxD ▸ hx⟩
    rw [hlabel, h.label_eq v, hcur_label]
    by_cases hc : v ∈ S.succ cur ∧ S.dist v = some (D + 1)
    · rw [if_pos (hcond.mpr hc)]
      ext k
      constructor
      · rintro ((hk | ⟨u, d, hu, hvu, hdu, hdv, hk⟩) | hk)
        · exact .inl hk
        · exact .inr ⟨u, d, (hpopped u).mpr (.inl hu), hvu, hdu, hdv, hk⟩
        · exact .inr ⟨cur, D, (hpopped cur).mpr (.inr rfl), hc.1, hdist_cur, hc.2, hk⟩
      · rintro (hk | ⟨u, d, hu, hvu, hdu, hdv, hk⟩)
        · exact .inl (.inl hk)
        · rcases (hpopped u).mp hu with hu | rfl
          · exact .inl (.inr ⟨u, d, hu, hvu, hdu, hdv, hk⟩)
          · exact .inr hk
    · rw [if_neg fun hc' => hc (hcond.mp hc')]
      ext k
      constructor
      · rintro (hk | ⟨u, d, hu, hvu, hdu, hdv, hk⟩)
        · exact .inl hk
        · exact .inr ⟨u, d, (hpopped u).mpr (.inl hu), hvu, hdu, hdv, hk⟩
      · rintro (hk | ⟨u, d, hu, hvu, hdu, hdv, hk⟩)
        · exact .inl hk
        · rcases (hpopped u).mp hu with hu | rfl
          · exact .inr ⟨u, d, hu, hvu, hdu, hdv, hk⟩
          · rw [hdist_cur, Option.some.injEq] at hdu
            exact absurd ⟨hvu, hdu ▸ hdv⟩ hc

/-- A pop leaves one thing less to do: the head leaves the queue, and each node it discovers
moves from the undiscovered nodes to the queue. -/
theorem pending_pop {nodes : Finset α} (hsucc : ∀ v ∈ S.succ cur, v ∈ nodes)
    (hq : s.queue = cur :: rest)
    (hs' : (S.succ cur).foldl (visit cur D) ⟨rest, s.dist, s.label⟩ = s') :
    s'.pending nodes + 1 = s.pending nodes := by
  have hdist : ∀ v, s'.dist v =
      if v ∈ S.succ cur ∧ s.dist v = none then some (D + 1) else s.dist v := by
    intro v
    rw [← hs']
    exact dist_foldl_visit cur D _ _ v
  obtain ⟨new, hqueue, hnodup, hnew⟩ :=
    queue_foldl_visit cur D (S.succ cur) ⟨rest, s.dist, s.label⟩
  rw [hs'] at hqueue
  replace hqueue : s'.queue = rest ++ new := hqueue
  replace hnew : ∀ v, v ∈ new ↔ v ∈ S.succ cur ∧ s.dist v = none := hnew
  have hundisc : ∀ v, s'.dist v = none ↔ s.dist v = none ∧ v ∉ S.succ cur := by
    intro v
    rw [hdist]
    by_cases hv : v ∈ S.succ cur
    · by_cases hnone : s.dist v = none
      · simp [hv, hnone]
      · simp [hv, hnone]
    · simp [hv]
  have hsplit : nodes.filter (fun v => s.dist v = none) =
      nodes.filter (fun v => s'.dist v = none) ∪ new.toFinset := by
    ext v
    simp only [Finset.mem_union, Finset.mem_filter, List.mem_toFinset, hnew, hundisc]
    constructor
    · rintro ⟨hv, hnone⟩
      by_cases hL : v ∈ S.succ cur
      · exact .inr ⟨hL, hnone⟩
      · exact .inl ⟨hv, hnone, hL⟩
    · rintro (⟨hv, hnone, -⟩ | ⟨hL, hnone⟩)
      · exact ⟨hv, hnone⟩
      · exact ⟨hsucc v hL, hnone⟩
  have hdisj : Disjoint (nodes.filter fun v => s'.dist v = none) new.toFinset := by
    rw [Finset.disjoint_left]
    intro v hv hn
    rw [Finset.mem_filter, hundisc] at hv
    exact hv.2.2 ((hnew v).mp (List.mem_toFinset.mp hn)).1
  unfold State.pending
  rw [hqueue, hq, hsplit, Finset.card_union_of_disjoint hdisj,
    List.toFinset_card_of_nodup hnodup, List.length_append, List.length_cons]
  omega

end Pop

theorem pending_initial (hS : S.Seeded queue0 d0) {nodes : Finset α}
    (hqueue : ∀ v ∈ queue0, v ∈ nodes) :
    (⟨queue0, S.seed, S.init⟩ : State α ι).pending nodes ≤ nodes.card := by
  have hdisj : Disjoint queue0.toFinset (nodes.filter fun v => S.seed v = none) := by
    rw [Finset.disjoint_left]
    intro v hv hn
    rw [Finset.mem_filter, hS.seed_of_mem v (List.mem_toFinset.mp hv)] at hn
    cases hn.2
  have hsub : queue0.toFinset ∪ nodes.filter (fun v => S.seed v = none) ⊆ nodes := by
    intro v hv
    rcases Finset.mem_union.mp hv with hv | hv
    · exact hqueue v (List.mem_toFinset.mp hv)
    · exact (Finset.mem_filter.mp hv).1
  have hcard := Finset.card_le_card hsub
  rw [Finset.card_union_of_disjoint hdisj, List.toFinset_card_of_nodup hS.nodup] at hcard
  exact hcard

end Inv

end Search

theorem popStep_eq (succ : α → List α) {s : State α ι} {cur : α} {rest : List α} {d : ℕ}
    (hq : s.queue = cur :: rest) (hcur : s.dist cur = some d) :
    popStep succ s = some ((succ cur).foldl (visit cur d) ⟨rest, s.dist, s.label⟩) := by
  simp [popStep, hq, hcur]

namespace Search

variable {S : Search α ι} {queue0 : List α} {d0 : ℕ}

/-- Enough fuel for what is left to do empties the queue, keeping the invariant. -/
theorem run_spec (hS : S.Seeded queue0 d0) {nodes : Finset α}
    (hsucc : ∀ u, ∀ v ∈ S.succ u, v ∈ nodes) :
    ∀ (fuel : ℕ) (s : State α ι) (D : ℕ), S.Inv s D → (∀ q ∈ s.queue, q ∈ nodes) →
      s.pending nodes ≤ fuel → ∃ s' D', run S.succ fuel s = some s' ∧ s'.queue = [] ∧ S.Inv s' D'
  | fuel, s, D, h, hnodes, hfuel => by
      cases hq : s.queue with
      | nil =>
          refine ⟨s, D, ?_, hq, h⟩
          cases fuel <;> simp [run, hq]
      | cons cur rest =>
          obtain ⟨D', h', hcur⟩ := h.exists_head hq
          cases fuel with
          | zero =>
              have : s.queue.length ≤ s.pending nodes := Nat.le_add_right _ _
              rw [hq, List.length_cons] at this
              omega
          | succ fuel =>
              have hs' := h'.pop hS hq hcur rfl
              have hpending := Inv.pending_pop (D := D') (hsucc cur) hq rfl
              obtain ⟨new, hqueue, -, hnew⟩ :=
                queue_foldl_visit cur D' (S.succ cur) ⟨rest, s.dist, s.label⟩
              replace hqueue : ((S.succ cur).foldl (visit cur D') ⟨rest, s.dist, s.label⟩).queue =
                rest ++ new := hqueue
              have hnodes' : ∀ q ∈ ((S.succ cur).foldl (visit cur D')
                  ⟨rest, s.dist, s.label⟩).queue, q ∈ nodes := by
                intro q hmem
                rw [hqueue, List.mem_append] at hmem
                rcases hmem with hmem | hmem
                · exact hnodes q (hq ▸ List.mem_cons_of_mem cur hmem)
                · exact hsucc cur q ((hnew q).mp hmem).1
              obtain ⟨s'', D'', hrun, hnil, hinv⟩ :=
                run_spec hS hsucc fuel _ D' hs' hnodes' (by omega)
              refine ⟨s'', D'', ?_, hnil, hinv⟩
              rw [run, if_neg (by simp [hq]), popStep_eq S.succ hq hcur, Option.bind_some]
              exact hrun

/-- The search from a seeded start, with fuel for every node of a finite set closed under
successors, ends with an empty queue, every node at its least layer and every reached node
with the labels of its least walks. -/
theorem run_correct (hS : S.Seeded queue0 d0) {nodes : Finset α}
    (hsucc : ∀ u, ∀ v ∈ S.succ u, v ∈ nodes) (hqueue : ∀ v ∈ queue0, v ∈ nodes) {fuel : ℕ}
    (hfuel : nodes.card ≤ fuel) :
    ∃ s, run S.succ fuel ⟨queue0, S.seed, S.init⟩ = some s ∧ s.queue = [] ∧
      s.dist = S.dist ∧ ∀ v d, S.dist v = some d → s.label v = S.firstHops v := by
  obtain ⟨s, D, hrun, hnil, h⟩ := run_spec hS hsucc fuel _ d0 (Inv.initial hS) hqueue
    ((Inv.pending_initial hS hqueue).trans hfuel)
  refine ⟨s, hrun, hnil, h.dist_eq_of_queue_eq_nil hnil, fun v d hv => ?_⟩
  exact (h.of_queue_eq_nil hnil d).label_eq_firstHops hS hv (by omega)

end Search

end Bfs
