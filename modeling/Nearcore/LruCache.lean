import Mathlib.Data.List.Nodup

/-!
# A least-recently-used cache

An LRU cache holds at most `cap` entries, one per key, in the order of their last use, the most
recent first. `get` returns the value of a key and moves its entry to the front; `put` sets the
value of a key and moves its entry to the front, and when the key is new and the cache is full
it first drops the entry used longest ago. `peek` reads a value and moves nothing.

`FrontBy ks` says that the entries of the keys of `ks` come before all the others. Each use of a
key keeps it with that key added, and under it a `put` that drops an entry of a key of `ks` can
only do so when every entry is of a key of `ks`.
-/

/-- The entries in the order of their last use, the most recent first. -/
structure LruCache (K V : Type) where
  cap : ℕ
  entries : List (K × V)
  cap_pos : 0 < cap
  nodup_keys : (entries.map Prod.fst).Nodup
  length_le : entries.length ≤ cap

namespace LruCache

variable {K V : Type} [DecidableEq K]

/-- The empty cache of capacity `cap`. -/
def new (cap : ℕ) (hcap : 0 < cap) : LruCache K V :=
  ⟨cap, [], hcap, List.nodup_nil, Nat.zero_le _⟩

/-- The value of `k`, the order of use left as it is. -/
def peek (c : LruCache K V) (k : K) : Option V :=
  (c.entries.find? fun e => e.1 = k).map Prod.snd

theorem length_filter_ne_lt {l : List (K × V)} {k : K} (hk : k ∈ l.map Prod.fst) :
    (l.filter fun e => e.1 ≠ k).length < l.length := by
  rw [List.length_filter_lt_length_iff_exists]
  obtain ⟨e, he, rfl⟩ := List.mem_map.mp hk
  exact ⟨e, he, by simp⟩

theorem nodup_cons_filter_ne {l : List (K × V)} (hl : (l.map Prod.fst).Nodup) (k : K) (v : V) :
    (((k, v) :: l.filter fun e => e.1 ≠ k).map Prod.fst).Nodup := by
  rw [List.map_cons, List.nodup_cons]
  exact ⟨by simp, hl.sublist (List.filter_sublist.map _)⟩

/-- The entry of a key the cache holds moved to the front with the value `v`: what `get` and
`put` do to such a key. -/
def promote (c : LruCache K V) (k : K) (v : V) (hk : k ∈ c.entries.map Prod.fst) :
    LruCache K V where
  cap := c.cap
  entries := (k, v) :: c.entries.filter fun e => e.1 ≠ k
  cap_pos := c.cap_pos
  nodup_keys := nodup_cons_filter_ne c.nodup_keys k v
  length_le := by
    have hlt := length_filter_ne_lt hk
    have hle := c.length_le
    rw [List.length_cons]
    omega

theorem mem_keys_of_find?_eq_some {l : List (K × V)} {k : K} {e : K × V}
    (h : l.find? (fun e => e.1 = k) = some e) : k ∈ l.map Prod.fst := by
  have hk : e.1 = k := by simpa using List.find?_some h
  exact hk ▸ List.mem_map_of_mem (List.mem_of_find?_eq_some h)

/-- `LruCache::get`: the value of `k`, its entry moved to the front. -/
def get (c : LruCache K V) (k : K) : Option V × LruCache K V :=
  match h : c.entries.find? (fun e => e.1 = k) with
  | some e => (some e.2, c.promote k e.2 (mem_keys_of_find?_eq_some h))
  | none => (none, c)

/-- `LruCache::put`: `k` set to `v` and moved to the front; a new key in a full cache first
drops the entry used longest ago. -/
def put (c : LruCache K V) (k : K) (v : V) : LruCache K V :=
  if hk : k ∈ c.entries.map Prod.fst then c.promote k v hk
  else if hfull : c.entries.length = c.cap then
    { cap := c.cap
      entries := (k, v) :: c.entries.dropLast
      cap_pos := c.cap_pos
      nodup_keys := by
        have hsub : (c.entries.dropLast.map Prod.fst).Sublist (c.entries.map Prod.fst) :=
          (List.dropLast_sublist _).map _
        rw [List.map_cons, List.nodup_cons]
        exact ⟨fun hmem => hk (hsub.subset hmem), c.nodup_keys.sublist hsub⟩
      length_le := by
        have hle := c.length_le
        have hpos := c.cap_pos
        rw [List.length_cons, List.length_dropLast]
        omega }
  else
    { cap := c.cap
      entries := (k, v) :: c.entries
      cap_pos := c.cap_pos
      nodup_keys := List.nodup_cons.mpr ⟨hk, c.nodup_keys⟩
      length_le := by
        have hle := c.length_le
        rw [List.length_cons]
        omega }

/-- A `put` of `k` drops an entry: `k` is new and the cache is full. -/
def Evicts (c : LruCache K V) (k : K) : Prop :=
  k ∉ c.entries.map Prod.fst ∧ c.entries.length = c.cap

/-- The key of the entry used longest ago. -/
def lastKey (c : LruCache K V) : Option K := c.entries.getLast?.map Prod.fst

/-! ### Reading values -/

variable {c : LruCache K V}

theorem peek_eq_some_iff {k : K} {v : V} : c.peek k = some v ↔ (k, v) ∈ c.entries := by
  constructor
  · intro h
    obtain ⟨e, he, rfl⟩ := Option.map_eq_some_iff.mp h
    have hk : e.1 = k := by simpa using List.find?_some he
    exact hk ▸ List.mem_of_find?_eq_some he
  · intro h
    obtain ⟨e, he⟩ : ∃ e, c.entries.find? (fun e => e.1 = k) = some e :=
      Option.isSome_iff_exists.mp (List.find?_isSome.mpr ⟨(k, v), h, by simp⟩)
    have hk : e.1 = k := by simpa using List.find?_some he
    have heq : e = (k, v) :=
      List.inj_on_of_nodup_map c.nodup_keys (List.mem_of_find?_eq_some he) h hk
    simp [peek, he, heq]

theorem peek_eq_none_iff {k : K} : c.peek k = none ↔ ∀ v, (k, v) ∉ c.entries := by
  rw [peek, Option.map_eq_none_iff, List.find?_eq_none]
  constructor
  · intro h v hv
    exact h (k, v) hv (by simp)
  · intro h e he hek
    have hk : e.1 = k := by simpa using hek
    exact h e.2 (by rw [← hk]; exact he)

theorem peek_congr {c' : LruCache K V} {k : K}
    (h : ∀ v, (k, v) ∈ c'.entries ↔ (k, v) ∈ c.entries) : c'.peek k = c.peek k := by
  cases hc : c.peek k with
  | none => exact peek_eq_none_iff.mpr fun v hv => peek_eq_none_iff.mp hc v ((h v).mp hv)
  | some v => exact peek_eq_some_iff.mpr ((h v).mpr (peek_eq_some_iff.mp hc))

theorem peek_promote (k : K) (v : V) (hk : k ∈ c.entries.map Prod.fst) (k' : K) :
    (c.promote k v hk).peek k' = if k' = k then some v else c.peek k' := by
  split_ifs with hk'
  · subst hk'
    exact peek_eq_some_iff.mpr List.mem_cons_self
  · apply peek_congr
    intro v'
    simp [promote, hk']

@[simp] theorem get_fst (k : K) : (c.get k).1 = c.peek k := by
  unfold get peek
  split
  · next e he =>
      show some e.2 = _
      rw [he]
      rfl
  · next hnone =>
      show none = _
      rw [hnone]
      rfl

theorem peek_get (k k' : K) : (c.get k).2.peek k' = c.peek k' := by
  unfold get
  split
  · next e he =>
      have hk : e.1 = k := by simpa using List.find?_some he
      rw [peek_promote]
      split_ifs with hk'
      · have hmem : (k', e.2) ∈ c.entries := by
          rw [hk', ← hk]
          exact List.mem_of_find?_eq_some he
        rw [peek_eq_some_iff.mpr hmem]
      · rfl
  · rfl

@[simp] theorem peek_put_self (k : K) (v : V) : (c.put k v).peek k = some v := by
  unfold put
  split_ifs with hk hfull
  · rw [peek_promote, if_pos rfl]
  · exact peek_eq_some_iff.mpr List.mem_cons_self
  · exact peek_eq_some_iff.mpr List.mem_cons_self

theorem peek_put_of_ne {k k' : K} (v : V) (hne : k' ≠ k)
    (hlast : c.Evicts k → c.lastKey ≠ some k') : (c.put k v).peek k' = c.peek k' := by
  unfold put
  split_ifs with hk hfull
  · rw [peek_promote, if_neg hne]
  · -- the dropped entry is the last one, whose key is not `k'`
    have hlast' := hlast ⟨hk, hfull⟩
    apply peek_congr
    intro v'
    obtain hnil | ⟨init, e, heq⟩ := List.eq_nil_or_concat c.entries
    · simp [hnil, hne]
    · rw [List.concat_eq_append] at heq
      have he : e.1 ≠ k' := fun he => hlast' (by simp [lastKey, heq, he])
      have hne' : (k', v') ≠ e := fun h => he (h ▸ rfl)
      simp [heq, hne, hne']
  · apply peek_congr
    intro v'
    simp [hne]

theorem mem_put {k : K} {v : V} {e : K × V} (he : e ∈ (c.put k v).entries) :
    e = (k, v) ∨ e ∈ c.entries := by
  unfold put at he
  split_ifs at he with hk hfull
  · rcases List.mem_cons.mp he with rfl | he
    · exact .inl rfl
    · exact .inr (List.mem_of_mem_filter he)
  · rcases List.mem_cons.mp he with rfl | he
    · exact .inl rfl
    · exact .inr ((List.dropLast_sublist _).subset he)
  · exact List.mem_cons.mp he

theorem peek_put_eq_some {k k' : K} {v x : V} (h : (c.put k v).peek k' = some x) :
    (k' = k ∧ x = v) ∨ c.peek k' = some x := by
  rcases mem_put (peek_eq_some_iff.mp h) with heq | hmem
  · obtain ⟨rfl, rfl⟩ := Prod.mk.inj heq
    exact .inl ⟨rfl, rfl⟩
  · exact .inr (peek_eq_some_iff.mpr hmem)

theorem cap_get (k : K) : (c.get k).2.cap = c.cap := by
  unfold get
  split <;> rfl

theorem cap_put (k : K) (v : V) : (c.put k v).cap = c.cap := by
  unfold put
  split_ifs <;> rfl

/-- A run of `get`s changes no value and no capacity. -/
theorem peek_foldl_get (ks : List K) (k' : K) :
    (ks.foldl (fun c k => (c.get k).2) c).peek k' = c.peek k' ∧
      (ks.foldl (fun c k => (c.get k).2) c).cap = c.cap := by
  induction ks generalizing c with
  | nil => exact ⟨rfl, rfl⟩
  | cons k ks ih =>
      obtain ⟨hpeek, hcap⟩ := ih (c := (c.get k).2)
      exact ⟨hpeek.trans (peek_get k k'), hcap.trans (cap_get k)⟩

/-! ### The front of the order of use -/

/-- The entries of the keys of `ks` come before all the others. -/
def FrontBy (ks : List K) (c : LruCache K V) : Prop :=
  ∃ pre rest, c.entries = pre ++ rest ∧ (∀ e ∈ pre, e.1 ∈ ks) ∧ ∀ e ∈ rest, e.1 ∉ ks

omit [DecidableEq K] in
theorem frontBy_nil (c : LruCache K V) : FrontBy [] c :=
  ⟨[], c.entries, rfl, by simp, by simp⟩

theorem FrontBy.get {ks : List K} (h : FrontBy ks c) (k : K) : FrontBy (k :: ks) (c.get k).2 := by
  obtain ⟨pre, rest, heq, hpre, hrest⟩ := h
  unfold LruCache.get
  split
  · next e he =>
      refine ⟨(k, e.2) :: pre.filter (fun e => e.1 ≠ k), rest.filter (fun e => e.1 ≠ k), ?_,
        ?_, ?_⟩
      · simp [promote, heq, List.filter_append]
      · intro x hx
        rcases List.mem_cons.mp hx with rfl | hx
        · exact List.mem_cons_self
        · exact List.mem_cons_of_mem k (hpre x (List.mem_of_mem_filter hx))
      · intro x hx
        obtain ⟨hx, hne⟩ := List.mem_filter.mp hx
        simpa [not_or, of_decide_eq_true hne] using hrest x hx
  · next hnone =>
      -- `k` is not held, so no entry of `rest` has it
      refine ⟨pre, rest, heq, fun x hx => List.mem_cons_of_mem k (hpre x hx), fun x hx => ?_⟩
      have hxk : x.1 ≠ k := by
        intro hxk
        rw [List.find?_eq_none] at hnone
        exact hnone x (heq ▸ List.mem_append_right pre hx) (by simp [hxk])
      simpa [not_or, hxk] using hrest x hx

theorem FrontBy.foldl_get {acc : List K} (h : FrontBy acc c) (ks : List K) :
    FrontBy (ks.reverse ++ acc) (ks.foldl (fun c k => (c.get k).2) c) := by
  induction ks generalizing acc c with
  | nil => exact h
  | cons k ks ih => simpa using ih (h.get k)

omit [DecidableEq K] in
theorem FrontBy.forall_mem_of_lastKey {ks : List K} (h : FrontBy ks c) {k : K}
    (hlast : c.lastKey = some k) (hk : k ∈ ks) : ∀ e ∈ c.entries, e.1 ∈ ks := by
  obtain ⟨pre, rest, heq, hpre, hrest⟩ := h
  obtain hnil | ⟨init, e, hconcat⟩ := List.eq_nil_or_concat rest
  · subst hnil
    rw [List.append_nil] at heq
    exact heq ▸ hpre
  · exfalso
    have hlast' : e.1 = k := by
      simpa [lastKey, heq, hconcat, List.concat_eq_append, ← List.append_assoc] using hlast
    exact hrest e (by rw [hconcat, List.concat_eq_append]; exact List.mem_concat_self)
      (hlast' ▸ hk)

theorem FrontBy.put {ks : List K} (h : FrontBy ks c) {k : K} (hk : k ∈ ks) (v : V) :
    FrontBy ks (c.put k v) := by
  obtain ⟨pre, rest, heq, hpre, hrest⟩ := h
  have hpre' : ∀ e ∈ (k, v) :: pre, e.1 ∈ ks := by
    intro e he
    rcases List.mem_cons.mp he with rfl | he
    · exact hk
    · exact hpre e he
  unfold LruCache.put
  split_ifs with hmem hfull
  · refine ⟨(k, v) :: pre.filter (fun e => e.1 ≠ k), rest.filter (fun e => e.1 ≠ k), ?_,
      fun e he => ?_, fun e he => hrest e (List.mem_of_mem_filter he)⟩
    · simp [promote, heq, List.filter_append]
    · rcases List.mem_cons.mp he with rfl | he
      · exact hk
      · exact hpre e (List.mem_of_mem_filter he)
  · -- the entry dropped is the last one: of `rest`, or of `pre` when `rest` is empty
    obtain rfl | hne := eq_or_ne rest []
    · refine ⟨(k, v) :: pre.dropLast, [], by simp [heq], fun e he => ?_, by simp⟩
      rcases List.mem_cons.mp he with rfl | he
      · exact hk
      · exact hpre e (List.dropLast_subset _ he)
    · exact ⟨(k, v) :: pre, rest.dropLast, by simp [heq, hne], hpre',
        fun e he => hrest e (List.dropLast_subset _ he)⟩
  · exact ⟨(k, v) :: pre, rest, by simp [heq], hpre', hrest⟩

/-- With the entries of distinct keys `ks` in front, and room for them all, a `put` of one of
them drops no entry of another: the entry used longest ago is of none of them. -/
theorem FrontBy.peek_put_of_ne {ks : List K} (h : FrontBy ks c) (hnodup : ks.Nodup)
    (hcap : ks.length ≤ c.cap) {k k' : K} (hk : k ∈ ks) (hk' : k' ∈ ks) (hne : k' ≠ k)
    (v : V) : (c.put k v).peek k' = c.peek k' := by
  refine LruCache.peek_put_of_ne v hne fun hevicts hlast => ?_
  have hall := h.forall_mem_of_lastKey hlast hk'
  have hsub : c.entries.map Prod.fst ⊆ ks.erase k := by
    intro x hx
    obtain ⟨e, he, rfl⟩ := List.mem_map.mp hx
    refine (hnodup.mem_erase_iff).mpr ⟨fun hek => hevicts.1 ?_, hall e he⟩
    exact hek ▸ List.mem_map_of_mem he
  have hlen := List.Nodup.length_le_of_subset c.nodup_keys hsub
  rw [List.length_map, List.length_erase_of_mem hk, hevicts.2] at hlen
  have hpos : 0 < ks.length := List.length_pos_of_mem hk
  omega

/-- After a run of `get`s of distinct keys that the cache can hold all at once, a `put` of one
of them drops no entry of another. -/
theorem peek_put_foldl_get {ks : List K} (hnodup : ks.Nodup) (hcap : ks.length ≤ c.cap)
    {k k' : K} (hk : k ∈ ks) (hk' : k' ∈ ks) (hne : k' ≠ k) (v : V) :
    ((ks.foldl (fun c k => (c.get k).2) c).put k v).peek k' = c.peek k' := by
  have hfront := (frontBy_nil c).foldl_get ks
  rw [List.append_nil] at hfront
  obtain ⟨hpeek, hcap'⟩ := peek_foldl_get (c := c) ks k'
  rw [hfront.peek_put_of_ne (List.nodup_reverse.mpr hnodup) (by rw [List.length_reverse, hcap']; exact hcap)
    (List.mem_reverse.mpr hk) (List.mem_reverse.mpr hk') hne, hpeek]

end LruCache
