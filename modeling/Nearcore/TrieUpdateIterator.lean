import Nearcore.TrieUpdateOverlay
import Nearcore.TrieUpdateTotal

/-!
# `TrieUpdateIterator`

`TrieUpdate::iter(key_prefix)` (`core/store/src/trie/update/iterator.rs`) yields the keys under
a prefix in the merged view of a `TrieUpdate`: the trie's iterator after `seek_prefix`, merged
with the overlay, which is itself `MergeIter` of the committed and the prospective writes in the
range of the prefix.  The range ends at `make_prefix_range_end_bound`, and a key whose last
write is a removal is skipped.

An iterator is modelled by the list of the items it yields; `collect` gathers the keys of the
outer iterator into a `Result`, as the callers of `iter` do.  The trie's iterator is a
parameter, specified by the entries it yields.  Byte strings are ordered lexicographically, as
Rust orders `[u8]`.
-/

namespace Nearcore.Trie

/-! ## The end of a prefix range -/

/-- `make_prefix_range_end_bound`: the prefix without its trailing `0xff` bytes, its last byte
increased; none when nothing is left. -/
def makePrefixRangeEndBound (keyPrefix : List UInt8) : Option (List UInt8) :=
  let ffs := (keyPrefix.reverse.takeWhile (· == 255)).length
  let next := keyPrefix.take (keyPrefix.length - ffs)
  -- `if next.is_empty() { None }`, else `*next.last_mut().unwrap() += 1`
  match next.getLast? with
  | none => none
  | some last => some (next.dropLast ++ [last + 1])

theorem not_max_lt (b : UInt8) : ¬ (255 : UInt8) < b := by
  intro h
  have := b.toNat_lt
  change (255 : UInt8).toNat < b.toNat at h
  simp at h
  omega

theorem lt_add_one_iff_le {b : UInt8} (hb : b ≠ 255) (c : UInt8) : c < b + 1 ↔ c ≤ b := by
  have hb' : b.toNat < 255 := by
    have := b.toNat_lt
    have h' : b.toNat ≠ 255 := fun h => hb (UInt8.toNat_inj.mp (by simpa using h))
    omega
  change c.toNat < (b + 1).toNat ↔ c.toNat ≤ b.toNat
  rw [UInt8.toNat_add]
  simp only [UInt8.toNat_ofNat]
  omega

theorem cons_le_cons_iff' {x c : UInt8} {l key : List UInt8} :
    x :: l ≤ c :: key ↔ x < c ∨ x = c ∧ l ≤ key := by
  rw [le_iff_lt_or_eq, le_iff_lt_or_eq, List.cons_lt_cons_iff, List.cons.injEq]
  tauto

theorem nil_le' (key : List UInt8) : ([] : List UInt8) ≤ key := by
  cases key with
  | nil => exact le_rfl
  | cons x key => exact (List.nil_lt_cons x key).le

theorem not_cons_le_nil {x : UInt8} {l : List UInt8} : ¬ x :: l ≤ [] := by
  rw [le_iff_lt_or_eq, not_or]
  exact ⟨List.not_lt_nil _, List.cons_ne_nil _ _⟩

/-- A key at or above a run of `0xff` bytes starts with it. -/
theorem replicate_le_iff_isPrefix (n : ℕ) (key : List UInt8) :
    List.replicate n 255 ≤ key ↔ List.replicate n 255 <+: key := by
  induction n generalizing key with
  | zero => exact iff_of_true (nil_le' key) List.nil_prefix
  | succ n ih =>
    rw [List.replicate_succ]
    cases key with
    | nil => simp [not_cons_le_nil]
    | cons b key =>
      rw [cons_le_cons_iff', List.cons_prefix_cons, ← ih]
      have := not_max_lt b
      tauto

/-- Between a prefix whose last byte before its trailing `0xff` bytes is `b`, and that prefix
cut after `b` with `b + 1` in its place, lie exactly the keys starting with the prefix. -/
theorem between_iff_isPrefix (a : List UInt8) {b : UInt8} (hb : b ≠ 255) (n : ℕ)
    (key : List UInt8) :
    (a ++ b :: List.replicate n 255 ≤ key ∧ key < a ++ [b + 1]) ↔
      a ++ b :: List.replicate n 255 <+: key := by
  induction a generalizing key with
  | nil =>
    cases key with
    | nil => simp [not_cons_le_nil]
    | cons c key =>
      simp only [List.nil_append]
      rw [cons_le_cons_iff', List.cons_lt_cons_iff, List.cons_prefix_cons,
        ← replicate_le_iff_isPrefix, lt_add_one_iff_le hb]
      have hkey : ¬ key < [] := List.not_lt_nil _
      constructor
      · rintro ⟨hb | ⟨rfl, hle⟩, hc | ⟨-, hlt⟩⟩
        · exact absurd (lt_of_lt_of_le hb hc) (lt_irrefl _)
        · exact absurd hlt hkey
        · exact ⟨rfl, hle⟩
        · exact absurd hlt hkey
      · rintro ⟨rfl, hle⟩
        exact ⟨.inr ⟨rfl, hle⟩, .inl le_rfl⟩
  | cons x a ih =>
    cases key with
    | nil => simp [not_cons_le_nil]
    | cons c key =>
      simp only [List.cons_append]
      rw [cons_le_cons_iff', List.cons_lt_cons_iff, List.cons_prefix_cons, ← ih]
      constructor
      · rintro ⟨hx | ⟨rfl, hle⟩, hc | ⟨hcx, hlt⟩⟩
        · exact absurd (hx.trans hc) (lt_irrefl _)
        · exact absurd hx (hcx ▸ lt_irrefl _)
        · exact absurd hc (lt_irrefl _)
        · exact ⟨rfl, hle, hlt⟩
      · rintro ⟨rfl, hle, hlt⟩
        exact ⟨.inr ⟨rfl, hle⟩, .inr ⟨rfl, hlt⟩⟩

/-- Every byte string is a part that is empty or ends in a byte other than `0xff`, then a run
of `0xff` bytes. -/
theorem exists_eq_append_replicate (l : List UInt8) :
    ∃ next n, l = next ++ List.replicate n 255 ∧ ∀ last, next.getLast? = some last → last ≠ 255 := by
  induction l using List.reverseRecOn with
  | nil => exact ⟨[], 0, rfl, by simp⟩
  | append_singleton l x ih =>
    obtain ⟨next, n, rfl, hnext⟩ := ih
    by_cases hx : x = 255
    · refine ⟨next, n + 1, ?_, hnext⟩
      rw [hx, List.append_assoc, ← List.replicate_succ']
    · refine ⟨next ++ List.replicate n 255 ++ [x], 0, by simp, fun last hlast => ?_⟩
      rw [List.getLast?_append, List.getLast?_singleton, Option.some_or] at hlast
      exact Option.some.inj hlast ▸ hx

theorem makePrefixRangeEndBound_append_replicate {next : List UInt8}
    (hnext : ∀ last, next.getLast? = some last → last ≠ 255) (n : ℕ) :
    makePrefixRangeEndBound (next ++ List.replicate n 255) =
      next.getLast?.map fun last => next.dropLast ++ [last + 1] := by
  have hrun : (next.reverse.takeWhile (· == 255)) = [] := by
    cases hrev : next.reverse with
    | nil => rfl
    | cons x rest =>
      have hx : next.getLast? = some x := by
        rw [← List.head?_reverse, hrev]
        rfl
      simp [beq_false_of_ne (hnext x hx)]
  have hffs : ((next ++ List.replicate n 255).reverse.takeWhile (· == 255)).length = n := by
    have hall : (List.replicate n (255 : UInt8)).takeWhile (· == 255) = List.replicate n 255 := by
      simp
    rw [List.reverse_append, List.reverse_replicate, List.takeWhile_append, hall]
    simp [hrun]
  unfold makePrefixRangeEndBound
  simp only [hffs, List.length_append, List.length_replicate, Nat.add_sub_cancel,
    List.take_left']
  cases next.getLast? <;> rfl

/-- The range `TrieUpdateIterator::new` reads the overlay in, from the prefix to its end bound,
holds exactly the keys starting with the prefix. -/
theorem inRange_iff_isPrefix (keyPrefix key : List UInt8) :
    BTreeMap.inRange keyPrefix (makePrefixRangeEndBound keyPrefix) key = true ↔
      keyPrefix <+: key := by
  obtain ⟨next, n, rfl, hnext⟩ := exists_eq_append_replicate keyPrefix
  rw [BTreeMap.inRange, makePrefixRangeEndBound_append_replicate hnext]
  cases hlast : next.getLast? with
  | none =>
    rw [List.getLast?_eq_none_iff.mp hlast]
    simpa using replicate_le_iff_isPrefix n key
  | some last =>
    have hsplit : next = next.dropLast ++ [last] :=
      (List.dropLast_append_getLast? last (by rw [hlast]; rfl)).symm
    have hb := hnext last hlast
    simp only [Option.map_some, Option.all_some, Bool.and_eq_true, decide_eq_true_eq]
    have hbetween := between_iff_isPrefix next.dropLast hb n key
    rwa [← List.singleton_append, ← List.append_assoc, ← hsplit] at hbetween

-- the cases of the source's `test_make_prefix_range_end_bound`
example : makePrefixRangeEndBound [] = none := by decide
example : makePrefixRangeEndBound [255, 255, 255, 255] = none := by decide
example : makePrefixRangeEndBound [97, 255, 255, 255] = some [98] := by decide

/-! ## `MergeIter` of the committed and the prospective writes -/

/-- An item of the overlay: a key and its last write, `none` for a removal. -/
abbrev OverlayItem := List UInt8 × Option (List UInt8)

/-- `MergeIter` of the committed items (`left`) and the prospective ones (`right`), collected:
both in key order, the prospective item where both have the key. -/
def mergeIter : List OverlayItem → List OverlayItem → List OverlayItem
  | [], right => right
  | left, [] => left
  | l :: left, r :: right =>
    -- `left_key.cmp(right_key)`
    if l.1 < r.1 then l :: mergeIter left (r :: right)
    else if l.1 = r.1 then r :: mergeIter left right
    else r :: mergeIter (l :: left) right
termination_by left right => left.length + right.length

theorem lt_of_mem_mergeIter {key : List UInt8} {left right : List OverlayItem}
    (hleft : ∀ e ∈ left, key < e.1) (hright : ∀ e ∈ right, key < e.1) :
    ∀ e ∈ mergeIter left right, key < e.1 := by
  induction left, right using mergeIter.induct with
  | case1 right => simpa [mergeIter] using hright
  | case2 left hleft' => simpa [mergeIter] using hleft
  | case3 l left r right hlt ih =>
    rw [mergeIter, if_pos hlt]
    simp only [List.mem_cons, forall_eq_or_imp] at hleft ⊢
    exact ⟨hleft.1, ih hleft.2 hright⟩
  | case4 l left r right hlt heq ih =>
    rw [mergeIter, if_neg hlt, if_pos heq]
    simp only [List.mem_cons, forall_eq_or_imp] at hleft hright ⊢
    exact ⟨hright.1, ih hleft.2 hright.2⟩
  | case5 l left r right hlt heq ih =>
    rw [mergeIter, if_neg hlt, if_neg heq]
    simp only [List.mem_cons, forall_eq_or_imp] at hright ⊢
    exact ⟨hright.1, ih hleft hright.2⟩

theorem mergeIter_sorted {left right : List OverlayItem} (hleft : EntriesSorted left)
    (hright : EntriesSorted right) : EntriesSorted (mergeIter left right) := by
  unfold EntriesSorted at *
  induction left, right using mergeIter.induct with
  | case1 right => simpa [mergeIter] using hright
  | case2 left hleft' => simpa [mergeIter] using hleft
  | case3 l left r right hlt ih =>
    rw [mergeIter, if_pos hlt]
    obtain ⟨hl, hleft⟩ := List.pairwise_cons.mp hleft
    obtain ⟨hr, -⟩ := List.pairwise_cons.mp hright
    -- `l` is below the rest of the left side, below `r`, and so below the rest of the right side
    have hbelow : ∀ e ∈ r :: right, l.1 < e.1 := by
      simp only [List.mem_cons, forall_eq_or_imp]
      exact ⟨hlt, fun e he => hlt.trans (hr e he)⟩
    exact List.pairwise_cons.mpr ⟨lt_of_mem_mergeIter hl hbelow, ih hleft hright⟩
  | case4 l left r right hlt heq ih =>
    rw [mergeIter, if_neg hlt, if_pos heq]
    obtain ⟨hl, hleft⟩ := List.pairwise_cons.mp hleft
    obtain ⟨hr, hright⟩ := List.pairwise_cons.mp hright
    exact List.pairwise_cons.mpr ⟨lt_of_mem_mergeIter (heq ▸ hl) hr, ih hleft hright⟩
  | case5 l left r right hlt heq ih =>
    rw [mergeIter, if_neg hlt, if_neg heq]
    obtain ⟨hl, -⟩ := List.pairwise_cons.mp hleft
    obtain ⟨hr, hright'⟩ := List.pairwise_cons.mp hright
    have hrl : r.1 < l.1 := lt_of_le_of_ne (not_lt.mp hlt) (Ne.symm heq)
    have hbelow : ∀ e ∈ l :: left, r.1 < e.1 := by
      simp only [List.mem_cons, forall_eq_or_imp]
      exact ⟨hrl, fun e he => hrl.trans (hl e he)⟩
    exact List.pairwise_cons.mpr ⟨lt_of_mem_mergeIter hbelow hr, ih hleft hright'⟩

theorem lookup_eq_none_of_lt {ν : Type} {e : List UInt8 × ν} {l : List (List UInt8 × ν)}
    (hsorted : EntriesSorted (e :: l)) {key : List UInt8} (hlt : key < e.1) :
    (e :: l).lookup key = none := by
  apply List.lookup_eq_none_of_not_mem
  simp only [List.map_cons, List.mem_cons, List.mem_map, not_or, not_exists, not_and]
  refine ⟨ne_of_lt hlt, fun e' he' hkey => ?_⟩
  have hbelow := (List.pairwise_cons.mp hsorted).1 e' he'
  rw [hkey] at hbelow
  exact lt_asymm hlt hbelow

theorem lookup_mergeIter {left right : List OverlayItem} (hleft : EntriesSorted left)
    (hright : EntriesSorted right) (key : List UInt8) :
    (mergeIter left right).lookup key = (right.lookup key).or (left.lookup key) := by
  induction left, right using mergeIter.induct with
  | case1 right => simp [mergeIter]
  | case2 left hleft' => simp [mergeIter]
  | case3 l left r right hlt ih =>
    rw [mergeIter, if_pos hlt]
    obtain ⟨k, v⟩ := l
    by_cases hk : key = k
    · subst hk
      rw [List.lookup_cons_self, List.lookup_cons_self, lookup_eq_none_of_lt hright hlt,
        Option.none_or]
    · rw [List.lookup_cons_of_ne hk, List.lookup_cons_of_ne hk,
        ih (List.pairwise_cons.mp hleft).2 hright]
  | case4 l left r right hlt heq ih =>
    rw [mergeIter, if_neg hlt, if_pos heq]
    obtain ⟨k, v⟩ := r
    by_cases hk : key = k
    · subst hk
      rw [List.lookup_cons_self, List.lookup_cons_self, Option.some_or]
    · have hk' : key ≠ l.1 := heq ▸ hk
      obtain ⟨k', v'⟩ := l
      rw [List.lookup_cons_of_ne hk, List.lookup_cons_of_ne hk, List.lookup_cons_of_ne hk',
        ih (List.pairwise_cons.mp hleft).2 (List.pairwise_cons.mp hright).2]
  | case5 l left r right hlt heq ih =>
    rw [mergeIter, if_neg hlt, if_neg heq]
    obtain ⟨k, v⟩ := r
    by_cases hk : key = k
    · subst hk
      rw [List.lookup_cons_self, List.lookup_cons_self, Option.some_or]
    · rw [List.lookup_cons_of_ne hk, List.lookup_cons_of_ne hk,
        ih hleft (List.pairwise_cons.mp hright).2]

/-! ## The loop of `TrieUpdateIterator::next` -/

section Next

variable {W : Type}

/-- The `loop` of `TrieUpdateIterator::next` over what is left of the trie's iterator and of the
overlay: the next key with what is then left of both, the trie's error, or the end. -/
def nextLoop : List (Except StorageError (List UInt8 × W)) → List OverlayItem →
    Option (Except StorageError
      (List UInt8 × List (Except StorageError (List UInt8 × W)) × List OverlayItem))
  | .error e :: _, _ => some (.error e)
  | .ok item :: trie, [] => some (.ok (item.1, trie, []))
  | [], [] => none
  | [], (key, value) :: overlay =>
    -- only the overlay is left: a removal is skipped
    match value with
    | some _ => some (.ok (key, [], overlay))
    | none => nextLoop [] overlay
  | .ok item :: trie, (key, value) :: overlay =>
    -- `left_key.as_slice().cmp(right_key)`
    if item.1 < key then some (.ok (item.1, trie, (key, value) :: overlay))
    else if item.1 = key then
      -- both hold the key: the overlay's write decides, and both advance
      match value with
      | some _ => some (.ok (item.1, trie, overlay))
      | none => nextLoop trie overlay
    else
      match value with
      | some _ => some (.ok (key, .ok item :: trie, overlay))
      | none => nextLoop (.ok item :: trie) overlay

theorem nextLoop_length_lt {trie trie' : List (Except StorageError (List UInt8 × W))}
    {overlay overlay' : List OverlayItem} {key : List UInt8}
    (h : nextLoop trie overlay = some (.ok (key, trie', overlay'))) :
    trie'.length + overlay'.length < trie.length + overlay.length := by
  induction trie, overlay using nextLoop.induct with
  | case1 => simp [nextLoop] at h
  | case2 item trie =>
    simp only [nextLoop, Option.some.injEq, Except.ok.injEq, Prod.mk.injEq] at h
    obtain ⟨-, rfl, rfl⟩ := h
    simp
  | case3 => simp [nextLoop] at h
  | case4 key overlay value =>
    simp only [nextLoop, Option.some.injEq, Except.ok.injEq, Prod.mk.injEq] at h
    obtain ⟨-, rfl, rfl⟩ := h
    simp
  | case5 key overlay ih =>
    rw [nextLoop] at h
    have := ih h
    simp only [List.length_cons, List.length_nil] at this ⊢
    omega
  | case6 item trie key value overlay hlt =>
    simp only [nextLoop, if_pos hlt, Option.some.injEq, Except.ok.injEq, Prod.mk.injEq] at h
    obtain ⟨-, rfl, rfl⟩ := h
    simp
  | case7 item trie overlay value hlt =>
    simp only [nextLoop, if_neg hlt, ↓reduceIte, Option.some.injEq, Except.ok.injEq,
      Prod.mk.injEq] at h
    obtain ⟨-, rfl, rfl⟩ := h
    simp only [List.length_cons]
    omega
  | case8 item trie overlay hlt ih =>
    simp only [nextLoop, if_neg hlt, ↓reduceIte] at h
    have := ih h
    simp only [List.length_cons] at this ⊢
    omega
  | case9 item trie key overlay hlt heq value =>
    simp only [nextLoop, if_neg hlt, if_neg heq, Option.some.injEq, Except.ok.injEq,
      Prod.mk.injEq] at h
    obtain ⟨-, rfl, rfl⟩ := h
    simp
  | case10 item trie key overlay hlt heq ih =>
    simp only [nextLoop, if_neg hlt, if_neg heq] at h
    have := ih h
    simp only [List.length_cons] at this ⊢
    omega

/-- The items of `TrieUpdateIterator`, collected into a `Result<Vec<_>, _>`: the keys up to the
trie's first error. -/
def collect (trie : List (Except StorageError (List UInt8 × W))) (overlay : List OverlayItem) :
    Except StorageError (List (List UInt8)) :=
  match _h : nextLoop trie overlay with
  | none => .ok []
  | some (.error e) => .error e
  | some (.ok (key, trie', overlay')) => (collect trie' overlay').map (key :: ·)
termination_by trie.length + overlay.length
decreasing_by exact nextLoop_length_lt _h

/-! ### What the loop yields -/

/-- A key the loop yields: the overlay writes a value to it, or has no item for it and the trie
holds it. -/
def Visible (trie : List (List UInt8 × W)) (overlay : List OverlayItem) (key : List UInt8) :
    Prop :=
  match overlay.lookup key with
  | some value => value.isSome
  | none => key ∈ trie.map (·.1)

theorem Visible.mem {trie : List (List UInt8 × W)} {overlay : List OverlayItem} {key : List UInt8}
    (h : Visible trie overlay key) : key ∈ trie.map (·.1) ∨ key ∈ overlay.map (·.1) := by
  unfold Visible at h
  cases hlookup : overlay.lookup key with
  | some value => exact .inr (List.mem_keys_of_lookup_eq_some hlookup)
  | none =>
    rw [hlookup] at h
    exact .inl h

theorem Visible.le {trie : List (List UInt8 × W)} {overlay : List OverlayItem} {key key' : List UInt8}
    (htrie : ∀ e ∈ trie, key ≤ e.1) (hoverlay : ∀ e ∈ overlay, key ≤ e.1)
    (h : Visible trie overlay key') : key ≤ key' := by
  rcases h.mem with hmem | hmem <;> obtain ⟨e, he, rfl⟩ := List.mem_map.mp hmem
  · exact htrie e he
  · exact hoverlay e he

theorem visible_cons_none {trie : List (List UInt8 × W)} {key : List UInt8}
    {overlay : List OverlayItem} (hoverlay : EntriesSorted ((key, none) :: overlay))
    (htrie : key ∉ trie.map (·.1)) (key' : List UInt8) :
    Visible trie ((key, none) :: overlay) key' ↔ Visible trie overlay key' := by
  unfold Visible
  by_cases hk : key' = key
  · subst hk
    have hnone : overlay.lookup key' = none := by
      apply List.lookup_eq_none_of_not_mem
      intro hmem
      obtain ⟨e, he, hkey⟩ := List.mem_map.mp hmem
      exact lt_irrefl _ (hkey ▸ (List.pairwise_cons.mp hoverlay).1 e he)
    simp [hnone, htrie]
  · rw [List.lookup_cons_of_ne hk]

theorem visible_cons_trie {entry : List UInt8 × W} {trie : List (List UInt8 × W)}
    {overlay : List OverlayItem} (hcovered : overlay.lookup entry.1 ≠ none) (key : List UInt8) :
    Visible (entry :: trie) overlay key ↔ Visible trie overlay key := by
  unfold Visible
  cases hlookup : overlay.lookup key with
  | some value => rfl
  | none =>
    have hk : key ≠ entry.1 := fun hk => hcovered (hk ▸ hlookup)
    simp [hk]

theorem visible_filter_iff {trie : List (List UInt8 × W)} {overlay : List OverlayItem}
    (key key' : List UInt8) :
    Visible (trie.filter fun e => decide (key < e.1)) (overlay.filter fun e => decide (key < e.1))
        key' ↔ key < key' ∧ Visible trie overlay key' := by
  unfold Visible
  rw [List.lookup_filter_key (fun k => decide (key < k))]
  by_cases hk : key < key'
  · simp only [hk, decide_true, if_true, true_and]
    cases overlay.lookup key' with
    | some value => rfl
    | none => simp [List.mem_filter, hk]
  · simp only [hk, decide_false, Bool.false_eq_true, if_false, false_and, iff_false]
    simp [List.mem_filter, hk]

theorem filter_lt_eq_self {ν : Type} {l : List (List UInt8 × ν)} {key : List UInt8}
    (h : ∀ e ∈ l, key < e.1) : (l.filter fun e => decide (key < e.1)) = l :=
  List.filter_eq_self.mpr fun e he => decide_eq_true (h e he)

theorem filter_lt_head {ν : Type} {e : List UInt8 × ν} {l : List (List UInt8 × ν)}
    (hsorted : EntriesSorted (e :: l)) : ((e :: l).filter fun e' => decide (e.1 < e'.1)) = l := by
  rw [List.filter_cons_of_neg (by simp), filter_lt_eq_self (List.pairwise_cons.mp hsorted).1]

theorem le_of_mem_sorted {ν : Type} {e : List UInt8 × ν} {l : List (List UInt8 × ν)}
    (hsorted : EntriesSorted (e :: l)) : ∀ e' ∈ e :: l, e.1 ≤ e'.1 := by
  intro e' he'
  rcases List.mem_cons.mp he' with rfl | he'
  · exact le_rfl
  · exact ((List.pairwise_cons.mp hsorted).1 e' he').le

/-- What one call of the loop does on sorted items: it ends when no key is left to yield, and
otherwise yields the least key to yield, leaving of both sides what is above it. -/
def NextLoopSpec (trie : List (List UInt8 × W)) (overlay : List OverlayItem) : Prop :=
  (nextLoop (trie.map .ok) overlay = none ∧ ∀ key, ¬ Visible trie overlay key) ∨
  ∃ key, Visible trie overlay key ∧ (∀ key', Visible trie overlay key' → key ≤ key') ∧
    nextLoop (trie.map .ok) overlay = some (.ok (key,
      (trie.filter fun e => decide (key < e.1)).map .ok, overlay.filter fun e => decide (key < e.1)))

/-- A turn that yields a key below both sides. -/
theorem NextLoopSpec.of_yield {trie : List (List UInt8 × W)} {overlay : List OverlayItem}
    {key : List UInt8} (hvisible : Visible trie overlay key) (htrie : ∀ e ∈ trie, key ≤ e.1)
    (hoverlay : ∀ e ∈ overlay, key ≤ e.1)
    (hrun : nextLoop (trie.map .ok) overlay = some (.ok (key,
      (trie.filter fun e => decide (key < e.1)).map .ok, overlay.filter fun e => decide (key < e.1)))) :
    NextLoopSpec trie overlay :=
  .inr ⟨key, hvisible, fun _ h => h.le htrie hoverlay, hrun⟩

/-- A turn that skips a removal: the loop goes on over what is left, which yields the same keys,
all above what was dropped. -/
theorem NextLoopSpec.of_skip {trie trie' : List (List UInt8 × W)} {overlay overlay' : List OverlayItem}
    (hrun : nextLoop (trie.map .ok) overlay = nextLoop (trie'.map .ok) overlay')
    (hiff : ∀ key, Visible trie overlay key ↔ Visible trie' overlay' key)
    (hfilter : ∀ key, Visible trie' overlay' key →
      (trie.filter fun e => decide (key < e.1)) = trie'.filter (fun e => decide (key < e.1)) ∧
      (overlay.filter fun e => decide (key < e.1)) = overlay'.filter (fun e => decide (key < e.1)))
    (hspec : NextLoopSpec trie' overlay') : NextLoopSpec trie overlay := by
  rcases hspec with ⟨hend, hnone⟩ | ⟨key, hvisible, hmin, hnext⟩
  · exact .inl ⟨hrun ▸ hend, fun key h => hnone key ((hiff key).mp h)⟩
  · obtain ⟨htrie, hoverlay⟩ := hfilter key hvisible
    refine .inr ⟨key, (hiff key).mpr hvisible, fun key' h => hmin key' ((hiff key').mp h), ?_⟩
    rw [hrun, hnext, htrie, hoverlay]

/-- The loop over sorted items meets its spec. -/
theorem nextLoop_spec {trie : List (List UInt8 × W)} {overlay : List OverlayItem}
    (htrie : EntriesSorted trie) (hoverlay : EntriesSorted overlay) : NextLoopSpec trie overlay := by
  -- induction on the overlay, as the loop's recursion; the trie's head decides each turn
  induction overlay generalizing trie with
  | nil =>
    cases trie with
    | nil => exact .inl ⟨rfl, fun key h => by simp [Visible] at h⟩
    | cons t trie =>
      refine .of_yield (by simp [Visible]) (le_of_mem_sorted htrie) (by simp) ?_
      rw [filter_lt_head htrie]
      rfl
  | cons o overlay ih =>
    obtain ⟨key, value⟩ := o
    have hoverlay' : EntriesSorted overlay := (List.pairwise_cons.mp hoverlay).2
    have habove : ∀ e ∈ overlay, key < e.1 := (List.pairwise_cons.mp hoverlay).1
    cases trie with
    | nil =>
      cases value with
      | some v =>
        refine .of_yield (by simp [Visible]) (by simp) (le_of_mem_sorted hoverlay) ?_
        rw [filter_lt_head hoverlay]
        rfl
      | none =>
        have hrun : nextLoop (([] : List (List UInt8 × W)).map .ok) ((key, none) :: overlay) =
            nextLoop (([] : List (List UInt8 × W)).map .ok) overlay := rfl
        refine .of_skip hrun (visible_cons_none hoverlay (by simp)) (fun k hk => ⟨rfl, ?_⟩)
          (ih List.Pairwise.nil hoverlay')
        have hlt : key < k := by
          rcases hk.mem with hmem | hmem
          · simp at hmem
          · obtain ⟨e, he, rfl⟩ := List.mem_map.mp hmem
            exact habove e he
        rw [List.filter_cons_of_neg (by simpa using hlt.le)]
    | cons t trie =>
      have htrie' : EntriesSorted trie := (List.pairwise_cons.mp htrie).2
      have htabove : ∀ e ∈ trie, t.1 < e.1 := (List.pairwise_cons.mp htrie).1
      rcases lt_trichotomy t.1 key with hlt | heq | hgt
      · -- the trie's key comes first
        have hnone : ((key, value) :: overlay).lookup t.1 = none := lookup_eq_none_of_lt hoverlay hlt
        refine .of_yield (by simp [Visible, hnone]) (le_of_mem_sorted htrie) ?_ ?_
        · exact fun e he => hlt.le.trans (le_of_mem_sorted hoverlay e he)
        · rw [filter_lt_head htrie, filter_lt_eq_self fun e he =>
            lt_of_lt_of_le hlt (le_of_mem_sorted hoverlay e he)]
          simp [nextLoop, hlt]
      · -- both hold the key
        obtain ⟨tk, tw⟩ := t
        dsimp only at heq htabove
        subst heq
        cases value with
        | some v =>
          refine .of_yield (by simp [Visible]) (le_of_mem_sorted htrie) (le_of_mem_sorted hoverlay) ?_
          rw [filter_lt_head htrie, filter_lt_head hoverlay]
          simp [nextLoop]
        | none =>
          have hiff : ∀ k, Visible ((tk, tw) :: trie) ((tk, none) :: overlay) k ↔
              Visible trie overlay k := fun k =>
            (visible_cons_trie (by simp) k).trans
              (visible_cons_none hoverlay (fun hmem => by
                obtain ⟨e, he, hkey⟩ := List.mem_map.mp hmem
                exact lt_irrefl _ (hkey ▸ htabove e he)) k)
          refine .of_skip (by simp [nextLoop]) hiff (fun k hk => ?_) (ih htrie' hoverlay')
          have hlt : tk < k := by
            rcases hk.mem with hmem | hmem <;> obtain ⟨e, he, rfl⟩ := List.mem_map.mp hmem
            · exact htabove e he
            · exact habove e he
          constructor
          · rw [List.filter_cons_of_neg (by simpa using hlt.le)]
          · rw [List.filter_cons_of_neg (by simpa using hlt.le)]
      · -- the overlay's key comes first
        have hbelow : ∀ e ∈ t :: trie, key < e.1 := fun e he =>
          lt_of_lt_of_le hgt (le_of_mem_sorted htrie e he)
        have hnlt : ¬ t.1 < key := not_lt.mpr hgt.le
        have hne : t.1 ≠ key := ne_of_gt hgt
        cases value with
        | some v =>
          refine .of_yield (by simp [Visible]) (fun e he => (hbelow e he).le)
            (le_of_mem_sorted hoverlay) ?_
          rw [filter_lt_eq_self hbelow, filter_lt_head hoverlay]
          simp [nextLoop, hnlt, hne]
        | none =>
          have hfresh : key ∉ (t :: trie).map (·.1) := fun hmem => by
            obtain ⟨e, he, hkey⟩ := List.mem_map.mp hmem
            exact lt_irrefl _ (hkey ▸ hbelow e he)
          refine .of_skip (by simp [nextLoop, hnlt, hne]) (visible_cons_none hoverlay hfresh)
            (fun k hk => ⟨rfl, ?_⟩) (ih htrie hoverlay')
          have hlt : key < k := by
            rcases hk.mem with hmem | hmem <;> obtain ⟨e, he, rfl⟩ := List.mem_map.mp hmem
            · exact hbelow e he
            · exact habove e he
          rw [List.filter_cons_of_neg (by simpa using hlt.le)]

/-- Over sorted items, the iterator yields, in strictly increasing order, exactly the keys the
loop yields. -/
theorem collect_spec {trie : List (List UInt8 × W)} {overlay : List OverlayItem}
    (htrie : EntriesSorted trie) (hoverlay : EntriesSorted overlay) :
    ∃ keys, collect (trie.map .ok) overlay = .ok keys ∧ keys.Pairwise (· < ·) ∧
      ∀ key, key ∈ keys ↔ Visible trie overlay key := by
  -- induction on what is left of both sides, which each yielded key shortens
  induction hsize : trie.length + overlay.length using Nat.strong_induction_on
    generalizing trie overlay with
  | _ n ih =>
  rcases nextLoop_spec htrie hoverlay with ⟨hend, hnone⟩ | ⟨key, hvisible, hmin, hnext⟩
  · refine ⟨[], ?_, List.Pairwise.nil, fun key => iff_of_false (by simp) (hnone key)⟩
    rw [collect]
    split
    · rfl
    · next e h => rw [hend] at h; cases h
    · next key trie' overlay' h => rw [hend] at h; cases h
  · have hshorter := nextLoop_length_lt hnext
    simp only [List.length_map] at hshorter
    obtain ⟨keys, hcollect, hsorted, hmem⟩ := ih _ (hsize ▸ hshorter)
      (htrie.filter _) (hoverlay.filter _) rfl
    have habove : ∀ key', key' ∈ keys ↔ key < key' ∧ Visible trie overlay key' := fun key' =>
      (hmem key').trans (visible_filter_iff key key')
    refine ⟨key :: keys, ?_, List.pairwise_cons.mpr ⟨fun key' h => ((habove key').mp h).1, hsorted⟩,
      fun key' => ?_⟩
    · rw [collect]
      split
      · next h => rw [hnext] at h; cases h
      · next e h => rw [hnext] at h; cases h
      · next key'' trie' overlay' h =>
        rw [hnext] at h
        simp only [Option.some.injEq, Except.ok.injEq, Prod.mk.injEq] at h
        obtain ⟨rfl, rfl, rfl⟩ := h
        rw [hcollect]
        rfl
    · rw [List.mem_cons, habove]
      constructor
      · rintro (rfl | ⟨-, h⟩)
        · exact hvisible
        · exact h
      · intro h
        rcases (hmin key' h).lt_or_eq with hlt | heq
        · exact .inr ⟨hlt, h⟩
        · exact .inl heq.symm

end Next

/-! ## `TrieUpdate::iter` -/

namespace TrieUpdate

open WriteLog

variable {τ Cause W : Type}

/-- `TrieUpdate::iter(key_prefix)`, its items collected: `trieIter` gives the items of
`trie.iter()` after `seek_prefix(key_prefix)`, or the error of either call.  The committed items
are read before the merge, where the source reads them as the merge goes; the two differ only
where a key has no change, which no run leaves. -/
def iter (trieIter : τ → List UInt8 → Except StorageError (List (Except StorageError (List UInt8 × W))))
    (self : TrieUpdate τ Cause) (keyPrefix : List UInt8) : Except Failure (List (List UInt8)) := do
  let trieItems ← (trieIter self.trie keyPrefix).mapError .storageError
  let endBound := makePrefixRangeEndBound keyPrefix
  let committedItems ← (self.committed.range keyPrefix endBound).mapM fun entry => do
    pure (entry.1, ← lastData entry.2)
  let prospectiveItems := self.prospective.range keyPrefix endBound
  (collect trieItems (mergeIter committedItems prospectiveItems)).mapError .storageError

/-- Over a trie whose iterator yields, in order, the entries of a map under the prefix, `iter`
yields in strictly increasing order exactly the keys under the prefix that the merged view of
the log holds. -/
theorem Tracks.iter_eq {log : WriteLog} {self : TrieUpdate τ Cause} (htracks : Tracks log self)
    {trieIter : τ → List UInt8 → Except StorageError (List (Except StorageError (List UInt8 × W)))}
    {base : List UInt8 → Option (List UInt8)} {keyPrefix : List UInt8}
    {items : List (List UInt8 × W)} (hiter : trieIter self.trie keyPrefix = .ok (items.map .ok))
    (hsorted : EntriesSorted items)
    (hitems : ∀ key, key ∈ items.map (·.1) ↔ keyPrefix <+: key ∧ (base key).isSome) :
    ∃ keys, self.iter trieIter keyPrefix = .ok keys ∧ keys.Pairwise (· < ·) ∧
      ∀ key, key ∈ keys ↔ keyPrefix <+: key ∧ (log.view base key).isSome := by
  have hcommitted := mapM_lastData fun entry
      (hentry : entry ∈ self.committed.range keyPrefix (makePrefixRangeEndBound keyPrefix)) =>
    htracks.committed_ne_nil entry.1 entry.2
      ((BTreeMap.get?_eq_some_iff _ _ _).mpr (List.mem_of_mem_filter hentry))
  have hC : EntriesSorted ((self.committed.range keyPrefix (makePrefixRangeEndBound keyPrefix)).map
      fun entry => (entry.1, entry.2.getLast?.bind RawStateChange.data)) := by
    unfold EntriesSorted
    rw [List.pairwise_map]
    exact BTreeMap.range_sorted _ _ _
  have hP := BTreeMap.range_sorted self.prospective keyPrefix (makePrefixRangeEndBound keyPrefix)
  obtain ⟨keys, hcollect, hkeys, hmem⟩ := collect_spec hsorted (mergeIter_sorted hC hP)
  refine ⟨keys, ?_, hkeys, fun key => (hmem key).trans ?_⟩
  · rw [iter, hiter]
    dsimp only
    rw [hcommitted]
    simp only [Except.mapError, bind, Except.bind]
    rw [hcollect]
  · -- a key of the merge carries the prospective write, else the committed one, in the range
    unfold Visible
    have hlookup : ((self.committed.range keyPrefix (makePrefixRangeEndBound keyPrefix)).map
        fun entry => (entry.1, entry.2.getLast?.bind RawStateChange.data)).lookup key =
        ((self.committed.range keyPrefix (makePrefixRangeEndBound keyPrefix)).lookup key).map
          fun changes => changes.getLast?.bind RawStateChange.data :=
      List.lookup_map_snd (fun changes : List (RawStateChange Cause) =>
        changes.getLast?.bind RawStateChange.data) key _
    rw [lookup_mergeIter hC hP, hlookup, BTreeMap.lookup_range, BTreeMap.lookup_range]
    simp only [inRange_iff_isPrefix]
    by_cases hpre : keyPrefix <+: key
    · simp only [hpre, if_true, true_and, htracks.prospective_eq, htracks.lastChange_eq, view]
      rw [hitems key]
      simp only [hpre, true_and]
      cases latestWrite log.pending key with
      | some value => rfl
      | none =>
        cases latestWrite log.committed key with
        | some value => rfl
        | none => rfl
    · simp only [hpre, if_false, Option.map_none, Option.or_none, false_and, iff_false]
      rw [hitems key]
      simp [hpre]

end TrieUpdate

/-! ## The overlay over a trie -/

/-- The values of the trie of two keys, by key. -/
def twoKeysValues (key : List UInt8) : Option (List UInt8) :=
  if key = [0x10] then some [7] else if key = [0x20] then some [8] else none

theorem twoKeysMap_bytesToNibbles (key : List UInt8) :
    twoKeysMap (bytesToNibbles key) =
      (twoKeysValues key).map fun value => (ValueHandle.inMemory value).toRef djb2Hash := by
  match key with
  | [] => rfl
  | [b] =>
      rcases b with ⟨⟨n⟩⟩
      revert n
      decide +kernel
  | b :: b' :: rest =>
      simp only [twoKeysMap, twoKeysValues, bytesToNibbles_cons, PathMap.node, List.cons.injEq,
        reduceCtorEq, and_false, if_false, Option.map_none]
      split_ifs <;> simp [PathMap.single, PathMap.empty]

/-- The trie's iterator over the two keys: the keys under the prefix, in order. -/
def twoKeysIter (_ : CryptoHash) (keyPrefix : List UInt8) :
    Except StorageError (List (Except StorageError (List UInt8 × Unit))) :=
  .ok ((([([0x10], ()), ([0x20], ())] : List (List UInt8 × Unit)).filter
    fun item => keyPrefix.isPrefixOf item.1).map .ok)

theorem twoKeysIter_spec (keyPrefix : List UInt8) :
    ∃ items, twoKeysIter (djb2Hash twoKeysRoot.toBorsh) keyPrefix = .ok (items.map .ok) ∧
      EntriesSorted items ∧ ∀ key, key ∈ items.map (·.1) ↔ keyPrefix <+: key ∧ (twoKeysValues key).isSome := by
  have hsorted : EntriesSorted ([([0x10], ()), ([0x20], ())] : List (List UInt8 × Unit)) := by
    unfold EntriesSorted
    decide
  refine ⟨_, rfl, hsorted.filter _, fun key => ?_⟩
  simp only [List.mem_map, List.mem_filter, List.mem_cons, List.not_mem_nil, or_false,
    List.isPrefixOf_iff_prefix]
  constructor
  · rintro ⟨item, ⟨hitem, hp⟩, rfl⟩
    rcases hitem with rfl | rfl
    · exact ⟨hp, rfl⟩
    · exact ⟨hp, rfl⟩
  · rintro ⟨hp, hs⟩
    unfold twoKeysValues at hs
    split_ifs at hs with h1 h2
    · exact ⟨_, ⟨.inl rfl, h1 ▸ hp⟩, h1.symm⟩
    · exact ⟨_, ⟨.inr rfl, h2 ▸ hp⟩, h2.symm⟩
    · cases hs

/-- Writes committed in two batches over the trie of two keys, overwriting one key, adding one
next to the other and removing it, and one write left pending until `finalize`'s commit. -/
def overlayOps : List (TrieUpdateOp Unit) :=
  [.set [0x10] [9], .commit (), .set [0x23] [5], .remove [0x20], .commit (), .set [0x30] [1]]

end Nearcore.Trie
