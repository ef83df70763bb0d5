import Mathlib.Logic.Function.Basic
import Mathlib.Data.List.Infix
import Mathlib.Tactic

/-!
# Maps keyed by paths

A partial map `List α → Option β` read as a tree: the value at the empty path,
and for every first letter the map of the paths that continue below it.  A
radix tree stores such a map with three kinds of split, and each has its
operation here: `node` (a value and one sub-map per letter), `prefixed` (every
key starts with a fixed path) and `single` (one key).  An insertion or a
deletion is `Function.update`, and the lemmas below push an update through
each split, which is all an insertion or deletion that walks down one path
needs.

`commonPrefixLength` is the length of the longest common prefix of two
lists, the quantity a radix tree compares keys by.
-/

namespace PathMap

variable {α β : Type*}

/-- The map with no keys. -/
def empty : List α → Option β := fun _ => none

/-- The map with value `v` at the empty path and `cs a` below the letter `a`. -/
def node (v : Option β) (cs : α → List α → Option β) : List α → Option β
  | [] => v
  | a :: k => cs a k

/-- The map `m` moved below the path `p`: only keys that start with `p` are bound. -/
def prefixed [DecidableEq α] (p : List α) (m : List α → Option β) : List α → Option β :=
  fun k => if p <+: k then m (k.drop p.length) else none

/-- The map with the one key `k`. -/
def single [DecidableEq α] (k : List α) (v : β) : List α → Option β :=
  fun k' => if k' = k then some v else none

@[simp] theorem empty_apply (k : List α) : (empty : List α → Option β) k = none := rfl

@[simp] theorem node_nil (v : Option β) (cs : α → List α → Option β) : node v cs [] = v := rfl

@[simp] theorem node_cons (v : Option β) (cs : α → List α → Option β) (a : α) (k : List α) :
    node v cs (a :: k) = cs a k := rfl

theorem node_empty : node none (fun _ => empty) = (empty : List α → Option β) := by
  funext k
  cases k <;> rfl

section Prefixed

variable [DecidableEq α]

theorem prefixed_apply_append (p k : List α) (m : List α → Option β) :
    prefixed p m (p ++ k) = m k := by
  simp [prefixed]

theorem prefixed_apply_eq_none {p k : List α} (m : List α → Option β) (h : ¬ p <+: k) :
    prefixed p m k = none := by
  simp [prefixed, h]

@[simp] theorem prefixed_nil (m : List α → Option β) : prefixed [] m = m := by
  funext k
  simp [prefixed]

theorem prefixed_cons_apply_cons (a b : α) (p k : List α) (m : List α → Option β) :
    prefixed (a :: p) m (b :: k) = if b = a then prefixed p m k else none := by
  by_cases hba : b = a
  · subst hba
    simp [prefixed]
  · have hnot : ¬ a :: p <+: b :: k := fun h => hba (List.cons_prefix_cons.mp h).1.symm
    simp [prefixed, hnot, hba]

@[simp] theorem prefixed_cons_apply_nil (a : α) (p : List α) (m : List α → Option β) :
    prefixed (a :: p) m [] = none := by
  simp [prefixed]

theorem prefixed_cons (a : α) (p : List α) (m : List α → Option β) :
    prefixed (a :: p) m = node none (Function.update (fun _ => empty) a (prefixed p m)) := by
  funext k
  cases k with
  | nil => simp
  | cons b k =>
      rw [prefixed_cons_apply_cons, node_cons]
      by_cases hba : b = a
      · subst hba
        simp
      · simp [hba]

theorem prefixed_append (p q : List α) (m : List α → Option β) :
    prefixed (p ++ q) m = prefixed p (prefixed q m) := by
  induction p with
  | nil => simp
  | cons a p ih =>
      rw [List.cons_append, prefixed_cons, prefixed_cons, ih]

@[simp] theorem prefixed_empty (p : List α) : prefixed p (empty : List α → Option β) = empty := by
  funext k
  simp [prefixed]

theorem single_eq_prefixed (k : List α) (v : β) :
    single k v = prefixed k (node (some v) (fun _ => empty)) := by
  funext k'
  by_cases hk : k <+: k'
  · obtain ⟨r, rfl⟩ := hk
    rw [prefixed_apply_append]
    cases r with
    | nil => simp [single]
    | cons a r => simp [single]
  · have hne : k' ≠ k := fun h => hk (h ▸ List.prefix_refl k)
    simp [single, prefixed, hk, hne]

theorem single_append (p q : List α) (v : β) : single (p ++ q) v = prefixed p (single q v) := by
  rw [single_eq_prefixed, single_eq_prefixed, prefixed_append]

theorem prefixed_single_nil (k : List α) (v : β) : prefixed k (single [] v) = single k v := by
  rw [← single_append, List.append_nil]

theorem single_nil (v : β) : single ([] : List α) v = node (some v) (fun _ => empty) := by
  simp [single_eq_prefixed]

theorem single_cons (a : α) (k : List α) (v : β) :
    single (a :: k) v = node none (Function.update (fun _ => empty) a (single k v)) := by
  rw [single_eq_prefixed, prefixed_cons, ← single_eq_prefixed]

/-! ## Updates through the splits -/

@[simp] theorem update_node_nil (v : Option β) (cs : α → List α → Option β) (x : Option β) :
    Function.update (node v cs) [] x = node x cs := by
  funext k
  cases k with
  | nil => simp
  | cons a k => simp

theorem update_node_cons (v : Option β) (cs : α → List α → Option β) (a : α) (k : List α)
    (x : Option β) :
    Function.update (node v cs) (a :: k) x =
      node v (Function.update cs a (Function.update (cs a) k x)) := by
  funext k'
  cases k' with
  | nil => simp
  | cons b k' =>
      by_cases hba : b = a
      · subst hba
        by_cases hk : k' = k
        · subst hk
          simp
        · simp [hk]
      · simp [hba]

theorem update_prefixed_append (p k : List α) (m : List α → Option β) (x : Option β) :
    Function.update (prefixed p m) (p ++ k) x = prefixed p (Function.update m k x) := by
  induction p with
  | nil => simp
  | cons a p ih =>
      rw [prefixed_cons, prefixed_cons, List.cons_append, update_node_cons]
      simp [ih]

@[simp] theorem update_single_self (k : List α) (v : β) (x : Option β) :
    Function.update (single k v) k x = Function.update empty k x := by
  funext k'
  by_cases hk : k' = k
  · subst hk
    simp
  · simp [single, hk]

theorem update_empty_some (k : List α) (v : β) :
    Function.update (empty : List α → Option β) k (some v) = single k v := by
  funext k'
  by_cases hk : k' = k
  · subst hk
    simp [single]
  · simp [single, hk]

@[simp] theorem update_empty_none (k : List α) :
    Function.update (empty : List α → Option β) k none = empty := by
  funext k'
  by_cases hk : k' = k
  · subst hk
    simp
  · simp [hk]

end Prefixed

end PathMap

namespace List

variable {α : Type*} [DecidableEq α]

/-- The length of the longest common prefix of two lists. -/
def commonPrefixLength : List α → List α → ℕ
  | a :: as, b :: bs => if a = b then commonPrefixLength as bs + 1 else 0
  | _, _ => 0

@[simp] theorem commonPrefixLength_nil_left (l : List α) : commonPrefixLength [] l = 0 := rfl

@[simp] theorem commonPrefixLength_nil_right (l : List α) : commonPrefixLength l [] = 0 := by
  cases l <;> rfl

theorem commonPrefixLength_cons_cons (a b : α) (as bs : List α) :
    commonPrefixLength (a :: as) (b :: bs) =
      if a = b then commonPrefixLength as bs + 1 else 0 := rfl

theorem commonPrefixLength_comm (l₁ l₂ : List α) :
    commonPrefixLength l₁ l₂ = commonPrefixLength l₂ l₁ := by
  induction l₁ generalizing l₂ with
  | nil => simp
  | cons a as ih =>
      cases l₂ with
      | nil => simp
      | cons b bs =>
          rw [commonPrefixLength_cons_cons, commonPrefixLength_cons_cons, ih]
          by_cases hab : a = b
          · simp [hab]
          · simp [hab, Ne.symm hab]

theorem commonPrefixLength_le_left (l₁ l₂ : List α) : commonPrefixLength l₁ l₂ ≤ l₁.length := by
  induction l₁ generalizing l₂ with
  | nil => simp
  | cons a as ih =>
      cases l₂ with
      | nil => simp
      | cons b bs =>
          rw [commonPrefixLength_cons_cons]
          split
          · have := ih bs
            simp only [length_cons]
            omega
          · omega

theorem commonPrefixLength_le_right (l₁ l₂ : List α) : commonPrefixLength l₁ l₂ ≤ l₂.length := by
  rw [commonPrefixLength_comm]
  exact commonPrefixLength_le_left l₂ l₁

theorem take_commonPrefixLength (l₁ l₂ : List α) :
    l₁.take (commonPrefixLength l₁ l₂) = l₂.take (commonPrefixLength l₁ l₂) := by
  induction l₁ generalizing l₂ with
  | nil => simp
  | cons a as ih =>
      cases l₂ with
      | nil => simp
      | cons b bs =>
          rw [commonPrefixLength_cons_cons]
          split
          · next hab =>
              subst hab
              simp [ih bs]
          · simp

theorem getElem_commonPrefixLength_ne (l₁ l₂ : List α) (h₁ : commonPrefixLength l₁ l₂ < l₁.length)
    (h₂ : commonPrefixLength l₁ l₂ < l₂.length) :
    l₁[commonPrefixLength l₁ l₂] ≠ l₂[commonPrefixLength l₁ l₂] := by
  induction l₁ generalizing l₂ with
  | nil => simp at h₁
  | cons a as ih =>
      cases l₂ with
      | nil => simp at h₂
      | cons b bs =>
          simp only [commonPrefixLength_cons_cons] at h₁ h₂ ⊢
          split
          · next hab =>
              simp only [hab, if_true, length_cons] at h₁ h₂
              simpa using ih bs (by omega) (by omega)
          · next hab => simpa using hab

theorem getElem_eq_of_lt_commonPrefixLength (l₁ l₂ : List α) (j : ℕ)
    (hj : j < commonPrefixLength l₁ l₂) (h₁ : j < l₁.length) (h₂ : j < l₂.length) :
    l₁[j] = l₂[j] := by
  have htake := take_commonPrefixLength l₁ l₂
  have hj₁ : j < (l₁.take (commonPrefixLength l₁ l₂)).length := by simp; omega
  have hj₂ : j < (l₂.take (commonPrefixLength l₁ l₂)).length := by simp; omega
  calc l₁[j] = (l₁.take (commonPrefixLength l₁ l₂))[j] := List.getElem_take.symm
    _ = (l₂.take (commonPrefixLength l₁ l₂))[j] := by simp only [htake]
    _ = l₂[j] := List.getElem_take

/-- A loop over the positions below both lengths that stops at the first mismatch stops at
the common-prefix length, unless one list is a prefix of the other. -/
theorem find?_range_eq_commonPrefixLength (l₁ l₂ : List α) :
    (List.range (min l₁.length l₂.length)).find? (fun i => l₁[i]? != l₂[i]?) =
      if commonPrefixLength l₁ l₂ < min l₁.length l₂.length then
        some (commonPrefixLength l₁ l₂)
      else none := by
  have hc₁ := commonPrefixLength_le_left l₁ l₂
  have hc₂ := commonPrefixLength_le_right l₁ l₂
  split_ifs with hlt
  · -- the lists differ right after their common prefix
    rw [List.find?_range_eq_some]
    refine ⟨?_, List.mem_range.mpr hlt, ?_⟩
    · have hne := getElem_commonPrefixLength_ne l₁ l₂ (by omega) (by omega)
      simp [List.getElem?_eq_getElem (show commonPrefixLength l₁ l₂ < l₁.length by omega),
        List.getElem?_eq_getElem (show commonPrefixLength l₁ l₂ < l₂.length by omega), hne]
    · intro j hj
      have heq := getElem_eq_of_lt_commonPrefixLength l₁ l₂ j hj (by omega) (by omega)
      simp [List.getElem?_eq_getElem (show j < l₁.length by omega),
        List.getElem?_eq_getElem (show j < l₂.length by omega), heq]
  · -- one list is a prefix of the other, and the loop runs to its end
    rw [List.find?_range_eq_none]
    intro i hi
    have heq := getElem_eq_of_lt_commonPrefixLength l₁ l₂ i (by omega) (by omega) (by omega)
    simp [List.getElem?_eq_getElem (show i < l₁.length by omega),
      List.getElem?_eq_getElem (show i < l₂.length by omega), heq]

/-- The common-prefix length is the first position, below both lengths, where
the lists differ: what a loop that stops at the first mismatch returns. -/
theorem find?_range_getD_eq_commonPrefixLength (l₁ l₂ : List α) :
    ((List.range (min l₁.length l₂.length)).find? fun i => l₁[i]? != l₂[i]?).getD
        (min l₁.length l₂.length) = commonPrefixLength l₁ l₂ := by
  have hc₁ := commonPrefixLength_le_left l₁ l₂
  have hc₂ := commonPrefixLength_le_right l₁ l₂
  rw [find?_range_eq_commonPrefixLength]
  split_ifs
  · rfl
  · rw [Option.getD_none]
    omega

@[simp] theorem commonPrefixLength_append (p l₁ l₂ : List α) :
    commonPrefixLength (p ++ l₁) (p ++ l₂) = p.length + commonPrefixLength l₁ l₂ := by
  induction p with
  | nil => simp
  | cons a p ih =>
      simp only [cons_append, commonPrefixLength_cons_cons, if_true, ih, length_cons]
      omega

@[simp] theorem commonPrefixLength_self (l : List α) : commonPrefixLength l l = l.length := by
  simpa using commonPrefixLength_append l [] []

theorem commonPrefixLength_eq_length_right_iff (l₁ l₂ : List α) :
    commonPrefixLength l₁ l₂ = l₂.length ↔ l₂ <+: l₁ := by
  induction l₁ generalizing l₂ with
  | nil => cases l₂ <;> simp
  | cons a as ih =>
      cases l₂ with
      | nil => simp
      | cons b bs =>
          rw [commonPrefixLength_cons_cons, cons_prefix_cons, ← ih]
          by_cases hab : a = b
          · simp [hab]
          · simp [hab, Ne.symm hab]

section Compare

variable {β : Type*} [LinearOrder β]

theorem compare_eq_compare_getElem (l₁ l₂ : List β) (h₁ : commonPrefixLength l₁ l₂ < l₁.length)
    (h₂ : commonPrefixLength l₁ l₂ < l₂.length) :
    compare l₁ l₂ = compare l₁[commonPrefixLength l₁ l₂] l₂[commonPrefixLength l₁ l₂] := by
  induction l₁ generalizing l₂ with
  | nil => simp at h₁
  | cons a as ih =>
      cases l₂ with
      | nil => simp at h₂
      | cons b bs =>
          rw [List.compare_eq_compareLex, List.compareLex_cons_cons, ← List.compare_eq_compareLex]
          by_cases hab : a = b
          · subst hab
            simp only [commonPrefixLength_cons_cons, if_true, length_cons] at h₁ h₂ ⊢
            rw [compare_eq_iff_eq.mpr rfl, Ordering.eq_then, ih bs (by omega) (by omega)]
            rfl
          · have hne : compare a b ≠ .eq := mt compare_eq_iff_eq.mp hab
            simp only [commonPrefixLength_cons_cons, hab, if_false, getElem_cons_zero]
            cases hc : compare a b
            · rfl
            · exact absurd hc hne
            · rfl

theorem compare_eq_compare_length (l₁ l₂ : List β)
    (h : commonPrefixLength l₁ l₂ = l₁.length ∨ commonPrefixLength l₁ l₂ = l₂.length) :
    compare l₁ l₂ = compare l₁.length l₂.length := by
  induction l₁ generalizing l₂ with
  | nil =>
      cases l₂ with
      | nil => rfl
      | cons b bs =>
          rw [List.compare_eq_compareLex, List.compareLex_nil_cons]
          simp [compare, compareOfLessAndEq]
  | cons a as ih =>
      cases l₂ with
      | nil =>
          rw [List.compare_eq_compareLex, List.compareLex_cons_nil]
          simp [compare, compareOfLessAndEq]
      | cons b bs =>
          by_cases hab : a = b
          · subst hab
            simp only [commonPrefixLength_cons_cons, if_true, length_cons, add_left_inj] at h
            rw [List.compare_eq_compareLex, List.compareLex_cons_cons, ← List.compare_eq_compareLex,
              compare_eq_iff_eq.mpr rfl, Ordering.eq_then, ih bs h]
            simp [compare, compareOfLessAndEq]
          · simp [commonPrefixLength_cons_cons, hab] at h

end Compare

end List
