import Nearcore.ListFacts

/-!
# Ordered sets

Rust's `BTreeSet` as a list strictly increasing in the order of its elements.  Iteration
follows the list: the first element is the least, the `n`-th has exactly `n` elements below it,
and `split_off(k)` cuts the list where it reaches `k`.  Every operation keeps the list sorted,
which the structure records.
-/

structure BTreeSet (K : Type) [LinearOrder K] where
  elems : List K
  sorted : elems.Pairwise (· < ·)

namespace BTreeSet

variable {K : Type} [LinearOrder K]

def empty : BTreeSet K := ⟨[], List.Pairwise.nil⟩

/-- `len`. -/
def len (s : BTreeSet K) : ℕ := s.elems.length

def isEmpty (s : BTreeSet K) : Bool := s.elems.isEmpty

/-- `iter().next()`: the least element. -/
def first? (s : BTreeSet K) : Option K := s.elems.head?

/-- `iter().nth(n)`. -/
def nth? (s : BTreeSet K) (n : ℕ) : Option K := s.elems[n]?

def insertElem (k : K) : List K → List K
  | [] => [k]
  | e :: rest => if k < e then k :: e :: rest else if k = e then e :: rest else e :: insertElem k rest

theorem mem_insertElem (k : K) (l : List K) (x : K) : x ∈ insertElem k l ↔ x = k ∨ x ∈ l := by
  induction l with
  | nil => simp [insertElem]
  | cons e rest ih =>
      unfold insertElem
      split_ifs with hlt heq
      · simp
      · subst heq
        simp
      · simp only [List.mem_cons, ih]
        tauto

theorem insertElem_sorted (k : K) {l : List K} (hs : l.Pairwise (· < ·)) :
    (insertElem k l).Pairwise (· < ·) := by
  induction l with
  | nil => exact List.pairwise_singleton _ _
  | cons e rest ih =>
      obtain ⟨hhead, hrest⟩ := List.pairwise_cons.mp hs
      unfold insertElem
      split_ifs with hlt heq
      · refine List.Pairwise.cons ?_ hs
        intro e' he'
        rcases List.mem_cons.mp he' with rfl | he'
        · exact hlt
        · exact lt_trans hlt (hhead e' he')
      · exact hs
      · -- `k` goes further in, above `e`
        have hgt : e < k := lt_of_le_of_ne (not_lt.mp hlt) (Ne.symm heq)
        refine List.Pairwise.cons ?_ (ih hrest)
        intro e' he'
        rcases (mem_insertElem k rest e').mp he' with rfl | he'
        · exact hgt
        · exact hhead e' he'

theorem length_insertElem {k : K} {l : List K} (hk : k ∉ l) :
    (insertElem k l).length = l.length + 1 := by
  induction l with
  | nil => rfl
  | cons e rest ih =>
      have hke : k ≠ e := fun h => hk (h ▸ List.mem_cons_self)
      unfold insertElem
      split_ifs with hlt
      · simp
      · simp [ih fun h => hk (List.mem_cons_of_mem e h)]

/-- `insert`. -/
def insert (s : BTreeSet K) (k : K) : BTreeSet K := ⟨insertElem k s.elems, insertElem_sorted k s.sorted⟩

/-- `remove`. -/
def erase (s : BTreeSet K) (k : K) : BTreeSet K := ⟨s.elems.filter (· ≠ k), s.sorted.filter _⟩

/-- `split_off(k)`: the elements below `k`, which stay in the set, and those from `k` on,
which it returns. -/
def splitOff (s : BTreeSet K) (k : K) : BTreeSet K × BTreeSet K :=
  (⟨s.elems.filter (· < k), s.sorted.filter _⟩, ⟨s.elems.filter (k ≤ ·), s.sorted.filter _⟩)

theorem nodup (s : BTreeSet K) : s.elems.Nodup := s.sorted.imp ne_of_lt

@[simp] theorem elems_empty : (empty : BTreeSet K).elems = [] := rfl

@[simp] theorem mem_insert (s : BTreeSet K) (k x : K) : x ∈ (s.insert k).elems ↔ x = k ∨ x ∈ s.elems :=
  mem_insertElem k s.elems x

@[simp] theorem mem_erase (s : BTreeSet K) (k x : K) : x ∈ (s.erase k).elems ↔ x ∈ s.elems ∧ x ≠ k := by
  simp [erase]

@[simp] theorem mem_splitOff_fst (s : BTreeSet K) (k x : K) :
    x ∈ (s.splitOff k).1.elems ↔ x ∈ s.elems ∧ x < k := by
  simp [splitOff]

@[simp] theorem mem_splitOff_snd (s : BTreeSet K) (k x : K) :
    x ∈ (s.splitOff k).2.elems ↔ x ∈ s.elems ∧ k ≤ x := by
  simp [splitOff]

/-- `split_off` parts the set. -/
theorem len_splitOff (s : BTreeSet K) (k : K) :
    (s.splitOff k).1.len + (s.splitOff k).2.len = s.len := by
  simp only [len, splitOff]
  rw [List.length_eq_length_filter_add (fun x => decide (x < k)) (l := s.elems)]
  congr 2
  apply List.filter_congr
  intro x _
  rw [← decide_not]
  exact Bool.decide_congr not_lt.symm

theorem len_insert_of_not_mem {s : BTreeSet K} {k : K} (hk : k ∉ s.elems) :
    (s.insert k).len = s.len + 1 :=
  length_insertElem hk

theorem len_erase_of_mem {s : BTreeSet K} {k : K} (hk : k ∈ s.elems) :
    (s.erase k).len + 1 = s.len := by
  have hperm := List.perm_cons_erase hk
  have hfilter : s.elems.filter (· ≠ k) = s.elems.erase k := by
    rw [List.Nodup.erase_eq_filter s.nodup]
    apply List.filter_congr
    intro x _
    by_cases hx : x = k
    · simp [hx]
    · simp [hx]
  simp only [len, erase, hfilter]
  rw [hperm.length_eq, List.length_cons]

theorem isEmpty_iff (s : BTreeSet K) : s.isEmpty = true ↔ s.elems = [] := by
  simp [isEmpty]

theorem first?_le {s : BTreeSet K} {x : K} (h : s.first? = some x) :
    x ∈ s.elems ∧ ∀ y ∈ s.elems, x ≤ y := by
  obtain ⟨elems, sorted⟩ := s
  cases elems with
  | nil => simp [first?] at h
  | cons e rest =>
      simp only [first?, List.head?_cons, Option.some.injEq] at h
      subst h
      refine ⟨List.mem_cons_self, fun y hy => ?_⟩
      rcases List.mem_cons.mp hy with rfl | hy
      · exact le_refl _
      · exact ((List.pairwise_cons.mp sorted).1 y hy).le

theorem first?_eq_none_iff (s : BTreeSet K) : s.first? = none ↔ s.elems = [] := by
  simp [first?]

theorem splitOff_of_nth? {s : BTreeSet K} {n : ℕ} {k : K} (h : s.nth? n = some k) :
    (s.splitOff k).1.elems = s.elems.take n ∧ (s.splitOff k).2.elems = s.elems.drop n := by
  obtain ⟨hn, hk⟩ := List.getElem?_eq_some_iff.mp h
  have hsplit : s.elems = s.elems.take n ++ s.elems.drop n := (List.take_append_drop n s.elems).symm
  have hdrop : s.elems.drop n = k :: s.elems.drop (n + 1) := by
    rw [List.drop_eq_getElem_cons hn, hk]
  have hsorted := s.sorted
  rw [hsplit, List.pairwise_append, hdrop, List.pairwise_cons] at hsorted
  obtain ⟨-, ⟨habove, -⟩, hacross⟩ := hsorted
  have hbelow : ∀ x ∈ s.elems.take n, x < k := fun x hx => hacross x hx k List.mem_cons_self
  have hfrom : ∀ x ∈ k :: s.elems.drop (n + 1), k ≤ x := by
    intro x hx
    rcases List.mem_cons.mp hx with rfl | hx
    · exact le_refl _
    · exact (habove x hx).le
  constructor
  · simp only [splitOff]
    conv_lhs => rw [hsplit, List.filter_append, hdrop]
    rw [List.filter_eq_self.mpr (by simpa using hbelow),
      List.filter_eq_nil_iff.mpr (by simpa using hfrom), List.append_nil]
  · simp only [splitOff]
    conv_lhs => rw [hsplit, List.filter_append, hdrop]
    rw [List.filter_eq_nil_iff.mpr (by simpa using hbelow),
      List.filter_eq_self.mpr (by simpa using hfrom), List.nil_append, hdrop]

theorem nth?_eq_none_iff (s : BTreeSet K) (n : ℕ) : s.nth? n = none ↔ s.len ≤ n := by
  simp [nth?, len]

end BTreeSet
