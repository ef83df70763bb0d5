import Nearcore.ListFacts

/-!
# Ordered maps

Rust's `BTreeMap` as a list of entries strictly increasing in key.  The
order of the list is the iteration order of the map, so "the first key
after `k`" of a range query is the first entry whose key exceeds `k`.
Every operation keeps the entries sorted, which the structure records.
-/

/-- Entries strictly increasing in key. -/
def EntriesSorted {K V : Type} [LinearOrder K] (entries : List (K × V)) : Prop :=
  entries.Pairwise (fun a b => a.1 < b.1)

structure BTreeMap (K V : Type) [LinearOrder K] where
  entries : List (K × V)
  sorted : EntriesSorted entries

namespace BTreeMap

variable {K V : Type} [LinearOrder K]

def empty : BTreeMap K V := ⟨[], List.Pairwise.nil⟩

def isEmpty (m : BTreeMap K V) : Bool := m.entries.isEmpty

/-- `BTreeMap::get`. -/
def get? (m : BTreeMap K V) (k : K) : Option V :=
  (m.entries.find? (fun e => e.1 = k)).map Prod.snd

def keys (m : BTreeMap K V) : List K := m.entries.map Prod.fst

/-- The values in key order. -/
def values (m : BTreeMap K V) : List V := m.entries.map Prod.snd

/-- `keys().next()`: the least key. -/
def firstKey? (m : BTreeMap K V) : Option K := m.keys.head?

/-- `range((Excluded(k), Unbounded)).next()`: the least key above `k`. -/
def firstKeyAfter? (m : BTreeMap K V) (k : K) : Option K :=
  m.keys.find? (fun k' => k < k')

def insertEntry (k : K) (v : V) : List (K × V) → List (K × V)
  | [] => [(k, v)]
  | e :: rest =>
    if k < e.1 then (k, v) :: e :: rest
    else if k = e.1 then (k, v) :: rest
    else e :: insertEntry k v rest

theorem mem_insertEntry_iff (k : K) (v : V) {entries : List (K × V)}
    (hs : EntriesSorted entries) (e : K × V) :
    e ∈ insertEntry k v entries ↔ e = (k, v) ∨ (e ∈ entries ∧ e.1 ≠ k) := by
  induction entries with
  | nil => simp [insertEntry]
  | cons e₀ rest ih =>
      obtain ⟨hhead, hrest⟩ := List.pairwise_cons.mp hs
      simp only [insertEntry]
      split
      · next hlt =>
          have hne : ∀ e' ∈ e₀ :: rest, e'.1 ≠ k := by
            intro e' he'
            rcases List.mem_cons.mp he' with rfl | he'
            · exact ne_of_gt hlt
            · exact ne_of_gt (lt_trans hlt (hhead e' he'))
          constructor
          · intro he
            rcases List.mem_cons.mp he with h | h
            · exact .inl h
            · exact .inr ⟨h, hne e h⟩
          · rintro (h | ⟨h, -⟩)
            · exact h ▸ List.mem_cons_self
            · exact List.mem_cons_of_mem _ h
      · split
        · next heq =>
            subst heq
            simp only [List.mem_cons]
            constructor
            · rintro (h | h)
              · exact .inl h
              · exact .inr ⟨.inr h, ne_of_gt (hhead e h)⟩
            · rintro (h | ⟨h | h, hne⟩)
              · exact .inl h
              · exact absurd (h ▸ rfl) hne
              · exact .inr h
        · next hnlt hne =>
            have hgt : e₀.1 < k := lt_of_le_of_ne (not_lt.mp hnlt) (Ne.symm hne)
            simp only [List.mem_cons, ih hrest]
            constructor
            · rintro (h | h | ⟨h, hk⟩)
              · exact .inr ⟨.inl h, h ▸ ne_of_lt hgt⟩
              · exact .inl h
              · exact .inr ⟨.inr h, hk⟩
            · rintro (h | ⟨h | h, hk⟩)
              · exact .inr (.inl h)
              · exact .inl h
              · exact .inr (.inr ⟨h, hk⟩)

theorem insertEntry_sorted (k : K) (v : V) {entries : List (K × V)}
    (hs : EntriesSorted entries) : EntriesSorted (insertEntry k v entries) := by
  induction entries with
  | nil => exact List.pairwise_singleton _ _
  | cons e rest ih =>
      obtain ⟨hhead, hrest⟩ := List.pairwise_cons.mp hs
      simp only [insertEntry]
      split
      · next hlt =>
          refine List.Pairwise.cons ?_ hs
          intro e' he'
          rcases List.mem_cons.mp he' with rfl | he'
          · exact hlt
          · exact lt_trans hlt (hhead e' he')
      · split
        · next heq =>
            refine List.Pairwise.cons ?_ hrest
            intro e' he'
            rw [heq]
            exact hhead e' he'
        · next hnlt hne =>
            have hgt : e.1 < k := lt_of_le_of_ne (not_lt.mp hnlt) (Ne.symm hne)
            refine List.Pairwise.cons ?_ (ih hrest)
            intro e' he'
            rcases ((mem_insertEntry_iff k v hrest e').mp he') with rfl | ⟨he', -⟩
            · exact hgt
            · exact hhead e' he'

/-- `BTreeMap::insert`: sets the value of `k`, replacing an old one. -/
def insert (m : BTreeMap K V) (k : K) (v : V) : BTreeMap K V :=
  ⟨insertEntry k v m.entries, insertEntry_sorted k v m.sorted⟩

/-- `BTreeMap::remove`, the map part. -/
def erase (m : BTreeMap K V) (k : K) : BTreeMap K V :=
  ⟨m.entries.filter (fun e => e.1 ≠ k), m.sorted.filter _⟩

/-- `BTreeMap::retain`: keeps the entries whose key and value pass `f`. -/
def retain (m : BTreeMap K V) (f : K → V → Bool) : BTreeMap K V :=
  ⟨m.entries.filter (fun e => f e.1 e.2), m.sorted.filter _⟩

/-- A key from `lo` on and below `hi`, an excluded bound or none. -/
def inRange (lo : K) (hi : Option K) (k : K) : Bool :=
  decide (lo ≤ k) && hi.all fun k' => decide (k < k')

/-- `range((Included(lo), hi))`: the entries in the range, in order. -/
def range (m : BTreeMap K V) (lo : K) (hi : Option K) : List (K × V) :=
  m.entries.filter fun e => inRange lo hi e.1

/-! ## Lookup after each operation -/

theorem get?_eq_some_iff (m : BTreeMap K V) (k : K) (v : V) :
    m.get? k = some v ↔ (k, v) ∈ m.entries := by
  obtain ⟨entries, hs⟩ := m
  simp only [get?]
  induction entries with
  | nil => simp
  | cons e rest ih =>
      obtain ⟨hhead, hrest⟩ := List.pairwise_cons.mp hs
      by_cases hek : e.1 = k
      · -- the head holds `k`, and no later entry does
        subst hek
        have hnot : ∀ e' ∈ rest, e'.1 ≠ e.1 := fun e' he' => ne_of_gt (hhead e' he')
        simp only [List.find?_cons, decide_true, Option.map_some, Option.some.injEq,
          List.mem_cons]
        constructor
        · rintro rfl
          exact .inl rfl
        · rintro (h | h)
          · rw [← h]
          · exact absurd rfl (hnot (e.1, v) h)
      · have hne : (k, v) ≠ e := fun h => hek (h ▸ rfl)
        simp only [List.find?_cons, hek, decide_false, List.mem_cons, hne, false_or]
        exact ih hrest

theorem get?_insert (m : BTreeMap K V) (k k' : K) (v : V) :
    (m.insert k v).get? k' = if k = k' then some v else m.get? k' := by
  apply Option.ext
  intro w
  rw [get?_eq_some_iff]
  simp only [insert, mem_insertEntry_iff k v m.sorted, Prod.mk.injEq]
  by_cases h : k = k'
  · subst h
    simp [eq_comm]
  · simp [Ne.symm h, h, get?_eq_some_iff]

theorem get?_erase (m : BTreeMap K V) (k k' : K) :
    (m.erase k).get? k' = if k = k' then none else m.get? k' := by
  apply Option.ext
  intro w
  rw [get?_eq_some_iff]
  simp only [erase, List.mem_filter, decide_eq_true_eq]
  by_cases h : k = k'
  · subst h
    simp
  · simp [Ne.symm h, h, get?_eq_some_iff]

theorem get?_retain (m : BTreeMap K V) (f : K → V → Bool) (k : K) :
    (m.retain f).get? k = (m.get? k).filter (f k) := by
  apply Option.ext
  intro w
  rw [get?_eq_some_iff, Option.filter_eq_some_iff, get?_eq_some_iff]
  simp only [retain, List.mem_filter]

theorem get?_foldl_erase (m : BTreeMap K V) (ks : List K) (k : K) :
    (ks.foldl erase m).get? k = if k ∈ ks then none else m.get? k := by
  induction ks generalizing m with
  | nil => simp
  | cons k' ks ih =>
      rw [List.foldl_cons, ih, get?_erase]
      by_cases hk : k = k'
      · simp [hk]
      · simp [hk, Ne.symm hk]

theorem mem_keys_iff (m : BTreeMap K V) (k : K) : k ∈ m.keys ↔ ∃ v, m.get? k = some v := by
  simp only [keys, List.mem_map, get?_eq_some_iff]
  constructor
  · rintro ⟨⟨k', v⟩, he, rfl⟩
    exact ⟨v, he⟩
  · rintro ⟨v, he⟩
    exact ⟨(k, v), he, rfl⟩

theorem get?_eq_none_iff (m : BTreeMap K V) (k : K) : m.get? k = none ↔ k ∉ m.keys := by
  rw [mem_keys_iff, not_exists, Option.eq_none_iff_forall_ne_some]

theorem mem_values_iff (m : BTreeMap K V) (v : V) : v ∈ m.values ↔ ∃ k, m.get? k = some v := by
  simp only [values, List.mem_map, get?_eq_some_iff]
  constructor
  · rintro ⟨⟨k, v⟩, he, rfl⟩
    exact ⟨k, he⟩
  · rintro ⟨k, he⟩
    exact ⟨(k, v), he, rfl⟩

theorem get?_eq_find?_beq [BEq K] [LawfulBEq K] (m : BTreeMap K V) (k : K) :
    m.get? k = (m.entries.find? (·.1 == k)).map Prod.snd := by
  simp only [get?]
  congr 2
  funext e
  by_cases h : e.1 = k <;> simp [h]

theorem get?_eq_lookup [BEq K] [LawfulBEq K] (m : BTreeMap K V) (k : K) :
    m.get? k = m.entries.lookup k := by
  rw [get?_eq_find?_beq]
  induction m.entries with
  | nil => rfl
  | cons e entries ih =>
    obtain ⟨k', v⟩ := e
    by_cases hk : k = k'
    · subst hk
      simp
    · rw [List.lookup_cons_of_ne hk, ← ih, List.find?_cons, beq_false_of_ne (Ne.symm hk)]

theorem range_sorted (m : BTreeMap K V) (lo : K) (hi : Option K) : EntriesSorted (m.range lo hi) :=
  m.sorted.filter _

theorem lookup_range [BEq K] [LawfulBEq K] (m : BTreeMap K V) (lo : K) (hi : Option K) (k : K) :
    (m.range lo hi).lookup k = if inRange lo hi k then m.get? k else none := by
  rw [range, List.lookup_filter_key (inRange lo hi), get?_eq_lookup]

theorem mem_range_iff (m : BTreeMap K V) (lo : K) (hi : Option K) (e : K × V) :
    e ∈ m.range lo hi ↔ m.get? e.1 = some e.2 ∧ inRange lo hi e.1 = true := by
  rw [range, List.mem_filter, get?_eq_some_iff]

@[simp] theorem get?_empty (k : K) : (empty : BTreeMap K V).get? k = none := rfl

@[simp] theorem keys_empty : (empty : BTreeMap K V).keys = [] := rfl

theorem isEmpty_iff (m : BTreeMap K V) : m.isEmpty = true ↔ ∀ k, m.get? k = none := by
  obtain ⟨entries, hs⟩ := m
  cases entries with
  | nil => simp [isEmpty, get?]
  | cons e rest =>
      simp only [isEmpty, List.isEmpty_cons, Bool.false_eq_true, false_iff, not_forall]
      exact ⟨e.1, by simp [get?]⟩

theorem keys_nodup (m : BTreeMap K V) : m.keys.Nodup := by
  have hsorted : m.keys.Pairwise (· < ·) := List.pairwise_map.mpr m.sorted
  exact hsorted.imp ne_of_lt

theorem entries_perm_erase {m : BTreeMap K V} {k : K} {v : V} (h : m.get? k = some v) :
    m.entries.Perm ((k, v) :: (m.erase k).entries) := by
  obtain ⟨entries, hs⟩ := m
  rw [get?_eq_some_iff] at h
  simp only [erase]
  induction entries with
  | nil => simp at h
  | cons e rest ih =>
      obtain ⟨hhead, hrest⟩ := List.pairwise_cons.mp hs
      by_cases hek : e.1 = k
      · -- `e` is the entry of `k`, and every later key exceeds it
        have hnot : (k, v) ∉ rest := fun hmem => ne_of_gt (hhead _ hmem) hek.symm
        have he : e = (k, v) := by
          rcases List.mem_cons.mp h with h | h
          · exact h.symm
          · exact absurd h hnot
        have hkeep : rest.filter (fun e' => decide (e'.1 ≠ k)) = rest := by
          apply List.filter_eq_self.mpr
          intro e' he'
          simpa [← hek] using ne_of_gt (hhead e' he')
        rw [List.filter_cons_of_neg (by simpa using hek), hkeep, he]
      · have hmem : (k, v) ∈ rest := by
          rcases List.mem_cons.mp h with h | h
          · exact absurd (h ▸ rfl) hek
          · exact h
        rw [List.filter_cons_of_pos (by simpa using hek)]
        exact ((ih hrest hmem).cons e).trans (List.Perm.swap _ _ _)

theorem entries_nodup (m : BTreeMap K V) : m.entries.Nodup :=
  List.Nodup.of_map Prod.fst m.keys_nodup

theorem entries_perm_insert {m : BTreeMap K V} {k : K} (h : m.get? k = none) (v : V) :
    (m.insert k v).entries.Perm ((k, v) :: m.entries) := by
  have hfresh : ∀ e ∈ m.entries, e.1 ≠ k := by
    intro e he hek
    have : m.get? k = some e.2 := (get?_eq_some_iff m k e.2).mpr (hek ▸ he)
    rw [h] at this
    cases this
  refine (List.perm_ext_iff_of_nodup (m.insert k v).entries_nodup ?_).mpr ?_
  · exact List.nodup_cons.mpr ⟨fun hmem => hfresh _ hmem rfl, m.entries_nodup⟩
  · intro e
    simp only [insert, mem_insertEntry_iff k v m.sorted, List.mem_cons]
    constructor
    · rintro (he | ⟨he, -⟩)
      · exact .inl he
      · exact .inr he
    · rintro (he | he)
      · exact .inl he
      · exact .inr ⟨he, hfresh e he⟩

theorem entries_perm_foldl_insert (entries : List (K × V)) (hnodup : (entries.map Prod.fst).Nodup) :
    ∀ m : BTreeMap K V, (∀ e ∈ entries, m.get? e.1 = none) →
      (entries.foldl (fun m e => m.insert e.1 e.2) m).entries.Perm (m.entries ++ entries) := by
  induction entries with
  | nil => simp
  | cons e rest ih =>
    intro m hfresh
    obtain ⟨hnotin, hrest⟩ := List.nodup_cons.mp hnodup
    have hm' : ∀ e' ∈ rest, (m.insert e.1 e.2).get? e'.1 = none := by
      intro e' he'
      rw [get?_insert, if_neg (fun h : e.1 = e'.1 => hnotin (by rw [h]; exact List.mem_map_of_mem he'))]
      exact hfresh e' (List.mem_cons_of_mem _ he')
    rw [List.foldl_cons]
    refine (ih hrest _ hm').trans ?_
    have hins := entries_perm_insert (hfresh e List.mem_cons_self) e.2
    have hmiddle : (((e.1, e.2) :: m.entries) ++ rest).Perm (m.entries ++ e :: rest) := by
      rw [List.cons_append]
      exact List.perm_middle.symm
    exact (hins.append_right rest).trans hmiddle

theorem keys_perm_insert {m : BTreeMap K V} {k : K} (h : m.get? k = none) (v : V) :
    (m.insert k v).keys.Perm (k :: m.keys) :=
  (entries_perm_insert h v).map Prod.fst

theorem keys_perm_erase {m : BTreeMap K V} {k : K} {v : V} (h : m.get? k = some v) :
    m.keys.Perm (k :: (m.erase k).keys) :=
  (entries_perm_erase h).map Prod.fst

theorem map_keys_get? {W : Type} (m : BTreeMap K V) (f : Option V → W) :
    m.keys.map (fun k => f (m.get? k)) = m.entries.map (fun e => f (some e.2)) := by
  rw [keys, List.map_map]
  apply List.map_congr_left
  intro e he
  simp only [Function.comp_apply, (get?_eq_some_iff m e.1 e.2).mpr he]

/-- Inserting the entries of a list one after the other leaves a key the list does not
hold as it was. -/
theorem get?_foldl_insert_of_not_mem {W : Type} (f : K × V → W) (l : List (K × V))
    (m : BTreeMap K W) {k : K} (hk : k ∉ l.map Prod.fst) :
    (l.foldl (fun m e => m.insert e.1 (f e)) m).get? k = m.get? k := by
  induction l generalizing m with
  | nil => rfl
  | cons e l ih =>
      rw [List.map_cons, List.mem_cons, not_or] at hk
      rw [List.foldl_cons, ih _ hk.2, get?_insert, if_neg (Ne.symm hk.1)]

/-- Inserting the entries of a list with distinct keys one after the other stores each
entry's value under its key. -/
theorem get?_foldl_insert_of_mem {W : Type} (f : K × V → W) {l : List (K × V)}
    (hnodup : (l.map Prod.fst).Nodup) (m : BTreeMap K W) {e : K × V} (he : e ∈ l) :
    (l.foldl (fun m e => m.insert e.1 (f e)) m).get? e.1 = some (f e) := by
  induction l generalizing m with
  | nil => cases he
  | cons e' l ih =>
      obtain ⟨hfresh, hrest⟩ := List.nodup_cons.mp hnodup
      rw [List.foldl_cons]
      rcases List.mem_cons.mp he with rfl | he
      · rw [get?_foldl_insert_of_not_mem f l _ hfresh, get?_insert, if_pos rfl]
      · exact ih hrest _ he

/-! ## Size and sums over the entries -/

/-- `len()`. -/
def size (m : BTreeMap K V) : ℕ := m.entries.length

/-- The sum of `f` over the entries. -/
def sumBy (f : K → V → ℕ) (m : BTreeMap K V) : ℕ := (m.entries.map fun e => f e.1 e.2).sum

@[simp] theorem size_empty : (empty : BTreeMap K V).size = 0 := rfl

@[simp] theorem sumBy_empty (f : K → V → ℕ) : (empty : BTreeMap K V).sumBy f = 0 := rfl

theorem entries_perm_insert_erase (m : BTreeMap K V) (k : K) (v : V) :
    (m.insert k v).entries.Perm ((k, v) :: (m.erase k).entries) := by
  have hfresh : (m.erase k).get? k = none := by simp [get?_erase]
  refine (List.perm_ext_iff_of_nodup (m.insert k v).entries_nodup ?_).mpr ?_
  · refine List.nodup_cons.mpr ⟨fun hmem => ?_, (m.erase k).entries_nodup⟩
    rw [← get?_eq_some_iff, hfresh] at hmem
    cases hmem
  · rintro ⟨k', w⟩
    rw [List.mem_cons, ← get?_eq_some_iff, ← get?_eq_some_iff, get?_insert, get?_erase]
    by_cases hk : k = k'
    · subst hk
      simp [eq_comm]
    · simp [hk, Ne.symm hk]

theorem erase_of_get?_eq_none {m : BTreeMap K V} {k : K} (h : m.get? k = none) :
    (m.erase k).entries = m.entries := by
  apply List.filter_eq_self.mpr
  intro e he
  have hne : e.1 ≠ k := by
    intro hek
    rw [← hek, (get?_eq_some_iff m e.1 e.2).mpr he] at h
    cases h
  simpa using hne

theorem size_insert_of_get?_eq_none {m : BTreeMap K V} {k : K} (h : m.get? k = none) (v : V) :
    (m.insert k v).size = m.size + 1 :=
  (entries_perm_insert h v).length_eq

theorem size_erase_of_get?_eq_some {m : BTreeMap K V} {k : K} {v : V} (h : m.get? k = some v) :
    (m.erase k).size + 1 = m.size := by
  rw [size, size, (entries_perm_erase h).length_eq, List.length_cons]

theorem size_erase_le (m : BTreeMap K V) (k : K) : (m.erase k).size ≤ m.size :=
  List.length_filter_le _ _

theorem size_le_of_forall {m m' : BTreeMap K V} (h : ∀ k v, m'.get? k = some v → (m.get? k).isSome) :
    m'.size ≤ m.size := by
  have hsub : m'.keys ⊆ m.keys := by
    intro k hk
    obtain ⟨v, hv⟩ := (mem_keys_iff m' k).mp hk
    obtain ⟨w, hw⟩ := Option.isSome_iff_exists.mp (h k v hv)
    exact (mem_keys_iff m k).mpr ⟨w, hw⟩
  simpa [size, keys] using (keys_nodup m').length_le_of_subset hsub

theorem size_lt_of_forall {m m' : BTreeMap K V} (h : ∀ k v, m'.get? k = some v → (m.get? k).isSome)
    {k : K} {v : V} (hk : m.get? k = some v) (hk' : m'.get? k = none) : m'.size < m.size := by
  have hle : m'.size ≤ (m.erase k).size := by
    apply size_le_of_forall
    intro k' v' hv'
    have hne : k ≠ k' := by
      rintro rfl
      rw [hk'] at hv'
      cases hv'
    rw [get?_erase, if_neg hne]
    exact h k' v' hv'
  have herase := size_erase_of_get?_eq_some hk
  omega

theorem size_insert_of_get?_eq_some {m : BTreeMap K V} {k : K} {w : V} (h : m.get? k = some w)
    (v : V) : (m.insert k v).size = m.size := by
  have hins := (entries_perm_insert_erase m k v).length_eq
  have hera := (entries_perm_erase h).length_eq
  simp only [List.length_cons] at hins hera
  simp only [size]
  omega

theorem size_le_size_insert (m : BTreeMap K V) (k : K) (v : V) :
    (m.insert k v).size ≤ m.size + 1 := by
  cases h : m.get? k with
  | none => rw [size_insert_of_get?_eq_none h]
  | some w => rw [size_insert_of_get?_eq_some h]; omega

theorem sumBy_insert_of_get?_eq_none (f : K → V → ℕ) {m : BTreeMap K V} {k : K}
    (h : m.get? k = none) (v : V) : (m.insert k v).sumBy f = m.sumBy f + f k v := by
  simp only [sumBy, ((entries_perm_insert h v).map _).sum_eq, List.map_cons, List.sum_cons]
  omega

theorem sumBy_insert_of_get?_eq_some (f : K → V → ℕ) {m : BTreeMap K V} {k : K} {w : V}
    (h : m.get? k = some w) (v : V) :
    (m.insert k v).sumBy f + f k w = m.sumBy f + f k v := by
  simp only [sumBy, ((entries_perm_insert_erase m k v).map _).sum_eq,
    ((entries_perm_erase h).map _).sum_eq, List.map_cons, List.sum_cons]
  omega

theorem sumBy_erase_of_get?_eq_some (f : K → V → ℕ) {m : BTreeMap K V} {k : K} {w : V}
    (h : m.get? k = some w) : (m.erase k).sumBy f + f k w = m.sumBy f := by
  simp only [sumBy, ((entries_perm_erase h).map _).sum_eq, List.map_cons, List.sum_cons]
  omega

theorem le_sumBy_of_get?_eq_some (f : K → V → ℕ) {m : BTreeMap K V} {k : K} {w : V}
    (h : m.get? k = some w) : f k w ≤ m.sumBy f := by
  rw [← sumBy_erase_of_get?_eq_some f h]
  omega

theorem sum_get?_le_sum_values (m : BTreeMap K ℕ) {ks : List K} (hnodup : ks.Nodup)
    (hks : ∀ k ∈ ks, k ∈ m.keys) : (ks.map fun k => (m.get? k).getD 0).sum ≤ m.values.sum := by
  have hvalues : m.values = m.keys.map fun k => (m.get? k).getD 0 :=
    (map_keys_get? m (·.getD 0)).symm
  rw [hvalues]
  exact List.sum_map_le_of_subset hnodup hks _

end BTreeMap
