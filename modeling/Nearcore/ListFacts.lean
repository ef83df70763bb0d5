import Mathlib.Data.List.Chain
import Mathlib.Data.List.Destutter
import Mathlib.Tactic

/-!
# Facts about finite lists used by the models

Sums over an enumeration in which one entry changed, and runs of rounds as
a round-robin scheduler produces them.  Nothing here is specific to a
particular program.
-/

namespace List

theorem find?_reverse_of_nodup_keys {κ ν : Type*} [BEq κ] [LawfulBEq κ] {l : List (κ × ν)}
    (hl : (l.map (·.1)).Nodup) (k : κ) :
    l.reverse.find? (·.1 == k) = l.find? (·.1 == k) := by
  induction l with
  | nil => rfl
  | cons e l ih =>
    obtain ⟨hfresh, hl⟩ := List.nodup_cons.mp hl
    rw [List.reverse_cons, List.find?_append, ih hl, List.find?_cons]
    by_cases hk : e.1 = k
    · -- the key is `e`'s alone
      have hnone : l.find? (·.1 == k) = none := by
        rw [List.find?_eq_none]
        intro e' he' hek
        exact hfresh (List.mem_map.mpr ⟨e', he', (beq_iff_eq.mp hek).trans hk.symm⟩)
      simp [hnone, hk]
    · have hne : (e.1 == k) = false := beq_false_of_ne hk
      simp [hne]

section Lookup

variable {κ ν : Type*} [BEq κ] [LawfulBEq κ]

theorem lookup_cons_of_ne {k k' : κ} (h : k ≠ k') (v : ν) (l : List (κ × ν)) :
    lookup k ((k', v) :: l) = lookup k l := by
  rw [lookup_cons, beq_false_of_ne h]

theorem lookup_eq_none_of_not_mem {k : κ} {l : List (κ × ν)} (h : k ∉ l.map (·.1)) :
    lookup k l = none := by
  rw [lookup_eq_none_iff]
  intro e he
  simpa using fun hk : k = e.1 => h (mem_map.mpr ⟨e, he, hk.symm⟩)

theorem mem_keys_of_lookup_eq_some {k : κ} {l : List (κ × ν)} {v : ν} (h : lookup k l = some v) :
    k ∈ l.map (·.1) := by
  by_contra hk
  rw [lookup_eq_none_of_not_mem hk] at h
  cases h

theorem lookup_filter_key (q : κ → Bool) (k : κ) (l : List (κ × ν)) :
    lookup k (l.filter fun e => q e.1) = if q k then lookup k l else none := by
  induction l with
  | nil => simp
  | cons e l ih =>
    obtain ⟨k', v⟩ := e
    by_cases hk : k = k'
    · subst hk
      by_cases hq : q k
      · simp [hq]
      · rw [filter_cons_of_neg (by simpa using hq), ih, if_neg hq, if_neg hq]
    · rw [lookup_cons_of_ne hk, ← ih]
      by_cases hq : q k' <;> simp [hq, lookup_cons_of_ne hk]

theorem lookup_map_snd {ν' : Type*} (f : ν → ν') (k : κ) (l : List (κ × ν)) :
    lookup k (l.map fun e => (e.1, f e.2)) = (lookup k l).map f := by
  induction l with
  | nil => rfl
  | cons e l ih =>
    obtain ⟨k', v⟩ := e
    by_cases hk : k = k'
    · subst hk
      simp
    · simp only [map_cons, lookup_cons_of_ne hk, ih]

end Lookup

variable {α : Type*} [DecidableEq α]

/-- Changing one entry of a function changes a sum over a list without
duplicates by exactly that entry's change, once. -/
theorem sum_map_update_of_nodup (l : List α) (hl : l.Nodup) (f : α → ℕ) (a : α) (b : ℕ) :
    (l.map (Function.update f a b)).sum + (if a ∈ l then f a else 0) =
      (l.map f).sum + (if a ∈ l then b else 0) := by
  induction l with
  | nil => simp
  | cons x xs ih =>
      obtain ⟨hx, hxs⟩ := List.nodup_cons.mp hl
      by_cases hax : a = x
      · subst hax
        have hsame : xs.map (Function.update f a b) = xs.map f := by
          apply List.map_congr_left
          intro y hy
          have hya : y ≠ a := fun h => hx (h ▸ hy)
          simp [hya]
        simp only [List.map_cons, List.sum_cons, hsame, Function.update_self, List.mem_cons,
          true_or, if_true]
        omega
      · have hupd : Function.update f a b x = f x := Function.update_of_ne (Ne.symm hax) b f
        have hmem : (a ∈ x :: xs) = (a ∈ xs) := by simp [hax]
        have := ih hxs
        simp only [List.map_cons, List.sum_cons, hupd, hmem]
        omega

/-- A sum over a list without duplicates grows by at most `v` when one
entry grows by at most `v`. -/
theorem sum_map_update_le (l : List α) (hl : l.Nodup) (f : α → ℕ) (a : α) (b v : ℕ)
    (hb : b ≤ f a + v) :
    (l.map (Function.update f a b)).sum ≤ (l.map f).sum + v := by
  have h := sum_map_update_of_nodup l hl f a b
  split at h <;> omega

/-- A sum over a list without duplicates of a function cut to zero off one member is its
value at that member. -/
theorem sum_map_ite_eq_of_mem (l : List α) (hl : l.Nodup) {a : α} (ha : a ∈ l) (f : α → ℕ) :
    (l.map fun x => if x = a then f x else 0).sum = f a := by
  have h := sum_map_update_of_nodup l hl (fun _ => 0) a (f a)
  have hfun : Function.update (fun _ => 0) a (f a) = fun x => if x = a then f x else 0 := by
    funext x
    by_cases hx : x = a
    · simp [hx]
    · simp [hx]
  simpa [hfun, ha] using h

/-! ## Rounds

A run of rounds in which no key repeats within a round and every key of a
round already occurs in the round before it.  A scheduler that visits its
queue in passes, where a member that contributes nothing to a pass never
contributes again, produces such a run. -/

section Rounds

variable {κ : Type*}

structure Rounds (rs : List (List κ)) : Prop where
  nodup : ∀ r ∈ rs, r.Nodup
  chain : rs.IsChain (fun r r' => r' ⊆ r)

/-- `k` may still join the current round `cur`, the earlier rounds being `done`. -/
def Fresh (done : List (List κ)) (cur : List κ) (k : κ) : Prop :=
  k ∉ cur ∧ ∀ prev ∈ done.getLast?, k ∈ prev

namespace Rounds

theorem cons_cons_iff {r r' : List κ} {rs : List (List κ)} :
    Rounds (r :: r' :: rs) ↔ r.Nodup ∧ r' ⊆ r ∧ Rounds (r' :: rs) := by
  constructor
  · rintro ⟨hnodup, hchain⟩
    rw [List.isChain_cons_cons] at hchain
    exact ⟨hnodup r (by simp), hchain.1,
      ⟨fun x hx => hnodup x (List.mem_cons_of_mem _ hx), hchain.2⟩⟩
  · rintro ⟨hr, hsub, hnodup, hchain⟩
    refine ⟨?_, List.isChain_cons_cons.mpr ⟨hsub, hchain⟩⟩
    intro x hx
    rcases List.mem_cons.mp hx with rfl | hx
    · exact hr
    · exact hnodup x hx

theorem head_nodup {r : List κ} {rs : List (List κ)} (h : Rounds (r :: rs)) : r.Nodup :=
  h.nodup r List.mem_cons_self

theorem tail {r : List κ} {rs : List (List κ)} (h : Rounds (r :: rs)) : Rounds rs :=
  ⟨fun x hx => h.nodup x (List.mem_cons_of_mem _ hx), h.chain.tail⟩

/-- Appending a fresh key to the current round keeps a run of rounds. -/
theorem concat_fresh {done : List (List κ)} {cur : List κ} {k : κ}
    (h : Rounds (done ++ [cur])) (hk : Fresh done cur k) : Rounds (done ++ [cur ++ [k]]) := by
  obtain ⟨hnodup, hchain⟩ := h
  obtain ⟨hknot, hprev⟩ := hk
  rw [List.isChain_append] at hchain
  obtain ⟨hdone, -, hlink⟩ := hchain
  constructor
  · intro r hr
    rcases List.mem_append.mp hr with hr | hr
    · exact hnodup r (List.mem_append_left _ hr)
    · rw [List.mem_singleton] at hr
      subst hr
      have hcur : cur.Nodup := hnodup cur (by simp)
      rw [List.nodup_append]
      refine ⟨hcur, List.nodup_singleton k, ?_⟩
      intro a ha b hb hab
      rw [List.mem_singleton] at hb
      subst hb hab
      exact hknot ha
  · rw [List.isChain_append]
    refine ⟨hdone, .singleton _, ?_⟩
    intro prev hprev' r hr
    rw [List.head?_cons, Option.mem_some_iff] at hr
    subst hr
    intro x hx
    rcases List.mem_append.mp hx with hx | hx
    · exact hlink prev hprev' cur (by simp) hx
    · rw [List.mem_singleton] at hx
      exact hx ▸ hprev prev hprev'

/-- Closing the current round and opening an empty one keeps a run of rounds. -/
theorem concat_nil {rs : List (List κ)} (h : Rounds rs) : Rounds (rs ++ [[]]) := by
  obtain ⟨hnodup, hchain⟩ := h
  constructor
  · intro r hr
    rcases List.mem_append.mp hr with hr | hr
    · exact hnodup r hr
    · rw [List.mem_singleton] at hr
      exact hr ▸ List.nodup_nil
  · exact hchain.append (.singleton _) (fun _ _ _ _ => by simp_all)

/-- Rounds of elements stay rounds under a second labelling that identifies
exactly the elements the first one identifies. -/
theorem map_of_determines {α κ' : Type*} {f : α → κ} {g : α → κ'} {rs : List (List α)}
    (h : Rounds (rs.map (·.map f)))
    (hgf : ∀ a b, g a = g b → f a = f b)
    (hfg : ∀ a ∈ rs.flatten, ∀ b ∈ rs.flatten, f a = f b → g a = g b) :
    Rounds (rs.map (·.map g)) := by
  obtain ⟨hnodup, hchain⟩ := h
  constructor
  · intro r' hr'
    obtain ⟨r, hr, rfl⟩ := List.mem_map.mp hr'
    have hf : (r.map f).Nodup := hnodup _ (List.mem_map_of_mem hr)
    refine List.Nodup.map_on ?_ (List.Nodup.of_map f hf)
    intro a ha b hb hab
    exact List.inj_on_of_nodup_map hf ha hb (hgf a b hab)
  · rw [List.isChain_map] at hchain ⊢
    refine hchain.imp_of_mem_imp ?_
    intro r r' hr hr' hsub x hx
    obtain ⟨a, ha, rfl⟩ := List.mem_map.mp hx
    obtain ⟨b, hb, hab⟩ := List.mem_map.mp (hsub (List.mem_map_of_mem ha))
    have hbf : b ∈ rs.flatten := List.mem_flatten.mpr ⟨r, hr, hb⟩
    have haf : a ∈ rs.flatten := List.mem_flatten.mpr ⟨r', hr', ha⟩
    exact List.mem_map.mpr ⟨b, hb, hfg b hbf a haf hab⟩

end Rounds

end Rounds

section OptionFold

variable {α β : Type*}

/-- A fold in `Option` keeps its result when every step is replaced by one
that succeeds with the same result wherever the old one succeeded. -/
theorem foldlM_option_of_imp {f g : β → α → Option β}
    (hfg : ∀ b a b', f b a = some b' → g b a = some b') (l : List α) (b r : β)
    (h : l.foldlM f b = some r) : l.foldlM g b = some r := by
  induction l generalizing b with
  | nil => exact h
  | cons a l ih =>
      rw [List.foldlM_cons, Option.bind_eq_bind, Option.bind_eq_some_iff] at h ⊢
      obtain ⟨b', hf, hrest⟩ := h
      exact ⟨b', hfg b a b' hf, ih b' hrest⟩

/-- A fold in `Option` whose every step adds the entry's weight adds up the
weights. -/
theorem foldlM_option_add (g : ℕ → α → Option ℕ) (weight : α → ℕ) (l : List α)
    (hg : ∀ a ∈ l, ∀ n, g n a = some (n + weight a)) (n : ℕ) :
    l.foldlM g n = some (n + (l.map weight).sum) := by
  induction l generalizing n with
  | nil => simp
  | cons a l ih =>
      rw [List.foldlM_cons, hg a List.mem_cons_self n, Option.bind_eq_bind, Option.bind_some,
        ih (fun a' ha' => hg a' (List.mem_cons_of_mem a ha')), List.map_cons, List.sum_cons,
        Nat.add_assoc]

/-- A fold in `Option` whose every step succeeds is the plain fold of the
steps' results. -/
theorem foldlM_option_eq_some_foldl {f : β → α → Option β} {g : β → α → β} (l : List α)
    (hfg : ∀ b, ∀ a ∈ l, f b a = some (g b a)) (b : β) :
    l.foldlM f b = some (l.foldl g b) := by
  induction l generalizing b with
  | nil => rfl
  | cons a l ih =>
      rw [List.foldlM_cons, hfg b a List.mem_cons_self, Option.bind_eq_bind, Option.bind_some,
        List.foldl_cons, ih (fun b' a' ha' => hfg b' a' (List.mem_cons_of_mem a ha'))]

theorem mapM_id_of_forall_isSome {l : List (Option α)} (h : ∀ o ∈ l, o.isSome) :
    ∃ values, l.mapM id = some values ∧ values.map some = l := by
  induction l with
  | nil => exact ⟨[], rfl, rfl⟩
  | cons o l ih =>
      obtain ⟨a, rfl⟩ := Option.isSome_iff_exists.mp (h o List.mem_cons_self)
      obtain ⟨values, hvalues, hmap⟩ := ih fun o' ho' => h o' (List.mem_cons_of_mem _ ho')
      exact ⟨a :: values, by simp [List.mapM_cons, hvalues], by simp [hmap]⟩

theorem mapM_option_eq_some_map {f : α → Option β} {g : α → β} {l : List α}
    (hfg : ∀ a ∈ l, f a = some (g a)) : l.mapM f = some (l.map g) := by
  induction l with
  | nil => rfl
  | cons a l ih =>
      rw [List.mapM_cons, hfg a List.mem_cons_self,
        ih (fun a' ha' => hfg a' (List.mem_cons_of_mem a ha'))]
      rfl

theorem mapM_option_eq_some_filterMap {f : α → Option β} {l : List α}
    (h : ∀ a ∈ l, (f a).isSome) : l.mapM f = some (l.filterMap f) := by
  induction l with
  | nil => rfl
  | cons a l ih =>
      obtain ⟨b, hb⟩ := Option.isSome_iff_exists.mp (h a List.mem_cons_self)
      rw [List.mapM_cons, hb, ih (fun a' ha' => h a' (List.mem_cons_of_mem a ha')),
        List.filterMap_cons_some hb]
      rfl

/-- A fold in `Option` whose every step appends the entry's output, if it has one, collects
the outputs in order. -/
theorem foldlM_option_append_filterMap {step : List β → α → Option (List β)}
    {out : α → Option β} (l : List α)
    (h : ∀ res, ∀ a ∈ l, step res a = some (res ++ (out a).toList)) (res : List β) :
    l.foldlM step res = some (res ++ l.filterMap out) := by
  induction l generalizing res with
  | nil => simp
  | cons a l ih =>
      rw [List.foldlM_cons, h res a List.mem_cons_self, Option.bind_eq_bind, Option.bind_some,
        ih (fun res' a' ha' => h res' a' (List.mem_cons_of_mem a ha'))]
      cases hout : out a <;> simp [hout]

/-- Forward simulation of a fold in `Option`: when every allowed step from related states
succeeds into states related by the abstract step, a run of allowed steps succeeds and ends in
a state related to the abstract run's end. -/
theorem foldlM_option_simulation {σ τ : Type*} {step : σ → α → Option σ} {abs : τ → α → τ}
    {R : σ → τ → Prop} {ok : α → Prop}
    (hstep : ∀ s t a, ok a → R s t → ∃ s', step s a = some s' ∧ R s' (abs t a))
    (l : List α) (hl : ∀ a ∈ l, ok a) {s : σ} {t : τ} (h : R s t) :
    ∃ s', l.foldlM step s = some s' ∧ R s' (l.foldl abs t) := by
  induction l generalizing s t with
  | nil => exact ⟨s, rfl, h⟩
  | cons a l ih =>
      obtain ⟨s', hs', h'⟩ := hstep s t a (hl a List.mem_cons_self) h
      obtain ⟨s'', hs'', h''⟩ := ih (fun b hb => hl b (List.mem_cons_of_mem a hb)) h'
      refine ⟨s'', ?_, h''⟩
      rw [List.foldlM_cons, hs', Option.bind_eq_bind, Option.bind_some, hs'']

end OptionFold

/-! ## Cutting a list into parts of one length -/

section Parts

variable {α : Type*}

theorem length_take_drop_of_lt {xs : List α} {d k i : ℕ} (h : xs.length = d * k) (hi : i < d) :
    ((xs.drop (i * k)).take k).length = k := by
  have hfit : i * k + k ≤ d * k := by
    rw [← Nat.succ_mul]
    exact Nat.mul_le_mul_right k hi
  rw [List.length_take, List.length_drop, h]
  omega

theorem flatten_map_range_take_drop (xs : List α) (d k : ℕ) (h : xs.length = d * k) :
    ((List.range d).map fun i => (xs.drop (i * k)).take k).flatten = xs := by
  induction d generalizing xs with
  | zero => simpa using h
  | succ d ih =>
      have hrest : ((List.range d).map fun i => (xs.drop ((i + 1) * k)).take k) =
          (List.range d).map fun i => ((xs.drop k).drop (i * k)).take k := by
        apply List.map_congr_left
        intro i _
        rw [List.drop_drop, Nat.succ_mul, Nat.add_comm]
      have hlen : (xs.drop k).length = d * k := by
        rw [List.length_drop, h, Nat.succ_mul]
        omega
      rw [List.range_succ_eq_map, List.map_cons, List.map_map, List.flatten_cons]
      simp only [Function.comp_def, Nat.succ_eq_add_one]
      rw [hrest, ih _ hlen, Nat.zero_mul, List.drop_zero, List.take_append_drop]

end Parts

theorem sum_map_div_le {α : Type*} (l : List α) (f : α → ℕ) (c : ℕ) :
    (l.map fun a => f a / c).sum ≤ (l.map f).sum / c := by
  induction l with
  | nil => simp
  | cons a l ih =>
      simp only [List.map_cons, List.sum_cons]
      calc f a / c + (l.map fun a => f a / c).sum ≤ f a / c + (l.map f).sum / c :=
            Nat.add_le_add_left ih _
        _ ≤ (f a + (l.map f).sum) / c := Nat.div_add_div_le_add_div

/-- A sum over a list whose elements all occur, without repeats, in another is at most
the sum over the other. -/
theorem sum_map_le_of_subset {α : Type*} {l l' : List α} (hnodup : l.Nodup) (hsub : l ⊆ l')
    (f : α → ℕ) : (l.map f).sum ≤ (l'.map f).sum := by
  obtain ⟨l₀, hperm, hsublist⟩ := List.subperm_of_subset hnodup hsub
  calc (l.map f).sum = (l₀.map f).sum := (hperm.map f).sum_eq.symm
    _ ≤ (l'.map f).sum := (hsublist.map f).sum_le_sum fun _ _ => Nat.zero_le _

theorem sum_map_lt_mul {α : Type*} {l : List α} {f : α → ℕ} {c : ℕ} (hne : l ≠ [])
    (hlt : ∀ x ∈ l, f x < c) : (l.map f).sum < c * l.length := by
  induction l with
  | nil => exact absurd rfl hne
  | cons a l _ =>
      have ha := hlt a (.head _)
      have hrest : (l.map f).sum ≤ c * l.length := by
        have hbound : ∀ y ∈ l.map f, y ≤ c := by
          intro y hy
          obtain ⟨x, hx, rfl⟩ := List.mem_map.mp hy
          exact (hlt x (.tail _ hx)).le
        simpa [mul_comm] using List.sum_le_card_nsmul (l.map f) c hbound
      simp only [List.map_cons, List.sum_cons, List.length_cons, Nat.mul_add_one]
      omega

theorem forall_eq_of_sum_map_eq_mul {α : Type*} {l : List α} {f : α → ℕ} {c : ℕ}
    (hle : ∀ x ∈ l, c ≤ f x) (hsum : (l.map f).sum = c * l.length) : ∀ x ∈ l, f x = c := by
  induction l with
  | nil => simp
  | cons a l ih =>
      have hle' : ∀ x ∈ l, c ≤ f x := fun x hx => hle x (.tail _ hx)
      have hrest : c * l.length ≤ (l.map f).sum := by
        have hbound : ∀ y ∈ l.map f, c ≤ y := by
          intro y hy
          obtain ⟨x, hx, rfl⟩ := List.mem_map.mp hy
          exact hle' x hx
        simpa [mul_comm] using List.card_nsmul_le_sum (l.map f) c hbound
      have ha := hle a (.head _)
      simp only [List.map_cons, List.sum_cons, List.length_cons, Nat.mul_add_one] at hsum
      intro x hx
      rcases List.mem_cons.mp hx with rfl | hx
      · omega
      · exact ih hle' (by omega) x hx

theorem getD_set_of_lt {α : Type*} {l : List α} {b : ℕ} (hb : b < l.length) (v : α) (i : ℕ)
    (d : α) : (l.set b v).getD i d = if i = b then v else l.getD i d := by
  by_cases hib : i = b
  · subst hib
    simp [List.getD_eq_getElem?_getD, hb]
  · simp [List.getD_eq_getElem?_getD, List.getElem?_set_ne (Ne.symm hib), hib]

theorem getElem?_set_getD {α : Type*} {l : List α} {b : ℕ} (hb : b < l.length) (v d : α)
    (i : ℕ) : ((l.set b v)[i]?).getD d = if i = b then v else (l[i]?).getD d := by
  rw [← List.getD_eq_getElem?_getD, getD_set_of_lt hb, List.getD_eq_getElem?_getD]

/-- Filtering a list by each value below `n` of a function that has one on every element cuts
it into parts that together are a permutation of it. -/
theorem flatMap_range_filter_perm {α : Type*} (l : List α) {f : α → Option ℕ} {n : ℕ}
    (hf : ∀ a ∈ l, ∃ s < n, f a = some s) :
    ((range n).flatMap fun s => l.filter fun a => f a == some s).Perm l := by
  classical
  rw [List.perm_iff_count]
  intro a
  rw [List.count_flatMap]
  by_cases ha : a ∈ l
  · -- only the part of `a`'s own value counts it
    obtain ⟨s₀, hs₀, hfa⟩ := hf a ha
    have hterm : ∀ s ∈ range n, (count a ∘ fun s => l.filter fun a => f a == some s) s =
        if s = s₀ then l.count a else 0 := by
      intro s _
      rw [Function.comp_apply]
      by_cases hs : s = s₀
      · rw [if_pos hs, List.count_filter (by simp [hfa, hs])]
      · rw [if_neg hs, List.count_eq_zero]
        intro hmem
        have hp := (List.mem_filter.mp hmem).2
        simp [hfa, Ne.symm hs] at hp
    rw [List.map_congr_left hterm,
      sum_map_ite_eq_of_mem _ List.nodup_range (List.mem_range.mpr hs₀) fun _ => l.count a]
  · have hzero : l.count a = 0 := List.count_eq_zero.mpr ha
    rw [hzero]
    apply List.sum_eq_zero
    intro x hx
    obtain ⟨s, -, rfl⟩ := List.mem_map.mp hx
    exact List.count_eq_zero.mpr fun hmem => ha (List.mem_filter.mp hmem).1

/-! ## Appending to one list of a list of lists -/

section ModifyAppend

variable {α : Type*}

theorem exists_mem_modify_append {l : List (List α)} {x : α} (i : ℕ) (c : α)
    (h : ∃ s ∈ l, x ∈ s) : ∃ s ∈ l.modify i (· ++ [c]), x ∈ s := by
  obtain ⟨s, hs, hx⟩ := h
  obtain ⟨j, hj⟩ := mem_iff_getElem?.mp hs
  by_cases hij : i = j
  · refine ⟨s ++ [c], mem_iff_getElem?.mpr ⟨j, ?_⟩, mem_append_left _ hx⟩
    simp [hj, hij]
  · refine ⟨s, mem_iff_getElem?.mpr ⟨j, ?_⟩, hx⟩
    simp [hj, hij]

theorem exists_mem_modify_append_self {l : List (List α)} {i : ℕ} (hi : i < l.length) (c : α) :
    ∃ s ∈ l.modify i (· ++ [c]), c ∈ s := by
  refine ⟨l[i] ++ [c], mem_iff_getElem?.mpr ⟨i, ?_⟩, mem_append_right _ (mem_singleton_self c)⟩
  simp [hi]

theorem forall_mem_modify_append {l : List (List α)} {p : α → Prop} (i : ℕ) {c : α}
    (h : ∀ s ∈ l, ∀ x ∈ s, p x) (hc : p c) : ∀ s ∈ l.modify i (· ++ [c]), ∀ x ∈ s, p x := by
  intro s hs x hx
  obtain ⟨j, hj⟩ := mem_iff_getElem?.mp hs
  rw [getElem?_modify] at hj
  obtain ⟨s₀, hs₀, rfl⟩ := Option.map_eq_some_iff.mp hj
  have hmem : s₀ ∈ l := mem_of_getElem? hs₀
  split at hx
  · rcases mem_append.mp hx with hx | hx
    · exact h s₀ hmem x hx
    · rw [mem_singleton.mp hx]
      exact hc
  · exact h s₀ hmem x hx

theorem flatten_modify_append_perm : ∀ {l : List (List α)} {i : ℕ}, i < l.length → ∀ c : α,
    (l.modify i (· ++ [c])).flatten.Perm (l.flatten ++ [c])
  | [], _, hi, _ => absurd hi (Nat.not_lt_zero _)
  | s :: l, 0, _, c => by
      rw [modify_zero_cons, flatten_cons, flatten_cons, append_assoc, append_assoc]
      exact (@perm_append_comm _ [c] l.flatten).append_left s
  | s :: l, i + 1, hi, c => by
      rw [modify_succ_cons, flatten_cons, flatten_cons, append_assoc]
      exact (flatten_modify_append_perm (Nat.lt_of_succ_lt_succ hi) c).append_left s

end ModifyAppend

/-- Looking up every index of `l` in turn gives `l`. -/
theorem map_getElem?_range {α : Type*} (l : List α) : (range l.length).map (l[·]?) = l.map some := by
  apply ext_getElem (by simp)
  intro i h _
  simp only [length_map, length_range] at h
  simp [h]

theorem map_getD_range {α : Type*} (l : List α) (d : α) : (range l.length).map (l.getD · d) = l := by
  apply ext_getElem (by simp)
  intro i _ h
  simp [getElem?_eq_getElem h]

theorem IsChain.forall_mem_zip_tail {α : Type*} {R : α → α → Prop} :
    ∀ {l : List α}, l.IsChain R → ∀ p ∈ l.zip l.tail, R p.1 p.2
  | [], _ => by simp
  | [_], _ => by simp
  | a :: b :: l, h => by
      rw [isChain_cons_cons] at h
      intro p hp
      rw [tail_cons, zip_cons_cons, mem_cons] at hp
      rcases hp with rfl | hp
      · exact h.1
      · exact IsChain.forall_mem_zip_tail h.2 p hp

theorem exists_add_mod_eq (p : ℕ) {c n : ℕ} (hc : c < n) : ∃ j < n, (p + j) % n = c := by
  have hn : 0 < n := by omega
  have hp := Nat.mod_lt p hn
  refine ⟨(c + (n - p % n)) % n, Nat.mod_lt _ hn, ?_⟩
  have hsum : p % n + (c + (n - p % n)) = c + n := by omega
  rw [Nat.add_mod_mod, ← Nat.mod_add_mod, hsum, Nat.add_mod_right, Nat.mod_eq_of_lt hc]

/-! ## Cutting a list at the first separator -/

section Separator

variable {α : Type*} [BEq α] [LawfulBEq α]

/-- The first separator of `xs ++ sep :: ys` is the one after `xs`, when `xs`
has none. -/
theorem findIdx?_append_cons_of_not_mem {xs : List α} {sep : α} (hsep : sep ∉ xs) (ys : List α) :
    (xs ++ sep :: ys).findIdx? (· == sep) = some xs.length := by
  induction xs with
  | nil => simp [findIdx?_cons]
  | cons x xs ih =>
      have hx : x ≠ sep := fun h => hsep (h ▸ mem_cons_self)
      rw [cons_append, findIdx?_cons, ih (fun h => hsep (mem_cons_of_mem x h))]
      simp [hx]

end Separator

/-- Two lists cut by a separator that neither part before it contains: one
starts the other when the parts before agree and the rest of one starts the
rest of the other. -/
theorem append_cons_prefix_append_cons_iff {α : Type*} {xs ys p q : List α} {sep : α} (hx : sep ∉ xs)
    (hy : sep ∉ ys) : xs ++ sep :: p <+: ys ++ sep :: q ↔ xs = ys ∧ p <+: q := by
  induction xs generalizing ys with
  | nil =>
      cases ys with
      | nil => simp [cons_prefix_cons]
      | cons y ys =>
          have hy' : y ≠ sep := fun h => hy (h ▸ mem_cons_self)
          simp [cons_prefix_cons, Ne.symm hy']
  | cons x xs ih =>
      have hx' : x ≠ sep := fun h => hx (h ▸ mem_cons_self)
      cases ys with
      | nil => simp [cons_prefix_cons, hx']
      | cons y ys =>
          rw [cons_append, cons_append, cons_prefix_cons,
            ih (fun h => hx (mem_cons_of_mem x h)) (fun h => hy (mem_cons_of_mem y h)), cons.injEq,
            and_assoc]

/-- Erasing an element of the tail of `a :: l` leaves `a` in front. -/
theorem erase_cons_perm_of_mem {α : Type*} [BEq α] [LawfulBEq α] {l : List α} {a e : α}
    (he : e ∈ l) : ((a :: l).erase e).Perm (a :: l.erase e) := by
  rw [erase_cons]
  split
  · next hae =>
      rw [beq_iff_eq.mp hae]
      exact perm_cons_erase he
  · exact Perm.refl _

/-- A list is a run of `c`, or ends in a run of `c` after its last other element. -/
theorem eq_replicate_or_eq_append_cons_replicate {α : Type*} (c : α) (l : List α) :
    l = replicate l.length c ∨ ∃ p a k, a ≠ c ∧ l = p ++ a :: replicate k c := by
  induction l with
  | nil => exact .inl rfl
  | cons x l ih =>
      rcases ih with hrun | ⟨p, a, k, ha, rfl⟩
      · by_cases hx : x = c
        · left
          rw [length_cons, replicate_succ, ← hrun, hx]
        · exact .inr ⟨[], x, l.length, hx, by rw [nil_append, ← hrun]⟩
      · exact .inr ⟨x :: p, a, k, ha, rfl⟩

theorem mem_dropLast_iff_of_nodup {α : Type*} {l : List α} {v a : α} (hl : l.Nodup)
    (h : l.getLast? = some v) : a ∈ l.dropLast ↔ a ∈ l ∧ a ≠ v := by
  have hsplit : l = l.dropLast ++ [v] := (dropLast_append_getLast? v h).symm
  have hv : v ∉ l.dropLast := by
    rw [hsplit, nodup_append] at hl
    exact fun hmem => hl.2.2 v hmem v (mem_singleton_self v) rfl
  constructor
  · intro ha
    exact ⟨dropLast_subset l ha, fun hav => hv (hav ▸ ha)⟩
  · rintro ⟨ha, hav⟩
    rw [hsplit, mem_append, mem_singleton] at ha
    exact ha.resolve_right hav

theorem getElem?_append_singleton {α : Type*} (l : List α) (x : α) (i : ℕ) :
    (l ++ [x])[i]? = if i = l.length then some x else l[i]? := by
  rcases lt_trichotomy i l.length with hi | rfl | hi
  · rw [getElem?_append_left hi, if_neg hi.ne]
  · rw [getElem?_concat_length, if_pos rfl]
  · rw [if_neg hi.ne', getElem?_eq_none hi.le, getElem?_eq_none (by simp; omega)]

/-- Dropping the elements `R` does not relate to the last one kept keeps, for every element,
itself or one before it that `R` does not relate to it. -/
theorem exists_mem_destutter' {α : Type*} {R : α → α → Prop} [DecidableRel R]
    {r : α → α → Prop} : ∀ {a : α} {l : List α}, (a :: l).Pairwise r → ∀ x ∈ a :: l,
      ∃ y ∈ l.destutter' R a, y = x ∨ ¬ R y x ∧ r y x
  | a, [], _, x, hx => ⟨a, mem_destutter' [] R a, .inl (mem_singleton.mp hx).symm⟩
  | a, b :: l, hl, x, hx => by
      rw [destutter'_cons]
      split_ifs with hab
      · rcases mem_cons.mp hx with rfl | hx
        · exact ⟨x, mem_cons_self, .inl rfl⟩
        · obtain ⟨y, hy, hyx⟩ := exists_mem_destutter' (R := R) (pairwise_cons.mp hl).2 x hx
          exact ⟨y, mem_cons_of_mem a hy, hyx⟩
      · -- `b` is dropped after `a`, which stands for it
        rcases mem_cons.mp hx with rfl | hx
        · exact ⟨x, mem_destutter' l R x, .inl rfl⟩
        · rcases mem_cons.mp hx with rfl | hx
          · exact ⟨a, mem_destutter' l R a, .inr ⟨hab, (pairwise_cons.mp hl).1 x mem_cons_self⟩⟩
          · exact exists_mem_destutter' (R := R) (hl.sublist ((sublist_cons_self b l).cons_cons a)) x
              (mem_cons_of_mem a hx)

/-- A chain of neighbours with different values, ordered by a partial order along the whole
list, is strictly ordered along it. -/
theorem Pairwise.lt_of_isChain_ne {α β : Type*} [PartialOrder β] {f : α → β} :
    ∀ {l : List α}, l.Pairwise (fun a b => f b ≤ f a) → l.IsChain (fun a b => f a ≠ f b) →
      l.Pairwise (fun a b => f b < f a)
  | [], _, _ => Pairwise.nil
  | [a], _, _ => pairwise_singleton _ a
  | a :: b :: l, hle, hne => by
      obtain ⟨hab, hne⟩ := isChain_cons_cons.mp hne
      have ih := Pairwise.lt_of_isChain_ne (pairwise_cons.mp hle).2 hne
      have hba : f b < f a := lt_of_le_of_ne ((pairwise_cons.mp hle).1 b mem_cons_self) hab.symm
      refine pairwise_cons.mpr ⟨fun c hc => ?_, ih⟩
      rcases mem_cons.mp hc with rfl | hc
      · exact hba
      · exact lt_trans ((pairwise_cons.mp ih).1 c hc) hba

theorem Nodup.getElem?_eq_some_iff_idxOf {α : Type*} [DecidableEq α] {l : List α}
    (hl : l.Nodup) {k : ℕ} {a : α} : l[k]? = some a ↔ a ∈ l ∧ l.idxOf a = k := by
  constructor
  · intro h
    obtain ⟨hk, rfl⟩ := getElem?_eq_some_iff.mp h
    exact ⟨getElem_mem hk, hl.idxOf_getElem k hk⟩
  · rintro ⟨ha, rfl⟩
    exact getElem?_idxOf ha

end List
