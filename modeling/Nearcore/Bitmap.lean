import Mathlib.Data.Nat.BitIndices
import Mathlib.Tactic

/-!
# Bitmaps

A bitmap records a set of small indices as the bits of a number.  A sum of distinct powers of
two has exactly its exponents as bits; clearing the lowest set bit `k` of `n` is
`n &&& (n - 1)`, and `BitVec.ctz` finds `k`.  Reading the set bits of a bitmap from the lowest
up, one `ctz` and one clearing at a time, visits them in increasing order.
-/

namespace Nat

theorem eq_two_pow_succ_mul_add_two_pow {n k : ℕ} (hk : n.testBit k = true)
    (hlow : ∀ i < k, n.testBit i = false) : n = 2 ^ (k + 1) * (n / 2 ^ (k + 1)) + 2 ^ k := by
  have hmod : n % 2 ^ (k + 1) = 2 ^ k := by
    apply Nat.eq_of_testBit_eq
    intro i
    rw [Nat.testBit_mod_two_pow, Nat.testBit_two_pow]
    rcases lt_trichotomy i k with hik | rfl | hik
    · simp [hlow i hik, hik.ne']
    · simp [hk]
    · have : ¬ i < k + 1 := by omega
      simp [this, hik.ne]
  calc n = 2 ^ (k + 1) * (n / 2 ^ (k + 1)) + n % 2 ^ (k + 1) := (Nat.div_add_mod n _).symm
    _ = 2 ^ (k + 1) * (n / 2 ^ (k + 1)) + 2 ^ k := by rw [hmod]

theorem testBit_and_sub_one {n k : ℕ} (hk : n.testBit k = true)
    (hlow : ∀ i < k, n.testBit i = false) (i : ℕ) :
    (n &&& (n - 1)).testBit i = (n.testBit i && decide (i ≠ k)) := by
  obtain ⟨m, hn⟩ : ∃ m, n = 2 ^ (k + 1) * m + 2 ^ k :=
    ⟨_, eq_two_pow_succ_mul_add_two_pow hk hlow⟩
  have hpow : 2 ^ k < 2 ^ (k + 1) := Nat.pow_lt_pow_right (by norm_num) (by omega)
  have hsub : n - 1 = 2 ^ (k + 1) * m + (2 ^ k - 1) := by
    have := @Nat.one_le_two_pow k
    omega
  rw [Nat.testBit_and, hsub, hn, Nat.testBit_two_pow_mul_add m hpow,
    Nat.testBit_two_pow_mul_add m (by omega : 2 ^ k - 1 < 2 ^ (k + 1))]
  split_ifs with hik
  · rw [Nat.testBit_two_pow, Nat.testBit_two_pow_sub_one]
    by_cases h : i = k
    · simp [h]
    · simp [h, Ne.symm h]
  · have : i ≠ k := by omega
    simp [this]

theorem and_sub_one_lt {n : ℕ} (hn : n ≠ 0) : n &&& (n - 1) < n :=
  lt_of_le_of_lt Nat.and_le_right (by omega)

theorem testBit_sum_map_two_pow {L : List ℕ} (hL : L.SortedLT) (i : ℕ) :
    (L.map (2 ^ ·)).sum.testBit i = true ↔ i ∈ L := by
  rw [← Nat.mem_bitIndices, Nat.bitIndices_sum_map_two_pow hL]

end Nat

namespace BitVec

theorem testBit_ctz {w : ℕ} {x : BitVec w} (hx : x ≠ 0#w) :
    x.ctz.toNat < w ∧ x.toNat.testBit x.ctz.toNat = true ∧
      ∀ i < x.ctz.toNat, x.toNat.testBit i = false := by
  have hlt := (BitVec.ctz_lt_iff_ne_zero (x := x)).mpr hx
  rw [BitVec.lt_def, BitVec.natCast_eq_ofNat, BitVec.toNat_ofNat] at hlt
  refine ⟨lt_of_lt_of_le hlt (Nat.mod_le _ _), ?_, fun i hi => ?_⟩
  · rw [BitVec.testBit_toNat]
    exact BitVec.getLsbD_true_ctz_of_ne_zero hx
  · rw [BitVec.testBit_toNat]
    exact BitVec.getLsbD_false_of_lt_ctz hi

end BitVec

namespace UInt16

theorem toNat_ne_zero {x : UInt16} (hx : x ≠ 0) : x.toNat ≠ 0 :=
  fun h => hx (UInt16.toNat_inj.mp (by simpa using h))

theorem toNat_and_sub_one {x : UInt16} (hx : x ≠ 0) :
    (x &&& (x - 1)).toNat = x.toNat &&& (x.toNat - 1) := by
  have hone : (1 : UInt16) ≤ x := by
    rw [UInt16.le_iff_toNat_le, UInt16.toNat_one]
    exact Nat.one_le_iff_ne_zero.mpr (toNat_ne_zero hx)
  rw [UInt16.toNat_and, UInt16.toNat_sub_of_le _ _ hone, UInt16.toNat_one]

end UInt16

namespace List

theorem foldr_ite_add_eq_sum {ι : Type*} (p : ι → Bool) (f : ι → ℕ) (l : List ι) :
    l.foldr (fun i acc => if p i then acc + f i else acc) 0 = ((l.filter p).map f).sum := by
  induction l with
  | nil => rfl
  | cons i l ih =>
      rw [List.foldr_cons, ih, List.filter_cons]
      split <;> simp [Nat.add_comm]

theorem flatMap_getD_map {ι α β : Type*} (f : ι → Option α) (g : α → List β) (l : List ι) :
    l.flatMap (fun i => ((f i).map g).getD []) = (l.filterMap f).flatMap g := by
  induction l with
  | nil => rfl
  | cons i l ih => cases hf : f i <;> simp [hf, ih]

theorem filterMap_filter_isSome {α β : Type*} (f : α → Option β) (l : List α) :
    (l.filter fun a => (f a).isSome).filterMap f = l.filterMap f := by
  rw [List.filterMap_filter]
  congr 1
  funext a
  cases f a <;> rfl

/-- A strictly increasing list is the filter of any strictly increasing list holding its
elements by membership in it. -/
theorem filter_eq_of_sortedLT {α : Type*} [LinearOrder α] {l L : List α} (hl : l.SortedLT)
    (hL : L.SortedLT) (hsub : ∀ x ∈ L, x ∈ l) (p : α → Bool)
    (hp : ∀ x ∈ l, p x = true ↔ x ∈ L) : l.filter p = L := by
  apply List.Perm.eq_of_pairwise' (r := (· < ·)) (hl.pairwise.filter _) hL.pairwise
  rw [List.perm_ext_iff_of_nodup (hl.nodup.filter _) hL.nodup]
  intro x
  rw [List.mem_filter]
  constructor
  · rintro ⟨hx, h⟩
    exact (hp x hx).mp h
  · intro h
    exact ⟨hsub x h, (hp x (hsub x h)).mpr h⟩

end List
