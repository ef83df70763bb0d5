import Mathlib.Data.Nat.Log
import Mathlib.Tactic

/-!
# Merkle roots of lists split at powers of two

The root of a list of leaves splits the list at `next_power_of_two(len) / 2`, the largest
power of two below its length, so that the left part is a perfect tree and the right part
is the rest.  Two views of this tree are developed here, over an arbitrary combining
function and an arbitrary root of the empty list.

* Blocks: the `m`-th block of level `k` is the run of `2 ^ k` leaves starting at
  `m * 2 ^ k`.  The root of a block of level `k + 1` combines the roots of its two halves,
  or is the root of its left half when the right one is empty (`root_block_succ`).  This
  is the step of a construction that pairs neighbours level by level.
* Peaks: the roots of the perfect subtrees that the binary digits of the length cut the
  list into, largest first.  Their number is the number of ones in the length
  (`length_peaks`), combining them from the right gives the root (`foldRight_peaks`), and
  appending to a list whose length is a multiple of `2 ^ k` something shorter than `2 ^ k`
  appends the peaks (`peaks_append`).  This is what an append-only accumulator keeps.
-/

namespace MerkleList

/-- The least power of two that is at least `n` (`1` for `0`), as `usize::next_power_of_two`. -/
def nextPowerOfTwo (n : ℕ) : ℕ := 2 ^ Nat.clog 2 n

theorem clog_eq_of_lt_of_le {k n : ℕ} (hlo : 2 ^ k < n) (hhi : n ≤ 2 ^ (k + 1)) :
    Nat.clog 2 n = k + 1 := by
  have hle : Nat.clog 2 n ≤ k + 1 := Nat.clog_le_of_le_pow hhi
  have hge : k + 1 ≤ Nat.clog 2 n := by
    by_contra hlt
    have : n ≤ 2 ^ k := (Nat.clog_le_iff_le_pow (by norm_num)).mp (by omega)
    omega
  exact le_antisymm hle hge

theorem nextPowerOfTwo_eq {k n : ℕ} (hlo : 2 ^ k < n) (hhi : n ≤ 2 ^ (k + 1)) :
    nextPowerOfTwo n = 2 ^ (k + 1) := by
  rw [nextPowerOfTwo, clog_eq_of_lt_of_le hlo hhi]

theorem exists_pow_lt_le {n : ℕ} (hn : 2 ≤ n) : ∃ k, 2 ^ k < n ∧ n ≤ 2 ^ (k + 1) := by
  refine ⟨Nat.clog 2 n - 1, ?_, ?_⟩
  · exact Nat.pow_pred_clog_lt_self (by norm_num) (by omega)
  · have hpos : 0 < Nat.clog 2 n := Nat.clog_pos (by norm_num) (by omega)
    rw [Nat.sub_add_cancel hpos]
    exact Nat.le_pow_clog (by norm_num) n

theorem half_nextPowerOfTwo {n : ℕ} (hn : 2 ≤ n) :
    0 < nextPowerOfTwo n / 2 ∧ nextPowerOfTwo n / 2 < n := by
  obtain ⟨k, hlo, hhi⟩ := exists_pow_lt_le hn
  rw [nextPowerOfTwo_eq hlo hhi, pow_succ, Nat.mul_div_cancel _ (by norm_num)]
  exact ⟨Nat.two_pow_pos k, hlo⟩

/-- The number of ones in the binary expansion of `n`. -/
def popcount (n : ℕ) : ℕ := if n = 0 then 0 else n % 2 + popcount (n / 2)
decreasing_by omega

theorem popcount_zero : popcount 0 = 0 := by
  rw [popcount, if_pos rfl]

theorem popcount_two_pow_add {k r : ℕ} (hr : r < 2 ^ k) :
    popcount (2 ^ k + r) = popcount r + 1 := by
  induction k generalizing r with
  | zero =>
      obtain rfl : r = 0 := by simpa using hr
      rw [popcount, if_neg (by norm_num)]
      simp [popcount_zero]
  | succ k ih =>
      have hdiv : (2 ^ (k + 1) + r) / 2 = 2 ^ k + r / 2 := by rw [pow_succ]; omega
      have hmod : (2 ^ (k + 1) + r) % 2 = r % 2 := by rw [pow_succ]; omega
      rw [popcount, if_neg (by positivity), hdiv, hmod, ih (by rw [pow_succ] at hr; omega)]
      rcases Nat.eq_zero_or_pos r with rfl | hpos
      · simp [popcount_zero]
      · rw [popcount.eq_1 r, if_neg (by omega)]
        omega

example : popcount 11 = 3 := by decide +kernel

theorem log_add_of_dvd {k a b : ℕ} (ha : 0 < a) (hdvd : 2 ^ k ∣ a) (hb : b < 2 ^ k) :
    Nat.log 2 (a + b) = Nat.log 2 a := by
  set L := Nat.log 2 a
  have hlow : 2 ^ L ≤ a := Nat.pow_log_le_self 2 (by omega)
  have hhigh : a < 2 ^ (L + 1) := Nat.lt_pow_succ_log_self (by norm_num) a
  have hkL : k ≤ L + 1 := by
    by_contra hlt
    have : 2 ^ (L + 1) < 2 ^ k := Nat.pow_lt_pow_right (by norm_num) (by omega)
    have : 2 ^ k ≤ a := Nat.le_of_dvd ha hdvd
    omega
  -- `a` and `2 ^ (L + 1)` are both multiples of `2 ^ k`, so `a` is at least `2 ^ k` below it
  obtain ⟨c, rfl⟩ := hdvd
  have hsplit : 2 ^ (L + 1) = 2 ^ k * 2 ^ (L + 1 - k) := by
    rw [← pow_add, Nat.add_sub_cancel' hkL]
  have hc : c + 1 ≤ 2 ^ (L + 1 - k) := by
    have : 2 ^ k * c < 2 ^ k * 2 ^ (L + 1 - k) := hsplit ▸ hhigh
    have := Nat.lt_of_mul_lt_mul_left this
    omega
  have hgap : 2 ^ k * c + 2 ^ k ≤ 2 ^ (L + 1) := by
    calc 2 ^ k * c + 2 ^ k = 2 ^ k * (c + 1) := by ring
      _ ≤ 2 ^ k * 2 ^ (L + 1 - k) := Nat.mul_le_mul_left _ hc
      _ = 2 ^ (L + 1) := hsplit.symm
  rw [Nat.log_eq_iff (Or.inr ⟨by norm_num, by omega⟩)]
  omega

theorem pow_dvd_pow_log {k a : ℕ} (ha : 0 < a) (hdvd : 2 ^ k ∣ a) :
    2 ^ k ∣ 2 ^ Nat.log 2 a := by
  apply Nat.pow_dvd_pow
  apply Nat.le_log_of_pow_le (by norm_num)
  exact Nat.le_of_dvd ha hdvd

section Root

variable {β : Type*} (f : β → β → β) (d : β)

/-- The root of a list: `d` for no leaves, the leaf for one, and otherwise the two roots of
the list cut at `next_power_of_two(len) / 2`, combined. -/
def root : List β → β
  | [] => d
  | [h] => h
  | h₁ :: h₂ :: t =>
      let l := h₁ :: h₂ :: t
      let s := nextPowerOfTwo l.length / 2
      f (root (l.take s)) (root (l.drop s))
termination_by l => l.length
decreasing_by
  all_goals
    have hs := half_nextPowerOfTwo (n := t.length + 1 + 1) (by omega)
    simp only [List.length_take, List.length_drop, List.length_cons] at hs ⊢
    omega

/-- Combine a list from the right, `[a, b, c]` to `f a (f b c)`, with `d` for no elements. -/
def foldRight : List β → β
  | [] => d
  | [x] => x
  | x :: y :: rest => f x (foldRight (y :: rest))

/-- The `m`-th block of level `k`: the `2 ^ k` leaves from `m * 2 ^ k` on, fewer at the end
of the list and none past it. -/
def block (k m : ℕ) (l : List β) : List β := (l.drop (m * 2 ^ k)).take (2 ^ k)

/-- The roots of the perfect subtrees of the list, largest first: each cuts off the largest
power of two that the rest of the list still holds. -/
def peaks (l : List β) : List β :=
  if hl : l = [] then []
  else
    let s := 2 ^ Nat.log 2 l.length
    root f d (l.take s) :: peaks (l.drop s)
termination_by l.length
decreasing_by
  have : l.length ≠ 0 := by simpa using hl
  have := Nat.two_pow_pos (Nat.log 2 l.length)
  simp only [List.length_drop]
  omega

variable {f d}

@[simp] theorem root_nil : root f d [] = d := by rw [root]

@[simp] theorem root_singleton (h : β) : root f d [h] = h := by rw [root]

theorem root_split {k : ℕ} {l : List β} (hlo : 2 ^ k < l.length) (hhi : l.length ≤ 2 ^ (k + 1)) :
    root f d l = f (root f d (l.take (2 ^ k))) (root f d (l.drop (2 ^ k))) := by
  match l, hlo, hhi with
  | [], h, _ => simp at h
  | [_], h, _ => simp at h
  | a :: b :: t, hlo, hhi =>
      rw [root, nextPowerOfTwo_eq hlo hhi, pow_succ, Nat.mul_div_cancel _ (by norm_num)]

theorem root_append_of_length_eq {k : ℕ} {a b : List β} (ha : a.length = 2 ^ k)
    (hb : b.length = 2 ^ k) : root f d (a ++ b) = f (root f d a) (root f d b) := by
  have hlen : (a ++ b).length = 2 ^ (k + 1) := by rw [List.length_append, ha, hb, pow_succ]; ring
  rw [root_split (k := k) (by rw [hlen, pow_succ]; have := Nat.two_pow_pos k; omega) hlen.le,
    List.take_left' ha, List.drop_left' ha]

theorem foldRight_cons (x : β) {xs : List β} (hxs : xs ≠ []) :
    foldRight f d (x :: xs) = f x (foldRight f d xs) := by
  obtain ⟨y, rest, rfl⟩ := List.exists_cons_of_ne_nil hxs
  rw [foldRight]

theorem foldRight_append_singleton (xs : List β) (x : β) :
    foldRight f d (xs ++ [x]) = xs.foldr f x := by
  induction xs with
  | nil => rfl
  | cons y ys ih =>
    rw [List.cons_append, foldRight_cons _ (by simp), ih, List.foldr_cons]

section Block

variable {k m : ℕ} {l : List β}

theorem length_block : (block k m l).length = min (2 ^ k) (l.length - m * 2 ^ k) := by
  simp [block]

theorem block_eq_nil_iff : block k m l = [] ↔ l.length ≤ m * 2 ^ k := by
  rw [← List.length_eq_zero_iff, length_block]
  have := Nat.two_pow_pos k
  omega

theorem take_block_succ : (block (k + 1) m l).take (2 ^ k) = block k (2 * m) l := by
  have hpow : 2 ^ k ≤ 2 ^ (k + 1) := Nat.pow_le_pow_right (by norm_num) (by omega)
  rw [block, block, List.take_take, min_eq_left hpow, pow_succ, mul_comm 2 m, mul_assoc,
    mul_comm 2 (2 ^ k)]

theorem drop_block_succ : (block (k + 1) m l).drop (2 ^ k) = block k (2 * m + 1) l := by
  rw [block, block, List.drop_take, List.drop_drop, pow_succ]
  congr 2
  · omega
  · ring

/-- A block of level `k + 1` is its two halves of level `k`; its root combines their roots,
unless the right half is empty. -/
theorem root_block_succ :
    root f d (block (k + 1) m l) =
      if block k (2 * m + 1) l = [] then root f d (block k (2 * m) l)
      else f (root f d (block k (2 * m) l)) (root f d (block k (2 * m + 1) l)) := by
  have hlen := length_block (k := k + 1) (m := m) (l := l)
  have hpow : 2 ^ (k + 1) = 2 * 2 ^ k := by rw [pow_succ, mul_comm]
  split_ifs with hnil
  · -- an empty right half: the block fits in its left half
    rw [block_eq_nil_iff] at hnil
    have hshort : (block (k + 1) m l).length ≤ 2 ^ k := by
      rw [hlen, hpow]
      have : (2 * m + 1) * 2 ^ k = m * (2 * 2 ^ k) + 2 ^ k := by ring
      omega
    rw [← take_block_succ, List.take_of_length_le hshort]
  · rw [block_eq_nil_iff, not_le] at hnil
    have hlong : 2 ^ k < (block (k + 1) m l).length := by
      rw [hlen, hpow]
      have : (2 * m + 1) * 2 ^ k = m * (2 * 2 ^ k) + 2 ^ k := by ring
      have := Nat.two_pow_pos k
      omega
    rw [root_split hlong (by rw [hlen]; exact min_le_left _ _), take_block_succ, drop_block_succ]

theorem block_zero {j : ℕ} (hj : j < l.length) : block 0 j l = [l[j]] := by
  rw [block, pow_zero, mul_one, List.drop_eq_getElem_cons hj]
  rfl

theorem block_zero_of_length_le (hl : l.length ≤ 2 ^ k) : block k 0 l = l := by
  simp [block, List.take_of_length_le hl]

end Block

section Peaks

variable {k : ℕ} {l p q : List β}

@[simp] theorem peaks_nil : peaks f d [] = [] := by rw [peaks, dif_pos rfl]

theorem peaks_of_ne_nil (hl : l ≠ []) :
    peaks f d l = root f d (l.take (2 ^ Nat.log 2 l.length)) ::
      peaks f d (l.drop (2 ^ Nat.log 2 l.length)) := by
  rw [peaks, dif_neg hl]

theorem peaks_of_length_eq (hl : l.length = 2 ^ k) : peaks f d l = [root f d l] := by
  have hne : l ≠ [] := by
    rw [← List.length_pos_iff, hl]
    exact Nat.two_pow_pos k
  rw [peaks_of_ne_nil hne, hl, Nat.log_pow (by norm_num), ← hl, List.take_length,
    List.drop_length, peaks_nil]

theorem peaks_append (hp : 2 ^ k ∣ p.length) (hq : q.length < 2 ^ k) :
    peaks f d (p ++ q) = peaks f d p ++ peaks f d q := by
  induction hn : p.length using Nat.strong_induction_on generalizing p with
  | _ n ih =>
    rcases eq_or_ne p [] with rfl | hne
    · simp
    have hpos : 0 < p.length := List.length_pos_iff.mpr hne
    set s := 2 ^ Nat.log 2 p.length with hs
    have hslen : s ≤ p.length := Nat.pow_log_le_self 2 (by omega)
    have hspos : 0 < s := Nat.two_pow_pos _
    have hlog : Nat.log 2 (p ++ q).length = Nat.log 2 p.length := by
      rw [List.length_append]
      exact log_add_of_dvd hpos hp hq
    have hrest : 2 ^ k ∣ (p.drop s).length := by
      rw [List.length_drop]
      exact Nat.dvd_sub hp (pow_dvd_pow_log hpos hp)
    rw [peaks_of_ne_nil (by simp [hne]), peaks_of_ne_nil hne, hlog, ← hs,
      List.take_append_of_le_length hslen, List.drop_append_of_le_length hslen,
      ih _ (by rw [← hn, List.length_drop]; omega) hrest rfl, List.cons_append]

theorem length_peaks (l : List β) : (peaks f d l).length = popcount l.length := by
  induction hn : l.length using Nat.strong_induction_on generalizing l with
  | _ n ih =>
    rcases eq_or_ne l [] with rfl | hne
    · rw [← hn]
      simp [popcount_zero]
    have hlen : l.length ≠ 0 := by simpa using hne
    rw [peaks_of_ne_nil hne, List.length_cons]
    set L := Nat.log 2 l.length
    have hlow : 2 ^ L ≤ l.length := Nat.pow_log_le_self 2 hlen
    have hhigh : l.length < 2 ^ (L + 1) := Nat.lt_pow_succ_log_self (by norm_num) _
    have hrest : (l.drop (2 ^ L)).length < 2 ^ L := by
      rw [List.length_drop]
      rw [pow_succ] at hhigh
      omega
    rw [ih _ (by rw [← hn, List.length_drop]; have := Nat.two_pow_pos L; omega) _ rfl, ← hn,
      ← popcount_two_pow_add hrest, List.length_drop, Nat.add_sub_cancel' hlow]

theorem peaks_ne_nil (hl : l ≠ []) : peaks f d l ≠ [] := by
  rw [peaks_of_ne_nil hl]
  exact List.cons_ne_nil _ _

theorem foldRight_peaks (l : List β) : foldRight f d (peaks f d l) = root f d l := by
  induction hn : l.length using Nat.strong_induction_on generalizing l with
  | _ n ih =>
    rcases eq_or_ne l [] with rfl | hne
    · simp [foldRight]
    have hlen : l.length ≠ 0 := by simpa using hne
    set L := Nat.log 2 l.length
    have hlow : 2 ^ L ≤ l.length := Nat.pow_log_le_self 2 hlen
    have hhigh : l.length < 2 ^ (L + 1) := Nat.lt_pow_succ_log_self (by norm_num) _
    rw [peaks_of_ne_nil hne]
    rcases hlow.lt_or_eq with hlt | heq
    · -- a list that is not a perfect tree: its first peak is the left root of its cut
      have hdrop : l.drop (2 ^ L) ≠ [] := by
        simpa [List.drop_eq_nil_iff] using hlt
      rw [foldRight_cons _ (peaks_ne_nil hdrop),
        ih _ (by rw [← hn, List.length_drop]; have := Nat.two_pow_pos L; omega) _ rfl,
        root_split hlt hhigh.le]
    · rw [heq, List.take_length, List.drop_length, peaks_nil, foldRight]

end Peaks

end Root

end MerkleList
