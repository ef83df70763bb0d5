import Mathlib.Tactic

/-!
# Checked, wrapping and saturating `u64` arithmetic

Rust's `u64` is `UInt64`, whose `+`, `-` and `*` wrap modulo `2 ^ 64` as
`wrapping_add`, `wrapping_sub` and `wrapping_mul` do.  The checked and
saturating forms of the standard library are defined here.  Each comes with
its specification on `toNat`, so that a goal about them becomes a goal of
linear arithmetic over `Nat` that `omega` closes.

Rust's `?` on a `Result` is the bind of `Except`: `bind_eq_ok` takes a chain
that succeeded apart, and `bind_ne_error` shows that a chain does not end in a
given error one call at a time.
-/

namespace UInt64

/-- `u64::MAX`. -/
def maxValue : UInt64 := UInt64.ofNat (2 ^ 64 - 1)

@[simp] theorem toNat_maxValue : maxValue.toNat = 2 ^ 64 - 1 := by
  simp [maxValue]

/-- `u64::checked_add`: the sum, unless it does not fit. -/
def checkedAdd (a b : UInt64) : Option UInt64 :=
  if a.toNat + b.toNat < 2 ^ 64 then some (a + b) else none

/-- `u64::checked_sub`: the difference, unless it is negative. -/
def checkedSub (a b : UInt64) : Option UInt64 :=
  if b ≤ a then some (a - b) else none

/-- `u64::checked_mul`: the product, unless it does not fit. -/
def checkedMul (a b : UInt64) : Option UInt64 :=
  if a.toNat * b.toNat < 2 ^ 64 then some (a * b) else none

/-- `u64::saturating_add`: the sum, clamped at `u64::MAX`. -/
def saturatingAdd (a b : UInt64) : UInt64 :=
  if a.toNat + b.toNat < 2 ^ 64 then a + b else maxValue

/-- `u64::saturating_sub`: the difference, clamped at zero. -/
def saturatingSub (a b : UInt64) : UInt64 :=
  if b ≤ a then a - b else 0

theorem checkedAdd_eq_some_iff {a b c : UInt64} :
    a.checkedAdd b = some c ↔
      a.toNat + b.toNat < 2 ^ 64 ∧ c.toNat = a.toNat + b.toNat := by
  unfold checkedAdd
  split
  · next hfit =>
      constructor
      · rintro ⟨⟩
        refine ⟨hfit, ?_⟩
        rw [UInt64.toNat_add, Nat.mod_eq_of_lt hfit]
      · rintro ⟨-, hc⟩
        congr 1
        apply UInt64.toNat_inj.mp
        rw [hc, UInt64.toNat_add, Nat.mod_eq_of_lt hfit]
  · next hfit =>
      simp only [reduceCtorEq, false_iff, not_and]
      intro hlt
      exact absurd hlt hfit

theorem checkedAdd_eq_none_iff {a b : UInt64} :
    a.checkedAdd b = none ↔ 2 ^ 64 ≤ a.toNat + b.toNat := by
  unfold checkedAdd
  split <;> simp <;> omega

theorem checkedSub_eq_some_iff {a b c : UInt64} :
    a.checkedSub b = some c ↔ b.toNat ≤ a.toNat ∧ c.toNat = a.toNat - b.toNat := by
  unfold checkedSub
  split
  · next hle =>
      have hle' : b.toNat ≤ a.toNat := UInt64.le_iff_toNat_le.mp hle
      constructor
      · rintro ⟨⟩
        exact ⟨hle', UInt64.toNat_sub_of_le a b hle⟩
      · rintro ⟨-, hc⟩
        congr 1
        apply UInt64.toNat_inj.mp
        rw [hc, UInt64.toNat_sub_of_le a b hle]
  · next hle =>
      have hlt : ¬ b.toNat ≤ a.toNat := fun h => hle (UInt64.le_iff_toNat_le.mpr h)
      simp [hlt]

theorem checkedSub_eq_none_iff {a b : UInt64} :
    a.checkedSub b = none ↔ a.toNat < b.toNat := by
  unfold checkedSub
  split
  · next hle =>
      have := UInt64.le_iff_toNat_le.mp hle
      simp only [reduceCtorEq, false_iff, not_lt]
      exact this
  · next hle =>
      have : ¬ b.toNat ≤ a.toNat := fun h => hle (UInt64.le_iff_toNat_le.mpr h)
      simp only [true_iff]
      omega

theorem checkedMul_eq_some_iff {a b c : UInt64} :
    a.checkedMul b = some c ↔
      a.toNat * b.toNat < 2 ^ 64 ∧ c.toNat = a.toNat * b.toNat := by
  unfold checkedMul
  split
  · next hfit =>
      constructor
      · rintro ⟨⟩
        refine ⟨hfit, ?_⟩
        rw [UInt64.toNat_mul, Nat.mod_eq_of_lt hfit]
      · rintro ⟨-, hc⟩
        congr 1
        apply UInt64.toNat_inj.mp
        rw [hc, UInt64.toNat_mul, Nat.mod_eq_of_lt hfit]
  · next hfit =>
      simp only [reduceCtorEq, false_iff, not_and]
      intro hlt
      exact absurd hlt hfit

@[simp] theorem toNat_saturatingAdd (a b : UInt64) :
    (a.saturatingAdd b).toNat = min (a.toNat + b.toNat) (2 ^ 64 - 1) := by
  unfold saturatingAdd
  split
  · next hfit =>
      rw [UInt64.toNat_add, Nat.mod_eq_of_lt hfit]
      omega
  · next hfit =>
      simp only [toNat_maxValue]
      omega

@[simp] theorem toNat_saturatingSub (a b : UInt64) :
    (a.saturatingSub b).toNat = a.toNat - b.toNat := by
  unfold saturatingSub
  split
  · next hle => exact UInt64.toNat_sub_of_le a b hle
  · next hle =>
      have : a.toNat < b.toNat := by
        have := mt UInt64.le_iff_toNat_le.mpr hle
        omega
      simp only [UInt64.toNat_zero]
      omega

/-- A left fold of `saturating_add` is the true sum, clamped once at the end. -/
theorem toNat_foldl_saturatingAdd (xs : List UInt64) (acc : UInt64) :
    (xs.foldl saturatingAdd acc).toNat =
      min (acc.toNat + (xs.map UInt64.toNat).sum) (2 ^ 64 - 1) := by
  induction xs generalizing acc with
  | nil =>
      have := UInt64.toNat_lt acc
      simp only [List.foldl_nil, List.map_nil, List.sum_nil, Nat.add_zero]
      omega
  | cons x xs ih =>
      simp only [List.foldl_cons, List.map_cons, List.sum_cons]
      rw [ih, toNat_saturatingAdd]
      omega

/-- `Iterator::sum` over `u64` in a build with overflow checks: it panics,
here `none`, when a partial sum does not fit. -/
def checkedSum (xs : List UInt64) : Option UInt64 := xs.foldlM checkedAdd 0

theorem foldlM_checkedAdd_eq_some_iff (xs : List UInt64) (acc s : UInt64) :
    xs.foldlM checkedAdd acc = some s ↔
      acc.toNat + (xs.map toNat).sum < 2 ^ 64 ∧ s.toNat = acc.toNat + (xs.map toNat).sum := by
  induction xs generalizing acc with
  | nil =>
      have hacc := UInt64.toNat_lt acc
      simp only [List.foldlM_nil, List.map_nil, List.sum_nil, Nat.add_zero, Option.pure_def,
        Option.some.injEq]
      constructor
      · rintro rfl
        exact ⟨hacc, rfl⟩
      · rintro ⟨-, hs⟩
        exact (UInt64.toNat_inj.mp hs).symm
  | cons x xs ih =>
      simp only [List.foldlM_cons, List.map_cons, List.sum_cons, Option.bind_eq_bind]
      cases hadd : acc.checkedAdd x with
      | none =>
          -- the partial sum already overflows, so the whole sum does
          have hover := checkedAdd_eq_none_iff.mp hadd
          simp only [Option.bind_none, reduceCtorEq, false_iff, not_and]
          intro hlt
          omega
      | some acc' =>
          obtain ⟨-, hacc'⟩ := checkedAdd_eq_some_iff.mp hadd
          simp only [Option.bind_some, ih, hacc']
          constructor
          · rintro ⟨hlt, hs⟩
            exact ⟨by omega, by omega⟩
          · rintro ⟨hlt, hs⟩
            exact ⟨by omega, by omega⟩

theorem checkedSum_eq_some_iff {xs : List UInt64} {s : UInt64} :
    checkedSum xs = some s ↔ (xs.map toNat).sum < 2 ^ 64 ∧ s.toNat = (xs.map toNat).sum := by
  unfold checkedSum
  simpa using foldlM_checkedAdd_eq_some_iff xs 0 s

end UInt64

/-! ## `u128` amounts as natural numbers -/

namespace U128

/-- `a + b` on `u128` with overflow checks: `none`, a panic, when it does not fit. -/
def checkedAdd (a b : ℕ) : Option ℕ := if a + b < 2 ^ 128 then some (a + b) else none

/-- `a - b` on `u128` with overflow checks: `none`, a panic, below zero. -/
def checkedSub (a b : ℕ) : Option ℕ := if b ≤ a then some (a - b) else none

/-- `a * b` on `u128` with overflow checks. -/
def checkedMul (a b : ℕ) : Option ℕ := if a * b < 2 ^ 128 then some (a * b) else none

/-- `Iterator::sum` over `u128` with overflow checks. -/
def checkedSum (xs : List ℕ) : Option ℕ := xs.foldlM checkedAdd 0

variable {a b : ℕ}

theorem checkedAdd_of_lt (h : a + b < 2 ^ 128) : checkedAdd a b = some (a + b) := by
  rw [checkedAdd, if_pos h]

theorem checkedSub_of_le (h : b ≤ a) : checkedSub a b = some (a - b) := by
  rw [checkedSub, if_pos h]

theorem checkedMul_of_lt (h : a * b < 2 ^ 128) : checkedMul a b = some (a * b) := by
  rw [checkedMul, if_pos h]

/-- A sum that fits is computed without a panic: every partial sum is below it. -/
theorem foldlM_checkedAdd_of_lt (xs : List ℕ) (acc : ℕ) (h : acc + xs.sum < 2 ^ 128) :
    xs.foldlM checkedAdd acc = some (acc + xs.sum) := by
  induction xs generalizing acc with
  | nil => rfl
  | cons x xs ih =>
    rw [List.sum_cons] at h
    rw [List.foldlM_cons, checkedAdd_of_lt (by omega), Option.bind_eq_bind, Option.bind_some,
      ih _ (by omega), List.sum_cons, Nat.add_assoc]

theorem checkedSum_of_lt {xs : List ℕ} (h : xs.sum < 2 ^ 128) : checkedSum xs = some xs.sum := by
  rw [checkedSum, foldlM_checkedAdd_of_lt xs 0 (by omega), Nat.zero_add]

end U128

/-! ## `usize` counters as natural numbers -/

namespace Usize

/-- `a - b` on `usize`; release builds check overflow, so `none`, a panic, below zero. -/
def sub (a b : ℕ) : Option ℕ := if b ≤ a then some (a - b) else none

theorem sub_of_le {a b : ℕ} (h : b ≤ a) : sub a b = some (a - b) := by
  rw [sub, if_pos h]

end Usize

/-! ## `i64` values as integers -/

namespace I64

/-- The range of `i64`. -/
def InRange (a : ℤ) : Prop := -2 ^ 63 ≤ a ∧ a < 2 ^ 63

instance (a : ℤ) : Decidable (InRange a) := inferInstanceAs (Decidable (_ ∧ _))

/-- `a + b` on `i64` with overflow checks: `none`, a panic, out of range. -/
def checkedAdd (a b : ℤ) : Option ℤ := if InRange (a + b) then some (a + b) else none

theorem checkedAdd_eq_some_iff {a b c : ℤ} :
    checkedAdd a b = some c ↔ InRange (a + b) ∧ c = a + b := by
  unfold checkedAdd
  split <;> simp_all [eq_comm]

theorem checkedAdd_of_inRange {a b : ℤ} (h : InRange (a + b)) : checkedAdd a b = some (a + b) := by
  rw [checkedAdd, if_pos h]

end I64

/-! ## `i32` values as integers -/

namespace I32

/-- The range of `i32`. -/
def InRange (a : ℤ) : Prop := -2 ^ 31 ≤ a ∧ a < 2 ^ 31

instance (a : ℤ) : Decidable (InRange a) := inferInstanceAs (Decidable (_ ∧ _))

theorem inRange_of_natAbs_lt {a : ℤ} (h : a.natAbs < 2 ^ 31) : InRange a := by
  unfold InRange
  omega

end I32

namespace Except

variable {ε α β : Type} {x : Except ε α} {f : α → Except ε β}

theorem bind_eq_ok {b : β} : x >>= f = .ok b ↔ ∃ a, x = .ok a ∧ f a = .ok b := by
  cases x with
  | error e => simp [bind, Except.bind]
  | ok a => simp [bind, Except.bind]

theorem bind_ne_error {e : ε} (hx : x ≠ .error e) (hf : ∀ a, x = .ok a → f a ≠ .error e) :
    x >>= f ≠ .error e := by
  cases x with
  | error e' =>
      intro h
      have he : e' = e := by simpa [bind, Except.bind] using h
      exact hx (by rw [he])
  | ok a => exact hf a rfl

end Except
