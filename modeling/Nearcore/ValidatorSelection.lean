import Nearcore.Primitives
import Mathlib.Algebra.Order.Floor.Semiring
import Mathlib.Algebra.Order.Field.Basic
import Mathlib.Data.Rat.Floor

/-!
# The seat price of `select_validators`

`select_validators` (`epoch-manager/src/validator_selection.rs`) pops the
proposals from a max-heap, largest stake first, and keeps each one whose stake
is more than `min_stake_ratio` of the total stake kept with it.  It returns the
kept proposals and a threshold stake: one more than the smallest kept stake
when every seat is filled, and otherwise, with `FixStakingThreshold`, the
ceiling of `r * T / (1 - r)` for the ratio `r` and the total kept stake `T`.

The heap is a list kept in heap order, so that popping takes its head and the
proposal put back goes back to the head.  Stakes (`u128`) are natural numbers
and `Ratio<u128>` a rational number; the overflows of `u128` are not modelled.

A stake `s` passes the ratio test after the kept proposals exactly when
`s > r * T / (1 - r)`, and every proposal left out has at most that stake
(`selectValidators_seatPrice`).  The ceiling is then the seat price only when
`r * T / (1 - r)` is not an integer: where it is one, a proposal of exactly the
threshold stake is left out (`selectValidators_threshold_not_exact`).
-/

namespace Nearcore.EpochManager

/-- `ValidatorStake`: an account, its key and its stake. -/
structure ValidatorStake where
  accountId : AccountId
  publicKey : PublicKey
  stake : ℕ
  deriving DecidableEq, Repr

/-- The order of `OrderedValidatorStake` in the max-heap: `v` pops before `w`
when its stake is larger, or equal with an account id that is not larger. -/
def popsBefore (v w : ValidatorStake) : Bool :=
  decide (w.stake < v.stake ∨ (w.stake = v.stake ∧ v.accountId ≤ w.accountId))

/-- `order_proposals`: the proposals in the order the heap pops them. -/
def orderProposals (proposals : List ValidatorStake) : List ValidatorStake :=
  proposals.mergeSort popsBefore

/-- The loop of `select_validators`: `n` turns, each popping the largest
proposal and keeping it while its stake is more than `minStakeRatio` of the
total with it; the first one that is not is put back and ends the loop.  The
kept proposals, their total stake and the heap left; `none` where
`Ratio::new` gets a zero denominator or `pop` an empty heap, both panics. -/
def selectLoop (minStakeRatio : ℚ) :
    ℕ → ℕ → List ValidatorStake → List ValidatorStake →
      Option (List ValidatorStake × ℕ × List ValidatorStake)
  | 0, totalStake, validators, proposals => some (validators, totalStake, proposals)
  | n + 1, totalStake, validators, proposals =>
      match proposals with
      | [] => none
      | p :: rest =>
          let totalStakeWithP := totalStake + p.stake
          if totalStakeWithP = 0 then none
          else if minStakeRatio < (p.stake : ℚ) / totalStakeWithP then
            selectLoop minStakeRatio n totalStakeWithP (validators ++ [p]) rest
          else
            -- `p` was not included: it goes back on the heap
            some (validators, totalStake, p :: rest)

/-- `select_validators`: the kept proposals and the threshold stake, with the
heap left; `none` where it panics. -/
def selectValidators (proposals : List ValidatorStake) (maxNumberSelected : ℕ)
    (minStakeRatio : ℚ) (fixStakingThreshold : Bool) :
    Option ((List ValidatorStake × ℕ) × List ValidatorStake) := do
  let n := min maxNumberSelected proposals.length
  let (validators, totalStake, proposals) ← selectLoop minStakeRatio n 0 [] proposals
  if validators.length = maxNumberSelected then
    -- every seat is filled: one more than the smallest stake kept
    let last ← validators.getLast?
    pure ((validators, last.stake + 1), proposals)
  else if fixStakingThreshold then
    -- `Ratio::from_integer(1) - min_stake_ratio` underflows or is a zero divisor
    if 1 ≤ minStakeRatio then none
    else pure ((validators, ⌈minStakeRatio * totalStake / (1 - minStakeRatio)⌉₊), proposals)
  else pure ((validators, ⌈minStakeRatio * totalStake⌉₊), proposals)

/-! ## The heap order -/

theorem popsBefore_trans (u v w : ValidatorStake) (huv : popsBefore u v) (hvw : popsBefore v w) :
    popsBefore u w := by
  simp only [popsBefore, decide_eq_true_eq] at huv hvw ⊢
  rcases huv with huv | ⟨huv, hau⟩ <;> rcases hvw with hvw | ⟨hvw, hav⟩
  · exact .inl (by omega)
  · exact .inl (by omega)
  · exact .inl (by omega)
  · exact .inr ⟨by omega, String.le_trans hau hav⟩

theorem popsBefore_total (v w : ValidatorStake) : popsBefore v w || popsBefore w v := by
  simp only [popsBefore, Bool.or_eq_true, decide_eq_true_eq]
  rcases lt_trichotomy v.stake w.stake with hlt | heq | hgt
  · exact .inr (.inl hlt)
  · rcases String.le_total v.accountId w.accountId with hle | hle
    · exact .inl (.inr ⟨heq.symm, hle⟩)
    · exact .inr (.inr ⟨heq, hle⟩)
  · exact .inl (.inl hgt)

theorem orderProposals_stake_antitone (proposals : List ValidatorStake) :
    (orderProposals proposals).Pairwise fun v w => w.stake ≤ v.stake := by
  apply (List.pairwise_mergeSort popsBefore_trans popsBefore_total proposals).imp
  intro v w hvw
  simp only [popsBefore, decide_eq_true_eq] at hvw
  omega

/-! ## The ratio test and the threshold -/

/-- A stake `s` added to the total `T` is more than the ratio `r < 1` of the
sum exactly when it is more than `r * T / (1 - r)`. -/
theorem ratioTest_iff {r : ℚ} (hr1 : r < 1) {totalStake s : ℕ} (hpos : 0 < totalStake + s) :
    r < (s : ℚ) / (totalStake + s) ↔ r * totalStake / (1 - r) < s := by
  have hsum : (0 : ℚ) < totalStake + s := by exact_mod_cast hpos
  have hrest : (0 : ℚ) < 1 - r := by linarith
  rw [lt_div_iff₀ hsum, div_lt_iff₀ hrest]
  constructor <;> intro h <;> nlinarith

section Loop

variable {r : ℚ}

/-- One run of the loop: it keeps a prefix of the heap, adding up its stakes,
and when it stops before its last turn the proposal it put back failed the
ratio test. -/
theorem selectLoop_spec {n totalStake totalStake' : ℕ}
    {validators proposals validators' proposals' : List ValidatorStake}
    (h : selectLoop r n totalStake validators proposals = some (validators', totalStake', proposals')) :
    ∃ chosen, validators' = validators ++ chosen ∧ proposals = chosen ++ proposals' ∧
      totalStake' = totalStake + (chosen.map (·.stake)).sum ∧ chosen.length ≤ n ∧
      (chosen.length < n → ∃ p rest, proposals' = p :: rest ∧ 0 < totalStake' + p.stake ∧
        ¬ r < (p.stake : ℚ) / (totalStake' + p.stake)) := by
  induction n generalizing totalStake validators proposals with
  | zero =>
      simp only [selectLoop, Option.some.injEq, Prod.mk.injEq] at h
      obtain ⟨rfl, rfl, rfl⟩ := h
      exact ⟨[], by simp, by simp, by simp, le_refl _, fun hlt => absurd hlt (Nat.lt_irrefl 0)⟩
  | succ n ih =>
      cases proposals with
      | nil => simp [selectLoop] at h
      | cons p rest =>
          simp only [selectLoop] at h
          split at h
          · cases h
          · next hpos =>
              split at h
              · -- `p` is kept: the rest of the run from the next turn
                obtain ⟨chosen, hval, hprop, htotal, hlen, hstop⟩ := ih h
                refine ⟨p :: chosen, by simp [hval], by simp [hprop], ?_, by simp; omega, ?_⟩
                · simp only [htotal, List.map_cons, List.sum_cons]
                  omega
                · intro hlt
                  exact hstop (by simp at hlt; omega)
              · next hfail =>
                  simp only [Option.some.injEq, Prod.mk.injEq] at h
                  obtain ⟨rfl, rfl, rfl⟩ := h
                  refine ⟨[], by simp, by simp, by simp, Nat.zero_le _, fun _ => ?_⟩
                  rw [Nat.cast_add] at hfail
                  exact ⟨p, rest, rfl, Nat.pos_of_ne_zero hpos, hfail⟩

end Loop

/-- The total stake of the kept proposals, `total_stake` once the loop ends. -/
def totalStake (validators : List ValidatorStake) : ℕ := (validators.map (·.stake)).sum

/-- The seat price of `select_validators` with `FixStakingThreshold`: the kept
proposals and the ones left make up all the proposals.  When every seat is
filled, every proposal left has less than the threshold.  Otherwise the ratio
is below `1`, the threshold is the ceiling of `q = r * T / (1 - r)` for the
total `T` kept, every proposal left has at most `q`, and a stake `s` added
after the kept ones passes the ratio test exactly when it exceeds `q`. -/
theorem selectValidators_seatPrice {proposals validators rest : List ValidatorStake}
    {maxNumberSelected threshold : ℕ} {r : ℚ}
    (h : selectValidators (orderProposals proposals) maxNumberSelected r true =
      some ((validators, threshold), rest)) :
    (validators ++ rest).Perm proposals ∧
      (validators.length = maxNumberSelected → ∀ p ∈ rest, p.stake < threshold) ∧
      (validators.length < maxNumberSelected →
        r < 1 ∧ threshold = ⌈r * totalStake validators / (1 - r)⌉₊ ∧
          (∀ p ∈ rest, (p.stake : ℚ) ≤ r * totalStake validators / (1 - r)) ∧
          ∀ s : ℕ, 0 < totalStake validators + s →
            (r < (s : ℚ) / (totalStake validators + s) ↔ r * totalStake validators / (1 - r) < s)) := by
  unfold selectValidators at h
  obtain ⟨⟨kept, total, heap⟩, hloop, h⟩ := Option.bind_eq_some_iff.mp h
  obtain ⟨chosen, hkept, hheap, htotal, hlen, hstop⟩ := selectLoop_spec hloop
  rw [List.nil_append] at hkept
  rw [Nat.zero_add] at htotal
  subst hkept htotal
  dsimp only at h
  have hsorted := orderProposals_stake_antitone proposals
  rw [hheap, List.pairwise_append] at hsorted
  have hperm : (kept ++ heap).Perm proposals := hheap ▸ List.mergeSort_perm proposals popsBefore
  split at h
  · next hfull =>
      obtain ⟨last, hlast, h⟩ := Option.bind_eq_some_iff.mp h
      simp only [pure, Option.some.injEq, Prod.mk.injEq] at h
      obtain ⟨⟨rfl, rfl⟩, rfl⟩ := h
      refine ⟨hperm, fun _ p hp => ?_, fun hlt => absurd hfull (Nat.ne_of_lt hlt)⟩
      have hle := hsorted.2.2 last (List.mem_of_getLast? hlast) p hp
      omega
  · next hpartial =>
      simp only [if_true] at h
      split at h
      · cases h
      · next hratio =>
          simp only [pure, Option.some.injEq, Prod.mk.injEq] at h
          obtain ⟨⟨rfl, rfl⟩, rfl⟩ := h
          have hr1 : r < 1 := not_le.mp hratio
          refine ⟨hperm, fun hfull => absurd hfull hpartial, fun _ => ⟨hr1, ?_, ?_, ?_⟩⟩
          · rfl
          · intro p hp
            rcases Nat.lt_or_ge kept.length (min maxNumberSelected (orderProposals proposals).length)
              with hshort | hdone
            · -- the loop stopped at a proposal that failed the test; the rest follow it
              obtain ⟨p₀, rest₀, rfl, hpos, hfail⟩ := hstop hshort
              rw [ratioTest_iff hr1 (by simpa [totalStake] using hpos), not_lt] at hfail
              have hp₀ : p.stake ≤ p₀.stake := by
                rcases List.mem_cons.mp hp with rfl | hp
                · exact le_refl _
                · exact List.rel_of_pairwise_cons hsorted.2.1 hp
              simp only [totalStake] at hfail ⊢
              calc (p.stake : ℚ) ≤ p₀.stake := by exact_mod_cast hp₀
                _ ≤ _ := hfail
            · -- the loop ran every turn: the seats were more than the proposals
              have hall : kept.length = (orderProposals proposals).length := by
                clear hstop
                omega
              rw [hheap, List.length_append] at hall
              rw [List.eq_nil_of_length_eq_zero (by omega : heap.length = 0)] at hp
              cases hp
          · intro s hpos
            exact ratioTest_iff hr1 hpos

/-- Two proposals of stake `10` for three seats at the ratio `1 / 2`: the first
is kept, the threshold is `r * T / (1 - r) = 10`, and the second, of stake
`10`, is left out, as a stake of `10` after the kept one fails the ratio test
although it is not below the threshold. -/
theorem selectValidators_threshold_not_exact :
    selectValidators (orderProposals [⟨"alice", .ed25519 (Vector.replicate 32 0), 10⟩,
        ⟨"bob", .ed25519 (Vector.replicate 32 0), 10⟩]) 3 (1 / 2) true =
      some (([⟨"alice", .ed25519 (Vector.replicate 32 0), 10⟩], 10),
        [⟨"bob", .ed25519 (Vector.replicate 32 0), 10⟩]) ∧
    ¬ (1 / 2 : ℚ) < ((10 : ℕ) : ℚ) / ((10 : ℕ) + (10 : ℕ)) := by
  have hordered : orderProposals [⟨"alice", .ed25519 (Vector.replicate 32 0), 10⟩,
      ⟨"bob", .ed25519 (Vector.replicate 32 0), 10⟩] =
      [⟨"alice", .ed25519 (Vector.replicate 32 0), 10⟩,
        ⟨"bob", .ed25519 (Vector.replicate 32 0), 10⟩] :=
    List.mergeSort_of_pairwise (by decide)
  rw [hordered]
  norm_num [selectValidators, selectLoop]

end Nearcore.EpochManager
