import Nearcore.RustArith
import Nearcore.LittleEndian
import Nearcore.ListFacts

/-!
# Sampling by an alias table

`WeightedIndex` (`core/primitives/src/rand.rs`) samples an index with
probability proportional to its weight, by Vose's alias method in integer
arithmetic.  `new` scales each weight by the number `n` of weights, so that the
odds average `weight_sum`, puts each index on a stack of `smalls` (odds below
`weight_sum`) or `bigs`, and then pairs a small index with a big one until a
stack runs out: the small one takes the big one as its alias, and the big one
gives up the odds the small one lacks.  The indices left on the stacks get
odds `weight_sum`.  `sample` draws a uniform index and a uniform weight below
`weight_sum`, and returns the index when the weight is below its odds, its
alias when not.

The table is exact (`new_exact`): of the `n * weight_sum` pairs of an index and
a weight, `n * w[j]` give `j`.  The pairing keeps the odds of the indices on
the stacks summing to `weight_sum` for each of them, and each index's odds
plus the odds that indices aliased to it give up summing to its scaled weight.
-/

namespace Nearcore.Rand

/-- `aliases::Aliases`: the alias of every index and the two stacks of
indices.  A `Vec` used as a stack is a list with its top at the head. -/
structure Aliases where
  aliases : List ℕ
  smalls : List ℕ
  bigs : List ℕ
  deriving Repr

namespace Aliases

def new (n : ℕ) : Aliases := ⟨List.replicate n 0, [], []⟩

def pushBig (self : Aliases) (b : ℕ) : Aliases := { self with bigs := b :: self.bigs }

/-- `pop_big`; `none` where `unwrap` panics on an empty stack. -/
def popBig (self : Aliases) : Option (ℕ × Aliases) :=
  match self.bigs with
  | [] => none
  | b :: bigs => some (b, { self with bigs })

def bigsIsEmpty (self : Aliases) : Bool := self.bigs.isEmpty

def pushSmall (self : Aliases) (s : ℕ) : Aliases := { self with smalls := s :: self.smalls }

/-- `pop_small`; `none` where `unwrap` panics on an empty stack. -/
def popSmall (self : Aliases) : Option (ℕ × Aliases) :=
  match self.smalls with
  | [] => none
  | s :: smalls => some (s, { self with smalls })

def smallsIsEmpty (self : Aliases) : Bool := self.smalls.isEmpty

/-- `set_alias`; `none` where the index is out of range. -/
def setAlias (self : Aliases) (index aliasIndex : ℕ) : Option Aliases :=
  if index < self.aliases.length then
    some { self with aliases := self.aliases.set index aliasIndex }
  else none

def getAliases (self : Aliases) : List ℕ := self.aliases

@[simp] theorem pushSmall_aliases (self : Aliases) (s : ℕ) :
    (self.pushSmall s).aliases = self.aliases := rfl

@[simp] theorem pushSmall_smalls (self : Aliases) (s : ℕ) :
    (self.pushSmall s).smalls = s :: self.smalls := rfl

@[simp] theorem pushSmall_bigs (self : Aliases) (s : ℕ) :
    (self.pushSmall s).bigs = self.bigs := rfl

@[simp] theorem pushBig_aliases (self : Aliases) (b : ℕ) :
    (self.pushBig b).aliases = self.aliases := rfl

@[simp] theorem pushBig_smalls (self : Aliases) (b : ℕ) :
    (self.pushBig b).smalls = self.smalls := rfl

@[simp] theorem pushBig_bigs (self : Aliases) (b : ℕ) :
    (self.pushBig b).bigs = b :: self.bigs := rfl

/-- The indices still on a stack. -/
def active (self : Aliases) : List ℕ := self.smalls ++ self.bigs

end Aliases

/-- `WeightedIndex`; balances are `u128`, natural numbers below `2 ^ 128`. -/
structure WeightedIndex where
  weightSum : ℕ
  aliases : List ℕ
  noAliasOdds : List ℕ
  deriving Repr, DecidableEq

namespace WeightedIndex

/-- The first loop of `new`: `weight_sum += *w; *w *= n` for each weight in
turn; `none` where a `Balance` overflows. -/
def scaleWeights (n : ℕ) : List ℕ → ℕ → Option (List ℕ × ℕ)
  | [], weightSum => some ([], weightSum)
  | w :: ws, weightSum => do
      let weightSum ← U128.checkedAdd weightSum w
      let odds ← U128.checkedMul w n
      let (rest, weightSum) ← scaleWeights n ws weightSum
      return (odds :: rest, weightSum)

/-- The body of the second loop: an index onto `smalls` or `bigs` by its odds. -/
def classifyIndex (weightSum : ℕ) (aliases : Aliases) : ℕ × ℕ → Aliases
  | (odds, index) => if odds < weightSum then aliases.pushSmall index else aliases.pushBig index

/-- The second loop, over the indices with their odds. -/
def classify (weightSum : ℕ) (noAliasOdds : List ℕ) (aliases : Aliases) : Aliases :=
  noAliasOdds.zipIdx.foldl (classifyIndex weightSum) aliases

/-- One turn of the loop that pairs a small index with a big one: the small
one takes the big one as its alias, and the big one gives up the odds the
small one lacks and goes back on the stack its new odds belong to.  `none`
where a stack is empty, an index is out of range or the `Balance` arithmetic
underflows or overflows. -/
def pairStep (weightSum : ℕ) (noAliasOdds : List ℕ) (aliases : Aliases) :
    Option (List ℕ × Aliases) := do
  let (s, aliases) ← aliases.popSmall
  let (b, aliases) ← aliases.popBig
  let aliases ← aliases.setAlias s b
  let oddsB ← noAliasOdds[b]?
  let oddsS ← noAliasOdds[s]?
  let odds ← U128.checkedAdd (← U128.checkedSub oddsB weightSum) oddsS
  let noAliasOdds := noAliasOdds.set b odds
  if odds < weightSum then return (noAliasOdds, aliases.pushSmall b)
  else return (noAliasOdds, aliases.pushBig b)

/-- The `while !smalls_is_empty() && !bigs_is_empty()` loop, on fuel; `none`
where a turn panics or the fuel runs out.  Every turn takes one index off the
stacks for good, so the `n` turns `new` gives it suffice. -/
def pairLoop (weightSum fuel : ℕ) (noAliasOdds : List ℕ) (aliases : Aliases) :
    Option (List ℕ × Aliases) :=
  if !aliases.smallsIsEmpty && !aliases.bigsIsEmpty then
    match fuel with
    | 0 => none
    | fuel + 1 =>
        (pairStep weightSum noAliasOdds aliases).bind fun (noAliasOdds, aliases) =>
          pairLoop weightSum fuel noAliasOdds aliases
  else some (noAliasOdds, aliases)

/-- The last two loops, over the stack of `smalls` and then that of `bigs`:
every index left gets odds `weight_sum`; `none` where an index is out of
range. -/
def drain (weightSum : ℕ) (stack noAliasOdds : List ℕ) : Option (List ℕ) :=
  stack.foldlM (fun noAliasOdds index =>
    if index < noAliasOdds.length then some (noAliasOdds.set index weightSum) else none)
    noAliasOdds

/-- `WeightedIndex::new`; `none` where it panics. -/
def new (weights : List ℕ) : Option WeightedIndex := do
  let n := weights.length
  let aliases := Aliases.new weights.length
  let (noAliasOdds, weightSum) ← scaleWeights n weights 0
  let aliases := classify weightSum noAliasOdds aliases
  let (noAliasOdds, aliases) ← pairLoop weightSum n noAliasOdds aliases
  let noAliasOdds ← drain weightSum aliases.smalls noAliasOdds
  let noAliasOdds ← drain weightSum aliases.bigs noAliasOdds
  return ⟨weightSum, aliases.getAliases, noAliasOdds⟩

/-- The index `sample` returns for a uniform index and a uniform weight: the
index itself below its odds, its alias from there on; `none` where an index is
out of range. -/
def choose (self : WeightedIndex) (uniformIndex uniformWeight : ℕ) : Option ℕ := do
  let odds ← self.noAliasOdds[uniformIndex]?
  if uniformWeight < odds then return uniformIndex else self.aliases[uniformIndex]?

/-- `sample`: the first 8 bytes of the seed, little-endian, give the uniform
index and the next 16 the uniform weight; `none` where `%` divides by zero or
an index is out of range. -/
def sample (self : WeightedIndex) (seed : Vector UInt8 32) : Option ℕ :=
  let usizeSeed := seed.toList.take 8
  let balanceSeed := (seed.toList.drop 8).take 16
  if self.aliases.length = 0 ∨ self.weightSum = 0 then none
  else
    self.choose (LittleEndian.decode usizeSeed % self.aliases.length)
      (LittleEndian.decode balanceSeed % self.weightSum)

/-- `test_should_correctly_compute_odds_and_aliases`, the example of the alias
method's usual presentation. -/
example : new [5, 8, 4, 10, 4, 4, 5] =
    some ⟨40, [1, 0, 3, 1, 3, 3, 3], [35, 40, 28, 29, 28, 28, 35]⟩ := by
  decide +kernel

/-! ## The loops of `new` -/

/-- Without overflow the first loop scales every weight by `n` and adds them up. -/
theorem scaleWeights_eq (n : ℕ) (ws : List ℕ) (acc : ℕ) (hsum : acc + ws.sum < 2 ^ 128)
    (hmul : ∀ w ∈ ws, w * n < 2 ^ 128) :
    scaleWeights n ws acc = some (ws.map (· * n), acc + ws.sum) := by
  induction ws generalizing acc with
  | nil => simp [scaleWeights]
  | cons w ws ih =>
      rw [List.sum_cons] at hsum
      have hrest := ih (acc + w) (by omega) fun v hv => hmul v (.tail _ hv)
      simp [scaleWeights, U128.checkedAdd_of_lt (show acc + w < 2 ^ 128 by omega),
        U128.checkedMul_of_lt (hmul w (.head _)), hrest, Nat.add_assoc]

/-- Weights whose scaled values fit a `u128` have a sum that fits too: `n` times the sum
is the sum of the scaled weights. -/
theorem sum_lt_of_forall_mul_lt {weights : List ℕ}
    (hbound : ∀ w ∈ weights, weights.length * w < 2 ^ 128) : weights.sum < 2 ^ 128 := by
  by_cases hne : weights = []
  · simp [hne]
  · have hlt := List.sum_map_lt_mul hne hbound
    have hmap : (weights.map (weights.length * ·)).sum = weights.length * weights.sum := by
      simpa using List.sum_map_mul_left (l := weights) (f := id) (r := weights.length)
    rw [hmap, mul_comm (2 ^ 128)] at hlt
    exact Nat.lt_of_mul_lt_mul_left hlt

/-- The second loop keeps the aliases and puts every index, once, on the stack its odds
belong to. -/
theorem foldl_classifyIndex (weightSum : ℕ) (ps : List (ℕ × ℕ)) (aliases : Aliases) :
    (ps.foldl (classifyIndex weightSum) aliases).aliases = aliases.aliases ∧
    (ps.foldl (classifyIndex weightSum) aliases).active.Perm (ps.map Prod.snd ++ aliases.active) ∧
    (∀ i ∈ (ps.foldl (classifyIndex weightSum) aliases).smalls,
      i ∈ aliases.smalls ∨ ∃ o, (o, i) ∈ ps ∧ o < weightSum) ∧
    (∀ i ∈ (ps.foldl (classifyIndex weightSum) aliases).bigs,
      i ∈ aliases.bigs ∨ ∃ o, (o, i) ∈ ps ∧ weightSum ≤ o) := by
  induction ps generalizing aliases with
  | nil => simp
  | cons p ps ih =>
      obtain ⟨o, i⟩ := p
      rw [List.foldl_cons]
      by_cases ho : o < weightSum
      · have hstep : classifyIndex weightSum aliases (o, i) = aliases.pushSmall i := if_pos ho
        obtain ⟨hal, hperm, hsmall, hbig⟩ := ih (aliases.pushSmall i)
        rw [hstep]
        simp only [Aliases.pushSmall_aliases, Aliases.pushSmall_smalls,
          Aliases.pushSmall_bigs] at hal hperm hsmall hbig
        refine ⟨hal, hperm.trans ?_, ?_, ?_⟩
        · simp [Aliases.active, List.perm_middle]
        · intro x hx
          rcases hsmall x hx with hx | ⟨o', hmem, ho'⟩
          · rcases List.mem_cons.mp hx with rfl | hx
            · exact .inr ⟨o, .head _, ho⟩
            · exact .inl hx
          · exact .inr ⟨o', .tail _ hmem, ho'⟩
        · intro x hx
          rcases hbig x hx with hx | ⟨o', hmem, ho'⟩
          · exact .inl hx
          · exact .inr ⟨o', .tail _ hmem, ho'⟩
      · have hstep : classifyIndex weightSum aliases (o, i) = aliases.pushBig i := if_neg ho
        obtain ⟨hal, hperm, hsmall, hbig⟩ := ih (aliases.pushBig i)
        rw [hstep]
        simp only [Aliases.pushBig_aliases, Aliases.pushBig_smalls,
          Aliases.pushBig_bigs] at hal hperm hsmall hbig
        refine ⟨hal, hperm.trans ?_, ?_, ?_⟩
        · simp only [Aliases.active, Aliases.pushBig_smalls, Aliases.pushBig_bigs, List.map_cons,
            List.cons_append]
          exact (List.perm_middle.append_left _).trans List.perm_middle
        · intro x hx
          rcases hsmall x hx with hx | ⟨o', hmem, ho'⟩
          · exact .inl hx
          · exact .inr ⟨o', .tail _ hmem, ho'⟩
        · intro x hx
          rcases hbig x hx with hx | ⟨o', hmem, ho'⟩
          · rcases List.mem_cons.mp hx with rfl | hx
            · exact .inr ⟨o, .head _, Nat.le_of_not_lt ho⟩
            · exact .inl hx
          · exact .inr ⟨o', .tail _ hmem, ho'⟩

/-- A turn with both stacks non-empty, its indices in range and no overflow: `s` takes `b`
as its alias, and `b` goes back on the stack its new odds belong to. -/
theorem pairStep_eq {weightSum : ℕ} {noAliasOdds aliasList smalls bigs : List ℕ} {s b : ℕ}
    (hs : s < aliasList.length) (hsOdds : s < noAliasOdds.length) (hb : b < noAliasOdds.length)
    (hW : weightSum ≤ noAliasOdds.getD b 0)
    (hlt : noAliasOdds.getD b 0 - weightSum + noAliasOdds.getD s 0 < 2 ^ 128) :
    pairStep weightSum noAliasOdds ⟨aliasList, s :: smalls, b :: bigs⟩ =
      some (noAliasOdds.set b (noAliasOdds.getD b 0 - weightSum + noAliasOdds.getD s 0),
        if noAliasOdds.getD b 0 - weightSum + noAliasOdds.getD s 0 < weightSum then
          ⟨aliasList.set s b, b :: smalls, bigs⟩
        else ⟨aliasList.set s b, smalls, b :: bigs⟩) := by
  have hgetB : noAliasOdds[b]? = some (noAliasOdds.getD b 0) := by
    simp [List.getD_eq_getElem?_getD, hb]
  have hgetS : noAliasOdds[s]? = some (noAliasOdds.getD s 0) := by
    simp [List.getD_eq_getElem?_getD, hsOdds]
  simp only [pairStep, Aliases.popSmall, Aliases.popBig, Aliases.setAlias, hs, if_true, hgetB,
    hgetS, U128.checkedSub_of_le hW, U128.checkedAdd_of_lt hlt, Option.bind_eq_bind,
    Option.bind_some]
  split_ifs <;> rfl

/-! ## What the pairing loop keeps -/

/-- The odds that the indices below `n` already off the stacks leave to `j`, their alias:
`weight_sum` less their own odds. -/
def retiredMass (weightSum n : ℕ) (noAliasOdds : List ℕ) (aliases : Aliases) (j : ℕ) : ℕ :=
  ((List.range n).map fun i =>
    if i ∉ aliases.active ∧ aliases.aliases.getD i 0 = j then weightSum - noAliasOdds.getD i 0
    else 0).sum

/-- What every turn of the pairing loop keeps, for the scaled weights `odds₀`: the indices on
the stacks are distinct and in range, each on the stack its odds belong to, and their odds
average `weight_sum`; an index off the stacks has odds below `weight_sum`; aliases are in
range; and each index's odds, with what the indices aliased to it leave it, make up its
scaled weight. -/
structure PairInvariant (weightSum : ℕ) (odds₀ noAliasOdds : List ℕ) (aliases : Aliases) :
    Prop where
  length_odds : noAliasOdds.length = odds₀.length
  length_aliases : aliases.aliases.length = odds₀.length
  nodup : aliases.active.Nodup
  lt_of_mem : ∀ i ∈ aliases.active, i < odds₀.length
  small : ∀ i ∈ aliases.smalls, noAliasOdds.getD i 0 < weightSum
  big : ∀ i ∈ aliases.bigs, weightSum ≤ noAliasOdds.getD i 0 ∧ noAliasOdds.getD i 0 < 2 ^ 128
  retired : ∀ i < odds₀.length, i ∉ aliases.active → noAliasOdds.getD i 0 < weightSum
  alias_lt : ∀ i < odds₀.length, aliases.aliases.getD i 0 < odds₀.length
  sum_active : (aliases.active.map (noAliasOdds.getD · 0)).sum = weightSum * aliases.active.length
  mass : ∀ j < odds₀.length,
    noAliasOdds.getD j 0 + retiredMass weightSum odds₀.length noAliasOdds aliases j =
      odds₀.getD j 0

section Turn

variable {weightSum v : ℕ} {odds₀ noAliasOdds aliasList smalls bigs : List ℕ} {s b : ℕ}
  {aliases' : Aliases}

/-- What a turn reads off the invariant: `s` and `b` are in range and nowhere else on the
stacks, `s` has odds below `weight_sum` and `b` at least that. -/
theorem PairInvariant.turn_facts
    (h : PairInvariant weightSum odds₀ noAliasOdds ⟨aliasList, s :: smalls, b :: bigs⟩) :
    s ∉ smalls ++ b :: bigs ∧ b ∉ smalls ++ bigs ∧ (smalls ++ bigs).Nodup ∧
      s < odds₀.length ∧ b < odds₀.length ∧ noAliasOdds.getD s 0 < weightSum ∧
      weightSum ≤ noAliasOdds.getD b 0 ∧ noAliasOdds.getD b 0 < 2 ^ 128 := by
  obtain ⟨hsnot, hrest⟩ := List.nodup_cons.mp h.nodup
  obtain ⟨hbnot, hnd⟩ := List.nodup_cons.mp (List.perm_middle.nodup_iff.mp hrest)
  exact ⟨hsnot, hbnot, hnd, h.lt_of_mem s (by simp [Aliases.active]),
    h.lt_of_mem b (by simp [Aliases.active]), h.small s (.head _), h.big b (.head _)⟩

/-- After a turn, `s` is off the stacks with alias `b`: it leaves `b` what its odds lack of
`weight_sum`, and nothing else changes hands. -/
theorem PairInvariant.retiredMass_turn
    (h : PairInvariant weightSum odds₀ noAliasOdds ⟨aliasList, s :: smalls, b :: bigs⟩)
    (haliases : aliases'.aliases = aliasList.set s b)
    (hperm : aliases'.active.Perm (b :: (smalls ++ bigs))) (j : ℕ) :
    retiredMass weightSum odds₀.length (noAliasOdds.set b v) aliases' j =
      retiredMass weightSum odds₀.length noAliasOdds ⟨aliasList, s :: smalls, b :: bigs⟩ j +
        if b = j then weightSum - noAliasOdds.getD s 0 else 0 := by
  obtain ⟨hsnot, hbnot, -, hsS, -, -, -, -⟩ := h.turn_facts
  have hsb : s ≠ b := fun e => hsnot (by simp [e])
  have hbLen : b < noAliasOdds.length := h.length_odds ▸ h.lt_of_mem b (by simp [Aliases.active])
  have hsLen : s < aliasList.length := h.length_aliases ▸ hsS
  have hmem : ∀ i, i ∈ aliases'.active ↔ i = b ∨ i ∈ smalls ∨ i ∈ bigs := by
    intro i
    simp [hperm.mem_iff]
  -- the new terms are the old ones but at `s`, which has just left the stacks
  have hpoint : (fun i => if i ∉ aliases'.active ∧ aliases'.aliases.getD i 0 = j then
        weightSum - (noAliasOdds.set b v).getD i 0 else 0) =
      Function.update (fun i => if i ∉ (⟨aliasList, s :: smalls, b :: bigs⟩ : Aliases).active ∧
        aliasList.getD i 0 = j then weightSum - noAliasOdds.getD i 0 else 0) s
        (if b = j then weightSum - noAliasOdds.getD s 0 else 0) := by
    funext i
    rw [haliases, List.getD_set_of_lt hbLen, List.getD_set_of_lt hsLen]
    by_cases his : i = s
    · subst his
      have hs' : i ∉ aliases'.active := by
        rw [hmem]
        simpa [hsb] using hsnot
      simp [hs', hsb]
    · have hiff : i ∈ aliases'.active ↔
          i ∈ (⟨aliasList, s :: smalls, b :: bigs⟩ : Aliases).active := by
        rw [hmem]
        simp only [Aliases.active, List.mem_append, List.mem_cons, his, false_or]
        tauto
      rw [Function.update_of_ne his]
      simp only [hiff, if_neg his]
      by_cases hib : i = b
      · have hb : i ∈ (⟨aliasList, s :: smalls, b :: bigs⟩ : Aliases).active := by
          simp [Aliases.active, hib]
        simp [hb]
      · simp only [if_neg hib]
  have hsum := List.sum_map_update_of_nodup (List.range odds₀.length) List.nodup_range
    (fun i => if i ∉ (⟨aliasList, s :: smalls, b :: bigs⟩ : Aliases).active ∧
      aliasList.getD i 0 = j then weightSum - noAliasOdds.getD i 0 else 0) s
    (if b = j then weightSum - noAliasOdds.getD s 0 else 0)
  have hTs : (if s ∉ (⟨aliasList, s :: smalls, b :: bigs⟩ : Aliases).active ∧
      aliasList.getD s 0 = j then weightSum - noAliasOdds.getD s 0 else 0) = 0 := by
    simp [Aliases.active]
  rw [if_pos (List.mem_range.mpr hsS), if_pos (List.mem_range.mpr hsS), hTs, add_zero] at hsum
  unfold retiredMass
  rw [hpoint]
  exact hsum

/-- A turn keeps the invariant: `s` leaves the stacks with alias `b`, and `b`, with odds `v`,
goes back on the stack they belong to. -/
theorem PairInvariant.turn
    (h : PairInvariant weightSum odds₀ noAliasOdds ⟨aliasList, s :: smalls, b :: bigs⟩)
    (hv : v = noAliasOdds.getD b 0 - weightSum + noAliasOdds.getD s 0)
    (haliases : aliases'.aliases = aliasList.set s b)
    (hperm : aliases'.active.Perm (b :: (smalls ++ bigs)))
    (hsmall : ∀ i ∈ aliases'.smalls, i ∈ smalls ∨ i = b ∧ v < weightSum)
    (hbig : ∀ i ∈ aliases'.bigs, i ∈ bigs ∨ i = b ∧ weightSum ≤ v) :
    PairInvariant weightSum odds₀ (noAliasOdds.set b v) aliases' := by
  obtain ⟨hsnot, hbnot, hnd, hsS, hbS, hsW, hbW, hb128⟩ := h.turn_facts
  have hsb : s ≠ b := fun e => hsnot (by simp [e])
  have hbLen : b < noAliasOdds.length := h.length_odds ▸ hbS
  have hsLen : s < aliasList.length := h.length_aliases ▸ hsS
  have hget : ∀ i, (noAliasOdds.set b v).getD i 0 = if i = b then v else noAliasOdds.getD i 0 :=
    fun i => List.getD_set_of_lt hbLen v i 0
  have hmem : ∀ i, i ∈ aliases'.active ↔ i = b ∨ i ∈ smalls ∨ i ∈ bigs := by
    intro i
    simp [hperm.mem_iff]
  have hold : ∀ i, i ∈ smalls ∨ i ∈ bigs →
      i ∈ (⟨aliasList, s :: smalls, b :: bigs⟩ : Aliases).active := by
    intro i hi
    simp only [Aliases.active, List.mem_append, List.mem_cons]
    tauto
  have hneb : ∀ i, i ∈ smalls ∨ i ∈ bigs → i ≠ b := by
    rintro i hi rfl
    exact hbnot (List.mem_append.mpr hi)
  refine ⟨by simp [h.length_odds], by simp [haliases, h.length_aliases],
    hperm.nodup_iff.mpr (List.nodup_cons.mpr ⟨hbnot, hnd⟩), ?lt_of_mem, ?small, ?big, ?retired,
    ?alias_lt, ?sum_active, ?mass⟩
  case lt_of_mem =>
    intro i hi
    rcases (hmem i).mp hi with rfl | hi
    · exact hbS
    · exact h.lt_of_mem i (hold i hi)
  case small =>
    intro i hi
    rcases hsmall i hi with hi | ⟨rfl, hvW⟩
    · rw [hget, if_neg (hneb i (.inl hi))]
      exact h.small i (.tail _ hi)
    · rw [hget, if_pos rfl]
      exact hvW
  case big =>
    intro i hi
    rcases hbig i hi with hi | ⟨rfl, hvW⟩
    · rw [hget, if_neg (hneb i (.inr hi))]
      exact h.big i (.tail _ hi)
    · rw [hget, if_pos rfl]
      exact ⟨hvW, by omega⟩
  case retired =>
    intro i hi hnot
    rw [hmem] at hnot
    have hib : i ≠ b := fun e => hnot (.inl e)
    rw [hget, if_neg hib]
    by_cases his : i = s
    · exact his ▸ hsW
    · refine h.retired i hi ?_
      simp only [Aliases.active, List.mem_append, List.mem_cons, his, hib, false_or]
      tauto
  case alias_lt =>
    intro i hi
    rw [haliases, List.getD_set_of_lt hsLen]
    split
    · exact hbS
    · exact h.alias_lt i hi
  case sum_active =>
    have hrest : ((smalls ++ bigs).map ((noAliasOdds.set b v).getD · 0)).sum =
        ((smalls ++ bigs).map (noAliasOdds.getD · 0)).sum := by
      congr 1
      apply List.map_congr_left
      intro i hi
      rw [hget, if_neg (hneb i (List.mem_append.mp hi))]
    have hold := h.sum_active
    simp only [Aliases.active, List.cons_append, List.map_cons, List.sum_cons,
      (List.perm_middle.map _).sum_eq, List.length_cons, List.length_append] at hold
    rw [(hperm.map _).sum_eq, hperm.length_eq, List.map_cons, List.sum_cons, hget, if_pos rfl,
      hrest, List.length_cons, List.length_append]
    have hmul : weightSum * (smalls.length + (bigs.length + 1) + 1) =
        weightSum * (smalls.length + bigs.length + 1) + weightSum := by ring
    omega
  case mass =>
    intro j hj
    have hj0 := h.mass j hj
    rw [h.retiredMass_turn haliases hperm j, hget]
    split_ifs with hjb hbj hbj
    · subst hjb
      omega
    · exact absurd hjb.symm hbj
    · exact absurd hbj.symm hjb
    · omega

end Turn

section Loop

variable {weightSum fuel : ℕ} {odds₀ noAliasOdds : List ℕ} {aliases : Aliases}

/-- A turn under the invariant does not panic, keeps the invariant and takes one index off
the stacks for good. -/
theorem PairInvariant.pairStep (h : PairInvariant weightSum odds₀ noAliasOdds aliases)
    (hsmalls : aliases.smalls ≠ []) (hbigs : aliases.bigs ≠ []) :
    ∃ noAliasOdds' aliases', pairStep weightSum noAliasOdds aliases =
      some (noAliasOdds', aliases') ∧ PairInvariant weightSum odds₀ noAliasOdds' aliases' ∧
      aliases'.active.length + 1 = aliases.active.length := by
  rcases aliases with ⟨aliasList, _ | ⟨s, smalls⟩, _ | ⟨b, bigs⟩⟩
  · exact absurd rfl hsmalls
  · exact absurd rfl hsmalls
  · exact absurd rfl hbigs
  · obtain ⟨-, -, -, hsS, hbS, hsW, hbW, hb128⟩ := h.turn_facts
    rw [pairStep_eq (h.length_aliases ▸ hsS) (h.length_odds ▸ hsS) (h.length_odds ▸ hbS) hbW
      (by omega)]
    refine ⟨_, _, rfl, ?_, ?_⟩
    · split_ifs with hv
      · -- `b` is small now
        refine h.turn rfl rfl (List.Perm.refl _) ?_ fun i hi => .inl hi
        intro i hi
        rcases List.mem_cons.mp hi with rfl | hi
        · exact .inr ⟨rfl, hv⟩
        · exact .inl hi
      · -- `b` stays big
        refine h.turn rfl rfl List.perm_middle (fun i hi => .inl hi) ?_
        intro i hi
        rcases List.mem_cons.mp hi with rfl | hi
        · exact .inr ⟨rfl, Nat.le_of_not_lt hv⟩
        · exact .inl hi
    · split_ifs
      · simp [Aliases.active]
        omega
      · simp [Aliases.active]

/-- The pairing loop stops once a stack is empty. -/
theorem pairLoop_of_exit (hexit : aliases.smalls = [] ∨ aliases.bigs = []) :
    pairLoop weightSum fuel noAliasOdds aliases = some (noAliasOdds, aliases) := by
  unfold pairLoop
  rw [if_neg]
  rcases hexit with h | h <;> simp [Aliases.smallsIsEmpty, Aliases.bigsIsEmpty, h]

/-- While both stacks hold an index, the pairing loop takes a turn. -/
theorem pairLoop_succ (hsmalls : aliases.smalls ≠ []) (hbigs : aliases.bigs ≠ []) :
    pairLoop weightSum (fuel + 1) noAliasOdds aliases =
      (pairStep weightSum noAliasOdds aliases).bind fun (noAliasOdds, aliases) =>
        pairLoop weightSum fuel noAliasOdds aliases := by
  rw [pairLoop, if_pos]
  simp [Aliases.smallsIsEmpty, Aliases.bigsIsEmpty, hsmalls, hbigs]

/-- Under the invariant, with fuel for every index on the stacks, the pairing loop ends without
panicking, keeps the invariant and leaves a stack empty. -/
theorem PairInvariant.pairLoop (h : PairInvariant weightSum odds₀ noAliasOdds aliases)
    (hfuel : aliases.active.length ≤ fuel) :
    ∃ noAliasOdds' aliases', pairLoop weightSum fuel noAliasOdds aliases =
      some (noAliasOdds', aliases') ∧ PairInvariant weightSum odds₀ noAliasOdds' aliases' ∧
      (aliases'.smalls = [] ∨ aliases'.bigs = []) := by
  -- induction on the fuel: each turn takes an index off the stacks
  induction fuel generalizing noAliasOdds aliases with
  | zero =>
      have hnil : aliases.smalls = [] ∧ aliases.bigs = [] := by
        simpa [Aliases.active] using hfuel
      exact ⟨_, _, pairLoop_of_exit (.inl hnil.1), h, .inl hnil.1⟩
  | succ fuel ih =>
      by_cases hboth : aliases.smalls ≠ [] ∧ aliases.bigs ≠ []
      · obtain ⟨noAliasOdds', aliases', hstep, h', hlen⟩ := h.pairStep hboth.1 hboth.2
        rw [pairLoop_succ hboth.1 hboth.2, hstep, Option.bind_some]
        exact ih h' (by omega)
      · have hexit : aliases.smalls = [] ∨ aliases.bigs = [] := by tauto
        exact ⟨_, _, pairLoop_of_exit hexit, h, hexit⟩

/-- When the loop stops, the small stack is the empty one: the odds on the stacks average
`weight_sum`, and small odds alone fall short of it. -/
theorem PairInvariant.smalls_eq_nil (h : PairInvariant weightSum odds₀ noAliasOdds aliases)
    (hexit : aliases.smalls = [] ∨ aliases.bigs = []) : aliases.smalls = [] := by
  rcases hexit with hexit | hbigs
  · exact hexit
  · by_contra hne
    have hlt := List.sum_map_lt_mul hne h.small
    have hsum := h.sum_active
    simp only [Aliases.active, hbigs, List.append_nil] at hsum
    omega

/-- With the small stack empty, every index left on the big one has odds `weight_sum`. -/
theorem PairInvariant.getD_eq_of_mem_bigs (h : PairInvariant weightSum odds₀ noAliasOdds aliases)
    (hsmalls : aliases.smalls = []) : ∀ i ∈ aliases.bigs, noAliasOdds.getD i 0 = weightSum := by
  have hsum := h.sum_active
  simp only [Aliases.active, hsmalls, List.nil_append] at hsum
  exact List.forall_eq_of_sum_map_eq_mul (fun i hi => (h.big i hi).1) hsum

end Loop

theorem PairInvariant.length_active_le {weightSum : ℕ} {odds₀ noAliasOdds : List ℕ}
    {aliases : Aliases} (h : PairInvariant weightSum odds₀ noAliasOdds aliases) :
    aliases.active.length ≤ odds₀.length := by
  have hsub : aliases.active.Subperm (List.range odds₀.length) :=
    h.nodup.subperm fun i hi => List.mem_range.mpr (h.lt_of_mem i hi)
  simpa using hsub.length_le

/-- After the first two loops the invariant holds: every index is on the stack its scaled
weight belongs to, the scaled weights average `weight_sum`, and nothing is aliased yet. -/
theorem pairInvariant_classify {weightSum : ℕ} {odds₀ : List ℕ}
    (hsum : odds₀.sum = weightSum * odds₀.length) (hbound : ∀ o ∈ odds₀, o < 2 ^ 128) :
    PairInvariant weightSum odds₀ odds₀ (classify weightSum odds₀ (Aliases.new odds₀.length)) := by
  unfold classify
  obtain ⟨hal, hperm, hsmall, hbig⟩ :=
    foldl_classifyIndex weightSum odds₀.zipIdx (Aliases.new odds₀.length)
  set aliases := odds₀.zipIdx.foldl (classifyIndex weightSum) (Aliases.new odds₀.length)
  have hrange : aliases.active.Perm (List.range odds₀.length) := by
    simpa [Aliases.new, Aliases.active, List.range_eq_range'] using hperm
  have hmem : ∀ i, i ∈ aliases.active ↔ i < odds₀.length := by
    intro i
    rw [hrange.mem_iff, List.mem_range]
  have hodds : ∀ o i, (o, i) ∈ odds₀.zipIdx → odds₀.getD i 0 = o ∧ o ∈ odds₀ := by
    intro o i hoi
    have hget := List.mk_mem_zipIdx_iff_getElem?.mp hoi
    exact ⟨by simp [List.getD_eq_getElem?_getD, hget], List.mem_of_getElem? hget⟩
  refine ⟨rfl, by simp [hal, Aliases.new], hrange.nodup_iff.mpr List.nodup_range,
    fun i hi => (hmem i).mp hi, ?small, ?big, ?retired, ?alias_lt, ?sum_active, ?mass⟩
  case small =>
    intro i hi
    rcases hsmall i hi with hi | ⟨o, hoi, ho⟩
    · simp [Aliases.new] at hi
    · exact (hodds o i hoi).1 ▸ ho
  case big =>
    intro i hi
    rcases hbig i hi with hi | ⟨o, hoi, ho⟩
    · simp [Aliases.new] at hi
    · obtain ⟨hget, hmemo⟩ := hodds o i hoi
      exact hget ▸ ⟨ho, hbound o hmemo⟩
  case retired =>
    intro i hi hnot
    exact absurd ((hmem i).mpr hi) hnot
  case alias_lt =>
    intro i hi
    simp [hal, Aliases.new, List.getD_eq_getElem?_getD, hi]
    omega
  case sum_active =>
    rw [(hrange.map _).sum_eq, hrange.length_eq, List.length_range, List.map_getD_range, hsum]
  case mass =>
    intro j _
    have hzero : retiredMass weightSum odds₀.length odds₀ aliases j = 0 := by
      unfold retiredMass
      apply List.sum_eq_zero
      intro x hx
      obtain ⟨i, hi, rfl⟩ := List.mem_map.mp hx
      simp [(hmem i).mpr (List.mem_range.mp hi)]
    rw [hzero, add_zero]

/-- The last two loops change nothing when every index left already has odds
`weight_sum`. -/
theorem drain_of_forall {weightSum : ℕ} (stack noAliasOdds : List ℕ)
    (h : ∀ i ∈ stack, i < noAliasOdds.length ∧ noAliasOdds.getD i 0 = weightSum) :
    drain weightSum stack noAliasOdds = some noAliasOdds := by
  induction stack with
  | nil => rfl
  | cons i stack ih =>
      obtain ⟨hi, hodds⟩ := h i (.head _)
      have hset : noAliasOdds.set i weightSum = noAliasOdds := by
        have hget : noAliasOdds[i] = weightSum := by
          simpa [List.getD_eq_getElem?_getD, List.getElem?_eq_getElem hi] using hodds
        rw [← hget, List.set_getElem_self]
      simp only [drain, List.foldlM_cons, if_pos hi, hset, Option.bind_eq_bind, Option.bind_some]
      exact ih fun j hj => h j (.tail _ hj)

/-! ## The table is exact -/

/-- How many of the pairs of an index below `n` and a weight below `weight_sum` `choose`
maps to `j`: with both uniform, `sample` returns `j` with this count over
`n * weight_sum`. -/
def hits (self : WeightedIndex) (j : ℕ) : ℕ :=
  ((List.range self.aliases.length).flatMap fun i =>
    (List.range self.weightSum).map (self.choose i)).count (some j)

/-- `choose` at an index in range: the index itself below its odds, its alias from there
on. -/
theorem choose_eq (self : WeightedIndex) {i : ℕ} (hodds : i < self.noAliasOdds.length)
    (haliases : i < self.aliases.length) (u : ℕ) :
    self.choose i u =
      some (if u < self.noAliasOdds.getD i 0 then i else self.aliases.getD i 0) := by
  simp only [choose, List.getD_eq_getElem?_getD, List.getElem?_eq_getElem hodds,
    List.getElem?_eq_getElem haliases, Option.getD_some, Option.bind_eq_bind, Option.bind_some]
  split_ifs <;> rfl

/-- Of the weights below `weight_sum`, an index gives `j` those below its odds if it is `j`
itself, and the rest if its alias is `j`. -/
theorem count_choose (self : WeightedIndex) {i : ℕ} (hodds : i < self.noAliasOdds.length)
    (haliases : i < self.aliases.length) (hle : self.noAliasOdds.getD i 0 ≤ self.weightSum)
    (j : ℕ) :
    ((List.range self.weightSum).map (self.choose i)).count (some j) =
      (if i = j then self.noAliasOdds.getD i 0 else 0) +
        if self.aliases.getD i 0 = j then self.weightSum - self.noAliasOdds.getD i 0 else 0 := by
  obtain ⟨rest, hrest⟩ : ∃ rest, self.weightSum = self.noAliasOdds.getD i 0 + rest :=
    ⟨_, (Nat.add_sub_cancel' hle).symm⟩
  have hbelow : (List.range (self.noAliasOdds.getD i 0)).map (self.choose i) =
      List.replicate (self.noAliasOdds.getD i 0) (some i) := by
    rw [List.eq_replicate_iff]
    refine ⟨by simp, fun x hx => ?_⟩
    obtain ⟨u, hu, rfl⟩ := List.mem_map.mp hx
    rw [choose_eq self hodds haliases, if_pos (List.mem_range.mp hu)]
  have habove : ((List.range rest).map (self.noAliasOdds.getD i 0 + ·)).map (self.choose i) =
      List.replicate rest (some (self.aliases.getD i 0)) := by
    rw [List.eq_replicate_iff]
    refine ⟨by simp, fun x hx => ?_⟩
    obtain ⟨y, hy, rfl⟩ := List.mem_map.mp hx
    obtain ⟨u, -, rfl⟩ := List.mem_map.mp hy
    rw [choose_eq self hodds haliases, if_neg (by omega)]
  rw [hrest, List.range_add, List.map_append, hbelow, habove, List.count_append,
    List.count_replicate, List.count_replicate, Nat.add_sub_cancel_left]
  simp

/-- Summing `count_choose` over the indices. -/
theorem hits_eq (self : WeightedIndex) (hlen : self.noAliasOdds.length = self.aliases.length)
    (hle : ∀ i < self.aliases.length, self.noAliasOdds.getD i 0 ≤ self.weightSum) (j : ℕ) :
    self.hits j = ((List.range self.aliases.length).map fun i =>
      (if i = j then self.noAliasOdds.getD i 0 else 0) +
        if self.aliases.getD i 0 = j then self.weightSum - self.noAliasOdds.getD i 0
        else 0).sum := by
  unfold hits
  rw [List.count_flatMap]
  congr 1
  apply List.map_congr_left
  intro i hi
  have hi := List.mem_range.mp hi
  exact count_choose self (hlen ▸ hi) hi (hle i hi) j

/-- Once every index on the stacks has odds `weight_sum`, the indices on the stacks leave
their alias nothing, so what the retired ones leave `j` is what all of them do. -/
theorem retiredMass_eq_of_forall {weightSum n : ℕ} {noAliasOdds : List ℕ} {aliases : Aliases}
    (hfull : ∀ i ∈ aliases.active, noAliasOdds.getD i 0 = weightSum) (j : ℕ) :
    retiredMass weightSum n noAliasOdds aliases j = ((List.range n).map fun i =>
      if aliases.aliases.getD i 0 = j then weightSum - noAliasOdds.getD i 0 else 0).sum := by
  unfold retiredMass
  congr 1
  apply List.map_congr_left
  intro i _
  by_cases hi : i ∈ aliases.active
  · rw [hfull i hi]
    simp [hi]
  · simp [hi]

/-- `WeightedIndex::new` is exact.  On weights whose scaled values fit a `u128` it does
not panic (no `Balance` arithmetic underflows or overflows); its odds are at most
`weight_sum` and its aliases below `n`; and of the `n * weight_sum` pairs of an index and a
weight, `n * w[j]` give `j`. -/
theorem new_exact (weights : List ℕ) (hbound : ∀ w ∈ weights, weights.length * w < 2 ^ 128) :
    ∃ wi, new weights = some wi ∧ wi.weightSum = weights.sum ∧
      wi.aliases.length = weights.length ∧ wi.noAliasOdds.length = weights.length ∧
      (∀ o ∈ wi.noAliasOdds, o ≤ wi.weightSum) ∧ (∀ a ∈ wi.aliases, a < weights.length) ∧
      ∀ j (hj : j < weights.length), wi.hits j = weights.length * weights[j] := by
  obtain ⟨odds₀, hodds₀⟩ : ∃ odds₀, weights.map (· * weights.length) = odds₀ := ⟨_, rfl⟩
  have hscale : scaleWeights weights.length weights 0 = some (odds₀, weights.sum) := by
    rw [← hodds₀]
    simpa using scaleWeights_eq weights.length weights 0
      (by simpa using sum_lt_of_forall_mul_lt hbound) fun w hw => by rw [mul_comm]; exact hbound w hw
  have hlen₀ : odds₀.length = weights.length := by simp [← hodds₀]
  have hinv₀ : PairInvariant weights.sum odds₀ odds₀
      (classify weights.sum odds₀ (Aliases.new odds₀.length)) := by
    refine pairInvariant_classify (by simp [← hodds₀, List.sum_map_mul_right]) ?_
    intro o ho
    rw [← hodds₀] at ho
    obtain ⟨w, hw, rfl⟩ := List.mem_map.mp ho
    rw [mul_comm]
    exact hbound w hw
  -- the pairing loop, with its `n` turns, ends with the small stack empty and every index
  -- left on the big one at odds `weight_sum`
  obtain ⟨odds, aliases, hloop, hinv, hexit⟩ := hinv₀.pairLoop (hinv₀.length_active_le.trans hlen₀.le)
  have hsmalls := hinv.smalls_eq_nil hexit
  have hfull := hinv.getD_eq_of_mem_bigs hsmalls
  have hfullActive : ∀ i ∈ aliases.active, odds.getD i 0 = weights.sum :=
    fun i hi => hfull i (by simpa [Aliases.active, hsmalls] using hi)
  have hdrain : drain weights.sum aliases.bigs odds = some odds :=
    drain_of_forall _ _ fun i hi =>
      ⟨hinv.length_odds ▸ hinv.lt_of_mem i (by simp [Aliases.active, hi]), hfull i hi⟩
  have hnew : new weights = some ⟨weights.sum, aliases.aliases, odds⟩ := by
    rw [hlen₀] at hloop
    have hdrain₀ : drain weights.sum [] odds = some odds := rfl
    simp only [new, hscale, Option.bind_eq_bind, Option.bind_some, hloop, hsmalls, hdrain₀,
      hdrain, Aliases.getAliases]
    rfl
  have hlenAliases : aliases.aliases.length = weights.length := hinv.length_aliases.trans hlen₀
  have hlenOdds : odds.length = weights.length := hinv.length_odds.trans hlen₀
  have hle : ∀ i < weights.length, odds.getD i 0 ≤ weights.sum := by
    intro i hi
    by_cases hact : i ∈ aliases.active
    · exact (hfullActive i hact).le
    · exact (hinv.retired i (hlen₀ ▸ hi) hact).le
  refine ⟨⟨weights.sum, aliases.aliases, odds⟩, hnew, rfl, hlenAliases, hlenOdds, ?_, ?_, ?_⟩
  · intro o ho
    obtain ⟨i, hi, rfl⟩ := List.getElem_of_mem ho
    simpa [List.getD_eq_getElem?_getD, List.getElem?_eq_getElem hi] using hle i (hlenOdds ▸ hi)
  · intro a ha
    obtain ⟨i, hi, rfl⟩ := List.getElem_of_mem ha
    have halias := hinv.alias_lt i (hlen₀ ▸ hlenAliases ▸ hi)
    simpa [List.getD_eq_getElem?_getD, List.getElem?_eq_getElem hi, hlen₀] using halias
  · -- `j` keeps its odds and gets what the indices aliased to it leave: its scaled weight
    intro j hj
    have hmass := hinv.mass j (hlen₀ ▸ hj)
    rw [retiredMass_eq_of_forall hfullActive, hlen₀] at hmass
    rw [hits_eq _ (hlenOdds.trans hlenAliases.symm) (fun i hi => hle i (hlenAliases ▸ hi)),
      List.sum_map_add]
    simp only [hlenAliases]
    rw [List.sum_map_ite_eq_of_mem _ List.nodup_range (List.mem_range.mpr hj), hmass]
    simp [← hodds₀, List.getD_eq_getElem?_getD, hj, mul_comm]

/-- The table of the source's own test is exact. -/
theorem new_exact_sevenWeights :
    (∀ w ∈ [5, 8, 4, 10, 4, 4, 5], [5, 8, 4, 10, 4, 4, 5].length * w < 2 ^ 128) ∧
    ∃ wi, new [5, 8, 4, 10, 4, 4, 5] = some wi ∧ wi.weightSum = [5, 8, 4, 10, 4, 4, 5].sum ∧
      wi.aliases.length = [5, 8, 4, 10, 4, 4, 5].length ∧
      wi.noAliasOdds.length = [5, 8, 4, 10, 4, 4, 5].length ∧
      (∀ o ∈ wi.noAliasOdds, o ≤ wi.weightSum) ∧
      (∀ a ∈ wi.aliases, a < [5, 8, 4, 10, 4, 4, 5].length) ∧
      ∀ j (hj : j < [5, 8, 4, 10, 4, 4, 5].length),
        wi.hits j = [5, 8, 4, 10, 4, 4, 5].length * [5, 8, 4, 10, 4, 4, 5][j] :=
  ⟨by decide, new_exact [5, 8, 4, 10, 4, 4, 5] (by decide)⟩

end WeightedIndex

end Nearcore.Rand
