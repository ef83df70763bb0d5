import Nearcore.Primitives
import Nearcore.ListFacts

/-!
# The transaction order a chunk validator accepts

`validate_transactions_order` of `near-chain` (`validate.rs`).  Per pair
`(signer_id, public_key)` the nonces must increase, and the list must split
into batches in which every key occurs at most once and every key of a batch
occurs in the batch before.  The two `HashMap`s are functions updated
pointwise; `current_batch` is a `usize` that never exceeds the length of the
list plus one, and is a `Nat` here.

The main result, `validateTransactionsOrder_of_rounds`, says that the check
accepts every list that is a run of rounds (`List.Rounds`) along which the
nonces of each key increase.
-/

namespace Nearcore
namespace Chain

open List (Rounds)

structure OrderState where
  nonces : AccountId × PublicKey → Option Nonce
  batches : AccountId × PublicKey → Option Nat
  currentBatch : Nat

def OrderState.init : OrderState := ⟨fun _ => none, fun _ => none, 1⟩

/-- One pass of the loop of `validate_transactions_order`; `none` is its
`return false`. -/
def orderStep (s : OrderState) (tx : SignedTransaction) : Option OrderState :=
  let key := tx.accountKey
  let nonce := tx.transaction.nonce
  if (s.nonces key).any (fun lastNonce => decide (nonce ≤ lastNonce)) then none
  else
    let nonces := Function.update s.nonces key (some nonce)
    let lastBatch := (s.batches key).getD 0
    if lastBatch = s.currentBatch then
      some ⟨nonces, Function.update s.batches key (some (s.currentBatch + 1)), s.currentBatch + 1⟩
    else if lastBatch < s.currentBatch - 1 then none
    else some ⟨nonces, Function.update s.batches key (some s.currentBatch), s.currentBatch⟩

def validateTransactionsOrder (transactions : List SignedTransaction) : Bool :=
  (transactions.foldlM orderStep OrderState.init).isSome

/-- Along the list, the nonces of each key strictly increase. -/
def NoncesIncrease (transactions : List SignedTransaction) : Prop :=
  transactions.Pairwise fun t t' =>
    t.accountKey = t'.accountKey → t.transaction.nonce < t'.transaction.nonce

/-- Every nonce the check remembers is that of a transaction it has seen. -/
def NoncesSeen (s : OrderState) (done : List SignedTransaction) : Prop :=
  ∀ k n, s.nonces k = some n → ∃ t ∈ done, t.accountKey = k ∧ t.transaction.nonce = n

/-! ## One transaction -/

section Step

variable {s : OrderState} {done : List SignedTransaction} {tx : SignedTransaction}

theorem nonce_fresh (hseen : NoncesSeen s done) (hinc : NoncesIncrease (done ++ [tx])) :
    (s.nonces tx.accountKey).any (fun lastNonce => decide (tx.transaction.nonce ≤ lastNonce)) =
      false := by
  cases hlast : s.nonces tx.accountKey with
  | none => rfl
  | some n =>
      obtain ⟨t, ht, hkey, rfl⟩ := hseen _ n hlast
      have hlt : t.transaction.nonce < tx.transaction.nonce :=
        List.pairwise_append.mp hinc |>.2.2 t ht tx List.mem_cons_self hkey
      simp only [Option.any_some, decide_eq_false_iff_not]
      intro hle
      have h₁ := UInt64.lt_iff_toNat_lt.mp hlt
      have h₂ := UInt64.le_iff_toNat_le.mp hle
      omega

theorem noncesSeen_update (hseen : NoncesSeen s done) (batches : AccountId × PublicKey → Option Nat)
    (currentBatch : Nat) :
    NoncesSeen
      ⟨Function.update s.nonces tx.accountKey (some tx.transaction.nonce), batches, currentBatch⟩
      (done ++ [tx]) := by
  intro k n hk
  simp only at hk
  by_cases hkey : k = tx.accountKey
  · subst hkey
    simp only [Function.update_self, Option.some.injEq] at hk
    exact ⟨tx, by simp, rfl, hk⟩
  · rw [Function.update_of_ne hkey] at hk
    obtain ⟨t, ht, htk, htn⟩ := hseen k n hk
    exact ⟨t, List.mem_append_left _ ht, htk, htn⟩

theorem orderStep_of_lastBatch_eq (hseen : NoncesSeen s done)
    (hinc : NoncesIncrease (done ++ [tx]))
    (hbatch : (s.batches tx.accountKey).getD 0 = s.currentBatch) :
    orderStep s tx =
      some ⟨Function.update s.nonces tx.accountKey (some tx.transaction.nonce),
        Function.update s.batches tx.accountKey (some (s.currentBatch + 1)),
        s.currentBatch + 1⟩ := by
  simp only [orderStep, nonce_fresh hseen hinc, hbatch]
  rfl

theorem orderStep_of_lastBatch_succ (hseen : NoncesSeen s done)
    (hinc : NoncesIncrease (done ++ [tx]))
    (hbatch : (s.batches tx.accountKey).getD 0 + 1 = s.currentBatch) :
    orderStep s tx =
      some ⟨Function.update s.nonces tx.accountKey (some tx.transaction.nonce),
        Function.update s.batches tx.accountKey (some s.currentBatch),
        s.currentBatch⟩ := by
  have hne : (s.batches tx.accountKey).getD 0 ≠ s.currentBatch := by omega
  have hnlt : ¬ (s.batches tx.accountKey).getD 0 < s.currentBatch - 1 := by omega
  simp only [orderStep, nonce_fresh hseen hinc, hne, hnlt]
  rfl

end Step

/-! ## One round -/

/-- The rest of a round: each key's last batch is the one before the current
one, so each joins the current batch. -/
theorem foldlM_orderStep_round (r : List SignedTransaction) :
    ∀ (s : OrderState) (done : List SignedTransaction),
      (r.map SignedTransaction.accountKey).Nodup →
      (∀ t ∈ r, (s.batches t.accountKey).getD 0 + 1 = s.currentBatch) →
      NoncesSeen s done → NoncesIncrease (done ++ r) →
      ∃ s', r.foldlM orderStep s = some s' ∧ s'.currentBatch = s.currentBatch ∧
        (∀ t ∈ r, s'.batches t.accountKey = some s.currentBatch) ∧
        (∀ k ∉ r.map SignedTransaction.accountKey, s'.batches k = s.batches k) ∧
        NoncesSeen s' (done ++ r) := by
  induction r with
  | nil =>
      intro s done _ _ hseen _
      exact ⟨s, rfl, rfl, by simp, fun _ _ => rfl, by simpa using hseen⟩
  | cons tx rest ih =>
      intro s done hnodup hbatch hseen hinc
      obtain ⟨hfresh, hnodup'⟩ := List.nodup_cons.mp hnodup
      have hinc₁ : NoncesIncrease (done ++ [tx]) :=
        List.Pairwise.sublist (by simp) hinc
      have hstep := orderStep_of_lastBatch_succ hseen hinc₁ (hbatch tx List.mem_cons_self)
      set s₁ : OrderState := ⟨Function.update s.nonces tx.accountKey (some tx.transaction.nonce),
        Function.update s.batches tx.accountKey (some s.currentBatch), s.currentBatch⟩
      -- the later keys differ from `tx`'s, so their last batches are untouched
      have hbatch₁ : ∀ t ∈ rest, (s₁.batches t.accountKey).getD 0 + 1 = s₁.currentBatch := by
        intro t ht
        have hne : t.accountKey ≠ tx.accountKey :=
          fun h => hfresh (h ▸ List.mem_map_of_mem ht)
        simp only [s₁, Function.update_of_ne hne]
        exact hbatch t (List.mem_cons_of_mem _ ht)
      obtain ⟨s', hrun, hcur, hin, hout, hseen'⟩ :=
        ih s₁ (done ++ [tx]) hnodup' hbatch₁ (noncesSeen_update hseen _ _) (by simpa using hinc)
      refine ⟨s', ?_, hcur, ?_, ?_, by simpa using hseen'⟩
      · rw [List.foldlM_cons, hstep]
        exact hrun
      · intro t ht
        rcases List.mem_cons.mp ht with rfl | ht
        · rw [hout _ hfresh]
          simp [s₁]
        · exact hin t ht
      · intro k hk
        have hk' : k ∉ rest.map SignedTransaction.accountKey := fun h => hk (List.mem_cons_of_mem _ h)
        have hne : k ≠ tx.accountKey := fun h => hk (h ▸ List.mem_cons_self)
        rw [hout k hk']
        simp [s₁, Function.update_of_ne hne]

/-- A round after the first: its first key was in the current batch, so it
opens the next batch, which the rest of the round joins. -/
theorem foldlM_orderStep_nextRound (tx : SignedTransaction) (rest : List SignedTransaction)
    (s : OrderState) (done : List SignedTransaction)
    (hnodup : ((tx :: rest).map SignedTransaction.accountKey).Nodup)
    (hbatch : ∀ t ∈ tx :: rest, s.batches t.accountKey = some s.currentBatch)
    (hseen : NoncesSeen s done) (hinc : NoncesIncrease (done ++ tx :: rest)) :
    ∃ s', (tx :: rest).foldlM orderStep s = some s' ∧
      s'.currentBatch = s.currentBatch + 1 ∧
      (∀ t ∈ tx :: rest, s'.batches t.accountKey = some (s.currentBatch + 1)) ∧
      NoncesSeen s' (done ++ tx :: rest) := by
  obtain ⟨hfresh, hnodup'⟩ := List.nodup_cons.mp hnodup
  have hinc₁ : NoncesIncrease (done ++ [tx]) := List.Pairwise.sublist (by simp) hinc
  have hstep := orderStep_of_lastBatch_eq hseen hinc₁
    (by rw [hbatch tx List.mem_cons_self]; rfl)
  set s₁ : OrderState := ⟨Function.update s.nonces tx.accountKey (some tx.transaction.nonce),
    Function.update s.batches tx.accountKey (some (s.currentBatch + 1)), s.currentBatch + 1⟩
  have hbatch₁ : ∀ t ∈ rest, (s₁.batches t.accountKey).getD 0 + 1 = s₁.currentBatch := by
    intro t ht
    have hne : t.accountKey ≠ tx.accountKey := fun h => hfresh (h ▸ List.mem_map_of_mem ht)
    simp [s₁, Function.update_of_ne hne, hbatch t (List.mem_cons_of_mem _ ht)]
  obtain ⟨s', hrun, hcur, hin, hout, hseen'⟩ :=
    foldlM_orderStep_round rest s₁ (done ++ [tx]) hnodup' hbatch₁
      (noncesSeen_update hseen _ _) (by simpa using hinc)
  refine ⟨s', ?_, hcur, ?_, by simpa using hseen'⟩
  · rw [List.foldlM_cons, hstep]
    exact hrun
  · intro t ht
    rcases List.mem_cons.mp ht with rfl | ht
    · rw [hout _ hfresh]
      simp [s₁]
    · exact hin t ht

/-! ## A run of rounds -/

theorem foldlM_orderStep_rounds (rs : List (List SignedTransaction)) :
    ∀ (prev : List SignedTransaction) (s : OrderState) (done : List SignedTransaction),
      Rounds ((prev :: rs).map (·.map SignedTransaction.accountKey)) →
      (∀ t ∈ prev, s.batches t.accountKey = some s.currentBatch) →
      NoncesSeen s done → NoncesIncrease (done ++ rs.flatten) →
      ∃ s', rs.flatten.foldlM orderStep s = some s' := by
  induction rs with
  | nil =>
      intro _ s _ _ _ _ _
      exact ⟨s, rfl⟩
  | cons r rest ih =>
      intro prev s done hrounds hprev hseen hinc
      rw [List.map_cons, List.map_cons, List.Rounds.cons_cons_iff] at hrounds
      obtain ⟨-, hsub, hrest⟩ := hrounds
      -- every key of `r` was in `prev`, hence in the current batch
      have hbatch : ∀ t ∈ r, s.batches t.accountKey = some s.currentBatch := by
        intro t ht
        obtain ⟨p, hp, hpt⟩ := List.mem_map.mp (hsub (List.mem_map_of_mem ht))
        rw [← hpt]
        exact hprev p hp
      cases r with
      | nil =>
          exact ih [] s done hrest (by simp) hseen (by simpa using hinc)
      | cons tx r' =>
          rw [List.flatten_cons, ← List.append_assoc] at hinc
          obtain ⟨s₁, hrun, hcur, hin, hseen₁⟩ :=
            foldlM_orderStep_nextRound tx r' s done hrest.head_nodup hbatch hseen
              (List.Pairwise.sublist (List.prefix_append _ _).sublist hinc)
          obtain ⟨s', hrun'⟩ :=
            ih (tx :: r') s₁ (done ++ tx :: r') hrest (by rw [hcur]; exact hin) hseen₁ hinc
          refine ⟨s', ?_⟩
          rw [List.flatten_cons, List.foldlM_append, hrun]
          exact hrun'

/-- The chunk validator accepts every run of rounds along which the nonces
of each key increase. -/
theorem validateTransactionsOrder_of_rounds (rs : List (List SignedTransaction))
    (hrounds : Rounds (rs.map (·.map SignedTransaction.accountKey)))
    (hinc : NoncesIncrease rs.flatten) :
    validateTransactionsOrder rs.flatten = true := by
  cases rs with
  | nil => rfl
  | cons r rest =>
      have hseen₀ : NoncesSeen OrderState.init [] := by
        intro k n hk
        cases hk
      rw [List.flatten_cons] at hinc ⊢
      -- the first round joins batch 1, since no key has a batch yet
      obtain ⟨s₁, hrun, hcur, hin, -, hseen₁⟩ :=
        foldlM_orderStep_round r OrderState.init [] (hrounds.head_nodup)
          (fun _ _ => rfl) hseen₀ (List.Pairwise.sublist (List.prefix_append _ _).sublist hinc)
      obtain ⟨s', hrun'⟩ :=
        foldlM_orderStep_rounds rest r s₁ r hrounds (by rw [hcur]; exact hin)
          (by simpa using hseen₁) hinc
      simp [validateTransactionsOrder, List.foldlM_append, hrun, hrun']

end Chain
end Nearcore
