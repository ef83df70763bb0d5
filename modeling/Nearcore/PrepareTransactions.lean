import Nearcore.TransactionPool

/-!
# Preparing the transactions of a chunk

`NightshadeRuntime::prepare_transactions` (`nearcore/src/runtime/mod.rs`)
pulls transaction groups from a `PoolIterator`, takes from each visit the
first transaction that passes `chain_validate` and
`verify_and_charge_transaction`, and stops when the pool iterator is
exhausted or the gas or size budget is used up.

`verify_and_charge_transaction` (`runtime/src/verifier.rs`) is kept to its
nonce rule: the access key of `(signer_id, public_key)` must exist and the
transaction's nonce must exceed the key's, which then becomes the
transaction's.  What it checks before (account and key lookups) and after
(`NonceTooLarge`, balance and cost checks) is a pair of arbitrary functions
of the rest of the state, `VerifierChecks`.  A state that an `InvalidTxError`
rolls back is simply not returned.  `chain_validate` is a closure with
state of its own.

Both loops terminate without fuel: a visit pops a transaction from the back
group at each turn, and each turn of the outer loop either takes a group out
of the pool or visits a non-empty group.
-/

namespace Nearcore

namespace Pool.PoolIteratorWrapper

/-- The groups still in the pool and the transactions not yet handed out. -/
def remaining (it : PoolIteratorWrapper) : Nat :=
  it.pool.transactions.entries.length + (it.pool.transactions.entries.map (·.2.length)).sum +
    (it.sortedGroups.map (·.transactions.length)).sum

/-- The number of transactions left in the group `next` returned. -/
def backSize (it : PoolIteratorWrapper) : Nat :=
  (it.sortedGroups.getLast?.map (·.transactions.length)).getD 0

theorem groupNext_remaining {it it' : PoolIteratorWrapper} {tx : SignedTransaction}
    (h : it.groupNext = (some tx, it')) :
    it'.remaining + 1 = it.remaining ∧ it'.backSize + 1 = it.backSize := by
  obtain ⟨front, g, hq, hg, hpool, hq'⟩ := groupNext_some h
  have hlen : g.transactions.length = g.transactions.dropLast.length + 1 := by
    conv_lhs => rw [hg]
    simp
  simp only [remaining, backSize, hq, hq', hpool, List.map_append, List.map_cons, List.map_nil,
    List.sum_append, List.sum_cons, List.sum_nil, List.getLast?_concat, Option.map_some,
    Option.getD_some]
  omega

theorem backSize_eq_zero {it it' : PoolIteratorWrapper} (h : it.groupNext = (none, it')) :
    it.backSize = 0 := by
  obtain ⟨-, hback⟩ := groupNext_none h
  cases hlast : it.sortedGroups.getLast? with
  | none => simp [backSize, hlast]
  | some g => simp [backSize, hlast, hback g hlast]

/-- `it'` is `it` after calls of `TransactionGroup::next` through the back
reference, each of which returned a transaction. -/
def Pops : PoolIteratorWrapper → PoolIteratorWrapper → Prop :=
  Relation.ReflTransGen fun it it' => ∃ tx, it.groupNext = (some tx, it')

theorem Pops.remaining_le {it it' : PoolIteratorWrapper} (h : Pops it it') :
    it' = it ∨ it'.remaining < it.remaining := by
  induction h with
  | refl => exact .inl rfl
  | tail _ hstep ih =>
      obtain ⟨tx, hnext⟩ := hstep
      have := (groupNext_remaining hnext).1
      right
      rcases ih with rfl | hlt <;> omega

/-- Each group `next` returns either came out of the pool, which shrinks, or
is a non-empty group of the queue. -/
theorem next_remaining {it it' : PoolIteratorWrapper} (h : it.next = some (true, it')) :
    it'.remaining < it.remaining ∨ (it'.remaining = it.remaining ∧ 0 < it'.backSize) := by
  rcases next_cases h with ⟨key, transactions, htxs, -, hpool, hq⟩ | ⟨-, hpop⟩
  · left
    have hperm := BTreeMap.entries_perm_erase htxs
    have hlen := hperm.length_eq
    have hsum := (hperm.map (·.2.length)).sum_eq
    simp only [List.length_cons, List.map_cons, List.sum_cons] at hlen hsum
    simp only [remaining, hpool, hq, List.map_append, List.map_cons, List.map_nil,
      List.sum_append, List.sum_cons, List.sum_nil, sortByNonceDesc, List.length_mergeSort]
    omega
  · right
    have hpool : it'.pool.transactions = it.pool.transactions := by
      simpa [hpop] using popSortedGroups_pool_transactions it.pool it.sortedGroups
    obtain ⟨dropped, g, rest, hgroups, hdropped, hg, hq⟩ := popSortedGroups_true hpop
    have hzero : (dropped.map (·.transactions.length)).sum = 0 := by
      simp only [List.sum_eq_zero_iff, List.mem_map]
      rintro n ⟨d, hd, rfl⟩
      simp [hdropped d hd]
    have hpos : 0 < g.transactions.length := List.length_pos_iff.mpr hg
    constructor
    · simp only [remaining, hpool, hq, hgroups, List.map_append, List.map_cons, List.map_nil,
        List.sum_append, List.sum_cons, List.sum_nil, hzero]
      omega
    · simpa [backSize, hq] using hpos

end Pool.PoolIteratorWrapper

namespace Runtime

open Pool

/-- The kinds of `RuntimeError` that `prepare_transactions` tells apart; any
other kind is `unreachable!` there. -/
inductive RuntimeError where
  | invalidTxError
  | storageError
  deriving DecidableEq, Repr

/-- `near_chain::Error`, of which the loop returns only `StorageError`. -/
inductive Error where
  | storageError
  deriving DecidableEq, Repr

structure VerificationResult where
  gasBurnt : Gas

/-- The state `verify_and_charge_transaction` reads and writes: the nonces
of the access keys and the rest of the trie. -/
structure StateUpdate (Ω : Type) where
  accessKeyNonces : AccountId × PublicKey → Option Nonce
  rest : Ω

structure VerifierChecks (Ω : Type) where
  beforeNonce : Ω → SignedTransaction → Option RuntimeError
  afterNonce : Ω → SignedTransaction → Except RuntimeError (Gas × Ω)

section Loops

variable {Γ Ω : Type} (checks : VerifierChecks Ω)

/-- `verify_and_charge_transaction` with its nonce rule. -/
def verifyAndChargeTransaction (stateUpdate : StateUpdate Ω) (tx : SignedTransaction) :
    Except RuntimeError (VerificationResult × StateUpdate Ω) :=
  match checks.beforeNonce stateUpdate.rest tx with
  | some err => .error err
  | none =>
    match stateUpdate.accessKeyNonces tx.accountKey with
    | none => .error .invalidTxError
    | some akNonce =>
      if tx.transaction.nonce ≤ akNonce then .error .invalidTxError
      else
        match checks.afterNonce stateUpdate.rest tx with
        | .error err => .error err
        | .ok (gasBurnt, rest) =>
          .ok (⟨gasBurnt⟩,
            ⟨Function.update stateUpdate.accessKeyNonces tx.accountKey (some tx.transaction.nonce),
              rest⟩)

theorem verifyAndChargeTransaction_ok {stateUpdate stateUpdate' : StateUpdate Ω}
    {tx : SignedTransaction} {result : VerificationResult}
    (h : verifyAndChargeTransaction checks stateUpdate tx = .ok (result, stateUpdate')) :
    ∃ akNonce, stateUpdate.accessKeyNonces tx.accountKey = some akNonce ∧
      akNonce < tx.transaction.nonce ∧
      stateUpdate'.accessKeyNonces =
        Function.update stateUpdate.accessKeyNonces tx.accountKey (some tx.transaction.nonce) := by
  unfold verifyAndChargeTransaction at h
  split at h
  · cases h
  · split at h
    · cases h
    · next akNonce hak =>
        split at h
        · cases h
        · next hnonce =>
            split at h
            · cases h
            · cases h
              refine ⟨akNonce, hak, ?_, rfl⟩
              have := mt UInt64.le_iff_toNat_le.mpr hnonce
              exact UInt64.lt_iff_toNat_lt.mpr (by omega)

/-- The locals of `prepare_transactions` that its loops change, and the
pool iterator it borrows.  `num_checked_transactions` only feeds a debug log
and is left out. -/
structure PrepareState (Γ Ω : Type) where
  poolIterator : PoolIteratorWrapper
  stateUpdate : StateUpdate Ω
  chainValidateState : Γ
  totalGasBurnt : Gas
  totalSize : UInt64
  transactions : List SignedTransaction

variable (chainValidate : Γ → SignedTransaction → Bool × Γ)

set_option linter.unusedVariables false in
/-- The inner `while let Some(tx) = iter.next()` loop over the group that
`next` returned: it stops at the first transaction that passes both checks. -/
def pullTransactions (st : PrepareState Γ Ω) : Option (Except Error (PrepareState Γ Ω)) :=
  match h : st.poolIterator.groupNext with
  | (none, poolIterator) => some (.ok { st with poolIterator })
  | (some tx, poolIterator) =>
    let (valid, chainValidateState) := chainValidate st.chainValidateState tx
    let st' := { st with poolIterator, chainValidateState }
    if valid then
      match verifyAndChargeTransaction checks st'.stateUpdate tx with
      | .ok (verificationResult, stateUpdate) =>
        match st'.totalGasBurnt.checkedAdd verificationResult.gasBurnt with
        | none => none
        | some totalGasBurnt =>
          match st'.totalSize.checkedAdd tx.getSize with
          | none => none
          | some totalSize =>
            some (.ok { st' with
              stateUpdate, totalGasBurnt, totalSize, transactions := st'.transactions ++ [tx] })
      | .error .invalidTxError => pullTransactions st'
      | .error .storageError => some (.error .storageError)
    else pullTransactions st'
termination_by st.poolIterator.backSize
decreasing_by
  all_goals
    have := (PoolIteratorWrapper.groupNext_remaining h).2
    omega

/-- A visit pops rejected transactions off the back group, then either finds
the group empty or accepts the next one; a rejection leaves the state and
the list as they were. -/
theorem pullTransactions_ok {st st' : PrepareState Γ Ω}
    (h : pullTransactions checks chainValidate st = some (.ok st')) :
    ∃ it, PoolIteratorWrapper.Pops st.poolIterator it ∧
      ((it.groupNext = (none, it) ∧ st'.poolIterator = it ∧ st'.stateUpdate = st.stateUpdate ∧
          st'.transactions = st.transactions) ∨
        ∃ tx result, it.groupNext = (some tx, st'.poolIterator) ∧
          verifyAndChargeTransaction checks st.stateUpdate tx = .ok (result, st'.stateUpdate) ∧
          st'.transactions = st.transactions ++ [tx]) := by
  fun_induction pullTransactions checks chainValidate st with
  | case1 st poolIterator hnext =>
      cases h
      obtain ⟨rfl, -⟩ := PoolIteratorWrapper.groupNext_none hnext
      exact ⟨st.poolIterator, .refl, .inl ⟨hnext, rfl, rfl, rfl⟩⟩
  | case2 => cases h
  | case3 => cases h
  | case4 st tx poolIterator hnext _ _ result stateUpdate hverify _ _ _ _ _ =>
      cases h
      exact ⟨st.poolIterator, .refl, .inr ⟨tx, result, hnext, hverify, rfl⟩⟩
  | case5 st tx poolIterator hnext _ _ _ _ ih =>
      obtain ⟨it, hpops, hend⟩ := ih h
      exact ⟨it, .head ⟨tx, hnext⟩ hpops, hend⟩
  | case6 => cases h
  | case7 st tx poolIterator hnext _ _ _ _ _ ih =>
      obtain ⟨it, hpops, hend⟩ := ih h
      exact ⟨it, .head ⟨tx, hnext⟩ hpops, hend⟩

theorem pullTransactions_remaining {st st' : PrepareState Γ Ω}
    (h : pullTransactions checks chainValidate st = some (.ok st')) :
    st'.poolIterator.remaining ≤ st.poolIterator.remaining ∧
      (0 < st.poolIterator.backSize → st'.poolIterator.remaining < st.poolIterator.remaining) := by
  obtain ⟨it, hpops, hend⟩ := pullTransactions_ok checks chainValidate h
  rcases hend with ⟨hnone, hit, -, -⟩ | ⟨tx, -, hnext, -, -⟩
  · -- the back group was empty when the visit ended
    rw [hit]
    have hzero := PoolIteratorWrapper.backSize_eq_zero hnone
    rcases hpops.remaining_le with rfl | hlt
    · exact ⟨le_rfl, fun hpos => absurd hpos (by omega)⟩
    · exact ⟨hlt.le, fun _ => hlt⟩
  · -- a transaction was accepted, so at least one was popped
    have hstep := (PoolIteratorWrapper.groupNext_remaining hnext).1
    rcases hpops.remaining_le with rfl | hlt
    · exact ⟨by omega, fun _ => by omega⟩
    · exact ⟨by omega, fun _ => by omega⟩

/-- A visit that takes one transaction: the group gives it, both checks pass
and the gas and size sums do not overflow. -/
theorem pullTransactions_accept {st : PrepareState Γ Ω} {tx : SignedTransaction}
    {poolIterator : PoolIteratorWrapper} {chainValidateState : Γ} {result : VerificationResult}
    {stateUpdate : StateUpdate Ω} {totalGasBurnt totalSize : UInt64}
    (hgroup : st.poolIterator.groupNext = (some tx, poolIterator))
    (hvalid : chainValidate st.chainValidateState tx = (true, chainValidateState))
    (hverify : verifyAndChargeTransaction checks st.stateUpdate tx = .ok (result, stateUpdate))
    (hgas : st.totalGasBurnt.checkedAdd result.gasBurnt = some totalGasBurnt)
    (hsize : st.totalSize.checkedAdd tx.getSize = some totalSize) :
    pullTransactions checks chainValidate st = some (.ok { st with
      poolIterator
      chainValidateState
      stateUpdate
      totalGasBurnt
      totalSize
      transactions := st.transactions ++ [tx] }) := by
  rw [pullTransactions]
  split
  · next h => rw [hgroup] at h; cases h
  · next tx' poolIterator' h =>
      rw [hgroup] at h
      cases h
      simp only [hvalid, hverify, hgas, hsize, if_true]

set_option linter.unusedVariables false in
/-- The outer `while` loop: while the gas and the size budgets last, ask the
iterator for a group and visit it. -/
def prepareLoop (transactionsGasLimit sizeLimit : Gas) (st : PrepareState Γ Ω) :
    Option (Except Error (PrepareState Γ Ω)) :=
  if st.totalGasBurnt < transactionsGasLimit ∧ st.totalSize < sizeLimit then
    match hnext : st.poolIterator.next with
    | none => none
    | some (false, poolIterator) => some (.ok { st with poolIterator })
    | some (true, poolIterator) =>
      match hpull : pullTransactions checks chainValidate { st with poolIterator } with
      | none => none
      | some (.error err) => some (.error err)
      | some (.ok st') => prepareLoop transactionsGasLimit sizeLimit st'
  else some (.ok st)
termination_by st.poolIterator.remaining
decreasing_by
  have hless := pullTransactions_remaining checks chainValidate hpull
  rcases PoolIteratorWrapper.next_remaining hnext with hlt | ⟨heq, hpos⟩
  · simp only at hless
    omega
  · simp only at hless
    have := hless.2 hpos
    omega

theorem prepareLoop_visit {transactionsGasLimit sizeLimit : Gas} {st st' : PrepareState Γ Ω}
    {poolIterator : PoolIteratorWrapper}
    (hlimit : st.totalGasBurnt < transactionsGasLimit ∧ st.totalSize < sizeLimit)
    (hnext : st.poolIterator.next = some (true, poolIterator))
    (hpull : pullTransactions checks chainValidate { st with poolIterator } = some (.ok st')) :
    prepareLoop checks chainValidate transactionsGasLimit sizeLimit st =
      prepareLoop checks chainValidate transactionsGasLimit sizeLimit st' := by
  rw [prepareLoop, if_pos hlimit]
  split
  · next h => rw [hnext] at h; cases h
  · next h => rw [hnext] at h; cases h
  · next poolIterator' h =>
      rw [hnext] at h
      cases h
      split
      · next h' => rw [hpull] at h'; cases h'
      · next h' => rw [hpull] at h'; cases h'
      · next st'' h' =>
          rw [hpull] at h'
          cases h'
          rfl

theorem prepareLoop_done {transactionsGasLimit sizeLimit : Gas} {st : PrepareState Γ Ω}
    {poolIterator : PoolIteratorWrapper}
    (hlimit : st.totalGasBurnt < transactionsGasLimit ∧ st.totalSize < sizeLimit)
    (hnext : st.poolIterator.next = some (false, poolIterator)) :
    prepareLoop checks chainValidate transactionsGasLimit sizeLimit st =
      some (.ok { st with poolIterator }) := by
  rw [prepareLoop, if_pos hlimit]
  split
  · next h => rw [hnext] at h; cases h
  · next poolIterator' h =>
      rw [hnext] at h
      cases h
      rfl
  · next h => rw [hnext] at h; cases h

/-- `NightshadeRuntime::prepare_transactions` from its loop on: half the gas
limit goes to transactions, and the byte budget is that gas over the cost of
writing and reading one byte of storage.  Besides the transactions it
returns the pool iterator it borrowed, in the state the loop left it. -/
def prepareTransactions (storageWriteValueByte storageReadValueByte gasLimit : Gas)
    (stateUpdate : StateUpdate Ω) (chainValidateState : Γ) (poolIterator : PoolIteratorWrapper) :
    Option (Except Error (List SignedTransaction × PoolIteratorWrapper)) :=
  let transactionsGasLimit := gasLimit / 2
  match storageWriteValueByte.checkedAdd storageReadValueByte with
  | none => none
  | some byteCost =>
    if byteCost = 0 then none
    else
      let sizeLimit := transactionsGasLimit / byteCost
      (prepareLoop checks chainValidate transactionsGasLimit sizeLimit
          ⟨poolIterator, stateUpdate, chainValidateState, 0, 0, []⟩).map
        (Except.map fun st => (st.transactions, st.poolIterator))

end Loops

end Runtime

end Nearcore
