import Nearcore.PrepareTransactions
import Nearcore.TransactionOrder

/-!
# Prepared transactions are in an order validators accept

A chunk producer fills a chunk with `prepare_transactions` driven by a fresh
`PoolIteratorWrapper`; a chunk validator checks the list with
`validate_transactions_order`.  This file proves that the check accepts
every list the producer returns.

The producer visits the pool's groups round by round.  The first round takes
every group out of the pool once; later rounds cycle through the queue, in
which a group that gave nothing in a round is empty and gets dropped.  A
visit adds at most one transaction, taken from the group's key.  So the list
is a run of rounds (`List.Rounds`) over pool keys, and, the pool key hash
being injective on the pool's transactions, over `(signer_id, public_key)`.
Along it the nonces of a key increase, by the nonce rule of
`verify_and_charge_transaction`.  `Chain.validateTransactionsOrder_of_rounds`
then gives the result.
-/

namespace Nearcore
namespace Runtime

open Pool List

section Invariant

variable (keyOf : SignedTransaction → PoolKey) (S : List SignedTransaction)

/-- The groups of the pool and of the queue have distinct keys, carry
transactions of their key only, and hold transactions drawn from `S`. -/
structure GroupShape (it : PoolIteratorWrapper) : Prop where
  keys_nodup : (it.pool.transactions.keys ++ it.sortedGroups.map (·.key)).Nodup
  pool_keyed : ∀ k txs, it.pool.transactions.get? k = some txs → ∀ t ∈ txs, keyOf t = k ∧ t ∈ S
  queue_keyed : ∀ g ∈ it.sortedGroups, ∀ t ∈ g.transactions, keyOf t = g.key ∧ t ∈ S

/-- The prepared list `out` so far is the rounds `done` and then the current
round `cur`.  `unvisited` are the groups at the front of the queue that the
current round has not visited yet, and `visited` those it has. -/
structure Progress (poolGroups : BTreeMap PoolKey (List SignedTransaction))
    (out : List SignedTransaction) (done : List (List SignedTransaction))
    (cur : List SignedTransaction) (unvisited visited : List TransactionGroup) : Prop where
  output : out = (done ++ [cur]).flatten
  rounds : Rounds ((done ++ [cur]).map (·.map keyOf))
  pulling : poolGroups.isEmpty = false → unvisited = []
  pool_fresh : ∀ k txs, poolGroups.get? k = some txs → txs ≠ [] →
    Fresh (done.map (·.map keyOf)) (cur.map keyOf) k
  unvisited_fresh : ∀ g ∈ unvisited, g.transactions ≠ [] →
    Fresh (done.map (·.map keyOf)) (cur.map keyOf) g.key
  visited_taken : ∀ g ∈ visited, g.transactions ≠ [] → g.key ∈ cur.map keyOf

/-- The accepted transactions of each key have increasing nonces, none above
what the state now holds for the key. -/
structure NonceOrder {Ω : Type} (stateUpdate : StateUpdate Ω) (out : List SignedTransaction) :
    Prop where
  increase : Chain.NoncesIncrease out
  bounded : ∀ t ∈ out, ∃ n, stateUpdate.accessKeyNonces t.accountKey = some n ∧
    t.transaction.nonce ≤ n

/-- Between two pops of a visit to the back group `g`. -/
structure Visiting (it : PoolIteratorWrapper) (out : List SignedTransaction)
    (done : List (List SignedTransaction)) (cur : List SignedTransaction)
    (unvisited visited : List TransactionGroup) (g : TransactionGroup) : Prop where
  queue : it.sortedGroups = unvisited ++ visited ++ [g]
  progress : Progress keyOf it.pool.transactions out done cur unvisited visited
  fresh : g.transactions ≠ [] → Fresh (done.map (·.map keyOf)) (cur.map keyOf) g.key

/-! ## Popping from the back group -/

omit keyOf S in
/-- A pop leaves the pool and the front of the queue alone and takes the
transaction from the back group. -/
theorem groupNext_back {it it' : PoolIteratorWrapper} {tx : SignedTransaction}
    {front : List TransactionGroup} {g : TransactionGroup}
    (hq : it.sortedGroups = front ++ [g]) (h : it.groupNext = (some tx, it')) :
    it'.pool = it.pool ∧ tx ∈ g.transactions ∧
      ∃ g', it'.sortedGroups = front ++ [g'] ∧ g'.key = g.key ∧
        g'.transactions ⊆ g.transactions ∧ (g'.transactions ≠ [] → g.transactions ≠ []) := by
  obtain ⟨front₁, g₁, hq₁, hg₁, hpool, hq'⟩ := PoolIteratorWrapper.groupNext_some h
  rw [hq] at hq₁
  obtain ⟨rfl, hg⟩ := List.append_inj' hq₁ rfl
  simp only [List.cons.injEq, and_true] at hg
  subst hg
  refine ⟨hpool, hg₁ ▸ List.mem_concat_self, _, hq', rfl, List.dropLast_subset _, ?_⟩
  intro hne hnil
  exact hne (by simp [hnil])

theorem GroupShape.pop {it it' : PoolIteratorWrapper} {tx : SignedTransaction}
    (hshape : GroupShape keyOf S it) (h : it.groupNext = (some tx, it')) :
    GroupShape keyOf S it' := by
  obtain ⟨front, g, hq, -, -, -⟩ := PoolIteratorWrapper.groupNext_some h
  obtain ⟨hpool, -, g', hq', hkey, hsub, -⟩ := groupNext_back hq h
  obtain ⟨hnodup, hpoolKeyed, hqueueKeyed⟩ := hshape
  rw [hq] at hnodup hqueueKeyed
  refine ⟨?_, ?_, ?_⟩
  · simpa [hpool, hq', hkey] using hnodup
  · rw [hpool]
    exact hpoolKeyed
  · rw [hq']
    intro g₁ hg₁ t ht
    rcases List.mem_append.mp hg₁ with hg₁ | hg₁
    · exact hqueueKeyed g₁ (List.mem_append_left _ hg₁) t ht
    · rw [List.mem_singleton] at hg₁
      subst hg₁
      rw [hkey]
      exact hqueueKeyed g (by simp) t (hsub ht)

omit S in
theorem Visiting.pop {it it' : PoolIteratorWrapper} {tx : SignedTransaction}
    {out : List SignedTransaction} {done : List (List SignedTransaction)}
    {cur : List SignedTransaction} {unvisited visited : List TransactionGroup}
    {g : TransactionGroup}
    (hvisit : Visiting keyOf it out done cur unvisited visited g)
    (h : it.groupNext = (some tx, it')) :
    ∃ g', Visiting keyOf it' out done cur unvisited visited g' := by
  obtain ⟨hpool, -, g', hq', hkey, -, hne⟩ := groupNext_back hvisit.queue h
  refine ⟨g', ⟨hq', hpool ▸ hvisit.progress, ?_⟩⟩
  intro hg'
  rw [hkey]
  exact hvisit.fresh (hne hg')

theorem Visiting.pops {it it' : PoolIteratorWrapper} {out : List SignedTransaction}
    {done : List (List SignedTransaction)} {cur : List SignedTransaction}
    {unvisited visited : List TransactionGroup} {g : TransactionGroup}
    (hvisit : Visiting keyOf it out done cur unvisited visited g)
    (hshape : GroupShape keyOf S it) (hpops : PoolIteratorWrapper.Pops it it') :
    GroupShape keyOf S it' ∧ ∃ g', Visiting keyOf it' out done cur unvisited visited g' := by
  induction hpops with
  | refl => exact ⟨hshape, g, hvisit⟩
  | tail _ hstep ih =>
      obtain ⟨tx, hnext⟩ := hstep
      obtain ⟨hshape', g', hvisit'⟩ := ih
      exact ⟨hshape'.pop keyOf S hnext, hvisit'.pop keyOf hnext⟩

/-- The visit ends with an accepted transaction: it joins the current
round, and the group counts as visited. -/
theorem Visiting.accept {it it' : PoolIteratorWrapper} {tx : SignedTransaction}
    {out : List SignedTransaction} {done : List (List SignedTransaction)}
    {cur : List SignedTransaction} {unvisited visited : List TransactionGroup}
    {g : TransactionGroup}
    (hvisit : Visiting keyOf it out done cur unvisited visited g)
    (hshape : GroupShape keyOf S it) (h : it.groupNext = (some tx, it')) :
    tx ∈ S ∧ ∃ g', it'.sortedGroups = unvisited ++ (visited ++ [g']) ∧
      Progress keyOf it'.pool.transactions (out ++ [tx]) done (cur ++ [tx]) unvisited
        (visited ++ [g']) := by
  obtain ⟨hpool, htx, g', hq', hkey, -, -⟩ := groupNext_back hvisit.queue h
  obtain ⟨hnodup, -, hqueueKeyed⟩ := hshape
  obtain ⟨hq, ⟨hout, hrounds, hpulling, hpoolFresh, hunvisited, hvisited⟩, hfresh⟩ := hvisit
  rw [hq] at hnodup hqueueKeyed
  obtain ⟨hkeyTx, hS⟩ := hqueueKeyed g (by simp) tx htx
  have hfreshTx : Fresh (done.map (·.map keyOf)) (cur.map keyOf) (keyOf tx) :=
    hkeyTx ▸ hfresh (List.ne_nil_of_mem htx)
  have hother : ∀ k ∈ it.pool.transactions.keys ++ (unvisited ++ visited).map (·.key),
      k ≠ g.key := by
    have hnodup' :
        (it.pool.transactions.keys ++ (unvisited ++ visited).map (·.key) ++ [g.key]).Nodup := by
      simpa using hnodup
    intro k hk
    exact (List.nodup_append.mp hnodup').2.2 k hk g.key (List.mem_singleton_self _)
  have hrounds' : Rounds (done.map (·.map keyOf) ++ [cur.map keyOf]) := by simpa using hrounds
  refine ⟨hS, g', by rw [hq', List.append_assoc], ?_⟩
  refine ⟨by rw [hout]; simp, ?_, fun h => hpulling (hpool ▸ h), ?_, ?_, ?_⟩
  · simpa using hrounds'.concat_fresh hfreshTx
  · intro k txs hk hne
    rw [hpool] at hk
    obtain ⟨hnot, hprev⟩ := hpoolFresh k txs hk hne
    have hkg : k ≠ g.key := hother k (List.mem_append_left _
      ((BTreeMap.mem_keys_iff _ _).mpr ⟨txs, hk⟩))
    refine ⟨?_, hprev⟩
    simp only [List.map_append, List.map_cons, List.map_nil, List.mem_append, List.mem_singleton,
      not_or]
    exact ⟨hnot, fun h => hkg (h.trans hkeyTx)⟩
  · intro g₁ hg₁ hne
    obtain ⟨hnot, hprev⟩ := hunvisited g₁ hg₁ hne
    have hkg : g₁.key ≠ g.key :=
      hother _ (List.mem_append_right _ (List.mem_map_of_mem (List.mem_append_left _ hg₁)))
    refine ⟨?_, hprev⟩
    simp only [List.map_append, List.map_cons, List.map_nil, List.mem_append, List.mem_singleton,
      not_or]
    exact ⟨hnot, fun h => hkg (h.trans hkeyTx)⟩
  · intro g₁ hg₁ hne
    rcases List.mem_append.mp hg₁ with hg₁ | hg₁
    · rw [List.map_append]
      exact List.mem_append_left _ (hvisited g₁ hg₁ hne)
    · rw [List.mem_singleton] at hg₁
      subst hg₁
      rw [hkey, ← hkeyTx]
      simp

omit S in
theorem Visiting.exhaust {it : PoolIteratorWrapper} {out : List SignedTransaction}
    {done : List (List SignedTransaction)} {cur : List SignedTransaction}
    {unvisited visited : List TransactionGroup} {g : TransactionGroup}
    (hvisit : Visiting keyOf it out done cur unvisited visited g)
    (h : it.groupNext = (none, it)) :
    it.sortedGroups = unvisited ++ (visited ++ [g]) ∧
      Progress keyOf it.pool.transactions out done cur unvisited (visited ++ [g]) := by
  obtain ⟨-, hback⟩ := PoolIteratorWrapper.groupNext_none h
  have hempty : g.transactions = [] := hback g (by simp [hvisit.queue])
  obtain ⟨hq, ⟨hout, hrounds, hpulling, hpoolFresh, hunvisited, hvisited⟩, -⟩ := hvisit
  refine ⟨by rw [hq, List.append_assoc], hout, hrounds, hpulling, hpoolFresh, hunvisited, ?_⟩
  intro g₁ hg₁ hne
  rcases List.mem_append.mp hg₁ with hg₁ | hg₁
  · exact hvisited g₁ hg₁ hne
  · rw [List.mem_singleton] at hg₁
    exact absurd (hg₁ ▸ hempty) hne

/-! ## Asking the iterator for a group -/

omit S in
/-- A group that the current round has not visited leaves the front of the
queue. -/
theorem Progress.dropFront {poolGroups : BTreeMap PoolKey (List SignedTransaction)}
    {out : List SignedTransaction} {done : List (List SignedTransaction)}
    {cur : List SignedTransaction} {g : TransactionGroup} {unvisited visited : List TransactionGroup}
    (hprog : Progress keyOf poolGroups out done cur (g :: unvisited) visited) :
    Progress keyOf poolGroups out done cur unvisited visited := by
  obtain ⟨hout, hrounds, hpulling, hpoolFresh, hunvisited, hvisited⟩ := hprog
  refine ⟨hout, hrounds, fun h => ?_, hpoolFresh, fun g₁ hg₁ => hunvisited g₁ (.tail _ hg₁),
    hvisited⟩
  cases hpulling h

omit S in
/-- When the pool is empty and the current round has visited every group of
the queue, a new round starts over the same queue. -/
theorem Progress.newRound {poolGroups : BTreeMap PoolKey (List SignedTransaction)}
    {out : List SignedTransaction} {done : List (List SignedTransaction)}
    {cur : List SignedTransaction} {visited : List TransactionGroup}
    (hprog : Progress keyOf poolGroups out done cur [] visited)
    (hempty : poolGroups.isEmpty = true) :
    Progress keyOf poolGroups out (done ++ [cur]) [] visited [] := by
  obtain ⟨hout, hrounds, -, -, -, hvisited⟩ := hprog
  refine ⟨by rw [hout]; simp, ?_, fun h => absurd hempty (by simp [h]), ?_, ?_, by simp⟩
  · simpa using hrounds.concat_nil
  · intro k txs hk
    rw [(BTreeMap.isEmpty_iff poolGroups).mp hempty k] at hk
    cases hk
  · intro g hg hne
    refine ⟨by simp, ?_⟩
    intro prev hprev
    simp only [List.map_append, List.map_cons, List.map_nil, List.getLast?_concat,
      Option.mem_some_iff] at hprev
    rw [← hprev]
    exact hvisited g hg hne

theorem GroupShape.popSortedGroups {pool : TransactionPool} {groups : List TransactionGroup}
    {b : Bool} {it' : PoolIteratorWrapper} (hshape : GroupShape keyOf S ⟨pool, groups⟩)
    (h : PoolIteratorWrapper.popSortedGroups pool groups = (b, it')) :
    GroupShape keyOf S it' := by
  obtain ⟨hnodup, hpoolKeyed, hqueueKeyed⟩ := hshape
  have hpool : it'.pool.transactions = pool.transactions := by
    simpa [h] using PoolIteratorWrapper.popSortedGroups_pool_transactions pool groups
  cases b with
  | false =>
      obtain ⟨hq, -⟩ := PoolIteratorWrapper.popSortedGroups_false h
      refine ⟨?_, hpool ▸ hpoolKeyed, by simp [hq]⟩
      rw [hpool, hq]
      simpa using (List.nodup_append.mp hnodup).1
  | true =>
      obtain ⟨dropped, g, rest, hgroups, -, -, hq⟩ := PoolIteratorWrapper.popSortedGroups_true h
      have hsub : ∀ g₁ ∈ rest ++ [g], g₁ ∈ groups := by
        intro g₁ hg₁
        rw [hgroups]
        simp only [List.mem_append, List.mem_singleton] at hg₁
        rcases hg₁ with hg₁ | rfl
        · simp [hg₁]
        · simp
      refine ⟨?_, hpool ▸ hpoolKeyed, fun g₁ hg₁ => hqueueKeyed g₁ (hsub g₁ (hq ▸ hg₁))⟩
      rw [hpool, hq]
      have hsuffix : (pool.transactions.keys ++ (g :: rest).map (·.key)).Sublist
          (pool.transactions.keys ++ groups.map (·.key)) := by
        rw [hgroups]
        exact List.Sublist.append_left (by simp) _
      have hperm : (pool.transactions.keys ++ (rest ++ [g]).map (·.key)).Perm
          (pool.transactions.keys ++ (g :: rest).map (·.key)) := by
        refine List.Perm.append_left _ ?_
        simp
      exact hperm.nodup_iff.mpr (hsuffix.nodup hnodup)

omit S in
/-- Once the pool is empty, `next` drops the empty groups at the front of
the queue, starting a new round whenever the current one has visited every
group, and visits the first non-empty group, if there is one. -/
theorem popSortedGroups_progress {poolGroups : BTreeMap PoolKey (List SignedTransaction)}
    (hempty : poolGroups.isEmpty = true) {out : List SignedTransaction} (groups : List TransactionGroup) :
    ∀ (pool : TransactionPool) (done : List (List SignedTransaction)) (cur : List SignedTransaction)
      (unvisited visited : List TransactionGroup) (b : Bool) (it' : PoolIteratorWrapper),
      pool.transactions = poolGroups → groups = unvisited ++ visited →
      Progress keyOf poolGroups out done cur unvisited visited →
      PoolIteratorWrapper.popSortedGroups pool groups = (b, it') →
      (b = false → it'.sortedGroups = [] ∧
        ∃ done' cur', Progress keyOf it'.pool.transactions out done' cur' [] []) ∧
      (b = true → ∃ done' cur' unvisited' visited' g,
        Visiting keyOf it' out done' cur' unvisited' visited' g) := by
  induction groups with
  | nil =>
      intro pool done cur unvisited visited b it' hpool hgroups hprog h
      obtain ⟨rfl, rfl⟩ := List.append_eq_nil_iff.mp hgroups.symm
      cases h
      exact ⟨fun _ => ⟨rfl, done, cur, hpool ▸ hprog⟩, fun h => by cases h⟩
  | cons g rest ih =>
      intro pool done cur unvisited visited b it' hpool hgroups hprog h
      obtain ⟨done₁, cur₁, unvisited₁, visited₁, hrest, hprog₁⟩ :
          ∃ done₁ cur₁ unvisited₁ visited₁, rest = unvisited₁ ++ visited₁ ∧
            Progress keyOf poolGroups out done₁ cur₁ (g :: unvisited₁) visited₁ := by
        cases unvisited with
        | nil =>
            exact ⟨done ++ [cur], [], rest, [], by simp,
              by simpa [hgroups] using hprog.newRound keyOf hempty⟩
        | cons g₁ unvisited₁ =>
            obtain ⟨rfl, hrest⟩ := List.cons_eq_cons.mp hgroups
            exact ⟨done, cur, unvisited₁, visited, hrest, hprog⟩
      simp only [PoolIteratorWrapper.popSortedGroups] at h
      split at h
      · exact ih (pool.forgetHashes g.removedTransactionHashes) done₁ cur₁ unvisited₁ visited₁ b it'
          hpool hrest (hprog₁.dropFront keyOf) h
      · next hne =>
          cases h
          refine ⟨(fun h => by cases h), fun _ => ⟨done₁, cur₁, unvisited₁, visited₁, g, ?_⟩⟩
          refine ⟨by simp [hrest], hpool ▸ hprog₁.dropFront keyOf, ?_⟩
          intro hg
          exact hprog₁.unvisited_fresh g List.mem_cons_self hg

/-- One call of `next` between two visits: it keeps the shape of the groups
and either ends the loop with an empty queue or opens a visit. -/
theorem next_progress {it it' : PoolIteratorWrapper} {b : Bool} {out : List SignedTransaction}
    {done : List (List SignedTransaction)} {cur : List SignedTransaction}
    {unvisited visited : List TransactionGroup}
    (hshape : GroupShape keyOf S it) (hq : it.sortedGroups = unvisited ++ visited)
    (hprog : Progress keyOf it.pool.transactions out done cur unvisited visited)
    (h : it.next = some (b, it')) :
    GroupShape keyOf S it' ∧
      (b = false → it'.sortedGroups = [] ∧
        ∃ done' cur', Progress keyOf it'.pool.transactions out done' cur' [] []) ∧
      (b = true → ∃ done' cur' unvisited' visited' g,
        Visiting keyOf it' out done' cur' unvisited' visited' g) := by
  rcases PoolIteratorWrapper.next_cases h with
    ⟨key, txs, htxs, rfl, hpool, hq'⟩ | ⟨hempty, hpop⟩
  · -- a group leaves the pool for the back of the queue
    have hnonempty : it.pool.transactions.isEmpty = false := by
      cases hempty : it.pool.transactions.isEmpty
      · rfl
      · rw [(BTreeMap.isEmpty_iff _).mp hempty key] at htxs
        cases htxs
    have hunvisited : unvisited = [] := hprog.pulling hnonempty
    subst hunvisited
    obtain ⟨hnodup, hpoolKeyed, hqueueKeyed⟩ := hshape
    obtain ⟨hout, hrounds, -, hpoolFresh, -, hvisited⟩ := hprog
    have herase : ∀ k txs', it'.pool.transactions.get? k = some txs' →
        k ≠ key ∧ it.pool.transactions.get? k = some txs' := by
      intro k txs' hk
      rw [hpool, BTreeMap.get?_erase] at hk
      by_cases hkey : key = k
      · rw [if_pos hkey] at hk
        cases hk
      · rw [if_neg hkey] at hk
        exact ⟨Ne.symm hkey, hk⟩
    refine ⟨⟨?_, ?_, ?_⟩, (fun h => by cases h),
      fun _ => ⟨done, cur, [], visited, ⟨key, PoolIteratorWrapper.sortByNonceDesc txs, []⟩, ?_⟩⟩
    · -- the key moves from the pool's keys to the queue's
      have hkeys := (BTreeMap.entries_perm_erase htxs).map Prod.fst
      have hperm : (it.pool.transactions.keys ++ it.sortedGroups.map (·.key)).Perm
          (it'.pool.transactions.keys ++ it'.sortedGroups.map (·.key)) := by
        rw [hpool, hq']
        simp only [BTreeMap.keys, List.map_append, List.map_cons, List.map_nil]
        refine (hkeys.append_right _).trans ?_
        simpa using (List.perm_append_singleton key
          ((it.pool.transactions.erase key).entries.map Prod.fst ++ it.sortedGroups.map (·.key))).symm
      exact hperm.nodup_iff.mp hnodup
    · intro k txs' hk
      exact hpoolKeyed k txs' (herase k txs' hk).2
    · rw [hq']
      intro g hg t ht
      rcases List.mem_append.mp hg with hg | hg
      · exact hqueueKeyed g hg t ht
      · rw [List.mem_singleton] at hg
        subst hg
        exact hpoolKeyed key txs htxs t (by simpa [PoolIteratorWrapper.sortByNonceDesc] using ht)
    · refine ⟨by simp [hq', hq], ⟨hout, hrounds, fun _ => rfl, ?_, by simp, hvisited⟩, ?_⟩
      · intro k txs' hk hne
        exact hpoolFresh k txs' (herase k txs' hk).2 hne
      · intro hne
        have htxsne : txs ≠ [] := by
          intro hnil
          simp [hnil, PoolIteratorWrapper.sortByNonceDesc] at hne
        exact hpoolFresh key txs htxs htxsne
  · -- the pool is empty: cycle through the queue
    have hshape' : GroupShape keyOf S ⟨it.pool, it.sortedGroups⟩ := hshape
    exact ⟨hshape'.popSortedGroups keyOf S hpop,
      popSortedGroups_progress keyOf hempty it.sortedGroups it.pool done cur unvisited visited b it'
        rfl hq hprog hpop⟩

/-! ## The loops -/

theorem NonceOrder.accept {Ω : Type} {checks : VerifierChecks Ω} {stateUpdate stateUpdate' : StateUpdate Ω}
    {out : List SignedTransaction} {tx : SignedTransaction} {result : VerificationResult}
    (hord : NonceOrder stateUpdate out)
    (h : verifyAndChargeTransaction checks stateUpdate tx = .ok (result, stateUpdate')) :
    NonceOrder stateUpdate' (out ++ [tx]) := by
  obtain ⟨akNonce, hak, hlt, hnonces⟩ := verifyAndChargeTransaction_ok checks h
  obtain ⟨hinc, hbounded⟩ := hord
  have hbelow : ∀ t ∈ out, t.accountKey = tx.accountKey →
      t.transaction.nonce < tx.transaction.nonce := by
    intro t ht hkey
    obtain ⟨n, hn, hle⟩ := hbounded t ht
    rw [hkey, hak, Option.some.injEq] at hn
    subst hn
    have h₁ := UInt64.le_iff_toNat_le.mp hle
    have h₂ := UInt64.lt_iff_toNat_lt.mp hlt
    exact UInt64.lt_iff_toNat_lt.mpr (by omega)
  refine ⟨?_, ?_⟩
  · exact List.pairwise_append.mpr ⟨hinc, List.pairwise_singleton _ _,
      fun t ht t' ht' hkey => (List.mem_singleton.mp ht') ▸ hbelow t ht (hkey.trans
        (congrArg _ (List.mem_singleton.mp ht')))⟩
  · intro t ht
    rw [hnonces]
    by_cases hkey : t.accountKey = tx.accountKey
    · rw [hkey, Function.update_self]
      refine ⟨_, rfl, ?_⟩
      rcases List.mem_append.mp ht with ht | ht
      · exact UInt64.le_iff_toNat_le.mpr (UInt64.lt_iff_toNat_lt.mp (hbelow t ht hkey)).le
      · rw [List.mem_singleton.mp ht]
        exact UInt64.le_iff_toNat_le.mpr le_rfl
    · rw [Function.update_of_ne hkey]
      rcases List.mem_append.mp ht with ht | ht
      · exact hbounded t ht
      · exact absurd (congrArg SignedTransaction.accountKey (List.mem_singleton.mp ht)) hkey

variable {Γ Ω : Type} (checks : VerifierChecks Ω) (chainValidate : Γ → SignedTransaction → Bool × Γ)

/-- What holds of the producer's state between two visits. -/
structure LoopInv (st : PrepareState Γ Ω) : Prop where
  shape : GroupShape keyOf S st.poolIterator
  drawn : ∀ t ∈ st.transactions, t ∈ S
  nonces : NonceOrder st.stateUpdate st.transactions
  progress : ∃ done cur unvisited visited, st.poolIterator.sortedGroups = unvisited ++ visited ∧
    Progress keyOf st.poolIterator.pool.transactions st.transactions done cur unvisited visited

omit chainValidate in
/-- A visit, which rejects some transactions of the back group and then
accepts one or finds the group empty, restores the invariant. -/
theorem pullTransactions_loopInv (st : PrepareState Γ Ω) {st' : PrepareState Γ Ω}
    {done : List (List SignedTransaction)}
    {cur : List SignedTransaction} {unvisited visited : List TransactionGroup} {g : TransactionGroup}
    (hshape : GroupShape keyOf S st.poolIterator) (hdrawn : ∀ t ∈ st.transactions, t ∈ S)
    (hnonces : NonceOrder st.stateUpdate st.transactions)
    (hvisit : Visiting keyOf st.poolIterator st.transactions done cur unvisited visited g)
    (chainValidate : Γ → SignedTransaction → Bool × Γ)
    (h : pullTransactions checks chainValidate st = some (.ok st')) :
    LoopInv keyOf S st' := by
  obtain ⟨it, hpops, hend⟩ := pullTransactions_ok checks chainValidate h
  obtain ⟨hshape₁, g₁, hvisit₁⟩ := hvisit.pops keyOf S hshape hpops
  rcases hend with ⟨hnone, hit, hstate, hout⟩ | ⟨tx, result, hnext, hverify, hout⟩
  · obtain ⟨hq, hprog⟩ := hvisit₁.exhaust keyOf hnone
    refine ⟨hit ▸ hshape₁, hout ▸ hdrawn, hstate ▸ hout ▸ hnonces, ?_⟩
    exact ⟨done, cur, unvisited, visited ++ [g₁], hit ▸ hq, hit ▸ hout ▸ hprog⟩
  · obtain ⟨hS, g', hq, hprog⟩ := hvisit₁.accept keyOf S hshape₁ hnext
    refine ⟨hshape₁.pop keyOf S hnext, ?_, hout ▸ hnonces.accept hverify, ?_⟩
    · intro t ht
      rw [hout] at ht
      rcases List.mem_append.mp ht with ht | ht
      · exact hdrawn t ht
      · exact List.mem_singleton.mp ht ▸ hS
    · exact ⟨done, cur ++ [tx], unvisited, visited ++ [g'], hq, hout ▸ hprog⟩

/-- The invariant holds when the outer loop ends. -/
theorem prepareLoop_loopInv (transactionsGasLimit sizeLimit : Gas) {st st' : PrepareState Γ Ω}
    (hinv : LoopInv keyOf S st)
    (h : prepareLoop checks chainValidate transactionsGasLimit sizeLimit st = some (.ok st')) :
    LoopInv keyOf S st' := by
  fun_induction prepareLoop checks chainValidate transactionsGasLimit sizeLimit st with
  | case1 st _ hnext => cases h
  | case2 st _ poolIterator hnext =>
      cases h
      obtain ⟨hshape, hdrawn, hnonces, done, cur, unvisited, visited, hq, hprog⟩ := hinv
      obtain ⟨hshape', hfalse, -⟩ := next_progress keyOf S hshape hq hprog hnext
      obtain ⟨hq', done', cur', hprog'⟩ := hfalse rfl
      exact ⟨hshape', hdrawn, hnonces, done', cur', [], [], hq', hprog'⟩
  | case3 st _ poolIterator hnext hpull => cases h
  | case4 st _ poolIterator hnext err hpull => cases h
  | case5 st _ poolIterator hnext st₁ hpull ih =>
      obtain ⟨hshape, hdrawn, hnonces, done, cur, unvisited, visited, hq, hprog⟩ := hinv
      obtain ⟨hshape', -, htrue⟩ := next_progress keyOf S hshape hq hprog hnext
      obtain ⟨done', cur', unvisited', visited', g, hvisit⟩ := htrue rfl
      exact ih (pullTransactions_loopInv keyOf S checks { st with poolIterator } hshape' hdrawn
        hnonces hvisit chainValidate hpull) h
  | case6 st hcond =>
      cases h
      exact hinv

omit checks in
/-- From the invariant, the list is a run of rounds over pool keys; when the
pool key determines `(signer_id, public_key)` on the transactions involved,
it is one over those pairs too, and the validator accepts it. -/
theorem LoopInv.validateTransactionsOrder {st : PrepareState Γ Ω} (hinv : LoopInv keyOf S st)
    (hkey : ∀ t t' : SignedTransaction, t.accountKey = t'.accountKey → keyOf t = keyOf t')
    (hinj : ∀ t ∈ S, ∀ t' ∈ S, keyOf t = keyOf t' → t.accountKey = t'.accountKey) :
    Chain.validateTransactionsOrder st.transactions = true := by
  obtain ⟨-, hdrawn, hnonces, done, cur, _, _, -, hprog⟩ := hinv
  have hout := hprog.output
  have hrounds : Rounds ((done ++ [cur]).map (·.map SignedTransaction.accountKey)) := by
    refine hprog.rounds.map_of_determines hkey ?_
    intro a ha b hb hab
    exact hinj a (hdrawn a (hout ▸ ha)) b (hdrawn b (hout ▸ hb)) hab
  rw [hout] at hnonces ⊢
  exact Chain.validateTransactionsOrder_of_rounds _ hrounds hnonces.increase

end Invariant

/-! ## The prepared list -/

section Result

variable {Γ Ω : Type} (hash : List UInt8 → CryptoHash)

/-- The invariant at the start, for a pool whose groups hold transactions of
their own key. -/
theorem loopInv_new (pool : TransactionPool) (stateUpdate : StateUpdate Ω) (chainValidateState : Γ)
    (hkeyed : ∀ k txs, pool.transactions.get? k = some txs → ∀ t ∈ txs, pool.txKey hash t = k) :
    LoopInv (pool.txKey hash) pool.storedTransactions
      ⟨PoolIteratorWrapper.new pool, stateUpdate, chainValidateState, 0, 0, []⟩ := by
  refine ⟨⟨?_, ?_, by simp [PoolIteratorWrapper.new]⟩, by simp, ⟨List.Pairwise.nil, by simp⟩,
    [], [], [], [], rfl, ⟨rfl, ⟨by simp, .singleton _⟩, fun _ => rfl, ?_, by simp, by simp⟩⟩
  · simpa [PoolIteratorWrapper.new] using pool.transactions.keys_nodup
  · intro k txs hk t ht
    refine ⟨hkeyed k txs hk t ht, ?_⟩
    exact List.mem_flatMap.mpr ⟨(k, txs), (BTreeMap.get?_eq_some_iff _ _ _).mp hk, ht⟩
  · intro k txs _ _
    exact ⟨by simp, by simp⟩

/-- The pool key is a function of `(signer_id, public_key)`. -/
theorem txKey_congr (pool : TransactionPool) (t t' : SignedTransaction)
    (h : t.accountKey = t'.accountKey) : pool.txKey hash t = pool.txKey hash t' := by
  simp only [SignedTransaction.accountKey, Prod.mk.injEq] at h
  simp only [TransactionPool.txKey, h.1, h.2]

/-- A chunk producer's list passes the chunk validator's order check: for a
pool whose groups hold transactions of their own key, with a pool key hash
injective on the pool's transactions, every list that `prepare_transactions`
returns, driven by a fresh iterator over the pool, satisfies
`validate_transactions_order`. -/
theorem prepareTransactions_validOrder (checks : VerifierChecks Ω)
    (chainValidate : Γ → SignedTransaction → Bool × Γ)
    (storageWriteValueByte storageReadValueByte gasLimit : Gas) (stateUpdate : StateUpdate Ω)
    (chainValidateState : Γ) (pool : TransactionPool)
    (hkeyed : ∀ k txs, pool.transactions.get? k = some txs → ∀ t ∈ txs, pool.txKey hash t = k)
    (hinj : ∀ t ∈ pool.storedTransactions, ∀ t' ∈ pool.storedTransactions,
      pool.txKey hash t = pool.txKey hash t' → t.accountKey = t'.accountKey)
    (transactions : List SignedTransaction) (poolIterator : PoolIteratorWrapper)
    (h : prepareTransactions checks chainValidate storageWriteValueByte storageReadValueByte gasLimit
      stateUpdate chainValidateState (PoolIteratorWrapper.new pool) =
        some (.ok (transactions, poolIterator))) :
    Chain.validateTransactionsOrder transactions = true := by
  unfold prepareTransactions at h
  split at h
  · cases h
  · split at h
    · cases h
    · obtain ⟨result, hloop, hresult⟩ := Option.map_eq_some_iff.mp h
      cases result with
      | error err => cases hresult
      | ok st' =>
          simp only [Except.map, Except.ok.injEq, Prod.mk.injEq] at hresult
          obtain ⟨rfl, -⟩ := hresult
          have hinv := prepareLoop_loopInv (pool.txKey hash) pool.storedTransactions checks
            chainValidate _ _ (loopInv_new hash pool stateUpdate chainValidateState hkeyed) hloop
          exact hinv.validateTransactionsOrder _ _ (txKey_congr hash pool) hinj

/-- A stand-in for the pool key hash: the length of the hashed bytes, which
tells the two signers below apart. -/
def lenHash (bytes : List UInt8) : CryptoHash := ⟨Vector.replicate 32 bytes.length.toUInt8⟩

def bobNonce1 : SignedTransaction :=
  ⟨⟨"bob", .ed25519 (Vector.replicate 32 0), 1⟩, ⟨Vector.replicate 32 1⟩, 10⟩

def aliceNonce1 : SignedTransaction :=
  ⟨⟨"alice", .ed25519 (Vector.replicate 32 0), 1⟩, ⟨Vector.replicate 32 2⟩, 10⟩

def aliceNonce2 : SignedTransaction :=
  ⟨⟨"alice", .ed25519 (Vector.replicate 32 0), 2⟩, ⟨Vector.replicate 32 3⟩, 10⟩

/-- Two groups under `lenHash`: bob's one transaction, and alice's two, stored
newest first. -/
def twoGroupPool : TransactionPool :=
  { transactions := (BTreeMap.empty.insert ⟨Vector.replicate 32 68⟩ [bobNonce1]).insert
      ⟨Vector.replicate 32 70⟩ [aliceNonce2, aliceNonce1]
    uniqueTransactions := {bobNonce1.getHash, aliceNonce1.getHash, aliceNonce2.getHash}
    keySeed := Vector.replicate 32 0
    lastUsedKey := CryptoHash.default
    totalTransactionSizeLimit := none
    totalTransactionSize := 30 }

def acceptingChecks : VerifierChecks Unit := ⟨fun _ _ => none, fun _ _ => .ok (5, ())⟩

/-- With an access key of nonce 0 and checks that accept everything, the
producer takes bob's transaction in the first round, then alice's in nonce
order over two rounds, and ends when the queue is empty. -/
theorem prepareTransactions_validOrder_twoGroups :
    (∀ k txs, twoGroupPool.transactions.get? k = some txs →
      ∀ t ∈ txs, twoGroupPool.txKey lenHash t = k) ∧
    (∀ t ∈ twoGroupPool.storedTransactions, ∀ t' ∈ twoGroupPool.storedTransactions,
      twoGroupPool.txKey lenHash t = twoGroupPool.txKey lenHash t' → t.accountKey = t'.accountKey) ∧
    ∃ it, prepareTransactions acceptingChecks (fun (_ : Unit) _ => (true, ())) 1 1 1000
        ⟨fun _ => some 0, ()⟩ () (PoolIteratorWrapper.new twoGroupPool) =
          some (.ok ([bobNonce1, aliceNonce1, aliceNonce2], it)) ∧
      Chain.validateTransactionsOrder [bobNonce1, aliceNonce1, aliceNonce2] = true := by
  have hentries : twoGroupPool.transactions.entries =
      [(⟨Vector.replicate 32 68⟩, [bobNonce1]), (⟨Vector.replicate 32 70⟩, [aliceNonce2, aliceNonce1])] := by
    decide
  have hkeyed : ∀ k txs, twoGroupPool.transactions.get? k = some txs →
      ∀ t ∈ txs, twoGroupPool.txKey lenHash t = k := by
    intro k txs hk
    rw [BTreeMap.get?_eq_some_iff, hentries] at hk
    rcases List.mem_pair.mp hk with hk | hk <;> obtain ⟨rfl, rfl⟩ := Prod.mk.inj hk <;> decide +kernel
  have hinj : ∀ t ∈ twoGroupPool.storedTransactions, ∀ t' ∈ twoGroupPool.storedTransactions,
      twoGroupPool.txKey lenHash t = twoGroupPool.txKey lenHash t' → t.accountKey = t'.accountKey := by
    decide +kernel
  have hsortBob : PoolIteratorWrapper.sortByNonceDesc [bobNonce1] = [bobNonce1] :=
    List.mergeSort_of_pairwise (by decide)
  have hsortAlice : PoolIteratorWrapper.sortByNonceDesc [aliceNonce2, aliceNonce1] =
      [aliceNonce2, aliceNonce1] :=
    List.mergeSort_of_pairwise (by decide)
  obtain ⟨it₁, it₁', it₂, it₂', it₃, it₃', it₄, hn₁, hg₁, hn₂, hg₂, hn₃, hg₃, hn₄⟩ :
      ∃ it₁ it₁' it₂ it₂' it₃ it₃' it₄,
        (PoolIteratorWrapper.new twoGroupPool).next = some (true, it₁) ∧
        it₁.groupNext = (some bobNonce1, it₁') ∧ it₁'.next = some (true, it₂) ∧
        it₂.groupNext = (some aliceNonce1, it₂') ∧ it₂'.next = some (true, it₃) ∧
        it₃.groupNext = (some aliceNonce2, it₃') ∧ it₃'.next = some (false, it₄) :=
    ⟨_, _, _, _, _, _, _, rfl, by rw [hsortBob]; rfl, rfl, by rw [hsortAlice]; rfl, rfl, rfl, rfl⟩
  have hrun : prepareTransactions acceptingChecks (fun (_ : Unit) _ => (true, ())) 1 1 1000
      ⟨fun _ => some 0, ()⟩ () (PoolIteratorWrapper.new twoGroupPool) =
        some (.ok ([bobNonce1, aliceNonce1, aliceNonce2], it₄)) := by
    have hadd : UInt64.checkedAdd 1 1 = some 2 := by decide
    simp only [prepareTransactions, hadd, show (2 : UInt64) ≠ 0 by decide, if_false]
    have hloop : prepareLoop acceptingChecks (fun (_ : Unit) _ => (true, ())) (1000 / 2) (1000 / 2 / 2)
        ⟨.new twoGroupPool, ⟨fun _ => some 0, ()⟩, (), 0, 0, []⟩ = some (.ok _) :=
      (prepareLoop_visit _ _ (by dsimp only; decide) hn₁ (pullTransactions_accept _ _ hg₁ rfl rfl rfl rfl)).trans
        ((prepareLoop_visit _ _ (by dsimp only; decide) hn₂ (pullTransactions_accept _ _ hg₂ rfl rfl rfl rfl)).trans
          ((prepareLoop_visit _ _ (by dsimp only; decide) hn₃
              (pullTransactions_accept _ _ hg₃ rfl rfl rfl rfl)).trans
            (prepareLoop_done _ _ (by dsimp only; decide) hn₄)))
    rw [hloop]
    rfl
  exact ⟨hkeyed, hinj, it₄, hrun,
    prepareTransactions_validOrder lenHash _ _ _ _ _ _ _ twoGroupPool hkeyed hinj _ _ hrun⟩

end Result

end Runtime
end Nearcore
