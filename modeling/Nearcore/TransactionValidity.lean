import Nearcore.Primitives

/-!
# The validity period of a transaction

`ChainStore::check_transaction_validity_period` (`chain/src/store.rs`) decides
whether a transaction whose `block_hash` is `base` may go into a chunk on top of
the block `prev`: `base` must lie on the chain of `prev`, at most
`validity_period` heights below it.  It decides by one of three paths: both
blocks on the canonical chain (the height index) and heights compared; `base` at
or below the last final height of `prev` and looked up in the index; or a walk
back from `prev` along `prev_hash` (`get_block_header_on_chain_by_height`).

Block heights are natural numbers; the addition `base_height + validity_period`
panics where it leaves `u64`.  The walk back runs on fuel, since on a store
whose heights do not grow from parent to child it need not end.

On a store whose headers form a tree with heights growing from parent to
child, whose height index lists one chain, and where the last final block of
`prev` lies on that chain and below `prev`, the three paths agree with "`base`
is `prev` or one of its ancestors, and not too old" except in one case: the
first path also accepts a `base` that lies on the indexed chain above `prev`
(`checkTransactionValidityPeriod_iff`, `checkTransactionValidityPeriod_accepts_descendant`).
-/

namespace Nearcore.Chain

/-- The fields of `BlockHeader` the check reads. -/
structure BlockHeader where
  hash : CryptoHash
  height : ℕ
  prevHash : CryptoHash
  lastFinalBlock : CryptoHash
  deriving DecidableEq, Repr

/-- What the check reads of the chain store: the headers by hash
(`DBCol::BlockHeader`), the canonical block hash by height
(`DBCol::BlockHeight`) and the genesis height. -/
structure ChainStore where
  headers : CryptoHash → Option BlockHeader
  blockHashByHeight : ℕ → Option CryptoHash
  genesisHeight : ℕ

/-- `InvalidTxError`, the two variants the check returns. -/
inductive InvalidTxError where
  | expired
  | invalidChain
  deriving DecidableEq, Repr

/-- How the check ends without `Ok(())`: an `InvalidTxError`, or the panic of
an addition that leaves `u64`. -/
inductive ValidityFailure where
  | invalidTx (error : InvalidTxError)
  | panic
  deriving DecidableEq, Repr

namespace ChainStore

variable (store : ChainStore)

/-- `get_block_height`: the genesis height for the all-zero hash, otherwise
the height of the stored header. -/
def getBlockHeight (hash : CryptoHash) : Option ℕ :=
  if hash = CryptoHash.default then some store.genesisHeight
  else (store.headers hash).map (·.height)

/-- The loop of `get_block_header_on_chain_by_height` from `header`, stored
under `hash`: walk back while above `height`; the header at `height`, or
`none` as the error where a header is missing or the walk steps over
`height`.  The outer `none` is fuel run out. -/
def walkBack : ℕ → CryptoHash → BlockHeader → ℕ → Option (Option BlockHeader)
  | 0, _, _, _ => none
  | fuel + 1, hash, header, height =>
      if height < header.height then
        match store.headers header.prevHash with
        | none => some none
        | some prev => walkBack fuel header.prevHash prev height
      else if header.height < height then some none
      else some (store.headers hash)

/-- `get_block_header_on_chain_by_height`. -/
def getBlockHeaderOnChainByHeight (fuel : ℕ) (syncHash : CryptoHash) (height : ℕ) :
    Option (Option BlockHeader) :=
  match store.headers syncHash with
  | none => some none
  | some header => store.walkBack fuel syncHash header height

/-- `base_height + validity_period`, which panics where it leaves `u64`. -/
def addHeight (a b : ℕ) : Except ValidityFailure ℕ :=
  if a + b < 2 ^ 64 then .ok (a + b) else .error .panic

/-- `ChainStore::check_transaction_validity_period`, its walk back on `fuel`. -/
def checkTransactionValidityPeriod (fuel : ℕ) (prevBlockHeader : BlockHeader)
    (baseBlockHash : CryptoHash) (validityPeriod : ℕ) : Option (Except ValidityFailure Unit) :=
  match store.headers baseBlockHash with
  | none => some (.error (.invalidTx .expired))
  | some base =>
      let baseHeight := base.height
      let prevHeight := prevBlockHeader.height
      -- both on the canonical chain: comparing heights is taken to be enough
      if store.blockHashByHeight baseHeight = some baseBlockHash ∧
          store.blockHashByHeight prevHeight = some prevBlockHeader.hash then
        some do
          let bound ← addHeight baseHeight validityPeriod
          if prevHeight ≤ bound then pure () else throw (.invalidTx .expired)
      else
        match store.getBlockHeight prevBlockHeader.lastFinalBlock with
        | none => some (.error (.invalidTx .invalidChain))
        | some lastFinalHeight =>
            match addHeight baseHeight validityPeriod with
            | .error e => some (.error e)
            | .ok bound =>
                if bound < prevHeight then some (.error (.invalidTx .expired))
                else if baseHeight ≤ lastFinalHeight then
                  -- below the final height the canonical chain is the chain of `prev`
                  match store.blockHashByHeight baseHeight with
                  | none => some (.error (.invalidTx .invalidChain))
                  | some hashByHeight =>
                      if hashByHeight = baseBlockHash then
                        some (if prevHeight ≤ bound then .ok () else .error (.invalidTx .expired))
                      else some (.error (.invalidTx .invalidChain))
                else
                  (store.getBlockHeaderOnChainByHeight fuel prevBlockHeader.hash baseHeight).map
                    fun header => match header with
                      | some header =>
                          if header.hash = baseBlockHash then .ok ()
                          else .error (.invalidTx .invalidChain)
                      | none => .error (.invalidTx .invalidChain)

/-- `a` is the block `h` or one of its ancestors, with every header on the way
stored. -/
inductive IsAncestor (a : CryptoHash) : CryptoHash → Prop
  | refl {header : BlockHeader} (hstored : store.headers a = some header) : IsAncestor a a
  | parent {h : CryptoHash} {header : BlockHeader} (hstored : store.headers h = some header)
      (hanc : IsAncestor a header.prevHash) : IsAncestor a h

/-- A store as the chain keeps it: every header is stored under its own
hash and none under the all-zero hash, a parent is lower than its child, and
the height index lists the blocks of the chain ending at `tip`, each at its
height. -/
structure WellFormed (tip : CryptoHash) : Prop where
  hash_eq : ∀ h header, store.headers h = some header → header.hash = h
  default_none : store.headers CryptoHash.default = none
  parent_lt : ∀ h header parent, store.headers h = some header →
    store.headers header.prevHash = some parent → parent.height < header.height
  index_iff : ∀ height h, store.blockHashByHeight height = some h ↔
    store.IsAncestor h tip ∧ ∃ header, store.headers h = some header ∧ header.height = height

section Ancestry

variable {store} {tip a b c h : CryptoHash}

theorem IsAncestor.stored (hanc : store.IsAncestor a h) : ∃ header, store.headers a = some header := by
  induction hanc with
  | refl hstored => exact ⟨_, hstored⟩
  | parent _ _ ih => exact ih

theorem IsAncestor.target_stored (hanc : store.IsAncestor a h) :
    ∃ header, store.headers h = some header := by
  cases hanc with
  | refl hstored => exact ⟨_, hstored⟩
  | parent hstored _ => exact ⟨_, hstored⟩

theorem IsAncestor.eq_or_prev {header : BlockHeader} (hanc : store.IsAncestor a h)
    (hstored : store.headers h = some header) : a = h ∨ store.IsAncestor a header.prevHash := by
  cases hanc with
  | refl _ => exact .inl rfl
  | parent hstored' hanc =>
      rw [hstored, Option.some.injEq] at hstored'
      subst hstored'
      exact .inr hanc

theorem IsAncestor.trans (hab : store.IsAncestor a b) (hbc : store.IsAncestor b c) :
    store.IsAncestor a c := by
  induction hbc with
  | refl _ => exact hab
  | parent hstored _ ih => exact .parent hstored ih

theorem IsAncestor.total (ha : store.IsAncestor a h) (hb : store.IsAncestor b h) :
    store.IsAncestor a b ∨ store.IsAncestor b a := by
  induction ha with
  | refl _ => exact .inr hb
  | parent hstored hanc ih =>
      rcases hb.eq_or_prev hstored with rfl | hb
      · exact .inl (.parent hstored hanc)
      · exact ih hb

theorem IsAncestor.height_le (hwf : store.WellFormed tip) (hanc : store.IsAncestor a h)
    {headerA headerH : BlockHeader} (ha : store.headers a = some headerA)
    (hh : store.headers h = some headerH) :
    headerA.height ≤ headerH.height ∧ (a ≠ h → headerA.height < headerH.height) := by
  induction hanc generalizing headerH with
  | refl hstored =>
      rw [ha, Option.some.injEq] at hh
      subst hh
      exact ⟨le_refl _, fun hne => absurd rfl hne⟩
  | parent hstored hanc ih =>
      rw [hh, Option.some.injEq] at hstored
      subst hstored
      obtain ⟨parent, hparent⟩ := hanc.target_stored
      have hlt := hwf.parent_lt _ _ _ hh hparent
      have hle := (ih hparent).1
      exact ⟨by omega, fun _ => by omega⟩

theorem IsAncestor.eq_of_height_eq (hwf : store.WellFormed tip) (ha : store.IsAncestor a h)
    (hb : store.IsAncestor b h) {headerA headerB : BlockHeader} (hsa : store.headers a = some headerA)
    (hsb : store.headers b = some headerB) (heq : headerA.height = headerB.height) : a = b := by
  by_contra hne
  rcases ha.total hb with hab | hba
  · have := (hab.height_le hwf hsa hsb).2 hne
    omega
  · have := (hba.height_le hwf hsb hsa).2 (Ne.symm hne)
    omega

theorem IsAncestor.of_height_le (hwf : store.WellFormed tip) (ha : store.IsAncestor a h)
    (hb : store.IsAncestor b h) {headerA headerB : BlockHeader} (hsa : store.headers a = some headerA)
    (hsb : store.headers b = some headerB) (hle : headerA.height ≤ headerB.height) :
    store.IsAncestor a b := by
  rcases ha.total hb with hab | hba
  · exact hab
  · have hge := (hba.height_le hwf hsb hsa).1
    rw [ha.eq_of_height_eq hwf hb hsa hsb (by omega)]
    exact .refl hsb

/-- With more fuel than the height it starts from, the walk back ends, and
finds the block of the chain of `h` at `height`, if there is one. -/
theorem walkBack_spec (hwf : store.WellFormed tip) {fuel : ℕ} {header : BlockHeader}
    (hstored : store.headers h = some header) (hfuel : header.height < fuel) (height : ℕ) :
    ∃ r, store.walkBack fuel h header height = some r ∧
      ∀ x, r = some x ↔ store.headers x.hash = some x ∧ store.IsAncestor x.hash h ∧ x.height = height := by
  induction fuel generalizing h header with
  | zero => omega
  | succ fuel ih =>
      rw [walkBack]
      split
      · next habove =>
          have hbelow : ∀ x : BlockHeader, store.headers x.hash = some x →
              store.IsAncestor x.hash h → x.height = height →
              store.IsAncestor x.hash header.prevHash := by
            intro x hxs hx hxh
            rcases hx.eq_or_prev hstored with hxe | hx'
            · rw [hxe, hstored, Option.some.injEq] at hxs
              subst hxs
              omega
            · exact hx'
          cases hparent : store.headers header.prevHash with
          | none =>
              refine ⟨none, rfl, fun x => ⟨fun hx => (nomatch hx), fun ⟨hxs, hx, hxh⟩ => ?_⟩⟩
              obtain ⟨p, hp⟩ := (hbelow x hxs hx hxh).target_stored
              rw [hparent] at hp
              cases hp
          | some parent =>
              have hlt := hwf.parent_lt _ _ _ hstored hparent
              obtain ⟨r, hr, hspec⟩ := ih hparent (by omega)
              refine ⟨r, hr, fun x => (hspec x).trans ⟨?_, ?_⟩⟩
              · rintro ⟨hx, hanc, hxh⟩
                exact ⟨hx, .parent hstored hanc, hxh⟩
              · rintro ⟨hx, hanc, hxh⟩
                exact ⟨hx, hbelow x hx hanc hxh, hxh⟩
      · next hnotAbove =>
          split
          · next hbelowHeight =>
              refine ⟨none, rfl, fun x => ⟨fun hx => (nomatch hx), fun ⟨hx, hanc, hxh⟩ => ?_⟩⟩
              have := (hanc.height_le hwf hx hstored).1
              omega
          · next hnotBelow =>
              refine ⟨store.headers h, rfl, fun x => ⟨fun hx => ?_, fun ⟨hx, hanc, hxh⟩ => ?_⟩⟩
              · rw [hstored, Option.some.injEq] at hx
                subst hx
                rw [hwf.hash_eq _ _ hstored]
                exact ⟨hstored, .refl hstored, by omega⟩
              · have hxe : x.hash = h :=
                  hanc.eq_of_height_eq hwf (.refl hstored) hx hstored (by omega)
                rw [← hxe]
                exact hx

/-- A stored block is in the height index exactly when it lies on the chain of
`tip`. -/
theorem WellFormed.index_iff_onChain (hwf : store.WellFormed tip) {header : BlockHeader}
    (hstored : store.headers h = some header) :
    store.blockHashByHeight header.height = some h ↔ store.IsAncestor h tip := by
  rw [hwf.index_iff]
  exact ⟨fun hon => hon.1, fun hon => ⟨hon, header, hstored, rfl⟩⟩

theorem WellFormed.getBlockHeight_of_stored (hwf : store.WellFormed tip) {header : BlockHeader}
    (hstored : store.headers h = some header) : store.getBlockHeight h = some header.height := by
  have hne : h ≠ CryptoHash.default := by
    rintro rfl
    rw [hwf.default_none] at hstored
    cases hstored
  simp [getBlockHeight, hne, hstored]

/-- At or below the height of a final ancestor of `prev` on the indexed chain,
the ancestors of `prev` are the indexed blocks. -/
theorem ancestor_iff_index_of_le_final (hwf : store.WellFormed tip) {prev : BlockHeader}
    {final : CryptoHash} {finalHeader baseHeader : BlockHeader}
    (hfinal : store.IsAncestor final prev.hash) (hfinalTip : store.IsAncestor final tip)
    (hfinalStored : store.headers final = some finalHeader)
    (hbase : store.headers a = some baseHeader) (hle : baseHeader.height ≤ finalHeader.height) :
    store.IsAncestor a prev.hash ↔ store.blockHashByHeight baseHeader.height = some a := by
  rw [hwf.index_iff_onChain hbase]
  constructor
  · intro hanc
    exact (hanc.of_height_le hwf hfinal hbase hfinalStored hle).trans hfinalTip
  · intro hon
    exact (hon.of_height_le hwf hfinalTip hbase hfinalStored hle).trans hfinal

end Ancestry

section Check

variable {store} {tip : CryptoHash}

/-- The walk back from `prev` to the height of a stored `base` accepts it
exactly when it is an ancestor of `prev`. -/
theorem walk_accepts_iff (hwf : store.WellFormed tip) {prev baseHeader : BlockHeader} {base : CryptoHash}
    (hprev : store.headers prev.hash = some prev) (hbase : store.headers base = some baseHeader)
    {fuel : ℕ} (hfuel : prev.height < fuel) :
    ∃ r, (store.getBlockHeaderOnChainByHeight fuel prev.hash baseHeader.height).map
        (fun header => match header with
          | some header =>
              if header.hash = base then (.ok () : Except ValidityFailure Unit)
              else .error (.invalidTx .invalidChain)
          | none => .error (.invalidTx .invalidChain)) = some r ∧
      r ≠ .error .panic ∧ (r = .ok () ↔ store.IsAncestor base prev.hash) := by
  obtain ⟨r, hr, hspec⟩ := walkBack_spec hwf hprev hfuel baseHeader.height
  have hbaseHash := hwf.hash_eq _ _ hbase
  unfold getBlockHeaderOnChainByHeight
  rw [hprev]
  dsimp only
  rw [hr, Option.map_some]
  cases r with
  | none =>
      refine ⟨_, rfl, by simp, ⟨fun hok => (by cases hok), fun hanc => ?_⟩⟩
      have := (hspec baseHeader).mpr ⟨hbaseHash ▸ hbase, hbaseHash ▸ hanc, rfl⟩
      cases this
  | some x =>
      obtain ⟨hxs, hxanc, hxh⟩ := (hspec x).mp rfl
      dsimp only
      split
      · next hxb =>
          rw [hxb] at hxanc
          exact ⟨_, rfl, by simp, ⟨fun _ => hxanc, fun _ => rfl⟩⟩
      · next hxb =>
          refine ⟨_, rfl, by simp, ⟨fun hok => (by cases hok), fun hanc => ?_⟩⟩
          have hfound := (hspec baseHeader).mpr ⟨hbaseHash ▸ hbase, hbaseHash ▸ hanc, rfl⟩
          rw [Option.some.injEq] at hfound
          exact absurd (hfound ▸ hbaseHash) hxb

/-- On a well formed store, with enough fuel and no overflow of
`base_height + validity_period`, the check ends without a panic and accepts
`base` exactly when it is stored, not too old, and either an ancestor of
`prev` (or `prev` itself) or, with `prev`, on the indexed chain. -/
theorem checkTransactionValidityPeriod_iff (hwf : store.WellFormed tip) {prev : BlockHeader}
    (hprev : store.headers prev.hash = some prev)
    (hfinal : store.IsAncestor prev.lastFinalBlock prev.hash)
    (hfinalTip : store.IsAncestor prev.lastFinalBlock tip)
    {fuel : ℕ} (hfuel : prev.height < fuel) (base : CryptoHash) (validityPeriod : ℕ)
    (hfit : ∀ header, store.headers base = some header → header.height + validityPeriod < 2 ^ 64) :
    ∃ r, store.checkTransactionValidityPeriod fuel prev base validityPeriod = some r ∧
      r ≠ .error .panic ∧
      (r = .ok () ↔ ∃ baseHeader, store.headers base = some baseHeader ∧
        prev.height ≤ baseHeader.height + validityPeriod ∧
        (store.IsAncestor base prev.hash ∨
          (store.IsAncestor base tip ∧ store.IsAncestor prev.hash tip))) := by
  unfold checkTransactionValidityPeriod
  cases hbase : store.headers base with
  | none =>
      exact ⟨_, rfl, by simp, by simp⟩
  | some baseHeader =>
      dsimp only
      have hadd : addHeight baseHeader.height validityPeriod =
          .ok (baseHeader.height + validityPeriod) := by
        unfold addHeight
        rw [if_pos (hfit baseHeader hbase)]
      have hbaseOn := hwf.index_iff_onChain hbase
      have hprevOn := hwf.index_iff_onChain hprev
      have hiff : (∃ header, some baseHeader = some header ∧
            prev.height ≤ header.height + validityPeriod ∧
            (store.IsAncestor base prev.hash ∨
              (store.IsAncestor base tip ∧ store.IsAncestor prev.hash tip))) ↔
          prev.height ≤ baseHeader.height + validityPeriod ∧
            (store.IsAncestor base prev.hash ∨
              (store.IsAncestor base tip ∧ store.IsAncestor prev.hash tip)) := by
        simp
      simp only [hiff]
      split
      · next hfast =>
          -- both on the indexed chain: the heights decide
          rw [hbaseOn, hprevOn] at hfast
          rw [hadd]
          have hresult : (do
                let bound ← (Except.ok (baseHeader.height + validityPeriod) :
                  Except ValidityFailure ℕ)
                if prev.height ≤ bound then pure () else throw (ValidityFailure.invalidTx .expired)) =
              if prev.height ≤ baseHeader.height + validityPeriod then .ok ()
              else .error (ValidityFailure.invalidTx .expired) := rfl
          rw [hresult]
          refine ⟨_, rfl, ?_, ?_⟩
          · split <;> simp
          · split <;> simp [*]
      · next hslow =>
          rw [hbaseOn, hprevOn] at hslow
          obtain ⟨finalHeader, hfinalStored⟩ := hfinal.stored
          rw [hwf.getBlockHeight_of_stored hfinalStored, hadd]
          dsimp only
          split
          · next hold =>
              exact ⟨_, rfl, by simp, by simp; omega⟩
          · next hnotOld =>
              have hrecent : prev.height ≤ baseHeader.height + validityPeriod := by omega
              simp only [hrecent, true_and, hslow, or_false]
              split
              · next hlow =>
                  -- at or below the final height: the index decides
                  have hanc := ancestor_iff_index_of_le_final hwf hfinal hfinalTip hfinalStored
                    hbase hlow
                  cases hidx : store.blockHashByHeight baseHeader.height with
                  | none =>
                      rw [hidx] at hanc
                      exact ⟨_, rfl, by simp, by simp [hanc]⟩
                  | some hashByHeight =>
                      rw [hidx] at hanc
                      dsimp only
                      split
                      · next heq =>
                          subst heq
                          exact ⟨_, rfl, by simp, by simp [hanc]⟩
                      · next hne =>
                          refine ⟨_, rfl, by simp, ?_⟩
                          simp only [hanc, Option.some.injEq, reduceCtorEq, false_iff]
                          exact hne
              · next hhigh =>
                  -- above the final height: the walk back decides
                  exact walk_accepts_iff hwf hprev hbase hfuel

end Check

/-- Three blocks on the indexed chain: genesis, then `prev`, then `base`. -/
def threeBlockChain : ChainStore where
  headers h :=
    if h = ⟨Vector.replicate 32 1⟩ then
      some ⟨⟨Vector.replicate 32 1⟩, 0, CryptoHash.default, CryptoHash.default⟩
    else if h = ⟨Vector.replicate 32 2⟩ then
      some ⟨⟨Vector.replicate 32 2⟩, 1, ⟨Vector.replicate 32 1⟩, ⟨Vector.replicate 32 1⟩⟩
    else if h = ⟨Vector.replicate 32 3⟩ then
      some ⟨⟨Vector.replicate 32 3⟩, 2, ⟨Vector.replicate 32 2⟩, ⟨Vector.replicate 32 1⟩⟩
    else none
  blockHashByHeight n :=
    if n = 0 then some ⟨Vector.replicate 32 1⟩
    else if n = 1 then some ⟨Vector.replicate 32 2⟩
    else if n = 2 then some ⟨Vector.replicate 32 3⟩
    else none
  genesisHeight := 0

theorem threeBlockChain_headers :
    threeBlockChain.headers ⟨Vector.replicate 32 1⟩ =
        some ⟨⟨Vector.replicate 32 1⟩, 0, CryptoHash.default, CryptoHash.default⟩ ∧
      threeBlockChain.headers ⟨Vector.replicate 32 2⟩ =
        some ⟨⟨Vector.replicate 32 2⟩, 1, ⟨Vector.replicate 32 1⟩, ⟨Vector.replicate 32 1⟩⟩ ∧
      threeBlockChain.headers ⟨Vector.replicate 32 3⟩ =
        some ⟨⟨Vector.replicate 32 3⟩, 2, ⟨Vector.replicate 32 2⟩, ⟨Vector.replicate 32 1⟩⟩ := by
  have h12 : (⟨Vector.replicate 32 2⟩ : CryptoHash) ≠ ⟨Vector.replicate 32 1⟩ := by decide +kernel
  have h13 : (⟨Vector.replicate 32 3⟩ : CryptoHash) ≠ ⟨Vector.replicate 32 1⟩ := by decide +kernel
  have h23 : (⟨Vector.replicate 32 3⟩ : CryptoHash) ≠ ⟨Vector.replicate 32 2⟩ := by decide +kernel
  exact ⟨by simp [threeBlockChain], by simp [threeBlockChain, h12],
    by simp [threeBlockChain, h13, h23]⟩

theorem threeBlockChain_wellFormed : threeBlockChain.WellFormed ⟨Vector.replicate 32 3⟩ := by
  obtain ⟨hg, hp, hb⟩ := threeBlockChain_headers
  have hdefault : threeBlockChain.headers CryptoHash.default = none := by decide +kernel
  have hchain : ∀ h, threeBlockChain.IsAncestor h ⟨Vector.replicate 32 3⟩ →
      h = ⟨Vector.replicate 32 3⟩ ∨ h = ⟨Vector.replicate 32 2⟩ ∨ h = ⟨Vector.replicate 32 1⟩ := by
    intro h hanc
    rcases hanc.eq_or_prev hb with rfl | hanc
    · exact .inl rfl
    rcases hanc.eq_or_prev hp with rfl | hanc
    · exact .inr (.inl rfl)
    rcases hanc.eq_or_prev hg with rfl | hanc
    · exact .inr (.inr rfl)
    obtain ⟨header, hstored⟩ := hanc.target_stored
    rw [hdefault] at hstored
    cases hstored
  have hgAnc : threeBlockChain.IsAncestor ⟨Vector.replicate 32 1⟩ ⟨Vector.replicate 32 3⟩ :=
    .parent hb (.parent hp (.refl hg))
  have hpAnc : threeBlockChain.IsAncestor ⟨Vector.replicate 32 2⟩ ⟨Vector.replicate 32 3⟩ :=
    .parent hb (.refl hp)
  refine ⟨?_, hdefault, ?_, ?_⟩
  · intro h header hstored
    simp only [threeBlockChain] at hstored
    split_ifs at hstored with h1 h2 h3 <;> cases hstored <;> simp [*]
  · intro h header parent hstored hparent
    simp only [threeBlockChain] at hstored
    split_ifs at hstored <;> cases hstored
    · rw [hdefault] at hparent
      cases hparent
    · rw [hg] at hparent
      cases hparent
      decide
    · rw [hp] at hparent
      cases hparent
      decide
  · intro height h
    constructor
    · intro hidx
      simp only [threeBlockChain] at hidx
      split_ifs at hidx <;> cases hidx <;> subst_vars
      · exact ⟨hgAnc, _, hg, rfl⟩
      · exact ⟨hpAnc, _, hp, rfl⟩
      · exact ⟨.refl hb, _, hb, rfl⟩
    · rintro ⟨hanc, header, hstored, rfl⟩
      rcases hchain h hanc with rfl | rfl | rfl
      · rw [hb, Option.some.injEq] at hstored
        subst hstored
        rfl
      · rw [hp, Option.some.injEq] at hstored
        subst hstored
        rfl
      · rw [hg, Option.some.injEq] at hstored
        subst hstored
        rfl

/-- The first path accepts a `base` above `prev`: on the chain genesis, `prev`,
`base`, all in the height index and with genesis the last final block of
`prev`, a transaction based on `base` passes the check on top of `prev`,
although `base` is not `prev` nor one of its ancestors. -/
theorem checkTransactionValidityPeriod_accepts_descendant :
    threeBlockChain.WellFormed ⟨Vector.replicate 32 3⟩ ∧
      threeBlockChain.headers ⟨Vector.replicate 32 2⟩ =
        some ⟨⟨Vector.replicate 32 2⟩, 1, ⟨Vector.replicate 32 1⟩, ⟨Vector.replicate 32 1⟩⟩ ∧
      threeBlockChain.IsAncestor ⟨Vector.replicate 32 1⟩ ⟨Vector.replicate 32 2⟩ ∧
      threeBlockChain.IsAncestor ⟨Vector.replicate 32 1⟩ ⟨Vector.replicate 32 3⟩ ∧
      threeBlockChain.checkTransactionValidityPeriod 2
          ⟨⟨Vector.replicate 32 2⟩, 1, ⟨Vector.replicate 32 1⟩, ⟨Vector.replicate 32 1⟩⟩
          ⟨Vector.replicate 32 3⟩ 0 = some (.ok ()) ∧
      ¬ threeBlockChain.IsAncestor ⟨Vector.replicate 32 3⟩ ⟨Vector.replicate 32 2⟩ := by
  obtain ⟨hg, hp, hb⟩ := threeBlockChain_headers
  refine ⟨threeBlockChain_wellFormed, hp, .parent hp (.refl hg), .parent hb (.parent hp (.refl hg)),
    by decide +kernel, fun hanc => ?_⟩
  have := (hanc.height_le threeBlockChain_wellFormed hb hp).1
  simp at this

end ChainStore

end Nearcore.Chain
