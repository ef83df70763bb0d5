import Mathlib.Data.List.MinMax
import Nearcore.LruCache
import Nearcore.RouteBackCache

/-!
# The routing table view

`RoutingTableView` (`chain/network/src/routing/routing_table_view/mod.rs`) answers where to
send a message. For a peer it looks up the next hops of the last routing table and picks the
one routed to least recently: `last_routed` records, in an LRU cache, the value of the counter
`find_route_calls` at each peer's last selection, a peer it does not hold counting as `0`. For a
hash it takes the peer out of the route-back cache. It also caches the accounts' announcements
in front of the store, and remembers which it has broadcast.

The store is the map of account announcements it reads and writes; its I/O errors are left out.
Instants are natural numbers and each call reads the clock once, as in `RouteBackCache`.
-/

namespace Nearcore.Network

/-- `ANNOUNCE_ACCOUNT_CACHE_SIZE`. -/
def ANNOUNCE_ACCOUNT_CACHE_SIZE : ℕ := 10000

/-- `LAST_ROUTED_CACHE_SIZE`. -/
def LAST_ROUTED_CACHE_SIZE : ℕ := 10000

/-- `DEFAULT_CAPACITY` of the route-back cache. -/
def DEFAULT_CAPACITY : ℕ := 100000

/-- `DEFAULT_CACHE_EVICT_TIMEOUT`, in milliseconds. -/
def DEFAULT_CACHE_EVICT_TIMEOUT : ℕ := 120000

/-- `DEFAULT_REMOVE_BATCH_SIZE`. -/
def DEFAULT_REMOVE_BATCH_SIZE : ℕ := 100

/-- The fields of `AnnounceAccount` the table reads. -/
structure AnnounceAccount (A P E : Type) where
  accountId : A
  peerId : P
  epochId : E
  deriving DecidableEq, Repr

/-- `FindRouteError`. -/
inductive FindRouteError
  | peerUnreachable
  | routeBackNotFound
  deriving DecidableEq, Repr

/-- `PeerIdOrHash`. -/
inductive PeerIdOrHash (P H : Type)
  | peerId (peer : P)
  | hash (hash : H)

/-- `routing_table_view::Inner`; the `NextHopTable` is the list of its entries. -/
structure RoutingTableView (A P H E : Type) [LinearOrder P] [LinearOrder H] where
  accountPeers : LruCache A (AnnounceAccount A P E)
  accountPeersBroadcasted : LruCache A (AnnounceAccount A P E)
  nextHops : List (P × List P)
  routeBack : RouteBackCache P H
  store : A → Option (AnnounceAccount A P E)
  findRouteCalls : ℕ
  lastRouted : LruCache P ℕ

namespace RoutingTableView

variable {A P H E : Type} [LinearOrder P] [LinearOrder H]

/-- `RoutingTableView::new`, over the announcements the store holds. -/
def new [OrderBot H] (store : A → Option (AnnounceAccount A P E)) : Option (RoutingTableView A P H E) := do
  let routeBack ← RouteBackCache.new DEFAULT_CAPACITY DEFAULT_CACHE_EVICT_TIMEOUT
    DEFAULT_REMOVE_BATCH_SIZE
  pure
    { accountPeers := .new ANNOUNCE_ACCOUNT_CACHE_SIZE (by decide)
      accountPeersBroadcasted := .new ANNOUNCE_ACCOUNT_CACHE_SIZE (by decide)
      nextHops := []
      routeBack
      store
      findRouteCalls := 0
      lastRouted := .new LAST_ROUTED_CACHE_SIZE (by decide) }

/-- The next hops of a peer in the `NextHopTable`. -/
def hopsOf (s : RoutingTableView A P H E) (peer : P) : Option (List P) :=
  (s.nextHops.find? fun e => e.1 = peer).map Prod.snd

/-- The key `min_by_key` ranks a peer by: its last selection, or `0`. -/
def lastRoutedKey (lastRouted : LruCache P ℕ) (p : P) : ℕ := (lastRouted.peek p).getD 0

/-- One peer of `peers.iter().min_by_key(|p| self.last_routed.get(*p).copied().unwrap_or(0))`:
the least so far with its key, the first one on ties, and the cache, in which `get` has moved
the peer to the front. -/
def minByStep (acc : Option (P × ℕ) × LruCache P ℕ) (p : P) :
    Option (P × ℕ) × LruCache P ℕ :=
  let (v, lastRouted) := acc.2.get p
  let key := v.getD 0
  (match acc.1 with
    | some (q, least) => if key < least then some (p, key) else some (q, least)
    | none => some (p, key), lastRouted)

/-- `Inner::find_route_from_peer_id`. -/
def findRouteFromPeerId (s : RoutingTableView A P H E) (peerId : P) :
    Except FindRouteError (P × RoutingTableView A P H E) :=
  match s.hopsOf peerId with
  | none => .error .peerUnreachable
  | some peers =>
      match peers.foldl minByStep (none, s.lastRouted) with
      | (none, _) => .error .peerUnreachable
      | (some (nextHop, _), lastRouted) =>
          .ok (nextHop, { s with
            lastRouted := lastRouted.put nextHop s.findRouteCalls
            findRouteCalls := s.findRouteCalls + 1 })

/-- `RoutingTableView::find_route` at the instant `now`: the answer and the view afterwards;
`none` where the route-back cache panics. -/
def findRoute [OrderBot H] (s : RoutingTableView A P H E) (now : ℕ) :
    PeerIdOrHash P H → Option (Except FindRouteError P × RoutingTableView A P H E)
  | .peerId peerId =>
      match s.findRouteFromPeerId peerId with
      | .ok (nextHop, s') => some (.ok nextHop, s')
      | .error e => some (.error e, s)
  | .hash hash => do
      let (routeBack, target) ← s.routeBack.remove now hash
      pure (match target with
        | some peer => .ok peer
        | none => .error .routeBackNotFound, { s with routeBack })

/-- `RoutingTableView::update`. -/
def update (s : RoutingTableView A P H E) (nextHops : List (P × List P)) :
    RoutingTableView A P H E :=
  { s with nextHops }

/-- `RoutingTableView::add_route_back`; `none` where the route-back cache panics. -/
def addRouteBack [OrderBot H] (s : RoutingTableView A P H E) (now : ℕ) (hash : H) (peer : P) :
    Option (RoutingTableView A P H E) := do
  let routeBack ← s.routeBack.insert now hash peer
  pure { s with routeBack }

/-- `Inner::get_announce`: the cached announcement, or the stored one, which it then caches. -/
def getAnnounce [DecidableEq A] (s : RoutingTableView A P H E) (accountId : A) :
    Option (AnnounceAccount A P E) × RoutingTableView A P H E :=
  let cached := s.accountPeers.get accountId
  match cached.1 with
  | some aa => (some aa, { s with accountPeers := cached.2 })
  | none =>
      match s.store accountId with
      | some aa => (some aa, { s with accountPeers := cached.2.put accountId aa })
      | none => (none, { s with accountPeers := cached.2 })

/-- `RoutingTableView::account_owner`. -/
def accountOwner [DecidableEq A] (s : RoutingTableView A P H E) (accountId : A) :
    Option P × RoutingTableView A P H E :=
  let (aa, s) := s.getAnnounce accountId
  (aa.map AnnounceAccount.peerId, s)

/-- One announcement of the loop of `add_accounts`: skipped when the one broadcast for its
account has its epoch, and otherwise cached, stored and returned. -/
def addAccountsStep [DecidableEq A] [DecidableEq E] (acc : RoutingTableView A P H E × List (AnnounceAccount A P E))
    (aa : AnnounceAccount A P E) : RoutingTableView A P H E × List (AnnounceAccount A P E) :=
  let broadcast := acc.1.accountPeersBroadcasted.get aa.accountId
  if broadcast.1.map AnnounceAccount.epochId = some aa.epochId then
    ({ acc.1 with accountPeersBroadcasted := broadcast.2 }, acc.2)
  else
    ({ acc.1 with
        accountPeers := acc.1.accountPeers.put aa.accountId aa
        accountPeersBroadcasted := broadcast.2.put aa.accountId aa
        store := Function.update acc.1.store aa.accountId (some aa) }, acc.2 ++ [aa])

/-- `RoutingTableView::add_accounts`: the view afterwards and the announcements to broadcast. -/
def addAccounts [DecidableEq A] [DecidableEq E] (s : RoutingTableView A P H E) (aas : List (AnnounceAccount A P E)) :
    RoutingTableView A P H E × List (AnnounceAccount A P E) :=
  aas.foldl addAccountsStep (s, [])

/-! ## Choosing the next hop -/

section FindRoute

variable {s : RoutingTableView A P H E}

/-- The loop of `min_by_key` computes `List.argmin` of the keys the cache held before it, and
leaves the cache as a run of `get`s does. -/
theorem foldl_minByStep (c : LruCache P ℕ) :
    ∀ (peers : List P) (m : Option P) (c' : LruCache P ℕ), (∀ k, c'.peek k = c.peek k) →
      peers.foldl minByStep (m.map fun q => (q, lastRoutedKey c q), c') =
        ((peers.foldl (List.argAux fun b d => lastRoutedKey c b < lastRoutedKey c d) m).map
          (fun q => (q, lastRoutedKey c q)), peers.foldl (fun c p => (c.get p).2) c')
  | [], _, _, _ => rfl
  | p :: peers, m, c', hc' => by
      have hkey : (c'.peek p).getD 0 = lastRoutedKey c p := by
        rw [hc']
        rfl
      have hstep : minByStep (m.map fun q => (q, lastRoutedKey c q), c') p =
          ((List.argAux (fun b d => lastRoutedKey c b < lastRoutedKey c d) m p).map
            (fun q => (q, lastRoutedKey c q)), (c'.get p).2) := by
        cases m with
        | none => simp [minByStep, List.argAux, hkey]
        | some q =>
            simp only [minByStep, Option.map_some, LruCache.get_fst, hkey, List.argAux]
            split_ifs <;> rfl
      rw [List.foldl_cons, List.foldl_cons, List.foldl_cons, hstep]
      exact foldl_minByStep c peers _ _ fun k => (LruCache.peek_get p k).trans (hc' k)

theorem foldl_minByStep_none (c : LruCache P ℕ) (peers : List P) :
    peers.foldl minByStep (none, c) =
      ((peers.argmin (lastRoutedKey c)).map (fun q => (q, lastRoutedKey c q)),
        peers.foldl (fun c p => (c.get p).2) c) :=
  foldl_minByStep c peers none c fun _ => rfl

/-- `find_route_from_peer_id` on a peer with next hops picks the first of them routed to least
recently, stamps it with the counter and counts the call. -/
theorem findRouteFromPeerId_eq {peer : P} {hops : List P} (hhops : s.hopsOf peer = some hops)
    {next : P} (hmin : hops.argmin (lastRoutedKey s.lastRouted) = some next) :
    s.findRouteFromPeerId peer = .ok (next, { s with
      lastRouted := (hops.foldl (fun c p => (c.get p).2) s.lastRouted).put next s.findRouteCalls
      findRouteCalls := s.findRouteCalls + 1 }) := by
  simp [findRouteFromPeerId, hhops, foldl_minByStep_none, hmin]

theorem findRouteFromPeerId_eq_ok {peer next : P} {s' : RoutingTableView A P H E}
    (hcall : s.findRouteFromPeerId peer = .ok (next, s')) :
    ∃ hops, s.hopsOf peer = some hops ∧ hops.argmin (lastRoutedKey s.lastRouted) = some next ∧
      s' = { s with
        lastRouted := (hops.foldl (fun c p => (c.get p).2) s.lastRouted).put next s.findRouteCalls
        findRouteCalls := s.findRouteCalls + 1 } := by
  cases hhops : s.hopsOf peer with
  | none => simp [findRouteFromPeerId, hhops] at hcall
  | some hops =>
      cases hmin : hops.argmin (lastRoutedKey s.lastRouted) with
      | none => simp [findRouteFromPeerId, hhops, foldl_minByStep_none, hmin] at hcall
      | some h =>
          rw [findRouteFromPeerId_eq hhops hmin, Except.ok.injEq, Prod.mk.injEq] at hcall
          obtain ⟨rfl, rfl⟩ := hcall
          exact ⟨hops, rfl, hmin, rfl⟩

/-- Every stamp `last_routed` holds is of a call before the current one. -/
def LastRoutedBelow (s : RoutingTableView A P H E) : Prop :=
  ∀ p v, s.lastRouted.peek p = some v → v < s.findRouteCalls

theorem LastRoutedBelow.findRouteFromPeerId (h : s.LastRoutedBelow) {peer next : P}
    {s' : RoutingTableView A P H E} (hcall : s.findRouteFromPeerId peer = .ok (next, s')) :
    s'.LastRoutedBelow := by
  obtain ⟨hops, -, -, rfl⟩ := findRouteFromPeerId_eq_ok hcall
  intro p v hv
  rcases LruCache.peek_put_eq_some hv with ⟨-, rfl⟩ | hv
  · exact Nat.lt_succ_self _
  · rw [(LruCache.peek_foldl_get hops p).1] at hv
    exact Nat.lt_succ_of_lt (h p v hv)

/-- `n` calls of `find_route_from_peer_id` to one peer in a row: the hops chosen and the view
afterwards. -/
def findRoutes (s : RoutingTableView A P H E) (peer : P) :
    ℕ → Except FindRouteError (List P × RoutingTableView A P H E)
  | 0 => .ok ([], s)
  | n + 1 => do
      let (next, s) ← s.findRouteFromPeerId peer
      let (nexts, s) ← s.findRoutes peer n
      pure (next :: nexts, s)

theorem findRoutes_succ {peer next : P} {s₁ : RoutingTableView A P H E}
    (hcall : s.findRouteFromPeerId peer = .ok (next, s₁)) (n : ℕ) :
    s.findRoutes peer (n + 1) = (fun r => (next :: r.1, r.2)) <$> s₁.findRoutes peer n := by
  rw [findRoutes, hcall]
  rfl

/-- A run of calls to `peer` that began at the counter `start` and chose `chosen`: the hops
chosen hold stamps from `start` on, the others keys below it. -/
structure Window (s : RoutingTableView A P H E) (peer : P) (hops : List P) (start : ℕ)
    (chosen : List P) : Prop where
  hopsOf_eq : s.hopsOf peer = some hops
  calls_eq : s.findRouteCalls = start + chosen.length
  nodup : chosen.Nodup
  subset : chosen ⊆ hops
  key_chosen : ∀ h ∈ chosen, start ≤ lastRoutedKey s.lastRouted h
  key_other : ∀ h ∈ hops, h ∉ chosen → lastRoutedKey s.lastRouted h < start
  below : s.LastRoutedBelow
  cap_le : hops.length ≤ s.lastRouted.cap

/-- One call of the run picks a hop not chosen yet, while there is one. -/
theorem Window.step {peer : P} {hops chosen : List P} {start : ℕ}
    (hw : Window s peer hops start chosen) (hnodup : hops.Nodup)
    (hlt : chosen.length < hops.length) :
    ∃ next s', s.findRouteFromPeerId peer = .ok (next, s') ∧
      Window s' peer hops start (chosen ++ [next]) := by
  obtain ⟨u, hu, huc⟩ : ∃ u ∈ hops, u ∉ chosen := by
    by_contra hall
    push Not at hall
    exact absurd (List.Nodup.length_le_of_subset hnodup hall) (not_le.mpr hlt)
  obtain ⟨next, hmin⟩ : ∃ next, hops.argmin (lastRoutedKey s.lastRouted) = some next :=
    Option.ne_none_iff_exists'.mp (by simpa using List.ne_nil_of_mem hu)
  have hnext : next ∈ hops := List.argmin_mem hmin
  have hfresh : next ∉ chosen := fun hc =>
    absurd (lt_of_le_of_lt (List.le_of_mem_argmin hu hmin) (hw.key_other u hu huc))
      (not_lt.mpr (hw.key_chosen next hc))
  refine ⟨next, _, findRouteFromPeerId_eq hw.hopsOf_eq hmin, ?_⟩
  have hkeep : ∀ h ∈ hops, h ≠ next → lastRoutedKey ((hops.foldl (fun c p => (c.get p).2)
      s.lastRouted).put next s.findRouteCalls) h = lastRoutedKey s.lastRouted h := by
    intro h hh hne
    rw [lastRoutedKey, LruCache.peek_put_foldl_get hnodup hw.cap_le hnext hh hne]
    rfl
  have hself : lastRoutedKey ((hops.foldl (fun c p => (c.get p).2) s.lastRouted).put next
      s.findRouteCalls) next = s.findRouteCalls := by
    rw [lastRoutedKey, LruCache.peek_put_self]
    rfl
  refine ⟨hw.hopsOf_eq, ?_, ?_, ?_, fun h hh => ?_, fun h hh hnot => ?_, ?_, ?_⟩
  · simp [hw.calls_eq, Nat.add_assoc]
  · refine List.nodup_append.mpr ⟨hw.nodup, List.nodup_singleton next, fun a ha b hb hab => ?_⟩
    rw [List.mem_singleton.mp hb] at hab
    exact hfresh (hab ▸ ha)
  · refine List.append_subset.mpr ⟨hw.subset, fun x hx => ?_⟩
    rw [List.mem_singleton.mp hx]
    exact hnext
  · rcases List.mem_append.mp hh with hh | hh
    · rw [hkeep h (hw.subset hh) (fun he => hfresh (he ▸ hh))]
      exact hw.key_chosen h hh
    · rw [List.mem_singleton.mp hh, hself, hw.calls_eq]
      exact Nat.le_add_right _ _
  · have hne : h ≠ next := fun he => hnot (he ▸ List.mem_append_right chosen (List.mem_singleton_self h))
    rw [hkeep h hh hne]
    exact hw.key_other h hh fun hc => hnot (List.mem_append_left _ hc)
  · exact hw.below.findRouteFromPeerId (findRouteFromPeerId_eq hw.hopsOf_eq hmin)
  · rw [LruCache.cap_put, (LruCache.peek_foldl_get hops next).2]
    exact hw.cap_le

/-- The run goes on until every hop is chosen, each once. -/
theorem Window.findRoutes {peer : P} {hops : List P} {start : ℕ} (hnodup : hops.Nodup) :
    ∀ (n : ℕ) {s : RoutingTableView A P H E} {chosen : List P},
      Window s peer hops start chosen → chosen.length + n = hops.length →
      ∃ nexts s', s.findRoutes peer n = .ok (nexts, s') ∧ nexts.length = n ∧
        Window s' peer hops start (chosen ++ nexts)
  | 0, s, chosen, hw, _ => ⟨[], s, rfl, rfl, by simpa using hw⟩
  | n + 1, s, chosen, hw, hlen => by
      obtain ⟨next, s₁, hcall, hw₁⟩ := hw.step hnodup (by omega)
      obtain ⟨nexts, s', hrun, hlen', hw'⟩ :=
        Window.findRoutes hnodup n hw₁ (by rw [List.length_append]; simp; omega)
      refine ⟨next :: nexts, s', ?_, by simp [hlen'], by simpa using hw'⟩
      rw [findRoutes_succ hcall, hrun]
      rfl

theorem argmin_eq_head {f : P → ℕ} {h : P} {hs : List P} (hle : ∀ a ∈ hs, f h ≤ f a) :
    (h :: hs).argmin f = some h := by
  rw [List.argmin_eq_some_iff]
  refine ⟨List.mem_cons_self, fun a ha => ?_, fun a _ _ => by simp⟩
  rcases List.mem_cons.mp ha with rfl | ha
  · exact le_refl _
  · exact hle a ha

end FindRoute

/-! ## Account announcements -/

section Accounts

variable [DecidableEq A] [DecidableEq E] {s : RoutingTableView A P H E}

/-- The announcements `account_peers` caches are those of the store. -/
def CachedStored (s : RoutingTableView A P H E) : Prop :=
  ∀ a x, s.accountPeers.peek a = some x → s.store a = some x

omit [DecidableEq E] in
/-- `get_announce` changes the announcement cache alone; over a cache that agrees with the
store it returns what the store holds and keeps the agreement. -/
theorem CachedStored.getAnnounce_eq (h : s.CachedStored) (a : A) :
    (s.getAnnounce a).1 = s.store a ∧
      ∃ c, (s.getAnnounce a).2 = { s with accountPeers := c } ∧
        ∀ b y, c.peek b = some y → s.store b = some y := by
  have hget : ∀ b y, (s.accountPeers.get a).2.peek b = some y → s.store b = some y :=
    fun b y hy => h b y (by rwa [LruCache.peek_get] at hy)
  cases hc : (s.accountPeers.get a).1 with
  | some x =>
      have hval : s.getAnnounce a = (some x, { s with accountPeers := (s.accountPeers.get a).2 }) := by
        simp only [RoutingTableView.getAnnounce, hc]
      rw [hval]
      exact ⟨(h a x (by rwa [LruCache.get_fst] at hc)).symm, _, rfl, hget⟩
  | none =>
      cases hs : s.store a with
      | some x =>
          have hval : s.getAnnounce a =
              (some x, { s with accountPeers := (s.accountPeers.get a).2.put a x }) := by
            simp only [RoutingTableView.getAnnounce, hc, hs]
          rw [hval]
          refine ⟨rfl, _, rfl, fun b y hy => ?_⟩
          rcases LruCache.peek_put_eq_some hy with ⟨rfl, rfl⟩ | hy
          · exact hs
          · exact hget b y hy
      | none =>
          have hval : s.getAnnounce a = (none, { s with accountPeers := (s.accountPeers.get a).2 }) := by
            simp only [RoutingTableView.getAnnounce, hc, hs]
          rw [hval]
          exact ⟨rfl, _, rfl, hget⟩

theorem addAccountsStep_of_skip {acc : RoutingTableView A P H E × List (AnnounceAccount A P E)}
    {aa : AnnounceAccount A P E} (hskip : (acc.1.accountPeersBroadcasted.get aa.accountId).1.map
      AnnounceAccount.epochId = some aa.epochId) :
    addAccountsStep acc aa = ({ acc.1 with
      accountPeersBroadcasted := (acc.1.accountPeersBroadcasted.get aa.accountId).2 }, acc.2) := by
  simp only [RoutingTableView.addAccountsStep, hskip, if_true]

theorem addAccountsStep_of_not_skip {acc : RoutingTableView A P H E × List (AnnounceAccount A P E)}
    {aa : AnnounceAccount A P E} (hskip : ¬(acc.1.accountPeersBroadcasted.get aa.accountId).1.map
      AnnounceAccount.epochId = some aa.epochId) :
    addAccountsStep acc aa = ({ acc.1 with
      accountPeers := acc.1.accountPeers.put aa.accountId aa
      accountPeersBroadcasted := (acc.1.accountPeersBroadcasted.get aa.accountId).2.put
        aa.accountId aa
      store := Function.update acc.1.store aa.accountId (some aa) }, acc.2 ++ [aa]) := by
  simp only [RoutingTableView.addAccountsStep, hskip, if_false]

/-- What one announcement of `add_accounts` does: skip it, or return it and store it; either
way the routes and the counter stay, and the cache keeps agreeing with the store. -/
theorem CachedStored.addAccountsStep {acc : RoutingTableView A P H E × List (AnnounceAccount A P E)}
    (h : acc.1.CachedStored) (aa : AnnounceAccount A P E) :
    (((addAccountsStep acc aa).2 = acc.2 ∧ (addAccountsStep acc aa).1.store = acc.1.store) ∨
      ((addAccountsStep acc aa).2 = acc.2 ++ [aa] ∧
        (addAccountsStep acc aa).1.store = Function.update acc.1.store aa.accountId (some aa))) ∧
      (addAccountsStep acc aa).1.lastRouted = acc.1.lastRouted ∧
      (addAccountsStep acc aa).1.findRouteCalls = acc.1.findRouteCalls ∧
      (addAccountsStep acc aa).1.CachedStored := by
  by_cases hskip : (acc.1.accountPeersBroadcasted.get aa.accountId).1.map
      AnnounceAccount.epochId = some aa.epochId
  · rw [addAccountsStep_of_skip hskip]
    exact ⟨.inl ⟨rfl, rfl⟩, rfl, rfl, h⟩
  · rw [addAccountsStep_of_not_skip hskip]
    refine ⟨.inr ⟨rfl, rfl⟩, rfl, rfl, fun a x hx => ?_⟩
    by_cases ha : a = aa.accountId
    · subst ha
      rw [LruCache.peek_put_self, Option.some.injEq] at hx
      simp [hx]
    · rcases LruCache.peek_put_eq_some hx with ⟨hk, -⟩ | hx
      · exact absurd hk ha
      · simpa [Function.update, ha] using h a x hx

/-- The loop of `add_accounts` returns the announcements it does not skip, after those before
it, and leaves in the store, for each account, the last of them, or what the store held. -/
theorem foldl_addAccountsStep (aas : List (AnnounceAccount A P E)) :
    ∀ acc : RoutingTableView A P H E × List (AnnounceAccount A P E), acc.1.CachedStored →
      ∃ added, (aas.foldl addAccountsStep acc).2 = acc.2 ++ added ∧
        (aas.foldl addAccountsStep acc).1.lastRouted = acc.1.lastRouted ∧
        (aas.foldl addAccountsStep acc).1.findRouteCalls = acc.1.findRouteCalls ∧
        (aas.foldl addAccountsStep acc).1.CachedStored ∧
        ∀ a, (aas.foldl addAccountsStep acc).1.store a =
          (added.reverse.find? fun aa => aa.accountId = a).or (acc.1.store a) := by
  induction aas with
  | nil => exact fun acc h => ⟨[], by simp, rfl, rfl, h, fun a => by simp⟩
  | cons aa aas ih =>
      intro acc h
      obtain ⟨hcases, hroutes, hcalls, hstep⟩ := h.addAccountsStep aa
      obtain ⟨added, hres, hroutes', hcalls', h', hstore⟩ := ih (addAccountsStep acc aa) hstep
      rw [List.foldl_cons]
      rcases hcases with ⟨hres₁, hstore₁⟩ | ⟨hres₁, hstore₁⟩
      · refine ⟨added, by rw [hres, hres₁], hroutes'.trans hroutes, hcalls'.trans hcalls, h',
          fun a => by rw [hstore a, hstore₁]⟩
      · refine ⟨aa :: added, by rw [hres, hres₁]; simp, hroutes'.trans hroutes,
          hcalls'.trans hcalls, h', fun a => ?_⟩
        rw [hstore a, hstore₁]
        by_cases ha : aa.accountId = a
        · cases hfind : added.reverse.find? (fun aa => aa.accountId = a) <;>
            simp [hfind, ha, List.find?_append]
        · cases hfind : added.reverse.find? (fun aa => aa.accountId = a) <;>
            simp [hfind, ha, List.find?_append, Function.update, Ne.symm ha]

/-! ### The broadcast cache -/

theorem cap_addAccountsStep (acc : RoutingTableView A P H E × List (AnnounceAccount A P E))
    (aa : AnnounceAccount A P E) :
    (addAccountsStep acc aa).1.accountPeersBroadcasted.cap = acc.1.accountPeersBroadcasted.cap := by
  by_cases hskip : (acc.1.accountPeersBroadcasted.get aa.accountId).1.map
      AnnounceAccount.epochId = some aa.epochId
  · rw [addAccountsStep_of_skip hskip]
    exact LruCache.cap_get _
  · rw [addAccountsStep_of_not_skip hskip]
    exact (LruCache.cap_put _ _).trans (LruCache.cap_get _)

theorem cap_foldl_addAccountsStep (aas : List (AnnounceAccount A P E)) :
    ∀ acc : RoutingTableView A P H E × List (AnnounceAccount A P E),
      (aas.foldl addAccountsStep acc).1.accountPeersBroadcasted.cap =
        acc.1.accountPeersBroadcasted.cap := by
  induction aas with
  | nil => exact fun _ => rfl
  | cons aa aas ih => exact fun acc => (ih _).trans (cap_addAccountsStep acc aa)

/-- One announcement of `add_accounts` over a broadcast cache with the accounts `ks` in front and
room for one more: its account joins them with its epoch, and theirs keep their values. -/
theorem frontBy_addAccountsStep {acc : RoutingTableView A P H E × List (AnnounceAccount A P E)}
    {ks : List A} (h : acc.1.accountPeersBroadcasted.FrontBy ks) (aa : AnnounceAccount A P E)
    (hnodup : (aa.accountId :: ks).Nodup) (hcap : ks.length < acc.1.accountPeersBroadcasted.cap) :
    (addAccountsStep acc aa).1.accountPeersBroadcasted.FrontBy (aa.accountId :: ks) ∧
      (∀ k ∈ ks, (addAccountsStep acc aa).1.accountPeersBroadcasted.peek k =
        acc.1.accountPeersBroadcasted.peek k) ∧
      ((addAccountsStep acc aa).1.accountPeersBroadcasted.peek aa.accountId).map
        AnnounceAccount.epochId = some aa.epochId := by
  have hget := h.get aa.accountId
  by_cases hskip : (acc.1.accountPeersBroadcasted.get aa.accountId).1.map
      AnnounceAccount.epochId = some aa.epochId
  · -- skipped: the cache already holds an announcement with its epoch
    rw [addAccountsStep_of_skip hskip]
    refine ⟨hget, fun k _ => LruCache.peek_get _ _, ?_⟩
    rwa [LruCache.peek_get, ← LruCache.get_fst]
  · rw [addAccountsStep_of_not_skip hskip]
    refine ⟨hget.put List.mem_cons_self aa, fun k hk => ?_, by simp⟩
    have hne : k ≠ aa.accountId := fun hka => (List.nodup_cons.mp hnodup).1 (hka ▸ hk)
    have hroom : (aa.accountId :: ks).length ≤
        (acc.1.accountPeersBroadcasted.get aa.accountId).2.cap := by
      rw [List.length_cons, LruCache.cap_get]
      exact hcap
    rw [hget.peek_put_of_ne hnodup hroom List.mem_cons_self (List.mem_cons_of_mem _ hk) hne,
      LruCache.peek_get]

/-- The loop of `add_accounts` over announcements of distinct accounts, which the broadcast cache
can hold besides the accounts `ks` in front: it leaves each with its epoch, and the values of
`ks` as they were. -/
theorem foldl_addAccountsStep_broadcasted (aas : List (AnnounceAccount A P E)) :
    ∀ (acc : RoutingTableView A P H E × List (AnnounceAccount A P E)) (ks : List A),
      acc.1.accountPeersBroadcasted.FrontBy ks → (aas.map AnnounceAccount.accountId ++ ks).Nodup →
      ks.length + aas.length ≤ acc.1.accountPeersBroadcasted.cap →
      (∀ k ∈ ks, (aas.foldl addAccountsStep acc).1.accountPeersBroadcasted.peek k =
        acc.1.accountPeersBroadcasted.peek k) ∧
      ∀ aa ∈ aas, ((aas.foldl addAccountsStep acc).1.accountPeersBroadcasted.peek
        aa.accountId).map AnnounceAccount.epochId = some aa.epochId := by
  induction aas with
  | nil => exact fun _ _ _ _ _ => ⟨fun _ _ => rfl, by simp⟩
  | cons aa aas ih =>
      intro acc ks h hnodup hcap
      rw [List.map_cons, List.cons_append] at hnodup
      rw [List.length_cons] at hcap
      have hnodup₁ : (aa.accountId :: ks).Nodup :=
        hnodup.sublist ((List.sublist_append_right _ ks).cons_cons _)
      obtain ⟨hfront, hkeep, hself⟩ := frontBy_addAccountsStep h aa hnodup₁ (by omega)
      have hcap' : (aa.accountId :: ks).length + aas.length ≤
          (addAccountsStep acc aa).1.accountPeersBroadcasted.cap := by
        rw [cap_addAccountsStep, List.length_cons]
        omega
      obtain ⟨hkeep', hrest⟩ := ih (addAccountsStep acc aa) (aa.accountId :: ks) hfront
        (List.perm_middle.nodup_iff.mpr hnodup) hcap'
      rw [List.foldl_cons]
      refine ⟨fun k hk => (hkeep' k (List.mem_cons_of_mem _ hk)).trans (hkeep k hk),
        fun aa' haa' => ?_⟩
      rcases List.mem_cons.mp haa' with rfl | haa'
      · rw [hkeep' _ List.mem_cons_self]
        exact hself
      · exact hrest aa' haa'

/-- The loop of `add_accounts` over announcements whose epochs the broadcast cache holds skips
them all: it returns nothing more and stores nothing. -/
theorem foldl_addAccountsStep_of_broadcasted (aas : List (AnnounceAccount A P E)) :
    ∀ acc : RoutingTableView A P H E × List (AnnounceAccount A P E),
      (∀ aa ∈ aas, (acc.1.accountPeersBroadcasted.peek aa.accountId).map
        AnnounceAccount.epochId = some aa.epochId) →
      (aas.foldl addAccountsStep acc).2 = acc.2 ∧
        (aas.foldl addAccountsStep acc).1.store = acc.1.store := by
  induction aas with
  | nil => exact fun _ _ => ⟨rfl, rfl⟩
  | cons aa aas ih =>
      intro acc hall
      have hskip : (acc.1.accountPeersBroadcasted.get aa.accountId).1.map
          AnnounceAccount.epochId = some aa.epochId := by
        rw [LruCache.get_fst]
        exact hall aa List.mem_cons_self
      rw [List.foldl_cons, addAccountsStep_of_skip hskip]
      exact ih _ fun aa' haa' => by
        rw [LruCache.peek_get]
        exact hall aa' (List.mem_cons_of_mem _ haa')

end Accounts

/-! ## Every run -/

/-- The views `RoutingTableView::new` leads to through its operations. -/
inductive Reachable [OrderBot H] [DecidableEq A] [DecidableEq E] :
    RoutingTableView A P H E → Prop
  | new {store : A → Option (AnnounceAccount A P E)} {s : RoutingTableView A P H E} :
      RoutingTableView.new store = some s → Reachable s
  | findRoute {s s' : RoutingTableView A P H E} {now : ℕ} {target : PeerIdOrHash P H}
      {r : Except FindRouteError P} :
      Reachable s → s.findRoute now target = some (r, s') → Reachable s'
  | update {s : RoutingTableView A P H E} (nextHops : List (P × List P)) :
      Reachable s → Reachable (s.update nextHops)
  | addRouteBack {s s' : RoutingTableView A P H E} {now : ℕ} {hash : H} {peer : P} :
      Reachable s → s.addRouteBack now hash peer = some s' → Reachable s'
  | accountOwner {s : RoutingTableView A P H E} (accountId : A) :
      Reachable s → Reachable (s.accountOwner accountId).2
  | addAccounts {s : RoutingTableView A P H E} (aas : List (AnnounceAccount A P E)) :
      Reachable s → Reachable (s.addAccounts aas).1

/-- What every reachable view keeps: each stamp is below the counter, the `last_routed` and
broadcast caches keep their capacities, and the cached announcements are the stored ones. -/
structure Inv [DecidableEq A] (s : RoutingTableView A P H E) : Prop where
  below : s.LastRoutedBelow
  lastRouted_cap : s.lastRouted.cap = LAST_ROUTED_CACHE_SIZE
  cachedStored : s.CachedStored
  broadcasted_cap : s.accountPeersBroadcasted.cap = ANNOUNCE_ACCOUNT_CACHE_SIZE

section Run

variable [OrderBot H] [DecidableEq A] [DecidableEq E] {s : RoutingTableView A P H E}

omit [OrderBot H] [DecidableEq E] in
theorem inv_of_routeBack {s' : RoutingTableView A P H E} (h : s.Inv) (c : RouteBackCache P H)
    (hs' : s' = { s with routeBack := c }) : s'.Inv := by
  subst hs'
  exact ⟨h.below, h.lastRouted_cap, h.cachedStored, h.broadcasted_cap⟩

theorem Reachable.inv (h : Reachable s) : s.Inv := by
  induction h with
  | new hnew =>
      simp only [RoutingTableView.new, Option.bind_eq_bind] at hnew
      obtain ⟨c, -, hpure⟩ := Option.bind_eq_some_iff.mp hnew
      obtain rfl := Option.some.inj hpure
      refine ⟨fun p v hv => ?_, rfl, fun a x hx => ?_, rfl⟩
      · simp [LruCache.peek, LruCache.new] at hv
      · simp [LruCache.peek, LruCache.new] at hx
  | @findRoute s s' now target r _ hcall ih =>
      cases target with
      | peerId peer =>
          simp only [RoutingTableView.findRoute] at hcall
          split at hcall
          · next next s₁ hok =>
              obtain ⟨-, rfl⟩ := Prod.mk.inj (Option.some.inj hcall)
              obtain ⟨hops, -, -, rfl⟩ := findRouteFromPeerId_eq_ok hok
              refine ⟨ih.below.findRouteFromPeerId hok, ?_, ih.cachedStored,
                ih.broadcasted_cap⟩
              rw [LruCache.cap_put, (LruCache.peek_foldl_get hops next).2]
              exact ih.lastRouted_cap
          · obtain ⟨-, rfl⟩ := Prod.mk.inj (Option.some.inj hcall)
            exact ih
      | hash hash =>
          simp only [RoutingTableView.findRoute, Option.bind_eq_bind] at hcall
          obtain ⟨⟨c, target⟩, -, hpure⟩ := Option.bind_eq_some_iff.mp hcall
          exact inv_of_routeBack ih c (Prod.mk.inj (Option.some.inj hpure)).2.symm
  | update nextHops _ ih =>
      exact ⟨ih.below, ih.lastRouted_cap, ih.cachedStored, ih.broadcasted_cap⟩
  | @addRouteBack s s' now hash peer _ hcall ih =>
      simp only [RoutingTableView.addRouteBack, Option.bind_eq_bind] at hcall
      obtain ⟨c, -, hpure⟩ := Option.bind_eq_some_iff.mp hcall
      exact inv_of_routeBack ih c (Option.some.inj hpure).symm
  | @accountOwner s a _ ih =>
      obtain ⟨-, c, hget, hc⟩ := ih.cachedStored.getAnnounce_eq a
      have hsnd : (s.accountOwner a).2 = { s with accountPeers := c } := hget
      rw [hsnd]
      exact ⟨ih.below, ih.lastRouted_cap, hc, ih.broadcasted_cap⟩
  | @addAccounts s aas _ ih =>
      obtain ⟨-, -, hroutes, hcalls, hcached, -⟩ := foldl_addAccountsStep aas (s, []) ih.cachedStored
      refine ⟨fun p v hv => ?_, ?_, hcached, ?_⟩
      · have hv' : s.lastRouted.peek p = some v := by
          rwa [RoutingTableView.addAccounts, hroutes] at hv
        have := ih.below p v hv'
        rwa [RoutingTableView.addAccounts, hcalls]
      · rw [RoutingTableView.addAccounts, hroutes]
        exact ih.lastRouted_cap
      · rw [RoutingTableView.addAccounts, cap_foldl_addAccountsStep]
        exact ih.broadcasted_cap

theorem exists_reachable_fresh (nextHops : List (P × List P)) :
    ∃ s : RoutingTableView A P H E, Reachable s ∧ s.findRouteCalls = 0 ∧ s.nextHops = nextHops :=
  ⟨_, .update nextHops (.new (s := _) (rfl : RoutingTableView.new (fun _ => none) = some _)),
    rfl, rfl⟩

/-- From every reachable view in which a route has been found, `find_route_from_peer_id` takes
turns: as many calls to a peer in a row as it has next hops choose each of them once, when they
are distinct and the `last_routed` cache can hold them all. -/
theorem Reachable.findRoutes_rotate (h : Reachable s) (hcalls : 0 < s.findRouteCalls)
    {peer : P} {hops : List P} (hhops : s.hopsOf peer = some hops) (hnodup : hops.Nodup)
    (hlen : hops.length ≤ LAST_ROUTED_CACHE_SIZE) :
    ∃ nexts s', s.findRoutes peer hops.length = .ok (nexts, s') ∧ nexts.Perm hops := by
  have hbelow := h.inv.below
  have hcap : hops.length ≤ s.lastRouted.cap := h.inv.lastRouted_cap ▸ hlen
  have hstart : Window s peer hops s.findRouteCalls [] := by
    refine ⟨hhops, rfl, List.nodup_nil, List.nil_subset _, by simp, fun h _ _ => ?_, hbelow,
      hcap⟩
    cases hv : s.lastRouted.peek h with
    | none => simpa [lastRoutedKey, hv] using hcalls
    | some v => simpa [lastRoutedKey, hv] using hbelow h v hv
  obtain ⟨nexts, s', hrun, hlen, hw⟩ := Window.findRoutes hnodup hops.length hstart (by simp)
  refine ⟨nexts, s', hrun, ?_⟩
  rw [List.nil_append] at hw
  exact (List.subperm_of_subset hw.nodup hw.subset).perm_of_length_le hlen.ge


/-- The next hops `[1, 2, 3]` of the peer `5`, after one route to it. -/
theorem Reachable.findRoutes_rotate_three : ∃ s : RoutingTableView ℕ ℕ ℕ ℕ,
    Reachable s ∧ 0 < s.findRouteCalls ∧ s.hopsOf 5 = some [1, 2, 3] ∧
    ∃ nexts s', s.findRoutes 5 [1, 2, 3].length = .ok (nexts, s') ∧ nexts.Perm [1, 2, 3] := by
  obtain ⟨s, hs, -, hnext⟩ :=
    exists_reachable_fresh (A := ℕ) (P := ℕ) (H := ℕ) (E := ℕ) [(5, [1, 2, 3])]
  have hhops : s.hopsOf 5 = some [1, 2, 3] := by simp [hopsOf, hnext]
  obtain ⟨next, hmin⟩ : ∃ next, [1, 2, 3].argmin (lastRoutedKey s.lastRouted) = some next :=
    Option.isSome_iff_exists.mp (by simp [Option.isSome_iff_ne_none, List.argmin_eq_none])
  have hroute : s.findRoute 0 (.peerId 5) = some (.ok next, { s with
      lastRouted := ([1, 2, 3].foldl (fun c p => (c.get p).2) s.lastRouted).put next
        s.findRouteCalls
      findRouteCalls := s.findRouteCalls + 1 }) := by
    simp only [RoutingTableView.findRoute, findRouteFromPeerId_eq hhops hmin]
  have hs₁ := Reachable.findRoute hs hroute
  exact ⟨_, hs₁, Nat.succ_pos _, hhops,
    Reachable.findRoutes_rotate hs₁ (Nat.succ_pos _) hhops (by decide) (by decide)⟩

/-- In every reachable view in which no route has been found, `last_routed` holds nothing; the
first route stamps its choice with `0`, the key of every peer never chosen, so the first two
routes to a peer both go to the first of its next hops. -/
theorem Reachable.findRoutes_two_of_zero (hreach : Reachable s) (hzero : s.findRouteCalls = 0)
    {peer h : P} {hs : List P} (hhops : s.hopsOf peer = some (h :: hs)) :
    ∃ s', s.findRoutes peer 2 = .ok ([h, h], s') := by
  have hbelow := hreach.inv.below
  -- no stamp is below `0`, so every key is `0`
  have hkey : ∀ p, lastRoutedKey s.lastRouted p = 0 := by
    intro p
    cases hv : s.lastRouted.peek p with
    | none => simp [lastRoutedKey, hv]
    | some v => exact absurd (hbelow p v hv) (by omega)
  have hcall := findRouteFromPeerId_eq hhops (argmin_eq_head (by simp [hkey]))
  set s₁ : RoutingTableView A P H E := { s with
    lastRouted := ((h :: hs).foldl (fun c p => (c.get p).2) s.lastRouted).put h s.findRouteCalls
    findRouteCalls := s.findRouteCalls + 1 }
  have hkey₁ : ∀ p, lastRoutedKey s₁.lastRouted p = 0 := by
    intro p
    cases hv : s₁.lastRouted.peek p with
    | none => simp [lastRoutedKey, hv]
    | some v =>
        rcases LruCache.peek_put_eq_some hv with ⟨-, rfl⟩ | hv
        · simp [lastRoutedKey, hv, hzero]
        · rw [(LruCache.peek_foldl_get _ p).1] at hv
          exact absurd (hbelow p v hv) (by omega)
  have hcall₁ := findRouteFromPeerId_eq (s := s₁) hhops (argmin_eq_head (by simp [hkey₁]))
  exact ⟨_, by rw [findRoutes_succ hcall, findRoutes_succ hcall₁]; rfl⟩

/-- A fresh view routing to the peer `5`, whose next hops are `[1, 2]`. -/
theorem Reachable.findRoutes_two_of_zero_fresh : ∃ s : RoutingTableView ℕ ℕ ℕ ℕ,
    Reachable s ∧ s.findRouteCalls = 0 ∧ s.hopsOf 5 = some [1, 2] ∧
    ∃ s', s.findRoutes 5 2 = .ok ([1, 1], s') := by
  obtain ⟨s, hs, hzero, hnext⟩ :=
    exists_reachable_fresh (A := ℕ) (P := ℕ) (H := ℕ) (E := ℕ) [(5, [1, 2])]
  have hhops : s.hopsOf 5 = some [1, 2] := by simp [hopsOf, hnext]
  exact ⟨s, hs, hzero, hhops, Reachable.findRoutes_two_of_zero hs hzero hhops⟩

theorem Reachable.accountOwner_addAccounts (h : Reachable s) (aas : List (AnnounceAccount A P E))
    (a : A) : (s.accountOwner a).1 = (s.store a).map AnnounceAccount.peerId ∧
      ((s.addAccounts aas).1.accountOwner a).1 =
        (((s.addAccounts aas).2.reverse.find? fun aa => aa.accountId = a).or
          (s.store a)).map AnnounceAccount.peerId := by
  have howner : ∀ {t : RoutingTableView A P H E}, Reachable t →
      (t.accountOwner a).1 = (t.store a).map AnnounceAccount.peerId := fun ht => by
    simp [RoutingTableView.accountOwner, (ht.inv.cachedStored.getAnnounce_eq a).1]
  obtain ⟨added, hres, -, -, -, hstore⟩ := foldl_addAccountsStep aas (s, []) h.inv.cachedStored
  refine ⟨howner h, ?_⟩
  rw [howner (h.addAccounts aas), RoutingTableView.addAccounts, hstore a, hres, List.nil_append]

/-- A view over a store that announces account `0` at peer `7`, then an announcement of
account `1` at peer `8`. -/
theorem Reachable.accountOwner_addAccounts_stored : ∃ s : RoutingTableView ℕ ℕ ℕ ℕ, Reachable s ∧
    s.store 0 = some ⟨0, 7, 1⟩ ∧
    (s.accountOwner 1).1 = (s.store 1).map AnnounceAccount.peerId ∧
      ((s.addAccounts [⟨1, 8, 1⟩]).1.accountOwner 1).1 =
        (((s.addAccounts [⟨1, 8, 1⟩]).2.reverse.find? fun aa => aa.accountId = 1).or
          (s.store 1)).map AnnounceAccount.peerId := by
  obtain ⟨s, hnew⟩ : ∃ s : RoutingTableView ℕ ℕ ℕ ℕ,
      RoutingTableView.new (fun a => if a = 0 then some ⟨0, 7, 1⟩ else none) = some s :=
    ⟨_, rfl⟩
  have hs : Reachable s := .new hnew
  have hstore : s.store 0 = some ⟨0, 7, 1⟩ := by
    simp only [RoutingTableView.new, Option.bind_eq_bind] at hnew
    obtain ⟨c, -, hpure⟩ := Option.bind_eq_some_iff.mp hnew
    rw [← Option.some.inj hpure]
    rfl
  exact ⟨s, hs, hstore, Reachable.accountOwner_addAccounts hs _ 1⟩

/-- From every reachable view, a batch of announcements of distinct accounts, no more than the
broadcast cache holds, announced again right away is neither broadcast nor stored again. -/
theorem Reachable.addAccounts_again (h : Reachable s) (aas : List (AnnounceAccount A P E))
    (hnodup : (aas.map AnnounceAccount.accountId).Nodup)
    (hlen : aas.length ≤ ANNOUNCE_ACCOUNT_CACHE_SIZE) :
    ((s.addAccounts aas).1.addAccounts aas).2 = [] ∧
      ((s.addAccounts aas).1.addAccounts aas).1.store = (s.addAccounts aas).1.store := by
  have hcap : ([] : List A).length + aas.length ≤ s.accountPeersBroadcasted.cap := by
    rw [h.inv.broadcasted_cap, List.length_nil, Nat.zero_add]
    exact hlen
  obtain ⟨-, hfirst⟩ := foldl_addAccountsStep_broadcasted aas (s, []) []
    (LruCache.frontBy_nil _) (by rwa [List.append_nil]) hcap
  exact foldl_addAccountsStep_of_broadcasted aas ((s.addAccounts aas).1, []) hfirst

/-- Two accounts announced from a fresh view. -/
theorem Reachable.addAccounts_again_pair : ∃ s : RoutingTableView ℕ ℕ ℕ ℕ, Reachable s ∧
    ([⟨0, 7, 1⟩, ⟨1, 8, 1⟩] : List (AnnounceAccount ℕ ℕ ℕ)).map
      AnnounceAccount.accountId = [0, 1] ∧
    ((s.addAccounts [⟨0, 7, 1⟩, ⟨1, 8, 1⟩]).1.addAccounts [⟨0, 7, 1⟩, ⟨1, 8, 1⟩]).2 = [] ∧
    ((s.addAccounts [⟨0, 7, 1⟩, ⟨1, 8, 1⟩]).1.addAccounts [⟨0, 7, 1⟩, ⟨1, 8, 1⟩]).1.store =
      (s.addAccounts [⟨0, 7, 1⟩, ⟨1, 8, 1⟩]).1.store := by
  obtain ⟨s, hs, -⟩ := exists_reachable_fresh (A := ℕ) (P := ℕ) (H := ℕ) (E := ℕ) []
  exact ⟨s, hs, rfl, Reachable.addAccounts_again hs _ (by decide) (by decide)⟩

end Run

end RoutingTableView

end Nearcore.Network
