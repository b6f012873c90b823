import BitcoinCrawl.Proofs.Registry.Consistency

set_option autoImplicit false

/-! # Sequences of registry calls

A registry as its callers leave it: after any calls, in any order and with any arguments. A call that
fails leaves the registry alone. The main theorem is that such a registry is consistent
(`performAll_sound`), by induction on the calls from what each one preserves. -/

namespace BitcoinCrawl.Registry

/-- A call that may change the registry. -/
inductive Call where
  | add (endpoints : List Endpoint)
  | takeNext
  | markConnecting (endpoint : Endpoint)
  | markGood (endpoint : Endpoint) (peer : Peer)
  | markDead (endpoint : Endpoint)
  | setPingNonce (endpoint : Endpoint) (nonce : UInt64)
  | recordPong (endpoint : Endpoint) (nonce : UInt64)

/-- The registry that a call which may fail leaves behind. -/
def orKept (r : Registry) : Except RegistryFault Registry → Registry
  | .ok r' => r'
  | .error _ => r

/-- The registry after one call. -/
def perform (r : Registry) : Call → Registry
  | .add endpoints => (r.add endpoints).1
  | .takeNext => r.takeNext.registry
  | .markConnecting endpoint => r.orKept (r.markConnecting endpoint)
  | .markGood endpoint peer => r.orKept (r.markGood endpoint peer)
  | .markDead endpoint => r.orKept (r.markDead endpoint)
  | .setPingNonce endpoint nonce => r.orKept (r.setPingNonce endpoint nonce)
  | .recordPong endpoint nonce => r.orKept ((r.recordPong endpoint nonce).map Prod.fst)

/-- The registry after some calls. -/
def performAll (r : Registry) (calls : List Call) : Registry := calls.foldl perform r

theorem performAll_append (r : Registry) (calls more : List Call) :
    r.performAll (calls ++ more) = (r.performAll calls).performAll more :=
  List.foldl_append

theorem Consistent.orKept {r : Registry} {result : Except RegistryFault Registry} (hc : r.Consistent)
    (h : ∀ r', result = .ok r' → r'.Consistent) : (r.orKept result).Consistent := by
  cases result with
  | ok r' => exact h r' rfl
  | error fault => exact hc

theorem Consistent.perform {r : Registry} (hc : r.Consistent) (call : Call) :
    (r.perform call).Consistent := by
  cases call with
  | add endpoints => exact hc.add endpoints
  | takeNext => exact hc.takeNext
  | markConnecting endpoint => exact hc.orKept fun _ => hc.markConnecting
  | markGood endpoint peer => exact hc.orKept fun _ => hc.markGood
  | markDead endpoint => exact hc.orKept fun _ => hc.markDead
  | setPingNonce endpoint nonce => exact hc.orKept fun _ => hc.setPingNonce
  | recordPong endpoint nonce => exact hc.orKept fun _ => hc.recordPong

theorem Consistent.performAll {r : Registry} (hc : r.Consistent) (calls : List Call) :
    (r.performAll calls).Consistent := by
  induction calls generalizing r with
  | nil => exact hc
  | cons call rest ih => exact ih (hc.perform call)

/-- Endpoints may be added in one call or in two. -/
theorem perform_add_append (r : Registry) (es fs : List Endpoint) :
    (r.perform (.add es)).perform (.add fs) = r.perform (.add (es ++ fs)) := by
  -- The number that a call counts on the way does not matter to the registry.
  have hcount : ∀ (fs : List Endpoint) (r : Registry) (k : Nat),
      (fs.foldl addOne (r, k)).1 = (fs.foldl addOne (r, 0)).1 := by
    intro fs
    induction fs with
    | nil => exact fun _ _ => rfl
    | cons e rest ih =>
        intro r k
        by_cases h : r.nodes.contains e = true
        · simp only [List.foldl_cons, addOne, h, if_true]
          exact ih r k
        · simp only [List.foldl_cons, addOne, h, Bool.false_eq_true, if_false]
          rw [ih _ (k + 1), ih _ (0 + 1)]
  show (fs.foldl addOne ((es.foldl addOne (r, 0)).1, 0)).1 = ((es ++ fs).foldl addOne (r, 0)).1
  rw [List.foldl_append]
  exact (hcount fs _ _).symm

/-- What a consistent registry never does: report counts that do not add up, lower a counter that is
    zero, or drop an entry of its discovery queue. -/
structure Sound (r : Registry) : Prop where
  total_eq : r.counts.total = r.counts.good + r.counts.dead + r.counts.pending
  queued_pos : ∀ e r', r.markConnecting e = .ok r' → 0 < r.queued
  connecting_pos_good : ∀ e peer r', r.markGood e peer = .ok r' → 0 < r.connecting
  connecting_pos_dead : ∀ e r', r.markDead e = .ok r' → 0 < r.connecting
  no_stale : r.takeNext.stale = []

theorem Consistent.sound {r : Registry} (hc : r.Consistent) : r.Sound where
  total_eq := hc.total_eq
  queued_pos := by
    intro e r' h
    obtain ⟨n, hn, hs, -⟩ := markConnecting_eq_ok.mp h
    exact hc.queued_pos hn hs
  connecting_pos_good := by
    intro e peer r' h
    obtain ⟨n, hn, hs, -⟩ := markGood_eq_ok.mp h
    exact hc.connecting_pos hn hs
  connecting_pos_dead := by
    intro e r' h
    obtain ⟨n, hn, hs, -⟩ := markDead_eq_ok.mp h
    exact hc.connecting_pos hn hs
  no_stale := hc.stale_takeNext

/-- **Whatever is called on an empty registry, it stays consistent.** Nodes are kept under their own
    endpoints, the discovery queue and the good list hold exactly the endpoints in those states, each
    once, the counters are the numbers of nodes in theirs, and exactly the good nodes have a peer; so
    the counts add up, no counter underflows and no queue entry is stale. -/
theorem performAll_sound (calls : List Call) :
    (performAll {} calls).Consistent ∧ (performAll {} calls).discoveryQueue.Nodup ∧
      (performAll {} calls).Sound := by
  have hc := consistent_empty.performAll calls
  exact ⟨hc, hc.queue_nodup, hc.sound⟩

end BitcoinCrawl.Registry
