import BitcoinCrawl.Proofs.Registry.Views
import Mathlib.Data.List.Perm.Basic
import Mathlib.Data.List.Dedup

set_option autoImplicit false

/-! # The registry never contradicts itself

A registry keeps the same information several times: in the states of its nodes, in the discovery queue,
in the list of good endpoints and in three counters. `Registry.Consistent` says that all of them agree, and
the main theorem that they do after any sequence of calls on an empty registry, calls that fail included.
So no counter is ever lowered below zero, and no entry of the discovery queue is ever stale. -/

namespace BitcoinCrawl

namespace Registry

/-! ## The invariant -/

/-- Nodes, discovery queue, good list and counters agree. -/
structure Consistent (r : Registry) : Prop where
  /-- Every endpoint is listed once, when it is first announced. -/
  known_nodup : r.known.toList.Nodup
  mem_known : ∀ e, e ∈ r.known.toList ↔ (r.node? e).isSome = true
  taken_le : r.taken ≤ r.known.size
  keyed : ∀ e n, r.node? e = some n → n.endpoint = e
  mem_queue : ∀ e, e ∈ r.discoveryQueue ↔ r.state? e = some .discovered
  queued_eq : r.queued = r.population .queued
  connecting_eq : r.connecting = r.population .connecting
  dead_eq : r.dead = r.population .dead
  good_nodup : r.good.toList.Nodup
  mem_good : ∀ e, e ∈ r.good.toList ↔ r.state? e = some .good
  peer_iff : ∀ e n, r.node? e = some n → (n.peer.isSome = true ↔ n.state = .good)

theorem Consistent.queue_nodup {r : Registry} (hc : r.Consistent) : r.discoveryQueue.Nodup :=
  hc.known_nodup.sublist (List.drop_sublist _ _)

theorem consistent_empty : Consistent {} where
  known_nodup := by simp
  mem_known := by simp [node?]
  taken_le := by simp
  keyed := by simp [node?]
  mem_queue := by simp [discoveryQueue, state?, node?]
  queued_eq := by simp [population]
  connecting_eq := by simp [population]
  dead_eq := by simp [population]
  good_nodup := by simp
  mem_good := by simp [state?, node?]
  peer_iff := by simp [node?]

/-! ## Counting nodes -/

theorem population_pos {r : Registry} {e : Endpoint} {n : Node} (h : r.node? e = some n) :
    0 < r.population n.state := by
  unfold population
  rw [List.countP_pos_iff]
  exact ⟨(e, n), Std.HashMap.mem_toList_iff_getElem?_eq_some.mpr h, by simp⟩

/-- A list that holds the endpoints in a state, each once, is as long as the population of that state. -/
theorem population_eq_length {r : Registry} {s : NodeState} {es : List Endpoint} (hnodup : es.Nodup)
    (hmem : ∀ e, e ∈ es ↔ r.state? e = some s) : r.population s = es.length := by
  -- The nodes in that state are listed under their keys, and no key is listed twice.
  have hkeys : ((r.nodes.toList.filter fun entry => entry.2.state == s).map Prod.fst).Nodup := by
    refine List.Nodup.sublist (List.filter_sublist.map Prod.fst) ?_
    rw [Std.HashMap.map_fst_toList_eq_keys]
    exact Std.HashMap.nodup_keys
  have hperm : ((r.nodes.toList.filter fun entry => entry.2.state == s).map Prod.fst).Perm es := by
    rw [List.perm_ext_iff_of_nodup hkeys hnodup]
    intro e
    rw [hmem, state?_eq_some]
    constructor
    · intro h
      obtain ⟨⟨e', n⟩, hmem', rfl⟩ := List.mem_map.mp h
      obtain ⟨hget, hs⟩ := List.mem_filter.mp hmem'
      exact ⟨n, Std.HashMap.mem_toList_iff_getElem?_eq_some.mp hget, by simpa using hs⟩
    · rintro ⟨n, hget, hs⟩
      refine List.mem_map.mpr ⟨(e, n), List.mem_filter.mpr ⟨?_, by simpa using hs⟩, rfl⟩
      exact Std.HashMap.mem_toList_iff_getElem?_eq_some.mpr hget
  rw [population, List.countP_eq_length_filter, ← hperm.length_eq, List.length_map]

/-- While a node is queued its counter can be lowered. -/
theorem Consistent.queued_pos {r : Registry} {e : Endpoint} {n : Node} (hc : r.Consistent)
    (hn : r.node? e = some n) (hs : n.state = .queued) : 0 < r.queued := by
  rw [hc.queued_eq, ← hs]
  exact population_pos hn

/-- While a node is connecting its counter can be lowered. -/
theorem Consistent.connecting_pos {r : Registry} {e : Endpoint} {n : Node} (hc : r.Consistent)
    (hn : r.node? e = some n) (hs : n.state = .connecting) : 0 < r.connecting := by
  rw [hc.connecting_eq, ← hs]
  exact population_pos hn

/-- Every node is in exactly one of the five states. -/
theorem size_eq_populations (r : Registry) :
    r.nodes.size = r.population .discovered + r.population .queued + r.population .connecting
      + r.population .good + r.population .dead := by
  rw [← Std.HashMap.length_toList]
  unfold population
  induction r.nodes.toList with
  | nil => rfl
  | cons entry rest ih =>
      simp only [List.length_cons, List.countP_cons, ih]
      cases entry.2.state <;> simp <;> omega

/-- The counts of a consistent registry add up. -/
theorem Consistent.total_eq {r : Registry} (hc : r.Consistent) :
    r.counts.total = r.counts.good + r.counts.dead + r.counts.pending := by
  have hgood := population_eq_length hc.good_nodup hc.mem_good
  have hdiscovered := population_eq_length hc.queue_nodup hc.mem_queue
  simp only [discoveryQueue, List.length_drop, Array.length_toList] at hgood hdiscovered
  simp only [counts, Counts.pending, size_eq_populations, hc.queued_eq, hc.connecting_eq, hc.dead_eq,
    hgood, hdiscovered]
  omega

/-! ## Replacing a node

All operations but discovery replace one node by another of the same endpoint. What they do with the
counters and the good list has to match what becomes of the node. -/

theorem Consistent.replace {r r' : Registry} {e : Endpoint} {old : Node} (new : Node) (hc : r.Consistent)
    (hold : r.node? e = some old) (hend : new.endpoint = e)
    (hpeer : new.peer.isSome = true ↔ new.state = .good)
    (hnodes : r'.nodes = (r.put e new).nodes) (hknown : r'.known = r.known)
    (htaken : r'.taken ≤ r'.known.size)
    (hqueue : ∀ e', e' ∈ r'.discoveryQueue ↔ r'.state? e' = some .discovered)
    (hqueued : r'.queued + (if old.state = .queued then 1 else 0)
      = r.queued + if new.state = .queued then 1 else 0)
    (hconnecting : r'.connecting + (if old.state = .connecting then 1 else 0)
      = r.connecting + if new.state = .connecting then 1 else 0)
    (hdead : r'.dead + (if old.state = .dead then 1 else 0)
      = r.dead + if new.state = .dead then 1 else 0)
    (hgood : r'.good.toList
      = r.good.toList ++ if new.state = .good ∧ old.state ≠ .good then [e] else [])
    (hkept : old.state = .good → new.state = .good) : r'.Consistent := by
  have hnode : ∀ e', r'.node? e' = if e = e' then some new else r.node? e' := by
    intro e'
    rw [← node?_put]
    simp only [node?, hnodes]
  have hpop : ∀ s, r'.population s + (if old.state = s then 1 else 0)
      = r.population s + if new.state = s then 1 else 0 := by
    intro s
    rw [← population_put new s hold]
    simp only [population, hnodes]
  have hstate : ∀ e', r'.state? e' = if e = e' then some new.state else r.state? e' := by
    intro e'
    simp only [state?, hnode]
    split_ifs <;> rfl
  have hfree : old.state ≠ .good → e ∉ r.good.toList := by
    intro hne hmem
    obtain ⟨n, hn, hs⟩ := state?_eq_some.mp ((hc.mem_good e).mp hmem)
    rw [hold] at hn
    exact hne (Option.some.inj hn ▸ hs)
  constructor
  case known_nodup =>
    rw [hknown]
    exact hc.known_nodup
  case mem_known =>
    intro e'
    rw [hknown, hc.mem_known, hnode]
    split_ifs with he
    · subst he
      simp [hold]
    · rfl
  case taken_le => exact htaken
  case keyed =>
    intro e' n hn
    rw [hnode] at hn
    split_ifs at hn with he
    · exact Option.some.inj hn ▸ hend.trans he
    · exact hc.keyed e' n hn
  case mem_queue => exact hqueue
  case queued_eq =>
    have hmoved := hpop .queued
    have hbefore := hc.queued_eq
    omega
  case connecting_eq =>
    have hmoved := hpop .connecting
    have hbefore := hc.connecting_eq
    omega
  case dead_eq =>
    have hmoved := hpop .dead
    have hbefore := hc.dead_eq
    omega
  case good_nodup =>
    rw [hgood]
    split_ifs with hs
    · exact hc.good_nodup.append (List.nodup_singleton e)
        (List.disjoint_singleton.mpr (hfree hs.2))
    · simpa using hc.good_nodup
  case mem_good =>
    intro e'
    rw [hgood, hstate, List.mem_append, hc.mem_good]
    by_cases he : e = e'
    · -- The list grows by the endpoint exactly when its node becomes good.
      subst he
      rw [state?_of_node? hold]
      by_cases hs : old.state = .good
      · simp [hs, hkept hs]
      · by_cases hn : new.state = .good <;> simp [hs, hn]
    · rw [if_neg he]
      split_ifs <;> simp [Ne.symm he]
  case peer_iff =>
    intro e' n hn
    rw [hnode] at hn
    split_ifs at hn with he
    · exact Option.some.inj hn ▸ hpeer
    · exact hc.peer_iff e' n hn

/-- Nothing but the keepalive of a node changes: its state, its peer and all counters stay. -/
theorem Consistent.put {r : Registry} {e : Endpoint} {old new : Node} (hc : r.Consistent)
    (hold : r.node? e = some old) (hend : new.endpoint = old.endpoint)
    (hstate : new.state = old.state) (hpeer : new.peer = old.peer) : (r.put e new).Consistent := by
  refine hc.replace _ hold (hend.trans (hc.keyed e old hold)) ?_ rfl rfl hc.taken_le ?_ ?_ ?_ ?_ ?_ ?_
  · rw [hpeer, hstate]
    exact hc.peer_iff e old hold
  · intro e'
    rw [discoveryQueue_put, hc.mem_queue, state?_put]
    split_ifs with he
    · rw [← he, state?_of_node? hold, hstate]
    · rfl
  · rw [hstate]
    rfl
  · rw [hstate]
    rfl
  · rw [hstate]
    rfl
  · have hno : ¬ (new.state = .good ∧ old.state ≠ .good) := fun h => h.2 (hstate ▸ h.1)
    rw [if_neg hno, List.append_nil]
    rfl
  · exact fun h => hstate.trans h

/-- A mark takes a node that has left the discovery queue from one state to the next. -/
theorem Consistent.mem_queue_mark {r : Registry} {e : Endpoint} {old new : Node} (hc : r.Consistent)
    (hold : r.node? e = some old) (hleft : old.state ≠ .discovered) (hnew : new.state ≠ .discovered)
    (e' : Endpoint) :
    e' ∈ r.discoveryQueue ↔ (r.put e new).state? e' = some .discovered := by
  rw [hc.mem_queue, state?_put]
  split_ifs with he
  · rw [← he, state?_of_node? hold]
    simp [hleft, hnew]
  · rfl

/-! ## The operations -/

theorem Consistent.markConnecting {r r' : Registry} {e : Endpoint} (hc : r.Consistent)
    (h : r.markConnecting e = .ok r') : r'.Consistent := by
  obtain ⟨n, hn, hs, rfl⟩ := markConnecting_eq_ok.mp h
  have hpos := hc.queued_pos hn hs
  have hpeer := hc.peer_iff e n hn
  refine hc.replace { n with state := .connecting } hn (hc.keyed e n hn) ?_ rfl rfl hc.taken_le
    (hc.mem_queue_mark hn (by simp [hs]) (by simp)) ?_ ?_ ?_ ?_ ?_
  · simpa [hs] using hpeer
  · simp only [hs, if_true, reduceCtorEq, if_false]
    omega
  · simp [hs]
  · simp [hs]
  · simp
  · simp [hs]

theorem Consistent.markGood {r r' : Registry} {e : Endpoint} {peer : Peer} (hc : r.Consistent)
    (h : r.markGood e peer = .ok r') : r'.Consistent := by
  obtain ⟨n, hn, hs, rfl⟩ := markGood_eq_ok.mp h
  have hpos := hc.connecting_pos hn hs
  refine hc.replace { n with state := .good, peer := some peer } hn (hc.keyed e n hn) ?_ rfl rfl
    hc.taken_le (hc.mem_queue_mark hn (by simp [hs]) (by simp)) ?_ ?_ ?_ ?_ ?_
  · simp
  · simp [hs]
  · simp only [hs, if_true, reduceCtorEq, if_false]
    omega
  · simp [hs]
  · simp [hs]
  · simp [hs]

theorem Consistent.markDead {r r' : Registry} {e : Endpoint} (hc : r.Consistent)
    (h : r.markDead e = .ok r') : r'.Consistent := by
  obtain ⟨n, hn, hs, rfl⟩ := markDead_eq_ok.mp h
  have hpos := hc.connecting_pos hn hs
  have hpeer := hc.peer_iff e n hn
  refine hc.replace { n with state := .dead } hn (hc.keyed e n hn) ?_ rfl rfl hc.taken_le
    (hc.mem_queue_mark hn (by simp [hs]) (by simp)) ?_ ?_ ?_ ?_ ?_
  · simpa [hs] using hpeer
  · simp [hs]
  · simp only [hs, if_true, reduceCtorEq, if_false]
    omega
  · simp [hs]
  · simp
  · simp [hs]

theorem Consistent.setPingNonce {r r' : Registry} {e : Endpoint} {nonce : UInt64}
    (hc : r.Consistent) (h : r.setPingNonce e nonce = .ok r') : r'.Consistent := by
  obtain ⟨n, hn, -, rfl⟩ := setPingNonce_eq_ok.mp h
  exact hc.put hn rfl rfl rfl

theorem Consistent.recordPong {r r' : Registry} {e : Endpoint} {nonce : UInt64}
    (hc : r.Consistent) (h : (r.recordPong e nonce).map Prod.fst = .ok r') : r'.Consistent := by
  obtain ⟨n, hn, rfl⟩ := recordPong_fst_eq_ok.mp h
  exact hc.put hn (Node.recordPong_endpoint nonce n) (Node.recordPong_state nonce n)
    (Node.recordPong_peer nonce n)

theorem Consistent.addOne {r : Registry} (hc : r.Consistent) (k : Nat) (e : Endpoint) :
    (addOne (r, k) e).1.Consistent := by
  cases h : r.node? e with
  | some n =>
      rw [addOne_of_known k (by simp [h])]
      exact hc
  | none =>
      rw [addOne_of_new k h]
      have hnew : e ∉ r.known.toList := by simp [hc.mem_known, h]
      have hpop := fun s => population_put_new { endpoint := e } s h
      have hstate := fun e' => state?_put r e e' { endpoint := e }
      have hunknown : r.state? e = none := by simp [state?, h]
      have hqueue : (r.known.push e).toList.drop r.taken = r.discoveryQueue ++ [e] := by
        rw [Array.toList_push, List.drop_append_of_le_length (by simpa using hc.taken_le)]
        rfl
      constructor
      case known_nodup =>
        rw [Array.toList_push]
        exact hc.known_nodup.append (List.nodup_singleton e) (List.disjoint_singleton.mpr hnew)
      case mem_known =>
        intro e'
        show e' ∈ (r.known.push e).toList ↔ ((r.put e { endpoint := e }).node? e').isSome = true
        rw [Array.toList_push, List.mem_append, hc.mem_known, node?_put]
        split_ifs with he
        · simp [he]
        · simp [Ne.symm he]
      case taken_le =>
        show r.taken ≤ (r.known.push e).size
        rw [Array.size_push]
        exact Nat.le_succ_of_le hc.taken_le
      case keyed =>
        intro e' n hn
        change (r.put e { endpoint := e }).node? e' = some n at hn
        rw [node?_put] at hn
        split_ifs at hn with he
        · exact Option.some.inj hn ▸ he
        · exact hc.keyed e' n hn
      case mem_queue =>
        intro e'
        show e' ∈ (r.known.push e).toList.drop r.taken ↔
          (r.put e { endpoint := e }).state? e' = some .discovered
        rw [hqueue, List.mem_append, hc.mem_queue, hstate]
        split_ifs with he
        · simp [he]
        · simp [Ne.symm he]
      case queued_eq => exact hc.queued_eq.trans (hpop .queued).symm
      case connecting_eq => exact hc.connecting_eq.trans (hpop .connecting).symm
      case dead_eq => exact hc.dead_eq.trans (hpop .dead).symm
      case good_nodup => exact hc.good_nodup
      case mem_good =>
        intro e'
        show e' ∈ r.good.toList ↔ (r.put e { endpoint := e }).state? e' = some .good
        rw [hc.mem_good, hstate]
        split_ifs with he
        · simp [← he, hunknown]
        · rfl
      case peer_iff =>
        intro e' n hn
        change (r.put e { endpoint := e }).node? e' = some n at hn
        rw [node?_put] at hn
        split_ifs at hn with he
        · rw [← Option.some.inj hn]
          simp
        · exact hc.peer_iff e' n hn

theorem Consistent.add {r : Registry} (hc : r.Consistent) (es : List Endpoint) :
    (r.add es).1.Consistent := by
  -- By induction on the announced endpoints, from any consistent registry and any count of new ones.
  have hfold : ∀ (es : List Endpoint) (acc : Registry × Nat), acc.1.Consistent →
      (es.foldl Registry.addOne acc).1.Consistent := by
    intro es
    induction es with
    | nil => exact fun _ h => h
    | cons e rest ih => exact fun acc h => ih _ (h.addOne acc.2 e)
  exact hfold es (r, 0) hc

/-- With nothing in the discovery queue there is nothing to take. -/
theorem takeNext_of_nil {r : Registry} (h : r.discoveryQueue = []) : r.takeNext = { registry := r } := by
  have hlen : r.known.size - r.taken = 0 := by
    simpa [discoveryQueue] using congrArg List.length h
  rw [takeNext, hlen, takeUpTo]

/-- The oldest entry of the discovery queue is taken, never dropped as stale. -/
theorem Consistent.takeNext_of_cons {r : Registry} {e : Endpoint} {rest : List Endpoint}
    (hc : r.Consistent) (h : r.discoveryQueue = e :: rest) :
    ∃ n, r.node? e = some n ∧ n.state = .discovered ∧
      r.takeNext = {
        registry := { r.put e { n with state := .queued } with
          taken := r.taken + 1, queued := r.queued + 1 }
        endpoint := some e } := by
  obtain ⟨n, hn, hs⟩ := state?_eq_some.mp ((hc.mem_queue e).mp (h ▸ List.mem_cons_self ..))
  have hlen : r.known.size - r.taken = rest.length + 1 := by
    simpa [discoveryQueue] using congrArg List.length h
  have hfront : r.known[r.taken]? = some e := by
    have hhead := congrArg List.head? h
    rwa [discoveryQueue, List.head?_drop, Array.getElem?_toList] at hhead
  have hadvance : n.advance .queued = .ok { n with state := .queued } := by
    simp [Node.advance, hs, NodeState.precedes]
  refine ⟨n, hn, hs, ?_⟩
  -- The entry at the front belongs to a discovered node, so the search ends with it.
  have hsame : ({ r with taken := r.taken + 1 } : Registry).node? e = some n := hn
  simp only [takeNext, hlen, takeUpTo, hfront, hsame, Option.map_some, hadvance, Registry.put]

theorem Consistent.takeNext {r : Registry} (hc : r.Consistent) : r.takeNext.registry.Consistent := by
  cases hqueue : r.discoveryQueue with
  | nil =>
      rw [takeNext_of_nil hqueue]
      exact hc
  | cons e rest =>
      obtain ⟨n, hn, hs, htake⟩ := hc.takeNext_of_cons hqueue
      have hpeer := hc.peer_iff e n hn
      have hlen : r.taken < r.known.size := by
        have := congrArg List.length hqueue
        simp only [discoveryQueue, List.length_drop, Array.length_toList, List.length_cons] at this
        omega
      have hrest : r.known.toList.drop (r.taken + 1) = rest := by
        rw [← List.drop_drop, show r.known.toList.drop r.taken = e :: rest from hqueue]
        rfl
      have hnodup : (e :: rest).Nodup := hqueue ▸ hc.queue_nodup
      rw [htake]
      refine hc.replace { n with state := .queued } hn (hc.keyed e n hn) ?_ rfl rfl hlen ?_
        ?_ ?_ ?_ ?_ ?_
      · simpa [hs] using hpeer
      · intro e'
        show e' ∈ r.known.toList.drop (r.taken + 1) ↔
          (r.put e { n with state := .queued }).state? e' = some .discovered
        rw [hrest, state?_put]
        split_ifs with he
        · simp [← he, (List.nodup_cons.mp hnodup).1]
        · rw [← hc.mem_queue, hqueue]
          simp [Ne.symm he]
      · simp [hs]
      · simp [hs]
      · simp [hs]
      · simp
      · simp [hs]

theorem Consistent.stale_takeNext {r : Registry} (hc : r.Consistent) : r.takeNext.stale = [] := by
  cases hqueue : r.discoveryQueue with
  | nil => rw [takeNext_of_nil hqueue]
  | cons e rest =>
      obtain ⟨n, -, -, htake⟩ := hc.takeNext_of_cons hqueue
      rw [htake]

end Registry

end BitcoinCrawl
