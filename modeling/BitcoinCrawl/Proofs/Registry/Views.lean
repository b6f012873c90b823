import BitcoinCrawl.Registry.Basic
import Mathlib.Data.List.Nodup
import Mathlib.Tactic.SplitIfs

set_option autoImplicit false

/-! # What registry operations show

Everything later about the registry is said through three views: the node of an endpoint (`node?`), the
discovery queue, and how many nodes are in a given state (`population`). This file says what each
operation does to them, and which nodes make the operations fail; no later proof unfolds one. -/

namespace BitcoinCrawl

namespace Node

theorem advance_eq_ok {next : NodeState} {n n' : Node} :
    n.advance next = .ok n' ↔ n.state.precedes next = true ∧ n' = { n with state := next } := by
  unfold advance
  split_ifs with h <;> simp [h, eq_comm]

@[simp] theorem recordPong_endpoint (nonce : UInt64) (n : Node) :
    (n.recordPong nonce).1.endpoint = n.endpoint := by
  unfold recordPong
  split_ifs <;> rfl

@[simp] theorem recordPong_state (nonce : UInt64) (n : Node) :
    (n.recordPong nonce).1.state = n.state := by
  unfold recordPong
  split_ifs <;> rfl

@[simp] theorem recordPong_peer (nonce : UInt64) (n : Node) :
    (n.recordPong nonce).1.peer = n.peer := by
  unfold recordPong
  split_ifs <;> rfl

end Node

namespace NodeState

/-- Only queued nodes come to be dialed. -/
theorem precedes_connecting {s : NodeState} : s.precedes .connecting = true ↔ s = .queued := by
  cases s <;> decide

/-- Only dialed nodes are classified as good. -/
theorem precedes_good {s : NodeState} : s.precedes .good = true ↔ s = .connecting := by
  cases s <;> decide

/-- Only dialed nodes are classified as dead. -/
theorem precedes_dead {s : NodeState} : s.precedes .dead = true ↔ s = .connecting := by
  cases s <;> decide

end NodeState

namespace Registry

/-- The state of an endpoint, if it is known. -/
def state? (r : Registry) (e : Endpoint) : Option NodeState := (r.node? e).map Node.state

/-- How many nodes are in a state. -/
def population (r : Registry) (s : NodeState) : Nat :=
  r.nodes.toList.countP fun entry => entry.2.state == s

theorem state?_eq_some {r : Registry} {e : Endpoint} {s : NodeState} :
    r.state? e = some s ↔ ∃ n, r.node? e = some n ∧ n.state = s := by
  simp [state?]

theorem state?_of_node? {r : Registry} {e : Endpoint} {n : Node} (h : r.node? e = some n) :
    r.state? e = some n.state := by
  simp [state?, h]

/-! ## Replacing a node -/

@[simp] theorem node?_put (r : Registry) (e e' : Endpoint) (n : Node) :
    (r.put e n).node? e' = if e = e' then some n else r.node? e' := by
  simp only [node?, put, Std.HashMap.getElem?_insert, beq_iff_eq]

@[simp] theorem state?_put (r : Registry) (e e' : Endpoint) (n : Node) :
    (r.put e n).state? e' = if e = e' then some n.state else r.state? e' := by
  simp only [state?, node?_put]
  split_ifs <;> rfl

/-- The entries of other endpoints are those of before. -/
theorem toList_put_perm (r : Registry) (e : Endpoint) (n : Node) :
    (r.put e n).nodes.toList.Perm ((e, n) :: r.nodes.toList.filter (¬ e == ·.1)) :=
  Std.HashMap.toList_insert_perm

/-- Putting a new node under a new endpoint adds it to the population of its state. -/
theorem population_put_new {r : Registry} {e : Endpoint} (n : Node) (s : NodeState)
    (h : r.node? e = none) :
    (r.put e n).population s = r.population s + if n.state = s then 1 else 0 := by
  have hrest : r.nodes.toList.filter (¬ e == ·.1) = r.nodes.toList := by
    rw [List.filter_eq_self]
    intro entry hentry
    have hget := Std.HashMap.mem_toList_iff_getElem?_eq_some.mp hentry
    have hne : e ≠ entry.1 := by
      rintro rfl
      rw [node?, hget] at h
      exact absurd h (by simp)
    simpa using hne
  unfold population
  rw [(toList_put_perm r e n).countP_eq, hrest, List.countP_cons]
  simp

/-- Putting a node in the place of another moves one from the population of the old state to that of
    the new one. -/
theorem population_put {r : Registry} {e : Endpoint} {old : Node} (n : Node) (s : NodeState)
    (h : r.node? e = some old) :
    (r.put e n).population s + (if old.state = s then 1 else 0)
      = r.population s + if n.state = s then 1 else 0 := by
  -- Putting the old node back changes nothing, so the old list has the same rest as the new one.
  have hsame : r.nodes.toList.Perm ((e, old) :: r.nodes.toList.filter (¬ e == ·.1)) := by
    refine List.Perm.trans (Std.HashMap.Equiv.toList_perm ?_) (toList_put_perm r e old)
    refine Std.HashMap.Equiv.of_forall_getElem?_eq fun e' => ?_
    have hput := node?_put r e e' old
    by_cases he : e = e'
    · subst he
      rw [if_pos rfl] at hput
      exact h.trans hput.symm
    · rw [if_neg he] at hput
      exact hput.symm
  unfold population
  rw [(toList_put_perm r e n).countP_eq, hsame.countP_eq, List.countP_cons, List.countP_cons]
  simp only [beq_iff_eq]
  omega

@[simp] theorem discoveryQueue_put (r : Registry) (e : Endpoint) (n : Node) :
    (r.put e n).discoveryQueue = r.discoveryQueue := rfl

@[simp] theorem good_put (r : Registry) (e : Endpoint) (n : Node) : (r.put e n).good = r.good := rfl

@[simp] theorem queued_put (r : Registry) (e : Endpoint) (n : Node) :
    (r.put e n).queued = r.queued := rfl

@[simp] theorem connecting_put (r : Registry) (e : Endpoint) (n : Node) :
    (r.put e n).connecting = r.connecting := rfl

@[simp] theorem dead_put (r : Registry) (e : Endpoint) (n : Node) : (r.put e n).dead = r.dead := rfl

/-! ## Visits and keepalive -/

theorem require_eq_ok {r : Registry} {e : Endpoint} {n : Node} :
    r.require e = .ok n ↔ r.node? e = some n := by
  unfold require
  cases r.node? e <;> simp

/-- Two steps of which either may fail succeed together if both do. -/
theorem bind_eq_ok {α β : Type} {x : Except RegistryFault α} {f : α → Except RegistryFault β}
    {b : β} : (x >>= f) = .ok b ↔ ∃ a, x = .ok a ∧ f a = .ok b := by
  cases x <;> simp [bind, Except.bind]

/-- What all marks have in common: one succeeds exactly if the endpoint is known and its node is in the
    only state before the new one, and then it makes of the advanced node what it has to. -/
theorem mark_eq_ok {r r' : Registry} {e : Endpoint} {last next : NodeState} {made : Node → Registry}
    (hlast : ∀ s : NodeState, s.precedes next = true ↔ s = last) :
    (do let n ← (← r.require e).advance next; return made n) = .ok r' ↔
      ∃ n, r.node? e = some n ∧ n.state = last ∧ r' = made { n with state := next } := by
  simp only [bind_eq_ok, require_eq_ok, Node.advance_eq_ok, hlast]
  constructor
  · rintro ⟨n, hn, _, ⟨hs, rfl⟩, h⟩
    exact ⟨n, hn, hs, (Except.ok.inj h).symm⟩
  · rintro ⟨n, hn, hs, rfl⟩
    exact ⟨n, hn, _, ⟨hs, rfl⟩, rfl⟩

theorem markConnecting_eq_ok {r r' : Registry} {e : Endpoint} :
    r.markConnecting e = .ok r' ↔
      ∃ n, r.node? e = some n ∧ n.state = .queued ∧
        r' = { r.put e { n with state := .connecting } with
          queued := r.queued - 1, connecting := r.connecting + 1 } :=
  mark_eq_ok @NodeState.precedes_connecting

theorem markGood_eq_ok {r r' : Registry} {e : Endpoint} {peer : Peer} :
    r.markGood e peer = .ok r' ↔
      ∃ n, r.node? e = some n ∧ n.state = .connecting ∧
        r' = { r.put e { n with state := .good, peer := some peer } with
          connecting := r.connecting - 1, good := r.good.push e } :=
  mark_eq_ok @NodeState.precedes_good

theorem markDead_eq_ok {r r' : Registry} {e : Endpoint} :
    r.markDead e = .ok r' ↔
      ∃ n, r.node? e = some n ∧ n.state = .connecting ∧
        r' = { r.put e { n with state := .dead } with
          connecting := r.connecting - 1, dead := r.dead + 1 } :=
  mark_eq_ok @NodeState.precedes_dead

theorem setPingNonce_eq_ok {r r' : Registry} {e : Endpoint} {nonce : UInt64} :
    r.setPingNonce e nonce = .ok r' ↔
      ∃ n, r.node? e = some n ∧ n.isLive = true ∧
        r' = r.put e { n with pingNonce := nonce } := by
  rw [setPingNonce, bind_eq_ok]
  simp only [require_eq_ok]
  constructor
  · rintro ⟨n, hn, h⟩
    split_ifs at h with hlive
    exact ⟨n, hn, hlive, (Except.ok.inj h).symm⟩
  · rintro ⟨n, hn, hlive, rfl⟩
    exact ⟨n, hn, by rw [if_pos hlive]; rfl⟩

theorem recordPong_eq_ok {r : Registry} {e : Endpoint} {nonce : UInt64}
    {result : Registry × PongOutcome} :
    r.recordPong e nonce = .ok result ↔
      ∃ n, r.node? e = some n ∧
        result = (r.put e (n.recordPong nonce).1, (n.recordPong nonce).2) := by
  rw [recordPong, bind_eq_ok]
  simp only [require_eq_ok]
  constructor
  · rintro ⟨n, hn, h⟩
    exact ⟨n, hn, (Except.ok.inj h).symm⟩
  · rintro ⟨n, hn, rfl⟩
    exact ⟨n, hn, rfl⟩

/-- The registry that a pong leaves, whatever it turns out to be. -/
theorem recordPong_fst_eq_ok {r r' : Registry} {e : Endpoint} {nonce : UInt64} :
    (r.recordPong e nonce).map Prod.fst = .ok r' ↔
      ∃ n, r.node? e = some n ∧ r' = r.put e (n.recordPong nonce).1 := by
  constructor
  · intro h
    cases hresult : r.recordPong e nonce with
    | ok result =>
        rw [hresult] at h
        obtain ⟨n, hn, rfl⟩ := recordPong_eq_ok.mp hresult
        exact ⟨n, hn, (Except.ok.inj h).symm⟩
    | error fault =>
        rw [hresult] at h
        cases h
  · rintro ⟨n, hn, rfl⟩
    rw [recordPong_eq_ok.mpr ⟨n, hn, rfl⟩]
    rfl

/-! ## Discovery -/

theorem addOne_of_known {r : Registry} {e : Endpoint} (k : Nat) (h : (r.node? e).isSome = true) :
    addOne (r, k) e = (r, k) := by
  have hmem : r.nodes.contains e = true := by
    rw [Std.HashMap.contains_eq_isSome_getElem?]
    exact h
  simp [addOne, hmem]

theorem addOne_of_new {r : Registry} {e : Endpoint} (k : Nat) (h : r.node? e = none) :
    addOne (r, k) e = ({ r.put e { endpoint := e } with known := r.known.push e }, k + 1) := by
  have hmem : r.nodes.contains e = false := by
    rw [Std.HashMap.contains_eq_isSome_getElem?]
    simpa [node?] using h
  simp [addOne, hmem, put]

theorem node?_addOne (r : Registry) (k : Nat) (e e' : Endpoint) :
    (addOne (r, k) e).1.node? e'
      = (r.node? e').or (if e = e' then some { endpoint := e' } else none) := by
  cases h : r.node? e with
  | some n =>
      rw [addOne_of_known k (by simp [h])]
      split_ifs with he
      · simp [← he, h]
      · simp
  | none =>
      rw [addOne_of_new k h]
      show (r.put e { endpoint := e }).node? e' = _
      rw [node?_put]
      split_ifs with he
      · simp [← he, h]
      · simp

/-- Adding endpoints makes discovered nodes of the unknown ones and leaves the known ones alone. -/
theorem node?_add (es : List Endpoint) (r : Registry) (e : Endpoint) :
    (r.add es).1.node? e = (r.node? e).or (if e ∈ es then some { endpoint := e } else none) := by
  -- The fold also counts what is new, so the induction is for any registry with any count.
  have hfold : ∀ (es : List Endpoint) (acc : Registry × Nat),
      (es.foldl addOne acc).1.node? e
        = (acc.1.node? e).or (if e ∈ es then some { endpoint := e } else none) := by
    intro es
    induction es with
    | nil => intro acc; simp
    | cons e' rest ih =>
        intro acc
        rw [List.foldl_cons, ih, node?_addOne]
        cases acc.1.node? e with
        | some n => simp
        | none =>
            by_cases he : e' = e
            · simp [he]
            · by_cases hmem : e ∈ rest <;> simp [he, Ne.symm he, hmem]
  exact hfold es (r, 0)

/-- Adding what is known changes nothing. -/
theorem add_of_known {r : Registry} {es : List Endpoint} (h : ∀ e ∈ es, (r.node? e).isSome = true) :
    r.add es = (r, 0) := by
  unfold add
  induction es with
  | nil => rfl
  | cons e rest ih =>
      rw [List.foldl_cons, addOne_of_known 0 (h e List.mem_cons_self)]
      exact ih fun e' he' => h e' (List.mem_cons_of_mem _ he')

end Registry

end BitcoinCrawl
