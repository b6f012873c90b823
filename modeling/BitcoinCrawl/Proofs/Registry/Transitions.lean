import BitcoinCrawl.Proofs.Registry.Calls

set_option autoImplicit false

/-! # What calls do to the states of nodes

A mark takes a node from one state to the next and leaves all others alone; it succeeds exactly if the node
is in the first of the two. Keepalive calls change no state, and announcements none but that of new nodes.
So a node that is classified stays as it is. -/

namespace BitcoinCrawl

theorem NodeState.not_precedes_of_terminal {s : NodeState} (h : s.isTerminal = true) (next : NodeState) :
    s.precedes next = false := by
  cases s <;> first | rfl | cases h

namespace Registry

/-- Whether a call gives a result. -/
def succeeds (r : Registry) : Call → Bool
  | .add _ | .takeNext => true
  | .markConnecting e => (r.markConnecting e).isOk
  | .markGood e peer => (r.markGood e peer).isOk
  | .markDead e => (r.markDead e).isOk
  | .setPingNonce e nonce => (r.setPingNonce e nonce).isOk
  | .recordPong e nonce => (r.recordPong e nonce).isOk

/-- The node a mark is about, and the states it takes that node from and to. -/
def Call.transition? : Call → Option (Endpoint × NodeState × NodeState)
  | .markConnecting e => some (e, .queued, .connecting)
  | .markGood e _ => some (e, .connecting, .good)
  | .markDead e => some (e, .connecting, .dead)
  | _ => none

variable {r : Registry} {e : Endpoint}

theorem isOk_of_eq {α β : Type} {x : Except α β} {b : β} (h : x = .ok b) : x.isOk = true := by
  rw [h]
  rfl

/-- A mark of a node in the right state succeeds and changes the state of that node only. -/
theorem perform_mark (call : Call) {last next : NodeState}
    (hcall : call.transition? = some (e, last, next)) (hstate : r.state? e = some last) :
    r.succeeds call = true ∧
      ∀ e', (r.perform call).state? e' = if e = e' then some next else r.state? e' := by
  obtain ⟨n, hn, hs⟩ := state?_eq_some.mp hstate
  cases call with
  | markConnecting e₁ =>
      cases hcall
      have hok := markConnecting_eq_ok.mpr ⟨n, hn, hs, rfl⟩
      refine ⟨isOk_of_eq hok, fun e' => ?_⟩
      simp only [perform, hok]
      exact state?_put r e e' { n with state := .connecting }
  | markGood e₁ peer =>
      cases hcall
      have hok : r.markGood e peer = .ok _ := markGood_eq_ok.mpr ⟨n, hn, hs, rfl⟩
      refine ⟨isOk_of_eq hok, fun e' => ?_⟩
      simp only [perform, hok]
      exact state?_put r e e' { n with state := .good, peer := some peer }
  | markDead e₁ =>
      cases hcall
      have hok := markDead_eq_ok.mpr ⟨n, hn, hs, rfl⟩
      refine ⟨isOk_of_eq hok, fun e' => ?_⟩
      simp only [perform, hok]
      exact state?_put r e e' { n with state := .dead }
  | add | takeNext | setPingNonce | recordPong => cases hcall

/-- A mark that succeeds found its node in the right state. -/
theorem state?_of_markConnecting {r' : Registry} (h : r.markConnecting e = .ok r') :
    r.state? e = some .queued ∧ r' = r.perform (.markConnecting e) := by
  obtain ⟨n, hn, hs, -⟩ := markConnecting_eq_ok.mp h
  refine ⟨state?_eq_some.mpr ⟨n, hn, hs⟩, ?_⟩
  simp only [perform, h]
  rfl

theorem setPingNonce_succeeds {n : Node} (nonce : UInt64) (hn : r.node? e = some n)
    (live : n.isLive = true) : r.succeeds (.setPingNonce e nonce) = true :=
  isOk_of_eq (setPingNonce_eq_ok.mpr ⟨n, hn, live, rfl⟩)

theorem recordPong_succeeds {n : Node} (nonce : UInt64) (hn : r.node? e = some n) :
    r.succeeds (.recordPong e nonce) = true :=
  isOk_of_eq (recordPong_eq_ok.mpr ⟨n, hn, rfl⟩)

/-! ## Calls that mark nothing -/

theorem state?_put_same {n m : Node} (hn : r.node? e = some n) (hs : m.state = n.state)
    (e' : Endpoint) : (r.put e m).state? e' = r.state? e' := by
  rw [state?_put]
  split_ifs with he
  · rw [← he, state?_of_node? hn, hs]
  · rfl

theorem state?_setPingNonce (r : Registry) (e e' : Endpoint) (nonce : UInt64) :
    (r.perform (.setPingNonce e nonce)).state? e' = r.state? e' := by
  simp only [perform]
  cases h : r.setPingNonce e nonce with
  | ok r' =>
      obtain ⟨n, hn, -, rfl⟩ := setPingNonce_eq_ok.mp h
      exact state?_put_same (m := { n with pingNonce := nonce }) hn rfl e'
  | error fault => rfl

theorem state?_recordPong (r : Registry) (e e' : Endpoint) (nonce : UInt64) :
    (r.perform (.recordPong e nonce)).state? e' = r.state? e' := by
  simp only [perform]
  cases h : r.recordPong e nonce with
  | ok result =>
      obtain ⟨n, hn, rfl⟩ := recordPong_eq_ok.mp h
      exact state?_put_same hn (n.recordPong_state nonce) e'
  | error fault => rfl

/-- An announcement is news about new endpoints only. -/
theorem state?_add {s : NodeState} (r : Registry) (es : List Endpoint) (e : Endpoint)
    (hs : s ≠ .discovered) : (r.perform (.add es)).state? e = some s ↔ r.state? e = some s := by
  simp only [perform, state?, node?_add]
  cases r.node? e with
  | some n => simp
  | none =>
      split_ifs
      · simp [hs.symm]
      · simp

/-- What leaves the discovery queue is queued then. -/
theorem Consistent.takeNext_cases (hc : r.Consistent) :
    r.takeNext = { registry := r } ∨
      ∃ e, r.takeNext.endpoint = some e ∧ r.state? e = some .discovered ∧
        ∀ e', (r.perform .takeNext).state? e' = if e = e' then some .queued else r.state? e' := by
  cases hqueue : r.discoveryQueue with
  | nil => exact .inl (takeNext_of_nil hqueue)
  | cons e rest =>
      obtain ⟨n, hn, hs, htake⟩ := hc.takeNext_of_cons hqueue
      refine .inr ⟨e, by rw [htake], state?_eq_some.mpr ⟨n, hn, hs⟩, fun e' => ?_⟩
      simp only [Registry.perform, htake]
      exact state?_put r e e' { n with state := .queued }

/-! ## One node under one call -/

/-- What one call can make of a known node: the same, one with another ping out or with its ping answered,
    or one in a state that follows. -/
inductive Followed (call : Call) (e : Endpoint) (n : Node) : Node → Prop
  | same : Followed call e n n
  | pinged (nonce : UInt64) (h : call = .setPingNonce e nonce) :
      Followed call e n { n with pingNonce := nonce }
  | answered (nonce : UInt64) (h : call = .recordPong e nonce) : Followed call e n (n.recordPong nonce).1
  | advanced (next : NodeState) (peer : Option Peer) (follows : n.state.precedes next = true) :
      Followed call e n { n with state := next, peer }

/-- A call that is no announcement does nothing to the nodes, or puts one known node. -/
theorem Consistent.perform_put (hc : r.Consistent) {call : Call} (hcall : ∀ es, call ≠ .add es) :
    (∀ e, (r.perform call).node? e = r.node? e) ∨
      ∃ e' old new, r.node? e' = some old ∧ Followed call e' old new ∧
        ∀ e, (r.perform call).node? e = if e' = e then some new else r.node? e := by
  cases call with
  | add es => exact absurd rfl (hcall es)
  | takeNext =>
      simp only [Registry.perform]
      cases hqueue : r.discoveryQueue with
      | nil =>
          rw [takeNext_of_nil hqueue]
          exact .inl fun _ => rfl
      | cons e' rest =>
          obtain ⟨old, hold, hs, htake⟩ := hc.takeNext_of_cons hqueue
          rw [htake]
          exact .inr ⟨e', old, _, hold, .advanced .queued old.peer (by rw [hs]; rfl),
            fun e => node?_put r e' e _⟩
  | markConnecting e' =>
      simp only [Registry.perform]
      cases h : r.markConnecting e' with
      | ok r' =>
          obtain ⟨old, hold, hs, rfl⟩ := markConnecting_eq_ok.mp h
          exact .inr ⟨e', old, _, hold, .advanced .connecting old.peer (by rw [hs]; rfl),
            fun e => node?_put r e' e _⟩
      | error fault => exact .inl fun _ => rfl
  | markGood e' peer =>
      simp only [Registry.perform]
      cases h : r.markGood e' peer with
      | ok r' =>
          obtain ⟨old, hold, hs, rfl⟩ := markGood_eq_ok.mp h
          exact .inr ⟨e', old, _, hold, .advanced .good (some peer) (by rw [hs]; rfl),
            fun e => node?_put r e' e _⟩
      | error fault => exact .inl fun _ => rfl
  | markDead e' =>
      simp only [Registry.perform]
      cases h : r.markDead e' with
      | ok r' =>
          obtain ⟨old, hold, hs, rfl⟩ := markDead_eq_ok.mp h
          exact .inr ⟨e', old, _, hold, .advanced .dead old.peer (by rw [hs]; rfl),
            fun e => node?_put r e' e _⟩
      | error fault => exact .inl fun _ => rfl
  | setPingNonce e' nonce =>
      simp only [Registry.perform]
      cases h : r.setPingNonce e' nonce with
      | ok r' =>
          obtain ⟨old, hold, -, rfl⟩ := setPingNonce_eq_ok.mp h
          exact .inr ⟨e', old, _, hold, .pinged nonce rfl, fun e => node?_put r e' e _⟩
      | error fault => exact .inl fun _ => rfl
  | recordPong e' nonce =>
      simp only [Registry.perform]
      cases h : r.recordPong e' nonce with
      | ok result =>
          obtain ⟨old, hold, rfl⟩ := recordPong_eq_ok.mp h
          exact .inr ⟨e', old, _, hold, .answered nonce rfl, fun e => node?_put r e' e _⟩
      | error fault => exact .inl fun _ => rfl

/-- What a call makes of a known node. -/
theorem Consistent.perform_followed {n : Node} (hc : r.Consistent) (call : Call)
    (hn : r.node? e = some n) : ∃ n', (r.perform call).node? e = some n' ∧ Followed call e n n' := by
  by_cases hadd : ∃ es, call = .add es
  · obtain ⟨es, rfl⟩ := hadd
    refine ⟨n, ?_, .same⟩
    simp only [Registry.perform, node?_add, hn, Option.some_or]
  · rcases hc.perform_put (not_exists.mp hadd) with hsame | ⟨e', old, new, hold, hfollowed, hput⟩
    · exact ⟨n, (hsame e).trans hn, .same⟩
    · rw [hput]
      split_ifs with he
      · subst he
        rw [hold] at hn
        cases hn
        exact ⟨new, rfl, hfollowed⟩
      · exact ⟨n, hn, .same⟩

/-- Only announcements make endpoints known, and their nodes start from nothing. -/
theorem Consistent.perform_unknown (hc : r.Consistent) (call : Call) (hunknown : r.node? e = none) :
    (r.perform call).node? e = none ∨ (r.perform call).node? e = some { endpoint := e } := by
  by_cases hadd : ∃ es, call = .add es
  · obtain ⟨es, rfl⟩ := hadd
    simp only [Registry.perform, node?_add, hunknown, Option.none_or]
    split_ifs <;> simp
  · refine .inl ?_
    rcases hc.perform_put (not_exists.mp hadd) with hsame | ⟨e', old, new, hold, hfollowed, hput⟩
    · exact (hsame e).trans hunknown
    · rw [hput, if_neg, hunknown]
      rintro rfl
      rw [hold] at hunknown
      cases hunknown

/-! ## Classified nodes and pings -/

/-- No call takes a node out of a state that no other follows, or makes it another peer. -/
theorem Followed.terminal {call : Call} {n n' : Node} (h : Followed call e n n')
    (terminal : n.state.isTerminal = true) : n'.state = n.state ∧ n'.peer = n.peer := by
  cases h with
  | same | pinged => exact ⟨rfl, rfl⟩
  | answered nonce => exact ⟨n.recordPong_state nonce, n.recordPong_peer nonce⟩
  | advanced next peer follows =>
      rw [NodeState.not_precedes_of_terminal terminal next] at follows
      cases follows

/-- Once classified, a node stays as it is whatever is called. -/
theorem Consistent.performAll_terminal (hc : r.Consistent) (calls : List Call) {n : Node}
    (hn : r.node? e = some n) (terminal : n.state.isTerminal = true) :
    ∃ n', (r.performAll calls).node? e = some n' ∧ n'.state = n.state ∧ n'.peer = n.peer := by
  -- By induction on the calls; what each keeps is what makes the rest keep it too.
  induction calls generalizing r n with
  | nil => exact ⟨n, hn, rfl, rfl⟩
  | cons call rest ih =>
      obtain ⟨n₁, hn₁, hfollowed⟩ := hc.perform_followed call hn
      obtain ⟨hs₁, hpeer₁⟩ := hfollowed.terminal terminal
      obtain ⟨n₂, hn₂, hs₂, hpeer₂⟩ := ih (hc.perform call) hn₁ (hs₁ ▸ terminal)
      exact ⟨n₂, hn₂, hs₂.trans hs₁, hpeer₂.trans hpeer₁⟩

end Registry

/-- A ping to the node is out or was answered. -/
def Node.WasPinged (n : Node) : Prop := n.pingNonce ≠ 0 ∨ n.pingCount ≠ 0

/-- Only a ping that is out can be answered. -/
theorem Node.WasPinged.of_recordPong {n : Node} {nonce : UInt64}
    (h : (n.recordPong nonce).1.WasPinged) : n.WasPinged := by
  unfold recordPong at h
  split_ifs at h with hnone
  · exact h
  · exact .inl hnone
  · exact h

namespace Registry

variable {r : Registry} {e : Endpoint}

/-- A node was pinged before a call, or the call is about that. -/
theorem Consistent.perform_pinged {n : Node} (hc : r.Consistent) (call : Call)
    (hn : (r.perform call).node? e = some n) (hpinged : n.WasPinged) :
    (∃ n, r.node? e = some n ∧ n.WasPinged) ∨ ∃ nonce, call = .setPingNonce e nonce := by
  cases hbefore : r.node? e with
  | none =>
      -- A node that was unknown starts without a ping.
      rcases hc.perform_unknown call hbefore with hn' | hn'
      · rw [hn'] at hn
        cases hn
      · rw [hn'] at hn
        cases hn
        rcases hpinged with hnonce | hcount
        · exact absurd rfl hnonce
        · exact absurd rfl hcount
  | some old =>
      obtain ⟨n', hn', hfollowed⟩ := hc.perform_followed call hbefore
      rw [hn'] at hn
      cases hn
      cases hfollowed with
      | same => exact .inl ⟨_, rfl, hpinged⟩
      | pinged nonce h => exact .inr ⟨nonce, h⟩
      | answered nonce => exact .inl ⟨_, rfl, hpinged.of_recordPong⟩
      | advanced next peer follows => exact .inl ⟨_, rfl, hpinged⟩

end Registry

end BitcoinCrawl
