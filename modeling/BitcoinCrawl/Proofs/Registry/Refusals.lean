import BitcoinCrawl.Proofs.Registry.Transitions

set_option autoImplicit false

/-! # Calls that fail

A call is refused for exactly one of three reasons (`result_eq_error`). It then gives no registry, so that it
leaves none half changed shows only where it is carried out piece by piece on the registry itself: there
whatever was written before a fault stays written. This file carries the calls out that way too, in the order
in which they look up, check and write, and finds that all faults come before the first write
(`carryOut_agrees`). -/

namespace BitcoinCrawl.Registry

variable {r : Registry} {e : Endpoint}

/-! ## Why a call is refused -/

/-- What a call gives. -/
def result (r : Registry) : Call → Except RegistryFault Registry
  | .add endpoints => .ok (r.add endpoints).1
  | .takeNext => .ok r.takeNext.registry
  | .markConnecting e => r.markConnecting e
  | .markGood e peer => r.markGood e peer
  | .markDead e => r.markDead e
  | .setPingNonce e nonce => r.setPingNonce e nonce
  | .recordPong e nonce => (r.recordPong e nonce).map Prod.fst

theorem perform_eq (r : Registry) (call : Call) : r.perform call = r.orKept (r.result call) := by
  cases call <;> rfl

/-- The endpoint that has to be known for a call. -/
def Call.subject? : Call → Option Endpoint
  | .add _ | .takeNext => none
  | .markConnecting e | .markGood e _ | .markDead e | .setPingNonce e _ | .recordPong e _ => some e

/-- Why a call is refused. -/
inductive Refused (r : Registry) : Call → RegistryFault → Prop
  /-- The endpoint is unknown. -/
  | unknown {call : Call} {e : Endpoint} (subject : call.subject? = some e) (h : r.state? e = none) :
      Refused r call (.unknownEndpoint e)
  /-- The edge that is asked for does not start where the node is. -/
  | edge {call : Call} {e : Endpoint} {last next s : NodeState}
      (transition : call.transition? = some (e, last, next)) (h : r.state? e = some s) (hs : s ≠ last) :
      Refused r call (.invalidTransition e s next)
  /-- A ping is noted of a node that is neither being dialed nor connected. -/
  | notLive {e : Endpoint} {nonce : UInt64} {s : NodeState} (h : r.state? e = some s)
      (hconnecting : s ≠ .connecting) (hgood : s ≠ .good) :
      Refused r (.setPingNonce e nonce) (.notLive e s)

/-- A mark of an endpoint is refused if that is unknown, or its node is not where the edge starts. -/
theorem refused_mark {call : Call} {last next : NodeState} {fault : RegistryFault}
    (hcall : call.transition? = some (e, last, next)) :
    Refused r call fault ↔ (r.state? e = none ∧ fault = .unknownEndpoint e) ∨
      ∃ s, r.state? e = some s ∧ s ≠ last ∧ fault = .invalidTransition e s next := by
  have hsubject : call.subject? = some e := by
    cases call <;> cases hcall <;> rfl
  constructor
  · intro h
    cases h with
    | unknown subject hnone =>
        cases hsubject.symm.trans subject
        exact .inl ⟨hnone, rfl⟩
    | edge transition hstate hs =>
        cases hcall.symm.trans transition
        exact .inr ⟨_, hstate, hs, rfl⟩
    | notLive => cases hcall
  · rintro (⟨hnone, rfl⟩ | ⟨s, hstate, hs, rfl⟩)
    · exact .unknown hsubject hnone
    · exact .edge hcall hstate hs

theorem Refused.subject {call : Call} {fault : RegistryFault} (h : Refused r call fault) :
    ∃ e, call.subject? = some e := by
  cases h with
  | unknown subject => exact ⟨_, subject⟩
  | edge transition => cases call <;> cases transition <;> exact ⟨_, rfl⟩
  | notLive => exact ⟨_, rfl⟩

theorem require_eq_error {fault : RegistryFault} :
    r.require e = .error fault ↔ r.node? e = none ∧ fault = .unknownEndpoint e := by
  unfold require
  cases r.node? e <;> simp [eq_comm]

/-- What all marks have in common when they fail. -/
theorem mark_eq_error {last next : NodeState} {made : Node → Registry} {fault : RegistryFault}
    (hc : r.Consistent) (hlast : ∀ s : NodeState, s.precedes next = true ↔ s = last) :
    (do let n ← (← r.require e).advance next; return made n) = .error fault ↔
      (r.state? e = none ∧ fault = .unknownEndpoint e) ∨
        ∃ s, r.state? e = some s ∧ s ≠ last ∧ fault = .invalidTransition e s next := by
  cases hn : r.node? e with
  | none =>
      rw [require_eq_error.mpr ⟨hn, rfl⟩]
      simp [state?, hn, bind, Except.bind, eq_comm]
  | some n =>
      rw [require_eq_ok.mpr hn, state?_of_node? hn]
      by_cases hs : n.state = last
      · have hadvance : n.advance next = .ok { n with state := next } :=
          Node.advance_eq_ok.mpr ⟨(hlast _).mpr hs, rfl⟩
        simp [bind, Except.bind, pure, Except.pure, hadvance, hs]
      · have hadvance : n.advance next = .error (.invalidTransition e n.state next) := by
          rw [Node.advance, if_neg (hs ∘ (hlast _).mp), hc.keyed e n hn]
        simp [bind, Except.bind, hadvance, Ne.symm hs, eq_comm]

theorem setPingNonce_eq_error {nonce : UInt64} {fault : RegistryFault} :
    r.setPingNonce e nonce = .error fault ↔
      (r.state? e = none ∧ fault = .unknownEndpoint e) ∨
        ∃ s, r.state? e = some s ∧ s ≠ .connecting ∧ s ≠ .good ∧ fault = .notLive e s := by
  cases hn : r.node? e with
  | none =>
      rw [setPingNonce, require_eq_error.mpr ⟨hn, rfl⟩]
      simp [state?, hn, bind, Except.bind, eq_comm]
  | some n =>
      rw [setPingNonce, require_eq_ok.mpr hn, state?_of_node? hn]
      by_cases hlive : n.isLive = true
      · have hstate : n.state = .connecting ∨ n.state = .good := by simpa [Node.isLive] using hlive
        rcases hstate with hs | hs <;> simp [bind, Except.bind, pure, Except.pure, hlive, hs]
      · have hstate : n.state ≠ .connecting ∧ n.state ≠ .good := by simpa [Node.isLive] using hlive
        simp [bind, Except.bind, throw, throwThe, MonadExceptOf.throw, hlive, hstate, eq_comm]

theorem recordPong_eq_error {nonce : UInt64} {fault : RegistryFault} :
    r.recordPong e nonce = .error fault ↔ r.state? e = none ∧ fault = .unknownEndpoint e := by
  cases hn : r.node? e with
  | none =>
      rw [recordPong, require_eq_error.mpr ⟨hn, rfl⟩]
      simp [state?, hn, bind, Except.bind, eq_comm]
  | some n =>
      rw [recordPong, require_eq_ok.mpr hn, state?_of_node? hn]
      simp [bind, Except.bind, pure, Except.pure]

/-- **A call is refused for exactly one of three reasons.** -/
theorem result_eq_error {call : Call} {fault : RegistryFault} (hc : r.Consistent) :
    r.result call = .error fault ↔ Refused r call fault := by
  cases call with
  | add | takeNext =>
      refine ⟨nofun, fun h => ?_⟩
      obtain ⟨e, he⟩ := h.subject
      cases he
  | markConnecting e => exact (mark_eq_error hc @NodeState.precedes_connecting).trans (refused_mark rfl).symm
  | markGood e peer => exact (mark_eq_error hc @NodeState.precedes_good).trans (refused_mark rfl).symm
  | markDead e => exact (mark_eq_error hc @NodeState.precedes_dead).trans (refused_mark rfl).symm
  | setPingNonce e nonce =>
      refine setPingNonce_eq_error.trans ⟨?_, fun h => ?_⟩
      · rintro (⟨hnone, rfl⟩ | ⟨s, hstate, hconnecting, hgood, rfl⟩)
        · exact .unknown rfl hnone
        · exact .notLive hstate hconnecting hgood
      · cases h with
        | unknown subject hnone =>
            cases subject
            exact .inl ⟨hnone, rfl⟩
        | edge transition => cases transition
        | notLive hstate hconnecting hgood => exact .inr ⟨_, hstate, hconnecting, hgood, rfl⟩
  | recordPong e nonce =>
      have hresult : r.result (.recordPong e nonce) = .error fault ↔ r.recordPong e nonce = .error fault := by
        rw [result]
        cases r.recordPong e nonce <;> simp [Except.map]
      refine hresult.trans (recordPong_eq_error.trans ⟨?_, fun h => ?_⟩)
      · rintro ⟨hnone, rfl⟩
        exact .unknown rfl hnone
      · cases h with
        | unknown subject hnone =>
            cases subject
            exact ⟨hnone, rfl⟩
        | edge transition => cases transition

/-! ## Carrying calls out -/

/-- A computation that writes to the registry as it goes. -/
abbrev InPlace := EStateM RegistryFault Registry

namespace InPlace

/-- The node of an endpoint, which has to be known. -/
def lookUp (e : Endpoint) : InPlace Node := do
  match (← get).node? e with
  | some node => return node
  | none => throw (.unknownEndpoint e)

/-- Move the node of an endpoint to a state that directly follows. -/
def advance (e : Endpoint) (next : NodeState) : InPlace Node := do
  let node ← lookUp e
  if node.state.precedes next then
    modify (put e { node with state := next })
    return { node with state := next }
  else throw (.invalidTransition node.endpoint node.state next)

/-- A queued node is being dialed. -/
def markConnecting (e : Endpoint) : InPlace Unit := do
  let _ ← advance e .connecting
  modify fun r => { r with queued := r.queued - 1 }
  modify fun r => { r with connecting := r.connecting + 1 }

/-- A dialed node has completed its handshake: the state is written first, then the peer. -/
def markGood (e : Endpoint) (peer : Peer) : InPlace Unit := do
  let node ← advance e .good
  modify (put e { node with peer := some peer })
  modify fun r => { r with connecting := r.connecting - 1 }
  modify fun r => { r with good := r.good.push e }

/-- A dialed node could not be reached. -/
def markDead (e : Endpoint) : InPlace Unit := do
  let _ ← advance e .dead
  modify fun r => { r with connecting := r.connecting - 1 }
  modify fun r => { r with dead := r.dead + 1 }

/-- Note the nonce of a ping to a live node. -/
def setPingNonce (e : Endpoint) (nonce : UInt64) : InPlace Unit := do
  let node ← lookUp e
  match node.state with
  | .connecting | .good => modify (put e { node with pingNonce := nonce })
  | state => throw (.notLive e state)

/-- Match a pong with the ping that is out. -/
def recordPong (e : Endpoint) (nonce : UInt64) : InPlace PongOutcome := do
  let node ← lookUp e
  let (node, outcome) := node.recordPong nonce
  modify (put e node)
  return outcome

end InPlace

/-- A call carried out in place. -/
def Call.carryOut : Call → InPlace Unit
  | .add endpoints => modify fun r => (r.add endpoints).1
  | .takeNext => modify fun r => r.takeNext.registry
  | .markConnecting e => InPlace.markConnecting e
  | .markGood e peer => InPlace.markGood e peer
  | .markDead e => InPlace.markDead e
  | .setPingNonce e nonce => InPlace.setPingNonce e nonce
  | .recordPong e nonce => discard (InPlace.recordPong e nonce)

/-- Registries that differ in nothing but how the table of nodes is laid out. -/
structure Alike (r r' : Registry) : Prop where
  nodes : r.nodes.Equiv r'.nodes
  rest : { r with nodes := r'.nodes } = r'

theorem Alike.refl (r : Registry) : Alike r r := ⟨.rfl, rfl⟩

theorem Alike.node? {r' : Registry} (h : Alike r r') (e : Endpoint) : r.node? e = r'.node? e :=
  h.nodes.getElem?_eq

theorem Alike.counts {r' : Registry} (h : Alike r r') : r.counts = r'.counts := by
  rw [← h.rest]
  simp only [Registry.counts, h.nodes.size_eq]

theorem Alike.goodRecords {r' : Registry} (h : Alike r r') : r.goodRecords = r'.goodRecords := by
  have hgood : r'.good = r.good := by rw [← h.rest]
  simp only [Registry.goodRecords, hgood, h.node?]

theorem lookUp_known {n : Node} (hn : r.node? e = some n) : InPlace.lookUp e r = .ok n r := by
  show (match r.node? e with | some n => pure n | none => throw (.unknownEndpoint e) : InPlace Node) r = _
  rw [hn]
  rfl

theorem lookUp_unknown (hn : r.node? e = none) :
    InPlace.lookUp e r = .error (.unknownEndpoint e) r := by
  show (match r.node? e with | some n => pure n | none => throw (.unknownEndpoint e) : InPlace Node) r = _
  rw [hn]
  rfl

/-- How a call carried out in place ends where one that gives a new registry ends in a given way: at a fault
    with the registry it started from, and otherwise with the new one. -/
inductive Agrees (r : Registry) :
    Except RegistryFault Registry → EStateM.Result RegistryFault Registry Unit → Prop
  | fault (fault : RegistryFault) : Agrees r (.error fault) (.error fault r)
  | done {made written : Registry} (alike : Alike made written) : Agrees r (.ok made) (.ok () written)

/-- A mark agrees if its writes do. -/
theorem Agrees.mark {next : NodeState} {made : Node → Registry} {write : Node → InPlace Unit}
    (h : ∀ n, Agrees r (.ok (made n)) (write n (r.put e n))) :
    Agrees r (do let n ← (← r.require e).advance next; return made n)
      ((InPlace.advance e next >>= write) r) := by
  cases hn : r.node? e with
  | none =>
      rw [require_eq_error.mpr ⟨hn, rfl⟩]
      simp only [InPlace.advance, bind, EStateM.bind, lookUp_unknown hn, Except.bind]
      exact .fault _
  | some n =>
      rw [require_eq_ok.mpr hn]
      simp only [InPlace.advance, bind, EStateM.bind, lookUp_known hn, Except.bind, Node.advance]
      split_ifs with hs
      · exact h { n with state := next }
      · exact .fault _

/-- Writing a node twice leaves what was written last. -/
theorem equiv_put_put (r : Registry) (e : Endpoint) (first second : Node) :
    (r.put e second).nodes.Equiv ((r.put e first).put e second).nodes := by
  refine Std.HashMap.Equiv.of_forall_getElem?_eq fun e' => ?_
  show (r.put e second).node? e' = ((r.put e first).put e second).node? e'
  simp only [node?_put]
  split_ifs <;> rfl

/-- **A call carried out in place writes nothing before it fails**, and what it writes otherwise is what the
    call gives. -/
theorem carryOut_agrees (r : Registry) (call : Call) : Agrees r (r.result call) (call.carryOut r) := by
  cases call with
  | add | takeNext => exact .done (.refl _)
  | markConnecting e => exact .mark fun n => .done (.refl _)
  | markGood e peer => exact .mark fun n => .done ⟨equiv_put_put r e n { n with peer := some peer }, rfl⟩
  | markDead e => exact .mark fun n => .done (.refl _)
  | setPingNonce e nonce =>
      cases hn : r.node? e with
      | none =>
          simp only [result, setPingNonce, require_eq_error.mpr ⟨hn, rfl⟩, Call.carryOut,
            InPlace.setPingNonce, bind, EStateM.bind, lookUp_unknown hn]
          exact .fault _
      | some n =>
          obtain ⟨endpoint, state, pingNonce, pingCount, peer⟩ := n
          simp only [result, setPingNonce, require_eq_ok.mpr hn, Call.carryOut, InPlace.setPingNonce, bind,
            EStateM.bind, lookUp_known hn, Except.bind, Node.isLive]
          cases state with
          | connecting | good => exact .done (.refl _)
          | discovered | queued | dead => exact .fault _
  | recordPong e nonce =>
      cases hn : r.node? e with
      | none =>
          simp only [result, recordPong, require_eq_error.mpr ⟨hn, rfl⟩, Call.carryOut, InPlace.recordPong,
            discard, Functor.mapConst, EStateM.map, Function.comp_apply, bind, EStateM.bind,
            lookUp_unknown hn]
          exact .fault _
      | some n =>
          simp only [result, recordPong, require_eq_ok.mpr hn, Call.carryOut, InPlace.recordPong, discard,
            Functor.mapConst, EStateM.map, Function.comp_apply, bind, EStateM.bind,
            lookUp_known hn]
          exact .done (.refl _)

end BitcoinCrawl.Registry
