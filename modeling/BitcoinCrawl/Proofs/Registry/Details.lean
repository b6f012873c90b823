import BitcoinCrawl.Proofs.Registry.Refusals

set_option autoImplicit false

/-! # What is noted about a node

Beside its state a node has `Details`: what its peer said about itself, which ping is out, and how many pings
were answered. A call that succeeds revises the details of the endpoint it is about, if it is of one of three
kinds, and no others (`Consistent.details_perform`). -/

namespace BitcoinCrawl

/-- What is noted about a node beside its state. -/
structure Details where
  peer : Option Peer := none
  /-- Nonce of the ping that is out, zero if none is. -/
  pingNonce : UInt64 := 0
  pingCount : UInt64 := 0

/-- A pong comes. It counts if it has the nonce of the ping that is out. -/
def Details.answer (nonce : UInt64) (d : Details) : Details :=
  if d.pingNonce ≠ 0 ∧ d.pingNonce = nonce then { d with pingNonce := 0, pingCount := d.pingCount + 1 }
  else d

namespace Node

def details (n : Node) : Details where
  peer := n.peer
  pingNonce := n.pingNonce
  pingCount := n.pingCount

theorem details_recordPong (nonce : UInt64) (n : Node) :
    (n.recordPong nonce).1.details = n.details.answer nonce := by
  unfold recordPong Details.answer
  by_cases hout : n.pingNonce = 0
  · rw [if_pos hout, if_neg fun h => h.1 hout]
  · by_cases hsame : n.pingNonce = nonce
    · rw [if_neg hout, if_pos hsame, if_pos ⟨hout, hsame⟩]
      rfl
    · rw [if_neg hout, if_neg hsame, if_neg fun h => hsame h.2]

end Node

namespace Registry

variable {r : Registry} {e : Endpoint}

/-- What is noted about the node of an endpoint, which is nothing if the endpoint is unknown. -/
def details (r : Registry) (e : Endpoint) : Details := ((r.node? e).map Node.details).getD {}

theorem details_of_node? {n : Node} (hn : r.node? e = some n) : r.details e = n.details := by
  rw [details, hn]
  rfl

theorem details_put (r : Registry) (e e' : Endpoint) (n : Node) :
    (r.put e n).details e' = if e = e' then n.details else r.details e' := by
  simp only [details, node?_put]
  split_ifs <;> rfl

/-- A node is replaced, and what is noted about it revised. -/
theorem details_put_revised {e' : Endpoint} {n : Node} (hn : r.node? e' = some n) (m : Node)
    (revised : Details → Details) (hm : m.details = revised n.details) (e : Endpoint) :
    (r.put e' m).details e = if e' = e then revised (r.details e) else r.details e := by
  rw [details_put, hm]
  split_ifs with he
  · rw [← he, details_of_node? hn]
  · rfl

/-- A node is replaced by one about which the same is noted. -/
theorem details_put_same {e' : Endpoint} {n : Node} (hn : r.node? e' = some n) (m : Node)
    (hm : m.details = n.details) (e : Endpoint) : (r.put e' m).details e = r.details e :=
  (details_put_revised hn m id hm e).trans (ite_self _)

/-- What a call that succeeds makes of what is noted about an endpoint. -/
def Call.revise (e : Endpoint) (d : Details) : Call → Details
  | .markGood e' peer => if e' = e then { d with peer := some peer } else d
  | .setPingNonce e' nonce => if e' = e then { d with pingNonce := nonce } else d
  | .recordPong e' nonce => if e' = e then d.answer nonce else d
  | .add _ | .takeNext | .markConnecting _ | .markDead _ => d

theorem Consistent.details_result {call : Call} {r' : Registry} (hc : r.Consistent)
    (h : r.result call = .ok r') (e : Endpoint) : r'.details e = call.revise e (r.details e) := by
  cases call with
  | add es =>
      cases h
      simp only [details, node?_add, Call.revise]
      cases r.node? e with
      | some n => rfl
      | none => split_ifs <;> rfl
  | takeNext =>
      cases h
      cases hqueue : r.discoveryQueue with
      | nil =>
          rw [takeNext_of_nil hqueue]
          rfl
      | cons e' rest =>
          obtain ⟨n, hn, -, htake⟩ := hc.takeNext_of_cons hqueue
          rw [htake]
          exact details_put_same hn { n with state := .queued } rfl e
  | markConnecting e' =>
      obtain ⟨n, hn, -, rfl⟩ := markConnecting_eq_ok.mp h
      exact details_put_same hn { n with state := .connecting } rfl e
  | markGood e' peer =>
      obtain ⟨n, hn, -, rfl⟩ := markGood_eq_ok.mp h
      exact details_put_revised hn { n with state := .good, peer := some peer }
        (fun d => { d with peer := some peer }) rfl e
  | markDead e' =>
      obtain ⟨n, hn, -, rfl⟩ := markDead_eq_ok.mp h
      exact details_put_same hn { n with state := .dead } rfl e
  | setPingNonce e' nonce =>
      obtain ⟨n, hn, -, rfl⟩ := setPingNonce_eq_ok.mp h
      exact details_put_revised hn { n with pingNonce := nonce } (fun d => { d with pingNonce := nonce }) rfl e
  | recordPong e' nonce =>
      obtain ⟨n, hn, rfl⟩ := recordPong_fst_eq_ok.mp h
      exact details_put_revised hn (n.recordPong nonce).1 (Details.answer nonce) (n.details_recordPong nonce) e

theorem exists_result {call : Call} (h : r.succeeds call = true) : ∃ r', r.result call = .ok r' := by
  cases hresult : r.result call with
  | ok r' => exact ⟨r', rfl⟩
  | error fault =>
      cases call with
      | add | takeNext => cases hresult
      | recordPong e nonce =>
          simp only [succeeds] at h
          simp only [result] at hresult
          cases hpong : r.recordPong e nonce with
          | ok result =>
              rw [hpong] at hresult
              cases hresult
          | error fault =>
              rw [hpong] at h
              cases h
      | _ =>
          simp only [succeeds] at h
          simp only [result] at hresult
          rw [hresult] at h
          cases h

theorem Consistent.details_perform {call : Call} (hc : r.Consistent) (h : r.succeeds call = true)
    (e : Endpoint) : (r.perform call).details e = call.revise e (r.details e) := by
  obtain ⟨r', hresult⟩ := exists_result h
  rw [perform_eq, hresult]
  exact hc.details_result hresult e

/-- A call that is refused revises nothing. -/
theorem Consistent.details_either (hc : r.Consistent) (call : Call) (e : Endpoint) :
    (r.perform call).details e = call.revise e (r.details e) ∨
      (r.perform call).details e = r.details e := by
  rw [perform_eq]
  cases hresult : r.result call with
  | ok r' => exact .inl (hc.details_result hresult e)
  | error fault => exact .inr rfl

theorem Consistent.details_kept (hc : r.Consistent) (call : Call) (e : Endpoint)
    (hcall : call.revise e (r.details e) = r.details e) : (r.perform call).details e = r.details e := by
  rcases hc.details_either call e with hrevised | hsame
  · exact hrevised.trans hcall
  · exact hsame

/-- A pong is of no account to an endpoint that is unknown. -/
theorem Consistent.details_recordPong (hc : r.Consistent) (e' : Endpoint) (nonce : UInt64) (e : Endpoint) :
    (r.perform (.recordPong e' nonce)).details e
      = if e' = e then (r.details e).answer nonce else r.details e := by
  cases hn : r.node? e' with
  | some n => exact hc.details_perform (recordPong_succeeds nonce hn) e
  | none =>
      have hsame : (if e' = e then (r.details e).answer nonce else r.details e) = r.details e := by
        split_ifs with he
        · rw [← he, details, hn]
          rfl
        · rfl
      exact (hc.details_kept (.recordPong e' nonce) e hsame).trans hsame.symm

end Registry

end BitcoinCrawl
