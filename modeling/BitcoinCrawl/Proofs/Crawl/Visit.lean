import BitcoinCrawl.Proofs.Crawl.Outline

set_option autoImplicit false

/-! # What visits leave alone

A visit is a dial with its handshake and then a session. Neither changes the clock, the stop flag or the
number of visits; a dial keeps away from the registry too, and the peer it ends with is the one it was for.
-/

namespace BitcoinCrawl

/-- Two shared states that differ at most in registry, log, signals, nonces and message counters. -/
structure SameGround (s s' : Shared) : Prop where
  now : s'.now = s.now
  cancelled : s'.cancelled = s.cancelled
  active : s'.metrics.active = s.metrics.active

namespace Dial

theorem answered_registry (world : World) (e : Endpoint) (due : Nat) (s : Shared) :
    (answered world e due s).2.1.registry = s.registry := by
  unfold answered
  split <;> rfl

theorem answered_ground (world : World) (e : Endpoint) (due : Nat) (s : Shared) :
    SameGround s (answered world e due s).2.1 := by
  unfold answered
  split <;> exact ⟨rfl, rfl, rfl⟩

theorem step_registry (world : World) (e : Endpoint) (dial : Dial) (s : Shared) :
    (dial.step world e s).2.1.registry = s.registry := by
  cases dial with
  | unanswered due =>
      simp only [step]
      split
      · exact answered_registry world e _ s
      · rfl
  | shaking handshake link =>
      simp only [step]
      split <;> rfl

theorem step_ground (world : World) (e : Endpoint) (dial : Dial) (s : Shared) :
    SameGround s (dial.step world e s).2.1 := by
  cases dial with
  | unanswered due =>
      simp only [step]
      split
      · exact answered_ground world e _ s
      · exact ⟨rfl, rfl, rfl⟩
  | shaking handshake link =>
      simp only [step]
      split <;> exact ⟨rfl, rfl, rfl⟩

/-- The handshake of a dial, if it has come to that, is with the peer behind an endpoint. -/
def IsFor (e : Endpoint) : Dial → Prop
  | unanswered _ => True
  | shaking handshake _ => handshake.peer.endpoint = e

end Dial

namespace Handshake

/-- Whatever the peer says about itself, it stays the peer behind its endpoint. -/
theorem receive_endpoint (h : Handshake) (r : Received) :
    (h.receive r).handshake.peer.endpoint = h.peer.endpoint := by
  unfold receive
  split
  -- A version message fills in what else is known of the peer, never its endpoint.
  · unfold onMessage
    split
    · split_ifs
      · rfl
      · unfold onVersion
        split_ifs <;> rfl
    · rfl
    · rfl
  · split_ifs <;> rfl

theorem step_endpoint (now : Nat) (h : Handshake) (link : Link) :
    (h.step now link).handshake.peer.endpoint = h.peer.endpoint := by
  unfold step
  split
  · split <;> rfl
  · split_ifs
    · rfl
    · split
      · exact h.receive_endpoint _
      · rfl

end Handshake

namespace Dial

theorem step_isFor (world : World) {e : Endpoint} {dial : Dial} (s : Shared) (h : dial.IsFor e) :
    (dial.step world e s).1.IsFor e := by
  cases dial with
  | unanswered due =>
      simp only [step]
      split_ifs
      · unfold answered
        split
        · trivial
        · trivial
        · exact rfl
      · trivial
  | shaking handshake link =>
      have hpeer : (handshake.step s.now link).handshake.peer.endpoint = e :=
        (handshake.step_endpoint s.now link).trans h
      simp only [step]
      split <;> exact hpeer

/-- A connection is one to the peer behind the endpoint that was dialed. -/
theorem step_connected (world : World) {e : Endpoint} {dial : Dial} {s : Shared}
    {connected : Connected} (h : dial.IsFor e)
    (answer : (dial.step world e s).2.2 = .finished (.ok connected)) : connected.peer.endpoint = e := by
  cases dial with
  | unanswered due =>
      -- An answer only begins the handshake.
      simp only [step] at answer
      split_ifs at answer
      unfold answered at answer
      split at answer <;> cases answer
  | shaking handshake link =>
      have hpeer : (handshake.step s.now link).handshake.peer.endpoint = e :=
        (handshake.step_endpoint s.now link).trans h
      simp only [step] at answer
      split at answer <;> cases answer
      exact hpeer

end Dial

namespace Shared

theorem judge_registry (e : Endpoint) (r : Received) (s : Shared) :
    (s.judge e r).1.registry = s.registry := by
  cases r with
  | ok m => rfl
  | error fault =>
      simp only [judge]
      split
      · rfl
      · split <;> rfl

theorem judge_ground (e : Endpoint) (r : Received) (s : Shared) : SameGround s (s.judge e r).1 := by
  cases r with
  | ok m => exact ⟨rfl, rfl, rfl⟩
  | error fault =>
      simp only [judge]
      split
      · exact ⟨rfl, rfl, rfl⟩
      · split <;> exact ⟨rfl, rfl, rfl⟩

theorem handlePong_registry (e : Endpoint) (nonce : UInt64) (s : Shared) :
    (s.handlePong e nonce).registry = s.registry.perform (.recordPong e nonce) := by
  unfold handlePong
  simp only [Registry.perform]
  cases s.registry.recordPong e nonce <;> rfl

theorem handlePong_ground (e : Endpoint) (nonce : UInt64) (s : Shared) :
    SameGround s (s.handlePong e nonce) := by
  unfold handlePong
  cases s.registry.recordPong e nonce <;> exact ⟨rfl, rfl, rfl⟩

theorem handle_edit (e : Endpoint) (notice : Notice) (s : Shared) :
    SessionEdit e s.registry (s.handle e notice).1.registry := by
  cases notice with
  | addr endpoints => exact .announced endpoints
  | addrV2 endpoints => exact .announced endpoints
  | pong nonce =>
      simp only [handle, handlePong_registry]
      exact .ponged nonce
  | _ => exact .none

theorem handle_ground (e : Endpoint) (notice : Notice) (s : Shared) :
    SameGround s (s.handle e notice).1 := by
  cases notice with
  | pong nonce => exact handlePong_ground e nonce s
  | _ => exact ⟨rfl, rfl, rfl⟩

end Shared

namespace Session

/-- What a step of a session keeps, whatever comes of it. -/
structure Kept (session session' : Session) (s s' : Shared) : Prop where
  endpoint : session'.endpoint = session.endpoint
  ground : SameGround s s'
  edit : SessionEdit session.endpoint s.registry s'.registry

theorem stepAwaiting_kept (idle : Option Millis) (session : Session) (deadline : Option Nat)
    (s : Shared) :
    Kept session (session.stepAwaiting idle deadline s).1 s
        (session.stepAwaiting idle deadline s).2.1 ∧
      (session.stepAwaiting idle deadline s).2.1.registry = s.registry := by
  unfold stepAwaiting
  split
  · exact ⟨⟨rfl, ⟨rfl, rfl, rfl⟩, .none⟩, rfl⟩
  · cases hr : session.line.receive s.now with
    | mk line r =>
        cases r with
        | ready r =>
            have hreg := Shared.judge_registry session.endpoint r s
            have hground := Shared.judge_ground session.endpoint r s
            dsimp only
            cases hj : s.judge session.endpoint r with
            | mk s' verdict =>
                rw [hj] at hreg hground
                have hedit : SessionEdit session.endpoint s.registry s'.registry := by
                  rw [hreg]
                  exact .none
                cases verdict <;> exact ⟨⟨rfl, hground, hedit⟩, hreg⟩
        | waiting wake =>
            dsimp only
            split <;> exact ⟨⟨rfl, ⟨rfl, rfl, rfl⟩, .none⟩, rfl⟩

theorem step_kept (idle : Option Millis) (session : Session) (s : Shared) :
    Kept session (session.step idle s).1 s (session.step idle s).2.1 := by
  unfold step
  split
  · exact (stepAwaiting_kept idle session _ s).1
  · rename_i notice hphase
    have hedit := Shared.handle_edit session.endpoint notice s
    have hground := Shared.handle_ground session.endpoint notice s
    cases hh : s.handle session.endpoint notice with
    | mk s' due =>
        rw [hh] at hedit hground
        cases due <;> exact ⟨rfl, hground, hedit⟩
  · exact ⟨rfl, ⟨rfl, rfl, rfl⟩, .none⟩

/-- A session that ends does so while it waits, and then has nothing more to record. -/
theorem step_finished {idle : Option Millis} {session : Session} {s : Shared} {reason : SessionEnd}
    (h : (session.step idle s).2.2 = .finished reason) :
    (session.step idle s).2.1.registry = s.registry := by
  unfold step at h ⊢
  split at h
  · exact (stepAwaiting_kept idle session _ s).2
  · rename_i notice hphase
    cases hh : s.handle session.endpoint notice with
    | mk s' due =>
        rw [hh] at h
        cases due <;> cases h
  · cases h

end Session

end BitcoinCrawl
