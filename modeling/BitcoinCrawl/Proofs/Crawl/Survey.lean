import BitcoinCrawl.Proofs.Crawl.Custody
import BitcoinCrawl.Proofs.Crawl.Network
import BitcoinCrawl.Proofs.Registry.Discovery

set_option autoImplicit false

/-! # How a crawl explores a network

A `Survey` is the part of a crawl that decides how far it has explored: which endpoints are known, which of
them wait, who is told about that, and what each worker has still to hear or to announce. `Survey.Step` lists
all that one step of any task can do to it while nothing interferes with the crawl (`Crawl.Calm`);
`apply_survey` shows that every step is one of them. -/

namespace BitcoinCrawl

/-! ## What workers have before them -/

/-- The messages that a line has still to bring. -/
def Line.pending : Line → List Message
  | link l => delivered l.outlook
  | inbox _ => []

/-- The endpoints of a notice that a session is about to act on. -/
def SessionPhase.inHand : SessionPhase → List Endpoint
  | handling notice => notice.announced
  | _ => []

def SessionPhase.isSignalling : SessionPhase → Bool
  | signalling => true
  | _ => false

namespace WorkerPhase

/-- The messages that the worker will get from the peer it is connected to. -/
def pending : WorkerPhase → List Message
  | noting _ link | pinging _ link _ => delivered link.outlook
  | serving session => session.line.pending
  | _ => []

/-- The endpoints that the worker is about to add. -/
def inHand : WorkerPhase → List Endpoint
  | serving session => session.phase.inHand
  | _ => []

/-- Whether the worker has added endpoints and has still to tell about them. -/
def isSignalling : WorkerPhase → Bool
  | serving session => session.phase.isSignalling
  | _ => false

/-- The endpoints that the worker will have heard of when its peer hangs up. -/
def upcoming (phase : WorkerPhase) : List Endpoint :=
  phase.inHand ++ announcements phase.pending

/-- What the worker does is what a network says of its endpoint. No worker goes away. -/
def Agrees (net : Network) : WorkerPhase → Prop
  | dialing e dial _ => dial.Keeps (net e)
  | reporting e (.good _) (some link) => link.Fair ∧ net e = some (delivered link.outlook)
  | reporting e (.dead _) none => net e = none
  | reporting .. | exited => False
  | noting _ link | pinging _ link _ => link.Fair
  | serving session => ∃ link, session.line = .link link ∧ link.Fair
  | _ => True

/-- Two places where a worker has the same before it. -/
structure Like (old new : WorkerPhase) : Prop where
  pending : new.pending = old.pending
  inHand : new.inHand = old.inHand
  signalling : new.isSignalling = old.isSignalling

end WorkerPhase

namespace Outcome

/-- The messages that a worker hears after it has reported an outcome. -/
def said (net : Network) : Outcome → List Message
  | good peer => net.said peer.endpoint
  | dead _ => []

/-- An outcome is what a network says of its endpoint. -/
def Right (net : Network) : Outcome → Prop
  | good peer => (net peer.endpoint).isSome = true
  | dead e => net e = none

end Outcome

/-- Whether the feeder has something to do. -/
def Feeder.isBusy : Feeder → Bool
  | starting | reserving | searching | handing _ => true
  | arming | listening | exited => false

/-! ## The survey -/

/-- What decides how far a crawl has explored. -/
structure Survey where
  known : List Endpoint
  /-- Known endpoints that the feeder has not taken. -/
  queue : List Endpoint
  feeder : Feeder
  arrivals : Signal
  /-- Where each worker of the pool stands. -/
  phases : List WorkerPhase
  /-- Messages received. -/
  heard : UInt64
  /-- Whether nobody was told to stop, and endpoints and outcomes find somebody to take them. -/
  running : Bool

/-- The survey of a crawl. -/
def Crawl.survey (c : Crawl) : Survey where
  known := c.shared.registry.known.toList
  queue := c.shared.registry.discoveryQueue
  feeder := c.feeder
  arrivals := c.shared.arrivals
  phases := c.workers.toList.map Worker.phase
  heard := c.shared.metrics.messagesIn
  running := !c.shared.cancelled && c.queue.isOpen && c.aggregator != .exited

namespace Survey

/-- A worker comes to stand somewhere else. -/
def place (i : Nat) (phase : WorkerPhase) (s : Survey) : Survey := { s with phases := s.phases.set i phase }

/-- One step of a crawl that nothing interferes with, as far as its survey shows it, with the outcome that is
    reported in it. -/
inductive Step (net : Network) (s : Survey) : List Outcome → Survey → Prop
  | rest : Step net s [] s
  | shift (feeder : Feeder) (before : s.feeder.isBusy = true) (after : feeder.isBusy = true) :
      Step net s [] { s with feeder }
  | take (e : Endpoint) (rest : List Endpoint) (h : s.feeder = .searching) (front : s.queue = e :: rest) :
      Step net s [] { s with queue := rest, feeder := .handing e }
  | exhaust (h : s.feeder = .searching) (empty : s.queue = []) : Step net s [] { s with feeder := .arming }
  /-- The feeder uses up a signal that was kept, or waits for one. -/
  | arm (h : s.feeder = .arming) :
      Step net s [] { s with
        arrivals := (s.arrivals.listen Crawl.feederListener).1
        feeder := if (s.arrivals.listen Crawl.feederListener).2 then .listening else .searching }
  | wake (h : s.feeder = .listening) (woken : s.arrivals.isWoken Crawl.feederListener = true) :
      Step net s [] { s with arrivals := s.arrivals.accept Crawl.feederListener, feeder := .searching }
  /-- A worker goes on, and nothing that it has before it changes. -/
  | turn (i : Nat) (old new : WorkerPhase) (h : s.phases[i]? = some old) (agrees : new.Agrees net)
      (like : old.Like new) : Step net s [] (s.place i new)
  | report (i : Nat) (old new : WorkerPhase) (outcome : Outcome) (h : s.phases[i]? = some old)
      (agrees : new.Agrees net) (before : old.pending = [] ∧ old.inHand = [])
      (said : new.pending = outcome.said net) (after : new.inHand = []) (quiet : old.isSignalling = false)
      (right : outcome.Right net) (known : outcome.endpoint ∈ s.known) : Step net s [outcome] (s.place i new)
  | hear (i : Nat) (old new : WorkerPhase) (m : Message) (h : s.phases[i]? = some old)
      (agrees : new.Agrees net) (next : old.pending = m :: new.pending) (before : old.inHand = [])
      (after : new.inHand = (Notice.ofMessage m).announced) (quiet : old.isSignalling = false) :
      Step net s [] { s.place i new with heard := s.heard + 1 }
  /-- A worker adds what it has in its hands, and if some of it is new it has to tell. -/
  | announce (i : Nat) (old new : WorkerPhase) (fresh : List Endpoint) (h : s.phases[i]? = some old)
      (agrees : new.Agrees net) (pending : new.pending = old.pending) (after : new.inHand = [])
      (quiet : old.isSignalling = false) (tells : fresh ≠ [] → new.isSignalling = true)
      (announced : ∀ e ∈ fresh, e ∈ old.inHand) (covered : ∀ e ∈ old.inHand, e ∈ s.known ++ fresh) :
      Step net s [] { s.place i new with known := s.known ++ fresh, queue := s.queue ++ fresh }
  | signal (i : Nat) (old new : WorkerPhase) (h : s.phases[i]? = some old) (agrees : new.Agrees net)
      (pending : new.pending = old.pending) (inHand : new.inHand = old.inHand) :
      Step net s [] { s.place i new with arrivals := s.arrivals.notify }

end Survey

/-! ## What steps leave alone -/

/-- Two shared states in which the same is known and was heard, by the same tasks. -/
structure SameFinds (s s' : Shared) : Prop where
  listed : s.registry.SameListed s'.registry
  arrivals : s'.arrivals = s.arrivals
  heard : s'.metrics.messagesIn = s.metrics.messagesIn
  cancelled : s'.cancelled = s.cancelled

theorem Dial.step_finds (world : World) (e : Endpoint) (dial : Dial) (s : Shared) :
    SameFinds s (dial.step world e s).2.1 := by
  cases dial with
  | unanswered due =>
      simp only [step]
      split
      · unfold answered
        split <;> exact ⟨⟨rfl, rfl⟩, rfl, rfl, rfl⟩
      · exact ⟨⟨rfl, rfl⟩, rfl, rfl, rfl⟩
  | shaking handshake link =>
      simp only [step]
      split <;> exact ⟨⟨rfl, rfl⟩, rfl, rfl, rfl⟩

namespace Shared

theorem settle_finds (outcome : Outcome) (s : Shared) : SameFinds s (s.settle outcome) := by
  have hlisted := s.registry.perform_listed outcome.call (by cases outcome <;> rfl)
  rw [← Crawl.settle_registry] at hlisted
  refine ⟨hlisted, ?_, ?_, ?_⟩ <;> unfold settle <;> dsimp only <;> split <;> rfl

theorem handlePong_finds (e : Endpoint) (nonce : UInt64) (s : Shared) :
    SameFinds s (s.handlePong e nonce) := by
  have hlisted := s.registry.perform_listed (.recordPong e nonce) rfl
  rw [← handlePong_registry] at hlisted
  refine ⟨hlisted, ?_, ?_, ?_⟩ <;> unfold handlePong <;> split <;> rfl

/-- Whatever endpoints a notice brings are known afterwards, and a signal is due if some are new. -/
theorem handle_finds (e : Endpoint) (notice : Notice) {s : Shared} (hc : s.registry.Consistent) :
    ∃ fresh, Registry.Grown s.registry notice.announced fresh (s.handle e notice).1.registry ∧
      ((s.handle e notice).2 = true ↔ fresh ≠ []) ∧
      (s.handle e notice).1.arrivals = s.arrivals ∧
      (s.handle e notice).1.metrics = s.metrics ∧ (s.handle e notice).1.cancelled = s.cancelled := by
  have hnothing : ∀ s' : Shared, SameFinds s s' →
      Registry.Grown s.registry [] [] s'.registry := by
    intro s' hfinds
    exact ⟨by rw [hfinds.listed.known, List.append_nil], hfinds.listed.taken, nofun, nofun⟩
  cases notice with
  | addr es | addrV2 es =>
      obtain ⟨fresh, hcount, hgrown⟩ := hc.add_grown es
      refine ⟨fresh, hgrown, ?_, rfl, rfl, rfl⟩
      show decide (0 < (s.registry.add es).2) = true ↔ _
      rw [hcount, decide_eq_true_iff, List.length_pos_iff]
  | pong nonce =>
      have hfinds := s.handlePong_finds e nonce
      refine ⟨[], hnothing _ hfinds, by simp [handle], hfinds.arrivals, ?_, hfinds.cancelled⟩
      show (s.handlePong e nonce).metrics = s.metrics
      unfold handlePong
      split <;> rfl
  | _ => exact ⟨[], hnothing _ ⟨⟨rfl, rfl⟩, rfl, rfl, rfl⟩, by simp [handle], rfl, rfl, rfl⟩

end Shared

end BitcoinCrawl
