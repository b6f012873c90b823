import BitcoinCrawl.Crawl.Step
import BitcoinCrawl.Proofs.Registry.Calls

set_option autoImplicit false

/-! # What can happen to the endpoints of a crawl

An `Outline` is the part of a crawl that decides where its endpoints are: registry, work queue, outcomes
on their way, and where feeder and workers stand. `Outline.Step` lists all that one step of any task can do
to it, and which dials, outcomes and records (`Fact`s) can be seen while it does. Properties of endpoints are
proved once for each of these cases; that every step of a crawl is one of them is the business of
`Proofs/Crawl/Simulation`. -/

namespace BitcoinCrawl

/-! ## What can be seen of a step -/

/-- Something a step does that the state after it need not show. -/
inductive Fact where
  /-- A dial of an endpoint was begun at an instant. -/
  | called (endpoint : Endpoint) (start : Nat)
  /-- A dial was found unanswered at an instant, in time. -/
  | waited (endpoint : Endpoint) (now : Nat)
  /-- A dial gave a connection. -/
  | connected (endpoint : Endpoint) (peer : Peer)
  /-- A dial or its handshake failed. -/
  | refused (endpoint : Endpoint) (fault : ConnectionFault)
  /-- A dial was found unanswered at an instant, too late. -/
  | timedOut (endpoint : Endpoint) (now : Nat)
  /-- A dial was given up for a stop. -/
  | abandoned (endpoint : Endpoint)
  /-- An outcome was sent to the aggregator. -/
  | reported (outcome : Outcome)
  /-- An outcome was recorded in the registry. -/
  | recorded (outcome : Outcome)

/-- What was seen of some steps, oldest first. -/
abbrev History := List Fact

namespace History

/-- The endpoints dialed, in order. -/
def called (h : History) : List Endpoint :=
  h.filterMap fun | .called e _ => some e | _ => none

/-- The endpoints of the dials that have ended, with or without a connection. -/
def ended (h : History) : List Endpoint :=
  h.filterMap fun
    | .connected e _ | .refused e _ | .timedOut e _ | .abandoned e => some e
    | _ => none

/-- The endpoints of the dials that were given up for a stop. -/
def abandoned (h : History) : List Endpoint :=
  h.filterMap fun | .abandoned e => some e | _ => none

/-- The outcomes sent to the aggregator, in order. -/
def reported (h : History) : List Outcome :=
  h.filterMap fun | .reported outcome => some outcome | _ => none

/-- The outcomes recorded in the registry, in order. -/
def recorded (h : History) : List Outcome :=
  h.filterMap fun | .recorded outcome => some outcome | _ => none

theorem called_append (h h' : History) : called (h ++ h') = h.called ++ h'.called :=
  List.filterMap_append

theorem ended_append (h h' : History) : ended (h ++ h') = h.ended ++ h'.ended :=
  List.filterMap_append

theorem abandoned_append (h h' : History) : abandoned (h ++ h') = h.abandoned ++ h'.abandoned :=
  List.filterMap_append

theorem reported_append (h h' : History) : reported (h ++ h') = h.reported ++ h'.reported :=
  List.filterMap_append

theorem recorded_append (h h' : History) : recorded (h ++ h') = h.recorded ++ h'.recorded :=
  List.filterMap_append

end History

namespace Crawl

/-- What is seen when a dial is looked after. -/
def dialFacts (world : World) (s : Shared) (e : Endpoint) (dial : Dial) (deadline : Nat) : History :=
  if s.cancelled then [.abandoned e]
  else
    match (dial.step world e s).2.2 with
    | .finished (.ok connected) => [.connected e connected.peer]
    | .finished (.error fault) => [.refused e fault]
    | .moved => []
    | .waiting _ => if deadline ≤ s.now then [.timedOut e s.now] else [.waited e s.now]

/-- What is seen of the next step of a worker. -/
def workerFacts (world : World) (c : Crawl) : WorkerPhase → History
  | .marked e => [.called e c.shared.now]
  | .dialing e dial deadline => dialFacts world c.shared e dial deadline
  | .reporting _ outcome _ => if c.outcomes.isOpen then [.reported outcome] else []
  | _ => []

/-- What is seen of the next step of the aggregator. -/
def aggregatorFacts (c : Crawl) : History :=
  match c.aggregator, c.outcomes.items with
  | .recording, outcome :: _ => [.recorded outcome]
  | _, _ => []

/-- What is seen when an event happens to a crawl. -/
def facts (world : World) (c : Crawl) : Event → History
  | .act (.worker place) =>
    match c.workers[place]? with
    | some worker => c.workerFacts world worker.phase
    | none => []
  | .act .aggregator => c.aggregatorFacts
  | _ => []

/-- What is seen while some events happen to a crawl. -/
def chronicle (world : World) (c : Crawl) : List Event → History
  | [] => []
  | event :: events => c.facts world event ++ (c.apply world event).chronicle world events

end Crawl

/-! ## The outline of a crawl -/

namespace Feeder

/-- The endpoint that has left the discovery queue and is not in the work queue yet. -/
def carried : Feeder → List Endpoint
  | handing e => [e]
  | _ => []

/-- Whether a place in the work queue is reserved. -/
def hasReserved : Feeder → Bool
  | searching | arming | listening | handing _ => true
  | starting | reserving | exited => false

end Feeder

/-- What decides where the endpoints of a crawl are. -/
structure Outline where
  registry : Registry
  queue : WorkQueue
  feeder : Feeder
  /-- Where each worker of the pool stands. -/
  phases : List WorkerPhase
  outcomes : OutcomeQueue
  /-- Visits in progress, as the metrics count them. -/
  active : UInt64
  /-- Endpoints dialed so far, in order. -/
  attempts : List Endpoint
  cancelled : Bool
  now : Nat

/-- The outline of a crawl. -/
def Crawl.outline (c : Crawl) : Outline where
  registry := c.shared.registry
  queue := c.queue
  feeder := c.feeder
  phases := c.workers.toList.map Worker.phase
  outcomes := c.outcomes
  active := c.shared.metrics.active
  attempts := c.dials.attempts.toList
  cancelled := c.shared.cancelled
  now := c.shared.now

/-- The registry call that records an outcome. -/
def Outcome.call : Outcome → Registry.Call
  | good peer => .markGood peer.endpoint peer
  | dead endpoint => .markDead endpoint

/-- All that a session with the node behind an endpoint can do to the registry: nothing, add what the peer
    announces, or match a pong of that peer. -/
inductive SessionEdit (e : Endpoint) (r : Registry) : Registry → Prop
  | none : SessionEdit e r r
  | announced (endpoints : List Endpoint) : SessionEdit e r (r.perform (.add endpoints))
  | ponged (nonce : UInt64) : SessionEdit e r (r.perform (.recordPong e nonce))

namespace Outline

/-- A worker comes to stand somewhere else. -/
def place (i : Nat) (phase : WorkerPhase) (o : Outline) : Outline :=
  { o with phases := o.phases.set i phase }

@[simp] theorem place_registry (i : Nat) (phase : WorkerPhase) (o : Outline) :
    (o.place i phase).registry = o.registry := rfl

@[simp] theorem place_queue (i : Nat) (phase : WorkerPhase) (o : Outline) :
    (o.place i phase).queue = o.queue := rfl

@[simp] theorem place_feeder (i : Nat) (phase : WorkerPhase) (o : Outline) :
    (o.place i phase).feeder = o.feeder := rfl

@[simp] theorem place_phases (i : Nat) (phase : WorkerPhase) (o : Outline) :
    (o.place i phase).phases = o.phases.set i phase := rfl

@[simp] theorem place_outcomes (i : Nat) (phase : WorkerPhase) (o : Outline) :
    (o.place i phase).outcomes = o.outcomes := rfl

/-- One step of a crawl, as far as its outline shows it. -/
inductive Step (world : World) (o : Outline) : History → Outline → Prop
  | rest : Step world o [] o
  | stop : Step world o [] { o with cancelled := true }
  | pass (t : Nat) (later : o.now ≤ t) : Step world o [] { o with now := t }
  /-- The feeder goes on with nothing in its hands. To reserve a place it needs room. -/
  | shift (feeder : Feeder) (before : o.feeder.carried = []) (after : feeder.carried = [])
      (room : feeder.hasReserved = true → o.feeder.hasReserved = true ∨ o.queue.hasRoom = true) :
      Step world o [] { o with feeder }
  | search (h : o.feeder = .searching) :
      Step world o [] { o with
        registry := o.registry.perform .takeNext
        feeder := match o.registry.takeNext.endpoint with
          | some e => .handing e
          | none => .arming }
  | hand (e : Endpoint) (h : o.feeder = .handing e) :
      Step world o [] { o with queue := o.queue.push e, feeder := .reserving }
  | wake (i : Nat) (h : o.phases[i]? = some .starting) : Step world o [] (o.place i .idle)
  | retire (i : Nat) (queue : WorkQueue) (h : o.phases[i]? = some .idle)
      (kept : queue.items = o.queue.items ∧ queue.capacity = o.queue.capacity) :
      Step world o [] { o.place i .exited with queue }
  | claim (i : Nat) (e : Endpoint) (items : List Endpoint) (h : o.phases[i]? = some .idle)
      (running : o.cancelled = false) (front : o.queue.items = e :: items) :
      Step world o [] { o.place i (.claimed e) with queue := { o.queue with items } }
  | mark (i : Nat) (e : Endpoint) (registry : Registry) (h : o.phases[i]? = some (.claimed e))
      (marked : o.registry.markConnecting e = .ok registry) :
      Step world o [] { o.place i (.marked e) with registry }
  | skip (i : Nat) (e : Endpoint) (fault : RegistryFault) (h : o.phases[i]? = some (.claimed e))
      (failed : o.registry.markConnecting e = .error fault) : Step world o [] (o.place i .idle)
  | dial (i : Nat) (e : Endpoint) (h : o.phases[i]? = some (.marked e)) :
      Step world o [.called e o.now]
        { o.place i (.dialing e (.unanswered none) (o.now + world.config.peerTimeout)) with
          active := o.active + 1, attempts := o.attempts ++ [e] }
  | abandon (i : Nat) (e : Endpoint) (dial : Dial) (deadline : Nat)
      (h : o.phases[i]? = some (.dialing e dial deadline)) (stopped : o.cancelled = true) :
      Step world o [.abandoned e] (o.place i .leaving)
  /-- A dial makes progress, or waits in time. -/
  | await (i : Nat) (e : Endpoint) (dial : Dial) (deadline : Nat) (s : Shared) (seen : History)
      (h : o.phases[i]? = some (.dialing e dial deadline))
      (timely : seen = [] ∨ seen = [.waited e o.now] ∧ o.now < deadline) :
      Step world o seen (o.place i (.dialing e (dial.step world e s).1 deadline))
  | connect (i : Nat) (e : Endpoint) (dial : Dial) (deadline : Nat) (s : Shared)
      (connected : Dial.Connected) (h : o.phases[i]? = some (.dialing e dial deadline))
      (answer : (dial.step world e s).2.2 = .finished (.ok connected)) :
      Step world o [.connected e connected.peer]
        (o.place i (.reporting e (.good connected.peer) (some connected.link)))
  /-- A dial fails, or is still unanswered when its time is up. -/
  | fail (i : Nat) (e : Endpoint) (dial : Dial) (deadline : Nat) (seen : Fact)
      (h : o.phases[i]? = some (.dialing e dial deadline))
      (reason : (∃ fault, seen = .refused e fault) ∨ seen = .timedOut e o.now ∧ deadline ≤ o.now) :
      Step world o [seen] (o.place i (.reporting e (.dead e) none))
  | report (i : Nat) (e : Endpoint) (outcome : Outcome) (link : Option Link)
      (h : o.phases[i]? = some (.reporting e outcome link)) (listening : o.outcomes.isOpen = true) :
      Step world o [.reported outcome]
        { o.place i (match link with | some link => .noting e link | none => .leaving) with
          outcomes := o.outcomes.push outcome }
  /-- Nobody listens to outcomes any more. -/
  | drop (i : Nat) (e : Endpoint) (outcome : Outcome) (link : Option Link)
      (h : o.phases[i]? = some (.reporting e outcome link)) (deaf : o.outcomes.isOpen = false) :
      Step world o [] (o.place i (match link with | some link => .noting e link | none => .leaving))
  | note (i : Nat) (e : Endpoint) (link : Link) (nonce : UInt64)
      (h : o.phases[i]? = some (.noting e link)) :
      Step world o [] { o.place i (.pinging e link nonce) with
        registry := o.registry.perform (.setPingNonce e nonce) }
  | ping (i : Nat) (e : Endpoint) (link link' : Link) (nonce : UInt64)
      (h : o.phases[i]? = some (.pinging e link nonce)) :
      Step world o [] (o.place i (.pinging e link' nonce))
  | attend (i : Nat) (e : Endpoint) (link : Link) (nonce : UInt64) (session : Session)
      (h : o.phases[i]? = some (.pinging e link nonce)) (same : session.endpoint = e) :
      Step world o [] (o.place i (.serving session))
  | giveUp (i : Nat) (e : Endpoint) (link : Link) (nonce : UInt64)
      (h : o.phases[i]? = some (.pinging e link nonce)) : Step world o [] (o.place i .leaving)
  | serve (i : Nat) (session session' : Session) (registry : Registry)
      (h : o.phases[i]? = some (.serving session)) (same : session'.endpoint = session.endpoint)
      (edit : SessionEdit session.endpoint o.registry registry) :
      Step world o [] { o.place i (.serving session') with registry }
  | hangUp (i : Nat) (session : Session) (h : o.phases[i]? = some (.serving session)) :
      Step world o [] (o.place i .leaving)
  | leave (i : Nat) (h : o.phases[i]? = some .leaving) :
      Step world o [] { o.place i .idle with active := o.active - 1 }
  | record (outcome : Outcome) (items : List Outcome) (front : o.outcomes.items = outcome :: items) :
      Step world o [.recorded outcome]
        { o with
          registry := o.registry.perform outcome.call
          outcomes := { o.outcomes with items } }

/-- A stop is for good. -/
theorem Step.cancelled {world : World} {o o' : Outline} {h : History} (step : Step world o h o')
    (stopped : o.cancelled = true) : o'.cancelled = true := by
  cases step with
  | stop => rfl
  | _ => exact stopped

theorem Step.now_le {world : World} {o o' : Outline} {h : History} (step : Step world o h o') : o.now ≤ o'.now := by
  cases step with
  | pass t later => exact later
  | _ => exact Nat.le_refl _

/-- What some steps can make of an outline, with what is seen of them. -/
inductive Reach (world : World) (o : Outline) : History → Outline → Prop
  | start : Reach world o [] o
  | step {h facts : History} {o₁ o₂ : Outline} (before : Reach world o h o₁)
      (next : Step world o₁ facts o₂) : Reach world o (h ++ facts) o₂

/-- Steps after steps are steps. -/
theorem Reach.trans {world : World} {o o₁ o₂ : Outline} {h h' : History} (first : Reach world o h o₁)
    (second : Reach world o₁ h' o₂) : Reach world o (h ++ h') o₂ := by
  induction second with
  | start => simpa using first
  | step before next ih =>
      rw [← List.append_assoc]
      exact ih.step next

end Outline

end BitcoinCrawl
