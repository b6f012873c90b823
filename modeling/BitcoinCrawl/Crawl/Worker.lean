import BitcoinCrawl.Crawl.State

set_option autoImplicit false

/-! # Workers

A worker visits one endpoint at a time: dial and handshake, report the outcome, ping once, and stay until
the session ends. A stop is noticed while it waits for an endpoint, for a dial or for a message, but not
while it writes the ping. -/

namespace BitcoinCrawl.Crawl

/-- A worker comes to stand somewhere else. -/
def place (worker : Worker) (phase : WorkerPhase) (i : Nat) (c : Crawl) : Crawl :=
  { c with workers := c.workers.setIfInBounds i { worker with phase } }

/-- A worker goes on. -/
def proceed (worker : Worker) (phase : WorkerPhase) (i : Nat) (c : Crawl) : Crawl × Motion :=
  (c.place worker phase i, .moved)

/-- A worker goes away. Nobody takes from the work queue once all have. -/
def stopWorker (worker : Worker) (i : Nat) (c : Crawl) : Crawl × Motion :=
  let c := (c.report (.debug s!"Worker {worker.id} exited")).place worker .exited i
  (if c.workersGone then { c with queue := c.queue.close } else c, .moved)

/-- Wait for an endpoint. A stop comes first. -/
def stepIdle (worker : Worker) (i : Nat) (c : Crawl) : Crawl × Motion :=
  if c.shared.cancelled then c.stopWorker worker i
  else
    match c.queue.items, c.feeder with
    | endpoint :: items, _ =>
      { c with queue := { c.queue with items } }.proceed worker (.claimed endpoint) i
    | [], .exited => c.stopWorker worker i
    | [], _ => (c, .blocked none)

/-- Mark a claimed endpoint as connecting. -/
def stepClaimed (worker : Worker) (endpoint : Endpoint) (i : Nat) (c : Crawl) : Crawl × Motion :=
  match c.shared.registry.markConnecting endpoint with
  | .ok registry =>
    { c with shared := { c.shared with registry } }.proceed worker (.marked endpoint) i
  | .error fault =>
    (c.report (.error s!"Worker {worker.id} can't dial {endpoint}: {fault.message}")).proceed
      worker .idle i

/-- Begin to dial. -/
def stepMarked (world : World) (worker : Worker) (endpoint : Endpoint) (i : Nat) (c : Crawl) :
    Crawl × Motion :=
  { c with
    shared := { c.shared with metrics := c.shared.metrics.enter }
    dials := c.dials.start endpoint }.proceed worker
      (.dialing endpoint (.unanswered none) (c.shared.now + world.config.peerTimeout)) i

/-- A dial is over without a connection. -/
def giveUp (worker : Worker) (endpoint : Endpoint) (dial : Dial) (reason : String) (i : Nat)
    (c : Crawl) : Crawl × Motion :=
  { c.report (.debug s!"{endpoint} {reason}") with
    dials := (c.dials.finish).hangUp dial.sent }.proceed worker
      (.reporting endpoint (.dead endpoint) none) i

/-- Go on with a dial. A stop comes first, then its result, then the deadline. -/
def stepDialing (world : World) (worker : Worker) (endpoint : Endpoint) (dial : Dial) (deadline : Nat)
    (i : Nat) (c : Crawl) : Crawl × Motion :=
  if c.shared.cancelled then
    { c.report (.debug s!"Dial to {endpoint} abandoned on shutdown") with
      dials := (c.dials.finish).hangUp dial.sent }.proceed worker .leaving i
  else
    let (dial, shared, outcome) := dial.step world endpoint c.shared
    let c := { c with shared }
    match outcome with
    | .finished (.ok connected) =>
      { c.report (.info s!"Handshake with {connected.peer}") with dials := c.dials.finish }.proceed
        worker (.reporting endpoint (.good connected.peer) (some connected.link)) i
    | .finished (.error fault) =>
      c.giveUp worker endpoint dial s!"is unreachable: {fault.message}" i
    | .moved => c.proceed worker (.dialing endpoint dial deadline) i
    | .waiting wake =>
      if deadline ≤ c.shared.now then
        c.giveUp worker endpoint dial s!"timed out after {world.config.peerTimeout.text}" i
      else
        (c.place worker (.dialing endpoint dial deadline) i).await (earlier wake (some deadline))

/-- Report an outcome. -/
def stepReporting (worker : Worker) (endpoint : Endpoint) (outcome : Outcome) (link : Option Link)
    (i : Nat) (c : Crawl) : Crawl × Motion :=
  let c :=
    if c.outcomes.isOpen then { c with outcomes := c.outcomes.push outcome }
    else c.report (.debug "Result aggregator is gone, dropping outcome")
  match link with
  | some link => c.proceed worker (.noting endpoint link) i
  | none => c.proceed worker .leaving i

/-- Note the nonce of the ping that follows. -/
def stepNoting (worker : Worker) (endpoint : Endpoint) (link : Link) (i : Nat) (c : Crawl) :
    Crawl × Motion :=
  let (nonce, shared) := c.shared.drawNonce
  let shared :=
    match shared.registry.setPingNonce endpoint nonce with
    | .ok registry => { shared with registry }
    | .error fault => shared.report (.error s!"Failed to record ping for {endpoint}: {fault.message}")
  { c with shared }.proceed worker (.pinging endpoint link nonce) i

/-- Send the ping. Even a stop does not end the wait for it. -/
def stepPinging (world : World) (worker : Worker) (endpoint : Endpoint) (link : Link) (nonce : UInt64)
    (i : Nat) (c : Crawl) : Crawl × Motion :=
  match link.send (.ping nonce) with
  | (link, .ready (.ok ())) =>
    let shared := { c.shared with metrics := c.shared.metrics.countOut }
    let session := Session.start endpoint (.link link) world.config.idleTimeout shared
    { c with shared }.proceed worker (.serving session) i
  | (link, .ready (.error fault)) =>
    let fault := ConnectionFault.transport fault
    { c.report (.debug s!"Failed to ping {endpoint}: {fault.message}") with
      dials := c.dials.hangUp link.sent }.proceed worker .leaving i
  | (link, .waiting wake) => (c.place worker (.pinging endpoint link nonce) i).await wake

/-- Go on with a session. -/
def stepServing (world : World) (worker : Worker) (session : Session) (i : Nat) (c : Crawl) :
    Crawl × Motion :=
  let (session, shared, outcome) := session.step world.config.idleTimeout c.shared
  let c := { c with shared }
  match outcome with
  | .finished reason =>
    { c.report (.debug s!"Session with {session.endpoint} ended: {reason}") with
      dials := c.dials.hangUp session.line.sent }.proceed worker .leaving i
  | .moved => c.proceed worker (.serving session) i
  | .waiting wake => (c.place worker (.serving session) i).await wake

/-- End a visit. -/
def stepLeaving (worker : Worker) (i : Nat) (c : Crawl) : Crawl × Motion :=
  { c with shared := { c.shared with metrics := c.shared.metrics.leave } }.proceed worker .idle i

/-- One step of the worker at a place in the pool. -/
def stepWorker (world : World) (i : Nat) (c : Crawl) : Crawl × Motion :=
  match c.workers[i]? with
  | none => (c, .blocked none)
  | some worker =>
    match worker.phase with
    | .starting => (c.report (.debug s!"Worker {worker.id} started")).proceed worker .idle i
    | .idle => c.stepIdle worker i
    | .claimed endpoint => c.stepClaimed worker endpoint i
    | .marked endpoint => c.stepMarked world worker endpoint i
    | .dialing endpoint dial deadline => c.stepDialing world worker endpoint dial deadline i
    | .reporting endpoint outcome link => c.stepReporting worker endpoint outcome link i
    | .noting endpoint link => c.stepNoting worker endpoint link i
    | .pinging endpoint link nonce => c.stepPinging world worker endpoint link nonce i
    | .serving session => c.stepServing world worker session i
    | .leaving => c.stepLeaving worker i
    | .exited => (c, .blocked none)

end BitcoinCrawl.Crawl
