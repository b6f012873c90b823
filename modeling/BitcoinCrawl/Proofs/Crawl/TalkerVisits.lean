import BitcoinCrawl.Proofs.Crawl.Frame
import BitcoinCrawl.Proofs.Crawl.Talkers

set_option autoImplicit false

/-! # Visits to talking peers

A worker that has claimed an endpoint whose peer talks comes, by steps of its own alone, to be in a session with it:
it has reported the peer as good and has written a ping (`goes_session`). The parts of such a visit are put together by
`Goes`. Nobody else needs to do anything, so a crawl can be brought to where that has just happened
(`talkingWorld_attends`), and whatever comes next can be seen from there. -/

namespace BitcoinCrawl.Crawl

variable {world : World} {c c' c'' : Crawl} {i : Nat} {e : Endpoint}

/-! ## Steps of one worker -/

/-- Where the worker at a place in the pool stands. -/
def phaseOf (c : Crawl) (i : Nat) : Option WorkerPhase := c.workers[i]?.map Worker.phase

/-- A crawl in which only one worker takes steps, so many of them. -/
def alone (world : World) (i : Nat) (n : Nat) (c : Crawl) : Crawl :=
  c.run world (List.replicate n (.act (.worker i)))

theorem alone_succ (world : World) (i n : Nat) (c : Crawl) :
    c.alone world i (n + 1) = (c.step world (.worker i)).1.alone world i n := rfl

/-- A worker that is on a visit all the time gets from one crawl to another by steps of its own. -/
inductive Goes (world : World) (i : Nat) : Crawl → Crawl → Prop
  | rest (c : Crawl) (away : c.phaseOf i ≠ some .idle) : Goes world i c c
  | step (c c' : Crawl) (away : c.phaseOf i ≠ some .idle) (rest : Goes world i (c.stepWorker world i).1 c') :
      Goes world i c c'

theorem Goes.trans (first : Goes world i c c') (second : Goes world i c' c'') : Goes world i c c'' := by
  induction first with
  | rest => exact second
  | step c c' away rest ih => exact .step c c'' away (ih second)

theorem Goes.alone (h : Goes world i c c') :
    ∃ n, c.alone world i n = c' ∧ ∀ k ≤ n, (c.alone world i k).phaseOf i ≠ some .idle := by
  induction h with
  | rest c away =>
      refine ⟨0, rfl, fun k hk => ?_⟩
      obtain rfl := Nat.le_zero.mp hk
      exact away
  | step c c' away rest ih =>
      obtain ⟨n, hn, haway⟩ := ih
      refine ⟨n + 1, hn, fun k hk => ?_⟩
      cases k with
      | zero => exact away
      | succ k => exact haway k (Nat.le_of_succ_le_succ hk)

/-- The same crawl with a single worker, which stands somewhere. -/
def single (c : Crawl) (phase : WorkerPhase) : Crawl := { c with workers := #[{ id := 0, phase }] }

theorem phaseOf_single (c : Crawl) (phase : WorkerPhase) : (c.single phase).phaseOf 0 = some phase := rfl

theorem Goes.single {phase next : WorkerPhase} (away : phase ≠ .idle) (away' : next ≠ .idle)
    (hstep : ((c.single phase).stepWorker world 0).1 = c'.single next) :
    Goes world 0 (c.single phase) (c'.single next) := by
  refine .step _ _ ?_ (hstep ▸ .rest _ ?_)
  · rw [phaseOf_single]
    exact fun h => away (Option.some.inj h)
  · rw [hstep, phaseOf_single]
    exact fun h => away' (Option.some.inj h)

/-! ## From the claim to the ping -/

variable {r r' : Registry} {events : List StreamEvent} {writeFault : Option WriteFault}

/-- A worker that has claimed an endpoint dials it, is answered at once and begins the handshake. -/
theorem goes_shaking (running : c.shared.cancelled = false) (hmark : c.shared.registry.markConnecting e = .ok r)
    (hremote : world.remote e = { answer := .accept events writeFault }) :
    Goes world 0 (c.single (.claimed e)) ({ c with
      shared := { c.shared with
        registry := r
        metrics := c.shared.metrics.enter
        noncesDrawn := c.shared.noncesDrawn + 1 }
      dials := c.dials.start e }.single (.dialing e
        (.shaking
          (.begin world.connection { endpoint := e } (c.shared.host.nonce c.shared.noncesDrawn)
            c.shared.host.unixTime)
          { magic := world.config.chain.magic, script := ⟨events, none⟩, writeFault })
        (c.shared.now + world.config.peerTimeout))) := by
  have hclaimed : Goes world 0 (c.single (.claimed e))
      ({ c with shared := { c.shared with registry := r } }.single (.marked e)) := by
    refine .single (by simp) (by simp) ?_
    simp [stepWorker, single, stepClaimed, hmark, proceed, place]
  have hmarked : Goes world 0 ({ c with shared := { c.shared with registry := r } }.single (.marked e))
      ({ c with
        shared := { c.shared with registry := r, metrics := c.shared.metrics.enter }
        dials := c.dials.start e }.single
          (.dialing e (.unanswered none) (c.shared.now + world.config.peerTimeout))) := by
    refine .single (by simp) (by simp) ?_
    simp [stepWorker, single, stepMarked, proceed, place]
  refine hclaimed.trans (hmarked.trans (.single (by simp) (by simp) ?_))
  simp [stepWorker, single, stepDialing, place, proceed, running, Dial.step, Dial.answered, hremote,
    Shared.drawNonce]

/-- A worker whose handshake goes on without waiting comes to report the peer. -/
theorem goes_reporting {h : Handshake} {link : Link} {deadline now : Nat} {leaves : Link → Prop}
    (running : c.shared.cancelled = false) (hnow : c.shared.now = now) (hfor : h.peer.endpoint = e)
    (shakes : Handshake.Shakes now leaves h link) :
    ∃ peer link' log, peer.endpoint = e ∧ leaves link' ∧
      Goes world 0 (c.single (.dialing e (.shaking h link) deadline))
        ({ c with shared := { c.shared with log }, dials := c.dials.finish }.single
          (.reporting e (.good peer) (some link'))) := by
  induction shakes generalizing c with
  | @done h link finished kind =>
      let connected := ((c.single (.dialing e (.shaking h link) deadline)).stepWorker world 0).1
      have hpeer := (h.step_endpoint now link).trans hfor
      refine ⟨(h.step now link).handshake.peer, _, connected.shared.log, hpeer, kind, ?_⟩
      refine .single (by simp) (by simp) ?_
      simp [connected, stepWorker, single, stepDialing, place, proceed, running, Dial.step, hnow, finished, report,
        Shared.report, Shared.reportAll]
  | @moved h link on rest ih =>
      let next : Crawl := { c with shared := c.shared.reportAll (h.step now link).log }
      have hpeer := (h.step_endpoint now link).trans hfor
      have hmoved : Goes world 0 (c.single (.dialing e (.shaking h link) deadline))
          (next.single (.dialing e (.shaking (h.step now link).handshake (h.step now link).link) deadline)) := by
        refine .single (by simp) (by simp) ?_
        simp [next, stepWorker, single, stepDialing, place, proceed, running, Dial.step, hnow, on]
      obtain ⟨peer, link', log, hsame, hleaves, hgoes⟩ := @ih next running hnow hpeer
      exact ⟨peer, link', log, hsame, hleaves, hmoved.trans hgoes⟩

/-- A worker that has claimed an endpoint whose peer takes our introduction and our acknowledgement, and gives its own,
    comes to report the peer. -/
theorem goes_greeted (running : c.shared.cancelled = false) (hmark : c.shared.registry.markConnecting e = .ok r)
    (hremote : world.remote e = { answer := .accept (talk world.config.chain.magic []) writeFault })
    (hreplies : Handshake.replies world.connection greeting.version = [.verack])
    (hwrites : ∀ n < 2, WriteFault.outcome n writeFault = .written) :
    ∃ peer link log, peer.endpoint = e ∧ link.sent.size = 2 ∧ link.writeFault = writeFault ∧
      Goes world 0 (c.single (.claimed e)) ({ c with
        shared := { c.shared with
          registry := r
          metrics := c.shared.metrics.enter
          noncesDrawn := c.shared.noncesDrawn + 1
          log }
        dials := (c.dials.start e).finish }.single (.reporting e (.good peer) (some link))) := by
  let dialed : Crawl := { c with
    shared := { c.shared with
      registry := r
      metrics := c.shared.metrics.enter
      noncesDrawn := c.shared.noncesDrawn + 1 }
    dials := c.dials.start e }
  have hother : greeting.nonce ≠ c.shared.host.nonce c.shared.noncesDrawn :=
    (c.shared.host.nonce_ne_zero c.shared.noncesDrawn).symm
  have hshakes := Handshake.shakes_greeted { endpoint := e } c.shared.host.unixTime c.shared.now
    world.config.chain.magic hother hreplies hwrites
  obtain ⟨peer, link, log, hpeer, ⟨hsize, hsame⟩, hreporting⟩ :=
    @goes_reporting world dialed e _ _ (c.shared.now + world.config.peerTimeout) _ _ running rfl rfl hshakes
  exact ⟨peer, link, log, hpeer, hsize, hsame, (goes_shaking running hmark hremote).trans hreporting⟩

/-- A worker that is about to report a peer does so, notes the nonce of a ping and writes it. -/
theorem goes_serving {peer : Peer} {link : Link} (listening : c.outcomes.isOpen = true)
    (hset : c.shared.registry.setPingNonce e (c.shared.host.nonce c.shared.noncesDrawn) = .ok r)
    (hwrite : WriteFault.outcome link.sent.size link.writeFault = .written) :
    ∃ (session : Session) (deadline : Option Nat), session.phase = .awaiting deadline ∧
      Goes world 0 (c.single (.reporting e (.good peer) (some link)))
        ({ c with
          shared := { c.shared with
            registry := r
            metrics := c.shared.metrics.countOut
            noncesDrawn := c.shared.noncesDrawn + 1 }
          outcomes := c.outcomes.push (.good peer) }.single (.serving session)) := by
  let nonce := c.shared.host.nonce c.shared.noncesDrawn
  let link' := (link.send (.ping nonce)).1
  have hsend : link.send (.ping nonce) = (link', .ready (.ok ())) := by simp only [link', Link.send, hwrite]
  refine ⟨.start e (.link link') world.config.idleTimeout c.shared, _, rfl, ?_⟩
  have hreported : Goes world 0 (c.single (.reporting e (.good peer) (some link)))
      ({ c with outcomes := c.outcomes.push (.good peer) }.single (.noting e link)) := by
    refine .single (by simp) (by simp) ?_
    simp [stepWorker, single, stepReporting, place, proceed, listening]
  have hnoted : Goes world 0 ({ c with outcomes := c.outcomes.push (.good peer) }.single (.noting e link))
      ({ c with
        shared := { c.shared with registry := r, noncesDrawn := c.shared.noncesDrawn + 1 }
        outcomes := c.outcomes.push (.good peer) }.single (.pinging e link nonce)) := by
    refine .single (by simp) (by simp) ?_
    simp [nonce, stepWorker, single, stepNoting, place, proceed, Shared.drawNonce, hset]
  refine hreported.trans (hnoted.trans (.single (by simp) (by simp) ?_))
  simp [stepWorker, single, stepPinging, place, proceed, hsend, Session.start, Session.deadline]

/-- A worker that has claimed an endpoint with a peer that talks comes to be in a session with it. -/
theorem goes_session (running : c.shared.cancelled = false) (listening : c.outcomes.isOpen = true)
    (hmark : c.shared.registry.markConnecting e = .ok r)
    (hset : r.setPingNonce e (c.shared.host.nonce (c.shared.noncesDrawn + 1)) = .ok r')
    (hremote : world.remote e = talker world.config.chain.magic [])
    (hreplies : Handshake.replies world.connection greeting.version = [.verack]) :
    ∃ (peer : Peer) (session : Session) (deadline : Option Nat) (log : Log),
      peer.endpoint = e ∧ session.phase = .awaiting deadline ∧
      Goes world 0 (c.single (.claimed e)) ({ c with
        shared := { c.shared with
          registry := r'
          metrics := c.shared.metrics.enter.countOut
          noncesDrawn := c.shared.noncesDrawn + 1 + 1
          log }
        outcomes := c.outcomes.push (.good peer)
        dials := (c.dials.start e).finish }.single (.serving session)) := by
  obtain ⟨peer, link, log, hpeer, -, hwritable, hreporting⟩ :=
    goes_greeted running hmark hremote hreplies fun _ _ => rfl
  have hwrite : WriteFault.outcome link.sent.size link.writeFault = .written := by
    rw [hwritable]
    rfl
  let connected : Crawl := { c with
    shared := { c.shared with
      registry := r
      metrics := c.shared.metrics.enter
      noncesDrawn := c.shared.noncesDrawn + 1
      log }
    dials := (c.dials.start e).finish }
  obtain ⟨session, deadline, hawaiting, hserving⟩ :=
    @goes_serving world connected e _ peer link listening hset hwrite
  exact ⟨peer, session, deadline, log, hpeer, hawaiting, hreporting.trans hserving⟩

/-! ## A crawl with one session -/

/-- The feeder queues an endpoint, and the only worker takes it. -/
def taking : List Event := List.replicate 4 (.act .feeder) ++ List.replicate 2 (.act (.worker 0))

theorem run_taking (hfeeder : c.feeder = .starting) (hqueue : c.queue = { capacity := 1 })
    (hworkers : c.workers = #[{ id := 0 }]) (running : c.shared.cancelled = false)
    (htake : c.shared.registry.takeNext = { registry := r, endpoint := some e }) :
    ∃ log, c.run world taking
      = { c with shared := { c.shared with registry := r, log }, feeder := .reserving }.single (.claimed e) := by
  refine ⟨(c.run world taking).shared.log, ?_⟩
  cases c
  dsimp only at *
  subst hfeeder hqueue hworkers
  simp [taking, List.replicate, run, apply, step, stepFeeder, stepWorker, stepIdle, proceed, place, report,
    Shared.report, Shared.reportAll, Shared.takeNext, WorkQueue.hasRoom, WorkQueue.push, single, running, htake]

/-- With room for one connection, the worker of a crawl with two seeds takes the first, which can then be marked. -/
theorem first_taken (one : poolSize world.config.connectionLimit = 1) :
    ∃ s r₁ r₂ log, start world [firstSeed, secondSeed] { host := default } = .ok (unbegun 1 s) ∧
      s.cancelled = false ∧
      (unbegun 1 s).run world taking
        = { unbegun 1 s with shared := { s with registry := r₁, log }, feeder := .reserving }.single
            (.claimed firstSeed) ∧
      r₁.markConnecting firstSeed = .ok r₂ ∧ r₂.Consistent ∧ r₂.state? firstSeed = some .connecting := by
  have hsize : poolSize world.config.connectionLimit ≤ maxQueue := one ▸ by decide
  obtain ⟨s, started, running⟩ := start_ok [firstSeed, secondSeed] { host := default } hsize
  have hregistry : s.registry = Registry.perform {} (.add [firstSeed, secondSeed]) :=
    (start_outline ⟨rfl, rfl⟩ started).registry
  rw [one] at started
  have hr := Registry.consistent_empty.perform (.add [firstSeed, secondSeed])
  obtain ⟨hqueue, -⟩ := Registry.add_pair (show firstSeed ≠ secondSeed by decide)
  rw [← hregistry] at hr hqueue
  obtain ⟨r₁, r₂, htake, hmark, hr₂, -, -, hconnecting⟩ := hr.take_mark hqueue
  obtain ⟨log, htaken⟩ :=
    @run_taking world (unbegun 1 s) firstSeed r₁ rfl rfl (workers_unbegun_one s) running htake
  exact ⟨s, r₁, r₂, log, started, running, htaken, hmark, hr₂, hconnecting⟩

/-- A crawl whose only worker is in a session, and has reported the peer. Of the other tasks only the feeder has
    begun. -/
structure Attends (e : Endpoint) (c : Crawl) : Prop where
  serving : ∃ (session : Session) (deadline : Option Nat), session.phase = .awaiting deadline ∧
    c.workers = #[{ id := 0, phase := .serving session }]
  /-- The node can be marked as good. -/
  reported : ∃ (peer : Peer) (r : Registry), peer.endpoint = e ∧ c.outcomes = { items := [.good peer] } ∧
    c.shared.registry.markGood e peer = .ok r ∧ r.Consistent ∧ r.state? e = some .good
  running : c.shared.cancelled = false
  feeder : c.feeder = .reserving
  aggregator : c.aggregator = .starting
  publisher : c.publisher = .starting
  settled : c.settled = .pending
  lock : c.lock = .free
  unsaved : c.archive.saves = #[]

/-- Once the aggregator has begun, it records the outcome. -/
theorem Attends.recorded (h : c.Attends e) (world : World) :
    (c.run world (List.replicate 2 (.act .aggregator))).shared.registry.state? e = some .good := by
  obtain ⟨peer, r, hpeer, houtcomes, hmark, -, hstate⟩ := h.reported
  simp [List.replicate, run, apply, step, stepAggregator, h.aggregator, houtcomes, report, Shared.report,
    Shared.settle, hpeer, hmark, hstate]

/-- A world with room for one connection, where one peer talks and good nodes are kept in memory. -/
def talkingWorld : World :=
  { World.talking deafWorld.config [(firstSeed, [])] with
    persistence := some { store := .memory, path := "nodes.json" } }

/-- The worker of a crawl of that world takes the first of two seeds and comes to a session with it. -/
theorem talkingWorld_attends : ∃ c c', start talkingWorld [firstSeed, secondSeed] { host := default } = .ok c ∧
    (c.run talkingWorld taking).phaseOf 0 = some (.claimed firstSeed) ∧
    Goes talkingWorld 0 (c.run talkingWorld taking) c' ∧ c'.Attends firstSeed := by
  obtain ⟨s, r₁, r₂, log, started, running, hclaimed, hmark, hr₂, hconnecting⟩ := @first_taken talkingWorld (by decide)
  obtain ⟨r₃, hset, hgood⟩ := hr₂.note_mark hconnecting (s.host.nonce (s.noncesDrawn + 1))
  let taken : Crawl := { unbegun 1 s with shared := { s with registry := r₁, log }, feeder := .reserving }
  obtain ⟨peer, session, deadline, log', hpeer, hawaiting, hgoes⟩ :=
    @goes_session talkingWorld taken firstSeed r₂ r₃ running rfl hmark hset rfl rfl
  obtain ⟨r₄, hmarked, hr₄, hstate⟩ := hgood peer
  rw [← hclaimed] at hgoes
  refine ⟨unbegun 1 s, _, started, ?_, hgoes, ?_⟩
  · rw [hclaimed]
    rfl
  · exact {
      serving := ⟨session, deadline, hawaiting, rfl⟩
      reported := ⟨peer, r₄, hpeer, rfl, hmarked, hr₄, hstate⟩
      running, feeder := rfl, aggregator := rfl, publisher := rfl, settled := rfl, lock := rfl, unsaved := rfl }

end BitcoinCrawl.Crawl
