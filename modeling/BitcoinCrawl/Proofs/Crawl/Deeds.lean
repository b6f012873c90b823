import BitcoinCrawl.Proofs.Crawl.Dispatch
import BitcoinCrawl.Proofs.Crawl.Stopping
import BitcoinCrawl.Proofs.Crawl.Verdict
import BitcoinCrawl.Proofs.Peering.Concluding

set_option autoImplicit false

/-! # What a worker does on a visit

A step of a visiting worker shows in a few places only: in the state and the keepalive of one node, in the queue
of outcomes, in two counters, and in the frames of connections that are over. `Does` lists what a step can do
there, and there is one lemma for each place where a worker can stand. -/

namespace BitcoinCrawl

/-- What one step of a visit does. -/
inductive Deed where
  /-- It waits, or goes on with its dial or its session. -/
  | stayed
  /-- The node is being dialed. -/
  | marked
  /-- The dial begins, and the visit counts as active. -/
  | entered (start : Nat)
  /-- The dial is given up for a stop. -/
  | abandoned
  /-- The dial or its handshake fails. -/
  | refused (fault : ConnectionFault)
  /-- The dial has taken too long. -/
  | timedOut (now : Nat)
  | connected (peer : Peer) (link : Link)
  /-- An outcome goes to the aggregator. -/
  | sent (outcome : Outcome)
  /-- The nonce of a ping is stored with the node. -/
  | noted (nonce : UInt64)
  /-- The ping is written, and the session begins. -/
  | pinged (nonce : UInt64)
  /-- Writing the ping fails. So many frames were sent on the connection. -/
  | unpinged (fault : TransportFault) (frames : Array Bytes)
  /-- The session ends. So many frames were sent on the connection. -/
  | ended (reason : SessionEnd) (frames : Array Bytes)
  /-- The visit is over and no longer counts as active. -/
  | left

/-- Whether a deed does anything. -/
def Deed.shows : Deed → Bool
  | stayed => false
  | _ => true

/-- Whether a deed settles what a dial comes to: its outcome is sent, or there will be none. -/
def Deed.settles : Deed → Bool
  | abandoned | sent _ => true
  | _ => false

/-- The places apart from the registry where a visit shows. -/
structure Books where
  /-- Outcomes on their way to the aggregator. -/
  outcomes : List Outcome
  /-- Visits in progress. -/
  active : UInt64
  messagesOut : UInt64
  /-- Frames sent on connections that are over. -/
  frames : Array Bytes

namespace Crawl

def books (c : Crawl) : Books where
  outcomes := c.outcomes.items
  active := c.shared.metrics.active
  messagesOut := c.shared.metrics.messagesOut
  frames := c.dials.frames

/-- What a step of a worker that visits an endpoint does to a crawl. -/
inductive Does (world : World) (i : Nat) (e : Endpoint) (c c' : Crawl) : Deed → Prop
  | marked (before : c.phaseOf i = some (.claimed e)) (after : c'.phaseOf i = some (.marked e))
      (queued : c.shared.registry.state? e = some .queued)
      (connecting : c'.shared.registry.state? e = some .connecting) (books : c'.books = c.books) :
      Does world i e c c' .marked
  | entered (before : c.phaseOf i = some (.marked e))
      (after : c'.phaseOf i =
        some (.dialing e (.unanswered none) (c.shared.now + world.config.peerTimeout)))
      (books : c'.books = { c.books with active := c.books.active + 1 }) :
      Does world i e c c' (.entered c.shared.now)
  /-- The dial goes on, or waits while there is time. -/
  | dialed (dial : Dial) (deadline : Nat) (before : c.phaseOf i = some (.dialing e dial deadline))
      (after : c'.phaseOf i = some (.dialing e (dial.step world e c.shared).1 deadline))
      (running : c.shared.cancelled = false)
      (answer : (dial.step world e c.shared).2.2 = .moved ∨
        ∃ wake, (dial.step world e c.shared).2.2 = .waiting wake ∧ c.shared.now < deadline)
      (books : c'.books = c.books) : Does world i e c c' .stayed
  /-- A stop goes before whatever the dial has come to, and the node stays as it was marked. -/
  | abandoned (dial : Dial) (deadline : Nat) (before : c.phaseOf i = some (.dialing e dial deadline))
      (after : c'.phaseOf i = some .leaving) (stopped : c.shared.cancelled = true)
      (connecting : c'.shared.registry.state? e = some .connecting)
      (books : c'.books = { c.books with frames := c.books.frames ++ dial.sent }) :
      Does world i e c c' .abandoned
  | refused (dial : Dial) (deadline : Nat) (fault : ConnectionFault)
      (before : c.phaseOf i = some (.dialing e dial deadline))
      (after : c'.phaseOf i = some (.reporting e (.dead e) none)) (running : c.shared.cancelled = false)
      (answer : (dial.step world e c.shared).2.2 = .finished (.error fault))
      (books : c'.books = { c.books with frames := c.books.frames ++ (dial.step world e c.shared).1.sent }) :
      Does world i e c c' (.refused fault)
  | timedOut (dial : Dial) (deadline : Nat) (wake : Option Nat)
      (before : c.phaseOf i = some (.dialing e dial deadline))
      (after : c'.phaseOf i = some (.reporting e (.dead e) none)) (running : c.shared.cancelled = false)
      (answer : (dial.step world e c.shared).2.2 = .waiting wake) (late : deadline ≤ c.shared.now)
      (books : c'.books = { c.books with frames := c.books.frames ++ (dial.step world e c.shared).1.sent }) :
      Does world i e c c' (.timedOut c.shared.now)
  | connected (dial : Dial) (deadline : Nat) (connected : Dial.Connected)
      (before : c.phaseOf i = some (.dialing e dial deadline))
      (after : c'.phaseOf i = some (.reporting e (.good connected.peer) (some connected.link)))
      (running : c.shared.cancelled = false)
      (answer : (dial.step world e c.shared).2.2 = .finished (.ok connected)) (books : c'.books = c.books) :
      Does world i e c c' (.connected connected.peer connected.link)
  | sent (outcome : Outcome) (link : Option Link) (before : c.phaseOf i = some (.reporting e outcome link))
      (after : c'.phaseOf i = some (match link with | some link => .noting e link | none => .leaving))
      (books : c'.books = { c.books with outcomes := c.books.outcomes ++ [outcome] }) :
      Does world i e c c' (.sent outcome)
  /-- The node is live, whether or not its outcome is recorded yet. -/
  | noted (link : Link) (nonce : UInt64) (n : Node) (before : c.phaseOf i = some (.noting e link))
      (after : c'.phaseOf i = some (.pinging e link nonce)) (nonzero : nonce ≠ 0)
      (live : c.shared.registry.node? e = some n ∧ n.isLive = true)
      (stored : c'.shared.registry.node? e = some { n with pingNonce := nonce })
      (books : c'.books = c.books) : Does world i e c c' (.noted nonce)
  /-- The write never finishes. -/
  | stalled (link : Link) (nonce : UInt64) (wake : Option Nat)
      (before : c.phaseOf i = some (.pinging e link nonce)) (after : c'.phaseOf i = some (.pinging e link nonce))
      (write : link.send (.ping nonce) = (link, .waiting wake)) (books : c'.books = c.books) :
      Does world i e c c' .stayed
  | pinged (link link' : Link) (nonce : UInt64) (session : Session)
      (before : c.phaseOf i = some (.pinging e link nonce)) (after : c'.phaseOf i = some (.serving session))
      (write : link.send (.ping nonce) = (link', .ready (.ok ())))
      (about : session.endpoint = e) (line : session.line = .link link')
      (books : c'.books = { c.books with messagesOut := c.books.messagesOut + 1 }) :
      Does world i e c c' (.pinged nonce)
  | unpinged (link link' : Link) (nonce : UInt64) (fault : TransportFault)
      (before : c.phaseOf i = some (.pinging e link nonce)) (after : c'.phaseOf i = some .leaving)
      (write : link.send (.ping nonce) = (link', .ready (.error fault)))
      (books : c'.books = { c.books with frames := c.books.frames ++ link'.sent }) :
      Does world i e c c' (.unpinged fault link'.sent)
  /-- The session goes on, and nothing is written. -/
  | served (session : Session) (before : c.phaseOf i = some (.serving session))
      (after : c'.phaseOf i = some (.serving (session.step world.config.idleTimeout c.shared).1))
      (unfinished : ∀ reason, (session.step world.config.idleTimeout c.shared).2.2 ≠ .finished reason)
      (about : (session.step world.config.idleTimeout c.shared).1.endpoint = session.endpoint)
      (silent : (session.step world.config.idleTimeout c.shared).1.line.sent = session.line.sent)
      (books : c'.books = c.books) : Does world i e c c' .stayed
  | ended (session : Session) (reason : SessionEnd) (before : c.phaseOf i = some (.serving session))
      (after : c'.phaseOf i = some .leaving)
      (answer : (session.step world.config.idleTimeout c.shared).2.2 = .finished reason)
      (books : c'.books = { c.books with frames := c.books.frames ++ session.line.sent }) :
      Does world i e c c' (.ended reason session.line.sent)
  | left (before : c.phaseOf i = some .leaving) (after : c'.phaseOf i = some .idle)
      (books : c.books = { c'.books with active := c'.books.active + 1 }) : Does world i e c c' .left

variable {world : World} {c c' : Crawl} {worker : Worker} {i : Nat} {e : Endpoint}

theorem phaseOf_eq (c : Crawl) (i : Nat) : c.phaseOf i = c.outline.phases[i]? := by
  simp [phaseOf, outline]

/-- A worker that is put somewhere stands there. -/
theorem phaseOf_place (hi : c.workers[i]? = some worker) (same : c'.workers = c.workers) (phase : WorkerPhase) :
    (c'.place worker phase i).phaseOf i = some phase := by
  rw [phaseOf_eq]
  exact phases_place hi same phase

theorem await_fst (c : Crawl) (wake : Option Nat) : (c.await wake).1 = c := by
  unfold await
  split_ifs <;> rfl

end Crawl

/-! ## Message counters -/

/-- A write is over at once or never. -/
theorem Link.send_waiting {link link' : Link} {m : Message} {wake : Option Nat}
    (h : link.send m = (link', .waiting wake)) : link' = link := by
  unfold send at h
  dsimp only at h
  split at h
  all_goals cases h
  rfl

theorem Dial.step_metrics (world : World) (e : Endpoint) (dial : Dial) (s : Shared) :
    (dial.step world e s).2.1.metrics = s.metrics := by
  cases dial with
  | unanswered due =>
      simp only [step]
      split
      · unfold answered
        split <;> rfl
      · rfl
  | shaking handshake link =>
      simp only [step]
      split <;> rfl

theorem Shared.judge_messagesOut (e : Endpoint) (r : Received) (s : Shared) :
    (s.judge e r).1.metrics.messagesOut = s.metrics.messagesOut := by
  cases r with
  | ok m => rfl
  | error fault =>
      simp only [judge]
      split
      · rfl
      · split <;> rfl

theorem Shared.handle_messagesOut (e : Endpoint) (notice : Notice) (s : Shared) :
    (s.handle e notice).1.metrics.messagesOut = s.metrics.messagesOut := by
  cases notice with
  | pong nonce =>
      show (s.handlePong e nonce).metrics.messagesOut = s.metrics.messagesOut
      unfold handlePong
      split <;> rfl
  | _ => rfl

/-- A session counts no message as sent. -/
theorem Session.step_messagesOut (idle : Option Millis) (session : Session) (s : Shared) :
    (session.step idle s).2.1.metrics.messagesOut = s.metrics.messagesOut := by
  unfold step
  split
  next deadline hphase =>
    unfold stepAwaiting
    split
    · rfl
    · rcases hreceive : session.line.receive s.now with ⟨line, r | wake⟩
      · have hjudge := s.judge_messagesOut session.endpoint r
        dsimp only
        rcases hverdict : s.judge session.endpoint r with ⟨s', verdict⟩
        rw [hverdict] at hjudge
        cases verdict <;> exact hjudge
      · dsimp only
        split <;> rfl
  next notice hphase =>
    have hhandle := s.handle_messagesOut session.endpoint notice
    rcases hresult : s.handle session.endpoint notice with ⟨s', due⟩
    rw [hresult] at hhandle
    cases due <;> exact hhandle
  next hphase => rfl

/-! ## Dials that go on -/

namespace Dial

/-- Nothing is held beyond the current frame. -/
def Waits : Dial → Prop
  | unanswered _ => True
  | shaking _ link => link.reader.Waits

/-- How often a dial can go on at most before it waits or has a result. -/
def effort (world : World) (e : Endpoint) : Dial → Nat
  | unanswered _ =>
    match (world.remote e).answer with
    | .accept events _ => 3 * (Script.tokens {} events).length + 2
    | .refuse _ | .silence => 0
  | shaking handshake link => handshake.effort link

variable {world : World} {e : Endpoint} {dial : Dial}

theorem answered_effort (due : Option Nat) (instant : Nat) (s : Shared) :
    (answered world e instant s).1.Waits ∧ ((answered world e instant s).2.2 = .moved →
      (answered world e instant s).1.effort world e < (unanswered due).effort world e) := by
  unfold answered effort
  cases (world.remote e).answer with
  | refuse fault => exact ⟨trivial, fun hmoved => by cases hmoved⟩
  | silence => exact ⟨trivial, fun hmoved => by cases hmoved⟩
  | accept events writeFault =>
      refine ⟨Reader.waits_start, fun _ => ?_⟩
      exact Nat.lt_succ_self (3 * (Script.tokens {} events).length + 1)

/-- A dial that goes on has less to do. -/
theorem step_effort (hw : dial.Waits) (s : Shared) : (dial.step world e s).1.Waits ∧
    ((dial.step world e s).2.2 = .moved → (dial.step world e s).1.effort world e < dial.effort world e) := by
  cases dial with
  | unanswered due =>
      simp only [step]
      split_ifs
      · exact answered_effort due _ s
      · exact ⟨trivial, fun hmoved => by cases hmoved⟩
  | shaking handshake link =>
      have hpart := (handshake.step_foretells hw s.now).part
      have heffort := (@Handshake.step_effort handshake link hw s.now).1
      simp only [step]
      split
      next => exact ⟨hpart, fun hmoved => by cases hmoved⟩
      next => exact ⟨hpart, fun hmoved => by cases hmoved⟩
      next hmoved => exact ⟨hpart, fun _ => heffort hmoved⟩
      next => exact ⟨hpart, fun hmoved => by cases hmoved⟩

end Dial

/-! ## Steps of a visit -/

namespace Crawl

variable {world : World} {c : Crawl} {worker : Worker} {i : Nat} {e : Endpoint}

theorem stepClaimed_does (world : World) (hi : c.workers[i]? = some worker)
    (before : c.phaseOf i = some (.claimed e)) (queued : c.shared.registry.state? e = some .queued) :
    Does world i e c (c.stepClaimed worker e i).1 .marked := by
  obtain ⟨n, hn, hs⟩ := Registry.state?_eq_some.mp queued
  have hok := Registry.markConnecting_eq_ok.mpr ⟨n, hn, hs, rfl⟩
  have hstate := (Registry.perform_mark (.markConnecting e) rfl queued).2 e
  rw [if_pos rfl, ← (Registry.state?_of_markConnecting hok).2] at hstate
  simp only [stepClaimed, hok]
  exact .marked before (phaseOf_place hi rfl _) queued hstate rfl

theorem stepMarked_does (world : World) (hi : c.workers[i]? = some worker)
    (before : c.phaseOf i = some (.marked e)) :
    Does world i e c (c.stepMarked world worker e i).1 (.entered c.shared.now) :=
  .entered before (phaseOf_place hi rfl _) rfl

/-- A dial shows nowhere. -/
theorem books_dial (world : World) (e : Endpoint) (dial : Dial) (c : Crawl) :
    ({ c with shared := (dial.step world e c.shared).2.1 } : Crawl).books = c.books := by
  simp only [books, Dial.step_metrics]

theorem stepDialing_does {dial : Dial} {deadline : Nat} (world : World) (hi : c.workers[i]? = some worker)
    (before : c.phaseOf i = some (.dialing e dial deadline))
    (connecting : c.shared.registry.state? e = some .connecting) :
    ∃ deed, Does world i e c (c.stepDialing world worker e dial deadline i).1 deed := by
  by_cases hstop : c.shared.cancelled = true
  · rw [stepDialing, if_pos hstop]
    exact ⟨_, .abandoned dial deadline before (phaseOf_place hi rfl _) hstop connecting rfl⟩
  · have hrunning : c.shared.cancelled = false := eq_false_of_ne_true hstop
    have hnow := (Dial.step_ground world e dial c.shared).now
    have hbooks := books_dial world e dial c
    rw [stepDialing, if_neg hstop]
    rcases hstep : dial.step world e c.shared with ⟨dial', s, answer⟩
    have hdial : (dial.step world e c.shared).1 = dial' := by rw [hstep]
    have hanswer : (dial.step world e c.shared).2.2 = answer := by rw [hstep]
    rw [hstep] at hnow hbooks
    dsimp only at hnow hbooks ⊢
    cases answer with
    | finished result =>
        cases result with
        | ok connected =>
            exact ⟨_, .connected dial deadline connected before (phaseOf_place hi rfl _) hrunning hanswer hbooks⟩
        | error fault =>
            refine ⟨_, .refused dial deadline fault before (phaseOf_place hi rfl _) hrunning hanswer ?_⟩
            rw [hdial, ← hbooks]
            rfl
    | moved =>
        refine ⟨_, .dialed dial deadline before ?_ hrunning (.inl hanswer) hbooks⟩
        rw [hdial]
        exact phaseOf_place hi rfl _
    | waiting wake =>
        dsimp only
        rw [hnow]
        split_ifs with hlate
        · refine ⟨_, .timedOut dial deadline wake before (phaseOf_place hi rfl _) hrunning hanswer hlate ?_⟩
          rw [hdial, ← hbooks]
          rfl
        · have htimely := Nat.lt_of_not_le hlate
          rw [await_fst]
          refine ⟨_, .dialed dial deadline before ?_ hrunning (.inr ⟨wake, hanswer, htimely⟩) hbooks⟩
          rw [hdial]
          exact phaseOf_place hi rfl _

theorem stepReporting_does {outcome : Outcome} {link : Option Link} (world : World)
    (hi : c.workers[i]? = some worker) (before : c.phaseOf i = some (.reporting e outcome link))
    (listening : c.outcomes.isOpen = true) :
    Does world i e c (c.stepReporting worker e outcome link i).1 (.sent outcome) := by
  unfold stepReporting
  rw [if_pos listening]
  cases link with
  | none => exact .sent outcome none before (phaseOf_place hi rfl _) rfl
  | some link => exact .sent outcome (some link) before (phaseOf_place hi rfl _) rfl

theorem stepNoting_does {link : Link} {n : Node} (world : World) (hi : c.workers[i]? = some worker)
    (before : c.phaseOf i = some (.noting e link)) (hn : c.shared.registry.node? e = some n)
    (live : n.isLive = true) : ∃ nonce, Does world i e c (c.stepNoting worker e link i).1 (.noted nonce) := by
  let nonce := c.shared.host.nonce c.shared.noncesDrawn
  have hset : c.shared.registry.setPingNonce e nonce =
      .ok (c.shared.registry.put e { n with pingNonce := nonce }) :=
    Registry.setPingNonce_eq_ok.mpr ⟨n, hn, live, rfl⟩
  have hstored := (Registry.node?_put c.shared.registry e e { n with pingNonce := nonce }).trans (if_pos rfl)
  refine ⟨nonce, ?_⟩
  simp only [stepNoting, Shared.drawNonce, show c.shared.host.nonce c.shared.noncesDrawn = nonce from rfl, hset]
  exact .noted link nonce n before (phaseOf_place hi rfl _) (c.shared.host.nonce_ne_zero _) ⟨hn, live⟩ hstored rfl

theorem stepPinging_does {link : Link} {nonce : UInt64} (world : World) (hi : c.workers[i]? = some worker)
    (before : c.phaseOf i = some (.pinging e link nonce)) :
    ∃ deed, Does world i e c (c.stepPinging world worker e link nonce i).1 deed := by
  unfold stepPinging
  rcases hsend : link.send (.ping nonce) with ⟨link', (⟨fault⟩ | ⟨⟨⟩⟩) | wake⟩
  · exact ⟨_, .unpinged link link' nonce fault before (phaseOf_place hi rfl _) hsend rfl⟩
  · exact ⟨_, .pinged link link' nonce _ before (phaseOf_place hi rfl _) hsend rfl rfl rfl⟩
  · obtain rfl := Link.send_waiting hsend
    dsimp only
    rw [await_fst]
    exact ⟨_, .stalled link' nonce wake before (phaseOf_place hi rfl _) hsend rfl⟩

/-- A session shows nowhere while it goes on. -/
theorem books_session (idle : Option Millis) (session : Session) (c : Crawl) :
    ({ c with shared := (session.step idle c.shared).2.1 } : Crawl).books = c.books := by
  have hactive := (Session.step_kept idle session c.shared).ground.active
  simp only [books, hactive, Session.step_messagesOut]

theorem stepServing_does {session : Session} (world : World) (hi : c.workers[i]? = some worker)
    (before : c.phaseOf i = some (.serving session)) :
    ∃ deed, Does world i e c (c.stepServing world worker session i).1 deed := by
  have hsent := Session.step_sent world.config.idleTimeout session c.shared
  have habout := (Session.step_kept world.config.idleTimeout session c.shared).endpoint
  have hbooks := books_session world.config.idleTimeout session c
  have hserved := @Does.served world i e c (c.stepServing world worker session i).1 session before
  unfold stepServing at hserved ⊢
  rcases hstep : session.step world.config.idleTimeout c.shared with ⟨session', s, answer⟩
  have hanswer : (session.step world.config.idleTimeout c.shared).2.2 = answer := by rw [hstep]
  rw [hstep] at hsent habout hbooks hserved
  dsimp only at hsent habout hbooks hserved ⊢
  cases answer with
  | finished reason =>
      refine ⟨_, .ended session reason before (phaseOf_place hi rfl _) hanswer ?_⟩
      rw [← hsent, ← hbooks]
      rfl
  | moved => exact ⟨_, hserved (phaseOf_place hi rfl _) (by simp) habout hsent hbooks⟩
  | waiting wake =>
      dsimp only at hserved ⊢
      rw [await_fst] at hserved ⊢
      exact ⟨_, hserved (phaseOf_place hi rfl _) (by simp) habout hsent hbooks⟩

theorem stepLeaving_does (world : World) (hi : c.workers[i]? = some worker)
    (before : c.phaseOf i = some .leaving) : Does world i e c (c.stepLeaving worker i).1 .left := by
  refine .left before (phaseOf_place hi rfl _) ?_
  show c.books = { c.books with active := c.shared.metrics.active - 1 + 1 }
  rw [UInt64.sub_add_cancel]
  rfl

end Crawl

end BitcoinCrawl
