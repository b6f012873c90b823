import BitcoinCrawl.Proofs.Crawl.Attestation
import BitcoinCrawl.Proofs.Crawl.Completion
import BitcoinCrawl.Proofs.Crawl.Frame
import BitcoinCrawl.Proofs.Registry.History

set_option autoImplicit false

/-! # Where the details of good nodes come from

Every step of a crawl keeps it attested by its connections (`Crawl.apply_attested`), so whatever a crawl has come
to, the record of a good node says of the peer what the first version message on the connection with it said,
and counts a pong only if it answers the ping that was sent there (`Crawl.details_provenance`). What comes later
on that connection or on any other makes no difference to the former. -/

namespace BitcoinCrawl

/-! ## Steps of a visit -/

namespace Crawl

open Outline

variable {world : World} {c : Crawl} {worker : Worker} {i : Nat} {e : Endpoint} {t : Transcript}

theorem stopWorker_attested (ha : c.outline.Attested world t) (worker : Worker) (i : Nat) :
    (c.stopWorker worker i).1.outline.Attested world t := by
  have hplaced := outline_place (c.report (.debug s!"Worker {worker.id} exited")) worker .exited i
  have hattested : ((c.report (.debug s!"Worker {worker.id} exited")).place worker .exited i).outline.Attested
      world t := by
    rw [hplaced]
    exact ha.unvisit rfl rfl (fun _ => rfl) fun _ hmem => hmem
  unfold stopWorker
  dsimp only
  split_ifs
  · exact hattested.aside (fun _ hmem _ => hmem) (fun _ => rfl) (fun _ hmem => hmem) hattested.details
  · exact hattested

theorem stepIdle_attested (ha : c.outline.Attested world t) (worker : Worker) (i : Nat) :
    (c.stepIdle worker i).1.outline.Attested world t := by
  unfold stepIdle
  split_ifs
  · exact stopWorker_attested ha worker i
  · split
    next =>
      rw [outline_proceed]
      exact ha.unvisit rfl rfl (fun _ => rfl) fun _ hmem => hmem
    next => exact stopWorker_attested ha worker i
    next => exact ha

theorem stepClaimed_attested (ha : c.outline.Attested world t) (hc : c.shared.registry.Consistent)
    (worker : Worker) (e : Endpoint) (i : Nat) : (c.stepClaimed worker e i).1.outline.Attested world t := by
  unfold stepClaimed
  cases hmark : c.shared.registry.markConnecting e with
  | error fault =>
      dsimp only
      rw [outline_proceed]
      exact ha.unvisit rfl rfl (fun _ => rfl) fun _ hmem => hmem
  | ok registry =>
      have hkept : ∀ e', registry.details e' = c.shared.registry.details e' := fun e' => by
        rw [(Registry.state?_of_markConnecting hmark).2]
        exact hc.details_kept (.markConnecting e) e' rfl
      dsimp only
      rw [outline_proceed]
      exact ha.unvisit rfl rfl hkept fun _ hmem => hmem

/-- A visit begins where nothing has happened yet. -/
theorem stepMarked_attested (ha : c.outline.Attested world t) (halone : c.outline.Alone i e)
    (hnew : t.about e = []) (worker : Worker) :
    (c.stepMarked world worker e i).1.outline.Attested world t := by
  unfold stepMarked
  rw [outline_proceed]
  refine ha.goOn halone rfl (fun _ _ => rfl) (fun _ hmem => .inl hmem) ?_ (ha.details e)
  rintro e' ⟨⟩
  exact ⟨rfl, hnew⟩

theorem stepDialing_attested {dial : Dial} {deadline : Nat} (ha : c.outline.Attested world t)
    (halone : c.outline.Alone i e) (hi : c.outline.phases[i]? = some (.dialing e dial deadline))
    (worker : Worker) :
    (c.stepDialing world worker e dial deadline i).1.outline.Attested world
      (t ++ (WorkerPhase.dialing e dial deadline).entries c.shared) := by
  have hdial : dial.Attested world e (t.about e) := ha.phases _ (List.mem_of_getElem? hi) e rfl
  unfold stepDialing
  simp only [WorkerPhase.entries, WorkerPhase.visited?, WorkerPhase.occurrences]
  by_cases hstop : c.shared.cancelled = true
  · rw [if_pos hstop, if_pos hstop, List.map_nil, List.append_nil, outline_proceed]
    exact ha.unvisit rfl rfl (fun _ => rfl) fun _ hmem => hmem
  · rw [if_neg hstop, if_neg hstop]
    have hstepped := hdial.step c.shared
    have hreg := Dial.step_registry world e dial c.shared
    have hgrounded := World.grounded_of_quiet hstepped.quiet hstepped.reached
    have hdetails : (c.shared.registry.details e).Attested e (t.about e ++ dial.occurrences c.shared.now) := by
      have hbefore := ha.details e
      refine ⟨fun peer hpeer => (hbefore.peer peer hpeer).append _, .unpinged hstepped.quiet ?_⟩
      exact hbefore.keepalive.count_of_quiet hdial.quiet
    -- Whatever the step came to, the worker stands somewhere in the same visit.
    have hturn : ∀ (o' : Outline) (new : WorkerPhase), o'.phases = c.outline.phases.set i new →
        o'.registry = c.shared.registry → o'.outcomes = c.outcomes → new.visited? = some e →
        new.Attested world (c.shared.registry.details e).pingNonce (t.about e ++ dial.occurrences c.shared.now) →
        o'.Attested world (t ++ (dial.occurrences c.shared.now).map (e, ·)) := by
      intro o' new hplaced hregistry houtcomes hvisits hnew
      have hsame : ∀ e', o'.registry.details e' = c.shared.registry.details e' := fun e' => by rw [hregistry]
      refine ha.turn halone hplaced (fun e' _ => hsame e') ?_ ?_ ?_ hgrounded
      · rw [houtcomes]
        exact fun _ hmem => .inl hmem
      · intro e' he'
        rw [hsame]
        exact ⟨Option.some.inj (he'.symm.trans hvisits), hnew⟩
      · rw [hsame]
        exact hdetails
    cases hstep : dial.step world e c.shared with
    | mk dial' rest =>
        obtain ⟨s, answer⟩ := rest
        rw [hstep] at hstepped hreg
        have hfailed : ∀ reason, (({ c with shared := s } : Crawl).giveUp worker e dial' reason
            i).1.outline.Attested world (t ++ (dial.occurrences c.shared.now).map (e, ·)) := by
          intro reason
          rw [giveUp_outline]
          exact hturn _ (.reporting e (.dead e) none) rfl hreg rfl rfl ⟨hstepped.quiet, by simp, by simp⟩
        dsimp only
        cases answer with
        | finished result =>
            cases result with
            | ok connected =>
                obtain ⟨hintroduces, hreached⟩ := hstepped.connected connected rfl
                rw [outline_proceed]
                refine hturn _ (.reporting e (.good connected.peer) (some connected.link)) rfl hreg rfl rfl ?_
                exact ⟨hstepped.quiet, by rintro _ ⟨⟩; exact hintroduces, by rintro _ ⟨⟩; exact hreached⟩
            | error fault => exact hfailed _
        | moved =>
            rw [outline_proceed]
            exact hturn _ (.dialing e dial' deadline) rfl hreg rfl rfl (hstepped.unfinished (by simp))
        | waiting wake =>
            dsimp only
            split_ifs
            · exact hfailed _
            · rw [outline_await, outline_place]
              exact hturn _ (.dialing e dial' deadline) rfl hreg rfl rfl (hstepped.unfinished (by simp))

theorem stepReporting_attested {outcome : Outcome} {link : Option Link} (ha : c.outline.Attested world t)
    (halone : c.outline.Alone i e) (hi : c.outline.phases[i]? = some (.reporting e outcome link))
    (worker : Worker) : (c.stepReporting worker e outcome link i).1.outline.Attested world t := by
  obtain ⟨hquiet, hintroduces, hreached⟩ := ha.phases _ (List.mem_of_getElem? hi) e rfl
  -- The outcome may be dropped, but nothing else is sent.
  have hturn : ∀ (o' : Outline) (new : WorkerPhase), o'.phases = c.outline.phases.set i new →
      o'.registry = c.shared.registry →
      (o'.outcomes.items = c.outcomes.items ∨ o'.outcomes.items = c.outcomes.items ++ [outcome]) →
      (∀ e', new.visited? = some e' →
        e' = e ∧ new.Attested world (c.shared.registry.details e).pingNonce (t.about e)) →
      o'.Attested world t := by
    intro o' new hplaced hregistry houtcomes hnew
    have hsame : ∀ e', o'.registry.details e' = c.shared.registry.details e' := fun e' => by rw [hregistry]
    refine ha.goOn halone hplaced (fun e' _ => hsame e') ?_ (hsame e ▸ hnew) (hsame e ▸ ha.details e)
    intro peer hmem
    rcases houtcomes with hsame | hpushed
    · exact .inl (hsame ▸ hmem)
    · rw [hpushed, List.mem_append, List.mem_singleton] at hmem
      rcases hmem with hbefore | hsent
      · exact .inl hbefore
      · have hpeer := hintroduces peer hsent.symm
        obtain ⟨v, -, heq⟩ := id hpeer
        exact .inr ⟨congrArg Peer.endpoint heq, hpeer⟩
  unfold stepReporting
  cases link with
  | none =>
      dsimp only
      rw [outline_proceed]
      split_ifs
      · exact hturn _ .leaving rfl rfl (.inr rfl) (by rintro _ ⟨⟩)
      · exact hturn _ .leaving rfl rfl (.inl rfl) (by rintro _ ⟨⟩)
  | some link =>
      have hnoting : ∀ e', (WorkerPhase.noting e link).visited? = some e' → e' = e ∧
          (WorkerPhase.noting e link).Attested world (c.shared.registry.details e).pingNonce (t.about e) := by
        rintro e' ⟨⟩
        exact ⟨rfl, hquiet, hreached link rfl⟩
      dsimp only
      rw [outline_proceed]
      split_ifs
      · exact hturn _ (.noting e link) rfl rfl (.inr rfl) hnoting
      · exact hturn _ (.noting e link) rfl rfl (.inl rfl) hnoting

theorem stepNoting_attested {link : Link} (ha : c.outline.Attested world t) (halone : c.outline.Alone i e)
    (hc : c.shared.registry.Consistent)
    (hnoted : ∀ nonce, c.shared.registry.succeeds (.setPingNonce e nonce) = true)
    (hi : c.outline.phases[i]? = some (.noting e link)) (worker : Worker) :
    (c.stepNoting worker e link i).1.outline.Attested world t := by
  obtain ⟨hquiet, hreached⟩ := ha.phases _ (List.mem_of_getElem? hi) e rfl
  unfold stepNoting
  rw [outline_proceed]
  simp only [Shared.drawNonce]
  generalize hnonce : c.shared.host.nonce c.shared.noncesDrawn = nonce
  have hdetails : ∀ e', (c.shared.registry.perform (.setPingNonce e nonce)).details e'
      = if e = e' then { c.shared.registry.details e' with pingNonce := nonce }
        else c.shared.registry.details e' := hc.details_perform (hnoted nonce)
  have hown := hdetails e
  rw [if_pos rfl] at hown
  have hbefore := ha.details e
  have hnonzero : nonce ≠ 0 := hnonce ▸ Host.nonce_ne_zero _ _
  have hturn : ∀ o' : Outline, o'.phases = c.outline.phases.set i (.pinging e link nonce) →
      o'.registry = c.shared.registry.perform (.setPingNonce e nonce) → o'.outcomes = c.outcomes →
      o'.Attested world t := by
    intro o' hplaced hregistry houtcomes
    refine ha.goOn halone hplaced ?_ ?_ ?_ ?_
    · intro e' hne
      rw [hregistry, hdetails, if_neg (Ne.symm hne)]
      rfl
    · rw [houtcomes]
      exact fun _ hmem => .inl hmem
    · rintro e' ⟨⟩
      rw [hregistry, hown]
      exact ⟨rfl, hquiet, hreached, hnonzero, rfl⟩
    · rw [hregistry, hown]
      exact ⟨hbefore.peer, .unpinged hquiet (hbefore.keepalive.count_of_quiet hquiet)⟩
  cases hset : c.shared.registry.setPingNonce e nonce with
  | ok registry => exact hturn _ rfl (congrArg c.shared.registry.orKept hset).symm rfl
  | error fault => exact hturn _ rfl (congrArg c.shared.registry.orKept hset).symm rfl

theorem stepPinging_attested {link : Link} {nonce : UInt64} (ha : c.outline.Attested world t)
    (halone : c.outline.Alone i e) (hi : c.outline.phases[i]? = some (.pinging e link nonce))
    (worker : Worker) :
    (c.stepPinging world worker e link nonce i).1.outline.Attested world
      (t ++ (WorkerPhase.pinging e link nonce).entries c.shared) := by
  obtain ⟨hquiet, ⟨events, writeFault, hanswer, hreads⟩, hnonzero, hnoted⟩ :=
    ha.phases _ (List.mem_of_getElem? hi) e rfl
  have hsends := hreads.sends (.ping nonce)
  simp only [WorkerPhase.entries, WorkerPhase.visited?, WorkerPhase.occurrences]
  unfold stepPinging
  cases hsend : link.send (.ping nonce) with
  | mk link' poll =>
      rw [hsend] at hsends
      have hreached : world.Reached e (t.about e).received link' := ⟨events, writeFault, hanswer, hsends⟩
      cases poll with
      | ready result =>
          cases result with
          | ok _ =>
              have hpings := Proceedings.pings_append_pinged (t.about e) nonce
              have hreceived := Proceedings.received_append_pinged (t.about e) nonce
              have hpongs := (Proceedings.pongs_append_pinged (t.about e) nonce).trans hquiet.2
              have hbefore := ha.details e
              rw [outline_proceed]
              refine ha.turn halone rfl (fun _ _ => rfl) (fun _ hmem => .inl hmem) ?_ ?_ ?_
              · rintro e' ⟨⟩
                refine ⟨rfl, by rw [hpings]; simp, ⟨link', rfl, by rw [hreceived]; exact hreached⟩, ?_⟩
                rw [hpongs]
                exact List.nil_sublist _
              · exact ⟨fun peer hpeer => (hbefore.peer peer hpeer).append _,
                  hbefore.keepalive.pinged hquiet hnoted hnonzero⟩
              · refine ⟨.inr ⟨link', by rw [hreceived]; exact hreached⟩, ?_⟩
                rw [hpongs]
                exact List.nil_sublist _
          | error fault =>
              rw [List.map_nil, List.append_nil]
              dsimp only
              rw [outline_proceed]
              exact ha.unvisit rfl rfl (fun _ => rfl) fun _ hmem => hmem
      | waiting wake =>
          rw [List.map_nil, List.append_nil, outline_await, outline_place]
          refine ha.goOn halone rfl (fun _ _ => rfl) (fun _ hmem => .inl hmem) ?_ (ha.details e)
          rintro e' ⟨⟩
          exact ⟨rfl, hquiet, hreached, hnonzero, hnoted⟩

theorem stepServing_attested {session : Session} (ha : c.outline.Attested world t)
    (halone : c.outline.Alone i session.endpoint) (hc : c.shared.registry.Consistent)
    (hi : c.outline.phases[i]? = some (.serving session)) (worker : Worker) :
    (c.stepServing world worker session i).1.outline.Attested world
      (t ++ (WorkerPhase.serving session).entries c.shared) := by
  obtain ⟨hpinged, hsession⟩ := ha.phases _ (List.mem_of_getElem? hi) session.endpoint rfl
  have hnext := hsession.step world.config.idleTimeout c.shared
  have hregistry := Session.step_details world.config.idleTimeout session hc
  have hendpoint := (Session.step_kept world.config.idleTimeout session c.shared).endpoint
  have hbefore := ha.details session.endpoint
  simp only [WorkerPhase.entries, WorkerPhase.visited?, WorkerPhase.occurrences]
  generalize hoccurred : session.occurrences c.shared = p at hnext
  have hpings : Proceedings.pings (t.about session.endpoint ++ p) ≠ [] := by
    rw [← hoccurred, Session.pings_append_occurrences]
    exact hpinged
  have hgrounded : world.Grounded session.endpoint (t.about session.endpoint ++ p) := by
    obtain ⟨link, -, hreached⟩ := hnext.line
    rw [hendpoint] at hreached
    exact ⟨.inr ⟨link, hreached⟩, (List.sublist_append_left _ _).trans hnext.pongs⟩
  have hturn : ∀ (o' : Outline) (new : WorkerPhase), o'.phases = c.outline.phases.set i new →
      o'.registry = (session.step world.config.idleTimeout c.shared).2.1.registry →
      o'.outcomes = c.outcomes →
      (new.visited? = none ∨ new = .serving (session.step world.config.idleTimeout c.shared).1) →
      o'.Attested world (t ++ p.map (session.endpoint, ·)) := by
    intro o' new hplaced hsame houtcomes hnew
    refine ha.turn halone hplaced ?_ ?_ ?_ ?_ hgrounded
    · intro e' hne
      rw [hsame, hregistry, if_neg (Ne.symm hne)]
      rfl
    · rw [houtcomes]
      exact fun _ hmem => .inl hmem
    · intro e' he'
      rcases hnew with hnone | rfl
      · cases hnone.symm.trans he'
      · exact ⟨(Option.some.inj he').symm.trans hendpoint, hpings, hnext⟩
    · rw [hsame, hregistry, if_pos rfl]
      refine ⟨fun peer hpeer => ?_, hoccurred ▸ hbefore.keepalive.step hpinged session c.shared⟩
      rw [Details.foldl_answer_peer] at hpeer
      exact (hbefore.peer peer hpeer).append p
  unfold stepServing
  cases hstep : session.step world.config.idleTimeout c.shared with
  | mk session' rest =>
      obtain ⟨s, answer⟩ := rest
      rw [hstep] at hturn
      dsimp only
      cases answer with
      | finished reason =>
          dsimp only
          rw [outline_proceed]
          exact hturn _ .leaving rfl rfl rfl (.inl rfl)
      | moved =>
          rw [outline_proceed]
          exact hturn _ (.serving session') rfl rfl rfl (.inr rfl)
      | waiting wake =>
          rw [outline_await, outline_place]
          exact hturn _ (.serving session') rfl rfl rfl (.inr rfl)

/-! ## Whole crawls -/

/-- What else is known of a crawl whose connections are watched. -/
structure Watched (c : Crawl) (t : Transcript) (h : History) : Prop where
  consistent : c.shared.registry.Consistent
  faultless : c.Faultless
  visited : c.outline.Visited h
  once : h.called.Nodup
  /-- Nothing happens on a connection to an endpoint that was not dialed. -/
  unheard : ∀ e, e ∉ h.called → t.about e = []

variable {h : History}

theorem stepWorker_attested (ha : c.outline.Attested world t) (hw : c.Watched t h)
    (honce : (h ++ c.facts world (.act (.worker i))).called.Nodup) :
    (c.stepWorker world i).1.outline.Attested world (t ++ c.entries (.act (.worker i))) := by
  cases hworker : c.workers[i]? with
  | none =>
      simp only [stepWorker, entries, hworker, List.append_nil]
      exact ha
  | some worker =>
      have hi := phases_of_workers hworker
      have hmem := Array.mem_of_getElem? hworker
      have halone := fun e => hw.visited.alone (e := e) hw.once hi
      simp only [facts, hworker] at honce
      simp only [stepWorker, entries, hworker]
      cases hphase : worker.phase <;> rw [hphase] at hi halone honce
      case dialing e dial deadline => exact stepDialing_attested ha (halone e rfl) hi worker
      case pinging e link nonce => exact stepPinging_attested ha (halone e rfl) hi worker
      case serving session => exact stepServing_attested ha (halone _ rfl) hw.consistent hi worker
      -- In all other steps nothing happens on a connection.
      all_goals
        show Outline.Attested world (t ++ []) _
        rw [List.append_nil]
      case starting =>
        dsimp only
        rw [outline_proceed]
        exact ha.unvisit rfl rfl (fun _ => rfl) fun _ hmem => hmem
      case idle => exact stepIdle_attested ha worker i
      case claimed e => exact stepClaimed_attested ha hw.consistent worker e i
      case marked e =>
        -- The endpoint was not dialed before, or this would be the second time.
        have hnew : e ∉ h.called := by
          rw [History.called_append] at honce
          exact fun hcalled => (List.disjoint_of_nodup_append honce) hcalled List.mem_cons_self
        refine stepMarked_attested ha (fun j phase hj he => ?_) (hw.unheard e hnew) worker
        exact absurd (hw.visited.called (List.mem_of_getElem? hj) he) hnew
      case reporting e outcome link => exact stepReporting_attested ha (halone e rfl) hi worker
      case noting e link =>
        exact stepNoting_attested ha (halone e rfl) hw.consistent
          (fun nonce => hw.faultless.noting worker hmem e link nonce hphase) hi worker
      case leaving =>
        unfold stepLeaving
        rw [outline_proceed]
        exact ha.unvisit rfl rfl (fun _ => rfl) fun _ hmem => hmem
      case exited => exact ha

theorem stepFeeder_attested (ha : c.outline.Attested world t) (hc : c.shared.registry.Consistent) :
    c.stepFeeder.1.outline.Attested world t := by
  have hfed := c.fed_stepFeeder
  have hkept : ∀ e, c.stepFeeder.1.shared.registry.details e = c.shared.registry.details e := by
    intro e
    rcases hfed.registry with hsame | htaken
    · rw [hsame]
    · rw [htaken, hc.details_kept .takeNext e rfl]
  refine ha.aside (fun phase hmem _ => ?_) (fun e => congrArg Details.pingNonce (hkept e))
    (fun outcome hmem => ?_) fun e => ?_
  · rw [outline, hfed.workers] at hmem
    exact hmem
  · rw [outline, hfed.outcomes] at hmem
    exact hmem
  · exact (hkept e).symm ▸ ha.details e

/-- The outcome of a visit says of the peer what was received from it. -/
theorem record_attested {outcome : Outcome} {items : List Outcome} (ha : c.outline.Attested world t)
    (hc : c.shared.registry.Consistent) (hitems : c.outcomes.items = outcome :: items) :
    ({ c.outline with
      registry := c.shared.registry.perform outcome.call
      outcomes := { c.outcomes with items } } : Outline).Attested world t := by
  have hrevised : ∀ e, (c.shared.registry.perform outcome.call).details e = c.shared.registry.details e ∨
      ∃ peer, outcome = .good peer ∧ peer.endpoint = e ∧
        (c.shared.registry.perform outcome.call).details e
          = { c.shared.registry.details e with peer := some peer } := by
    intro e
    cases outcome with
    | dead e' => exact .inl (hc.details_kept (.markDead e') e rfl)
    | good peer =>
        rcases hc.details_either (.markGood peer.endpoint peer) e with hrevised | hsame
        · by_cases heq : peer.endpoint = e
          · exact .inr ⟨peer, rfl, heq, hrevised.trans (if_pos heq)⟩
          · exact .inl (hrevised.trans (if_neg heq))
        · exact .inl hsame
  refine ha.aside (fun _ hmem _ => hmem) (fun e => ?_) (fun outcome' hmem => ?_) fun e => ?_
  · rcases hrevised e with hsame | ⟨peer, -, -, hpeer⟩
    · exact congrArg Details.pingNonce hsame
    · have hnonce := congrArg Details.pingNonce hpeer
      exact hnonce
  · exact hitems ▸ List.mem_cons_of_mem _ hmem
  · have hbefore := ha.details e
    rcases hrevised e with hsame | ⟨peer, rfl, rfl, hpeer⟩
    · exact hsame.symm ▸ hbefore
    · have hintroduces := ha.outcomes peer (hitems ▸ List.mem_cons_self)
      refine hpeer.symm ▸ ⟨?_, hbefore.keepalive.congr rfl rfl rfl rfl⟩
      rintro _ ⟨⟩
      exact hintroduces

theorem stepAggregator_attested (ha : c.outline.Attested world t) (hc : c.shared.registry.Consistent) :
    c.stepAggregator.1.outline.Attested world t := by
  have hrecord := fun outcome items => @record_attested world c t outcome items ha hc
  unfold stepAggregator
  cases c.aggregator with
  | starting | exited => exact ha
  | recording =>
      cases hitems : c.outcomes.items with
      | nil =>
          dsimp only
          split_ifs <;> exact ha
      | cons outcome items =>
          have hsettle := outline_shared (c := { c with outcomes := { c.outcomes with items } })
            (settle_ground outcome c.shared)
          rw [settle_registry] at hsettle
          exact hsettle.symm ▸ hrecord outcome items hitems

/-- Whatever happens to a crawl, its visits and nodes go on to be explained by their connections. -/
theorem apply_attested (ha : c.outline.Attested world t) (hw : c.Watched t h) (event : Event)
    (honce : (h ++ c.facts world event).called.Nodup) :
    (c.apply world event).outline.Attested world (t ++ c.entries event) := by
  cases event with
  | cancel | pass =>
      rw [show c.entries _ = [] from rfl, List.append_nil]
      exact ha.aside (fun _ hmem _ => hmem) (fun _ => rfl) (fun _ hmem => hmem) ha.details
  | act actor =>
      cases actor with
      | worker i => exact stepWorker_attested ha hw honce
      | feeder => exact (List.append_nil t).symm ▸ stepFeeder_attested ha hw.consistent
      | aggregator => exact (List.append_nil t).symm ▸ stepAggregator_attested ha hw.consistent
      | publisher => exact (List.append_nil t).symm ▸ (stepPublisher_outline world c).symm ▸ ha
      | saver => exact (List.append_nil t).symm ▸ (stepSaver_outline world c).symm ▸ ha
      | consumer => exact (List.append_nil t).symm ▸ (stepConsumer_outline c).symm ▸ ha

/-- Only workers that visit an endpoint have a connection with it. -/
theorem entries_unheard (hv : c.outline.Visited h) (event : Event) (he : e ∉ h.called) :
    Transcript.about (c.entries event) e = [] := by
  cases event with
  | cancel | pass => rfl
  | act actor =>
      cases actor with
      | worker i =>
          simp only [entries]
          cases hworker : c.workers[i]? with
          | none => rfl
          | some worker =>
              simp only [WorkerPhase.entries]
              cases hvisits : worker.phase.visited? with
              | none => rfl
              | some e' =>
                  have hcalled := hv.called (List.mem_of_getElem? (phases_of_workers hworker)) hvisits
                  have hne : e ≠ e' := fun heq => he (heq ▸ hcalled)
                  exact Transcript.about_append_other [] _ hne
      | _ => rfl

theorem chronicle_append (world : World) (c : Crawl) (events more : List Event) :
    c.chronicle world (events ++ more)
      = c.chronicle world events ++ (c.run world events).chronicle world more := by
  induction events generalizing c with
  | nil => rfl
  | cons event rest ih =>
      simp only [List.cons_append, chronicle, ih, List.append_assoc]
      rfl

variable {seeds : List Endpoint} {s : Shared}

/-- In a crawl from the start no endpoint is dialed twice, and no call that is to be made fails. -/
theorem run_faultless (fresh : s.Fresh) (started : start world seeds s = .ok c) (events : List Event) :
    (c.chronicle world events).called.Nodup ∧ (c.run world events).Faultless := by
  have hinit := start_outline fresh started
  have hreach := reach_run world c events
  obtain ⟨-, hc⟩ := hinit.reach hreach
  obtain ⟨hb, ht, -⟩ := hinit.reach_seen hreach
  have hsent := hinit.reach_outcomes hreach
  exact ⟨List.nodup_iff_count_le_one.mpr (hc.called_le ht hsent), faultless_of_outline hb hc hsent⟩

/-- A crawl from the start is watched, and what its connections attest to. -/
theorem run_attested (fresh : s.Fresh) (started : start world seeds s = .ok c) (events : List Event) :
    (c.run world events).Watched (c.transcript world events) (c.chronicle world events) ∧
      (c.run world events).outline.Attested world (c.transcript world events) := by
  have hinit := start_outline fresh started
  have hwatched : ∀ events, (∀ e, e ∉ (c.chronicle world events).called →
      (c.transcript world events).about e = []) →
      (c.run world events).Watched (c.transcript world events) (c.chronicle world events) := by
    intro events hunheard
    obtain ⟨honce, hfaultless⟩ := run_faultless fresh started events
    have hreach := reach_run world c events
    exact ⟨(hinit.reach hreach).1.consistent, hfaultless, hinit.reach_visited hreach, honce, hunheard⟩
  -- A crawl goes on at its end, so the induction takes the last event first.
  induction events using List.reverseRecOn with
  | nil => exact ⟨hwatched [] fun _ _ => rfl, hinit.attested⟩
  | append_singleton events event ih =>
      obtain ⟨hw, ha⟩ := ih
      have honce := (run_faultless fresh started (events ++ [event])).1
      have htranscript : c.transcript world (events ++ [event])
          = c.transcript world events ++ (c.run world events).entries event := by
        rw [transcript_append, transcript, transcript, List.append_nil]
      have hchronicle : c.chronicle world (events ++ [event])
          = c.chronicle world events ++ (c.run world events).facts world event := by
        rw [chronicle_append, chronicle, chronicle, List.append_nil]
      refine ⟨hwatched _ fun e he => ?_, ?_⟩
      · rw [hchronicle, History.called_append] at he
        have hbefore : e ∉ (c.chronicle world events).called := fun hmem => he (List.mem_append_left _ hmem)
        rw [htranscript, Transcript.about_append, hw.unheard e hbefore, entries_unheard hw.visited event hbefore]
        rfl
      · rw [htranscript, run_append]
        rw [hchronicle] at honce
        exact apply_attested ha hw event honce

end Crawl

/-! ## Records of good nodes -/

/-- A record says where a peer is, what the first version message on the connection with it said, and whether
    the ping that was sent on it was answered. -/
structure NodeRecord.Vouched (world : World) (e : Endpoint) (p : Proceedings) (record : NodeRecord) :
    Prop where
  endpoint : record.endpoint = toString e
  introduced : ∃ v, p.introduction? = some v ∧ record.services = some v.services.bits ∧
    record.protocolVersion = some v.version ∧ record.userAgent = some v.userAgent
  /-- All that was received was read from that connection. -/
  reached : ∃ link, world.Reached e p.received link
  /-- And so were the pongs that were acted on. -/
  pongs : p.pongs.Sublist (p.received.filterMap Proceedings.pong?)
  pinged_once : p.pings.length ≤ 1
  /-- A ping is answered by a pong with its nonce. -/
  pingCount : record.pingCount = if p.pings.any (· ∈ p.pongs) then 1 else 0

/-- Every endpoint on a list has a node, and a record that belongs to it. -/
theorem Registry.forall₂_record {r : Registry} {R : Endpoint → NodeRecord → Prop} {es : List Endpoint}
    (h : ∀ e ∈ es, ∃ n, r.node? e = some n ∧ R e n.record) :
    List.Forall₂ R es (es.filterMap fun e => (r.node? e).map Node.record) := by
  induction es with
  | nil => exact .nil
  | cons e rest ih =>
      obtain ⟨n, hn, hR⟩ := h e List.mem_cons_self
      have hrest := ih fun e he => h e (List.mem_cons_of_mem _ he)
      simp only [List.filterMap_cons, hn, Option.map_some]
      exact .cons hR hrest

/-- A node with details that are attested has a record that is vouched for. -/
theorem Node.vouched {world : World} {e : Endpoint} {p : Proceedings} {n : Node} {peer : Peer}
    (keyed : n.endpoint = e) (hpeer : n.peer = some peer) (ha : n.details.Attested e p)
    (hgrounded : world.Grounded e p) : n.record.Vouched world e p := by
  obtain ⟨v, hv, rfl⟩ := ha.peer peer hpeer
  have hreached : ∃ link, world.Reached e p.received link := by
    rcases hgrounded.reached with rfl | hreached
    · cases hv
    · exact hreached
  have hcount : p.pings.length ≤ 1 ∧ n.details.pingCount = if p.pings.any (· ∈ p.pongs) then 1 else 0 := by
    cases ha.keepalive with
    | unpinged quiet count => exact ⟨by simp [quiet.1], by simpa [quiet.1] using count⟩
    | out nonce pinged unanswered noted nonzero count =>
        exact ⟨by simp [pinged], by simpa [pinged, unanswered] using count⟩
    | answered nonce pinged answered noted count =>
        exact ⟨by simp [pinged], by simpa [pinged, answered] using count⟩
  refine ⟨by rw [← keyed]; rfl, ⟨v, hv, ?_, ?_, ?_⟩, hreached, hgrounded.pongs, hcount.1, hcount.2⟩
  all_goals
    simp only [record, hpeer]
    rfl

namespace Crawl

variable {world : World} {seeds : List Endpoint} {s : Shared} {c : Crawl}

/-- Where the records of good nodes come from in a crawl after some events. -/
structure Provenance (world : World) (c : Crawl) (events : List Event) : Prop where
  /-- There is one record for each good node, in order, and each is vouched for by the connection with it. -/
  records : List.Forall₂ (fun e record => record.Vouched world e ((c.transcript world events).about e))
    (c.run world events).shared.registry.good.toList (c.run world events).shared.registry.goodRecords
  good : ∀ e, e ∈ (c.run world events).shared.registry.good.toList ↔
    (c.run world events).shared.registry.state? e = some .good
  good_once : (c.run world events).shared.registry.good.toList.Nodup
  /-- There is only one connection that it can be. -/
  dialed_once : ∀ e ∈ (c.run world events).shared.registry.good.toList,
    (c.run world events).dials.attempts.toList.count e = 1
  /-- A good node stays good, and nothing that is received from now on comes before its introduction. -/
  lasting : ∀ more, ∀ e ∈ (c.run world events).shared.registry.good.toList,
    e ∈ (c.run world (events ++ more)).shared.registry.good.toList ∧
      ((c.transcript world (events ++ more)).about e).introduction?
        = ((c.transcript world events).about e).introduction?

/-- **The details of a good node are what its own connection said first.** Whatever the order of steps, however
    many workers there are and whatever peers send: the record of a good node is about the peer behind its
    endpoint as the first version message from there described it, and its ping count says whether that peer has
    answered the one ping that it got. -/
theorem details_provenance (fresh : s.Fresh) (started : start world seeds s = .ok c) (events : List Event) :
    Provenance world c events := by
  obtain ⟨hw, ha⟩ := run_attested fresh started events
  have hvouched : ∀ e, (c.run world events).shared.registry.state? e = some .good → ∃ n,
      (c.run world events).shared.registry.node? e = some n ∧
        n.record.Vouched world e ((c.transcript world events).about e) := by
    intro e hs
    obtain ⟨n, hn, hgood⟩ := Registry.state?_eq_some.mp hs
    obtain ⟨peer, hpeer⟩ := Option.isSome_iff_exists.mp ((hw.consistent.peer_iff e n hn).mpr hgood)
    have hdetails := ha.details e
    rw [show (c.run world events).outline.registry = (c.run world events).shared.registry from rfl,
      Registry.details_of_node? hn] at hdetails
    exact ⟨n, hn, Node.vouched (hw.consistent.keyed e n hn) hpeer hdetails (ha.grounded e)⟩
  have hgood := hw.consistent.mem_good
  refine ⟨?_, hgood, hw.consistent.good_nodup, fun e hmem => ?_, fun more e hmem => ?_⟩
  · exact Registry.forall₂_record fun e hmem => hvouched e ((hgood e).mp hmem)
  · have hattempts : (c.run world events).dials.attempts.toList = (c.chronicle world events).called :=
      (start_outline fresh started).reach_attempts (reach_run world c events)
    -- It was heard from, so it was dialed.
    obtain ⟨n, -, hrecord⟩ := hvouched e ((hgood e).mp hmem)
    obtain ⟨v, hv, -⟩ := hrecord.introduced
    have hcalled : e ∈ (c.chronicle world events).called := by
      by_contra hnever
      rw [hw.unheard e hnever] at hv
      cases hv
    rw [hattempts]
    exact List.count_eq_one_of_mem hw.once hcalled
  · obtain ⟨calls, hcalls⟩ := (reach_run world (c.run world events) more).registry
    have hgrew := hw.consistent.performAll_grew calls
    rw [show (c.run world events).shared.registry.performAll calls
      = ((c.run world events).run world more).shared.registry from hcalls.symm] at hgrew
    obtain ⟨n, -, hrecord⟩ := hvouched e ((hgood e).mp hmem)
    obtain ⟨v, hv, -⟩ := hrecord.introduced
    rw [run_append, transcript_append, Transcript.about_append, hv]
    exact ⟨hgrew.good.subset hmem, Proceedings.introduction?_append hv _⟩

/-- The first seed introduces itself twice and announces the second, which sends a pong that nobody waits for. -/
def rumours : List (Endpoint × List Message) :=
  [(firstSeed, [.version { greeting with userAgent := "/elsewhere:1/" },
      .addr [(0, .ofSocket secondSeed.socket .none)]]),
    (secondSeed, [.pong 7])]

theorem rumours_plain : ∀ peer ∈ rumours, ∀ m ∈ peer.2, m.Plain := by
  intro peer hpeer m hm
  rcases List.mem_pair.mp hpeer with rfl | rfl
  · rcases List.mem_pair.mp hm with rfl | rfl
    · exact ⟨trivial, by decide⟩
    · exact ⟨trivial, by decide⟩
  · obtain rfl := List.mem_singleton.mp hm
    exact ⟨trivial, by decide⟩

/-- The second seed can be heard of from the first, and nobody else can be heard of. -/
theorem rumours_reachable (e : Endpoint) :
    (Network.ofPeers rumours).Reachable [firstSeed] e ↔ e ∈ [firstSeed, secondSeed] := by
  have hfirst : announcements ((Network.ofPeers rumours).said firstSeed) = [secondSeed] := by decide
  have hsecond : announcements ((Network.ofPeers rumours).said secondSeed) = [] := by decide
  constructor
  · intro h
    induction h with
    | seed e he => exact List.mem_append_left [secondSeed] he
    | announced teller e _ he ih =>
        rcases List.mem_pair.mp ih with rfl | rfl
        · rw [hfirst] at he
          exact List.mem_cons_of_mem _ he
        · rw [hsecond] at he
          cases he
  · intro he
    rcases List.mem_pair.mp he with rfl | rfl
    · exact .seed firstSeed (List.mem_singleton_self _)
    · exact .announced firstSeed secondSeed (.seed firstSeed (List.mem_singleton_self _))
        (hfirst ▸ List.mem_singleton_self _)

/-- A crawl from the first of them finds that both are good. -/
theorem rumours_explored : ∃ c events,
    start (World.talking deafWorld.config rumours) [firstSeed] { host := default } = .ok c ∧
      ∀ e ∈ [firstSeed, secondSeed], (c.run (World.talking deafWorld.config rumours)
        events).shared.registry.state? e = some .good := by
  have hsmall : poolSize deafWorld.config.connectionLimit ≤ maxQueue := by decide
  have untouched : Shared.Untouched { host := default } := ⟨⟨rfl, rfl⟩, rfl, rfl, rfl⟩
  have shows := World.talking_shows deafWorld.config rumours_plain
  have prompt := World.talking_prompt deafWorld.config rumours_plain
  obtain ⟨s, started, -⟩ :=
    @start_ok (World.talking deafWorld.config rumours) [firstSeed] { host := default } hsmall
  obtain ⟨events, hbusy, hquiescent⟩ :=
    comes_to_rest shows prompt (start_underway untouched started) fun e => (rumours_reachable e).mp
  obtain ⟨history, hend⟩ :=
    (Completes.of_prompt shows prompt untouched started hbusy.ne_cancel hquiescent).ended
  refine ⟨_, events, started, fun e he => (hend.explored.good e).mpr ⟨(rumours_reachable e).mpr he, ?_⟩⟩
  rcases List.mem_pair.mp he with rfl | rfl <;> decide

/-- It holds for that crawl. -/
theorem rumours_provenance : ∃ c events,
    start (World.talking deafWorld.config rumours) [firstSeed] { host := default } = .ok c ∧
      (∀ e ∈ [firstSeed, secondSeed], (c.run (World.talking deafWorld.config rumours)
        events).shared.registry.state? e = some .good) ∧
      Provenance (World.talking deafWorld.config rumours) c events := by
  obtain ⟨c, events, started, hgood⟩ := rumours_explored
  exact ⟨c, events, started, hgood, details_provenance ⟨rfl, rfl⟩ started events⟩

end Crawl

end BitcoinCrawl
