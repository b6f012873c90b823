import BitcoinCrawl.Proofs.Crawl.Course
import BitcoinCrawl.Proofs.Crawl.Frame
import BitcoinCrawl.Proofs.Crawl.Provenance
import BitcoinCrawl.Proofs.Crawl.Stopping
import BitcoinCrawl.Proofs.Registry.Arrivals
import BitcoinCrawl.Proofs.Wire.DialableHosts

set_option autoImplicit false

/-! # What peers add to a registry

A session hears a message in one step and acts on it in the next. One lemma for each phase says that a worker has
to act on just what it hears, and that it makes known just what it acts on (`Outline.Turned`). It follows for whole
crawls that an endpoint becomes known only if it was a seed or a session heard of it, and that no session forgets
what it has heard. -/

namespace BitcoinCrawl

/-! ## Sessions -/

namespace Session

/-- The message that a session hears in its next step, if any. -/
def hears (s : Shared) (session : Session) : List Message := messages (session.occurrences s).received

/-- The notice that a session acts on in its next step, if any. -/
def agenda (session : Session) : List Notice :=
  match session.phase with
  | .handling notice => [notice]
  | .awaiting _ | .signalling => []

theorem received_map_received (rs : List Received) : Proceedings.received (rs.map .received) = rs := by
  simp [Proceedings.received, List.filterMap_map]

theorem received_map_ponged (nonces : List UInt64) : Proceedings.received (nonces.map .ponged) = [] := by
  simp [Proceedings.received, List.filterMap_map]

/-- A result is acted on if it is a message. -/
theorem judge_agenda {e : Endpoint} {r : Received} {s : Shared} {notice : Notice}
    (hjudge : (s.judge e r).2 = .handle notice) : [notice] = (messages [r]).map .ofMessage := by
  cases r with
  | ok m =>
      cases hjudge
      rfl
  | error fault =>
      simp only [Shared.judge] at hjudge
      split_ifs at hjudge

theorem judge_other {e : Endpoint} {r : Received} {s : Shared}
    (hjudge : ∀ notice, (s.judge e r).2 ≠ .handle notice) : messages [r] = [] := by
  cases r with
  | ok m => exact absurd rfl (hjudge (.ofMessage m))
  | error fault => rfl

/-- A session that waits has to act on what it hears then, unless it ends. -/
theorem stepAwaiting_agenda (idle : Option Millis) (session : Session) (deadline : Option Nat) (s : Shared)
    (hphase : session.phase = .awaiting deadline) :
    (session.stepAwaiting idle deadline s).1.agenda = (session.hears s).map .ofMessage ∧
      ∀ reason, (session.stepAwaiting idle deadline s).2.2 = .finished reason →
        (session.stepAwaiting idle deadline s).1.agenda = [] := by
  have hidle : session.agenda = [] := by rw [agenda, hphase]
  simp only [hears, occurrences, hphase, stepAwaiting]
  by_cases hstop : s.cancelled = true
  · simp only [if_pos hstop]
    exact ⟨hidle, fun _ _ => hidle⟩
  · simp only [if_neg hstop]
    rw [received_map_received, Line.delivers]
    cases hreceive : session.line.receive s.now with
    | mk line poll =>
        cases poll with
        | waiting wake =>
            dsimp only
            split_ifs <;> exact ⟨rfl, fun _ _ => rfl⟩
        | ready r =>
            have hheard := @judge_agenda session.endpoint r s
            have hother := @judge_other session.endpoint r s
            dsimp only
            cases hverdict : s.judge session.endpoint r with
            | mk s' verdict =>
                rw [hverdict] at hheard hother
                cases verdict with
                | handle notice => exact ⟨hheard rfl, by rintro _ ⟨⟩⟩
                | goOn =>
                    rw [hother (by rintro _ ⟨⟩)]
                    exact ⟨rfl, by rintro _ ⟨⟩⟩
                | finish reason =>
                    rw [hother (by rintro _ ⟨⟩)]
                    exact ⟨rfl, fun _ _ => rfl⟩

/-- A session has to act on what it has just heard, unless it ends. -/
theorem step_agenda (idle : Option Millis) (session : Session) (s : Shared) :
    (session.step idle s).1.agenda = (session.hears s).map .ofMessage ∧
      ∀ reason, (session.step idle s).2.2 = .finished reason → (session.step idle s).1.agenda = [] := by
  cases hphase : session.phase with
  | awaiting deadline =>
      have hawaiting := stepAwaiting_agenda idle session deadline s hphase
      simp only [step, hphase]
      exact hawaiting
  | handling notice =>
      simp only [hears, occurrences, hphase, received_map_ponged, step]
      cases s.handle session.endpoint notice with
      | mk s' due => cases due <;> exact ⟨rfl, by rintro _ ⟨⟩⟩
  | signalling =>
      simp only [hears, occurrences, hphase, received_map_ponged, step]
      exact ⟨rfl, by rintro _ ⟨⟩⟩

end Session

/-- What is known behind a notice is what was known, and what it announces. -/
theorem Shared.handle_unknown (e : Endpoint) (notice : Notice) {s : Shared} (hc : s.registry.Consistent)
    (e' : Endpoint) :
    (s.handle e notice).1.registry.node? e' = none ↔ s.registry.node? e' = none ∧ e' ∉ notice.announced := by
  cases notice with
  | addr es | addrV2 es => exact hc.node?_perform_eq_none (.add es) e'
  | pong nonce =>
      simp only [handle, handlePong_registry]
      exact hc.node?_perform_eq_none (.recordPong e nonce) e'
  | _ => simp [handle, Notice.announced, report]

/-- A session makes known what it acts on. -/
theorem Session.step_unknown (idle : Option Millis) (session : Session) {s : Shared} (hc : s.registry.Consistent)
    (e : Endpoint) :
    (session.step idle s).2.1.registry.node? e = none ↔
      s.registry.node? e = none ∧ e ∉ session.agenda.flatMap Notice.announced := by
  cases hphase : session.phase with
  | awaiting deadline =>
      simp only [step, agenda, hphase]
      rw [(stepAwaiting_kept idle session deadline s).2]
      simp
  | signalling => simp [step, agenda, hphase, Shared.signal]
  | handling notice =>
      have hhandle := Shared.handle_unknown session.endpoint notice hc e
      have hstep : (session.step idle s).2.1 = (s.handle session.endpoint notice).1 := by
        simp only [step, hphase]
        cases s.handle session.endpoint notice with
        | mk s' due => cases due <;> rfl
      rw [hstep, hhandle]
      simp [agenda, hphase]

/-! ## Workers -/

namespace WorkerPhase

/-- What a worker hears in its next step, with the endpoint of its peer. -/
def hears (s : Shared) : WorkerPhase → List (Endpoint × Message)
  | serving session => (session.hears s).map (session.endpoint, ·)
  | _ => []

/-- What a worker acts on in its next step. -/
def agenda : WorkerPhase → List Notice
  | serving session => session.agenda
  | _ => []

end WorkerPhase

namespace Outline

variable {o o' : Outline} {i : Nat} {old new : WorkerPhase}

/-- What a step of the worker at a place makes of an outline: the worker has to act on what it has heard, and has
    made known what it acted on. -/
structure Turned (o : Outline) (i : Nat) (old : WorkerPhase) (heard : List (Endpoint × Message)) (o' : Outline) :
    Prop where
  phases : ∃ new : WorkerPhase, o'.phases = o.phases.set i new ∧
    new.agenda = heard.map fun said => .ofMessage said.2
  unknown : ∀ e, o'.registry.node? e = none ↔
    o.registry.node? e = none ∧ e ∉ old.agenda.flatMap Notice.announced

theorem Turned.stay (hi : o.phases[i]? = some old) (hold : old.agenda = []) : Turned o i old [] o where
  phases := by
    obtain ⟨hlt, rfl⟩ := List.getElem?_eq_some_iff.mp hi
    exact ⟨_, (List.set_getElem_self hlt).symm, hold⟩
  unknown e := by simp [hold]

/-- A worker goes on, or goes away, without a session before or behind it that has something to act on. -/
theorem Turned.place (same : o'.phases = o.phases) (registry : o'.registry = o.registry) (hold : old.agenda = [])
    (hnew : new.agenda = []) : Turned o i old [] (o'.place i new) where
  phases := ⟨new, by rw [place_phases, same], hnew⟩
  unknown e := by simp [hold, registry]

/-- It may also make a call to the registry that announces nothing. -/
theorem Turned.perform (hc : o.registry.Consistent) (call : Registry.Call) (quiet : call.announced = [])
    (same : o'.phases = o.phases) (registry : o'.registry = o.registry.perform call) (hold : old.agenda = [])
    (hnew : new.agenda = []) : Turned o i old [] (o'.place i new) where
  phases := ⟨new, by rw [place_phases, same], hnew⟩
  unknown e := by
    rw [place_registry, registry, hc.node?_perform_eq_none, quiet, hold]
    rfl

end Outline

namespace Crawl

variable {world : World} {c : Crawl} {worker : Worker} {i : Nat} {e : Endpoint} {old : WorkerPhase}

theorem stopWorker_turned (hold : old.agenda = []) : c.outline.Turned i old [] (c.stopWorker worker i).1.outline := by
  have hplace : c.outline.Turned i old []
      ((c.report (.debug s!"Worker {worker.id} exited")).place worker .exited i).outline := by
    rw [outline_place]
    exact .place rfl rfl hold rfl
  unfold stopWorker
  dsimp only
  split_ifs
  · exact ⟨hplace.phases, hplace.unknown⟩
  · exact hplace

theorem stepIdle_turned (hi : c.outline.phases[i]? = some .idle) :
    c.outline.Turned i .idle [] (c.stepIdle worker i).1.outline := by
  unfold stepIdle
  split_ifs
  · exact stopWorker_turned rfl
  · split
    · rw [outline_proceed]
      exact .place rfl rfl rfl rfl
    · exact stopWorker_turned rfl
    · exact .stay hi rfl

theorem stepClaimed_turned (hc : c.outline.registry.Consistent) :
    c.outline.Turned i (.claimed e) [] (c.stepClaimed worker e i).1.outline := by
  unfold stepClaimed
  split
  next registry hmark =>
    rw [outline_proceed]
    refine .perform hc (.markConnecting e) rfl rfl ?_ rfl rfl
    simp [outline, Registry.perform, Registry.orKept, hmark]
  next =>
    rw [outline_proceed]
    exact .place rfl rfl rfl rfl

theorem giveUp_turned {c' : Crawl} {dial : Dial} (reason : String) (hold : old.agenda = [])
    (same : c'.outline = c.outline) : c.outline.Turned i old [] (c'.giveUp worker e dial reason i).1.outline := by
  rw [giveUp_outline, same]
  exact .place rfl rfl hold rfl

theorem stepDialing_turned {dial : Dial} {deadline : Nat} :
    c.outline.Turned i (.dialing e dial deadline) [] (c.stepDialing world worker e dial deadline i).1.outline := by
  unfold stepDialing
  split_ifs
  · rw [outline_proceed]
    exact .place rfl rfl rfl rfl
  · have hregistry := Dial.step_registry world e dial c.shared
    have hground := Dial.step_ground world e dial c.shared
    cases hstep : dial.step world e c.shared with
    | mk dial' rest =>
        obtain ⟨s, answer⟩ := rest
        rw [hstep] at hregistry hground
        have hsame : ({ c with shared := s } : Crawl).outline = c.outline := by
          rw [outline_shared hground, hregistry]
          rfl
        dsimp only
        split
        · rw [outline_proceed]
          exact .place rfl hregistry rfl rfl
        · exact giveUp_turned _ rfl hsame
        · rw [outline_proceed, hsame]
          exact .place rfl rfl rfl rfl
        · split_ifs
          · exact giveUp_turned _ rfl hsame
          · rw [outline_await, outline_place, hsame]
            exact .place rfl rfl rfl rfl

theorem stepReporting_turned {outcome : Outcome} {link : Option Link} :
    c.outline.Turned i (.reporting e outcome link) [] (c.stepReporting worker e outcome link i).1.outline := by
  unfold stepReporting
  split_ifs <;> cases link <;> (rw [outline_proceed]; exact .place rfl rfl rfl rfl)

theorem stepNoting_turned {link : Link} (hc : c.outline.registry.Consistent) :
    c.outline.Turned i (.noting e link) [] (c.stepNoting worker e link i).1.outline := by
  unfold stepNoting
  rw [outline_proceed]
  refine .perform hc (.setPingNonce e (c.shared.host.nonce c.shared.noncesDrawn)) rfl rfl ?_ rfl rfl
  simp only [outline, Registry.perform, Shared.drawNonce]
  cases c.shared.registry.setPingNonce e (c.shared.host.nonce c.shared.noncesDrawn) <;> rfl

theorem stepPinging_turned {link : Link} {nonce : UInt64} :
    c.outline.Turned i (.pinging e link nonce) [] (c.stepPinging world worker e link nonce i).1.outline := by
  unfold stepPinging
  split
  · rw [outline_proceed]
    exact .place rfl rfl rfl rfl
  · dsimp only
    rw [outline_proceed]
    exact .place rfl rfl rfl rfl
  · rw [outline_await, outline_place]
    exact .place rfl rfl rfl rfl

theorem stepServing_turned {session : Session} (hc : c.outline.registry.Consistent) :
    c.outline.Turned i (.serving session) ((session.hears c.shared).map (session.endpoint, ·))
      (c.stepServing world worker session i).1.outline := by
  obtain ⟨hagenda, hends⟩ := session.step_agenda world.config.idleTimeout c.shared
  have hunknown := session.step_unknown world.config.idleTimeout hc
  unfold stepServing
  cases hstep : session.step world.config.idleTimeout c.shared with
  | mk session' rest =>
      obtain ⟨s, answer⟩ := rest
      rw [hstep] at hagenda hends hunknown
      have hheard : session'.agenda =
          ((session.hears c.shared).map (session.endpoint, ·)).map fun said => .ofMessage said.2 := by
        rw [List.map_map]
        exact hagenda
      cases answer with
      | finished reason =>
          dsimp only
          rw [outline_proceed]
          exact ⟨⟨.leaving, rfl, (hends reason rfl).symm.trans hheard⟩, hunknown⟩
      | moved =>
          rw [outline_proceed]
          exact ⟨⟨.serving session', rfl, hheard⟩, hunknown⟩
      | waiting wake =>
          rw [outline_await, outline_place]
          exact ⟨⟨.serving session', rfl, hheard⟩, hunknown⟩

/-- A worker acts on what it has heard, and hears what it acts on next. -/
theorem stepWorker_turned (world : World) (hc : c.shared.registry.Consistent) (hi : c.workers[i]? = some worker) :
    c.outline.Turned i worker.phase (worker.phase.hears c.shared) (c.stepWorker world i).1.outline := by
  have h := phases_of_workers hi
  simp only [stepWorker, hi]
  cases hphase : worker.phase <;> rw [hphase] at h
  case starting | leaving =>
    exact outline_proceed .. ▸ .place rfl rfl rfl rfl
  case idle => exact stepIdle_turned h
  case claimed => exact stepClaimed_turned hc
  case marked =>
    exact outline_proceed .. ▸ .place rfl rfl rfl rfl
  case dialing => exact stepDialing_turned
  case reporting => exact stepReporting_turned
  case noting => exact stepNoting_turned hc
  case pinging => exact stepPinging_turned
  case serving => exact stepServing_turned hc
  case exited => exact .stay h rfl

/-! ## Whole crawls -/

/-- Only steps of workers have a part in what is known, and in what workers have to act on. -/
theorem apply_unmoved (world : World) (hc : c.shared.registry.Consistent) {event : Event}
    (h : ∀ i, event = .act (.worker i) → c.workers[i]? = none) :
    (c.apply world event).outline.phases = c.outline.phases ∧
      ∀ e, (c.apply world event).shared.registry.node? e = none ↔ c.shared.registry.node? e = none := by
  have hcall : ∀ (call : Registry.Call) (r : Registry), call.announced = [] →
      r = c.shared.registry.perform call → ∀ e, r.node? e = none ↔ c.shared.registry.node? e = none := by
    rintro call _ hquiet rfl e
    rw [hc.node?_perform_eq_none, hquiet]
    exact and_iff_left List.not_mem_nil
  have hsame : ∀ {c' : Crawl}, c'.outline = c.outline → c'.outline.phases = c.outline.phases ∧
      ∀ e, c'.shared.registry.node? e = none ↔ c.shared.registry.node? e = none := by
    intro c' hsame
    refine ⟨by rw [hsame], fun e => ?_⟩
    rw [show c'.shared.registry = c.shared.registry from congrArg Outline.registry hsame]
  cases event with
  | cancel | pass => exact ⟨rfl, fun _ => Iff.rfl⟩
  | act actor =>
      cases actor with
      | worker i =>
          refine hsame (congrArg outline ?_)
          simp only [apply, step, stepWorker, h i rfl]
      | publisher => exact hsame (c.stepPublisher_outline world)
      | saver => exact hsame (c.stepSaver_outline world)
      | consumer => exact hsame c.stepConsumer_outline
      | feeder =>
          have hfed := c.fed_stepFeeder
          refine ⟨congrArg (fun workers => workers.toList.map Worker.phase) hfed.workers, fun e => ?_⟩
          rcases hfed.registry with hkept | htaken
          · simp only [apply, step, hkept]
          · exact hcall .takeNext _ rfl htaken e
      | aggregator =>
          refine ⟨congrArg (fun workers => workers.toList.map Worker.phase) c.stepAggregator_workers, fun e => ?_⟩
          simp only [apply, step, stepAggregator]
          split
          · exact Iff.rfl
          · split
            next outcome _ _ =>
              have hquiet : outcome.call.announced = [] := by cases outcome <;> rfl
              exact hcall outcome.call _ hquiet (settle_registry outcome c.shared) e
            next => split_ifs <;> exact Iff.rfl
          · exact Iff.rfl

theorem consistent_run (world : World) (hc : c.shared.registry.Consistent) (events : List Event) :
    (c.run world events).shared.registry.Consistent := by
  obtain ⟨calls, hcalls⟩ := (reach_run world c events).registry
  rw [show (c.run world events).shared.registry = _ from hcalls]
  exact hc.performAll calls

/-- What is known once is known for ever. -/
theorem known_run (world : World) (hc : c.shared.registry.Consistent)
    (he : (c.shared.registry.node? e).isSome = true) (events : List Event) :
    ((c.run world events).shared.registry.node? e).isSome = true := by
  obtain ⟨n, hn⟩ := Option.isSome_iff_exists.mp he
  obtain ⟨calls, hcalls⟩ := (reach_run world c events).registry
  obtain ⟨n', hn', -⟩ := hc.performAll_continued calls hn
  rw [show (c.run world events).shared.registry = _ from hcalls]
  exact Option.isSome_iff_exists.mpr ⟨n', hn'⟩

/-- What the worker at a place hears in its next step, with the endpoint of its peer. -/
def hears (c : Crawl) (i : Nat) : List (Endpoint × Message) :=
  match c.workers[i]? with
  | some worker => worker.phase.hears c.shared
  | none => []

/-- A worker heard a message while some events happened to a crawl. -/
def Heard (world : World) (c : Crawl) (events : List Event) (said : Endpoint × Message) : Prop :=
  ∃ before i after, events = before ++ .act (.worker i) :: after ∧ said ∈ (c.run world before).hears i

theorem Heard.append {events : List Event} {said : Endpoint × Message} (h : Heard world c events said)
    (more : List Event) : Heard world c (events ++ more) said := by
  obtain ⟨before, i, after, rfl, hsaid⟩ := h
  exact ⟨before, i, after ++ more, by simp, hsaid⟩

/-- What is known, and what is to be acted on, goes back to what workers have heard. -/
structure Traced (world : World) (c : Crawl) (events : List Event) : Prop where
  known : ∀ e, ((c.run world events).shared.registry.node? e).isSome = true →
    (c.shared.registry.node? e).isSome = true ∨ ∃ said, Heard world c events said ∧ e ∈ said.2.dialable
  agenda : ∀ phase ∈ (c.run world events).outline.phases, ∀ notice ∈ phase.agenda,
    ∃ said, Heard world c events said ∧ notice = .ofMessage said.2

theorem Traced.extend {events : List Event} {event : Event} (hg : Traced world c events)
    (known : ∀ e, (((c.run world events).apply world event).shared.registry.node? e).isSome = true →
      ((c.run world events).shared.registry.node? e).isSome = true ∨
        ∃ phase ∈ (c.run world events).outline.phases, ∃ notice ∈ phase.agenda, e ∈ notice.announced)
    (agenda : ∀ phase ∈ ((c.run world events).apply world event).outline.phases, ∀ notice ∈ phase.agenda,
      phase ∈ (c.run world events).outline.phases ∨
        ∃ said, Heard world c (events ++ [event]) said ∧ notice = .ofMessage said.2) :
    Traced world c (events ++ [event]) := by
  have hrun : c.run world (events ++ [event]) = (c.run world events).apply world event := run_append ..
  constructor
  · intro e he
    rcases known e (hrun ▸ he) with hbefore | ⟨phase, hphase, notice, hnotice, hannounced⟩
    · rcases hg.known e hbefore with hstart | ⟨said, hsaid, hmem⟩
      · exact .inl hstart
      · exact .inr ⟨said, hsaid.append [event], hmem⟩
    · obtain ⟨said, hsaid, rfl⟩ := hg.agenda phase hphase notice hnotice
      exact .inr ⟨said, hsaid.append [event], Notice.announced_ofMessage said.2 ▸ hannounced⟩
  · intro phase hphase notice hnotice
    rcases agenda phase (hrun ▸ hphase) notice hnotice with hold | hnew
    · obtain ⟨said, hsaid, hof⟩ := hg.agenda phase hold notice hnotice
      exact ⟨said, hsaid.append [event], hof⟩
    · exact hnew

theorem Traced.step {events : List Event} (hg : Traced world c events) (hc : c.shared.registry.Consistent)
    (event : Event) : Traced world c (events ++ [event]) := by
  have hconsistent := consistent_run world hc events
  by_cases hevent : ∃ i worker, event = .act (.worker i) ∧ (c.run world events).workers[i]? = some worker
  · obtain ⟨i, worker, rfl, hi⟩ := hevent
    have hturned := stepWorker_turned world hconsistent hi
    obtain ⟨new, hphases, hnew⟩ := hturned.phases
    refine hg.extend (fun e he => ?_) (fun phase hphase notice hnotice => ?_)
    · by_cases hknown : ((c.run world events).shared.registry.node? e).isSome = true
      · exact .inl hknown
      · -- The worker has just made it known.
        have hunknown := Option.not_isSome_iff_eq_none.mp hknown
        have hmade := (hturned.unknown e).not.mp (Option.isSome_iff_ne_none.mp he)
        have hacted := not_not.mp (not_and.mp hmade hunknown)
        obtain ⟨notice, hnotice, hannounced⟩ := List.mem_flatMap.mp hacted
        exact .inr ⟨_, List.mem_of_getElem? (phases_of_workers hi), notice, hnotice, hannounced⟩
    · rcases List.mem_or_eq_of_mem_set (hphases ▸ hphase) with hold | rfl
      · exact .inl hold
      · rw [hnew] at hnotice
        obtain ⟨said, hsaid, rfl⟩ := List.mem_map.mp hnotice
        refine .inr ⟨said, ⟨events, i, [], rfl, ?_⟩, rfl⟩
        rw [hears, hi]
        exact hsaid
  · have hnone : ∀ i, event = .act (.worker i) → (c.run world events).workers[i]? = none := by
      rintro i rfl
      exact Option.eq_none_iff_forall_ne_some.mpr fun worker hi => hevent ⟨i, worker, rfl, hi⟩
    obtain ⟨hphases, hunknown⟩ := apply_unmoved world hconsistent hnone
    refine hg.extend (fun e he => .inl ?_) (fun phase hphase _ _ => .inl (hphases ▸ hphase))
    rw [Option.isSome_iff_ne_none] at he ⊢
    exact (hunknown e).not.mp he

/-- What a worker has to act on is known once it has taken another step, whatever else happens. -/
theorem acts_run (world : World) (hc : c.shared.registry.Consistent) {phase : WorkerPhase}
    (hi : c.outline.phases[i]? = some phase) {notice : Notice} (hnotice : notice ∈ phase.agenda)
    (he : e ∈ notice.announced) {events : List Event} (hturn : .act (.worker i) ∈ events) :
    ((c.run world events).shared.registry.node? e).isSome = true := by
  induction events generalizing c with
  | nil => cases hturn
  | cons event rest ih =>
      have hnext := consistent_run world hc [event]
      by_cases hevent : event = .act (.worker i)
      · subst hevent
        obtain ⟨worker, hworker, rfl⟩ := workers_of_phases hi
        have hmade := ((stepWorker_turned world hc hworker).unknown e).not.mpr fun hunknown =>
          hunknown.2 (List.mem_flatMap.mpr ⟨notice, hnotice, he⟩)
        exact known_run world hnext (Option.isSome_iff_ne_none.mpr hmade) rest
      · refine ih hnext ?_ (List.mem_of_ne_of_mem (Ne.symm hevent) hturn)
        rw [← hi]
        exact phases_apply hevent

/-- What a worker hears in a step is known once it has taken another. -/
theorem hears_run (world : World) (hc : c.shared.registry.Consistent) {said : Endpoint × Message}
    (hsaid : said ∈ c.hears i) (he : e ∈ said.2.dialable) {after : List Event}
    (hturn : .act (.worker i) ∈ after) :
    ((c.run world (.act (.worker i) :: after)).shared.registry.node? e).isSome = true := by
  cases hi : c.workers[i]? with
  | none =>
      rw [hears, hi] at hsaid
      cases hsaid
  | some worker =>
      rw [hears, hi] at hsaid
      obtain ⟨new, hphases, hnew⟩ := (stepWorker_turned world hc hi).phases
      have hplaced : ((c.stepWorker world i).1.outline.phases)[i]? = some new := by
        rw [hphases]
        exact List.getElem?_set_self (List.getElem?_eq_some_iff.mp (phases_of_workers hi)).1
      have hnotice : .ofMessage said.2 ∈ new.agenda := hnew ▸ List.mem_map_of_mem hsaid
      rw [← Notice.announced_ofMessage] at he
      exact acts_run world (consistent_run world hc [.act (.worker i)]) hplaced hnotice he hturn

variable {seeds : List Endpoint} {s : Shared}

/-- What becomes known in a crawl from seeds. -/
structure Gathered (world : World) (seeds : List Endpoint) (s : Shared) (c : Crawl) : Prop where
  /-- An endpoint that is known was known before, is a seed, or belongs to a host that a peer has announced and
      that can be dialed. -/
  heard : ∀ events e, ((c.run world events).shared.registry.node? e).isSome = true →
    (s.registry.node? e).isSome = true ∨ e ∈ seeds ∨
      e.OfHost ∧ ∃ said, Heard world c events said ∧ e ∈ said.2.dialable
  /-- Of the hosts that a worker has heard of, all that can be dialed are known once it has taken another step,
      whatever else happens, be it a stop. -/
  kept : ∀ before i after, .act (.worker i) ∈ after → ∀ said ∈ (c.run world before).hears i,
    ∀ e ∈ said.2.dialable,
      ((c.run world (before ++ .act (.worker i) :: after)).shared.registry.node? e).isSome = true

theorem start_gathered (hc : s.registry.Consistent) (started : start world seeds s = .ok c) :
    Gathered world seeds s c := by
  obtain ⟨hregistry, hphases⟩ : c.shared.registry = s.registry.perform (.add seeds) ∧
      ∀ phase ∈ c.outline.phases, phase = .starting := by
    simp only [start] at started
    split_ifs at started
    cases started
    exact ⟨discover_registry seeds s, by simp [outline]⟩
  have hconsistent : c.shared.registry.Consistent := hregistry ▸ hc.perform (.add seeds)
  have htraced : ∀ events, Traced world c events := by
    intro events
    induction events using List.reverseRecOn with
    | nil =>
        refine ⟨fun _ => .inl, fun phase hphase notice hnotice => ?_⟩
        rw [hphases phase hphase] at hnotice
        cases hnotice
    | append_singleton events event ih => exact ih.step hconsistent event
  constructor
  case heard =>
    intro events e he
    rcases (htraced events).known e he with hstart | ⟨said, hsaid, hmem⟩
    · rw [hregistry, Option.isSome_iff_ne_none, ne_eq, hc.node?_perform_eq_none, not_and_or, not_not] at hstart
      rcases hstart with hknown | hseed
      · exact .inl (Option.isSome_iff_ne_none.mpr hknown)
      · exact .inr (.inl hseed)
    · exact .inr (.inr ⟨Message.ofHost_of_mem_dialable hmem, said, hsaid, hmem⟩)
  case kept =>
    intro before i after hturn said hsaid e he
    rw [run_append]
    exact hears_run world (consistent_run world hconsistent before) hsaid he hturn

/-- **Of the hosts that peers announce, a crawl learns exactly those that can be dialed.** Whatever a message of
    addresses in either format holds, and however long it is:

    * its notice lists the endpoints of the entries whose host can be dialed, in the order of the entries and as
      often as they occur;
    * an entry has an IP address in the older format unless it wraps an onion name, and in the newer one if it
      belongs to one of the two IP networks;
    * a host can be dialed unless its port is zero or its address, once collapsed, is unspecified;
    * in a crawl nothing else becomes known, and nothing of it is lost (`Gathered`). -/
theorem dialable_gathered (hc : s.registry.Consistent) (started : start world seeds s = .ok c) :
    (∀ entries, Notice.ofMessage (.addr entries) = .addr (Message.addr entries).dialable) ∧
      (∀ entries, Notice.ofMessage (.addrV2 entries) = .addrV2 (Message.addrV2 entries).dialable) ∧
      (∀ address : NetAddress, address.ip? = none ↔ address.host.isOnionCat = true) ∧
      (∀ (host : HostAddress) (ip : IpAddress), host.ip? = some ip ↔ host = .ofIp ip) ∧
      (∀ ip port, Dialable ip port ↔ port ≠ 0 ∧ ip.collapse.isUnspecified = false) ∧
      Gathered world seeds s c :=
  ⟨Notice.ofMessage_addr, Notice.ofMessage_addrV2, fun _ => NetAddress.ip?_eq_none,
    fun _ _ => HostAddress.ip?_eq_some, dialable_iff, start_gathered hc started⟩

/-- It holds for the crawl from the first of two hosts, which hears of the second there. -/
theorem rumours_gathered : ∃ c events said,
    start (World.talking deafWorld.config rumours) [firstSeed] { host := default } = .ok c ∧
      Heard (World.talking deafWorld.config rumours) c events said ∧ secondSeed ∈ said.2.dialable ∧
      Gathered (World.talking deafWorld.config rumours) [firstSeed] { host := default } c := by
  obtain ⟨c, events, started, hgood⟩ := rumours_explored
  obtain ⟨-, -, -, -, -, hgathered⟩ := dialable_gathered Registry.consistent_empty started
  obtain ⟨n, hn, -⟩ := Registry.state?_eq_some.mp (hgood secondSeed (by decide))
  rcases hgathered.heard events secondSeed (Option.isSome_iff_exists.mpr ⟨n, hn⟩) with
    hknown | hseed | ⟨-, said, hsaid, hmem⟩
  · simp [Registry.node?] at hknown
  · exact absurd hseed (by decide)
  · exact ⟨c, events, said, started, hsaid, hmem, hgathered⟩

end Crawl

end BitcoinCrawl
