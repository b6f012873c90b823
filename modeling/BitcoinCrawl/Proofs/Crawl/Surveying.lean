import BitcoinCrawl.Proofs.Crawl.Survey

set_option autoImplicit false

/-! # Every step of a calm crawl is a step of its survey

One lemma for each task says which step of the survey its next step is; `apply_survey` puts them together. -/

namespace BitcoinCrawl.Crawl

/-- Nothing interferes with a crawl of a network in an event: it is not stopped, no endpoint that accepts is
    given up for the time it takes or for our own nonce, and no session is ended for its silence. -/
structure Calm (world : World) (net : Network) (c : Crawl) (event : Event) : Prop where
  unstopped : event ≠ .cancel
  timely : ∀ e t, .timedOut e t ∈ c.facts world event → net e = none
  distinct : ∀ e, .refused e .selfDialed ∈ c.facts world event → net e = none
  patient : ∀ i worker session, event = .act (.worker i) → c.workers[i]? = some worker →
    worker.phase = .serving session →
    (session.step world.config.idleTimeout c.shared).2.2 ≠ .finished .idle

/-- A crawl that explores a network and that nothing has interfered with. -/
structure Afoot (size : Nat) (net : Network) (h : History) (c : Crawl) : Prop where
  orderly : c.outline.Orderly size
  counted : c.outline.Counted h
  staffed : 0 < size
  running : c.survey.running = true
  feeding : c.feeder ≠ .exited
  agrees : ∀ phase ∈ c.survey.phases, phase.Agrees net

variable {world : World} {net : Network} {size : Nat} {h : History} {c : Crawl} {worker : Worker} {i : Nat}

theorem Afoot.uncancelled (hc : c.Afoot size net h) : ¬ c.shared.cancelled = true := by
  have hrunning := hc.running
  simp only [survey, Bool.and_eq_true, Bool.not_eq_true'] at hrunning
  rw [hrunning.1.1]
  exact Bool.false_ne_true

theorem Afoot.consistent (hc : c.Afoot size net h) : c.shared.registry.Consistent := hc.orderly.consistent

theorem Afoot.isOpen (hc : c.Afoot size net h) : c.queue.isOpen = true := by
  have hrunning := hc.running
  simp only [survey, Bool.and_eq_true] at hrunning
  exact hrunning.1.2

theorem Afoot.recording (hc : c.Afoot size net h) : c.aggregator ≠ .exited := by
  have hrunning := hc.running
  simp only [survey, Bool.and_eq_true, bne_iff_ne] at hrunning
  exact hrunning.2

theorem Afoot.agrees_at (hc : c.Afoot size net h) {phase : WorkerPhase}
    (hi : c.survey.phases[i]? = some phase) : phase.Agrees net :=
  hc.agrees phase (List.mem_of_getElem? hi)

/-- There is always a worker. -/
theorem Afoot.workersGone (hc : c.Afoot size net h) : c.workersGone = false := by
  have hsize : c.workers.size = size := by
    have hpool := hc.orderly.pool
    rwa [outline, List.length_map, Array.length_toList] at hpool
  have hlt : 0 < c.workers.size := hsize ▸ hc.staffed
  refine Array.all_eq_false.mpr ⟨0, hlt, fun hexited => ?_⟩
  have hagrees : c.workers[0].phase.Agrees net :=
    hc.agrees _ (List.mem_map_of_mem (Array.mem_toList_iff.mpr (Array.getElem_mem hlt)))
  cases hphase : c.workers[0].phase with
  | exited =>
      rw [hphase] at hagrees
      exact hagrees
  | _ => rw [hphase] at hexited; cases hexited

/-! ## Changes that the survey shows -/

theorem survey_shared {s : Shared} (hfinds : SameFinds c.shared s) :
    ({ c with shared := s } : Crawl).survey = c.survey := by
  simp [survey, hfinds.listed.known, hfinds.listed.queue, hfinds.arrivals, hfinds.heard, hfinds.cancelled]

@[simp] theorem survey_place (c : Crawl) (worker : Worker) (phase : WorkerPhase) (i : Nat) :
    (c.place worker phase i).survey = c.survey.place i phase := by
  simp [place, survey, Survey.place, Array.toList_setIfInBounds, List.map_set]

@[simp] theorem survey_proceed (c : Crawl) (worker : Worker) (phase : WorkerPhase) (i : Nat) :
    (c.proceed worker phase i).1.survey = c.survey.place i phase :=
  survey_place c worker phase i

@[simp] theorem survey_await (c : Crawl) (wake : Option Nat) : (c.await wake).1.survey = c.survey := by
  unfold await
  split_ifs <;> rfl

/-! ## The feeder -/

theorem stepFeeder_survey (hc : c.Afoot size net h) : Survey.Step net c.survey [] c.stepFeeder.1.survey := by
  unfold stepFeeder
  cases hf : c.feeder with
  | starting => exact .shift .reserving (congrArg Feeder.isBusy hf) rfl
  | reserving =>
      have hgo : ¬ (c.shared.cancelled || !c.queue.isOpen) = true := by simp [hc.uncancelled, hc.isOpen]
      dsimp only
      rw [if_neg hgo]
      split_ifs
      · exact .shift .searching (congrArg Feeder.isBusy hf) rfl
      · exact .rest
  | searching =>
      dsimp only
      rw [if_neg hc.uncancelled]
      simp only [Shared.takeNext]
      cases hqueue : c.shared.registry.discoveryQueue with
      | nil =>
          rw [Registry.takeNext_of_nil hqueue]
          exact .exhaust hf hqueue
      | cons e rest =>
          obtain ⟨htaken, hknown, hrest⟩ := hc.consistent.takeNext_listed hqueue
          simp only [htaken]
          convert @Survey.Step.take net c.survey e rest hf hqueue using 1
          simp [survey, Shared.reportAll, hknown, hrest]
  | arming => exact .arm hf
  | listening =>
      dsimp only
      rw [if_neg hc.uncancelled]
      split_ifs with hwoken
      · exact .wake hf hwoken
      · exact .rest
  | handing e => exact .shift .reserving (congrArg Feeder.isBusy hf) rfl
  | exited => exact absurd hf hc.feeding

/-! ## Workers -/

theorem stepIdle_survey (hc : c.Afoot size net h) (hi : c.survey.phases[i]? = some .idle) :
    Survey.Step net c.survey [] (c.stepIdle worker i).1.survey := by
  unfold stepIdle
  rw [if_neg hc.uncancelled]
  split
  next e items _ =>
    rw [survey_proceed]
    exact .turn i .idle (.claimed e) hi trivial ⟨rfl, rfl, rfl⟩
  next _ hexited => exact absurd hexited hc.feeding
  next => exact .rest

theorem stepClaimed_survey {e : Endpoint} (hi : c.survey.phases[i]? = some (.claimed e)) :
    Survey.Step net c.survey [] (c.stepClaimed worker e i).1.survey := by
  unfold stepClaimed
  cases hmark : c.shared.registry.markConnecting e with
  | ok registry =>
      have hlisted := c.shared.registry.perform_listed (.markConnecting e) rfl
      simp only [Registry.perform, hmark] at hlisted
      have hfinds : SameFinds c.shared { c.shared with registry } := ⟨hlisted, rfl, rfl, rfl⟩
      dsimp only
      rw [survey_proceed, survey_shared hfinds]
      exact .turn i (.claimed e) (.marked e) hi trivial ⟨rfl, rfl, rfl⟩
  | error fault =>
      dsimp only
      rw [survey_proceed]
      exact .turn i (.claimed e) .idle hi trivial ⟨rfl, rfl, rfl⟩

theorem stepMarked_survey (world : World) {e : Endpoint} (hi : c.survey.phases[i]? = some (.marked e)) :
    Survey.Step net c.survey [] (c.stepMarked world worker e i).1.survey := by
  unfold stepMarked
  rw [survey_proceed]
  exact .turn i (.marked e) _ hi trivial ⟨rfl, rfl, rfl⟩

theorem giveUp_survey (c : Crawl) (worker : Worker) (e : Endpoint) (dial : Dial) (reason : String) (i : Nat) :
    (c.giveUp worker e dial reason i).1.survey = c.survey.place i (.reporting e (.dead e) none) := by
  unfold giveUp
  rw [survey_proceed]
  rfl

theorem stepDialing_survey (hc : c.Afoot size net h) (shows : world.Shows net) {e : Endpoint} {dial : Dial}
    {deadline : Nat} (hi : c.survey.phases[i]? = some (.dialing e dial deadline))
    (timely : ∀ t, .timedOut e t ∈ dialFacts world c.shared e dial deadline → net e = none)
    (distinct : .refused e .selfDialed ∈ dialFacts world c.shared e dial deadline → net e = none) :
    Survey.Step net c.survey [] (c.stepDialing world worker e dial deadline i).1.survey := by
  have hkeeps : dial.Keeps (net e) := hc.agrees_at hi
  have hhonours := Dial.step_honours (shows e) hkeeps c.shared
  have hfinds := Dial.step_finds world e dial c.shared
  have hground := Dial.step_ground world e dial c.shared
  unfold dialFacts at timely distinct
  unfold stepDialing
  rw [if_neg hc.uncancelled] at timely distinct ⊢
  cases hstep : dial.step world e c.shared with
  | mk dial' rest =>
      obtain ⟨s, answer⟩ := rest
      rw [hstep] at hfinds hhonours hground timely distinct
      have hsame : ({ c with shared := s } : Crawl).survey = c.survey := survey_shared hfinds
      dsimp only at timely distinct ⊢
      cases hhonours with
      | moved _ _ keeps =>
          dsimp only
          rw [survey_proceed, hsame]
          exact .turn i _ _ hi keeps ⟨rfl, rfl, rfl⟩
      | waiting _ _ wake keeps =>
          dsimp only at timely distinct ⊢
          rw [hground.now]
          split_ifs with hlate
          · rw [giveUp_survey, hsame]
            rw [if_pos hlate] at timely
            exact .turn i _ (.reporting e (.dead e) none) hi (timely _ List.mem_cons_self) ⟨rfl, rfl, rfl⟩
          · rw [survey_await, survey_place, hsame]
            exact .turn i _ _ hi keeps ⟨rfl, rfl, rfl⟩
      | connected _ _ connected fair foretold =>
          dsimp only
          rw [survey_proceed]
          show Survey.Step net c.survey [] (({ c with shared := s } : Crawl).survey.place i _)
          rw [hsame]
          exact .turn i _ _ hi ⟨fair, foretold⟩ ⟨rfl, rfl, rfl⟩
      | failed _ _ fault why =>
          dsimp only
          rw [giveUp_survey, hsame]
          refine .turn i _ (.reporting e (.dead e) none) hi ?_ ⟨rfl, rfl, rfl⟩
          rcases why with hnone | rfl
          · exact hnone
          · exact distinct List.mem_cons_self

theorem stepReporting_survey (hc : c.Afoot size net h) {e : Endpoint} {outcome : Outcome} {link : Option Link}
    (hi : c.survey.phases[i]? = some (.reporting e outcome link)) :
    Survey.Step net c.survey [outcome] (c.stepReporting worker e outcome link i).1.survey := by
  have hagrees := hc.agrees_at hi
  have hfits : (WorkerPhase.reporting e outcome link).Fits := hc.orderly.fits _ (List.mem_of_getElem? hi)
  have hstate : c.shared.registry.state? e = some .connecting := hc.counted.held hi rfl
  have hknown : outcome.endpoint ∈ c.shared.registry.known.toList := by
    obtain ⟨n, hn, -⟩ := Registry.state?_eq_some.mp hstate
    rw [hfits.endpoint, hc.consistent.mem_known, hn]
    rfl
  have hopen : c.outcomes.isOpen = true := hc.orderly.listening
  unfold stepReporting
  rw [if_pos hopen]
  -- A good outcome comes with a link, and a dead one without.
  cases outcome with
  | good peer =>
      cases link with
      | none => exact hagrees.elim
      | some link =>
          obtain ⟨hfair, hsaid⟩ := hagrees
          obtain rfl : peer.endpoint = e := hfits.1
          dsimp only
          rw [survey_proceed]
          refine .report i _ (.noting peer.endpoint link) _ hi hfair ⟨rfl, rfl⟩ ?_ rfl rfl ?_ hknown
          · rw [Outcome.said, Network.said, hsaid]
            rfl
          · rw [Outcome.Right, hsaid]
            rfl
  | dead e' =>
      cases link with
      | some link => exact hagrees.elim
      | none =>
          obtain rfl : e' = e := hfits.1
          dsimp only
          rw [survey_proceed]
          exact .report i _ .leaving _ hi trivial ⟨rfl, rfl⟩ rfl rfl rfl hagrees hknown

theorem stepNoting_survey {e : Endpoint} {link : Link} (hc : c.Afoot size net h)
    (hi : c.survey.phases[i]? = some (.noting e link)) :
    Survey.Step net c.survey [] (c.stepNoting worker e link i).1.survey := by
  have hfair : link.Fair := hc.agrees_at hi
  have hlisted := c.shared.registry.perform_listed
    (.setPingNonce e (c.shared.host.nonce c.shared.noncesDrawn)) rfl
  unfold stepNoting
  rw [survey_proceed]
  simp only [Shared.drawNonce]
  simp only [Registry.perform] at hlisted
  have hturn := @Survey.Step.turn net c.survey i _
    (.pinging e link (c.shared.host.nonce c.shared.noncesDrawn)) hi hfair ⟨rfl, rfl, rfl⟩
  cases hset : c.shared.registry.setPingNonce e (c.shared.host.nonce c.shared.noncesDrawn) with
  | ok registry =>
      rw [hset] at hlisted
      have hfinds : SameFinds c.shared
          { c.shared with registry, noncesDrawn := c.shared.noncesDrawn + 1 } := ⟨hlisted, rfl, rfl, rfl⟩
      dsimp only
      rw [survey_shared hfinds]
      exact hturn
  | error fault => exact hturn

theorem stepPinging_survey (world : World) {e : Endpoint} {link : Link} {nonce : UInt64}
    (hc : c.Afoot size net h) (hi : c.survey.phases[i]? = some (.pinging e link nonce)) :
    Survey.Step net c.survey [] (c.stepPinging world worker e link nonce i).1.survey := by
  have hfair : link.Fair := hc.agrees_at hi
  obtain ⟨link', hsend, hfair', houtlook⟩ := hfair.send (.ping nonce)
  simp only [stepPinging, hsend]
  rw [survey_proceed]
  refine .turn i _ _ hi ⟨link', rfl, hfair'⟩ ⟨?_, rfl, rfl⟩
  exact congrArg delivered houtlook

theorem stepLeaving_survey (hi : c.survey.phases[i]? = some .leaving) :
    Survey.Step net c.survey [] (c.stepLeaving worker i).1.survey := by
  unfold stepLeaving
  rw [survey_proceed]
  exact .turn i .leaving .idle hi trivial ⟨rfl, rfl, rfl⟩

/-! ## Sessions -/

/-- A session that waits hears the next message, passes over a fault, or ends with the stream. -/
theorem stepServing_awaiting_survey (world : World) {e : Endpoint} {link : Link} {deadline : Option Nat}
    (hc : c.Afoot size net h) (hfair : link.Fair)
    (hi : c.survey.phases[i]? = some (.serving ⟨e, .link link, .awaiting deadline⟩))
    (patient : (Session.step world.config.idleTimeout ⟨e, .link link, .awaiting deadline⟩ c.shared).2.2
      ≠ .finished .idle) :
    Survey.Step net c.survey []
      (c.stepServing world worker ⟨e, .link link, .awaiting deadline⟩ i).1.survey := by
  have hfair' := (hfair.receive c.shared.now).1
  simp only [stepServing, Session.step, Session.stepAwaiting, if_neg hc.uncancelled, Line.receive] at patient ⊢
  cases hreceive : link.receive c.shared.now with
  | mk link' poll =>
      rw [hreceive] at hfair'
      cases poll with
      | waiting wake =>
          have hsame := Link.outlook_of_waiting hfair.part hreceive
          simp only [hreceive] at patient ⊢
          split_ifs at patient ⊢ with hlate
          · exact absurd rfl patient
          · rw [survey_await, survey_place]
            exact .turn i _ _ hi ⟨link', rfl, hfair'⟩ ⟨congrArg delivered hsame, rfl, rfl⟩
      | ready r =>
          have houtlook := Link.outlook_of_ready hfair.part hreceive
          cases r with
          | ok m =>
              have hnext : delivered link.outlook = m :: delivered link'.outlook := congrArg delivered houtlook
              simp only [Except.mapError, Shared.judge]
              rw [survey_proceed]
              exact .hear i _ _ m hi ⟨link', rfl, hfair'⟩ hnext rfl rfl rfl
          | error fault =>
              simp only [Except.mapError, Shared.judge]
              by_cases hrecoverable : (ConnectionFault.transport fault).isRecoverable = true
              · have hnot : ¬ Reader.isStop (.error fault) = true := by
                  cases fault <;> first | exact Bool.false_ne_true | cases hrecoverable
                have hskip : delivered link.outlook = delivered link'.outlook := by
                  rw [houtlook, if_neg hnot]
                  exact if_pos hrecoverable
                rw [if_pos hrecoverable]
                dsimp only
                rw [survey_proceed]
                exact .turn i _ (.serving (Session.await _ _ ⟨e, .link link', .awaiting deadline⟩)) hi
                  ⟨link', rfl, hfair'⟩ ⟨hskip.symm, rfl, rfl⟩
              · have hover : delivered link.outlook = [] := by
                  rw [houtlook]
                  exact if_neg hrecoverable
                rw [if_neg hrecoverable]
                split_ifs
                all_goals
                  dsimp only
                  rw [survey_proceed]
                  exact .turn i _ .leaving hi trivial ⟨hover.symm, rfl, rfl⟩

theorem stepServing_survey (world : World) {session : Session} (hc : c.Afoot size net h)
    (hi : c.survey.phases[i]? = some (.serving session))
    (patient : (session.step world.config.idleTimeout c.shared).2.2 ≠ .finished .idle) :
    Survey.Step net c.survey [] (c.stepServing world worker session i).1.survey := by
  obtain ⟨e, line, phase⟩ := session
  obtain ⟨link, hline, hfair⟩ : (WorkerPhase.serving ⟨e, line, phase⟩).Agrees net := hc.agrees_at hi
  obtain rfl : line = .link link := hline
  cases phase with
  | awaiting deadline => exact stepServing_awaiting_survey world hc hfair hi patient
  | handling notice =>
      obtain ⟨fresh, hgrown, hdue, harrivals, hmetrics, hcancelled⟩ :=
        c.shared.handle_finds e notice hc.consistent
      simp only [stepServing, Session.step]
      cases hhandle : c.shared.handle e notice with
      | mk s due =>
          rw [hhandle] at hgrown hdue harrivals hmetrics hcancelled
          dsimp only at hgrown harrivals hmetrics hcancelled
          have hsurvey : ({ c with shared := s } : Crawl).survey = { c.survey with
              known := c.survey.known ++ fresh, queue := c.survey.queue ++ fresh } := by
            simp [survey, hgrown.known, hgrown.queue hc.consistent, harrivals, hmetrics, hcancelled]
          have hcovered : ∀ e ∈ notice.announced, e ∈ c.survey.known ++ fresh := by
            intro e he
            have hmem := hgrown.covered e he
            rwa [hgrown.known] at hmem
          have hannounce := fun (new : WorkerPhase) hagrees hpending hafter htells =>
            @Survey.Step.announce net c.survey i _ new fresh hi hagrees hpending hafter rfl htells
              hgrown.announced hcovered
          cases due with
          | true =>
              dsimp only
              rw [survey_proceed]
              show Survey.Step net c.survey [] (({ c with shared := s } : Crawl).survey.place i _)
              rw [hsurvey]
              exact hannounce (.serving ⟨e, .link link, .signalling⟩) ⟨link, rfl, hfair⟩ rfl rfl
                fun _ => rfl
          | false =>
              have hnone : ¬ fresh ≠ [] := fun hfresh => Bool.false_ne_true (hdue.mpr hfresh)
              dsimp only
              rw [survey_proceed]
              show Survey.Step net c.survey [] (({ c with shared := s } : Crawl).survey.place i _)
              rw [hsurvey]
              exact hannounce (.serving (Session.await _ _ ⟨e, .link link, .handling notice⟩))
                ⟨link, rfl, hfair⟩ rfl rfl fun hfresh => absurd hfresh hnone
  | signalling =>
      simp only [stepServing, Session.step]
      rw [survey_proceed]
      exact .signal i _ (.serving (Session.await _ _ ⟨e, .link link, .signalling⟩)) hi
        ⟨link, rfl, hfair⟩ rfl rfl

theorem dialFacts_reported (world : World) (s : Shared) (e : Endpoint) (dial : Dial) (deadline : Nat) :
    (dialFacts world s e dial deadline).reported = [] := by
  unfold dialFacts
  split_ifs
  · rfl
  all_goals split <;> rfl

theorem stepWorker_survey (hc : c.Afoot size net h) (shows : world.Shows net)
    (calm : c.Calm world net (.act (.worker i))) :
    Survey.Step net c.survey (c.facts world (.act (.worker i))).reported (c.stepWorker world i).1.survey := by
  have htimely := calm.timely
  have hdistinct := calm.distinct
  have hpatient := calm.patient i
  unfold stepWorker
  unfold facts at htimely hdistinct ⊢
  cases hworker : c.workers[i]? with
  | none =>
      simp only [hworker]
      exact .rest
  | some worker =>
      have hi : c.survey.phases[i]? = some worker.phase := phases_of_workers hworker
      simp only [hworker] at htimely hdistinct ⊢
      cases hphase : worker.phase <;> rw [hphase] at hi htimely hdistinct
      case starting =>
        dsimp only
        rw [survey_proceed]
        exact .turn i .starting .idle hi trivial ⟨rfl, rfl, rfl⟩
      case idle => exact stepIdle_survey hc hi
      case claimed e => exact stepClaimed_survey hi
      case marked e => exact stepMarked_survey world hi
      case dialing e dial deadline =>
        simp only [workerFacts, dialFacts_reported]
        exact stepDialing_survey hc shows hi (htimely e) (hdistinct e)
      case reporting e outcome link =>
        have hopen : c.outcomes.isOpen = true := hc.orderly.listening
        simp only [workerFacts, if_pos hopen]
        exact stepReporting_survey hc hi
      case noting e link => exact stepNoting_survey hc hi
      case pinging e link nonce => exact stepPinging_survey world hc hi
      case serving session => exact stepServing_survey world hc hi (hpatient worker session rfl hworker hphase)
      case leaving => exact stepLeaving_survey hi
      case exited => exact (hc.agrees_at hi).elim

/-! ## Everybody else -/

theorem aggregatorFacts_reported (c : Crawl) : c.aggregatorFacts.reported = [] := by
  unfold aggregatorFacts
  split <;> rfl

theorem stepAggregator_survey (hc : c.Afoot size net h) : c.stepAggregator.1.survey = c.survey := by
  unfold stepAggregator
  split
  next hstarting =>
    simp only [survey, hstarting]
    rfl
  next =>
    split
    next outcome items _ => exact survey_shared (c.shared.settle_finds outcome)
    next => rw [if_neg (by rw [hc.workersGone]; exact Bool.false_ne_true)]
  next hexited => exact absurd hexited hc.recording

theorem publish_survey (c : Crawl) : c.publish.survey = c.survey := by
  unfold publish
  dsimp only
  split <;> rfl

theorem stepPublisher_survey (world : World) (c : Crawl) : (c.stepPublisher world).1.survey = c.survey := by
  unfold stepPublisher
  split
  case h_1 => rfl
  case h_2 next _ =>
    unfold stepTicking
    split_ifs
    · rfl
    · exact c.publish_survey
    · exact c.publish_survey
    · rfl
  case h_3 =>
    unfold stepStoring
    dsimp only
    split <;> rfl
  case h_4 =>
    unfold stepSettling
    split <;> rfl
  case h_5 =>
    unfold stepFlushing
    split
    · rfl
    · dsimp only
      split_ifs <;> rfl
    · rfl
  case h_6 =>
    unfold stepFinishing
    split <;> rfl
  all_goals rfl

theorem stepSaver_survey (world : World) (c : Crawl) : (c.stepSaver world).1.survey = c.survey := by
  unfold stepSaver
  split <;> rfl

theorem stepConsumer_survey (c : Crawl) : c.stepConsumer.1.survey = c.survey := by
  unfold stepConsumer
  split <;> rfl

/-- Whatever happens to a crawl that nothing interferes with is one of the cases of `Survey.Step`. -/
theorem apply_survey (hc : c.Afoot size net h) (shows : world.Shows net) {event : Event}
    (calm : c.Calm world net event) :
    Survey.Step net c.survey (c.facts world event).reported (c.apply world event).survey := by
  cases event with
  | cancel => exact absurd rfl calm.unstopped
  | pass t => exact .rest
  | act actor =>
      cases actor with
      | feeder => exact stepFeeder_survey hc
      | worker i => exact stepWorker_survey hc shows calm
      | aggregator =>
          simp only [apply, step, stepAggregator_survey hc, facts, aggregatorFacts_reported]
          exact .rest
      | publisher =>
          simp only [apply, step, stepPublisher_survey]
          exact .rest
      | saver =>
          simp only [apply, step, stepSaver_survey]
          exact .rest
      | consumer =>
          simp only [apply, step, stepConsumer_survey]
          exact .rest

end BitcoinCrawl.Crawl
