import BitcoinCrawl.Crawl.Lifecycle
import BitcoinCrawl.Proofs.Crawl.Visit

set_option autoImplicit false

/-! # Every step of a crawl is a step of its outline

One lemma for each task says which step of the outline its next step is; `apply_outline` puts them together
and `reach_run` follows a crawl through any order of events. Publisher, saver and consumer leave the
outline alone. At the beginning the registry holds the seeds and every queue is empty (`start_outline`). -/

namespace BitcoinCrawl

/-! ## The feeder -/

namespace Crawl

theorem stopFeeder_outline (world : World) (c : Crawl) (h : c.feeder.carried = []) :
    Outline.Step world c.outline [] c.stopFeeder.1.outline :=
  .shift .exited h rfl (by simp [Feeder.hasReserved])

theorem stepFeeder_outline (world : World) (c : Crawl) :
    Outline.Step world c.outline [] c.stepFeeder.1.outline := by
  unfold stepFeeder
  split
  next hf => exact .shift .reserving (congrArg Feeder.carried hf) rfl (by simp [Feeder.hasReserved])
  next hf =>
    split_ifs with hstop hroom
    · exact c.stopFeeder_outline world (congrArg Feeder.carried hf)
    · exact .shift .searching (congrArg Feeder.carried hf) rfl fun _ => .inr hroom
    · exact .rest
  next hf =>
    split_ifs with hstop
    · exact c.stopFeeder_outline world (congrArg Feeder.carried hf)
    · -- The step leaves open whether an endpoint was found; the feeder looks.
      have hsearch := @Outline.Step.search world c.outline hf
      have hsame : c.outline.registry.takeNext.endpoint = c.shared.registry.takeNext.endpoint := rfl
      rw [hsame] at hsearch
      simp only [Shared.takeNext]
      cases htake : c.shared.registry.takeNext.endpoint with
      | some e =>
          rw [htake] at hsearch
          exact hsearch
      | none =>
          rw [htake] at hsearch
          exact hsearch
  next hf =>
    have hreserved := congrArg Feeder.hasReserved hf
    cases hlisten : c.shared.arrivals.listen feederListener with
    | mk arrivals waits =>
        cases waits with
        | true => exact .shift .listening (congrArg Feeder.carried hf) rfl fun _ => .inl hreserved
        | false => exact .shift .searching (congrArg Feeder.carried hf) rfl fun _ => .inl hreserved
  next hf =>
    have hreserved := congrArg Feeder.hasReserved hf
    split_ifs with hstop hwoken
    · exact c.stopFeeder_outline world (congrArg Feeder.carried hf)
    · exact .shift .searching (congrArg Feeder.carried hf) rfl fun _ => .inl hreserved
    · exact .rest
  next e hf => exact .hand e hf
  next => exact .rest

/-! ## Workers -/

variable {c : Crawl} {worker : Worker} {i : Nat}

theorem phases_of_workers (h : c.workers[i]? = some worker) :
    c.outline.phases[i]? = some worker.phase := by
  simp [outline, h]

@[simp] theorem outline_place (c : Crawl) (worker : Worker) (phase : WorkerPhase) (i : Nat) :
    (c.place worker phase i).outline = c.outline.place i phase := by
  simp [place, outline, Outline.place, Array.toList_setIfInBounds, List.map_set]

@[simp] theorem outline_proceed (c : Crawl) (worker : Worker) (phase : WorkerPhase) (i : Nat) :
    (c.proceed worker phase i).1.outline = c.outline.place i phase :=
  outline_place c worker phase i

@[simp] theorem outline_await (c : Crawl) (wake : Option Nat) :
    (c.await wake).1.outline = c.outline := by
  unfold await
  split_ifs <;> rfl

/-- Of what a task does to the shared state only the registry shows. -/
theorem outline_shared {s : Shared} (hground : SameGround c.shared s) :
    ({ c with shared := s } : Crawl).outline = { c.outline with registry := s.registry } := by
  simp [outline, hground.now, hground.cancelled, hground.active]

theorem stopWorker_outline (world : World) (h : c.outline.phases[i]? = some .idle) :
    Outline.Step world c.outline [] (c.stopWorker worker i).1.outline := by
  unfold stopWorker
  have hplace := outline_place (c.report (.debug s!"Worker {worker.id} exited")) worker .exited i
  dsimp only
  -- The last worker closes the queue on its way out, which keeps what is in it.
  split_ifs with hgone
  · have hclose := @Outline.Step.retire world c.outline i c.queue.close h ⟨rfl, rfl⟩
    rw [show c.outline = (c.report (.debug s!"Worker {worker.id} exited")).outline from rfl,
      ← hplace] at hclose
    exact hclose
  · rw [hplace]
    exact .retire i c.queue h ⟨rfl, rfl⟩

theorem stepIdle_outline (world : World) (h : c.outline.phases[i]? = some .idle) :
    Outline.Step world c.outline [] (c.stepIdle worker i).1.outline := by
  unfold stepIdle
  split_ifs with hstop
  · exact stopWorker_outline world h
  · split
    next e items hqueue =>
      rw [outline_proceed]
      exact .claim i e items h (eq_false_of_ne_true hstop) hqueue
    next => exact stopWorker_outline world h
    next => exact .rest

theorem stepClaimed_outline (world : World) {e : Endpoint}
    (h : c.outline.phases[i]? = some (.claimed e)) :
    Outline.Step world c.outline [] (c.stepClaimed worker e i).1.outline := by
  unfold stepClaimed
  cases hmark : c.shared.registry.markConnecting e with
  | ok registry =>
      dsimp only
      rw [outline_proceed]
      exact .mark i e registry h hmark
  | error fault =>
      dsimp only
      rw [outline_proceed]
      exact .skip i e fault h hmark

theorem stepMarked_outline (world : World) {e : Endpoint}
    (h : c.outline.phases[i]? = some (.marked e)) :
    Outline.Step world c.outline [.called e c.shared.now]
      (c.stepMarked world worker e i).1.outline := by
  unfold stepMarked
  rw [outline_proceed]
  have hdial := @Outline.Step.dial world c.outline i e h
  simpa [outline, Outline.place, DialLog.start, Metrics.enter] using hdial

theorem giveUp_outline (c : Crawl) (worker : Worker) (e : Endpoint) (dial : Dial) (reason : String)
    (i : Nat) :
    (c.giveUp worker e dial reason i).1.outline
      = c.outline.place i (.reporting e (.dead e) none) := by
  unfold giveUp
  rw [outline_proceed]
  rfl

theorem stepDialing_outline (world : World) {e : Endpoint} {dial : Dial} {deadline : Nat}
    (h : c.outline.phases[i]? = some (.dialing e dial deadline)) :
    Outline.Step world c.outline (dialFacts world c.shared e dial deadline)
      (c.stepDialing world worker e dial deadline i).1.outline := by
  unfold stepDialing dialFacts
  by_cases hstop : c.shared.cancelled = true
  · rw [if_pos hstop, if_pos hstop, outline_proceed]
    exact .abandon i e dial deadline h hstop
  · rw [if_neg hstop, if_neg hstop]
    have hreg := Dial.step_registry world e dial c.shared
    have hground := Dial.step_ground world e dial c.shared
    have hconnect := @Outline.Step.connect world c.outline i e dial deadline c.shared
    have hawait := @Outline.Step.await world c.outline i e dial deadline c.shared
    cases hstep : dial.step world e c.shared with
    | mk dial' rest =>
        obtain ⟨s, answer⟩ := rest
        rw [hstep] at hreg hground hconnect hawait
        have hsame : ({ c with shared := s } : Crawl).outline = c.outline := by
          rw [outline_shared hground, hreg]
          rfl
        dsimp only
        match answer with
        | .finished (.ok connected) =>
            rw [outline_proceed]
            rw [← hsame] at h hconnect ⊢
            exact hconnect connected h rfl
        | .finished (.error fault) =>
            rw [giveUp_outline, hsame]
            exact .fail i e dial deadline _ h (.inl ⟨fault, rfl⟩)
        | .moved =>
            rw [outline_proceed, hsame]
            exact hawait [] h (.inl rfl)
        | .waiting wake =>
            dsimp only
            rw [hground.now]
            split_ifs with hlate
            · rw [giveUp_outline, hsame]
              exact .fail i e dial deadline _ h (.inr ⟨rfl, hlate⟩)
            · rw [outline_await, outline_place, hsame]
              exact hawait _ h (.inr ⟨rfl, Nat.lt_of_not_le hlate⟩)

theorem stepReporting_outline (world : World) {e : Endpoint} {outcome : Outcome} {link : Option Link}
    (h : c.outline.phases[i]? = some (.reporting e outcome link)) :
    Outline.Step world c.outline (if c.outcomes.isOpen then [.reported outcome] else [])
      (c.stepReporting worker e outcome link i).1.outline := by
  unfold stepReporting
  split_ifs with hopen
  · have hreport := @Outline.Step.report world c.outline i e outcome link h hopen
    cases link with
    | none =>
        rw [outline_proceed]
        exact hreport
    | some link =>
        rw [outline_proceed]
        exact hreport
  · have hdeaf := eq_false_of_ne_true hopen
    have hdrop := @Outline.Step.drop world c.outline i e outcome link h hdeaf
    cases link with
    | none =>
        rw [outline_proceed]
        exact hdrop
    | some link =>
        rw [outline_proceed]
        exact hdrop

theorem stepNoting_outline (world : World) {e : Endpoint} {link : Link}
    (h : c.outline.phases[i]? = some (.noting e link)) :
    Outline.Step world c.outline [] (c.stepNoting worker e link i).1.outline := by
  have hnote := @Outline.Step.note world c.outline i e link (c.shared.host.nonce c.shared.noncesDrawn) h
  unfold stepNoting
  rw [outline_proceed]
  simp only [Registry.perform, show c.outline.registry = c.shared.registry from rfl] at hnote
  simp only [Shared.drawNonce]
  cases hset : c.shared.registry.setPingNonce e (c.shared.host.nonce c.shared.noncesDrawn) with
  | ok registry =>
      rw [hset] at hnote
      exact hnote
  | error fault =>
      rw [hset] at hnote
      exact hnote

theorem stepPinging_outline (world : World) {e : Endpoint} {link : Link} {nonce : UInt64}
    (h : c.outline.phases[i]? = some (.pinging e link nonce)) :
    Outline.Step world c.outline [] (c.stepPinging world worker e link nonce i).1.outline := by
  unfold stepPinging
  split
  next link' _ =>
    rw [outline_proceed]
    exact .attend i e link nonce _ h rfl
  next link' fault _ =>
    dsimp only
    rw [outline_proceed]
    exact .giveUp i e link nonce h
  next link' wake _ =>
    rw [outline_await, outline_place]
    exact .ping i e link link' nonce h

theorem stepServing_outline (world : World) {session : Session}
    (h : c.outline.phases[i]? = some (.serving session)) :
    Outline.Step world c.outline [] (c.stepServing world worker session i).1.outline := by
  unfold stepServing
  have hkept := Session.step_kept world.config.idleTimeout session c.shared
  have hfinished := @Session.step_finished world.config.idleTimeout session c.shared
  cases hstep : session.step world.config.idleTimeout c.shared with
  | mk session' rest =>
      obtain ⟨s, answer⟩ := rest
      rw [hstep] at hkept hfinished
      have hserve := @Outline.Step.serve world c.outline i session session' s.registry h
        hkept.endpoint hkept.edit
      have hshared : ({ c with shared := s } : Crawl).outline
          = { c.outline with registry := s.registry } := outline_shared hkept.ground
      dsimp only
      match answer with
      | .finished reason =>
          have hsame : ({ c with shared := s } : Crawl).outline = c.outline := by
            rw [hshared, hfinished rfl]
            rfl
          dsimp only
          rw [outline_proceed]
          -- Nothing is recorded when a session ends, so this is a step of the outline before.
          rw [← hsame] at h ⊢
          exact .hangUp i session h
      | .moved =>
          rw [outline_proceed, hshared]
          exact hserve
      | .waiting wake =>
          rw [outline_await, outline_place, hshared]
          exact hserve

theorem stepLeaving_outline (world : World) (h : c.outline.phases[i]? = some .leaving) :
    Outline.Step world c.outline [] (c.stepLeaving worker i).1.outline := by
  unfold stepLeaving
  rw [outline_proceed]
  exact .leave i h

theorem stepWorker_outline (world : World) (i : Nat) (c : Crawl) :
    Outline.Step world c.outline (c.facts world (.act (.worker i))) (c.stepWorker world i).1.outline := by
  cases hworker : c.workers[i]? with
  | none =>
      simp only [facts, stepWorker, hworker]
      exact .rest
  | some worker =>
      have h := phases_of_workers hworker
      simp only [facts, stepWorker, hworker]
      cases hphase : worker.phase <;> rw [hphase] at h
      case starting =>
        dsimp only
        rw [outline_proceed]
        exact .wake i h
      case idle => exact stepIdle_outline world h
      case claimed => exact stepClaimed_outline world h
      case marked => exact stepMarked_outline world h
      case dialing => exact stepDialing_outline world h
      case reporting => exact stepReporting_outline world h
      case noting => exact stepNoting_outline world h
      case pinging => exact stepPinging_outline world h
      case serving => exact stepServing_outline world h
      case leaving => exact stepLeaving_outline world h
      case exited => exact .rest

/-! ## The aggregator -/

theorem settle_registry (outcome : Outcome) (s : Shared) :
    (s.settle outcome).registry = s.registry.perform outcome.call := by
  cases outcome with
  | good peer =>
      simp only [Shared.settle, Outcome.call, Registry.perform]
      cases s.registry.markGood peer.endpoint peer <;> rfl
  | dead e =>
      simp only [Shared.settle, Outcome.call, Registry.perform]
      cases s.registry.markDead e <;> rfl

theorem settle_ground (outcome : Outcome) (s : Shared) : SameGround s (s.settle outcome) := by
  unfold Shared.settle
  dsimp only
  split <;> exact ⟨rfl, rfl, rfl⟩

theorem stepAggregator_outline (world : World) (c : Crawl) :
    Outline.Step world c.outline c.aggregatorFacts c.stepAggregator.1.outline := by
  unfold stepAggregator aggregatorFacts
  cases c.aggregator with
  | starting => exact .rest
  | recording =>
      cases hitems : c.outcomes.items with
      | nil =>
          dsimp only
          split_ifs <;> exact .rest
      | cons outcome items =>
          have hrecord := @Outline.Step.record world c.outline outcome items hitems
          have hsettle := outline_shared (c := { c with outcomes := { c.outcomes with items } })
            (settle_ground outcome c.shared)
          rw [settle_registry] at hsettle
          exact hsettle.symm ▸ hrecord
  | exited => exact .rest

/-! ## Everybody else -/

theorem publish_outline (c : Crawl) : c.publish.outline = c.outline := by
  unfold publish
  dsimp only
  split <;> rfl

theorem stepPublisher_outline (world : World) (c : Crawl) :
    (c.stepPublisher world).1.outline = c.outline := by
  unfold stepPublisher
  split
  case h_1 => rfl
  case h_2 next _ =>
    unfold stepTicking
    split_ifs
    · rfl
    · exact c.publish_outline
    · exact c.publish_outline
    · rfl
  case h_3 =>
    unfold stepStoring
    dsimp only
    split <;> rfl
  case h_4 =>
    unfold stepSettling
    split <;> rfl
  case h_5 =>
    unfold stepFlushing
    split
    · rfl
    · dsimp only
      split_ifs <;> rfl
    · rfl
  case h_6 =>
    unfold stepFinishing
    split <;> rfl
  all_goals rfl

theorem stepSaver_outline (world : World) (c : Crawl) : (c.stepSaver world).1.outline = c.outline := by
  unfold stepSaver
  split <;> rfl

theorem stepConsumer_outline (c : Crawl) : c.stepConsumer.1.outline = c.outline := by
  unfold stepConsumer
  split <;> rfl

/-! ## Whole crawls -/

/-- Whatever happens to a crawl is one of the cases of `Outline.Step`. -/
theorem apply_outline (world : World) (c : Crawl) (event : Event) :
    Outline.Step world c.outline (c.facts world event) (c.apply world event).outline := by
  cases event with
  | act actor =>
      cases actor with
      | feeder => exact c.stepFeeder_outline world
      | worker i => exact stepWorker_outline world i c
      | aggregator => exact stepAggregator_outline world c
      | publisher =>
          simp only [apply, step, stepPublisher_outline]
          exact .rest
      | saver =>
          simp only [apply, step, stepSaver_outline]
          exact .rest
      | consumer =>
          simp only [apply, step, stepConsumer_outline]
          exact .rest
  | cancel => exact .stop
  | pass t => exact .pass _ (Nat.le_max_right t c.shared.now)

/-- Seen from its outline, a run of a crawl takes steps of `Outline.Step`. -/
theorem reach_run (world : World) (c : Crawl) (events : List Event) :
    Outline.Reach world c.outline (c.chronicle world events) (c.run world events).outline := by
  -- `Reach` grows at its end and a run at its front, hence the detour through `trans`.
  induction events generalizing c with
  | nil => exact .start
  | cons event events ih =>
      have hfirst := Outline.Reach.start.step (apply_outline world c event)
      exact hfirst.trans (ih (c.apply world event))

end Crawl

/-! ## The beginning -/

/-- Nothing has been registered or visited. -/
structure Shared.Fresh (s : Shared) : Prop where
  registry : s.registry = {}
  active : s.metrics.active = 0

namespace Outline

/-- A crawl with a pool of some size whose tasks have not begun. -/
structure Initial (size : Nat) (seeds : List Endpoint) (o : Outline) : Prop where
  registry : o.registry = Registry.perform {} (.add seeds)
  queue : o.queue = { capacity := size }
  feeder : o.feeder = .starting
  phases : o.phases = List.replicate size .starting
  outcomes : o.outcomes = {}
  active : o.active = 0
  attempts : o.attempts = []

end Outline

namespace Crawl

theorem discover_registry (seeds : List Endpoint) (s : Shared) :
    (s.discover seeds).1.registry = s.registry.perform (.add seeds) := by
  unfold Shared.discover
  dsimp only
  split <;> rfl

theorem discover_ground (seeds : List Endpoint) (s : Shared) : SameGround s (s.discover seeds).1 := by
  unfold Shared.discover
  dsimp only
  split <;> exact ⟨rfl, rfl, rfl⟩

variable {world : World} {seeds : List Endpoint} {s : Shared} {c : Crawl}

/-- Endpoints that were known before are visited like seeds. -/
theorem start_initial (known : List Endpoint) (unvisited : s.registry = Registry.perform {} (.add known))
    (idle : s.metrics.active = 0) (started : start world seeds s = .ok c) :
    c.outline.Initial (poolSize world.config.connectionLimit) (known ++ seeds) := by
  have hregistry := discover_registry seeds s
  have hactive := (discover_ground seeds s).active
  rw [unvisited, Registry.perform_add_append] at hregistry
  rw [idle] at hactive
  simp only [start] at started
  split_ifs at started
  cases started
  refine ⟨hregistry, rfl, rfl, ?_, rfl, hactive, rfl⟩
  simp [outline, Function.comp_def, List.map_const']

theorem start_outline (fresh : s.Fresh) (started : start world seeds s = .ok c) :
    c.outline.Initial (poolSize world.config.connectionLimit) seeds :=
  start_initial [] fresh.registry fresh.active started

/-- A crawl that has started can count its workers. -/
theorem start_pool (started : start world seeds s = .ok c) :
    poolSize world.config.connectionLimit < UInt64.size := by
  simp only [start] at started
  split_ifs at started with hlarge
  exact Nat.lt_of_le_of_lt (Nat.le_of_not_lt hlarge) (by decide)

/-- A crawl with so many workers, in which no task has begun. -/
def unbegun (size : Nat) (s : Shared) : Crawl where
  shared := s
  queue := { capacity := size }
  workers := (Array.range size).map fun id => { id }
  snapshots := { capacity := snapshotBuffer }

theorem workers_unbegun_one (s : Shared) : (unbegun 1 s).workers = #[{ id := 0 }] := Array.ext' (by simp [unbegun])

/-- A crawl with a pool that is not too large starts. -/
theorem start_ok (seeds : List Endpoint) (s : Shared) (h : poolSize world.config.connectionLimit ≤ maxQueue) :
    ∃ s', start world seeds s = .ok (unbegun (poolSize world.config.connectionLimit) s') ∧
      s'.cancelled = s.cancelled :=
  ⟨_, if_neg (Nat.not_lt_of_le h), (discover_ground seeds s).cancelled⟩

/-- A world with room for one connection where nobody listens. -/
def deafWorld : World := { config := { chain := .bitcoin, connectionLimit := 1 } }

def firstSeed : Endpoint := ⟨.v4 ⟨10, 0, 0, 1⟩, 8333, rfl⟩

def secondSeed : Endpoint := ⟨.v4 ⟨10, 0, 0, 2⟩, 8333, rfl⟩

theorem deafWorld_start : ∃ c, start deafWorld [firstSeed, secondSeed] { host := default } = .ok c := by
  obtain ⟨s, started, -⟩ := @start_ok deafWorld [firstSeed, secondSeed] { host := default } (by decide)
  exact ⟨_, started⟩

end Crawl

end BitcoinCrawl
