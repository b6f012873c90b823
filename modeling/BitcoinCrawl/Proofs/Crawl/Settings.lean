import BitcoinCrawl.Proofs.Crawl.Saving
import BitcoinCrawl.Proofs.UserAgent

set_option autoImplicit false

/-! # Settings that can be crawled with

A setting is refused for its own sake, and only two are ever refused. `accepted_iff` says which configurations come
of that. Whether a crawl can be set up and its publisher goes on to its last save are other questions, and the main
theorem (`crawlable_iff`) answers them: the queue of endpoints has a longest length, and the time between two
snapshots must not be zero. Neither is looked at when the settings are made. -/

namespace BitcoinCrawl

/-! ## Accepted settings -/

namespace CrawlConfig

/-- Change settings in order, up to the first that is refused. -/
def setAll (settings : List Setting) (config : CrawlConfig) : Except ConfigFault CrawlConfig :=
  settings.foldlM (fun config setting => config.set setting) config

/-- A configuration that some settings make of the defaults of its network. -/
def Accepted (config : CrawlConfig) : Prop := ∃ chain settings, setAll settings { chain } = .ok config

/-- What settings are tested for. -/
structure Tested (config : CrawlConfig) : Prop where
  limit : 0 < config.connectionLimit
  agent : ∀ agent ∈ config.userAgent, UserAgent.parse agent.text = .ok agent

variable {config config' : CrawlConfig}

theorem tested_default (chain : Chain) : Tested { chain } := ⟨Nat.succ_pos 7, nofun⟩

theorem Tested.set {setting : Setting} (h : config.Tested) (hset : config.set setting = .ok config') :
    config'.Tested := by
  cases setting with
  | userAgent text =>
      simp only [CrawlConfig.set] at hset
      cases hparse : UserAgent.parse text with
      | error fault =>
          rw [hparse] at hset
          cases hset
      | ok agent =>
          rw [hparse] at hset
          cases hset
          refine ⟨h.limit, ?_⟩
          rintro _ ⟨⟩
          obtain ⟨rfl, -⟩ := UserAgent.parse_eq_ok.mp hparse
          exact hparse
  | connectionLimit limit =>
      simp only [CrawlConfig.set] at hset
      split_ifs at hset with hzero
      cases hset
      exact ⟨Nat.pos_of_ne_zero hzero, h.agent⟩
  | protocolVersion | peerTimeout | idleTimeout | snapshotInterval | outputPath =>
      cases hset
      exact ⟨h.limit, h.agent⟩

theorem Tested.setAll {settings : List Setting} (h : config.Tested) (hset : config.setAll settings = .ok config') :
    config'.Tested := by
  induction settings generalizing config with
  | nil =>
      cases hset
      exact h
  | cons setting rest ih =>
      rw [CrawlConfig.setAll, List.foldlM_cons] at hset
      cases hfirst : config.set setting with
      | error fault =>
          rw [hfirst] at hset
          cases hset
      | ok next =>
          rw [hfirst] at hset
          exact ih (h.set hfirst) hset

/-- The settings that make a configuration of the defaults. -/
def settings (config : CrawlConfig) : List Setting :=
  (config.userAgent.map fun agent => .userAgent agent.text).toList ++
    [.protocolVersion config.protocolVersion, .connectionLimit config.connectionLimit,
      .peerTimeout config.peerTimeout, .idleTimeout config.idleTimeout,
      .snapshotInterval config.snapshotInterval] ++
    (config.outputPath.map .outputPath).toList

theorem setAll_settings (h : config.Tested) : setAll config.settings { chain := config.chain } = .ok config := by
  obtain ⟨chain, userAgent, protocolVersion, connectionLimit, peerTimeout, idleTimeout, snapshotInterval,
    outputPath⟩ := config
  have hlimit : connectionLimit ≠ 0 := Nat.ne_of_gt h.limit
  cases userAgent with
  | none => cases outputPath <;> simp [setAll, settings, set, hlimit] <;> rfl
  | some agent =>
      have hagent := h.agent agent rfl
      cases outputPath <;> simp [setAll, settings, set, hlimit, hagent] <;> rfl

/-- All else is accepted as it is. -/
theorem accepted_iff : config.Accepted ↔ config.Tested := by
  refine ⟨?_, fun h => ⟨config.chain, config.settings, setAll_settings h⟩⟩
  rintro ⟨chain, settings, hset⟩
  exact (tested_default chain).setAll hset

end CrawlConfig

/-! ## What the others leave to the publisher -/

namespace Publisher

/-- How many steps a publisher takes at most until it gets to its last save, once it may. -/
def stepsLeft : Publisher → Nat
  | starting | storing _ => 3
  | ticking _ => 2
  | settling => 1
  | flushing | finishing | exited | crashed => 0

/-- Whether a publisher has got to its last save. -/
def isAtEnd : Publisher → Bool
  | flushing | finishing | exited => true
  | starting | ticking _ | storing _ | settling | crashed => false

theorem stepsLeft_le (publisher : Publisher) : publisher.stepsLeft ≤ 3 := by
  cases publisher <;> simp [stepsLeft]

theorem isAtEnd_of_stepsLeft {publisher : Publisher} (h : publisher.stepsLeft = 0) (running : publisher ≠ .crashed) :
    publisher.isAtEnd = true := by
  cases publisher with
  | flushing | finishing | exited => rfl
  | crashed => exact absurd rfl running
  | starting | ticking | storing | settling => cases h

end Publisher

namespace Crawl

variable {world : World} {seeds : List Endpoint} {s : Shared} {c : Crawl}

/-- Where the publisher stands, and whether it can save. -/
structure Aside (c c' : Crawl) : Prop where
  publisher : c'.publisher = c.publisher
  settled : c.settled ≠ .pending → c'.settled ≠ .pending
  unsaved : c.lock = .free → c'.lock = .free ∧ c'.archive = c.archive

theorem Aside.of_backstage {c' : Crawl} (same : c'.backstage = c.backstage) : c.Aside c' where
  publisher := congrArg Backstage.publisher same
  settled := fun h => by
    have hsame : c'.settled = c.settled := congrArg Backstage.settled same
    rwa [hsame]
  unsaved := fun h => ⟨(congrArg Backstage.lock same).trans h, congrArg Backstage.archive same⟩

/-- Only the publisher moves the publisher, and without its orders nothing is saved. -/
theorem aside_apply (world : World) (c : Crawl) {event : Event} (h : event ≠ .act .publisher) :
    c.Aside (c.apply world event) := by
  cases event with
  | cancel | pass => exact ⟨rfl, id, fun h => ⟨h, rfl⟩⟩
  | act actor =>
      cases actor with
      | publisher => exact absurd rfl h
      | feeder => exact .of_backstage c.fed_stepFeeder.backstage
      | worker i => exact .of_backstage (placed_stepWorker world i c).backstage
      | consumer => exact .of_backstage c.stepConsumer_backstage
      | aggregator =>
          obtain ⟨hpublisher, hlock, harchive⟩ := Saving.stepAggregator_saves c
          refine ⟨hpublisher, fun hsettled => ?_, fun hfree => ⟨hlock.trans hfree, harchive⟩⟩
          show c.stepAggregator.1.settled ≠ .pending
          unfold stepAggregator
          split
          · exact hsettled
          · split
            · exact hsettled
            · split_ifs
              · nofun
              · exact hsettled
          · exact hsettled
      | saver =>
          show c.Aside (c.stepSaver world).1
          unfold stepSaver
          split
          next records _ hsaving => exact ⟨rfl, id, fun hfree => nomatch hfree.symm.trans hsaving⟩
          next => exact ⟨rfl, id, fun hfree => ⟨hfree, rfl⟩⟩

/-! ## The publisher -/

/-- With time between its ticks the publisher goes on, and to its last save once it may. -/
theorem stepPublisher_goesOn (ticks : 0 < world.config.snapshotInterval) (running : c.publisher ≠ .crashed) :
    (c.stepPublisher world).1.publisher ≠ .crashed ∧
      (c.shared.cancelled = true → c.settled ≠ .pending →
        (c.stepPublisher world).1.publisher.stepsLeft ≤ c.publisher.stepsLeft - 1) := by
  unfold stepPublisher
  cases hpublisher : c.publisher with
  | starting =>
      simp only [if_neg (Nat.ne_of_gt ticks)]
      exact ⟨Publisher.noConfusion, fun _ _ => Nat.le_refl 2⟩
  | ticking next =>
      simp only [stepTicking]
      by_cases hstop : c.shared.cancelled = true
      · rw [if_pos hstop]
        exact ⟨Publisher.noConfusion, fun _ _ => Nat.le_refl 1⟩
      · rw [if_neg hstop]
        refine ⟨?_, fun h => absurd h hstop⟩
        split_ifs
        · exact Publisher.noConfusion
        · exact Publisher.noConfusion
        · rw [hpublisher]
          exact Publisher.noConfusion
  | storing next =>
      simp only [stepStoring]
      split <;> exact ⟨Publisher.noConfusion, fun _ _ => Nat.le_refl 2⟩
  | settling =>
      simp only [stepSettling]
      split
      next hpending =>
          rw [hpublisher]
          exact ⟨Publisher.noConfusion, fun _ hsettled => absurd hpending hsettled⟩
      next => exact ⟨Publisher.noConfusion, fun _ _ => Nat.le_refl 0⟩
      next => exact ⟨Publisher.noConfusion, fun _ _ => Nat.le_refl 0⟩
  | flushing =>
      simp only [stepFlushing]
      split
      · exact ⟨Publisher.noConfusion, fun _ _ => Nat.le_refl 0⟩
      · split_ifs <;> exact ⟨Publisher.noConfusion, fun _ _ => Nat.le_refl 0⟩
      · rw [hpublisher]
        exact ⟨Publisher.noConfusion, fun _ _ => Nat.le_refl 0⟩
  | finishing =>
      simp only [stepFinishing]
      split
      · rw [hpublisher]
        exact ⟨Publisher.noConfusion, fun _ _ => Nat.le_refl 0⟩
      · exact ⟨Publisher.noConfusion, fun _ _ => Nat.le_refl 0⟩
  | exited =>
      dsimp only
      rw [hpublisher]
      exact ⟨Publisher.noConfusion, fun _ _ => Nat.le_refl 0⟩
  | crashed => exact absurd hpublisher running

/-! ## Whole crawls -/

/-- A publisher with time between its ticks never crashes. -/
theorem run_ne_crashed (ticks : 0 < world.config.snapshotInterval) (running : c.publisher ≠ .crashed)
    (events : List Event) : (c.run world events).publisher ≠ .crashed := by
  induction events generalizing c with
  | nil => exact running
  | cons event rest ih =>
      refine ih (c := c.apply world event) ?_
      by_cases hevent : event = .act .publisher
      · subst hevent
        exact (stepPublisher_goesOn ticks running).1
      · rwa [(aside_apply world c hevent).publisher]

/-- Once it is told to stop, and all outcomes are recorded or never will be, it gets to its last save by steps of
    its own. -/
theorem run_isAtEnd (ticks : 0 < world.config.snapshotInterval) (running : c.publisher ≠ .crashed)
    (stopped : c.shared.cancelled = true) (settled : c.settled ≠ .pending) {n : Nat} {events : List Event}
    (enough : c.publisher.stepsLeft ≤ n) (turns : (List.replicate n (.act .publisher)).Sublist events) :
    (c.run world events).publisher.isAtEnd = true := by
  induction events generalizing c n with
  | nil =>
      obtain rfl : n = 0 := by simpa using turns
      exact Publisher.isAtEnd_of_stepsLeft (Nat.le_zero.mp enough) running
  | cons event rest ih =>
      have hstopped := (apply_outline world c event).cancelled stopped
      by_cases hevent : event = .act .publisher
      · subst hevent
        obtain ⟨hrunning, hless⟩ := stepPublisher_goesOn ticks running
        have hsame : (c.stepPublisher world).1.settled = c.settled :=
          congrArg Prod.snd (c.stepPublisher_recording world)
        have hsettled : (c.stepPublisher world).1.settled ≠ .pending := by rwa [hsame]
        have hrest : (List.replicate (n - 1) (.act .publisher)).Sublist rest := by
          cases n with
          | zero => exact List.nil_sublist rest
          | succ n => exact List.cons_sublist_cons.mp turns
        exact ih (c := c.apply world (.act .publisher)) hrunning hstopped hsettled
          (Nat.le_trans (hless stopped settled) (Nat.sub_le_sub_right enough 1)) hrest
      · have haside := aside_apply world c hevent
        have hrest : (List.replicate n (.act .publisher)).Sublist rest := by
          cases n with
          | zero => exact List.nil_sublist rest
          | succ n =>
              cases turns with
              | cons _ h => exact h
              | cons_cons => exact absurd rfl hevent
        refine ih (c := c.apply world event) ?_ hstopped (haside.settled settled) ?_ hrest
        · rwa [haside.publisher]
        · rwa [haside.publisher]

/-- A publisher without time between its ticks does nothing but crash, and nothing is ever saved. -/
structure Crashing (c : Crawl) : Prop where
  publisher : c.publisher = .starting ∨ c.publisher = .crashed
  lock : c.lock = .free
  unsaved : c.archive.saves = #[]

theorem Crashing.step (h : c.Crashing) (ticks : world.config.snapshotInterval = 0) :
    (c.stepPublisher world).1.Crashing ∧ (c.stepPublisher world).1.publisher = .crashed := by
  unfold stepPublisher
  rcases h.publisher with hpublisher | hpublisher
  · rw [hpublisher]
    exact ⟨⟨.inr (if_pos ticks), h.lock, h.unsaved⟩, if_pos ticks⟩
  · rw [hpublisher]
    exact ⟨h, hpublisher⟩

theorem Crashing.run (h : c.Crashing) (ticks : world.config.snapshotInterval = 0) (events : List Event) :
    (c.run world events).Crashing ∧
      (c.publisher = .crashed ∨ .act .publisher ∈ events → (c.run world events).publisher = .crashed) := by
  induction events generalizing c with
  | nil => exact ⟨h, fun hcrashed => hcrashed.resolve_right List.not_mem_nil⟩
  | cons event rest ih =>
      by_cases hevent : event = .act .publisher
      · subst hevent
        obtain ⟨hnext, hcrashed⟩ := h.step ticks
        obtain ⟨hlast, hgone⟩ := ih (c := c.apply world (.act .publisher)) hnext
        exact ⟨hlast, fun _ => hgone (.inl hcrashed)⟩
      · have haside := aside_apply world c hevent
        obtain ⟨hfree, harchive⟩ := haside.unsaved h.lock
        obtain ⟨hlast, hgone⟩ := ih (c := c.apply world event)
          ⟨haside.publisher ▸ h.publisher, hfree, by rw [harchive, h.unsaved]⟩
        refine ⟨hlast, fun hcrashed => hgone ?_⟩
        rw [haside.publisher]
        exact hcrashed.imp_right fun hmem => List.mem_of_ne_of_mem (Ne.symm hevent) hmem

/-! ## Crawls that can be made -/

/-- Lengths that a queue can have. -/
def IsQueueLength (capacity : Nat) : Prop := 0 < capacity ∧ capacity ≤ maxQueue

theorem start_error (large : maxQueue < poolSize world.config.connectionLimit) :
    start world seeds s = .error .tooManyConnections :=
  if_pos large

theorem starts_iff : (∃ c, start world seeds s = .ok c) ↔ world.config.connectionLimit ≤ maxQueue := by
  have hpool : poolSize world.config.connectionLimit ≤ maxQueue ↔ world.config.connectionLimit ≤ maxQueue :=
    Nat.max_le.trans (and_iff_left (by decide))
  rw [← hpool]
  refine ⟨?_, fun hsmall => ?_⟩
  · rintro ⟨c, started⟩
    by_contra hlarge
    exact nomatch (start_error (Nat.lt_of_not_le hlarge)).symm.trans started
  · obtain ⟨s', started, -⟩ := start_ok seeds s hsmall
    exact ⟨_, started⟩

theorem start_queues (started : start world seeds s = .ok c) :
    IsQueueLength c.queue.capacity ∧ IsQueueLength c.snapshots.capacity := by
  simp only [start] at started
  split_ifs at started with hlarge
  cases started
  have hbuffer : IsQueueLength snapshotBuffer := ⟨by decide, by decide⟩
  exact ⟨⟨Nat.le_max_right _ 1, Nat.le_of_not_lt hlarge⟩, hbuffer⟩

theorem start_publisher (started : start world seeds s = .ok c) :
    c.publisher = .starting ∧ c.lock = .free ∧ c.archive.saves = #[] := by
  simp only [start] at started
  split_ifs at started
  cases started
  exact ⟨rfl, rfl, rfl⟩

theorem start_crashing (started : start world seeds s = .ok c) : c.Crashing := by
  obtain ⟨hpublisher, hlock, hsaves⟩ := start_publisher started
  exact ⟨.inl hpublisher, hlock, hsaves⟩

theorem start_ne_crashed (started : start world seeds s = .ok c) : c.publisher ≠ .crashed := by
  rw [(start_publisher started).1]
  nofun

/-- A crawl can be made in a world: it can always be set up, and its publisher never crashes. Once it is told to
    stop, and all outcomes are recorded or never will be, three steps of the publisher bring it to its last save,
    whatever the others do in between. -/
structure Crawlable (world : World) : Prop where
  starts : ∀ seeds s, ∃ c, start world seeds s = .ok c
  publishes : ∀ seeds s c events, start world seeds s = .ok c → (c.run world events).publisher ≠ .crashed
  flushes : ∀ seeds s c events more, start world seeds s = .ok c →
    (c.run world events).shared.cancelled = true → (c.run world events).settled ≠ .pending →
    (List.replicate 3 (.act .publisher)).Sublist more →
    ((c.run world events).run world more).publisher.isAtEnd = true

theorem Crawlable.of_settings (small : world.config.connectionLimit ≤ maxQueue)
    (ticks : 0 < world.config.snapshotInterval) : Crawlable world where
  starts := fun _ _ => starts_iff.mpr small
  publishes := fun _ _ _ events started => run_ne_crashed ticks (start_ne_crashed started) events
  flushes := fun _ _ c events _ started stopped settled turns =>
    run_isAtEnd ticks (run_ne_crashed ticks (start_ne_crashed started) events) stopped settled
      (c.run world events).publisher.stepsLeft_le turns

/-- What was accepted and what can be crawled with are different things.
    **A crawl can be made with a configuration exactly if its limit on connections is at most the longest length of
    a queue and some time passes between two snapshots**, and neither is looked at when it is accepted:
    * accepted are exactly the configurations that allow some connection, and whose user agent, if there is one,
      has the required shape;
    * a crawl that starts has queues of possible lengths, for endpoints as for snapshots;
    * without time between two snapshots the publisher crashes at its first step, and nothing is ever saved. -/
theorem crawlable_iff (world : World) :
    (world.config.Accepted ↔ 0 < world.config.connectionLimit ∧
      ∀ agent ∈ world.config.userAgent, UserAgent.parse agent.text = .ok agent) ∧
    (Crawlable world ↔ world.config.connectionLimit ≤ maxQueue ∧ 0 < world.config.snapshotInterval) ∧
    (∀ seeds s c, start world seeds s = .ok c →
      IsQueueLength c.queue.capacity ∧ IsQueueLength c.snapshots.capacity) ∧
    (world.config.snapshotInterval = 0 → ∀ seeds s c events, start world seeds s = .ok c →
      (c.run world events).archive.saves = #[] ∧
        (.act .publisher ∈ events → (c.run world events).publisher = .crashed)) := by
  refine ⟨?_, ⟨fun h => ?_, fun h => .of_settings h.1 h.2⟩, fun _ _ _ => start_queues, ?_⟩
  · exact CrawlConfig.accepted_iff.trans ⟨fun h => ⟨h.limit, h.agent⟩, fun h => ⟨h.1, h.2⟩⟩
  · obtain ⟨c, started⟩ := h.starts [] { host := default }
    refine ⟨starts_iff.mp ⟨c, started⟩, Nat.pos_of_ne_zero fun ticks => ?_⟩
    exact h.publishes _ _ c [.act .publisher] started ((start_crashing started).step ticks).2
  · intro ticks seeds s c events started
    obtain ⟨hlast, hcrashed⟩ := (start_crashing started).run ticks events
    exact ⟨hlast.unsaved, fun hmem => hcrashed (.inr hmem)⟩

/-- A world where a crawl leaves no time between two snapshots. -/
def restlessWorld : World where
  config := { chain := .bitcoin, snapshotInterval := 0 }
  persistence := some { store := .memory, path := "nodes.json" }

/-- A world where a crawl may have one connection too many. -/
def crowdedWorld : World := { config := { chain := .bitcoin, connectionLimit := maxQueue + 1 } }

/-- No time between two snapshots is accepted, and so is a limit that no queue is long enough for. With the one the
    publisher crashes at its first step, and with the other no crawl starts. -/
theorem accepted_not_crawlable :
    CrawlConfig.setAll [.snapshotInterval 0] { chain := .bitcoin } = .ok restlessWorld.config ∧
    (∃ c, start restlessWorld [] { host := default } = .ok c ∧
      (c.run restlessWorld [.act .publisher]).publisher = .crashed) ∧
    CrawlConfig.setAll [.connectionLimit (maxQueue + 1)] { chain := .bitcoin } = .ok crowdedWorld.config ∧
    start crowdedWorld [] { host := default } = .error .tooManyConnections ∧
    ¬ ∀ world : World, world.config.Accepted → Crawlable world := by
  obtain ⟨c, started⟩ : ∃ c, start restlessWorld [] { host := default } = .ok c := starts_iff.mpr (by decide)
  have hcrashed : (c.run restlessWorld [.act .publisher]).publisher = .crashed :=
    ((start_crashing started).step rfl).2
  have haccepted : CrawlConfig.setAll [.snapshotInterval 0] { chain := .bitcoin } = .ok restlessWorld.config := rfl
  refine ⟨haccepted, ⟨c, started, hcrashed⟩, rfl, start_error (by decide), fun hall => ?_⟩
  exact (hall restlessWorld ⟨_, _, haccepted⟩).publishes _ _ c _ started hcrashed

end Crawl

end BitcoinCrawl
