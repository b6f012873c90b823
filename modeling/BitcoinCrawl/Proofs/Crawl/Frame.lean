import BitcoinCrawl.Proofs.Crawl.Simulation

set_option autoImplicit false

/-! # What the steps of a task leave alone

A worker changes the place of no other, and only the tasks that end a crawl, namely aggregator, publisher and
saver, touch what is theirs (`Backstage`). Proofs about one task need no more than this of the steps of the
others. -/

namespace BitcoinCrawl

/-- What feeder and workers have no part in. -/
structure Backstage where
  aggregator : Aggregator
  settled : Settled
  publisher : Publisher
  lock : SaveLock
  archive : Archive

namespace Crawl

variable {world : World} {c c' : Crawl} {i j : Nat}

/-- The part of a crawl that feeder and workers have no part in. -/
def backstage (c : Crawl) : Backstage where
  aggregator := c.aggregator
  settled := c.settled
  publisher := c.publisher
  lock := c.lock
  archive := c.archive

/-! ## The feeder -/

/-- The feeder takes endpoints out of the discovery queue and into the work queue. -/
structure Fed (c c' : Crawl) : Prop where
  registry : c'.shared.registry = c.shared.registry ∨
    c'.shared.registry = c.shared.registry.perform .takeNext
  workers : c'.workers = c.workers
  outcomes : c'.outcomes = c.outcomes
  backstage : c'.backstage = c.backstage

theorem fed_stepFeeder (c : Crawl) : c.Fed c.stepFeeder.1 := by
  unfold stepFeeder
  split
  case h_2 => split_ifs <;> exact ⟨.inl rfl, rfl, rfl, rfl⟩
  case h_3 =>
    split_ifs
    · exact ⟨.inl rfl, rfl, rfl, rfl⟩
    · simp only [Shared.takeNext]
      cases c.shared.registry.takeNext.endpoint <;> exact ⟨.inr rfl, rfl, rfl, rfl⟩
  case h_5 => split_ifs <;> exact ⟨.inl rfl, rfl, rfl, rfl⟩
  all_goals exact ⟨.inl rfl, rfl, rfl, rfl⟩

/-! ## Workers -/

/-- The worker at a place in the pool puts no other somewhere else. -/
structure Placed (c : Crawl) (j : Nat) (c' : Crawl) : Prop where
  workers : c'.workers = c.workers ∨ ∃ worker, c'.workers = c.workers.setIfInBounds j worker
  backstage : c'.backstage = c.backstage

theorem placed_await (h : c.Placed j c') (wake : Option Nat) : c.Placed j (c'.await wake).1 := by
  unfold await
  split_ifs <;> exact h

theorem placed_stopWorker (c : Crawl) (worker : Worker) (j : Nat) : c.Placed j (c.stopWorker worker j).1 := by
  unfold stopWorker
  dsimp only
  split_ifs <;> exact ⟨.inr ⟨_, rfl⟩, rfl⟩

theorem placed_stepWorker (world : World) (j : Nat) (c : Crawl) : c.Placed j (c.stepWorker world j).1 := by
  unfold stepWorker
  split
  next => exact ⟨.inl rfl, rfl⟩
  next worker _ =>
    split
    case h_1 => exact ⟨.inr ⟨_, rfl⟩, rfl⟩
    case h_2 =>
      unfold stepIdle
      split_ifs
      · exact placed_stopWorker c worker j
      · split
        · exact ⟨.inr ⟨_, rfl⟩, rfl⟩
        · exact placed_stopWorker c worker j
        · exact ⟨.inl rfl, rfl⟩
    case h_3 =>
      unfold stepClaimed
      split <;> exact ⟨.inr ⟨_, rfl⟩, rfl⟩
    case h_4 => exact ⟨.inr ⟨_, rfl⟩, rfl⟩
    case h_5 =>
      unfold stepDialing
      split_ifs
      · exact ⟨.inr ⟨_, rfl⟩, rfl⟩
      · dsimp only
        split
        · exact ⟨.inr ⟨_, rfl⟩, rfl⟩
        · exact ⟨.inr ⟨_, rfl⟩, rfl⟩
        · exact ⟨.inr ⟨_, rfl⟩, rfl⟩
        · split_ifs
          · exact ⟨.inr ⟨_, rfl⟩, rfl⟩
          · refine placed_await ?_ _
            exact ⟨.inr ⟨_, rfl⟩, rfl⟩
    case h_6 =>
      unfold stepReporting
      split_ifs <;> (dsimp only; split <;> exact ⟨.inr ⟨_, rfl⟩, rfl⟩)
    case h_7 => exact ⟨.inr ⟨_, rfl⟩, rfl⟩
    case h_8 =>
      unfold stepPinging
      split
      · exact ⟨.inr ⟨_, rfl⟩, rfl⟩
      · exact ⟨.inr ⟨_, rfl⟩, rfl⟩
      · refine placed_await ?_ _
        exact ⟨.inr ⟨_, rfl⟩, rfl⟩
    case h_9 =>
      unfold stepServing
      dsimp only
      split
      · exact ⟨.inr ⟨_, rfl⟩, rfl⟩
      · exact ⟨.inr ⟨_, rfl⟩, rfl⟩
      · refine placed_await ?_ _
        exact ⟨.inr ⟨_, rfl⟩, rfl⟩
    case h_10 => exact ⟨.inr ⟨_, rfl⟩, rfl⟩
    case h_11 => exact ⟨.inl rfl, rfl⟩

/-! ## Everybody else -/

theorem publish_backstage (c : Crawl) : c.publish.backstage = c.backstage := by
  unfold publish
  dsimp only
  split <;> rfl

/-- What only the aggregator writes. -/
def recording (c : Crawl) : Aggregator × Settled := (c.aggregator, c.settled)

theorem stepPublisher_recording (world : World) (c : Crawl) :
    (c.stepPublisher world).1.recording = c.recording := by
  have hpublish := congrArg (fun backstage => (backstage.aggregator, backstage.settled)) c.publish_backstage
  unfold stepPublisher
  split
  case h_2 =>
    unfold stepTicking
    split_ifs
    · rfl
    · exact hpublish
    · exact hpublish
    · rfl
  case h_3 =>
    unfold stepStoring
    dsimp only
    split <;> rfl
  case h_4 =>
    unfold stepSettling
    split <;> rfl
  case h_5 =>
    unfold stepFlushing
    split
    · rfl
    · dsimp only
      split_ifs <;> rfl
    · rfl
  case h_6 =>
    unfold stepFinishing
    split <;> rfl
  all_goals rfl

theorem stepSaver_aggregator (world : World) (c : Crawl) :
    (c.stepSaver world).1.aggregator = c.aggregator := by
  unfold stepSaver
  split <;> rfl

theorem stepConsumer_backstage (c : Crawl) : c.stepConsumer.1.backstage = c.backstage := by
  unfold stepConsumer
  split <;> rfl

theorem stepAggregator_workers (c : Crawl) : c.stepAggregator.1.workers = c.workers := by
  unfold stepAggregator
  split
  case h_2 =>
    split
    · rfl
    · split_ifs <;> rfl
  all_goals rfl

theorem phases_of_same (h : c'.outline = c.outline) (i : Nat) :
    c'.outline.phases[i]? = c.outline.phases[i]? := by
  rw [h]

/-- Where a worker stands is only up to the worker. -/
theorem phases_apply {event : Event} (h : event ≠ .act (.worker i)) :
    (c.apply world event).outline.phases[i]? = c.outline.phases[i]? := by
  cases event with
  | cancel | pass => rfl
  | act actor =>
      cases actor with
      | worker j =>
          have hne : j ≠ i := fun hj => h (hj ▸ rfl)
          show ((c.stepWorker world j).1.workers.toList.map Worker.phase)[i]?
            = (c.workers.toList.map Worker.phase)[i]?
          rcases (placed_stepWorker world j c).workers with hsame | ⟨worker, hplaced⟩
          · rw [hsame]
          · rw [hplaced, Array.toList_setIfInBounds, List.map_set, List.getElem?_set_ne hne]
      | feeder =>
          show (c.stepFeeder.1.workers.toList.map Worker.phase)[i]? = _
          rw [(fed_stepFeeder c).workers]
          rfl
      | aggregator =>
          show (c.stepAggregator.1.workers.toList.map Worker.phase)[i]? = _
          rw [c.stepAggregator_workers]
          rfl
      | publisher => exact phases_of_same (c.stepPublisher_outline world) i
      | saver => exact phases_of_same (c.stepSaver_outline world) i
      | consumer => exact phases_of_same c.stepConsumer_outline i

theorem run_append (world : World) (c : Crawl) (events more : List Event) :
    c.run world (events ++ more) = (c.run world events).run world more :=
  List.foldl_append

end Crawl

end BitcoinCrawl
