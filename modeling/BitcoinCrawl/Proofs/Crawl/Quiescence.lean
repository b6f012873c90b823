import BitcoinCrawl.Proofs.Crawl.Exploration

set_option autoImplicit false

/-! # When nothing can move any more

If neither feeder nor workers nor aggregator of a calm crawl can do anything, however long they wait, then all
workers are idle, nothing is on its way between tasks, and the feeder waits for a signal
(`Crawl.Quiescent.atRest`). As no signal was lost, nothing waits in the discovery queue either
(`Crawl.AtRest.queue_empty`). -/

namespace BitcoinCrawl

/-- What waits for the earlier of two instants waits for one if it knows one of them. -/
theorem earlier_ne_none {t u : Option Nat} (h : t ≠ none ∨ u ≠ none) : earlier t u ≠ none := by
  cases t with
  | none =>
      cases u with
      | none => exact absurd rfl (h.elim id id)
      | some _ => exact nofun
  | some _ => cases u <;> exact nofun

namespace Crawl

/-- Neither the feeder nor a worker nor the aggregator can do anything, now or later. -/
structure Quiescent (world : World) (c : Crawl) : Prop where
  feeder : (c.step world .feeder).2 = .blocked none
  workers : ∀ i, (c.step world (.worker i)).2 = .blocked none
  aggregator : (c.step world .aggregator).2 = .blocked none

/-- Nothing is on its way between the tasks of a crawl. -/
structure AtRest (c : Crawl) : Prop where
  idle : ∀ phase ∈ c.outline.phases, phase = .idle
  queue : c.queue.items = []
  outcomes : c.outcomes.items = []
  feeder : c.feeder = .listening
  unwoken : c.shared.arrivals.isWoken feederListener = false

variable {world : World} {net : Network} {size : Nat} {h : History} {c : Crawl} {worker : Worker} {i : Nat}

theorem await_blocked {wake : Option Nat} (hblocked : (c.await wake).2 = .blocked none) : wake = none := by
  unfold await at hblocked
  split_ifs at hblocked
  exact Motion.blocked.inj hblocked

/-- A dial has a deadline. -/
theorem stepDialing_ne_blocked (hc : c.Afoot size net h) {e : Endpoint} {dial : Dial} {deadline : Nat} :
    (c.stepDialing world worker e dial deadline i).2 ≠ .blocked none := by
  intro hblocked
  unfold stepDialing at hblocked
  rw [if_neg hc.uncancelled] at hblocked
  cases hstep : dial.step world e c.shared with
  | mk dial' rest =>
      obtain ⟨s, answer⟩ := rest
      rw [hstep] at hblocked
      match answer with
      | .finished (.ok connected) => cases hblocked
      | .finished (.error fault) => cases hblocked
      | .moved => cases hblocked
      | .waiting wake =>
          dsimp only at hblocked
          split_ifs at hblocked
          · cases hblocked
          · exact earlier_ne_none (.inr (Option.some_ne_none deadline)) (await_blocked hblocked)

/-- A session hears something sooner or later. -/
theorem stepServing_ne_blocked (hc : c.Afoot size net h) {session : Session}
    (hagrees : (WorkerPhase.serving session).Agrees net) :
    (c.stepServing world worker session i).2 ≠ .blocked none := by
  intro hblocked
  obtain ⟨e, line, phase⟩ := session
  obtain ⟨link, hline, hfair⟩ := hagrees
  obtain rfl : line = .link link := hline
  cases phase with
  | handling notice =>
      simp only [stepServing, Session.step] at hblocked
      cases hhandle : c.shared.handle e notice with
      | mk s due =>
          rw [hhandle] at hblocked
          cases due <;> cases hblocked
  | signalling => cases hblocked
  | awaiting deadline =>
      have hwake := (hfair.receive c.shared.now).2
      simp only [stepServing, Session.step, Session.stepAwaiting, if_neg hc.uncancelled, Line.receive]
        at hblocked
      cases hreceive : link.receive c.shared.now with
      | mk link' poll =>
          rw [hreceive] at hwake
          simp only [hreceive] at hblocked
          cases poll with
          | ready r =>
              dsimp only at hblocked
              cases hjudge : c.shared.judge e (r.mapError .transport) with
              | mk s verdict =>
                  rw [hjudge] at hblocked
                  cases verdict <;> cases hblocked
          | waiting wake =>
              dsimp only at hblocked
              split_ifs at hblocked
              · cases hblocked
              · refine earlier_ne_none (.inl ?_) (await_blocked hblocked)
                rintro rfl
                exact hwake rfl

theorem Quiescent.worker_idle (hq : c.Quiescent world) (hc : c.Afoot size net h)
    (hworker : c.workers[i]? = some worker) : worker.phase = .idle ∧ c.queue.items = [] := by
  have hagrees := hc.agrees_at (phases_of_workers hworker)
  have hblocked := hq.workers i
  simp only [step, stepWorker, hworker] at hblocked
  cases hphase : worker.phase <;> rw [hphase] at hagrees <;> simp only [hphase] at hblocked
  case idle =>
    unfold stepIdle at hblocked
    rw [if_neg hc.uncancelled] at hblocked
    cases hitems : c.queue.items with
    | nil => exact ⟨rfl, rfl⟩
    | cons e items =>
        rw [hitems] at hblocked
        cases hblocked
  case claimed e =>
    unfold stepClaimed at hblocked
    split at hblocked <;> cases hblocked
  case dialing => exact absurd hblocked (stepDialing_ne_blocked hc)
  case reporting e outcome link =>
    unfold stepReporting at hblocked
    cases link <;> cases hblocked
  case pinging e link nonce =>
    obtain ⟨link', hsend, -⟩ := Link.Fair.send hagrees (.ping nonce)
    simp only [stepPinging, hsend] at hblocked
    cases hblocked
  case serving session => exact absurd hblocked (stepServing_ne_blocked hc hagrees)
  case exited => exact hagrees.elim
  all_goals cases hblocked

/-- Where nothing can move nothing is on its way. -/
theorem Quiescent.atRest (hq : c.Quiescent world) (hc : c.Afoot size net h) : c.AtRest := by
  have hidle : ∀ phase ∈ c.outline.phases, phase = .idle := by
    intro phase hmem
    obtain ⟨worker, hworker, rfl⟩ := List.mem_map.mp hmem
    obtain ⟨i, hi⟩ := Array.mem_iff_getElem?.mp (Array.mem_toList_iff.mp hworker)
    exact (hq.worker_idle hc hi).1
  have hqueue : c.queue.items = [] := by
    have hpool := hc.orderly.pool
    rw [outline, List.length_map, Array.length_toList] at hpool
    have hlt : 0 < c.workers.size := hpool ▸ hc.staffed
    exact (hq.worker_idle hc (Array.getElem?_eq_getElem hlt)).2
  have hroom : c.queue.hasRoom = true := by
    have hcapacity : c.queue.capacity = size := hc.orderly.capacity
    rw [WorkQueue.hasRoom, hqueue, hcapacity]
    exact decide_eq_true hc.staffed
  have hfeeder : c.feeder = .listening ∧ c.shared.arrivals.isWoken feederListener = false := by
    have hblocked := hq.feeder
    simp only [step, stepFeeder] at hblocked
    cases hf : c.feeder <;> simp only [hf, if_neg hc.uncancelled] at hblocked
    case reserving =>
      have hgo : ¬ (c.shared.cancelled || !c.queue.isOpen) = true := by simp [hc.uncancelled, hc.isOpen]
      rw [if_neg hgo, if_pos hroom] at hblocked
      cases hblocked
    case searching =>
      split at hblocked <;> cases hblocked
    case listening =>
      split_ifs at hblocked with hwoken
      exact ⟨rfl, eq_false_of_ne_true hwoken⟩
    case exited => exact absurd hf hc.feeding
    all_goals cases hblocked
  have houtcomes : c.outcomes.items = [] := by
    have hblocked := hq.aggregator
    simp only [step, stepAggregator] at hblocked
    cases ha : c.aggregator <;> simp only [ha] at hblocked
    case starting => cases hblocked
    case recording =>
      cases hitems : c.outcomes.items with
      | nil => rfl
      | cons outcome items =>
          rw [hitems] at hblocked
          cases hblocked
    case exited => exact absurd ha hc.recording
  exact ⟨hidle, hqueue, houtcomes, hfeeder.1, hfeeder.2⟩

/-- A feeder that nobody will wake has nothing to take. -/
theorem AtRest.queue_empty (hrest : c.AtRest) (ha : c.survey.Alert) : c.shared.registry.discoveryQueue = [] := by
  unfold Survey.Alert at ha
  rw [show c.survey.feeder = .listening from hrest.feeder] at ha
  rcases ha with ⟨-, hwoken⟩ | ⟨-, hempty | ⟨phase, hmem, htelling⟩⟩
  · have hunwoken := hrest.unwoken
    rw [Signal.isWoken, show c.shared.arrivals.woken = _ from hwoken] at hunwoken
    cases hunwoken
  · exact hempty
  · rw [hrest.idle phase hmem] at htelling
    cases htelling

end Crawl

end BitcoinCrawl
