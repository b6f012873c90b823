import BitcoinCrawl.Crawl.Lifecycle
import BitcoinCrawl.Proofs.Crawl.TalkerVisits
import BitcoinCrawl.Proofs.Registry.History

set_option autoImplicit false

/-! # Rounds

The clock asks the tasks of a crawl in rounds (`rounds`). Whatever comes of that is one order of events
(`settle_run`). What comes of it in particular is told task by task: each has its turn, in which it goes on until it
waits for somebody else (`Turn`), and rounds of turns follow one another until one of them changes nothing
(`Settles`). That way a crawl with a session in it comes to its end when it is stopped (`Attends.shutdown`). -/

namespace BitcoinCrawl.Crawl

variable {world : World} {actor : Actor} {actors : List Actor} {limit : Option Nat} {c c' c'' : Crawl} {m n : Nat}

/-! ## Rounds are events -/

/-- Rounds are one order of events. -/
theorem rounds_run (world : World) (actors : List Actor) (limit : Option Nat) (fuel : Nat) (r : Round) :
    ∃ events, rounds world actors limit fuel r = r.crawl.run world events := by
  induction fuel generalizing r with
  | zero => exact ⟨[], rfl⟩
  | succ fuel ih =>
      unfold rounds
      split
      · rename_i actor rest _
        dsimp only
        have hact : (r.crawl.step world actor).1 = r.crawl.run world [.act actor] := rfl
        split
        · rename_i next hstep
          obtain ⟨events, hevents⟩ := ih { crawl := next, rest := actor :: rest, moved := true, wake := r.wake }
          rw [hstep] at hact
          exact ⟨.act actor :: events, hevents.trans (congrArg (·.run world events) hact)⟩
        · rename_i next t hstep
          obtain ⟨events, hevents⟩ := ih { crawl := next, rest, moved := r.moved, wake := earlier r.wake t }
          rw [hstep] at hact
          exact ⟨.act actor :: events, hevents.trans (congrArg (·.run world events) hact)⟩
      · split_ifs
        · exact ih { crawl := r.crawl, rest := actors }
        · split
          · exact ⟨[], rfl⟩
          · split_ifs
            · rename_i t _ _
              obtain ⟨events, hevents⟩ := ih { crawl := r.crawl.passTo t, rest := actors }
              exact ⟨.pass t :: events, hevents⟩
            · exact ⟨[], rfl⟩

theorem settle_run (world : World) (actors : List Actor) (limit : Option Nat) (c : Crawl) :
    ∃ events, c.settle world actors limit = c.run world events := by
  unfold settle
  split_ifs
  · exact rounds_run world actors limit _ { crawl := c, rest := actors }
  · exact ⟨[], rfl⟩

/-! ## Turns -/

/-- A task takes so many steps, the last of which shows that it waits for somebody else. -/
inductive Turn (world : World) (actor : Actor) : Nat → Crawl → Crawl → Prop
  | waits {c c' : Crawl} (blocked : c.step world actor = (c', .blocked none)) : Turn world actor 1 c c'
  | moves {n : Nat} {c c' c'' : Crawl} (moved : c.step world actor = (c', .moved)) (rest : Turn world actor n c' c'') :
      Turn world actor (n + 1) c c''

/-- Each of some tasks has its turn. -/
inductive Turns (world : World) : List Actor → Nat → Crawl → Crawl → Prop
  | nil {c : Crawl} : Turns world [] 0 c c
  | cons {actor : Actor} {actors : List Actor} {m n : Nat} {c c' c'' : Crawl} (turn : Turn world actor m c c')
      (rest : Turns world actors n c' c'') : Turns world (actor :: actors) (m + n) c c''

/-- Some tasks have their turns in rounds, until none of them can do anything. -/
inductive Settles (world : World) (actors : List Actor) : Nat → Crawl → Crawl → Prop
  | still {c : Crawl} (last : Turns world actors actors.length c c) : Settles world actors (actors.length + 1) c c
  | round {m n : Nat} {c c' c'' : Crawl} (turns : Turns world actors m c c') (moved : actors.length < m)
      (later : Settles world actors n c' c'') : Settles world actors (n + 1 + m) c c''

theorem Turn.pos (h : Turn world actor n c c') : 0 < n := by
  cases h <;> exact Nat.succ_pos _

theorem Turns.length_le (h : Turns world actors n c c') : actors.length ≤ n := by
  induction h with
  | nil => exact Nat.le_refl 0
  | cons turn rest ih =>
      have hpos := turn.pos
      rw [List.length_cons]
      omega

theorem rounds_turn (h : Turn world actor n c c') (rest : List Actor) (moved : Bool) (fuel : Nat) :
    rounds world actors limit (fuel + n) { crawl := c, rest := actor :: rest, moved }
      = rounds world actors limit fuel { crawl := c', rest, moved := moved || decide (1 < n) } := by
  induction h generalizing moved with
  | waits blocked =>
      rw [rounds]
      simp only [blocked, Nat.lt_irrefl, decide_false, Bool.or_false]
      rfl
  | moves next later ih =>
      have hpos := later.pos
      rw [← Nat.add_assoc, rounds]
      simp only [next]
      rw [ih true, Bool.true_or, decide_eq_true (Nat.succ_lt_succ hpos), Bool.or_true]

theorem rounds_turns {rest : List Actor} (h : Turns world rest n c c') (moved : Bool) (fuel : Nat) :
    rounds world actors limit (fuel + n) { crawl := c, rest, moved }
      = rounds world actors limit fuel { crawl := c', rest := [], moved := moved || decide (rest.length < n) } := by
  induction h generalizing moved with
  | nil => simp
  | @cons actor rest m n c c' c'' turn later ih =>
      have hpos := turn.pos
      have hle := later.length_le
      have hmoved : (decide (1 < m) || decide (rest.length < n)) = decide ((actor :: rest).length < m + n) := by
        rw [List.length_cons, ← Bool.decide_or, decide_eq_decide]
        omega
      rw [Nat.add_comm m n, ← Nat.add_assoc, rounds_turn turn, ih, Bool.or_assoc, hmoved, Nat.add_comm n m]

theorem rounds_settles (h : Settles world actors n c c') (fuel : Nat) :
    rounds world actors limit (fuel + n) { crawl := c, rest := actors } = c' := by
  induction h with
  | still last =>
      have hstill : decide (actors.length < actors.length) = false := decide_eq_false (Nat.lt_irrefl _)
      rw [Nat.add_comm actors.length 1, ← Nat.add_assoc, rounds_turns last, Bool.false_or, hstill]
      rfl
  | round turns moved later ih =>
      rw [← Nat.add_assoc, rounds_turns turns, Bool.false_or, decide_eq_true moved]
      exact ih

/-- There is fuel for a hundred steps. -/
theorem settle_settles (h : Settles world actors n c c') (few : n ≤ 100)
    (early : isBefore c.shared.now limit = true) : c.settle world actors limit = c' := by
  have hfuel : n ≤ c.effort world actors limit := by
    refine few.trans ?_
    unfold effort
    exact (Nat.le_add_right 100 _).trans ((Nat.le_add_right _ _).trans (Nat.le_mul_of_pos_right _ (Nat.succ_pos _)))
  rw [settle, if_pos early, ← Nat.sub_add_cancel hfuel]
  exact rounds_settles h _

/-- A task takes one step, and then waits. -/
theorem Turn.once (moved : c.step world actor = (c', .moved)) (blocked : c'.step world actor = (c', .blocked none)) :
    Turn world actor 2 c c' :=
  .moves moved (.waits blocked)

/-! ## Turns of a crawl that was stopped -/

/-- The feeder goes away. -/
theorem turn_feeder (stopped : c.shared.cancelled = true) (reserving : c.feeder = .reserving) :
    ∃ s, s.cancelled = true ∧ s.registry = c.shared.registry ∧
      Turn world .feeder 2 c { c with shared := s, feeder := .exited } := by
  refine ⟨(c.shared.forget feederListener).report (.debug "Queue feeder exited"), stopped, rfl, .once ?_ rfl⟩
  simp only [step, stepFeeder, reserving, stopped, Bool.true_or, if_true, stopFeeder]

theorem workersGone_single (c : Crawl) : (c.single .exited).workersGone = true := by
  simp [workersGone, single, WorkerPhase.isExited]

/-- A worker that waits for an endpoint goes away. -/
theorem turn_idle (stopped : c.shared.cancelled = true) :
    Turn world (.worker 0) 2 (c.single .idle)
      { (c.report (.debug s!"Worker {0} exited")).single .exited with queue := c.queue.close } := by
  have hidle : (c.single .idle).step world (.worker 0) = (c.single .idle).stepIdle { id := 0, phase := .idle } 0 := rfl
  have hstopped : (c.single .idle).shared.cancelled = true := stopped
  have hplaced (line : LogLine) : ((c.single .idle).report line).place { id := 0, phase := .idle } .exited 0
      = (c.report line).single .exited := rfl
  refine .once ?_ rfl
  rw [hidle, stepIdle, if_pos hstopped, stopWorker]
  simp only [hplaced, workersGone_single, if_true]
  rfl

/-- The only worker ends its session and goes away. -/
theorem turn_worker {session : Session} {deadline : Option Nat} (stopped : c.shared.cancelled = true)
    (serving : c.workers = #[{ id := 0, phase := .serving session }]) (awaiting : session.phase = .awaiting deadline) :
    ∃ s queue dials, s.cancelled = true ∧ s.registry = c.shared.registry ∧
      Turn world (.worker 0) 4 c { c.single .exited with shared := s, queue, dials } := by
  let ended : Crawl := { c.report (.debug s!"Session with {session.endpoint} ended: {SessionEnd.cancelled}") with
    dials := c.dials.hangUp session.line.sent }
  let left : Crawl := { ended with shared := { ended.shared with metrics := ended.shared.metrics.leave } }
  have hended : c.step world (.worker 0) = (ended.single .leaving, .moved) := by
    simp [ended, step, stepWorker, serving, stepServing, Session.step, awaiting, Session.stepAwaiting, stopped, proceed,
      place, single, report]
  have hleft : (ended.single .leaving).step world (.worker 0) = (left.single .idle, .moved) := by
    simp [left, step, stepWorker, stepLeaving, proceed, place, single]
  have hgone := @turn_idle world left stopped
  exact ⟨(left.report (.debug s!"Worker {0} exited")).shared, _, _, stopped, rfl,
    .moves hended (.moves hleft hgone)⟩

/-- The aggregator records the only outcome and goes away. -/
theorem turn_aggregator {peer : Peer} {r : Registry} (stopped : c.shared.cancelled = true)
    (starting : c.aggregator = .starting) (reported : c.outcomes = { items := [.good peer] })
    (gone : c.workersGone = true) (hmark : c.shared.registry.markGood peer.endpoint peer = .ok r) :
    ∃ s, s.cancelled = true ∧ s.registry = r ∧
      Turn world .aggregator 4 c
        { c with shared := s, outcomes := {}, aggregator := .exited, settled := .announced } := by
  let begun : Crawl := { c.report (.debug "Result aggregator started") with aggregator := .recording }
  let recorded : Crawl := { begun with shared := { begun.shared with registry := r }, outcomes := {} }
  let left : Crawl := { recorded.report (.debug "Result aggregator exited") with
    aggregator := .exited, settled := .announced }
  have hbegun : c.step world .aggregator = (begun, .moved) := by
    simp only [begun, step, stepAggregator, starting]
  have hrecorded : begun.step world .aggregator = (recorded, .moved) := by
    simp [recorded, begun, step, stepAggregator, report, reported, Shared.report, Shared.settle, hmark]
  have hleft : recorded.step world .aggregator = (left, .moved) := by
    have hgone : recorded.workersGone = true := gone
    simp [left, recorded, begun, step, stepAggregator, report] at hgone ⊢
    simp [hgone]
  exact ⟨left.shared, stopped, rfl, .moves hbegun (.moves hrecorded (.once hleft rfl))⟩

/-- The publisher starts the last save. -/
theorem turn_publisher {p : Persistence} (stopped : c.shared.cancelled = true) (starting : c.publisher = .starting)
    (persistence : world.persistence = some p) (ticks : 0 < world.config.snapshotInterval)
    (announced : c.settled = .announced) (free : c.lock = .free) (some : c.shared.registry.goodRecords ≠ []) :
    ∃ s, s.cancelled = true ∧ s.registry = c.shared.registry ∧
      Turn world .publisher 5 c
        { c with shared := s, publisher := .finishing, lock := .saving c.shared.registry.goodRecords } := by
  let begun : Crawl := c.report (.debug "Snapshot publisher started")
  have hbegun : c.step world .publisher = ({ begun with publisher := .ticking c.shared.now }, .moved) := by
    simp only [begun, step, stepPublisher, starting, if_neg (Nat.pos_iff_ne_zero.mp ticks)]
  have hstopped : { begun with publisher := .ticking c.shared.now }.step world .publisher
      = ({ begun with publisher := .settling }, .moved) := by
    simp [begun, step, stepPublisher, stepTicking, report, Shared.report, stopped]
  have hsettled : { begun with publisher := .settling }.step world .publisher
      = ({ begun with publisher := .flushing }, .moved) := by
    simp [begun, step, stepPublisher, stepSettling, report, announced]
  have hflushed : { begun with publisher := .flushing }.step world .publisher
      = ({ begun with publisher := .finishing, lock := .saving c.shared.registry.goodRecords }, .moved) := by
    simp [begun, step, stepPublisher, stepFlushing, report, Shared.report, persistence, free, some]
  exact ⟨begun.shared, stopped, rfl,
    .moves hbegun (.moves hstopped (.moves hsettled (.once hflushed rfl)))⟩

/-- The saver performs a save in memory. -/
theorem turn_saver {p : Persistence} {records : List NodeRecord} (persistence : world.persistence = some p)
    (memory : p.store = .memory) (saving : c.lock = .saving records) :
    Turn world .saver 2 c
      { c with archive := { c.archive with saves := c.archive.saves.push records }, lock := .free } := by
  refine .once ?_ ?_
  · simp [step, stepSaver, persistence, saving, save, memory, Shared.reportAll]
  · simp [step, stepSaver, persistence]

/-- The publisher goes away after the last save. -/
theorem turn_finishing (stopped : c.shared.cancelled = true) (finishing : c.publisher = .finishing)
    (free : c.lock = .free) :
    ∃ s, s.cancelled = true ∧ s.registry = c.shared.registry ∧
      Turn world .publisher 2 c { c with shared := s, publisher := .exited } := by
  have hfinished : c.step world .publisher = c.stopPublisher := by
    simp only [step, stepPublisher, finishing, stepFinishing, free]
  exact ⟨(c.report (.debug "Snapshot publisher exited")).shared, stopped, rfl, .once hfinished rfl⟩

/-! ## A session is stopped -/

variable {e : Endpoint} {p : Persistence}

/-- The tasks of a crawl with one worker. -/
def team : List Actor := [.feeder, .worker 0, .aggregator, .publisher, .saver]

/-- The last save of a crawl was performed, and only the publisher has to go away. -/
structure Flushed (e : Endpoint) (c : Crawl) : Prop where
  stopped : c.shared.cancelled = true
  feeder : c.feeder = .exited
  workers : c.workers = #[{ id := 0, phase := .exited }]
  aggregator : c.aggregator = .exited
  publisher : c.publisher = .finishing
  lock : c.lock = .free
  good : c.shared.registry.state? e = some .good
  saved : c.archive.saves = #[c.shared.registry.goodRecords]

/-- In a first round after a stop, the session ends, its outcome is recorded, and the node is saved. -/
theorem Attends.first_round (h : c.Attends e) (persistence : world.persistence = some p) (memory : p.store = .memory)
    (ticks : 0 < world.config.snapshotInterval) : ∃ c', Turns world team 17 c.cancel c' ∧ c'.Flushed e := by
  obtain ⟨session, deadline, hawaiting, hserving⟩ := h.serving
  obtain ⟨peer, r, rfl, houtcomes, hmark, hr, hgood⟩ := h.reported
  obtain ⟨s₁, stopped₁, hregistry₁, hfeeder⟩ := @turn_feeder world c.cancel rfl h.feeder
  let fed : Crawl := { c.cancel with shared := s₁, feeder := .exited }
  obtain ⟨s₂, queue, dials, stopped₂, hregistry₂, hworker⟩ :=
    @turn_worker world fed session deadline stopped₁ hserving hawaiting
  let left : Crawl := { fed.single .exited with shared := s₂, queue, dials }
  have hmarked : left.shared.registry.markGood peer.endpoint peer = .ok r := by
    rwa [hregistry₂, hregistry₁]
  obtain ⟨s₃, stopped₃, rfl, haggregator⟩ :=
    @turn_aggregator world left peer r stopped₂ h.aggregator houtcomes fed.workersGone_single hmarked
  let recorded : Crawl := { left with shared := s₃, outcomes := {}, aggregator := .exited, settled := .announced }
  have hsome : s₃.registry.goodRecords ≠ [] := fun hnone => hr.goodRecords_eq_nil.mp hnone _ hgood
  obtain ⟨s₄, stopped₄, hregistry₄, hpublisher⟩ :=
    @turn_publisher world recorded p stopped₃ h.publisher persistence ticks rfl h.lock hsome
  let saving : Crawl := { recorded with
    shared := s₄, publisher := .finishing, lock := .saving s₃.registry.goodRecords }
  have hsaver := @turn_saver world saving p s₃.registry.goodRecords persistence memory rfl
  have hsaves : saving.archive.saves.push s₃.registry.goodRecords = #[s₃.registry.goodRecords] :=
    congrArg (·.push s₃.registry.goodRecords) h.unsaved
  have hturns : Turns world team (2 + (4 + (4 + (5 + (2 + 0))))) c.cancel _ :=
    .cons hfeeder (.cons hworker (.cons haggregator (.cons hpublisher (.cons hsaver .nil))))
  exact ⟨_, hturns, {
    stopped := stopped₄, feeder := rfl, workers := rfl, aggregator := rfl, publisher := rfl, lock := rfl
    good := by rwa [hregistry₄]
    saved := by rwa [hregistry₄] }⟩

/-- After that the publisher goes away, and then nobody is left. -/
theorem Flushed.settles (h : c.Flushed e) (persistence : world.persistence = some p) :
    ∃ s, s.registry = c.shared.registry ∧ Settles world team 13 c { c with shared := s, publisher := .exited } := by
  obtain ⟨s, -, hregistry, hpublisher⟩ := @turn_finishing world c h.stopped h.publisher h.lock
  let c' : Crawl := { c with shared := s, publisher := .exited }
  -- Whoever has gone away, and a saver without a save, wait for ever.
  have hfeeder {c : Crawl} (hc : c.feeder = .exited) : Turn world .feeder 1 c c := by
    refine .waits ?_
    simp only [step, stepFeeder, hc]
  have hworker {c : Crawl} (hc : c.workers = #[{ id := 0, phase := .exited }]) : Turn world (.worker 0) 1 c c := by
    refine .waits ?_
    simp [step, stepWorker, hc]
  have haggregator {c : Crawl} (hc : c.aggregator = .exited) : Turn world .aggregator 1 c c := by
    refine .waits ?_
    simp only [step, stepAggregator, hc]
  have hsaver {c : Crawl} (hc : c.lock = .free) : Turn world .saver 1 c c := by
    refine .waits ?_
    simp only [step, stepSaver, persistence, hc]
  have hsecond : Turns world team (1 + (1 + (1 + (2 + (1 + 0))))) c c' :=
    .cons (hfeeder h.feeder) (.cons (hworker h.workers) (.cons (haggregator h.aggregator)
      (.cons hpublisher (.cons (hsaver h.lock) .nil))))
  have hthird : Turns world team (1 + (1 + (1 + (1 + (1 + 0))))) c' c' :=
    .cons (hfeeder h.feeder) (.cons (hworker h.workers) (.cons (haggregator h.aggregator)
      (.cons (.waits rfl) (.cons (hsaver h.lock) .nil))))
  have hsettles : Settles world team (team.length + 1 + 1 + 6) c c' := .round hsecond (by decide) (.still hthird)
  exact ⟨s, hregistry, hsettles⟩

/-- **A crawl with one session ends when it is stopped.** Given any time, everybody goes away, and what is saved are
    the good nodes, the peer of the session among them. -/
theorem Attends.shutdown (h : c.Attends e) (persistence : world.persistence = some p) (memory : p.store = .memory)
    (ticks : 0 < world.config.snapshotInterval) {grace : Millis} (given : 0 < grace) :
    (c.shutdown world grace).fault = none ∧
      (c.shutdown world grace).crawl.shared.registry.state? e = some .good ∧
      (c.shutdown world grace).crawl.archive.saves = #[(c.shutdown world grace).crawl.shared.registry.goodRecords] := by
  obtain ⟨session, deadline, -, hserving⟩ := h.serving
  obtain ⟨c', hfirst, hflushed⟩ := h.first_round persistence memory ticks
  obtain ⟨s, hregistry, hlater⟩ := hflushed.settles persistence
  have htasks : c.tasks = team := by simp [tasks, team, hserving]
  have hearly : isBefore c.cancel.shared.now (some (c.shared.now + grace)) = true :=
    decide_eq_true (Nat.lt_add_of_pos_right given)
  have hrounds : Settles world team (13 + 1 + 17) c.cancel _ := .round hfirst (by decide) hlater
  have hsettle := settle_settles hrounds (by decide) hearly
  have hleft : ({ c' with shared := s, publisher := .exited } : Crawl).unfinished = 0 := by
    simp [unfinished, hflushed.feeder, hflushed.workers, hflushed.aggregator, WorkerPhase.isExited]
  simp only [Crawl.shutdown, htasks, hsettle, hleft, if_true]
  refine ⟨trivial, ?_, ?_⟩
  · exact hregistry ▸ hflushed.good
  · exact hregistry ▸ hflushed.saved

end BitcoinCrawl.Crawl
