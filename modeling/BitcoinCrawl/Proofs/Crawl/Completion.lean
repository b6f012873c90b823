import BitcoinCrawl.Proofs.Crawl.Connecting
import BitcoinCrawl.Proofs.Crawl.Talkers
import BitcoinCrawl.Proofs.Crawl.Verdict

set_option autoImplicit false

/-! # What a crawl comes to

A crawl that is left alone until nothing can move any more has explored the network (`Crawl.Explored`): it knows
the endpoints that can be reached from the seeds and no others, has dialed each of them once and classified it
as the network says, and has heard every message of those that accept. None of that depends on the order of its
steps or on the number of its workers (`Crawl.completes_explored`). If only finitely many endpoints can be heard
of and nobody keeps it waiting, a crawl gets there (`Crawl.exists_completes`). -/

namespace BitcoinCrawl

/-! ## Registries that agree -/

namespace Registry

variable {r r' : Registry}

/-- How many nodes are in a state can be told from the states of the endpoints. -/
theorem Consistent.population_congr (hc : r.Consistent) (hsame : ∀ e, r.state? e = r'.state? e)
    (s : NodeState) : r.population s = r'.population s := by
  have hnodup : (r.known.toList.filter fun e => r.state? e = some s).Nodup := hc.known_nodup.filter _
  have hmem : ∀ e, e ∈ r.known.toList.filter (fun e => r.state? e = some s) ↔ r.state? e = some s := by
    intro e
    rw [List.mem_filter, decide_eq_true_iff, and_iff_right_iff_imp]
    intro hs
    obtain ⟨n, hn, -⟩ := state?_eq_some.mp hs
    rw [hc.mem_known, hn]
    rfl
  rw [population_eq_length hnodup hmem, population_eq_length hnodup fun e => hsame e ▸ hmem e]

theorem Consistent.counts_congr (hc : r.Consistent) (hc' : r'.Consistent)
    (hsame : ∀ e, r.state? e = r'.state? e) : r.counts = r'.counts := by
  have hpopulation := hc.population_congr hsame
  have hdiscovered := hpopulation .discovered
  have hgood := hpopulation .good
  rw [population_eq_length hc.queue_nodup hc.mem_queue, population_eq_length hc'.queue_nodup hc'.mem_queue,
    discoveryQueue, discoveryQueue, List.length_drop, List.length_drop] at hdiscovered
  rw [population_eq_length hc.good_nodup hc.mem_good, population_eq_length hc'.good_nodup hc'.mem_good]
    at hgood
  have hsize : r.nodes.size = r'.nodes.size := by
    simp only [size_eq_populations, hpopulation]
  simp only [counts, hc.queued_eq, hc'.queued_eq, hc.connecting_eq, hc'.connecting_eq, hc.dead_eq, hc'.dead_eq,
    hpopulation, hsize]
  simp only [Array.length_toList] at hdiscovered hgood
  rw [hdiscovered, hgood]

end Registry

/-! ## Everything is classified -/

/-- The endpoints that some outcomes say are good. -/
def goodEndpoints (outcomes : List Outcome) : List Endpoint :=
  outcomes.filterMap fun | .good peer => some peer.endpoint | .dead _ => none

theorem count_goodEndpoints (o : Outline) (h : History) (e : Endpoint) :
    (goodEndpoints h.recorded).count e = o.tally h e .good := by
  simp only [Outline.tally, goodEndpoints, List.count_eq_countP]
  induction h.recorded with
  | nil => rfl
  | cons outcome rest ih =>
      rw [List.filterMap_cons, List.countP_cons, ← ih]
      cases outcome with
      | good peer =>
          simp only [Outcome.endpoint, Outcome.verdict, List.countP_cons]
          simp
      | dead e' => simp [Outcome.verdict]

theorem sum_said (net : Network) (outcomes : List Outcome) :
    (outcomes.map fun outcome => (outcome.said net).length).sum
      = ((goodEndpoints outcomes).map fun e => (net.said e).length).sum := by
  induction outcomes with
  | nil => rfl
  | cons outcome rest ih =>
      rw [List.map_cons, List.sum_cons, ih]
      cases outcome with
      | good peer => rfl
      | dead e => exact Nat.zero_add _

namespace Crawl

/-- The end of a crawl that nothing interfered with, given what has been seen of it. -/
structure Ended (net : Network) (seeds : List Endpoint) (h : History) (c : Crawl) : Prop where
  consistent : c.shared.registry.Consistent
  counted : c.outline.Counted h
  tracked : c.outline.Tracked h
  dialed : c.dials.attempts.toList = h.called
  sent : h.reported = h.recorded
  unabandoned : h.abandoned = []
  exploring : c.survey.Exploring net seeds h.reported
  atRest : c.AtRest

variable {net : Network} {seeds : List Endpoint} {h : History} {c : Crawl} {e : Endpoint}

theorem AtRest.countP_phases (hrest : c.AtRest) {p : WorkerPhase → Bool} (hidle : p .idle = false) :
    c.outline.phases.countP p = 0 := by
  refine List.countP_eq_zero.mpr fun phase hmem => ?_
  rw [hrest.idle phase hmem, hidle]
  exact Bool.false_ne_true

/-- Nothing is pending. -/
theorem Ended.classified (hend : c.Ended net seeds h) {s : NodeState} (hs : c.shared.registry.state? e = some s) :
    s = .good ∨ s = .dead := by
  have htally := hend.counted.tally_eq hend.consistent e s
  rw [show c.outline.registry = c.shared.registry from rfl, if_pos hs] at htally
  cases s with
  | good => exact .inl rfl
  | dead => exact .inr rfl
  | discovered =>
      rw [Outline.tally, show c.outline.registry = c.shared.registry from rfl,
        hend.atRest.queue_empty hend.exploring.alert] at htally
      cases htally
  | queued =>
      rw [Outline.tally, hend.atRest.countP_phases rfl, show c.outline.feeder = .listening from hend.atRest.feeder,
        show c.outline.queue.items = [] from hend.atRest.queue] at htally
      cases htally
  | connecting =>
      rw [Outline.tally, hend.atRest.countP_phases rfl, hend.unabandoned,
        show c.outline.outcomes.items = [] from hend.atRest.outcomes] at htally
      cases htally

/-- A node is classified as the network says. -/
theorem Ended.state_eq (hend : c.Ended net seeds h) {s : NodeState} (hs : c.shared.registry.state? e = some s) :
    s = if (net e).isSome then .good else .dead := by
  have terminal : s.isTerminal = true := by rcases hend.classified hs with rfl | rfl <;> rfl
  obtain ⟨outcome, hmem, rfl, rfl⟩ := hend.counted.recorded hs terminal
  have hright := hend.exploring.right outcome (hend.sent ▸ hmem)
  cases outcome with
  | good peer => exact (if_pos hright).symm
  | dead e =>
      rw [Outcome.endpoint, show net e = none from hright]
      rfl

theorem Ended.known_of_reachable (hend : c.Ended net seeds h) (hreachable : net.Reachable seeds e) :
    e ∈ c.shared.registry.known.toList := by
  induction hreachable with
  | seed e he => exact hend.exploring.charted.seeded e he
  | announced teller e _ he ih =>
      -- The teller is known, so it is classified; it has said something, so it is good.
      obtain ⟨s, hs⟩ : ∃ s, c.shared.registry.state? teller = some s := by
        obtain ⟨n, hn⟩ := Option.isSome_iff_exists.mp ((hend.consistent.mem_known teller).mp ih)
        exact ⟨n.state, Registry.state?_of_node? hn⟩
      have hstate := hend.state_eq hs
      cases hnet : net teller with
      | none =>
          rw [Network.said, hnet] at he
          cases he
      | some msgs =>
          rw [hnet] at hstate
          obtain ⟨outcome, hmem, rfl, hverdict⟩ := hend.counted.recorded hs (hstate ▸ rfl)
          rw [hstate] at hverdict
          cases outcome with
          | dead => cases hverdict
          | good peer =>
              have hcovered := hend.exploring.charted.covered (.good peer) (hend.sent ▸ hmem) e he
              rcases hcovered with hknown | ⟨phase, hphase, hahead⟩
              · exact hknown
              · rw [hend.atRest.idle phase hphase] at hahead
                cases hahead

/-- An endpoint was dialed as often as it was classified. -/
theorem Ended.count_attempts (hend : c.Ended net seeds h) (e : Endpoint) :
    c.dials.attempts.toList.count e
      = (if c.shared.registry.state? e = some .good then 1 else 0)
        + if c.shared.registry.state? e = some .dead then 1 else 0 := by
  have hcalled := hend.tracked.called e
  have hended := hend.tracked.ended e
  have hrecorded := Outline.count_recorded c.outline h e
  rw [hend.atRest.countP_phases rfl] at hcalled hended
  rw [hend.unabandoned, hend.sent, hrecorded, hend.counted e .good (by simp), hend.counted e .dead (by simp)]
    at hended
  rw [hend.dialed, hcalled, hended]
  simp only [List.count_nil, Nat.zero_add, Nat.add_zero]
  rfl

/-- What a crawl of a network comes to. -/
structure Explored (net : Network) (seeds : List Endpoint) (c : Crawl) : Prop where
  known : ∀ e, (c.shared.registry.node? e).isSome = true ↔ net.Reachable seeds e
  good : ∀ e, c.shared.registry.state? e = some .good ↔ net.Reachable seeds e ∧ (net e).isSome = true
  dead : ∀ e, c.shared.registry.state? e = some .dead ↔ net.Reachable seeds e ∧ net e = none
  settled : c.shared.registry.counts.pending = 0
  dialed_once : c.dials.attempts.toList.Nodup
  dialed : ∀ e, e ∈ c.dials.attempts.toList ↔ net.Reachable seeds e
  heard : c.shared.metrics.messagesIn
    = .ofNat (c.shared.registry.good.toList.map fun e => (net.said e).length).sum

theorem Ended.known_iff (hend : c.Ended net seeds h) (e : Endpoint) :
    (c.shared.registry.node? e).isSome = true ↔ net.Reachable seeds e := by
  rw [← hend.consistent.mem_known]
  exact ⟨hend.exploring.charted.reachable e, hend.known_of_reachable⟩

theorem Ended.state?_iff (hend : c.Ended net seeds h) (e : Endpoint) (s : NodeState) :
    c.shared.registry.state? e = some s ↔
      net.Reachable seeds e ∧ s = if (net e).isSome then .good else .dead := by
  rw [← hend.known_iff]
  constructor
  · intro hs
    obtain ⟨n, hn, -⟩ := Registry.state?_eq_some.mp hs
    exact ⟨by rw [hn]; rfl, hend.state_eq hs⟩
  · rintro ⟨hknown, rfl⟩
    obtain ⟨n, hn⟩ := Option.isSome_iff_exists.mp hknown
    have hs := Registry.state?_of_node? hn
    rw [hs, hend.state_eq hs]

theorem Ended.pending_eq (hend : c.Ended net seeds h) : c.shared.registry.counts.pending = 0 := by
  have hnone : ∀ s : NodeState, s ≠ .good → s ≠ .dead → c.shared.registry.population s = 0 := by
    intro s hgood hdead
    have hempty : ∀ e, e ∈ [] ↔ c.shared.registry.state? e = some s := fun e =>
      ⟨fun hmem => absurd hmem List.not_mem_nil,
        fun hs => absurd (hend.classified hs) (not_or.mpr ⟨hgood, hdead⟩)⟩
    exact Registry.population_eq_length List.nodup_nil hempty
  have hqueue := hnone .discovered (by decide) (by decide)
  rw [Registry.population_eq_length hend.consistent.queue_nodup hend.consistent.mem_queue,
    Registry.discoveryQueue, List.length_drop, Array.length_toList] at hqueue
  simp only [Registry.counts, Counts.pending, hqueue, hend.consistent.queued_eq, hend.consistent.connecting_eq,
    hnone .queued (by decide) (by decide), hnone .connecting (by decide) (by decide)]

theorem Ended.heard_eq (hend : c.Ended net seeds h) : c.shared.metrics.messagesIn
    = .ofNat (c.shared.registry.good.toList.map fun e => (net.said e).length).sum := by
  obtain ⟨heard, hheard, htallied⟩ := hend.exploring.tallied
  have hsilent : (c.survey.phases.map (·.pending.length)).sum = 0 := by
    refine List.sum_eq_zero_iff_forall_eq_nat.mpr fun n hn => ?_
    obtain ⟨phase, hmem, rfl⟩ := List.mem_map.mp hn
    rw [hend.atRest.idle phase hmem]
    rfl
  have hgood : (goodEndpoints h.reported).Perm c.shared.registry.good.toList := by
    refine List.perm_iff_count.mpr fun e => ?_
    rw [hend.sent, count_goodEndpoints c.outline, hend.counted e .good (by simp)]
    show (if c.shared.registry.state? e = some .good then 1 else 0) = _
    split_ifs with hs
    · exact (List.count_eq_one_of_mem hend.consistent.good_nodup ((hend.consistent.mem_good e).mpr hs)).symm
    · exact (List.count_eq_zero.mpr fun hmem => hs ((hend.consistent.mem_good e).mp hmem)).symm
  rw [hsilent, Nat.add_zero, sum_said, (hgood.map _).sum_nat] at htallied
  exact htallied ▸ hheard

theorem Ended.explored (hend : c.Ended net seeds h) : c.Explored net seeds where
  known := hend.known_iff
  good := by
    intro e
    rw [hend.state?_iff]
    cases net e <;> simp
  dead := by
    intro e
    rw [hend.state?_iff]
    cases net e <;> simp
  settled := hend.pending_eq
  dialed_once := by
    refine List.nodup_iff_count_le_one.mpr fun e => ?_
    rw [hend.count_attempts]
    split_ifs with hgood hdead
    · rw [hgood] at hdead
      cases hdead
    all_goals decide
  dialed := by
    intro e
    rw [← List.count_pos_iff, hend.count_attempts, ← hend.known_iff]
    have hknown : (c.shared.registry.node? e).isSome = (c.shared.registry.state? e).isSome :=
      Option.isSome_map.symm
    rw [hknown]
    cases hs : c.shared.registry.state? e with
    | none => simp
    | some s => rcases hend.classified hs with rfl | rfl <;> simp
  heard := hend.heard_eq

end Crawl

/-! ## From the beginning to the end -/

/-- Nothing has been registered, visited, signalled or heard, and nobody was told to stop. -/
structure Shared.Untouched (s : Shared) : Prop extends s.Fresh where
  arrivals : s.arrivals = {}
  heard : s.metrics.messagesIn = 0
  running : s.cancelled = false

namespace Crawl

variable {world : World} {net : Network} {seeds : List Endpoint} {s : Shared} {c : Crawl}

/-- A crawl starts with its seeds in the discovery queue and no worker begun. -/
theorem start_survey (untouched : s.Untouched) (started : start world seeds s = .ok c) :
    ∃ fresh kept size, (∀ e, e ∈ fresh ↔ e ∈ seeds) ∧
      c.survey = { known := fresh, queue := fresh, feeder := .starting, arrivals := { kept },
                   phases := List.replicate size .starting, heard := 0, running := true } := by
  have hempty := Registry.consistent_empty
  obtain ⟨fresh, hcount, hgrown⟩ := hempty.add_grown seeds
  have hknown : (Registry.add seeds {}).1.known.toList = fresh := hgrown.known
  have hqueue : (Registry.add seeds {}).1.discoveryQueue = fresh := hgrown.queue hempty
  have hfresh : ∀ e, e ∈ fresh ↔ e ∈ seeds := fun e =>
    ⟨hgrown.announced e, fun he => hknown ▸ hgrown.covered e he⟩
  refine ⟨fresh, decide (0 < (Registry.add seeds {}).2), poolSize world.config.connectionLimit, hfresh, ?_⟩
  have hphases : ((Array.range (poolSize world.config.connectionLimit)).map
      fun id => ({ id } : Worker)).toList.map Worker.phase
        = List.replicate (poolSize world.config.connectionLimit) .starting := by
    simp [Function.comp_def, List.map_const']
  simp only [start, Shared.discover, Shared.add, untouched.registry] at started
  split_ifs at started with _ hnew
  · cases started
    simp only [survey, Shared.report, Shared.signal, Signal.notify, untouched.arrivals, untouched.heard,
      untouched.running, hknown, hqueue, hphases, decide_eq_true hnew]
    rfl
  · cases started
    simp only [survey, Shared.report, untouched.arrivals, untouched.heard, untouched.running, hknown, hqueue,
      hphases, decide_eq_false hnew]
    rfl

theorem start_exploring (untouched : s.Untouched) (started : start world seeds s = .ok c) :
    c.survey.Exploring net seeds [] := by
  obtain ⟨fresh, kept, size, hfresh, hsurvey⟩ := start_survey untouched started
  have hphases : ∀ phase ∈ c.survey.phases, phase = .starting := by
    rw [hsurvey]
    exact fun phase hmem => List.eq_of_mem_replicate hmem
  refine ⟨⟨by rw [hsurvey], by rw [hsurvey]; exact nofun, ?_⟩, ?_, ⟨?_, ?_, ?_, nofun⟩, nofun, ?_⟩
  · intro phase hmem
    rw [hphases phase hmem]
    trivial
  · rw [hsurvey]
    exact ⟨rfl, rfl⟩
  · rw [hsurvey]
    exact fun e => (hfresh e).mpr
  · rw [hsurvey]
    exact fun e he => .seed e ((hfresh e).mp he)
  · intro phase hmem e he
    rw [hphases phase hmem] at he
    cases he
  · have hsilent : (c.survey.phases.map (·.pending.length)).sum = 0 := by
      refine List.sum_eq_zero_iff_forall_eq_nat.mpr fun n hn => ?_
      obtain ⟨phase, hmem, rfl⟩ := List.mem_map.mp hn
      rw [hphases phase hmem]
      rfl
    rw [Survey.Tallied, hsilent, hsurvey]
    exact ⟨0, rfl, rfl⟩

/-- The end of a crawl of a network from some seeds that nothing interfered with until nothing could move. -/
inductive Completes (net : Network) (seeds : List Endpoint) : Crawl → Prop
  | intro (world : World) (s : Shared) (c : Crawl) (events : List Event) (shows : world.Shows net)
      (untouched : s.Untouched) (started : start world seeds s = .ok c)
      (undisturbed : c.Undisturbed world net events) (quiescent : (c.run world events).Quiescent world) :
      Completes net seeds (c.run world events)

theorem Completes.ended (h : Completes net seeds c) : ∃ history, c.Ended net seeds history := by
  obtain ⟨world, s, c, events, shows, untouched, started, undisturbed, quiescent⟩ := h
  have hinit := start_outline untouched.toFresh started
  have hreach := reach_run world c events
  obtain ⟨ho, hc⟩ := hinit.reach hreach
  obtain ⟨-, ht, -⟩ := hinit.reach_seen hreach
  have hsize : 0 < poolSize world.config.connectionLimit := Nat.lt_of_lt_of_le Nat.one_pos (Nat.le_max_right ..)
  have hexploring := exploring_run shows hinit.orderly hinit.counted hsize (start_exploring untouched started)
    undisturbed
  have hafoot := afoot_of_exploring ho hc hsize hexploring
  have hrest := quiescent.atRest hafoot
  have hsent := hinit.reach_outcomes hreach
  rw [show (c.run world events).outline.outcomes.items = [] from hrest.outcomes, List.append_nil] at hsent
  have hrunning := (hinit.reach_abandons hreach).running (eq_false_of_ne_true hafoot.uncancelled)
  exact ⟨_, hafoot.consistent, hc, ht, hinit.reach_attempts hreach, hsent, hrunning, hexploring, hrest⟩

/-! ## Crawls of prompt worlds -/

theorem start_underway (untouched : s.Untouched) (started : start world seeds s = .ok c) :
    c.Underway (poolSize world.config.connectionLimit) net seeds [] := by
  have hinit := start_outline untouched.toFresh started
  refine ⟨hinit.orderly, hinit.counted, Nat.lt_of_lt_of_le Nat.one_pos (Nat.le_max_right ..),
    start_exploring untouched started, fun phase hmem => ?_⟩
  rw [hinit.phases] at hmem
  rw [List.eq_of_mem_replicate hmem]
  trivial

/-- In a prompt world it takes a stop to interfere with a crawl. -/
theorem Completes.of_prompt {bound : Nat} {events : List Event} (shows : world.Shows net)
    (hworld : world.Prompt bound) (untouched : s.Untouched) (started : start world seeds s = .ok c)
    (unstopped : ∀ event ∈ events, event ≠ .cancel) (quiescent : (c.run world events).Quiescent world) :
    Completes net seeds (c.run world events) :=
  .intro world s c events shows untouched started
    (undisturbed_of_prompt shows hworld (start_underway untouched started) unstopped) quiescent

/-- **A crawl of a finite network can be brought to its end**, and no schedule can put that off for ever
    (`busy_le_toil`). -/
theorem exists_completes {bound : Nat} {closure : List Endpoint} (shows : world.Shows net)
    (hworld : world.Prompt bound) (untouched : s.Untouched)
    (hsmall : poolSize world.config.connectionLimit ≤ maxQueue)
    (finite : ∀ e, net.Reachable seeds e → e ∈ closure) : ∃ c, Completes net seeds c := by
  obtain ⟨s', started, -⟩ := start_ok seeds s hsmall
  obtain ⟨events, hbusy, hquiescent⟩ :=
    comes_to_rest shows hworld (start_underway untouched started) finite
  exact ⟨_, .of_prompt shows hworld untouched started hbusy.ne_cancel hquiescent⟩

/-! ## The result of a crawl -/

/-- Two crawls that know the same endpoints in the same states and have heard as much. -/
structure SameResult (c c' : Crawl) : Prop where
  state : ∀ e, c.shared.registry.state? e = c'.shared.registry.state? e
  counts : c.shared.registry.counts = c'.shared.registry.counts
  heard : c.shared.metrics.messagesIn = c'.shared.metrics.messagesIn

theorem Ended.sameResult {h h' : History} {c' : Crawl} (hend : c.Ended net seeds h)
    (hend' : c'.Ended net seeds h') : c.SameResult c' := by
  have hstate : ∀ e, c.shared.registry.state? e = c'.shared.registry.state? e := by
    intro e
    refine Option.ext fun s => ?_
    rw [hend.state?_iff, hend'.state?_iff]
  have hgood : c.shared.registry.good.toList.Perm c'.shared.registry.good.toList := by
    refine (List.perm_ext_iff_of_nodup hend.consistent.good_nodup hend'.consistent.good_nodup).mpr fun e => ?_
    rw [hend.consistent.mem_good, hend'.consistent.mem_good, hstate]
  refine ⟨hstate, hend.consistent.counts_congr hend'.consistent hstate, ?_⟩
  rw [hend.heard_eq, hend'.heard_eq, (hgood.map _).sum_nat]

/-- **The result of a crawl does not depend on its schedule.** A crawl that is left alone until nothing can move
    any more has explored what can be reached from its seeds and classified it as the network says, and every
    other crawl of the network from these seeds ends with the same result, whatever the order of its steps, the
    limit on its connections, its clock or its nonces. -/
theorem completes_explored (h : Completes net seeds c) :
    c.Explored net seeds ∧ ∀ c', Completes net seeds c' → c.SameResult c' := by
  obtain ⟨history, hend⟩ := h.ended
  refine ⟨hend.explored, fun c' h' => ?_⟩
  obtain ⟨history', hend'⟩ := h'.ended
  exact hend.sameResult hend'

/-- The first seed announces the second, where nobody listens. -/
def gossip : List (Endpoint × List Message) :=
  [(firstSeed, [.addr [(0, .ofSocket secondSeed.socket .none)]])]

theorem gossip_plain : ∀ peer ∈ gossip, ∀ m ∈ peer.2, m.Plain := by
  intro peer hpeer m hm
  obtain rfl := List.mem_singleton.mp hpeer
  obtain rfl := List.mem_singleton.mp hm
  exact ⟨trivial, by decide⟩

theorem gossip_reachable (e : Endpoint) (h : (Network.ofPeers gossip).Reachable [firstSeed] e) :
    e ∈ [firstSeed, secondSeed] := by
  have hfirst : announcements ((Network.ofPeers gossip).said firstSeed) = [secondSeed] := by decide
  have hsecond : announcements ((Network.ofPeers gossip).said secondSeed) = [] := by decide
  induction h with
  | seed e he => exact List.mem_append_left [secondSeed] he
  | announced teller e _ he ih =>
      rcases List.mem_pair.mp ih with rfl | rfl
      · rw [hfirst] at he
        exact List.mem_cons_of_mem _ he
      · rw [hsecond] at he
        cases he

/-- It holds for a crawl from the first of two endpoints, of which the first accepts and announces the second,
    and the second refuses. -/
theorem gossip_explored : ∃ c, Completes (.ofPeers gossip) [firstSeed] c ∧
    c.Explored (.ofPeers gossip) [firstSeed] ∧
      ∀ c', Completes (.ofPeers gossip) [firstSeed] c' → c.SameResult c' := by
  have hsmall : poolSize deafWorld.config.connectionLimit ≤ maxQueue := by decide
  have untouched : Shared.Untouched { host := default } := ⟨⟨rfl, rfl⟩, rfl, rfl, rfl⟩
  obtain ⟨c, hcompletes⟩ := exists_completes (World.talking_shows deafWorld.config gossip_plain)
    (World.talking_prompt _ gossip_plain) untouched hsmall gossip_reachable
  exact ⟨c, hcompletes, completes_explored hcompletes⟩

end Crawl

end BitcoinCrawl
