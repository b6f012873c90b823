import BitcoinCrawl.Proofs.Crawl.Frame
import BitcoinCrawl.Proofs.Crawl.Rounds
import BitcoinCrawl.Proofs.Crawl.Verdict
import BitcoinCrawl.Proofs.Registry.History

set_option autoImplicit false

/-! # A clean shutdown loses nothing

At the end of a crawl three tasks wait for each other: the aggregator goes away when no worker is left and all
outcomes are recorded, only then does the publisher look at the good nodes, and it looks while no save runs.
So its save is the last one, and of the registry as it stays (`Backstage.Faithful`). The main theorem
(`shutdown_lossless`) says so of every order of steps after which no task is left. -/

namespace BitcoinCrawl

variable {world : World}

/-! ## Outcomes in the registry -/

namespace Outcome

/-- The peer of a good outcome. -/
def peer? : Outcome → Option Peer
  | good peer => some peer
  | dead _ => none

/-- The registry shows an outcome. -/
def Shown (r : Registry) (outcome : Outcome) : Prop :=
  ∃ n, r.node? outcome.endpoint = some n ∧ n.state = outcome.verdict ∧ n.peer = outcome.peer?

theorem shown_perform {r : Registry} {outcome : Outcome} (hc : r.Consistent)
    (dialed : r.state? outcome.endpoint = some .connecting) : outcome.Shown (r.perform outcome.call) := by
  obtain ⟨n, hn, hs⟩ := Registry.state?_eq_some.mp dialed
  cases outcome with
  | good peer =>
      have hok : r.markGood peer.endpoint peer = .ok _ := Registry.markGood_eq_ok.mpr ⟨n, hn, hs, rfl⟩
      refine ⟨{ n with state := .good, peer := some peer }, ?_, rfl, rfl⟩
      simp only [Registry.perform, call, hok]
      exact (Registry.node?_put r peer.endpoint peer.endpoint _).trans (if_pos rfl)
  | dead e =>
      have hok : r.markDead e = .ok _ := Registry.markDead_eq_ok.mpr ⟨n, hn, hs, rfl⟩
      refine ⟨{ n with state := .dead }, ?_, rfl, ?_⟩
      · simp only [Registry.perform, call, hok]
        exact (Registry.node?_put r e e _).trans (if_pos rfl)
      · have hpeer := (hc.peer_iff e n hn).not.mpr (by rw [hs]; simp)
        exact Option.not_isSome_iff_eq_none.mp hpeer

/-- What the registry shows of a visit is final. -/
theorem Shown.performAll {r : Registry} {outcome : Outcome} (h : outcome.Shown r) (hc : r.Consistent)
    (calls : List Registry.Call) : outcome.Shown (r.performAll calls) := by
  obtain ⟨n, hn, hs, hpeer⟩ := h
  have terminal : n.state.isTerminal = true := by
    rw [hs]
    cases outcome <;> rfl
  obtain ⟨n', hn', hs', hpeer'⟩ := hc.performAll_terminal calls hn terminal
  exact ⟨n', hn', hs'.trans hs, hpeer'.trans hpeer⟩

end Outcome

namespace Outline

variable {o o' : Outline} {size : Nat} {h facts : History}

theorem Step.shown (step : Step world o facts o') (ho : o.Orderly size) (hc : o.Counted h) :
    ∀ outcome ∈ facts.recorded, outcome.Shown o'.registry := by
  cases step with
  | record outcome items front =>
      intro outcome' hmem
      obtain rfl := List.mem_singleton.mp hmem
      exact Outcome.shown_perform ho.consistent (hc.sent (front ▸ List.mem_cons_self))
  | await i e dial deadline s seen hi timely =>
      rcases timely with rfl | ⟨rfl, -⟩ <;> exact fun _ hmem => absurd hmem List.not_mem_nil
  | fail i e dial deadline seen hi reason =>
      rcases reason with ⟨fault, rfl⟩ | ⟨rfl, -⟩ <;> exact fun _ hmem => absurd hmem List.not_mem_nil
  | _ => exact fun _ hmem => absurd hmem List.not_mem_nil

theorem Initial.reach_shown {seeds : List Endpoint} (hinit : o.Initial size seeds)
    (reach : Reach world o h o') : ∀ outcome ∈ h.recorded, outcome.Shown o'.registry := by
  induction reach with
  | start => exact nofun
  | step before next ih =>
      obtain ⟨ho, hc⟩ := hinit.reach before
      intro outcome hmem
      rw [History.recorded_append, List.mem_append] at hmem
      rcases hmem with hearlier | hnow
      · obtain ⟨calls, hcalls⟩ := next.registry
        rw [hcalls]
        exact (ih outcome hearlier).performAll ho.consistent calls
      · exact next.shown ho hc outcome hnow

end Outline

/-! ## What is saved -/

namespace Backstage

/-- Where the publisher stands says what has been saved of the given records. -/
def Staged (b : Backstage) (records : List NodeRecord) : Prop :=
  match b.publisher with
  | .starting | .ticking _ | .settling => True
  | .storing _ => records ≠ []
  | .flushing => b.settled = .announced
  | .finishing => b.settled = .announced ∧ records ≠ [] ∧
      (b.lock = .saving records ∨ b.lock = .free ∧ b.archive.saves.back? = some records)
  | .exited => b.settled = .announced ∧ b.lock = .free ∧
      (records ≠ [] → b.archive.saves.back? = some records)
  | .crashed => False

/-- What ends a crawl goes on in order while the records of the good nodes are the given ones. -/
structure Faithful (b : Backstage) (records : List NodeRecord) : Prop where
  announced : b.settled = .announced ↔ b.aggregator = .exited
  awaited : b.settled ≠ .abandoned
  own : b.lock ≠ .taken
  unsaved : records = [] → b.archive.saves = #[] ∧ b.lock = .free
  staged : b.Staged records

variable {b : Backstage} {records : List NodeRecord}

/-- Records change only before all outcomes are recorded, and are not lost. -/
theorem Faithful.grow {records' : List NodeRecord} (h : b.Faithful records)
    (kept : b.settled = .announced → records' = records) (more : records ≠ [] → records' ≠ []) :
    b.Faithful records' := by
  by_cases hsettled : b.settled = .announced
  · rwa [kept hsettled]
  · refine { h with unsaved := fun hnone => h.unsaved (by_contra fun hsome => more hsome hnone), staged := ?_ }
    have hstaged := h.staged
    obtain ⟨aggregator, settled, publisher, lock, archive⟩ := b
    cases publisher with
    | storing => exact more hstaged
    | finishing | exited => exact absurd hstaged.1 hsettled
    | _ => exact hstaged

/-- Of the saves that end only the last one matters, and that is of the records there are. -/
theorem Staged.saved {saved : List NodeRecord} {archive : Archive} (h : b.Staged records)
    (hlock : b.lock = .saving saved) (hlast : archive.saves.back? = some saved) :
    ({ b with lock := .free, archive } : Backstage).Staged records := by
  obtain ⟨aggregator, settled, publisher, lock, old⟩ := b
  cases publisher with
  | finishing =>
      obtain ⟨hsettled, hsome, hsave⟩ := h
      rcases hsave with hsaving | ⟨hfree, -⟩
      · cases hlock.symm.trans hsaving
        exact ⟨hsettled, hsome, .inr ⟨rfl, hlast⟩⟩
      · cases hlock.symm.trans hfree
  | exited => cases hlock.symm.trans h.2.1
  | _ => exact h

/-- The aggregator begins. -/
theorem Faithful.begin (h : b.Faithful records) (running : b.aggregator ≠ .exited) :
    ({ b with aggregator := .recording } : Backstage).Faithful records :=
  { h with announced := ⟨fun hsettled => absurd (h.announced.mp hsettled) running, nofun⟩ }

/-- The aggregator goes away and says so. -/
theorem Faithful.announce (h : b.Faithful records) :
    ({ b with aggregator := .exited, settled := .announced } : Backstage).Faithful records := by
  refine { h with announced := ⟨fun _ => rfl, fun _ => rfl⟩, awaited := nofun, staged := ?_ }
  have hstaged := h.staged
  obtain ⟨aggregator, settled, publisher, lock, archive⟩ := b
  cases publisher with
  | flushing => rfl
  | finishing | exited => exact ⟨rfl, hstaged.2⟩
  | _ => exact hstaged

/-- The publisher goes on without starting a save. -/
theorem Faithful.proceed (publisher : Publisher) (h : b.Faithful records)
    (staged : ({ b with publisher } : Backstage).Staged records) :
    ({ b with publisher } : Backstage).Faithful records :=
  { h with staged }

end Backstage

namespace Crawl

variable {c : Crawl} {p : Persistence}

/-- Records of good nodes as they are now. -/
abbrev records (c : Crawl) : List NodeRecord := c.shared.registry.goodRecords

/-- A save of the records, if there are any, can start when no other runs. -/
theorem faithful_save {publisher : Publisher} (h : c.backstage.Faithful c.records) (some : c.records ≠ [])
    (staged : ({ c.backstage with publisher, lock := .saving c.records } : Backstage).Staged c.records) :
    ({ c.backstage with publisher, lock := .saving c.records } : Backstage).Faithful c.records where
  announced := h.announced
  awaited := h.awaited
  own := nofun
  unsaved := fun hnone => absurd hnone some
  staged := staged

theorem faithful_stepTicking {next : Nat} (hc : c.shared.registry.Consistent)
    (h : c.backstage.Faithful c.records) : (c.stepTicking world next).1.backstage.Faithful c.records := by
  unfold stepTicking
  split_ifs with hstop hdue hgood
  · exact h.proceed _ trivial
  · have hserved := h.proceed (.storing (tickAfter world.config.snapshotInterval next c.shared.now))
      (hc.goodRecords_of_counts hgood)
    rw [← publish_backstage] at hserved
    exact hserved
  · have hserved := h.proceed (.ticking (tickAfter world.config.snapshotInterval next c.shared.now))
      trivial
    rw [← publish_backstage] at hserved
    exact hserved
  · exact h

theorem faithful_stepStoring {next : Nat} (h : c.backstage.Faithful c.records)
    (hpublisher : c.publisher = .storing next) :
    (c.stepStoring world next).1.backstage.Faithful c.records := by
  have hsome : c.records ≠ [] := by
    have hstaged := h.staged
    simpa only [Backstage.Staged, backstage, hpublisher] using hstaged
  unfold stepStoring
  dsimp only
  split
  · exact h.proceed _ trivial
  · exact faithful_save h hsome trivial
  · exact h.proceed _ trivial

theorem faithful_stepSettling (h : c.backstage.Faithful c.records) :
    c.stepSettling.1.backstage.Faithful c.records := by
  unfold stepSettling
  split
  · exact h
  · rename_i hsettled
    exact h.proceed _ hsettled
  · rename_i hsettled
    exact absurd hsettled h.awaited

/-- The last save is of the records that are there when all outcomes are recorded. -/
theorem faithful_stepFlushing (persistence : world.persistence = some p)
    (h : c.backstage.Faithful c.records) (hpublisher : c.publisher = .flushing) :
    (c.stepFlushing world).1.backstage.Faithful c.records := by
  have hsettled : c.settled = .announced := by
    have hstaged := h.staged
    simpa only [Backstage.Staged, backstage, hpublisher] using hstaged
  unfold stepFlushing
  rw [persistence]
  dsimp only
  split
  · rename_i hnone
    cases hnone
  · rename_i hfree
    split_ifs with hempty
    · exact h.proceed _ ⟨hsettled, hfree, fun hsome => absurd (List.isEmpty_iff.mp hempty) hsome⟩
    · have hsome : c.records ≠ [] := fun hnone => hempty (List.isEmpty_iff.mpr hnone)
      exact faithful_save h hsome ⟨hsettled, hsome, .inl rfl⟩
  · exact h

theorem faithful_stepFinishing (h : c.backstage.Faithful c.records) (hpublisher : c.publisher = .finishing) :
    c.stepFinishing.1.backstage.Faithful c.records := by
  have hstaged := h.staged
  simp only [Backstage.Staged, backstage, hpublisher] at hstaged
  obtain ⟨hsettled, -, hsave⟩ := hstaged
  unfold stepFinishing
  split
  · exact h
  · rename_i hidle
    rcases hsave with hsaving | ⟨hfree, hsaved⟩
    · exact absurd hsaving (hidle _)
    · exact h.proceed _ ⟨hsettled, hfree, fun _ => hsaved⟩

theorem faithful_stepPublisher (persistence : world.persistence = some p)
    (ticks : 0 < world.config.snapshotInterval) (hc : c.shared.registry.Consistent)
    (h : c.backstage.Faithful c.records) : (c.stepPublisher world).1.backstage.Faithful c.records := by
  unfold stepPublisher
  cases hpublisher : c.publisher with
  | starting =>
      simp only [if_neg (Nat.pos_iff_ne_zero.mp ticks)]
      exact h.proceed _ trivial
  | ticking next => exact faithful_stepTicking hc h
  | storing next => exact faithful_stepStoring h hpublisher
  | settling => exact faithful_stepSettling h
  | flushing => exact faithful_stepFlushing persistence h hpublisher
  | finishing => exact faithful_stepFinishing h hpublisher
  | exited | crashed => exact h

theorem save_saves (persistence : Persistence) (records : List NodeRecord) (archive : Archive) :
    (save persistence records archive).1.saves = archive.saves.push records := by
  unfold save
  dsimp only
  split
  · rfl
  · rfl
  · split <;> rfl

theorem faithful_stepSaver (persistence : world.persistence = some p)
    (h : c.backstage.Faithful c.records) : (c.stepSaver world).1.backstage.Faithful c.records := by
  unfold stepSaver
  rw [persistence]
  cases hlock : c.lock with
  | free | taken => exact h
  | saving saved =>
      refine ⟨h.announced, h.awaited, nofun, fun hnone => ?_, h.staged.saved hlock ?_⟩
      · have hfree := (h.unsaved hnone).2
        exact absurd (hlock.symm.trans hfree) nofun
      · rw [save_saves, Array.back?_push]

/-! ## Every step -/

/-- A crawl comes to its end in order. -/
structure Ending (c : Crawl) : Prop where
  consistent : c.shared.registry.Consistent
  faithful : c.backstage.Faithful c.records
  /-- The aggregator goes away when there is nothing left for it to do. -/
  drained : c.aggregator = .exited → c.workersGone = true ∧ c.outcomes.items = []

theorem workersGone_eq (c : Crawl) : c.workersGone = c.outline.phases.all (·.isExited) := by
  simp only [workersGone, outline, ← Array.all_toList, List.all_map]
  rfl

/-- A worker that has gone away does nothing. -/
theorem stepWorker_of_gone (gone : c.workersGone = true) (i : Nat) : (c.stepWorker world i).1 = c := by
  unfold stepWorker
  cases hi : c.workers[i]? with
  | none => rfl
  | some worker =>
      have hexited := (Array.all_eq_true_iff_forall_mem.mp gone) worker (Array.mem_of_getElem? hi)
      cases hphase : worker.phase <;> rw [hphase] at hexited <;> try cases hexited
      simp only [hphase]

theorem apply_consistent (world : World) (hc : c.shared.registry.Consistent) (event : Event) :
    (c.apply world event).shared.registry.Consistent ∧
      (c.records ≠ [] → (c.apply world event).records ≠ []) := by
  obtain ⟨calls, hcalls⟩ := (apply_outline world c event).registry
  have hregistry : (c.apply world event).shared.registry = c.shared.registry.performAll calls := hcalls
  refine ⟨?_, fun hsome => ?_⟩
  · rw [hregistry]
    exact hc.performAll calls
  · rw [records, hregistry]
    exact hc.goodRecords_ne_nil calls hsome

/-- What leaves the outline alone leaves it to the publisher and the saver what a crawl comes to. -/
theorem Ending.of_backstage {c' : Crawl} (hend : c.Ending) (same : c'.outline = c.outline)
    (aggregator : c'.aggregator = c.aggregator) (faithful : c'.backstage.Faithful c.records) : c'.Ending := by
  have hregistry : c'.shared.registry = c.shared.registry := congrArg Outline.registry same
  refine ⟨?_, ?_, fun hexited => ?_⟩
  · rw [hregistry]
    exact hend.consistent
  · rwa [records, hregistry]
  · obtain ⟨hgone, hempty⟩ := hend.drained (aggregator ▸ hexited)
    refine ⟨?_, ?_⟩
    · rwa [workersGone_eq, same, ← workersGone_eq]
    · exact (congrArg (·.outcomes.items) same).trans hempty

theorem Ending.stepWorker (hend : c.Ending) (i : Nat) : (c.stepWorker world i).1.Ending := by
  obtain ⟨hc, hmore⟩ := apply_consistent world hend.consistent (.act (.worker i))
  by_cases hexited : c.aggregator = .exited
  · rw [stepWorker_of_gone (hend.drained hexited).1]
    exact hend
  · have hplaced := (placed_stepWorker world i c).backstage
    have haggregator : (c.stepWorker world i).1.aggregator = c.aggregator :=
      congrArg Backstage.aggregator hplaced
    refine ⟨hc, ?_, fun hgone => absurd (haggregator ▸ hgone) hexited⟩
    rw [hplaced]
    exact hend.faithful.grow (fun hsettled => absurd (hend.faithful.announced.mp hsettled) hexited) hmore

theorem Ending.stepFeeder (world : World) (hend : c.Ending) : c.stepFeeder.1.Ending := by
  have hc := (apply_consistent world hend.consistent (.act .feeder)).1
  have hfed := fed_stepFeeder c
  have haggregator : c.stepFeeder.1.aggregator = c.aggregator := congrArg Backstage.aggregator hfed.backstage
  have hsame : c.stepFeeder.1.records = c.records := by
    rcases hfed.registry with hkept | htaken
    · rw [records, hkept]
    · rw [records, htaken, hend.consistent.goodRecords_takeNext]
  refine ⟨hc, ?_, fun hexited => ?_⟩
  · rw [hfed.backstage, hsame]
    exact hend.faithful
  · rw [workersGone, hfed.workers, hfed.outcomes]
    exact hend.drained (haggregator ▸ hexited)

theorem Ending.stepAggregator (world : World) (hend : c.Ending) : c.stepAggregator.1.Ending := by
  cases haggregator : c.aggregator with
  | starting =>
      have hrunning : c.aggregator ≠ .exited := by simp [haggregator]
      simp only [Crawl.stepAggregator, haggregator]
      exact ⟨hend.consistent, hend.faithful.begin hrunning, fun hexited => by cases hexited⟩
  | recording =>
      have hrunning : c.aggregator ≠ .exited := by simp [haggregator]
      cases hitems : c.outcomes.items with
      | cons outcome items =>
          have hstep : c.stepAggregator.1
              = { c with shared := c.shared.settle outcome, outcomes := { c.outcomes with items } } := by
            simp only [Crawl.stepAggregator, haggregator, hitems]
          obtain ⟨hc, hmore⟩ := apply_consistent world hend.consistent (.act .aggregator)
          simp only [Crawl.apply, Crawl.step, hstep] at hc hmore
          rw [hstep]
          refine ⟨hc, ?_, fun hexited => absurd hexited hrunning⟩
          exact hend.faithful.grow (fun hsettled => absurd (hend.faithful.announced.mp hsettled) hrunning) hmore
      | nil =>
          simp only [Crawl.stepAggregator, haggregator, hitems]
          split_ifs with hgone
          · exact ⟨hend.consistent, hend.faithful.announce, fun _ => ⟨hgone, hitems⟩⟩
          · exact hend
  | exited =>
      simp only [Crawl.stepAggregator, haggregator]
      exact hend

theorem Ending.apply (persistence : world.persistence = some p) (ticks : 0 < world.config.snapshotInterval)
    (hend : c.Ending) (event : Event) : (c.apply world event).Ending := by
  cases event with
  | cancel => exact ⟨hend.consistent, hend.faithful, hend.drained⟩
  | pass t => exact ⟨hend.consistent, hend.faithful, hend.drained⟩
  | act actor =>
      cases actor with
      | worker i => exact hend.stepWorker i
      | feeder => exact hend.stepFeeder world
      | aggregator => exact hend.stepAggregator world
      | publisher =>
          have hrecording := c.stepPublisher_recording world
          exact hend.of_backstage (c.stepPublisher_outline world) (congrArg Prod.fst hrecording)
            (faithful_stepPublisher persistence ticks hend.consistent hend.faithful)
      | saver =>
          exact hend.of_backstage (c.stepSaver_outline world) (c.stepSaver_aggregator world)
            (faithful_stepSaver persistence hend.faithful)
      | consumer =>
          have hsame := c.stepConsumer_backstage
          exact hend.of_backstage c.stepConsumer_outline (congrArg Backstage.aggregator hsame)
            (hsame.symm ▸ hend.faithful)

theorem Ending.run (persistence : world.persistence = some p) (ticks : 0 < world.config.snapshotInterval)
    (hend : c.Ending) (events : List Event) : (c.run world events).Ending := by
  induction events generalizing c with
  | nil => exact hend
  | cons event rest ih => exact ih (hend.apply persistence ticks event)

/-- A crawl begins with nothing saved, and nothing to be saved. -/
theorem start_ending {seeds : List Endpoint} {s : Shared} (hc : s.registry.Consistent)
    (started : start world seeds s = .ok c) : c.Ending := by
  have hregistry := discover_registry seeds s
  simp only [start] at started
  split_ifs at started
  cases started
  constructor
  case consistent =>
    show (s.discover seeds).1.registry.Consistent
    rw [hregistry]
    exact hc.perform (.add seeds)
  case faithful =>
    refine ⟨?_, ?_, ?_, fun _ => ⟨rfl, rfl⟩, trivial⟩ <;> simp [backstage]
  case drained =>
    intro hexited
    cases hexited

/-! ## When no task is left -/

/-- No task is left exactly if each has gone away, though the publisher may have crashed. -/
theorem unfinished_eq_zero (h : c.unfinished = 0) : c.workersGone = true ∧ c.aggregator = .exited ∧
    (c.publisher = .exited ∨ c.publisher = .crashed) := by
  obtain ⟨⟨⟨-, hnone⟩, haggregator⟩, hpublisher⟩ := by
    simpa only [unfinished, Nat.add_eq_zero_iff] using h
  refine ⟨?_, ?_, ?_⟩
  · rw [Array.size_eq_zero_iff, Array.filter_eq_empty_iff] at hnone
    rw [workersGone, Array.all_eq_true_iff_forall_mem]
    exact fun worker hmem => by simpa using hnone worker hmem
  · split at haggregator
    · assumption
    · cases haggregator
  · split at hpublisher
    · exact .inl ‹_›
    · exact .inr ‹_›
    · cases hpublisher

/-- What a crawl comes to that loses nothing of what has been seen of it. -/
structure Lossless (c : Crawl) (h : History) : Prop where
  /-- Every outcome that a worker sent is recorded, in order, and shows in the registry. -/
  recorded : h.recorded = h.reported
  shown : ∀ outcome ∈ h.reported, outcome.Shown c.shared.registry
  /-- No visit is counted as active any more. -/
  idle : c.shared.metrics.active = 0
  /-- No save runs any more. -/
  unlocked : c.lock = .free
  /-- If there are good nodes, the last save is of all of them as they are. -/
  saved : (∃ e, c.shared.registry.state? e = some .good) → c.archive.saves.back? = some c.records
  unsaved : (¬ ∃ e, c.shared.registry.state? e = some .good) → c.archive.saves = #[]

theorem Ending.lossless {size : Nat} {seeds : List Endpoint} {o : Outline} {h : History}
    (hinit : o.Initial size seeds) (reach : Outline.Reach world o h c.outline) (hend : c.Ending)
    (left : c.unfinished = 0) : c.Lossless h := by
  obtain ⟨hgone, haggregator, hpublisher⟩ := unfinished_eq_zero left
  obtain ⟨ho, -⟩ := hinit.reach reach
  have hsent := hinit.reach_outcomes reach
  have hempty : c.outline.outcomes.items = [] := (hend.drained haggregator).2
  rw [hempty, List.append_nil] at hsent
  have hstaged := hend.faithful.staged
  have hexited : c.publisher = .exited := by
    refine hpublisher.resolve_right fun hcrashed => ?_
    simp only [Backstage.Staged, backstage, hcrashed] at hstaged
  simp only [Backstage.Staged, backstage, hexited] at hstaged
  obtain ⟨-, hfree, hsaved⟩ := hstaged
  refine ⟨hsent.symm, fun outcome hmem => hinit.reach_shown reach outcome (hsent ▸ hmem), ?_, hfree, ?_, ?_⟩
  · have hactive := ho.active
    rw [List.countP_eq_zero.mpr] at hactive
    · exact hactive
    · intro phase hmem
      rw [workersGone_eq] at hgone
      have hexited := List.all_eq_true.mp hgone phase hmem
      cases phase <;> first | exact Bool.false_ne_true | cases hexited
  · rintro ⟨e, hgood⟩
    exact hsaved fun hnone => hend.consistent.goodRecords_eq_nil.mp hnone e hgood
  · intro hnone
    refine (hend.faithful.unsaved (hend.consistent.goodRecords_eq_nil.mpr fun e hgood => ?_)).1
    exact hnone ⟨e, hgood⟩

/-! ## Shutdown -/

/-- A shutdown without a fault is an order of events after which no task is left. -/
theorem shutdown_run {grace : Millis} (clean : (c.shutdown world grace).fault = none) :
    ∃ events, (c.shutdown world grace).crawl = (c.run world events).report (.debug "Crawl stopped") ∧
      (c.run world events).unfinished = 0 := by
  obtain ⟨events, hevents⟩ := settle_run world c.cancel.tasks (some (c.shared.now + grace)) c.cancel
  have hrun : c.run world (.cancel :: events) = c.cancel.settle world c.tasks (some (c.shared.now + grace)) :=
    hevents.symm
  simp only [shutdown, ← hrun] at clean ⊢
  split_ifs at clean ⊢ with hleft
  exact ⟨.cancel :: events, rfl, hleft⟩

variable {s : Shared} {seeds known : List Endpoint}

/-- **A clean shutdown loses nothing.** Let a crawl have somewhere to save to. In whatever order its tasks, the
    saves in the background, a stop and the passing of time come: once no task is left, every outcome that was
    sent is recorded, no visit is active, no save runs, and the last one was of the good nodes as the registry
    has them, if it has any. So it is for a crawl that is shut down in time, whenever that is. -/
theorem shutdown_lossless (unvisited : s.registry = Registry.perform {} (.add known))
    (idle : s.metrics.active = 0) (persistence : world.persistence = some p)
    (ticks : 0 < world.config.snapshotInterval) (started : start world seeds s = .ok c) (events : List Event) :
    ((c.run world events).unfinished = 0 → Lossless (c.run world events) (c.chronicle world events)) ∧
      ∀ grace, ((c.run world events).shutdown world grace).fault = none → ∃ more,
        ((c.run world events).shutdown world grace).crawl
          = (c.run world (events ++ more)).report (.debug "Crawl stopped") ∧
        Lossless ((c.run world events).shutdown world grace).crawl (c.chronicle world (events ++ more)) := by
  have hinit := start_initial known unvisited idle started
  have hknown : s.registry.Consistent := by
    rw [unvisited]
    exact Registry.consistent_empty.perform (.add known)
  have hend := (start_ending hknown started).run persistence ticks
  have hlossless : ∀ events, (c.run world events).unfinished = 0 →
      Lossless (c.run world events) (c.chronicle world events) :=
    fun events => (hend events).lossless hinit (reach_run world c events)
  refine ⟨hlossless events, fun grace clean => ?_⟩
  obtain ⟨more, hcrawl, hleft⟩ := shutdown_run clean
  rw [← run_append] at hcrawl hleft
  have hafter := hlossless (events ++ more) hleft
  -- All that the shutdown adds is a line of the log.
  exact ⟨more, hcrawl, hcrawl ▸ { hafter with }⟩

/-- It holds for a crawl that is shut down while its worker is in a session, whose peer is reported but not yet
    recorded. All tasks go away in time, and the node is saved once. -/
theorem talkingWorld_lossless : ∃ c events, start talkingWorld [firstSeed, secondSeed] { host := default } = .ok c ∧
    ((c.run talkingWorld events).shutdown talkingWorld 1000).fault = none ∧
    ((c.run talkingWorld events).shutdown talkingWorld 1000).crawl.shared.registry.state? firstSeed = some .good ∧
    ((c.run talkingWorld events).shutdown talkingWorld 1000).crawl.archive.saves
      = #[((c.run talkingWorld events).shutdown talkingWorld 1000).crawl.records] ∧
    ∃ more,
      ((c.run talkingWorld events).shutdown talkingWorld 1000).crawl
        = (c.run talkingWorld (events ++ more)).report (.debug "Crawl stopped") ∧
      Lossless ((c.run talkingWorld events).shutdown talkingWorld 1000).crawl
        (c.chronicle talkingWorld (events ++ more)) := by
  obtain ⟨c, c', started, -, hgoes, hattends⟩ := talkingWorld_attends
  obtain ⟨n, rfl, -⟩ := hgoes.alone
  rw [alone, ← run_append] at hattends
  have ticks : 0 < talkingWorld.config.snapshotInterval := by decide
  obtain ⟨clean, hgood, hsaved⟩ := hattends.shutdown rfl rfl ticks (show 0 < 1000 by decide)
  obtain ⟨-, hshutdown⟩ := @shutdown_lossless talkingWorld c _ _ _ [] rfl rfl rfl ticks started
    (taking ++ List.replicate n (.act (.worker 0)))
  exact ⟨c, _, started, clean, hgood, hsaved, hshutdown 1000 clean⟩

end Crawl

end BitcoinCrawl
