import BitcoinCrawl.Proofs.Crawl.Custody
import BitcoinCrawl.Proofs.Registry.Discovery

set_option autoImplicit false

/-! # How many nodes are connecting at once

A node stops connecting when its outcome is recorded, and the worker that sent the outcome does not wait for
that. So the nodes that are connecting are those being dialed, those whose outcomes wait and those whose
dials were given up. There are never more of the first and the last together than workers; all of them
together can be more (`connecting_exceeds_pool`), and are exactly when more outcomes wait than there are
workers left over (`connecting_le_iff`). That does not happen if no worker takes another endpoint while an
outcome waits (`connecting_le_of_keepsUp`). -/

namespace BitcoinCrawl

/-- Whether the worker, once told to stop, will dial no more. -/
def WorkerPhase.isDone : WorkerPhase → Bool
  | leaving | idle | exited => true
  | _ => false

theorem WorkerPhase.isDone_of_isConnecting (phase : WorkerPhase) (h : phase.isConnecting = true) :
    phase.isDone = false := by
  cases phase <;> first | rfl | cases h

namespace Outline

variable {world : World} {size : Nat} {o o' : Outline} {h facts : History}

/-- Only a crawl that was told to stop gives up dials, and who has given one up dials no more. -/
structure Abandons (o : Outline) (h : History) : Prop where
  running : o.cancelled = false → h.abandoned = []
  done : h.abandoned.length ≤ o.phases.countP (·.isDone)

theorem Initial.abandons {seeds : List Endpoint} (_ : o.Initial size seeds) : o.Abandons [] where
  running := fun _ => rfl
  done := Nat.zero_le _

/-- A worker that comes to stand somewhere else is done at least if it was before. -/
theorem Abandons.place {i : Nat} {old : WorkerPhase} (new : WorkerPhase) (ha : o.Abandons h)
    (hi : o.phases[i]? = some old) (hdone : old.isDone = true → new.isDone = true) :
    (o.place i new).Abandons h where
  running := ha.running
  done := by
    have hcount := countP_set_add (·.isDone) new hi
    have hle := ha.done
    rw [place_phases]
    by_cases hold : old.isDone = true
    · rw [if_pos hold, if_pos (hdone hold)] at hcount
      omega
    · rw [if_neg hold] at hcount
      omega

/-- Only where a dial is given up there is more to say. -/
theorem Abandons.append (facts : History) (ha : o.Abandons h) (hquiet : facts.abandoned = []) :
    o.Abandons (h ++ facts) := by
  have hsame : History.abandoned (h ++ facts) = h.abandoned := by
    rw [History.abandoned_append, hquiet, List.append_nil]
  constructor
  · rw [hsame]
    exact ha.running
  · rw [hsame]
    exact ha.done

theorem Step.abandons (step : Step world o facts o') (ha : o.Abandons h) :
    o'.Abandons (h ++ facts) := by
  cases step with
  | rest | pass | shift | search | hand => exact { ha.append [] rfl with }
  | record outcome items front => exact { ha.append [.recorded outcome] rfl with }
  | stop => exact { ha.append [] rfl with running := fun hrunning => nomatch hrunning }
  | claim i e items hi running front =>
      -- A crawl that is not stopped has nothing abandoned to account for.
      refine ⟨(ha.append [] rfl).running, ?_⟩
      rw [(ha.append [] rfl).running running]
      exact Nat.zero_le _
  | abandon i e dial deadline hi stopped =>
      have hcount := countP_set_add (·.isDone) .leaving hi
      refine ⟨fun hrunning => ?_, ?_⟩
      · exact absurd (stopped.symm.trans hrunning) Bool.noConfusion
      · have habandoned : History.abandoned [.abandoned e] = [e] := rfl
        rw [History.abandoned_append, habandoned, List.length_append, place_phases]
        exact Nat.le_trans (Nat.add_le_add_right ha.done 1) (Nat.le_of_eq hcount.symm)
  | await i e dial deadline s seen hi timely =>
      have hplace := ha.place (.dialing e (dial.step world e s).1 deadline) hi (fun hdone => hdone)
      rcases timely with rfl | ⟨rfl, -⟩
      · exact hplace.append [] rfl
      · exact hplace.append _ rfl
  | fail i e dial deadline seen hi reason =>
      have hplace := ha.place (.reporting e (.dead e) none) hi (fun hdone => hdone)
      rcases reason with ⟨fault, rfl⟩ | ⟨rfl, -⟩
      · exact hplace.append _ rfl
      · exact hplace.append _ rfl
  | report i e outcome link hi listening =>
      cases link with
      | none => exact { (ha.place .leaving hi (fun _ => rfl)).append [.reported outcome] rfl with }
      | some link =>
          exact { (ha.place (.noting e link) hi (fun hdone => hdone)).append [.reported outcome] rfl with }
  | drop i e outcome link hi deaf =>
      cases link with
      | none => exact (ha.place .leaving hi (fun _ => rfl)).append [] rfl
      | some link => exact (ha.place (.noting e link) hi (fun hdone => hdone)).append [] rfl
  | dial i e hi =>
      exact { (ha.place (.dialing e _ _) hi (fun hdone => hdone)).append [.called e o.now] rfl with }
  | connect i e dial deadline s connected hi answer =>
      have hplace := ha.place (.reporting e (.good connected.peer) (some connected.link)) hi
        (fun hdone => hdone)
      exact hplace.append _ rfl
  | retire i queue hi kept => exact { (ha.place .exited hi (fun _ => rfl)).append [] rfl with }
  | mark i e registry hi marked =>
      exact { (ha.place (.marked e) hi (fun hdone => hdone)).append [] rfl with }
  | note i e link nonce hi =>
      exact { (ha.place (.pinging e link nonce) hi (fun hdone => hdone)).append [] rfl with }
  | serve i session session' registry hi same edit =>
      exact { (ha.place (.serving session') hi (fun hdone => hdone)).append [] rfl with }
  | leave i hi => exact { (ha.place .idle hi (fun _ => rfl)).append [] rfl with }
  | wake | skip | giveUp | hangUp => exact (ha.place _ ‹_› (fun _ => rfl)).append [] rfl
  | ping i e link link' nonce hi =>
      exact (ha.place (.pinging e link' nonce) hi (fun hdone => hdone)).append [] rfl
  | attend i e link nonce session hi same =>
      exact (ha.place (.serving session) hi (fun hdone => hdone)).append [] rfl

theorem Initial.reach_abandons {seeds : List Endpoint} (hinit : o.Initial size seeds)
    (reach : Reach world o h o') : o'.Abandons h := by
  induction reach with
  | start => exact hinit.abandons
  | step before next ih => exact next.abandons ih

/-- Dials in progress and dials given up have a worker each. -/
theorem Abandons.dialing_le (ha : o.Abandons h) (ho : o.Orderly size) :
    o.phases.countP (·.isConnecting) + h.abandoned.length ≤ size := by
  have hdone : o.phases.countP (·.isConnecting) + o.phases.countP (·.isDone) ≤ o.phases.length :=
    countP_add_le_length o.phases WorkerPhase.isDone_of_isConnecting
  have hle := ha.done
  rw [ho.pool] at hdone
  omega

/-! ## An aggregator that keeps up -/

/-- Endpoints with a worker, outcomes that wait and dials given up have a worker each. -/
def Spare (size : Nat) (o : Outline) (h : History) : Prop :=
  o.phases.countP (·.held.isSome) + o.outcomes.items.length + h.abandoned.length ≤ size

theorem Initial.spare {seeds : List Endpoint} (hinit : o.Initial size seeds) : o.Spare size [] := by
  have hle := List.countP_le_length (p := (·.held.isSome)) (l := o.phases)
  rw [hinit.phases, List.length_replicate] at hle
  unfold Spare
  rw [hinit.phases, hinit.outcomes]
  exact hle

/-- A worker comes to stand somewhere else. It may send an outcome or give up a dial if it held an endpoint
    and holds none now. -/
theorem Spare.turn {i : Nat} {old : WorkerPhase} (new : WorkerPhase) (hs : o.Spare size h)
    (hi : o.phases[i]? = some old) (hset : o'.phases = o.phases.set i new)
    (hle : (if new.held.isSome then 1 else 0) + o'.outcomes.items.length + facts.abandoned.length
      ≤ (if old.held.isSome then 1 else 0) + o.outcomes.items.length) : o'.Spare size (h ++ facts) := by
  have hcount := countP_set_add (·.held.isSome) new hi
  unfold Spare at hs ⊢
  rw [hset, History.abandoned_append, List.length_append]
  omega

/-- A worker comes to stand somewhere else, holding an endpoint only if it held one before. -/
theorem Spare.move {i : Nat} {old : WorkerPhase} (new : WorkerPhase) (hs : o.Spare size h)
    (hi : o.phases[i]? = some old) (hset : o'.phases = o.phases.set i new)
    (houtcomes : o'.outcomes = o.outcomes) (hquiet : facts.abandoned = [])
    (hheld : new.held.isSome = true → old.held.isSome = true) : o'.Spare size (h ++ facts) := by
  refine hs.turn new hi hset ?_
  rw [houtcomes, hquiet]
  by_cases hnew : new.held.isSome = true
  · rw [if_pos hnew, if_pos (hheld hnew)]
    exact Nat.le_refl _
  · rw [if_neg hnew, Nat.zero_add]
    exact Nat.le_add_left ..

/-- As long as endpoints are taken only when no outcome waits, there are workers enough. -/
theorem Step.spare (step : Step world o facts o') (ho : o.Orderly size) (ha : o.Abandons h)
    (hs : o.Spare size h)
    (hkeep : o'.queue.items.length < o.queue.items.length → o.outcomes.items = []) :
    o'.Spare size (h ++ facts) := by
  cases step with
  | rest | stop | pass | shift | search | hand =>
      rw [List.append_nil]
      exact hs
  | claim i e items hi running front =>
      -- No outcome waits and no dial was given up, so there are no more endpoints held than workers.
      have hnone : o.outcomes.items = [] := hkeep (by simp [front])
      have hle := List.countP_le_length (p := (·.held.isSome)) (l := o.phases.set i (.claimed e))
      rw [List.length_set, ho.pool] at hle
      show (o.phases.set i (.claimed e)).countP _ + o.outcomes.items.length + _ ≤ size
      rw [hnone, List.append_nil, ha.running running]
      exact hle
  | drop i e outcome link hi deaf =>
      rw [ho.listening] at deaf
      cases deaf
  | record outcome items front =>
      have hrecorded : History.abandoned [.recorded outcome] = [] := rfl
      unfold Spare at hs ⊢
      rw [front, List.length_cons] at hs
      rw [History.abandoned_append, hrecorded, List.append_nil]
      show o.phases.countP _ + items.length + _ ≤ size
      omega
  | report i e outcome link hi listening =>
      have hpushed : (o.outcomes.push outcome).items.length = o.outcomes.items.length + 1 :=
        List.length_append
      cases link with
      | none =>
          refine hs.turn .leaving hi rfl ?_
          show 0 + (o.outcomes.push outcome).items.length + 0 ≤ 1 + o.outcomes.items.length
          omega
      | some link =>
          refine hs.turn (.noting e link) hi rfl ?_
          show 0 + (o.outcomes.push outcome).items.length + 0 ≤ 1 + o.outcomes.items.length
          omega
  | await i e dial deadline s seen hi timely =>
      rcases timely with rfl | ⟨rfl, -⟩
      · exact hs.move _ hi rfl rfl rfl (fun hheld => hheld)
      · exact hs.move _ hi rfl rfl rfl (fun hheld => hheld)
  | fail i e dial deadline seen hi reason =>
      rcases reason with ⟨fault, rfl⟩ | ⟨rfl, -⟩
      · exact hs.move _ hi rfl rfl rfl (fun hheld => hheld)
      · exact hs.move _ hi rfl rfl rfl (fun hheld => hheld)
  | abandon i e dial deadline hi =>
      refine hs.turn .leaving hi rfl ?_
      show 0 + o.outcomes.items.length + 1 ≤ 1 + o.outcomes.items.length
      omega
  | skip i e fault hi => exact hs.move .idle hi rfl rfl rfl (fun _ => rfl)
  | mark i e registry hi => exact hs.move (.marked e) hi rfl rfl rfl (fun hheld => hheld)
  | dial i e hi => exact hs.move (.dialing e _ _) hi rfl rfl rfl (fun hheld => hheld)
  | connect i e dial deadline s connected hi =>
      exact hs.move (.reporting e _ _) hi rfl rfl rfl (fun hheld => hheld)
  | wake i hi => exact hs.move .idle hi rfl rfl rfl (fun hheld => hheld)
  | retire i queue hi => exact hs.move .exited hi rfl rfl rfl (fun hheld => hheld)
  | note i e link nonce hi => exact hs.move (.pinging e link nonce) hi rfl rfl rfl (fun hheld => hheld)
  | ping i e link link' nonce hi =>
      exact hs.move (.pinging e link' nonce) hi rfl rfl rfl (fun hheld => hheld)
  | attend i e link nonce session hi =>
      exact hs.move (.serving session) hi rfl rfl rfl (fun hheld => hheld)
  | giveUp i e link nonce hi => exact hs.move .leaving hi rfl rfl rfl (fun hheld => hheld)
  | serve i session session' registry hi =>
      exact hs.move (.serving session') hi rfl rfl rfl (fun hheld => hheld)
  | hangUp i session hi => exact hs.move .leaving hi rfl rfl rfl (fun hheld => hheld)
  | leave i hi => exact hs.move .idle hi rfl rfl rfl (fun hheld => hheld)

/-- The nodes that are connecting are among what has a worker. -/
theorem Spare.connecting_le (hs : o.Spare size h) (hc : o.Counted h) (ho : o.registry.Consistent) :
    o.registry.connecting ≤ size := by
  have hheld : o.phases.countP (·.isConnecting) ≤ o.phases.countP (·.held.isSome) := by
    refine List.countP_mono_left fun phase _ hconnecting => ?_
    cases phase <;> first | rfl | cases hconnecting
  rw [hc.connecting_eq ho]
  unfold Spare at hs
  omega

end Outline

namespace Crawl

variable {world : World} {seeds : List Endpoint} {s : Shared} {c : Crawl}

/-! ## A worker that is ahead of the aggregator -/

/-- The feeder fills the work queue of a single worker twice, and the worker dials both endpoints before the
    aggregator does anything. -/
def overlap : List Event :=
  List.replicate 4 (.act .feeder) ++ List.replicate 3 (.act (.worker 0)) ++
    List.replicate 3 (.act .feeder) ++ List.replicate 7 (.act (.worker 0))

/-- What `overlap` does to the registry of a crawl that was just started: two endpoints are taken and marked. -/
theorem overlap_registry {a b : Endpoint} {r₁ r₂ r₃ r₄ : Registry} (hfeeder : c.feeder = .starting)
    (hqueue : c.queue = { capacity := 1 }) (hworkers : c.workers = #[{ id := 0 }])
    (houtcomes : c.outcomes = {}) (hrunning : c.shared.cancelled = false)
    (hremotes : world.remotes = [])
    (htakeA : c.shared.registry.takeNext = { registry := r₁, endpoint := some a })
    (hmarkA : r₁.markConnecting a = .ok r₂)
    (htakeB : r₂.takeNext = { registry := r₃, endpoint := some b })
    (hmarkB : r₃.markConnecting b = .ok r₄) : (c.run world overlap).shared.registry = r₄ := by
  cases c
  dsimp only at *
  subst hfeeder hqueue hworkers houtcomes
  simp [overlap, List.replicate, run, apply, step, stepFeeder, stepWorker, stepIdle, stepClaimed,
    stepMarked, stepDialing, stepReporting, stepLeaving, giveUp, proceed, place, report,
    Shared.report, Shared.reportAll, Shared.takeNext, WorkQueue.hasRoom, WorkQueue.push, Dial.step,
    Dial.answered, World.remote, Remote.absent, hremotes, hrunning, htakeA, hmarkA, htakeB, hmarkB]

/-- So two nodes are connecting then: the outcome of the first is not recorded, and the second is being dialed. -/
theorem deafWorld_overlap : ∃ c, start deafWorld [firstSeed, secondSeed] { host := default } = .ok c ∧
    (c.run deafWorld overlap).shared.registry.counts.connecting = 2 := by
  have hr := Registry.consistent_empty.perform (.add [firstSeed, secondSeed])
  obtain ⟨hqueue, hnone⟩ := Registry.add_pair (show firstSeed ≠ secondSeed by decide)
  -- Taking and marking the first seed leaves the second where it can be taken and marked in turn.
  obtain ⟨r₁, r₂, htakeA, hmarkA, hr₂, hqueue₂, hcount₂, -⟩ := hr.take_mark hqueue
  obtain ⟨r₃, r₄, htakeB, hmarkB, -, -, hcount₄, -⟩ := hr₂.take_mark hqueue₂
  obtain ⟨s, started, running⟩ := @start_ok deafWorld [firstSeed, secondSeed] { host := default } (by decide)
  have hregistry : s.registry = _ := (start_outline ⟨rfl, rfl⟩ started).registry
  rw [← hregistry] at htakeA
  refine ⟨unbegun 1 s, started, ?_⟩
  have hrun := @overlap_registry deafWorld (unbegun 1 s) firstSeed secondSeed r₁ r₂ r₃ r₄ rfl rfl
    (workers_unbegun_one s) rfl running rfl htakeA hmarkA htakeB hmarkB
  rw [hrun]
  show r₄.connecting = 2
  rw [hcount₄, hcount₂, hnone]

/-! ## The account of a crawl -/

/-- Workers that have marked an endpoint and have not sent its outcome. -/
def dialers (c : Crawl) : Nat := c.workers.toList.countP (·.phase.isConnecting)

/-- The nodes that are connecting in a crawl with a pool of some size, given what has been seen of it. -/
structure ConnectingAccount (size : Nat) (c : Crawl) (h : History) : Prop where
  connecting_eq : c.shared.registry.counts.connecting
    = c.dialers + c.outcomes.items.length + h.abandoned.length
  dialers_le : c.dialers + h.abandoned.length ≤ size
  /-- There are no more of them than workers exactly if no more outcomes wait than workers are left over. -/
  bounded_iff : c.shared.registry.counts.connecting ≤ size ↔
    c.outcomes.items.length ≤ size - (c.dialers + h.abandoned.length)

/-- **When the number of connecting nodes is bounded by the pool.** They are the nodes being dialed, those
    whose dials were given up and those whose outcomes are not recorded yet. Only the last can be too
    many. -/
theorem connecting_le_iff (fresh : s.Fresh) (started : start world seeds s = .ok c)
    (events : List Event) :
    ConnectingAccount (poolSize world.config.connectionLimit) (c.run world events)
      (c.chronicle world events) := by
  have hinit := start_outline fresh started
  have hreach := reach_run world c events
  obtain ⟨ho, hc⟩ := hinit.reach hreach
  have hdialers : (c.run world events).outline.phases.countP (·.isConnecting)
      = (c.run world events).dialers := List.countP_map ..
  have hle := (hinit.reach_abandons hreach).dialing_le ho
  have heq := hc.connecting_eq ho.consistent
  rw [hdialers] at hle heq
  have heq' : (c.run world events).shared.registry.counts.connecting = _ := heq
  refine ⟨heq', hle, ?_⟩
  rw [heq']
  show _ + (c.run world events).outcomes.items.length + _ ≤ _ ↔ _
  omega

/-- It holds for a crawl with two nodes connecting. -/
theorem deafWorld_connecting :
    ∃ c, start deafWorld [firstSeed, secondSeed] { host := default } = .ok c ∧
      (c.run deafWorld overlap).shared.registry.counts.connecting = 2 ∧
      ConnectingAccount 1 (c.run deafWorld overlap) (c.chronicle deafWorld overlap) := by
  obtain ⟨c, started, htwo⟩ := deafWorld_overlap
  exact ⟨c, started, htwo, connecting_le_iff ⟨rfl, rfl⟩ started overlap⟩

/-- Whether in the course of some events an endpoint is taken from the work queue only when no outcome
    waits. -/
def KeepsUp (world : World) (c : Crawl) : List Event → Prop
  | [] => True
  | event :: events =>
    ((c.apply world event).queue.items.length < c.queue.items.length → c.outcomes.items = []) ∧
      (c.apply world event).KeepsUp world events

theorem spare_run {size : Nat} {h : History} {events : List Event} (ho : c.outline.Orderly size)
    (ha : c.outline.Abandons h) (hs : c.outline.Spare size h) (hkeep : c.KeepsUp world events) :
    (c.run world events).outline.Spare size (h ++ c.chronicle world events) := by
  induction events generalizing c h with
  | nil =>
      rw [chronicle, List.append_nil]
      exact hs
  | cons event events ih =>
      have hstep := apply_outline world c event
      rw [chronicle, ← List.append_assoc]
      exact ih (hstep.orderly ho) (hstep.abandons ha) (hstep.spare ho ha hs hkeep.1) hkeep.2

/-- With an aggregator that keeps up there are never more nodes connecting than workers. -/
theorem connecting_le_of_keepsUp (fresh : s.Fresh) (started : start world seeds s = .ok c)
    {events : List Event} (hkeep : c.KeepsUp world events) :
    (c.run world events).shared.registry.counts.connecting ≤ poolSize world.config.connectionLimit := by
  have hinit := start_outline fresh started
  obtain ⟨ho, hc⟩ := hinit.reach (reach_run world c events)
  exact (spare_run hinit.orderly hinit.abandons hinit.spare hkeep).connecting_le hc ho.consistent

/-- The limit on connections does not bound the number of connecting nodes: with a single worker two
    endpoints can be connecting. -/
theorem connecting_exceeds_pool :
    ¬ ∀ (world : World) (seeds : List Endpoint) (s : Shared) (c : Crawl) (events : List Event),
      1 ≤ world.config.connectionLimit → s.Fresh → start world seeds s = .ok c →
      (c.run world events).shared.registry.counts.connecting ≤ world.config.connectionLimit := by
  intro hall
  obtain ⟨c, started, htwo⟩ := deafWorld_overlap
  have hle := hall deafWorld _ _ c overlap Nat.one_pos ⟨rfl, rfl⟩ started
  rw [htwo] at hle
  exact absurd hle (by decide)

end Crawl

end BitcoinCrawl
