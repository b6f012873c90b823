import BitcoinCrawl.Proofs.Crawl.TalkerVisits

set_option autoImplicit false

/-! # How workers come to an end

Once a crawl is stopped, every step of a worker of its own brings it nearer to its end, whatever its peer does:
`WorkerPhase.stepsLeft` counts them. The exception is the ping. A worker that waits for a write to its peer
does not notice a stop, so that one whose ping cannot be written (`WorkerPhase.Held`) stays where it is for
ever. The main theorem (`heeds_stop`) says that these are the only ones. -/

namespace BitcoinCrawl

/-- The next write to the peer never finishes. -/
def Link.Stalls (link : Link) : Prop := WriteFault.outcome link.sent.size link.writeFault = .stalled

namespace WorkerPhase

/-- The connection that a ping is still to be written to. -/
def toPing : WorkerPhase → Option Link
  | reporting _ _ link => link
  | noting _ link | pinging _ link _ => some link
  | _ => none

/-- The ping of the visit is still ahead, and writing it never finishes. -/
def Held (phase : WorkerPhase) : Prop := ∃ link, phase.toPing = some link ∧ link.Stalls

/-- How many steps a worker has left at most once the crawl is stopped. -/
def stepsLeft : WorkerPhase → Nat
  | exited => 0
  | idle => 1
  | starting | leaving => 2
  | dialing .. | reporting _ _ none => 3
  | marked _ => 4
  | claimed _ => 5
  | serving session =>
    match session.phase with
    | .awaiting _ => 3
    | .signalling => 4
    | .handling _ => 5
  | pinging .. => 4
  | noting .. => 5
  | reporting _ _ (some _) => 6

theorem stepsLeft_le (phase : WorkerPhase) : phase.stepsLeft ≤ 6 := by
  cases phase with
  | serving session =>
      simp only [stepsLeft]
      split <;> decide
  | reporting e outcome link => cases link <;> simp only [stepsLeft, Nat.reduceLeDiff]
  | _ => simp only [stepsLeft, Nat.reduceLeDiff]

theorem not_held {phase : WorkerPhase} (h : phase.toPing = none) : ¬ phase.Held := by
  rintro ⟨link, hlink, -⟩
  rw [h] at hlink
  cases hlink

end WorkerPhase

namespace Crawl

variable {world : World} {c c' : Crawl} {worker : Worker} {i : Nat}

/-! ## A worker that waits for its peer -/

theorem workers_of_phases {phase : WorkerPhase} (h : c.outline.phases[i]? = some phase) :
    ∃ worker, c.workers[i]? = some worker ∧ worker.phase = phase := by
  simpa [outline] using h

/-- A worker that is put somewhere stands there. -/
theorem phases_place (hi : c.workers[i]? = some worker) (same : c'.workers = c.workers)
    (phase : WorkerPhase) : (c'.place worker phase i).outline.phases[i]? = some phase := by
  have hlt : i < c.outline.phases.length := by
    have hsome := phases_of_workers hi
    exact (List.getElem?_eq_some_iff.mp hsome).1
  rw [outline_place, Outline.place_phases]
  have hphases : c'.outline.phases = c.outline.phases := by
    simp only [outline, same]
  rw [hphases]
  exact List.getElem?_set_self hlt

/-- A write that never finishes leaves the link as it was. -/
theorem send_stalled {link : Link} (h : link.Stalls) (m : Message) : link.send m = (link, .waiting none) := by
  have hstalled : WriteFault.outcome link.sent.size link.writeFault = .stalled := h
  simp only [Link.send, hstalled]

theorem stepWorker_held (hi : c.workers[i]? = some worker) (held : worker.phase.Held) :
    ∃ phase, (c.stepWorker world i).1.outline.phases[i]? = some phase ∧ phase.Held := by
  obtain ⟨link, hlink, hstalls⟩ := held
  simp only [stepWorker, hi]
  cases hphase : worker.phase with
  | reporting e outcome link' =>
      rw [hphase] at hlink
      obtain rfl : link' = some link := hlink
      refine ⟨.noting e link, ?_, link, rfl, hstalls⟩
      simp only [stepReporting]
      split_ifs <;> exact phases_place hi rfl _
  | noting e link' =>
      rw [hphase] at hlink
      obtain rfl : link' = link := Option.some.inj hlink
      exact ⟨_, phases_place hi rfl _, link', rfl, hstalls⟩
  | pinging e link' nonce =>
      rw [hphase] at hlink
      obtain rfl : link' = link := Option.some.inj hlink
      refine ⟨.pinging e link' nonce, ?_, link', rfl, hstalls⟩
      simp only [stepPinging, send_stalled hstalls]
      rw [outline_await]
      exact phases_place hi rfl _
  | _ =>
      rw [hphase] at hlink
      cases hlink

/-- Nothing that can happen to a crawl frees a worker whose ping is never written. -/
theorem held_apply (world : World) {phase : WorkerPhase} (event : Event) (hi : c.outline.phases[i]? = some phase)
    (held : phase.Held) :
    ∃ phase, (c.apply world event).outline.phases[i]? = some phase ∧ phase.Held := by
  by_cases hown : event = .act (.worker i)
  · obtain ⟨worker, hworker, rfl⟩ := workers_of_phases hi
    rw [hown]
    exact stepWorker_held hworker held
  · exact ⟨phase, (phases_apply hown).trans hi, held⟩

theorem held_run (world : World) {phase : WorkerPhase} (events : List Event)
    (hi : c.outline.phases[i]? = some phase) (held : phase.Held) :
    ∃ phase, (c.run world events).outline.phases[i]? = some phase ∧ phase.Held := by
  induction events generalizing c phase with
  | nil => exact ⟨phase, hi, held⟩
  | cons event events ih =>
      obtain ⟨next, hnext, hheld⟩ := held_apply world event hi held
      exact ih hnext hheld

/-! ## A worker on its own -/

/-- A worker of a stopped crawl goes on by itself, to a place nearer to its end than the one it was at. -/
structure Nears (c : Crawl) (worker : Worker) (i : Nat) (old : WorkerPhase) (result : Crawl × Motion) :
    Prop where
  moved : result.2 = .moved
  stopped : result.1.shared.cancelled = true
  placed : ∃ phase : WorkerPhase, result.1.workers = c.workers.setIfInBounds i { worker with phase } ∧
    ¬ phase.Held ∧ phase.stepsLeft < old.stepsLeft

variable {old : WorkerPhase}

theorem nears_proceed {phase : WorkerPhase} (stopped : c'.shared.cancelled = true)
    (same : c'.workers = c.workers) (free : ¬ phase.Held) (less : phase.stepsLeft < old.stepsLeft) :
    c.Nears worker i old (c'.proceed worker phase i) where
  moved := rfl
  stopped := stopped
  placed := by
    refine ⟨phase, ?_, free, less⟩
    rw [← same]
    rfl

theorem nears_stopWorker (stopped : c.shared.cancelled = true) (less : 0 < old.stepsLeft) :
    c.Nears worker i old (c.stopWorker worker i) := by
  unfold stopWorker
  dsimp only
  split_ifs <;> exact ⟨rfl, stopped, .exited, rfl, WorkerPhase.not_held rfl, less⟩

theorem nears_stepReporting {e : Endpoint} {outcome : Outcome} {link : Option Link}
    (stopped : c.shared.cancelled = true) (free : ¬ (WorkerPhase.reporting e outcome link).Held) :
    c.Nears worker i (.reporting e outcome link) (c.stepReporting worker e outcome link i) := by
  unfold stepReporting
  cases link with
  | none =>
      split_ifs <;> exact nears_proceed stopped rfl (WorkerPhase.not_held rfl) (Nat.lt_succ_self 2)
  | some link =>
      have hfree : ¬ (WorkerPhase.noting e link).Held := free
      split_ifs <;> exact nears_proceed stopped rfl hfree (Nat.lt_succ_self 5)

theorem nears_stepNoting {e : Endpoint} {link : Link} (stopped : c.shared.cancelled = true)
    (free : ¬ (WorkerPhase.noting e link).Held) :
    c.Nears worker i (.noting e link) (c.stepNoting worker e link i) := by
  have hfree : ∀ nonce, ¬ (WorkerPhase.pinging e link nonce).Held := fun _ => free
  unfold stepNoting
  refine nears_proceed ?_ rfl (hfree _) (Nat.lt_succ_self 4)
  dsimp only [Shared.drawNonce]
  split <;> exact stopped

theorem nears_stepPinging {e : Endpoint} {link : Link} {nonce : UInt64} (stopped : c.shared.cancelled = true)
    (free : ¬ (WorkerPhase.pinging e link nonce).Held) :
    c.Nears worker i (.pinging e link nonce) (c.stepPinging world worker e link nonce i) := by
  unfold stepPinging
  cases hsend : link.send (.ping nonce) with
  | mk link' poll =>
      cases poll with
      | ready result =>
          cases result with
          | ok _ => exact nears_proceed stopped rfl (WorkerPhase.not_held rfl) (Nat.lt_succ_self 3)
          | error fault =>
              exact nears_proceed stopped rfl (WorkerPhase.not_held rfl) (show 2 < 4 by decide)
      | waiting wake =>
          -- Only a write that stalls has to be waited for.
          simp only [Link.send] at hsend
          split at hsend
          next => cases hsend
          next => cases hsend
          next => cases hsend
          next hstalled => exact absurd ⟨link, rfl, hstalled⟩ free

theorem nears_stepServing (session : Session) (stopped : c.shared.cancelled = true) :
    c.Nears worker i (.serving session) (c.stepServing world worker session i) := by
  have hkept := Session.step_kept world.config.idleTimeout session c.shared
  have hstopped := hkept.ground.cancelled.trans stopped
  obtain ⟨e, line, place⟩ := session
  unfold stepServing
  cases place with
  | awaiting deadline =>
      simp only [Session.step, Session.stepAwaiting, if_pos stopped]
      exact nears_proceed stopped rfl (WorkerPhase.not_held rfl) (Nat.lt_succ_self 2)
  | handling notice =>
      simp only [Session.step] at hstopped ⊢
      cases hhandle : c.shared.handle e notice with
      | mk s due =>
          rw [hhandle] at hstopped
          cases due with
          | true => exact nears_proceed hstopped rfl (WorkerPhase.not_held rfl) (Nat.lt_succ_self 4)
          | false => exact nears_proceed hstopped rfl (WorkerPhase.not_held rfl) (show 3 < 5 by decide)
  | signalling => exact nears_proceed hstopped rfl (WorkerPhase.not_held rfl) (Nat.lt_succ_self 3)

/-- Once a crawl is stopped, a worker comes nearer to its end with every step of its own. -/
theorem stepWorker_nears (world : World) (stopped : c.shared.cancelled = true) (hi : c.workers[i]? = some worker)
    (running : worker.phase ≠ .exited) (free : ¬ worker.phase.Held) :
    c.Nears worker i worker.phase (c.stepWorker world i) := by
  simp only [stepWorker, hi]
  cases hphase : worker.phase with
  | starting => exact nears_proceed stopped rfl (WorkerPhase.not_held rfl) (Nat.lt_succ_self 1)
  | idle =>
      simp only [stepIdle, if_pos stopped]
      exact nears_stopWorker stopped (Nat.lt_succ_self 0)
  | claimed e =>
      simp only [stepClaimed]
      cases c.shared.registry.markConnecting e with
      | ok registry => exact nears_proceed stopped rfl (WorkerPhase.not_held rfl) (Nat.lt_succ_self 4)
      | error fault => exact nears_proceed stopped rfl (WorkerPhase.not_held rfl) (show 1 < 5 by decide)
  | marked e => exact nears_proceed stopped rfl (WorkerPhase.not_held rfl) (Nat.lt_succ_self 3)
  | dialing e dial deadline =>
      simp only [stepDialing, if_pos stopped]
      exact nears_proceed stopped rfl (WorkerPhase.not_held rfl) (Nat.lt_succ_self 2)
  | reporting e outcome link => exact nears_stepReporting stopped (hphase ▸ free)
  | noting e link => exact nears_stepNoting stopped (hphase ▸ free)
  | pinging e link nonce => exact nears_stepPinging stopped (hphase ▸ free)
  | serving session => exact nears_stepServing session stopped
  | leaving => exact nears_proceed stopped rfl (WorkerPhase.not_held rfl) (Nat.lt_succ_self 1)
  | exited => exact absurd hphase running

theorem setIfInBounds_self (hi : c.workers[i]? = some worker) :
    c.workers.setIfInBounds i worker = c.workers := by
  obtain ⟨hlt, rfl⟩ := Array.getElem?_eq_some_iff.mp hi
  rw [Array.setIfInBounds, dif_pos hlt, Array.set_getElem_self]

/-- A worker comes to its end by steps of its own, each of which it can take. -/
theorem alone_exits (world : World) (stopped : c.shared.cancelled = true) (hi : c.workers[i]? = some worker)
    (free : ¬ worker.phase.Held) :
    ∃ n ≤ worker.phase.stepsLeft, (∀ k < n, ((c.alone world i k).step world (.worker i)).2 = .moved) ∧
      (c.alone world i n).workers = c.workers.setIfInBounds i { worker with phase := .exited } := by
  -- By induction on the steps that are left, for a worker at any place.
  induction hleft : worker.phase.stepsLeft using Nat.strongRecOn generalizing c worker with
  | ind left ih =>
      by_cases running : worker.phase = .exited
      · refine ⟨0, Nat.zero_le _, nofun, ?_⟩
        rw [← running]
        exact (setIfInBounds_self hi).symm
      · obtain ⟨hmoved, hstopped, phase, hplaced, hfree, hless⟩ :=
          stepWorker_nears world stopped hi running free
        have hlt : i < c.workers.size := (Array.getElem?_eq_some_iff.mp hi).1
        have hnext : (c.stepWorker world i).1.workers[i]? = some { worker with phase } := by
          rw [hplaced, Array.getElem?_setIfInBounds_self_of_lt hlt]
        obtain ⟨n, hn, hmoves, hexits⟩ := ih phase.stepsLeft (hleft ▸ hless) hstopped hnext hfree rfl
        refine ⟨n + 1, by omega, fun k hk => ?_, ?_⟩
        · cases k with
          | zero => exact hmoved
          | succ k => exact hmoves k (Nat.lt_of_succ_lt_succ hk)
        · rw [alone_succ]
          refine hexits.trans ?_
          rw [hplaced, Array.setIfInBounds_setIfInBounds]

/-- If before and after the active visits are those of the workers, one that has gone away counts no more. -/
theorem active_exited {size : Nat} (ho : c.outline.Orderly size) (ho' : c'.outline.Orderly size)
    (hi : c.workers[i]? = some worker)
    (hexited : c'.workers = c.workers.setIfInBounds i { worker with phase := .exited }) :
    c'.shared.metrics.active + (if worker.phase.isActive then 1 else 0) = c.shared.metrics.active := by
  have hphases : c'.outline.phases = c.outline.phases.set i .exited := by
    simp only [outline, hexited, Array.toList_setIfInBounds, List.map_set]
  have hcount := countP_set_add WorkerPhase.isActive .exited (phases_of_workers hi)
  have hbefore : c.shared.metrics.active = .ofNat (c.outline.phases.countP (·.isActive)) := ho.active
  have hafter : c'.shared.metrics.active = .ofNat (c'.outline.phases.countP (·.isActive)) := ho'.active
  have hone : (if worker.phase.isActive then 1 else 0 : UInt64)
      = .ofNat (if worker.phase.isActive then 1 else 0) := by split <;> rfl
  rw [hbefore, hafter, hphases, hone, ← UInt64.ofNat_add, hcount]
  rfl

/-- What a stop comes to for one worker. -/
structure Heeds (world : World) (c : Crawl) (worker : Worker) (i : Nat) : Prop where
  /-- It can come to its end by itself exactly if its ping, should it still be ahead, can be written. -/
  ends_iff : (∃ n worker', (c.alone world i n).workers[i]? = some worker' ∧ worker'.phase = .exited) ↔
    ¬ worker.phase.Held
  /-- Then it takes few steps, is never kept waiting, leaves the other workers where they are, and its visit
      is over. -/
  exits : ¬ worker.phase.Held → ∃ n ≤ 6,
    (∀ k < n, ((c.alone world i k).step world (.worker i)).2 = .moved) ∧
    (c.alone world i n).workers = c.workers.setIfInBounds i { worker with phase := .exited } ∧
    (c.alone world i n).shared.metrics.active + (if worker.phase.isActive then 1 else 0)
      = c.shared.metrics.active
  /-- Otherwise it stays for ever, whatever anybody does. -/
  stays : worker.phase.Held → ∀ events, ∃ worker', (c.run world events).workers[i]? = some worker' ∧
    worker'.phase.Held

variable {seeds : List Endpoint} {s : Shared}

/-- **A stop reaches every worker, except those whose ping is never written.** Of whatever a worker is in the
    middle of when a crawl is stopped, it goes on by itself, without its peer doing anything, until it has
    exited and its visit is no longer active; only one that is still to write a ping to a peer that takes no
    more bytes never gets there. -/
theorem heeds_stop (fresh : s.Fresh) (started : start world seeds s = .ok c) (events : List Event)
    (stopped : (c.run world events).shared.cancelled = true)
    (hi : (c.run world events).workers[i]? = some worker) : (c.run world events).Heeds world worker i := by
  have hinit := start_outline fresh started
  have horderly := fun events => (hinit.reach (reach_run world c events)).1
  have hexits : ¬ worker.phase.Held → ∃ n ≤ 6,
      (∀ k < n, (((c.run world events).alone world i k).step world (.worker i)).2 = .moved) ∧
      ((c.run world events).alone world i n).workers
        = (c.run world events).workers.setIfInBounds i { worker with phase := .exited } ∧
      ((c.run world events).alone world i n).shared.metrics.active
        + (if worker.phase.isActive then 1 else 0) = (c.run world events).shared.metrics.active := by
    intro free
    obtain ⟨n, hn, hmoves, hexited⟩ := alone_exits world stopped hi free
    have hafter := horderly (events ++ List.replicate n (.act (.worker i)))
    rw [run_append] at hafter
    exact ⟨n, hn.trans worker.phase.stepsLeft_le, hmoves, hexited,
      active_exited (horderly events) hafter hi hexited⟩
  have hstays : worker.phase.Held → ∀ more, ∃ worker',
      ((c.run world events).run world more).workers[i]? = some worker' ∧ worker'.phase.Held := by
    intro held more
    obtain ⟨phase, hphase, hheld⟩ := held_run world more (phases_of_workers hi) held
    obtain ⟨worker', hworker', rfl⟩ := workers_of_phases hphase
    exact ⟨worker', hworker', hheld⟩
  refine ⟨⟨?_, fun free => ?_⟩, hexits, hstays⟩
  · rintro ⟨n, worker', hworker', hphase⟩ held
    obtain ⟨other, hother, link, hlink, -⟩ := hstays held (List.replicate n (.act (.worker i)))
    cases hworker'.symm.trans hother
    rw [hphase] at hlink
    cases hlink
  · obtain ⟨n, -, -, hexited, -⟩ := hexits free
    have hlt : i < (c.run world events).workers.size := (Array.getElem?_eq_some_iff.mp hi).1
    refine ⟨n, { worker with phase := .exited }, ?_, rfl⟩
    rw [hexited, Array.getElem?_setIfInBounds_self_of_lt hlt]

/-- It holds for a worker that is in a session when the crawl is stopped. -/
theorem talkingWorld_heeds : ∃ c events worker session,
    start talkingWorld [firstSeed, secondSeed] { host := default } = .ok c ∧
      (c.run talkingWorld events).shared.cancelled = true ∧
      (c.run talkingWorld events).workers[0]? = some worker ∧ worker.phase = .serving session ∧
      (c.run talkingWorld events).Heeds talkingWorld worker 0 := by
  obtain ⟨c, c', started, -, hgoes, hattends⟩ := talkingWorld_attends
  obtain ⟨n, hn, -⟩ := hgoes.alone
  obtain ⟨session, deadline, -, hworkers⟩ := hattends.serving
  have hrun : c.run talkingWorld (taking ++ List.replicate n (.act (.worker 0)) ++ [.cancel]) = c'.cancel := by
    rw [run_append, run_append, ← hn]
    rfl
  have hstopped : (c.run talkingWorld
      (taking ++ List.replicate n (.act (.worker 0)) ++ [.cancel])).shared.cancelled = true := by rw [hrun]; rfl
  have hi : (c.run talkingWorld (taking ++ List.replicate n (.act (.worker 0)) ++ [.cancel])).workers[0]?
      = some { id := 0, phase := .serving session } := by
    rw [hrun]
    exact congrArg (·[0]?) hworkers
  exact ⟨c, _, _, session, started, hstopped, hi, rfl, heeds_stop ⟨rfl, rfl⟩ started _ hstopped hi⟩

/-! ## A peer that stops reading -/

/-- A world with room for one connection, where the only listener reads a handshake and nothing more. -/
def stuffedWorld : World where
  config := deafWorld.config
  remotes := [(firstSeed, { answer := .accept (talk deafWorld.config.chain.magic []) (some (.stallAfter 2)) })]

/-- Its worker can be about to write a ping that will not be read when the crawl is stopped. -/
theorem stuffedWorld_held : ∃ c events worker,
    start stuffedWorld [firstSeed, secondSeed] { host := default } = .ok c ∧
      (c.run stuffedWorld events).shared.cancelled = true ∧
      (c.run stuffedWorld events).workers[0]? = some worker ∧ worker.phase.Held := by
  obtain ⟨s, r₁, r₂, log, started, running, hclaimed, hmark, -⟩ := @first_taken stuffedWorld (by decide)
  let taken : Crawl := { unbegun 1 s with shared := { s with registry := r₁, log }, feeder := .reserving }
  -- The handshake is complete with two writes, and then nothing more is read.
  obtain ⟨peer, link, log', -, hsize, hstalling, hgoes⟩ :=
    @goes_greeted stuffedWorld taken firstSeed r₂ (some (.stallAfter 2)) running hmark rfl rfl (by decide)
  obtain ⟨n, hn, -⟩ := hgoes.alone
  have hrun : (unbegun 1 s).run stuffedWorld (taking ++ List.replicate n (.act (.worker 0)) ++ [.cancel])
      = ((taken.single (.claimed firstSeed)).alone stuffedWorld 0 n).cancel := by
    rw [run_append, run_append, hclaimed]
    rfl
  rw [hn] at hrun
  refine ⟨unbegun 1 s, _, { id := 0, phase := .reporting firstSeed (.good peer) (some link) }, started,
    congrArg (·.shared.cancelled) hrun, congrArg (·.workers[0]?) hrun, link, rfl, ?_⟩
  rw [Link.Stalls, hsize, hstalling]
  rfl

/-- A stop does not reach every worker. -/
theorem stop_unheeded :
    ¬ ∀ (world : World) (seeds : List Endpoint) (s : Shared) (c : Crawl) (events : List Event) (i : Nat)
      (worker : Worker), s.Fresh → start world seeds s = .ok c →
      (c.run world events).shared.cancelled = true → (c.run world events).workers[i]? = some worker →
      ∃ n worker', ((c.run world events).alone world i n).workers[i]? = some worker' ∧
        worker'.phase = .exited := by
  intro hall
  obtain ⟨c, events, worker, started, hstopped, hi, hheld⟩ := stuffedWorld_held
  obtain ⟨n, worker', hworker', hexited⟩ := hall _ _ _ c events 0 worker ⟨rfl, rfl⟩ started hstopped hi
  obtain ⟨phase, hphase, link, hlink, -⟩ :=
    held_run stuffedWorld (List.replicate n (.act (.worker 0))) (phases_of_workers hi) hheld
  have hsame := hphase.symm.trans (phases_of_workers hworker')
  rw [Option.some.inj hsame, hexited] at hlink
  cases hlink

end Crawl

end BitcoinCrawl
