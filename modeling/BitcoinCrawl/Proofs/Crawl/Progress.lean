import BitcoinCrawl.Proofs.Crawl.Quiescence

set_option autoImplicit false

/-! # Crawls that come to rest

In a prompt world (`World.Prompt`) nobody keeps a dial or a session waiting, so nothing but a stop interferes
with a crawl (`Crawl.undisturbed_of_prompt`). What its tasks have still to do is bounded then, and a step of a
task that does not wait makes it less (`Crawl.step_moves`): with finitely many endpoints to be heard of, a
crawl comes to rest whatever the order of its steps (`Crawl.busy_le_toil`, `Crawl.comes_to_rest`).

The measure is `Crawl.toil`. Its weights are such that everything weighs more than what a step makes of it. A
signal weighs 3, since it makes the feeder search and listen once more; a result that a link will bring
weighs 7, since it is read and acted upon, and what it announces may be signalled; and an endpoint weighs as much
as a visit to it and the hands it passes through on the way to a worker. -/

namespace BitcoinCrawl

/-! ## Prompt worlds -/

namespace World

/-- A dial to an endpoint is answered at once, and if it is accepted, the peer says everything at once, at most
    `bound` results. It does not introduce itself under a nonce that we could have drawn. -/
def AnswersAt (world : World) (bound : Nat) (e : Endpoint) : DialAnswer → Prop
  | .refuse fault => fault ≠ .selfDialed
  | .silence => False
  | .accept events writeFault =>
    (world.link events writeFault).Prompt ∧ (world.link events writeFault).outlook.length ≤ bound ∧
      ∀ (host : Host) count time,
        ((Handshake.begin world.connection { endpoint := e } (host.nonce count) time).foretold
          (world.link events writeFault)).result ≠ some (.error .selfDialed)

/-- A world in which nobody keeps us waiting. -/
def Prompt (world : World) (bound : Nat) : Prop :=
  ∀ e, (world.remote e).delay = 0 ∧ world.AnswersAt bound e (world.remote e).answer

end World

namespace Dial

/-- A dial that nothing keeps waiting. -/
def Prompt : Dial → Prop
  | unanswered due => due = none
  | shaking handshake link =>
    link.Prompt ∧ (handshake.foretold link).result ≠ some (.error .selfDialed)

/-- What there is to do at most in a visit whose dial stands like this. -/
def toil (bound : Nat) : Dial → Nat
  | unanswered _ => 7 * bound + 9
  | shaking handshake link => handshake.toil link + 7

variable {world : World} {bound : Nat} {e : Endpoint} {dial : Dial}

/-- What a step of a dial comes to in a prompt world. -/
inductive Hastens (bound : Nat) (dial : Dial) :
    Dial × Shared × Advance (Except ConnectionFault Connected) → Prop
  | moved (dial' : Dial) (s : Shared) (prompt : dial'.Prompt) (less : dial'.toil bound < dial.toil bound) :
      Hastens bound dial (dial', s, .moved)
  | connected (dial' : Dial) (s : Shared) (connected : Connected) (prompt : connected.link.Prompt)
      (less : connected.link.toil + 6 < dial.toil bound) :
      Hastens bound dial (dial', s, .finished (.ok connected))
  | failed (dial' : Dial) (s : Shared) (fault : ConnectionFault) (other : fault ≠ .selfDialed)
      (less : 6 < dial.toil bound) : Hastens bound dial (dial', s, .finished (.error fault))

theorem answered_hastens (hworld : world.Prompt bound) (due : Nat) (s : Shared) :
    Hastens bound (unanswered none) (answered world e due s) := by
  have hprompt := (hworld e).2
  unfold answered
  split
  next fault hanswer =>
    rw [hanswer] at hprompt
    refine .failed _ _ _ hprompt ?_
    rw [toil]
    omega
  next hanswer =>
    rw [hanswer] at hprompt
    exact hprompt.elim
  next events writeFault hanswer =>
    rw [hanswer] at hprompt
    obtain ⟨hlink, hshort, hother⟩ := hprompt
    refine .moved _ _ ⟨hlink, hother _ _ _⟩ ?_
    show 7 * (world.link events writeFault).outlook.length + 1 + 7 < 7 * bound + 9
    omega

theorem step_hastens (hworld : world.Prompt bound) (h : dial.Prompt) (s : Shared) :
    Hastens bound dial (dial.step world e s) := by
  cases dial with
  | unanswered due =>
      obtain rfl : due = none := h
      have hdue : s.now + (world.remote e).delay ≤ s.now := by rw [(hworld e).1, Nat.add_zero]
      simp only [step, Option.getD_none, if_pos hdue]
      exact answered_hastens hworld _ s
  | shaking handshake link =>
      obtain ⟨hlink, hother⟩ := h
      have hsteps := handshake.step_hastens hlink s.now
      have hforetells := handshake.step_foretells hlink.part s.now
      simp only [step]
      generalize handshake.step s.now link = p at hsteps hforetells
      cases hsteps with
      | moved h' link' log prompt less =>
          have hsame := (hforetells.goesOn (by simp)).1
          refine .moved _ _ ⟨prompt, ?_⟩ (Nat.add_lt_add_right less 7)
          rw [hsame]
          exact hother
      | finished h' link' log result prompt kept =>
          cases result with
          | ok _ =>
              have hsame := kept rfl
              refine .connected _ _ _ prompt ?_
              rw [Link.toil, hsame, toil, Handshake.toil, Link.toil]
              omega
          | error fault =>
              refine .failed _ _ _ ?_ ?_
              · rintro rfl
                exact hother (hforetells.fails hlink.fair _ rfl)
              · rw [toil]
                omega

end Dial

/-! ## What there is to do -/

def SessionPhase.toil : SessionPhase → Nat
  | awaiting _ => 0
  | handling _ => 6
  | signalling => 5

namespace WorkerPhase

/-- A visit that nothing keeps waiting. -/
def Prompt : WorkerPhase → Prop
  | dialing _ dial _ => dial.Prompt
  | reporting _ _ link => ∀ l, link = some l → l.Prompt
  | noting _ link | pinging _ link _ => link.Prompt
  | serving session => ∃ link, session.line = .link link ∧ link.Prompt
  | _ => True

/-- What a worker has to do at most before it waits for an endpoint. -/
def toil (bound : Nat) : WorkerPhase → Nat
  | idle | exited => 0
  | starting | leaving => 1
  | claimed _ => 7 * bound + 11
  | marked _ => 7 * bound + 10
  | dialing _ dial _ => dial.toil bound
  | reporting _ _ link => (link.map Link.toil).getD 0 + 6
  | noting _ link => link.toil + 4
  | pinging _ link _ => link.toil + 3
  | serving ⟨_, .link link, phase⟩ => link.toil + phase.toil + 2
  | serving ⟨_, .inbox _, _⟩ => 0

end WorkerPhase

/-- What the feeder has to do at most before it waits, with an endpoint at hand the visit to it included. -/
def Feeder.toil (bound : Nat) : Feeder → Nat
  | exited => 0
  | listening => 1
  | arming => 2
  | searching => 3
  | reserving => 4
  | starting => 5
  | handing _ => 7 * bound + 17

/-- A signal that is kept or was given makes the feeder search once more. -/
def Signal.toil (signal : Signal) : Nat := 3 * (signal.kept.toNat + signal.woken.length)

theorem Signal.toil_notify_le (signal : Signal) : signal.notify.toil ≤ signal.toil + 3 := by
  cases hwaiting : signal.waiting with
  | nil =>
      simp only [Signal.notify, hwaiting, Signal.toil, Bool.toNat_true]
      omega
  | cons listener rest =>
      simp only [Signal.notify, hwaiting, Signal.toil, List.length_append, List.length_singleton]
      omega

/-- A kept signal is used up by whoever starts to wait. -/
theorem Signal.toil_listen (signal : Signal) (listener : Listener) :
    (signal.listen listener).1.toil + (if (signal.listen listener).2 then 0 else 3) = signal.toil := by
  cases hkept : signal.kept with
  | true =>
      simp only [Signal.listen, hkept, Signal.toil, if_true, Bool.toNat_true, Bool.toNat_false, Bool.false_eq_true,
        if_false]
      omega
  | false => simp [Signal.listen, hkept, Signal.toil]

theorem Signal.toil_accept {signal : Signal} {listener : Listener} (h : signal.isWoken listener = true) :
    (signal.accept listener).toil + 3 = signal.toil := by
  have hmem : listener ∈ signal.woken := List.contains_iff_mem.mp h
  have hpos := List.length_pos_of_mem hmem
  simp only [Signal.accept, Signal.toil, List.length_erase_of_mem hmem]
  omega

def Aggregator.toil : Aggregator → Nat
  | starting => 1
  | recording | exited => 0

namespace Crawl

/-- What there is to do at most before a crawl comes to rest, if it can hear of `room` endpoints and none of
    them says more than `bound` results. Whatever has not left the discovery queue will have to be visited. -/
def toil (bound room : Nat) (c : Crawl) : Nat :=
  (7 * bound + 15) * (room - c.shared.registry.taken) + c.feeder.toil bound + c.shared.arrivals.toil
    + (7 * bound + 12) * c.queue.items.length + (c.outline.phases.map (·.toil bound)).sum
    + c.outcomes.items.length + c.aggregator.toil

/-- Nothing keeps a worker waiting for its peer. -/
def Prompt (c : Crawl) : Prop := ∀ phase ∈ c.outline.phases, phase.Prompt

/-- What a step of a task comes to: it waits for the others, or there is less to do. -/
def Moves (bound room : Nat) (c : Crawl) (r : Crawl × Motion) : Prop :=
  r = (c, .blocked none) ∨ r.1.Prompt ∧ r.1.toil bound room < c.toil bound room

variable {world : World} {net : Network} {size bound room : Nat} {h : History} {c c' : Crawl} {worker : Worker}
  {i : Nat} {old new : WorkerPhase}

theorem Prompt.at (hp : c.Prompt) (hi : c.outline.phases[i]? = some old) : old.Prompt :=
  hp old (List.mem_of_getElem? hi)

/-- A worker that goes on has less to do, or leaves less to the others. -/
theorem Moves.proceed (hp : c.Prompt) (hi : c.outline.phases[i]? = some old) (hworkers : c'.workers = c.workers)
    (hnew : new.Prompt) (less : c'.toil bound room + new.toil bound < c.toil bound room + old.toil bound) :
    c.Moves bound room (c'.proceed worker new i) := by
  have hphases : c'.outline.phases = c.outline.phases := by
    rw [outline, outline, hworkers]
  have hplaced : (c'.place worker new i).outline.phases = c.outline.phases.set i new := by
    rw [outline_place, Outline.place, hphases]
  have hsum := sum_map_set_add (·.toil bound) new hi
  refine .inr ⟨fun phase hmem => ?_, ?_⟩
  · rw [Crawl.proceed, hplaced] at hmem
    rcases List.mem_or_eq_of_mem_set hmem with hmem | rfl
    · exact hp phase hmem
    · exact hnew
  · have htoil : (c'.place worker new i).toil bound room + old.toil bound
        = c'.toil bound room + new.toil bound := by
      rw [toil, toil, hplaced, hphases]
      show _ + _ + _ + _ + _ + c'.outcomes.items.length + c'.aggregator.toil + _ = _
      simp only [Crawl.place]
      omega
    show (c'.place worker new i).toil bound room < _
    omega

/-- The shared state matters only for how many endpoints were taken and what was signalled. -/
theorem toil_signalled {s : Shared} (htaken : s.registry.taken = c.shared.registry.taken) :
    ({ c with shared := s } : Crawl).toil bound room + c.shared.arrivals.toil
      = c.toil bound room + s.arrivals.toil := by
  have hphases : ({ c with shared := s } : Crawl).outline.phases = c.outline.phases := rfl
  simp only [toil, htaken, hphases]
  omega

theorem toil_shared {s : Shared} (htaken : s.registry.taken = c.shared.registry.taken)
    (harrivals : s.arrivals = c.shared.arrivals) :
    ({ c with shared := s } : Crawl).toil bound room = c.toil bound room := by
  have hsignalled := @toil_signalled bound room c s htaken
  rw [harrivals] at hsignalled
  exact Nat.add_right_cancel hsignalled

/-! ## Workers -/

theorem stepIdle_moves (hc : c.Afoot size net h) (hp : c.Prompt) (hi : c.outline.phases[i]? = some .idle) :
    c.Moves bound room (c.stepIdle worker i) := by
  unfold stepIdle
  rw [if_neg hc.uncancelled]
  split
  next e items hitems =>
    refine .proceed hp hi rfl trivial ?_
    simp only [toil, hitems, List.length_cons, Nat.mul_succ, WorkerPhase.toil]
    show _ + _ + _ + _ + (c.outline.phases.map _).sum + _ + _ + _ < _
    omega
  next hexited => exact absurd hexited hc.feeding
  next => exact .inl rfl

theorem stepClaimed_moves (hp : c.Prompt) {e : Endpoint} (hi : c.outline.phases[i]? = some (.claimed e)) :
    c.Moves bound room (c.stepClaimed worker e i) := by
  unfold stepClaimed
  cases hmark : c.shared.registry.markConnecting e with
  | ok registry =>
      have htaken := (c.shared.registry.perform_listed (.markConnecting e) rfl).taken
      simp only [Registry.perform, hmark] at htaken
      have hsame : ({ c with shared := { c.shared with registry } } : Crawl).toil bound room
          = c.toil bound room := toil_shared htaken rfl
      refine .proceed hp hi rfl trivial ?_
      rw [hsame]
      exact Nat.add_lt_add_left (Nat.lt_succ_self _) _
  | error fault =>
      refine .proceed hp hi rfl trivial ?_
      exact Nat.add_lt_add_left (Nat.succ_pos _) _

theorem stepMarked_moves (hp : c.Prompt) {e : Endpoint} (hi : c.outline.phases[i]? = some (.marked e)) :
    c.Moves bound room (c.stepMarked world worker e i) := by
  unfold stepMarked
  refine .proceed hp hi rfl rfl ?_
  exact Nat.add_lt_add_left (Nat.lt_succ_self _) _

theorem stepDialing_moves (hc : c.Afoot size net h) (hworld : world.Prompt bound) (hp : c.Prompt) {e : Endpoint}
    {dial : Dial} {deadline : Nat} (hi : c.outline.phases[i]? = some (.dialing e dial deadline)) :
    c.Moves bound room (c.stepDialing world worker e dial deadline i) := by
  have hhastens := Dial.step_hastens (e := e) hworld (hp.at hi) c.shared
  have hfinds := Dial.step_finds world e dial c.shared
  unfold stepDialing
  rw [if_neg hc.uncancelled]
  cases hstep : dial.step world e c.shared with
  | mk dial' rest =>
      obtain ⟨s, answer⟩ := rest
      rw [hstep] at hfinds hhastens
      have hsame : ({ c with shared := s } : Crawl).toil bound room = c.toil bound room :=
        toil_shared hfinds.listed.taken hfinds.arrivals
      cases hhastens with
      | moved _ _ prompt less =>
          refine .proceed hp hi rfl prompt ?_
          rw [hsame]
          exact Nat.add_lt_add_left less _
      | connected _ _ connected prompt less =>
          refine .proceed hp hi rfl (fun _ hl => Option.some.inj hl ▸ prompt) ?_
          show ({ c with shared := s } : Crawl).toil bound room + _ < _
          rw [hsame]
          exact Nat.add_lt_add_left less _
      | failed _ _ fault _ less =>
          refine .proceed hp hi rfl (fun _ hl => by cases hl) ?_
          show ({ c with shared := s } : Crawl).toil bound room + _ < _
          rw [hsame]
          exact Nat.add_lt_add_left less _

theorem stepReporting_moves (hc : c.Afoot size net h) (hp : c.Prompt) {e : Endpoint} {outcome : Outcome}
    {link : Option Link} (hi : c.outline.phases[i]? = some (.reporting e outcome link)) :
    c.Moves bound room (c.stepReporting worker e outcome link i) := by
  have hopen : c.outcomes.isOpen = true := hc.orderly.listening
  have hsent : ({ c with outcomes := c.outcomes.push outcome } : Crawl).toil bound room
      = c.toil bound room + 1 := by
    simp only [toil, OutcomeQueue.push, List.length_append, List.length_singleton]
    show _ + _ + _ + _ + (c.outline.phases.map _).sum + _ + _ = _
    omega
  unfold stepReporting
  rw [if_pos hopen]
  cases link with
  | some link =>
      refine .proceed hp hi rfl (hp.at hi link rfl) ?_
      rw [hsent]
      simp only [WorkerPhase.toil, Option.map_some, Option.getD_some]
      omega
  | none =>
      refine .proceed hp hi rfl trivial ?_
      rw [hsent]
      simp only [WorkerPhase.toil, Option.map_none, Option.getD_none]
      omega

theorem stepNoting_moves (hp : c.Prompt) {e : Endpoint} {link : Link}
    (hi : c.outline.phases[i]? = some (.noting e link)) : c.Moves bound room (c.stepNoting worker e link i) := by
  have htaken := (c.shared.registry.perform_listed
    (.setPingNonce e (c.shared.host.nonce c.shared.noncesDrawn)) rfl).taken
  simp only [Registry.perform] at htaken
  have hlink : link.Prompt := hp.at hi
  unfold stepNoting
  refine .proceed hp hi rfl hlink ?_
  cases hset : c.shared.registry.setPingNonce e (c.shared.host.nonce c.shared.noncesDrawn) with
  | ok registry =>
      rw [hset] at htaken
      have hsame : ({ c with shared := { c.shared with
          registry, noncesDrawn := c.shared.noncesDrawn + 1 } } : Crawl).toil bound room
          = c.toil bound room := toil_shared htaken rfl
      dsimp only
      rw [hsame]
      exact Nat.add_lt_add_left (Nat.lt_succ_self _) _
  | error fault => exact Nat.add_lt_add_left (Nat.lt_succ_self _) _

theorem stepPinging_moves (hp : c.Prompt) {e : Endpoint} {link : Link} {nonce : UInt64}
    (hi : c.outline.phases[i]? = some (.pinging e link nonce)) :
    c.Moves bound room (c.stepPinging world worker e link nonce i) := by
  have hlink : link.Prompt := hp.at hi
  obtain ⟨link', hsend, hprompt, houtlook⟩ := hlink.send (.ping nonce)
  simp only [stepPinging, hsend]
  refine .proceed hp hi rfl ⟨link', rfl, hprompt⟩ ?_
  have hsame : link'.toil = link.toil := congrArg (7 * ·.length) houtlook
  show c.toil bound room + (link'.toil + 0 + 2) < c.toil bound room + (link.toil + 3)
  omega

/-- A session that waits has a result at once. -/
theorem stepServing_awaiting_moves (hc : c.Afoot size net h) (hp : c.Prompt) {e : Endpoint} {link : Link}
    {deadline : Option Nat} (hlink : link.Prompt)
    (hi : c.outline.phases[i]? = some (.serving ⟨e, .link link, .awaiting deadline⟩)) :
    c.Moves bound room (c.stepServing world worker ⟨e, .link link, .awaiting deadline⟩ i) := by
  obtain ⟨link', r, hready, hprompt⟩ := hlink.receive c.shared.now
  have houtlook := Link.outlook_of_ready hlink.part hready
  simp only [stepServing, Session.step, Session.stepAwaiting, if_neg hc.uncancelled, Line.receive, hready]
  cases r with
  | ok m =>
      have hless : link.toil = link'.toil + 7 := congrArg (7 * ·.length) houtlook
      refine .proceed hp hi rfl ⟨link', rfl, hprompt⟩ ?_
      show c.toil bound room + (link'.toil + 6 + 2) < c.toil bound room + (link.toil + 0 + 2)
      omega
  | error fault =>
      simp only [Except.mapError, Shared.judge]
      by_cases hrecoverable : (ConnectionFault.transport fault).isRecoverable = true
      · have hnot : ¬ Reader.isStop (.error fault) = true := by
          cases fault <;> first | exact Bool.false_ne_true | cases hrecoverable
        have hless : link.toil = link'.toil + 7 := by
          rw [Link.toil, houtlook, if_neg hnot]
          rfl
        rw [if_pos hrecoverable]
        refine .proceed hp hi rfl ⟨link', rfl, hprompt⟩ ?_
        show c.toil bound room + (link'.toil + 0 + 2) < c.toil bound room + (link.toil + 0 + 2)
        omega
      · rw [if_neg hrecoverable]
        split_ifs
        all_goals
          refine .proceed hp hi rfl trivial ?_
          show c.toil bound room + 1 < c.toil bound room + (link.toil + 0 + 2)
          omega

theorem stepServing_moves (hc : c.Afoot size net h) (hp : c.Prompt) {session : Session}
    (hi : c.outline.phases[i]? = some (.serving session)) :
    c.Moves bound room (c.stepServing world worker session i) := by
  obtain ⟨e, line, phase⟩ := session
  obtain ⟨link, hline, hlink⟩ : (WorkerPhase.serving ⟨e, line, phase⟩).Prompt := hp.at hi
  obtain rfl : line = .link link := hline
  cases phase with
  | awaiting deadline => exact stepServing_awaiting_moves hc hp hlink hi
  | handling notice =>
      obtain ⟨fresh, hgrown, -, harrivals, -, -⟩ := c.shared.handle_finds e notice hc.consistent
      simp only [stepServing, Session.step]
      cases hhandle : c.shared.handle e notice with
      | mk s due =>
          rw [hhandle] at hgrown harrivals
          have hsame : ({ c with shared := s } : Crawl).toil bound room = c.toil bound room :=
            toil_shared hgrown.taken harrivals
          cases due with
          | true =>
              refine .proceed hp hi rfl ⟨link, rfl, hlink⟩ ?_
              rw [hsame]
              exact Nat.add_lt_add_left (Nat.lt_succ_self _) _
          | false =>
              refine .proceed hp hi rfl ⟨link, rfl, hlink⟩ ?_
              rw [hsame]
              show _ + (link.toil + 0 + 2) < _ + (link.toil + 6 + 2)
              omega
  | signalling =>
      have hnotify := c.shared.arrivals.toil_notify_le
      refine .proceed hp hi rfl ⟨link, rfl, hlink⟩ ?_
      have htold : ({ c with shared := c.shared.signal } : Crawl).toil bound room + c.shared.arrivals.toil
          = c.toil bound room + c.shared.arrivals.notify.toil := toil_signalled rfl
      show ({ c with shared := c.shared.signal } : Crawl).toil bound room + (link.toil + 0 + 2)
        < c.toil bound room + (link.toil + 5 + 2)
      omega

theorem stepLeaving_moves (hp : c.Prompt) (hi : c.outline.phases[i]? = some .leaving) :
    c.Moves bound room (c.stepLeaving worker i) := by
  unfold stepLeaving
  exact .proceed hp hi rfl trivial (Nat.lt_succ_self _)

theorem stepWorker_moves (hc : c.Afoot size net h) (hworld : world.Prompt bound) (hp : c.Prompt) (i : Nat) :
    c.Moves bound room (c.stepWorker world i) := by
  unfold stepWorker
  cases hworker : c.workers[i]? with
  | none => exact .inl rfl
  | some worker =>
      have hi := phases_of_workers hworker
      simp only
      cases hphase : worker.phase <;> rw [hphase] at hi
      case starting => exact .proceed hp hi rfl trivial (Nat.lt_succ_self _)
      case idle => exact stepIdle_moves hc hp hi
      case claimed => exact stepClaimed_moves hp hi
      case marked => exact stepMarked_moves hp hi
      case dialing => exact stepDialing_moves hc hworld hp hi
      case reporting => exact stepReporting_moves hc hp hi
      case noting => exact stepNoting_moves hp hi
      case pinging => exact stepPinging_moves hp hi
      case serving => exact stepServing_moves hc hp hi
      case leaving => exact stepLeaving_moves hp hi
      case exited => exact .inl rfl

/-! ## The feeder and the aggregator -/

theorem Moves.feed (hp : c.Prompt) {s : Shared} {queue : WorkQueue} {feeder : Feeder}
    (less : (7 * bound + 15) * (room - s.registry.taken) + feeder.toil bound + s.arrivals.toil
        + (7 * bound + 12) * queue.items.length
      < (7 * bound + 15) * (room - c.shared.registry.taken) + c.feeder.toil bound + c.shared.arrivals.toil
        + (7 * bound + 12) * c.queue.items.length) :
    c.Moves bound room ({ c with shared := s, queue, feeder }, .moved) := by
  have hphases : ({ c with shared := s, queue, feeder } : Crawl).outline.phases = c.outline.phases := rfl
  refine .inr ⟨hp, ?_⟩
  simp only [toil, hphases]
  omega

/-- An endpoint that leaves the discovery queue is worth less in the hands of the feeder. -/
theorem stepFeeder_searching_moves (hc : c.Afoot size net h) (hroom : c.shared.registry.known.size ≤ room)
    (hp : c.Prompt) (hf : c.feeder = .searching) : c.Moves bound room c.stepFeeder := by
  unfold stepFeeder
  simp only [hf]
  rw [if_neg hc.uncancelled]
  simp only [Shared.takeNext]
  cases hqueue : c.shared.registry.discoveryQueue with
  | nil =>
      rw [Registry.takeNext_of_nil hqueue]
      refine .feed hp ?_
      simp only [hf, Feeder.toil, Shared.reportAll]
      omega
  | cons e rest =>
      obtain ⟨n, -, -, htake⟩ := hc.consistent.takeNext_of_cons hqueue
      have hwaiting : c.shared.registry.taken < c.shared.registry.known.size := by
        have hlength := congrArg List.length hqueue
        rw [Registry.discoveryQueue, List.length_drop, Array.length_toList, List.length_cons] at hlength
        omega
      have hleft : room - c.shared.registry.taken = room - (c.shared.registry.taken + 1) + 1 := by omega
      rw [htake]
      refine .feed hp ?_
      simp only [hf, Feeder.toil, Shared.reportAll, hleft, Nat.mul_succ]
      omega

theorem stepFeeder_moves (hc : c.Afoot size net h) (hroom : c.shared.registry.known.size ≤ room)
    (hp : c.Prompt) : c.Moves bound room c.stepFeeder := by
  cases hf : c.feeder with
  | searching => exact stepFeeder_searching_moves hc hroom hp hf
  | exited => exact absurd hf hc.feeding
  | starting =>
      simp only [stepFeeder, hf]
      refine .feed hp ?_
      simp only [hf, Feeder.toil, report, Shared.report]
      omega
  | reserving =>
      have hgo : ¬ (c.shared.cancelled || !c.queue.isOpen) = true := by simp [hc.uncancelled, hc.isOpen]
      simp only [stepFeeder, hf]
      rw [if_neg hgo]
      split_ifs
      · refine .feed hp ?_
        simp only [hf, Feeder.toil]
        omega
      · exact .inl rfl
  | arming =>
      have htoil := c.shared.arrivals.toil_listen feederListener
      simp only [stepFeeder, hf]
      refine .feed hp ?_
      cases hwaits : (c.shared.arrivals.listen feederListener).2 <;> rw [hwaits] at htoil
      all_goals
        simp only [hf, Feeder.toil, if_true, Bool.false_eq_true, if_false] at htoil ⊢
        omega
  | listening =>
      simp only [stepFeeder, hf]
      rw [if_neg hc.uncancelled]
      split_ifs with hwoken
      · have htoil := Signal.toil_accept hwoken
        refine .feed hp ?_
        simp only [hf, Feeder.toil]
        omega
      · exact .inl rfl
  | handing e =>
      simp only [stepFeeder, hf]
      refine .feed hp ?_
      simp only [hf, Feeder.toil, report, Shared.report, WorkQueue.push, List.length_append, List.length_singleton,
        Nat.mul_succ]
      omega

theorem stepAggregator_moves (hc : c.Afoot size net h) (hp : c.Prompt) : c.Moves bound room c.stepAggregator := by
  unfold stepAggregator
  cases ha : c.aggregator with
  | starting =>
      refine .inr ⟨hp, ?_⟩
      simp only [toil, ha, Aggregator.toil]
      exact Nat.lt_succ_self _
  | recording =>
      cases hitems : c.outcomes.items with
      | nil =>
          dsimp only
          rw [if_neg (by rw [hc.workersGone]; exact Bool.false_ne_true)]
          exact .inl rfl
      | cons outcome items =>
          have hfinds := c.shared.settle_finds outcome
          refine .inr ⟨hp, ?_⟩
          simp only [toil, hfinds.listed.taken, hfinds.arrivals, hitems, List.length_cons, ha]
          show _ + _ + _ + _ + (c.outline.phases.map _).sum + _ + _ < _
          omega
  | exited => exact absurd ha hc.recording

/-! ## Nothing interferes -/

theorem dialFacts_prompt (hworld : world.Prompt bound) {s : Shared} (hrunning : ¬ s.cancelled = true)
    {e : Endpoint} {dial : Dial} (hdial : dial.Prompt) (deadline : Nat) :
    ∀ fact ∈ dialFacts world s e dial deadline,
      (∀ e' t, fact ≠ .timedOut e' t) ∧ ∀ e', fact ≠ .refused e' .selfDialed := by
  have hhastens := Dial.step_hastens (e := e) hworld hdial s
  unfold dialFacts
  rw [if_neg hrunning]
  generalize dial.step world e s = p at hhastens
  intro fact hmem
  cases hhastens with
  | moved => cases hmem
  | connected =>
      obtain rfl := List.mem_singleton.mp hmem
      simp
  | failed _ _ fault other =>
      obtain rfl := List.mem_singleton.mp hmem
      simp [other]

/-- A session that is not kept waiting does not end for the silence of its peer. -/
theorem step_ne_idle {session : Session} (h : (WorkerPhase.serving session).Prompt) (idle : Option Millis)
    (s : Shared) : (session.step idle s).2.2 ≠ .finished .idle := by
  obtain ⟨e, line, phase⟩ := session
  obtain ⟨link, hline, hlink⟩ := h
  obtain rfl : line = .link link := hline
  cases phase with
  | awaiting deadline =>
      obtain ⟨link', r, hready, -⟩ := hlink.receive s.now
      simp only [Session.step, Session.stepAwaiting, Line.receive, hready]
      split_ifs
      · simp
      · cases r with
        | ok m => simp [Except.mapError, Shared.judge]
        | error fault =>
            simp only [Except.mapError, Shared.judge]
            split_ifs <;> simp
  | handling notice =>
      simp only [Session.step]
      split <;> simp
  | signalling => simp [Session.step]

/-- What is seen of a crawl that nothing keeps waiting is no dial that timed out or met our own nonce. -/
theorem Prompt.facts (hc : c.Afoot size net h) (hworld : world.Prompt bound) (hp : c.Prompt) (event : Event) :
    ∀ fact ∈ c.facts world event, (∀ e t, fact ≠ .timedOut e t) ∧ ∀ e, fact ≠ .refused e .selfDialed := by
  intro fact hmem
  cases event with
  | cancel | pass => cases hmem
  | act actor =>
      cases actor with
      | worker i =>
          unfold Crawl.facts at hmem
          cases hworker : c.workers[i]? with
          | none =>
              simp only [hworker] at hmem
              cases hmem
          | some worker =>
              have hi := phases_of_workers hworker
              simp only [hworker] at hmem
              cases hphase : worker.phase <;> rw [hphase] at hmem hi
              case marked =>
                obtain rfl := List.mem_singleton.mp hmem
                simp
              case dialing => exact dialFacts_prompt hworld hc.uncancelled (hp.at hi) _ fact hmem
              case reporting =>
                simp only [workerFacts] at hmem
                split_ifs at hmem
                · obtain rfl := List.mem_singleton.mp hmem
                  simp
                · cases hmem
              all_goals cases hmem
      | aggregator =>
          simp only [Crawl.facts, aggregatorFacts] at hmem
          split at hmem
          · obtain rfl := List.mem_singleton.mp hmem
            simp
          · cases hmem
      | _ => cases hmem

theorem Prompt.calm (hc : c.Afoot size net h) (hworld : world.Prompt bound) (hp : c.Prompt) {event : Event}
    (hevent : event ≠ .cancel) : c.Calm world net event := by
  have hfacts := hp.facts hc hworld event
  refine ⟨hevent, fun e t hmem => absurd rfl ((hfacts _ hmem).1 e t),
    fun e hmem => absurd rfl ((hfacts _ hmem).2 e), fun i worker session _ hworker hphase => ?_⟩
  have hi := phases_of_workers hworker
  rw [hphase] at hi
  exact step_ne_idle (hp.at hi) _ _

end Crawl

/-! ## Coming to rest -/

/-- Whether a task takes part in the exploration. The others only watch it. -/
def Actor.explores : Actor → Bool
  | feeder | worker _ | aggregator => true
  | publisher | saver | consumer => false

namespace Crawl

variable {world : World} {net : Network} {seeds closure : List Endpoint} {size bound room : Nat} {h : History}
  {c : Crawl} {event : Event} {events : List Event}

/-- A task that takes part in the exploration of a prompt world waits for the others, or it leaves less to do. -/
theorem step_moves (hc : c.Afoot size net h) (hworld : world.Prompt bound)
    (hroom : c.shared.registry.known.size ≤ room) (hp : c.Prompt) {actor : Actor}
    (hactor : actor.explores = true) : c.Moves bound room (c.step world actor) := by
  cases actor with
  | feeder => exact stepFeeder_moves hc hroom hp
  | worker i => exact stepWorker_moves hc hworld hp i
  | aggregator => exact stepAggregator_moves hc hp
  | publisher | saver | consumer => cases hactor

theorem Prompt.apply (hc : c.Afoot size net h) (hworld : world.Prompt bound) (hp : c.Prompt)
    (hevent : event ≠ .cancel) : (c.apply world event).Prompt := by
  have hmoved : ∀ actor : Actor, actor.explores = true → (c.step world actor).1.Prompt := by
    intro actor hactor
    rcases step_moves hc hworld (Nat.le_refl _) hp hactor with hwaits | ⟨hprompt, -⟩
    · rw [hwaits]
      exact hp
    · exact hprompt
  cases event with
  | act actor =>
      cases actor with
      | feeder | worker | aggregator => exact hmoved _ rfl
      | publisher =>
          unfold Prompt
          rw [Crawl.apply, step, stepPublisher_outline]
          exact hp
      | saver =>
          unfold Prompt
          rw [Crawl.apply, step, stepSaver_outline]
          exact hp
      | consumer =>
          unfold Prompt
          rw [Crawl.apply, step, stepConsumer_outline]
          exact hp
  | cancel => exact absurd rfl hevent
  | pass t => exact hp

/-- A crawl that explores a network and whose peers keep nobody waiting. -/
structure Underway (size : Nat) (net : Network) (seeds : List Endpoint) (h : History) (c : Crawl) : Prop where
  orderly : c.outline.Orderly size
  counted : c.outline.Counted h
  staffed : 0 < size
  exploring : c.survey.Exploring net seeds h.reported
  prompt : c.Prompt

theorem Underway.afoot (hu : c.Underway size net seeds h) : c.Afoot size net h :=
  afoot_of_exploring hu.orderly hu.counted hu.staffed hu.exploring

theorem Underway.apply (shows : world.Shows net) (hworld : world.Prompt bound)
    (hu : c.Underway size net seeds h) (hevent : event ≠ .cancel) :
    (c.apply world event).Underway size net seeds (h ++ c.facts world event) := by
  have hstep := apply_outline world c event
  have hcalm := hu.prompt.calm hu.afoot hworld hevent
  have hexploring := (apply_survey hu.afoot shows hcalm).exploring hu.exploring
  rw [← History.reported_append] at hexploring
  exact ⟨hstep.orderly hu.orderly, hstep.counted hu.orderly hu.counted, hu.staffed, hexploring,
    hu.prompt.apply hu.afoot hworld hevent⟩

/-- In a prompt world nothing but a stop interferes with a crawl. -/
theorem undisturbed_of_prompt (shows : world.Shows net) (hworld : world.Prompt bound)
    (hu : c.Underway size net seeds h) (hevents : ∀ event ∈ events, event ≠ .cancel) :
    c.Undisturbed world net events := by
  induction events generalizing c h with
  | nil => trivial
  | cons event events ih =>
      have hevent := hevents event List.mem_cons_self
      refine ⟨hu.prompt.calm hu.afoot hworld hevent, ?_⟩
      exact ih (hu.apply shows hworld hevent) fun e he => hevents e (List.mem_cons_of_mem _ he)

/-- If only finitely many endpoints can be heard of, there is room for no more. -/
theorem Underway.known_le (hu : c.Underway size net seeds h)
    (finite : ∀ e, net.Reachable seeds e → e ∈ closure) :
    c.shared.registry.known.size ≤ closure.length := by
  have hsubset : c.shared.registry.known.toList ⊆ closure := fun e he =>
    finite e (hu.exploring.charted.reachable e he)
  rw [← Array.length_toList]
  exact (List.subperm_of_subset hu.afoot.consistent.known_nodup hsubset).length_le

/-- Steps of tasks that take part in the exploration, none of which has to wait. -/
def Busy (world : World) (c : Crawl) : List Event → Prop
  | [] => True
  | event :: events =>
    (∃ actor : Actor, event = .act actor ∧ actor.explores = true ∧
        (c.step world actor).2 ≠ .blocked none) ∧
      (c.apply world event).Busy world events

theorem Busy.ne_cancel (hbusy : c.Busy world events) : ∀ event ∈ events, event ≠ .cancel := by
  induction events generalizing c with
  | nil => exact fun _ hmem => absurd hmem List.not_mem_nil
  | cons first rest ih =>
      obtain ⟨⟨actor, rfl, -, -⟩, hrest⟩ := hbusy
      intro event hmem
      rcases List.mem_cons.mp hmem with rfl | hmem
      · simp
      · exact ih hrest event hmem

/-- A step that does not wait leaves less to do. -/
theorem Underway.toil_apply (hworld : world.Prompt bound) (hu : c.Underway size net seeds h)
    (finite : ∀ e, net.Reachable seeds e → e ∈ closure) {actor : Actor} (hactor : actor.explores = true)
    (hbusy : (c.step world actor).2 ≠ .blocked none) :
    (c.apply world (.act actor)).toil bound closure.length < c.toil bound closure.length := by
  rcases step_moves hu.afoot hworld (hu.known_le finite) hu.prompt hactor with hwaits | ⟨-, hless⟩
  · rw [hwaits] at hbusy
    exact absurd rfl hbusy
  · exact hless

/-- **No schedule keeps a crawl busy for ever.** In a prompt world with finitely many endpoints to be heard of,
    the tasks of a crawl take no more steps than there is to do, in whatever order. -/
theorem busy_le_toil (shows : world.Shows net) (hworld : world.Prompt bound) (hu : c.Underway size net seeds h)
    (finite : ∀ e, net.Reachable seeds e → e ∈ closure) (hbusy : c.Busy world events) :
    events.length ≤ c.toil bound closure.length := by
  induction events generalizing c h with
  | nil => exact Nat.zero_le _
  | cons event events ih =>
      obtain ⟨⟨actor, rfl, hactor, hmoves⟩, hrest⟩ := hbusy
      have hless := hu.toil_apply hworld finite hactor hmoves
      have hle := ih (hu.apply shows hworld (by simp)) hrest
      rw [List.length_cons]
      omega

theorem exists_busy_of_not_quiescent (hquiescent : ¬ c.Quiescent world) :
    ∃ actor : Actor, actor.explores = true ∧ (c.step world actor).2 ≠ .blocked none := by
  refine Classical.byContradiction fun hnone => hquiescent ?_
  have hwaits : ∀ actor : Actor, actor.explores = true → (c.step world actor).2 = .blocked none :=
    fun actor hactor => Classical.byContradiction fun hmoves => hnone ⟨actor, hactor, hmoves⟩
  exact ⟨hwaits .feeder rfl, fun i => hwaits (.worker i) rfl, hwaits .aggregator rfl⟩

/-- A crawl comes to rest if its tasks go on as long as one of them need not wait. -/
theorem comes_to_rest (shows : world.Shows net) (hworld : world.Prompt bound) (hu : c.Underway size net seeds h)
    (finite : ∀ e, net.Reachable seeds e → e ∈ closure) :
    ∃ events, c.Busy world events ∧ (c.run world events).Quiescent world := by
  induction htoil : c.toil bound closure.length using Nat.strong_induction_on generalizing c h with
  | h n ih =>
      by_cases hquiescent : c.Quiescent world
      · exact ⟨[], trivial, hquiescent⟩
      · obtain ⟨actor, hactor, hmoves⟩ := exists_busy_of_not_quiescent hquiescent
        have hless := hu.toil_apply hworld finite hactor hmoves
        obtain ⟨events, hbusy, hrest⟩ := ih _ (htoil ▸ hless) (hu.apply shows hworld (by simp)) rfl
        exact ⟨.act actor :: events, ⟨⟨actor, rfl, hactor, hmoves⟩, hbusy⟩, hrest⟩

end Crawl

end BitcoinCrawl
