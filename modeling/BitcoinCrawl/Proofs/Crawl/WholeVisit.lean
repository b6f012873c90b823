import BitcoinCrawl.Proofs.Crawl.Deeds

set_option autoImplicit false

/-! # A visit from beginning to end

Whatever else happens meanwhile, what a worker does between taking an endpoint and being back follows one of four
scripts (`VisitScript`). `Stage` says how far a visit has come when its worker stands somewhere. Each step of the
worker takes the visit to its next stage, and nobody else moves the worker, so every run does
(`visit_accounted`). -/

namespace BitcoinCrawl

/-! ## The frames of a ping -/

/-- The frames sent on a connection, and one for another message. -/
def Link.sentWith (m : Message) (link : Link) : Array Bytes := link.sent.push (Frame.encode link.magic m)

theorem Link.sent_of_written {link link' : Link} {m : Message} (h : link.send m = (link', .ready (.ok ()))) :
    link'.sent = link.sentWith m := by
  simp only [send] at h
  split at h
  all_goals cases h
  rfl

/-- A write that fails may have been complete before. -/
theorem Link.sent_of_failed {link link' : Link} {m : Message} {fault : TransportFault}
    (h : link.send m = (link', .ready (.error fault))) :
    link'.sent = link.sent ∨ link'.sent = link.sentWith m := by
  simp only [send] at h
  split at h
  all_goals cases h
  · exact .inl rfl
  · exact .inr rfl

/-! ## Scripts -/

/-- A dial with a deadline fails: of itself, or because its time is up. -/
inductive Deed.Fails (deadline : Nat) : Deed → Prop
  | refused (fault : ConnectionFault) : Fails deadline (.refused fault)
  | timedOut (now : Nat) (late : deadline ≤ now) : Fails deadline (.timedOut now)

/-- All that a visit shows, from its first deed to its last. -/
inductive VisitScript (timeout : Nat) (e : Endpoint) : List Deed → Prop
  /-- A stop comes before the dial is over, and no outcome is sent. -/
  | abandoned (start : Nat) : VisitScript timeout e [.marked, .entered start, .abandoned, .left]
  | failed (start : Nat) (deed : Deed) (fails : deed.Fails (start + timeout)) :
      VisitScript timeout e [.marked, .entered start, deed, .sent (.dead e), .left]
  /-- The ping is tried and comes to nothing. -/
  | unpinged (start : Nat) (peer : Peer) (link : Link) (nonce : UInt64) (fault : TransportFault)
      (frames : Array Bytes) (same : peer.endpoint = e) (nonzero : nonce ≠ 0)
      (tried : frames = link.sent ∨ frames = link.sentWith (.ping nonce)) :
      VisitScript timeout e
        [.marked, .entered start, .connected peer link, .sent (.good peer), .noted nonce,
          .unpinged fault frames, .left]
  /-- Of the whole session nothing is sent but the ping. -/
  | served (start : Nat) (peer : Peer) (link : Link) (nonce : UInt64) (reason : SessionEnd)
      (same : peer.endpoint = e) (nonzero : nonce ≠ 0) :
      VisitScript timeout e
        [.marked, .entered start, .connected peer link, .sent (.good peer), .noted nonce, .pinged nonce,
          .ended reason (link.sentWith (.ping nonce)), .left]

/-- What a visit has shown when its worker stands somewhere. -/
inductive Stage (timeout : Nat) (e : Endpoint) : WorkerPhase → List Deed → Prop
  | claimed : Stage timeout e (.claimed e) []
  | marked : Stage timeout e (.marked e) [.marked]
  | dialing (dial : Dial) (start : Nat) (waits : dial.Waits) :
      Stage timeout e (.dialing e dial (start + timeout)) [.marked, .entered start]
  | failed (start : Nat) (deed : Deed) (fails : deed.Fails (start + timeout)) :
      Stage timeout e (.reporting e (.dead e) none) [.marked, .entered start, deed]
  | connected (start : Nat) (peer : Peer) (link : Link) (same : peer.endpoint = e) :
      Stage timeout e (.reporting e (.good peer) (some link))
        [.marked, .entered start, .connected peer link]
  | greeted (start : Nat) (peer : Peer) (link : Link) (same : peer.endpoint = e) :
      Stage timeout e (.noting e link)
        [.marked, .entered start, .connected peer link, .sent (.good peer)]
  | noted (start : Nat) (peer : Peer) (link : Link) (nonce : UInt64) (same : peer.endpoint = e)
      (nonzero : nonce ≠ 0) :
      Stage timeout e (.pinging e link nonce)
        [.marked, .entered start, .connected peer link, .sent (.good peer), .noted nonce]
  | pinged (start : Nat) (peer : Peer) (link : Link) (nonce : UInt64) (session : Session)
      (same : peer.endpoint = e) (nonzero : nonce ≠ 0) (about : session.endpoint = e)
      (line : session.line.sent = link.sentWith (.ping nonce)) :
      Stage timeout e (.serving session)
        [.marked, .entered start, .connected peer link, .sent (.good peer), .noted nonce, .pinged nonce]
  | leaving (deeds : List Deed) (script : VisitScript timeout e (deeds ++ [.left])) :
      Stage timeout e .leaving deeds
  | back (deeds : List Deed) (script : VisitScript timeout e deeds) : Stage timeout e .idle deeds

variable {world : World} {timeout size i : Nat} {e : Endpoint} {phase : WorkerPhase} {deeds : List Deed}
  {deed : Deed} {c₀ c c' : Crawl} {h : History}

/-- A worker leaves at the end of a script only. -/
theorem VisitScript.left_not_mem (script : VisitScript timeout e (deeds ++ [.left])) : .left ∉ deeds := by
  generalize hall : deeds ++ [.left] = all at script
  obtain rfl : deeds = all.dropLast := by rw [← hall, List.dropLast_concat]
  cases script with
  | failed start deed fails => cases fails <;> simp
  | _ => simp

namespace Stage

/-- Every stage is one of a script. -/
theorem script (stage : Stage timeout e phase deeds) :
    ∃ script, VisitScript timeout e script ∧ deeds <+: script := by
  cases stage with
  | claimed => exact ⟨_, .abandoned 0, List.nil_prefix⟩
  | marked => exact ⟨_, .abandoned 0, List.prefix_append [_] _⟩
  | dialing dial start waits => exact ⟨_, .abandoned start, List.prefix_append [_, _] _⟩
  | failed start deed fails =>
      exact ⟨_, .failed start deed fails, List.prefix_append [_, _, _] _⟩
  | connected start peer link same =>
      exact ⟨_, .served start peer link 1 .closed same (by decide), List.prefix_append [_, _, _] _⟩
  | greeted start peer link same =>
      exact ⟨_, .served start peer link 1 .closed same (by decide), List.prefix_append [_, _, _, _] _⟩
  | noted start peer link nonce same nonzero =>
      exact ⟨_, .served start peer link nonce .closed same nonzero, List.prefix_append [_, _, _, _, _] _⟩
  | pinged start peer link nonce session same nonzero about line =>
      exact ⟨_, .served start peer link nonce .closed same nonzero, List.prefix_append [_, _, _, _, _, _] _⟩
  | leaving deeds script => exact ⟨_, script, List.prefix_append deeds _⟩
  | back deeds script => exact ⟨_, script, List.prefix_rfl⟩

/-- A worker that has left is at the end of its script. -/
theorem complete (stage : Stage timeout e phase deeds) (left : .left ∈ deeds) :
    VisitScript timeout e deeds := by
  cases stage with
  | failed start deed fails => cases fails <;> simp at left
  | leaving deeds script => exact absurd left script.left_not_mem
  | back deeds script => exact script
  | _ => simp at left

/-- A step of the worker takes its visit to the next stage. -/
theorem next (stage : Stage world.config.peerTimeout e phase deeds) (hi : c.phaseOf i = some phase)
    (fits : phase.Fits) (does : c.Does world i e c' deed) :
    ∃ phase', c'.phaseOf i = some phase' ∧
      Stage world.config.peerTimeout e phase' (deeds ++ [deed].filter Deed.shows) := by
  have hstands : ∀ {before}, c.phaseOf i = some before → phase = before :=
    fun h => Option.some.inj (hi.symm.trans h)
  -- Where the worker stands leaves one stage, or two where it may report a good or a dead node.
  cases does with
  | marked before after queued connecting books =>
      cases hstands before
      cases stage
      exact ⟨_, after, .marked⟩
  | entered before after books =>
      cases hstands before
      cases stage
      exact ⟨_, after, .dialing _ _ trivial⟩
  | dialed dial deadline before after running answer books =>
      cases hstands before
      cases stage with
      | dialing _ start waits => exact ⟨_, after, .dialing _ start (Dial.step_effort waits c.shared).1⟩
  | abandoned dial deadline before after stopped connecting books =>
      cases hstands before
      cases stage with
      | dialing _ start => exact ⟨_, after, .leaving _ (.abandoned start)⟩
  | refused dial deadline fault before after running answer books =>
      cases hstands before
      cases stage with
      | dialing _ start => exact ⟨_, after, .failed start _ (.refused fault)⟩
  | timedOut dial deadline wake before after running answer late books =>
      cases hstands before
      cases stage with
      | dialing _ start => exact ⟨_, after, .failed start _ (.timedOut _ late)⟩
  | connected dial deadline connected before after running answer books =>
      cases hstands before
      cases stage with
      | dialing _ start =>
          exact ⟨_, after, .connected start _ _ (Dial.step_connected world fits answer)⟩
  | sent outcome link before after books =>
      cases hstands before
      cases stage with
      | failed start deed fails => exact ⟨_, after, .leaving _ (.failed start deed fails)⟩
      | connected start peer link same => exact ⟨_, after, .greeted start peer link same⟩
  | noted link nonce n before after nonzero live stored books =>
      cases hstands before
      cases stage with
      | greeted start peer _ same => exact ⟨_, after, .noted start peer link nonce same nonzero⟩
  | stalled link nonce wake before after write books =>
      cases hstands before
      cases stage with
      | noted start peer _ _ same nonzero => exact ⟨_, after, .noted start peer link nonce same nonzero⟩
  | pinged link link' nonce session before after write about line books =>
      cases hstands before
      cases stage with
      | noted start peer _ _ same nonzero =>
          have hsent : session.line.sent = link.sentWith (.ping nonce) := by
            rw [line]
            exact Link.sent_of_written write
          exact ⟨_, after, .pinged start peer link nonce session same nonzero about hsent⟩
  | unpinged link link' nonce fault before after write books =>
      cases hstands before
      cases stage with
      | noted start peer _ _ same nonzero =>
          have hsent := Link.sent_of_failed write
          exact ⟨_, after, .leaving _ (.unpinged start peer link nonce fault _ same nonzero hsent)⟩
  | served session before after unfinished about silent books =>
      cases hstands before
      cases stage with
      | pinged start peer link nonce _ same nonzero habout hline =>
          exact ⟨_, after, .pinged start peer link nonce _ same nonzero (about.trans habout) (silent.trans hline)⟩
  | ended session reason before after answer books =>
      cases hstands before
      cases stage with
      | pinged start peer link nonce _ same nonzero about line =>
          refine ⟨_, after, .leaving _ ?_⟩
          rw [line]
          exact .served start peer link nonce reason same nonzero
  | left before after books =>
      cases hstands before
      cases stage with
      | leaving _ script => exact ⟨_, after, .back _ script⟩

/-- No dial holds anything beyond the current frame. -/
theorem waits {dial : Dial} {deadline : Nat} (stage : Stage timeout e (.dialing e dial deadline) deeds) :
    dial.Waits := by
  cases stage
  assumption

end Stage

namespace Crawl

/-! ## Steps of a visit in a crawl -/

/-- Whatever has happened in a crawl, a worker on a visit can go on with it. -/
theorem step_does {seeds : List Endpoint} (hinit : c₀.outline.Initial size seeds)
    (reach : Outline.Reach world c₀.outline h c.outline) (stage : Stage timeout e phase deeds)
    (hi : c.phaseOf i = some phase) (away : phase ≠ .idle) :
    ∃ deed, c.Does world i e (c.stepWorker world i).1 deed := by
  obtain ⟨ho, hc⟩ := hinit.reach reach
  obtain ⟨worker, hworker, rfl⟩ := workers_of_phases ((phaseOf_eq c i).symm.trans hi)
  have hphase := phases_of_workers hworker
  simp only [stepWorker, hworker]
  generalize hplace : worker.phase = phase at *
  cases stage with
  | claimed => exact ⟨_, stepClaimed_does world hworker hi (hc.held hphase rfl)⟩
  | marked => exact ⟨_, stepMarked_does world hworker hi⟩
  | dialing dial start waits => exact stepDialing_does world hworker hi (hc.held hphase rfl)
  | failed start deed fails => exact ⟨_, stepReporting_does world hworker hi ho.listening⟩
  | connected start peer link same => exact ⟨_, stepReporting_does world hworker hi ho.listening⟩
  | greeted start peer link same =>
      have hgreeted := (hinit.reach_seen reach).1.phases _ (List.mem_of_getElem? hphase)
      obtain ⟨n, hn, live⟩ := hc.greeted (hinit.reach_outcomes reach) hgreeted
      obtain ⟨nonce, hdoes⟩ := stepNoting_does world hworker hi hn live
      exact ⟨_, hdoes⟩
  | noted start peer link nonce same nonzero => exact stepPinging_does world hworker hi
  | pinged start peer link nonce session same nonzero about line => exact stepServing_does world hworker hi
  | leaving deeds script => exact ⟨_, stepLeaving_does world hworker hi⟩
  | back deeds script => exact absurd rfl away

/-! ## Runs of a visit -/

/-- Whether an event is a step of the worker at a place in the pool. -/
def Event.isBy (i : Nat) : Event → Bool
  | .act (.worker j) => j == i
  | _ => false

/-- Whether a worker waits for an endpoint. -/
def isBack (c : Crawl) (i : Nat) : Bool :=
  match c.phaseOf i with
  | some .idle => true
  | _ => false

/-- The crawl before and behind each step of a worker, until the worker waits for an endpoint. -/
def visitSteps (world : World) (i : Nat) (c : Crawl) : List Event → List (Crawl × Crawl)
  | [] => []
  | event :: events =>
    let c' := c.apply world event
    if c.isBack i then []
    else if event.isBy i then (c, c') :: c'.visitSteps world i events
    else c'.visitSteps world i events

theorem isBack_eq_true : c.isBack i = true ↔ c.phaseOf i = some .idle := by
  unfold isBack
  split <;> simp_all

theorem visitSteps_back (world : World) (events : List Event) (hback : c.phaseOf i = some .idle) :
    c.visitSteps world i events = [] := by
  cases events with
  | nil => rfl
  | cons event events => exact if_pos (isBack_eq_true.mpr hback)

/-- An event on a visit is a step of the worker, or leaves the worker where it is. -/
theorem visitSteps_cons (world : World) (event : Event) (events : List Event) (away : c.phaseOf i ≠ some .idle) :
    (event = .act (.worker i) ∧ c.visitSteps world i (event :: events)
        = (c, c.apply world event) :: (c.apply world event).visitSteps world i events) ∨
      c.visitSteps world i (event :: events) = (c.apply world event).visitSteps world i events ∧
        (c.apply world event).phaseOf i = c.phaseOf i := by
  have hgoes : ¬ c.isBack i = true := mt isBack_eq_true.mp away
  by_cases hown : event = .act (.worker i)
  · subst hown
    have hby : Event.isBy i (.act (.worker i)) = true := beq_self_eq_true i
    exact .inl ⟨rfl, (if_neg hgoes).trans (if_pos hby)⟩
  · have hother : ¬ event.isBy i = true := by
      unfold Event.isBy
      split
      next j => exact fun hj => hown (eq_of_beq hj ▸ rfl)
      next => exact Bool.false_ne_true
    refine .inr ⟨(if_neg hgoes).trans (if_neg hother), ?_⟩
    rw [phaseOf_eq, phases_apply hown, ← phaseOf_eq]

/-- The steps of a worker, one by one, are these deeds of a visit. -/
def VisitDoes (world : World) (i : Nat) (e : Endpoint) : List (Crawl × Crawl) → List Deed → Prop :=
  List.Forall₂ fun step deed => Does world i e step.1 step.2 deed

/-! ### Dials that are to end -/

/-- A dial with a deadline has no time left: the crawl is stopped, or the deadline is there. -/
def Late (c : Crawl) (deadline : Nat) : Prop := c.shared.cancelled = true ∨ deadline ≤ c.shared.now

/-- A dial is to end: it has no time left, or it has a result. -/
def Due (world : World) (c : Crawl) (e : Endpoint) (dial : Dial) (deadline : Nat) : Prop :=
  c.Late deadline ∨ ∃ result, (dial.step world e c.shared).2.2 = .finished result

variable {dial : Dial} {deadline : Nat}

theorem Late.apply (late : c.Late deadline) (world : World) (event : Event) :
    (c.apply world event).Late deadline := by
  have hstep := apply_outline world c event
  rcases late with stopped | passed
  · exact .inl (hstep.cancelled stopped)
  · exact .inr (Nat.le_trans passed hstep.now_le)

/-- A worker whose dial is to end abandons it, or is about to report, or still gets on with it. -/
theorem Does.of_due (does : c.Does world i e c' deed) (hi : c.phaseOf i = some (.dialing e dial deadline))
    (waits : dial.Waits) (due : c.Due world e dial deadline) :
    deed.settles = true ∨ (∃ outcome link, c'.phaseOf i = some (.reporting e outcome link)) ∨
      ∃ dial', c'.phaseOf i = some (.dialing e dial' deadline) ∧ dial'.Waits ∧
        dial'.effort world e < dial.effort world e ∧ c.Late deadline := by
  have hstands : ∀ {before}, c.phaseOf i = some before → .dialing e dial deadline = before :=
    fun h => Option.some.inj (hi.symm.trans h)
  cases does with
  | dialed dial deadline before after running answer books =>
      cases hstands before
      obtain ⟨hwaits, hless⟩ := @Dial.step_effort world e _ waits c.shared
      rcases answer with hmoved | ⟨wake, hwaiting, htimely⟩
      · rcases due with late | ⟨result, hresult⟩
        · exact .inr (.inr ⟨_, after, hwaits, hless hmoved, late⟩)
        · cases hmoved.symm.trans hresult
      · rcases due with (stopped | passed) | ⟨result, hresult⟩
        · cases running.symm.trans stopped
        · exact absurd passed (Nat.not_le_of_lt htimely)
        · cases hwaiting.symm.trans hresult
  | abandoned => exact .inl rfl
  | refused dial deadline fault before after => exact .inr (.inl ⟨_, _, after⟩)
  | timedOut dial deadline wake before after => exact .inr (.inl ⟨_, _, after⟩)
  | connected dial deadline connected before after => exact .inr (.inl ⟨_, _, after⟩)
  | marked before | entered before | sent _ _ before | noted _ _ _ before | stalled _ _ _ before
  | pinged _ _ _ _ before | unpinged _ _ _ _ before | served _ before | ended _ _ before | left before =>
      cases hstands before

/-- A worker that is about to report does so with its next step. -/
theorem settles_of_reporting {outcome : Outcome} {link : Option Link} (events : List Event)
    (done : VisitDoes world i e (c.visitSteps world i events) deeds)
    (hi : c.phaseOf i = some (.reporting e outcome link)) (enough : 0 < (c.visitSteps world i events).length) :
    ∃ deed ∈ deeds, deed.settles = true := by
  induction events generalizing c deeds with
  | nil => cases enough
  | cons event events ih =>
      have haway : c.phaseOf i ≠ some .idle := by simp [hi]
      rcases visitSteps_cons world event events haway with ⟨rfl, hsteps⟩ | ⟨hsteps, hsame⟩
      · rw [hsteps] at done
        cases done with
        | cons does done =>
            have hstands : ∀ {before}, c.phaseOf i = some before → .reporting e outcome link = before :=
              fun h => Option.some.inj (hi.symm.trans h)
            cases does with
            | sent outcome link before after books => exact ⟨_, List.mem_cons_self, rfl⟩
            | marked before | entered before | dialed _ _ before | abandoned _ _ before | refused _ _ _ before
            | timedOut _ _ _ before | connected _ _ _ before | noted _ _ _ before | stalled _ _ _ before
            | pinged _ _ _ _ before | unpinged _ _ _ _ before | served _ before | ended _ _ before
            | left before => cases hstands before
      · rw [hsteps] at done enough
        exact ih done (hsame.trans hi) enough

/-- A dial without time left is settled once its worker has taken more steps than the dial can go on. -/
theorem settles_of_late (events : List Event) (done : VisitDoes world i e (c.visitSteps world i events) deeds)
    (hi : c.phaseOf i = some (.dialing e dial deadline)) (waits : dial.Waits) (late : c.Late deadline)
    (enough : dial.effort world e + 1 < (c.visitSteps world i events).length) :
    ∃ deed ∈ deeds, deed.settles = true := by
  induction events generalizing c deeds dial with
  | nil => cases enough
  | cons event events ih =>
      have haway : c.phaseOf i ≠ some .idle := by simp [hi]
      have hlate := late.apply world event
      rcases visitSteps_cons world event events haway with ⟨rfl, hsteps⟩ | ⟨hsteps, hsame⟩
      · rw [hsteps] at done enough
        rw [List.length_cons] at enough
        cases done with
        | cons does done =>
            rcases does.of_due hi waits (.inl late) with settles | ⟨outcome, link, hreporting⟩ |
              ⟨dial', hdialing, waits', less, -⟩
            · exact ⟨_, List.mem_cons_self, settles⟩
            · obtain ⟨deed, hmem, settles⟩ := settles_of_reporting events done hreporting (by omega)
              exact ⟨deed, List.mem_cons_of_mem _ hmem, settles⟩
            · obtain ⟨deed, hmem, settles⟩ := ih done hdialing waits' hlate (by omega)
              exact ⟨deed, List.mem_cons_of_mem _ hmem, settles⟩
      · rw [hsteps] at done enough
        exact ih done (hsame.trans hi) waits hlate enough

/-- Where a dial is to end, its outcome is sent or the dial is abandoned with so many steps of the worker. -/
def SettlesInTime (world : World) (i : Nat) (e : Endpoint) (steps : List (Crawl × Crawl)) (deeds : List Deed) : Prop :=
  ∀ earlier step later, steps = earlier ++ step :: later →
    ∀ dial deadline, step.1.phaseOf i = some (.dialing e dial deadline) → step.1.Due world e dial deadline →
      dial.effort world e < later.length → ∃ deed ∈ deeds, deed.settles = true

theorem SettlesInTime.cons {steps : List (Crawl × Crawl)} (h : SettlesInTime world i e steps deeds)
    (now : ∀ dial deadline, c.phaseOf i = some (.dialing e dial deadline) → c.Due world e dial deadline →
      dial.effort world e < steps.length → ∃ deed' ∈ deed :: deeds, deed'.settles = true) :
    SettlesInTime world i e ((c, c') :: steps) (deed :: deeds) := by
  intro earlier step later hsplit dial deadline hdialing due enough
  cases earlier with
  | nil =>
      cases hsplit
      exact now dial deadline hdialing due enough
  | cons first earlier =>
      obtain ⟨deed', hmem, settles⟩ :=
        h earlier step later (List.cons.inj hsplit).2 dial deadline hdialing due enough
      exact ⟨deed', List.mem_cons_of_mem _ hmem, settles⟩

/-- A worker whose dial is to end has few steps left with it. -/
theorem settles_of_due (events : List Event) (does : c.Does world i e c' deed)
    (done : VisitDoes world i e (c'.visitSteps world i events) deeds)
    (following : ∀ deadline, c.Late deadline → c'.Late deadline)
    (hi : c.phaseOf i = some (.dialing e dial deadline)) (waits : dial.Waits) (due : c.Due world e dial deadline)
    (enough : dial.effort world e < (c'.visitSteps world i events).length) :
    ∃ deed' ∈ deed :: deeds, deed'.settles = true := by
  rcases does.of_due hi waits due with
    settles | ⟨outcome, link, hreporting⟩ | ⟨dial', hdialing, waits', less, late⟩
  · exact ⟨_, List.mem_cons_self, settles⟩
  · obtain ⟨deed', hmem, settles⟩ := settles_of_reporting events done hreporting (by omega)
    exact ⟨deed', List.mem_cons_of_mem _ hmem, settles⟩
  · obtain ⟨deed', hmem, settles⟩ :=
      settles_of_late events done hdialing waits' (following deadline late) (by omega)
    exact ⟨deed', List.mem_cons_of_mem _ hmem, settles⟩

/-! ### Every run -/

/-- Every run takes the visit of a worker to some stage, at the end of the run if the worker is not back before. -/
theorem visit_run {seeds : List Endpoint} (hinit : c₀.outline.Initial size seeds)
    (reach : Outline.Reach world c₀.outline h c.outline)
    (stage : Stage world.config.peerTimeout e phase deeds) (hi : c.phaseOf i = some phase)
    (events : List Event) :
    ∃ done, VisitDoes world i e (c.visitSteps world i events) done ∧
      SettlesInTime world i e (c.visitSteps world i events) done ∧
      ∃ earlier later phase', events = earlier ++ later ∧ (later = [] ∨ phase' = .idle) ∧
        (c.run world earlier).phaseOf i = some phase' ∧
        Stage world.config.peerTimeout e phase' (deeds ++ done.filter Deed.shows) := by
  have hover : SettlesInTime world i e [] [] := by
    intro earlier step later hsplit
    simp at hsplit
  induction events generalizing c h phase deeds with
  | nil => exact ⟨[], .nil, hover, [], [], phase, rfl, .inl rfl, hi, by simpa using stage⟩
  | cons event events ih =>
      have hreach := reach.step (apply_outline world c event)
      by_cases hback : c.phaseOf i = some .idle
      · rw [visitSteps_back world _ hback]
        have hidle := Option.some.inj (hi.symm.trans hback)
        exact ⟨[], .nil, hover, [], _, phase, rfl, .inr hidle, hi, by simpa using stage⟩
      · rcases visitSteps_cons world event events hback with ⟨rfl, hsteps⟩ | ⟨hsteps, hsame⟩
        · have haway : phase ≠ .idle := fun hidle => hback (hidle ▸ hi)
          have hfits := (hinit.reach reach).1.fits _ (List.mem_of_getElem? ((phaseOf_eq c i).symm.trans hi))
          obtain ⟨deed, hdoes⟩ := step_does hinit reach stage hi haway
          obtain ⟨phase', hphase', hnext⟩ := stage.next hi hfits hdoes
          obtain ⟨done, hdone, hsettles, earlier, later, phase'', hevents, hends, hstands, hlast⟩ :=
            ih hreach hnext hphase'
          refine ⟨deed :: done, ?_, ?_, .act (.worker i) :: earlier, later, phase'', congrArg _ hevents, hends,
            hstands, ?_⟩
          · rw [hsteps]
            exact .cons hdoes hdone
          · rw [hsteps]
            refine hsettles.cons fun dial deadline hdialing due enough => ?_
            cases Option.some.inj (hi.symm.trans hdialing)
            exact settles_of_due events hdoes hdone (fun _ late => late.apply world (.act (.worker i))) hdialing
              stage.waits due enough
          · rwa [List.append_assoc, ← List.filter_append] at hlast
        · obtain ⟨done, hdone, hsettles, earlier, later, phase', hevents, hlast⟩ :=
            ih hreach stage (hsame.trans hi)
          rw [hsteps]
          exact ⟨done, hdone, hsettles, event :: earlier, later, phase', congrArg _ hevents, hlast⟩

/-! ## Abandoned dials -/

/-- An abandoned dial is seen as one. -/
theorem Does.facts_abandoned (does : c.Does world i e c' .abandoned) :
    c.facts world (.act (.worker i)) = [.abandoned e] := by
  cases does with
  | abandoned dial deadline before after stopped connecting books =>
      obtain ⟨worker, hworker, hphase⟩ := workers_of_phases ((phaseOf_eq c i).symm.trans before)
      simp only [facts, hworker, hphase, workerFacts, dialFacts, if_pos stopped]

theorem abandoned_of_visit (events : List Event) (done : VisitDoes world i e (c.visitSteps world i events) deeds)
    (habandoned : .abandoned ∈ deeds) : e ∈ (c.chronicle world events).abandoned := by
  induction events generalizing c deeds with
  | nil =>
      cases done
      cases habandoned
  | cons event events ih =>
      rw [chronicle, History.abandoned_append]
      by_cases hback : c.phaseOf i = some .idle
      · rw [visitSteps_back world _ hback] at done
        cases done
        cases habandoned
      · rcases visitSteps_cons world event events hback with ⟨rfl, hsteps⟩ | ⟨hsteps, -⟩
        · rw [hsteps] at done
          cases done with
          | cons does done =>
              rcases List.mem_cons.mp habandoned with rfl | hlater
              · rw [does.facts_abandoned]
                exact List.mem_append_left _ (List.mem_singleton.mpr rfl)
              · exact List.mem_append_right _ (ih done hlater)
        · rw [hsteps] at done
          exact List.mem_append_right _ (ih done habandoned)

end Crawl

/-- The node of an abandoned dial stays as it was marked. -/
theorem Outline.Counted.abandoned {o : Outline} (hc : o.Counted h) (hmem : e ∈ h.abandoned) :
    o.registry.state? e = some .connecting := by
  have hpos := List.count_pos_iff.mpr hmem
  have hcount := hc e .connecting (by simp)
  by_contra hne
  rw [if_neg hne] at hcount
  simp only [tally] at hcount
  omega

/-! ## The account of a visit -/

namespace Crawl

/-- What a worker does on a visit while some events happen to a crawl. -/
structure Visits (world : World) (i : Nat) (e : Endpoint) (c : Crawl) (events : List Event) (deeds : List Deed) :
    Prop where
  /-- Each step of the worker until it is back does one deed. -/
  does : VisitDoes world i e (c.visitSteps world i events) deeds
  /-- They have taken the visit to where the worker stands at last, or when it is back. -/
  stands : ∃ earlier later phase, events = earlier ++ later ∧ (later = [] ∨ phase = .idle) ∧
    (c.run world earlier).phaseOf i = some phase ∧
    Stage world.config.peerTimeout e phase (deeds.filter Deed.shows)
  /-- What shows of them is the beginning of a script. -/
  begins : ∃ script, VisitScript world.config.peerTimeout e script ∧ deeds.filter Deed.shows <+: script
  /-- Once the worker has left, it is all of one. -/
  ends : .left ∈ deeds → VisitScript world.config.peerTimeout e (deeds.filter Deed.shows)
  /-- When its dial has a result or no time left, or the crawl is stopped, the worker reports or gives up with so
      many steps as the dial can go on, and two. -/
  settles : SettlesInTime world i e (c.visitSteps world i events) deeds
  /-- A node whose dial was abandoned is never classified. -/
  abandoned : .abandoned ∈ deeds → (c.run world events).shared.registry.state? e = some .connecting

variable {seeds : List Endpoint} {s : Shared}

/-- **A visit follows a script.** Whenever a worker has taken an endpoint and whatever then happens in whatever
    order, until it is back it does what one of the scripts says and nothing else: no outcome or exactly one, in
    the queue before the ping; a nonce in the registry before the ping that carries it; no other message and none
    counted but a ping that was written; and one begin and one end of the visit. -/
theorem visit_accounted (fresh : s.Fresh) (started : start world seeds s = .ok c) (before : List Event)
    (claimed : (c.run world before).phaseOf i = some (.claimed e)) (events : List Event) :
    ∃ deeds, Visits world i e (c.run world before) events deeds := by
  have hinit := start_outline fresh started
  have hreach := reach_run world c before
  obtain ⟨deeds, hdone, hsettles, earlier, later, phase, hevents, hends, hstands, hstage⟩ :=
    visit_run hinit hreach .claimed claimed events
  rw [List.nil_append] at hstage
  refine ⟨deeds, hdone, ⟨earlier, later, phase, hevents, hends, hstands, hstage⟩, hstage.script, fun left => ?_,
    hsettles, fun habandoned => ?_⟩
  · exact hstage.complete (List.mem_filter.mpr ⟨left, rfl⟩)
  · have hmem := abandoned_of_visit events hdone habandoned
    obtain ⟨-, hc⟩ := hinit.reach (hreach.trans (reach_run world (c.run world before) events))
    refine hc.abandoned ?_
    rw [History.abandoned_append]
    exact List.mem_append_right _ hmem

/-- It holds for a visit that has come to its session: the peer was reported as good, and then it was pinged. -/
theorem talkingWorld_visit : ∃ c events, start talkingWorld [firstSeed, secondSeed] { host := default } = .ok c ∧
    (c.run talkingWorld taking).phaseOf 0 = some (.claimed firstSeed) ∧
    ∃ deeds, Visits talkingWorld 0 firstSeed (c.run talkingWorld taking) events deeds ∧
      ∃ start peer link nonce, deeds.filter Deed.shows =
        [.marked, .entered start, .connected peer link, .sent (.good peer), .noted nonce, .pinged nonce] := by
  obtain ⟨c, c', started, hclaimed, hgoes, hattends⟩ := talkingWorld_attends
  obtain ⟨n, hn, haway⟩ := hgoes.alone
  obtain ⟨session, deadline, -, hworkers⟩ := hattends.serving
  obtain ⟨deeds, hvisits⟩ :=
    visit_accounted ⟨rfl, rfl⟩ started taking hclaimed (List.replicate n (.act (.worker 0)))
  refine ⟨c, _, started, hclaimed, deeds, hvisits, ?_⟩
  obtain ⟨earlier, later, phase, hevents, hends, hstands, hstage⟩ := hvisits.stands
  obtain ⟨hlength, hearlier, -⟩ := List.append_eq_replicate_iff.mp hevents.symm
  rcases hends with rfl | rfl
  · rw [List.append_nil] at hevents
    rw [← hevents, show (c.run talkingWorld taking).run talkingWorld _ = c' from hn, phaseOf, hworkers] at hstands
    obtain rfl : .serving session = phase := Option.some.inj hstands
    generalize deeds.filter Deed.shows = shown at hstage ⊢
    cases hstage with
    | pinged start peer link nonce => exact ⟨start, peer, link, nonce, rfl⟩
  · rw [hearlier] at hstands
    exact absurd hstands (haway earlier.length (by omega))

end Crawl

end BitcoinCrawl
