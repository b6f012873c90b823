import BitcoinCrawl.Proofs.Crawl.Reasons
import BitcoinCrawl.Proofs.Crawl.TalkerVisits

set_option autoImplicit false

/-! # One dial, one verdict

An endpoint is dialed once, its dial ends once, and at most one outcome is sent for it, which says how that
dial ended. What a node is classified as is the outcome that was sent, and nothing that happens later
changes it. Only peers whose good outcome was sent are pinged, so no call on the registry that a worker, a
session or the aggregator makes ever fails (`one_verdict`). -/

namespace BitcoinCrawl

/-! ## Counting dials -/

namespace History

theorem mem_called {h : History} {e : Endpoint} : e ∈ h.called ↔ ∃ start, .called e start ∈ h := by
  constructor
  · intro hmem
    obtain ⟨fact, hfact, heq⟩ := List.mem_filterMap.mp hmem
    cases fact <;> cases heq
    exact ⟨_, hfact⟩
  · rintro ⟨start, hfact⟩
    exact List.mem_filterMap.mpr ⟨_, hfact, rfl⟩

/-- An endpoint that was dialed once was dialed at one instant. -/
theorem called_unique {h : History} {e : Endpoint} {t t' : Nat} (honce : h.called.Nodup)
    (hcalled : .called e t ∈ h) (hcalled' : .called e t' ∈ h) : t = t' := by
  induction h with
  | nil => cases hcalled
  | cons fact rest ih =>
      have hrest : (called rest).Nodup :=
        honce.sublist ((List.sublist_cons_self fact rest).filterMap _)
      have hfirst : ∀ t, fact = .called e t → ∀ t', Fact.called e t' ∉ rest := by
        rintro t rfl t' hmem
        exact (List.nodup_cons.mp honce).1 (mem_called.mpr ⟨t', hmem⟩)
      rcases List.mem_cons.mp hcalled with heq | hmem <;>
        rcases List.mem_cons.mp hcalled' with heq' | hmem'
      · rw [← heq] at heq'
        exact (Fact.called.inj heq').2.symm
      · exact absurd hmem' (hfirst t heq.symm t')
      · exact absurd hmem (hfirst t' heq'.symm t)
      · exact ih hrest hmem hmem'

end History

namespace WorkerPhase

/-- Whether the worker waits for a dial of an endpoint. -/
def isDialingOf (e : Endpoint) : WorkerPhase → Bool
  | dialing e' _ _ => e' == e
  | _ => false

/-- Whether the worker is about to send the outcome of an endpoint. -/
def isReportingOf (e : Endpoint) : WorkerPhase → Bool
  | reporting e' _ _ => e' == e
  | _ => false

end WorkerPhase

namespace Outline

variable {world : World} {size : Nat} {o o' : Outline} {h facts : History}

/-- A dial that was begun goes on or has ended, and one that has ended was given up or its outcome is about
    to be sent or was sent. -/
structure Tracked (o : Outline) (h : History) : Prop where
  called : ∀ e, h.called.count e = h.ended.count e + o.phases.countP (·.isDialingOf e)
  ended : ∀ e, h.ended.count e = h.abandoned.count e + o.phases.countP (·.isReportingOf e)
    + (h.reported.map Outcome.endpoint).count e

/-- A dial that has ended was begun. -/
theorem Tracked.called_of_ended {e : Endpoint} (ht : o.Tracked h) (hended : e ∈ h.ended) :
    ∃ start, .called e start ∈ h := by
  refine History.mem_called.mp (List.count_pos_iff.mp ?_)
  rw [ht.called]
  exact Nat.add_pos_left (List.count_pos_iff.mpr hended) _

theorem Initial.tracked {seeds : List Endpoint} (hinit : o.Initial size seeds) : o.Tracked [] where
  called := by
    intro e
    simp [hinit.phases, List.countP_replicate, WorkerPhase.isDialingOf, History.called, History.ended]
  ended := by
    intro e
    simp [hinit.phases, List.countP_replicate, WorkerPhase.isReportingOf, History.ended,
      History.abandoned, History.reported]

/-- Nothing of a dial or an outcome on its way has been seen. -/
theorem Tracked.append (facts : History) (ht : o.Tracked h) (hcalled : facts.called = [])
    (hended : facts.ended = []) (habandoned : facts.abandoned = []) (hreported : facts.reported = []) :
    o.Tracked (h ++ facts) where
  called := by
    intro e
    rw [History.called_append, History.ended_append, hcalled, hended, List.append_nil, List.append_nil]
    exact ht.called e
  ended := by
    intro e
    rw [History.ended_append, History.abandoned_append, History.reported_append, hended, habandoned,
      hreported, List.append_nil, List.append_nil, List.append_nil]
    exact ht.ended e

/-- A worker comes to stand somewhere else, and what is seen of that accounts for the change. -/
theorem Tracked.turn {i : Nat} {old : WorkerPhase} (new : WorkerPhase) (facts : History)
    (ht : o.Tracked h) (hi : o.phases[i]? = some old)
    (hcalled : ∀ e, facts.called.count e + (if old.isDialingOf e then 1 else 0)
      = facts.ended.count e + if new.isDialingOf e then 1 else 0)
    (hended : ∀ e, facts.ended.count e + (if old.isReportingOf e then 1 else 0)
      = facts.abandoned.count e + (facts.reported.map Outcome.endpoint).count e
        + if new.isReportingOf e then 1 else 0) :
    (o.place i new).Tracked (h ++ facts) where
  called := by
    intro e
    have hcount := countP_set_add (·.isDialingOf e) new hi
    have hbefore := ht.called e
    have hfacts := hcalled e
    rw [History.called_append, History.ended_append, List.count_append, List.count_append, place_phases]
    omega
  ended := by
    intro e
    have hcount := countP_set_add (·.isReportingOf e) new hi
    have hbefore := ht.ended e
    have hfacts := hended e
    rw [History.ended_append, History.abandoned_append, History.reported_append, List.map_append,
      List.count_append, List.count_append, List.count_append, place_phases]
    omega

/-- A worker that neither dials nor reports, before or after, changes no count. -/
theorem Tracked.place {i : Nat} {old : WorkerPhase} (new : WorkerPhase) (ht : o.Tracked h)
    (hi : o.phases[i]? = some old) (hdialing : ∀ e, new.isDialingOf e = old.isDialingOf e)
    (hreporting : ∀ e, new.isReportingOf e = old.isReportingOf e) :
    (o.place i new).Tracked (h ++ []) :=
  ht.turn new [] hi (fun e => by rw [hdialing]; rfl) (fun e => by rw [hreporting]; rfl)

theorem Step.tracked (step : Step world o facts o') (ho : o.Orderly size) (ht : o.Tracked h) :
    o'.Tracked (h ++ facts) := by
  cases step with
  | rest | stop | pass | shift | search | hand => exact { ht.append [] rfl rfl rfl rfl with }
  | record outcome items front => exact { ht.append [.recorded outcome] rfl rfl rfl rfl with }
  | wake i hi => exact ht.place .idle hi (fun _ => rfl) (fun _ => rfl)
  | retire i queue hi kept => exact { ht.place .exited hi (fun _ => rfl) (fun _ => rfl) with }
  | claim i e items hi running front =>
      exact { ht.place (.claimed e) hi (fun _ => rfl) (fun _ => rfl) with }
  | mark i e registry hi marked =>
      exact { ht.place (.marked e) hi (fun _ => rfl) (fun _ => rfl) with }
  | skip i e fault hi failed => exact ht.place .idle hi (fun _ => rfl) (fun _ => rfl)
  | dial i e hi =>
      have hbegun : (o.place i (.dialing e (.unanswered none) (o.now + world.config.peerTimeout))).Tracked
          (h ++ [.called e o.now]) := by
        refine ht.turn _ [.called e o.now] hi (fun e' => ?_) (fun e' => ?_)
        · simp [History.called, History.ended, WorkerPhase.isDialingOf, List.count_singleton]
        · simp [History.ended, History.abandoned, History.reported, WorkerPhase.isReportingOf]
      exact { hbegun with }
  | abandon i e dial deadline hi stopped =>
      refine ht.turn .leaving [.abandoned e] hi (fun e' => ?_) (fun e' => ?_)
      · simp [History.called, History.ended, WorkerPhase.isDialingOf, List.count_singleton]
      · simp [History.ended, History.abandoned, History.reported, WorkerPhase.isReportingOf]
  | await i e dial deadline s seen hi timely =>
      refine ht.turn (.dialing e (dial.step world e s).1 deadline) facts hi (fun e' => ?_) (fun e' => ?_)
      · rcases timely with rfl | ⟨rfl, -⟩ <;> rfl
      · rcases timely with rfl | ⟨rfl, -⟩ <;> rfl
  | connect i e dial deadline s connected hi answer =>
      refine ht.turn (.reporting e (.good connected.peer) (some connected.link))
        [.connected e connected.peer] hi (fun e' => ?_) (fun e' => ?_)
      · simp [History.called, History.ended, WorkerPhase.isDialingOf, List.count_singleton]
      · simp [History.ended, History.abandoned, History.reported, WorkerPhase.isReportingOf,
          List.count_singleton]
  | fail i e dial deadline seen hi reason =>
      have hended : History.ended [seen] = [e] := by rcases reason with ⟨fault, rfl⟩ | ⟨rfl, -⟩ <;> rfl
      have hcalled : History.called [seen] = [] := by rcases reason with ⟨fault, rfl⟩ | ⟨rfl, -⟩ <;> rfl
      have habandoned : History.abandoned [seen] = [] := by
        rcases reason with ⟨fault, rfl⟩ | ⟨rfl, -⟩ <;> rfl
      have hreported : History.reported [seen] = [] := by
        rcases reason with ⟨fault, rfl⟩ | ⟨rfl, -⟩ <;> rfl
      refine ht.turn (.reporting e (.dead e) none) [seen] hi (fun e' => ?_) (fun e' => ?_)
      · simp [hcalled, hended, WorkerPhase.isDialingOf, List.count_singleton]
      · simp [hended, habandoned, hreported, WorkerPhase.isReportingOf, List.count_singleton]
  | report i e outcome link hi listening =>
      have habout := (ho.fits _ (List.mem_of_getElem? hi)).endpoint
      have hsent : ∀ next : WorkerPhase, (∀ e', next.isDialingOf e' = false) →
          (∀ e', next.isReportingOf e' = false) → (o.place i next).Tracked (h ++ [.reported outcome]) := by
        intro next hdialing hreporting
        refine ht.turn next [.reported outcome] hi (fun e' => ?_) (fun e' => ?_)
        · rw [hdialing]
          rfl
        · rw [hreporting]
          simp [History.ended, History.abandoned, History.reported, WorkerPhase.isReportingOf, habout,
            List.count_singleton]
      cases link with
      | none => exact { hsent .leaving (fun _ => rfl) (fun _ => rfl) with }
      | some link => exact { hsent (.noting e link) (fun _ => rfl) (fun _ => rfl) with }
  | drop i e outcome link hi deaf =>
      rw [ho.listening] at deaf
      cases deaf
  | note i e link nonce hi =>
      exact { ht.place (.pinging e link nonce) hi (fun _ => rfl) (fun _ => rfl) with }
  | ping i e link link' nonce hi =>
      exact ht.place (.pinging e link' nonce) hi (fun _ => rfl) (fun _ => rfl)
  | attend i e link nonce session hi same =>
      exact ht.place (.serving session) hi (fun _ => rfl) (fun _ => rfl)
  | giveUp i e link nonce hi => exact ht.place .leaving hi (fun _ => rfl) (fun _ => rfl)
  | serve i session session' registry hi same edit =>
      exact { ht.place (.serving session') hi (fun _ => rfl) (fun _ => rfl) with }
  | hangUp i session hi => exact ht.place .leaving hi (fun _ => rfl) (fun _ => rfl)
  | leave i hi => exact { ht.place .idle hi (fun _ => rfl) (fun _ => rfl) with }

/-! ## Outcomes and dials in order -/

/-- The endpoints dialed are those seen. -/
theorem Step.attempts (step : Step world o facts o') : o'.attempts = o.attempts ++ facts.called := by
  cases step with
  | await i e dial deadline s seen hi timely =>
      rcases timely with rfl | ⟨rfl, -⟩ <;> exact (List.append_nil _).symm
  | fail i e dial deadline seen hi reason =>
      rcases reason with ⟨fault, rfl⟩ | ⟨rfl, -⟩ <;> exact (List.append_nil _).symm
  | dial i e hi => rfl
  | _ => exact (List.append_nil _).symm

/-- Outcomes are recorded in the order in which they are sent. -/
theorem Step.outcomes (step : Step world o facts o') :
    o.outcomes.items ++ facts.reported = facts.recorded ++ o'.outcomes.items := by
  cases step with
  | await i e dial deadline s seen hi timely =>
      rcases timely with rfl | ⟨rfl, -⟩ <;> exact List.append_nil _
  | fail i e dial deadline seen hi reason =>
      rcases reason with ⟨fault, rfl⟩ | ⟨rfl, -⟩ <;> exact List.append_nil _
  | report i e outcome link hi listening => rfl
  | record outcome items front =>
      rw [front]
      exact List.append_nil _
  | _ => exact List.append_nil _

theorem Initial.reach_attempts {seeds : List Endpoint} (hinit : o.Initial size seeds)
    (reach : Reach world o h o') : o'.attempts = h.called := by
  induction reach with
  | start => exact hinit.attempts
  | step before next ih => rw [next.attempts, ih, History.called_append]

theorem Initial.reach_outcomes {seeds : List Endpoint} (hinit : o.Initial size seeds)
    (reach : Reach world o h o') : h.reported = h.recorded ++ o'.outcomes.items := by
  induction reach with
  | start =>
      rw [hinit.outcomes]
      rfl
  | step before next ih =>
      rw [History.reported_append, History.recorded_append, ih, List.append_assoc, next.outcomes,
        List.append_assoc]

/-! ## Pings -/

/-- Only nodes whose good outcome was sent were ever pinged. -/
def Pinged (o : Outline) (h : History) : Prop :=
  ∀ e n, o.registry.node? e = some n → n.WasPinged → h.Greeted e

theorem Initial.pinged {seeds : List Endpoint} (hinit : o.Initial size seeds) : o.Pinged [] := by
  intro e n hn hpinged
  rw [hinit.registry] at hn
  rcases Registry.consistent_empty.perform_pinged (.add seeds) hn hpinged with ⟨n', hn', -⟩ | ⟨nonce, hcall⟩
  · simp [Registry.node?] at hn'
  · cases hcall

/-- A call keeps that up if a ping is noted only for such a node. -/
theorem Pinged.perform {call : Registry.Call} {r : Registry} (hp : o.Pinged h) (ho : o.Orderly size)
    (facts : History) (hr : r = o.registry.perform call)
    (hcall : ∀ e nonce, call = .setPingNonce e nonce → h.Greeted e) :
    ({ o with registry := r } : Outline).Pinged (h ++ facts) := by
  intro e n hn hpinged
  refine History.Greeted.append facts ?_
  subst hr
  rcases ho.consistent.perform_pinged call hn hpinged with ⟨n', hn', hpinged'⟩ | ⟨nonce, hcall'⟩
  · exact hp e n' hn' hpinged'
  · exact hcall e nonce hcall'

theorem Step.pinged {timeout : Nat} (step : Step world o facts o') (ho : o.Orderly size)
    (hb : o.Backed timeout h) (hp : o.Pinged h) : o'.Pinged (h ++ facts) := by
  have hkept : o.Pinged (h ++ facts) := fun e n hn hpinged => (hp e n hn hpinged).append facts
  cases step with
  | search hf => exact hp.perform ho [] rfl fun _ _ hcall => nomatch hcall
  | mark i e registry hi marked =>
      have hregistry := (Registry.state?_of_markConnecting marked).2
      exact hp.perform ho [] hregistry fun _ _ hcall => nomatch hcall
  | note i e link nonce hi =>
      refine hp.perform ho [] rfl fun e' nonce' hcall => ?_
      cases hcall
      exact hb.phases _ (List.mem_of_getElem? hi)
  | serve i session session' registry hi same edit =>
      cases edit with
      | none => exact hkept
      | announced es => exact hp.perform ho [] rfl fun _ _ hcall => nomatch hcall
      | ponged nonce => exact hp.perform ho [] rfl fun _ _ hcall => nomatch hcall
  | record outcome items front =>
      refine hp.perform ho [.recorded outcome] rfl fun e nonce hcall => ?_
      cases outcome <;> cases hcall
  | _ => exact hkept

theorem Initial.reach_seen {seeds : List Endpoint} (hinit : o.Initial size seeds)
    (reach : Reach world o h o') :
    o'.Backed world.config.peerTimeout h ∧ o'.Tracked h ∧ o'.Pinged h := by
  induction reach with
  | start => exact ⟨hinit.backed, hinit.tracked, hinit.pinged⟩
  | step before next ih =>
      obtain ⟨hb, ht, hp⟩ := ih
      have ho := (hinit.reach before).1
      exact ⟨next.backed ho hb, next.tracked ho ht, next.pinged ho hb hp⟩

/-! ## How often an endpoint is dialed -/

/-- Every recorded outcome is one verdict or the other. -/
theorem count_recorded (o : Outline) (h : History) (e : Endpoint) :
    (h.recorded.map Outcome.endpoint).count e = o.tally h e .good + o.tally h e .dead := by
  simp only [tally, List.count_eq_countP, List.countP_map]
  induction h.recorded with
  | nil => rfl
  | cons outcome rest ih =>
      simp only [List.countP_cons, ih, Function.comp_apply]
      cases outcome <;> simp [Outcome.verdict] <;> omega

/-- An endpoint has been dialed at most once. -/
theorem Counted.called_le (hc : o.Counted h) (ht : o.Tracked h)
    (hsent : h.reported = h.recorded ++ o.outcomes.items) (e : Endpoint) : h.called.count e ≤ 1 := by
  -- Dials in progress and outcomes not sent yet are in the hands of workers, where custody counts them.
  have hworkers : o.phases.countP (·.isDialingOf e) + o.phases.countP (·.isReportingOf e)
      ≤ o.phases.countP (·.held == some (e, .connecting)) := by
    refine countP_add_le o.phases ?_ ?_ ?_ <;> intro phase hphase <;> cases phase <;>
      first | rfl | cases hphase | simpa [WorkerPhase.isDialingOf, WorkerPhase.isReportingOf] using hphase
  have hcalled := ht.called e
  have hended := ht.ended e
  have hconnecting := hc e .connecting (by simp)
  have hgood := hc e .good (by simp)
  have hdead := hc e .dead (by simp)
  have hrecorded := count_recorded o h e
  rw [hsent, List.map_append, List.count_append, hrecorded, hgood, hdead] at hended
  simp only [tally] at hconnecting
  -- A node is in one state, so all dials there ever were of its endpoint are accounted for by one place.
  have hone : (if o.registry.state? e = some .connecting then 1 else 0)
      + (if o.registry.state? e = some .good then 1 else 0)
      + (if o.registry.state? e = some .dead then 1 else 0) ≤ 1 := by
    split_ifs <;> simp_all
  omega

/-- An endpoint whose node is classified has an outcome that was recorded, with that verdict. -/
theorem Counted.recorded {e : Endpoint} {s : NodeState} (hc : o.Counted h)
    (hs : o.registry.state? e = some s) (terminal : s.isTerminal = true) :
    ∃ outcome ∈ h.recorded, outcome.endpoint = e ∧ outcome.verdict = s := by
  have hcount := hc e s (by rintro rfl; cases terminal)
  rw [if_pos hs] at hcount
  have hpos : 0 < h.recorded.countP fun outcome => outcome.endpoint == e && outcome.verdict == s := by
    cases s <;> first | exact Nat.lt_of_lt_of_eq Nat.one_pos hcount.symm | cases terminal
  obtain ⟨outcome, hmem, hmatch⟩ := List.countP_pos_iff.mp hpos
  simp only [Bool.and_eq_true, beq_iff_eq] at hmatch
  exact ⟨outcome, hmem, hmatch⟩

/-- The dial of a good node gave a connection, and was never waited for longer than it may take. -/
theorem Backed.good {timeout : Nat} {e : Endpoint} (hb : o.Backed timeout h) (ht : o.Tracked h)
    (hc : o.Counted h) (hsent : h.reported = h.recorded ++ o.outcomes.items) (honce : h.called.Nodup)
    (hs : o.registry.state? e = some .good) :
    ∃ start peer, .called e start ∈ h ∧ .connected e peer ∈ h ∧
      ∀ t, .waited e t ∈ h → t < start + timeout := by
  obtain ⟨outcome, hrecorded, rfl, hverdict⟩ := hc.recorded hs rfl
  have hreported : outcome ∈ h.reported := hsent ▸ List.mem_append_left _ hrecorded
  cases outcome with
  | good peer =>
      have hconnected : .connected peer.endpoint peer ∈ h := hb.reported _ hreported
      have hended : peer.endpoint ∈ h.ended := List.mem_filterMap.mpr ⟨_, hconnected, rfl⟩
      obtain ⟨start, hstart⟩ := ht.called_of_ended hended
      refine ⟨start, peer, hstart, hconnected, fun t hwaited => ?_⟩
      obtain ⟨start', hstart', hlt⟩ := hb.waited _ t hwaited
      rwa [History.called_unique honce hstart hstart']
  | dead e => cases hverdict

/-- The dial of a dead node failed or took too long. -/
theorem Backed.dead {timeout : Nat} {e : Endpoint} (hb : o.Backed timeout h) (ht : o.Tracked h)
    (hc : o.Counted h) (hsent : h.reported = h.recorded ++ o.outcomes.items)
    (hs : o.registry.state? e = some .dead) :
    ∃ start, .called e start ∈ h ∧
      ((∃ fault, .refused e fault ∈ h) ∨ ∃ t, .timedOut e t ∈ h ∧ start + timeout ≤ t) := by
  obtain ⟨outcome, hrecorded, rfl, hverdict⟩ := hc.recorded hs rfl
  have hreported : outcome ∈ h.reported := hsent ▸ List.mem_append_left _ hrecorded
  cases outcome with
  | good peer => cases hverdict
  | dead e =>
      rcases hb.reported _ hreported with ⟨fault, hrefused⟩ | ⟨start, t, hstart, hlate, hle⟩
      · have hended : e ∈ h.ended := List.mem_filterMap.mpr ⟨_, hrefused, rfl⟩
        obtain ⟨start, hstart⟩ := ht.called_of_ended hended
        exact ⟨start, hstart, .inl ⟨fault, hrefused⟩⟩
      · exact ⟨start, hstart, .inr ⟨t, hlate, hle⟩⟩

/-- Whose good outcome was sent is known, and its connection may be open. -/
theorem Counted.greeted {e : Endpoint} (hc : o.Counted h)
    (hsent : h.reported = h.recorded ++ o.outcomes.items) (hg : h.Greeted e) :
    ∃ n, o.registry.node? e = some n ∧ n.isLive = true := by
  obtain ⟨peer, hmem, rfl⟩ := hg
  -- The outcome is recorded, and the node good, or it waits, and the node is connecting.
  rw [hsent, List.mem_append] at hmem
  have hstate : o.registry.state? peer.endpoint = some .connecting ∨
      o.registry.state? peer.endpoint = some .good := by
    rcases hmem with hrecorded | hwaiting
    · refine .inr ?_
      have hpos : 0 < o.tally h peer.endpoint .good :=
        List.countP_pos_iff.mpr ⟨_, hrecorded, by simp [Outcome.endpoint, Outcome.verdict]⟩
      rw [hc _ _ (by simp)] at hpos
      by_contra hne
      rw [if_neg hne] at hpos
      cases hpos
    · exact .inl (hc.sent hwaiting)
  rcases hstate with hs | hs
  · obtain ⟨n, hn, hs⟩ := Registry.state?_eq_some.mp hs
    exact ⟨n, hn, by simp [Node.isLive, hs]⟩
  · obtain ⟨n, hn, hs⟩ := Registry.state?_eq_some.mp hs
    exact ⟨n, hn, by simp [Node.isLive, hs]⟩

end Outline

/-! ## Every endpoint gets one verdict -/

namespace Crawl

/-- No call on the registry that the next step of a worker, a session or the aggregator may make fails. -/
structure Faultless (c : Crawl) : Prop where
  claimed : ∀ worker ∈ c.workers, ∀ e, worker.phase = .claimed e →
    c.shared.registry.succeeds (.markConnecting e) = true
  noting : ∀ worker ∈ c.workers, ∀ e link nonce, worker.phase = .noting e link →
    c.shared.registry.succeeds (.setPingNonce e nonce) = true
  serving : ∀ worker ∈ c.workers, ∀ session nonce, worker.phase = .serving session →
    c.shared.registry.succeeds (.recordPong session.endpoint nonce) = true
  sent : ∀ outcome ∈ c.outcomes.items, c.shared.registry.succeeds outcome.call = true

theorem faultless_of_outline {timeout : Nat} {c : Crawl} {h : History}
    (hb : c.outline.Backed timeout h) (hc : c.outline.Counted h)
    (hsent : h.reported = h.recorded ++ c.outcomes.items) : c.Faultless := by
  have hphase : ∀ worker ∈ c.workers, worker.phase ∈ c.outline.phases :=
    fun worker hmem => List.mem_map_of_mem (Array.mem_toList_iff.mpr hmem)
  constructor
  · intro worker hmem e hclaimed
    obtain ⟨i, hi⟩ := List.mem_iff_getElem?.mp (hclaimed ▸ hphase worker hmem)
    exact (Registry.perform_mark (.markConnecting e) rfl (hc.held hi rfl)).1
  · intro worker hmem e link nonce hnoting
    have hgreeted := hb.phases _ (hnoting ▸ hphase worker hmem)
    obtain ⟨n, hn, live⟩ := hc.greeted hsent hgreeted
    exact Registry.setPingNonce_succeeds nonce hn live
  · intro worker hmem session nonce hserving
    have hgreeted := hb.phases _ (hserving ▸ hphase worker hmem)
    obtain ⟨n, hn, -⟩ := hc.greeted hsent hgreeted
    exact Registry.recordPong_succeeds nonce hn
  · intro outcome hmem
    exact (Registry.perform_mark _ outcome.call_transition (hc.sent hmem)).1

/-- How the dials of a crawl have ended, given what has been seen of it, and what came of that. -/
structure OneVerdict (world : World) (c : Crawl) (h : History) : Prop where
  dialed_eq : c.dials.attempts.toList = h.called
  dialed_once : h.called.Nodup
  ended_once : h.ended.Nodup
  reported_once : (h.reported.map Outcome.endpoint).Nodup
  /-- Good is only whose dial gave a connection, and was never waited for longer than it may take. -/
  good : ∀ e, c.shared.registry.state? e = some .good → ∃ start peer,
    .called e start ∈ h ∧ .connected e peer ∈ h ∧
      ∀ t, .waited e t ∈ h → t < start + world.config.peerTimeout
  /-- Dead is only whose dial failed or took too long. -/
  dead : ∀ e, c.shared.registry.state? e = some .dead → ∃ start, .called e start ∈ h ∧
    ((∃ fault, .refused e fault ∈ h) ∨
      ∃ t, .timedOut e t ∈ h ∧ start + world.config.peerTimeout ≤ t)
  /-- Whatever happens from now on, who is classified stays as it is. -/
  final : ∀ events e n, c.shared.registry.node? e = some n → n.state.isTerminal = true →
    ∃ n', (c.run world events).shared.registry.node? e = some n' ∧ n'.state = n.state ∧
      n'.peer = n.peer
  /-- Only nodes whose good outcome was sent were ever pinged. -/
  pinged : ∀ e n, c.shared.registry.node? e = some n → n.pingNonce ≠ 0 ∨ n.pingCount ≠ 0 →
    ∃ peer, .good peer ∈ h.reported ∧ peer.endpoint = e
  faultless : c.Faultless

variable {world : World} {seeds : List Endpoint} {s : Shared} {c : Crawl}

/-- **One dial, one verdict.** Whatever the order of steps, whatever peers do and announce and whenever the
    crawl is stopped: an endpoint is dialed at most once and at most one outcome is sent for it, which is
    what its node is classified as, once and for all; and nothing a task does to the registry fails. -/
theorem one_verdict (fresh : s.Fresh) (started : start world seeds s = .ok c) (events : List Event) :
    OneVerdict world (c.run world events) (c.chronicle world events) := by
  have hinit := start_outline fresh started
  have hreach := reach_run world c events
  obtain ⟨ho, hc⟩ := hinit.reach hreach
  obtain ⟨hb, ht, hp⟩ := hinit.reach_seen hreach
  have hsent := hinit.reach_outcomes hreach
  have hcalled := hc.called_le ht hsent
  have honce : (c.chronicle world events).called.Nodup := List.nodup_iff_count_le_one.mpr hcalled
  have hended : ∀ e, (c.chronicle world events).ended.count e ≤ 1 := by
    intro e
    have heq := ht.called e
    have hle := hcalled e
    omega
  refine ⟨hinit.reach_attempts hreach, honce, List.nodup_iff_count_le_one.mpr hended, ?_, ?_, ?_, ?_, hp, ?_⟩
  · refine List.nodup_iff_count_le_one.mpr fun e => ?_
    have heq := ht.ended e
    have hle := hended e
    omega
  · exact fun e hs => hb.good ht hc hsent honce hs
  · exact fun e hs => hb.dead ht hc hsent hs
  · intro more e n hn terminal
    obtain ⟨calls, hcalls⟩ := (reach_run world (c.run world events) more).registry
    have hkept := ho.consistent.performAll_terminal calls hn terminal
    rw [← hcalls] at hkept
    exact hkept
  · exact faultless_of_outline hb hc hsent

/-- It holds for a crawl in which the peer that was dialed first is classified. -/
theorem talkingWorld_verdict :
    ∃ c events, start talkingWorld [firstSeed, secondSeed] { host := default } = .ok c ∧
      (c.run talkingWorld events).shared.registry.state? firstSeed = some .good ∧
      OneVerdict talkingWorld (c.run talkingWorld events) (c.chronicle talkingWorld events) := by
  obtain ⟨c, c', started, -, hgoes, hattends⟩ := talkingWorld_attends
  obtain ⟨n, hn, -⟩ := hgoes.alone
  have hgood := hattends.recorded talkingWorld
  rw [← hn, alone, ← run_append, ← run_append] at hgood
  exact ⟨c, _, started, hgood, one_verdict ⟨rfl, rfl⟩ started _⟩

end Crawl

end BitcoinCrawl
