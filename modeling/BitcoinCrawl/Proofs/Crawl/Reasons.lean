import BitcoinCrawl.Proofs.Crawl.Custody

set_option autoImplicit false

/-! # Reasons for outcomes

No worker acts without a reason: a dial is waited for in time only, an outcome says how the dial ended, and
only a peer whose good outcome was sent is pinged and listened to. `Outline.Backed` says that reasons can
be found in what was seen of a crawl; as nothing that was seen is forgotten, a reason once given stays
one. -/

namespace BitcoinCrawl

namespace History

/-- A good outcome about an endpoint was sent. -/
def Greeted (h : History) (e : Endpoint) : Prop :=
  ∃ peer, Outcome.good peer ∈ h.reported ∧ peer.endpoint = e

/-- What was seen of a dial is a reason for its outcome: a connection, a failure, or that it took too
    long. -/
def Backs (timeout : Nat) (h : History) : Outcome → Prop
  | .good peer => .connected peer.endpoint peer ∈ h
  | .dead e =>
    (∃ fault, .refused e fault ∈ h) ∨
      ∃ start t, .called e start ∈ h ∧ .timedOut e t ∈ h ∧ start + timeout ≤ t

variable {h : History} {timeout : Nat}

theorem Greeted.append {e : Endpoint} (facts : History) (hg : h.Greeted e) :
    Greeted (h ++ facts) e := by
  obtain ⟨peer, hmem, hpeer⟩ := hg
  exact ⟨peer, reported_append h facts ▸ List.mem_append_left _ hmem, hpeer⟩

theorem Backs.append {outcome : Outcome} (facts : History) (hb : h.Backs timeout outcome) :
    Backs timeout (h ++ facts) outcome := by
  cases outcome with
  | good peer => exact List.mem_append_left _ hb
  | dead e =>
      rcases hb with ⟨fault, hmem⟩ | ⟨start, t, hcalled, hlate, hle⟩
      · exact .inl ⟨fault, List.mem_append_left _ hmem⟩
      · exact .inr ⟨start, t, List.mem_append_left _ hcalled, List.mem_append_left _ hlate, hle⟩

end History

/-- A worker has a reason for what it does: a dial was begun in time for its deadline, an outcome says how
    the dial ended, and only a peer whose good outcome was sent is pinged and listened to. -/
def WorkerPhase.Backed (timeout : Nat) (h : History) : WorkerPhase → Prop
  | dialing e _ deadline => ∃ start, .called e start ∈ h ∧ deadline = start + timeout
  | reporting _ outcome _ => h.Backs timeout outcome
  | noting e _ | pinging e _ _ => h.Greeted e
  | serving session => h.Greeted session.endpoint
  | _ => True

theorem WorkerPhase.Backed.append {timeout : Nat} {h : History} {phase : WorkerPhase}
    (facts : History) (hb : phase.Backed timeout h) : phase.Backed timeout (h ++ facts) := by
  cases phase with
  | dialing e dial deadline =>
      obtain ⟨start, hcalled, hdeadline⟩ := hb
      exact ⟨start, List.mem_append_left _ hcalled, hdeadline⟩
  | reporting e outcome link => exact History.Backs.append facts hb
  | noting e link => exact History.Greeted.append facts hb
  | pinging e link nonce => exact History.Greeted.append facts hb
  | serving session => exact History.Greeted.append facts hb
  | _ => trivial

namespace Outline

/-- There are reasons for what workers do and for what they have sent, and no dial was waited for longer
    than it may take. -/
structure Backed (timeout : Nat) (o : Outline) (h : History) : Prop where
  waited : ∀ e t, .waited e t ∈ h → ∃ start, .called e start ∈ h ∧ t < start + timeout
  phases : ∀ phase ∈ o.phases, phase.Backed timeout h
  reported : ∀ outcome ∈ h.reported, h.Backs timeout outcome

variable {world : World} {size timeout : Nat} {o o' : Outline} {h facts : History}

theorem Initial.backed {seeds : List Endpoint} (hinit : o.Initial size seeds) :
    o.Backed timeout [] where
  waited := fun _ _ hmem => nomatch hmem
  phases := by
    rw [hinit.phases]
    intro phase hmem
    rw [List.eq_of_mem_replicate hmem]
    trivial
  reported := fun _ hmem => nomatch hmem

/-- More has been seen. -/
theorem Backed.append (facts : History) (hb : o.Backed timeout h)
    (hwaited : ∀ e t, .waited e t ∈ facts → ∃ start, .called e start ∈ h ∧ t < start + timeout)
    (hreported : ∀ outcome ∈ facts.reported, h.Backs timeout outcome) :
    o.Backed timeout (h ++ facts) where
  waited := by
    intro e t hmem
    rcases List.mem_append.mp hmem with hmem | hmem
    · obtain ⟨start, hcalled, hlt⟩ := hb.waited e t hmem
      exact ⟨start, List.mem_append_left _ hcalled, hlt⟩
    · obtain ⟨start, hcalled, hlt⟩ := hwaited e t hmem
      exact ⟨start, List.mem_append_left _ hcalled, hlt⟩
  phases := fun phase hmem => (hb.phases phase hmem).append facts
  reported := by
    intro outcome hmem
    rw [History.reported_append] at hmem
    rcases List.mem_append.mp hmem with hmem | hmem
    · exact (hb.reported outcome hmem).append facts
    · exact (hreported outcome hmem).append facts

/-- More has been seen, but no waiting and no outcome. -/
theorem Backed.quiet (facts : History) (hb : o.Backed timeout h)
    (hwaited : ∀ e t, Fact.waited e t ∉ facts) (hreported : facts.reported = []) :
    o.Backed timeout (h ++ facts) := by
  refine hb.append facts (fun e t hmem => absurd hmem (hwaited e t)) fun outcome hmem => ?_
  rw [hreported] at hmem
  cases hmem

/-- A worker comes to stand somewhere else, and has a reason. -/
theorem Backed.place (i : Nat) (new : WorkerPhase) (hb : o.Backed timeout h)
    (hnew : new.Backed timeout h) : (o.place i new).Backed timeout h where
  waited := hb.waited
  phases := by
    intro phase hmem
    rcases List.mem_or_eq_of_mem_set hmem with hmem | rfl
    · exact hb.phases phase hmem
    · exact hnew
  reported := hb.reported

theorem Step.backed (step : Step world o facts o') (ho : o.Orderly size)
    (hb : o.Backed world.config.peerTimeout h) : o'.Backed world.config.peerTimeout (h ++ facts) := by
  have hquiet := hb.quiet [] (by simp) rfl
  have hworker : ∀ (i : Nat) (phase : WorkerPhase), o.phases[i]? = some phase →
      phase.Backed world.config.peerTimeout h :=
    fun i phase hi => hb.phases phase (List.mem_of_getElem? hi)
  cases step with
  | rest | stop | pass | shift | search | hand => exact { hquiet with }
  | record outcome items front => exact { hb.quiet [.recorded outcome] (by simp) rfl with }
  | wake i => exact hquiet.place i .idle trivial
  | retire i queue hi kept => exact { hquiet.place i .exited trivial with }
  | claim i e items hi running front => exact { hquiet.place i (.claimed e) trivial with }
  | mark i e registry hi marked => exact { hquiet.place i (.marked e) trivial with }
  | skip i => exact hquiet.place i .idle trivial
  | dial i e hi =>
      have hcalled := hb.quiet [.called e o.now] (by simp) rfl
      have hphase : (WorkerPhase.dialing e (.unanswered none) (o.now + world.config.peerTimeout)).Backed
          world.config.peerTimeout (h ++ [.called e o.now]) := ⟨o.now, by simp, rfl⟩
      exact { hcalled.place i _ hphase with }
  | abandon i e =>
      have habandoned := hb.quiet [.abandoned e] (by simp) rfl
      exact habandoned.place i .leaving trivial
  | await i e dial deadline s seen hi timely =>
      have hdial := hworker i _ hi
      obtain ⟨start, hcalled, hdeadline⟩ := hdial
      have hseen : o.Backed world.config.peerTimeout (h ++ facts) := by
        rcases timely with rfl | ⟨rfl, hlt⟩
        · exact hquiet
        · refine hb.append _ (fun e' t hmem => ?_) (by simp [History.reported])
          cases List.mem_singleton.mp hmem
          exact ⟨start, hcalled, hdeadline ▸ hlt⟩
      exact hseen.place i _ ⟨start, List.mem_append_left _ hcalled, hdeadline⟩
  | connect i e dial deadline s connected hi answer =>
      have hfor : dial.IsFor e := ho.fits _ (List.mem_of_getElem? hi)
      have hpeer := Dial.step_connected world hfor answer
      have hconnected := hb.quiet [.connected e connected.peer] (by simp) rfl
      refine hconnected.place i _ ?_
      show Fact.connected connected.peer.endpoint connected.peer ∈ _
      rw [hpeer]
      simp
  | fail i e dial deadline seen hi reason =>
      obtain ⟨start, hcalled, hdeadline⟩ := hworker i _ hi
      rcases reason with ⟨fault, rfl⟩ | ⟨rfl, hlate⟩
      · have hrefused := hb.quiet [.refused e fault] (by simp) rfl
        exact hrefused.place i _ (.inl ⟨fault, by simp⟩)
      · have htimedOut := hb.quiet [.timedOut e o.now] (by simp) rfl
        exact htimedOut.place i _ (.inr ⟨start, o.now, by simp [hcalled], by simp, hdeadline ▸ hlate⟩)
  | report i e outcome link hi listening =>
      have hreported : o.Backed world.config.peerTimeout (h ++ [.reported outcome]) := by
        refine hb.append _ (by simp) fun outcome' hmem => ?_
        cases List.mem_singleton.mp hmem
        exact hworker i _ hi
      have hfits : (WorkerPhase.reporting e outcome link).Fits := ho.fits _ (List.mem_of_getElem? hi)
      cases link with
      | none => exact { hreported.place i .leaving trivial with }
      | some link =>
          cases outcome with
          | good peer =>
              have hgreeted : History.Greeted (h ++ [.reported (.good peer)]) e :=
                ⟨peer, by simp [History.reported], hfits.1⟩
              exact { hreported.place i (.noting e link) hgreeted with }
          | dead e' =>
              -- There is no connection to go on with after a dead outcome.
              exact nomatch hfits.2
  | drop i e outcome link hi deaf =>
      rw [ho.listening] at deaf
      cases deaf
  | note i e link nonce hi =>
      have hgreeted := (hworker i _ hi).append []
      exact { hquiet.place i (.pinging e link nonce) hgreeted with }
  | ping i e link link' nonce hi =>
      exact hquiet.place i (.pinging e link' nonce) ((hworker i _ hi).append [])
  | attend i e link nonce session hi same =>
      have hgreeted : History.Greeted h session.endpoint := same ▸ hworker i _ hi
      exact hquiet.place i (.serving session) (hgreeted.append [])
  | giveUp i => exact hquiet.place i .leaving trivial
  | serve i session session' registry hi same edit =>
      have hgreeted : History.Greeted h session'.endpoint := same ▸ hworker i _ hi
      exact { hquiet.place i (.serving session') (hgreeted.append []) with }
  | hangUp i => exact hquiet.place i .leaving trivial
  | leave i hi => exact { hquiet.place i .idle trivial with }

end Outline

end BitcoinCrawl
