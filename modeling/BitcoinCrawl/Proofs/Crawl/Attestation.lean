import BitcoinCrawl.Proofs.Crawl.Transcript
import BitcoinCrawl.Proofs.Crawl.Verdict

set_option autoImplicit false

/-! # Visits go back to their connections

`Outline.Attested` says that visits, outcomes on their way and nodes are what the connections explain that they
are about, and each only what its own connection explains. As no endpoint is ever visited twice
(`Outline.Visited`), a step of a visit has nothing to do with any other (`Outline.Attested.turn`). -/

namespace BitcoinCrawl

/-! ## Who visits an endpoint -/

/-- Two elements of a kind that a list has only once stand at one place. -/
theorem eq_of_countP_le_one {α : Type} {p : α → Bool} {l : List α} {i j : Nat} {x y : α}
    (h : l.countP p ≤ 1) (hi : l[i]? = some x) (hj : l[j]? = some y) (hx : p x = true) (hy : p y = true) :
    i = j := by
  have hpos : ∀ {rest : List α} {k : Nat} {z : α}, rest[k]? = some z → p z = true → 0 < rest.countP p :=
    fun hk hz => List.countP_pos_iff.mpr ⟨_, List.mem_of_getElem? hk, hz⟩
  induction l generalizing i j with
  | nil => cases hi
  | cons z rest ih =>
      rw [List.countP_cons] at h
      cases i with
      | zero =>
          cases j with
          | zero => rfl
          | succ j =>
              cases hi
              rw [if_pos hx] at h
              have hrest : 0 < rest.countP p := hpos hj hy
              omega
      | succ i =>
          cases j with
          | zero =>
              cases hj
              rw [if_pos hy] at h
              have hrest : 0 < rest.countP p := hpos hi hx
              omega
          | succ j => rw [ih (by omega) hi hj]

namespace Outline

variable {world : World} {o o' : Outline} {h facts : History} {e : Endpoint}

/-- An endpoint is visited no more often than it was dialed. -/
def Visited (o : Outline) (h : History) : Prop :=
  ∀ e, o.phases.countP (·.visited? == some e) ≤ h.called.count e

/-- Whoever visits an endpoint visited it before, or dials it now. -/
theorem Visited.turn {i : Nat} {old : WorkerPhase} (new : WorkerPhase) (facts : History) (hv : o.Visited h)
    (hi : o.phases[i]? = some old)
    (hnew : ∀ e, new.visited? = some e → old.visited? = some e ∨ e ∈ facts.called) :
    (o.place i new).Visited (h ++ facts) := by
  intro e
  have hcount := countP_set_add (·.visited? == some e) new hi
  have hbefore := hv e
  rw [History.called_append, List.count_append, place_phases]
  by_cases hvisits : new.visited? = some e
  · rw [if_pos (beq_iff_eq.mpr hvisits)] at hcount
    rcases hnew e hvisits with hold | hdialed
    · rw [if_pos (beq_iff_eq.mpr hold)] at hcount
      omega
    · have hpos := List.count_pos_iff.mpr hdialed
      omega
  · rw [if_neg fun hb => hvisits (beq_iff_eq.mp hb)] at hcount
    omega

/-- A worker goes on with its visit, or ends it. -/
theorem Visited.place {i : Nat} {old : WorkerPhase} (new : WorkerPhase) (hv : o.Visited h)
    (hi : o.phases[i]? = some old) (hnew : new.visited? = none ∨ new.visited? = old.visited?)
    (facts : History) : (o.place i new).Visited (h ++ facts) := by
  refine hv.turn new facts hi fun e hvisits => .inl ?_
  rcases hnew with hnone | hsame
  · rw [hnone] at hvisits
    cases hvisits
  · rw [← hsame, hvisits]

theorem Visited.append (hv : o.Visited h) (facts : History) : o.Visited (h ++ facts) := by
  intro e
  rw [History.called_append, List.count_append]
  exact Nat.le_add_right_of_le (hv e)

theorem Step.visited (step : Step world o facts o') (hv : o.Visited h) : o'.Visited (h ++ facts) := by
  cases step with
  | rest | stop | pass | shift | search | hand | record => exact hv.append _
  | dial i e hi => exact hv.turn _ [.called e o.now] hi fun e' he => .inr (by cases he; exact .head _)
  | report i e outcome link hi =>
      cases link with
      | none => exact hv.place .leaving hi (.inl rfl) _
      | some link => exact hv.place (.noting e link) hi (.inr rfl) _
  | drop i e outcome link hi =>
      cases link with
      | none => exact hv.place .leaving hi (.inl rfl) _
      | some link => exact hv.place (.noting e link) hi (.inr rfl) _
  | wake i hi => exact hv.place .idle hi (.inl rfl) _
  | retire i queue hi => exact hv.place .exited hi (.inl rfl) _
  | claim i e items hi => exact hv.place (.claimed e) hi (.inl rfl) _
  | mark i e registry hi => exact hv.place (.marked e) hi (.inl rfl) _
  | skip i e fault hi => exact hv.place .idle hi (.inl rfl) _
  | abandon i e dial deadline hi => exact hv.place .leaving hi (.inl rfl) _
  | await i e dial deadline s seen hi =>
      exact hv.place (.dialing e (dial.step world e s).1 deadline) hi (.inr rfl) _
  | connect i e dial deadline s connected hi => exact hv.place (.reporting _ _ _) hi (.inr rfl) _
  | fail i e dial deadline seen hi => exact hv.place (.reporting _ _ _) hi (.inr rfl) _
  | note i e link nonce hi => exact hv.place (.pinging _ _ _) hi (.inr rfl) _
  | ping i e link link' nonce hi => exact hv.place (.pinging e link' nonce) hi (.inr rfl) _
  | attend i e link nonce session hi same =>
      exact hv.place (.serving session) hi (.inr (congrArg some same)) _
  | giveUp i e link nonce hi => exact hv.place .leaving hi (.inl rfl) _
  | serve i session session' registry hi same =>
      exact hv.place (.serving session') hi (.inr (congrArg some same)) _
  | hangUp i session hi => exact hv.place .leaving hi (.inl rfl) _
  | leave i hi => exact hv.place .idle hi (.inl rfl) _

theorem Initial.visited {size : Nat} {seeds : List Endpoint} (hinit : o.Initial size seeds) :
    o.Visited [] := by
  intro e
  simp [hinit.phases, List.countP_replicate, WorkerPhase.visited?]

theorem Initial.reach_visited {size : Nat} {seeds : List Endpoint} (hinit : o.Initial size seeds)
    (reach : Reach world o h o') : o'.Visited h := by
  induction reach with
  | start => exact hinit.visited
  | step before next ih => exact next.visited ih

/-- Whoever is visited was dialed. -/
theorem Visited.called {phase : WorkerPhase} (hv : o.Visited h) (hmem : phase ∈ o.phases)
    (he : phase.visited? = some e) : e ∈ h.called := by
  refine List.count_pos_iff.mp (Nat.lt_of_lt_of_le ?_ (hv e))
  exact List.countP_pos_iff.mpr ⟨phase, hmem, beq_iff_eq.mpr he⟩

/-- Nobody but the worker at a place visits an endpoint. -/
def Alone (o : Outline) (i : Nat) (e : Endpoint) : Prop :=
  ∀ j phase, o.phases[j]? = some phase → phase.visited? = some e → j = i

/-- If no endpoint was dialed twice, none has two visitors. -/
theorem Visited.alone {i : Nat} {phase : WorkerPhase} (hv : o.Visited h) (honce : h.called.Nodup)
    (hi : o.phases[i]? = some phase) (he : phase.visited? = some e) : o.Alone i e := by
  intro j phase' hj he'
  have hone : o.phases.countP (·.visited? == some e) ≤ 1 :=
    Nat.le_trans (hv e) (List.nodup_iff_count_le_one.mp honce e)
  exact eq_of_countP_le_one hone hj hi (beq_iff_eq.mpr he') (beq_iff_eq.mpr he)

end Outline

/-! ## What is noted and where it comes from -/

namespace Details

/-- A node is pinged once at most, and counts one pong at most, which answers that ping. -/
inductive Keepalive (d : Details) (p : Proceedings) : Prop
  | unpinged (quiet : p.Quiet) (count : d.pingCount = 0)
  | out (nonce : UInt64) (pinged : p.pings = [nonce]) (unanswered : nonce ∉ p.pongs)
      (noted : d.pingNonce = nonce) (nonzero : nonce ≠ 0) (count : d.pingCount = 0)
  | answered (nonce : UInt64) (pinged : p.pings = [nonce]) (answered : nonce ∈ p.pongs)
      (noted : d.pingNonce = 0) (count : d.pingCount = 1)

variable {d d' : Details} {p q : Proceedings} {nonce : UInt64}

/-- Only pings, pongs and what is noted of them matter. -/
theorem Keepalive.congr (h : d.Keepalive p) (hnonce : d'.pingNonce = d.pingNonce)
    (hcount : d'.pingCount = d.pingCount) (hpings : q.pings = p.pings) (hpongs : q.pongs = p.pongs) :
    d'.Keepalive q := by
  cases h with
  | unpinged quiet count => exact .unpinged ⟨hpings.trans quiet.1, hpongs.trans quiet.2⟩ (hcount.trans count)
  | out nonce pinged unanswered noted nonzero count =>
      exact .out nonce (hpings.trans pinged) (hpongs ▸ unanswered) (hnonce.trans noted) nonzero
        (hcount.trans count)
  | answered nonce pinged answered noted count =>
      exact .answered nonce (hpings.trans pinged) (hpongs ▸ answered) (hnonce.trans noted) (hcount.trans count)

theorem Keepalive.received (h : d.Keepalive p) (rs : List Received) :
    d.Keepalive (p ++ rs.map .received) :=
  h.congr rfl rfl (Proceedings.pings_append_received p rs) (Proceedings.pongs_append_received p rs)

/-- Before the ping is sent nothing is counted. -/
theorem Keepalive.count_of_quiet (h : d.Keepalive p) (quiet : p.Quiet) : d.pingCount = 0 := by
  cases h with
  | unpinged _ count => exact count
  | out nonce pinged => cases quiet.1.symm.trans pinged
  | answered nonce pinged => cases quiet.1.symm.trans pinged

/-- The ping is sent after its nonce was noted. -/
theorem Keepalive.pinged (h : d.Keepalive p) (quiet : p.Quiet) (noted : d.pingNonce = nonce)
    (nonzero : nonce ≠ 0) : d.Keepalive (p ++ [.pinged nonce]) := by
  refine .out nonce ?_ ?_ noted nonzero (h.count_of_quiet quiet)
  · rw [Proceedings.pings_append_pinged, quiet.1, List.nil_append]
  · rw [Proceedings.pongs_append_pinged, quiet.2]
    exact List.not_mem_nil

/-- A pong counts if it is the first with the nonce of the ping. -/
theorem Keepalive.ponged (h : d.Keepalive p) (pinged : p.pings ≠ []) (nonce : UInt64) :
    (d.answer nonce).Keepalive (p ++ [.ponged nonce]) := by
  have hpings := Proceedings.pings_append_ponged p [nonce]
  have hpongs := Proceedings.pongs_append_ponged p [nonce]
  rw [List.map_singleton] at hpings hpongs
  unfold answer
  cases h with
  | unpinged quiet => exact absurd quiet.1 pinged
  | out expected hpinged unanswered noted nonzero count =>
      by_cases hsame : expected = nonce
      · rw [if_pos ⟨noted ▸ nonzero, noted.trans hsame⟩]
        refine .answered expected (hpings.trans hpinged) ?_ rfl (by rw [count]; rfl)
        rw [hpongs, hsame]
        exact List.mem_append_right _ List.mem_cons_self
      · rw [if_neg fun h => hsame (noted.symm.trans h.2)]
        refine .out expected (hpings.trans hpinged) ?_ noted nonzero count
        rw [hpongs]
        simp [unanswered, hsame]
  | answered expected hpinged answered noted count =>
      rw [if_neg fun h => h.1 noted]
      refine .answered expected (hpings.trans hpinged) ?_ noted count
      rw [hpongs]
      exact List.mem_append_left _ answered

theorem Keepalive.ponged_all (h : d.Keepalive p) (pinged : p.pings ≠ []) (nonces : List UInt64) :
    (nonces.foldl (fun d nonce => d.answer nonce) d).Keepalive (p ++ nonces.map .ponged) := by
  induction nonces generalizing d p with
  | nil =>
      rw [List.map_nil, List.append_nil]
      exact h
  | cons nonce rest ih =>
      have hpings := Proceedings.pings_append_ponged p [nonce]
      rw [List.map_cons, List.append_cons]
      exact ih (h.ponged pinged nonce) (hpings ▸ pinged)

/-- A session acts on pongs, or it receives something. -/
theorem Keepalive.step (h : d.Keepalive p) (pinged : p.pings ≠ []) (session : Session) (s : Shared) :
    (session.pending.foldl (fun d nonce => d.answer nonce) d).Keepalive (p ++ session.occurrences s) := by
  unfold Session.occurrences
  split
  next hphase =>
    have hpending : session.pending = [] := by rw [Session.pending, hphase]
    rw [hpending, List.foldl_nil]
    split_ifs
    · rw [List.append_nil]
      exact h
    · exact h.received _
  next => exact h.ponged_all pinged _
  next => exact h.ponged_all pinged _

theorem answer_peer (nonce : UInt64) (d : Details) : (d.answer nonce).peer = d.peer := by
  unfold answer
  split_ifs <;> rfl

theorem foldl_answer_peer (nonces : List UInt64) (d : Details) :
    (nonces.foldl (fun d nonce => d.answer nonce) d).peer = d.peer := by
  induction nonces generalizing d with
  | nil => rfl
  | cons nonce rest ih => rw [List.foldl_cons, ih, answer_peer]

/-- What is noted about a node comes from the connection with it. -/
structure Attested (d : Details) (e : Endpoint) (p : Proceedings) : Prop where
  peer : ∀ peer, d.peer = some peer → p.Introduces e peer
  keepalive : d.Keepalive p

end Details

/-- What happened on a connection was read from it, and no pong was acted on that was not. -/
structure World.Grounded (world : World) (e : Endpoint) (p : Proceedings) : Prop where
  reached : p = [] ∨ ∃ link, world.Reached e p.received link
  pongs : p.pongs.Sublist (p.received.filterMap Proceedings.pong?)

theorem World.grounded_of_quiet {world : World} {e : Endpoint} {p : Proceedings} (quiet : p.Quiet)
    (reached : p = [] ∨ ∃ link, world.Reached e p.received link) : world.Grounded e p := by
  refine ⟨reached, ?_⟩
  rw [quiet.2]
  exact List.nil_sublist _

/-- A visit is where what has happened on its connection puts it, given which nonce is noted. -/
def WorkerPhase.Attested (world : World) (noted : UInt64) (p : Proceedings) : WorkerPhase → Prop
  | dialing e dial _ => dial.Attested world e p
  | reporting e outcome link => p.Quiet ∧ (∀ peer, outcome = .good peer → p.Introduces e peer) ∧
      ∀ l, link = some l → world.Reached e p.received l
  | noting e link => p.Quiet ∧ world.Reached e p.received link
  | pinging e link nonce => p.Quiet ∧ world.Reached e p.received link ∧ nonce ≠ 0 ∧ noted = nonce
  | serving session => p.pings ≠ [] ∧ session.Attested world p
  | starting | idle | claimed _ | marked _ | leaving | exited => True

namespace Outline

variable {world : World} {o o' : Outline} {t : Transcript} {e : Endpoint} {p : Proceedings}

/-- Visits, outcomes on their way and nodes all go back to what has happened on their own connections. -/
structure Attested (world : World) (t : Transcript) (o : Outline) : Prop where
  phases : ∀ phase ∈ o.phases, ∀ e, phase.visited? = some e →
    phase.Attested world (o.registry.details e).pingNonce (t.about e)
  outcomes : ∀ peer, .good peer ∈ o.outcomes.items → (t.about peer.endpoint).Introduces peer.endpoint peer
  details : ∀ e, (o.registry.details e).Attested e (t.about e)
  grounded : ∀ e, world.Grounded e (t.about e)

theorem Initial.attested {size : Nat} {seeds : List Endpoint} (hinit : o.Initial size seeds) :
    o.Attested world [] where
  phases := by
    rw [hinit.phases]
    intro phase hmem e he
    rw [List.eq_of_mem_replicate hmem] at he
    cases he
  outcomes := by
    rw [hinit.outcomes]
    exact fun _ hmem => nomatch hmem
  details := by
    intro e
    have hempty : Registry.details {} e = {} := by simp [Registry.details, Registry.node?]
    rw [hinit.registry, Registry.consistent_empty.details_kept (.add seeds) e rfl, hempty]
    exact ⟨by simp, .unpinged ⟨rfl, rfl⟩ rfl⟩
  grounded := fun _ => World.grounded_of_quiet ⟨rfl, rfl⟩ (.inl rfl)

/-- A step that is not part of a visit. -/
theorem Attested.aside (ha : o.Attested world t)
    (hphases : ∀ phase ∈ o'.phases, phase.visited?.isSome → phase ∈ o.phases)
    (hnoted : ∀ e, (o'.registry.details e).pingNonce = (o.registry.details e).pingNonce)
    (houtcomes : ∀ outcome ∈ o'.outcomes.items, outcome ∈ o.outcomes.items)
    (hdetails : ∀ e, (o'.registry.details e).Attested e (t.about e)) : o'.Attested world t where
  phases := by
    intro phase hmem e he
    rw [hnoted]
    exact ha.phases phase (hphases phase hmem (Option.isSome_of_eq_some he)) e he
  outcomes := fun peer hmem => ha.outcomes peer (houtcomes _ hmem)
  details := hdetails
  grounded := ha.grounded

/-- A worker that visits nobody goes on, or one that did ends its visit. -/
theorem Attested.unvisit {i : Nat} {new : WorkerPhase} (ha : o.Attested world t)
    (hplaced : o'.phases = o.phases.set i new) (hnew : new.visited? = none)
    (hdetails : ∀ e, o'.registry.details e = o.registry.details e)
    (houtcomes : ∀ outcome ∈ o'.outcomes.items, outcome ∈ o.outcomes.items) : o'.Attested world t := by
  refine ha.aside (fun phase hmem hsome => ?_) (fun e => by rw [hdetails]) houtcomes fun e => ?_
  · rw [hplaced] at hmem
    rcases List.mem_or_eq_of_mem_set hmem with hbefore | rfl
    · exact hbefore
    · rw [hnew] at hsome
      cases hsome
  · rw [hdetails]
    exact ha.details e

/-- A step of a visit. Nobody else visits the endpoint, so whatever happens on the connection is about it and
    about nothing else. -/
theorem Attested.turn {i : Nat} {new : WorkerPhase} (ha : o.Attested world t) (halone : o.Alone i e)
    (hplaced : o'.phases = o.phases.set i new)
    (hothers : ∀ e', e' ≠ e → o'.registry.details e' = o.registry.details e')
    (hsent : ∀ peer, .good peer ∈ o'.outcomes.items →
      .good peer ∈ o.outcomes.items ∨ peer.endpoint = e ∧ Proceedings.Introduces (t.about e ++ p) e peer)
    (hnew : ∀ e', new.visited? = some e' →
      e' = e ∧ new.Attested world (o'.registry.details e).pingNonce (t.about e ++ p))
    (hdetails : (o'.registry.details e).Attested e (t.about e ++ p))
    (hgrounded : world.Grounded e (t.about e ++ p)) : o'.Attested world (t ++ p.map (e, ·)) := by
  constructor
  · intro phase hmem e' he'
    rw [hplaced] at hmem
    obtain ⟨j, hj⟩ := List.mem_iff_getElem?.mp hmem
    by_cases hji : j = i
    · subst hji
      have hsame : phase = new := by
        rw [List.getElem?_set_self'] at hj
        obtain ⟨_, -, heq⟩ := Option.map_eq_some_iff.mp hj
        exact heq.symm
      subst hsame
      obtain ⟨rfl, hattested⟩ := hnew e' he'
      rw [Transcript.about_append_own]
      exact hattested
    · rw [List.getElem?_set_ne (Ne.symm hji)] at hj
      have hne : e' ≠ e := fun heq => hji (halone j phase hj (heq ▸ he'))
      rw [Transcript.about_append_other t p hne, hothers e' hne]
      exact ha.phases phase (List.mem_of_getElem? hj) e' he'
  · intro peer hmem
    rcases hsent peer hmem with hbefore | ⟨rfl, hintroduces⟩
    · have hintroduces := ha.outcomes peer hbefore
      by_cases heq : peer.endpoint = e
      · subst heq
        rw [Transcript.about_append_own]
        exact hintroduces.append p
      · rw [Transcript.about_append_other t p heq]
        exact hintroduces
    · rw [Transcript.about_append_own]
      exact hintroduces
  · intro e'
    by_cases heq : e' = e
    · subst heq
      rw [Transcript.about_append_own]
      exact hdetails
    · rw [Transcript.about_append_other t p heq, hothers e' heq]
      exact ha.details e'
  · intro e'
    by_cases heq : e' = e
    · subst heq
      rw [Transcript.about_append_own]
      exact hgrounded
    · rw [Transcript.about_append_other t p heq]
      exact ha.grounded e'

/-- A step of a visit in which nothing happens on the connection. -/
theorem Attested.goOn {i : Nat} {new : WorkerPhase} (ha : o.Attested world t) (halone : o.Alone i e)
    (hplaced : o'.phases = o.phases.set i new)
    (hothers : ∀ e', e' ≠ e → o'.registry.details e' = o.registry.details e')
    (hsent : ∀ peer, .good peer ∈ o'.outcomes.items →
      .good peer ∈ o.outcomes.items ∨ peer.endpoint = e ∧ (t.about e).Introduces e peer)
    (hnew : ∀ e', new.visited? = some e' →
      e' = e ∧ new.Attested world (o'.registry.details e).pingNonce (t.about e))
    (hdetails : (o'.registry.details e).Attested e (t.about e)) : o'.Attested world t := by
  have hturn := @Attested.turn world o o' t e [] i new ha halone hplaced hothers
  rw [List.append_nil, List.map_nil, List.append_nil] at hturn
  exact hturn hsent hnew hdetails (ha.grounded e)

end Outline

end BitcoinCrawl
