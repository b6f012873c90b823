import BitcoinCrawl.Proofs.Crawl.Orderly
import BitcoinCrawl.Proofs.Registry.Transitions
import Mathlib.Data.List.Count
import Mathlib.Data.List.Perm.Basic

set_option autoImplicit false

/-! # Where the endpoints of a crawl are

Every endpoint a crawl has heard of is in exactly one place: in a queue, with a task, abandoned, or recorded.
`Outline.custody` lists all places, and the main theorem says that the places of an endpoint are the one
that the state of its node stands for (`endpoints_conserved`). Steps are followed by counting: `tally` says
how often an endpoint is in a place of a given state, and every step keeps it in line with the registry. -/

namespace BitcoinCrawl

/-! ## Places -/

/-- Where an endpoint can be. -/
inductive Place where
  | discoveryQueue
  /-- In the hands of the feeder, which has a place in the work queue reserved. -/
  | feeder
  | workQueue
  /-- Taken by a worker that has not marked it yet. -/
  | claimed (worker : Nat)
  /-- Marked by a worker that has not sent its outcome yet. -/
  | dialing (worker : Nat)
  /-- Its outcome is on its way to the aggregator. -/
  | sent (outcome : Outcome)
  /-- Its dial was given up for a stop. -/
  | abandoned
  | recorded (outcome : Outcome)

/-- The state a node gets when an outcome is recorded. -/
def Outcome.verdict : Outcome → NodeState
  | good _ => .good
  | dead _ => .dead

/-- The state of a node whose endpoint is in a place. -/
def Place.state : Place → NodeState
  | discoveryQueue => .discovered
  | feeder | workQueue | claimed _ => .queued
  | dialing _ | sent _ | abandoned => .connecting
  | recorded outcome => outcome.verdict

namespace WorkerPhase

/-- The endpoint that a worker has in its hands. -/
def custody (worker : Nat) : WorkerPhase → Option (Endpoint × Place)
  | claimed e => some (e, .claimed worker)
  | marked e | dialing e _ _ | reporting e _ _ => some (e, .dialing worker)
  | _ => none

/-- The endpoint that a worker has in its hands, and the state of its node. -/
def held : WorkerPhase → Option (Endpoint × NodeState)
  | claimed e => some (e, .queued)
  | marked e | dialing e _ _ | reporting e _ _ => some (e, .connecting)
  | _ => none

@[simp] theorem held_idle : idle.held = none := rfl

@[simp] theorem held_claimed (e : Endpoint) : (claimed e).held = some (e, .queued) := rfl

@[simp] theorem held_marked (e : Endpoint) : (marked e).held = some (e, .connecting) := rfl

@[simp] theorem held_dialing (e : Endpoint) (dial : Dial) (deadline : Nat) :
    (dialing e dial deadline).held = some (e, .connecting) := rfl

@[simp] theorem held_reporting (e : Endpoint) (outcome : Outcome) (link : Option Link) :
    (reporting e outcome link).held = some (e, .connecting) := rfl

@[simp] theorem held_leaving : leaving.held = none := rfl

/-- Whether the worker has taken an endpoint that it has not marked yet. -/
def isClaimed : WorkerPhase → Bool
  | claimed _ => true
  | _ => false

/-- Whether the worker has marked an endpoint whose outcome it has not sent yet. -/
def isConnecting : WorkerPhase → Bool
  | marked _ | dialing .. | reporting .. => true
  | _ => false

theorem isClaimed_eq (phase : WorkerPhase) :
    (phase.held.map Prod.snd == some .queued) = phase.isClaimed := by
  cases phase <;> rfl

/-- A worker that has only taken an endpoint is not visiting one. -/
theorem isActive_of_isClaimed (phase : WorkerPhase) (h : phase.isClaimed = true) :
    phase.isActive = false := by
  cases phase <;> first | rfl | cases h

theorem isConnecting_eq (phase : WorkerPhase) :
    (phase.held.map Prod.snd == some .connecting) = phase.isConnecting := by
  cases phase <;> rfl

theorem custody_state (worker : Nat) (phase : WorkerPhase) :
    (phase.custody worker).map (fun x => (x.1, x.2.state)) = phase.held := by
  cases phase <;> rfl

theorem held_state {phase : WorkerPhase} {e : Endpoint} {s : NodeState}
    (h : phase.held = some (e, s)) : s = .queued ∨ s = .connecting := by
  cases phase <;> cases h
  · exact .inl rfl
  all_goals exact .inr rfl

end WorkerPhase

/-- Recording an outcome takes a node from connecting to its verdict. -/
theorem Outcome.call_transition (outcome : Outcome) :
    outcome.call.transition? = some (outcome.endpoint, .connecting, outcome.verdict) := by
  cases outcome <;> rfl

/-- No session takes a node to another state. -/
theorem SessionEdit.state? {e : Endpoint} {r r' : Registry} (edit : SessionEdit e r r')
    {e' : Endpoint} {s : NodeState} (hs : s ≠ .discovered) :
    r'.state? e' = some s ↔ r.state? e' = some s := by
  cases edit with
  | none => exact Iff.rfl
  | announced es => exact r.state?_add es e' hs
  | ponged nonce => rw [r.state?_recordPong]

namespace Outline

/-- Every endpoint with every place where it is, given what has been seen so far. -/
def custody (o : Outline) (h : History) : List (Endpoint × Place) :=
  o.registry.discoveryQueue.map (·, .discoveryQueue) ++
    o.feeder.carried.map (·, .feeder) ++
    o.queue.items.map (·, .workQueue) ++
    o.phases.zipIdx.filterMap (fun (phase, i) => phase.custody i) ++
    o.outcomes.items.map (fun outcome => (outcome.endpoint, .sent outcome)) ++
    h.abandoned.map (·, .abandoned) ++
    h.recorded.map (fun outcome => (outcome.endpoint, .recorded outcome))

/-! ## Counting places -/

/-- How often an endpoint is in a place that stands for a state. -/
def tally (o : Outline) (h : History) (e : Endpoint) : NodeState → Nat
  | .discovered => o.registry.discoveryQueue.count e
  | .queued =>
    o.feeder.carried.count e + o.queue.items.count e +
      o.phases.countP (·.held == some (e, .queued))
  | .connecting =>
    o.phases.countP (·.held == some (e, .connecting)) +
      (o.outcomes.items.map Outcome.endpoint).count e + h.abandoned.count e
  | s => h.recorded.countP fun outcome => outcome.endpoint == e && outcome.verdict == s

/-- What the workers have in their hands can be counted without their numbers. -/
theorem count_phases {α : Type} [BEq α] (phases : List WorkerPhase) (f : Endpoint × Place → α)
    (g : WorkerPhase → Option α) (h : ∀ i phase, (phase.custody i).map f = g phase) (x : α) :
    ((phases.zipIdx.filterMap fun (phase, i) => phase.custody i).map f).count x
      = phases.countP (g · == some x) := by
  have hentry : ∀ entry : WorkerPhase × Nat, (entry.1.custody entry.2).map f = g entry.1 :=
    fun entry => h entry.2 entry.1
  rw [List.map_filterMap, List.count_filterMap]
  simp only [hentry]
  rw [← Function.comp_def (fun phase : WorkerPhase => g phase == some x) Prod.fst,
    ← List.countP_map, List.zipIdx_map_fst]

/-- Places that stand for one state count for that state only. -/
theorem count_with_state {α : Type} (l : List α) (f : α → Endpoint) (s' : NodeState) (e : Endpoint)
    (s : NodeState) : (l.map fun a => (f a, s')).count (e, s) = if s' = s then (l.map f).count e else 0 := by
  have hmap : (l.map fun a => (f a, s')) = (l.map f).map fun e' => (e', s') := by simp
  rw [hmap]
  split_ifs with hs
  · have hinj : Function.Injective fun e' : Endpoint => (e', s') := fun _ _ heq => congrArg Prod.fst heq
    rw [← hs]
    exact List.count_map_of_injective (l.map f) _ hinj e
  · refine List.count_eq_zero.mpr fun hmem => hs ?_
    obtain ⟨_, -, heq⟩ := List.mem_map.mp hmem
    exact congrArg Prod.snd heq

theorem count_custody (o : Outline) (h : History) (e : Endpoint) (s : NodeState) :
    ((o.custody h).map fun x => (x.1, x.2.state)).count (e, s) = o.tally h e s := by
  have hphases : s ≠ .queued → s ≠ .connecting → o.phases.countP (·.held == some (e, s)) = 0 := by
    intro hqueued hconnecting
    refine List.countP_eq_zero.mpr fun phase _ hphase => ?_
    exact (WorkerPhase.held_state (by simpa using hphase)).elim hqueued hconnecting
  have hrecorded : (h.recorded.map fun outcome => (outcome.endpoint, outcome.verdict)).count (e, s)
      = h.recorded.countP fun outcome => outcome.endpoint == e && outcome.verdict == s := by
    rw [List.count_eq_countP, List.countP_map]
    rfl
  have hnone : s ≠ .good → s ≠ .dead →
      h.recorded.countP (fun outcome => outcome.endpoint == e && outcome.verdict == s) = 0 := by
    intro hgood hdead
    refine List.countP_eq_zero.mpr fun outcome _ houtcome => ?_
    have hverdict : outcome.verdict = s := eq_of_beq (Bool.and_eq_true_iff.mp houtcome).2
    cases outcome
    · exact hgood hverdict.symm
    · exact hdead hverdict.symm
  have hheld := count_phases o.phases (fun x => (x.1, x.2.state)) _ WorkerPhase.custody_state (e, s)
  simp only [custody, List.map_append, List.count_append, hheld]
  simp only [List.map_map, Function.comp_def, Place.state, hrecorded, count_with_state]
  cases s <;> simp [tally, hphases, hnone]

/-- Places that stand for a state, part by part. -/
theorem count_state (o : Outline) (h : History) (s : NodeState) :
    ((o.custody h).map (·.2.state)).count s
      = (if .discovered = s then o.registry.discoveryQueue.length else 0)
        + (if .queued = s then o.feeder.carried.length + o.queue.items.length else 0)
        + o.phases.countP (fun phase => phase.held.map Prod.snd == some s)
        + (if .connecting = s then o.outcomes.items.length + h.abandoned.length else 0)
        + (h.recorded.map (·.verdict)).count s := by
  have hheld : ∀ (i : Nat) (phase : WorkerPhase),
      (phase.custody i).map (·.2.state) = phase.held.map Prod.snd := by
    intro i phase
    rw [← phase.custody_state i, Option.map_map]
    rfl
  simp only [custody, List.map_append, List.count_append, count_phases o.phases (·.2.state) _ hheld]
  simp only [List.map_map, Function.comp_def, Place.state, List.map_const', List.count_replicate,
    beq_iff_eq]
  split_ifs <;> omega

/-- Every recorded outcome stands for a verdict. -/
theorem count_verdicts (h : History) {s : NodeState} (hs : s.isTerminal = false) :
    (h.recorded.map (·.verdict)).count s = 0 := by
  refine List.count_eq_zero.mpr fun hmem => ?_
  obtain ⟨outcome, -, rfl⟩ := List.mem_map.mp hmem
  cases outcome <;> cases hs

/-- Queued endpoints wait in the feeder, in the work queue or with a worker. -/
theorem count_queued (o : Outline) (h : History) :
    ((o.custody h).map (·.2.state)).count .queued
      = o.feeder.carried.length + o.queue.items.length + o.phases.countP (·.isClaimed) := by
  rw [count_state, count_verdicts h rfl]
  simp [WorkerPhase.isClaimed_eq]

/-- Endpoints being dialed are with a worker, on their way to the aggregator or abandoned. -/
theorem count_connecting (o : Outline) (h : History) :
    ((o.custody h).map (·.2.state)).count .connecting
      = o.phases.countP (·.isConnecting) + o.outcomes.items.length + h.abandoned.length := by
  rw [count_state, count_verdicts h rfl]
  simp [WorkerPhase.isConnecting_eq, Nat.add_assoc]

/-- If each state's tally is one or zero, as the state of the node says, the endpoint is in one place. -/
theorem row_of_tally {o : Outline} {h : History} {e : Endpoint} {state? : Option NodeState}
    (htally : ∀ s, o.tally h e s = if state? = some s then 1 else 0) :
    ((o.custody h).filter (·.1 = e)).map (·.2.state) = state?.toList := by
  have hcount : ∀ s, (((o.custody h).filter (·.1 = e)).map (·.2.state)).count s
      = if state? = some s then 1 else 0 := by
    intro s
    rw [← htally, ← count_custody]
    simp only [List.count_eq_countP, List.countP_map, List.countP_filter]
    refine List.countP_congr fun x _ => ?_
    simp [and_comm]
  cases state? with
  | none =>
      refine List.eq_nil_iff_forall_not_mem.mpr fun s hmem => ?_
      have hpos := List.count_pos_iff.mpr hmem
      rw [hcount] at hpos
      simp at hpos
  | some s =>
      -- Two lists with the same counts are permutations, and one of a single entry is that list.
      refine List.perm_singleton.mp (List.perm_iff_count.mpr fun s' => ?_)
      rw [hcount]
      by_cases hs : s = s' <;> simp [hs]

/-! ## Steps move endpoints as the registry says -/

/-- Apart from the discovery queue, which the registry keeps itself, endpoints are where the states of their
    nodes say, once. -/
def Counted (o : Outline) (h : History) : Prop :=
  ∀ e s, s ≠ .discovered → o.tally h e s = if o.registry.state? e = some s then 1 else 0

variable {world : World} {size : Nat} {o o' : Outline} {h h' : History}

/-- Nothing has moved. -/
theorem Counted.keep (hc : o.Counted h) (htally : ∀ e s, s ≠ .discovered → o'.tally h' e s = o.tally h e s)
    (hstate : ∀ e s, s ≠ .discovered →
      (o'.registry.state? e = some s ↔ o.registry.state? e = some s)) : o'.Counted h' := by
  intro e s hs
  rw [htally e s hs, hc e s hs]
  simp only [hstate e s hs]

/-- One endpoint has moved to a place of another state, and the registry knows. -/
theorem Counted.move {e : Endpoint} {last next : NodeState} (hc : o.Counted h)
    (hlast : o.registry.state? e = some last) (hdiff : last ≠ next)
    (hstate : ∀ e', o'.registry.state? e' = if e = e' then some next else o.registry.state? e')
    (htally : ∀ e' s, s ≠ .discovered →
      o'.tally h' e' s + (if e = e' ∧ last = s then 1 else 0)
        = o.tally h e' s + if e = e' ∧ next = s then 1 else 0) : o'.Counted h' := by
  intro e' s hs
  have hmoved := htally e' s hs
  rw [hc e' s hs] at hmoved
  rw [hstate]
  by_cases he : e = e'
  · subst he
    rw [hlast] at hmoved
    by_cases hnext : next = s
    · subst hnext
      simpa [hdiff] using hmoved
    · simpa [hnext] using hmoved
  · simpa [he] using hmoved

/-- A worker that comes to stand somewhere else may have changed what it has in its hands. -/
theorem tally_place {i : Nat} {old : WorkerPhase} (new : WorkerPhase) (hi : o.phases[i]? = some old)
    (h : History) (e : Endpoint) (s : NodeState) :
    (o.place i new).tally h e s + (if old.held = some (e, s) then 1 else 0)
      = o.tally h e s + if new.held = some (e, s) then 1 else 0 := by
  have hcount := countP_set_add (·.held == some (e, s)) new hi
  simp only [beq_iff_eq] at hcount
  have hnone : s ≠ .queued → s ≠ .connecting → ∀ phase : WorkerPhase, phase.held ≠ some (e, s) :=
    fun hqueued hconnecting phase hheld => (WorkerPhase.held_state hheld).elim hqueued hconnecting
  cases s with
  | queued =>
      simp only [tally, place_feeder, place_queue, place_phases]
      omega
  | connecting =>
      simp only [tally, place_outcomes, place_phases]
      omega
  | discovered | good | dead =>
      rw [if_neg (hnone (by simp) (by simp) old), if_neg (hnone (by simp) (by simp) new)]
      rfl

/-- For all other endpoints and states nothing changes. -/
theorem tally_place_of_ne {i : Nat} {old new : WorkerPhase} (hi : o.phases[i]? = some old)
    (h : History) (e : Endpoint) (s : NodeState) (hold : old.held ≠ some (e, s))
    (hnew : new.held ≠ some (e, s)) : (o.place i new).tally h e s = o.tally h e s := by
  have hplace := tally_place new hi h e s
  rwa [if_neg hold, if_neg hnew] at hplace

/-- A worker goes on with the endpoint that it has in its hands, or without one. -/
theorem Counted.place {i : Nat} {old : WorkerPhase} (new : WorkerPhase) (hc : o.Counted h)
    (hi : o.phases[i]? = some old) (hheld : new.held = old.held) : (o.place i new).Counted h := by
  refine hc.keep (fun e s _ => ?_) fun _ _ _ => Iff.rfl
  -- What the worker holds counts the same before and after, whatever it is.
  have hplace := tally_place new hi h e s
  rw [hheld] at hplace
  exact Nat.add_right_cancel hplace

/-- The registry has changed, but no node has left its state. -/
theorem Counted.edit {registry : Registry} (hc : o.Counted h)
    (hstate : ∀ e s, s ≠ .discovered →
      (registry.state? e = some s ↔ o.registry.state? e = some s)) :
    ({ o with registry } : Outline).Counted h := by
  refine hc.keep (fun e s hs => ?_) hstate
  cases s <;> first | rfl | exact absurd rfl hs

/-- What is seen of dials matters to custody only where one is abandoned or an outcome recorded. -/
theorem Counted.append {facts : History} (hc : o.Counted h) (habandoned : facts.abandoned = [])
    (hrecorded : facts.recorded = []) : o.Counted (h ++ facts) := by
  refine hc.keep (fun e s _ => ?_) fun _ _ _ => Iff.rfl
  cases s <;>
    simp only [tally, History.abandoned_append, History.recorded_append, habandoned, hrecorded,
      List.append_nil]

/-- A worker has taken an endpoint from the work queue. -/
theorem Counted.claim {i : Nat} {e : Endpoint} {items : List Endpoint} (hc : o.Counted h)
    (hi : o.phases[i]? = some .idle) (front : o.queue.items = e :: items) :
    ({ o.place i (.claimed e) with queue := { o.queue with items } } : Outline).Counted h := by
  refine hc.keep (fun e' s _ => ?_) fun _ _ _ => Iff.rfl
  by_cases hs : s = .queued
  · subst hs
    have hplace := tally_place (.claimed e) hi h e' .queued
    simp only [tally, place_feeder, place_queue, place_phases, front, List.count_cons,
      beq_iff_eq] at hplace ⊢
    simp only [WorkerPhase.held_claimed, WorkerPhase.held_idle, Option.some.injEq, Prod.mk.injEq,
      and_true, reduceCtorEq, if_false] at hplace
    omega
  · have hplace : (o.place i (.claimed e)).tally h e' s = o.tally h e' s :=
      tally_place_of_ne hi h e' s (by simp) (by simp [Ne.symm hs])
    rw [← hplace]
    cases s <;> first | rfl | exact absurd rfl hs

/-- A worker has sent an outcome. -/
theorem Counted.send {i : Nat} {e : Endpoint} {outcome : Outcome} {link : Option Link}
    (next : WorkerPhase) (hc : o.Counted h) (hi : o.phases[i]? = some (.reporting e outcome link))
    (habout : outcome.endpoint = e) (hnext : next.held = none) :
    ({ o.place i next with outcomes := o.outcomes.push outcome } : Outline).Counted h := by
  refine hc.keep (fun e' s _ => ?_) fun _ _ _ => Iff.rfl
  by_cases hs : s = .connecting
  · -- The worker holds one endpoint less, and one outcome more is about that endpoint.
    subst hs
    have hplace := tally_place next hi h e' .connecting
    simp only [tally, place_outcomes, place_phases, OutcomeQueue.push, List.map_append,
      List.count_append, List.map_cons, List.map_nil, List.count_singleton, habout,
      beq_iff_eq] at hplace ⊢
    simp only [WorkerPhase.held_reporting, hnext, Option.some.injEq, Prod.mk.injEq, and_true,
      reduceCtorEq, if_false] at hplace
    omega
  · have hplace : (o.place i next).tally h e' s = o.tally h e' s :=
      tally_place_of_ne hi h e' s (by simp [Ne.symm hs]) (by simp [hnext])
    rw [← hplace]
    cases s <;> first | rfl | exact absurd rfl hs

/-- A dial has been given up. -/
theorem Counted.abandon {i : Nat} {e : Endpoint} {dial : Dial} {deadline : Nat} (hc : o.Counted h)
    (hi : o.phases[i]? = some (.dialing e dial deadline)) :
    (o.place i .leaving).Counted (h ++ [.abandoned e]) := by
  refine hc.keep (fun e' s _ => ?_) fun _ _ _ => Iff.rfl
  have habandoned : History.abandoned [.abandoned e] = [e] := rfl
  have hrecorded : History.recorded [.abandoned e] = [] := rfl
  by_cases hs : s = .connecting
  · subst hs
    have hplace := tally_place .leaving hi h e' .connecting
    simp only [tally, place_outcomes, place_phases, History.abandoned_append, habandoned,
      List.count_append, List.count_singleton, beq_iff_eq] at hplace ⊢
    simp only [WorkerPhase.held_dialing, WorkerPhase.held_leaving, Option.some.injEq, Prod.mk.injEq,
      and_true, reduceCtorEq, if_false] at hplace
    omega
  · have hplace : (o.place i .leaving).tally h e' s = o.tally h e' s :=
      tally_place_of_ne hi h e' s (by simp [Ne.symm hs]) (by simp)
    rw [← hplace]
    cases s <;> simp only [tally, History.recorded_append, hrecorded, List.append_nil]
    exact absurd rfl hs

/-- What a worker has in its hands is in the state that belongs to it. -/
theorem Counted.held {i : Nat} {phase : WorkerPhase} {e : Endpoint} {s : NodeState} (hc : o.Counted h)
    (hi : o.phases[i]? = some phase) (hheld : phase.held = some (e, s)) :
    o.registry.state? e = some s := by
  have hpos : 0 < o.phases.countP (·.held == some (e, s)) :=
    List.countP_pos_iff.mpr ⟨phase, List.mem_of_getElem? hi, by simp [hheld]⟩
  have hs := WorkerPhase.held_state hheld
  have hcount := hc e s (by rcases hs with rfl | rfl <;> simp)
  by_contra hne
  rw [if_neg hne] at hcount
  rcases hs with rfl | rfl
  · simp only [tally] at hcount
    omega
  · simp only [tally] at hcount
    omega

/-- A worker can mark what it has taken. -/
theorem Counted.markConnecting_ne {i : Nat} {e : Endpoint} (hc : o.Counted h)
    (hi : o.phases[i]? = some (.claimed e)) (fault : RegistryFault) :
    o.registry.markConnecting e ≠ .error fault := by
  obtain ⟨n, hn, hs⟩ := Registry.state?_eq_some.mp (hc.held hi rfl)
  rw [Registry.markConnecting_eq_ok.mpr ⟨n, hn, hs, rfl⟩]
  exact fun heq => nomatch heq

/-- A worker has marked what it has taken. -/
theorem Counted.mark {i : Nat} {e : Endpoint} {registry : Registry} (hc : o.Counted h)
    (hi : o.phases[i]? = some (.claimed e)) (marked : o.registry.markConnecting e = .ok registry) :
    ({ o.place i (.marked e) with registry } : Outline).Counted h := by
  obtain ⟨hlast, hregistry⟩ := Registry.state?_of_markConnecting marked
  have hstate := (Registry.perform_mark (.markConnecting e) rfl hlast).2
  rw [← hregistry] at hstate
  refine hc.move hlast (by simp) hstate fun e' s hs => ?_
  have hplace := tally_place (.marked e) hi h e' s
  simp only [WorkerPhase.held_claimed, WorkerPhase.held_marked, Option.some.injEq,
    Prod.mk.injEq] at hplace
  cases s <;> first | exact hplace | exact absurd rfl hs

/-- What is about to be recorded is still being dialed as far as the registry knows. -/
theorem Counted.sent {outcome : Outcome} (hc : o.Counted h) (hmem : outcome ∈ o.outcomes.items) :
    o.registry.state? outcome.endpoint = some .connecting := by
  have hpos := List.count_pos_iff.mpr (List.mem_map_of_mem (f := Outcome.endpoint) hmem)
  have hcount := hc outcome.endpoint .connecting (by simp)
  by_contra hne
  rw [if_neg hne] at hcount
  simp only [tally] at hcount
  omega

/-- The oldest outcome has been recorded. -/
theorem Counted.record {outcome : Outcome} {items : List Outcome} (hc : o.Counted h)
    (front : o.outcomes.items = outcome :: items) :
    ({ o with
        registry := o.registry.perform outcome.call
        outcomes := { o.outcomes with items } } : Outline).Counted (h ++ [.recorded outcome]) := by
  have hlast := hc.sent (front ▸ List.mem_cons_self)
  have hverdict : outcome.verdict = .good ∨ outcome.verdict = .dead := by
    cases outcome <;> simp [Outcome.verdict]
  have hdiff : NodeState.connecting ≠ outcome.verdict := by
    rcases hverdict with hv | hv <;> simp [hv]
  refine hc.move hlast hdiff (Registry.perform_mark _ outcome.call_transition hlast).2 fun e' s hs => ?_
  have habandoned : History.abandoned [.recorded outcome] = [] := rfl
  have hrecorded : History.recorded [.recorded outcome] = [outcome] := rfl
  cases s with
  | discovered => exact absurd rfl hs
  | queued => rcases hverdict with hv | hv <;> simp [tally, hv]
  | connecting =>
      simp only [tally, front, History.abandoned_append, habandoned, List.append_nil, List.map_cons,
        List.count_cons, beq_iff_eq, and_true, hdiff.symm, and_false, if_false]
      omega
  | good | dead =>
      simp [tally, History.recorded_append, hrecorded, List.countP_cons]

/-- An endpoint has left the discovery queue. -/
theorem Counted.search (hc : o.Counted h) (ho : o.registry.Consistent) (hf : o.feeder = .searching) :
    ({ o with
        registry := o.registry.perform .takeNext
        feeder := match o.registry.takeNext.endpoint with
          | some e => .handing e
          | none => .arming } : Outline).Counted h := by
  rcases ho.takeNext_cases with htake | ⟨e, htake, hlast, hstate⟩
  -- Either the discovery queue is empty, or its oldest entry goes to the feeder.
  · simp only [Registry.perform, htake]
    refine hc.keep (fun e s _ => ?_) fun _ _ _ => Iff.rfl
    cases s <;> simp only [tally, hf, Feeder.carried]
  · simp only [htake]
    refine hc.move hlast (by simp) hstate fun e' s hs => ?_
    cases s with
    | discovered => exact absurd rfl hs
    | queued =>
        simp only [tally, hf, Feeder.carried, List.count_singleton, List.count_nil, beq_iff_eq, and_true,
          reduceCtorEq, and_false, if_false]
        omega
    | connecting | good | dead => simp [tally]

theorem Step.counted {facts : History} (step : Step world o facts o') (ho : o.Orderly size)
    (hc : o.Counted h) : o'.Counted (h ++ facts) := by
  cases step with
  | rest | stop | pass => rwa [List.append_nil]
  | shift feeder before after room =>
      rw [List.append_nil]
      refine hc.keep (fun e s _ => ?_) fun _ _ _ => Iff.rfl
      cases s <;> simp only [tally, before, after]
  | search hf =>
      rw [List.append_nil]
      exact hc.search ho.consistent hf
  | hand e hf =>
      rw [List.append_nil]
      refine hc.keep (fun e' s _ => ?_) fun _ _ _ => Iff.rfl
      cases s <;> simp only [tally, hf, Feeder.carried, WorkQueue.push, List.count_append, List.count_nil]
      omega
  | retire i queue hi kept =>
      rw [List.append_nil]
      refine (hc.place .exited hi rfl).keep (fun e s _ => ?_) fun _ _ _ => Iff.rfl
      cases s <;> simp only [tally, place_queue, place_feeder, place_phases, place_outcomes, kept.1]
  | claim i e items hi running front =>
      rw [List.append_nil]
      exact hc.claim hi front
  | mark i e registry hi marked =>
      rw [List.append_nil]
      exact hc.mark hi marked
  | skip i e fault hi failed =>
      -- What a worker has taken is queued and nowhere else, so it can be marked.
      exact absurd failed (hc.markConnecting_ne hi fault)
  | abandon i e dial deadline hi stopped => exact hc.abandon hi
  | await i e dial deadline s seen hi timely =>
      have hplace := hc.place (.dialing e (dial.step world e s).1 deadline) hi rfl
      rcases timely with rfl | ⟨rfl, -⟩
      · rwa [List.append_nil]
      · exact hplace.append rfl rfl
  | fail i e dial deadline seen hi reason =>
      have hplace := hc.place (.reporting e (.dead e) none) hi rfl
      rcases reason with ⟨fault, rfl⟩ | ⟨rfl, -⟩
      · exact hplace.append rfl rfl
      · exact hplace.append rfl rfl
  | report i e outcome link hi listening =>
      have habout := (ho.fits _ (List.mem_of_getElem? hi)).endpoint
      cases link with
      | none => exact (hc.send .leaving hi habout rfl).append rfl rfl
      | some link => exact (hc.send (.noting e link) hi habout rfl).append rfl rfl
  | drop i e outcome link hi deaf =>
      rw [ho.listening] at deaf
      cases deaf
  | note i e link nonce hi =>
      rw [List.append_nil]
      refine (hc.place (.pinging e link nonce) hi rfl).edit fun e' s _ => ?_
      rw [Registry.state?_setPingNonce]
      exact Iff.rfl
  | serve i session session' registry hi same edit =>
      rw [List.append_nil]
      exact (hc.place (.serving session') hi rfl).edit fun e' s hs => edit.state? hs
  | record outcome items front => exact hc.record front
  | dial i e hi => exact (hc.place (.dialing e _ _) hi rfl).append rfl rfl
  | connect i e dial deadline s connected hi answer =>
      exact (hc.place (.reporting e _ _) hi rfl).append rfl rfl
  | wake i hi | ping i e link link' nonce hi | attend i e link nonce session hi same
  | giveUp i e link nonce hi | hangUp i session hi | leave i hi =>
      rw [List.append_nil]
      exact hc.place _ hi rfl

theorem Initial.counted {seeds : List Endpoint} (hinit : o.Initial size seeds) : o.Counted [] := by
  intro e s hs
  have hunknown : o.registry.state? e ≠ some s := by
    rw [hinit.registry, Ne, Registry.state?_add {} seeds e hs]
    simp [Registry.state?, Registry.node?]
  rw [if_neg hunknown]
  cases s with
  | discovered => exact absurd rfl hs
  | queued | connecting =>
      simp [tally, hinit.feeder, hinit.queue, hinit.phases, hinit.outcomes, Feeder.carried,
        List.countP_replicate, WorkerPhase.held, History.abandoned]
  | good | dead => rfl

/-- Throughout a crawl endpoints are where the registry has them. -/
theorem Initial.reach {seeds : List Endpoint} (hinit : o.Initial size seeds)
    (reach : Reach world o h o') : o'.Orderly size ∧ o'.Counted h := by
  induction reach with
  | start => exact ⟨hinit.orderly, hinit.counted⟩
  | step before next ih => exact ⟨next.orderly ih.1, next.counted ih.1 ih.2⟩

/-! ## Every endpoint is in one place -/

/-- The discovery queue is as the registry has it too. -/
theorem Counted.tally_eq (hc : o.Counted h) (ho : o.registry.Consistent) (e : Endpoint)
    (s : NodeState) : o.tally h e s = if o.registry.state? e = some s then 1 else 0 := by
  by_cases hs : s = .discovered
  · subst hs
    show o.registry.discoveryQueue.count e = _
    split_ifs with hstate
    · exact List.count_eq_one_of_mem ho.queue_nodup ((ho.mem_queue e).mpr hstate)
    · exact List.count_eq_zero.mpr fun hmem => hstate ((ho.mem_queue e).mp hmem)
  · exact hc e s hs

/-- As many nodes are in a state as there are places in use that stand for it. -/
theorem Counted.population_eq (hc : o.Counted h) (ho : o.registry.Consistent) (s : NodeState) :
    o.registry.population s = ((o.custody h).map (·.2.state)).count s := by
  have hcount : ∀ e, (((o.custody h).filter (·.2.state = s)).map Prod.fst).count e
      = if o.registry.state? e = some s then 1 else 0 := by
    intro e
    rw [← hc.tally_eq ho, ← count_custody]
    simp only [List.count_eq_countP, List.countP_map, List.countP_filter]
    refine List.countP_congr fun x _ => ?_
    simp
  have hnodup : (((o.custody h).filter (·.2.state = s)).map Prod.fst).Nodup := by
    refine List.nodup_iff_count_le_one.mpr fun e => ?_
    rw [hcount]
    split_ifs <;> simp
  have hmem : ∀ e, e ∈ ((o.custody h).filter (·.2.state = s)).map Prod.fst
      ↔ o.registry.state? e = some s := by
    intro e
    rw [← List.count_pos_iff, hcount]
    split_ifs with hstate <;> simp [hstate]
  rw [Registry.population_eq_length hnodup hmem, List.length_map, List.count_eq_countP,
    List.countP_map, List.countP_eq_length_filter]
  congr 1

theorem Counted.queued_eq (hc : o.Counted h) (ho : o.registry.Consistent) :
    o.registry.queued
      = o.feeder.carried.length + o.queue.items.length + o.phases.countP (·.isClaimed) := by
  rw [ho.queued_eq, hc.population_eq ho, count_queued]

theorem Counted.connecting_eq (hc : o.Counted h) (ho : o.registry.Consistent) :
    o.registry.connecting
      = o.phases.countP (·.isConnecting) + o.outcomes.items.length + h.abandoned.length := by
  rw [ho.connecting_eq, hc.population_eq ho, count_connecting]

/-- Queued endpoints have a place in the work queue or a worker that is not visiting another. -/
theorem Counted.queued_le (hc : o.Counted h) (ho : o.Orderly size) :
    o.registry.queued + o.phases.countP (·.isActive) ≤ 2 * size := by
  have hbusy : o.phases.countP (·.isClaimed) + o.phases.countP (·.isActive) ≤ o.phases.length :=
    countP_add_le_length o.phases WorkerPhase.isActive_of_isClaimed
  have hroom := ho.room
  have hcarried : o.feeder.carried.length ≤ if o.feeder.hasReserved then 1 else 0 := by
    cases o.feeder <;> simp [Feeder.carried, Feeder.hasReserved]
  rw [hc.queued_eq ho.consistent]
  rw [ho.pool] at hbusy
  omega

end Outline

/-- Endpoints in flight in a crawl with a pool of some size, given what has been seen of it. -/
structure Crawl.Conserved (size : Nat) (c : Crawl) (h : History) : Prop where
  /-- A known endpoint is in one place, and that is one for the state of its node. An unknown endpoint is
      nowhere. -/
  placed : ∀ e, ((c.outline.custody h).filter (·.1 = e)).map (·.2.state)
    = (c.shared.registry.state? e).toList
  /-- The work queue has room for what the feeder takes from the discovery queue. -/
  reserved : c.queue.items.length + (if c.feeder.hasReserved then 1 else 0) ≤ size
  active_eq : c.shared.metrics.active.toNat = c.workers.toList.countP (·.phase.isActive)
  active_le : c.shared.metrics.active.toNat ≤ size
  queued_eq : c.shared.registry.counts.queued
    = c.feeder.carried.length + c.queue.items.length + c.workers.toList.countP (·.phase.isClaimed)
  queued_le : c.shared.registry.counts.queued + c.shared.metrics.active.toNat ≤ 2 * size

namespace Crawl

variable {world : World} {seeds : List Endpoint} {s : Shared} {c : Crawl}

/-- **No endpoint is lost or in two places at once.** Whatever the order of steps, whatever peers do and
    whenever the crawl is stopped: every known endpoint is in one place, which agrees with its node; the
    active visits are those of workers that have begun to dial and have not left, and never more than
    there are workers; and at most twice as many endpoints are queued. -/
theorem endpoints_conserved (fresh : s.Fresh) (started : start world seeds s = .ok c)
    (events : List Event) :
    Conserved (poolSize world.config.connectionLimit) (c.run world events)
      (c.chronicle world events) := by
  obtain ⟨ho, hc⟩ := (start_outline fresh started).reach (reach_run world c events)
  have hphases : ∀ p : WorkerPhase → Bool, (c.run world events).outline.phases.countP p
      = (c.run world events).workers.toList.countP (p ·.phase) := fun p => List.countP_map ..
  have hlength : (c.run world events).outline.phases.countP (·.isActive)
      ≤ poolSize world.config.connectionLimit := ho.pool ▸ List.countP_le_length
  -- There are fewer workers than the counter can count.
  have hactive : (c.run world events).shared.metrics.active.toNat
      = (c.run world events).outline.phases.countP (·.isActive) := by
    have hcounter : (c.run world events).shared.metrics.active = .ofNat _ := ho.active
    rw [hcounter]
    exact UInt64.toNat_ofNat_of_lt' (Nat.lt_of_le_of_lt hlength (start_pool started))
  constructor
  · exact fun e => Outline.row_of_tally (hc.tally_eq ho.consistent e)
  · exact ho.room
  · exact hactive.trans (hphases _)
  · exact hactive ▸ hlength
  · exact (hc.queued_eq ho.consistent).trans (congrArg _ (hphases _))
  · exact hactive ▸ hc.queued_le ho

/-- It holds for a crawl of two seeds that is stopped when its worker has taken the first of them. -/
theorem deafWorld_conserved :
    ∃ c, start deafWorld [firstSeed, secondSeed] { host := default } = .ok c ∧
      Conserved 1
        (c.run deafWorld
          (List.replicate 4 (.act .feeder) ++ List.replicate 2 (.act (.worker 0)) ++ [.cancel]))
        (c.chronicle deafWorld
          (List.replicate 4 (.act .feeder) ++ List.replicate 2 (.act (.worker 0)) ++ [.cancel])) := by
  obtain ⟨c, started⟩ := deafWorld_start
  exact ⟨c, started, endpoints_conserved ⟨rfl, rfl⟩ started _⟩

end Crawl

end BitcoinCrawl
