import BitcoinCrawl.Proofs.Crawl.Surveying
import Mathlib.Algebra.Ring.Nat

set_option autoImplicit false

/-! # What a calm crawl keeps of a network

While nothing interferes with a crawl, all it knows is reachable, everything announced to it is known or still
in the hands of a worker (`Survey.Charted`), no signal about new endpoints is lost (`Survey.Alert`), and the
messages that were heard and those still to come are those of the endpoints that were reported good
(`Survey.Exploring`). -/

namespace BitcoinCrawl

/-! ## One worker among others -/

/-- Where something in a list changes, what holds of something in it still does unless it was about the old
    entry. -/
theorem exists_mem_set {α : Type} {l : List α} {i : Nat} {old : α} (new : α) {p : α → Prop}
    (hi : l[i]? = some old) (h : ∃ x ∈ l, p x) : p old ∨ ∃ x ∈ l.set i new, p x := by
  obtain ⟨x, hmem, hx⟩ := h
  obtain ⟨j, hj⟩ := List.mem_iff_getElem?.mp hmem
  by_cases hij : i = j
  · subst hij
    cases hi.symm.trans hj
    exact .inl hx
  · refine .inr ⟨x, List.mem_iff_getElem?.mpr ⟨j, ?_⟩, hx⟩
    rw [List.getElem?_set_ne hij, hj]

theorem mem_set_self {α : Type} {l : List α} {i : Nat} {old : α} (new : α) (hi : l[i]? = some old) :
    new ∈ l.set i new := by
  obtain ⟨hlt, -⟩ := List.getElem?_eq_some_iff.mp hi
  exact List.mem_set hlt new

/-- Where something in a list changes, a sum changes by what it was and what it becomes. -/
theorem sum_map_set_add {α : Type} {l : List α} {i : Nat} {old : α} (f : α → Nat) (new : α)
    (hi : l[i]? = some old) : ((l.set i new).map f).sum + f old = (l.map f).sum + f new := by
  induction l generalizing i with
  | nil => cases hi
  | cons x rest ih =>
      cases i with
      | zero =>
          cases hi
          simp only [List.set_cons_zero, List.map_cons, List.sum_cons]
          omega
      | succ j =>
          have hrest := ih hi
          simp only [List.set_cons_succ, List.map_cons, List.sum_cons]
          omega

namespace WorkerPhase.Like

theorem upcoming {old new : WorkerPhase} (h : old.Like new) : new.upcoming = old.upcoming := by
  rw [WorkerPhase.upcoming, WorkerPhase.upcoming, h.pending, h.inHand]

end WorkerPhase.Like

namespace Survey

variable {net : Network} {seeds : List Endpoint} {reported facts : List Outcome} {s s' : Survey}

/-! ## Tasks go on -/

/-- Nobody has gone away, and workers do what the network says. -/
structure Lively (net : Network) (s : Survey) : Prop where
  running : s.running = true
  feeding : s.feeder ≠ .exited
  agrees : ∀ phase ∈ s.phases, phase.Agrees net

theorem Lively.place {i : Nat} {new : WorkerPhase} (hs : s.Lively net) (agrees : new.Agrees net) :
    (s.place i new).Lively net where
  running := hs.running
  feeding := hs.feeding
  agrees := by
    intro phase hmem
    rcases List.mem_or_eq_of_mem_set hmem with hmem | rfl
    · exact hs.agrees phase hmem
    · exact agrees

theorem Step.lively (step : Step net s facts s') (hs : s.Lively net) : s'.Lively net := by
  cases step with
  | rest => exact hs
  | shift feeder before after =>
      refine { hs with feeding := ?_ }
      rintro rfl
      cases after
  | take | exhaust | wake => exact { hs with feeding := nofun }
  | arm =>
      refine { hs with feeding := ?_ }
      dsimp only
      split_ifs <;> exact nofun
  | turn i old new hi agrees => exact hs.place agrees
  | report i old new outcome hi agrees => exact hs.place agrees
  | hear i old new m hi agrees => exact { hs.place (i := i) agrees with }
  | announce i old new fresh hi agrees => exact { hs.place (i := i) agrees with }
  | signal i old new hi agrees => exact { hs.place (i := i) agrees with }

/-! ## Signals -/

/-- A worker is about to tell of new endpoints. -/
def Telling (s : Survey) : Prop := ∃ phase ∈ s.phases, phase.isSignalling = true

/-- The feeder waits for a signal only while the discovery queue is empty or somebody is about to signal. -/
def Alert (s : Survey) : Prop :=
  match s.feeder with
  | .arming =>
    s.arrivals.waiting = [] ∧ s.arrivals.woken = [] ∧ (s.arrivals.kept = true ∨ s.queue = [] ∨ s.Telling)
  | .listening =>
    s.arrivals.waiting = [] ∧ s.arrivals.woken = [Crawl.feederListener] ∨
      s.arrivals = ⟨false, [Crawl.feederListener], []⟩ ∧ (s.queue = [] ∨ s.Telling)
  | _ => s.arrivals.waiting = [] ∧ s.arrivals.woken = []

/-- A worker that goes on leaves somebody to tell of what waits if there was one. -/
theorem Alert.keep (ha : s.Alert) (feeder : s'.feeder = s.feeder) (arrivals : s'.arrivals = s.arrivals)
    (told : s.queue = [] ∨ s.Telling → s'.queue = [] ∨ s'.Telling) : s'.Alert := by
  unfold Alert at ha ⊢
  rw [feeder, arrivals]
  cases hf : s.feeder <;> simp only [hf] at ha ⊢
  case arming => exact ⟨ha.1, ha.2.1, ha.2.2.imp_right told⟩
  case listening => exact ha.imp_right fun ⟨harrivals, hwaits⟩ => ⟨harrivals, told hwaits⟩
  all_goals exact ha

/-- After a signal nobody need tell any more. -/
theorem Alert.notify (ha : s.Alert) (feeder : s'.feeder = s.feeder)
    (arrivals : s'.arrivals = s.arrivals.notify) : s'.Alert := by
  have hkept : ∀ signal : Signal, signal.waiting = [] → signal.notify = { signal with kept := true } := by
    intro signal hwaiting
    rw [Signal.notify, hwaiting]
  unfold Alert at ha ⊢
  rw [feeder, arrivals]
  cases hf : s.feeder <;> simp only [hf] at ha ⊢
  case arming =>
    rw [hkept _ ha.1]
    exact ⟨ha.1, ha.2.1, .inl rfl⟩
  case listening =>
    rcases ha with ⟨hwaiting, hwoken⟩ | ⟨harrivals, -⟩
    · rw [hkept _ hwaiting]
      exact .inl ⟨hwaiting, hwoken⟩
    · rw [harrivals]
      exact .inl ⟨rfl, rfl⟩
  all_goals
    rw [hkept _ ha.1]
    exact ha

theorem Telling.place {i : Nat} {old new : WorkerPhase} (hi : s.phases[i]? = some old)
    (h : old.isSignalling = true → new.isSignalling = true) (ht : s.Telling) : (s.place i new).Telling := by
  rcases exists_mem_set new hi ht with hold | htold
  · exact ⟨new, mem_set_self new hi, h hold⟩
  · exact htold

theorem Step.alert (step : Step net s facts s') (ha : s.Alert) : s'.Alert := by
  cases step with
  | rest => exact ha
  | shift feeder before after =>
      unfold Alert at ha ⊢
      have hidle : s.arrivals.waiting = [] ∧ s.arrivals.woken = [] := by
        cases hf : s.feeder <;> simp only [hf] at ha before <;> first | exact ha | cases before
      cases feeder <;> first | exact hidle | cases after
  | take e rest hf front =>
      unfold Alert at ha ⊢
      rw [hf] at ha
      exact ha
  | exhaust hf empty =>
      unfold Alert at ha ⊢
      rw [hf] at ha
      exact ⟨ha.1, ha.2, .inr (.inl empty)⟩
  | arm hf =>
      unfold Alert at ha ⊢
      rw [hf] at ha
      obtain ⟨hwaiting, hwoken, htold⟩ := ha
      simp only [Signal.listen]
      by_cases hkept : s.arrivals.kept = true
      · simp only [if_pos hkept, Bool.false_eq_true, if_false]
        exact ⟨hwaiting, hwoken⟩
      · simp only [if_neg hkept, if_true]
        refine .inr ⟨?_, htold.resolve_left hkept⟩
        rw [hwaiting, hwoken, eq_false_of_ne_true hkept]
        rfl
  | wake hf woken =>
      unfold Alert at ha ⊢
      rw [hf] at ha
      rcases ha with ⟨hwaiting, hwoken⟩ | ⟨harrivals, -⟩
      · refine ⟨hwaiting, ?_⟩
        show s.arrivals.woken.erase Crawl.feederListener = []
        rw [hwoken]
        rfl
      · rw [harrivals] at woken
        cases woken
  | turn i old new hi agrees like =>
      exact ha.keep rfl rfl fun h => h.imp_right fun ht => ht.place hi fun hold => like.signalling.trans hold
  | report i old new outcome hi agrees before said after quiet =>
      exact ha.keep rfl rfl fun h => h.imp_right fun ht => ht.place hi fun hold => nomatch quiet.symm.trans hold
  | hear i old new m hi agrees next before after quiet =>
      exact ha.keep rfl rfl fun h => h.imp_right fun ht => ht.place hi fun hold => nomatch quiet.symm.trans hold
  | announce i old new fresh hi agrees pending after quiet tells announced covered =>
      refine ha.keep rfl rfl fun h => ?_
      by_cases hfresh : fresh = []
      · rcases h with hnone | ht
        · exact .inl (by rw [hnone, hfresh]; rfl)
        · exact .inr (ht.place hi fun hold => nomatch quiet.symm.trans hold)
      · exact .inr ⟨new, mem_set_self new hi, tells hfresh⟩
  | signal i old new hi agrees pending inHand => exact ha.notify rfl rfl

/-! ## Endpoints -/

/-- Everything known can be reached, and everything announced is known or about to be. -/
structure Charted (net : Network) (seeds : List Endpoint) (reported : List Outcome) (s : Survey) : Prop where
  seeded : ∀ e ∈ seeds, e ∈ s.known
  reachable : ∀ e ∈ s.known, net.Reachable seeds e
  ahead : ∀ phase ∈ s.phases, ∀ e ∈ phase.upcoming, net.Reachable seeds e
  covered : ∀ outcome ∈ reported, ∀ e ∈ announcements (outcome.said net),
    e ∈ s.known ∨ ∃ phase ∈ s.phases, e ∈ phase.upcoming

/-- A worker comes to stand somewhere else. What it had before it is still before it or known by then. -/
theorem Charted.turn {i : Nat} {old : WorkerPhase} (new : WorkerPhase) (more : List Outcome)
    (hs : s.Charted net seeds reported) (hi : s.phases[i]? = some old) (phases : s'.phases = s.phases.set i new)
    (grown : ∀ e ∈ s.known, e ∈ s'.known) (reachable : ∀ e ∈ s'.known, net.Reachable seeds e)
    (ahead : ∀ e ∈ new.upcoming, net.Reachable seeds e)
    (kept : ∀ e ∈ old.upcoming, e ∈ s'.known ∨ e ∈ new.upcoming)
    (reports : ∀ outcome ∈ more, ∀ e ∈ announcements (outcome.said net), e ∈ new.upcoming) :
    s'.Charted net seeds (reported ++ more) where
  seeded := fun e he => grown e (hs.seeded e he)
  reachable := reachable
  ahead := by
    rw [phases]
    intro phase hmem
    rcases List.mem_or_eq_of_mem_set hmem with hmem | rfl
    · exact hs.ahead phase hmem
    · exact ahead
  covered := by
    rw [phases]
    have hnew := mem_set_self new hi
    intro outcome hmem e he
    rcases List.mem_append.mp hmem with hmem | hmem
    · rcases hs.covered outcome hmem e he with hknown | hahead
      · exact .inl (grown e hknown)
      · rcases exists_mem_set new hi hahead with hold | hother
        · exact (kept e hold).imp_right fun hnext => ⟨new, hnew, hnext⟩
        · exact .inr hother
    · exact .inr ⟨new, hnew, reports outcome hmem e he⟩

theorem announcements_said_reachable {outcome : Outcome} (known : net.Reachable seeds outcome.endpoint) :
    ∀ e ∈ announcements (outcome.said net), net.Reachable seeds e := by
  intro e he
  cases outcome with
  | good peer => exact .announced _ e known he
  | dead e' => cases he

theorem Step.charted (step : Step net s facts s') (hs : s.Charted net seeds reported) :
    s'.Charted net seeds (reported ++ facts) := by
  have hsame : ∀ (i : Nat) (old : WorkerPhase), s.phases[i]? = some old →
      ∀ e ∈ old.upcoming, net.Reachable seeds e := fun i old hi => hs.ahead old (List.mem_of_getElem? hi)
  cases step with
  | rest | shift | take | exhaust | arm | wake =>
      rw [List.append_nil]
      exact { hs with }
  | turn i old new hi agrees like =>
      have hlike := like.upcoming
      exact hs.turn new [] hi rfl (fun _ h => h) hs.reachable (hlike ▸ hsame i old hi)
        (fun e he => .inr (hlike ▸ he)) nofun
  | report i old new outcome hi agrees before said after quiet right known =>
      have hold : old.upcoming = [] := by rw [WorkerPhase.upcoming, before.1, before.2]; rfl
      have hnew : new.upcoming = announcements (outcome.said net) := by
        rw [WorkerPhase.upcoming, after, said, List.nil_append]
      refine hs.turn new [outcome] hi rfl (fun _ h => h) hs.reachable ?_ ?_ ?_
      · rw [hnew]
        exact announcements_said_reachable (hs.reachable _ known)
      · rw [hold]
        exact nofun
      · intro outcome' hmem
        rw [List.mem_singleton.mp hmem, hnew]
        exact fun _ he => he
  | hear i old new m hi agrees next before after quiet =>
      have hlike : new.upcoming = old.upcoming := by
        rw [WorkerPhase.upcoming, WorkerPhase.upcoming, after, before, next]
        rfl
      exact hs.turn new [] hi rfl (fun _ h => h) hs.reachable (hlike ▸ hsame i old hi)
        (fun e he => .inr (hlike ▸ he)) nofun
  | announce i old new fresh hi agrees pending after quiet tells announced covered =>
      have hnew : new.upcoming = announcements old.pending := by
        rw [WorkerPhase.upcoming, after, pending, List.nil_append]
      refine hs.turn new [] hi rfl (fun e h => List.mem_append_left _ h) ?_ ?_ ?_ nofun
      · intro e he
        rcases List.mem_append.mp he with hknown | hfresh
        · exact hs.reachable e hknown
        · exact hsame i old hi e (List.mem_append_left _ (announced e hfresh))
      · rw [hnew]
        exact fun e he => hsame i old hi e (List.mem_append_right _ he)
      · intro e he
        rw [hnew]
        exact (List.mem_append.mp he).imp_left (covered e)
  | signal i old new hi agrees pending inHand =>
      have hlike : new.upcoming = old.upcoming := by
        rw [WorkerPhase.upcoming, WorkerPhase.upcoming, pending, inHand]
      exact hs.turn new [] hi rfl (fun _ h => h) hs.reachable (hlike ▸ hsame i old hi)
        (fun e he => .inr (hlike ▸ he)) nofun

/-! ## Outcomes and messages -/

theorem Step.right (step : Step net s facts s') : ∀ outcome ∈ facts, outcome.Right net := by
  cases step with
  | report i old new outcome hi agrees before said after quiet right known =>
      intro outcome' hmem
      rwa [List.mem_singleton.mp hmem]
  | _ => exact nofun

/-- Messages heard and messages to come are those that the reported endpoints say. -/
def Tallied (net : Network) (reported : List Outcome) (s : Survey) : Prop :=
  ∃ heard : Nat, s.heard = .ofNat heard ∧
    heard + (s.phases.map (·.pending.length)).sum
      = (reported.map fun outcome => (outcome.said net).length).sum

theorem Step.tallied (step : Step net s facts s') (ht : s.Tallied net reported) :
    s'.Tallied net (reported ++ facts) := by
  obtain ⟨heard, hheard, hsaid⟩ := ht
  rw [Tallied, List.map_append, List.sum_append]
  cases step with
  | rest | shift | take | exhaust | arm | wake => exact ⟨heard, hheard, hsaid⟩
  | turn i old new hi agrees like =>
      have hsum := sum_map_set_add (·.pending.length) new hi
      rw [like.pending] at hsum
      refine ⟨heard, hheard, ?_⟩
      show heard + ((s.phases.set i new).map _).sum = _ + 0
      omega
  | report i old new outcome hi agrees before said after quiet right known =>
      have hsum := sum_map_set_add (·.pending.length) new hi
      rw [before.1, said] at hsum
      rw [List.length_nil] at hsum
      refine ⟨heard, hheard, ?_⟩
      show heard + ((s.phases.set i new).map _).sum = _ + ((outcome.said net).length + 0)
      omega
  | hear i old new m hi agrees next before after quiet =>
      have hsum := sum_map_set_add (·.pending.length) new hi
      rw [next, List.length_cons] at hsum
      refine ⟨heard + 1, hheard ▸ (UInt64.ofNat_add heard 1).symm, ?_⟩
      show heard + 1 + ((s.phases.set i new).map _).sum = _ + 0
      omega
  | announce i old new fresh hi agrees pending =>
      have hsum := sum_map_set_add (·.pending.length) new hi
      rw [pending] at hsum
      refine ⟨heard, hheard, ?_⟩
      show heard + ((s.phases.set i new).map _).sum = _ + 0
      omega
  | signal i old new hi agrees pending =>
      have hsum := sum_map_set_add (·.pending.length) new hi
      rw [pending] at hsum
      refine ⟨heard, hheard, ?_⟩
      show heard + ((s.phases.set i new).map _).sum = _ + 0
      omega

/-- What a crawl that nothing interferes with keeps of a network, given the outcomes reported so far. -/
structure Exploring (net : Network) (seeds : List Endpoint) (reported : List Outcome) (s : Survey) : Prop where
  lively : s.Lively net
  alert : s.Alert
  charted : s.Charted net seeds reported
  right : ∀ outcome ∈ reported, outcome.Right net
  tallied : s.Tallied net reported

theorem Step.exploring (step : Step net s facts s') (hs : s.Exploring net seeds reported) :
    s'.Exploring net seeds (reported ++ facts) where
  lively := step.lively hs.lively
  alert := step.alert hs.alert
  charted := step.charted hs.charted
  right := by
    intro outcome hmem
    rcases List.mem_append.mp hmem with hmem | hmem
    · exact hs.right outcome hmem
    · exact step.right outcome hmem
  tallied := step.tallied hs.tallied

end Survey

namespace Crawl

/-- Nothing interferes with a crawl of a network in the course of some events. -/
def Undisturbed (world : World) (net : Network) (c : Crawl) : List Event → Prop
  | [] => True
  | event :: events => c.Calm world net event ∧ (c.apply world event).Undisturbed world net events

variable {world : World} {net : Network} {seeds : List Endpoint} {size : Nat} {h : History} {c : Crawl}

theorem afoot_of_exploring (ho : c.outline.Orderly size) (hc : c.outline.Counted h) (hsize : 0 < size)
    (hs : c.survey.Exploring net seeds h.reported) : c.Afoot size net h :=
  ⟨ho, hc, hsize, hs.lively.running, hs.lively.feeding, hs.lively.agrees⟩

/-- A crawl goes on to explore as long as nothing interferes with it. -/
theorem exploring_run (shows : world.Shows net) (ho : c.outline.Orderly size) (hc : c.outline.Counted h)
    (hsize : 0 < size) (hs : c.survey.Exploring net seeds h.reported) {events : List Event}
    (calm : c.Undisturbed world net events) :
    (c.run world events).survey.Exploring net seeds (h ++ c.chronicle world events).reported := by
  induction events generalizing c h with
  | nil =>
      rw [chronicle, List.append_nil]
      exact hs
  | cons event events ih =>
      have hstep := apply_outline world c event
      have hnext := (apply_survey (afoot_of_exploring ho hc hsize hs) shows calm.1).exploring hs
      rw [← History.reported_append] at hnext
      rw [chronicle, ← List.append_assoc]
      exact ih (hstep.orderly ho) (hstep.counted ho hc) hnext calm.2

end Crawl

end BitcoinCrawl
