import BitcoinCrawl.Proofs.Crawl.Course
import BitcoinCrawl.Proofs.Crawl.Visit

set_option autoImplicit false

/-! # Sessions run to their end

A session that runs on a clock of its own follows its course: it receives the results of the course, deals with each
of them to the end, and ends when and why the course does. By induction on what is still to be delivered. -/

namespace BitcoinCrawl.Session

variable {idle : Option Millis} {stopAt : Option Nat}

/-! ## Single steps of a run -/

section Resume

variable {session session' : Session} {s s' : Shared} {before : Option SessionEnd}

theorem resume_stopped (hstop : stopAt.any (· ≤ s.now) = true) {deadline : Option Nat}
    (hphase : session.phase = .awaiting deadline) (fuel : Nat) :
    Run.resume idle stopAt (fuel + 1) ⟨session, s, before⟩ =
      ⟨session, { s with cancelled := true }, some .cancelled⟩ := by
  simp [Run.resume, hstop, step, hphase, stepAwaiting]

theorem resume_finished (hopen : stopAt.any (· ≤ s.now) = false) {reason : SessionEnd}
    (hstep : session.step idle s = (session', s', .finished reason)) (fuel : Nat) :
    Run.resume idle stopAt (fuel + 1) ⟨session, s, before⟩ = ⟨session', s', some reason⟩ := by
  simp [Run.resume, hopen, hstep]

theorem resume_moved (hopen : stopAt.any (· ≤ s.now) = false)
    (hstep : session.step idle s = (session', s', .moved)) (fuel : Nat) :
    Run.resume idle stopAt (fuel + 1) ⟨session, s, before⟩
      = Run.resume idle stopAt fuel ⟨session', s', none⟩ := by
  simp [Run.resume, hopen, hstep]

theorem resume_waiting (hopen : stopAt.any (· ≤ s.now) = false) {wake : Option Nat}
    (hstep : session.step idle s = (session', s', .waiting wake)) (fuel : Nat) :
    Run.resume idle stopAt (fuel + 1) ⟨session, s, before⟩ =
      match earlier wake stopAt with
      | none => ⟨session', s', none⟩
      | some t => Run.resume idle stopAt fuel ⟨session', { s' with now := max t s'.now }, none⟩ := by
  cases hnext : earlier wake stopAt with
  | none => simp [Run.resume, hopen, hstep, hnext]
  | some t => simp [Run.resume, hopen, hstep, hnext]

end Resume

/-! ## Waiting for a result -/

theorem earlier_assoc (t u v : Option Nat) : earlier (earlier t u) v = earlier t (earlier u v) := by
  cases t <;> cases u <;> cases v <;> simp only [earlier, Nat.min_assoc]

theorem earlier_silentEnding {since : Nat} (hstop : ∀ stop ∈ stopAt, since < stop) :
    earlier (idle.map (since + ·)) stopAt = (silentEnding idle stopAt since).map Ending.instant := by
  cases stopAt with
  | none => cases idle <;> rfl
  | some stop =>
      have hlater : max since stop = stop := Nat.max_eq_right (Nat.le_of_lt (hstop stop rfl))
      cases idle with
      | none => exact congrArg some hlater.symm
      | some span =>
          by_cases hfirst : stop ≤ since + span
          · simp [earlier, silentEnding, hfirst, hlater]
          · have hidle : since + span ≤ stop := Nat.le_of_not_le hfirst
            simp [earlier, silentEnding, hfirst, hidle]

/-- A session wakes when a result may arrive, or before if it is to end. -/
theorem earlier_wake (idle : Option Millis) {since : Nat} (hstop : ∀ stop ∈ stopAt, since < stop)
    (wake : Option Nat) :
    earlier (earlier wake (idle.map (since + ·))) stopAt =
      match interruption idle stopAt since wake with
      | some ending => some ending.instant
      | none => wake := by
  rw [earlier_assoc, earlier_silentEnding hstop, interruption]
  cases silentEnding idle stopAt since with
  | none => cases wake <;> rfl
  | some ending =>
      cases wake with
      | none => rfl
      | some t =>
          by_cases hends : ending.forestalls t = true
          · have hle : ending.instant ≤ t := ending.le_of_forestalls hends
            simp [earlier, Option.filter, hends, hle]
          · have hle : t ≤ ending.instant := ending.le_of_not_forestalls hends
            simp [earlier, Option.filter, hends, hle]

/-- The session with the node behind an endpoint, waiting since some instant. -/
def waiting (e : Endpoint) (line : Line) (idle : Option Millis) (since : Nat) : Session :=
  ⟨e, line, .awaiting (idle.map (since + ·))⟩

/-- A session is open at some instant if it waits since one before that and nothing has ended its wait. -/
structure Open (idle : Option Millis) (stopAt : Option Nat) (since now : Nat) : Prop where
  since_le : since ≤ now
  uninterrupted : interruption idle stopAt since (some now) = none

namespace Open

variable {since now : Nat}

theorem not_due (h : Open idle stopAt since now) : stopAt.any (· ≤ now) = false := by
  have hstop := (open_of_interruption h.since_le h.uninterrupted).1
  cases stopAt with
  | none => rfl
  | some stop => exact decide_eq_false (Nat.not_le.mpr (hstop stop rfl))

theorem since_lt (h : Open idle stopAt since now) : ∀ stop ∈ stopAt, since < stop := fun stop hstop =>
  Nat.lt_of_le_of_lt h.since_le ((open_of_interruption h.since_le h.uninterrupted).1 stop hstop)

end Open

variable {e : Endpoint} {line line' : Line} {since : Nat} {s : Shared} {wake : Option Nat}

theorem deadline_any {now : Nat} :
    (idle.map (since + ·)).any (· ≤ now) = true ↔ ∃ span ∈ idle, since + span ≤ now := by
  cases idle <;> simp

theorem step_silent (e : Endpoint) (idle : Option Millis) (since : Nat) (hs : s.cancelled = false)
    (hreceive : line.receive s.now = (line', .waiting wake)) :
    (waiting e line idle since).step idle s =
      if (idle.map (since + ·)).any (· ≤ s.now) then (waiting e line' idle since, s, .finished .idle)
      else (waiting e line' idle since, s, .waiting (earlier wake (idle.map (since + ·)))) := by
  simp only [waiting, step, stepAwaiting, hs, hreceive, Bool.false_eq_true, if_false]

/-- A session whose line is silent until some instant ends its wait as it has to. -/
theorem resume_interrupted (hs : s.cancelled = false) (hopen : Open idle stopAt since s.now)
    (hreceive : line.receive s.now = (line', .waiting wake))
    (hsilent : ∀ now, (∀ t ∈ wake, now < t) → line'.receive now = (line', .waiting wake))
    {ending : Ending} (hends : interruption idle stopAt since wake = some ending) (fuel : Nat) :
    Run.resume idle stopAt (fuel + 2) ⟨waiting e line idle since, s, none⟩ =
      ⟨waiting e line' idle since, { s with now := ending.instant, cancelled := ending.reason == .cancelled },
        some ending.reason⟩ := by
  obtain ⟨hstop, hidle⟩ := open_of_interruption hopen.since_le hopen.uninterrupted
  obtain ⟨hending, hforestalls⟩ := Option.filter_eq_some_iff.mp hends
  have hwake := earlier_wake idle hopen.since_lt wake
  rw [hends] at hwake
  have hstep := step_silent e idle since hs hreceive
  rcases silentEnding_cases hending with ⟨stop, hstopAt, hpatient, rfl⟩ | ⟨span, hspan, hlate, rfl⟩
  · -- It is still waiting when it is stopped.
    have hnow := hstop stop hstopAt
    have hearly : ¬ (idle.map (since + ·)).any (· ≤ s.now) = true := by
      rw [deadline_any]
      rintro ⟨span, hspan, hle⟩
      exact Nat.not_lt.mpr (Nat.le_trans (hpatient span hspan) hle) hnow
    have hinstant : max (max since stop) s.now = max since stop :=
      Nat.max_eq_left (Nat.le_trans (Nat.le_of_lt hnow) (Nat.le_max_right since stop))
    have hdue : stopAt.any (· ≤ max since stop) = true := by
      rw [Option.any_eq_true]
      exact ⟨stop, hstopAt, decide_eq_true (Nat.le_max_right since stop)⟩
    rw [if_neg hearly] at hstep
    rw [resume_waiting hopen.not_due hstep, hwake]
    simp only [hinstant]
    rw [resume_stopped hdue rfl]
    rfl
  · -- It is silent to the end of its patience, which may have come.
    have hdue : stopAt.any (· ≤ since + span) = false := by
      rw [Option.any_eq_false]
      exact fun stop hstopAt => decide_eq_false (Nat.not_le.mpr (hlate stop hstopAt))
    have hnow := hidle span hspan
    have hrunning : (SessionEnd.idle == SessionEnd.cancelled) = s.cancelled := hs.symm
    by_cases hpassed : (idle.map (since + ·)).any (· ≤ s.now) = true
    · obtain ⟨span', hspan', hle⟩ := deadline_any.mp hpassed
      cases Option.mem_unique hspan hspan'
      rw [if_pos hpassed] at hstep
      rw [resume_finished hopen.not_due hstep, Nat.le_antisymm hle hnow]
      simp only [hrunning]
    · rw [if_neg hpassed] at hstep
      rw [resume_waiting hopen.not_due hstep, hwake]
      simp only [Nat.max_eq_left hnow]
      have hquiet : ∀ t ∈ wake, since + span < t := by
        intro t ht
        exact of_decide_eq_true ((Option.all_eq_true _ _).mp hforestalls t ht)
      have hlast := step_silent (s := { s with now := since + span }) e idle since hs (hsilent (since + span) hquiet)
      rw [if_pos (deadline_any.mpr ⟨span, hspan, Nat.le_refl _⟩)] at hlast
      rw [resume_finished hdue hlast]
      simp only [hrunning]

/-- If nothing ends its wait, it wakes when the line may have a result, or never. -/
theorem resume_uninterrupted (hs : s.cancelled = false) (hopen : Open idle stopAt since s.now)
    (hreceive : line.receive s.now = (line', .waiting wake)) (hwake : ∀ t ∈ wake, s.now < t)
    (hends : interruption idle stopAt since wake = none) (fuel : Nat) :
    Run.resume idle stopAt (fuel + 1) ⟨waiting e line idle since, s, none⟩ =
      match wake with
      | some t => Run.resume idle stopAt fuel ⟨waiting e line' idle since, { s with now := t }, none⟩
      | none => ⟨waiting e line' idle since, s, none⟩ := by
  have hstep := step_silent e idle since hs hreceive
  have hearlier := earlier_wake idle hopen.since_lt wake
  rw [hends] at hearlier
  have hearly : ¬ (idle.map (since + ·)).any (· ≤ s.now) = true := by
    rw [deadline_any]
    rintro ⟨span, hspan, hle⟩
    cases wake with
    | none => exact absurd hspan (by rw [endless_of_interruption hends]; nofun)
    | some t =>
        have hnow := hwake t rfl
        have hpatient := (open_of_interruption (Nat.le_trans hopen.since_le (Nat.le_of_lt hnow)) hends).2 span hspan
        omega
  rw [if_neg hearly] at hstep
  rw [resume_waiting hopen.not_due hstep, hearlier]
  cases wake with
  | none => rfl
  | some t => simp only [Nat.max_eq_left (Nat.le_of_lt (hwake t rfl))]

/-- Two lines that bring the same now are the same to a session that is open. -/
theorem resume_congr {line₁ line₂ : Line} (hs : s.cancelled = false) (hopen : Open idle stopAt since s.now)
    (hsame : line₁.receive s.now = line₂.receive s.now) (fuel : Nat) :
    Run.resume idle stopAt (fuel + 1) ⟨waiting e line₁ idle since, s, none⟩ =
      Run.resume idle stopAt (fuel + 1) ⟨waiting e line₂ idle since, s, none⟩ := by
  simp only [Run.resume, hopen.not_due, step, waiting, stepAwaiting, hs, hsame, Bool.false_eq_true, if_false]

/-! ## Receiving a result -/

variable {r : Received} {reason : SessionEnd}

theorem judge_last (e : Endpoint) (s : Shared) (hlast : lastFor? r = some reason) :
    s.judge e r = (s.take e r, .finish reason) := by
  suffices hfinish : ∃ after, s.judge e r = (after, .finish reason) by
    obtain ⟨after, hjudge⟩ := hfinish
    rw [Shared.take, hjudge]
  cases r with
  | ok m => cases hlast
  | error fault =>
      rw [lastFor?] at hlast
      split at hlast
      next => cases hlast
      next hfatal =>
        rw [Shared.judge, if_neg hfatal]
        split at hlast
        next hend => exact ⟨s, by rw [if_pos hend, Option.some.inj hlast]⟩
        next hfailed => exact ⟨_, by rw [if_neg hfailed, Option.some.inj hlast]⟩

theorem resume_last (hs : s.cancelled = false) (hopen : Open idle stopAt since s.now)
    (hreceive : line.receive s.now = (line', .ready r)) (hlast : lastFor? r = some reason) (fuel : Nat) :
    Run.resume idle stopAt (fuel + 1) ⟨waiting e line idle since, s, none⟩ =
      ⟨waiting e line' idle since, s.take e r, some reason⟩ := by
  refine resume_finished hopen.not_due ?_ fuel
  have hjudge := judge_last e s hlast
  simp only [waiting, step, stepAwaiting, hs, hreceive, hjudge, Bool.false_eq_true, if_false]

/-- A session deals with a message in one step, or in two if it has to signal what is new. -/
theorem resume_handling (idle : Option Millis) (stopAt : Option Nat) (e : Endpoint) (line : Line) (m : Message)
    (s : Shared) (hopen : stopAt.any (· ≤ s.now) = false) (fuel : Nat) :
    ∃ left, fuel ≤ left ∧
      Run.resume idle stopAt (fuel + 2) ⟨⟨e, line, .handling (.ofMessage m)⟩, s, none⟩ =
        Run.resume idle stopAt left ⟨waiting e line idle s.now, (s.attend e m).1, none⟩ := by
  have hground := s.handle_ground e (.ofMessage m)
  rcases hhandle : s.handle e (.ofMessage m) with ⟨after, due⟩
  rw [hhandle] at hground
  have hnow : after.now = s.now := hground.now
  have hattend : (s.attend e m).1 = if due then after.signal else after := by rw [Shared.attend, hhandle]
  rw [hattend]
  cases due with
  | false =>
      refine ⟨fuel + 1, by omega, ?_⟩
      have hstep : (⟨e, line, .handling (.ofMessage m)⟩ : Session).step idle s =
          (waiting e line idle s.now, after, .moved) := by
        simp only [step, hhandle, await, deadline, hnow]
        rfl
      exact resume_moved hopen hstep _
  | true =>
      refine ⟨fuel, Nat.le_refl _, ?_⟩
      have hfirst : (⟨e, line, .handling (.ofMessage m)⟩ : Session).step idle s =
          (⟨e, line, .signalling⟩, after, .moved) := by
        simp only [step, hhandle]
      have hsecond : (⟨e, line, .signalling⟩ : Session).step idle after =
          (waiting e line idle s.now, after.signal, .moved) := by
        simp only [step, await, deadline, hnow]
        rfl
      rw [resume_moved hopen hfirst, resume_moved (by rwa [hnow]) hsecond]
      rfl

/-- After any other result it waits again, as soon as it has dealt with it. -/
theorem resume_next (hs : s.cancelled = false) (hopen : Open idle stopAt since s.now)
    (hreceive : line.receive s.now = (line', .ready r)) (hmore : lastFor? r = none) (fuel : Nat) :
    ∃ left, fuel ≤ left ∧ Run.resume idle stopAt (fuel + 3) ⟨waiting e line idle since, s, none⟩ =
      Run.resume idle stopAt left ⟨waiting e line' idle s.now, s.take e r, none⟩ := by
  cases r with
  | ok m =>
      have hjudge : s.judge e (.ok m) = ({ s with metrics := s.metrics.countIn }, .handle (.ofMessage m)) := rfl
      have hstep : (waiting e line idle since).step idle s =
          (⟨e, line', .handling (.ofMessage m)⟩, { s with metrics := s.metrics.countIn }, .moved) := by
        simp only [waiting, step, stepAwaiting, hs, hreceive, hjudge, Bool.false_eq_true, if_false]
      obtain ⟨left, hleft, hrun⟩ :=
        resume_handling idle stopAt e line' m { s with metrics := s.metrics.countIn } hopen.not_due fuel
      refine ⟨left, hleft, ?_⟩
      rw [resume_moved hopen.not_due hstep, hrun]
      rfl
  | error fault =>
      have hskip : fault.isRecoverable = true := by
        by_contra hfatal
        rw [lastFor?, if_neg hfatal] at hmore
        split at hmore <;> cases hmore
      have hjudge : s.judge e (.error fault) = (s.take e (.error fault), .goOn) := by
        rw [Shared.take_skipped hskip, Shared.judge, if_pos hskip]
        rfl
      have hnow : (s.take e (.error fault)).now = s.now := by rw [Shared.take_skipped hskip]; rfl
      have hstep : (waiting e line idle since).step idle s =
          (waiting e line' idle s.now, s.take e (.error fault), .moved) := by
        simp only [waiting, step, stepAwaiting, hs, hreceive, hjudge, Bool.false_eq_true, if_false, await, deadline,
          hnow]
      exact ⟨fuel + 2, by omega, resume_moved hopen.not_due hstep _⟩

/-! ## Whole runs -/

/-- A run has followed a course: it has dealt with what the course receives, and has ended when and why the course
    does. Only a session that was stopped finds the crawl stopped. -/
structure Follows (e : Endpoint) (s : Shared) (c : List Received × Option Ending) (run : Run) : Prop where
  reason : run.reason = c.2.map Ending.reason
  shared : ∃ now, (∀ ending ∈ c.2, now = ending.instant) ∧
    run.shared = { s.takeAll e c.1 with now, cancelled := c.2.any (·.reason == .cancelled) }

namespace Follows

variable {c : List Received × Option Ending} {run : Run}

/-- When a session starts to wait does not matter to what it does later. -/
theorem earlier (now : Nat) (h : Follows e { s with now } c run) : Follows e s c run := by
  obtain ⟨now', hinstant, hshared⟩ := h.shared
  refine ⟨h.reason, now', hinstant, ?_⟩
  rw [hshared, Shared.takeAll_at e c.1 s now s.cancelled]

theorem cons (h : Follows e (s.take e r) c run) : Follows e s (r :: c.1, c.2) run := ⟨h.reason, h.shared⟩

end Follows

theorem follows_interrupted {ending : Ending} (session : Session) :
    Follows e s ([], some ending)
      ⟨session, { s with now := ending.instant, cancelled := ending.reason == .cancelled }, some ending.reason⟩ :=
  ⟨rfl, ending.instant, by rintro _ ⟨⟩; rfl, rfl⟩

theorem follows_last (hs : s.cancelled = false) (hlast : lastFor? r = some reason) (session : Session) :
    Follows e s ([r], some ⟨s.now, reason⟩) ⟨session, s.take e r, some reason⟩ := by
  have hrunning : (reason == .cancelled) = false := by
    cases r with
    | ok m => cases hlast
    | error fault =>
        rw [lastFor?] at hlast
        split at hlast
        next => cases hlast
        next => split at hlast <;> cases hlast <;> rfl
  obtain ⟨hnow, hcancelled⟩ := s.take_clock e r
  refine ⟨rfl, s.now, by rintro _ ⟨⟩; rfl, ?_⟩
  show s.take e r = { s.take e r with now := s.now, cancelled := reason == .cancelled }
  rw [hrunning, ← hs, ← hnow, ← hcancelled]

/-- A session that starts to wait follows its course if it does so whenever nothing ends its wait at once. -/
theorem follows_start {ds : List Delivery} {fuel : Nat}
    (h : Open idle stopAt s.now s.now → Follows e s (course idle stopAt s.now (timeline s.now ds))
      (Run.resume idle stopAt (fuel + 1) ⟨waiting e line idle s.now, s, none⟩)) :
    Follows e s (course idle stopAt s.now (timeline s.now ds))
      (Run.resume idle stopAt (fuel + 1) ⟨waiting e line idle s.now, s, none⟩) := by
  cases hends : interruption idle stopAt s.now (some s.now) with
  | none => exact h ⟨Nat.le_refl _, hends⟩
  | some ending =>
      rw [course_of_interruption (interruption_later (le_of_timeline ds s.now) hends)]
      obtain ⟨hending, hforestalls⟩ := Option.filter_eq_some_iff.mp hends
      rcases silentEnding_cases hending with ⟨stop, hstopAt, -, rfl⟩ | ⟨span, -, -, rfl⟩
      · have hstop : max s.now stop ≤ s.now := of_decide_eq_true hforestalls
        have hdue : stopAt.any (· ≤ s.now) = true := by
          rw [Option.any_eq_true]
          exact ⟨stop, hstopAt, decide_eq_true (Nat.le_trans (Nat.le_max_right s.now stop) hstop)⟩
        have hinstant : max s.now stop = s.now := Nat.le_antisymm hstop (Nat.le_max_left s.now stop)
        rw [resume_stopped hdue rfl, hinstant]
        exact follows_interrupted _
      · -- Nobody has been idle for too long right from the start.
        exact absurd (of_decide_eq_true hforestalls) (Nat.not_lt.mpr (Nat.le_add_right s.now span))

/-! ## Pauses -/

/-- A pause that is over brings what stands behind it. -/
theorem receive_paused {now : Nat} {span : Millis} {pauseEnd : Option Nat} (ds : List Delivery)
    (hover : pauseEnd.getD (now + span) ≤ now) :
    (Line.inbox ⟨.delay span :: ds, pauseEnd⟩).receive now = (Line.inbox ⟨ds, none⟩).receive now := by
  simp only [Line.receive, Inbox.poll, hover, if_true]

theorem receive_pausing {now : Nat} {span : Millis} {pauseEnd : Option Nat} (ds : List Delivery)
    (hearly : now < pauseEnd.getD (now + span)) :
    (Line.inbox ⟨.delay span :: ds, pauseEnd⟩).receive now =
      (.inbox ⟨.delay span :: ds, some (pauseEnd.getD (now + span))⟩,
        .waiting (some (pauseEnd.getD (now + span)))) := by
  simp only [Line.receive, Inbox.poll, Nat.not_le.mpr hearly, if_false]

/-- **By induction on what is still to be delivered**, an open session follows its course, if it may take enough
    steps. -/
theorem resume_follows (ds : List Delivery) {fuel : Nat} (hfuel : 3 * ds.length + 2 ≤ fuel)
    (hs : s.cancelled = false) (hopen : Open idle stopAt since s.now) :
    Follows e s (course idle stopAt since (timeline s.now ds))
      (Run.resume idle stopAt fuel ⟨waiting e (.inbox ⟨ds, none⟩) idle since, s, none⟩) := by
  induction ds generalizing s since fuel with
  | nil =>
      obtain ⟨fuel, rfl⟩ := Nat.exists_eq_add_of_le' (Nat.le_trans (Nat.le_add_left 1 1) hfuel)
      have hreceive : (Line.inbox ⟨[], none⟩).receive s.now =
          (.inbox ⟨[], none⟩, .ready (.error (.transport .endOfStream))) := rfl
      rw [resume_last hs hopen hreceive rfl, timeline, course, hopen.uninterrupted]
      exact follows_last hs rfl _
  | cons d ds ih =>
      cases d with
      | result r =>
          have hreceive : (Line.inbox ⟨.result r :: ds, none⟩).receive s.now
              = (.inbox ⟨ds, none⟩, .ready r) := rfl
          rw [timeline, course, hopen.uninterrupted]
          cases hlast : lastFor? r with
          | some reason =>
              obtain ⟨fuel, rfl⟩ := Nat.exists_eq_add_of_le' (Nat.le_trans (Nat.le_add_left 1 _) hfuel)
              rw [resume_last hs hopen hreceive hlast]
              exact follows_last hs hlast _
          | none =>
              obtain ⟨fuel, rfl⟩ := Nat.exists_eq_add_of_le' (Nat.le_trans (Nat.le_add_left 3 _) hfuel)
              obtain ⟨left, hleft, hrun⟩ := resume_next (e := e) hs hopen hreceive hlast fuel
              obtain ⟨hnow, hcancelled⟩ := s.take_clock e r
              rw [List.length_cons] at hfuel
              obtain ⟨left, rfl⟩ := Nat.exists_eq_add_of_le' (show 1 ≤ left by omega)
              rw [hrun, ← hnow]
              refine .cons (follows_start fun hopen => ?_)
              exact ih (by omega) (hcancelled.trans hs) hopen
      | delay span =>
          rw [timeline]
          rw [List.length_cons] at hfuel
          obtain ⟨fuel, rfl⟩ := Nat.exists_eq_add_of_le' (show 2 ≤ fuel by omega)
          rcases Nat.eq_zero_or_pos span with rfl | hspan
          · have hover : (Line.inbox ⟨.delay 0 :: ds, none⟩).receive s.now
                = (Line.inbox ⟨ds, none⟩).receive s.now :=
              receive_paused ds (Nat.le_refl s.now)
            rw [resume_congr hs hopen hover]
            exact ih (by omega) hs hopen
          · have hlater : s.now < s.now + span := Nat.lt_add_of_pos_right hspan
            have hreceive : (Line.inbox ⟨.delay span :: ds, none⟩).receive s.now =
                (.inbox ⟨.delay span :: ds, some (s.now + span)⟩, .waiting (some (s.now + span))) :=
              receive_pausing ds hlater
            have hsilent : ∀ now, (∀ t ∈ some (s.now + span), now < t) →
                (Line.inbox ⟨.delay span :: ds, some (s.now + span)⟩).receive now =
                  (.inbox ⟨.delay span :: ds, some (s.now + span)⟩, .waiting (some (s.now + span))) :=
              fun now hnow => receive_pausing ds (hnow _ rfl)
            cases hends : interruption idle stopAt since (some (s.now + span)) with
            | some ending =>
                rw [resume_interrupted hs hopen hreceive hsilent hends,
                  course_of_interruption (interruption_later (le_of_timeline ds _) hends)]
                exact follows_interrupted _
            | none =>
                have hopen' : Open idle stopAt since (s.now + span) :=
                  ⟨Nat.le_trans hopen.since_le (Nat.le_of_lt hlater), hends⟩
                rw [resume_uninterrupted hs hopen hreceive (by rintro _ ⟨⟩; exact hlater) hends]
                -- Behind the pause the session still waits since the same instant.
                let behind : Shared := { s with now := s.now + span }
                have hover : (Line.inbox ⟨.delay span :: ds, some (s.now + span)⟩).receive behind.now =
                    (Line.inbox ⟨ds, none⟩).receive behind.now := receive_paused ds (Nat.le_refl (s.now + span))
                have hbehind := ih (s := behind) (show 3 * ds.length + 2 ≤ fuel + 1 by omega) hs hopen'
                rw [← resume_congr (s := behind) hs hopen' hover] at hbehind
                exact hbehind.earlier (s.now + span)
      | hold =>
          rw [List.length_cons] at hfuel
          obtain ⟨fuel, rfl⟩ := Nat.exists_eq_add_of_le' (show 2 ≤ fuel by omega)
          have hsilent : ∀ now, (Line.inbox ⟨.hold :: ds, none⟩).receive now =
              (.inbox ⟨.hold :: ds, none⟩, .waiting none) := fun _ => rfl
          rw [timeline, course]
          cases hends : interruption idle stopAt since none with
          | some ending =>
              rw [resume_interrupted hs hopen (hsilent s.now) (fun now _ => hsilent now) hends]
              exact follows_interrupted _
          | none =>
              rw [resume_uninterrupted hs hopen (hsilent s.now) (by rintro _ ⟨⟩) hends]
              refine ⟨rfl, s.now, by rintro _ ⟨⟩, ?_⟩
              show s = { s with cancelled := false }
              rw [← hs]

theorem runToEnd_follows (idle : Option Millis) (stopAt : Option Nat) (e : Endpoint) (ds : List Delivery)
    (hs : s.cancelled = false) :
    Follows e s (course idle stopAt s.now (timeline s.now ds)) (runToEnd idle stopAt e (.inbox ⟨ds, none⟩) s) := by
  have hfuel : 3 * ds.length + 2 ≤ 15 + 8 * ds.length + 1 := by omega
  have hsteps : 16 + 8 * weight (.inbox ⟨ds, none⟩) = 15 + 8 * ds.length + 1 := by
    show 16 + 8 * ds.length = _
    omega
  show Follows e s _
    (Run.resume idle stopAt (16 + 8 * weight (.inbox ⟨ds, none⟩)) ⟨waiting e _ idle s.now, s, none⟩)
  rw [hsteps]
  exact follows_start fun hopen => resume_follows ds hfuel hs hopen

/-! ## Nothing is sent -/

theorem receive_sent (now : Nat) (line : Line) : (line.receive now).1.sent = line.sent := by
  cases line with
  | link link =>
      have hsent : (link.receive now).1.sent = link.sent := rfl
      rcases hreceive : link.receive now with ⟨after, r | wake⟩
      · rw [hreceive] at hsent
        simp only [Line.receive, hreceive]
        exact hsent
      · rw [hreceive] at hsent
        simp only [Line.receive, hreceive]
        exact hsent
  | inbox inbox => rfl

theorem step_sent (idle : Option Millis) (session : Session) (s : Shared) :
    (session.step idle s).1.line.sent = session.line.sent := by
  unfold step
  split
  next deadline hphase =>
    unfold stepAwaiting
    split
    next => rfl
    next =>
      have hsent := receive_sent s.now session.line
      rcases hreceive : session.line.receive s.now with ⟨line, r | wake⟩
      · rw [hreceive] at hsent
        dsimp only
        rcases s.judge session.endpoint r with ⟨after, verdict⟩
        cases verdict <;> exact hsent
      · rw [hreceive] at hsent
        dsimp only
        split <;> exact hsent
  next notice hphase =>
    rcases s.handle session.endpoint notice with ⟨after, due⟩
    cases due <;> rfl
  next hphase => rfl

/-- However a session runs, and on whatever connection, it sends nothing. -/
theorem resume_sent (idle : Option Millis) (stopAt : Option Nat) (fuel : Nat) (run : Run) :
    (Run.resume idle stopAt fuel run).session.line.sent = run.session.line.sent := by
  induction fuel generalizing run with
  | zero => rfl
  | succ fuel ih =>
      rw [Run.resume]
      have hsent := step_sent idle run.session
        (if stopAt.any (· ≤ run.shared.now) then { run.shared with cancelled := true } else run.shared)
      split
      next hstep =>
        rw [hstep] at hsent
        exact hsent
      next hstep =>
        rw [hstep] at hsent
        exact (ih _).trans hsent
      next hstep =>
        rw [hstep] at hsent
        split
        next => exact hsent
        next => exact (ih _).trans hsent

/-! ## Leaving out what is skipped -/

/-- A session skips what it could not make sense of, if it can make sense of what follows. -/
def Skipped (r : Received) : Prop := ∃ fault : ConnectionFault, r = .error fault ∧ fault.isRecoverable = true

/-- The warnings of a session about what it skips. -/
def IsSkipWarning (e : Endpoint) (line : LogLine) : Prop :=
  ∃ fault : ConnectionFault, fault.isRecoverable = true ∧ line = Shared.skipWarning e fault

theorem takeAll_without {rs rs' : List Received} (h : Without Skipped rs rs') (e : Endpoint) (s : Shared) :
    ∃ lines lines' : List LogLine, Without (IsSkipWarning e) lines lines' ∧
      (s.takeAll e rs).log = s.log ++ lines.toArray ∧
      ∀ log, ({ s with log } : Shared).takeAll e rs' = { s.takeAll e rs with log := log ++ lines'.toArray } := by
  induction h generalizing s with
  | nil => exact ⟨[], [], .nil, by simp [Shared.takeAll], fun log => by simp [Shared.takeAll]⟩
  | keep r _ ih =>
      obtain ⟨first, hfirst⟩ := s.take_relogged e r
      obtain ⟨lines, lines', hlines, hlog, hrun⟩ := ih (s.take e r)
      have htaken : (s.take e r).log = s.log ++ first := congrArg Shared.log (hfirst s.log)
      have hfront : ∀ (log : Log) (l : List LogLine),
          log ++ (first.toList ++ l).toArray = log ++ first ++ l.toArray :=
        fun log l => by rw [← List.append_toArray, Array.toArray_toList, Array.append_assoc]
      refine ⟨first.toList ++ lines, first.toList ++ lines', hlines.append_left _, ?_, fun log => ?_⟩
      · rw [hfront, ← htaken]
        exact hlog
      · show (({ s with log } : Shared).take e r).takeAll e _ = _
        rw [hfirst, hrun, hfront]
        rfl
  | drop r hskipped _ ih =>
      obtain ⟨fault, rfl, hrecoverable⟩ := hskipped
      obtain ⟨lines, lines', hlines, hlog, hrun⟩ := ih (s.take e (.error fault))
      rw [Shared.take_skipped hrecoverable] at hlog hrun
      refine ⟨Shared.skipWarning e fault :: lines, lines', .drop _ ⟨fault, hrecoverable, rfl⟩ hlines, ?_,
        fun log => ?_⟩
      · show ((s.take e (.error fault)).takeAll e _).log = _
        rw [Shared.take_skipped hrecoverable, hlog]
        simp [Shared.report]
      · show _ = { (s.take e (.error fault)).takeAll e _ with log := log ++ lines'.toArray }
        rw [Shared.take_skipped hrecoverable]
        exact hrun log

/-- Results that all arrive at once, before nothing more does. -/
def atOnce (rs : List Received) : List Delivery := rs.map Delivery.result

theorem course_atOnce_cons {now : Nat} (hopen : interruption idle stopAt now (some now) = none) (r : Received)
    (rs : List Received) :
    course idle stopAt now (timeline now (atOnce (r :: rs))) =
      match lastFor? r with
      | some reason => ([r], some ⟨now, reason⟩)
      | none =>
        (r :: (course idle stopAt now (timeline now (atOnce rs))).1,
          (course idle stopAt now (timeline now (atOnce rs))).2) := by
  show course idle stopAt now ((now, r) :: timeline now (atOnce rs)) = _
  cases hlast : lastFor? r with
  | none => simp only [course, hopen, hlast]
  | some reason => simp only [course, hopen, hlast]

/-- A session that nothing ends at once receives them up to one that is the last, skipped ones or not. -/
theorem course_atOnce {rs rs' : List Received} (h : Without Skipped rs rs') {now : Nat}
    (hopen : interruption idle stopAt now (some now) = none) :
    ∃ received received' ending, Without Skipped received received' ∧
      course idle stopAt now (timeline now (atOnce rs)) = (received, some ending) ∧
      course idle stopAt now (timeline now (atOnce rs')) = (received', some ending) := by
  induction h with
  | nil =>
      have hend : course idle stopAt now (timeline now (atOnce [])) =
          ([.error (.transport .endOfStream)], some ⟨now, .closed⟩) := by
        show course idle stopAt now [(now, _)] = _
        rw [course, hopen]
        rfl
      exact ⟨_, _, _, .keep _ .nil, hend, hend⟩
  | @keep r rs rs' _ ih =>
      obtain ⟨received, received', ending, hreceived, hcourse, hcourse'⟩ := ih
      cases hlast : lastFor? r with
      | some reason =>
          refine ⟨[r], [r], ⟨now, reason⟩, .keep r .nil, ?_, ?_⟩
          · rw [course_atOnce_cons hopen, hlast]
          · rw [course_atOnce_cons hopen, hlast]
      | none =>
          refine ⟨r :: received, r :: received', ending, .keep r hreceived, ?_, ?_⟩
          · rw [course_atOnce_cons hopen, hlast, hcourse]
          · rw [course_atOnce_cons hopen, hlast, hcourse']
  | drop r hskipped _ ih =>
      obtain ⟨received, received', ending, hreceived, hcourse, hcourse'⟩ := ih
      have hmore : lastFor? r = none := by
        obtain ⟨fault, rfl, hrecoverable⟩ := hskipped
        rw [lastFor?, if_pos hrecoverable]
      refine ⟨r :: received, received', ending, .drop r hskipped hreceived, ?_, hcourse'⟩
      rw [course_atOnce_cons hopen, hmore, hcourse]

/-- Two runs of a session with the same effects, apart from warnings of the first about what it has skipped. -/
structure SameButWarnings (e : Endpoint) (s : Shared) (run run' : Run) : Prop where
  reason : run'.reason = run.reason
  shared : run'.shared = { run.shared with log := run'.shared.log }
  log : ∃ lines lines' : List LogLine, Without (IsSkipWarning e) lines lines' ∧
    run.shared.log = s.log ++ lines.toArray ∧ run'.shared.log = s.log ++ lines'.toArray

theorem runToEnd_without (idle : Option Millis) (stopAt : Option Nat) (e : Endpoint) (hs : s.cancelled = false)
    {rs rs' : List Received} (h : Without Skipped rs rs') :
    SameButWarnings e s (runToEnd idle stopAt e (.inbox ⟨atOnce rs, none⟩) s)
      (runToEnd idle stopAt e (.inbox ⟨atOnce rs', none⟩) s) := by
  have hfollows := runToEnd_follows idle stopAt e (atOnce rs) hs
  have hfollows' := runToEnd_follows idle stopAt e (atOnce rs') hs
  have hcourses : ∃ received received' ending, Without Skipped received received' ∧
      course idle stopAt s.now (timeline s.now (atOnce rs)) = (received, some ending) ∧
      course idle stopAt s.now (timeline s.now (atOnce rs')) = (received', some ending) := by
    cases hends : interruption idle stopAt s.now (some s.now) with
    | none => exact course_atOnce h hends
    | some ending =>
        exact ⟨[], [], ending, .nil, course_of_interruption (interruption_later (le_of_timeline _ _) hends),
          course_of_interruption (interruption_later (le_of_timeline _ _) hends)⟩
  obtain ⟨received, received', ending, hreceived, hcourse, hcourse'⟩ := hcourses
  rw [hcourse] at hfollows
  rw [hcourse'] at hfollows'
  obtain ⟨now, hinstant, hshared⟩ := hfollows.shared
  obtain ⟨now', hinstant', hshared'⟩ := hfollows'.shared
  cases hinstant ending rfl
  cases hinstant' ending rfl
  obtain ⟨lines, lines', hlines, hlog, htaken⟩ := takeAll_without hreceived e s
  have htaken' : s.takeAll e received' = { s.takeAll e received with log := s.log ++ lines'.toArray } := htaken s.log
  refine ⟨hfollows'.reason.trans hfollows.reason.symm, ?_, lines, lines', hlines, ?_, ?_⟩
  · rw [hshared', hshared, htaken']
  · rw [hshared]
    exact hlog
  · rw [hshared', htaken']

/-! ## The dispatcher -/

/-- What comes of a session on some deliveries. -/
structure Dispatched (idle : Option Millis) (stopAt : Option Nat) (e : Endpoint) (s : Shared) (ds : List Delivery)
    (run : Run) : Prop where
  /-- It ends as its course does: stopped, idle, or with the first result that is not skipped and no message. -/
  reason : run.reason = (course idle stopAt s.now (timeline s.now ds)).2.map Ending.reason
  messagesIn : run.shared.metrics.messagesIn =
    s.metrics.messagesIn + .ofNat (messages (course idle stopAt s.now (timeline s.now ds)).1).length
  /-- The registry has heard the messages received before, each once and in order, and nothing else. -/
  registry : run.shared.registry = s.registry.hearAll e (messages (course idle stopAt s.now (timeline s.now ds)).1)

/-- **A session runs to its end.** Whatever is in the registry, whatever arrives when, and whether and when it may be
    stopped or fall idle: a session sends nothing; it ends when and why its course does; the messages of the course
    are counted, and the registry has heard them in their order and nothing else. If everything arrives at once, what
    is skipped could as well be left out, apart from the warnings about it. -/
theorem runToEnd_dispatched (idle : Option Millis) (stopAt : Option Nat) (e : Endpoint) (s : Shared)
    (hs : s.cancelled = false) :
    (∀ line, (runToEnd idle stopAt e line s).session.line.sent = line.sent) ∧
      (∀ ds, Dispatched idle stopAt e s ds (runToEnd idle stopAt e (.inbox ⟨ds, none⟩) s)) ∧
      ∀ rs rs', Without Skipped rs rs' →
        SameButWarnings e s (runToEnd idle stopAt e (.inbox ⟨atOnce rs, none⟩) s)
          (runToEnd idle stopAt e (.inbox ⟨atOnce rs', none⟩) s) := by
  refine ⟨fun line => resume_sent idle stopAt _ _, fun ds => ?_,
    fun rs rs' h => runToEnd_without idle stopAt e hs h⟩
  have hfollows := runToEnd_follows idle stopAt e ds hs
  obtain ⟨now, -, hshared⟩ := hfollows.shared
  refine ⟨hfollows.reason, ?_, ?_⟩
  · rw [hshared]
    exact Shared.takeAll_messagesIn e _ s
  · rw [hshared]
    exact Shared.takeAll_registry e _ s

/-- A complete frame whose payload ends inside a field. -/
def damaged : Received := .error (.transport (.decode .truncated))

/-- A peer that says something, damages a frame and then falls silent, until the session gives up on it; and one that
    does both at once and hangs up, which is as good as if it had not damaged anything. -/
theorem silent_peer_dispatched :
    ({ host := default } : Shared).cancelled = false ∧
      (runToEnd (some 5) (some 100) firstPeer
          (.inbox ⟨[.result (.ok (.ping 1)), .delay 3, .result damaged, .delay 10, .result (.ok (.ping 2))], none⟩)
          { host := default }).reason = some .idle ∧
      SameButWarnings firstPeer { host := default }
        (runToEnd (some 5) (some 100) firstPeer (.inbox ⟨atOnce [damaged, .ok (.ping 1)], none⟩)
          { host := default })
        (runToEnd (some 5) (some 100) firstPeer (.inbox ⟨atOnce [.ok (.ping 1)], none⟩) { host := default }) := by
  have hrunning : ({ host := default } : Shared).cancelled = false := rfl
  obtain ⟨-, hdispatched, hwithout⟩ :=
    runToEnd_dispatched (some 5) (some 100) firstPeer { host := default } hrunning
  refine ⟨hrunning, (hdispatched _).reason.trans rfl, hwithout _ _ ?_⟩
  exact .drop damaged ⟨_, rfl, rfl⟩ (.keep _ .nil)

end BitcoinCrawl.Session
